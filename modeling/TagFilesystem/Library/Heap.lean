import Mathlib.Data.List.Basic

namespace TagFilesystem

/-- Cell `i` is the object at address `i`; `none` once it has been freed. -/
structure Heap (α : Type*) where
  cells : List (Option α)
  deriving Repr, DecidableEq

namespace Heap

variable {α : Type*} {h : Heap α} {i j : ℕ} {a b : α}

def empty : Heap α := ⟨[]⟩

/-- The address of the next object. -/
def next (h : Heap α) : ℕ := h.cells.length

def get? (h : Heap α) (i : ℕ) : Option α := h.cells[i]?.join

def alloc (h : Heap α) (a : α) : Heap α := ⟨h.cells ++ [some a]⟩

/-- Overwrites a live object; a freed one stays freed. -/
def write (h : Heap α) (i : ℕ) (a : α) : Heap α := ⟨h.cells.modify i (Option.map fun _ => a)⟩

def free (h : Heap α) (i : ℕ) : Heap α := ⟨h.cells.modify i fun _ => none⟩

@[simp] theorem get?_empty : (empty : Heap α).get? i = none := rfl

theorem get?_eq_none (hi : h.next ≤ i) : h.get? i = none := by
  simp [get?, List.getElem?_eq_none hi]

theorem lt_next (ha : h.get? i = some a) : i < h.next := by
  by_contra hi
  simp [get?_eq_none (Nat.le_of_not_lt hi)] at ha

theorem ne_next (ha : h.get? i = some a) : i ≠ h.next := Nat.ne_of_lt (lt_next ha)

@[simp] theorem next_alloc : (h.alloc a).next = h.next + 1 := by simp [next, alloc]

@[simp] theorem next_write : (h.write i a).next = h.next := by simp [next, write]

@[simp] theorem next_free : (h.free i).next = h.next := by simp [next, free]

theorem get?_alloc : (h.alloc a).get? j = if j = h.next then some a else h.get? j := by
  unfold get? alloc next
  rcases Nat.lt_trichotomy j h.cells.length with hj | hj | hj
  · simp [List.getElem?_append_left hj, Nat.ne_of_lt hj]
  · simp [hj]
  · rw [List.getElem?_eq_none (by simp; omega), List.getElem?_eq_none (by omega)]
    simp [Nat.ne_of_gt hj]

@[simp] theorem get?_alloc_next : (h.alloc a).get? h.next = some a := by simp [get?_alloc]

theorem get?_alloc_cases (hb : (h.alloc a).get? j = some b) :
    j = h.next ∧ b = a ∨ j ≠ h.next ∧ h.get? j = some b := by
  rw [get?_alloc] at hb
  split_ifs at hb with hj
  · exact .inl ⟨hj, (Option.some.inj hb).symm⟩
  · exact .inr ⟨hj, hb⟩

theorem get?_alloc_of_some (hb : h.get? j = some b) : (h.alloc a).get? j = some b := by
  rw [get?_alloc, if_neg (ne_next hb), hb]

theorem get?_write : (h.write i a).get? j = if j = i then (h.get? j).map fun _ => a else h.get? j := by
  unfold get? write
  rw [List.getElem?_modify]
  by_cases hj : j = i
  · subst hj
    cases h.cells[j]? <;> simp
  · simp [hj, Ne.symm hj]

theorem get?_write_self (hb : h.get? i = some b) : (h.write i a).get? i = some a := by
  simp [get?_write, hb]

theorem get?_write_ne (hj : j ≠ i) : (h.write i a).get? j = h.get? j := by simp [get?_write, hj]

theorem get?_write_cases (hb : (h.write i a).get? j = some b) :
    j = i ∧ b = a ∨ j ≠ i ∧ h.get? j = some b := by
  rw [get?_write] at hb
  split_ifs at hb with hj
  · obtain ⟨-, -, hab⟩ := Option.map_eq_some_iff.mp hb
    exact .inl ⟨hj, hab.symm⟩
  · exact .inr ⟨hj, hb⟩

theorem get?_free : (h.free i).get? j = if j = i then none else h.get? j := by
  unfold get? free
  rw [List.getElem?_modify]
  by_cases hj : j = i
  · subst hj
    cases h.cells[j]? <;> simp
  · simp [hj, Ne.symm hj]

theorem of_get?_free (ha : (h.free i).get? j = some a) : j ≠ i ∧ h.get? j = some a := by
  rw [get?_free] at ha
  split_ifs at ha with hj
  exact ⟨hj, ha⟩

theorem get?_free_alloc : ((h.alloc a).free h.next).get? j = h.get? j := by
  rw [get?_free, get?_alloc]
  split_ifs with hj
  · rw [hj, get?_eq_none (Nat.le_refl _)]
  · rfl

@[simp] theorem write_write : (h.write i a).write i b = h.write i b := by
  simp only [write, Heap.mk.injEq]
  apply List.ext_getElem?
  intro j
  simp only [List.getElem?_modify]
  by_cases hj : i = j <;> cases h.cells[j]? <;> simp [hj, Function.comp_def]

theorem write_of_get? (ha : h.get? i = some a) : h.write i a = h := by
  obtain ⟨cells⟩ := h
  simp only [write, Heap.mk.injEq]
  apply List.ext_getElem?
  intro j
  rw [List.getElem?_modify]
  by_cases hj : i = j
  · subst hj
    have hc : cells[i]? = some (some a) := Option.join_eq_some_iff.mp ha
    simp [hc]
  · simp [hj]

@[simp] theorem free_write : (h.write i a).free i = h.free i := by
  simp only [write, free, Heap.mk.injEq]
  apply List.ext_getElem?
  intro j
  simp only [List.getElem?_modify]
  by_cases hj : i = j <;> cases h.cells[j]? <;> simp [hj]

@[simp] theorem write_alloc : (h.alloc a).write h.next b = h.alloc b := by
  simp only [write, alloc, next, Heap.mk.injEq]
  apply List.ext_getElem?
  intro j
  rw [List.getElem?_modify]
  rcases Nat.lt_trichotomy j h.cells.length with hj | hj | hj
  · simp [List.getElem?_append_left hj, (Nat.ne_of_lt hj).symm]
  · simp [hj]
  · have hnone (c : Option α) : (h.cells ++ [c])[j]? = none := by
      apply List.getElem?_eq_none
      simp only [List.length_append, List.length_singleton]
      omega
    simp [hnone]

end Heap

end TagFilesystem
