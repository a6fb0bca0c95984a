import TagFilesystem.Library.Heap
import TagFilesystem.Library.Table
import Mathlib.Tactic.SplitIfs

namespace TagFilesystem

variable {κ ι α : Type*}

/-- Every name leads to a live object that carries it, and no name occurs twice. -/
structure Named [DecidableEq κ] (key : α → κ) (names : Table κ ℕ) (heap : Heap α) : Prop where
  unique : names.Unique
  object : ∀ {k i}, names.get? k = some i → ∃ a, heap.get? i = some a ∧ key a = k

namespace Named

variable [DecidableEq κ] {key : α → κ} {names : Table κ ℕ} {heap : Heap α} {k k' : κ} {i : ℕ} {a a' : α}

theorem empty : Named key .empty .empty where
  unique := Table.unique_empty
  object h := by cases h

section

variable (h : Named key names heap)
include h

theorem key_eq (hk : names.get? k = some i) (ha : heap.get? i = some a) : key a = k := by
  obtain ⟨b, hb, hkey⟩ := h.object hk
  rw [ha] at hb
  cases hb
  exact hkey

theorem inj (hk : names.get? k = some i) (hk' : names.get? k' = some i) : k = k' := by
  obtain ⟨a, ha, hkey⟩ := h.object hk
  rw [← hkey, h.key_eq hk' ha]

theorem write (ha : heap.get? i = some a) (hkey : key a' = key a) :
    Named key names (heap.write i a') where
  unique := h.unique
  object {k j} hk := by
    obtain ⟨b, hb, hkb⟩ := h.object hk
    by_cases hj : j = i
    · subst hj
      rw [ha] at hb
      cases hb
      exact ⟨a', Heap.get?_write_self ha, hkey.trans hkb⟩
    · exact ⟨b, by rwa [Heap.get?_write_ne hj], hkb⟩

theorem register (hk : names.get? (key a) = none) :
    Named key (names.add (key a) heap.next) (heap.alloc a) where
  unique := h.unique.add hk
  object {k j} hj := by
    rw [Table.get?_add] at hj
    split_ifs at hj with he
    · cases hj
      exact ⟨a, Heap.get?_alloc_next, he⟩
    · obtain ⟨b, hb, hkb⟩ := h.object hj
      exact ⟨b, Heap.get?_alloc_of_some hb, hkb⟩

theorem remove (hk : names.get? k = some i) : Named key (names.erase k) (heap.free i) where
  unique := h.unique.erase
  object {k' j} hj := by
    rw [h.unique.get?_erase] at hj
    split_ifs at hj with he
    obtain ⟨b, hb, hkb⟩ := h.object hj
    have hne : j ≠ i := by
      rintro rfl
      exact he (h.inj hj hk)
    exact ⟨b, by rwa [Heap.get?_free, if_neg hne], hkb⟩

end

end Named

/-- No object has two links of one name. -/
def LinksUnique (links : α → Table ι ℕ) (heap : Heap α) : Prop :=
  ∀ ⦃i a⦄, heap.get? i = some a → (links a).Unique

namespace LinksUnique

variable {links : α → Table ι ℕ} {heap : Heap α} {i : ℕ} {a a' : α}

theorem empty : LinksUnique links .empty := by
  intro i a h
  cases h

variable (h : LinksUnique links heap)
include h

theorem write (hl : (links a').Unique) : LinksUnique links (heap.write i a') := by
  intro j b hb
  obtain ⟨-, rfl⟩ | ⟨-, hb⟩ := Heap.get?_write_cases hb
  · exact hl
  · exact h hb

theorem alloc (hl : links a = .empty) : LinksUnique links (heap.alloc a) := by
  intro j b hb
  obtain ⟨-, rfl⟩ | ⟨-, hb⟩ := Heap.get?_alloc_cases hb
  · exact hl ▸ Table.unique_empty
  · exact h hb

theorem free : LinksUnique links (heap.free i) := by
  intro j b hb
  exact h (Heap.of_get?_free hb).2

end LinksUnique

/-- The object at `i` has a link `k` to `j`. -/
def Linked [DecidableEq ι] (links : α → Table ι ℕ) (heap : Heap α) (i : ℕ) (k : ι) (j : ℕ) : Prop :=
  ∃ a, heap.get? i = some a ∧ (links a).get? k = some j

section Links

variable [DecidableEq ι] {links : α → Table ι ℕ} {heap : Heap α} {i i' j j' : ℕ} {k k' : ι} {a a' : α}

theorem linked_iff (ha : heap.get? i = some a) :
    Linked links heap i k j ↔ (links a).get? k = some j := by
  simp [Linked, ha]

theorem linked_write (ha : heap.get? i = some a) : Linked links (heap.write i a') i' k j ↔
    if i' = i then (links a').get? k = some j else Linked links heap i' k j := by
  split_ifs with hi
  · subst hi
    rw [linked_iff (Heap.get?_write_self ha)]
  · rw [Linked, Heap.get?_write_ne hi, Linked]

theorem linked_addNew (ha : heap.get? i = some a) (hl : links a' = (links a).addNew k j)
    (hold : ∀ j', (links a).get? k = some j' → j' = j) :
    Linked links (heap.write i a') i' k' j' ↔
      Linked links heap i' k' j' ∨ i' = i ∧ k' = k ∧ j' = j := by
  rw [linked_write ha]
  split_ifs with hi
  · rw [hi, linked_iff ha, hl, Table.get?_addNew]
    split_ifs with hk
    · subst hk
      cases hg : (links a).get? k with
      | none => simp [eq_comm]
      | some j₁ =>
        rw [hold j₁ hg]
        simp [eq_comm]
    · simp [Ne.symm hk]
  · simp [hi]

theorem linked_erase (ha : heap.get? i = some a) (hu : (links a).Unique)
    (hl : links a' = (links a).erase k) :
    Linked links (heap.write i a') i' k' j ↔ Linked links heap i' k' j ∧ ¬(i' = i ∧ k' = k) := by
  rw [linked_write ha]
  split_ifs with hi
  · rw [hi, linked_iff ha, hl, hu.get?_erase]
    by_cases hk : k' = k <;> simp [hk]
  · simp [hi]

theorem linked_alloc (hl : links a = .empty) :
    Linked links (heap.alloc a) i k j ↔ Linked links heap i k j := by
  unfold Linked
  rw [Heap.get?_alloc]
  split_ifs with hi
  · subst hi
    simp [hl, Heap.get?_eq_none (Nat.le_refl _)]
  · exact Iff.rfl

theorem linked_free : Linked links (heap.free i) i' k j ↔ i' ≠ i ∧ Linked links heap i' k j := by
  unfold Linked
  rw [Heap.get?_free]
  by_cases hi : i' = i <;> simp [hi]

end Links

end TagFilesystem
