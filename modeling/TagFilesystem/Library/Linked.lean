import TagFilesystem.Library.Heap
import Mathlib.Data.List.Nodup
import Mathlib.Data.List.Perm.Subperm
import Mathlib.Tactic.SplitIfs

namespace TagFilesystem

namespace Heap

variable {α β : Type*} {h : Heap α} {a : ℕ} {x : α} {b : β}

/-- One part of the objects. -/
def view (g : α → β) (h : Heap α) : ℕ → Option β := fun a => (h.get? a).map g

theorem view_eq_some (g : α → β) (hx : h.get? a = some x) : h.view g a = some (g x) := by
  simp [view, hx]

theorem of_view {g : α → β} (hb : h.view g a = some b) : ∃ x, h.get? a = some x ∧ g x = b :=
  Option.map_eq_some_iff.mp hb

theorem view_write_same {g : α → β} {y : α} (hx : h.get? a = some x) (hg : g y = g x) :
    (h.write a y).view g = h.view g := by
  funext j
  simp only [view, get?_write]
  split_ifs with hj
  · subst hj
    simp [hx, hg]
  · rfl

theorem view_write {g : α → β} {y : α} {f : β → β} (hx : h.get? a = some x) (hg : g y = f (g x)) :
    (h.write a y).view g = fun j => if j = a then (h.view g j).map f else h.view g j := by
  funext j
  simp only [view, get?_write]
  split_ifs with hj
  · subst hj
    simp [hx, hg]
  · rfl

theorem view_alloc (g : α → β) (x : α) :
    (h.alloc x).view g = fun j => if j = h.next then some (g x) else h.view g j := by
  funext j
  simp only [view, get?_alloc]
  split_ifs <;> rfl

theorem view_alloc_ne {g : α → β} {j : ℕ} (hj : j ≠ h.next) :
    (h.alloc x).view g j = h.view g j :=
  (congrFun (view_alloc g x) j).trans (if_neg hj)

theorem length_le_next {l : List ℕ} (hl : l.Nodup) (hlive : ∀ a ∈ l, (h.get? a).isSome = true) :
    l.length ≤ h.next := by
  have hsub : l ⊆ List.range h.next := by
    intro a ha
    obtain ⟨x, hx⟩ := Option.isSome_iff_exists.mp (hlive a ha)
    exact List.mem_range.mpr (lt_next hx)
  have hle := (hl.subperm hsub).length_le
  rwa [List.length_range] at hle

end Heap

/-- The links of an address to its predecessor and its successor. -/
structure Link where
  prev : Option ℕ
  next : Option ℕ
  deriving Repr, DecidableEq

abbrev Links := ℕ → Option Link

namespace Links

variable {v w : Links} {a b c : ℕ} {p q n x : Option ℕ} {l xs ys : List ℕ}

/-- An assignment to the links of one address. -/
def change (v : Links) (a : ℕ) (g : Link → Link) : Links :=
  fun j => if j = a then (v j).map g else v j

def setNext (v : Links) (a : ℕ) (x : Option ℕ) : Links := v.change a fun k => { k with next := x }

def setPrev (v : Links) (a : ℕ) (x : Option ℕ) : Links := v.change a fun k => { k with prev := x }

@[simp] theorem change_id (v : Links) (a : ℕ) : v.change a id = v := by
  funext j
  simp [change]

theorem change_ne {g : Link → Link} (h : b ≠ a) : v.change a g b = v b := if_neg h

theorem setNext_ne (h : b ≠ a) : v.setNext a x b = v b := change_ne h

theorem setPrev_ne (h : b ≠ a) : v.setPrev a x b = v b := change_ne h

theorem setNext_self (h : v a = some ⟨p, n⟩) : v.setNext a x a = some ⟨p, x⟩ := by
  simp [setNext, change, h]

theorem setPrev_self (h : v a = some ⟨p, n⟩) : v.setPrev a x a = some ⟨x, n⟩ := by
  simp [setPrev, change, h]

theorem setPrev_setNext (v : Links) (a b : ℕ) (x y : Option ℕ) :
    (v.setNext b x).setPrev a y = (v.setPrev a y).setNext b x := by
  funext j
  simp only [setNext, setPrev, change]
  split_ifs <;> cases v j <;> rfl

/-- The assignment to the successor of an address that may be missing. -/
def setNext? (v : Links) : Option ℕ → Option ℕ → Links
  | some a, x => v.setNext a x
  | none, _ => v

def setPrev? (v : Links) : Option ℕ → Option ℕ → Links
  | some a, x => v.setPrev a x
  | none, _ => v

theorem setNext?_ne {o : Option ℕ} (h : o ≠ some b) : v.setNext? o x b = v b := by
  cases o with
  | none => rfl
  | some a => exact setNext_ne fun e => h (congrArg some e.symm)

theorem setPrev?_ne {o : Option ℕ} (h : o ≠ some b) : v.setPrev? o x b = v b := by
  cases o with
  | none => rfl
  | some a => exact setPrev_ne fun e => h (congrArg some e.symm)

/-- The addresses of `l` are linked in this order, between `p` and `n`. -/
def Seg (v : Links) : Option ℕ → List ℕ → Option ℕ → Prop
  | _, [], _ => True
  | p, a :: l, n => v a = some ⟨p, l.head?.or n⟩ ∧ Seg v (some a) l n

@[simp] theorem seg_nil : Seg v p [] n ↔ True := Iff.rfl

@[simp] theorem seg_cons : Seg v p (a :: l) n ↔ v a = some ⟨p, l.head?.or n⟩ ∧ Seg v (some a) l n :=
  Iff.rfl

theorem Seg.frame (h : Seg v p l n) (hvw : ∀ a ∈ l, w a = v a) : Seg w p l n := by
  induction l generalizing p with
  | nil => trivial
  | cons a l ih =>
    obtain ⟨ha, hl⟩ := h
    refine ⟨?_, ih hl fun b hb => hvw b (List.mem_cons_of_mem a hb)⟩
    rw [hvw a List.mem_cons_self, ha]

theorem seg_append : Seg v p (xs ++ ys) n ↔
    Seg v p xs (ys.head?.or n) ∧ Seg v (xs.getLast?.or p) ys n := by
  induction xs generalizing p with
  | nil => simp
  | cons a xs ih =>
    have hhead : (xs ++ ys).head?.or n = xs.head?.or (ys.head?.or n) := by
      rw [List.head?_append, Option.or_assoc]
    have hlast : (a :: xs).getLast?.or p = xs.getLast?.or (some a) := by
      rw [List.getLast?_cons]
      cases xs.getLast? <;> rfl
    rw [List.cons_append, seg_cons, seg_cons, ih, hhead, hlast, and_assoc]

theorem Seg.middle (h : Seg v none (xs ++ a :: ys) none) :
    v a = some ⟨xs.getLast?, ys.head?⟩ := by
  have ha := (seg_append.mp h).2.1
  rwa [Option.or_none, Option.or_none] at ha

theorem Seg.setNext_last (h : Seg v p (xs ++ [b]) n) (hb : b ∉ xs) :
    Seg (v.setNext b x) p (xs ++ [b]) x := by
  obtain ⟨hxs, hlast, -⟩ := seg_append.mp h
  refine seg_append.mpr ⟨hxs.frame fun a ha => setNext_ne fun e => hb (e ▸ ha), ?_, trivial⟩
  exact setNext_self hlast

theorem Seg.setPrev_first (h : Seg v p (c :: l) n) (hc : c ∉ l) :
    Seg (v.setPrev c q) q (c :: l) n := by
  refine ⟨setPrev_self h.1, h.2.frame fun a ha => setPrev_ne fun e => hc (e ▸ ha)⟩

theorem Seg.setNext?_getLast? (h : Seg v none l n) (hl : l.Nodup) :
    Seg (v.setNext? l.getLast? x) none l x := by
  rcases l.eq_nil_or_concat with rfl | ⟨xs, b, rfl⟩
  · trivial
  · rw [List.concat_eq_append] at h hl ⊢
    rw [List.getLast?_concat]
    exact h.setNext_last fun hb => (List.nodup_append.mp hl).2.2 b hb b (List.mem_singleton_self b) rfl

theorem Seg.setPrev?_head? (h : Seg v p l none) (hl : l.Nodup) :
    Seg (v.setPrev? l.head? q) q l none := by
  cases l with
  | nil => trivial
  | cons c l => exact h.setPrev_first (List.nodup_cons.mp hl).1

theorem Seg.append_one (h : Seg v none l none) (hl : l.Nodup) (hb : b ∉ l)
    (hvb : v b = some ⟨l.getLast?, none⟩) : Seg (v.setNext? l.getLast? (some b)) none (l ++ [b]) none := by
  refine seg_append.mpr ⟨h.setNext?_getLast? hl, ?_, trivial⟩
  rw [setNext?_ne fun e => hb (List.mem_of_getLast? e), Option.or_none]
  exact hvb

theorem Seg.cons_one (h : Seg v none l none) (hl : l.Nodup) (hb : b ∉ l)
    (hvb : v b = some ⟨none, l.head?⟩) : Seg (v.setPrev? l.head? (some b)) none (b :: l) none := by
  refine ⟨?_, h.setPrev?_head? hl⟩
  rw [setPrev?_ne fun e => hb (List.mem_of_head? e), Option.or_none]
  exact hvb

theorem Seg.unlink (h : Seg v none (xs ++ a :: ys) none) (hl : (xs ++ a :: ys).Nodup) :
    Seg ((v.setNext? xs.getLast? ys.head?).setPrev? ys.head? xs.getLast?) none (xs ++ ys) none := by
  obtain ⟨hxs, -, hys⟩ := seg_append.mp h
  obtain ⟨hnxs, hnays, hdis⟩ := List.nodup_append.mp hl
  have hnys := (List.nodup_cons.mp hnays).2
  refine seg_append.mpr ⟨?_, ?_⟩
  · rw [Option.or_none]
    refine (hxs.setNext?_getLast? hnxs).frame fun b hb => setPrev?_ne fun e => ?_
    exact hdis b hb b (List.mem_cons_of_mem a (List.mem_of_head? e)) rfl
  · rw [Option.or_none]
    refine Seg.setPrev?_head? (hys.frame fun b hb => setNext?_ne fun e => ?_) hnys
    exact hdis b (List.mem_of_getLast? e) b (List.mem_cons_of_mem a hb) rfl

theorem unlink_ne (hxs : b ∉ xs) (hys : b ∉ ys) :
    (v.setNext? xs.getLast? ys.head?).setPrev? ys.head? xs.getLast? b = v b := by
  rw [setPrev?_ne fun e => hys (List.mem_of_head? e),
    setNext?_ne fun e => hxs (List.mem_of_getLast? e)]

end Links

end TagFilesystem
