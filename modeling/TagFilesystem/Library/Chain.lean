import TagFilesystem.Library.Heap
import Mathlib.Data.List.InsertIdx
import Mathlib.Data.List.Nodup
import Mathlib.Data.List.Perm.Subperm
import Mathlib.Tactic.SplitIfs

namespace TagFilesystem

structure Cell (β : Type*) where
  content : β
  next : Option ℕ
  deriving Repr, DecidableEq

/-- The cells at the addresses `ns` are linked in this order and hold `cs`. -/
structure Chain {β : Type*} (h : Heap (Cell β)) (ns : List ℕ) (cs : List β) : Prop where
  nodup : ns.Nodup
  length : ns.length = cs.length
  cell : ∀ {i a}, ns[i]? = some a → ∃ c, cs[i]? = some c ∧ h.get? a = some ⟨c, ns[i + 1]?⟩

namespace Chain

variable {β : Type*} {h h' : Heap (Cell β)} {ns : List ℕ} {cs : List β} {a b i j p : ℕ} {c x : β}

theorem live (hc : Chain h ns cs) (ha : a ∈ ns) : ∃ C, h.get? a = some C := by
  obtain ⟨i, hi⟩ := List.mem_iff_getElem?.mp ha
  obtain ⟨c, -, hC⟩ := hc.cell hi
  exact ⟨_, hC⟩

theorem get? (hc : Chain h ns cs) (ha : ns[i]? = some a) (hx : cs[i]? = some c) :
    h.get? a = some ⟨c, ns[i + 1]?⟩ := by
  obtain ⟨c', hc', hC⟩ := hc.cell ha
  rw [hx] at hc'
  cases hc'
  exact hC

theorem index_inj (hc : Chain h ns cs) (hi : ns[i]? = some a) (hj : ns[j]? = some a) : i = j := by
  obtain ⟨hlt, -⟩ := List.getElem?_eq_some_iff.mp hi
  exact (List.getElem?_inj hlt hc.nodup).mp (hi.trans hj.symm)

theorem lt_next (hc : Chain h ns cs) (ha : a ∈ ns) : a < h.next := by
  obtain ⟨C, hC⟩ := hc.live ha
  exact Heap.lt_next hC

theorem length_le (hc : Chain h ns cs) : ns.length ≤ h.next := by
  have hsub : ns ⊆ List.range h.next := fun a ha => List.mem_range.mpr (hc.lt_next ha)
  have hle := (hc.nodup.subperm hsub).length_le
  rwa [List.length_range] at hle

theorem unique {ns' : List ℕ} {cs' : List β} (hc : Chain h ns cs) (hc' : Chain h ns' cs')
    (hfirst : ns[0]? = ns'[0]?) : ns = ns' ∧ cs = cs' := by
  have hnext (i a : ℕ) (hi : ns[i]? = some a) (hi' : ns'[i]? = some a) :
      cs[i]? = cs'[i]? ∧ ns[i + 1]? = ns'[i + 1]? := by
    obtain ⟨c, hx, hC⟩ := hc.cell hi
    obtain ⟨c', hx', hC'⟩ := hc'.cell hi'
    obtain ⟨hcc, hlink⟩ := Cell.mk.inj (Option.some.inj (hC.symm.trans hC'))
    exact ⟨by rw [hx, hx', hcc], hlink⟩
  have hnodes (i : ℕ) : ns[i]? = ns'[i]? := by
    induction i with
    | zero => exact hfirst
    | succ i ih =>
      cases hi : ns[i]? with
      | some a => exact (hnext i a hi (ih.symm.trans hi)).2
      | none =>
        rw [List.getElem?_eq_none_iff] at hi
        have hi' := List.getElem?_eq_none_iff.mp (ih.symm.trans (List.getElem?_eq_none_iff.mpr hi))
        rw [List.getElem?_eq_none (by omega), List.getElem?_eq_none (by omega)]
  refine ⟨List.ext_getElem? hnodes, List.ext_getElem? fun i => ?_⟩
  cases hi : ns[i]? with
  | some a => exact (hnext i a hi ((hnodes i).symm.trans hi)).1
  | none =>
    have hlen := hc.length
    have hlen' := hc'.length
    rw [← List.ext_getElem? hnodes] at hlen'
    rw [List.getElem?_eq_none_iff] at hi
    rw [List.getElem?_eq_none (by omega), List.getElem?_eq_none (by omega)]

theorem frame (hc : Chain h ns cs) (hsame : ∀ a ∈ ns, h'.get? a = h.get? a) : Chain h' ns cs := by
  refine ⟨hc.nodup, hc.length, fun {i a} hi => ?_⟩
  rw [hsame a (List.mem_of_getElem? hi)]
  exact hc.cell hi

theorem singleton : Chain (h.alloc ⟨x, none⟩) [h.next] [x] := by
  refine ⟨List.nodup_singleton _, rfl, fun {i a} hi => ?_⟩
  obtain ⟨hlt, ha⟩ := List.getElem?_eq_some_iff.mp hi
  obtain rfl : i = 0 := by simpa using hlt
  cases ha
  exact ⟨x, rfl, Heap.get?_alloc_next⟩

theorem insert (hc : Chain h ns cs) (ha : ns[p]? = some a) (hx : cs[p]? = some c) :
    Chain ((h.alloc ⟨x, ns[p + 1]?⟩).write a ⟨c, some h.next⟩) (ns.insertIdx (p + 1) h.next)
      (cs.insertIdx (p + 1) x) := by
  have hp : p + 1 ≤ ns.length := (List.getElem?_eq_some_iff.mp ha).1
  have hfresh : h.next ∉ ns := fun hm => Nat.lt_irrefl _ (hc.lt_next hm)
  have hnew : h.next ≠ a := fun he => hfresh (he ▸ List.mem_of_getElem? ha)
  -- the cells at the other places are as they were
  have hold {i b : ℕ} (hi : ns[i]? = some b) (hne : i ≠ p) : ∃ c', cs[i]? = some c' ∧
      ((h.alloc ⟨x, ns[p + 1]?⟩).write a ⟨c, some h.next⟩).get? b = some ⟨c', ns[i + 1]?⟩ := by
    obtain ⟨c', hc', hC⟩ := hc.cell hi
    have hba : b ≠ a := fun he => hne (hc.index_inj hi (he ▸ ha))
    exact ⟨c', hc', by rw [Heap.get?_write_ne hba, Heap.get?_alloc_of_some hC]⟩
  refine ⟨?_, ?_, ?_⟩
  · refine (List.perm_insertIdx _ _ hp).nodup_iff.mpr ?_
    exact List.nodup_cons.mpr ⟨hfresh, hc.nodup⟩
  · rw [List.length_insertIdx, List.length_insertIdx, hc.length]
  · intro i b hi
    rcases Nat.lt_trichotomy i (p + 1) with hlt | rfl | hgt
    · rw [List.getElem?_insertIdx_of_lt hlt] at hi
      rw [List.getElem?_insertIdx_of_lt hlt]
      by_cases hip : i = p
      · subst hip
        obtain rfl : a = b := Option.some.inj (ha.symm.trans hi)
        rw [List.getElem?_insertIdx_self, if_pos hp]
        exact ⟨c, hx, Heap.get?_write_self (Heap.get?_alloc_of_some (hc.get? ha hx))⟩
      · rw [List.getElem?_insertIdx_of_lt (by omega)]
        exact hold hi hip
    · rw [List.getElem?_insertIdx_self, if_pos hp] at hi
      cases hi
      rw [List.getElem?_insertIdx_self, if_pos (hc.length ▸ hp),
        List.getElem?_insertIdx_of_gt (Nat.lt_succ_self _), Heap.get?_write_ne hnew]
      exact ⟨x, rfl, Heap.get?_alloc_next⟩
    · rw [List.getElem?_insertIdx_of_gt hgt] at hi
      rw [List.getElem?_insertIdx_of_gt hgt, List.getElem?_insertIdx_of_gt (Nat.lt_succ_of_lt hgt)]
      obtain ⟨c', hc', hC⟩ := hold hi (by omega)
      have hsucc : i - 1 + 1 = i + 1 - 1 := by omega
      exact ⟨c', hc', hsucc ▸ hC⟩

theorem remove (hc : Chain h ns cs) (ha : ns[p]? = some a) (hx : cs[p]? = some c)
    (hb : ns[p + 1]? = some b) :
    Chain ((h.write a ⟨c, ns[p + 2]?⟩).free b) (ns.eraseIdx (p + 1)) (cs.eraseIdx (p + 1)) := by
  -- the cells at the other places are as they were
  have hold {i d : ℕ} (hi : ns[i]? = some d) (hne : i ≠ p) (hne' : i ≠ p + 1) :
      ∃ c', cs[i]? = some c' ∧
        ((h.write a ⟨c, ns[p + 2]?⟩).free b).get? d = some ⟨c', ns[i + 1]?⟩ := by
    obtain ⟨c', hc', hC⟩ := hc.cell hi
    have hda : d ≠ a := fun he => hne (hc.index_inj hi (he ▸ ha))
    have hdb : d ≠ b := fun he => hne' (hc.index_inj hi (he ▸ hb))
    exact ⟨c', hc', by rw [Heap.get?_free, if_neg hdb, Heap.get?_write_ne hda, hC]⟩
  have hab : a ≠ b := fun he => absurd (hc.index_inj ha (he ▸ hb)) (by omega)
  refine ⟨hc.nodup.sublist (List.eraseIdx_sublist ..), ?_, ?_⟩
  · rw [List.length_eraseIdx, List.length_eraseIdx, hc.length]
  · intro i d hi
    rw [List.getElem?_eraseIdx] at hi ⊢
    rw [List.getElem?_eraseIdx]
    split_ifs at hi ⊢ with hlt hlt'
    · exact hold hi (by omega) (by omega)
    · obtain rfl : i = p := by omega
      obtain rfl : a = d := Option.some.inj (ha.symm.trans hi)
      refine ⟨c, hx, ?_⟩
      rw [Heap.get?_free, if_neg hab]
      exact Heap.get?_write_self (hc.get? ha hx)
    · omega
    · exact hold hi (by omega) (by omega)

end Chain

end TagFilesystem
