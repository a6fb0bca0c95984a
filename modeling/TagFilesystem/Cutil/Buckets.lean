import TagFilesystem.Cutil.Handles
import Mathlib.Algebra.Group.Nat.Defs

namespace TagFilesystem.Cutil

variable {κ α : Type} {E : HtFault → Prop} {m m' : HtMemory κ α} {v : Links} {slot : EntryId → ℕ}
  {bs : List UtHashBucket} {row ys : List EntryId} {b : UtHashBucket}
  {a c : EntryId} {i : ℕ}

theorem hashToBkt_toNat {k : ℕ} {numBkts : UInt32} (hk : numBkts.toNat = 2 ^ k) (hashv : UInt32) :
    (hashToBkt hashv numBkts).toNat = hashv.toNat % numBkts.toNat := by
  have hpos : 1 ≤ numBkts.toNat := by
    rw [hk]
    exact Nat.two_pow_pos k
  have hle : (1 : UInt32) ≤ numBkts := UInt32.le_iff_toNat_le.mpr hpos
  rw [hashToBkt, UInt32.toNat_and, UInt32.toNat_sub_of_le _ _ hle, UInt32.toNat_one, hk,
    Nat.and_two_pow_sub_one_eq_mod]

theorem toNat_mul_two {k : ℕ} {numBkts : UInt32} (hk : numBkts.toNat = 2 ^ k) (hlt : k < 31) :
    (numBkts * 2).toNat = 2 ^ (k + 1) := by
  have hpow : 2 ^ (k + 1) ≤ 2 ^ 31 := Nat.pow_le_pow_right (by decide) hlt
  rw [UInt32.toNat_mul, hk]
  have htwo : (2 : UInt32).toNat = 2 := rfl
  rw [htwo, ← Nat.pow_succ]
  exact Nat.mod_eq_of_lt (by omega)

/-- The bucket of an entry among `n`. -/
def slotOf (m : HtMemory κ α) (n : ℕ) (a : EntryId) : ℕ :=
  (m.content a).elim 0 fun c => c.hashv.toNat % n

theorem slotOf_congr (h : m'.content = m.content) (n : ℕ) : slotOf m' n = slotOf m n := by
  funext a
  simp only [slotOf, h]

theorem slotOf_lt {n : ℕ} (hn : 0 < n) : slotOf m n a < n := by
  unfold slotOf
  cases m.content a with
  | none => exact hn
  | some c => exact Nat.mod_lt _ hn

/-- The entries of the bucket `i`. -/
def chainAt (slot : EntryId → ℕ) (row : List EntryId) (i : ℕ) : List EntryId :=
  row.filter fun a => slot a = i

theorem mem_chainAt : a ∈ chainAt slot row i ↔ a ∈ row ∧ slot a = i := by simp [chainAt]

theorem chainAt_cons : chainAt slot (a :: row) i =
    if slot a = i then a :: chainAt slot row i else chainAt slot row i := by
  simp only [chainAt, List.filter_cons, decide_eq_true_eq]

theorem chainAt_sublist : (chainAt slot row i).Sublist row := List.filter_sublist

theorem chainAt_erase_ne (h : slot a ≠ i) : chainAt slot (row.erase a) i = chainAt slot row i := by
  rw [chainAt, ← List.erase_filter, List.erase_of_not_mem]
  · rfl
  · simp [h]

theorem chainAt_erase_self (hn : row.Nodup) {xs : List EntryId}
    (h : chainAt slot row (slot a) = xs ++ a :: ys) :
    chainAt slot (row.erase a) (slot a) = xs ++ ys := by
  have hnc : (xs ++ a :: ys).Nodup := h ▸ hn.sublist chainAt_sublist
  have hxs : a ∉ xs := fun ha => (List.nodup_append.mp hnc).2.2 a ha a List.mem_cons_self rfl
  rw [chainAt, ← List.erase_filter, ← chainAt, h, List.erase_append_right _ hxs, List.erase_cons_head]

/-- The buckets hold the entries of `row`, each in its own one. -/
def Buckets (v : Links) (slot : EntryId → ℕ) (bs : List UtHashBucket) (row : List EntryId) : Prop :=
  ∀ i b, bs[i]? = some b → b.hhHead = (chainAt slot row i).head? ∧
    b.count.toNat = (chainAt slot row i).length ∧ v.Seg none (chainAt slot row i) none

theorem buckets_nil (n : ℕ) : Buckets v slot (List.replicate n ⟨none, 0, 0⟩) [] := by
  intro i b hb
  obtain ⟨-, rfl⟩ := List.mem_replicate.mp (List.mem_of_getElem? hb)
  exact ⟨rfl, rfl, trivial⟩

namespace Buckets

theorem head_mem (h : Buckets v slot bs row) (hb : bs[i]? = some b) (hc : b.hhHead = some c) :
    c ∈ row ∧ slot c = i := by
  rw [(h i b hb).1] at hc
  exact mem_chainAt.mp (List.mem_of_head? hc)

theorem push (h : Buckets v slot bs row) (hn : row.Nodup) (ha : a ∉ row)
    (hlen : row.length < UINT_MAX) (hb : bs[slot a]? = some b) (hva : (v a).isSome = true)
    (mult : UInt32) :
    Buckets ((v.change a fun _ => ⟨none, b.hhHead⟩).setPrev? b.hhHead (some a)) slot
      (bs.set (slot a) ⟨some a, b.count + 1, mult⟩) (a :: row) := by
  obtain ⟨hhead, hcount, hseg⟩ := h _ b hb
  have hw (c : EntryId) (hc : c ≠ a) : v.change a (fun _ => ⟨none, b.hhHead⟩) c = v c :=
    Links.change_ne hc
  intro i b' hb'
  rw [chainAt_cons]
  by_cases hi : slot a = i
  · subst hi
    rw [List.getElem?_set_self (List.getElem?_eq_some_iff.mp hb).1] at hb'
    obtain rfl := Option.some.inj hb'
    have hnot : a ∉ chainAt slot row (slot a) := fun hm => ha (mem_chainAt.mp hm).1
    rw [if_pos rfl]
    refine ⟨rfl, ?_, ?_⟩
    · have hle : (chainAt slot row (slot a)).length ≤ row.length := chainAt_sublist.length_le
      simp only [UInt32.toNat_add, hcount, UInt32.toNat_one, List.length_cons]
      exact Nat.mod_eq_of_lt (by unfold UINT_MAX at hlen; omega)
    · rw [hhead]
      apply Links.Seg.cons_one _ (hn.sublist chainAt_sublist) hnot
      · obtain ⟨k, hk⟩ := Option.isSome_iff_exists.mp hva
        simp [Links.change, hk]
      · rw [hhead] at hw
        exact hseg.frame fun c hc => hw c fun e => hnot (e ▸ hc)
  · rw [List.getElem?_set_ne hi] at hb'
    obtain ⟨hhead', hcount', hseg'⟩ := h i b' hb'
    rw [if_neg hi]
    refine ⟨hhead', hcount', hseg'.frame fun c hc => ?_⟩
    obtain ⟨hcr, hci⟩ := mem_chainAt.mp hc
    rw [Links.setPrev?_ne fun e => hi ((h.head_mem hb e).2 ▸ hci), hw c fun e => ha (e ▸ hcr)]

theorem remove (h : Buckets v slot bs row) (hn : row.Nodup) (ha : a ∈ row)
    (hb : bs[slot a]? = some b) (mult : UInt32) : ∃ p n, v a = some ⟨p, n⟩ ∧ (∀ c ∈ p, c ∈ row ∧ c ≠ a) ∧
      (∀ c ∈ n, c ∈ row) ∧
      Buckets ((v.setNext? p n).setPrev? n p) slot
        (bs.set (slot a) ⟨if b.hhHead = some a then n else b.hhHead, b.count - 1, mult⟩)
        (row.erase a) := by
  obtain ⟨hhead, hcount, hseg⟩ := h _ b hb
  have hmem : a ∈ chainAt slot row (slot a) := mem_chainAt.mpr ⟨ha, rfl⟩
  obtain ⟨xs, ys, hxy⟩ := List.append_of_mem hmem
  have hnc : (xs ++ a :: ys).Nodup := hxy ▸ hn.sublist chainAt_sublist
  have hrow {c : EntryId} (hc : c ∈ xs ++ ys) : c ∈ row ∧ slot c = slot a := by
    apply mem_chainAt.mp
    rw [hxy]
    rcases List.mem_append.mp hc with hc | hc
    · exact List.mem_append_left _ hc
    · exact List.mem_append_right _ (List.mem_cons_of_mem a hc)
  rw [hxy] at hhead hcount hseg
  refine ⟨xs.getLast?, ys.head?, hseg.middle, fun c hc => ?_, fun c hc => ?_, fun i b' hb' => ?_⟩
  · refine ⟨(hrow (List.mem_append_left _ (List.mem_of_getLast? hc))).1, fun e => ?_⟩
    exact (List.nodup_append.mp hnc).2.2 c (List.mem_of_getLast? hc) a List.mem_cons_self e
  · exact (hrow (List.mem_append_right _ (List.mem_of_head? hc))).1
  by_cases hi : slot a = i
  · subst hi
    rw [List.getElem?_set_self (List.getElem?_eq_some_iff.mp hb).1] at hb'
    obtain rfl := Option.some.inj hb'
    rw [chainAt_erase_self hn hxy]
    refine ⟨?_, ?_, hseg.unlink hnc⟩
    · -- the entry is the first of its chain if nothing is in front of it
      cases xs with
      | nil =>
        rw [List.nil_append, List.head?_cons] at hhead
        simp [hhead]
      | cons x xs =>
        rw [List.cons_append, List.head?_cons] at hhead
        have hxa : x ≠ a := fun e => (List.nodup_cons.mp hnc).1 (e ▸ by simp)
        simp [hhead, hxa]
    · have hlen : (xs ++ a :: ys).length = (xs ++ ys).length + 1 := by
        simp only [List.length_append, List.length_cons]
        omega
      have hle : (1 : UInt32) ≤ b.count := by
        rw [UInt32.le_iff_toNat_le, hcount, hlen]
        exact Nat.le_add_left 1 _
      rw [UInt32.toNat_sub_of_le _ _ hle, hcount, hlen]
      rfl
  · rw [List.getElem?_set_ne hi] at hb'
    obtain ⟨hhead', hcount', hseg'⟩ := h i b' hb'
    rw [chainAt_erase_ne hi]
    refine ⟨hhead', hcount', hseg'.frame fun c hc => ?_⟩
    have hci := (mem_chainAt.mp hc).2
    apply Links.unlink_ne
    · exact fun hx => hi ((hrow (List.mem_append_left _ hx)).2 ▸ hci)
    · exact fun hy => hi ((hrow (List.mem_append_right _ hy)).2 ▸ hci)

end Buckets

end TagFilesystem.Cutil
