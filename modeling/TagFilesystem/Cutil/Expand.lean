import TagFilesystem.Cutil.Buckets

namespace TagFilesystem.Cutil

variable {κ α : Type} {E : HtFault → Prop} {m m' : HtMemory κ α} {T : UtHashTable}
  {s : Expansion κ α} {row ys l moved : List EntryId} {a : EntryId} {p n : Option EntryId}
  {ideal numBuckets : UInt32} {malloc : Malloc} {t : UtTableId}

/-- A request is refused, or `2 ^ 32` buckets are granted. -/
def Excused (malloc : Malloc) : HtFault → Prop
  | .outOfMemory => ∃ size, malloc size = false
  | .shiftTooFar => malloc 68719476736 = true
  | _ => False

theorem sat_uthashMalloc (size : ℕ) : Sat (Excused malloc) (uthashMalloc malloc size) fun _ =>
    malloc size = true := by
  unfold uthashMalloc
  split
  · next h => exact h
  · next h => exact ⟨size, by simpa using h⟩

/-- The array of the table holds the entries of `row`. -/
structure Distributes (m : HtMemory κ α) (T : UtHashTable) (row : List EntryId) : Prop where
  log2 : T.log2NumBuckets.toNat < 32
  numBuckets : T.numBuckets.toNat = 2 ^ T.log2NumBuckets.toNat
  length : T.buckets.length = T.numBuckets.toNat
  buckets : Buckets m.bkt (slotOf m T.numBuckets.toNat) T.buckets row

namespace Distributes

theorem pos (h : Distributes m T row) : 0 < T.numBuckets.toNat := by
  rw [h.numBuckets]
  exact Nat.two_pow_pos _

theorem bucket {c : HtContent κ α} {hashv : UInt32} (h : Distributes m T row)
    (hc : m.content a = some c) (hv : c.hashv = hashv) :
    ∃ b, (hashToBkt hashv T.numBuckets).toNat = slotOf m T.numBuckets.toNat a ∧
      T.buckets[slotOf m T.numBuckets.toNat a]? = some b ∧
      readBucket T.buckets (hashToBkt hashv T.numBuckets) = .ok b := by
  have hslot : (hashToBkt hashv T.numBuckets).toNat = slotOf m T.numBuckets.toNat a := by
    rw [hashToBkt_toNat h.numBuckets]
    simp [slotOf, hc, hv]
  have hlt : slotOf m T.numBuckets.toNat a < T.buckets.length := by
    rw [h.length]
    exact slotOf_lt h.pos
  refine ⟨T.buckets[slotOf m T.numBuckets.toNat a], hslot, List.getElem?_eq_getElem hlt, ?_⟩
  simp only [readBucket, hslot, List.getElem?_eq_getElem hlt]

end Distributes

/-- Only the links in the buckets of the entries of `row` and the table `t` change. -/
structure Rebuckets (m m' : HtMemory κ α) (t : UtTableId) (T' : UtHashTable) (row : List EntryId) :
    Prop where
  app : m'.app = m.app
  content : m'.content = m.content
  tables : m'.tables = m.tables.write t T'
  hashTables : m'.hashTables = m.hashTables
  next : m'.entries.next = m.entries.next
  frame : ∀ a ∉ row, m'.bkt a = m.bkt a

theorem idealChainMaxlen_ne_zero {k : ℕ} (hlog : T.log2NumBuckets.toNat = k) (hk : k < 31)
    (hnum : T.numBuckets.toNat = 2 ^ k) (hitems : T.numItems.toNat ≠ 0) : idealChainMaxlen T ≠ 0 := by
  have hlog' : (T.log2NumBuckets + 1).toNat = k + 1 := by
    rw [UInt32.toNat_add, hlog, UInt32.toNat_one]
    exact Nat.mod_eq_of_lt (by omega)
  have hshift : (T.numItems >>> (T.log2NumBuckets + 1)).toNat = T.numItems.toNat / 2 ^ (k + 1) := by
    rw [UInt32.toNat_shiftRight, hlog', Nat.mod_eq_of_lt (by omega), Nat.shiftRight_eq_div_pow]
  have hmask : (hashToBkt T.numItems (T.numBuckets * 2)).toNat = T.numItems.toNat % 2 ^ (k + 1) := by
    have hmul := toNat_mul_two hnum hk
    rw [hashToBkt_toNat hmul, hmul]
  have hdm := Nat.div_add_mod T.numItems.toNat (2 ^ (k + 1))
  intro hzero
  have hnat := congrArg UInt32.toNat hzero
  rw [idealChainMaxlen, UInt32.toNat_add, hshift, UInt32.toNat_zero] at hnat
  have hpow : 2 ≤ 2 ^ (k + 1) := by
    rw [Nat.pow_succ]
    have := Nat.two_pow_pos k
    omega
  have hlt : T.numItems.toNat < 4294967296 := T.numItems.toNat_lt
  have hdiv : T.numItems.toNat / 2 ^ (k + 1) ≤ T.numItems.toNat / 2 := Nat.div_le_div_left hpow (by decide)
  split_ifs at hnat with hmod
  · rw [UInt32.toNat_one] at hnat
    omega
  · have hmod' : T.numItems &&& (T.numBuckets * 2 - 1) = 0 := not_not.mp hmod
    rw [hashToBkt, hmod', UInt32.toNat_zero] at hmask
    rw [UInt32.toNat_zero, Nat.add_zero, Nat.mod_eq_of_lt (by omega)] at hnat
    rw [hnat, ← hmask] at hdm
    exact hitems hdm.symm

/-- The entries `moved` are in the new buckets, the last one first; no other has been touched. -/
structure Moving (m : HtMemory κ α) (n : ℕ) (s : Expansion κ α) (moved : List EntryId) : Prop where
  same : HtMemory.Relinks m s.memory m.app s.memory.bkt
  length : s.newBuckets.length = n
  buckets : Buckets s.memory.bkt (slotOf m n) s.newBuckets moved
  frame : ∀ a ∉ moved, s.memory.bkt a = m.bkt a

theorem exists_countNonideal (hideal : ideal ≠ 0) (nonidealItems count mult : UInt32) :
    ∃ r, countNonideal ideal nonidealItems count mult = .ok r := by
  unfold countNonideal
  split_ifs
  · exact ⟨_, rfl⟩
  · exact ⟨_, rfl⟩

theorem sat_moveHandle {k : ℕ} (hs : Moving m (numBuckets * 2).toNat s moved)
    (hnum : (numBuckets * 2).toNat = 2 ^ k) (hideal : ideal ≠ 0) (hnodup : moved.Nodup)
    (hlive : ∀ c ∈ moved, (m.content c).isSome = true) (hlen : moved.length < UINT_MAX)
    (ha : a ∉ moved) (hv : m.bkt a = some ⟨p, n⟩) :
    Sat E (moveHandle ideal numBuckets s a) fun r =>
      r.1 = n ∧ Moving m (numBuckets * 2).toNat r.2 (a :: moved) := by
  obtain ⟨e, he, hlinks⟩ := Heap.of_view ((hs.frame a ha).trans hv)
  obtain ⟨-, hnext⟩ := Link.mk.inj hlinks
  have hc : s.memory.content a = some ⟨e.key, e.data, e.tbl, e.hashv⟩ := Heap.view_eq_some _ he
  have hcm : m.content a = some ⟨e.key, e.data, e.tbl, e.hashv⟩ := hs.same.content ▸ hc
  have hslot : (hashToBkt e.hashv (numBuckets * 2)).toNat = slotOf m (numBuckets * 2).toNat a := by
    rw [hashToBkt_toNat hnum]
    simp [slotOf, hcm]
  have hlt : slotOf m (numBuckets * 2).toNat a < s.newBuckets.length := by
    rw [hs.length]
    apply slotOf_lt
    rw [hnum]
    exact Nat.two_pow_pos k
  obtain ⟨b, hb⟩ : ∃ b, s.newBuckets[slotOf m (numBuckets * 2).toNat a]? = some b :=
    ⟨_, List.getElem?_eq_getElem hlt⟩
  simp only [moveHandle, HtMemory.readEntry_eq he, ok_bind, readBucket, hslot, hb]
  obtain ⟨⟨nonideal, mult⟩, hcount⟩ := exists_countNonideal hideal s.nonidealItems (b.count + 1) b.expandMult
  simp only [hcount, ok_bind]
  refine (HtMemory.sat_setHh (p := none) (n := b.hhHead) (fun e => rfl) (HtMemory.live hc)).bind
    fun m₁ h₁ => ?_
  refine (HtMemory.sat_setHhPrev? (x := some a) fun c hcb => ?_).bind fun m₂ h₂ => ?_
  · rw [h₁.content, hs.same.content]
    exact hlive c (hs.buckets.head_mem hb hcb).1
  have hsame : HtMemory.Relinks m m₂ m.app m₂.bkt := by
    have h := (hs.same.trans h₁).trans h₂
    exact ⟨h.app.trans (h₁.app.trans hs.same.app), rfl, h.content, h.tables, h.hashTables, h.next⟩
  have hva : (s.memory.bkt a).isSome = true := by
    rw [hs.frame a ha, hv]
    rfl
  have hbkt : m₂.bkt = (s.memory.bkt.change a fun _ => ⟨none, b.hhHead⟩).setPrev? b.hhHead (some a) := by
    rw [h₂.bkt, h₁.bkt]
  refine ⟨hnext, hsame, ?_, ?_, fun c hcm => ?_⟩
  · simp only [List.length_set]
    exact hs.length
  · simp only [hbkt]
    exact hs.buckets.push hnodup ha hlen hb hva mult
  · rw [List.mem_cons, not_or] at hcm
    obtain ⟨hca, hcm⟩ := hcm
    simp only [hbkt]
    rw [Links.setPrev?_ne fun e => hcm (hs.buckets.head_mem hb e).1, Links.change_ne hca]
    exact hs.frame c hcm

theorem sat_moveChain {k : ℕ} (hnum : (numBuckets * 2).toNat = 2 ^ k) (hideal : ideal ≠ 0)
    (hlive : ∀ c ∈ row, (m.content c).isSome = true) (hrow : row.length ≤ UINT_MAX) :
    ∀ (ys : List EntryId) (fuel : ℕ) (p : Option EntryId) (s : Expansion κ α) (moved : List EntryId),
      ys.length ≤ fuel → m.bkt.Seg p ys none → (ys ++ moved).Nodup → (ys ++ moved) ⊆ row →
      Moving m (numBuckets * 2).toNat s moved →
      Sat E (moveChain ideal numBuckets fuel ys.head? s) fun s' =>
        Moving m (numBuckets * 2).toNat s' (ys.reverse ++ moved) := by
  intro ys
  induction ys with
  | nil =>
    intro fuel p s moved _ _ _ _ hs
    simp only [List.head?_nil, moveChain]
    exact hs
  | cons a ys ih =>
    intro fuel p s moved hfuel hseg hnodup hsub hs
    obtain ⟨hv, hrest⟩ := hseg
    obtain ⟨hanot, hnodup'⟩ := List.nodup_cons.mp hnodup
    have ham : a ∉ moved := fun h => hanot (List.mem_append_right ys h)
    have hperm : (ys ++ a :: moved).Perm (a :: ys ++ moved) := List.perm_middle
    have hlen : moved.length < UINT_MAX := by
      have hle := (hnodup.subperm hsub).length_le
      simp only [List.length_append, List.length_cons] at hle
      omega
    obtain ⟨fuel, rfl⟩ : ∃ f, fuel = f + 1 := ⟨fuel - 1, by simp only [List.length_cons] at hfuel; omega⟩
    simp only [List.head?_cons, moveChain]
    refine (sat_moveHandle hs hnum hideal (List.nodup_append.mp hnodup').2.1
      (fun c hc => hlive c (hsub (List.mem_append_right _ hc))) hlen ham hv).bind fun r hr => ?_
    obtain ⟨hnxt, hs'⟩ := hr
    rw [hnxt, Option.or_none]
    refine (ih fuel (some a) r.2 (a :: moved) (by simp only [List.length_cons] at hfuel; omega) hrest
      (hperm.nodup_iff.mpr hnodup) (fun c hc => hsub (hperm.subset hc)) hs').mono fun s' h' => ?_
    rwa [List.reverse_cons, List.append_assoc, List.singleton_append]

/-- The entries of the first `i` chains. -/
def visited (slot : EntryId → ℕ) (row : List EntryId) (i : ℕ) : List EntryId :=
  (List.range i).flatMap (chainAt slot row)

theorem visited_succ (slot : EntryId → ℕ) (row : List EntryId) (i : ℕ) :
    visited slot row (i + 1) = visited slot row i ++ chainAt slot row i := by
  simp [visited, List.range_succ]

theorem mem_visited {slot : EntryId → ℕ} {i : ℕ} :
    a ∈ visited slot row i ↔ a ∈ row ∧ slot a < i := by
  simp only [visited, List.mem_flatMap, List.mem_range, mem_chainAt]
  constructor
  · rintro ⟨j, hj, ha, rfl⟩
    exact ⟨ha, hj⟩
  · rintro ⟨ha, hi⟩
    exact ⟨_, hi, ha, rfl⟩

theorem nodup_visited {slot : EntryId → ℕ} (hn : row.Nodup) (i : ℕ) : (visited slot row i).Nodup := by
  induction i with
  | zero => exact List.nodup_nil
  | succ i ih =>
    rw [visited_succ]
    refine List.nodup_append.mpr ⟨ih, hn.sublist chainAt_sublist, fun a ha b hb hab => ?_⟩
    have hlt := (mem_visited.mp ha).2
    have heq := (mem_chainAt.mp hb).2
    rw [hab, heq] at hlt
    exact Nat.lt_irrefl _ hlt

theorem visited_perm {slot : EntryId → ℕ} {i : ℕ} (hn : row.Nodup) (hslot : ∀ a, slot a < i) :
    (visited slot row i).Perm row := by
  rw [List.perm_ext_iff_of_nodup (nodup_visited hn i) hn]
  intro a
  rw [mem_visited]
  exact ⟨And.left, fun ha => ⟨ha, hslot a⟩⟩

theorem sat_hashExpandBuckets (hT : m.tables.get? t = some T) (hd : Distributes m T row)
    (hn : row.Nodup) (hlive : ∀ c ∈ row, (m.content c).isSome = true)
    (hitems : T.numItems.toNat ≠ 0) (hrow : row.length ≤ UINT_MAX) :
    Sat (Excused malloc) (hashExpandBuckets malloc m t) fun m' => ∃ T' row',
      Rebuckets m m' t T' row ∧ T'.numItems = T.numItems ∧ T'.tail = T.tail ∧
      row'.Perm row ∧ Distributes m' T' row' := by
  have hnum := hd.numBuckets
  obtain ⟨k, hk⟩ : ∃ k, T.log2NumBuckets.toNat = k := ⟨_, rfl⟩
  have hk32 : k < 32 := hk ▸ hd.log2
  rw [hk] at hnum
  simp only [hashExpandBuckets, HtMemory.readTable_eq hT, ok_bind]
  refine (sat_uthashMalloc _).bind fun _ hmalloc => ?_
  have hlog' : (T.log2NumBuckets + 1).toNat = k + 1 := by
    rw [UInt32.toNat_add, hk, UInt32.toNat_one]
    exact Nat.mod_eq_of_lt (by omega)
  rw [hlog']
  split_ifs with hbig
  · -- the shift is by 32 if there are `2 ^ 31` buckets
    obtain rfl : k = 31 := by omega
    rw [hnum] at hmalloc
    exact hmalloc
  · have hk31 : k < 31 := by omega
    have hdouble := toNat_mul_two hnum hk31
    have hsize : 2 * T.numBuckets.toNat = (T.numBuckets * 2).toNat := by
      rw [hdouble, hnum, Nat.pow_succ, Nat.mul_comm]
    have hideal := idealChainMaxlen_ne_zero hk hk31 hnum hitems
    have hslot (a : EntryId) : slotOf m T.numBuckets.toNat a < T.numBuckets.toNat := slotOf_lt hd.pos
    generalize hvis : visited (slotOf m T.numBuckets.toNat) row = vis
    rw [hsize]
    refine (sat_forRange (fun i s => Moving m (T.numBuckets * 2).toNat s (vis i).reverse)
      (fun i s hi hs => ?_) ?_).bind fun s hs => ?_
    · have hi' : (UInt32.ofNat i).toNat = i := by
        apply UInt32.toNat_ofNat_of_lt'
        exact hi.trans T.numBuckets.toNat_lt
      obtain ⟨b, hb⟩ : ∃ b, T.buckets[i]? = some b := ⟨_, List.getElem?_eq_getElem (hd.length ▸ hi)⟩
      simp only [readBucket, hi', hb, ok_bind]
      obtain ⟨hhead, -, hseg⟩ := hd.buckets i b hb
      rw [hhead]
      have hmem {c : EntryId} (hc : c ∈ chainAt (slotOf m T.numBuckets.toNat) row i ++ (vis i).reverse) :
          c ∈ row := by
        rcases List.mem_append.mp hc with hc | hc
        · exact (mem_chainAt.mp hc).1
        · rw [← hvis, List.mem_reverse] at hc
          exact (mem_visited.mp hc).1
      have hnodup : (chainAt (slotOf m T.numBuckets.toNat) row i ++ (vis i).reverse).Nodup := by
        have h : (visited (slotOf m T.numBuckets.toNat) row (i + 1)).Nodup := nodup_visited hn (i + 1)
        rw [visited_succ, hvis] at h
        refine (List.Perm.nodup_iff ?_).mpr h
        exact (List.perm_append_comm).trans ((List.reverse_perm _).append_right _)
      refine (sat_moveChain hdouble hideal hlive hrow _ _ none s _ ?_ hseg hnodup (fun c hc => hmem hc)
        hs).mono fun s' hs' => ?_
      · rw [hs.same.next]
        apply Heap.length_le_next (hn.sublist chainAt_sublist)
        intro c hc
        obtain ⟨x, hx⟩ := Option.isSome_iff_exists.mp (hlive c (mem_chainAt.mp hc).1)
        obtain ⟨e, he, -⟩ := Heap.of_view hx
        rw [he]
        rfl
      · rw [← hvis, visited_succ, List.reverse_append, hvis]
        exact hs'
    · rw [← hvis]
      exact ⟨HtMemory.Relinks.refl m, List.length_replicate, buckets_nil _, fun _ _ => rfl⟩
    · have hperm : ((vis T.numBuckets.toNat).reverse).Perm row := by
        rw [← hvis]
        exact (List.reverse_perm _).trans (visited_perm hn hslot)
      refine ⟨expandedTable T s.newBuckets s.nonidealItems, (vis T.numBuckets.toNat).reverse,
        ⟨hs.same.app, hs.same.content, ?_, hs.same.hashTables, hs.same.next, fun a ha => ?_⟩, rfl, rfl,
        hperm, ?_, ?_, hs.length, ?_⟩
      · simp only [HtMemory.writeTable, hs.same.tables]
      · exact hs.frame a fun h => ha (hperm.subset h)
      · simp only [expandedTable, hlog']
        omega
      · simp only [expandedTable, hlog']
        exact hdouble
      · have hb := hs.buckets
        rw [← slotOf_congr hs.same.content] at hb
        exact hb

end TagFilesystem.Cutil
