import TagFilesystem.Cutil.Sequences

namespace TagFilesystem.Cutil

variable {α σ : Type} [Inhabited α] {E : ListFault → Prop} {xs : List α} {e : α} {m : Memory α}
  {ns : List NodeId} {L : ListObject} {l : ListId} {i n : UInt32} {body : σ → UInt32 → α → σ} {s : σ}

/-- `list_get` at any position up to the size; position 0 is that of the front sentinel. -/
theorem exists_listGet (hL : m.lists.get? l = some L) (h : Holds m.nodes L ns xs)
    (hn : n.toNat ≤ xs.length) :
    ∃ e L', (default :: xs)[n.toNat]? = some e ∧ listGet m l n = .ok (e, m.writeList l L') ∧
      (m.writeList l L').lists.get? l = some L' ∧ Holds m.nodes L' ns xs := by
  obtain ⟨a, ha⟩ := h.exists_node (i := n.toNat) (by omega)
  obtain ⟨c, hc, hN⟩ := h.chain.cell ha
  have hdata : (default :: xs)[n.toNat]? = some c.data := by
    cases hi : n.toNat with
    | zero =>
      -- the sentinel holds no element
      rw [hi] at hc
      cases hc
      rfl
    | succ k =>
      have hx : xs[k]? = some xs[k] := List.getElem?_eq_getElem (by omega)
      rw [hi, contents_getElem? hx] at hc
      cases hc
      exact hx
  refine ⟨c.data, { L with cursor := a, curpos := n }, hdata, ?_, Heap.get?_write_self hL,
    ⟨h.chain, h.front, ha, h.size⟩⟩
  simp only [listGet, listGetNode_eq hL h ha, ok_bind, Memory.readNode, Memory.writeList, hN]

theorem sat_convertFrom {fuel : ℕ} (I : ℕ → σ → Prop) (hle : xs.length ≤ UINT_MAX)
    (hstep : ∀ (i : UInt32) s e, (default :: xs)[i.toNat]? = some e → I i.toNat s →
      I (i.toNat + 1) (body s i e))
    (hL : m.lists.get? l = some L) (h : Holds m.nodes L ns xs) (hi : i.toNat ≤ xs.length)
    (hfuel : xs.length - i.toNat < fuel) (hs : I i.toNat s) :
    Sat E (convertFrom l body fuel i s m) fun r => I xs.length r.1 := by
  induction fuel generalizing i s m L with
  | zero => exact absurd hfuel (Nat.not_lt_zero _)
  | succ fuel ih =>
    simp only [convertFrom, listSize, Memory.readList, hL, ok_bind, h.size]
    split_ifs with hlt
    · obtain ⟨e, L', he, hget, hL', h'⟩ := exists_listGet hL h hi
      -- the counter does not come back to 0, as it is below the size
      have hnext : (i + 1).toNat = i.toNat + 1 := by
        rw [UInt32.toNat_add]
        apply Nat.mod_eq_of_lt
        simp only [UINT_MAX] at hle
        change i.toNat + 1 < 4294967296
        omega
      rw [hget, ok_bind]
      refine ih hL' h' (by omega) (by omega) ?_
      rw [hnext]
      exact hstep i s _ he hs
    · have hend : i.toNat = xs.length := by omega
      rw [← hend]
      exact hs

theorem convertFrom_of_uint_max_lt {fuel : ℕ} (hlt : UINT_MAX < xs.length)
    (hL : m.lists.get? l = some L) (h : Holds m.nodes L ns xs) :
    convertFrom l body fuel i s m = .error .endlessLoop := by
  induction fuel generalizing i s m L with
  | zero => rfl
  | succ fuel ih =>
    have hi : i.toNat < xs.length := (Nat.le_of_lt_succ i.toNat_lt_size).trans_lt hlt
    obtain ⟨e, L', -, hget, hL', h'⟩ := exists_listGet hL h hi.le
    simp only [convertFrom, listSize, Memory.readList, hL, ok_bind, h.size, if_pos hi, hget]
    exact ih hL' h'

/-- The calls of `list_get` in either conversion: the position, and the element that it gives. -/
def conversionCalls (m : Memory α) (l : ListId) : Except ListFault (List (UInt32 × α) × Memory α) :=
  convertFrom l (fun calls i element => calls ++ [(i, element)]) (UINT_MAX + 1) 0 [] m

variable {κ : α → CStr}

theorem sat_listToArray (hL : m.lists.get? l = some L) (h : Holds m.nodes L ns xs)
    (hle : xs.length ≤ UINT_MAX) :
    Sat E (listToArray m l) fun r => r.1 = (default :: xs).take xs.length := by
  refine sat_convertFrom (fun i array => array = (default :: xs).take i) hle ?_ hL h (Nat.zero_le _)
    (Nat.lt_succ_of_le (by simpa using hle)) rfl
  rintro i array e he rfl
  rw [List.take_add_one, he]
  rfl

theorem sat_listToHashtable (hL : m.lists.get? l = some L) (h : Holds m.nodes L ns xs)
    (hle : xs.length ≤ UINT_MAX) :
    Sat E (listToHashtable m l κ) fun r =>
      r.1.entries = ((default :: xs).take xs.length).map fun e => (κ e, e) := by
  refine sat_convertFrom (fun i (ht : Table CStr α) => ht.entries =
    ((default :: xs).take i).map fun e => (κ e, e)) hle ?_ hL h (Nat.zero_le _) (Nat.lt_succ_of_le (by simpa using hle)) rfl
  intro i ht e he hht
  rw [List.take_add_one, he, Table.entries_add, hht, List.map_append]
  rfl

theorem sat_conversionCalls (hL : m.lists.get? l = some L) (h : Holds m.nodes L ns xs)
    (hle : xs.length ≤ UINT_MAX) : Sat E (conversionCalls m l) fun r =>
      (xs = [] → r.1 = []) ∧ (xs ≠ [] → (0, default) ∈ r.1) := by
  refine (sat_convertFrom (fun i calls => (i = 0 → calls = []) ∧ (i ≠ 0 → (0, default) ∈ calls)) hle ?_
    hL h (Nat.zero_le _) (Nat.lt_succ_of_le (by simpa using hle)) ⟨fun _ => rfl, fun h => absurd rfl h⟩).mono
    fun r hr => ⟨fun hnil => hr.1 (by rw [hnil]; rfl), fun hne => hr.2 (by simpa using hne)⟩
  rintro i calls e he ⟨-, hmem⟩
  -- the first call is at position 0
  refine ⟨fun hz => absurd hz (Nat.succ_ne_zero _), fun _ => ?_⟩
  by_cases hi : i.toNat = 0
  · rw [hi] at he
    obtain rfl : i = 0 := UInt32.toNat_inj.mp hi
    cases he
    exact List.mem_append_right _ List.mem_cons_self
  · exact List.mem_append_left _ (hmem hi)

/-- The array and the table hold the elements in order, and only positions and elements of the list
have been used. -/
def Converts (m : Memory α) (l : ListId) (xs : List α) (κ : α → CStr) : Prop :=
  (∃ m', listToArray m l = .ok (xs, m')) ∧
  (∃ ht m', listToHashtable m l κ = .ok (ht, m') ∧ ht.entries = xs.map fun e => (κ e, e)) ∧
  ∃ calls m', conversionCalls m l = .ok (calls, m') ∧
    ∀ i e, (i, e) ∈ calls → 1 ≤ i.toNat ∧ i.toNat ≤ xs.length ∧ e ∈ xs

/-- The conversions lose nothing exactly if there is nothing to convert. -/
theorem converts_iff (hL : m.lists.get? l = some L) (h : Holds m.nodes L ns xs) :
    Converts m l xs κ ↔ xs = [] := by
  constructor
  · rintro ⟨-, -, calls, m', hcalls, hin⟩
    by_contra hne
    -- a loop that ends has called `list_get` at the sentinel
    rcases Nat.lt_or_ge UINT_MAX xs.length with hlt | hle
    · rw [conversionCalls, convertFrom_of_uint_max_lt hlt hL h] at hcalls
      cases hcalls
    · have hsat := sat_conversionCalls (E := fun _ => True) hL h hle
      have hzero := hin _ _ ((hsat.of_ok hcalls).2 hne)
      exact absurd hzero.1 (by decide)
  · rintro rfl
    obtain ⟨⟨array, m₁⟩, harray, rfl⟩ := (sat_listToArray hL h (Nat.zero_le _)).exists_ok
    have hsat : Sat (fun _ => False) (listToHashtable m l κ) _ :=
      sat_listToHashtable hL h (Nat.zero_le _)
    obtain ⟨⟨ht, m₂⟩, htable, hentries⟩ := hsat.exists_ok
    obtain ⟨⟨calls, m₃⟩, hcalls, hnil, -⟩ := (sat_conversionCalls hL h (Nat.zero_le _)).exists_ok
    refine ⟨⟨m₁, harray⟩, ⟨ht, m₂, htable, hentries⟩, calls, m₃, hcalls, fun i e hmem => ?_⟩
    rw [show calls = [] from hnil rfl] at hmem
    cases hmem

theorem exists_new {A : Sequences α} (h : Refines m A) (elements : List α)
    (hle : elements.length ≤ UINT_MAX) : ∃ m', Refines m' (A.alloc elements) := by
  obtain ⟨r, -, -, hr⟩ := (sat_listNew h false (Nat.le_succ_of_le hle)).exists_ok
  exact ⟨r.2, hr⟩

theorem exists_three : ∃ (m : Memory ℕ) (A : Sequences ℕ), Refines m A ∧ A.get? 0 = some [] ∧
    A.get? 1 = some [5] ∧ A.get? 2 = some [5, 7] := by
  have h₀ : Refines (.empty : Memory ℕ) .empty := refines_empty
  obtain ⟨m₁, h₁⟩ := exists_new h₀ [] (by decide)
  obtain ⟨m₂, h₂⟩ := exists_new h₁ [5] (by decide)
  obtain ⟨m₃, h₃⟩ := exists_new h₂ [5, 7] (by decide)
  exact ⟨m₃, _, h₃, rfl, rfl, rfl⟩

theorem converts_iff_sample : ∃ m : Memory ℕ, Converts m 0 [] (fun _ => dot) ∧
    ¬ Converts m 2 [5, 7] (fun _ => dot) := by
  obtain ⟨m, A, ⟨chain, hc⟩, hA₀, -, hA₂⟩ := exists_three
  obtain ⟨L₀, hL₀, h₀⟩ := hc.held hA₀
  obtain ⟨L₂, hL₂, h₂⟩ := hc.held hA₂
  exact ⟨m, (converts_iff hL₀ h₀).mpr rfl, fun h => absurd ((converts_iff hL₂ h₂).mp h) (by decide)⟩

/-- The array of the list 5 holds `NULL`. -/
theorem conversions_shift : ¬ ∀ (m : Memory ℕ) l L ns xs κ, m.lists.get? l = some L →
    Holds m.nodes L ns xs → Converts m l xs κ := by
  intro h
  obtain ⟨m, A, ⟨chain, hc⟩, -, hA₁, -⟩ := exists_three
  obtain ⟨L, hL, hl⟩ := hc.held hA₁
  obtain ⟨⟨m', harray⟩, -⟩ := h m 1 L _ _ (fun _ => dot) hL hl
  have hsat := sat_listToArray (E := fun _ => True) hL hl (by decide)
  have hshifted : [5] = (default :: [5]).take 1 := hsat.of_ok harray
  exact absurd hshifted (by decide)

end TagFilesystem.Cutil
