import TagFilesystem.Cutil.Conversions
import TagFilesystem.Cutil.Cursor
import TagFilesystem.Library.Substring

namespace TagFilesystem.Cutil

/-- An element is a `char *`; `none` is `NULL`. -/
abbrev StringMemory := Memory (Option CStr)

inductive SplitFault
  | list (e : ListFault)
  /-- The buffer is written past its end. -/
  | outOfBounds
  /-- The search goes on outside of the string. -/
  | badPointer
  | endlessLoop
  deriving Repr, DecidableEq

/-- A call of a function of `list.c`. -/
def onList {β : Type} (r : Except ListFault β) : Except SplitFault β :=
  match r with
  | .ok b => .ok b
  | .error e => .error (.list e)

/-- `for (unsigned i = 1; i <= s; ++i) (*buf_addr)[s - i] = list_get(li, i)`. -/
def fillFrom (li : ListId) (s : UInt32) :
    ℕ → UInt32 → List (Option CStr) → StringMemory → Except SplitFault (List (Option CStr) × StringMemory)
  | 0, _, _, _ => .error .endlessLoop
  | fuel + 1, i, buf, m =>
    if i ≤ s then do
      let (element, m) ← onList (listGet m li i)
      if (s - i).toNat < buf.length then
        fillFrom li s fuel (i + 1) (buf.set (s - i).toNat element) m
      else .error .outOfBounds
    else .ok (buf, m)

/-- The end of both functions: the value that is returned, the buffer and the memory. -/
def fillBuffer (m : StringMemory) (li : ListId) :
    Except SplitFault (UInt32 × List (Option CStr) × StringMemory) := do
  let size ← onList (listSize m li)
  let s := UInt32.ofNat size
  let (buf, m) ← (if s = 0 then .ok ([], m)
    else fillFrom li s (UINT_MAX + 1) 1 (List.replicate s.toNat none) m)
  let m ← onList (listFree m li)
  .ok (s, buf, m)

def stringSplit (m : StringMemory) (str : Option CStr) (delim : CStr) :
    Except SplitFault (UInt32 × List (Option CStr) × StringMemory) :=
  match str with
  | none => .ok (0, [], m)
  | some str => do
    let (li, m) ← onList (listNew m false [])
    let m ← onList (forEach (strtok str delim) (fun m p => listAdd m li (some p)) m)
    fillBuffer m li

/-- The loop of `string_split2` and the `list_add` behind it; `ptr` is the offset of `str_ptr1`.
The length of the delimiter is stored in an `int`. -/
def splitFrom (str delim : CStr) (li : ListId) : ℕ → ℕ → StringMemory → Except SplitFault StringMemory
  | 0, _, _ => .error .endlessLoop
  | fuel + 1, ptr, m =>
    match firstOccurrence delim (str.drop ptr) with
    | none => onList (listAdd m li (some (str.drop ptr)))
    | some i => do
      let m ← onList (listAdd m li (some ((str.drop ptr).take i)))
      let next : ℤ := ptr + i + (Int32.ofNat delim.length).toInt
      if 0 ≤ next ∧ next ≤ str.length then splitFrom str delim li fuel next.toNat m
      else .error .badPointer

/-- `string_split2`. If the search comes back to an offset it never ends. -/
def stringSplit2 (m : StringMemory) (str : Option CStr) (delim : CStr) :
    Except SplitFault (UInt32 × List (Option CStr) × StringMemory) :=
  match str with
  | none => .ok (0, [], m)
  | some str => do
    let (li, m) ← onList (listNew m false [])
    let m ← splitFrom str delim li (str.length + 1) 0 m
    fillBuffer m li

variable {α : Type} {E : SplitFault → Prop} {m m' : StringMemory} {A : Sequences (Option CStr)}
  {li : ListId} {zs done rest : List (Option CStr)} {str delim : CStr} {s i : UInt32}

theorem sat_onList {β : Type} {r : Except ListFault β} {Q : β → Prop}
    (h : Sat (fun e => E (.list e)) r Q) : Sat E (onList r) Q := by
  cases r with
  | ok b => exact h
  | error e => exact h

section Free

variable {E : ListFault → Prop} {m m' : Memory α} {xs : List α} {ns : List NodeId}
  {L : ListObject} {l : ListId} {p fuel : ℕ} {a d : NodeId} {A : Sequences α}

theorem sat_freeFrom {cs : List (NodeData α)} {liFree : Bool} (hn : ns.Nodup)
    (hcells : ∀ i a, p ≤ i → ns[i]? = some a →
      ∃ c, cs[i]? = some c ∧ m.nodes.get? a = some ⟨c, ns[i + 1]?⟩)
    (hlast : ∀ c, cs[ns.length - 1]? = some c → c.isSentinel = true) (ha : ns[p]? = some a)
    (hfuel : ns.length - p ≤ fuel) : Sat E (freeFrom liFree fuel m a) fun r =>
      r.1 ∈ ns ∧ r.2.lists = m.lists ∧ ∀ d, d ∉ ns → r.2.nodes.get? d = m.nodes.get? d := by
  induction fuel generalizing m p a with
  | zero =>
    obtain ⟨hlt, -⟩ := List.getElem?_eq_some_iff.mp ha
    omega
  | succ fuel ih =>
    obtain ⟨hlt, -⟩ := List.getElem?_eq_some_iff.mp ha
    obtain ⟨c, hc, hN⟩ := hcells p a (Nat.le_refl _) ha
    simp only [freeFrom, Memory.readNode, hN, ok_bind]
    by_cases hs : c.isSentinel = true
    · rw [if_pos hs]
      -- the back sentinel is left to `list_free`
      exact ⟨List.mem_of_getElem? ha, rfl, fun d _ => rfl⟩
    · have hnext : p + 1 < ns.length := by
        by_contra hge
        have hp : p = ns.length - 1 := by omega
        exact hs (hlast c (hp ▸ hc))
      have hb : ns[p + 1]? = some ns[p + 1] := List.getElem?_eq_getElem hnext
      rw [if_neg hs, nodeGetNext_eq hN hb, ok_bind]
      refine (ih ?_ hb (by omega)).mono ?_
      · -- the nodes behind `p` are not the one that was freed
        intro i b hi hib
        obtain ⟨c', hc', hC⟩ := hcells i b (Nat.le_of_succ_le hi) hib
        have hba : b ≠ a := by
          rintro rfl
          have hip := (List.getElem?_inj (List.getElem?_eq_some_iff.mp hib).1 hn).mp (hib.trans ha.symm)
          omega
        refine ⟨c', hc', ?_⟩
        show (m.nodes.free a).get? b = _
        rw [Heap.get?_free, if_neg hba, hC]
      · rintro r ⟨hmem, hlists, hframe⟩
        refine ⟨hmem, hlists, fun d hd => ?_⟩
        have hda : d ≠ a := fun he => hd (he ▸ List.mem_of_getElem? ha)
        rw [hframe d hd]
        show (m.nodes.free a).get? d = _
        rw [Heap.get?_free, if_neg hda]

variable [Inhabited α]

theorem sat_listFree (h : Refines m A) (hA : A.get? l = some xs) :
    Sat E (listFree m l) fun m' => Refines m' (A.free l) := by
  obtain ⟨chain, hc⟩ := h
  obtain ⟨L, hL, hl⟩ := hc.held hA
  obtain ⟨b, hb⟩ := hl.exists_node (i := 1) (by omega)
  obtain ⟨c, -, hN⟩ := hl.chain.cell hl.front
  have hlast : ∀ c, (contents xs)[(chain l).length - 1]? = some c → c.isSentinel = true := by
    intro c hc
    have hlen : (chain l).length - 1 = xs.length + 1 := by rw [hl.length]; omega
    have hend : (contents (xs ++ []))[xs.length + 1]? = some sentinel := contents_next
    rw [List.append_nil, ← hlen, hc] at hend
    cases hend
    rfl
  have hfuel : (chain l).length - 1 ≤ m.nodes.next + 1 := by
    have hle := hl.chain.length_le
    omega
  simp only [listFree, Memory.readList, hL, ok_bind, nodeGetNext_eq hN hb]
  apply (sat_freeFrom hl.chain.nodup (fun i a _ hi => hl.chain.cell hi) hlast hb hfuel).bind
  rintro ⟨node, m'⟩ ⟨hnode, hlists, hframe⟩
  have hlive (l₂ : ListId) (ys : List α) (h₂ : (A.free l).get? l₂ = some ys) :
      l₂ ≠ l ∧ A.get? l₂ = some ys := Heap.of_get?_free h₂
  -- no chain of another list has a node of this one
  refine ⟨chain, ?_, fun {l₂ ys} h₂ => ?_, fun {l₁ l₂ xs₁ xs₂} h₁ h₂ hne => ?_⟩
  · show (m'.lists.free l).next = (A.free l).next
    rw [Heap.next_free, Heap.next_free, hlists, hc.next]
  · obtain ⟨hne, h₂'⟩ := hlive l₂ ys h₂
    obtain ⟨L₂, hL₂, hl₂⟩ := hc.held h₂'
    refine ⟨L₂, ?_, hl₂.frame fun d hd => ?_⟩
    · show (m'.lists.free l).get? l₂ = some L₂
      rw [Heap.get?_free, if_neg hne, hlists, hL₂]
    · have hd' : d ∉ chain l := hc.apart h₂' hA hne hd
      have hdn : d ≠ node := fun he => hd' (he ▸ hnode)
      have hdf : d ≠ L.frontSentinel := fun he => hd' (he ▸ List.mem_of_getElem? hl.front)
      show ((m'.nodes.free node).free L.frontSentinel).get? d = _
      rw [Heap.get?_free, if_neg hdf, Heap.get?_free, if_neg hdn]
      exact hframe d hd'
  · exact hc.apart (hlive l₁ xs₁ h₁).2 (hlive l₂ xs₂ h₂).2 hne

end Free

/-- A buffer that has room for `rest` in front. -/
def filling (done rest : List (Option CStr)) : List (Option CStr) :=
  List.replicate rest.length none ++ done.reverse

theorem filling_set (e : Option CStr) : (filling done (e :: rest)).set rest.length e =
    filling (done ++ [e]) rest := by
  rw [filling, filling, List.length_cons, List.replicate_succ', List.append_assoc,
    List.set_append_right (h := by simp), List.length_replicate, Nat.sub_self, List.reverse_append]
  rfl

/-- The loop reads the elements in order. If there are `UINT_MAX` of them the counter does not get
beyond, and comes back to 0, for which there is no entry. -/
theorem sat_fillFrom {fuel : ℕ} (h : Refines m A) (hA : A.get? li = some (done ++ rest))
    (hs : s.toNat = (done ++ rest).length) (hi : i = UInt32.ofNat (done.length + 1))
    (hfuel : rest.length < fuel) (hE : (done ++ rest).length < UINT_MAX ∨ E .outOfBounds) :
    Sat E (fillFrom li s fuel i (filling done rest) m) fun r =>
      (done ++ rest).length < UINT_MAX ∧ r.1 = (done ++ rest).reverse ∧ Refines r.2 A := by
  have hmax : (done ++ rest).length ≤ UINT_MAX := by
    rw [← hs]
    exact Nat.le_of_lt_succ s.toNat_lt_size
  induction fuel generalizing done rest i m with
  | zero => exact absurd hfuel (Nat.not_lt_zero _)
  | succ fuel ih =>
    rw [fillFrom]
    cases rest with
    | nil =>
      rw [List.append_nil] at hs hE hmax ⊢
      by_cases hlt : done.length < UINT_MAX
      · have hgt : ¬ i ≤ s := by
          rw [UInt32.le_iff_toNat_le, hi, hs, UInt32.toNat_ofNat_of_lt' (Nat.succ_lt_succ hlt)]
          omega
        rw [if_neg hgt]
        refine ⟨hlt, ?_, h⟩
        simp [filling]
      · -- `i` has come back to 0, and the entry for it is behind the end of the buffer
        have hlen : done.length = UINT_MAX := by omega
        obtain rfl : i = 0 := by rw [hi, hlen]; rfl
        obtain ⟨chain, hc⟩ := h
        obtain ⟨L, hL, hl⟩ := hc.held hA
        obtain ⟨e, L', -, hget, -⟩ := exists_listGet (n := 0) hL hl (Nat.zero_le _)
        have hfull : ¬ (s - 0).toNat < (filling done []).length := by
          simp [filling, hs]
        rw [if_pos (UInt32.le_iff_toNat_le.mpr (Nat.zero_le _)), hget]
        simp only [onList, ok_bind, if_neg hfull]
        exact hE.resolve_left hlt
    | cons e rest =>
      have hlen : (done ++ e :: rest).length = done.length + 1 + rest.length := by
        rw [List.length_append, List.length_cons]
        omega
      have hn : i.toNat = done.length + 1 := by
        rw [hi]
        refine UInt32.toNat_ofNat_of_lt' ?_
        simp only [UINT_MAX] at hmax
        change done.length + 1 < 4294967296
        omega
      have hle : i ≤ s := by
        rw [UInt32.le_iff_toNat_le]
        omega
      have hindex : (s - i).toNat = rest.length := by
        rw [UInt32.toNat_sub_of_le _ _ hle]
        omega
      have hx : (done ++ e :: rest)[done.length]? = some e := by simp
      have hroom : rest.length < (filling done (e :: rest)).length := by
        simp [filling]
        omega
      rw [if_pos hle, hindex]
      apply (sat_onList (sat_listGet h hA hx hn)).bind
      rintro ⟨e', m₁⟩ ⟨he, hm₁⟩
      obtain rfl : e' = e := he
      dsimp only
      rw [if_pos hroom, filling_set]
      -- the element just read is the next one of `done`
      have hcons : done ++ e' :: rest = done ++ [e'] ++ rest := List.append_cons ..
      rw [hcons] at hA hs hE hmax ⊢
      refine ih hm₁ hA hs ?_ (Nat.lt_of_succ_lt_succ hfuel) hE hmax
      rw [hi, List.length_append, List.length_singleton, UInt32.ofNat_add (done.length + 1)]
      rfl

theorem sat_fillBuffer (h : Refines m A) (hA : A.get? li = some zs)
    (hE : zs.length < UINT_MAX ∨ zs.length = UINT_MAX ∧ E .outOfBounds) :
    Sat E (fillBuffer m li) fun r => zs.length < UINT_MAX ∧ r.1 = UInt32.ofNat zs.length ∧
      r.2.1 = zs.reverse ∧ Refines r.2.2 (A.free li) := by
  have hs : (UInt32.ofNat zs.length).toNat = zs.length := by
    refine UInt32.toNat_ofNat_of_lt' ?_
    simp only [UINT_MAX] at hE
    change zs.length < 4294967296
    omega
  apply (sat_onList (sat_listSize h hA)).bind
  rintro _ rfl
  refine Sat.bind (P := fun r : List (Option CStr) × StringMemory =>
    zs.length < UINT_MAX ∧ r.1 = zs.reverse ∧ Refines r.2 A) ?_ ?_
  · split_ifs with hz
    · have hnil : zs = [] := by
        rw [← UInt32.toNat_inj, hs] at hz
        exact List.length_eq_zero_iff.mp hz
      subst hnil
      exact ⟨by decide, rfl, h⟩
    · have hstart : List.replicate (UInt32.ofNat zs.length).toNat none = filling [] zs := by
        rw [hs, filling, List.reverse_nil, List.append_nil]
      rw [hstart]
      refine sat_fillFrom h hA hs rfl ?_ (hE.imp_right And.right)
      rcases hE with hlt | ⟨heq, -⟩
      · exact Nat.lt_succ_of_lt hlt
      · exact Nat.lt_succ_of_le heq.le
  · rintro ⟨buf, m₁⟩ ⟨hlt, hbuf, hm₁⟩
    exact (sat_onList (sat_listFree hm₁ hA)).bind fun m₂ hm₂ => ⟨hlt, rfl, hbuf, hm₂⟩

theorem sat_newList (h : Refines m A) : Sat E (onList (listNew m false [])) fun r =>
    Refines r.2 (A.alloc []) ∧ r.1 = A.next ∧ cursorPosition r.2 A.next = 0 := by
  rw [listNew_eq, forEach_nil, ok_bind]
  refine ⟨h.withEmpty false, h.next, ?_⟩
  rw [cursorPosition, ← h.next]
  simp only [withEmpty, Heap.get?_alloc_next]

theorem sat_stringSplit (h : Refines m A) (hlt : (strtok str delim).length < UINT_MAX) :
    Sat E (stringSplit m (some str) delim) fun r =>
      r.1 = UInt32.ofNat (strtok str delim).length ∧ r.2.1 = (strtok str delim).map some ∧
        ∃ A', Refines r.2.2 A' ∧ ∀ l, A'.get? l = A.get? l := by
  apply (sat_newList h).bind
  rintro ⟨li, m₁⟩ ⟨hm₁, rfl, hfront⟩
  -- `list_add` puts every component in front of the ones before
  refine (sat_onList (sat_forEach_visited (fun done m' =>
    Refines m' (A.alloc (done.reverse.map some)) ∧ cursorPosition m' A.next = 0) ?_
      ⟨hm₁, hfront⟩)).bind ?_
  · rintro done p rest m' - ⟨hm', hfront'⟩
    apply (sat_listAdd_front (e := some p) hm' Heap.get?_alloc_next hfront').mono
    rintro m'' ⟨hm'', hfront''⟩
    rw [Heap.write_alloc] at hm''
    rw [List.reverse_append]
    exact ⟨hm'', hfront''⟩
  · rintro m₂ ⟨hm₂, -⟩
    have hlen : ((strtok str delim).reverse.map some).length = (strtok str delim).length := by simp
    apply (sat_fillBuffer hm₂ Heap.get?_alloc_next (.inl (by rwa [hlen]))).mono
    rintro ⟨s, buf, m₃⟩ ⟨-, hs, hbuf, hm₃⟩
    refine ⟨by rw [hs, hlen], ?_, _, hm₃, fun l => Heap.get?_free_alloc⟩
    rw [hbuf, ← List.map_reverse, List.reverse_reverse]

theorem sat_splitFrom {fuel ptr : ℕ} (hd : delim ≠ [])
    (hint : (delim.length : ℤ) ≤ INT_MAX ∨ ¬ delim <:+: str) (hptr : ptr ≤ str.length)
    (hfuel : str.length - ptr < fuel) (h : Refines m A) (hA : A.get? li = some zs)
    (hfront : cursorPosition m li = 0) : Sat E (splitFrom str delim li fuel ptr m) fun m' =>
      Refines m' (A.write li ((pieces delim (str.drop ptr)).reverse.map some ++ zs)) := by
  induction fuel generalizing ptr m A zs with
  | zero => exact absurd hfuel (Nat.not_lt_zero _)
  | succ fuel ih =>
    rw [splitFrom]
    cases hf : firstOccurrence delim (str.drop ptr) with
    | none =>
      rw [pieces_of_none hf]
      -- the last piece is what is left of the string
      exact sat_onList ((sat_listAdd_front h hA hfront).mono fun m' hm' => hm'.1)
    | some i =>
      have hlen := length_le_of_firstOccurrence hf hd
      have hpos := List.length_pos_iff.mpr hd
      rw [List.length_drop] at hlen
      have hinfix : delim <:+: str :=
        (prefix_drop_of_firstOccurrence hf).isInfix.trans
          ((List.drop_suffix _ _).trans (List.drop_suffix _ _)).isInfix
      -- a delimiter that occurs has kept its length in the `int`
      have hdelim : (Int32.ofNat delim.length).toInt = delim.length := by
        refine Int32.toInt_ofNat_of_lt ?_
        have hmax := hint.resolve_right (not_not.mpr hinfix)
        simp only [INT_MAX] at hmax
        change delim.length < 2147483648
        omega
      have hnext : ((ptr : ℤ) + i + delim.length).toNat = ptr + (i + delim.length) := by omega
      have hin : 0 ≤ (ptr : ℤ) + i + delim.length ∧ (ptr : ℤ) + i + delim.length ≤ str.length := by
        omega
      apply (sat_onList (sat_listAdd_front h hA hfront)).bind
      rintro m₁ ⟨hm₁, hfront₁⟩
      dsimp only
      rw [hdelim, if_pos hin, hnext]
      refine (ih (by omega) (by omega) hm₁ (Heap.get?_write_self hA) hfront₁).mono fun m' hm' => ?_
      rw [Heap.write_write] at hm'
      rw [pieces_of_some hf hd, List.drop_drop, List.reverse_cons, List.map_append, List.append_assoc]
      exact hm'

theorem sat_stringSplit2 (h : Refines m A) (hd : delim ≠ [])
    (hint : (delim.length : ℤ) ≤ INT_MAX ∨ ¬ delim <:+: str)
    (hE : (pieces delim str).length < UINT_MAX ∨
      (pieces delim str).length = UINT_MAX ∧ E .outOfBounds) :
    Sat E (stringSplit2 m (some str) delim) fun r => (pieces delim str).length < UINT_MAX ∧
      r.1 = UInt32.ofNat (pieces delim str).length ∧ r.2.1 = (pieces delim str).map some ∧
        ∃ A', Refines r.2.2 A' ∧ ∀ l, A'.get? l = A.get? l := by
  apply (sat_newList h).bind
  rintro ⟨li, m₁⟩ ⟨hm₁, rfl, hfront⟩
  refine (sat_splitFrom hd hint (Nat.zero_le _) (Nat.lt_succ_self _) hm₁ Heap.get?_alloc_next
    hfront).bind fun m₂ hm₂ => ?_
  rw [Heap.write_alloc, List.append_nil, List.drop_zero] at hm₂
  have hlen : ((pieces delim str).reverse.map some).length = (pieces delim str).length := by simp
  apply (sat_fillBuffer hm₂ Heap.get?_alloc_next (by rwa [hlen])).mono
  rintro ⟨s, buf, m₃⟩ ⟨hlt, hs, hbuf, hm₃⟩
  refine ⟨by rwa [hlen] at hlt, by rw [hs, hlen], ?_, _, hm₃, fun l => Heap.get?_free_alloc⟩
  rw [hbuf, ← List.map_reverse, List.reverse_reverse]

/-- `string_split2` returns at least one piece, no piece contains the delimiter, and the pieces
joined with it are the string. Of the lists in the memory none has changed. -/
def Inverts (str delim : CStr) : Prop :=
  ∀ m A, Refines m A → ∃ s ps m' A', stringSplit2 m (some str) delim = .ok (s, ps.map some, m') ∧
    s.toNat = ps.length ∧ ps ≠ [] ∧ delim.intercalate ps = str ∧ (∀ p ∈ ps, ¬ delim <:+: p) ∧
    Refines m' A' ∧ ∀ l, A'.get? l = A.get? l

/-- `string_split2` is inverted by joining if the length of a delimiter that occurs fits into the
`int` that it is stored in, and the counter of the pieces can get beyond their number. -/
theorem stringSplit2_inverts (hd : delim ≠ [])
    (hint : (delim.length : ℤ) ≤ INT_MAX ∨ ¬ delim <:+: str)
    (hlt : (pieces delim str).length < UINT_MAX) : Inverts str delim := by
  intro m A h
  obtain ⟨⟨s, buf, m'⟩, hrun, -, hs, hbuf, A', hm', hsame⟩ :=
    (sat_stringSplit2 h hd hint (.inl hlt)).exists_ok
  dsimp only at hs hbuf hm'
  subst hs hbuf
  refine ⟨_, pieces delim str, m', A', hrun, ?_, pieces_ne_nil hd str, intercalate_pieces hd str,
    not_infix_of_mem_pieces hd str, hm', hsame⟩
  exact UInt32.toNat_ofNat_of_lt' (Nat.lt_succ_of_lt hlt)

/-- Two occurrences that overlap: the left one counts. -/
theorem stringSplit2_inverts_sample : Inverts (cstr [97, 97, 97, 98]) (cstr [97, 97]) ∧
    pieces (cstr [97, 97]) (cstr [97, 97, 97, 98]) = [[], cstr [97, 98]] :=
  ⟨stringSplit2_inverts (by decide) (.inl (by decide)) (by decide), by decide⟩

theorem firstOccurrence_self (d : CStr) : firstOccurrence d d = some 0 := by
  cases d with
  | nil => rfl
  | cons c d => exact if_pos (List.prefix_refl _)

theorem splitFrom_endless {fuel ptr : ℕ} (hint : (Int32.ofNat delim.length).toInt = 0)
    (hptr : ptr ≤ str.length) (hf : firstOccurrence delim (str.drop ptr) = some 0) :
    Returns (splitFrom str delim li fuel ptr m) fun _ => False := by
  induction fuel generalizing m with
  | zero => trivial
  | succ fuel ih =>
    simp only [splitFrom, hf]
    refine (returns_true _).bind fun m' _ => ?_
    have hin : 0 ≤ (ptr : ℤ) + (0 : ℕ) + 0 ∧ (ptr : ℤ) + (0 : ℕ) + 0 ≤ str.length := by omega
    have hnext : ((ptr : ℤ) + (0 : ℕ) + 0).toNat = ptr := by omega
    rw [hint, if_pos hin, hnext]
    exact ih

theorem pieces_replicate (c : CChar) (n : ℕ) : pieces [c] (List.replicate n c) = List.replicate (n + 1) [] := by
  induction n with
  | zero => exact pieces_of_none rfl
  | succ n ih =>
    have hf : firstOccurrence [c] (c :: List.replicate n c) = some 0 := if_pos (by simp)
    rw [List.replicate_succ, pieces_of_some hf (List.cons_ne_nil _ _)]
    exact congrArg (List.cons []) ih

theorem not_inverts_self {n : ℕ} (c : CChar) (hn : (Int32.ofNat n).toInt = 0) :
    ¬ Inverts (List.replicate n c) (List.replicate n c) := by
  intro h
  obtain ⟨s, ps, m', -, hrun, -⟩ := h .empty .empty refines_empty
  have hlen : (Int32.ofNat (List.replicate n c).length).toInt = 0 := by rwa [List.length_replicate]
  have hstop : Returns (stringSplit2 .empty (some (List.replicate n c)) (List.replicate n c))
      fun _ => False := by
    -- the delimiter is found where the search is, again and again
    refine (returns_true _).bind fun r _ => ?_
    refine (splitFrom_endless hlen (Nat.zero_le _) (firstOccurrence_self _)).bind fun _ hf => hf.elim
  exact hstop.of_ok hrun

theorem not_inverts_replicate {n : ℕ} (c : CChar) (hn : n + 1 = UINT_MAX) :
    ¬ Inverts (List.replicate n c) [c] := by
  intro h
  obtain ⟨s, ps, m', -, hrun, -⟩ := h .empty .empty refines_empty
  have hlen : (pieces [c] (List.replicate n c)).length = UINT_MAX := by
    rw [pieces_replicate, List.length_replicate, hn]
  have hstop : Returns (stringSplit2 .empty (some (List.replicate n c)) [c])
      fun _ => (pieces [c] (List.replicate n c)).length < UINT_MAX :=
    (sat_stringSplit2 refines_empty (List.cons_ne_nil c []) (.inl (by simp [INT_MAX]))
      (.inr ⟨hlen, trivial⟩)).mono fun _ hr => hr.1
  exact absurd (hstop.of_ok hrun) (Nat.not_lt.mpr hlen.ge)

/-- A delimiter of `UINT_MAX + 1` bytes has length 0 as an `int`, and the search does not advance.
When there are `UINT_MAX` pieces, the counter comes back to 0 and the buffer is left. -/
theorem stringSplit2_limits :
    ¬ Inverts (List.replicate (UINT_MAX + 1) slash) (List.replicate (UINT_MAX + 1) slash) ∧
    ¬ Inverts (List.replicate (UINT_MAX - 1) slash) [slash] :=
  ⟨not_inverts_self slash (by decide), not_inverts_replicate slash (by decide)⟩

end TagFilesystem.Cutil
