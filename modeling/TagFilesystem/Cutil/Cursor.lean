import TagFilesystem.Cutil.Sequences
import Mathlib.Data.List.NodupEquivFin
import Mathlib.Order.WellFounded

namespace TagFilesystem.Cutil

variable {α : Type} {E : ListFault → Prop} {xs ys pre rest : List α} {e v x : α} {c p q : ℕ}
  {m m' : Memory α} {ns ns' : List NodeId} {L : ListObject} {l : ListId} {n : NodeId}
  {A : Sequences α}

section RemoveSkipping

variable [DecidableEq α]

/-- The element behind one that is removed is not looked at. -/
def removeSkipping (v : α) : List α → List α
  | [] => []
  | [x] => if x = v then [] else [x]
  | x :: y :: ys => if x = v then y :: removeSkipping v ys else x :: removeSkipping v (y :: ys)

theorem removeSkipping_cons_ne (h : x ≠ v) (xs : List α) :
    removeSkipping v (x :: xs) = x :: removeSkipping v xs := by
  cases xs with
  | nil => simp [removeSkipping, h]
  | cons y ys => simp [removeSkipping, h]

theorem removeSkipping_eq_filter_iff :
    removeSkipping v xs = xs.filter (· ≠ v) ↔ ¬ [v, v] <:+: xs := by
  induction xs using removeSkipping.induct (v := v) with
  | case1 => simp [removeSkipping]
  | case2 => simp [removeSkipping, List.infix_cons_iff]
  | case3 x h => simp [removeSkipping, h, List.infix_cons_iff]
  | case4 y ys ih =>
    by_cases hy : y = v
    · subst hy
      have hne : removeSkipping y (y :: y :: ys) ≠ (y :: y :: ys).filter (· ≠ y) := by
        intro heq
        have hmem : y ∈ (y :: y :: ys).filter (· ≠ y) := by
          rw [← heq]
          simp [removeSkipping]
        simp at hmem
      have hinfix : [y, y] <:+: y :: y :: ys := ⟨[], ys, rfl⟩
      exact iff_of_false hne (not_not.mpr hinfix)
    · simpa [removeSkipping, hy, Ne.symm hy, List.infix_cons_iff] using ih
  | case5 x y ys h ih =>
    have hinfix : [v, v] <:+: x :: y :: ys ↔ [v, v] <:+: y :: ys := by
      rw [List.infix_cons_iff]
      simp [Ne.symm h]
    rw [removeSkipping_cons_ne h, List.filter_cons_of_pos (by simpa using h), List.cons_inj_right, ih,
      hinfix]

end RemoveSkipping

theorem getElem?_ne_of_sublist_eraseIdx (h : ns'.Sublist (ns.eraseIdx q)) (hn : ns.Nodup) (hq : q ≤ c)
    (hc : c < ns.length) : ns'[c]? ≠ ns[c]? := by
  intro heq
  obtain ⟨f, hf⟩ := List.sublist_iff_exists_orderEmbedding_getElem?_eq.mp h
  have hle : c ≤ f c := StrictMono.le_apply f.strictMono
  have hmoved : ns[f c + 1]? = ns[c]? := by
    rw [← heq, hf, List.getElem?_eraseIdx_of_ge (hq.trans hle)]
  have hsame : c = f c + 1 := (List.getElem?_inj hc hn).mp hmoved.symm
  omega

section Loop

variable [Inhabited α]

theorem contents_next : (contents (pre ++ rest))[pre.length + 1]? =
    some ((rest.head?.map datum).getD sentinel) := by
  cases rest with
  | nil => simp [contents]
  | cons x rest => exact contents_getElem? (by simp)

theorem exists_next (hc : Chain m.nodes ns (contents (pre ++ rest))) (hn : ns[pre.length]? = some n) :
    ∃ n', ns[pre.length + 1]? = some n' ∧ nodeGetNext m n = .ok n' ∧
      m.nodes.get? n' = some ⟨(rest.head?.map datum).getD sentinel, ns[pre.length + 2]?⟩ := by
  have hlen : ns.length = (pre ++ rest).length + 2 := hc.length.trans length_contents
  rw [List.length_append] at hlen
  have hnext : ns[pre.length + 1]? = some ns[pre.length + 1] := List.getElem?_eq_getElem (by omega)
  obtain ⟨C, -, hN⟩ := hc.cell hn
  exact ⟨_, hnext, nodeGetNext_eq hN hnext, hc.get? hnext contents_next⟩

variable [DecidableEq α]

theorem removeNext_ne (hc : Chain m.nodes ns (contents (pre ++ rest)))
    (hn : ns[pre.length]? = some n) (hne : rest.head? ≠ some v) : removeNext m l v n = .ok m := by
  obtain ⟨n', -, hnext, hN⟩ := exists_next hc hn
  have htest : ¬ (((rest.head?.map datum).getD sentinel).isSentinel = false ∧
      ((rest.head?.map datum).getD sentinel).data = v) := by
    cases rest with
    | nil => simp [sentinel]
    | cons x rest =>
      rintro ⟨-, rfl⟩
      exact hne rfl
  simp only [removeNext, hnext, ok_bind, Memory.readNode, hN, if_neg htest]

theorem sat_removeNext (hL : m.lists.get? l = some L)
    (hc : Chain m.nodes ns (contents (pre ++ v :: rest))) (hn : ns[pre.length]? = some n) :
    Sat E (removeNext m l v n) fun m' =>
      Chain m'.nodes (ns.eraseIdx (pre.length + 1)) (contents (pre ++ rest)) ∧
      m'.lists = m.lists.write l { L with size := L.size - 1 } ∧
      ∀ {d N}, d ∉ ns → m.nodes.get? d = some N → m'.nodes.get? d = some N := by
  obtain ⟨n', hn', -, hN'⟩ := exists_next hc hn
  obtain ⟨C, hC, hN⟩ := hc.cell hn
  have hlen : ns.length = (pre ++ v :: rest).length + 2 := hc.length.trans length_contents
  rw [List.length_append, List.length_cons] at hlen
  have hafter : ns[pre.length + 2]? = some ns[pre.length + 2] := List.getElem?_eq_getElem (by omega)
  have hchain := hc.remove hn hC hn'
  rw [hafter] at hN' hchain
  rw [hn'] at hN
  have herase : (contents (pre ++ v :: rest)).eraseIdx (pre.length + 1) = contents (pre ++ rest) := by
    rw [← contents_eraseIdx (by simp), List.eraseIdx_append_of_length_le (Nat.le_refl _), Nat.sub_self]
    rfl
  rw [herase] at hchain
  have htest : ((some v).map datum).getD sentinel = datum v := rfl
  rw [List.head?_cons, htest] at hN'
  simp only [removeNext, ok_bind, Memory.readNode, hN', Memory.readList, hL, Memory.writeList,
    nodeGetNext, nodeSetNext, hN, datum, and_self, if_true]
  refine ⟨hchain, rfl, fun {d N} hd hN => ?_⟩
  have hdn : d ≠ n := fun he => hd (he ▸ List.mem_of_getElem? hn)
  have hdn' : d ≠ n' := fun he => hd (he ▸ List.mem_of_getElem? hn')
  show (((m.nodes.write n _).free n').get? d) = some N
  rw [Heap.get?_free, if_neg hdn', Heap.get?_write_ne hdn, hN]

/-- What the loop makes of the list `L`, starting at the node behind the elements `pre`. -/
structure Removed (v : α) (m m' : Memory α) (l : ListId) (L : ListObject) (ns : List NodeId)
    (pre rest : List α) (ns' : List NodeId) : Prop where
  chain : Chain m'.nodes ns' (contents (pre ++ removeSkipping v rest))
  lists : m'.lists = m.lists.write l { L with size := (pre ++ removeSkipping v rest).length }
  frame : ∀ {d N}, d ∉ ns → m.nodes.get? d = some N → m'.nodes.get? d = some N
  sublist : ns'.Sublist ns
  /-- The node with the number `c` keeps its number if nothing in front of it is removed. -/
  place : ∀ {c}, c < ns.length → (ns'[c]? = ns[c]? ↔ v ∉ rest.take (c - pre.length))

namespace Removed

theorem refl (hL : m.lists.get? l = some L) (hsize : L.size = pre.length)
    (hc : Chain m.nodes ns (contents pre)) : Removed v m m l L ns pre [] ns where
  chain := by rwa [removeSkipping, List.append_nil]
  lists := by
    rw [removeSkipping, List.append_nil, ← hsize]
    exact (Heap.write_of_get? hL).symm
  frame _ hN := hN
  sublist := List.Sublist.refl _
  place := by simp

theorem cons_ne (h : Removed v m m' l L ns (pre ++ [x]) rest ns') (hne : x ≠ v) :
    Removed v m m' l L ns pre (x :: rest) ns' where
  chain := by
    rw [removeSkipping_cons_ne hne, List.append_cons]
    exact h.chain
  lists := by
    rw [removeSkipping_cons_ne hne, List.append_cons]
    exact h.lists
  frame := h.frame
  sublist := h.sublist
  place {c} hc := by
    rw [h.place hc, List.length_append, List.length_singleton, Nat.sub_add_eq]
    rcases Nat.lt_or_ge pre.length c with hgt | hle
    · obtain ⟨k, hk⟩ := Nat.exists_eq_add_of_lt hgt
      have hck : c - pre.length = k + 1 := by omega
      simp [hck, Ne.symm hne]
    · simp [Nat.sub_eq_zero_of_le hle]

/-- The element behind `pre` has been removed, and the loop goes on. -/
theorem of_removeNext {m₁ : Memory α} {pre' rest' : List α}
    (h : Removed v m₁ m' l { L with size := L.size - 1 } (ns.eraseIdx (pre.length + 1)) pre' rest' ns')
    (hlists : m₁.lists = m.lists.write l { L with size := L.size - 1 })
    (hframe : ∀ {d N}, d ∉ ns → m.nodes.get? d = some N → m₁.nodes.get? d = some N)
    (hn : ns.Nodup) (hlt : pre.length + 1 < ns.length) (hpre : pre.length ≤ pre'.length)
    (heq : pre' ++ removeSkipping v rest' = pre ++ removeSkipping v (v :: rest)) :
    Removed v m m' l L ns pre (v :: rest) ns' where
  chain := heq ▸ h.chain
  lists := by rw [h.lists, hlists, Heap.write_write, heq]
  frame hd hN := h.frame (fun hmem => hd (List.mem_of_mem_eraseIdx hmem)) (hframe hd hN)
  sublist := h.sublist.trans (List.eraseIdx_sublist ..)
  place {c} hc := by
    have hlen : (ns.eraseIdx (pre.length + 1)).length = ns.length - 1 :=
      List.length_eraseIdx_of_lt hlt
    rcases Nat.lt_or_ge pre.length c with hgt | hle
    · -- behind the node that went every number is lower by one or more
      refine iff_of_false (getElem?_ne_of_sublist_eraseIdx h.sublist hn hgt hc) (not_not.mpr ?_)
      obtain ⟨k, hk⟩ := Nat.exists_eq_add_of_lt hgt
      have hck : c - pre.length = k + 1 := by omega
      simp [hck]
    · refine iff_of_true ?_ (by simp [Nat.sub_eq_zero_of_le hle])
      have hkept := h.place (c := c) (by omega)
      rw [Nat.sub_eq_zero_of_le (hle.trans hpre), List.getElem?_eraseIdx_of_lt (by omega)] at hkept
      exact hkept.mpr (by simp)

end Removed

theorem sat_removeFrom {fuel : ℕ} (hL : m.lists.get? l = some L) (hsize : L.size = (pre ++ rest).length)
    (hc : Chain m.nodes ns (contents (pre ++ rest))) (hn : ns[pre.length]? = some n)
    (hfuel : rest.length < fuel) : Sat E (removeFrom l v fuel m n) fun m' =>
      ∃ ns', Removed v m m' l L ns pre rest ns' := by
  induction fuel generalizing m L ns pre rest n with
  | zero => exact absurd hfuel (Nat.not_lt_zero _)
  | succ fuel ih =>
    have hlen : ns.length = (pre ++ rest).length + 2 := hc.length.trans length_contents
    rw [List.length_append] at hlen
    rw [removeFrom]
    cases rest with
    | nil =>
      -- the next node is the back sentinel
      obtain ⟨n', -, hnext, hN'⟩ := exists_next hc hn
      rw [removeNext_ne hc hn (by simp), ok_bind, hnext, ok_bind, Memory.readNode, hN']
      rw [List.append_nil] at hc hsize
      exact ⟨ns, .refl hL hsize hc⟩
    | cons x rest =>
      by_cases hx : x = v
      · -- the node behind `n` goes, and the loop steps over the one behind that without testing it
        subst hx
        apply (sat_removeNext hL hc hn).bind
        rintro m₁ ⟨hc₁, hlists, hframe⟩
        have hlt : pre.length + 1 < ns.length := by omega
        have hn₁ : (ns.eraseIdx (pre.length + 1))[pre.length]? = some n := by
          rw [List.getElem?_eraseIdx_of_lt (Nat.lt_succ_self _), hn]
        have hL₁ : m₁.lists.get? l = some { L with size := L.size - 1 } := by
          rw [hlists, Heap.get?_write_self hL]
        have hsize₁ : L.size - 1 = (pre ++ rest).length := by
          rw [hsize, List.length_append, List.length_append, List.length_cons]
          omega
        obtain ⟨n', hn', hnext, hN'⟩ := exists_next hc₁ hn₁
        rw [hnext, ok_bind, Memory.readNode, hN', ok_bind]
        cases rest with
        | nil =>
          rw [List.append_nil] at hc₁ hsize₁
          exact ⟨_, (Removed.refl hL₁ hsize₁ hc₁).of_removeNext hlists hframe hc.nodup hlt
            (Nat.le_refl _) (by simp [removeSkipping])⟩
        | cons y ys =>
          have hn₂ : (ns.eraseIdx (pre.length + 1))[(pre ++ [y]).length]? = some n' := by
            rw [List.length_append]
            exact hn'
          rw [List.append_cons] at hc₁ hsize₁
          refine (ih hL₁ hsize₁ hc₁ hn₂ ?_).mono ?_
          · simp only [List.length_cons] at hfuel
            omega
          · rintro m' ⟨ns', h⟩
            exact ⟨ns', h.of_removeNext hlists hframe hc.nodup hlt (by simp) (by simp [removeSkipping])⟩
      · -- the node behind `n` stays
        have hne : (x :: rest).head? ≠ some v := fun he => hx (Option.some.inj he)
        obtain ⟨n', hn', hnext, hN'⟩ := exists_next hc hn
        rw [removeNext_ne hc hn hne, ok_bind, hnext, ok_bind, Memory.readNode, hN', ok_bind]
        have hn₂ : ns[(pre ++ [x]).length]? = some n' := by
          rw [List.length_append]
          exact hn'
        rw [List.append_cons] at hc hsize
        apply (ih hL hsize hc hn₂ (Nat.lt_of_succ_lt_succ hfuel)).mono
        rintro m' ⟨ns', h⟩
        exact ⟨ns', h.cons_ne hx⟩

theorem sat_listRemoveValue (hL : m.lists.get? l = some L) (h : Holds m.nodes L ns xs) :
    Sat E (listRemoveValue m l v) fun m' => ∃ ns', Removed v m m' l L ns [] xs ns' := by
  simp only [listRemoveValue, Memory.readList, hL, ok_bind]
  have hfuel : xs.length < m.nodes.next + 1 := by
    have hle := h.chain.length_le
    have hlen := h.length
    omega
  exact sat_removeFrom hL h.size h.chain h.front hfuel

end Loop

section Add

variable [Inhabited α]

theorem sat_listAdd_chain (hL : m.lists.get? l = some L) (h : Holds m.nodes L ns xs) :
    Sat E (listAdd m l e) fun m' =>
      Updates m m' l { L with size := L.size + 1 } ns (ns.insertIdx 1 m.nodes.next) ∧
        Chain m'.nodes (ns.insertIdx 1 m.nodes.next) (contents (e :: xs)) := by
  obtain ⟨b, hb⟩ := h.exists_node (i := 1) (by omega)
  obtain ⟨c, hc, hN⟩ := h.chain.cell h.front
  have hchain := h.chain.insert (x := datum e) h.front hc
  rw [hb] at hN hchain
  have hold (next : Option NodeId) : (m.nodes.alloc ⟨⟨e, false⟩, next⟩).get? L.frontSentinel =
      some ⟨c, some b⟩ := Heap.get?_alloc_of_some hN
  simp only [listAdd, Memory.readList, hL, ok_bind, nodeNew, nodeGetNext, nodeSetNext, Memory.readNode,
    hold, Heap.get?_alloc_next, Heap.write_alloc]
  refine ⟨⟨rfl, fun {d N} hd hN' => ?_, fun {d} hd => ?_⟩, hchain⟩
  · have hda : d ≠ L.frontSentinel := fun he => hd (he ▸ List.mem_of_getElem? h.front)
    show ((m.nodes.alloc _).write _ _).get? d = some N
    rw [Heap.get?_write_ne hda, Heap.get?_alloc_of_some hN']
  · have hlen : 1 ≤ ns.length := by rw [h.length]; omega
    rcases (List.mem_insertIdx hlen).mp hd with rfl | hd
    · exact .inr (Heap.get?_eq_none (Nat.le_refl _))
    · exact .inl hd

theorem getElem?_insertIdx_one (hn : ns.Nodup) (hp : ns[c]? = some p) (hfresh : q ∉ ns) :
    (ns.insertIdx 1 q)[c]? = some p ↔ c = 0 := by
  obtain ⟨hlt, -⟩ := List.getElem?_eq_some_iff.mp hp
  constructor
  · intro heq
    by_contra hc
    -- the node of the cursor is now one place further, and no node has two places
    have hmoved : (ns.insertIdx 1 q)[c + 1]? = some p := by
      rw [List.getElem?_insertIdx_of_gt (by omega)]
      exact hp
    have hn' : (ns.insertIdx 1 q).Nodup :=
      (List.perm_insertIdx _ _ (by omega)).nodup_iff.mpr (List.nodup_cons.mpr ⟨hfresh, hn⟩)
    obtain ⟨hlt', -⟩ := List.getElem?_eq_some_iff.mp heq
    have hsame : c = c + 1 := (List.getElem?_inj hlt' hn').mp (heq.trans hmoved.symm)
    omega
  · rintro rfl
    rw [List.getElem?_insertIdx_of_lt (Nat.lt_succ_self _)]
    exact hp

end Add

section Kept

variable [Inhabited α]

theorem contents_inj (h : contents xs = contents ys) : xs = ys := by
  have htail := List.append_cancel_right (List.cons.inj h).2
  exact List.map_injective_iff.mpr (fun _ _ he => congrArg NodeData.data he) htail

/-- A list that has changed is a sequence exactly if its nodes hold it and the cursor is the node
that its number leads to. -/
theorem Linked.refines_iff {chain : ListId → List NodeId} {L' : ListObject} {zs : List α}
    (hc : Linked chain m A) (hA : A.get? l = some xs) (hu : Updates m m' l L' (chain l) ns')
    (hchain : Chain m'.nodes ns' (contents ys)) (hfront : ns'[0]? = some L'.frontSentinel)
    (hsize : L'.size = ys.length) :
    Refines m' (A.write l zs) ↔ ys = zs ∧ ns'[L'.curpos.toNat]? = some L'.cursor := by
  obtain ⟨L, hL, -⟩ := hc.held hA
  constructor
  · rintro ⟨chain₂, hc₂⟩
    obtain ⟨L₂, hL₂, hh⟩ := hc₂.held (Heap.get?_write_self hA)
    rw [hu.lists, Heap.get?_write_self hL] at hL₂
    cases hL₂
    obtain ⟨hns, hcs⟩ := hh.chain.unique hchain (hh.front.trans hfront.symm)
    exact ⟨(contents_inj hcs).symm, hns ▸ hh.cursor⟩
  · rintro ⟨rfl, hcursor⟩
    exact ⟨_, hc.update hA hu ⟨hchain, hfront, hcursor, hsize⟩⟩

/-- The member `curpos` of the list. -/
def cursorPosition (m : Memory α) (l : ListId) : UInt32 :=
  match m.lists.get? l with
  | some L => L.curpos
  | none => 0

theorem sat_listAdd_iff (h : Refines m A) (hA : A.get? l = some xs) :
    Sat E (listAdd m l e) fun m' => Refines m' (A.write l (e :: xs)) ↔ cursorPosition m l = 0 := by
  obtain ⟨chain, hc⟩ := h
  obtain ⟨L, hL, hl⟩ := hc.held hA
  apply (sat_listAdd_chain hL hl).mono
  rintro m' ⟨hu, hchain⟩
  have hfresh : m.nodes.next ∉ chain l := fun hm => Nat.lt_irrefl _ (hl.chain.lt_next hm)
  have hfront : ((chain l).insertIdx 1 m.nodes.next)[0]? = some L.frontSentinel := by
    rw [List.getElem?_insertIdx_of_lt Nat.zero_lt_one, hl.front]
  have hsize : L.size + 1 = (e :: xs).length := by rw [hl.size, List.length_cons]
  rw [hc.refines_iff hA hu hchain hfront hsize, getElem?_insertIdx_one hl.chain.nodup hl.cursor hfresh]
  simp only [true_and, cursorPosition, hL]
  exact (UInt32.toNat_inj (b := 0))

theorem sat_listAdd_front (h : Refines m A) (hA : A.get? l = some xs) (hfront : cursorPosition m l = 0) :
    Sat E (listAdd m l e) fun m' =>
      Refines m' (A.write l (e :: xs)) ∧ cursorPosition m' l = 0 := by
  refine Sat.mono (Q := fun m' => (Refines m' (A.write l (e :: xs)) ↔ cursorPosition m l = 0) ∧
    cursorPosition m' l = cursorPosition m l) ((sat_listAdd_iff h hA).and ?_)
    fun m' hm' => ⟨hm'.1.mpr hfront, hm'.2.trans hfront⟩
  obtain ⟨chain, hc⟩ := h
  obtain ⟨L, hL, hl⟩ := hc.held hA
  apply (sat_listAdd_chain hL hl).mono
  rintro m' ⟨hu, -⟩
  simp only [cursorPosition, hu.lists, Heap.get?_write_self hL, hL]

theorem sat_listRemoveValue_iff [DecidableEq α] (h : Refines m A) (hA : A.get? l = some xs) :
    Sat E (listRemoveValue m l v) fun m' => Refines m' (A.write l (xs.filter (· ≠ v))) ↔
      v ∉ xs.take (cursorPosition m l).toNat ∧ ¬ [v, v] <:+: xs := by
  obtain ⟨chain, hc⟩ := h
  obtain ⟨L, hL, hl⟩ := hc.held hA
  apply (sat_listRemoveValue hL hl).mono
  rintro m' ⟨ns', hr⟩
  have hu : Updates m m' l { L with size := (removeSkipping v xs).length } (chain l) ns' :=
    ⟨hr.lists, hr.frame, fun hd => .inl (hr.sublist.subset hd)⟩
  have hlen := hl.length
  have hfront : ns'[0]? = some L.frontSentinel := by
    rw [(hr.place (c := 0) (by omega)).mpr (by simp), hl.front]
  obtain ⟨hlt, -⟩ := List.getElem?_eq_some_iff.mp hl.cursor
  rw [hc.refines_iff hA hu hr.chain hfront rfl, List.nil_append, removeSkipping_eq_filter_iff, ← hl.cursor,
    hr.place hlt, and_comm]
  simp only [cursorPosition, hL, List.length_nil, Nat.sub_zero]

/-- `list_size` gives the length, the cursor is the node that `curpos` links lead to from the front,
and `list_get` gives the element at each position. -/
def ReadsBack (m : Memory α) (l : ListId) (xs : List α) : Prop :=
  listSize m l = .ok xs.length ∧
    (∃ L, m.lists.get? l = some L ∧ followLinks m L.curpos.toNat L.frontSentinel = .ok L.cursor) ∧
    ∀ (i : UInt32) e, 1 ≤ i.toNat → xs[i.toNat - 1]? = some e → ∃ m', listGet m l i = .ok (e, m')

theorem Refines.readsBack (h : Refines m A) (hA : A.get? l = some xs) : ReadsBack m l xs := by
  refine ⟨?_, ?_, fun i e hi he => ?_⟩
  · obtain ⟨size, hsize, rfl⟩ := (sat_listSize h hA).exists_ok
    exact hsize
  · obtain ⟨L, hL, -, hcursor⟩ := h.cursor hA
    exact ⟨L, hL, hcursor⟩
  · obtain ⟨⟨e', m'⟩, hget, he', -⟩ := (sat_listGet h hA he (Nat.sub_add_cancel hi).symm).exists_ok
    obtain rfl : e' = e := he'
    exact ⟨m', hget⟩

end Kept

inductive Edit (α : Type)
  | new (liFree : Bool)
  | size (l : ListId)
  | get (l : ListId) (n : UInt32)
  | insert (l : ListId) (n : UInt32) (element : α)
  | remove (l : ListId) (n : UInt32)
  | append (l : ListId) (element : α)
  | add (l : ListId) (element : α)
  | removeValue (l : ListId) (value : α)

section Runs

variable [Inhabited α] [DecidableEq α] {op : Edit α}

def execEdit (m : Memory α) : Edit α → Except ListFault (Reply α × Memory α)
  | .new liFree => (fun r => (.list r.1, r.2)) <$> listNew m liFree []
  | .size l => (fun n => (.size n, m)) <$> listSize m l
  | .get l n => (fun r => (.element r.1, r.2)) <$> listGet m l n
  | .insert l n element => (fun m => (.done, m)) <$> listInsert m l n element
  | .remove l n => (fun m => (.done, m)) <$> listRemove m l n
  | .append l element => (fun m => (.done, m)) <$> listAppend m l element
  | .add l element => (fun m => (.done, m)) <$> listAdd m l element
  | .removeValue l value => (fun m => (.done, m)) <$> listRemoveValue m l value

/-- What an edit returns and does on sequences. The position of `list_append` is a 32-bit number,
so that beyond `UINT_MAX` elements it starts at the front again. -/
def editSpec (A : Sequences α) : Edit α → Reply α × Sequences α
  | .new _ => (.list A.next, A.alloc [])
  | .size l => (.size (sequence A l).length, A)
  | .get l n => (.element ((sequence A l).getD (n.toNat - 1) default), A)
  | .insert l n element => (.done, A.write l ((sequence A l).insertIdx (n.toNat - 1) element))
  | .remove l n => (.done, A.write l ((sequence A l).eraseIdx (n.toNat - 1)))
  | .append l element =>
    (.done, A.write l ((sequence A l).insertIdx ((sequence A l).length % (UINT_MAX + 1)) element))
  | .add l element => (.done, A.write l (element :: sequence A l))
  | .removeValue l value => (.done, A.write l ((sequence A l).filter (· ≠ value)))

/-- The list exists and the position is in it. -/
def InRange (A : Sequences α) : Edit α → Prop
  | .new _ => True
  | .size l | .append l _ | .add l _ | .removeValue l _ => (A.get? l).isSome = true
  | .get l n | .remove l n => (A.get? l).isSome = true ∧ 1 ≤ n.toNat ∧ n.toNat ≤ (sequence A l).length
  | .insert l n _ => (A.get? l).isSome = true ∧ 1 ≤ n.toNat ∧ n.toNat ≤ (sequence A l).length + 1

/-- `list_add` finds the cursor at the front sentinel; `list_remove_value` finds the value neither
at a position up to that of the cursor nor twice in succession. -/
def KeepsCursor (m : Memory α) (A : Sequences α) : Edit α → Prop
  | .add l _ => cursorPosition m l = 0
  | .removeValue l value => value ∉ (sequence A l).take (cursorPosition m l).toNat ∧
      ¬ [value, value] <:+: sequence A l
  | _ => True

theorem sat_execEdit (h : Refines m A) (hr : InRange A op) : Sat E (execEdit m op) fun r =>
    r.1 = (editSpec A op).1 ∧ (Refines r.2 (editSpec A op).2 ↔ KeepsCursor m A op) := by
  cases op with
  | new liFree =>
    exact sat_map.mpr ((sat_listNew_nil h liFree).mono fun r hr =>
      ⟨congrArg Reply.list hr.1, iff_of_true hr.2 trivial⟩)
  | size l =>
    exact sat_map.mpr ((sat_listSize h (get?_sequence hr)).mono fun n hn =>
      ⟨congrArg Reply.size hn, iff_of_true h trivial⟩)
  | get l n =>
    obtain ⟨hlive, hpos, hle⟩ := hr
    have hx : (sequence A l)[n.toNat - 1]? = some ((sequence A l).getD (n.toNat - 1) default) := by
      rw [List.getD_eq_getElem?_getD, List.getElem?_eq_getElem (by omega)]
      rfl
    exact sat_map.mpr ((sat_listGet h (get?_sequence hlive) hx (Nat.sub_add_cancel hpos).symm).mono
      fun r hr => ⟨congrArg Reply.element hr.1, iff_of_true hr.2 trivial⟩)
  | insert l n element =>
    obtain ⟨hlive, hpos, hle⟩ := hr
    exact sat_map.mpr ((sat_listInsert h (get?_sequence hlive) (toNat_pred hpos) (by omega)).mono
      fun m' hm' => ⟨rfl, iff_of_true hm' trivial⟩)
  | remove l n =>
    obtain ⟨hlive, hpos, hle⟩ := hr
    exact sat_map.mpr ((sat_listRemove h (get?_sequence hlive) (toNat_pred hpos) (by omega)).mono
      fun m' hm' => ⟨rfl, iff_of_true hm' trivial⟩)
  | append l element =>
    exact sat_map.mpr ((sat_listAppend_any h (get?_sequence hr)).mono
      fun m' hm' => ⟨rfl, iff_of_true hm' trivial⟩)
  | add l element =>
    exact sat_map.mpr ((sat_listAdd_iff h (get?_sequence hr)).mono fun m' hm' => ⟨rfl, hm'⟩)
  | removeValue l value =>
    exact sat_map.mpr ((sat_listRemoveValue_iff h (get?_sequence hr)).mono fun m' hm' => ⟨rfl, hm'⟩)

/-- The lists and the sequences side by side. -/
def editBoth (p : Memory α × Sequences α) (op : Edit α) :
    Except ListFault (Memory α × Sequences α) :=
  (fun r => (r.2, (editSpec p.2 op).2)) <$> execEdit p.1 op

theorem Refines.edit {p : Memory α × Sequences α} (h : Refines m A) (hr : InRange A op)
    (hk : KeepsCursor m A op) (hs : editBoth (m, A) op = .ok p) : Refines p.1 p.2 := by
  obtain ⟨⟨reply, m'⟩, hrun, -, hiff⟩ := (sat_execEdit h hr).exists_ok
  rw [editBoth, hrun] at hs
  cases hs
  exact hiff.mpr hk

/-- In every run whose edits keep the cursor, the lists read back as the sequences that the edits
make. The first edit that does not keep it leaves a list whose nodes or whose cursor are wrong. -/
theorem edits_read_back (h : Reaches editBoth (fun p op => InRange p.2 op ∧ KeepsCursor p.1 p.2 op)
    (.empty, .empty) (m, A)) :
    (∀ l xs, A.get? l = some xs → ReadsBack m l xs) ∧
    ∀ op, InRange A op → ∃ m', execEdit m op = .ok ((editSpec A op).1, m') ∧
      (Refines m' (editSpec A op).2 ↔ KeepsCursor m A op) := by
  have hrefines : Refines m A := by
    refine h.invariant (I := fun p => Refines p.1 p.2) refines_empty ?_
    rintro ⟨m, A⟩ op p hm ⟨hr, hk⟩ hs
    exact Refines.edit hm hr hk hs
  refine ⟨fun l xs hA => hrefines.readsBack hA, fun op hop => ?_⟩
  obtain ⟨⟨reply, m'⟩, hrun, rfl, hiff⟩ := (sat_execEdit hrefines hop).exists_ok
  exact ⟨m', hrun, hiff⟩

end Runs

section Sample

instance (A : Sequences ℕ) (op : Edit ℕ) : Decidable (InRange A op) :=
  match op with
  | .new _ => .isTrue trivial
  | .size l | .append l _ | .add l _ | .removeValue l _ =>
    inferInstanceAs (Decidable ((A.get? l).isSome = true))
  | .get l n | .remove l n => inferInstanceAs (Decidable ((A.get? l).isSome = true ∧ 1 ≤ n.toNat ∧
      n.toNat ≤ (sequence A l).length))
  | .insert l n _ => inferInstanceAs (Decidable ((A.get? l).isSome = true ∧ 1 ≤ n.toNat ∧
      n.toNat ≤ (sequence A l).length + 1))

instance (m : Memory ℕ) (A : Sequences ℕ) (op : Edit ℕ) : Decidable (KeepsCursor m A op) :=
  match op with
  | .add l _ => inferInstanceAs (Decidable (cursorPosition m l = 0))
  | .removeValue l value => inferInstanceAs (Decidable (value ∉ (sequence A l).take
      (cursorPosition m l).toNat ∧ ¬ [value, value] <:+: sequence A l))
  | .new _ | .size _ | .get _ _ | .insert _ _ _ | .remove _ _ | .append _ _ => .isTrue trivial

def Edit.isAdd : Edit α → Bool
  | .add _ _ => true
  | _ => false

def Edit.isRemoveValue : Edit α → Bool
  | .removeValue _ _ => true
  | _ => false

end Sample

/-- Elements are put at both ends, the one in the middle is searched, and others are removed. -/
theorem edits_read_back_sample : ∃ (m m' : Memory ℕ) (A : Sequences ℕ),
    A.get? 0 = some [8, 5, 7] ∧ ReadsBack m 0 [8, 5, 7] ∧
    execEdit m (.get 0 3) = .ok (.element 7, m') := by
  have hrun : (execute editBoth (fun p op => InRange p.2 op ∧ KeepsCursor p.1 p.2 op)
      [.new false, .append 0 5, .add 0 8, .get 0 2, .append 0 7, .get 0 1, .insert 0 3 9, .get 0 2,
        .removeValue 0 9] (.empty, .empty)).any (fun p =>
      p.2.get? 0 = some [8, 5, 7] ∧ InRange p.2 (.get 0 3) ∧
        (editSpec p.2 (.get 0 3)).1 = .element 7) = true := by decide +kernel
  obtain ⟨⟨m, A⟩, hp, hq⟩ := (Option.any_eq_true _ _).mp hrun
  obtain ⟨hA, hop, hreply⟩ := of_decide_eq_true hq
  obtain ⟨hread, hexec⟩ := edits_read_back (reaches_of_execute hp)
  obtain ⟨m', hm', -⟩ := hexec (.get 0 3) hop
  exact ⟨m, m', A, hA, hread 0 _ hA, by rw [hm', hreply]⟩

/-- `list_add` behind a cursor leaves it one place too far; `list_remove_value` leaves it at the
node that it frees. -/
theorem edits_lose_cursor :
    (¬ ∀ (m : Memory ℕ) (A : Sequences ℕ), Reaches editBoth (fun p op => InRange p.2 op)
      (.empty, .empty) (m, A) → ∀ l xs, A.get? l = some xs → ReadsBack m l xs) ∧
    (¬ ∀ (m : Memory ℕ) (A : Sequences ℕ), Reaches editBoth (fun p op => InRange p.2 op ∧
        (op.isAdd = true ∨ KeepsCursor p.1 p.2 op)) (.empty, .empty) (m, A) →
      ∀ l xs, A.get? l = some xs → ReadsBack m l xs) ∧
    ¬ ∀ (m : Memory ℕ) (A : Sequences ℕ), Reaches editBoth (fun p op => InRange p.2 op ∧
        (op.isRemoveValue = true ∨ KeepsCursor p.1 p.2 op)) (.empty, .empty) (m, A) →
      ∀ l xs, A.get? l = some xs → ReadsBack m l xs := by
  have hadd : (execute editBoth (fun p op => InRange p.2 op ∧
        (op.isAdd = true ∨ KeepsCursor p.1 p.2 op))
      [.new false, .append 0 5, .get 0 1, .add 0 8] (.empty, .empty)).any (fun p =>
      p.2.get? 0 = some [8, 5] ∧ returnsWith (listGet p.1 0 1) (fun r => r.1 = 5) = true) = true := by
    decide +kernel
  have hremove : (execute editBoth (fun p op => InRange p.2 op ∧
        (op.isRemoveValue = true ∨ KeepsCursor p.1 p.2 op))
      [.new false, .append 0 5, .append 0 8, .get 0 1, .removeValue 0 5] (.empty, .empty)).any
      (fun p => p.2.get? 0 = some [8] ∧ faultsWith (listGet p.1 0 1) .freedNode = true) = true := by
    decide +kernel
  obtain ⟨⟨m, A⟩, hp, hq⟩ := (Option.any_eq_true _ _).mp hadd
  obtain ⟨hA, hget⟩ := of_decide_eq_true hq
  obtain ⟨⟨m₂, A₂⟩, hp₂, hq₂⟩ := (Option.any_eq_true _ _).mp hremove
  obtain ⟨hA₂, hget₂⟩ := of_decide_eq_true hq₂
  have hwrong : ¬ ReadsBack m 0 [8, 5] := by
    rintro ⟨-, -, hread⟩
    obtain ⟨m', hm'⟩ := hread 1 8 (by decide) rfl
    obtain ⟨r, hr, h5⟩ := returnsWith_iff.mp hget
    cases hm'.symm.trans hr
    exact absurd (of_decide_eq_true h5) (by simp)
  have hfreed : ¬ ReadsBack m₂ 0 [8] := by
    rintro ⟨-, -, hread⟩
    obtain ⟨m', hm'⟩ := hread 1 8 (by decide) rfl
    cases hm'.symm.trans (faultsWith_iff.mp hget₂)
  have hreach := reaches_of_execute hp
  have hreach₂ := reaches_of_execute hp₂
  exact ⟨fun h => hwrong (h m A (hreach.weaken fun _ _ hg => hg.1) 0 _ hA),
    fun h => hwrong (h m A hreach 0 _ hA), fun h => hfreed (h m₂ A₂ hreach₂ 0 _ hA₂)⟩

end TagFilesystem.Cutil
