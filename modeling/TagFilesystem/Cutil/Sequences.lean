import TagFilesystem.Cutil.List
import TagFilesystem.Library.Run
import Mathlib.Logic.Function.Basic

namespace TagFilesystem.Cutil

variable {α : Type}

/-- A sequence for every list. -/
abbrev Sequences (α : Type) := Heap (List α)

def sequence (A : Sequences α) (l : ListId) : List α := (A.get? l).getD []

/-- What an operation returns and does on sequences; positions count from 1. -/
def spec [Inhabited α] (A : Sequences α) : ListOp α → Reply α × Sequences α
  | .new _ elements => (.list A.next, A.alloc elements)
  | .size l => (.size (sequence A l).length, A)
  | .get l n => (.element ((sequence A l).getD (n.toNat - 1) default), A)
  | .insert l n element => (.done, A.write l ((sequence A l).insertIdx (n.toNat - 1) element))
  | .remove l n => (.done, A.write l ((sequence A l).eraseIdx (n.toNat - 1)))
  | .append l element => (.done, A.write l (sequence A l ++ [element]))
  | .appendList l₁ l₂ => (.done, A.write l₁ (sequence A l₁ ++ sequence A l₂))
  | .copy l => (.list A.next, A.alloc (sequence A l))
  | .mapR l f => (.list A.next, A.alloc ((sequence A l).map f))
  | .eachR l => (.elements (sequence A l), A)

/-- The positions are in the list, and `list_append_list` takes two lists. -/
def Legal (A : Sequences α) : ListOp α → Prop
  | .new _ _ => True
  | .size l | .append l _ | .copy l | .mapR l _ | .eachR l => (A.get? l).isSome = true
  | .get l n | .remove l n => (A.get? l).isSome = true ∧ 1 ≤ n.toNat ∧ n.toNat ≤ (sequence A l).length
  | .insert l n _ => (A.get? l).isSome = true ∧ 1 ≤ n.toNat ∧ n.toNat ≤ (sequence A l).length + 1
  | .appendList l₁ l₂ => (A.get? l₁).isSome = true ∧ (A.get? l₂).isSome = true ∧ l₁ ≠ l₂

/-- The lists are short enough for the counters of the operation. -/
def Fits (A : Sequences α) : ListOp α → Prop
  | .new _ elements => elements.length ≤ UINT_MAX + 1
  | .append l _ => (sequence A l).length ≤ UINT_MAX
  | .appendList l₁ l₂ => (sequence A l₂).length < UINT_MAX ∧
      (sequence A l₂ = [] ∨ (sequence A l₁).length + (sequence A l₂).length ≤ UINT_MAX + 1)
  | .copy l => (sequence A l).length < UINT_MAX
  | .mapR l _ | .eachR l => ((sequence A l).length : ℤ) < INT_MAX
  | _ => True

theorem get?_sequence {A : Sequences α} {l : ListId} (h : (A.get? l).isSome = true) :
    A.get? l = some (sequence A l) := by
  obtain ⟨xs, hxs⟩ := Option.isSome_iff_exists.mp h
  simp [sequence, hxs]

def sentinel [Inhabited α] : NodeData α := ⟨default, true⟩

def datum (e : α) : NodeData α := ⟨e, false⟩

/-- What the nodes of a list hold. -/
def contents [Inhabited α] (xs : List α) : List (NodeData α) := sentinel :: (xs.map datum ++ [sentinel])

variable {xs xs' : List α} {e : α} {p i k : ℕ} {m m' : Memory α} {ns ns' : List NodeId}
  {L L' : ListObject} {l : ListId} {a b : NodeId} {N : ListNode α} {n : UInt32} {A : Sequences α}
  {cs : List (NodeData α)} {E : ListFault → Prop}

theorem toNat_pred (h : 1 ≤ n.toNat) : (n - 1).toNat = n.toNat - 1 :=
  UInt32.toNat_sub_of_le n 1 (UInt32.le_iff_toNat_le.mpr h)

theorem nodeGetNext_eq (hN : m.nodes.get? a = some N) (hb : N.next = some b) :
    nodeGetNext m a = .ok b := by
  simp only [nodeGetNext, Memory.readNode, hN, ok_bind, hb]

theorem followLinks_eq (hc : Chain m.nodes ns cs) (ha : ns[i]? = some a)
    (hb : ns[i + k]? = some b) : followLinks m k a = .ok b := by
  induction k generalizing i a with
  | zero => exact congrArg Except.ok (Option.some.inj (ha.symm.trans hb))
  | succ k ih =>
    obtain ⟨hlt, -⟩ := List.getElem?_eq_some_iff.mp hb
    have hnext : ns[i + 1]? = some ns[i + 1] := List.getElem?_eq_getElem (by omega)
    obtain ⟨c, -, hC⟩ := hc.cell ha
    rw [followLinks, nodeGetNext_eq hC hnext, ok_bind]
    apply ih hnext
    rw [Nat.add_right_comm]
    exact hb

variable [Inhabited α]

@[simp] theorem length_contents : (contents xs).length = xs.length + 2 := by simp [contents]

theorem contents_getElem? (hx : xs[i]? = some e) : (contents xs)[i + 1]? = some (datum e) := by
  obtain ⟨hi, -⟩ := List.getElem?_eq_some_iff.mp hx
  rw [contents, List.getElem?_cons_succ, List.getElem?_append_left (by simpa using hi),
    List.getElem?_map, hx]
  rfl

theorem insertIdx_append_left {β : Type*} {x : β} {ys : List β} :
    ∀ {p : ℕ} {xs : List β}, p ≤ xs.length → (xs ++ ys).insertIdx p x = xs.insertIdx p x ++ ys
  | 0, xs, _ => by simp
  | p + 1, x' :: xs, hp => by
    simp only [List.cons_append, List.insertIdx_succ_cons,
      insertIdx_append_left (Nat.le_of_succ_le_succ hp)]

theorem contents_insertIdx (hp : p ≤ xs.length) :
    contents (xs.insertIdx p e) = (contents xs).insertIdx (p + 1) (datum e) := by
  rw [contents, contents, List.insertIdx_succ_cons, insertIdx_append_left (by simpa using hp),
    List.map_insertIdx]

theorem contents_eraseIdx (hp : p < xs.length) :
    contents (xs.eraseIdx p) = (contents xs).eraseIdx (p + 1) := by
  rw [contents, contents, List.eraseIdx_cons_succ,
    List.eraseIdx_append_of_lt_length (by simpa using hp), List.eraseIdx_map]

/-- The list object `L` with the nodes `ns` is the sequence `xs`. -/
structure Holds (nodes : Heap (ListNode α)) (L : ListObject) (ns : List NodeId) (xs : List α) :
    Prop where
  chain : Chain nodes ns (contents xs)
  front : ns[0]? = some L.frontSentinel
  cursor : ns[L.curpos.toNat]? = some L.cursor
  size : L.size = xs.length

/-- Every sequence is held by the list with its number, in the nodes `chain l`. -/
structure Linked (chain : ListId → List NodeId) (m : Memory α) (A : Sequences α) : Prop where
  next : m.lists.next = A.next
  held : ∀ {l xs}, A.get? l = some xs →
    ∃ L, m.lists.get? l = some L ∧ Holds m.nodes L (chain l) xs
  apart : ∀ {l l' xs xs'}, A.get? l = some xs → A.get? l' = some xs' → l ≠ l' →
    (chain l).Disjoint (chain l')

def Refines (m : Memory α) (A : Sequences α) : Prop := ∃ chain, Linked chain m A

namespace Holds

theorem length (h : Holds m.nodes L ns xs) : ns.length = xs.length + 2 :=
  h.chain.length.trans length_contents

theorem exists_node (h : Holds m.nodes L ns xs) (hi : i < xs.length + 2) : ∃ a, ns[i]? = some a :=
  ⟨_, List.getElem?_eq_getElem (h.length ▸ hi)⟩

theorem frame {nodes' : Heap (ListNode α)} (h : Holds m.nodes L ns xs)
    (hsame : ∀ a ∈ ns, nodes'.get? a = m.nodes.get? a) : Holds nodes' L ns xs :=
  ⟨h.chain.frame hsame, h.front, h.cursor, h.size⟩

end Holds

/-- Whether it starts at the cursor or at the front, the search ends at the node with the number
`n`, and this is the cursor then. -/
theorem listGetNode_eq (hL : m.lists.get? l = some L) (h : Holds m.nodes L ns xs)
    (ha : ns[n.toNat]? = some a) :
    listGetNode m l n = .ok (a, m.writeList l { L with cursor := a, curpos := n }) := by
  have hfound : followLinks m (searchStart L n).1.toNat (searchStart L n).2 = .ok a := by
    unfold searchStart
    split_ifs with hle
    · refine followLinks_eq h.chain h.cursor ?_
      rw [UInt32.toNat_sub_of_le _ _ hle, Nat.add_sub_cancel' (UInt32.le_iff_toNat_le.mp hle)]
      exact ha
    · refine followLinks_eq h.chain h.front ?_
      rw [Nat.zero_add]
      exact ha
  simp only [listGetNode, Memory.readList, hL, ok_bind, hfound]

theorem listInsert_eq {c : NodeData α} (hL : m.lists.get? l = some L) (h : Holds m.nodes L ns xs)
    (ha : ns[(n - 1).toNat]? = some a) (hN : m.nodes.get? a = some ⟨c, some b⟩) :
    listInsert m l n e = .ok { m with
      nodes := (m.nodes.alloc ⟨datum e, some b⟩).write a ⟨c, some m.nodes.next⟩
      lists := m.lists.write l { L with cursor := a, curpos := n - 1, size := L.size + 1 } } := by
  have hold (next : Option NodeId) : (m.nodes.alloc ⟨⟨e, false⟩, next⟩).get? a = some ⟨c, some b⟩ :=
    Heap.get?_alloc_of_some hN
  have hlist : (m.lists.write l { L with cursor := a, curpos := n - 1 }).get? l =
      some { L with cursor := a, curpos := n - 1 } := Heap.get?_write_self hL
  simp only [listInsert, listGetNode_eq hL h ha, ok_bind, nodeNew, Memory.writeList, Memory.readList,
    nodeGetNext, nodeSetNext, Memory.readNode, hold, Heap.get?_alloc_next, Heap.write_alloc, hlist,
    Heap.write_write, datum]

theorem listRemove_eq {c d : NodeData α} {next : NodeId} (hL : m.lists.get? l = some L)
    (h : Holds m.nodes L ns xs) (ha : ns[(n - 1).toNat]? = some a)
    (hN : m.nodes.get? a = some ⟨c, some b⟩) (hB : m.nodes.get? b = some ⟨d, some next⟩)
    (hba : b ≠ a) :
    listRemove m l n = .ok {
      nodes := (m.nodes.write a ⟨c, some next⟩).free b
      lists := m.lists.write l { L with cursor := a, curpos := n - 1, size := L.size - 1 }
      freed := if L.liFree = true then m.freed ++ [d.data] else m.freed } := by
  have htmp : (m.nodes.write a ⟨c, some next⟩).get? b = some ⟨d, some next⟩ := by
    rw [Heap.get?_write_ne hba, hB]
  have hlist : (m.lists.write l { L with cursor := a, curpos := n - 1 }).get? l =
      some { L with cursor := a, curpos := n - 1 } := Heap.get?_write_self hL
  simp only [listRemove, listGetNode_eq hL h ha, ok_bind, Memory.writeList, Memory.readList,
    nodeGetNext, nodeSetNext, Memory.readNode, hN, hB, htmp, hlist, Heap.write_write]

/-- From `m` to `m'` the list `l` becomes `L'` and its nodes `ns` become `ns'`. -/
structure Updates (m m' : Memory α) (l : ListId) (L' : ListObject) (ns ns' : List NodeId) :
    Prop where
  lists : m'.lists = m.lists.write l L'
  frame : ∀ {d N}, d ∉ ns → m.nodes.get? d = some N → m'.nodes.get? d = some N
  fresh : ∀ {d}, d ∈ ns' → d ∈ ns ∨ m.nodes.get? d = none

theorem sat_listInsert_holds (hL : m.lists.get? l = some L) (h : Holds m.nodes L ns xs)
    (hp : (n - 1).toNat ≤ xs.length) : Sat E (listInsert m l n e) fun m' => ∃ L' ns',
      Updates m m' l L' ns ns' ∧ Holds m'.nodes L' ns' (xs.insertIdx (n - 1).toNat e) := by
  obtain ⟨a, ha⟩ := h.exists_node (i := (n - 1).toNat) (by omega)
  obtain ⟨b, hb⟩ := h.exists_node (i := (n - 1).toNat + 1) (by omega)
  obtain ⟨c, hc, hN⟩ := h.chain.cell ha
  have hchain := h.chain.insert (x := datum e) ha hc
  rw [hb] at hN hchain
  rw [listInsert_eq hL h ha hN]
  refine ⟨_, ns.insertIdx ((n - 1).toNat + 1) m.nodes.next, ⟨rfl, fun {d N} hd hN' => ?_, fun {d} hd => ?_⟩,
    ⟨contents_insertIdx hp ▸ hchain, ?_, ?_, ?_⟩⟩
  · have hda : d ≠ a := fun he => hd (he ▸ List.mem_of_getElem? ha)
    rw [Heap.get?_write_ne hda, Heap.get?_alloc_of_some hN']
  · have hlen : (n - 1).toNat + 1 ≤ ns.length := by rw [h.length]; omega
    rcases (List.mem_insertIdx hlen).mp hd with rfl | hd
    · exact .inr (Heap.get?_eq_none (Nat.le_refl _))
    · exact .inl hd
  · rw [List.getElem?_insertIdx_of_lt (Nat.succ_pos _)]
    exact h.front
  · rw [List.getElem?_insertIdx_of_lt (Nat.lt_succ_self _)]
    exact ha
  · rw [List.length_insertIdx_of_le_length hp, h.size]

theorem sat_listRemove_holds (hL : m.lists.get? l = some L) (h : Holds m.nodes L ns xs)
    (hp : (n - 1).toNat < xs.length) : Sat E (listRemove m l n) fun m' => ∃ L' ns',
      Updates m m' l L' ns ns' ∧ Holds m'.nodes L' ns' (xs.eraseIdx (n - 1).toNat) := by
  obtain ⟨a, ha⟩ := h.exists_node (i := (n - 1).toNat) (by omega)
  obtain ⟨b, hb⟩ := h.exists_node (i := (n - 1).toNat + 1) (by omega)
  obtain ⟨next, hnext⟩ := h.exists_node (i := (n - 1).toNat + 2) (by omega)
  obtain ⟨c, hc, hN⟩ := h.chain.cell ha
  obtain ⟨d, -, hB⟩ := h.chain.cell hb
  have hba : b ≠ a := fun he => absurd (h.chain.index_inj hb (he ▸ ha)) (by omega)
  have hchain := h.chain.remove ha hc hb
  rw [hb] at hN
  rw [hnext] at hB hchain
  rw [listRemove_eq hL h ha hN hB hba]
  refine ⟨_, ns.eraseIdx ((n - 1).toNat + 1), ⟨rfl, fun {d' N} hd hN' => ?_, fun {d'} hd => ?_⟩,
    ⟨contents_eraseIdx hp ▸ hchain, ?_, ?_, ?_⟩⟩
  · have hda : d' ≠ a := fun he => hd (he ▸ List.mem_of_getElem? ha)
    have hdb : d' ≠ b := fun he => hd (he ▸ List.mem_of_getElem? hb)
    rw [Heap.get?_free, if_neg hdb, Heap.get?_write_ne hda, hN']
  · exact .inl (List.mem_of_mem_eraseIdx hd)
  · rw [List.getElem?_eraseIdx_of_lt (Nat.succ_pos _)]
    exact h.front
  · rw [List.getElem?_eraseIdx_of_lt (Nat.lt_succ_self _)]
    exact ha
  · rw [List.length_eraseIdx_of_lt hp, h.size]

/-- The list `l` becomes `L'` and the sequence `xs'`, in nodes that no other list has. -/
theorem Linked.set {chain : ListId → List NodeId} {A' : Sequences α} (h : Linked chain m A)
    (hnext : m'.lists.next = A'.next) (hself : A'.get? l = some xs')
    (hother : ∀ l₂, l₂ ≠ l → A'.get? l₂ = A.get? l₂) (hlist : m'.lists.get? l = some L')
    (hlists : ∀ l₂, l₂ ≠ l → m'.lists.get? l₂ = m.lists.get? l₂) (hh : Holds m'.nodes L' ns' xs')
    (hframe : ∀ {l₂ ys d N}, l₂ ≠ l → A.get? l₂ = some ys → d ∈ chain l₂ →
      m.nodes.get? d = some N → m'.nodes.get? d = some N)
    (hapart : ∀ {l₂ ys}, l₂ ≠ l → A.get? l₂ = some ys → ns'.Disjoint (chain l₂)) :
    Linked (Function.update chain l ns') m' A' := by
  refine ⟨hnext, fun {l₂ ys} hl₂ => ?_, fun {l₁ l₂ xs₁ xs₂} hl₁ hl₂ hne => ?_⟩
  · by_cases heq : l₂ = l
    · subst heq
      cases hself.symm.trans hl₂
      rw [Function.update_self]
      exact ⟨L', hlist, hh⟩
    · rw [hother l₂ heq] at hl₂
      obtain ⟨L₂, hL₂, hh₂⟩ := h.held hl₂
      rw [Function.update_of_ne heq]
      refine ⟨L₂, by rw [hlists l₂ heq, hL₂], hh₂.frame fun d hd => ?_⟩
      obtain ⟨N, hN⟩ := hh₂.chain.live hd
      rw [hN]
      exact hframe heq hl₂ hd hN
  · by_cases h₁ : l₁ = l
    · subst h₁
      rw [hother l₂ hne.symm] at hl₂
      rw [Function.update_self, Function.update_of_ne hne.symm]
      exact hapart hne.symm hl₂
    · rw [hother l₁ h₁] at hl₁
      by_cases h₂ : l₂ = l
      · subst h₂
        rw [Function.update_self, Function.update_of_ne hne]
        exact fun d hd hd' => hapart hne hl₁ hd' hd
      · rw [hother l₂ h₂] at hl₂
        rw [Function.update_of_ne h₁, Function.update_of_ne h₂]
        exact h.apart hl₁ hl₂ hne

theorem Linked.notMem_of_dead {chain : ListId → List NodeId} (h : Linked chain m A)
    (hA : A.get? l = some xs) (ha : m.nodes.get? a = none) : a ∉ chain l := by
  intro hmem
  obtain ⟨L, -, hl⟩ := h.held hA
  obtain ⟨N, hN⟩ := hl.chain.live hmem
  rw [ha] at hN
  cases hN

theorem Linked.update {chain : ListId → List NodeId} (h : Linked chain m A) (hA : A.get? l = some xs)
    (hu : Updates m m' l L' (chain l) ns') (hh : Holds m'.nodes L' ns' xs') :
    Linked (Function.update chain l ns') m' (A.write l xs') := by
  obtain ⟨L, hL, -⟩ := h.held hA
  refine h.set ?_ (Heap.get?_write_self hA) (fun l₂ hne => Heap.get?_write_ne hne) ?_ (fun l₂ hne => ?_)
    hh (fun hne hl₂ hd hN => ?_) fun hne hl₂ d hd hd₂ => ?_
  · rw [hu.lists, Heap.next_write, Heap.next_write, h.next]
  · rw [hu.lists, Heap.get?_write_self hL]
  · rw [hu.lists, Heap.get?_write_ne hne]
  · exact hu.frame (h.apart hl₂ hA hne hd) hN
  · rcases hu.fresh hd with hd' | hdead
    · exact h.apart hA hl₂ hne.symm hd' hd₂
    · exact h.notMem_of_dead hl₂ hdead hd₂

theorem Refines.list (h : Refines m A) (hA : A.get? l = some xs) :
    ∃ L, m.lists.get? l = some L ∧ L.size = xs.length := by
  obtain ⟨chain, hc⟩ := h
  obtain ⟨L, hL, hl⟩ := hc.held hA
  exact ⟨L, hL, hl.size⟩

theorem Refines.next (h : Refines m A) : m.lists.next = A.next := by
  obtain ⟨chain, hc⟩ := h
  exact hc.next

theorem sat_listSize (h : Refines m A) (hA : A.get? l = some xs) :
    Sat E (listSize m l) fun size => size = xs.length := by
  obtain ⟨L, hL, hs⟩ := h.list hA
  simp only [listSize, Memory.readList, hL, ok_bind]
  exact hs

theorem sat_listGet (h : Refines m A) (hA : A.get? l = some xs) (hx : xs[i]? = some e)
    (hn : n.toNat = i + 1) : Sat E (listGet m l n) fun r => r.1 = e ∧ Refines r.2 A := by
  obtain ⟨chain, hc⟩ := h
  obtain ⟨L, hL, hl⟩ := hc.held hA
  obtain ⟨hi, -⟩ := List.getElem?_eq_some_iff.mp hx
  obtain ⟨a, ha⟩ := hl.exists_node (i := n.toNat) (by omega)
  have hdata := hl.chain.get? ha (hn ▸ contents_getElem? hx)
  simp only [listGet, listGetNode_eq hL hl ha, ok_bind, Memory.readNode, Memory.writeList, hdata]
  -- only the cursor has moved
  have hu : Updates m (m.writeList l { L with cursor := a, curpos := n }) l _ (chain l) (chain l) :=
    ⟨rfl, fun _ hN => hN, .inl⟩
  have hmoved := hc.update hA hu ⟨hl.chain, hl.front, ha, hl.size⟩
  rw [Heap.write_of_get? hA] at hmoved
  exact ⟨rfl, _, hmoved⟩

theorem sat_listInsert (h : Refines m A) (hA : A.get? l = some xs) (hn : (n - 1).toNat = p)
    (hp : p ≤ xs.length) :
    Sat E (listInsert m l n e) fun m' => Refines m' (A.write l (xs.insertIdx p e)) := by
  obtain ⟨chain, hc⟩ := h
  obtain ⟨L, hL, hl⟩ := hc.held hA
  subst hn
  apply (sat_listInsert_holds hL hl hp).mono
  rintro m' ⟨L', ns', hu, hh⟩
  exact ⟨_, hc.update hA hu hh⟩

theorem sat_listRemove (h : Refines m A) (hA : A.get? l = some xs) (hn : (n - 1).toNat = p)
    (hp : p < xs.length) :
    Sat E (listRemove m l n) fun m' => Refines m' (A.write l (xs.eraseIdx p)) := by
  obtain ⟨chain, hc⟩ := h
  obtain ⟨L, hL, hl⟩ := hc.held hA
  subst hn
  apply (sat_listRemove_holds hL hl hp).mono
  rintro m' ⟨L', ns', hu, hh⟩
  exact ⟨_, hc.update hA hu hh⟩

/-- The position of the new element is one more than the size, modulo `2 ^ 32`. -/
theorem sat_listAppend_any (h : Refines m A) (hA : A.get? l = some xs) :
    Sat E (listAppend m l e) fun m' =>
      Refines m' (A.write l (xs.insertIdx (xs.length % (UINT_MAX + 1)) e)) := by
  refine (sat_listSize h hA).bind fun size hsize => ?_
  subst hsize
  have hpos : (UInt32.ofNat (xs.length + 1) - 1).toNat = xs.length % (UINT_MAX + 1) := by
    have hsub : UInt32.ofNat (xs.length + 1) - 1 = UInt32.ofNat xs.length := by
      rw [UInt32.ofNat_add]
      exact UInt32.add_sub_cancel _ _
    rw [hsub]
    exact UInt32.toNat_ofNat'
  exact sat_listInsert h hA hpos (Nat.mod_le _ _)

theorem sat_listAppend (h : Refines m A) (hA : A.get? l = some xs) (hs : xs.length ≤ UINT_MAX) :
    Sat E (listAppend m l e) fun m' => Refines m' (A.write l (xs ++ [e])) := by
  have hrun := sat_listAppend_any (E := E) (e := e) h hA
  rw [Nat.mod_eq_of_lt (Nat.lt_succ_of_le hs), List.insertIdx_length_self] at hrun
  exact hrun

theorem Linked.add {chain : ListId → List NodeId} (h : Linked chain m A)
    (hlists : m'.lists = m.lists.alloc L') (hh : Holds m'.nodes L' ns' xs')
    (hframe : ∀ {d N}, m.nodes.get? d = some N → m'.nodes.get? d = some N)
    (hfresh : ∀ {d}, d ∈ ns' → m.nodes.get? d = none) :
    Linked (Function.update chain A.next ns') m' (A.alloc xs') := by
  refine h.set ?_ Heap.get?_alloc_next (fun l₂ hne => ?_) ?_ (fun l₂ hne => ?_) hh
    (fun _ _ _ hN => hframe hN) fun _ hl₂ d hd hd₂ => h.notMem_of_dead hl₂ (hfresh hd) hd₂
  · rw [hlists, Heap.next_alloc, Heap.next_alloc, h.next]
  · rw [Heap.get?_alloc, if_neg hne]
  · rw [hlists, ← h.next, Heap.get?_alloc_next]
  · rw [hlists, Heap.get?_alloc, if_neg (h.next ▸ hne)]

/-- The memory with a new empty list. -/
def withEmpty (m : Memory α) (liFree : Bool) : Memory α where
  nodes := ((m.nodes.alloc ⟨sentinel, none⟩).alloc ⟨sentinel, none⟩).write m.nodes.next
    ⟨sentinel, some (m.nodes.alloc ⟨sentinel, none⟩).next⟩
  lists := m.lists.alloc ⟨m.nodes.next, m.nodes.next, 0, 0, liFree⟩
  freed := m.freed

theorem listNew_eq (m : Memory α) (liFree : Bool) (elements : List α) :
    listNew m liFree elements =
      forEach elements (fun m' element => listAppend m' m.lists.next element) (withEmpty m liFree)
        >>= fun m' => .ok (m.lists.next, m') := by
  have hfront : ((m.nodes.alloc ⟨⟨default, true⟩, none⟩).alloc ⟨⟨default, true⟩, none⟩).get?
      m.nodes.next = some ⟨⟨default, true⟩, none⟩ := Heap.get?_alloc_of_some Heap.get?_alloc_next
  simp only [listNew, nodeNew, nodeSetNext, Memory.readNode, hfront, ok_bind, withEmpty, sentinel]

theorem Refines.withEmpty (h : Refines m A) (liFree : Bool) :
    Refines (withEmpty m liFree) (A.alloc []) := by
  obtain ⟨chain, hc⟩ := h
  have hchain : Chain _ [m.nodes.next, (m.nodes.alloc ⟨sentinel, none⟩).next] (contents []) :=
    Chain.singleton.insert (p := 0) rfl rfl
  refine ⟨_, hc.add rfl ⟨hchain, rfl, rfl, rfl⟩ (fun {d N} hN => ?_) fun {d} hd => ?_⟩
  · unfold Cutil.withEmpty
    rw [Heap.get?_write_ne (Heap.ne_next hN)]
    exact Heap.get?_alloc_of_some (Heap.get?_alloc_of_some hN)
  · have hle : m.nodes.next ≤ d := by
      rcases List.mem_pair.mp hd with rfl | rfl
      · exact Nat.le_refl _
      · rw [Heap.next_alloc]
        exact Nat.le_succ _
    exact Heap.get?_eq_none hle

theorem sat_listNew {elements : List α} (h : Refines m A) (liFree : Bool)
    (hs : elements.length ≤ UINT_MAX + 1) :
    Sat E (listNew m liFree elements) fun r => r.1 = A.next ∧ Refines r.2 (A.alloc elements) := by
  rw [listNew_eq, h.next]
  refine (sat_forEach_visited (fun es m' => Refines m' (A.alloc es)) ?_
    (h.withEmpty liFree)).bind fun m' hm' => ⟨rfl, hm'⟩
  intro es e es' m' hes hm'
  have hlen : es.length ≤ UINT_MAX := by
    rw [← hes, List.length_append, List.length_cons] at hs
    omega
  have happ := sat_listAppend (E := E) (e := e) hm' Heap.get?_alloc_next hlen
  rw [Heap.write_alloc] at happ
  exact happ

theorem sat_listNew_nil (h : Refines m A) (liFree : Bool) :
    Sat E (listNew m liFree []) fun r => r.1 = A.next ∧ Refines r.2 (A.alloc []) :=
  sat_listNew h liFree (Nat.zero_le _)

/-- `ys` is what is left of the other list, `zs` what has been appended. -/
theorem sat_appendFrom {l₁ l₂ : ListId} {ws : List α} (hne : l₁ ≠ l₂) (ys : List α) :
    ∀ {zs : List α} {m A} {fuel : ℕ} {i : UInt32}, Refines m A → A.get? l₁ = some (ws ++ zs) →
      A.get? l₂ = some (zs ++ ys) → i.toNat = zs.length + 1 → ys.length < fuel →
      (zs ++ ys).length < UINT_MAX → (ys = [] ∨ (ws ++ zs ++ ys).length ≤ UINT_MAX + 1) →
      Sat E (appendFrom l₁ l₂ fuel i m) fun m' => Refines m' (A.write l₁ (ws ++ zs ++ ys)) := by
  induction ys with
  | nil =>
    intro zs m A fuel i h h₁ h₂ hi hfuel _ _
    cases fuel with
    | zero => cases hfuel
    | succ fuel =>
      refine (sat_listSize h h₂).bind fun size hsize => ?_
      rw [List.append_nil] at hsize
      rw [if_neg (by omega), List.append_nil, Heap.write_of_get? h₁]
      exact h
  | cons e ys ih =>
    intro zs m A fuel i h h₁ h₂ hi hfuel hlt hle
    have hlen : (zs ++ e :: ys).length = zs.length + 1 + ys.length := by simp; omega
    cases fuel with
    | zero => cases hfuel
    | succ fuel =>
      refine (sat_listSize h h₂).bind fun size hsize => ?_
      rw [if_pos (by omega)]
      have hget : (zs ++ e :: ys)[zs.length]? = some e := by simp
      apply (sat_listGet h h₂ hget hi).bind
      rintro ⟨e', m₁⟩ ⟨he, hm₁⟩
      obtain rfl : e' = e := he
      have hfits : (ws ++ zs ++ e' :: ys).length ≤ UINT_MAX + 1 := hle.resolve_left (List.cons_ne_nil _ _)
      rw [List.length_append, List.length_cons] at hfits
      refine (sat_listAppend hm₁ h₁ (by omega)).bind fun m₂ hm₂ => ?_
      have hself : (A.write l₁ (ws ++ zs ++ [e'])).get? l₁ = some (ws ++ (zs ++ [e'])) := by
        rw [Heap.get?_write_self h₁, List.append_assoc]
      have hother : (A.write l₁ (ws ++ zs ++ [e'])).get? l₂ = some (zs ++ [e'] ++ ys) := by
        rw [Heap.get?_write_ne hne.symm, h₂, List.append_cons]
      have hi' : (i + 1).toNat = (zs ++ [e']).length + 1 := by
        rw [UInt32.toNat_add, hi, List.length_append, List.length_singleton]
        apply Nat.mod_eq_of_lt
        simp only [UINT_MAX] at hlt
        change _ + 1 + 1 < 4294967296
        omega
      have hall : ws ++ (zs ++ [e']) ++ ys = ws ++ zs ++ e' :: ys := by simp
      have hnext := ih hm₂ hself hother hi' (Nat.lt_of_succ_lt_succ hfuel)
        (by rw [← List.append_cons]; exact hlt) (.inr (by rw [hall, List.length_append, List.length_cons]; exact hfits))
      rw [hall, Heap.write_write] at hnext
      exact hnext

theorem sat_listAppendList {l₁ l₂ : ListId} {ys : List α} (h : Refines m A)
    (h₁ : A.get? l₁ = some xs) (h₂ : A.get? l₂ = some ys) (hne : l₁ ≠ l₂) (hlt : ys.length < UINT_MAX)
    (hle : ys = [] ∨ xs.length + ys.length ≤ UINT_MAX + 1) :
    Sat E (listAppendList m l₁ l₂) fun m' => Refines m' (A.write l₁ (xs ++ ys)) := by
  have h₁' : A.get? l₁ = some (xs ++ []) := by rw [List.append_nil, h₁]
  have hle' : ys = [] ∨ (xs ++ [] ++ ys).length ≤ UINT_MAX + 1 := by
    rw [List.append_nil, List.length_append]
    exact hle
  have hrun : Sat E (listAppendList m l₁ l₂) fun m' => Refines m' (A.write l₁ (xs ++ [] ++ ys)) :=
    sat_appendFrom hne ys h h₁' h₂ rfl (Nat.lt_succ_of_lt hlt) hlt hle'
  rw [List.append_nil] at hrun
  exact hrun

theorem sat_listCopy (h : Refines m A) (hA : A.get? l = some xs) (hlt : xs.length < UINT_MAX) :
    Sat E (listCopy m l) fun r => r.1 = A.next ∧ Refines r.2 (A.alloc xs) := by
  apply (sat_listNew_nil h false).bind
  rintro ⟨l', m₁⟩ ⟨rfl, hm₁⟩
  have hrun := sat_listAppendList (E := E) hm₁ Heap.get?_alloc_next (Heap.get?_alloc_of_some hA)
    (Heap.ne_next hA).symm hlt (.inr (by rw [List.length_nil]; omega))
  rw [Heap.write_alloc, List.nil_append] at hrun
  exact hrun.bind fun m₂ hm₂ => ⟨rfl, hm₂⟩

theorem sat_forEachIndex {σ : Type} {size : ℕ} {body : σ → UInt32 → Except ListFault σ} {s : σ}
    (I : ℕ → σ → Prop) (hsize : (size : ℤ) < INT_MAX)
    (hbody : ∀ i s n, i < size → n.toNat = i + 1 → I i s → Sat E (body s n) (I (i + 1))) (hs : I 0 s) :
    Sat E (forEachIndex (Int32.ofNat size).toInt body s) (I size) := by
  have hlt : size < 2147483647 := by
    simp only [INT_MAX] at hsize
    omega
  have hint : (Int32.ofNat size).toInt = size := Int32.toInt_ofNat_of_lt (Nat.lt_succ_of_lt hlt)
  rw [hint, forEachIndex, Int.toNat_natCast]
  refine (sat_forRange I (fun i s hi hI => hbody i s _ hi ?_ hI) hs).bind fun s' hs' => ?_
  · exact UInt32.toNat_ofNat_of_lt' (by change _ < 4294967296; omega)
  · rw [if_neg (Int.ne_of_lt hsize)]
    exact hs'

theorem sat_listMapR {f : α → α} (h : Refines m A) (hA : A.get? l = some xs)
    (hsize : (xs.length : ℤ) < INT_MAX) :
    Sat E (listMapR m l f) fun r => r.1 = A.next ∧ Refines r.2 (A.alloc (xs.map f)) := by
  refine (sat_listSize h hA).bind fun size hs => ?_
  subst hs
  apply (sat_listNew_nil h false).bind
  rintro ⟨ret, m₁⟩ ⟨rfl, hm₁⟩
  refine (sat_forEachIndex (fun i m => Refines m (A.alloc ((xs.take i).map f))) hsize ?_ hm₁).bind
    fun m₂ hm₂ => ⟨rfl, ?_⟩
  · intro i m n hi hn hm
    apply (sat_listGet hm (Heap.get?_alloc_of_some hA) (List.getElem?_eq_getElem hi) hn).bind
    rintro ⟨e, m'⟩ ⟨rfl, hm'⟩
    have happ := sat_listAppend (E := E) (e := f xs[i]) hm' Heap.get?_alloc_next ?_
    · rw [Heap.write_alloc, ← List.map_singleton, ← List.map_append, ← List.take_succ_eq_append_getElem hi] at happ
      exact happ
    · simp only [INT_MAX] at hsize
      simp only [List.length_map, List.length_take, UINT_MAX]
      omega
  · rw [List.take_length] at hm₂
    exact hm₂

theorem listMapR_of_int_max_lt {f : α → α} (h : Refines m A) (hA : A.get? l = some xs)
    (hsize : INT_MAX < xs.length) (hle : xs.length ≤ UINT_MAX) :
    listMapR m l f = .ok (m.lists.next, withEmpty m false) := by
  obtain ⟨L, hL, hs⟩ := h.list hA
  have hneg : (Int32.ofNat xs.length).toInt < 0 := by
    rw [Int32.toInt_ofNat', Int.bmod_def]
    simp only [INT_MAX, UINT_MAX] at hsize hle
    simp only [Int32.size]
    omega
  have hzero : (Int32.ofNat xs.length).toInt.toNat = 0 := Int.toNat_of_nonpos (Int.le_of_lt hneg)
  have hne : (Int32.ofNat xs.length).toInt ≠ INT_MAX := by
    simp only [INT_MAX]
    omega
  simp only [listMapR, listSize, Memory.readList, hL, ok_bind, listNew_eq, forEach_nil, hs,
    forEachIndex, hzero, List.range_zero, if_neg hne]

theorem sat_listEachR (h : Refines m A) (hA : A.get? l = some xs)
    (hsize : (xs.length : ℤ) < INT_MAX) :
    Sat E (listEachR m l) fun r => r.1 = xs ∧ Refines r.2 A := by
  refine (sat_listSize h hA).bind fun size hs => ?_
  subst hs
  refine (sat_forEachIndex (fun i (r : List α × Memory α) => r.1 = xs.take i ∧ Refines r.2 A) hsize
    ?_ ⟨rfl, h⟩).mono fun r hr => ⟨hr.1.trans List.take_length, hr.2⟩
  rintro i ⟨es, m⟩ n hi hn ⟨hes, hm⟩
  apply (sat_listGet hm hA (List.getElem?_eq_getElem hi) hn).bind
  rintro ⟨e, m'⟩ ⟨rfl, hm'⟩
  refine ⟨?_, hm'⟩
  dsimp only at hes ⊢
  rw [hes, List.take_succ_eq_append_getElem hi]

theorem sat_exec {op : ListOp α} (h : Refines m A) (hl : Legal A op) (hf : Fits A op) :
    Sat E (exec m op) fun r => r.1 = (spec A op).1 ∧ Refines r.2 (spec A op).2 := by
  cases op with
  | new liFree elements =>
    exact sat_map.mpr ((sat_listNew h liFree hf).mono fun r hr => ⟨congrArg Reply.list hr.1, hr.2⟩)
  | size l =>
    exact sat_map.mpr ((sat_listSize h (get?_sequence hl)).mono fun n hn => ⟨congrArg Reply.size hn, h⟩)
  | get l n =>
    obtain ⟨hlive, hpos, hle⟩ := hl
    have hx : (sequence A l)[n.toNat - 1]? = some ((sequence A l).getD (n.toNat - 1) default) := by
      rw [List.getD_eq_getElem?_getD, List.getElem?_eq_getElem (by omega)]
      rfl
    exact sat_map.mpr ((sat_listGet h (get?_sequence hlive) hx (Nat.sub_add_cancel hpos).symm).mono
      fun r hr => ⟨congrArg Reply.element hr.1, hr.2⟩)
  | insert l n element =>
    obtain ⟨hlive, hpos, hle⟩ := hl
    exact sat_map.mpr ((sat_listInsert h (get?_sequence hlive) (toNat_pred hpos) (by omega)).mono
      fun m' hm' => ⟨rfl, hm'⟩)
  | remove l n =>
    obtain ⟨hlive, hpos, hle⟩ := hl
    exact sat_map.mpr ((sat_listRemove h (get?_sequence hlive) (toNat_pred hpos) (by omega)).mono
      fun m' hm' => ⟨rfl, hm'⟩)
  | append l element =>
    exact sat_map.mpr ((sat_listAppend h (get?_sequence hl) hf).mono fun m' hm' => ⟨rfl, hm'⟩)
  | appendList l₁ l₂ =>
    obtain ⟨h₁, h₂, hne⟩ := hl
    exact sat_map.mpr ((sat_listAppendList h (get?_sequence h₁) (get?_sequence h₂) hne hf.1 hf.2).mono
      fun m' hm' => ⟨rfl, hm'⟩)
  | copy l =>
    exact sat_map.mpr ((sat_listCopy h (get?_sequence hl) hf).mono
      fun r hr => ⟨congrArg Reply.list hr.1, hr.2⟩)
  | mapR l f =>
    exact sat_map.mpr ((sat_listMapR h (get?_sequence hl) hf).mono
      fun r hr => ⟨congrArg Reply.list hr.1, hr.2⟩)
  | eachR l =>
    exact sat_map.mpr ((sat_listEachR h (get?_sequence hl) hf).mono
      fun r hr => ⟨congrArg Reply.elements hr.1, hr.2⟩)

theorem refines_empty : Refines (.empty : Memory α) .empty := by
  refine ⟨fun _ => [], rfl, ?_, ?_⟩
  · rintro l xs ⟨⟩
  · rintro l l' xs xs' ⟨⟩

theorem exists_refines (m : Memory α) : ∃ A, Refines m A := by
  have hnone (l : ListId) : (⟨List.replicate m.lists.next none⟩ : Sequences α).get? l = none := by
    rw [Heap.get?, List.getElem?_replicate]
    split <;> rfl
  refine ⟨⟨List.replicate m.lists.next none⟩, fun _ => [], ?_, fun {l xs} hl => ?_,
    fun {l l' xs xs'} hl => ?_⟩
  · exact List.length_replicate.symm
  · rw [hnone] at hl
    cases hl
  · rw [hnone] at hl
    cases hl

/-- The lists and the sequences side by side. -/
def stepBoth (p : Memory α × Sequences α) (op : ListOp α) :
    Except ListFault (Memory α × Sequences α) :=
  (fun r => (r.2, (spec p.2 op).2)) <$> exec p.1 op

/-- Before an operation the positions are legal and the counters wide enough. -/
def Allowed (p : Memory α × Sequences α) (op : ListOp α) : Prop := Legal p.2 op ∧ Fits p.2 op

theorem exists_step {op : ListOp α} (h : Refines m A) (hl : Legal A op) (hf : Fits A op) :
    ∃ m', stepBoth (m, A) op = .ok (m', (spec A op).2) ∧ Refines m' (spec A op).2 := by
  obtain ⟨r, hrun, -, hr⟩ := (sat_exec h hl hf).exists_ok
  exact ⟨r.2, by simp only [stepBoth, hrun]; rfl, hr⟩

/-- The cursor is the node that `curpos` links lead to from the front sentinel. -/
theorem Refines.cursor (h : Refines m A) (hA : A.get? l = some xs) :
    ∃ L, m.lists.get? l = some L ∧ L.size = xs.length ∧
      followLinks m L.curpos.toNat L.frontSentinel = .ok L.cursor := by
  obtain ⟨chain, hc⟩ := h
  obtain ⟨L, hL, hl⟩ := hc.held hA
  refine ⟨L, hL, hl.size, followLinks_eq hl.chain hl.front ?_⟩
  rw [Nat.zero_add]
  exact hl.cursor

/-- In every run whose lists stay short enough for the counters, the lists are the sequences, and
an operation returns what it returns on sequences. -/
theorem lists_refine_sequences (h : Reaches stepBoth Allowed (.empty, .empty) (m, A)) :
    Refines m A ∧
    (∀ l xs, A.get? l = some xs → ∃ L, m.lists.get? l = some L ∧ L.size = xs.length ∧
      followLinks m L.curpos.toNat L.frontSentinel = .ok L.cursor) ∧
    ∀ op, Allowed (m, A) op → ∃ m', exec m op = .ok ((spec A op).1, m') := by
  have hrefines : Refines m A := by
    refine h.invariant (I := fun p => Refines p.1 p.2) refines_empty ?_
    rintro ⟨m, A⟩ op p hm ⟨hl, hf⟩ hs
    obtain ⟨m', hs', hm'⟩ := exists_step hm hl hf
    cases hs'.symm.trans hs
    exact hm'
  refine ⟨hrefines, fun l xs hA => hrefines.cursor hA, fun op hop => ?_⟩
  obtain ⟨⟨reply, m'⟩, hrun, hreply, -⟩ := (sat_exec hrefines hop.1 hop.2).exists_ok
  exact ⟨m', by rw [hrun, ← hreply]⟩

section Sample

variable {A : Sequences ℕ} {m : Memory ℕ}

instance (A : Sequences ℕ) (op : ListOp ℕ) : Decidable (Legal A op) :=
  match op with
  | .new _ _ => .isTrue trivial
  | .size l | .append l _ | .copy l | .mapR l _ | .eachR l =>
    inferInstanceAs (Decidable ((A.get? l).isSome = true))
  | .get l n | .remove l n => inferInstanceAs (Decidable ((A.get? l).isSome = true ∧ 1 ≤ n.toNat ∧
      n.toNat ≤ (sequence A l).length))
  | .insert l n _ => inferInstanceAs (Decidable ((A.get? l).isSome = true ∧ 1 ≤ n.toNat ∧
      n.toNat ≤ (sequence A l).length + 1))
  | .appendList l₁ l₂ => inferInstanceAs (Decidable ((A.get? l₁).isSome = true ∧
      (A.get? l₂).isSome = true ∧ l₁ ≠ l₂))

instance (A : Sequences ℕ) (op : ListOp ℕ) : Decidable (Fits A op) :=
  match op with
  | .new _ elements => inferInstanceAs (Decidable (elements.length ≤ UINT_MAX + 1))
  | .append l _ => inferInstanceAs (Decidable ((sequence A l).length ≤ UINT_MAX))
  | .appendList l₁ l₂ => inferInstanceAs (Decidable ((sequence A l₂).length < UINT_MAX ∧
      (sequence A l₂ = [] ∨ (sequence A l₁).length + (sequence A l₂).length ≤ UINT_MAX + 1)))
  | .copy l => inferInstanceAs (Decidable ((sequence A l).length < UINT_MAX))
  | .mapR l _ | .eachR l => inferInstanceAs (Decidable (((sequence A l).length : ℤ) < INT_MAX))
  | .size _ | .get _ _ | .insert _ _ _ | .remove _ _ => .isTrue trivial

instance (p : Memory ℕ × Sequences ℕ) (op : ListOp ℕ) : Decidable (Allowed p op) :=
  inferInstanceAs (Decidable (_ ∧ _))

/-- A search that leaves the cursor in the middle, changes around it, and lists made from it. -/
def threeLists : List (ListOp ℕ) := [
  .new false [1, 2, 3], .get 0 2, .insert 0 2 7, .remove 0 1, .append 0 9, .copy 0, .insert 1 1 5,
  .appendList 0 1, .mapR 0 (· * 2)]

end Sample

theorem lists_refine_sequences_sample : ∃ (m m' : Memory ℕ) (A : Sequences ℕ),
    A.get? 2 = some [14, 4, 6, 18, 10, 14, 4, 6, 18] ∧ Refines m A ∧
    exec m (.get 2 5) = .ok (.element 10, m') := by
  have hrun : (execute stepBoth Allowed threeLists (.empty, .empty)).any (fun p =>
      p.2.get? 2 = some [14, 4, 6, 18, 10, 14, 4, 6, 18] ∧ Allowed p (.get 2 5) ∧
        (spec p.2 (.get 2 5)).1 = .element 10) = true := by decide +kernel
  obtain ⟨⟨m, A⟩, hp, hq⟩ := (Option.any_eq_true _ _).mp hrun
  obtain ⟨hA, hop, hreply⟩ := of_decide_eq_true hq
  obtain ⟨hm, -, hexec⟩ := lists_refine_sequences (reaches_of_execute hp)
  obtain ⟨m', hm'⟩ := hexec (.get 2 5) hop
  exact ⟨m, m', A, hA, hm, by rw [hm', hreply]⟩

theorem exists_long_list (k : ℕ) (hk : k ≤ UINT_MAX) : ∃ (m : Memory ℕ) (A : Sequences ℕ),
    Reaches stepBoth (fun p op => Legal p.2 op) (.empty, .empty) (m, A) ∧ Refines m A ∧
      A.get? 0 = some (List.replicate k 0) := by
  induction k with
  | zero =>
    have hstart : Refines (.empty : Memory ℕ) .empty := refines_empty
    have hlegal : Legal (.empty : Sequences ℕ) (.new false []) := trivial
    obtain ⟨m', hs, hm'⟩ := exists_step hstart hlegal (Nat.zero_le _)
    exact ⟨m', _, (Reaches.refl _).tail hlegal hs, hm', rfl⟩
  | succ k ih =>
    obtain ⟨m, A, hr, hm, hA⟩ := ih (Nat.le_of_succ_le hk)
    have hseq : sequence A 0 = List.replicate k 0 := by simp only [sequence, hA, Option.getD_some]
    have hlegal : Legal A (.append 0 0) := by simp only [Legal, hA, Option.isSome_some]
    have hfits : Fits A (.append 0 0) := by
      simp only [Fits, hseq, List.length_replicate]
      exact Nat.le_of_succ_le hk
    obtain ⟨m', hs, hm'⟩ := exists_step hm hlegal hfits
    refine ⟨m', _, hr.tail hlegal hs, hm', ?_⟩
    rw [List.replicate_succ', ← hseq]
    exact Heap.get?_write_self hA

theorem long_list_not_mapped : ¬ ∀ (m : Memory ℕ) (A : Sequences ℕ),
    Reaches stepBoth (fun p op => Legal p.2 op) (.empty, .empty) (m, A) →
    ∀ op, Legal A op → ∃ m', exec m op = .ok ((spec A op).1, m') ∧ Refines m' (spec A op).2 := by
  intro h
  obtain ⟨k, hmax, hk⟩ : ∃ k : ℕ, INT_MAX < k ∧ k ≤ UINT_MAX := ⟨2147483648, by decide, by decide⟩
  obtain ⟨m, A, hr, hm, hA⟩ := exists_long_list k hk
  have hseq : sequence A 0 = List.replicate k 0 := by simp only [sequence, hA, Option.getD_some]
  have hlegal : Legal A (.mapR 0 id) := by simp only [Legal, hA, Option.isSome_some]
  obtain ⟨m', hrun, hm'⟩ := h m A hr (.mapR 0 id) hlegal
  have hmap : listMapR m 0 id = .ok (m.lists.next, withEmpty m false) :=
    listMapR_of_int_max_lt hm hA (by rwa [List.length_replicate]) (by rwa [List.length_replicate])
  simp only [exec, hmap] at hrun
  obtain rfl : withEmpty m false = m' := (Prod.mk.inj (Except.ok.inj hrun)).2
  -- the list that has been returned is empty
  obtain ⟨L, hL, hsize⟩ := hm'.list Heap.get?_alloc_next
  rw [← hm.next] at hL
  cases Heap.get?_alloc_next.symm.trans hL
  rw [List.length_map, hseq, List.length_replicate] at hsize
  have hzero : k = 0 := hsize.symm
  simp only [INT_MAX, hzero] at hmax
  omega

end TagFilesystem.Cutil
