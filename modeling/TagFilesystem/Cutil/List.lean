import TagFilesystem.Library.Outcome
import TagFilesystem.Library.Chain
import TagFilesystem.Library.Table
import TagFilesystem.Cutil.Strings
import Mathlib.Data.Int.Notation

namespace TagFilesystem.Cutil

abbrev NodeId := ℕ
abbrev ListId := ℕ

/-- `struct list_node` without the link. A value of `α` is a `void *`, the default one `NULL`. -/
structure NodeData (α : Type) where
  data : α
  isSentinel : Bool
  deriving Repr, DecidableEq

abbrev ListNode (α : Type) := Cell (NodeData α)

/-- `struct list`; the member `last` is never used, of `flags` only the bit `LI_FREE` is. -/
structure ListObject where
  frontSentinel : NodeId
  cursor : NodeId
  /-- A `size_t`, taken as unbounded. -/
  size : ℕ
  curpos : UInt32
  liFree : Bool
  deriving Repr, DecidableEq

/-- What has no meaning in C, and the loop that never ends. -/
inductive ListFault
  | badList
  | freedNode
  /-- The member `next` of a back sentinel, which `malloc` has left uninitialized, is read. -/
  | uninitialized
  /-- An `int` is incremented beyond `INT_MAX`. -/
  | signedOverflow
  | endlessLoop
  deriving Repr, DecidableEq

/-- The nodes and lists, and the calls of `free_element` so far. -/
structure Memory (α : Type) where
  nodes : Heap (ListNode α)
  lists : Heap ListObject
  freed : List α
  deriving Repr, DecidableEq

def INT_MAX : ℤ := 2147483647
def UINT_MAX : ℕ := 4294967295

variable {α : Type}

namespace Memory

def empty : Memory α := ⟨.empty, .empty, []⟩

def readList (m : Memory α) (l : ListId) : Except ListFault ListObject :=
  match m.lists.get? l with
  | some L => .ok L
  | none => .error .badList

def writeList (m : Memory α) (l : ListId) (L : ListObject) : Memory α :=
  { m with lists := m.lists.write l L }

def readNode (m : Memory α) (node : NodeId) : Except ListFault (ListNode α) :=
  match m.nodes.get? node with
  | some N => .ok N
  | none => .error .freedNode

end Memory

def nodeNew (m : Memory α) (data : α) (isSentinel : Bool) : NodeId × Memory α :=
  (m.nodes.next, { m with nodes := m.nodes.alloc ⟨⟨data, isSentinel⟩, none⟩ })

def nodeGetNext (m : Memory α) (node : NodeId) : Except ListFault NodeId := do
  let N ← m.readNode node
  match N.next with
  | some next => .ok next
  | none => .error .uninitialized

def nodeSetNext (m : Memory α) (node next : NodeId) : Except ListFault (Memory α) := do
  let N ← m.readNode node
  .ok { m with nodes := m.nodes.write node { N with next := some next } }

/-- The loop of `list_get_node`: `k` links from `node` on. -/
def followLinks (m : Memory α) : ℕ → NodeId → Except ListFault NodeId
  | 0, node => .ok node
  | k + 1, node => do
    let node ← nodeGetNext m node
    followLinks m k node

/-- The number `k` of links to follow and the node to start from. -/
def searchStart (L : ListObject) (n : UInt32) : UInt32 × NodeId :=
  if L.curpos ≤ n then (n - L.curpos, L.cursor) else (n, L.frontSentinel)

def listGetNode (m : Memory α) (l : ListId) (n : UInt32) : Except ListFault (NodeId × Memory α) := do
  let L ← m.readList l
  let node ← followLinks m (searchStart L n).1.toNat (searchStart L n).2
  .ok (node, m.writeList l { L with cursor := node, curpos := n })

def listSize (m : Memory α) (l : ListId) : Except ListFault ℕ := do
  let L ← m.readList l
  .ok L.size

def listGet (m : Memory α) (l : ListId) (n : UInt32) : Except ListFault (α × Memory α) := do
  let (node, m) ← listGetNode m l n
  let N ← m.readNode node
  .ok (N.content.data, m)

/-- `list_add`. The cursor stays at its node, and `curpos` at its value. -/
def listAdd (m : Memory α) (l : ListId) (element : α) : Except ListFault (Memory α) := do
  let L ← m.readList l
  let (tmp, m) := nodeNew m element false
  let next ← nodeGetNext m L.frontSentinel
  let m ← nodeSetNext m tmp next
  let m ← nodeSetNext m L.frontSentinel tmp
  .ok (m.writeList l { L with size := L.size + 1 })

def listInsert (m : Memory α) (l : ListId) (n : UInt32) (element : α) :
    Except ListFault (Memory α) := do
  let (previous, m) ← listGetNode m l (n - 1)
  let (tmp, m) := nodeNew m element false
  let next ← nodeGetNext m previous
  let m ← nodeSetNext m tmp next
  let m ← nodeSetNext m previous tmp
  let L ← m.readList l
  .ok (m.writeList l { L with size := L.size + 1 })

/-- `list_append`. The position passes through an `int`, which keeps it modulo `2 ^ 32`. -/
def listAppend (m : Memory α) (l : ListId) (element : α) : Except ListFault (Memory α) := do
  let size ← listSize m l
  listInsert m l (UInt32.ofNat (size + 1)) element

def listRemove (m : Memory α) (l : ListId) (n : UInt32) : Except ListFault (Memory α) := do
  let (previous, m) ← listGetNode m l (n - 1)
  let tmp ← nodeGetNext m previous
  let next ← nodeGetNext m tmp
  let m ← nodeSetNext m previous next
  let L ← m.readList l
  let T ← m.readNode tmp
  -- a list that was made with `li_free` owns its elements
  let freed := if L.liFree = true then m.freed ++ [T.content.data] else m.freed
  let m := { m with nodes := m.nodes.free tmp, freed := freed }
  .ok (m.writeList l { L with size := L.size - 1 })

/-- The node behind `n` is unlinked and freed if it holds `value`. -/
def removeNext [DecidableEq α] (m : Memory α) (l : ListId) (value : α) (n : NodeId) :
    Except ListFault (Memory α) := do
  let next ← nodeGetNext m n
  let N ← m.readNode next
  if N.content.isSentinel = false ∧ N.content.data = value then do
    let L ← m.readList l
    let m := m.writeList l { L with size := L.size - 1 }
    let after ← nodeGetNext m next
    let m ← nodeSetNext m n after
    .ok { m with nodes := m.nodes.free next }
  else .ok m

/-- The loop of `list_remove_value` at the node `n`. -/
def removeFrom [DecidableEq α] (l : ListId) (value : α) :
    ℕ → Memory α → NodeId → Except ListFault (Memory α)
  | 0, _, _ => .error .endlessLoop
  | fuel + 1, m, n => do
    let m ← removeNext m l value n
    -- the step is taken after a removal too
    let n ← nodeGetNext m n
    let N ← m.readNode n
    if N.content.isSentinel = true then .ok m else removeFrom l value fuel m n

/-- `list_remove_value`. A chain that ends has no more nodes than have been made. -/
def listRemoveValue [DecidableEq α] (m : Memory α) (l : ListId) (value : α) :
    Except ListFault (Memory α) := do
  let L ← m.readList l
  removeFrom l value (m.nodes.next + 1) m L.frontSentinel

/-- The loop of `list_free` at the node `node`; it gives the back sentinel. -/
def freeFrom (liFree : Bool) : ℕ → Memory α → NodeId → Except ListFault (NodeId × Memory α)
  | 0, _, _ => .error .endlessLoop
  | fuel + 1, m, node => do
    let N ← m.readNode node
    if N.content.isSentinel = true then .ok (node, m)
    else do
      let tmp ← nodeGetNext m node
      let freed := if liFree = true then m.freed ++ [N.content.data] else m.freed
      freeFrom liFree fuel { m with nodes := m.nodes.free node, freed := freed } tmp

def listFree (m : Memory α) (l : ListId) : Except ListFault (Memory α) := do
  let L ← m.readList l
  let node ← nodeGetNext m L.frontSentinel
  let (node, m) ← freeFrom L.liFree (m.nodes.next + 1) m node
  .ok { m with nodes := (m.nodes.free node).free L.frontSentinel, lists := m.lists.free l }

/-- The loop `for (unsigned i = 0; i < l->size; ++i)` around `list_get(l, i)`; `body` is what
happens to the element. -/
def convertFrom {σ : Type} (l : ListId) (body : σ → UInt32 → α → σ) :
    ℕ → UInt32 → σ → Memory α → Except ListFault (σ × Memory α)
  | 0, _, _, _ => .error .endlessLoop
  | fuel + 1, i, s, m => do
    let size ← listSize m l
    if i.toNat < size then do
      let (element, m) ← listGet m l i
      convertFrom l body fuel (i + 1) (body s i element) m
    else .ok (s, m)

/-- `list_to_array`: the entries in the order in which they are assigned. Once the counter has
taken all its values the loop starts again. -/
def listToArray (m : Memory α) (l : ListId) : Except ListFault (List α × Memory α) :=
  convertFrom l (fun array _ element => array ++ [element]) (UINT_MAX + 1) 0 [] m

def listToHashtable (m : Memory α) (l : ListId) (elementKeyname : α → CStr) :
    Except ListFault (Table CStr α × Memory α) :=
  convertFrom l (fun ht _ el => ht.add (elementKeyname el) el) (UINT_MAX + 1) 0 .empty m

/-- `list_new`; `elements` are the arguments before the `NULL` that ends them. -/
def listNew [Inhabited α] (m : Memory α) (liFree : Bool) (elements : List α) :
    Except ListFault (ListId × Memory α) := do
  let (front, m) := nodeNew m default true
  let (back, m) := nodeNew m default true
  let m ← nodeSetNext m front back
  let l := m.lists.next
  let m := { m with lists := m.lists.alloc ⟨front, front, 0, 0, liFree⟩ }
  let m ← forEach elements (fun m element => listAppend m l element) m
  .ok (l, m)

/-- The loop of `list_append_list`, with the counter `i`. -/
def appendFrom (l₁ l₂ : ListId) : ℕ → UInt32 → Memory α → Except ListFault (Memory α)
  | 0, _, _ => .error .endlessLoop
  | fuel + 1, i, m => do
    let size ← listSize m l₂
    if i.toNat ≤ size then do
      let (element, m) ← listGet m l₂ i
      let m ← listAppend m l₁ element
      appendFrom l₁ l₂ fuel (i + 1) m
    else .ok m

/-- `list_append_list`. No list gets shorter in the loop, so that it never ends once the counter
has taken all its values. -/
def listAppendList (m : Memory α) (l₁ l₂ : ListId) : Except ListFault (Memory α) :=
  appendFrom l₁ l₂ (UINT_MAX + 1) 1 m

def listCopy [Inhabited α] (m : Memory α) (l : ListId) : Except ListFault (ListId × Memory α) := do
  let (n, m) ← listNew m false []
  let m ← listAppendList m n l
  .ok (n, m)

/-- `int si = list_size(l); for (int i = 1; i <= si; ++i)`. The last increment takes the counter
beyond `si`. -/
def forEachIndex {σ : Type} (si : ℤ) (body : σ → UInt32 → Except ListFault σ) (s : σ) :
    Except ListFault σ := do
  let s ← forEach (List.range si.toNat) (fun s i => body s (UInt32.ofNat (i + 1))) s
  if si = INT_MAX then .error .signedOverflow else .ok s

def listMapR [Inhabited α] (m : Memory α) (l : ListId) (f : α → α) :
    Except ListFault (ListId × Memory α) := do
  let size ← listSize m l
  let (ret, m) ← listNew m false []
  let m ← forEachIndex (Int32.ofNat size).toInt (fun m i => do
    let (element, m) ← listGet m l i
    listAppend m ret (f element)) m
  .ok (ret, m)

/-- `list_each_r`: the elements that the function is called with, in order. -/
def listEachR (m : Memory α) (l : ListId) : Except ListFault (List α × Memory α) := do
  let size ← listSize m l
  forEachIndex (Int32.ofNat size).toInt (fun r i => do
    let (element, m) ← listGet r.2 l i
    .ok (r.1 ++ [element], m)) ([], m)

inductive ListOp (α : Type)
  | new (liFree : Bool) (elements : List α)
  | size (l : ListId)
  | get (l : ListId) (n : UInt32)
  | insert (l : ListId) (n : UInt32) (element : α)
  | remove (l : ListId) (n : UInt32)
  | append (l : ListId) (element : α)
  | appendList (l₁ l₂ : ListId)
  | copy (l : ListId)
  | mapR (l : ListId) (f : α → α)
  | eachR (l : ListId)

/-- What a call returns. -/
inductive Reply (α : Type)
  | done
  | size (n : ℕ)
  | element (e : α)
  | elements (es : List α)
  | list (l : ListId)
  deriving Repr, DecidableEq

def exec [Inhabited α] (m : Memory α) : ListOp α → Except ListFault (Reply α × Memory α)
  | .new liFree elements => (fun r => (.list r.1, r.2)) <$> listNew m liFree elements
  | .size l => (fun n => (.size n, m)) <$> listSize m l
  | .get l n => (fun r => (.element r.1, r.2)) <$> listGet m l n
  | .insert l n element => (fun m => (.done, m)) <$> listInsert m l n element
  | .remove l n => (fun m => (.done, m)) <$> listRemove m l n
  | .append l element => (fun m => (.done, m)) <$> listAppend m l element
  | .appendList l₁ l₂ => (fun m => (.done, m)) <$> listAppendList m l₁ l₂
  | .copy l => (fun r => (.list r.1, r.2)) <$> listCopy m l
  | .mapR l f => (fun r => (.list r.1, r.2)) <$> listMapR m l f
  | .eachR l => (fun r => (.elements r.1, r.2)) <$> listEachR m l

end TagFilesystem.Cutil
