import TagFilesystem.Library.Outcome
import TagFilesystem.Library.Linked
import TagFilesystem.Cutil.List

namespace TagFilesystem.Cutil

abbrev EntryId := ℕ
abbrev UtTableId := ℕ
abbrev HashTableId := ℕ

/-- `UT_hash_bucket`. -/
structure UtHashBucket where
  hhHead : Option EntryId
  count : UInt32
  expandMult : UInt32
  deriving Repr, DecidableEq

/-- `UT_hash_table`, with its array of buckets. -/
structure UtHashTable where
  buckets : List UtHashBucket
  numBuckets : UInt32
  log2NumBuckets : UInt32
  numItems : UInt32
  tail : EntryId
  idealChainMaxlen : UInt32
  nonidealItems : UInt32
  ineffExpands : UInt32
  noexpand : UInt32
  deriving Repr, DecidableEq

/-- An assignment to the bucket `i`. -/
def UtHashTable.setBucket (T : UtHashTable) (i : ℕ) (b : UtHashBucket) : UtHashTable :=
  { T with buckets := T.buckets.set i b }

/-- `struct ht_entry` with its `UT_hash_handle`. The key stands for the bytes and their number. -/
structure HtEntry (κ α : Type) where
  key : κ
  data : α
  /-- Not set before the entry is in a table. -/
  tbl : Option UtTableId
  prev : Option EntryId
  next : Option EntryId
  hhPrev : Option EntryId
  hhNext : Option EntryId
  hashv : UInt32
  deriving Repr, DecidableEq

inductive HtFault
  /-- The `struct hash_table` has been freed. -/
  | badTable
  /-- A null pointer or an entry that has been freed is dereferenced. -/
  | badEntry
  | badUtTable
  | uninitialized
  | outOfBounds
  | divisionByZero
  /-- A shift by the width of the type or more. -/
  | shiftTooFar
  /-- `uthash_fatal`, which is `exit(-1)`. -/
  | outOfMemory
  | endlessLoop
  /-- A fault of the list that `ht_to_list` makes. -/
  | list (fault : ListFault)
  deriving Repr, DecidableEq

/-- The entries and tables; a `struct hash_table` is its member `h`. -/
structure HtMemory (κ α : Type) where
  entries : Heap (HtEntry κ α)
  tables : Heap UtHashTable
  hashTables : Heap (Option EntryId)
  deriving Repr, DecidableEq

def HASH_INITIAL_NUM_BUCKETS : UInt32 := 32
def HASH_INITIAL_NUM_BUCKETS_LOG2 : UInt32 := 5
def HASH_BKT_CAPACITY_THRESH : UInt32 := 10

/-- `sizeof(UT_hash_table)` and `sizeof(UT_hash_bucket)`. -/
def sizeofUtHashTable : ℕ := 64
def sizeofUtHashBucket : ℕ := 16

variable {κ α : Type}

namespace HtMemory

def empty : HtMemory κ α := ⟨.empty, .empty, .empty⟩

def readEntry (m : HtMemory κ α) (a : EntryId) : Except HtFault (HtEntry κ α) :=
  match m.entries.get? a with
  | some e => .ok e
  | none => .error .badEntry

/-- An assignment to members of an entry. -/
def modifyEntry (m : HtMemory κ α) (a : EntryId) (f : HtEntry κ α → HtEntry κ α) :
    Except HtFault (HtMemory κ α) := do
  let e ← m.readEntry a
  .ok { m with entries := m.entries.write a (f e) }

/-- `if (p) p->… = …`. -/
def modifyEntry? (m : HtMemory κ α) (p : Option EntryId) (f : HtEntry κ α → HtEntry κ α) :
    Except HtFault (HtMemory κ α) :=
  match p with
  | some a => m.modifyEntry a f
  | none => .ok m

def readTable (m : HtMemory κ α) (t : UtTableId) : Except HtFault UtHashTable :=
  match m.tables.get? t with
  | some T => .ok T
  | none => .error .badUtTable

def writeTable (m : HtMemory κ α) (t : UtTableId) (T : UtHashTable) : HtMemory κ α :=
  { m with tables := m.tables.write t T }

/-- `(p)->hh.tbl`. -/
def tblOf (m : HtMemory κ α) (p : EntryId) : Except HtFault UtTableId := do
  let e ← m.readEntry p
  match e.tbl with
  | some t => .ok t
  | none => .error .uninitialized

end HtMemory

def readBucket (buckets : List UtHashBucket) (i : UInt32) : Except HtFault UtHashBucket :=
  match buckets[i.toNat]? with
  | some b => .ok b
  | none => .error .outOfBounds

/-- Stands for `malloc`: whether a request for so many bytes is granted. -/
abbrev Malloc := ℕ → Bool

def uthashMalloc (malloc : Malloc) (size : ℕ) : Except HtFault Unit :=
  if malloc size = true then .ok () else .error .outOfMemory

def hashJenMix (a b c : UInt32) : UInt32 × UInt32 × UInt32 :=
  let a := (a - b - c) ^^^ (c >>> 13)
  let b := (b - c - a) ^^^ (a <<< 8)
  let c := (c - a - b) ^^^ (b >>> 13)
  let a := (a - b - c) ^^^ (c >>> 12)
  let b := (b - c - a) ^^^ (a <<< 16)
  let c := (c - a - b) ^^^ (b >>> 5)
  let a := (a - b - c) ^^^ (c >>> 3)
  let b := (b - c - a) ^^^ (a <<< 10)
  let c := (c - a - b) ^^^ (b >>> 15)
  (a, b, c)

/-- Four bytes from position `n` on, the lowest one first; nothing stands behind the key. -/
def jenWord (key : List UInt8) (n : ℕ) : UInt32 :=
  (key.getD n 0).toUInt32 + ((key.getD (n + 1) 0).toUInt32 <<< 8) +
    ((key.getD (n + 2) 0).toUInt32 <<< 16) + ((key.getD (n + 3) 0).toUInt32 <<< 24)

/-- The loop of `HASH_JEN` over blocks of twelve bytes; it leaves the rest of the key. -/
def jenBlocks : ℕ → List UInt8 → UInt32 × UInt32 × UInt32 → List UInt8 × UInt32 × UInt32 × UInt32
  | 0, key, s => (key, s)
  | n + 1, key, (i, j, hashv) =>
    jenBlocks n (key.drop 12)
      (hashJenMix (i + jenWord key 0) (j + jenWord key 4) (hashv + jenWord key 8))

/-- `HASH_JEN`. The lowest byte of the last word for `hashv` is not used: its place is for the
length of the key. -/
def hashJen (key : List UInt8) : UInt32 :=
  let (rest, i, j, hashv) := jenBlocks (key.length / 12) key (0x9e3779b9, 0x9e3779b9, 0xfeedbeef)
  let hashv := hashv + UInt32.ofNat key.length
  (hashJenMix (i + jenWord rest 0) (j + jenWord rest 4)
    (hashv + jenWord (0 :: rest.drop 8) 0)).2.2

/-- The hash of a string. -/
def hashStr (key : CStr) : UInt32 := hashJen (key.map Subtype.val)

def hashToBkt (hashv numBkts : UInt32) : UInt32 := hashv &&& (numBkts - 1)

/-- `HASH_FIND_IN_BKT` at the entry `out`. -/
def hashFindInBkt [DecidableEq κ] (m : HtMemory κ α) (keyptr : κ) :
    ℕ → Option EntryId → Except HtFault (Option EntryId)
  | _, none => .ok none
  | 0, some _ => .error .endlessLoop
  | fuel + 1, some out => do
    let e ← m.readEntry out
    if e.key = keyptr then .ok (some out) else hashFindInBkt m keyptr fuel e.hhNext

/-- `HASH_FIND`. A chain that ends has no more entries than have been made. -/
def hashFind [DecidableEq κ] (hash : κ → UInt32) (m : HtMemory κ α) (head : Option EntryId)
    (keyptr : κ) : Except HtFault (Option EntryId) :=
  match head with
  | none => .ok none
  | some head => do
    let t ← m.tblOf head
    let T ← m.readTable t
    let b ← readBucket T.buckets (hashToBkt (hash keyptr) T.numBuckets)
    hashFindInBkt m keyptr m.entries.next b.hhHead

/-- What `HASH_EXPAND_BUCKETS` works on: the new array and the number of entries in it that are
beyond the ideal length of their chain. -/
structure Expansion (κ α : Type) where
  memory : HtMemory κ α
  newBuckets : List UtHashBucket
  nonidealItems : UInt32
  deriving Repr, DecidableEq

/-- The items beyond the ideal length and the multiple of the bucket, once it has `count` entries. -/
def countNonideal (ideal nonidealItems count mult : UInt32) : Except HtFault (UInt32 × UInt32) :=
  if ideal < count then
    if ideal = 0 then .error .divisionByZero else .ok (nonidealItems + 1, count / ideal)
  else .ok (nonidealItems, mult)

/-- One entry goes to the front of its new bucket; the next one of the old chain is returned. -/
def moveHandle (ideal numBuckets : UInt32) (s : Expansion κ α) (thh : EntryId) :
    Except HtFault (Option EntryId × Expansion κ α) := do
  let e ← s.memory.readEntry thh
  let bkt := hashToBkt e.hashv (numBuckets * 2)
  let newbkt ← readBucket s.newBuckets bkt
  let count := newbkt.count + 1
  let (nonideal, mult) ← countNonideal ideal s.nonidealItems count newbkt.expandMult
  let m ← s.memory.modifyEntry thh fun e => { e with hhPrev := none, hhNext := newbkt.hhHead }
  let m ← m.modifyEntry? newbkt.hhHead fun c => { c with hhPrev := some thh }
  .ok (e.hhNext, ⟨m, s.newBuckets.set bkt.toNat ⟨some thh, count, mult⟩, nonideal⟩)

/-- The inner loop of `HASH_EXPAND_BUCKETS`, over an old chain. -/
def moveChain (ideal numBuckets : UInt32) :
    ℕ → Option EntryId → Expansion κ α → Except HtFault (Expansion κ α)
  | _, none, s => .ok s
  | 0, some _, _ => .error .endlessLoop
  | fuel + 1, some thh, s => do
    let (nxt, s) ← moveHandle ideal numBuckets s thh
    moveChain ideal numBuckets fuel nxt s

/-- `ceil(n / b)` for the new number of buckets. -/
def idealChainMaxlen (T : UtHashTable) : UInt32 :=
  (T.numItems >>> (T.log2NumBuckets + 1)) +
    if T.numItems &&& (T.numBuckets * 2 - 1) ≠ 0 then 1 else 0

/-- The table after the expansion. After two in a row that have not helped there is no other. -/
def expandedTable (T : UtHashTable) (newBuckets : List UtHashBucket) (nonidealItems : UInt32) :
    UtHashTable :=
  let ineffExpands := if T.numItems >>> 1 < nonidealItems then T.ineffExpands + 1 else 0
  { T with
    buckets := newBuckets
    numBuckets := T.numBuckets * 2
    log2NumBuckets := T.log2NumBuckets + 1
    idealChainMaxlen := idealChainMaxlen T
    nonidealItems := nonidealItems
    ineffExpands := ineffExpands
    noexpand := if 1 < ineffExpands then 1 else T.noexpand }

def hashExpandBuckets (malloc : Malloc) (m : HtMemory κ α) (t : UtTableId) :
    Except HtFault (HtMemory κ α) := do
  let T ← m.readTable t
  uthashMalloc malloc (2 * T.numBuckets.toNat * sizeofUtHashBucket)
  if 32 ≤ (T.log2NumBuckets + 1).toNat then .error .shiftTooFar else do
  let s ← forEach (List.range T.numBuckets.toNat) (fun s i => do
      let b ← readBucket T.buckets (UInt32.ofNat i)
      moveChain (idealChainMaxlen T) T.numBuckets s.memory.entries.next b.hhHead s)
    (⟨m, List.replicate (2 * T.numBuckets.toNat) ⟨none, 0, 0⟩, 0⟩ : Expansion κ α)
  .ok (s.memory.writeTable t (expandedTable T s.newBuckets s.nonidealItems))

def hashAddToBkt (malloc : Malloc) (m : HtMemory κ α) (t : UtTableId) (bkt : UInt32)
    (addhh : EntryId) : Except HtFault (HtMemory κ α) := do
  let T ← m.readTable t
  let b ← readBucket T.buckets bkt
  let m ← m.modifyEntry addhh fun e => { e with hhNext := b.hhHead, hhPrev := none }
  let m ← m.modifyEntry? b.hhHead fun c => { c with hhPrev := some addhh }
  let b : UtHashBucket := ⟨some addhh, b.count + 1, b.expandMult⟩
  let m := m.writeTable t (T.setBucket bkt.toNat b)
  if (b.expandMult + 1) * HASH_BKT_CAPACITY_THRESH ≤ b.count ∧ T.noexpand ≠ 1 then
    hashExpandBuckets malloc m t
  else .ok m

def hashMakeTable (malloc : Malloc) (m : HtMemory κ α) (head : EntryId) :
    Except HtFault (HtMemory κ α) := do
  uthashMalloc malloc sizeofUtHashTable
  uthashMalloc malloc (HASH_INITIAL_NUM_BUCKETS.toNat * sizeofUtHashBucket)
  let t := m.tables.next
  let m := { m with tables := m.tables.alloc {
    buckets := List.replicate HASH_INITIAL_NUM_BUCKETS.toNat ⟨none, 0, 0⟩
    numBuckets := HASH_INITIAL_NUM_BUCKETS
    log2NumBuckets := HASH_INITIAL_NUM_BUCKETS_LOG2
    numItems := 0
    tail := head
    idealChainMaxlen := 0
    nonidealItems := 0
    ineffExpands := 0
    noexpand := 0 } }
  m.modifyEntry head fun e => { e with tbl := some t }

/-- The first part of `HASH_ADD_KEYPTR`: the entry becomes the last one, or the head of a new
table. -/
def hashAppend (malloc : Malloc) (m : HtMemory κ α) (head : Option EntryId) (add : EntryId) :
    Except HtFault (EntryId × HtMemory κ α) :=
  match head with
  | none => do
    let m ← m.modifyEntry add fun e => { e with prev := none }
    let m ← hashMakeTable malloc m add
    .ok (add, m)
  | some head => do
    let t ← m.tblOf head
    let T ← m.readTable t
    let m ← m.modifyEntry T.tail fun e => { e with next := some add }
    let m ← m.modifyEntry add fun e => { e with prev := some T.tail }
    .ok (head, m.writeTable t { T with tail := add })

/-- The second part of `HASH_ADD_KEYPTR`: the entry is counted and goes into its bucket. -/
def hashCountIn (malloc : Malloc) (hash : κ → UInt32) (m : HtMemory κ α) (head : EntryId) (keyptr : κ)
    (add : EntryId) : Except HtFault (HtMemory κ α) := do
  let t ← m.tblOf head
  let T ← m.readTable t
  let m := m.writeTable t { T with numItems := T.numItems + 1 }
  let m ← m.modifyEntry add fun e => { e with tbl := some t, hashv := hash keyptr }
  hashAddToBkt malloc m t (hashToBkt (hash keyptr) T.numBuckets) add

/-- `HASH_ADD_KEYPTR`; it gives the new head. -/
def hashAddKeyptr (malloc : Malloc) (hash : κ → UInt32) (m : HtMemory κ α) (head : Option EntryId)
    (keyptr : κ) (add : EntryId) : Except HtFault (EntryId × HtMemory κ α) := do
  let m ← m.modifyEntry add fun e => { e with next := none, key := keyptr }
  let (head, m) ← hashAppend malloc m head add
  let m ← hashCountIn malloc hash m head keyptr add
  .ok (head, m)

/-- `HASH_DEL_IN_BKT`, on the bucket `bkt` of the table `t`. -/
def hashDelInBkt (m : HtMemory κ α) (t : UtTableId) (bkt : UInt32) (hhDel : EntryId) :
    Except HtFault (HtMemory κ α) := do
  let T ← m.readTable t
  let b ← readBucket T.buckets bkt
  let e ← m.readEntry hhDel
  let hhHead := if b.hhHead = some hhDel then e.hhNext else b.hhHead
  let m := m.writeTable t (T.setBucket bkt.toNat ⟨hhHead, b.count - 1, b.expandMult⟩)
  let m ← m.modifyEntry? e.hhPrev fun p => { p with hhNext := e.hhNext }
  let e ← m.readEntry hhDel
  m.modifyEntry? e.hhNext fun n => { n with hhPrev := e.hhPrev }

/-- The tail of the table when the entry `delptr`, which is behind `prev`, is taken out. -/
def hashMoveTail (m : HtMemory κ α) (t : UtTableId) (T : UtHashTable) (delptr : EntryId)
    (prev : Option EntryId) : Except HtFault (HtMemory κ α) :=
  if delptr = T.tail then
    match prev with
    | some p => .ok (m.writeTable t { T with tail := p })
    | none => .error .badEntry
  else .ok m

/-- The part of `HASH_DELETE` on the order of insertion; it gives the new head. -/
def hashUnlink (m : HtMemory κ α) (head delptr : EntryId) :
    Except HtFault (Option EntryId × HtMemory κ α) := do
  let t ← m.tblOf head
  let T ← m.readTable t
  let e ← m.readEntry delptr
  let m ← hashMoveTail m t T delptr e.prev
  let m ← m.modifyEntry? e.prev fun p => { p with next := e.next }
  let head := if e.prev = none then e.next else some head
  let e ← m.readEntry delptr
  let m ← m.modifyEntry? e.next fun n => { n with prev := e.prev }
  .ok (head, m)

/-- `HASH_DELETE`; it gives the new head. The last entry takes the table with it. -/
def hashDelete (m : HtMemory κ α) (head delptr : EntryId) :
    Except HtFault (Option EntryId × HtMemory κ α) := do
  let e ← m.readEntry delptr
  if e.prev = none ∧ e.next = none then do
    let t ← m.tblOf head
    .ok (none, { m with tables := m.tables.free t })
  else do
    let (head, m) ← hashUnlink m head delptr
    match head with
    | none => .error .badEntry
    | some head => do
      let t ← m.tblOf head
      let T ← m.readTable t
      let e ← m.readEntry delptr
      let m ← hashDelInBkt m t (hashToBkt e.hashv T.numBuckets) delptr
      let T ← m.readTable t
      .ok (some head, m.writeTable t { T with numItems := T.numItems - 1 })

/-- `(tmp != NULL) ? (tmp)->hh.next : NULL`. -/
def nextOf (m : HtMemory κ α) (p : Option EntryId) : Except HtFault (Option EntryId) :=
  match p with
  | some p => do
    let e ← m.readEntry p
    .ok e.next
  | none => .ok none

/-- `HASH_ITER` from the entry `el` on; the one behind it is read before the body runs. -/
def hashIter {σ : Type} (memory : σ → HtMemory κ α) (body : σ → EntryId → Except HtFault σ) :
    ℕ → Option EntryId → Option EntryId → σ → Except HtFault σ
  | _, none, _, s => .ok s
  | 0, some _, _, _ => .error .endlessLoop
  | fuel + 1, some el, tmp, s => do
    let s ← body s el
    let tmp' ← nextOf (memory s) tmp
    hashIter memory body fuel tmp tmp' s

def hashCount (m : HtMemory κ α) (head : Option EntryId) : Except HtFault UInt32 :=
  match head with
  | some head => do
    let t ← m.tblOf head
    let T ← m.readTable t
    .ok T.numItems
  | none => .ok 0

end TagFilesystem.Cutil
