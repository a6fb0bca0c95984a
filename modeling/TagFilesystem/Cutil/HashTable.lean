import TagFilesystem.Cutil.Uthash
import TagFilesystem.Cutil.List

/-!
# `cutil/hash_table.c`

The locks are left out. What `HASH_FIND` leaves in `entry` is an entry with the key, or `NULL`.
-/

namespace TagFilesystem.Cutil

variable {κ α : Type}

namespace HtMemory

/-- The member `h`. -/
def readHashTable (m : HtMemory κ α) (h : HashTableId) : Except HtFault (Option EntryId) :=
  match m.hashTables.get? h with
  | some head => .ok head
  | none => .error .badTable

def writeHashTable (m : HtMemory κ α) (h : HashTableId) (head : Option EntryId) : HtMemory κ α :=
  { m with hashTables := m.hashTables.write h head }

/-- `malloc(sizeof*entry)`, with the members `data` and `key`. -/
def newEntry (m : HtMemory κ α) (key : κ) (data : α) : EntryId × HtMemory κ α :=
  (m.entries.next, { m with entries := m.entries.alloc ⟨key, data, none, none, none, none, none, 0⟩ })

def freeEntry (m : HtMemory κ α) (a : EntryId) : Except HtFault (HtMemory κ α) := do
  let _ ← m.readEntry a
  .ok { m with entries := m.entries.free a }

end HtMemory

/-- The number is converted to `int`. -/
def htEntryCount (m : HtMemory κ α) (h : HashTableId) : Except HtFault Int32 := do
  let head ← m.readHashTable h
  let n ← hashCount m head
  .ok n.toInt32

/-- `ht_create`; its arguments are not used. -/
def htCreate (m : HtMemory κ α) : HashTableId × HtMemory κ α :=
  (m.hashTables.next, { m with hashTables := m.hashTables.alloc none })

/-- A new entry is put into the table. -/
def htInsert (malloc : Malloc) (hash : κ → UInt32) (m : HtMemory κ α) (h : HashTableId) (key : κ)
    (data : α) : Except HtFault (HtMemory κ α) := do
  let (entry, m) := m.newEntry key data
  let head ← m.readHashTable h
  let (head, m) ← hashAddKeyptr malloc hash m head key entry
  .ok (m.writeHashTable h (some head))

def htAddEntry (malloc : Malloc) (hash : κ → UInt32) (m : HtMemory κ α) (h : HashTableId) (key : κ)
    (data : α) : Except HtFault (ℤ × HtMemory κ α) := do
  let m ← htInsert malloc hash m h key data
  .ok (0, m)

/-- `HASH_DEL` on the member `h`, and the entry is freed. -/
def htDelete (m : HtMemory κ α) (h : HashTableId) (entry : EntryId) :
    Except HtFault (HtMemory κ α) := do
  let head ← m.readHashTable h
  match head with
  | none => .error .badEntry
  | some head => do
    let (head, m) ← hashDelete m head entry
    let m := m.writeHashTable h head
    m.freeEntry entry

/-- `HASH_ITER` over the member `h`. -/
def htIter {σ : Type} (m : HtMemory κ α) (h : HashTableId) (memory : σ → HtMemory κ α)
    (body : σ → EntryId → Except HtFault σ) (s : σ) : Except HtFault σ := do
  let head ← m.readHashTable h
  let tmp ← nextOf m head
  hashIter memory body m.entries.next head tmp s

def htFree (m : HtMemory κ α) (h : HashTableId) : Except HtFault (HtMemory κ α) := do
  let m ← htIter m h id (fun m entry => htDelete m h entry) m
  let _ ← m.readHashTable h
  .ok { m with hashTables := m.hashTables.free h }

/-- `ht_for_each`. The function does not change the table: the lock is held. -/
def htForEach {σ : Type} (m : HtMemory κ α) (h : HashTableId) (fn : κ → α → σ → σ) (args : σ) :
    Except HtFault σ :=
  htIter m h (fun _ => m) (fun args entry => do
    let e ← m.readEntry entry
    .ok (fn e.key e.data args)) args

/-- `ht_to_list`, with the memory of the lists. -/
def htToList [Inhabited α] (m : HtMemory κ α) (h : HashTableId) (lists : Memory α) :
    Except HtFault (ListId × Memory α) := do
  let (l, lists) ← (listNew lists false []).mapError .list
  let lists ← htIter m h (fun _ => m) (fun lists entry => do
    let e ← m.readEntry entry
    (listAdd lists l e.data).mapError .list) lists
  .ok (l, lists)

variable [DecidableEq κ]

def htFind (hash : κ → UInt32) (m : HtMemory κ α) (h : HashTableId) (key : κ) :
    Except HtFault (Option EntryId) := do
  let head ← m.readHashTable h
  hashFind hash m head key

def htAddUniqueEntry (malloc : Malloc) (hash : κ → UInt32) (m : HtMemory κ α) (h : HashTableId)
    (key : κ) (data : α) : Except HtFault (ℤ × HtMemory κ α) := do
  let entry ← htFind hash m h key
  match entry with
  | none => do
    let m ← htInsert malloc hash m h key data
    .ok (0, m)
  | some _ => .ok (-1, m)

def htRemoveEntry (hash : κ → UInt32) (m : HtMemory κ α) (h : HashTableId) (key : κ) :
    Except HtFault (ℤ × HtMemory κ α) := do
  let entry ← htFind hash m h key
  match entry with
  | some entry => do
    let m ← htDelete m h entry
    .ok (0, m)
  | none => .ok (-1, m)

def htHasEntry (hash : κ → UInt32) (m : HtMemory κ α) (h : HashTableId) (key : κ) :
    Except HtFault Bool := do
  let entry ← htFind hash m h key
  .ok entry.isSome

/-- `ht_get_entry`: the data that it stores in `*ret`, if it returns 0. -/
def htGetEntry (hash : κ → UInt32) (m : HtMemory κ α) (h : HashTableId) (key : κ) :
    Except HtFault (Option α) := do
  let entry ← htFind hash m h key
  match entry with
  | some entry => do
    let e ← m.readEntry entry
    .ok (some e.data)
  | none => .ok none

inductive HtOp (κ α : Type)
  | create
  | add (h : HashTableId) (key : κ) (data : α)
  | addUnique (h : HashTableId) (key : κ) (data : α)
  | remove (h : HashTableId) (key : κ)
  | has (h : HashTableId) (key : κ)
  | get (h : HashTableId) (key : κ)
  | forEach (h : HashTableId)
  | count (h : HashTableId)
  | free (h : HashTableId)

/-- What a call returns; for `ht_for_each` the arguments of the calls of the function. -/
inductive HtReply (κ α : Type)
  | table (h : HashTableId)
  | err (n : ℤ)
  | bool (b : Bool)
  | data (d : Option α)
  | calls (l : List (κ × α))
  | count (n : Int32)
  | done
  deriving Repr, DecidableEq

def htExec (malloc : Malloc) (hash : κ → UInt32) (m : HtMemory κ α) :
    HtOp κ α → Except HtFault (HtReply κ α × HtMemory κ α)
  | .create => .ok (.table (htCreate m).1, (htCreate m).2)
  | .add h key data => (fun r => (.err r.1, r.2)) <$> htAddEntry malloc hash m h key data
  | .addUnique h key data => (fun r => (.err r.1, r.2)) <$> htAddUniqueEntry malloc hash m h key data
  | .remove h key => (fun r => (.err r.1, r.2)) <$> htRemoveEntry hash m h key
  | .has h key => (fun b => (.bool b, m)) <$> htHasEntry hash m h key
  | .get h key => (fun d => (.data d, m)) <$> htGetEntry hash m h key
  | .forEach h => (fun l => (.calls l, m)) <$> htForEach m h (fun key data l => l ++ [(key, data)]) []
  | .count h => (fun n => (.count n, m)) <$> htEntryCount m h
  | .free h => (fun m => (.done, m)) <$> htFree m h

end TagFilesystem.Cutil
