import TagFilesystem.Library.Outcome
import TagFilesystem.Library.Table
import TagFilesystem.Library.Heap
import TagFilesystem.Posix

/-!
# The data of `fuse_sqlite3/`

The tags and files in memory, with their identifiers, and the rows of the SQL tables of
`schema.sql`. SQLite is taken at its word: an `INSERT` that violates a primary key or a unique
constraint is rejected, foreign keys are not enforced. Tag objects live in a heap since
`tag_remove` frees them; file records are never changed nor freed. The field `realpath` of a
file record is left out: nothing reads it.
-/

namespace TagFilesystem.FuseSqlite3

abbrev HashTable (α : Type) := Table CStr α

abbrev TagId := ℕ

/-- The identifiers are of type `int`, and count up from 0: in the runs of the code at most `INT_MAX`
tags and files are made. -/
structure Tag where
  id : ℤ
  value : CStr
  deriving Repr, DecidableEq

structure File where
  id : ℤ
  name : CStr
  deriving Repr, DecidableEq

/-- A selected tag is `none` when it is `INVALID_TAG`. -/
structure Path where
  depth : ℕ
  realpath : CStr
  virtpath : CStr
  virtdirpath : CStr
  filename : CStr
  selectedTags : HashTable (Option TagId)
  deriving Repr, DecidableEq

/-- The rows of the tables `tag(t_id, t_name)`, `file(f_id, f_name)` and `tag_file(t_id, f_id)`. -/
structure Database where
  tag : List (ℤ × CStr)
  file : List (ℤ × CStr)
  tagFile : List (ℤ × ℤ)
  deriving Repr, DecidableEq

inductive Fault
  /-- `INVALID_TAG` is dereferenced. -/
  | invalidTag
  /-- A freed `struct tag` is accessed. -/
  | freedTag
  deriving Repr, DecidableEq

structure Store where
  tags : HashTable TagId
  tagHeap : Heap Tag
  /-- The counter of `next_tag_id`. -/
  nextTagId : ℤ
  files : HashTable File
  /-- The counter of `next_file_id`. -/
  nextFileId : ℤ
  db : Database
  deriving DecidableEq

/-- The store after the initializers have run. -/
def Store.init : Store := ⟨.empty, .empty, 0, .empty, 0, ⟨[], [], []⟩⟩

/-- What the system answers during one callback. -/
structure Env where
  realdirpath : CStr
  /-- `stat`; `none` for failure. -/
  stat : CStr → Option Stat

def Store.readTag (s : Store) (t : Option TagId) : Except Fault Tag :=
  match t with
  | none => .error .invalidTag
  | some t =>
    match s.tagHeap.get? t with
    | some T => .ok T
    | none => .error .freedTag

/-- `db_add_` on the rows of one table: the result and the rows. -/
def dbAdd (rows : List (ℤ × CStr)) (name : CStr) (id : ℤ) : ℤ × List (ℤ × CStr) :=
  if id ∈ rows.map Prod.fst ∨ name ∈ rows.map Prod.snd then (-1, rows)
  else (0, rows ++ [(id, name)])

def dbAddFile (db : Database) (name : CStr) (id : ℤ) : ℤ × Database :=
  ((dbAdd db.file name id).1, { db with file := (dbAdd db.file name id).2 })

def dbAddTag (db : Database) (name : CStr) (id : ℤ) : ℤ × Database :=
  ((dbAdd db.tag name id).1, { db with tag := (dbAdd db.tag name id).2 })

def dbTagFile (db : Database) (tid fid : ℤ) : ℤ × Database :=
  if (tid, fid) ∈ db.tagFile then (-1, db)
  else (0, { db with tagFile := db.tagFile ++ [(tid, fid)] })

def dbUntagFile (db : Database) (tid fid : ℤ) : ℤ × Database :=
  (0, { db with tagFile := db.tagFile.filter fun r => ¬(r.1 = tid ∧ r.2 = fid) })

/-- `tag_id_list_string`: the identifiers in the list. -/
def tagIdList (s : Store) (selectedTags : HashTable (Option TagId)) : Except Fault (List ℤ) :=
  forEach selectedTags.entries (fun ids e => do
    let T ← s.readTag e.2
    .ok (ids ++ [T.id])) []

def dbFileMatchTags (s : Store) (fid : ℤ) (selectedTags : HashTable (Option TagId)) :
    Except Fault Bool := do
  let ids ← tagIdList s selectedTags
  let count := (s.db.tagFile.filter fun r => r.2 = fid ∧ r.1 ∈ ids).length
  .ok (if count = selectedTags.size then true else false)

def fileGet (s : Store) (value : CStr) : Option File := s.files.get? value

/-- `file_new`: the record is numbered and entered into the SQL table. -/
def fileNew (s : Store) (name : CStr) : File × Store :=
  (⟨s.nextFileId, name⟩, { s with
    nextFileId := s.nextFileId + 1
    db := (dbAddFile s.db name s.nextFileId).2 })

def fileGetOrCreate (s : Store) (value : CStr) : File × Store :=
  match s.files.get? value with
  | some F => (F, s)
  | none =>
    let (F, s) := fileNew s value
    (F, { s with files := s.files.add value F })

def tagNew (s : Store) (value : CStr) : TagId × Store :=
  (s.tagHeap.next, { s with
    tagHeap := s.tagHeap.alloc ⟨s.nextTagId, value⟩
    nextTagId := s.nextTagId + 1
    db := (dbAddTag s.db value s.nextTagId).2 })

def tagGetOrCreate (s : Store) (value : CStr) : TagId × Store :=
  match s.tags.get? value with
  | some t => (t, s)
  | none =>
    let (t, s) := tagNew s value
    (t, { s with tags := s.tags.add value t })

/-- `tag_get`; `none` stands for `INVALID_TAG`. -/
def tagGet (s : Store) (value : CStr) : Option TagId := s.tags.get? value

def tagExist (s : Store) (value : CStr) : Bool := (tagGet s value).isSome

def tagRemove (s : Store) (t : Option TagId) : Except Fault Store := do
  let T ← s.readTag t
  .ok { s with
    tags := s.tags.erase T.value
    tagHeap := match t with
      | some t => s.tagHeap.free t
      | none => s.tagHeap }

/-- `string_split` counts the components in an `int`: `dirpath` has at most `INT_MAX` of them. -/
def computeSelectedTags (s : Store) (dirpath : CStr) : HashTable (Option TagId) :=
  if dirpath = dot then .empty
  else (stringSplit dirpath [slash]).foldl (fun sel name => sel.add name (tagGet s name)) .empty

def tagFile (s : Store) (t : Option TagId) (F : File) : Except Fault Store := do
  let T ← s.readTag t
  .ok { s with db := (dbTagFile s.db T.id F.id).2 }

def untagFile (s : Store) (t : Option TagId) (F : File) : Except Fault Store := do
  let T ← s.readTag t
  .ok { s with db := (dbUntagFile s.db T.id F.id).2 }

def pathRealpath (env : Env) (userPath : CStr) : CStr :=
  appendDir env.realdirpath (basename userPath)

def pathCreate (env : Env) (s : Store) (userPath : CStr) (isTag : Bool) : Path :=
  let dirpath := if isTag then userPath else dirname userPath
  let selectedTags := computeSelectedTags s dirpath
  ⟨selectedTags.size, pathRealpath env userPath, userPath, dirname userPath, basename userPath,
    selectedTags⟩

end TagFilesystem.FuseSqlite3
