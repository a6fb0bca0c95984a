import TagFilesystem.Fuse.File

namespace TagFilesystem.Fuse

variable [Counting]

def tagDecRef (s : Store) (t : TagId) : Except Fault Store := do
  let T ← s.readTag t
  let s := s.writeTag t { T with refCount := Counting.toInt (T.refCount - 1) }
  if Counting.toInt (T.refCount - 1) = 0 then
    .ok { s with tags := s.tags.erase T.value, tagHeap := s.tagHeap.free t }
  else .ok s

def tagIncRef (s : Store) (t : TagId) : Except Fault Store := do
  let T ← s.readTag t
  .ok (s.writeTag t { T with refCount := Counting.toInt (T.refCount + 1) })

def tagNew (value : CStr) (inUse : Bool) : Tag := ⟨value, .empty, inUse, 0⟩

/-- `tag_get_or_create__`. -/
def tagGetOrCreateIn (s : Store) (value : CStr) (inUse : Bool) : TagId × Store :=
  match s.tags.get? value with
  | some t => (t, s)
  | none =>
    (s.tagHeap.next, { s with
      tagHeap := s.tagHeap.alloc (tagNew value inUse)
      tags := s.tags.add value s.tagHeap.next })

def tagGetOrCreate (s : Store) (value : CStr) : Except Fault (TagId × Store) := do
  let (t, s) := tagGetOrCreateIn s value true
  let s ← tagIncRef s t
  .ok (t, s)

/-- `tag_get`; `none` stands for `INVALID_TAG`. -/
def tagGet (s : Store) (value : CStr) : Option TagId := s.tags.get? value

def tagAddFile (s : Store) (t : TagId) (f : FileId) : Except Fault Store := do
  let T ← s.readTag t
  let F ← s.readFile f
  .ok (s.writeTag t { T with files := T.files.addNew F.name f, inUse := true })

def tagRemoveFile (s : Store) (t : TagId) (f : FileId) : Except Fault Store := do
  let T ← s.readTag t
  let F ← s.readFile f
  .ok (s.writeTag t { T with files := T.files.erase F.name })

def tagRemove (env : Env) (s : Store) (t : TagId) : Except Fault Store := do
  let T ← s.readTag t
  let tmp : HashTable FileId := T.files.entries.foldl (fun tmp e => tmp.add T.value e.2) .empty
  let s ← forEach tmp.entries (fun s e => fileRemoveTag env s e.2 t) s
  let T ← s.readTag t
  tagDecRef { s with tags := s.tags.erase T.value } t

/-- `string_split` counts the components in an `int`: `dirpath` has at most `INT_MAX` of them. -/
def computeSelectedTags (s : Store) (dirpath : CStr) : Except Fault (HashTable TagId × Store) :=
  if dirpath = dot then .ok (.empty, s)
  else forEach (stringSplit dirpath [slash])
    (fun (r : HashTable TagId × Store) name => do
      let (t, s) := match tagGet r.2 name with
        | some t => (t, r.2)
        | none => tagGetOrCreateIn r.2 name false
      let s ← tagIncRef s t
      .ok (r.1.add name t, s))
    (.empty, s)

def freeSelectedTags (env : Env) (s : Store) (selectedTags : HashTable TagId) :
    Except Fault Store :=
  forEach selectedTags.entries (fun s e => do
    let T ← s.readTag e.2
    if T.inUse = false then tagRemove env s e.2 else .ok s) s

/-- `tag_list`: `ht_to_list` puts each entry at the front. -/
def tagList (s : Store) : List TagId := (s.tags.entries.map Prod.snd).reverse

def tagFile (env : Env) (s : Store) (t : TagId) (f : FileId) : Except Fault Store := do
  let s ← fileAddTag env s f t
  tagAddFile s t f

def untagFile (env : Env) (s : Store) (t : TagId) (f : FileId) : Except Fault Store := do
  let s ← fileRemoveTag env s f t
  tagRemoveFile s t f

end TagFilesystem.Fuse
