import TagFilesystem.FuseLowlevel.Store

namespace TagFilesystem.FuseLowlevel

def tagNew (value : CStr) : Tag := ⟨value, .empty⟩

def tagGetOrCreate (s : Store) (value : CStr) : TagId × Store :=
  match s.tags.get? value with
  | some t => (t, s)
  | none =>
    (s.tagHeap.next, { s with
      tagHeap := s.tagHeap.alloc (tagNew value)
      tags := s.tags.add value s.tagHeap.next })

/-- `tag_get`; `none` stands for `INVALID_TAG`. -/
def tagGet (s : Store) (value : CStr) : Option TagId := s.tags.get? value

def tagExist (s : Store) (value : CStr) : Bool := (tagGet s value).isSome

def tagRemove (s : Store) (t : Option TagId) : Except Fault Store := do
  let T ← s.readTag t
  let s ← forEach T.files.entries (fun s e => do
    let F ← s.readFile e.2
    .ok (s.writeFile e.2 { F with tags := F.tags.erase T.value })) s
  .ok { s with
    tags := s.tags.erase T.value
    tagHeap := match t with
      | some t => s.tagHeap.free t
      | none => s.tagHeap }

/-- `tag_list`: `ht_to_list` puts each entry at the front. -/
def tagList (s : Store) : List TagId := (s.tags.entries.map Prod.snd).reverse

def tagFile (s : Store) (t : Option TagId) (f : FileId) : Except Fault Store := do
  let T ← s.readTag t
  let F ← s.readFile f
  match t with
  | none => .error .invalidTag
  | some t =>
    .ok ((s.writeTag t { T with files := T.files.addNew F.name f }).writeFile f
      { F with tags := F.tags.addNew T.value t })

def untagFile (s : Store) (t : Option TagId) (f : FileId) : Except Fault Store := do
  let T ← s.readTag t
  let F ← s.readFile f
  match t with
  | none => .error .invalidTag
  | some t =>
    .ok ((s.writeFile f { F with tags := F.tags.erase T.value }).writeTag t
      { T with files := T.files.erase F.name })

/-- `file_list`: `ht_to_list` puts each entry at the front. -/
def fileList (s : Store) : List FileId := (s.files.entries.map Prod.snd).reverse

/-- `tag_db_dump`: the text written to `output`. -/
def tagDbDump (s : Store) : Except Fault CStr :=
  forEach (fileList s) (fun out f => do
    let F ← s.readFile f
    if F.tags.size = 0 then .ok out
    else do
      let lines ← forEach F.tags.entries (fun lines e => do
        let T ← s.readTag (some e.2)
        .ok (lines ++ T.value ++ [newline])) []
      .ok (out ++ openBracket :: F.name ++ [closeBracket, newline] ++ lines ++ [newline])) []

end TagFilesystem.FuseLowlevel
