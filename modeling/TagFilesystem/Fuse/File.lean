import TagFilesystem.Fuse.Store

namespace TagFilesystem.Fuse

def notifyDescriptorsPoll (env : Env) (s : Store) (f : FileId) (event : UInt32) :
    Except Fault Store := do
  let F ← s.readFile f
  let revents := F.descriptors.entries.foldl
    (fun r e => if (s.pollHandle env e.2).isSome then r ||| event else r) F.revents
  .ok (s.writeFile f { F with revents := revents })

def fileAddTag (env : Env) (s : Store) (f : FileId) (t : TagId) : Except Fault Store := do
  let T ← s.readTag t
  let F ← s.readFile f
  notifyDescriptorsPoll env (s.writeFile f { F with tags := F.tags.addNew T.value t }) f POLLIN

def fileRemoveTag (env : Env) (s : Store) (f : FileId) (t : TagId) : Except Fault Store := do
  let T ← s.readTag t
  let F ← s.readFile f
  notifyDescriptorsPoll env (s.writeFile f { F with tags := F.tags.erase T.value }) f POLLOUT

/-- `file_list`: `ht_to_list` puts each entry at the front. -/
def fileList (s : Store) : List FileId := (s.files.entries.map Prod.snd).reverse

def fileNew (name : CStr) : File := ⟨name, .empty, .empty, 0⟩

def fileGet (s : Store) (value : CStr) : Option FileId := s.files.get? value

def fileGetOrCreate (s : Store) (value : CStr) : FileId × Store :=
  match s.files.get? value with
  | some f => (f, s)
  | none =>
    (s.fileHeap.next, { s with
      fileHeap := s.fileHeap.alloc (fileNew value)
      files := s.files.add value s.fileHeap.next })

/-- `file_get_tags_string`: the string and its length, which the source keeps in an `int`. The names
of the tags of one file have fewer than 2³¹ bytes together. -/
def fileGetTagsString (s : Store) (f : FileId) : Except Fault (CStr × ℕ) := do
  let F ← s.readFile f
  let (str, size, _) ← forEach F.tags.entries
    (fun (r : CStr × ℕ × ℕ) e => do
      let T ← s.readTag e.2
      let str := r.1 ++ (if r.2.2 = 0 then [] else cstr [32]) ++ T.value
      .ok (str, str.length, r.2.2 + 1))
    ([], 0, 0)
  .ok (str, size)

/-- `HASH_ADD_PTR` takes the key from the member `fd` of the entry. -/
def fileAddDescriptor (s : Store) (f : Option FileId) (a : Addr) : Except Fault Store :=
  match f with
  | none => .error .badFile
  | some f => do
    let F ← s.readFile f
    .ok (s.writeFile f { F with descriptors := F.descriptors.add a a })

/-- `HASH_FIND_PTR` takes the key from the memory that the pointer `fd` points to. -/
def fileRemoveDescriptor (s : Store) (f : Option FileId) (fd : FileDescriptor) :
    Except Fault Store :=
  match f with
  | none => .error .badFile
  | some f => do
    let F ← s.readFile f
    .ok (s.writeFile f { F with descriptors := F.descriptors.erase fd.pathAddr })

end TagFilesystem.Fuse
