import TagFilesystem.Fuse.Tag

namespace TagFilesystem.Fuse

variable [Counting]

def pathRealpath (env : Env) (userPath : CStr) : CStr :=
  appendDir env.realdirpath (basename userPath)

def pathCreate (env : Env) (s : Store) (userPath : CStr) (isTag : Bool) :
    Except Fault (Path × Store) := do
  let dirpath := if isTag then userPath else dirname userPath
  let (selectedTags, s) ← computeSelectedTags s dirpath
  .ok (⟨pathRealpath env userPath, userPath, dirname userPath, basename userPath, selectedTags⟩, s)

def pathDelete (env : Env) (s : Store) (path : Path) : Except Fault Store :=
  freeSelectedTags env s path.selectedTags

def pathSet (env : Env) (virtdirpath filename : CStr) (selectedTags : HashTable TagId) : Path :=
  ⟨appendDir env.realdirpath filename, appendDir virtdirpath filename, virtdirpath, filename,
    selectedTags⟩

/-- The part of `fd_open` that looks up the tag a directory stands for. -/
def fdOpenTag (s : Store) (path : Path) (isTag : Bool) :
    Except Fault (Except ℤ (Option TagId)) :=
  if isTag = true ∧ path.virtpath ≠ [slash] then
    match tagGet s path.filename with
    | none => .ok (.error (-ENOENT))
    | some t => do
      let T ← s.readTag t
      .ok (if T.inUse = true then .ok (some t) else .error (-ENOENT))
  else .ok (.ok none)

/-- `fd_open`; the outer `Except` is a fault, the inner one an `ERR_PTR`. -/
def fdOpen (env : Env) (s : Store) (path : Path) (m : Malloc) (flags : ℤ) (isTag : Bool) :
    Except Fault (Except ℤ Addr × Store) :=
  match if isTag = true then .ok (-1) else env.openFile path.realpath flags with
  | .error errno => .ok (.error (-errno), s)
  | .ok fh => do
    match ← fdOpenTag s path isTag with
    | .error e => .ok (.error e, s)
    | .ok tag =>
      match m.fd with
      | none => .ok (.error (-ENOMEM), s)
      | some a => do
        let file := if isTag = true then none else fileGet s path.filename
        let s ← if isTag = true then .ok s else fileAddDescriptor s file a
        let fd : FileDescriptor := ⟨path, m.path, isTag, path.filename = tagFilename, none,
          file, tag, fh⟩
        .ok (.ok a, { s with fds := s.fds.add a fd })

def fdClose (env : Env) (s : Store) (a : Addr) : Except Fault (ℤ × Store) := do
  let fd ← s.readFd a
  let err := match env.close fd.fh with
    | some errno => -errno
    | none => 0
  let s ← pathDelete env s fd.path
  let s ← if fd.isTag = true then .ok s else fileRemoveDescriptor s fd.file fd
  .ok (err, { s with fds := s.fds.erase a })

/-- `fd_read`: the result and, unless it is an error, the buffer. The result is an `int`, so at most
`INT_MAX` bytes are asked for. -/
def fdRead (env : Env) (fd : FileDescriptor) (len : ℕ) (off : ℤ) : ℤ × List UInt8 :=
  match env.read fd.fh len off with
  | .error errno => (-errno, [])
  | .ok bytes => (bytes.length, padded bytes len)

def fdWrite (env : Env) (fd : FileDescriptor) (buffer : List UInt8) (off : ℤ) : ℤ :=
  match env.write fd.fh buffer off with
  | .error errno => -errno
  | .ok n => n

end TagFilesystem.Fuse
