import TagFilesystem.Fuse.Path
import TagFilesystem.Fuse.Database

namespace TagFilesystem.Fuse

variable [Counting]

def fileMatchesTags (s : Store) (f : FileId) (selectedTags : HashTable TagId) :
    Except Fault Bool := do
  let F ← s.readFile f
  forEach selectedTags.entries (fun isMatch e => do
    let T ← s.readTag e.2
    .ok (if F.tags.contains T.value = true then isMatch else false)) true

/-- What an open gives: its result, negative for an error, and the store. -/
def tagOpen (env : Env) (s : Store) (userPath : CStr) (m : Malloc) (flags : ℤ) (isTag : Bool) :
    Except Fault (ℤ × Store) := do
  let (path, s) ← pathCreate env s userPath isTag
  let (fd, s) ← fdOpen env s path m flags isTag
  match fd with
  -- the path is not deleted
  | .error e => .ok (e, { s with leaked := s.leaked.add m.path path })
  | .ok _ => .ok (0, s)

def tagReleaseGeneric (env : Env) (s : Store) (a : Addr) : Except Fault (ℤ × Store) := fdClose env s a

/-- `stat(realdirpath, stbuf)`. -/
def statRoot (env : Env) : ℤ × Option Stat :=
  match env.stat env.realdirpath with
  | some st => (0, some st)
  | none => (-1, none)

/-- `getattr_intra`: the result, the buffer if it has been filled, and the store. -/
def getattrIntra (env : Env) (s : Store) (p : Path) : Except Fault (ℤ × Option Stat × Store) :=
  match env.stat p.realpath with
  | none => .ok ((statRoot env).1, (statRoot env).2, s)
  | some st =>
    if st.isDir = true then .ok ((statRoot env).1, (statRoot env).2, s)
    else do
      let (f, s) := fileGetOrCreate s p.filename
      if p.selectedTags.size > 0 then
        let isMatch ← fileMatchesTags s f p.selectedTags
        .ok (if isMatch = true then 0 else -ENOENT, some st, s)
      else if p.filename = tagFilename then .ok (0, some { st with stSize := LONG_MAX }, s)
      else .ok (0, some st, s)

def tagGetattr (env : Env) (s : Store) (userPath : CStr) : Except Fault (ℤ × Option Stat × Store) := do
  let (path, s) ← pathCreate env s userPath false
  let (res, st, s) ← getattrIntra env s path
  let s ← pathDelete env s path
  .ok (res, st, s)

def tagFgetattr (env : Env) (s : Store) (a : Addr) : Except Fault (ℤ × Option Stat × Store) := do
  let fd ← s.readFd a
  getattrIntra env s fd.path

def tagSetxattr (_userPath : CStr) : ℤ := -EPERM

/-- `tag_getxattr_list_tags`: the result, the bytes written to `value`, and the store. -/
def tagGetxattrListTags (env : Env) (s : Store) (userPath : CStr) (size : ℕ) :
    Except Fault (ℤ × List UInt8 × Store) := do
  let (p, s) ← pathCreate env s userPath false
  let (err, st, s) ← getattrIntra env s p
  if err ≠ 0 then
    let s ← pathDelete env s p
    .ok (err, [], s)
  else if (st.map Stat.isDir).getD false = true then
    let s ← pathDelete env s p
    .ok (-EISDIR, [], s)
  else
    let (f, s) := fileGetOrCreate s p.filename
    let (str, len) ← fileGetTagsString s f
    let s ← pathDelete env s p
    .ok (len, strncpy str size, s)

/-- The strings `tags`, `fs_type` and `fuse_tag`. -/
def attrTags : CStr := cstr [116, 97, 103, 115]
def attrFsType : CStr := cstr [102, 115, 95, 116, 121, 112, 101]
def fsType : CStr := cstr [102, 117, 115, 101, 95, 116, 97, 103]

def tagGetxattrFsType (size : ℕ) : ℤ × List UInt8 := (fsType.length + 1, strncpy fsType size)

def tagGetxattr (env : Env) (s : Store) (userPath name : CStr) (size : ℕ) :
    Except Fault (ℤ × List UInt8 × Store) :=
  if name = attrTags then tagGetxattrListTags env s userPath size
  else if name = attrFsType then
    .ok ((tagGetxattrFsType size).1, (tagGetxattrFsType size).2, s)
  else .ok (-ENODATA, [], s)

def pathUnlink (env : Env) (s : Store) (fd : Path) : Except Fault (ℤ × Store) :=
  match fileGet s fd.filename with
  | none => .ok (-ENOENT, s)
  | some f => do
    let s ← forEach fd.selectedTags.entries (fun s e => do
      let s ← untagFile env s e.2 f
      let T ← s.readTag e.2
      -- the last file of a tag takes the tag with it
      if T.files.size = 0 then tagRemove env s e.2 else .ok s) s
    .ok (0, s)

def tagUnlink (env : Env) (s : Store) (userPath : CStr) : Except Fault (ℤ × Store) :=
  if getCharacterCount userPath slash ≤ 1 then .ok (-EPERM, s)
  else do
    let (fd, s) ← pathCreate env s userPath false
    let (res, s) ← pathUnlink env s fd
    let s ← pathDelete env s fd
    .ok (res, s)

def tagRmdirNoop (_userPath : CStr) : ℤ := 0

def tagNoopMkdir (_userPath : CStr) : ℤ := 0

/-- `tag_mkdir`, which only `tag_link` calls. -/
def tagMkdir (s : Store) (userPath : CStr) : Except Fault (ℤ × Store) :=
  if getCharacterCount userPath slash > 1 then .ok (-EPERM, s)
  else
    let filename := basename userPath
    match tagGet s filename with
    | some t => do
      let T ← s.readTag t
      if T.inUse = true then .ok (-EEXIST, s)
      else .ok (0, s.writeTag t { T with inUse := true })
    | none => do
      let (_, s) ← tagGetOrCreate s filename
      .ok (0, s)

/-- The names given to `filler`, and the store. -/
def readdirListFiles (env : Env) (s : Store) (dirpath : Path) : Except Fault (List CStr × Store) :=
  forEach env.dirents (fun (r : List CStr × Store) dirent =>
    if dirent.isDir = true then .ok r
    else do
      let p := pathSet env dirpath.virtpath dirent.name dirpath.selectedTags
      let (res, _, s) ← getattrIntra env r.2 p
      .ok (if res < 0 then r.1 else r.1 ++ [dirent.name], s)) ([], s)

def readdirListTagsMode1 (s : Store) (selectedTags : HashTable TagId) :
    Except Fault (List CStr) :=
  forEach (tagList s) (fun out t => do
    let T ← s.readTag t
    .ok (if selectedTags.contains T.value = false ∧ T.inUse = true then out ++ [T.value] else out)) []

def readdirGetSelectedFiles (s : Store) (selectedTags : HashTable TagId) :
    Except Fault (HashTable FileId) := do
  let selectedFiles ← forEach selectedTags.entries (fun selectedFiles e => do
    let T ← s.readTag e.2
    forEach T.files.entries (fun selectedFiles e => do
      let F ← s.readFile e.2
      .ok (selectedFiles.addNew F.name e.2)) selectedFiles) Table.empty
  -- a file that misses several tags is entered for each of them
  let notMatching ← forEach selectedFiles.entries (fun notMatching e => do
    forEach selectedTags.entries (fun notMatching e' => do
      let F ← s.readFile e.2
      let T ← s.readTag e'.2
      .ok (if F.tags.contains T.value = true then notMatching else notMatching.add F.name e.2))
      notMatching) (Table.empty : HashTable FileId)
  .ok (notMatching.entries.foldl (fun selectedFiles e => selectedFiles.erase e.1) selectedFiles)

def readdirFillRemainingTags (s : Store) (selectedTags : HashTable TagId)
    (selectedFiles : HashTable FileId) : Except Fault (List CStr) := do
  let (out, _) ← forEach selectedFiles.entries (fun r e => do
    let F ← s.readFile e.2
    forEach F.tags.entries (fun (r : List CStr × HashTable TagId) e => do
      let T ← s.readTag e.2
      .ok (if selectedTags.contains T.value = false ∧ r.2.contains T.value = false then
        (r.1 ++ [T.value], r.2.addNew T.value e.2) else r)) r) ([], Table.empty)
  .ok out

def readdirListTagsMode2 (s : Store) (selectedTags : HashTable TagId) :
    Except Fault (List CStr) := do
  let selectedFiles ← readdirGetSelectedFiles s selectedTags
  readdirFillRemainingTags s selectedTags selectedFiles

def tagReaddir (env : Env) (s : Store) (a : Addr) : Except Fault (List CStr × Store) := do
  let fd ← s.readFd a
  let path := fd.path
  let tags ← if path.selectedTags.size > 0 then readdirListTagsMode2 s path.selectedTags
    else readdirListTagsMode1 s path.selectedTags
  let (files, s) ← readdirListFiles env s path
  .ok ([dot, dotdot] ++ tags ++ files, s)

/-- `read_tag_file`: the result and the buffer. -/
def readTagFile (s : Store) (len : ℕ) (off : ℤ) : Except Fault (ℤ × List UInt8) := do
  let text ← tagDbDump s
  if off < 0 then .ok (-EINVAL, [])
  else
    let bytes := ((text.drop off.toNat).take len).map Subtype.val
    .ok (bytes.length, padded bytes len)

def tagRead (env : Env) (s : Store) (a : Addr) (len : ℕ) (off : ℤ) :
    Except Fault (ℤ × List UInt8) := do
  let fd ← s.readFd a
  if fd.isTagFile = true then readTagFile s len off else .ok (fdRead env fd len off)

def tagWrite (env : Env) (s : Store) (a : Addr) (buffer : List UInt8) (off : ℤ) :
    Except Fault ℤ := do
  let fd ← s.readFd a
  .ok (if fd.isTagFile = true then -EPERM else fdWrite env fd buffer off)

def tagMknod (env : Env) (userPath : CStr) (mode device : ℕ) : ℤ :=
  let realpath := pathRealpath env userPath
  if env.access realpath = true then -EREMOTE else env.mknod realpath mode device

def tagTruncate (env : Env) (userPath : CStr) (length : ℤ) : ℤ :=
  if userPath = slash :: tagFilename ∨ userPath = tagFilename then -EPERM
  else env.truncate (pathRealpath env userPath) length

def tagChmod (env : Env) (userPath : CStr) (mode : ℕ) : ℤ := env.chmod (pathRealpath env userPath) mode

def tagChown (env : Env) (userPath : CStr) (user group : ℕ) : ℤ :=
  env.chown (pathRealpath env userPath) user group

def tagUtime (env : Env) (userPath : CStr) : ℤ := env.utime (pathRealpath env userPath)

def pathLink (env : Env) (s : Store) (ffrom fto : Path) : Except Fault (ℤ × Store) := do
  let (res, _, s) ← getattrIntra env s ffrom
  if res < 0 then .ok (res, s)
  else
    let (f, s) := fileGetOrCreate s ffrom.filename
    let s ← forEach fto.selectedTags.entries (fun s e => tagFile env s e.2 f) s
    .ok (res, s)

def tagLink (env : Env) (s : Store) (src dst : CStr) : Except Fault (ℤ × Store) := do
  let (ffrom, s) ← pathCreate env s src false
  let (fto, s) ← pathCreate env s dst false
  -- its result is not looked at
  let (_, s) ← tagMkdir s fto.virtdirpath
  let (res, s) ← pathLink env s ffrom fto
  let s ← pathDelete env s ffrom
  let s ← pathDelete env s fto
  .ok (res, s)

/-- `tag_rename`; the results of `path_link` and `path_unlink` are dropped. -/
def tagRename (env : Env) (s : Store) (src dst : CStr) : Except Fault (ℤ × Store) := do
  let (ffrom, s) ← pathCreate env s src false
  let (fto, s) ← pathCreate env s dst false
  let (res, s) ← if ffrom.selectedTags.size ≠ 1 ∨ fto.selectedTags.size ≠ 1 then .ok (-EPERM, s)
    else do
      let (_, s) ← pathLink env s ffrom fto
      let (_, s) ← pathUnlink env s ffrom
      .ok (0, s)
  let s ← pathDelete env s ffrom
  let s ← pathDelete env s fto
  .ok (res, s)

/-- `struct tag_ioctl` after the call: the member `size`, and the writes to `buf` in order. -/
structure TagIoctl where
  size : ℕ
  writes : List (ℕ × UInt8)
  deriving Repr, DecidableEq

def ioctlReadTags (s : Store) (fd : FileDescriptor) : Except Fault (ℤ × Option TagIoctl) :=
  match fileGet s fd.path.filename with
  | none => .ok (-ENOENT, none)
  | some f => do
    let (str, len) ← fileGetTagsString s f
    let copied := (strncpy str bufsize).zipIdx.map fun b => (b.2, b.1)
    .ok (0, some ⟨if len > bufsize then bufsize else len, copied ++ [(bufsize, 0)]⟩)

/-- `readTags` is the test `cmd == TAG_IOC_READ_TAGS`, `compat` the flag `FUSE_IOCTL_COMPAT`. -/
def tagIoctl (s : Store) (a : Addr) (readTags compat : Bool) :
    Except Fault (ℤ × Option TagIoctl) := do
  let fd ← s.readFd a
  if fd.isTag = true ∨ fd.isTagFile = true then .ok (-EINVAL, none)
  else if compat = true then .ok (-ENOSYS, none)
  else if readTags = true then ioctlReadTags s fd
  else .ok (-EINVAL, none)

/-- `tag_poll`: the events reported through `reventsp`, and the store. -/
def tagPoll (s : Store) (a : Addr) (ph : Option PollHandle) : Except Fault (UInt32 × Store) := do
  let fd ← s.readFd a
  match fd.file with
  | none => .error .badFile
  | some f => do
    let F ← s.readFile f
    -- the handle that was there is destroyed
    let s := { s with fds := s.fds.modify a fun fd => { fd with ph := ph } }
    .ok (F.revents, s.writeFile f { F with revents := 0 })

/-- A call of a member of `tag_oper`. `release` is also `releasedir`. -/
inductive Callback
  | getattr (userPath : CStr)
  | fgetattr (fh : Addr)
  | setxattr (userPath : CStr)
  | getxattr (userPath name : CStr) (size : ℕ)
  | openFile (userPath : CStr) (flags : ℤ) (m : Malloc)
  | opendir (userPath : CStr) (flags : ℤ) (m : Malloc)
  | release (fh : Addr)
  | readdir (fh : Addr)
  | read (fh : Addr) (len : ℕ) (off : ℤ)
  | write (fh : Addr) (buffer : List UInt8) (off : ℤ)
  | link (src dst : CStr)
  | unlink (userPath : CStr)
  | rename (src dst : CStr)
  | rmdir (userPath : CStr)
  | mkdir (userPath : CStr)
  | mknod (userPath : CStr) (mode device : ℕ)
  | truncate (userPath : CStr) (length : ℤ)
  | chmod (userPath : CStr) (mode : ℕ)
  | chown (userPath : CStr) (user group : ℕ)
  | utime (userPath : CStr)
  | ioctl (fh : Addr) (readTags compat : Bool)
  | poll (fh : Addr) (ph : Option PollHandle)

/-- A callback with what the system answers while it runs. -/
structure Event where
  env : Env
  callback : Callback

def openChecked (env : Env) (s : Store) (userPath : CStr) (m : Malloc) (flags : ℤ) (isTag : Bool) :
    Except Fault Store :=
  if m.Fresh s then Prod.snd <$> tagOpen env s userPath m flags isTag else .error .badAddress

/-- The store after a callback. -/
def step (s : Store) (e : Event) : Except Fault Store :=
  match e.callback with
  | .getattr p => (·.2.2) <$> tagGetattr e.env s p
  | .fgetattr a => (·.2.2) <$> tagFgetattr e.env s a
  | .getxattr p name size => (·.2.2) <$> tagGetxattr e.env s p name size
  | .openFile p flags m => openChecked e.env s p m flags false
  | .opendir p flags m => openChecked e.env s p m flags true
  | .release a => Prod.snd <$> tagReleaseGeneric e.env s a
  | .readdir a => Prod.snd <$> tagReaddir e.env s a
  | .read a len off => (fun _ => s) <$> tagRead e.env s a len off
  | .write a buffer off => (fun _ => s) <$> tagWrite e.env s a buffer off
  | .link p q => Prod.snd <$> tagLink e.env s p q
  | .unlink p => Prod.snd <$> tagUnlink e.env s p
  | .rename p q => Prod.snd <$> tagRename e.env s p q
  | .ioctl a readTags compat => (fun _ => s) <$> tagIoctl s a readTags compat
  | .poll a ph => Prod.snd <$> tagPoll s a ph
  | .setxattr _ | .rmdir _ | .mkdir _ | .mknod .. | .truncate .. | .chmod .. | .chown .. | .utime _ =>
    .ok s

/-- `set_root_directory`: the store built from the database. -/
def setRootDirectory (env : Env) (file : Option CStr) : Except Fault Store :=
  parseTagsDb env (fun s p => (fun r => (r.1, r.2.2)) <$> tagGetattr env s p) file .init

end TagFilesystem.Fuse
