import TagFilesystem.FuseLowlevel.Inode
import TagFilesystem.Cutil.List

/-!
# `fuse_lowlevel/fuse_callback.c`

A callback gives the calls of `fuse_reply_*` that it makes, in order, and the store it leaves.
Of the attributes that `tag_setattr` changes, only the file type is kept.
-/

namespace TagFilesystem.FuseLowlevel

/-- What a callback does: its replies and the store. -/
abbrev Outcome := List Reply × Store

def nextGenNumber (s : Store) : UInt64 × Store :=
  let number := if s.nextGen = 0 then 1 else s.nextGen
  (number, { s with nextGen := number + 1 })

/-- `dirbuf_add`: each entry holds the offset of its own end. -/
def dirbufAdd (env : Env) (b : List UInt8) (name : CStr) (ino : UInt64) : List UInt8 :=
  let size := b.length + (env.addDirentry name 0 0).length
  b ++ env.addDirentry name ino size

/-- `reply_buf_limited`; a negative offset is compared as a large unsigned number. -/
def replyBufLimited (buf : List UInt8) (off : ℤ) (maxsize : ℕ) : Reply :=
  if 0 ≤ off ∧ off < buf.length then
    .buf ((buf.drop off.toNat).take (min (buf.length - off.toNat) maxsize))
  else .buf []

def fileMatchesTags (s : Store) (f : FileId) (selectedTags : HashTable (Option TagId)) :
    Except Fault Bool := do
  let F ← s.readFile f
  forEach selectedTags.entries (fun isMatch e =>
    match e.2 with
    | none => .ok false
    | some t => do
      let T ← s.readTag (some t)
      .ok (if F.tags.contains T.value = true then isMatch else false)) true

def tagForget (s : Store) (number nlookup : UInt64) : Except Fault Outcome :=
  match inodeGet s number with
  | none => .ok ([.noReply], s)
  | some ino => do
    let I ← s.readInode (some ino)
    let s ← inodeDeleteIfNoref (s.writeInode ino { I with nlookup := I.nlookup - nlookup }) ino
    .ok ([.noReply], s)

/-- `stat` has found something that is no directory. -/
def regular (st : Option Stat) : Option Stat := st.filter fun st => !st.isDir

/-- `getattr_intra`: the result, the buffer if it has been filled, and the store. -/
def getattrIntra (env : Env) (s : Store) (selectedTags : HashTable (Option TagId))
    (realpath filename : CStr) : Except Fault (ℤ × Option Stat × Store) := do
  let (f, s) ← fileGetOrCreate env s filename
  match regular (env.stat realpath) with
  | none =>
    if tagExist s filename = true ∧ selectedTags.contains filename = false then
      match env.stat env.realdirpath with
      | some st => .ok (0, some st, s)
      | none => .ok (-1, env.stat realpath, s)
    else .ok (-ENOENT, env.stat realpath, s)
  | some st =>
    if selectedTags.size > 0 then
      let isMatch ← fileMatchesTags s f selectedTags
      .ok (if isMatch = true then 0 else -ENOENT, some st, s)
    else if filename = tagFilename then .ok (0, some { st with stSize := LONG_MAX }, s)
    else .ok (0, some st, s)

/-- The end of `tag_lookup`. -/
def lookupReply (s : Store) (ino : InodeId) (st : Stat) : Except Fault Outcome := do
  let I ← s.readInode (some ino)
  let (generation, s) := nextGenNumber s
  .ok ([.entry I.number generation { st with stIno := I.number.toNat }],
    s.writeInode ino { I with nlookup := I.nlookup + 1 })

def tagLookup (env : Env) (s : Store) (parentnum : UInt64) (name : CStr) : Except Fault Outcome :=
  match inodeGet s parentnum with
  | none => .ok ([.err EINVAL], s)
  | some parent => do
    let P ← s.readInode (some parent)
    let realpath := tagRealpath env name
    match regular (env.stat realpath) with
    | none =>
      if tagExist s name = true then
        let selectedTags ← deref P.selectedTags
        if selectedTags.contains name = true then .ok ([.err ENOENT], s)
        else
          -- a tag has no attributes of its own and shows those of the root
          let st := (env.stat env.realdirpath).getD ((env.stat realpath).getD statZero)
          let (ino, s) ← createDirectoryInode [] s (some parent) name
          lookupReply s ino st
      else .ok ([.err ENOENT], s)
    | some st => do
      let (f, s) ← fileGetOrCreate env s name
      let F ← s.readFile f
      let I ← s.readInode (some F.ino)
      let st : Stat := { st with stIno := I.number.toNat }
      let s := s.writeInode F.ino { I with st := st }
      if parentnum ≠ 1 then
        let selectedTags ← deref P.selectedTags
        let isMatch ← fileMatchesTags s f selectedTags
        if isMatch = false then .ok ([.err ENOENT], s)
        else if name = tagFilename then lookupReply s F.ino { st with stSize := LONG_MAX }
        else lookupReply s F.ino st
      else lookupReply s F.ino st

/-- `file_open` does not fail with a negative descriptor here: that is an error number. -/
def tagOpen (env : Env) (s : Store) (number : UInt64) (flags : ℤ) : Except Fault Outcome :=
  match inodeGet s number with
  | none => .ok ([.err env.errno], s)
  | some ino => do
    let I ← s.readInode (some ino)
    let name ← deref I.name
    let (f, s) ← fileGetOrCreate env s name
    let F ← s.readFile f
    match env.openFile F.realpath flags with
    | .error e => .ok ([.err e], s)
    | .ok fd =>
      -- an open counts as a lookup
      let I ← s.readInode (some ino)
      .ok ([.opened fd], s.writeInode ino { I with nlookup := I.nlookup + 1 })

/-- The handle of an open directory is the address of its inode. -/
def tagOpendir (s : Store) (number : UInt64) : Except Fault Outcome :=
  match inodeGet s number with
  | none => .ok ([.err ENOENT], s)
  | some ino => do
    let I ← s.readInode (some ino)
    if I.isDirectory = false then .ok ([.err ENOTDIR], s)
    else .ok ([.opened ino], s)

def tagReleasedir (s : Store) : Outcome := ([.err 0], s)

def tagRelease (env : Env) (s : Store) (fh : ℤ) : Outcome := ([.err ((env.close fh).getD 0)], s)

def tagGetattr (env : Env) (s : Store) (number : UInt64) : Except Fault Outcome :=
  match inodeGet s number with
  | none => .ok ([.err ENOENT], s)
  | some ino => do
    let I ← s.readInode (some ino)
    let path ← (if I.isDirectory = true then .ok env.realdirpath else deref I.realpath)
    match env.stat path with
    | none => .ok ([.err env.errno], s)
    | some st =>
      let st : Stat := { st with stIno := I.number.toNat }
      .ok ([.attr (if I.isTagfile = true then { st with stSize := LONG_MAX } else st)], s)

def tagUnlink (s : Store) (parentnum : UInt64) (name : CStr) : Except Fault Outcome :=
  if parentnum = 1 then .ok ([.err EPERM], s)
  else
    match fileGet s name with
    | none => .ok ([.err ENOENT], s)
    | some f => do
      let P ← s.readInode (inodeGet s parentnum)
      if P.isDirectory = false then .ok ([.err EPERM], s)
      else
        let selectedTags ← deref P.selectedTags
        -- a file is taken from one tag at a time
        if selectedTags.size > 1 then .ok ([.err EPERM], s)
        else
          let tagname ← deref P.name
          match tagGet s tagname with
          | none => .ok ([.err EIO], s)
          | some t =>
            let s ← untagFile s (some t) f
            .ok ([.err 0], s)

/-- `tag_rmdir`: the test `!t` never holds, as `tag_get` gives `INVALID_TAG`. -/
def tagRmdir (s : Store) (parentnum : UInt64) (name : CStr) : Except Fault Outcome :=
  if parentnum ≠ 1 then .ok ([.err EPERM], s)
  else do
    let s ← tagRemove s (tagGet s name)
    .ok ([.err 0], s)

def tagMkdir (env : Env) (s : Store) (parentnum : UInt64) (name : CStr) : Except Fault Outcome :=
  if parentnum ≠ 1 then .ok ([.err EPERM], s)
  else if tagExist s name = true then .ok ([.err EEXIST], s)
  else do
    let (_, s) := tagGetOrCreate s name
    let (ino, s) ← createDirectoryInode [] s (inodeGet s 1) name
    let I ← s.readInode (some ino)
    let st := (env.stat env.realdirpath).getD statZero
    let (generation, s) := nextGenNumber s
    -- the count of the inode is not raised
    .ok ([.entry I.number generation { st with stIno := I.number.toNat }], s)

/-- A directory buffer and the store. -/
abbrev Listing := List UInt8 × Store

def readdirListFiles (env : Env) (s : Store) (b : List UInt8)
    (selectedTags : HashTable (Option TagId)) : Except Fault Listing :=
  forEach env.dirents (fun (r : Listing) dirent =>
    if dirent.isDir = true then .ok r
    else do
      let realpath := appendDir env.realdirpath dirent.name
      let (res, st, s) ← getattrIntra env r.2 selectedTags realpath dirent.name
      if res < 0 then .ok (r.1, s)
      else .ok (dirbufAdd env r.1 dirent.name (UInt64.ofNat (st.getD statZero).stIno), s)) (b, s)

def readdirListTagsMode1 (env : Env) (s : Store) (b : List UInt8)
    (selectedTags : HashTable (Option TagId)) : Except Fault (List UInt8) :=
  forEach (tagList s) (fun b t => do
    let T ← s.readTag (some t)
    .ok (if selectedTags.contains T.value = false then dirbufAdd env b T.value 2 else b)) b

def readdirGetSelectedFiles (s : Store) (selectedTags : HashTable (Option TagId)) :
    Except Fault (HashTable FileId) := do
  let selectedFiles ← forEach selectedTags.entries (fun selectedFiles e => do
    let T ← s.readTag e.2
    forEach T.files.entries (fun selectedFiles e' => do
      let F ← s.readFile e'.2
      let _ ← writeLock [.tagFiles e.2, .selectedTags] .selectedFiles
      .ok (selectedFiles.addNew F.name e'.2)) selectedFiles) Table.empty
  forEach selectedFiles.entries (fun selectedFiles e =>
    forEach selectedTags.entries (fun selectedFiles e' => do
      let F ← s.readFile e.2
      let T ← s.readTag e'.2
      if F.tags.contains T.value = true then .ok selectedFiles
      else
        let _ ← writeLock [.selectedTags, .selectedFiles] .selectedFiles
        .ok (selectedFiles.erase F.name)) selectedFiles) selectedFiles

/-- `readdir_fill_remaining_tags`; `parent` is the directory that is read. -/
def readdirFillRemainingTags (env : Env) (s : Store) (parent : InodeId)
    (selectedTags : HashTable (Option TagId)) (selectedFiles : HashTable FileId)
    (b : List UInt8) : Except Fault Listing := do
  let (_, r) ← forEach selectedFiles.entries (fun (r : HashTable TagId × Listing) e => do
    let F ← r.2.2.readFile e.2
    let held : List Lock := [.fileTags e.2, .selectedFiles]
    forEach F.tags.entries (fun (r : HashTable TagId × Listing) e' => do
      let T ← r.2.2.readTag (some e'.2)
      -- a tag of several files is shown once
      if selectedTags.contains T.value = false ∧ r.1.contains T.value = false then
        let (ino, s) ← createDirectoryInode held r.2.2 (some parent) T.value
        let I ← s.readInode (some ino)
        let _ ← writeLock held .remainingTags
        .ok (r.1.addNew T.value e'.2, dirbufAdd env r.2.1 T.value I.number, s)
      else .ok r) r) (Table.empty, b, s)
  .ok r

def readdirListTagsMode2 (env : Env) (s : Store) (parent : InodeId) (b : List UInt8)
    (selectedTags : HashTable (Option TagId)) : Except Fault Listing := do
  let selectedFiles ← readdirGetSelectedFiles s selectedTags
  readdirFillRemainingTags env s parent selectedTags selectedFiles b

/-- `tag_readdir`; `fh` is the pointer that `tag_opendir` has stored. -/
def tagReaddir (env : Env) (s : Store) (number : UInt64) (size : ℕ) (off : ℤ)
    (fh : Option InodeId) : Except Fault Outcome :=
  match fh with
  | none => .ok ([.err ENOENT], s)
  | some ino => do
    let I ← s.readInode (some ino)
    if I.isDirectory = false then .ok ([.err ENOTDIR], s)
    else
      -- the parent is given as 1, the number of the root, in any case
      let b := dirbufAdd env (dirbufAdd env [] dot I.number) dotdot 1
      let selectedTags ← deref I.selectedTags
      let (b, s) ← (if number ≠ 1 then readdirListTagsMode2 env s ino b selectedTags
        else do
          let b ← readdirListTagsMode1 env s b selectedTags
          .ok (b, s))
      let (b, s) ← readdirListFiles env s b selectedTags
      .ok ([replyBufLimited b off size], s)

/-- What `file_read` and `read_tag_file` make of the bytes that have been read: an error number, or
the buffer. The number of bytes is kept as an `int`, and so is the counter of the loop that clears
the rest of the buffer. -/
def finishRead (env : Env) (bytes : List UInt8) (len : ℕ) : Except Fault (Except ℤ (List UInt8)) :=
  let res := (Int32.ofNat bytes.length).toInt
  if 0 ≤ res ∧ res < len then
    if (len : ℤ) ≤ Cutil.INT_MAX then .ok (.ok (padded (bytes.take res.toNat) len))
    else .error .signedOverflow
  -- a number that has come out negative is taken for a failure, and replaced by `-errno`
  else if res < 0 ∧ 0 < env.errno then .ok (.error env.errno)
  else if bytes.length = len then .ok (.ok bytes)
  else .error .uninitialized

def fileRead (env : Env) (fd : ℤ) (len : ℕ) (off : ℤ) : Except Fault (Except ℤ (List UInt8)) :=
  match env.read fd len off with
  | .error e => .ok (.error e)
  | .ok bytes => finishRead env bytes len

def readTagFile (env : Env) (s : Store) (len : ℕ) (off : ℤ) :
    Except Fault (Except ℤ (List UInt8)) := do
  let text ← tagDbDump s
  if off < 0 then .ok (.error EINVAL)
  else finishRead env (((text.drop off.toNat).take len).map Subtype.val) len

def tagRead (env : Env) (s : Store) (number : UInt64) (size : ℕ) (off : ℤ) (fh : ℤ) :
    Except Fault Outcome :=
  match inodeGet s number with
  | none => .ok ([.err ENOENT], s)
  | some ino => do
    let I ← s.readInode (some ino)
    let res ← (if I.isTagfile = true then readTagFile env s size off
      else fileRead env fh size off)
    match res with
    | .error e => .ok ([.err e], s)
    | .ok buffer => .ok ([replyBufLimited buffer off size], s)

def tagWrite (env : Env) (s : Store) (number : UInt64) (buf : List UInt8) (off : ℤ) (fh : ℤ) :
    Except Fault Outcome :=
  match inodeGet s number with
  | none => .ok ([.err ENOENT], s)
  | some ino => do
    let I ← s.readInode (some ino)
    if I.isTagfile = true then .ok ([.err EPERM], s)
    else
      match env.write fh buf off with
      | .error e => .ok ([.err e], s)
      | .ok count => .ok ([.write count], s)

def tagMknod (env : Env) (s : Store) (parent : UInt64) (name : CStr) (mode rdev : ℕ) :
    Except Fault Outcome :=
  if parent ≠ 1 then .ok ([.err EPERM], s)
  else if tagExist s name = true then .ok ([.err EEXIST], s)
  else
    match env.mknod (tagRealpath env name) mode rdev with
    | some e => .ok ([.err e], s)
    | none => do
      let (f, s) ← fileGetOrCreate env s name
      let F ← s.readFile f
      let I ← s.readInode (some F.ino)
      let st : Stat := { (env.stat F.realpath).getD I.st with stIno := I.number.toNat }
      let (generation, s) := nextGenNumber s
      .ok ([.entry I.number generation st], s.writeInode F.ino { I with st := st })

/-- `tag_setattr`; `mode` is the file type in `attr->st_mode` when the flag
`FUSE_SET_ATTR_MODE` is set. -/
def tagSetattr (env : Env) (s : Store) (number : UInt64) (mode : Option Bool) :
    Except Fault Outcome :=
  match inodeGet s number with
  | none => .ok ([.err EPERM], s)
  | some ino => do
    let I ← s.readInode (some ino)
    if I.isDirectory = true then .ok ([.err EPERM], s)
    else
      let name ← deref I.name
      let (f, s) ← fileGetOrCreate env s name
      let F ← s.readFile f
      let I ← s.readInode (some F.ino)
      let st : Stat := { I.st with isDir := mode.getD I.st.isDir }
      .ok ([.attr st], s.writeInode F.ino { I with st := st })

def tagLink (env : Env) (s : Store) (number newparent : UInt64) (newname : CStr) :
    Except Fault Outcome := do
  let parent := inodeGet s newparent
  let fileino ← s.readInode (inodeGet s number)
  if fileino.isDirectory = true then .ok ([.err EPERM], s)
  else
    let name ← deref fileino.name
    if newname ≠ name then .ok ([.err EPERM], s)
    else
      let P ← s.readInode parent
      if P.isDirectory = false then .ok ([.err ENOTDIR], s)
      else
        let (generation, s) := nextGenNumber s
        let (f, s) ← fileGetOrCreate env s name
        let tagname ← deref P.name
        let s ← tagFile s (tagGet s tagname) f
        -- the count of the inode is not raised here either
        .ok ([.entry fileino.number generation fileino.st], s)

def tagRename (s : Store) (parent : UInt64) (name : CStr) (newparent : UInt64) :
    Except Fault Outcome :=
  if parent = newparent then .ok ([.err EPERM], s)
  else
    match inodeGet s parent, inodeGet s newparent, fileGet s name with
    | some op, some np, some f => do
      let O ← s.readInode (some op)
      let N ← s.readInode (some np)
      if O.number = 1 ∨ N.number = 1 ∨ O.ntag > 1 ∨ N.ntag > 1 then .ok ([.err EPERM], s)
      else
        let s ← forEach (List.range O.ntag) (fun s i => do
          let tag ← O.tagAt i
          untagFile s (tagGet s tag) f) s
        let s ← forEach (List.range N.ntag) (fun s i => do
          let tag ← N.tagAt i
          tagFile s (tagGet s tag) f) s
        .ok ([.err 0], s)
    | _, _, _ => .ok ([.err ENOENT], s)

def ioctlReadTags (env : Env) (s : Store) (f : FileId) : Except Fault (List Reply) := do
  let (str, len) ← fileGetTagsString env s f
  let copied := (strncpy str bufsize).zipIdx.map fun b => (b.2, b.1)
  .ok [.ioctl (if len > bufsize then bufsize else len) (copied ++ [(bufsize, 0)])]

/-- The two checks of `tag_ioctl`; neither ends the callback. -/
def ioctlErrors (I : Inode) (compat : Bool) : List Reply :=
  (if I.isTagfile = true ∨ I.isDirectory = true then [.err EINVAL] else []) ++
    if compat = true then [.err ENOSYS] else []

/-- `readTags` is the test `cmd == TAG_IOC_READ_TAGS`, `compat` the flag `FUSE_IOCTL_COMPAT`. -/
def tagIoctl (env : Env) (s : Store) (number : UInt64) (readTags compat : Bool) :
    Except Fault Outcome :=
  match inodeGet s number with
  | none => .ok ([.err ENOENT], s)
  | some ino => do
    let I ← s.readInode (some ino)
    let replies := ioctlErrors I compat
    if readTags = true then
      let name ← deref I.name
      let (f, s) ← fileGetOrCreate env s name
      let rest ← ioctlReadTags env s f
      .ok (replies ++ rest, s)
    else .ok (replies ++ [.err EINVAL], s)

/-- A request to a member of `tag_oper`. -/
inductive Callback
  | lookup (parent : UInt64) (name : CStr)
  | forget (ino nlookup : UInt64)
  | getattr (ino : UInt64)
  | openFile (ino : UInt64) (flags : ℤ)
  | read (ino : UInt64) (size : ℕ) (off fh : ℤ)
  | write (ino : UInt64) (buf : List UInt8) (off fh : ℤ)
  | release (fh : ℤ)
  | opendir (ino : UInt64)
  | readdir (ino : UInt64) (size : ℕ) (off : ℤ) (fh : Option InodeId)
  | releasedir
  | link (ino newparent : UInt64) (newname : CStr)
  | unlink (parent : UInt64) (name : CStr)
  | rename (parent : UInt64) (name : CStr) (newparent : UInt64) (newname : CStr)
  | mkdir (parent : UInt64) (name : CStr)
  | rmdir (parent : UInt64) (name : CStr)
  | mknod (parent : UInt64) (name : CStr) (mode rdev : ℕ)
  | setattr (ino : UInt64) (mode : Option Bool)
  | ioctl (ino : UInt64) (readTags compat : Bool)
  deriving DecidableEq

/-- The callback that serves a request. -/
def call (env : Env) (s : Store) : Callback → Except Fault Outcome
  | .lookup parent name => tagLookup env s parent name
  | .forget ino nlookup => tagForget s ino nlookup
  | .getattr ino => tagGetattr env s ino
  | .openFile ino flags => tagOpen env s ino flags
  | .read ino size off fh => tagRead env s ino size off fh
  | .write ino buf off fh => tagWrite env s ino buf off fh
  | .release fh => .ok (tagRelease env s fh)
  | .opendir ino => tagOpendir s ino
  | .readdir ino size off fh => tagReaddir env s ino size off fh
  | .releasedir => .ok (tagReleasedir s)
  | .link ino newparent newname => tagLink env s ino newparent newname
  | .unlink parent name => tagUnlink s parent name
  | .rename parent name newparent _ => tagRename s parent name newparent
  | .mkdir parent name => tagMkdir env s parent name
  | .rmdir parent name => tagRmdir s parent name
  | .mknod parent name mode rdev => tagMknod env s parent name mode rdev
  | .setattr ino mode => tagSetattr env s ino mode
  | .ioctl ino readTags compat => tagIoctl env s ino readTags compat

/-- A request with what the system answers while it is served. -/
structure Event where
  env : Env
  callback : Callback

/-- The store after a request. -/
def step (s : Store) (e : Event) : Except Fault Store := Prod.snd <$> call e.env s e.callback

end TagFilesystem.FuseLowlevel
