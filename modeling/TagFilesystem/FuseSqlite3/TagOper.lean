import TagFilesystem.FuseSqlite3.Callbacks
import TagFilesystem.Err
import TagFilesystem.Tagioc

namespace TagFilesystem.FuseSqlite3

/-- What the system answers during one callback. -/
structure System extends Env where
  openFile : CStr → ℤ → Except Errno ℤ
  close : ℤ → Option Errno
  /-- `lseek` and `read`: at most as many bytes as asked for. -/
  read : ℤ → ℕ → ℤ → Except Errno (List UInt8)
  /-- `lseek` and `write`: the number of bytes written. -/
  write : ℤ → List UInt8 → ℤ → Except Errno ℤ
  /-- `access(path, F_OK) == 0`. -/
  access : CStr → Bool
  mknod : CStr → ℕ → ℕ → ℤ
  truncate : CStr → ℤ → ℤ
  chmod : CStr → ℕ → ℤ
  chown : CStr → ℕ → ℕ → ℤ
  utime : CStr → ℤ
  dirents : List Dirent
  /-- What the variable `len` of `ioctl_read_tags` reads as, which nobody sets. -/
  len : BitVec 32

/-- `struct file_descriptor`. The union of `file` and `tag` is left out: nothing reads it. -/
structure FileDescriptor where
  path : Path
  isTag : Bool
  isTagFile : Bool
  fh : ℤ
  deriving DecidableEq

structure Daemon where
  store : Store
  /-- The open descriptors, by address. -/
  fds : Table Pointer FileDescriptor
  deriving DecidableEq

inductive DaemonFault
  | store (f : Fault)
  /-- `fi->fh` is not a descriptor that is open. -/
  | badHandle
  /-- `calloc` gives out the address of a live object. -/
  | badAddress
  deriving Repr, DecidableEq

inductive Reply
  | status (res : ℤ)
  | attr (res : ℤ) (stbuf : Option Stat)
  | value (res : ℤ) (bytes : List UInt8)
  | names (names : List CStr)
  /-- The member `size`, and the writes to `buf` in order. -/
  | ioctl (res : ℤ) (data : Option (BitVec 64 × List (ℕ × UInt8)))
  deriving DecidableEq

def Daemon.readFd (d : Daemon) (fh : Pointer) : Except DaemonFault FileDescriptor :=
  match d.fds.get? fh with
  | some fd => .ok fd
  | none => .error .badHandle

def enomem : Errno := ⟨12, by decide, by decide⟩

/-- `fd_open`; `fd` is what `calloc` returns. -/
def fdOpen (sys : System) (d : Daemon) (path : Path) (fd : Option Address) (flags : ℤ) (isTag : Bool) :
    Pointer × Daemon :=
  match if isTag = true then .ok (-1) else sys.openFile path.realpath flags with
  | .error errno => (errPtr (-errno.int), d)
  | .ok fh =>
    match fd with
    | none => (errPtr (-enomem.int), d)
    | some a =>
      (a.pointer, { d with fds := d.fds.add a.pointer ⟨path, isTag, path.filename = tagFilename, fh⟩ })

def fdClose (sys : System) (d : Daemon) (fh : Pointer) : Except DaemonFault (ℤ × Daemon) := do
  let fd ← d.readFd fh
  let err := match sys.close fd.fh with
    | some errno => -errno.code
    | none => 0
  .ok (err, { d with fds := d.fds.erase fh })

/-- `fd_read`: the result and, unless it is an error, the buffer. The result is an `int`, so at most
`INT_MAX` bytes are asked for. -/
def fdRead (sys : System) (fd : FileDescriptor) (len : ℕ) (off : ℤ) : ℤ × List UInt8 :=
  match sys.read fd.fh len off with
  | .error errno => (-errno.code, [])
  | .ok bytes => (bytes.length, padded bytes len)

def fdWrite (sys : System) (fd : FileDescriptor) (buffer : List UInt8) (off : ℤ) : ℤ :=
  match sys.write fd.fh buffer off with
  | .error errno => -errno.code
  | .ok n => n

def tagOpen (sys : System) (d : Daemon) (userPath : CStr) (fd : Option Address) (flags : ℤ) (isTag : Bool) :
    ℤ × Daemon :=
  let path := pathCreate sys.toEnv d.store userPath isTag
  let (fd, d) := fdOpen sys d path fd flags isTag
  -- the path is not deleted
  if isErr fd = true then ((ptrErr fd).toInt, d) else (0, d)

/-- `calloc` gives out no address that is in use. -/
def openChecked (sys : System) (d : Daemon) (userPath : CStr) (fd : Option Address) (flags : ℤ)
    (isTag : Bool) : Except DaemonFault (ℤ × Daemon) :=
  if ∀ a ∈ fd, a.pointer ∉ d.fds.keys then .ok (tagOpen sys d userPath fd flags isTag)
  else .error .badAddress

def tagReleaseGeneric (sys : System) (d : Daemon) (fh : Pointer) : Except DaemonFault (ℤ × Daemon) :=
  fdClose sys d fh

/-- `read_tag_file`; `tag_db_dump` writes nothing. -/
def readTagFile (len : ℕ) (off : ℤ) : ℤ × List UInt8 :=
  if off < 0 then (-EINVAL, []) else (0, padded [] len)

def tagRead (sys : System) (d : Daemon) (fh : Pointer) (len : ℕ) (off : ℤ) :
    Except DaemonFault (ℤ × List UInt8) := do
  let fd ← d.readFd fh
  .ok (if fd.isTagFile = true then readTagFile len off else fdRead sys fd len off)

def tagWrite (sys : System) (d : Daemon) (fh : Pointer) (buffer : List UInt8) (off : ℤ) :
    Except DaemonFault ℤ := do
  let fd ← d.readFd fh
  .ok (if fd.isTagFile = true then -EPERM else fdWrite sys fd buffer off)

def tagMknod (sys : System) (userPath : CStr) (mode device : ℕ) : ℤ :=
  let realpath := pathRealpath sys.toEnv userPath
  if sys.access realpath = true then -EREMOTE else sys.mknod realpath mode device

def tagTruncate (sys : System) (userPath : CStr) (length : ℤ) : ℤ :=
  if userPath = slash :: tagFilename ∨ userPath = tagFilename then -EPERM
  else sys.truncate (pathRealpath sys.toEnv userPath) length

def tagChmod (sys : System) (userPath : CStr) (mode : ℕ) : ℤ :=
  sys.chmod (pathRealpath sys.toEnv userPath) mode

def tagChown (sys : System) (userPath : CStr) (user group : ℕ) : ℤ :=
  sys.chown (pathRealpath sys.toEnv userPath) user group

def tagUtime (sys : System) (userPath : CStr) : ℤ := sys.utime (pathRealpath sys.toEnv userPath)

/-- `ioctl_read_tags`; `file_get_tags_string` gives the empty string. -/
def ioctlReadTags (sys : System) (s : Store) (fd : FileDescriptor) :
    ℤ × Option (BitVec 64 × List (ℕ × UInt8)) :=
  match fileGet s fd.path.filename with
  | none => (-ENOENT, none)
  | some _ =>
    let size := if sys.len.toInt > bufsize then BitVec.ofNat 64 bufsize else sys.len.signExtend 64
    (0, some (size, ioctlWrites []))

/-- `readTags` is the test `cmd == TAG_IOC_READ_TAGS`, `compat` the flag `FUSE_IOCTL_COMPAT`. -/
def tagIoctl (sys : System) (d : Daemon) (fh : Pointer) (readTags compat : Bool) :
    Except DaemonFault (ℤ × Option (BitVec 64 × List (ℕ × UInt8))) := do
  let fd ← d.readFd fh
  .ok (if fd.isTag = true ∨ fd.isTagFile = true then (-EINVAL, none)
    else if compat = true then (-ENOSYS, none)
    else if readTags = true then ioctlReadTags sys d.store fd
    else (-EINVAL, none))

/-- A call of a member of `tag_oper`. `release` is also `releasedir`. -/
inductive Operation
  | openFile (userPath : CStr) (flags : ℤ) (fd : Option Address)
  | opendir (userPath : CStr) (flags : ℤ) (fd : Option Address)
  | release (fh : Pointer)
  | getattr (userPath : CStr)
  | fgetattr (fh : Pointer)
  | read (fh : Pointer) (len : ℕ) (off : ℤ)
  | readdir (fh : Pointer)
  | write (fh : Pointer) (buffer : List UInt8) (off : ℤ)
  | link (src dst : CStr)
  | unlink (userPath : CStr)
  | rmdir (userPath : CStr)
  | mknod (userPath : CStr) (mode device : ℕ)
  | mkdir (userPath : CStr)
  | truncate (userPath : CStr) (length : ℤ)
  | chmod (userPath : CStr) (mode : ℕ)
  | chown (userPath : CStr) (user group : ℕ)
  | utime (userPath : CStr)
  | rename (src dst : CStr)
  | ioctl (fh : Pointer) (readTags compat : Bool)

structure Request where
  sys : System
  op : Operation

/-- The reply to a callback of the store, and the daemon with that store. -/
def Daemon.run {α : Type} (d : Daemon) (m : Except Fault (α × Store)) (reply : α → Reply) :
    Except DaemonFault (Reply × Daemon) :=
  (fun r => (reply r.1, { d with store := r.2 })) <$> m.mapError .store

def tagOper [Sqlite] (d : Daemon) (e : Request) : Except DaemonFault (Reply × Daemon) :=
  let env := e.sys.toEnv
  let attr (r : ℤ × Option Stat × Store) := ((r.1, r.2.1), r.2.2)
  match e.op with
  | .openFile p flags fd => (fun r => (.status r.1, r.2)) <$> openChecked e.sys d p fd flags false
  | .opendir p flags fd => (fun r => (.status r.1, r.2)) <$> openChecked e.sys d p fd flags true
  | .release fh => (fun r => (.status r.1, r.2)) <$> tagReleaseGeneric e.sys d fh
  | .getattr p => d.run (attr <$> tagGetattr env d.store p) fun r => .attr r.1 r.2
  | .fgetattr fh => do
    let fd ← d.readFd fh
    d.run (attr <$> tagFgetattr env d.store fd.path) fun r => .attr r.1 r.2
  | .read fh len off => (fun r => (.value r.1 r.2, d)) <$> tagRead e.sys d fh len off
  | .readdir fh => do
    let fd ← d.readFd fh
    d.run (tagReaddir env e.sys.dirents d.store fd.path) .names
  | .write fh buffer off => (fun r => (.status r, d)) <$> tagWrite e.sys d fh buffer off
  | .link p q => d.run (tagLink env d.store p q) .status
  | .unlink p => d.run (tagUnlink env d.store p) .status
  | .rmdir p => d.run (tagRmdir d.store p) .status
  | .mknod p mode device => .ok (.status (tagMknod e.sys p mode device), d)
  | .mkdir p => .ok (.status (tagMkdir d.store p).1, { d with store := (tagMkdir d.store p).2 })
  | .truncate p length => .ok (.status (tagTruncate e.sys p length), d)
  | .chmod p mode => .ok (.status (tagChmod e.sys p mode), d)
  | .chown p user group => .ok (.status (tagChown e.sys p user group), d)
  | .utime p => .ok (.status (tagUtime e.sys p), d)
  | .rename p q => d.run (tagRename env d.store p q) .status
  | .ioctl fh readTags compat => (fun r => (.ioctl r.1 r.2, d)) <$> tagIoctl e.sys d fh readTags compat

end TagFilesystem.FuseSqlite3
