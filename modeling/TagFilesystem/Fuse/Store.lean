import TagFilesystem.Library.Outcome
import TagFilesystem.Library.Table
import TagFilesystem.Library.Heap
import TagFilesystem.Posix

/-!
# The data of `fuse/`

`struct tag`, `struct file`, `struct path` and `struct file_descriptor`, with the global
tables `tags` and `files`. Tag objects and file records are denoted by their address in a
heap; a tag object is freed by `tag_dec_ref`, a file record never is. The field `realpath`
of a file record is left out: nothing reads it.
-/

namespace TagFilesystem.Fuse

abbrev HashTable (α : Type) := Table CStr α

abbrev TagId := ℕ
abbrev FileId := ℕ
abbrev Addr := ℕ
abbrev PollHandle := ℕ

/-- What the arithmetic on `int ref_count` makes of a result. -/
class Counting where
  toInt : ℤ → ℤ

/-- Counts without bounds: what `int` does as long as it does not overflow (`reaches_of_int`,
`logs_of_int`). -/
instance Counting.unbounded : Counting := ⟨id⟩

@[simp] theorem Counting.toInt_unbounded (i : ℤ) : Counting.toInt i = i := rfl

/-- The `int` of 32 bits, which wraps around. -/
@[reducible] def Counting.int : Counting := ⟨fun i => (Int32.ofInt i).toInt⟩

structure Tag where
  value : CStr
  files : HashTable FileId
  inUse : Bool
  refCount : ℤ
  deriving Repr, DecidableEq

structure File where
  name : CStr
  tags : HashTable TagId
  /-- The `struct desc_table` entries: the bytes of the key and the member `fd`. -/
  descriptors : Table Addr Addr
  revents : UInt32
  deriving DecidableEq

structure Path where
  realpath : CStr
  virtpath : CStr
  virtdirpath : CStr
  filename : CStr
  selectedTags : HashTable TagId
  deriving Repr, DecidableEq

structure FileDescriptor where
  path : Path
  /-- The value of the pointer member `path`, the first bytes of the structure. -/
  pathAddr : Addr
  isTag : Bool
  isTagFile : Bool
  ph : Option PollHandle
  file : Option FileId
  tag : Option TagId
  fh : ℤ
  deriving DecidableEq

/-- What ends a run: the accesses that have no meaning in C, and events that neither the
kernel nor `malloc` produces. -/
inductive Fault
  /-- A freed `struct tag` is accessed. -/
  | freedTag
  /-- A pointer that is no `struct file` is dereferenced, such as the null pointer. -/
  | badFile
  /-- `fi->fh` is not a descriptor that is open. -/
  | badHandle
  /-- `malloc` gives out the address of a live object. -/
  | badAddress
  deriving Repr, DecidableEq

structure Store where
  tags : HashTable TagId
  tagHeap : Heap Tag
  files : HashTable FileId
  fileHeap : Heap File
  /-- The open descriptors, by address. -/
  fds : Table Addr FileDescriptor
  /-- The paths that a failed open has left behind; no pointer to them remains. -/
  leaked : Table Addr Path
  deriving DecidableEq

/-- The store after the initializers have run. -/
def Store.init : Store := ⟨.empty, .empty, .empty, .empty, .empty, .empty⟩

/-- What the system answers during one callback. -/
structure Env where
  realdirpath : CStr
  /-- `stat`; `none` for failure. -/
  stat : CStr → Option Stat
  /-- `open`: an error number or a descriptor. -/
  openFile : CStr → ℤ → Except ℤ ℤ
  /-- `close`: an error number in case of failure. -/
  close : ℤ → Option ℤ
  /-- `lseek` and `read`: an error number or the bytes read, at most as many as asked for. -/
  read : ℤ → ℕ → ℤ → Except ℤ (List UInt8)
  /-- `lseek` and `write`: an error number or the number of bytes written. -/
  write : ℤ → List UInt8 → ℤ → Except ℤ ℤ
  /-- `access(path, F_OK) == 0`. -/
  access : CStr → Bool
  mknod : CStr → ℕ → ℕ → ℤ
  truncate : CStr → ℤ → ℤ
  chmod : CStr → ℕ → ℤ
  chown : CStr → ℕ → ℕ → ℤ
  utime : CStr → ℤ
  /-- The entries of the target directory, in the order of `readdir`. -/
  dirents : List Dirent
  /-- What the member `ph` reads as in a descriptor that has been freed. -/
  stalePh : Addr → Option PollHandle

/-- The addresses that `calloc` returns during an open; `fd` is `none` when it fails. -/
structure Malloc where
  path : Addr
  fd : Option Addr
  deriving Repr, DecidableEq

namespace Store

def readTag (s : Store) (t : TagId) : Except Fault Tag :=
  match s.tagHeap.get? t with
  | some T => .ok T
  | none => .error .freedTag

def writeTag (s : Store) (t : TagId) (T : Tag) : Store := { s with tagHeap := s.tagHeap.write t T }

def readFile (s : Store) (f : FileId) : Except Fault File :=
  match s.fileHeap.get? f with
  | some F => .ok F
  | none => .error .badFile

def writeFile (s : Store) (f : FileId) (F : File) : Store :=
  { s with fileHeap := s.fileHeap.write f F }

def readFd (s : Store) (a : Addr) : Except Fault FileDescriptor :=
  match s.fds.get? a with
  | some fd => .ok fd
  | none => .error .badHandle

/-- `entry->fd->ph`, also for an entry whose descriptor is gone. -/
def pollHandle (env : Env) (s : Store) (a : Addr) : Option PollHandle :=
  match s.fds.get? a with
  | some fd => fd.ph
  | none => env.stalePh a

/-- The paths that are alive between two callbacks. -/
def livePaths (s : Store) : List Path := s.fds.entries.map (·.2.path) ++ s.leaked.entries.map (·.2)

/-- The addresses of descriptors and paths that are alive between two callbacks. -/
def liveAddrs (s : Store) : List Addr :=
  s.fds.keys ++ s.fds.entries.map (·.2.pathAddr) ++ s.leaked.keys

end Store

/-- `malloc` returns addresses of no live object. -/
def Malloc.Fresh (m : Malloc) (s : Store) : Prop :=
  m.path ∉ s.liveAddrs ∧ ∀ a, m.fd = some a → a ∉ s.liveAddrs ∧ a ≠ m.path

instance (m : Malloc) (s : Store) : Decidable (m.Fresh s) :=
  match h : m.fd with
  | none => decidable_of_iff (m.path ∉ s.liveAddrs) (by simp [Malloc.Fresh, h])
  | some a => decidable_of_iff (m.path ∉ s.liveAddrs ∧ a ∉ s.liveAddrs ∧ a ≠ m.path)
      (by simp [Malloc.Fresh, h])

end TagFilesystem.Fuse
