import TagFilesystem.Library.Outcome
import TagFilesystem.Library.Table
import TagFilesystem.Library.Heap
import TagFilesystem.Posix

/-!
# The data of `fuse_lowlevel/`

The kernel names files and directories by inode numbers. `struct inode`, `struct file` and
`struct tag` live in heaps and are denoted by their addresses; `tag_remove` frees tags and
`tag_forget` frees inodes, a file record is never freed. The member `ino` of a tag is left
out: nothing reads it.
-/

namespace TagFilesystem.FuseLowlevel

abbrev HashTable (α : Type) := Table CStr α

abbrev TagId := ℕ
abbrev FileId := ℕ
abbrev InodeId := ℕ

structure Tag where
  value : CStr
  files : HashTable FileId
  deriving Repr, DecidableEq

structure File where
  name : CStr
  realpath : CStr
  tags : HashTable TagId
  ino : InodeId
  deriving Repr, DecidableEq

/-- A pointer member is `none` when it is null; a selected tag is `none` when it is
`INVALID_TAG`. -/
structure Inode where
  number : UInt64
  isTagfile : Bool
  isDirectory : Bool
  st : Stat
  nlookup : UInt64
  selectedTags : Option (HashTable (Option TagId))
  name : Option CStr
  realpath : Option CStr
  tag : List CStr
  /-- An `int`: directories are nested at most `INT_MAX` deep. -/
  ntag : ℕ
  deriving Repr, DecidableEq

/-- What ends a run: the accesses that have no meaning in C, and a thread that waits for
itself. -/
inductive Fault
  /-- `INVALID_TAG` is dereferenced. -/
  | invalidTag
  /-- The null pointer is dereferenced. -/
  | nullPointer
  /-- A freed `struct tag` or `struct inode` is accessed. -/
  | freedObject
  /-- An array is read past its end. -/
  | outOfBounds
  /-- The write lock of a table is taken while the thread holds its read lock. -/
  | deadlock
  /-- An `int` is incremented beyond `INT_MAX`. -/
  | signedOverflow
  /-- Bytes of a buffer that have not been assigned are used. -/
  | uninitialized
  deriving Repr, DecidableEq

structure Store where
  tags : HashTable TagId
  tagHeap : Heap Tag
  files : HashTable FileId
  fileHeap : Heap File
  /-- The inodes by number. -/
  itable : Table UInt64 InodeId
  inodeHeap : Heap Inode
  /-- The counter of `next_inode_number`. -/
  nextIno : UInt64
  /-- The counter of `next_gen_number`. -/
  nextGen : UInt64
  deriving DecidableEq

/-- The store before the file system is mounted. -/
def Store.init : Store := ⟨.empty, .empty, .empty, .empty, .empty, .empty, 1, 1⟩

/-- What the system answers during one callback. -/
structure Env where
  realdirpath : CStr
  /-- `stat`; `none` for failure. -/
  stat : CStr → Option Stat
  /-- `open`: an error number or a descriptor. -/
  openFile : CStr → ℤ → Except ℤ ℤ
  /-- `close`: an error number in case of failure. -/
  close : ℤ → Option ℤ
  /-- `lseek` and `read`: an error number or the bytes read, at most as many as asked for. -/
  read : ℤ → ℕ → ℤ → Except ℤ (List UInt8)
  /-- `lseek` and `write`: an error number or the number of bytes written. -/
  write : ℤ → List UInt8 → ℤ → Except ℤ ℤ
  /-- `mknod`: an error number in case of failure. -/
  mknod : CStr → ℕ → ℕ → Option ℤ
  /-- The entries of the target directory, in the order of `readdir`. -/
  dirents : List Dirent
  /-- The bytes of `fuse_add_direntry` for a name, an inode number and the offset of the next
  entry. Called without a buffer it gives their number. -/
  addDirentry : CStr → UInt64 → ℕ → List UInt8
  /-- The value that `errno` has from before. -/
  errno : ℤ
  /-- What an `int` reads as that has not been assigned. -/
  uninitialized : ℤ

/-- A call of `fuse_reply_*`. -/
inductive Reply
  | err (e : ℤ)
  | noReply
  | entry (ino : UInt64) (generation : UInt64) (attr : Stat)
  | attr (st : Stat)
  | opened (fh : ℤ)
  | buf (bytes : List UInt8)
  | write (count : ℤ)
  /-- The member `size`, and the writes to the member `buf` in order. -/
  | ioctl (size : ℤ) (writes : List (ℕ × UInt8))
  deriving Repr, DecidableEq

namespace Store

def readTag (s : Store) (t : Option TagId) : Except Fault Tag :=
  match t with
  | none => .error .invalidTag
  | some t =>
    match s.tagHeap.get? t with
    | some T => .ok T
    | none => .error .freedObject

def writeTag (s : Store) (t : TagId) (T : Tag) : Store := { s with tagHeap := s.tagHeap.write t T }

def readFile (s : Store) (f : FileId) : Except Fault File :=
  match s.fileHeap.get? f with
  | some F => .ok F
  | none => .error .freedObject

def writeFile (s : Store) (f : FileId) (F : File) : Store :=
  { s with fileHeap := s.fileHeap.write f F }

def readInode (s : Store) (i : Option InodeId) : Except Fault Inode :=
  match i with
  | none => .error .nullPointer
  | some i =>
    match s.inodeHeap.get? i with
    | some I => .ok I
    | none => .error .freedObject

def writeInode (s : Store) (i : InodeId) (I : Inode) : Store :=
  { s with inodeHeap := s.inodeHeap.write i I }

end Store

/-- The tables that a thread may hold a lock of while it runs `readdir`. -/
inductive Lock
  | tagFiles (t : Option TagId)
  | fileTags (f : FileId)
  /-- The member `selected_tags` of an inode. -/
  | inodeTags (i : InodeId)
  /-- The parameter `selected_tags`. -/
  | selectedTags
  | selectedFiles
  | remainingTags
  deriving Repr, DecidableEq

/-- Takes and gives back a write lock; `held` are the tables whose read lock the thread holds. -/
def writeLock (held : List Lock) (l : Lock) : Except Fault PUnit :=
  if l ∈ held then .error .deadlock else .ok ⟨⟩

/-- Reads a pointer member that must not be null. -/
def deref {α : Type} (p : Option α) : Except Fault α :=
  match p with
  | some a => .ok a
  | none => .error .nullPointer

end TagFilesystem.FuseLowlevel
