import TagFilesystem.Cutil.Strings

/-!
# What the operating system provides

Error numbers, the part of `struct stat` the file systems look at, the bytes of a buffer handed
to a system call, and the reading of a text line by line.
-/

namespace TagFilesystem

def EPERM : ℤ := 1
def ENOENT : ℤ := 2
def EIO : ℤ := 5
def ENOMEM : ℤ := 12
def EEXIST : ℤ := 17
def ENOTDIR : ℤ := 20
def EISDIR : ℤ := 21
def EINVAL : ℤ := 22
def ENOSYS : ℤ := 38
def ENODATA : ℤ := 61
def EREMOTE : ℤ := 66

def POLLIN : UInt32 := 1
def POLLOUT : UInt32 := 4

def LONG_MAX : ℤ := 9223372036854775807

/-- `TAG_FILENAME`, the string `.tags`. -/
def tagFilename : CStr := cstr [46, 116, 97, 103, 115]

/-- `BUFSIZE` of `tagioc.h`. -/
def bufsize : ℕ := 1024

/-- `struct stat`; `isDir` is the test `S_ISDIR(st_mode)`. -/
structure Stat where
  stIno : ℕ
  isDir : Bool
  stSize : ℤ
  deriving Repr, DecidableEq

/-- An entry that `readdir` reports; `isDir` is the test `d_type == DT_DIR`. -/
structure Dirent where
  name : CStr
  isDir : Bool
  deriving Repr, DecidableEq

/-- What `strncpy(dst, src, n)` writes to `dst[0..n)`: the string, padded with NUL. -/
def strncpy (src : CStr) (n : ℕ) : List UInt8 :=
  (src.take n).map Subtype.val ++ List.replicate (n - src.length) 0

/-- A read of `len` bytes that found `bytes`, the rest of the buffer being cleared. -/
def padded (bytes : List UInt8) (len : ℕ) : List UInt8 :=
  bytes ++ List.replicate (len - bytes.length) 0

def newline : CChar := ⟨10, by decide⟩
def numberSign : CChar := ⟨35, by decide⟩
def openBracket : CChar := ⟨91, by decide⟩
def closeBracket : CChar := ⟨93, by decide⟩

/-- `isspace` in the C locale: the space and the bytes 9 to 13. -/
def isspace (c : CChar) : Bool := c.val == 32 || (9 ≤ c.val && c.val ≤ 13)

/-- The successive results of `fgets` on a buffer of `size` bytes. A call ends after a newline
or when the buffer is full; `room` bytes are free, `word` is what the call has read so far. -/
def fgetsFrom (size : ℕ) : ℕ → CStr → CStr → List CStr
  | _, word, [] => if word = [] then [] else [word]
  | room, word, c :: text =>
    if c = newline ∨ room ≤ 1 then (word ++ [c]) :: fgetsFrom size (size - 1) [] text
    else fgetsFrom size (room - 1) (word ++ [c]) text

def fgets (size : ℕ) (text : CStr) : List CStr := fgetsFrom size (size - 1) [] text

def nameF : CStr := cstr [102]
def nameG : CStr := cstr [103]
def nameX : CStr := cstr [120]
def nameY : CStr := cstr [121]
def rootName : CStr := cstr [114]

/-- `stat` in a target directory `r` with the regular files `f` and `g`. -/
def sampleStat (p : CStr) : Option Stat :=
  if p = rootName then some ⟨1, true, 0⟩
  else if p = appendDir rootName nameF then some ⟨2, false, 5⟩
  else if p = appendDir rootName nameG then some ⟨3, false, 7⟩
  else none

def sampleDirents : List Dirent := [⟨nameF, false⟩, ⟨nameG, false⟩]

/-- The path `/d₁/…/dₖ/n`. -/
def samplePath (ds : List CStr) (n : CStr) : CStr := dirPath ds ++ slash :: n

end TagFilesystem
