import Mathlib.Data.Int.Notation
import Mathlib.Data.List.Basic
import Mathlib.Tactic.SplitIfs

namespace TagFilesystem

/-- What an open descriptor stands for. -/
structure Handle (π : Type*) where
  path : π
  /-- The flag `O_APPEND`. -/
  appends : Bool
  deriving Repr, DecidableEq

/-- The content of the existing files, and the open descriptors. -/
structure Disk (π : Type*) where
  content : π → Option (List UInt8)
  handle : ℕ → Option (Handle π)

namespace Disk

variable {π : Type*} {D : Disk π} {p q : π} {fh fh' : ℤ} {bytes : List UInt8} {n : ℕ}
  {h h' : Handle π}

/-- What a descriptor stands for; a negative number is none. -/
def handleAt (D : Disk π) (fh : ℤ) : Option (Handle π) :=
  if 0 ≤ fh then D.handle fh.toNat else none

def setHandle (D : Disk π) (fh : ℤ) (h : Option (Handle π)) : Disk π :=
  { D with handle := fun n => if (n : ℤ) = fh then h else D.handle n }

theorem handleAt_setHandle (h : Option (Handle π)) : (D.setHandle fh h).handleAt fh' =
    if fh' = fh ∧ 0 ≤ fh' then h else D.handleAt fh' := by
  unfold handleAt setHandle
  by_cases hn : 0 ≤ fh'
  · have hnat : ((fh'.toNat : ℕ) : ℤ) = fh' := Int.toNat_of_nonneg hn
    simp only [hn, hnat, and_true, if_true]
  · simp only [hn, and_false, if_false]

variable [DecidableEq π]

def setContent (D : Disk π) (p : π) (c : Option (List UInt8)) : Disk π :=
  { D with content := fun q => if q = p then c else D.content q }

/-- Changes the content of an existing file. -/
def modify (D : Disk π) (p : π) (f : List UInt8 → List UInt8) : Disk π :=
  D.setContent p ((D.content p).map f)

/-- `open` has returned `fh`. A file that is missing is made, one that exists is cut to nothing,
if the flags say so. -/
def openFile (D : Disk π) (h : Handle π) (creates truncates : Bool) (fh : ℤ) : Disk π :=
  let made := (D.content h.path).isNone && creates
  let cut := (D.content h.path).isSome && truncates
  (if made || cut then D.setContent h.path (some []) else D).setHandle fh (some h)

def close (D : Disk π) (fh : ℤ) : Disk π := D.setHandle fh none

/-- The content `c` with `bytes` at the position `off`; a gap is filled with zeros. -/
def overwrite (c bytes : List UInt8) (off : ℕ) : List UInt8 :=
  c.take off ++ List.replicate (off - c.length) 0 ++ bytes ++ c.drop (off + bytes.length)

/-- `write` of `bytes` at the position `off`, or at the end. -/
def write (D : Disk π) (fh : ℤ) (bytes : List UInt8) (off : ℕ) : Disk π :=
  match D.handleAt fh with
  | none => D
  | some h => D.modify h.path fun c => overwrite c bytes (if h.appends = true then c.length else off)

def truncate (D : Disk π) (p : π) (n : ℕ) : Disk π :=
  D.modify p fun c => c.take n ++ List.replicate (n - c.length) 0

/-- `mknod` of a regular file. -/
def mknod (D : Disk π) (p : π) : Disk π := D.setContent p (some [])

@[simp] theorem handleAt_setContent (c : Option (List UInt8)) :
    (D.setContent p c).handleAt fh = D.handleAt fh := rfl

@[simp] theorem handleAt_modify (f : List UInt8 → List UInt8) :
    (D.modify p f).handleAt fh = D.handleAt fh := rfl

theorem content_setContent_ne (c : Option (List UInt8)) (hq : q ≠ p) :
    (D.setContent p c).content q = D.content q := if_neg hq

theorem content_modify_ne (f : List UInt8 → List UInt8) (hq : q ≠ p) :
    (D.modify p f).content q = D.content q := content_setContent_ne _ hq

theorem handleAt_openFile {creates truncates : Bool} :
    (D.openFile h creates truncates fh).handleAt fh' =
      if fh' = fh ∧ 0 ≤ fh' then some h else D.handleAt fh' := by
  unfold openFile
  rw [handleAt_setHandle]
  split_ifs <;> rfl

theorem content_openFile : (D.openFile h false false fh).content q = D.content q := by
  simp [openFile, setHandle]

@[simp] theorem handleAt_write : (D.write fh bytes n).handleAt fh' = D.handleAt fh' := by
  unfold write
  split <;> rfl

theorem write_of_neg (hfh : ¬ 0 ≤ fh) : D.write fh bytes n = D := by
  simp only [write, handleAt, if_neg hfh]

theorem content_write (hq : D.handleAt fh = some h) (hne : q ≠ h.path) :
    (D.write fh bytes n).content q = D.content q := by
  simp only [write, hq]
  exact content_modify_ne _ hne

end Disk

end TagFilesystem
