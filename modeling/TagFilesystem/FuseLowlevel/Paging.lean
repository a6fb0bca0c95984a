import TagFilesystem.FuseLowlevel.Coherence
import TagFilesystem.Library.Paging

namespace TagFilesystem.FuseLowlevel

variable {env : Env} {b : List UInt8} {entries : List (CStr × UInt64)}

/-- The bytes of an entry that continues at `off`. -/
def entryBytes (env : Env) (e : CStr × UInt64) (off : ℕ) : List UInt8 :=
  env.addDirentry e.1 e.2 off

/-- What `fuse_add_direntry` returns without a buffer. -/
def entrySize (env : Env) (e : CStr × UInt64) : ℕ := (env.addDirentry e.1 0 0).length

/-- An empty buffer to which the entries have been added in order. -/
def dirbuf (env : Env) (entries : List (CStr × UInt64)) : List UInt8 :=
  entries.foldl (fun b e => dirbufAdd env b e.1 e.2) []

theorem foldl_dirbufAdd
    (hlen : ∀ e ∈ entries, ∀ off, (entryBytes env e off).length = entrySize env e) :
    entries.foldl (fun b e => dirbufAdd env b e.1 e.2) b =
      b ++ encodeAll (entrySize env) (entryBytes env) b.length entries := by
  induction entries generalizing b with
  | nil => exact (List.append_nil b).symm
  | cons e entries ih =>
    have hadd : dirbufAdd env b e.1 e.2 = b ++ entryBytes env e (b.length + entrySize env e) := rfl
    rw [List.foldl_cons, ih fun e' he' => hlen e' (List.mem_cons_of_mem e he'), hadd,
      List.length_append, hlen e List.mem_cons_self, List.append_assoc, encodeAll_cons]

/-- The bytes of a reply. -/
def Reply.bytes : Reply → List UInt8
  | .buf bytes => bytes
  | _ => []

theorem bytes_replyBufLimited (buf : List UInt8) (off maxsize : ℕ) :
    (replyBufLimited buf off maxsize).bytes = (buf.drop off).take maxsize := by
  unfold replyBufLimited
  split_ifs with h
  · show (buf.drop (off : ℤ).toNat).take _ = _
    rw [Int.toNat_natCast]
    apply List.take_eq_take_iff.mpr
    rw [List.length_drop]
    omega
  · have hlen : buf.length ≤ off := by omega
    rw [List.drop_of_length_le hlen, List.take_nil]
    rfl

/-- For every list of entries and every page that holds the largest of them, a client that asks for
one page after another obtains exactly the entries, each once and in order, and comes to an end
with at most one page for each entry and an empty one. -/
theorem readAll_dirbuf {decode : List UInt8 → Option (((CStr × UInt64) × ℕ) × List UInt8)}
    (hc : Coding (entrySize env) (entryBytes env) decode (dirbuf env entries).length entries)
    {maxsize : ℕ} (hmax : ∀ e ∈ entries, entrySize env e ≤ maxsize) {fuel : ℕ}
    (hfuel : entries.length < fuel) : ∃ obtained,
      readAll decode (fun off => (replyBufLimited (dirbuf env entries) off maxsize).bytes) fuel 0 =
        some obtained ∧ obtained.map Prod.fst = entries := by
  have hbuf : dirbuf env entries = encodeAll (entrySize env) (entryBytes env) 0 entries :=
    (foldl_dirbufAdd hc.length).trans (List.nil_append _)
  have hlim : sizeAll (entrySize env) entries ≤ (dirbuf env entries).length := by
    rw [hbuf, hc.length_encodeAll]
  refine ⟨_, readAll_eq hc hlim hmax (fun off => ?_) hfuel, map_fst_records _ _ _⟩
  rw [bytes_replyBufLimited, hbuf]

/-- The `width` bytes of a number, the lowest first. -/
def toBytes : ℕ → ℕ → List UInt8
  | 0, _ => []
  | width + 1, n => UInt8.ofNat n :: toBytes width (n / 256)

def ofBytes : List UInt8 → ℕ
  | [] => 0
  | b :: bytes => b.toNat + 256 * ofBytes bytes

theorem ofBytes_toBytes_four {n : ℕ} (h : n < 4294967296) : ofBytes (toBytes 4 n) = n := by
  simp only [toBytes, ofBytes, UInt8.toNat_ofNat']
  omega

theorem ofBytes_toBytes_eight {n : ℕ} (h : n < 18446744073709551616) :
    ofBytes (toBytes 8 n) = n := by
  simp only [toBytes, ofBytes, UInt8.toNat_ofNat']
  omega

theorem cstr_map_val (name : CStr) : cstr (name.map Subtype.val) = name := by
  induction name with
  | nil => rfl
  | cons c name ih =>
    rw [List.map_cons, cstr, dif_pos c.property, ih]

/-- The header of `struct fuse_dirent`: inode number, offset, length of the name and type. -/
def direntHeader (namelen : ℕ) (ino : UInt64) (off : ℕ) : List UInt8 :=
  toBytes 8 ino.toNat ++ toBytes 8 off ++ toBytes 4 namelen ++ toBytes 4 0

/-- The space for a name is filled up to a multiple of 8. -/
def nameSize (namelen : ℕ) : ℕ := (namelen + 7) / 8 * 8

def direntBytes (name : CStr) (ino : UInt64) (off : ℕ) : List UInt8 :=
  direntHeader name.length ino off ++ padded (name.map Subtype.val) (nameSize name.length)

def readDirent (bytes : List UInt8) : Option (((CStr × UInt64) × ℕ) × List UInt8) :=
  let namelen := ofBytes ((bytes.drop 16).take 4)
  if bytes.length < 24 + nameSize namelen then none
  else some (((cstr ((bytes.drop 24).take namelen), UInt64.ofNat (ofBytes (bytes.take 8))),
    ofBytes ((bytes.drop 8).take 8)), bytes.drop (24 + nameSize namelen))

def direntEnv : Env := { sampleEnv with addDirentry := direntBytes }

theorem length_padded_name (name : CStr) :
    (padded (name.map Subtype.val) (nameSize name.length)).length = nameSize name.length := by
  rw [padded, List.length_append, List.length_replicate, List.length_map, nameSize]
  omega

theorem readDirent_header {name : CStr} {ino : UInt64} {off : ℕ} {bytes : List UInt8}
    (hname : name.length < 4294967296) (hoff : off < 18446744073709551616) :
    readDirent (direntHeader name.length ino off ++ bytes) =
      if bytes.length < nameSize name.length then none
      else some (((cstr (bytes.take name.length), ino), off),
        bytes.drop (nameSize name.length)) := by
  have hlen : ofBytes (((direntHeader name.length ino off ++ bytes).drop 16).take 4) =
      name.length := ofBytes_toBytes_four hname
  have hino : ofBytes ((direntHeader name.length ino off ++ bytes).take 8) = ino.toNat :=
    ofBytes_toBytes_eight ino.toNat_lt
  have hend : ofBytes (((direntHeader name.length ino off ++ bytes).drop 8).take 8) = off :=
    ofBytes_toBytes_eight hoff
  have hrest : (direntHeader name.length ino off ++ bytes).drop 24 = bytes := rfl
  have hsize : (direntHeader name.length ino off ++ bytes).length = 24 + bytes.length :=
    List.length_append
  simp only [readDirent, hlen, hino, hend, ← List.drop_drop, hrest, hsize, UInt64.ofNat_toNat,
    Nat.add_lt_add_iff_left]

theorem length_direntBytes (name : CStr) (ino : UInt64) (off : ℕ) :
    (direntBytes name ino off).length = 24 + nameSize name.length := by
  rw [direntBytes, List.length_append, length_padded_name]
  rfl

theorem coding_direntEnv {limit : ℕ} (hname : ∀ e ∈ entries, e.1.length < 4294967296)
    (hlimit : limit < 18446744073709551616) :
    Coding (entrySize direntEnv) (entryBytes direntEnv) readDirent limit entries where
  length e _ off := (length_direntBytes e.1 e.2 off).trans (length_direntBytes e.1 0 0).symm
  pos e _ := by
    have hlen : entrySize direntEnv e = 24 + nameSize e.1.length := length_direntBytes e.1 0 0
    omega
  whole e he off hoff rest := by
    have hpad := length_padded_name e.1
    show readDirent (direntBytes e.1 e.2 off ++ rest) = _
    rw [direntBytes, List.append_assoc, readDirent_header (hname e he) (by omega),
      if_neg (by rw [List.length_append]; omega), List.drop_left' hpad, padded, List.append_assoc,
      List.take_left' (List.length_map _), cstr_map_val]
  part e he off hoff n hn := by
    have hlen : entrySize direntEnv e = 24 + nameSize e.1.length := length_direntBytes e.1 0 0
    show readDirent ((direntBytes e.1 e.2 off).take n) = none
    by_cases hn24 : n < 24
    · apply if_pos
      rw [List.length_take]
      omega
    · have hheader : (direntHeader e.1.length e.2 off).length = 24 := rfl
      rw [direntBytes, List.take_append, List.take_of_length_le (by omega), hheader,
        readDirent_header (hname e he) (by omega)]
      apply if_pos
      rw [List.length_take]
      omega
  nil := rfl

/-- Three entries of 32 bytes each are read in pages of 40 bytes. -/
theorem readAll_dirbuf_sample : (dirbuf direntEnv [(dot, 1), (dotdot, 1), (nameF, 2)]).length = 96 ∧
    ∃ obtained, readAll readDirent (fun off => (replyBufLimited
        (dirbuf direntEnv [(dot, 1), (dotdot, 1), (nameF, 2)]) off 40).bytes) 4 0 = some obtained ∧
      obtained.map Prod.fst = [(dot, 1), (dotdot, 1), (nameF, 2)] := by
  have hlen : (dirbuf direntEnv [(dot, 1), (dotdot, 1), (nameF, 2)]).length = 96 := by
    decide +kernel
  have hcoding : Coding (entrySize direntEnv) (entryBytes direntEnv) readDirent
      (dirbuf direntEnv [(dot, 1), (dotdot, 1), (nameF, 2)]).length
      [(dot, 1), (dotdot, 1), (nameF, 2)] :=
    coding_direntEnv (by decide) (by rw [hlen]; decide)
  exact ⟨hlen, readAll_dirbuf hcoding (by decide) (by decide)⟩

end TagFilesystem.FuseLowlevel
