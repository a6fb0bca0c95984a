import TagFilesystem.FuseLowlevel.Coherence

namespace TagFilesystem.FuseLowlevel

open Cutil (INT_MAX)

variable {env : Env} {s : Store} {i : InodeId} {I : Inode} {number : UInt64} {c : List UInt8}
  {off size : ℕ} {fh : ℤ}

theorem toInt_ofNat {n : ℕ} (h : (n : ℤ) ≤ INT_MAX) : (Int32.ofNat n).toInt = n :=
  Int32.toInt_ofNat_of_lt (by rw [INT_MAX] at h; omega)

theorem toInt_le (i : Int32) : i.toInt ≤ INT_MAX := Int32.toInt_le i

/-- The bytes with which `tag_read` replies when the file has the content `c` and at most `INT_MAX`
bytes are asked for. -/
def replyBytes (c : List UInt8) (off size : ℕ) : List UInt8 :=
  if off < size then (padded ((c.drop off).take size) size).drop off else []

theorem length_padded {bytes : List UInt8} (h : bytes.length ≤ size) :
    (padded bytes size).length = size := by
  rw [padded, List.length_append, List.length_replicate]
  omega

theorem length_block : ((c.drop off).take size).length ≤ size := by
  rw [List.length_take]
  exact Nat.min_le_left _ _

theorem replyBufLimited_of_length {buffer : List UInt8} (hlen : buffer.length = size) :
    replyBufLimited buffer off size = .buf (if off < size then buffer.drop off else []) := by
  unfold replyBufLimited
  rw [hlen]
  by_cases hoff : off < size
  · rw [if_pos ⟨Int.natCast_nonneg off, Int.ofNat_lt.mpr hoff⟩, if_pos hoff, Int.toNat_natCast]
    congr 1
    apply List.take_of_length_le
    rw [List.length_drop, hlen]
    omega
  · rw [if_neg hoff, if_neg fun hlt => hoff (Int.ofNat_lt.mp hlt.2)]

theorem finishRead_of_le {bytes : List UInt8} (h : bytes.length ≤ size)
    (hsize : (size : ℤ) ≤ INT_MAX) : finishRead env bytes size = .ok (.ok (padded bytes size)) := by
  have hres : (Int32.ofNat bytes.length).toInt = bytes.length := toInt_ofNat (by omega)
  unfold finishRead
  dsimp only
  rw [hres, if_pos hsize, Int.toNat_natCast, List.take_length]
  split_ifs with hshort hneg hfull
  · rfl
  · omega
  · rw [padded, hfull, Nat.sub_self]
    simp
  · omega

/-- Of more than `INT_MAX` bytes only a full buffer is given back, and that only when their number
is negative as an `int` and `errno` is not set. -/
theorem finishRead_of_lt {bytes buffer : List UInt8} (hsize : INT_MAX < (size : ℤ)) :
    finishRead env bytes size = .ok (.ok buffer) ↔
      (Int32.ofNat size).toInt < 0 ∧ env.errno ≤ 0 ∧ bytes.length = size ∧ buffer = bytes := by
  have hres := toInt_le (Int32.ofNat bytes.length)
  unfold finishRead
  dsimp only
  rw [if_neg (Int.not_le.mpr hsize)]
  split_ifs with hover herr hfull
  · refine iff_of_false nofun ?_
    rintro ⟨hneg, -, rfl, -⟩
    omega
  · refine iff_of_false (by simp) ?_
    rintro ⟨-, herrno, -⟩
    omega
  · have hneg : (Int32.ofNat bytes.length).toInt < 0 := by omega
    rw [← hfull]
    constructor
    · intro h
      exact ⟨hneg, by omega, rfl, by simpa using h.symm⟩
    · rintro ⟨-, -, -, rfl⟩
      rfl
  · exact iff_of_false nofun fun h => hfull h.2.2.1

theorem tagRead_finish (hi : inodeGet s number = some i) (hI : s.inodeHeap.get? i = some I)
    (hreg : I.isTagfile = false) (hread : env.read fh size off = .ok ((c.drop off).take size)) :
    tagRead env s number size off fh = (do
      match ← finishRead env ((c.drop off).take size) size with
      | .error e => .ok ([.err e], s)
      | .ok buffer => .ok ([replyBufLimited buffer off size], s)) := by
  have hfile : fileRead env fh size off = finishRead env ((c.drop off).take size) size := by
    simp only [fileRead, hread]
  unfold tagRead
  simp only [hi, sat_readInode hI, ok_bind, hreg, Bool.false_eq_true, if_false]
  cases hres : finishRead env ((c.drop off).take size) size with
  | error e => simp only [hfile, hres, bind, Except.bind]
  | ok res => cases res <;> simp only [hfile, hres, ok_bind]

theorem tagRead_of_lt (hi : inodeGet s number = some i) (hI : s.inodeHeap.get? i = some I)
    (hreg : I.isTagfile = false) (hread : env.read fh size off = .ok ((c.drop off).take size))
    (hsize : INT_MAX < (size : ℤ)) {bytes : List UInt8} {s' : Store} :
    tagRead env s number size off fh = .ok ([.buf bytes], s') ↔
      ((Int32.ofNat size).toInt < 0 ∧ env.errno ≤ 0) ∧ off + size ≤ c.length ∧
        bytes = (if off < size then ((c.drop off).take size).drop off else []) ∧ s' = s := by
  have hlen : ((c.drop off).take size).length = size ↔ off + size ≤ c.length := by
    have hpos : 0 < size := by
      rw [INT_MAX] at hsize
      omega
    rw [List.length_take, List.length_drop]
    omega
  rw [tagRead_finish hi hI hreg hread, bind_eq_ok]
  constructor
  · rintro ⟨res, hfinish, h⟩
    cases res with
    | error e => cases h
    | ok buffer =>
      obtain ⟨hneg, herrno, hfull, rfl⟩ := (finishRead_of_lt hsize).mp hfinish
      dsimp only at h
      rw [replyBufLimited_of_length hfull] at h
      obtain ⟨rfl, rfl⟩ : _ ∧ _ := by simpa using h.symm
      exact ⟨⟨hneg, herrno⟩, hlen.mp hfull, rfl, rfl⟩
  · rintro ⟨⟨hneg, herrno⟩, hfull, rfl, rfl⟩
    refine ⟨_, (finishRead_of_lt hsize).mpr ⟨hneg, herrno, hlen.mpr hfull, rfl⟩, ?_⟩
    dsimp only
    rw [replyBufLimited_of_length (hlen.mpr hfull)]

theorem tagRead_eq (hi : inodeGet s number = some i) (hI : s.inodeHeap.get? i = some I)
    (hreg : I.isTagfile = false) (hread : env.read fh size off = .ok ((c.drop off).take size))
    (hsize : (size : ℤ) ≤ INT_MAX) :
    tagRead env s number size off fh = .ok ([.buf (replyBytes c off size)], s) := by
  rw [tagRead_finish hi hI hreg hread, finishRead_of_le length_block hsize, ok_bind]
  dsimp only
  rw [replyBufLimited_of_length (length_padded length_block)]
  rfl

/-- A list that stays the same when it is moved by `off` and filled up with zeros. -/
theorem drop_zeros_eq_iff {l : List UInt8} (hoff : 0 < off) :
    (l ++ List.replicate off 0).drop off = l ↔ ∀ b ∈ l, b = 0 := by
  constructor
  · intro h
    have hmove : ∀ i < l.length, l[i]?.getD 0 = l[off + i]?.getD 0 := by
      intro i hi
      have hget := congrArg (fun l : List UInt8 => l[i]?.getD 0) h
      simp only [List.getElem?_drop, List.getElem?_append] at hget
      rw [← hget]
      split_ifs with hlt
      · rfl
      · rw [List.getElem?_eq_none (Nat.not_lt.mp hlt), List.getElem?_replicate]
        split_ifs <;> rfl
    -- every byte equals a later one, and there is nothing but zeros after the last
    have hzero : ∀ m i, l.length - i ≤ m → l[i]?.getD 0 = 0 := by
      intro m
      induction m with
      | zero =>
        intro i hi
        rw [List.getElem?_eq_none (by omega)]
        rfl
      | succ m ih =>
        intro i hi
        by_cases hlt : i < l.length
        · rw [hmove i hlt]
          exact ih (off + i) (by omega)
        · rw [List.getElem?_eq_none (Nat.not_lt.mp hlt)]
          rfl
    intro b hb
    obtain ⟨i, hi, rfl⟩ := List.getElem_of_mem hb
    have hz := hzero l.length i (Nat.sub_le _ _)
    rwa [List.getElem?_eq_getElem hi] at hz
  · intro h
    rw [List.eq_replicate_of_mem h, List.replicate_append_replicate, List.drop_replicate,
      Nat.add_sub_cancel]

/-- The three ways to read a block of at most `INT_MAX` bytes as it is in the file: from the start
and inside the file, beyond both the file and the block, and across zeros only. -/
def BlockExact (c : List UInt8) (off size : ℕ) : Prop :=
  off = 0 ∧ size ≤ c.length ∨
    size ≤ off ∧ (size = 0 ∨ c.length ≤ off) ∨
    0 < off ∧ off < size ∧ size = c.length ∧ ∀ b ∈ c.drop off, b = 0

instance : Decidable (BlockExact c off size) := inferInstanceAs (Decidable (_ ∨ _ ∨ _))

/-- A larger block is read as it is from the start of the file only, when its size is negative as an
`int` and `errno` is not set. -/
def ReadExact (errno : ℤ) (c : List UInt8) (off size : ℕ) : Prop :=
  (size : ℤ) ≤ INT_MAX ∧ BlockExact c off size ∨
    INT_MAX < (size : ℤ) ∧ (Int32.ofNat size).toInt < 0 ∧ errno ≤ 0 ∧ off = 0 ∧ size ≤ c.length

theorem replyBytes_eq_iff : replyBytes c off size = (c.drop off).take size ↔
    BlockExact c off size := by
  unfold replyBytes BlockExact
  have hblock : ((c.drop off).take size).length = min size (c.length - off) := by
    rw [List.length_take, List.length_drop]
  by_cases hoff : off < size
  · rw [if_pos hoff]
    rcases Nat.eq_zero_or_pos off with rfl | hpos
    · have hiff : padded (c.take size) size = c.take size ↔ size ≤ c.length := by
        constructor
        · intro h
          have hlen := congrArg List.length h
          rw [length_padded (List.length_take_le _ _), List.length_take] at hlen
          omega
        · intro h
          rw [padded, List.length_take, Nat.min_eq_left h, Nat.sub_self]
          exact List.append_nil _
      rw [List.drop_zero, List.drop_zero, hiff]
      constructor
      · exact fun h => .inl ⟨rfl, h⟩
      · rintro (⟨-, h⟩ | ⟨h, -⟩ | ⟨h, -⟩)
        · exact h
        · omega
        · omega
    · by_cases hsize : size = c.length
      · have htake : (c.drop off).take size = c.drop off :=
          List.take_of_length_le (by rw [List.length_drop]; omega)
        have hpad : padded (c.drop off) size = c.drop off ++ List.replicate off 0 := by
          rw [padded, List.length_drop, hsize, Nat.sub_sub_self (by omega)]
        rw [htake, hpad, drop_zeros_eq_iff hpos]
        constructor
        · exact fun h => .inr (.inr ⟨hpos, hoff, hsize, h⟩)
        · rintro (⟨h, -⟩ | ⟨h, -⟩ | ⟨-, -, -, h⟩)
          · omega
          · omega
          · exact h
      · -- the lengths differ
        refine iff_of_false (fun h => ?_) ?_
        · have hlen := congrArg List.length h
          rw [List.length_drop, length_padded length_block, hblock] at hlen
          omega
        · rintro (⟨h, -⟩ | ⟨h, -⟩ | ⟨-, -, h, -⟩)
          · omega
          · omega
          · exact hsize h
  · rw [if_neg hoff, eq_comm, ← List.length_eq_zero_iff, hblock]
    constructor
    · intro h
      omega
    · rintro (⟨h, -⟩ | ⟨-, h⟩ | ⟨-, h, -⟩)
      · omega
      · omega
      · omega

theorem tagRead_eq_block_iff (hi : inodeGet s number = some i)
    (hI : s.inodeHeap.get? i = some I) (hreg : I.isTagfile = false)
    (hread : env.read fh size off = .ok ((c.drop off).take size)) :
    tagRead env s number size off fh = .ok ([.buf ((c.drop off).take size)], s) ↔
      ReadExact env.errno c off size := by
  by_cases hsize : (size : ℤ) ≤ INT_MAX
  · rw [tagRead_eq hi hI hreg hread hsize, ReadExact, ← replyBytes_eq_iff]
    constructor
    · intro h
      exact .inl ⟨hsize, by simpa using h⟩
    · rintro (⟨-, h⟩ | ⟨hlt, -⟩)
      · rw [h]
      · omega
  · have hlt := Int.not_le.mp hsize
    rw [tagRead_of_lt hi hI hreg hread hlt]
    constructor
    · rintro ⟨⟨hneg, herrno⟩, hfull, hbytes, -⟩
      have hblock : ((c.drop off).take size).length = size := by
        rw [List.length_take, List.length_drop]
        omega
      -- the reply lacks as many bytes as the offset says
      have hoff : off = 0 := by
        have hlen := congrArg List.length hbytes
        have hpos : 0 < size := by
          rw [INT_MAX] at hlt
          omega
        split_ifs at hlen with hoff
        · rw [List.length_drop, hblock] at hlen
          omega
        · rw [hblock, List.length_nil] at hlen
          omega
      exact .inr ⟨hlt, hneg, herrno, hoff, by omega⟩
    · rintro (⟨hle, -⟩ | ⟨-, hneg, herrno, rfl, hfull⟩)
      · exact absurd hle hsize
      · refine ⟨⟨hneg, herrno⟩, by omega, ?_, rfl⟩
        rw [if_pos (by rw [INT_MAX] at hlt; omega), List.drop_zero, List.drop_zero]

/-- Reads at most `count` consecutive blocks, until a reply is empty; `none` when there is no such
reply. -/
def readBlocks (env : Env) (s : Store) (number : UInt64) (size : ℕ) (fh : ℤ) :
    ℕ → ℕ → Option (List UInt8)
  | 0, _ => none
  | count + 1, off =>
    match tagRead env s number size off fh with
    | .ok ([.buf bytes], s) =>
      if bytes = [] then some []
      else (readBlocks env s number size fh count (off + bytes.length)).map (bytes ++ ·)
    | _ => none

section Blocks

variable {count : ℕ}

theorem readBlocks_nil (h : tagRead env s number size off fh = .ok ([.buf []], s)) :
    readBlocks env s number size fh (count + 1) off = some [] := by
  rw [readBlocks, h]
  rfl

theorem readBlocks_append {bytes : List UInt8} (hne : bytes ≠ [])
    (h : tagRead env s number size off fh = .ok ([.buf bytes], s)) :
    readBlocks env s number size fh (count + 1) off =
      (readBlocks env s number size fh count (off + bytes.length)).map (bytes ++ ·) := by
  rw [readBlocks, h]
  exact if_neg hne

theorem tagRead_of_readBlocks {bytes : List UInt8}
    (h : readBlocks env s number size fh (count + 1) off = some bytes) :
    ∃ first s', tagRead env s number size off fh = .ok ([.buf first], s') := by
  rw [readBlocks] at h
  split at h
  · next hread => exact ⟨_, _, hread⟩
  · cases h

theorem readBlocks_of_le (hi : inodeGet s number = some i) (hI : s.inodeHeap.get? i = some I)
    (hreg : I.isTagfile = false)
    (hread : ∀ off : ℕ, env.read fh size off = .ok ((c.drop off).take size))
    (hsize : (size : ℤ) ≤ INT_MAX) :
    readBlocks env s number size fh (count + 2) 0 = some (padded (c.take size) size) := by
  have hlen := length_padded (List.length_take_le size c)
  have hreply := fun off => tagRead_eq hi hI hreg (hread off) hsize
  have hlast : replyBytes c size size = [] := if_neg (Nat.lt_irrefl size)
  rcases Nat.eq_zero_or_pos size with rfl | hpos
  · have hfirst := hreply 0
    rw [hlast] at hfirst
    rw [readBlocks_nil hfirst, List.length_eq_zero_iff.mp hlen]
  · have hfirst : replyBytes c 0 size = padded (c.take size) size := by
      rw [replyBytes, if_pos hpos, List.drop_zero, List.drop_zero]
    have hne : padded (c.take size) size ≠ [] := by
      intro h
      rw [h] at hlen
      exact hpos.ne hlen
    have hsecond := hreply size
    rw [hlast] at hsecond
    rw [readBlocks_append hne (hfirst ▸ hreply 0), hlen, Nat.zero_add, readBlocks_nil hsecond]
    exact congrArg some (List.append_nil _)

theorem readBlocks_ne_of_lt (hi : inodeGet s number = some i) (hI : s.inodeHeap.get? i = some I)
    (hreg : I.isTagfile = false)
    (hread : ∀ off : ℕ, env.read fh size off = .ok ((c.drop off).take size))
    (hsize : INT_MAX < (size : ℤ)) :
    readBlocks env s number size fh (count + 2) 0 ≠ some c := by
  intro h
  have hpos : 0 < size := by
    rw [INT_MAX] at hsize
    omega
  have hreply := fun off => @tagRead_of_lt _ _ _ _ _ _ _ _ _ hi hI hreg (hread off) hsize
  obtain ⟨first, s', hfirst⟩ := tagRead_of_readBlocks h
  obtain ⟨-, hlen, rfl, rfl⟩ := (hreply 0).mp hfirst
  rw [if_pos hpos, List.drop_zero, List.drop_zero] at hfirst
  have hblock : (c.take size).length = size := by
    rw [List.length_take]
    omega
  have hne : c.take size ≠ [] := by
    intro hnil
    rw [hnil] at hblock
    exact hpos.ne hblock
  rw [readBlocks_append hne hfirst, hblock, Nat.zero_add] at h
  obtain ⟨rest, hrest, happ⟩ := Option.map_eq_some_iff.mp h
  obtain ⟨second, s', hsecond⟩ := tagRead_of_readBlocks hrest
  obtain ⟨-, hmore, rfl, rfl⟩ := (hreply size).mp hsecond
  rw [if_neg (Nat.lt_irrefl size)] at hsecond
  rw [readBlocks_nil hsecond] at hrest
  obtain rfl := Option.some.inj hrest
  have hc := congrArg List.length happ
  rw [List.length_append, hblock, List.length_nil] at hc
  omega

end Blocks

/-- `tag_read` of a regular file replies with the bytes of the file exactly if the block is one
of those, and block by block the file is read as it is only with blocks of its size. -/
theorem tagRead_exact_iff (hi : inodeGet s number = some i) (hI : s.inodeHeap.get? i = some I)
    (hreg : I.isTagfile = false)
    (hread : ∀ off : ℕ, env.read fh size off = .ok ((c.drop off).take size)) :
    (∀ off : ℕ, tagRead env s number size off fh = .ok ([.buf ((c.drop off).take size)], s) ↔
      ReadExact env.errno c off size) ∧
    ∀ count, readBlocks env s number size fh (count + 2) 0 = some c ↔
      size = c.length ∧ (size : ℤ) ≤ INT_MAX := by
  refine ⟨fun off => tagRead_eq_block_iff hi hI hreg (hread off), fun count => ?_⟩
  by_cases hsize : (size : ℤ) ≤ INT_MAX
  · rw [readBlocks_of_le hi hI hreg hread hsize]
    constructor
    · intro h
      have hlen := congrArg List.length (Option.some.inj h)
      rw [length_padded (List.length_take_le size c)] at hlen
      exact ⟨hlen, hsize⟩
    · rintro ⟨h, -⟩
      rw [padded, List.take_of_length_le h.ge, h, Nat.sub_self]
      exact congrArg some (List.append_nil c)
  · exact iff_of_false (readBlocks_ne_of_lt hi hI hreg hread (Int.not_le.mp hsize))
      fun h => hsize h.2

/-- A system in which every descriptor reads `hi`. -/
def contentEnv : Env :=
  { sampleEnv with read := fun _ len off => .ok (([104, 105].drop off.toNat).take len) }

theorem exists_regular : ∃ s I, sampleRun [] = some s ∧ inodeGet s 2 = some 1 ∧
    s.inodeHeap.get? 1 = some I ∧ I.isTagfile = false := by
  have hrun : (sampleRun []).any (fun s => (s.inodeHeap.get? 1).any fun I =>
      inodeGet s 2 = some 1 ∧ I.isTagfile = false) = true := by decide +kernel
  obtain ⟨s, hs, hp⟩ := (Option.any_eq_true _ _).mp hrun
  obtain ⟨I, hI, hp⟩ := (Option.any_eq_true _ _).mp hp
  obtain ⟨hget, hreg⟩ := of_decide_eq_true hp
  exact ⟨s, I, hs, hget, hI, hreg⟩

/-- A read of the whole file, and a read of one byte that comes back empty. -/
theorem tagRead_exact_iff_sample : ∃ s, sampleRun [] = some s ∧
    tagRead contentEnv s 2 2 0 3 = .ok ([.buf [104, 105]], s) ∧
    readBlocks contentEnv s 2 2 3 7 0 = some [104, 105] ∧
    tagRead contentEnv s 2 1 1 3 ≠ .ok ([.buf [105]], s) := by
  obtain ⟨s, I, hs, hget, hI, hreg⟩ := exists_regular
  have htwo := @tagRead_exact_iff contentEnv s 1 I 2 [104, 105] 2 3 hget hI hreg fun _ => rfl
  have hone := @tagRead_exact_iff contentEnv s 1 I 2 [104, 105] 1 3 hget hI hreg fun _ => rfl
  refine ⟨s, hs, (htwo.1 0).mpr (.inl ⟨by decide, .inl ⟨rfl, by decide⟩⟩),
    (htwo.2 5).mpr ⟨rfl, by decide⟩, fun h => ?_⟩
  obtain ⟨-, h⟩ | ⟨h, -⟩ := (hone.1 1).mp h
  · exact absurd h (by decide)
  · exact absurd h (by decide)

/-- A read of one byte at offset 1 gets nothing. -/
theorem read_offset_twice : ¬ ∀ env s number i I (c : List UInt8) (off size : ℕ) fh,
    inodeGet s number = some i →
    s.inodeHeap.get? i = some I → I.isTagfile = false →
    (∀ off : ℕ, env.read fh size off = .ok ((c.drop off).take size)) →
    tagRead env s number size off fh = .ok ([.buf ((c.drop off).take size)], s) := by
  intro h
  obtain ⟨s, I, hs, hget, hI, hreg⟩ := exists_regular
  have hread := h contentEnv s 2 1 I [104, 105] 1 1 3 hget hI hreg fun _ => rfl
  rw [tagRead_eq (c := [104, 105]) hget hI hreg rfl (by decide)] at hread
  cases hread

end TagFilesystem.FuseLowlevel
