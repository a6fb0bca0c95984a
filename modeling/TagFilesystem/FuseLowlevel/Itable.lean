import TagFilesystem.FuseLowlevel.Updates

namespace TagFilesystem.FuseLowlevel

variable {c : Prop} {env : Env} {s s' : Store} {t : Option TagId} {f : FileId}
  {i j p : InodeId} {I J P : Inode} {k n name : CStr} {number : UInt64} {st : Stat}

/-- The number of the inode at address `i`. -/
def numberAt (i : InodeId) : UInt64 := toNumber (UInt64.ofNat (i + 1))

@[simp] theorem numberAt_zero : numberAt 0 = 1 := rfl

theorem toNumber_inj {a b : UInt64} (h : toNumber a = toNumber b) : a.toUInt32 = b.toUInt32 := by
  have h64 : a.toUInt32.toInt32.toInt64 = b.toUInt32.toInt32.toInt64 := congrArg UInt64.toInt64 h
  have h32 : a.toUInt32.toInt32 = b.toUInt32.toInt32 := by
    rw [← Int32.toInt_inj, ← Int32.toInt_toInt64, h64, Int32.toInt_toInt64]
  exact congrArg Int32.toUInt32 h32

theorem numberAt_inj {i j : ℕ} (hi : i < UInt32.size) (hj : j < UInt32.size)
    (h : numberAt i = numberAt j) : i = j := by
  have hn := congrArg UInt32.toNat (toNumber_inj h)
  simp only [UInt64.toNat_toUInt32, UInt64.toNat_ofNat'] at hn
  unfold UInt32.size at hi hj
  omega

/-- The part of the store that `inode.c` works on. -/
def Store.inodes (s : Store) : Table UInt64 InodeId × Heap Inode × UInt64 :=
  (s.itable, s.inodeHeap, s.nextIno)

structure Store.Indexed (s : Store) : Prop where
  entry : ∀ {n i}, (n, i) ∈ s.itable.entries ↔ ∃ I, s.inodeHeap.get? i = some I ∧ I.number = n
  number : ∀ {i I}, s.inodeHeap.get? i = some I → I.number = numberAt i
  counter : s.nextIno = UInt64.ofNat (s.inodeHeap.next + 1)

theorem indexed_init : Store.init.Indexed where
  entry := by
    intro n i
    constructor
    · intro h
      cases h
    · rintro ⟨I, hI, -⟩
      cases hI
  number h := by cases h
  counter := rfl

theorem Store.Indexed.congr (h : s.Indexed) (hs : s'.inodes = s.inodes) : s'.Indexed := by
  obtain ⟨h₁, h₂⟩ := Prod.mk.inj hs
  obtain ⟨h₂, h₃⟩ := Prod.mk.inj h₂
  constructor
  · intro n i
    rw [h₁, h₂]
    exact h.entry
  · intro i I hI
    rw [h₂] at hI
    exact h.number hI
  · rw [h₂, h₃]
    exact h.counter

namespace Store.Indexed

variable (h : s.Indexed)
include h

theorem live (hi : inodeGet s number = some i) :
    ∃ I, s.inodeHeap.get? i = some I ∧ I.number = number :=
  h.entry.mp (Table.mem_of_get? hi)

theorem toNumber_counter : toNumber s.nextIno = numberAt s.inodeHeap.next := by
  rw [h.counter, numberAt]

theorem addInode (hI : I.number = toNumber s.nextIno) : (s.addInode I).Indexed where
  entry {n i} := by
    show (n, i) ∈ s.itable.entries ++ [(I.number, s.inodeHeap.next)] ↔
      ∃ J, (s.inodeHeap.alloc I).get? i = some J ∧ J.number = n
    rw [List.mem_append, List.mem_singleton, h.entry, Heap.get?_alloc]
    split_ifs with hi
    · subst hi
      simp [Heap.get?_eq_none (Nat.le_refl _), eq_comm]
    · simp [hi]
  number {i J} hJ := by
    obtain ⟨hi, rfl⟩ | ⟨-, hJ⟩ := Heap.get?_alloc_cases hJ
    · rw [hI, hi, h.toNumber_counter]
    · exact h.number hJ
  counter := by
    show s.nextIno + 1 = UInt64.ofNat ((s.inodeHeap.alloc I).next + 1)
    rw [Heap.next_alloc, h.counter, UInt64.ofNat_add (s.inodeHeap.next + 1)]
    rfl

theorem writeInode (hI : s.inodeHeap.get? i = some I) (hJ : J.number = I.number) :
    (s.writeInode i J).Indexed where
  entry {n j} := by
    apply h.entry.trans
    show _ ↔ ∃ K, (s.inodeHeap.write i J).get? j = some K ∧ K.number = n
    by_cases hj : j = i
    · subst hj
      simp [hI, Heap.get?_write_self hI, hJ]
    · rw [Heap.get?_write_ne hj]
  number {j K} hK := by
    obtain ⟨rfl, rfl⟩ | ⟨-, hK⟩ := Heap.get?_write_cases hK
    · rw [hJ, h.number hI]
    · exact h.number hK
  counter := by
    show s.nextIno = UInt64.ofNat ((s.inodeHeap.write i J).next + 1)
    rw [Heap.next_write, h.counter]

theorem delete : Store.Indexed { s with
    itable := s.itable.eraseValue i
    inodeHeap := s.inodeHeap.free i } where
  entry {n j} := by
    show (n, j) ∈ s.itable.entries.filter _ ↔ ∃ K, (s.inodeHeap.free i).get? j = some K ∧ K.number = n
    rw [List.mem_filter, h.entry, Heap.get?_free]
    by_cases hj : j = i <;> simp [hj]
  number {j K} hK := by
    exact h.number (Heap.of_get?_free hK).2
  counter := by
    show s.nextIno = UInt64.ofNat ((s.inodeHeap.free i).next + 1)
    rw [Heap.next_free, h.counter]

/-- While numbers do not repeat, `inode_get` finds every inode by its number. -/
theorem inodeGet_eq (hmax : s.inodeHeap.next ≤ UInt32.size) (hI : s.inodeHeap.get? i = some I) :
    inodeGet s I.number = some i := by
  have hmem : (I.number, i) ∈ s.itable.entries := h.entry.mpr ⟨I, hI, rfl⟩
  have hkey : s.itable.contains I.number = true :=
    Table.contains_iff.mpr (List.mem_map.mpr ⟨_, hmem, rfl⟩)
  obtain ⟨j, hj⟩ := Table.contains_iff_get?.mp hkey
  obtain ⟨J, hJ, hn⟩ : ∃ J, s.inodeHeap.get? j = some J ∧ J.number = I.number := h.live hj
  rw [h.number hJ, h.number hI] at hn
  rw [inodeGet, hj, numberAt_inj ((Heap.lt_next hJ).trans_le hmax)
    ((Heap.lt_next hI).trans_le hmax) hn]

end Store.Indexed

theorem returns_tagFile : Returns (tagFile s t f) fun s' =>
    s'.inodes = s.inodes ∧ s'.files = s.files ∧ s'.tags = s.tags := by
  refine (returns_true _).bind fun T _ => (returns_true _).bind fun F _ => ?_
  cases t with
  | none => trivial
  | some t => exact ⟨rfl, rfl, rfl⟩

theorem returns_untagFile : Returns (untagFile s t f) fun s' =>
    s'.inodes = s.inodes ∧ s'.files = s.files ∧ s'.tags = s.tags := by
  refine (returns_true _).bind fun T _ => (returns_true _).bind fun F _ => ?_
  cases t with
  | none => trivial
  | some t => exact ⟨rfl, rfl, rfl⟩

theorem inodes_tagGetOrCreate (s : Store) (k : CStr) :
    (tagGetOrCreate s k).2.inodes = s.inodes := by
  unfold tagGetOrCreate
  split <;> rfl

theorem Update.indexed (h : Update c s s') (hs : s.Indexed) : s'.Indexed := by
  cases h with
  | inode st hi => exact hs.writeInode hi rfl
  | count hc hi => exact hs.writeInode hi rfl
  | generation g => exact hs.congr rfl
  | directory hp hk hn => exact hs.addInode rfl
  | file env hn => exact (hs.addInode (I := fileInode _ s _) rfl).congr rfl
  | tag hk => exact hs.congr (inodes_tagGetOrCreate s _)
  | attach ht hn h => exact hs.congr (returns_tagFile.of_ok h).1
  | detach ht hn h => exact hs.congr (returns_untagFile.of_ok h).1

/-- An inode stays where it is; only its attributes and, with `c`, its lookup count change. -/
theorem Update.kept (h : Update c s s') (hI : s.inodeHeap.get? i = some I) :
    ∃ st m, s'.inodeHeap.get? i = some { I with st := st, nlookup := m } ∧
      (¬ c → m = I.nlookup) := by
  have same : s'.inodes = s.inodes → ∃ st m,
      s'.inodeHeap.get? i = some { I with st := st, nlookup := m } ∧
        (¬ c → m = I.nlookup) := by
    intro hs
    refine ⟨I.st, I.nlookup, ?_, fun _ => rfl⟩
    rw [show s'.inodeHeap = s.inodeHeap from congrArg (·.2.1) hs, hI]
  cases h with
  | @inode j J st hj =>
    by_cases hij : i = j
    · subst hij
      rw [hI] at hj
      cases hj
      exact ⟨st, I.nlookup, Heap.get?_write_self hI, fun _ => rfl⟩
    · exact ⟨I.st, I.nlookup, (Heap.get?_write_ne hij).trans hI, fun _ => rfl⟩
  | @count j J hc hj =>
    by_cases hij : i = j
    · subst hij
      rw [hI] at hj
      cases hj
      exact ⟨I.st, I.nlookup + 1, Heap.get?_write_self hI, fun hn => absurd hc hn⟩
    · exact ⟨I.st, I.nlookup, (Heap.get?_write_ne hij).trans hI, fun _ => rfl⟩
  | generation g => exact same rfl
  | directory hp hk hn => exact ⟨I.st, I.nlookup, Heap.get?_alloc_of_some hI, fun _ => rfl⟩
  | file env hn => exact ⟨I.st, I.nlookup, Heap.get?_alloc_of_some hI, fun _ => rfl⟩
  | tag hk => exact same (inodes_tagGetOrCreate s _)
  | attach ht hn h => exact same (returns_tagFile.of_ok h).1
  | detach ht hn h => exact same (returns_untagFile.of_ok h).1

theorem Updates.kept (h : Updates c s s') (hI : s.inodeHeap.get? i = some I) :
    ∃ st m, s'.inodeHeap.get? i = some { I with st := st, nlookup := m } ∧
      (¬ c → m = I.nlookup) := by
  induction h with
  | refl => exact ⟨I.st, I.nlookup, hI, fun _ => rfl⟩
  | tail _ hu ih =>
    obtain ⟨st, m, hm, hc⟩ := ih
    obtain ⟨st', m', hm', hc'⟩ := hu.kept hm
    exact ⟨st', m', hm', fun hn => (hc' hn).trans (hc hn)⟩

theorem Update.next_le (hu : Update c s s') : s.inodeHeap.next ≤ s'.inodeHeap.next := by
  cases hu with
  | inode st hi => exact (Heap.next_write).ge
  | count hc hi => exact (Heap.next_write).ge
  | generation g => exact Nat.le_refl _
  | directory hp hk hn => exact Nat.le_of_lt (by simp [Store.addInode])
  | file env hn => exact Nat.le_of_lt (by simp [Store.addFile, Store.addInode])
  | tag hk => exact Nat.le_of_eq (congrArg (·.2.1.next) (inodes_tagGetOrCreate s _)).symm
  | attach ht hn h => exact Nat.le_of_eq (congrArg (·.2.1.next) (returns_tagFile.of_ok h).1).symm
  | detach ht hn h => exact Nat.le_of_eq (congrArg (·.2.1.next) (returns_untagFile.of_ok h).1).symm

/-- What the inodes of `s'` are: those of `s`, and at most one that is new. -/
theorem Update.inode_cases (h : Update c s s') (hJ : s'.inodeHeap.get? i = some J) :
    (∃ I st m, s.inodeHeap.get? i = some I ∧ J = { I with st := st, nlookup := m }) ∨
    i = s.inodeHeap.next ∧
      ((∃ p P k, s.inodeHeap.get? p = some P ∧ (tagGet s k).isSome = true ∧ P.ntag ≤ P.tag.length ∧
          J = directoryInode s P k ∧ s' = s.addInode J) ∨
        ∃ env n, s.files.get? n = none ∧ J = fileInode env s n ∧
          s' = s.addFile (newFile env s n) J) := by
  cases hI : s.inodeHeap.get? i with
  | some I =>
    obtain ⟨st, m, hJ', -⟩ := h.kept hI
    rw [hJ] at hJ'
    exact .inl ⟨I, st, m, rfl, Option.some.inj hJ'⟩
  | none =>
    right
    have same : s'.inodes ≠ s.inodes := by
      intro hs
      rw [show s'.inodeHeap = s.inodeHeap from congrArg (·.2.1) hs, hI] at hJ
      cases hJ
    -- only a new inode has an address that was not in use
    cases h with
    | inode st hi =>
      simp only [Store.writeInode, Heap.get?_write, hI] at hJ
      split_ifs at hJ
      cases hJ
    | count hc hi =>
      simp only [Store.writeInode, Heap.get?_write, hI] at hJ
      split_ifs at hJ
      cases hJ
    | generation g => exact absurd rfl same
    | @directory p P k hp hk hn =>
      simp only [Store.addInode, Heap.get?_alloc, hI] at hJ
      split_ifs at hJ with hi
      cases hJ
      exact ⟨hi, .inl ⟨p, P, k, hp, hk, hn, rfl, rfl⟩⟩
    | @file n env hn =>
      simp only [Store.addFile, Store.addInode, Heap.get?_alloc, hI] at hJ
      split_ifs at hJ with hi
      cases hJ
      exact ⟨hi, .inr ⟨env, n, hn, rfl, rfl⟩⟩
    | tag hk => exact absurd (inodes_tagGetOrCreate s _) same
    | attach ht hn h => exact absurd (returns_tagFile.of_ok h).1 same
    | detach ht hn h => exact absurd (returns_untagFile.of_ok h).1 same

theorem Update.files_get (h : Update c s s') (hf : s.files.get? n = some f) :
    s'.files.get? n = some f := by
  cases h with
  | inode st hi => exact hf
  | count hc hi => exact hf
  | generation g => exact hf
  | directory hp hk hn => exact hf
  | @file m env hm =>
    show (s.files.add m s.fileHeap.next).get? n = some f
    rw [Table.get?_add]
    split_ifs with he
    · rw [he, hf] at hm
      cases hm
    · exact hf
  | tag hk =>
    rw [tagGetOrCreate_new hk]
    exact hf
  | attach ht hn h => exact (returns_tagFile.of_ok h).2.1.symm ▸ hf
  | detach ht hn h => exact (returns_untagFile.of_ok h).2.1.symm ▸ hf

theorem Updates.files_get (h : Updates c s s') (hf : s.files.get? n = some f) :
    s'.files.get? n = some f :=
  h.invariant hf fun _ _ hf hu => hu.files_get hf

end TagFilesystem.FuseLowlevel
