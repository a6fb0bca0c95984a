import TagFilesystem.FuseLowlevel.Coherence

namespace TagFilesystem.FuseLowlevel

variable {env : Env} {s s₀ s' : Store} {file : Option CStr} {i : InodeId} {I : Inode} {m : ℕ}

/-- `inode_new`, a change of a lookup count, and `inode_delete_if_noref`. -/
inductive InodeEvent
  | new (directory : Bool)
  | setLookups (ino : InodeId) (nlookup : UInt64)
  | deleteIfNoref (ino : InodeId)
  deriving DecidableEq

def inodeStep (s : Store) : InodeEvent → Except Fault Store
  | .new directory => .ok (inodeNew s directory).2
  | .setLookups ino nlookup => do
    let I ← s.readInode (some ino)
    .ok (s.writeInode ino { I with nlookup := nlookup })
  | .deleteIfNoref ino => inodeDeleteIfNoref s ino

theorem Store.Indexed.inodeStep {e : InodeEvent} (h : s.Indexed)
    (hs : inodeStep s e = .ok s') : s'.Indexed := by
  cases e with
  | new directory =>
    cases hs
    exact h.addInode (I := blankInode _ directory) rfl
  | setLookups ino nlookup =>
    have hret : Returns (FuseLowlevel.inodeStep s (.setLookups ino nlookup)) Store.Indexed :=
      returns_readInode_some.bind fun I hI => h.writeInode hI rfl
    exact hret.of_ok hs
  | deleteIfNoref ino =>
    have hret : Returns (inodeDeleteIfNoref s ino) Store.Indexed := by
      refine returns_readInode_some.bind fun I hI => ?_
      split_ifs
      · exact h.delete
      · exact h
    exact hret.of_ok hs

theorem indexed_of_inodeSteps {guard : Store → InodeEvent → Prop}
    (run : Reaches inodeStep guard rootStore s) : s.Indexed :=
  run.invariant sound_rootStore.indexed fun _ _ _ h _ hs => h.inodeStep hs

/-- The number that `inode_new` gives is that of no inode in `itable`. -/
def NumberIsNew (s : Store) (directory : Bool) : Prop :=
  ∃ J, (inodeNew s directory).2.inodeHeap.get? (inodeNew s directory).1 = some J ∧
    ∀ n i I, (n, i) ∈ s.itable.entries → s.inodeHeap.get? i = some I → I.number ≠ J.number

/-- No inode that is still there was made a multiple of `UInt32.size` inodes before the next. -/
def Store.NoneRecurs (s : Store) : Prop :=
  ∀ i < s.inodeHeap.next, (s.inodeHeap.get? i).isSome = true →
    ¬ UInt32.size ∣ s.inodeHeap.next - i

instance (s : Store) : Decidable s.NoneRecurs := inferInstanceAs (Decidable (∀ _ < _, _ → _))

/-- No two inodes have the same number. -/
def Store.NumbersDistinct (s : Store) : Prop :=
  ∀ i j I J, s.inodeHeap.get? i = some I → s.inodeHeap.get? j = some J →
    I.number = J.number → i = j

theorem toNumber_eq_iff {a b : UInt64} : toNumber a = toNumber b ↔ a.toUInt32 = b.toUInt32 :=
  ⟨toNumber_inj, fun h => congrArg (fun n : UInt32 => n.toInt32.toInt64.toUInt64) h⟩

theorem numberAt_eq_iff {i j : ℕ} (h : i ≤ j) : numberAt i = numberAt j ↔ UInt32.size ∣ j - i := by
  have h32 : (numberAt i = numberAt j) ↔ (i + 1) % UInt32.size = (j + 1) % UInt32.size := by
    rw [numberAt, numberAt, toNumber_eq_iff, ← UInt32.toNat_inj]
    simp only [UInt64.toNat_toUInt32, UInt64.toNat_ofNat', UInt32.size]
    omega
  rw [h32]
  unfold UInt32.size
  omega

theorem Store.Indexed.numberIsNew_iff (h : s.Indexed) (directory : Bool) :
    NumberIsNew s directory ↔ s.NoneRecurs := by
  have hnew : (inodeNew s directory).2.inodeHeap.get? (inodeNew s directory).1 =
      some (blankInode (toNumber s.nextIno) directory) := Heap.get?_alloc_next
  constructor
  · rintro ⟨J, hJ, hne⟩ i hi hsome hdvd
    obtain ⟨I, hI⟩ := Option.isSome_iff_exists.mp hsome
    cases hnew.symm.trans hJ
    refine hne _ i I (h.entry.mpr ⟨I, hI, rfl⟩) hI ?_
    show I.number = toNumber s.nextIno
    rw [h.number hI, h.toNumber_counter]
    exact (numberAt_eq_iff hi.le).mpr hdvd
  · intro hnone
    refine ⟨_, hnew, fun n i I _ hI hnum => ?_⟩
    have hi := Heap.lt_next hI
    refine hnone i hi (by rw [hI]; rfl) ((numberAt_eq_iff hi.le).mp ?_)
    rw [← h.number hI, ← h.toNumber_counter]
    exact hnum

/-- Creations happen only where no number comes back. -/
def OnlyWhenNew (s : Store) : InodeEvent → Prop
  | .new _ => s.NoneRecurs
  | .setLookups _ _ => True
  | .deleteIfNoref _ => True

instance (s : Store) (e : InodeEvent) : Decidable (OnlyWhenNew s e) :=
  match e with
  | .new _ => inferInstanceAs (Decidable s.NoneRecurs)
  | .setLookups _ _ => inferInstanceAs (Decidable True)
  | .deleteIfNoref _ => inferInstanceAs (Decidable True)

theorem live_of_inodeStep {e : InodeEvent} (hs : inodeStep s e = .ok s')
    (hi : (s'.inodeHeap.get? i).isSome = true) :
    (s.inodeHeap.get? i).isSome = true ∨ i = s.inodeHeap.next ∧ ∃ directory, e = .new directory := by
  cases e with
  | new directory =>
    cases hs
    simp only [inodeNew_eq, Store.addInode, Heap.get?_alloc] at hi
    split_ifs at hi with he
    · exact .inr ⟨he, directory, rfl⟩
    · exact .inl hi
  | setLookups ino nlookup =>
    have hret : Returns (inodeStep s (.setLookups ino nlookup)) fun s' =>
        (s'.inodeHeap.get? i).isSome = true → (s.inodeHeap.get? i).isSome = true := by
      refine returns_readInode_some.bind fun I hI h => ?_
      simp only [Store.writeInode, Heap.get?_write] at h
      split_ifs at h with he
      · simpa using h
      · exact h
    exact .inl (hret.of_ok hs hi)
  | deleteIfNoref ino =>
    have hret : Returns (inodeDeleteIfNoref s ino) fun s' =>
        (s'.inodeHeap.get? i).isSome = true → (s.inodeHeap.get? i).isSome = true := by
      refine returns_readInode_some.bind fun I hI => ?_
      split_ifs
      · intro h
        simp only [Heap.get?_free] at h
        split_ifs at h
        · cases h
        · exact h
      · exact id
    exact .inl (hret.of_ok hs hi)

theorem Store.NumbersDistinct.inodeStep {e : InodeEvent} (h : s.Indexed) (hd : s.NumbersDistinct)
    (hg : OnlyWhenNew s e) (hs : FuseLowlevel.inodeStep s e = .ok s') : s'.NumbersDistinct := by
  have hlive : ∀ i, (s.inodeHeap.get? i).isSome = true →
      ∃ I, s.inodeHeap.get? i = some I ∧ I.number = numberAt i := by
    intro i hi
    obtain ⟨I, hI⟩ := Option.isSome_iff_exists.mp hi
    exact ⟨I, hI, h.number hI⟩
  have hnext : ∀ i, (s.inodeHeap.get? i).isSome = true → (∃ directory, e = .new directory) →
      numberAt i ≠ numberAt s.inodeHeap.next := by
    rintro i hi ⟨directory, rfl⟩ heq
    obtain ⟨I, hI, -⟩ := hlive i hi
    have hlt := Heap.lt_next hI
    exact hg i hlt hi ((numberAt_eq_iff hlt.le).mp heq)
  intro i j I J hI hJ hnum
  rw [(h.inodeStep hs).number hI, (h.inodeStep hs).number hJ] at hnum
  obtain hi | ⟨rfl, hnew⟩ := live_of_inodeStep hs (by rw [hI]; rfl)
  · obtain hj | ⟨rfl, hnew⟩ := live_of_inodeStep hs (by rw [hJ]; rfl)
    · obtain ⟨I₀, hI₀, hi₀⟩ := hlive i hi
      obtain ⟨J₀, hJ₀, hj₀⟩ := hlive j hj
      exact hd i j I₀ J₀ hI₀ hJ₀ (by rw [hi₀, hj₀, hnum])
    · exact absurd hnum (hnext i hi hnew)
  · obtain hj | ⟨rfl, -⟩ := live_of_inodeStep hs (by rw [hJ]; rfl)
    · exact absurd hnum.symm (hnext j hj hnew)
    · rfl

theorem numbersDistinct_rootStore : rootStore.NumbersDistinct := by
  intro i j I J hI hJ _
  have hi := Heap.lt_next hI
  have hj := Heap.lt_next hJ
  exact (Nat.lt_one_iff.mp hi).trans (Nat.lt_one_iff.mp hj).symm

/-- A creation gives a number that no inode has exactly when none of the inodes that are left was
made a multiple of `UInt32.size` inodes before. While that is so, no two have the same number. -/
theorem inodeNew_number_iff (run : Reaches inodeStep (fun _ _ => True) rootStore s) :
    (∀ directory, NumberIsNew s directory ↔ s.NoneRecurs) ∧
      (Reaches inodeStep OnlyWhenNew rootStore s → s.NumbersDistinct) := by
  constructor
  · exact (indexed_of_inodeSteps run).numberIsNew_iff
  · intro runNew
    have hinv : s.Indexed ∧ s.NumbersDistinct :=
      runNew.invariant (I := fun s => s.Indexed ∧ s.NumbersDistinct)
        ⟨sound_rootStore.indexed, numbersDistinct_rootStore⟩
        fun _ _ _ h hg hs => ⟨h.1.inodeStep hs, h.2.inodeStep h.1 hg hs⟩
    exact hinv.2

/-- A directory is made, looked up, and deleted when it has been forgotten. -/
theorem inodeNew_number_iff_sample : ∃ s,
    Reaches inodeStep OnlyWhenNew rootStore s ∧ NumberIsNew s true ∧ s.NumbersDistinct := by
  have hrun : (execute inodeStep OnlyWhenNew
      [.new true, .new false, .setLookups 1 1, .deleteIfNoref 1, .setLookups 1 0, .deleteIfNoref 1]
      rootStore).any (fun s => s.NoneRecurs) = true := by decide +kernel
  obtain ⟨s, hs, hp⟩ := (Option.any_eq_true _ _).mp hrun
  have hnone : s.NoneRecurs := of_decide_eq_true hp
  have hreach := reaches_of_execute hs
  have h := inodeNew_number_iff (hreach.weaken fun _ _ _ => trivial)
  exact ⟨s, hreach, (h.1 true).mpr hnone, h.2 hreach⟩

/-- After `m` inodes that were deleted at once. -/
structure AfterDeletions (m : ℕ) (s : Store) : Prop where
  run : Reaches inodeStep (fun _ _ => True) rootStore s
  next : s.inodeHeap.next = m + 1
  root : s.inodeHeap.get? 0 = some rootInode

theorem AfterDeletions.succ (h : AfterDeletions m s) (hm : m + 1 < UInt32.size) :
    ∃ s', AfterDeletions (m + 1) s' := by
  have hidx := indexed_of_inodeSteps h.run
  have hnumber : toNumber s.nextIno ≠ 1 := by
    intro heq
    rw [hidx.toNumber_counter, h.next] at heq
    exact Nat.succ_ne_zero m (numberAt_inj hm (Nat.zero_lt_succ _) heq)
  have hnew : (inodeNew s false).2.inodeHeap.get? (m + 1) =
      some (blankInode (toNumber s.nextIno) false) := by
    rw [← h.next]
    exact Heap.get?_alloc_next
  have hdelete : inodeDeleteIfNoref (inodeNew s false).2 (m + 1) = .ok { (inodeNew s false).2 with
      itable := (inodeNew s false).2.itable.eraseValue (m + 1)
      inodeHeap := (inodeNew s false).2.inodeHeap.free (m + 1) } := by
    rw [inodeDeleteIfNoref, sat_readInode hnew]
    exact if_pos ⟨hnumber, rfl⟩
  refine ⟨_, (h.run.tail (e := .new false) trivial rfl).tail (e := .deleteIfNoref (m + 1))
    trivial hdelete, ?_, ?_⟩
  · show ((s.inodeHeap.alloc _).free _).next = _
    rw [Heap.next_free, Heap.next_alloc, h.next]
  · show ((s.inodeHeap.alloc _).free _).get? 0 = _
    rw [Heap.get?_free, if_neg (Nat.succ_ne_zero m).symm, Heap.get?_alloc_of_some h.root]

theorem exists_afterDeletions (hm : m < UInt32.size) : ∃ s, AfterDeletions m s := by
  induction m with
  | zero => exact ⟨rootStore, .refl _, rfl, rfl⟩
  | succ m ih =>
    obtain ⟨s, hs⟩ := ih (Nat.lt_of_succ_lt hm)
    exact hs.succ hm

/-- When `UInt32.size - 1` inodes have been made and deleted, the next one gets the number of the
root directory, which is still there. -/
theorem root_number_recurs : ∃ s J, Reaches inodeStep (fun _ _ => True) rootStore s ∧
    inodeGet s 1 = some 0 ∧ (inodeNew s false).2.inodeHeap.get? (inodeNew s false).1 = some J ∧
    J.number = 1 := by
  obtain ⟨s, hs⟩ : ∃ s, AfterDeletions (UInt32.size - 1) s :=
    exists_afterDeletions (Nat.sub_lt (by decide) (by decide))
  have hidx := indexed_of_inodeSteps hs.run
  have hnext : s.inodeHeap.next = UInt32.size := hs.next
  refine ⟨s, _, hs.run, hidx.inodeGet_eq hnext.le hs.root, Heap.get?_alloc_next, ?_⟩
  show toNumber s.nextIno = 1
  rw [hidx.toNumber_counter, hnext]
  exact ((numberAt_eq_iff (Nat.zero_le _)).mpr (Nat.dvd_refl _)).symm

end TagFilesystem.FuseLowlevel
