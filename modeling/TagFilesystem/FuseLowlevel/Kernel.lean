import TagFilesystem.FuseLowlevel.Coherence

namespace TagFilesystem.FuseLowlevel

variable {c : Prop} {env : Env} {s s₀ s' : Store} {e : Event} {file : Option CStr} {n : CStr}
  {i : InodeId} {I : Inode} {f : FileId} {F : File} {t : Option TagId}

/-- The file system together with what the kernel knows. -/
structure Kernel where
  store : Store
  /-- The number of entry replies for an inode number. -/
  received : UInt64 → ℕ
  /-- The sum of the amounts that have been forgotten. -/
  forgotten : UInt64 → ℕ

namespace Kernel

def outstanding (σ : Kernel) (ino : UInt64) : ℕ := σ.received ino - σ.forgotten ino

def mounted (s : Store) : Kernel := ⟨s, fun _ => 0, fun _ => 0⟩

/-- The entry replies for `ino` among the replies. -/
def entries (rs : List Reply) (ino : UInt64) : ℕ := rs.countP fun x => x.entryIno = some ino

def step (σ : Kernel) (e : Event) : Except Fault Kernel := do
  let (rs, s) ← call e.env σ.store e.callback
  .ok {
    store := s
    received := fun ino => σ.received ino + entries rs ino
    forgotten := match e.callback with
      | .forget ino nlookup =>
        Function.update σ.forgotten ino (σ.forgotten ino + nlookup.toNat)
      | _ => σ.forgotten }

/-- The kernel forgets at most what it has been told. -/
def legal (σ : Kernel) (e : Event) : Bool :=
  match e.callback with
  | .forget ino nlookup => nlookup.toNat ≤ σ.outstanding ino
  | _ => true

theorem store_step {σ σ' : Kernel} (h : σ.step e = .ok σ') :
    FuseLowlevel.step σ.store e = .ok σ'.store := by
  unfold step at h
  unfold FuseLowlevel.step
  cases hc : call e.env σ.store e.callback with
  | ok r =>
    rw [hc] at h
    cases h
    rfl
  | error x =>
    rw [hc] at h
    cases h

theorem sound_step {σ σ' : Kernel} (hs : σ.store.Sound) (h : σ.step e = .ok σ') :
    σ'.store.Sound := hs.step (store_step h)

end Kernel

/-- The inode of every file record is in `itable`. -/
def FilesLive (s : Store) : Prop :=
  ∀ n f F, s.files.get? n = some f → s.fileHeap.get? f = some F →
    ∃ I, s.inodeHeap.get? F.ino = some I ∧ (I.number, F.ino) ∈ s.itable.entries

/-- File records point to inodes that are alive and no directories. -/
def FileInodes (s : Store) : Prop :=
  ∀ f F, s.fileHeap.get? f = some F → ∃ I, s.inodeHeap.get? F.ino = some I ∧ I.isDirectory = false

theorem FileInodes.filesLive (h : FileInodes s) (hs : s.Indexed) : FilesLive s := by
  intro n f F _ hF
  obtain ⟨I, hI, -⟩ := h f F hF
  exact ⟨I, hI, hs.entry.mpr ⟨I, hI, rfl⟩⟩

/-- Every file record of `s'` was in `s`, with the same inode. -/
def SameInos (s s' : Store) : Prop :=
  ∀ f F', s'.fileHeap.get? f = some F' → ∃ F, s.fileHeap.get? f = some F ∧ F.ino = F'.ino

theorem SameInos.refl (h : s'.fileHeap = s.fileHeap) : SameInos s s' := by
  intro f F hF
  exact ⟨F, h ▸ hF, rfl⟩

theorem SameInos.trans {s'' : Store} (h : SameInos s s') (h' : SameInos s' s'') :
    SameInos s s'' := by
  intro f F'' hF''
  obtain ⟨F', hF', hi'⟩ := h' f F'' hF''
  obtain ⟨F, hF, hi⟩ := h f F' hF'
  exact ⟨F, hF, hi.trans hi'⟩

theorem sameInos_writeFile {G : File} (hF : s.fileHeap.get? f = some F) (hG : G.ino = F.ino) :
    SameInos s (s.writeFile f G) := by
  intro g H hH
  obtain ⟨rfl, rfl⟩ | ⟨-, hH⟩ := Heap.get?_write_cases hH
  · exact ⟨F, hF, hG.symm⟩
  · exact ⟨H, hH, rfl⟩

theorem sameInos_tagFile : Returns (tagFile s t f) (SameInos s) := by
  refine (returns_true _).bind fun T _ => returns_readFile.bind fun F hF => ?_
  cases t with
  | none => trivial
  | some t => exact sameInos_writeFile (s := s) hF rfl

theorem sameInos_untagFile : Returns (untagFile s t f) (SameInos s) := by
  refine (returns_true _).bind fun T _ => returns_readFile.bind fun F hF => ?_
  cases t with
  | none => trivial
  | some t => exact sameInos_writeFile (s := s) hF rfl

theorem sameInos_tagRemove : Returns (tagRemove s t) (SameInos s) := by
  refine (returns_true _).bind fun T _ => ?_
  refine Sat.bind (sat_forEach_mem (I := SameInos s) ?_ (.refl rfl)) fun s' hs' => hs'
  rintro e - s' hs'
  refine returns_readFile.bind fun F hF => ?_
  exact hs'.trans (sameInos_writeFile hF rfl)

theorem FileInodes.mono (h : FileInodes s) (hf : SameInos s s')
    (hi : ∀ i I, s.inodeHeap.get? i = some I →
      ∃ J, s'.inodeHeap.get? i = some J ∧ J.isDirectory = I.isDirectory) : FileInodes s' := by
  intro f F' hF'
  obtain ⟨F, hF, hino⟩ := hf f F' hF'
  obtain ⟨I, hI, hd⟩ := h f F hF
  obtain ⟨J, hJ, hJd⟩ := hi _ _ hI
  exact ⟨J, hino ▸ hJ, hJd.trans hd⟩

theorem Update.files_cases (hu : Update c s s') : SameInos s s' ∧ s'.files = s.files ∨
    ∃ env n, s.files.get? n = none ∧ s' = s.addFile (newFile env s n) (fileInode env s n) := by
  cases hu with
  | inode st hi => exact .inl ⟨.refl rfl, rfl⟩
  | count hc hi => exact .inl ⟨.refl rfl, rfl⟩
  | generation g => exact .inl ⟨.refl rfl, rfl⟩
  | directory hp hk hn => exact .inl ⟨.refl rfl, rfl⟩
  | @file n env hn => exact .inr ⟨env, n, hn, rfl⟩
  | tag hk =>
    rw [tagGetOrCreate_new hk]
    exact .inl ⟨.refl rfl, rfl⟩
  | attach ht hn h => exact .inl ⟨sameInos_tagFile.of_ok h, (returns_tagFile.of_ok h).2.1⟩
  | detach ht hn h => exact .inl ⟨sameInos_untagFile.of_ok h, (returns_untagFile.of_ok h).2.1⟩

theorem Update.fileInodes (hu : Update c s s') (h : FileInodes s) : FileInodes s' := by
  obtain ⟨hsame, -⟩ | ⟨env, n, -, rfl⟩ := hu.files_cases
  · refine h.mono hsame fun i I hI => ?_
    obtain ⟨st, m, hJ, -⟩ := hu.kept hI
    exact ⟨_, hJ, rfl⟩
  · intro f F hF
    obtain ⟨-, rfl⟩ | ⟨-, hF⟩ := Heap.get?_alloc_cases hF
    · exact ⟨fileInode env s n, Heap.get?_alloc_next, rfl⟩
    · obtain ⟨I, hI, hd⟩ := h f F hF
      exact ⟨I, Heap.get?_alloc_of_some hI, hd⟩

theorem Updates.fileInodes (hu : Updates c s s') (h : FileInodes s) : FileInodes s' :=
  hu.invariant h fun _ _ hq hu => hu.fileInodes hq

/-- The request is no `forget` that takes the last lookup from the inode of a file. -/
def sparesFiles (s : Store) (callback : Callback) : Bool :=
  match callback with
  | .forget ino nlookup =>
    match (inodeGet s ino).bind s.inodeHeap.get? with
    | some I => I.isDirectory || I.number = 1 || I.nlookup ≠ nlookup
    | none => true
  | _ => true

theorem FileInodes.step (h : FileInodes s) (hs : s.Sound) (hg : sparesFiles s e.callback = true)
    (he : FuseLowlevel.step s e = .ok s') : FileInodes s' := by
  refine hs.step_rule he (fun parent name _ => ?_) (fun ino m hf => ?_) fun s' hu => hu.fileInodes h
  · apply (returns_tagRmdir parent name).mono
    rintro r (⟨-, rfl⟩ | ⟨-, -, t, ht, hrem⟩)
    · exact h
    · have hh : r.2.inodeHeap = s.inodeHeap :=
        ((sat_tagRemove (E := fun _ => True) hs.links ht).of_ok hrem).2.2.2.2.2.1
      refine h.mono (sameInos_tagRemove.of_ok hrem) fun i I hI => ⟨I, ?_, rfl⟩
      rw [hh, hI]
  · rw [hf] at hg
    apply (returns_tagForget ino m).mono
    rintro ⟨rs, s'⟩ ⟨-, ⟨-, rfl⟩ | ⟨i, I, hget, hI, ⟨-, rfl⟩ | ⟨hne, hm, rfl⟩⟩⟩
    · exact h
    · refine h.mono (.refl rfl) fun j J hJ => ?_
      by_cases hj : j = i
      · subst hj
        rw [hI] at hJ
        cases hJ
        exact ⟨_, Heap.get?_write_self hI, rfl⟩
      · exact ⟨J, (Heap.get?_write_ne hj).trans hJ, rfl⟩
    · -- the inode that is deleted is a directory, so no file record points to it
      have hdir : I.isDirectory = true := by
        simpa [sparesFiles, hget, hI, hne, hm] using hg
      intro f F hF
      obtain ⟨J, hJ, hd⟩ := h f F hF
      have hj : F.ino ≠ i := by
        intro hj
        rw [hj, hI] at hJ
        cases hJ
        rw [hdir] at hd
        cases hd
      exact ⟨J, by simpa [Heap.get?_free, hj] using hJ, hd⟩

theorem fileInodes_rootStore : FileInodes rootStore := by
  intro f F hF
  cases hF

/-- As long as no `forget` takes the last lookup from the inode of a file, every file record has
its inode in `itable`. -/
theorem filesLive_of_reaches (h₀ : tagInit env file = .ok s₀) {σ : Kernel}
    (h : Reaches Kernel.step (fun σ e => sparesFiles σ.store e.callback = true) (.mounted s₀) σ) :
    FilesLive σ.store := by
  have hu := (returns_tagInit (c := False)).of_ok h₀
  have hinv : σ.store.Sound ∧ FileInodes σ.store :=
    h.invariant (I := fun σ => σ.store.Sound ∧ FileInodes σ.store)
      ⟨hu.sound' sound_rootStore, hu.fileInodes fileInodes_rootStore⟩
      fun σ e σ' hσ hg he =>
        ⟨Kernel.sound_step hσ.1 he, hσ.2.step hσ.1 hg (Kernel.store_step he)⟩
  exact hinv.2.filesLive hinv.1.indexed

/-- A run of the sample file system whose steps all meet the guard. -/
def kernelRun (guard : Kernel → Event → Bool) (cs : List Callback) : Option Kernel :=
  match tagInit sampleEnv (some []) with
  | .ok s =>
    execute Kernel.step (fun σ e => guard σ e = true) (cs.map (Event.mk sampleEnv)) (.mounted s)
  | .error _ => none

theorem reaches_of_kernelRun {guard : Kernel → Event → Bool} {cs : List Callback} {σ : Kernel}
    (h : kernelRun guard cs = some σ) : ∃ s₀, tagInit sampleEnv (some []) = .ok s₀ ∧
      Reaches Kernel.step (fun σ e => guard σ e = true) (.mounted s₀) σ := by
  unfold kernelRun at h
  split at h
  · next s₀ h₀ => exact ⟨s₀, h₀, reaches_of_execute h⟩
  · cases h

/-- The directory `x` is looked up and forgotten, the file `f` is looked up and stays. -/
theorem filesLive_of_reaches_sample : ∃ σ,
    kernelRun (fun σ e => sparesFiles σ.store e.callback) [.mkdir 1 nameX, .lookup 1 nameX,
      .lookup 1 nameF, .link 2 5 nameF, .forget 5 1, .lookup 1 nameF] = some σ ∧
    FilesLive σ.store := by
  have hrun : (kernelRun (fun σ e => sparesFiles σ.store e.callback) [.mkdir 1 nameX,
      .lookup 1 nameX, .lookup 1 nameF, .link 2 5 nameF, .forget 5 1,
      .lookup 1 nameF]).isSome = true := by decide +kernel
  obtain ⟨σ, hσ⟩ := Option.isSome_iff_exists.mp hrun
  obtain ⟨s₀, h₀, h⟩ := reaches_of_kernelRun hσ
  exact ⟨σ, hσ, filesLive_of_reaches h₀ h⟩

/-- The kernel looks up the file `f` and forgets it: the record of `f` keeps the address of an
inode that has been freed. -/
theorem forget_leaves_file : ¬ ∀ env file s₀ σ, tagInit env file = .ok s₀ →
    Reaches Kernel.step (fun σ e => σ.legal e = true) (.mounted s₀) σ → FilesLive σ.store := by
  intro h
  have hrun : (kernelRun Kernel.legal [.lookup 1 nameF, .forget 2 1]).any (fun σ =>
      σ.store.files.get? nameF = some 0 ∧
        (σ.store.fileHeap.get? 0).map File.ino = some 1 ∧
        σ.store.inodeHeap.get? 1 = none) = true := by decide +kernel
  obtain ⟨σ, hσ, hp⟩ := (Option.any_eq_true _ _).mp hrun
  obtain ⟨hn, hino, hfree⟩ := of_decide_eq_true hp
  obtain ⟨s₀, h₀, hreach⟩ := reaches_of_kernelRun hσ
  obtain ⟨F, hF, hi⟩ := Option.map_eq_some_iff.mp hino
  obtain ⟨I, hI, -⟩ := h sampleEnv (some []) s₀ σ h₀ hreach nameF 0 F hn hF
  rw [hi, hfree] at hI
  cases hI

end TagFilesystem.FuseLowlevel
