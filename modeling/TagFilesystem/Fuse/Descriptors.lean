import TagFilesystem.Fuse.Coherence

namespace TagFilesystem.Fuse

variable {env : Env} {s s' : Store} {t : TagId} {f : FileId} {F : File} {a : Addr}
  {fd : FileDescriptor}

namespace Store

/-- The table of every file holds exactly one entry for each descriptor open on the file, and no
other. -/
def Exact (s : Store) : Prop :=
  ∀ f F, s.fileHeap.get? f = some F → (F.descriptors.entries.map Prod.snd).Nodup ∧
    ∀ a, a ∈ F.descriptors.entries.map Prod.snd ↔
      ∃ fd, s.fds.get? a = some fd ∧ fd.file = some f

/-- `s'` has the descriptors of `s`. -/
structure SameDescriptors (s s' : Store) : Prop where
  fds : s'.fds = s.fds
  table : ∀ f, (s'.fileHeap.get? f).map File.descriptors = (s.fileHeap.get? f).map File.descriptors

namespace SameDescriptors

theorem refl (s : Store) : s.SameDescriptors s := ⟨rfl, fun _ => rfl⟩

theorem trans {s₁ s₂ s₃ : Store} (h : s₁.SameDescriptors s₂) (h' : s₂.SameDescriptors s₃) :
    s₁.SameDescriptors s₃ :=
  ⟨h'.fds.trans h.fds, fun f => (h'.table f).trans (h.table f)⟩

theorem get? (h : s.SameDescriptors s') {F' : File} (hF : s'.fileHeap.get? f = some F') :
    ∃ F, s.fileHeap.get? f = some F ∧ F.descriptors = F'.descriptors := by
  have ht := h.table f
  rw [hF] at ht
  obtain ⟨F, hF', hd⟩ := Option.map_eq_some_iff.mp ht.symm
  exact ⟨F, hF', hd⟩

theorem writeFile {F' : File} (hF : s.fileHeap.get? f = some F)
    (hd : F'.descriptors = F.descriptors) : s.SameDescriptors (s.writeFile f F') := by
  refine ⟨rfl, fun f' => ?_⟩
  rw [Store.writeFile_fileHeap, Heap.get?_write]
  split_ifs with hf
  · subst hf
    simp [hF, hd]
  · rfl

end SameDescriptors

end Store

theorem sameDescriptors_computeSelectedTags (dirpath : CStr) :
    Returns (computeSelectedTags s dirpath) fun r => s.SameDescriptors r.2 := by
  unfold computeSelectedTags
  split_ifs
  · exact .refl s
  refine sat_forEach_mem (I := fun r : HashTable TagId × Store => s.SameDescriptors r.2)
    (fun name _ r hr => ?_) (.refl s)
  cases hg : tagGet r.2 name with
  | some t =>
    refine sat_bind.mpr (sat_bind.mpr (sat_readTag (fun _ => trivial) fun T _ => ?_))
    exact hr.trans ⟨rfl, fun _ => rfl⟩
  | none =>
    have hk : r.2.tags.get? name = none := hg
    simp only [tagGetOrCreateIn, hk]
    refine sat_bind.mpr (sat_bind.mpr (sat_readTag (fun _ => trivial) fun T _ => ?_))
    exact hr.trans ⟨rfl, fun _ => rfl⟩

theorem sameDescriptors_fileRemoveTag :
    Returns (fileRemoveTag env s f t) fun s' => s.SameDescriptors s' := by
  refine sat_bind.mpr (sat_readTag (fun _ => trivial) fun T hT => ?_)
  refine sat_bind.mpr (sat_readFile (fun _ => trivial) fun F hF => ?_)
  refine sat_bind.mpr (sat_readFile (fun _ => trivial) fun F' hF' => ?_)
  have h₁ : s.SameDescriptors (s.writeFile f { F with tags := F.tags.erase T.value }) :=
    .writeFile hF rfl
  exact h₁.trans (.writeFile hF' rfl)

theorem sameDescriptors_tagRemove :
    Returns (tagRemove env s t) fun s' => s.SameDescriptors s' := by
  refine sat_bind.mpr (sat_readTag (fun _ => trivial) fun T _ => ?_)
  refine Sat.bind (P := fun s' => s.SameDescriptors s') ?_ fun s₁ h₁ => ?_
  · refine sat_forEach_mem (I := fun s' => s.SameDescriptors s') (fun e _ s₁ h₁ => ?_) (.refl s)
    exact sameDescriptors_fileRemoveTag.mono fun _ h => h₁.trans h
  refine sat_bind.mpr (sat_readTag (fun _ => trivial) fun T₁ _ => ?_)
  refine sat_bind.mpr (sat_readTag (fun _ => trivial) fun T₂ _ => ?_)
  split_ifs
  · exact h₁.trans ⟨rfl, fun _ => rfl⟩
  · exact h₁.trans ⟨rfl, fun _ => rfl⟩

theorem sameDescriptors_pathDelete (path : Path) :
    Returns (pathDelete env s path) fun s' => s.SameDescriptors s' := by
  refine sat_forEach_mem (I := fun s' => s.SameDescriptors s') (fun e _ s₁ h₁ => ?_) (.refl s)
  refine sat_bind.mpr (sat_readTag (fun _ => trivial) fun T _ => ?_)
  split_ifs
  · exact sameDescriptors_tagRemove.mono fun _ h => h₁.trans h
  · exact h₁

/-- The store in a run without a release of a regular file: the address of a path is none of a
descriptor, and every entry is its own key. -/
structure Opened (s : Store) : Prop where
  unique : s.fds.Unique
  regular : ∀ {a fd}, s.fds.get? a = some fd → fd.isTag = false
  path : ∀ {a fd}, s.fds.get? a = some fd → fd.pathAddr ∉ s.fds.keys
  key : ∀ {f F e}, s.fileHeap.get? f = some F → e ∈ F.descriptors.entries → e.1 = e.2
  tables : s.Exact

/-- No descriptor is open and no table has an entry. -/
def Clean (s : Store) : Prop :=
  s.fds = .empty ∧ ∀ f F, s.fileHeap.get? f = some F → F.descriptors = .empty

theorem Opened.of_clean (h : Clean s) : Opened s where
  unique := h.1 ▸ Table.unique_empty
  regular ha := by simp [h.1] at ha
  path ha := by simp [h.1] at ha
  key hF he := by simp [h.2 _ _ hF] at he
  tables f F hF := by simp [h.1, h.2 f F hF]

theorem Opened.of_same (h : Opened s) (hs : s.SameDescriptors s') : Opened s' where
  unique := hs.fds ▸ h.unique
  regular ha := h.regular (hs.fds ▸ ha)
  path ha := by
    rw [hs.fds] at ha ⊢
    exact h.path ha
  key hF he := by
    obtain ⟨F, hF', hd⟩ := hs.get? hF
    exact h.key hF' (hd ▸ he)
  tables f F hF := by
    obtain ⟨F', hF', hd⟩ := hs.get? hF
    rw [← hd, hs.fds]
    exact h.tables f F' hF'

theorem Opened.mem_keys (h : Opened s) (hF : s.fileHeap.get? f = some F)
    (ha : a ∈ F.descriptors.entries.map Prod.snd) : a ∈ s.fds.keys := by
  obtain ⟨fd, hfd, -⟩ := ((h.tables f F hF).2 a).mp ha
  exact Table.mem_keys_of_get? hfd

theorem Opened.add (h : Opened s) (hF : s.fileHeap.get? f = some F) (ha : a ∉ s.fds.keys)
    (hpath : fd.pathAddr ∉ s.fds.keys) (hne : a ≠ fd.pathAddr)
    (hother : ∀ b fd', s.fds.get? b = some fd' → fd'.pathAddr ≠ a)
    (htag : fd.isTag = false) (hfile : fd.file = some f) :
    Opened { s.writeFile f { F with descriptors := F.descriptors.add a a } with
      fds := s.fds.add a fd } where
  unique := h.unique.add (Table.get?_eq_none.mpr ha)
  regular {b fd'} hb := by
    simp only [Table.get?_add] at hb
    split_ifs at hb
    · cases hb
      exact htag
    · exact h.regular hb
  path {b fd'} hb := by
    simp only [Table.get?_add] at hb
    simp only [Table.keys, Table.entries_add, List.map_append, List.map_cons, List.map_nil,
      List.mem_append, List.mem_singleton, not_or]
    split_ifs at hb
    · cases hb
      exact ⟨hpath, Ne.symm hne⟩
    · exact ⟨h.path hb, hother b fd' hb⟩
  key {f' F' e} hF' he := by
    obtain ⟨rfl, rfl⟩ | ⟨-, hF'⟩ := Heap.get?_write_cases hF'
    · rcases List.mem_append.mp he with he | he
      · exact h.key hF he
      · rw [List.mem_singleton.mp he]
    · exact h.key hF' he
  tables f' F' hF' := by
    simp only [Table.get?_add]
    have hnone : s.fds.get? a = none := Table.get?_eq_none.mpr ha
    obtain ⟨rfl, rfl⟩ | ⟨hf, hF'⟩ := Heap.get?_write_cases hF'
    · obtain ⟨hnodup, hmem⟩ := h.tables f' F hF
      have hnew : a ∉ F.descriptors.entries.map Prod.snd := fun hm => ha (h.mem_keys hF hm)
      simp only [Table.entries_add, List.map_append, List.map_cons, List.map_nil]
      refine ⟨List.nodup_append.mpr ⟨hnodup, List.nodup_singleton a, ?_⟩, fun b => ?_⟩
      · intro b hb c hc hbc
        rw [List.mem_singleton.mp hc] at hbc
        exact hnew (hbc ▸ hb)
      · rw [List.mem_append, hmem b, List.mem_singleton]
        by_cases hb : a = b
        · subst hb
          simp [hfile]
        · simp [hb, Ne.symm hb]
    · obtain ⟨hnodup, hmem⟩ := h.tables f' F' hF'
      refine ⟨hnodup, fun b => (hmem b).trans ?_⟩
      by_cases hb : a = b
      · subst hb
        simp [hnone, hfile, Ne.symm hf]
      · simp [hb]

theorem opened_tagOpen {userPath : CStr} {flags : ℤ} {m : Malloc} (h : Opened s)
    (hm : m.Fresh s) : Returns (tagOpen env s userPath m flags false) fun r => Opened r.2 := by
  have hpath : Returns (pathCreate env s userPath false) fun r => s.SameDescriptors r.2 :=
    (sameDescriptors_computeSelectedTags _).bind fun _ hr => hr
  refine hpath.bind fun r hr => ?_
  obtain ⟨path, s₁⟩ := r
  have h₁ : Opened s₁ := h.of_same hr
  have hfds : s₁.fds = s.fds := hr.fds
  have hkeys (b : Addr) (hb : b ∉ s.liveAddrs) : b ∉ s₁.fds.keys := by
    rw [hfds]
    exact fun hk => hb (List.mem_append_left _ (List.mem_append_left _ hk))
  refine Sat.bind (P := fun r => Opened r.2) ?_ fun r hr₂ => ?_
  · unfold fdOpen
    cases env.openFile path.realpath flags with
    | error e => exact h₁
    | ok fh =>
      cases hfd : m.fd with
      | none => exact h₁
      | some a =>
        obtain ⟨hfresh, hne⟩ := hm.2 a hfd
        have hother (b : Addr) (fd : FileDescriptor) (hb : s₁.fds.get? b = some fd) :
            fd.pathAddr ≠ a := by
          rintro rfl
          rw [hfds] at hb
          refine hfresh (List.mem_append_left _ (List.mem_append_right _ ?_))
          exact List.mem_map.mpr ⟨(b, fd), Table.mem_of_get? hb, rfl⟩
        cases hf : fileGet s₁ path.filename with
        | none => simp [fdOpenTag, fileAddDescriptor, bind, Except.bind]
        | some f =>
          simp only [fdOpenTag, fileAddDescriptor, Bool.false_eq_true, if_false, false_and]
          refine sat_bind.mpr (sat_bind.mpr (sat_bind.mpr (sat_readFile (fun _ => trivial)
            fun F hF => ?_)))
          exact h₁.add hF (hkeys a hfresh) (hkeys m.path hm.1) hne hother rfl rfl
  · obtain ⟨fd, s₂⟩ := r
    cases fd with
    | error e => exact hr₂.of_same ⟨rfl, fun _ => rfl⟩
    | ok b => exact hr₂

theorem opened_step {userPath : CStr} {flags : ℤ} {m : Malloc} (h : Opened s)
    (hs : step s ⟨env, .openFile userPath flags m⟩ = .ok s') : Opened s' := by
  simp only [step, openChecked] at hs
  split_ifs at hs with hm
  exact (sat_map.mpr (opened_tagOpen h hm)).of_ok hs

theorem release_not_exact (h : Opened s) (hs : step s ⟨env, .release a⟩ = .ok s') :
    ¬ s'.Exact := by
  revert hs
  suffices hr : Returns (step s ⟨env, .release a⟩) fun s' => ¬ s'.Exact from fun hs => hr.of_ok hs
  refine sat_map.mpr (sat_bind.mpr (sat_readFd trivial fun fd hfd => ?_))
  refine (sameDescriptors_pathDelete fd.path).bind fun s₁ hsame => ?_
  have h₁ := h.of_same hsame
  have hfd₁ : s₁.fds.get? a = some fd := hsame.fds ▸ hfd
  simp only [h.regular hfd, Bool.false_eq_true, if_false]
  cases hf : fd.file with
  | none => trivial
  | some f =>
    refine sat_bind.mpr (sat_bind.mpr (sat_readFile (fun _ => trivial) fun F hF => ?_))
    -- the entries are found by their own addresses, none of which is that of the path
    have hkey : F.descriptors.get? fd.pathAddr = none := by
      rw [Table.get?_eq_none]
      intro hk
      obtain ⟨e, he, hek⟩ := List.mem_map.mp hk
      refine h₁.path hfd₁ (h₁.mem_keys hF (List.mem_map.mpr ⟨e, he, ?_⟩))
      rw [← h₁.key hF he, hek]
    have herase : F.descriptors.erase fd.pathAddr = F.descriptors := Table.erase_of_get?_none hkey
    have hmem : a ∈ F.descriptors.entries.map Prod.snd :=
      ((h₁.tables f F hF).2 a).mpr ⟨fd, hfd₁, hf⟩
    intro hex
    have hF' : (s₁.writeFile f { F with descriptors := F.descriptors.erase fd.pathAddr }).fileHeap.get? f
        = some { F with descriptors := F.descriptors.erase fd.pathAddr } := Heap.get?_write_self hF
    obtain ⟨fd', hfd', -⟩ := ((hex f _ hF').2 a).mp (by rw [herase]; exact hmem)
    have hgone : (s₁.fds.erase a).get? a = none := h₁.unique.get?_erase_self
    rw [Store.writeFile_fds, hgone] at hfd'
    cases hfd'

def Callback.IsOpen : Callback → Prop
  | .openFile .. => True
  | _ => False

def Callback.IsRelease : Callback → Prop
  | .release _ => True
  | _ => False

theorem exact_iff_of_opened {tr : List (Event × Store)} (h : Opened s) (htr : Trace step s tr)
    (hops : ∀ x ∈ tr, x.1.callback.IsOpen ∨ x.1.callback.IsRelease) :
    (∀ x ∈ tr, x.2.Exact) ↔ ∀ x ∈ tr, ¬ x.1.callback.IsRelease := by
  induction htr with
  | nil => simp
  | @cons s s' e tr hs htr ih =>
    obtain ⟨env, c⟩ := e
    cases c with
    | openFile p flags m =>
      have h' := opened_step h hs
      have hih := ih h' fun x hx => hops x (List.mem_cons_of_mem _ hx)
      simp only [List.forall_mem_cons, hih]
      simp [h'.tables, Callback.IsRelease]
    | release a =>
      have hno := release_not_exact h hs
      simp [hno, Callback.IsRelease]
    | _ =>
      have hfalse := hops _ List.mem_cons_self
      simp [Callback.IsOpen, Callback.IsRelease] at hfalse

/-- In a run of opens and releases of regular files that starts without descriptors, the tables
are exact after every callback if and only if nothing is ever released. -/
theorem descriptors_exact_iff {tr : List (Event × Store)} (h : Clean s) (htr : Trace step s tr)
    (hops : ∀ x ∈ tr, x.1.callback.IsOpen ∨ x.1.callback.IsRelease) :
    (∀ x ∈ tr, x.2.Exact) ↔ ∀ x ∈ tr, ¬ x.1.callback.IsRelease :=
  exact_iff_of_opened (.of_clean h) htr hops

/-- A store with the record of one file. -/
def oneFile : Store := Store.init.registerFile (fileNew nameF)

theorem clean_oneFile : Clean oneFile := by
  refine ⟨rfl, fun f F hF => ?_⟩
  obtain ⟨-, rfl⟩ | ⟨-, hF⟩ := Heap.get?_alloc_cases hF
  · rfl
  · cases hF

def openOnce : Event := ⟨sampleEnv, .openFile (samplePath [] nameF) 0 ⟨1, some 2⟩⟩
def openAgain : Event := ⟨sampleEnv, .openFile (samplePath [] nameF) 0 ⟨3, some 4⟩⟩

theorem openTwice_exact : ∃ tr, Trace step oneFile tr ∧ tr.map Prod.fst = [openOnce, openAgain] ∧
    ∀ x ∈ tr, x.2.Exact := by
  have hrun : (execute step (fun _ _ => True) [openOnce, openAgain] oneFile).isSome = true := by
    decide +kernel
  obtain ⟨s, hs⟩ := Option.isSome_iff_exists.mp hrun
  obtain ⟨tr, htr, hes⟩ := trace_of_execute hs
  have hop (x) (hx : x ∈ tr) : x.1 = openOnce ∨ x.1 = openAgain := by
    have hm : x.1 ∈ tr.map Prod.fst := List.mem_map_of_mem hx
    simpa [hes] using hm
  refine ⟨tr, htr, hes, (descriptors_exact_iff clean_oneFile htr fun x hx => ?_).mpr fun x hx => ?_⟩
  · rcases hop x hx with h | h <;> simp [h, openOnce, openAgain, Callback.IsOpen]
  · rcases hop x hx with h | h <;> simp [h, openOnce, openAgain, Callback.IsRelease]

/-- Releasing the only descriptor leaves its entry behind. -/
theorem openRelease_not_exact : ¬ ∀ s tr, Clean s → Trace step s tr →
    (∀ x ∈ tr, x.1.callback.IsOpen ∨ x.1.callback.IsRelease) → ∀ x ∈ tr, x.2.Exact := by
  intro h
  have hrun : (execute step (fun _ _ => True) [openOnce, ⟨sampleEnv, .release 2⟩] oneFile).isSome =
      true := by decide +kernel
  obtain ⟨s, hs⟩ := Option.isSome_iff_exists.mp hrun
  obtain ⟨tr, htr, hes⟩ := trace_of_execute hs
  have hop (x) (hx : x ∈ tr) : x.1 = openOnce ∨ x.1 = ⟨sampleEnv, .release 2⟩ := by
    have hm : x.1 ∈ tr.map Prod.fst := List.mem_map_of_mem hx
    simpa [hes] using hm
  have hops (x) (hx : x ∈ tr) : x.1.callback.IsOpen ∨ x.1.callback.IsRelease := by
    rcases hop x hx with h | h <;> simp [h, openOnce, Callback.IsOpen, Callback.IsRelease]
  have hno := (exact_iff_of_opened (.of_clean clean_oneFile) htr hops).mp
    (h oneFile tr clean_oneFile htr hops)
  have hm : (⟨sampleEnv, .release 2⟩ : Event) ∈ tr.map Prod.fst := by simp [hes]
  obtain ⟨x, hx, hxe⟩ := List.mem_map.mp hm
  exact hno x hx (by simp [hxe, Callback.IsRelease])

end TagFilesystem.Fuse
