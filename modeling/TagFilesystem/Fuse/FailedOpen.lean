import TagFilesystem.Fuse.Frames

namespace TagFilesystem.Fuse

variable {env : Env} {s s' : Store} {t : TagId} {T T' : Tag} {f : FileId} {F : File} {k : CStr}
  {E : Fault → Prop} {P R : Held} {e : CStr × TagId}

/-- A registered tag that is not in use is among `H`. -/
def Store.IdleIn (s : Store) (H : Held) : Prop :=
  ∀ k t, s.tags.get? k = some t → ¬ s.InUse t → ∃ e ∈ H, e.2 = t

namespace Store.IdleIn

variable {H H' : Held}

theorem mono (h : s.IdleIn H) (hsub : ∀ e ∈ H, e ∈ H') : s.IdleIn H' := by
  intro k t hk hu
  obtain ⟨e, he, het⟩ := h k t hk hu
  exact ⟨e, hsub e he, het⟩

theorem of_fewer (h : s.IdleIn H) (htags : ∀ k t, s'.tags.get? k = some t → s.tags.get? k = some t)
    (huse : ∀ t, s.InUse t → s'.InUse t) : s'.IdleIn H :=
  fun k t hk hu => h k t (htags k t hk) (mt (huse t) hu)

theorem registerTag (h : s.IdleIn H) (hT : T.inUse = true ∨ ∃ e ∈ H, e.2 = s.tagHeap.next) :
    (s.registerTag T).IdleIn H := by
  intro k t hk hu
  change (s.tags.add T.value s.tagHeap.next).get? k = some t at hk
  rw [Table.get?_add] at hk
  split_ifs at hk
  · cases hk
    exact hT.resolve_left fun hT => hu ⟨T, Heap.get?_alloc_next, hT⟩
  · refine h k t hk fun huse => hu ?_
    obtain ⟨T₁, hT₁, hu₁⟩ := huse
    exact ⟨T₁, Heap.get?_alloc_of_some hT₁, hu₁⟩

theorem writeTag (h : s.IdleIn H) (hT : s.tagHeap.get? t = some T)
    (hu : T.inUse = true → T'.inUse = true) : (s.writeTag t T').IdleIn H := by
  refine h.of_fewer (fun _ _ hk => hk) ?_
  rintro t' ⟨T₁, hT₁, hu₁⟩
  by_cases ht : t' = t
  · subst ht
    cases hT.symm.trans hT₁
    exact ⟨T', Heap.get?_write_self hT, hu hu₁⟩
  · exact ⟨T₁, by rw [Store.writeTag_tagHeap, Heap.get?_write_ne ht, hT₁], hu₁⟩

theorem dropTag (h : s.IdleIn (e :: H)) (hs : s.Typed) (hT : s.tagHeap.get? e.2 = some T) :
    (s.dropTag e.2 T).IdleIn H := by
  intro k t hk hu
  change (s.tags.erase T.value).get? k = some t at hk
  rw [hs.tagsUnique.get?_erase] at hk
  split_ifs at hk with hkv
  have ht : t ≠ e.2 := by
    rintro rfl
    exact hkv (hs.value_of_get? hk hT).symm
  have hidle : ¬ s.InUse t := by
    rintro ⟨T₁, hT₁, hu₁⟩
    exact hu ⟨T₁, by rw [Store.dropTag_get?_ne ht, hT₁], hu₁⟩
  obtain ⟨e', he', het⟩ := h k t hk hidle
  rcases List.mem_cons.mp he' with rfl | he'
  · exact absurd het.symm ht
  · exact ⟨e', he', het⟩

end Store.IdleIn

theorem subset_path {L : Held} : ∀ e' ∈ P ++ R ++ L, e' ∈ P ++ [e] ++ R ++ L := by
  simp +contextual [or_imp]

theorem subset_rest {L : Held} : ∀ e' ∈ P ++ R ++ L, e' ∈ P ++ (R ++ [e]) ++ L := by
  simp +contextual [or_imp]

/-- A registered tag that is not in use is held by a live path. -/
def idleHeld : Discipline where
  opening P R s := s.Tidy ∧ s.IdleIn (P ++ R ++ s.held)
  closing P R x s := s.Tidy ∧ s.IdleIn (P ++ R ++ (s.without x).held)
  ready _ _ := True
  closable _ _ := True

theorem idleHeld_sound : idleHeld.Sound (fun _ => True) where
  fault _ := trivial
  tidy h := h.1
  closing_tidy h := h.1
  dead _ _ _ := trivial
  closing_dead _ _ _ := trivial
  dead_carried _ _ _ _ := trivial
  touchFile h hF hn ht := ⟨h.1.writeFile hF hn (ht ▸ h.1.fileTagsUnique hF), h.2⟩
  closing_touchFile {P R x s f F F'} h hF hn ht := by
    refine ⟨h.1.writeFile hF hn (ht ▸ h.1.fileTagsUnique hF), ?_⟩
    cases x <;> exact h.2
  perm h hp := ⟨h.1, h.2.mono fun e he => ((hp.append_left _).append_right _).mem_iff.mp he⟩
  closing_perm h hp := ⟨h.1, h.2.mono fun e he => ((hp.append_left _).append_right _).mem_iff.mp he⟩
  spare h := ⟨h.1, h.2.mono fun e he => (List.perm_middle.symm.append_right _).mem_iff.mp he⟩
  store {R s fds leaked} h hp :=
    ⟨(h.1.setDescriptors fds).setLeaked leaked, h.2.mono fun e he => hp.symm.mem_iff.mp he⟩
  fetch {s a fd} h ha _ := ⟨h.1, h.2.mono fun e he => (held_erase ha).mem_iff.mp he⟩
  close h _ := h
  reopen {x s} h := by
    cases x with
    | none => exact h
    | some a => exact ⟨h.1.setDescriptors _, h.2⟩
  init := ⟨tidy_init, by rintro k t ⟨⟩⟩
  acquire {P R s k t T} h _ hT := by
    have ht : (s.writeTag t { T with refCount := T.refCount + 1 }).Tidy :=
      h.1.touchTag hT rfl rfl id
    have hI {H : Held} (hsub : ∀ e ∈ P ++ R ++ s.held, e ∈ H) :
        (s.writeTag t { T with refCount := T.refCount + 1 }).IdleIn H :=
      (h.2.mono hsub).writeTag hT id
    exact ⟨⟨ht, hI subset_path⟩, ht, hI subset_rest⟩
  create {P R s k} h hk := by
    have ht := h.1.registerTag (T := { tagNew k false with refCount := 1 }) hk rfl
    have hI {H : Held} (hsub : ∀ e ∈ P ++ R ++ s.held, e ∈ H) (hmem : (k, s.tagHeap.next) ∈ H) :
        (s.registerTag { tagNew k false with refCount := 1 }).IdleIn H :=
      (h.2.mono hsub).registerTag (.inr ⟨_, hmem, rfl⟩)
    exact ⟨⟨ht, hI subset_path (by simp)⟩, ht, hI subset_rest (by simp)⟩
  createUsed {P R s k} h hk :=
    ⟨h.1.registerTag (T := { tagNew k true with refCount := 1 }) hk rfl, h.2.registerTag (.inl rfl)⟩
  use {R s k t T} h _ hT :=
    ⟨h.1.touchTag hT rfl rfl fun _ => rfl, h.2.writeTag hT fun _ => rfl⟩
  registerFile h hn := ⟨h.1.registerFile (F := fileNew _) hn rfl, h.2⟩
  attach {P R env s e T f F} h _ hT hF hn := ⟨h.1.attach hT hF hn, h.2.writeTag hT fun _ => rfl⟩
  reference {s k t T} h _ _ hT := ⟨h.1.touchTag hT rfl rfl id, h.2.writeTag hT id⟩
  attachParsed {env s k t T f F} h _ _ hT hF hn :=
    ⟨h.1.attach hT hF hn, h.2.writeTag hT fun _ => rfl⟩
  unlinkKeep {P R env s e T f F} h hT hF _ := by
    refine ⟨h.1.detach hT hF, ?_⟩
    have hI : (s.detach env e.2 T f F).IdleIn (e :: P ++ R ++ s.held) := h.2.writeTag hT id
    exact hI.mono fun e' he' => (List.perm_middle.symm.append_right _).mem_iff.mp he'
  unlinkDrop {P R env s e T f F} h hT hF _ _ := by
    have hT' : (s.detach env e.2 T f F).tagHeap.get? e.2 = some { T with files := T.files.erase F.name } :=
      Store.detach_get?_self hT
    refine ⟨(h.1.detach hT hF).dropTag hT', ?_⟩
    have hI : (s.detach env e.2 T f F).IdleIn (e :: (P ++ R ++ s.held)) := h.2.writeTag hT id
    have hdrop := hI.dropTag (h.1.detach hT hF).toTyped hT'
    refine hdrop.mono fun e' he' => (List.perm_middle.symm.append_right s.held).mem_iff.mp ?_
    exact List.mem_cons_of_mem e he'
  keep {P R x s e T} h hT hu := by
    refine ⟨h.1, fun k t hk hidle => ?_⟩
    -- the tag that is given back is in use, so it was not the one that held an idle tag
    obtain ⟨e', he', het⟩ := h.2 k t hk hidle
    refine ⟨e', ?_, het⟩
    have hne : e' ≠ e := by
      rintro rfl
      exact hidle ⟨T, het ▸ hT, hu⟩
    simpa [hne] using he'
  drop {P R x s e T} h hT _ := by
    refine ⟨h.1.dropTag hT, ?_⟩
    have hI : s.IdleIn (e :: (P ++ R ++ (s.without x).held)) :=
      h.2.mono fun e' he' => (List.perm_middle.append_right _).mem_iff.mp he'
    cases x <;> exact hI.dropTag h.1.toTyped hT

/-- The paths that failed opens have left behind are the same. -/
def SameLeaked (s s' : Store) : Prop := s'.leaked = s.leaked

theorem SameLeaked.trans {s₁ s₂ s₃ : Store} (h : SameLeaked s₁ s₂) (h' : SameLeaked s₂ s₃) :
    SameLeaked s₁ s₃ := Eq.trans h' h

theorem leaked_tagReleaseGeneric (a : Addr) :
    Returns (tagReleaseGeneric env s a) fun r => SameLeaked s r.2 := by
  refine sat_bind.mpr (sat_readFd trivial fun fd _ => ?_)
  refine (sameOpen_pathDelete fd.path).bind fun s₁ h₁ => ?_
  have hleaked : SameLeaked s s₁ := h₁.leaked
  dsimp only
  split_ifs
  · exact hleaked
  · refine Sat.bind (P := SameLeaked s) ?_ fun s' hs' => hs'
    cases fd.file with
    | none => trivial
    | some f => exact sat_bind.mpr (sat_readFile (fun _ => trivial) fun F _ => hleaked)

theorem leaked_tagPoll (a : Addr) (ph : Option PollHandle) :
    Returns (tagPoll s a ph) fun r => SameLeaked s r.2 := by
  refine sat_bind.mpr (sat_readFd trivial fun fd _ => ?_)
  cases fd.file with
  | none => trivial
  | some f => exact sat_bind.mpr (sat_readFile (fun _ => trivial) fun F _ => rfl)

/-- The directory whose tags an open references. -/
def openDir (userPath : CStr) (isTag : Bool) : CStr :=
  if isTag = true then userPath else dirname userPath

/-- `fd_open` gives an `ERR_PTR`. -/
def openFails (env : Env) (s : Store) (userPath : CStr) (m : Malloc) (flags : ℤ) (isTag : Bool) : Bool :=
  returnsWith (pathCreate env s userPath isTag) fun r =>
    returnsWith (fdOpen env r.2 r.1 m flags isTag) fun q => q.1.toOption.isNone

theorem sat_fdOpen_failed (path : Path) (m : Malloc) (flags : ℤ) (isTag : Bool) :
    Returns (fdOpen env s path m flags isTag) fun r =>
      SameLeaked s r.2 ∧ ∀ e, r.1 = .error e → r.2 = s := by
  unfold fdOpen
  cases (if isTag = true then .ok (-1) else env.openFile path.realpath flags) with
  | error e => exact ⟨rfl, fun _ _ => rfl⟩
  | ok fh =>
    refine (returns_true _).bind fun tag _ => ?_
    cases tag with
    | error e => exact ⟨rfl, fun _ _ => rfl⟩
    | ok tag =>
      cases m.fd with
      | none => exact ⟨rfl, fun _ _ => rfl⟩
      | some a =>
        dsimp only
        split_ifs
        · exact ⟨rfl, by rintro e ⟨⟩⟩
        · refine Sat.bind (P := SameLeaked s) ?_ fun s' hs' => ⟨hs', by rintro e ⟨⟩⟩
          cases fileGet s path.filename with
          | none => trivial
          | some f => exact sat_bind.mpr (sat_readFile (fun _ => trivial) fun F _ => rfl)

theorem sat_tagOpen_leaked (h : s.Typed) (userPath : CStr) (m : Malloc) (flags : ℤ) (isTag : Bool) :
    Returns (tagOpen env s userPath m flags isTag) fun r => SameLeaked s r.2 ∨
      openFails env s userPath m flags isTag = true ∧ ∃ path : Path,
        path.selectedTags.keys = components (openDir userPath isTag) ∧
        r.2.leaked = s.leaked.add m.path path := by
  refine (sat_pathCreate h userPath isTag).bind_eq ?_
  rintro ⟨path, s₁⟩ hpath ⟨-, hm⟩
  refine (sat_fdOpen_failed path m flags isTag).bind_eq ?_
  rintro ⟨fd, s₂⟩ hfd ⟨hleaked, hsame⟩
  dsimp only at hleaked hsame ⊢
  have h₁ : SameLeaked s s₁ := hm.leaked
  cases fd with
  | ok a => exact .inl (h₁.trans hleaked)
  | error e =>
    obtain rfl := hsame e rfl
    refine .inr ⟨?_, path, hm.keys, congrArg (·.add m.path path) hm.leaked⟩
    simp [openFails, hpath, hfd, returnsWith, Except.toOption]

/-- Every path left behind is one without components. -/
def PlainLeaks (s : Store) : Prop := ∀ e ∈ s.leaked.entries, e.2.held = []

/-- Opens fail only for paths without components. -/
def FailsPlainly (s : Store) (e : Event) : Prop :=
  match e.callback with
  | .openFile p flags m => openFails e.env s p m flags false = true → components (openDir p false) = []
  | .opendir p flags m => openFails e.env s p m flags true = true → components (openDir p true) = []
  | _ => True

theorem PlainLeaks.open (h : PlainLeaks s) (ht : s.Typed) {userPath : CStr} {m : Malloc} {flags : ℤ}
    {isTag : Bool} (hplain : openFails env s userPath m flags isTag = true →
      components (openDir userPath isTag) = []) :
    Returns (openChecked env s userPath m flags isTag) PlainLeaks := by
  unfold openChecked
  split_ifs
  · refine sat_map.mpr ((sat_tagOpen_leaked ht userPath m flags isTag).mono ?_)
    rintro ⟨res, s'⟩ (hsame | ⟨hfail, path, hkeys, hleaked⟩)
    · exact fun e he => h e (hsame ▸ he)
    · intro e he
      rw [hleaked, Table.entries_add] at he
      rcases List.mem_append.mp he with he | he
      · exact h e he
      · rw [hplain hfail, Table.keys, List.map_eq_nil_iff] at hkeys
        rw [List.mem_singleton.mp he]
        exact hkeys
  · trivial

theorem PlainLeaks.step {e : Event} (h : PlainLeaks s) (ht : s.Typed) (hplain : FailsPlainly s e) :
    Returns (Fuse.step s e) PlainLeaks := by
  have of_same (s' : Store) (hs : SameLeaked s s') : PlainLeaks s' := fun e he => h e (hs ▸ he)
  obtain ⟨env, c⟩ := e
  cases c with
  | getattr p => exact sat_map.mpr ((sameOpen_tagGetattr p).mono fun _ hr => of_same _ hr.leaked)
  | fgetattr a =>
    refine sat_map.mpr (sat_bind.mpr (sat_readFd trivial fun fd _ => ?_))
    exact (sameOpen_getattrIntra fd.path).mono fun _ hr => of_same _ hr.leaked
  | getxattr p name size =>
    exact sat_map.mpr ((sameOpen_tagGetxattr p name size).mono fun _ hr => of_same _ hr.leaked)
  | openFile p flags m => exact h.open ht hplain
  | opendir p flags m => exact h.open ht hplain
  | release a => exact sat_map.mpr ((leaked_tagReleaseGeneric a).mono fun _ hr => of_same _ hr)
  | readdir a => exact sat_map.mpr ((sameOpen_tagReaddir a).mono fun _ hr => of_same _ hr.leaked)
  | read a len off => exact sat_map.mpr ((returns_true _).mono fun _ _ => h)
  | write a buffer off => exact sat_map.mpr ((returns_true _).mono fun _ _ => h)
  | link p q => exact sat_map.mpr ((sameOpen_tagLink p q).mono fun _ hr => of_same _ hr.leaked)
  | unlink p => exact sat_map.mpr ((sameOpen_tagUnlink p).mono fun _ hr => of_same _ hr.leaked)
  | rename p q => exact sat_map.mpr ((sameOpen_tagRename p q).mono fun _ hr => of_same _ hr.leaked)
  | ioctl a readTags compat => exact sat_map.mpr ((returns_true _).mono fun _ _ => h)
  | poll a ph => exact sat_map.mpr ((leaked_tagPoll a ph).mono fun _ hr => of_same _ hr)
  | setxattr _ | rmdir _ | mkdir _ | mknod _ _ _ | truncate _ _ | chmod _ _ | chown _ _ _ | utime _ =>
    exact h

/-- The registry is the same, and every tag object has the references it had. -/
structure SameReferences (s s' : Store) : Prop where
  tags : s'.tags = s.tags
  count : ∀ t, (s'.tagHeap.get? t).map Tag.refCount = (s.tagHeap.get? t).map Tag.refCount

/-- Every registered tag that is not in use is held by the path of an open descriptor. -/
def Store.IdleHeld (s : Store) : Prop := s.IdleIn (s.fds.entries.flatMap (·.2.path.held))

theorem computeSelectedTags_nil {dirpath : CStr} (h : components dirpath = []) :
    computeSelectedTags s dirpath = .ok (.empty, s) := by
  unfold components at h
  unfold computeSelectedTags
  split_ifs at h ⊢
  · rfl
  · rw [h]
    rfl

theorem pathCreate_nil {userPath : CStr} {isTag : Bool} (h : components (openDir userPath isTag) = []) :
    pathCreate env s userPath isTag = .ok (pathOf env userPath .empty, s) := by
  have hc : computeSelectedTags s (openDir userPath isTag) = .ok (.empty, s) :=
    computeSelectedTags_nil h
  unfold openDir at hc
  simp only [pathCreate, hc]
  rfl

theorem Made.not_sameReferences (h : Made s ks sel s') (hne : ks ≠ []) : ¬ SameReferences s s' := by
  intro hsame
  have hsel : sel.entries ≠ [] := by
    intro hnil
    exact hne (by rw [← h.keys, Table.keys, hnil]; rfl)
  obtain ⟨e, he⟩ := List.exists_mem_of_ne_nil _ hsel
  obtain ⟨T, hT, -⟩ := h.typed.tagEntry (h.entry he)
  have hcount := hsame.count e.2
  cases hold : s.tagHeap.get? e.2 with
  | none => simp [hT, hold] at hcount
  | some T₀ =>
    have hocc : 0 < occurrences sel.entries e.2 :=
      List.count_pos_iff.mpr (List.mem_map_of_mem he)
    rw [h.old hold, hold] at hcount
    simp only [Option.map_some, Option.some.injEq] at hcount
    omega

theorem sat_tagOpen_failed (h : s.Typed) (userPath : CStr) (m : Malloc) (flags : ℤ) (isTag : Bool) :
    Returns (tagOpen env s userPath m flags isTag) fun r => r.1 < 0 →
      (SameReferences s r.2 ↔ components (openDir userPath isTag) = []) ∧
      (components (openDir userPath isTag) = [] →
        r.2.tags = s.tags ∧ r.2.tagHeap = s.tagHeap ∧ r.2.fds = s.fds) := by
  refine (sat_pathCreate h userPath isTag).bind_eq ?_
  rintro ⟨path, s₁⟩ hpath ⟨-, hm⟩
  apply (sat_fdOpen_failed path m flags isTag).bind
  rintro ⟨fd, s₂⟩ ⟨-, hsame⟩
  dsimp only at hsame hm ⊢
  cases fd with
  | ok a =>
    intro hneg
    cases hneg
  | error e =>
    obtain rfl := hsame e rfl
    intro _
    by_cases hnil : components (openDir userPath isTag) = []
    · rw [pathCreate_nil hnil] at hpath
      cases hpath
      exact ⟨iff_of_true ⟨rfl, fun _ => rfl⟩ hnil, fun _ => ⟨rfl, rfl, rfl⟩⟩
    · -- the references of the path have been taken and are not given back
      refine ⟨iff_of_false (fun hsame => ?_) hnil, fun h => absurd h hnil⟩
      exact hm.not_sameReferences hnil ⟨hsame.tags, hsame.count⟩

/-- In a run whose failing opens are of paths without components, every registered tag that is not
in use is held by an open descriptor. -/
theorem idleHeld_of_reaches {file : Option CStr} {s₀ : Store}
    (h₀ : setRootDirectory env file = .ok s₀) (h : Reaches step FailsPlainly s₀ s) : s.IdleHeld := by
  have hstart := (idleHeld_sound.setRootDirectory file).of_ok h₀
  have hplain₀ : PlainLeaks s₀ := by
    intro e he
    have hmem : e.2 ∈ s₀.livePaths := List.mem_append_right _ (List.mem_map_of_mem he)
    exact List.flatMap_eq_nil_iff.mp hstart.1 e.2 hmem
  have hs : idleHeld.opening [] [] s ∧ PlainLeaks s := by
    refine h.invariant (I := fun s => idleHeld.opening [] [] s ∧ PlainLeaks s)
      ⟨hstart.2, hplain₀⟩ ?_
    intro s e s' hI hg he
    have hpermit : idleHeld.Permits s e :=
      Discipline.permits_of_forall (fun _ _ => trivial) fun _ _ => trivial
    exact ⟨(idleHeld_sound.step hI.1 hpermit).of_ok he, (hI.2.step hI.1.1.toTyped hg).of_ok he⟩
  refine hs.1.2.mono fun e he => ?_
  have hleaked : s.leaked.entries.flatMap (·.2.held) = [] := List.flatMap_eq_nil_iff.mpr hs.2
  simpa [Store.held, Store.livePaths, List.flatMap_append, List.flatMap_map, hleaked] using he

/-- In every reached store, an open that fails leaves the registry and the references as they are
exactly if the directory it references has no components; and as long as all opens that fail are
such, every registered tag that is not in use is held by an open descriptor. -/
theorem failed_open_iff {env₀ : Env} {file : Option CStr} {s₀ : Store}
    (h₀ : setRootDirectory env₀ file = .ok s₀) (h : Reaches step (fun _ _ => True) s₀ s)
    {userPath : CStr} {m : Malloc} {flags : ℤ} {isTag : Bool} {res : ℤ}
    (hopen : tagOpen env s userPath m flags isTag = .ok (res, s')) (hneg : res < 0) :
    (SameReferences s s' ↔ components (openDir userPath isTag) = []) ∧
      (Reaches step FailsPlainly s₀ s → components (openDir userPath isTag) = [] → s'.IdleHeld) := by
  obtain ⟨ht, -⟩ := positive_of_reaches h₀ h
  obtain ⟨hiff, hsame⟩ := (sat_tagOpen_failed ht.toTyped userPath m flags isTag).of_ok hopen hneg
  refine ⟨hiff, fun hrun hnil => ?_⟩
  obtain ⟨htags, hheap, hfds⟩ := hsame hnil
  have hidle := idleHeld_of_reaches h₀ hrun
  intro k t hk hu
  rw [hfds]
  refine hidle k t (htags ▸ hk) fun huse => hu ?_
  rwa [Store.InUse, hheap]

instance (s : Store) (e : Event) : Decidable (FailsPlainly s e) :=
  match e with
  | ⟨env, .openFile p flags m⟩ => inferInstanceAs
      (Decidable (openFails env s p m flags false = true → components (openDir p false) = []))
  | ⟨env, .opendir p flags m⟩ => inferInstanceAs
      (Decidable (openFails env s p m flags true = true → components (openDir p true) = []))
  | ⟨_, .getattr _⟩ | ⟨_, .fgetattr _⟩ | ⟨_, .setxattr _⟩ | ⟨_, .getxattr ..⟩ | ⟨_, .release _⟩
  | ⟨_, .readdir _⟩ | ⟨_, .read ..⟩ | ⟨_, .write ..⟩ | ⟨_, .link ..⟩ | ⟨_, .unlink _⟩
  | ⟨_, .rename ..⟩ | ⟨_, .rmdir _⟩ | ⟨_, .mkdir _⟩ | ⟨_, .mknod ..⟩ | ⟨_, .truncate ..⟩
  | ⟨_, .chmod ..⟩ | ⟨_, .chown ..⟩ | ⟨_, .utime _⟩ | ⟨_, .ioctl ..⟩ | ⟨_, .poll ..⟩ => .isTrue trivial

/-- While `/x/y` is open, where only `y` is in use, an open of `/f` fails for lack of memory. -/
theorem failed_open_iff_sample : ∃ s res s', execute step FailsPlainly openUnused .init = some s ∧
    tagOpen sampleEnv s (samplePath [] nameF) ⟨3, none⟩ 0 false = .ok (res, s') ∧ res < 0 ∧
    SameReferences s s' ∧ s'.IdleHeld := by
  have hrun : (execute step FailsPlainly openUnused .init).any (fun s => returnsWith
      (tagOpen sampleEnv s (samplePath [] nameF) ⟨3, none⟩ 0 false) (fun r => r.1 < 0)) = true := by
    decide +kernel
  obtain ⟨s, hs, hp⟩ := (Option.any_eq_true _ _).mp hrun
  obtain ⟨⟨res, s'⟩, hopen, hneg⟩ := returnsWith_iff.mp hp
  have h₀ : setRootDirectory sampleEnv none = .ok .init := rfl
  have hreach := reaches_of_execute hs
  have hneg' : res < 0 := of_decide_eq_true hneg
  have hnil : components (openDir (samplePath [] nameF) false) = [] := by decide
  obtain ⟨hiff, hidle⟩ := failed_open_iff h₀ (hreach.weaken fun _ _ _ => trivial) hopen hneg'
  exact ⟨s, res, s', hs, hopen, hneg', hiff.mpr hnil, hidle hreach hnil⟩

/-- An `opendir` of the unknown directory `/x` registers `x`, and nothing can take it away. -/
theorem failed_open_registers : ¬ ∀ env₀ file s₀ s env userPath m flags isTag res s',
    setRootDirectory env₀ file = .ok s₀ → Reaches step (fun _ _ => True) s₀ s →
    tagOpen env s userPath m flags isTag = .ok (res, s') → res < 0 →
    SameReferences s s' ∧ s'.IdleHeld := by
  intro h
  have hrun : returnsWith (tagOpen sampleEnv .init (dirPath [nameX]) ⟨1, some 2⟩ 0 true)
      (fun r => r.1 < 0 ∧ r.2.tags.get? nameX ≠ none) = true := by decide +kernel
  obtain ⟨⟨res, s'⟩, hopen, hp⟩ := returnsWith_iff.mp hrun
  obtain ⟨hneg, hx⟩ : res < 0 ∧ s'.tags.get? nameX ≠ none := of_decide_eq_true hp
  have hsame := (h sampleEnv none .init .init sampleEnv _ _ _ _ res s' rfl (.refl _) hopen hneg).1
  rw [hsame.tags] at hx
  exact hx rfl

end TagFilesystem.Fuse
