import TagFilesystem.Fuse.Refinement
import TagFilesystem.Fuse.CountsRuns

namespace TagFilesystem.Fuse

open Cutil (INT_MAX)

variable {env : Env} {s s' s₀ : Store} {t : TagId} {f : FileId} {F F' : File} {k n p q : CStr}
  {a : Addr} {fd : FileDescriptor}

theorem catalogue_touchFile (hF : s.fileHeap.get? f = some F) (ht : F'.tags = F.tags) :
    (s.writeFile f F').catalogue = s.catalogue := by
  refine Catalogue.ext_iff_forall.mpr ⟨fun n k => ?_, fun k => Iff.rfl⟩
  simp only [Store.catalogue, Store.Carries, tagged_touchFile hF ht, Store.writeFile_files]

theorem view_add (fds : s'.fds = s.fds) (hc : s'.catalogue = s.catalogue) :
    Store.view { s' with fds := s'.fds.add a fd } = s.view.opens a fd.path.query := by
  apply View.ext hc
  intro b
  simp only [Store.view, View.opens, Table.get?_add, fds, eq_comm (a := b)]
  split_ifs
  · rfl
  · rfl

theorem view_erase (fds : s'.fds = s.fds) (hc : s'.catalogue = s.catalogue) (hu : s.fds.Unique) :
    Store.view { s' with fds := s'.fds.erase a } = s.view.closes a := by
  apply View.ext hc
  intro b
  simp only [Store.view, View.closes, fds, hu.get?_erase]
  split_ifs
  · rfl
  · rfl

/-- What a run keeps: descriptors have their own addresses, and live paths their labels. -/
structure Store.Orderly (s : Store) : Prop where
  tidy : s.Tidy
  coherent : s.Coherent
  fdsUnique : s.fds.Unique
  labels : ∀ e ∈ s.held, s.Labels e

namespace Store.Orderly

variable (h : s.Orderly)
include h

theorem labelsAll (hfd : s.fds.get? a = some fd) : s.LabelsAll fd.path.held :=
  fun e he T hT => (h.labels e (held_of_get? hfd e he)).2 T hT

end Store.Orderly

section Descriptors

variable (h : s.Orderly)
include h

theorem returns_tagOpen_view (p : CStr) (flags : ℤ) (m : Malloc) :
    Returns (tagOpen env s p m flags false) fun r =>
      ViewStep s.view ⟨env, .openFile p flags m⟩ (.status r.1) r.2.view := by
  apply (returns_madePath h.tidy h.coherent p false).bind
  rintro ⟨path, s₁⟩ h₁
  dsimp only at h₁ ⊢
  have hreal : path.realpath = pathRealpath env p := congrArg Query.realpath h₁.query
  -- a failed open leaves the path behind
  have hfail : Store.view { s₁ with leaked := s₁.leaked.add m.path path } = s.view := by
    apply View.ext h₁.catalogue
    intro b
    simp only [Store.view, h₁.fds]
  simp only [fdOpen, fdOpenTag, hreal, Bool.false_eq_true, if_false, false_and]
  cases hopen : env.openFile (pathRealpath env p) flags with
  | error errno =>
    simp only [ok_bind]
    rw [sat_ok, hfail]
    exact .openRefused hopen
  | ok fh =>
    cases hm : m.fd with
    | none =>
      simp only [ok_bind]
      rw [sat_ok, hfail]
      exact .openNoMemory hopen hm
    | some b =>
      simp only [ok_bind]
      unfold fileAddDescriptor
      cases fileGet s₁ path.filename with
      | none => trivial
      | some f =>
        simp only [sat_bind]
        apply sat_readFile (fun _ => trivial)
        intro F hF
        set s₂ := s₁.writeFile f { F with descriptors := F.descriptors.add b b }
        have htouch : s₂.catalogue = s₁.catalogue := catalogue_touchFile hF (by rfl)
        have hcat : s₂.catalogue = s.catalogue := htouch.trans h₁.catalogue
        have hfds : s₂.fds = s.fds := h₁.fds
        simp only [sat_ok]
        rw [view_add hfds hcat, h₁.query]
        exact .openFile hopen hm

theorem returns_tagOpendir_view (p : CStr) (flags : ℤ) (m : Malloc) :
    Returns (tagOpen env s p m flags true) fun r =>
      ViewStep s.view ⟨env, .opendir p flags m⟩ (.status r.1) r.2.view := by
  apply (returns_madePath h.tidy h.coherent p true).bind
  rintro ⟨path, s₁⟩ h₁
  dsimp only at h₁ ⊢
  have hfail : Store.view { s₁ with leaked := s₁.leaked.add m.path path } = s.view := by
    apply View.ext h₁.catalogue
    intro b
    simp only [Store.view, h₁.fds]
  have hused (k : CStr) : s₁.UsedName k ↔ s.UsedName k :=
    (Catalogue.ext_iff_forall.mp h₁.catalogue).2 k
  -- the tag that the directory stands for has to be in use
  have htag : Returns (fdOpenTag s₁ path true) fun r =>
      ((∃ tag, r = .ok tag) ∧ (p = [slash] ∨ s.UsedName (basename p))) ∨
        r = .error (-ENOENT) ∧ p ≠ [slash] ∧ ¬ s.UsedName (basename p) := by
    rw [← hused]
    unfold fdOpenTag
    rw [h₁.strings.1]
    by_cases hroot : p = [slash]
    · rw [if_neg (by simp [hroot])]
      exact .inl ⟨⟨_, rfl⟩, .inl hroot⟩
    rw [if_pos ⟨rfl, hroot⟩, h₁.filename]
    cases hk : tagGet s₁ (basename p) with
    | none =>
      refine .inr ⟨rfl, hroot, ?_⟩
      rintro ⟨t, ht, -⟩
      cases (show s₁.tags.get? (basename p) = none from hk).symm.trans ht
    | some t =>
      have ht : s₁.tags.get? (basename p) = some t := hk
      apply sat_bind.mpr
      apply sat_readTag (fun _ => trivial)
      intro T hT
      cases hu : T.inUse with
      | true => exact .inl ⟨⟨_, rfl⟩, .inr ⟨t, ht, T, hT, hu⟩⟩
      | false =>
        refine .inr ⟨rfl, hroot, ?_⟩
        rintro ⟨t', ht', T', hT', hu'⟩
        cases ht.symm.trans ht'
        cases hT.symm.trans hT'
        rw [hu] at hu'
        cases hu'
  simp only [fdOpen, if_true, sat_bind]
  apply htag.mono
  rintro r (⟨⟨tag, rfl⟩, hok⟩ | ⟨rfl, hroot, hno⟩)
  · cases hm : m.fd with
    | none =>
      simp only [sat_ok]
      rw [hfail]
      exact .opendirNoMemory hok hm
    | some b =>
      simp only [ok_bind, sat_ok]
      rw [view_add h₁.fds h₁.catalogue, h₁.query]
      exact .opendir hok hm
  · simp only [sat_ok]
    rw [hfail]
    exact .opendirRefused hroot hno

theorem returns_tagReleaseGeneric_view (hcur : ∀ fd, s.fds.get? a = some fd → ∀ e ∈ fd.path.held, s.Current e.2) :
    Returns (tagReleaseGeneric env s a) fun r =>
      ViewStep s.view ⟨env, .release a⟩ (.status r.1) r.2.view := by
  apply sat_bind.mpr
  apply sat_readFd trivial
  intro fd hfd
  apply (sat_deleted h.tidy h.coherent (hcur fd hfd)).bind
  intro s₁ hd
  have hclose {s₂ : Store} {res : ℤ} (hfds : s₂.fds = s.fds) (hcat : s₂.catalogue = s.catalogue) :
      ViewStep s.view ⟨env, .release a⟩ (.status res) (Store.view { s₂ with fds := s₂.fds.erase a }) := by
    rw [view_erase hfds hcat h.fdsUnique]
    exact .release
  dsimp only
  split_ifs
  · exact hclose hd.fds hd.catalogue
  · unfold fileRemoveDescriptor
    cases fd.file with
    | none => trivial
    | some f =>
      simp only [sat_bind]
      apply sat_readFile (fun _ => trivial)
      intro F hF
      have htouch : (s₁.writeFile f { F with descriptors := F.descriptors.erase fd.pathAddr }).catalogue =
          s₁.catalogue := catalogue_touchFile hF (by rfl)
      exact hclose hd.fds (htouch.trans hd.catalogue)

theorem returns_tagFgetattr_view : Returns (tagFgetattr env s a) fun r =>
    ViewStep s.view ⟨env, .fgetattr a⟩ (.attr r.1 r.2.1) r.2.2.view := by
  apply sat_bind.mpr
  apply sat_readFd trivial
  intro fd hfd
  refine ((returns_getattrIntra_gives h.tidy.toTyped (h.labelsAll hfd)).and
    (sameOpen_getattrIntra fd.path)).mono ?_
  rintro ⟨res, st, s'⟩ ⟨⟨rfl, hres, rfl⟩, ho⟩
  dsimp only at hres ho ⊢
  rw [view_of_same catalogue_getattrStore ho]
  exact .fgetattr (by simp only [Store.view, hfd]; rfl) hres

omit h in
/-- `readdir_list_tags_mode2` reads every tag of the path, so that none of them has been freed. -/
theorem allLive_of_readdirTags {sel : HashTable TagId} (hlabels : s.LabelsAll sel.entries) :
    Returns (if sel.size > 0 then readdirListTagsMode2 s sel else readdirListTagsMode1 s sel)
      fun _ => s.AllLive sel := by
  by_cases hlive : s.AllLive sel
  · exact (returns_true _).mono fun _ _ => hlive
  -- one of the tags is gone
  have hdead : ∃ e ∈ sel.entries, s.tagHeap.get? e.2 = none := by
    simp only [Store.AllLive, not_forall] at hlive
    obtain ⟨e, he, hno⟩ := hlive
    refine ⟨e, he, Option.eq_none_iff_forall_ne_some.mpr fun T hT => ?_⟩
    exact hno ⟨T, hT, hlabels e he T hT⟩
  have ⟨e, he, _⟩ := hdead
  have hsize : sel.size > 0 := List.length_pos_of_mem he
  rw [if_pos hsize]
  have hstop : Returns (readdirGetSelectedFiles s sel) fun _ => False := by
    refine (forEach_stops (fun e : CStr × TagId => s.tagHeap.get? e.2 = none) (fun e _ hno => ?_)
      hdead _).bind fun _ h => h.elim
    exact sat_bind.mpr (sat_readTag (fun _ => trivial) fun T hT => by simp [hno] at hT)
  exact hstop.bind fun _ h => h.elim

theorem returns_tagReaddir_view (hcur : ∀ fd, s.fds.get? a = some fd → ∀ e ∈ fd.path.held, s.Current e.2) :
    Returns (tagReaddir env s a) fun r =>
      ViewStep s.view ⟨env, .readdir a⟩ (.names r.1) r.2.view := by
  have hread : Returns (tagReaddir env s a) fun r => ∃ fd tags, s.fds.get? a = some fd ∧
      (tags.Nodup ∧ ∀ k, k ∈ tags ↔ s.catalogue.Shows fd.path.selectedTags.keys k) ∧
        r.1 = [dot, dotdot] ++ tags ++ shownEntries env s fd.path.selectedTags.keys ∧
        r.2.catalogue = s.catalogue := by
    apply sat_bind.mpr
    apply sat_readFd trivial
    intro fd hfd
    have htags : Returns (if fd.path.selectedTags.size > 0 then
          readdirListTagsMode2 s fd.path.selectedTags
        else readdirListTagsMode1 s fd.path.selectedTags) fun tags => s.AllLive fd.path.selectedTags ∧
          tags.Nodup ∧ ∀ k, k ∈ tags ↔ s.catalogue.Shows fd.path.selectedTags.keys k := by
      have hlive := allLive_of_readdirTags (h.labelsAll hfd)
      by_cases hn : s.AllLive fd.path.selectedTags
      · exact (sat_readdirTags h.tidy.toTyped h.coherent hn (hcur fd hfd) rfl).mono
          fun tags ht => ⟨hn, ht⟩
      · exact hlive.mono fun tags ht => absurd ht hn
    have hfiles (hn : s.AllLive fd.path.selectedTags) : Returns (readdirListFiles env s fd.path) fun r =>
        r.1 = shownEntries env s fd.path.selectedTags.keys ∧ r.2.catalogue = s.catalogue :=
      (returns_readdirListFiles_catalogue h.tidy.toTyped hn).and
        (sat_showsEntry h.tidy.toTyped hn) |>.mono fun r hr => ⟨hr.2.1, hr.1⟩
    have hdone {tags : List CStr} (ht : tags.Nodup ∧
        ∀ k, k ∈ tags ↔ s.catalogue.Shows fd.path.selectedTags.keys k) {r : List CStr × Store}
        (hr : r.1 = shownEntries env s fd.path.selectedTags.keys ∧ r.2.catalogue = s.catalogue) :
        ∃ fd tags', s.fds.get? a = some fd ∧
          (tags'.Nodup ∧ ∀ k, k ∈ tags' ↔ s.catalogue.Shows fd.path.selectedTags.keys k) ∧
            [dot, dotdot] ++ tags ++ r.1 =
              [dot, dotdot] ++ tags' ++ shownEntries env s fd.path.selectedTags.keys ∧
            r.2.catalogue = s.catalogue := ⟨fd, tags, hfd, ht, by rw [hr.1], hr.2⟩
    dsimp only
    split_ifs at htags ⊢
    · exact htags.bind fun tags ht => (hfiles ht.1).bind fun r hr => hdone ht.2 hr
    · exact htags.bind fun tags ht => (hfiles ht.1).bind fun r hr => hdone ht.2 hr
  refine (hread.and (sameOpen_tagReaddir a)).mono ?_
  rintro ⟨names, s'⟩ ⟨⟨fd, tags, hfd, htags, rfl, hcat⟩, ho⟩
  rw [view_of_same hcat ho]
  refine .readdir (q := fd.path.query) (by simp only [Store.view, hfd]; rfl) htags.1 htags.2 fun d => ?_
  exact decide_eq_true_iff

omit h in
theorem returns_tagPoll_view (ph : Option PollHandle) : Returns (tagPoll s a ph) fun r =>
    r.2.view = s.view := by
  apply sat_bind.mpr
  apply sat_readFd trivial
  intro fd hfd
  cases fd.file with
  | none => trivial
  | some f =>
    apply sat_bind.mpr
    apply sat_readFile (fun _ => trivial)
    intro F hF
    apply View.ext
    · exact catalogue_touchFile hF (by rfl)
    · intro b
      simp only [Store.view, Store.writeFile_fds, Table.get?_modify]
      split_ifs
      · rw [Option.map_map]
        rfl
      · rfl

end Descriptors

theorem returns_tagOper_view {e : Event} (h : s.Orderly) (hg : NotReplaced s e) :
    Returns (tagOper s e) fun r => ViewStep s.view e r.1 r.2.view := by
  obtain ⟨env, c⟩ := e
  cases c with
  | getattr p => exact sat_map.mpr (returns_tagGetattr_view h.tidy h.coherent p)
  | fgetattr a => exact sat_map.mpr (returns_tagFgetattr_view h)
  | getxattr p name size => exact sat_map.mpr (returns_tagGetxattr_view h.tidy h.coherent p name size)
  | openFile p flags m =>
    simp only [tagOper, openReply]
    split_ifs
    · exact sat_map.mpr (returns_tagOpen_view h p flags m)
    · trivial
  | opendir p flags m =>
    simp only [tagOper, openReply]
    split_ifs
    · exact sat_map.mpr (returns_tagOpendir_view h p flags m)
    · trivial
  | release a => exact sat_map.mpr (returns_tagReleaseGeneric_view h hg)
  | readdir a => exact sat_map.mpr (returns_tagReaddir_view h hg)
  | link p q => exact sat_map.mpr (returns_tagLink_view h.tidy h.coherent p q)
  | unlink p => exact sat_map.mpr (returns_tagUnlink_view h.tidy h.coherent p)
  | rename p q => exact sat_map.mpr (returns_tagRename_view h.tidy h.coherent p q)
  | poll a ph =>
    apply sat_map.mpr
    apply (returns_tagPoll_view ph).mono
    intro r hr
    rw [hr]
    exact .quiet rfl
  | read a len off => exact sat_map.mpr ((returns_true _).mono fun _ _ => .quiet rfl)
  | write a buffer off => exact sat_map.mpr ((returns_true _).mono fun _ _ => .quiet rfl)
  | ioctl a readTags compat => exact sat_map.mpr ((returns_true _).mono fun _ _ => .quiet rfl)
  | _ => exact .quiet rfl

/-- An open adds the descriptor that `malloc` made room for, if anything. -/
theorem returns_tagOpen_fds (p : CStr) (flags : ℤ) (m : Malloc) (isTag : Bool) :
    Returns (tagOpen env s p m flags isTag) fun r =>
      r.2.fds = s.fds ∨ ∃ b fd, m.fd = some b ∧ r.2.fds = s.fds.add b fd := by
  apply (sameOpen_pathCreate p isTag).bind
  rintro ⟨path, s₁⟩ h₁
  have hfds : s₁.fds = s.fds := h₁.fds
  dsimp only
  have hopen : Returns (fdOpen env s₁ path m flags isTag) fun r =>
      r.2.fds = s.fds ∨ ∃ b fd, m.fd = some b ∧ r.2.fds = s.fds.add b fd := by
    unfold fdOpen
    cases (if isTag = true then .ok (-1) else env.openFile path.realpath flags) with
    | error errno => exact .inl hfds
    | ok fh =>
      apply (returns_true _).bind
      rintro tag -
      cases tag with
      | error errno => exact .inl hfds
      | ok tag =>
        cases m.fd with
        | none => exact .inl hfds
        | some b =>
          have hadd (fd : FileDescriptor) : s₁.fds.add b fd = s.fds.add b fd := by rw [hfds]
          dsimp only
          split_ifs
          · exact .inr ⟨b, _, rfl, hadd _⟩
          · unfold fileAddDescriptor
            cases fileGet s₁ path.filename with
            | none => trivial
            | some f =>
              simp only [sat_bind]
              apply sat_readFile (fun _ => trivial)
              intro F _
              exact .inr ⟨b, _, rfl, hadd _⟩
  apply hopen.bind
  rintro ⟨fd, s₂⟩ h₂
  cases fd with
  | error errno => exact h₂
  | ok b => exact h₂

theorem returns_step_fdsUnique {e : Event} (hu : s.fds.Unique) :
    Returns (step s e) fun s' => s'.fds.Unique := by
  have hsame {s' : Store} (ho : SameOpen s s') : s'.fds.Unique := ho.fds ▸ hu
  obtain ⟨env, c⟩ := e
  cases c with
  | getattr p => exact sat_map.mpr ((sameOpen_tagGetattr p).mono fun _ => hsame)
  | getxattr p name size => exact sat_map.mpr ((sameOpen_tagGetxattr p name size).mono fun _ => hsame)
  | readdir a => exact sat_map.mpr ((sameOpen_tagReaddir a).mono fun _ => hsame)
  | link p q => exact sat_map.mpr ((sameOpen_tagLink p q).mono fun _ => hsame)
  | unlink p => exact sat_map.mpr ((sameOpen_tagUnlink p).mono fun _ => hsame)
  | rename p q => exact sat_map.mpr ((sameOpen_tagRename p q).mono fun _ => hsame)
  | fgetattr a =>
    apply sat_map.mpr
    apply sat_bind.mpr
    apply sat_readFd trivial
    intro fd _
    exact (sameOpen_getattrIntra fd.path).mono fun _ => hsame
  | openFile p flags m | opendir p flags m =>
    simp only [step, openChecked]
    split_ifs with hm
    · apply sat_map.mpr
      apply (returns_tagOpen_fds p flags m _).mono
      rintro ⟨res, s'⟩ (hr | ⟨b, fd, hb, hr⟩)
      · exact hr ▸ hu
      -- the address is of no open descriptor
      · have hfresh : s.fds.get? b = none := by
          apply Table.get?_eq_none.mpr
          intro hk
          exact (hm.2 b hb).1 (List.mem_append_left _ (List.mem_append_left _ hk))
        exact hr ▸ hu.add hfresh
    · trivial
  | release a =>
    apply sat_map.mpr
    apply sat_bind.mpr
    apply sat_readFd trivial
    intro fd _
    apply (sameOpen_pathDelete fd.path).bind
    intro s₁ h₁
    have hu₁ : (s₁.fds.erase a).Unique := (hsame h₁).erase
    dsimp only
    split_ifs
    · exact hu₁
    · unfold fileRemoveDescriptor
      cases fd.file with
      | none => trivial
      | some f =>
        simp only [sat_bind]
        apply sat_readFile (fun _ => trivial)
        intro F _
        exact hu₁
  | poll a ph =>
    apply sat_map.mpr
    apply sat_bind.mpr
    apply sat_readFd trivial
    intro fd _
    cases fd.file with
    | none => trivial
    | some f =>
      apply sat_bind.mpr
      apply sat_readFile (fun _ => trivial)
      intro F _
      have hmodify : (s.fds.modify a fun fd => { fd with ph := ph }).Unique := by
        rw [Table.Unique, Table.keys_modify]
        exact hu
      exact hmodify
  | read a len off | write a buffer off | ioctl a readTags compat =>
    exact sat_map.mpr ((returns_true _).mono fun _ _ => hu)
  | _ => exact hu

theorem returns_step_orderly {e : Event} (h : s.Orderly) (hg : NotReplaced s e) :
    Returns (step s e) Store.Orderly := by
  have hrelease : ReleaseHarmless s e := by
    obtain ⟨env, c⟩ := e
    cases c with
    | release a => exact fun fd hfd t ht => (hg fd hfd t ht).harmless h.tidy
    | _ => trivial
  have hcoherent : Returns (step s e) (coherence.opening [] []) :=
    coherence_sound.step ⟨h.tidy, h.coherent, by simp⟩ (coherence_permits hrelease)
  have hlabels : Returns (step s e) (labelled.opening [] []) :=
    labelled_sound.step ⟨h.tidy, h.labels⟩
      (Discipline.permits_of_forall (fun _ _ => trivial) fun _ _ => trivial)
  refine ((hcoherent.and hlabels).and (returns_step_fdsUnique h.fdsUnique)).mono ?_
  rintro s' ⟨⟨⟨ht, hc, -⟩, -, hl⟩, hu⟩
  exact ⟨ht, hc, hu, hl⟩

theorem orderly_setRootDirectory {file : Option CStr} (h₀ : setRootDirectory env file = .ok s₀) :
    s₀.Orderly ∧ s₀.fds = .empty := by
  obtain ⟨-, ht, hc, -⟩ := (coherence_sound.setRootDirectory file).of_ok h₀
  obtain ⟨-, -, hl⟩ := (labelled_sound.setRootDirectory file).of_ok h₀
  have hfds : s₀.fds = .empty := ((sameOpen_setRootDirectory file).of_ok h₀).fds
  exact ⟨⟨ht, hc, hfds ▸ Table.unique_empty, hl⟩, hfds⟩

section Runs

variable {file : Option CStr} {log : List (Event × Reply)}

theorem allows_of_logs (h₀ : setRootDirectory env file = .ok s₀)
    (h : Logs tagOper NotReplaced s₀ log s) : Allows ViewStep s₀.view log s.view := by
  have hstep (s : Store) (V : View) (e : Event) (hR : s.Orderly ∧ V = s.view)
      (hg : NotReplaced s e) : Returns (tagOper s e) fun r =>
        ∃ V', ViewStep V e r.1 V' ∧ r.2.Orderly ∧ V' = r.2.view := by
    obtain ⟨ho, rfl⟩ := hR
    have hnext : Returns (tagOper s e) fun r => r.2.Orderly := by
      have hrun := returns_step_orderly ho hg
      rw [step_eq] at hrun
      exact sat_map.mp hrun
    exact ((returns_tagOper_view ho hg).and hnext).mono fun r hr => ⟨_, hr.1, hr.2, rfl⟩
  obtain ⟨V, hlog, -, rfl⟩ := h.simulate (E := fun _ _ => True)
    ⟨(orderly_setRootDirectory h₀).1, rfl⟩ hstep
  exact hlog

/-- A directory is read while it holds a tag that is not in use, and once more after its tag has been
removed; then the file moves. -/
def sampleSession : List Event := [
  ⟨sampleEnv, .link (samplePath [] nameF) (samplePath [nameY] nameF)⟩,
  ⟨sampleEnv, .opendir (samplePath [nameX] nameY) 0 ⟨1, some 2⟩⟩,
  ⟨sampleEnv, .readdir 2⟩,
  ⟨sampleEnv, .release 2⟩,
  ⟨sampleEnv, .opendir (samplePath [] nameY) 0 ⟨3, some 4⟩⟩,
  ⟨sampleEnv, .readdir 4⟩,
  ⟨sampleEnv, .rename (samplePath [nameY] nameF) (samplePath [nameX] nameF)⟩,
  ⟨sampleEnv, .readdir 4⟩,
  ⟨sampleEnv, .release 4⟩,
  ⟨sampleEnv, .getxattr (samplePath [nameX] nameF) attrTags 4⟩]

def sampleReplies : List Reply := [.status 0, .status 0, .names [dot, dotdot], .status 0, .status 0,
  .names [dot, dotdot, nameF], .status 0, .names [dot, dotdot], .status 0, .value 1 [120, 0, 0, 0]]

/-- In these runs a file has a tag at the end only if it had it at the start or a `link` or `rename`
has given it, and no `unlink` or `rename` has taken it since. Nothing else takes it. -/
theorem tags_last_given (hfile : ∀ text ∈ file, (text.length : ℤ) ≤ INT_MAX)
    (h₀ : @setRootDirectory Counting.int env file = .ok s₀)
    (h : Logs (@tagOper Counting.int)
      (fun s e => NotReplaced s e ∧ s.RoomFor e.callback.references) s₀ log s) (n k : CStr) :
    (s.Carries n k → Since (MayTag n k) (Untags n k) (s₀.Carries n k) log) ∧
      (Since (Tags n k) (Untags n k) (s₀.Carries n k) log → s.Carries n k) := by
  obtain ⟨h₀', hfits⟩ := (coincide_setRootDirectory hfile).of_ok h₀
  have hlog := allows_of_logs h₀' (logs_of_int hfits h).1
  constructor
  · exact hlog.since (P := fun V => V.catalogue.carries n k) fun _ _ _ _ => ViewStep.mayTag
  · exact hlog.of_since (P := fun V => V.catalogue.carries n k) fun _ _ _ _ => ViewStep.of_tags

/-- The file `f` gets the tags `x` and `y`, moves from `y` to `r`, and loses `x`, which `g` keeps. -/
def movingLog : List (Event × Reply) := [
  (⟨sampleEnv, .link (samplePath [] nameF) (samplePath [nameX] nameF)⟩, .status 0),
  (⟨sampleEnv, .link (samplePath [] nameF) (samplePath [nameY] nameF)⟩, .status 0),
  (⟨sampleEnv, .link (samplePath [] nameG) (samplePath [nameX] nameG)⟩, .status 0),
  (⟨sampleEnv, .rename (samplePath [nameY] nameF) (samplePath [rootName] nameF)⟩, .status 0),
  (⟨sampleEnv, .unlink (samplePath [nameX] nameF)⟩, .status 0)]

theorem tags_last_given_sample : ∃ s, Logs (@tagOper Counting.int)
      (fun s e => NotReplaced s e ∧ s.RoomFor e.callback.references) .init movingLog s ∧
    s.Carries nameG nameX ∧ ¬ s.Carries nameF nameX := by
  have hrun : (executeLog (@tagOper Counting.int)
      (fun s e => NotReplaced s e ∧ s.RoomFor e.callback.references) (movingLog.map Prod.fst) []
        .init).any (fun r => r.1.map Prod.snd = movingLog.map Prod.snd) = true := by decide +kernel
  obtain ⟨⟨log, s⟩, hr, hreplies⟩ := (Option.any_eq_true _ _).mp hrun
  obtain rfl : log = movingLog := log_ext (events_of_executeLog hr) (of_decide_eq_true hreplies)
  have h : Logs (@tagOper Counting.int) _ .init movingLog s := logs_of_executeLog .nil hr
  have h₀ : @setRootDirectory Counting.int sampleEnv none = .ok .init := rfl
  refine ⟨s, h, (tags_last_given (by simp) h₀ h nameG nameX).2 ?_, fun hk => ?_⟩
  · -- the callbacks after the `link` of `g` untag `f` only
    have hfile : nameF ≠ nameG := by decide
    have hname (d : CStr) (hd : d = nameX ∨ d = nameY) : basename (samplePath [d] nameF) = nameF := by
      obtain rfl | rfl := hd <;> decide +kernel
    refine .inr ⟨movingLog.take 2, _, movingLog.drop 3, rfl,
      ⟨rfl, by decide +kernel, by decide +kernel⟩, ?_⟩
    change ∀ y ∈ [_, _], _
    rw [List.forall_mem_cons, List.forall_mem_singleton]
    refine ⟨?_, ?_⟩
    · rintro ⟨-, hn, -⟩
      exact hfile ((hname nameY (.inr rfl)).symm.trans hn)
    · rintro ⟨-, hn, -⟩
      exact hfile ((hname nameX (.inl rfl)).symm.trans hn)
  · -- the last callback takes `x` from `f`
    have hsince : Since _ _ _ (movingLog.take 4 ++ [_]) :=
      (tags_last_given (by simp) h₀ h nameF nameX).1 hk
    have hlast : Untags nameF nameX (⟨sampleEnv, .unlink (samplePath [nameX] nameF)⟩, .status 0) :=
      ⟨rfl, by decide +kernel, by decide +kernel⟩
    rcases since_concat.mp hsince with hmay | ⟨-, hno⟩
    · exact hmay
    · exact hno hlast

end Runs

end TagFilesystem.Fuse
