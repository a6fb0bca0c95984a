import TagFilesystem.Fuse.Getattr
import TagFilesystem.Fuse.Listing

namespace TagFilesystem.Fuse

variable {env : Env} {s s' : Store} {t : TagId} {T : Tag} {f : FileId} {k n u : CStr}
  {E : Fault → Prop} {ks ks' : List CStr} {sel : HashTable TagId}

/-- The record `f` is among the files of one of the tags named in `ks`, and has all of them. -/
def Store.InAll (s : Store) (ks : List CStr) (n : CStr) (f : FileId) : Prop :=
  (∃ k ∈ ks, ∃ t, s.tags.get? k = some t ∧ s.Linked k t n f) ∧ ∀ k ∈ ks, ∃ t, s.Tagged f k t

/-- One of these files has a tag that has been freed. -/
def Store.Freed (s : Store) (ks : List CStr) : Prop :=
  ∃ n f, s.InAll ks n f ∧ ∃ k t, s.Tagged f k t ∧ ¬ ∃ u, s.Valued t u

/-- One of these files has another tag `u`. -/
def Store.Remains (s : Store) (ks : List CStr) (u : CStr) : Prop :=
  u ∉ ks ∧ ∃ n f, s.InAll ks n f ∧ ∃ k t, s.Tagged f k t ∧ s.Valued t u

theorem Store.Registered.chosen_iff (h : s.Registered sel) :
    s.Chosen sel n f ↔ s.InAll sel.keys n f := by
  unfold Store.Chosen Store.InAll Table.keys
  rw [List.forall_mem_map]
  refine and_congr_left fun _ => ⟨?_, ?_⟩
  · rintro ⟨e, he, hl⟩
    exact ⟨e.1, List.mem_map_of_mem he, e.2, h e he, hl⟩
  · rintro ⟨k, hk, t, ht, hl⟩
    obtain ⟨e, he, rfl⟩ := List.mem_map.mp hk
    cases (h e he).symm.trans ht
    exact ⟨e, he, hl⟩

theorem sat_remains (h : s.Typed) (hsel : s.Registered sel) :
    Sat (fun x => x = .freedTag ∧ s.Freed sel.keys) (readdirListTagsMode2 s sel) fun out =>
      ¬ s.Freed sel.keys ∧ out.Nodup ∧ ∀ u, u ∈ out ↔ s.Remains sel.keys u := by
  apply (sat_chosen h (hsel.allLive h)).bind
  rintro R ⟨hu, hR⟩
  have hentry (n : CStr) (f : FileId) : (n, f) ∈ R.entries ↔ s.InAll sel.keys n f := by
    rw [← hu.get?_eq_some, hR, hsel.chosen_iff]
  have hrecord : ∀ e ∈ R.entries, s.files.get? e.1 = some e.2 := by
    intro e he
    obtain ⟨⟨k, -, t, -, T, hT, -, hf⟩, -⟩ := (hentry e.1 e.2).mp he
    exact h.tagFilesEntry hT hf
  have hstale : s.Stale R ↔ s.Freed sel.keys := by
    simp only [Store.Stale, Store.Freed, Prod.exists, hentry]
  refine ((sat_remaining h hrecord).weaken fun x hx => ⟨hx.1, hstale.mp hx.2⟩).mono fun out hout =>
    ⟨mt hstale.mpr hout.1, hout.2.1, fun u => ?_⟩
  rw [hout.2.2]
  simp only [Store.Remains, Prod.exists, hentry]

section Congruence

variable (hks : ∀ k, k ∈ ks ↔ k ∈ ks')
include hks

theorem Store.inAll_congr : s.InAll ks n f ↔ s.InAll ks' n f := by
  simp only [Store.InAll, hks]

theorem Store.freed_congr : s.Freed ks ↔ s.Freed ks' := by
  simp only [Store.Freed, Store.inAll_congr hks]

theorem Store.remains_congr : s.Remains ks u ↔ s.Remains ks' u := by
  simp only [Store.Remains, Store.inAll_congr hks, hks]

theorem showsEntry_congr {d : Dirent} : ShowsEntry env s ks d ↔ ShowsEntry env s ks' d := by
  simp only [ShowsEntry, hks]

end Congruence

namespace Made

variable (h : Made s ks sel s') (hks : ∀ k ∈ ks, ∃ t, s.tags.get? k = some t)
include h hks

theorem back (hT : s'.tagHeap.get? t = some T) :
    ∃ T₀, s.tagHeap.get? t = some T₀ ∧ T₀.value = T.value := by
  cases hold : s.tagHeap.get? t with
  | some T₀ =>
    rw [h.old hold] at hT
    cases hT
    exact ⟨T₀, rfl, rfl⟩
  | none =>
    obtain ⟨-, -, -, -, hno, hk⟩ := h.new hT hold
    rcases h.only hk with hk | ⟨hk, -⟩
    · rw [hno] at hk
      cases hk
    · obtain ⟨t', ht'⟩ := hks _ hk
      rw [hno] at ht'
      cases ht'

theorem valued : s'.Valued t u ↔ s.Valued t u := by
  constructor
  · rintro ⟨T, hT, rfl⟩
    exact h.back hks hT
  · rintro ⟨T, hT, rfl⟩
    exact ⟨_, h.old hT, rfl⟩

theorem inAll : s'.InAll ks n f ↔ s.InAll ks n f := by
  have hget {k : CStr} (hk : k ∈ ks) {t : TagId} : s'.tags.get? k = some t ↔ s.tags.get? k = some t := by
    obtain ⟨t', ht'⟩ := hks k hk
    rw [h.kept ht', ht']
  simp only [Store.InAll, h.linked, h.tagged]
  refine and_congr_left fun _ => exists_congr fun k => and_congr_right fun hk => ?_
  simp only [hget hk]

theorem freed : s'.Freed ks ↔ s.Freed ks := by
  simp only [Store.Freed, h.inAll hks, h.tagged, h.valued hks]

theorem remains : s'.Remains ks u ↔ s.Remains ks u := by
  simp only [Store.Remains, h.inAll hks, h.tagged, h.valued hks]

end Made

/-- `opendir` of a directory whose components are in use fails only for lack of memory. -/
theorem tagOpen_used {D : CStr} (env : Env) (m : Malloc) (flags : ℤ) (h : s.Typed)
    (hne : components D ≠ []) (hu : ∀ k ∈ components D, s.UsedName k) :
    ∃ path s₁, Made s (components D) path.selectedTags s₁ ∧
      (m.fd = none → ∃ s₂, tagOpen env s D m flags true = .ok (-ENOMEM, s₂)) ∧
      ∀ a, m.fd = some a → ∃ fd, fd.path = path ∧
        tagOpen env s D m flags true = .ok (0, { s₁ with fds := s₁.fds.add a fd }) := by
  have hmake : ∃ r, pathCreate env s D true = .ok r ∧ _ := (sat_pathCreate h D true).exists_ok
  obtain ⟨⟨path, s₁⟩, hpath, hp, hm⟩ := hmake
  dsimp only at hp hm
  rw [if_pos rfl] at hm
  obtain ⟨t, ht, T, hT, hTu⟩ := hm.usedName (hu _ (basename_mem_components hne))
  have hroot : path.virtpath ≠ [slash] := by
    intro hroot
    have hD : D = [slash] := by rw [← hroot, hp]; rfl
    exact hne (by rw [hD]; decide)
  have hname : path.filename = basename D := congrArg Path.filename hp
  have htag : fdOpenTag s₁ path true = .ok (.ok (some t)) := by
    unfold fdOpenTag
    rw [if_pos ⟨rfl, hroot⟩]
    simp [tagGet, hname, ht, Store.readTag_eq hT, hTu, bind, Except.bind]
  refine ⟨path, s₁, hm, ?_⟩
  simp only [tagOpen, hpath, fdOpen, htag, bind, Except.bind, if_true]
  refine ⟨fun hnone => ?_, fun a hsome => ?_⟩
  · rw [hnone]
    exact ⟨_, rfl⟩
  · rw [hsome]
    exact ⟨_, rfl, rfl⟩

theorem sat_tagReaddir_remains {fd : FileDescriptor} (env : Env) (a : Addr)
    (hm : Made s ks fd.path.selectedTags s') (hne : ks ≠ [])
    (hks : ∀ k ∈ ks, ∃ t, s.tags.get? k = some t) :
    Sat (fun x => x = .freedTag ∧ s.Freed ks)
      (tagReaddir env { s' with fds := s'.fds.add a fd } a) fun r => ¬ s.Freed ks ∧
        ∃ tags : List CStr, tags.Nodup ∧ (∀ u, u ∈ tags ↔ s.Remains ks u) ∧ r.1 = [dot, dotdot] ++ tags ++
          shownEntries env s ks := by
  set s₁ : Store := { s' with fds := s'.fds.add a fd }
  have ht₁ : s₁.Typed := hm.typed.setDescriptors _
  have hsel : s₁.Registered fd.path.selectedTags := fun e he => hm.entry he
  have hfd : s₁.readFd a = .ok fd := by simp [s₁, Store.readFd]
  have hsize : fd.path.selectedTags.size > 0 := by
    rw [gt_iff_lt, Table.size, List.length_pos_iff]
    intro hnil
    exact hne (by rw [← hm.keys, Table.keys, hnil]; rfl)
  -- the references that the open has taken change no relation
  have hmode : Sat (fun x => x = .freedTag ∧ s.Freed ks)
      (readdirListTagsMode2 s₁ fd.path.selectedTags) fun tags =>
        ¬ s.Freed ks ∧ tags.Nodup ∧ ∀ u, u ∈ tags ↔ s.Remains ks u := by
    have hspec := sat_remains ht₁ hsel
    rw [hm.keys] at hspec
    refine (hspec.weaken fun x hx => ⟨hx.1, (hm.freed hks).mp hx.2⟩).mono fun tags htags =>
      ⟨mt (hm.freed hks).mpr htags.1, htags.2.1, fun u => ?_⟩
    rw [htags.2.2]
    exact hm.remains hks
  have hfiles : Sat (fun x => x = .freedTag ∧ s.Freed ks) (readdirListFiles env s₁ fd.path) fun r =>
      r.1 = shownEntries env s ks := by
    refine (sat_showsEntry ht₁ (hsel.allLive ht₁)).mono fun r hr => ?_
    have hcar (n k : CStr) : s₁.Carries n k ↔ s.Carries n k := hm.carries
    rw [hr.1, hm.keys]
    exact shownEntries_congr fun d => by simp only [ShowsEntry, hcar]
  simp only [tagReaddir, hfd, ok_bind, if_pos hsize]
  refine hmode.bind fun tags htags => hfiles.bind ?_
  rintro ⟨files, s₂⟩ rfl
  exact ⟨htags.1, tags, htags.2.1, htags.2.2, rfl⟩

theorem returns_getattrIntra {p : Path} (hne : p.held ≠ []) : Returns (getattrIntra env s p) fun r =>
    (r.1 = 0 ∨ r.1 = if env.regular p.realpath = true then -ENOENT else -1) ∧
      r.2.1 = if env.regular p.realpath = true then env.stat p.realpath
        else env.stat env.realdirpath := by
  have hroot : ((statRoot env).1 = 0 ∨ (statRoot env).1 = -1) ∧
      (statRoot env).2 = env.stat env.realdirpath := by
    unfold statRoot
    cases env.stat env.realdirpath <;> simp
  have hsize : p.selectedTags.size > 0 := List.length_pos_iff.mpr hne
  unfold getattrIntra Env.regular
  cases hst : env.stat p.realpath with
  | none => simpa using hroot
  | some st =>
    dsimp only
    by_cases hdir : st.isDir = true
    · simpa [hdir] using hroot
    · -- the buffer is filled from the file whether the tags match or not
      rw [if_neg hdir, if_pos hsize]
      refine (returns_true _).bind fun b _ => ?_
      cases b <;> simp [hdir]

/-- What `getattr` returns for the file `n` of a directory with these components. -/
theorem returns_tagGetattr {D : CStr} (h : s.Typed) (hD : D.head? = some slash)
    (hne : components D ≠ []) (hn : IsName n) : Returns (tagGetattr env s (appendDir D n)) fun r =>
      r.1 = (if ShowsEntry env s (components D) ⟨n, false⟩ then 0
        else if env.regular (appendDir env.realdirpath n) = true then -ENOENT else -1) ∧
      r.2.1 = if env.regular (appendDir env.realdirpath n) = true
        then env.stat (appendDir env.realdirpath n) else env.stat env.realdirpath := by
  have hdot : D ≠ dot := by
    rintro rfl
    cases hD
  have hcomp : components (dirname (appendDir D n)) = components D := by
    rw [appendDir, components_dirname_child hn (by simp [hD]), components_ne_dot hdot]
  apply (sat_pathCreate h (appendDir D n) false).bind
  rintro ⟨path, s₁⟩ ⟨hpath, hm⟩
  simp only [Bool.false_eq_true, if_false, hcomp] at hpath hm ⊢
  have hname : path.filename = n := by
    rw [hpath]
    exact basename_child hn D
  have hreal : path.realpath = appendDir env.realdirpath n := by
    rw [hpath]
    exact congrArg (appendDir env.realdirpath) (basename_child hn D)
  have hheld : path.held ≠ [] := by
    intro hnil
    exact hne (by rw [← hm.keys, Table.keys]; exact congrArg (List.map Prod.fst) hnil)
  have hacc : Accepts env s₁ path ↔ ShowsEntry env s (components D) ⟨n, false⟩ := by
    simp only [Accepts, ShowsEntry, hreal, hname, hm.carries, ← hm.keys, Table.keys,
      List.forall_mem_map, Path.held, true_and]
  have hlook : Returns (getattrIntra env s₁ path) _ :=
    (sat_getattrIntra hm.typed fun e he => hm.typed.tagEntry (hm.entry he)).and
      (returns_getattrIntra hheld)
  apply hlook.bind
  rintro ⟨res, st, s₂⟩ ⟨⟨-, hres⟩, hchoice, hst⟩
  dsimp only at hres hchoice hst ⊢
  rw [hreal] at hchoice hst
  rw [hacc] at hres
  refine (returns_true _).bind fun s₃ _ => ⟨?_, hst⟩
  rcases hres with ⟨h0, hshown⟩ | ⟨hneg, hno⟩
  · rw [if_pos hshown, h0]
  · rw [if_neg hno]
    exact hchoice.resolve_left (by omega)

/-- In every reached store, coherent or not, two directories whose components are in use and form the
same set are the same: `opendir` has the same result, the `readdir` that follows gives the same
names up to their order, unless both stop at a freed tag, and `getattr` has the same result and
buffer for every name. -/
theorem directory_is_set {env₀ : Env} {file : Option CStr} {s₀ : Store}
    (h₀ : setRootDirectory env₀ file = .ok s₀) (h : Reaches step (fun _ _ => True) s₀ s)
    {D₁ D₂ : CStr} (hD₁ : D₁.head? = some slash) (hD₂ : D₂.head? = some slash)
    (hne : components D₁ ≠ []) (hsame : ∀ k, k ∈ components D₁ ↔ k ∈ components D₂)
    (hused : ∀ k ∈ components D₁, s.UsedName k) (env : Env) :
    (∀ m₁ m₂ flags₁ flags₂, m₁.fd.isSome = m₂.fd.isSome → ∃ res s₁ s₂,
      tagOpen env s D₁ m₁ flags₁ true = .ok (res, s₁) ∧
      tagOpen env s D₂ m₂ flags₂ true = .ok (res, s₂) ∧
      ∀ a₁ a₂ env', m₁.fd = some a₁ → m₂.fd = some a₂ →
        Agree (fun r₁ r₂ => r₁.1.Perm r₂.1) (tagReaddir env' s₁ a₁) (tagReaddir env' s₂ a₂)) ∧
    ∀ n, IsName n → ∃ res st s₁ s₂, tagGetattr env s (appendDir D₁ n) = .ok (res, st, s₁) ∧
      tagGetattr env s (appendDir D₂ n) = .ok (res, st, s₂) := by
  obtain ⟨ht, hp⟩ := positive_of_reaches h₀ h
  have hne₂ : components D₂ ≠ [] := by
    obtain ⟨k, hk⟩ := List.exists_mem_of_ne_nil _ hne
    exact List.ne_nil_of_mem ((hsame k).mp hk)
  have hused₂ : ∀ k ∈ components D₂, s.UsedName k := fun k hk => hused k ((hsame k).mpr hk)
  refine ⟨fun m₁ m₂ flags₁ flags₂ hmem => ?_, fun n hn => ?_⟩
  · obtain ⟨path₁, s₁, hm₁, hnone₁, hsome₁⟩ := tagOpen_used env m₁ flags₁ ht.toTyped hne hused
    obtain ⟨path₂, s₂, hm₂, hnone₂, hsome₂⟩ := tagOpen_used env m₂ flags₂ ht.toTyped hne₂ hused₂
    cases hfd₁ : m₁.fd with
    | none =>
      have hfd₂ : m₂.fd = none := by simpa [hfd₁] using hmem.symm
      -- both opens run out of memory
      obtain ⟨s₁', hopen₁⟩ := hnone₁ hfd₁
      obtain ⟨s₂', hopen₂⟩ := hnone₂ hfd₂
      exact ⟨_, _, _, hopen₁, hopen₂, by rintro a₁ a₂ env' ⟨⟩⟩
    | some a₁ =>
      obtain ⟨a₂, hfd₂⟩ : ∃ a₂, m₂.fd = some a₂ := by simpa [hfd₁, Option.isSome_iff_exists] using hmem.symm
      obtain ⟨fd₁, rfl, hopen₁⟩ := hsome₁ a₁ hfd₁
      obtain ⟨fd₂, rfl, hopen₂⟩ := hsome₂ a₂ hfd₂
      refine ⟨_, _, _, hopen₁, hopen₂, ?_⟩
      rintro b₁ b₂ env' ⟨⟩ hb₂
      cases hfd₂.symm.trans hb₂
      have hr₁ := sat_tagReaddir_remains env' a₁ hm₁ hne
        fun k hk => (hused k hk).imp fun _ => And.left
      have hr₂ := sat_tagReaddir_remains env' a₂ hm₂ hne₂
        fun k hk => (hused₂ k hk).imp fun _ => And.left
      rw [← Store.freed_congr hsame] at hr₂
      apply Agree.of_sat hr₁ hr₂
      rintro ⟨out₁, s₁'⟩ ⟨out₂, s₂'⟩ ⟨tags₁, hnd₁, hmem₁, rfl⟩ ⟨tags₂, hnd₂, hmem₂, rfl⟩
      -- the order depends on the order of the components, the set does not
      have htags : tags₁.Perm tags₂ := by
        refine (List.perm_ext_iff_of_nodup hnd₁ hnd₂).mpr fun u => ?_
        rw [hmem₁, hmem₂, Store.remains_congr hsame]
      rw [← shownEntries_congr fun d => showsEntry_congr hsame]
      exact (htags.append_left _).append_right _
  · have hvalue {D : CStr} (hD : D.head? = some slash) (hDne : components D ≠ []) :
        ∃ r, tagGetattr env s (appendDir D n) = .ok r ∧ _ :=
      ((sat_tagGetattr ht hp (appendDir D n)).and
        (returns_tagGetattr ht.toTyped hD hDne hn)).exists_ok
    obtain ⟨⟨res₁, st₁, s₁⟩, hr₁, -, hres₁, hst₁⟩ := hvalue hD₁ hne
    obtain ⟨⟨res₂, st₂, s₂⟩, hr₂, -, hres₂, hst₂⟩ := hvalue hD₂ hne₂
    dsimp only at hres₁ hst₁ hres₂ hst₂
    simp only [showsEntry_congr hsame] at hres₁
    obtain rfl : res₁ = res₂ := hres₁.trans hres₂.symm
    obtain rfl : st₁ = st₂ := hst₁.trans hst₂.symm
    exact ⟨res₁, st₁, s₁, s₂, hr₁, hr₂⟩

/-- The directories `/x/y` and `/y/x/y`, where `f` has both tags. -/
theorem directory_is_set_sample : ∃ s res s₁ s₂, execute step (fun _ _ => True)
    [⟨sampleEnv, .link (samplePath [] nameF) (samplePath [nameX, nameY] nameF)⟩] .init = some s ∧
    tagOpen sampleEnv s (dirPath [nameX, nameY]) ⟨1, some 2⟩ 0 true = .ok (res, s₁) ∧
    tagOpen sampleEnv s (dirPath [nameY, nameX, nameY]) ⟨1, some 2⟩ 0 true = .ok (res, s₂) ∧
    Agree (fun r₁ r₂ => r₁.1.Perm r₂.1) (tagReaddir sampleEnv s₁ 2) (tagReaddir sampleEnv s₂ 2) := by
  have hrun : (execute step (fun _ _ => True)
      [⟨sampleEnv, .link (samplePath [] nameF) (samplePath [nameX, nameY] nameF)⟩] .init).any (fun s =>
        s.UsedName nameX ∧ s.UsedName nameY) = true := by decide +kernel
  obtain ⟨s, hs, hp⟩ := (Option.any_eq_true _ _).mp hrun
  obtain ⟨hx, hy⟩ : s.UsedName nameX ∧ s.UsedName nameY := of_decide_eq_true hp
  have h₀ : setRootDirectory sampleEnv none = .ok .init := rfl
  have hcomp₁ : components (dirPath [nameX, nameY]) = [nameX, nameY] := by decide +kernel
  have hcomp₂ : components (dirPath [nameY, nameX, nameY]) = [nameY, nameX, nameY] := by decide +kernel
  have hused : ∀ k ∈ components (dirPath [nameX, nameY]), s.UsedName k := by
    rw [hcomp₁]
    simp [hx, hy]
  have hsame : ∀ k, k ∈ components (dirPath [nameX, nameY]) ↔
      k ∈ components (dirPath [nameY, nameX, nameY]) := by
    intro k
    rw [hcomp₁, hcomp₂, List.mem_cons (l := [nameX, nameY])]
    exact ⟨.inr, fun hk => hk.elim (fun hk => hk ▸ by simp) id⟩
  obtain ⟨hopen, -⟩ := directory_is_set h₀ (reaches_of_execute hs) rfl rfl
    (by rw [hcomp₁]; simp) hsame hused sampleEnv
  obtain ⟨res, s₁, s₂, hopen₁, hopen₂, hread⟩ := hopen ⟨1, some 2⟩ ⟨1, some 2⟩ 0 0 rfl
  exact ⟨s, res, s₁, s₂, hs, hopen₁, hopen₂, hread 2 2 sampleEnv rfl rfl⟩

end TagFilesystem.Fuse
