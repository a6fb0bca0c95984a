import TagFilesystem.Fuse.Getattr
import TagFilesystem.Fuse.Listing

namespace TagFilesystem.Fuse

variable {env : Env} {s s' : Store} {t : TagId} {T : Tag} {f : FileId} {F : File} {k n u q D : CStr}
  {E : Fault → Prop} {sel : HashTable TagId} {p : Path} {a : Addr} {fd : FileDescriptor}

/-- The tags that `readdir` shows in the directory. -/
def listTags (s : Store) (path : Path) : Except Fault (List CStr) :=
  if path.selectedTags.size > 0 then readdirListTagsMode2 s path.selectedTags
  else readdirListTagsMode1 s path.selectedTags

/-- The path of the entry `u` of the directory `D`. -/
def entryPath (D u : CStr) : CStr := if D = [slash] then slash :: u else appendDir D u

/-- `getattr` reports the directory that stands for a tag. -/
def ReportsDirectory (env : Env) (s : Store) (q : CStr) : Prop :=
  ∃ s', tagGetattr env s q = .ok (0, env.stat env.realdirpath, s')

/-- The listing `out` of the directory `D`, with the tags `tags`, has no name twice, and the name of
a tag is a directory. -/
structure Unambiguous (env : Env) (s : Store) (D : CStr) (tags out : List CStr) : Prop where
  nodup : out.Nodup
  directory : ∀ u ∈ tags, ReportsDirectory env s (entryPath D u)

/-- What the system promises about the target directory: it is a directory, its entries have
different names, and `.` and `..` are directories. -/
structure Env.IsTarget (env : Env) : Prop where
  root : (env.stat env.realdirpath).any Stat.isDir = true
  distinct : (env.dirents.map Dirent.name).Nodup
  named : ∀ d ∈ env.dirents, d.isDir = false → d.name ≠ dot ∧ d.name ≠ dotdot

/-- `readdir_fill_remaining_tags` shows no tag twice, whatever it is given. -/
theorem nodup_readdirFillRemainingTags {R : HashTable FileId} :
    Returns (readdirFillRemainingTags s sel R) List.Nodup := by
  unfold readdirFillRemainingTags
  refine Sat.bind (P := fun r : List CStr × HashTable TagId =>
    r.1.Nodup ∧ ∀ u ∈ r.1, u ∈ r.2.keys) ?_ fun r hr => hr.1
  refine sat_forEach_mem (fun e _ r hr => ?_) ⟨List.nodup_nil, by simp⟩
  refine sat_bind.mpr (sat_readFile (fun _ => trivial) fun F _ => ?_)
  refine sat_forEach_mem (fun e' _ r' hr' => ?_) hr
  refine sat_bind.mpr (sat_readTag (fun _ => trivial) fun T _ => ?_)
  obtain ⟨hnd, hkeys⟩ := hr'
  simp only [sat_ok, Table.contains_eq_false, Table.get?_eq_none]
  split_ifs with hnew
  · have hout : T.value ∉ r'.1 := fun hu => hnew.2 (hkeys _ hu)
    refine ⟨List.Nodup.append hnd (List.nodup_singleton _) (by simpa using hout), fun u hu => ?_⟩
    rw [Table.mem_keys_addNew]
    rcases List.mem_append.mp hu with hu | hu
    · exact .inr (hkeys u hu)
    · exact .inl (List.mem_singleton.mp hu)
  · exact ⟨hnd, hkeys⟩

theorem nodup_listTags (h : s.Typed) : Returns (listTags s p) List.Nodup := by
  unfold listTags
  split_ifs with hsize
  · exact (returns_true _).bind fun R _ => nodup_readdirFillRemainingTags
  · have hnil : p.selectedTags.entries = [] := Table.size_eq_zero.mp (by omega)
    exact (sat_readdirListTagsMode1 h hnil).mono fun out hout => hout.1

/-- `readdir_list_files` shows entries that are no directories, each once. -/
theorem sublist_readdirListFiles : Returns (readdirListFiles env s p) fun r =>
    r.1.Sublist ((env.dirents.filter fun d => d.isDir = false).map Dirent.name) := by
  refine sat_forEach_visited (fun l₀ (r : List CStr × Store) =>
    r.1.Sublist ((l₀.filter fun d => d.isDir = false).map Dirent.name)) ?_ ?_
  · rintro l₀ d l₁ ⟨out, s₁⟩ - hout
    dsimp only at hout ⊢
    split_ifs with hdir
    · simpa [List.filter_append, hdir] using hout
    apply (returns_true _).bind
    rintro ⟨res, st, s₂⟩ -
    rw [List.filter_append, List.map_append, List.filter_cons_of_pos (by simpa using hdir)]
    dsimp only
    split_ifs
    · exact hout.trans (List.sublist_append_left _ _)
    · exact hout.append (List.Sublist.refl _)
  · exact List.Sublist.refl []

theorem Env.IsTarget.nodup_files (h : env.IsTarget) {files : List CStr}
    (hfiles : files.Sublist ((env.dirents.filter fun d => d.isDir = false).map Dirent.name)) :
    files.Nodup ∧ ∀ n ∈ files, n ≠ dot ∧ n ≠ dotdot := by
  refine ⟨(h.distinct.sublist (List.filter_sublist.map _)).sublist hfiles, fun n hn => ?_⟩
  obtain ⟨d, hd, rfl⟩ := List.mem_map.mp (hfiles.subset hn)
  obtain ⟨hmem, hdir⟩ := List.mem_filter.mp hd
  exact h.named d hmem (by simpa using hdir)

theorem nodup_listing_iff {head tags files : List CStr} (hhead : head.Nodup) (htags : tags.Nodup)
    (hfiles : files.Nodup) (hdisj : ∀ n ∈ files, n ∉ head) :
    (head ++ tags ++ files).Nodup ↔ ∀ u ∈ tags, u ∉ head ∧ u ∉ files := by
  rw [List.nodup_append', List.nodup_append']
  constructor
  · rintro ⟨⟨-, -, hht⟩, -, htf⟩ u hu
    exact ⟨fun hmem => hht hmem hu, fun hmem => htf (List.mem_append_right _ hu) hmem⟩
  · intro h
    refine ⟨⟨hhead, htags, fun u hmem hu => (h u hu).1 hmem⟩, hfiles, fun n hn hmem => ?_⟩
    rcases List.mem_append.mp hn with hn | hn
    · exact hdisj n hmem hn
    · exact (h n hn).2 hmem

/-- A buffer that `getattr_intra` fills for a regular file is no directory. -/
theorem returns_getattrIntra_regular (hreg : env.regular p.realpath = true) :
    Returns (getattrIntra env s p) fun r => r.2.1.any Stat.isDir = false := by
  obtain ⟨st, hst, hdir⟩ := (Option.any_eq_true _ _).mp hreg
  have hdir' : st.isDir = false := by simpa using hdir
  unfold getattrIntra
  simp only [hst, hdir', Bool.false_eq_true, if_false]
  split_ifs
  · exact (returns_true _).bind fun b _ => by simp [hdir']
  · simp
  · simp [hdir']

theorem getattrIntra_directory (hreg : env.regular p.realpath = false) :
    getattrIntra env s p = .ok ((statRoot env).1, (statRoot env).2, s) := by
  unfold getattrIntra
  cases hst : env.stat p.realpath with
  | none => rfl
  | some st =>
    have hdir : st.isDir = true := by simpa [Env.regular, hst] using hreg
    simp only [hdir, if_true]

/-- In a reached store `getattr` reports the directory unless there is a file of that name. -/
theorem reportsDirectory_iff (h : s.Tidy) (hp : s.Positive)
    (hroot : (env.stat env.realdirpath).any Stat.isDir = true) :
    ReportsDirectory env s q ↔ env.regular (pathRealpath env q) = false := by
  obtain ⟨root, hst, hdir⟩ := (Option.any_eq_true _ _).mp hroot
  have hresult : Returns (tagGetattr env s q) fun r => if env.regular (pathRealpath env q) = true
      then r.2.1.any Stat.isDir = false else r.1 = 0 ∧ r.2.1 = some root := by
    apply (sat_pathCreate h.toTyped q false).bind
    rintro ⟨path, s₁⟩ ⟨hpath, -⟩
    have hreal : path.realpath = pathRealpath env q := congrArg Path.realpath hpath
    refine Sat.bind (P := fun r => if env.regular (pathRealpath env q) = true
      then r.2.1.any Stat.isDir = false else r.1 = 0 ∧ r.2.1 = some root) ?_ ?_
    · split_ifs with hreg
      · exact returns_getattrIntra_regular (hreal ▸ hreg)
      · rw [getattrIntra_directory (hreal ▸ Bool.eq_false_iff.mpr hreg), statRoot, hst]
        exact ⟨rfl, rfl⟩
    · exact fun r hr => (returns_true _).bind fun _ _ => hr
  obtain ⟨⟨res, st, s₁⟩, hrun, -⟩ := (@sat_tagGetattr env _ (fun _ => False) h hp q).exists_ok
  have hr := hresult.of_ok hrun
  unfold ReportsDirectory
  rw [hrun, hst]
  dsimp only at hr
  split_ifs at hr with hreg
  · rw [iff_false_right (by simpa using hreg)]
    rintro ⟨s₂, ⟨⟩⟩
    rw [Option.any_some, hdir] at hr
    cases hr
  · obtain ⟨rfl, rfl⟩ := hr
    exact iff_of_true ⟨s₁, rfl⟩ (Bool.eq_false_iff.mpr hreg)

theorem tagReaddir_eq (hfd : s.readFd a = .ok fd) : tagReaddir env s a =
    listTags s fd.path >>= fun tags => readdirListFiles env s fd.path >>= fun r =>
      .ok ([dot, dotdot] ++ tags ++ r.1, r.2) := by
  simp only [tagReaddir, hfd, ok_bind, listTags]
  split_ifs <;> rfl

/-- In every reached store and for every open descriptor, `readdir` shows `.` and `..`, then tags,
each once, then entries of the target directory that are no directories, each once. The listing
is unambiguous iff no tag has the name of something else that is shown or of a file. -/
theorem readdir_unambiguous_iff {env₀ : Env} {file : Option CStr} {s₀ : Store}
    (h₀ : setRootDirectory env₀ file = .ok s₀) (h : Reaches step (fun _ _ => True) s₀ s)
    (hfd : s.readFd a = .ok fd) (henv : env.IsTarget) {out : List CStr}
    (hread : tagReaddir env s a = .ok (out, s')) :
    ∃ tags files, listTags s fd.path = .ok tags ∧ out = [dot, dotdot] ++ tags ++ files ∧
      files.Sublist ((env.dirents.filter fun d => d.isDir = false).map Dirent.name) ∧
      (Unambiguous env s' fd.path.virtpath tags out ↔ ∀ u ∈ tags, u ∉ [dot, dotdot] ∧ u ∉ files ∧
        env.regular (pathRealpath env (entryPath fd.path.virtpath u)) = false) := by
  have hst := positive_of_reaches h₀ h
  have hstep : step s ⟨env, .readdir a⟩ = .ok s' := map_eq_ok.mpr ⟨_, hread, rfl⟩
  obtain ⟨ht', hp'⟩ := positive_of_reaches h₀ (h.tail trivial hstep)
  have hparts : Returns (tagReaddir env s a) fun r => ∃ tags files, listTags s fd.path = .ok tags ∧
      tags.Nodup ∧ r.1 = [dot, dotdot] ++ tags ++ files ∧
      files.Sublist ((env.dirents.filter fun d => d.isDir = false).map Dirent.name) := by
    rw [tagReaddir_eq hfd]
    refine Sat.bind_eq (nodup_listTags hst.1.toTyped) fun tags htags hnd => ?_
    refine sublist_readdirListFiles.bind fun r hr => ?_
    exact ⟨tags, r.1, htags, hnd, rfl, hr⟩
  obtain ⟨tags, files, htags, hnd, rfl, hfiles⟩ := hparts.of_ok hread
  obtain ⟨hfnd, hdots⟩ := henv.nodup_files hfiles
  have hout : ([dot, dotdot] ++ tags ++ files).Nodup ↔ ∀ u ∈ tags, u ∉ [dot, dotdot] ∧ u ∉ files := by
    refine nodup_listing_iff (by decide) hnd hfnd fun n hn hmem => ?_
    simp only [List.mem_cons, List.not_mem_nil, or_false] at hmem
    exact hmem.elim (hdots n hn).1 (hdots n hn).2
  refine ⟨tags, files, htags, rfl, hfiles, fun hu u hmem => ?_, fun hall => ⟨?_, fun u hmem => ?_⟩⟩
  · obtain ⟨hhead, hfile⟩ := hout.mp hu.nodup u hmem
    exact ⟨hhead, hfile, (reportsDirectory_iff ht' hp' henv.root).mp (hu.directory u hmem)⟩
  · exact hout.mpr fun u hmem => ⟨(hall u hmem).1, (hall u hmem).2.1⟩
  · exact (reportsDirectory_iff ht' hp' henv.root).mpr (hall u hmem).2.2

/-- A database in which `f` has the tag `x`. -/
def plainDatabase : CStr := cstr [91, 102, 93, 10, 120, 10]

/-- A database in which `f` has the tag `g`, which is also the name of a file. -/
def clashingDatabase : CStr := cstr [91, 102, 93, 10, 103, 10]

theorem isTarget_sample : sampleEnv.IsTarget := ⟨by decide, by decide, by decide⟩

/-- The root, opened after the start from a database and read: the tags, and the whole listing. -/
def rootListing (file : CStr) (p : Store → Store → FileDescriptor → List CStr → List CStr → Store → Bool) :
    Bool :=
  returnsWith (setRootDirectory sampleEnv (some file)) fun s₀ =>
    returnsWith (step s₀ ⟨sampleEnv, .opendir [slash] 0 ⟨1, some 2⟩⟩) fun s =>
      returnsWith (s.readFd 2) fun fd => returnsWith (listTags s fd.path) fun tags =>
        returnsWith (tagReaddir sampleEnv s 2) fun r => p s₀ s fd tags r.1 r.2

theorem rootListing_iff {file : CStr}
    {p : Store → Store → FileDescriptor → List CStr → List CStr → Store → Bool} :
    rootListing file p = true ↔ ∃ s₀, setRootDirectory sampleEnv (some file) = .ok s₀ ∧
      ∃ s, step s₀ ⟨sampleEnv, .opendir [slash] 0 ⟨1, some 2⟩⟩ = .ok s ∧
      ∃ fd, s.readFd 2 = .ok fd ∧ ∃ tags, listTags s fd.path = .ok tags ∧
      ∃ r, tagReaddir sampleEnv s 2 = .ok r ∧ p s₀ s fd tags r.1 r.2 = true := by
  simp only [rootListing, returnsWith_iff]

/-- The root shows the tag `x` and the files `f` and `g`. -/
theorem readdir_unambiguous_sample : ∃ s s' fd tags out, s.readFd 2 = .ok fd ∧
    tagReaddir sampleEnv s 2 = .ok (out, s') ∧ listTags s fd.path = .ok tags ∧ nameX ∈ tags ∧
    Unambiguous sampleEnv s' fd.path.virtpath tags out := by
  have hrun : rootListing plainDatabase (fun _ _ fd tags out _ => fd.path.virtpath = [slash] ∧
      tags = [nameX] ∧ out = [dot, dotdot, nameX, nameF, nameG]) = true := by decide +kernel
  obtain ⟨s₀, h₀, s, hs, fd, hfd, tags, htags, ⟨out, s'⟩, hread, hp⟩ := rootListing_iff.mp hrun
  obtain ⟨hvirt, rfl, rfl⟩ := of_decide_eq_true hp
  obtain ⟨tags', files, htags', hout, -, hiff⟩ :=
    readdir_unambiguous_iff h₀ ((Reaches.refl s₀).tail trivial hs) hfd isTarget_sample hread
  obtain rfl : [nameX] = tags' := Except.ok.inj (htags.symm.trans htags')
  obtain rfl : [nameF, nameG] = files := by simpa using hout
  refine ⟨s, s', fd, _, _, hfd, hread, htags, List.mem_cons_self, hiff.mpr ?_⟩
  rw [hvirt]
  decide

/-- The name `g` is shown twice, for a tag and for a file. -/
theorem tag_clashes_with_file : ¬ ∀ env₀ file s₀ s env a fd tags out s',
    setRootDirectory env₀ file = .ok s₀ → Reaches step (fun _ _ => True) s₀ s →
    s.readFd a = .ok fd → env.IsTarget → listTags s fd.path = .ok tags →
    tagReaddir env s a = .ok (out, s') → Unambiguous env s' fd.path.virtpath tags out := by
  intro h
  have hrun : rootListing clashingDatabase (fun _ _ _ _ out _ => ¬ out.Nodup) = true := by
    decide +kernel
  obtain ⟨s₀, h₀, s, hs, fd, hfd, tags, htags, ⟨out, s'⟩, hread, hp⟩ := rootListing_iff.mp hrun
  have hu := h sampleEnv (some clashingDatabase) s₀ s sampleEnv 2 fd tags out s' h₀
    ((Reaches.refl s₀).tail trivial hs) hfd isTarget_sample htags hread
  exact (of_decide_eq_true hp) hu.nodup

end TagFilesystem.Fuse
