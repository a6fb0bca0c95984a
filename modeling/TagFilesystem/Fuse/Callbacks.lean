import TagFilesystem.Fuse.Discipline
import TagFilesystem.Library.Run

namespace TagFilesystem.Fuse

/-- The tags that `tag_unlink` is going to take from the file are ready for it. -/
def Discipline.UnlinkReady (D : Discipline) (env : Env) (s : Store) (userPath : CStr) : Prop :=
  1 < getCharacterCount userPath slash → ∀ path s₁,
    pathCreate env s userPath false = .ok (path, s₁) →
    (s₁.files.get? path.filename).isSome → ∀ e ∈ path.held, D.ready s₁ e.2

/-- The tag that `tag_rename` is going to take from the file is ready for it, once the file has
been linked. -/
def Discipline.RenameReady (D : Discipline) (env : Env) (s : Store) (src dst : CStr) : Prop :=
  ∀ ffrom s₁ fto s₂ r, pathCreate env s src false = .ok (ffrom, s₁) →
    pathCreate env s₁ dst false = .ok (fto, s₂) → ffrom.selectedTags.size = 1 →
    fto.selectedTags.size = 1 → pathLink env s₂ ffrom fto = .ok r →
    (r.2.files.get? ffrom.filename).isSome → ∀ e ∈ ffrom.held, D.ready r.2 e.2

/-- What a callback has to meet to keep the discipline. -/
def Discipline.Permits (D : Discipline) (s : Store) (e : Event) : Prop :=
  match e.callback with
  | .release a => ∀ fd, s.fds.get? a = some fd → ∀ t ∈ fd.path.held, D.closable s t.2
  | .unlink p => D.UnlinkReady e.env s p
  | .rename p q => D.RenameReady e.env s p q
  | _ => True

theorem Discipline.permits_of_forall {D : Discipline} {s : Store} {e : Event}
    (hready : ∀ s t, D.ready s t) (hclosable : ∀ s t, D.closable s t) : D.Permits s e := by
  obtain ⟨env, c⟩ := e
  cases c with
  | release a => exact fun _ _ t _ => hclosable s t.2
  | unlink p => exact fun _ _ _ _ _ e _ => hready _ e.2
  | rename p q => exact fun _ _ _ _ _ _ _ _ _ _ _ e _ => hready _ e.2
  | _ => trivial

section Held

variable {s : Store} {a : Addr} {fd : FileDescriptor}

theorem held_of_get? {a : Addr} {fd : FileDescriptor} (ha : s.fds.get? a = some fd) :
    ∀ e ∈ fd.path.held, e ∈ s.held := by
  intro e he
  refine List.mem_flatMap.mpr ⟨fd.path, ?_, he⟩
  exact List.mem_append_left _ (List.mem_map.mpr ⟨(a, fd), Table.mem_of_get? ha, rfl⟩)

theorem held_add (a : Addr) (fd : FileDescriptor) :
    (Store.held { s with fds := s.fds.add a fd }).Perm (fd.path.held ++ s.held) := by
  simp only [Store.held, Store.livePaths, Table.entries_add, List.map_append, List.map_cons,
    List.map_nil, List.append_assoc, List.flatMap_append, List.flatMap_cons, List.singleton_append]
  exact List.perm_append_comm_assoc _ _ _

theorem held_leak (a : Addr) (path : Path) :
    (Store.held { s with leaked := s.leaked.add a path }).Perm (path.held ++ s.held) := by
  simp only [Store.held, Store.livePaths, Table.entries_add, List.map_append, List.map_cons,
    List.map_nil, List.flatMap_append, List.flatMap_cons, List.flatMap_nil, List.append_nil]
  rw [← List.append_assoc]
  exact List.perm_append_comm

theorem held_erase {a : Addr} {fd : FileDescriptor} (ha : s.fds.get? a = some fd) :
    s.held.Perm (fd.path.held ++ (s.without (some a)).held) := by
  have hp := (Table.perm_erase ha).map fun e => e.2.path
  simp only [Store.held, Store.livePaths, Store.without, List.flatMap_append]
  rw [← List.append_assoc]
  exact (hp.flatMap_right Path.held).append_right _

theorem held_modify (a : Addr) (ph : Option PollHandle) :
    Store.held { s with fds := s.fds.modify a fun fd => { fd with ph := ph } } = s.held := by
  have hm := Table.map_modify (t := s.fds) (k := a) (g := FileDescriptor.path)
    (f := fun fd => { fd with ph := ph }) fun _ => rfl
  simp only [Store.held, Store.livePaths, hm]

end Held

namespace Discipline.Sound

variable {E : Fault → Prop} {D : Discipline} (S : D.Sound E) {P R : Held} {x : Option Addr}
  {env : Env} {s : Store}
include S

theorem deletePath {path : Path} (h : D.opening [] (path.held ++ R) s) :
    Sat E (Fuse.pathDelete env s path) (D.closing [] R none) :=
  (S.pathDelete (S.close h (by simp))).mono fun _ h' => h'.2

theorem deleteLast {path : Path} (h : D.closing [] path.held none s) :
    Sat E (Fuse.pathDelete env s path) fun s' => s'.held = s.held ∧ D.opening [] [] s' :=
  (S.pathDelete (by simpa using h)).mono fun _ h' => ⟨h'.1, S.reopen (x := none) h'.2⟩

theorem tagGetattr (h : D.opening [] [] s) (userPath : CStr) :
    Sat E (Fuse.tagGetattr env s userPath) fun r =>
      r.2.2.held = s.held ∧ D.opening [] [] r.2.2 := by
  refine (S.pathCreate' h userPath false).bind fun r hr => ?_
  refine (S.getattrIntra (p := r.1) hr.2 (by simp +contextual)).bind fun q hq => ?_
  exact (S.deleteLast (S.close hq.2 (by simp))).bind fun s' hs' =>
    ⟨hs'.1.trans (hq.1.trans hr.1), hs'.2⟩

theorem tagFgetattr (h : D.opening [] [] s) (a : Addr) :
    Sat E (Fuse.tagFgetattr env s a) fun r => D.opening [] [] r.2.2 := by
  refine sat_bind.mpr (sat_readFd (S.fault (by simp)) fun fd hfd => ?_)
  exact (S.getattrIntra h fun e he => by simpa using held_of_get? hfd e he).mono fun r hr => hr.2

theorem tagGetxattr (h : D.opening [] [] s) (userPath name : CStr) (size : ℕ) :
    Sat E (Fuse.tagGetxattr env s userPath name size) fun r => D.opening [] [] r.2.2 := by
  unfold Fuse.tagGetxattr
  split_ifs
  · refine (S.pathCreate' h userPath false).bind fun r hr => ?_
    refine (S.getattrIntra (p := r.1) hr.2 (by simp +contextual)).bind fun q hq => ?_
    have hdel : Sat E (Fuse.pathDelete env q.2.2 r.1) fun s' =>
        s'.held = q.2.2.held ∧ D.opening [] [] s' := S.deleteLast (S.close hq.2 (by simp))
    dsimp only
    split_ifs
    · exact hdel.bind fun s' hs' => hs'.2
    · exact hdel.bind fun s' hs' => hs'.2
    · obtain ⟨-, -, ho⟩ := S.fileGetOrCreate hq.2 r.1.filename
      refine (S.fileGetTagsString ho).bind fun str _ => ?_
      exact (S.deleteLast (S.close ho (by simp))).bind fun s' hs' => hs'.2
  · exact h
  · exact h

theorem tagLink (h : D.opening [] [] s) (src dst : CStr) :
    Sat E (Fuse.tagLink env s src dst) fun r => D.opening [] [] r.2 := by
  refine (S.pathCreate' h src false).bind fun r hr => ?_
  obtain ⟨ffrom, s₁⟩ := r
  refine (S.pathCreate' hr.2 dst false).bind fun r₂ hr₂ => ?_
  obtain ⟨fto, s₂⟩ := r₂
  refine (S.tagMkdir hr₂.2 fto.virtdirpath).bind fun r₃ hr₃ => ?_
  refine (S.pathLink ffrom fto hr₃ (by simp +contextual) (by simp +contextual)).bind
    fun r₄ hr₄ => ?_
  refine (S.deletePath (by simpa using hr₄)).bind fun s₅ hs₅ => ?_
  exact (S.deleteLast hs₅).bind fun s' hs' => hs'.2

theorem tagUnlink (h : D.opening [] [] s) {userPath : CStr}
    (hready : D.UnlinkReady env s userPath) :
    Sat E (Fuse.tagUnlink env s userPath) fun r => D.opening [] [] r.2 := by
  unfold Fuse.tagUnlink
  split_ifs with hc
  · exact h
  refine (S.pathCreate h userPath false).bind_eq fun r hr ho => ?_
  obtain ⟨path, s₁⟩ := r
  refine (S.pathUnlink ho (hready (by omega) path s₁ hr)).bind fun r₂ hr₂ => ?_
  exact (S.deleteLast (by simpa using hr₂)).bind fun s' hs' => hs'.2

theorem tagRename (h : D.opening [] [] s) {src dst : CStr}
    (hready : D.RenameReady env s src dst) :
    Sat E (Fuse.tagRename env s src dst) fun r => D.opening [] [] r.2 := by
  refine (S.pathCreate h src false).bind_eq fun r hr ho => ?_
  obtain ⟨ffrom, s₁⟩ := r
  refine (S.pathCreate' ho dst false).bind_eq fun r₂ hr₂ ho₂ => ?_
  obtain ⟨fto, s₂⟩ := r₂
  have hdel {s₃ : Store} {res : ℤ} (hc : D.closing [] (ffrom.held ++ fto.held) none s₃) :
      Sat E (do
        let s₄ ← Fuse.pathDelete env s₃ ffrom
        let s₅ ← Fuse.pathDelete env s₄ fto
        .ok (res, s₅)) fun r => D.opening [] [] r.2 := by
    refine (S.pathDelete hc).bind fun s₄ hs₄ => ?_
    exact (S.deleteLast hs₄.2).bind fun s' hs' => hs'.2
  dsimp only at ho₂ ⊢
  split_ifs with hsize
  · exact hdel (S.close (S.spareAll (by simpa using ho₂.2)) (by simp))
  · rw [not_or, not_not, not_not] at hsize
    refine (S.pathLink ffrom fto ho₂.2 (by simp +contextual) (by simp +contextual)).bind_eq
      fun r₃ hr₃ ho₃ => ?_
    have hu : Sat E (Fuse.pathUnlink env r₃.2 ffrom) _ := S.pathUnlink (by simpa using ho₃)
      (hready ffrom s₁ fto s₂ r₃ hr hr₂ hsize.1 hsize.2 hr₃)
    exact hu.bind fun r₄ hr₄ => hdel (by simpa using hr₄)

theorem fdOpenTag (h : D.opening P R s) (path : Path) (isTag : Bool) :
    Sat E (Fuse.fdOpenTag s path isTag) fun _ => True := by
  unfold Fuse.fdOpenTag
  split_ifs
  · cases hk : tagGet s path.filename with
    | none => trivial
    | some t =>
      refine sat_bind.mpr (sat_readTag (fun hd => ?_) fun T _ => trivial)
      obtain ⟨T, hT, -⟩ := (S.tidy h).tagEntry hk
      rw [hT] at hd
      cases hd
  · trivial

theorem fileAddDescriptor (h : D.opening P R s) (f : Option FileId) (a : Addr) :
    Sat E (Fuse.fileAddDescriptor s f a) (D.opening P R) := by
  cases f with
  | none => exact S.fault (by simp)
  | some f =>
    refine sat_bind.mpr (sat_readFile (fun _ => S.fault (by simp)) fun F hF => ?_)
    exact S.touchFile h hF rfl rfl

theorem fdOpen {path : Path} (h : D.opening [] path.held s) (m : Malloc) (flags : ℤ)
    (isTag : Bool) : Sat E (Fuse.fdOpen env s path m flags isTag) fun r =>
      (∃ e, r.1 = .error e) ∧ r.2 = s ∨ (∃ a, r.1 = .ok a) ∧ D.opening [] [] r.2 := by
  unfold Fuse.fdOpen
  cases (if isTag = true then .ok (-1) else env.openFile path.realpath flags) with
  | error e => exact .inl ⟨⟨_, rfl⟩, rfl⟩
  | ok fh =>
    refine (S.fdOpenTag h path isTag).bind fun tag _ => ?_
    cases tag with
    | error e => exact .inl ⟨⟨_, rfl⟩, rfl⟩
    | ok tag =>
      cases m.fd with
      | none => exact .inl ⟨⟨_, rfl⟩, rfl⟩
      | some a =>
        dsimp only
        split_ifs
        · exact .inr ⟨⟨_, rfl⟩, S.store h (held_add a _)⟩
        · refine (S.fileAddDescriptor h _ a).bind fun s' hs' => ?_
          exact .inr ⟨⟨_, rfl⟩, S.store hs' (held_add a _)⟩

theorem tagOpen (h : D.opening [] [] s) (userPath : CStr) (m : Malloc) (flags : ℤ)
    (isTag : Bool) :
    Sat E (Fuse.tagOpen env s userPath m flags isTag) fun r => D.opening [] [] r.2 := by
  refine (S.pathCreate' h userPath isTag).bind fun r hr => ?_
  obtain ⟨path, s₁⟩ := r
  refine (S.fdOpen hr.2 m flags isTag).bind fun r₂ hr₂ => ?_
  obtain ⟨fd, s₂⟩ := r₂
  rcases hr₂ with ⟨⟨e, rfl⟩, rfl⟩ | ⟨⟨a, rfl⟩, ho⟩
  · exact S.store hr.2 (held_leak m.path path)
  · exact ho

theorem tagReleaseGeneric (h : D.opening [] [] s) {a : Addr}
    (hclosable : ∀ fd, s.fds.get? a = some fd → ∀ e ∈ fd.path.held, D.closable s e.2) :
    Sat E (Fuse.tagReleaseGeneric env s a) fun r => D.opening [] [] r.2 := by
  refine sat_bind.mpr (sat_readFd (S.fault (by simp)) fun fd hfd => ?_)
  have hc : D.closing [] (fd.path.held ++ []) (some a) s := by
    rw [List.append_nil]
    exact S.fetch h hfd (hclosable fd hfd)
  refine (S.pathDelete hc).bind fun s₁ hs₁ => ?_
  dsimp only
  split_ifs
  · exact S.reopen hs₁.2
  · refine Sat.bind (P := D.closing [] [] (some a)) ?_ fun s' hs' => S.reopen hs'
    cases hf : fd.file with
    | none => exact S.fault (by simp)
    | some f =>
      refine sat_bind.mpr (sat_readFile (fun _ => S.fault (by simp)) fun F hF => ?_)
      exact S.closing_touchFile hs₁.2 hF rfl rfl

theorem tagReaddir (h : D.opening [] [] s) (a : Addr) :
    Sat E (Fuse.tagReaddir env s a) fun r => D.opening [] [] r.2 := by
  refine sat_bind.mpr (sat_readFd (S.fault (by simp)) fun fd hfd => ?_)
  have hheld : ∀ e ∈ fd.path.held, e ∈ [] ++ [] ++ s.held := by simpa using held_of_get? hfd
  have hfiles : Sat E (Fuse.readdirListFiles env s fd.path) _ := S.readdirListFiles h hheld
  dsimp only
  split_ifs
  · refine (S.readdirListTagsMode2 h hheld).bind fun tags _ => ?_
    exact hfiles.bind fun r hr => hr
  · refine (S.readdirListTagsMode1 h fd.path.selectedTags).bind fun tags _ => ?_
    exact hfiles.bind fun r hr => hr

theorem tagRead (h : D.opening [] [] s) (a : Addr) (len : ℕ) (off : ℤ) :
    Sat E (Fuse.tagRead env s a len off) fun _ => True := by
  refine sat_bind.mpr (sat_readFd (S.fault (by simp)) fun fd hfd => ?_)
  split_ifs
  · refine (S.tagDbDump h).bind fun text _ => ?_
    split_ifs <;> trivial
  · trivial

theorem tagIoctl (h : D.opening [] [] s) (a : Addr) (readTags compat : Bool) :
    Sat E (Fuse.tagIoctl s a readTags compat) fun _ => True := by
  refine sat_bind.mpr (sat_readFd (S.fault (by simp)) fun fd hfd => ?_)
  split_ifs
  · trivial
  · trivial
  · unfold ioctlReadTags
    cases fileGet s fd.path.filename with
    | none => trivial
    | some f => exact (S.fileGetTagsString h).bind fun _ _ => trivial
  · trivial

theorem tagPoll (h : D.opening [] [] s) (a : Addr) (ph : Option PollHandle) :
    Sat E (Fuse.tagPoll s a ph) fun r => D.opening [] [] r.2 := by
  refine sat_bind.mpr (sat_readFd (S.fault (by simp)) fun fd hfd => ?_)
  cases fd.file with
  | none => exact S.fault (by simp)
  | some f =>
    refine sat_bind.mpr (sat_readFile (fun _ => S.fault (by simp)) fun F hF => ?_)
    have hs : D.opening [] [] { s with fds := s.fds.modify a fun fd => { fd with ph := ph } } :=
      S.store h (by rw [held_modify]; exact List.Perm.refl _)
    exact S.touchFile (F := F) hs hF rfl rfl

theorem step (h : D.opening [] [] s) {e : Event} (hp : D.Permits s e) :
    Sat E (Fuse.step s e) (D.opening [] []) := by
  obtain ⟨env, c⟩ := e
  cases c with
  | getattr p => exact sat_map.mpr ((S.tagGetattr h p).mono fun _ h' => h'.2)
  | fgetattr a => exact sat_map.mpr (S.tagFgetattr h a)
  | getxattr p name size => exact sat_map.mpr (S.tagGetxattr h p name size)
  | openFile p flags m | opendir p flags m =>
    simp only [Fuse.step, openChecked]
    split_ifs
    · exact sat_map.mpr (S.tagOpen h p m flags _)
    · exact S.fault (by simp)
  | release a => exact sat_map.mpr (S.tagReleaseGeneric h hp)
  | readdir a => exact sat_map.mpr (S.tagReaddir h a)
  | read a len off => exact sat_map.mpr ((S.tagRead h a len off).mono fun _ _ => h)
  | write a buffer off =>
    refine sat_map.mpr (sat_bind.mpr (sat_readFd (S.fault (by simp)) fun fd _ => ?_))
    exact h
  | link p q => exact sat_map.mpr (S.tagLink h p q)
  | unlink p => exact sat_map.mpr (S.tagUnlink h hp)
  | rename p q => exact sat_map.mpr (S.tagRename h hp)
  | ioctl a readTags compat =>
    exact sat_map.mpr ((S.tagIoctl h a readTags compat).mono fun _ _ => h)
  | poll a ph => exact sat_map.mpr (S.tagPoll h a ph)
  | setxattr _ | rmdir _ | mkdir _ | mknod _ _ _ | truncate _ _ | chmod _ _ | chown _ _ _ | utime _ =>
    exact h

theorem parseTag {F : Fault → Prop} {f : Option FileId} {word : CStr} (h : D.opening [] [] s)
    (hnil : s.held = []) (hf : ∀ f', f = some f' → ∃ n, s.files.get? n = some f') :
    Sat F (Fuse.parseTag env s f word) fun s' =>
      s'.held = [] ∧ s'.files = s.files ∧ D.opening [] [] s' := by
  unfold Fuse.parseTag
  dsimp only
  split_ifs
  · exact ⟨hnil, rfl, h⟩
  set k := copyWordUntil word newline
  -- the tag is registered, whether it was before or not
  refine Sat.bind (P := fun r => r.2.held = [] ∧ r.2.files = s.files ∧
    r.2.tags.get? k = some r.1 ∧ D.opening [] [] r.2) ?_ fun r hr => ?_
  · cases hk : s.tags.get? k with
    | some t =>
      obtain ⟨T, hT, -⟩ := (S.tidy h).tagEntry hk
      rw [tagGetOrCreate_some hk hT]
      exact ⟨hnil, rfl, hk, S.reference h hnil hk hT⟩
    | none =>
      rw [tagGetOrCreate_none hk]
      exact ⟨hnil, rfl, Table.get?_add_self, S.createUsed h hk⟩
  · obtain ⟨t, s₁⟩ := r
    obtain ⟨hnil₁, hfiles, hk, ho⟩ := hr
    cases f with
    | none => exact ⟨hnil₁, hfiles, ho⟩
    | some f =>
      obtain ⟨n, hn⟩ := hf f rfl
      have hn₁ : s₁.files.get? n = some f := by rw [hfiles, hn]
      obtain ⟨T, hT, -⟩ := (S.tidy ho).tagEntry hk
      obtain ⟨F, hF, hv⟩ := (S.tidy ho).fileEntry hn₁
      dsimp only
      rw [tagFile_eq hT hF]
      exact ⟨hnil₁, hfiles, S.attachParsed ho hnil₁ hk hT hF (hv ▸ hn₁)⟩

section Startup

-- faults of the start-up are faults of the `tag_getattr` of its headers
variable {F : Fault → Prop}
  (hgetattr : ∀ {s p}, D.opening [] [] s → Sat F (Fuse.tagGetattr env s p) fun _ => True)
include hgetattr

theorem parseFile {word : CStr} (h : D.opening [] [] s) (hnil : s.held = []) :
    Sat F (Fuse.parseFile (fun s p => (fun r => (r.1, r.2.2)) <$> Fuse.tagGetattr env s p) s word)
      fun r => r.2.held = [] ∧ D.opening [] [] r.2 ∧
        ∀ f, r.1 = some f → ∃ n, r.2.files.get? n = some f := by
  have hget := (hgetattr h).and
    ((S.tagGetattr h (copyWordUntil word closeBracket)).weaken fun _ _ => trivial)
  refine Sat.bind (P := fun r => r.2.held = [] ∧ D.opening [] [] r.2)
    (sat_map.mpr (hget.mono fun r hr => ⟨hr.2.1.trans hnil, hr.2.2⟩)) fun r hr => ?_
  obtain ⟨hg, hh, ho⟩ := S.fileGetOrCreate hr.2 (copyWordUntil word closeBracket)
  dsimp only
  split_ifs
  · refine ⟨hh.trans hr.1, ho, ?_⟩
    rintro f ⟨⟩
    exact ⟨_, hg⟩
  · exact ⟨hr.1, hr.2, by simp⟩

theorem setRootDirectory_of_getattr (file : Option CStr) :
    Sat F (Fuse.setRootDirectory env file) fun s => s.held = [] ∧ D.opening [] [] s := by
  cases file with
  | none => exact ⟨rfl, S.init⟩
  | some text =>
    refine (sat_forEach_mem (I := fun r : Option FileId × Store => r.2.held = [] ∧
      D.opening [] [] r.2 ∧ ∀ f, r.1 = some f → ∃ n, r.2.files.get? n = some f) ?_
      ⟨rfl, S.init, by simp⟩).bind fun r hr => ⟨hr.1, hr.2.1⟩
    rintro word - ⟨f, s⟩ ⟨hnil, ho, hf⟩
    have htag (w : CStr) : Sat F (do let s ← Fuse.parseTag env s f w; .ok (f, s)) fun r =>
        r.2.held = [] ∧ D.opening [] [] r.2 ∧ ∀ f, r.1 = some f → ∃ n, r.2.files.get? n = some f := by
      refine (S.parseTag ho hnil hf).bind fun s' hs' => ⟨hs'.1, hs'.2.2, ?_⟩
      rw [hs'.2.1]
      exact hf
    unfold parseLine
    split_ifs
    · exact ⟨hnil, ho, hf⟩
    · cases word.dropWhile isspace with
      | nil => exact htag []
      | cons c rest =>
        dsimp only
        split_ifs
        · exact S.parseFile hgetattr ho hnil
        · exact htag (c :: rest)

end Startup

theorem setRootDirectory (file : Option CStr) :
    Sat E (Fuse.setRootDirectory env file) fun s => s.held = [] ∧ D.opening [] [] s :=
  S.setRootDirectory_of_getattr (fun h => (S.tagGetattr h _).mono fun _ _ => trivial) file

/-- In a run that starts from the database, each event meeting what the discipline asks for,
every reached store is in its invariant. -/
theorem reaches {file : Option CStr} {s₀ : Store} (h₀ : Fuse.setRootDirectory env file = .ok s₀)
    (h : Reaches Fuse.step D.Permits s₀ s) : D.opening [] [] s :=
  h.invariant ((S.setRootDirectory file).of_ok h₀).2 fun _ _ _ hI hp he => (S.step hI hp).of_ok he

end Discipline.Sound

end TagFilesystem.Fuse
