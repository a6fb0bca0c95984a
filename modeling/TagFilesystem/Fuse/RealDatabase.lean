import TagFilesystem.Fuse.Frames
import TagFilesystem.Library.Disk

namespace TagFilesystem.Fuse

variable {env : Env} {s s' : Store} {a : Addr} {p root : CStr} {fd : FileDescriptor}

def O_CREAT : ℤ := 64
def O_TRUNC : ℤ := 512
def O_APPEND : ℤ := 1024

/-- The test `flags & flag` for a flag of one bit. -/
def hasFlag (flags flag : ℤ) : Bool := flags / flag % 2 = 1

/-- The system calls of a callback that open or close a file or change one. A special file made
by `mknod` counts as an empty one. -/
def diskStep (env : Env) (s : Store) (D : Disk CStr) : Callback → Disk CStr
  | .openFile p flags _ =>
    match env.openFile (pathRealpath env p) flags with
    | .error _ => D
    | .ok fh => D.openFile ⟨pathRealpath env p, hasFlag flags O_APPEND⟩ (hasFlag flags O_CREAT)
        (hasFlag flags O_TRUNC) fh
  | .release a =>
    match s.fds.get? a with
    | none => D
    | some fd => D.close fd.fh
  | .write a buffer off =>
    match s.fds.get? a with
    | none => D
    | some fd =>
      if fd.isTagFile = true then D
      else
        match env.write fd.fh buffer off with
        | .error _ => D
        | .ok n => D.write fd.fh (buffer.take n.toNat) off.toNat
  | .mknod p mode device =>
    if env.access (pathRealpath env p) = false ∧ env.mknod (pathRealpath env p) mode device = 0 then
      D.mknod (pathRealpath env p)
    else D
  | .truncate p length =>
    if p = slash :: tagFilename ∨ p = tagFilename then D
    else if env.truncate (pathRealpath env p) length = 0 then
      D.truncate (pathRealpath env p) length.toNat
    else D
  | _ => D

/-- The daemon and the disk with its target directory. -/
structure Mounted where
  store : Store
  disk : Disk CStr

namespace Mounted

def step (m : Mounted) (e : Event) : Except Fault Mounted := do
  let s ← Fuse.step m.store e
  .ok ⟨s, diskStep e.env m.store m.disk e.callback⟩

/-- The system answers for the target directory `root`: `open` returns a descriptor that is not in
use, and `access` finds a file that exists. -/
def Answers (root : CStr) (m : Mounted) (e : Event) : Prop :=
  e.env.realdirpath = root ∧
    match e.callback with
    | .openFile p flags _ => ∀ fh ∈ (e.env.openFile (pathRealpath e.env p) flags).toOption,
        0 ≤ fh ∧ m.disk.handleAt fh = none
    | .mknod p _ _ => (m.disk.content (pathRealpath e.env p)).isSome = true →
        e.env.access (pathRealpath e.env p) = true
    | _ => True

/-- No truncation of a path ending in `.tags` but the two that `tag_truncate` knows, and no
`mknod` of one while there is no database. -/
def SparesDatabase (m : Mounted) (e : Event) : Prop :=
  match e.callback with
  | .truncate p _ => basename p = tagFilename → p = slash :: tagFilename ∨ p = tagFilename
  | .mknod p _ _ => basename p = tagFilename →
      (m.disk.content (pathRealpath e.env p)).isSome = true
  | _ => True

end Mounted

/-- The flags of an open neither make a file nor cut one. -/
def Event.KeepsContents (e : Event) : Prop :=
  match e.callback with
  | .openFile _ flags _ => hasFlag flags O_CREAT = false ∧ hasFlag flags O_TRUNC = false
  | _ => True

/-- The open descriptors; the poll handles do not matter. -/
def Store.opened (s : Store) : List FileDescriptor :=
  s.fds.entries.map fun e => { e.2 with ph := none }

theorem SameOpen.opened (h : SameOpen s s') : s'.opened = s.opened := by
  simp only [Store.opened, h.fds]

theorem mem_opened (h : s.fds.get? a = some fd) : { fd with ph := none } ∈ s.opened :=
  List.mem_map.mpr ⟨(a, fd), Table.mem_of_get? h, rfl⟩

theorem opened_add : Store.opened { s with fds := s.fds.add a fd } =
    s.opened ++ [{ fd with ph := none }] := by
  simp [Store.opened, Table.add]

theorem opened_modify (a : Addr) (ph : Option PollHandle) :
    Store.opened { s with fds := s.fds.modify a fun fd => { fd with ph := ph } } = s.opened := by
  exact Table.map_modify (t := s.fds) (k := a) (f := fun fd => { fd with ph := ph })
    (g := fun fd => { fd with ph := none }) fun _ => rfl

/-- The descriptor that an open of `p` gives. -/
structure FileDescriptor.Opens (fd : FileDescriptor) (env : Env) (p : CStr) (flags : ℤ)
    (isTag : Bool) : Prop where
  virtpath : fd.path.virtpath = p
  kind : fd.isTag = isTag
  database : fd.isTagFile = decide (basename p = tagFilename)
  directory : isTag = true → fd.fh = -1
  file : isTag = false → env.openFile (pathRealpath env p) flags = .ok fd.fh

theorem sameOpen_fileAddDescriptor {f : Option FileId} :
    Returns (fileAddDescriptor s f a) (SameOpen s) := by
  cases f with
  | none => trivial
  | some f => exact sat_bind.mpr (sat_readFile (fun _ => trivial) fun F _ => rfl)

theorem sameOpen_fileRemoveDescriptor {f : Option FileId} :
    Returns (fileRemoveDescriptor s f fd) (SameOpen s) := by
  cases f with
  | none => trivial
  | some f => exact sat_bind.mpr (sat_readFile (fun _ => trivial) fun F _ => rfl)

theorem pathCreate_fields {isTag : Bool} {path : Path} (h : pathCreate env s p isTag = .ok (path, s')) :
    path.virtpath = p ∧ path.filename = basename p ∧ path.realpath = pathRealpath env p := by
  obtain ⟨r, -, hr⟩ := bind_eq_ok.mp h
  cases hr
  exact ⟨rfl, rfl, rfl⟩

theorem sat_fdOpen {path : Path} {m : Malloc} {flags : ℤ} {isTag : Bool}
    (hp : path.virtpath = p) (hn : path.filename = basename p)
    (hr : path.realpath = pathRealpath env p) :
    Returns (fdOpen env s path m flags isTag) fun r =>
      (∃ e, r.1 = .error e) ∧ r.2.opened = s.opened ∨ (∃ a, r.1 = .ok a) ∧
        ∃ fd : FileDescriptor, fd.Opens env p flags isTag ∧ r.2.opened = s.opened ++ [fd] := by
  unfold fdOpen
  cases hfh : (if isTag = true then .ok (-1) else env.openFile path.realpath flags) with
  | error e => exact .inl ⟨⟨_, rfl⟩, rfl⟩
  | ok fh =>
    refine (returns_true (fdOpenTag s path isTag)).bind fun tag _ => ?_
    cases tag with
    | error e => exact .inl ⟨⟨_, rfl⟩, rfl⟩
    | ok tag =>
      cases m.fd with
      -- the file has been opened and stays open
      | none => exact .inl ⟨⟨_, rfl⟩, rfl⟩
      | some a =>
        set file := if isTag = true then none else fileGet s path.filename with hfile
        have hopens : FileDescriptor.Opens ⟨path, m.path, isTag, path.filename = tagFilename, none,
            file, tag, fh⟩ env p flags isTag := by
          refine ⟨hp, rfl, congrArg (fun n => decide (n = tagFilename)) hn, fun ht => ?_, fun ht => ?_⟩
          · rw [if_pos ht] at hfh
            exact (Except.ok.inj hfh).symm
          · rw [if_neg (by simp [ht])] at hfh
            rw [← hr, hfh]
        dsimp only
        split_ifs
        · exact .inr ⟨⟨a, rfl⟩, _, hopens, opened_add⟩
        · refine sameOpen_fileAddDescriptor.bind fun s' hs' => .inr ⟨⟨a, rfl⟩, _, hopens, ?_⟩
          rw [← hs'.opened]
          exact opened_add

theorem sat_openChecked {m : Malloc} {flags : ℤ} {isTag : Bool} :
    Returns (openChecked env s p m flags isTag) fun s' => s'.opened = s.opened ∨
      ∃ fd : FileDescriptor, fd.Opens env p flags isTag ∧ s'.opened = s.opened ++ [fd] := by
  unfold openChecked
  split_ifs
  · apply sat_map.mpr
    refine Sat.bind_eq (sameOpen_pathCreate p isTag) fun r hr hs => ?_
    obtain ⟨path, s₁⟩ := r
    obtain ⟨hp, hn, hreal⟩ := pathCreate_fields hr
    refine (sat_fdOpen hp hn hreal).bind fun r₂ hr₂ => ?_
    obtain ⟨res, s₂⟩ := r₂
    rw [SameOpen.opened hs] at hr₂
    rcases hr₂ with ⟨⟨e, rfl⟩, h⟩ | ⟨⟨a, rfl⟩, h⟩
    · exact .inl h
    · exact .inr h
  · trivial

theorem sat_tagReleaseGeneric : Returns (Prod.snd <$> tagReleaseGeneric env s a) fun s' =>
    ∃ fd, s.fds.get? a = some fd ∧ s.opened.Perm ({ fd with ph := none } :: s'.opened) := by
  refine sat_map.mpr (sat_bind.mpr (sat_readFd trivial fun fd ha => ?_))
  have hclosed {s' : Store} (hs' : SameOpen s s') : s.opened.Perm
      ({ fd with ph := none } :: Store.opened { s' with fds := s'.fds.erase a }) := by
    simp only [Store.opened, hs'.fds]
    exact (Table.perm_erase ha).map fun e => { e.2 with ph := none }
  refine (sameOpen_pathDelete fd.path).bind fun s₁ h₁ => ?_
  split_ifs
  · exact ⟨fd, ha, hclosed h₁⟩
  · exact sameOpen_fileRemoveDescriptor.bind fun s' hs' => ⟨fd, ha, hclosed (h₁.trans hs')⟩

/-- How a callback changes the descriptors that are open. -/
def Changes (env : Env) (s : Store) (l' : List FileDescriptor) : Callback → Prop
  | .openFile p flags _ => l' = s.opened ∨
      ∃ fd : FileDescriptor, fd.Opens env p flags false ∧ l' = s.opened ++ [fd]
  | .opendir p flags _ => l' = s.opened ∨
      ∃ fd : FileDescriptor, fd.Opens env p flags true ∧ l' = s.opened ++ [fd]
  | .release a => ∃ fd, s.fds.get? a = some fd ∧ s.opened.Perm ({ fd with ph := none } :: l')
  | _ => l' = s.opened

theorem step_changes {e : Event} :
    Returns (Fuse.step s e) fun s' => Changes e.env s s'.opened e.callback := by
  obtain ⟨env, c⟩ := e
  cases c with
  | openFile p flags m => exact sat_openChecked
  | opendir p flags m => exact sat_openChecked
  | release a => exact sat_tagReleaseGeneric
  | getattr p => exact sat_map.mpr ((sameOpen_tagGetattr p).mono fun _ h => h.opened)
  | fgetattr a =>
    refine sat_map.mpr (sat_bind.mpr (sat_readFd trivial fun fd _ => ?_))
    exact (sameOpen_getattrIntra fd.path).mono fun _ h => h.opened
  | getxattr p name size =>
    exact sat_map.mpr ((sameOpen_tagGetxattr p name size).mono fun _ h => h.opened)
  | readdir a => exact sat_map.mpr ((sameOpen_tagReaddir a).mono fun _ h => h.opened)
  | read a len off => exact sat_map.mpr ((returns_true _).mono fun _ _ => rfl)
  | write a buffer off => exact sat_map.mpr ((returns_true _).mono fun _ _ => rfl)
  | ioctl a readTags compat => exact sat_map.mpr ((returns_true _).mono fun _ _ => rfl)
  | link p q => exact sat_map.mpr ((sameOpen_tagLink p q).mono fun _ h => h.opened)
  | unlink p => exact sat_map.mpr ((sameOpen_tagUnlink p).mono fun _ h => h.opened)
  | rename p q => exact sat_map.mpr ((sameOpen_tagRename p q).mono fun _ h => h.opened)
  | poll a ph =>
    refine sat_map.mpr (sat_bind.mpr (sat_readFd trivial fun fd _ => ?_))
    cases fd.file with
    | none => trivial
    | some f =>
      refine sat_bind.mpr (sat_readFile (fun _ => trivial) fun F _ => ?_)
      exact opened_modify a ph
  | setxattr _ | rmdir _ | mkdir _ | mknod _ _ _ | truncate _ _ | chmod _ _ | chown _ _ _ | utime _ =>
    exact rfl

/-- A descriptor of a file stands for the real file of its path, and it is recognised as the one of
the database by the last component. -/
structure FileDescriptor.Backed (fd : FileDescriptor) (root : CStr) (D : Disk CStr) : Prop where
  database : fd.isTagFile = decide (basename fd.path.virtpath = tagFilename)
  handle : 0 ≤ fd.fh → ∃ h, D.handleAt fd.fh = some h ∧
    h.path = appendDir root (basename fd.path.virtpath)

namespace Mounted

variable {m m' : Mounted} {e : Event} {D D' : Disk CStr}

structure Backed (m : Mounted) (root : CStr) : Prop where
  each : ∀ fd ∈ m.store.opened, fd.Backed root m.disk
  distinct : m.store.opened.Pairwise fun fd fd' => 0 ≤ fd.fh → fd.fh ≠ fd'.fh

theorem Backed.of_same (h : m.Backed root) (hs : s'.opened = m.store.opened)
    (hd : ∀ fh, D'.handleAt fh = m.disk.handleAt fh) : Backed ⟨s', D'⟩ root := by
  refine ⟨fun fd hfd => ?_, ?_⟩
  · obtain ⟨hdb, hh⟩ := h.each fd (hs ▸ hfd)
    refine ⟨hdb, ?_⟩
    rw [hd]
    exact hh
  · rw [hs]
    exact h.distinct

theorem Backed.ne (h : m.Backed root) {fh : ℤ} (hfree : m.disk.handleAt fh = none) :
    ∀ fd ∈ m.store.opened, 0 ≤ fd.fh → fd.fh ≠ fh := by
  rintro fd hfd hpos rfl
  obtain ⟨h', hh, -⟩ := (h.each fd hfd).handle hpos
  rw [hfree] at hh
  cases hh

theorem Backed.add (h : m.Backed root) (hs : s'.opened = m.store.opened ++ [fd])
    (hfd : fd.Backed root m.disk) (hne : ∀ fd' ∈ m.store.opened, 0 ≤ fd'.fh → fd'.fh ≠ fd.fh) :
    Backed ⟨s', m.disk⟩ root := by
  refine ⟨?_, ?_⟩
  · rw [hs]
    simp only [List.mem_append, List.mem_singleton]
    rintro fd' (h' | rfl)
    · exact h.each fd' h'
    · exact hfd
  · rw [hs]
    refine List.pairwise_append.mpr ⟨h.distinct, List.pairwise_singleton _ _, ?_⟩
    intro fd' h' fd'' h''
    rw [List.mem_singleton.mp h'']
    exact hne fd' h'

theorem Backed.openFile (h : m.Backed root) {fh : ℤ} (hfree : m.disk.handleAt fh = none)
    (handle : Handle CStr) (creates truncates : Bool) :
    Backed ⟨m.store, m.disk.openFile handle creates truncates fh⟩ root := by
  refine ⟨fun fd hfd => ⟨(h.each fd hfd).database, fun hpos => ?_⟩, h.distinct⟩
  rw [Disk.handleAt_openFile, if_neg fun hc => h.ne hfree fd hfd hpos hc.1]
  exact (h.each fd hfd).handle hpos

theorem Backed.close (h : m.Backed root) (fd : FileDescriptor)
    (hs : m.store.opened.Perm (fd :: s'.opened)) : Backed ⟨s', m.disk.close fd.fh⟩ root := by
  -- no other descriptor of the daemon has this number
  have hdistinct : (fd :: s'.opened).Pairwise fun fd fd' => 0 ≤ fd.fh → fd.fh ≠ fd'.fh := by
    refine (hs.pairwise_iff ?_).mp h.distinct
    intro fd fd' hne hpos heq
    exact hne (heq ▸ hpos) heq.symm
  obtain ⟨hne, hrest⟩ := List.pairwise_cons.mp hdistinct
  refine ⟨fun fd' hfd' => ?_, hrest⟩
  obtain ⟨hdb, hh⟩ := h.each fd' (hs.mem_iff.mpr (List.mem_cons_of_mem _ hfd'))
  refine ⟨hdb, fun hpos => ?_⟩
  rw [Disk.close, Disk.handleAt_setHandle, if_neg ?_]
  · exact hh hpos
  · rintro ⟨heq, -⟩
    exact hne fd' hfd' (heq ▸ hpos) heq.symm

theorem step_eq_ok (hs : m.step e = .ok m') :
    ∃ s, Fuse.step m.store e = .ok s ∧ m' = ⟨s, diskStep e.env m.store m.disk e.callback⟩ := by
  obtain ⟨s, hstep, hm⟩ := bind_eq_ok.mp hs
  exact ⟨s, hstep, (Except.ok.inj hm).symm⟩

/-- An open that fails behind `open` leaves a descriptor on the disk that no callback can name. -/
theorem Backed.step_openFile {flags : ℤ} {mal : Malloc} (h : m.Backed env.realdirpath)
    (hfree : ∀ fh ∈ (env.openFile (pathRealpath env p) flags).toOption,
      0 ≤ fh ∧ m.disk.handleAt fh = none)
    (hc : Changes env m.store s'.opened (.openFile p flags mal)) :
    Backed ⟨s', diskStep env m.store m.disk (.openFile p flags mal)⟩ env.realdirpath := by
  simp only [diskStep]
  cases hop : env.openFile (pathRealpath env p) flags with
  | error e =>
    rcases hc with hc | ⟨fd, hfd, -⟩
    · exact h.of_same hc fun _ => rfl
    · -- a descriptor is only made for an open that succeeds
      cases hop.symm.trans (hfd.file rfl)
  | ok fh =>
    obtain ⟨hpos, hnone⟩ := hfree fh (by rw [hop]; rfl)
    have hD := h.openFile hnone ⟨pathRealpath env p, hasFlag flags O_APPEND⟩
      (hasFlag flags O_CREAT) (hasFlag flags O_TRUNC)
    rcases hc with hc | ⟨fd, hfd, hc⟩
    · exact hD.of_same hc fun _ => rfl
    · obtain rfl : fh = fd.fh := Except.ok.inj (hop.symm.trans (hfd.file rfl))
      refine hD.add hc ⟨?_, fun _ => ?_⟩ (h.ne hnone)
      · rw [hfd.database, hfd.virtpath]
      · rw [Disk.handleAt_openFile, if_pos ⟨rfl, hpos⟩, hfd.virtpath]
        exact ⟨_, rfl, rfl⟩

theorem Backed.step_opendir {flags : ℤ} {mal : Malloc} (h : m.Backed root)
    (hc : Changes env m.store s'.opened (.opendir p flags mal)) : Backed ⟨s', m.disk⟩ root := by
  rcases hc with hc | ⟨fd, hfd, hc⟩
  · exact h.of_same hc fun _ => rfl
  · have hfh : fd.fh = -1 := hfd.directory rfl
    refine h.add hc ⟨?_, fun hpos => ?_⟩ fun fd' _ hpos => ?_
    · rw [hfd.database, hfd.virtpath]
    · omega
    · omega

theorem handleAt_diskStep_write {buffer : List UInt8} {off fh : ℤ} :
    (diskStep env s D (.write a buffer off)).handleAt fh = D.handleAt fh := by
  simp only [diskStep]
  split
  · rfl
  · split_ifs
    · rfl
    · split
      · rfl
      · exact Disk.handleAt_write

theorem backed_step (h : m.Backed root) (ha : m.Answers root e) (hs : m.step e = .ok m') :
    m'.Backed root := by
  obtain ⟨s, hstep, rfl⟩ := step_eq_ok hs
  have hc := returns_iff.mp step_changes s hstep
  obtain ⟨env, c⟩ := e
  obtain ⟨rfl, ha⟩ := ha
  cases c with
  | openFile p flags mal => exact h.step_openFile ha hc
  | opendir p flags mal => exact h.step_opendir hc
  | release a =>
    obtain ⟨fd, hfd, hp⟩ := hc
    simp only [diskStep, hfd]
    exact h.close { fd with ph := none } hp
  | write a buffer off => exact h.of_same hc fun _ => handleAt_diskStep_write
  | mknod p mode device =>
    refine h.of_same hc fun fh => ?_
    simp only [diskStep]
    split_ifs <;> rfl
  | truncate p length =>
    refine h.of_same hc fun fh => ?_
    simp only [diskStep]
    split_ifs <;> rfl
  | _ => exact h.of_same hc fun _ => rfl

theorem appendDir_ne (h : basename p ≠ tagFilename) :
    appendDir root tagFilename ≠ appendDir root (basename p) := by
  intro heq
  have htail := List.append_cancel_left heq
  exact h (List.cons.inj htail).2.symm

theorem content_step (h : m.Backed root) (ha : m.Answers root e) (hk : e.KeepsContents)
    (hg : m.SparesDatabase e) (hs : m.step e = .ok m') :
    m'.disk.content (appendDir root tagFilename) = m.disk.content (appendDir root tagFilename) := by
  obtain ⟨s, hstep, rfl⟩ := step_eq_ok hs
  obtain ⟨env, c⟩ := e
  obtain ⟨rfl, ha⟩ := ha
  cases c with
  | openFile p flags mal =>
    obtain ⟨hcreat, htrunc⟩ := hk
    simp only [diskStep, hcreat, htrunc]
    split
    · rfl
    · exact Disk.content_openFile
  | write a buffer off =>
    simp only [diskStep]
    split
    · rfl
    · next fd hfd =>
      obtain ⟨hdb, hh⟩ := h.each _ (mem_opened hfd)
      dsimp only at hdb hh
      split_ifs with hfile
      · rfl
      · split
        · rfl
        · -- the flag in the descriptor tells the last component of its path
          have hname : basename fd.path.virtpath ≠ tagFilename := by simpa [hdb] using hfile
          by_cases hpos : 0 ≤ fd.fh
          · obtain ⟨h', hat, hp⟩ := hh hpos
            exact Disk.content_write hat (hp ▸ appendDir_ne hname)
          · rw [Disk.write_of_neg hpos]
  | mknod p mode device =>
    simp only [diskStep]
    split_ifs with hmk
    · -- `mknod` is refused where something is there
      refine Disk.content_setContent_ne _ (appendDir_ne fun hname => ?_)
      have hacc := ha (hg hname)
      rw [hmk.1] at hacc
      cases hacc
    · rfl
  | truncate p length =>
    simp only [diskStep]
    split_ifs with hp
    · rfl
    · exact Disk.content_modify_ne _ (appendDir_ne fun hname => hp (hg hname))
    · rfl
  | release a =>
    simp only [diskStep]
    split <;> rfl
  | _ => rfl

end Mounted

/-- What a run meets in which the database stays as it is. -/
def DatabaseSpared (root : CStr) (m : Mounted) (e : Event) : Prop :=
  m.Answers root e ∧ e.KeepsContents ∧ m.SparesDatabase e

/-- From the start of the daemon on, unless a path ending in `.tags` is truncated under another
name, the database keeps its content, and writes and truncations of it are refused. -/
theorem database_content_of_reaches {file : Option CStr} {D : Disk CStr} {m : Mounted}
    (h₀ : setRootDirectory env file = .ok s)
    (h : Reaches Mounted.step (DatabaseSpared root) ⟨s, D⟩ m) :
    m.disk.content (appendDir root tagFilename) = D.content (appendDir root tagFilename) ∧
    (∀ env a fd buffer off, m.store.fds.get? a = some fd →
      basename fd.path.virtpath = tagFilename → tagWrite env m.store a buffer off = .ok (-EPERM)) ∧
    ∀ env p length, DatabaseSpared root m ⟨env, .truncate p length⟩ → basename p = tagFilename →
      tagTruncate env p length = -EPERM := by
  have hstart : Mounted.Backed ⟨s, D⟩ root := by
    have hfds : s.fds = .empty := (returns_iff.mp (sameOpen_setRootDirectory file) s h₀).fds
    have hopened : s.opened = [] := by simp [Store.opened, hfds]
    refine ⟨?_, ?_⟩
    · simp [hopened]
    · simp [hopened]
  obtain ⟨hbacked, hcontent⟩ := h.invariant (I := fun m => m.Backed root ∧
    m.disk.content (appendDir root tagFilename) = D.content (appendDir root tagFilename))
    ⟨hstart, rfl⟩ fun m e m' hm hg he => ⟨Mounted.backed_step hm.1 hg.1 he,
      (Mounted.content_step hm.1 hg.1 hg.2.1 hg.2.2 he).trans hm.2⟩
  refine ⟨hcontent, fun env a fd buffer off ha hname => ?_, fun env p length hg hname => ?_⟩
  · have hdb := (hbacked.each _ (mem_opened ha)).database
    have hfile : fd.isTagFile = true := hdb.trans (decide_eq_true hname)
    simp only [tagWrite, Store.readFd, ha]
    exact congrArg Except.ok (if_pos hfile)
  · exact if_pos (hg.2.2 hname)

section Sample

instance (m : Mounted) (e : Event) : Decidable (m.Answers root e) :=
  match e with
  | ⟨env, .openFile p flags _⟩ =>
    inferInstanceAs (Decidable (env.realdirpath = root ∧
      ∀ fh ∈ (env.openFile (pathRealpath env p) flags).toOption, 0 ≤ fh ∧ m.disk.handleAt fh = none))
  | ⟨env, .mknod p _ _⟩ =>
    inferInstanceAs (Decidable (env.realdirpath = root ∧
      ((m.disk.content (pathRealpath env p)).isSome = true → env.access (pathRealpath env p) = true)))
  | ⟨env, .getattr _⟩ | ⟨env, .fgetattr _⟩ | ⟨env, .setxattr _⟩ | ⟨env, .getxattr ..⟩
  | ⟨env, .opendir ..⟩ | ⟨env, .release _⟩ | ⟨env, .readdir _⟩ | ⟨env, .read ..⟩ | ⟨env, .write ..⟩
  | ⟨env, .link ..⟩ | ⟨env, .unlink _⟩ | ⟨env, .rename ..⟩ | ⟨env, .rmdir _⟩ | ⟨env, .mkdir _⟩
  | ⟨env, .truncate ..⟩ | ⟨env, .chmod ..⟩ | ⟨env, .chown ..⟩ | ⟨env, .utime _⟩ | ⟨env, .ioctl ..⟩
  | ⟨env, .poll ..⟩ => inferInstanceAs (Decidable (env.realdirpath = root ∧ True))

instance (m : Mounted) (e : Event) : Decidable (m.SparesDatabase e) :=
  match e with
  | ⟨_, .truncate p _⟩ =>
    inferInstanceAs (Decidable (basename p = tagFilename → p = slash :: tagFilename ∨ p = tagFilename))
  | ⟨env, .mknod p _ _⟩ =>
    inferInstanceAs (Decidable (basename p = tagFilename →
      (m.disk.content (pathRealpath env p)).isSome = true))
  | ⟨_, .getattr _⟩ | ⟨_, .fgetattr _⟩ | ⟨_, .setxattr _⟩ | ⟨_, .getxattr ..⟩ | ⟨_, .openFile ..⟩
  | ⟨_, .opendir ..⟩ | ⟨_, .release _⟩ | ⟨_, .readdir _⟩ | ⟨_, .read ..⟩ | ⟨_, .write ..⟩
  | ⟨_, .link ..⟩ | ⟨_, .unlink _⟩ | ⟨_, .rename ..⟩ | ⟨_, .rmdir _⟩ | ⟨_, .mkdir _⟩
  | ⟨_, .chmod ..⟩ | ⟨_, .chown ..⟩ | ⟨_, .utime _⟩ | ⟨_, .ioctl ..⟩ | ⟨_, .poll ..⟩ =>
    .isTrue trivial

instance (e : Event) : Decidable e.KeepsContents :=
  match e with
  | ⟨_, .openFile _ flags _⟩ =>
    inferInstanceAs (Decidable (hasFlag flags O_CREAT = false ∧ hasFlag flags O_TRUNC = false))
  | ⟨_, .getattr _⟩ | ⟨_, .fgetattr _⟩ | ⟨_, .setxattr _⟩ | ⟨_, .getxattr ..⟩ | ⟨_, .opendir ..⟩
  | ⟨_, .release _⟩ | ⟨_, .readdir _⟩ | ⟨_, .read ..⟩ | ⟨_, .write ..⟩ | ⟨_, .link ..⟩
  | ⟨_, .unlink _⟩ | ⟨_, .rename ..⟩ | ⟨_, .rmdir _⟩ | ⟨_, .mkdir _⟩ | ⟨_, .mknod ..⟩
  | ⟨_, .truncate ..⟩ | ⟨_, .chmod ..⟩ | ⟨_, .chown ..⟩ | ⟨_, .utime _⟩ | ⟨_, .ioctl ..⟩
  | ⟨_, .poll ..⟩ => .isTrue trivial

instance (m : Mounted) (e : Event) : Decidable (DatabaseSpared root m e) :=
  inferInstanceAs (Decidable (_ ∧ _ ∧ _))

/-- The target directory has a database; its descriptors are 3, those of other files 4. -/
def databaseEnv : Env :=
  { sampleEnv with
    stat := fun p => if p = appendDir rootName tagFilename then some ⟨4, false, 9⟩ else sampleStat p
    openFile := fun p _ => .ok (if p = appendDir rootName tagFilename then 3 else 4) }

/-- The database holds one byte, the file `f` another. -/
def databaseDisk : Disk CStr where
  content p := if p = appendDir rootName tagFilename then some [1]
    else if p = appendDir rootName nameF then some [2] else none
  handle _ := none

/-- Writes to the database, which is refused, and to a file, and cuts the file. -/
def writeBoth : List Event := [
  ⟨databaseEnv, .getattr (samplePath [] tagFilename)⟩,
  ⟨databaseEnv, .openFile (samplePath [nameX] tagFilename) 2 ⟨1, some 2⟩⟩,
  ⟨databaseEnv, .write 2 [7, 8] 0⟩,
  ⟨databaseEnv, .getattr (samplePath [] nameF)⟩,
  ⟨databaseEnv, .openFile (samplePath [] nameF) 2 ⟨3, some 4⟩⟩,
  ⟨databaseEnv, .write 4 [7, 8] 0⟩,
  ⟨databaseEnv, .truncate (samplePath [nameX] nameF) 1⟩,
  ⟨databaseEnv, .truncate (samplePath [] tagFilename) 0⟩]

end Sample

theorem database_content_of_reaches_sample : ∃ m : Mounted,
    m.disk.content (appendDir rootName nameF) = some [7] ∧
    m.disk.content (appendDir rootName tagFilename) = some [1] ∧
    tagWrite databaseEnv m.store 2 [9] 0 = .ok (-EPERM) := by
  have hrun : (execute Mounted.step (DatabaseSpared rootName) writeBoth ⟨.init, databaseDisk⟩).any
      (fun m => m.disk.content (appendDir rootName nameF) = some [7] ∧
        (m.store.fds.get? 2).any fun fd => basename fd.path.virtpath = tagFilename) = true := by
    decide +kernel
  obtain ⟨m, hm, hp⟩ := (Option.any_eq_true _ _).mp hrun
  obtain ⟨hf, hfd⟩ := of_decide_eq_true hp
  obtain ⟨fd, ha, hname⟩ := (Option.any_eq_true _ _).mp hfd
  have h₀ : setRootDirectory databaseEnv none = .ok .init := rfl
  obtain ⟨hcontent, hwrite, -⟩ := database_content_of_reaches h₀ (reaches_of_execute hm)
  exact ⟨m, hf, hcontent, hwrite databaseEnv 2 fd [9] 0 ha (of_decide_eq_true hname)⟩

/-- Under a tag the database is truncated as any file. -/
theorem truncated_under_tag : ¬ ∀ env file s root D m, setRootDirectory env file = .ok s →
    Reaches Mounted.step (fun m e => m.Answers root e ∧ e.KeepsContents) ⟨s, D⟩ m →
    m.disk.content (appendDir root tagFilename) = D.content (appendDir root tagFilename) := by
  intro h
  have hrun : (execute Mounted.step (fun m e => m.Answers rootName e ∧ e.KeepsContents)
      [⟨databaseEnv, .truncate (samplePath [nameX] tagFilename) 0⟩] ⟨.init, databaseDisk⟩).any
      (fun m => m.disk.content (appendDir rootName tagFilename) = some []) = true := by decide +kernel
  obtain ⟨m, hm, hp⟩ := (Option.any_eq_true _ _).mp hrun
  have hsame := h databaseEnv none .init rootName databaseDisk m rfl (reaches_of_execute hm)
  rw [of_decide_eq_true hp] at hsame
  cases hsame

end TagFilesystem.Fuse
