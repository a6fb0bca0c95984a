import TagFilesystem.FuseLowlevel.Coherence

namespace TagFilesystem.FuseLowlevel

variable {env : Env} {s s' : Store} {rs : List Reply} {c : Callback}

/-- The callback has made one reply. -/
def Once (r : Outcome) : Prop := r.1.length = 1

theorem once_singleton (x : Reply) (s : Store) : Once ([x], s) := rfl

theorem once_tagForget (ino nlookup : UInt64) : Returns (tagForget s ino nlookup) Once := by
  refine (returns_tagForget ino nlookup).mono fun r hr => ?_
  rw [Once, hr.1]
  rfl

theorem once_lookupReply (i : InodeId) (st : Stat) : Returns (lookupReply s i st) Once :=
  (returns_true _).bind fun _ _ => once_singleton _ _

theorem once_tagLookup (parent : UInt64) (name : CStr) :
    Returns (tagLookup env s parent name) Once := by
  unfold tagLookup
  split
  · exact once_singleton _ _
  · refine (returns_true _).bind fun P _ => ?_
    dsimp only
    split
    · split_ifs
      · refine (returns_true _).bind fun sel _ => ?_
        split_ifs
        · exact once_singleton _ _
        · exact (returns_true _).bind fun r _ => once_lookupReply _ _
      · exact once_singleton _ _
    · refine (returns_true _).bind fun r _ => (returns_true _).bind fun F _ => ?_
      refine (returns_true _).bind fun I _ => ?_
      split
      · refine (returns_true _).bind fun sel _ => (returns_true _).bind fun m _ => ?_
        split_ifs
        · exact once_singleton _ _
        · exact once_lookupReply _ _
        · exact once_lookupReply _ _
      · exact once_lookupReply _ _

theorem once_tagOpendir (ino : UInt64) : Returns (tagOpendir s ino) Once := by
  unfold tagOpendir
  split
  · exact once_singleton _ _
  · refine (returns_true _).bind fun I _ => ?_
    split_ifs <;> exact once_singleton _ _

theorem once_tagReaddir (ino : UInt64) (size : ℕ) (off : ℤ) (fh : Option InodeId) :
    Returns (tagReaddir env s ino size off fh) Once := by
  unfold tagReaddir
  split
  · exact once_singleton _ _
  · refine (returns_true _).bind fun I _ => ?_
    split_ifs
    · exact once_singleton _ _
    all_goals
      refine (returns_true _).bind fun sel _ => (returns_true _).bind fun r _ => ?_
      exact (returns_true _).bind fun r _ => once_singleton _ _

theorem once_tagRmdir (parent : UInt64) (name : CStr) : Returns (tagRmdir s parent name) Once := by
  refine (returns_tagRmdir parent name).mono fun r hr => ?_
  rcases hr with ⟨-, rfl⟩ | ⟨-, hr, -⟩
  · exact once_singleton _ _
  · rw [Once, hr]
    rfl

theorem once_tagMkdir (parent : UInt64) (name : CStr) :
    Returns (tagMkdir env s parent name) Once := by
  unfold tagMkdir
  split_ifs
  · exact once_singleton _ _
  · exact once_singleton _ _
  · refine (returns_true _).bind fun r _ => ?_
    exact (returns_true _).bind fun I _ => once_singleton _ _

theorem once_tagGetattr (ino : UInt64) : Returns (tagGetattr env s ino) Once := by
  unfold tagGetattr
  split
  · exact once_singleton _ _
  · refine (returns_true _).bind fun I _ => (returns_true _).bind fun path _ => ?_
    split <;> exact once_singleton _ _

theorem once_tagOpen (ino : UInt64) (flags : ℤ) : Returns (tagOpen env s ino flags) Once := by
  unfold tagOpen
  split
  · exact once_singleton _ _
  · refine (returns_true _).bind fun I _ => (returns_true _).bind fun name _ => ?_
    refine (returns_true _).bind fun r _ => (returns_true _).bind fun F _ => ?_
    split
    · exact once_singleton _ _
    · exact (returns_true _).bind fun I _ => once_singleton _ _

theorem once_tagRead (ino : UInt64) (size : ℕ) (off fh : ℤ) :
    Returns (tagRead env s ino size off fh) Once := by
  unfold tagRead
  split
  · exact once_singleton _ _
  · refine (returns_true _).bind fun I _ => (returns_true _).bind fun res _ => ?_
    split <;> exact once_singleton _ _

theorem once_tagWrite (ino : UInt64) (buf : List UInt8) (off fh : ℤ) :
    Returns (tagWrite env s ino buf off fh) Once := by
  unfold tagWrite
  split
  · exact once_singleton _ _
  · refine (returns_true _).bind fun I _ => ?_
    split_ifs
    · exact once_singleton _ _
    · split <;> exact once_singleton _ _

theorem once_tagMknod (parent : UInt64) (name : CStr) (mode rdev : ℕ) :
    Returns (tagMknod env s parent name mode rdev) Once := by
  unfold tagMknod
  split_ifs
  · exact once_singleton _ _
  · exact once_singleton _ _
  · split
    · exact once_singleton _ _
    · refine (returns_true _).bind fun r _ => (returns_true _).bind fun F _ => ?_
      exact (returns_true _).bind fun I _ => once_singleton _ _

theorem once_tagSetattr (ino : UInt64) (mode : Option Bool) :
    Returns (tagSetattr env s ino mode) Once := by
  unfold tagSetattr
  split
  · exact once_singleton _ _
  · refine (returns_true _).bind fun I _ => ?_
    split_ifs
    · exact once_singleton _ _
    · refine (returns_true _).bind fun name _ => (returns_true _).bind fun r _ => ?_
      refine (returns_true _).bind fun F _ => ?_
      exact (returns_true _).bind fun I _ => once_singleton _ _

theorem once_tagLink (ino newparent : UInt64) (newname : CStr) :
    Returns (tagLink env s ino newparent newname) Once := by
  refine (returns_true _).bind fun I _ => ?_
  split_ifs
  · exact once_singleton _ _
  · refine (returns_true _).bind fun name _ => ?_
    split_ifs
    · exact once_singleton _ _
    · refine (returns_true _).bind fun P _ => ?_
      split_ifs
      · exact once_singleton _ _
      · refine (returns_true _).bind fun r _ => (returns_true _).bind fun tagname _ => ?_
        exact (returns_true _).bind fun s' _ => once_singleton _ _

theorem once_tagUnlink (parent : UInt64) (name : CStr) :
    Returns (tagUnlink s parent name) Once := by
  unfold tagUnlink
  split_ifs
  · exact once_singleton _ _
  · split
    · exact once_singleton _ _
    · refine (returns_true _).bind fun P _ => ?_
      split_ifs
      · exact once_singleton _ _
      · refine (returns_true _).bind fun sel _ => ?_
        split_ifs
        · exact once_singleton _ _
        · refine (returns_true _).bind fun tagname _ => ?_
          split
          · exact once_singleton _ _
          · exact (returns_true _).bind fun s' _ => once_singleton _ _

theorem once_tagRename (parent : UInt64) (name : CStr) (newparent : UInt64) :
    Returns (tagRename s parent name newparent) Once := by
  unfold tagRename
  split_ifs
  · exact once_singleton _ _
  · split
    · refine (returns_true _).bind fun O _ => (returns_true _).bind fun N _ => ?_
      split_ifs
      · exact once_singleton _ _
      · refine (returns_true _).bind fun s₁ _ => ?_
        exact (returns_true _).bind fun s₂ _ => once_singleton _ _
    · exact once_singleton _ _

/-- One of the two checks of `tag_ioctl` replies. -/
def ioctlChecksFail (s : Store) (ino : UInt64) (compat : Bool) : Bool :=
  ((inodeGet s ino).bind s.inodeHeap.get?).any fun I =>
    I.isTagfile || I.isDirectory || compat

theorem ioctlErrors_eq_nil {I : Inode} {compat : Bool} :
    ioctlErrors I compat = [] ↔ (I.isTagfile || I.isDirectory || compat) = false := by
  unfold ioctlErrors
  cases I.isTagfile <;> cases I.isDirectory <;> cases compat <;> simp

theorem returns_tagIoctl_length (ino : UInt64) (readTags compat : Bool) :
    Returns (tagIoctl env s ino readTags compat) fun r =>
      r.1.length = 1 ↔ ioctlChecksFail s ino compat = false := by
  unfold tagIoctl
  split
  · next hi => simp [ioctlChecksFail, hi]
  · next i hi =>
    refine returns_readInode_some.bind fun I hI => ?_
    have hcheck : ioctlChecksFail s ino compat = (I.isTagfile || I.isDirectory || compat) := by
      simp [ioctlChecksFail, hi, hI]
    have hlast : ∀ x : Reply, (ioctlErrors I compat ++ [x]).length = 1 ↔
        ioctlChecksFail s ino compat = false := by
      intro x
      rw [hcheck, ← ioctlErrors_eq_nil, List.length_append, List.length_singleton,
        Nat.add_eq_right, List.length_eq_zero_iff]
    dsimp only
    split_ifs
    · refine (returns_true _).bind fun name _ => (returns_true _).bind fun r _ => ?_
      apply returns_ioctlReadTags.bind
      rintro - ⟨size, writes, rfl⟩
      exact hlast _
    · exact hlast _

/-- The request is an `ioctl` on which a check of `tag_ioctl` replies. -/
def repliesTwice (s : Store) (c : Callback) : Bool :=
  match c with
  | .ioctl ino _ compat => ioctlChecksFail s ino compat
  | _ => false

theorem once_call (h : ∀ ino readTags compat, c ≠ .ioctl ino readTags compat) :
    Returns (call env s c) Once := by
  cases c with
  | lookup parent name => exact once_tagLookup parent name
  | forget ino nlookup => exact once_tagForget ino nlookup
  | getattr ino => exact once_tagGetattr ino
  | openFile ino flags => exact once_tagOpen ino flags
  | read ino size off fh => exact once_tagRead ino size off fh
  | write ino buf off fh => exact once_tagWrite ino buf off fh
  | release fh => exact once_singleton _ _
  | opendir ino => exact once_tagOpendir ino
  | readdir ino size off fh => exact once_tagReaddir ino size off fh
  | releasedir => exact once_singleton _ _
  | link ino newparent newname => exact once_tagLink ino newparent newname
  | unlink parent name => exact once_tagUnlink parent name
  | rename parent name newparent newname => exact once_tagRename parent name newparent
  | mkdir parent name => exact once_tagMkdir parent name
  | rmdir parent name => exact once_tagRmdir parent name
  | mknod parent name mode rdev => exact once_tagMknod parent name mode rdev
  | setattr ino mode => exact once_tagSetattr ino mode
  | ioctl ino readTags compat => exact absurd rfl (h ino readTags compat)

/-- A callback that comes to its end replies once, unless a check of `tag_ioctl` has replied. -/
theorem replies_once_iff (h : call env s c = .ok (rs, s')) :
    rs.length = 1 ↔ repliesTwice s c = false := by
  by_cases hc : ∃ ino readTags compat, c = .ioctl ino readTags compat
  · obtain ⟨ino, readTags, compat, rfl⟩ := hc
    exact (returns_tagIoctl_length ino readTags compat).of_ok h
  · push Not at hc
    have honce : rs.length = 1 := (once_call hc).of_ok h
    apply iff_of_true honce
    unfold repliesTwice
    split
    · exact absurd rfl (hc _ _ _)
    · rfl

/-- After a tag has been made and a file linked, the file is looked up with one reply, and an `ioctl`
of a compatibility layer on it has two. -/
theorem replies_once_iff_sample : ∃ s r r', sampleRun [.mkdir 1 nameX, .link 2 4 nameF] = some s ∧
    call sampleEnv s (.lookup 4 nameF) = .ok r ∧ r.1.length = 1 ∧
    call sampleEnv s (.ioctl 2 true true) = .ok r' ∧ r'.1.length ≠ 1 := by
  have hrun : (sampleRun [.mkdir 1 nameX, .link 2 4 nameF]).any (fun s =>
      returnsWith (call sampleEnv s (.lookup 4 nameF)) (fun _ => true) = true ∧
      returnsWith (call sampleEnv s (.ioctl 2 true true)) (fun _ => true) = true ∧
      repliesTwice s (.ioctl 2 true true) = true) = true := by decide +kernel
  obtain ⟨s, hs, hp⟩ := (Option.any_eq_true _ _).mp hrun
  obtain ⟨hlookup, hioctl, htwice⟩ := of_decide_eq_true hp
  obtain ⟨r, hr, -⟩ := returnsWith_iff.mp hlookup
  obtain ⟨r', hr', -⟩ := returnsWith_iff.mp hioctl
  refine ⟨s, r, r', hs, hr, (replies_once_iff hr).mpr rfl, hr', fun hone => ?_⟩
  rw [(replies_once_iff hr').mp hone] at htwice
  cases htwice

/-- An `ioctl` on the root directory is answered twice. -/
theorem ioctl_replies_twice : ¬ ∀ env file s₀ s c rs s', tagInit env file = .ok s₀ →
    Reaches step (fun _ _ => True) s₀ s → call env s c = .ok (rs, s') → rs.length = 1 := by
  intro h
  have hrun : ∃ s₀, tagInit sampleEnv (some []) = .ok s₀ ∧
      call sampleEnv s₀ (.ioctl 1 false false) = .ok ([.err EINVAL, .err EINVAL], s₀) := by
    refine ⟨_, rfl, ?_⟩
    decide +kernel
  obtain ⟨s₀, h₀, hc⟩ := hrun
  have htwo := h sampleEnv (some []) s₀ s₀ _ _ _ h₀ (.refl _) hc
  cases htwo

end TagFilesystem.FuseLowlevel
