import TagFilesystem.FuseLowlevel.Itable

namespace TagFilesystem.FuseLowlevel

variable {c : Prop} {env : Env} {s s' : Store} {t : TagId} {f : FileId} {i p : InodeId}
  {I P : Inode} {k n name : CStr} {held : List Lock} {sel : HashTable (Option TagId)}

structure Store.Sound (s : Store) : Prop where
  links : s.links.Sound
  indexed : s.Indexed

theorem Updates.sound' (h : Updates c s s') (hs : s.Sound) : s'.Sound where
  links := h.sound hs.links
  indexed := h.invariant hs.indexed fun _ _ hq hu => hu.indexed hq

/-- The inode that a reply makes the kernel look up. -/
def Reply.entryIno : Reply → Option UInt64
  | .entry ino _ _ => some ino
  | _ => none

/-- The request makes no entry reply and raises no lookup count. -/
def Quiet (s : Store) (r : Outcome) : Prop :=
  Updates False s r.2 ∧ ∀ x ∈ r.1, x.entryIno = none

/-- The request raises the lookup count of one inode at its end and replies with `x`. -/
def Counted (s : Store) (r : Outcome) (x : Inode → Reply → Prop) : Prop :=
  ∃ s₁ i I y, Updates False s s₁ ∧ s₁.inodeHeap.get? i = some I ∧ r.1 = [y] ∧ x I y ∧
    r.2 = s₁.writeInode i { I with nlookup := I.nlookup + 1 }

theorem Quiet.updates {r : Outcome} (h : Quiet s r) : Updates c s r.2 :=
  h.1.mono False.elim

theorem Counted.updates {r : Outcome} {x : Inode → Reply → Prop} (h : Counted s r x) :
    Updates True s r.2 := by
  obtain ⟨s₁, i, I, y, hu, hI, -, -, hr⟩ := h
  rw [hr]
  exact (hu.mono False.elim).tail (.count trivial hI)

theorem quiet_err (e : ℤ) : Quiet s ([.err e], s) :=
  ⟨.refl, by simp [Reply.entryIno]⟩

theorem Quiet.after {r : Outcome} (h : Quiet s' r) (hu : Updates False s s') : Quiet s r :=
  ⟨hu.trans h.1, h.2⟩

theorem Counted.after {r : Outcome} {x : Inode → Reply → Prop} (h : Counted s' r x)
    (hu : Updates False s s') : Counted s r x := by
  obtain ⟨s₁, i, I, y, hu', hrest⟩ := h
  exact ⟨s₁, i, I, y, hu.trans hu', hrest⟩

theorem returns_readInode {i : Option InodeId} :
    Returns (s.readInode i) fun I => ∃ j, i = some j ∧ s.inodeHeap.get? j = some I := by
  cases i with
  | none => trivial
  | some j =>
    unfold Store.readInode
    dsimp only
    split
    · next I hI => exact ⟨j, rfl, hI⟩
    · trivial

theorem returns_readInode_some :
    Returns (s.readInode (some i)) fun I => s.inodeHeap.get? i = some I := by
  apply returns_readInode.mono
  rintro I ⟨j, hj, hI⟩
  cases hj
  exact hI

theorem returns_readFile : Returns (s.readFile f) fun F => s.fileHeap.get? f = some F := by
  unfold Store.readFile
  split
  · next F hF => exact hF
  · trivial

theorem returns_readTag {t : Option TagId} :
    Returns (s.readTag t) fun T => ∃ u, t = some u ∧ s.tagHeap.get? u = some T := by
  cases t with
  | none => trivial
  | some u =>
    unfold Store.readTag
    dsimp only
    split
    · next T hT => exact ⟨u, rfl, hT⟩
    · trivial

theorem returns_deref {α : Type} {p : Option α} : Returns (deref p) fun a => p = some a := by
  cases p <;> trivial

theorem returns_fileGetOrCreate : Returns (fileGetOrCreate env s n) fun r =>
    Updates c s r.2 ∧ r.2.files.get? n = some r.1 := by
  apply (sat_fileGetOrCreate trivial trivial).mono
  rintro ⟨f, s'⟩ (⟨hf, hs⟩ | ⟨hf, hr, hs⟩)
  · subst hs
    exact ⟨.refl, hf⟩
  · subst hr hs
    exact ⟨.single (.file env hf), Table.get?_add_self⟩

theorem returns_createDirectoryInode (hP : s.inodeHeap.get? p = some P)
    (hk : (tagGet s k).isSome = true) :
    Returns (createDirectoryInode held s (some p) k) fun r => Updates c s r.2 ∧
      r.2.links = s.links ∧ r.1 = s.inodeHeap.next ∧
        r.2.inodeHeap.get? r.1 = some (directoryInode s P k) := by
  apply (sat_createDirectoryInode hP trivial (.inl trivial) k).mono
  rintro r ⟨hn, rfl⟩
  exact ⟨.single (.directory hP hk hn), rfl, rfl, Heap.get?_alloc_next⟩

theorem returns_tagFile' (hn : s.files.get? n = some f) :
    Returns (tagFile s (tagGet s k) f) fun s' =>
      Updates c s s' ∧ s'.files = s.files := by
  refine returns_iff.mpr fun s' h => ⟨?_, (returns_tagFile.of_ok h).2.1⟩
  cases hk : tagGet s k with
  | none =>
    rw [hk] at h
    cases h
  | some t =>
    rw [hk] at h
    exact .single (.attach hk hn h)

theorem returns_untagFile' (hn : s.files.get? n = some f) :
    Returns (untagFile s (tagGet s k) f) fun s' =>
      Updates c s s' ∧ s'.files = s.files := by
  refine returns_iff.mpr fun s' h => ⟨?_, (returns_untagFile.of_ok h).2.1⟩
  cases hk : tagGet s k with
  | none =>
    rw [hk] at h
    cases h
  | some t =>
    rw [hk] at h
    exact .single (.detach hk hn h)

theorem updates_generation (s : Store) : Updates c s (nextGenNumber s).2 :=
  .single (.generation _)

theorem returns_getattrIntra (realpath filename : CStr) :
    Returns (getattrIntra env s sel realpath filename) fun r => Updates c s r.2.2 := by
  apply (returns_fileGetOrCreate (c := c)).bind
  rintro ⟨f, s'⟩ ⟨hu, -⟩
  dsimp only
  split
  · split_ifs
    · split <;> exact hu
    · exact hu
  · split_ifs
    · exact (returns_true _).bind fun _ _ => hu
    · exact hu
    · exact hu

theorem returns_lookupReply (hI : s.inodeHeap.get? i = some I) (st : Stat)
    {x : Inode → Reply → Prop} (hx : ∀ y : Reply, y.entryIno = some I.number → x I y) :
    Returns (lookupReply s i st) fun r => Counted s r x := by
  rw [lookupReply, sat_readInode hI]
  exact ⟨(nextGenNumber s).2, i, I, _, updates_generation s, hI, rfl, hx _ rfl, rfl⟩

/-- The inode of the file record under `name`. -/
def inodeOfFile (s : Store) (name : CStr) : Option Inode :=
  ((fileGet s name).bind s.fileHeap.get?).bind fun F => s.inodeHeap.get? F.ino

/-- The path under which `open` asks the system for the file `name`. -/
def pathToOpen (env : Env) (s : Store) (name : CStr) : CStr :=
  match (fileGet s name).bind s.fileHeap.get? with
  | some F => F.realpath
  | none => tagRealpath env (appendDir env.realdirpath name)

/-- The system opens the file of the inode. -/
def opens (env : Env) (s : Store) (number : UInt64) (flags : ℤ) : Bool :=
  match ((inodeGet s number).bind s.inodeHeap.get?).bind Inode.name with
  | some name => (env.openFile (pathToOpen env s name) flags).toBool
  | none => false

/-- The record that `file_get_or_create` gives, with the inode of the file. -/
theorem returns_fileGetOrCreate_record : Returns (fileGetOrCreate env s n) fun r =>
    ∀ F, r.2.fileHeap.get? r.1 = some F → F.realpath = pathToOpen env s n ∧
      ∀ I, r.2.inodeHeap.get? F.ino = some I → inodeOfFile s n = some I ∨ I.nlookup = 0 := by
  apply (sat_fileGetOrCreate trivial trivial).mono
  rintro ⟨f, s'⟩ (⟨hf, rfl⟩ | ⟨hf, rfl, rfl⟩) F hF
  · dsimp only at hf hF ⊢
    constructor
    · simp only [pathToOpen, fileGet, hf, Option.bind_some, hF]
    · intro I hI
      left
      simp only [inodeOfFile, fileGet, hf, Option.bind_some, hF, hI]
  · obtain rfl : newFile env s n = F := by
      change (s.fileHeap.alloc (newFile env s n)).get? s.fileHeap.next = some F at hF
      rw [Heap.get?_alloc_next] at hF
      exact Option.some.inj hF
    constructor
    · simp only [pathToOpen, fileGet, hf, Option.bind_none]
      rfl
    · intro I hI
      right
      change (s.inodeHeap.alloc (fileInode env s n)).get? s.inodeHeap.next = some I at hI
      rw [Heap.get?_alloc_next] at hI
      cases hI
      rfl

theorem returns_tagLookup (parentnum : UInt64) (name : CStr) :
    Returns (tagLookup env s parentnum name) fun r =>
      Quiet s r ∨ Counted s r fun I x => x.entryIno = some I.number ∧
        (I.nlookup = 0 ∨ ∃ J, inodeOfFile s name = some J ∧ I.nlookup = J.nlookup) := by
  unfold tagLookup
  split
  · exact .inl (quiet_err _)
  · next p hp =>
    refine returns_readInode_some.bind fun P hP => ?_
    dsimp only
    split
    · split_ifs with hk
      · refine (returns_true _).bind fun sel _ => ?_
        split_ifs
        · exact .inl (quiet_err _)
        · apply (returns_createDirectoryInode (c := False) hP hk).bind
          rintro ⟨i, s'⟩ ⟨hu, -, -, hi⟩
          refine (returns_lookupReply hi _ ?_).mono fun r hr => .inr (hr.after hu)
          exact fun y hy => ⟨hy, .inl rfl⟩
      · exact .inl (quiet_err _)
    · apply ((returns_fileGetOrCreate (c := False)).and returns_fileGetOrCreate_record).bind
      rintro ⟨f, s₁⟩ ⟨⟨hu, -⟩, hrec⟩
      refine returns_readFile.bind fun F hF => ?_
      refine returns_readInode_some.bind fun I hI => ?_
      have hu' : ∀ st, Updates False s (s₁.writeInode F.ino { I with st := st }) :=
        fun st => hu.tail (.inode st hI)
      have hcount : I.nlookup = 0 ∨ ∃ J, inodeOfFile s name = some J ∧ I.nlookup = J.nlookup :=
        ((hrec F hF).2 I hI).symm.imp_right fun h => ⟨I, h, rfl⟩
      have hreply : ∀ st st', Returns (lookupReply (s₁.writeInode F.ino { I with st := st }) F.ino st')
          fun r => Quiet s r ∨ Counted s r fun I x => x.entryIno = some I.number ∧
            (I.nlookup = 0 ∨ ∃ J, inodeOfFile s name = some J ∧ I.nlookup = J.nlookup) := by
        intro st st'
        refine (returns_lookupReply (I := { I with st := st }) (Heap.get?_write_self hI)
          st' ?_).mono fun r hr => .inr (hr.after (hu' st))
        exact fun y hy => ⟨hy, hcount⟩
      dsimp only
      split
      · refine (returns_true _).bind fun sel _ => (returns_true _).bind fun m _ => ?_
        split_ifs
        · exact .inl ((quiet_err _).after (hu' _))
        · exact hreply _ _
        · exact hreply _ _
      · exact hreply _ _

theorem returns_tagOpen (number : UInt64) (flags : ℤ) :
    Returns (tagOpen env s number flags) fun r =>
      Quiet s r ∨ opens env s number flags = true ∧ Counted s r fun _ x => x.entryIno = none := by
  unfold tagOpen
  split
  · exact .inl (quiet_err _)
  · next i hi =>
    refine returns_readInode_some.bind fun I hI => returns_deref.bind fun name hname => ?_
    apply ((returns_fileGetOrCreate (c := False)).and returns_fileGetOrCreate_record).bind
    rintro ⟨f, s₁⟩ ⟨⟨hu, -⟩, hrec⟩
    refine returns_readFile.bind fun F hF => ?_
    have hpath : F.realpath = pathToOpen env s name := (hrec F hF).1
    split
    · exact .inl ((quiet_err _).after hu)
    · next fd hfd =>
      refine returns_readInode_some.bind fun J hJ => .inr ⟨?_, ?_⟩
      · rw [hpath] at hfd
        simp only [opens, hi, hI, hname, Option.bind_some, hfd, Except.toBool]
      · exact ⟨s₁, _, J, _, hu, hJ, rfl, rfl, rfl⟩

theorem returns_tagMkdir (hs : s.Sound) (parentnum : UInt64) (name : CStr) :
    Returns (tagMkdir env s parentnum name) fun r => Updates False s r.2 ∧
      ((∃ e, r = ([.err e], s)) ∨
        s.tags.get? name = none ∧ r.2.links = s.links.registerTag name) := by
  unfold tagMkdir
  split_ifs with hp hk
  · exact ⟨.refl, .inl ⟨_, rfl⟩⟩
  · exact ⟨.refl, .inl ⟨_, rfl⟩⟩
  · have hnone : s.tags.get? name = none := by simpa [tagExist, tagGet] using hk
    have hu : Updates False s (tagGetOrCreate s name).2 := .single (.tag hnone)
    rw [tagGetOrCreate_new hnone] at hu ⊢
    set s₁ : Store := { s with
      tags := s.tags.add name s.tagHeap.next
      tagHeap := s.tagHeap.alloc (tagNew name) }
    have hreg : (tagGet s₁ name).isSome = true := congrArg Option.isSome Table.get?_add_self
    dsimp only
    cases hroot : inodeGet s₁ 1 with
    | none => exact trivial
    | some p =>
      obtain ⟨P, hP, -⟩ := (hu.sound' hs).indexed.live hroot
      apply (returns_createDirectoryInode (c := False) hP hreg).bind
      rintro ⟨i, s₂⟩ ⟨hu₂, hl, -, -⟩
      refine (returns_true _).bind fun I _ => ?_
      exact ⟨(hu.trans hu₂).trans (updates_generation s₂), .inr ⟨hnone, hl⟩⟩

theorem returns_tagMknod (parent : UInt64) (name : CStr) (mode rdev : ℕ) :
    Returns (tagMknod env s parent name mode rdev) fun r => Updates False s r.2 := by
  unfold tagMknod
  split_ifs
  · exact .refl
  · exact .refl
  · split
    · exact .refl
    · apply (returns_fileGetOrCreate (c := False)).bind
      rintro ⟨f, s₁⟩ ⟨hu, -⟩
      refine (returns_true _).bind fun F _ => ?_
      refine returns_readInode_some.bind fun I hI => ?_
      exact (hu.trans (updates_generation s₁)).tail (.inode _ hI)

theorem returns_tagLink (number newparent : UInt64) (newname : CStr) :
    Returns (tagLink env s number newparent newname) fun r => Updates False s r.2 := by
  refine (returns_true _).bind fun fileino _ => ?_
  split_ifs
  · exact .refl
  · refine (returns_true _).bind fun name _ => ?_
    split_ifs
    · exact .refl
    · refine (returns_true _).bind fun P _ => ?_
      split_ifs
      · exact .refl
      · apply (returns_fileGetOrCreate (c := False)).bind
        rintro ⟨f, s₁⟩ ⟨hu, hf⟩
        refine (returns_true _).bind fun tagname _ => ?_
        exact (returns_tagFile' hf).bind fun s₂ hs₂ =>
          ((updates_generation s).trans hu).trans hs₂.1

theorem returns_tagGetattr (number : UInt64) :
    Returns (tagGetattr env s number) fun r => Quiet s r := by
  unfold tagGetattr
  split
  · exact quiet_err _
  · refine (returns_true _).bind fun I _ => (returns_true _).bind fun path _ => ?_
    split
    · exact quiet_err _
    · exact ⟨.refl, by simp [Reply.entryIno]⟩

theorem returns_tagOpendir (number : UInt64) :
    Returns (tagOpendir s number) fun r => Quiet s r := by
  unfold tagOpendir
  split
  · exact quiet_err _
  · refine (returns_true _).bind fun I _ => ?_
    split_ifs
    · exact quiet_err _
    · exact ⟨.refl, by simp [Reply.entryIno]⟩

theorem returns_tagUnlink (parentnum : UInt64) (name : CStr) :
    Returns (tagUnlink s parentnum name) fun r => Quiet s r := by
  unfold tagUnlink
  split_ifs
  · exact quiet_err _
  · split
    · exact quiet_err _
    · next f hf =>
      refine (returns_true _).bind fun P _ => ?_
      split_ifs
      · exact quiet_err _
      · refine (returns_true _).bind fun sel _ => ?_
        split_ifs
        · exact quiet_err _
        · refine (returns_true _).bind fun k _ => ?_
          have hun := returns_untagFile' (c := False) (s := s) (k := k) hf
          split
          · exact quiet_err _
          · next t ht =>
            rw [ht] at hun
            exact hun.bind fun s' hs' => (quiet_err 0).after hs'.1

theorem returns_tagRename (parent : UInt64) (name : CStr) (newparent : UInt64) :
    Returns (tagRename s parent name newparent) fun r => Quiet s r := by
  unfold tagRename
  split_ifs
  · exact quiet_err _
  · split
    · next op np f _ _ hf =>
      refine (returns_true _).bind fun O _ => (returns_true _).bind fun N _ => ?_
      split_ifs
      · exact quiet_err _
      · -- the file stays registered throughout both loops
        have hf₀ : s.files.get? name = some f := hf
        refine Sat.bind (sat_forEach_mem (I := fun s' => Updates False s s' ∧
          s'.files.get? name = some f) ?_ ⟨.refl, hf₀⟩) ?_
        · rintro j - s' ⟨hu, hn⟩
          refine (returns_true _).bind fun k _ => ?_
          exact (returns_untagFile' hn).mono fun s'' h => ⟨hu.trans h.1, h.2 ▸ hn⟩
        · rintro s₁ ⟨hu₁, hn₁⟩
          refine Sat.bind (sat_forEach_mem (I := fun s' => Updates False s s' ∧
            s'.files.get? name = some f) ?_ ⟨hu₁, hn₁⟩) ?_
          · rintro j - s' ⟨hu, hn⟩
            refine (returns_true _).bind fun k _ => ?_
            exact (returns_tagFile' hn).mono fun s'' h => ⟨hu.trans h.1, h.2 ▸ hn⟩
          · exact fun s₂ h => (quiet_err 0).after h.1
    · exact quiet_err _

theorem returns_tagSetattr (number : UInt64) (mode : Option Bool) :
    Returns (tagSetattr env s number mode) fun r => Quiet s r := by
  unfold tagSetattr
  split
  · exact quiet_err _
  · refine (returns_true _).bind fun I _ => ?_
    split_ifs
    · exact quiet_err _
    · refine (returns_true _).bind fun name _ => ?_
      apply (returns_fileGetOrCreate (c := False)).bind
      rintro ⟨f, s₁⟩ ⟨hu, -⟩
      refine (returns_true _).bind fun F _ => returns_readInode_some.bind fun J hJ => ?_
      exact ⟨hu.tail (.inode _ hJ), by simp [Reply.entryIno]⟩

theorem replyBufLimited_entryIno (buf : List UInt8) (off : ℤ) (size : ℕ) :
    (replyBufLimited buf off size).entryIno = none := by
  unfold replyBufLimited
  split_ifs <;> rfl

theorem returns_tagRead (number : UInt64) (size : ℕ) (off fh : ℤ) :
    Returns (tagRead env s number size off fh) fun r => Quiet s r := by
  unfold tagRead
  split
  · exact quiet_err _
  · refine (returns_true _).bind fun I _ => (returns_true _).bind fun res _ => ?_
    split
    · exact quiet_err _
    · exact ⟨.refl, by simp [replyBufLimited_entryIno]⟩

theorem returns_tagWrite (number : UInt64) (buf : List UInt8) (off fh : ℤ) :
    Returns (tagWrite env s number buf off fh) fun r => Quiet s r := by
  unfold tagWrite
  split
  · exact quiet_err _
  · refine (returns_true _).bind fun I _ => ?_
    split_ifs
    · exact quiet_err _
    · split
      · exact quiet_err _
      · exact ⟨.refl, by simp [Reply.entryIno]⟩

theorem ioctlErrors_entryIno (I : Inode) (compat : Bool) :
    ∀ x ∈ ioctlErrors I compat, x.entryIno = none := by
  intro x hx
  unfold ioctlErrors at hx
  rcases List.mem_append.mp hx with hx | hx
  all_goals
    split_ifs at hx
    · rw [List.mem_singleton.mp hx]
      rfl
    · cases hx

theorem returns_ioctlReadTags : Returns (ioctlReadTags env s f) fun rs =>
    ∃ size writes, rs = [.ioctl size writes] :=
  (returns_true _).bind fun _ _ => ⟨_, _, rfl⟩

theorem returns_tagIoctl (number : UInt64) (readTags compat : Bool) :
    Returns (tagIoctl env s number readTags compat) fun r => Quiet s r := by
  unfold tagIoctl
  split
  · exact quiet_err _
  · refine (returns_true _).bind fun I _ => ?_
    dsimp only
    have herr := ioctlErrors_entryIno I compat
    split
    · refine (returns_true _).bind fun name _ => ?_
      apply (returns_fileGetOrCreate (c := False)).bind
      rintro ⟨f, s₁⟩ ⟨hu, -⟩
      apply returns_ioctlReadTags.bind
      rintro - ⟨size, writes, rfl⟩
      refine ⟨hu, fun x hx => ?_⟩
      rcases List.mem_append.mp hx with hx | hx
      · exact herr x hx
      · rw [List.mem_singleton.mp hx]
        rfl
    · refine ⟨.refl, fun x hx => ?_⟩
      rcases List.mem_append.mp hx with hx | hx
      · exact herr x hx
      · rw [List.mem_singleton.mp hx]
        rfl

theorem returns_readdirListFiles (b : List UInt8) :
    Returns (readdirListFiles env s b sel) fun r => Updates False s r.2 := by
  refine sat_forEach_mem (I := fun r : Listing => Updates False s r.2) ?_ .refl
  rintro d - r hu
  split_ifs
  · exact hu
  · refine (returns_getattrIntra (c := False) _ _).bind fun q hq => ?_
    dsimp only
    split_ifs <;> exact hu.trans hq

theorem returns_readdirGetSelectedFiles (hs : s.links.Sound) :
    Returns (readdirGetSelectedFiles s sel) fun r =>
      ∀ e ∈ r.entries, s.files.get? e.1 = some e.2 := by
  have hadd : ∀ (r : HashTable FileId) (F : File) (f : FileId),
      (∀ e ∈ r.entries, s.files.get? e.1 = some e.2) → s.files.get? F.name = some f →
        ∀ e ∈ (r.addNew F.name f).entries, s.files.get? e.1 = some e.2 := by
    intro r F f hr hf e he
    unfold Table.addNew at he
    split_ifs at he
    · exact hr e he
    · rcases List.mem_append.mp he with he | he
      · exact hr e he
      · rw [List.mem_singleton.mp he]
        exact hf
  refine Sat.bind (sat_forEach_mem (I := fun r : HashTable FileId =>
    ∀ e ∈ r.entries, s.files.get? e.1 = some e.2) ?_ (by simp)) ?_
  · rintro ⟨k, t⟩ - r hr
    apply returns_readTag.bind
    rintro T ⟨u, rfl, hT⟩
    refine sat_forEach_mem ?_ hr
    rintro ⟨n, f⟩ he r hr
    refine returns_readFile.bind fun F hF => (returns_true _).bind fun _ _ => ?_
    have hf : s.files.get? n = some f :=
      hs.member ((linked_iff hT).mpr (((hs.tagFiles hT).get?_eq_some).mpr he))
    exact hadd r F f hr (by rw [hs.files.key_eq hf hF]; exact hf)
  · intro r hr
    refine sat_forEach_mem ?_ hr
    rintro e - r hr
    refine sat_forEach_mem ?_ hr
    rintro e' - r hr
    refine (returns_true _).bind fun F _ => (returns_true _).bind fun T _ => ?_
    split_ifs
    · exact hr
    · refine (returns_true _).bind fun _ _ e he => hr e ?_
      exact Table.entries_erase_sublist.subset he

theorem returns_readdirFillRemainingTags (hs : s.links.Sound) (hP : s.inodeHeap.get? p = some P)
    {files : HashTable FileId} (hfiles : ∀ e ∈ files.entries, s.files.get? e.1 = some e.2)
    (b : List UInt8) : Returns (readdirFillRemainingTags env s p sel files b) fun r =>
      Updates False s r.2 := by
  refine Sat.bind (sat_forEach_mem (I := fun r : HashTable TagId × Listing =>
    Updates False s r.2.2 ∧ r.2.2.links = s.links) ?_ ⟨.refl, rfl⟩) fun r hr => hr.1
  rintro ⟨n, f⟩ hf ⟨rem, b, s₁⟩ ⟨hu, hl⟩
  have hf₁ : s₁.links.files.get? n = some f := by
    rw [hl]
    exact hfiles _ hf
  refine returns_readFile.bind fun F hF => ?_
  refine sat_forEach_mem ?_ ⟨hu, hl⟩
  rintro ⟨k, t⟩ ht ⟨rem, b, s₂⟩ ⟨hu, hl₂⟩
  have hs₁ : s₁.links.Sound := hl ▸ hs
  have hk : s₁.links.tags.get? k = some t := hs₁.registered hf₁
    ((linked_iff hF).mpr (((hs₁.fileTags hF).get?_eq_some).mpr ht))
  have hk₂ : s₂.links.tags.get? k = some t := by
    rw [hl₂, ← hl]
    exact hk
  apply returns_readTag.bind
  rintro T ⟨u, hu', hT⟩
  cases hu'
  have hv : T.value = k := (hl₂ ▸ hs : s₂.links.Sound).tags.key_eq hk₂ hT
  dsimp only
  split_ifs
  · obtain ⟨st, m, hP', -⟩ := hu.kept hP
    have hreg : (tagGet s₂ T.value).isSome = true := by
      rw [hv]
      exact congrArg Option.isSome hk₂
    apply (returns_createDirectoryInode (c := False) hP' hreg).bind
    rintro ⟨i, s₃⟩ ⟨hu₃, hl₃, -, -⟩
    refine (returns_true _).bind fun I _ => (returns_true _).bind fun _ _ => ?_
    exact ⟨hu.trans hu₃, hl₃.trans hl₂⟩
  · exact ⟨hu, hl₂⟩

theorem returns_tagReaddir (hs : s.Sound) (number : UInt64) (size : ℕ) (off : ℤ)
    (fh : Option InodeId) : Returns (tagReaddir env s number size off fh) fun r => Quiet s r := by
  unfold tagReaddir
  split
  · exact quiet_err _
  · next p =>
    refine returns_readInode_some.bind fun P hP => ?_
    split
    · exact quiet_err _
    · refine (returns_true _).bind fun sel _ => ?_
      refine Sat.bind (P := fun r : Listing => Updates False s r.2) ?_ ?_
      · split
        · exact (returns_readdirGetSelectedFiles hs.links).bind fun files hfiles =>
            returns_readdirFillRemainingTags hs.links hP hfiles _
        · exact (returns_true _).bind fun b _ => .refl
      · rintro ⟨b, s₁⟩ hu
        refine (returns_readdirListFiles b).bind fun r hr => ?_
        exact ⟨hu.trans hr, by simp [replyBufLimited_entryIno]⟩

/-- Neither `rmdir` nor `forget`, nor a request that answers with an entry, nor `open`. -/
def Callback.isQuiet : Callback → Bool
  | .lookup .. | .forget .. | .openFile .. | .link .. | .mkdir .. | .rmdir .. | .mknod .. => false
  | _ => true

theorem returns_call_quiet (hs : s.Sound) {c : Callback} (hc : c.isQuiet = true) :
    Returns (call env s c) fun r => Quiet s r := by
  cases c with
  | getattr ino => exact returns_tagGetattr ino
  | read ino size off fh => exact returns_tagRead ino size off fh
  | write ino buf off fh => exact returns_tagWrite ino buf off fh
  | release fh => exact quiet_err _
  | opendir ino => exact returns_tagOpendir ino
  | readdir ino size off fh => exact returns_tagReaddir hs ino size off fh
  | releasedir => exact quiet_err _
  | unlink parent name => exact returns_tagUnlink parent name
  | rename parent name newparent newname => exact returns_tagRename parent name newparent
  | setattr ino mode => exact returns_tagSetattr ino mode
  | ioctl ino readTags compat => exact returns_tagIoctl ino readTags compat
  | lookup | forget | openFile | link | mkdir | rmdir | mknod => cases hc

theorem returns_call (hs : s.Sound) {c : Callback} (hr : ∀ parent name, c ≠ .rmdir parent name)
    (hf : ∀ ino n, c ≠ .forget ino n) : Returns (call env s c) fun r => Updates True s r.2 := by
  cases hq : c.isQuiet with
  | true => exact (returns_call_quiet hs hq).mono fun r h => h.updates
  | false =>
    cases c with
    | lookup parent name =>
      exact (returns_tagLookup parent name).mono fun r h => h.elim Quiet.updates Counted.updates
    | openFile ino flags =>
      exact (returns_tagOpen ino flags).mono fun r h =>
        h.elim Quiet.updates fun h => Counted.updates h.2
    | link ino newparent newname =>
      exact (returns_tagLink ino newparent newname).mono fun r h => h.mono False.elim
    | mkdir parent name =>
      exact (returns_tagMkdir hs parent name).mono fun r h => h.1.mono False.elim
    | mknod parent name mode rdev =>
      exact (returns_tagMknod parent name mode rdev).mono fun r h => h.mono False.elim
    | rmdir parent name => exact absurd rfl (hr parent name)
    | forget ino n => exact absurd rfl (hf ino n)
    | getattr | read | write | release | opendir | readdir | releasedir | unlink | rename
    | setattr | ioctl => cases hq

theorem returns_tagRmdir (parentnum : UInt64) (name : CStr) :
    Returns (tagRmdir s parentnum name) fun r => parentnum ≠ 1 ∧ r = ([.err EPERM], s) ∨
      parentnum = 1 ∧ r.1 = [.err 0] ∧ ∃ t, s.tags.get? name = some t ∧
        tagRemove s (some t) = .ok r.2 := by
  unfold tagRmdir
  split_ifs with hp
  · exact .inl ⟨hp, rfl⟩
  · refine Sat.bind_eq (returns_true _) fun s' hs' _ => .inr ⟨not_not.mp hp, rfl, ?_⟩
    cases ht : tagGet s name with
    | none =>
      rw [ht] at hs'
      cases hs'
    | some t =>
      rw [ht] at hs'
      exact ⟨t, ht, hs'⟩

theorem uint64_sub_eq_zero {a b : UInt64} : a - b = 0 ↔ a = b := by
  constructor
  · intro h
    rw [← UInt64.sub_add_cancel a b, h, UInt64.zero_add]
  · rintro rfl
    exact UInt64.sub_self a

theorem returns_inodeDeleteIfNoref (hI : s.inodeHeap.get? i = some I) :
    Returns (inodeDeleteIfNoref s i) fun s' =>
      ¬(I.number ≠ 1 ∧ I.nlookup = 0) ∧ s' = s ∨ (I.number ≠ 1 ∧ I.nlookup = 0) ∧
        s' = { s with itable := s.itable.eraseValue i, inodeHeap := s.inodeHeap.free i } := by
  rw [inodeDeleteIfNoref, sat_readInode hI]
  change Returns (ite _ _ _) _
  split_ifs with h
  · exact .inr ⟨h, rfl⟩
  · exact .inl ⟨h, rfl⟩

/-- `forget` of an inode lowers its lookup count, and deletes it when that has become 0. -/
theorem returns_tagForget (number nlookup : UInt64) :
    Returns (tagForget s number nlookup) fun r => r.1 = [.noReply] ∧
      (inodeGet s number = none ∧ r.2 = s ∨
        ∃ i I, inodeGet s number = some i ∧ s.inodeHeap.get? i = some I ∧
          (¬(I.number ≠ 1 ∧ I.nlookup = nlookup) ∧
            r.2 = s.writeInode i { I with nlookup := I.nlookup - nlookup } ∨
          I.number ≠ 1 ∧ I.nlookup = nlookup ∧ r.2 = { s with
            itable := s.itable.eraseValue i
            inodeHeap := s.inodeHeap.free i })) := by
  unfold tagForget
  split
  · next hi => exact ⟨rfl, .inl ⟨hi, rfl⟩⟩
  · next i hi =>
    refine returns_readInode_some.bind fun I hI => ?_
    apply (returns_inodeDeleteIfNoref (Heap.get?_write_self hI)).bind
    simp only [uint64_sub_eq_zero]
    rintro s' (⟨hn, rfl⟩ | ⟨hn, rfl⟩)
    · exact ⟨rfl, .inr ⟨i, I, hi, hI, .inl ⟨hn, rfl⟩⟩⟩
    · refine ⟨rfl, .inr ⟨i, I, hi, hI, .inr ⟨hn.1, hn.2, ?_⟩⟩⟩
      simp only [Store.writeInode, Heap.free_write]

end TagFilesystem.FuseLowlevel
