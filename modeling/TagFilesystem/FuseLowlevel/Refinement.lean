import TagFilesystem.FuseLowlevel.Seen

namespace TagFilesystem.FuseLowlevel

variable {c : Prop} {env : Env} {s s' : Store} {e : Event} {k n name : CStr} {t : TagId} {f : FileId}
  {F : File} {i p : InodeId} {I J P : Inode} {number : UInt64} {x : Node}
  {sel : HashTable (Option TagId)} {C : Catalogue CStr CStr} {ks : List CStr}

structure Store.Orderly (s : Store) : Prop where
  sound : s.Sound
  described : s.Described
  live : AllSelectLive s
  formed : s.Formed
  paths : s.Paths

/-- What the request has done is possible in the view. -/
def Follows (s : Store) (e : Event) (r : Outcome) : Prop :=
  r.2.inodeHeap.next ≤ UInt32.size → ViewStep s.view e r.1 r.2.view

namespace Store.Orderly

theorem tag_eq_nil (h : s.Orderly) (hmax : s.inodeHeap.next ≤ UInt32.size)
    (hI : s.inodeHeap.get? i = some I) (hdir : I.isDirectory = true) : I.tag = [] ↔ I.number = 1 := by
  rw [(h.paths.directory hI hdir).2, h.sound.indexed.number hI]
  constructor
  · rintro rfl
    rfl
  · intro hnum
    exact numberAt_inj ((Heap.lt_next hI).trans_le hmax) (show 0 < UInt32.size by decide) hnum

theorem root_directory (h : s.Orderly) (hmax : s.inodeHeap.next ≤ UInt32.size)
    (hI : s.inodeHeap.get? i = some I) (hnum : I.number = 1) : I.isDirectory = true := by
  rw [h.sound.indexed.number hI] at hnum
  obtain rfl : i = 0 :=
    numberAt_inj ((Heap.lt_next hI).trans_le hmax) (show 0 < UInt32.size by decide) hnum
  exact h.paths.root hI

theorem selects (h : s.Orderly) (hI : s.inodeHeap.get? i = some I)
    (hsel : I.selectedTags = some sel) : I.isDirectory = true ∧ Selects s sel ∧ sel.keys = I.tag := by
  have hdir : I.isDirectory = true := by
    by_contra hfile
    have hnone := h.paths.file hI (Bool.eq_false_iff.mpr hfile)
    rw [hsel] at hnone
    cases hnone
  obtain ⟨sel', hsel', hkeys⟩ := (h.paths.directory hI hdir).1.selects
  obtain rfl := Option.some.inj (hsel.symm.trans hsel')
  exact ⟨hdir, (h.live i I hI).selects sel hsel, hkeys⟩

theorem node_isSome (h : s.Orderly) (hi : inodeGet s number = some i)
    (hI : s.inodeHeap.get? i = some I) : I.number = number ∧ ∃ x, I.node = some x ∧
      s.node number = some x ∧ I.tag.take I.ntag = x.tags ∧ I.ntag = x.tags.length := by
  obtain ⟨J, hJ, hnum⟩ := h.sound.indexed.live hi
  obtain rfl := Option.some.inj (hI.symm.trans hJ)
  refine ⟨hnum, ?_⟩
  rw [node_of_inodeGet hi hI]
  cases hdir : I.isDirectory with
  | true =>
    have hrec := (h.paths.directory hI hdir).1
    refine ⟨_, I.node_directory hdir, I.node_directory hdir, ?_, hrec.ntag⟩
    rw [hrec.ntag, List.take_length]
    rfl
  | false =>
    obtain ⟨name, realpath, hx, -, -, -, hntag⟩ := h.formed.fileNode hI hdir
    exact ⟨_, hx, hx, by rw [hntag]; rfl, hntag⟩

theorem isTagfile_eq (h : s.Orderly) (hI : s.inodeHeap.get? i = some I) (hx : I.node = some x) :
    I.isTagfile = x.isTagfile := by
  cases hdir : I.isDirectory with
  | true =>
    obtain rfl := Option.some.inj ((I.node_directory hdir).symm.trans hx)
    exact h.formed.directory hI hdir
  | false =>
    obtain ⟨name, realpath, hfile, -, -, htag, -⟩ := h.formed.fileNode hI hdir
    obtain rfl := Option.some.inj (hfile.symm.trans hx)
    exact htag

theorem used_of_mem (h : s.Orderly) (hI : s.inodeHeap.get? i = some I) (hx : I.node = some x)
    (hk : k ∈ x.tags) : s.catalogue.used k := by
  cases hdir : I.isDirectory with
  | true =>
    obtain rfl := Option.some.inj ((I.node_directory hdir).symm.trans hx)
    obtain ⟨sel, hsel, hkeys⟩ := (h.paths.directory hI hdir).1.selects
    obtain ⟨e, he, rfl⟩ := List.mem_map.mp (show k ∈ sel.keys from hkeys ▸ hk)
    obtain ⟨t, -, hreg⟩ := (h.live i I hI).selects sel hsel e he
    exact congrArg Option.isSome hreg
  | false =>
    obtain ⟨name, realpath, hfile, -⟩ := h.formed.fileNode hI hdir
    obtain rfl := Option.some.inj (hfile.symm.trans hx)
    cases hk

end Store.Orderly

theorem node_congr (h : s'.inodes = s.inodes) : s'.node = s.node := by
  have htable : s'.itable = s.itable := congrArg Prod.fst h
  have hheap : s'.inodeHeap = s.inodeHeap := congrArg (·.2.1) h
  funext number
  simp only [Store.node, inodeGet, htable, hheap]

theorem node_writeInode (hI : s.inodeHeap.get? i = some I) (hJ : J.node = I.node) :
    (s.writeInode i J).node = s.node := by
  funext number
  show ((inodeGet s number).bind (s.inodeHeap.write i J).get?).bind Inode.node = _
  rw [Store.node]
  cases inodeGet s number with
  | none => rfl
  | some j =>
    simp only [Option.bind_some, Heap.get?_write]
    split_ifs with hj
    · subst hj
      simp [hI, hJ]
    · rfl

theorem view_writeInode (hI : s.inodeHeap.get? i = some I) (hJ : J.node = I.node) :
    (s.writeInode i J).view = s.view :=
  congrArg₂ View.mk (catalogue_of_links rfl) (node_writeInode hI hJ)

theorem returns_fileGetOrCreate_touches (h : s.Orderly) (hI : s.inodeHeap.get? i = some I)
    (hname : I.name = some n) (hx : I.node = some x) : Returns (fileGetOrCreate env s n) fun r =>
      Updates False s r.2 ∧ r.2.files.get? n = some r.1 ∧
        (r.2.inodeHeap.next ≤ UInt32.size → s.view.Touches r.2.view x) := by
  refine ((returns_fileGetOrCreate (c := False)).and (returns_fileGetOrCreate_catalogue.and
    (sat_fileGetOrCreate trivial trivial))).mono ?_
  rintro ⟨f, s'⟩ ⟨⟨hu, hf⟩, hcat, hcases⟩
  refine ⟨hu, hf, fun hmax => ?_⟩
  cases x with
  | directory tags => exact hu.grows h.sound hmax hcat
  | file name realpath =>
    obtain ⟨m, f', hm, hf', -⟩ := h.described.file hI (Inode.isDirectory_eq hx)
    obtain rfl := Option.some.inj (hname.symm.trans hm)
    obtain ⟨-, hsame⟩ | ⟨hnone, -⟩ := hcases
    · exact congrArg Store.view hsame
    · rw [hf'] at hnone
      cases hnone

theorem follows_open (h : s.Orderly) (number : UInt64) (flags : ℤ) :
    Returns (tagOpen env s number flags) (Follows s ⟨env, .openFile number flags⟩) := by
  unfold tagOpen
  split
  · next hi => exact fun _ => .openUnknown (node_none hi)
  · next i hi =>
    refine returns_readInode_some.bind fun I hI => ?_
    obtain ⟨-, x, hx, hnode, -⟩ := h.node_isSome hi hI
    refine returns_deref.bind fun name hname => ?_
    apply (returns_fileGetOrCreate_touches h hI hname hx).bind
    rintro ⟨f, s₁⟩ ⟨-, -, ht⟩
    refine returns_readFile.bind fun F _ => ?_
    have hreply {r : Reply} (hr : openReply env F.realpath flags = r) {s' : Store}
        (hview : s'.view = s₁.view) (hmax : s₁.inodeHeap.next ≤ UInt32.size) :
        ViewStep s.view ⟨env, .openFile number flags⟩ [r] s'.view := by
      rw [← hr, hview]
      exact .openFile hnode (ht hmax)
    split
    · next e he => exact hreply (by rw [openReply, he]) rfl
    · next fd hfd =>
      refine returns_readInode_some.bind fun J hJ hmax => ?_
      exact hreply (by rw [openReply, hfd]) (view_writeInode hJ rfl)
        (Heap.next_write.symm.trans_le hmax)

theorem follows_setattr (h : s.Orderly) (number : UInt64) (mode : Option Bool) :
    Returns (tagSetattr env s number mode) (Follows s ⟨env, .setattr number mode⟩) := by
  unfold tagSetattr
  split
  · next hi =>
    refine fun _ => .setattrRefused fun name p hx => ?_
    rw [show s.view.node number = none from node_none hi] at hx
    cases hx
  · next i hi =>
    refine returns_readInode_some.bind fun I hI => ?_
    have hnode : s.node number = I.node := node_of_inodeGet hi hI
    split_ifs with hdir
    · refine fun _ => .setattrRefused fun name p hx => ?_
      rw [show s.view.node number = I.node from hnode, I.node_directory hdir] at hx
      cases hx
    · obtain ⟨name, realpath, hx, -⟩ := h.formed.fileNode hI (by simpa using hdir)
      refine returns_deref.bind fun name' hname' => ?_
      apply (returns_fileGetOrCreate_touches h hI hname' hx).bind
      rintro ⟨f, s₁⟩ ⟨-, -, ht⟩
      refine returns_readFile.bind fun F _ => returns_readInode_some.bind fun J hJ hmax => ?_
      have hview : s₁.view = s.view := ht (Heap.next_write.symm.trans_le hmax)
      have hreply {st : Stat} (hst : ∀ isDir ∈ mode, st.isDir = isDir) {s' : Store}
          (hsame : s'.view = s₁.view) :
          ViewStep s.view ⟨env, .setattr number mode⟩ [.attr st] s'.view := by
        rw [hsame, hview]
        exact .setattr (hnode.trans hx) hst
      refine hreply (fun isDir hmode => ?_) (view_writeInode hJ rfl)
      rw [Option.mem_def.mp hmode]
      rfl

theorem follows_ioctl (h : s.Orderly) (number : UInt64) (readTags compat : Bool) :
    Returns (tagIoctl env s number readTags compat)
      (Follows s ⟨env, .ioctl number readTags compat⟩) := by
  unfold tagIoctl
  split
  · next hi => exact fun _ => .ioctlUnknown (node_none hi)
  · next i hi =>
    refine returns_readInode_some.bind fun I hI => ?_
    obtain ⟨-, x, hx, hnode, -⟩ := h.node_isSome hi hI
    have hchecks : ioctlErrors I compat = ioctlChecks x compat := by
      rw [ioctlErrors, ioctlChecks, h.isTagfile_eq hI hx, Inode.isDirectory_eq hx]
    dsimp only
    rw [hchecks]
    cases readTags with
    | false => exact fun _ => .ioctlInvalid hnode
    | true =>
      refine returns_deref.bind fun name hname => ?_
      apply (returns_fileGetOrCreate_touches h hI hname hx).bind
      rintro ⟨f, s₁⟩ ⟨-, -, ht⟩
      apply returns_ioctlReadTags.bind
      rintro - ⟨size, writes, rfl⟩
      exact fun hmax => .ioctl hnode (ht hmax)

theorem view_forgets (hs : s.Indexed) (hmax : s.inodeHeap.next ≤ UInt32.size)
    (hI : s.inodeHeap.get? i = some I) (hnum : I.number = number) :
    Store.view { s with
      itable := s.itable.eraseValue i
      inodeHeap := s.inodeHeap.free i } = s.view.forgets number := by
  refine congrArg (View.mk s.catalogue) (funext fun m => Option.ext fun x => ?_)
  have hmax' : (s.inodeHeap.free i).next ≤ UInt32.size := by rwa [Heap.next_free]
  have hother {j : InodeId} {J : Inode} (hJ : s.inodeHeap.get? j = some J) :
      j ≠ i ↔ J.number ≠ number := by
    refine not_congr ⟨?_, fun hn => ?_⟩
    · rintro rfl
      rw [← hnum, Option.some.inj (hJ.symm.trans hI)]
    · rw [← hnum, hs.number hJ, hs.number hI] at hn
      exact numberAt_inj ((Heap.lt_next hJ).trans_le hmax) ((Heap.lt_next hI).trans_le hmax) hn
  apply (node_eq_some hs.delete hmax').trans
  show _ ↔ (if m = number then none else s.node m) = some x
  split_ifs with hm
  · refine iff_of_false ?_ (by simp)
    rintro ⟨j, J, hJ, hn, -⟩
    obtain ⟨hne, hJ⟩ := Heap.of_get?_free hJ
    exact (hother hJ).mp hne (hn.trans hm)
  · rw [node_eq_some hs hmax]
    constructor
    · rintro ⟨j, J, hJ, hn, hx⟩
      exact ⟨j, J, (Heap.of_get?_free hJ).2, hn, hx⟩
    · rintro ⟨j, J, hJ, hn, hx⟩
      refine ⟨j, J, ?_, hn, hx⟩
      show (s.inodeHeap.free i).get? j = some J
      rw [Heap.get?_free, if_neg ((hother hJ).mpr (hn ▸ hm)), hJ]

theorem follows_forget (h : s.Orderly) (number nlookup : UInt64) :
    Returns (tagForget s number nlookup) (Follows s ⟨env, .forget number nlookup⟩) := by
  apply (returns_tagForget number nlookup).mono
  rintro ⟨rs, s'⟩ ⟨hrs, hs'⟩ hmax
  dsimp only at hrs hs' hmax ⊢
  subst hrs
  obtain ⟨-, rfl⟩ | ⟨i, I, hi, hI, ⟨-, rfl⟩ | ⟨hne, -, rfl⟩⟩ := hs'
  · exact .forget
  · have hview : Store.view (s.writeInode i { I with nlookup := I.nlookup - nlookup }) = s.view :=
      congrArg (View.mk s.catalogue) (node_writeInode hI rfl)
    rw [hview]
    exact .forget
  · have hnum := (h.node_isSome hi hI).1
    rw [view_forgets h.sound.indexed (by simpa using hmax) hI hnum]
    exact .forgetLast (hnum ▸ hne)

theorem follows_getattr (h : s.Orderly) (number : UInt64) :
    Returns (tagGetattr env s number) (Follows s ⟨env, .getattr number⟩) := by
  unfold tagGetattr
  split
  · next hi => exact fun _ => .getattrUnknown (node_none hi)
  · next i hi =>
    refine returns_readInode_some.bind fun I hI => ?_
    obtain ⟨hnum, x, hx, hnode, -⟩ := h.node_isSome hi hI
    have htag := h.isTagfile_eq hI hx
    -- a directory is asked for in place of a tag
    have hpath : Returns (if I.isDirectory = true then .ok env.realdirpath else deref I.realpath)
        fun path => path = x.statPath env := by
      cases hdir : I.isDirectory with
      | true =>
        obtain rfl := Option.some.inj ((I.node_directory hdir).symm.trans hx)
        rfl
      | false =>
        obtain ⟨name, realpath, hfile, -, hreal, -⟩ := h.formed.fileNode hI hdir
        obtain rfl := Option.some.inj (hfile.symm.trans hx)
        rw [hreal]
        rfl
    refine hpath.bind fun path hp => ?_
    subst hp
    split
    · next hst => exact fun _ => .getattrFailed hnode hst
    · next st hst =>
      intro _
      have hstat : (if I.isTagfile = true then
            ({ st with stIno := I.number.toNat, stSize := LONG_MAX } : Stat)
          else { st with stIno := I.number.toNat }) = inodeStat st number x.isTagfile := by
        rw [inodeStat, hnum, htag]
        split_ifs <;> rfl
      show ViewStep s.view _ [.attr (if I.isTagfile = true then _ else _)] _
      rw [hstat]
      exact .getattr hnode hst

theorem follows_opendir (h : s.Orderly) (number : UInt64) :
    Returns (tagOpendir s number) (Follows s ⟨env, .opendir number⟩) := by
  unfold tagOpendir
  split
  · next hi => exact fun _ => .opendirUnknown (node_none hi)
  · next i hi =>
    refine returns_readInode_some.bind fun I hI => ?_
    have hnode : s.node number = I.node := node_of_inodeGet hi hI
    split_ifs with hdir
    · obtain ⟨name, realpath, hx, -⟩ := h.formed.fileNode hI hdir
      exact fun _ => .opendirFile (hnode.trans hx)
    · exact fun _ => .opendir (hnode.trans (I.node_directory (by simpa using hdir)))

theorem returns_readTagFile (size : ℕ) (off : ℤ) : Returns (readTagFile env s size off) fun res =>
    off < 0 ∧ res = .error EINVAL ∨ 0 ≤ off ∧ ∃ text : CStr,
      finishRead env (((text.drop off.toNat).take size).map Subtype.val) size = .ok res := by
  refine (returns_true _).bind fun text _ => ?_
  split_ifs with hoff
  · exact .inl ⟨hoff, rfl⟩
  · exact returns_iff.mpr fun res hres => .inr ⟨Int.not_lt.mp hoff, text, hres⟩

theorem follows_read (h : s.Orderly) (number : UInt64) (size : ℕ) (off fh : ℤ) :
    Returns (tagRead env s number size off fh) (Follows s ⟨env, .read number size off fh⟩) := by
  unfold tagRead
  split
  · next hi => exact fun _ => .readUnknown (node_none hi)
  · next i hi =>
    refine returns_readInode_some.bind fun I hI => ?_
    obtain ⟨-, x, hx, hnode, -⟩ := h.node_isSome hi hI
    have htag := h.isTagfile_eq hI hx
    rw [htag]
    cases hfile : x.isTagfile with
    | true =>
      apply (returns_readTagFile size off).bind
      rintro res (⟨hoff, rfl⟩ | ⟨hoff, text, hfinish⟩)
      · exact fun _ => .readBefore hnode hfile hoff
      · cases res with
        | error e => exact fun _ => .readDatabaseFailed hnode hfile hoff hfinish
        | ok buffer => exact fun _ => .readDatabase hnode hfile hoff hfinish
    | false =>
      refine (returns_true _).bind_eq fun res hread _ => ?_
      cases res with
      | error e => exact fun _ => .readFailed hnode hfile hread
      | ok buffer => exact fun _ => .read hnode hfile hread

theorem follows_write (h : s.Orderly) (number : UInt64) (buf : List UInt8) (off fh : ℤ) :
    Returns (tagWrite env s number buf off fh) (Follows s ⟨env, .write number buf off fh⟩) := by
  unfold tagWrite
  split
  · next hi => exact fun _ => .writeUnknown (node_none hi)
  · next i hi =>
    refine returns_readInode_some.bind fun I hI => ?_
    obtain ⟨-, x, hx, hnode, -⟩ := h.node_isSome hi hI
    rw [h.isTagfile_eq hI hx]
    split_ifs with hfile
    · exact fun _ => .writeRefused hnode hfile
    · have hno : x.isTagfile = false := by simpa using hfile
      cases hwrite : env.write fh buf off with
      | error e => exact fun _ => .writeFailed hnode hno hwrite
      | ok count => exact fun _ => .write hnode hno hwrite

theorem lookupReply_eq (hI : s.inodeHeap.get? i = some I) (st : Stat) : lookupReply s i st =
    .ok ([.entry I.number (nextGenNumber s).1 { st with stIno := I.number.toNat }],
      (nextGenNumber s).2.writeInode i { I with nlookup := I.nlookup + 1 }) := by
  rw [lookupReply, sat_readInode hI]
  rfl

theorem updates_lookupReply (hI : s.inodeHeap.get? i = some I) : Updates True s
    ((nextGenNumber s).2.writeInode i { I with nlookup := I.nlookup + 1 }) :=
  (updates_generation s).tail (.count trivial hI)

theorem node_fresh (hs : s.Indexed) (hmax : s.inodeHeap.next < UInt32.size) :
    s.node (toNumber s.nextIno) = none := by
  cases hi : inodeGet s (toNumber s.nextIno) with
  | none => exact node_none hi
  | some i =>
    obtain ⟨I, hI, hnum⟩ := hs.live hi
    rw [hs.number hI, hs.toNumber_counter] at hnum
    exact absurd (numberAt_inj ((Heap.lt_next hI).trans hmax) hmax hnum) (Heap.ne_next hI)

theorem Updates.next_le (hu : Updates c s s') : s.inodeHeap.next ≤ s'.inodeHeap.next :=
  hu.invariant (Q := fun s' => s.inodeHeap.next ≤ s'.inodeHeap.next) le_rfl
    fun _ _ hle hu => hle.trans hu.next_le

theorem makes_directoryInode {s₁ : Store} (hs : s.Sound) (hu : Updates c s s₁)
    (hI : s₁.inodeHeap.get? i = some (directoryInode s P k)) (hu' : Updates True s₁ s')
    (hP : P.tag.take P.ntag = ks) (hi : i = s.inodeHeap.next)
    (hmax : s'.inodeHeap.next ≤ UInt32.size) :
    s.view.Makes (ks ++ [k]) (directoryInode s P k).number s'.view := by
  have hs₁ := hu.sound' hs
  have hmax₁ : s₁.inodeHeap.next ≤ UInt32.size := hu'.next_le.trans hmax
  refine ⟨node_fresh hs.indexed ?_, hu'.node hs₁ hmax ?_⟩
  · exact hi ▸ (Heap.lt_next hI).trans_le hmax₁
  · refine (node_eq_some hs₁.indexed hmax₁).mpr ⟨i, _, hI, rfl, ?_⟩
    rw [← hP]
    rfl

theorem returns_fileGetOrCreate_inode (h : s.Orderly) : Returns (fileGetOrCreate env s n) fun r =>
    Updates False s r.2 ∧ r.2.files.get? n = some r.1 ∧ r.2.catalogue = s.catalogue ∧
      ∀ F I, r.2.fileHeap.get? r.1 = some F → r.2.inodeHeap.get? F.ino = some I →
        ∃ realpath, I.node = some (.file n realpath) ∧ (s.inodeHeap.next ≤ UInt32.size →
          s.node I.number = none → realpath = tagRealpath env n) := by
  refine ((returns_fileGetOrCreate (c := False)).and (returns_fileGetOrCreate_catalogue.and
    (sat_fileGetOrCreate trivial trivial))).mono ?_
  rintro ⟨f, s'⟩ ⟨⟨hu, hf⟩, hcat, hcases⟩
  refine ⟨hu, hf, hcat, fun F I hF hI => ?_⟩
  obtain ⟨-, hs'⟩ | ⟨hnone, hf', hs'⟩ := hcases
  · dsimp only at hf hF hI hs'
    subst hs'
    have hdir := (h.formed.record hF).2 I hI
    have hname := (h.described.record hf hF).2 I hI
    obtain ⟨name, realpath, hx, hname', -⟩ := h.formed.fileNode hI hdir
    obtain rfl := Option.some.inj (hname.symm.trans hname')
    refine ⟨realpath, hx, fun hmax hnode => ?_⟩
    rw [(node_eq_some h.sound.indexed hmax).mpr ⟨F.ino, I, hI, rfl, hx⟩] at hnode
    cases hnode
  · dsimp only at hf' hs' hF hI
    subst hf' hs'
    have hnew : (s.fileHeap.alloc (newFile env s n)).get? s.fileHeap.next = some F := hF
    rw [Heap.get?_alloc_next] at hnew
    cases hnew
    have hinew : (s.inodeHeap.alloc (fileInode env s n)).get? s.inodeHeap.next = some I := hI
    rw [Heap.get?_alloc_next] at hinew
    cases hinew
    exact ⟨tagRealpath env n, rfl, fun _ _ => rfl⟩

theorem files_of_updates {s₁ : Store} {realpath : CStr} (hs : s₁.Sound) (hu : Updates c s₁ s')
    (hle : s.inodeHeap.next ≤ s₁.inodeHeap.next) (hmax : s'.inodeHeap.next ≤ UInt32.size)
    (hI : s₁.inodeHeap.get? i = some I) (hx : I.node = some (.file n realpath))
    (hnew : s.inodeHeap.next ≤ UInt32.size → s.node I.number = none → realpath = tagRealpath env n) :
    s.view.Files env n I.number s'.view := by
  have hmax₁ : s₁.inodeHeap.next ≤ UInt32.size := hu.next_le.trans hmax
  exact ⟨realpath, hu.node hs hmax ((node_eq_some hs.indexed hmax₁).mpr ⟨i, I, hI, rfl, hx⟩),
    hnew (hle.trans hmax₁)⟩

theorem Selects.updates (h : Selects s sel) (hu : Updates c s s') : Selects s' sel := by
  intro e he
  obtain ⟨t, ht, hk⟩ := h e he
  refine ⟨t, ht, ?_⟩
  exact hu.invariant (Q := fun s => s.tags.get? e.1 = some t) hk fun _ _ hk hu => hu.tags_get hk

theorem returns_fileMatchesTags_has (hs : s.links.Sound) (hsel : Selects s sel)
    (hf : s.files.get? n = some f) : Returns (fileMatchesTags s f sel) fun b =>
      b = true ↔ s.catalogue.Has n sel.keys := by
  obtain ⟨F, hF, -⟩ := hs.files.object hf
  obtain ⟨b, hb, hm⟩ := fileMatchesTags_eq hs hF fun k t hk => by
    obtain ⟨t', ht', hreg⟩ := hsel _ hk
    cases ht'
    exact hreg
  rw [hb]
  apply hm.trans
  simp only [File.Matches, Catalogue.Has, Store.catalogue, Table.keys, List.forall_mem_map,
    hasTag_iff_record hf hF]
  refine forall₂_congr fun e he => and_iff_right_of_imp fun _ => ?_
  obtain ⟨t, ht, -⟩ := hsel e he
  rw [ht]
  rfl

theorem follows_lookup (h : s.Orderly) (parent : UInt64) (name : CStr) :
    Returns (tagLookup env s parent name) (Follows s ⟨env, .lookup parent name⟩) := by
  unfold tagLookup
  split
  · next hp => exact fun _ => .lookupUnknown (node_none hp)
  · next p hp =>
    refine returns_readInode_some.bind fun P hP => ?_
    have hnode : s.node parent = P.node := node_of_inodeGet hp hP
    obtain ⟨hnum, x, hx, hnode', htake, -⟩ := h.node_isSome hp hP
    dsimp only
    split
    · next hreg =>
      split_ifs with hk
      · refine returns_deref.bind fun sel hsel => ?_
        obtain ⟨hdir, -, hkeys⟩ := h.selects hP hsel
        obtain rfl := Option.some.inj ((P.node_directory hdir).symm.trans hx)
        split_ifs with hmem
        · rw [Table.contains_iff, hkeys] at hmem
          exact fun _ => .lookupNone hnode' hreg (.inr hmem)
        · rw [Table.contains_iff, hkeys] at hmem
          apply (returns_createDirectoryInode (c := False) hP hk).bind
          rintro ⟨i, s₁⟩ ⟨hu, hlinks, hi, hI⟩
          dsimp only at hu hlinks hi hI ⊢
          rw [lookupReply_eq hI]
          intro hmax
          have hu' := updates_lookupReply hI
          have hgrows : s.view.Grows s.view.catalogue (Store.view _) :=
            Updates.grows ((hu.mono False.elim).trans hu') h.sound hmax (catalogue_of_links hlinks)
          exact .lookupTag hnode' hreg hk hmem hgrows
            (makes_directoryInode h.sound hu hI hu' htake hi hmax)
      · exact fun _ => .lookupNone hnode' hreg (.inl hk)
    · next st hreg =>
      apply (returns_fileGetOrCreate_inode h).bind
      rintro ⟨f, s₁⟩ ⟨hu, hf, hcat, hfile⟩
      dsimp only at hu hf hcat hfile ⊢
      refine returns_readFile.bind fun F hF => returns_readInode_some.bind fun I hI => ?_
      obtain ⟨realpath, hIx, hnew⟩ := hfile F I hF hI
      have hs₁ := hu.sound' h.sound
      -- the inode with the attributes that have just been read
      have hJ (st' : Stat) : (s₁.writeInode F.ino { I with st := st' }).inodeHeap.get? F.ino =
          some { I with st := st' } := Heap.get?_write_self hI
      have hu₂ (st' : Stat) : Updates True s (s₁.writeInode F.ino { I with st := st' }) :=
        (hu.mono False.elim).tail (.inode st' hI)
      have hfound (st₁ st₂ : Stat) (hok : s.inodeHeap.next ≤ UInt32.size →
          P.isDirectory = true ∧ s.catalogue.Has name P.tag ∧
            ({ st₂ with stIno := I.number.toNat } : Stat) =
              inodeStat st I.number (P.tag ≠ [] && name = tagFilename)) :
          Returns (lookupReply (s₁.writeInode F.ino { I with st := st₁ }) F.ino st₂)
            (Follows s ⟨env, .lookup parent name⟩) := by
        rw [lookupReply_eq (hJ st₁)]
        intro hmax
        have hu' := updates_lookupReply (hJ st₁)
        obtain ⟨hdir, hhas, hst⟩ := hok ((Updates.next_le ((hu₂ st₁).trans hu')).trans hmax)
        have hgrows : s.view.Grows s.view.catalogue (Store.view _) :=
          Updates.grows ((hu₂ st₁).trans hu') h.sound hmax hcat
        have hfiles : s.view.Files env name I.number (Store.view _) :=
          files_of_updates (I := { I with st := st₁ }) ((hu₂ st₁).sound' h.sound) hu'
            (hu₂ st₁).next_le hmax (hJ st₁) hIx hnew
        show ViewStep s.view _ [.entry I.number _ _] _
        rw [hst]
        exact .lookupFile (hnode.trans (P.node_directory hdir)) hreg hhas hgrows hfiles
      split
      · next hroot =>
        refine returns_deref.bind fun sel hsel => ?_
        obtain ⟨hdir, hlive, hkeys⟩ := h.selects hP hsel
        have hmatch := returns_fileMatchesTags_has (s := s₁.writeInode F.ino
          { I with st := { st with stIno := I.number.toNat } }) hs₁.links
          (hlive.updates (hu₂ _)) hf
        refine hmatch.bind fun b hb => ?_
        have hb' : b = true ↔ s.catalogue.Has name P.tag := by
          rw [← hkeys, ← hcat]
          exact hb
        have hne (hmax : s.inodeHeap.next ≤ UInt32.size) : P.tag ≠ [] := fun hnil =>
          hroot (hnum.symm.trans ((h.tag_eq_nil hmax hP hdir).mp hnil))
        split
        · next hno =>
          intro hmax
          have hgrows : s.view.Grows s.view.catalogue (Store.view _) :=
            Updates.grows (hu₂ { st with stIno := I.number.toNat }) h.sound hmax hcat
          refine .lookupRefused (hnode.trans (P.node_directory hdir)) hreg (fun hhas => ?_) hgrows
          rw [hb'.mpr hhas] at hno
          cases hno
        · next hno =>
          have hhas := hb'.mp (by simpa using hno)
          split
          · next htag =>
            refine hfound _ _ fun hmax => ⟨hdir, hhas, ?_⟩
            simp [inodeStat, hne hmax, htag]
          · next htag =>
            refine hfound _ _ fun hmax => ⟨hdir, hhas, ?_⟩
            simp [inodeStat, htag]
      · next hroot =>
        refine hfound _ _ fun hmax => ?_
        have hone : P.number = 1 := hnum.trans (not_not.mp hroot)
        have hdir := h.root_directory hmax hP hone
        have hnil : P.tag = [] := (h.tag_eq_nil hmax hP hdir).mpr hone
        rw [hnil]
        exact ⟨hdir, by simp [Catalogue.Has], rfl⟩

theorem follows_mknod (h : s.Orderly) (parent : UInt64) (name : CStr) (mode rdev : ℕ) :
    Returns (tagMknod env s parent name mode rdev)
      (Follows s ⟨env, .mknod parent name mode rdev⟩) := by
  unfold tagMknod
  split_ifs with hp hk
  · exact fun _ => .mknodRefused hp
  · obtain rfl : parent = 1 := not_not.mp hp
    exact fun _ => .mknodExists hk
  · obtain rfl : parent = 1 := not_not.mp hp
    split
    · next e he => exact fun _ => .mknodFailed hk he
    · next he =>
      apply (returns_fileGetOrCreate_inode h).bind
      rintro ⟨f, s₁⟩ ⟨hu, hf, hcat, hfile⟩
      refine returns_readFile.bind fun F hF => returns_readInode_some.bind fun I hI => ?_
      dsimp only at hu hcat hfile hF hI ⊢
      obtain ⟨realpath, hIx, hnew⟩ := hfile F I hF hI
      intro hmax
      have hu' (st : Stat) : Updates False s₁
          ((nextGenNumber s₁).2.writeInode F.ino { I with st := st }) :=
        (updates_generation s₁).tail (.inode st hI)
      exact .mknod hk he (Updates.grows (hu.trans (hu' _)) h.sound hmax hcat)
        (files_of_updates (hu.sound' h.sound) (hu' _) hu.next_le hmax hI hIx hnew)

theorem follows_mkdir (h : s.Orderly) (parent : UInt64) (name : CStr) :
    Returns (tagMkdir env s parent name) (Follows s ⟨env, .mkdir parent name⟩) := by
  unfold tagMkdir
  split_ifs with hp hk
  · exact fun _ => .mkdirRefused hp
  · obtain rfl : parent = 1 := not_not.mp hp
    exact fun _ => .mkdirExists hk
  · obtain rfl : parent = 1 := not_not.mp hp
    have hnone : s.tags.get? name = none := by simpa [tagExist, tagGet] using hk
    have hu : Updates False s (tagGetOrCreate s name).2 := .single (.tag hnone)
    have hcat := catalogue_tagGetOrCreate hnone
    have hinodes := inodes_tagGetOrCreate s name
    have hreg : (tagGet (tagGetOrCreate s name).2 name).isSome = true := by
      rw [tagGetOrCreate_new hnone]
      exact congrArg Option.isSome Table.get?_add_self
    generalize tagGetOrCreate s name = q at hu hcat hinodes hreg ⊢
    obtain ⟨t, s₁⟩ := q
    dsimp only at hu hcat hinodes hreg ⊢
    have hheap : s₁.inodeHeap = s.inodeHeap := congrArg (·.2.1) hinodes
    have hnode := node_congr hinodes
    have hs₁ := hu.sound' h.sound
    cases hroot : inodeGet s₁ 1 with
    | none => trivial
    | some p =>
      obtain ⟨P, hP, hnum⟩ := hs₁.indexed.live hroot
      apply (returns_createDirectoryInode (c := False) hP hreg).bind
      rintro ⟨i, s₂⟩ ⟨hu₂, hlinks, hi, hI⟩
      dsimp only at hu₂ hlinks hi hI ⊢
      rw [sat_readInode hI]
      intro hmax
      have hgen : Updates True s₂ (nextGenNumber s₂).2 := updates_generation s₂
      have hmax₀ : s.inodeHeap.next ≤ UInt32.size :=
        (Updates.next_le ((hu.trans hu₂).trans (updates_generation s₂))).trans hmax
      have hP₀ : s.inodeHeap.get? p = some P := hheap ▸ hP
      have hnil : P.tag = [] := (h.tag_eq_nil hmax₀ hP₀ (h.root_directory hmax₀ hP₀ hnum)).mpr hnum
      have htake : P.tag.take P.ntag = [] := by rw [hnil, List.take_nil]
      obtain ⟨hfresh, hmade⟩ := makes_directoryInode hs₁ hu₂ hI hgen htake hi hmax
      refine .mkdir hk (Updates.grows ((hu.trans hu₂).trans (updates_generation s₂)) h.sound hmax ?_)
        ⟨(congrFun hnode _).symm.trans hfresh, hmade⟩
      exact (catalogue_of_links hlinks).trans hcat

theorem follows_rmdir (h : s.Orderly) (parent : UInt64) (name : CStr) :
    Returns (tagRmdir s parent name) (Follows s ⟨env, .rmdir parent name⟩) := by
  apply (returns_tagRmdir parent name).mono
  rintro ⟨rs, s'⟩ (⟨hp, hr⟩ | ⟨rfl, hr, t, ht, hrem⟩)
  · cases hr
    exact fun _ => .rmdirRefused hp
  · dsimp only at hr hrem
    subst hr
    obtain ⟨-, -, -, -, htable, hheap, hnext⟩ :=
      (sat_tagRemove (E := fun _ => True) h.sound.links ht).of_ok hrem
    have hview : s'.view = s.view.set (s.catalogue.drop name) := by
      have hnode : s'.node = s.node := node_congr (by simp only [Store.inodes, htable, hheap, hnext])
      rw [Store.view, catalogue_tagRemove h.sound ht hrem, hnode]
      rfl
    intro _
    show ViewStep s.view _ [.err 0] s'.view
    rw [hview]
    refine .rmdir ?_
    show (s.tags.get? name).isSome = true
    rw [ht]
    rfl

end TagFilesystem.FuseLowlevel
