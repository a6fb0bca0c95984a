import TagFilesystem.FuseLowlevel.Coherence

namespace TagFilesystem.FuseLowlevel

variable {D D' : Inode → Prop} {env : Env} {s s₀ s' s'' : Store} {e : Event} {file : Option CStr}
  {k n name : CStr} {f : FileId} {t : Option TagId} {i p : InodeId} {I J P P' : Inode}
  {held : List Lock} {sel : HashTable (Option TagId)}

/-- The members that tell a directory from a file, and its path. -/
def Inode.path (I : Inode) :
    Bool × Option (HashTable (Option TagId)) × Option CStr × List CStr × ℕ :=
  (I.isDirectory, I.selectedTags, I.name, I.tag, I.ntag)

theorem Inode.path_eq_iff : J.path = I.path ↔ J.isDirectory = I.isDirectory ∧
    J.selectedTags = I.selectedTags ∧ J.name = I.name ∧ J.tag = I.tag ∧ J.ntag = I.ntag := by
  simp only [Inode.path, Prod.mk.injEq]

/-- The path of a directory; that of the root is empty, and the root has no name. -/
structure Inode.RecordsPath (I : Inode) : Prop where
  ntag : I.ntag = I.tag.length
  nodup : I.tag.Nodup
  selects : ∃ sel, I.selectedTags = some sel ∧ sel.keys = I.tag
  name : I.name = I.tag.getLast?

/-- `J` is the directory `k` under `P`. -/
structure Inode.Child (P : Inode) (k : CStr) (J : Inode) : Prop where
  notMem : k ∉ P.tag
  directory : J.isDirectory = true
  tag : J.tag = P.tag ++ [k]
  ntag : J.ntag = P.ntag + 1
  selects : ∃ sel, J.selectedTags = some sel ∧ sel.keys = J.tag
  name : J.name = some k

theorem Inode.RecordsPath.congr (h : I.RecordsPath) (hJ : J.path = I.path) : J.RecordsPath := by
  obtain ⟨-, hsel, hname, htag, hntag⟩ := Inode.path_eq_iff.mp hJ
  constructor
  · rw [hntag, htag, h.ntag]
  · rw [htag]
    exact h.nodup
  · rw [hsel, htag]
    exact h.selects
  · rw [hname, htag, h.name]

theorem Inode.Child.recordsPath (h : P.Child k J) (hP : P.RecordsPath) : J.RecordsPath where
  ntag := by rw [h.ntag, h.tag, hP.ntag, List.length_append, List.length_singleton]
  nodup := by
    rw [h.tag]
    refine hP.nodup.append (List.nodup_singleton k) ?_
    exact List.disjoint_singleton.mpr h.notMem
  selects := h.selects
  name := by rw [h.name, h.tag, List.getLast?_concat]

theorem child_directoryInode (hP : P.RecordsPath) (hP' : P'.path = P.path) (hk : k ∉ P.tag) :
    P.Child k (directoryInode s P' k) := by
  obtain ⟨-, -, -, htag, hntag⟩ := Inode.path_eq_iff.mp hP'
  have htake : P'.tag.take P'.ntag = P.tag := by
    rw [htag, hntag, hP.ntag, List.take_length]
  refine ⟨hk, rfl, ?_, ?_, ⟨_, rfl, ?_⟩, rfl⟩
  · rw [directoryInode, htake]
  · rw [directoryInode, hntag]
  · rw [Table.keys, List.map_map]
    exact List.map_id _

/-- The inodes of `s'` are those of `s` with the paths they had and new ones: those of files, and
directories that have been made so that `D` holds. -/
structure Grows (D : Inode → Prop) (s s' : Store) : Prop where
  next : s.inodeHeap.next ≤ s'.inodeHeap.next
  inode : ∀ {i J}, s'.inodeHeap.get? i = some J →
    (∃ I, s.inodeHeap.get? i = some I ∧ J.path = I.path) ∨ s.inodeHeap.next ≤ i ∧
      ∃ K, J.path = K.path ∧ (K.isDirectory = false ∧ K.selectedTags = none ∨ D K)

namespace Grows

theorem of_heap (h : s'.inodeHeap = s.inodeHeap) : Grows D s s' where
  next := by rw [h]
  inode hJ := .inl ⟨_, h ▸ hJ, rfl⟩

theorem refl (s : Store) : Grows D s s := .of_heap rfl

theorem trans (h : Grows D s s') (h' : Grows D s' s'') : Grows D s s'' where
  next := h.next.trans h'.next
  inode {i J} hJ := by
    obtain ⟨J', hJ', hpath⟩ | ⟨hi, hnew⟩ := h'.inode hJ
    · rw [hpath]
      exact h.inode hJ'
    · exact .inr ⟨h.next.trans hi, hnew⟩

theorem path_eq (h : Grows D s s') (hI : s.inodeHeap.get? i = some I)
    (hJ : s'.inodeHeap.get? i = some J) : J.path = I.path := by
  obtain ⟨I', hI', hpath⟩ | ⟨hi, -⟩ := h.inode hJ
  · rw [hI] at hI'
    cases hI'
    exact hpath
  · exact absurd (Heap.lt_next hI) (Nat.not_lt.mpr hi)

theorem writeInode (hI : s.inodeHeap.get? i = some I) (hJ : J.path = I.path) :
    Grows D s (s.writeInode i J) where
  next := Heap.next_write.ge
  inode {j K} hK := by
    left
    obtain ⟨rfl, rfl⟩ | ⟨-, hK⟩ := Heap.get?_write_cases hK
    · exact ⟨I, hI, hJ⟩
    · exact ⟨K, hK, rfl⟩

theorem addInode (hI : I.isDirectory = false ∧ I.selectedTags = none ∨ D I) :
    Grows D s (s.addInode I) where
  next := by
    show s.inodeHeap.next ≤ (s.inodeHeap.alloc I).next
    rw [Heap.next_alloc]
    exact Nat.le_succ _
  inode {j J} hJ := by
    obtain ⟨hj, rfl⟩ | ⟨-, hJ⟩ := Heap.get?_alloc_cases hJ
    · exact .inr ⟨hj.ge, J, rfl, hI⟩
    · exact .inl ⟨J, hJ, rfl⟩

end Grows

theorem grows_fileGetOrCreate : Returns (fileGetOrCreate env s n) fun r => Grows D s r.2 := by
  apply (sat_fileGetOrCreate trivial trivial).mono
  rintro ⟨f, s'⟩ (⟨-, rfl⟩ | ⟨-, -, rfl⟩)
  · exact .refl s'
  · exact (Grows.addInode (I := fileInode env s n) (.inl ⟨rfl, rfl⟩)).trans (.of_heap rfl)

theorem grows_tagFile : Returns (tagFile s t f) fun s' => Grows D s s' :=
  returns_tagFile.mono fun _ h => .of_heap (congrArg (·.2.1) h.1)

theorem grows_untagFile : Returns (untagFile s t f) fun s' => Grows D s s' :=
  returns_untagFile.mono fun _ h => .of_heap (congrArg (·.2.1) h.1)

theorem grows_tagGetOrCreate (s : Store) (k : CStr) : Grows D s (tagGetOrCreate s k).2 :=
  .of_heap (congrArg (·.2.1) (inodes_tagGetOrCreate s k))

theorem grows_generation (s : Store) : Grows D s (nextGenNumber s).2 := .of_heap rfl

theorem grows_createDirectoryInode (hp : p < s.inodeHeap.next)
    (hD : ∀ P, s.inodeHeap.get? p = some P → D (directoryInode s P k)) :
    Returns (createDirectoryInode held s (some p) k) fun r => Grows D s r.2 := by
  cases hP : s.inodeHeap.get? p with
  | some P =>
    apply (sat_createDirectoryInode hP trivial (.inl trivial) k).mono
    rintro r ⟨-, rfl⟩
    exact .addInode (.inr (hD P hP))
  | none =>
    simp only [createDirectoryInode, inodeNew_eq]
    refine returns_readInode_some.bind fun P hP' => ?_
    simp only [Store.addInode, Heap.get?_alloc, if_neg (Nat.ne_of_lt hp), hP] at hP'
    cases hP'

theorem grows_lookupReply (st : Stat) : Returns (lookupReply s i st) fun r => Grows D s r.2 := by
  refine returns_readInode_some.bind fun I hI => ?_
  exact (grows_generation s).trans (.writeInode hI rfl)

theorem grows_getattrIntra (realpath filename : CStr) :
    Returns (getattrIntra env s sel realpath filename) fun r => Grows D s r.2.2 := by
  apply (grows_fileGetOrCreate (D := D)).bind
  rintro ⟨f, s'⟩ h
  dsimp only
  split
  · split_ifs
    · split <;> exact h
    · exact h
  · split_ifs
    · exact (returns_true _).bind fun _ _ => h
    · exact h
    · exact h

theorem grows_tagForget (number nlookup : UInt64) :
    Returns (tagForget s number nlookup) fun r => Grows D s r.2 := by
  apply (returns_tagForget number nlookup).mono
  rintro ⟨rs, s'⟩ ⟨-, ⟨-, rfl⟩ | ⟨i, I, -, hI, ⟨-, rfl⟩ | ⟨-, -, rfl⟩⟩⟩
  · exact .refl _
  · exact .writeInode hI rfl
  · refine ⟨Heap.next_free.ge, fun {j J} hJ => .inl ⟨J, ?_, rfl⟩⟩
    -- what is left was there before
    exact (Heap.of_get?_free hJ).2

theorem grows_tagGetattr (number : UInt64) :
    Returns (tagGetattr env s number) fun r => Grows D s r.2 := by
  unfold tagGetattr
  split
  · exact .refl s
  · refine (returns_true _).bind fun I _ => (returns_true _).bind fun path _ => ?_
    split <;> exact .refl s

theorem grows_tagOpendir (number : UInt64) :
    Returns (tagOpendir s number) fun r => Grows D s r.2 := by
  unfold tagOpendir
  split
  · exact .refl s
  · refine (returns_true _).bind fun I _ => ?_
    split_ifs <;> exact .refl s

theorem grows_tagRead (number : UInt64) (size : ℕ) (off fh : ℤ) :
    Returns (tagRead env s number size off fh) fun r => Grows D s r.2 := by
  unfold tagRead
  split
  · exact .refl s
  · refine (returns_true _).bind fun I _ => (returns_true _).bind fun res _ => ?_
    split <;> exact .refl s

theorem grows_tagWrite (number : UInt64) (buf : List UInt8) (off fh : ℤ) :
    Returns (tagWrite env s number buf off fh) fun r => Grows D s r.2 := by
  unfold tagWrite
  split
  · exact .refl s
  · refine (returns_true _).bind fun I _ => ?_
    split_ifs
    · exact .refl s
    · split <;> exact .refl s

theorem grows_tagOpen (number : UInt64) (flags : ℤ) :
    Returns (tagOpen env s number flags) fun r => Grows D s r.2 := by
  unfold tagOpen
  split
  · exact .refl s
  · refine (returns_true _).bind fun I _ => (returns_true _).bind fun name _ => ?_
    apply (grows_fileGetOrCreate (D := D)).bind
    rintro ⟨f, s₁⟩ h
    refine (returns_true _).bind fun F _ => ?_
    split
    · exact h
    · exact returns_readInode_some.bind fun J hJ => h.trans (.writeInode hJ rfl)

theorem grows_tagMknod (parent : UInt64) (name : CStr) (mode rdev : ℕ) :
    Returns (tagMknod env s parent name mode rdev) fun r => Grows D s r.2 := by
  unfold tagMknod
  split_ifs
  · exact .refl s
  · exact .refl s
  · split
    · exact .refl s
    · apply (grows_fileGetOrCreate (D := D)).bind
      rintro ⟨f, s₁⟩ h
      refine (returns_true _).bind fun F _ => returns_readInode_some.bind fun I hI => ?_
      exact (h.trans (grows_generation s₁)).trans (.writeInode hI rfl)

theorem grows_tagSetattr (number : UInt64) (mode : Option Bool) :
    Returns (tagSetattr env s number mode) fun r => Grows D s r.2 := by
  unfold tagSetattr
  split
  · exact .refl s
  · refine (returns_true _).bind fun I _ => ?_
    split_ifs
    · exact .refl s
    · refine (returns_true _).bind fun name _ => (grows_fileGetOrCreate (D := D)).bind ?_
      rintro ⟨f, s₁⟩ h
      refine (returns_true _).bind fun F _ => returns_readInode_some.bind fun J hJ => ?_
      exact h.trans (.writeInode hJ rfl)

theorem grows_tagLink (number newparent : UInt64) (newname : CStr) :
    Returns (tagLink env s number newparent newname) fun r => Grows D s r.2 := by
  refine (returns_true _).bind fun fileino _ => ?_
  split_ifs
  · exact .refl s
  · refine (returns_true _).bind fun name _ => ?_
    split_ifs
    · exact .refl s
    · refine (returns_true _).bind fun P _ => ?_
      split_ifs
      · exact .refl s
      · apply (grows_fileGetOrCreate (D := D)).bind
        rintro ⟨f, s₁⟩ h
        refine (returns_true _).bind fun tagname _ => (grows_tagFile (D := D)).bind fun s₂ h₂ => ?_
        exact ((grows_generation s).trans h).trans h₂

theorem grows_tagUnlink (parentnum : UInt64) (name : CStr) :
    Returns (tagUnlink s parentnum name) fun r => Grows D s r.2 := by
  unfold tagUnlink
  split_ifs
  · exact .refl s
  · split
    · exact .refl s
    · refine (returns_true _).bind fun P _ => ?_
      split_ifs
      · exact .refl s
      · refine (returns_true _).bind fun sel _ => ?_
        split_ifs
        · exact .refl s
        · refine (returns_true _).bind fun k _ => ?_
          split
          · exact .refl s
          · exact grows_untagFile.bind fun s' h => h

theorem grows_tagRename (parent : UInt64) (name : CStr) (newparent : UInt64) :
    Returns (tagRename s parent name newparent) fun r => Grows D s r.2 := by
  unfold tagRename
  split_ifs
  · exact .refl s
  · split
    · refine (returns_true _).bind fun O _ => (returns_true _).bind fun N _ => ?_
      split_ifs
      · exact .refl s
      · refine Sat.bind (sat_forEach_mem (I := Grows D s) ?_ (.refl s)) fun s₁ h₁ => ?_
        · rintro j - s' h
          refine (returns_true _).bind fun k _ => ?_
          exact grows_untagFile.mono fun s'' h' => h.trans h'
        · refine Sat.bind (sat_forEach_mem (I := Grows D s) ?_ h₁) fun s₂ h₂ => h₂
          rintro j - s' h
          refine (returns_true _).bind fun k _ => ?_
          exact grows_tagFile.mono fun s'' h' => h.trans h'
    · exact .refl s

theorem grows_tagIoctl (number : UInt64) (readTags compat : Bool) :
    Returns (tagIoctl env s number readTags compat) fun r => Grows D s r.2 := by
  unfold tagIoctl
  split
  · exact .refl s
  · refine (returns_true _).bind fun I _ => ?_
    dsimp only
    split
    · refine (returns_true _).bind fun name _ => (grows_fileGetOrCreate (D := D)).bind ?_
      rintro ⟨f, s₁⟩ h
      exact (returns_true _).bind fun rest _ => h
    · exact .refl s

theorem grows_tagRmdir (hs : s.Sound) (parentnum : UInt64) (name : CStr) :
    Returns (tagRmdir s parentnum name) fun r => Grows D s r.2 := by
  apply (returns_tagRmdir parentnum name).mono
  rintro r (⟨-, rfl⟩ | ⟨-, -, t, ht, hrem⟩)
  · exact .refl s
  · exact .of_heap ((sat_tagRemove (E := fun _ => True) hs.links ht).of_ok hrem).2.2.2.2.2.1

theorem grows_readdirListFiles (b : List UInt8) :
    Returns (readdirListFiles env s b sel) fun r => Grows D s r.2 := by
  refine sat_forEach_mem (I := fun r : Listing => Grows D s r.2) ?_ (.refl s)
  rintro d - r h
  split_ifs
  · exact h
  · refine (grows_getattrIntra (D := D) _ _).bind fun q hq => ?_
    dsimp only
    split_ifs <;> exact h.trans hq

theorem grows_realdirAddFiles : Returns (realdirAddFiles env s) fun s' => Grows D s s' := by
  refine sat_forEach_mem (I := Grows D s) ?_ (.refl s)
  rintro d - s' h
  split_ifs
  · exact h
  · exact sat_map.mpr (grows_fileGetOrCreate.mono fun r hr => h.trans hr)

theorem grows_parseLine {r : Option FileId × Store} (h : Grows D s r.2) (word : CStr) :
    Returns (parseLine env r word) fun r' => Grows D s r'.2 := by
  obtain ⟨cur, s₁⟩ := r
  unfold parseLine
  split
  · exact h
  · dsimp only
    split_ifs
    · exact (grows_fileGetOrCreate (D := D)).bind fun r hr => h.trans hr
    · exact h
    · cases cur with
      | none => exact h.trans (grows_tagGetOrCreate _ _)
      | some f =>
        refine (grows_tagFile (D := D)).bind fun s₂ h₂ => ?_
        exact (h.trans (grows_tagGetOrCreate _ _)).trans h₂

theorem grows_parseTags : Returns (parseTags env file s) fun s' => Grows D s s' := by
  cases file with
  | none => trivial
  | some text =>
    refine Sat.bind (sat_forEach_mem (I := fun r : Option FileId × Store => Grows D s r.2)
      (fun word _ r hr => ?_) (.refl s)) fun r hr => hr
    exact grows_parseLine hr word

theorem grows_tagInit : Returns (tagInit env file) fun s => Grows D rootStore s := by
  rw [tagInit, inodeInit_eq]
  refine (grows_realdirAddFiles (D := D)).bind fun s₁ h₁ => ?_
  exact grows_parseTags.mono fun s₂ h₂ => h₁.trans h₂

/-- Every directory records its path. The root is a directory, and the only one without tags. -/
structure Store.Paths (s : Store) : Prop where
  started : 0 < s.inodeHeap.next
  root : ∀ {I}, s.inodeHeap.get? 0 = some I → I.isDirectory = true
  file : ∀ {i I}, s.inodeHeap.get? i = some I → I.isDirectory = false → I.selectedTags = none
  directory : ∀ {i I}, s.inodeHeap.get? i = some I → I.isDirectory = true →
    I.RecordsPath ∧ (I.tag = [] ↔ i = 0)

theorem paths_rootStore : rootStore.Paths := by
  have hroot {i : InodeId} {I : Inode} (hI : rootStore.inodeHeap.get? i = some I) :
      i = 0 ∧ I = rootInode := by
    obtain rfl : i = 0 := Nat.lt_one_iff.mp (Heap.lt_next hI)
    cases hI
    exact ⟨rfl, rfl⟩
  refine ⟨Nat.one_pos, fun hI => ?_, fun hI hfile => ?_, fun hI _ => ?_⟩
  · obtain ⟨-, rfl⟩ := hroot hI
    rfl
  · obtain ⟨-, rfl⟩ := hroot hI
    cases hfile
  · obtain ⟨rfl, rfl⟩ := hroot hI
    exact ⟨⟨rfl, List.nodup_nil, ⟨_, rfl, rfl⟩, rfl⟩, fun _ => rfl, fun _ => rfl⟩

theorem Store.Paths.grows (h : s.Paths) (hg : Grows D s s')
    (hD : ∀ K, D K → ∃ (P : Inode) (k : CStr), P.RecordsPath ∧ P.Child k K) : s'.Paths where
  started := h.started.trans_le hg.next
  root {J} hJ := by
    obtain ⟨I, hI, hpath⟩ | ⟨hi, -⟩ := hg.inode hJ
    · exact (Inode.path_eq_iff.mp hpath).1.trans (h.root hI)
    · exact absurd h.started (Nat.not_lt.mpr hi)
  file {i J} hJ hfile := by
    obtain ⟨I, hI, hpath⟩ | ⟨hi, K, hpath, hK⟩ := hg.inode hJ
    · obtain ⟨hdir, hsel, -⟩ := Inode.path_eq_iff.mp hpath
      exact hsel.trans (h.file hI (hdir.symm.trans hfile))
    · obtain ⟨hdir, hsel, -⟩ := Inode.path_eq_iff.mp hpath
      rcases hK with ⟨-, hK⟩ | hK
      · exact hsel.trans hK
      · obtain ⟨P, k, -, hchild⟩ := hD K hK
        rw [hdir, hchild.directory] at hfile
        cases hfile
  directory {i J} hJ hJdir := by
    obtain ⟨I, hI, hpath⟩ | ⟨hi, K, hpath, hK⟩ := hg.inode hJ
    · obtain ⟨hdir, -, -, htag, -⟩ := Inode.path_eq_iff.mp hpath
      obtain ⟨hrec, hroot⟩ := h.directory hI (hdir.symm.trans hJdir)
      rw [htag]
      exact ⟨hrec.congr hpath, hroot⟩
    · obtain ⟨hdir, -, -, htag, -⟩ := Inode.path_eq_iff.mp hpath
      rcases hK with ⟨hK, -⟩ | hK
      · rw [hdir, hK] at hJdir
        cases hJdir
      · obtain ⟨P, k, hP, hchild⟩ := hD K hK
        have hne : J.tag ≠ [] := by simp [htag, hchild.tag]
        have hi0 : i ≠ 0 := Nat.ne_of_gt (h.started.trans_le hi)
        exact ⟨(hchild.recordsPath hP).congr hpath, fun h' => absurd h' hne,
          fun h' => absurd h' hi0⟩

/-- The request may make the directory `k` under the inode at `p`. -/
def Callback.MakesAt (s : Store) (c : Callback) (p : InodeId) (k : CStr) : Prop :=
  match c with
  | .lookup parent name => inodeGet s parent = some p ∧ name = k
  | .mkdir parent name => inodeGet s parent = some p ∧ name = k
  | .readdir _ _ _ fh => fh = some p
  | _ => False

/-- `J` is a directory that the request may make. -/
def Callback.Makes (s : Store) (c : Callback) (J : Inode) : Prop :=
  ∃ p P k, c.MakesAt s p k ∧ s.inodeHeap.get? p = some P ∧ P.isDirectory = true ∧ P.Child k J

theorem Store.Paths.notMem (h : s.Paths) (hP : s.inodeHeap.get? p = some P)
    (hsel : P.selectedTags = some sel) (hk : sel.contains k = false) :
    P.isDirectory = true ∧ P.RecordsPath ∧ k ∉ P.tag := by
  have hdir : P.isDirectory = true := by
    by_contra hfile
    have hnone := h.file hP (Bool.eq_false_iff.mpr hfile)
    rw [hsel] at hnone
    cases hnone
  obtain ⟨hrec, -⟩ := h.directory hP hdir
  refine ⟨hdir, hrec, fun hmem => ?_⟩
  obtain ⟨sel', hsel', hkeys⟩ := hrec.selects
  rw [hsel] at hsel'
  cases hsel'
  rw [← hkeys, ← Table.contains_iff, hk] at hmem
  cases hmem

theorem grows_tagLookup (h : s.Paths) (parentnum : UInt64) (name : CStr) :
    Returns (tagLookup env s parentnum name) fun r =>
      Grows ((Callback.lookup parentnum name).Makes s) s r.2 := by
  unfold tagLookup
  split
  · exact .refl s
  · next p hp =>
    refine returns_readInode_some.bind fun P hP => ?_
    dsimp only
    split
    · split_ifs with hk
      · refine returns_deref.bind fun sel hsel => ?_
        split_ifs with hno
        · exact .refl s
        · -- the test on the table speaks for the array as well
          obtain ⟨hdir, hrec, hmem⟩ := h.notMem hP hsel (Bool.eq_false_iff.mpr hno)
          have hmakes (P' : Inode) (hP' : s.inodeHeap.get? p = some P') :
              (Callback.lookup parentnum name).Makes s (directoryInode s P' name) := by
            rw [hP] at hP'
            cases hP'
            exact ⟨p, P, name, ⟨hp, rfl⟩, hP, hdir, child_directoryInode hrec rfl hmem⟩
          refine (grows_createDirectoryInode (Heap.lt_next hP) hmakes).bind fun r hr => ?_
          exact (grows_lookupReply _).mono fun r' hr' => hr.trans hr'
      · exact .refl s
    · apply (grows_fileGetOrCreate (D := (Callback.lookup parentnum name).Makes s)).bind
      rintro ⟨f, s₁⟩ h₁
      refine (returns_true _).bind fun F _ => returns_readInode_some.bind fun I hI => ?_
      have h₂ (st : Stat) : Grows ((Callback.lookup parentnum name).Makes s) s
          (s₁.writeInode F.ino { I with st := st }) := h₁.trans (.writeInode hI rfl)
      dsimp only
      split
      · refine (returns_true _).bind fun sel _ => (returns_true _).bind fun m _ => ?_
        split_ifs
        · exact h₂ _
        · exact (grows_lookupReply _).mono fun r hr => (h₂ _).trans hr
        · exact (grows_lookupReply _).mono fun r hr => (h₂ _).trans hr
      · exact (grows_lookupReply _).mono fun r hr => (h₂ _).trans hr

theorem grows_tagMkdir (hs : s.Sound) (h : s.Paths) (hmax : s.inodeHeap.next ≤ UInt32.size)
    (parentnum : UInt64) (name : CStr) : Returns (tagMkdir env s parentnum name) fun r =>
      Grows ((Callback.mkdir parentnum name).Makes s) s r.2 := by
  unfold tagMkdir
  split_ifs with hparent hk
  · exact .refl s
  · exact .refl s
  · obtain rfl : parentnum = 1 := not_not.mp hparent
    have hreg := grows_tagGetOrCreate (D := (Callback.mkdir 1 name).Makes s) s name
    have hinodes := inodes_tagGetOrCreate s name
    generalize tagGetOrCreate s name = q at hreg hinodes ⊢
    obtain ⟨t, s₁⟩ := q
    dsimp only at hreg hinodes ⊢
    have htable : s₁.itable = s.itable := congrArg Prod.fst hinodes
    have hheap : s₁.inodeHeap = s.inodeHeap := congrArg (·.2.1) hinodes
    have hroot : inodeGet s₁ 1 = inodeGet s 1 := congrArg (Table.get? · 1) htable
    rw [hroot]
    cases hp : inodeGet s 1 with
    | none => trivial
    | some p =>
      obtain ⟨P, hP, hnum⟩ := hs.indexed.live hp
      -- the number 1 is that of the root
      obtain rfl : p = 0 := by
        rw [hs.indexed.number hP] at hnum
        exact numberAt_inj ((Heap.lt_next hP).trans_le hmax) (by decide) hnum
      have hdir : P.isDirectory = true := h.root hP
      obtain ⟨hrec, hnil⟩ := h.directory hP hdir
      have hmem : name ∉ P.tag := by
        rw [hnil.mpr rfl]
        exact List.not_mem_nil
      have hmakes (P' : Inode) (hP' : s₁.inodeHeap.get? 0 = some P') :
          (Callback.mkdir 1 name).Makes s (directoryInode s₁ P' name) := by
        rw [hheap, hP] at hP'
        cases hP'
        exact ⟨0, P, name, ⟨hp, rfl⟩, hP, hdir, child_directoryInode hrec rfl hmem⟩
      refine (grows_createDirectoryInode (Heap.lt_next (hheap ▸ hP)) hmakes).bind fun r hr => ?_
      exact (returns_true _).bind fun I _ => (hreg.trans hr).trans (grows_generation _)

theorem grows_readdirFillRemainingTags (hP : s.inodeHeap.get? p = some P)
    (hD : ∀ k, sel.contains k = false → ∀ s' P', P'.path = P.path → D (directoryInode s' P' k))
    (files : HashTable FileId) (b : List UInt8) :
    Returns (readdirFillRemainingTags env s p sel files b) fun r => Grows D s r.2 := by
  refine Sat.bind (sat_forEach_mem (I := fun r : HashTable TagId × Listing => Grows D s r.2.2)
    ?_ (.refl s)) fun r hr => hr
  rintro e - ⟨rem, b, s₁⟩ h
  refine (returns_true _).bind fun F _ => ?_
  refine sat_forEach_mem (I := fun r : HashTable TagId × Listing => Grows D s r.2.2) ?_ h
  rintro e' - ⟨rem, b, s₂⟩ h
  refine (returns_true _).bind fun T _ => ?_
  dsimp only
  split_ifs with hk
  · -- the directory that is read has kept its path
    refine (grows_createDirectoryInode ((Heap.lt_next hP).trans_le h.next) fun P' hP' =>
      hD T.value hk.1 s₂ P' (h.path_eq hP hP')).bind fun r hr => ?_
    exact (returns_true _).bind fun I _ => (returns_true _).bind fun _ _ => h.trans hr
  · exact h

theorem grows_tagReaddir (h : s.Paths) (number : UInt64) (size : ℕ) (off : ℤ)
    (fh : Option InodeId) : Returns (tagReaddir env s number size off fh) fun r =>
      Grows ((Callback.readdir number size off fh).Makes s) s r.2 := by
  unfold tagReaddir
  split
  · exact .refl s
  · next p =>
    refine returns_readInode_some.bind fun P hP => ?_
    split
    · exact .refl s
    · refine returns_deref.bind fun sel hsel => ?_
      refine Sat.bind (P := fun r : Listing =>
        Grows ((Callback.readdir number size off (some p)).Makes s) s r.2) ?_ ?_
      · split
        · refine (returns_true _).bind fun files _ => grows_readdirFillRemainingTags hP ?_ files _
          intro k hk s' P' hpath
          obtain ⟨hdir, hrec, hmem⟩ := h.notMem hP hsel hk
          exact ⟨p, P, k, rfl, hP, hdir, child_directoryInode hrec hpath hmem⟩
        · exact (returns_true _).bind fun b _ => .refl s
      · rintro ⟨b, s₁⟩ h₁
        exact (grows_readdirListFiles b).bind fun r hr => h₁.trans hr

theorem grows_call (hs : s.Sound) (h : s.Paths) (hmax : s.inodeHeap.next ≤ UInt32.size)
    (c : Callback) : Returns (call env s c) fun r => Grows (c.Makes s) s r.2 := by
  cases c with
  | lookup parent name => exact grows_tagLookup h parent name
  | forget ino nlookup => exact grows_tagForget ino nlookup
  | getattr ino => exact grows_tagGetattr ino
  | openFile ino flags => exact grows_tagOpen ino flags
  | read ino size off fh => exact grows_tagRead ino size off fh
  | write ino buf off fh => exact grows_tagWrite ino buf off fh
  | release fh => exact .refl s
  | opendir ino => exact grows_tagOpendir ino
  | readdir ino size off fh => exact grows_tagReaddir h ino size off fh
  | releasedir => exact .refl s
  | link ino newparent newname => exact grows_tagLink ino newparent newname
  | unlink parent name => exact grows_tagUnlink parent name
  | rename parent name newparent newname => exact grows_tagRename parent name newparent
  | mkdir parent name => exact grows_tagMkdir hs h hmax parent name
  | rmdir parent name => exact grows_tagRmdir hs parent name
  | mknod parent name mode rdev => exact grows_tagMknod parent name mode rdev
  | setattr ino mode => exact grows_tagSetattr ino mode
  | ioctl ino readTags compat => exact grows_tagIoctl ino readTags compat

theorem next_le_of_step (hs : s.Sound) (h : step s e = .ok s') :
    s.inodeHeap.next ≤ s'.inodeHeap.next := by
  refine hs.step_rule (Q := fun s' => s.inodeHeap.next ≤ s'.inodeHeap.next) h
    (fun parent name _ => ?_) (fun ino m _ => ?_) fun s' hu => ?_
  · exact (grows_tagRmdir (D := fun _ => True) hs parent name).mono fun r hr => hr.next
  · exact (grows_tagForget (D := fun _ => True) ino m).mono fun r hr => hr.next
  · exact hu.invariant (Q := fun s' => s.inodeHeap.next ≤ s'.inodeHeap.next) (Nat.le_refl _)
      fun _ _ hle hu => hle.trans hu.next_le

theorem grows_step (hs : s.Sound) (h : s.Paths) (hmax : s.inodeHeap.next ≤ UInt32.size)
    (he : step s e = .ok s') : Grows (e.callback.Makes s) s s' :=
  (sat_map.mpr (grows_call hs h hmax e.callback)).of_ok he

theorem Store.Paths.step (hs : s.Sound) (h : s.inodeHeap.next ≤ UInt32.size → s.Paths)
    (he : FuseLowlevel.step s e = .ok s') (hmax : s'.inodeHeap.next ≤ UInt32.size) : s'.Paths := by
  have hmax₀ := (next_le_of_step hs he).trans hmax
  refine (h hmax₀).grows (grows_step hs (h hmax₀) hmax₀ he) ?_
  rintro K ⟨p, P, k, -, hP, hdir, hchild⟩
  exact ⟨P, k, ((h hmax₀).directory hP hdir).1, hchild⟩

theorem paths_of_reaches {guard : Store → Event → Prop} (h₀ : tagInit env file = .ok s₀)
    (h : Reaches step guard s₀ s) (hmax : s.inodeHeap.next ≤ UInt32.size) : s.Sound ∧ s.Paths := by
  have hstart : s₀.Paths := paths_rootStore.grows ((grows_tagInit (D := fun _ => False)).of_ok h₀)
    fun K hK => hK.elim
  -- addresses only grow, so the bound holds in every state before
  have hinv : s.Sound ∧ (s.inodeHeap.next ≤ UInt32.size → s.Paths) :=
    h.invariant (I := fun s => s.Sound ∧ (s.inodeHeap.next ≤ UInt32.size → s.Paths))
      ⟨sound_of_reaches h₀ (.refl s₀ : Reaches step guard s₀ s₀), fun _ => hstart⟩
      fun s e s' hs _ he => ⟨hs.1.step he, fun hmax' => Store.Paths.step hs.1 hs.2 he hmax'⟩
  exact ⟨hinv.1, hinv.2 hmax⟩

/-- Until inode numbers repeat, every directory in `itable` records its path in both ways, and a
request makes directories only by adding a name that is new to the path of the directory that it
names. -/
theorem directories_record_paths (h₀ : tagInit env file = .ok s₀)
    (h : Reaches step (fun _ _ => True) s₀ s) (hmax : s.inodeHeap.next ≤ UInt32.size) :
    (∀ n i, (n, i) ∈ s.itable.entries → ∃ I, s.inodeHeap.get? i = some I ∧ I.number = n ∧
      (n = 1 → I.isDirectory = true) ∧
      (I.isDirectory = true → I.RecordsPath ∧ (I.tag = [] ↔ n = 1))) ∧
    ∀ e s', step s e = .ok s' → ∀ i J, s.inodeHeap.get? i = none → s'.inodeHeap.get? i = some J →
      J.isDirectory = true → e.callback.Makes s J := by
  obtain ⟨hs, hp⟩ := paths_of_reaches h₀ h hmax
  constructor
  · intro n i hentry
    obtain ⟨I, hI, hn⟩ := hs.indexed.entry.mp hentry
    -- only the root has the number 1, as numbers have not come round
    have hroot : n = 1 ↔ i = 0 := by
      rw [← hn, hs.indexed.number hI]
      refine ⟨fun h1 => ?_, fun h0 => h0 ▸ rfl⟩
      exact numberAt_inj ((Heap.lt_next hI).trans_le hmax) (by decide) h1
    refine ⟨I, hI, hn, fun h1 => ?_, fun hdir => ?_⟩
    · obtain rfl := hroot.mp h1
      exact hp.root hI
    · rw [hroot]
      exact hp.directory hI hdir
  · intro e s' he i J hi hJ hdir
    obtain ⟨I, hI, -⟩ | ⟨-, K, hpath, hK⟩ := (grows_step hs hp hmax he).inode hJ
    · rw [hi] at hI
      cases hI
    · obtain ⟨hdir', hsel, hname, htag, hntag⟩ := Inode.path_eq_iff.mp hpath
      -- a file is no directory
      rcases hK with ⟨hfile, -⟩ | ⟨p, P, k, hat, hP, hPdir, hchild⟩
      · rw [hdir', hfile] at hdir
        cases hdir
      · refine ⟨p, P, k, hat, hP, hPdir, hchild.notMem, hdir, ?_, ?_, ?_, ?_⟩
        · rw [htag, hchild.tag]
        · rw [hntag, hchild.ntag]
        · rw [hsel, htag]
          exact hchild.selects
        · rw [hname, hchild.name]

/-- `mkdir`, `lookup` and `readdir` make directories for the same path. -/
theorem directories_record_paths_sample : ∃ s₀ s I J, tagInit sampleEnv (some []) = .ok s₀ ∧
    execute step (fun _ _ => True) ([.mkdir 1 nameX, .mkdir 1 nameY, .link 2 4 nameF,
      .link 2 5 nameF, .lookup 5 nameX, .readdir 4 100 0 (some 3)].map (Event.mk sampleEnv)) s₀ =
        some s ∧
    s.inodeHeap.get? 5 = some I ∧ I.tag = [nameY, nameX] ∧ I.RecordsPath ∧
    s.inodeHeap.get? 6 = some J ∧ J.tag = [nameX, nameY] ∧ J.RecordsPath := by
  have hrun : (sampleRun [.mkdir 1 nameX, .mkdir 1 nameY, .link 2 4 nameF, .link 2 5 nameF,
      .lookup 5 nameX, .readdir 4 100 0 (some 3)]).any (fun s => s.inodeHeap.next ≤ UInt32.size ∧
        (6, 5) ∈ s.itable.entries ∧ (7, 6) ∈ s.itable.entries ∧
        (s.inodeHeap.get? 5).any (fun I => I.isDirectory = true ∧ I.tag = [nameY, nameX]) ∧
        (s.inodeHeap.get? 6).any (fun J => J.isDirectory = true ∧ J.tag = [nameX, nameY])) =
          true := by decide +kernel
  obtain ⟨s, hs, hp⟩ := (Option.any_eq_true _ _).mp hrun
  obtain ⟨hmax, h5, h6, hI, hJ⟩ := of_decide_eq_true hp
  obtain ⟨I, hI, hp⟩ := (Option.any_eq_true _ _).mp hI
  obtain ⟨hIdir, hItag⟩ := of_decide_eq_true hp
  obtain ⟨J, hJ, hp⟩ := (Option.any_eq_true _ _).mp hJ
  obtain ⟨hJdir, hJtag⟩ := of_decide_eq_true hp
  unfold sampleRun at hs
  split at hs
  · next s₀ h₀ =>
    obtain ⟨hall, -⟩ := directories_record_paths h₀ (reaches_of_execute hs) hmax
    obtain ⟨I', hI', -, -, hrecI⟩ := hall 6 5 h5
    obtain ⟨J', hJ', -, -, hrecJ⟩ := hall 7 6 h6
    rw [hI] at hI'
    rw [hJ] at hJ'
    cases hI'
    cases hJ'
    exact ⟨s₀, s, I, J, h₀, hs, hI, hItag, (hrecI hIdir).1, hJ, hJtag, (hrecJ hJdir).1⟩
  · cases hs

end TagFilesystem.FuseLowlevel
