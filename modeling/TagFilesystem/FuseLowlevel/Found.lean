import TagFilesystem.FuseLowlevel.Kernel
import TagFilesystem.FuseLowlevel.Selections

namespace TagFilesystem.FuseLowlevel

variable {c : Prop} {env : Env} {s s₀ s' : Store} {e : Event} {file : Option CStr} {k n : CStr}
  {t : TagId} {T : Tag} {f : FileId} {F : File} {i p : InodeId} {I N : Inode}
  {es : List (CStr × Option TagId)}

/-- The directory selects the tags on its path; the last one, its own, was registered when the
directory was made. -/
structure Inode.HoldsPath (I : Inode) (es : List (CStr × Option TagId)) (k : CStr) (t : TagId) :
    Prop where
  name : I.name = some k
  selectedTags : I.selectedTags = some ⟨es ++ [(k, some t)]⟩
  tag : I.tag = es.map Prod.fst ++ [k]
  ntag : I.ntag = es.length + 1

structure Store.Described (s : Store) : Prop where
  directory : ∀ {i I}, s.inodeHeap.get? i = some I → I.isDirectory = true → I.number ≠ 1 →
    ∃ es k t, I.HoldsPath es k t
  /-- The inode of a file belongs to the record of that file. -/
  file : ∀ {i I}, s.inodeHeap.get? i = some I → I.isDirectory = false → ∃ n f,
    I.name = some n ∧ s.files.get? n = some f ∧ ∀ F, s.fileHeap.get? f = some F → F.ino = i
  /-- A record points to an inode of its name or to one that is gone. -/
  record : ∀ {n f F}, s.files.get? n = some f → s.fileHeap.get? f = some F →
    F.ino < s.inodeHeap.next ∧ ∀ I, s.inodeHeap.get? F.ino = some I → I.name = some n

theorem holdsPath_directoryInode {P : Inode} (ht : tagGet s k = some t)
    (hn : P.ntag ≤ P.tag.length) : (directoryInode s P k).HoldsPath
      ((P.tag.take P.ntag).map fun k' => (k', tagGet s k')) k t where
  name := rfl
  selectedTags := by
    show some (Table.mk _) = _
    rw [List.map_append, List.map_singleton, ht]
  tag := by
    show P.tag.take P.ntag ++ [k] = _
    rw [List.map_map]
    simp [Function.comp_def]
  ntag := by
    show P.ntag + 1 = _
    rw [List.length_map, List.length_take, Nat.min_eq_left hn]

theorem Update.record_name (hu : Update c s s') (hlt : i < s.inodeHeap.next)
    (h : ∀ I, s.inodeHeap.get? i = some I → I.name = some n) :
    i < s'.inodeHeap.next ∧ ∀ I, s'.inodeHeap.get? i = some I → I.name = some n := by
  refine ⟨hlt.trans_le hu.next_le, fun J hJ => ?_⟩
  obtain ⟨I, st, m, hI, rfl⟩ | ⟨rfl, -⟩ := hu.inode_cases hJ
  · exact h I hI
  · exact absurd hlt (Nat.lt_irrefl _)

theorem Update.described (hu : Update c s s') (hs : s.links.Sound) (h : s.Described) :
    s'.Described where
  directory {i J} hJ hd hne := by
    obtain ⟨I, st, m, hI, rfl⟩ | ⟨-, ⟨p, P, k, -, hk, hn, rfl, -⟩ | ⟨env, n, -, rfl, -⟩⟩ :=
      hu.inode_cases hJ
    · obtain ⟨es, k, t, hI⟩ := h.directory hI hd hne
      exact ⟨es, k, t, hI.name, hI.selectedTags, hI.tag, hI.ntag⟩
    · obtain ⟨t, ht⟩ := Option.isSome_iff_exists.mp hk
      exact ⟨_, k, t, holdsPath_directoryInode ht hn⟩
    · cases hd
  file {i J} hJ hd := by
    obtain ⟨I, st, m, hI, rfl⟩ | ⟨rfl, ⟨p, P, k, -, -, -, rfl, -⟩ | ⟨env, n, -, rfl, rfl⟩⟩ :=
      hu.inode_cases hJ
    · obtain ⟨n, f, hname, hf, hino⟩ := h.file hI hd
      obtain ⟨F, hF, -⟩ := hs.files.object hf
      refine ⟨n, f, hname, hu.files_get hf, fun F' hF' => ?_⟩
      obtain ⟨hsame, -⟩ | ⟨env, m, -, rfl⟩ := hu.files_cases
      · obtain ⟨G, hG, hGi⟩ := hsame f F' hF'
        rw [← hGi, hino G hG]
      · have hold : (s.fileHeap.alloc (newFile env s m)).get? f = some F :=
          Heap.get?_alloc_of_some hF
        rw [← hino F hF, ← Option.some.inj (hF'.symm.trans hold)]
    · cases hd
    · refine ⟨n, s.fileHeap.next, rfl, Table.get?_add_self, fun F hF => ?_⟩
      have hnew : (s.fileHeap.alloc (newFile env s n)).get? s.fileHeap.next = some F := hF
      rw [Heap.get?_alloc_next] at hnew
      cases hnew
      rfl
  record {n f F'} hf hF' := by
    obtain ⟨hsame, hfiles⟩ | ⟨env, m, hm, rfl⟩ := hu.files_cases
    · obtain ⟨F, hF, hino⟩ := hsame f F' hF'
      obtain ⟨hlt, hname⟩ := h.record (hfiles ▸ hf) hF
      rw [← hino]
      exact hu.record_name hlt hname
    · have hadd : (s.files.add m s.fileHeap.next).get? n = some f := hf
      rw [Table.get?_add] at hadd
      split_ifs at hadd with hmn
      · cases hadd
        subst hmn
        have hnew : (s.fileHeap.alloc (newFile env s m)).get? s.fileHeap.next = some F' := hF'
        rw [Heap.get?_alloc_next] at hnew
        cases hnew
        refine ⟨by simp [Store.addFile, Store.addInode, newFile], fun I hI => ?_⟩
        have hI' : (s.inodeHeap.alloc (fileInode env s m)).get? s.inodeHeap.next = some I := hI
        rw [Heap.get?_alloc_next] at hI'
        cases hI'
        rfl
      · obtain ⟨F, hF, -⟩ := hs.files.object hadd
        have hold : (s.fileHeap.alloc (newFile env s m)).get? f = some F :=
          Heap.get?_alloc_of_some hF
        cases hF'.symm.trans hold
        obtain ⟨hlt, hname⟩ := h.record hadd hF
        exact hu.record_name hlt hname
theorem Updates.described (hu : Updates c s s') (hs : s.links.Sound) (h : s.Described) :
    s'.Described :=
  (hu.invariant (Q := fun s => s.links.Sound ∧ s.Described) ⟨hs, h⟩
    fun _ _ hq hu => ⟨hu.sound hq.1, hu.described hq.1 hq.2⟩).2

theorem Store.Described.mono (h : s.Described) (hsame : SameInos s s') (hfiles : s'.files = s.files)
    (hnext : s'.inodeHeap.next = s.inodeHeap.next)
    (hold : ∀ i J, s'.inodeHeap.get? i = some J → ∃ I st m, s.inodeHeap.get? i = some I ∧
      J = { I with st := st, nlookup := m }) : s'.Described where
  directory {i J} hJ hd hne := by
    obtain ⟨I, st, m, hI, rfl⟩ := hold i J hJ
    obtain ⟨es, k, t, hI⟩ := h.directory hI hd hne
    exact ⟨es, k, t, hI.name, hI.selectedTags, hI.tag, hI.ntag⟩
  file {i J} hJ hd := by
    obtain ⟨I, st, m, hI, rfl⟩ := hold i J hJ
    obtain ⟨n, f, hname, hf, hino⟩ := h.file hI hd
    refine ⟨n, f, hname, hfiles ▸ hf, fun F' hF' => ?_⟩
    obtain ⟨F, hF, hi⟩ := hsame f F' hF'
    rw [← hi, hino F hF]
  record {n f F'} hf hF' := by
    obtain ⟨F, hF, hino⟩ := hsame f F' hF'
    obtain ⟨hlt, hname⟩ := h.record (hfiles ▸ hf) hF
    rw [← hino, hnext]
    refine ⟨hlt, fun J hJ => ?_⟩
    obtain ⟨I, st, m, hI, rfl⟩ := hold F.ino J hJ
    exact hname I hI

theorem described_rootStore : rootStore.Described where
  directory {i I} hI _ hne := by
    obtain rfl : i = 0 := Nat.lt_one_iff.mp (Heap.lt_next hI)
    cases hI
    exact absurd rfl hne
  file {i I} hI hd := by
    obtain rfl : i = 0 := Nat.lt_one_iff.mp (Heap.lt_next hI)
    cases hI
    cases hd
  record hf := by cases hf

theorem Store.Described.step (h : s.Described) (hs : s.Sound)
    (he : FuseLowlevel.step s e = .ok s') : s'.Described := by
  refine hs.step_rule he (fun parent name _ => ?_) (fun ino m _ => ?_)
    fun s' hu => hu.described hs.links h
  · apply (returns_tagRmdir parent name).mono
    rintro r (⟨-, rfl⟩ | ⟨-, -, t, ht, hrem⟩)
    · exact h
    · obtain ⟨-, -, -, hfiles, -, hheap, -⟩ :=
        (sat_tagRemove (E := fun _ => True) hs.links ht).of_ok hrem
      refine h.mono (sameInos_tagRemove.of_ok hrem) hfiles (congrArg Heap.next hheap) ?_
      intro i J hJ
      exact ⟨J, J.st, J.nlookup, hheap ▸ hJ, rfl⟩
  · apply (returns_tagForget ino m).mono
    rintro ⟨rs, s'⟩ ⟨-, ⟨-, rfl⟩ | ⟨i, I, -, hI, ⟨-, rfl⟩ | ⟨-, -, rfl⟩⟩⟩
    · exact h
    · refine h.mono (.refl rfl) rfl Heap.next_write fun j J hJ => ?_
      by_cases hj : j = i
      · subst hj
        simp only [Store.writeInode, Heap.get?_write_self hI] at hJ
        exact ⟨I, I.st, I.nlookup - m, hI, (Option.some.inj hJ).symm⟩
      · simp only [Store.writeInode, Heap.get?_write_ne hj] at hJ
        exact ⟨J, J.st, J.nlookup, hJ, rfl⟩
    · refine h.mono (.refl rfl) rfl Heap.next_free fun j J hJ => ?_
      exact ⟨J, J.st, J.nlookup, (Heap.of_get?_free hJ).2, rfl⟩

theorem described_of_reaches {guard : Store → Event → Prop} (h₀ : tagInit env file = .ok s₀)
    (h : Reaches step guard s₀ s) : s.Sound ∧ s.Described := by
  have hu := (returns_tagInit (c := False)).of_ok h₀
  exact h.invariant (I := fun s => s.Sound ∧ s.Described)
    ⟨hu.sound' sound_rootStore, hu.described sound_rootStore.links described_rootStore⟩
    fun s e s' hs _ he => ⟨hs.1.step he, hs.2.step hs.1 he⟩

namespace Store

/-- A selected tag that is not `INVALID_TAG` is the one registered under its name. -/
def NotStale (s : Store) : Prop :=
  ∀ i I sel, s.inodeHeap.get? i = some I → I.selectedTags = some sel →
    ∀ k t, (k, some t) ∈ sel.entries → s.tags.get? k = some t

/-- `number` is the directory `N`, other than the root. -/
structure Directory (s : Store) (number : UInt64) (N : Inode) : Prop where
  ne_root : number ≠ 1
  found : ∃ p, inodeGet s number = some p ∧ s.inodeHeap.get? p = some N
  isDirectory : N.isDirectory = true

end Store

/-- The file has all selected tags. -/
def File.Matches (F : File) (sel : HashTable (Option TagId)) : Prop :=
  ∀ e ∈ sel.entries, e.2.isSome = true ∧ F.tags.contains e.1 = true

theorem fileMatchesTags_eq {sel : HashTable (Option TagId)} (hs : s.links.Sound)
    (hF : s.fileHeap.get? f = some F)
    (hsel : ∀ k t, (k, some t) ∈ sel.entries → s.tags.get? k = some t) :
    ∃ b, fileMatchesTags s f sel = .ok b ∧ (b = true ↔ F.Matches sel) := by
  have hsat : Sat (fun _ => False) (fileMatchesTags s f sel) fun b =>
      b = true ↔ F.Matches sel := by
    rw [fileMatchesTags, sat_readFile hF]
    refine sat_forEach_visited (fun (done : List (CStr × Option TagId)) b => b = true ↔
      ∀ e ∈ done, e.2.isSome = true ∧ F.tags.contains e.1 = true) ?_ (by simp)
    rintro done ⟨k, t⟩ rest b hl hb
    cases t with
    | none =>
      refine iff_of_false Bool.false_ne_true fun hall => ?_
      cases (hall (k, none) (by simp)).1
    | some t =>
      have hk : s.tags.get? k = some t := hsel k t (hl ▸ by simp)
      obtain ⟨T, hT, hv⟩ := hs.tags.object hk
      subst hv
      simp only [sat_readTag hT]
      show (if F.tags.contains T.value = true then b else false) = true ↔ _
      simp only [List.forall_mem_append, List.forall_mem_singleton]
      split_ifs with hc
      · simp [hb, hc]
      · simp [hc]
  obtain ⟨b, hb, h⟩ := hsat.exists_ok
  exact ⟨b, hb, h⟩

/-- `lookup` replies with the inode `ino`. -/
def Finds (env : Env) (s : Store) (parent : UInt64) (name : CStr) (ino : UInt64) : Prop :=
  ∃ g st s', tagLookup env s parent name = .ok ([.entry ino g st], s')

/-- `name` is the name of a file in the target directory. -/
def FileExists (env : Env) (name : CStr) : Prop :=
  (regular (env.stat (tagRealpath env name))).isSome = true

instance (env : Env) (name : CStr) : Decidable (FileExists env name) :=
  inferInstanceAs (Decidable (_ = true))

/-- A file that exists and has a record with a live inode is found if it has all the tags that the
directory selects. -/
theorem finds_iff {sel : HashTable (Option TagId)} {number : UInt64} (hs : s.links.Sound)
    (hN : s.Directory number N) (hN' : N.selectedTags = some sel)
    (hsel : ∀ k t, (k, some t) ∈ sel.entries → s.tags.get? k = some t)
    (hn : s.files.get? n = some f) (hF : s.fileHeap.get? f = some F)
    (hI : s.inodeHeap.get? F.ino = some I) (hex : FileExists env n) :
    Finds env s number n I.number ↔ F.Matches sel := by
  obtain ⟨st, hst⟩ := Option.isSome_iff_exists.mp hex
  obtain ⟨p, hp, hpN⟩ := hN.found
  set J : Inode := { I with st := { st with stIno := I.number.toNat } }
  obtain ⟨b, hb, hbm⟩ := fileMatchesTags_eq (s := s.writeInode F.ino J) hs hF hsel
  have hread : ∀ s₁ : Store, s₁.inodeHeap = (s.writeInode F.ino J).inodeHeap →
      s₁.inodeHeap.get? F.ino = some J := by
    intro s₁ h₁
    rw [h₁]
    exact Heap.get?_write_self hI
  have hlookup : tagLookup env s number n = if b = false then .ok ([.err ENOENT], s.writeInode F.ino J)
      else if n = tagFilename then
        lookupReply (s.writeInode F.ino J) F.ino { J.st with stSize := LONG_MAX }
      else lookupReply (s.writeInode F.ino J) F.ino J.st := by
    simp only [tagLookup, hp, sat_readInode hpN, hst, fileGetOrCreate, hn, sat_readFile hF,
      sat_readInode hI, hN', deref, bind, Except.bind, if_pos hN.ne_root]
    rw [hb]
  have hreply : ∀ st, ∃ g st' s', lookupReply (s.writeInode F.ino J) F.ino st =
      .ok ([.entry I.number g st'], s') := by
    intro st
    rw [lookupReply, sat_readInode (hread _ rfl)]
    exact ⟨_, _, _, rfl⟩
  rw [← hbm, Finds, hlookup]
  cases b with
  | false => simp
  | true =>
    refine iff_of_true ?_ rfl
    rw [if_neg (by simp)]
    split_ifs
    · exact hreply _
    · exact hreply _

theorem returns_fileGetOrCreate_next : Returns (fileGetOrCreate env s n) fun r =>
    r.2.files.get? n = some r.1 ∧ r.2.inodeHeap.next ≤ s.inodeHeap.next + 1 := by
  apply (sat_fileGetOrCreate trivial trivial).mono
  rintro ⟨f, s'⟩ (⟨hf, rfl⟩ | ⟨-, rfl, rfl⟩)
  · exact ⟨hf, Nat.le_succ _⟩
  · exact ⟨Table.get?_add_self, (Heap.next_alloc).le⟩

theorem returns_tagLookup_entry (number : UInt64) (n : CStr) :
    Returns (tagLookup env s number n) fun r => Updates True s r.2 ∧
      ∀ ino g st, r.1 = [.entry ino g st] → r.2.inodeHeap.next ≤ s.inodeHeap.next + 1 ∧
        ∃ i I, r.2.inodeHeap.get? i = some I ∧ I.number = ino ∧ (¬ FileExists env n ∧ i = s.inodeHeap.next ∨
          ∃ f F, r.2.files.get? n = some f ∧ r.2.fileHeap.get? f = some F ∧ F.ino = i) := by
  have hu : Returns (tagLookup env s number n) fun r => Updates True s r.2 :=
    (returns_tagLookup number n).mono fun r h => h.elim Quiet.updates Counted.updates
  apply hu.and
  unfold tagLookup
  split
  · rintro ino g st ⟨⟩
  · next p hp =>
    refine returns_readInode_some.bind fun P hP => ?_
    dsimp only
    split
    · next hst =>
      have hno : ¬ FileExists env n := by simp [FileExists, hst]
      split_ifs with hk
      · refine (returns_true _).bind fun sel _ => ?_
        split_ifs
        · rintro ino g st ⟨⟩
        · apply (sat_createDirectoryInode (E := fun _ => True) hP trivial (.inl trivial) n).bind
          rintro r ⟨-, rfl⟩
          have hi : (s.addInode (directoryInode s P n)).inodeHeap.get? s.inodeHeap.next =
              some (directoryInode s P n) := Heap.get?_alloc_next
          dsimp only
          rw [lookupReply, sat_readInode hi]
          rintro ino g st ⟨⟩
          refine ⟨?_, _, _, Heap.get?_write_self hi, rfl, .inl ⟨hno, rfl⟩⟩
          exact (Heap.next_write.trans Heap.next_alloc).le
      · rintro ino g st ⟨⟩
    · apply returns_fileGetOrCreate_next.bind
      rintro ⟨f, s₁⟩ ⟨hf, hnext⟩
      refine returns_readFile.bind fun F hF => returns_readInode_some.bind fun I hI => ?_
      have hreply : ∀ st st', Returns (lookupReply (s₁.writeInode F.ino { I with st := st }) F.ino st')
          fun r => ∀ ino g st, r.1 = [.entry ino g st] →
            r.2.inodeHeap.next ≤ s.inodeHeap.next + 1 ∧ ∃ i I, r.2.inodeHeap.get? i = some I ∧
            I.number = ino ∧ (¬ FileExists env n ∧ i = s.inodeHeap.next ∨
              ∃ f F, r.2.files.get? n = some f ∧ r.2.fileHeap.get? f = some F ∧ F.ino = i) := by
        intro st st'
        have hJ : (s₁.writeInode F.ino { I with st := st }).inodeHeap.get? F.ino =
            some { I with st := st } := Heap.get?_write_self hI
        rw [lookupReply, sat_readInode hJ]
        rintro ino g st ⟨⟩
        refine ⟨?_, _, _, Heap.get?_write_self hJ, rfl, .inr ⟨f, F, hf, hF, rfl⟩⟩
        exact (Heap.next_write.trans Heap.next_write).le.trans hnext
      dsimp only
      split
      · refine (returns_true _).bind fun sel _ => (returns_true _).bind fun m _ => ?_
        split_ifs
        · rintro ino g st ⟨⟩
        · exact hreply _ _
        · exact hreply _ _
      · exact hreply _ _

/-- Only the tags of files have changed. -/
structure Retagged (s s' : Store) : Prop where
  sound : s'.links.Sound
  inodes : s'.inodes = s.inodes
  tags : s'.tags = s.tags
  files : s'.files = s.files
  inos : SameInos s s'

namespace Retagged

theorem inodeHeap (h : Retagged s s') : s'.inodeHeap = s.inodeHeap := congrArg (·.2.1) h.inodes

theorem directory {number : UInt64} (h : Retagged s s') (hN : s.Directory number N) :
    s'.Directory number N where
  ne_root := hN.ne_root
  found := by
    have htable : s'.itable = s.itable := congrArg (·.1) h.inodes
    rw [inodeGet, htable, h.inodeHeap]
    exact hN.found
  isDirectory := hN.isDirectory

theorem tagFile (h : Retagged s s') (hn : s'.files.get? n = some f) :
    Returns (tagFile s' (tagGet s' k) f) fun s'' => Retagged s s'' ∧
      ∀ F F', s'.fileHeap.get? f = some F → s''.fileHeap.get? f = some F' →
        ∀ k', F'.tags.contains k' = true ↔ k' = k ∨ F.tags.contains k' = true := by
  refine returns_iff.mpr fun s'' h' => ⟨⟨?_, ?_, ?_, ?_, ?_⟩, fun F F' hF hF' k' => ?_⟩
  · exact ((returns_tagFile' (c := False) hn).of_ok h').1.sound h.sound
  · exact (returns_tagFile.of_ok h').1.trans h.inodes
  · exact (returns_tagFile.of_ok h').2.2.trans h.tags
  · exact (returns_tagFile.of_ok h').2.1.trans h.files
  · exact h.inos.trans (sameInos_tagFile.of_ok h')
  · cases hk : tagGet s' k with
    | none =>
      rw [hk] at h'
      cases h'
    | some t =>
      obtain ⟨T, hT, hv⟩ := h.sound.tags.object hk
      rw [hk, tagFile_eq hT hF] at h'
      cases h'
      have hw := (Heap.get?_write_self (a := { F with tags := F.tags.addNew T.value t }) hF).symm.trans hF'
      cases hw
      rw [← show T.value = k from hv]
      exact Table.contains_addNew

theorem untagFile (h : Retagged s s') (hn : s'.files.get? n = some f) :
    Returns (untagFile s' (tagGet s' k) f) fun s'' => Retagged s s'' := by
  refine returns_iff.mpr fun s'' h' => ⟨?_, ?_, ?_, ?_, ?_⟩
  · exact ((returns_untagFile' (c := False) hn).of_ok h').1.sound h.sound
  · exact (returns_untagFile.of_ok h').1.trans h.inodes
  · exact (returns_untagFile.of_ok h').2.2.trans h.tags
  · exact (returns_untagFile.of_ok h').2.1.trans h.files
  · exact h.inos.trans (sameInos_untagFile.of_ok h')

end Retagged

/-- `link` gives the file the tag that the directory is named after. -/
theorem returns_tagLink_entry {P : UInt64} (hs : s.Sound) (hd : s.Described)
    (hN : s.Directory P N) (number : UInt64) (n : CStr) :
    Returns (tagLink env s number P n) fun r => ∀ ino g st, r.1 = [.entry ino g st] →
      Retagged s r.2 ∧ ∃ f F I k, s.files.get? n = some f ∧ s.fileHeap.get? f = some F ∧
        s.inodeHeap.get? F.ino = some I ∧ I.number = ino ∧ N.name = some k ∧
        ∀ F', r.2.fileHeap.get? f = some F' →
          ∀ k', F'.tags.contains k' = true ↔ k' = k ∨ F.tags.contains k' = true := by
  obtain ⟨p, hp, hpN⟩ := hN.found
  unfold tagLink
  apply returns_readInode.bind
  rintro I ⟨i, -, hI⟩
  split_ifs with hdir
  · rintro ino g st ⟨⟩
  · refine returns_deref.bind fun name hname => ?_
    split_ifs with hne
    · rintro ino g st ⟨⟩
    · obtain rfl : n = name := not_not.mp hne
      obtain ⟨m, f, hm, hf, hino⟩ := hd.file hI (Bool.not_eq_true _ ▸ hdir)
      obtain rfl : n = m := Option.some.inj (hname.symm.trans hm)
      obtain ⟨F, hF, -⟩ := hs.links.files.object hf
      have hFi : F.ino = i := hino F hF
      rw [hp, sat_readInode hpN]
      dsimp only [bind, Except.bind]
      rw [if_neg (by simp [hN.isDirectory])]
      have hget : fileGetOrCreate env (nextGenNumber s).2 n = .ok (f, (nextGenNumber s).2) := by
        have hf' : (nextGenNumber s).2.files.get? n = some f := hf
        simp only [fileGetOrCreate, hf']
      rw [hget]
      refine returns_deref.bind fun k hk => ?_
      have hstart : Retagged s (nextGenNumber s).2 := ⟨hs.links, rfl, rfl, rfl, .refl rfl⟩
      apply (hstart.tagFile hf).bind
      rintro s₂ ⟨hr, htags⟩ ino g st ⟨⟩
      refine ⟨hr, f, F, I, k, hf, hF, hFi ▸ hI, rfl, hk, fun F' hF' => htags F F' hF hF'⟩

/-- `rename` leaves the file with the tags on the path of the new directory. -/
theorem returns_tagRename_tags {P : UInt64} (hs : s.Sound) (hN : s.Directory P N) (parent : UInt64)
    (n : CStr) : Returns (tagRename s parent n P) fun r => r.1 = [.err 0] →
      Retagged s r.2 ∧ N.ntag ≤ 1 ∧ ∀ f F, s.files.get? n = some f → r.2.fileHeap.get? f = some F →
        ∀ k ∈ N.tag.take N.ntag, F.tags.contains k = true := by
  obtain ⟨p, hp, hpN⟩ := hN.found
  unfold tagRename
  split_ifs
  · rintro ⟨⟩
  · rw [hp]
    split
    · next op np f _ hnp hf =>
      obtain rfl : p = np := Option.some.inj hnp
      rw [sat_readInode hpN]
      refine (returns_true _).bind fun O _ => ?_
      dsimp only [bind, Except.bind]
      split_ifs with hbad
      · rintro ⟨⟩
      · have hf₀ : s.files.get? n = some f := hf
        refine Sat.bind (sat_forEach_mem (I := fun s' => Retagged s s') ?_
          ⟨hs.links, rfl, rfl, rfl, .refl rfl⟩) ?_
        · rintro j - s' hr
          refine (returns_true _).bind fun k _ => ?_
          exact hr.untagFile (hr.files ▸ hf₀)
        · intro s₁ hr₁
          -- after `j` steps the file has the first `j` tags of the path
          refine Sat.bind (sat_forRange (fun j s' => Retagged s s' ∧ ∀ F,
            s'.fileHeap.get? f = some F → ∀ k ∈ N.tag.take j, F.tags.contains k = true) ?_
              ⟨hr₁, fun F _ k hk => by simp at hk⟩) ?_
          · rintro j s' - ⟨hr, htags⟩
            refine (sat_tagAt (E := fun _ => True) trivial N j).bind fun k hk => ?_
            have hf' : s'.files.get? n = some f := hr.files ▸ hf₀
            refine (hr.tagFile hf').mono fun s'' hs'' => ⟨hs''.1, fun F' hF' k' hk' => ?_⟩
            obtain ⟨F, hF, -⟩ := hr.sound.files.object hf'
            rw [hs''.2 F F' hF hF']
            rw [List.take_add_one, hk, List.mem_append] at hk'
            rcases hk' with hk' | hk'
            · exact .inr (htags F hF k' hk')
            · exact .inl (List.mem_singleton.mp hk')
          · rintro s₂ ⟨hr₂, htags⟩ -
            push Not at hbad
            refine ⟨hr₂, hbad.2.2.2, fun g F hg hF => ?_⟩
            obtain rfl : f = g := Option.some.inj (hf₀.symm.trans hg)
            exact htags F hF
    · rintro ⟨⟩

/-- The file has all selected tags but perhaps `k`. -/
def File.MatchesBut (F : File) (sel : HashTable (Option TagId)) (k : CStr) : Prop :=
  ∀ e ∈ sel.entries, e.2.isSome = true ∧ (e.1 = k ∨ F.tags.contains e.1 = true)

/-- The file `n` has all tags that the directory selects, but perhaps the one that the directory is
named after. -/
def CarriesPath (s : Store) (N : Inode) (n : CStr) : Prop :=
  ∃ f F sel k, s.files.get? n = some f ∧ s.fileHeap.get? f = some F ∧
    N.selectedTags = some sel ∧ N.name = some k ∧ F.MatchesBut sel k

theorem Store.Directory.holdsPath {P : UInt64} (hN : s.Directory P N) (hs : s.Sound)
    (hd : s.Described) : ∃ es k t, N.HoldsPath es k t := by
  obtain ⟨p, hp, hpN⟩ := hN.found
  obtain ⟨M, hM, hnum⟩ := hs.indexed.live hp
  obtain rfl : N = M := Option.some.inj (hpN.symm.trans hM)
  exact hd.directory hpN hN.isDirectory (hnum ▸ hN.ne_root)

theorem Retagged.finds_iff {P : UInt64} {sel : HashTable (Option TagId)} (hr : Retagged s s')
    (hst : s.NotStale) (hN : s.Directory P N) (hsel : N.selectedTags = some sel)
    (hf : s.files.get? n = some f) (hF : s.fileHeap.get? f = some F)
    (hI : s.inodeHeap.get? F.ino = some I) (hex : FileExists env n) : ∃ F',
      s'.fileHeap.get? f = some F' ∧ (Finds env s' P n I.number ↔ F'.Matches sel) := by
  obtain ⟨p, -, hpN⟩ := hN.found
  have hf' : s'.files.get? n = some f := hr.files ▸ hf
  obtain ⟨F', hF', -⟩ := hr.sound.files.object hf'
  have hino : F'.ino = F.ino := by
    obtain ⟨G, hG, hGi⟩ := hr.inos f F' hF'
    rw [← hGi, Option.some.inj (hG.symm.trans hF)]
  have hI' : s'.inodeHeap.get? F'.ino = some I := by
    rw [hr.inodeHeap, hino]
    exact hI
  refine ⟨F', hF', FuseLowlevel.finds_iff hr.sound (hr.directory hN) hsel (fun k t hm => ?_) hf' hF'
    hI' hex⟩
  rw [hr.tags]
  exact hst p N sel hpN hsel k t hm

theorem finds_tagLink {env' : Env} {P number ino g : UInt64} {st : Stat} (hs : s.Sound)
    (hd : s.Described) (hst : s.NotStale) (hN : s.Directory P N)
    (h : tagLink env s number P n = .ok ([.entry ino g st], s')) (hex : FileExists env' n) :
    Finds env' s' P n ino ↔ CarriesPath s N n := by
  obtain ⟨hr, f, F, I, k, hf, hF, hI, rfl, hk, htags⟩ :=
    (returns_tagLink_entry hs hd hN number n).of_ok h ino g st rfl
  obtain ⟨es, k', t, hpath⟩ := hN.holdsPath hs hd
  obtain rfl : k = k' := Option.some.inj (hk.symm.trans hpath.name)
  obtain ⟨F', hF', hfinds⟩ := hr.finds_iff hst hN hpath.selectedTags hf hF hI hex
  rw [hfinds]
  constructor
  · intro hm
    refine ⟨f, F, _, k, hf, hF, hpath.selectedTags, hk, fun e he => ⟨(hm e he).1, ?_⟩⟩
    exact (htags F' hF' e.1).mp (hm e he).2
  · rintro ⟨f₁, F₁, sel, k₁, hf₁, hF₁, hsel, hk₁, hm⟩
    obtain rfl : f = f₁ := Option.some.inj (hf.symm.trans hf₁)
    obtain rfl : F = F₁ := Option.some.inj (hF.symm.trans hF₁)
    obtain rfl : k = k₁ := Option.some.inj (hk.symm.trans hk₁)
    obtain rfl := Option.some.inj (hpath.selectedTags.symm.trans hsel)
    exact fun e he => ⟨(hm e he).1, (htags F' hF' e.1).mpr (hm e he).2⟩

theorem finds_tagRename {P parent : UInt64} (hs : s.Sound) (hd : s.Described)
    (hst : s.NotStale) (hN : s.Directory P N) (hf : s.files.get? n = some f)
    (hF : s.fileHeap.get? f = some F) (hI : s.inodeHeap.get? F.ino = some I)
    (h : tagRename s parent n P = .ok ([.err 0], s')) (hex : FileExists env n) :
    Finds env s' P n I.number := by
  obtain ⟨hr, hle, htags⟩ := (returns_tagRename_tags hs hN parent n).of_ok h rfl
  obtain ⟨es, k, t, hpath⟩ := hN.holdsPath hs hd
  obtain ⟨F', hF', hfinds⟩ := hr.finds_iff hst hN hpath.selectedTags hf hF hI hex
  have hes : es = [] := by
    apply List.eq_nil_of_length_eq_zero
    have hntag := hpath.ntag
    omega
  subst hes
  refine hfinds.mpr fun e he => ?_
  obtain rfl : e = (k, some t) := by simpa using he
  refine ⟨rfl, htags f F' hf hF' k ?_⟩
  rw [hpath.tag, hpath.ntag]
  exact List.mem_singleton_self k

theorem name_eq_of_finds {P : UInt64} {m : CStr} (hs : s.Sound) (hd : s.Described)
    (hmax : s.inodeHeap.next < UInt32.size) (hf : s.files.get? n = some f)
    (hF : s.fileHeap.get? f = some F) (hI : s.inodeHeap.get? F.ino = some I)
    (h : Finds env s P m I.number) : m = n := by
  obtain ⟨g, st, s', h⟩ := h
  obtain ⟨hu, hentry⟩ := (returns_tagLookup_entry P m).of_ok h
  obtain ⟨hnext, i, J, hJ, hnum, hwhere⟩ := hentry _ g st rfl
  have hs' : s'.Sound := hu.sound' hs
  have hlt : F.ino < s.inodeHeap.next := Heap.lt_next hI
  rw [hs'.indexed.number hJ, hs.indexed.number hI] at hnum
  rcases hwhere with ⟨-, hnew⟩ | ⟨f', F', hf', hF', rfl⟩
  · have hsame : i = F.ino := numberAt_inj (hnew ▸ hmax) (hlt.trans hmax) hnum
    exact absurd (hsame.symm.trans hnew) (Nat.ne_of_lt hlt)
  · have hname : J.name = some m := ((hu.described hs.links hd).record hf' hF').2 J hJ
    have hlt' : F'.ino < UInt32.size := (Heap.lt_next hJ).trans_le (hnext.trans hmax)
    have hsame : F'.ino = F.ino := numberAt_inj hlt' (hlt.trans hmax) hnum
    obtain ⟨st', c, hkept, -⟩ := hu.kept hI
    rw [hsame] at hJ
    rw [hJ] at hkept
    obtain rfl := Option.some.inj hkept
    exact Option.some.inj (hname.symm.trans ((hd.record hf hF).2 I hI))

/-- In every reachable state without stale selections, for every directory `N` below the root: a
file that has been linked there is found under the inode number of the reply exactly if it already
had all tags that the directory selects, apart from the directory's own. A file that has been moved
there is found under its number if the move keeps its name; otherwise it is not, as long as inode
numbers do not repeat. -/
theorem found_iff (h₀ : tagInit env file = .ok s₀) (h : Reaches step (fun _ _ => True) s₀ s)
    (hst : s.NotStale) {P : UInt64} (hN : s.Directory P N) :
    (∀ env number n ino g st s₁, tagLink env s number P n = .ok ([.entry ino g st], s₁) →
      ∀ env', FileExists env' n → (Finds env' s₁ P n ino ↔ CarriesPath s N n)) ∧
    ∀ env s' parent name newname ino g st s₁,
      tagLookup env s' parent name = .ok ([.entry ino g st], s) → FileExists env name →
      call env s (.rename parent name P newname) = .ok ([.err 0], s₁) →
      ∀ env', (newname = name → FileExists env' newname → Finds env' s₁ P newname ino) ∧
        (s.inodeHeap.next < UInt32.size → Finds env' s₁ P newname ino → newname = name) := by
  obtain ⟨hs, hd⟩ := described_of_reaches h₀ h
  refine ⟨fun env number n ino g st s₁ hlink env' hex => ?_, ?_⟩
  · exact finds_tagLink hs hd hst hN hlink hex
  · intro env s' parent name newname ino g st s₁ hlookup hex hrename env'
    obtain ⟨-, hentry⟩ := (returns_tagLookup_entry parent name).of_ok hlookup
    obtain ⟨-, i, I, hI, rfl, ⟨hno, -⟩ | ⟨f, F, hf, hF, rfl⟩⟩ := hentry ino g st rfl
    · exact absurd hex hno
    constructor
    · rintro rfl hex'
      exact finds_tagRename hs hd hst hN hf hF hI hrename hex'
    · intro hmax hfinds
      have hu : Updates False s s₁ := ((returns_tagRename parent name P).of_ok hrename).1
      have hr : Retagged s s₁ := ((returns_tagRename_tags hs hN parent name).of_ok hrename rfl).1
      have hf' : s₁.files.get? name = some f := hr.files ▸ hf
      obtain ⟨F', hF', -⟩ := hr.sound.files.object hf'
      obtain ⟨G, hG, hino⟩ := hr.inos f F' hF'
      obtain rfl : F = G := Option.some.inj (hF.symm.trans hG)
      have hI' : s₁.inodeHeap.get? F'.ino = some I := by
        rw [hr.inodeHeap, ← hino]
        exact hI
      have hmax' : s₁.inodeHeap.next < UInt32.size := by
        rw [hr.inodeHeap]
        exact hmax
      exact name_eq_of_finds (hu.sound' hs) (hu.described hs.links hd) hmax' hf' hF' hI' hfinds

theorem AllSelectLive.notStale (h : AllSelectLive s) : s.NotStale := by
  intro i I sel hI hsel k t hm
  obtain ⟨t', ht', hk⟩ := (h i I hI).selects sel hsel _ hm
  cases ht'
  exact hk

theorem entryIno_eq_some {x : Reply} {ino : UInt64} :
    x.entryIno = some ino ↔ ∃ g st, x = .entry ino g st := by
  cases x <;> simp [Reply.entryIno]

/-- The file `f` is linked into `x` and then moved to `y`. -/
theorem found_iff_sample : ∃ s' s N g g' st st' s₁ s₂,
    selectionRun [.mkdir 1 nameX, .mkdir 1 nameY, .link 2 4 nameF] = some s' ∧
    tagLookup sampleEnv s' 4 nameF = .ok ([.entry 2 g st], s) ∧ s.Directory 5 N ∧
    tagLink sampleEnv s 2 5 nameF = .ok ([.entry 2 g' st'], s₁) ∧
    (Finds sampleEnv s₁ 5 nameF 2 ↔ CarriesPath s N nameF) ∧
    call sampleEnv s (.rename 4 nameF 5 nameF) = .ok ([.err 0], s₂) ∧
    Finds sampleEnv s₂ 5 nameF 2 := by
  have hrun : (selectionRun [.mkdir 1 nameX, .mkdir 1 nameY, .link 2 4 nameF]).any (fun s' =>
      returnsWith (tagLookup sampleEnv s' 4 nameF) fun r => r.1.map Reply.entryIno = [some 2] ∧
        inodeGet r.2 5 = some 4 ∧ (r.2.inodeHeap.get? 4).any Inode.isDirectory = true ∧
        (returnsWith (tagLink sampleEnv r.2 2 5 nameF) fun q => q.1.map Reply.entryIno = [some 2]) =
          true ∧
        (returnsWith (call sampleEnv r.2 (.rename 4 nameF 5 nameF)) fun q => q.1 = [.err 0]) =
          true) = true := by
    decide +kernel
  obtain ⟨s', hs', hp⟩ := (Option.any_eq_true _ _).mp hrun
  obtain ⟨⟨rs, s⟩, hlookup, hp⟩ := returnsWith_iff.mp hp
  obtain ⟨hentry, hp, hdir, hlink, hrename⟩ := of_decide_eq_true hp
  obtain ⟨N, hpN, hNdir⟩ := (Option.any_eq_true _ _).mp hdir
  obtain ⟨⟨rs₁, s₁⟩, hlink, hentry₁⟩ := returnsWith_iff.mp hlink
  obtain ⟨⟨rs₂, s₂⟩, hrename, hreplies⟩ := returnsWith_iff.mp hrename
  obtain rfl : rs₂ = [.err 0] := of_decide_eq_true hreplies
  obtain ⟨x, rfl, hx⟩ := List.map_eq_singleton_iff.mp hentry
  obtain ⟨g, st, rfl⟩ := entryIno_eq_some.mp hx
  obtain ⟨x₁, rfl, hx₁⟩ := List.map_eq_singleton_iff.mp (of_decide_eq_true hentry₁)
  obtain ⟨g', st', rfl⟩ := entryIno_eq_some.mp hx₁
  have hN : s.Directory 5 N := ⟨by decide, ⟨4, hp, hpN⟩, hNdir⟩
  have hex : FileExists sampleEnv nameF := by decide +kernel
  have hrun' := hs'
  unfold selectionRun at hrun'
  split at hrun'
  · next s₀ h₀ =>
    have hstep : step s' ⟨sampleEnv, .lookup 4 nameF⟩ = .ok s := by
      simp only [step, call, hlookup]
      rfl
    have hreach := (reaches_of_execute hrun').tail rfl hstep
    have hst : s.NotStale := (allSelectLive_of_reaches h₀ hreach).2.notStale
    obtain ⟨hl, hr⟩ := found_iff h₀ (hreach.weaken fun _ _ _ => trivial) hst hN
    refine ⟨s', s, N, g, g', st, st', s₁, s₂, hs', hlookup, hN, hlink, ?_, hrename, ?_⟩
    · exact hl _ _ _ _ _ _ _ hlink sampleEnv hex
    · exact (hr _ _ _ _ _ _ _ _ _ hlookup hex hrename sampleEnv).1 rfl hex
  · cases hrun'

/-- The file `f` is linked into the directory `x/y`; it gets the tag `y` only, so that it is not
found there. -/
theorem link_not_found : ¬ ∀ env file s₀ s, tagInit env file = .ok s₀ →
    Reaches step (fun _ _ => True) s₀ s → s.NotStale → ∀ P N, s.Directory P N →
    ∀ env number n ino g st s₁, tagLink env s number P n = .ok ([.entry ino g st], s₁) →
      ∀ env', FileExists env' n → Finds env' s₁ P n ino := by
  intro h
  have hrun : (selectionRun [.mkdir 1 nameX, .mkdir 1 nameY, .lookup 4 nameY,
      .lookup 1 nameF]).any (fun s =>
      inodeGet s 6 = some 5 ∧ (s.inodeHeap.get? 5).any Inode.isDirectory = true ∧
        (returnsWith (tagLink sampleEnv s 2 6 nameF) fun r => r.1.map Reply.entryIno = [some 2] ∧
          (returnsWith (tagLookup sampleEnv r.2 6 nameF) fun q => q.1 = [.err ENOENT]) = true) =
          true) = true := by
    decide +kernel
  obtain ⟨s, hs, hp⟩ := (Option.any_eq_true _ _).mp hrun
  obtain ⟨hp, hdir, hlink⟩ := of_decide_eq_true hp
  obtain ⟨N, hpN, hNdir⟩ := (Option.any_eq_true _ _).mp hdir
  obtain ⟨⟨rs, s₁⟩, hlink, hp₁⟩ := returnsWith_iff.mp hlink
  obtain ⟨hentry, hlookup⟩ := of_decide_eq_true hp₁
  obtain ⟨⟨rs₁, s₂⟩, hlookup, hreplies⟩ := returnsWith_iff.mp hlookup
  obtain rfl : rs₁ = [.err ENOENT] := of_decide_eq_true hreplies
  obtain ⟨x, rfl, hx⟩ := List.map_eq_singleton_iff.mp hentry
  obtain ⟨g, st, rfl⟩ := entryIno_eq_some.mp hx
  unfold selectionRun at hs
  split at hs
  · next s₀ h₀ =>
    have hreach := reaches_of_execute hs
    obtain ⟨g', st', s₃, hfound⟩ := h sampleEnv (some []) s₀ s h₀
      (hreach.weaken fun _ _ _ => trivial) (allSelectLive_of_reaches h₀ hreach).2.notStale 6 N
      ⟨by decide, ⟨5, hp, hpN⟩, hNdir⟩ sampleEnv 2 nameF 2 g st s₁ hlink sampleEnv (by decide +kernel)
    cases hlookup.symm.trans hfound
  · cases hs

end TagFilesystem.FuseLowlevel
