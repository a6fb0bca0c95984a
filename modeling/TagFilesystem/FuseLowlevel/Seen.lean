import TagFilesystem.FuseLowlevel.Directories
import TagFilesystem.FuseLowlevel.Found
import TagFilesystem.FuseLowlevel.View

namespace TagFilesystem.FuseLowlevel

variable {c : Prop} {env : Env} {s s₀ s' : Store} {e : Event} {file : Option CStr} {k k' m n : CStr}
  {t : TagId} {f : FileId} {F G : File} {i p : InodeId} {I P : Inode} {number : UInt64} {x : Node}
  {sel : HashTable (Option TagId)} {C : Catalogue CStr CStr}

def Inode.node (I : Inode) : Option Node :=
  if I.isDirectory = true then some (.directory I.tag)
  else I.name.bind fun name => I.realpath.map (.file name)

namespace Store

def catalogue (s : Store) : Catalogue CStr CStr := ⟨HasTag s, fun k => tagExist s k = true⟩

def node (s : Store) (number : UInt64) : Option Node :=
  ((inodeGet s number).bind s.inodeHeap.get?).bind Inode.node

def view (s : Store) : View := ⟨s.catalogue, s.node⟩

/-- The inodes of files have the members that `file_new` sets; file records have no other inodes. -/
structure Formed (s : Store) : Prop where
  file : ∀ {i I}, s.inodeHeap.get? i = some I → I.isDirectory = false → ∃ name realpath,
    I.name = some name ∧ I.realpath = some realpath ∧ I.isTagfile = decide (name = tagFilename) ∧
      I.ntag = 0
  directory : ∀ {i I}, s.inodeHeap.get? i = some I → I.isDirectory = true → I.isTagfile = false
  record : ∀ {f F}, s.fileHeap.get? f = some F → F.ino < s.inodeHeap.next ∧
    ∀ I, s.inodeHeap.get? F.ino = some I → I.isDirectory = false

end Store

theorem Update.record_file (hu : Update c s s') (hlt : i < s.inodeHeap.next)
    (h : ∀ I, s.inodeHeap.get? i = some I → I.isDirectory = false) :
    i < s'.inodeHeap.next ∧ ∀ I, s'.inodeHeap.get? i = some I → I.isDirectory = false := by
  refine ⟨hlt.trans_le hu.next_le, fun J hJ => ?_⟩
  obtain ⟨I, st, m, hI, rfl⟩ | ⟨rfl, -⟩ := hu.inode_cases hJ
  · exact h I hI
  · exact absurd hlt (Nat.lt_irrefl _)

theorem Update.formed (hu : Update c s s') (h : s.Formed) : s'.Formed where
  file {i J} hJ hd := by
    obtain ⟨I, st, m, hI, rfl⟩ | ⟨-, ⟨p, P, k, -, -, -, rfl, -⟩ | ⟨env, n, -, rfl, -⟩⟩ :=
      hu.inode_cases hJ
    · exact h.file (I := I) hI hd
    · cases hd
    · exact ⟨n, tagRealpath env n, rfl, rfl, rfl, rfl⟩
  directory {i J} hJ hd := by
    obtain ⟨I, st, m, hI, rfl⟩ | ⟨-, ⟨p, P, k, -, -, -, rfl, -⟩ | ⟨env, n, -, rfl, -⟩⟩ :=
      hu.inode_cases hJ
    · exact h.directory (I := I) hI hd
    · rfl
    · cases hd
  record {f F'} hF' := by
    obtain ⟨hsame, -⟩ | ⟨env, m, -, rfl⟩ := hu.files_cases
    · obtain ⟨F, hF, hino⟩ := hsame f F' hF'
      obtain ⟨hlt, hfile⟩ := h.record hF
      rw [← hino]
      exact hu.record_file hlt hfile
    · obtain ⟨-, rfl⟩ | ⟨-, hF⟩ := Heap.get?_alloc_cases hF'
      · refine ⟨by simp [Store.addFile, Store.addInode, newFile], fun I hI => ?_⟩
        have hI' : (s.inodeHeap.alloc (fileInode env s m)).get? s.inodeHeap.next = some I := hI
        rw [Heap.get?_alloc_next] at hI'
        cases hI'
        rfl
      · obtain ⟨hlt, hfile⟩ := h.record hF
        exact hu.record_file hlt hfile

theorem Store.Formed.mono (h : s.Formed) (hsame : SameInos s s')
    (hnext : s'.inodeHeap.next = s.inodeHeap.next)
    (hold : ∀ i J, s'.inodeHeap.get? i = some J → ∃ I st m, s.inodeHeap.get? i = some I ∧
      J = { I with st := st, nlookup := m }) : s'.Formed where
  file {i J} hJ hd := by
    obtain ⟨I, st, m, hI, rfl⟩ := hold i J hJ
    exact h.file (I := I) hI hd
  directory {i J} hJ hd := by
    obtain ⟨I, st, m, hI, rfl⟩ := hold i J hJ
    exact h.directory (I := I) hI hd
  record {f F'} hF' := by
    obtain ⟨F, hF, hino⟩ := hsame f F' hF'
    obtain ⟨hlt, hfile⟩ := h.record hF
    rw [← hino, hnext]
    refine ⟨hlt, fun J hJ => ?_⟩
    obtain ⟨I, st, m, hI, rfl⟩ := hold F.ino J hJ
    exact hfile I hI

theorem formed_rootStore : rootStore.Formed where
  file {i I} hI hd := by
    obtain rfl : i = 0 := Nat.lt_one_iff.mp (Heap.lt_next hI)
    cases hI
    cases hd
  directory {i I} hI _ := by
    obtain rfl : i = 0 := Nat.lt_one_iff.mp (Heap.lt_next hI)
    cases hI
    rfl
  record hF := by cases hF

theorem Store.Formed.step (h : s.Formed) (hs : s.Sound) (he : FuseLowlevel.step s e = .ok s') :
    s'.Formed := by
  refine hs.step_rule he (fun parent name _ => ?_) (fun ino m _ => ?_)
    fun s' hu => hu.invariant h fun _ _ hq hu => hu.formed hq
  · apply (returns_tagRmdir parent name).mono
    rintro r (⟨-, rfl⟩ | ⟨-, -, t, ht, hrem⟩)
    · exact h
    · obtain ⟨-, -, -, -, -, hheap, -⟩ :=
        (sat_tagRemove (E := fun _ => True) hs.links ht).of_ok hrem
      refine h.mono (sameInos_tagRemove.of_ok hrem) (congrArg Heap.next hheap) fun i J hJ => ?_
      exact ⟨J, J.st, J.nlookup, hheap ▸ hJ, rfl⟩
  · apply (returns_tagForget ino m).mono
    rintro ⟨rs, s'⟩ ⟨-, ⟨-, rfl⟩ | ⟨i, I, -, hI, ⟨-, rfl⟩ | ⟨-, -, rfl⟩⟩⟩
    · exact h
    · refine h.mono (.refl rfl) Heap.next_write fun j J hJ => ?_
      obtain ⟨rfl, rfl⟩ | ⟨-, hJ⟩ := Heap.get?_write_cases hJ
      · exact ⟨I, I.st, I.nlookup - m, hI, rfl⟩
      · exact ⟨J, J.st, J.nlookup, hJ, rfl⟩
    · refine h.mono (.refl rfl) Heap.next_free fun j J hJ => ?_
      exact ⟨J, J.st, J.nlookup, (Heap.of_get?_free hJ).2, rfl⟩

theorem node_of_inodeGet (hi : inodeGet s number = some i) (hI : s.inodeHeap.get? i = some I) :
    s.node number = I.node := by
  simp only [Store.node, hi, hI, Option.bind_some]

theorem node_none (hi : inodeGet s number = none) : s.node number = none := by
  simp only [Store.node, hi, Option.bind_none]

theorem node_eq_some (h : s.Indexed) (hmax : s.inodeHeap.next ≤ UInt32.size) :
    s.node number = some x ↔
      ∃ i I, s.inodeHeap.get? i = some I ∧ I.number = number ∧ I.node = some x := by
  constructor
  · intro hx
    obtain ⟨I, hI, hx⟩ := Option.bind_eq_some_iff.mp hx
    obtain ⟨i, hi, hI⟩ := Option.bind_eq_some_iff.mp hI
    obtain ⟨J, hJ, hnum⟩ := h.live hi
    obtain rfl := Option.some.inj (hI.symm.trans hJ)
    exact ⟨i, I, hI, hnum, hx⟩
  · rintro ⟨i, I, hI, rfl, hx⟩
    rw [node_of_inodeGet (h.inodeGet_eq hmax hI) hI, hx]

theorem Inode.node_directory (h : I.isDirectory = true) : I.node = some (.directory I.tag) :=
  if_pos h

theorem Inode.node_file {name realpath : CStr} (h : I.isDirectory = false)
    (hname : I.name = some name) (hpath : I.realpath = some realpath) :
    I.node = some (.file name realpath) := by
  rw [Inode.node, if_neg (by simp [h]), hname, hpath]
  rfl

theorem Store.Formed.fileNode (h : s.Formed) (hI : s.inodeHeap.get? i = some I)
    (hdir : I.isDirectory = false) : ∃ name realpath, I.node = some (.file name realpath) ∧
      I.name = some name ∧ I.realpath = some realpath ∧ I.isTagfile = decide (name = tagFilename) ∧
        I.ntag = 0 := by
  obtain ⟨name, realpath, hname, hpath, hrest⟩ := h.file hI hdir
  exact ⟨name, realpath, I.node_file hdir hname hpath, hname, hpath, hrest⟩

theorem Inode.isDirectory_eq (hx : I.node = some x) : I.isDirectory = x.isDirectory := by
  rw [Inode.node] at hx
  split_ifs at hx with hdir
  · cases hx
    exact hdir
  · obtain ⟨name, -, hx⟩ := Option.bind_eq_some_iff.mp hx
    obtain ⟨realpath, -, rfl⟩ := Option.map_eq_some_iff.mp hx
    exact Bool.eq_false_iff.mpr hdir

theorem Updates.node (hu : Updates c s s') (hs : s.Sound) (hmax : s'.inodeHeap.next ≤ UInt32.size)
    (hx : s.node number = some x) : s'.node number = some x := by
  obtain ⟨I, hI, hx⟩ := Option.bind_eq_some_iff.mp hx
  obtain ⟨i, hi, hI⟩ := Option.bind_eq_some_iff.mp hI
  obtain ⟨J, hJ, hnum⟩ := hs.indexed.live hi
  obtain rfl := Option.some.inj (hI.symm.trans hJ)
  obtain ⟨st, m, hI', -⟩ := hu.kept hI
  exact (node_eq_some (hu.sound' hs).indexed hmax).mpr ⟨i, _, hI', hnum, hx⟩

theorem Updates.grows (hu : Updates c s s') (hs : s.Sound) (hmax : s'.inodeHeap.next ≤ UInt32.size)
    (hcat : s'.catalogue = C) : s.view.Grows C s'.view :=
  ⟨hcat, fun _ _ => hu.node hs hmax⟩

theorem hasTag_iff_contains : HasTag s n k ↔ ∃ f F, s.files.get? n = some f ∧
    s.fileHeap.get? f = some F ∧ F.tags.contains k = true := by
  simp only [HasTag, Linked, Table.contains_iff_get?]
  constructor
  · rintro ⟨f, t, hf, F, hF, ht⟩
    exact ⟨f, F, hf, hF, t, ht⟩
  · rintro ⟨f, F, hf, hF, t, ht⟩
    exact ⟨f, t, hf, F, hF, ht⟩

theorem catalogue_of_links (h : s'.links = s.links) : s'.catalogue = s.catalogue := by
  have hfiles : s'.files = s.files := congrArg Links.files h
  have hheap : s'.fileHeap = s.fileHeap := congrArg Links.fileHeap h
  have htags : s'.tags = s.tags := congrArg Links.tags h
  refine Catalogue.ext_iff_forall.mpr ⟨fun n k => ?_, fun k => ?_⟩
  · show HasTag s' n k ↔ HasTag s n k
    rw [hasTag_iff_contains, hasTag_iff_contains, hfiles, hheap]
  · show tagExist s' k = true ↔ tagExist s k = true
    rw [tagExist, tagGet, htags]
    rfl

theorem catalogue_addFile (hn : s.files.get? n = none) :
    (s.addFile (newFile env s n) I).catalogue = s.catalogue := by
  refine Catalogue.ext_iff_forall.mpr ⟨fun m k => ?_, fun k => Iff.rfl⟩
  apply hasTag_iff_contains.trans
  show (∃ f F, (s.files.add n s.fileHeap.next).get? m = some f ∧
    (s.fileHeap.alloc (newFile env s n)).get? f = some F ∧ _) ↔ HasTag s m k
  rw [hasTag_iff_contains]
  constructor
  · rintro ⟨f, F, hf, hF, hk⟩
    obtain ⟨-, rfl⟩ | ⟨hne, hF⟩ := Heap.get?_alloc_cases hF
    · cases hk
    · rw [Table.get?_add] at hf
      split_ifs at hf with hnm
      · exact absurd (Option.some.inj hf).symm hne
      · exact ⟨f, F, hf, hF, hk⟩
  · rintro ⟨f, F, hf, hF, hk⟩
    have hnm : n ≠ m := by
      rintro rfl
      rw [hn] at hf
      cases hf
    exact ⟨f, F, by rw [Table.get?_add, if_neg hnm, hf], Heap.get?_alloc_of_some hF, hk⟩

theorem returns_fileGetOrCreate_catalogue :
    Returns (fileGetOrCreate env s n) fun r => r.2.catalogue = s.catalogue := by
  apply (sat_fileGetOrCreate trivial trivial).mono
  rintro ⟨f, s'⟩ (⟨-, rfl⟩ | ⟨hn, -, rfl⟩)
  · rfl
  · exact catalogue_addFile hn

theorem hasTag_writeFile (hs : s.links.Sound) (hn : s.files.get? n = some f)
    (hF : s.fileHeap.get? f = some F) (hfiles : s'.files = s.files)
    (hheap : s'.fileHeap = s.fileHeap.write f G) :
    HasTag s' m k ↔ if m = n then G.tags.contains k = true else HasTag s m k := by
  simp only [hasTag_iff_contains, hfiles, hheap]
  split_ifs with hmn
  · subst hmn
    simp [hn, Heap.get?_write_self hF]
  · refine exists_congr fun f' => exists_congr fun F' => and_congr_right fun hf' => ?_
    have hne : f' ≠ f := by
      rintro rfl
      exact hmn (hs.files.inj hf' hn)
    rw [Heap.get?_write_ne hne]

theorem hasTag_iff_record (hn : s.files.get? n = some f) (hF : s.fileHeap.get? f = some F) :
    HasTag s n k ↔ F.tags.contains k = true := by
  simp [hasTag_iff_contains, hn, hF]

theorem catalogue_tagGetOrCreate (hk : s.tags.get? k = none) :
    (tagGetOrCreate s k).2.catalogue = s.catalogue.use k := by
  rw [tagGetOrCreate_new hk]
  refine Catalogue.ext_iff_forall.mpr ⟨fun n k' => Iff.rfl, fun k' => ?_⟩
  show ((s.tags.add k s.tagHeap.next).get? k').isSome = true ↔ (s.tags.get? k').isSome = true ∨ k' = k
  rw [Table.get?_add]
  split_ifs with hkk
  · simp [hkk]
  · simp [Ne.symm hkk]

theorem returns_tagFile_catalogue (hs : s.links.Sound) (hn : s.files.get? n = some f) :
    Returns (tagFile s (tagGet s k) f) fun s' => s'.catalogue = s.catalogue.tag n [k] := by
  cases hk : tagGet s k with
  | none => trivial
  | some t =>
    obtain ⟨T, hT, hv⟩ := hs.tags.object hk
    obtain ⟨F, hF, -⟩ := hs.files.object hn
    rw [tagFile_eq hT hF]
    refine Catalogue.ext_iff_forall.mpr ⟨fun m k' => ?_, fun k' => ?_⟩
    · show HasTag _ m k' ↔ HasTag s m k' ∨ m = n ∧ k' ∈ [k]
      rw [hasTag_writeFile (G := { F with tags := F.tags.addNew T.value t }) hs hn hF,
        List.mem_singleton]
      rotate_left
      · rfl
      · rfl
      split_ifs with hmn
      · subst hmn
        rw [hasTag_iff_record hn hF, Table.contains_addNew, show T.value = k from hv]
        simp [or_comm]
      · simp [hmn]
    · show tagExist s k' = true ↔ tagExist s k' = true ∨ k' ∈ [k]
      refine ⟨.inl, fun h => h.elim id fun hk' => ?_⟩
      rw [List.mem_singleton.mp hk', tagExist, hk]
      rfl

theorem returns_untagFile_catalogue (hs : s.links.Sound) (hn : s.files.get? n = some f) :
    Returns (untagFile s (tagGet s k) f) fun s' => s'.catalogue = s.catalogue.strip n [k] := by
  cases hk : tagGet s k with
  | none => trivial
  | some t =>
    obtain ⟨T, hT, hv⟩ := hs.tags.object hk
    obtain ⟨F, hF, -⟩ := hs.files.object hn
    have hu : F.tags.Unique := hs.fileTags hF
    rw [untagFile_eq hT hF]
    refine Catalogue.ext_iff_forall.mpr ⟨fun m k' => ?_, fun k' => Iff.rfl⟩
    show HasTag _ m k' ↔ HasTag s m k' ∧ ¬(m = n ∧ k' ∈ [k])
    rw [hasTag_writeFile (G := { F with tags := F.tags.erase T.value }) hs hn hF, List.mem_singleton]
    rotate_left
    · rfl
    · rfl
    split_ifs with hmn
    · subst hmn
      rw [hasTag_iff_record hn hF, show T.value = k from hv, Table.contains, hu.get?_erase]
      split_ifs with hkk
      · simp [hkk]
      · simp [hkk, Table.contains]
    · simp [hmn]

theorem catalogue_tagRemove (hs : s.Sound) (ht : s.tags.get? k = some t)
    (h : tagRemove s (some t) = .ok s') : s'.catalogue = s.catalogue.drop k := by
  obtain ⟨hl, htags, hheap, -⟩ := (sat_tagRemove (E := fun _ => True) hs.links ht).of_ok h
  have hu : s.tags.Unique := hs.links.tags.unique
  have hget (k' : CStr) : s'.tags.get? k' = if k' = k then none else s.tags.get? k' := by
    rw [htags, hu.get?_erase]
  refine Catalogue.ext_iff_forall.mpr ⟨fun n k' => ?_, fun k' => ?_⟩
  · show HasTag s' n k' ↔ HasTag s n k' ∧ k' ≠ k
    have hnone {s : Store} (hs : s.links.Sound) (hk : s.tags.get? k' = none) : ¬ HasTag s n k' := by
      rintro ⟨f, t, hf, hl⟩
      exact untagged_of_none hs hk n f hf t hl
    by_cases hkk : k' = k
    · subst hkk
      refine iff_of_false (hnone hl ?_) fun h => h.2 rfl
      rw [hget, if_pos rfl]
    · have hk' : s'.tags.get? k' = s.tags.get? k' := by rw [hget, if_neg hkk]
      cases hreg : s.tags.get? k' with
      | none => exact iff_of_false (hnone hl (hk'.trans hreg)) fun h => hnone hs.links hreg h.1
      | some t' =>
        have hne : t' ≠ t := by
          rintro rfl
          exact hkk (hs.links.tags.inj hreg ht)
        rw [hasTag_iff hl (hk'.trans hreg), hasTag_iff hs.links hreg, hheap]
        simp only [linked_free, hne, ne_eq, not_false_eq_true, true_and, hkk, and_true]
  · show (s'.tags.get? k').isSome = true ↔ (s.tags.get? k').isSome = true ∧ k' ≠ k
    rw [hget]
    split_ifs with hkk
    · simp [hkk]
    · simp [hkk]

end TagFilesystem.FuseLowlevel
