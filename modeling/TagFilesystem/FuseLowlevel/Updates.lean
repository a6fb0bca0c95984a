import TagFilesystem.FuseLowlevel.Links
import Mathlib.Logic.Relation

namespace TagFilesystem.FuseLowlevel

variable {E : Fault → Prop} {c : Prop} {env : Env} {s s' s₁ : Store} {t : TagId} {T : Tag}
  {f : FileId} {F : File} {i p : InodeId} {I P : Inode} {k n name : CStr} {held : List Lock}

theorem sat_readTag (h : s.tagHeap.get? t = some T) :
    s.readTag (some t) = .ok T := by
  simp only [Store.readTag, h]

theorem sat_readFile (h : s.fileHeap.get? f = some F) : s.readFile f = .ok F := by
  simp only [Store.readFile, h]

theorem sat_readInode (h : s.inodeHeap.get? i = some I) : s.readInode (some i) = .ok I := by
  simp only [Store.readInode, h]

namespace Store

def addInode (s : Store) (I : Inode) : Store :=
  { s with
    nextIno := s.nextIno + 1
    itable := s.itable.add I.number s.inodeHeap.next
    inodeHeap := s.inodeHeap.alloc I }

/-- A new file record with its inode. -/
def addFile (s : Store) (F : File) (I : Inode) : Store :=
  { s.addInode I with
    fileHeap := s.fileHeap.alloc F
    files := s.files.add F.name s.fileHeap.next }

@[simp] theorem links_addInode (s : Store) (I : Inode) : (s.addInode I).links = s.links := rfl

@[simp] theorem links_writeInode (s : Store) (i : InodeId) (I : Inode) :
    (s.writeInode i I).links = s.links := rfl

@[simp] theorem links_addFile (s : Store) (F : File) (I : Inode) :
    (s.addFile F I).links = s.links.registerFile F := rfl

end Store

theorem inodeNew_eq (s : Store) (directory : Bool) : inodeNew s directory =
    (s.inodeHeap.next, s.addInode (blankInode (toNumber s.nextIno) directory)) := rfl

theorem writeInode_addInode (s : Store) (I J : Inode) (h : J.number = I.number) :
    (s.addInode I).writeInode s.inodeHeap.next J = s.addInode J := by
  simp only [Store.addInode, Store.writeInode, Heap.write_alloc, h]

/-- The inode that `create_directory_inode` makes under `P`. -/
def directoryInode (s : Store) (P : Inode) (name : CStr) : Inode :=
  { blankInode (toNumber s.nextIno) true with
    ntag := P.ntag + 1
    tag := P.tag.take P.ntag ++ [name]
    name := some name
    selectedTags := some ⟨(P.tag.take P.ntag ++ [name]).map fun k => (k, tagGet s k)⟩ }

theorem sat_tagAt (hE : E .outOfBounds) (I : Inode) (j : ℕ) :
    Sat E (I.tagAt j) fun k => I.tag[j]? = some k := by
  unfold Inode.tagAt
  split
  · next k hk => exact hk
  · exact hE

theorem sat_writeLock {l : Lock} (h : E .deadlock ∨ l ∉ held) :
    Sat E (writeLock held l) fun _ => True := by
  unfold writeLock
  split_ifs with hl
  · exact h.resolve_right fun hn => hn hl
  · trivial

theorem sat_createDirectoryInode (hP : s.inodeHeap.get? p = some P) (hE : E .outOfBounds)
    (hlock : E .deadlock ∨ Lock.inodeTags s.inodeHeap.next ∉ held) (name : CStr) :
    Sat E (createDirectoryInode held s (some p) name) fun r =>
      P.ntag ≤ P.tag.length ∧
        r = (s.inodeHeap.next, s.addInode (directoryInode s P name)) := by
  have hp : (s.addInode (blankInode (toNumber s.nextIno) true)).readInode (some p) = .ok P :=
    sat_readInode (Heap.get?_alloc_of_some hP)
  have hi : (s.addInode (blankInode (toNumber s.nextIno) true)).readInode
      (some s.inodeHeap.next) = .ok (blankInode (toNumber s.nextIno) true) :=
    sat_readInode Heap.get?_alloc_next
  simp only [createDirectoryInode, inodeNew_eq, hp]
  refine (sat_forRange (fun j (r : List CStr × HashTable (Option TagId)) =>
    j ≤ P.tag.length ∧ r = (P.tag.take j, ⟨(P.tag.take j).map fun k => (k, tagGet s k)⟩))
    ?_ ⟨Nat.zero_le _, rfl⟩).bind ?_
  · rintro j r - ⟨-, rfl⟩
    refine (sat_tagAt hE P j).bind fun k hk => (sat_writeLock hlock).bind fun _ _ => ?_
    obtain ⟨hj, hget⟩ := List.getElem?_eq_some_iff.mp hk
    have htake : P.tag.take (j + 1) = P.tag.take j ++ [k] := by
      rw [List.take_add_one, hk]
      rfl
    refine ⟨hj, ?_⟩
    rw [htake, List.map_append]
    rfl
  · rintro r ⟨hlen, rfl⟩
    refine (sat_writeLock hlock).bind fun _ _ => ?_
    rw [hi]
    refine ⟨hlen, ?_⟩
    have hw := writeInode_addInode s (blankInode (toNumber s.nextIno) true)
      (directoryInode s P name) rfl
    rw [← hw, directoryInode, List.map_append]
    rfl

/-- The inode and the record that `file_new` makes. -/
def fileInode (env : Env) (s : Store) (name : CStr) : Inode :=
  { blankInode (toNumber s.nextIno) false with
    name := some name
    realpath := some (tagRealpath env name)
    isTagfile := if name = tagFilename then true else false }

def newFile (env : Env) (s : Store) (name : CStr) : File where
  name := name
  realpath := tagRealpath env (appendDir env.realdirpath name)
  tags := .empty
  ino := s.inodeHeap.next

theorem sat_getOrCreateInode (hfreed : E .freedObject) :
    Sat E (getOrCreateInode s 1 name false) fun r =>
      r = (none, s) ∨ r = (some s.inodeHeap.next,
        s.addInode { blankInode (toNumber s.nextIno) false with name := some name }) := by
  unfold getOrCreateInode
  split
  · exact .inl rfl
  · next p _ =>
    have hread : Sat E (s.readInode (some p)) fun _ => True := by
      unfold Store.readInode
      dsimp only
      split
      · trivial
      · exact hfreed
    refine hread.bind fun P _ => ?_
    split_ifs
    · exact .inl rfl
    · have hi : (s.addInode (blankInode (toNumber s.nextIno) false)).readInode
          (some s.inodeHeap.next) = .ok (blankInode (toNumber s.nextIno) false) :=
        sat_readInode Heap.get?_alloc_next
      simp only [inodeNew_eq, hi]
      refine .inr (congrArg _ ?_)
      exact writeInode_addInode s _ _ rfl

theorem sat_fileNew (hnull : E .nullPointer) (hfreed : E .freedObject) :
    Sat E (fileNew env s name) fun r =>
      r = (newFile env s name, s.addInode (fileInode env s name)) := by
  unfold fileNew getOrCreateFileInode
  refine Sat.bind (P := fun r => r = (s.inodeHeap.next, s.addInode
    { fileInode env s name with isTagfile := false })) ?_ ?_
  · refine (sat_getOrCreateInode hfreed).bind fun r hr => ?_
    rcases hr with rfl | rfl
    · exact hnull
    · have hi : (s.addInode { blankInode (toNumber s.nextIno) false with
          name := some name }).readInode (some s.inodeHeap.next) =
            .ok { blankInode (toNumber s.nextIno) false with name := some name } :=
        sat_readInode Heap.get?_alloc_next
      simp only [hi]
      refine congrArg _ ?_
      exact writeInode_addInode s _ _ rfl
  · rintro r rfl
    have hi : (s.addInode { fileInode env s name with isTagfile := false }).readInode
        (some s.inodeHeap.next) = .ok { fileInode env s name with isTagfile := false } :=
      sat_readInode Heap.get?_alloc_next
    dsimp only
    split_ifs with hname
    · have hw : ({ fileInode env s name with isTagfile := true } : Inode) =
          fileInode env s name := by simp only [fileInode, hname, if_true]
      rw [hi]
      exact congrArg (Prod.mk (newFile env s name)) (hw ▸ writeInode_addInode s _ _ rfl)
    · have hw : ({ fileInode env s name with isTagfile := false } : Inode) =
          fileInode env s name := by simp only [fileInode, hname, if_false]
      exact congrArg (Prod.mk (newFile env s name)) (congrArg s.addInode hw)

theorem sat_fileGetOrCreate (hnull : E .nullPointer) (hfreed : E .freedObject) :
    Sat E (fileGetOrCreate env s name) fun r =>
      s.files.get? name = some r.1 ∧ r.2 = s ∨
        s.files.get? name = none ∧ r.1 = s.fileHeap.next ∧
          r.2 = s.addFile (newFile env s name) (fileInode env s name) := by
  unfold fileGetOrCreate
  split
  · next f hf => exact .inl ⟨hf, rfl⟩
  · next hf =>
    apply (sat_fileNew hnull hfreed).bind
    rintro r rfl
    exact .inr ⟨hf, rfl, rfl⟩

theorem tagGetOrCreate_new (h : s.tags.get? k = none) :
    tagGetOrCreate s k = (s.tagHeap.next, { s with
      tags := s.tags.add k s.tagHeap.next
      tagHeap := s.tagHeap.alloc (tagNew k) }) := by
  simp only [tagGetOrCreate, h]

theorem tagGetOrCreate_old (h : s.tags.get? k = some t) : tagGetOrCreate s k = (t, s) := by
  simp only [tagGetOrCreate, h]

theorem tagFile_eq (hT : s.tagHeap.get? t = some T) (hF : s.fileHeap.get? f = some F) :
    tagFile s (some t) f = .ok { s with
      tagHeap := s.tagHeap.write t { T with files := T.files.addNew F.name f }
      fileHeap := s.fileHeap.write f { F with tags := F.tags.addNew T.value t } } := by
  simp only [tagFile, sat_readTag hT, sat_readFile hF]
  rfl

theorem untagFile_eq (hT : s.tagHeap.get? t = some T) (hF : s.fileHeap.get? f = some F) :
    untagFile s (some t) f = .ok { s with
      tagHeap := s.tagHeap.write t { T with files := T.files.erase F.name }
      fileHeap := s.fileHeap.write f { F with tags := F.tags.erase T.value } } := by
  simp only [untagFile, sat_readTag hT, sat_readFile hF]
  rfl

/-- One update of the store. With `c` it may be the lookup of an inode. -/
inductive Update (c : Prop) (s : Store) : Store → Prop
  | inode {i : InodeId} {I : Inode} (st : Stat) : s.inodeHeap.get? i = some I →
      Update c s (s.writeInode i { I with st := st })
  | count {i : InodeId} {I : Inode} : c → s.inodeHeap.get? i = some I →
      Update c s (s.writeInode i { I with nlookup := I.nlookup + 1 })
  | generation (g : UInt64) : Update c s { s with nextGen := g }
  | directory {p : InodeId} {P : Inode} {k : CStr} : s.inodeHeap.get? p = some P → (tagGet s k).isSome = true →
      P.ntag ≤ P.tag.length → Update c s (s.addInode (directoryInode s P k))
  | file {n : CStr} (env : Env) : s.files.get? n = none →
      Update c s (s.addFile (newFile env s n) (fileInode env s n))
  | tag {k : CStr} : s.tags.get? k = none → Update c s (tagGetOrCreate s k).2
  | attach {k n : CStr} {t : TagId} {f : FileId} {s' : Store} : s.tags.get? k = some t →
      s.files.get? n = some f → tagFile s (some t) f = .ok s' → Update c s s'
  | detach {k n : CStr} {t : TagId} {f : FileId} {s' : Store} : s.tags.get? k = some t →
      s.files.get? n = some f → untagFile s (some t) f = .ok s' → Update c s s'

abbrev Updates (c : Prop) : Store → Store → Prop := Relation.ReflTransGen (Update c)

theorem Updates.invariant {Q : Store → Prop} (h : Updates c s s') (hs : Q s)
    (hstep : ∀ s s', Q s → Update c s s' → Q s') : Q s' := by
  induction h with
  | refl => exact hs
  | tail _ hu ih => exact hstep _ _ ih hu

theorem Update.mono {c' : Prop} (h : Update c s s') (hc : c → c') :
    Update c' s s' := by
  cases h with
  | inode st hi => exact .inode st hi
  | count hcs hi => exact .count (hc hcs) hi
  | generation g => exact .generation g
  | directory hp hk hn => exact .directory hp hk hn
  | file env hn => exact .file env hn
  | tag hk => exact .tag hk
  | attach ht hn h => exact .attach ht hn h
  | detach ht hn h => exact .detach ht hn h

theorem Updates.mono {c' : Prop} (h : Updates c s s') (hc : c → c') :
    Updates c' s s' :=
  Relation.ReflTransGen.mono (fun _ _ hu => Update.mono hu hc) _ _ h

theorem Update.sound (h : Update c s s') (hs : s.links.Sound) : s'.links.Sound := by
  cases h with
  | inode st hi => exact hs
  | count hc hi => exact hs
  | generation g => exact hs
  | directory hp hk hn => exact hs
  | file env hn => exact hs.registerFile hn rfl
  | tag hk =>
    rw [tagGetOrCreate_new hk]
    exact hs.registerTag hk
  | attach ht hn h =>
    obtain ⟨T, hT, -⟩ := hs.tags.object ht
    obtain ⟨F, hF, -⟩ := hs.files.object hn
    rw [tagFile_eq hT hF] at h
    cases h
    exact hs.attach ht hT hn hF
  | detach ht hn h =>
    obtain ⟨T, hT, -⟩ := hs.tags.object ht
    obtain ⟨F, hF, -⟩ := hs.files.object hn
    rw [untagFile_eq hT hF] at h
    cases h
    exact hs.detach ht hT hn hF

theorem Updates.sound (h : Updates c s s') (hs : s.links.Sound) : s'.links.Sound :=
  h.invariant hs fun _ _ hs hu => hu.sound hs

theorem sat_tagRemove (h : s.links.Sound) (ht : s.tags.get? k = some t) :
    Sat E (tagRemove s (some t)) fun s' => s'.links.Sound ∧ s'.tags = s.tags.erase k ∧
      s'.tagHeap = s.tagHeap.free t ∧ s'.files = s.files ∧ s'.itable = s.itable ∧
      s'.inodeHeap = s.inodeHeap ∧ s'.nextIno = s.nextIno := by
  obtain ⟨T, hT, hv⟩ := h.tags.object ht
  change s.tagHeap.get? t = some T at hT
  subst hv
  rw [tagRemove, sat_readTag hT]
  change Sat E (forEach T.files.entries _ s >>= _) _
  refine Sat.bind (sat_forEach_visited (fun done (s' : Store) => Links.Stripped s.links T.value
    (done.map Prod.snd) s'.links ∧ s'.itable = s.itable ∧ s'.inodeHeap = s.inodeHeap ∧
      s'.nextIno = s.nextIno) ?_ ⟨Links.Stripped.refl h.toTyped, rfl, rfl, rfl⟩) ?_
  · rintro done ⟨n, f⟩ rest s' hl ⟨hst, hi, hh, hn⟩
    have hmem : (n, f) ∈ T.files.entries := hl ▸ List.mem_append_right _ List.mem_cons_self
    have hf : s.files.get? n = some f :=
      h.member ((linked_iff hT).mpr (((h.tagFiles hT).get?_eq_some).mpr hmem))
    obtain ⟨F, hF, -⟩ := hst.typed.files.object (k := n) (i := f) (by rw [hst.files]; exact hf)
    rw [sat_readFile (s := s') hF]
    refine ⟨?_, hi, hh, hn⟩
    rw [List.map_append]
    exact hst.strip hF
  · rintro s' ⟨hst, hi, hh, hn⟩
    have htags : s'.tags = s.tags := hst.tags
    have htag : s'.tagHeap = s.tagHeap := hst.tagHeap
    refine ⟨hst.dropTag h ht fun n f hl => ?_, ?_, ?_, hst.files, hi, hh, hn⟩
    · have hg := ((h.tagFiles hT).get?_eq_some).mp ((linked_iff hT).mp hl)
      exact List.mem_map.mpr ⟨(n, f), hg, rfl⟩
    · exact congrArg (Table.erase · T.value) htags
    · exact congrArg (Heap.free · t) htag

end TagFilesystem.FuseLowlevel
