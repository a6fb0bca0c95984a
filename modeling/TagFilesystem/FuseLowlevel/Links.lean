import TagFilesystem.FuseLowlevel.FuseCallback
import TagFilesystem.Library.Registry

namespace TagFilesystem.FuseLowlevel

structure Links where
  tags : HashTable TagId
  tagHeap : Heap Tag
  files : HashTable FileId
  fileHeap : Heap File

def Store.links (s : Store) : Links := ⟨s.tags, s.tagHeap, s.files, s.fileHeap⟩

namespace Links

/-- Tables lead to objects of the right kind under the names those objects carry. -/
structure Typed (l : Links) : Prop where
  tags : Named Tag.value l.tags l.tagHeap
  files : Named File.name l.files l.fileHeap
  tagFiles : LinksUnique Tag.files l.tagHeap
  fileTags : LinksUnique File.tags l.fileHeap
  /-- The files of a tag are records of the table `files`. -/
  member : ∀ {t n f}, Linked Tag.files l.tagHeap t n f → l.files.get? n = some f

/-- For every file record and every name, the file has the tag exactly if the registry has an
entry of this name whose object has the file, and then it is that very object. -/
def Coherent (l : Links) : Prop :=
  ∀ ⦃n f⦄, l.files.get? n = some f → ∀ k t,
    Linked File.tags l.fileHeap f k t ↔
      l.tags.get? k = some t ∧ Linked Tag.files l.tagHeap t n f

structure Sound (l : Links) : Prop extends l.Typed where
  coherent : l.Coherent

theorem sound_init : Store.init.links.Sound where
  tags := .empty
  files := .empty
  tagFiles := .empty
  fileTags := .empty
  member := by
    rintro t n f ⟨T, hT, -⟩
    cases hT
  coherent := by
    intro n f hn
    cases hn

def attach (l : Links) (t : TagId) (T : Tag) (f : FileId) (F : File) : Links :=
  { l with
    tagHeap := l.tagHeap.write t { T with files := T.files.addNew F.name f }
    fileHeap := l.fileHeap.write f { F with tags := F.tags.addNew T.value t } }

def detach (l : Links) (t : TagId) (T : Tag) (f : FileId) (F : File) : Links :=
  { l with
    tagHeap := l.tagHeap.write t { T with files := T.files.erase F.name }
    fileHeap := l.fileHeap.write f { F with tags := F.tags.erase T.value } }

def registerTag (l : Links) (k : CStr) : Links :=
  { l with tags := l.tags.add k l.tagHeap.next, tagHeap := l.tagHeap.alloc (tagNew k) }

def registerFile (l : Links) (F : File) : Links :=
  { l with files := l.files.add F.name l.fileHeap.next, fileHeap := l.fileHeap.alloc F }

/-- Takes the tag `k` from one file. -/
def strip (l : Links) (k : CStr) (f : FileId) (F : File) : Links :=
  { l with fileHeap := l.fileHeap.write f { F with tags := F.tags.erase k } }

def dropTag (l : Links) (k : CStr) (t : TagId) : Links :=
  { l with tags := l.tags.erase k, tagHeap := l.tagHeap.free t }

variable {l : Links} {t t' : TagId} {T : Tag} {f f' : FileId} {F : File} {k n : CStr}

namespace Typed

variable (h : l.Typed)
include h

theorem attach (hT : l.tagHeap.get? t = some T) (hF : l.fileHeap.get? f = some F)
    (hn : l.files.get? F.name = some f) : (l.attach t T f F).Typed where
  tags := h.tags.write hT rfl
  files := h.files.write hF rfl
  tagFiles := h.tagFiles.write (h.tagFiles hT).addNew
  fileTags := h.fileTags.write (h.fileTags hF).addNew
  member {t' n f'} hl := by
    have hold : ∀ f', T.files.get? F.name = some f' → f' = f := fun f' hf' =>
      Option.some.inj ((h.member ((linked_iff hT).mpr hf')).symm.trans hn)
    rcases (linked_addNew hT rfl hold).mp hl with hl | ⟨-, rfl, rfl⟩
    · exact h.member hl
    · exact hn

theorem detach (hT : l.tagHeap.get? t = some T) (hF : l.fileHeap.get? f = some F) :
    (l.detach t T f F).Typed where
  tags := h.tags.write hT rfl
  files := h.files.write hF rfl
  tagFiles := h.tagFiles.write (h.tagFiles hT).erase
  fileTags := h.fileTags.write (h.fileTags hF).erase
  member hl := h.member ((linked_erase hT (h.tagFiles hT) rfl).mp hl).1

theorem registerTag (hk : l.tags.get? k = none) : (l.registerTag k).Typed where
  tags := h.tags.register (a := tagNew k) hk
  files := h.files
  tagFiles := h.tagFiles.alloc rfl
  fileTags := h.fileTags
  member hl := h.member ((linked_alloc (a := tagNew k) rfl).mp hl)

theorem registerFile (hn : l.files.get? F.name = none) (hF : F.tags = .empty) :
    (l.registerFile F).Typed where
  tags := h.tags
  files := h.files.register hn
  tagFiles := h.tagFiles
  fileTags := h.fileTags.alloc hF
  member {t n f} hl := by
    have hf := h.member hl
    have hne : F.name ≠ n := by
      rintro rfl
      rw [hn] at hf
      cases hf
    show (l.files.add F.name l.fileHeap.next).get? n = some f
    rw [Table.get?_add, if_neg hne, hf]

theorem strip (hF : l.fileHeap.get? f = some F) : (l.strip k f F).Typed where
  tags := h.tags
  files := h.files.write hF rfl
  tagFiles := h.tagFiles
  fileTags := h.fileTags.write (h.fileTags hF).erase
  member := h.member

theorem dropTag (hk : l.tags.get? k = some t) : (l.dropTag k t).Typed where
  tags := h.tags.remove hk
  files := h.files
  tagFiles := h.tagFiles.free
  fileTags := h.fileTags
  member hl := h.member (linked_free.mp hl).2

end Typed

namespace Sound

variable (h : l.Sound)
include h

theorem registered (hn : l.files.get? n = some f) (hl : Linked File.tags l.fileHeap f k t) :
    l.tags.get? k = some t := ((h.coherent hn k t).mp hl).1

theorem attach (ht : l.tags.get? k = some t) (hT : l.tagHeap.get? t = some T)
    (hn : l.files.get? n = some f) (hF : l.fileHeap.get? f = some F) :
    (l.attach t T f F).Sound := by
  have hv : T.value = k := h.tags.key_eq ht hT
  have hname : F.name = n := h.files.key_eq hn hF
  subst hv hname
  refine ⟨h.toTyped.attach hT hF hn, fun n' f' hn' k' t' => ?_⟩
  have holdF : ∀ t', F.tags.get? T.value = some t' → t' = t := fun t' ht' =>
    Option.some.inj ((h.registered hn ((linked_iff hF).mpr ht')).symm.trans ht)
  have holdT : ∀ f', T.files.get? F.name = some f' → f' = f := fun f' hf' =>
    Option.some.inj ((h.member ((linked_iff hT).mpr hf')).symm.trans hn)
  have hfile : Linked File.tags (l.attach t T f F).fileHeap f' k' t' ↔
      Linked File.tags l.fileHeap f' k' t' ∨ f' = f ∧ k' = T.value ∧ t' = t :=
    linked_addNew hF rfl holdF
  have htag : Linked Tag.files (l.attach t T f F).tagHeap t' n' f' ↔
      Linked Tag.files l.tagHeap t' n' f' ∨ t' = t ∧ n' = F.name ∧ f' = f :=
    linked_addNew hT rfl holdT
  refine hfile.trans (Iff.trans ?_ (and_congr_right fun _ => htag).symm)
  have hc := h.coherent hn' k' t'
  constructor
  · rintro (hl | ⟨rfl, rfl, rfl⟩)
    · exact ⟨(hc.mp hl).1, .inl (hc.mp hl).2⟩
    · exact ⟨ht, .inr ⟨rfl, h.files.inj hn' hn, rfl⟩⟩
  · rintro ⟨hk', hl | ⟨rfl, rfl, rfl⟩⟩
    · exact .inl (hc.mpr ⟨hk', hl⟩)
    · exact .inr ⟨rfl, h.tags.inj hk' ht, rfl⟩

theorem detach (ht : l.tags.get? k = some t) (hT : l.tagHeap.get? t = some T)
    (hn : l.files.get? n = some f) (hF : l.fileHeap.get? f = some F) :
    (l.detach t T f F).Sound := by
  have hv : T.value = k := h.tags.key_eq ht hT
  have hname : F.name = n := h.files.key_eq hn hF
  subst hv hname
  refine ⟨h.toTyped.detach hT hF, fun n' f' hn' k' t' => ?_⟩
  have hfile : Linked File.tags (l.detach t T f F).fileHeap f' k' t' ↔
      Linked File.tags l.fileHeap f' k' t' ∧ ¬(f' = f ∧ k' = T.value) :=
    linked_erase hF (h.fileTags hF) rfl
  have htag : Linked Tag.files (l.detach t T f F).tagHeap t' n' f' ↔
      Linked Tag.files l.tagHeap t' n' f' ∧ ¬(t' = t ∧ n' = F.name) :=
    linked_erase hT (h.tagFiles hT) rfl
  refine hfile.trans (Iff.trans ?_ (and_congr_right fun _ => htag).symm)
  rw [h.coherent hn' k' t', and_assoc]
  refine and_congr_right fun hk' => and_congr_right fun _ => not_congr ?_
  constructor
  · rintro ⟨rfl, rfl⟩
    exact ⟨Option.some.inj (hk'.symm.trans ht), h.files.inj hn' hn⟩
  · rintro ⟨rfl, rfl⟩
    exact ⟨Option.some.inj (hn'.symm.trans hn), h.tags.inj hk' ht⟩

theorem registerTag (hk : l.tags.get? k = none) : (l.registerTag k).Sound := by
  refine ⟨h.toTyped.registerTag hk, fun n f hn k' t' => ?_⟩
  have htag : Linked Tag.files (l.tagHeap.alloc (tagNew k)) t' n f ↔
      Linked Tag.files l.tagHeap t' n f := linked_alloc rfl
  show Linked File.tags l.fileHeap f k' t' ↔
    (l.tags.add k l.tagHeap.next).get? k' = some t' ∧
      Linked Tag.files (l.tagHeap.alloc (tagNew k)) t' n f
  rw [htag, h.coherent hn k' t', Table.get?_add]
  refine and_congr_left fun hl => ?_
  split_ifs with he
  · subst he
    -- a tag that has a file lives, the new one has not been allocated yet
    obtain ⟨T', hT', -⟩ := hl
    simp [hk, (Heap.ne_next hT').symm]
  · exact Iff.rfl

theorem registerFile (hn : l.files.get? F.name = none) (hF : F.tags = .empty) :
    (l.registerFile F).Sound := by
  refine ⟨h.toTyped.registerFile hn hF, fun n' f' hn' k t => ?_⟩
  have hfile : Linked File.tags (l.fileHeap.alloc F) f' k t ↔
      Linked File.tags l.fileHeap f' k t := linked_alloc hF
  apply hfile.trans
  have hn₁ : (l.files.add F.name l.fileHeap.next).get? n' = some f' := hn'
  rw [Table.get?_add] at hn₁
  split_ifs at hn₁ with he
  · subst he
    cases hn₁
    constructor
    · rintro ⟨F', hF', -⟩
      exact absurd rfl (Heap.ne_next hF')
    · rintro ⟨-, hl⟩
      have hf := h.member hl
      rw [hn] at hf
      cases hf
  · exact h.coherent hn₁ k t

end Sound

/-- `l'` is `l` after the tag `k` has been taken from the files in `done`. -/
structure Stripped (l : Links) (k : CStr) (done : List FileId) (l' : Links) : Prop where
  typed : l'.Typed
  tags : l'.tags = l.tags
  tagHeap : l'.tagHeap = l.tagHeap
  files : l'.files = l.files
  linked : ∀ {f k' t}, Linked File.tags l'.fileHeap f k' t ↔
    Linked File.tags l.fileHeap f k' t ∧ ¬(f ∈ done ∧ k' = k)

theorem Stripped.refl (h : l.Typed) : Stripped l k [] l :=
  ⟨h, rfl, rfl, rfl, by simp⟩

theorem Stripped.strip {l' : Links} {done : List FileId} (h : Stripped l k done l')
    (hF : l'.fileHeap.get? f = some F) : Stripped l k (done ++ [f]) (l'.strip k f F) where
  typed := h.typed.strip hF
  tags := h.tags
  tagHeap := h.tagHeap
  files := h.files
  linked {f' k' t'} := by
    have he : Linked File.tags (l'.strip k f F).fileHeap f' k' t' ↔
        Linked File.tags l'.fileHeap f' k' t' ∧ ¬(f' = f ∧ k' = k) :=
      linked_erase hF (h.typed.fileTags hF) rfl
    apply he.trans
    rw [h.linked, List.mem_append, List.mem_singleton]
    tauto

theorem Stripped.dropTag {l' : Links} {done : List FileId} (h : Stripped l k done l')
    (hs : l.Sound) (ht : l.tags.get? k = some t)
    (hdone : ∀ n f, Linked Tag.files l.tagHeap t n f → f ∈ done) : (l'.dropTag k t).Sound := by
  have ht' : l'.tags.get? k = some t := by rwa [h.tags]
  refine ⟨h.typed.dropTag ht', fun n f hn k' t' => ?_⟩
  have hn' : l.files.get? n = some f := h.files ▸ hn
  show Linked File.tags l'.fileHeap f k' t' ↔
    (l'.tags.erase k).get? k' = some t' ∧ Linked Tag.files (l'.tagHeap.free t) t' n f
  rw [h.linked, h.tags, h.tagHeap, hs.tags.unique.get?_erase, linked_free, hs.coherent hn' k' t']
  split_ifs with he
  · subst he
    simp only [false_and, iff_false, not_and, and_imp, not_not, and_true]
    intro hk hl
    rw [ht] at hk
    cases hk
    exact hdone n f hl
  · simp only [he, and_false, not_false_eq_true, and_true]
    refine and_congr_right fun hk => ⟨fun hl => ⟨?_, hl⟩, And.right⟩
    rintro rfl
    exact he (hs.tags.inj hk ht)

end Links

end TagFilesystem.FuseLowlevel
