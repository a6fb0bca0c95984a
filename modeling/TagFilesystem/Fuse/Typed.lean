import TagFilesystem.Fuse.Effects

namespace TagFilesystem.Fuse

structure Store.Typed (s : Store) : Prop where
  tagsUnique : s.tags.Unique
  tagEntry : ∀ {k t}, s.tags.get? k = some t → ∃ T, s.tagHeap.get? t = some T ∧ T.value = k
  filesUnique : s.files.Unique
  fileEntry : ∀ {n f}, s.files.get? n = some f → ∃ F, s.fileHeap.get? f = some F ∧ F.name = n
  tagFilesUnique : ∀ {t T}, s.tagHeap.get? t = some T → T.files.Unique
  fileTagsUnique : ∀ {f F}, s.fileHeap.get? f = some F → F.tags.Unique
  /-- The files of a tag are records of the table `files`. -/
  tagFilesEntry : ∀ {t T n f}, s.tagHeap.get? t = some T → T.files.get? n = some f →
    s.files.get? n = some f

theorem typed_init : Store.init.Typed where
  tagsUnique := Table.unique_empty
  tagEntry h := by cases h
  filesUnique := Table.unique_empty
  fileEntry h := by cases h
  tagFilesUnique h := by cases h
  fileTagsUnique h := by cases h
  tagFilesEntry h := by cases h

namespace Store.Typed

variable {env : Env} {s : Store} {t : TagId} {T T' : Tag} {f : FileId} {F F' : File}
  (h : s.Typed)
include h

theorem value_of_get? {k : CStr} (hk : s.tags.get? k = some t) (hT : s.tagHeap.get? t = some T) :
    T.value = k := by
  obtain ⟨T', hT', hv⟩ := h.tagEntry hk
  rw [hT] at hT'
  cases hT'
  exact hv

theorem name_of_get? {n : CStr} (hn : s.files.get? n = some f) (hF : s.fileHeap.get? f = some F) :
    F.name = n := by
  obtain ⟨F', hF', hv⟩ := h.fileEntry hn
  rw [hF] at hF'
  cases hF'
  exact hv

theorem name_inj {n n' : CStr} (hn : s.files.get? n = some f) (hn' : s.files.get? n' = some f) :
    n = n' := by
  obtain ⟨F, hF, hv⟩ := h.fileEntry hn
  rw [← hv, h.name_of_get? hn' hF]

theorem file_eq_iff {n n' : CStr} {f' : FileId} (hn : s.files.get? n = some f)
    (hn' : s.files.get? n' = some f') : f = f' ↔ n = n' := by
  constructor
  · rintro rfl
    exact h.name_inj hn hn'
  · rintro rfl
    exact Option.some.inj (hn.symm.trans hn')

theorem setDescriptors (fds : Table Addr FileDescriptor) : Store.Typed { s with fds := fds } :=
  ⟨h.1, h.2, h.3, h.4, h.5, h.6, h.7⟩

theorem setLeaked (leaked : Table Addr Path) : Store.Typed { s with leaked := leaked } :=
  ⟨h.1, h.2, h.3, h.4, h.5, h.6, h.7⟩

theorem writeTag (hT : s.tagHeap.get? t = some T) (hv : T'.value = T.value) (hu : T'.files.Unique)
    (he : ∀ n f, T'.files.get? n = some f → s.files.get? n = some f) : (s.writeTag t T').Typed where
  tagsUnique := h.tagsUnique
  tagEntry {k t'} hk := by
    obtain ⟨T₁, hT₁, hv₁⟩ := h.tagEntry hk
    by_cases ht : t' = t
    · subst ht
      rw [hT] at hT₁
      cases hT₁
      exact ⟨T', Heap.get?_write_self hT, hv.trans hv₁⟩
    · exact ⟨T₁, by simpa [Heap.get?_write_ne ht] using hT₁, hv₁⟩
  filesUnique := h.filesUnique
  fileEntry := h.fileEntry
  tagFilesUnique {t' T₁} h₁ := by
    by_cases ht : t' = t
    · subst ht
      rw [Store.writeTag_tagHeap, Heap.get?_write_self hT] at h₁
      cases h₁
      exact hu
    · rw [Store.writeTag_tagHeap, Heap.get?_write_ne ht] at h₁
      exact h.tagFilesUnique h₁
  fileTagsUnique := h.fileTagsUnique
  tagFilesEntry {t' T₁ n f} h₁ hn := by
    by_cases ht : t' = t
    · subst ht
      rw [Store.writeTag_tagHeap, Heap.get?_write_self hT] at h₁
      cases h₁
      exact he n f hn
    · rw [Store.writeTag_tagHeap, Heap.get?_write_ne ht] at h₁
      exact h.tagFilesEntry h₁ hn

theorem touchTag (hT : s.tagHeap.get? t = some T) (hv : T'.value = T.value)
    (hf : T'.files = T.files) : (s.writeTag t T').Typed :=
  h.writeTag hT hv (hf ▸ h.tagFilesUnique hT) fun _ _ hn => h.tagFilesEntry hT (hf ▸ hn)

theorem writeFile (hF : s.fileHeap.get? f = some F) (hn : F'.name = F.name) (hu : F'.tags.Unique) :
    (s.writeFile f F').Typed where
  tagsUnique := h.tagsUnique
  tagEntry := h.tagEntry
  filesUnique := h.filesUnique
  fileEntry {n f'} hn' := by
    obtain ⟨F₁, hF₁, hv₁⟩ := h.fileEntry hn'
    by_cases hf : f' = f
    · subst hf
      rw [hF] at hF₁
      cases hF₁
      exact ⟨F', Heap.get?_write_self hF, hn.trans hv₁⟩
    · exact ⟨F₁, by simpa [Heap.get?_write_ne hf] using hF₁, hv₁⟩
  tagFilesUnique := h.tagFilesUnique
  fileTagsUnique {f' F₁} h₁ := by
    by_cases hf : f' = f
    · subst hf
      rw [Store.writeFile_fileHeap, Heap.get?_write_self hF] at h₁
      cases h₁
      exact hu
    · rw [Store.writeFile_fileHeap, Heap.get?_write_ne hf] at h₁
      exact h.fileTagsUnique h₁
  tagFilesEntry := h.tagFilesEntry

theorem addFile {n : CStr} (hT : s.tagHeap.get? t = some T) (hn : s.files.get? n = some f) :
    (s.writeTag t { T with files := T.files.addNew n f, inUse := true }).Typed := by
  refine h.writeTag hT rfl (h.tagFilesUnique hT).addNew ?_
  intro n' f' hn'
  change (T.files.addNew n f).get? n' = some f' at hn'
  rw [Table.get?_addNew] at hn'
  split_ifs at hn' with he
  · subst he
    cases hg : T.files.get? n with
    | none =>
      rw [hg] at hn'
      cases hn'
      exact hn
    | some f₁ =>
      rw [hg] at hn'
      cases hn'
      exact h.tagFilesEntry hT hg
  · exact h.tagFilesEntry hT hn'

theorem removeFile {n : CStr} (hT : s.tagHeap.get? t = some T) :
    (s.writeTag t { T with files := T.files.erase n }).Typed := by
  refine h.writeTag hT rfl (h.tagFilesUnique hT).erase ?_
  intro n' f' hn'
  change (T.files.erase n).get? n' = some f' at hn'
  rw [(h.tagFilesUnique hT).get?_erase] at hn'
  split_ifs at hn' with he
  exact h.tagFilesEntry hT hn'

theorem attach (hT : s.tagHeap.get? t = some T) (hF : s.fileHeap.get? f = some F)
    (hn : s.files.get? F.name = some f) : (s.attach env t T f F).Typed := by
  have hw : (s.writeFile f { F with
      tags := F.tags.addNew T.value t
      revents := s.notified env F POLLIN }).Typed :=
    h.writeFile hF rfl (h.fileTagsUnique hF).addNew
  exact hw.addFile hT hn

theorem detach (hT : s.tagHeap.get? t = some T) (hF : s.fileHeap.get? f = some F) :
    (s.detach env t T f F).Typed := by
  have hw : (s.writeFile f { F with
      tags := F.tags.erase T.value
      revents := s.notified env F POLLOUT }).Typed :=
    h.writeFile hF rfl (h.fileTagsUnique hF).erase
  exact hw.removeFile hT

theorem registerTag (hk : s.tags.get? T.value = none) (hnil : T.files = .empty) :
    (s.registerTag T).Typed where
  tagsUnique := h.tagsUnique.add hk
  tagEntry {k t'} hk' := by
    simp only [Store.registerTag, Table.get?_add] at hk'
    split_ifs at hk' with he
    · cases hk'
      exact ⟨T, Heap.get?_alloc_next, he⟩
    · obtain ⟨T₁, hT₁, hv₁⟩ := h.tagEntry hk'
      exact ⟨T₁, Heap.get?_alloc_of_some hT₁, hv₁⟩
  filesUnique := h.filesUnique
  fileEntry := h.fileEntry
  tagFilesUnique {t' T₁} h₁ := by
    obtain ⟨-, rfl⟩ | ⟨-, h₁⟩ := Heap.get?_alloc_cases h₁
    · exact hnil ▸ Table.unique_empty
    · exact h.tagFilesUnique h₁
  fileTagsUnique := h.fileTagsUnique
  tagFilesEntry {t' T₁ n f} h₁ hn := by
    obtain ⟨-, rfl⟩ | ⟨-, h₁⟩ := Heap.get?_alloc_cases h₁
    · simp [hnil] at hn
    · exact h.tagFilesEntry h₁ hn

theorem registerFile (hn : s.files.get? F.name = none) (hnil : F.tags = .empty) :
    (s.registerFile F).Typed where
  tagsUnique := h.tagsUnique
  tagEntry := h.tagEntry
  filesUnique := h.filesUnique.add hn
  fileEntry {n f'} hn' := by
    simp only [Store.registerFile, Table.get?_add] at hn'
    split_ifs at hn' with he
    · cases hn'
      exact ⟨F, Heap.get?_alloc_next, he⟩
    · obtain ⟨F₁, hF₁, hv₁⟩ := h.fileEntry hn'
      exact ⟨F₁, Heap.get?_alloc_of_some hF₁, hv₁⟩
  tagFilesUnique := h.tagFilesUnique
  fileTagsUnique {f' F₁} h₁ := by
    obtain ⟨-, rfl⟩ | ⟨-, h₁⟩ := Heap.get?_alloc_cases h₁
    · exact hnil ▸ Table.unique_empty
    · exact h.fileTagsUnique h₁
  tagFilesEntry {t' T₁ n f} h₁ hn' := by
    have hf := h.tagFilesEntry h₁ hn'
    simp only [Store.registerFile, Table.get?_add]
    split_ifs with he
    · rw [← he, hn] at hf
      cases hf
    · exact hf

theorem eraseName (k : CStr) : Store.Typed { s with tags := s.tags.erase k } where
  tagsUnique := h.tagsUnique.erase
  tagEntry {k' t'} hk' := by
    simp only [h.tagsUnique.get?_erase] at hk'
    split_ifs at hk'
    exact h.tagEntry hk'
  filesUnique := h.filesUnique
  fileEntry := h.fileEntry
  tagFilesUnique := h.tagFilesUnique
  fileTagsUnique := h.fileTagsUnique
  tagFilesEntry := h.tagFilesEntry

theorem freeTag (ht : ∀ k, s.tags.get? k ≠ some t) :
    Store.Typed { s with tagHeap := s.tagHeap.free t } where
  tagsUnique := h.tagsUnique
  tagEntry {k' t'} hk' := by
    obtain ⟨T₁, hT₁, hv₁⟩ := h.tagEntry hk'
    have hne : t' ≠ t := fun he => ht k' (he ▸ hk')
    exact ⟨T₁, by simpa [Heap.get?_free, hne] using hT₁, hv₁⟩
  filesUnique := h.filesUnique
  fileEntry := h.fileEntry
  tagFilesUnique {t' T₁} h₁ := by
    exact h.tagFilesUnique (Heap.of_get?_free h₁).2
  fileTagsUnique := h.fileTagsUnique
  tagFilesEntry {t' T₁ n f} h₁ hn := by
    exact h.tagFilesEntry (Heap.of_get?_free h₁).2 hn

theorem dropTag (hT : s.tagHeap.get? t = some T) : (s.dropTag t T).Typed := by
  have he := h.eraseName T.value
  unfold Store.dropTag
  split_ifs with hr
  · refine he.freeTag fun k hk => ?_
    simp only [h.tagsUnique.get?_erase] at hk
    split_ifs at hk with hkv
    -- a freed tag was registered under its own name only, and that name is gone
    exact hkv (h.value_of_get? hk hT).symm
  · exact he.touchTag hT rfl rfl

end Store.Typed

/-- `tag_mkdir` refuses a path of several components and a tag in use; it puts a registered tag in
use, and registers a new one. -/
theorem tagMkdir_cases {s : Store} (h : s.Typed) (userPath : CStr) :
    (∃ r, (1 < getCharacterCount userPath slash ∨ ∃ t T, s.tags.get? (basename userPath) = some t ∧
        s.tagHeap.get? t = some T ∧ T.inUse = true) ∧ tagMkdir s userPath = .ok (r, s)) ∨
      (∃ t T, getCharacterCount userPath slash ≤ 1 ∧ s.tags.get? (basename userPath) = some t ∧
        s.tagHeap.get? t = some T ∧ T.inUse = false ∧
        tagMkdir s userPath = .ok (0, s.writeTag t { T with inUse := true })) ∨
      getCharacterCount userPath slash ≤ 1 ∧ s.tags.get? (basename userPath) = none ∧
        tagMkdir s userPath =
          .ok (0, s.registerTag { tagNew (basename userPath) true with refCount := 1 }) := by
  unfold tagMkdir
  by_cases hc : 1 < getCharacterCount userPath slash
  · rw [if_pos hc]
    exact .inl ⟨_, .inl hc, rfl⟩
  have hle : getCharacterCount userPath slash ≤ 1 := by omega
  rw [if_neg hc]
  cases hk : s.tags.get? (basename userPath) with
  | none =>
    refine .inr (.inr ⟨hle, rfl, ?_⟩)
    simp only [tagGet, hk, tagGetOrCreate_none hk, ok_bind]
  | some t =>
    obtain ⟨T, hT, -⟩ := h.tagEntry hk
    simp only [tagGet, hk, Store.readTag_eq hT, ok_bind]
    by_cases hu : T.inUse = true
    · rw [if_pos hu]
      exact .inl ⟨_, .inr ⟨t, T, rfl, hT, hu⟩, rfl⟩
    · rw [if_neg hu]
      exact .inr (.inl ⟨t, T, hle, rfl, hT, Bool.eq_false_iff.mpr hu, rfl⟩)

/-- A well-typed store whose tags that are not in use have no files. -/
structure Store.Tidy (s : Store) : Prop extends s.Typed where
  idle : ∀ {t T}, s.tagHeap.get? t = some T → T.inUse = false → T.files.entries = []

theorem tidy_init : Store.init.Tidy where
  toTyped := typed_init
  idle h := by cases h

namespace Store.Tidy

variable {env : Env} {s : Store} {t : TagId} {T T' : Tag} {f : FileId} {F F' : File}
  (h : s.Tidy)
include h

theorem setDescriptors (fds : Table Addr FileDescriptor) : Store.Tidy { s with fds := fds } :=
  ⟨h.toTyped.setDescriptors fds, h.idle⟩

theorem setLeaked (leaked : Table Addr Path) : Store.Tidy { s with leaked := leaked } :=
  ⟨h.toTyped.setLeaked leaked, h.idle⟩

theorem writeFile (hF : s.fileHeap.get? f = some F) (hn : F'.name = F.name) (hu : F'.tags.Unique) :
    (s.writeFile f F').Tidy :=
  ⟨h.toTyped.writeFile hF hn hu, h.idle⟩

theorem idle_writeTag (hi : T'.inUse = false → T'.files.entries = []) {t' : TagId} {T₁ : Tag}
    (h₁ : (s.writeTag t T').tagHeap.get? t' = some T₁) (hu : T₁.inUse = false) :
    T₁.files.entries = [] := by
  obtain ⟨-, rfl⟩ | ⟨-, h₁⟩ := Heap.get?_write_cases h₁
  · exact hi hu
  · exact h.idle h₁ hu

theorem touchTag (hT : s.tagHeap.get? t = some T) (hv : T'.value = T.value)
    (hf : T'.files = T.files) (hu : T.inUse = true → T'.inUse = true) : (s.writeTag t T').Tidy where
  toTyped := h.toTyped.touchTag hT hv hf
  idle := h.idle_writeTag fun hi => by
    have hTu : T.inUse = false := by
      cases hb : T.inUse with
      | true => rw [hu hb] at hi; cases hi
      | false => rfl
    rw [hf]
    exact h.idle hT hTu

theorem addFile {n : CStr} (hT : s.tagHeap.get? t = some T) (hn : s.files.get? n = some f) :
    (s.writeTag t { T with files := T.files.addNew n f, inUse := true }).Tidy where
  toTyped := h.toTyped.addFile hT hn
  idle {t' T₁} h₁ hu := by
    refine h.idle_writeTag ?_ h₁ hu
    intro hi
    cases hi

theorem removeFile {n : CStr} (hT : s.tagHeap.get? t = some T) :
    (s.writeTag t { T with files := T.files.erase n }).Tidy where
  toTyped := h.toTyped.removeFile hT
  idle {t' T₁} h₁ hu := by
    refine h.idle_writeTag ?_ h₁ hu
    intro hi
    have hnil := Table.entries_erase_sublist (t := T.files) (k := n)
    rw [h.idle hT hi] at hnil
    exact List.sublist_nil.mp hnil

theorem attach (hT : s.tagHeap.get? t = some T) (hF : s.fileHeap.get? f = some F)
    (hn : s.files.get? F.name = some f) : (s.attach env t T f F).Tidy := by
  have hw : (s.writeFile f { F with
      tags := F.tags.addNew T.value t
      revents := s.notified env F POLLIN }).Tidy :=
    h.writeFile hF rfl (h.fileTagsUnique hF).addNew
  exact hw.addFile hT hn

theorem detach (hT : s.tagHeap.get? t = some T) (hF : s.fileHeap.get? f = some F) :
    (s.detach env t T f F).Tidy := by
  have hw : (s.writeFile f { F with
      tags := F.tags.erase T.value
      revents := s.notified env F POLLOUT }).Tidy :=
    h.writeFile hF rfl (h.fileTagsUnique hF).erase
  exact hw.removeFile hT

theorem registerTag (hk : s.tags.get? T.value = none) (hnil : T.files = .empty) :
    (s.registerTag T).Tidy where
  toTyped := h.toTyped.registerTag hk hnil
  idle {t' T₁} h₁ hu := by
    obtain ⟨-, rfl⟩ | ⟨-, h₁⟩ := Heap.get?_alloc_cases h₁
    · simp [hnil]
    · exact h.idle h₁ hu

theorem registerFile (hn : s.files.get? F.name = none) (hnil : F.tags = .empty) :
    (s.registerFile F).Tidy :=
  ⟨h.toTyped.registerFile hn hnil, h.idle⟩

theorem dropTag (hT : s.tagHeap.get? t = some T) : (s.dropTag t T).Tidy where
  toTyped := h.toTyped.dropTag hT
  idle {t' T₁} h₁ hu := by
    unfold Store.dropTag at h₁
    dsimp only at h₁
    split_ifs at h₁
    · exact h.idle (Heap.of_get?_free h₁).2 hu
    · obtain ⟨rfl, rfl⟩ | ⟨-, h₁⟩ := Heap.get?_write_cases h₁
      · exact h.idle (T := T) hT hu
      · exact h.idle h₁ hu

end Store.Tidy

end TagFilesystem.Fuse
