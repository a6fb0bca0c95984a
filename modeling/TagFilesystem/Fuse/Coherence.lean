import TagFilesystem.Fuse.Callbacks

namespace TagFilesystem.Fuse

variable {env : Env} {s : Store} {t t' : TagId} {T T' : Tag} {f f' : FileId} {F F' : File}
  {k n : CStr} {x : Option Addr} {P R : Held}

namespace Store

/-- The table `f->tags` maps `k` to `t`. -/
def Tagged (s : Store) (f : FileId) (k : CStr) (t : TagId) : Prop :=
  ∃ F, s.fileHeap.get? f = some F ∧ F.tags.get? k = some t

/-- The value of `t` is `k` and the table `t->files` maps `n` to `f`. -/
def Linked (s : Store) (k : CStr) (t : TagId) (n : CStr) (f : FileId) : Prop :=
  ∃ T, s.tagHeap.get? t = some T ∧ T.value = k ∧ T.files.get? n = some f

/-- For every file record and every name, the file has the tag exactly if the registry has an
entry of this name whose object has the file, and then it is that very object. -/
def Coherent (s : Store) : Prop :=
  ∀ ⦃n f⦄, s.files.get? n = some f → ∀ k t,
    s.Tagged f k t ↔ s.tags.get? k = some t ∧ s.Linked k t n f

end Store

theorem coherent_init : Store.init.Coherent := by
  intro n f h
  cases h

theorem tagged_writeFile (hF : s.fileHeap.get? f = some F) :
    (s.writeFile f F').Tagged f' k t ↔
      if f' = f then F'.tags.get? k = some t else s.Tagged f' k t := by
  unfold Store.Tagged
  rw [Store.writeFile_fileHeap]
  split_ifs with hf
  · subst hf
    simp [Heap.get?_write_self hF]
  · rw [Heap.get?_write_ne hf]

theorem tagged_touchFile (hF : s.fileHeap.get? f = some F) (ht : F'.tags = F.tags) :
    (s.writeFile f F').Tagged f' k t ↔ s.Tagged f' k t := by
  rw [tagged_writeFile hF]
  split_ifs with hf
  · subst hf
    simp [Store.Tagged, hF, ht]
  · exact Iff.rfl

theorem tagged_attach (hF : s.fileHeap.get? f = some F)
    (hold : ∀ t', F.tags.get? T.value = some t' → t' = t) :
    (s.attach env t T f F).Tagged f' k t' ↔
      s.Tagged f' k t' ∨ f' = f ∧ k = T.value ∧ t' = t := by
  change (s.writeFile f _).Tagged f' k t' ↔ _
  rw [tagged_writeFile hF]
  by_cases hf : f' = f
  · subst hf
    have ho : s.Tagged f' k t' ↔ F.tags.get? k = some t' := by simp [Store.Tagged, hF]
    rw [if_pos rfl, ho, Table.get?_addNew]
    split_ifs with hk
    · subst hk
      cases hg : F.tags.get? T.value with
      | none => simp [eq_comm]
      | some t₁ =>
        rw [hold t₁ hg]
        simp [eq_comm]
    · simp [Ne.symm hk]
  · simp [hf]

theorem tagged_eraseTag {k₀ : CStr} (hF : s.fileHeap.get? f = some F) (hu : F.tags.Unique)
    (ht : F'.tags = F.tags.erase k₀) :
    (s.writeFile f F').Tagged f' k t ↔ s.Tagged f' k t ∧ ¬(f' = f ∧ k = k₀) := by
  rw [tagged_writeFile hF, ht]
  by_cases hf : f' = f
  · subst hf
    have ho : s.Tagged f' k t ↔ F.tags.get? k = some t := by simp [Store.Tagged, hF]
    rw [if_pos rfl, ho, hu.get?_erase]
    by_cases hk : k = k₀ <;> simp [hk]
  · simp [hf]

theorem tagged_detach (hF : s.fileHeap.get? f = some F) (hu : F.tags.Unique) :
    (s.detach env t T f F).Tagged f' k t' ↔ s.Tagged f' k t' ∧ ¬(f' = f ∧ k = T.value) :=
  tagged_eraseTag hF hu rfl

theorem tagged_registerFile (hnil : F.tags = .empty) :
    (s.registerFile F).Tagged f k t ↔ s.Tagged f k t := by
  unfold Store.Tagged Store.registerFile
  simp only [Heap.get?_alloc]
  split_ifs with hf
  · subst hf
    simp [hnil, Heap.get?_eq_none (Nat.le_refl _)]
  · exact Iff.rfl

theorem linked_writeTag (hT : s.tagHeap.get? t = some T) :
    (s.writeTag t T').Linked k t' n f ↔
      if t' = t then T'.value = k ∧ T'.files.get? n = some f else s.Linked k t' n f := by
  unfold Store.Linked
  rw [Store.writeTag_tagHeap]
  split_ifs with ht
  · subst ht
    simp [Heap.get?_write_self hT]
  · rw [Heap.get?_write_ne ht]

theorem linked_touchTag (hT : s.tagHeap.get? t = some T) (hv : T'.value = T.value)
    (hf : T'.files = T.files) : (s.writeTag t T').Linked k t' n f ↔ s.Linked k t' n f := by
  rw [linked_writeTag hT]
  split_ifs with ht
  · subst ht
    simp [Store.Linked, hT, hv, hf]
  · exact Iff.rfl

theorem linked_attach (hT : s.tagHeap.get? t = some T)
    (hold : ∀ f', T.files.get? F.name = some f' → f' = f) :
    (s.attach env t T f F).Linked k t' n f' ↔
      s.Linked k t' n f' ∨ t' = t ∧ k = T.value ∧ n = F.name ∧ f' = f := by
  apply (linked_writeTag (s := s.writeFile f _) (T := T) hT).trans
  by_cases ht : t' = t
  · subst ht
    have ho : s.Linked k t' n f' ↔ T.value = k ∧ T.files.get? n = some f' := by
      simp [Store.Linked, hT]
    rw [if_pos rfl, ho, Table.get?_addNew]
    split_ifs with hn
    · subst hn
      cases hg : T.files.get? F.name with
      | none => simp [eq_comm]
      | some f₁ =>
        rw [hold f₁ hg]
        simp [eq_comm]
    · simp [Ne.symm hn]
  · simp [ht, Store.Linked]

theorem linked_detach (hT : s.tagHeap.get? t = some T) (hu : T.files.Unique) :
    (s.detach env t T f F).Linked k t' n f' ↔
      s.Linked k t' n f' ∧ ¬(t' = t ∧ n = F.name) := by
  apply (linked_writeTag (s := s.writeFile f _) (T := T) hT).trans
  by_cases ht : t' = t
  · subst ht
    have ho : s.Linked k t' n f' ↔ T.value = k ∧ T.files.get? n = some f' := by
      simp [Store.Linked, hT]
    rw [if_pos rfl, ho, hu.get?_erase]
    by_cases hn : n = F.name <;> simp [hn]
  · simp [ht, Store.Linked]

theorem linked_registerTag (hnil : T.files = .empty) :
    (s.registerTag T).Linked k t n f ↔ s.Linked k t n f := by
  unfold Store.Linked Store.registerTag
  simp only [Heap.get?_alloc]
  split_ifs with ht
  · subst ht
    simp [hnil, Heap.get?_eq_none (Nat.le_refl _)]
  · exact Iff.rfl

theorem linked_dropTag (hT : s.tagHeap.get? t = some T) (hnil : T.files.entries = []) :
    (s.dropTag t T).Linked k t' n f ↔ s.Linked k t' n f := by
  unfold Store.Linked Store.dropTag
  dsimp only
  by_cases ht : t' = t
  · subst ht
    have hg : T.files.get? n = none := Table.get?_of_entries_nil hnil
    split_ifs
    · simp [Heap.get?_free, hT, hg]
    · simp [Heap.get?_write_self hT, hT, hg]
  · split_ifs
    · simp [Heap.get?_free, ht]
    · simp [Heap.get?_write_ne ht]

namespace Store.Coherent

variable (h : s.Coherent)
include h

theorem touchTag (hT : s.tagHeap.get? t = some T) (hv : T'.value = T.value)
    (hf : T'.files = T.files) : (s.writeTag t T').Coherent := by
  intro n f hn k t'
  rw [linked_touchTag hT hv hf]
  exact h hn k t'

theorem touchFile (hF : s.fileHeap.get? f = some F) (ht : F'.tags = F.tags) :
    (s.writeFile f F').Coherent := by
  intro n f' hn k t
  rw [tagged_touchFile hF ht]
  exact h hn k t

theorem registerTag (hk : s.tags.get? T.value = none) (hnil : T.files = .empty) :
    (s.registerTag T).Coherent := by
  intro n f hn k t
  apply (h hn k t).trans
  rw [linked_registerTag hnil, Store.registerTag, Table.get?_add]
  split_ifs with hv
  · subst hv
    rw [hk]
    constructor
    · rintro ⟨⟨⟩, -⟩
    · rintro ⟨⟨⟩, T₀, hT₀, -⟩
      exact absurd rfl (Heap.ne_next hT₀)
  · exact Iff.rfl

theorem registerFile (ht : s.Typed) (hn : s.files.get? F.name = none) (hnil : F.tags = .empty) :
    (s.registerFile F).Coherent := by
  intro n f hn' k t
  rw [tagged_registerFile hnil]
  simp only [Store.registerFile, Table.get?_add] at hn'
  split_ifs at hn' with he
  · cases hn'
    subst he
    constructor
    · rintro ⟨F₀, hF₀, -⟩
      exact absurd rfl (Heap.ne_next hF₀)
    · rintro ⟨-, T, hT, -, hf⟩
      rw [ht.tagFilesEntry hT hf] at hn
      cases hn
  · exact h hn' k t

theorem attach (ht : s.Typed) (hT : s.tagHeap.get? t = some T) (hF : s.fileHeap.get? f = some F)
    (hk : s.tags.get? T.value = some t) (hn : s.files.get? F.name = some f) :
    (s.attach env t T f F).Coherent := by
  intro n f' hn' k t'
  have hold₁ (t₁ : TagId) (h₁ : F.tags.get? T.value = some t₁) : t₁ = t := by
    have hr := ((h hn T.value t₁).mp ⟨F, hF, h₁⟩).1
    rw [hk] at hr
    exact (Option.some.inj hr).symm
  have hold₂ (f₁ : FileId) (h₁ : T.files.get? F.name = some f₁) : f₁ = f := by
    have hr := ht.tagFilesEntry hT h₁
    rw [hn] at hr
    exact (Option.some.inj hr).symm
  rw [tagged_attach hF hold₁, linked_attach hT hold₂, h hn' k t']
  change _ ↔ s.tags.get? k = some t' ∧ _
  constructor
  · rintro (⟨h₁, h₂⟩ | ⟨rfl, rfl, rfl⟩)
    · exact ⟨h₁, .inl h₂⟩
    · exact ⟨hk, .inr ⟨rfl, rfl, ht.name_inj hn' hn, rfl⟩⟩
  · rintro ⟨h₁, h₂ | ⟨rfl, rfl, -, rfl⟩⟩
    · exact .inl ⟨h₁, h₂⟩
    · exact .inr ⟨rfl, rfl, rfl⟩

theorem detach (ht : s.Typed) (hT : s.tagHeap.get? t = some T) (hF : s.fileHeap.get? f = some F)
    (hcur : ∀ t', s.tags.get? T.value = some t' → t' = t) (hn : s.files.get? F.name = some f) :
    (s.detach env t T f F).Coherent := by
  intro n f' hn' k t'
  rw [tagged_detach hF (ht.fileTagsUnique hF), linked_detach hT (ht.tagFilesUnique hT), h hn' k t']
  change _ ↔ s.tags.get? k = some t' ∧ _
  constructor
  · rintro ⟨⟨h₁, h₂⟩, hne⟩
    refine ⟨h₁, h₂, ?_⟩
    rintro ⟨rfl, rfl⟩
    obtain ⟨T₀, hT₀, hv, -⟩ := h₂
    rw [hT] at hT₀
    cases hT₀
    have hf : f' = f := Option.some.inj (hn'.symm.trans hn)
    exact hne ⟨hf, hv.symm⟩
  · rintro ⟨h₁, h₂, hne⟩
    refine ⟨⟨h₁, h₂⟩, ?_⟩
    rintro ⟨rfl, rfl⟩
    exact hne ⟨hcur t' h₁, ht.name_inj hn' hn⟩

/-- `tag_remove` when the object registered under the name has no files. -/
theorem dropTag (ht : s.Typed) (hT : s.tagHeap.get? t = some T) (hnil : T.files.entries = [])
    (hfree : ∀ t' T', s.tags.get? T.value = some t' → s.tagHeap.get? t' = some T' →
      T'.files.entries = []) : (s.dropTag t T).Coherent := by
  intro n f hn k t'
  rw [linked_dropTag hT hnil]
  apply (h hn k t').trans
  change _ ↔ (s.tags.erase T.value).get? k = some t' ∧ _
  rw [ht.tagsUnique.get?_erase]
  split_ifs with hk
  · subst hk
    constructor
    · rintro ⟨h₁, T', hT', -, hf⟩
      rw [Table.get?_of_entries_nil (hfree t' T' h₁ hT')] at hf
      cases hf
    · rintro ⟨⟨⟩, -⟩
  · exact Iff.rfl

end Store.Coherent

namespace Store

/-- No other object is registered under the name of `t`. -/
def Current (s : Store) (t : TagId) : Prop :=
  ∀ T t', s.tagHeap.get? t = some T → s.tags.get? T.value = some t' → t' = t

/-- If `t` is not in use, the object registered under its name has no files. -/
def Harmless (s : Store) (t : TagId) : Prop :=
  ∀ T t' T', s.tagHeap.get? t = some T → T.inUse = false → s.tags.get? T.value = some t' →
    s.tagHeap.get? t' = some T' → T'.files.entries = []

instance (s : Store) (t : TagId) : Decidable (s.Harmless t) :=
  decidable_of_iff (∀ T ∈ s.tagHeap.get? t, T.inUse = false → ∀ t' ∈ s.tags.get? T.value,
    ∀ T' ∈ s.tagHeap.get? t', T'.files.entries = [])
    ⟨fun h T t' T' hT hu hk hT' => h T hT hu t' hk T' hT',
      fun h T hT hu t' hk T' hT' => h T t' T' hT hu hk hT'⟩

/-- `s'` knows no other names and objects than `s`, and no more files of a tag. -/
structure Fewer (s s' : Store) : Prop where
  tags : ∀ {k t}, s'.tags.get? k = some t → s.tags.get? k = some t
  tag : ∀ {t T'}, s'.tagHeap.get? t = some T' → ∃ T, s.tagHeap.get? t = some T ∧
    T.value = T'.value ∧ T.inUse = T'.inUse ∧ (T.files.entries = [] → T'.files.entries = [])

theorem Fewer.trans {s₁ s₂ s₃ : Store} (h : s₁.Fewer s₂) (h' : s₂.Fewer s₃) : s₁.Fewer s₃ where
  tags hk := h.tags (h'.tags hk)
  tag hT := by
    obtain ⟨T₂, hT₂, hv₂, hu₂, hnil₂⟩ := h'.tag hT
    obtain ⟨T₁, hT₁, hv₁, hu₁, hnil₁⟩ := h.tag hT₂
    exact ⟨T₁, hT₁, hv₁.trans hv₂, hu₁.trans hu₂, fun hnil => hnil₂ (hnil₁ hnil)⟩

theorem Current.mono {s' : Store} (h : s.Current t) (hs : s.Fewer s') : s'.Current t := by
  intro T' t' hT' hk
  obtain ⟨T, hT, hv, -⟩ := hs.tag hT'
  exact h T t' hT (hv ▸ hs.tags hk)

theorem Harmless.mono {s' : Store} (h : s.Harmless t) (hs : s.Fewer s') : s'.Harmless t := by
  intro T₁ t' T₂ hT₁ hu hk hT₂
  obtain ⟨T, hT, hv, hu', -⟩ := hs.tag hT₁
  obtain ⟨T', hT', -, -, hnil⟩ := hs.tag hT₂
  exact hnil (h T t' T' hT (hu'.trans hu) (hv ▸ hs.tags hk) hT')

theorem Current.harmless (h : s.Current t) (ht : s.Tidy) : s.Harmless t := by
  intro T t' T' hT hu hk hT'
  cases h T t' hT hk
  rw [hT] at hT'
  cases hT'
  exact ht.idle hT hu

theorem fewer_detach (hT : s.tagHeap.get? t = some T) : s.Fewer (s.detach env t T f F) where
  tags hk := hk
  tag {t' T'} hT' := by
    change (s.tagHeap.write t _).get? t' = some T' at hT'
    obtain ⟨rfl, rfl⟩ | ⟨-, hT'⟩ := Heap.get?_write_cases hT'
    · refine ⟨T, hT, rfl, rfl, fun hnil => ?_⟩
      have hs := Table.entries_erase_sublist (t := T.files) (k := F.name)
      rw [hnil] at hs
      exact List.sublist_nil.mp hs
    · exact ⟨T', hT', rfl, rfl, id⟩

theorem fewer_dropTag (hu : s.tags.Unique) (hT : s.tagHeap.get? t = some T) :
    s.Fewer (s.dropTag t T) where
  tags {k t'} hk := by
    change (s.tags.erase T.value).get? k = some t' at hk
    rw [hu.get?_erase] at hk
    split_ifs at hk
    exact hk
  tag {t' T'} hT' := by
    unfold dropTag at hT'
    dsimp only at hT'
    split_ifs at hT'
    · exact ⟨T', (Heap.of_get?_free hT').2, rfl, rfl, id⟩
    · obtain ⟨rfl, rfl⟩ | ⟨-, hT'⟩ := Heap.get?_write_cases hT'
      · exact ⟨T, hT, rfl, rfl, id⟩
      · exact ⟨T', hT', rfl, rfl, id⟩

end Store

/-- A path in progress holds the registered objects; when paths are deleted it is enough that
removing a tag by its name cannot hit another object that has files. -/
def coherence : Discipline where
  opening P R s := s.Tidy ∧ s.Coherent ∧ ∀ e ∈ P ++ R, s.tags.get? e.1 = some e.2
  closing P R _ s := s.Tidy ∧ s.Coherent ∧ (∀ e ∈ P, s.Current e.2) ∧ ∀ e ∈ R, s.Harmless e.2
  ready _ _ := True
  closable := Store.Harmless

theorem coherence_sound : coherence.Sound (fun _ => True) where
  fault _ := trivial
  tidy h := h.1
  closing_tidy h := h.1
  dead _ _ _ := trivial
  closing_dead _ _ _ := trivial
  dead_carried _ _ _ _ := trivial
  touchFile h hF hn ht :=
    ⟨h.1.writeFile hF hn (ht ▸ h.1.fileTagsUnique hF), h.2.1.touchFile hF ht, h.2.2⟩
  closing_touchFile h hF hn ht :=
    ⟨h.1.writeFile hF hn (ht ▸ h.1.fileTagsUnique hF), h.2.1.touchFile hF ht, h.2.2⟩
  perm h hp := ⟨h.1, h.2.1, fun e he => h.2.2 e ((hp.append_left _).mem_iff.mpr he)⟩
  closing_perm h hp := ⟨h.1, h.2.1, h.2.2.1, fun e he => h.2.2.2 e (hp.mem_iff.mpr he)⟩
  spare h := ⟨h.1, h.2.1, fun e he => h.2.2 e (List.perm_middle.mem_iff.mp he)⟩
  store {R s fds leaked} h _ := ⟨(h.1.setDescriptors fds).setLeaked leaked, h.2.1, by simp⟩
  fetch h _ hclosable := ⟨h.1, h.2.1, by simp, hclosable⟩
  close {P R s} h _ := by
    -- what a name leads to is the only object with this name
    have hcur (e) (he : e ∈ P ++ R) : s.Current e.2 := by
      intro T t' hT hk
      rw [h.1.value_of_get? (h.2.2 e he) hT, h.2.2 e he] at hk
      exact (Option.some.inj hk).symm
    exact ⟨h.1, h.2.1, fun e he => hcur e (List.mem_append_left _ he),
      fun e he => (hcur e (List.mem_append_right _ he)).harmless h.1⟩
  reopen {x s} h := by
    cases x with
    | none => exact ⟨h.1, h.2.1, by simp⟩
    | some a => exact ⟨h.1.setDescriptors _, h.2.1, by simp⟩
  init := ⟨tidy_init, coherent_init, by simp⟩
  acquire {P R s k t T} h hk hT := by
    have ht : (s.writeTag t { T with refCount := T.refCount + 1 }).Tidy :=
      h.1.touchTag hT rfl rfl id
    have hc : (s.writeTag t { T with refCount := T.refCount + 1 }).Coherent :=
      h.2.1.touchTag hT rfl rfl
    refine ⟨⟨ht, hc, fun e he => ?_⟩, ht, hc, fun e he => ?_⟩
    all_goals
      simp only [List.mem_append, List.mem_singleton] at he
      by_cases hek : e = (k, t)
      · subst hek
        exact hk
      · exact h.2.2 e (by simpa [hek] using he)
  create {P R s k} h hk := by
    have ht := h.1.registerTag (T := { tagNew k false with refCount := 1 }) hk rfl
    have hc := h.2.1.registerTag (T := { tagNew k false with refCount := 1 }) hk rfl
    -- the other names lead to what they led to
    have hold (e) (he : e ∈ P ++ R) : (s.tags.add k s.tagHeap.next).get? e.1 = some e.2 := by
      have hne : k ≠ e.1 := by
        rintro rfl
        rw [h.2.2 e he] at hk
        cases hk
      rw [Table.get?_add, if_neg hne, h.2.2 e he]
    refine ⟨⟨ht, hc, fun e he => ?_⟩, ht, hc, fun e he => ?_⟩
    all_goals
      simp only [List.mem_append, List.mem_singleton] at he
      by_cases hek : e = (k, s.tagHeap.next)
      · subst hek
        exact Table.get?_add_self
      · exact hold e (by simpa [hek] using he)
  createUsed {P R s k} h hk := by
    refine ⟨h.1.registerTag (T := { tagNew k true with refCount := 1 }) hk rfl,
      h.2.1.registerTag (T := { tagNew k true with refCount := 1 }) hk rfl, fun e he => ?_⟩
    have hne : k ≠ e.1 := by
      rintro rfl
      rw [h.2.2 e he] at hk
      cases hk
    change (s.tags.add k s.tagHeap.next).get? e.1 = some e.2
    rw [Table.get?_add, if_neg hne, h.2.2 e he]
  use h _ hT := ⟨h.1.touchTag hT rfl rfl fun _ => rfl, h.2.1.touchTag hT rfl rfl, h.2.2⟩
  registerFile h hn :=
    ⟨h.1.registerFile (F := fileNew _) hn rfl,
      h.2.1.registerFile (F := fileNew _) h.1.toTyped hn rfl, h.2.2⟩
  attach {P R env s e T f F} h he hT hF hn := by
    have hk := h.2.2 e (List.mem_append_right _ he)
    have hv := h.1.value_of_get? hk hT
    exact ⟨h.1.attach hT hF hn, h.2.1.attach h.1.toTyped hT hF (hv ▸ hk) hn, h.2.2⟩
  reference h _ _ hT := ⟨h.1.touchTag hT rfl rfl id, h.2.1.touchTag hT rfl rfl, h.2.2⟩
  attachParsed h _ hk hT hF hn := by
    have hv := h.1.value_of_get? hk hT
    exact ⟨h.1.attach hT hF hn, h.2.1.attach h.1.toTyped hT hF (hv ▸ hk) hn, by simp⟩
  unlinkKeep {P R env s e T f F} h hT hF hn := by
    have hcur := h.2.2.1 e List.mem_cons_self
    have hfew : s.Fewer (s.detach env e.2 T f F) := Store.fewer_detach hT
    have htidy : (s.detach env e.2 T f F).Tidy := h.1.detach hT hF
    refine ⟨htidy, h.2.1.detach h.1.toTyped hT hF (fun t' => hcur T t' hT) hn,
      fun e' he' => (h.2.2.1 e' (List.mem_cons_of_mem _ he')).mono hfew, ?_⟩
    intro e' he'
    rcases List.mem_cons.mp he' with rfl | he'
    · exact (hcur.mono hfew).harmless htidy
    · exact (h.2.2.2 e' he').mono hfew
  unlinkDrop {P R env s e T f F} h hT hF hn hnil := by
    have hcur := h.2.2.1 e List.mem_cons_self
    have hfew : s.Fewer (s.detach env e.2 T f F) := Store.fewer_detach hT
    have htidy : (s.detach env e.2 T f F).Tidy := h.1.detach hT hF
    have hcoh : (s.detach env e.2 T f F).Coherent :=
      h.2.1.detach h.1.toTyped hT hF (fun t' => hcur T t' hT) hn
    have hT' : (s.detach env e.2 T f F).tagHeap.get? e.2 =
        some { T with files := T.files.erase F.name } := Heap.get?_write_self hT
    have hfew' := Store.fewer_dropTag htidy.tagsUnique hT'
    have htidy' := htidy.dropTag hT'
    refine ⟨htidy', hcoh.dropTag htidy.toTyped hT' hnil ?_, fun e' he' =>
      ((h.2.2.1 e' (List.mem_cons_of_mem _ he')).mono hfew).mono hfew', ?_⟩
    · intro t' T' hk h'
      -- the registered object of this name is the one that lost its last file
      cases hcur T t' hT hk
      rw [hT'] at h'
      cases h'
      exact hnil
    · intro e' he'
      rcases List.mem_cons.mp he' with rfl | he'
      · exact ((hcur.mono hfew).mono hfew').harmless htidy'
      · exact ((h.2.2.2 e' he').mono hfew).mono hfew'
  keep h _ _ := ⟨h.1, h.2.1, h.2.2.1, fun e he => h.2.2.2 e (List.mem_cons_of_mem _ he)⟩
  drop {P R x s e T} h hT hu := by
    have hfew := Store.fewer_dropTag h.1.tagsUnique hT
    -- by the guard the registered object of this name has no files either
    have hfree := h.2.2.2 e List.mem_cons_self
    exact ⟨h.1.dropTag hT,
      h.2.1.dropTag h.1.toTyped hT (h.1.idle hT hu) fun t' T' hk hT' => hfree T t' T' hT hu hk hT',
      fun e' he' => (h.2.2.1 e' he').mono hfew,
      fun e' he' => (h.2.2.2 e' (List.mem_cons_of_mem _ he')).mono hfew⟩

/-- A descriptor is released only if removing the tags its path holds is harmless. -/
def ReleaseHarmless (s : Store) (e : Event) : Prop :=
  match e.callback with
  | .release a => ∀ fd, s.fds.get? a = some fd → ∀ t ∈ fd.path.held, s.Harmless t.2
  | _ => True

instance (s : Store) (e : Event) : Decidable (ReleaseHarmless s e) :=
  match e with
  | ⟨_, .release a⟩ =>
    inferInstanceAs (Decidable (∀ fd ∈ s.fds.get? a, ∀ t ∈ fd.path.held, s.Harmless t.2))
  | ⟨_, .getattr _⟩ | ⟨_, .fgetattr _⟩ | ⟨_, .setxattr _⟩ | ⟨_, .getxattr ..⟩ | ⟨_, .openFile ..⟩
  | ⟨_, .opendir ..⟩ | ⟨_, .readdir _⟩ | ⟨_, .read ..⟩ | ⟨_, .write ..⟩ | ⟨_, .link ..⟩
  | ⟨_, .unlink _⟩ | ⟨_, .rename ..⟩ | ⟨_, .rmdir _⟩ | ⟨_, .mkdir _⟩ | ⟨_, .mknod ..⟩
  | ⟨_, .truncate ..⟩ | ⟨_, .chmod ..⟩ | ⟨_, .chown ..⟩ | ⟨_, .utime _⟩ | ⟨_, .ioctl ..⟩
  | ⟨_, .poll ..⟩ => .isTrue trivial

theorem coherence_permits {e : Event} (h : ReleaseHarmless s e) : coherence.Permits s e := by
  obtain ⟨env, c⟩ := e
  cases c with
  | release a => exact h
  | unlink p => exact fun _ _ _ _ _ _ _ => trivial
  | rename p q => exact fun _ _ _ _ _ _ _ _ _ _ _ _ _ => trivial
  | _ => trivial

/-- In every run in which the releases are harmless, every reached store is coherent. -/
theorem coherent_of_reaches {file : Option CStr} {s₀ : Store}
    (h₀ : setRootDirectory env file = .ok s₀) (h : Reaches step ReleaseHarmless s₀ s) :
    s.Coherent :=
  (coherence_sound.reaches h₀ (h.weaken fun _ _ => coherence_permits)).2.1

section Sample

/-- The system answers as it does for the sample directory. -/
def sampleEnv : Env where
  realdirpath := rootName
  stat := sampleStat
  openFile _ _ := .ok 3
  close _ := none
  read _ _ _ := .ok []
  write _ buffer _ := .ok buffer.length
  access _ := true
  mknod _ _ _ := 0
  truncate _ _ := 0
  chmod _ _ := 0
  chown _ _ _ := 0
  utime _ := 0
  dirents := sampleDirents
  stalePh _ := none

/-- While the directory `/x/y` is open its object `x` loses its name to a `getattr`; a new object
`x` is made by a `link`, and releasing the directory removes that one from the registry. -/
def staleRelease : List Event := [
  ⟨sampleEnv, .link (samplePath [] nameF) (samplePath [nameY] nameF)⟩,
  ⟨sampleEnv, .opendir (samplePath [nameX] nameY) 0 ⟨1, some 2⟩⟩,
  ⟨sampleEnv, .getattr (samplePath [nameX] nameF)⟩,
  ⟨sampleEnv, .link (samplePath [] nameF) (samplePath [nameX] nameF)⟩,
  ⟨sampleEnv, .release 2⟩]

end Sample

/-- Tagging a file and reading the directory of the tag, with a release of a directory whose other
component is not in use. -/
def harmlessRelease : List Event := [
  ⟨sampleEnv, .link (samplePath [] nameF) (samplePath [nameY] nameF)⟩,
  ⟨sampleEnv, .opendir (samplePath [nameX] nameY) 0 ⟨1, some 2⟩⟩,
  ⟨sampleEnv, .readdir 2⟩,
  ⟨sampleEnv, .release 2⟩,
  ⟨sampleEnv, .unlink (samplePath [nameY] nameF)⟩]

/-- The run goes to its end. -/
theorem harmlessRelease_coherent :
    ∃ s, execute step ReleaseHarmless harmlessRelease .init = some s ∧ s.Coherent := by
  have hrun : (execute step ReleaseHarmless harmlessRelease .init).isSome = true := by decide +kernel
  obtain ⟨s, hs⟩ := Option.isSome_iff_exists.mp hrun
  have h₀ : setRootDirectory sampleEnv none = .ok .init := rfl
  exact ⟨s, hs, coherent_of_reaches h₀ (reaches_of_execute hs)⟩

theorem staleRelease_not_coherent : ¬ ∀ env file s₀ s, setRootDirectory env file = .ok s₀ →
    Reaches step (fun _ _ => True) s₀ s → s.Coherent := by
  intro h
  have hrun : (execute step (fun _ _ => True) staleRelease .init).any (fun s =>
      s.files.get? nameF = some 0 ∧
        (s.fileHeap.get? 0).bind (fun F => F.tags.get? nameX) = some 2 ∧
        s.tags.get? nameX = none) = true := by decide +kernel
  obtain ⟨s, hs, hp⟩ := (Option.any_eq_true _ _).mp hrun
  obtain ⟨hn, htag, hno⟩ := of_decide_eq_true hp
  have hc := h sampleEnv none .init s rfl (reaches_of_execute hs)
  obtain ⟨F, hF, hk⟩ := Option.bind_eq_some_iff.mp htag
  have hk' := ((hc hn nameX 2).mp ⟨F, hF, hk⟩).1
  rw [hno] at hk'
  cases hk'

end TagFilesystem.Fuse
