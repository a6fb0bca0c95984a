import TagFilesystem.Fuse.LinkSpec

namespace TagFilesystem.Fuse

variable {env : Env} {s s' : Store} {t : TagId} {T T' : Tag} {f : FileId} {F F' : File}
  {k n : CStr} {e : CStr × TagId} {l : Held} {E : Fault → Prop} {ks : List CStr}
  {sel : HashTable TagId}

/-- A live tag object is referenced. -/
def Store.Positive (s : Store) : Prop := ∀ t T, s.tagHeap.get? t = some T → 1 ≤ T.refCount

namespace Store.Positive

theorem writeTag (h : s.Positive) (hr : 1 ≤ T'.refCount) : (s.writeTag t T').Positive := by
  intro t' T₁ h₁
  obtain ⟨-, rfl⟩ | ⟨-, h₁⟩ := Heap.get?_write_cases h₁
  · exact hr
  · exact h t' T₁ h₁

theorem registerTag (h : s.Positive) (hr : 1 ≤ T.refCount) : (s.registerTag T).Positive := by
  intro t' T₁ h₁
  obtain ⟨-, rfl⟩ | ⟨-, h₁⟩ := Heap.get?_alloc_cases h₁
  · exact hr
  · exact h t' T₁ h₁

theorem dropTag (h : s.Positive) (hr : 1 ≤ T.refCount) : (s.dropTag t T).Positive := by
  intro t' T₁ h₁
  unfold Store.dropTag at h₁
  dsimp only at h₁
  split_ifs at h₁ with h0
  · exact h t' T₁ (Heap.of_get?_free h₁).2
  · have hw : (s.writeTag t { T with refCount := T.refCount - 1 }).Positive := by
      apply h.writeTag
      dsimp only
      omega
    exact hw t' T₁ h₁

end Store.Positive

/-- Counts stay positive whatever the paths hold. -/
def positive : Discipline where
  opening _ _ s := s.Tidy ∧ s.Positive
  closing _ _ _ s := s.Tidy ∧ s.Positive
  ready _ _ := True
  closable _ _ := True

theorem positive_sound : positive.Sound (fun _ => True) where
  fault _ := trivial
  tidy h := h.1
  closing_tidy h := h.1
  dead _ _ _ := trivial
  closing_dead _ _ _ := trivial
  dead_carried _ _ _ _ := trivial
  touchFile h hF hn ht := ⟨h.1.writeFile hF hn (ht ▸ h.1.fileTagsUnique hF), h.2⟩
  closing_touchFile h hF hn ht := ⟨h.1.writeFile hF hn (ht ▸ h.1.fileTagsUnique hF), h.2⟩
  perm h _ := h
  closing_perm h _ := h
  spare h := h
  store {R s fds leaked} h _ := ⟨(h.1.setDescriptors fds).setLeaked leaked, h.2⟩
  fetch h _ _ := h
  close h _ := h
  reopen {x s} h := by
    cases x with
    | none => exact h
    | some a => exact ⟨h.1.setDescriptors _, h.2⟩
  init := ⟨tidy_init, by rintro t T ⟨⟩⟩
  acquire {P R s k t T} h _ hT := by
    have hr : 1 ≤ T.refCount + 1 := by
      have := h.2 _ _ hT
      omega
    exact ⟨⟨h.1.touchTag hT rfl rfl id, h.2.writeTag hr⟩, h.1.touchTag hT rfl rfl id, h.2.writeTag hr⟩
  create {P R s k} h hk := by
    have ht := h.1.registerTag (T := { tagNew k false with refCount := 1 }) hk rfl
    exact ⟨⟨ht, h.2.registerTag (Int.le_refl 1)⟩, ht, h.2.registerTag (Int.le_refl 1)⟩
  createUsed {P R s k} h hk :=
    ⟨h.1.registerTag (T := { tagNew k true with refCount := 1 }) hk rfl,
      h.2.registerTag (Int.le_refl 1)⟩
  use {R s k t T} h _ hT :=
    ⟨h.1.touchTag hT rfl rfl fun _ => rfl, h.2.writeTag (h.2 t T hT)⟩
  registerFile h hn := ⟨h.1.registerFile (F := fileNew _) hn rfl, h.2⟩
  attach {P R env s e T f F} h _ hT hF hn :=
    ⟨h.1.attach hT hF hn, h.2.writeTag (h.2 e.2 T hT)⟩
  reference {s k t T} h _ _ hT := by
    have hr : 1 ≤ T.refCount + 1 := by
      have := h.2 _ _ hT
      omega
    exact ⟨h.1.touchTag hT rfl rfl id, h.2.writeTag hr⟩
  attachParsed {env s k t T f F} h _ _ hT hF hn :=
    ⟨h.1.attach hT hF hn, h.2.writeTag (h.2 t T hT)⟩
  unlinkKeep {P R env s e T f F} h hT hF _ := ⟨h.1.detach hT hF, h.2.writeTag (h.2 e.2 T hT)⟩
  unlinkDrop {P R env s e T f F} h hT hF _ _ := by
    have hr : 1 ≤ T.refCount := h.2 _ _ hT
    have hp : (s.detach env e.2 T f F).Positive := h.2.writeTag hr
    exact ⟨(h.1.detach hT hF).dropTag (Store.detach_get?_self hT), hp.dropTag hr⟩
  keep h _ _ := h
  drop h hT _ := ⟨h.1.dropTag hT, h.2.dropTag (h.2 _ _ hT)⟩

theorem positive_of_reaches {file : Option CStr} {s₀ : Store}
    (h₀ : setRootDirectory env file = .ok s₀) (h : Reaches step (fun _ _ => True) s₀ s) :
    s.Tidy ∧ s.Positive := by
  refine positive_sound.reaches h₀ (h.weaken fun s e _ => ?_)
  exact Discipline.permits_of_forall (fun _ _ => trivial) fun _ _ => trivial

/-- `s'` is `s` after the tags `l` have been given back: those that are not in use have left the
registry and have lost one reference for each occurrence. -/
structure GivenBack (s : Store) (l : Held) (s' : Store) : Prop where
  tidy : s'.Tidy
  files : s'.files = s.files
  fileHeap : s'.fileHeap = s.fileHeap
  fds : s'.fds = s.fds
  leaked : s'.leaked = s.leaked
  name : ∀ {k t}, s'.tags.get? k = some t ↔
    s.tags.get? k = some t ∧ (s.InUse t ∨ ∀ e ∈ l, e.2 ≠ t)
  dead : ∀ {t}, s.tagHeap.get? t = none → s'.tagHeap.get? t = none
  used : ∀ {t T}, s.tagHeap.get? t = some T → T.inUse = true → s'.tagHeap.get? t = some T
  unused : ∀ {t T}, s.tagHeap.get? t = some T → T.inUse = false → s'.tagHeap.get? t =
    if T.refCount = occurrences l t then none
    else some { T with refCount := T.refCount - occurrences l t }

namespace GivenBack

theorem refl (h : s.Tidy) (hp : s.Positive) : GivenBack s [] s where
  tidy := h
  files := rfl
  fileHeap := rfl
  fds := rfl
  leaked := rfl
  name := by simp
  dead h := h
  used hT _ := hT
  unused {t T} hT _ := by
    have := hp t T hT
    rw [hT, occurrences_nil, if_neg (by omega)]
    simp

theorem back (h : GivenBack s l s') (hT : s'.tagHeap.get? t = some T') :
    ∃ T, s.tagHeap.get? t = some T ∧ T.value = T'.value ∧ T.files = T'.files ∧
      T.inUse = T'.inUse := by
  cases h₀ : s.tagHeap.get? t with
  | none =>
    rw [h.dead h₀] at hT
    cases hT
  | some T =>
    refine ⟨T, rfl, ?_⟩
    cases hu : T.inUse with
    | true =>
      rw [h.used h₀ hu] at hT
      cases hT
      exact ⟨rfl, rfl, hu.symm⟩
    | false =>
      rw [h.unused h₀ hu] at hT
      split_ifs at hT
      cases hT
      exact ⟨rfl, rfl, hu.symm⟩

theorem inUse_iff (h : GivenBack s l s') : s'.InUse t ↔ s.InUse t := by
  constructor
  · rintro ⟨T', hT', hu⟩
    obtain ⟨T, hT, -, -, hu'⟩ := h.back hT'
    exact ⟨T, hT, hu'.trans hu⟩
  · rintro ⟨T, hT, hu⟩
    exact ⟨T, h.used hT hu, hu⟩

theorem keep (h : GivenBack s l s') (hu : s'.InUse e.2) : GivenBack s (l ++ [e]) s' where
  tidy := h.tidy
  files := h.files
  fileHeap := h.fileHeap
  fds := h.fds
  leaked := h.leaked
  name {k t} := by
    rw [h.name, List.forall_mem_append, List.forall_mem_singleton]
    refine and_congr_right fun _ => ⟨?_, ?_⟩
    · rintro (ht | ht)
      · exact .inl ht
      · by_cases he : e.2 = t
        · exact .inl (he ▸ h.inUse_iff.mp hu)
        · exact .inr ⟨ht, he⟩
    · exact Or.imp_right And.left
  dead := h.dead
  used := h.used
  unused {t T} hT hTu := by
    have hne : e.2 ≠ t := by
      rintro rfl
      obtain ⟨T₀, hT₀, hu₀⟩ := h.inUse_iff.mp hu
      cases hT.symm.trans hT₀
      rw [hTu] at hu₀
      cases hu₀
    rw [h.unused hT hTu]
    simp [hne]

theorem drop (h : GivenBack s l s') (hcur : s.Current e.2) (hT : s'.tagHeap.get? e.2 = some T')
    (hu : T'.inUse = false) : GivenBack s (l ++ [e]) (s'.dropTag e.2 T') := by
  obtain ⟨T, hT₀, hv, -, hu₀⟩ := h.back hT
  have huT : T.inUse = false := hu₀.trans hu
  have hno : ¬ s.InUse e.2 := by
    rintro ⟨T₁, hT₁, hu₁⟩
    cases hT₀.symm.trans hT₁
    rw [huT] at hu₁
    cases hu₁
  refine
    { tidy := h.tidy.dropTag hT
      files := h.files
      fileHeap := h.fileHeap
      fds := h.fds
      leaked := h.leaked
      name := ?_
      dead := ?_
      used := ?_
      unused := ?_ }
  · intro k t
    change (s'.tags.erase T'.value).get? k = some t ↔ _
    rw [h.tidy.tagsUnique.get?_erase, List.forall_mem_append, List.forall_mem_singleton]
    split_ifs with hk
    · -- only the removed object can be registered under its name
      simp only [false_iff]
      rintro ⟨hk', hall⟩
      obtain rfl : t = e.2 := hcur T t hT₀ (by rw [hv, ← hk, hk'])
      exact hall.elim hno fun h => h.2 rfl
    · rw [h.name]
      refine and_congr_right fun hk' => or_congr_right ⟨fun hall => ⟨hall, ?_⟩, And.left⟩
      rintro rfl
      obtain ⟨T₁, hT₁, hv₁⟩ := h.tidy.tagEntry (h.name.mpr ⟨hk', .inr hall⟩)
      cases hT.symm.trans hT₁
      exact hk hv₁.symm
  · intro t ht
    have hne : t ≠ e.2 := by
      rintro rfl
      rw [hT₀] at ht
      cases ht
    rw [Store.dropTag_get?_ne hne, h.dead ht]
  · intro t T₁ h₁ hu₁
    have hne : t ≠ e.2 := by
      rintro rfl
      exact hno ⟨T₁, h₁, hu₁⟩
    rw [Store.dropTag_get?_ne hne, h.used h₁ hu₁]
  · intro t T₁ h₁ hu₁
    by_cases ht : t = e.2
    · subst ht
      cases hT₀.symm.trans h₁
      -- the count of an idle tag is what has not been given back of it
      have hold := h.unused hT₀ huT
      rw [hT] at hold
      split_ifs at hold with hr
      cases hold
      unfold Store.dropTag
      simp only [occurrences_append, occurrences_cons, occurrences_nil, if_true]
      split_ifs with h₁ h₂ h₂
      · simp [Heap.get?_free]
      · omega
      · omega
      · rw [Heap.get?_write_self hT]
        simp only [Option.some.injEq, Tag.mk.injEq, true_and]
        omega
    · rw [Store.dropTag_get?_ne ht, h.unused h₁ hu₁]
      simp [Ne.symm ht]

theorem linked (h : GivenBack s l s') (hs : s.Tidy) : s'.Linked k t n f ↔ s.Linked k t n f := by
  constructor
  · rintro ⟨T', hT', hv, hf⟩
    obtain ⟨T, hT, hv', hf', -⟩ := h.back hT'
    exact ⟨T, hT, hv'.trans hv, hf' ▸ hf⟩
  · rintro ⟨T, hT, hv, hf⟩
    cases hu : T.inUse with
    | true => exact ⟨T, h.used hT hu, hv, hf⟩
    | false =>
      rw [Table.get?_of_entries_nil (hs.idle hT hu)] at hf
      cases hf

end GivenBack

theorem sat_givenBack {path : Path} (h : s.Tidy) (hp : s.Positive)
    (hcur : ∀ e ∈ path.held, s.Current e.2)
    (hlive : ∀ e ∈ path.held, ∃ T, s.tagHeap.get? e.2 = some T ∧
      (T.inUse = false → occurrences path.held e.2 ≤ T.refCount)) :
    Sat E (pathDelete env s path) (GivenBack s path.held) := by
  refine (sat_freeSelectedTags (fun l₁ s₁ => ∃ l₀, l₀ ++ l₁ = path.held ∧ GivenBack s l₀ s₁)
    ?_ ?_ ?_ ⟨[], rfl, .refl h hp⟩).mono ?_
  · -- the remaining occurrences still count
    rintro e l₁ s₁ ⟨l₀, hsplit, hg⟩ hd
    obtain ⟨T, hT, hr⟩ := hlive e (by rw [← hsplit]; simp)
    cases hu : T.inUse with
    | true =>
      rw [hg.used hT hu] at hd
      cases hd
    | false =>
      have hle := hr hu
      rw [← hsplit, occurrences_append, occurrences_cons, if_pos rfl] at hle
      rw [hg.unused hT hu, if_neg (by omega)] at hd
      cases hd
  · rintro e l₁ s₁ T ⟨l₀, hsplit, hg⟩ hT hu
    exact ⟨l₀ ++ [e], by simpa using hsplit, hg.keep ⟨T, hT, hu⟩⟩
  · rintro e l₁ s₁ T ⟨l₀, hsplit, hg⟩ hT hu
    exact ⟨hg.tidy.tagsUnique, hg.tidy.idle hT hu, l₀ ++ [e], by simpa using hsplit,
      hg.drop (hcur e (by rw [← hsplit]; simp)) hT hu⟩
  · rintro s₁ ⟨l₀, hsplit, hg⟩
    rw [List.append_nil] at hsplit
    exact hsplit ▸ hg

theorem Made.positive (h : Made s ks sel s') (hp : s.Positive) : s'.Positive := by
  intro t T hT
  cases hold : s.tagHeap.get? t with
  | none => exact (h.new hT hold).2.2.2.1
  | some T₀ =>
    have := hp t T₀ hold
    rw [h.old hold] at hT
    cases hT
    dsimp only
    omega

theorem positive_getattrStore {p : Path} (hp : s.Positive) : (getattrStore env s p).Positive := by
  intro t T hT
  rw [getattrStore_tagHeap] at hT
  exact hp t T hT

theorem Made.counted (h : Made s ks sel s') (hp : s.Positive) (he : e ∈ sel.entries) :
    ∃ T, s'.tagHeap.get? e.2 = some T ∧ occurrences sel.entries e.2 ≤ T.refCount := by
  obtain ⟨T, hT, -⟩ := h.typed.tagEntry (h.entry he)
  refine ⟨T, hT, ?_⟩
  cases hold : s.tagHeap.get? e.2 with
  | none => exact Int.le_of_eq (h.new hT hold).2.2.1.symm
  | some T₀ =>
    have := hp e.2 T₀ hold
    rw [h.old hold] at hT
    cases hT
    dsimp only
    omega

/-- A path made and given back: what is in use has more references, what is not in use is as it
was, except that the components of the path are not registered. -/
structure Looked (s : Store) (ks : List CStr) (s' : Store) : Prop where
  tagged : ∀ {f k t}, s'.Tagged f k t ↔ s.Tagged f k t
  linked : ∀ {k t n f}, s'.Linked k t n f ↔ s.Linked k t n f
  name : ∀ {k t}, s'.tags.get? k = some t ↔ s.tags.get? k = some t ∧ (s.InUse t ∨ k ∉ ks)
  inUse : ∀ {t}, s'.InUse t ↔ s.InUse t
  idle : ∀ {t}, ¬ s.InUse t → s'.tagHeap.get? t = s.tagHeap.get? t

theorem Made.live_inUse (h : Made s ks sel s') : s'.InUse t ↔ s.InUse t := by
  constructor
  · rintro ⟨T, hT, hu⟩
    cases hold : s.tagHeap.get? t with
    | none =>
      rw [(h.new hT hold).2.1] at hu
      cases hu
    | some T₀ =>
      rw [h.old hold] at hT
      cases hT
      exact ⟨T₀, hold, hu⟩
  · exact h.inUse

theorem Made.held_iff (h : Made s ks sel s') (hk : s'.tags.get? k = some t) :
    (∃ e ∈ sel.entries, e.2 = t) ↔ k ∈ ks := by
  rw [← h.mem_iff]
  constructor
  · rintro ⟨e, he, rfl⟩
    obtain ⟨T, hT, hv⟩ := h.typed.tagEntry (h.entry he)
    have hek : e.1 = k := hv.symm.trans (h.typed.value_of_get? hk hT)
    exact ⟨e.2, hek ▸ he⟩
  · rintro ⟨t', he⟩
    refine ⟨(k, t'), he, ?_⟩
    rw [h.entry he] at hk
    exact Option.some.inj hk

theorem looked {s₁ s₂ s₃ : Store} (hp : s.Positive) (hm : Made s ks sel s₁)
    (htags : s₂.tags = s₁.tags) (hheap : s₂.tagHeap = s₁.tagHeap)
    (htagged : ∀ f k t, s₂.Tagged f k t ↔ s₁.Tagged f k t) (hg : GivenBack s₂ sel.entries s₃)
    (ht : s₂.Tidy) : Looked s ks s₃ := by
  have huse (t : TagId) : s₂.InUse t ↔ s.InUse t := by
    rw [← hm.live_inUse, Store.InUse, Store.InUse, hheap]
  refine
    { tagged := fun {f k t} => ?_
      linked := fun {k t n f} => ?_
      name := fun {k t} => ?_
      inUse := fun {t} => hg.inUse_iff.trans (huse t)
      idle := fun {t} hno => ?_ }
  · rw [Store.Tagged, hg.fileHeap]
    exact (htagged f k t).trans hm.tagged
  · rw [hg.linked ht, ← hm.linked, Store.Linked, Store.Linked, hheap]
  · rw [hg.name, huse, htags]
    constructor
    · rintro ⟨hk, hall⟩
      have hall' : s.InUse t ∨ k ∉ ks := hall.imp_right fun hne hmem => by
        obtain ⟨e, he, het⟩ := (hm.held_iff hk).mpr hmem
        exact hne e he het
      refine ⟨(hm.only hk).resolve_right fun hnew => ?_, hall'⟩
      -- a new tag is not in use and its name is a component
      refine hall'.elim ?_ fun h => h hnew.1
      rintro ⟨T, hT, -⟩
      rw [hnew.2.2] at hT
      cases hT
    · rintro ⟨hk, hall⟩
      have hk₁ := hm.kept hk
      exact ⟨hk₁, hall.imp_right fun hno e he het => hno ((hm.held_iff hk₁).mp ⟨e, he, het⟩)⟩
  · cases hold : s.tagHeap.get? t with
    | none =>
      cases h₁ : s₁.tagHeap.get? t with
      | none => exact hg.dead (hheap ▸ h₁)
      | some T =>
        obtain ⟨-, hu, hr, -⟩ := hm.new h₁ hold
        rw [hg.unused (hheap ▸ h₁) hu, if_pos hr]
    | some T =>
      have hu : T.inUse = false := by
        cases hu : T.inUse with
        | true => exact absurd ⟨T, hold, hu⟩ hno
        | false => rfl
      have := hp t T hold
      have h₁ := hm.old hold
      rw [← hheap] at h₁
      rw [hg.unused h₁ hu, if_neg]
      · simp
      · dsimp only
        omega

/-- `tag_getattr` never fails, and a path made for it can be seen no more. -/
theorem sat_tagGetattr (h : s.Tidy) (hp : s.Positive) (userPath : CStr) :
    Sat E (tagGetattr env s userPath) fun r => Looked s (components (dirname userPath)) r.2.2 := by
  apply (sat_pathCreate h.toTyped userPath false).bind
  rintro ⟨path, s₁⟩ ⟨-, hm⟩
  simp only [Bool.false_eq_true, if_false] at hm ⊢
  have hmem : ∀ e ∈ path.held, s₁.tags.get? e.1 = some e.2 := fun e he => hm.entry he
  apply (sat_getattrIntra hm.typed fun e he => hm.typed.tagEntry (hmem e he)).bind
  rintro ⟨res, st, s₂⟩ ⟨hs₂, -⟩
  dsimp only at hs₂ ⊢
  subst hs₂
  have ht₂ : (getattrStore env s₁ path).Tidy := tidy_getattrStore (hm.tidy h)
  refine (sat_givenBack ht₂ (positive_getattrStore (hm.positive hp)) (fun e he => ?_) fun e he => ?_).bind fun s₃ hg => ?_
  · refine current_of_registered ht₂.toTyped (k := e.1) ?_
    rw [getattrStore_tags]
    exact hmem e he
  · obtain ⟨T, hT, hr⟩ := hm.counted hp he
    exact ⟨T, by rw [getattrStore_tagHeap, hT], fun _ => hr⟩
  · exact looked hp hm getattrStore_tags getattrStore_tagHeap (fun _ _ _ => tagged_getattrStore) hg ht₂

/-- In every reached state and for every path, `getattr` accesses no freed tag, leaves the relation
between files and tags and the registered tags in use as they are, and registers no component of
the path that is not in use. -/
theorem getattr_readOnly {env₀ : Env} {file : Option CStr} {s₀ : Store}
    (h₀ : setRootDirectory env₀ file = .ok s₀) (h : Reaches step (fun _ _ => True) s₀ s)
    (env : Env) (userPath : CStr) : ∃ res st s', tagGetattr env s userPath = .ok (res, st, s') ∧
      (∀ f k t, s'.Tagged f k t ↔ s.Tagged f k t) ∧
      (∀ k t n f, s'.Linked k t n f ↔ s.Linked k t n f) ∧
      (∀ k t, s'.tags.get? k = some t ∧ s'.InUse t ↔ s.tags.get? k = some t ∧ s.InUse t) ∧
      ∀ k ∈ components (dirname userPath), ∀ t, s'.tags.get? k = some t → s'.InUse t := by
  obtain ⟨ht, hp⟩ := positive_of_reaches h₀ h
  obtain ⟨⟨res, st, s'⟩, hr, hl⟩ := (sat_tagGetattr ht hp userPath).exists_ok
  dsimp only at hl
  refine ⟨res, st, s', hr, fun _ _ _ => hl.tagged, fun _ _ _ _ => hl.linked, fun k t => ?_,
    fun k hk t ht => ?_⟩
  · rw [hl.name, hl.inUse]
    constructor
    · rintro ⟨⟨hk, -⟩, hu⟩
      exact ⟨hk, hu⟩
    · rintro ⟨hk, hu⟩
      exact ⟨⟨hk, .inl hu⟩, hu⟩
  · exact hl.inUse.mpr ((hl.name.mp ht).2.resolve_right fun hno => hno hk)

/-- The directory `/x/y` is open, where only `y` is in use. -/
def openUnused : List Event := [
  ⟨sampleEnv, .link (samplePath [] nameF) (samplePath [nameY] nameF)⟩,
  ⟨sampleEnv, .opendir (samplePath [nameX] nameY) 0 ⟨1, some 2⟩⟩]

/-- Looking at `/x/y/x/f` takes the name `x` from the registry. -/
theorem getattr_readOnly_sample : ∃ s res st s', execute step (fun _ _ => True) openUnused .init = some s ∧
    s.tags.get? nameX ≠ none ∧ ¬ s.UsedName nameX ∧
    tagGetattr sampleEnv s (samplePath [nameX, nameY, nameX] nameF) = .ok (res, st, s') ∧
    s'.tags.get? nameX = none := by
  have hrun : (execute step (fun _ _ => True) openUnused .init).any (fun s =>
      s.tags.get? nameX ≠ none ∧ ¬ s.UsedName nameX) = true := by decide +kernel
  obtain ⟨s, hs, hp⟩ := (Option.any_eq_true _ _).mp hrun
  obtain ⟨hx, hunused⟩ := of_decide_eq_true hp
  have h₀ : setRootDirectory sampleEnv none = .ok .init := rfl
  obtain ⟨res, st, s', hr, -, -, hused, hcomp⟩ := getattr_readOnly h₀ (reaches_of_execute hs)
    sampleEnv (samplePath [nameX, nameY, nameX] nameF)
  refine ⟨s, res, st, s', hs, hx, hunused, hr, ?_⟩
  rw [Option.eq_none_iff_forall_ne_some]
  intro t ht
  have hmem : nameX ∈ components (dirname (samplePath [nameX, nameY, nameX] nameF)) := by
    decide +kernel
  exact hunused ⟨t, (hused nameX t).mp ⟨ht, hcomp nameX hmem t ht⟩⟩

end TagFilesystem.Fuse
