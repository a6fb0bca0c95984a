import TagFilesystem.Fuse.LinkSpec

namespace TagFilesystem.Fuse

variable {env : Env} {s s' : Store} {t : TagId} {T : Tag} {f : FileId} {k n : CStr}
  {E : Fault → Prop}

/-- `s'` is `s` after the tag object `t` has been removed: its files have lost its name. -/
structure Removed (s : Store) (t : TagId) (T : Tag) (s' : Store) : Prop where
  typed : s'.Typed
  files : s'.files = s.files
  tagged : ∀ {f k t'}, s'.Tagged f k t' ↔
    s.Tagged f k t' ∧ ¬(k = T.value ∧ ∃ n, T.files.get? n = some f)
  object : ∀ {t'}, t' ≠ t → s'.tagHeap.get? t' = s.tagHeap.get? t'

theorem sat_removeLoop (h : s.Typed) (hT : s.tagHeap.get? t = some T) :
    Sat E (forEach (T.files.entries.map fun e => (T.value, e.2))
      (fun s e => fileRemoveTag env s e.2 t) s) fun s₁ => s₁.Typed ∧ s₁.tagHeap = s.tagHeap ∧
        s₁.files = s.files ∧ ∀ f k t', s₁.Tagged f k t' ↔
          s.Tagged f k t' ∧ ¬(k = T.value ∧ ∃ n, (n, f) ∈ T.files.entries) := by
  -- the files `l₀` have lost the tag
  refine (sat_forEach (fun l s₁ => ∃ l₀ l₁, l = l₁.map (fun e => (T.value, e.2)) ∧
    l₀ ++ l₁ = T.files.entries ∧ s₁.Typed ∧ s₁.tagHeap = s.tagHeap ∧ s₁.files = s.files ∧
    ∀ f k t', s₁.Tagged f k t' ↔ s.Tagged f k t' ∧ ¬(k = T.value ∧ ∃ n, (n, f) ∈ l₀))
    ?_ _ _ ⟨[], T.files.entries, rfl, rfl, h, rfl, rfl, by simp⟩).mono ?_
  · rintro e l s₁ ⟨l₀, l₁, hl, hsplit, ht, hheap, hfiles, hrel⟩
    cases l₁ with
    | nil => cases hl
    | cons e₁ l₁ =>
    obtain ⟨n, f⟩ := e₁
    obtain ⟨rfl, rfl⟩ := List.cons.inj hl
    have hmem : (n, f) ∈ T.files.entries := by
      rw [← hsplit]
      simp
    have hn : s₁.files.get? n = some f := by
      rw [hfiles]
      exact h.tagFilesEntry hT ((h.tagFilesUnique hT).get?_eq_some.mpr hmem)
    obtain ⟨F, hF, -⟩ := ht.fileEntry hn
    rw [fileRemoveTag_eq (T := T) (hheap ▸ hT) hF]
    refine ⟨l₀ ++ [(n, f)], l₁, rfl, by simpa using hsplit,
      ht.writeFile hF rfl (ht.fileTagsUnique hF).erase, hheap, hfiles, fun f' k t' => ?_⟩
    rw [tagged_eraseTag hF (ht.fileTagsUnique hF) rfl, hrel]
    have hsplit' : (∃ m, (m, f') ∈ l₀ ++ [(n, f)]) ↔ (∃ m, (m, f') ∈ l₀) ∨ f' = f := by
      simp [exists_or]
    rw [hsplit']
    tauto
  · rintro s₁ ⟨l₀, l₁, hl, hsplit, ht, hheap, hfiles, hrel⟩
    obtain rfl : l₁ = [] := by simpa using hl.symm
    rw [List.append_nil] at hsplit
    exact ⟨ht, hheap, hfiles, hsplit ▸ hrel⟩

theorem sat_tagRemove (h : s.Typed) (hT : s.tagHeap.get? t = some T) :
    Sat E (tagRemove env s t) (Removed s t T) := by
  simp only [tagRemove, Store.readTag_eq hT, bind, Except.bind, Table.entries_foldl_add,
    Table.entries_empty, List.nil_append]
  refine (sat_removeLoop h hT).bind fun s₁ hs₁ => ?_
  obtain ⟨ht, hheap, hfiles, hrel⟩ := hs₁
  have hT₁ : s₁.tagHeap.get? t = some T := hheap ▸ hT
  rw [Store.readTag_eq hT₁]
  dsimp only
  rw [tagDecRef_erase ht.tagsUnique hT₁]
  refine ⟨ht.dropTag hT₁, hfiles, fun {f k t'} => ?_, fun {t'} hne => ?_⟩
  · apply (hrel f k t').trans
    simp only [(h.tagFilesUnique hT).get?_eq_some]
  · rw [Store.dropTag_get?_ne hne, hheap]

theorem sat_pathDelete_single {path : Path} (h : s.Typed) (hp : path.held = [(k, t)]) :
    Returns (pathDelete env s path) fun s' => ∃ T, s.tagHeap.get? t = some T ∧
      if T.inUse = true then s' = s else Removed s t T s' := by
  have hp' : path.selectedTags.entries = [(k, t)] := hp
  simp only [pathDelete, freeSelectedTags, hp', forEach_cons]
  refine sat_bind.mpr (sat_bind.mpr (sat_readTag (fun _ => trivial) fun T hT => ?_))
  cases hu : T.inUse with
  | true => exact ⟨T, hT, by simp [hu]⟩
  | false => exact (sat_tagRemove h hT).mono fun s' hs' => ⟨T, hT, by simpa [hu] using hs'⟩

/-- `s'` is `s` after the file `f`, named `n`, has lost the tag `t` of the name `k`, which has
left the registry if it was the last file. -/
structure Untagged (s : Store) (k : CStr) (t : TagId) (T : Tag) (n : CStr) (f : FileId) (s' : Store) :
    Prop where
  typed : s'.Typed
  files : s'.files = s.files
  tagged : ∀ {f' k' t'}, s'.Tagged f' k' t' ↔ s.Tagged f' k' t' ∧ ¬(f' = f ∧ k' = k)
  other : ∀ {t'}, t' ≠ t → s'.tagHeap.get? t' = s.tagHeap.get? t'
  object : ∀ {T'}, s'.tagHeap.get? t = some T' →
    T'.value = k ∧ T'.inUse = T.inUse ∧ T'.files = T.files.erase n

/-- `path_unlink` of a path with one component. The object survives if it has another reference. -/
theorem sat_pathUnlink_single {path : Path} (h : s.Typed) (hp : path.held = [(k, t)])
    (hn : s.files.get? path.filename = some f) (hT : s.tagHeap.get? t = some T)
    (hv : T.value = k) :
    Sat E (pathUnlink env s path) fun r => Untagged s k t T path.filename f r.2 ∧
      (2 ≤ T.refCount → ∃ T', r.2.tagHeap.get? t = some T') := by
  have hp' : path.selectedTags.entries = [(k, t)] := hp
  refine (sat_pathUnlink hn (fun l s₁ => l = [(k, t)] ∧ s₁ = s ∨
    l = [] ∧ (∃ F, s₁.fileHeap.get? f = some F) ∧ Untagged s k t T path.filename f s₁ ∧
      (2 ≤ T.refCount → ∃ T', s₁.tagHeap.get? t = some T')) ?_ ?_ ?_ ?_ (.inl ⟨hp', rfl⟩)).mono ?_
  · rintro e l s₁ (⟨he, rfl⟩ | ⟨he, -⟩) hd
    · obtain ⟨rfl, rfl⟩ := List.cons.inj he
      rw [hT] at hd
      cases hd
    · cases he
  · rintro l s₁ (⟨-, rfl⟩ | ⟨-, hF, -⟩)
    · obtain ⟨F, hF, -⟩ := h.fileEntry hn
      exact ⟨F, hF⟩
    · exact hF
  · rintro e l s₁ T₁ F (⟨he, rfl⟩ | ⟨he, -⟩) hT₁ hF -
    · obtain ⟨rfl, rfl⟩ := List.cons.inj he
      cases hT.symm.trans hT₁
      have hname := h.name_of_get? hn hF
      refine .inr ⟨rfl, ⟨_, Heap.get?_write_self hF⟩, ⟨h.detach hT hF, rfl, fun {f' k' t'} => ?_,
        fun hne => Store.detach_get?_ne hne, fun {T'} hT' => ?_⟩,
        fun _ => ⟨_, Store.detach_get?_self hT⟩⟩
      · rw [tagged_detach hF (h.fileTagsUnique hF), hv]
      · rw [Store.detach_get?_self hT] at hT'
        cases hT'
        exact ⟨hv, rfl, by rw [hname]⟩
    · cases he
  · rintro e l s₁ T₁ F (⟨he, rfl⟩ | ⟨he, -⟩) hT₁ hF -
    · obtain ⟨rfl, rfl⟩ := List.cons.inj he
      cases hT.symm.trans hT₁
      have hname := h.name_of_get? hn hF
      have hT' : (s₁.detach env t T f F).tagHeap.get? t = _ := Store.detach_get?_self hT
      refine ⟨h.tagsUnique, .inr ⟨rfl, ⟨_, Heap.get?_write_self hF⟩, ⟨(h.detach hT hF).dropTag hT',
        rfl, fun {f' k' t'} => ?_, fun hne => ?_, fun {T'} h₁ => ?_⟩, fun hr => ?_⟩⟩
      · have htag : (s₁.detach env t T f F).Tagged f' k' t' ↔ _ :=
          tagged_detach hF (h.fileTagsUnique hF)
        exact htag.trans (by rw [hv])
      · rw [Store.dropTag_get?_ne hne, Store.detach_get?_ne hne]
      · unfold Store.dropTag at h₁
        dsimp only at h₁
        split_ifs at h₁
        · simp [Heap.get?_free] at h₁
        · rw [Heap.get?_write_self hT'] at h₁
          cases h₁
          exact ⟨hv, rfl, by rw [hname]⟩
      · unfold Store.dropTag
        dsimp only
        -- two references are enough for the object to stay
        rw [if_neg (by omega)]
        exact ⟨_, Heap.get?_write_self hT'⟩
    · cases he
  · rintro r ⟨-, ⟨hl, -⟩ | ⟨-, -, hu⟩⟩
    · cases hl
    · exact hu

/-- The object `t` has all files that carry its name. -/
def Owns (s : Store) (k : CStr) (t : TagId) : Prop :=
  ∀ T, s.tagHeap.get? t = some T → T.value = k ∧
    ∀ n f t', s.files.get? n = some f → s.Tagged f k t' → T.files.get? n = some f

theorem owns_of_get? (h : s.Typed) (hc : s.Coherent) (hk : s.tags.get? k = some t) : Owns s k t := by
  intro T hT
  refine ⟨h.value_of_get? hk hT, fun n f t' hn htag => ?_⟩
  obtain ⟨hk', T', hT', -, hf⟩ := (hc hn k t').mp htag
  cases hk.symm.trans hk'
  cases hT.symm.trans hT'
  exact hf

theorem sat_pathDelete_carries {path : Path} (h : s.Typed) (hp : path.held = [(k, t)]) :
    Returns (pathDelete env s path) fun s' => (∃ T, s.tagHeap.get? t = some T) ∧ s'.Typed ∧
      s'.files = s.files ∧ (∀ t', t' ≠ t → s'.tagHeap.get? t' = s.tagHeap.get? t') ∧
      (∀ f k' t', s'.Tagged f k' t' → s.Tagged f k' t') ∧
      (Owns s k t → ∀ n k', s'.Carries n k' ↔ s.Carries n k' ∧ (s.InUse t ∨ k' ≠ k)) := by
  refine (sat_pathDelete_single h hp).mono fun s' hs' => ?_
  obtain ⟨T, hT, hs'⟩ := hs'
  cases hu : T.inUse with
  | true =>
    rw [if_pos hu] at hs'
    subst hs'
    exact ⟨⟨T, hT⟩, h, rfl, fun _ _ => rfl, fun _ _ _ h => h, fun _ n k' =>
      ⟨fun hcar => ⟨hcar, .inl ⟨T, hT, hu⟩⟩, And.left⟩⟩
  | false =>
    rw [if_neg (by simp [hu])] at hs'
    refine ⟨⟨T, hT⟩, hs'.typed, hs'.files, fun _ => hs'.object, fun f k' t' htag => (hs'.tagged.mp htag).1,
      fun hown n k' => ?_⟩
    obtain ⟨hv, hown⟩ := hown T hT
    have hno : ¬ s.InUse t := by
      rintro ⟨T', hT', hu'⟩
      cases hT.symm.trans hT'
      rw [hu] at hu'
      cases hu'
    simp only [Store.Carries, hs'.files, hs'.tagged, hv, hno, false_or]
    constructor
    · rintro ⟨f, hn, t', htag, hlost⟩
      refine ⟨⟨f, hn, t', htag⟩, ?_⟩
      rintro rfl
      exact hlost ⟨rfl, n, hown n f t' hn htag⟩
    · rintro ⟨⟨f, hn, t', htag⟩, hne⟩
      exact ⟨f, hn, t', htag, fun hlost => hne hlost.1⟩

theorem held_of_keys {sel : HashTable TagId} (h : sel.keys = [k]) : ∃ t, sel.entries = [(k, t)] := by
  obtain ⟨⟨k', t⟩, he⟩ := List.length_eq_one_iff.mp
    (by simpa [Table.keys] using congrArg List.length h : sel.entries.length = 1)
  refine ⟨t, ?_⟩
  simp only [Table.keys, he, List.map_cons, List.map_nil, List.cons.injEq, and_true] at h
  rw [he, h]

theorem sat_pathLink_single {pa pb : Path} {a b : CStr} {ta tb : TagId} (h : s.Typed)
    (hc : s.Coherent) (hpa : pa.held = [(a, ta)]) (hpb : pb.held = [(b, tb)])
    (hka : s.tags.get? a = some ta) (hkb : s.tags.get? b = some tb)
    (hreal : pa.realpath = appendDir env.realdirpath pa.filename)
    (hcar : s.Carries pa.filename a) :
    Returns (pathLink env s pa pb) fun r => r.2.Typed ∧ r.2.Coherent ∧ r.2.tags = s.tags ∧
      (∀ n k, r.2.Carries n k ↔ s.Carries n k ∨ env.Found pa.filename ∧ n = pa.filename ∧ k = b) ∧
      (a ≠ b → (r.2.InUse ta ↔ s.InUse ta)) ∧ (r.2.InUse tb ↔ env.Found pa.filename ∨ s.InUse tb) := by
  have hfrom : ∀ e ∈ pa.held, s.tags.get? e.1 = some e.2 := by simpa [hpa] using hka
  have hto : ∀ e ∈ pb.held, s.tags.get? e.1 = some e.2 := by simpa [hpb] using hkb
  obtain ⟨Ta, hTa, hva⟩ := h.tagEntry hka
  obtain ⟨Tb, hTb, hvb⟩ := h.tagEntry hkb
  have hacc : Accepts env s pa ↔ env.Found pa.filename := by
    unfold Accepts Env.Found
    rw [hreal, hpa]
    split_ifs with hreg
    · simpa [hreg] using hcar
    · simp [hreg]
  refine ((sat_pathLink h (fun e he => h.tagEntry (hfrom e he)) (by simpa [hpb] using ⟨Tb, hTb⟩)).and
    (sat_pathLink_relation h hc (fun e he => h.tagEntry (hfrom e he)) hto)).mono ?_
  rintro ⟨res, s'⟩ ⟨hlink, hc', hrel⟩
  dsimp only at hlink hc' hrel ⊢
  rw [hacc] at hlink
  rcases hlink with ⟨-, hno, rfl⟩ | ⟨h0, hyes, ha⟩
  · refine ⟨typed_getattrStore h, hc', getattrStore_tags, fun n k => ?_, fun _ => ?_, ?_⟩
    · simp [carries_getattrStore, hno]
    · simp [Store.InUse]
    · simp [Store.InUse, hno]
  · have hlive (t : TagId) : (linkStore env s pa).InUse t ↔ s.InUse t := by simp [Store.InUse]
    refine ⟨ha.typed, hc', ha.tags.trans linkStore_tags, fun n k => ?_, fun hne => ?_, ?_⟩
    · rw [hrel h0, hpb]
      simp [hyes]
    · have ht : tb ≠ ta := by
        rintro rfl
        cases hTa.symm.trans hTb
        exact hne (hva.symm.trans hvb)
      rw [ha.inUse_iff (T := Ta) (by simpa using hTa), hlive, hpb]
      simp [ht]
    · rw [ha.inUse_iff (T := Tb) (by simpa using hTb), hlive, hpb]
      simp [hyes]

section

variable {a b f g : CStr} (h : s.Typed) (hc : s.Coherent) (ha : IsName a) (hb : IsName b)
  (hf : IsName f) (hg : IsName g)
include h hc ha hb hf hg

theorem sat_tagRename :
    Returns (tagRename env s (dirPath [a] ++ slash :: f) (dirPath [b] ++ slash :: g)) fun r =>
      r.1 = 0 ∧ (s.Carries f a → (a = b → ¬ r.2.Carries f a) ∧ (a ≠ b → ∀ n k, r.2.Carries n k ↔
        (s.Carries n k ∨ env.Found f ∧ n = f ∧ k = b) ∧ ¬(n = f ∧ k = a) ∧
          (s.UsedName a ∨ k ≠ a) ∧ (env.Found f ∨ s.UsedName b ∨ k ≠ b))) := by
  have hda : ∀ d ∈ [a], IsName d := by simpa using ha
  have hdb : ∀ d ∈ [b], IsName d := by simpa using hb
  apply (sat_pathCreate_child h hda hf).bind
  rintro ⟨pa, s₁⟩ ⟨hpa, hm₁⟩
  apply (sat_pathCreate_child hm₁.typed hdb hg).bind
  rintro ⟨pb, s₂⟩ ⟨-, hm₂⟩
  dsimp only at hpa hm₁ hm₂ ⊢
  obtain ⟨ta, hea⟩ := held_of_keys hm₁.keys
  obtain ⟨tb, heb⟩ := held_of_keys hm₂.keys
  have hka : s₂.tags.get? a = some ta := hm₂.kept (hm₁.entry (by rw [hea]; simp))
  have hkb : s₂.tags.get? b = some tb := hm₂.entry (by rw [heb]; simp)
  have hc₂ : s₂.Coherent := hm₂.coherent (hm₁.coherent hc)
  have hname : pa.filename = f := hpa.filename
  have hcar₂ (n k : CStr) : s₂.Carries n k ↔ s.Carries n k := hm₂.carries.trans hm₁.carries
  have hsize : ¬(pa.selectedTags.size ≠ 1 ∨ pb.selectedTags.size ≠ 1) := by
    simp [Table.size, hea, heb]
  rw [if_neg hsize]
  -- without the tag there is nothing to show
  by_cases hcar : s.Carries f a
  swap
  · refine (returns_true _).bind fun _ _ => (returns_true _).bind fun _ _ => ?_
    refine Sat.bind (P := fun r : ℤ × Store => r.1 = 0) rfl fun r hr => ?_
    exact (returns_true _).bind fun _ _ => (returns_true _).bind fun _ _ =>
      ⟨hr, fun hc => absurd hc hcar⟩
  have hreal : pa.realpath = appendDir env.realdirpath pa.filename := by
    rw [hpa.realpath, hname]
  refine (sat_pathLink_single hm₂.typed hc₂ hea heb hka hkb hreal
    (by rw [hname, hcar₂]; exact hcar)).bind ?_
  rintro ⟨_, s₃⟩ ⟨ht₃, hc₃, htags, hrel, hua, hub⟩
  dsimp only at ht₃ hc₃ htags hrel hua hub ⊢
  simp only [hname, hcar₂] at hrel hub
  rw [hm₂.inUse_iff hka, hm₁.usedName_iff] at hua
  rw [hm₂.inUse_iff hkb, hm₁.usedName_iff] at hub
  have hka₃ : s₃.tags.get? a = some ta := htags ▸ hka
  have hkb₃ : s₃.tags.get? b = some tb := htags ▸ hkb
  -- the source carries `a` after the link as well, so the unlink finds the file
  obtain ⟨f₀, hn, t, htag⟩ := (hrel f a).mpr (.inl hcar)
  obtain ⟨T, hT, hv⟩ := ht₃.tagEntry hka₃
  apply (sat_pathUnlink_single ht₃ hea (hname.symm ▸ hn) hT hv).bind
  rintro ⟨_, s₄⟩ ⟨hu, -⟩
  dsimp only at hu ⊢
  have hcar₄ (n k : CStr) : s₄.Carries n k ↔ s₃.Carries n k ∧ ¬(n = f ∧ k = a) :=
    carries_lost ht₃ hu.files (fun _ _ _ => hu.tagged) hn
  refine (sat_pathDelete_carries hu.typed hea).bind fun s₅ hs₅ => ?_
  obtain ⟨⟨T₄, hT₄⟩, ht₅, hfiles₅, hobj₅, hfew₅, hrel₅⟩ := hs₅
  refine (sat_pathDelete_carries ht₅ heb).bind fun s₆ hs₆ => ?_
  obtain ⟨-, -, hfiles₆, -, hfew₆, hrel₆⟩ := hs₆
  refine ⟨rfl, fun _ => ⟨fun hab hlast => ?_, fun hab n k => ?_⟩⟩
  · -- the same tag on both sides: what the link gives the unlink takes
    obtain ⟨f', hn', t', htag'⟩ := hlast
    rw [hfiles₆, hfiles₅] at hn'
    exact ((hcar₄ f a).mp ⟨f', hn', t', hfew₅ _ _ _ (hfew₆ _ _ _ htag')⟩).2 ⟨rfl, rfl⟩
  · have hne : tb ≠ ta := by
      rintro rfl
      exact hab (hv.symm.trans (ht₃.value_of_get? hkb₃ hT))
    obtain ⟨hv₄, hu₄, hfiles₄⟩ := hu.object hT₄
    -- an object that owns its name takes only its own relation with it
    have hown₄ : Owns s₄ a ta := by
      intro T' hT'
      cases hT₄.symm.trans hT'
      refine ⟨hv₄, fun n f' t' hn' htag' => ?_⟩
      obtain ⟨htag₃, hno⟩ := hu.tagged.mp htag'
      rw [hu.files] at hn'
      have hne' : n ≠ f := fun he => hno ⟨(ht₃.file_eq_iff hn' hn).mpr he, rfl⟩
      rw [hfiles₄, hname, (ht₃.tagFilesUnique hT).get?_erase_ne hne']
      exact (owns_of_get? ht₃ hc₃ hka₃ T hT).2 n f' t' hn' htag₃
    have hobj : s₅.tagHeap.get? tb = s₃.tagHeap.get? tb := (hobj₅ tb hne).trans (hu.other hne)
    have hown₅ : Owns s₅ b tb := by
      intro T' hT'
      obtain ⟨hv', hall⟩ := owns_of_get? ht₃ hc₃ hkb₃ T' (hobj ▸ hT')
      refine ⟨hv', fun n f' t' hn' htag' => hall n f' t' ?_ (hu.tagged.mp (hfew₅ _ _ _ htag')).1⟩
      rwa [hfiles₅, hu.files] at hn'
    have hua₄ : s₄.InUse ta ↔ s.UsedName a := by
      rw [← hua hab]
      simp [Store.InUse, hT₄, hT, hu₄]
    have hub₅ : s₅.InUse tb ↔ env.Found f ∨ s.UsedName b := by
      rw [← hub, Store.InUse, Store.InUse, hobj]
    rw [hrel₆ hown₅, hrel₅ hown₄, hcar₄, hrel, hua₄, hub₅]
    simp only [and_assoc, or_assoc]

end

/-- What a successful `rename` from `/a/f` to `/b/g` is for: `f` had the tag `a` and has `b` in its
place, and no other file changes; without the tag the call fails and changes nothing. -/
def MovesTag (s : Store) (f a b : CStr) (ret : ℤ) (s' : Store) : Prop :=
  (ret = 0 → s.Carries f a ∧
    ∀ n k, s'.Carries n k ↔ s.Carries n k ∧ ¬(n = f ∧ k = a) ∨ n = f ∧ k = b) ∧
  (¬ s.Carries f a → ret ≠ 0 ∧ ∀ n k, s'.Carries n k ↔ s.Carries n k)

/-- The file has the tag `a`, which is not `b`; no other file depends on a tag `a` that is not in
use; and linking succeeds, or the file already has `b` and `b` is in use. -/
def Movable (env : Env) (s : Store) (f a b : CStr) : Prop :=
  s.Carries f a ∧ a ≠ b ∧ (s.UsedName a ∨ ∀ n, s.Carries n a → n = f) ∧
    (env.Found f ∨ s.Carries f b ∧ s.UsedName b)

/-- `rename` from `/a/f` to `/b/g` moves the tag exactly if it is movable. -/
theorem rename_movesTag_iff {a b f g : CStr} {ret : ℤ} (h : s.Typed) (hc : s.Coherent)
    (ha : IsName a) (hb : IsName b) (hf : IsName f) (hg : IsName g)
    (hr : tagRename env s (dirPath [a] ++ slash :: f) (dirPath [b] ++ slash :: g) = .ok (ret, s')) :
    MovesTag s f a b ret s' ↔ Movable env s f a b := by
  obtain ⟨h0, hrel⟩ := (sat_tagRename h hc ha hb hf hg).of_ok hr
  dsimp only at h0 hrel
  constructor
  · rintro ⟨hmove, -⟩
    obtain ⟨hcar, hiff⟩ := hmove h0
    obtain ⟨hsame, hother⟩ := hrel hcar
    have hab : a ≠ b := by
      rintro rfl
      exact hsame rfl ((hiff f a).mpr (.inr ⟨rfl, rfl⟩))
    have hb' := (hother hab f b).mp ((hiff f b).mpr (.inr ⟨rfl, rfl⟩))
    refine ⟨hcar, hab, ?_, ?_⟩
    · by_contra hno
      push Not at hno
      obtain ⟨hua, n, hn, hne⟩ := hno
      have := (hother hab n a).mp ((hiff n a).mpr (.inl ⟨hn, fun h => hne h.1⟩))
      exact this.2.2.1.elim hua fun h => h rfl
    · rcases hb'.2.2.2 with hfound | hub | hne
      · exact .inl hfound
      · rcases hb'.1 with hfb | ⟨hfound, -⟩
        · exact .inr ⟨hfb, hub⟩
        · exact .inl hfound
      · exact absurd rfl hne
  · rintro ⟨hcar, hab, hua, hub⟩
    refine ⟨fun _ => ⟨hcar, fun n k => ?_⟩, fun hno => absurd hcar hno⟩
    rw [(hrel hcar).2 hab n k]
    constructor
    · rintro ⟨hn | ⟨-, hn⟩, hno, -⟩
      · exact .inl ⟨hn, hno⟩
      · exact .inr hn
    · rintro (⟨hn, hno⟩ | ⟨rfl, rfl⟩)
      · have hk : s.UsedName a ∨ k ≠ a := hua.imp_right fun hall hk =>
          hno ⟨hall n (hk ▸ hn), hk⟩
        exact ⟨.inl hn, hno, hk, hub.imp_right fun h => .inl h.2⟩
      · have hn : s.Carries n k ∨ env.Found n ∧ n = n ∧ k = k :=
          hub.elim (fun hfound => .inr ⟨hfound, rfl, rfl⟩) fun h => .inl h.1
        exact ⟨hn, fun h => hab h.2.symm, .inr hab.symm, hub.imp_right fun h => .inl h.2⟩

theorem coherent_of_execute {es : List Event}
    (h : execute step ReleaseHarmless es .init = some s) : s.Typed ∧ s.Coherent := by
  have h₀ : setRootDirectory sampleEnv none = .ok .init := rfl
  have hs := coherence_sound.reaches h₀ ((reaches_of_execute h).weaken fun _ _ => coherence_permits)
  exact ⟨hs.1.toTyped, hs.2.1⟩

/-- The file `f` has the tag `x`, and is moved to `y`. -/
theorem rename_movesTag_sample : ∃ s s',
    tagRename sampleEnv s (samplePath [nameX] nameF) (samplePath [nameY] nameG) = .ok (0, s') ∧
    MovesTag s nameF nameX nameY 0 s' := by
  have hrun : (execute step ReleaseHarmless
      [⟨sampleEnv, .link (samplePath [] nameF) (samplePath [nameX] nameF)⟩] .init).any (fun s =>
        returnsWith (tagRename sampleEnv s (samplePath [nameX] nameF) (samplePath [nameY] nameG))
          (fun r => r.1 = 0) = true ∧ s.Carries nameF nameX ∧ s.UsedName nameX) = true := by
    decide +kernel
  obtain ⟨s, hs, hp⟩ := (Option.any_eq_true _ _).mp hrun
  obtain ⟨hrun, hcar, hua⟩ := of_decide_eq_true hp
  obtain ⟨⟨ret, s'⟩, hr, h0⟩ := returnsWith_iff.mp hrun
  obtain rfl : ret = 0 := of_decide_eq_true h0
  have hfound : sampleEnv.Found nameF := .inl (by decide)
  have hmov : Movable sampleEnv s nameF nameX nameY := ⟨hcar, by decide, .inl hua, .inl hfound⟩
  have hst := coherent_of_execute hs
  exact ⟨s, s', hr, (rename_movesTag_iff hst.1 hst.2 (by decide) (by decide) (by decide)
    (by decide) hr).mpr hmov⟩

/-- Only `g` has the tag `x`; renaming `/x/f` to `/y/f` returns 0 all the same. -/
theorem rename_untagged_not_moved : ¬ ∀ env s a b f g ret s', Store.Typed s → s.Coherent →
    IsName a → IsName b → IsName f → IsName g →
    tagRename env s (dirPath [a] ++ slash :: f) (dirPath [b] ++ slash :: g) = .ok (ret, s') →
    MovesTag s f a b ret s' := by
  intro h
  have hrun : (execute step ReleaseHarmless
      [⟨sampleEnv, .link (samplePath [] nameG) (samplePath [nameX] nameG)⟩] .init).any (fun s =>
        returnsWith (tagRename sampleEnv s (samplePath [nameX] nameF) (samplePath [nameY] nameF))
          (fun r => r.1 = 0) = true ∧ ¬ s.Carries nameF nameX) = true := by
    decide +kernel
  obtain ⟨s, hs, hp⟩ := (Option.any_eq_true _ _).mp hrun
  obtain ⟨hrun, hcar⟩ := of_decide_eq_true hp
  obtain ⟨⟨ret, s'⟩, hr, h0⟩ := returnsWith_iff.mp hrun
  have hst := coherent_of_execute hs
  have hmove := h sampleEnv s nameX nameY nameF nameF ret s' hst.1 hst.2 (by decide) (by decide)
    (by decide) (by decide) hr
  exact (hmove.2 hcar).1 (of_decide_eq_true h0)

end TagFilesystem.Fuse
