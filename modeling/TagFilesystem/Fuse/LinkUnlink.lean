import TagFilesystem.Fuse.LinkSpec
import TagFilesystem.Fuse.Counts

namespace TagFilesystem.Fuse

variable {env : Env} {s s' : Store} {t : TagId} {T T' : Tag} {f k n : CStr} {ds ks : List CStr}
  {sel : HashTable TagId} {l : Held} {E : Fault → Prop}

/-- A coherent store whose tags that are not in use have no files, and whose registered tags are
referenced. -/
structure Store.WellFormed (s : Store) : Prop where
  tidy : s.Tidy
  coherent : s.Coherent
  counted : ∀ {k t T}, s.tags.get? k = some t → s.tagHeap.get? t = some T → 1 ≤ T.refCount

theorem wellFormed_init : Store.init.WellFormed where
  tidy := tidy_init
  coherent := coherent_init
  counted h := by cases h

theorem Store.Coherent.carries_iff (h : s.Coherent) (ht : s.Typed) :
    (∃ n, s.Carries n k) ↔ ∃ t T, s.tags.get? k = some t ∧ s.tagHeap.get? t = some T ∧
      T.files.entries ≠ [] := by
  constructor
  · rintro ⟨n, f, hn, t, htag⟩
    obtain ⟨hk, T, hT, -, hf⟩ := (h hn k t).mp htag
    refine ⟨t, T, hk, hT, fun hnil => ?_⟩
    rw [Table.get?_of_entries_nil hnil] at hf
    cases hf
  · rintro ⟨t, T, hk, hT, hne⟩
    obtain ⟨⟨n, f⟩, he⟩ := List.exists_mem_of_ne_nil _ hne
    have hf := (ht.tagFilesUnique hT).get?_eq_some.mpr he
    have hn := ht.tagFilesEntry hT hf
    exact ⟨n, f, hn, t, (h hn k t).mpr ⟨hk, T, hT, ht.value_of_get? hk hT, hf⟩⟩

namespace Made

theorem wellFormed (h : Made s ks sel s') (hw : s.WellFormed) : s'.WellFormed where
  tidy := h.tidy hw.tidy
  coherent := h.coherent hw.coherent
  counted {k t T} hk hT := by
    cases hold : s.tagHeap.get? t with
    | none => exact (h.new hT hold).2.2.2.1
    | some T₀ =>
      have hk₀ := (h.only hk).resolve_right fun hnew => by simp [hold] at hnew
      have := hw.counted hk₀ hold
      rw [h.old hold] at hT
      cases hT
      dsimp only
      omega

end Made

theorem Store.WellFormed.of_tags (hw : s.WellFormed) (ht : s'.Tidy) (hc : s'.Coherent)
    (htags : s'.tags = s.tags) (hcount : ∀ {t T'}, s'.tagHeap.get? t = some T' →
      ∃ T, s.tagHeap.get? t = some T ∧ T.refCount = T'.refCount) : s'.WellFormed where
  tidy := ht
  coherent := hc
  counted hk hT' := by
    obtain ⟨T, hT, hr⟩ := hcount hT'
    rw [htags] at hk
    rw [← hr]
    exact hw.counted hk hT

theorem Attached.wellFormed (h : Attached s l s') (hw : s.WellFormed) (hc : s'.Coherent) :
    s'.WellFormed := by
  refine hw.of_tags (h.tidy hw.tidy) hc h.tags fun {t T'} hT' => ?_
  obtain ⟨T, hT⟩ := h.back hT'
  obtain ⟨T₁, h₁, -, hr, -⟩ := h.tag hT
  rw [hT'] at h₁
  cases h₁
  exact ⟨T, hT, hr.symm⟩

theorem Unlinked.wellFormed {f : FileId} (h : Unlinked s f l s') (hw : s.WellFormed) :
    s'.WellFormed where
  tidy := h.tidy
  coherent := h.coherent
  counted hk hT' := by
    obtain ⟨T, hT, hr⟩ := h.count hk hT'
    rw [← hr]
    exact hw.counted (h.fewer.tags hk) hT

namespace Deleted

theorem object_of_get? (h : Deleted s l s') (hk : s'.tags.get? k = some t) :
    s'.tagHeap.get? t = s.tagHeap.get? t := by
  by_cases hl : ∃ e ∈ l, e.2 = t
  · exact h.object (.inl (h.removed hk hl))
  · exact h.object (.inr fun e he ht => hl ⟨e, he, ht⟩)

theorem wellFormed (h : Deleted s l s') (hw : s.WellFormed) : s'.WellFormed where
  tidy := h.tidy
  coherent := h.coherent
  counted hk hT := by
    rw [h.object_of_get? hk] at hT
    exact hw.counted (h.fewer.tags hk) hT

theorem carries (h : Deleted s l s') : s'.Carries n k ↔ s.Carries n k :=
  carries_congr h.files h.fileHeap

theorem usedName (h : Deleted s l s') (hu : s.UsedName k) : s'.UsedName k := by
  obtain ⟨t, hk, hu⟩ := hu
  have hk' := h.name hk (.inl hu)
  obtain ⟨T, hT, huT⟩ := hu
  exact ⟨t, hk', T, by rw [h.object_of_get? hk', hT], huT⟩

end Deleted

/-- `tag_mkdir` of a registered tag, or of a path of several components. -/
theorem sat_tagMkdir {userPath : CStr} (hw : s.WellFormed)
    (hreg : getCharacterCount userPath slash ≤ 1 → ∃ t, s.tags.get? (basename userPath) = some t) :
    Sat E (tagMkdir s userPath) fun r => r.2.WellFormed ∧ r.2.tags = s.tags ∧
      r.2.files = s.files ∧ r.2.fileHeap = s.fileHeap := by
  obtain ⟨r, -, hrun⟩ | ⟨t, T, -, -, hT, -, hrun⟩ | ⟨hc, hk, -⟩ :=
    tagMkdir_cases hw.tidy.toTyped userPath
  · rw [hrun]
    exact ⟨hw, rfl, rfl, rfl⟩
  · rw [hrun]
    refine ⟨hw.of_tags (hw.tidy.touchTag hT rfl rfl fun _ => rfl)
      (hw.coherent.touchTag hT rfl rfl) rfl fun {t' T'} hT' => ?_, rfl, rfl, rfl⟩
    obtain ⟨rfl, rfl⟩ | ⟨-, hT'⟩ := Heap.get?_write_cases hT'
    · exact ⟨T, hT, rfl⟩
    · exact ⟨T', hT', rfl⟩
  · obtain ⟨t, ht⟩ := hreg hc
    rw [hk] at ht
    cases ht

theorem wellFormed_fileGetOrCreate (hw : s.WellFormed) : (fileGetOrCreate s n).2.WellFormed where
  tidy := tidy_fileGetOrCreate hw.tidy
  coherent := coherent_fileGetOrCreate hw.tidy.toTyped hw.coherent
  counted hk hT := hw.counted (by simpa using hk) (by simpa using hT)

theorem wellFormed_linkStore {p : Path} (hw : s.WellFormed) : (linkStore env s p).WellFormed := by
  apply wellFormed_fileGetOrCreate
  unfold getattrStore
  split_ifs
  · exact wellFormed_fileGetOrCreate hw
  · exact hw

section

variable (hw : s.WellFormed) (hf : IsName f) (hds : ∀ d ∈ ds, IsName d)
include hw hf hds

theorem sat_tagLink (hne : ds ≠ []) {src : CStr} (hsrc : basename src = f) :
    Returns (tagLink env s src (dirPath ds ++ slash :: f)) fun r => r.1 = 0 →
      r.2.WellFormed ∧ (∀ n k, r.2.Carries n k ↔ s.Carries n k ∨ n = f ∧ k ∈ ds) ∧
        ∀ d ∈ ds, r.2.UsedName d := by
  apply (sat_pathCreate hw.tidy.toTyped src false).bind
  rintro ⟨ffrom, s₁⟩ ⟨hfrom, hm₁⟩
  dsimp only at hfrom hm₁ ⊢
  have hw₁ := hm₁.wellFormed hw
  apply (sat_pathCreate_child hw₁.tidy.toTyped hds hf).bind
  rintro ⟨fto, s₂⟩ ⟨hto, hm₂⟩
  dsimp only at hto hm₂ ⊢
  have hw₂ := hm₂.wellFormed hw₁
  have hdir : fto.virtdirpath = dirPath ds := hto.virtdirpath hne
  have hname : ffrom.filename = f := by
    rw [hfrom]
    exact hsrc
  have hentry₂ : ∀ e ∈ fto.held, s₂.tags.get? e.1 = some e.2 := fun e he => hm₂.entry he
  refine (sat_tagMkdir hw₂ ?_).bind ?_
  · -- the only component of the path is registered
    rw [hdir, getCharacterCount_dirPath hds]
    intro hlen
    obtain ⟨d, rfl⟩ := List.length_eq_one_iff.mp
      (Nat.le_antisymm hlen (List.length_pos_of_ne_nil hne))
    have hd : basename (dirPath [d]) = d := by
      simpa [dirPath] using basename_child (hds d (by simp)) []
    obtain ⟨t, he⟩ := hm₂.mem_iff.mpr (List.mem_singleton_self d)
    rw [hd]
    exact ⟨t, hentry₂ _ he⟩
  rintro ⟨_, s₃⟩ ⟨hw₃, htags₃, hfiles₃, hheap₃⟩
  dsimp only at hw₃ htags₃ hfiles₃ hheap₃ ⊢
  have hto₃ : ∀ e ∈ fto.held, s₃.tags.get? e.1 = some e.2 := fun e he => htags₃ ▸ hentry₂ e he
  have hfrom₃ : ∀ e ∈ ffrom.held, s₃.tags.get? e.1 = some e.2 :=
    fun e he => htags₃ ▸ hm₂.kept (hm₁.entry he)
  have hlive₃ : ∀ e ∈ fto.held, ∃ T, s₃.tagHeap.get? e.2 = some T := by
    intro e he
    obtain ⟨T, hT, -⟩ := hw₃.tidy.tagEntry (hto₃ e he)
    exact ⟨T, hT⟩
  have hcar₃ (n k : CStr) : s₃.Carries n k ↔ s.Carries n k := by
    rw [carries_congr hfiles₃ hheap₃, hm₂.carries, hm₁.carries]
  refine ((sat_pathLink hw₃.tidy.toTyped (fun e he => hw₃.tidy.tagEntry (hfrom₃ e he)) hlive₃).and
    (sat_pathLink_relation hw₃.tidy.toTyped hw₃.coherent
      (fun e he => hw₃.tidy.tagEntry (hfrom₃ e he)) hto₃)).bind ?_
  rintro ⟨res, s₄⟩ ⟨hlink, hc₄, hrel₄⟩
  dsimp only at hlink hc₄ hrel₄ ⊢
  -- an error of `path_link` is the result
  rcases hlink with ⟨hneg, -⟩ | ⟨h0, -, ha⟩
  · refine (returns_true _).bind fun s₅ _ => (returns_true _).bind fun s₆ _ h0 => ?_
    dsimp only at h0
    omega
  have hw₄ : s₄.WellFormed := ha.wellFormed (wellFormed_linkStore hw₃) hc₄
  have htags₄ : s₄.tags = s₃.tags := ha.tags.trans linkStore_tags
  -- both paths are given back, the source first
  refine (sat_deleted hw₄.tidy hc₄ fun e he =>
    current_of_registered hw₄.tidy.toTyped (htags₄ ▸ hfrom₃ e he)).bind fun s₅ hd₅ => ?_
  refine (sat_deleted hd₅.tidy hd₅.coherent fun e he =>
    (current_of_registered hw₄.tidy.toTyped (htags₄ ▸ hto₃ e he)).mono hd₅.fewer).bind
      fun s₆ hd₆ _ => ?_
  refine ⟨hd₆.wellFormed (hd₅.wellFormed hw₄), fun n k => ?_, fun d hd => ?_⟩
  · have hmem := hm₂.mem_iff (k := k)
    rw [hd₆.carries, hd₅.carries, hrel₄ h0, hcar₃, hname]
    exact or_congr_right (and_congr_right fun _ => hmem)
  · obtain ⟨t, he⟩ := hm₂.mem_iff.mpr hd
    obtain ⟨T, hT⟩ := hlive₃ _ he
    have hu : s₄.UsedName d := ⟨t, htags₄ ▸ hto₃ _ he, ha.inUse_of_mem he (by simpa using hT)⟩
    exact hd₆.usedName (hd₅.usedName hu)

theorem sat_tagUnlink :
    Returns (tagUnlink env s (dirPath ds ++ slash :: f)) fun r => r.1 = 0 →
      r.2.WellFormed ∧ (∀ n k, r.2.Carries n k ↔ s.Carries n k ∧ ¬(n = f ∧ k ∈ ds)) ∧
        (∀ d ∈ ds, (∃ t, r.2.tags.get? d = some t) ↔ ∃ n, r.2.Carries n d) ∧
        ∀ k, k ∉ ds → r.2.tags.get? k = s.tags.get? k := by
  unfold tagUnlink
  split_ifs with hc
  · intro h0
    cases h0
  apply (sat_pathCreate_child hw.tidy.toTyped hds hf).bind
  rintro ⟨fd, s₁⟩ ⟨hfd, hm₁⟩
  dsimp only at hfd hm₁ ⊢
  have hw₁ := hm₁.wellFormed hw
  have hname : fd.filename = f := hfd.filename
  have hentry₁ : ∀ e ∈ fd.held, s₁.tags.get? e.1 = some e.2 := fun e he => hm₁.entry he
  cases hn : s₁.files.get? fd.filename with
  | none =>
    -- an unknown file is an error
    simp only [pathUnlink, fileGet, hn, bind, Except.bind]
    refine (returns_true _).bind fun s₃ _ h0 => ?_
    cases h0
  | some f₀ =>
  apply (sat_unlinked hw₁.tidy hw₁.coherent hn hentry₁).bind
  rintro ⟨res, s₂⟩ ⟨-, hu₂⟩
  dsimp only at hu₂ ⊢
  have hw₂ := hu₂.wellFormed hw₁
  refine (sat_deleted hw₂.tidy hw₂.coherent fun e he =>
    (current_of_registered hw₁.tidy.toTyped (hentry₁ e he)).mono hu₂.fewer).bind fun s₃ hd₃ _ => ?_
  have hw₃ := hd₃.wellFormed hw₂
  refine ⟨hw₃, fun n k => ?_, fun d hd => ⟨?_, ?_⟩, fun k hk => ?_⟩
  · have hlost := carries_lost (n := n) (k := k) hw₁.tidy.toTyped hu₂.files
      (fun _ _ _ => hu₂.tagged) hn
    rw [hd₃.carries, hlost, hm₁.carries, hname, ← hm₁.mem_iff (k := k)]
    exact Iff.rfl
  · rintro ⟨t, ht⟩
    -- a tag of the path that is still registered has kept a file
    have ht₂ := hd₃.fewer.tags ht
    obtain ⟨T, hT, -⟩ := hw₂.tidy.tagEntry ht₂
    obtain ⟨t', he⟩ := hm₁.mem_iff.mpr hd
    have hsame : t' = t := by
      have := hentry₁ _ he
      rw [hu₂.fewer.tags ht₂] at this
      exact (Option.some.inj this).symm
    simp only [hd₃.carries]
    exact (hw₂.coherent.carries_iff hw₂.tidy.toTyped).mpr
      ⟨t, T, ht₂, hT, hu₂.full ht₂ hT ⟨_, he, hsame⟩⟩
  · intro hcar
    obtain ⟨t, T, ht, -⟩ := (hw₃.coherent.carries_iff hw₃.tidy.toTyped).mp hcar
    exact ⟨t, ht⟩
  · -- a tag of another name is not held by the path
    have hother {t : TagId} (ht : s₁.tags.get? k = some t) : ∀ e ∈ fd.held, e.2 ≠ t := by
      rintro e he rfl
      obtain ⟨T, hT, hv⟩ := hw₁.tidy.tagEntry (hentry₁ e he)
      have hek : e.1 = k := hv.symm.trans (hw₁.tidy.value_of_get? ht hT)
      exact hk (hm₁.mem_iff.mp ⟨e.2, hek ▸ he⟩)
    have hsame : s₁.tags.get? k = s.tags.get? k := by
      ext t
      exact ⟨fun ht => (hm₁.only ht).resolve_right fun hnew => hk hnew.1, hm₁.kept⟩
    rw [← hsame]
    ext t
    exact ⟨fun ht => hu₂.fewer.tags (hd₃.fewer.tags ht), fun ht =>
      hd₃.name (hu₂.name ht (hother ht)) (.inr (hother ht))⟩

end

theorem Store.WellFormed.fits (hw : s.WellFormed) (hroom : s.RoomFor ks) :
    s.Fits 1 (fun t => (∃ k ∈ ks, s.tags.get? k = some t) ∨ s.tagHeap.next ≤ t) ks :=
  hroom.fits hw.tidy.tagsUnique fun _ => hw.counted

/-- For every well-formed store with room for the references of the paths, a `link` of `f` to
`/d₁/…/dₖ/f` that succeeds adds the tags `dᵢ` to those of `f`, and an `unlink` of `/d₁/…/dₖ/f` that
succeeds takes them away; a `dᵢ` stays registered as long as a file has it. No other file changes,
and the store stays well formed. -/
theorem link_union_unlink_diff (hw : s.WellFormed) (hf : IsName f) (hds : ∀ d ∈ ds, IsName d)
    (hne : ds ≠ []) :
    (∀ src s', basename src = f → s.RoomFor (components (dirname src) ++ ds) →
      @tagLink Counting.int env s src (dirPath ds ++ slash :: f) = .ok (0, s') →
      s'.WellFormed ∧ (∀ n k, s'.Carries n k ↔ s.Carries n k ∨ n = f ∧ k ∈ ds) ∧
        ∀ d ∈ ds, s'.UsedName d) ∧
    ∀ s', s.RoomFor ds → @tagUnlink Counting.int env s (dirPath ds ++ slash :: f) = .ok (0, s') →
      s'.WellFormed ∧ (∀ n k, s'.Carries n k ↔ s.Carries n k ∧ ¬(n = f ∧ k ∈ ds)) ∧
        (∀ d ∈ ds, (∃ t, s'.tags.get? d = some t) ↔ ∃ n, s'.Carries n d) ∧
        ∀ k, k ∉ ds → s'.tags.get? k = s.tags.get? k := by
  have hcomponents := components_dirname_dirPath hds hf
  constructor
  · intro src s' hsrc hroom hr
    have hfits := hw.fits hroom
    rw [← hcomponents] at hfits
    have hlink := ((coincide_tagLink hfits).of_ok hr).1
    exact (sat_tagLink hw hf hds hne hsrc).of_ok hlink rfl
  · intro s' hroom hr
    have hfits := hw.fits hroom
    rw [← hcomponents] at hfits
    have hunlink := ((coincide_tagUnlink hfits).of_ok hr).1
    exact (sat_tagUnlink hw hf hds).of_ok hunlink rfl

/-- The file `f` gets the tags `x`, `y` and `x`, and then loses `y`. -/
theorem link_unlink_sample : ∃ s₁ s₂,
    @tagLink Counting.int sampleEnv .init (samplePath [] nameF)
      (samplePath [nameX, nameY, nameX] nameF) = .ok (0, s₁) ∧
    @tagUnlink Counting.int sampleEnv s₁ (samplePath [nameY] nameF) = .ok (0, s₂) ∧ s₂.WellFormed ∧
    (∀ n k, s₂.Carries n k ↔ n = nameF ∧ k = nameX) ∧ s₂.tags.get? nameY = none := by
  have hrun : returnsWith
      (@tagLink Counting.int sampleEnv .init (samplePath [] nameF)
        (samplePath [nameX, nameY, nameX] nameF))
      (fun r => r.1 = 0 ∧ r.2.RoomFor [nameY] ∧
        returnsWith (@tagUnlink Counting.int sampleEnv r.2 (samplePath [nameY] nameF))
          (fun r => r.1 = 0) = true) = true := by decide +kernel
  obtain ⟨⟨r₁, s₁⟩, h₁, hp⟩ := returnsWith_iff.mp hrun
  obtain ⟨rfl, hroom, hrun₂⟩ : r₁ = 0 ∧ _ ∧ _ := of_decide_eq_true hp
  obtain ⟨⟨r₂, s₂⟩, h₂, hp₂⟩ := returnsWith_iff.mp hrun₂
  obtain rfl : r₂ = 0 := of_decide_eq_true hp₂
  have hf : IsName nameF := by decide
  have hx : IsName nameX := by decide
  have hy : IsName nameY := by decide
  have hxyx : ∀ d ∈ [nameX, nameY, nameX], IsName d := by simp [hx, hy]
  have hyOnly : ∀ d ∈ [nameY], IsName d := by simp [hy]
  have hlink := (link_union_unlink_diff wellFormed_init hf hxyx (by simp)).1 _ s₁ (by decide)
    (by decide) h₁
  have hunlink := (link_union_unlink_diff hlink.1 hf hyOnly (by simp)).2 s₂ hroom h₂
  have hnone (n k : CStr) : ¬ Store.init.Carries n k := by
    rintro ⟨f, hn, -⟩
    cases hn
  have hxy : nameX ≠ nameY := by decide
  have hcar (n k : CStr) : s₂.Carries n k ↔ n = nameF ∧ k = nameX := by
    rw [hunlink.2.1, hlink.2.1]
    simp only [hnone, false_or, List.mem_cons, List.not_mem_nil, or_false]
    constructor
    · rintro ⟨⟨rfl, hk⟩, hno⟩
      have hky : k ≠ nameY := fun hk => hno ⟨rfl, hk⟩
      exact ⟨rfl, hk.elim id fun hk => (hk.resolve_left hky)⟩
    · rintro ⟨rfl, rfl⟩
      exact ⟨⟨rfl, .inl rfl⟩, fun h => hxy h.2⟩
  refine ⟨s₁, s₂, h₁, h₂, hunlink.1, hcar, ?_⟩
  rw [Option.eq_none_iff_forall_ne_some]
  intro t ht
  obtain ⟨n, hn⟩ := (hunlink.2.2.1 nameY (by simp)).mp ⟨t, ht⟩
  exact hxy ((hcar n nameY).mp hn).2.symm

theorem wellFormed_fullTag : fullTag.WellFormed where
  tidy := tidy_init.registerTag rfl rfl
  coherent := coherent_init.registerTag rfl rfl
  counted {k t T} hk hT := by
    cases List.mem_singleton.mp (Table.mem_of_get? hk)
    cases hT
    decide

/-- A `link` to a tag with `INT_MAX` references succeeds and leaves a negative count. -/
theorem link_fullTag : ¬ ∀ env s src s', s.WellFormed → basename src = nameF →
    @tagLink Counting.int env s src (dirPath [nameX] ++ slash :: nameF) = .ok (0, s') →
      s'.WellFormed := by
  intro h
  have hrun : returnsWith
      (@tagLink Counting.int sampleEnv fullTag (samplePath [] nameF) (dirPath [nameX] ++ slash :: nameF))
      (fun r => r.1 = 0 ∧ r.2.tags.get? nameX = some 0 ∧
        (r.2.tagHeap.get? 0).map Tag.refCount = some (-2147483648)) = true := by decide +kernel
  obtain ⟨⟨res, s'⟩, hlink, hp⟩ := returnsWith_iff.mp hrun
  obtain ⟨rfl, hk, hcount⟩ : res = 0 ∧ _ ∧ _ := of_decide_eq_true hp
  obtain ⟨T, hT, hr⟩ := Option.map_eq_some_iff.mp hcount
  have hpos := (h _ _ _ s' wellFormed_fullTag (by decide) hlink).counted hk hT
  omega

end TagFilesystem.Fuse
