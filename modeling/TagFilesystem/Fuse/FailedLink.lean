import TagFilesystem.Fuse.Getattr

namespace TagFilesystem.Fuse

variable {env : Env} {s s' s₁ s₂ : Store} {t : TagId} {T : Tag} {k : CStr} {E : Fault → Prop}
  {ks ks₁ ks₂ : List CStr} {sel sel₁ sel₂ : HashTable TagId} {userPath : CStr}

theorem Made.trans (h₁ : Made s ks₁ sel₁ s₁) (h₂ : Made s₁ ks₂ sel₂ s₂) :
    Made s (ks₁ ++ ks₂) ⟨sel₁.entries ++ sel₂.entries⟩ s₂ where
  typed := h₂.typed
  keys := by simp [← h₁.keys, ← h₂.keys, Table.keys]
  entry {k t} he := by
    rcases List.mem_append.mp he with he | he
    · exact h₂.kept (h₁.entry he)
    · exact h₂.entry he
  kept hk := h₂.kept (h₁.kept hk)
  only {k t} hk := by
    rcases h₂.only hk with hk₁ | ⟨hk₂, hnew, hdead⟩
    · exact (h₁.only hk₁).imp_right fun hn => ⟨List.mem_append_left _ hn.1, hn.2⟩
    · refine .inr ⟨List.mem_append_right _ hk₂, h₁.eq_none hnew, ?_⟩
      rw [Option.eq_none_iff_forall_ne_some]
      intro T hT
      rw [h₁.old hT] at hdead
      cases hdead
  old {t T} hT := by
    rw [h₂.old (h₁.old hT)]
    simp [Int.add_assoc]
  new {t T} hT hno := by
    cases hold : s₁.tagHeap.get? t with
    | none =>
      obtain ⟨hf, hu, hr, hpos, hname, hk⟩ := h₂.new hT hold
      have h0 : occurrences sel₁.entries t = 0 := by
        refine occurrences_eq_zero fun e he het => ?_
        obtain ⟨T₁, hT₁, -⟩ := h₁.typed.tagEntry (h₁.entry he)
        rw [het, hold] at hT₁
        cases hT₁
      refine ⟨hf, hu, ?_, hpos, h₁.eq_none hname, hk⟩
      simp [hr, h0]
    | some T₁ =>
      obtain ⟨hf, hu, hr, hpos, hname, hk⟩ := h₁.new hold hno
      rw [h₂.old hold] at hT
      cases hT
      refine ⟨hf, hu, ?_, ?_, hname, h₂.kept hk⟩
      · simp [hr]
      · dsimp only
        omega
  files := h₂.files.trans h₁.files
  fileHeap := h₂.fileHeap.trans h₁.fileHeap
  fds := h₂.fds.trans h₁.fds
  leaked := h₂.leaked.trans h₁.leaked

theorem sat_givenBack_two {p q : Path} (h : s.Tidy) (hp : s.Positive)
    (hcur : ∀ e ∈ p.held ++ q.held, s.Current e.2)
    (hlive : ∀ e ∈ p.held ++ q.held, ∃ T, s.tagHeap.get? e.2 = some T ∧
      (T.inUse = false → occurrences (p.held ++ q.held) e.2 ≤ T.refCount)) :
    Sat E (pathDelete env s p) fun s₁ =>
      Sat E (pathDelete env s₁ q) (GivenBack s (p.held ++ q.held)) := by
  have hboth : Sat E (pathDelete env s { p with selectedTags := ⟨p.held ++ q.held⟩ })
      (GivenBack s (p.held ++ q.held)) := sat_givenBack h hp hcur hlive
  rw [← sat_bind]
  simpa only [pathDelete, freeSelectedTags, Path.held, forEach_append] using hboth

theorem tagMkdir_noop (ht : s.Typed)
    (h : 1 < getCharacterCount userPath slash ∨ s.UsedName (basename userPath)) :
    ∃ r, tagMkdir s userPath = .ok (r, s) := by
  obtain ⟨r, -, hrun⟩ | ⟨t, T, hc, hk, hT, hu, -⟩ | ⟨hc, hk, -⟩ := tagMkdir_cases ht userPath
  · exact ⟨r, hrun⟩
  · obtain ⟨t', hk', T', hT', hu'⟩ := h.resolve_left (Nat.not_lt.mpr hc)
    cases hk.symm.trans hk'
    cases hT.symm.trans hT'
    rw [hu] at hu'
    cases hu'
  · obtain ⟨t', hk', -⟩ := h.resolve_left (Nat.not_lt.mpr hc)
    rw [hk] at hk'
    cases hk'

/-- What is registered in `s` still is, and the tags have the references they had. -/
structure Widened (s s' : Store) : Prop where
  tidy : s'.Tidy
  positive : s'.Positive
  kept : ∀ {k t}, s.tags.get? k = some t → s'.tags.get? k = some t
  count : ∀ {t T}, s.tagHeap.get? t = some T →
    ∃ T', s'.tagHeap.get? t = some T' ∧ T'.refCount = T.refCount

theorem Widened.refl (h : s.Tidy) (hp : s.Positive) : Widened s s :=
  ⟨h, hp, id, fun hT => ⟨_, hT, rfl⟩⟩

theorem sat_tagMkdir_used (h : s.Tidy) (hp : s.Positive)
    (hc : ¬ 1 < getCharacterCount userPath slash) (hu : ¬ s.UsedName (basename userPath)) :
    Sat E (tagMkdir s userPath) fun r => Widened s r.2 ∧ r.2.UsedName (basename userPath) := by
  obtain ⟨r, hno, -⟩ | ⟨t, T, -, hk, hT, -, hrun⟩ | ⟨-, hk, hrun⟩ := tagMkdir_cases h.toTyped userPath
  · obtain ⟨t, T, hk, hT, hused⟩ := hno.resolve_left hc
    exact absurd ⟨t, hk, T, hT, hused⟩ hu
  · rw [hrun]
    have hw : (s.tagHeap.write t { T with inUse := true }).get? t = some { T with inUse := true } :=
      Heap.get?_write_self hT
    refine ⟨⟨h.touchTag hT rfl rfl fun _ => rfl, hp.writeTag (hp t T hT), id, fun {t' T'} hT' => ?_⟩,
      t, hk, _, hw, rfl⟩
    by_cases ht : t' = t
    · subst ht
      cases hT.symm.trans hT'
      exact ⟨_, hw, rfl⟩
    · exact ⟨T', by rw [Store.writeTag_tagHeap, Heap.get?_write_ne ht, hT'], rfl⟩
  · rw [hrun]
    refine ⟨⟨h.registerTag (T := { tagNew _ true with refCount := 1 }) hk rfl,
      hp.registerTag (Int.le_refl 1), fun {k t} hk' => ?_, fun {t T} hT => ?_⟩, ?_⟩
    · have hne : basename userPath ≠ k := by
        rintro rfl
        rw [hk] at hk'
        cases hk'
      simpa [Store.registerTag, Table.get?_add, tagNew, hne] using hk'
    · exact ⟨T, Heap.get?_alloc_of_some hT, rfl⟩
    · exact ⟨s.tagHeap.next, Table.get?_add_self, _, Heap.get?_alloc_next, rfl⟩

/-- The relation between files and tags is the same on both sides, and so are the tags in use. -/
structure SameTagging (s s' : Store) : Prop where
  tagged : ∀ f k t, s'.Tagged f k t ↔ s.Tagged f k t
  linked : ∀ k t n f, s'.Linked k t n f ↔ s.Linked k t n f
  used : ∀ k, s'.UsedName k ↔ s.UsedName k

theorem Looked.sameTagging (h : Looked s ks s') : SameTagging s s' where
  tagged _ _ _ := h.tagged
  linked _ _ _ _ := h.linked
  used k := by
    unfold Store.UsedName
    constructor
    · rintro ⟨t, hk, hu⟩
      exact ⟨t, (h.name.mp hk).1, h.inUse.mp hu⟩
    · rintro ⟨t, hk, hu⟩
      exact ⟨t, h.name.mpr ⟨hk, .inl hu⟩, h.inUse.mpr hu⟩

theorem GivenBack.usedName {l : Held} (h : GivenBack s l s') (hu : s.UsedName k) : s'.UsedName k := by
  obtain ⟨t, hk, hu⟩ := hu
  exact ⟨t, h.name.mpr ⟨hk, .inl hu⟩, h.inUse_iff.mpr hu⟩

/-- `tag_mkdir` does nothing for the destination of the link. -/
def Undisturbed (s : Store) (dst : CStr) : Prop :=
  1 < getCharacterCount (dirname dst) slash ∨ s.UsedName (basename (dirname dst))

/-- The rest of `tag_link`: when the source is refused, both paths are given back. -/
theorem sat_linkRefused {ffrom fto : Path} (hp : s.Positive)
    (hm : Made s ks ⟨ffrom.held ++ fto.held⟩ s₁) (hx : Widened s₁ s₂) :
    Returns (do
      let (res, s₃) ← pathLink env s₂ ffrom fto
      let s₄ ← pathDelete env s₃ ffrom
      let s₅ ← pathDelete env s₄ fto
      .ok (res, s₅)) fun r =>
        r.1 < 0 → GivenBack (getattrStore env s₂ ffrom) (ffrom.held ++ fto.held) r.2 := by
  have hentry : ∀ e ∈ ffrom.held ++ fto.held, s₂.tags.get? e.1 = some e.2 :=
    fun e he => hx.kept (hm.entry he)
  have hlive : ∀ e ∈ fto.held, ∃ T, s₂.tagHeap.get? e.2 = some T := by
    intro e he
    obtain ⟨T, hT, -⟩ := hx.tidy.tagEntry (hentry e (List.mem_append_right _ he))
    exact ⟨T, hT⟩
  refine (sat_pathLink hx.tidy.toTyped
    (fun e he => hx.tidy.tagEntry (hentry e (List.mem_append_left _ he))) hlive).bind ?_
  rintro ⟨res, s₃⟩ (⟨-, -, rfl⟩ | ⟨h0, -, -⟩)
  · have ht : (getattrStore env s₂ ffrom).Tidy := tidy_getattrStore hx.tidy
    refine (sat_givenBack_two ht (positive_getattrStore hx.positive) (fun e he => ?_)
      fun e he => ?_).bind fun s₄ h₄ => h₄.bind fun s₅ hg _ => hg
    · refine current_of_registered ht.toTyped (k := e.1) ?_
      rw [getattrStore_tags]
      exact hentry e he
    · obtain ⟨T, hT, hr⟩ := hm.counted hp he
      obtain ⟨T', hT', hr'⟩ := hx.count hT
      exact ⟨T', by rw [getattrStore_tagHeap, hT'], fun _ => hr' ▸ hr⟩
  · refine (returns_true _).bind fun s₄ _ => (returns_true _).bind fun s₅ _ hneg => ?_
    dsimp only at h0 hneg
    omega

theorem sat_tagLink_failed (h : s.Tidy) (hp : s.Positive) (src dst : CStr) :
    Returns (tagLink env s src dst) fun r =>
      r.1 < 0 → (SameTagging s r.2 ↔ Undisturbed s dst) := by
  apply (sat_pathCreate h.toTyped src false).bind
  rintro ⟨ffrom, s₁⟩ ⟨-, hm₁⟩
  apply (sat_pathCreate hm₁.typed dst false).bind
  rintro ⟨fto, s₂⟩ ⟨hto, hm₂⟩
  have hm := hm₁.trans hm₂
  have ht₂ := hm.tidy h
  have hp₂ := hm.positive hp
  have hdir : fto.virtdirpath = dirname dst := congrArg Path.virtdirpath hto
  dsimp only
  rw [hdir]
  by_cases hc : Undisturbed s dst
  · obtain ⟨r, hr⟩ := tagMkdir_noop ht₂.toTyped (hc.imp_right hm.usedName_iff.mpr)
    rw [hr, ok_bind]
    refine (sat_linkRefused hp hm (.refl ht₂ hp₂)).mono fun r hg hneg => iff_of_true ?_ hc
    exact (looked hp hm getattrStore_tags getattrStore_tagHeap (fun _ _ _ => tagged_getattrStore)
      (hg hneg) (tidy_getattrStore ht₂)).sameTagging
  · obtain ⟨hcount, hu⟩ := not_or.mp hc
    apply (sat_tagMkdir_used ht₂ hp₂ hcount (mt hm.usedName_iff.mp hu)).bind
    rintro ⟨_, s₃⟩ ⟨hx, hu₃⟩
    refine (sat_linkRefused hp hm hx).mono fun r hg hneg => iff_of_false (fun hsame => hu ?_) hc
    refine (hsame.used _).mp ((hg hneg).usedName ?_)
    simpa [Store.UsedName, Store.InUse] using hu₃

/-- In every reached store, a link that fails leaves the relation between files and tags and the
tags in use as they are exactly if the directory of its destination has more than one slash or
is named after a tag in use. -/
theorem failed_link_iff {env₀ : Env} {file : Option CStr} {s₀ : Store}
    (h₀ : setRootDirectory env₀ file = .ok s₀) (h : Reaches step (fun _ _ => True) s₀ s)
    {src dst : CStr} {res : ℤ} (hlink : tagLink env s src dst = .ok (res, s')) (hneg : res < 0) :
    SameTagging s s' ↔ Undisturbed s dst := by
  obtain ⟨ht, hp⟩ := positive_of_reaches h₀ h
  exact (sat_tagLink_failed ht hp src dst).of_ok hlink hneg

instance (s : Store) (dst : CStr) : Decidable (Undisturbed s dst) :=
  inferInstanceAs (Decidable (_ ∨ _))

/-- The file `f`, which has no tags, is linked from `/x/f` to `/x/y/f`. -/
theorem failed_link_iff_sample : ∃ res s',
    tagLink sampleEnv .init (samplePath [nameX] nameF) (samplePath [nameX, nameY] nameF) =
      .ok (res, s') ∧ res < 0 ∧ SameTagging .init s' := by
  have hrun : returnsWith
      (tagLink sampleEnv .init (samplePath [nameX] nameF) (samplePath [nameX, nameY] nameF))
      (fun r => r.1 < 0) = true := by decide +kernel
  obtain ⟨⟨res, s'⟩, hlink, hneg⟩ := returnsWith_iff.mp hrun
  have h₀ : setRootDirectory sampleEnv none = .ok .init := rfl
  have hneg' : res < 0 := of_decide_eq_true hneg
  exact ⟨res, s', hlink, hneg', (failed_link_iff h₀ (.refl _) hlink hneg').mpr (by decide)⟩

/-- The same file is linked from `/x/f` to `/y/f`: the tag `y` is in use afterwards. -/
theorem failed_link_marks : ¬ ∀ env₀ file s₀ s env src dst res s', setRootDirectory env₀ file = .ok s₀ →
    Reaches step (fun _ _ => True) s₀ s → tagLink env s src dst = .ok (res, s') → res < 0 →
    SameTagging s s' := by
  intro h
  have hrun : returnsWith
      (tagLink sampleEnv .init (samplePath [nameX] nameF) (samplePath [nameY] nameF))
      (fun r => r.1 < 0 ∧ r.2.UsedName nameY) = true := by decide +kernel
  obtain ⟨⟨res, s'⟩, hlink, hp⟩ := returnsWith_iff.mp hrun
  obtain ⟨hneg, hused⟩ : res < 0 ∧ s'.UsedName nameY := of_decide_eq_true hp
  have hsame := h sampleEnv none .init .init sampleEnv _ _ res s' rfl (.refl _) hlink hneg
  exact absurd ((hsame.used nameY).mp hused) (by decide)

end TagFilesystem.Fuse
