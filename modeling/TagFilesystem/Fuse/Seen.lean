import TagFilesystem.Fuse.View
import TagFilesystem.Fuse.Listing
import TagFilesystem.Fuse.LinkUnlink

namespace TagFilesystem.Fuse

variable {env : Env} {s s' : Store} {t : TagId} {T : Tag} {f : FileId} {F : File} {k n : CStr}
  {ks : List CStr} {sel : HashTable TagId} {l : Held}

def Path.query (p : Path) : Query := ⟨p.realpath, p.filename, p.selectedTags.keys⟩

def Store.catalogue (s : Store) : Catalogue CStr CStr := ⟨s.Carries, s.UsedName⟩

/-- The tags are live under their names, or have been freed. -/
def Store.LabelsAll (s : Store) (l : Held) : Prop := ∀ e ∈ l, ∀ T, s.tagHeap.get? e.2 = some T → T.value = e.1

theorem Store.Registered.labelsAll (h : s.Registered sel) (hs : s.Typed) : s.LabelsAll sel.entries :=
  fun e he _ hT => hs.value_of_get? (h e he) hT

theorem Made.catalogue (h : Made s ks sel s') : s'.catalogue = s.catalogue :=
  Catalogue.ext_iff_forall.mpr ⟨fun _ _ => h.carries, fun _ => h.usedName_iff⟩

theorem usedName_congr (htags : s'.tags = s.tags) (hheap : s'.tagHeap = s.tagHeap) :
    s'.UsedName k ↔ s.UsedName k := by
  simp only [Store.UsedName, Store.InUse, htags, hheap]

theorem catalogue_fileGetOrCreate : (fileGetOrCreate s n).2.catalogue = s.catalogue :=
  Catalogue.ext_iff_forall.mpr ⟨fun _ _ => carries_fileGetOrCreate,
    fun _ => usedName_congr fileGetOrCreate_tags fileGetOrCreate_tagHeap⟩

theorem catalogue_getattrStore {p : Path} : (getattrStore env s p).catalogue = s.catalogue :=
  Catalogue.ext_iff_forall.mpr ⟨fun _ _ => carries_getattrStore,
    fun _ => usedName_congr getattrStore_tags getattrStore_tagHeap⟩

theorem Deleted.catalogue (h : Deleted s l s') : s'.catalogue = s.catalogue := by
  refine Catalogue.ext_iff_forall.mpr ⟨fun _ _ => carries_congr h.files h.fileHeap, fun k => ?_⟩
  constructor
  · rintro ⟨t, hk, T, hT, hu⟩
    obtain ⟨T₀, hT₀, -, hu₀, -⟩ := h.fewer.tag hT
    exact ⟨t, h.fewer.tags hk, T₀, hT₀, hu₀.trans hu⟩
  · rintro ⟨t, hk, T, hT, hu⟩
    have huse : s.InUse t := ⟨T, hT, hu⟩
    exact ⟨t, h.name hk (.inl huse), T, by rw [h.object (.inl huse), hT], hu⟩

theorem returns_fileMatchesTags (hF : s.fileHeap.get? f = some F) (hsel : s.LabelsAll sel.entries) :
    Returns (fileMatchesTags s f sel) fun b =>
      b = true ↔ ∀ k ∈ sel.keys, ∃ t, s.Tagged f k t := by
  have htag (k : CStr) : (∃ t, s.Tagged f k t) ↔ F.tags.contains k = true := by
    simp [Store.Tagged, hF, Table.contains_iff_get?]
  simp only [htag, fileMatchesTags, Store.readFile_eq hF, ok_bind, Table.keys, List.forall_mem_map]
  -- the flag tells whether all tags seen so far are carried
  refine sat_forEach_visited (fun (l₀ : Held) b => b = true ↔ ∀ e ∈ l₀, F.tags.contains e.1 = true) ?_
    (by simp)
  intro l₀ e l₁ b hsplit hb
  apply sat_bind.mpr
  apply sat_readTag (fun _ => trivial)
  intro T hT
  have hv : T.value = e.1 := hsel e (by rw [← hsplit]; simp) T hT
  rw [List.forall_mem_append, List.forall_mem_singleton, ← hb, hv]
  by_cases hc : F.tags.contains e.1 = true
  · simp [hc]
  · simp [hc]

theorem returns_getattrIntra_gives {p : Path} (h : s.Typed) (hp : s.LabelsAll p.held) :
    Returns (getattrIntra env s p) fun r => r.2.2 = getattrStore env s p ∧
      p.query.Gives env s.catalogue r.1 ∧ r.2.1 = p.query.stat env := by
  have hroot : ((env.stat env.realdirpath).isSome = true ∧ (statRoot env).1 = 0 ∨
      ¬ (env.stat env.realdirpath).isSome = true ∧ (statRoot env).1 = -1) ∧
      (statRoot env).2 = env.stat env.realdirpath := by
    unfold statRoot
    cases env.stat env.realdirpath <;> simp
  unfold getattrIntra getattrStore Query.Gives Query.Found Query.refusal Query.stat Path.query
  cases hst : env.stat p.realpath with
  | none =>
    have hreg : env.regular p.realpath = false := by simp [Env.regular, hst]
    simpa [hreg] using hroot
  | some st =>
    dsimp only
    by_cases hdir : st.isDir = true
    · have hreg : env.regular p.realpath = false := by simp [Env.regular, hst, hdir]
      simpa [hdir, hreg] using hroot
    have hreg : env.regular p.realpath = true := by simp [Env.regular, hst, hdir]
    rw [if_neg hdir]
    simp only [hreg, if_true]
    have hf := fileGetOrCreate_get? (s := s) (n := p.filename)
    have ht := typed_fileGetOrCreate (n := p.filename) h
    obtain ⟨F, hF, -⟩ := ht.fileEntry hf
    have hcar (k : CStr) : (∃ t, (fileGetOrCreate s p.filename).2.Tagged
        (fileGetOrCreate s p.filename).1 k t) ↔ s.Carries p.filename k := by
      rw [← carries_fileGetOrCreate (n := p.filename), Store.Carries]
      simp [hf]
    by_cases hsize : p.selectedTags.size > 0
    · have hkeys : p.selectedTags.keys ≠ [] := by
        simpa [Table.keys] using List.length_pos_iff.mp hsize
      have hlabels : (fileGetOrCreate s p.filename).2.LabelsAll p.selectedTags.entries := by
        intro e he T hT
        exact hp e he T (by simpa using hT)
      rw [if_pos hsize]
      apply (returns_fileMatchesTags hF hlabels).bind
      intro b hb
      simp only [hcar] at hb
      refine ⟨rfl, ?_, by simp [hkeys]⟩
      cases b with
      | true => exact .inl ⟨hb.mp rfl, rfl⟩
      | false => exact .inr ⟨fun hall => by simpa using hb.mpr hall, rfl⟩
    · have hkeys : p.selectedTags.keys = [] := by simpa [Table.size, Table.keys] using hsize
      have hfound : s.catalogue.Has p.filename p.selectedTags.keys := by
        rw [hkeys]
        intro k hk
        cases hk
      rw [if_neg hsize]
      by_cases hname : p.filename = tagFilename
      · rw [if_pos hname]
        exact ⟨rfl, .inl ⟨hfound, rfl⟩, by simp [hkeys, hname]⟩
      · rw [if_neg hname]
        exact ⟨rfl, .inl ⟨hfound, rfl⟩, by simp [hname]⟩

theorem returns_readdirListFiles_catalogue {dirpath : Path} (h : s.Typed)
    (hsel : s.AllLive dirpath.selectedTags) :
    Returns (readdirListFiles env s dirpath) fun r => r.2.catalogue = s.catalogue := by
  refine (sat_forEach_mem (I := fun r : List CStr × Store =>
    r.2.Typed ∧ r.2.tagHeap = s.tagHeap ∧ r.2.catalogue = s.catalogue) (fun d _ r hr => ?_)
    ⟨h, rfl, rfl⟩).mono fun r hr => hr.2.2
  obtain ⟨ht, hheap, hcat⟩ := hr
  split_ifs
  · exact ⟨ht, hheap, hcat⟩
  have hlabels : r.2.LabelsAll (pathSet env dirpath.virtpath d.name dirpath.selectedTags).held := by
    intro e he T hT
    obtain ⟨T', hT', hv⟩ := hsel e he
    rw [hheap, hT'] at hT
    cases hT
    exact hv
  apply (returns_getattrIntra_gives ht hlabels).bind
  rintro ⟨res, st, s₂⟩ ⟨rfl, -⟩
  exact ⟨typed_getattrStore ht, getattrStore_tagHeap.trans hheap, catalogue_getattrStore.trans hcat⟩

theorem returns_tagMkdir_catalogue (h : s.Typed) (userPath : CStr) :
    Returns (tagMkdir s userPath) fun r =>
      r.2.catalogue = mkdirCatalogue s.catalogue userPath := by
  -- a tag that was not in use is, and no other
  have huse {s₁ : Store} {t : TagId} (hfiles : s₁.files = s.files) (hheap : s₁.fileHeap = s.fileHeap)
      (hname : ∀ {k t'}, s₁.tags.get? k = some t' ∧ s₁.InUse t' ↔
        s.tags.get? k = some t' ∧ s.InUse t' ∨ k = basename userPath ∧ t' = t) :
      s₁.catalogue = s.catalogue.use (basename userPath) := by
    refine Catalogue.ext_iff_forall.mpr ⟨fun _ _ => carries_congr hfiles hheap, fun k => ?_⟩
    simp only [Store.catalogue, Catalogue.use, Store.UsedName, hname, exists_or, exists_and_left,
      exists_eq, and_true]
  obtain ⟨r, hno, hrun⟩ | ⟨t, T, hc, hk, hT, hu, hrun⟩ | ⟨hc, hk, hrun⟩ := tagMkdir_cases h userPath
  · rw [hrun]
    unfold mkdirCatalogue
    rcases hno with hc | ⟨t, T, hk, hT, hu⟩
    · rw [if_pos hc]
      rfl
    · split_ifs
      · rfl
      · refine Catalogue.ext_iff_forall.mpr ⟨fun _ _ => Iff.rfl, fun k => ⟨.inl, ?_⟩⟩
        rintro (hk' | rfl)
        · exact hk'
        · exact ⟨t, hk, T, hT, hu⟩
  · rw [hrun, mkdirCatalogue, if_neg (Nat.not_lt.mpr hc)]
    change (s.writeTag t { T with inUse := true }).catalogue = _
    apply huse
    · rfl
    · rfl
    intro k t'
    have hvalue : k = basename userPath ↔ s.tags.get? k = some t := by
      constructor
      · rintro rfl
        exact hk
      · intro hk'
        exact (h.value_of_get? hk' hT).symm.trans (h.value_of_get? hk hT)
    have hlive : Store.InUse (s.writeTag t { T with inUse := true }) t' ↔ s.InUse t' ∨ t' = t := by
      by_cases ht : t' = t
      · subst ht
        simp [Store.InUse, Heap.get?_write_self hT]
      · simp [Store.InUse, Heap.get?_write_ne ht, ht]
    rw [hlive, hvalue, and_or_left]
    refine or_congr_right ⟨?_, ?_⟩
    · rintro ⟨hk', rfl⟩
      exact ⟨hk', rfl⟩
    · rintro ⟨hk', rfl⟩
      exact ⟨hk', rfl⟩
  · rw [hrun, mkdirCatalogue, if_neg (Nat.not_lt.mpr hc)]
    change (s.registerTag { tagNew (basename userPath) true with refCount := 1 }).catalogue = _
    apply huse (t := s.tagHeap.next)
    · rfl
    · rfl
    intro k t'
    change (s.tags.add (basename userPath) s.tagHeap.next).get? k = some t' ∧
      (∃ T, (s.tagHeap.alloc _).get? t' = some T ∧ T.inUse = true) ↔ _
    rw [Table.get?_add]
    by_cases hkey : basename userPath = k
    · subst hkey
      rw [if_pos rfl, hk]
      constructor
      · rintro ⟨ht, -⟩
        exact .inr ⟨rfl, (Option.some.inj ht).symm⟩
      · rintro (⟨⟨⟩, -⟩ | ⟨-, rfl⟩)
        exact ⟨rfl, _, Heap.get?_alloc_next, rfl⟩
    · rw [if_neg hkey]
      have hne : ¬(k = basename userPath ∧ t' = s.tagHeap.next) := fun he => hkey he.1.symm
      simp only [hne, or_false]
      refine and_congr_right fun hk' => exists_congr fun T => and_congr_left fun _ => ?_
      obtain ⟨T₀, hT₀, -⟩ := h.tagEntry hk'
      rw [Heap.get?_alloc, if_neg (Heap.ne_next hT₀)]

theorem accepts_iff_found {p : Path} : Accepts env s p ↔ p.query.Found env s.catalogue := by
  simp only [Accepts, Query.Found, Catalogue.Has, Path.query, Store.catalogue, Table.keys,
    List.forall_mem_map, Path.held]

theorem Store.Registered.mem_keys (h : s.Registered sel) (hs : s.Typed) (hk : s.tags.get? k = some t) :
    k ∈ sel.keys ↔ ∃ e ∈ sel.entries, e.2 = t := by
  constructor
  · intro hmem
    obtain ⟨e, he, rfl⟩ := List.mem_map.mp hmem
    exact ⟨e, he, Option.some.inj ((h e he).symm.trans hk)⟩
  · rintro ⟨e, he, rfl⟩
    obtain ⟨T, hT, hv⟩ := hs.tagEntry (h e he)
    exact List.mem_map.mpr ⟨e, he, hv.symm.trans (hs.value_of_get? hk hT)⟩

theorem Attached.usedName_iff (h : Attached s sel.entries s') (hs : s.Typed)
    (hsel : s.Registered sel) : s'.UsedName k ↔ s.UsedName k ∨ k ∈ sel.keys := by
  unfold Store.UsedName
  rw [h.tags]
  constructor
  · rintro ⟨t, hk, hu⟩
    obtain ⟨T, hT, -⟩ := hs.tagEntry hk
    exact ((h.inUse_iff hT).mp hu).imp (fun hu => ⟨t, hk, hu⟩) (hsel.mem_keys hs hk).mpr
  · rintro (⟨t, hk, hu⟩ | hmem)
    · exact ⟨t, hk, h.inUse hu⟩
    · obtain ⟨e, he, rfl⟩ := List.mem_map.mp hmem
      obtain ⟨T, hT, -⟩ := hs.tagEntry (hsel e he)
      exact ⟨e.2, hsel e he, h.inUse_of_mem he hT⟩

theorem returns_pathLink_res {ffrom fto : Path} (h : s.Typed) (hfrom : s.LabelsAll ffrom.held) :
    Returns (pathLink env s ffrom fto) fun r => r.1 = 0 ∨ r.1 = ffrom.query.refusal env := by
  apply (returns_getattrIntra_gives h hfrom).bind
  rintro ⟨res, st, s₁⟩ ⟨-, hres, -⟩
  dsimp only at hres ⊢
  have hres' : res = 0 ∨ res = ffrom.query.refusal env := hres.imp And.right And.right
  split_ifs
  · exact hres'
  · exact (returns_true _).bind fun _ _ => hres'

theorem returns_pathLink_catalogue {ffrom fto : Path} (h : s.Tidy) (hc : s.Coherent)
    (hfrom : s.Registered ffrom.selectedTags) (hto : s.Registered fto.selectedTags) :
    Returns (pathLink env s ffrom fto) fun r => r.2.Tidy ∧ r.2.Coherent ∧ r.2.tags = s.tags ∧
      (¬ ffrom.query.Found env s.catalogue ∧ r.1 = ffrom.query.refusal env ∧
          r.2.catalogue = s.catalogue ∨
        ffrom.query.Found env s.catalogue ∧ r.1 = 0 ∧
          r.2.catalogue = s.catalogue.tag ffrom.filename fto.selectedTags.keys) := by
  have hlive (e) (he : e ∈ fto.held) : ∃ T, s.tagHeap.get? e.2 = some T := by
    obtain ⟨T, hT, -⟩ := h.tagEntry (hto e he)
    exact ⟨T, hT⟩
  have hlabel (e) (he : e ∈ ffrom.held) := h.tagEntry (hfrom e he)
  refine ((sat_pathLink h.toTyped hlabel hlive).and ((sat_pathLink_relation h.toTyped hc hlabel
    hto).and (returns_pathLink_res h.toTyped (hfrom.labelsAll h.toTyped)))).mono ?_
  rintro ⟨res, s'⟩ ⟨hlink, ⟨hc', hrel⟩, hres⟩
  dsimp only at hlink hc' hrel hres ⊢
  rw [accepts_iff_found] at hlink
  rcases hlink with ⟨hneg, hno, rfl⟩ | ⟨h0, hyes, ha⟩
  · exact ⟨tidy_getattrStore h, hc', getattrStore_tags,
      .inl ⟨hno, hres.resolve_left (by omega), catalogue_getattrStore⟩⟩
  · have ht : (linkStore env s ffrom).Tidy := tidy_fileGetOrCreate (tidy_getattrStore h)
    have hsel : (linkStore env s ffrom).Registered fto.selectedTags := fun e he => by
      rw [linkStore_tags]
      exact hto e he
    refine ⟨ha.tidy ht, hc', ha.tags.trans linkStore_tags, .inr ⟨hyes, h0, ?_⟩⟩
    refine Catalogue.ext_iff_forall.mpr ⟨fun n k => ?_, fun k => ?_⟩
    · apply (hrel h0 n k).trans
      refine or_congr_right (and_congr_right fun _ => ⟨?_, fun hmem => ?_⟩)
      · rintro ⟨t, he⟩
        exact List.mem_map.mpr ⟨(k, t), he, rfl⟩
      · obtain ⟨e, he, rfl⟩ := List.mem_map.mp hmem
        exact ⟨e.2, he⟩
    · apply (ha.usedName_iff ht.toTyped hsel).trans
      exact or_congr_left (usedName_congr linkStore_tags linkStore_tagHeap)

theorem Unlinked.catalogue (h : Unlinked s f sel.entries s') (hs : s.Tidy)
    (hsel : s.Registered sel) (hn : s.files.get? n = some f) :
    s'.catalogue = s.catalogue.untag n sel.keys := by
  have hmem {k : CStr} : (∃ t, (k, t) ∈ sel.entries) ↔ k ∈ sel.keys := by
    simp [Table.keys]
  have hcar (m k : CStr) : s'.Carries m k ↔ s.Carries m k ∧ ¬(m = n ∧ k ∈ sel.keys) := by
    rw [carries_lost hs.toTyped h.files (fun _ _ _ => h.tagged) hn, hmem]
  refine Catalogue.ext_iff_forall.mpr ⟨hcar, fun k => ?_⟩
  constructor
  · rintro ⟨t, hk', T', hT', hu⟩
    have hk := h.fewer.tags hk'
    obtain ⟨T, hT, -, hu₀, -⟩ := h.fewer.tag hT'
    refine ⟨⟨t, hk, T, hT, hu₀.trans hu⟩, fun hks => ?_⟩
    -- a tag of the path that is still registered has kept a file
    have hfull := h.full hk' hT' ((hsel.mem_keys hs.toTyped hk).mp hks)
    obtain ⟨m, hm⟩ := (h.coherent.carries_iff h.tidy.toTyped).mpr ⟨t, T', hk', hT', hfull⟩
    exact ⟨m, (hcar m k).mp hm⟩
  · rintro ⟨⟨t, hk, T, hT, hu⟩, hkept⟩
    by_cases hks : k ∈ sel.keys
    · obtain ⟨m, hm⟩ := hkept hks
      have hm' : s'.Carries m k := (hcar m k).mpr hm
      obtain ⟨t', T', hk', hT', -⟩ := (h.coherent.carries_iff h.tidy.toTyped).mp ⟨m, hm'⟩
      exact ⟨t', hk', inUse_of_carries h.tidy h.coherent hk' hm'⟩
    · have hother (e) (he : e ∈ sel.entries) : e.2 ≠ t := fun het =>
        hks ((hsel.mem_keys hs.toTyped hk).mpr ⟨e, he, het⟩)
      exact ⟨t, h.name hk hother, T, by rw [h.object hother, hT], hu⟩

/-- `path_unlink` of registered tags. A file without a record has no tags. -/
theorem returns_pathUnlink_catalogue {path : Path} (h : s.Tidy) (hc : s.Coherent)
    (hsel : s.Registered path.selectedTags) :
    Returns (pathUnlink env s path) fun r => r.2.Tidy ∧ r.2.Coherent ∧ s.Fewer r.2 ∧
      (r.1 = -ENOENT ∧ (∀ k, ¬ s.Carries path.filename k) ∧ r.2.catalogue = s.catalogue ∨
        r.1 = 0 ∧ r.2.catalogue = s.catalogue.untag path.filename path.selectedTags.keys) := by
  cases hn : s.files.get? path.filename with
  | none =>
    simp only [pathUnlink, fileGet, hn]
    refine ⟨h, hc, ⟨id, fun hT => ⟨_, hT, rfl, rfl, id⟩⟩, .inl ⟨rfl, ?_, rfl⟩⟩
    rintro k ⟨f, hf, -⟩
    rw [hn] at hf
    cases hf
  | some f =>
    apply (sat_unlinked h hc hn hsel).mono
    rintro ⟨res, s'⟩ ⟨h0, hu⟩
    exact ⟨hu.tidy, hu.coherent, hu.fewer, .inr ⟨h0, hu.catalogue h hsel hn⟩⟩

theorem returns_pathDelete_two {p q : Path} (h : s.Tidy) (hc : s.Coherent)
    (hp : ∀ e ∈ p.held, s.Current e.2) (hq : ∀ e ∈ q.held, s.Current e.2) {res : ℤ} :
    Returns (do
      let s₁ ← pathDelete env s p
      let s₂ ← pathDelete env s₁ q
      .ok (res, s₂)) fun r => r.1 = res ∧ r.2.catalogue = s.catalogue := by
  apply (sat_deleted h hc hp).bind
  intro s₁ h₁
  apply (sat_deleted h₁.tidy h₁.coherent fun e he => (hq e he).mono h₁.fewer).bind
  intro s₂ h₂
  exact ⟨rfl, h₂.catalogue.trans h₁.catalogue⟩

end TagFilesystem.Fuse
