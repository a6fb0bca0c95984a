import TagFilesystem.FuseLowlevel.Refinement

namespace TagFilesystem.FuseLowlevel

variable {c : Prop} {env : Env} {s s₁ s' : Store} {k name : CStr} {t : TagId} {p : InodeId}
  {P : Inode} {sel : HashTable (Option TagId)} {ks : List CStr} {es tags : List (CStr × UInt64)}

theorem dirbuf_concat (ino : UInt64) :
    dirbufAdd env (dirbuf env es) name ino = dirbuf env (es ++ [(name, ino)]) := by
  rw [dirbuf, dirbuf, List.foldl_append]
  rfl

theorem returns_readdirListTagsMode1 (hs : s.links.Sound) (hsel : sel.keys = []) :
    Returns (readdirListTagsMode1 env s (dirbuf env es) sel) fun b => ∃ tags : List CStr,
      b = dirbuf env (es ++ tags.map (·, 2)) ∧ tags.Nodup ∧ ∀ k, k ∈ tags ↔ tagExist s k = true := by
  have hu : s.tags.Unique := hs.tags.unique
  have hlist : tagList s = s.tags.entries.reverse.map Prod.snd := by rw [List.map_reverse]; rfl
  rw [readdirListTagsMode1, hlist, forEach_map]
  refine (sat_forEach_visited (fun (l : List (CStr × TagId)) b =>
    b = dirbuf env (es ++ (l.map Prod.fst).map (·, 2))) ?_ (by simp)).mono ?_
  · rintro l₀ ⟨k, t⟩ l₁ b hl rfl
    have hmem : (k, t) ∈ s.tags.entries := List.mem_reverse.mp (by rw [← hl]; simp)
    obtain ⟨T, hT, hv⟩ := hs.tags.object (hu.get?_eq_some.mpr hmem)
    have hno : sel.contains T.value = false := by
      rw [Table.contains_eq_false, Table.get?_eq_none, hsel]
      exact List.not_mem_nil
    rw [sat_readTag hT]
    show (if sel.contains T.value = false then _ else _) = _
    rw [if_pos hno, dirbuf_concat, show T.value = k from hv]
    simp
  · rintro b rfl
    refine ⟨_, rfl, ?_, fun k => ?_⟩
    · rw [List.map_reverse, List.nodup_reverse]
      exact hu
    · rw [List.map_reverse, List.mem_reverse, tagExist, tagGet]
      exact Table.contains_iff.symm

theorem returns_readdirGetSelectedFiles_has (hs : s.links.Sound) (hsel : Selects s sel)
    (hne : sel.keys ≠ []) : Returns (readdirGetSelectedFiles s sel) fun r => ∀ n f,
      (n, f) ∈ r.entries ↔ s.files.get? n = some f ∧ s.catalogue.Has n sel.keys := by
  obtain ⟨r, hr, heq⟩ := readdirGetSelectedFiles_eq hs hsel
  rw [heq]
  split_ifs with hall
  · intro n f
    rw [hr]
    constructor
    · rintro ⟨e, he, t, ht, hl⟩
      have hf : s.files.get? n = some f := hs.member hl
      refine ⟨hf, fun k hk => ?_⟩
      obtain ⟨e', he', rfl⟩ := List.mem_map.mp hk
      exact (fileHas_iff hf).mp (hall (n, f) ((hr n f).mpr ⟨e, he, t, ht, hl⟩) e' he')
    · rintro ⟨hf, hhas⟩
      obtain ⟨k, hk⟩ := List.exists_mem_of_ne_nil _ hne
      obtain ⟨e, he, rfl⟩ := List.mem_map.mp hk
      obtain ⟨t, ht, hreg⟩ := hsel e he
      obtain ⟨f', hl⟩ := (hasTag_iff hs hreg).mp (hhas e.1 hk)
      have hf' : s.files.get? n = some f' := hs.member hl
      obtain rfl := Option.some.inj (hf.symm.trans hf')
      exact ⟨e, he, t, ht, hl⟩
  · trivial

/-- What `getattr_intra` says about an entry of the target directory. -/
theorem returns_getattrIntra_listed {d : Dirent} (hs : s.Sound) (hsel : Selects s sel)
    (hd : d.isDir = false) :
    Returns (getattrIntra env s sel (appendDir env.realdirpath d.name) d.name) fun r =>
      Updates False s r.2.2 ∧ r.2.2.catalogue = s.catalogue ∧
        listedIno env s.catalogue sel.keys d =
          if r.1 < 0 then none else some (UInt64.ofNat (r.2.1.getD statZero).stIno) := by
  unfold getattrIntra
  apply ((returns_fileGetOrCreate (c := False)).and returns_fileGetOrCreate_catalogue).bind
  rintro ⟨f, s₁⟩ ⟨⟨hu, hf⟩, hcat⟩
  dsimp only at hu hf hcat ⊢
  rw [← hcat]
  have hmem : sel.contains d.name = false ↔ d.name ∉ sel.keys := by
    rw [Table.contains_eq_false, Table.get?_eq_none]
  cases hreg : regular (env.stat (appendDir env.realdirpath d.name)) with
  | none =>
    dsimp only
    split_ifs with htag
    · have hunsel : Unselected s₁.catalogue sel.keys d.name := ⟨htag.1, hmem.mp htag.2⟩
      cases hroot : env.stat env.realdirpath with
      | none => exact ⟨hu, rfl, by simp [listedIno, hd, hreg, hroot]⟩
      | some st => exact ⟨hu, rfl, by simp [listedIno, hd, hreg, hroot, hunsel]⟩
    · have hno : ¬ Unselected s₁.catalogue sel.keys d.name := fun hl =>
        htag ⟨hl.1, hmem.mpr hl.2⟩
      refine ⟨hu, rfl, ?_⟩
      rw [if_pos (by decide : -ENOENT < 0)]
      simp only [listedIno, hd, hreg, if_neg hno, Bool.false_eq_true, if_false]
  | some st =>
    dsimp only
    split_ifs with hsize htag
    · apply (returns_fileMatchesTags_has (hu.sound hs.links) (hsel.updates hu) hf).bind
      intro b hb
      refine ⟨hu, rfl, ?_⟩
      cases b with
      | true => simp [listedIno, hd, hreg, hb.mp rfl]
      | false =>
        have hno : ¬ s₁.catalogue.Has d.name sel.keys := fun hhas => Bool.false_ne_true (hb.mpr hhas)
        simp [listedIno, hd, hreg, hno, ENOENT]
    all_goals
      have hnil : sel.keys = [] := by simpa [Table.size, Table.keys] using hsize
      have hhas : s₁.catalogue.Has d.name sel.keys := by simp [hnil, Catalogue.Has]
      exact ⟨hu, rfl, by simp [listedIno, hd, hreg, hhas]⟩

theorem returns_readdirListFiles_listed (hs : s.Sound) (hsel : Selects s sel) :
    Returns (readdirListFiles env s (dirbuf env es) sel) fun r => Updates False s r.2 ∧
      r.2.catalogue = s.catalogue ∧
        r.1 = dirbuf env (es ++ listedEntries env s.catalogue sel.keys) := by
  refine (sat_forEach_visited (fun l (r : Listing) => Updates False s r.2 ∧
    r.2.catalogue = s.catalogue ∧ r.1 = dirbuf env (es ++ l.filterMap fun d =>
      (listedIno env s.catalogue sel.keys d).map (d.name, ·))) ?_ ⟨.refl, rfl, by simp⟩)
  rintro l₀ d l₁ ⟨b, s₁⟩ - ⟨hu, hcat, hb⟩
  dsimp only at hu hcat hb ⊢
  subst hb
  rw [List.filterMap_append]
  split_ifs with hd
  · exact ⟨hu, hcat, by simp [listedIno, hd]⟩
  · apply (returns_getattrIntra_listed (hu.sound' hs) (hsel.updates hu) (by simpa using hd)).bind
    rintro ⟨res, st, s₂⟩ ⟨hu₂, hcat₂, hlisted⟩
    rw [hcat] at hcat₂ hlisted
    dsimp only at hu₂ hcat₂ hlisted ⊢
    split_ifs at hlisted ⊢ with hres
    · exact ⟨hu.trans hu₂, hcat₂, by simp [hlisted]⟩
    · refine ⟨hu.trans hu₂, hcat₂, ?_⟩
      rw [dirbuf_concat]
      simp [hlisted]

/-- Each shown tag has a directory inode that `s` did not have. -/
def ShowsNew (s : Store) (ks : List CStr) (tags : List (CStr × UInt64)) (s' : Store) : Prop :=
  ∀ e ∈ tags, ∃ i J, s'.inodeHeap.get? i = some J ∧ s.inodeHeap.next ≤ i ∧ J.number = e.2 ∧
    J.node = some (.directory (ks ++ [e.1]))

theorem ShowsNew.updates (h : ShowsNew s ks tags s₁) (hu : Updates c s₁ s') :
    ShowsNew s ks tags s' := by
  intro e he
  obtain ⟨i, J, hJ, hi, hnum, hx⟩ := h e he
  obtain ⟨st, m, hJ', -⟩ := hu.kept hJ
  exact ⟨i, _, hJ', hi, hnum, hx⟩

theorem ShowsNew.makes (h : ShowsNew s ks tags s') (hs : s.Sound) (hs' : s'.Sound)
    (hmax : s'.inodeHeap.next ≤ UInt32.size) {e : CStr × UInt64} (he : e ∈ tags) :
    s.view.Makes (ks ++ [e.1]) e.2 s'.view := by
  obtain ⟨i, J, hJ, hi, hnum, hx⟩ := h e he
  have hlt := (Heap.lt_next hJ).trans_le hmax
  refine ⟨?_, (node_eq_some hs'.indexed hmax).mpr ⟨i, J, hJ, hnum, hx⟩⟩
  show s.node e.2 = none
  cases hj : inodeGet s e.2 with
  | none => exact node_none hj
  | some j =>
    obtain ⟨I, hI, hn⟩ := hs.indexed.live hj
    rw [hs.indexed.number hI, ← hnum, hs'.indexed.number hJ] at hn
    have hjlt : j < s.inodeHeap.next := Heap.lt_next hI
    have hji : j < i := hjlt.trans_le hi
    exact absurd (numberAt_inj (hji.trans hlt) hlt hn) (Nat.ne_of_lt hji)

/-- What `readdir_fill_remaining_tags` has done when it has shown the tags in `rem`: those that are
not selected and have the property `shown`. -/
structure Filled (env : Env) (s : Store) (ks : List CStr) (es : List (CStr × UInt64))
    (sel : HashTable (Option TagId)) (shown : CStr → Prop) (r : HashTable TagId × Listing) :
    Prop where
  updates : Updates False s r.2.2
  links : r.2.2.links = s.links
  nodup : r.1.keys.Nodup
  mem : ∀ k, k ∈ r.1.keys ↔ k ∉ sel.keys ∧ shown k
  listed : ∃ tags, r.2.1 = dirbuf env (es ++ tags) ∧ tags.map Prod.fst = r.1.keys ∧
    ShowsNew s ks tags r.2.2

theorem Filled.congr {shown shown' : CStr → Prop} {r : HashTable TagId × Listing}
    (h : Filled env s ks es sel shown r) (hs : ∀ k, shown k ↔ shown' k) :
    Filled env s ks es sel shown' r :=
  ⟨h.updates, h.links, h.nodup, fun k => (h.mem k).trans (and_congr_right fun _ => hs k), h.listed⟩

theorem returns_filled {shown : CStr → Prop} {r : HashTable TagId × Listing} {held : List Lock}
    (hs : s.links.Sound) (hP : s.inodeHeap.get? p = some P) (hks : P.tag.take P.ntag = ks)
    (h : Filled env s ks es sel shown r) (hk : s.tags.get? k = some t) :
    Returns (do
      let T ← r.2.2.readTag (some t)
      if sel.contains T.value = false ∧ r.1.contains T.value = false then
        let (ino, s) ← createDirectoryInode held r.2.2 (some p) T.value
        let I ← s.readInode (some ino)
        let _ ← writeLock held .remainingTags
        .ok (r.1.addNew T.value t, dirbufAdd env r.2.1 T.value I.number, s)
      else .ok r) (Filled env s ks es sel fun k' => shown k' ∨ k' = k) := by
  obtain ⟨rem, b, s₁⟩ := r
  obtain ⟨hu, hlinks, hnodup, hmem, tags, hb, htags, hnew⟩ := h
  dsimp only at hu hlinks hnodup hmem hb htags hnew ⊢
  have hk₁ : s₁.tags.get? k = some t := by
    rw [show s₁.tags = s.tags from congrArg Links.tags hlinks]
    exact hk
  obtain ⟨T, hT, hv⟩ := (hlinks ▸ hs : s₁.links.Sound).tags.object hk₁
  obtain rfl : T.value = k := hv
  rw [sat_readTag hT]
  show Returns (if _ then _ else _) _
  have hcontains {α : Type} (tb : HashTable α) : tb.contains T.value = false ↔ T.value ∉ tb.keys := by
    rw [Table.contains_eq_false, Table.get?_eq_none]
  simp only [hcontains]
  split_ifs with hshow
  · obtain ⟨st, m, hP', -⟩ := hu.kept hP
    have hreg : (tagGet s₁ T.value).isSome = true := congrArg Option.isSome hk₁
    apply (returns_createDirectoryInode (c := False) hP' hreg).bind
    rintro ⟨i, s₂⟩ ⟨hu₂, hlinks₂, hi, hI⟩
    dsimp only at hu₂ hlinks₂ hi hI ⊢
    rw [sat_readInode hI, ok_bind]
    refine (returns_true _).bind fun _ _ => ?_
    have hadd : rem.addNew T.value t = rem.add T.value t := if_neg (by simp [hcontains, hshow.2])
    have hkeys : (rem.add T.value t).keys = rem.keys ++ [T.value] := by
      rw [Table.keys, Table.entries_add, List.map_append]
      rfl
    refine ⟨hu.trans hu₂, hlinks₂.trans hlinks, ?_, fun k' => ?_, ?_⟩
    · show (rem.addNew T.value t).keys.Nodup
      rw [hadd, hkeys]
      exact hnodup.append (List.nodup_singleton _) (List.disjoint_singleton.mpr hshow.2)
    · show k' ∈ (rem.addNew T.value t).keys ↔ _
      rw [hadd, hkeys, List.mem_append, List.mem_singleton, hmem, and_or_left]
      refine or_congr_right ⟨?_, And.right⟩
      rintro rfl
      exact ⟨hshow.1, rfl⟩
    · refine ⟨tags ++ [(T.value,
        (directoryInode s₁ { P with st := st, nlookup := m } T.value).number)], ?_, ?_, ?_⟩
      · rw [hb, dirbuf_concat, List.append_assoc]
      · show _ = (rem.addNew T.value t).keys
        rw [hadd, hkeys, List.map_append, htags]
        rfl
      · intro e he
        rcases List.mem_append.mp he with he | he
        · exact hnew.updates hu₂ e he
        · obtain rfl := List.mem_singleton.mp he
          refine ⟨i, _, hI, ?_, rfl, ?_⟩
          · rw [hi]
            exact hu.next_le
          · rw [← hks]
            rfl
  · refine ⟨hu, hlinks, hnodup, fun k' => (hmem k').trans ?_, tags, hb, htags, hnew⟩
    -- a tag that is not shown now is selected or has been shown
    refine and_congr_right fun hno => ⟨.inl, fun hor => hor.elim id ?_⟩
    rintro rfl
    by_contra hshown
    exact hshow ⟨hno, fun hrem => hshown ((hmem _).mp hrem).2⟩

theorem returns_readdirFillRemainingTags_filled (hs : s.links.Sound)
    (hP : s.inodeHeap.get? p = some P) (hks : P.tag.take P.ntag = ks) {files : HashTable FileId}
    (hfiles : ∀ e ∈ files.entries, s.files.get? e.1 = some e.2) :
    Returns (readdirFillRemainingTags env s p sel files (dirbuf env es)) fun r => ∃ rem,
      Filled env s ks es sel (fun k => ∃ e ∈ files.entries, HasTag s e.1 k) (rem, r) := by
  refine Sat.bind (sat_forEach_visited (fun l r =>
    Filled env s ks es sel (fun k => ∃ e ∈ l, HasTag s e.1 k) r) ?_ ?_) fun r hr => ⟨r.1, hr⟩
  · rintro l₀ ⟨n, f⟩ l₁ r hl hr
    have hf : s.files.get? n = some f := hfiles (n, f) (by rw [← hl]; simp)
    obtain ⟨F, hF, -⟩ := hs.files.object hf
    have hF' : r.2.2.fileHeap.get? f = some F := by
      rw [show r.2.2.fileHeap = s.fileHeap from congrArg Links.fileHeap hr.links]
      exact hF
    rw [sat_readFile hF']
    refine (sat_forEach_visited (fun (l : List (CStr × TagId)) r => Filled env s ks es sel
      (fun k => (∃ e ∈ l₀, HasTag s e.1 k) ∨ k ∈ l.map Prod.fst) r) ?_ ?_).mono ?_
    · rintro l₂ ⟨k, t⟩ l₃ r hl hr
      have hk : s.tags.get? k = some t := hs.registered hf (linked_iff hF |>.mpr
        ((hs.fileTags hF).get?_eq_some.mpr (by rw [← hl]; simp)))
      refine (returns_filled hs hP hks hr hk).mono fun r' hr' => hr'.congr fun k' => ?_
      rw [List.map_append, List.mem_append, or_assoc]
      simp
    · exact hr.congr fun k => by simp
    · refine fun r' hr' => hr'.congr fun k => ?_
      have hhas : HasTag s n k ↔ k ∈ F.tags.entries.map Prod.fst := by
        rw [hasTag_iff_record hf hF]
        exact Table.contains_iff
      simp only [List.mem_append, List.mem_singleton, or_and_right, exists_or, exists_eq_left, hhas]
  · exact ⟨.refl, rfl, List.nodup_nil, by simp, [], by simp, rfl, fun e he => by cases he⟩

/-- What can be said of the tags that a directory shows, when the request is over. -/
structure Offers (s : Store) (ks : List CStr) (tags : List (CStr × UInt64)) (s' : Store) : Prop where
  nodup : (tags.map Prod.fst).Nodup
  shows_iff : ∀ k, k ∈ tags.map Prod.fst ↔ s.catalogue.Shows ks k
  numbers : ∀ e ∈ tags, if ks = [] then e.2 = 2 else s.view.Makes (ks ++ [e.1]) e.2 s'.view

theorem returns_listTags_offers (h : s.Orderly) (hmax : s.inodeHeap.next ≤ UInt32.size)
    (hP : s.inodeHeap.get? p = some P) (hsel : P.selectedTags = some sel)
    (es : List (CStr × UInt64)) :
    Returns (if P.number ≠ 1 then readdirListTagsMode2 env s p (dirbuf env es) sel
        else do
          let b ← readdirListTagsMode1 env s (dirbuf env es) sel
          .ok (b, s))
      fun r => Updates False s r.2 ∧ r.2.catalogue = s.catalogue ∧ ∃ tags,
        r.1 = dirbuf env (es ++ tags) ∧ ∀ s', Updates False r.2 s' →
          s'.inodeHeap.next ≤ UInt32.size → Offers s P.tag tags s' := by
  obtain ⟨hdir, hlive, hkeys⟩ := h.selects hP hsel
  have hnil := h.tag_eq_nil hmax hP hdir
  split_ifs with hroot
  · have hne : P.tag ≠ [] := fun htag => hroot (hnil.mp htag)
    have htake : P.tag.take P.ntag = P.tag := by
      rw [(h.paths.directory hP hdir).1.ntag, List.take_length]
    apply (returns_readdirGetSelectedFiles_has h.sound.links hlive (hkeys ▸ hne)).bind
    intro files hfiles
    apply (returns_readdirFillRemainingTags_filled h.sound.links hP htake
      fun e he => ((hfiles e.1 e.2).mp he).1).mono
    rintro ⟨b, s₁⟩ ⟨rem, hu, hlinks, hnodup, hmem, tags, hb, htags, hnew⟩
    refine ⟨hu, catalogue_of_links hlinks, tags, hb, fun s' hu' hmax' =>
      ⟨htags ▸ hnodup, fun k => ?_, fun e he => ?_⟩⟩
    · rw [htags, hmem, hkeys, Catalogue.Shows, if_neg hne]
      refine and_congr_right fun _ => ⟨?_, ?_⟩
      · rintro ⟨⟨n, f⟩, he, hhas⟩
        exact ⟨n, hkeys ▸ ((hfiles n f).mp he).2, hhas⟩
      · rintro ⟨n, hhas, hk⟩
        obtain ⟨f, t, hf, -⟩ := id hk
        exact ⟨(n, f), (hfiles n f).mpr ⟨hf, hkeys ▸ hhas⟩, hk⟩
    · rw [if_neg hne]
      exact (hnew.updates hu').makes h.sound (Updates.sound' (hu.trans hu') h.sound) hmax' he
  · have htag : P.tag = [] := hnil.mpr (not_not.mp hroot)
    refine (returns_readdirListTagsMode1 h.sound.links (hkeys.trans htag)).bind fun b hb => ?_
    obtain ⟨names, rfl, hnodup, hmem⟩ := hb
    have hfst : (names.map (·, (2 : UInt64))).map Prod.fst = names := by
      rw [List.map_map]
      exact List.map_id _
    refine ⟨.refl, rfl, _, rfl, fun s' _ _ => ⟨hfst.symm ▸ hnodup, fun k => ?_, fun e he => ?_⟩⟩
    · rw [hfst, hmem, Catalogue.Shows, if_pos htag]
      rfl
    · obtain ⟨k, -, rfl⟩ := List.mem_map.mp he
      rw [if_pos htag]

theorem follows_readdir (h : s.Orderly) (number : UInt64) (size : ℕ) (off : ℤ) :
    Returns (tagReaddir env s number size off (inodeGet s number))
      (Follows s ⟨env, .readdir number size off (inodeGet s number)⟩) := by
  by_cases hmax₀ : s.inodeHeap.next ≤ UInt32.size
  swap
  · exact (returns_tagReaddir h.sound number size off (inodeGet s number)).mono fun r hr hmax =>
      absurd ((Updates.next_le hr.1).trans hmax) hmax₀
  generalize hfh : inodeGet s number = fh
  unfold tagReaddir
  split
  · exact fun _ => .readdirUnknown (node_none hfh)
  · next p =>
    refine returns_readInode_some.bind fun P hP => ?_
    have hnode : s.node number = P.node := node_of_inodeGet hfh hP
    obtain ⟨rfl, -⟩ := h.node_isSome hfh hP
    split
    · next hdir =>
      obtain ⟨name, realpath, hx, -⟩ := h.formed.fileNode hP hdir
      exact fun _ => .readdirFile (hnode.trans hx)
    · next hdir =>
      refine returns_deref.bind fun sel hsel => ?_
      obtain ⟨hdir', hlive, hkeys⟩ := h.selects hP hsel
      apply (returns_listTags_offers h hmax₀ hP hsel [(dot, P.number), (dotdot, 1)]).bind
      rintro ⟨b, s₁⟩ ⟨hu, hcat, tags, hb, hoffers⟩
      dsimp only at hu hcat hb hoffers ⊢
      subst hb
      apply (returns_readdirListFiles_listed (hu.sound' h.sound) (hlive.updates hu)).bind
      rintro ⟨b, s₂⟩ ⟨hu₂, hcat₂, hb⟩ hmax
      dsimp only at hu₂ hcat₂ hb hmax ⊢
      subst hb
      have hgrows : s.view.Grows s.view.catalogue s₂.view :=
        Updates.grows (hu.trans hu₂) h.sound hmax (hcat₂.trans hcat)
      have ho := hoffers s₂ hu₂ hmax
      rw [hcat, hkeys]
      exact .readdir (hnode.trans (P.node_directory hdir')) hgrows ho.nodup ho.shows_iff ho.numbers

end TagFilesystem.FuseLowlevel
