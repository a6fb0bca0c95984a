import TagFilesystem.FuseSqlite3.Numbered

namespace TagFilesystem.FuseSqlite3

variable {env : Env} {s s' s₁ : Store} {F : File} {T : Tag} {t : TagId} {n k v : CStr} {fid : ℤ}
  {rows : List (ℤ × ℤ)} {ids : List ℤ} {ks : List CStr} {p : Path} {q : PathQuery} {sel : HashTable (Option TagId)}

/-- What the table holds is registered still; a name may have been unknown when it was made. -/
def Store.Stands (s : Store) (sel : HashTable (Option TagId)) : Prop :=
  ∀ k t, (k, some t) ∈ sel.entries → s.tags.get? k = some t

/-- The path asks for `q`. -/
structure Path.StandsFor (s : Store) (p : Path) (q : PathQuery) : Prop where
  virtpath : p.virtpath = q.virtpath
  realpath : p.realpath = q.realpath
  filename : p.filename = q.filename
  keys : p.selectedTags.keys = q.tags
  stands : s.Stands p.selectedTags

theorem Keeps.stands (h : Keeps s s') (hsel : s.Stands sel) : s'.Stands sel := by
  intro k t hk
  rw [h.tags]
  exact hsel k t hk

theorem Keeps.standsFor (h : Keeps s s') (hp : p.StandsFor s q) : p.StandsFor s' q :=
  ⟨hp.virtpath, hp.realpath, hp.filename, hp.keys, h.stands hp.stands⟩

theorem stands_computeSelectedTags (s : Store) (dirpath : CStr) :
    s.Stands (computeSelectedTags s dirpath) := by
  intro k t hk
  rw [entries_computeSelectedTags] at hk
  obtain ⟨k', -, he⟩ := List.mem_map.mp hk
  obtain ⟨rfl, ht⟩ := Prod.mk.inj he
  exact ht

theorem keys_computeSelectedTags (s : Store) (dirpath : CStr) :
    (computeSelectedTags s dirpath).keys = components dirpath := by
  rw [Table.keys, entries_computeSelectedTags, List.map_map]
  exact List.map_id _

theorem pathCreate_standsFor (env : Env) (s : Store) (userPath : CStr) (isTag : Bool) :
    (pathCreate env s userPath isTag).StandsFor s (.of env userPath isTag) where
  virtpath := rfl
  realpath := rfl
  filename := rfl
  keys := keys_computeSelectedTags s _
  stands := stands_computeSelectedTags s _

theorem count_eq_length_iff_nodup (hrows : rows.Nodup) :
    (rows.filter fun r => r.2 = fid ∧ r.1 ∈ ids).length = ids.length ↔
      ids.Nodup ∧ ∀ i ∈ ids, (i, fid) ∈ rows := by
  constructor
  · intro hlen
    have hids : ids.Nodup := by
      -- the pairs counted differ in the tag, and are as many as the identifiers
      have hnodup : ((rows.filter fun r => r.2 = fid ∧ r.1 ∈ ids).map Prod.fst).Nodup := by
        refine (hrows.filter _).map_on ?_
        rintro ⟨i, j⟩ hr ⟨i', j'⟩ hr' rfl
        simp only [List.mem_filter, decide_eq_true_eq] at hr hr'
        rw [hr.2.1, hr'.2.1]
      have hsub : ((rows.filter fun r => r.2 = fid ∧ r.1 ∈ ids).map Prod.fst) ⊆ ids := by
        intro i hi
        obtain ⟨r, hr, rfl⟩ := List.mem_map.mp hi
        simp only [List.mem_filter, decide_eq_true_eq] at hr
        exact hr.2.2
      have hperm := (hnodup.subperm hsub).perm_of_length_le (by rw [List.length_map]; exact hlen.ge)
      exact hperm.nodup hnodup
    exact ⟨hids, (count_eq_length_iff hrows hids).mp hlen⟩
  · rintro ⟨hids, hall⟩
    exact (count_eq_length_iff hrows hids).mpr hall

/-- The number of a tag, as far as it is registered. -/
def Store.number (s : Store) (k : CStr) : ℤ := (s.idOf k).getD 0

namespace Store.Numbered

variable (h : s.Numbered)
include h

theorem pair_number (hk : tagExist s k = true) : s.idOf k = some (s.number k) ∧ s.Pair k (s.number k) := by
  obtain ⟨i, hp⟩ := h.sound.tagExist_iff.mp hk
  obtain ⟨t, T, ht, hT, rfl⟩ := h.sound.pair_iff.mp hp
  have hget : tagGet s k = some t := ht
  have hid : s.idOf k = some T.id := by simp [Store.idOf, hget, hT]
  have hnumber : s.number k = T.id := by rw [Store.number, hid, Option.getD_some]
  rw [hnumber]
  exact ⟨hid, hp⟩

theorem idsOf_eq (hks : ∀ k ∈ ks, tagExist s k = true) : s.idsOf ks = ks.map s.number :=
  List.filterMap_eq_map_iff_forall_eq_some.mpr fun k hk => (h.pair_number (hks k hk)).1

theorem nodup_number (hks : ∀ k ∈ ks, tagExist s k = true) : (ks.map s.number).Nodup ↔ ks.Nodup := by
  constructor
  · exact List.Nodup.of_map _
  · intro hnodup
    refine hnodup.map_on fun k hk k' hk' heq => ?_
    exact (h.pair_inj (h.pair_number (hks k hk)).2 (h.pair_number (hks k' hk')).2).mpr heq

theorem number_mem_iff (hF : s.files.get? n = some F) (hk : tagExist s k = true) :
    (s.number k, F.id) ∈ s.db.tagFile ↔ s.Carries n k := by
  have hp := (h.pair_number hk).2
  constructor
  · intro hr
    exact ⟨F, _, hF, hp, hr⟩
  · rintro ⟨F', i, hF', hp', hr⟩
    cases hF.symm.trans hF'
    rwa [(h.pair_inj hp hp').mp rfl]

theorem returns_fileMatchesTags (hF : s.files.get? n = some F) (hsel : s.Stands sel) :
    Returns (fileMatchesTags s F sel) fun b =>
      b = true ↔ sel.keys.Nodup ∧ ∀ k ∈ sel.keys, s.Carries n k := by
  by_cases hbad : ∃ e ∈ sel.entries, e.2 = none
  · exact ((tagIdList_unknown hbad).bind fun _ hno => hno.elim)
  -- the table is that of a path made now
  have hentry : ∀ e ∈ sel.entries, e.2 = tagGet s e.1 ∧ tagExist s e.1 = true := by
    rintro ⟨k, t⟩ he
    cases t with
    | none => exact absurd ⟨_, he, rfl⟩ hbad
    | some t =>
      have ht : tagGet s k = some t := hsel k t he
      exact ⟨ht.symm, by rw [tagExist, ht]; rfl⟩
  have hentries : sel.entries = sel.keys.map fun k => (k, tagGet s k) := by
    rw [Table.keys, List.map_map]
    symm
    have hmap (e) (he : e ∈ sel.entries) : ((fun k => (k, tagGet s k)) ∘ Prod.fst) e = id e :=
      Prod.ext rfl (hentry e he).1.symm
    exact (List.map_congr_left hmap).trans (List.map_id _)
  have hknown : ∀ k ∈ sel.keys, tagExist s k = true := by
    intro k hk
    obtain ⟨e, he, rfl⟩ := List.mem_map.mp hk
    exact (hentry e he).2
  have hsize : sel.size = (sel.keys.map s.number).length := by
    rw [List.length_map, Table.keys, List.length_map]
    rfl
  have hcarries : (∀ i ∈ sel.keys.map s.number, (i, F.id) ∈ s.db.tagFile) ↔
      ∀ k ∈ sel.keys, s.Carries n k := by
    rw [List.forall_mem_map]
    exact forall₂_congr fun k hk => h.number_mem_iff hF (hknown k hk)
  rw [fileMatchesTags, dbFileMatchTags, tagIdList_known h.sound hentries hknown, ok_bind, h.idsOf_eq hknown,
    hsize, ← h.nodup_number hknown, ← hcarries, ← count_eq_length_iff_nodup h.rows]
  show (if _ then true else false) = true ↔ _
  split_ifs with hcount
  · exact iff_of_true rfl hcount
  · exact iff_of_false (by decide) hcount

end Store.Numbered

/-- The store of a callback that has only looked: a file may have got a record. -/
structure Looked (s s' : Store) : Prop where
  numbered : s'.Numbered
  keeps : Keeps s s'
  catalogue : s'.catalogue = s.catalogue

namespace Looked

theorem refl (h : s.Numbered) : Looked s s := ⟨h, .refl s, rfl⟩

theorem trans (h : Looked s s') (h' : Looked s' s₁) : Looked s s₁ :=
  ⟨h'.numbered, h.keeps.trans h'.keeps, h'.catalogue.trans h.catalogue⟩

end Looked

theorem looked_fileGetOrCreate (h : s.Numbered) (n : CStr) : Looked s (fileGetOrCreate s n).2 :=
  ⟨(h.fileGetOrCreate n).1, keeps_fileGetOrCreate s n, (h.fileGetOrCreate n).2.1⟩

theorem gives_getattrDir (hp : p.StandsFor s q) (hdir : (env.stat q.realpath).all Stat.isDir = true) :
    q.Gives env s.catalogue (getattrDir env s p (env.stat q.realpath)).1
      (getattrDir env s p (env.stat q.realpath)).2 := by
  have htest : (p.virtpath = [slash] ∨
      tagExist s p.filename = true ∧ p.selectedTags.contains p.filename = false) ↔
        q.Directory s.catalogue := by
    rw [Table.contains_eq_false, Table.get?_eq_none, hp.keys, hp.virtpath, hp.filename]
    rfl
  unfold getattrDir
  split_ifs with htag
  · exact .directory hdir (htest.mp htag)
  · exact .nothing hdir (mt htest.mpr htag)

theorem returns_getattrIntra_gives (h : s.Numbered) (hp : p.StandsFor s q) :
    Returns (getattrIntra env s p) fun r =>
      Looked s r.2.2 ∧ q.Gives env s.catalogue r.1 r.2.1 := by
  unfold getattrIntra
  rw [hp.realpath]
  have hdir (hall : (env.stat q.realpath).all Stat.isDir = true) := gives_getattrDir hp hall
  cases hst : env.stat q.realpath with
  | none =>
    rw [hst] at hdir
    exact ⟨.refl h, hdir rfl⟩
  | some st =>
    rw [hst] at hdir
    dsimp only
    by_cases hisDir : st.isDir = true
    · rw [if_pos hisDir]
      exact ⟨.refl h, hdir (by rwa [Option.all_some])⟩
    · rw [if_neg hisDir]
      have hd : st.isDir = false := by simpa using hisDir
      have hlooked := looked_fileGetOrCreate h p.filename
      have hF := (h.fileGetOrCreate p.filename).2.2
      have hsize : p.selectedTags.size = q.tags.length := by
        rw [← hp.keys, Table.keys, List.length_map]
        rfl
      split_ifs with hpos htag
      · have hne : q.tags ≠ [] := by
          apply List.ne_nil_of_length_pos
          omega
        apply (hlooked.numbered.returns_fileMatchesTags hF (hlooked.keeps.stands hp.stands)).bind
        intro b hb
        have hmatch : b = true ↔ q.Matches s.catalogue := by
          rw [hb, hp.keys]
          refine and_congr_right fun _ => forall₂_congr fun k _ => ?_
          rw [← hp.filename]
          exact (Catalogue.ext_iff_forall.mp hlooked.catalogue).1 p.filename k
        refine ⟨hlooked, ?_⟩
        dsimp only
        split_ifs with hmatches
        · have hfound := PathQuery.Gives.found (C := s.catalogue) hst hd (hmatch.mp hmatches)
          rw [PathQuery.fileStat, if_neg fun hnil => hne hnil.1] at hfound
          exact hfound
        · exact .missing hst hd (mt hmatch.mpr hmatches)
      all_goals
        have hnil : q.tags = [] := List.eq_nil_of_length_eq_zero (by omega)
        have hmatches : q.Matches s.catalogue := by
          rw [PathQuery.Matches, hnil]
          exact ⟨List.nodup_nil, by simp [Catalogue.Has]⟩
        have hfound := PathQuery.Gives.found (C := s.catalogue) hst hd hmatches
        rw [hp.filename] at htag
        rw [PathQuery.fileStat] at hfound
        simp only [hnil, htag, and_self, if_true, true_and, if_false] at hfound
        exact ⟨hlooked, hfound⟩

section Loops

variable (h : s.Numbered) (hF : s.files.get? n = some F) (hsel : s.Stands sel)
include h hF hsel

omit h hF in
theorem exists_tag (hs : Keeps s s') (hs' : s'.Numbered) (he : (k, some t) ∈ sel.entries) :
    ∃ T, s'.tags.get? k = some t ∧ s'.tagHeap.get? t = some T := by
  have hk : s'.tags.get? k = some t := hs.stands hsel k t he
  obtain ⟨T, hT, -⟩ := hs'.sound.tagEntry hk
  exact ⟨T, hk, hT⟩

theorem returns_tagRows : Returns (forEach sel.entries (fun s e => tagFile s e.2 F) s) fun s' =>
    s'.Numbered ∧ Keeps s s' ∧ s'.catalogue = s.catalogue.tag n sel.keys := by
  refine (sat_forEach_visited (fun l₀ s' => s'.Numbered ∧ Keeps s s' ∧ s'.files = s.files ∧
    s'.catalogue = s.catalogue.tag n (l₀.map Prod.fst)) ?_ ⟨h, .refl s, rfl, by simp⟩).mono ?_
  · rintro l₀ ⟨k, t⟩ l₁ s₁ hl ⟨hs₁, hkeep, hfiles, hcat⟩
    cases t with
    | none => trivial
    | some t =>
      obtain ⟨T, hk, hT⟩ := exists_tag hsel hkeep hs₁ (hl ▸ List.mem_append_right _ List.mem_cons_self)
      have hF₁ : s₁.files.get? n = some F := hfiles ▸ hF
      obtain ⟨hnum, htag⟩ := hs₁.dbTagFile hk hT hF₁
      have hrow : Keeps s₁ (s₁.withRows (dbTagFile s₁.db T.id F.id).2.tagFile) := by
        refine ⟨rfl, rfl, rfl, rfl, fun r hr => (mem_dbTagFile.mp hr).imp id fun hr => ?_⟩
        exact ⟨k, hs₁.sound.pair_iff.mpr ⟨t, T, hk, hT, by rw [hr]⟩⟩
      rw [tagFile_withRows hT, sat_ok, htag, hcat, Catalogue.tag_tag, List.map_append]
      exact ⟨hnum, hkeep.trans hrow, hfiles, rfl⟩
  · rintro s' ⟨hs', hkeep, -, hcat⟩
    exact ⟨hs', hkeep, hcat⟩

theorem returns_untagRows : Returns (forEach sel.entries (fun s e => untagFile s e.2 F) s) fun s' =>
    s'.Numbered ∧ Keeps s s' ∧ s'.catalogue = s.catalogue.strip n sel.keys := by
  refine (sat_forEach_visited (fun l₀ s' => s'.Numbered ∧ Keeps s s' ∧ s'.files = s.files ∧
    s'.catalogue = s.catalogue.strip n (l₀.map Prod.fst)) ?_ ⟨h, .refl s, rfl, by simp⟩).mono ?_
  · rintro l₀ ⟨k, t⟩ l₁ s₁ hl ⟨hs₁, hkeep, hfiles, hcat⟩
    cases t with
    | none => trivial
    | some t =>
      obtain ⟨T, hk, hT⟩ := exists_tag hsel hkeep hs₁ (hl ▸ List.mem_append_right _ List.mem_cons_self)
      have hF₁ : s₁.files.get? n = some F := hfiles ▸ hF
      obtain ⟨hnum, hstrip⟩ := hs₁.dbUntagFile hk hT hF₁
      have hrow : Keeps s₁ (s₁.withRows (dbUntagFile s₁.db T.id F.id).2.tagFile) :=
        ⟨rfl, rfl, rfl, rfl, fun r hr => .inl ((mem_dbUntagFile s₁.db).mp hr).1⟩
      rw [untagFile_withRows hT, sat_ok, hstrip, hcat, Catalogue.strip_strip, List.map_append]
      exact ⟨hnum, hkeep.trans hrow, hfiles, rfl⟩
  · rintro s' ⟨hs', hkeep, -, hcat⟩
    exact ⟨hs', hkeep, hcat⟩

end Loops

theorem returns_pathUnlink_catalogue (h : s.Numbered) (hp : p.StandsFor s q) :
    Returns (pathUnlink s p) fun r => r.2.Numbered ∧ Keeps s r.2 ∧
      r.2.catalogue = s.catalogue.strip q.filename q.tags ∧
      (r.1 = 0 ∨ r.1 = -ENOENT ∧ ∀ k, ¬ s.Carries q.filename k) := by
  unfold pathUnlink fileGet
  rw [hp.filename]
  cases hF : s.files.get? q.filename with
  | none =>
    have hnone (k : CStr) : ¬ s.Carries q.filename k := by
      rintro ⟨F, -, hF', -⟩
      rw [hF] at hF'
      cases hF'
    exact ⟨h, .refl s, (Catalogue.strip_of_none hnone).symm, .inr ⟨rfl, hnone⟩⟩
  | some F =>
    apply (returns_untagRows h hF hp.stands).bind
    rintro s' ⟨hs', hkeep, hcat⟩
    rw [hp.keys] at hcat
    exact ⟨hs', hkeep, hcat, .inl rfl⟩

theorem returns_pathLink_catalogue {fto : Path} (h : s.Numbered) (hp : p.StandsFor s q)
    (hto : s.Stands fto.selectedTags) : Returns (pathLink env s p fto) fun r =>
      r.2.Numbered ∧ Keeps s r.2 ∧ ∃ st, q.Gives env s.catalogue r.1 st ∧
        (0 ≤ r.1 ∧ r.2.catalogue = s.catalogue.tag q.filename fto.selectedTags.keys ∨
          r.1 < 0 ∧ r.2.catalogue = s.catalogue) := by
  apply (returns_getattrIntra_gives h hp).bind
  rintro ⟨res, st, s₁⟩ ⟨hlook, hgives⟩
  dsimp only at hlook hgives ⊢
  split_ifs with hneg
  · exact ⟨hlook.numbered, hlook.keeps, st, hgives, .inr ⟨hneg, hlook.catalogue⟩⟩
  · rw [hp.filename]
    have hlook' := hlook.trans (looked_fileGetOrCreate hlook.numbered q.filename)
    have hF := (hlook.numbered.fileGetOrCreate q.filename).2.2
    apply (returns_tagRows hlook'.numbered hF (hlook'.keeps.stands hto)).bind
    rintro s' ⟨hs', hkeep, hcat⟩
    rw [hlook'.catalogue] at hcat
    exact ⟨hs', hlook'.keeps.trans hkeep, st, hgives, .inl ⟨by omega, hcat⟩⟩

theorem standsFor_pathSet (env : Env) (hp : p.StandsFor s q) (n : CStr) :
    (pathSet env p.virtpath n p.selectedTags).StandsFor s (q.entry env n) :=
  ⟨congrArg (appendDir · n) hp.virtpath, rfl, rfl, hp.keys, hp.stands⟩

theorem returns_readdirListFiles_lists {dirents : List Dirent} {shown : Dirent → Bool} (h : s.Numbered)
    (hp : p.StandsFor s q) (hshown : ∀ d, shown d = true ↔ q.Lists env s.catalogue d) :
    Returns (readdirListFiles env dirents s p) fun r =>
      r.1 = (dirents.filter shown).map Dirent.name ∧ Looked s r.2 := by
  refine sat_forEach_visited (fun l₀ (r : List CStr × Store) =>
    r.1 = (l₀.filter shown).map Dirent.name ∧ Looked s r.2) ?_ ⟨rfl, .refl h⟩
  rintro l₀ d l₁ ⟨out, s₁⟩ - ⟨rfl, hlook⟩
  dsimp only at hlook ⊢
  rw [List.filter_append, List.map_append]
  split_ifs with hdir
  · have hno : shown d = false := by
      rw [← Bool.not_eq_true, hshown]
      rintro ⟨hfile, -⟩
      rw [hdir] at hfile
      cases hfile
    rw [sat_ok, List.filter_singleton, hno]
    exact ⟨by simp, hlook⟩
  · have hentry := hlook.keeps.standsFor (standsFor_pathSet env hp d.name)
    apply (returns_getattrIntra_gives hlook.numbered hentry).bind
    rintro ⟨res, st, s₂⟩ ⟨hlook₂, hgives⟩
    rw [hlook.catalogue] at hgives
    refine ⟨?_, hlook.trans hlook₂⟩
    dsimp only at hgives ⊢
    have hiff : shown d = true ↔ 0 ≤ res := by
      rw [hshown]
      constructor
      · rintro ⟨-, res', st', hpos, hgives'⟩
        rwa [hgives.unique hgives']
      · intro hpos
        exact ⟨by simpa using hdir, res, st, hpos, hgives⟩
    split_ifs with hneg
    · have hno : shown d = false := by
        rw [← Bool.not_eq_true, hiff]
        omega
      simp [hno]
    · have hyes : shown d = true := hiff.mpr (by omega)
      simp [hyes]

theorem nodup_dbListRemainingTags [Sqlite] {db : Database} (h : (db.tag.map Prod.snd).Nodup)
    (hne : sel.keys ≠ []) (hquote : ∀ k ∈ sel.keys, singleQuote ∉ k) :
    (dbListRemainingTags db sel).2.Nodup := by
  obtain ⟨n, ns, hsel⟩ := List.exists_cons_of_ne_nil hne
  rw [hsel, List.forall_mem_cons] at hquote
  have hq := prepare_remaining hquote.1 hquote.2 hsel
  -- the tests leave out rows of the table of all tags
  have hsub : (rowValues ((remainingTagsQuery (n :: ns)).eval db.rows)).Sublist
      (rowValues ((Query.select false (sql "t_name") (.table (sql "tag"))).eval db.rows)) :=
    Query.rowValues_select_where_sublist.trans Query.rowValues_where_sublist
  have hall := congrArg Prod.snd (dbListAllTags_eq db)
  have hprep : prepare (sql "SELECT t_name FROM tag") =
      some (.select false (sql "t_name") (.table (sql "tag"))) := rfl
  unfold dbListAllTags dbList at hall
  rw [hprep] at hall
  rw [dbListRemainingTags, dbList, hq]
  refine List.Nodup.sublist (hsub.filterMap Value.text?) ?_
  rw [show List.filterMap _ _ = db.tag.map Prod.snd from hall]
  exact h

theorem returns_tagReaddir_lists [Sqlite] {dirents : List Dirent} {shown : Dirent → Bool} (h : s.Numbered)
    (hp : p.StandsFor s q) (hdepth : p.depth = p.selectedTags.size)
    (hshown : ∀ d, shown d = true ↔ q.Lists env s.catalogue d) :
    Returns (tagReaddir env dirents s p) fun r => Looked s r.2 ∧ ∃ tags,
      r.1 = [dot, dotdot] ++ tags ++ (dirents.filter shown).map Dirent.name ∧
        ((∀ k ∈ q.tags, singleQuote ∉ k) → tags.Nodup ∧ ∀ k, k ∈ tags ↔ q.Shows s.catalogue k) := by
  apply (returns_readdirListFiles_lists h hp hshown).bind
  rintro ⟨files, s'⟩ ⟨rfl, hlook⟩
  refine ⟨hlook, _, rfl, fun hquote => ?_⟩
  have hsize : p.depth = q.tags.length := by
    rw [hdepth, ← hp.keys, Table.keys, List.length_map]
    rfl
  unfold PathQuery.Shows
  split_ifs with hpos hnil hnil
  · rw [hnil, List.length_nil] at hsize
    omega
  · have hne : p.selectedTags.keys ≠ [] := hp.keys ▸ hnil
    have hquote' : ∀ k ∈ p.selectedTags.keys, singleQuote ∉ k := hp.keys ▸ hquote
    refine ⟨nodup_dbListRemainingTags h.tagNames hne hquote', fun k => ?_⟩
    rw [mem_dbListRemainingTags_of_holds h.holds hne hquote', hp.keys]
    rfl
  · rw [dbListAllTags_eq]
    refine ⟨h.tagNames, fun k => ?_⟩
    have hroot := h.synced.root k
    rw [dbListAllTags_eq] at hroot
    exact hroot
  · exact absurd (List.eq_nil_of_length_eq_zero (by omega)) hnil

end TagFilesystem.FuseSqlite3
