import TagFilesystem.FuseSqlite3.UnknownTags
import TagFilesystem.FuseSqlite3.Matching
import TagFilesystem.FuseSqlite3.Remaining
import TagFilesystem.FuseSqlite3.View

namespace TagFilesystem.FuseSqlite3

variable {env : Env} {s s' s₁ : Store} {F : File} {T : Tag} {t : TagId} {n k v : CStr} {i fid : ℤ}
  {rows : List (ℤ × CStr)} {ids : List ℤ} {ks : List CStr}

namespace Store

def Carries (s : Store) (n k : CStr) : Prop :=
  ∃ F i, s.files.get? n = some F ∧ s.Pair k i ∧ (i, F.id) ∈ s.db.tagFile

def catalogue (s : Store) : Catalogue CStr CStr := ⟨s.Carries, fun k => tagExist s k = true⟩

/-- The rows and the registries belong together, and no name or number stands for two. -/
structure Numbered (s : Store) : Prop where
  sound : s.Sound
  synced : s.Synced
  tagIds : (s.db.tag.map Prod.fst).Nodup
  tagNames : (s.db.tag.map Prod.snd).Nodup
  fileRow : ∀ n i, (∃ F, s.files.get? n = some F ∧ F.id = i) ↔ (i, n) ∈ s.db.file
  fileIds : (s.db.file.map Prod.fst).Nodup
  fileNames : (s.db.file.map Prod.snd).Nodup
  fileId : ∀ r ∈ s.db.file, r.1 < s.nextFileId
  rowFile : ∀ r ∈ s.db.tagFile, r.2 ∈ s.db.file.map Prod.fst
  rows : s.db.tagFile.Nodup

theorem numbered_init : Store.init.Numbered where
  sound := sound_init
  synced := synced_init
  tagIds := List.nodup_nil
  tagNames := List.nodup_nil
  fileRow n i := by simp [Store.init]
  fileIds := List.nodup_nil
  fileNames := List.nodup_nil
  fileId := by simp [Store.init]
  rowFile := by simp [Store.init]
  rows := List.nodup_nil

end Store

theorem dbAdd_new (hid : i ∉ rows.map Prod.fst) (hname : n ∉ rows.map Prod.snd) :
    (dbAdd rows n i).2 = rows ++ [(i, n)] := by
  rw [dbAdd, if_neg fun h => h.elim hid hname]

theorem nodup_concat {α : Type} {l : List α} {a : α} (h : l.Nodup) (ha : a ∉ l) : (l ++ [a]).Nodup :=
  h.append (List.nodup_singleton a) (List.disjoint_singleton.mpr ha)

namespace Store.Numbered

variable (h : s.Numbered)
include h

theorem new_fileId : s.nextFileId ∉ s.db.file.map Prod.fst := by
  intro hmem
  obtain ⟨r, hr, hri⟩ := List.mem_map.mp hmem
  have hlt := h.fileId r hr
  omega

theorem new_fileName (hn : s.files.get? n = none) : n ∉ s.db.file.map Prod.snd := by
  intro hmem
  obtain ⟨⟨i, n⟩, hr, rfl⟩ := List.mem_map.mp hmem
  obtain ⟨F, hF, -⟩ := (h.fileRow n i).mpr hr
  rw [hn] at hF
  cases hF

theorem new_tagId : s.nextTagId ∉ s.db.tag.map Prod.fst := by
  intro hmem
  obtain ⟨r, hr, hri⟩ := List.mem_map.mp hmem
  have hlt := h.sound.rowId r hr
  omega

theorem new_tagName (hv : s.tags.get? v = none) : v ∉ s.db.tag.map Prod.snd := by
  intro hmem
  obtain ⟨⟨i, v⟩, hr, rfl⟩ := List.mem_map.mp hmem
  obtain ⟨t, -, hk, -⟩ := h.sound.pair_iff.mp ((h.synced.tagRows v i).mpr hr)
  rw [hv] at hk
  cases hk

theorem pair_inj {v' : CStr} {i' : ℤ} (hp : s.Pair v i) (hp' : s.Pair v' i') : v = v' ↔ i = i' := by
  have hr := (h.synced.tagRows v i).mp hp
  have hr' := (h.synced.tagRows v' i').mp hp'
  constructor
  · rintro rfl
    exact (Prod.mk.inj (List.inj_on_of_nodup_map h.tagNames hr hr' rfl)).1
  · rintro rfl
    exact (Prod.mk.inj (List.inj_on_of_nodup_map h.tagIds hr hr' rfl)).2

theorem file_inj {n' : CStr} {F' : File} (hF : s.files.get? n = some F) (hF' : s.files.get? n' = some F')
    (hid : F.id = F'.id) : n = n' := by
  have hr := (h.fileRow n F.id).mp ⟨F, hF, rfl⟩
  have hr' := (h.fileRow n' F.id).mp ⟨F', hF', hid.symm⟩
  exact (Prod.mk.inj (List.inj_on_of_nodup_map h.fileIds hr hr' rfl)).2

theorem holds : s.db.Holds s.Carries where
  fileNames := h.fileNames
  rowFile := h.rowFile
  carries_iff n k := by
    constructor
    · rintro ⟨F, i, hF, hp, hr⟩
      exact ⟨i, F.id, (h.synced.tagRows k i).mp hp, hr, (h.fileRow n F.id).mp ⟨F, hF, rfl⟩⟩
    · rintro ⟨i, j, hi, hr, hj⟩
      obtain ⟨F, hF, rfl⟩ := (h.fileRow n j).mpr hj
      exact ⟨F, i, hF, (h.synced.tagRows k i).mpr hi, hr⟩

end Store.Numbered

/-- The store after `file_new` and the entry into `files`. -/
def Store.addFile (s : Store) (n : CStr) : Store :=
  { s with
    files := s.files.add n ⟨s.nextFileId, n⟩
    nextFileId := s.nextFileId + 1
    db := (dbAddFile s.db n s.nextFileId).2 }

theorem fileGetOrCreate_some (hn : s.files.get? n = some F) : fileGetOrCreate s n = (F, s) := by
  rw [fileGetOrCreate, hn]

theorem fileGetOrCreate_new (hn : s.files.get? n = none) :
    fileGetOrCreate s n = (⟨s.nextFileId, n⟩, s.addFile n) := by
  rw [fileGetOrCreate, hn]
  rfl

/-- The store with other rows in `tag_file`. -/
def Store.withRows (s : Store) (rows : List (ℤ × ℤ)) : Store :=
  { s with db := { s.db with tagFile := rows } }

theorem tagFile_withRows (hT : s.tagHeap.get? t = some T) : tagFile s (some t) F =
    .ok (s.withRows (dbTagFile s.db T.id F.id).2.tagFile) := by
  rw [tagFile, readTag_eq hT, ok_bind, dbTagFile]
  split_ifs
  · rfl
  · rfl

theorem untagFile_withRows (hT : s.tagHeap.get? t = some T) : untagFile s (some t) F =
    .ok (s.withRows (dbUntagFile s.db T.id F.id).2.tagFile) :=
  untagFile_eq (readTag_eq hT)

namespace Store.Numbered

variable (h : s.Numbered)
include h

theorem addFile (hn : s.files.get? n = none) :
    (s.addFile n).Numbered ∧ (s.addFile n).catalogue = s.catalogue := by
  have hfile : (s.addFile n).db.file = s.db.file ++ [(s.nextFileId, n)] :=
    dbAdd_new h.new_fileId (h.new_fileName hn)
  have hkeeps : Keeps s (s.addFile n) := ⟨rfl, rfl, rfl, rfl, fun _ => .inl⟩
  have hget (m : CStr) : (s.addFile n).files.get? m =
      if n = m then some ⟨s.nextFileId, n⟩ else s.files.get? m := Table.get?_add
  refine ⟨⟨hkeeps.sound h.sound, hkeeps.synced h.sound h.synced, h.tagIds, h.tagNames, fun m i => ?_, ?_,
    ?_, ?_, ?_, h.rows⟩, Catalogue.ext_iff_forall.mpr ⟨fun m k => ?_, fun k => Iff.rfl⟩⟩
  · rw [hfile, List.mem_append, List.mem_singleton, ← h.fileRow, hget]
    split_ifs with hm
    · subst hm
      simp [hn, eq_comm]
    · simp [Ne.symm hm]
  · rw [hfile, List.map_append]
    exact nodup_concat h.fileIds h.new_fileId
  · rw [hfile, List.map_append]
    exact nodup_concat h.fileNames (h.new_fileName hn)
  · rw [hfile]
    intro r hr
    show r.1 < s.nextFileId + 1
    rcases List.mem_append.mp hr with hr | hr
    · have hlt := h.fileId r hr
      omega
    · rw [List.mem_singleton.mp hr]
      omega
  · intro r hr
    rw [hfile, List.map_append]
    exact List.mem_append_left _ (h.rowFile r hr)
  · -- no row has the new number
    show (∃ F i, (s.addFile n).files.get? m = some F ∧ s.Pair k i ∧ (i, F.id) ∈ s.db.tagFile) ↔
      s.Carries m k
    rw [hget]
    split_ifs with hm
    · subst hm
      refine iff_of_false ?_ ?_
      · rintro ⟨F, i, hF, -, hr⟩
        cases hF
        exact h.new_fileId (h.rowFile _ hr)
      · rintro ⟨F, i, hF, -⟩
        rw [hn] at hF
        cases hF
    · exact Iff.rfl

theorem fileGetOrCreate (n : CStr) : (fileGetOrCreate s n).2.Numbered ∧
    (fileGetOrCreate s n).2.catalogue = s.catalogue ∧
    (fileGetOrCreate s n).2.files.get? n = some (fileGetOrCreate s n).1 := by
  cases hn : s.files.get? n with
  | some F =>
    rw [fileGetOrCreate_some hn]
    exact ⟨h, rfl, hn⟩
  | none =>
    rw [fileGetOrCreate_new hn]
    exact ⟨(h.addFile hn).1, (h.addFile hn).2, Table.get?_add_self⟩

theorem withRows {rows : List (ℤ × ℤ)} (hnodup : rows.Nodup)
    (hrows : ∀ r ∈ rows, (∃ v, s.Pair v r.1) ∧ r.2 ∈ s.db.file.map Prod.fst) :
    (s.withRows rows).Numbered := by
  have hkeeps : Keeps s (s.withRows rows) := ⟨rfl, rfl, rfl, rfl, fun r hr => .inr (hrows r hr).1⟩
  exact ⟨hkeeps.sound h.sound, hkeeps.synced h.sound h.synced, h.tagIds, h.tagNames, h.fileRow, h.fileIds,
    h.fileNames, h.fileId, fun r hr => (hrows r hr).2, hnodup⟩

section Row

variable (hk : s.tags.get? k = some t) (hT : s.tagHeap.get? t = some T) (hF : s.files.get? n = some F)
include hk hT hF

theorem carries_iff {m v : CStr} {F' : File} {i : ℤ} (hF' : s.files.get? m = some F') (hp : s.Pair v i) :
    (i, F'.id) = (T.id, F.id) ↔ m = n ∧ v = k := by
  have hpair : s.Pair k T.id := h.sound.pair_iff.mpr ⟨t, T, hk, hT, rfl⟩
  rw [Prod.mk.injEq, ← h.pair_inj hp hpair, and_comm]
  refine and_congr_left fun _ => ⟨h.file_inj hF' hF, ?_⟩
  rintro rfl
  cases hF'.symm.trans hF
  rfl

theorem dbTagFile : (s.withRows (dbTagFile s.db T.id F.id).2.tagFile).Numbered ∧
    (s.withRows (dbTagFile s.db T.id F.id).2.tagFile).catalogue = s.catalogue.tag n [k] := by
  have hpair : s.Pair k T.id := h.sound.pair_iff.mpr ⟨t, T, hk, hT, rfl⟩
  have hused : tagExist s k = true := h.sound.tagExist_iff.mpr ⟨T.id, hpair⟩
  refine ⟨h.withRows ?_ ?_, Catalogue.ext_iff_forall.mpr ⟨fun m v => ?_, fun v => ?_⟩⟩
  · unfold FuseSqlite3.dbTagFile
    split_ifs with hrow
    · exact h.rows
    · exact nodup_concat h.rows hrow
  · intro r hr
    obtain hr | rfl := mem_dbTagFile.mp hr
    · exact ⟨h.synced.rowTag r hr, h.rowFile r hr⟩
    · exact ⟨⟨k, hpair⟩, List.mem_map_of_mem ((h.fileRow n F.id).mp ⟨F, hF, rfl⟩)⟩
  · show (∃ F' i, s.files.get? m = some F' ∧ s.Pair v i ∧
      (i, F'.id) ∈ (FuseSqlite3.dbTagFile s.db T.id F.id).2.tagFile) ↔ s.Carries m v ∨ m = n ∧ v ∈ [k]
    simp only [mem_dbTagFile, List.mem_singleton]
    constructor
    · rintro ⟨F', i, hF', hp, hr | hr⟩
      · exact .inl ⟨F', i, hF', hp, hr⟩
      · exact .inr ((h.carries_iff hk hT hF hF' hp).mp hr)
    · rintro (⟨F', i, hF', hp, hr⟩ | ⟨rfl, rfl⟩)
      · exact ⟨F', i, hF', hp, .inl hr⟩
      · exact ⟨F, T.id, hF, hpair, .inr rfl⟩
  · show tagExist s v = true ↔ tagExist s v = true ∨ v ∈ [k]
    rw [List.mem_singleton]
    exact ⟨.inl, fun hv => hv.elim id fun hv => hv ▸ hused⟩

theorem dbUntagFile : (s.withRows (dbUntagFile s.db T.id F.id).2.tagFile).Numbered ∧
    (s.withRows (dbUntagFile s.db T.id F.id).2.tagFile).catalogue = s.catalogue.strip n [k] := by
  refine ⟨h.withRows (h.rows.filter _) fun r hr => ?_,
    Catalogue.ext_iff_forall.mpr ⟨fun m v => ?_, fun v => Iff.rfl⟩⟩
  · have hr : r ∈ s.db.tagFile := ((mem_dbUntagFile s.db).mp hr).1
    exact ⟨h.synced.rowTag r hr, h.rowFile r hr⟩
  · show (∃ F' i, s.files.get? m = some F' ∧ s.Pair v i ∧
      (i, F'.id) ∈ (FuseSqlite3.dbUntagFile s.db T.id F.id).2.tagFile) ↔
        s.Carries m v ∧ ¬(m = n ∧ v ∈ [k])
    simp only [mem_dbUntagFile, List.mem_singleton]
    constructor
    · rintro ⟨F', i, hF', hp, hr, hne⟩
      refine ⟨⟨F', i, hF', hp, hr⟩, fun hmv => hne ?_⟩
      exact Prod.mk.inj ((h.carries_iff hk hT hF hF' hp).mpr hmv)
    · rintro ⟨⟨F', i, hF', hp, hr⟩, hne⟩
      refine ⟨F', i, hF', hp, hr, fun hi => hne ?_⟩
      exact (h.carries_iff hk hT hF hF' hp).mp (Prod.ext hi.1 hi.2)

end Row

theorem addTag (hv : s.tags.get? v = none) :
    (s.addTag v).Numbered ∧ (s.addTag v).catalogue = s.catalogue.use v := by
  have htag : (s.addTag v).db.tag = s.db.tag ++ [(s.nextTagId, v)] :=
    dbAdd_new h.new_tagId (h.new_tagName hv)
  refine ⟨⟨h.sound.addTag hv, h.sound.synced_addTag h.synced hv, ?_, ?_, h.fileRow, h.fileIds, h.fileNames,
    h.fileId, h.rowFile, h.rows⟩, Catalogue.ext_iff_forall.mpr ⟨fun m k => ?_, fun k => ?_⟩⟩
  · rw [htag, List.map_append]
    exact nodup_concat h.tagIds h.new_tagId
  · rw [htag, List.map_append]
    exact nodup_concat h.tagNames (h.new_tagName hv)
  · -- no row has the new number
    show (∃ F i, s.files.get? m = some F ∧ (s.addTag v).Pair k i ∧ (i, F.id) ∈ s.db.tagFile) ↔ s.Carries m k
    simp only [h.sound.pair_addTag hv]
    constructor
    · rintro ⟨F, i, hF, hp | ⟨rfl, rfl⟩, hr⟩
      · exact ⟨F, i, hF, hp, hr⟩
      · obtain ⟨v', hp⟩ := h.synced.rowTag _ hr
        exact absurd (List.mem_map_of_mem ((h.synced.tagRows v' _).mp hp)) h.new_tagId
    · rintro ⟨F, i, hF, hp, hr⟩
      exact ⟨F, i, hF, .inl hp, hr⟩
  · show tagExist (s.addTag v) k = true ↔ tagExist s k = true ∨ k = v
    rw [(h.sound.addTag hv).tagExist_iff, h.sound.tagExist_iff]
    simp only [h.sound.pair_addTag hv, exists_or]
    simp

end Store.Numbered

end TagFilesystem.FuseSqlite3
