import TagFilesystem.FuseSqlite3.Callbacks
import TagFilesystem.FuseSqlite3.Rename
import TagFilesystem.Library.Run

namespace TagFilesystem.FuseSqlite3

variable {env : Env} {s s' s'' : Store} {F : File} {T : Tag} {t : TagId} {v : CStr} {i : ℤ}
  {p : Path} {e : Event} {sel : HashTable (Option TagId)}

/-- A registered tag has this value and this identifier. -/
def Store.Pair (s : Store) (v : CStr) (i : ℤ) : Prop :=
  ∃ e ∈ s.tags.entries, ∃ T, s.tagHeap.get? e.2 = some T ∧ T.value = v ∧ T.id = i

/-- The two copies of the tags agree. -/
structure Store.Synced (s : Store) : Prop where
  tagRows : ∀ v i, s.Pair v i ↔ (i, v) ∈ s.db.tag
  rowTag : ∀ r ∈ s.db.tagFile, ∃ v, s.Pair v r.1
  root : ∀ v, v ∈ (dbListAllTags s.db).2 ↔ tagExist s v = true

/-- What holds of the registry in every run. -/
structure Store.Sound (s : Store) : Prop where
  tagsUnique : s.tags.Unique
  tagEntry : ∀ {k t}, s.tags.get? k = some t → ∃ T, s.tagHeap.get? t = some T ∧ T.value = k
  rowId : ∀ r ∈ s.db.tag, r.1 < s.nextTagId

theorem sound_init : Store.init.Sound where
  tagsUnique := Table.unique_empty
  tagEntry h := by cases h
  rowId r hr := by cases hr

theorem synced_init : Store.init.Synced where
  tagRows v i := by simp [Store.Pair, Store.init]
  rowTag r hr := by cases hr
  root v := by
    rw [dbListAllTags_eq]
    simp [Store.init, tagExist, tagGet]

namespace Store.Sound

variable (h : s.Sound)

include h

theorem pair_iff : s.Pair v i ↔ ∃ t T, s.tags.get? v = some t ∧ s.tagHeap.get? t = some T ∧
    T.id = i := by
  constructor
  · rintro ⟨⟨k, t⟩, he, T, hT, rfl, hi⟩
    have hk : s.tags.get? k = some t := h.tagsUnique.get?_eq_some.mpr he
    obtain ⟨T', hT', rfl⟩ := h.tagEntry hk
    cases hT.symm.trans hT'
    exact ⟨t, T, hk, hT, hi⟩
  · rintro ⟨t, T, hk, hT, hi⟩
    obtain ⟨T', hT', hv⟩ := h.tagEntry hk
    cases hT.symm.trans hT'
    exact ⟨(v, t), Table.mem_of_get? hk, T, hT, hv, hi⟩

theorem tagExist_iff : tagExist s v = true ↔ ∃ i, s.Pair v i := by
  simp only [h.pair_iff, tagExist, tagGet, Option.isSome_iff_exists]
  constructor
  · rintro ⟨t, hk⟩
    obtain ⟨T, hT, -⟩ := h.tagEntry hk
    exact ⟨T.id, t, T, hk, hT, rfl⟩
  · rintro ⟨_, t, _, hk, -⟩
    exact ⟨t, hk⟩

theorem synced (hrows : ∀ v i, s.Pair v i ↔ (i, v) ∈ s.db.tag)
    (htags : ∀ r ∈ s.db.tagFile, ∃ v, s.Pair v r.1) : s.Synced where
  tagRows := hrows
  rowTag := htags
  root v := by
    rw [h.tagExist_iff, dbListAllTags_eq]
    simp only [hrows, List.mem_map, Prod.exists, exists_eq_right]

end Store.Sound

/-- The tags are the same in `s'`; rows are added for registered tags only. -/
structure Keeps (s s' : Store) : Prop where
  tags : s'.tags = s.tags
  tagHeap : s'.tagHeap = s.tagHeap
  nextTagId : s'.nextTagId = s.nextTagId
  tagRows : s'.db.tag = s.db.tag
  rowTag : ∀ r ∈ s'.db.tagFile, r ∈ s.db.tagFile ∨ ∃ v, s.Pair v r.1

namespace Keeps

theorem refl (s : Store) : Keeps s s := ⟨rfl, rfl, rfl, rfl, fun _ => .inl⟩

theorem pair (h : Keeps s s') : s'.Pair v i ↔ s.Pair v i := by
  rw [Store.Pair, h.tags, h.tagHeap]
  exact Iff.rfl

theorem trans (h : Keeps s s') (h' : Keeps s' s'') : Keeps s s'' where
  tags := h'.tags.trans h.tags
  tagHeap := h'.tagHeap.trans h.tagHeap
  nextTagId := h'.nextTagId.trans h.nextTagId
  tagRows := h'.tagRows.trans h.tagRows
  rowTag r hr := by
    obtain hold | ⟨v, hv⟩ := h'.rowTag r hr
    · exact h.rowTag r hold
    · exact .inr ⟨v, h.pair.mp hv⟩

theorem sound (h : Keeps s s') (hs : s.Sound) : s'.Sound where
  tagsUnique := by rw [h.tags]; exact hs.tagsUnique
  tagEntry hk := by
    rw [h.tagHeap]
    rw [h.tags] at hk
    exact hs.tagEntry hk
  rowId := by rw [h.tagRows, h.nextTagId]; exact hs.rowId

theorem synced (h : Keeps s s') (hs : s.Sound) (hsy : s.Synced) : s'.Synced := by
  refine (h.sound hs).synced (fun v i => ?_) fun r hr => ?_
  · rw [h.pair, h.tagRows]
    exact hsy.tagRows v i
  · obtain hold | ⟨v, hv⟩ := h.rowTag r hr
    · obtain ⟨v, hv⟩ := hsy.rowTag r hold
      exact ⟨v, h.pair.mpr hv⟩
    · exact ⟨v, h.pair.mpr hv⟩

end Keeps

theorem keeps_fileGetOrCreate (s : Store) (v : CStr) : Keeps s (fileGetOrCreate s v).2 := by
  unfold fileGetOrCreate
  cases s.files.get? v with
  | some F => exact .refl s
  | none => exact ⟨rfl, rfl, rfl, rfl, fun _ => .inl⟩

theorem returns_getattrIntra (env : Env) (s : Store) (p : Path) :
    Returns (getattrIntra env s p) fun r => Keeps s r.2.2 := by
  unfold getattrIntra
  cases env.stat p.realpath with
  | none => exact .refl s
  | some st =>
    have h := keeps_fileGetOrCreate s p.filename
    dsimp only
    split_ifs
    · exact .refl s
    · exact (returns_true _).bind fun _ _ => h
    · exact h
    · exact h

/-- The table holds what `tag_get` gives for its keys. -/
def Store.Selects (s : Store) (sel : HashTable (Option TagId)) : Prop :=
  ∀ e ∈ sel.entries, e.2 = tagGet s e.1

theorem selects_pathCreate (env : Env) (s : Store) (path : CStr) (isTag : Bool) :
    s.Selects (pathCreate env s path isTag).selectedTags := by
  intro e he
  have hall (dirpath : CStr) (he : e ∈ (computeSelectedTags s dirpath).entries) :
      e.2 = tagGet s e.1 := by
    rw [entries_computeSelectedTags, List.mem_map] at he
    obtain ⟨k, -, rfl⟩ := he
    rfl
  exact hall _ he

theorem Keeps.selects (h : Keeps s s') (hsel : s.Selects sel) : s'.Selects sel := by
  intro e he
  rw [hsel e he, tagGet, tagGet, h.tags]

theorem returns_untagFile (s : Store) (t : Option TagId) (F : File) :
    Returns (untagFile s t F) (Keeps s) := by
  refine (returns_true _).bind fun T _ => ⟨rfl, rfl, rfl, rfl, fun r hr => .inl ?_⟩
  exact ((mem_dbUntagFile s.db).mp hr).1

theorem mem_dbTagFile {db : Database} {tid fid : ℤ} {r : ℤ × ℤ} :
    r ∈ (dbTagFile db tid fid).2.tagFile ↔ r ∈ db.tagFile ∨ r = (tid, fid) := by
  unfold dbTagFile
  split_ifs with hrow
  · refine ⟨.inl, fun h => h.elim id ?_⟩
    rintro rfl
    exact hrow
  · simp

theorem keeps_dbTagFile {k : CStr} (h : s.Sound) (hk : s.tags.get? k = some t)
    (hT : s.tagHeap.get? t = some T) (fid : ℤ) :
    Keeps s { s with db := (dbTagFile s.db T.id fid).2 } := by
  have htag : (dbTagFile s.db T.id fid).2.tag = s.db.tag := by
    unfold dbTagFile
    split_ifs <;> rfl
  refine ⟨rfl, rfl, rfl, htag, fun r hr => ?_⟩
  obtain hr | rfl := mem_dbTagFile.mp hr
  · exact .inl hr
  · exact .inr ⟨k, h.pair_iff.mpr ⟨t, T, hk, hT, rfl⟩⟩

theorem readTag_eq (hT : s.tagHeap.get? t = some T) : s.readTag (some t) = .ok T := by
  simp [Store.readTag, hT]

theorem returns_tagFile (h : s.Sound) (k : CStr) (F : File) :
    Returns (tagFile s (tagGet s k) F) (Keeps s) := by
  unfold tagFile tagGet
  cases hk : s.tags.get? k with
  | none => trivial
  | some t =>
    obtain ⟨T, hT, -⟩ := h.tagEntry hk
    rw [readTag_eq hT]
    exact keeps_dbTagFile h hk hT F.id

theorem returns_pathUnlink (s : Store) (p : Path) :
    Returns (pathUnlink s p) fun r => Keeps s r.2 := by
  unfold pathUnlink
  cases fileGet s p.filename with
  | none => exact .refl s
  | some F =>
    refine (sat_forEach_mem (fun e _ s' hs' => ?_) (Keeps.refl s)).bind fun _ hs' => hs'
    exact (returns_untagFile s' e.2 F).mono fun _ => hs'.trans

theorem returns_pathLink (h : s.Sound) {fto : Path} (hsel : s.Selects fto.selectedTags)
    (env : Env) (ffrom : Path) : Returns (pathLink env s ffrom fto) fun r => Keeps s r.2 := by
  refine (returns_getattrIntra env s ffrom).bind fun r hr => ?_
  dsimp only
  split_ifs
  · exact hr
  · have hfile := hr.trans (keeps_fileGetOrCreate r.2.2 ffrom.filename)
    refine (sat_forEach_mem (fun e he s' hs' => ?_) hfile).bind fun _ hs' => hs'
    rw [hs'.selects hsel e he]
    exact (returns_tagFile (hs'.sound h) e.1 _).mono fun _ => hs'.trans

theorem returns_tagReaddir (env : Env) (dirents : List Dirent) (s : Store) (p : Path) :
    Returns (tagReaddir env dirents s p) fun r => Keeps s r.2 := by
  refine Sat.bind (P := fun r : List CStr × Store => Keeps s r.2) ?_ fun r hr => hr
  refine sat_forEach_mem (fun d _ r hr => ?_) (Keeps.refl s)
  split_ifs
  · exact hr
  · exact (returns_getattrIntra env r.2 _).bind fun r' hr' => hr.trans hr'

theorem returns_tagRename (h : s.Sound) (env : Env) (src dst : CStr) :
    Returns (tagRename env s src dst) fun r => Keeps s r.2 := by
  unfold tagRename
  dsimp only
  split_ifs
  · exact .refl s
  · refine (returns_pathUnlink s _).bind fun r hr => ?_
    have hsel := hr.selects (selects_pathCreate env s dst false)
    refine (returns_pathLink (hr.sound h) hsel env _).bind fun r' hr' => hr.trans hr'

/-- The store after `tag_new` and the entry into `tags`. -/
def Store.addTag (s : Store) (v : CStr) : Store :=
  { s with
    tags := s.tags.add v s.tagHeap.next
    tagHeap := s.tagHeap.alloc ⟨s.nextTagId, v⟩
    nextTagId := s.nextTagId + 1
    db := (dbAddTag s.db v s.nextTagId).2 }

/-- The store after `tag_remove`. -/
def Store.dropTag (s : Store) (t : TagId) (T : Tag) : Store :=
  { s with tags := s.tags.erase T.value, tagHeap := s.tagHeap.free t }

theorem tagGetOrCreate_new (hk : s.tags.get? v = none) :
    tagGetOrCreate s v = (s.tagHeap.next, s.addTag v) := by
  rw [tagGetOrCreate, hk]
  rfl

theorem mem_addTag {r : ℤ × CStr} (hr : r ∈ (s.addTag v).db.tag) :
    r ∈ s.db.tag ∨ r = (s.nextTagId, v) := by
  have hr : r ∈ (dbAdd s.db.tag v s.nextTagId).2 := hr
  unfold dbAdd at hr
  split_ifs at hr
  · exact .inl hr
  · simpa using hr

theorem mem_addTag_of_mem {r : ℤ × CStr} (hr : r ∈ s.db.tag) : r ∈ (s.addTag v).db.tag := by
  show r ∈ (dbAdd s.db.tag v s.nextTagId).2
  unfold dbAdd
  split_ifs
  · exact hr
  · exact List.mem_append_left _ hr

namespace Store.Sound

variable (h : s.Sound)

include h

theorem addTag (hk : s.tags.get? v = none) : (s.addTag v).Sound where
  tagsUnique := h.tagsUnique.add hk
  tagEntry {k t} ht := by
    have ht : (s.tags.add v s.tagHeap.next).get? k = some t := ht
    show ∃ T, (s.tagHeap.alloc ⟨s.nextTagId, v⟩).get? t = some T ∧ T.value = k
    rw [Table.get?_add] at ht
    split_ifs at ht with hv
    · cases ht
      exact ⟨_, Heap.get?_alloc_next, hv⟩
    · obtain ⟨T, hT, hTk⟩ := h.tagEntry ht
      exact ⟨T, Heap.get?_alloc_of_some hT, hTk⟩
  rowId r hr := by
    show r.1 < s.nextTagId + 1
    obtain hr | rfl := mem_addTag hr
    · have := h.rowId r hr
      omega
    · omega

theorem dropTag (hk : s.tags.get? v = some t) (hT : s.tagHeap.get? t = some T) :
    (s.dropTag t T).Sound where
  tagsUnique := h.tagsUnique.erase
  tagEntry {k t'} ht := by
    have ht : (s.tags.erase T.value).get? k = some t' := ht
    show ∃ T', (s.tagHeap.free t).get? t' = some T' ∧ T'.value = k
    rw [h.tagsUnique.get?_erase] at ht
    split_ifs at ht with hv
    obtain ⟨T', hT', hv'⟩ := h.tagEntry ht
    have hne : t' ≠ t := by
      rintro rfl
      cases hT.symm.trans hT'
      exact hv hv'.symm
    exact ⟨T', by rw [Heap.get?_free, if_neg hne]; exact hT', hv'⟩
  rowId := h.rowId

theorem pair_addTag {v' : CStr} (hk : s.tags.get? v = none) :
    (s.addTag v).Pair v' i ↔ s.Pair v' i ∨ v' = v ∧ i = s.nextTagId := by
  rw [(h.addTag hk).pair_iff, h.pair_iff]
  show (∃ t T, (s.tags.add v s.tagHeap.next).get? v' = some t ∧
    (s.tagHeap.alloc ⟨s.nextTagId, v⟩).get? t = some T ∧ T.id = i) ↔ _
  constructor
  · rintro ⟨t, T, ht, hT, hi⟩
    rw [Table.get?_add] at ht
    split_ifs at ht with hv
    · cases ht
      cases Heap.get?_alloc_next.symm.trans hT
      exact .inr ⟨hv.symm, hi.symm⟩
    · obtain ⟨T', hT', -⟩ := h.tagEntry ht
      cases (Heap.get?_alloc_of_some hT').symm.trans hT
      exact .inl ⟨t, T, ht, hT', hi⟩
  · rintro (⟨t, T, ht, hT, hi⟩ | ⟨rfl, rfl⟩)
    · have hv : v ≠ v' := by
        rintro rfl
        rw [hk] at ht
        cases ht
      exact ⟨t, T, by rw [Table.get?_add, if_neg hv]; exact ht, Heap.get?_alloc_of_some hT, hi⟩
    · exact ⟨_, _, Table.get?_add_self, Heap.get?_alloc_next, rfl⟩

theorem pair_dropTag {v' : CStr} (hk : s.tags.get? v = some t) (hT : s.tagHeap.get? t = some T) :
    (s.dropTag t T).Pair v' i ↔ s.Pair v' i ∧ v' ≠ T.value := by
  rw [(h.dropTag hk hT).pair_iff, h.pair_iff]
  show (∃ t' T', (s.tags.erase T.value).get? v' = some t' ∧
    (s.tagHeap.free t).get? t' = some T' ∧ T'.id = i) ↔ _
  constructor
  · rintro ⟨t', T', ht, hT', hi⟩
    rw [h.tagsUnique.get?_erase] at ht
    rw [Heap.get?_free] at hT'
    split_ifs at ht hT' with hv hne
    exact ⟨⟨t', T', ht, hT', hi⟩, hv⟩
  · rintro ⟨⟨t', T', ht, hT', hi⟩, hv⟩
    -- the object that went had another name
    have hne : t' ≠ t := by
      rintro rfl
      obtain ⟨T₀, hT₀, hv₀⟩ := h.tagEntry ht
      cases hT.symm.trans hT₀
      exact hv hv₀.symm
    refine ⟨t', T', ?_, by rw [Heap.get?_free, if_neg hne]; exact hT', hi⟩
    rw [h.tagsUnique.get?_erase, if_neg hv]
    exact ht

theorem synced_addTag (hsy : s.Synced) (hk : s.tags.get? v = none) : (s.addTag v).Synced := by
  -- the counter is beyond every number in the table
  have hid : s.nextTagId ∉ s.db.tag.map Prod.fst := by
    intro hmem
    obtain ⟨r, hr, hri⟩ := List.mem_map.mp hmem
    have := h.rowId r hr
    omega
  -- a row of this name would be that of a registered tag
  have hname : v ∉ s.db.tag.map Prod.snd := by
    intro hmem
    obtain ⟨⟨i, v⟩, hr, rfl⟩ := List.mem_map.mp hmem
    obtain ⟨t, -, hk', -⟩ := h.pair_iff.mp ((hsy.tagRows v i).mpr hr)
    rw [hk] at hk'
    cases hk'
  have hrows : (s.addTag v).db.tag = s.db.tag ++ [(s.nextTagId, v)] := by
    show (dbAdd s.db.tag v s.nextTagId).2 = _
    rw [dbAdd, if_neg fun hor => hor.elim hid hname]
  refine (h.addTag hk).synced (fun v' i => ?_) fun r hr => ?_
  · rw [h.pair_addTag hk, hrows, hsy.tagRows]
    simp [and_comm]
  · obtain ⟨v', hv'⟩ := hsy.rowTag r hr
    exact ⟨v', (h.pair_addTag hk).mpr (.inl hv')⟩

end Store.Sound

/-- A row of the table `tag` without a registered tag, and whose number will not come again. -/
structure Store.Orphan (s : Store) (v : CStr) (i : ℤ) : Prop where
  row : (i, v) ∈ s.db.tag
  old : i < s.nextTagId
  unpaired : ¬s.Pair v i

theorem Store.Orphan.not_synced (h : s.Orphan v i) : ¬s.Synced :=
  fun hsy => h.unpaired ((hsy.tagRows v i).mpr h.row)

theorem Store.Orphan.keeps (h : s.Orphan v i) (hk : Keeps s s') : s'.Orphan v i where
  row := by rw [hk.tagRows]; exact h.row
  old := by rw [hk.nextTagId]; exact h.old
  unpaired := by rw [hk.pair]; exact h.unpaired

namespace Store.Sound

variable {k : CStr} (h : s.Sound)

include h

theorem orphan_addTag (ho : s.Orphan v i) (hk : s.tags.get? k = none) :
    (s.addTag k).Orphan v i where
  row := mem_addTag_of_mem ho.row
  old := by
    show i < s.nextTagId + 1
    have := ho.old
    omega
  unpaired := by
    rw [h.pair_addTag hk]
    rintro (hp | ⟨-, hi⟩)
    · exact ho.unpaired hp
    · -- the new tag has a greater number than the row
      have := ho.old
      omega

theorem orphan_dropTag (ho : s.Orphan v i) (hk : s.tags.get? k = some t)
    (hT : s.tagHeap.get? t = some T) : (s.dropTag t T).Orphan v i where
  row := ho.row
  old := ho.old
  unpaired := by
    rw [h.pair_dropTag hk hT]
    exact fun hp => ho.unpaired hp.1

theorem orphan_of_dropTag (hsy : s.Synced) (hk : s.tags.get? k = some t)
    (hT : s.tagHeap.get? t = some T) : (s.dropTag t T).Orphan T.value T.id := by
  have hp : s.Pair T.value T.id := ⟨_, Table.mem_of_get? hk, T, hT, rfl, rfl⟩
  have hrow := (hsy.tagRows T.value T.id).mp hp
  refine ⟨hrow, h.rowId _ hrow, ?_⟩
  rw [h.pair_dropTag hk hT]
  exact fun hp' => hp'.2 rfl

end Store.Sound

/-- A `rmdir` that is not refused with `EPERM`. -/
def Event.RemovesTag (e : Event) : Prop :=
  ∃ p, e.callback = .rmdir p ∧ getCharacterCount p slash ≤ 1

theorem returns_tagUnlink (env : Env) (s : Store) (path : CStr) :
    Returns (tagUnlink env s path) fun r => Keeps s r.2 := by
  unfold tagUnlink
  split_ifs
  · exact .refl s
  · exact returns_pathUnlink s _

theorem tagMkdir_cases (s : Store) (path : CStr) : (tagMkdir s path).2 = s ∨
    ∃ v, s.tags.get? v = none ∧ (tagMkdir s path).2 = s.addTag v := by
  simp only [tagMkdir]
  split_ifs
  · exact .inl rfl
  · cases hk : tagGet s (basename path) with
    | some t => exact .inl rfl
    | none => exact .inr ⟨_, hk, congrArg Prod.snd (tagGetOrCreate_new hk)⟩

theorem tagRmdir_cases {path : CStr} {r : ℤ × Store} (h : s.Sound)
    (he : tagRmdir s path = .ok r) : 1 < getCharacterCount path slash ∧ r.2 = s ∨
      getCharacterCount path slash ≤ 1 ∧ ∃ v t T, s.tags.get? v = some t ∧
        s.tagHeap.get? t = some T ∧ r.2 = s.dropTag t T := by
  unfold tagRmdir at he
  split_ifs at he with hp
  · cases he
    exact .inl ⟨hp, rfl⟩
  · refine .inr ⟨by omega, basename path, ?_⟩
    unfold tagRemove tagGet at he
    cases hk : s.tags.get? (basename path) with
    | none =>
      -- `tag_remove(NULL)` does not return
      rw [hk] at he
      cases he
    | some t =>
      obtain ⟨T, hT, -⟩ := h.tagEntry hk
      rw [hk, readTag_eq hT] at he
      cases he
      exact ⟨t, T, rfl, hT, rfl⟩

theorem step_cases (h : s.Sound) (he : step s e = .ok s') :
    ¬e.RemovesTag ∧ Keeps s s' ∨
    (¬e.RemovesTag ∧ ∃ v, s.tags.get? v = none ∧ s' = s.addTag v) ∨
    (e.RemovesTag ∧ ∃ v t T, s.tags.get? v = some t ∧ s.tagHeap.get? t = some T ∧
      s' = s.dropTag t T) := by
  obtain ⟨env, c⟩ := e
  have hother (hc : ∀ p, c ≠ .rmdir p) : ¬(Event.mk env c).RemovesTag :=
    fun ⟨p, hp, _⟩ => hc p hp
  have hkeep (hc : ∀ p, c ≠ .rmdir p) (hr : Returns (step s ⟨env, c⟩) (Keeps s)) :
      ¬(Event.mk env c).RemovesTag ∧ Keeps s s' := ⟨hother hc, hr.of_ok he⟩
  cases c with
  | getattr p => exact .inl (hkeep (by simp) (sat_map.mpr (returns_getattrIntra env s _)))
  | fgetattr p => exact .inl (hkeep (by simp) (sat_map.mpr (returns_getattrIntra env s p)))
  | readdir p dirents => exact .inl (hkeep (by simp) (sat_map.mpr (returns_tagReaddir ..)))
  | link p q =>
    have hsel := selects_pathCreate env s q false
    exact .inl (hkeep (by simp) (sat_map.mpr (returns_pathLink h hsel env _)))
  | unlink p => exact .inl (hkeep (by simp) (sat_map.mpr (returns_tagUnlink env s p)))
  | rename p q => exact .inl (hkeep (by simp) (sat_map.mpr (returns_tagRename h env p q)))
  | mkdir p =>
    obtain rfl : (tagMkdir s p).2 = s' := Except.ok.inj he
    -- `mkdir` does nothing for a tag that exists
    obtain hsame | hnew := tagMkdir_cases s p
    · rw [hsame]
      exact .inl ⟨hother (by simp), .refl s⟩
    · exact .inr (.inl ⟨hother (by simp), hnew⟩)
  | rmdir p =>
    obtain ⟨r, hr, rfl⟩ := map_eq_ok.mp he
    obtain ⟨hp, hsame⟩ | ⟨hp, hrm⟩ := tagRmdir_cases h hr
    · rw [hsame]
      refine .inl ⟨?_, .refl s⟩
      rintro ⟨q, hq, hle⟩
      cases hq
      omega
    · exact .inr (.inr ⟨⟨p, rfl, hp⟩, hrm⟩)

theorem sound_step (h : s.Sound) (he : step s e = .ok s') : s'.Sound := by
  obtain ⟨-, hk⟩ | ⟨-, v, hv, rfl⟩ | ⟨-, v, t, T, hv, hT, rfl⟩ := step_cases h he
  · exact hk.sound h
  · exact h.addTag hv
  · exact h.dropTag hv hT

theorem synced_step (h : s.Sound) (hsy : s.Synced) (he : step s e = .ok s')
    (hr : ¬e.RemovesTag) : s'.Synced := by
  obtain ⟨-, hk⟩ | ⟨-, v, hv, rfl⟩ | ⟨hrm, -⟩ := step_cases h he
  · exact hk.synced h hsy
  · exact h.synced_addTag hsy hv
  · exact absurd hrm hr

theorem orphan_of_removesTag (h : s.Sound) (hsy : s.Synced) (he : step s e = .ok s')
    (hr : e.RemovesTag) : ∃ v i, s'.Orphan v i := by
  obtain ⟨hno, -⟩ | ⟨hno, -⟩ | ⟨-, v, t, T, hv, hT, rfl⟩ := step_cases h he
  · exact absurd hr hno
  · exact absurd hr hno
  · exact ⟨T.value, T.id, h.orphan_of_dropTag hsy hv hT⟩

theorem orphan_step (h : s.Sound) (ho : s.Orphan v i) (he : step s e = .ok s') :
    s'.Orphan v i := by
  obtain ⟨-, hk⟩ | ⟨-, v, hv, rfl⟩ | ⟨-, v, t, T, hv, hT, rfl⟩ := step_cases h he
  · exact ho.keeps hk
  · exact h.orphan_addTag ho hv
  · exact h.orphan_dropTag ho hv hT

theorem start_tagGetOrCreate (h : s.Sound) (hsy : s.Synced) (v : CStr) :
    (tagGetOrCreate s v).2.Sound ∧ (tagGetOrCreate s v).2.Synced ∧
      tagGet (tagGetOrCreate s v).2 v = some (tagGetOrCreate s v).1 := by
  cases hk : s.tags.get? v with
  | none =>
    rw [tagGetOrCreate_new hk]
    exact ⟨h.addTag hk, h.synced_addTag hsy hk, Table.get?_add_self⟩
  | some t =>
    have heq : tagGetOrCreate s v = (t, s) := by rw [tagGetOrCreate, hk]
    rw [heq]
    exact ⟨h, hsy, hk⟩

theorem returns_parseTag (h : s.Sound) (hsy : s.Synced) (f : Option File) (word : CStr) :
    Returns (parseTag s f word) fun s' => s'.Sound ∧ s'.Synced := by
  unfold parseTag
  dsimp only
  split_ifs
  · exact ⟨h, hsy⟩
  · obtain ⟨h', hsy', hk⟩ := start_tagGetOrCreate h hsy (copyWordUntil word newline)
    cases f with
    | none => exact ⟨h', hsy'⟩
    | some F =>
      have hfile := returns_tagFile h' (copyWordUntil word newline) F
      rw [hk] at hfile
      exact hfile.mono fun s' hs' => ⟨hs'.sound h', hs'.synced h' hsy'⟩

theorem returns_parseFile (env : Env) (s : Store) (word : CStr) :
    Returns (parseFile (fun s p => (fun r => (r.1, r.2.2)) <$> tagGetattr env s p) s word)
      fun r => Keeps s r.2 := by
  refine Sat.bind (P := fun r : ℤ × Store => Keeps s r.2)
    (sat_map.mpr (returns_getattrIntra env s _)) fun r hr => ?_
  dsimp only
  split_ifs
  · exact hr.trans (keeps_fileGetOrCreate r.2 _)
  · exact hr

theorem returns_setRootDirectory (env : Env) (text : CStr) :
    Returns (setRootDirectory env text) fun s => s.Sound ∧ s.Synced := by
  refine (sat_forEach_mem (I := fun r : Option File × Store => r.2.Sound ∧ r.2.Synced)
    (fun word _ r hr => ?_) ⟨sound_init, synced_init⟩).bind fun r hr => hr
  have htag (w : CStr) : Returns (do let s ← parseTag r.2 r.1 w; .ok (r.1, s))
      fun r' => r'.2.Sound ∧ r'.2.Synced :=
    (returns_parseTag hr.1 hr.2 r.1 w).bind fun _ hs' => hs'
  unfold parseLine
  split_ifs
  · exact hr
  · cases word.dropWhile isspace with
    | nil => exact htag []
    | cons c rest =>
      dsimp only
      split_ifs
      · exact (returns_parseFile env r.2 rest).mono fun _ hk =>
          ⟨hk.sound hr.1, hk.synced hr.1 hr.2⟩
      · exact htag (c :: rest)

variable {s₀ : Store} {text : CStr} {r : Event × Store} {tr tr₁ tr₂ : List (Event × Store)}

theorem orphan_run (h : s.Sound) (ho : s.Orphan v i) (htr : Trace step s (tr₁ ++ r :: tr₂)) :
    r.2.Orphan v i := by
  induction tr₁ generalizing s with
  | nil =>
    cases htr with
    | cons he _ => exact orphan_step h ho he
  | cons r₀ tr₁ ih =>
    cases htr with
    | cons he htr' => exact ih (sound_step h he) (orphan_step h ho he) htr'

theorem synced_run (h : s.Sound) (hsy : s.Synced) (htr : Trace step s (tr₁ ++ r :: tr₂)) :
    r.2.Synced ↔ ∀ r' ∈ tr₁ ++ [r], ¬r'.1.RemovesTag := by
  induction tr₁ generalizing s with
  | nil =>
    cases htr with
    | cons he _ =>
      simp only [List.nil_append, List.forall_mem_singleton]
      constructor
      · intro hsy' hr
        obtain ⟨v, i, ho⟩ := orphan_of_removesTag h hsy he hr
        exact ho.not_synced hsy'
      · exact synced_step h hsy he
  | cons r₀ tr₁ ih =>
    cases htr with
    | @cons _ _ e _ he htr' =>
      rw [List.cons_append, List.forall_mem_cons]
      by_cases hr : e.RemovesTag
      · -- from here on there is an orphan, whatever follows
        obtain ⟨v, i, ho⟩ := orphan_of_removesTag h hsy he hr
        exact iff_of_false (orphan_run (sound_step h he) ho htr').not_synced fun hall => hall.1 hr
      · rw [ih (sound_step h he) (synced_step h hsy he hr) htr']
        exact (and_iff_right hr).symm

/-- In a run that starts from the database file the two copies agree up to the first tag that is
removed, and never after. No identifier is given out twice as long as at most `INT_MAX` tags have been
made. -/
theorem callbacks_synced_iff (h₀ : setRootDirectory env text = .ok s₀) (htr : Trace step s₀ tr) :
    s₀.Synced ∧ ∀ tr₁ r tr₂, tr = tr₁ ++ r :: tr₂ →
      (r.2.Synced ↔ ∀ r' ∈ tr₁ ++ [r], ¬r'.1.RemovesTag) := by
  obtain ⟨h, hsy⟩ := (returns_setRootDirectory env text).of_ok h₀
  refine ⟨hsy, ?_⟩
  rintro tr₁ r tr₂ rfl
  exact synced_run h hsy htr

def sampleMkdir : Event := ⟨sampleEnv, .mkdir (samplePath [] nameX)⟩

def sampleRmdir : Event := ⟨sampleEnv, .rmdir (samplePath [] nameX)⟩

/-- The file `f` gets the tag `x`, goes over to `y` and loses it; `g` keeps `x`. -/
def movingSession : List Event := [sampleMkdir,
  ⟨sampleEnv, .mkdir (samplePath [] nameY)⟩,
  ⟨sampleEnv, .link (samplePath [] nameF) (samplePath [nameX] nameF)⟩,
  ⟨sampleEnv, .link (samplePath [] nameG) (samplePath [nameX] nameG)⟩,
  ⟨sampleEnv, .rename (samplePath [nameX] nameF) (samplePath [nameY] nameF)⟩,
  ⟨sampleEnv, .unlink (samplePath [nameY] nameF)⟩]

theorem moved_synced : ∃ tr, Trace step .init tr ∧ tr.map Prod.fst = movingSession ∧
    ∀ r ∈ tr, r.2.Synced := by
  have h₀ : setRootDirectory sampleEnv [] = .ok .init := rfl
  have hrun : (execute step (fun _ _ => True) movingSession .init).isSome = true := by decide +kernel
  obtain ⟨s, hs⟩ := Option.isSome_iff_exists.mp hrun
  obtain ⟨tr, htr, hes⟩ := trace_of_execute hs
  have hkeep : ∀ r ∈ tr, ¬ r.1.RemovesTag := by
    intro r hr
    have hmem : r.1 ∈ movingSession := hes ▸ List.mem_map_of_mem hr
    simp only [movingSession, List.mem_cons, List.not_mem_nil, or_false] at hmem
    rintro ⟨p, hp, -⟩
    obtain he | he | he | he | he | he := hmem
    all_goals
      rw [he] at hp
      cases hp
  refine ⟨tr, htr, hes, fun r hr => ?_⟩
  obtain ⟨tr₁, tr₂, heq⟩ := List.append_of_mem hr
  refine ((callbacks_synced_iff h₀ htr).2 tr₁ r tr₂ heq).mpr fun r' hr' => hkeep r' ?_
  rw [heq]
  obtain hr' | hr' := List.mem_append.mp hr'
  · exact List.mem_append_left _ hr'
  · obtain rfl := List.mem_singleton.mp hr'
    exact List.mem_append_right _ List.mem_cons_self

/-- After `mkdir x` and `rmdir x` the root still shows `x`. -/
theorem rmdir_not_synced : ∃ s s', setRootDirectory sampleEnv [] = .ok .init ∧
    step .init sampleMkdir = .ok s ∧ step s sampleRmdir = .ok s' ∧
    tagExist s' nameX = false ∧ dbListAllTags s'.db = (0, [nameX]) ∧ ¬s'.Synced := by
  refine ⟨_, _, rfl, rfl, rfl, rfl, rfl, fun h => ?_⟩
  have hx := (h.root nameX).mp (by rw [dbListAllTags_eq]; exact List.mem_singleton_self _)
  cases hx

end TagFilesystem.FuseSqlite3
