import TagFilesystem.FuseSqlite3.Synced

namespace TagFilesystem.FuseSqlite3

variable {env env₀ : Env} {s s₀ s' : Store} {F : File} {T : Tag} {t : TagId} {k n q src dst text : CStr}
  {i : ℤ} {ks : List CStr} {m : Except Fault (ℤ × Store)} {sel : HashTable (Option TagId)}

theorem sound_of_reaches (h₀ : setRootDirectory env₀ text = .ok s₀)
    (h : Reaches step (fun _ _ => True) s₀ s) : s.Sound :=
  h.invariant ((returns_setRootDirectory env₀ text).of_ok h₀).1 fun _ _ _ hs _ he => sound_step hs he

/-- `stat` reports something else than a directory. -/
def Env.regular (env : Env) (p : CStr) : Bool := (env.stat p).any fun st => !st.isDir

/-- The registry and the tables `tag` and `tag_file` are the same. -/
structure SameTags (s s' : Store) : Prop where
  tags : s'.tags = s.tags
  tagHeap : s'.tagHeap = s.tagHeap
  tag : s'.db.tag = s.db.tag
  tagFile : s'.db.tagFile = s.db.tagFile

theorem SameTags.refl (s : Store) : SameTags s s := ⟨rfl, rfl, rfl, rfl⟩

/-- The callback returns, with an error if the path `q` is that of an existing regular file, and
leaves the tags alone. -/
def Refused (env : Env) (s : Store) (q : CStr) (m : Except Fault (ℤ × Store)) : Prop :=
  ∃ r s', m = .ok (r, s') ∧ SameTags s s' ∧ (env.regular (pathRealpath env q) = true → r < 0)

theorem not_refused (h : Returns m fun _ => False) : ¬ Refused env s q m := by
  rintro ⟨r, s', rfl, -⟩
  exact h

/-- The identifier of a registered tag. -/
def Store.idOf (s : Store) (k : CStr) : Option ℤ := ((tagGet s k).bind s.tagHeap.get?).map Tag.id

def Store.idsOf (s : Store) (ks : List CStr) : List ℤ := ks.filterMap s.idOf

/-- The identifier that the record `n` has, or gets when it is made. -/
def Store.fileId (s : Store) (n : CStr) : ℤ :=
  match s.files.get? n with
  | some F => F.id
  | none => s.nextFileId

/-- The number of rows that pair the file with one of the tags. -/
def Store.rowCount (s : Store) (n : CStr) (ks : List CStr) : ℕ :=
  (s.db.tagFile.filter fun r => r.2 = s.fileId n ∧ r.1 ∈ s.idsOf ks).length

/-- A path that names no file is taken for the root or for the directory of a tag. -/
def IsDirectory (env : Env) (s : Store) (q : CStr) : Prop :=
  (env.stat env.realdirpath).isSome = true ∧
    (q = [slash] ∨ tagExist s (basename q) = true ∧ basename q ∉ components (dirname q))

/-- `getattr` refuses the path: it names a file that is not in that directory of known tags, or it
names neither file nor directory. -/
def Denied (env : Env) (s : Store) (q : CStr) : Prop :=
  if env.regular (pathRealpath env q) = true then components (dirname q) ≠ [] ∧
    (∀ k ∈ components (dirname q), tagExist s k = true) ∧
    s.rowCount (basename q) (components (dirname q)) ≠ (components (dirname q)).length
  else ¬ IsDirectory env s q

/-- The table of a path, with `INVALID_TAG` for each unknown component. -/
theorem entries_selected (env : Env) (s : Store) (q : CStr) :
    (pathCreate env s q false).selectedTags.entries =
      (components (dirname q)).map fun k => (k, tagGet s k) :=
  entries_computeSelectedTags s (dirname q)

theorem size_selected (env : Env) (s : Store) (q : CStr) :
    (pathCreate env s q false).selectedTags.size = (components (dirname q)).length := by
  rw [Table.size, entries_selected, List.length_map]

theorem keys_selected (env : Env) (s : Store) (q : CStr) :
    (pathCreate env s q false).selectedTags.keys = components (dirname q) := by
  rw [Table.keys, entries_selected, List.map_map]
  exact List.map_id _

theorem unknown_selected (hk : k ∈ components (dirname q)) (hno : tagExist s k = false) :
    ∃ e ∈ (pathCreate env s q false).selectedTags.entries, e.2 = none := by
  refine ⟨(k, tagGet s k), ?_, by simpa [tagExist] using hno⟩
  rw [entries_selected]
  exact List.mem_map_of_mem hk

theorem Store.Sound.readTag_of_exist (h : s.Sound) (hk : tagExist s k = true) :
    ∃ T, s.readTag (tagGet s k) = .ok T ∧ s.idOf k = some T.id := by
  obtain ⟨t, ht⟩ := Option.isSome_iff_exists.mp hk
  obtain ⟨T, hT, -⟩ := h.tagEntry ht
  exact ⟨T, by rw [ht, readTag_eq hT], by simp [Store.idOf, ht, hT]⟩

theorem tagIdList_unknown (h : ∃ e ∈ sel.entries, e.2 = none) :
    Returns (tagIdList s sel) fun _ => False := by
  refine forEach_stops (fun e => e.2 = none) ?_ h []
  rintro ⟨k, t⟩ ids rfl
  trivial

theorem tagIdList_known (h : s.Sound) (hsel : sel.entries = ks.map fun k => (k, tagGet s k))
    (hks : ∀ k ∈ ks, tagExist s k = true) : tagIdList s sel = .ok (s.idsOf ks) := by
  have hloop : Sat (fun _ => False) (tagIdList s sel) fun ids => ids = s.idsOf ks := by
    unfold tagIdList
    rw [hsel, forEach_map]
    refine sat_forEach_visited (fun ks₀ ids => ids = s.idsOf ks₀) ?_ rfl
    rintro ks₀ k ks₁ ids hsplit rfl
    obtain ⟨T, hT, hid⟩ := h.readTag_of_exist (hks k (by rw [← hsplit]; simp))
    simp [hT, ok_bind, Store.idsOf, hid]
  obtain ⟨ids, hids, rfl⟩ := hloop.exists_ok
  exact hids

theorem fileGetOrCreate_id (s : Store) (n : CStr) : (fileGetOrCreate s n).1.id = s.fileId n := by
  unfold fileGetOrCreate Store.fileId
  cases s.files.get? n <;> rfl

theorem sameTags_fileGetOrCreate (s : Store) (n : CStr) : SameTags s (fileGetOrCreate s n).2 := by
  unfold fileGetOrCreate
  cases s.files.get? n with
  | some F => exact .refl s
  | none => exact ⟨rfl, rfl, rfl, rfl⟩

theorem readTag_congr (h : s'.tagHeap = s.tagHeap) (t : Option TagId) : s'.readTag t = s.readTag t := by
  unfold Store.readTag
  rw [h]

theorem SameTags.tagIdList_eq (h : SameTags s s') : tagIdList s' sel = tagIdList s sel := by
  simp only [tagIdList, readTag_congr h.tagHeap]

section Getattr

variable (hreg : env.regular (pathRealpath env q) = false)

include hreg

theorem tagGetattr_directory : ∃ r st, tagGetattr env s q = .ok (r, st, s) ∧
    (r = 0 ∧ IsDirectory env s q ∨ r < 0 ∧ ¬ IsDirectory env s q) := by
  have hdir (st : Option Stat) : (getattrDir env s (pathCreate env s q false) st).1 = 0 ∧
      IsDirectory env s q ∨ (getattrDir env s (pathCreate env s q false) st).1 < 0 ∧
      ¬ IsDirectory env s q := by
    -- the table of the path has the components for its keys
    have htest : ((pathCreate env s q false).virtpath = [slash] ∨
        tagExist s (pathCreate env s q false).filename = true ∧
        (pathCreate env s q false).selectedTags.contains (pathCreate env s q false).filename = false) ↔
        (q = [slash] ∨ tagExist s (basename q) = true ∧ basename q ∉ components (dirname q)) := by
      rw [Table.contains_eq_false, Table.get?_eq_none, keys_selected]
      rfl
    unfold getattrDir IsDirectory
    simp only [htest]
    split_ifs with hq
    · unfold statRoot
      cases env.stat env.realdirpath with
      | none => simp
      | some st => simp [hq]
    · simp [hq, ENOENT]
  unfold tagGetattr getattrIntra
  cases hst : env.stat (pathCreate env s q false).realpath with
  | none => exact ⟨_, _, rfl, hdir none⟩
  | some st =>
    have hisDir : st.isDir = true := by
      have hreal : env.stat (pathRealpath env q) = some st := hst
      simpa [Env.regular, hreal] using hreg
    simp only [hisDir, if_true]
    exact ⟨_, _, rfl, hdir (some st)⟩

end Getattr

section Regular

variable (hreg : env.regular (pathRealpath env q) = true)

include hreg

theorem tagGetattr_regular : ∃ st, tagGetattr env s q =
    if (pathCreate env s q false).selectedTags.size > 0 then
      fileMatchesTags (fileGetOrCreate s (basename q)).2 (fileGetOrCreate s (basename q)).1
        (pathCreate env s q false).selectedTags >>= fun isMatch =>
        .ok (if isMatch = true then 0 else -ENOENT, some st, (fileGetOrCreate s (basename q)).2)
    else .ok (0, some (if basename q = tagFilename then { st with stSize := LONG_MAX } else st),
      (fileGetOrCreate s (basename q)).2) := by
  obtain ⟨st, hst, hdir⟩ := (Option.any_eq_true _ _).mp hreg
  have hreal : env.stat (pathCreate env s q false).realpath = some st := hst
  have hisDir : st.isDir = false := by simpa using hdir
  refine ⟨st, ?_⟩
  unfold tagGetattr getattrIntra
  simp only [hreal, hisDir, Bool.false_eq_true, if_false]
  have hname : (pathCreate env s q false).filename = basename q := rfl
  rw [hname]
  split_ifs <;> rfl

theorem tagGetattr_unknown (hk : k ∈ components (dirname q)) (hno : tagExist s k = false) :
    Returns (tagGetattr env s q) fun _ => False := by
  obtain ⟨st, heq⟩ := tagGetattr_regular (s := s) hreg
  have hsize : (pathCreate env s q false).selectedTags.size > 0 := by
    rw [size_selected]
    exact List.length_pos_of_mem hk
  rw [heq, if_pos hsize, fileMatchesTags, dbFileMatchTags,
    (sameTags_fileGetOrCreate s (basename q)).tagIdList_eq]
  -- the number of `INVALID_TAG` is read while the query is built
  have hlist : Returns (tagIdList s (pathCreate env s q false).selectedTags) fun _ => False :=
    tagIdList_unknown (unknown_selected hk hno)
  exact (hlist.bind fun _ h => h.elim).bind fun _ h => h

theorem tagGetattr_known (h : s.Sound) (hks : ∀ k ∈ components (dirname q), tagExist s k = true) :
    ∃ r st s', tagGetattr env s q = .ok (r, st, s') ∧ SameTags s s' ∧
      (r < 0 ↔ components (dirname q) ≠ [] ∧
        s.rowCount (basename q) (components (dirname q)) ≠ (components (dirname q)).length) := by
  obtain ⟨st, heq⟩ := tagGetattr_regular (s := s) hreg
  have hsame := sameTags_fileGetOrCreate s (basename q)
  rw [heq, size_selected]
  by_cases hsize : (components (dirname q)).length > 0
  · rw [if_pos hsize]
    have hids := tagIdList_known h (entries_selected env s q) hks
    have hne := List.ne_nil_of_length_pos hsize
    have hmatch : fileMatchesTags (fileGetOrCreate s (basename q)).2 (fileGetOrCreate s (basename q)).1
        (pathCreate env s q false).selectedTags = .ok (if s.rowCount (basename q)
          (components (dirname q)) = (components (dirname q)).length then true else false) := by
      rw [fileMatchesTags, dbFileMatchTags, hsame.tagIdList_eq, hids, ok_bind, size_selected,
        hsame.tagFile, fileGetOrCreate_id]
      rfl
    rw [hmatch, ok_bind]
    refine ⟨_, _, _, rfl, hsame, ?_⟩
    by_cases hrow : s.rowCount (basename q) (components (dirname q)) = (components (dirname q)).length
    · simp [hrow]
    · simp [hrow, hne, ENOENT]
  · rw [if_neg hsize]
    have hnil : components (dirname q) = [] := List.eq_nil_of_length_eq_zero (by omega)
    exact ⟨_, _, _, rfl, hsame, by simp [hnil]⟩

end Regular

/-- `getattr` of a path with an unknown component stops exactly at a regular file. -/
theorem refused_getattr_iff (hk : k ∈ components (dirname q)) (hno : tagExist s k = false) :
    Refused env s q ((fun r => (r.1, r.2.2)) <$> tagGetattr env s q) ↔
      env.regular (pathRealpath env q) = false := by
  cases hreg : env.regular (pathRealpath env q) with
  | true =>
    refine iff_of_false (not_refused (sat_map.mpr ?_)) (by simp)
    exact (tagGetattr_unknown hreg hk hno).mono fun _ h => h
  | false =>
    obtain ⟨r, st, heq, -⟩ := tagGetattr_directory (s := s) hreg
    refine iff_of_true ⟨r, s, map_eq_ok.mpr ⟨_, heq, rfl⟩, .refl s, fun hreg' => ?_⟩ rfl
    rw [hreg] at hreg'
    cases hreg'

/-- `getattr` returns an error exactly when `Denied` holds; otherwise it succeeds or stops. -/
theorem tagGetattr_denied (h : s.Sound) (hd : Denied env s q) :
    ∃ r st s', tagGetattr env s q = .ok (r, st, s') ∧ SameTags s s' ∧ r < 0 := by
  unfold Denied at hd
  split_ifs at hd with hreg
  · obtain ⟨r, st, s', heq, hsame, hneg⟩ := tagGetattr_known hreg h hd.2.1
    exact ⟨r, st, s', heq, hsame, hneg.mpr ⟨hd.1, hd.2.2⟩⟩
  · obtain ⟨r, st, heq, hr⟩ := tagGetattr_directory (s := s) (by simpa using hreg)
    exact ⟨r, st, s, heq, .refl s, (hr.resolve_left fun hr => hd hr.2).1⟩

theorem denied_of_tagGetattr (h : s.Sound) :
    Returns (tagGetattr env s q) fun r => SameTags s r.2.2 ∧ (r.1 < 0 → Denied env s q) := by
  unfold Denied
  split_ifs with hreg
  · by_cases hks : ∀ k ∈ components (dirname q), tagExist s k = true
    · obtain ⟨r, st, s', heq, hsame, hneg⟩ := tagGetattr_known hreg h hks
      rw [heq]
      exact ⟨hsame, fun hr => ⟨(hneg.mp hr).1, hks, (hneg.mp hr).2⟩⟩
    · obtain ⟨k, hk, hno⟩ : ∃ k ∈ components (dirname q), tagExist s k = false := by simpa using hks
      exact (tagGetattr_unknown hreg hk hno).mono fun _ h => h.elim
  · obtain ⟨r, st, heq, hr⟩ := tagGetattr_directory (s := s) (by simpa using hreg)
    rw [heq]
    exact ⟨.refl s, fun hneg => (hr.resolve_left fun h0 => by omega).2⟩

theorem pathUnlink_unknown {p : Path} (hF : s.files.get? p.filename = some F)
    (h : ∃ e ∈ p.selectedTags.entries, e.2 = none) : Returns (pathUnlink s p) fun _ => False := by
  unfold pathUnlink fileGet
  rw [hF]
  have hloop : Returns (forEach p.selectedTags.entries (fun s e => untagFile s e.2 F) s)
      fun _ => False := by
    refine forEach_stops (fun e => e.2 = none) ?_ h s
    rintro ⟨k, t⟩ s' rfl
    trivial
  exact hloop.bind fun _ h => h.elim

/-- `unlink` of such a path stops exactly if it gets to a file record. -/
theorem refused_unlink_iff (hk : k ∈ components (dirname q)) (hno : tagExist s k = false) :
    Refused env s q (tagUnlink env s q) ↔
      getCharacterCount q slash ≤ 1 ∨ s.files.get? (basename q) = none := by
  unfold tagUnlink
  split_ifs with hc
  · exact iff_of_true ⟨-EPERM, s, rfl, .refl s, fun _ => by decide⟩ (.inl hc)
  · rw [or_iff_right hc]
    have hname : (pathCreate env s q false).filename = basename q := rfl
    cases hF : s.files.get? (basename q) with
    | none =>
      refine iff_of_true ⟨-ENOENT, s, ?_, .refl s, fun _ => by decide⟩ rfl
      rw [pathUnlink, hname, fileGet, hF]
    | some F =>
      refine iff_of_false (not_refused ?_) (by simp)
      exact pathUnlink_unknown (hname ▸ hF) (unknown_selected hk hno)

/-- The loop of `path_link`. It stops at `INVALID_TAG`, and enters the rows that are not there. -/
theorem returns_tagLoop (l : List (CStr × Option TagId)) (F : File) (s : Store) :
    Returns (forEach l (fun s e => tagFile s e.2 F) s) fun s' => s'.tagHeap = s.tagHeap ∧
      ∀ e ∈ l, ∃ T, s.readTag e.2 = .ok T ∧ (T.id, F.id) ∈ s'.db.tagFile := by
  refine sat_forEach_visited (fun (l₀ : List (CStr × Option TagId)) (s' : Store) =>
    s'.tagHeap = s.tagHeap ∧ ∀ e ∈ l₀, ∃ T, s.readTag e.2 = .ok T ∧ (T.id, F.id) ∈ s'.db.tagFile) ?_ ⟨rfl, by simp⟩
  rintro l₀ e l₁ s₁ - ⟨hheap, hrows⟩
  refine Sat.bind_eq (returns_true _) fun T hT _ => ⟨hheap, ?_⟩
  rw [List.forall_mem_append, List.forall_mem_singleton]
  refine ⟨fun e' he' => ?_, T, ?_, mem_dbTagFile.mpr (.inr rfl)⟩
  · obtain ⟨T', hT', hrow⟩ := hrows e' he'
    exact ⟨T', hT', mem_dbTagFile.mpr (.inl hrow)⟩
  · rw [← hT, readTag_congr hheap]

/-- The tags of the path all have a row with the file. -/
def Store.Paired (s : Store) (ks : List CStr) (n : CStr) : Prop :=
  ∀ k ∈ ks, ∃ i, s.idOf k = some i ∧ (i, s.fileId n) ∈ s.db.tagFile

theorem idOf_of_readTag (h : s.readTag (tagGet s k) = .ok T) : s.idOf k = some T.id := by
  unfold Store.readTag at h
  unfold Store.idOf
  cases hk : tagGet s k with
  | none => simp [hk] at h
  | some t =>
    cases hT : s.tagHeap.get? t with
    | none => simp [hk, hT] at h
    | some T' =>
      have hsame : T' = T := by simpa [hk, hT] using h
      simp [hT, hsame]

theorem readTag_of_idOf (h : s.idOf k = some i) : ∃ T, s.readTag (tagGet s k) = .ok T ∧ T.id = i := by
  unfold Store.idOf at h
  obtain ⟨T, hT, rfl⟩ := Option.map_eq_some_iff.mp h
  obtain ⟨t, ht, hget⟩ := Option.bind_eq_some_iff.mp hT
  exact ⟨T, by rw [ht, readTag_eq hget], rfl⟩

theorem tagLink_denied (h : s.Sound) (hd : Denied env s src) (dst : CStr) :
    ∃ r s', tagLink env s src dst = .ok (r, s') ∧ SameTags s s' ∧ r < 0 := by
  obtain ⟨r, st, s', heq, hsame, hneg⟩ := tagGetattr_denied h hd
  refine ⟨r, s', ?_, hsame, hneg⟩
  have heq : getattrIntra env s (pathCreate env s src false) = .ok (r, st, s') := heq
  rw [tagLink, pathLink, heq, ok_bind]
  exact if_pos hneg

/-- `link` to a path with an unknown component stops unless the source is refused. -/
theorem refused_link_to_iff (h : s.Sound) (hk : k ∈ components (dirname q))
    (hno : tagExist s k = false) (src : CStr) :
    Refused env s q (tagLink env s src q) ↔ Denied env s src := by
  constructor
  · intro href
    by_contra hd
    have hstop : Returns (tagLink env s src q) fun _ => False := by
      apply (@denied_of_tagGetattr env _ src h).bind
      rintro ⟨res, st, s₁⟩ ⟨-, hneg⟩
      dsimp only at hneg ⊢
      -- `getattr` accepts the source, and the loop gets to the unknown tag
      rw [if_neg (mt hneg hd)]
      have hloop : Returns (forEach (pathCreate env s q false).selectedTags.entries
          (fun s e => tagFile s e.2 (fileGetOrCreate s₁ (basename src)).1)
          (fileGetOrCreate s₁ (basename src)).2) fun _ => False := by
        refine forEach_stops (fun e => e.2 = none) ?_ (unknown_selected hk hno) _
        rintro ⟨k, t⟩ s' rfl
        trivial
      exact hloop.bind fun _ h => h.elim
    exact not_refused hstop href
  · intro hd
    obtain ⟨r, s', heq, hsame, hneg⟩ := tagLink_denied h hd q
    exact ⟨r, s', heq, hsame, fun _ => hneg⟩

theorem sameTags_tagLoop_iff (env : Env) (s : Store) (n dst : CStr) :
    (∃ s', forEach (pathCreate env s dst false).selectedTags.entries
      (fun s' e => tagFile s' e.2 (fileGetOrCreate s n).1) (fileGetOrCreate s n).2 = .ok s' ∧
        SameTags s s') ↔ s.Paired (components (dirname dst)) n := by
  have hsame := sameTags_fileGetOrCreate s n
  rw [entries_selected]
  constructor
  · rintro ⟨s', hloop, hs'⟩ k hk
    obtain ⟨-, hrows⟩ := (returns_tagLoop _ _ _).of_ok hloop
    obtain ⟨T, hT, hrow⟩ := hrows (k, tagGet s k) (List.mem_map_of_mem hk)
    rw [readTag_congr hsame.tagHeap] at hT
    rw [hs'.tagFile, fileGetOrCreate_id] at hrow
    exact ⟨T.id, idOf_of_readTag hT, hrow⟩
  · intro hpaired
    refine ⟨_, forEach_same fun e he => ?_, hsame⟩
    obtain ⟨k, hk, rfl⟩ := List.mem_map.mp he
    obtain ⟨i, hi, hrow⟩ := hpaired k hk
    obtain ⟨T, hT, rfl⟩ := readTag_of_idOf hi
    -- a row that is there is not entered again
    rw [← hsame.tagFile, ← fileGetOrCreate_id] at hrow
    rw [tagFile, readTag_congr hsame.tagHeap, hT, ok_bind, dbTagFile, if_pos hrow]

theorem refused_link_from_iff (h : s.Sound) (hk : k ∈ components (dirname q))
    (hno : tagExist s k = false) (dst : CStr) : Refused env s q (tagLink env s q dst) ↔
      env.regular (pathRealpath env q) = false ∧
        (IsDirectory env s q → s.Paired (components (dirname dst)) (basename q)) := by
  cases hreg : env.regular (pathRealpath env q) with
  | true =>
    refine iff_of_false (not_refused ?_) (by simp)
    have hget : Returns (getattrIntra env s (pathCreate env s q false)) fun _ => False :=
      tagGetattr_unknown hreg hk hno
    exact hget.bind fun _ h => h.elim
  | false =>
    rw [and_iff_right rfl]
    obtain ⟨r, st, heq, ⟨rfl, hdir⟩ | ⟨-, hdir⟩⟩ := tagGetattr_directory (s := s) hreg
    · -- a directory as the source: nothing changes if every row is there already
      rw [forall_prop_of_true hdir, ← sameTags_tagLoop_iff env s (basename q) dst]
      have hlink : tagLink env s q dst =
          forEach (pathCreate env s dst false).selectedTags.entries
            (fun s' e => tagFile s' e.2 (fileGetOrCreate s (basename q)).1)
            (fileGetOrCreate s (basename q)).2 >>= fun s' => .ok (0, s') := by
        have heq : getattrIntra env s (pathCreate env s q false) = .ok (0, st, s) := heq
        rw [tagLink, pathLink, heq]
        rfl
      rw [hlink]
      constructor
      · rintro ⟨r, s', hrun, hsame, -⟩
        obtain ⟨s₁, hloop, hr⟩ := map_eq_ok.mp hrun
        cases hr
        exact ⟨s', hloop, hsame⟩
      · rintro ⟨s', hloop, hsame⟩
        refine ⟨0, s', by rw [hloop, ok_bind], hsame, fun hreg' => ?_⟩
        rw [hreg] at hreg'
        cases hreg'
    · have hd : Denied env s q := by
        rw [Denied, hreg, if_neg Bool.false_ne_true]
        exact hdir
      obtain ⟨r, s', hrun, hsame, hneg⟩ := tagLink_denied h hd dst
      exact iff_of_true ⟨r, s', hrun, hsame, fun _ => hneg⟩ fun h => absurd h hdir

/-- In every reached store and for every path `q` with a component that is no registered tag: each
callback refuses the path exactly as said on the right. Otherwise it dereferences `INVALID_TAG`,
or it enters rows into `tag_file`. -/
theorem unknown_tag_refused_iff (h₀ : setRootDirectory env₀ text = .ok s₀)
    (h : Reaches step (fun _ _ => True) s₀ s) (env : Env) (q : CStr)
    (hq : ∃ k ∈ components (dirname q), tagExist s k = false) :
    (Refused env s q ((fun r => (r.1, r.2.2)) <$> tagGetattr env s q) ↔
      env.regular (pathRealpath env q) = false) ∧
    (Refused env s q (tagUnlink env s q) ↔
      getCharacterCount q slash ≤ 1 ∨ s.files.get? (basename q) = none) ∧
    (∀ dst, Refused env s q (tagLink env s q dst) ↔ env.regular (pathRealpath env q) = false ∧
      (IsDirectory env s q → s.Paired (components (dirname dst)) (basename q))) ∧
    ∀ src, Refused env s q (tagLink env s src q) ↔ Denied env s src := by
  obtain ⟨k, hk, hno⟩ := hq
  have hs := sound_of_reaches h₀ h
  exact ⟨refused_getattr_iff hk hno, refused_unlink_iff hk hno, refused_link_from_iff hs hk hno,
    refused_link_to_iff hs hk hno⟩

/-- The file `f` has the tag `x`, and `g` is no tag. A link from `/y/f` to `/g/f` is refused, as `f` does
not have `y`, and so is `getattr` of `/g/y`, which is no file; `getattr` of `/g/f` is not. -/
theorem unknown_tag_refused_sample : ∃ s, execute step (fun _ _ => True) [sampleMkdir,
      ⟨sampleEnv, .mkdir (samplePath [] nameY)⟩,
      ⟨sampleEnv, .link (samplePath [] nameF) (samplePath [nameX] nameF)⟩] .init = some s ∧
    Refused sampleEnv s (samplePath [nameG] nameF)
      (tagLink sampleEnv s (samplePath [nameY] nameF) (samplePath [nameG] nameF)) ∧
    Refused sampleEnv s (samplePath [nameG] nameY)
      ((fun r => (r.1, r.2.2)) <$> tagGetattr sampleEnv s (samplePath [nameG] nameY)) ∧
    ¬ Refused sampleEnv s (samplePath [nameG] nameF)
      ((fun r => (r.1, r.2.2)) <$> tagGetattr sampleEnv s (samplePath [nameG] nameF)) := by
  have h₀ : setRootDirectory sampleEnv [] = .ok .init := rfl
  have hrun : execute step (fun _ _ => True) [sampleMkdir,
      ⟨sampleEnv, .mkdir (samplePath [] nameY)⟩,
      ⟨sampleEnv, .link (samplePath [] nameF) (samplePath [nameX] nameF)⟩] .init =
    some (sampleStore [(0, 0)]) := rfl
  have hreach := reaches_of_execute hrun
  have hfile : ∃ k ∈ components (dirname (samplePath [nameG] nameF)),
      tagExist (sampleStore [(0, 0)]) k = false := ⟨nameG, by decide +kernel, rfl⟩
  have hnofile : ∃ k ∈ components (dirname (samplePath [nameG] nameY)),
      tagExist (sampleStore [(0, 0)]) k = false := ⟨nameG, by decide +kernel, rfl⟩
  have hf := unknown_tag_refused_iff h₀ hreach sampleEnv _ hfile
  have hy := unknown_tag_refused_iff h₀ hreach sampleEnv _ hnofile
  refine ⟨_, hrun, (hf.2.2.2 _).mpr ?_, hy.1.mpr (by decide +kernel), fun h => ?_⟩
  · rw [Denied, if_pos (by decide +kernel)]
    decide +kernel
  · have hregular := hf.1.mp h
    revert hregular
    decide +kernel

/-- The path `/x/f`, where `f` is a file and there is no tag. -/
theorem unknown_tag_dereferenced : ¬ ∀ env₀ text s₀ s env q, setRootDirectory env₀ text = .ok s₀ →
    Reaches step (fun _ _ => True) s₀ s →
    (∃ k ∈ components (dirname q), tagExist s k = false) →
    Refused env s q ((fun r => (r.1, r.2.2)) <$> tagGetattr env s q) ∧
      Refused env s q (tagUnlink env s q) ∧
      (∀ dst, Refused env s q (tagLink env s q dst)) ∧ ∀ src, Refused env s q (tagLink env s src q) := by
  intro h
  have h₀ : setRootDirectory sampleEnv [] = .ok .init := rfl
  have hq : ∃ k ∈ components (dirname (samplePath [nameX] nameF)), tagExist .init k = false :=
    ⟨nameX, by decide +kernel, rfl⟩
  obtain ⟨⟨r, s', hrun, -⟩, -⟩ := h sampleEnv [] .init .init sampleEnv _ h₀ (.refl _) hq
  have hstop : faultsWith (tagGetattr sampleEnv .init (samplePath [nameX] nameF)) .invalidTag =
      true := by decide +kernel
  rw [faultsWith_iff.mp hstop] at hrun
  cases hrun

end TagFilesystem.FuseSqlite3
