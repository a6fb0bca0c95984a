import TagFilesystem.FuseSqlite3.Tagfs

namespace TagFilesystem.FuseSqlite3

variable {env : Env} {s s' : Store} {F : File} {A B T : Tag} {a b f : CStr} {ds : List CStr}
  {p : Path} {st : Stat} {t : Option TagId} {tid fid : ℤ}

/-- The tag registered under `a` is `A`. -/
def Registered (s : Store) (a : CStr) (A : Tag) : Prop := s.readTag (tagGet s a) = .ok A

theorem entries_computeSelectedTags (s : Store) (dirpath : CStr) :
    (computeSelectedTags s dirpath).entries =
      (components dirpath).map fun k => (k, tagGet s k) := by
  by_cases h : dirpath = dot
  · simp [computeSelectedTags, components, h]
  · rw [computeSelectedTags, if_neg h, components, if_neg h]
    generalize stringSplit dirpath [slash] = l
    have hfold : ∀ sel : HashTable (Option TagId),
        (l.foldl (fun sel name => sel.add name (tagGet s name)) sel).entries =
          sel.entries ++ l.map fun k => (k, tagGet s k) := by
      induction l with
      | nil => simp
      | cons k l ih =>
        intro sel
        rw [List.foldl_cons, ih, Table.entries_add, List.append_assoc]
        rfl
    exact hfold .empty

theorem entries_pathCreate (hd : ∀ d ∈ ds, IsName d) (hf : IsName f) :
    (pathCreate env s (dirPath ds ++ slash :: f) false).selectedTags.entries =
      ds.map fun k => (k, tagGet s k) := by
  show (computeSelectedTags s (dirname (dirPath ds ++ slash :: f))).entries = _
  rw [entries_computeSelectedTags, components_dirname_dirPath hd hf]

theorem filename_pathCreate (hf : IsName f) (dir : CStr) :
    (pathCreate env s (dir ++ slash :: f) false).filename = f := basename_child hf dir

theorem realpath_pathCreate (hf : IsName f) (dir : CStr) :
    (pathCreate env s (dir ++ slash :: f) false).realpath = appendDir env.realdirpath f :=
  congrArg (appendDir env.realdirpath) (basename_child hf dir)

theorem mem_dbUntagFile (db : Database) {r : ℤ × ℤ} :
    r ∈ (dbUntagFile db tid fid).2.tagFile ↔ r ∈ db.tagFile ∧ ¬(r.1 = tid ∧ r.2 = fid) := by
  simp only [dbUntagFile, List.mem_filter, decide_eq_true_eq]

theorem untagFile_eq (h : s.readTag t = .ok T) :
    untagFile s t F = .ok { s with db := (dbUntagFile s.db T.id F.id).2 } := by
  rw [untagFile, h]
  rfl

theorem tagIdList_single {sel : HashTable (Option TagId)} (hsel : sel.entries = [(a, t)])
    (h : s.readTag t = .ok T) : tagIdList s sel = .ok [T.id] := by
  rw [tagIdList, hsel, forEach_cons, h]
  rfl

theorem fileMatchesTags_single {sel : HashTable (Option TagId)} (hsel : sel.entries = [(a, t)])
    (h : s.readTag t = .ok T) (hrow : (T.id, F.id) ∉ s.db.tagFile) :
    fileMatchesTags s F sel = .ok false := by
  have hnil : (s.db.tagFile.filter fun r => r.2 = F.id ∧ r.1 ∈ [T.id]) = [] := by
    rw [List.filter_eq_nil_iff]
    rintro ⟨i, j⟩ hr hm
    simp only [List.mem_singleton, decide_eq_true_eq] at hm
    exact hrow (hm.1 ▸ hm.2 ▸ hr)
  have hsize : sel.size = 1 := by rw [Table.size, hsel, List.length_singleton]
  rw [fileMatchesTags, dbFileMatchTags, tagIdList_single hsel h]
  show Except.ok (if _ = _ then true else false) = _
  rw [hnil, hsize, List.length_nil, if_neg (by decide)]

theorem pathUnlink_single (hsel : p.selectedTags.entries = [(a, t)])
    (hF : s.files.get? p.filename = some F) (h : s.readTag t = .ok T) :
    pathUnlink s p = .ok (0, { s with db := (dbUntagFile s.db T.id F.id).2 }) := by
  simp only [pathUnlink, fileGet, hF, hsel, forEach_cons, untagFile_eq h]
  rfl

/-- `getattr_intra` of a file that misses the row of its directory. -/
theorem getattrIntra_single (hst : env.stat p.realpath = some st) (hdir : st.isDir = false)
    (hsel : p.selectedTags.entries = [(a, t)]) (hF : s.files.get? p.filename = some F)
    (h : s.readTag t = .ok T) (hrow : (T.id, F.id) ∉ s.db.tagFile) :
    getattrIntra env s p = .ok (-ENOENT, some st, s) := by
  have hsize : 0 < p.selectedTags.size := by simp [Table.size, hsel]
  have hget : fileGetOrCreate s p.filename = (F, s) := by rw [fileGetOrCreate, hF]
  simp only [getattrIntra, hst, hdir, hget, hsize, fileMatchesTags_single hsel h hrow]
  rfl

theorem pathLink_single (hst : env.stat p.realpath = some st) (hdir : st.isDir = false)
    (hsel : p.selectedTags.entries = [(a, t)]) (hF : s.files.get? p.filename = some F)
    (h : s.readTag t = .ok T) (hrow : (T.id, F.id) ∉ s.db.tagFile) (fto : Path) :
    pathLink env s p fto = .ok (-ENOENT, s) := by
  rw [pathLink, getattrIntra_single hst hdir hsel hF h hrow]
  rfl

section Callback

variable (ha : IsName a) (hb : IsName b) (hf : IsName f)
  (hst : env.stat (appendDir env.realdirpath f) = some st) (hdir : st.isDir = false)
  (hA : Registered s a A) (hF : s.files.get? f = some F)

include ha hb hf hst hdir hA hF

theorem tagRename_eq : tagRename env s (dirPath [a] ++ slash :: f) (dirPath [b] ++ slash :: f) =
    .ok (0, { s with db := (dbUntagFile s.db A.id F.id).2 }) := by
  have hda : ∀ d ∈ [a], IsName d := by simpa using ha
  have hdb : ∀ d ∈ [b], IsName d := by simpa using hb
  have hfrom : (pathCreate env s (dirPath [a] ++ slash :: f) false).selectedTags.entries =
      [(a, tagGet s a)] := entries_pathCreate hda hf
  have hto : (pathCreate env s (dirPath [b] ++ slash :: f) false).selectedTags.entries =
      [(b, tagGet s b)] := entries_pathCreate hdb hf
  have hfile : s.files.get? (pathCreate env s (dirPath [a] ++ slash :: f) false).filename =
      some F := by rwa [filename_pathCreate hf]
  have hreal : env.stat (pathCreate env s (dirPath [a] ++ slash :: f) false).realpath = some st := by
    rwa [realpath_pathCreate hf]
  have hun := pathUnlink_single hfrom hfile hA
  have hgone : (A.id, F.id) ∉ (dbUntagFile s.db A.id F.id).2.tagFile := by
    rw [mem_dbUntagFile]
    exact fun h => h.2 ⟨rfl, rfl⟩
  have hlink := pathLink_single (s := { s with db := (dbUntagFile s.db A.id F.id).2 })
    hreal hdir hfrom hfile hA hgone (pathCreate env s (dirPath [b] ++ slash :: f) false)
  have hone : ¬((pathCreate env s (dirPath [a] ++ slash :: f) false).selectedTags.size ≠ 1 ∨
      (pathCreate env s (dirPath [b] ++ slash :: f) false).selectedTags.size ≠ 1) := by
    simp only [Table.size, hfrom, hto, List.length_singleton, ne_eq, not_true_eq_false, or_self,
      not_false_eq_true]
  simp only [tagRename, if_neg hone, hun]
  show (pathLink _ _ _ _ >>= _) = _
  rw [hlink]
  rfl

end Callback

/-- The rows of `F` in `s'` are those in `s` less that of `A` plus that of `B`; the rows of the
other files are the same. -/
def MovesRow (s : Store) (F : File) (A B : Tag) (s' : Store) : Prop :=
  (∀ i, (i, F.id) ∈ s'.db.tagFile ↔ (i, F.id) ∈ s.db.tagFile ∧ i ≠ A.id ∨ i = B.id) ∧
    ∀ i j, j ≠ F.id → ((i, j) ∈ s'.db.tagFile ↔ (i, j) ∈ s.db.tagFile)

theorem movesRow_iff : MovesRow s F A B { s with db := (dbUntagFile s.db A.id F.id).2 } ↔
    (B.id, F.id) ∈ s.db.tagFile ∧ B.id ≠ A.id := by
  constructor
  · intro h
    have hB := (h.1 B.id).mpr (.inr rfl)
    rw [mem_dbUntagFile] at hB
    exact ⟨hB.1, fun he => hB.2 ⟨he, rfl⟩⟩
  · rintro ⟨hB, hne⟩
    refine ⟨fun i => ?_, fun i j hj => ?_⟩
    · simp only [mem_dbUntagFile, and_true]
      constructor
      · exact Or.inl
      · rintro (h | rfl)
        · exact h
        · exact ⟨hB, hne⟩
    · simp only [mem_dbUntagFile, hj, and_false, not_false_eq_true, and_true]

/-- The rename returns 0, and moves the row of the file from the tag `A` of `a` to the tag `B` of
`b` exactly when the row of `B` was there before. -/
theorem rename_movesRow_iff (ha : IsName a) (hb : IsName b) (hf : IsName f)
    (hst : env.stat (appendDir env.realdirpath f) = some st) (hdir : st.isDir = false)
    (hA : Registered s a A) (_hB : Registered s b B) (hF : s.files.get? f = some F) : ∃ s',
    tagRename env s (dirPath [a] ++ slash :: f) (dirPath [b] ++ slash :: f) = .ok (0, s') ∧
      (MovesRow s F A B s' ↔ (B.id, F.id) ∈ s.db.tagFile ∧ B.id ≠ A.id) :=
  ⟨_, tagRename_eq ha hb hf hst hdir hA hF, movesRow_iff⟩

def sampleEnv : Env := ⟨rootName, sampleStat⟩

/-- The store after `mkdir x`, `mkdir y` and a link of `f` into each directory of `ds`. -/
def sampleLinked (ds : List CStr) : Except Fault Store :=
  forEach ds (fun s d => do
    let r ← tagLink sampleEnv s (samplePath [] nameF) (samplePath [d] nameF)
    .ok r.2) (tagMkdir (tagMkdir .init (samplePath [] nameX)).2 (samplePath [] nameY)).2

/-- The tags `x` and `y` are numbered 0 and 1, the file `f` is numbered 0. -/
def sampleStore (rows : List (ℤ × ℤ)) : Store where
  tags := ⟨[(nameX, 0), (nameY, 1)]⟩
  tagHeap := ⟨[some ⟨0, nameX⟩, some ⟨1, nameY⟩]⟩
  nextTagId := 2
  files := ⟨[(nameF, ⟨0, nameF⟩)]⟩
  nextFileId := 1
  db := ⟨[(0, nameX), (1, nameY)], [(0, nameF)], rows⟩

example : sampleLinked [nameX, nameY] = .ok (sampleStore [(0, 0), (1, 0)]) := by rfl

theorem rename_movesRow_sample : ∃ s',
    tagRename sampleEnv (sampleStore [(0, 0), (1, 0)]) (samplePath [nameX] nameF)
      (samplePath [nameY] nameF) = .ok (0, s') ∧
      (MovesRow (sampleStore [(0, 0), (1, 0)]) ⟨0, nameF⟩ ⟨0, nameX⟩ ⟨1, nameY⟩ s' ↔
        ((1 : ℤ), (0 : ℤ)) ∈ [((0 : ℤ), (0 : ℤ)), (1, 0)] ∧ (1 : ℤ) ≠ 0) :=
  rename_movesRow_iff (by decide) (by decide) (by decide) rfl rfl rfl rfl rfl

/-- `mkdir x`, `mkdir y`, `link f x/f` and `rename x/f y/f`: the rename answers 0 and `f` has
lost its only tag. -/
theorem rename_row_lost : sampleLinked [nameX] = .ok (sampleStore [(0, 0)]) ∧
    sampleEnv.stat (appendDir rootName nameF) = some ⟨2, false, 5⟩ ∧
    Registered (sampleStore [(0, 0)]) nameX ⟨0, nameX⟩ ∧
    Registered (sampleStore [(0, 0)]) nameY ⟨1, nameY⟩ ∧
    (sampleStore [(0, 0)]).files.get? nameF = some ⟨0, nameF⟩ ∧
    ((0 : ℤ), (0 : ℤ)) ∈ (sampleStore [(0, 0)]).db.tagFile ∧
    tagRename sampleEnv (sampleStore [(0, 0)]) (samplePath [nameX] nameF)
      (samplePath [nameY] nameF) = .ok (0, sampleStore []) ∧
    ¬ MovesRow (sampleStore [(0, 0)]) ⟨0, nameF⟩ ⟨0, nameX⟩ ⟨1, nameY⟩ (sampleStore []) := by
  refine ⟨rfl, rfl, rfl, rfl, rfl, by decide, rfl, ?_⟩
  intro h
  have hy : ((1 : ℤ), (0 : ℤ)) ∈ ([] : List (ℤ × ℤ)) := (h.1 1).mpr (.inr rfl)
  exact absurd hy (List.not_mem_nil)

end TagFilesystem.FuseSqlite3
