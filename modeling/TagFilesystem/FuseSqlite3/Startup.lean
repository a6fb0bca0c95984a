import TagFilesystem.FuseSqlite3.Refinement
import TagFilesystem.Fuse.RoundTrip
import TagFilesystem.Fuse.Startup

namespace TagFilesystem.FuseSqlite3

variable {env : Env} {s s' : Store} {F : File} {n k w text : CStr} {C : Catalogue CStr CStr}
  {cur : Option File} {name : Option CStr}

open Fuse (Entry entryOf)

/-- `getattr` does not fail. -/
def PathQuery.Found (q : PathQuery) (env : Env) (C : Catalogue CStr CStr) : Prop :=
  ∃ res st, 0 ≤ res ∧ q.Gives env C res st

open Classical in
/-- The current file and the catalogue after a line. A tag without a file is put in use. -/
noncomputable def readEntry (env : Env) (r : Option CStr × Catalogue CStr CStr) :
    Entry → Option CStr × Catalogue CStr CStr
  | .nothing => r
  | .file n => (if (PathQuery.of env n false).Found env r.2 then some n else none, r.2)
  | .tag k =>
    match r.1 with
    | some n => (some n, r.2.tag n [k])
    | none => (none, r.2.use k)

noncomputable def readEntries (env : Env) (es : List Entry) : Option CStr × Catalogue CStr CStr :=
  es.foldl (readEntry env) (none, .empty)

/-- The catalogue that a text describes. -/
noncomputable def databaseCatalogue (env : Env) (text : CStr) : Catalogue CStr CStr :=
  (readEntries env ((fgets maxLength text).map entryOf)).2

/-- The parser is where the lines have brought it. -/
structure Parsed (r : Option File × Store) (m : Option CStr × Catalogue CStr CStr) : Prop where
  numbered : r.2.Numbered
  catalogue : r.2.catalogue = m.2
  current : Option.Rel (fun n F => r.2.files.get? n = some F) m.1 r.1

def parserGetattr (env : Env) : Getattr := fun s p => (fun r => (r.1, r.2.2)) <$> tagGetattr env s p

theorem parseLine_nothing {getattr : Getattr} {r : Option File × Store} (h : entryOf w = .nothing) :
    parseLine getattr r w = .ok r := by
  unfold entryOf at h
  unfold parseLine
  split_ifs at h ⊢ with hsign
  · rfl
  · cases hw : w.dropWhile isspace with
    | nil => rfl
    | cons c rest =>
      rw [hw] at h
      dsimp only at h
      split_ifs at h

theorem parseLine_file {getattr : Getattr} (h : entryOf w = .file n) :
    parseLine getattr (cur, s) w = getattr s n >>= fun r =>
      if r.1 ≥ 0 then .ok (some (fileGetOrCreate r.2 n).1, (fileGetOrCreate r.2 n).2)
      else .ok (none, r.2) := by
  obtain ⟨hsign, rest, hw, rfl⟩ := Fuse.entryOf_eq_file.mp h
  unfold parseLine
  rw [if_neg hsign, hw]
  rfl

theorem parseLine_tag {getattr : Getattr} (h : entryOf w = .tag k) : k ≠ [] ∧
    ∃ word, copyWordUntil word newline = k ∧
      parseLine getattr (cur, s) w = parseTag s cur word >>= fun s' => .ok (cur, s') := by
  obtain ⟨hsign, c, rest, hw, hc, rfl⟩ := Fuse.entryOf_eq_tag.mp h
  have hne : c ≠ newline := by
    rintro rfl
    exact absurd (Fuse.isspace_of_dropWhile hw) (by decide)
  refine ⟨by simp [hne], c :: rest, rfl, ?_⟩
  unfold parseLine
  rw [if_neg hsign, hw]
  exact if_neg hc

theorem Store.Numbered.tagGetOrCreate (h : s.Numbered) (k : CStr) :
    (tagGetOrCreate s k).2.Numbered ∧ (tagGetOrCreate s k).2.catalogue = s.catalogue.use k ∧
      (tagGetOrCreate s k).2.tags.get? k = some (tagGetOrCreate s k).1 ∧
      (tagGetOrCreate s k).2.files = s.files := by
  cases hk : s.tags.get? k with
  | none =>
    rw [tagGetOrCreate_new hk]
    exact ⟨(h.addTag hk).1, (h.addTag hk).2, Table.get?_add_self, rfl⟩
  | some t =>
    have heq : FuseSqlite3.tagGetOrCreate s k = (t, s) := by rw [FuseSqlite3.tagGetOrCreate, hk]
    have hused : s.catalogue.used k := by
      show (s.tags.get? k).isSome = true
      rw [hk]
      rfl
    rw [heq]
    exact ⟨h, (Catalogue.use_of_used hused).symm, hk, rfl⟩

theorem returns_parseTag_reads {m : Option CStr × Catalogue CStr CStr} {r : Option File × Store}
    (h : Parsed r m) (hword : copyWordUntil w newline = k) (hk : k ≠ []) :
    Sat (fun _ => False) (parseTag r.2 r.1 w) fun s' => Parsed (r.1, s') (readEntry env m (.tag k)) := by
  obtain ⟨cur, s⟩ := r
  obtain ⟨name, C⟩ := m
  obtain ⟨hs, rfl, hcur⟩ := h
  obtain ⟨hs₁, hcat, ht, hfiles⟩ := hs.tagGetOrCreate k
  simp only [parseTag, hword, if_neg hk]
  cases hcur with
  | none => exact ⟨hs₁, hcat, .none⟩
  | @some n F hF =>
    have hF₁ : (tagGetOrCreate s k).2.files.get? n = some F := hfiles ▸ hF
    obtain ⟨T, hT, -⟩ := hs₁.sound.tagEntry ht
    obtain ⟨hs₂, hcat₂⟩ := hs₁.dbTagFile ht hT hF₁
    dsimp only
    rw [tagFile_withRows hT]
    refine ⟨hs₂, ?_, .some hF₁⟩
    rw [hcat₂, hcat, Catalogue.use_tag]
    rfl

theorem PathQuery.Gives.finds {q : PathQuery} {res : ℤ} {st : Option Stat} (h : q.Gives env C res st) :
    q.Found env C ↔ 0 ≤ res := by
  constructor
  · rintro ⟨res', st', hpos, h'⟩
    rwa [h.unique h']
  · exact fun hpos => ⟨res, st, hpos, h⟩

theorem returns_parseFile_reads {m : Option CStr × Catalogue CStr CStr} {r : Option File × Store}
    (h : Parsed r m) (n : CStr) :
    Returns (parserGetattr env r.2 n >>= fun r => if r.1 ≥ 0 then
      .ok (some (fileGetOrCreate r.2 n).1, (fileGetOrCreate r.2 n).2) else .ok (none, r.2))
        fun r' => Parsed r' (readEntry env m (.file n)) := by
  obtain ⟨cur, s⟩ := r
  obtain ⟨name, C⟩ := m
  obtain ⟨hs, rfl, -⟩ := h
  refine Sat.bind (P := fun r => Looked s r.2 ∧
    ((PathQuery.of env n false).Found env s.catalogue ↔ 0 ≤ r.1)) (sat_map.mpr ?_) ?_
  · apply (@returns_getattrIntra_gives env _ _ _ hs (pathCreate_standsFor env s n false)).mono
    exact fun r hr => ⟨hr.1, hr.2.finds⟩
  · rintro ⟨res, s₁⟩ ⟨hlook, hfound⟩
    dsimp only at hlook hfound ⊢
    obtain ⟨hs₂, hcat, hF⟩ := hlook.numbered.fileGetOrCreate n
    split_ifs with hres
    · refine ⟨hs₂, hcat.trans hlook.catalogue, ?_⟩
      rw [readEntry, if_pos (hfound.mpr hres)]
      exact .some hF
    · refine ⟨hlook.numbered, hlook.catalogue, ?_⟩
      rw [readEntry, if_neg (mt hfound.mp hres)]
      exact .none

theorem returns_parseLine_reads {m : Option CStr × Catalogue CStr CStr} {r : Option File × Store}
    (h : Parsed r m) (w : CStr) :
    Returns (parseLine (parserGetattr env) r w) fun r' => Parsed r' (readEntry env m (entryOf w)) := by
  obtain ⟨cur, s⟩ := r
  cases he : entryOf w with
  | nothing =>
    rw [parseLine_nothing he]
    exact h
  | file n =>
    rw [parseLine_file he]
    exact returns_parseFile_reads h n
  | tag k =>
    obtain ⟨hk, word, hword, hline⟩ : k ≠ [] ∧ ∃ word, copyWordUntil word newline = k ∧
        parseLine (parserGetattr env) (cur, s) w = parseTag s cur word >>= fun s' => .ok (cur, s') :=
      parseLine_tag he
    rw [hline]
    exact ((returns_parseTag_reads h hword hk).weaken fun _ => False.elim).bind fun _ hs' => hs'

theorem parsed_init : Parsed (none, .init) (none, .empty) where
  numbered := Store.numbered_init
  catalogue := by
    refine Catalogue.ext_iff_forall.mpr ⟨fun n k => iff_of_false ?_ id, fun k => iff_of_false ?_ id⟩
    · rintro ⟨F, -, hF, -⟩
      cases hF
    · intro hk
      cases hk
  current := .none

theorem returns_setRootDirectory_catalogue (env : Env) (text : CStr) :
    Returns (setRootDirectory env text) fun s => s.Numbered ∧ s.catalogue = databaseCatalogue env text := by
  have hlines : Returns (forEach (fgets maxLength text) (parseLine (parserGetattr env)) (none, .init))
      fun r => Parsed r (readEntries env ((fgets maxLength text).map entryOf)) := by
    refine sat_forEach_visited (fun ws r => Parsed r (readEntries env (ws.map entryOf))) ?_ parsed_init
    rintro ws w ws' r - hr
    rw [List.map_append, readEntries, List.foldl_append]
    exact returns_parseLine_reads hr w
  exact hlines.bind fun r hr => ⟨hr.numbered, hr.catalogue⟩

theorem components_dirname_plain (hn : slash ∉ n) : components (dirname n) = [] := by
  rw [Fuse.dirname_plain hn]
  rfl

theorem getattrIntra_plain {p : Path} (hp : p.selectedTags.size = 0) :
    ∃ r, getattrIntra env s p = .ok r := by
  unfold getattrIntra
  cases env.stat p.realpath with
  | none => exact ⟨_, rfl⟩
  | some st =>
    dsimp only
    rw [if_neg (show ¬ p.selectedTags.size > 0 by omega)]
    split_ifs
    · exact ⟨_, rfl⟩
    · exact ⟨_, rfl⟩
    · exact ⟨_, rfl⟩

theorem parseLine_plain {m : Option CStr × Catalogue CStr CStr} {r : Option File × Store}
    (h : Parsed r m) (hw : ∀ n, entryOf w = .file n → slash ∉ n) :
    ∃ r', parseLine (parserGetattr env) r w = .ok r' := by
  obtain ⟨cur, s⟩ := r
  cases he : entryOf w with
  | nothing => exact ⟨_, parseLine_nothing he⟩
  | file n =>
    have hsize : (pathCreate env s n false).selectedTags.size = 0 := by
      have hkeys := (pathCreate_standsFor env s n false).keys
      rw [show (PathQuery.of env n false).tags = [] from components_dirname_plain (hw n he)] at hkeys
      exact List.length_eq_zero_iff.mpr (List.map_eq_nil_iff.mp hkeys)
    obtain ⟨⟨res, st, s₁⟩, hrun⟩ := @getattrIntra_plain env s _ hsize
    have hget : parserGetattr env s n = .ok (res, s₁) := by
      rw [parserGetattr, tagGetattr, hrun]
      rfl
    rw [parseLine_file he, hget, ok_bind]
    split_ifs
    · exact ⟨_, rfl⟩
    · exact ⟨_, rfl⟩
  | tag k =>
    obtain ⟨hk, word, hword, hline⟩ : k ≠ [] ∧ ∃ word, copyWordUntil word newline = k ∧
        parseLine (parserGetattr env) (cur, s) w = parseTag s cur word >>= fun s' => .ok (cur, s') :=
      parseLine_tag he
    have hread := @returns_parseTag_reads env _ _ m (cur, s) h hword hk
    obtain ⟨s', hs', -⟩ := hread.exists_ok
    dsimp only at hs'
    rw [hline, hs']
    exact ⟨_, rfl⟩

theorem setRootDirectory_plain
    (hplain : ∀ n, .file n ∈ (fgets maxLength text).map entryOf → slash ∉ n) :
    ∃ s, setRootDirectory env text = .ok s ∧ s.Numbered ∧ s.catalogue = databaseCatalogue env text := by
  have hlines : Sat (fun _ => False)
      (forEach (fgets maxLength text) (parseLine (parserGetattr env)) (none, .init))
      fun r => Parsed r (readEntries env ((fgets maxLength text).map entryOf)) := by
    refine sat_forEach_visited (fun ws r => Parsed r (readEntries env (ws.map entryOf))) ?_ parsed_init
    rintro ws w ws' r hsplit hr
    have hw (n : CStr) (hn : entryOf w = .file n) : slash ∉ n := by
      apply hplain n
      rw [← hsplit, ← hn]
      simp
    obtain ⟨r', hrun⟩ : ∃ r', parseLine (parserGetattr env) r w = .ok r' := parseLine_plain hr hw
    rw [hrun, sat_ok, List.map_append, readEntries, List.foldl_append]
    exact (returns_parseLine_reads hr w).of_ok hrun
  obtain ⟨r, hrun, hr⟩ := hlines.exists_ok
  refine ⟨r.2, ?_, hr.numbered, hr.catalogue⟩
  exact congrArg (fun m => m >>= fun r => .ok r.2) hrun

/-- A file name that can be written on a line of its own in brackets, and that is found again. -/
structure FileNameOk (env : Env) (n : CStr) : Prop where
  name : IsName n
  newline : newline ∉ n
  bracket : closeBracket ∉ n
  length : n.length ≤ 996
  found : (env.stat (appendDir env.realdirpath n)).any (fun st => !st.isDir) = true

/-- What the lines of a file and its tags say. -/
def blockEntries (b : CStr × List CStr) : List Entry := .file b.1 :: (b.2.map .tag ++ [.nothing])

theorem entryOf_fileLine (hn : closeBracket ∉ n) :
    entryOf (openBracket :: n ++ [closeBracket] ++ [newline]) = .file n := by
  apply Fuse.entryOf_eq_file.mpr
  refine ⟨by simp [show openBracket ≠ numberSign by decide], n ++ closeBracket :: [newline], ?_, ?_⟩
  · simp [show isspace openBracket = false by decide]
  · exact Fuse.takeWhile_stop hn

theorem entryOf_tagLine (hk : Fuse.TagNameOk k) : entryOf (k ++ [newline]) = .tag k := by
  obtain ⟨c, k₁, rfl⟩ := List.exists_cons_of_ne_nil hk.ne_nil
  obtain ⟨hspace, hsign, hbracket⟩ := hk.head c rfl
  apply Fuse.entryOf_eq_tag.mpr
  refine ⟨by simp [hsign], c, k₁ ++ [newline], by simp [hspace], hbracket, ?_⟩
  exact Fuse.takeWhile_stop hk.newline

theorem entries_block {b : CStr × List CStr} (hn : closeBracket ∉ b.1)
    (hk : ∀ k ∈ b.2, Fuse.TagNameOk k) :
    ((Fuse.blockLines b).map fun l => l ++ [newline]).map entryOf = blockEntries b := by
  have hempty : entryOf [newline] = .nothing := by decide
  have htags : b.2.map (fun k => entryOf (k ++ [newline])) = b.2.map Entry.tag :=
    List.map_congr_left fun k hkb => entryOf_tagLine (hk k hkb)
  simp only [Fuse.blockLines, List.map_cons, List.map_append, List.map_map, List.map_nil, List.nil_append,
    entryOf_fileLine hn, hempty, blockEntries]
  exact congrArg (fun es => Entry.file b.1 :: (es ++ [.nothing])) htags

theorem FileNameOk.found_of (h : FileNameOk env n) : (PathQuery.of env n false).Found env C := by
  have hreal : pathRealpath env n = appendDir env.realdirpath n :=
    congrArg (appendDir env.realdirpath) (basename_name h.name)
  obtain ⟨st, hst, hfile⟩ := (Option.any_eq_true _ _).mp h.found
  have htags : (PathQuery.of env n false).tags = [] := components_dirname_plain h.name.2
  have hmatches : (PathQuery.of env n false).Matches C := by
    rw [PathQuery.Matches, htags]
    exact ⟨List.nodup_nil, by simp [Catalogue.Has]⟩
  exact ⟨0, _, le_refl _, .found (hreal ▸ hst) (by simpa using hfile) hmatches⟩

theorem foldl_blockEntries {b : CStr × List CStr} (h : FileNameOk env b.1) :
    (blockEntries b).foldl (readEntry env) (name, C) = (some b.1, C.tag b.1 b.2) := by
  have htags (ks : List CStr) (C : Catalogue CStr CStr) :
      (ks.map Entry.tag).foldl (readEntry env) (some b.1, C) = (some b.1, C.tag b.1 ks) := by
    induction ks generalizing C with
    | nil => rw [Catalogue.tag_nil]; rfl
    | cons k ks ih =>
      rw [List.map_cons, List.foldl_cons, readEntry, ih, Catalogue.tag_tag]
      rfl
  rw [blockEntries, List.foldl_cons, List.foldl_append, readEntry, if_pos h.found_of, htags]
  rfl

theorem foldl_blocks {bs : List (CStr × List CStr)} (h : ∀ b ∈ bs, FileNameOk env b.1) :
    ((bs.flatMap blockEntries).foldl (readEntry env) (name, C)).2 =
      bs.foldl (fun C b => C.tag b.1 b.2) C := by
  induction bs generalizing name C with
  | nil => rfl
  | cons b bs ih =>
    rw [List.flatMap_cons, List.foldl_append, foldl_blockEntries (h b List.mem_cons_self),
      ih fun b' hb' => h b' (List.mem_cons_of_mem b hb')]
    rfl

section Blocks

variable {bs : List (CStr × List CStr)}
  (h : ∀ b ∈ bs, FileNameOk env b.1 ∧ ∀ k ∈ b.2, Fuse.TagNameOk k)
include h

theorem fgets_blocks : fgets maxLength (Fuse.lineText (bs.flatMap Fuse.blockLines)) =
    (bs.flatMap Fuse.blockLines).map fun l => l ++ [newline] := by
  apply Fuse.fgets_lineText
  intro l hl
  obtain ⟨b, hb, hl⟩ := List.mem_flatMap.mp hl
  obtain ⟨hn, hk⟩ := h b hb
  simp only [Fuse.blockLines, List.mem_cons, List.mem_append, List.not_mem_nil, or_false] at hl
  rcases hl with rfl | hl | rfl
  · have hno : newline ≠ openBracket ∧ newline ≠ closeBracket := by decide
    have hlen := hn.length
    refine ⟨by simp [hn.newline, hno.1, hno.2], ?_⟩
    simp only [maxLength, List.cons_append, List.length_cons, List.length_append, List.length_nil]
    omega
  · have hlen := (hk l hl).length
    refine ⟨(hk l hl).newline, ?_⟩
    simp only [maxLength]
    omega
  · simp [maxLength]

theorem entries_blocks : (fgets maxLength (Fuse.lineText (bs.flatMap Fuse.blockLines))).map entryOf =
    bs.flatMap blockEntries := by
  rw [fgets_blocks h]
  induction bs with
  | nil => rfl
  | cons b bs ih =>
    obtain ⟨hn, hk⟩ := h b List.mem_cons_self
    rw [List.flatMap_cons, List.map_append, List.map_append, entries_block hn.bracket hk,
      ih fun b' hb' => h b' (List.mem_cons_of_mem b hb'), List.flatMap_cons]

theorem databaseCatalogue_blocks :
    databaseCatalogue env (Fuse.lineText (bs.flatMap Fuse.blockLines)) =
      bs.foldl (fun C b => C.tag b.1 b.2) .empty := by
  rw [databaseCatalogue, readEntries, entries_blocks h]
  exact foldl_blocks fun b hb => (h b hb).1

end Blocks

/-- The text that `fuse/` writes for a store brings up the other daemon with the relation of that
store, and with the tags that some file has. -/
theorem written_text_read {S : Fuse.Store}
    (hok : ∀ n k, S.Marks n k → FileNameOk env n ∧ Fuse.TagNameOk k)
    (hdump : Fuse.tagDbDump S = .ok text) :
    ∃ s, setRootDirectory env text = .ok s ∧ (∀ n k, s.catalogue.carries n k ↔ S.Marks n k) ∧
      ∀ k, s.catalogue.used k ↔ ∃ n, S.Marks n k := by
  obtain ⟨bs, rfl, hne, hrel⟩ := Fuse.sat_tagDbDump.of_ok hdump
  have hbs : ∀ b ∈ bs, FileNameOk env b.1 ∧ ∀ k ∈ b.2, Fuse.TagNameOk k := by
    intro b hb
    have hb' (k) (hk : k ∈ b.2) := hok b.1 k ((hrel b.1 k).mpr ⟨b, hb, rfl, hk⟩)
    obtain ⟨k, hk⟩ := List.exists_mem_of_ne_nil _ (hne b hb)
    exact ⟨(hb' k hk).1, fun k hk => (hb' k hk).2⟩
  have hplain (n) (hn : .file n ∈ (fgets maxLength (Fuse.lineText (bs.flatMap Fuse.blockLines))).map
      entryOf) : slash ∉ n := by
    rw [entries_blocks hbs] at hn
    obtain ⟨b, hb, hn⟩ := List.mem_flatMap.mp hn
    simp only [blockEntries, List.mem_cons, List.mem_append, List.mem_map, List.not_mem_nil, reduceCtorEq,
      and_false, exists_false, or_false, Entry.file.injEq] at hn
    rw [hn]
    exact (hbs b hb).1.name.2
  obtain ⟨s, hs, -, hcat⟩ : ∃ s, setRootDirectory env (Fuse.lineText (bs.flatMap Fuse.blockLines)) = .ok s ∧ _ :=
    setRootDirectory_plain hplain
  refine ⟨s, hs, fun n k => ?_, fun k => ?_⟩
  · rw [hcat, databaseCatalogue_blocks hbs, Catalogue.carries_foldl_tag, hrel]
    exact or_iff_right id
  · rw [hcat, databaseCatalogue_blocks hbs, Catalogue.used_foldl_tag]
    simp only [hrel]
    constructor
    · rintro (hno | ⟨b, hb, hk⟩)
      · exact hno.elim
      · exact ⟨b.1, b, hb, rfl, hk⟩
    · rintro ⟨n, b, hb, -, hk⟩
      exact .inr ⟨b, hb, hk⟩

/-- The file `f` has been linked into `/x/y` there. -/
theorem written_text_read_sample : ∃ S text s, execute Fuse.step (fun _ _ => True)
    [⟨Fuse.sampleEnv, .link (samplePath [] nameF) (samplePath [nameX, nameY] nameF)⟩] .init = some S ∧
    Fuse.tagDbDump S = .ok text ∧ setRootDirectory sampleEnv text = .ok s ∧
    ∀ n k, s.catalogue.carries n k ↔ S.Marks n k := by
  have hrun : (execute Fuse.step (fun _ _ => True)
      [⟨Fuse.sampleEnv, .link (samplePath [] nameF) (samplePath [nameX, nameY] nameF)⟩] .init).any (fun S =>
        returnsWith (Fuse.tagDbDump S) (fun _ => true) = true ∧
        ∀ f ∈ Fuse.fileList S, ∀ F ∈ S.fileHeap.get? f, F.name = nameF ∧
          ∀ e ∈ F.tags.entries, ∀ T ∈ S.tagHeap.get? e.2, T.value = nameX ∨ T.value = nameY) = true := by
    decide +kernel
  obtain ⟨S, hS, hp⟩ := (Option.any_eq_true _ _).mp hrun
  obtain ⟨htext, hnames⟩ := of_decide_eq_true hp
  obtain ⟨text, hdump, -⟩ := returnsWith_iff.mp htext
  have hfile : FileNameOk sampleEnv nameF := ⟨by decide, by decide, by decide, by decide, by decide⟩
  have htag (k : CStr) (hk : k = nameX ∨ k = nameY) : Fuse.TagNameOk k := by
    rcases hk with rfl | rfl
    all_goals
      refine ⟨by decide, by decide, by decide, fun c hc => ?_⟩
      obtain rfl := Option.some.inj hc
      decide
  have hok (n k) (hnk : S.Marks n k) : FileNameOk sampleEnv n ∧ Fuse.TagNameOk k := by
    obtain ⟨f, hf, F, hF, rfl, e, he, T, hT, rfl⟩ := hnk
    obtain ⟨hn, hall⟩ := hnames f hf F hF
    exact ⟨hn ▸ hfile, htag _ (hall e he T hT)⟩
  obtain ⟨s, hs, hrel, -⟩ := written_text_read hok hdump
  exact ⟨S, text, s, hS, hdump, hs, hrel⟩

end TagFilesystem.FuseSqlite3
