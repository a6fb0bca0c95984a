import TagFilesystem.Fuse.Grammar

namespace TagFilesystem.Fuse

variable {env : Env} {s : Store} {n k text : CStr}

/-- `n` names an entry of the target directory that is no directory. -/
def Env.IsFile (env : Env) (n : CStr) : Prop :=
  IsName n ∧ env.regular (appendDir env.realdirpath n) = true

instance (n : CStr) : Decidable (env.IsFile n) := inferInstanceAs (Decidable (_ ∧ _))

/-- What the pieces that `fgets` returns say. -/
def entriesOf (text : CStr) : List Entry := (fgets maxLength text).map entryOf

/-- The text names the tag `k` under the header `n`, whether or not there is such a file. -/
def ListedUnder (text n k : CStr) : Prop := Relates (fun _ => 0) (entriesOf text) n k

/-- Files that are missing have no tags, and what is listed for missing files only is attached to
no file. -/
structure Store.DropsMissing (s : Store) (env : Env) (text : CStr) : Prop where
  existing : ∀ n k, s.Carries n k → env.IsFile n
  dropped : ∀ k, (∀ n, ListedUnder text n k → ¬ env.IsFile n) → ∀ n, ¬ s.Carries n k

theorem dirname_plain (hn : slash ∉ n) : dirname n = dot := by
  by_cases hnil : n = []
  · subst hnil
    rfl
  · exact dirname_name ⟨hnil, hn⟩

/-- A name without slash has no components, so `tag_getattr` only makes a record. -/
theorem tagGetattr_plain (hs : s.Typed) (hn : slash ∉ n) :
    ∃ res st, tagGetattr env s n = .ok (res, st, getattrStore env s (pathOf env n .empty)) ∧
      (res = 0 ∧ Accepts env s (pathOf env n .empty) ∨
        res < 0 ∧ ¬ Accepts env s (pathOf env n .empty)) := by
  have hpath : pathCreate env s n false = .ok (pathOf env n .empty, s) := by
    simp only [pathCreate, pathOf, Bool.false_eq_true, if_false, dirname_plain hn, computeSelectedTags,
      if_true, ok_bind]
  have hintra := @sat_getattrIntra env _ (fun _ => False) (pathOf env n .empty) hs
    (by simp [Path.held, pathOf])
  obtain ⟨⟨res, st, s'⟩, hrun, hs', hres⟩ := hintra.exists_ok
  dsimp only at hs' hres
  subst hs'
  refine ⟨res, st, ?_, hres⟩
  rw [tagGetattr, hpath, ok_bind]
  dsimp only
  rw [hrun]
  rfl

theorem accepts_plain (hroot : (env.stat env.realdirpath).isSome = true) :
    Accepts env s (pathOf env n .empty) := by
  unfold Accepts
  split_ifs
  · simp [Path.held, pathOf]
  · exact hroot

theorem answers_tagGetattr (hroot : (env.stat env.realdirpath).isSome = true) (hn : slash ∉ n) :
    Answers (fun s p => (fun r => (r.1, r.2.2)) <$> tagGetattr env s p) (fun _ => 0) n := by
  intro s ht hc
  obtain ⟨res, st, hrun, hres⟩ := @tagGetattr_plain env _ _ ht hn
  have hzero : res = 0 := (hres.resolve_right fun h => h.2 (accepts_plain hroot)).1
  refine ⟨res, getattrStore env s (pathOf env n .empty), ?_, by simp [hzero], ?_⟩
  · exact map_eq_ok.mpr ⟨_, hrun, rfl⟩
  · exact ⟨typed_getattrStore ht, coherent_getattrStore ht hc, getattrStore_tags,
      getattrStore_tagHeap, fun _ _ => carries_getattrStore⟩

theorem setRootDirectory_describes (hroot : (env.stat env.realdirpath).isSome = true)
    (hplain : ∀ n, .file n ∈ entriesOf text → slash ∉ n) :
    ∃ s, setRootDirectory env (some text) = .ok s ∧ Describes (fun _ => 0) (entriesOf text) s :=
  parseTagsDb2_of_answers env text fun n hn => answers_tagGetattr hroot (hplain n hn)

/-- For every target directory and every text whose headers have no slash, the start-up drops the
entries of missing files iff there are none: every header with a tag under it names a file. -/
theorem setRootDirectory_dropsMissing_iff (env : Env) (text : CStr)
    (hroot : (env.stat env.realdirpath).isSome = true)
    (hplain : ∀ n, .file n ∈ entriesOf text → slash ∉ n) :
    ∃ s, setRootDirectory env (some text) = .ok s ∧
      (s.DropsMissing env text ↔ ∀ n k, ListedUnder text n k → env.IsFile n) := by
  obtain ⟨s, hs, hd⟩ := setRootDirectory_describes hroot hplain
  have hcar (n k : CStr) : s.Carries n k ↔ ListedUnder text n k := hd.carries n k
  refine ⟨s, hs, fun h n k hnk => h.existing n k ((hcar n k).mpr hnk), fun h => ⟨?_, ?_⟩⟩
  · intro n k hnk
    exact h n k ((hcar n k).mp hnk)
  · intro k hmissing n hnk
    have hlisted := (hcar n k).mp hnk
    exact hmissing n hlisted (h n k hlisted)

/-- The file `f` with the tag `x`. -/
def blockF : CStr := cstr [91, 102, 93, 10, 120, 10]

/-- The same for `x`, which is no file of the sample directory, and the tag `y`. -/
def blockX : CStr := cstr [91, 120, 93, 10, 121, 10]

theorem setRootDirectory_dropsMissing_sample :
    ∃ s, setRootDirectory sampleEnv (some blockF) = .ok s ∧ s.DropsMissing sampleEnv blockF := by
  have hentries : entriesOf blockF = [.file nameF, .tag nameX] := by decide
  have hplain : ∀ n, .file n ∈ entriesOf blockF → slash ∉ n := by
    intro n hn
    rw [hentries] at hn
    obtain rfl : n = nameF := by simpa using hn
    decide
  obtain ⟨s, hs, hiff⟩ := setRootDirectory_dropsMissing_iff sampleEnv blockF (by decide) hplain
  refine ⟨s, hs, hiff.mpr fun n k hnk => ?_⟩
  rw [ListedUnder, hentries] at hnk
  obtain hno | ⟨hcur, -⟩ := (@relates_append _ _ _ _ [.file nameF]).mp hnk
  · obtain hno | ⟨-, hno⟩ := (@relates_append _ _ _ _ []).mp hno
    · exact absurd hno relates_nil
    · cases hno
  · obtain rfl : nameF = n := Option.some.inj hcur
    decide

/-- The tag `y` is attached to a record for the missing file `x`. -/
theorem missing_file_tagged : ¬ ∀ env text s, (env.stat env.realdirpath).isSome = true →
    (∀ n, .file n ∈ entriesOf text → slash ∉ n) → setRootDirectory env (some text) = .ok s →
    s.DropsMissing env text := by
  intro h
  have hrun : returnsWith (setRootDirectory sampleEnv (some blockX)) (fun s => s.Carries nameX nameY) =
      true := by decide +kernel
  obtain ⟨s, hs, hp⟩ := returnsWith_iff.mp hrun
  have hentries : entriesOf blockX = [.file nameX, .tag nameY] := by decide
  have hd := h sampleEnv blockX s (by decide) (fun n hn => ?_) hs
  · exact absurd (hd.existing nameX nameY (of_decide_eq_true hp)) (by decide)
  · rw [hentries] at hn
    obtain rfl : n = nameX := by simpa using hn
    decide

end TagFilesystem.Fuse
