import TagFilesystem.Fuse.Listing
import TagFilesystem.FuseSqlite3.Queries
import TagFilesystem.FuseSqlite3.Rename

namespace TagFilesystem.FuseSqlite3

variable {db : Database} {carries : CStr → CStr → Prop} {ks : List CStr} {k : CStr}
  {sel : HashTable (Option TagId)}

/-- The rows relate files and tags as `carries` does, and each of them names a file. -/
structure Database.Holds (db : Database) (carries : CStr → CStr → Prop) : Prop where
  fileNames : (db.file.map Prod.snd).Nodup
  rowFile : ∀ r ∈ db.tagFile, r.2 ∈ db.file.map Prod.fst
  carries_iff : ∀ n k, carries n k ↔
    ∃ i j, (i, k) ∈ db.tag ∧ (i, j) ∈ db.tagFile ∧ (j, n) ∈ db.file

/-- In terms of the relation, the SQL query shows the tags that share a file with one of `ks`. -/
theorem mem_dbListRemainingTags_of_holds [Sqlite] (h : db.Holds carries) (hne : sel.keys ≠ [])
    (hquote : ∀ k ∈ sel.keys, singleQuote ∉ k) : k ∈ (dbListRemainingTags db sel).2 ↔
      k ∉ sel.keys ∧ ∃ n, (∃ k' ∈ sel.keys, carries n k') ∧ carries n k := by
  rw [(mem_dbListRemainingTags hne hquote).2]
  refine and_congr_right fun _ => ?_
  constructor
  · rintro ⟨i, hk, j, hij, i', hij', k', hk', hmem⟩
    obtain ⟨⟨j, n⟩, hn, rfl⟩ := List.mem_map.mp (h.rowFile (i, j) hij)
    exact ⟨n, ⟨k', hmem, (h.carries_iff n k').mpr ⟨i', j, hk', hij', hn⟩⟩,
      (h.carries_iff n k).mpr ⟨i, j, hk, hij, hn⟩⟩
  · rintro ⟨n, ⟨k', hmem, hn'⟩, hn⟩
    obtain ⟨i, j, hk, hij, hj⟩ := (h.carries_iff n k).mp hn
    obtain ⟨i', j', hk', hij', hj'⟩ := (h.carries_iff n k').mp hn'
    -- the two rows of the table `file` are one, as they have the same name
    have hsame : (j, n) = (j', n) := List.inj_on_of_nodup_map h.fileNames hj hj' rfl
    cases hsame
    exact ⟨i, hk, j, hij, i', hij', k', hk', hmem⟩

/-- The further tags of a file that has some of the tags `ks`, but not all, are also tags of a
file that has all of them. -/
def Covered (carries : CStr → CStr → Prop) (ks : List CStr) : Prop :=
  ∀ n, (∃ k ∈ ks, carries n k) → (∃ k ∈ ks, ¬carries n k) →
    ∀ u, u ∉ ks → carries n u → ∃ m, (∀ k ∈ ks, carries m k) ∧ carries m u

/-- One of the tags or all of them comes to the same exactly when `Covered` holds. -/
theorem one_iff_all (hne : ks ≠ []) :
    (∀ u, (u ∉ ks ∧ ∃ n, (∃ k ∈ ks, carries n k) ∧ carries n u) ↔
      (u ∉ ks ∧ ∃ n, (∀ k ∈ ks, carries n k) ∧ carries n u)) ↔ Covered carries ks := by
  constructor
  · intro h n hone _ u hu hn
    exact ((h u).mp ⟨hu, n, hone, hn⟩).2
  · intro h u
    refine and_congr_right fun hu => ⟨?_, ?_⟩
    · rintro ⟨n, hone, hn⟩
      by_cases hall : ∀ k ∈ ks, carries n k
      · exact ⟨n, hall, hn⟩
      · have hmiss : ∃ k ∈ ks, ¬carries n k := by simpa using hall
        exact h n hone hmiss u hu hn
    · rintro ⟨n, hall, hn⟩
      obtain ⟨k, hk⟩ := List.exists_mem_of_ne_nil ks hne
      exact ⟨n, ⟨k, hk, hall k hk⟩, hn⟩

/-- Over tables that hold the relation of the store, both listings succeed. The hash tables give
the other tags of the files that have all selected tags, and SQL gives the same exactly when
`Covered` holds. -/
theorem remainingTags_agree_iff [Sqlite] {s : Fuse.Store} {selected : HashTable Fuse.TagId}
    (h : s.Typed) (hc : s.Coherent) (hsel : s.Registered selected) (hne : selected.entries ≠ [])
    (hdb : db.Holds s.Carries) (hquote : ∀ k ∈ selected.keys, singleQuote ∉ k)
    (hsame : ∀ k, k ∈ sel.keys ↔ k ∈ selected.keys) : ∃ out,
    Fuse.readdirListTagsMode2 s selected = .ok out ∧
      (∀ u, u ∈ out ↔ u ∉ selected.keys ∧
        ∃ n, (∀ k ∈ selected.keys, s.Carries n k) ∧ s.Carries n u) ∧
      (dbListRemainingTags db sel).1 = 0 ∧
      ((∀ u, u ∈ (dbListRemainingTags db sel).2 ↔ u ∈ out) ↔ Covered s.Carries selected.keys) := by
  obtain ⟨out, hout, -, hmem⟩ :=
    (Fuse.sat_readdirListTagsMode2 (E := fun _ => False) h hc (hsel.allLive h) (hsel.current h)
      hne).exists_ok
  have hkeys : selected.keys ≠ [] := by simpa [Table.keys] using hne
  obtain ⟨k₀, hk₀⟩ := List.exists_mem_of_ne_nil _ hkeys
  have hne' : sel.keys ≠ [] := List.ne_nil_of_mem ((hsame k₀).mpr hk₀)
  have hquote' (k) (hk : k ∈ sel.keys) : singleQuote ∉ k := hquote k ((hsame k).mp hk)
  refine ⟨out, hout, hmem, (mem_dbListRemainingTags hne' hquote').1, ?_⟩
  rw [← one_iff_all hkeys]
  simp only [mem_dbListRemainingTags_of_holds hdb hne' hquote', hsame, hmem]

def nameZ : CStr := cstr [122]

/-- `f` has the tags `x` and `z`, and `g` has `x` and `y`. -/
def sampleHashed : Fuse.Store where
  tags := ⟨[(nameX, 0), (nameZ, 1), (nameY, 2)]⟩
  tagHeap := ⟨[some ⟨nameX, ⟨[(nameF, 0), (nameG, 1)]⟩, true, 2⟩,
    some ⟨nameZ, ⟨[(nameF, 0)]⟩, true, 1⟩, some ⟨nameY, ⟨[(nameG, 1)]⟩, true, 1⟩]⟩
  files := ⟨[(nameF, 0), (nameG, 1)]⟩
  fileHeap := ⟨[some ⟨nameF, ⟨[(nameX, 0), (nameZ, 1)]⟩, .empty, 0⟩,
    some ⟨nameG, ⟨[(nameX, 0), (nameY, 2)]⟩, .empty, 0⟩]⟩
  fds := .empty
  leaked := .empty

def sampleTables : Database where
  tag := [(0, nameX), (1, nameY), (2, nameZ)]
  file := [(0, nameF), (1, nameG)]
  tagFile := [(0, 0), (2, 0), (0, 1), (1, 1)]

theorem sampleHashed_reached : execute Fuse.step Fuse.ReleaseHarmless
    [⟨Fuse.sampleEnv, .link (samplePath [] nameF) (samplePath [nameX, nameZ] nameF)⟩,
      ⟨Fuse.sampleEnv, .link (samplePath [] nameG) (samplePath [nameX, nameY] nameG)⟩] .init =
    some sampleHashed := by
  decide +kernel

example : (do
    let s := [nameX, nameY, nameZ].foldl (fun s k => (tagMkdir s (samplePath [] k)).2) .init
    let (_, s) ← tagLink sampleEnv s (samplePath [] nameF) (samplePath [nameX, nameZ] nameF)
    let (_, s) ← tagLink sampleEnv s (samplePath [] nameG) (samplePath [nameX, nameY] nameG)
    .ok s.db) = Except.ok sampleTables := rfl

theorem tidy_of_execute {es : List Fuse.Event} {s : Fuse.Store}
    (h : execute Fuse.step Fuse.ReleaseHarmless es .init = some s) : s.Tidy ∧ s.Coherent := by
  have h₀ : Fuse.setRootDirectory Fuse.sampleEnv none = .ok .init := rfl
  have hI := Fuse.coherence_sound.reaches h₀
    ((reaches_of_execute h).weaken fun _ _ => Fuse.coherence_permits)
  exact ⟨hI.1, hI.2.1⟩

/-- The files of a store with the tags of their records. -/
def carriedPairs (s : Fuse.Store) : List (CStr × CStr) :=
  s.files.entries.flatMap fun e => ((s.fileHeap.get? e.2).map fun F => F.tags.keys.map (e.1, ·)).getD []

theorem carries_iff_mem {s : Fuse.Store} {n k : CStr} (hu : s.files.Unique) :
    s.Carries n k ↔ (n, k) ∈ carriedPairs s := by
  simp only [carriedPairs, List.mem_flatMap]
  constructor
  · rintro ⟨f, hn, t, F, hF, hk⟩
    exact ⟨(n, f), Table.mem_of_get? hn, by simp [hF, Table.mem_keys_of_get? hk]⟩
  · rintro ⟨⟨m, f⟩, hmem, hpair⟩
    cases hF : s.fileHeap.get? f with
    | none => simp [hF] at hpair
    | some F =>
      obtain ⟨hk, rfl⟩ : k ∈ F.tags.keys ∧ m = n := by simpa [hF] using hpair
      obtain ⟨t, ht⟩ := Table.contains_iff_get?.mp (Table.contains_iff.mpr hk)
      exact ⟨f, hu.get?_eq_some.mpr hmem, t, F, hF, ht⟩

theorem carries_sampleHashed {n k : CStr} : sampleHashed.Carries n k ↔
    (n, k) ∈ [(nameF, nameX), (nameF, nameZ), (nameG, nameX), (nameG, nameY)] :=
  carries_iff_mem (by unfold Table.Unique; decide)

theorem sampleTables_holds : sampleTables.Holds sampleHashed.Carries := by
  refine ⟨by decide, by decide, fun n k => ?_⟩
  rw [carries_sampleHashed]
  simp [sampleTables, or_and_right, exists_or]
  tauto

/-- Now `f` has the tag `y` as well. -/
def coveredHashed : Fuse.Store where
  tags := ⟨[(nameX, 0), (nameZ, 1), (nameY, 2)]⟩
  tagHeap := ⟨[some ⟨nameX, ⟨[(nameF, 0), (nameG, 1)]⟩, true, 2⟩,
    some ⟨nameZ, ⟨[(nameF, 0)]⟩, true, 1⟩, some ⟨nameY, ⟨[(nameF, 0), (nameG, 1)]⟩, true, 2⟩]⟩
  files := ⟨[(nameF, 0), (nameG, 1)]⟩
  fileHeap := ⟨[some ⟨nameF, ⟨[(nameX, 0), (nameZ, 1), (nameY, 2)]⟩, .empty, 0⟩,
    some ⟨nameG, ⟨[(nameX, 0), (nameY, 2)]⟩, .empty, 0⟩]⟩
  fds := .empty
  leaked := .empty

def coveredTables : Database := { sampleTables with tagFile := [(0, 0), (2, 0), (1, 0), (0, 1), (1, 1)] }

theorem coveredHashed_tidy : coveredHashed.Tidy ∧ coveredHashed.Coherent := by
  have hrun : execute Fuse.step Fuse.ReleaseHarmless
      [⟨Fuse.sampleEnv, .link (samplePath [] nameF) (samplePath [nameX, nameZ, nameY] nameF)⟩,
        ⟨Fuse.sampleEnv, .link (samplePath [] nameG) (samplePath [nameX, nameY] nameG)⟩] .init =
      some coveredHashed := by decide +kernel
  exact tidy_of_execute hrun

theorem carries_coveredHashed {n k : CStr} : coveredHashed.Carries n k ↔ (n, k) ∈
    [(nameF, nameX), (nameF, nameZ), (nameF, nameY), (nameG, nameX), (nameG, nameY)] :=
  carries_iff_mem (by unfold Table.Unique; decide)

theorem coveredTables_holds : coveredTables.Holds coveredHashed.Carries := by
  refine ⟨by decide, by decide, fun n k => ?_⟩
  rw [carries_coveredHashed]
  simp [coveredTables, sampleTables, or_and_right, exists_or]
  tauto

/-- The file `g` lacks `z`, and its other tag `y` goes with `x` and `z` at `f`. -/
theorem covered_sample : Covered coveredHashed.Carries [nameX, nameZ] := by
  simp only [Covered, carries_coveredHashed]
  rintro n - - u hu hn
  refine ⟨nameF, by decide, ?_⟩
  have hn : u = nameX ∨ u = nameZ ∨ u = nameY := by
    simp only [List.mem_cons, Prod.mk.injEq, List.not_mem_nil, or_false] at hn
    tauto
  obtain rfl | rfl | rfl := hn
  · exact absurd List.mem_cons_self hu
  · exact absurd (by decide) hu
  · decide

theorem remainingTags_agree_sample : ∃ out,
    Fuse.readdirListTagsMode2 coveredHashed ⟨[(nameX, 0), (nameZ, 1)]⟩ = .ok out ∧ nameY ∈ out ∧
      ∀ u, u ∈ (dbListRemainingTags coveredTables ⟨[(nameX, some 0), (nameZ, some 2)]⟩).2 ↔ u ∈ out := by
  have hsel : coveredHashed.Registered ⟨[(nameX, 0), (nameZ, 1)]⟩ := by
    intro e he
    simp only [List.mem_cons, List.not_mem_nil, or_false] at he
    obtain rfl | rfl := he <;> rfl
  have hsame : ∀ k, k ∈ Table.keys (⟨[(nameX, some 0), (nameZ, some 2)]⟩ : HashTable (Option TagId)) ↔
      k ∈ Table.keys (⟨[(nameX, 0), (nameZ, 1)]⟩ : HashTable Fuse.TagId) := fun _ => Iff.rfl
  obtain ⟨out, hout, hmem, -, h⟩ := remainingTags_agree_iff coveredHashed_tidy.1.toTyped
    coveredHashed_tidy.2 hsel (by decide) coveredTables_holds (by decide) hsame
  refine ⟨out, hout, (hmem nameY).mpr ⟨by decide, nameF, ?_⟩, h.mpr covered_sample⟩
  simp only [carries_coveredHashed]
  decide

/-- In the directory of `x` and `y` the tag `z` of `f`, which does not have `y`, is shown. -/
theorem remainingTags_differ : sampleHashed.Typed ∧ sampleHashed.Coherent ∧
    sampleTables.Holds sampleHashed.Carries ∧
    sampleHashed.Registered ⟨[(nameX, 0), (nameY, 2)]⟩ ∧
    Fuse.readdirListTagsMode2 sampleHashed ⟨[(nameX, 0), (nameY, 2)]⟩ = .ok [] ∧
    dbListRemainingTags sampleTables ⟨[(nameX, some 0), (nameY, some 1)]⟩ = (0, [nameZ]) := by
  obtain ⟨ht, hc⟩ := tidy_of_execute sampleHashed_reached
  refine ⟨ht.toTyped, hc, sampleTables_holds, ?_, by decide +kernel, by decide +kernel⟩
  intro e he
  simp only [List.mem_cons, List.not_mem_nil, or_false] at he
  obtain rfl | rfl := he <;> rfl

end TagFilesystem.FuseSqlite3
