import TagFilesystem.FuseLowlevel.Coherence

namespace TagFilesystem.FuseLowlevel

variable {env : Env} {s : Store} {sel : HashTable (Option TagId)} {k n : CStr} {t : TagId}
  {f : FileId} {held : List Lock}

/-- `sel` is a set of registered tags. -/
def Selects (s : Store) (sel : HashTable (Option TagId)) : Prop :=
  ∀ e ∈ sel.entries, ∃ t, e.2 = some t ∧ s.tags.get? e.1 = some t

/-- The file `n` has the tag `k`. -/
def HasTag (s : Store) (n k : CStr) : Prop :=
  ∃ f t, s.files.get? n = some f ∧ Linked File.tags s.fileHeap f k t

/-- A file that has one of the selected tags has them all. -/
def Uniform (s : Store) (sel : HashTable (Option TagId)) : Prop :=
  ∀ n, ∀ k ∈ sel.keys, HasTag s n k → ∀ k' ∈ sel.keys, HasTag s n k'

/-- One of the tags has the file `f` under the name `n`. -/
def FileOf (s : Store) (l : List (CStr × Option TagId)) (n : CStr) (f : FileId) : Prop :=
  ∃ e ∈ l, ∃ t, e.2 = some t ∧ Linked Tag.files s.tagHeap t n f

theorem writeLock_eq {l : Lock} (h : l ∉ held) : writeLock held l = .ok ⟨⟩ := if_neg h

theorem sat_collectFiles (hs : s.links.Sound) (hsel : Selects s sel) :
    Sat (fun _ => False) (forEach sel.entries (fun (selectedFiles : HashTable FileId) e => do
      let T ← s.readTag e.2
      forEach T.files.entries (fun selectedFiles e' => do
        let F ← s.readFile e'.2
        let _ ← writeLock [.tagFiles e.2, .selectedTags] .selectedFiles
        .ok (selectedFiles.addNew F.name e'.2)) selectedFiles) Table.empty)
      fun r => ∀ n f, (n, f) ∈ r.entries ↔ FileOf s sel.entries n f := by
  refine sat_forEach_visited (fun l (r : HashTable FileId) => ∀ n f, (n, f) ∈ r.entries ↔ FileOf s l n f) ?_
    (by simp [FileOf])
  rintro l₀ ⟨k, t⟩ l₁ r hl hr
  obtain ⟨t', ht', htag⟩ := hsel (k, t) (by simp [← hl])
  dsimp only at ht' htag
  subst ht'
  obtain ⟨T, hT, -⟩ := hs.tags.object htag
  have hmem : ∀ n f, (n, f) ∈ T.files.entries ↔ Linked Tag.files s.tagHeap t' n f := fun n f => by
    rw [← (hs.tagFiles hT).get?_eq_some]
    exact (linked_iff hT).symm
  have hfile : ∀ n f, Linked Tag.files s.tagHeap t' n f → s.files.get? n = some f :=
    fun n f h => hs.member h
  simp only [sat_readTag hT]
  refine (sat_forEach_visited (fun l (r : HashTable FileId) =>
    ∀ n f, (n, f) ∈ r.entries ↔ FileOf s l₀ n f ∨ (n, f) ∈ l) ?_ (by simpa using hr)).mono ?_
  · rintro l₂ ⟨n, f⟩ l₃ r hl hr
    have hlink : Linked Tag.files s.tagHeap t' n f := (hmem n f).mp (by simp [← hl])
    obtain ⟨F, hF, hname⟩ := hs.files.object (hfile n f hlink)
    have hlock : Lock.selectedFiles ∉ [.tagFiles (some t'), .selectedTags] := by simp
    simp only [sat_readFile hF, writeLock_eq hlock]
    intro n' f'
    have hold : ∀ g, (n, g) ∈ r.entries → g = f := by
      intro g hg
      have hget : s.files.get? n = some g := by
        rcases (hr n g).mp hg with ⟨e, -, t₁, -, ht₁⟩ | hg
        · exact hs.member ht₁
        · exact hfile n g ((hmem n g).mp (by simp [← hl, hg]))
      rw [hfile n f hlink] at hget
      exact (Option.some.inj hget).symm
    show _ ∈ (r.addNew F.name f).entries ↔ _
    rw [hname, Table.mem_entries_addNew hold, hr, List.mem_append, List.mem_singleton, or_assoc]
  · intro r hr n f
    rw [hr, hmem, FileOf, FileOf]
    simp only [List.mem_append, List.mem_singleton, or_and_right, exists_or]
    simp

/-- The file at `f` has the tag `k`. -/
def fileHas (s : Store) (f : FileId) (k : CStr) : Bool :=
  (s.fileHeap.get? f).any fun F => F.tags.contains k

/-- `readdir_get_selected_files` either finds nothing to remove or waits for itself. -/
theorem readdirGetSelectedFiles_eq (hs : s.links.Sound) (hsel : Selects s sel) :
    ∃ r : HashTable FileId, (∀ n f, (n, f) ∈ r.entries ↔ FileOf s sel.entries n f) ∧
      readdirGetSelectedFiles s sel =
        if ∀ e ∈ r.entries, ∀ e' ∈ sel.entries, fileHas s e.2 e'.1 = true then .ok r
        else .error .deadlock := by
  obtain ⟨r, hr, hfiles⟩ := (sat_collectFiles hs hsel).exists_ok
  refine ⟨r, hfiles, ?_⟩
  unfold readdirGetSelectedFiles
  rw [hr]
  refine forEach_check (fun e : CStr × FileId => ∀ e' ∈ sel.entries, fileHas s e.2 e'.1 = true) ?_
  rintro ⟨n, f⟩ he
  refine forEach_check (fun e' : CStr × Option TagId => fileHas s f e'.1 = true) ?_
  rintro ⟨k, t⟩ he'
  -- the tag and the file are alive
  obtain ⟨t', ht', htag⟩ := hsel _ he'
  dsimp only at ht' htag
  subst ht'
  obtain ⟨T, hT, rfl⟩ := hs.tags.object htag
  obtain ⟨_, -, t₁, -, hlink⟩ := (hfiles n f).mp he
  obtain ⟨F, hF, -⟩ := hs.files.object (hs.member hlink)
  have hF' : s.fileHeap.get? f = some F := hF
  simp only [sat_readFile hF, sat_readTag hT, fileHas, hF', Option.any_some]
  change (if F.tags.contains T.value = true then _ else _) = _
  split_ifs
  · rfl
  · rfl

theorem readTag_no_deadlock (t : Option TagId) :
    Sat (· ≠ .deadlock) (s.readTag t) fun _ => True := by
  unfold Store.readTag
  split
  · simp
  · split <;> simp

theorem readFile_no_deadlock (f : FileId) :
    Sat (· ≠ .deadlock) (s.readFile f) fun _ => True := by
  unfold Store.readFile
  split <;> simp

theorem readInode_no_deadlock (i : Option InodeId) :
    Sat (· ≠ .deadlock) (s.readInode i) fun _ => True := by
  unfold Store.readInode
  split
  · simp
  · split <;> simp

theorem createDirectoryInode_no_deadlock (hheld : ∀ i, Lock.inodeTags i ∉ held)
    (p : Option InodeId) (name : CStr) :
    Sat (· ≠ .deadlock) (createDirectoryInode held s p name) fun _ => True := by
  refine (readInode_no_deadlock p).bind fun P _ => ?_
  refine (sat_forEach_mem (I := fun _ => True) (fun j _ r _ => ?_) trivial).bind fun r _ => ?_
  · refine (sat_tagAt (by simp) P j).bind fun k _ => ?_
    exact (sat_writeLock (.inr (hheld _))).bind fun _ _ => trivial
  · refine (sat_writeLock (.inr (hheld _))).bind fun _ _ => ?_
    exact (readInode_no_deadlock _).bind fun I _ => trivial

/-- `readdir_fill_remaining_tags` writes only to tables that it does not run over. -/
theorem readdirFillRemainingTags_no_deadlock (p : InodeId) (files : HashTable FileId)
    (b : List UInt8) : Sat (· ≠ .deadlock) (readdirFillRemainingTags env s p sel files b)
      fun _ => True := by
  refine Sat.bind (sat_forEach_mem (I := fun _ => True) ?_ trivial) fun r _ => trivial
  rintro ⟨n, f⟩ - r -
  refine (readFile_no_deadlock f).bind fun F _ => sat_forEach_mem ?_ trivial
  rintro ⟨k, t⟩ - r -
  refine (readTag_no_deadlock _).bind fun T _ => ?_
  split_ifs
  · refine (createDirectoryInode_no_deadlock (by simp) _ _).bind fun q _ => ?_
    refine (readInode_no_deadlock _).bind fun I _ => ?_
    exact (sat_writeLock (.inr (by simp))).bind fun _ _ => trivial
  · trivial

theorem hasTag_iff (hs : s.links.Sound) (hk : s.tags.get? k = some t) :
    HasTag s n k ↔ ∃ f, Linked Tag.files s.tagHeap t n f := by
  constructor
  · rintro ⟨f, t', hf, hl⟩
    obtain ⟨ht', hl'⟩ := (hs.coherent hf k t').mp hl
    rw [show s.links.tags.get? k = some t from hk] at ht'
    cases ht'
    exact ⟨f, hl'⟩
  · rintro ⟨f, hl⟩
    have hf : s.files.get? n = some f := hs.member hl
    exact ⟨f, t, hf, (hs.coherent hf k t).mpr ⟨hk, hl⟩⟩

theorem fileHas_iff (hf : s.files.get? n = some f) :
    fileHas s f k = true ↔ HasTag s n k := by
  constructor
  · intro h
    obtain ⟨F, hF, hk⟩ := (Option.any_eq_true _ _).mp h
    obtain ⟨t, ht⟩ := Table.contains_iff_get?.mp hk
    exact ⟨f, t, hf, F, hF, ht⟩
  · rintro ⟨f', t, hf', F, hF, ht⟩
    rw [hf] at hf'
    cases hf'
    exact (Option.any_eq_true _ _).mpr ⟨F, hF, Table.contains_iff_get?.mpr ⟨t, ht⟩⟩

/-- `readdir` of a selection does not wait for itself exactly if every file that has one of the
selected tags has them all. -/
theorem readdir_no_deadlock_iff (hs : s.links.Sound) (hsel : Selects s sel) (p : InodeId)
    (b : List UInt8) :
    readdirListTagsMode2 env s p b sel ≠ .error .deadlock ↔ Uniform s sel := by
  obtain ⟨r, hfiles, heq⟩ := readdirGetSelectedFiles_eq hs hsel
  have hcond : (∀ e ∈ r.entries, ∀ e' ∈ sel.entries, fileHas s e.2 e'.1 = true) ↔
      Uniform s sel := by
    constructor
    · intro h n k hk htag k' hk'
      obtain ⟨e, he, rfl⟩ := List.mem_map.mp hk
      obtain ⟨e', he', rfl⟩ := List.mem_map.mp hk'
      obtain ⟨t, ht, hget⟩ := hsel e he
      obtain ⟨f, hl⟩ := (hasTag_iff hs hget).mp htag
      have hmem : (n, f) ∈ r.entries := (hfiles n f).mpr ⟨e, he, t, ht, hl⟩
      exact (fileHas_iff (hs.member hl)).mp (h _ hmem e' he')
    · rintro hu ⟨n, f⟩ hmem e' he'
      obtain ⟨e, he, t, ht, hl⟩ := (hfiles n f).mp hmem
      obtain ⟨t', ht', hget⟩ := hsel e he
      rw [ht] at ht'
      cases ht'
      have htag : HasTag s n e.1 := (hasTag_iff hs hget).mpr ⟨f, hl⟩
      exact (fileHas_iff (hs.member hl)).mpr
        (hu n e.1 (List.mem_map_of_mem he) htag e'.1 (List.mem_map_of_mem he'))
  unfold readdirListTagsMode2
  rw [heq]
  split_ifs with h
  · exact iff_of_true ((readdirFillRemainingTags_no_deadlock p r b).ne_error (by simp))
      (hcond.mp h)
  · refine iff_of_false (fun hne => hne rfl) fun hu => h (hcond.mpr hu)

/-- Files with tags: `f` has `x`, and `g` has `x` and `y`. -/
def sampleTagging : Option Store :=
  sampleRun [.mkdir 1 nameX, .mkdir 1 nameY, .link 2 4 nameF, .link 3 4 nameG, .link 3 5 nameG]

/-- The tags `x` and `y`. -/
def sampleSelection : HashTable (Option TagId) := ⟨[(nameX, some 0), (nameY, some 1)]⟩

theorem sound_of_sampleRun {cs : List Callback} (h : sampleRun cs = some s) : s.Sound := by
  unfold sampleRun at h
  split at h
  · next s₀ h₀ => exact sound_of_reaches h₀ (reaches_of_execute h)
  · cases h

theorem exists_sampleTagging : ∃ s, sampleTagging = some s ∧ Selects s sampleSelection ∧
    readdirListTagsMode2 sampleEnv s 0 [] sampleSelection = .error .deadlock := by
  have hrun : sampleTagging.any (fun s =>
      s.tags.get? nameX = some 0 ∧ s.tags.get? nameY = some 1 ∧
        faultsWith (readdirListTagsMode2 sampleEnv s 0 [] sampleSelection) .deadlock = true) =
      true := by decide +kernel
  obtain ⟨s, hs, hp⟩ := (Option.any_eq_true _ _).mp hrun
  obtain ⟨hx, hy, hd⟩ := of_decide_eq_true hp
  refine ⟨s, hs, ?_, faultsWith_iff.mp hd⟩
  intro e he
  rcases List.mem_cons.mp he with rfl | he
  · exact ⟨0, rfl, hx⟩
  · rw [List.mem_singleton.mp he]
    exact ⟨1, rfl, hy⟩

/-- The file `f` has the tag `x` only. -/
theorem readdir_no_deadlock_iff_sample : ∃ s, sampleTagging = some s ∧
    ¬ Uniform s sampleSelection := by
  obtain ⟨s, hs, hsel, hd⟩ := exists_sampleTagging
  refine ⟨s, hs, fun hu => ?_⟩
  have hne : readdirListTagsMode2 sampleEnv s 0 [] sampleSelection ≠ .error .deadlock :=
    (readdir_no_deadlock_iff (sound_of_sampleRun hs).links hsel 0 []).mpr hu
  exact hne hd

/-- `readdir` of the directory `x/y` waits for itself. -/
theorem readdir_deadlocks : ¬ ∀ env s sel p b, s.links.Sound → Selects s sel →
    readdirListTagsMode2 env s p b sel ≠ .error .deadlock := by
  intro h
  obtain ⟨s, hs, hsel, hd⟩ := exists_sampleTagging
  exact h sampleEnv s sampleSelection 0 [] (sound_of_sampleRun hs).links hsel hd

end TagFilesystem.FuseLowlevel
