import TagFilesystem.FuseLowlevel.Deadlock

namespace TagFilesystem.FuseLowlevel

variable {c : Prop} {env : Env} {s s₀ s' : Store} {e : Event} {file : Option CStr} {k n : CStr}
  {t : TagId} {f : FileId} {i : InodeId} {I J P : Inode} {sel : HashTable (Option TagId)}

/-- The selected tags of the inode are registered, and its path consists of selected tags. -/
structure SelectsLive (s : Store) (I : Inode) : Prop where
  selects : ∀ sel, I.selectedTags = some sel → Selects s sel
  path : ∀ k ∈ I.tag.take I.ntag, ∃ sel, I.selectedTags = some sel ∧ k ∈ sel.keys

/-- The members that a selection depends on. -/
def Inode.selection (I : Inode) : Option (HashTable (Option TagId)) × List CStr × ℕ :=
  (I.selectedTags, I.tag, I.ntag)

theorem SelectsLive.congr (h : SelectsLive s I) (hJ : J.selection = I.selection) :
    SelectsLive s J := by
  obtain ⟨hsel, hJ⟩ := Prod.mk.inj hJ
  obtain ⟨htag, hntag⟩ := Prod.mk.inj hJ
  constructor
  · rw [hsel]
    exact h.selects
  · rw [hsel, htag, hntag]
    exact h.path

theorem SelectsLive.mono (h : SelectsLive s I)
    (ht : ∀ k t, s.tags.get? k = some t → s'.tags.get? k = some t) : SelectsLive s' I where
  selects sel hsel e he := by
    obtain ⟨t, het, hget⟩ := h.selects sel hsel e he
    exact ⟨t, het, ht _ _ hget⟩
  path := h.path

theorem selectsLive_fileInode : SelectsLive s' (fileInode env s n) where
  selects sel hsel := by cases hsel
  path k hk := by cases hk

theorem selectsLive_directoryInode (hP : SelectsLive s P) (hk : (tagGet s k).isSome = true) :
    SelectsLive s (directoryInode s P k) := by
  have hlive : ∀ k' ∈ P.tag.take P.ntag ++ [k], ∃ t, s.tags.get? k' = some t := by
    intro k' hk'
    rcases List.mem_append.mp hk' with hk' | hk'
    · obtain ⟨sel, hsel, hkey⟩ := hP.path k' hk'
      obtain ⟨e, he, rfl⟩ := List.mem_map.mp hkey
      obtain ⟨t, -, ht⟩ := hP.selects sel hsel e he
      exact ⟨t, ht⟩
    · rw [List.mem_singleton.mp hk']
      exact Option.isSome_iff_exists.mp hk
  constructor
  · intro sel hsel e he
    cases hsel
    obtain ⟨k', hk', rfl⟩ := List.mem_map.mp he
    obtain ⟨t, ht⟩ := hlive k' hk'
    exact ⟨t, ht, ht⟩
  · intro k' hk'
    refine ⟨_, rfl, ?_⟩
    have hmem : k' ∈ P.tag.take P.ntag ++ [k] := List.mem_of_mem_take hk'
    exact List.mem_map.mpr ⟨_, List.mem_map_of_mem hmem, rfl⟩

/-- All inodes select registered tags. -/
def AllSelectLive (s : Store) : Prop :=
  ∀ i I, s.inodeHeap.get? i = some I → SelectsLive s I

theorem Update.tags_get (h : Update c s s') (hk : s.tags.get? k = some t) :
    s'.tags.get? k = some t := by
  cases h with
  | inode st hi => exact hk
  | count hc hi => exact hk
  | generation g => exact hk
  | directory hp hk' hn => exact hk
  | file env hn => exact hk
  | @tag k' hk' =>
    rw [tagGetOrCreate_new hk']
    show (s.tags.add k' s.tagHeap.next).get? k = some t
    rw [Table.get?_add]
    split_ifs with he
    · rw [he, hk] at hk'
      cases hk'
    · exact hk
  | attach ht hn h => exact (returns_tagFile.of_ok h).2.2.symm ▸ hk
  | detach ht hn h => exact (returns_untagFile.of_ok h).2.2.symm ▸ hk

theorem Update.allSelectLive (hu : Update c s s') (h : AllSelectLive s) : AllSelectLive s' := by
  intro i J hJ
  have htags : ∀ k t, s.tags.get? k = some t → s'.tags.get? k = some t :=
    fun k t hk => hu.tags_get hk
  obtain ⟨I, st, m, hI, rfl⟩ | ⟨-, ⟨p, P, k, hp, hk, -, rfl, -⟩ | ⟨env, n, -, rfl, -⟩⟩ :=
    hu.inode_cases hJ
  · refine SelectsLive.mono (SelectsLive.congr (h i I hI) ?_) htags
    rfl
  · exact (selectsLive_directoryInode (h p P hp) hk).mono htags
  · exact selectsLive_fileInode

/-- The request is no `rmdir` of a tag that an inode in `itable` selects. -/
def sparesDirectories (s : Store) (callback : Callback) : Bool :=
  match callback with
  | .rmdir parent name => parent ≠ 1 || s.itable.entries.all fun e =>
    (s.inodeHeap.get? e.2).all fun I => !I.selectedTags.any fun sel => sel.contains name
  | _ => true

theorem AllSelectLive.rmdir {parent : UInt64} (h : AllSelectLive s) (hs : s.Sound)
    (hg : sparesDirectories s (.rmdir parent k) = true) :
    Returns (tagRmdir s parent k) fun r => AllSelectLive r.2 := by
  apply (returns_tagRmdir parent k).mono
  rintro r (⟨-, rfl⟩ | ⟨rfl, -, t, ht, hrem⟩)
  · exact h
  · have hheap : r.2.inodeHeap = s.inodeHeap :=
      ((sat_tagRemove (E := fun _ => True) hs.links ht).of_ok hrem).2.2.2.2.2.1
    have htags : r.2.tags = s.tags.erase k := (sound_tagRemove hs ht hrem).2
    intro i I hI
    rw [hheap] at hI
    have hmem : (I.number, i) ∈ s.itable.entries := hs.indexed.entry.mpr ⟨I, hI, rfl⟩
    have hnot : ∀ sel, I.selectedTags = some sel → sel.contains k = false := by
      intro sel hsel
      have hall : ∀ e ∈ s.itable.entries, ∀ J, s.inodeHeap.get? e.2 = some J →
          ∀ sel, J.selectedTags = some sel → sel.contains k = false := by
        simpa [sparesDirectories, Option.all_eq_true, Option.any_eq_false] using hg
      exact hall _ hmem I hI sel hsel
    refine ⟨fun sel hsel e he => ?_, (h i I hI).path⟩
    obtain ⟨t', ht', hget⟩ := (h i I hI).selects sel hsel e he
    refine ⟨t', ht', ?_⟩
    have hu : s.tags.Unique := hs.links.tags.unique
    rw [htags, hu.get?_erase]
    split_ifs with hek
    · have hkey : sel.contains k = true :=
        Table.contains_iff.mpr (List.mem_map.mpr ⟨e, he, hek⟩)
      rw [hnot sel hsel] at hkey
      cases hkey
    · exact hget

theorem AllSelectLive.forget (h : AllSelectLive s) (ino m : UInt64) :
    Returns (tagForget s ino m) fun r => AllSelectLive r.2 := by
  apply (returns_tagForget ino m).mono
  rintro ⟨rs, s'⟩ ⟨-, ⟨-, rfl⟩ | ⟨i, I, -, hI, ⟨-, rfl⟩ | ⟨-, -, rfl⟩⟩⟩
  · exact h
  · intro j J hJ
    by_cases hj : j = i
    · subst hj
      simp only [Store.writeInode, Heap.get?_write_self hI] at hJ
      cases hJ
      refine SelectsLive.mono (SelectsLive.congr (h j I hI) ?_) fun k t hk => hk
      rfl
    · simp only [Store.writeInode, Heap.get?_write_ne hj] at hJ
      exact (h j J hJ).mono fun k t hk => hk
  · intro j J hJ
    exact (h j J (Heap.of_get?_free hJ).2).mono fun k t hk => hk

theorem AllSelectLive.step (h : AllSelectLive s) (hs : s.Sound)
    (hg : sparesDirectories s e.callback = true) (he : FuseLowlevel.step s e = .ok s') :
    AllSelectLive s' := by
  refine hs.step_rule he (fun parent name hr => ?_) (fun ino m _ => h.forget ino m)
    fun s' hu => hu.invariant h fun _ _ hq hu => hu.allSelectLive hq
  rw [hr] at hg
  exact h.rmdir hs hg

theorem allSelectLive_rootStore : AllSelectLive rootStore := by
  intro i I hI
  obtain rfl : i = 0 := Nat.lt_one_iff.mp (Heap.lt_next hI)
  cases hI
  constructor
  · intro sel hsel e he
    cases hsel
    cases he
  · intro k hk
    cases hk

theorem returns_fileMatchesTags (hs : s.links.Sound) (hsel : Selects s sel)
    (hf : s.files.get? n = some f) : ∃ b, fileMatchesTags s f sel = .ok b := by
  obtain ⟨F, hF, -⟩ := hs.files.object hf
  have hsat : Sat (fun _ => False) (fileMatchesTags s f sel) fun _ => True := by
    rw [fileMatchesTags, sat_readFile hF]
    refine sat_forEach_mem (I := fun _ => True) ?_ trivial
    rintro ⟨k, t⟩ he b -
    obtain ⟨t', ht', hget⟩ := hsel _ he
    dsimp only at ht' hget
    subst ht'
    obtain ⟨T, hT, -⟩ := hs.tags.object hget
    simp only [sat_readTag hT]
    trivial
  obtain ⟨b, hb, -⟩ := hsat.exists_ok
  exact ⟨b, hb⟩

theorem allSelectLive_of_reaches (h₀ : tagInit env file = .ok s₀)
    (h : Reaches step (fun s e => sparesDirectories s e.callback = true) s₀ s) :
    s.Sound ∧ AllSelectLive s := by
  have hu := (returns_tagInit (c := False)).of_ok h₀
  exact h.invariant (I := fun s => s.Sound ∧ AllSelectLive s)
    ⟨hu.sound' sound_rootStore,
      hu.invariant allSelectLive_rootStore fun _ _ hq hu => hu.allSelectLive hq⟩
    fun s e s' hs hg he => ⟨hs.1.step he, hs.2.step hs.1 hg he⟩

/-- As long as no tag is removed that a directory inode in `itable` selects, the selections of
directory inodes consist of registered tags, and the functions that read through a selection meet
no removed tag. -/
theorem selections_of_reaches (h₀ : tagInit env file = .ok s₀)
    (h : Reaches step (fun s e => sparesDirectories s e.callback = true) s₀ s) :
    ∀ ino i I sel, (ino, i) ∈ s.itable.entries → s.inodeHeap.get? i = some I →
      I.isDirectory = true → I.selectedTags = some sel →
      Selects s sel ∧
      (∀ n f, s.files.get? n = some f → ∃ b, fileMatchesTags s f sel = .ok b) ∧
      ∀ e, readdirGetSelectedFiles s sel = .error e → e = .deadlock := by
  have hinv : s.Sound ∧ AllSelectLive s := allSelectLive_of_reaches h₀ h
  intro ino i I sel _ hI _ hsel
  have hlive : Selects s sel := (hinv.2 i I hI).selects sel hsel
  refine ⟨hlive, fun n f hf => returns_fileMatchesTags hinv.1.links hlive hf, fun e he => ?_⟩
  obtain ⟨r, -, heq⟩ := readdirGetSelectedFiles_eq hinv.1.links hlive
  rw [heq] at he
  split_ifs at he
  cases he
  rfl

/-- A run of the sample file system that removes no tag that an inode selects. -/
def selectionRun (cs : List Callback) : Option Store :=
  match tagInit sampleEnv (some []) with
  | .ok s => execute step (fun s e => sparesDirectories s e.callback = true)
    (cs.map (Event.mk sampleEnv)) s
  | .error _ => none

/-- The kernel forgets the directory `x` before it is removed and made again. -/
theorem selections_of_reaches_sample : ∃ s sel,
    selectionRun [.mkdir 1 nameX, .forget 4 0, .rmdir 1 nameX, .mkdir 1 nameX, .mkdir 1 nameY,
      .lookup 5 nameY] = some s ∧
    (s.inodeHeap.get? 6).bind Inode.selectedTags = some sel ∧ sel.keys = [nameX, nameY] ∧
    Selects s sel := by
  have hrun : (selectionRun [.mkdir 1 nameX, .forget 4 0, .rmdir 1 nameX, .mkdir 1 nameX,
      .mkdir 1 nameY, .lookup 5 nameY]).any (fun s => (s.inodeHeap.get? 6).any fun I =>
        (7, 6) ∈ s.itable.entries ∧ I.isDirectory = true ∧
          I.selectedTags.any (fun sel => sel.keys = [nameX, nameY])) = true := by decide +kernel
  obtain ⟨s, hs, hp⟩ := (Option.any_eq_true _ _).mp hrun
  obtain ⟨I, hI, hp⟩ := (Option.any_eq_true _ _).mp hp
  obtain ⟨hmem, hdir, hsel⟩ := of_decide_eq_true hp
  obtain ⟨sel, hsel, hkeys⟩ := (Option.any_eq_true _ _).mp hsel
  have hrun' := hs
  unfold selectionRun at hrun'
  split at hrun'
  · next s₀ h₀ =>
    refine ⟨s, sel, hs, ?_, of_decide_eq_true hkeys, ?_⟩
    · rw [hI]
      exact hsel
    · exact (selections_of_reaches h₀ (reaches_of_execute hrun') 7 6 I sel hmem hI hdir hsel).1
  · cases hrun'

/-- The inode that `mkdir` has made selects the tag after `rmdir` has freed it. -/
theorem rmdir_leaves_selection : ¬ ∀ env file s₀ s, tagInit env file = .ok s₀ →
    Reaches step (fun _ _ => True) s₀ s →
    ∀ ino i I sel, (ino, i) ∈ s.itable.entries → s.inodeHeap.get? i = some I →
      I.isDirectory = true → I.selectedTags = some sel → Selects s sel := by
  intro h
  have hrun : (sampleRun [.mkdir 1 nameX, .rmdir 1 nameX]).any (fun s =>
      (s.inodeHeap.get? 3).any fun I => (4, 3) ∈ s.itable.entries ∧ I.isDirectory = true ∧
        I.selectedTags = some ⟨[(nameX, some 0)]⟩ ∧ s.tags.get? nameX = none) = true := by
    decide +kernel
  obtain ⟨s, hs, hp⟩ := (Option.any_eq_true _ _).mp hrun
  obtain ⟨I, hI, hp⟩ := (Option.any_eq_true _ _).mp hp
  obtain ⟨hmem, hdir, hsel, hnone⟩ := of_decide_eq_true hp
  unfold sampleRun at hs
  split at hs
  · next s₀ h₀ =>
    obtain ⟨t, -, ht⟩ := h sampleEnv (some []) s₀ s h₀ (reaches_of_execute hs) 4 3 I _ hmem hI
      hdir hsel (nameX, some 0) (List.mem_singleton_self _)
    rw [hnone] at ht
    cases ht
  · cases hs

end TagFilesystem.FuseLowlevel
