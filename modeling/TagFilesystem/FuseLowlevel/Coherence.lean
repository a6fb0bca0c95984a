import TagFilesystem.FuseLowlevel.Requests
import TagFilesystem.Library.Run

namespace TagFilesystem.FuseLowlevel

variable {c : Prop} {env : Env} {s s₀ s' : Store} {e : Event} {file : Option CStr} {k n : CStr}
  {t : TagId} {f : FileId}

/-- The root directory. -/
def rootInode : Inode := { blankInode 1 true with nlookup := 1 }

/-- The store with the root directory only. -/
def rootStore : Store := Store.init.addInode rootInode

theorem inodeInit_eq : inodeInit .init = .ok rootStore := rfl

theorem sound_rootStore : rootStore.Sound where
  links := Links.sound_init
  indexed := indexed_init.addInode rfl

theorem returns_realdirAddFiles : Returns (realdirAddFiles env s) fun s' => Updates c s s' := by
  refine sat_forEach_mem (I := fun s' => Updates c s s') ?_ .refl
  rintro d - s' hu
  split_ifs
  · exact hu
  · exact sat_map.mpr (returns_fileGetOrCreate.mono fun r hr => hu.trans hr.1)

theorem updates_tagGetOrCreate (s : Store) (k : CStr) : Updates c s (tagGetOrCreate s k).2 ∧
    (tagGetOrCreate s k).2.tags.get? k = some (tagGetOrCreate s k).1 := by
  cases hk : s.tags.get? k with
  | some t =>
    rw [tagGetOrCreate_old hk]
    exact ⟨.refl, hk⟩
  | none =>
    refine ⟨.single (.tag hk), ?_⟩
    rw [tagGetOrCreate_new hk]
    exact Table.get?_add_self

/-- What the parser has done so far; its current file is registered. -/
def Parsing (c : Prop) (s : Store) (r : Option FileId × Store) : Prop :=
  Updates c s r.2 ∧ ∀ f, r.1 = some f → ∃ n, r.2.files.get? n = some f

theorem returns_parseLine {r : Option FileId × Store} (h : Parsing c s r) (word : CStr) :
    Returns (parseLine env r word) (Parsing c s) := by
  obtain ⟨cur, s₁⟩ := r
  obtain ⟨hu, hcur⟩ := h
  unfold parseLine
  split
  · exact ⟨hu, hcur⟩
  · dsimp only
    split_ifs with hopen hdata
    · apply (returns_fileGetOrCreate (c := c)).bind
      rintro ⟨f, s₂⟩ ⟨hu₂, hf⟩
      refine ⟨hu.trans hu₂, fun f' hf' => ?_⟩
      cases hf'
      exact ⟨_, hf⟩
    · exact ⟨hu, hcur⟩
    · obtain ⟨hu₂, ht⟩ :=
        updates_tagGetOrCreate (c := c) s₁ (copy (word.dropWhile isspace) newline)
      generalize tagGetOrCreate s₁ (copy (word.dropWhile isspace) newline) = q at hu₂ ht ⊢
      obtain ⟨t, s₂⟩ := q
      cases cur with
      | none => exact ⟨hu.trans hu₂, by simp⟩
      | some f =>
        obtain ⟨n, hn⟩ := hcur f rfl
        have hn₂ : s₂.files.get? n = some f := hu₂.files_get hn
        have htag := returns_tagFile' (c := c) (s := s₂)
          (k := copy (word.dropWhile isspace) newline) hn₂
        rw [show tagGet s₂ _ = some t from ht] at htag
        refine htag.bind fun s₃ hs₃ => ⟨(hu.trans hu₂).trans hs₃.1, fun f' hf' => ?_⟩
        cases hf'
        exact ⟨n, hs₃.2 ▸ hn₂⟩

theorem returns_parseTags : Returns (parseTags env file s) fun s' => Updates c s s' := by
  cases file with
  | none => trivial
  | some text =>
    refine Sat.bind (sat_forEach_mem (I := Parsing c s) (fun word _ r hr => ?_) ⟨.refl, by simp⟩)
      fun r hr => hr.1
    exact returns_parseLine hr word

theorem returns_tagInit : Returns (tagInit env file) fun s => Updates c rootStore s := by
  rw [tagInit, inodeInit_eq]
  refine (returns_realdirAddFiles (c := c)).bind fun s₁ hu₁ => ?_
  exact returns_parseTags.mono fun s₂ hu₂ => hu₁.trans hu₂

theorem sound_tagRemove (hs : s.Sound) (ht : s.tags.get? k = some t)
    (h : tagRemove s (some t) = .ok s') : s'.Sound ∧ s'.tags = s.tags.erase k := by
  obtain ⟨hl, htags, -, -, hi, hh, hn⟩ :=
    (sat_tagRemove (E := fun _ => True) hs.links ht).of_ok h
  exact ⟨⟨hl, hs.indexed.congr (by simp only [Store.inodes, hi, hh, hn])⟩, htags⟩

/-- The rule of a step: what the updates keep is left to show for `rmdir` and `forget`. -/
theorem Store.Sound.step_rule {Q : Store → Prop} (hs : s.Sound)
    (h : FuseLowlevel.step s e = .ok s')
    (hrmdir : ∀ parent name, e.callback = .rmdir parent name →
      Returns (call e.env s (.rmdir parent name)) fun r => Q r.2)
    (hforget : ∀ ino m, e.callback = .forget ino m →
      Returns (call e.env s (.forget ino m)) fun r => Q r.2)
    (hupdates : ∀ s', Updates True s s' → Q s') : Q s' := by
  have hret : Returns (call e.env s e.callback) fun r => Q r.2 := by
    by_cases hr : ∃ parent name, e.callback = .rmdir parent name
    · obtain ⟨parent, name, hr⟩ := hr
      rw [hr]
      exact hrmdir parent name hr
    by_cases hf : ∃ ino m, e.callback = .forget ino m
    · obtain ⟨ino, m, hf⟩ := hf
      rw [hf]
      exact hforget ino m hf
    · push Not at hr hf
      exact (returns_call hs hr hf).mono fun r => hupdates r.2
  exact (sat_map.mpr hret).of_ok h

theorem Store.Sound.step (hs : s.Sound) (h : FuseLowlevel.step s e = .ok s') : s'.Sound := by
  refine hs.step_rule h (fun parent name _ => ?_) (fun ino m _ => ?_) fun s' hu => hu.sound' hs
  · apply (returns_tagRmdir parent name).mono
    rintro r (⟨-, rfl⟩ | ⟨-, -, t, ht, hrem⟩)
    · exact hs
    · exact (sound_tagRemove hs ht hrem).1
  · apply (returns_tagForget ino m).mono
    rintro ⟨rs, s'⟩ ⟨-, ⟨-, rfl⟩ | ⟨i, I, -, hI, ⟨-, rfl⟩ | ⟨-, -, rfl⟩⟩⟩
    · exact hs
    · exact ⟨hs.links, hs.indexed.writeInode hI rfl⟩
    · exact ⟨hs.links, hs.indexed.delete⟩

theorem sound_of_reaches {guard : Store → Event → Prop} (h₀ : tagInit env file = .ok s₀)
    (h : Reaches step guard s₀ s) : s.Sound :=
  h.invariant ((returns_tagInit (c := False).of_ok h₀).sound' sound_rootStore)
    fun _ _ _ hs _ he => hs.step he

/-- No file record has the tag `x`. -/
def Untagged (s : Store) (x : CStr) : Prop :=
  ∀ n f, s.files.get? n = some f → ∀ t, ¬ Linked File.tags s.fileHeap f x t

theorem untagged_of_none (h : s.links.Sound) (hk : s.tags.get? k = none) : Untagged s k := by
  intro n f hn t hl
  have ht : s.tags.get? k = some t := h.registered (l := s.links) hn hl
  rw [hk] at ht
  cases ht

/-- In every state that is reached from start-up the registry is well formed and files and tags
agree on who has whom; removing a tag takes it from all files, and a new tag has none. -/
theorem links_of_reaches (h₀ : tagInit env file = .ok s₀)
    (h : Reaches step (fun _ _ => True) s₀ s) :
    (s.tags.Unique ∧ ∀ k t, s.tags.get? k = some t →
      ∃ T, s.tagHeap.get? t = some T ∧ T.value = k) ∧
    s.links.Coherent ∧
    (∀ parent x s', tagRmdir s parent x = .ok ([.err 0], s') → Untagged s' x) ∧
    ∀ env parent x ino g st s', tagMkdir env s parent x = .ok ([.entry ino g st], s') →
      Untagged s' x ∧ ∃ t T, s'.tags.get? x = some t ∧ s'.tagHeap.get? t = some T ∧
        T.files.entries = [] := by
  have hs := sound_of_reaches h₀ h
  refine ⟨⟨hs.links.tags.unique, fun k t => hs.links.tags.object⟩, hs.links.coherent, ?_, ?_⟩
  · intro parent x s' hr
    rcases (returns_tagRmdir parent x).of_ok hr with ⟨-, hr⟩ | ⟨-, -, t, ht, hrem⟩
    · cases hr
    · obtain ⟨hs', htags⟩ := sound_tagRemove hs ht hrem
      refine untagged_of_none hs'.links ?_
      rw [htags]
      exact hs.links.tags.unique.get?_erase_self
  · intro env parent x ino g st s' hm
    obtain ⟨hu, ⟨e, he⟩ | ⟨hnone, hl⟩⟩ := (returns_tagMkdir hs parent x).of_ok hm
    · cases he
    · change s'.links = s.links.registerTag x at hl
      have hfiles : s'.files = s.files := congrArg Links.files hl
      have hheap : s'.fileHeap = s.fileHeap := congrArg Links.fileHeap hl
      have htags : s'.tags = s.tags.add x s.tagHeap.next := congrArg Links.tags hl
      have htagHeap : s'.tagHeap = s.tagHeap.alloc (tagNew x) := congrArg Links.tagHeap hl
      constructor
      · unfold Untagged
        rw [hfiles, hheap]
        exact untagged_of_none hs.links hnone
      · rw [htags, htagHeap]
        exact ⟨_, _, Table.get?_add_self, Heap.get?_alloc_next, rfl⟩

/-- The system answers as it does for the sample directory. -/
def sampleEnv : Env where
  realdirpath := rootName
  stat := sampleStat
  openFile _ _ := .ok 3
  close _ := none
  read _ _ _ := .ok []
  write _ buffer _ := .ok buffer.length
  mknod _ _ _ := none
  dirents := sampleDirents
  addDirentry name ino off := name.map Subtype.val ++ [ino.toUInt8, UInt8.ofNat off]
  errno := 0
  uninitialized := 0

/-- The inode numbers are 2 and 3 for the files `f` and `g`, and then count up. -/
def sampleRun (cs : List Callback) : Option Store :=
  match tagInit sampleEnv (some []) with
  | .ok s => execute step (fun _ _ => True) (cs.map (Event.mk sampleEnv)) s
  | .error _ => none

/-- The tag `x` is removed while a file has it, and made again. -/
theorem links_of_reaches_sample : ∃ s₀ s, tagInit sampleEnv (some []) = .ok s₀ ∧
    execute step (fun _ _ => True) ([.lookup 1 nameF, .mkdir 1 nameX, .link 2 4 nameF,
      .readdir 4 100 0 (some 3), .rmdir 1 nameX, .mkdir 1 nameX].map (Event.mk sampleEnv)) s₀ =
        some s ∧ s.links.Coherent := by
  have hrun : (sampleRun [.lookup 1 nameF, .mkdir 1 nameX, .link 2 4 nameF,
      .readdir 4 100 0 (some 3), .rmdir 1 nameX, .mkdir 1 nameX]).isSome = true := by
    decide +kernel
  obtain ⟨s, hs⟩ := Option.isSome_iff_exists.mp hrun
  unfold sampleRun at hs
  split at hs
  · next s₀ h₀ => exact ⟨s₀, s, h₀, hs, (links_of_reaches h₀ (reaches_of_execute hs)).2.1⟩
  · cases hs

end TagFilesystem.FuseLowlevel
