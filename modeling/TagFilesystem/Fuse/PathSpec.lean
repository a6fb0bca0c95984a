import TagFilesystem.Fuse.Coherence
import TagFilesystem.Fuse.Selected

namespace TagFilesystem.Fuse

variable {env : Env} {s s' : Store} {t t' : TagId} {T T' : Tag} {f f' : FileId} {F F' : File}
  {k n n' : CStr} {e : CStr × TagId} {H H' : Held} {E : Fault → Prop} {ks : List CStr}
  {sel : HashTable TagId}

/-- The number of times that paths hold `t`. -/
def occurrences (H : Held) (t : TagId) : ℕ := (H.map Prod.snd).count t

@[simp] theorem occurrences_nil : occurrences [] t = 0 := rfl

@[simp] theorem occurrences_append : occurrences (H ++ H') t = occurrences H t + occurrences H' t := by
  simp [occurrences]

@[simp] theorem occurrences_cons :
    occurrences (e :: H) t = occurrences H t + if e.2 = t then 1 else 0 := by
  simp [occurrences, List.count_cons]

theorem occurrences_perm (h : H.Perm H') : occurrences H t = occurrences H' t :=
  (h.map Prod.snd).count_eq t

theorem occurrences_eq_zero (h : ∀ e ∈ H, e.2 ≠ t) : occurrences H t = 0 := by
  simpa [occurrences, List.count_eq_zero] using fun k hk => h (k, t) hk rfl

/-- `s'` is `s` after the tags of the components `ks` have been selected into `sel`. -/
structure Made (s : Store) (ks : List CStr) (sel : HashTable TagId) (s' : Store) : Prop where
  typed : s'.Typed
  keys : sel.keys = ks
  entry : ∀ {k t}, (k, t) ∈ sel.entries → s'.tags.get? k = some t
  kept : ∀ {k t}, s.tags.get? k = some t → s'.tags.get? k = some t
  only : ∀ {k t}, s'.tags.get? k = some t →
    s.tags.get? k = some t ∨ k ∈ ks ∧ s.tags.get? k = none ∧ s.tagHeap.get? t = none
  /-- Each occurrence is a reference. -/
  old : ∀ {t T}, s.tagHeap.get? t = some T →
    s'.tagHeap.get? t = some { T with refCount := T.refCount + occurrences sel.entries t }
  new : ∀ {t T}, s'.tagHeap.get? t = some T → s.tagHeap.get? t = none →
    T.files = .empty ∧ T.inUse = false ∧ T.refCount = occurrences sel.entries t ∧
      1 ≤ T.refCount ∧ s.tags.get? T.value = none ∧ s'.tags.get? T.value = some t
  files : s'.files = s.files
  fileHeap : s'.fileHeap = s.fileHeap
  fds : s'.fds = s.fds
  leaked : s'.leaked = s.leaked

/-- The components that are registered under `t` are the entries that hold it. -/
theorem Selected.mentions_eq (h : Selected s ks sel s') :
    s'.mentions ks t = occurrences sel.entries t := by
  rw [← h.keys, Store.mentions, Table.keys, List.countP_map, occurrences, List.count, List.countP_map]
  refine List.countP_congr fun e he => ?_
  have hget : s'.tags.get? e.1 = some e.2 := (h.entry he).1
  simp [hget]

namespace Made

theorem of_selected (h : Selected s ks sel s') (ht : s'.Typed) : Made s ks sel s' where
  typed := ht
  keys := h.keys
  entry he := (h.entry he).1
  kept := h.kept
  only {k t} hk := by
    cases hold : s.tags.get? k with
    | some t' =>
      rw [h.kept hold] at hk
      exact .inl hk
    | none =>
      have hmem : k ∈ ks := by
        by_contra hno
        rw [h.registered.mpr ⟨hold, hno⟩] at hk
        cases hk
      obtain ⟨t', hget, hfresh, -⟩ := h.created hmem hold
      rw [hk] at hget
      cases hget
      exact .inr ⟨hmem, rfl, hfresh⟩
  old hT := by
    rw [← h.mentions_eq]
    exact h.old hT
  new {t T} hT hno := by
    obtain ⟨k, hk, hnone, hget⟩ := h.only hT hno
    obtain ⟨t', hget', -, hT'⟩ := h.created hk hnone
    rw [hget] at hget'
    cases hget'
    rw [hT] at hT'
    cases hT'
    have hpos : 0 < s'.mentions ks t := List.countP_pos_iff.mpr ⟨k, hk, by simpa using hget⟩
    exact ⟨rfl, rfl, congrArg _ h.mentions_eq, Int.ofNat_le.mpr hpos, hnone, hget⟩
  files := by rw [h.frame]
  fileHeap := by rw [h.frame]
  fds := by rw [h.frame]
  leaked := by rw [h.frame]

theorem eq_none (h : Made s ks sel s') (hk : s'.tags.get? k = none) : s.tags.get? k = none := by
  cases hk' : s.tags.get? k with
  | none => rfl
  | some t =>
    rw [h.kept hk'] at hk
    cases hk

theorem tidy (h : Made s ks sel s') (hs : s.Tidy) : s'.Tidy where
  toTyped := h.typed
  idle {t T} hT hu := by
    cases hold : s.tagHeap.get? t with
    | none => simp [(h.new hT hold).1]
    | some T₀ =>
      rw [h.old hold] at hT
      cases hT
      exact hs.idle (T := T₀) hold hu

theorem linked (h : Made s ks sel s') : s'.Linked k t n f ↔ s.Linked k t n f := by
  constructor
  · rintro ⟨T, hT, hv, hf⟩
    cases hold : s.tagHeap.get? t with
    | none => simp [(h.new hT hold).1] at hf
    | some T₀ =>
      rw [h.old hold] at hT
      cases hT
      exact ⟨T₀, hold, hv, hf⟩
  · rintro ⟨T, hT, hv, hf⟩
    exact ⟨_, h.old hT, hv, hf⟩

theorem tagged (h : Made s ks sel s') : s'.Tagged f k t ↔ s.Tagged f k t := by
  rw [Store.Tagged, Store.Tagged, h.fileHeap]

theorem coherent (h : Made s ks sel s') (hc : s.Coherent) : s'.Coherent := by
  intro n f hn k t
  rw [h.files] at hn
  rw [h.tagged, h.linked, hc hn k t]
  constructor
  · rintro ⟨hk, hl⟩
    exact ⟨h.kept hk, hl⟩
  · rintro ⟨hk, hl⟩
    refine ⟨(h.only hk).resolve_right fun hnew => ?_, hl⟩
    obtain ⟨T, hT, -⟩ := hl
    rw [hnew.2.2] at hT
    cases hT

end Made

theorem sat_made (h : s.Typed) (dirpath : CStr) :
    Sat E (computeSelectedTags s dirpath) fun r => Made s (components dirpath) r.1 r.2 := by
  have htyped : Returns (computeSelectedTags s dirpath) fun r => r.2.Typed := by
    apply sat_computeSelectedTags (fun _ _ s' => s'.Typed) _ _ _ h
    · rintro l sel s' k t ht hk
      obtain ⟨T, hT, -⟩ := ht.tagEntry hk
      exact ⟨T, hT⟩
    · rintro k l sel s' t T ht - hT
      exact ht.touchTag hT rfl rfl
    · rintro k l sel s' ht hk
      exact ht.registerTag (T := { tagNew k false with refCount := 1 }) hk rfl
  have hsel : Sat E (computeSelectedTags s dirpath) fun r =>
      Selected s (components dirpath) r.1 r.2 := by
    apply (sat_selected h.tagsUnique).weaken
    rintro e ⟨-, k, -, t, hk, hno⟩
    obtain ⟨T, hT, -⟩ := h.tagEntry hk
    rw [hno] at hT
    cases hT
  exact (hsel.and htyped).mono fun r hr => .of_selected hr.1 hr.2

/-- The path made from a string, given the table of its tags. -/
def pathOf (env : Env) (userPath : CStr) (selectedTags : HashTable TagId) : Path :=
  ⟨pathRealpath env userPath, userPath, dirname userPath, basename userPath, selectedTags⟩

theorem sat_pathCreate (h : s.Typed) (userPath : CStr) (isTag : Bool) :
    Sat E (pathCreate env s userPath isTag) fun r =>
      r.1 = pathOf env userPath r.1.selectedTags ∧
      Made s (components (if isTag = true then userPath else dirname userPath))
        r.1.selectedTags r.2 :=
  (sat_made h _).bind fun _ hr => ⟨rfl, hr⟩

/-- What the path to the file `n` of the directory `/d₁/…/dₖ` consists of. -/
structure Path.Child (p : Path) (env : Env) (ds : List CStr) (n : CStr) : Prop where
  filename : p.filename = n
  realpath : p.realpath = appendDir env.realdirpath n
  virtdirpath : ds ≠ [] → p.virtdirpath = dirPath ds

theorem sat_pathCreate_child {ds : List CStr} (h : s.Typed) (hds : ∀ d ∈ ds, IsName d)
    (hn : IsName n) : Sat E (pathCreate env s (dirPath ds ++ slash :: n) false) fun r =>
      r.1.Child env ds n ∧ Made s ds r.1.selectedTags r.2 := by
  apply (sat_pathCreate h _ false).mono
  rintro ⟨p, s'⟩ ⟨hp, hm⟩
  simp only [Bool.false_eq_true, if_false, components_dirname_dirPath hds hn] at hp hm
  refine ⟨⟨?_, ?_, fun hne => ?_⟩, hm⟩
  · rw [hp]
    exact basename_child hn (dirPath ds)
  · rw [hp]
    exact congrArg (appendDir env.realdirpath) (basename_child hn (dirPath ds))
  · rw [hp]
    exact dirname_dirPath hds hn hne

theorem made_of_pathCreate {path : Path} {userPath : CStr} (h : s.Typed)
    (hp : pathCreate env s userPath false = .ok (path, s')) :
    path = pathOf env userPath path.selectedTags ∧
      Made s (components (dirname userPath)) path.selectedTags s' :=
  (sat_pathCreate (E := fun _ => True) h userPath false).of_ok hp

/-- The record named `n` has the tag `k`. -/
def Store.Carries (s : Store) (n k : CStr) : Prop :=
  ∃ f, s.files.get? n = some f ∧ ∃ t, s.Tagged f k t

theorem Store.carries_iff_any : (s.files.get? n).any (fun f =>
    (s.fileHeap.get? f).any (·.tags.contains k)) = true ↔ s.Carries n k := by
  simp only [Store.Carries, Store.Tagged, Option.any_eq_true, Table.contains_iff_get?]
  constructor
  · rintro ⟨f, hn, F, hF, t, hk⟩
    exact ⟨f, hn, t, F, hF, hk⟩
  · rintro ⟨f, hn, t, F, hF, hk⟩
    exact ⟨f, hn, F, hF, t, hk⟩

instance (s : Store) (n k : CStr) : Decidable (s.Carries n k) :=
  decidable_of_iff _ Store.carries_iff_any

theorem carries_congr (hn : s'.files = s.files) (hF : s'.fileHeap = s.fileHeap) :
    s'.Carries n k ↔ s.Carries n k := by
  simp only [Store.Carries, Store.Tagged, hn, hF]

theorem carries_lost {C : CStr → Prop} (h : s.Typed) (hfiles : s'.files = s.files)
    (htag : ∀ f' k t, s'.Tagged f' k t ↔ s.Tagged f' k t ∧ ¬(f' = f ∧ C k))
    (hn : s.files.get? n' = some f) : s'.Carries n k ↔ s.Carries n k ∧ ¬(n = n' ∧ C k) := by
  simp only [Store.Carries, hfiles, htag]
  constructor
  · rintro ⟨f', hn', t, htag', hno⟩
    exact ⟨⟨f', hn', t, htag'⟩, fun he => hno ⟨(h.file_eq_iff hn' hn).mpr he.1, he.2⟩⟩
  · rintro ⟨⟨f', hn', t, htag'⟩, hno⟩
    exact ⟨f', hn', t, htag', fun he => hno ⟨(h.file_eq_iff hn' hn).mp he.1, he.2⟩⟩

namespace Made

theorem carries (h : Made s ks sel s') : s'.Carries n k ↔ s.Carries n k :=
  carries_congr h.files h.fileHeap

theorem mem_iff (h : Made s ks sel s') : (∃ t, (k, t) ∈ sel.entries) ↔ k ∈ ks := by
  rw [← h.keys, Table.keys, List.mem_map]
  constructor
  · rintro ⟨t, he⟩
    exact ⟨(k, t), he, rfl⟩
  · rintro ⟨⟨k, t⟩, he, rfl⟩
    exact ⟨t, he⟩

end Made

/-- `stat` reports something else than a directory. -/
def Env.regular (env : Env) (p : CStr) : Bool := (env.stat p).any fun st => !st.isDir

/-- `getattr_intra` makes the record of a regular file. -/
def getattrStore (env : Env) (s : Store) (p : Path) : Store :=
  if env.regular p.realpath = true then (fileGetOrCreate s p.filename).2 else s

/-- A regular file is found if it has the tags of the path; anything else is a directory. -/
def Accepts (env : Env) (s : Store) (p : Path) : Prop :=
  if env.regular p.realpath = true then ∀ e ∈ p.held, s.Carries p.filename e.1
  else (env.stat env.realdirpath).isSome = true

/-- `stat` finds the file, or the directory that stands for what is not found. -/
def Env.Found (env : Env) (f : CStr) : Prop :=
  env.regular (appendDir env.realdirpath f) = true ∨ (env.stat env.realdirpath).isSome = true

section FileGetOrCreate

theorem fileGetOrCreate_get? : (fileGetOrCreate s n).2.files.get? n = some (fileGetOrCreate s n).1 := by
  cases hn : s.files.get? n with
  | some f =>
    rw [fileGetOrCreate_some hn]
    exact hn
  | none =>
    rw [fileGetOrCreate_none hn]
    exact Table.get?_add_self

theorem fileGetOrCreate_cases {P : Store → Prop} (h : P s)
    (hnew : s.files.get? n = none → P (s.registerFile (fileNew n))) : P (fileGetOrCreate s n).2 := by
  cases hn : s.files.get? n with
  | some f =>
    rw [fileGetOrCreate_some hn]
    exact h
  | none =>
    rw [fileGetOrCreate_none hn]
    exact hnew hn

theorem typed_fileGetOrCreate (h : s.Typed) : (fileGetOrCreate s n).2.Typed :=
  fileGetOrCreate_cases h fun hn => h.registerFile (F := fileNew n) hn rfl

theorem tidy_fileGetOrCreate (h : s.Tidy) : (fileGetOrCreate s n).2.Tidy :=
  fileGetOrCreate_cases h fun hn => h.registerFile (F := fileNew n) hn rfl

theorem coherent_fileGetOrCreate (ht : s.Typed) (h : s.Coherent) :
    (fileGetOrCreate s n).2.Coherent :=
  fileGetOrCreate_cases h fun hn => h.registerFile (F := fileNew n) ht hn rfl

@[simp] theorem fileGetOrCreate_tags : (fileGetOrCreate s n).2.tags = s.tags := by
  unfold fileGetOrCreate
  split <;> rfl

@[simp] theorem fileGetOrCreate_tagHeap : (fileGetOrCreate s n).2.tagHeap = s.tagHeap := by
  unfold fileGetOrCreate
  split <;> rfl

@[simp] theorem fileGetOrCreate_fds : (fileGetOrCreate s n).2.fds = s.fds := by
  unfold fileGetOrCreate
  split <;> rfl

@[simp] theorem fileGetOrCreate_leaked : (fileGetOrCreate s n).2.leaked = s.leaked := by
  unfold fileGetOrCreate
  split <;> rfl

theorem tagged_fileGetOrCreate : (fileGetOrCreate s n).2.Tagged f k t ↔ s.Tagged f k t :=
  fileGetOrCreate_cases (P := fun s' => s'.Tagged f k t ↔ s.Tagged f k t) Iff.rfl
    fun _ => tagged_registerFile rfl

theorem files_fileGetOrCreate (h : s.files.get? k = some f) :
    (fileGetOrCreate s n).2.files.get? k = some f := by
  refine fileGetOrCreate_cases (P := fun s' => s'.files.get? k = some f) h fun hn => ?_
  have hne : n ≠ k := by
    rintro rfl
    rw [h] at hn
    cases hn
  simpa [Store.registerFile, fileNew, Table.get?_add, hne] using h

theorem carries_fileGetOrCreate :
    (fileGetOrCreate s n).2.Carries n' k ↔ s.Carries n' k := by
  constructor
  · rintro ⟨f, hf, t, h⟩
    rw [tagged_fileGetOrCreate] at h
    cases hn : s.files.get? n with
    | some f₁ =>
      rw [fileGetOrCreate_some hn] at hf
      exact ⟨f, hf, t, h⟩
    | none =>
      rw [fileGetOrCreate_none hn] at hf
      simp only [Store.registerFile, Table.get?_add] at hf
      split_ifs at hf
      · cases hf
        obtain ⟨F, hF, -⟩ := h
        exact absurd rfl (Heap.ne_next hF)
      · exact ⟨f, hf, t, h⟩
  · rintro ⟨f, hf, t, h⟩
    exact ⟨f, files_fileGetOrCreate hf, t, tagged_fileGetOrCreate.mpr h⟩

theorem typed_getattrStore {p : Path} (h : s.Typed) : (getattrStore env s p).Typed := by
  unfold getattrStore
  split_ifs
  · exact typed_fileGetOrCreate h
  · exact h

theorem tidy_getattrStore {p : Path} (h : s.Tidy) : (getattrStore env s p).Tidy := by
  unfold getattrStore
  split_ifs
  · exact tidy_fileGetOrCreate h
  · exact h

theorem coherent_getattrStore {p : Path} (h : s.Typed) (hc : s.Coherent) :
    (getattrStore env s p).Coherent := by
  unfold getattrStore
  split_ifs
  · exact coherent_fileGetOrCreate h hc
  · exact hc

@[simp] theorem getattrStore_tags {p : Path} : (getattrStore env s p).tags = s.tags := by
  unfold getattrStore
  split_ifs <;> simp

@[simp] theorem getattrStore_tagHeap {p : Path} : (getattrStore env s p).tagHeap = s.tagHeap := by
  unfold getattrStore
  split_ifs <;> simp

theorem tagged_getattrStore {p : Path} : (getattrStore env s p).Tagged f k t ↔ s.Tagged f k t := by
  unfold getattrStore
  split_ifs
  · exact tagged_fileGetOrCreate
  · exact Iff.rfl

theorem carries_getattrStore {p : Path} : (getattrStore env s p).Carries n k ↔ s.Carries n k := by
  unfold getattrStore
  split_ifs
  · exact carries_fileGetOrCreate
  · exact Iff.rfl

end FileGetOrCreate

theorem sat_fileMatchesTags (hF : s.fileHeap.get? f = some F)
    (hsel : ∀ e ∈ sel.entries, ∃ T, s.tagHeap.get? e.2 = some T ∧ T.value = e.1) :
    Sat E (fileMatchesTags s f sel) fun b => b = true ↔ ∀ e ∈ sel.entries, ∃ t, s.Tagged f e.1 t := by
  have htag (k : CStr) : (∃ t, s.Tagged f k t) ↔ F.tags.contains k = true := by
    simp [Store.Tagged, hF, Table.contains_iff_get?]
  simp only [htag, fileMatchesTags, Store.readFile_eq hF, bind, Except.bind]
  -- the flag tells whether all tags seen so far are carried
  refine (sat_forEach (fun l b => (∀ e ∈ l, e ∈ sel.entries) ∧
    ((b = true ∧ ∀ e ∈ l, F.tags.contains e.1 = true) ↔
      ∀ e ∈ sel.entries, F.tags.contains e.1 = true)) ?_ _ _ ⟨fun _ he => he, by simp⟩).mono ?_
  · rintro e l b ⟨hmem, hb⟩
    obtain ⟨T, hT, hv⟩ := hsel e (hmem e List.mem_cons_self)
    simp only [Store.readTag_eq hT, sat_ok]
    refine ⟨fun e' he' => hmem e' (List.mem_cons_of_mem _ he'), ?_⟩
    rw [← hb, hv]
    by_cases hc : F.tags.contains e.1 = true
    · simp [hc]
    · simp [hc]
  · rintro b ⟨-, hb⟩
    simpa using hb

theorem sat_getattrIntra {p : Path} (h : s.Typed)
    (hp : ∀ e ∈ p.held, ∃ T, s.tagHeap.get? e.2 = some T ∧ T.value = e.1) :
    Sat E (getattrIntra env s p) fun r => r.2.2 = getattrStore env s p ∧
      (r.1 = 0 ∧ Accepts env s p ∨ r.1 < 0 ∧ ¬ Accepts env s p) := by
  have hroot : (statRoot env).1 = 0 ∧ (env.stat env.realdirpath).isSome = true ∨
      (statRoot env).1 < 0 ∧ ¬ (env.stat env.realdirpath).isSome = true := by
    unfold statRoot
    cases env.stat env.realdirpath with
    | none => simp
    | some st => simp
  unfold getattrIntra getattrStore Accepts
  cases hst : env.stat p.realpath with
  | none =>
    have hreg : env.regular p.realpath = false := by simp [Env.regular, hst]
    simpa [hreg] using hroot
  | some st =>
    dsimp only
    by_cases hdir : st.isDir = true
    · have hreg : env.regular p.realpath = false := by simp [Env.regular, hst, hdir]
      simpa [hdir, hreg] using hroot
    · have hreg : env.regular p.realpath = true := by simp [Env.regular, hst, hdir]
      rw [if_neg hdir]
      simp only [hreg, if_true]
      have hf := fileGetOrCreate_get? (s := s) (n := p.filename)
      have ht := typed_fileGetOrCreate (n := p.filename) h
      obtain ⟨F, hF, -⟩ := ht.fileEntry hf
      have hcar (k : CStr) : (∃ t, (fileGetOrCreate s p.filename).2.Tagged
          (fileGetOrCreate s p.filename).1 k t) ↔ s.Carries p.filename k := by
        rw [← carries_fileGetOrCreate (n := p.filename), Store.Carries]
        simp [hf]
      split_ifs with hsize htf
      · refine (sat_fileMatchesTags hF (by simpa [Path.held] using hp)).bind fun b hb => ⟨rfl, ?_⟩
        simp only [hcar] at hb
        cases b with
        | true => exact .inl ⟨rfl, hb.mp rfl⟩
        | false => exact .inr ⟨by simp [ENOENT], fun hall => by simpa using hb.mpr hall⟩
      all_goals
        have hnil : p.selectedTags.entries = [] := by
          simpa [Table.size] using hsize
        exact ⟨rfl, .inl ⟨rfl, by simp [Path.held, hnil]⟩⟩

end TagFilesystem.Fuse
