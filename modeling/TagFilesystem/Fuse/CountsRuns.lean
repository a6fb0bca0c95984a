import TagFilesystem.Fuse.Counts
import TagFilesystem.Fuse.TagOper
import TagFilesystem.Library.Simulation

namespace TagFilesystem.Fuse

open Cutil (INT_MAX)

variable {env : Env} {s s' : Store} {ks : List CStr} {D : TagId → Prop}

theorem coincide_tagGetattr {userPath : CStr} (h : s.Fits 1 D (components (dirname userPath) ++ ks)) :
    Coincide (@tagGetattr Counting.int env s userPath) (tagGetattr env s userPath) fun r =>
      r.2.2.Fits 1 D ks := by
  refine (coincide_pathCreate false h).bind fun r₁ h₁ => ?_
  refine (Coincide.of_returns (sameCounts_getattrIntra r₁.1)).bind fun r₂ h₂ => ?_
  exact (coincide_pathDelete (h₂.fits h₁.2) h₁.1).bind fun s₃ h₃ => .ok h₃

theorem coincide_tagGetxattrListTags {userPath : CStr} {size : ℕ}
    (h : s.Fits 1 D (components (dirname userPath) ++ ks)) :
    Coincide (@tagGetxattrListTags Counting.int env s userPath size)
      (tagGetxattrListTags env s userPath size) fun r => r.2.2.Fits 1 D ks := by
  refine (coincide_pathCreate false h).bind fun r₁ h₁ => ?_
  refine (Coincide.of_returns (sameCounts_getattrIntra r₁.1)).bind fun r₂ h₂ => ?_
  have hf := h₂.fits h₁.2
  dsimp only
  split_ifs
  · exact (coincide_pathDelete hf h₁.1).bind fun s₃ h₃ => .ok h₃
  · exact (coincide_pathDelete hf h₁.1).bind fun s₃ h₃ => .ok h₃
  · refine (Coincide.of_returns (returns_true _)).bind fun str _ => ?_
    exact (coincide_pathDelete (sameCounts_fileGetOrCreate.fits hf) h₁.1).bind fun s₃ h₃ => .ok h₃

theorem sameCounts_fileAddDescriptor {f : Option FileId} {a : Addr} :
    Returns (fileAddDescriptor s f a) (SameCounts s) := by
  cases f with
  | none => trivial
  | some f => exact sat_bind.mpr (sat_readFile (fun _ => trivial) fun F _ => .of_eq rfl rfl)

theorem sameCounts_fileRemoveDescriptor {f : Option FileId} {fd : FileDescriptor} :
    Returns (fileRemoveDescriptor s f fd) (SameCounts s) := by
  cases f with
  | none => trivial
  | some f => exact sat_bind.mpr (sat_readFile (fun _ => trivial) fun F _ => .of_eq rfl rfl)

theorem sameCounts_fdOpen {path : Path} {m : Malloc} {flags : ℤ} {isTag : Bool} :
    Returns (fdOpen env s path m flags isTag) fun r => SameCounts s r.2 := by
  unfold fdOpen
  generalize (if isTag = true then _ else _ : Except ℤ ℤ) = opened
  cases opened with
  | error errno => exact .refl s
  | ok fh =>
    refine (returns_true _).bind fun tag _ => ?_
    cases tag with
    | error e => exact .refl s
    | ok tag =>
      cases m.fd with
      | none => exact .refl s
      | some a =>
        dsimp only
        split_ifs
        · exact SameCounts.of_eq rfl rfl
        · exact sameCounts_fileAddDescriptor.bind fun s₁ h₁ => h₁.trans (SameCounts.of_eq rfl rfl)

theorem coincide_tagOpen {userPath : CStr} {m : Malloc} {flags : ℤ} {isTag : Bool}
    (h : s.Fits 1 D (components (if isTag = true then userPath else dirname userPath) ++ ks)) :
    Coincide (@tagOpen Counting.int env s userPath m flags isTag)
      (tagOpen env s userPath m flags isTag) fun r => r.2.Fits 1 D ks := by
  refine (coincide_pathCreate _ h).bind fun r₁ h₁ => ?_
  refine (Coincide.of_returns sameCounts_fdOpen).bind fun r₂ h₂ => ?_
  have hf := h₂.fits h₁.2
  dsimp only
  split
  · exact .ok (hf.of_eq rfl rfl)
  · exact .ok hf

theorem coincide_fdClose {a : Addr} (h : s.Fits 1 (fun _ => True) ks) :
    Coincide (@fdClose Counting.int env s a) (fdClose env s a) fun r =>
      r.2.Fits 1 (fun _ => True) ks := by
  refine (Coincide.of_returns (returns_true (s.readFd a))).bind fun fd _ => ?_
  refine (coincide_pathDelete h fun _ _ => trivial).bind fun s₁ h₁ => ?_
  dsimp only
  refine .of_returns ?_
  split_ifs
  · exact h₁.of_eq rfl rfl
  · exact sameCounts_fileRemoveDescriptor.bind fun s₂ h₂ => (h₂.fits h₁).of_eq rfl rfl

theorem coincide_tagRename {src dst : CStr}
    (h : s.Fits 1 D (components (dirname src) ++ components (dirname dst))) :
    Coincide (@tagRename Counting.int env s src dst) (tagRename env s src dst) fun r =>
      r.2.Fits 1 D [] := by
  refine (coincide_pathCreate false h).bind fun r₁ h₁ => ?_
  rw [← List.append_nil (components (dirname dst))] at h₁
  refine (coincide_pathCreate false h₁.2).bind fun r₂ h₂ => ?_
  have hdel {s₃ : Store} {res : ℤ} (h₃ : s₃.Fits 1 D []) : Coincide
      (do
        let s₄ ← @pathDelete Counting.int env s₃ r₁.1
        let s₅ ← @pathDelete Counting.int env s₄ r₂.1
        .ok (res, s₅))
      (do
        let s₄ ← pathDelete env s₃ r₁.1
        let s₅ ← pathDelete env s₄ r₂.1
        .ok (res, s₅)) fun r => r.2.Fits 1 D [] := by
    refine (coincide_pathDelete h₃ h₁.1).bind fun s₄ h₄ => ?_
    exact (coincide_pathDelete h₄ h₂.1).bind fun s₅ h₅ => .ok h₅
  dsimp only
  split_ifs
  · exact hdel h₂.2
  · refine (Coincide.of_returns (sameCounts_pathLink r₁.1 r₂.1)).bind fun r₃ h₃ => ?_
    exact (coincide_pathUnlink (h₃.fits h₂.2) h₁.1).bind fun r₄ h₄ => hdel h₄

/-- The components that the paths of a call refer to. -/
def Callback.references : Callback → List CStr
  | .getattr p | .openFile p .. => components (dirname p)
  | .opendir p .. => components p
  | .getxattr p name _ => if name = attrTags then components (dirname p) else []
  | .unlink p => if getCharacterCount p slash ≤ 1 then [] else components (dirname p)
  | .link p q | .rename p q => components (dirname p) ++ components (dirname q)
  | _ => []

theorem coincide_openReply {userPath : CStr} {m : Malloc} {flags : ℤ} (isTag : Bool)
    (h : s.Fits 1 D (components (if isTag = true then userPath else dirname userPath) ++ ks)) :
    Coincide (@openReply Counting.int env s userPath m flags isTag)
      (openReply env s userPath m flags isTag) fun r => r.2.Fits 1 D ks := by
  unfold openReply
  split_ifs
  · exact (coincide_tagOpen h).map fun _ hr => hr
  · exact ⟨rfl, trivial⟩

theorem coincide_tagOper {e : Event} (h : s.Fits 1 (fun _ => True) e.callback.references) :
    Coincide (@tagOper Counting.int s e) (tagOper s e) fun r => r.2.Fits 1 (fun _ => True) [] := by
  obtain ⟨env, c⟩ := e
  have happ {p : CStr} (hp : s.Fits 1 (fun _ => True) (components p)) :
      s.Fits 1 (fun _ => True) (components p ++ []) := by rwa [List.append_nil]
  cases c with
  | getattr p => exact (coincide_tagGetattr (happ h)).map fun _ hr => hr
  | fgetattr a =>
    refine .of_returns (sat_map.mpr (sat_bind.mpr (sat_readFd trivial fun fd _ => ?_)))
    exact (sameCounts_getattrIntra fd.path).mono fun _ hc => hc.fits h
  | getxattr p name size =>
    refine Coincide.map (Q := fun r => r.2.2.Fits 1 (fun _ => True) []) ?_ fun _ hr => hr
    simp only [Callback.references] at h
    unfold tagGetxattr
    split_ifs at h ⊢
    · exact coincide_tagGetxattrListTags (happ h)
    · exact .ok h
    · exact .ok h
  | openFile p flags m => exact coincide_openReply false (happ h)
  | opendir p flags m => exact coincide_openReply true (happ h)
  | release a => exact (coincide_fdClose h).map fun _ hr => hr
  | readdir a =>
    refine .of_returns (sat_map.mpr (sat_bind.mpr (sat_readFd trivial fun fd _ => ?_)))
    have hfiles := @sameCounts_readdirListFiles env s fd.path
    dsimp only
    split_ifs
    · exact (returns_true _).bind fun tags _ => hfiles.bind fun r hc => hc.fits h
    · exact (returns_true _).bind fun tags _ => hfiles.bind fun r hc => hc.fits h
  | read a len off => exact .of_returns (sat_map.mpr ((returns_true _).mono fun _ _ => h))
  | write a buffer off => exact .of_returns (sat_map.mpr ((returns_true _).mono fun _ _ => h))
  | link p q => exact (coincide_tagLink h).map fun _ hr => hr
  | unlink p =>
    refine Coincide.map (Q := fun r => r.2.Fits 1 (fun _ => True) []) ?_ fun _ hr => hr
    simp only [Callback.references] at h
    split_ifs at h with hc
    · simp only [tagUnlink, if_pos hc]
      exact .ok h
    · exact coincide_tagUnlink h
  | rename p q => exact (coincide_tagRename h).map fun _ hr => hr
  | ioctl a readTags compat => exact .of_returns (sat_map.mpr ((returns_true _).mono fun _ _ => h))
  | poll a ph =>
    refine .of_returns (sat_map.mpr (sat_bind.mpr (sat_readFd trivial fun fd _ => ?_)))
    cases fd.file with
    | none => trivial
    | some f =>
      refine sat_bind.mpr (sat_readFile (fun _ => trivial) fun F _ => ?_)
      exact h.of_eq rfl rfl
  | _ => exact .ok h

theorem coincide_step {e : Event} (h : s.Fits 1 (fun _ => True) e.callback.references) :
    Coincide (@step Counting.int s e) (step s e) (Store.Fits · 1 (fun _ => True) []) := by
  rw [step_eq, step_eq (c := Counting.int)]
  exact (coincide_tagOper h).map fun _ hr => hr

/-- The components that a line of the database refers to. -/
def lineReferences (word : CStr) : List CStr :=
  if word.head? = some numberSign then []
  else match word.dropWhile isspace with
    | [] => []
    | c :: rest =>
      if c = openBracket then components (dirname (copyWordUntil rest closeBracket))
      else if copyWordUntil (c :: rest) newline = [] then []
      else [copyWordUntil (c :: rest) newline]

theorem length_lineReferences (word : CStr) : (lineReferences word).length ≤ word.length := by
  have hdrop : (word.dropWhile isspace).length ≤ word.length :=
    (List.dropWhile_suffix isspace).length_le
  unfold lineReferences
  split_ifs
  · exact Nat.zero_le _
  cases hw : word.dropWhile isspace with
  | nil => exact Nat.zero_le _
  | cons c rest =>
    rw [hw, List.length_cons] at hdrop
    dsimp only
    split_ifs
    · have hdata : (copyWordUntil rest closeBracket).length ≤ rest.length :=
        (List.takeWhile_prefix _).length_le
      have := length_components_dirname (copyWordUntil rest closeBracket)
      omega
    · exact Nat.zero_le _
    · rw [List.length_singleton]
      omega

theorem flatten_fgetsFrom (size room : ℕ) (word text : CStr) :
    (fgetsFrom size room word text).flatten = word ++ text := by
  induction text generalizing room word with
  | nil =>
    unfold fgetsFrom
    split_ifs with hw
    · rw [hw]
      rfl
    · simp
  | cons c text ih =>
    unfold fgetsFrom
    split_ifs
    · rw [List.flatten_cons, ih]
      simp
    · rw [ih]
      simp

theorem length_references (text : CStr) :
    ((fgets maxLength text).flatMap lineReferences).length ≤ text.length := by
  have hlines (lines : List CStr) : (lines.flatMap lineReferences).length ≤ lines.flatten.length := by
    induction lines with
    | nil => exact le_refl _
    | cons word lines ih =>
      have := length_lineReferences word
      simp only [List.flatMap_cons, List.flatten_cons, List.length_append]
      omega
  have h := hlines (fgets maxLength text)
  rwa [fgets, flatten_fgetsFrom, List.nil_append] at h

theorem coincide_parseTag {f : Option FileId} {word : CStr}
    (h : s.Fits 1 D ((if copyWordUntil word newline = [] then [] else [copyWordUntil word newline]) ++ ks)) :
    Coincide (@parseTag Counting.int env s f word) (parseTag env s f word) (Store.Fits · 1 D ks) := by
  unfold parseTag
  dsimp only
  split_ifs at h ⊢
  · exact .ok h
  refine (coincide_tagGetOrCreate h).bind fun r hr => .of_returns ?_
  cases f with
  | none => exact hr
  | some f => exact sameCounts_tagFile.mono fun _ hc => hc.fits hr

theorem coincide_parseLine {r : Option FileId × Store} {word : CStr}
    (h : r.2.Fits 1 D (lineReferences word ++ ks)) :
    Coincide (@parseLine Counting.int env
        (fun s p => (fun r => (r.1, r.2.2)) <$> @tagGetattr Counting.int env s p) r word)
      (parseLine env (fun s p => (fun r => (r.1, r.2.2)) <$> tagGetattr env s p) r word) fun r =>
        r.2.Fits 1 D ks := by
  unfold parseLine
  unfold lineReferences at h
  split_ifs at h ⊢
  · exact .ok h
  dsimp only
  cases hw : word.dropWhile isspace with
  | nil =>
    rw [hw] at h
    exact (coincide_parseTag (by simpa [copyWordUntil] using h)).bind fun s' hs' => .ok hs'
  | cons c rest =>
    rw [hw] at h
    dsimp only at h ⊢
    split_ifs at h ⊢ with hb
    · refine Coincide.bind (Q := fun q => q.2.Fits 1 D ks)
        ((coincide_tagGetattr h).map fun _ hr => hr) fun q hq => .of_returns ?_
      dsimp only
      split_ifs
      · exact sameCounts_fileGetOrCreate.fits hq
      · exact hq
    all_goals exact (coincide_parseTag (by simpa [*] using h)).bind fun s' hs' => .ok hs'

theorem fits_init {lo : ℤ} (hks : (ks.length : ℤ) ≤ INT_MAX) :
    Store.init.Fits lo (fun _ => True) ks where
  unique := Table.unique_empty
  room := hks
  fresh _ := trivial
  registered _ _ := trivial
  low _ hT := by cases hT
  high _ hT := by cases hT

theorem coincide_setRootDirectory {file : Option CStr}
    (hfile : ∀ text ∈ file, (text.length : ℤ) ≤ INT_MAX) :
    Coincide (@setRootDirectory Counting.int env file) (setRootDirectory env file)
      (Store.Fits · 1 (fun _ => True) []) := by
  cases file with
  | none => exact .ok (fits_init (by simp [INT_MAX]))
  | some text =>
    have hlen := hfile text rfl
    have hroom : (((fgets maxLength text).flatMap lineReferences).length : ℤ) ≤ INT_MAX := by
      have := length_references text
      omega
    refine Coincide.bind (Q := fun r => r.2.Fits 1 (fun _ => True) []) ?_ fun r hr => .ok hr
    refine Coincide.forEach (fun l (r : Option FileId × Store) =>
      r.2.Fits 1 (fun _ => True) (l.flatMap lineReferences)) ?_ _ _ (fits_init hroom)
    intro word l r hr
    exact coincide_parseLine hr

section Runs

variable {guard : Store → Event → Prop} {s₀ : Store}

/-- A run whose counts fit into an `int` is a run with counts without bounds. -/
theorem reaches_of_int (h₀ : s₀.Fits 1 (fun _ => True) [])
    (h : Reaches (@step Counting.int) (fun s e => guard s e ∧ s.RoomFor e.callback.references) s₀ s) :
    Reaches step guard s₀ s ∧ s.Fits 1 (fun _ => True) [] := by
  induction h with
  | refl => exact ⟨.refl _, h₀⟩
  | tail _ hg he ih =>
    obtain ⟨hrun, hs⟩ := ih
    obtain ⟨he', hs'⟩ := (coincide_step (hg.2.extend hs)).of_ok he
    exact ⟨hrun.tail hg.1 he', hs'⟩

theorem logs_of_int {log : List (Event × Reply)} (h₀ : s₀.Fits 1 (fun _ => True) [])
    (h : Logs (@tagOper Counting.int) (fun s e => guard s e ∧ s.RoomFor e.callback.references)
      s₀ log s) : Logs tagOper guard s₀ log s ∧ s.Fits 1 (fun _ => True) [] := by
  induction h with
  | nil => exact ⟨.nil, h₀⟩
  | snoc _ hg he ih =>
    obtain ⟨hrun, hs⟩ := ih
    obtain ⟨he', hs'⟩ := (coincide_tagOper (hg.2.extend hs)).of_ok he
    exact ⟨hrun.snoc hg.1 he', hs'⟩

end Runs

end TagFilesystem.Fuse
