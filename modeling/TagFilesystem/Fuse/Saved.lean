import TagFilesystem.Fuse.Names

namespace TagFilesystem.Fuse

variable {s : Store} {k n p line : CStr} {e : Entry}

/-- Wherever the line stands in a text, the parser reads it as this entry. -/
def ReadBack (line : CStr) (e : Entry) : Prop :=
  ∀ env getattr before after, WholeLines before → ∃ s,
    parseTagsDb2 env (readOnly getattr) (before ++ line ++ after) .init = .ok s ∧
    Describes getattr
      ((fgets maxLength before).map entryOf ++ e :: (fgets maxLength after).map entryOf) s

theorem relates_skip {getattr : CStr → ℤ} (es es' : List Entry) :
    Relates getattr (es ++ .nothing :: es') n k ↔ Relates getattr (es ++ es') n k := by
  have hcur (es' : List Entry) :
      currentFile getattr (es ++ .nothing :: es') = currentFile getattr (es ++ es') := by
    simp only [currentFile, List.foldl_append, List.foldl_cons, Entry.current]
  induction es' using List.reverseRecOn with
  | nil => simp [relates_append]
  | append_singleton es' e ih =>
    have hrest : Relates getattr (es ++ .nothing :: es') n k ↔ Relates getattr (es ++ es') n k := ih
    rw [← List.cons_append, ← List.append_assoc, ← List.append_assoc, relates_append, relates_append,
      hrest, hcur]

theorem Describes.skip {getattr : CStr → ℤ} {es es' : List Entry}
    (h : Describes getattr (es ++ .nothing :: es') s) : Describes getattr (es ++ es') s where
  typed := h.typed
  coherent := h.coherent
  registered k := by simp [h.registered]
  used := h.used
  carries n k := by rw [h.carries, relates_skip]

theorem readBack_of_fits {l : CStr} (hl : newline ∉ l) (hlen : l.length ≤ 999)
    (hline : entryOf (l ++ [newline]) = e) (hpiece : entryOf l = e) : ReadBack (l ++ [newline]) e := by
  intro env getattr before after hbefore
  obtain ⟨s, hs, hd⟩ := parseTagsDb2_pieces env getattr (before ++ (l ++ [newline]) ++ after)
  refine ⟨s, hs, ?_⟩
  rw [List.append_assoc, fgets_append hbefore, fgets_append (wholeLines_concat l),
    List.map_append, List.map_append] at hd
  by_cases hfits : l.length ≤ 998
  · have hpieces : fgets maxLength (l ++ [newline]) = [l ++ [newline]] :=
      fgetsFrom_line hl (Nat.lt_succ_of_le hfits)
    rw [hpieces, List.map_singleton, hline] at hd
    exact hd
  · have hfull : l.length = maxLength - 1 := by
      have hmax : maxLength - 1 = 999 := rfl
      omega
    have hpieces : fgets maxLength (l ++ [newline]) = [l, [newline]] :=
      fgetsFrom_full hl hfull (by decide)
    have hempty : entryOf [newline] = .nothing := by decide
    rw [hpieces, List.map_cons, List.map_singleton, hpiece, hempty] at hd
    rw [List.append_cons]
    apply Describes.skip
    rw [← List.append_cons]
    exact hd

/-- A name that can stand on a line of its own. -/
def PlainTag (k : CStr) : Prop :=
  k ≠ [] ∧ slash ∉ k ∧ newline ∉ k ∧
    ∀ c ∈ k.head?, isspace c = false ∧ c ≠ numberSign ∧ c ≠ openBracket

/-- A name that can stand in brackets on a line of its own. -/
def PlainFile (n : CStr) : Prop := newline ∉ n ∧ closeBracket ∉ n

instance (k : CStr) : Decidable (PlainTag k) := inferInstanceAs (Decidable (_ ∧ _ ∧ _ ∧ _))

instance (n : CStr) : Decidable (PlainFile n) := inferInstanceAs (Decidable (_ ∧ _))

theorem entryOf_tag {rest : CStr} (h : PlainTag k) (hdata : copyWordUntil (k ++ rest) newline = k) :
    entryOf (k ++ rest) = .tag k := by
  obtain ⟨hne, -, -, hhead⟩ := h
  obtain ⟨c, k, rfl⟩ := List.exists_cons_of_ne_nil hne
  obtain ⟨hspace, hsign, hbracket⟩ := hhead c rfl
  have hhead : (c :: k ++ rest).head? ≠ some numberSign := by simpa using hsign
  have hdrop : (c :: k ++ rest).dropWhile isspace = c :: (k ++ rest) :=
    List.dropWhile_cons_of_neg (by simp [hspace])
  exact entryOf_eq_tag.mpr ⟨hhead, c, k ++ rest, hdrop, hbracket, hdata⟩

theorem entryOf_file (h : PlainFile n) (rest : CStr) :
    entryOf (openBracket :: n ++ closeBracket :: rest) = .file n := by
  have hdata : copyWordUntil (n ++ closeBracket :: rest) closeBracket = n := takeWhile_stop h.2
  have hhead : (openBracket :: n ++ closeBracket :: rest).head? ≠ some numberSign := by
    rw [List.cons_append, List.head?_cons]
    decide
  have hdrop : (openBracket :: n ++ closeBracket :: rest).dropWhile isspace =
      openBracket :: (n ++ closeBracket :: rest) := List.dropWhile_cons_of_neg (by decide)
  exact entryOf_eq_file.mpr ⟨hhead, _, hdrop, hdata⟩

/-- The name is that of a tag, and its line in the database is read back as this tag. -/
def TagSaved (k : CStr) : Prop := k ≠ [] ∧ slash ∉ k ∧ ReadBack (k ++ [newline]) (.tag k)

/-- The header of the file is read back as this file. -/
def FileSaved (n : CStr) : Prop := ReadBack (headerLine n) (.file n)

theorem PlainTag.saved (h : PlainTag k) (hlen : k.length ≤ 999) : TagSaved k := by
  have hpiece : entryOf (k ++ []) = .tag k := by
    apply entryOf_tag h
    rw [List.append_nil]
    exact takeWhile_self h.2.2.1
  rw [List.append_nil] at hpiece
  exact ⟨h.1, h.2.1, readBack_of_fits h.2.2.1 hlen (entryOf_tag h (takeWhile_stop h.2.2.1)) hpiece⟩

theorem PlainFile.saved (h : PlainFile n) (hlen : n.length ≤ 997) : FileSaved n := by
  have hnl : newline ∉ openBracket :: n ++ [closeBracket] := by
    have hne : newline ≠ openBracket ∧ newline ≠ closeBracket := by decide
    simp [h.1, hne.1, hne.2]
  have hfits : (openBracket :: n ++ [closeBracket]).length ≤ 999 := by
    rw [List.length_append, List.length_cons, List.length_singleton]
    omega
  have hheader : headerLine n = (openBracket :: n ++ [closeBracket]) ++ [newline] := by
    simp [headerLine]
  have hline : entryOf ((openBracket :: n ++ [closeBracket]) ++ [newline]) = .file n := by
    rw [List.append_assoc]
    exact entryOf_file h [newline]
  unfold FileSaved
  rw [hheader]
  exact readBack_of_fits hnl hfits hline (entryOf_file h [])

/-- Every tag in use and every file that has a tag survive saving. -/
structure Store.Saved (s : Store) : Prop where
  tag : ∀ t T, s.tagHeap.get? t = some T → T.inUse = true → TagSaved T.value
  file : ∀ n f F, s.files.get? n = some f → s.fileHeap.get? f = some F → F.tags.entries ≠ [] →
    FileSaved F.name

theorem Store.Named.saved (h : s.Named TagSaved fun n _ => FileSaved n) : s.Saved where
  tag _ _ hT hu := h.used hT hu
  file n f F hn hF hne := by
    obtain ⟨⟨k, t⟩, he⟩ := List.exists_mem_of_ne_nil _ hne
    have hcar : s.Carries n k := ⟨f, hn, t, F, hF, (h.fileTagsUnique hF).get?_eq_some.mpr he⟩
    rw [h.name_of_get? hn hF]
    exact h.carries hcar

/-- The components have at most 255 bytes. -/
def ShortPath (p : CStr) : Prop := ∀ c ∈ strtok p [slash], c.length ≤ 255

theorem ShortPath.length_component (h : ShortPath p) : ∀ k ∈ components (dirname p), k.length ≤ 255 :=
  fun k hk => h k (components_dirname_subset hk)

theorem length_le_of_special {b : CStr} (hb : b = dot ∨ b = [slash]) : b.length ≤ 255 := by
  rcases hb with rfl | rfl
  · decide
  · decide

theorem ShortPath.length_basename (h : ShortPath p) : (basename p).length ≤ 255 := by
  by_cases hq : p.rdropWhile (· = slash) = []
  · exact length_le_of_special (basename_of_slashes hq)
  · exact h _ (basename_mem_strtok hq)

theorem ShortPath.length_basename_dirname (h : ShortPath p) : (basename (dirname p)).length ≤ 255 := by
  by_cases hc : components (dirname p) = []
  · exact length_le_of_special (basename_of_components_nil hc)
  · exact h.length_component _ (basename_mem_components hc)

/-- The path arguments of a callback. -/
def Callback.paths : Callback → List CStr
  | .getattr p | .setxattr p | .getxattr p _ _ | .openFile p _ _ | .opendir p _ _ | .unlink p
  | .rmdir p | .mkdir p | .mknod p _ _ | .truncate p _ | .chmod p _ | .chown p _ _ | .utime p => [p]
  | .link p q | .rename p q => [p, q]
  | .fgetattr _ | .release _ | .readdir _ | .read _ _ _ | .write _ _ _ | .ioctl _ _ _ | .poll _ _ => []

def Event.Short (e : Event) : Prop := ∀ p ∈ e.callback.paths, ShortPath p

instance (p : CStr) : Decidable (ShortPath p) := inferInstanceAs (Decidable (∀ c ∈ _, _))

instance (e : Event) : Decidable e.Short := inferInstanceAs (Decidable (∀ p ∈ _, _))

/-- Every name that the event puts in use, or gives a tag to, is plain. -/
def PlainNames (s : Store) (e : Event) : Prop := Admits PlainTag (fun n _ => PlainFile n) s e

theorem admits_saved {e : Event} (hshort : e.Short) (h : PlainNames s e) :
    Admits TagSaved (fun n _ => FileSaved n) s e := by
  obtain ⟨env, c⟩ := e
  have htag {k : CStr} (hk : PlainTag k) (hlen : k.length ≤ 255) : TagSaved k :=
    hk.saved (Nat.le_trans hlen (by decide))
  have hname {n : CStr} (hn : PlainFile n) (hlen : n.length ≤ 255) : FileSaved n :=
    hn.saved (Nat.le_trans hlen (by decide))
  cases c with
  | link p q =>
    have hp : ShortPath p := hshort p List.mem_cons_self
    have hq : ShortPath q := hshort q (List.mem_cons_of_mem p List.mem_cons_self)
    refine ⟨fun hc => htag (h.1 hc) hq.length_basename_dirname, fun hacc k hk => ?_⟩
    obtain ⟨hk', hn⟩ := h.2 hacc k hk
    exact ⟨htag hk' (hq.length_component k hk), hname hn hp.length_basename⟩
  | rename p q =>
    have hp : ShortPath p := hshort p List.mem_cons_self
    have hq : ShortPath q := hshort q (List.mem_cons_of_mem p List.mem_cons_self)
    intro a d ha hd hacc
    obtain ⟨hk, hn⟩ := h a d ha hd hacc
    refine ⟨htag hk (hq.length_component d ?_), fun hne => hname (hn hne) hp.length_basename⟩
    rw [hd]
    exact List.mem_singleton_self d
  | _ => trivial

theorem length_le_of_mem_fgetsFrom {size room : ℕ} {word text w : CStr} (hpos : 1 ≤ room)
    (hroom : word.length + room ≤ size - 1)
    (hw : w ∈ fgetsFrom size room word text) : w.length ≤ size - 1 := by
  induction text generalizing room word with
  | nil =>
    rw [fgetsFrom] at hw
    split_ifs at hw
    · cases hw
    · rw [List.mem_singleton.mp hw]
      omega
  | cons c text ih =>
    rw [fgetsFrom] at hw
    split_ifs at hw with hc
    · rcases List.mem_cons.mp hw with rfl | hw
      · rw [List.length_append, List.length_singleton]
        omega
      · exact ih (by omega) (by simp) hw
    · refine ih (by omega) ?_ hw
      rw [List.length_append, List.length_singleton]
      omega

theorem length_le_of_entryOf_tag {w : CStr} (h : entryOf w = .tag k) : k.length ≤ w.length := by
  obtain ⟨-, c, rest, hw, -, rfl⟩ := entryOf_eq_tag.mp h
  calc ((c :: rest).takeWhile (· ≠ newline)).length
    _ ≤ (c :: rest).length := (List.takeWhile_sublist _).length_le
    _ = (w.dropWhile isspace).length := by rw [hw]
    _ ≤ w.length := List.length_dropWhile_le _ _

/-- The database names plain tags only; headers that tags stand below are of plain files and fit into
the buffer. -/
def PlainDatabase (file : Option CStr) : Prop :=
  ∀ text, file = some text → (∀ k, .tag k ∈ (fgets maxLength text).map entryOf → PlainTag k) ∧
    ∀ n k, Relates (fun _ => 0) ((fgets maxLength text).map entryOf) n k →
      PlainFile n ∧ n.length ≤ 997

/-- In every run whose events bring plain names only, from a database of plain names, the tags in
use and the files that have tags survive saving in every state that is reached. -/
theorem names_saved {env : Env} {file : Option CStr} {s₀ : Store} (hfile : PlainDatabase file)
    (h₀ : setRootDirectory env file = .ok s₀)
    (h : Reaches step (fun s e => e.Short ∧ PlainNames s e) s₀ s) : s.Saved := by
  have hs₀ : s₀.Named TagSaved fun n _ => FileSaved n := by
    refine (named_of_setRootDirectory fun text htext => ?_).of_ok h₀
    obtain ⟨htag, hname⟩ := hfile text htext
    refine ⟨fun k hk => ?_, fun n k hrel => (hname n k hrel).1.saved (hname n k hrel).2⟩
    obtain ⟨w, hw, he⟩ := List.mem_map.mp hk
    have hlen : w.length ≤ 999 := length_le_of_mem_fgetsFrom (by decide) (by decide) hw
    exact (htag k hk).saved (Nat.le_trans (length_le_of_entryOf_tag he) hlen)
  exact (named_of_reaches hs₀ (h.weaken fun _ _ he => admits_saved he.1 he.2)).saved

/-- The file `f` of the database with the tag `x` gets the tags `x` and `y`. -/
theorem names_saved_sample : ∃ s₀ s,
    setRootDirectory sampleEnv (some (headerLine nameF ++ tagLine)) = .ok s₀ ∧
    step s₀ ⟨sampleEnv, .link (samplePath [] nameF) (samplePath [nameX, nameY] nameF)⟩ = .ok s ∧
    s.UsedName nameX ∧ s.UsedName nameY ∧ s.Saved := by
  have hrun : returnsWith (setRootDirectory sampleEnv (some (headerLine nameF ++ tagLine)))
      (fun s₀ => returnsWith (step s₀ ⟨sampleEnv, .link (samplePath [] nameF)
        (samplePath [nameX, nameY] nameF)⟩)
          (fun s => s.UsedName nameX ∧ s.UsedName nameY) = true) = true := by decide +kernel
  obtain ⟨s₀, h₀, hrun₁⟩ := returnsWith_iff.mp hrun
  obtain ⟨s, hs, hp⟩ := returnsWith_iff.mp (of_decide_eq_true hrun₁)
  obtain ⟨hx, hy⟩ := of_decide_eq_true hp
  have hfile : PlainDatabase (some (headerLine nameF ++ tagLine)) := by
    rintro text ⟨⟩
    have hes : (fgets maxLength (headerLine nameF ++ tagLine)).map entryOf =
        [] ++ [.file nameF] ++ [.tag nameX] := by decide
    rw [hes]
    refine ⟨fun k hk => ?_, fun n k hrel => ?_⟩
    · obtain rfl : k = nameX := by simpa using hk
      decide +kernel
    · rw [relates_append, relates_append] at hrel
      obtain (hno | ⟨-, hno⟩) | ⟨hcur, -⟩ := hrel
      · exact absurd hno relates_nil
      · cases hno
      · obtain rfl : nameF = n := Option.some.inj hcur
        decide
  have hguard : PlainNames s₀ ⟨sampleEnv, .link (samplePath [] nameF)
      (samplePath [nameX, nameY] nameF)⟩ := ⟨by decide, fun _ => by decide +kernel⟩
  exact ⟨s₀, s, h₀, hs, hx, hy, names_saved hfile h₀ (.tail (.refl s₀) ⟨by decide, hguard⟩ hs)⟩

/-- The file `f` is linked to `/#x/f`: the line of the tag `#x` is a comment. -/
theorem comment_tag_lost : ¬ ∀ env file s₀ s, setRootDirectory env file = .ok s₀ →
    Reaches step (fun _ e => e.Short) s₀ s → s.Saved := by
  intro h
  have hrun : (execute step (fun _ e => e.Short) [⟨sampleEnv, .link (samplePath [] nameF)
      (samplePath [numberSign :: nameX] nameF)⟩] .init).any
        (fun s => s.UsedName (numberSign :: nameX)) = true := by decide +kernel
  obtain ⟨s, hs, hp⟩ := (Option.any_eq_true _ _).mp hrun
  obtain ⟨t, hk, T, hT, hu⟩ : s.UsedName (numberSign :: nameX) := of_decide_eq_true hp
  have h₀ : setRootDirectory sampleEnv none = .ok .init := rfl
  have hreach := reaches_of_execute hs
  have hv : T.value = numberSign :: nameX :=
    (positive_of_reaches h₀ (hreach.weaken fun _ _ _ => trivial)).1.value_of_get? hk hT
  obtain ⟨-, -, hread⟩ := hv ▸ (h sampleEnv none .init s h₀ hreach).tag t T hT hu
  obtain ⟨s₁, hs₁, hd₁⟩ := hread sampleEnv (fun _ => 0) [] [] (.inl rfl)
  obtain ⟨s₂, hs₂, hd₂⟩ := parseTagsDb2_pieces sampleEnv (fun _ => 0)
    ((numberSign :: nameX) ++ [newline])
  obtain rfl : s₁ = s₂ := Except.ok.inj (hs₁.symm.trans (by simpa using hs₂))
  have hpieces : (fgets maxLength ((numberSign :: nameX) ++ [newline])).map entryOf = [.nothing] := by
    decide
  have hmem := (hd₂.registered (numberSign :: nameX)).mp
    ((hd₁.registered _).mpr (List.mem_append_right _ List.mem_cons_self))
  rw [hpieces] at hmem
  exact absurd hmem (by decide)

end TagFilesystem.Fuse
