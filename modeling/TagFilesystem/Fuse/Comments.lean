import TagFilesystem.Fuse.Grammar

namespace TagFilesystem.Fuse

variable {env : Env} {s : Store} {w text before after body n k : CStr} {getattr : CStr → ℤ}
  {es : List Entry}

/-- The line that starts with the sign of a comment and goes on with `body`. -/
def commentLine (body : CStr) : CStr := numberSign :: body ++ [newline]

/-- A position behind this text is a position between two lines. -/
def WholeLines (text : CStr) : Prop := text = [] ∨ text.getLast? = some newline

theorem wholeLines_concat (l : CStr) : WholeLines (l ++ [newline]) := .inr List.getLast?_concat

theorem fgetsFrom_append (size room : ℕ) (word before text : CStr) :
    fgetsFrom size room word (before ++ newline :: text) =
      fgetsFrom size room word (before ++ [newline]) ++ fgets size text := by
  induction before generalizing room word with
  | nil => simp [fgetsFrom, fgets]
  | cons c before ih =>
    simp only [List.cons_append, fgetsFrom, ih]
    split_ifs
    · rfl
    · rfl

theorem fgets_append {size : ℕ} (h : WholeLines before) :
    fgets size (before ++ text) = fgets size before ++ fgets size text := by
  rcases h with rfl | h
  · rfl
  · obtain ⟨l, rfl⟩ := List.getLast?_eq_some_iff.mp h
    rw [List.append_assoc]
    exact fgetsFrom_append size _ [] l text

theorem fgetsFrom_full {size room : ℕ} {word l : CStr} (hl : newline ∉ l) (hlen : l.length = room)
    (hpos : 1 ≤ room) : fgetsFrom size room word (l ++ text) = (word ++ l) :: fgets size text := by
  have hne : l ≠ [] := by
    rintro rfl
    rw [List.length_nil] at hlen
    omega
  -- the last byte takes the last place
  obtain ⟨l, c, rfl⟩ := (List.eq_nil_or_concat l).resolve_left hne
  rw [List.concat_eq_append] at hl hlen ⊢
  rw [List.length_append, List.length_singleton] at hlen
  have hrest : newline ∉ l := fun hm => hl (List.mem_append_left _ hm)
  have hone : room - l.length ≤ 1 := by omega
  rw [List.append_assoc, fgetsFrom_bytes hrest (by omega), List.singleton_append, fgetsFrom,
    if_pos (.inr hone), List.append_assoc]
  rfl

theorem fgetsFrom_cons (size room : ℕ) (a : CChar) (word text : CStr) :
    ∃ p ps, fgetsFrom size room (a :: word) text = (a :: p) :: ps := by
  induction text generalizing room word with
  | nil => exact ⟨word, [], by simp [fgetsFrom]⟩
  | cons c text ih =>
    rw [fgetsFrom]
    split_ifs
    · exact ⟨word ++ [c], _, rfl⟩
    · exact ih _ _

theorem fgets_commentLine (body : CStr) : ∃ p,
    fgets maxLength (commentLine body) =
      (numberSign :: p) :: (fgets maxLength (commentLine body)).tail := by
  have hne : ¬ (numberSign = newline ∨ maxLength - 1 ≤ 1) := by decide
  have hfirst : fgets maxLength (commentLine body) =
      fgetsFrom maxLength (maxLength - 1 - 1) [numberSign] (body ++ [newline]) := by
    rw [fgets, commentLine, List.cons_append, fgetsFrom, if_neg hne, List.nil_append]
  obtain ⟨p, ps, hp⟩ := fgetsFrom_cons maxLength (maxLength - 1 - 1) numberSign [] (body ++ [newline])
  refine ⟨p, ?_⟩
  rw [hfirst, hp, List.tail_cons]

theorem fgets_long {l : CStr} (hl : newline ∉ l) (hlen : l.length = 998) (rest : CStr) :
    fgets maxLength (commentLine (l ++ rest)) =
      (numberSign :: l) :: fgets maxLength (rest ++ [newline]) := by
  have hsign : newline ∉ numberSign :: l := by
    rw [List.mem_cons, not_or]
    exact ⟨by decide, hl⟩
  have hroom : (numberSign :: l).length = maxLength - 1 := by rw [List.length_cons, hlen]; rfl
  rw [commentLine, ← List.cons_append, List.append_assoc]
  exact fgetsFrom_full hsign hroom (by decide)

theorem entryOf_eq_nothing : entryOf w = .nothing ↔
    w.head? = some numberSign ∨ ∀ c ∈ w, isspace c = true := by
  have hspace : w.dropWhile isspace = [] ↔ ∀ c ∈ w, isspace c = true := List.dropWhile_eq_nil_iff
  rw [← hspace]
  unfold entryOf
  split_ifs with hsign
  · simp [hsign]
  · simp only [hsign, false_or]
    cases w.dropWhile isspace with
    | nil => simp
    | cons c rest =>
      dsimp only
      split_ifs
      · simp
      · simp

theorem forEach_parseLine_nothing {getattr : Getattr} {r : Option FileId × Store} {ws : List CStr}
    (h : ∀ w ∈ ws, entryOf w = .nothing) : forEach ws (parseLine env getattr) r = .ok r := by
  induction ws with
  | nil => rfl
  | cons w ws ih =>
    rw [forEach_cons, parseLine_nothing (h w List.mem_cons_self), ok_bind]
    exact ih fun w' hw' => h w' (List.mem_cons_of_mem w hw')

theorem parseTagsDb2_skip {getattr : Getattr} {line : CStr} (hbefore : WholeLines before)
    (hline : WholeLines line) (h : ∀ w ∈ fgets maxLength line, entryOf w = .nothing) :
    parseTagsDb2 env getattr (before ++ line ++ after) s =
      parseTagsDb2 env getattr (before ++ after) s := by
  have hloop : forEach (fgets maxLength (before ++ line ++ after)) (parseLine env getattr) (none, s) =
      forEach (fgets maxLength (before ++ after)) (parseLine env getattr) (none, s) := by
    rw [List.append_assoc, fgets_append hbefore, fgets_append hline, fgets_append hbefore,
      forEach_append, forEach_append]
    refine congrArg _ (funext fun r => ?_)
    rw [forEach_append, forEach_parseLine_nothing h, ok_bind]
  rw [parseTagsDb2, hloop]
  rfl

/-- The same tags are registered, and the files have the same tags. -/
def SameTags (s s' : Store) : Prop :=
  (∀ k, (∃ t, s.tags.get? k = some t) ↔ ∃ t, s'.tags.get? k = some t) ∧
    ∀ n k, s.Carries n k ↔ s'.Carries n k

theorem SameTags.refl (s : Store) : SameTags s s := ⟨fun _ => Iff.rfl, fun _ _ => Iff.rfl⟩

theorem foldl_current_of_no_file {cur : Option CStr} (h : ∀ n, .file n ∉ es) :
    es.foldl (Entry.current getattr) cur = cur := by
  induction es generalizing cur with
  | nil => rfl
  | cons e es ih =>
    have he : e.current getattr cur = cur := by
      cases e with
      | nothing => rfl
      | file n => exact absurd List.mem_cons_self (h n)
      | tag k => rfl
    rw [List.foldl_cons, he, ih fun n hn => h n (List.mem_cons_of_mem e hn)]

theorem exists_last_file (h : ∃ n, .file n ∈ es) : ∃ m, ∀ getattr cur,
    es.foldl (Entry.current getattr) cur = if 0 ≤ getattr m then some m else none := by
  induction es with
  | nil =>
    obtain ⟨n, hn⟩ := h
    cases hn
  | cons e es ih =>
    by_cases hes : ∃ n, .file n ∈ es
    · obtain ⟨m, hm⟩ := ih hes
      exact ⟨m, fun getattr cur => hm getattr _⟩
    · obtain ⟨n, hn⟩ := h
      rcases List.mem_cons.mp hn with rfl | hn
      · refine ⟨n, fun getattr cur => ?_⟩
        rw [List.foldl_cons, foldl_current_of_no_file fun n hn => hes ⟨n, hn⟩]
        rfl
      · exact absurd ⟨n, hn⟩ hes

theorem agree_iff_entries {text text' : CStr} :
    Agree SameTags (parseTagsDb2 env (readOnly getattr) text .init)
      (parseTagsDb2 env (readOnly getattr) text' .init) ↔
    (∀ k, .tag k ∈ (fgets maxLength text).map entryOf ↔
      .tag k ∈ (fgets maxLength text').map entryOf) ∧
    ∀ n k, Relates getattr ((fgets maxLength text).map entryOf) n k ↔
      Relates getattr ((fgets maxLength text').map entryOf) n k := by
  obtain ⟨s, hs, hd⟩ := parseTagsDb2_pieces env getattr text
  obtain ⟨s', hs', hd'⟩ := parseTagsDb2_pieces env getattr text'
  rw [hs, hs']
  show SameTags s s' ↔ _
  simp only [SameTags, hd.registered, hd'.registered, hd.carries, hd'.carries]

theorem not_agree_of_tag {line : CStr} (h : .tag k ∈ (fgets maxLength line).map entryOf) :
    ¬ Agree SameTags (parseTagsDb2 env (readOnly getattr) line .init)
      (parseTagsDb2 env (readOnly getattr) [] .init) := by
  rw [agree_iff_entries]
  rintro ⟨hreg, -⟩
  have hnil := (hreg k).mp h
  simp [fgets, fgetsFrom] at hnil

/-- The header of the file `a`. -/
def headerLine (a : CStr) : CStr := openBracket :: a ++ [closeBracket] ++ [newline]

/-- The line of the tag `x`. -/
def tagLine : CStr := nameX ++ [newline]

/-- A header in the line takes the tag below it from the file `a`, which is the only one that
`getattr` accepts. -/
theorem not_agree_of_file {line a m : CStr} (hline : WholeLines line)
    (htag : ∀ k, .tag k ∉ (fgets maxLength line).map entryOf)
    (hm : ∀ getattr cur, ((fgets maxLength line).map entryOf).foldl (Entry.current getattr) cur =
      if 0 ≤ getattr m then some m else none)
    (ha : (fgets maxLength (headerLine a)).map entryOf = [.file a]) (hne : m ≠ a) :
    ¬ Agree SameTags
      (parseTagsDb2 env (readOnly fun n => if n = a then 0 else -1) (headerLine a ++ line ++ tagLine)
        .init)
      (parseTagsDb2 env (readOnly fun n => if n = a then 0 else -1) (headerLine a ++ tagLine)
        .init) := by
  have hheader : WholeLines (headerLine a) := wholeLines_concat _
  have hx : (fgets maxLength tagLine).map entryOf = [.tag nameX] := by decide
  rw [agree_iff_entries, List.append_assoc, fgets_append hheader, fgets_append hline,
    fgets_append hheader, List.map_append, List.map_append, List.map_append, ha, hx,
    ← List.append_assoc]
  rintro ⟨-, hrel⟩
  rcases relates_append.mp ((hrel a nameX).mpr ⟨[.file a], [], rfl, by simp [currentFile, Entry.current]⟩)
    with ⟨es₁, es₂, hes, -⟩ | ⟨hcur, -⟩
  · have hmem : Entry.tag nameX ∈ [Entry.file a] ++ (fgets maxLength line).map entryOf := by simp [hes]
    rcases List.mem_append.mp hmem with hmem | hmem
    · simp at hmem
    · exact htag nameX hmem
  · rw [currentFile, List.foldl_append, hm, if_neg (by simp [hne])] at hcur
    cases hcur

/-- A comment line changes nothing, wherever it is inserted, exactly if every piece behind the first
999 bytes starts with the sign of a comment or consists of white space. -/
theorem comment_inert_iff (body : CStr) :
    (∀ env getattr s before after, WholeLines before →
      Agree SameTags (parseTagsDb2 env getattr (before ++ commentLine body ++ after) s)
        (parseTagsDb2 env getattr (before ++ after) s)) ↔
    ∀ w ∈ (fgets maxLength (commentLine body)).tail,
      w.head? = some numberSign ∨ ∀ c ∈ w, isspace c = true := by
  have hline : WholeLines (commentLine body) := wholeLines_concat _
  constructor
  · intro h w hw
    rw [← entryOf_eq_nothing]
    by_contra hno
    have hmem : entryOf w ∈ (fgets maxLength (commentLine body)).map entryOf :=
      List.mem_map_of_mem (List.mem_of_mem_tail hw)
    by_cases htag : ∃ k, .tag k ∈ (fgets maxLength (commentLine body)).map entryOf
    · obtain ⟨k, hk⟩ := htag
      have hinert := h sampleEnv (readOnly fun _ => 0) .init [] [] (.inl rfl)
      rw [List.nil_append, List.append_nil] at hinert
      exact not_agree_of_tag hk hinert
    · have htag' := not_exists.mp htag
      have hfile : ∃ n, .file n ∈ (fgets maxLength (commentLine body)).map entryOf := by
        cases he : entryOf w with
        | nothing => exact absurd he hno
        | file n => exact ⟨n, he ▸ hmem⟩
        | tag k => exact absurd (he ▸ hmem) (htag' k)
      obtain ⟨m, hm⟩ := exists_last_file hfile
      -- a file that the last header does not name
      have hother : ∃ a, (fgets maxLength (headerLine a)).map entryOf = [.file a] ∧ m ≠ a := by
        by_cases hf : m = nameF
        · exact ⟨nameG, by decide, by rw [hf]; decide⟩
        · exact ⟨nameF, by decide, hf⟩
      obtain ⟨a, ha, hne⟩ := hother
      exact not_agree_of_file hline htag' hm ha hne
        (h sampleEnv _ .init (headerLine a) tagLine (wholeLines_concat _))
  · intro h env getattr s before after hbefore
    obtain ⟨p, hp⟩ := fgets_commentLine body
    have hskip : ∀ w ∈ fgets maxLength (commentLine body), entryOf w = .nothing := by
      intro w hw
      rw [hp] at hw
      rcases List.mem_cons.mp hw with rfl | hw
      · exact entryOf_eq_nothing.mpr (.inl rfl)
      · exact entryOf_eq_nothing.mpr (h w hw)
    rw [parseTagsDb2_skip hbefore hline hskip]
    cases parseTagsDb2 env getattr (before ++ after) s with
    | error x => exact rfl
    | ok s' => exact SameTags.refl s'

/-- The sign and 998 more bytes fill the buffer, and the next one is read as a tag. -/
theorem long_comment_registers : ¬ ∀ env getattr s before body after, newline ∉ body →
    WholeLines before →
    Agree SameTags (parseTagsDb2 env getattr (before ++ commentLine body ++ after) s)
      (parseTagsDb2 env getattr (before ++ after) s) := by
  intro h
  obtain ⟨l, hl, hlen⟩ : ∃ l : CStr, newline ∉ l ∧ l.length = 998 :=
    ⟨List.replicate 998 numberSign,
      fun hmem => absurd (List.eq_of_mem_replicate hmem) (by decide), List.length_replicate⟩
  have htag : .tag nameX ∈ (fgets maxLength (commentLine (l ++ nameX))).map entryOf := by
    rw [fgets_long hl hlen]
    exact List.mem_cons_of_mem _ (by decide)
  have hbody : newline ∉ l ++ nameX := by simpa [hl] using (by decide : newline ∉ nameX)
  have hinert := h sampleEnv (readOnly fun _ => 0) .init [] (l ++ nameX) [] hbody (.inl rfl)
  rw [List.nil_append, List.append_nil] at hinert
  exact not_agree_of_tag htag hinert

end TagFilesystem.Fuse
