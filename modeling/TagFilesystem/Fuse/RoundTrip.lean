import TagFilesystem.Fuse.Grammar

namespace TagFilesystem.Fuse

variable {env : Env} {s s' : Store} {f : FileId} {n k : CStr} {E : Fault → Prop}

/-- A record named `n` has a tag object named `k`. -/
def Store.Marks (s : Store) (n k : CStr) : Prop :=
  ∃ f ∈ fileList s, ∃ F, s.fileHeap.get? f = some F ∧ F.name = n ∧
    ∃ e ∈ F.tags.entries, ∃ T, s.tagHeap.get? e.2 = some T ∧ T.value = k

/-- A file name that can be written on a line of its own in brackets, and that is found again. -/
structure FileNameOk (env : Env) (n : CStr) : Prop where
  name : IsName n
  newline : newline ∉ n
  bracket : closeBracket ∉ n
  length : n.length ≤ 996
  found : env.Found n

/-- A tag name that can be written on a line of its own. -/
structure TagNameOk (k : CStr) : Prop where
  ne_nil : k ≠ []
  newline : newline ∉ k
  length : k.length ≤ 998
  head : ∀ c, k.head? = some c → isspace c = false ∧ c ≠ numberSign ∧ c ≠ openBracket

/-- The lines of a file and its tags, without the newlines. -/
def blockLines (b : CStr × List CStr) : List CStr :=
  (openBracket :: b.1 ++ [closeBracket]) :: (b.2 ++ [[]])

/-- The lines, each ended by a newline. -/
def lineText (ls : List CStr) : CStr := ls.flatMap fun l => l ++ [newline]

@[simp] theorem lineText_nil : lineText [] = [] := rfl

@[simp] theorem lineText_cons (l : CStr) (ls : List CStr) :
    lineText (l :: ls) = l ++ newline :: lineText ls := by simp [lineText]

@[simp] theorem lineText_append (ls ls' : List CStr) :
    lineText (ls ++ ls') = lineText ls ++ lineText ls' := by simp [lineText]

theorem sat_tagDbDumpFile (F : File) : Returns (tagDbDumpFile s F) fun text => ∃ ks,
    text = lineText (blockLines (F.name, ks)) ∧ ks.length = F.tags.size ∧
      ∀ k, k ∈ ks ↔ ∃ e ∈ F.tags.entries, ∃ T, s.tagHeap.get? e.2 = some T ∧ T.value = k := by
  refine Sat.bind (P := fun lines => ∃ ks, lines = lineText ks ∧ ks.length = F.tags.size ∧
    ∀ k, k ∈ ks ↔ ∃ e ∈ F.tags.entries, ∃ T, s.tagHeap.get? e.2 = some T ∧ T.value = k) ?_ ?_
  · refine sat_forEach_visited (fun (l₀ : List (CStr × TagId)) lines => ∃ ks, lines = lineText ks ∧
      ks.length = l₀.length ∧ ∀ k, k ∈ ks ↔
        ∃ e ∈ l₀, ∃ T, s.tagHeap.get? e.2 = some T ∧ T.value = k) ?_ ⟨[], by simp⟩
    rintro l₀ e l₁ lines - ⟨ks, rfl, hlen, hks⟩
    refine sat_bind.mpr (sat_readTag (fun _ => trivial) fun T hT => ?_)
    refine ⟨ks ++ [T.value], by simp, by simp [hlen], fun k => ?_⟩
    simp only [List.mem_append, List.mem_singleton, or_and_right, exists_or, exists_eq_left, hks, hT]
    simp [eq_comm]
  · rintro lines ⟨ks, rfl, hlen, hks⟩
    exact ⟨ks, by simp [blockLines], hlen, hks⟩

theorem sat_tagDbDump : Returns (tagDbDump s) fun text => ∃ bs : List (CStr × List CStr),
    text = lineText (bs.flatMap blockLines) ∧ (∀ b ∈ bs, b.2 ≠ []) ∧
      ∀ n k, s.Marks n k ↔ ∃ b ∈ bs, b.1 = n ∧ k ∈ b.2 := by
  refine (sat_forEach_visited (fun (l₀ : List FileId) text => ∃ bs : List (CStr × List CStr),
    text = lineText (bs.flatMap blockLines) ∧ (∀ b ∈ bs, b.2 ≠ []) ∧
    ∀ n k, (∃ b ∈ bs, b.1 = n ∧ k ∈ b.2) ↔ ∃ f ∈ l₀, ∃ F, s.fileHeap.get? f = some F ∧ F.name = n ∧
      ∃ e ∈ F.tags.entries, ∃ T, s.tagHeap.get? e.2 = some T ∧ T.value = k) ?_ ⟨[], by simp⟩).mono ?_
  · rintro l₀ f l₁ text - ⟨bs, rfl, hne, hbs⟩
    refine sat_bind.mpr (sat_readFile (fun _ => trivial) fun F hF => ?_)
    split_ifs with hsize
    · refine ⟨bs, rfl, hne, fun n k => ?_⟩
      have hnil : F.tags.entries = [] := Table.size_eq_zero.mp hsize
      simp only [hbs, List.mem_append, List.mem_singleton, or_and_right, exists_or, exists_eq_left]
      simp [hF, hnil]
    · apply (sat_tagDbDumpFile F).bind
      rintro text' ⟨ks, rfl, hlen, hks⟩
      have hks0 : ks ≠ [] := by
        rintro rfl
        exact hsize hlen.symm
      refine ⟨bs ++ [(F.name, ks)], by simp, fun b hb => ?_, fun n k => ?_⟩
      · rcases List.mem_append.mp hb with hb | hb
        · exact hne b hb
        · rw [List.mem_singleton.mp hb]
          exact hks0
      · simp only [List.mem_append, List.mem_singleton, or_and_right, exists_or, exists_eq_left, hbs,
          hks]
        simp [hF]
  · rintro text ⟨bs, htext, hne, hbs⟩
    exact ⟨bs, htext, hne, fun n k => (hbs n k).symm⟩

/-- `fgets` reads one line after the other, as long as they fit into the buffer. -/
theorem fgets_lineText {size : ℕ} {ls : List CStr}
    (h : ∀ l ∈ ls, newline ∉ l ∧ l.length < size - 1) :
    fgets size (lineText ls) = ls.map fun l => l ++ [newline] := by
  unfold fgets
  induction ls with
  | nil => rfl
  | cons l ls ih =>
    obtain ⟨hl, hlen⟩ := h l List.mem_cons_self
    rw [lineText_cons, fgetsFrom_line hl hlen, ih fun l' hl' => h l' (List.mem_cons_of_mem l hl')]
    rfl

/-- The `getattr` that `set_root_directory` gives to the parser. -/
def parserGetattr (env : Env) : Getattr := fun s p => (fun r => (r.1, r.2.2)) <$> tagGetattr env s p

/-- `getattr` of a name that is found makes the record of a regular file. -/
theorem parserGetattr_name (h : s.Typed) (hn : IsName n) (hf : env.Found n) :
    parserGetattr env s n = .ok (0, getattrStore env s (pathOf env n .empty)) := by
  have hpath : pathCreate env s n false = .ok (pathOf env n .empty, s) := by
    simp [pathCreate, computeSelectedTags, dirname_name hn, pathOf, bind, Except.bind]
  have hheld : (pathOf env n .empty).held = [] := rfl
  have hrun : ∃ r, getattrIntra env s (pathOf env n .empty) = .ok r ∧ _ :=
    (sat_getattrIntra h (by simp [hheld])).exists_ok
  obtain ⟨⟨res, st, s'⟩, hget, hs', hres⟩ := hrun
  dsimp only at hs' hres
  have hacc : Accepts env s (pathOf env n .empty) := by
    have hreal : (pathOf env n .empty).realpath = appendDir env.realdirpath n :=
      congrArg (appendDir env.realdirpath) (basename_name hn)
    unfold Accepts
    rw [hheld, hreal]
    split_ifs with hreg
    · simp
    · exact hf.resolve_left hreg
  obtain ⟨rfl, -⟩ := hres.resolve_right fun hno => hno.2 hacc
  have hdel : pathDelete env s' (pathOf env n .empty) = .ok s' := rfl
  simp only [parserGetattr, tagGetattr, hpath, hget, hdel, bind, Except.bind]
  rw [← hs']
  rfl

theorem sat_parseLine_file {cur : Option FileId} (h : s.Typed) (hc : s.Coherent)
    (hn : FileNameOk env n) :
    Sat E (parseLine env (parserGetattr env) (cur, s) (openBracket :: n ++ [closeBracket] ++ [newline]))
      fun r => ∃ f, r.1 = some f ∧ r.2.files.get? n = some f ∧ r.2.Typed ∧ r.2.Coherent ∧
        ∀ n k, r.2.Carries n k ↔ s.Carries n k := by
  have hdata : copyWordUntil (n ++ closeBracket :: [newline]) closeBracket = n :=
    takeWhile_stop hn.bracket
  have hline : parseLine env (parserGetattr env) (cur, s)
      (openBracket :: n ++ [closeBracket] ++ [newline]) =
      parseFile (parserGetattr env) s (n ++ closeBracket :: [newline]) := by
    have hspace : isspace openBracket = false := by decide
    have hsign : openBracket ≠ numberSign := by decide
    simp [parseLine, hspace, hsign]
  rw [hline, parseFile, hdata]
  simp only [parserGetattr_name h hn.name hn.found, bind, Except.bind]
  exact ⟨_, rfl, fileGetOrCreate_get?, typed_fileGetOrCreate (typed_getattrStore h),
    coherent_fileGetOrCreate (typed_getattrStore h) (coherent_getattrStore h hc),
    fun n k => carries_fileGetOrCreate.trans carries_getattrStore⟩

theorem sat_parseLine_tag (h : s.Typed) (hc : s.Coherent) (hn : s.files.get? n = some f)
    (hk : TagNameOk k) :
    Sat E (parseLine env (parserGetattr env) (some f, s) (k ++ [newline])) fun r =>
      r.1 = some f ∧ r.2.files.get? n = some f ∧ r.2.Typed ∧ r.2.Coherent ∧
        ∀ n' k', r.2.Carries n' k' ↔ s.Carries n' k' ∨ n' = n ∧ k' = k := by
  obtain ⟨c, k₁, rfl⟩ := List.exists_cons_of_ne_nil hk.ne_nil
  obtain ⟨hspace, hsign, hbracket⟩ := hk.head c rfl
  have hline : parseLine env (parserGetattr env) (some f, s) (c :: k₁ ++ [newline]) =
      parseTag env s (some f) (c :: k₁ ++ [newline]) >>= fun s' => .ok (some f, s') := by
    simp [parseLine, hspace, hsign, hbracket]
  rw [hline]
  apply (sat_parseTag h hc (.some hn) (takeWhile_stop hk.newline) hk.ne_nil).bind
  rintro s' ⟨ht, hc', hfiles, -, -, hcar⟩
  exact ⟨rfl, hfiles ▸ hn, ht, hc', fun n' k' => by rw [hcar, Option.some.injEq, eq_comm (a := n)]⟩

theorem parseLine_empty {getattr : Getattr} {cur : Option FileId} :
    parseLine env getattr (cur, s) [newline] = .ok (cur, s) := by
  have hspace : isspace newline = true := by decide
  have hsign : newline ≠ numberSign := by decide
  simp [parseLine, hspace, hsign, parseTag, copyWordUntil, bind, Except.bind]

theorem sat_parseBlock {b : CStr × List CStr} {cur : Option FileId} (h : s.Typed) (hc : s.Coherent)
    (hn : FileNameOk env b.1) (hk : ∀ k ∈ b.2, TagNameOk k) :
    Sat E (forEach ((blockLines b).map fun l => l ++ [newline]) (parseLine env (parserGetattr env))
      (cur, s)) fun r => r.2.Typed ∧ r.2.Coherent ∧
        ∀ n k, r.2.Carries n k ↔ s.Carries n k ∨ n = b.1 ∧ k ∈ b.2 := by
  simp only [blockLines, List.map_cons, List.map_append, List.map_nil, List.nil_append,
    forEach_cons]
  apply (sat_parseLine_file h hc hn).bind
  rintro ⟨_, s₁⟩ ⟨f, rfl, hf, ht₁, hc₁, hcar₁⟩
  dsimp only at hf ht₁ hc₁ hcar₁ ⊢
  rw [forEach_append, forEach_map]
  refine Sat.bind (P := fun r : Option FileId × Store => r.1 = some f ∧ r.2.files.get? b.1 = some f ∧
    r.2.Typed ∧ r.2.Coherent ∧ ∀ n k, r.2.Carries n k ↔ s.Carries n k ∨ n = b.1 ∧ k ∈ b.2) ?_ ?_
  · refine sat_forEach_visited (fun (ks : List CStr) (r : Option FileId × Store) =>
      r.1 = some f ∧ r.2.files.get? b.1 = some f ∧ r.2.Typed ∧ r.2.Coherent ∧
      ∀ n k, r.2.Carries n k ↔ s.Carries n k ∨ n = b.1 ∧ k ∈ ks) ?_ ⟨rfl, hf, ht₁, hc₁, by simpa using hcar₁⟩
    rintro ks k ks' ⟨_, s₂⟩ hsplit ⟨rfl, hf₂, ht₂, hc₂, hcar₂⟩
    apply (sat_parseLine_tag ht₂ hc₂ hf₂ (hk k (by rw [← hsplit]; simp))).mono
    rintro r ⟨hr, hf₃, ht₃, hc₃, hcar₃⟩
    refine ⟨hr, hf₃, ht₃, hc₃, fun n k' => ?_⟩
    rw [hcar₃, hcar₂]
    simp only [List.mem_append, List.mem_singleton, and_or_left, or_assoc]
  · rintro ⟨_, s₂⟩ ⟨rfl, hf₂, ht₂, hc₂, hcar₂⟩
    simp only [forEach_cons, parseLine_empty, forEach_nil, bind, Except.bind]
    exact ⟨ht₂, hc₂, hcar₂⟩

theorem sat_parseBlocks {bs : List (CStr × List CStr)} (cur : Option FileId) (h : s.Typed)
    (hc : s.Coherent) (hbs : ∀ b ∈ bs, FileNameOk env b.1 ∧ ∀ k ∈ b.2, TagNameOk k) :
    Sat E (forEach ((bs.flatMap blockLines).map fun l => l ++ [newline])
      (parseLine env (parserGetattr env)) (cur, s)) fun r => r.2.Typed ∧ r.2.Coherent ∧
        ∀ n k, r.2.Carries n k ↔ s.Carries n k ∨ ∃ b ∈ bs, b.1 = n ∧ k ∈ b.2 := by
  induction bs generalizing cur s with
  | nil => exact ⟨h, hc, by simp⟩
  | cons b bs ih =>
    obtain ⟨hn, hk⟩ := hbs b List.mem_cons_self
    rw [List.flatMap_cons, List.map_append, forEach_append]
    apply (sat_parseBlock h hc hn hk).bind
    rintro ⟨cur', s₁⟩ ⟨ht₁, hc₁, hcar₁⟩
    apply (ih cur' ht₁ hc₁ fun b' hb' => hbs b' (List.mem_cons_of_mem b hb')).mono
    rintro r ⟨ht, hc, hcar⟩
    refine ⟨ht, hc, fun n k => ?_⟩
    rw [hcar, hcar₁]
    simp only [List.mem_cons, or_and_right, exists_or, exists_eq_left, or_assoc, eq_comm (a := n)]

theorem marks_iff_carries (h : s.Typed) (hc : s.Coherent) : s.Marks n k ↔ s.Carries n k := by
  have hlist (f : FileId) : f ∈ fileList s ↔ ∃ n, s.files.get? n = some f := by
    simp [fileList, h.filesUnique.get?_eq_some]
  constructor
  · rintro ⟨f, hf, F, hF, rfl, e, he, T, hT, rfl⟩
    obtain ⟨n, hn⟩ := (hlist f).mp hf
    have hk := (h.fileTagsUnique hF).get?_eq_some.mpr he
    obtain ⟨-, T', hT', hv, -⟩ := (hc hn e.1 e.2).mp ⟨F, hF, hk⟩
    cases hT.symm.trans hT'
    rw [h.name_of_get? hn hF, hv]
    exact ⟨f, hn, e.2, F, hF, hk⟩
  · rintro ⟨f, hn, t, F, hF, hk⟩
    obtain ⟨-, T, hT, hv, -⟩ := (hc hn k t).mp ⟨F, hF, hk⟩
    exact ⟨f, (hlist f).mpr ⟨n, hn⟩, F, hF, h.name_of_get? hn hF, (k, t), Table.mem_of_get? hk, T,
      hT, hv⟩

/-- For every store whose names can be written line by line, reading what `tag_db_dump` writes into
an empty store gives the same relation between file names and tag names. -/
theorem dump_parse_roundtrip {text : CStr}
    (hok : ∀ n k, s.Marks n k → FileNameOk env n ∧ TagNameOk k)
    (hdump : tagDbDump s = .ok text) :
    ∃ s', parseTagsDb2 env (parserGetattr env) text .init = .ok s' ∧
      ∀ n k, s'.Marks n k ↔ s.Marks n k := by
  obtain ⟨bs, rfl, hne, hrel⟩ := sat_tagDbDump.of_ok hdump
  have hbs : ∀ b ∈ bs, FileNameOk env b.1 ∧ ∀ k ∈ b.2, TagNameOk k := by
    intro b hb
    have hb' (k) (hk : k ∈ b.2) := hok b.1 k ((hrel b.1 k).mpr ⟨b, hb, rfl, hk⟩)
    obtain ⟨k, hk⟩ := List.exists_mem_of_ne_nil _ (hne b hb)
    exact ⟨(hb' k hk).1, fun k hk => (hb' k hk).2⟩
  have hlines : ∀ l ∈ bs.flatMap blockLines, newline ∉ l ∧ l.length < maxLength - 1 := by
    intro l hl
    obtain ⟨b, hb, hl⟩ := List.mem_flatMap.mp hl
    obtain ⟨hn, hk⟩ := hbs b hb
    simp only [blockLines, List.mem_cons, List.mem_append, List.not_mem_nil, or_false] at hl
    rcases hl with rfl | hl | rfl
    · have hno : newline ≠ openBracket ∧ newline ≠ closeBracket := by decide
      refine ⟨by simp [hn.newline, hno.1, hno.2], ?_⟩
      have := hn.length
      simp only [maxLength, List.cons_append, List.length_cons, List.length_append, List.length_nil]
      omega
    · refine ⟨(hk l hl).newline, ?_⟩
      have := (hk l hl).length
      simp only [maxLength]
      omega
    · simp [maxLength]
  obtain ⟨⟨cur, s'⟩, hrun, ht', hc', hcar'⟩ := (sat_parseBlocks (E := fun _ => False) none
    typed_init coherent_init hbs).exists_ok
  refine ⟨s', ?_, fun n k => ?_⟩
  · simp only [parseTagsDb2, fgets_lineText hlines, hrun, bind, Except.bind]
  · have hinit : ¬ Store.init.Carries n k := by
      rintro ⟨f, hn, -⟩
      cases hn
    rw [marks_iff_carries ht' hc', hcar', hrel]
    simp [hinit]

/-- The database of a store in which `f` has the tags `x` and `y`. -/
theorem dump_parse_roundtrip_sample : ∃ s text s',
    execute step (fun _ _ => True)
      [⟨sampleEnv, .link (samplePath [] nameF) (samplePath [nameX, nameY] nameF)⟩] .init = some s ∧
    tagDbDump s = .ok text ∧
    parseTagsDb2 sampleEnv (parserGetattr sampleEnv) text .init = .ok s' ∧
    ∀ n k, s'.Marks n k ↔ s.Marks n k := by
  have hrun : (execute step (fun _ _ => True)
      [⟨sampleEnv, .link (samplePath [] nameF) (samplePath [nameX, nameY] nameF)⟩] .init).any (fun s =>
        returnsWith (tagDbDump s) (fun _ => true) = true ∧
        ∀ f ∈ fileList s, ∀ F ∈ s.fileHeap.get? f, F.name = nameF ∧
          ∀ e ∈ F.tags.entries, ∀ T ∈ s.tagHeap.get? e.2, T.value = nameX ∨ T.value = nameY) = true := by
    decide +kernel
  obtain ⟨s, hs, hp⟩ := (Option.any_eq_true _ _).mp hrun
  obtain ⟨htext, hnames⟩ := of_decide_eq_true hp
  obtain ⟨text, hdump, -⟩ := returnsWith_iff.mp htext
  have hfile : FileNameOk sampleEnv nameF :=
    ⟨by decide, by decide, by decide, by decide, .inl (by decide)⟩
  have htag (k : CStr) (hk : k = nameX ∨ k = nameY) : TagNameOk k := by
    rcases hk with rfl | rfl
    all_goals
      refine ⟨by decide, by decide, by decide, fun c hc => ?_⟩
      obtain rfl := Option.some.inj hc
      decide
  have hok : ∀ n k, s.Marks n k → FileNameOk sampleEnv n ∧ TagNameOk k := by
    rintro n k ⟨f, hf, F, hF, rfl, e, he, T, hT, rfl⟩
    obtain ⟨hn, hall⟩ := hnames f hf F hF
    exact ⟨hn ▸ hfile, htag _ (hall e he T hT)⟩
  obtain ⟨s', hparse, hrel⟩ := dump_parse_roundtrip hok hdump
  exact ⟨s, text, s', hs, hdump, hparse, hrel⟩

end TagFilesystem.Fuse
