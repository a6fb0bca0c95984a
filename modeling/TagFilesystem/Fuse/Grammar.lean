import TagFilesystem.Fuse.LinkSpec

namespace TagFilesystem.Fuse

variable {env : Env} {s s' : Store} {t : TagId} {f : FileId} {n k w text : CStr}
  {E : Fault → Prop} {res : CStr → ℤ} {getattr : Getattr}

/-- The lines of a text, each with the newline that ends it. -/
def linesOf : CStr → List CStr
  | [] => []
  | c :: text =>
    if c = newline then [c] :: linesOf text
    else match linesOf text with
      | [] => [[c]]
      | l :: ls => (c :: l) :: ls

theorem linesOf_line {l : CStr} (hl : newline ∉ l) :
    linesOf (l ++ newline :: text) = (l ++ [newline]) :: linesOf text := by
  induction l with
  | nil => simp [linesOf]
  | cons c l ih =>
    have hc : c ≠ newline := fun hc => hl (by simp [hc])
    rw [List.cons_append, linesOf, if_neg hc, ih fun hm => hl (List.mem_cons_of_mem c hm)]
    rfl

theorem linesOf_last {l : CStr} (hl : newline ∉ l) (hne : l ≠ []) : linesOf l = [l] := by
  induction l with
  | nil => exact absurd rfl hne
  | cons c l ih =>
    have hc : c ≠ newline := fun hc => hl (by simp [hc])
    rw [linesOf, if_neg hc]
    cases l with
    | nil => rfl
    | cons c' l => rw [ih (fun hm => hl (List.mem_cons_of_mem c hm)) (by simp)]

theorem lines_induction {P : CStr → Prop} (last : ∀ l, newline ∉ l → P l)
    (line : ∀ l text, newline ∉ l → P text → P (l ++ newline :: text)) (text : CStr) : P text := by
  by_cases h : newline ∈ text
  · obtain ⟨l, rest, htext, hl⟩ := List.eq_append_cons_of_mem h
    have hlt : rest.length < text.length := by
      rw [htext, List.length_append, List.length_cons]
      omega
    exact htext ▸ line l rest hl (lines_induction last line rest)
  · exact last text h
termination_by text.length

theorem takeWhile_stop {l text : CStr} {c : CChar} (hl : c ∉ l) :
    copyWordUntil (l ++ c :: text) c = l := by
  unfold copyWordUntil
  rw [List.takeWhile_append_of_pos, List.takeWhile_cons_of_neg (by simp), List.append_nil]
  intro a ha
  simpa using fun h : a = c => hl (h ▸ ha)

theorem takeWhile_self {l : CStr} {c : CChar} (hl : c ∉ l) : copyWordUntil l c = l := by
  refine List.takeWhile_eq_self_iff.mpr fun a ha => ?_
  simpa using fun h : a = c => hl (h ▸ ha)

/-- `fgets` takes the bytes before the newline, as long as there is room. -/
theorem fgetsFrom_bytes {size room : ℕ} {word l : CStr} (hl : newline ∉ l) (hroom : l.length < room)
    (text : CStr) :
    fgetsFrom size room word (l ++ text) = fgetsFrom size (room - l.length) (word ++ l) text := by
  induction l generalizing room word with
  | nil => simp
  | cons c l ih =>
    rw [List.length_cons] at hroom
    have hc : c ≠ newline := fun hc => hl (by simp [hc])
    have hgo : ¬(c = newline ∨ room ≤ 1) := by
      rw [not_or]
      exact ⟨hc, by omega⟩
    have hrest : newline ∉ l := fun hm => hl (List.mem_cons_of_mem c hm)
    have hlen : room - 1 - l.length = room - (c :: l).length := by
      rw [List.length_cons]
      omega
    rw [List.cons_append, fgetsFrom, if_neg hgo, ih hrest (by omega), hlen,
      ← List.append_cons]

theorem fgetsFrom_line {size room : ℕ} {word l text : CStr} (hl : newline ∉ l)
    (hroom : l.length < room) : fgetsFrom size room word (l ++ newline :: text) =
      (word ++ l ++ [newline]) :: fgetsFrom size (size - 1) [] text := by
  rw [fgetsFrom_bytes hl hroom, fgetsFrom, if_pos (.inl rfl)]

theorem fgetsFrom_last {size room : ℕ} {word l : CStr} (hl : newline ∉ l) (hroom : l.length < room) :
    fgetsFrom size room word l = if word ++ l = [] then [] else [word ++ l] := by
  have hbytes : fgetsFrom size room word (l ++ []) = _ := fgetsFrom_bytes hl hroom []
  rw [List.append_nil] at hbytes
  rw [hbytes, fgetsFrom]

theorem fgets_eq_linesOf {size : ℕ}
    (h : ∀ l ∈ linesOf text, (copyWordUntil l newline).length < size - 1) :
    fgets size text = linesOf text := by
  induction text using lines_induction with
  | last l hl =>
    by_cases hnil : l = []
    · subst hnil
      rfl
    · have hlen : l.length < size - 1 := by
        have := h l (by rw [linesOf_last hl hnil]; exact List.mem_singleton_self l)
        rwa [takeWhile_self hl] at this
      rw [fgets, fgetsFrom_last hl hlen, linesOf_last hl hnil, List.nil_append, if_neg hnil]
  | line l text hl ih =>
    rw [linesOf_line hl] at h ⊢
    have hlen : l.length < size - 1 := by
      have := h _ List.mem_cons_self
      rwa [takeWhile_stop hl] at this
    rw [fgets, fgetsFrom_line hl hlen, List.nil_append]
    exact congrArg _ (ih fun l' hl' => h l' (List.mem_cons_of_mem _ hl'))

inductive Entry
  | nothing
  | file (name : CStr)
  | tag (name : CStr)
  deriving Repr, DecidableEq

/-- A comment and a line of white space say nothing; a bracket starts the name of a file. -/
def entryOf (line : CStr) : Entry :=
  if line.head? = some numberSign then .nothing
  else match line.dropWhile isspace with
    | [] => .nothing
    | c :: rest =>
      if c = openBracket then .file (rest.takeWhile (· ≠ closeBracket))
      else .tag ((c :: rest).takeWhile (· ≠ newline))

/-- The name of the current file after a line; `getattr` accepts a name with a result that is not
negative. -/
def Entry.current (getattr : CStr → ℤ) (cur : Option CStr) : Entry → Option CStr
  | .nothing => cur
  | .file n => if 0 ≤ getattr n then some n else none
  | .tag _ => cur

def currentFile (getattr : CStr → ℤ) (es : List Entry) : Option CStr :=
  es.foldl (Entry.current getattr) none

/-- A line names the tag `k` while `n` is the current file. -/
def Relates (getattr : CStr → ℤ) (es : List Entry) (n k : CStr) : Prop :=
  ∃ es₁ es₂, es = es₁ ++ .tag k :: es₂ ∧ currentFile getattr es₁ = some n

variable {e : Entry} {es : List Entry}

@[simp] theorem currentFile_append : currentFile res (es ++ [e]) =
    e.current res (currentFile res es) := by simp [currentFile]

theorem relates_nil : ¬ Relates res [] n k := by
  rintro ⟨es₁, es₂, hes, -⟩
  simp at hes

theorem relates_append : Relates res (es ++ [e]) n k ↔
    Relates res es n k ∨ currentFile res es = some n ∧ e = .tag k := by
  constructor
  · rintro ⟨es₁, es₂, hes, hcur⟩
    rcases List.eq_nil_or_concat es₂ with rfl | ⟨es₃, e', rfl⟩
    · obtain ⟨rfl, he⟩ := List.append_inj' hes rfl
      exact .inr ⟨hcur, List.head_eq_of_cons_eq he⟩
    · rw [List.concat_eq_append, ← List.cons_append, ← List.append_assoc] at hes
      exact .inl ⟨es₁, es₃, (List.append_inj' hes rfl).1, hcur⟩
  · rintro (⟨es₁, es₂, rfl, hcur⟩ | ⟨hcur, rfl⟩)
    · exact ⟨es₁, es₂ ++ [e], by simp, hcur⟩
    · exact ⟨es, [], rfl, hcur⟩

theorem entryOf_eq_file : entryOf w = .file n ↔ w.head? ≠ some numberSign ∧
    ∃ rest, w.dropWhile isspace = openBracket :: rest ∧ rest.takeWhile (· ≠ closeBracket) = n := by
  unfold entryOf
  split_ifs with hsign
  · simp [hsign]
  · cases hw : w.dropWhile isspace with
    | nil => simp
    | cons c rest =>
      dsimp only
      split_ifs with hc
      · simp [hsign, hc]
      · simp [hc]

theorem entryOf_eq_tag : entryOf w = .tag k ↔ w.head? ≠ some numberSign ∧
    ∃ c rest, w.dropWhile isspace = c :: rest ∧ c ≠ openBracket ∧
      (c :: rest).takeWhile (· ≠ newline) = k := by
  unfold entryOf
  split_ifs with hsign
  · simp [hsign]
  · cases hw : w.dropWhile isspace with
    | nil => simp
    | cons c rest =>
      dsimp only
      split_ifs with hc
      · simp [hc]
      · constructor
        · rintro ⟨⟩
          exact ⟨hsign, c, rest, rfl, hc, rfl⟩
        · rintro ⟨-, c', rest', hw', -, rfl⟩
          rw [hw']

theorem parseLine_nothing {r : Option FileId × Store} (h : entryOf w = .nothing) :
    parseLine env getattr r w = .ok r := by
  unfold entryOf at h
  unfold parseLine
  split_ifs at h ⊢ with hsign
  · rfl
  · cases hw : w.dropWhile isspace with
    | nil => rfl
    | cons c rest =>
      rw [hw] at h
      dsimp only at h
      split_ifs at h

theorem parseLine_file {cur : Option FileId} (h : entryOf w = .file n) :
    parseLine env getattr (cur, s) w = getattr s n >>= fun r =>
      if r.1 ≥ 0 then .ok (some (fileGetOrCreate r.2 n).1, (fileGetOrCreate r.2 n).2)
      else .ok (none, r.2) := by
  obtain ⟨hsign, rest, hw, rfl⟩ := entryOf_eq_file.mp h
  unfold parseLine
  rw [if_neg hsign, hw]
  rfl

theorem isspace_of_dropWhile {c : CChar} {rest : CStr} (h : w.dropWhile isspace = c :: rest) :
    isspace c = false := by
  have hne : w.dropWhile isspace ≠ [] := by simp [h]
  simpa [h] using List.head_dropWhile_not isspace hne

theorem parseLine_tag {cur : Option FileId} (h : entryOf w = .tag k) : k ≠ [] ∧
    ∃ word, copyWordUntil word newline = k ∧
      parseLine env getattr (cur, s) w = parseTag env s cur word >>= fun s' => .ok (cur, s') := by
  obtain ⟨hsign, c, rest, hw, hc, rfl⟩ := entryOf_eq_tag.mp h
  have hne : c ≠ newline := by
    rintro rfl
    exact absurd (isspace_of_dropWhile hw) (by decide)
  refine ⟨by simp [hne], c :: rest, rfl, ?_⟩
  unfold parseLine
  rw [if_neg hsign, hw]
  exact if_neg hc

/-- `s'` is `s` after the parser has looked up the tag `k`, or made it in use. -/
structure Entered (s : Store) (k : CStr) (t : TagId) (s' : Store) : Prop where
  typed : s'.Typed
  coherent : s'.Coherent
  entry : s'.tags.get? k = some t
  names : ∀ k', (∃ t, s'.tags.get? k' = some t) ↔ (∃ t, s.tags.get? k' = some t) ∨ k' = k
  used : (∀ k t, s.tags.get? k = some t → s.InUse t) → ∀ k t, s'.tags.get? k = some t → s'.InUse t
  files : s'.files = s.files
  fileHeap : s'.fileHeap = s.fileHeap

theorem sat_tagGetOrCreate (h : s.Typed) (hc : s.Coherent) :
    Sat E (tagGetOrCreate s k) fun r => Entered s k r.1 r.2 := by
  cases hreg : s.tags.get? k with
  | some t =>
    obtain ⟨T, hT, -⟩ := h.tagEntry hreg
    rw [tagGetOrCreate_some hreg hT]
    refine ⟨h.touchTag hT rfl rfl, hc.touchTag hT rfl rfl, hreg, fun k' => ?_, fun hall k' t' hk' => ?_,
      rfl, rfl⟩
    · refine ⟨.inl, fun hk' => hk'.elim id ?_⟩
      rintro rfl
      exact ⟨t, hreg⟩
    · obtain ⟨T', hT', hu⟩ := hall k' t' hk'
      by_cases ht : t' = t
      · subst ht
        cases hT.symm.trans hT'
        exact ⟨_, Heap.get?_write_self hT, hu⟩
      · exact ⟨T', by rw [Store.writeTag_tagHeap, Heap.get?_write_ne ht, hT'], hu⟩
  | none =>
    rw [tagGetOrCreate_none hreg]
    refine ⟨h.registerTag (T := { tagNew k true with refCount := 1 }) hreg rfl,
      hc.registerTag (T := { tagNew k true with refCount := 1 }) hreg rfl, Table.get?_add_self,
      fun k' => ?_, fun hall k' t' hk' => ?_, rfl, rfl⟩
    · simp only [Store.registerTag, tagNew, Table.get?_add]
      by_cases hk : k = k'
      · simp [hk]
      · simp [hk, Ne.symm hk]
    · simp only [Store.registerTag, tagNew, Table.get?_add] at hk'
      split_ifs at hk' with hk
      · cases hk'
        exact ⟨_, Heap.get?_alloc_next, rfl⟩
      · obtain ⟨T', hT', hu⟩ := hall k' t' hk'
        exact ⟨T', Heap.get?_alloc_of_some hT', hu⟩

/-- `parse_tag` registers the tag and, if there is a current file, gives it to the file. -/
theorem sat_parseTag {cur : Option FileId} {c : Option CStr} (h : s.Typed) (hc : s.Coherent)
    (hcur : Option.Rel (fun n f => s.files.get? n = some f) c cur)
    (hword : copyWordUntil w newline = k) (hk : k ≠ []) :
    Sat E (parseTag env s cur w) fun s' => s'.Typed ∧ s'.Coherent ∧ s'.files = s.files ∧
      (∀ k', (∃ t, s'.tags.get? k' = some t) ↔ (∃ t, s.tags.get? k' = some t) ∨ k' = k) ∧
      ((∀ k t, s.tags.get? k = some t → s.InUse t) → ∀ k t, s'.tags.get? k = some t → s'.InUse t) ∧
      ∀ n' k', s'.Carries n' k' ↔ s.Carries n' k' ∨ c = some n' ∧ k' = k := by
  simp only [parseTag, hword, if_neg hk]
  apply (sat_tagGetOrCreate h hc).bind
  rintro ⟨t, s₁⟩ he
  dsimp only at he ⊢
  have hcar (n' k' : CStr) : s₁.Carries n' k' ↔ s.Carries n' k' := carries_congr he.files he.fileHeap
  cases hcur with
  | none => exact ⟨he.typed, he.coherent, he.files, he.names, he.used, by simp [hcar]⟩
  | @some n f hn =>
    have hn₁ : s₁.files.get? n = some f := he.files ▸ hn
    obtain ⟨T, hT, hv⟩ := he.typed.tagEntry he.entry
    -- one step of the loop of `path_link`
    have hattached : Sat E (forEach [(k, t)] (fun s e => tagFile env s e.2 f) s₁)
        (Attached s₁ [(k, t)]) := sat_attached he.typed hn₁ (by simpa using ⟨T, hT⟩)
    have hloop := hattached.and
      (sat_attached_relation he.typed he.coherent hn₁ (by simpa using he.entry))
    rw [forEach_singleton] at hloop
    apply hloop.mono
    rintro s₂ ⟨ha, hc₂, hrel⟩
    refine ⟨ha.typed, hc₂, ha.files.trans he.files, fun k' => ha.tags ▸ he.names k',
      fun hall k' t' hk' => ha.inUse (he.used hall k' t' (ha.tags ▸ hk')), fun n' k' => ?_⟩
    rw [← hcar]
    simp only [Store.Carries, ha.files, hrel, List.mem_singleton, Prod.mk.injEq]
    constructor
    · rintro ⟨f', hf', t', htag | ⟨rfl, rfl, rfl⟩⟩
      · exact .inl ⟨f', hf', t', htag⟩
      · exact .inr ⟨congrArg some (he.typed.name_inj hn₁ hf'), rfl⟩
    · rintro (⟨f', hf', t', htag⟩ | ⟨hname, rfl⟩)
      · exact ⟨f', hf', t', .inl htag⟩
      · cases hname
        exact ⟨f, hn₁, t, .inr ⟨rfl, rfl, rfl⟩⟩

/-- The `getattr` of a predicate that leaves the store alone. -/
def readOnly (getattr : CStr → ℤ) : Getattr := fun s n => .ok (getattr n, s)

/-- The store has the tags that the entries name, all of them in use, and its files have the tags
that the entries give them. -/
structure Describes (getattr : CStr → ℤ) (es : List Entry) (s : Store) : Prop where
  typed : s.Typed
  coherent : s.Coherent
  registered : ∀ k, (∃ t, s.tags.get? k = some t) ↔ .tag k ∈ es
  used : ∀ k t, s.tags.get? k = some t → s.InUse t
  carries : ∀ n k, s.Carries n k ↔ Relates getattr es n k

/-- The parser is where the entries have brought it. -/
structure Parsed (getattr : CStr → ℤ) (es : List Entry) (r : Option FileId × Store) : Prop
    extends Describes getattr es r.2 where
  current : Option.Rel (fun n f => r.2.files.get? n = some f) (currentFile getattr es) r.1

theorem parsed_nil : Parsed res [] (none, .init) where
  typed := typed_init
  coherent := coherent_init
  registered k := by simp [Store.init]
  used k t hk := by cases hk
  carries n k := by
    refine iff_of_false ?_ relates_nil
    rintro ⟨f, hn, -⟩
    cases hn
  current := .none

/-- `s'` has the tags and the relation of `s`; it may have more file records. -/
structure Kept (s s' : Store) : Prop where
  typed : s'.Typed
  coherent : s'.Coherent
  tags : s'.tags = s.tags
  tagHeap : s'.tagHeap = s.tagHeap
  carries : ∀ n k, s'.Carries n k ↔ s.Carries n k

/-- `getattr` accepts the name `n` if `res` does, and keeps the tags and the relation. -/
def Answers (getattr : Getattr) (res : CStr → ℤ) (n : CStr) : Prop :=
  ∀ s, s.Typed → s.Coherent →
    ∃ r s', getattr s n = .ok (r, s') ∧ (0 ≤ r ↔ 0 ≤ res n) ∧ Kept s s'

theorem answers_readOnly (n : CStr) : Answers (readOnly res) res n :=
  fun s ht hc => ⟨res n, s, rfl, Iff.rfl, ht, hc, rfl, rfl, fun _ _ => Iff.rfl⟩

theorem sat_parseLine {r : Option FileId × Store} (h : Parsed res es r)
    (hans : ∀ n, entryOf w = .file n → Answers getattr res n) :
    Sat E (parseLine env getattr r w) (Parsed res (es ++ [entryOf w])) := by
  obtain ⟨cur, s⟩ := r
  cases he : entryOf w with
  | nothing =>
    rw [parseLine_nothing he]
    exact { h with
      registered := by simpa using h.registered
      carries := fun n k => by simpa [relates_append] using h.carries n k
      current := by simpa [Entry.current] using h.current }
  | file n =>
    obtain ⟨v, s₁, hget, hv, hkept⟩ := hans n he s h.typed h.coherent
    rw [parseLine_file he, hget, ok_bind]
    have hnames : ∀ k, (∃ t, s₁.tags.get? k = some t) ↔ .tag k ∈ es ++ [.file n] := by
      simpa [hkept.tags] using h.registered
    have hcar : ∀ n' k, s₁.Carries n' k ↔ Relates res (es ++ [.file n]) n' k := by
      simpa [hkept.carries, relates_append] using h.carries
    have hused : ∀ k t, s₁.tags.get? k = some t → s₁.InUse t := by
      simpa [Store.InUse, hkept.tags, hkept.tagHeap] using h.used
    by_cases hres : 0 ≤ v
    · rw [if_pos hres]
      exact {
        typed := typed_fileGetOrCreate hkept.typed
        coherent := coherent_fileGetOrCreate hkept.typed hkept.coherent
        registered := by simpa using hnames
        used := by simpa [Store.InUse] using hused
        carries := fun n' k => carries_fileGetOrCreate.trans (hcar n' k)
        current := by
          rw [currentFile_append, Entry.current, if_pos (hv.mp hres)]
          exact .some fileGetOrCreate_get? }
    · -- `getattr` has refused the name: the lines up to the next header have no file
      rw [if_neg hres]
      exact {
        typed := hkept.typed
        coherent := hkept.coherent
        registered := hnames
        used := hused
        carries := hcar
        current := by
          rw [currentFile_append, Entry.current, if_neg (mt hv.mpr hres)]
          exact .none }
  | tag k =>
    obtain ⟨hk, word, hword, hline⟩ : k ≠ [] ∧ ∃ word, copyWordUntil word newline = k ∧
        parseLine env getattr (cur, s) w =
          parseTag env s cur word >>= fun s' => .ok (cur, s') := parseLine_tag he
    -- the tag is registered in any case, and given to the file if there is one
    rw [hline]
    apply (sat_parseTag h.typed h.coherent h.current hword hk).bind
    rintro s' ⟨ht, hc, hfiles, hnames, hused, hcar⟩
    exact {
      typed := ht
      coherent := hc
      registered := fun k' => by
        rw [hnames, h.registered]
        simp [eq_comm]
      used := hused h.used
      carries := fun n' k' => by
        rw [hcar, h.carries, relates_append]
        simp [eq_comm]
      current := by
        rw [currentFile_append]
        simpa [Entry.current, hfiles] using h.current }

theorem sat_parseLines {ws : List CStr} (hans : ∀ n, .file n ∈ ws.map entryOf → Answers getattr res n) :
    Sat E (forEach ws (parseLine env getattr) (none, .init)) (Parsed res (ws.map entryOf)) := by
  refine sat_forEach_visited (fun ws r => Parsed res (ws.map entryOf) r) ?_ parsed_nil
  intro ws₀ w ws₁ r hsplit hr
  rw [List.map_append]
  refine sat_parseLine hr fun n hn => hans n ?_
  rw [← hsplit, ← hn]
  simp

/-- What the pieces that `fgets` returns say is what the parser makes of the text. -/
theorem parseTagsDb2_of_answers (env : Env) (text : CStr)
    (hans : ∀ n, .file n ∈ (fgets maxLength text).map entryOf → Answers getattr res n) :
    ∃ s, parseTagsDb2 env getattr text .init = .ok s ∧
      Describes res ((fgets maxLength text).map entryOf) s := by
  have hlines : Sat (fun _ => False)
      (forEach (fgets maxLength text) (parseLine env getattr) (none, .init))
      (Parsed res ((fgets maxLength text).map entryOf)) := sat_parseLines hans
  obtain ⟨⟨cur, s⟩, hrun, hp⟩ := hlines.exists_ok
  refine ⟨s, ?_, hp.toDescribes⟩
  rw [parseTagsDb2, hrun]
  rfl

theorem parseTagsDb2_pieces (env : Env) (getattr : CStr → ℤ) (text : CStr) :
    ∃ s, parseTagsDb2 env (readOnly getattr) text .init = .ok s ∧
      Describes getattr ((fgets maxLength text).map entryOf) s :=
  parseTagsDb2_of_answers env text fun n _ => answers_readOnly n

/-- For every text whose lines have at most 998 bytes and every predicate `getattr` that leaves the
store alone, the parser computes what the lines of the text say. -/
theorem parseTagsDb2_describes (env : Env) (getattr : CStr → ℤ) (text : CStr)
    (h : ∀ l ∈ linesOf text, (l.takeWhile (· ≠ newline)).length ≤ 998) :
    ∃ s, parseTagsDb2 env (readOnly getattr) text .init = .ok s ∧
      Describes getattr ((linesOf text).map entryOf) s := by
  have hfgets : fgets maxLength text = linesOf text :=
    fgets_eq_linesOf fun l hl => Nat.lt_succ_of_le (h l hl)
  rw [← hfgets]
  exact parseTagsDb2_pieces env getattr text

/-- An indented header, a comment inside a block, an empty line, and a header that is refused. -/
def sampleText : CStr := cstr [32, 91, 102, 93, 10, 120, 10, 35, 91, 10, 32, 10, 32, 121, 32, 10,
  91, 103, 93, 10, 121]

theorem parseTagsDb2_describes_sample :
    ∃ s, parseTagsDb2 sampleEnv (readOnly fun n => if n = nameF then 0 else -2) sampleText .init =
        .ok s ∧
      Describes (fun n => if n = nameF then 0 else -2) [.file nameF, .tag nameX, .nothing, .nothing,
        .tag (cstr [121, 32]), .file nameG, .tag nameY] s := by
  obtain ⟨s, hs, hd⟩ := parseTagsDb2_describes sampleEnv (fun n => if n = nameF then 0 else -2)
    sampleText (by decide)
  exact ⟨s, hs, hd⟩

end TagFilesystem.Fuse
