import TagFilesystem.FuseSqlite3.Queries

namespace TagFilesystem.FuseSqlite3

variable {m : Mode} {text n : CStr} {ns : List CStr} {ts ts' : List Token}
  {sel : HashTable (Option TagId)}

/-- Literals between commas, to the end. -/
def literalList? : List Token → Option (List CStr)
  | [.literal v] => some [v]
  | .literal v :: .comma :: ts => (literalList? ts).map (v :: ·)
  | _ => none

/-- A text read as a list of literals between commas. -/
def readLiterals (text : CStr) : Option (List CStr) := (tokens text).bind literalList?

/-- The list of the selected tags is read as their names, in order, and the conditions of both
queries that are built from it range over these names. -/
structure Denotes (sel : HashTable (Option TagId)) : Prop where
  literals : readLiterals (tagListString sel) = some sel.keys
  selectedFiles : prepare (buildSelectedFileQuery (tagListString sel) true) =
    some (selectedFileQuery sel.keys)
  remainingTags : prepare (buildRemainingTagsQuery (tagListString sel)
    (buildSelectedFileQuery (tagListString sel) true)) = some (remainingTagsQuery sel.keys)

theorem literalList?_eq : literalList? (literalTokens n ns) = some (n :: ns) := by
  induction ns generalizing n with
  | nil => rfl
  | cons n' ns ih =>
    have h : literalTokens n (n' :: ns) = .literal n :: .comma :: literalTokens n' ns := by
      simp [literalTokens]
    rw [h, literalList?, ih]
    rfl

theorem readChars_literalList (hns : ∀ k ∈ ns, singleQuote ∉ k) : ∃ ts v,
    readChars (.quoted n) (ns.flatMap fun n => sql ", " ++ quoteLiteral n) = (ts, .quoted v) ∧
      ts ++ [.literal v] = literalTokens n ns := by
  induction ns generalizing n with
  | nil => exact ⟨[], n, rfl, rfl⟩
  | cons n' ns ih =>
    rw [List.forall_mem_cons] at hns
    obtain ⟨ts, v, hread, hts⟩ := ih (n := n') hns.2
    have hsep : readChars (.quoted n) (sql ", ") = ([.literal n, .comma], .between) := rfl
    have hlit := readChars_quoteLiteral hns.1
    refine ⟨[.literal n, .comma] ++ ([] ++ ts), v, ?_, ?_⟩
    · rw [List.flatMap_cons, List.append_assoc]
      exact readChars_append hsep (readChars_append hlit hread)
    · rw [List.nil_append, List.append_assoc, hts]
      simp [literalTokens]

theorem tokens_tagListString (hsel : sel.keys = n :: ns) (hn : singleQuote ∉ n)
    (hns : ∀ k ∈ ns, singleQuote ∉ k) : tokens (tagListString sel) = some (literalTokens n ns) := by
  obtain ⟨ts, v, hread, hts⟩ := readChars_literalList (n := n) hns
  have hall := readChars_append (readChars_quoteLiteral hn) hread
  rw [tagListString_eq hsel, tokens, hall]
  exact congrArg some hts

theorem prepare_selectedFile (hsel : sel.keys = n :: ns) (hn : singleQuote ∉ n)
    (hns : ∀ k ∈ ns, singleQuote ∉ k) :
    prepare (buildSelectedFileQuery (tagListString sel) true) = some (selectedFileQuery (n :: ns)) := by
  obtain ⟨k, hk⟩ : ∃ k, (selectedFileTokens n ns).length = k + 2 := ⟨_, rfl⟩
  have htokens : tokens (buildSelectedFileQuery (tagListString sel) true) =
      some (selectedFileTokens n ns) := by
    simp only [tokens, readChars_selectedFile hn hns hsel]
  have hquery : query? (k + 2) (selectedFileTokens n ns ++ []) = _ := query?_selectedFile
  rw [List.append_nil] at hquery
  rw [prepare, htokens]
  show (query? (selectedFileTokens n ns).length (selectedFileTokens n ns)).bind _ = _
  rw [hk, hquery]
  rfl

theorem denotes_of_plain (hne : sel.keys ≠ []) (hquote : ∀ k ∈ sel.keys, singleQuote ∉ k) :
    Denotes sel := by
  obtain ⟨n, ns, hsel⟩ := List.exists_cons_of_ne_nil hne
  rw [hsel, List.forall_mem_cons] at hquote
  obtain ⟨hn, hns⟩ := hquote
  constructor
  · rw [readLiterals, tokens_tagListString hsel hn hns, hsel]
    exact literalList?_eq
  · rw [prepare_selectedFile hsel hn hns, hsel]
  · rw [prepare_remaining hn hns hsel, hsel]

/-- The quotes that a token takes: those around a literal, and two for each one inside. -/
def Token.quotes : Token → ℕ
  | .literal v => 2 + 2 * v.count singleQuote
  | _ => 0

/-- The quotes that have been read of a token that is not complete. -/
def Mode.quotes : Mode → ℕ
  | .literal v => 1 + 2 * v.count singleQuote
  | .quoted v => 2 + 2 * v.count singleQuote
  | _ => 0

def tokenQuotes : List Token → ℕ
  | [] => 0
  | t :: ts => t.quotes + tokenQuotes ts

def nameQuotes : List CStr → ℕ
  | [] => 0
  | n :: ns => n.count singleQuote + nameQuotes ns

theorem tokenQuotes_append : tokenQuotes (ts ++ ts') = tokenQuotes ts + tokenQuotes ts' := by
  induction ts with
  | nil => simp [tokenQuotes]
  | cons t ts ih => simp [tokenQuotes, ih, Nat.add_assoc]

theorem count_ne {c : CChar} (hc : c ≠ singleQuote) : [c].count singleQuote = 0 := by
  rw [List.count_eq_zero, List.mem_singleton]
  exact Ne.symm hc

theorem quotes_startToken (c : CChar) : [c].count singleQuote =
    tokenQuotes (startToken c).1 + (startToken c).2.quotes := by
  unfold startToken
  by_cases hc : c = singleQuote
  · subst hc
    decide
  · rw [count_ne hc, if_neg hc]
    split_ifs <;> rfl

theorem ne_singleQuote {c : CChar} (hc : isWordChar c = true) : c ≠ singleQuote := by
  rintro rfl
  exact absurd hc (by decide)

theorem quotes_readChar (m : Mode) (c : CChar) : [c].count singleQuote + m.quotes =
    tokenQuotes (readChar m c).1 + (readChar m c).2.quotes := by
  have hstart := quotes_startToken c
  cases m with
  | between => exact hstart
  | word w =>
    simp only [readChar]
    split_ifs with hc
    · rw [count_ne (ne_singleQuote hc)]
      rfl
    · simpa [tokenQuotes, Token.quotes, Mode.quotes] using hstart
  | literal v =>
    simp only [readChar]
    split_ifs with hc
    · subst hc
      simp only [tokenQuotes, Mode.quotes, List.count_singleton_self]
      omega
    · simp only [tokenQuotes, Mode.quotes, List.count_append, count_ne hc]
      omega
  | quoted v =>
    simp only [readChar]
    split_ifs with hc
    · subst hc
      simp only [tokenQuotes, Mode.quotes, List.count_append, List.count_singleton_self]
      omega
    · change [c].count singleQuote + (2 + 2 * v.count singleQuote) =
        2 + 2 * v.count singleQuote + tokenQuotes (startToken c).1 + (startToken c).2.quotes
      omega

theorem quotes_readChars (m : Mode) (text : CStr) : text.count singleQuote + m.quotes =
    tokenQuotes (readChars m text).1 + (readChars m text).2.quotes := by
  induction text generalizing m with
  | nil => simp [readChars, tokenQuotes]
  | cons c text ih =>
    have hchar := quotes_readChar m c
    have hrest := ih (readChar m c).2
    have hcons : (c :: text).count singleQuote = [c].count singleQuote + text.count singleQuote :=
      @List.count_append _ _ _ [c] _
    rw [readChars_cons, tokenQuotes_append, hcons]
    dsimp only
    omega

theorem quotes_tokens (h : tokens text = some ts) : text.count singleQuote = tokenQuotes ts := by
  have hread := quotes_readChars .between text
  unfold tokens at h
  cases hmode : (readChars .between text).2 with
  | literal v => simp [hmode] at h
  | _ =>
    simp only [hmode, Option.some.injEq] at h
    rw [hmode] at hread
    subst h
    simpa [tokenQuotes_append, tokenQuotes, Token.quotes, Mode.quotes] using hread

theorem quotes_literalList (h : literalList? ts = some ns) :
    tokenQuotes ts = 2 * ns.length + 2 * nameQuotes ns := by
  induction ts using literalList?.induct generalizing ns with
  | case1 v =>
    cases h
    simp only [tokenQuotes, Token.quotes, nameQuotes, List.length_singleton]
    omega
  | case2 v ts ih =>
    rw [literalList?] at h
    obtain ⟨ns', hns', rfl⟩ := Option.map_eq_some_iff.mp h
    have hrest := ih hns'
    simp only [tokenQuotes, Token.quotes, nameQuotes, List.length_cons]
    omega
  | case3 ts h₁ h₂ =>
    rw [literalList?] at h
    · cases h
    · exact h₁
    · exact h₂

theorem quotes_literal (n : CStr) : (quoteLiteral n).count singleQuote = 2 + n.count singleQuote := by
  simp only [quoteLiteral, List.count_append, List.count_singleton_self]
  omega

theorem quotes_tagListString (hne : sel.keys ≠ []) : (tagListString sel).count singleQuote =
    2 * sel.keys.length + nameQuotes sel.keys := by
  obtain ⟨n, ns, hsel⟩ := List.exists_cons_of_ne_nil hne
  have hrest (ns : List CStr) : (ns.flatMap fun n => sql ", " ++ quoteLiteral n).count singleQuote =
      2 * ns.length + nameQuotes ns := by
    induction ns with
    | nil => rfl
    | cons n ns ih =>
      have hsep : (sql ", ").count singleQuote = 0 := by decide
      simp only [List.flatMap_cons, List.count_append, hsep, quotes_literal, ih, nameQuotes,
        List.length_cons]
      omega
  rw [tagListString_eq hsel, hsel, List.count_append, quotes_literal, hrest]
  simp only [nameQuotes, List.length_cons]
  omega

theorem notMem_of_nameQuotes (h : nameQuotes ns = 0) : ∀ k ∈ ns, singleQuote ∉ k := by
  induction ns with
  | nil => simp
  | cons n ns ih =>
    rw [nameQuotes] at h
    rw [List.forall_mem_cons]
    exact ⟨List.count_eq_zero.mp (by omega), ih (by omega)⟩

/-- A list that is read back as the names has no quote in a name: each of them would have been
written twice. -/
theorem plain_of_readLiterals (hne : sel.keys ≠ [])
    (h : readLiterals (tagListString sel) = some sel.keys) : ∀ k ∈ sel.keys, singleQuote ∉ k := by
  obtain ⟨ts, hts, hlist⟩ := Option.bind_eq_some_iff.mp h
  have htext := quotes_tokens hts
  rw [quotes_tagListString hne, quotes_literalList hlist] at htext
  exact notMem_of_nameQuotes (by omega)

/-- For every table of selected tags that is not empty, the text built from it denotes the names in
the table iff none of them has a quote. -/
theorem denotes_iff (hne : sel.keys ≠ []) : Denotes sel ↔ ∀ k ∈ sel.keys, singleQuote ∉ k :=
  ⟨fun h => plain_of_readLiterals hne h.literals, denotes_of_plain hne⟩

/-- The names `x` and `y z`. -/
theorem denotes_sample : Denotes ⟨[(nameX, some 0), (cstr [121, 32, 122], none)]⟩ :=
  (denotes_iff (by decide)).mpr (by decide)

/-- The name `x'`. -/
def quotedName : CStr := nameX ++ [singleQuote]

theorem quoted_name_misread : ¬ ∀ sel : HashTable (Option TagId), sel.keys ≠ [] →
    (∀ k ∈ sel.keys, slash ∉ k) → Denotes sel := by
  intro h
  have hd := h ⟨[(quotedName, some 0)]⟩ (by decide) (by decide)
  exact absurd hd.literals (by decide)

end TagFilesystem.FuseSqlite3
