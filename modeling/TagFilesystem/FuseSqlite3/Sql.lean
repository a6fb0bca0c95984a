import TagFilesystem.Library.Query
import TagFilesystem.Posix

/-!
# The text of SQL statements

The queries of `db.c` are strings. A string is read as SQLite reads it: it is cut into tokens,
where two quotes inside a literal stand for one, and the tokens are parsed as a `SELECT` of one
column. Keywords are read in any case.
-/

namespace TagFilesystem.FuseSqlite3

/-- The bytes of a string constant of the source. -/
def sql (s : String) : CStr := cstr s.toByteArray.data.toList

inductive Value
  | integer (i : ℤ)
  | text (v : CStr)
  deriving Repr, DecidableEq

inductive Token
  | word (w : CStr)
  | literal (v : CStr)
  | lparen
  | rparen
  | comma
  | other (c : CChar)
  deriving Repr, DecidableEq

def singleQuote : CChar := ⟨39, by decide⟩

/-- Letters, digits and the underscore. -/
def isWordChar (c : CChar) : Bool :=
  (48 ≤ c.val && c.val ≤ 57) || (65 ≤ c.val && c.val ≤ 90) || (97 ≤ c.val && c.val ≤ 122) ||
    c.val == 95

/-- What is being read. After a quote that ends a literal, or begins a doubled one, it is not
known yet which. -/
inductive Mode
  | between
  | word (w : CStr)
  | literal (v : CStr)
  | quoted (v : CStr)
  deriving Repr, DecidableEq

/-- A token begins. -/
def startToken (c : CChar) : List Token × Mode :=
  if isspace c then ([], .between)
  else if c = singleQuote then ([], .literal [])
  else if isWordChar c then ([], .word [c])
  else if c.val = 40 then ([.lparen], .between)
  else if c.val = 41 then ([.rparen], .between)
  else if c.val = 44 then ([.comma], .between)
  else ([.other c], .between)

/-- The tokens that a character completes. -/
def readChar : Mode → CChar → List Token × Mode
  | .between, c => startToken c
  | .word w, c =>
    if isWordChar c then ([], .word (w ++ [c]))
    else (.word w :: (startToken c).1, (startToken c).2)
  | .literal v, c => if c = singleQuote then ([], .quoted v) else ([], .literal (v ++ [c]))
  | .quoted v, c =>
    if c = singleQuote then ([], .literal (v ++ [c]))
    else (.literal v :: (startToken c).1, (startToken c).2)

def readChars : Mode → CStr → List Token × Mode
  | m, [] => ([], m)
  | m, c :: text =>
    ((readChar m c).1 ++ (readChars (readChar m c).2 text).1, (readChars (readChar m c).2 text).2)

/-- The tokens of a text; `none` if a literal does not end. -/
def tokens (text : CStr) : Option (List Token) :=
  let ts := (readChars .between text).1
  match (readChars .between text).2 with
  | .between => some ts
  | .word w => some (ts ++ [.word w])
  | .literal _ => none
  | .quoted v => some (ts ++ [.literal v])

/-- The bytes of a word with small letters as capitals. -/
def upperCase (w : CStr) : List UInt8 :=
  w.map fun c => if 97 ≤ c.val && c.val ≤ 122 then c.val - 32 else c.val

def keyword? (k : String) : List Token → Option (List Token)
  | .word w :: ts => if upperCase w = k.toByteArray.data.toList then some ts else none
  | _ => none

def name? : List Token → Option (CStr × List Token)
  | .word w :: ts => some (w, ts)
  | _ => none

/-- Literals up to a closing parenthesis. -/
def literals? : List Token → Option (List Value × List Token)
  | .literal v :: .comma :: ts => (literals? ts).map fun r => (.text v :: r.1, r.2)
  | .literal v :: .rparen :: ts => some ([.text v], ts)
  | _ => none

/-- A query and the closing parenthesis; `sub` reads the query. -/
def nested? (sub : List Token → Option (Query CStr Value × List Token)) (ts : List Token) :
    Option (Query CStr Value × List Token) :=
  match sub ts with
  | some (q, .rparen :: ts) => some (q, ts)
  | _ => none

/-- A table, or a query in parentheses. -/
def source? (sub : List Token → Option (Query CStr Value × List Token)) :
    List Token → Option (Query CStr Value × List Token)
  | .word t :: ts => some (.table t, ts)
  | .lparen :: ts => nested? sub ts
  | _ => none

/-- The source `q` under `[WHERE column [NOT] IN (literals or query)]`. -/
def where? (sub : List Token → Option (Query CStr Value × List Token)) (q : Query CStr Value)
    (ts : List Token) : Option (Query CStr Value × List Token) :=
  match keyword? "WHERE" ts with
  | none => some (q, ts)
  | some ts => do
    let (column, ts) ← name? ts
    let negated := (keyword? "NOT" ts).isSome
    let ts ← keyword? "IN" ((keyword? "NOT" ts).getD ts)
    match ts with
    | .lparen :: .word w :: ts =>
      (nested? sub (.word w :: ts)).map fun r => (.whereInQuery q column negated r.1, r.2)
    | .lparen :: ts => (literals? ts).map fun r => (.whereIn q column negated r.1, r.2)
    | _ => none

/-- `SELECT [DISTINCT] column FROM source [WHERE ..]`, with at most so many queries nested. -/
def query? : ℕ → List Token → Option (Query CStr Value × List Token)
  | 0, _ => none
  | fuel + 1, ts => do
    let ts ← keyword? "SELECT" ts
    let distinct := (keyword? "DISTINCT" ts).isSome
    let (column, ts) ← name? ((keyword? "DISTINCT" ts).getD ts)
    let ts ← keyword? "FROM" ts
    let (source, ts) ← source? (query? fuel) ts
    let (source, ts) ← where? (query? fuel) source ts
    some (.select distinct column source, ts)

/-- `sqlite3_prepare_v2`; `none` if the text is no such statement. -/
def prepare (text : CStr) : Option (Query CStr Value) := do
  let ts ← tokens text
  let (q, ts) ← query? ts.length ts
  if ts = [] then some q else none

variable {m m' m'' : Mode} {a b v w n : CStr} {ns : List CStr} {ts ts' : List Token}

theorem readChars_cons (c : CChar) : readChars m (c :: a) =
    ((readChar m c).1 ++ (readChars (readChar m c).2 a).1, (readChars (readChar m c).2 a).2) := rfl

theorem readChars_append (ha : readChars m a = (ts, m')) (hb : readChars m' b = (ts', m'')) :
    readChars m (a ++ b) = (ts ++ ts', m'') := by
  induction a generalizing m ts with
  | nil =>
    cases ha
    exact hb
  | cons c a ih =>
    obtain ⟨rfl, rfl⟩ := Prod.mk.inj ha
    have hrest : readChars (readChar m c).2 (a ++ b) = _ := ih rfl
    rw [List.cons_append, readChars_cons, hrest, List.append_assoc]

theorem readChars_literal (hw : singleQuote ∉ w) :
    readChars (.literal v) w = ([], .literal (v ++ w)) := by
  induction w generalizing v with
  | nil => simp [readChars]
  | cons c w ih =>
    have hc : c ≠ singleQuote := fun h => hw (h ▸ List.mem_cons_self)
    have hrest := ih (v := v ++ [c]) fun h => hw (List.mem_cons_of_mem c h)
    simp [readChars, readChar, hc, hrest]

/-- A literal between quotes. -/
def quoteLiteral (w : CStr) : CStr := [singleQuote] ++ w ++ [singleQuote]

theorem readChars_quoteLiteral (hw : singleQuote ∉ w) :
    readChars .between (quoteLiteral w) = ([], .quoted w) := by
  have hstart : readChars .between [singleQuote] = ([], .literal []) := rfl
  have hend : readChars (.literal w) [singleQuote] = ([], .quoted w) := by
    simp [readChars, readChar]
  exact readChars_append (readChars_append hstart (readChars_literal hw)) hend

/-- The tokens of a list of literals. -/
def literalTokens (n : CStr) (ns : List CStr) : List Token :=
  .literal n :: ns.flatMap fun n => [.comma, .literal n]

theorem readChars_literals_rest (hns : ∀ n ∈ ns, singleQuote ∉ n) :
    readChars (.quoted n) ((ns.flatMap fun n => sql ", " ++ quoteLiteral n) ++ sql ")") =
      (literalTokens n ns ++ [.rparen], .between) := by
  induction ns generalizing n with
  | nil => rfl
  | cons n' ns ih =>
    have hsep : readChars (.quoted n) (sql ", ") = ([.literal n, .comma], .between) := rfl
    have hlit := readChars_quoteLiteral (hns n' List.mem_cons_self)
    have hrest := ih (n := n') fun k hk => hns k (List.mem_cons_of_mem n' hk)
    rw [List.flatMap_cons, List.append_assoc, List.append_assoc]
    have hall := readChars_append hsep (readChars_append hlit hrest)
    exact hall

theorem readChars_literals (hn : singleQuote ∉ n) (hns : ∀ n ∈ ns, singleQuote ∉ n) :
    readChars .between (quoteLiteral n ++ (ns.flatMap fun n => sql ", " ++ quoteLiteral n) ++ sql ")") =
      (literalTokens n ns ++ [.rparen], .between) := by
  rw [List.append_assoc]
  have hall := readChars_append (readChars_quoteLiteral hn) (readChars_literals_rest hns)
  exact hall

theorem literals?_eq : literals? (literalTokens n ns ++ .rparen :: ts) =
    some (.text n :: ns.map .text, ts) := by
  induction ns generalizing n with
  | nil => rfl
  | cons n' ns ih =>
    have h : literalTokens n (n' :: ns) ++ .rparen :: ts =
        .literal n :: .comma :: (literalTokens n' ns ++ .rparen :: ts) := by
      simp [literalTokens]
    rw [h, literals?, ih]
    rfl

end TagFilesystem.FuseSqlite3
