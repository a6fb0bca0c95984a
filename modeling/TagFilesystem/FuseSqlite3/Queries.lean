import TagFilesystem.FuseSqlite3.Sql
import TagFilesystem.FuseSqlite3.Tagfs

namespace TagFilesystem.FuseSqlite3

def tagRow (r : ℤ × CStr) : Row CStr Value :=
  [(sql "t_id", .integer r.1), (sql "t_name", .text r.2)]

def fileRow (r : ℤ × CStr) : Row CStr Value :=
  [(sql "f_id", .integer r.1), (sql "f_name", .text r.2)]

def tagFileRow (r : ℤ × ℤ) : Row CStr Value :=
  [(sql "t_id", .integer r.1), (sql "f_id", .integer r.2)]

def Database.rows (db : Database) (table : CStr) : List (Row CStr Value) :=
  if table = sql "tag" then db.tag.map tagRow
  else if table = sql "file" then db.file.map fileRow
  else if table = sql "tag_file" then db.tagFile.map tagFileRow
  else []

/-- `sqlite3_column_text`; the columns that are listed hold texts only. -/
def Value.text? : Value → Option CStr
  | .text v => some v
  | .integer _ => none

/-- What the loop over `sqlite3_step` gives for a text that `prepare` does not read. A quote in a
name may leave a text that SQLite still takes, as an expression. -/
class Sqlite where
  other : Database → CStr → ℤ × List CStr

instance Sqlite.rejecting : Sqlite := ⟨fun _ _ => (-1, [])⟩

/-- The loop over `sqlite3_step`: the result and the names given to `filler`. -/
def dbList [Sqlite] (db : Database) (query : CStr) : ℤ × List CStr :=
  match prepare query with
  | none => Sqlite.other db query
  | some q => (0, (rowValues (q.eval db.rows)).filterMap Value.text?)

/-- `prepare` reads the text, so it is the same with every `Sqlite`. -/
def dbListAllTags (db : Database) : ℤ × List CStr := dbList db (sql "SELECT t_name FROM tag")

/-- `tag_list_string`; the flag is `first`. -/
def tagListString (selectedTags : HashTable (Option TagId)) : CStr :=
  (selectedTags.entries.foldl (fun (r : CStr × Bool) e =>
    (r.1 ++ (if r.2 then [] else sql ", ") ++ sql "'" ++ e.1 ++ sql "'", false)) ([], true)).1

def buildSelectedFileQuery (tlist : CStr) (useId : Bool) : CStr :=
  let query := sql "SELECT distinct f_id FROM tag_file WHERE t_id IN (" ++
    sql "    SELECT t_id FROM tag WHERE t_name in (" ++ tlist ++ sql "))"
  if useId then query
  else sql "SELECT f_name FROM file WHERE f_id in (" ++ query ++ sql ")"

def buildRemainingTagsQuery (tlist selectedFilesQuery : CStr) : CStr :=
  sql "SELECT t_name FROM (SELECT t_name FROM tag WHERE t_id IN(" ++
    sql "    SELECT DISTINCT t_id FROM tag_file WHERE f_id IN    (        " ++ selectedFilesQuery ++
    sql "    ))) WHERE t_name NOT IN (" ++ tlist ++ sql ")"

def dbListRemainingTags [Sqlite] (db : Database) (selectedTags : HashTable (Option TagId)) :
    ℤ × List CStr :=
  let tlist := tagListString selectedTags
  let query := buildSelectedFileQuery tlist true
  dbList db (buildRemainingTagsQuery tlist query)

/-- `path_set`; the member `depth` is left unset, and nothing reads it. -/
def pathSet (env : Env) (virtdirpath filename : CStr) (selectedTags : HashTable (Option TagId)) :
    Path :=
  ⟨0, appendDir env.realdirpath filename, appendDir virtdirpath filename, virtdirpath, filename,
    selectedTags⟩

/-- The names given to `filler`, and the store; `dirents` are the entries of the target directory. -/
def readdirListFiles (env : Env) (dirents : List Dirent) (s : Store) (dirpath : Path) :
    Except Fault (List CStr × Store) :=
  forEach dirents (fun (r : List CStr × Store) dirent =>
    if dirent.isDir = true then .ok r
    else do
      let p := pathSet env dirpath.virtpath dirent.name dirpath.selectedTags
      let (res, _, s) ← getattrIntra env r.2 p
      .ok (if res < 0 then r.1 else r.1 ++ [dirent.name], s)) ([], s)

/-- `tag_readdir` of the directory that has been opened by `path`. -/
def tagReaddir [Sqlite] (env : Env) (dirents : List Dirent) (s : Store) (path : Path) :
    Except Fault (List CStr × Store) := do
  let tags := if path.depth > 0 then (dbListRemainingTags s.db path.selectedTags).2
    else (dbListAllTags s.db).2
  let (files, s) ← readdirListFiles env dirents s path
  .ok ([dot, dotdot] ++ tags ++ files, s)

/-- The identifiers of the tags named `ns`. -/
def tagIdQuery (ns : List CStr) : Query CStr Value :=
  .select false (sql "t_id") (.whereIn (.table (sql "tag")) (sql "t_name") false (ns.map .text))

/-- The files that have one of these tags. -/
def selectedFileQuery (ns : List CStr) : Query CStr Value :=
  .select true (sql "f_id")
    (.whereInQuery (.table (sql "tag_file")) (sql "t_id") false (tagIdQuery ns))

/-- The tags of the selected files. -/
def carriedIdQuery (ns : List CStr) : Query CStr Value :=
  .select true (sql "t_id")
    (.whereInQuery (.table (sql "tag_file")) (sql "f_id") false (selectedFileQuery ns))

def carriedNameQuery (ns : List CStr) : Query CStr Value :=
  .select false (sql "t_name")
    (.whereInQuery (.table (sql "tag")) (sql "t_id") false (carriedIdQuery ns))

/-- Their names, without `ns`. -/
def remainingTagsQuery (ns : List CStr) : Query CStr Value :=
  .select false (sql "t_name")
    (.whereIn (carriedNameQuery ns) (sql "t_name") true (ns.map .text))

theorem tagListString_eq {sel : HashTable (Option TagId)} {n : CStr} {ns : List CStr}
    (hsel : sel.keys = n :: ns) : tagListString sel =
      quoteLiteral n ++ ns.flatMap fun n => sql ", " ++ quoteLiteral n := by
  have hfold (l : List (CStr × Option TagId)) (acc : CStr) :
      (l.foldl (fun (r : CStr × Bool) e =>
        (r.1 ++ (if r.2 then [] else sql ", ") ++ sql "'" ++ e.1 ++ sql "'", false)) (acc, false)).1 =
        acc ++ (l.map Prod.fst).flatMap fun n => sql ", " ++ quoteLiteral n := by
    induction l generalizing acc with
    | nil => simp
    | cons e l ih =>
      rw [List.foldl_cons, ih]
      simp [quoteLiteral, show sql "'" = [singleQuote] from rfl]
  unfold Table.keys at hsel
  unfold tagListString
  cases hl : sel.entries with
  | nil =>
    rw [hl] at hsel
    cases hsel
  | cons e l =>
    rw [hl, List.map_cons] at hsel
    obtain ⟨rfl, rfl⟩ := List.cons.inj hsel
    rw [List.foldl_cons, hfold]
    simp [quoteLiteral, show sql "'" = [singleQuote] from rfl]

section

variable {n : CStr} {ns : List CStr} {rest : List Token} {k : ℕ}

/-- The tokens of the text of each query. -/
def tagIdTokens (n : CStr) (ns : List CStr) : List Token :=
  [.word (sql "SELECT"), .word (sql "t_id"), .word (sql "FROM"), .word (sql "tag"),
    .word (sql "WHERE"), .word (sql "t_name"), .word (sql "in"), .lparen] ++
    (literalTokens n ns ++ [.rparen])

def selectedFileTokens (n : CStr) (ns : List CStr) : List Token :=
  [.word (sql "SELECT"), .word (sql "distinct"), .word (sql "f_id"), .word (sql "FROM"),
    .word (sql "tag_file"), .word (sql "WHERE"), .word (sql "t_id"), .word (sql "IN"), .lparen] ++
    (tagIdTokens n ns ++ [.rparen])

def carriedIdTokens (n : CStr) (ns : List CStr) : List Token :=
  [.word (sql "SELECT"), .word (sql "DISTINCT"), .word (sql "t_id"), .word (sql "FROM"),
    .word (sql "tag_file"), .word (sql "WHERE"), .word (sql "f_id"), .word (sql "IN"), .lparen] ++
    (selectedFileTokens n ns ++ [.rparen])

def carriedNameTokens (n : CStr) (ns : List CStr) : List Token :=
  [.word (sql "SELECT"), .word (sql "t_name"), .word (sql "FROM"), .word (sql "tag"),
    .word (sql "WHERE"), .word (sql "t_id"), .word (sql "IN"), .lparen] ++
    (carriedIdTokens n ns ++ [.rparen])

def notInTokens (n : CStr) (ns : List CStr) : List Token :=
  [.word (sql "WHERE"), .word (sql "t_name"), .word (sql "NOT"), .word (sql "IN"), .lparen] ++
    (literalTokens n ns ++ [.rparen])

def remainingTokens (n : CStr) (ns : List CStr) : List Token :=
  [.word (sql "SELECT"), .word (sql "t_name"), .word (sql "FROM"), .lparen] ++
    (carriedNameTokens n ns ++ (.rparen :: notInTokens n ns))

theorem query?_tagId : query? (k + 1) (tagIdTokens n ns ++ rest) =
    some (tagIdQuery (n :: ns), rest) := by
  have h : query? (k + 1) (tagIdTokens n ns ++ rest) =
      ((literals? (literalTokens n ns ++ [.rparen] ++ rest)).map fun r =>
        (.whereIn (.table (sql "tag")) (sql "t_name") false r.1, r.2)).bind fun r =>
          some (.select false (sql "t_id") r.1, r.2) := rfl
  rw [h, List.append_assoc]
  show ((literals? (literalTokens n ns ++ .rparen :: rest)).map _).bind _ = _
  rw [literals?_eq]
  rfl

/-- A query in the condition of another one; `t` is its first word. -/
theorem query?_nested {head a : List Token} {t column table key : CStr} {d : Bool}
    {q : Query CStr Value}
    (hhead : ∀ ts, query? (k + 1) (head ++ .word t :: ts) =
      ((nested? (query? k) (.word t :: ts)).map fun r =>
        (.whereInQuery (.table table) key false r.1, r.2)).bind fun r =>
          some (.select d column r.1, r.2))
    (hq : ∀ ts, query? k (.word t :: (a ++ ts)) = some (q, ts)) :
    query? (k + 1) (head ++ .word t :: (a ++ .rparen :: rest)) =
      some (.select d column (.whereInQuery (.table table) key false q), rest) := by
  rw [hhead, nested?, hq]
  rfl

theorem query?_selectedFile : query? (k + 2) (selectedFileTokens n ns ++ rest) =
    some (selectedFileQuery (n :: ns), rest) := by
  rw [selectedFileTokens, List.append_assoc, List.append_assoc]
  exact query?_nested (fun _ => rfl) fun _ => query?_tagId

theorem query?_carriedId : query? (k + 3) (carriedIdTokens n ns ++ rest) =
    some (carriedIdQuery (n :: ns), rest) := by
  rw [carriedIdTokens, List.append_assoc, List.append_assoc]
  exact query?_nested (fun _ => rfl) fun _ => query?_selectedFile

theorem query?_carriedName : query? (k + 4) (carriedNameTokens n ns ++ rest) =
    some (carriedNameQuery (n :: ns), rest) := by
  rw [carriedNameTokens, List.append_assoc, List.append_assoc]
  exact query?_nested (fun _ => rfl) fun _ => query?_carriedId

theorem query?_remaining : query? (k + 5) (remainingTokens n ns) =
    some (remainingTagsQuery (n :: ns), []) := by
  have hnotIn : where? (query? (k + 4)) (carriedNameQuery (n :: ns)) (notInTokens n ns) =
      (literals? (literalTokens n ns ++ [.rparen])).map fun r =>
        (.whereIn (carriedNameQuery (n :: ns)) (sql "t_name") true r.1, r.2) := rfl
  have h : query? (k + 5) (remainingTokens n ns) =
      (nested? (query? (k + 4)) (carriedNameTokens n ns ++ .rparen :: notInTokens n ns)).bind
        fun r => (where? (query? (k + 4)) r.1 r.2).bind fun r =>
          some (.select false (sql "t_name") r.1, r.2) := rfl
  rw [h, nested?, query?_carriedName]
  show (where? (query? (k + 4)) (carriedNameQuery (n :: ns)) (notInTokens n ns)).bind _ = _
  rw [hnotIn, literals?_eq]
  rfl

variable (hn : singleQuote ∉ n) (hns : ∀ n ∈ ns, singleQuote ∉ n)
include hn hns

theorem readChars_selectedFile {sel : HashTable (Option TagId)} (hsel : sel.keys = n :: ns) :
    readChars .between (buildSelectedFileQuery (tagListString sel) true) =
      (selectedFileTokens n ns, .between) := by
  have hlits := readChars_literals hn hns
  rw [← tagListString_eq hsel] at hlits
  have hfile : readChars .between (sql "SELECT distinct f_id FROM tag_file WHERE t_id IN (") =
      ([.word (sql "SELECT"), .word (sql "distinct"), .word (sql "f_id"), .word (sql "FROM"),
        .word (sql "tag_file"), .word (sql "WHERE"), .word (sql "t_id"), .word (sql "IN"),
        .lparen], .between) := rfl
  have htag : readChars .between (sql "    SELECT t_id FROM tag WHERE t_name in (") =
      ([.word (sql "SELECT"), .word (sql "t_id"), .word (sql "FROM"), .word (sql "tag"),
        .word (sql "WHERE"), .word (sql "t_name"), .word (sql "in"), .lparen], .between) := rfl
  have hend : readChars .between (sql ")") = ([.rparen], .between) := rfl
  have hall := readChars_append hfile (readChars_append (readChars_append htag hlits) hend)
  have h : buildSelectedFileQuery (tagListString sel) true =
      sql "SELECT distinct f_id FROM tag_file WHERE t_id IN (" ++
        (sql "    SELECT t_id FROM tag WHERE t_name in (" ++ (tagListString sel ++ sql ")") ++
          sql ")") := by
    simp [buildSelectedFileQuery, show sql "))" = sql ")" ++ sql ")" from rfl]
  rw [h]
  exact hall

theorem readChars_remaining {sel : HashTable (Option TagId)} (hsel : sel.keys = n :: ns) :
    readChars .between (buildRemainingTagsQuery (tagListString sel)
      (buildSelectedFileQuery (tagListString sel) true)) = (remainingTokens n ns, .between) := by
  have hlits := readChars_literals hn hns
  rw [← tagListString_eq hsel] at hlits
  have hselect : readChars .between (sql "SELECT t_name FROM (") =
      ([.word (sql "SELECT"), .word (sql "t_name"), .word (sql "FROM"), .lparen], .between) := rfl
  have hname : readChars .between (sql "SELECT t_name FROM tag WHERE t_id IN(") =
      ([.word (sql "SELECT"), .word (sql "t_name"), .word (sql "FROM"), .word (sql "tag"),
        .word (sql "WHERE"), .word (sql "t_id"), .word (sql "IN"), .lparen], .between) := rfl
  have hid : readChars .between
      (sql "    SELECT DISTINCT t_id FROM tag_file WHERE f_id IN    (        ") =
      ([.word (sql "SELECT"), .word (sql "DISTINCT"), .word (sql "t_id"), .word (sql "FROM"),
        .word (sql "tag_file"), .word (sql "WHERE"), .word (sql "f_id"), .word (sql "IN"),
        .lparen], .between) := rfl
  have hend : readChars .between (sql "    )") = ([.rparen], .between) := rfl
  have hend' : readChars .between (sql ")") = ([.rparen], .between) := rfl
  have hnot : readChars .between (sql ") WHERE t_name NOT IN (") =
      ([.rparen, .word (sql "WHERE"), .word (sql "t_name"), .word (sql "NOT"), .word (sql "IN"),
        .lparen], .between) := rfl
  have hcarried := readChars_append hid (readChars_append (readChars_selectedFile hn hns hsel) hend)
  have hall := readChars_append hselect (readChars_append
    (readChars_append hname (readChars_append hcarried hend')) (readChars_append hnot hlits))
  have h₁ : sql "SELECT t_name FROM (SELECT t_name FROM tag WHERE t_id IN(" =
      sql "SELECT t_name FROM (" ++ sql "SELECT t_name FROM tag WHERE t_id IN(" := rfl
  have h₂ : sql "    ))) WHERE t_name NOT IN (" =
      sql "    )" ++ (sql ")" ++ sql ") WHERE t_name NOT IN (") := rfl
  simp only [List.append_assoc] at hall
  rw [buildRemainingTagsQuery, h₁, h₂]
  simp only [List.append_assoc]
  rw [hall]
  simp only [remainingTokens, carriedNameTokens, carriedIdTokens, notInTokens, List.append_assoc]
  rfl

theorem tokens_remaining {sel : HashTable (Option TagId)} (hsel : sel.keys = n :: ns) :
    tokens (buildRemainingTagsQuery (tagListString sel)
      (buildSelectedFileQuery (tagListString sel) true)) = some (remainingTokens n ns) := by
  simp only [tokens, readChars_remaining hn hns hsel]

theorem prepare_remaining {sel : HashTable (Option TagId)} (hsel : sel.keys = n :: ns) :
    prepare (buildRemainingTagsQuery (tagListString sel)
      (buildSelectedFileQuery (tagListString sel) true)) = some (remainingTagsQuery (n :: ns)) := by
  obtain ⟨k, hk⟩ : ∃ k, (remainingTokens n ns).length = k + 5 := ⟨_, rfl⟩
  rw [prepare, tokens_remaining hn hns hsel]
  show (query? (remainingTokens n ns).length (remainingTokens n ns)).bind _ = _
  rw [hk, query?_remaining]
  rfl

end

variable {db : Database} {ns : List CStr} {k : CStr} {i j : ℤ} {b : Bool} {v : Value}
  {p : Row CStr Value → Prop} {sel : HashTable (Option TagId)}

theorem dbListAllTags_eq (db : Database) : dbListAllTags db = (0, db.tag.map Prod.snd) := by
  have hq : prepare (sql "SELECT t_name FROM tag") =
      some (.select false (sql "t_name") (.table (sql "tag"))) := rfl
  have hrows (l : List (ℤ × CStr)) :
      (rowValues ((Query.select false (sql "t_name") (.table (sql "tag"))).eval
        fun _ => l.map tagRow)).filterMap Value.text? = l.map Prod.snd := by
    induction l with
    | nil => rfl
    | cons e l ih =>
      show _ = e.2 :: l.map Prod.snd
      rw [← ih]
      rfl
  rw [dbListAllTags, dbList, hq]
  exact congrArg (Prod.mk 0) (hrows db.tag)

theorem tagRow_id (e : ℤ × CStr) : (tagRow e).value? (sql "t_id") = some (.integer e.1) := rfl

theorem tagRow_name (e : ℤ × CStr) : (tagRow e).value? (sql "t_name") = some (.text e.2) := rfl

theorem tagFileRow_tag (e : ℤ × ℤ) : (tagFileRow e).value? (sql "t_id") = some (.integer e.1) := rfl

theorem tagFileRow_file (e : ℤ × ℤ) : (tagFileRow e).value? (sql "f_id") = some (.integer e.2) := rfl

theorem rows_tag (db : Database) : db.rows (sql "tag") = db.tag.map tagRow := rfl

theorem rows_tagFile (db : Database) : db.rows (sql "tag_file") = db.tagFile.map tagFileRow := rfl

theorem mem_tagIdQuery : .integer i ∈ rowValues ((tagIdQuery ns).eval db.rows) ↔
    ∃ k, (i, k) ∈ db.tag ∧ k ∈ ns := by
  rw [tagIdQuery, Query.mem_select_whereIn (rows_tag db)]
  simp [tagRow_id, tagRow_name, Query.among_iff]

theorem mem_selectedFileQuery : .integer j ∈ rowValues ((selectedFileQuery ns).eval db.rows) ↔
    ∃ i, (i, j) ∈ db.tagFile ∧ ∃ k, (i, k) ∈ db.tag ∧ k ∈ ns := by
  rw [selectedFileQuery, Query.mem_select_whereInQuery (rows_tagFile db)]
  simp [tagFileRow_tag, tagFileRow_file, Query.among_iff, mem_tagIdQuery]

theorem mem_carriedIdQuery : .integer i ∈ rowValues ((carriedIdQuery ns).eval db.rows) ↔
    ∃ j, (i, j) ∈ db.tagFile ∧ ∃ i', (i', j) ∈ db.tagFile ∧ ∃ k, (i', k) ∈ db.tag ∧ k ∈ ns := by
  rw [carriedIdQuery, Query.mem_select_whereInQuery (rows_tagFile db)]
  simp [tagFileRow_tag, tagFileRow_file, Query.among_iff, mem_selectedFileQuery]

theorem mem_remainingTagsQuery : .text k ∈ rowValues ((remainingTagsQuery ns).eval db.rows) ↔
    k ∉ ns ∧ ∃ i, (i, k) ∈ db.tag ∧ .integer i ∈ rowValues ((carriedIdQuery ns).eval db.rows) := by
  rw [remainingTagsQuery, carriedNameQuery, Query.mem_select_whereIn_select,
    Query.mem_select_whereInQuery (rows_tag db)]
  simp [tagRow_id, tagRow_name, Query.among_iff, and_comm]

theorem mem_dbList [Sqlite] {query : CStr} {q : Query CStr Value} (hq : prepare query = some q) :
    k ∈ (dbList db query).2 ↔ .text k ∈ rowValues (q.eval db.rows) := by
  have h (v : Value) : v.text? = some k ↔ v = .text k := by
    cases v <;> simp [Value.text?]
  simp only [dbList, hq, List.mem_filterMap, h, exists_eq_right]

theorem mem_dbListRemainingTags [Sqlite] (hne : sel.keys ≠ [])
    (hquote : ∀ k ∈ sel.keys, singleQuote ∉ k) :
    (dbListRemainingTags db sel).1 = 0 ∧ ∀ k, k ∈ (dbListRemainingTags db sel).2 ↔
      k ∉ sel.keys ∧ ∃ i, (i, k) ∈ db.tag ∧ ∃ j, (i, j) ∈ db.tagFile ∧
        ∃ i', (i', j) ∈ db.tagFile ∧ ∃ k', (i', k') ∈ db.tag ∧ k' ∈ sel.keys := by
  obtain ⟨n, ns, hsel⟩ := List.exists_cons_of_ne_nil hne
  rw [hsel, List.forall_mem_cons] at hquote
  have hq := prepare_remaining hquote.1 hquote.2 hsel
  refine ⟨?_, fun k => ?_⟩
  · rw [dbListRemainingTags, dbList, hq]
  · rw [dbListRemainingTags, mem_dbList hq, mem_remainingTagsQuery, hsel]
    simp only [mem_carriedIdQuery]

end TagFilesystem.FuseSqlite3
