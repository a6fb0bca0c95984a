import TagFilesystem.Fuse.Tag

namespace TagFilesystem.Fuse

variable [Counting]

/-- `MAX_LENGTH`, the size of the line buffer. -/
def maxLength : ℕ := 1000

/-- The lines of the block of one file: `print_tag` for each tag, then an empty line. -/
def tagDbDumpFile (s : Store) (F : File) : Except Fault CStr := do
  let lines ← forEach F.tags.entries (fun out e => do
    let T ← s.readTag e.2
    .ok (out ++ T.value ++ [newline])) []
  .ok (openBracket :: F.name ++ [closeBracket, newline] ++ lines ++ [newline])

/-- `tag_db_dump`: the text written to `output`. -/
def tagDbDump (s : Store) : Except Fault CStr :=
  forEach (fileList s) (fun out f => do
    let F ← s.readFile f
    if F.tags.size = 0 then .ok out
    else do
      let block ← tagDbDumpFile s F
      .ok (out ++ block)) []

/-- `copy_word_until`. Without the delimiter the copy extends to the end of the string. -/
def copyWordUntil (word : CStr) (stop : CChar) : CStr := word.takeWhile (· ≠ stop)

/-- The parameter `getattr` of the parser. -/
abbrev Getattr := Store → CStr → Except Fault (ℤ × Store)

def parseFile (getattr : Getattr) (s : Store) (word : CStr) :
    Except Fault (Option FileId × Store) := do
  let data := copyWordUntil word closeBracket
  let (res, s) ← getattr s data
  if res ≥ 0 then
    let (f, s) := fileGetOrCreate s data
    .ok (some f, s)
  else .ok (none, s)

def parseTag (env : Env) (s : Store) (f : Option FileId) (word : CStr) : Except Fault Store :=
  let data := copyWordUntil word newline
  if data = [] then .ok s
  else do
    let (t, s) ← tagGetOrCreate s data
    match f with
    | some f => tagFile env s t f
    | none => .ok s

/-- The body of the loop of `parse_tags_db2`; the state is the current file and the store. -/
def parseLine (env : Env) (getattr : Getattr) (r : Option FileId × Store) (word : CStr) :
    Except Fault (Option FileId × Store) :=
  if word.head? = some numberSign then .ok r
  else
    let word := word.dropWhile isspace
    match word with
    | c :: rest =>
      if c = openBracket then parseFile getattr r.2 rest
      else do
        let s ← parseTag env r.2 r.1 word
        .ok (r.1, s)
    | [] => do
      let s ← parseTag env r.2 r.1 []
      .ok (r.1, s)

def parseTagsDb2 (env : Env) (getattr : Getattr) (text : CStr) (s : Store) :
    Except Fault Store := do
  let (_, s) ← forEach (fgets maxLength text) (parseLine env getattr) (none, s)
  .ok s

/-- `parse_tags_db`; `file` is the content of the database, `none` when it cannot be opened. -/
def parseTagsDb (env : Env) (getattr : Getattr) (file : Option CStr) (s : Store) :
    Except Fault Store :=
  match file with
  | none => .ok s
  | some text => parseTagsDb2 env getattr text s

end TagFilesystem.Fuse
