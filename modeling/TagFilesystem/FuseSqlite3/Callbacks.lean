import TagFilesystem.FuseSqlite3.Queries

/-!
# `fuse_sqlite3/`: reading the tag database, and the callbacks as a machine

`open`, `release`, `read`, `write`, `ioctl` and the callbacks that go on to the target directory
leave the store as it is; they are not among the events.
-/

namespace TagFilesystem.FuseSqlite3

/-- `MAX_LENGTH`, the size of the line buffer. -/
def maxLength : ℕ := 1000

/-- `copy_word_until`. Without the delimiter the copy extends to the end of the string. -/
def copyWordUntil (word : CStr) (stop : CChar) : CStr := word.takeWhile (· ≠ stop)

/-- The parameter `getattr` of the parser. -/
abbrev Getattr := Store → CStr → Except Fault (ℤ × Store)

def parseFile (getattr : Getattr) (s : Store) (word : CStr) :
    Except Fault (Option File × Store) := do
  let data := copyWordUntil word closeBracket
  let (res, s) ← getattr s data
  if res ≥ 0 then
    let (F, s) := fileGetOrCreate s data
    .ok (some F, s)
  else .ok (none, s)

def parseTag (s : Store) (f : Option File) (word : CStr) : Except Fault Store :=
  let data := copyWordUntil word newline
  if data = [] then .ok s
  else
    let (t, s) := tagGetOrCreate s data
    match f with
    | some F => tagFile s (some t) F
    | none => .ok s

/-- The body of the loop of `parse_tags_db2`; the state is the current file and the store. -/
def parseLine (getattr : Getattr) (r : Option File × Store) (word : CStr) :
    Except Fault (Option File × Store) :=
  if word.head? = some numberSign then .ok r
  else
    let word := word.dropWhile isspace
    match word with
    | c :: rest =>
      if c = openBracket then parseFile getattr r.2 rest
      else do
        let s ← parseTag r.2 r.1 word
        .ok (r.1, s)
    | [] => do
      let s ← parseTag r.2 r.1 []
      .ok (r.1, s)

def parseTagsDb2 (getattr : Getattr) (text : CStr) (s : Store) : Except Fault Store := do
  let (_, s) ← forEach (fgets maxLength text) (parseLine getattr) (none, s)
  .ok s

/-- `parse_tags_db` of a file that can be opened; otherwise the program ends in `fclose(NULL)`. -/
def parseTagsDb (getattr : Getattr) (text : CStr) (s : Store) : Except Fault Store :=
  parseTagsDb2 getattr text s

/-- `set_root_directory`: the store built from the database. -/
def setRootDirectory (env : Env) (text : CStr) : Except Fault Store :=
  parseTagsDb (fun s p => (fun r => (r.1, r.2.2)) <$> tagGetattr env s p) text .init

/-- `tag_fgetattr` of a descriptor that has been opened by `path`. -/
def tagFgetattr (env : Env) (s : Store) (path : Path) : Except Fault (ℤ × Option Stat × Store) :=
  getattrIntra env s path

inductive Callback
  | getattr (path : CStr)
  /-- The path is that of the descriptor, which may have been opened long before. -/
  | fgetattr (path : Path)
  | readdir (path : Path) (dirents : List Dirent)
  | link (src dst : CStr)
  | unlink (path : CStr)
  | rename (src dst : CStr)
  | mkdir (path : CStr)
  | rmdir (path : CStr)

structure Event where
  env : Env
  callback : Callback

/-- The names that `readdir` lists are dropped, so any `Sqlite` does. -/
def step (s : Store) (e : Event) : Except Fault Store :=
  match e.callback with
  | .getattr p => (fun r => r.2.2) <$> tagGetattr e.env s p
  | .fgetattr p => (fun r => r.2.2) <$> tagFgetattr e.env s p
  | .readdir p dirents => Prod.snd <$> tagReaddir e.env dirents s p
  | .link p q => Prod.snd <$> tagLink e.env s p q
  | .unlink p => Prod.snd <$> tagUnlink e.env s p
  | .rename p q => Prod.snd <$> tagRename e.env s p q
  | .mkdir p => .ok (tagMkdir s p).2
  | .rmdir p => Prod.snd <$> tagRmdir s p

end TagFilesystem.FuseSqlite3
