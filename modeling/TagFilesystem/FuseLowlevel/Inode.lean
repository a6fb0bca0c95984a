import TagFilesystem.FuseLowlevel.Tag

namespace TagFilesystem.FuseLowlevel

/-- `struct stat` with every byte 0. -/
def statZero : Stat := ⟨0, false, 0⟩

/-- `asprintf("%s/%s", realdirpath, basename(user_path))`. -/
def tagRealpath (env : Env) (userPath : CStr) : CStr :=
  appendDir env.realdirpath (basename userPath)

/-- A 64-bit counter returned as an `int`, and the `int` stored in a 64-bit field. -/
def toNumber (n : UInt64) : UInt64 := n.toUInt32.toInt32.toInt64.toUInt64

def nextInodeNumber (s : Store) : UInt64 × Store :=
  (toNumber s.nextIno, { s with nextIno := s.nextIno + 1 })

/-- What `inode_new` stores in the new object. -/
def blankInode (number : UInt64) (directory : Bool) : Inode where
  number := number
  isTagfile := false
  isDirectory := directory
  st := statZero
  nlookup := 0
  selectedTags := if directory = true then some .empty else none
  name := none
  realpath := none
  tag := []
  ntag := 0

def inodeNew (s : Store) (directory : Bool) : InodeId × Store :=
  let (number, s) := nextInodeNumber s
  (s.inodeHeap.next, { s with
    inodeHeap := s.inodeHeap.alloc (blankInode number directory)
    itable := s.itable.add number s.inodeHeap.next })

/-- `inode_init`: the root directory. -/
def inodeInit (s : Store) : Except Fault Store := do
  let (ino, s) := inodeNew s true
  let I ← s.readInode (some ino)
  .ok (s.writeInode ino { I with nlookup := 1 })

def inodeGet (s : Store) (number : UInt64) : Option InodeId := s.itable.get? number

def inodeDeleteIfNoref (s : Store) (ino : InodeId) : Except Fault Store := do
  let I ← s.readInode (some ino)
  if I.number ≠ 1 ∧ I.nlookup = 0 then
    .ok { s with itable := s.itable.eraseValue ino, inodeHeap := s.inodeHeap.free ino }
  else .ok s

/-- `ino->tag[i]`. -/
def Inode.tagAt (I : Inode) (i : ℕ) : Except Fault CStr :=
  match I.tag[i]? with
  | some tag => .ok tag
  | none => .error .outOfBounds

def createDirectoryInode (held : List Lock) (s : Store) (parent : Option InodeId) (name : CStr) :
    Except Fault (InodeId × Store) := do
  let (ino, s) := inodeNew s true
  let P ← s.readInode parent
  let (tags, selectedTags) ← forEach (List.range P.ntag)
    (fun (r : List CStr × HashTable (Option TagId)) i => do
      let tag ← P.tagAt i
      let _ ← writeLock held (.inodeTags ino)
      .ok (r.1 ++ [tag], r.2.add tag (tagGet s tag))) ([], .empty)
  let _ ← writeLock held (.inodeTags ino)
  let I ← s.readInode (some ino)
  .ok (ino, s.writeInode ino { I with
    ntag := P.ntag + 1
    tag := tags ++ [name]
    name := some name
    selectedTags := some (selectedTags.add name (tagGet s name)) })

/-- `get_or_create_inode`; `none` is the null pointer. -/
def getOrCreateInode (s : Store) (parent : UInt64) (name : CStr) (directory : Bool) :
    Except Fault (Option InodeId × Store) :=
  match inodeGet s parent with
  | none => .ok (none, s)
  | some parentInode => do
    let P ← s.readInode (some parentInode)
    if P.isDirectory = false then .ok (none, s)
    else do
      let (ino, s) := inodeNew s directory
      let I ← s.readInode (some ino)
      .ok (some ino, s.writeInode ino { I with name := some name })

def getOrCreateFileInode (env : Env) (s : Store) (parent : UInt64) (name : CStr) :
    Except Fault (InodeId × Store) := do
  let (ino, s) ← getOrCreateInode s parent name false
  let I ← s.readInode ino
  let ino ← deref ino
  .ok (ino, s.writeInode ino { I with realpath := some (tagRealpath env name) })

def fileNew (env : Env) (s : Store) (name : CStr) : Except Fault (File × Store) := do
  let realpath := tagRealpath env (appendDir env.realdirpath name)
  let (ino, s) ← getOrCreateFileInode env s 1 name
  let F : File := { name := name, realpath := realpath, tags := .empty, ino := ino }
  if name = tagFilename then
    let I ← s.readInode (some ino)
    .ok (F, s.writeInode ino { I with isTagfile := true })
  else .ok (F, s)

def fileGet (s : Store) (value : CStr) : Option FileId := s.files.get? value

def fileGetOrCreate (env : Env) (s : Store) (value : CStr) : Except Fault (FileId × Store) :=
  match s.files.get? value with
  | some f => .ok (f, s)
  | none => do
    let (F, s) ← fileNew env s value
    .ok (s.fileHeap.next, { s with
      fileHeap := s.fileHeap.alloc F
      files := s.files.add value s.fileHeap.next })

/-- `file_get_tags_string`: the string and its length, which a file without tags leaves
unassigned. -/
def fileGetTagsString (env : Env) (s : Store) (f : FileId) : Except Fault (CStr × ℤ) := do
  let F ← s.readFile f
  let (str, size, _) ← forEach F.tags.entries
    (fun (r : CStr × ℤ × ℕ) e => do
      let T ← s.readTag (some e.2)
      let str := r.1 ++ (if r.2.2 = 0 then [] else cstr [32]) ++ T.value
      .ok (str, (str.length : ℤ), r.2.2 + 1))
    ([], env.uninitialized, 0)
  .ok (str, size)

/-- `MAX_LENGTH`, the size of the line buffer. -/
def maxLength : ℕ := 1000

/-- `copy`. Without the delimiter the copy extends to the end of the string. -/
def copy (word : CStr) (stop : CChar) : CStr := word.takeWhile (· ≠ stop)

/-- The body of the loop of `parse_tags`; the state is the current file and the store. -/
def parseLine (env : Env) (r : Option FileId × Store) (word : CStr) :
    Except Fault (Option FileId × Store) :=
  if word.head? = some numberSign then .ok r
  else
    let word := word.dropWhile isspace
    if word.head? = some openBracket then do
      let (f, s) ← fileGetOrCreate env r.2 (copy word.tail closeBracket)
      .ok (some f, s)
    else
      let data := copy word newline
      if data = [] then .ok r
      else
        let (t, s) := tagGetOrCreate r.2 data
        match r.1 with
        | none => .ok (none, s)
        | some f => do
          let s ← tagFile s (some t) f
          .ok (some f, s)

/-- `parse_tags`; `file` is the content of the database. When it cannot be opened, the null
pointer is handed to `fclose`. -/
def parseTags (env : Env) (file : Option CStr) (s : Store) : Except Fault Store :=
  match file with
  | none => .error .nullPointer
  | some text => do
    let (_, s) ← forEach (fgets maxLength text) (parseLine env) (none, s)
    .ok s

def realdirAddFiles (env : Env) (s : Store) : Except Fault Store :=
  forEach env.dirents (fun s dirent =>
    if dirent.isDir = true then .ok s else Prod.snd <$> fileGetOrCreate env s dirent.name) s

/-- `tag_init`, for a target directory that can be opened. -/
def tagInit (env : Env) (file : Option CStr) : Except Fault Store := do
  let s ← inodeInit .init
  let s ← realdirAddFiles env s
  parseTags env file s

end TagFilesystem.FuseLowlevel
