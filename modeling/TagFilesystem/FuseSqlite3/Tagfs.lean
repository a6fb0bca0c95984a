import TagFilesystem.FuseSqlite3.Store

namespace TagFilesystem.FuseSqlite3

def fileMatchesTags (s : Store) (F : File) (selectedTags : HashTable (Option TagId)) :
    Except Fault Bool := dbFileMatchTags s F.id selectedTags

/-- `stat(realdirpath, stbuf)`. -/
def statRoot (env : Env) : ℤ × Option Stat :=
  match env.stat env.realdirpath with
  | some st => (0, some st)
  | none => (-1, none)

/-- What `getattr_intra` does when the path is no regular file. -/
def getattrDir (env : Env) (s : Store) (p : Path) (st : Option Stat) : ℤ × Option Stat :=
  if p.virtpath = [slash] ∨
      tagExist s p.filename = true ∧ p.selectedTags.contains p.filename = false then statRoot env
  else (-ENOENT, st)

/-- `getattr_intra`: the result, the buffer if it has been filled, and the store. -/
def getattrIntra (env : Env) (s : Store) (p : Path) : Except Fault (ℤ × Option Stat × Store) :=
  match env.stat p.realpath with
  | none => .ok ((getattrDir env s p none).1, (getattrDir env s p none).2, s)
  | some st =>
    if st.isDir = true then
      .ok ((getattrDir env s p (some st)).1, (getattrDir env s p (some st)).2, s)
    else do
      let (F, s) := fileGetOrCreate s p.filename
      if p.selectedTags.size > 0 then
        let isMatch ← fileMatchesTags s F p.selectedTags
        .ok (if isMatch = true then 0 else -ENOENT, some st, s)
      else if p.filename = tagFilename then .ok (0, some { st with stSize := LONG_MAX }, s)
      else .ok (0, some st, s)

def tagGetattr (env : Env) (s : Store) (userPath : CStr) : Except Fault (ℤ × Option Stat × Store) :=
  getattrIntra env s (pathCreate env s userPath false)

def pathUnlink (s : Store) (fd : Path) : Except Fault (ℤ × Store) :=
  match fileGet s fd.filename with
  | none => .ok (-ENOENT, s)
  | some F => do
    let s ← forEach fd.selectedTags.entries (fun s e => untagFile s e.2 F) s
    .ok (0, s)

def tagUnlink (env : Env) (s : Store) (userPath : CStr) : Except Fault (ℤ × Store) :=
  if getCharacterCount userPath slash ≤ 1 then .ok (-EPERM, s)
  else pathUnlink s (pathCreate env s userPath false)

/-- `tag_rmdir`: the test `NULL == t` never holds, as `tag_get` gives `INVALID_TAG`. -/
def tagRmdir (s : Store) (userPath : CStr) : Except Fault (ℤ × Store) :=
  if getCharacterCount userPath slash > 1 then .ok (-EPERM, s)
  else do
    let s ← tagRemove s (tagGet s (basename userPath))
    .ok (0, s)

def tagMkdir (s : Store) (userPath : CStr) : ℤ × Store :=
  if getCharacterCount userPath slash > 1 then (-EPERM, s)
  else
    let filename := basename userPath
    match tagGet s filename with
    | some _ => (-EEXIST, s)
    | none => (0, (tagGetOrCreate s filename).2)

def pathLink (env : Env) (s : Store) (ffrom fto : Path) : Except Fault (ℤ × Store) := do
  let (res, _, s) ← getattrIntra env s ffrom
  if res < 0 then .ok (res, s)
  else
    let (F, s) := fileGetOrCreate s ffrom.filename
    let s ← forEach fto.selectedTags.entries (fun s e => tagFile s e.2 F) s
    .ok (res, s)

def tagLink (env : Env) (s : Store) (src dst : CStr) : Except Fault (ℤ × Store) :=
  pathLink env s (pathCreate env s src false) (pathCreate env s dst false)

/-- `tag_rename`; the results of `path_unlink` and `path_link` are dropped. -/
def tagRename (env : Env) (s : Store) (src dst : CStr) : Except Fault (ℤ × Store) :=
  let ffrom := pathCreate env s src false
  let fto := pathCreate env s dst false
  if ffrom.selectedTags.size ≠ 1 ∨ fto.selectedTags.size ≠ 1 then .ok (-EPERM, s)
  else do
    let (_, s) ← pathUnlink s ffrom
    let (_, s) ← pathLink env s ffrom fto
    .ok (0, s)

end TagFilesystem.FuseSqlite3
