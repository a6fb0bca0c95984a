import TagFilesystem.FuseLowlevel.Paging
import TagFilesystem.Library.Catalogue

namespace TagFilesystem.FuseLowlevel

/-- What an inode number stands for: the tags of a directory in the order of its path, or the name of
a file and where it is. -/
inductive Node
  | directory (tags : List CStr)
  | file (name realpath : CStr)
  deriving DecidableEq

namespace Node

def tags : Node → List CStr
  | directory tags => tags
  | file .. => []

/-- A directory has the attributes of the target directory. -/
def statPath (env : Env) : Node → CStr
  | directory _ => env.realdirpath
  | file _ realpath => realpath

def isDirectory : Node → Bool
  | directory _ => true
  | file .. => false

def isTagfile : Node → Bool
  | directory _ => false
  | file name _ => name = tagFilename

end Node

structure View where
  catalogue : Catalogue CStr CStr
  node : UInt64 → Option Node

namespace View

def set (V : View) (C : Catalogue CStr CStr) : View := ⟨C, V.node⟩

/-- The number stands for nothing any more. -/
def forgets (V : View) (number : UInt64) : View :=
  ⟨V.catalogue, fun n => if n = number then none else V.node n⟩

/-- The catalogue is `C`, and numbers stand for what they stood for. -/
def Grows (V : View) (C : Catalogue CStr CStr) (V' : View) : Prop :=
  V'.catalogue = C ∧ ∀ n x, V.node n = some x → V'.node n = some x

/-- `number` stands for the file `name`. If it is new, the file is where the system has it now. -/
def Files (V : View) (env : Env) (name : CStr) (number : UInt64) (V' : View) : Prop :=
  ∃ realpath, V'.node number = some (.file name realpath) ∧
    (V.node number = none → realpath = tagRealpath env name)

/-- `number` is new and stands for a directory. -/
def Makes (V : View) (tags : List CStr) (number : UInt64) (V' : View) : Prop :=
  V.node number = none ∧ V'.node number = some (.directory tags)

/-- The name of a directory is taken for that of a file, which may be new. -/
def Touches (V : View) (V' : View) : Node → Prop
  | .directory _ => V.Grows V.catalogue V'
  | .file .. => V' = V

/-- No file has two numbers. -/
def Single (V : View) : Prop :=
  ∀ n n' name p p', V.node n = some (.file name p) → V.node n' = some (.file name p') → n = n'

end View

/-- The attributes that are replied for an inode; the database has no end. -/
def inodeStat (st : Stat) (number : UInt64) (isTagfile : Bool) : Stat :=
  { st with stIno := number.toNat, stSize := if isTagfile = true then LONG_MAX else st.stSize }

/-- The attributes of a tag that is looked up. -/
def tagStat (env : Env) (name : CStr) : Stat :=
  (env.stat env.realdirpath).getD ((env.stat (tagRealpath env name)).getD statZero)

/-- The name is a tag's, and that tag is not selected. -/
def Unselected (C : Catalogue CStr CStr) (tags : List CStr) (name : CStr) : Prop :=
  C.used name ∧ name ∉ tags

open Classical in
/-- The inode number that is shown for an entry of the target directory, if the entry is shown. What
is no file is shown if it has the name of a tag that is not selected. -/
noncomputable def listedIno (env : Env) (C : Catalogue CStr CStr) (tags : List CStr) (d : Dirent) :
    Option UInt64 :=
  if d.isDir = true then none
  else match regular (env.stat (appendDir env.realdirpath d.name)) with
    | some st => if C.Has d.name tags then some (UInt64.ofNat st.stIno) else none
    | none =>
      if Unselected C tags d.name then
        (env.stat env.realdirpath).map fun st => UInt64.ofNat st.stIno
      else none

noncomputable def listedEntries (env : Env) (C : Catalogue CStr CStr) (tags : List CStr) :
    List (CStr × UInt64) :=
  env.dirents.filterMap fun d => (listedIno env C tags d).map (d.name, ·)

def openReply (env : Env) (path : CStr) (flags : ℤ) : Reply :=
  match env.openFile path flags with
  | .error e => .err e
  | .ok fd => .opened fd

/-- What `ioctl` replies before it goes on. -/
def ioctlChecks (x : Node) (compat : Bool) : List Reply :=
  (if x.isTagfile = true ∨ x.isDirectory = true then [.err EINVAL] else []) ++
    if compat = true then [.err ENOSYS] else []

/-- What a request may reply, and what can be seen afterwards. -/
inductive ViewStep (V : View) : Event → List Reply → View → Prop
  -- `lookup`: a file has all tags of the directory, a tag is none of them
  | lookupUnknown {env parent name} : V.node parent = none →
      ViewStep V ⟨env, .lookup parent name⟩ [.err EINVAL] V
  | lookupFile {env parent name tags st number g V'} : V.node parent = some (.directory tags) →
      regular (env.stat (tagRealpath env name)) = some st → V.catalogue.Has name tags →
      V.Grows V.catalogue V' → V.Files env name number V' →
      ViewStep V ⟨env, .lookup parent name⟩
        [.entry number g (inodeStat st number (tags ≠ [] && name = tagFilename))] V'
  | lookupRefused {env parent name tags st V'} : V.node parent = some (.directory tags) →
      regular (env.stat (tagRealpath env name)) = some st → ¬ V.catalogue.Has name tags →
      V.Grows V.catalogue V' → ViewStep V ⟨env, .lookup parent name⟩ [.err ENOENT] V'
  | lookupTag {env parent name tags number g V'} : V.node parent = some (.directory tags) →
      regular (env.stat (tagRealpath env name)) = none → V.catalogue.used name → name ∉ tags →
      V.Grows V.catalogue V' → V.Makes (tags ++ [name]) number V' →
      ViewStep V ⟨env, .lookup parent name⟩
        [.entry number g (inodeStat (tagStat env name) number false)] V'
  | lookupNone {env parent name x} : V.node parent = some x →
      regular (env.stat (tagRealpath env name)) = none →
      ¬ V.catalogue.used name ∨ name ∈ x.tags → ViewStep V ⟨env, .lookup parent name⟩ [.err ENOENT] V
  -- `forget`: lookup counts cannot be seen
  | forget {env number nlookup} : ViewStep V ⟨env, .forget number nlookup⟩ [.noReply] V
  | forgetLast {env number nlookup} : number ≠ 1 →
      ViewStep V ⟨env, .forget number nlookup⟩ [.noReply] (V.forgets number)
  | getattr {env number x st} : V.node number = some x → env.stat (x.statPath env) = some st →
      ViewStep V ⟨env, .getattr number⟩ [.attr (inodeStat st number x.isTagfile)] V
  | getattrFailed {env number x} : V.node number = some x → env.stat (x.statPath env) = none →
      ViewStep V ⟨env, .getattr number⟩ [.err env.errno] V
  | getattrUnknown {env number} : V.node number = none →
      ViewStep V ⟨env, .getattr number⟩ [.err ENOENT] V
  | opendir {env number tags fh} : V.node number = some (.directory tags) →
      ViewStep V ⟨env, .opendir number⟩ [.opened fh] V
  | opendirFile {env number name p} : V.node number = some (.file name p) →
      ViewStep V ⟨env, .opendir number⟩ [.err ENOTDIR] V
  | opendirUnknown {env number} : V.node number = none →
      ViewStep V ⟨env, .opendir number⟩ [.err ENOENT] V
  -- `open`: which path is opened is left open
  | openFile {env number flags x path V'} : V.node number = some x → V.Touches V' x →
      ViewStep V ⟨env, .openFile number flags⟩ [openReply env path flags] V'
  | openUnknown {env number flags} : V.node number = none →
      ViewStep V ⟨env, .openFile number flags⟩ [.err env.errno] V
  -- `read`, `write`: the text of the database is left open
  | read {env number size off fh x buffer} : V.node number = some x → x.isTagfile = false →
      fileRead env fh size off = .ok (.ok buffer) →
      ViewStep V ⟨env, .read number size off fh⟩ [replyBufLimited buffer off size] V
  | readFailed {env number size off fh x e} : V.node number = some x → x.isTagfile = false →
      fileRead env fh size off = .ok (.error e) →
      ViewStep V ⟨env, .read number size off fh⟩ [.err e] V
  | readDatabase {env number size off fh x buffer} {text : CStr} : V.node number = some x →
      x.isTagfile = true → 0 ≤ off →
      finishRead env (((text.drop off.toNat).take size).map Subtype.val) size = .ok (.ok buffer) →
      ViewStep V ⟨env, .read number size off fh⟩ [replyBufLimited buffer off size] V
  | readDatabaseFailed {env number size off fh x e} {text : CStr} : V.node number = some x →
      x.isTagfile = true → 0 ≤ off →
      finishRead env (((text.drop off.toNat).take size).map Subtype.val) size = .ok (.error e) →
      ViewStep V ⟨env, .read number size off fh⟩ [.err e] V
  | readBefore {env number size off fh x} : V.node number = some x → x.isTagfile = true → off < 0 →
      ViewStep V ⟨env, .read number size off fh⟩ [.err EINVAL] V
  | readUnknown {env number size off fh} : V.node number = none →
      ViewStep V ⟨env, .read number size off fh⟩ [.err ENOENT] V
  | write {env number buf off fh x count} : V.node number = some x → x.isTagfile = false →
      env.write fh buf off = .ok count → ViewStep V ⟨env, .write number buf off fh⟩ [.write count] V
  | writeFailed {env number buf off fh x e} : V.node number = some x → x.isTagfile = false →
      env.write fh buf off = .error e → ViewStep V ⟨env, .write number buf off fh⟩ [.err e] V
  | writeRefused {env number buf off fh x} : V.node number = some x → x.isTagfile = true →
      ViewStep V ⟨env, .write number buf off fh⟩ [.err EPERM] V
  | writeUnknown {env number buf off fh} : V.node number = none →
      ViewStep V ⟨env, .write number buf off fh⟩ [.err ENOENT] V
  | release {env fh} : ViewStep V ⟨env, .release fh⟩ [.err ((env.close fh).getD 0)] V
  | releasedir {env} : ViewStep V ⟨env, .releasedir⟩ [.err 0] V
  -- `readdir`: the tags to go on with, each once, and the entries of the target directory; below the
  -- root every tag gets a new number
  | readdir {env number size off fh ks V'} {tags : List (CStr × UInt64)} :
      V.node number = some (.directory ks) → V.Grows V.catalogue V' → (tags.map Prod.fst).Nodup →
      (∀ k, k ∈ tags.map Prod.fst ↔ V.catalogue.Shows ks k) →
      (∀ e ∈ tags, if ks = [] then e.2 = 2 else V.Makes (ks ++ [e.1]) e.2 V') →
      ViewStep V ⟨env, .readdir number size off fh⟩ [replyBufLimited (dirbuf env ([(dot, number),
        (dotdot, 1)] ++ tags ++ listedEntries env V.catalogue ks)) off size] V'
  | readdirFile {env number size off fh name p} : V.node number = some (.file name p) →
      ViewStep V ⟨env, .readdir number size off fh⟩ [.err ENOTDIR] V
  | readdirUnknown {env number size off fh} : V.node number = none →
      ViewStep V ⟨env, .readdir number size off fh⟩ [.err ENOENT] V
  -- `link`: the file gets the last tag of the directory only
  | link {env number newparent newname p tags k g st} : V.node number = some (.file newname p) →
      V.node newparent = some (.directory (tags ++ [k])) → V.catalogue.used k →
      ViewStep V ⟨env, .link number newparent newname⟩ [.entry number g st]
        (V.set (V.catalogue.tag newname [k]))
  | linkNotDirectory {env number newparent newname p name q} :
      V.node number = some (.file newname p) → V.node newparent = some (.file name q) →
      ViewStep V ⟨env, .link number newparent newname⟩ [.err ENOTDIR] V
  | linkRefused {env number newparent newname x} : V.node number = some x →
      (∀ p, x ≠ .file newname p) → ViewStep V ⟨env, .link number newparent newname⟩ [.err EPERM] V
  | unlink {env parent name k} : V.node parent = some (.directory [k]) →
      ViewStep V ⟨env, .unlink parent name⟩ [.err 0] (V.set (V.catalogue.strip name [k]))
  | unlinkNone {env parent name} : (∀ k, ¬ V.catalogue.carries name k) →
      ViewStep V ⟨env, .unlink parent name⟩ [.err ENOENT] V
  | unlinkRefused {env parent name} : (∀ k, V.node parent ≠ some (.directory [k])) →
      ViewStep V ⟨env, .unlink parent name⟩ [.err EPERM] V
  -- `rename`: the new name is not looked at
  | rename {env parent name newparent newname x y} : V.node parent = some x →
      V.node newparent = some y → parent ≠ newparent → parent ≠ 1 → newparent ≠ 1 →
      x.tags.length ≤ 1 → y.tags.length ≤ 1 → (∀ k ∈ y.tags, V.catalogue.used k) →
      ViewStep V ⟨env, .rename parent name newparent newname⟩ [.err 0]
        (V.set ((V.catalogue.strip name x.tags).tag name y.tags))
  | renameUnknown {env parent name newparent newname} : V.node parent = none ∨
      V.node newparent = none ∨ (∀ k, ¬ V.catalogue.carries name k) →
      ViewStep V ⟨env, .rename parent name newparent newname⟩ [.err ENOENT] V
  | renameRefused {env parent name newparent newname} : parent = newparent ∨ parent = 1 ∨
      newparent = 1 ∨ (∃ x, V.node parent = some x ∧ 1 < x.tags.length) ∨
      (∃ y, V.node newparent = some y ∧ 1 < y.tags.length) →
      ViewStep V ⟨env, .rename parent name newparent newname⟩ [.err EPERM] V
  | mkdir {env name number g V'} : ¬ V.catalogue.used name → V.Grows (V.catalogue.use name) V' →
      V.Makes [name] number V' → ViewStep V ⟨env, .mkdir 1 name⟩
        [.entry number g (inodeStat ((env.stat env.realdirpath).getD statZero) number false)] V'
  | mkdirExists {env name} : V.catalogue.used name →
      ViewStep V ⟨env, .mkdir 1 name⟩ [.err EEXIST] V
  | mkdirRefused {env parent name} : parent ≠ 1 → ViewStep V ⟨env, .mkdir parent name⟩ [.err EPERM] V
  | rmdir {env name} : V.catalogue.used name →
      ViewStep V ⟨env, .rmdir 1 name⟩ [.err 0] (V.set (V.catalogue.drop name))
  | rmdirRefused {env parent name} : parent ≠ 1 → ViewStep V ⟨env, .rmdir parent name⟩ [.err EPERM] V
  | mknod {env name mode rdev number g V'} {st : Stat} : ¬ V.catalogue.used name →
      env.mknod (tagRealpath env name) mode rdev = none → V.Grows V.catalogue V' →
      V.Files env name number V' → ViewStep V ⟨env, .mknod 1 name mode rdev⟩
        [.entry number g { st with stIno := number.toNat }] V'
  | mknodFailed {env name mode rdev e} : ¬ V.catalogue.used name →
      env.mknod (tagRealpath env name) mode rdev = some e →
      ViewStep V ⟨env, .mknod 1 name mode rdev⟩ [.err e] V
  | mknodExists {env name mode rdev} : V.catalogue.used name →
      ViewStep V ⟨env, .mknod 1 name mode rdev⟩ [.err EEXIST] V
  | mknodRefused {env parent name mode rdev} : parent ≠ 1 →
      ViewStep V ⟨env, .mknod parent name mode rdev⟩ [.err EPERM] V
  -- `setattr`: of the attributes only the file type is fixed
  | setattr {env number mode name p} {st : Stat} : V.node number = some (.file name p) →
      (∀ isDir ∈ mode, st.isDir = isDir) → ViewStep V ⟨env, .setattr number mode⟩ [.attr st] V
  | setattrRefused {env number mode} : (∀ name p, V.node number ≠ some (.file name p)) →
      ViewStep V ⟨env, .setattr number mode⟩ [.err EPERM] V
  -- `ioctl`: the text that is copied is left open
  | ioctl {env number compat x size writes V'} : V.node number = some x → V.Touches V' x →
      ViewStep V ⟨env, .ioctl number true compat⟩
        (ioctlChecks x compat ++ [.ioctl size writes]) V'
  | ioctlInvalid {env number compat x} : V.node number = some x →
      ViewStep V ⟨env, .ioctl number false compat⟩ (ioctlChecks x compat ++ [.err EINVAL]) V
  | ioctlUnknown {env number readTags compat} : V.node number = none →
      ViewStep V ⟨env, .ioctl number readTags compat⟩ [.err ENOENT] V

end TagFilesystem.FuseLowlevel
