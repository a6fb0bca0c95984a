import TagFilesystem.FuseSqlite3.TagOper
import TagFilesystem.Library.Catalogue

namespace TagFilesystem.FuseSqlite3

variable {env : Env} {C : Catalogue CStr CStr}

/-- What a path asks for: an entry of the target directory, a name, and tags. -/
structure PathQuery where
  virtpath : CStr
  realpath : CStr
  filename : CStr
  tags : List CStr
  deriving DecidableEq

structure View where
  catalogue : Catalogue CStr CStr
  opened : Pointer → Option PathQuery

namespace PathQuery

def of (env : Env) (userPath : CStr) (isTag : Bool) : PathQuery where
  virtpath := userPath
  realpath := pathRealpath env userPath
  filename := basename userPath
  tags := components (if isTag then userPath else dirname userPath)

/-- The query of an entry of the target directory, when a directory is read. -/
def entry (q : PathQuery) (env : Env) (name : CStr) : PathQuery where
  virtpath := appendDir q.virtpath name
  realpath := appendDir env.realdirpath name
  filename := name
  tags := q.tags

/-- A tag that is named twice counts twice, and no file has so many. -/
def Matches (q : PathQuery) (C : Catalogue CStr CStr) : Prop := q.tags.Nodup ∧ C.Has q.filename q.tags

/-- What is no file is the root, or the directory of a tag that is not named before. -/
def Directory (q : PathQuery) (C : Catalogue CStr CStr) : Prop :=
  q.virtpath = [slash] ∨ C.used q.filename ∧ q.filename ∉ q.tags

def fileStat (q : PathQuery) (st : Stat) : Stat :=
  if q.tags = [] ∧ q.filename = tagFilename then { st with stSize := LONG_MAX } else st

/-- What `getattr_intra` replies and leaves in the buffer. -/
inductive Gives (q : PathQuery) (env : Env) (C : Catalogue CStr CStr) : ℤ → Option Stat → Prop
  | found {st} : env.stat q.realpath = some st → st.isDir = false → q.Matches C →
      Gives q env C 0 (some (q.fileStat st))
  | missing {st} : env.stat q.realpath = some st → st.isDir = false → ¬ q.Matches C →
      Gives q env C (-ENOENT) (some st)
  | directory : (env.stat q.realpath).all Stat.isDir = true → q.Directory C →
      Gives q env C (statRoot env).1 (statRoot env).2
  | nothing : (env.stat q.realpath).all Stat.isDir = true → ¬ q.Directory C →
      Gives q env C (-ENOENT) (env.stat q.realpath)

theorem Gives.unique {q : PathQuery} {res res' : ℤ} {st st' : Option Stat} (h : q.Gives env C res st)
    (h' : q.Gives env C res' st') : res = res' := by
  -- a file and a directory exclude each other
  have hall {st : Stat} (hst : env.stat q.realpath = some st) (hd : st.isDir = false) :
      (env.stat q.realpath).all Stat.isDir ≠ true := by
    rw [hst, Option.all_some, hd]
    decide
  cases h with
  | found hst hd hm =>
    cases h' with
    | found => rfl
    | missing _ _ hno => exact absurd hm hno
    | directory hdir | nothing hdir => exact absurd hdir (hall hst hd)
  | missing hst hd hno =>
    cases h' with
    | found _ _ hm => exact absurd hm hno
    | missing => rfl
    | directory hdir | nothing hdir => exact absurd hdir (hall hst hd)
  | directory hdir hd =>
    cases h' with
    | found hst hf | missing hst hf => exact absurd hdir (hall hst hf)
    | directory => rfl
    | nothing _ hno => exact absurd hd hno
  | nothing hdir hno =>
    cases h' with
    | found hst hf | missing hst hf => exact absurd hdir (hall hst hf)
    | directory _ hd => exact absurd hd hno
    | nothing => rfl

/-- Entries of the target directory that are listed. -/
def Lists (q : PathQuery) (env : Env) (C : Catalogue CStr CStr) (d : Dirent) : Prop :=
  d.isDir = false ∧ ∃ res st, 0 ≤ res ∧ (q.entry env d.name).Gives env C res st

/-- The tags that a directory shows: in the root those in use, elsewhere the other tags of the files
that have one of its tags. -/
def Shows (q : PathQuery) (C : Catalogue CStr CStr) (k : CStr) : Prop :=
  if q.tags = [] then C.used k else k ∉ q.tags ∧ ∃ n, (∃ k' ∈ q.tags, C.carries n k') ∧ C.carries n k

end PathQuery

namespace View

def set (V : View) (C : Catalogue CStr CStr) : View := ⟨C, V.opened⟩

def opens (V : View) (a : Pointer) (q : PathQuery) : View :=
  ⟨V.catalogue, fun b => if b = a then some q else V.opened b⟩

def closes (V : View) (a : Pointer) : View :=
  ⟨V.catalogue, fun b => if b = a then none else V.opened b⟩

end View

/-- Callbacks that nothing can be seen of afterwards. -/
def Operation.quiet : Operation → Bool
  | .read .. | .write .. | .mknod .. | .truncate .. | .chmod .. | .chown .. | .utime _ | .ioctl .. => true
  | _ => false

/-- What a callback may reply, and what can be seen afterwards. -/
inductive ViewStep (V : View) : Request → Reply → View → Prop
  | quiet {e o} : e.op.quiet = true → ViewStep V e o V
  | getattr {sys p res st} : (PathQuery.of sys.toEnv p false).Gives sys.toEnv V.catalogue res st →
      ViewStep V ⟨sys, .getattr p⟩ (.attr res st) V
  | fgetattr {sys fh q res st} : V.opened fh = some q → q.Gives sys.toEnv V.catalogue res st →
      ViewStep V ⟨sys, .fgetattr fh⟩ (.attr res st) V
  -- an open that fails replies with `errno` itself
  | openFile {sys p flags a fd} : sys.openFile (pathRealpath sys.toEnv p) flags = .ok fd →
      ViewStep V ⟨sys, .openFile p flags (some a)⟩ (.status 0)
        (V.opens a.pointer (.of sys.toEnv p false))
  | openRefused {sys p flags fd errno} :
      sys.openFile (pathRealpath sys.toEnv p) flags = .error errno →
      ViewStep V ⟨sys, .openFile p flags fd⟩ (.status errno.code) V
  | openNoMemory {sys p flags fd} : sys.openFile (pathRealpath sys.toEnv p) flags = .ok fd →
      ViewStep V ⟨sys, .openFile p flags none⟩ (.status ENOMEM) V
  | opendir {sys p flags a} : ViewStep V ⟨sys, .opendir p flags (some a)⟩ (.status 0)
      (V.opens a.pointer (.of sys.toEnv p true))
  | opendirNoMemory {sys p flags} : ViewStep V ⟨sys, .opendir p flags none⟩ (.status ENOMEM) V
  | release {sys fh res} : ViewStep V ⟨sys, .release fh⟩ (.status res) (V.closes fh)
  -- names with quotes spoil the SQL statement that asks for the tags
  | readdir {sys fh q tags shown} : V.opened fh = some q →
      ((∀ k ∈ q.tags, singleQuote ∉ k) → tags.Nodup ∧ ∀ k, k ∈ tags ↔ q.Shows V.catalogue k) →
      (∀ d, shown d = true ↔ q.Lists sys.toEnv V.catalogue d) →
      ViewStep V ⟨sys, .readdir fh⟩
        (.names ([dot, dotdot] ++ tags ++ (sys.dirents.filter shown).map Dirent.name)) V
  | link {sys p q res st} : (PathQuery.of sys.toEnv p false).Gives sys.toEnv V.catalogue res st →
      0 ≤ res → ViewStep V ⟨sys, .link p q⟩ (.status res)
        (V.set (V.catalogue.tag (basename p) (components (dirname q))))
  | linkRefused {sys p q res st} : (PathQuery.of sys.toEnv p false).Gives sys.toEnv V.catalogue res st →
      res < 0 → ViewStep V ⟨sys, .link p q⟩ (.status res) V
  | unlink {sys p} : 1 < getCharacterCount p slash → ViewStep V ⟨sys, .unlink p⟩ (.status 0)
      (V.set (V.catalogue.strip (basename p) (components (dirname p))))
  | unlinkNone {sys p} : 1 < getCharacterCount p slash →
      (∀ k, ¬ V.catalogue.carries (basename p) k) → ViewStep V ⟨sys, .unlink p⟩ (.status (-ENOENT)) V
  | unlinkRefused {sys p} : getCharacterCount p slash ≤ 1 →
      ViewStep V ⟨sys, .unlink p⟩ (.status (-EPERM)) V
  -- the source is looked for when its tag is gone already
  | rename {sys p q a b res st} : components (dirname p) = [a] → components (dirname q) = [b] →
      (PathQuery.of sys.toEnv p false).Gives sys.toEnv (V.catalogue.strip (basename p) [a]) res st →
      0 ≤ res → ViewStep V ⟨sys, .rename p q⟩ (.status 0)
        (V.set ((V.catalogue.strip (basename p) [a]).tag (basename p) [b]))
  | renameLost {sys p q a b res st} : components (dirname p) = [a] → components (dirname q) = [b] →
      (PathQuery.of sys.toEnv p false).Gives sys.toEnv (V.catalogue.strip (basename p) [a]) res st →
      res < 0 → ViewStep V ⟨sys, .rename p q⟩ (.status 0)
        (V.set (V.catalogue.strip (basename p) [a]))
  | renameRefused {sys p q} : (components (dirname p)).length ≠ 1 ∨ (components (dirname q)).length ≠ 1 →
      ViewStep V ⟨sys, .rename p q⟩ (.status (-EPERM)) V
  | mkdir {sys p} : getCharacterCount p slash ≤ 1 → ¬ V.catalogue.used (basename p) →
      ViewStep V ⟨sys, .mkdir p⟩ (.status 0) (V.set (V.catalogue.use (basename p)))
  | mkdirExists {sys p} : getCharacterCount p slash ≤ 1 → V.catalogue.used (basename p) →
      ViewStep V ⟨sys, .mkdir p⟩ (.status (-EEXIST)) V
  | mkdirRefused {sys p} : 1 < getCharacterCount p slash →
      ViewStep V ⟨sys, .mkdir p⟩ (.status (-EPERM)) V
  | rmdirRefused {sys p} : 1 < getCharacterCount p slash →
      ViewStep V ⟨sys, .rmdir p⟩ (.status (-EPERM)) V

end TagFilesystem.FuseSqlite3
