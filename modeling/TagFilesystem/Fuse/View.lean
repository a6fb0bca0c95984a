import TagFilesystem.Fuse.TagOper
import TagFilesystem.Fuse.Labels
import TagFilesystem.Tagioc
import TagFilesystem.Library.Catalogue

namespace TagFilesystem.Fuse

/-- What a path asks for: an entry of the target directory, the name of a file, and tags. -/
structure Query where
  realpath : CStr
  filename : CStr
  tags : List CStr
  deriving DecidableEq

structure View where
  catalogue : Catalogue CStr CStr
  opened : Addr → Option Query

namespace Query

def of (env : Env) (userPath : CStr) (isTag : Bool) : Query :=
  ⟨pathRealpath env userPath, basename userPath, components (openDir userPath isTag)⟩

/-- A regular file is found by its tags; everything else is taken for the target directory. -/
def Found (q : Query) (env : Env) (C : Catalogue CStr CStr) : Prop :=
  if env.regular q.realpath = true then C.Has q.filename q.tags
  else (env.stat env.realdirpath).isSome = true

def refusal (q : Query) (env : Env) : ℤ := if env.regular q.realpath = true then -ENOENT else -1

def Gives (q : Query) (env : Env) (C : Catalogue CStr CStr) (res : ℤ) : Prop :=
  q.Found env C ∧ res = 0 ∨ ¬ q.Found env C ∧ res = q.refusal env

/-- What is put into `stbuf`, also when the file is refused. -/
def stat (q : Query) (env : Env) : Option Stat :=
  if env.regular q.realpath = true then
    (env.stat q.realpath).map fun st =>
      if q.tags = [] ∧ q.filename = tagFilename then { st with stSize := LONG_MAX } else st
  else env.stat env.realdirpath

/-- The same tags and another file. -/
def entry (q : Query) (env : Env) (name : CStr) : Query :=
  ⟨appendDir env.realdirpath name, name, q.tags⟩

end Query

theorem refusal_neg {env : Env} (q : Query) : q.refusal env < 0 := by
  unfold Query.refusal
  split_ifs
  · decide
  · decide

/-- A directory that is made. -/
def mkdirCatalogue (C : Catalogue CStr CStr) (userPath : CStr) : Catalogue CStr CStr :=
  if getCharacterCount userPath slash > 1 then C else C.use (basename userPath)

namespace View

def set (V : View) (C : Catalogue CStr CStr) : View := ⟨C, V.opened⟩

def opens (V : View) (a : Addr) (q : Query) : View :=
  ⟨V.catalogue, fun b => if b = a then some q else V.opened b⟩

def closes (V : View) (a : Addr) : View :=
  ⟨V.catalogue, fun b => if b = a then none else V.opened b⟩

end View

/-- Callbacks that nothing can be seen of afterwards. -/
def Callback.quiet : Callback → Bool
  | .setxattr _ | .rmdir _ | .mkdir _ | .mknod .. | .truncate .. | .chmod .. | .chown .. | .utime _
  | .read .. | .write .. | .ioctl .. | .poll .. => true
  | _ => false

/-- What a callback may reply, and what can be seen afterwards. -/
inductive ViewStep (V : View) : Event → Reply → View → Prop
  | quiet {e o} : e.callback.quiet = true → ViewStep V e o V
  | getattr {env p res} : (Query.of env p false).Gives env V.catalogue res →
      ViewStep V ⟨env, .getattr p⟩ (.attr res ((Query.of env p false).stat env)) V
  | fgetattr {env a q res} : V.opened a = some q → q.Gives env V.catalogue res →
      ViewStep V ⟨env, .fgetattr a⟩ (.attr res (q.stat env)) V
  -- `getxattr`: the tags of a file, each once
  | tags {env p size q names} : q = Query.of env p false → q.Found env V.catalogue →
      ((q.stat env).map Stat.isDir).getD false = false → names.Nodup →
      (∀ k, k ∈ names ↔ V.catalogue.carries q.filename k) →
      ViewStep V ⟨env, .getxattr p attrTags size⟩
        (.value (joined names).length (strncpy (joined names) size)) V
  | tagsDir {env p size q} : q = Query.of env p false → q.Found env V.catalogue →
      ((q.stat env).map Stat.isDir).getD false = true →
      ViewStep V ⟨env, .getxattr p attrTags size⟩ (.value (-EISDIR) []) V
  | tagsRefused {env p size q} : q = Query.of env p false → ¬ q.Found env V.catalogue →
      ViewStep V ⟨env, .getxattr p attrTags size⟩ (.value (q.refusal env) []) V
  | fsType {env p size} : ViewStep V ⟨env, .getxattr p attrFsType size⟩
      (.value (tagGetxattrFsType size).1 (tagGetxattrFsType size).2) V
  | noData {env p name size} : name ≠ attrTags → name ≠ attrFsType →
      ViewStep V ⟨env, .getxattr p name size⟩ (.value (-ENODATA) []) V
  -- `open`
  | openFile {env p flags m fh a} : env.openFile (pathRealpath env p) flags = .ok fh → m.fd = some a →
      ViewStep V ⟨env, .openFile p flags m⟩ (.status 0) (V.opens a (Query.of env p false))
  | openRefused {env p flags m errno} : env.openFile (pathRealpath env p) flags = .error errno →
      ViewStep V ⟨env, .openFile p flags m⟩ (.status (-errno)) V
  | openNoMemory {env p flags m fh} : env.openFile (pathRealpath env p) flags = .ok fh → m.fd = none →
      ViewStep V ⟨env, .openFile p flags m⟩ (.status (-ENOMEM)) V
  | opendir {env p flags m a} : p = [slash] ∨ V.catalogue.used (basename p) → m.fd = some a →
      ViewStep V ⟨env, .opendir p flags m⟩ (.status 0) (V.opens a (Query.of env p true))
  | opendirRefused {env p flags m} : p ≠ [slash] → ¬ V.catalogue.used (basename p) →
      ViewStep V ⟨env, .opendir p flags m⟩ (.status (-ENOENT)) V
  | opendirNoMemory {env p flags m} : p = [slash] ∨ V.catalogue.used (basename p) → m.fd = none →
      ViewStep V ⟨env, .opendir p flags m⟩ (.status (-ENOMEM)) V
  | release {env a res} : ViewStep V ⟨env, .release a⟩ (.status res) (V.closes a)
  -- `readdir`: the tags to go on with, each once, and the entries that are found
  | readdir {env a q tags shown} : V.opened a = some q → tags.Nodup →
      (∀ k, k ∈ tags ↔ V.catalogue.Shows q.tags k) →
      (∀ d, shown d = true ↔ d.isDir = false ∧ (q.entry env d.name).Found env V.catalogue) →
      ViewStep V ⟨env, .readdir a⟩
        (.names ([dot, dotdot] ++ tags ++ (env.dirents.filter shown).map Dirent.name)) V
  -- `link`: the directory is made whether the file is found or not
  | link {env p q} : (Query.of env p false).Found env V.catalogue →
      ViewStep V ⟨env, .link p q⟩ (.status 0)
        (V.set ((mkdirCatalogue V.catalogue (dirname q)).tag (basename p) (components (dirname q))))
  | linkRefused {env p q} : ¬ (Query.of env p false).Found env V.catalogue →
      ViewStep V ⟨env, .link p q⟩ (.status ((Query.of env p false).refusal env))
        (V.set (mkdirCatalogue V.catalogue (dirname q)))
  | unlink {env p} : 1 < getCharacterCount p slash → ViewStep V ⟨env, .unlink p⟩ (.status 0)
      (V.set (V.catalogue.untag (basename p) (components (dirname p))))
  | unlinkNone {env p} : 1 < getCharacterCount p slash →
      (∀ k, ¬ V.catalogue.carries (basename p) k) → ViewStep V ⟨env, .unlink p⟩ (.status (-ENOENT)) V
  | unlinkRefused {env p} : getCharacterCount p slash ≤ 1 →
      ViewStep V ⟨env, .unlink p⟩ (.status (-EPERM)) V
  -- `rename`: the file need not be found
  | rename {env p q a b} : components (dirname p) = [a] → components (dirname q) = [b] →
      (Query.of env p false).Found env V.catalogue → ViewStep V ⟨env, .rename p q⟩ (.status 0)
        (V.set ((V.catalogue.tag (basename p) [b]).untag (basename p) [a]))
  | renameLost {env p q a b} : components (dirname p) = [a] → components (dirname q) = [b] →
      ¬ (Query.of env p false).Found env V.catalogue → ViewStep V ⟨env, .rename p q⟩ (.status 0)
        (V.set (V.catalogue.untag (basename p) [a]))
  | renameNone {env p q a b} : components (dirname p) = [a] → components (dirname q) = [b] →
      (∀ k, ¬ V.catalogue.carries (basename p) k) → ¬ (Query.of env p false).Found env V.catalogue →
      ViewStep V ⟨env, .rename p q⟩ (.status 0) V
  | renameRefused {env p q} : (components (dirname p)).length ≠ 1 ∨ (components (dirname q)).length ≠ 1 →
      ViewStep V ⟨env, .rename p q⟩ (.status (-EPERM)) V

section History

variable {V V' : View} {e : Event} {o : Reply} {n k : CStr}

/-- The callback has given the tag `k` to the file `n`. -/
def Tags (n k : CStr) : Event × Reply → Prop
  | (⟨_, .link p q⟩, o) => o = .status 0 ∧ basename p = n ∧ k ∈ components (dirname q)
  | _ => False

/-- The callback has given the tag `k` to the file `n`, or it was a `rename`, whose reply does not
tell. -/
def MayTag (n k : CStr) : Event × Reply → Prop
  | (⟨_, .rename p q⟩, o) => o = .status 0 ∧ basename p = n ∧ k ∈ components (dirname q)
  | x => Tags n k x

/-- The callback has taken the tag `k` from the file `n`. -/
def Untags (n k : CStr) : Event × Reply → Prop
  | (⟨_, .unlink p⟩, o) | (⟨_, .rename p _⟩, o) =>
    o = .status 0 ∧ basename p = n ∧ k ∈ components (dirname p)
  | _ => False

theorem mkdirCatalogue_carries {C : Catalogue CStr CStr} {p : CStr} :
    (mkdirCatalogue C p).carries = C.carries := by
  unfold mkdirCatalogue
  split_ifs
  · rfl
  · rfl

theorem refused {res : ℤ} (h : res ≠ 0) : Reply.status res ≠ .status 0 := fun he => h (Reply.status.inj he)

namespace ViewStep

theorem mayTag (h : ViewStep V e o V') (hk : V'.catalogue.carries n k) :
    MayTag n k (e, o) ∨ V.catalogue.carries n k ∧ ¬ Untags n k (e, o) := by
  cases h with
  | quiet hq =>
    obtain ⟨env, c⟩ := e
    cases c with
    | unlink p | rename p q => cases hq
    | _ => exact .inr ⟨hk, id⟩
  | link hfound =>
    obtain hk | ⟨rfl, hk⟩ := hk
    · rw [mkdirCatalogue_carries] at hk
      exact .inr ⟨hk, id⟩
    · exact .inl ⟨rfl, rfl, hk⟩
  | linkRefused hno =>
    have hk : (mkdirCatalogue V.catalogue _).carries n k := hk
    rw [mkdirCatalogue_carries] at hk
    exact .inr ⟨hk, id⟩
  | unlink hdeep => exact .inr ⟨hk.1, fun h => hk.2 ⟨h.2.1.symm, h.2.2⟩⟩
  | unlinkNone hdeep hno => exact .inr ⟨hk, fun h => hno k (h.2.1 ▸ hk)⟩
  | unlinkRefused hdeep => exact .inr ⟨hk, fun h => refused (by decide) h.1⟩
  | rename hp hq hfound =>
    obtain ⟨hk | ⟨rfl, hk⟩, hno⟩ := hk
    · exact .inr ⟨hk, fun h => hno ⟨h.2.1.symm, hp ▸ h.2.2⟩⟩
    · exact .inl ⟨rfl, rfl, hq ▸ hk⟩
  | renameLost hp hq hno => exact .inr ⟨hk.1, fun h => hk.2 ⟨h.2.1.symm, hp ▸ h.2.2⟩⟩
  | renameNone hp hq hnone hno => exact .inr ⟨hk, fun h => hnone k (h.2.1 ▸ hk)⟩
  | renameRefused h => exact .inr ⟨hk, fun h => refused (by decide) h.1⟩
  | _ => exact .inr ⟨hk, id⟩

theorem of_tags (h : ViewStep V e o V')
    (hk : Tags n k (e, o) ∨ V.catalogue.carries n k ∧ ¬ Untags n k (e, o)) :
    V'.catalogue.carries n k := by
  cases h with
  | quiet hq =>
    obtain ⟨env, c⟩ := e
    cases c with
    | link p q => cases hq
    | _ => exact (hk.resolve_left id).1
  | @link env p q hfound =>
    obtain ⟨-, rfl, hk⟩ | ⟨hk, -⟩ := hk
    · exact .inr ⟨rfl, hk⟩
    · rw [← mkdirCatalogue_carries (p := dirname q)] at hk
      exact .inl hk
  | @linkRefused env p q hno =>
    obtain ⟨h, -⟩ | ⟨hk, -⟩ := hk
    · exact absurd h (refused (refusal_neg _).ne)
    · rw [← mkdirCatalogue_carries (p := dirname q)] at hk
      exact hk
  | unlink hdeep =>
    obtain ⟨hk, hno⟩ := hk.resolve_left id
    exact ⟨hk, fun h => hno ⟨rfl, h.1.symm, h.2⟩⟩
  | rename hp hq hfound =>
    obtain ⟨hk, hno⟩ := hk.resolve_left id
    exact ⟨.inl hk, fun h => hno ⟨rfl, h.1.symm, hp ▸ h.2⟩⟩
  | renameLost hp hq hlost =>
    obtain ⟨hk, hno⟩ := hk.resolve_left id
    exact ⟨hk, fun h => hno ⟨rfl, h.1.symm, hp ▸ h.2⟩⟩
  | _ => exact (hk.resolve_left id).1

end ViewStep

end History

end TagFilesystem.Fuse
