import TagFilesystem.FuseSqlite3.Startup
import TagFilesystem.Library.Simulation

namespace TagFilesystem.FuseSqlite3

variable {env : Env} {s s' s₀ : Store} {d d' d₀ : Daemon} {fh : Pointer} {fd : FileDescriptor} {v : CStr}
  {e : Request} {text : CStr} {log : List (Request × Reply)}

def Path.query (p : Path) : PathQuery := ⟨p.virtpath, p.realpath, p.filename, p.selectedTags.keys⟩

def Daemon.view (d : Daemon) : View :=
  ⟨d.store.catalogue, fun fh => (d.fds.get? fh).map fun fd => fd.path.query⟩

theorem View.ext {V V' : View} (hc : V.catalogue = V'.catalogue) (ho : ∀ a, V.opened a = V'.opened a) :
    V = V' := by
  cases V with
  | mk C o =>
    cases V' with
    | mk C' o' =>
      obtain rfl : C = C' := hc
      obtain rfl : o = o' := funext ho
      rfl

theorem query_pathCreate (env : Env) (s : Store) (userPath : CStr) (isTag : Bool) :
    (pathCreate env s userPath isTag).query = .of env userPath isTag := by
  have hkeys := (pathCreate_standsFor env s userPath isTag).keys
  rw [Path.query, hkeys]
  rfl

theorem Path.standsFor_query {p : Path} (h : s.Stands p.selectedTags) : p.StandsFor s p.query :=
  ⟨rfl, rfl, rfl, rfl, h⟩

theorem view_add : Daemon.view { d with fds := d.fds.add fh fd } = d.view.opens fh fd.path.query := by
  refine View.ext (by rfl) ?_
  intro b
  simp only [Daemon.view, View.opens, Table.get?_add, eq_comm (a := b)]
  split_ifs
  · rfl
  · rfl

theorem view_erase (hu : d.fds.Unique) : Daemon.view { d with fds := d.fds.erase fh } = d.view.closes fh := by
  refine View.ext (by rfl) ?_
  intro b
  simp only [Daemon.view, View.closes, hu.get?_erase]
  split_ifs
  · rfl
  · rfl

/-- No `rmdir` gets to a tag. -/
def KeepsTags (_ : Daemon) (e : Request) : Prop :=
  match e.op with
  | .rmdir p => 1 < getCharacterCount p slash
  | _ => True

instance (d : Daemon) (e : Request) : Decidable (KeepsTags d e) := by
  unfold KeepsTags
  split
  · infer_instance
  · infer_instance

/-- The descriptors have addresses of their own, and their tags are registered still. -/
structure Daemon.Orderly (d : Daemon) : Prop where
  numbered : d.store.Numbered
  fdsUnique : d.fds.Unique
  stands : ∀ fh fd, d.fds.get? fh = some fd → d.store.Stands fd.path.selectedTags
  depth : ∀ fh fd, d.fds.get? fh = some fd → fd.path.depth = fd.path.selectedTags.size

namespace Daemon.Orderly

variable (h : d.Orderly)
include h

theorem update (hs : s.Numbered) (htags : ∀ k t, d.store.tags.get? k = some t → s.tags.get? k = some t) :
    Daemon.Orderly { d with store := s } where
  numbered := hs
  fdsUnique := h.fdsUnique
  stands fh fd hfd k t hk := htags k t (h.stands fh fd hfd k t hk)
  depth := h.depth

theorem keeps (hs : s.Numbered) (hk : Keeps d.store s) : Daemon.Orderly { d with store := s } := by
  apply h.update hs
  intro k t ht
  rw [hk.tags]
  exact ht

theorem add (hfresh : fh ∉ d.fds.keys) (hsel : d.store.Stands fd.path.selectedTags)
    (hdepth : fd.path.depth = fd.path.selectedTags.size) :
    Daemon.Orderly { d with fds := d.fds.add fh fd } where
  numbered := h.numbered
  fdsUnique := h.fdsUnique.add (Table.get?_eq_none.mpr hfresh)
  stands b fd' hb := by
    simp only [Table.get?_add] at hb
    split_ifs at hb
    · cases hb
      exact hsel
    · exact h.stands b fd' hb
  depth b fd' hb := by
    simp only [Table.get?_add] at hb
    split_ifs at hb
    · cases hb
      exact hdepth
    · exact h.depth b fd' hb

theorem erase : Daemon.Orderly { d with fds := d.fds.erase fh } := by
  have hget {b : Pointer} {fd : FileDescriptor} (hb : (d.fds.erase fh).get? b = some fd) :
      d.fds.get? b = some fd := by
    rw [h.fdsUnique.get?_erase] at hb
    split_ifs at hb
    exact hb
  exact ⟨h.numbered, h.fdsUnique.erase, fun b fd hb => h.stands b fd (hget hb),
    fun b fd hb => h.depth b fd (hget hb)⟩

end Daemon.Orderly

/-- The reply is allowed and the daemon stays in order. -/
def Daemon.Follows (d : Daemon) (e : Request) (r : Reply × Daemon) : Prop :=
  ViewStep d.view e r.1 r.2.view ∧ r.2.Orderly

section Callbacks

variable {sys : System} (h : d.Orderly)
include h

theorem follows_quiet {o : Reply} (hq : e.op.quiet = true) : d.Follows e (o, d) := ⟨.quiet hq, h⟩

omit h in
theorem sat_readFd {Q : FileDescriptor → Prop} (hq : ∀ fd, d.fds.get? fh = some fd → Q fd) :
    Returns (d.readFd fh) Q := by
  unfold Daemon.readFd
  cases hfd : d.fds.get? fh with
  | none => trivial
  | some fd => exact hq fd hfd

omit h in
theorem returns_run {α : Type} {m : Except Fault (α × Store)} {reply : α → Reply}
    (hm : Returns m fun r => d.Follows e (reply r.1, { d with store := r.2 })) :
    Returns (d.run m reply) (d.Follows e) := sat_map.mpr (sat_mapError.mpr hm)

omit h

/-- An open that fails replies with `errno` itself, as the number changes its sign twice. -/
theorem status_errPtr (errno : Errno) : (ptrErr (errPtr (-errno.int))).toInt = errno.code := by
  rw [ptrErr_errPtr, neg_neg, errno.toInt_int]

section Open

variable {p : CStr} {flags n : ℤ} {a : Option Address} {b : Address} {isTag : Bool} {errno : Errno}

/-- A directory of the target is not opened. -/
def opened (sys : System) (p : CStr) (flags : ℤ) (isTag : Bool) : Except Errno ℤ :=
  if isTag = true then .ok (-1) else sys.openFile (pathRealpath sys.toEnv p) flags

/-- The descriptor that an open makes. -/
def Daemon.descriptor (d : Daemon) (sys : System) (p : CStr) (isTag : Bool) (n : ℤ) : FileDescriptor :=
  ⟨pathCreate sys.toEnv d.store p isTag, isTag, basename p = tagFilename, n⟩

theorem fdOpen_eq : fdOpen sys d (pathCreate sys.toEnv d.store p isTag) a flags isTag =
    match opened sys p flags isTag with
    | .error errno => (errPtr (-errno.int), d)
    | .ok n =>
      match a with
      | none => (errPtr (-enomem.int), d)
      | some b =>
        (b.pointer, { d with fds := d.fds.add b.pointer (d.descriptor sys p isTag n) }) := rfl

theorem tagOpen_refused (h : opened sys p flags isTag = .error errno) :
    tagOpen sys d p a flags isTag = (errno.code, d) := by
  simp only [tagOpen, fdOpen_eq, h, isErr_errPtr, if_true, status_errPtr]

theorem tagOpen_noMemory (h : opened sys p flags isTag = .ok n) :
    tagOpen sys d p none flags isTag = (ENOMEM, d) := by
  simp only [tagOpen, fdOpen_eq, h, isErr_errPtr, if_true, status_errPtr]
  rfl

theorem tagOpen_ok (h : opened sys p flags isTag = .ok n) :
    tagOpen sys d p (some b) flags isTag =
      (0, { d with fds := d.fds.add b.pointer (d.descriptor sys p isTag n) }) := by
  simp only [tagOpen, fdOpen_eq, h, isErr_address, Bool.false_eq_true, if_false]

theorem follows_descriptor (h : d.Orderly) (isTag : Bool) (hfresh : b.pointer ∉ d.fds.keys)
    (hstep : ViewStep d.view e (.status 0) (d.view.opens b.pointer (.of sys.toEnv p isTag))) :
    d.Follows e (.status 0, { d with fds := d.fds.add b.pointer (d.descriptor sys p isTag n) }) := by
  have hpath := pathCreate_standsFor sys.toEnv d.store p isTag
  refine ⟨?_, h.add hfresh hpath.stands rfl⟩
  rw [view_add, Daemon.descriptor, query_pathCreate]
  exact hstep

theorem follows_openFile (h : d.Orderly) (hfresh : ∀ b ∈ a, b.pointer ∉ d.fds.keys) :
    d.Follows ⟨sys, .openFile p flags a⟩
      (.status (tagOpen sys d p a flags false).1, (tagOpen sys d p a flags false).2) := by
  cases hopen : sys.openFile (pathRealpath sys.toEnv p) flags with
  | error errno =>
    rw [tagOpen_refused (by exact hopen)]
    exact ⟨.openRefused hopen, h⟩
  | ok n =>
    cases a with
    | none =>
      rw [tagOpen_noMemory (by exact hopen)]
      exact ⟨.openNoMemory hopen, h⟩
    | some b =>
      rw [tagOpen_ok (by exact hopen)]
      exact follows_descriptor h false (hfresh b rfl) (.openFile hopen)

theorem follows_opendir (h : d.Orderly) (hfresh : ∀ b ∈ a, b.pointer ∉ d.fds.keys) :
    d.Follows ⟨sys, .opendir p flags a⟩
      (.status (tagOpen sys d p a flags true).1, (tagOpen sys d p a flags true).2) := by
  have hopen : opened sys p flags true = .ok (-1) := rfl
  cases a with
  | none =>
    rw [tagOpen_noMemory hopen]
    exact ⟨.opendirNoMemory, h⟩
  | some b =>
    rw [tagOpen_ok hopen]
    exact follows_descriptor h true (hfresh b rfl) .opendir

end Open

include h

theorem follows_release : Returns (tagReleaseGeneric sys d fh) fun r =>
    d.Follows ⟨sys, .release fh⟩ (.status r.1, r.2) := by
  apply (returns_true _).bind
  rintro fd -
  refine ⟨?_, h.erase⟩
  rw [view_erase h.fdsUnique]
  exact .release

theorem follows_store {o : Reply} {C : Catalogue CStr CStr} (hs : s.Numbered) (hkeep : Keeps d.store s)
    (hcat : s.catalogue = C) (hstep : ViewStep d.view e o (d.view.set C)) :
    d.Follows e (o, { d with store := s }) := by
  have hview : Daemon.view { d with store := s } = d.view.set C := congrArg d.view.set hcat
  exact ⟨hview ▸ hstep, h.keeps hs hkeep⟩

theorem follows_looked {o : Reply} (hl : Looked d.store s) (hstep : ViewStep d.view e o d.view) :
    d.Follows e (o, { d with store := s }) :=
  follows_store h hl.numbered hl.keeps hl.catalogue hstep

theorem follows_getattr (p : CStr) : Returns (tagGetattr sys.toEnv d.store p) fun r =>
    d.Follows ⟨sys, .getattr p⟩ (.attr r.1 r.2.1, { d with store := r.2.2 }) :=
  (returns_getattrIntra_gives h.numbered (pathCreate_standsFor _ _ p false)).mono fun _ hr =>
    follows_looked h hr.1 (.getattr hr.2)

theorem standsFor_descriptor (hfd : d.fds.get? fh = some fd) : fd.path.StandsFor d.store fd.path.query :=
  Path.standsFor_query (h.stands fh fd hfd)

omit h in
theorem view_opened (hfd : d.fds.get? fh = some fd) : d.view.opened fh = some fd.path.query := by
  simp only [Daemon.view, hfd]
  rfl

theorem follows_fgetattr (hfd : d.fds.get? fh = some fd) :
    Returns (tagFgetattr sys.toEnv d.store fd.path) fun r =>
      d.Follows ⟨sys, .fgetattr fh⟩ (.attr r.1 r.2.1, { d with store := r.2.2 }) :=
  (returns_getattrIntra_gives h.numbered (standsFor_descriptor h hfd)).mono fun _ hr =>
    follows_looked h hr.1 (.fgetattr (view_opened hfd) hr.2)

open Classical in
theorem follows_readdir [Sqlite] (hfd : d.fds.get? fh = some fd) :
    Returns (tagReaddir sys.toEnv sys.dirents d.store fd.path) fun r =>
      d.Follows ⟨sys, .readdir fh⟩ (.names r.1, { d with store := r.2 }) := by
  have hshown (x : Dirent) : decide (fd.path.query.Lists sys.toEnv d.store.catalogue x) = true ↔
      fd.path.query.Lists sys.toEnv d.store.catalogue x := decide_eq_true_iff
  apply (returns_tagReaddir_lists h.numbered (standsFor_descriptor h hfd) (h.depth fh fd hfd) hshown).mono
  rintro ⟨names, s⟩ ⟨hl, tags, rfl, htags⟩
  exact follows_looked h hl (.readdir (view_opened hfd) htags hshown)

theorem follows_link (p q : CStr) : Returns (tagLink sys.toEnv d.store p q) fun r =>
    d.Follows ⟨sys, .link p q⟩ (.status r.1, { d with store := r.2 }) := by
  have hfrom := pathCreate_standsFor sys.toEnv d.store p false
  have hto := pathCreate_standsFor sys.toEnv d.store q false
  apply (returns_pathLink_catalogue h.numbered hfrom hto.stands).mono
  rintro ⟨res, s⟩ ⟨hs, hkeep, st, hgives, ⟨hres, hcat⟩ | ⟨hres, hcat⟩⟩
  · rw [hto.keys] at hcat
    exact follows_store h hs hkeep hcat (.link hgives hres)
  · exact follows_looked h ⟨hs, hkeep, hcat⟩ (.linkRefused hgives hres)

theorem follows_unlink (p : CStr) : Returns (tagUnlink sys.toEnv d.store p) fun r =>
    d.Follows ⟨sys, .unlink p⟩ (.status r.1, { d with store := r.2 }) := by
  unfold tagUnlink
  split_ifs with hdepth
  · exact ⟨.unlinkRefused hdepth, h⟩
  have hlt : 1 < getCharacterCount p slash := by omega
  have hpath := pathCreate_standsFor sys.toEnv d.store p false
  apply (returns_pathUnlink_catalogue h.numbered hpath).mono
  rintro ⟨res, s⟩ ⟨hs, hkeep, hcat, rfl | ⟨rfl, hno⟩⟩
  · exact follows_store h hs hkeep hcat (.unlink hlt)
  · rw [Catalogue.strip_of_none (by exact hno)] at hcat
    exact follows_looked h ⟨hs, hkeep, hcat⟩ (.unlinkNone hlt hno)

theorem follows_rename (p q : CStr) : Returns (tagRename sys.toEnv d.store p q) fun r =>
    d.Follows ⟨sys, .rename p q⟩ (.status r.1, { d with store := r.2 }) := by
  have hfrom := pathCreate_standsFor sys.toEnv d.store p false
  have hto := pathCreate_standsFor sys.toEnv d.store q false
  have hsize {path : Path} {query : PathQuery} (hp : path.StandsFor d.store query) :
      path.selectedTags.size = query.tags.length := by
    rw [← hp.keys, Table.keys, List.length_map]
    rfl
  unfold tagRename
  dsimp only
  rw [hsize hfrom, hsize hto]
  split_ifs with hlen
  · exact ⟨.renameRefused hlen, h⟩
  · simp only [not_or, ne_eq, not_not] at hlen
    obtain ⟨a, ha⟩ := List.length_eq_one_iff.mp hlen.1
    obtain ⟨b, hb⟩ := List.length_eq_one_iff.mp hlen.2
    apply (returns_pathUnlink_catalogue h.numbered hfrom).bind
    rintro ⟨_, s₁⟩ ⟨hs₁, hkeep₁, hcat₁, -⟩
    apply (returns_pathLink_catalogue hs₁ (hkeep₁.standsFor hfrom) (hkeep₁.stands hto.stands)).bind
    rintro ⟨res, s₂⟩ ⟨hs₂, hkeep₂, st, hgives, hcat₂⟩
    dsimp only at hcat₁ hgives hcat₂
    have hkeep := hkeep₁.trans hkeep₂
    have hfromTags : (PathQuery.of sys.toEnv p false).tags = [a] := ha
    have htoTags : (PathQuery.of sys.toEnv q false).tags = [b] := hb
    rw [hcat₁, hfromTags] at hgives hcat₂
    rw [hto.keys, htoTags] at hcat₂
    rcases hcat₂ with ⟨hres, hcat₂⟩ | ⟨hres, hcat₂⟩
    · exact follows_store h hs₂ hkeep hcat₂ (.rename ha hb hgives hres)
    · exact follows_store h hs₂ hkeep hcat₂ (.renameLost ha hb hgives hres)

theorem Daemon.Orderly.addTag {v : CStr} (hv : d.store.tags.get? v = none) :
    Daemon.Orderly { d with store := d.store.addTag v } := by
  apply h.update (h.numbered.addTag hv).1
  intro k t ht
  have hne : v ≠ k := by
    rintro rfl
    rw [hv] at ht
    cases ht
  show (d.store.tags.add v d.store.tagHeap.next).get? k = some t
  rw [Table.get?_add, if_neg hne]
  exact ht

theorem follows_mkdir (p : CStr) : d.Follows ⟨sys, .mkdir p⟩
    (.status (tagMkdir d.store p).1, { d with store := (tagMkdir d.store p).2 }) := by
  unfold tagMkdir
  split_ifs with hdepth
  · exact ⟨.mkdirRefused hdepth, h⟩
  have hle : getCharacterCount p slash ≤ 1 := by omega
  have hused : d.store.catalogue.used (basename p) ↔
      (d.store.tags.get? (basename p)).isSome = true := Iff.rfl
  dsimp only [tagGet]
  cases hk : d.store.tags.get? (basename p) with
  | some t =>
    rw [hk] at hused
    exact ⟨.mkdirExists hle (hused.mpr rfl), h⟩
  | none =>
    have hview : Daemon.view { d with store := d.store.addTag (basename p) } =
        d.view.set (d.store.catalogue.use (basename p)) := congrArg d.view.set (h.numbered.addTag hk).2
    have hno : ¬d.store.catalogue.used (basename p) := by
      intro hu
      rw [hused, hk] at hu
      cases hu
    dsimp only
    rw [tagGetOrCreate_new hk]
    exact ⟨hview ▸ .mkdir hle hno, h.addTag hk⟩

theorem returns_tagOper_follows [Sqlite] (hg : KeepsTags d e) : Returns (tagOper d e) (d.Follows e) := by
  obtain ⟨sys, op⟩ := e
  cases op with
  | openFile p flags a =>
    simp only [tagOper, openChecked]
    split_ifs with hfresh
    · exact follows_openFile h hfresh
    · trivial
  | opendir p flags a =>
    simp only [tagOper, openChecked]
    split_ifs with hfresh
    · exact follows_opendir h hfresh
    · trivial
  | release fh => exact sat_map.mpr (follows_release h)
  | getattr p =>
    dsimp only [tagOper]
    apply returns_run
    exact sat_map.mpr (follows_getattr h p)
  | fgetattr fh =>
    apply sat_bind.mpr
    apply sat_readFd
    intro fd hfd
    apply returns_run
    exact sat_map.mpr (follows_fgetattr h hfd)
  | readdir fh =>
    apply sat_bind.mpr
    apply sat_readFd
    intro fd hfd
    exact returns_run (follows_readdir h hfd)
  | link p q => exact returns_run (follows_link h p q)
  | unlink p => exact returns_run (follows_unlink h p)
  | rename p q => exact returns_run (follows_rename h p q)
  | rmdir p =>
    have hrefused : tagRmdir d.store p = .ok (-EPERM, d.store) := by
      rw [tagRmdir]
      exact if_pos hg
    apply returns_run
    rw [hrefused]
    exact ⟨.rmdirRefused hg, h⟩
  | mkdir p => exact follows_mkdir h p
  | read fh len off => exact sat_map.mpr ((returns_true _).mono fun _ _ => follows_quiet h rfl)
  | write fh buffer off => exact sat_map.mpr ((returns_true _).mono fun _ _ => follows_quiet h rfl)
  | ioctl fh readTags compat => exact sat_map.mpr ((returns_true _).mono fun _ _ => follows_quiet h rfl)
  | _ => exact follows_quiet h rfl

end Callbacks

theorem orderly_start (h : s.Numbered) : Daemon.Orderly ⟨s, .empty⟩ where
  numbered := h
  fdsUnique := Table.unique_empty
  stands fh fd hfd := by cases hfd
  depth fh fd hfd := by cases hfd

theorem allows_of_logs [Sqlite] (h : d₀.Orderly) (hlog : Logs tagOper KeepsTags d₀ log d) :
    Allows ViewStep d₀.view log d.view := by
  have hstep (d : Daemon) (V : View) (e : Request) (hR : d.Orderly ∧ V = d.view) (hg : KeepsTags d e) :
      Returns (tagOper d e) fun r => ∃ V', ViewStep V e r.1 V' ∧ r.2.Orderly ∧ V' = r.2.view := by
    obtain ⟨ho, rfl⟩ := hR
    exact (returns_tagOper_follows ho hg).mono fun r hr => ⟨_, hr.1, hr.2, rfl⟩
  obtain ⟨V, hallows, -, rfl⟩ := hlog.simulate (E := fun _ _ => True) ⟨h, rfl⟩ hstep
  exact hallows

/-- In every run from a database in which no tag is removed, every reply and whatever can be seen
afterwards is what the catalogue of the database and the callbacks so far allow. -/
theorem daemon_refines_view [Sqlite] (h₀ : setRootDirectory env text = .ok s₀)
    (h : Logs tagOper KeepsTags ⟨s₀, .empty⟩ log d) :
    Allows ViewStep ⟨databaseCatalogue env text, fun _ => none⟩ log d.view := by
  obtain ⟨hnum, hcat⟩ := (returns_setRootDirectory_catalogue env text).of_ok h₀
  have hview : Daemon.view ⟨s₀, .empty⟩ = ⟨databaseCatalogue env text, fun _ => none⟩ :=
    View.ext hcat fun _ => rfl
  exact hview ▸ allows_of_logs (orderly_start hnum) h

def sampleSystem : System where
  toEnv := sampleEnv
  openFile _ _ := .error ⟨2, by decide, by decide⟩
  close _ := none
  read _ _ _ := .ok []
  write _ buffer _ := .ok buffer.length
  access _ := true
  mknod _ _ _ := 0
  truncate _ _ := 0
  chmod _ _ := 0
  chown _ _ _ := 0
  utime _ := 0
  dirents := sampleDirents
  len := 0

/-- The database `[f]`, `x`: the directory of `x` is read before and after `f` moves to `y`. -/
def sampleDatabase : CStr := cstr [91, 102, 93, 10, 120, 10]

def sampleSession : List Operation := [
  .mkdir (samplePath [] nameY),
  .opendir (samplePath [] nameX) 0 (some ⟨16, by decide⟩),
  .readdir 16,
  .rename (samplePath [nameX] nameF) (samplePath [nameY] nameF),
  .readdir 16,
  .openFile (samplePath [nameY] nameF) 0 (some ⟨32, by decide⟩)]

def sampleReplies : List Reply := [.status 0, .status 0, .names [dot, dotdot, nameF], .status 0,
  .names [dot, dotdot], .status ENOENT]

theorem daemon_refines_view_sample : ∃ log d, log.map Prod.snd = sampleReplies ∧
    Allows ViewStep ⟨databaseCatalogue sampleEnv sampleDatabase, fun _ => none⟩ log (Daemon.view d) := by
  have hstart : returnsWith (setRootDirectory sampleEnv sampleDatabase) (fun s =>
      (executeLog tagOper KeepsTags (sampleSession.map fun op => ⟨sampleSystem, op⟩) [] ⟨s, .empty⟩).any
        fun r => r.1.map Prod.snd = sampleReplies) = true := by decide +kernel
  obtain ⟨s, h₀, hrun⟩ := returnsWith_iff.mp hstart
  obtain ⟨⟨log, d⟩, hr, hreplies⟩ := (Option.any_eq_true _ _).mp hrun
  exact ⟨log, d, of_decide_eq_true hreplies, daemon_refines_view h₀ (logs_of_executeLog .nil hr)⟩

end TagFilesystem.FuseSqlite3
