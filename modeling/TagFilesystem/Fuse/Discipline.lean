import TagFilesystem.Fuse.Typed

namespace TagFilesystem.Fuse

/-- Occurrences of tags in paths. -/
abbrev Held := List (CStr × TagId)

def Path.held (p : Path) : Held := p.selectedTags.entries

/-- The tags held by the paths that are alive between two callbacks. -/
def Store.held (s : Store) : Held := s.livePaths.flatMap Path.held

/-- The store without the descriptor that is being closed, if any. -/
def Store.without (s : Store) : Option Addr → Store
  | none => s
  | some a => { s with fds := s.fds.erase a }

/-- An invariant of the store, relative to `P`, the tags of a path whose file is going to be
unlinked, and `R`, the tags of the other paths of the callback. It is `opening` as long as
paths are created and files tagged, and `closing` while tags are taken away and paths deleted;
`x` is then the descriptor whose path is deleted, if it is one. -/
structure Discipline where
  opening (P R : Held) (s : Store) : Prop
  closing (P R : Held) (x : Option Addr) (s : Store) : Prop
  /-- The tag may be taken from a file and removed. -/
  ready (s : Store) (t : TagId) : Prop
  /-- The tag may be given back by an open descriptor. -/
  closable (s : Store) (t : TagId) : Prop

/-- Every update keeps the invariant, and it excludes the faults outside `E`. -/
structure Discipline.Sound (D : Discipline) (E : Fault → Prop) : Prop where
  fault {x : Fault} : x ≠ .freedTag → E x
  -- what holds throughout
  tidy {P R s} : D.opening P R s → s.Tidy
  closing_tidy {P R x s} : D.closing P R x s → s.Tidy
  dead {P R s e} : D.opening P R s → e ∈ P ++ R ++ s.held → s.tagHeap.get? e.2 = none →
    E .freedTag
  closing_dead {P R x s e} : D.closing P R x s → e ∈ P ++ R → s.tagHeap.get? e.2 = none →
    E .freedTag
  dead_carried {P R s f F e} : D.opening P R s → s.fileHeap.get? f = some F →
    e ∈ F.tags.entries → s.tagHeap.get? e.2 = none → E .freedTag
  touchFile {P R s f F F'} : D.opening P R s → s.fileHeap.get? f = some F →
    F'.name = F.name → F'.tags = F.tags → D.opening P R (s.writeFile f F')
  closing_touchFile {P R x s f F F'} : D.closing P R x s → s.fileHeap.get? f = some F →
    F'.name = F.name → F'.tags = F.tags → D.closing P R x (s.writeFile f F')
  -- holders
  perm {P R R' s} : D.opening P R s → R.Perm R' → D.opening P R' s
  closing_perm {P R R' x s} : D.closing P R x s → R.Perm R' → D.closing P R' x s
  spare {e P R s} : D.opening (e :: P) R s → D.opening P (e :: R) s
  store {R s fds leaked} : D.opening [] R s →
    (Store.held { s with fds := fds, leaked := leaked }).Perm (R ++ s.held) →
    D.opening [] [] { s with fds := fds, leaked := leaked }
  fetch {s a fd} : D.opening [] [] s → s.fds.get? a = some fd →
    (∀ e ∈ fd.path.held, D.closable s e.2) → D.closing [] fd.path.held (some a) s
  close {P R s} : D.opening P R s → (∀ e ∈ P, D.ready s e.2) → D.closing P R none s
  reopen {x s} : D.closing [] [] x s → D.opening [] [] (s.without x)
  -- updates while paths are made
  init : D.opening [] [] Store.init
  acquire {P R s k t T} : D.opening P R s → s.tags.get? k = some t → s.tagHeap.get? t = some T →
    D.opening (P ++ [(k, t)]) R (s.writeTag t { T with refCount := T.refCount + 1 }) ∧
      D.opening P (R ++ [(k, t)]) (s.writeTag t { T with refCount := T.refCount + 1 })
  create {P R s k} : D.opening P R s → s.tags.get? k = none →
    D.opening (P ++ [(k, s.tagHeap.next)]) R (s.registerTag { tagNew k false with refCount := 1 }) ∧
      D.opening P (R ++ [(k, s.tagHeap.next)]) (s.registerTag { tagNew k false with refCount := 1 })
  createUsed {P R s k} : D.opening P R s → s.tags.get? k = none →
    D.opening P R (s.registerTag { tagNew k true with refCount := 1 })
  use {R s k t T} : D.opening [] R s → s.tags.get? k = some t → s.tagHeap.get? t = some T →
    D.opening [] R (s.writeTag t { T with inUse := true })
  registerFile {P R s n} : D.opening P R s → s.files.get? n = none →
    D.opening P R (s.registerFile (fileNew n))
  attach {P R env s e T f F} : D.opening P R s → e ∈ R → s.tagHeap.get? e.2 = some T →
    s.fileHeap.get? f = some F → s.files.get? F.name = some f →
    D.opening P R (s.attach env e.2 T f F)
  -- updates of the parser, which holds no path
  reference {s k t T} : D.opening [] [] s → s.held = [] → s.tags.get? k = some t →
    s.tagHeap.get? t = some T →
    D.opening [] [] (s.writeTag t { T with refCount := T.refCount + 1 })
  attachParsed {env s k t T f F} : D.opening [] [] s → s.held = [] → s.tags.get? k = some t →
    s.tagHeap.get? t = some T → s.fileHeap.get? f = some F → s.files.get? F.name = some f →
    D.opening [] [] (s.attach env t T f F)
  -- updates while paths are deleted
  unlinkKeep {P R env s e T f F} : D.closing (e :: P) R none s → s.tagHeap.get? e.2 = some T →
    s.fileHeap.get? f = some F → s.files.get? F.name = some f →
    D.closing P (e :: R) none (s.detach env e.2 T f F)
  unlinkDrop {P R env s e T f F} : D.closing (e :: P) R none s → s.tagHeap.get? e.2 = some T →
    s.fileHeap.get? f = some F → s.files.get? F.name = some f →
    (T.files.erase F.name).entries = [] →
    D.closing P (e :: R) none ((s.detach env e.2 T f F).dropTag e.2
      { T with files := T.files.erase F.name })
  keep {P R x s e T} : D.closing P (e :: R) x s → s.tagHeap.get? e.2 = some T → T.inUse = true →
    D.closing P R x s
  drop {P R x s e T} : D.closing P (e :: R) x s → s.tagHeap.get? e.2 = some T → T.inUse = false →
    D.closing P R x (s.dropTag e.2 T)

namespace Discipline.Sound

variable {E : Fault → Prop} {D : Discipline} (S : D.Sound E) {P R : Held} {x : Option Addr} {env : Env}
  {s : Store}
include S

theorem spareAll (h : D.opening P R s) : D.opening [] (P ++ R) s := by
  induction P generalizing R with
  | nil => exact h
  | cons e P ih => exact S.perm (ih (S.spare h)) List.perm_middle

theorem pathCreate (h : D.opening P R s) (userPath : CStr) (isTag : Bool) :
    Sat E (Fuse.pathCreate env s userPath isTag) fun r => D.opening (P ++ r.1.held) R r.2 := by
  refine (sat_computeSelectedTags (fun _ sel s => D.opening (P ++ sel.entries) R s)
    ?_ ?_ ?_ (by simpa using h)).bind fun r hr => hr
  · intro _ _ s k t hI hk
    obtain ⟨T, hT, -⟩ := (S.tidy hI).tagEntry hk
    exact ⟨T, hT⟩
  · intro k _ sel s t T hI hk hT
    simpa using (S.acquire hI hk hT).1
  · intro k _ sel s hI hk
    simpa using (S.create hI hk).1

theorem pathCreate' (h : D.opening P R s) (userPath : CStr) (isTag : Bool) :
    Sat E (Fuse.pathCreate env s userPath isTag) fun r =>
      r.2.held = s.held ∧ D.opening P (R ++ r.1.held) r.2 := by
  refine (sat_computeSelectedTags
    (fun _ sel s' => s'.held = s.held ∧ D.opening P (R ++ sel.entries) s')
    ?_ ?_ ?_ ⟨rfl, by simpa using h⟩).bind fun r hr => hr
  · intro _ _ s k t hI hk
    obtain ⟨T, hT, -⟩ := (S.tidy hI.2).tagEntry hk
    exact ⟨T, hT⟩
  · intro k _ sel s t T hI hk hT
    exact ⟨hI.1, by simpa using (S.acquire hI.2 hk hT).2⟩
  · intro k _ sel s hI hk
    exact ⟨hI.1, by simpa using (S.create hI.2 hk).2⟩

theorem pathDelete {path : Path} (h : D.closing P (path.held ++ R) x s) :
    Sat E (Fuse.pathDelete env s path) fun s' => s'.held = s.held ∧ D.closing P R x s' := by
  refine sat_freeSelectedTags (fun l s' => s'.held = s.held ∧ D.closing P (l ++ R) x s')
    ?_ ?_ ?_ ⟨rfl, h⟩
  · intro e l s hI hd
    exact S.closing_dead hI.2 (by simp) hd
  · intro e l s T hI hT hu
    exact ⟨hI.1, S.keep hI.2 hT hu⟩
  · intro e l s T hI hT hu
    have ht := S.closing_tidy hI.2
    exact ⟨ht.tagsUnique, ht.idle hT hu, hI.1, S.drop hI.2 hT hu⟩

theorem fileMatchesTags {f : FileId} {sel : HashTable TagId} (h : D.opening P R s)
    (hsel : ∀ e ∈ sel.entries, e ∈ P ++ R ++ s.held) :
    Sat E (Fuse.fileMatchesTags s f sel) fun _ => True := by
  refine sat_bind.mpr (sat_readFile (fun _ => S.fault (by simp)) fun F _ => ?_)
  refine sat_forEach_mem (fun e he b _ => ?_) trivial
  exact sat_bind.mpr (sat_readTag (S.dead h (hsel e he)) fun T _ => trivial)

theorem fileGetOrCreate (h : D.opening P R s) (n : CStr) :
    (Fuse.fileGetOrCreate s n).2.files.get? n = some (Fuse.fileGetOrCreate s n).1 ∧
      (Fuse.fileGetOrCreate s n).2.held = s.held ∧
      D.opening P R (Fuse.fileGetOrCreate s n).2 := by
  cases hn : s.files.get? n with
  | some f =>
    rw [fileGetOrCreate_some hn]
    exact ⟨hn, rfl, h⟩
  | none =>
    rw [fileGetOrCreate_none hn]
    exact ⟨by simp [Store.registerFile, fileNew], rfl, S.registerFile h hn⟩

theorem getattrIntra {p : Path} (h : D.opening P R s)
    (hp : ∀ e ∈ p.held, e ∈ P ++ R ++ s.held) :
    Sat E (Fuse.getattrIntra env s p) fun r => r.2.2.held = s.held ∧ D.opening P R r.2.2 := by
  unfold Fuse.getattrIntra
  split
  · exact ⟨rfl, h⟩
  · obtain ⟨-, hh, ho⟩ := S.fileGetOrCreate h p.filename
    split_ifs
    · exact ⟨rfl, h⟩
    · refine (S.fileMatchesTags ho ?_).bind fun b _ => ⟨hh, ho⟩
      rw [hh]
      exact hp
    · exact ⟨hh, ho⟩
    · exact ⟨hh, ho⟩

theorem fileGetTagsString {f : FileId} (h : D.opening P R s) :
    Sat E (Fuse.fileGetTagsString s f) fun _ => True := by
  refine sat_bind.mpr (sat_readFile (fun _ => S.fault (by simp)) fun F hF => ?_)
  refine (sat_forEach_mem (fun e he r _ => ?_) (I := fun _ => True) trivial).bind fun r _ => trivial
  exact sat_bind.mpr (sat_readTag (S.dead_carried h hF he) fun T _ => trivial)

theorem tagDbDump (h : D.opening P R s) : Sat E (Fuse.tagDbDump s) fun _ => True := by
  refine sat_forEach_mem (fun f _ out _ => ?_) trivial
  refine sat_bind.mpr (sat_readFile (fun _ => S.fault (by simp)) fun F hF => ?_)
  split_ifs
  · trivial
  · refine Sat.bind (P := fun _ => True) ?_ fun _ _ => trivial
    refine (sat_forEach_mem (fun e he r _ => ?_) (I := fun _ => True) trivial).bind
      fun r _ => trivial
    exact sat_bind.mpr (sat_readTag (S.dead_carried h hF he) fun T _ => trivial)

theorem readdirListTagsMode1 (h : D.opening P R s) (sel : HashTable TagId) :
    Sat E (Fuse.readdirListTagsMode1 s sel) fun _ => True := by
  refine sat_forEach_mem (fun t ht out _ => ?_) trivial
  refine sat_bind.mpr (sat_readTag (fun hd => ?_) fun T _ => trivial)
  -- a registered tag is live
  simp only [tagList, List.mem_reverse, List.mem_map] at ht
  obtain ⟨⟨k, t'⟩, he, rfl⟩ := ht
  obtain ⟨T, hT, -⟩ := (S.tidy h).tagEntry ((S.tidy h).tagsUnique.get?_eq_some.mpr he)
  rw [hT] at hd
  cases hd

theorem readdirListTagsMode2 {sel : HashTable TagId} (h : D.opening P R s)
    (hsel : ∀ e ∈ sel.entries, e ∈ P ++ R ++ s.held) :
    Sat E (Fuse.readdirListTagsMode2 s sel) fun _ => True := by
  have hbad (f : FileId) : s.fileHeap.get? f = none → E .badFile := fun _ => S.fault (by simp)
  refine Sat.bind (P := fun _ => True) ?_ fun selectedFiles _ => ?_
  · refine Sat.bind (P := fun _ => True) ?_ fun files _ => ?_
    · refine sat_forEach_mem (fun e he r _ => ?_) trivial
      refine sat_bind.mpr (sat_readTag (S.dead h (hsel e he)) fun T _ => ?_)
      refine sat_forEach_mem (fun e' _ r _ => ?_) trivial
      exact sat_bind.mpr (sat_readFile (hbad _) fun F _ => trivial)
    · refine Sat.bind (P := fun _ => True) ?_ fun notMatching _ => trivial
      refine sat_forEach_mem (fun e _ r _ => ?_) trivial
      refine sat_forEach_mem (fun e' he' r _ => ?_) trivial
      refine sat_bind.mpr (sat_readFile (hbad _) fun F _ => ?_)
      exact sat_bind.mpr (sat_readTag (S.dead h (hsel e' he')) fun T _ => trivial)
  · refine (sat_forEach_mem (fun e _ r _ => ?_) (I := fun _ => True) trivial).bind
      fun r _ => trivial
    refine sat_bind.mpr (sat_readFile (hbad _) fun F hF => ?_)
    refine sat_forEach_mem (fun e' he' r _ => ?_) trivial
    exact sat_bind.mpr (sat_readTag (S.dead_carried h hF he') fun T _ => trivial)

theorem readdirListFiles {dirpath : Path} (h : D.opening P R s)
    (hp : ∀ e ∈ dirpath.held, e ∈ P ++ R ++ s.held) :
    Sat E (Fuse.readdirListFiles env s dirpath) fun r => D.opening P R r.2 := by
  refine (sat_forEach_mem (fun d _ r hr => ?_)
    (I := fun r : List CStr × Store => r.2.held = s.held ∧ D.opening P R r.2) ⟨rfl, h⟩).mono
      fun r hr => hr.2
  split_ifs
  · exact hr
  · refine (S.getattrIntra hr.2 ?_).bind fun q hq => ⟨hq.1.trans hr.1, hq.2⟩
    rw [hr.1]
    exact hp

theorem pathLink (ffrom fto : Path) (h : D.opening P R s)
    (hfrom : ∀ e ∈ ffrom.held, e ∈ P ++ R) (hto : ∀ e ∈ fto.held, e ∈ R) :
    Sat E (Fuse.pathLink env s ffrom fto) fun r => D.opening P R r.2 := by
  refine (S.getattrIntra h fun e he => List.mem_append_left _ (hfrom e he)).bind fun r hr => ?_
  obtain ⟨res, st, s₁⟩ := r
  dsimp only at hr ⊢
  split_ifs
  · exact hr.2
  obtain ⟨hf, -, ho⟩ := S.fileGetOrCreate hr.2 ffrom.filename
  obtain ⟨F, hF, hn⟩ := (S.tidy ho).fileEntry hf
  refine (sat_linkLoop (fun l s => (∀ e ∈ l, e ∈ R) ∧ D.opening P R s ∧
    s.files.get? ffrom.filename = some (Fuse.fileGetOrCreate s₁ ffrom.filename).1)
    ?_ ?_ ?_ ⟨hto, ho, hf⟩).bind fun s' hs' => hs'.2.1
  · intro e l s hI hd
    exact S.dead hI.2.1 (by simp [hI.1 e]) hd
  · intro l s hI
    obtain ⟨F, hF, -⟩ := (S.tidy hI.2.1).fileEntry hI.2.2
    exact ⟨F, hF⟩
  · intro e l s T F hI hT hF
    have hn := (S.tidy hI.2.1).name_of_get? hI.2.2 hF
    exact ⟨fun e' he' => hI.1 e' (List.mem_cons_of_mem e he'),
      S.attach hI.2.1 (hI.1 e List.mem_cons_self) hT hF (hn ▸ hI.2.2), hI.2.2⟩

theorem pathUnlink {path : Path} (h : D.opening path.held R s)
    (hready : (s.files.get? path.filename).isSome → ∀ e ∈ path.held, D.ready s e.2) :
    Sat E (Fuse.pathUnlink env s path) fun r => D.closing [] (path.held ++ R) none r.2 := by
  cases hf : s.files.get? path.filename with
  | none =>
    simp only [Fuse.pathUnlink, fileGet, hf]
    exact S.close (S.spareAll h) (by simp)
  | some f =>
    have hc := S.close h (hready (by simp [hf]))
    refine (sat_pathUnlink hf (fun l s => ∃ R', (l ++ R').Perm (path.held ++ R) ∧
      D.closing l R' none s ∧ s.files.get? path.filename = some f) ?_ ?_ ?_ ?_
      ⟨R, List.Perm.refl _, hc, hf⟩).mono ?_
    · rintro e l s ⟨R', -, hI, -⟩ hd
      exact S.closing_dead hI (by simp) hd
    · rintro l s ⟨R', -, hI, hf'⟩
      obtain ⟨F, hF, -⟩ := (S.closing_tidy hI).fileEntry hf'
      exact ⟨F, hF⟩
    · rintro e l s T F ⟨R', hp, hI, hf'⟩ hT hF -
      have hn := (S.closing_tidy hI).name_of_get? hf' hF
      exact ⟨e :: R', List.perm_middle.trans hp, S.unlinkKeep hI hT hF (hn ▸ hf'), hf'⟩
    · rintro e l s T F ⟨R', hp, hI, hf'⟩ hT hF hnil
      have hn := (S.closing_tidy hI).name_of_get? hf' hF
      exact ⟨(S.closing_tidy hI).tagsUnique, e :: R', List.perm_middle.trans hp,
        S.unlinkDrop hI hT hF (hn ▸ hf') hnil, hf'⟩
    · rintro ⟨res, s'⟩ ⟨-, R', hp, hI, -⟩
      exact S.closing_perm hI hp

theorem tagMkdir (h : D.opening [] R s) (userPath : CStr) :
    Sat E (Fuse.tagMkdir s userPath) fun r => D.opening [] R r.2 := by
  obtain ⟨r, -, hrun⟩ | ⟨t, T, -, hk, hT, -, hrun⟩ | ⟨-, hk, hrun⟩ :=
    tagMkdir_cases (S.tidy h).toTyped userPath
  · rw [hrun]
    exact h
  · rw [hrun]
    exact S.use h hk hT
  · rw [hrun]
    exact S.createUsed h hk

end Discipline.Sound

end TagFilesystem.Fuse
