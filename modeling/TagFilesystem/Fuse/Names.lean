import TagFilesystem.Fuse.Comments
import TagFilesystem.Fuse.FailedLink
import TagFilesystem.Fuse.Rename

namespace TagFilesystem.Fuse

variable {env : Env} {s s' : Store} {t : TagId} {T T' : Tag} {f : FileId} {F F' : File} {k n : CStr}
  {ks : List CStr} {sel : HashTable TagId} {e : CStr × TagId} {K : CStr → Prop}
  {R : CStr → CStr → Prop}

/-- Tags in use have names in `K`, and a file named `n` has a tag named `k` only if `R n k`. -/
structure Store.Named (K : CStr → Prop) (R : CStr → CStr → Prop) (s : Store) : Prop
    extends s.Tidy where
  used : ∀ {t T}, s.tagHeap.get? t = some T → T.inUse = true → K T.value
  carries : ∀ {n k}, s.Carries n k → R n k

theorem named_init : Store.init.Named K R where
  toTidy := tidy_init
  used hT := by cases hT
  carries := by
    rintro n k ⟨f, hn, -⟩
    cases hn

namespace Store.Named

theorem mono {R' : CStr → CStr → Prop} (h : s.Named K R) (hR : ∀ n k, R n k → R' n k) :
    s.Named K R' where
  toTidy := h.toTidy
  used := h.used
  carries hcar := hR _ _ (h.carries hcar)

theorem setDescriptors (h : s.Named K R) (fds : Table Addr FileDescriptor) :
    Store.Named K R { s with fds := fds } where
  toTidy := h.toTidy.setDescriptors fds
  used := h.used
  carries := h.carries

theorem setLeaked (h : s.Named K R) (leaked : Table Addr Path) :
    Store.Named K R { s with leaked := leaked } where
  toTidy := h.toTidy.setLeaked leaked
  used := h.used
  carries := h.carries

theorem touchFile (h : s.Named K R) (hF : s.fileHeap.get? f = some F) (hn : F'.name = F.name)
    (ht : F'.tags = F.tags) : (s.writeFile f F').Named K R where
  toTidy := h.toTidy.writeFile hF hn (ht ▸ h.fileTagsUnique hF)
  used := h.used
  carries := by
    rintro n k ⟨f', hf', t, htag⟩
    exact h.carries ⟨f', hf', t, (tagged_touchFile hF ht).mp htag⟩

/-- Writing a tag object: it may be put in use under a name in `K`. -/
theorem used_writeTag (h : s.Named K R) {t' : TagId} {T₁ : Tag}
    (h₁ : (s.tagHeap.write t T').get? t' = some T₁) (hu₁ : T₁.inUse = true)
    (hT : s.tagHeap.get? t = some T) (hv : T'.value = T.value)
    (hu : T'.inUse = true → T.inUse = true ∨ K T.value) : K T₁.value := by
  obtain ⟨-, rfl⟩ | ⟨-, h₁⟩ := Heap.get?_write_cases h₁
  · rw [hv]
    exact (hu hu₁).elim (h.used hT) id
  · exact h.used h₁ hu₁

theorem reference (h : s.Named K R) (hT : s.tagHeap.get? t = some T) (r : ℤ) :
    (s.writeTag t { T with refCount := r }).Named K R where
  toTidy := h.toTidy.touchTag hT rfl rfl id
  used h₁ hu₁ := h.used_writeTag h₁ hu₁ hT rfl .inl
  carries := h.carries

theorem use (h : s.Named K R) (hT : s.tagHeap.get? t = some T) (hK : K T.value) :
    (s.writeTag t { T with inUse := true }).Named K R where
  toTidy := h.toTidy.touchTag hT rfl rfl fun _ => rfl
  used h₁ hu₁ := h.used_writeTag h₁ hu₁ hT rfl fun _ => .inr hK
  carries := h.carries

theorem createUsed (h : s.Named K R) (hk : s.tags.get? k = none) (hK : K k) :
    (s.registerTag { tagNew k true with refCount := 1 }).Named K R where
  toTidy := h.toTidy.registerTag (T := { tagNew k true with refCount := 1 }) hk rfl
  used {t T} hT hu := by
    obtain ⟨-, rfl⟩ | ⟨-, hT⟩ := Heap.get?_alloc_cases hT
    · exact hK
    · exact h.used hT hu
  carries := h.carries

theorem attach (h : s.Named K R) (hT : s.tagHeap.get? t = some T) (hF : s.fileHeap.get? f = some F)
    (hn : s.files.get? F.name = some f) (hK : K T.value) (hR : R F.name T.value) :
    (s.attach env t T f F).Named K R where
  toTidy := h.toTidy.attach hT hF hn
  used h₁ hu₁ := h.used_writeTag h₁ hu₁ hT rfl fun _ => .inr hK
  carries := by
    rintro n k ⟨f', hf', t', htag⟩
    change (s.writeFile f _).Tagged f' k t' at htag
    rw [tagged_writeFile hF] at htag
    split_ifs at htag with hf
    · subst hf
      rw [← h.name_of_get? hf' hF]
      rw [Table.get?_addNew] at htag
      split_ifs at htag with hk
      · exact hk ▸ hR
      · exact h.carries ⟨f', hn, t', F, hF, htag⟩
    · exact h.carries ⟨f', hf', t', htag⟩

theorem detach (h : s.Named K fun n k => R n k ∨ n = F.name ∧ k = T.value)
    (hT : s.tagHeap.get? t = some T) (hF : s.fileHeap.get? f = some F)
    (hn : s.files.get? F.name = some f) : (s.detach env t T f F).Named K R where
  toTidy := h.toTidy.detach hT hF
  used h₁ hu₁ := h.used_writeTag h₁ hu₁ hT rfl .inl
  carries {n k} hcar := by
    have hlost : (s.detach env t T f F).Carries n k ↔ s.Carries n k ∧ ¬(n = F.name ∧ k = T.value) :=
      carries_lost (C := fun k => k = T.value) h.toTyped rfl
        (fun _ _ _ => tagged_detach hF (h.fileTagsUnique hF)) hn
    obtain ⟨hcar, hno⟩ := hlost.mp hcar
    exact (h.carries hcar).resolve_right hno

theorem dropTag (h : s.Named K R) (hT : s.tagHeap.get? t = some T) :
    (s.dropTag t T).Named K R where
  toTidy := h.toTidy.dropTag hT
  used {t' T₁} h₁ hu := by
    unfold Store.dropTag at h₁
    dsimp only at h₁
    split_ifs at h₁
    · exact h.used (Heap.of_get?_free h₁).2 hu
    · exact h.used_writeTag h₁ hu hT rfl .inl
  carries := h.carries

end Store.Named

theorem Made.named (hm : Made s ks sel s') (h : s.Named K R) : s'.Named K R where
  toTidy := hm.tidy h.toTidy
  used {t T} hT hu := by
    cases hold : s.tagHeap.get? t with
    | none => exact absurd ((hm.new hT hold).2.1.symm.trans hu) (by decide)
    | some T₀ =>
      rw [hm.old hold] at hT
      cases hT
      exact h.used (T := T₀) hold hu
  carries hcar := h.carries (hm.carries.mp hcar)

theorem named_fileGetOrCreate (h : s.Named K R) : (fileGetOrCreate s n).2.Named K R where
  toTidy := tidy_fileGetOrCreate h.toTidy
  used hT hu := h.used (by simpa using hT) hu
  carries hcar := h.carries (carries_fileGetOrCreate.mp hcar)

theorem named_getattrStore {p : Path} (h : s.Named K R) : (getattrStore env s p).Named K R where
  toTidy := tidy_getattrStore h.toTidy
  used hT hu := h.used (by simpa using hT) hu
  carries hcar := h.carries (carries_getattrStore.mp hcar)

/-- `getattr_intra` makes the record of a regular file, whatever it returns. -/
theorem returns_getattrStore (p : Path) :
    Returns (getattrIntra env s p) fun r => r.2.2 = getattrStore env s p := by
  unfold getattrIntra
  cases hst : env.stat p.realpath with
  | none =>
    have hs : getattrStore env s p = s := by simp [getattrStore, Env.regular, hst]
    exact hs.symm
  | some st =>
    dsimp only
    by_cases hdir : st.isDir = true
    · have hs : getattrStore env s p = s := by simp [getattrStore, Env.regular, hst, hdir]
      rw [if_pos hdir, hs]
      rfl
    · have hs : getattrStore env s p = (fileGetOrCreate s p.filename).2 := by
        simp [getattrStore, Env.regular, hst, hdir]
      rw [if_neg hdir, hs]
      split_ifs
      · exact (returns_true _).bind fun b _ => rfl
      · rfl
      · rfl

namespace Store.Named

theorem pathDelete (h : s.Named K R) (p : Path) :
    Returns (Fuse.pathDelete env s p) (Store.Named K R) := by
  refine sat_freeSelectedTags (fun _ s => s.Named K R) ?_ ?_ ?_ h
  · intro _ _ _ _ _
    trivial
  · intro _ _ _ _ hI _ _
    exact hI
  · intro e l s T hI hT hu
    exact ⟨hI.tagsUnique, hI.idle hT hu, hI.dropTag hT⟩

theorem pathDelete_both {m : Except Fault (ℤ × Store)} (p q : Path)
    (h : Returns m fun r => r.2.Named K R) :
    Returns (m >>= fun r => do
      let s ← Fuse.pathDelete env r.2 p
      let s ← Fuse.pathDelete env s q
      .ok (r.1, s)) fun r => r.2.Named K R :=
  h.bind fun _ hr => (hr.pathDelete p).bind fun _ hs => (hs.pathDelete q).bind fun _ hs' => hs'

theorem pathUnlink (h : s.Named K R) (p : Path) :
    Returns (Fuse.pathUnlink env s p) fun r => r.2.Named K R := by
  cases hf : s.files.get? p.filename with
  | none =>
    simp only [Fuse.pathUnlink, fileGet, hf]
    exact h
  | some f =>
    refine (sat_pathUnlink hf (fun _ s => s.Named K R ∧ s.files.get? p.filename = some f)
      ?_ ?_ ?_ ?_ ⟨h, hf⟩).mono fun r hr => hr.2.1
    · intro _ _ _ _ _
      trivial
    · intro l s hI
      obtain ⟨F, hF, -⟩ := hI.1.fileEntry hI.2
      exact ⟨F, hF⟩
    · intro e l s T F hI hT hF _
      have hn := hI.1.name_of_get? hI.2 hF
      exact ⟨(hI.1.mono fun _ _ => .inl).detach hT hF (hn ▸ hI.2), hI.2⟩
    · intro e l s T F hI hT hF _
      have hn := hI.1.name_of_get? hI.2 hF
      have hd : (s.detach env e.2 T f F).Named K R :=
        (hI.1.mono fun _ _ => .inl).detach hT hF (hn ▸ hI.2)
      exact ⟨hI.1.tagsUnique, hd.dropTag (Store.detach_get?_self hT), hI.2⟩

theorem getattrIntra (h : s.Named K R) (p : Path) :
    Returns (Fuse.getattrIntra env s p) fun r => r.2.2.Named K R :=
  (returns_getattrStore p).mono fun _ hr => hr ▸ named_getattrStore h

theorem pathCreate (h : s.Named K R) (userPath : CStr) (isTag : Bool) :
    Returns (Fuse.pathCreate env s userPath isTag) fun r => r.2.Named K R :=
  (sat_pathCreate h.toTyped userPath isTag).mono fun _ hr => hr.2.named h

theorem fileAddDescriptor (h : s.Named K R) (f : Option FileId) (a : Addr) :
    Returns (Fuse.fileAddDescriptor s f a) (Store.Named K R) := by
  cases f with
  | none => trivial
  | some f => exact sat_bind.mpr (sat_readFile (fun _ => trivial) fun F hF => h.touchFile hF rfl rfl)

theorem tagGetattr (h : s.Named K R) (userPath : CStr) :
    Returns (Fuse.tagGetattr env s userPath) fun r => r.2.2.Named K R := by
  refine (h.pathCreate userPath false).bind fun r hr => ?_
  refine (hr.getattrIntra r.1).bind fun q hq => ?_
  exact (hq.pathDelete r.1).bind fun s' hs' => hs'

theorem tagGetxattr (h : s.Named K R) (userPath name : CStr) (size : ℕ) :
    Returns (Fuse.tagGetxattr env s userPath name size) fun r => r.2.2.Named K R := by
  unfold Fuse.tagGetxattr
  split_ifs
  · refine (h.pathCreate userPath false).bind fun r hr => ?_
    refine (hr.getattrIntra r.1).bind fun q hq => ?_
    dsimp only
    split_ifs
    · exact (hq.pathDelete r.1).bind fun s' hs' => hs'
    · exact (hq.pathDelete r.1).bind fun s' hs' => hs'
    · refine (returns_true _).bind fun str _ => ?_
      exact ((named_fileGetOrCreate hq).pathDelete r.1).bind fun s' hs' => hs'
  · exact h
  · exact h

theorem tagOpen (h : s.Named K R) (userPath : CStr) (m : Malloc) (flags : ℤ) (isTag : Bool) :
    Returns (Fuse.tagOpen env s userPath m flags isTag) fun r => r.2.Named K R := by
  refine (h.pathCreate userPath isTag).bind fun r hr => ?_
  obtain ⟨path, s₁⟩ := r
  refine Sat.bind (P := fun q : Except ℤ Addr × Store => q.2.Named K R) ?_ fun q hq => ?_
  · unfold Fuse.fdOpen
    cases (if isTag = true then .ok (-1) else env.openFile path.realpath flags) with
    | error e => exact hr
    | ok fh =>
      refine (returns_true _).bind fun tag _ => ?_
      cases tag with
      | error e => exact hr
      | ok tag =>
        cases m.fd with
        | none => exact hr
        | some a =>
          dsimp only
          split_ifs
          · exact hr.setDescriptors _
          · exact (hr.fileAddDescriptor _ a).bind fun s' hs' => hs'.setDescriptors _
  · obtain ⟨fd, s₂⟩ := q
    cases fd with
    | error e => exact hq.setLeaked _
    | ok a => exact hq

theorem tagReleaseGeneric (h : s.Named K R) (a : Addr) :
    Returns (Fuse.tagReleaseGeneric env s a) fun r => r.2.Named K R := by
  refine sat_bind.mpr (sat_readFd trivial fun fd _ => ?_)
  refine (h.pathDelete fd.path).bind fun s₁ hs₁ => ?_
  dsimp only
  split_ifs
  · exact hs₁.setDescriptors _
  · refine Sat.bind (P := Store.Named K R) ?_ fun s' hs' => hs'.setDescriptors _
    cases fd.file with
    | none => trivial
    | some f => exact sat_bind.mpr (sat_readFile (fun _ => trivial) fun F hF => hs₁.touchFile hF rfl rfl)

theorem tagReaddir (h : s.Named K R) (a : Addr) :
    Returns (Fuse.tagReaddir env s a) fun r => r.2.Named K R := by
  refine sat_bind.mpr (sat_readFd trivial fun fd _ => ?_)
  have hfiles : Returns (readdirListFiles env s fd.path) fun r => r.2.Named K R := by
    refine sat_forEach_mem (I := fun r : List CStr × Store => r.2.Named K R) (fun d _ r hr => ?_) h
    split_ifs
    · exact hr
    · exact (hr.getattrIntra _).bind fun q hq => hq
  dsimp only
  split_ifs
  · exact (returns_true _).bind fun tags _ => hfiles.bind fun r hr => hr
  · exact (returns_true _).bind fun tags _ => hfiles.bind fun r hr => hr

theorem tagUnlink (h : s.Named K R) (userPath : CStr) :
    Returns (Fuse.tagUnlink env s userPath) fun r => r.2.Named K R := by
  unfold Fuse.tagUnlink
  split_ifs
  · exact h
  refine (h.pathCreate userPath false).bind fun r hr => ?_
  refine (hr.pathUnlink r.1).bind fun q hq => ?_
  exact (hq.pathDelete r.1).bind fun s' hs' => hs'

theorem tagPoll (h : s.Named K R) (a : Addr) (ph : Option PollHandle) :
    Returns (Fuse.tagPoll s a ph) fun r => r.2.Named K R := by
  refine sat_bind.mpr (sat_readFd trivial fun fd _ => ?_)
  cases fd.file with
  | none => trivial
  | some f =>
    refine sat_bind.mpr (sat_readFile (fun _ => trivial) fun F hF => ?_)
    exact (h.setDescriptors _).touchFile hF rfl rfl

end Store.Named

/-- An object of this name is live. -/
def Store.Live (s : Store) (e : CStr × TagId) : Prop :=
  ∃ T, s.tagHeap.get? e.2 = some T ∧ T.value = e.1

theorem live_writeTag {T₀ : Tag} (h : s.Live e) (hT : s.tagHeap.get? t = some T₀)
    (hv : T.value = T₀.value) : (s.writeTag t T).Live e := by
  obtain ⟨T₁, h₁, hv₁⟩ := h
  by_cases ht : e.2 = t
  · rw [ht, hT] at h₁
    cases h₁
    exact ⟨T, by rw [Store.writeTag_tagHeap, ht, Heap.get?_write_self hT], hv.trans hv₁⟩
  · exact ⟨T₁, by rw [Store.writeTag_tagHeap, Heap.get?_write_ne ht, h₁], hv₁⟩

theorem Store.Named.pathLink {ffrom fto : Path} (h : s.Named K R) (hfrom : ∀ e ∈ ffrom.held, s.Live e)
    (hto : ∀ e ∈ fto.held, s.Live e)
    (hok : Accepts env s ffrom → ∀ e ∈ fto.held, K e.1 ∧ R ffrom.filename e.1) :
    Returns (Fuse.pathLink env s ffrom fto) fun r => r.2.Named K R := by
  apply (sat_getattrIntra h.toTyped hfrom).bind
  rintro ⟨res, st, s₁⟩ ⟨rfl, hres⟩
  dsimp only at hres ⊢
  split_ifs with hneg
  · exact named_getattrStore h
  have hacc := hok (hres.resolve_right (by omega)).2
  have hlink : (linkStore env s ffrom).Named K R := named_fileGetOrCreate (named_getattrStore h)
  have hn : (linkStore env s ffrom).files.get? ffrom.filename = some _ := fileGetOrCreate_get?
  have hlive : ∀ e ∈ fto.held, (linkStore env s ffrom).Live e := by simpa [Store.Live] using hto
  refine (sat_linkLoop (fun l s₁ => (∀ e ∈ l, e ∈ fto.held) ∧ s₁.Named K R ∧
    s₁.files.get? ffrom.filename = some _ ∧ ∀ e ∈ fto.held, s₁.Live e) ?_ ?_ ?_
    ⟨fun _ he => he, hlink, hn, hlive⟩).bind fun s' hs' => hs'.2.1
  · intro _ _ _ _ _
    trivial
  · rintro l s₁ ⟨-, hs₁, hn₁, -⟩
    obtain ⟨F, hF, -⟩ := hs₁.fileEntry hn₁
    exact ⟨F, hF⟩
  · rintro e l s₁ T F ⟨hl, hs₁, hn₁, hlive₁⟩ hT hF
    have he : e ∈ fto.held := hl e List.mem_cons_self
    have hname := hs₁.name_of_get? hn₁ hF
    obtain ⟨T₁, hT₁, hv⟩ := hlive₁ e he
    cases hT.symm.trans hT₁
    refine ⟨fun e' he' => hl e' (List.mem_cons_of_mem e he'),
      hs₁.attach hT hF (hname ▸ hn₁) (hv ▸ (hacc e he).1) (by rw [hv, hname]; exact (hacc e he).2),
      hn₁, fun e' he' => ?_⟩
    exact live_writeTag (s := s₁.writeFile _ _) (hlive₁ e' he') hT rfl

/-- `getattr` finds the file, with all tags of its path. -/
def Accepted (env : Env) (s : Store) (userPath : CStr) : Prop :=
  if env.regular (pathRealpath env userPath) = true then
    ∀ k ∈ components (dirname userPath), s.Carries (basename userPath) k
  else (env.stat env.realdirpath).isSome = true

theorem accepts_iff {p : Path} {userPath : CStr} (hp : p = pathOf env userPath p.selectedTags)
    (hk : p.selectedTags.keys = components (dirname userPath))
    (hcar : ∀ n k, s'.Carries n k ↔ s.Carries n k) : Accepts env s' p ↔ Accepted env s userPath := by
  have hreal : p.realpath = pathRealpath env userPath := congrArg Path.realpath hp
  have hname : p.filename = basename userPath := congrArg Path.filename hp
  simp only [Accepts, Accepted, hreal, hname, hcar, ← hk, Table.keys, List.forall_mem_map, Path.held]

theorem Store.Named.pathUnlink_single {p : Path} {d : CStr}
    (h : s.Named K fun n k => R n k ∨ n = p.filename ∧ k = d) (hp : p.held = [(d, t)])
    (hlive : s.Live (d, t)) (hn : s.files.get? p.filename = some f) :
    Returns (Fuse.pathUnlink env s p) fun r => r.2.Named K R := by
  -- the file loses the tag in the only round of the loop
  have hdetach {e : CStr × TagId} {l : Held} {s₁ : Store} {T : Tag} {F : File}
      (hn₁ : s₁.files.get? p.filename = some f)
      (hI : e :: l = [(d, t)] ∧ s₁.Live (d, t) ∧
        s₁.Named K (fun n k => R n k ∨ n = p.filename ∧ k = d) ∨ e :: l = [] ∧ s₁.Named K R)
      (hT : s₁.tagHeap.get? e.2 = some T) (hF : s₁.fileHeap.get? f = some F) :
      l = [] ∧ s₁.tags.Unique ∧ (s₁.detach env e.2 T f F).Named K R := by
    obtain ⟨hl, ⟨T₁, hT₁, hv⟩, hs₁⟩ := hI.resolve_right fun hno => List.cons_ne_nil _ _ hno.1
    obtain ⟨rfl, rfl⟩ := List.cons.inj hl
    cases hT.symm.trans hT₁
    have hname := hs₁.name_of_get? hn₁ hF
    exact ⟨rfl, hs₁.tagsUnique, (by rw [hname, hv]; exact hs₁ : s₁.Named K fun n k =>
      R n k ∨ n = F.name ∧ k = T.value).detach hT hF (hname ▸ hn₁)⟩
  refine (sat_pathUnlink hn (fun l s₁ => s₁.files.get? p.filename = some f ∧
    (l = [(d, t)] ∧ s₁.Live (d, t) ∧ s₁.Named K (fun n k => R n k ∨ n = p.filename ∧ k = d) ∨
      l = [] ∧ s₁.Named K R)) ?_ ?_ ?_ ?_ ⟨hn, .inl ⟨hp, hlive, h⟩⟩).mono ?_
  · intro _ _ _ _ _
    trivial
  · rintro l s₁ ⟨hn₁, hI⟩
    have ht₁ : s₁.Typed := hI.elim (fun h' => h'.2.2.toTyped) fun h' => h'.2.toTyped
    obtain ⟨F, hF, -⟩ := ht₁.fileEntry hn₁
    exact ⟨F, hF⟩
  · rintro e l s₁ T F ⟨hn₁, hI⟩ hT hF -
    obtain ⟨hl, -, hd⟩ := hdetach hn₁ hI hT hF
    exact ⟨hn₁, .inr ⟨hl, hd⟩⟩
  · rintro e l s₁ T F ⟨hn₁, hI⟩ hT hF -
    obtain ⟨hl, hu, hd⟩ := hdetach hn₁ hI hT hF
    exact ⟨hu, hn₁, .inr ⟨hl, hd.dropTag (Store.detach_get?_self hT)⟩⟩
  · rintro r ⟨-, -, ⟨hl, -⟩ | ⟨-, hs₁⟩⟩
    · cases hl
    · exact hs₁

section

variable {src dst : CStr} (h : s.Named K R)
include h

theorem Store.Named.tagLink
    (hdir : getCharacterCount (dirname dst) slash ≤ 1 → K (basename (dirname dst)))
    (hok : Accepted env s src → ∀ k ∈ components (dirname dst), K k ∧ R (basename src) k) :
    Returns (Fuse.tagLink env s src dst) fun r => r.2.Named K R := by
  apply (sat_pathCreate h.toTyped src false).bind
  rintro ⟨ffrom, s₁⟩ ⟨hfrom, hm₁⟩
  apply (sat_pathCreate hm₁.typed dst false).bind
  rintro ⟨fto, s₂⟩ ⟨hto, hm₂⟩
  dsimp only at hfrom hm₁ hto hm₂ ⊢
  have hs₂ : s₂.Named K R := hm₂.named (hm₁.named h)
  have hlive (e) (he : e ∈ ffrom.held ++ fto.held) : s₂.Live e :=
    hm₂.typed.tagEntry ((hm₁.trans hm₂).entry he)
  have hvirt : fto.virtdirpath = dirname dst := congrArg Path.virtdirpath hto
  have hcar (n k : CStr) : s₂.Carries n k ↔ s.Carries n k := hm₂.carries.trans hm₁.carries
  -- what `tag_mkdir` leaves is named, and the paths hold what they held
  refine Sat.bind (P := fun r : ℤ × Store => r.2.Named K R ∧
    (∀ e ∈ ffrom.held ++ fto.held, r.2.Live e) ∧ ∀ n k, r.2.Carries n k ↔ s.Carries n k) ?_ ?_
  · obtain ⟨r, -, hrun⟩ | ⟨t, T, hc, hk, hT, -, hrun⟩ | ⟨hc, hk, hrun⟩ :=
      tagMkdir_cases hs₂.toTyped fto.virtdirpath
    · rw [hrun]
      exact ⟨hs₂, hlive, hcar⟩
    · rw [hrun]
      have hK : K T.value := by
        rw [hs₂.value_of_get? hk hT, hvirt]
        exact hdir (hvirt ▸ hc)
      exact ⟨hs₂.use hT hK, fun e he => live_writeTag (hlive e he) hT rfl, hcar⟩
    · rw [hrun]
      have hK : K (basename fto.virtdirpath) := by
        rw [hvirt]
        exact hdir (hvirt ▸ hc)
      refine ⟨hs₂.createUsed hk hK, fun e he => ?_, hcar⟩
      obtain ⟨T, hT, hv⟩ := hlive e he
      exact ⟨T, Heap.get?_alloc_of_some hT, hv⟩
  · rintro ⟨_, s₃⟩ ⟨hs₃, hlive₃, hcar₃⟩
    dsimp only at hs₃ hlive₃ hcar₃ ⊢
    have hname : ffrom.filename = basename src := congrArg Path.filename hfrom
    refine pathDelete_both ffrom fto
      (hs₃.pathLink (fun e he => hlive₃ e (List.mem_append_left _ he))
        (fun e he => hlive₃ e (List.mem_append_right _ he)) fun hacc e he => ?_)
    rw [hname]
    exact hok ((accepts_iff hfrom hm₁.keys hcar₃).mp hacc) e.1 (hm₂.mem_iff.mp ⟨e.2, he⟩)

/-- `rename` gives the file the tag of its new directory; if it is the tag of the old one, the file
loses it again. -/
theorem Store.Named.tagRename
    (hok : ∀ a d, components (dirname src) = [a] → components (dirname dst) = [d] →
      Accepted env s src → K d ∧ (a ≠ d → R (basename src) d)) :
    Returns (Fuse.tagRename env s src dst) fun r => r.2.Named K R := by
  apply (sat_pathCreate h.toTyped src false).bind
  rintro ⟨ffrom, s₁⟩ ⟨hfrom, hm₁⟩
  apply (sat_pathCreate hm₁.typed dst false).bind
  rintro ⟨fto, s₂⟩ ⟨hto, hm₂⟩
  dsimp only at hfrom hm₁ hto hm₂ ⊢
  have hs₂ : s₂.Named K R := hm₂.named (hm₁.named h)
  have hname : ffrom.filename = basename src := congrArg Path.filename hfrom
  have hlive (e) (he : e ∈ ffrom.held ++ fto.held) : s₂.Live e :=
    hm₂.typed.tagEntry ((hm₁.trans hm₂).entry he)
  have hacc : Accepts env s₂ ffrom ↔ Accepted env s src :=
    accepts_iff hfrom hm₁.keys fun n k => hm₂.carries.trans hm₁.carries
  split_ifs with hsize
  · exact pathDelete_both ffrom fto hs₂
  rw [not_or, not_not, not_not] at hsize
  obtain ⟨⟨a, ta⟩, ha⟩ := List.length_eq_one_iff.mp hsize.1
  obtain ⟨⟨d, td⟩, hd⟩ := List.length_eq_one_iff.mp hsize.2
  have hpa : ffrom.held = [(a, ta)] := ha
  have hpd : fto.held = [(d, td)] := hd
  have hsrc : components (dirname src) = [a] := by
    refine Eq.trans hm₁.keys.symm ?_
    rw [Table.keys, ha]
    rfl
  have hdst : components (dirname dst) = [d] := by
    refine Eq.trans hm₂.keys.symm ?_
    rw [Table.keys, hd]
    rfl
  have hfromlive : ∀ e ∈ ffrom.held, s₂.Live e := fun e he => hlive e (List.mem_append_left _ he)
  have htolive : ∀ e ∈ fto.held, s₂.Live e := fun e he => hlive e (List.mem_append_right _ he)
  by_cases had : a = d
  · subst had
    have hlink : Returns (Fuse.pathLink env s₂ ffrom fto) fun r =>
        r.2.Named K fun n k => R n k ∨ n = ffrom.filename ∧ k = a := by
      refine (hs₂.mono fun _ _ => .inl).pathLink hfromlive htolive fun hyes e he => ?_
      rw [hpd, List.mem_singleton] at he
      rw [he]
      exact ⟨(hok a a hsrc hdst (hacc.mp hyes)).1, .inr ⟨rfl, rfl⟩⟩
    refine (hlink.and (sat_pathLink hs₂.toTyped hfromlive fun e he =>
      (htolive e he).imp fun _ => And.left)).bind ?_
    rintro ⟨res, s₃⟩ ⟨hs₃, ⟨-, -, rfl⟩ | ⟨-, -, hatt⟩⟩
    · exact ((named_getattrStore hs₂).pathUnlink ffrom).bind fun _ hr => pathDelete_both ffrom fto hr
    · have hn₃ : s₃.files.get? ffrom.filename = some _ := hatt.files ▸ fileGetOrCreate_get?
      obtain ⟨T, hT, hv⟩ := hfromlive (a, ta) (by simp [hpa])
      obtain ⟨T₃, hT₃, hv₃, -⟩ := hatt.tag (t := ta) (T := T) (by simpa using hT)
      exact (hs₃.pathUnlink_single hpa ⟨T₃, hT₃, hv₃.trans hv⟩ hn₃).bind fun _ hr =>
        pathDelete_both ffrom fto hr
  · refine (hs₂.pathLink hfromlive htolive fun hyes e he => ?_).bind fun r hr =>
      (hr.pathUnlink ffrom).bind fun _ hq => pathDelete_both ffrom fto hq
    rw [hpd, List.mem_singleton] at he
    rw [he, hname]
    exact (hok a d hsrc hdst (hacc.mp hyes)).imp_right fun hR => hR had

end

/-- The names that an event puts in use are in `K`, and the tags that it gives to a file are allowed
for that file. -/
def Admits (K : CStr → Prop) (R : CStr → CStr → Prop) (s : Store) (e : Event) : Prop :=
  match e.callback with
  | .link p q =>
    (getCharacterCount (dirname q) slash ≤ 1 → K (basename (dirname q))) ∧
      (Accepted e.env s p → ∀ k ∈ components (dirname q), K k ∧ R (basename p) k)
  | .rename p q => ∀ a d, components (dirname p) = [a] → components (dirname q) = [d] →
      Accepted e.env s p → K d ∧ (a ≠ d → R (basename p) d)
  | _ => True

theorem Store.Named.step (h : s.Named K R) {e : Event} (hp : Admits K R s e) :
    Returns (Fuse.step s e) (Store.Named K R) := by
  obtain ⟨env, c⟩ := e
  cases c with
  | getattr p => exact sat_map.mpr (h.tagGetattr p)
  | fgetattr a =>
    exact sat_map.mpr (sat_bind.mpr (sat_readFd trivial fun fd _ => h.getattrIntra fd.path))
  | getxattr p name size => exact sat_map.mpr (h.tagGetxattr p name size)
  | openFile p flags m | opendir p flags m =>
    simp only [Fuse.step, openChecked]
    split_ifs
    · exact sat_map.mpr (h.tagOpen p m flags _)
    · trivial
  | release a => exact sat_map.mpr (h.tagReleaseGeneric a)
  | readdir a => exact sat_map.mpr (h.tagReaddir a)
  | read a len off => exact sat_map.mpr ((returns_true _).mono fun _ _ => h)
  | write a buffer off => exact sat_map.mpr ((returns_true _).mono fun _ _ => h)
  | link p q => exact sat_map.mpr (h.tagLink hp.1 hp.2)
  | unlink p => exact sat_map.mpr (h.tagUnlink p)
  | rename p q => exact sat_map.mpr (h.tagRename hp)
  | ioctl a readTags compat => exact sat_map.mpr ((returns_true _).mono fun _ _ => h)
  | poll a ph => exact sat_map.mpr (h.tagPoll a ph)
  | setxattr _ | rmdir _ | mkdir _ | mknod _ _ _ | truncate _ _ | chmod _ _ | chown _ _ _ | utime _ =>
    exact h

theorem Store.Named.parseTag {N : CStr → Prop} {cur : Option FileId} {word : CStr}
    (h : s.Named K fun n _ => N n) (hword : copyWordUntil word newline = k) (hk : k ≠ []) (hK : K k)
    (hcur : ∀ f, cur = some f → ∃ n, s.files.get? n = some f ∧ N n) :
    Returns (Fuse.parseTag env s cur word) fun s' =>
      (s'.Named K fun n _ => N n) ∧ s'.files = s.files := by
  simp only [Fuse.parseTag, hword, if_neg hk]
  refine Sat.bind (P := fun r : TagId × Store => (r.2.Named K fun n _ => N n) ∧
    r.2.tags.get? k = some r.1 ∧ r.2.files = s.files) ?_ ?_
  · cases hreg : s.tags.get? k with
    | some t =>
      obtain ⟨T, hT, -⟩ := h.tagEntry hreg
      rw [tagGetOrCreate_some hreg hT]
      exact ⟨h.reference hT _, hreg, rfl⟩
    | none =>
      rw [tagGetOrCreate_none hreg]
      exact ⟨h.createUsed hreg hK, Table.get?_add_self, rfl⟩
  · rintro ⟨t, s₁⟩ ⟨hs₁, hk₁, hfiles⟩
    cases cur with
    | none => exact ⟨hs₁, hfiles⟩
    | some f =>
      obtain ⟨n, hn, hN⟩ := hcur f rfl
      have hn₁ : s₁.files.get? n = some f := hfiles ▸ hn
      obtain ⟨T, hT, hv⟩ := hs₁.tagEntry hk₁
      obtain ⟨F, hF, hname⟩ := hs₁.fileEntry hn₁
      dsimp only
      rw [tagFile_eq hT hF]
      exact ⟨hs₁.attach hT hF (hname ▸ hn₁) (hv ▸ hK) (hname ▸ hN), hfiles⟩

/-- The store built from a database whose lines name tags in `K` only, and stand below headers of
files in `N`. -/
theorem named_of_setRootDirectory {N : CStr → Prop} {file : Option CStr}
    (hfile : ∀ text, file = some text →
      (∀ k, .tag k ∈ (fgets maxLength text).map entryOf → K k) ∧
        ∀ n k, Relates (fun _ => 0) ((fgets maxLength text).map entryOf) n k → N n) :
    Returns (setRootDirectory env file) (Store.Named K fun n _ => N n) := by
  cases file with
  | none => exact named_init
  | some text =>
    obtain ⟨hK, hN⟩ := hfile text rfl
    refine (sat_forEach_visited (fun (ws : List CStr) (r : Option FileId × Store) =>
      (r.2.Named K fun n _ => N n) ∧ ∀ f, r.1 = some f → ∃ n, r.2.files.get? n = some f ∧
        currentFile (fun _ => 0) (ws.map entryOf) = some n) ?_
      ⟨named_init, by simp⟩).bind fun r hr => hr.1
    rintro ws₀ w ws₁ ⟨cur, s⟩ hws ⟨hs, hcur⟩
    rw [List.map_append, List.map_singleton, currentFile_append]
    cases he : entryOf w with
    | nothing =>
      rw [parseLine_nothing he]
      exact ⟨hs, hcur⟩
    | file n =>
      rw [parseLine_file he]
      refine Sat.bind (P := fun r : ℤ × Store => r.2.Named K fun n _ => N n)
        (sat_map.mpr (hs.tagGetattr n)) fun r hr => ?_
      split_ifs
      · refine ⟨named_fileGetOrCreate hr, ?_⟩
        rintro f ⟨⟩
        exact ⟨n, fileGetOrCreate_get?, rfl⟩
      · exact ⟨hr, by simp⟩
    | tag k =>
      have hes : (fgets maxLength text).map entryOf =
          ws₀.map entryOf ++ .tag k :: ws₁.map entryOf := by
        rw [← hws, List.map_append, List.map_cons, he]
      have hk' : K k := hK k (by rw [hes]; exact List.mem_append_right _ List.mem_cons_self)
      obtain ⟨hk, word, hword, hline⟩ := parseLine_tag (s := s) he
      rw [hline]
      refine (hs.parseTag hword hk hk' fun f hf => ?_).bind ?_
      · obtain ⟨n, hn, hname⟩ := hcur f hf
        exact ⟨n, hn, hN n k ⟨_, _, hes, hname⟩⟩
      · rintro s' ⟨hs', hfiles⟩
        exact ⟨hs', hfiles ▸ hcur⟩

theorem named_of_reaches {s₀ : Store} (h₀ : s₀.Named K R) (h : Reaches step (Admits K R) s₀ s) :
    s.Named K R :=
  h.invariant h₀ fun _ _ _ hI hp he => (hI.step hp).of_ok he

end TagFilesystem.Fuse
