import TagFilesystem.Fuse.Getattr

namespace TagFilesystem.Fuse

variable {env : Env} {s s' : Store} {t : TagId} {f : FileId} {n : CStr}

/-- The open descriptors and the paths that failed opens have left behind are the same. -/
def SameOpen (s s' : Store) : Prop := (s'.fds, s'.leaked) = (s.fds, s.leaked)

namespace SameOpen

theorem trans {s₁ s₂ s₃ : Store} (h : SameOpen s₁ s₂) (h' : SameOpen s₂ s₃) : SameOpen s₁ s₃ :=
  Eq.trans h' h

theorem fds (h : SameOpen s s') : s'.fds = s.fds := (Prod.mk.inj h).1

theorem leaked (h : SameOpen s s') : s'.leaked = s.leaked := (Prod.mk.inj h).2

end SameOpen

theorem fileGetOrCreate_sameOpen : SameOpen s (fileGetOrCreate s n).2 :=
  Prod.ext fileGetOrCreate_fds fileGetOrCreate_leaked

theorem sameOpen_fileRemoveTag : Returns (fileRemoveTag env s f t) (SameOpen s) := by
  refine sat_bind.mpr (sat_readTag (fun _ => trivial) fun T _ => ?_)
  refine sat_bind.mpr (sat_readFile (fun _ => trivial) fun F _ => ?_)
  exact sat_bind.mpr (sat_readFile (fun _ => trivial) fun F' _ => rfl)

theorem sameOpen_tagFile : Returns (tagFile env s t f) (SameOpen s) := by
  refine Sat.bind (P := SameOpen s) ?_ fun s₁ h₁ => ?_
  · refine sat_bind.mpr (sat_readTag (fun _ => trivial) fun T _ => ?_)
    refine sat_bind.mpr (sat_readFile (fun _ => trivial) fun F _ => ?_)
    exact sat_bind.mpr (sat_readFile (fun _ => trivial) fun F' _ => rfl)
  · refine sat_bind.mpr (sat_readTag (fun _ => trivial) fun T _ => ?_)
    exact sat_bind.mpr (sat_readFile (fun _ => trivial) fun F _ => h₁)

theorem sameOpen_untagFile : Returns (untagFile env s t f) (SameOpen s) := by
  refine sameOpen_fileRemoveTag.bind fun s₁ h₁ => ?_
  refine sat_bind.mpr (sat_readTag (fun _ => trivial) fun T _ => ?_)
  exact sat_bind.mpr (sat_readFile (fun _ => trivial) fun F _ => h₁)

theorem sameOpen_tagRemove : Returns (tagRemove env s t) (SameOpen s) := by
  refine sat_bind.mpr (sat_readTag (fun _ => trivial) fun T _ => ?_)
  refine Sat.bind (P := SameOpen s) ?_ fun s₁ h₁ => ?_
  · refine sat_forEach_mem (I := SameOpen s) (fun e _ s₁ h₁ => ?_) rfl
    exact sameOpen_fileRemoveTag.mono fun _ h => h₁.trans h
  refine sat_bind.mpr (sat_readTag (fun _ => trivial) fun T₁ _ => ?_)
  refine sat_bind.mpr (sat_readTag (fun _ => trivial) fun T₂ _ => ?_)
  split_ifs
  · exact h₁
  · exact h₁

theorem sameOpen_computeSelectedTags (dirpath : CStr) :
    Returns (computeSelectedTags s dirpath) fun r => SameOpen s r.2 := by
  unfold computeSelectedTags
  split_ifs
  · rfl
  refine sat_forEach_mem (I := fun r : HashTable TagId × Store => SameOpen s r.2)
    (fun name _ r hr => ?_) rfl
  cases hg : tagGet r.2 name with
  | some t => exact sat_bind.mpr (sat_bind.mpr (sat_readTag (fun _ => trivial) fun T _ => hr))
  | none =>
    have hk : r.2.tags.get? name = none := hg
    simp only [tagGetOrCreateIn, hk]
    exact sat_bind.mpr (sat_bind.mpr (sat_readTag (fun _ => trivial) fun T _ => hr))

theorem sameOpen_pathCreate (userPath : CStr) (isTag : Bool) :
    Returns (pathCreate env s userPath isTag) fun r => SameOpen s r.2 :=
  (sameOpen_computeSelectedTags _).bind fun _ hr => hr

theorem sameOpen_pathDelete (path : Path) : Returns (pathDelete env s path) (SameOpen s) := by
  refine sat_forEach_mem (I := SameOpen s) (fun e _ s₁ h₁ => ?_) rfl
  refine sat_bind.mpr (sat_readTag (fun _ => trivial) fun T _ => ?_)
  split_ifs
  · exact sameOpen_tagRemove.mono fun _ h => h₁.trans h
  · exact h₁

theorem sameOpen_getattrIntra (p : Path) :
    Returns (getattrIntra env s p) fun r => SameOpen s r.2.2 := by
  unfold getattrIntra
  split
  · rfl
  · split_ifs
    · rfl
    · exact (returns_true _).bind fun b _ => fileGetOrCreate_sameOpen
    · exact fileGetOrCreate_sameOpen
    · exact fileGetOrCreate_sameOpen

theorem sameOpen_pathLink (ffrom fto : Path) :
    Returns (pathLink env s ffrom fto) fun r => SameOpen s r.2 := by
  apply (sameOpen_getattrIntra ffrom).bind
  rintro ⟨res, st, s₁⟩ h₁
  dsimp only at h₁ ⊢
  split_ifs
  · exact h₁
  have hcreate : SameOpen s (fileGetOrCreate s₁ ffrom.filename).2 :=
    h₁.trans fileGetOrCreate_sameOpen
  refine Sat.bind (P := SameOpen s) ?_ fun s' hs' => hs'
  refine sat_forEach_mem (I := SameOpen s) (fun e _ s₂ h₂ => ?_) hcreate
  exact sameOpen_tagFile.mono fun _ h => h₂.trans h

theorem sameOpen_pathUnlink (fd : Path) :
    Returns (pathUnlink env s fd) fun r => SameOpen s r.2 := by
  unfold pathUnlink
  cases fileGet s fd.filename with
  | none => rfl
  | some f =>
    refine Sat.bind (P := SameOpen s) ?_ fun s' hs' => hs'
    refine sat_forEach_mem (I := SameOpen s) (fun e _ s₁ h₁ => ?_) rfl
    refine sameOpen_untagFile.bind fun s₂ h₂ => ?_
    refine sat_bind.mpr (sat_readTag (fun _ => trivial) fun T _ => ?_)
    split_ifs
    · exact sameOpen_tagRemove.mono fun _ h => (h₁.trans h₂).trans h
    · exact h₁.trans h₂

theorem sameOpen_tagMkdir (userPath : CStr) :
    Returns (tagMkdir s userPath) fun r => SameOpen s r.2 := by
  unfold tagMkdir
  split_ifs
  · rfl
  dsimp only
  cases hk : tagGet s (basename userPath) with
  | some t =>
    refine sat_bind.mpr (sat_readTag (fun _ => trivial) fun T _ => ?_)
    split_ifs
    · rfl
    · rfl
  | none =>
    rw [tagGetOrCreate_none hk]
    rfl

theorem sameOpen_readdirListFiles (dirpath : Path) :
    Returns (readdirListFiles env s dirpath) fun r => SameOpen s r.2 := by
  refine sat_forEach_mem (I := fun r : List CStr × Store => SameOpen s r.2)
    (fun d _ r hr => ?_) rfl
  split_ifs
  · exact hr
  · exact (sameOpen_getattrIntra _).bind fun q hq => hr.trans hq

theorem sameOpen_tagGetattr (p : CStr) : Returns (tagGetattr env s p) fun r => SameOpen s r.2.2 := by
  refine (sameOpen_pathCreate p false).bind fun r hr => ?_
  refine (sameOpen_getattrIntra r.1).bind fun q hq => ?_
  exact (sameOpen_pathDelete r.1).bind fun s' hs' => (hr.trans hq).trans hs'

theorem sameOpen_tagGetxattr (p name : CStr) (size : ℕ) :
    Returns (tagGetxattr env s p name size) fun r => SameOpen s r.2.2 := by
  unfold tagGetxattr
  split_ifs
  · refine (sameOpen_pathCreate p false).bind fun r hr => ?_
    refine (sameOpen_getattrIntra r.1).bind fun q hq => ?_
    dsimp only
    split_ifs
    · exact (sameOpen_pathDelete r.1).bind fun s' hs' => (hr.trans hq).trans hs'
    · exact (sameOpen_pathDelete r.1).bind fun s' hs' => (hr.trans hq).trans hs'
    · refine (returns_true _).bind fun str _ => ?_
      refine (sameOpen_pathDelete r.1).bind fun s' hs' => ?_
      exact ((hr.trans hq).trans fileGetOrCreate_sameOpen).trans hs'
  · rfl
  · rfl

theorem sameOpen_tagReaddir (a : Addr) : Returns (tagReaddir env s a) fun r => SameOpen s r.2 := by
  refine sat_bind.mpr (sat_readFd trivial fun fd _ => ?_)
  have hfiles : Returns (readdirListFiles env s fd.path) _ := sameOpen_readdirListFiles fd.path
  dsimp only
  split_ifs
  · exact (returns_true _).bind fun tags _ => hfiles.bind fun r hr => hr
  · exact (returns_true _).bind fun tags _ => hfiles.bind fun r hr => hr

theorem sameOpen_tagLink (src dst : CStr) :
    Returns (tagLink env s src dst) fun r => SameOpen s r.2 := by
  refine (sameOpen_pathCreate src false).bind fun r₁ h₁ => ?_
  refine (sameOpen_pathCreate dst false).bind fun r₂ h₂ => ?_
  refine (sameOpen_tagMkdir r₂.1.virtdirpath).bind fun r₃ h₃ => ?_
  refine (sameOpen_pathLink r₁.1 r₂.1).bind fun r₄ h₄ => ?_
  refine (sameOpen_pathDelete r₁.1).bind fun s₅ h₅ => ?_
  refine (sameOpen_pathDelete r₂.1).bind fun s₆ h₆ => ?_
  exact (((((h₁.trans h₂).trans h₃).trans h₄).trans h₅).trans h₆)

theorem sameOpen_tagUnlink (p : CStr) : Returns (tagUnlink env s p) fun r => SameOpen s r.2 := by
  unfold tagUnlink
  split_ifs
  · rfl
  refine (sameOpen_pathCreate p false).bind fun r₁ h₁ => ?_
  refine (sameOpen_pathUnlink r₁.1).bind fun r₂ h₂ => ?_
  exact (sameOpen_pathDelete r₁.1).bind fun s₃ h₃ => (h₁.trans h₂).trans h₃

theorem sameOpen_tagRename (src dst : CStr) :
    Returns (tagRename env s src dst) fun r => SameOpen s r.2 := by
  refine (sameOpen_pathCreate src false).bind fun r₁ h₁ => ?_
  refine (sameOpen_pathCreate dst false).bind fun r₂ h₂ => ?_
  have hdel {s₃ : Store} {res : ℤ} (h₃ : SameOpen s s₃) :
      Returns (do
        let s₄ ← pathDelete env s₃ r₁.1
        let s₅ ← pathDelete env s₄ r₂.1
        .ok (res, s₅)) fun r => SameOpen s r.2 := by
    refine (sameOpen_pathDelete r₁.1).bind fun s₄ h₄ => ?_
    exact (sameOpen_pathDelete r₂.1).bind fun s₅ h₅ => (h₃.trans h₄).trans h₅
  dsimp only
  split_ifs
  · exact hdel (h₁.trans h₂)
  · refine (sameOpen_pathLink r₁.1 r₂.1).bind fun r₃ h₃ => ?_
    exact (sameOpen_pathUnlink r₁.1).bind fun r₄ h₄ => hdel (((h₁.trans h₂).trans h₃).trans h₄)

theorem sameOpen_tagGetOrCreate : Returns (tagGetOrCreate s n) fun r => SameOpen s r.2 := by
  have hin : SameOpen s (tagGetOrCreateIn s n true).2 := by
    unfold tagGetOrCreateIn
    split
    · rfl
    · rfl
  exact sat_bind.mpr (sat_bind.mpr (sat_readTag (fun _ => trivial) fun T _ => hin))

theorem sameOpen_parseTag {file : Option FileId} (word : CStr) :
    Returns (parseTag env s file word) (SameOpen s) := by
  unfold parseTag
  dsimp only
  split_ifs
  · rfl
  apply sameOpen_tagGetOrCreate.bind
  rintro ⟨t, s₁⟩ hr
  cases file with
  | none => exact hr
  | some f => exact sameOpen_tagFile.mono fun _ h => hr.trans h

theorem sameOpen_setRootDirectory (file : Option CStr) :
    Returns (setRootDirectory env file) (SameOpen .init) := by
  cases file with
  | none => rfl
  | some text =>
    refine Sat.bind (P := fun r => SameOpen .init r.2) ?_ ?_
    · refine sat_forEach_mem (I := fun r : Option FileId × Store => SameOpen .init r.2) ?_ rfl
      rintro word - ⟨file, s⟩ hs
      have htag (w : CStr) : Returns (do let s ← parseTag env s file w; .ok (file, s)) fun r =>
          SameOpen .init r.2 := (sameOpen_parseTag w).bind fun _ h => hs.trans h
      unfold parseLine
      dsimp only
      split_ifs
      · exact hs
      split
      · split_ifs
        · refine Sat.bind (P := fun r => SameOpen s r.2)
            (sat_map.mpr (sameOpen_tagGetattr _)) fun r hr => ?_
          dsimp only
          split_ifs
          · exact (hs.trans hr).trans fileGetOrCreate_sameOpen
          · exact hs.trans hr
        · exact htag _
      · exact htag _
    · rintro ⟨file, s⟩ hs
      exact hs

end TagFilesystem.Fuse
