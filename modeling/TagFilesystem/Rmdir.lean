import TagFilesystem.FuseLowlevel.Coherence
import TagFilesystem.FuseSqlite3.UnknownTags

namespace TagFilesystem

variable {k : CStr}

namespace FuseLowlevel

variable {s s' : Store} {t : TagId}

/-- The registry of `s'` is that of `s` without the name `k`. -/
def Unregisters (s : Store) (k : CStr) (s' : Store) : Prop :=
  ∀ k', tagGet s' k' = if k' = k then none else tagGet s k'

/-- `rmdir` in the root refuses a name that is no tag, with the error for a file or that for nothing,
and removes exactly a tag. -/
structure RmdirClean (s : Store) (k : CStr) : Prop where
  unknown : tagExist s k = false → tagRmdir s 1 k =
    .ok ([.err (if s.files.contains k = true then ENOTDIR else ENOENT)], s)
  known : tagExist s k = true → ∃ s', tagRmdir s 1 k = .ok ([.err 0], s') ∧ Unregisters s k s'

theorem tagRmdir_unknown (hno : tagExist s k = false) : tagRmdir s 1 k = .error .invalidTag := by
  have hget : tagGet s k = none := by simpa [tagExist] using hno
  rw [tagRmdir, if_neg (by decide), hget]
  rfl

theorem tagRmdir_known (hs : s.Sound) (hk : s.tags.get? k = some t) :
    ∃ s', tagRmdir s 1 k = .ok ([.err 0], s') ∧ Unregisters s k s' := by
  obtain ⟨s', hrem, -, htags, -⟩ := (sat_tagRemove (E := fun _ => False) hs.links hk).exists_ok
  refine ⟨s', ?_, fun k' => ?_⟩
  · have hget : tagGet s k = some t := hk
    rw [tagRmdir, if_neg (by decide), hget, hrem]
    rfl
  · have hu : s.tags.Unique := hs.links.tags.unique
    rw [tagGet, htags, hu.get?_erase]
    rfl

theorem rmdirClean_iff (hs : s.Sound) : RmdirClean s k ↔ tagExist s k = true := by
  constructor
  · intro h
    by_contra hno
    rw [Bool.not_eq_true] at hno
    have hrun := h.unknown hno
    rw [tagRmdir_unknown hno] at hrun
    cases hrun
  · intro hk
    obtain ⟨t, ht⟩ := Option.isSome_iff_exists.mp hk
    refine ⟨fun hno => ?_, fun _ => tagRmdir_known hs ht⟩
    rw [hk] at hno
    cases hno

end FuseLowlevel

namespace FuseSqlite3

variable {s s' : Store} {t : TagId} {T : Tag} {p : CStr}

/-- The registry of `s'` is that of `s` without the name `k`. -/
def Unregisters (s : Store) (k : CStr) (s' : Store) : Prop :=
  ∀ k', tagGet s' k' = if k' = k then none else tagGet s k'

/-- `rmdir` of the path refuses a name that is no tag, and removes exactly a tag. -/
structure RmdirClean (s : Store) (p : CStr) : Prop where
  unknown : tagExist s (basename p) = false → tagRmdir s p = .ok (-ENOENT, s)
  known : tagExist s (basename p) = true →
    ∃ s', tagRmdir s p = .ok (0, s') ∧ Unregisters s (basename p) s'

theorem rmdirClean_iff (hs : s.Sound) (hp : getCharacterCount p slash ≤ 1) :
    RmdirClean s p ↔ tagExist s (basename p) = true := by
  have hrmdir : tagRmdir s p = tagRemove s (tagGet s (basename p)) >>= fun s' => .ok (0, s') := by
    rw [tagRmdir, if_neg (by omega)]
  constructor
  · intro h
    by_contra hno
    rw [Bool.not_eq_true] at hno
    have hget : tagGet s (basename p) = none := by simpa [tagExist] using hno
    have hrun := h.unknown hno
    rw [hrmdir, hget] at hrun
    cases hrun
  · intro hk
    obtain ⟨t, ht⟩ := Option.isSome_iff_exists.mp hk
    obtain ⟨T, hT, hv⟩ := hs.tagEntry ht
    refine ⟨fun hno => ?_, fun _ => ⟨s.dropTag t T, ?_, fun k' => ?_⟩⟩
    · rw [hk] at hno
      cases hno
    · rw [hrmdir, ht, tagRemove, readTag_eq hT]
      rfl
    · change (s.tags.erase T.value).get? k' = _
      rw [hs.tagsUnique.get?_erase, hv]
      rfl

end FuseSqlite3

/-- In every reached store of either file system, `rmdir` of a path of one component is clean exactly
for the registered tags. -/
theorem rmdir_clean_iff {env : FuseLowlevel.Env} {file : Option CStr} {s₀ s : FuseLowlevel.Store}
    {env' : FuseSqlite3.Env} {text : CStr} {q₀ q : FuseSqlite3.Store}
    (h₀ : FuseLowlevel.tagInit env file = .ok s₀) (h : Reaches FuseLowlevel.step (fun _ _ => True) s₀ s)
    (g₀ : FuseSqlite3.setRootDirectory env' text = .ok q₀)
    (g : Reaches FuseSqlite3.step (fun _ _ => True) q₀ q) (k p : CStr)
    (hp : getCharacterCount p slash ≤ 1) :
    (FuseLowlevel.RmdirClean s k ↔ FuseLowlevel.tagExist s k = true) ∧
      (FuseSqlite3.RmdirClean q p ↔ FuseSqlite3.tagExist q (basename p) = true) :=
  ⟨FuseLowlevel.rmdirClean_iff (FuseLowlevel.sound_of_reaches h₀ h),
    FuseSqlite3.rmdirClean_iff (FuseSqlite3.sound_of_reaches g₀ g) hp⟩

/-- The tag `x` has been made by `mkdir`. -/
theorem rmdir_clean_sample : ∃ s q, FuseLowlevel.sampleRun [.mkdir 1 nameX] = some s ∧
    FuseSqlite3.step .init FuseSqlite3.sampleMkdir = .ok q ∧
    FuseLowlevel.RmdirClean s nameX ∧ FuseSqlite3.RmdirClean q (samplePath [] nameX) := by
  have hrun : (FuseLowlevel.sampleRun [.mkdir 1 nameX]).any (fun s =>
      FuseLowlevel.tagExist s nameX) = true := by decide +kernel
  obtain ⟨s, hs, hx⟩ := (Option.any_eq_true _ _).mp hrun
  have g₀ : FuseSqlite3.setRootDirectory FuseSqlite3.sampleEnv [] = .ok .init := rfl
  obtain ⟨q, hq, hqx⟩ : ∃ q, FuseSqlite3.step .init FuseSqlite3.sampleMkdir = .ok q ∧
      FuseSqlite3.tagExist q (basename (samplePath [] nameX)) = true := ⟨_, rfl, by decide +kernel⟩
  refine ⟨s, q, hs, hq, ?_⟩
  unfold FuseLowlevel.sampleRun at hs
  split at hs
  · next s₀ h₀ =>
    obtain ⟨hlow, hsql⟩ := rmdir_clean_iff h₀ (reaches_of_execute hs) g₀
      ((Reaches.refl _).tail trivial hq) nameX (samplePath [] nameX) (by decide)
    exact ⟨hlow.mpr hx, hsql.mpr hqx⟩
  · cases hs

/-- After the start nothing is registered, and `rmdir x` dereferences `INVALID_TAG`. -/
theorem rmdir_unknown_dereferences :
    (¬ ∀ env file s₀ s k, FuseLowlevel.tagInit env file = .ok s₀ →
      Reaches FuseLowlevel.step (fun _ _ => True) s₀ s → FuseLowlevel.RmdirClean s k) ∧
    ¬ ∀ env text s₀ s p, FuseSqlite3.setRootDirectory env text = .ok s₀ →
      Reaches FuseSqlite3.step (fun _ _ => True) s₀ s → getCharacterCount p slash ≤ 1 →
      FuseSqlite3.RmdirClean s p := by
  constructor
  · intro h
    have hrun : returnsWith (FuseLowlevel.tagInit FuseLowlevel.sampleEnv (some []))
        (fun s => ! FuseLowlevel.tagExist s nameX) = true := by decide +kernel
    obtain ⟨s, hs, hx⟩ := returnsWith_iff.mp hrun
    rw [Bool.not_eq_true'] at hx
    have hclean := (h _ _ s s nameX hs (.refl s)).unknown hx
    rw [FuseLowlevel.tagRmdir_unknown hx] at hclean
    cases hclean
  · intro h
    have hclean := h FuseSqlite3.sampleEnv [] .init .init (samplePath [] nameX) rfl (.refl _)
      (by decide)
    cases hclean.unknown rfl

end TagFilesystem
