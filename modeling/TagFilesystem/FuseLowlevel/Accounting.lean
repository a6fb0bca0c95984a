import TagFilesystem.FuseLowlevel.Kernel

namespace TagFilesystem.FuseLowlevel

variable {c : Prop} {env : Env} {s s₀ s' : Store} {e : Event} {file : Option CStr} {n : CStr}
  {i : InodeId} {I : Inode} {σ σ' : Kernel} {ino : UInt64}

/-- The inodes of `s` are in `s'` with the same counts, and the new ones have not been looked up. -/
structure SameCounts (s s' : Store) : Prop where
  next : s.inodeHeap.next ≤ s'.inodeHeap.next
  kept : ∀ {i I}, s.inodeHeap.get? i = some I →
    ∃ J, s'.inodeHeap.get? i = some J ∧ J.nlookup = I.nlookup
  new : ∀ {i J}, s.inodeHeap.get? i = none → s'.inodeHeap.get? i = some J →
    s.inodeHeap.next ≤ i ∧ J.nlookup = 0

theorem SameCounts.refl (h : s'.inodeHeap = s.inodeHeap) : SameCounts s s' where
  next := by rw [h]
  kept {i I} hI := ⟨I, h ▸ hI, rfl⟩
  new {i J} hi hJ := by
    rw [h, hi] at hJ
    cases hJ

theorem SameCounts.trans {s'' : Store} (h : SameCounts s s') (h' : SameCounts s' s'') :
    SameCounts s s'' where
  next := h.next.trans h'.next
  kept {i I} hI := by
    obtain ⟨J, hJ, hn⟩ := h.kept hI
    obtain ⟨K, hK, hn'⟩ := h'.kept hJ
    exact ⟨K, hK, hn'.trans hn⟩
  new {i K} hi hK := by
    cases hJ : s'.inodeHeap.get? i with
    | none =>
      obtain ⟨hle, hz⟩ := h'.new hJ hK
      exact ⟨h.next.trans hle, hz⟩
    | some J =>
      obtain ⟨hle, hz⟩ := h.new hi hJ
      obtain ⟨K', hK', hn⟩ := h'.kept hJ
      rw [hK] at hK'
      cases hK'
      exact ⟨hle, hn.trans hz⟩

theorem sameCounts_addInode (hz : I.nlookup = 0) : SameCounts s (s.addInode I) where
  next := by
    show s.inodeHeap.next ≤ (s.inodeHeap.alloc I).next
    rw [Heap.next_alloc]
    exact Nat.le_succ _
  kept hJ := ⟨_, Heap.get?_alloc_of_some hJ, rfl⟩
  new {j J} hj hJ := by
    obtain ⟨he, rfl⟩ | ⟨-, hJ⟩ := Heap.get?_alloc_cases hJ
    · exact ⟨he.ge, hz⟩
    · rw [hj] at hJ
      cases hJ

theorem Update.sameCounts (h : Update False s s') : SameCounts s s' := by
  cases h with
  | @inode i I st hi =>
    refine ⟨(Heap.next_write).ge, fun {j J} hJ => ?_, fun {j J} hj hJ => ?_⟩
    · by_cases he : j = i
      · subst he
        rw [hi] at hJ
        cases hJ
        exact ⟨_, Heap.get?_write_self hi, rfl⟩
      · exact ⟨J, (Heap.get?_write_ne he).trans hJ, rfl⟩
    · simp only [Store.writeInode, Heap.get?_write, hj] at hJ
      split_ifs at hJ
      cases hJ
  | count hc hi => exact hc.elim
  | generation g => exact .refl rfl
  | directory hp hk hn => exact sameCounts_addInode rfl
  | @file m env hn =>
    exact (sameCounts_addInode (I := fileInode env s m) rfl).trans (.refl rfl)
  | tag hk => exact .refl (congrArg (·.2.1) (inodes_tagGetOrCreate s _))
  | attach ht hn h => exact .refl (congrArg (·.2.1) (returns_tagFile.of_ok h).1)
  | detach ht hn h => exact .refl (congrArg (·.2.1) (returns_untagFile.of_ok h).1)

theorem Updates.sameCounts (h : Updates False s s') : SameCounts s s' := by
  induction h with
  | refl => exact .refl rfl
  | tail _ hu ih => exact ih.trans hu.sameCounts

/-- The count that the root directory has from the start. -/
def initialCount (i : InodeId) : ℕ := if i = 0 then 1 else 0

/-- The count of every inode is what the kernel has not yet forgotten of it. -/
structure Kernel.Balanced (σ : Kernel) : Prop where
  sound : σ.store.Sound
  root : 0 < σ.store.inodeHeap.next
  le : ∀ ino, σ.forgotten ino ≤ σ.received ino
  live : ∀ {i I}, σ.store.inodeHeap.get? i = some I →
    I.nlookup.toNat = σ.outstanding (numberAt i) + initialCount i
  /-- Only the root stays without lookups after it has had some. -/
  used : ∀ {i I}, σ.store.inodeHeap.get? i = some I → i ≠ 0 → 0 < σ.received (numberAt i) →
    0 < σ.outstanding (numberAt i)
  gone : ∀ {i}, i < σ.store.inodeHeap.next → σ.store.inodeHeap.get? i = none →
    σ.outstanding (numberAt i) = 0
  known : ∀ {ino}, 0 < σ.received ino → ∃ i < σ.store.inodeHeap.next, ino = numberAt i

namespace Kernel.Balanced

variable (h : σ.Balanced)
include h

theorem received_new (hi : σ.store.inodeHeap.next ≤ i) (hmax : i < UInt32.size) :
    σ.received (numberAt i) = 0 := by
  by_contra hne
  obtain ⟨j, hj, hnum⟩ := h.known (Nat.pos_of_ne_zero hne)
  -- the number that is known belongs to an older inode
  have hij := numberAt_inj hmax ((hj.trans_le hi).trans hmax) hnum
  exact absurd (hij ▸ hj) (Nat.not_lt.mpr hi)

theorem sameCounts (hs : s'.Sound) (hc : SameCounts σ.store s')
    (hmax : s'.inodeHeap.next ≤ UInt32.size) : Kernel.Balanced { σ with store := s' } where
  sound := hs
  root := h.root.trans_le hc.next
  le := h.le
  live {i J} hJ := by
    change s'.inodeHeap.get? i = some J at hJ
    show J.nlookup.toNat = σ.outstanding (numberAt i) + initialCount i
    cases hI : σ.store.inodeHeap.get? i with
    | some I =>
      obtain ⟨J', hJ', hn⟩ := hc.kept hI
      rw [hJ] at hJ'
      cases hJ'
      rw [hn]
      exact h.live hI
    | none =>
      -- a new inode has no lookups, and the kernel has had none
      obtain ⟨hle, hz⟩ := hc.new hI hJ
      have hrec := h.received_new hle ((Heap.lt_next hJ).trans_le hmax)
      have hi : i ≠ 0 := (h.root.trans_le hle).ne'
      rw [hz, Kernel.outstanding, hrec, initialCount, if_neg hi, Nat.zero_sub]
      rfl
  used {i J} hJ hi hrec := by
    cases hI : σ.store.inodeHeap.get? i with
    | some I => exact h.used hI hi hrec
    | none =>
      have hle := (hc.new hI hJ).1
      exact absurd (h.received_new hle ((Heap.lt_next hJ).trans_le hmax)) (Nat.pos_iff_ne_zero.mp hrec)
  gone {i} hi hnone := by
    show σ.outstanding (numberAt i) = 0
    cases hI : σ.store.inodeHeap.get? i with
    | some I =>
      obtain ⟨J, hJ, -⟩ := hc.kept hI
      change s'.inodeHeap.get? i = none at hnone
      rw [hnone] at hJ
      cases hJ
    | none =>
      by_cases hlt : i < σ.store.inodeHeap.next
      · exact h.gone hlt hI
      · rw [Kernel.outstanding, h.received_new (Nat.not_lt.mp hlt) (hi.trans_le hmax),
          Nat.zero_sub]
  known {ino} hrec := by
    obtain ⟨i, hi, hnum⟩ := h.known hrec
    exact ⟨i, hi.trans_le hc.next, hnum⟩

theorem lookup (hI : σ.store.inodeHeap.get? i = some I)
    (hmax : σ.store.inodeHeap.next ≤ UInt32.size) (hone : I.nlookup.toNat + 1 < UInt64.size)
    {received : UInt64 → ℕ}
    (hr : ∀ ino, received ino = σ.received ino + if ino = numberAt i then 1 else 0) :
    Kernel.Balanced ⟨σ.store.writeInode i { I with nlookup := I.nlookup + 1 }, received,
      σ.forgotten⟩ where
  sound := ⟨h.sound.links, h.sound.indexed.writeInode hI rfl⟩
  root := by simpa [Store.writeInode] using h.root
  le ino := by
    show σ.forgotten ino ≤ received ino
    rw [hr]
    exact (h.le ino).trans (Nat.le_add_right _ _)
  live {j J} hJ := by
    simp only [Store.writeInode] at hJ
    show J.nlookup.toNat = received (numberAt j) - σ.forgotten (numberAt j) + initialCount j
    have hle := h.le (numberAt j)
    by_cases hj : j = i
    · subst hj
      rw [Heap.get?_write_self hI] at hJ
      cases hJ
      have hl := h.live hI
      -- the count does not come round
      have hadd : (I.nlookup + 1).toNat = I.nlookup.toNat + 1 := by
        rw [UInt64.toNat_add]
        exact Nat.mod_eq_of_lt hone
      show (I.nlookup + 1).toNat = _
      rw [hr, if_pos rfl, hadd, hl, Kernel.outstanding]
      omega
    · rw [Heap.get?_write_ne hj] at hJ
      have hne : ¬ numberAt j = numberAt i := fun he =>
        hj (numberAt_inj ((Heap.lt_next hJ).trans_le hmax) ((Heap.lt_next hI).trans_le hmax) he)
      rw [hr, if_neg hne]
      exact h.live hJ
  used {j J} hJ hj hrec := by
    simp only [Store.writeInode] at hJ
    show 0 < received (numberAt j) - σ.forgotten (numberAt j)
    change 0 < received (numberAt j) at hrec
    have hle := h.le (numberAt j)
    rw [hr] at hrec ⊢
    split_ifs at hrec ⊢ with he
    · omega
    · have hji : j ≠ i := fun hji => he (congrArg numberAt hji)
      rw [Heap.get?_write_ne hji] at hJ
      exact h.used hJ hj hrec
  gone {j} hj hnone := by
    simp only [Store.writeInode, Heap.next_write] at hj hnone
    show received (numberAt j) - σ.forgotten (numberAt j) = 0
    have hji : j ≠ i := by
      rintro rfl
      rw [Heap.get?_write_self hI] at hnone
      cases hnone
    rw [Heap.get?_write_ne hji] at hnone
    have hne : ¬ numberAt j = numberAt i := fun he =>
      hji (numberAt_inj (hj.trans_le hmax) ((Heap.lt_next hI).trans_le hmax) he)
    rw [hr, if_neg hne]
    exact h.gone hj hnone
  known {ino} hrec := by
    simp only [Store.writeInode, Heap.next_write]
    change 0 < received ino at hrec
    rw [hr] at hrec
    split_ifs at hrec with he
    · exact ⟨i, Heap.lt_next hI, he⟩
    · exact h.known hrec

/-- What the kernel still holds is in `itable` with the right count. -/
theorem held (hmax : σ.store.inodeHeap.next ≤ UInt32.size) (hout : 0 < σ.outstanding ino) :
    ∃ i I, inodeGet σ.store ino = some i ∧ σ.store.inodeHeap.get? i = some I ∧
      ino = numberAt i := by
  have hrec : 0 < σ.received ino := hout.trans_le (Nat.sub_le _ _)
  obtain ⟨i, hi, rfl⟩ := h.known hrec
  cases hI : σ.store.inodeHeap.get? i with
  | none =>
    rw [h.gone hi hI] at hout
    exact absurd hout (Nat.lt_irrefl 0)
  | some I =>
    have hget := h.sound.indexed.inodeGet_eq hmax hI
    rw [h.sound.indexed.number hI] at hget
    exact ⟨i, I, hget, hI, rfl⟩

end Kernel.Balanced

section Forget

variable {m : UInt64} {forgotten : UInt64 → ℕ}
  (hf : ∀ ino, forgotten ino = σ.forgotten ino + if ino = numberAt i then m.toNat else 0)
include hf

theorem outstanding_self :
    σ.received (numberAt i) - forgotten (numberAt i) = σ.outstanding (numberAt i) - m.toNat := by
  rw [hf, if_pos rfl, Kernel.outstanding, Nat.sub_add_eq]

theorem outstanding_ne {j : InodeId} (hi : i < UInt32.size) (hj : j < UInt32.size) (hji : j ≠ i) :
    σ.received (numberAt j) - forgotten (numberAt j) = σ.outstanding (numberAt j) := by
  have hne : ¬ numberAt j = numberAt i := fun he => hji (numberAt_inj hj hi he)
  rw [hf, if_neg hne]
  rfl

theorem forgotten_le (hle : ∀ ino, σ.forgotten ino ≤ σ.received ino)
    (hm : m.toNat ≤ σ.outstanding (numberAt i)) (ino : UInt64) :
    forgotten ino ≤ σ.received ino := by
  have h := hle ino
  rw [hf]
  split_ifs with he
  · subst he
    rw [Kernel.outstanding] at hm
    omega
  · omega

variable (h : σ.Balanced) (hmax : σ.store.inodeHeap.next ≤ UInt32.size)
  (hI : σ.store.inodeHeap.get? i = some I) (hm : m.toNat ≤ σ.outstanding (numberAt i))
include h hmax hI hm

theorem Kernel.Balanced.lower (hmore : i ≠ 0 → m.toNat < σ.outstanding (numberAt i)) :
    Kernel.Balanced ⟨σ.store.writeInode i { I with nlookup := I.nlookup - m }, σ.received,
      forgotten⟩ where
  sound := ⟨h.sound.links, h.sound.indexed.writeInode hI rfl⟩
  root := by simpa [Store.writeInode] using h.root
  le := by
    show ∀ ino, forgotten ino ≤ σ.received ino
    exact forgotten_le hf h.le hm
  live {j J} hJ := by
    have hi32 : i < UInt32.size := (Heap.lt_next hI).trans_le hmax
    simp only [Store.writeInode] at hJ
    show J.nlookup.toNat = σ.received (numberAt j) - forgotten (numberAt j) + initialCount j
    by_cases hj : j = i
    · subst hj
      rw [Heap.get?_write_self hI] at hJ
      cases hJ
      have hl := h.live hI
      have hle : m ≤ I.nlookup := by
        rw [UInt64.le_iff_toNat_le, hl]
        exact hm.trans (Nat.le_add_right _ _)
      show (I.nlookup - m).toNat = _
      rw [UInt64.toNat_sub_of_le _ _ hle, outstanding_self hf, hl]
      omega
    · rw [Heap.get?_write_ne hj] at hJ
      rw [outstanding_ne hf hi32 ((Heap.lt_next hJ).trans_le hmax) hj]
      exact h.live hJ
  used {j J} hJ hj0 hrec := by
    have hi32 : i < UInt32.size := (Heap.lt_next hI).trans_le hmax
    simp only [Store.writeInode] at hJ
    show 0 < σ.received (numberAt j) - forgotten (numberAt j)
    by_cases hj : j = i
    · subst hj
      rw [outstanding_self hf]
      exact Nat.sub_pos_of_lt (hmore hj0)
    · rw [Heap.get?_write_ne hj] at hJ
      rw [outstanding_ne hf hi32 ((Heap.lt_next hJ).trans_le hmax) hj]
      exact h.used hJ hj0 hrec
  gone {j} hj hnone := by
    have hi32 : i < UInt32.size := (Heap.lt_next hI).trans_le hmax
    simp only [Store.writeInode, Heap.next_write] at hj hnone
    show σ.received (numberAt j) - forgotten (numberAt j) = 0
    have hji : j ≠ i := by
      rintro rfl
      rw [Heap.get?_write_self hI] at hnone
      cases hnone
    rw [Heap.get?_write_ne hji] at hnone
    rw [outstanding_ne hf hi32 (hj.trans_le hmax) hji]
    exact h.gone hj hnone
  known {ino} hrec := by
    obtain ⟨j, hj, hnum⟩ := h.known hrec
    exact ⟨j, by simpa [Store.writeInode] using hj, hnum⟩

theorem Kernel.Balanced.delete (hlast : m.toNat = σ.outstanding (numberAt i)) :
    Kernel.Balanced ⟨{ σ.store with
      itable := σ.store.itable.eraseValue i
      inodeHeap := σ.store.inodeHeap.free i }, σ.received, forgotten⟩ where
  sound := ⟨h.sound.links, h.sound.indexed.delete⟩
  root := by simpa using h.root
  le := by
    show ∀ ino, forgotten ino ≤ σ.received ino
    exact forgotten_le hf h.le hm
  live {j J} hJ := by
    have hi32 : i < UInt32.size := (Heap.lt_next hI).trans_le hmax
    obtain ⟨hj, hJ⟩ := Heap.of_get?_free hJ
    show J.nlookup.toNat = σ.received (numberAt j) - forgotten (numberAt j) + initialCount j
    rw [outstanding_ne hf hi32 ((Heap.lt_next hJ).trans_le hmax) hj]
    exact h.live hJ
  used {j J} hJ hj0 hrec := by
    have hi32 : i < UInt32.size := (Heap.lt_next hI).trans_le hmax
    obtain ⟨hj, hJ⟩ := Heap.of_get?_free hJ
    show 0 < σ.received (numberAt j) - forgotten (numberAt j)
    rw [outstanding_ne hf hi32 ((Heap.lt_next hJ).trans_le hmax) hj]
    exact h.used hJ hj0 hrec
  gone {j} hj hnone := by
    have hi32 : i < UInt32.size := (Heap.lt_next hI).trans_le hmax
    simp only [Heap.next_free, Heap.get?_free] at hj hnone
    show σ.received (numberAt j) - forgotten (numberAt j) = 0
    split_ifs at hnone with hji
    · subst hji
      rw [outstanding_self hf, hlast, Nat.sub_self]
    · rw [outstanding_ne hf hi32 (hj.trans_le hmax) hji]
      exact h.gone hj hnone
  known {ino} hrec := by
    obtain ⟨j, hj, hnum⟩ := h.known hrec
    exact ⟨j, by simpa using hj, hnum⟩

end Forget

namespace Kernel.Balanced

variable (h : σ.Balanced)
include h

theorem forget (hmax : σ.store.inodeHeap.next ≤ UInt32.size) {m : UInt64}
    (hm : m.toNat ≤ σ.outstanding ino) {forgotten : UInt64 → ℕ}
    (hf : ∀ k, forgotten k = σ.forgotten k + if k = ino then m.toNat else 0) :
    Returns (tagForget σ.store ino m) fun r => Kernel.Balanced ⟨r.2, σ.received, forgotten⟩ := by
  apply (returns_tagForget ino m).mono
  rintro ⟨rs, s'⟩ ⟨-, ⟨hnone, rfl⟩ | ⟨i, I, hget, hI, hs⟩⟩
  · -- the kernel holds nothing of a number that is not in the table
    have hzero : m.toNat = 0 := by
      by_contra hne
      obtain ⟨i, I, hget, -, -⟩ := h.held hmax ((Nat.pos_of_ne_zero hne).trans_le hm)
      rw [hnone] at hget
      cases hget
    have hsame : forgotten = σ.forgotten := by
      funext k
      rw [hf, hzero, ite_self, Nat.add_zero]
    rw [hsame]
    exact h
  · have hnum : I.number = numberAt i := h.sound.indexed.number hI
    obtain ⟨I', hI', hino⟩ := h.sound.indexed.live hget
    rw [hI] at hI'
    cases hI'
    obtain rfl : ino = numberAt i := hino.symm.trans hnum
    have hl := h.live hI
    -- the root is known by its number
    have hi0 : i ≠ 0 ↔ I.number ≠ 1 := by
      rw [hnum, ← numberAt_zero]
      refine not_congr ⟨congrArg numberAt, fun he => ?_⟩
      exact numberAt_inj ((Heap.lt_next hI).trans_le hmax) (by decide) he
    rcases hs with ⟨hkeep, rfl⟩ | ⟨hne, heq, rfl⟩
    · refine Kernel.Balanced.lower hf h hmax hI hm fun hi => ?_
      have hneq : I.nlookup ≠ m := fun he => hkeep ⟨hi0.mp hi, he⟩
      rw [initialCount, if_neg hi, Nat.add_zero] at hl
      -- the inode is kept, so this is not all that the kernel holds
      have hlt : m.toNat ≠ σ.outstanding (numberAt i) := by
        rw [← hl]
        exact fun he => hneq (UInt64.toNat_inj.mp he).symm
      exact lt_of_le_of_ne hm hlt
    · apply Kernel.Balanced.delete hf h hmax hI hm
      rw [initialCount, if_neg (hi0.mpr hne), Nat.add_zero] at hl
      rw [← hl, heq]

end Kernel.Balanced

/-- The request does what makes a count differ from the lookups: a directory, a file or a link is
made, which is answered with an entry, a file is opened, or a full count is raised. -/
def miscounts (env : Env) (s : Store) (callback : Callback) : Bool :=
  match callback with
  | .lookup _ name => (inodeOfFile s name).any fun I => I.nlookup.toNat + 1 = UInt64.size
  | .openFile ino flags => opens env s ino flags
  | .mkdir parent name => parent = 1 && !tagExist s name
  | .mknod parent name mode rdev =>
    parent = 1 && !tagExist s name && (env.mknod (tagRealpath env name) mode rdev).isNone
  | .link ino newparent newname =>
    ((inodeGet s ino).bind s.inodeHeap.get?).any (fun I =>
      !I.isDirectory && I.name = some newname) &&
    ((inodeGet s newparent).bind s.inodeHeap.get?).any Inode.isDirectory
  | _ => false

theorem quiet_tagMkdir {parent : UInt64} (h : miscounts env s (.mkdir parent n) = false) :
    Returns (tagMkdir env s parent n) fun r => Quiet s r := by
  unfold tagMkdir
  split_ifs with hp hk
  · exact quiet_err _
  · exact quiet_err _
  · simp [miscounts, not_not.mp hp, hk] at h

theorem quiet_tagMknod {parent : UInt64} {mode rdev : ℕ}
    (h : miscounts env s (.mknod parent n mode rdev) = false) :
    Returns (tagMknod env s parent n mode rdev) fun r => Quiet s r := by
  unfold tagMknod
  split_ifs with hp hk
  · exact quiet_err _
  · exact quiet_err _
  · split
    · exact quiet_err _
    · next hn => simp [miscounts, not_not.mp hp, hk, hn] at h

theorem quiet_tagLink {newparent : UInt64} (h : miscounts env s (.link ino newparent n) = false) :
    Returns (tagLink env s ino newparent n) fun r => Quiet s r := by
  apply returns_readInode.bind
  rintro I ⟨i, hi, hI⟩
  split_ifs with hd
  · exact quiet_err _
  · refine returns_deref.bind fun name hname => ?_
    split_ifs with hn
    · exact quiet_err _
    · apply returns_readInode.bind
      rintro P ⟨p, hp, hP⟩
      split_ifs with hP'
      · exact quiet_err _
      · simp [miscounts, hi, hI, hd, hname, not_not.mp hn, hp, hP, hP'] at h

/-- What a request does that is no `rmdir`, no `forget` and does not miscount. -/
theorem counted_call {callback : Callback} (hs : s.Sound)
    (hr : ∀ parent name, callback ≠ .rmdir parent name)
    (hf : ∀ ino m, callback ≠ .forget ino m) (hm : miscounts env s callback = false) :
    Returns (call env s callback) fun r =>
      Quiet s r ∨ Counted s r fun I x => x.entryIno = some I.number ∧
        (I.nlookup = 0 ∨ ∃ i J, s.inodeHeap.get? i = some J ∧ I.nlookup = J.nlookup ∧
          J.nlookup.toNat + 1 ≠ UInt64.size) := by
  cases hq : callback.isQuiet with
  | true => exact (returns_call_quiet hs hq).mono fun r h => .inl h
  | false =>
    cases callback with
    | lookup parent name =>
      refine (returns_tagLookup parent name).mono fun r h => h.imp_right ?_
      rintro ⟨s₁, i, I, y, hu, hI, hr, ⟨hy, hcount⟩, hs'⟩
      refine ⟨s₁, i, I, y, hu, hI, hr, ⟨hy, hcount.imp_right ?_⟩, hs'⟩
      rintro ⟨J, hJ, hn⟩
      obtain ⟨F, -, hFJ⟩ := Option.bind_eq_some_iff.mp hJ
      refine ⟨F.ino, J, hFJ, hn, ?_⟩
      simpa [miscounts, hJ] using hm
    | openFile ino flags =>
      refine (returns_tagOpen ino flags).mono fun r h => .inl (h.elim id fun h => ?_)
      -- an open that is let through counts a lookup that the kernel has not made
      have hopen : opens env s ino flags = false := hm
      rw [hopen] at h
      cases h.1
    | link ino newparent newname => exact (quiet_tagLink hm).mono fun r h => .inl h
    | mkdir parent name => exact (quiet_tagMkdir hm).mono fun r h => .inl h
    | mknod parent name mode rdev => exact (quiet_tagMknod hm).mono fun r h => .inl h
    | rmdir parent name => exact absurd rfl (hr parent name)
    | forget ino n => exact absurd rfl (hf ino n)
    | getattr | read | write | release | opendir | readdir | releasedir | unlink | rename
    | setattr | ioctl => cases hq

namespace Kernel

theorem step_eq (h : σ.step e = .ok σ') : ∃ rs, call e.env σ.store e.callback = .ok (rs, σ'.store) ∧
    (∀ ino, σ'.received ino = σ.received ino + entries rs ino) ∧
    ((∀ ino m, e.callback ≠ .forget ino m) → σ'.forgotten = σ.forgotten) ∧
    ∀ ino m, e.callback = .forget ino m →
      ∀ k, σ'.forgotten k = σ.forgotten k + if k = ino then m.toNat else 0 := by
  unfold step at h
  cases hc : call e.env σ.store e.callback with
  | error x =>
    rw [hc] at h
    cases h
  | ok r =>
    rw [hc] at h
    cases h
    refine ⟨r.1, rfl, fun ino => rfl, fun hf => ?_, fun ino m hm k => ?_⟩
    · cases hcb : e.callback
      case forget ino m => exact absurd hcb (hf ino m)
      all_goals rfl
    · simp only [hm, Function.update_apply]
      split_ifs with hk
      · rw [hk]
      · rfl

theorem entries_eq_zero {rs : List Reply} (h : ∀ x ∈ rs, x.entryIno = none) (ino : UInt64) :
    entries rs ino = 0 := by
  rw [entries, List.countP_eq_zero]
  intro x hx
  simp [h x hx]

theorem entries_singleton {x : Reply} {m : UInt64} (h : x.entryIno = some m) (ino : UInt64) :
    entries [x] ino = if ino = m then 1 else 0 := by
  simp [entries, List.countP_cons, h, eq_comm]

theorem received_same {rs : List Reply} {received : UInt64 → ℕ}
    (hrec : ∀ ino, received ino = σ.received ino + entries rs ino)
    (h : ∀ x ∈ rs, x.entryIno = none) : received = σ.received := by
  funext ino
  rw [hrec, entries_eq_zero h, Nat.add_zero]

theorem rmdir_heap {parent : UInt64} {rs : List Reply} (hs : s.Sound)
    (hc : call env s (.rmdir parent n) = .ok (rs, s')) :
    (∀ x ∈ rs, x.entryIno = none) ∧ s'.inodeHeap = s.inodeHeap := by
  rcases (returns_tagRmdir parent n).of_ok hc with ⟨-, hrs⟩ | ⟨-, hrs, t, ht, hrem⟩
  · cases hrs
    exact ⟨by simp [Reply.entryIno], rfl⟩
  · rw [show rs = [.err 0] from hrs]
    refine ⟨by simp [Reply.entryIno], ?_⟩
    exact ((sat_tagRemove (E := fun _ => True) hs.links ht).of_ok hrem).2.2.2.2.2.1

/-- A `forget` is not answered, and inodes are neither made nor moved. -/
theorem forget_next {m : UInt64} {rs : List Reply} (hc : call env s (.forget ino m) = .ok (rs, s')) :
    (∀ x ∈ rs, x.entryIno = none) ∧ s'.inodeHeap.next = s.inodeHeap.next := by
  obtain ⟨hrs, hs'⟩ := (returns_tagForget ino m).of_ok hc
  refine ⟨by rw [show rs = [.noReply] from hrs]; simp [Reply.entryIno], ?_⟩
  rcases hs' with ⟨-, hs'⟩ | ⟨i, I, -, -, ⟨-, hs'⟩ | ⟨-, -, hs'⟩⟩
  · exact congrArg (fun s => s.inodeHeap.next) hs'
  · exact (congrArg (fun s => s.inodeHeap.next) hs').trans Heap.next_write
  · exact (congrArg (fun s => s.inodeHeap.next) hs').trans Heap.next_free

theorem Balanced.step (h : σ.store.inodeHeap.next ≤ UInt32.size → σ.Balanced) (hs : σ.store.Sound)
    (hl : σ.legal e = true) (hm : miscounts e.env σ.store e.callback = false)
    (he : σ.step e = .ok σ') (hmax : σ'.store.inodeHeap.next ≤ UInt32.size) : σ'.Balanced := by
  have hs' : σ'.store.Sound := sound_step hs he
  obtain ⟨rs, hc, hrec, hforg, hforg'⟩ := step_eq he
  obtain ⟨s', received, forgotten⟩ := σ'
  dsimp only at hs' hc hrec hforg hforg' hmax
  by_cases hr : ∃ parent name, e.callback = .rmdir parent name
  · obtain ⟨parent, name, hr⟩ := hr
    obtain rfl : forgotten = σ.forgotten := hforg (by simp [hr])
    rw [hr] at hc
    obtain ⟨hrep, hheap⟩ := rmdir_heap hs hc
    obtain rfl := received_same hrec hrep
    exact (h (hheap ▸ hmax)).sameCounts hs' (.refl hheap) hmax
  by_cases hf : ∃ ino m, e.callback = .forget ino m
  · obtain ⟨ino, m, hf⟩ := hf
    rw [hf] at hc
    have hle : m.toNat ≤ σ.outstanding ino := by simpa [legal, hf] using hl
    obtain ⟨hrep, hnext⟩ := forget_next hc
    obtain rfl := received_same hrec hrep
    have hmax' : σ.store.inodeHeap.next ≤ UInt32.size := hnext ▸ hmax
    exact ((h hmax').forget hmax' hle (hforg' ino m hf)).of_ok hc
  · push Not at hr hf
    obtain rfl : forgotten = σ.forgotten := hforg hf
    rcases (counted_call hs hr hf hm).of_ok hc with ⟨hu, hrep⟩ | hcount
    · obtain rfl := received_same hrec hrep
      have hsame := hu.sameCounts
      exact (h (hsame.next.trans hmax)).sameCounts hs' hsame hmax
    · obtain ⟨s₁, i, I, y, hu, hI, hrs, ⟨hy, hnl⟩, hw⟩ := hcount
      dsimp only at hu hrs hw
      have hsame := hu.sameCounts
      have hmax₁ : s₁.inodeHeap.next ≤ UInt32.size := by
        rw [hw] at hmax
        simpa [Store.writeInode] using hmax
      have hs₁ : s₁.Sound := hu.sound' hs
      have hbal := (h (hsame.next.trans hmax₁)).sameCounts hs₁ hsame hmax₁
      have hnum : I.number = numberAt i := hs₁.indexed.number hI
      -- a count that is full would be a miscount
      have hfull : I.nlookup.toNat + 1 < UInt64.size := by
        have hlt : I.nlookup.toNat < UInt64.size := I.nlookup.toNat_lt_size
        rcases hnl with hz | ⟨j, J, hJ, hn, hne⟩
        · rw [hz]
          decide
        · rw [← hn] at hne
          exact lt_of_le_of_ne hlt hne
      subst hw hrs
      exact hbal.lookup hI hmax₁ hfull fun ino => (hrec ino).trans (by
        rw [entries_singleton hy, hnum])

end Kernel

/-- The accounting that the protocol asks for. -/
structure Kernel.Accounted (σ : Kernel) : Prop where
  /-- What the kernel holds is in `itable` with the count of what it holds. -/
  held : ∀ ino, ino ≠ 1 → 0 < σ.outstanding ino → ∃ i I, inodeGet σ.store ino = some i ∧
    σ.store.inodeHeap.get? i = some I ∧ I.nlookup.toNat = σ.outstanding ino
  /-- What the kernel has held and has forgotten is no longer in `itable`. -/
  left : ∀ ino, ino ≠ 1 → 0 < σ.received ino → σ.outstanding ino = 0 →
    inodeGet σ.store ino = none
  /-- No legal `forget` subtracts more than there is. -/
  noWrap : ∀ ino (m : UInt64) i I, m.toNat ≤ σ.outstanding ino →
    inodeGet σ.store ino = some i → σ.store.inodeHeap.get? i = some I → m ≤ I.nlookup

namespace Kernel

theorem Balanced.accounted (h : σ.Balanced) (hmax : σ.store.inodeHeap.next ≤ UInt32.size) :
    σ.Accounted := by
  have root : ∀ i, numberAt i ≠ 1 → initialCount i = 0 := by
    intro i hne
    apply if_neg
    rintro rfl
    exact hne numberAt_zero
  refine ⟨fun ino hne hout => ?_, fun ino hne hrec hout => ?_, fun ino m i I hm hget hI => ?_⟩
  · obtain ⟨i, I, hget, hI, rfl⟩ := h.held hmax hout
    refine ⟨i, I, hget, hI, ?_⟩
    rw [h.live hI, root i hne, Nat.add_zero]
  · cases hget : inodeGet σ.store ino with
    | none => rfl
    | some i =>
      obtain ⟨I, hI, hnum⟩ := h.sound.indexed.live hget
      obtain rfl : numberAt i = ino := (h.sound.indexed.number hI).symm.trans hnum
      have hi : i ≠ 0 := by
        rintro rfl
        exact hne numberAt_zero
      have hpos := h.used hI hi hrec
      rw [hout] at hpos
      exact absurd hpos (Nat.lt_irrefl 0)
  · obtain ⟨I', hI', hnum⟩ := h.sound.indexed.live hget
    rw [hI] at hI'
    cases hI'
    obtain rfl : numberAt i = ino := (h.sound.indexed.number hI).symm.trans hnum
    rw [UInt64.le_iff_toNat_le, h.live hI]
    exact hm.trans (Nat.le_add_right _ _)

theorem balanced_mounted (h₀ : tagInit env file = .ok s₀) (hmax : s₀.inodeHeap.next ≤ UInt32.size) :
    (mounted s₀).Balanced := by
  have hu : Updates False rootStore s₀ := returns_tagInit.of_ok h₀
  have hroot : (mounted rootStore).Balanced := {
    sound := sound_rootStore
    root := by decide
    le := fun ino => Nat.le_refl 0
    live := by
      intro i I hI
      have hi : i = 0 := Nat.lt_one_iff.mp (Heap.lt_next hI)
      subst hi
      cases hI
      rfl
    used := by
      intro i I hI hi hrec
      exact absurd hrec (Nat.lt_irrefl 0)
    gone := by
      intro i hi hnone
      rfl
    known := by
      intro ino hrec
      exact absurd hrec (Nat.lt_irrefl 0) }
  exact hroot.sameCounts (hu.sound' sound_rootStore) hu.sameCounts hmax

end Kernel

/-- In a run of requests that do not miscount, and of which every `forget` is legal, the lookups
are accounted for as the protocol asks, until inode numbers repeat. -/
theorem accounted_of_reaches (h₀ : tagInit env file = .ok s₀)
    (h : Reaches Kernel.step (fun σ e => σ.legal e = true ∧
      miscounts e.env σ.store e.callback = false) (.mounted s₀) σ)
    (hmax : σ.store.inodeHeap.next ≤ UInt32.size) : σ.Accounted := by
  have hu : Updates False rootStore s₀ := returns_tagInit.of_ok h₀
  have hinv : σ.store.Sound ∧ (σ.store.inodeHeap.next ≤ UInt32.size → σ.Balanced) :=
    h.invariant (I := fun σ => σ.store.Sound ∧ (σ.store.inodeHeap.next ≤ UInt32.size → σ.Balanced))
      ⟨hu.sound' sound_rootStore, Kernel.balanced_mounted h₀⟩
      fun σ e σ' hσ hg he => ⟨Kernel.sound_step hσ.1 he,
        fun hmax' => Kernel.Balanced.step hσ.2 hσ.1 hg.1 hg.2 he hmax'⟩
  exact (hinv.2 hmax).accounted hmax

/-- The file `f` is looked up twice and forgotten in two steps. -/
theorem accounted_of_reaches_sample : ∃ σ,
    kernelRun (fun σ e => σ.legal e && !miscounts e.env σ.store e.callback) [.lookup 1 nameF,
      .mkdir 2 nameX, .lookup 1 nameG, .lookup 1 nameF, .forget 2 1, .forget 2 1] = some σ ∧
    σ.Accounted := by
  have hrun : (kernelRun (fun σ e => σ.legal e && !miscounts e.env σ.store e.callback)
      [.lookup 1 nameF, .mkdir 2 nameX, .lookup 1 nameG, .lookup 1 nameF, .forget 2 1,
        .forget 2 1]).any (fun σ => σ.store.inodeHeap.next ≤ UInt32.size) = true := by decide +kernel
  obtain ⟨σ, hσ, hp⟩ := (Option.any_eq_true _ _).mp hrun
  have hmax : σ.store.inodeHeap.next ≤ UInt32.size := of_decide_eq_true hp
  obtain ⟨s₀, h₀, h⟩ := reaches_of_kernelRun hσ
  refine ⟨σ, hσ, accounted_of_reaches h₀ (h.weaken fun σ e hg => ?_) hmax⟩
  simpa using hg

/-- The reply to `mkdir` counts for the kernel but not for the inode, so that the kernel may
forget more than there is. -/
theorem mkdir_miscounts : ¬ ∀ env file s₀ σ, tagInit env file = .ok s₀ →
    Reaches Kernel.step (fun σ e => σ.legal e = true) (.mounted s₀) σ → σ.Accounted := by
  intro h
  have hrun : (kernelRun Kernel.legal [.mkdir 1 nameX]).any (fun σ =>
      σ.outstanding 4 = 1 ∧ inodeGet σ.store 4 = some 3 ∧
        (σ.store.inodeHeap.get? 3).map Inode.nlookup = some 0) = true := by decide +kernel
  obtain ⟨σ, hσ, hp⟩ := (Option.any_eq_true _ _).mp hrun
  -- the kernel holds one lookup of the directory, its inode none
  obtain ⟨hout, hget, hcount⟩ := of_decide_eq_true hp
  obtain ⟨s₀, h₀, hreach⟩ := reaches_of_kernelRun hσ
  obtain ⟨I, hI, hn⟩ := Option.map_eq_some_iff.mp hcount
  have hle := (h sampleEnv (some []) s₀ σ h₀ hreach).noWrap 4 1 3 I hout.ge hget hI
  rw [hn] at hle
  exact absurd hle (by decide)

end TagFilesystem.FuseLowlevel
