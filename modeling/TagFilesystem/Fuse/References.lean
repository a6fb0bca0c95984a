import TagFilesystem.Fuse.LinkSpec
import TagFilesystem.Fuse.CountsRuns

namespace TagFilesystem.Fuse

open Cutil (INT_MAX)

variable {env : Env} {s : Store} {t t' : TagId} {T T' : Tag} {f f' : FileId} {F F' : File}
  {k n : CStr} {x : Option Addr} {e : CStr × TagId} {P P' R H H' : Held}

namespace Store

/-- The counts cover the holders `H`; `P` are those that may still remove a tag in use. -/
structure Counted (s : Store) (P H : Held) : Prop where
  tidy : s.Tidy
  pending : P ⊆ H
  live : ∀ {e}, e ∈ H → ∃ T, s.tagHeap.get? e.2 = some T
  used : ∀ {t T}, s.tagHeap.get? t = some T → T.inUse = true → 1 + occurrences P t ≤ T.refCount
  unused : ∀ {t T}, s.tagHeap.get? t = some T → T.inUse = false →
    T.refCount = occurrences H t ∧ 1 ≤ T.refCount
  carried : ∀ {f F e}, s.fileHeap.get? f = some F → e ∈ F.tags.entries → s.InUse e.2

namespace Counted

theorem perm (h : s.Counted P H) (hp : H.Perm H') : s.Counted P H' where
  tidy := h.tidy
  pending := fun _ he => hp.mem_iff.mp (h.pending he)
  live he := h.live (hp.mem_iff.mpr he)
  used := h.used
  unused hT hu := by
    rw [← occurrences_perm hp]
    exact h.unused hT hu
  carried := h.carried

theorem permPending (h : s.Counted P H) (hp : P.Perm P') : s.Counted P' H where
  tidy := h.tidy
  pending := fun _ he => h.pending (hp.mem_iff.mpr he)
  live := h.live
  used hT hu := by
    rw [← occurrences_perm hp]
    exact h.used hT hu
  unused := h.unused
  carried := h.carried

theorem frame (h : s.Counted P H) (fds : Table Addr FileDescriptor) (leaked : Table Addr Path) :
    Counted { s with fds := fds, leaked := leaked } P H :=
  ⟨(h.tidy.setDescriptors fds).setLeaked leaked, h.pending, h.live, h.used, h.unused, h.carried⟩

theorem spare (h : s.Counted (e :: P) H) : s.Counted P H where
  tidy := h.tidy
  pending := fun _ he => h.pending (List.mem_cons_of_mem _ he)
  live := h.live
  used hT hu := by
    have := h.used hT hu
    rw [occurrences_cons] at this
    omega
  unused := h.unused
  carried := h.carried

theorem keep (h : s.Counted P (e :: H)) (hP : P ⊆ H) (hu : s.InUse e.2) : s.Counted P H where
  tidy := h.tidy
  pending := hP
  live he := h.live (List.mem_cons_of_mem _ he)
  used := h.used
  unused {t T} hT hTu := by
    obtain ⟨T', hT', hu'⟩ := hu
    have hne : e.2 ≠ t := by
      rintro rfl
      rw [hT] at hT'
      cases hT'
      rw [hTu] at hu'
      cases hu'
    simpa [hne] using h.unused hT hTu
  carried := h.carried

theorem writeTag (h : s.Counted P H) (hT : s.tagHeap.get? t = some T)
    (htidy : (s.writeTag t T').Tidy) (hpend : P' ⊆ H') (hlive : ∀ e ∈ H', e ∈ H ∨ e.2 = t)
    (hP : ∀ t', t' ≠ t → occurrences P' t' ≤ occurrences P t')
    (hH : ∀ t', t' ≠ t → occurrences H' t' = occurrences H t')
    (hkeep : T.inUse = true → T'.inUse = true)
    (hused : T'.inUse = true → 1 + occurrences P' t ≤ T'.refCount)
    (hunused : T'.inUse = false → T'.refCount = occurrences H' t ∧ 1 ≤ T'.refCount) :
    (s.writeTag t T').Counted P' H' where
  tidy := htidy
  pending := hpend
  live {e} he := by
    rw [Store.writeTag_tagHeap, Heap.get?_write]
    split_ifs with het
    · exact ⟨T', by rw [het, hT]; rfl⟩
    · exact h.live ((hlive e he).resolve_right het)
  used {t' T₁} h₁ hu := by
    obtain ⟨rfl, rfl⟩ | ⟨ht, h₁⟩ := Heap.get?_write_cases h₁
    · exact hused hu
    · have := h.used h₁ hu
      have := hP t' ht
      omega
  unused {t' T₁} h₁ hu := by
    obtain ⟨rfl, rfl⟩ | ⟨ht, h₁⟩ := Heap.get?_write_cases h₁
    · exact hunused hu
    · rw [hH t' ht]
      exact h.unused h₁ hu
  carried {f F e} hF he := by
    obtain ⟨T₁, h₁, hu⟩ := h.carried hF he
    by_cases het : e.2 = t
    · rw [het] at h₁ ⊢
      rw [hT] at h₁
      cases h₁
      exact ⟨T', Heap.get?_write_self hT, hkeep hu⟩
    · exact ⟨T₁, by simpa [Heap.get?_write_ne het] using h₁, hu⟩

theorem writeFile (h : s.Counted P H) (hF : s.fileHeap.get? f = some F) (hn : F'.name = F.name)
    (hu : F'.tags.Unique) (hsub : ∀ e ∈ F'.tags.entries, e ∈ F.tags.entries ∨ s.InUse e.2) :
    (s.writeFile f F').Counted P H where
  tidy := h.tidy.writeFile hF hn hu
  pending := h.pending
  live := h.live
  used := h.used
  unused := h.unused
  carried {f' F₁ e} h₁ he := by
    obtain ⟨rfl, rfl⟩ | ⟨-, h₁⟩ := Heap.get?_write_cases h₁
    · exact (hsub e he).elim (h.carried hF) id
    · exact h.carried h₁ he

theorem registerTag (h : s.Counted P H) (hk : s.tags.get? T.value = none) (hnil : T.files = .empty)
    (hpend : P' ⊆ H') (hlive : ∀ e ∈ H', e ∈ H ∨ e.2 = s.tagHeap.next)
    (hP : ∀ t, t ≠ s.tagHeap.next → occurrences P' t ≤ occurrences P t)
    (hH : ∀ t, t ≠ s.tagHeap.next → occurrences H' t = occurrences H t)
    (hused : T.inUse = true → 1 + occurrences P' s.tagHeap.next ≤ T.refCount)
    (hunused : T.inUse = false →
      T.refCount = occurrences H' s.tagHeap.next ∧ 1 ≤ T.refCount) :
    (s.registerTag T).Counted P' H' where
  tidy := h.tidy.registerTag hk hnil
  pending := hpend
  live {e} he := by
    rcases hlive e he with hold | hnew
    · obtain ⟨T₁, h₁⟩ := h.live hold
      exact ⟨T₁, Heap.get?_alloc_of_some h₁⟩
    · exact ⟨T, by rw [hnew]; exact Heap.get?_alloc_next⟩
  used {t' T₁} h₁ hu := by
    obtain ⟨rfl, rfl⟩ | ⟨ht, h₁⟩ := Heap.get?_alloc_cases h₁
    · exact hused hu
    · have := h.used h₁ hu
      have := hP t' ht
      omega
  unused {t' T₁} h₁ hu := by
    obtain ⟨rfl, rfl⟩ | ⟨ht, h₁⟩ := Heap.get?_alloc_cases h₁
    · exact hunused hu
    · rw [hH t' ht]
      exact h.unused h₁ hu
  carried hF he := by
    obtain ⟨T₁, h₁, hu⟩ := h.carried hF he
    exact ⟨T₁, Heap.get?_alloc_of_some h₁, hu⟩

theorem occurrences_next (h : s.Counted P H) : occurrences H s.tagHeap.next = 0 := by
  refine occurrences_eq_zero fun e he => ?_
  obtain ⟨T, hT⟩ := h.live he
  exact Heap.ne_next hT

theorem occurrences_le (h : s.Counted P H) : occurrences P s.tagHeap.next = 0 := by
  refine occurrences_eq_zero fun e he => ?_
  obtain ⟨T, hT⟩ := h.live (h.pending he)
  exact Heap.ne_next hT

theorem acquire (h : s.Counted P H) (hT : s.tagHeap.get? t = some T) :
    (s.writeTag t { T with refCount := T.refCount + 1 }).Counted ((k, t) :: P) ((k, t) :: H) := by
  refine h.writeTag hT (h.tidy.touchTag hT rfl rfl id) (List.cons_subset_cons _ h.pending)
    (fun e he => ?_) ?_ ?_ id ?_ ?_
  · rcases List.mem_cons.mp he with rfl | he
    · exact .inr rfl
    · exact .inl he
  · intro t' ht'
    simp [Ne.symm ht']
  · intro t' ht'
    simp [Ne.symm ht']
  · intro hu
    have := h.used hT hu
    simp only [occurrences_cons, if_true]
    omega
  · intro hu
    have := h.unused hT hu
    simp only [occurrences_cons, if_true]
    omega

theorem create (h : s.Counted P H) (hk : s.tags.get? k = none) :
    (s.registerTag { tagNew k false with refCount := 1 }).Counted
      ((k, s.tagHeap.next) :: P) ((k, s.tagHeap.next) :: H) := by
  refine h.registerTag (T := { tagNew k false with refCount := 1 }) hk rfl
    (List.cons_subset_cons _ h.pending) (fun e he => ?_) ?_ ?_ ?_ ?_
  · rcases List.mem_cons.mp he with rfl | he
    · exact .inr rfl
    · exact .inl he
  · intro t' ht'
    simp [Ne.symm ht']
  · intro t' ht'
    simp [Ne.symm ht']
  · intro hu
    cases hu
  · intro _
    rw [occurrences_cons, if_pos rfl, h.occurrences_next]
    exact ⟨rfl, Int.le_refl 1⟩

theorem either {L : Held} (h : s.Counted (e :: P) (e :: (P ++ R ++ L))) :
    s.Counted (P ++ [e]) (P ++ [e] ++ R ++ L) ∧ s.Counted P (P ++ (R ++ [e]) ++ L) := by
  constructor
  · refine (h.permPending (List.perm_append_singleton e P).symm).perm ?_
    simp only [List.append_assoc, List.singleton_append]
    exact List.perm_middle.symm
  · apply h.spare.perm
    simp only [List.append_assoc, List.singleton_append]
    exact List.perm_middle.symm.trans (List.perm_middle.symm.append_left P)

theorem drop (h : s.Counted P (e :: H)) (hP : ∀ e ∈ P, s.InUse e.2)
    (hT : s.tagHeap.get? e.2 = some T) (hu : T.inUse = false) : (s.dropTag e.2 T).Counted P H := by
  have hcount := h.unused hT hu
  have hne (t : TagId) (ht : s.InUse t) : t ≠ e.2 := by
    rintro rfl
    obtain ⟨T', hT', hu'⟩ := ht
    rw [hT] at hT'
    cases hT'
    rw [hu] at hu'
    cases hu'
  have hsub : P ⊆ H := fun p hp =>
    (List.mem_cons.mp (h.pending hp)).resolve_left fun he => hne p.2 (hP p hp) (by rw [he])
  have htidy := h.tidy.dropTag hT
  simp only [occurrences_cons, if_true] at hcount
  unfold Store.dropTag at htidy ⊢
  split_ifs at htidy ⊢ with hr
  · have hzero : occurrences H e.2 = 0 := by omega
    have hother {t' : TagId} {T₁ : Tag} (h₁ : (s.tagHeap.free e.2).get? t' = some T₁) :
        t' ≠ e.2 ∧ s.tagHeap.get? t' = some T₁ := by
      exact Heap.of_get?_free h₁
    refine ⟨htidy, hsub, fun {p} hp => ?_, fun h₁ hu₁ => h.used (hother h₁).2 hu₁,
      fun {t' T₁} h₁ hu₁ => ?_, fun hF hc => ?_⟩
    · have hpe : p.2 ≠ e.2 := by
        intro hpe
        have := List.count_pos_iff.mpr (List.mem_map.mpr ⟨p, hp, hpe⟩ : e.2 ∈ H.map Prod.snd)
        rw [occurrences] at hzero
        omega
      obtain ⟨T₁, h₁⟩ := h.live (List.mem_cons_of_mem e hp)
      exact ⟨T₁, by simpa [Heap.get?_free, hpe] using h₁⟩
    · have := h.unused (hother h₁).2 hu₁
      simpa [(hother h₁).1.symm] using this
    · obtain ⟨T₁, h₁, hu₁⟩ := h.carried hF hc
      exact ⟨T₁, by simpa [Heap.get?_free, hne _ ⟨T₁, h₁, hu₁⟩] using h₁, hu₁⟩
  · have hw : (s.writeTag e.2 { T with refCount := T.refCount - 1 }).Counted P H := by
      refine h.writeTag hT (h.tidy.touchTag hT rfl rfl id) hsub
        (fun p hp => .inl (List.mem_cons_of_mem e hp)) (fun _ _ => le_refl _) ?_ id ?_ ?_
      · intro t' ht'
        simp [Ne.symm ht']
      · intro hu'
        rw [hu] at hu'
        cases hu'
      · intro _
        dsimp only
        omega
    exact ⟨htidy, hw.pending, hw.live, hw.used, hw.unused, hw.carried⟩

theorem dropUsed (h : s.Counted (e :: P) H) (hT : s.tagHeap.get? e.2 = some T)
    (hu : T.inUse = true) : (s.dropTag e.2 T).Counted P H := by
  have hcount := h.used hT hu
  rw [occurrences_cons, if_pos rfl] at hcount
  have hr : T.refCount - 1 ≠ 0 := by omega
  have htidy := h.tidy.dropTag hT
  unfold Store.dropTag at htidy ⊢
  rw [if_neg hr] at htidy ⊢
  have hw : (s.writeTag e.2 { T with refCount := T.refCount - 1 }).Counted P H := by
    refine h.writeTag hT (h.tidy.touchTag hT rfl rfl id)
      (fun p hp => h.pending (List.mem_cons_of_mem e hp)) (fun p hp => .inl hp) ?_
      (fun _ _ => rfl) id ?_ ?_
    · intro t' ht'
      simp
    · intro _
      dsimp only
      omega
    · intro hu'
      rw [hu] at hu'
      cases hu'
  exact ⟨htidy, hw.pending, hw.live, hw.used, hw.unused, hw.carried⟩

theorem attach (h : s.Counted P H) (hT : s.tagHeap.get? t = some T)
    (hF : s.fileHeap.get? f = some F) (hn : s.files.get? F.name = some f)
    (hcount : 1 + occurrences P t ≤ T.refCount) : (s.attach env t T f F).Counted P H := by
  have hw : (s.writeTag t { T with files := T.files.addNew F.name f, inUse := true }).Counted P H := by
    refine h.writeTag hT (h.tidy.addFile hT hn) h.pending (fun _ he => .inl he)
      (fun _ _ => le_refl _) (fun _ _ => rfl) (fun _ => rfl) (fun _ => hcount) ?_
    intro hu
    cases hu
  change ((s.writeTag t _).writeFile f _).Counted P H
  refine hw.writeFile hF rfl (h.tidy.fileTagsUnique hF).addNew fun p hp => ?_
  unfold Table.addNew at hp
  split_ifs at hp
  · exact .inl hp
  · rcases List.mem_append.mp hp with hp | hp
    · exact .inl hp
    · rw [List.mem_singleton.mp hp]
      exact .inr ⟨_, Heap.get?_write_self hT, rfl⟩

theorem detach (h : s.Counted P H) (hT : s.tagHeap.get? t = some T)
    (hF : s.fileHeap.get? f = some F) : (s.detach env t T f F).Counted P H := by
  have hw : (s.writeFile f { F with
      tags := F.tags.erase T.value
      revents := s.notified env F POLLOUT }).Counted P H :=
    h.writeFile hF rfl (h.tidy.fileTagsUnique hF).erase fun e he =>
      .inl (Table.entries_erase_sublist.subset he)
  exact hw.writeTag (T := T) hT (hw.tidy.removeFile hT) h.pending (fun _ he => .inl he)
    (fun _ _ => le_refl _) (fun _ _ => rfl) id (h.used (T := T) hT) (h.unused (T := T) hT)

end Counted

theorem InUse.write {s' : Store} (h : s.InUse t') (hT : s.tagHeap.get? t = some T)
    (hs : s'.tagHeap = s.tagHeap.write t T') (hu : T.inUse = true → T'.inUse = true) :
    s'.InUse t' := by
  obtain ⟨T₁, h₁, hu₁⟩ := h
  rw [InUse, hs]
  by_cases ht : t' = t
  · subst ht
    rw [hT] at h₁
    cases h₁
    exact ⟨T', Heap.get?_write_self hT, hu hu₁⟩
  · exact ⟨T₁, by simpa [Heap.get?_write_ne ht] using h₁, hu₁⟩

theorem InUse.dropTag (h : s.InUse t') (hT : s.tagHeap.get? t = some T)
    (hor : T.inUse = false ∨ T.refCount - 1 ≠ 0) : (s.dropTag t T).InUse t' := by
  unfold Store.dropTag
  split_ifs with hr
  · have hu := hor.resolve_right (not_not.mpr hr)
    obtain ⟨T₁, h₁, hu₁⟩ := h
    have hne : t' ≠ t := by
      rintro rfl
      rw [hT] at h₁
      cases h₁
      rw [hu] at hu₁
      cases hu₁
    exact ⟨T₁, by simpa [Heap.get?_free, hne] using h₁, hu₁⟩
  · exact h.write hT rfl id

end Store

/-- A tag may be taken from a file only if it is in use; anything else keeps the counts. -/
def references : Discipline where
  opening P R s := s.Counted P (P ++ R ++ s.held)
  closing P R x s := s.Counted P (P ++ R ++ (s.without x).held) ∧ ∀ e ∈ P, s.InUse e.2
  ready := Store.InUse
  closable _ _ := True

theorem references_sound : references.Sound (· ≠ .freedTag) where
  fault h := h
  tidy h := h.tidy
  closing_tidy h := h.1.tidy
  dead h he hd := by
    obtain ⟨T, hT⟩ := h.live he
    rw [hT] at hd
    cases hd
  closing_dead h he hd := by
    obtain ⟨T, hT⟩ := h.1.live (List.mem_append_left _ he)
    rw [hT] at hd
    cases hd
  dead_carried h hF he hd := by
    obtain ⟨T, hT, -⟩ := h.carried hF he
    rw [hT] at hd
    cases hd
  touchFile h hF hn ht :=
    h.writeFile hF hn (ht ▸ h.tidy.fileTagsUnique hF) fun e he => .inl (ht ▸ he)
  closing_touchFile {P R x s f F F'} h hF hn ht := by
    have hw := h.1.writeFile hF hn (ht ▸ h.1.tidy.fileTagsUnique hF) fun e he => .inl (ht ▸ he)
    cases x with
    | none => exact ⟨hw, h.2⟩
    | some a => exact ⟨hw, h.2⟩
  perm h hp := h.perm ((hp.append_left _).append_right _)
  closing_perm h hp := ⟨h.1.perm ((hp.append_left _).append_right _), h.2⟩
  spare {e P R s} h := h.spare.perm (List.perm_middle.symm.append_right _)
  store h hp := (h.perm hp.symm).frame _ _
  fetch {s a fd} h hfd _ := ⟨h.perm (held_erase hfd), by simp⟩
  close h hready := ⟨h, hready⟩
  reopen {x s} h := by
    cases x with
    | none => exact h.1
    | some a => exact h.1.frame _ _
  init := by
    refine ⟨tidy_init, by simp, ?_, ?_, ?_, ?_⟩ <;> intros <;> contradiction
  acquire h _ hT := (h.acquire hT).either
  create h hk := (h.create hk).either
  createUsed {P R s k} h hk := by
    refine h.registerTag (T := { tagNew k true with refCount := 1 }) hk rfl h.pending
      (fun e he => .inl he) (fun _ _ => le_refl _) (fun _ _ => rfl) ?_ ?_
    · intro _
      simp [h.occurrences_le]
    · intro hu
      cases hu
  use {R s k t T} h _ hT := by
    refine h.writeTag hT (h.tidy.touchTag hT rfl rfl fun _ => rfl) h.pending (fun e he => .inl he)
      (fun _ _ => le_refl _) (fun _ _ => rfl) (fun _ => rfl) ?_ ?_
    · intro _
      cases hu : T.inUse with
      | true => exact h.used (T := T) hT hu
      | false => simpa using (h.unused (T := T) hT hu).2
    · intro hu
      cases hu
  registerFile {P R s n} h hn := by
    refine ⟨h.tidy.registerFile (F := fileNew n) hn rfl, h.pending, h.live, h.used, h.unused, ?_⟩
    intro f F e hF he
    obtain ⟨-, rfl⟩ | ⟨-, hF⟩ := Heap.get?_alloc_cases hF
    · simp [fileNew] at he
    · exact h.carried hF he
  attach {P R env s e T f F} h he hT hF hn := by
    apply h.attach hT hF hn
    cases hu : T.inUse with
    | true => exact h.used hT hu
    | false =>
      -- the occurrence in `R` is not pending
      have hpos : 0 < occurrences R e.2 := List.count_pos_iff.mpr (List.mem_map_of_mem he)
      have := (h.unused hT hu).1
      simp only [occurrences_append] at this
      omega
  reference {s k t T} h hnil _ hT := by
    change Store.Counted _ [] ([] ++ [] ++ s.held) at h
    rw [hnil] at h
    -- no path is held here, and a tag that is not in use would be held by one
    have hu : T.inUse = true := by
      cases hu : T.inUse with
      | true => rfl
      | false =>
        have := h.unused hT hu
        simp only [List.append_nil, occurrences_nil] at this
        omega
    change Store.Counted _ [] ([] ++ [] ++ s.held)
    rw [hnil]
    refine h.writeTag hT (h.tidy.touchTag hT rfl rfl id) h.pending (fun e he => .inl he)
      (fun _ _ => le_refl _) (fun _ _ => rfl) id ?_ ?_
    · intro _
      have := h.used hT hu
      dsimp only
      omega
    · intro hu'
      rw [hu] at hu'
      cases hu'
  attachParsed {env s k t T f F} h hnil _ hT hF hn := by
    apply h.attach hT hF hn
    cases hu : T.inUse with
    | true => exact h.used hT hu
    | false => simpa using (h.unused hT hu).2
  unlinkKeep {P R env s e T f F} h hT hF _ :=
    ⟨(h.1.detach hT hF).spare.perm (List.perm_middle.symm.append_right _), fun p hp =>
      (h.2 p (List.mem_cons_of_mem _ hp)).write hT rfl id⟩
  unlinkDrop {P R env s e T f F} h hT hF _ _ := by
    -- a tag of the path is in use while files are taken from it
    obtain ⟨T₀, hT₀, hu⟩ := h.2 e List.mem_cons_self
    rw [hT] at hT₀
    cases hT₀
    have hd : (s.detach env e.2 T f F).Counted (e :: P) _ := h.1.detach hT hF
    have hT' : (s.detach env e.2 T f F).tagHeap.get? e.2 =
        some { T with files := T.files.erase F.name } := Heap.get?_write_self hT
    refine ⟨(hd.dropUsed hT' hu).perm (List.perm_middle.symm.append_right _), fun p hp => ?_⟩
    -- an occurrence that is still pending counts once more than the one at hand
    have hcount := h.1.used hT hu
    rw [occurrences_cons, if_pos rfl] at hcount
    refine Store.InUse.dropTag ((h.2 p (List.mem_cons_of_mem _ hp)).write hT rfl id) hT' (.inr ?_)
    dsimp only
    omega
  keep {P R x s e T} h hT hu := by
    refine ⟨(h.1.perm (List.perm_middle.append_right _)).keep ?_ ⟨T, hT, hu⟩, h.2⟩
    intro p hp
    exact List.mem_append_left _ (List.mem_append_left _ hp)
  drop {P R x s e T} h hT hu := by
    have hd := (h.1.perm (List.perm_middle.append_right _)).drop h.2 hT hu
    have hin : ∀ p ∈ P, (s.dropTag e.2 T).InUse p.2 := fun p hp => (h.2 p hp).dropTag hT (.inl hu)
    cases x with
    | none => exact ⟨hd, hin⟩
    | some a => exact ⟨hd, hin⟩

/-- `unlink` is refused, or the file has no record, or all tags of the path are in use. -/
def UnlinkSafe (s : Store) (userPath : CStr) : Prop :=
  getCharacterCount userPath slash ≤ 1 ∨ s.files.get? (basename userPath) = none ∨
    ∀ k ∈ components (dirname userPath), s.UsedName k

/-- `rename` is refused, or the tag of the source is in use, or the source stands for the root:
then linking it either puts the same tag in use, or fails and there is no record to untag. -/
def RenameSafe (env : Env) (s : Store) (src dst : CStr) : Prop :=
  (components (dirname src)).length ≠ 1 ∨ (components (dirname dst)).length ≠ 1 ∨
    (∀ k ∈ components (dirname src), s.UsedName k) ∨
    env.regular (pathRealpath env src) = false ∧
      if (env.stat env.realdirpath).isSome = true then
        components (dirname dst) = components (dirname src)
      else s.files.get? (basename src) = none

/-- `unlink` and `rename` take from a file only tags that are in use. -/
def UntagSafe (s : Store) (e : Event) : Prop :=
  match e.callback with
  | .unlink p => UnlinkSafe s p
  | .rename p q => RenameSafe e.env s p q
  | _ => True

theorem unlinkReady {userPath : CStr} (h : s.Tidy) (hs : UnlinkSafe s userPath) :
    references.UnlinkReady env s userPath := by
  intro hc path s₁ hp hrec e he
  obtain ⟨hpath, hm⟩ := made_of_pathCreate h.toTyped hp
  rcases hs with hs | hs | hs
  · omega
  · rw [hpath, hm.files] at hrec
    simp [pathOf, hs] at hrec
  · exact hm.inUse_entry hs he

theorem renameReady {src dst : CStr} (h : s.Tidy) (hs : RenameSafe env s src dst) :
    references.RenameReady env s src dst := by
  intro ffrom s₁ fto s₂ r hsrc hdst hsize₁ hsize₂ hlink hrec e he
  obtain ⟨hfrom, hm₁⟩ := made_of_pathCreate h.toTyped hsrc
  obtain ⟨hto, hm₂⟩ := made_of_pathCreate hm₁.typed hdst
  have hentry₁ (e) (he : e ∈ ffrom.held) : s₂.tags.get? e.1 = some e.2 := hm₂.kept (hm₁.entry he)
  have hlive₂ (e) (he : e ∈ fto.held) : ∃ T, s₂.tagHeap.get? e.2 = some T := by
    obtain ⟨T, hT, -⟩ := hm₂.typed.tagEntry (hm₂.entry he)
    exact ⟨T, hT⟩
  have hl := (sat_pathLink (E := fun _ => True) hm₂.typed
    (fun e he => hm₂.typed.tagEntry (hentry₁ e he)) hlive₂).of_ok hlink
  have hlen₁ : (components (dirname src)).length = 1 := by
    have := congrArg List.length hm₁.keys
    simpa [Table.keys, ← hsize₁, Table.size] using this.symm
  have hlen₂ : (components (dirname dst)).length = 1 := by
    have := congrArg List.length hm₂.keys
    simpa [Table.keys, ← hsize₂, Table.size] using this.symm
  rcases hs with hs | hs | hs | ⟨hreg, hs⟩
  · exact absurd hlen₁ hs
  · exact absurd hlen₂ hs
  · -- the tag was in use all along
    have hu := hm₂.inUse (hm₁.inUse_entry hs he)
    rcases hl with ⟨-, -, hr⟩ | ⟨-, -, ha⟩
    · obtain ⟨T, hT, hu⟩ := hu
      exact ⟨T, by simpa [hr] using hT, hu⟩
    · obtain ⟨T, hT, hu⟩ := hu
      exact ha.inUse ⟨T, by simpa using hT, hu⟩
  · have hreg' : env.regular ffrom.realpath = false := by rw [hfrom]; exact hreg
    rcases hl with ⟨-, hno, hr⟩ | ⟨-, hyes, ha⟩
    · -- linking failed, and there is no record
      simp only [Accepts, hreg', Bool.false_eq_true, if_false] at hno
      rw [if_neg hno] at hs
      rw [hr, getattrStore, hreg', if_neg (by simp), hm₂.files, hm₁.files, hfrom] at hrec
      simp [pathOf, hs] at hrec
    · -- linking put the tag in use
      simp only [Accepts, hreg', Bool.false_eq_true, if_false] at hyes
      rw [if_pos hyes] at hs
      have hk : e.1 ∈ fto.selectedTags.keys := by
        have h₁ : e.1 ∈ ffrom.selectedTags.keys := List.mem_map_of_mem he
        rw [hm₁.keys] at h₁
        rw [hm₂.keys]
        simpa [hs] using h₁
      obtain ⟨e', he', hkey⟩ := List.mem_map.mp hk
      have hsame : e'.2 = e.2 := by
        have h₁ := hm₂.entry he'
        rw [hkey, hentry₁ e he] at h₁
        exact (Option.some.inj h₁).symm
      obtain ⟨T, hT⟩ := hlive₂ e' he'
      exact hsame ▸ ha.inUse_of_mem he' (by simpa using hT)

theorem references_permits {e : Event} (h : s.Tidy) (hs : UntagSafe s e) :
    references.Permits s e := by
  obtain ⟨env, c⟩ := e
  cases c with
  | release a => exact fun _ _ _ _ => trivial
  | unlink p => exact unlinkReady h hs
  | rename p q => exact renameReady h hs
  | _ => trivial

instance (s : Store) (userPath : CStr) : Decidable (UnlinkSafe s userPath) :=
  inferInstanceAs (Decidable (_ ∨ _ ∨ _))

instance (env : Env) (s : Store) (src dst : CStr) : Decidable (RenameSafe env s src dst) :=
  inferInstanceAs (Decidable (_ ∨ _ ∨ _ ∨ _ ∧ ite _ _ _))

instance (s : Store) (e : Event) : Decidable (UntagSafe s e) :=
  match e with
  | ⟨_, .unlink p⟩ => inferInstanceAs (Decidable (UnlinkSafe s p))
  | ⟨env, .rename p q⟩ => inferInstanceAs (Decidable (RenameSafe env s p q))
  | ⟨_, .getattr _⟩ | ⟨_, .fgetattr _⟩ | ⟨_, .setxattr _⟩ | ⟨_, .getxattr ..⟩ | ⟨_, .openFile ..⟩
  | ⟨_, .opendir ..⟩ | ⟨_, .release _⟩ | ⟨_, .readdir _⟩ | ⟨_, .read ..⟩ | ⟨_, .write ..⟩
  | ⟨_, .link ..⟩ | ⟨_, .rmdir _⟩ | ⟨_, .mkdir _⟩ | ⟨_, .mknod ..⟩ | ⟨_, .truncate ..⟩
  | ⟨_, .chmod ..⟩ | ⟨_, .chown ..⟩ | ⟨_, .utime _⟩ | ⟨_, .ioctl ..⟩ | ⟨_, .poll ..⟩ => .isTrue trivial

/-- In every run with `int ref_count` in which `unlink` and `rename` take from a file only tags in
use and the references of each call fit, the tags that live paths hold are live in every reached
store, and no callback reads or frees a freed tag. -/
theorem references_of_reaches {file : Option CStr} {s₀ : Store}
    (hfile : ∀ text ∈ file, (text.length : ℤ) ≤ INT_MAX)
    (h₀ : @setRootDirectory Counting.int env file = .ok s₀)
    (h : Reaches (@step Counting.int)
      (fun s e => UntagSafe s e ∧ s.RoomFor e.callback.references) s₀ s) :
    (∀ e ∈ s.held, ∃ T, s.tagHeap.get? e.2 = some T) ∧
      ∀ e, UntagSafe s e → s.RoomFor e.callback.references →
        @step Counting.int s e ≠ .error .freedTag := by
  obtain ⟨h₀', hfits₀⟩ := (coincide_setRootDirectory hfile).of_ok h₀
  obtain ⟨hrun, hfits⟩ := reaches_of_int hfits₀ h
  have hs : references.opening [] [] s := by
    refine hrun.invariant ((references_sound.setRootDirectory file).of_ok h₀').2 ?_
    intro s e s' hI hu he
    exact (references_sound.step hI (references_permits (references_sound.tidy hI) hu)).of_ok he
  refine ⟨fun e he => hs.live (by simpa using he), fun e hu hroom => ?_⟩
  rw [(coincide_step (hroom.extend hfits)).1]
  exact (references_sound.step hs (references_permits (references_sound.tidy hs) hu)).ne_error (by simp)

/-- Files are tagged, moved and untagged while a directory is open. -/
def safeUntagging : List Event := [
  ⟨sampleEnv, .link (samplePath [] nameF) (samplePath [nameY] nameF)⟩,
  ⟨sampleEnv, .opendir (samplePath [nameX] nameY) 0 ⟨1, some 2⟩⟩,
  ⟨sampleEnv, .rename (samplePath [nameY] nameF) (samplePath [nameX] nameF)⟩,
  ⟨sampleEnv, .unlink (samplePath [nameX] nameF)⟩]

theorem safeUntagging_references :
    ∃ s, execute (@step Counting.int) (fun s e => UntagSafe s e ∧ s.RoomFor e.callback.references)
        safeUntagging .init = some s ∧ s.held.length = 2 ∧
      (∀ e ∈ s.held, ∃ T, s.tagHeap.get? e.2 = some T) ∧
        @step Counting.int s ⟨sampleEnv, .release 2⟩ ≠ .error .freedTag := by
  have hrun : (execute (@step Counting.int)
      (fun s e => UntagSafe s e ∧ s.RoomFor e.callback.references) safeUntagging .init).any
        (fun s => s.held.length = 2) = true := by decide +kernel
  obtain ⟨s, hs, hlen⟩ := (Option.any_eq_true _ _).mp hrun
  have h₀ : @setRootDirectory Counting.int sampleEnv none = .ok .init := rfl
  have h := references_of_reaches (by simp) h₀ (reaches_of_execute hs)
  have hroom : s.RoomFor [] := ⟨by simp [INT_MAX], by simp⟩
  exact ⟨s, hs, of_decide_eq_true hlen, h.1, h.2 _ trivial hroom⟩

/-- Unlinking a file through a tag that is not in use frees the tag, and `path_delete` reads it. -/
theorem unlink_unused_freedTag : ¬ ∀ env file s₀ s e, @setRootDirectory Counting.int env file = .ok s₀ →
    Reaches (@step Counting.int) (fun _ _ => True) s₀ s → @step Counting.int s e ≠ .error .freedTag := by
  intro h
  have hrun : (execute (@step Counting.int) (fun _ _ => True)
      [⟨sampleEnv, .getattr (samplePath [] nameF)⟩] .init).any (fun s =>
        faultsWith (@step Counting.int s ⟨sampleEnv, .unlink (samplePath [nameX] nameF)⟩) .freedTag) =
          true := by decide +kernel
  obtain ⟨s, hs, hf⟩ := (Option.any_eq_true _ _).mp hrun
  exact h sampleEnv none .init s _ rfl (reaches_of_execute hs) (faultsWith_iff.mp hf)

end TagFilesystem.Fuse
