import TagFilesystem.Fuse.FailedOpen

namespace TagFilesystem.Fuse

variable {env : Env} {s s' : Store} {t : TagId} {T T' : Tag} {f : FileId} {F : File} {k : CStr}
  {e : CStr × TagId}

/-- The object has been made, and if it is live it has this name. -/
def Store.Labels (s : Store) (e : CStr × TagId) : Prop :=
  e.2 < s.tagHeap.next ∧ ∀ T, s.tagHeap.get? e.2 = some T → T.value = e.1

namespace Store.Labels

theorem of_get? (hs : s.Typed) (hk : s.tags.get? k = some t) : s.Labels (k, t) := by
  obtain ⟨T, hT, -⟩ := hs.tagEntry hk
  exact ⟨Heap.lt_next hT, fun T' hT' => hs.value_of_get? hk hT'⟩

theorem writeTag (h : s.Labels e) (hT : s.tagHeap.get? t = some T) (hv : T'.value = T.value) :
    (s.writeTag t T').Labels e := by
  refine ⟨h.1.trans_eq Heap.next_write.symm, fun T₁ h₁ => ?_⟩
  obtain ⟨ht, rfl⟩ | ⟨-, h₁⟩ := Heap.get?_write_cases h₁
  · exact hv.trans (h.2 T (ht ▸ hT))
  · exact h.2 T₁ h₁

theorem registerTag (h : s.Labels e) : (s.registerTag T).Labels e := by
  refine ⟨h.1.trans (Nat.lt_of_lt_of_eq (Nat.lt_succ_self _) Heap.next_alloc.symm), fun T₁ h₁ => ?_⟩
  obtain ⟨ht, -⟩ | ⟨-, h₁⟩ := Heap.get?_alloc_cases h₁
  · exact absurd ht (Nat.ne_of_lt h.1)
  · exact h.2 T₁ h₁

theorem dropTag (h : s.Labels e) (hT : s.tagHeap.get? t = some T) : (s.dropTag t T).Labels e := by
  unfold Store.Labels Store.dropTag
  dsimp only
  split_ifs
  · exact ⟨h.1.trans_eq Heap.next_free.symm, fun T₁ h₁ => h.2 T₁ (Heap.of_get?_free h₁).2⟩
  · have hwrite : (s.writeTag t { T with refCount := T.refCount - 1 }).Labels e := h.writeTag hT rfl
    exact hwrite

end Store.Labels

section

variable {P R L : Held} {A : CStr × TagId → Prop} (hold : ∀ e ∈ P ++ R ++ L, A e) (hnew : A e)
include hold hnew

theorem forall_path : ∀ e' ∈ P ++ [e] ++ R ++ L, A e' := by
  intro e' he'
  by_cases h : e' = e
  · exact h ▸ hnew
  · exact hold e' (by simpa [h] using he')

theorem forall_rest : ∀ e' ∈ P ++ (R ++ [e]) ++ L, A e' := by
  intro e' he'
  by_cases h : e' = e
  · exact h ▸ hnew
  · exact hold e' (by simpa [h] using he')

end

/-- The entries of every live path are labelled. -/
def labelled : Discipline where
  opening P R s := s.Tidy ∧ ∀ e ∈ P ++ R ++ s.held, s.Labels e
  closing P R x s := s.Tidy ∧ ∀ e ∈ P ++ R ++ (s.without x).held, s.Labels e
  ready _ _ := True
  closable _ _ := True

theorem labelled_sound : labelled.Sound (fun _ => True) where
  fault _ := trivial
  tidy h := h.1
  closing_tidy h := h.1
  dead _ _ _ := trivial
  closing_dead _ _ _ := trivial
  dead_carried _ _ _ _ := trivial
  touchFile h hF hn ht := ⟨h.1.writeFile hF hn (ht ▸ h.1.fileTagsUnique hF), h.2⟩
  closing_touchFile {P R x s f F F'} h hF hn ht := by
    refine ⟨h.1.writeFile hF hn (ht ▸ h.1.fileTagsUnique hF), ?_⟩
    cases x <;> exact h.2
  perm h hp := ⟨h.1, fun e he => h.2 e (((hp.append_left _).append_right _).mem_iff.mpr he)⟩
  closing_perm h hp := ⟨h.1, fun e he => h.2 e (((hp.append_left _).append_right _).mem_iff.mpr he)⟩
  spare h := ⟨h.1, fun e he => h.2 e ((List.perm_middle.append_right _).mem_iff.mp he)⟩
  store {R s fds leaked} h hp :=
    ⟨(h.1.setDescriptors fds).setLeaked leaked, fun e he => h.2 e (hp.mem_iff.mp he)⟩
  fetch {s a fd} h ha _ := ⟨h.1, fun e he => h.2 e ((held_erase ha).mem_iff.mpr he)⟩
  close h _ := h
  reopen {x s} h := by
    cases x with
    | none => exact h
    | some a => exact ⟨h.1.setDescriptors _, h.2⟩
  init := ⟨tidy_init, by rintro e ⟨⟩⟩
  acquire {P R s k t T} h hk hT := by
    have ht : (s.writeTag t { T with refCount := T.refCount + 1 }).Tidy :=
      h.1.touchTag hT rfl rfl id
    have hnew : (s.writeTag t { T with refCount := T.refCount + 1 }).Labels (k, t) :=
      (Store.Labels.of_get? h.1.toTyped hk).writeTag hT rfl
    have hold (e) (he : e ∈ P ++ R ++ s.held) :
        (s.writeTag t { T with refCount := T.refCount + 1 }).Labels e := (h.2 e he).writeTag hT rfl
    exact ⟨⟨ht, forall_path hold hnew⟩, ht, forall_rest hold hnew⟩
  create {P R s k} h hk := by
    have ht := h.1.registerTag (T := { tagNew k false with refCount := 1 }) hk rfl
    have hnew : (s.registerTag { tagNew k false with refCount := 1 }).Labels (k, s.tagHeap.next) :=
      .of_get? ht.toTyped Table.get?_add_self
    have hold (e) (he : e ∈ P ++ R ++ s.held) :
        (s.registerTag { tagNew k false with refCount := 1 }).Labels e := (h.2 e he).registerTag
    exact ⟨⟨ht, forall_path hold hnew⟩, ht, forall_rest hold hnew⟩
  createUsed {P R s k} h hk :=
    ⟨h.1.registerTag (T := { tagNew k true with refCount := 1 }) hk rfl,
      fun e he => (h.2 e he).registerTag⟩
  use {R s k t T} h _ hT :=
    ⟨h.1.touchTag hT rfl rfl fun _ => rfl, fun e he => (h.2 e he).writeTag hT rfl⟩
  registerFile h hn := ⟨h.1.registerFile (F := fileNew _) hn rfl, h.2⟩
  attach {P R env s e T f F} h _ hT hF hn :=
    ⟨h.1.attach hT hF hn, fun e' he' => (h.2 e' he').writeTag hT rfl⟩
  reference {s k t T} h _ _ hT :=
    ⟨h.1.touchTag hT rfl rfl id, fun e he => (h.2 e he).writeTag hT rfl⟩
  attachParsed {env s k t T f F} h _ _ hT hF hn :=
    ⟨h.1.attach hT hF hn, fun e he => (h.2 e he).writeTag hT rfl⟩
  unlinkKeep {P R env s e T f F} h hT hF _ := by
    refine ⟨h.1.detach hT hF, fun e' he' => ?_⟩
    have hmem : e' ∈ e :: P ++ R ++ s.held := (List.perm_middle.append_right s.held).mem_iff.mp he'
    exact (h.2 e' hmem).writeTag hT rfl
  unlinkDrop {P R env s e T f F} h hT hF _ _ := by
    have hT' : (s.detach env e.2 T f F).tagHeap.get? e.2 = some { T with files := T.files.erase F.name } :=
      Store.detach_get?_self hT
    refine ⟨(h.1.detach hT hF).dropTag hT', fun e' he' => ?_⟩
    have hmem : e' ∈ e :: P ++ R ++ s.held := (List.perm_middle.append_right s.held).mem_iff.mp he'
    have hdetach : (s.detach env e.2 T f F).Labels e' := (h.2 e' hmem).writeTag hT rfl
    exact hdetach.dropTag hT'
  keep {P R x s e T} h _ _ :=
    ⟨h.1, fun e' he' => h.2 e' ((List.perm_middle.append_right _).symm.mem_iff.mp (List.mem_cons_of_mem e he'))⟩
  drop {P R x s e T} h hT _ := by
    refine ⟨h.1.dropTag hT, fun e' he' => ?_⟩
    have hmem : e' ∈ P ++ e :: R ++ (s.without x).held :=
      (List.perm_middle.append_right _).symm.mem_iff.mp (List.mem_cons_of_mem e (by cases x <;> exact he'))
    exact (h.2 e' hmem).dropTag hT

end TagFilesystem.Fuse
