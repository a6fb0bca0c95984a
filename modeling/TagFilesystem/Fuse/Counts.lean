import TagFilesystem.Fuse.Effects
import TagFilesystem.Cutil.List

namespace TagFilesystem.Fuse

open Cutil (INT_MAX)

variable {env : Env} {s s' : Store} {t t' : TagId} {T T' : Tag} {k n : CStr} {ks ks' : List CStr}
  {sel : HashTable TagId} {D : TagId → Prop} {lo : ℤ} {f : FileId}

/-- The number of components that are registered under `t`. -/
def Store.mentions (s : Store) (ks : List CStr) (t : TagId) : ℕ :=
  ks.countP fun k => s.tags.get? k = some t

/-- The references that the components `ks` take leave the counts within `int`. -/
def Store.RoomFor (s : Store) (ks : List CStr) : Prop :=
  (ks.length : ℤ) ≤ INT_MAX ∧ ∀ k ∈ ks, ∀ t ∈ s.tags.get? k, ∀ T ∈ s.tagHeap.get? t,
    T.refCount + s.mentions ks t ≤ INT_MAX

instance (s : Store) (ks : List CStr) : Decidable (s.RoomFor ks) := inferInstanceAs (Decidable (_ ∧ _))

@[simp] theorem mentions_writeTag : (s.writeTag t T).mentions ks t' = s.mentions ks t' := rfl

@[simp] theorem mentions_nil : s.mentions [] t = 0 := rfl

theorem mentions_cons : s.mentions (k :: ks) t =
    s.mentions ks t + if s.tags.get? k = some t then 1 else 0 := by
  simp [Store.mentions, List.countP_cons]

theorem mentions_concat : s.mentions (ks ++ [k]) t =
    s.mentions ks t + if s.tags.get? k = some t then 1 else 0 := by
  simp [Store.mentions, List.countP_singleton]

theorem mentions_congr (h : ∀ k ∈ ks, s'.tags.get? k = s.tags.get? k) :
    s'.mentions ks t = s.mentions ks t := by
  refine List.countP_congr fun k hk => ?_
  rw [h k hk]

theorem mentions_eq_zero (h : ∀ k ∈ ks, s.tags.get? k ≠ some t) : s.mentions ks t = 0 := by
  refine List.countP_eq_zero.mpr fun k hk => ?_
  simpa using h k hk

theorem mentions_mono (h : ∀ k ∈ ks, s'.tags.get? k = some t → s.tags.get? k = some t) :
    s'.mentions ks t ≤ s.mentions ks t := by
  refine List.countP_mono_left fun k hk hget => ?_
  simp only [decide_eq_true_eq] at hget ⊢
  exact h k hk hget

section

variable [c : Counting]

/-- The body of the loop of `compute_selected_tags`. -/
def selectTag (r : HashTable TagId × Store) (name : CStr) :
    Except Fault (HashTable TagId × Store) := do
  let (t, s) := match tagGet r.2 name with
    | some t => (t, r.2)
    | none => tagGetOrCreateIn r.2 name false
  let s ← tagIncRef s t
  .ok (r.1.add name t, s)

theorem computeSelectedTags_eq (s : Store) (dirpath : CStr) :
    computeSelectedTags s dirpath = forEach (components dirpath) selectTag (.empty, s) := by
  unfold computeSelectedTags components
  split_ifs
  · rfl
  · rfl

theorem selectTag_eq : selectTag (sel, s) k = (do
    let s' ← tagIncRef (tagGetOrCreateIn s k false).2 (tagGetOrCreateIn s k false).1
    .ok (sel.add k (tagGetOrCreateIn s k false).1, s')) := by
  cases hk : s.tags.get? k with
  | some t => simp only [selectTag, tagGet, tagGetOrCreateIn, hk]
  | none => simp only [selectTag, tagGet, tagGetOrCreateIn, hk]

end

/-- The objects of `D` have counts from `lo` on, and room for the references that the components
`ks` still take; they are all that the components may refer to. -/
structure Store.Fits (s : Store) (lo : ℤ) (D : TagId → Prop) (ks : List CStr) : Prop where
  unique : s.tags.Unique
  room : (ks.length : ℤ) ≤ INT_MAX
  fresh : ∀ {t}, s.tagHeap.next ≤ t → D t
  registered : ∀ {k t}, k ∈ ks → s.tags.get? k = some t → D t
  low : ∀ {t T}, D t → s.tagHeap.get? t = some T → lo ≤ T.refCount
  high : ∀ {t T}, D t → s.tagHeap.get? t = some T → T.refCount + s.mentions ks t ≤ INT_MAX

namespace Store.Fits

theorem sublist (h : s.Fits lo D ks) (hks : ks'.Sublist ks) : s.Fits lo D ks' where
  unique := h.unique
  room := by
    have := hks.length_le
    have := h.room
    omega
  fresh := h.fresh
  registered hk := h.registered (hks.subset hk)
  low := h.low
  high {t T} hD hT := by
    have hm : s.mentions ks' t ≤ s.mentions ks t := hks.countP_le
    have := h.high hD hT
    omega

theorem tail (h : s.Fits lo D (k :: ks)) : s.Fits lo D ks := h.sublist (List.sublist_cons_self k ks)

theorem unregistered (h : s.Fits lo D []) (hk : s.tags.get? k = none) : s.Fits lo D [k] where
  unique := h.unique
  room := by simp [INT_MAX]
  fresh := h.fresh
  registered hmem hget := by
    rw [List.mem_singleton.mp hmem, hk] at hget
    cases hget
  low := h.low
  high {t T} hD hT := by
    have := h.high hD hT
    simpa [mentions_cons, hk] using this

theorem writeTag (h : s.Fits lo D ks) (hlo : lo ≤ T'.refCount)
    (hhi : T'.refCount + s.mentions ks t ≤ INT_MAX) : (s.writeTag t T').Fits lo D ks where
  unique := h.unique
  room := h.room
  fresh ht := h.fresh (by simpa using ht)
  registered := h.registered
  low hD hT := by
    obtain ⟨-, rfl⟩ | ⟨-, hT⟩ := Heap.get?_write_cases hT
    · exact hlo
    · exact h.low hD hT
  high hD hT := by
    obtain ⟨rfl, rfl⟩ | ⟨-, hT⟩ := Heap.get?_write_cases hT
    · exact hhi
    · exact h.high hD hT

theorem acquire (h : s.Fits lo D (k :: ks)) (hk : s.tags.get? k = some t)
    (hT : s.tagHeap.get? t = some T) :
    (s.writeTag t { T with refCount := T.refCount + 1 }).Fits lo D ks := by
  have hD := h.registered List.mem_cons_self hk
  have hlo := h.low hD hT
  have hhi := h.high hD hT
  rw [mentions_cons, if_pos hk] at hhi
  refine h.tail.writeTag ?_ ?_
  · dsimp only
    omega
  · dsimp only
    omega

theorem registerTag (h : s.Fits lo D (k :: ks)) (hlo : lo ≤ 1) (hk : s.tags.get? k = none)
    (hv : T.value = k) (hr : T.refCount = 1) : (s.registerTag T).Fits lo D ks := by
  have hget (k' : CStr) : (s.registerTag T).tags.get? k' =
      if k = k' then some s.tagHeap.next else s.tags.get? k' := hv ▸ Table.get?_add
  have hroom := h.room
  rw [List.length_cons] at hroom
  refine ⟨h.unique.add (hv ▸ hk), h.tail.room, fun ht => h.fresh ?_, fun {k' t'} hk' ht' => ?_,
    fun {t' T'} hD hT' => ?_, fun {t' T'} hD hT' => ?_⟩
  · have hnext : (s.tagHeap.alloc T).next ≤ _ := ht
    rw [Heap.next_alloc] at hnext
    omega
  · rw [hget] at ht'
    split_ifs at ht'
    · cases ht'
      exact h.fresh (le_refl _)
    · exact h.registered (List.mem_cons_of_mem k hk') ht'
  · obtain ⟨-, rfl⟩ | ⟨-, hT'⟩ := Heap.get?_alloc_cases hT'
    · rw [hr]
      exact hlo
    · exact h.low hD hT'
  · obtain ⟨rfl, rfl⟩ | ⟨ht', hT'⟩ := Heap.get?_alloc_cases hT'
    · have hm : (s.registerTag T').mentions ks s.tagHeap.next ≤ ks.length := List.countP_le_length
      omega
    · -- the other objects are registered under the names that they had
      have hm : (s.registerTag T).mentions ks t' ≤ s.mentions ks t' := by
        refine mentions_mono fun k' _ hg => ?_
        rw [hget] at hg
        split_ifs at hg
        · exact absurd (Option.some.inj hg).symm ht'
        · exact hg
      have := h.tail.high hD hT'
      omega

theorem erase (h : s.Fits lo D ks) (k : CStr) :
    Fits { s with tags := s.tags.erase k } lo D ks := by
  have hget {k' : CStr} {t : TagId} (ht : (s.tags.erase k).get? k' = some t) :
      s.tags.get? k' = some t :=
    h.unique.get?_eq_some.mpr (Table.entries_erase_sublist.subset (Table.mem_of_get? ht))
  refine ⟨h.unique.erase, h.room, h.fresh, fun hk' ht => h.registered hk' (hget ht), h.low,
    fun {t T} hD hT => ?_⟩
  have hm : mentions { s with tags := s.tags.erase k } ks t ≤ s.mentions ks t :=
    mentions_mono fun _ _ => hget
  have := h.high hD hT
  omega

theorem free (h : s.Fits lo D ks) (t : TagId) :
    Fits { s with tagHeap := s.tagHeap.free t } lo D ks where
  unique := h.unique
  room := h.room
  fresh ht := h.fresh (by simpa using ht)
  registered := h.registered
  low hD hT := h.low hD (Heap.of_get?_free hT).2
  high hD hT := h.high hD (Heap.of_get?_free hT).2

end Store.Fits

theorem Store.RoomFor.fits (h : s.RoomFor ks) (hu : s.tags.Unique)
    (hlo : ∀ {k t T}, k ∈ ks → s.tags.get? k = some t → s.tagHeap.get? t = some T → lo ≤ T.refCount) :
    s.Fits lo (fun t => (∃ k ∈ ks, s.tags.get? k = some t) ∨ s.tagHeap.next ≤ t) ks where
  unique := hu
  room := h.1
  fresh := .inr
  registered hk ht := .inl ⟨_, hk, ht⟩
  low hD hT := by
    obtain ⟨k, hk, ht⟩ | hnext := hD
    · exact hlo hk ht hT
    · rw [Heap.get?_eq_none hnext] at hT
      cases hT
  high hD hT := by
    obtain ⟨k, hk, ht⟩ | hnext := hD
    · exact h.2 k hk _ ht _ hT
    · rw [Heap.get?_eq_none hnext] at hT
      cases hT

theorem Store.RoomFor.extend (h : s.RoomFor ks) (hf : s.Fits lo (fun _ => True) []) :
    s.Fits lo (fun _ => True) ks where
  unique := hf.unique
  room := h.1
  fresh _ := trivial
  registered _ _ := trivial
  low := hf.low
  high {t T} hD hT := by
    by_cases hm : s.mentions ks t = 0
    · simpa [hm] using hf.high hD hT
    · obtain ⟨k, hk, ht⟩ := List.countP_pos_iff.mp (Nat.pos_of_ne_zero hm)
      exact h.2 k hk t (by simpa using ht) T hT

/-- The registry and the counts of the objects are the same. -/
structure SameCounts (s s' : Store) : Prop where
  tags : s'.tags = s.tags
  next : s'.tagHeap.next = s.tagHeap.next
  count : ∀ {t T'}, s'.tagHeap.get? t = some T' →
    ∃ T, s.tagHeap.get? t = some T ∧ T.refCount = T'.refCount

namespace SameCounts

theorem of_eq (htags : s'.tags = s.tags) (hheap : s'.tagHeap = s.tagHeap) : SameCounts s s' where
  tags := htags
  next := by rw [hheap]
  count {t T'} hT' := ⟨T', hheap ▸ hT', rfl⟩

theorem refl (s : Store) : SameCounts s s := of_eq rfl rfl

theorem trans {s₁ s₂ s₃ : Store} (h : SameCounts s₁ s₂) (h' : SameCounts s₂ s₃) : SameCounts s₁ s₃ where
  tags := h'.tags.trans h.tags
  next := h'.next.trans h.next
  count hT' := by
    obtain ⟨T₂, hT₂, hr⟩ := h'.count hT'
    obtain ⟨T, hT, hr'⟩ := h.count hT₂
    exact ⟨T, hT, hr'.trans hr⟩

theorem writeTag (hT : s.tagHeap.get? t = some T) (hr : T.refCount = T'.refCount) :
    SameCounts s (s.writeTag t T') where
  tags := rfl
  next := Heap.next_write
  count hT₁ := by
    obtain ⟨rfl, rfl⟩ | ⟨-, hT₁⟩ := Heap.get?_write_cases hT₁
    · exact ⟨T, hT, hr⟩
    · exact ⟨_, hT₁, rfl⟩

theorem fits (h : SameCounts s s') (hf : s.Fits lo D ks) : s'.Fits lo D ks where
  unique := h.tags ▸ hf.unique
  room := hf.room
  fresh ht := hf.fresh (h.next ▸ ht)
  registered := h.tags ▸ hf.registered
  low hD hT := by
    obtain ⟨T, hT, hr⟩ := h.count hT
    exact hr ▸ hf.low hD hT
  high {t T'} hD hT := by
    obtain ⟨T, hT, hr⟩ := h.count hT
    have hm : s'.mentions ks t = s.mentions ks t := mentions_congr fun _ _ => by rw [h.tags]
    rw [hm, ← hr]
    exact hf.high hD hT

end SameCounts

theorem Store.Fits.of_eq (h : s.Fits lo D ks) (htags : s'.tags = s.tags)
    (hheap : s'.tagHeap = s.tagHeap) : s'.Fits lo D ks := (SameCounts.of_eq htags hheap).fits h

theorem sameCounts_fileGetOrCreate : SameCounts s (fileGetOrCreate s n).2 := by
  unfold fileGetOrCreate
  split
  · exact .refl s
  · exact .of_eq rfl rfl

theorem sameCounts_fileRemoveTag : Returns (fileRemoveTag env s f t) (SameCounts s) := by
  refine sat_bind.mpr (sat_readTag (fun _ => trivial) fun T _ => ?_)
  refine sat_bind.mpr (sat_readFile (fun _ => trivial) fun F _ => ?_)
  exact sat_bind.mpr (sat_readFile (fun _ => trivial) fun F' _ => .of_eq rfl rfl)

theorem sameCounts_tagFile : Returns (tagFile env s t f) (SameCounts s) := by
  refine Sat.bind (P := SameCounts s) ?_ fun s₁ h₁ => ?_
  · refine sat_bind.mpr (sat_readTag (fun _ => trivial) fun T _ => ?_)
    refine sat_bind.mpr (sat_readFile (fun _ => trivial) fun F _ => ?_)
    exact sat_bind.mpr (sat_readFile (fun _ => trivial) fun F' _ => .of_eq rfl rfl)
  · refine sat_bind.mpr (sat_readTag (fun _ => trivial) fun T hT => ?_)
    exact sat_bind.mpr (sat_readFile (fun _ => trivial) fun F _ => h₁.trans (.writeTag hT rfl))

theorem sameCounts_untagFile : Returns (untagFile env s t f) (SameCounts s) := by
  refine sameCounts_fileRemoveTag.bind fun s₁ h₁ => ?_
  refine sat_bind.mpr (sat_readTag (fun _ => trivial) fun T hT => ?_)
  exact sat_bind.mpr (sat_readFile (fun _ => trivial) fun F _ => h₁.trans (.writeTag hT rfl))

theorem sameCounts_getattrIntra (p : Path) :
    Returns (getattrIntra env s p) fun r => SameCounts s r.2.2 := by
  unfold getattrIntra
  split
  · exact .refl s
  · split_ifs
    · exact .refl s
    · exact (returns_true _).bind fun b _ => sameCounts_fileGetOrCreate
    · exact sameCounts_fileGetOrCreate
    · exact sameCounts_fileGetOrCreate

theorem sameCounts_pathLink (ffrom fto : Path) :
    Returns (pathLink env s ffrom fto) fun r => SameCounts s r.2 := by
  apply (sameCounts_getattrIntra ffrom).bind
  rintro ⟨res, st, s₁⟩ h₁
  dsimp only at h₁ ⊢
  split_ifs
  · exact h₁
  have hcreate : SameCounts s (fileGetOrCreate s₁ ffrom.filename).2 :=
    h₁.trans sameCounts_fileGetOrCreate
  refine Sat.bind (P := SameCounts s) ?_ fun s' hs' => hs'
  refine sat_forEach_mem (I := SameCounts s) (fun e _ s₂ h₂ => ?_) hcreate
  exact sameCounts_tagFile.mono fun _ h => h₂.trans h

theorem sameCounts_readdirListFiles (dirpath : Path) :
    Returns (readdirListFiles env s dirpath) fun r => SameCounts s r.2 := by
  refine sat_forEach_mem (I := fun r : List CStr × Store => SameCounts s r.2)
    (fun d _ r hr => ?_) (.refl s)
  split_ifs
  · exact hr
  · exact (sameCounts_getattrIntra _).bind fun q hq => hr.trans hq

theorem Counting.toInt_int {i : ℤ} (h : -INT_MAX - 1 ≤ i) (h' : i ≤ INT_MAX) :
    @Counting.toInt Counting.int i = i := by
  simp only [INT_MAX] at h h'
  exact Int32.toInt_ofInt_of_le (by omega) (by omega)

theorem tagIncRef_int (hlo : ∀ T, s.tagHeap.get? t = some T → -INT_MAX - 2 ≤ T.refCount)
    (hhi : ∀ T, s.tagHeap.get? t = some T → T.refCount + 1 ≤ INT_MAX) :
    @tagIncRef Counting.int s t = tagIncRef s t := by
  unfold tagIncRef
  cases hT : s.tagHeap.get? t with
  | none => simp only [Store.readTag, hT]; rfl
  | some T =>
    have hlo := hlo T hT
    have hint := Counting.toInt_int (i := T.refCount + 1) (by omega) (hhi T hT)
    simp only [Store.readTag_eq hT, ok_bind, hint, Counting.toInt_unbounded]

theorem coincide_getOrCreate (u : Bool) (h : s.Fits lo D (k :: ks)) (hlo : -INT_MAX - 1 ≤ lo)
    (hlo' : lo ≤ 1) :
    Coincide (@tagIncRef Counting.int (tagGetOrCreateIn s k u).2 (tagGetOrCreateIn s k u).1)
      (tagIncRef (tagGetOrCreateIn s k u).2 (tagGetOrCreateIn s k u).1) (Store.Fits · lo D ks) ∧
    D (tagGetOrCreateIn s k u).1 := by
  cases hk : s.tags.get? k with
  | some t =>
    simp only [tagGetOrCreateIn, hk]
    have hD := h.registered List.mem_cons_self hk
    refine ⟨⟨tagIncRef_int (fun T hT => ?_) (fun T hT => ?_), ?_⟩, hD⟩
    · have := h.low hD hT
      omega
    · have := h.high hD hT
      rw [mentions_cons, if_pos hk] at this
      omega
    · exact sat_bind.mpr (sat_readTag (fun _ => trivial) fun T hT => h.acquire hk hT)
  | none =>
    have h1 : (tagGetOrCreateIn s k u).1 = s.tagHeap.next := by simp [tagGetOrCreateIn, hk]
    have hnew {T : Tag} (hT : (tagGetOrCreateIn s k u).2.tagHeap.get? s.tagHeap.next = some T) :
        T.refCount = 0 := by
      simp only [tagGetOrCreateIn, hk, Heap.get?_alloc_next] at hT
      cases hT
      rfl
    have hreg := h.registerTag (T := { tagNew k u with refCount := 1 }) hlo' hk rfl rfl
    refine ⟨⟨tagIncRef_int (fun T hT => ?_) (fun T hT => ?_), ?_⟩, h1 ▸ h.fresh (le_refl _)⟩
    · rw [hnew (h1 ▸ hT)]
      decide
    · rw [hnew (h1 ▸ hT)]
      decide
    · rw [tagIncRef_tagGetOrCreateIn hk]
      exact hreg

theorem coincide_tagGetOrCreate (h : s.Fits 1 D (k :: ks)) :
    Coincide (@tagGetOrCreate Counting.int s k) (tagGetOrCreate s k) fun r => r.2.Fits 1 D ks :=
  (coincide_getOrCreate true h (by decide) (Int.le_refl 1)).1.bind fun _ hs => .ok hs

theorem coincide_computeSelectedTags {dirpath : CStr} (h : s.Fits lo D (components dirpath ++ ks))
    (hlo : -INT_MAX - 1 ≤ lo) (hlo' : lo ≤ 1) :
    Coincide (@computeSelectedTags Counting.int s dirpath) (computeSelectedTags s dirpath) fun r =>
      (∀ e ∈ r.1.entries, D e.2) ∧ r.2.Fits lo D ks := by
  rw [computeSelectedTags_eq, computeSelectedTags_eq (c := Counting.int)]
  refine (Coincide.forEach (fun l (r : HashTable TagId × Store) =>
    (∀ e ∈ r.1.entries, D e.2) ∧ r.2.Fits lo D (l ++ ks)) ?_ _ _ ⟨by simp, h⟩)
  rintro k l ⟨sel, s⟩ ⟨hsel, hs⟩
  rw [selectTag_eq, selectTag_eq (c := Counting.int)]
  obtain ⟨hinc, hD⟩ := coincide_getOrCreate false hs hlo hlo'
  refine hinc.bind fun s' hs' => .ok ⟨fun e he => ?_, hs'⟩
  rcases List.mem_append.mp he with he | he
  · exact hsel e he
  · rw [List.mem_singleton.mp he]
    exact hD

theorem coincide_pathCreate {userPath : CStr} (isTag : Bool)
    (h : s.Fits 1 D (components (if isTag = true then userPath else dirname userPath) ++ ks)) :
    Coincide (@pathCreate Counting.int env s userPath isTag) (pathCreate env s userPath isTag) fun r =>
      (∀ e ∈ r.1.selectedTags.entries, D e.2) ∧ r.2.Fits 1 D ks :=
  (coincide_computeSelectedTags h (by decide) (Int.le_refl 1)).bind fun _ hr => .ok hr

theorem coincide_tagDecRef (h : s.Fits 1 D ks) (hD : D t) :
    Coincide (@tagDecRef Counting.int s t) (tagDecRef s t) (Store.Fits · 1 D ks) := by
  unfold tagDecRef
  cases hT : s.tagHeap.get? t with
  | none =>
    simp only [Store.readTag, hT]
    exact ⟨rfl, trivial⟩
  | some T =>
    have hlo := h.low hD hT
    have hhi := h.high hD hT
    have hint : @Counting.toInt Counting.int (T.refCount - 1) = T.refCount - 1 := by
      apply Counting.toInt_int
      · simp only [INT_MAX]
        omega
      · omega
    simp only [Store.readTag_eq hT, ok_bind, hint, Counting.toInt_unbounded]
    refine .of_returns ?_
    split_ifs with hr
    · have hs := (h.free t).erase T.value
      simpa [Store.writeTag] using hs
    · refine h.writeTag ?_ ?_
      · dsimp only
        omega
      · dsimp only
        omega

theorem coincide_tagRemove (h : s.Fits 1 D ks) (hD : D t) :
    Coincide (@tagRemove Counting.int env s t) (tagRemove env s t) (Store.Fits · 1 D ks) := by
  refine (Coincide.of_returns (returns_true (s.readTag t))).bind fun T _ => ?_
  dsimp only
  have hloop (l : List (CStr × FileId)) :
      Returns (forEach l (fun s e => fileRemoveTag env s e.2 t) s) (Store.Fits · 1 D ks) :=
    sat_forEach_mem (fun e _ s hs => sameCounts_fileRemoveTag.mono fun _ hc => hc.fits hs) h
  refine (Coincide.of_returns (hloop _)).bind fun s₁ h₁ => ?_
  refine (Coincide.of_returns (returns_true (s₁.readTag t))).bind fun T₁ _ => ?_
  exact coincide_tagDecRef (h₁.erase T₁.value) hD

theorem coincide_pathDelete {path : Path} (h : s.Fits 1 D ks)
    (hsel : ∀ e ∈ path.selectedTags.entries, D e.2) :
    Coincide (@pathDelete Counting.int env s path) (pathDelete env s path) (Store.Fits · 1 D ks) := by
  refine (Coincide.forEach (fun l s => (∀ e ∈ l, D e.2) ∧ s.Fits 1 D ks) ?_ _ _ ⟨hsel, h⟩).mono
    fun _ hs => hs.2
  rintro e l s ⟨hsel, hs⟩
  have hrest : ∀ e ∈ l, D e.2 := fun e' he' => hsel e' (List.mem_cons_of_mem e he')
  refine (Coincide.of_returns (returns_true (s.readTag e.2))).bind fun T _ => ?_
  split_ifs
  · exact (coincide_tagRemove hs (hsel e List.mem_cons_self)).mono fun _ h => ⟨hrest, h⟩
  · exact .ok ⟨hrest, hs⟩

theorem coincide_pathUnlink {fd : Path} (h : s.Fits 1 D ks)
    (hsel : ∀ e ∈ fd.selectedTags.entries, D e.2) :
    Coincide (@pathUnlink Counting.int env s fd) (pathUnlink env s fd) fun r => r.2.Fits 1 D ks := by
  unfold pathUnlink
  cases fileGet s fd.filename with
  | none => exact .ok h
  | some f =>
    refine ((Coincide.forEach (fun l s => (∀ e ∈ l, D e.2) ∧ s.Fits 1 D ks) ?_ _ _ ⟨hsel, h⟩).bind
      fun _ hs => .ok hs.2)
    rintro e l s ⟨hsel, hs⟩
    have hrest : ∀ e ∈ l, D e.2 := fun e' he' => hsel e' (List.mem_cons_of_mem e he')
    refine (Coincide.of_returns sameCounts_untagFile).bind fun s₁ hc => ?_
    have h₁ := hc.fits hs
    refine (Coincide.of_returns (returns_true (s₁.readTag e.2))).bind fun T _ => ?_
    split_ifs
    · exact (coincide_tagRemove h₁ (hsel e List.mem_cons_self)).mono fun _ h => ⟨hrest, h⟩
    · exact .ok ⟨hrest, h₁⟩

theorem coincide_tagMkdir {userPath : CStr} (h : s.Fits 1 D []) :
    Coincide (@tagMkdir Counting.int s userPath) (tagMkdir s userPath) fun r => r.2.Fits 1 D [] := by
  unfold tagMkdir
  split_ifs
  · exact .ok h
  dsimp only
  cases hk : tagGet s (basename userPath) with
  | some t =>
    refine .of_returns (sat_bind.mpr (sat_readTag (fun _ => trivial) fun T hT => ?_))
    split_ifs
    · exact h
    · have hc : SameCounts s (s.writeTag t { T with inUse := true }) := .writeTag hT rfl
      exact hc.fits h
  | none => exact (coincide_tagGetOrCreate (h.unregistered hk)).bind fun _ hr => .ok hr

/-- One tag, with as many references as an `int` counts. -/
def fullTag : Store := Store.init.registerTag { tagNew nameX true with refCount := INT_MAX }

theorem coincide_tagLink {src dst : CStr}
    (h : s.Fits 1 D (components (dirname src) ++ components (dirname dst))) :
    Coincide (@tagLink Counting.int env s src dst) (tagLink env s src dst) fun r =>
      r.2.Fits 1 D [] := by
  refine (coincide_pathCreate false h).bind fun r₁ h₁ => ?_
  rw [← List.append_nil (components (dirname dst))] at h₁
  refine (coincide_pathCreate false h₁.2).bind fun r₂ h₂ => ?_
  refine (coincide_tagMkdir h₂.2).bind fun r₃ h₃ => ?_
  refine (Coincide.of_returns (sameCounts_pathLink r₁.1 r₂.1)).bind fun r₄ h₄ => ?_
  refine (coincide_pathDelete (h₄.fits h₃) h₁.1).bind fun s₅ h₅ => ?_
  exact (coincide_pathDelete h₅ h₂.1).bind fun s₆ h₆ => .ok h₆

theorem coincide_tagUnlink {userPath : CStr} (h : s.Fits 1 D (components (dirname userPath))) :
    Coincide (@tagUnlink Counting.int env s userPath) (tagUnlink env s userPath) fun r =>
      r.2.Fits 1 D [] := by
  unfold tagUnlink
  split_ifs
  · exact .ok (h.sublist (List.nil_sublist _))
  rw [← List.append_nil (components (dirname userPath))] at h
  refine (coincide_pathCreate false h).bind fun r₁ h₁ => ?_
  refine (coincide_pathUnlink h₁.2 h₁.1).bind fun r₂ h₂ => ?_
  exact (coincide_pathDelete h₂ h₁.1).bind fun s₃ h₃ => .ok h₃

end TagFilesystem.Fuse
