import TagFilesystem.Fuse.PathSpec

namespace TagFilesystem.Fuse

variable {env : Env} {s s' : Store} {t t' : TagId} {T T' : Tag} {f f' : FileId} {F F' : File}
  {k n n' : CStr} {e : CStr × TagId} {l H H' : Held} {E : Fault → Prop} {ks : List CStr}
  {sel : HashTable TagId}

def Store.InUse (s : Store) (t : TagId) : Prop := ∃ T, s.tagHeap.get? t = some T ∧ T.inUse = true

/-- A tag in use is registered under the name. -/
def Store.UsedName (s : Store) (k : CStr) : Prop := ∃ t, s.tags.get? k = some t ∧ s.InUse t

instance (s : Store) (k : CStr) : Decidable (s.UsedName k) :=
  decidable_of_iff ((s.tags.get? k).any fun t => (s.tagHeap.get? t).any (·.inUse))
    (by simp [Store.UsedName, Store.InUse, Option.any_eq_true])

theorem Made.inUse (h : Made s ks sel s') (hu : s.InUse t) : s'.InUse t := by
  obtain ⟨T, hT, hu⟩ := hu
  exact ⟨_, h.old hT, hu⟩

theorem Made.usedName (h : Made s ks sel s') (hu : s.UsedName k) : s'.UsedName k := by
  obtain ⟨t, hk, hu⟩ := hu
  exact ⟨t, h.kept hk, h.inUse hu⟩

theorem Made.inUse_iff (h : Made s ks sel s') (hk : s'.tags.get? k = some t) :
    s'.InUse t ↔ s.UsedName k := by
  constructor
  · rintro ⟨T, hT, hu⟩
    cases hold : s.tagHeap.get? t with
    | none => simp [(h.new hT hold).2.1] at hu
    | some T₀ =>
      rw [h.old hold] at hT
      cases hT
      have hk₀ := (h.only hk).resolve_right fun hnew => by simp [hold] at hnew
      exact ⟨t, hk₀, T₀, hold, hu⟩
  · intro hu
    obtain ⟨t', hk', hu⟩ := h.usedName hu
    cases hk.symm.trans hk'
    exact hu

theorem Made.usedName_iff (h : Made s ks sel s') : s'.UsedName k ↔ s.UsedName k := by
  constructor
  · rintro ⟨t, hk, hu⟩
    exact (h.inUse_iff hk).mp hu
  · exact h.usedName

theorem Made.inUse_entry (h : Made s ks sel s') (hu : ∀ k ∈ ks, s.UsedName k)
    (he : e ∈ sel.entries) : s'.InUse e.2 := by
  have hk : e.1 ∈ ks := h.keys ▸ List.mem_map_of_mem he
  obtain ⟨t, ht, hu⟩ := h.usedName (hu e.1 hk)
  rw [h.entry he] at ht
  cases ht
  exact hu

/-- `s'` is `s` after a file has got the tags `l`: they are in use, and nothing else changes in
the registry and in the tag objects but their files. -/
structure Attached (s : Store) (l : Held) (s' : Store) : Prop where
  typed : s'.Typed
  tags : s'.tags = s.tags
  files : s'.files = s.files
  fds : s'.fds = s.fds
  leaked : s'.leaked = s.leaked
  tag : ∀ {t T}, s.tagHeap.get? t = some T → ∃ T', s'.tagHeap.get? t = some T' ∧
    T'.value = T.value ∧ T'.refCount = T.refCount ∧
    (T'.inUse = true ↔ T.inUse = true ∨ ∃ e ∈ l, e.2 = t)
  back : ∀ {t T'}, s'.tagHeap.get? t = some T' → ∃ T, s.tagHeap.get? t = some T
  object : ∀ {t}, (∀ e ∈ l, e.2 ≠ t) → s'.tagHeap.get? t = s.tagHeap.get? t

namespace Attached

theorem refl (h : s.Typed) : Attached s [] s where
  typed := h
  tags := rfl
  files := rfl
  fds := rfl
  leaked := rfl
  tag hT := ⟨_, hT, rfl, rfl, by simp⟩
  back hT := ⟨_, hT⟩
  object _ := rfl

theorem step (h : Attached s l s') (hT : s'.tagHeap.get? e.2 = some T)
    (hF : s'.fileHeap.get? f = some F) (hn : s'.files.get? F.name = some f) :
    Attached s (l ++ [e]) (s'.attach env e.2 T f F) where
  typed := h.typed.attach hT hF hn
  tags := h.tags
  files := h.files
  fds := h.fds
  leaked := h.leaked
  tag {t T₀} h₀ := by
    obtain ⟨T₁, h₁, hv, hr, hu⟩ := h.tag h₀
    change ∃ T', (s'.tagHeap.write e.2 _).get? t = some T' ∧ _
    by_cases ht : t = e.2
    · subst ht
      rw [hT] at h₁
      cases h₁
      exact ⟨_, Heap.get?_write_self hT, hv, hr, by simp⟩
    · exact ⟨T₁, by simpa [Heap.get?_write_ne ht] using h₁, hv, hr, by
        simp [hu, or_and_right, exists_or, Ne.symm ht]⟩
  back {t T'} h' := by
    obtain ⟨rfl, -⟩ | ⟨-, h'⟩ := Heap.get?_write_cases h'
    · exact h.back hT
    · exact h.back h'
  object {t} hne := by
    have ht : t ≠ e.2 := fun he => hne e (by simp) he.symm
    change (s'.tagHeap.write e.2 _).get? t = _
    rw [Heap.get?_write_ne ht, h.object fun e' he' => hne e' (List.mem_append_left _ he')]

theorem inUse (h : Attached s l s') (hu : s.InUse t) : s'.InUse t := by
  obtain ⟨T, hT, hu⟩ := hu
  obtain ⟨T', hT', -, -, hu'⟩ := h.tag hT
  exact ⟨T', hT', hu'.mpr (.inl hu)⟩

theorem inUse_iff (h : Attached s l s') (hT : s.tagHeap.get? t = some T) :
    s'.InUse t ↔ s.InUse t ∨ ∃ e ∈ l, e.2 = t := by
  obtain ⟨T', hT', -, -, hu⟩ := h.tag hT
  simp [Store.InUse, hT, hT', hu]

theorem inUse_of_mem (h : Attached s l s') (he : e ∈ l) (hT : s.tagHeap.get? e.2 = some T) :
    s'.InUse e.2 := by
  obtain ⟨T', hT', -, -, hu'⟩ := h.tag hT
  exact ⟨T', hT', hu'.mpr (.inr ⟨e, he, rfl⟩)⟩

theorem tidy (h : Attached s l s') (hs : s.Tidy) : s'.Tidy where
  toTyped := h.typed
  idle {t T'} hT' hu := by
    obtain ⟨T, hT⟩ := h.back hT'
    obtain ⟨T₁, h₁, -, -, hiff⟩ := h.tag hT
    rw [hT'] at h₁
    cases h₁
    have hno : ¬(T.inUse = true ∨ ∃ e ∈ l, e.2 = t) := fun ho => by simp [hiff.mpr ho] at hu
    have hne : ∀ e ∈ l, e.2 ≠ t := fun e he ht => hno (.inr ⟨e, he, ht⟩)
    rw [h.object hne, hT] at hT'
    cases hT'
    exact hs.idle hT hu

end Attached

theorem sat_attached (h : s.Typed) (hn : s.files.get? n = some f)
    (hl : ∀ e ∈ l, ∃ T, s.tagHeap.get? e.2 = some T) :
    Sat E (forEach l (fun s e => tagFile env s e.2 f) s) (Attached s l) := by
  have hI : ∀ l₁ s₁, (∃ l₀, l₀ ++ l₁ = l ∧ Attached s l₀ s₁) → s₁.files.get? n = some f ∧ s₁.Typed ∧
      ∀ e ∈ l₁, ∃ T, s₁.tagHeap.get? e.2 = some T := by
    rintro l₁ s₁ ⟨l₀, rfl, ha⟩
    refine ⟨ha.files ▸ hn, ha.typed, fun e he => ?_⟩
    obtain ⟨T, hT⟩ := hl e (List.mem_append_right _ he)
    obtain ⟨T', hT', -⟩ := ha.tag hT
    exact ⟨T', hT'⟩
  refine (sat_linkLoop (fun l₁ s₁ => ∃ l₀, l₀ ++ l₁ = l ∧ Attached s l₀ s₁)
    ?_ ?_ ?_ ⟨[], rfl, .refl h⟩).mono ?_
  · intro e l₁ s₁ h₁ hd
    obtain ⟨T, hT⟩ := (hI _ _ h₁).2.2 e List.mem_cons_self
    rw [hT] at hd
    cases hd
  · intro l₁ s₁ h₁
    obtain ⟨hn₁, ht₁, -⟩ := hI _ _ h₁
    obtain ⟨F, hF, -⟩ := ht₁.fileEntry hn₁
    exact ⟨F, hF⟩
  · intro e l₁ s₁ T F h₁ hT hF
    obtain ⟨hn₁, ht₁, -⟩ := hI _ _ h₁
    have hv := ht₁.name_of_get? hn₁ hF
    obtain ⟨l₀, hl₀, ha⟩ := h₁
    exact ⟨l₀ ++ [e], by simpa using hl₀, ha.step hT hF (hv ▸ hn₁)⟩
  · rintro s₁ ⟨l₀, hl₀, ha⟩
    rw [List.append_nil] at hl₀
    exact hl₀ ▸ ha

theorem sat_attached_relation (h : s.Typed) (hc : s.Coherent)
    (hn : s.files.get? n = some f) (hl : ∀ e ∈ l, s.tags.get? e.1 = some e.2) :
    Sat E (forEach l (fun s e => tagFile env s e.2 f) s) fun s' => s'.Coherent ∧
      ∀ k f' t, s'.Tagged f' k t ↔ s.Tagged f' k t ∨ f' = f ∧ (k, t) ∈ l := by
  have hlive (s₁ : Store) (h₁ : s₁.Typed) (ht : s₁.tags = s.tags) (e) (he : e ∈ l) :
      ∃ T, s₁.tagHeap.get? e.2 = some T ∧ T.value = e.1 := h₁.tagEntry (ht ▸ hl e he)
  refine (sat_linkLoop (fun l₁ s₁ => ∃ l₀, l₀ ++ l₁ = l ∧ s₁.Typed ∧
    s₁.tags = s.tags ∧ s₁.files = s.files ∧ s₁.Coherent ∧
    ∀ k f' t, s₁.Tagged f' k t ↔ s.Tagged f' k t ∨ f' = f ∧ (k, t) ∈ l₀)
    ?_ ?_ ?_ ⟨[], rfl, h, rfl, rfl, hc, by simp⟩).mono ?_
  · rintro e l₁ s₁ ⟨l₀, rfl, ht, htags, -⟩ hd
    obtain ⟨T, hT, -⟩ := hlive s₁ ht htags e (by simp)
    rw [hT] at hd
    cases hd
  · rintro l₁ s₁ ⟨l₀, -, ht, -, hfiles, -⟩
    obtain ⟨F, hF, -⟩ := ht.fileEntry (hfiles ▸ hn)
    exact ⟨F, hF⟩
  · rintro e l₁ s₁ T F ⟨l₀, rfl, ht, htags, hfiles, hc₁, hrel⟩ hT hF
    have hn₁ : s₁.files.get? n = some f := hfiles ▸ hn
    have hname := ht.name_of_get? hn₁ hF
    have hk : s₁.tags.get? e.1 = some e.2 := htags ▸ hl e (by simp)
    have hv := ht.value_of_get? hk hT
    have hold (t' : TagId) (h' : F.tags.get? T.value = some t') : t' = e.2 := by
      have := ((hc₁ hn₁ T.value t').mp ⟨F, hF, h'⟩).1
      rw [hv, hk] at this
      exact (Option.some.inj this).symm
    refine ⟨l₀ ++ [e], by simp, ht.attach hT hF (hname ▸ hn₁), htags, hfiles,
      hc₁.attach ht hT hF (hv ▸ hk) (hname ▸ hn₁), fun k f' t => ?_⟩
    rw [tagged_attach hF hold, hrel, hv]
    simp only [List.mem_append, List.mem_singleton, Prod.ext_iff]
    tauto
  · rintro s₁ ⟨l₀, hl₀, -, -, -, hc₁, hrel⟩
    rw [List.append_nil] at hl₀
    exact ⟨hc₁, hl₀ ▸ hrel⟩

/-- The store in which `path_link` tags the file. -/
def linkStore (env : Env) (s : Store) (ffrom : Path) : Store :=
  (fileGetOrCreate (getattrStore env s ffrom) ffrom.filename).2

@[simp] theorem linkStore_tags {p : Path} : (linkStore env s p).tags = s.tags := by
  simp [linkStore]

@[simp] theorem linkStore_tagHeap {p : Path} : (linkStore env s p).tagHeap = s.tagHeap := by
  simp [linkStore]

theorem carries_linkStore {p : Path} : (linkStore env s p).Carries n k ↔ s.Carries n k :=
  carries_fileGetOrCreate.trans carries_getattrStore

/-- `path_link` refuses a file that is not found, and tags the file otherwise. -/
theorem sat_pathLink {ffrom fto : Path} (h : s.Typed)
    (hfrom : ∀ e ∈ ffrom.held, ∃ T, s.tagHeap.get? e.2 = some T ∧ T.value = e.1)
    (hto : ∀ e ∈ fto.held, ∃ T, s.tagHeap.get? e.2 = some T) :
    Sat E (pathLink env s ffrom fto) fun r =>
      (r.1 < 0 ∧ ¬ Accepts env s ffrom ∧ r.2 = getattrStore env s ffrom) ∨
      (r.1 = 0 ∧ Accepts env s ffrom ∧ Attached (linkStore env s ffrom) fto.held r.2) := by
  refine (sat_getattrIntra h hfrom).bind fun r hr => ?_
  obtain ⟨res, st, s₁⟩ := r
  obtain ⟨rfl, hres⟩ := hr
  dsimp only at hres ⊢
  split_ifs with hneg
  · refine .inl ⟨hneg, (hres.resolve_left ?_).2, rfl⟩
    omega
  · have hok := hres.resolve_right (by omega)
    refine (sat_attached (typed_fileGetOrCreate (typed_getattrStore h)) fileGetOrCreate_get? ?_).bind
      fun s' hs' => .inr ⟨hok.1, hok.2, hs'⟩
    simpa [Path.held] using hto

theorem sat_pathLink_relation {ffrom fto : Path} (h : s.Typed) (hc : s.Coherent)
    (hfrom : ∀ e ∈ ffrom.held, ∃ T, s.tagHeap.get? e.2 = some T ∧ T.value = e.1)
    (hto : ∀ e ∈ fto.held, s.tags.get? e.1 = some e.2) :
    Sat E (pathLink env s ffrom fto) fun r => r.2.Coherent ∧ (r.1 = 0 → ∀ n k,
      r.2.Carries n k ↔ s.Carries n k ∨ n = ffrom.filename ∧ ∃ t, (k, t) ∈ fto.held) := by
  refine (sat_getattrIntra h hfrom).bind fun r hr => ?_
  obtain ⟨res, st, s₁⟩ := r
  obtain ⟨rfl, hres⟩ := hr
  dsimp only at hres ⊢
  split_ifs with hneg
  · refine ⟨coherent_getattrStore h hc, fun h0 => ?_⟩
    dsimp only at h0
    omega
  · have ht₁ : (getattrStore env s ffrom).Typed := typed_getattrStore h
    have hn := fileGetOrCreate_get? (s := getattrStore env s ffrom) (n := ffrom.filename)
    have ht₂ : (linkStore env s ffrom).Typed := typed_fileGetOrCreate ht₁
    have hto' : ∀ e ∈ fto.held, (linkStore env s ffrom).tags.get? e.1 = some e.2 := by simpa using hto
    have hlive : ∀ e ∈ fto.held, ∃ T, (linkStore env s ffrom).tagHeap.get? e.2 = some T := by
      intro e he
      obtain ⟨T, hT, -⟩ := ht₂.tagEntry (hto' e he)
      exact ⟨T, hT⟩
    refine ((sat_attached ht₂ hn hlive).and (sat_attached_relation ht₂
      (coherent_fileGetOrCreate ht₁ (coherent_getattrStore h hc)) hn hto')).bind fun s' hs' => ?_
    obtain ⟨ha, hc', hrel⟩ := hs'
    refine ⟨hc', fun _ n k => ?_⟩
    have hcar : (linkStore env s ffrom).Carries n k ↔ s.Carries n k := carries_linkStore
    rw [← hcar]
    simp only [Store.Carries, hrel, ha.files]
    constructor
    · rintro ⟨f, hf, t, ht | ⟨rfl, he⟩⟩
      · exact .inl ⟨f, hf, t, ht⟩
      · exact .inr ⟨ht₂.name_inj hf hn, t, he⟩
    · rintro (⟨f, hf, t, ht⟩ | ⟨rfl, t, he⟩)
      · exact ⟨f, hf, t, .inl ht⟩
      · exact ⟨_, hn, t, .inr ⟨rfl, he⟩⟩

/-- `s'` is `s` after the file `f` has lost the tags `l`, and the emptied ones have been removed
from the registry. -/
structure Unlinked (s : Store) (f : FileId) (l : Held) (s' : Store) : Prop where
  tidy : s'.Tidy
  coherent : s'.Coherent
  fewer : s.Fewer s'
  files : s'.files = s.files
  fds : s'.fds = s.fds
  leaked : s'.leaked = s.leaked
  tagged : ∀ {f' k t}, s'.Tagged f' k t ↔ s.Tagged f' k t ∧ ¬(f' = f ∧ ∃ t', (k, t') ∈ l)
  /-- Other tags stay as they are. -/
  object : ∀ {t}, (∀ e ∈ l, e.2 ≠ t) → s'.tagHeap.get? t = s.tagHeap.get? t
  name : ∀ {k t}, s.tags.get? k = some t → (∀ e ∈ l, e.2 ≠ t) → s'.tags.get? k = some t
  /-- A tag that is still registered has not been removed, and those of the path have files. -/
  count : ∀ {k t T'}, s'.tags.get? k = some t → s'.tagHeap.get? t = some T' →
    ∃ T, s.tagHeap.get? t = some T ∧ T.refCount = T'.refCount
  full : ∀ {k t T'}, s'.tags.get? k = some t → s'.tagHeap.get? t = some T' →
    (∃ e ∈ l, e.2 = t) → T'.files.entries ≠ []

namespace Unlinked

theorem refl (h : s.Tidy) (hc : s.Coherent) : Unlinked s f [] s where
  tidy := h
  coherent := hc
  fewer := ⟨id, fun hT => ⟨_, hT, rfl, rfl, id⟩⟩
  files := rfl
  fds := rfl
  leaked := rfl
  tagged := by simp
  object _ := rfl
  name hk _ := hk
  count _ hT := ⟨_, hT, rfl⟩
  full _ _ he := by simp at he

theorem step_tagged (h : Unlinked s f l s') (hv : T.value = e.1)
    (hF : s'.fileHeap.get? f = some F) : (s'.detach env e.2 T f F).Tagged f' k t ↔
      s.Tagged f' k t ∧ ¬(f' = f ∧ ∃ t', (k, t') ∈ l ++ [e]) := by
  rw [tagged_detach hF (h.tidy.fileTagsUnique hF), h.tagged, hv]
  have he : (∃ t', (k, t') ∈ l ++ [e]) ↔ (∃ t', (k, t') ∈ l) ∨ k = e.1 := by
    constructor
    · rintro ⟨t', ht'⟩
      rcases List.mem_append.mp ht' with ht' | ht'
      · exact .inl ⟨t', ht'⟩
      · exact .inr (congrArg Prod.fst (List.mem_singleton.mp ht'))
    · rintro (⟨t', ht'⟩ | rfl)
      · exact ⟨t', List.mem_append_left _ ht'⟩
      · exact ⟨e.2, by simp⟩
  rw [he]
  tauto

section Step

variable (h : Unlinked s f l s') (hcur : s'.Current e.2) (hT : s'.tagHeap.get? e.2 = some T)
  (hv : T.value = e.1) (hF : s'.fileHeap.get? f = some F) (hn : s'.files.get? F.name = some f)
include h hcur hT hv hF hn

theorem keep (hne : (T.files.erase F.name).entries ≠ []) :
    Unlinked s f (l ++ [e]) (s'.detach env e.2 T f F) where
  tidy := h.tidy.detach hT hF
  coherent := h.coherent.detach h.tidy.toTyped hT hF (fun t' => hcur T t' hT) hn
  fewer := h.fewer.trans (Store.fewer_detach hT)
  files := h.files
  fds := h.fds
  leaked := h.leaked
  tagged := h.step_tagged hv hF
  object {t} hne' := by
    have ht : t ≠ e.2 := fun he => hne' e (by simp) he.symm
    rw [Store.detach_get?_ne ht, h.object fun e' he' => hne' e' (List.mem_append_left _ he')]
  name hk hne' := h.name hk fun e' he' => hne' e' (List.mem_append_left _ he')
  count {k t T'} hk hT' := by
    by_cases ht : t = e.2
    · subst ht
      rw [Store.detach_get?_self hT] at hT'
      cases hT'
      obtain ⟨T₀, hT₀, hr⟩ := h.count hk hT
      exact ⟨T₀, hT₀, hr⟩
    · rw [Store.detach_get?_ne ht] at hT'
      exact h.count hk hT'
  full {k t T'} hk hT' hl := by
    by_cases ht : t = e.2
    · subst ht
      rw [Store.detach_get?_self hT] at hT'
      cases hT'
      exact hne
    · rw [Store.detach_get?_ne ht] at hT'
      obtain ⟨e', he', het⟩ := hl
      refine h.full hk hT' ⟨e', ?_, het⟩
      rcases List.mem_append.mp he' with he' | he'
      · exact he'
      · exact absurd (by rw [← het, List.mem_singleton.mp he']) ht

theorem drop (hnil : (T.files.erase F.name).entries = []) :
    Unlinked s f (l ++ [e]) ((s'.detach env e.2 T f F).dropTag e.2
      { T with files := T.files.erase F.name }) := by
  have hT' : (s'.detach env e.2 T f F).tagHeap.get? e.2 = _ := Store.detach_get?_self hT
  have htidy : (s'.detach env e.2 T f F).Tidy := h.tidy.detach hT hF
  have hcoh : (s'.detach env e.2 T f F).Coherent :=
    h.coherent.detach h.tidy.toTyped hT hF (fun t' => hcur T t' hT) hn
  -- what is still registered has another name and is another object
  have hreg {k : CStr} {t : TagId} (hk : ((s'.detach env e.2 T f F).dropTag e.2
      { T with files := T.files.erase F.name }).tags.get? k = some t) :
      s'.tags.get? k = some t ∧ t ≠ e.2 := by
    change (s'.tags.erase T.value).get? k = some t at hk
    rw [h.tidy.tagsUnique.get?_erase] at hk
    split_ifs at hk with hkv
    refine ⟨hk, ?_⟩
    rintro rfl
    exact hkv (h.tidy.value_of_get? hk hT).symm
  refine
    { tidy := htidy.dropTag hT'
      coherent := hcoh.dropTag htidy.toTyped hT' hnil ?_
      fewer := (h.fewer.trans (Store.fewer_detach hT)).trans
        (Store.fewer_dropTag htidy.tagsUnique hT')
      files := h.files
      fds := h.fds
      leaked := h.leaked
      tagged := h.step_tagged hv hF
      object := ?_
      name := ?_
      count := ?_
      full := ?_ }
  · intro t' T₁ hk h₁
    -- no other object is registered under this name
    cases hcur T t' hT hk
    rw [hT'] at h₁
    cases h₁
    exact hnil
  · intro t hne
    have ht : t ≠ e.2 := fun he => hne e (by simp) he.symm
    rw [Store.dropTag_get?_ne ht, Store.detach_get?_ne ht,
      h.object fun e' he' => hne e' (List.mem_append_left _ he')]
  · intro k t hk hne
    have hk' := h.name hk fun e' he' => hne e' (List.mem_append_left _ he')
    change (s'.tags.erase T.value).get? k = some t
    rw [h.tidy.tagsUnique.get?_erase, if_neg, hk']
    rintro rfl
    exact hne e (by simp) (hcur T t hT hk').symm
  · intro k t T₁ hk h₁
    obtain ⟨hk', ht⟩ := hreg hk
    rw [Store.dropTag_get?_ne ht, Store.detach_get?_ne ht] at h₁
    exact h.count hk' h₁
  · intro k t T₁ hk h₁ hl
    obtain ⟨hk', ht⟩ := hreg hk
    rw [Store.dropTag_get?_ne ht, Store.detach_get?_ne ht] at h₁
    obtain ⟨e', he', het⟩ := hl
    refine h.full hk' h₁ ⟨e', ?_, het⟩
    rcases List.mem_append.mp he' with he' | he'
    · exact he'
    · exact absurd (by rw [← het, List.mem_singleton.mp he']) ht

end Step

end Unlinked

theorem current_of_registered (h : s.Typed) (hk : s.tags.get? k = some t) : s.Current t := by
  intro T t' hT hk'
  rw [h.value_of_get? hk hT, hk] at hk'
  exact (Option.some.inj hk').symm

/-- `path_unlink` takes the registered tags of the path from a file that has a record. -/
theorem sat_unlinked {path : Path} (h : s.Tidy) (hc : s.Coherent)
    (hn : s.files.get? path.filename = some f)
    (hl : ∀ e ∈ path.held, s.tags.get? e.1 = some e.2) :
    Returns (pathUnlink env s path) fun r => r.1 = 0 ∧ Unlinked s f path.held r.2 := by
  have hstep {l₀ l₁ : Held} {s₁ : Store} {e : CStr × TagId} {T : Tag} {F : File}
      (hsplit : l₀ ++ e :: l₁ = path.held) (hu : Unlinked s f l₀ s₁)
      (hT : s₁.tagHeap.get? e.2 = some T) (hF : s₁.fileHeap.get? f = some F) :
      s₁.Current e.2 ∧ T.value = e.1 ∧ s₁.files.get? F.name = some f := by
    have hk := hl e (by rw [← hsplit]; simp)
    obtain ⟨T₀, hT₀, hv, -⟩ := hu.fewer.tag hT
    have hn₁ : s₁.files.get? path.filename = some f := hu.files ▸ hn
    refine ⟨(current_of_registered h.toTyped hk).mono hu.fewer, ?_, ?_⟩
    · rw [← hv, h.value_of_get? hk hT₀]
    · rw [hu.tidy.name_of_get? hn₁ hF]
      exact hn₁
  refine (sat_pathUnlink hn (fun l₁ s₁ => ∃ l₀, l₀ ++ l₁ = path.held ∧ Unlinked s f l₀ s₁)
    (fun _ _ _ _ _ => trivial) ?_ ?_ ?_ ⟨[], rfl, .refl h hc⟩).mono ?_
  · rintro l₁ s₁ ⟨l₀, -, hu⟩
    obtain ⟨F, hF, -⟩ := hu.tidy.fileEntry (hu.files ▸ hn)
    exact ⟨F, hF⟩
  · rintro e l₁ s₁ T F ⟨l₀, hsplit, hu⟩ hT hF hne
    obtain ⟨hcur, hv, hn₁⟩ := hstep hsplit hu hT hF
    exact ⟨l₀ ++ [e], by simpa using hsplit, hu.keep hcur hT hv hF hn₁ hne⟩
  · rintro e l₁ s₁ T F ⟨l₀, hsplit, hu⟩ hT hF hnil
    obtain ⟨hcur, hv, hn₁⟩ := hstep hsplit hu hT hF
    exact ⟨hu.tidy.tagsUnique, l₀ ++ [e], by simpa using hsplit, hu.drop hcur hT hv hF hn₁ hnil⟩
  · rintro ⟨res, s₁⟩ ⟨hres, l₀, hsplit, hu⟩
    rw [List.append_nil] at hsplit
    exact ⟨hres, hsplit ▸ hu⟩

/-- `s'` is `s` after a path with the tags `l` has been deleted: those that are not in use have
left the registry, everything else is as it was. -/
structure Deleted (s : Store) (l : Held) (s' : Store) : Prop where
  tidy : s'.Tidy
  coherent : s'.Coherent
  fewer : s.Fewer s'
  files : s'.files = s.files
  fileHeap : s'.fileHeap = s.fileHeap
  fds : s'.fds = s.fds
  leaked : s'.leaked = s.leaked
  object : ∀ {t}, (s.InUse t ∨ ∀ e ∈ l, e.2 ≠ t) → s'.tagHeap.get? t = s.tagHeap.get? t
  name : ∀ {k t}, s.tags.get? k = some t → (s.InUse t ∨ ∀ e ∈ l, e.2 ≠ t) →
    s'.tags.get? k = some t
  removed : ∀ {k t}, s'.tags.get? k = some t → (∃ e ∈ l, e.2 = t) → s.InUse t

namespace Deleted

theorem refl (h : s.Tidy) (hc : s.Coherent) : Deleted s [] s where
  tidy := h
  coherent := hc
  fewer := ⟨id, fun hT => ⟨_, hT, rfl, rfl, id⟩⟩
  files := rfl
  fileHeap := rfl
  fds := rfl
  leaked := rfl
  object _ := rfl
  name hk _ := hk
  removed _ he := by simp at he

theorem keep (h : Deleted s l s') (hT : s'.tagHeap.get? e.2 = some T) (hu : T.inUse = true) :
    Deleted s (l ++ [e]) s' where
  tidy := h.tidy
  coherent := h.coherent
  fewer := h.fewer
  files := h.files
  fileHeap := h.fileHeap
  fds := h.fds
  leaked := h.leaked
  object ht := h.object (ht.imp_right fun hne e' he' => hne e' (List.mem_append_left _ he'))
  name hk ht := h.name hk (ht.imp_right fun hne e' he' => hne e' (List.mem_append_left _ he'))
  removed {k t} hk he := by
    obtain ⟨e', he', rfl⟩ := he
    rcases List.mem_append.mp he' with he' | he'
    · exact h.removed hk ⟨e', he', rfl⟩
    · rw [List.mem_singleton.mp he']
      obtain ⟨T₀, hT₀, -, hu₀, -⟩ := h.fewer.tag hT
      exact ⟨T₀, hT₀, hu₀.trans hu⟩

theorem drop (h : Deleted s l s') (hcur : s'.Current e.2) (hT : s'.tagHeap.get? e.2 = some T)
    (hu : T.inUse = false) : Deleted s (l ++ [e]) (s'.dropTag e.2 T) := by
  have hne {t : TagId} (ht : s.InUse t ∨ ∀ e' ∈ l ++ [e], e'.2 ≠ t) :
      (s.InUse t ∨ ∀ e' ∈ l, e'.2 ≠ t) ∧ t ≠ e.2 := by
    rcases ht with ht | ht
    · refine ⟨.inl ht, ?_⟩
      rintro rfl
      -- giving back does not change whether a tag is in use
      obtain ⟨T₀, hT₀, -, hu₀, -⟩ := h.fewer.tag hT
      obtain ⟨T₁, hT₁, hu₁⟩ := ht
      rw [hT₀] at hT₁
      cases hT₁
      rw [hu₀, hu] at hu₁
      cases hu₁
    · exact ⟨.inr fun e' he' => ht e' (List.mem_append_left _ he'), fun he => ht e (by simp) he.symm⟩
  have hnil := h.tidy.idle hT hu
  refine
    { tidy := h.tidy.dropTag hT
      coherent := h.coherent.dropTag h.tidy.toTyped hT hnil ?_
      fewer := h.fewer.trans (Store.fewer_dropTag h.tidy.tagsUnique hT)
      files := h.files
      fileHeap := h.fileHeap
      fds := h.fds
      leaked := h.leaked
      object := ?_
      name := ?_
      removed := ?_ }
  · intro t' T' hk hT'
    cases hcur T t' hT hk
    rw [hT] at hT'
    cases hT'
    exact hnil
  · intro t ht
    rw [Store.dropTag_get?_ne (hne ht).2, h.object (hne ht).1]
  · intro k t hk ht
    have hk' := h.name hk (hne ht).1
    change (s'.tags.erase T.value).get? k = some t
    rw [h.tidy.tagsUnique.get?_erase, if_neg, hk']
    rintro rfl
    exact (hne ht).2 (hcur T t hT hk')
  · intro k t hk he
    change (s'.tags.erase T.value).get? k = some t at hk
    rw [h.tidy.tagsUnique.get?_erase] at hk
    split_ifs at hk with hkv
    obtain ⟨e', he', rfl⟩ := he
    rcases List.mem_append.mp he' with he' | he'
    · exact h.removed hk ⟨e', he', rfl⟩
    · rw [List.mem_singleton.mp he'] at hk
      exact absurd (h.tidy.value_of_get? hk hT).symm hkv

end Deleted

/-- `path_delete` of a path whose tags have lost their name to no other object. -/
theorem sat_deleted {path : Path} (h : s.Tidy) (hc : s.Coherent)
    (hl : ∀ e ∈ path.held, s.Current e.2) :
    Returns (pathDelete env s path) (Deleted s path.held) := by
  refine (sat_freeSelectedTags (fun l₁ s₁ => ∃ l₀, l₀ ++ l₁ = path.held ∧ Deleted s l₀ s₁)
    (fun _ _ _ _ _ => trivial) ?_ ?_ ⟨[], rfl, .refl h hc⟩).mono ?_
  · rintro e l₁ s₁ T ⟨l₀, hsplit, hd⟩ hT hu
    exact ⟨l₀ ++ [e], by simpa using hsplit, hd.keep hT hu⟩
  · rintro e l₁ s₁ T ⟨l₀, hsplit, hd⟩ hT hu
    have hcur := (hl e (by rw [← hsplit]; simp)).mono hd.fewer
    exact ⟨hd.tidy.tagsUnique, hd.tidy.idle hT hu, l₀ ++ [e], by simpa using hsplit,
      hd.drop hcur hT hu⟩
  · rintro s₁ ⟨l₀, hsplit, hd⟩
    rw [List.append_nil] at hsplit
    exact hsplit ▸ hd

end TagFilesystem.Fuse
