import TagFilesystem.Fuse.Counts
import TagFilesystem.Cutil.Split

namespace TagFilesystem.Fuse

open Cutil (StringMemory SplitFault INT_MAX UINT_MAX)

inductive SelectFault
  | split (e : SplitFault)
  | store (e : Fault)
  /-- `tags[i]` is `NULL` or not in the buffer. -/
  | badString
  deriving Repr, DecidableEq

def onSplit {β : Type} (r : Except SplitFault β) : Except SelectFault β :=
  match r with
  | .ok b => .ok b
  | .error e => .error (.split e)

def onStore {β : Type} (r : Except Fault β) : Except SelectFault β :=
  match r with
  | .ok b => .ok b
  | .error e => .error (.store e)

section

variable [c : Counting]

/-- The body of the loop for the element `tags[i]` of the buffer. -/
def selectElement (r : HashTable TagId × Store) (element : Option (Option CStr)) :
    Except SelectFault (HashTable TagId × Store) :=
  match element with
  | some (some name) => onStore (selectTag r name)
  | _ => .error .badString

/-- `compute_selected_tags` over the memory of the lists. -/
def Buffer.computeSelectedTags (m : StringMemory) (s : Store) (dirpath : CStr) :
    Except SelectFault (HashTable TagId × Store × StringMemory) :=
  if dirpath = dot then .ok (.empty, s, m)
  else do
    let (count, tags, m) ← onSplit (Cutil.stringSplit m (some dirpath) [slash])
    let tagCount := count.toInt32.toInt
    let (selectedTags, s) ← forEach (List.range tagCount.toNat)
      (fun r i => selectElement r tags[i]?) (.empty, s)
    .ok (selectedTags, s, m)

end

/-- A component is registered under an object that is gone. -/
def Store.Dangling (s : Store) (ks : List CStr) : Prop :=
  ∃ k ∈ ks, ∃ t, s.tags.get? k = some t ∧ s.tagHeap.get? t = none

/-- `s'` is `s` after the tags of the components `ks` have been selected into `sel`. -/
structure Selected (s : Store) (ks : List CStr) (sel : HashTable TagId) (s' : Store) : Prop where
  keys : sel.keys = ks
  entry : ∀ {k t}, (k, t) ∈ sel.entries →
    s'.tags.get? k = some t ∧ ∃ T, s'.tagHeap.get? t = some T
  unique : s'.tags.Unique
  appended : s.tags.entries <+: s'.tags.entries
  registered : ∀ {k}, s'.tags.get? k = none ↔ s.tags.get? k = none ∧ k ∉ ks
  old : ∀ {t T}, s.tagHeap.get? t = some T →
    s'.tagHeap.get? t = some { T with refCount := T.refCount + s'.mentions ks t }
  created : ∀ {k}, k ∈ ks → s.tags.get? k = none → ∃ t, s'.tags.get? k = some t ∧
    s.tagHeap.get? t = none ∧
    s'.tagHeap.get? t = some { tagNew k false with refCount := s'.mentions ks t }
  only : ∀ {t T}, s'.tagHeap.get? t = some T → s.tagHeap.get? t = none →
    ∃ k ∈ ks, s.tags.get? k = none ∧ s'.tags.get? k = some t
  frame : s' = { s with tags := s'.tags, tagHeap := s'.tagHeap }

variable {s s' : Store} {t t' : TagId} {T : Tag} {k : CStr} {ks : List CStr} {sel : HashTable TagId}
  {m : StringMemory} {dirpath : CStr} {E : SelectFault → Prop}

theorem get?_writeTag_concat {T' : Tag} (hk : s.tags.get? k = some t)
    (hT : s.tagHeap.get? t = some T) {c : ℤ}
    (hT' : s.tagHeap.get? t' = some { T' with refCount := c + s.mentions ks t' }) :
    (s.writeTag t { T with refCount := T.refCount + 1 }).tagHeap.get? t' =
      some { T' with refCount := c + s.mentions (ks ++ [k]) t' } := by
  rw [Store.writeTag_tagHeap, Heap.get?_write, mentions_concat, hk]
  by_cases ht : t' = t
  · subst ht
    rw [hT] at hT' ⊢
    cases hT'
    simp [Int.add_assoc]
  · rw [if_neg ht, hT', if_neg fun h => ht (Option.some.inj h).symm, Nat.add_zero]

namespace Selected

theorem refl (hu : s.tags.Unique) : Selected s [] .empty s where
  keys := rfl
  entry he := by simp at he
  unique := hu
  appended := List.prefix_refl _
  registered := by simp
  old hT := by simpa [Store.mentions] using hT
  created hk := absurd hk List.not_mem_nil
  only hT hno := by
    rw [hno] at hT
    cases hT
  frame := rfl

theorem exists_entry (h : Selected s ks sel s') (hk : k ∈ ks) :
    ∃ t T, s'.tags.get? k = some t ∧ s'.tagHeap.get? t = some T := by
  rw [← h.keys, Table.keys, List.mem_map] at hk
  obtain ⟨⟨k, t⟩, he, rfl⟩ := hk
  obtain ⟨hget, T, hT⟩ := h.entry he
  exact ⟨t, T, hget, hT⟩

theorem kept (h : Selected s ks sel s') (hk : s.tags.get? k = some t) : s'.tags.get? k = some t :=
  h.unique.get?_eq_some.mpr (h.appended.subset (Table.mem_of_get? hk))

theorem dangling (h : Selected s ks sel s') (hk : s'.tags.get? k = some t)
    (ht : s'.tagHeap.get? t = none) : s.tags.get? k = some t ∧ s.tagHeap.get? t = none := by
  -- what has been selected is live
  have hks : k ∉ ks := by
    intro hmem
    obtain ⟨t', T, hget, hT⟩ := h.exists_entry hmem
    rw [hk] at hget
    cases hget
    rw [ht] at hT
    cases hT
  constructor
  · cases hold : s.tags.get? k with
    | none =>
      rw [h.registered.mpr ⟨hold, hks⟩] at hk
      cases hk
    | some t' =>
      rw [← hk, h.kept hold]
  · cases hT : s.tagHeap.get? t with
    | none => rfl
    | some T =>
      rw [h.old hT] at ht
      cases ht

theorem acquire (h : Selected s ks sel s') (hk : s'.tags.get? k = some t)
    (hT : s'.tagHeap.get? t = some T) : Selected s (ks ++ [k]) (sel.add k t)
      (s'.writeTag t { T with refCount := T.refCount + 1 }) where
  keys := by simp [Table.keys, ← h.keys]
  entry {k' t'} he := by
    rw [Store.writeTag_tags, Store.writeTag_tagHeap, Heap.get?_write]
    rcases List.mem_append.mp he with he | he
    · obtain ⟨hget, T', hT'⟩ := h.entry he
      refine ⟨hget, ?_⟩
      rw [hT']
      split_ifs
      · exact ⟨_, rfl⟩
      · exact ⟨T', rfl⟩
    · -- the new entry is the one whose count has been raised
      cases List.mem_singleton.mp he
      exact ⟨hk, _, by rw [if_pos rfl, hT]; rfl⟩
  unique := h.unique
  appended := h.appended
  registered {k'} := by
    rw [Store.writeTag_tags, h.registered, List.mem_append, List.mem_singleton]
    refine and_congr_right fun hno => ⟨fun hks => ?_, fun hks => fun hmem => hks (.inl hmem)⟩
    rintro (hmem | rfl)
    · exact hks hmem
    · rw [h.registered.mpr ⟨hno, hks⟩] at hk
      cases hk
  old {t' T'} hT' := get?_writeTag_concat hk hT (h.old hT')
  created {k'} hmem hno := by
    have hks : k' ∈ ks := by
      rcases List.mem_append.mp hmem with hmem | hmem
      · exact hmem
      · by_contra hks
        cases List.mem_singleton.mp hmem
        rw [h.registered.mpr ⟨hno, hks⟩] at hk
        cases hk
    -- a tag that was made for an earlier component starts from 0
    obtain ⟨t', hget, hfresh, hT'⟩ := h.created hks hno
    refine ⟨t', hget, hfresh, ?_⟩
    rw [← Int.zero_add (s'.mentions ks t' : ℤ)] at hT'
    simpa using get?_writeTag_concat hk hT hT'
  only {t' T'} hT' hno := by
    obtain ⟨T₀, hT₀⟩ : ∃ T₀, s'.tagHeap.get? t' = some T₀ := by
      obtain ⟨rfl, -⟩ | ⟨-, hT'⟩ := Heap.get?_write_cases hT'
      · exact ⟨T, hT⟩
      · exact ⟨T', hT'⟩
    obtain ⟨k', hk', hnone, hget⟩ := h.only hT₀ hno
    exact ⟨k', List.mem_append_left _ hk', hnone, hget⟩
  frame := by
    conv_lhs => rw [h.frame]
    rfl

theorem mentions_registerTag (h : Selected s ks sel s') (hk : s'.tags.get? k = none) :
    (s'.registerTag { tagNew k false with refCount := 1 }).mentions (ks ++ [k]) t =
      s'.mentions ks t + if t = s'.tagHeap.next then 1 else 0 := by
  have hself : (s'.registerTag { tagNew k false with refCount := 1 }).tags.get? k =
      some s'.tagHeap.next := Table.get?_add_self
  have hcongr : (s'.registerTag { tagNew k false with refCount := 1 }).mentions ks t =
      s'.mentions ks t := by
    refine mentions_congr fun k' hk' => Table.get?_add.trans (if_neg ?_)
    rintro rfl
    obtain ⟨t', T, hget, -⟩ := h.exists_entry hk'
    have hkk : s'.tags.get? k = some t' := hget
    rw [hk] at hkk
    cases hkk
  rw [mentions_concat, hcongr, hself]
  simp only [Option.some.injEq, eq_comm]

theorem mentions_next (h : Selected s ks sel s') : s'.mentions ks s'.tagHeap.next = 0 := by
  refine mentions_eq_zero fun k hk hnext => ?_
  obtain ⟨t, T, hget, hT⟩ := h.exists_entry hk
  rw [hnext] at hget
  cases hget
  exact Heap.ne_next hT rfl

theorem fresh (h : Selected s ks sel s') : s.tagHeap.get? s'.tagHeap.next = none := by
  cases ht : s.tagHeap.get? s'.tagHeap.next with
  | none => rfl
  | some T => exact absurd rfl (Heap.ne_next (h.old ht))

theorem create (h : Selected s ks sel s') (hk : s'.tags.get? k = none) :
    Selected s (ks ++ [k]) (sel.add k s'.tagHeap.next)
      (s'.registerTag { tagNew k false with refCount := 1 }) where
  keys := by simp [Table.keys, ← h.keys]
  entry {k' t'} he := by
    rcases List.mem_append.mp he with he | he
    · obtain ⟨hget, T', hT'⟩ := h.entry he
      have hne : k ≠ k' := by
        rintro rfl
        rw [hk] at hget
        cases hget
      exact ⟨(Table.get?_add.trans (if_neg hne)).trans hget, T', Heap.get?_alloc_of_some hT'⟩
    · cases List.mem_singleton.mp he
      exact ⟨Table.get?_add_self, _, Heap.get?_alloc_next⟩
  unique := h.unique.add hk
  appended := h.appended.trans (List.prefix_append _ _)
  registered {k'} := by
    have hadd : (s'.registerTag { tagNew k false with refCount := 1 }).tags.get? k' =
        if k = k' then some s'.tagHeap.next else s'.tags.get? k' := Table.get?_add
    rw [hadd]
    split_ifs with hkk
    · simp [hkk]
    · rw [h.registered]
      simp [Ne.symm hkk]
  old {t' T'} hT' := by
    have hold := h.old hT'
    rw [h.mentions_registerTag hk, if_neg (Heap.ne_next hold), Nat.add_zero]
    exact Heap.get?_alloc_of_some hold
  created {k'} hmem hno := by
    by_cases hkk : k = k'
    · subst hkk
      -- of the components so far none is registered under the new object
      refine ⟨s'.tagHeap.next, Table.get?_add_self, h.fresh, ?_⟩
      rw [h.mentions_registerTag hk, h.mentions_next, if_pos rfl]
      exact Heap.get?_alloc_next
    · have hks : k' ∈ ks := by simpa [Ne.symm hkk] using hmem
      obtain ⟨t', hget, hfresh, hT'⟩ := h.created hks hno
      refine ⟨t', (Table.get?_add.trans (if_neg hkk)).trans hget, hfresh, ?_⟩
      rw [h.mentions_registerTag hk, if_neg (Heap.ne_next hT'), Nat.add_zero]
      exact Heap.get?_alloc_of_some hT'
  only {t' T'} hT' hno := by
    obtain ⟨rfl, rfl⟩ | ⟨-, hT'⟩ := Heap.get?_alloc_cases hT'
    · exact ⟨k, by simp, (h.registered.mp hk).1, Table.get?_add_self⟩
    · obtain ⟨k', hk', hnone, hget⟩ := h.only hT' hno
      have hne : k ≠ k' := by
        rintro rfl
        rw [hk] at hget
        cases hget
      exact ⟨k', List.mem_append_left _ hk', hnone,
        (Table.get?_add.trans (if_neg hne)).trans hget⟩
  frame := by
    conv_lhs => rw [h.frame]
    rfl

end Selected

theorem sat_selectTag (h : Selected s ks sel s') :
    Sat (fun e => e = .freedTag ∧ s.Dangling [k]) (selectTag (sel, s') k) fun r =>
      Selected s (ks ++ [k]) r.1 r.2 := by
  cases hk : s'.tags.get? k with
  | some t =>
    simp only [selectTag, tagGet, hk, tagIncRef]
    cases hT : s'.tagHeap.get? t with
    | some T =>
      simp only [Store.readTag_eq hT, ok_bind]
      exact h.acquire hk hT
    | none =>
      simp only [Store.readTag, hT]
      exact ⟨rfl, k, List.mem_singleton.mpr rfl, t, h.dangling hk hT⟩
  | none =>
    have hi := tagIncRef_tagGetOrCreateIn (u := false) hk
    have h1 : (tagGetOrCreateIn s' k false).1 = s'.tagHeap.next := by simp [tagGetOrCreateIn, hk]
    rw [h1] at hi
    simp only [selectTag, tagGet, hk, h1, hi, ok_bind, sat_ok]
    exact h.create hk

theorem sat_selected (hu : s.tags.Unique) : Sat (fun e => e = .freedTag ∧ s.Dangling (components dirpath))
    (computeSelectedTags s dirpath) fun r => Selected s (components dirpath) r.1 r.2 := by
  rw [computeSelectedTags_eq]
  refine sat_forEach_visited
    (fun ks (r : HashTable TagId × Store) => Selected s ks r.1 r.2) ?_ (.refl hu)
  rintro done k rest ⟨sel, s'⟩ hl h
  apply (sat_selectTag h).weaken
  rintro _ ⟨rfl, k', hk', hd⟩
  cases List.mem_singleton.mp hk'
  refine ⟨rfl, k, ?_, hd⟩
  rw [← hl]
  exact List.mem_append_right _ List.mem_cons_self

theorem sat_onStore {β : Type} {r : Except Fault β} {Q : β → Prop}
    (h : Sat (fun e => E (.store e)) r Q) : Sat E (onStore r) Q := by
  cases r with
  | ok b => exact h
  | error e => exact h

theorem forEach_onStore [c : Counting] (l : List CStr) (r : HashTable TagId × Store) :
    forEach l (fun r name => onStore (selectTag r name)) r = onStore (forEach l selectTag r) := by
  induction l generalizing r with
  | nil => rfl
  | cons name l ih =>
    rw [forEach_cons, forEach_cons]
    cases selectTag r name with
    | ok r' => exact ih r'
    | error e => rfl

/-- What a function has left in the memory of the lists: those that were there. -/
def SameLists (m m' : StringMemory) : Prop :=
  ∀ A, Cutil.Refines m A → ∃ A', Cutil.Refines m' A' ∧ ∀ l, A'.get? l = A.get? l

theorem Buffer.computeSelectedTags_eq [c : Counting] (hdot : dirpath ≠ dot)
    (hlt : (strtok dirpath [slash]).length < UINT_MAX) :
    ∃ m', SameLists m m' ∧ Buffer.computeSelectedTags m s dirpath =
      (fun r => (r.1, r.2, m')) <$> forEach
        (List.range (Int32.ofNat (strtok dirpath [slash]).length).toInt.toNat)
        (fun r i => selectElement r ((strtok dirpath [slash]).map some)[i]?) (.empty, s) := by
  obtain ⟨A, hA⟩ := Cutil.exists_refines m
  obtain ⟨⟨count, tags, m'⟩, hrun, rfl, rfl, -⟩ :=
    (Cutil.sat_stringSplit (E := fun _ => False) hA hlt).exists_ok
  refine ⟨m', fun B hB => ?_, ?_⟩
  · exact ((Cutil.sat_stringSplit (E := fun _ => True) hB hlt).of_ok hrun).2.2
  · rw [Buffer.computeSelectedTags, if_neg hdot, hrun]
    rfl

/-- As long as the number of components and the counts fit into an `int`, the table that
`compute_selected_tags` returns lists the components of the path. -/
theorem computeSelectedTags_selects (hu : s.tags.Unique) (hdot : dirpath ≠ dot)
    (hroom : s.RoomFor (strtok dirpath [slash]))
    (hmin : ∀ k ∈ strtok dirpath [slash], ∀ t T, s.tags.get? k = some t → s.tagHeap.get? t = some T →
      -INT_MAX - 1 ≤ T.refCount) :
    Sat (fun e => e = .store .freedTag ∧ s.Dangling (strtok dirpath [slash]))
      (@Buffer.computeSelectedTags Counting.int m s dirpath) fun r =>
        Selected s (strtok dirpath [slash]) r.1 r.2.1 ∧ SameLists m r.2.2 := by
  have hint := hroom.1
  have hlt : (strtok dirpath [slash]).length < UINT_MAX := by
    simp only [INT_MAX, UINT_MAX] at hint ⊢
    omega
  have hcount : (Int32.ofNat (strtok dirpath [slash]).length).toInt = (strtok dirpath [slash]).length := by
    refine Int32.toInt_ofNat_of_lt ?_
    simp only [INT_MAX] at hint
    change _ < 2147483648
    omega
  have hrange : (Int32.ofNat (strtok dirpath [slash]).length).toInt.toNat =
      ((strtok dirpath [slash]).map some).length := by
    rw [hcount, Int.toNat_natCast, List.length_map]
  obtain ⟨m', hm', hrun⟩ := Buffer.computeSelectedTags_eq (c := Counting.int) (m := m) (s := s) hdot hlt
  -- below `INT_MAX` the loop over the buffer is the loop over the components
  have hloop : Sat (fun e => e = .freedTag ∧ s.Dangling (components dirpath))
      (computeSelectedTags s dirpath) fun r => Selected s (components dirpath) r.1 r.2 :=
    sat_selected hu
  have hcoincide : @computeSelectedTags Counting.int s dirpath = computeSelectedTags s dirpath := by
    have hfits := hroom.fits hu fun hk => hmin _ hk _ _
    rw [← components_ne_dot hdot, ← List.append_nil (components dirpath)] at hfits
    exact (coincide_computeSelectedTags hfits (Int.le_refl _) (by decide)).1
  rw [← hcoincide, computeSelectedTags_eq (c := Counting.int), components_ne_dot hdot] at hloop
  rw [hrun, hrange, forEach_range_getElem?, forEach_map, sat_map]
  change Sat _ (forEach _ (fun r name => onStore (@selectTag Counting.int r name)) _) _
  rw [forEach_onStore (c := Counting.int)]
  refine sat_onStore ((hloop.weaken ?_).mono fun r hr => ⟨hr, hm'⟩)
  rintro _ ⟨rfl, hd⟩
  exact ⟨rfl, hd⟩

/-- One tag, with three references. -/
def oneTag : Store := Store.init.registerTag { tagNew (cstr [97]) true with refCount := 3 }

/-- A path with a tag that occurs twice and one that is new. -/
theorem computeSelectedTags_selects_sample : ∃ r,
    @Buffer.computeSelectedTags Counting.int .empty oneTag (cstr [47, 97, 47, 98, 47, 47, 97]) = .ok r ∧
      Selected oneTag [cstr [97], cstr [98], cstr [97]] r.1 r.2.1 := by
  have hu : oneTag.tags.Unique := List.nodup_singleton _
  have hlive (ks : List CStr) : ¬ oneTag.Dangling ks := by
    rintro ⟨k, -, t, hget, hno⟩
    cases List.mem_singleton.mp (Table.mem_of_get? hget)
    cases hno
  have hmin {k : CStr} {t : TagId} {T : Tag} (hget : oneTag.tags.get? k = some t)
      (hT : oneTag.tagHeap.get? t = some T) : -INT_MAX - 1 ≤ T.refCount := by
    cases List.mem_singleton.mp (Table.mem_of_get? hget)
    cases hT
    decide
  have hroom : oneTag.RoomFor [cstr [97], cstr [98], cstr [97]] := by decide
  have hdot : cstr [47, 97, 47, 98, 47, 47, 97] ≠ dot := by decide
  have hks : strtok (cstr [47, 97, 47, 98, 47, 47, 97]) [slash] = [cstr [97], cstr [98], cstr [97]] := by
    decide
  -- nothing is evaluated from here on
  generalize oneTag = s at hu hlive hmin hroom ⊢
  generalize cstr [47, 97, 47, 98, 47, 47, 97] = dirpath at hdot hks ⊢
  have hsat := computeSelectedTags_selects (m := .empty) hu hdot (hks ▸ hroom)
    fun k _ t T => hmin
  obtain ⟨r, hrun, hsel, -⟩ := (hsat.weaken fun e he => hlive _ he.2).exists_ok
  exact ⟨r, hrun, hks ▸ hsel⟩

theorem dirPath_ne_dot (ds : List CStr) : dirPath ds ≠ dot := by
  intro h
  have hhead : (dirPath ds).head? = some ⟨46, by decide⟩ := by
    rw [h]
    rfl
  exact absurd (dirPath_head ds _ hhead) (by decide)

/-- A number of components that is negative as an `int`: none of them is selected. -/
theorem computeSelectedTags_of_nonpos [c : Counting] {n : ℕ} (hk : IsName k) (hn : (Int32.ofNat n).toInt ≤ 0)
    (hlt : n < UINT_MAX) : ∃ m', SameLists m m' ∧
      Buffer.computeSelectedTags m s (dirPath (List.replicate n k)) = .ok (.empty, s, m') := by
  have hks : strtok (dirPath (List.replicate n k)) [slash] = List.replicate n k :=
    strtok_dirPath fun d hd => List.eq_of_mem_replicate hd ▸ hk
  have hlen : (strtok (dirPath (List.replicate n k)) [slash]).length = n := by
    rw [hks, List.length_replicate]
  obtain ⟨m', hm', hrun⟩ := Buffer.computeSelectedTags_eq (m := m) (s := s) (dirPath_ne_dot _)
    (hlen.trans_lt hlt)
  refine ⟨m', hm', ?_⟩
  rw [hrun, hlen, Int.toNat_of_nonpos hn]
  rfl

theorem not_selected_empty {n : ℕ} (hk : IsName k) (hn : 0 < n) :
    ¬ Selected s (strtok (dirPath (List.replicate n k)) [slash]) .empty s' := by
  intro h
  have hks := h.keys
  rw [strtok_dirPath fun d hd => List.eq_of_mem_replicate hd ▸ hk] at hks
  have hlen := congrArg List.length hks
  rw [List.length_replicate] at hlen
  exact absurd hlen (Nat.ne_of_lt hn)

/-- The count of a tag with `INT_MAX` references does not grow, and from `INT_MAX + 1` components
on the loop is not entered. -/
theorem computeSelectedTags_int_max :
    (fullTag.tags.Unique ∧ ∃ r, @Buffer.computeSelectedTags Counting.int .empty fullTag nameX = .ok r ∧
      ¬ Selected fullTag (strtok nameX [slash]) r.1 r.2.1) ∧
    ∃ m', @Buffer.computeSelectedTags Counting.int .empty .init
        (dirPath (List.replicate 2147483648 (cstr [97]))) = .ok (.empty, .init, m') ∧
      ¬ Selected .init (strtok (dirPath (List.replicate 2147483648 (cstr [97]))) [slash]) .empty .init := by
  constructor
  · refine ⟨List.nodup_singleton _, ?_⟩
    -- one more reference, and the count is negative
    have hwrap : returnsWith (@Buffer.computeSelectedTags Counting.int .empty fullTag nameX)
        (fun r => (r.2.1.tagHeap.get? 0).map Tag.refCount = some (-2147483648)) = true := by
      decide +kernel
    obtain ⟨r, hrun, hneg⟩ := returnsWith_iff.mp hwrap
    refine ⟨r, hrun, fun hsel => ?_⟩
    have hold := hsel.old (t := 0) (T := { tagNew nameX true with refCount := INT_MAX }) rfl
    have hcount := of_decide_eq_true hneg
    rw [hold, Option.map_some, Option.some.injEq] at hcount
    simp only [INT_MAX] at hcount
    omega
  · obtain ⟨m', -, hrun⟩ := computeSelectedTags_of_nonpos (c := Counting.int) (m := .empty)
      (s := .init) (k := cstr [97]) (n := 2147483648) (by decide) (by decide) (by decide)
    exact ⟨m', hrun, not_selected_empty (by decide) (by decide)⟩

end TagFilesystem.Fuse
