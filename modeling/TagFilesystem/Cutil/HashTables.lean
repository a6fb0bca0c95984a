import TagFilesystem.Cutil.Delete
import TagFilesystem.Library.Simulation
import Mathlib.Logic.Function.Basic

namespace TagFilesystem.Cutil

variable {κ α : Type} {E : HtFault → Prop} {hash : κ → UInt32} {m m' m'' : HtMemory κ α}
  {h : HashTableId} {tbl tbl' tbl'' : Option UtTableId} {l l' l'' : List EntryId}
  {items items' : Items κ α} {malloc : Malloc} {key : κ} {data : α} {a : EntryId}

theorem Update.refl (m : HtMemory κ α) (h : HashTableId) (tbl : Option UtTableId)
    (l : List EntryId) : Update m m h tbl tbl l l :=
  ⟨fun _ _ _ => rfl, fun _ ha ha' => absurd ha ha', fun _ ha ha' => absurd ha ha',
    fun _ _ _ => rfl, fun _ ht ht' => absurd ht ht', fun _ ht ht' => absurd ht ht', fun _ _ => rfl, rfl⟩

theorem Update.trans (hu : Update m m' h tbl tbl' l l') (hu' : Update m' m'' h tbl' tbl'' l' l'') :
    Update m m'' h tbl tbl'' l l'' := by
  refine ⟨fun a ha ha'' => ?_, fun a ha ha'' => ?_, fun a ha'' ha => ?_, fun t ht ht'' => ?_,
    fun t ht ht'' => ?_, fun t ht'' ht => ?_, fun h' hne => ?_, hu'.next.trans hu.next⟩
  · by_cases ha' : a ∈ l'
    · rw [hu'.gone a ha' ha'', hu.fresh a ha' ha]
    · rw [hu'.entry a ha' ha'', hu.entry a ha ha']
  · by_cases ha' : a ∈ l'
    · exact hu'.gone a ha' ha''
    · rw [hu'.entry a ha' ha'', hu.gone a ha ha']
  · by_cases ha' : a ∈ l'
    · exact hu.fresh a ha' ha
    · rw [← hu.entry a ha ha', hu'.fresh a ha'' ha']
  · by_cases ht' : tbl' = some t
    · rw [hu'.tableGone t ht' ht'', hu.tableFresh t ht' ht]
    · rw [hu'.table t ht' ht'', hu.table t ht ht']
  · by_cases ht' : tbl' = some t
    · exact hu'.tableGone t ht' ht''
    · rw [hu'.table t ht' ht'', hu.tableGone t ht ht']
  · by_cases ht' : tbl' = some t
    · exact hu.tableFresh t ht' ht
    · rw [← hu.table t ht ht', hu'.tableFresh t ht'' ht']
  · rw [hu'.hashTable h' hne, hu.hashTable h' hne]

theorem nextOf_seg {p : Option EntryId} (hs : m.app.Seg p l none) : nextOf m l.head? = .ok l.tail.head? := by
  cases l with
  | nil => rfl
  | cons a l =>
    obtain ⟨e, he, hlinks⟩ := Heap.of_view hs.1
    have hnext : e.next = l.head? := by
      rw [Option.or_none] at hlinks
      exact (Link.mk.inj hlinks).2
    simp only [nextOf, List.head?_cons, HtMemory.readEntry_eq he, ok_bind, hnext, List.tail_cons]

/-- The rule for `HASH_ITER`: the invariant sees the items that are still to be visited. -/
theorem sat_hashIter {σ : Type} {memory : σ → HtMemory κ α} {body : σ → EntryId → Except HtFault σ}
    (I : Items κ α → σ → Prop)
    (hnext : ∀ ys s, I ys s → nextOf (memory s) (ids ys).head? = .ok (ids ys).tail.head?)
    (hbody : ∀ x ys s, I (x :: ys) s → Sat E (body s x.1) (I ys)) :
    ∀ (ys : Items κ α) (fuel : ℕ) (s : σ), ys.length ≤ fuel → I ys s →
      Sat E (hashIter memory body fuel (ids ys).head? (ids ys).tail.head? s) (I []) := by
  intro ys
  induction ys with
  | nil =>
    intro fuel s _ hI
    simp only [ids_nil, List.head?_nil, hashIter]
    exact hI
  | cons x ys ih =>
    intro fuel s hfuel hI
    obtain ⟨fuel, rfl⟩ : ∃ f, fuel = f + 1 := ⟨fuel - 1, by simp only [List.length_cons] at hfuel; omega⟩
    simp only [ids_cons, List.head?_cons, List.tail_cons, hashIter]
    refine (hbody x ys s hI).bind fun s' hI' => ?_
    simp only [hnext ys s' hI', ok_bind]
    exact ih fuel s' (by simp only [List.length_cons] at hfuel; omega) hI'

namespace HtHolds

theorem seg (hh : HtHolds hash m h tbl items) : m.app.Seg none (ids items) none := by
  obtain ⟨-, rfl⟩ | ⟨t, T, row, -, hrep⟩ := hh.table
  · trivial
  · exact hrep.links

theorem length_le_next (hh : HtHolds hash m h tbl items) : items.length ≤ m.entries.next := by
  obtain ⟨-, rfl⟩ | ⟨t, T, row, -, hrep⟩ := hh.table
  · exact Nat.zero_le _
  · exact hrep.length_le_next

theorem content (hh : HtHolds hash m h tbl items) {x : EntryId × κ × α} (hx : x ∈ items) :
    m.content x.1 = some ⟨x.2.1, x.2.2, tbl, hash x.2.1⟩ := by
  obtain ⟨-, rfl⟩ | ⟨t, T, row, rfl, hrep⟩ := hh.table
  · cases hx
  · exact hrep.content x hx

theorem sat_htIter {σ : Type} {memory : σ → HtMemory κ α} {body : σ → EntryId → Except HtFault σ} {s : σ}
    (hh : HtHolds hash m h tbl items) (I : Items κ α → σ → Prop)
    (hnext : ∀ ys s, I ys s → nextOf (memory s) (ids ys).head? = .ok (ids ys).tail.head?)
    (hbody : ∀ x ys s, I (x :: ys) s → Sat E (body s x.1) (I ys)) (hs : I items s) :
    Sat E (htIter m h memory body s) (I []) := by
  have hread : m.readHashTable h = .ok (ids items).head? := by
    simp only [HtMemory.readHashTable, hh.head]
  simp only [htIter, hread, nextOf_seg hh.seg, ok_bind]
  exact sat_hashIter I hnext hbody items _ s hh.length_le_next hs

/-- `ht_for_each` calls the function on the items in the order of insertion. -/
theorem sat_htForEach {σ : Type} (hh : HtHolds hash m h tbl items) (fn : κ → α → σ → σ) (args : σ) :
    Sat E (htForEach m h fn args) fun r =>
      r = items.foldl (fun s x => fn x.2.1 x.2.2 s) args := by
  refine (hh.sat_htIter (fun ys s => ∃ xs, xs ++ ys = items ∧
    s = xs.foldl (fun s x => fn x.2.1 x.2.2 s) args) ?_ ?_ ⟨[], rfl, rfl⟩).mono ?_
  · rintro ys s ⟨xs, hxs, -⟩
    have hseg := hh.seg
    rw [← hxs, ids_append] at hseg
    exact nextOf_seg (Links.seg_append.mp hseg).2
  · rintro x ys s ⟨xs, hxs, rfl⟩
    have hx : x ∈ items := hxs ▸ List.mem_append_right _ List.mem_cons_self
    obtain ⟨e, -, hre, -, -, hkey, hdata, -, -⟩ := HtMemory.exists_entry (hh.content hx)
    simp only [hre, ok_bind, hkey, hdata]
    exact ⟨xs ++ [x], by rw [List.append_assoc]; exact hxs, by rw [List.foldl_append]; rfl⟩
  · rintro s ⟨xs, hxs, rfl⟩
    rw [List.append_nil] at hxs
    rw [hxs]

/-- `ht_free` frees the entries one after another, and then the table. -/
theorem sat_htFree (hh : HtHolds hash m h tbl items) :
    Sat E (htFree m h) fun m' => m'.hashTables.get? h = none ∧
      Update m m' h tbl none (ids items) [] := by
  have hloop : Sat E (htIter m h id (fun m entry => htDelete m h entry) m) fun m' =>
      ∃ tbl', HtHolds hash m' h tbl' [] ∧ Update m m' h tbl tbl' (ids items) [] := by
    refine hh.sat_htIter (fun ys m' => ∃ tbl', HtHolds hash m' h tbl' ys ∧
      Update m m' h tbl tbl' (ids items) (ids ys)) ?_ ?_ ⟨tbl, hh, Update.refl m h tbl _⟩
    · rintro ys m' ⟨tbl', hh', -⟩
      exact nextOf_seg hh'.seg
    · rintro ⟨a, key, data⟩ ys m' ⟨tbl', hh', hu⟩
      have hh' : HtHolds hash m' h tbl' ([] ++ (a, key, data) :: ys) := hh'
      refine (sat_htDelete hh').mono fun m'' ⟨tbl'', hh'', hu'⟩ => ?_
      exact ⟨tbl'', hh'', hu.trans hu'⟩
  simp only [htFree]
  refine hloop.bind fun m' ⟨tbl', hh', hu⟩ => ?_
  have hnone : tbl' = none := by
    obtain ⟨hnone, -⟩ | ⟨t, T, row, -, hrep⟩ := hh'.table
    · exact hnone
    · exact absurd rfl hrep.ne_nil
  subst hnone
  simp only [HtMemory.readHashTable, hh'.head, ok_bind]
  refine ⟨by rw [Heap.get?_free, if_pos rfl], hu.entry, hu.gone, hu.fresh, hu.table, hu.tableGone,
    hu.tableFresh, fun h' hne => ?_, ?_⟩
  · rw [Heap.get?_free, if_neg hne]
    exact hu.hashTable h' hne
  · exact Heap.next_free.trans hu.next

end HtHolds

/-- A list of keys and data for every table. -/
abbrev Tables (κ α : Type) := Heap (Table κ α)

/-- The calls on lists: what they may return, and what they leave. With equal keys it is not said
which entry is found. -/
inductive HtStep [DecidableEq κ] (A : Tables κ α) : HtOp κ α → HtReply κ α → Tables κ α → Prop
  | create : HtStep A .create (.table A.next) (A.alloc .empty)
  | add {h t} (key data) : A.get? h = some t →
      HtStep A (.add h key data) (.err 0) (A.write h (t.add key data))
  | addNew {h t key} (data) : A.get? h = some t → key ∉ t.keys →
      HtStep A (.addUnique h key data) (.err 0) (A.write h (t.add key data))
  | addOld {h t key} (data) : A.get? h = some t → key ∈ t.keys →
      HtStep A (.addUnique h key data) (.err (-1)) A
  | remove {h t key data xs ys} : A.get? h = some t → t.entries = xs ++ (key, data) :: ys →
      HtStep A (.remove h key) (.err 0) (A.write h ⟨xs ++ ys⟩)
  | removeNone {h t key} : A.get? h = some t → key ∉ t.keys → HtStep A (.remove h key) (.err (-1)) A
  | has {h t} (key) : A.get? h = some t → HtStep A (.has h key) (.bool (key ∈ t.keys)) A
  | get {h t key data} : A.get? h = some t → (key, data) ∈ t.entries →
      HtStep A (.get h key) (.data (some data)) A
  | getNone {h t key} : A.get? h = some t → key ∉ t.keys → HtStep A (.get h key) (.data none) A
  | forEach {h t} : A.get? h = some t → HtStep A (.forEach h) (.calls t.entries) A
  | count {h t n} : A.get? h = some t → n.toUInt32.toNat = t.size → HtStep A (.count h) (.count n) A
  | free {h t} : A.get? h = some t → HtStep A (.free h) .done (A.free h)

/-- Where the tables are: the table object of each one and its items. -/
abbrev Layout (κ α : Type) := HashTableId → Option UtTableId × Items κ α

def tableOf (items : Items κ α) : Table κ α := ⟨items.map Prod.snd⟩

/-- The memory holds the tables `A` and nothing else. -/
structure Lays (hash : κ → UInt32) (layout : Layout κ α) (m : HtMemory κ α) (A : Tables κ α) : Prop where
  next : m.hashTables.next = A.next
  holds : ∀ h t, A.get? h = some t → HtHolds hash m h (layout h).1 (layout h).2 ∧ tableOf (layout h).2 = t
  dead : ∀ h, A.get? h = none → m.hashTables.get? h = none
  entry : ∀ a e, m.entries.get? a = some e → ∃ h t, A.get? h = some t ∧ a ∈ ids (layout h).2
  table : ∀ t T, m.tables.get? t = some T → ∃ h t', A.get? h = some t' ∧ (layout h).1 = some t
  separate : ∀ h h' t t' i, A.get? h = some t → A.get? h' = some t' → (layout h).1 = some i →
    (layout h').1 = some i → h = h'

/-- The memory is the tables `A`. -/
def HoldsTables (hash : κ → UInt32) (m : HtMemory κ α) (A : Tables κ α) : Prop :=
  ∃ layout, Lays hash layout m A

theorem holdsTables_empty (hash : κ → UInt32) : HoldsTables hash (.empty : HtMemory κ α) .empty :=
  ⟨fun _ => (none, []), rfl, nofun, fun _ _ => rfl, nofun, nofun, nofun⟩

namespace Lays

variable {layout : Layout κ α} {A : Tables κ α} {t : Table κ α} {h' : HashTableId}

theorem disjoint {t' : Table κ α} (hl : Lays hash layout m A) (hA : A.get? h = some t)
    (hA' : A.get? h' = some t') (hne : h' ≠ h) (ha : a ∈ ids (layout h').2) : a ∉ ids (layout h).2 := by
  intro ha'
  obtain ⟨x, hx, rfl⟩ := List.mem_map.mp ha
  obtain ⟨y, hy, hxy⟩ := List.mem_map.mp ha'
  have hcx := (hl.holds h' t' hA').1.content hx
  have hcy := (hl.holds h t hA).1.content hy
  rw [hxy] at hcy
  have htbl : (layout h').1 = (layout h).1 := congrArg HtContent.tbl (Option.some.inj (hcx.symm.trans hcy))
  obtain ⟨-, hnil⟩ | ⟨i, T, row, hi, -⟩ := (hl.holds h' t' hA').1.table
  · rw [hnil] at hx
    cases hx
  · exact hne (hl.separate h' h t' t i hA' hA hi (htbl ▸ hi))

theorem others (hl : Lays hash layout m A) (hA : A.get? h = some t) {l : List EntryId}
    (hu : Update m m' h (layout h).1 tbl (ids (layout h).2) l) {t' : Table κ α} (hA' : A.get? h' = some t')
    (hne : h' ≠ h) : HtHolds hash m' h' (layout h').1 (layout h').2 := by
  have hh := (hl.holds h' t' hA').1
  refine ⟨(hu.hashTable h' hne).trans hh.head, ?_⟩
  obtain hnone | ⟨i, T, row, hi, hrep⟩ := hh.table
  · exact .inl hnone
  · refine .inr ⟨i, T, row, hi, hrep.frame (fun a ha => ?_) ?_⟩
    · have hnot := hl.disjoint hA hA' hne ha
      refine hu.entry a hnot fun hal => ?_
      -- a new entry was not live before
      obtain ⟨c, hc⟩ := Option.isSome_iff_exists.mp (hrep.live ha)
      obtain ⟨e, he, -⟩ := Heap.of_view hc
      rw [hu.fresh a hal hnot] at he
      cases he
    · have hother : (layout h).1 ≠ some i := fun e => hne (hl.separate h' h t' t i hA' hA hi e)
      refine hu.table i hother fun e => ?_
      have hdead := hu.tableFresh i e hother
      rw [hrep.table] at hdead
      cases hdead

theorem set (hl : Lays hash layout m A) (hA : A.get? h = some t)
    (hu : Update m m' h (layout h).1 tbl' (ids (layout h).2) (ids items'))
    (hh : HtHolds hash m' h tbl' items') :
    Lays hash (Function.update layout h (tbl', items')) m' (A.write h (tableOf items')) := by
  have hself : Function.update layout h (tbl', items') h = (tbl', items') := Function.update_self ..
  have hother {h' : HashTableId} (hne : h' ≠ h) : Function.update layout h (tbl', items') h' = layout h' :=
    Function.update_of_ne hne ..
  have hlive : (A.write h (tableOf items')).get? h = some (tableOf items') := Heap.get?_write_self hA
  refine ⟨hu.next.trans (hl.next.trans Heap.next_write.symm), fun h' t' hA' => ?_, fun h' hA' => ?_,
    fun a e he => ?_, fun i T hT => ?_, fun h₁ h₂ t₁ t₂ i hA₁ hA₂ hi₁ hi₂ => ?_⟩
  · obtain ⟨rfl, rfl⟩ | ⟨hne, hA'⟩ := Heap.get?_write_cases hA'
    · rw [hself]
      exact ⟨hh, rfl⟩
    · rw [hother hne]
      exact ⟨hl.others hA hu hA' hne, (hl.holds h' t' hA').2⟩
  · have hne : h' ≠ h := by
      rintro rfl
      rw [hlive] at hA'
      cases hA'
    rw [Heap.get?_write_ne hne] at hA'
    rw [hu.hashTable h' hne]
    exact hl.dead h' hA'
  · by_cases ha' : a ∈ ids items'
    · exact ⟨h, _, hlive, by rw [hself]; exact ha'⟩
    by_cases ha : a ∈ ids (layout h).2
    · rw [hu.gone a ha ha'] at he
      cases he
    rw [hu.entry a ha ha'] at he
    obtain ⟨h', t', hA', hmem⟩ := hl.entry a e he
    have hne : h' ≠ h := by
      rintro rfl
      exact ha hmem
    exact ⟨h', t', by rw [Heap.get?_write_ne hne, hA'], by rw [hother hne]; exact hmem⟩
  · by_cases hi' : tbl' = some i
    · exact ⟨h, _, hlive, by rw [hself]; exact hi'⟩
    by_cases hi : (layout h).1 = some i
    · rw [hu.tableGone i hi hi'] at hT
      cases hT
    rw [hu.table i hi hi'] at hT
    obtain ⟨h', t', hA', hmem⟩ := hl.table i T hT
    have hne : h' ≠ h := by
      rintro rfl
      exact hi hmem
    exact ⟨h', t', by rw [Heap.get?_write_ne hne, hA'], by rw [hother hne]; exact hmem⟩
  · -- a table object of another table is neither the old one of `h` nor a new one
    have hkey {h' : HashTableId} {t' : Table κ α} (hA' : A.get? h' = some t') (hne : h' ≠ h)
        (hi : (layout h').1 = some i) : tbl' ≠ some i := by
      intro hi'
      by_cases hold : (layout h).1 = some i
      · exact hne (hl.separate h' h t' t i hA' hA hi hold)
      · obtain ⟨hnone, -⟩ | ⟨j, T, row, hj, hrep⟩ := (hl.holds h' t' hA').1.table
        · rw [hi] at hnone
          cases hnone
        · obtain rfl := Option.some.inj (hi.symm.trans hj)
          have hdead := hu.tableFresh i hi' hold
          rw [hrep.table] at hdead
          cases hdead
    obtain ⟨rfl, -⟩ | ⟨hne₁, hA₁'⟩ := Heap.get?_write_cases hA₁
    · obtain ⟨rfl, -⟩ | ⟨hne₂, hA₂'⟩ := Heap.get?_write_cases hA₂
      · rfl
      · rw [hself] at hi₁
        rw [hother hne₂] at hi₂
        exact absurd hi₁ (hkey hA₂' hne₂ hi₂)
    · obtain ⟨rfl, -⟩ | ⟨hne₂, hA₂'⟩ := Heap.get?_write_cases hA₂
      · rw [hself] at hi₂
        rw [hother hne₁] at hi₁
        exact absurd hi₂ (hkey hA₁' hne₁ hi₁)
      · rw [hother hne₁] at hi₁
        rw [hother hne₂] at hi₂
        exact hl.separate h₁ h₂ t₁ t₂ i hA₁' hA₂' hi₁ hi₂

theorem create (hl : Lays hash layout m A) :
    Lays hash (Function.update layout A.next (none, [])) (htCreate m).2 (A.alloc .empty) := by
  have hself : Function.update layout A.next (none, []) A.next = (none, []) := Function.update_self ..
  have hother {h' : HashTableId} {t' : Table κ α} (hA' : A.get? h' = some t') :
      Function.update layout A.next (none, []) h' = layout h' :=
    Function.update_of_ne (Heap.ne_next hA') ..
  have hhash {h' : HashTableId} (hne : h' ≠ A.next) :
      (htCreate m).2.hashTables.get? h' = m.hashTables.get? h' := by
    rw [← hl.next] at hne
    exact (Heap.get?_alloc).trans (if_neg hne)
  refine ⟨?_, fun h' t' hA' => ?_, fun h' hA' => ?_, fun a e he => ?_, fun i T hT => ?_,
    fun h₁ h₂ t₁ t₂ i hA₁ hA₂ hi₁ hi₂ => ?_⟩
  · simp only [htCreate, Heap.next_alloc, hl.next]
  · obtain ⟨rfl, rfl⟩ | ⟨hne, hA'⟩ := Heap.get?_alloc_cases hA'
    · rw [hself]
      refine ⟨⟨?_, .inl ⟨rfl, rfl⟩⟩, rfl⟩
      rw [← hl.next]
      exact Heap.get?_alloc_next
    · rw [hother hA']
      obtain ⟨hh, ht⟩ := hl.holds h' t' hA'
      refine ⟨⟨(hhash hne).trans hh.head, ?_⟩, ht⟩
      obtain hnone | ⟨i, T, row, hi, hrep⟩ := hh.table
      · exact .inl hnone
      · exact .inr ⟨i, T, row, hi, hrep.frame (fun _ _ => rfl) rfl⟩
  · rw [Heap.get?_alloc] at hA'
    split_ifs at hA' with hne
    rw [hhash hne]
    exact hl.dead h' hA'
  · obtain ⟨h', t', hA', hmem⟩ := hl.entry a e he
    exact ⟨h', t', Heap.get?_alloc_of_some hA', by rw [hother hA']; exact hmem⟩
  · obtain ⟨h', t', hA', hmem⟩ := hl.table i T hT
    exact ⟨h', t', Heap.get?_alloc_of_some hA', by rw [hother hA']; exact hmem⟩
  · obtain ⟨rfl, -⟩ | ⟨-, hA₁'⟩ := Heap.get?_alloc_cases hA₁
    · rw [hself] at hi₁
      cases hi₁
    · obtain ⟨rfl, -⟩ | ⟨-, hA₂'⟩ := Heap.get?_alloc_cases hA₂
      · rw [hself] at hi₂
        cases hi₂
      · rw [hother hA₁'] at hi₁
        rw [hother hA₂'] at hi₂
        exact hl.separate h₁ h₂ t₁ t₂ i hA₁' hA₂' hi₁ hi₂

theorem free (hl : Lays hash layout m A) (hA : A.get? h = some t)
    (hu : Update m m' h (layout h).1 none (ids (layout h).2) []) (hdead : m'.hashTables.get? h = none) :
    Lays hash layout m' (A.free h) := by
  refine ⟨hu.next.trans (hl.next.trans Heap.next_free.symm), fun h' t' hA' => ?_, fun h' hA' => ?_,
    fun a e he => ?_, fun i T hT => ?_, fun h₁ h₂ t₁ t₂ i hA₁ hA₂ => ?_⟩
  · obtain ⟨hne, hA'⟩ := Heap.of_get?_free hA'
    exact ⟨hl.others hA hu hA' hne, (hl.holds h' t' hA').2⟩
  · rw [Heap.get?_free] at hA'
    split_ifs at hA' with hne
    · rw [hne]
      exact hdead
    · rw [hu.hashTable h' hne]
      exact hl.dead h' hA'
  · by_cases ha : a ∈ ids (layout h).2
    · rw [hu.gone a ha List.not_mem_nil] at he
      cases he
    rw [hu.entry a ha List.not_mem_nil] at he
    obtain ⟨h', t', hA', hmem⟩ := hl.entry a e he
    have hne : h' ≠ h := by
      rintro rfl
      exact ha hmem
    exact ⟨h', t', by rw [Heap.get?_free, if_neg hne, hA'], hmem⟩
  · by_cases hi : (layout h).1 = some i
    · rw [hu.tableGone i hi nofun] at hT
      cases hT
    rw [hu.table i hi nofun] at hT
    obtain ⟨h', t', hA', hmem⟩ := hl.table i T hT
    have hne : h' ≠ h := by
      rintro rfl
      exact hi hmem
    exact ⟨h', t', by rw [Heap.get?_free, if_neg hne, hA'], hmem⟩
  · exact hl.separate h₁ h₂ t₁ t₂ i (Heap.of_get?_free hA₁).2 (Heap.of_get?_free hA₂).2

end Lays

section Calls

variable [DecidableEq κ] {A : Tables κ α} {t : Table κ α}

omit [DecidableEq κ] in
theorem keys_tableOf : (tableOf items).keys = items.map fun x => x.2.1 := by
  simp only [tableOf, Table.keys, List.map_map]
  rfl

omit [DecidableEq κ] in
theorem tableOf_append_one :
    tableOf (items ++ [(a, key, data)]) = (tableOf items).add key data := by
  simp only [tableOf, Table.add, List.map_append, List.map_cons, List.map_nil]

omit [DecidableEq κ] in
theorem foldl_calls (xs : Items κ α) (acc : List (κ × α)) :
    xs.foldl (fun l x => l ++ [(x.2.1, x.2.2)]) acc = acc ++ xs.map Prod.snd := by
  induction xs generalizing acc with
  | nil => simp
  | cons x xs ih => simp [ih]

theorem sat_htFind (hh : HtHolds hash m h tbl items) (key : κ) :
    Sat E (htFind hash m h key) (Found items key) := by
  simp only [htFind, HtMemory.readHashTable, hh.head, ok_bind]
  obtain ⟨-, rfl⟩ | ⟨t, T, row, -, hrep⟩ := hh.table
  · exact found_nil key
  · obtain ⟨head, hhead, hmem⟩ := hrep.exists_head
    rw [hhead]
    exact hrep.sat_hashFind hmem key

omit [DecidableEq κ] in
theorem notMem_keys_of_found (hf : Found items key none) : key ∉ (tableOf items).keys := by
  rw [keys_tableOf]
  intro hk
  obtain ⟨x, hx, hxk⟩ := List.mem_map.mp hk
  exact hf x hx hxk

omit [DecidableEq κ] in
theorem mem_keys_of_found (hf : Found items key (some a)) : key ∈ (tableOf items).keys := by
  obtain ⟨data, hx⟩ := hf
  rw [keys_tableOf]
  exact List.mem_map_of_mem hx

omit [DecidableEq κ] in
theorem HtHolds.htEntryCount_eq (hh : HtHolds hash m h tbl items) :
    ∃ n, htEntryCount m h = .ok n ∧ n.toUInt32.toNat = items.length := by
  simp only [htEntryCount, HtMemory.readHashTable, hh.head, ok_bind]
  obtain ⟨-, rfl⟩ | ⟨t, T, row, -, hrep⟩ := hh.table
  · exact ⟨0, rfl, rfl⟩
  · obtain ⟨head, hhead, hmem⟩ := hrep.exists_head
    refine ⟨T.numItems.toInt32, ?_, hrep.numItems⟩
    simp only [hhead, hashCount, hrep.tblOf hmem, HtMemory.readTable_eq hrep.table, ok_bind]

/-- The table exists, and an insertion does not make its number of entries start again at 0. -/
def HtLegal (m : HtMemory κ α) : HtOp κ α → Prop
  | .create => True
  | .add h _ _ | .addUnique h _ _ =>
    returnsWith (htEntryCount m h) (fun n => n.toUInt32.toNat < UINT_MAX) = true
  | .remove h _ | .has h _ | .get h _ | .forEach h | .count h | .free h =>
    (m.hashTables.get? h).isSome = true

omit [DecidableEq κ] in
theorem Lays.exists_table {layout : Layout κ α} (hl : Lays hash layout m A)
    (hlive : (m.hashTables.get? h).isSome = true) : ∃ t, A.get? h = some t := by
  rw [← Option.isSome_iff_exists]
  by_contra hnone
  rw [hl.dead h (by simpa using hnone)] at hlive
  cases hlive

omit [DecidableEq κ] in
theorem Lays.exists_room {layout : Layout κ α} (hl : Lays hash layout m A)
    (hc : returnsWith (htEntryCount m h) (fun n => n.toUInt32.toNat < UINT_MAX) = true) :
    ∃ t, A.get? h = some t ∧ (layout h).2.length < UINT_MAX := by
  obtain ⟨n, hn, hlt⟩ := returnsWith_iff.mp hc
  have hlive : (m.hashTables.get? h).isSome = true := by
    cases hget : m.hashTables.get? h with
    | none =>
      simp only [htEntryCount, HtMemory.readHashTable, hget] at hn
      cases hn
    | some head => rfl
  obtain ⟨t, ht⟩ := hl.exists_table hlive
  obtain ⟨n', hn', hlen⟩ := (hl.holds h t ht).1.htEntryCount_eq
  obtain rfl := Except.ok.inj (hn.symm.trans hn')
  exact ⟨t, ht, hlen ▸ of_decide_eq_true hlt⟩

omit [DecidableEq κ] in
theorem Lays.sat_htInsert {layout : Layout κ α} (hl : Lays hash layout m A) (ht : A.get? h = some t)
    (hlen : (layout h).2.length < UINT_MAX) (key : κ) (data : α) :
    Sat (Excused malloc) (htInsert malloc hash m h key data) fun m' =>
      HoldsTables hash m' (A.write h (t.add key data)) := by
  obtain ⟨hh, rfl⟩ := hl.holds h t ht
  refine (Cutil.sat_htInsert hh hlen).mono fun m' ⟨tbl', hh', hu⟩ => ?_
  rw [← tableOf_append_one]
  refine ⟨_, hl.set ht ?_ hh'⟩
  rw [ids_append]
  exact hu

theorem sat_htExec {op : HtOp κ α} (hm : HoldsTables hash m A) (hop : HtLegal m op) :
    Sat (Excused malloc) (htExec malloc hash m op) fun r =>
      ∃ A', HtStep A op r.1 A' ∧ HoldsTables hash r.2 A' := by
  obtain ⟨layout, hl⟩ := hm
  cases op with
  | create =>
    have hreply : (htCreate m).1 = A.next := hl.next
    exact ⟨_, by rw [hreply]; exact .create, _, hl.create⟩
  | add h key data =>
    obtain ⟨t, ht, hlen⟩ := hl.exists_room hop
    simp only [htExec, htAddEntry, sat_map, sat_bind]
    exact (hl.sat_htInsert ht hlen key data).mono fun m' hm' => ⟨_, .add key data ht, hm'⟩
  | addUnique h key data =>
    obtain ⟨t, ht, hlen⟩ := hl.exists_room hop
    obtain ⟨hh, htab⟩ := hl.holds h t ht
    simp only [htExec, htAddUniqueEntry, sat_map]
    refine (sat_htFind hh key).bind fun r hr => ?_
    cases r with
    | none =>
      have hkey := htab ▸ notMem_keys_of_found hr
      exact (hl.sat_htInsert ht hlen key data).bind fun m' hm' => ⟨_, .addNew data ht hkey, hm'⟩
    | some a => exact ⟨_, .addOld data ht (htab ▸ mem_keys_of_found hr), layout, hl⟩
  | remove h key =>
    obtain ⟨t, ht⟩ := hl.exists_table hop
    obtain ⟨hh, htab⟩ := hl.holds h t ht
    simp only [htExec, htRemoveEntry, sat_map]
    refine (sat_htFind hh key).bind fun r hr => ?_
    cases r with
    | none => exact ⟨_, .removeNone ht (htab ▸ notMem_keys_of_found hr), layout, hl⟩
    | some a =>
      obtain ⟨data, hx⟩ := hr
      obtain ⟨xs, ys, hxy⟩ := List.append_of_mem hx
      have hh' := hh
      rw [hxy] at hh'
      refine (sat_htDelete hh').bind fun m' ⟨tbl', hrest, hu⟩ => ?_
      rw [← hxy] at hu
      have hold : t.entries = xs.map Prod.snd ++ (key, data) :: ys.map Prod.snd := by
        rw [← htab, hxy, tableOf, List.map_append, List.map_cons]
      have hnew : tableOf (xs ++ ys) = ⟨xs.map Prod.snd ++ ys.map Prod.snd⟩ := by
        rw [tableOf, List.map_append]
      have hset := hl.set ht hu hrest
      rw [hnew] at hset
      exact ⟨_, .remove ht hold, _, hset⟩
  | has h key =>
    obtain ⟨t, ht⟩ := hl.exists_table hop
    obtain ⟨hh, htab⟩ := hl.holds h t ht
    simp only [htExec, htHasEntry, sat_map]
    refine (sat_htFind hh key).bind fun r hr => ?_
    have hreply : r.isSome = decide (key ∈ t.keys) := by
      cases r with
      | none => simpa using htab ▸ notMem_keys_of_found hr
      | some a => simpa using htab ▸ mem_keys_of_found hr
    exact ⟨A, by rw [hreply]; exact .has key ht, layout, hl⟩
  | get h key =>
    obtain ⟨t, ht⟩ := hl.exists_table hop
    obtain ⟨hh, htab⟩ := hl.holds h t ht
    simp only [htExec, htGetEntry, sat_map]
    refine (sat_htFind hh key).bind fun r hr => ?_
    cases r with
    | none => exact ⟨A, .getNone ht (htab ▸ notMem_keys_of_found hr), layout, hl⟩
    | some a =>
      obtain ⟨data, hx⟩ := hr
      obtain ⟨e, -, hre, -, -, -, hdata, -⟩ := HtMemory.exists_entry (hh.content hx)
      simp only [hre, ok_bind, hdata]
      exact ⟨A, .get ht (htab ▸ List.mem_map_of_mem hx), layout, hl⟩
  | forEach h =>
    obtain ⟨t, ht⟩ := hl.exists_table hop
    obtain ⟨hh, htab⟩ := hl.holds h t ht
    simp only [htExec, sat_map]
    refine (hh.sat_htForEach _ _).mono fun r hr => ?_
    have hreply : r = t.entries := by
      rw [hr, foldl_calls, List.nil_append, ← htab]
      rfl
    exact ⟨A, by rw [hreply]; exact .forEach ht, layout, hl⟩
  | count h =>
    obtain ⟨t, ht⟩ := hl.exists_table hop
    obtain ⟨hh, htab⟩ := hl.holds h t ht
    obtain ⟨n, hn, hlen⟩ := hh.htEntryCount_eq
    simp only [htExec, sat_map, hn]
    refine ⟨A, .count ht ?_, layout, hl⟩
    rw [hlen, ← htab]
    exact (List.length_map _).symm
  | free h =>
    obtain ⟨t, ht⟩ := hl.exists_table hop
    obtain ⟨hh, -⟩ := hl.holds h t ht
    simp only [htExec, sat_map]
    exact hh.sat_htFree.mono fun m' ⟨hdead, hu⟩ => ⟨_, .free ht, layout, hl.free ht hu hdead⟩

end Calls

end TagFilesystem.Cutil
