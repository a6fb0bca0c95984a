import TagFilesystem.Cutil.Represents

namespace TagFilesystem.Cutil

variable {κ α : Type} {E : HtFault → Prop} {hash : κ → UInt32} {m m' m'' : HtMemory κ α}
  {T T' T'' : UtHashTable} {row ys : List EntryId} {a head : EntryId} {malloc : Malloc}
  {t : UtTableId} {key : κ} {data : α} {items : Items κ α}

theorem Rebuckets.trans (h : Rebuckets m m' t T' row) (h' : Rebuckets m' m'' t T'' row) :
    Rebuckets m m'' t T'' row := by
  refine ⟨h'.app.trans h.app, h'.content.trans h.content, ?_, h'.hashTables.trans h.hashTables,
    h'.next.trans h.next, fun a ha => (h'.frame a ha).trans (h.frame a ha)⟩
  rw [h'.tables, h.tables, Heap.write_write]

theorem sat_hashAddToBkt (hT : m.tables.get? t = some T) (hd : Distributes m T row) (hn : row.Nodup)
    (hlive : ∀ c ∈ row, (m.content c).isSome = true) (ha : a ∉ row)
    (hc : m.content a = some ⟨key, data, some t, hash key⟩) (hitems : T.numItems.toNat ≠ 0)
    (hrow : row.length < UINT_MAX) :
    Sat (Excused malloc) (hashAddToBkt malloc m t (hashToBkt (hash key) T.numBuckets) a)
      fun m' => ∃ T' row', Rebuckets m m' t T' (a :: row) ∧ T'.numItems = T.numItems ∧
        T'.tail = T.tail ∧ row'.Perm (a :: row) ∧ Distributes m' T' row' := by
  have hhash : (⟨key, data, some t, hash key⟩ : HtContent κ α).hashv = hash key := rfl
  obtain ⟨b, hslot, hb, hread⟩ := hd.bucket hc hhash
  simp only [hashAddToBkt, HtMemory.readTable_eq hT, ok_bind, hread, hslot]
  refine (HtMemory.sat_setHh (p := none) (n := b.hhHead) (fun e => rfl) (HtMemory.live hc)).bind
    fun m₁ h₁ => ?_
  refine (HtMemory.sat_setHhPrev? (x := some a) fun c hcb => ?_).bind fun m₂ h₂ => ?_
  · rw [h₁.content]
    exact hlive c (hd.buckets.head_mem hb hcb).1
  have hsame := h₁.trans h₂
  have hbkt : m₂.bkt = (m.bkt.change a fun _ => ⟨none, b.hhHead⟩).setPrev? b.hhHead (some a) := by
    rw [h₂.bkt, h₁.bkt]
  obtain ⟨e, -, -, -, hva, -⟩ := HtMemory.exists_entry hc
  -- the table with the new first entry of the bucket
  generalize hT₁ : T.setBucket (slotOf m T.numBuckets.toNat a) ⟨some a, b.count + 1, b.expandMult⟩ = T₁
  have hrebuckets : Rebuckets m (m₂.writeTable t T₁) t T₁ (a :: row) := by
    refine ⟨hsame.app.trans h₁.app, hsame.content, ?_, hsame.hashTables, hsame.next, fun c hcr => ?_⟩
    · simp only [HtMemory.writeTable, hsame.tables]
    · rw [List.mem_cons, not_or] at hcr
      refine (congrFun hbkt c).trans ?_
      rw [Links.setPrev?_ne fun e => hcr.2 (hd.buckets.head_mem hb e).1, Links.change_ne hcr.1]
  have hd₁ : Distributes (m₂.writeTable t T₁) T₁ (a :: row) := by
    subst hT₁
    refine ⟨hd.log2, hd.numBuckets, ?_, ?_⟩
    · exact (List.length_set ..).trans hd.length
    · have hpush := hd.buckets.push hn ha hrow hb (by rw [hva]; rfl) b.expandMult
      rw [← hbkt, ← slotOf_congr hsame.content] at hpush
      rw [← slotOf_congr hsame.content]
      exact hpush
  have hitems₁ : T₁.numItems = T.numItems ∧ T₁.tail = T.tail := by
    subst hT₁
    exact ⟨rfl, rfl⟩
  split_ifs
  · have hT₁' : (m₂.writeTable t T₁).tables.get? t = some T₁ := by
      rw [hrebuckets.tables]
      exact Heap.get?_write_self hT
    refine (sat_hashExpandBuckets hT₁' hd₁ (List.nodup_cons.mpr ⟨ha, hn⟩) (fun c hcr => ?_) ?_ ?_).mono ?_
    · rw [hrebuckets.content]
      rcases List.mem_cons.mp hcr with rfl | hcr
      · exact HtMemory.live hc
      · exact hlive c hcr
    · rw [hitems₁.1]
      exact hitems
    · exact hrow
    · rintro m' ⟨T', row', hr, hnum, htail, hperm, hd'⟩
      exact ⟨T', row', hrebuckets.trans hr, hnum.trans hitems₁.1, htail.trans hitems₁.2, hperm, hd'⟩
  · exact ⟨T₁, a :: row, hrebuckets, hitems₁.1, hitems₁.2, List.Perm.refl _, hd₁⟩

theorem sat_addToBkt_represents (hT : m.tables.get? t = some T) (hd : Distributes m T row)
    (hperm : row.Perm (ids items)) (hlinks : m.app.Seg none (ids items ++ [a]) none)
    (hnodup : (ids items ++ [a]).Nodup) (htail : T.tail = a) (hnum : T.numItems.toNat = items.length + 1)
    (hcontent : ∀ x ∈ items ++ [(a, key, data)], m.content x.1 = some ⟨x.2.1, x.2.2, some t, hash x.2.1⟩)
    (hlen : items.length < UINT_MAX) :
    Sat (Excused malloc) (hashAddToBkt malloc m t (hashToBkt (hash key) T.numBuckets) a)
      fun m' => ∃ T' row', Rebuckets m m' t T' (a :: row) ∧
        Represents hash m' t T' (items ++ [(a, key, data)]) row' := by
  have hnew : m.content a = some ⟨key, data, some t, hash key⟩ :=
    hcontent (a, key, data) (List.mem_append_right _ (List.mem_singleton_self _))
  have hanot : a ∉ row := fun hm =>
    (List.nodup_append.mp hnodup).2.2 a (hperm.subset hm) a (List.mem_singleton_self a) rfl
  have hlive (c : EntryId) (hc : c ∈ row) : (m.content c).isSome = true := by
    obtain ⟨x, hx, rfl⟩ := List.mem_map.mp (hperm.subset hc)
    exact HtMemory.live (hcontent x (List.mem_append_left _ hx))
  refine (sat_hashAddToBkt hT hd (hperm.nodup_iff.mpr (List.nodup_append.mp hnodup).1) hlive hanot hnew
    (by omega) (by rw [hperm.length_eq, length_ids]; exact hlen)).mono
    fun m' ⟨T', row', hr, hnum', htail', hperm', hd'⟩ => ?_
  refine ⟨T', row', hr, ?_, ?_, ?_, ?_, ?_, fun x hx => ?_, ?_, hd'⟩
  · rw [hr.tables]
    exact Heap.get?_write_self hT
  · rw [hr.app, ids_append]
    exact hlinks
  · rw [ids_append]
    exact hnodup
  · rw [ids_append, htail', htail]
    exact List.getLast?_concat
  · rw [hnum', hnum, List.length_append, List.length_singleton]
  · rw [hr.content]
    exact hcontent x hx
  · rw [ids_append]
    exact hperm'.trans ((hperm.cons a).trans (List.perm_append_singleton a _).symm)

theorem Distributes.frame (h : Distributes m T row) (hbkt : ∀ a ∈ row, m'.bkt a = m.bkt a)
    (hcontent : ∀ a ∈ row, m'.content a = m.content a) : Distributes m' T row := by
  have hchain (n i : ℕ) : chainAt (slotOf m' n) row i = chainAt (slotOf m n) row i := by
    apply List.filter_congr
    intro a ha
    have hslot : slotOf m' n a = slotOf m n a := by simp only [slotOf, hcontent a ha]
    rw [hslot]
  refine ⟨h.log2, h.numBuckets, h.length, fun i b hb => ?_⟩
  rw [hchain]
  obtain ⟨hhead, hcount, hseg⟩ := h.buckets i b hb
  exact ⟨hhead, hcount, hseg.frame fun a ha => hbkt a (mem_chainAt.mp ha).1⟩

/-- From `m` to `m'` the entries `l` of the table `h` become `l'`, and its table object `tbl`
becomes `tbl'`. The rest of the memory stays as it is. -/
structure Update (m m' : HtMemory κ α) (h : HashTableId) (tbl tbl' : Option UtTableId)
    (l l' : List EntryId) : Prop where
  entry : ∀ a ∉ l, a ∉ l' → m'.entries.get? a = m.entries.get? a
  gone : ∀ a ∈ l, a ∉ l' → m'.entries.get? a = none
  fresh : ∀ a ∈ l', a ∉ l → m.entries.get? a = none
  table : ∀ t, tbl ≠ some t → tbl' ≠ some t → m'.tables.get? t = m.tables.get? t
  tableGone : ∀ t, tbl = some t → tbl' ≠ some t → m'.tables.get? t = none
  tableFresh : ∀ t, tbl' = some t → tbl ≠ some t → m.tables.get? t = none
  hashTable : ∀ h', h' ≠ h → m'.hashTables.get? h' = m.hashTables.get? h'
  next : m'.hashTables.next = m.hashTables.next

/-- The table `h` holds `items`; an empty table has no table object. -/
structure HtHolds (hash : κ → UInt32) (m : HtMemory κ α) (h : HashTableId) (tbl : Option UtTableId)
    (items : Items κ α) : Prop where
  head : m.hashTables.get? h = some (ids items).head?
  table : tbl = none ∧ items = [] ∨ ∃ t T row, tbl = some t ∧ Represents hash m t T items row

theorem newEntry_app (j : EntryId) : (m.newEntry key data).2.app j =
    if j = m.entries.next then some ⟨none, none⟩ else m.app j :=
  congrFun (Heap.view_alloc _ _) j

theorem newEntry_bkt {j : EntryId} (hj : j ≠ m.entries.next) :
    (m.newEntry key data).2.bkt j = m.bkt j := Heap.view_alloc_ne hj

theorem newEntry_content (j : EntryId) : (m.newEntry key data).2.content j =
    if j = m.entries.next then some ⟨key, data, none, 0⟩ else m.content j :=
  congrFun (Heap.view_alloc _ _) j

theorem modifyEntry_newEntry : (m.newEntry key data).2.modifyEntry m.entries.next
    (fun e => { e with next := none, key := key }) = .ok (m.newEntry key data).2 := by
  have hget : (m.newEntry key data).2.entries.get? m.entries.next =
    some ⟨key, data, none, none, none, none, none, 0⟩ := Heap.get?_alloc_next
  simp only [HtMemory.modifyEntry, HtMemory.readEntry_eq hget, ok_bind]
  simp only [HtMemory.newEntry, Heap.write_alloc]

namespace Represents

theorem lt_next (h : Represents hash m t T items row) (ha : a ∈ ids items) : a < m.entries.next := by
  obtain ⟨c, hc⟩ := Option.isSome_iff_exists.mp (h.live ha)
  obtain ⟨e, he, -⟩ := Heap.of_view hc
  exact Heap.lt_next he

theorem frame (h : Represents hash m t T items row)
    (hentry : ∀ a ∈ ids items, m'.entries.get? a = m.entries.get? a)
    (htable : m'.tables.get? t = m.tables.get? t) : Represents hash m' t T items row := by
  have hview {β : Type} (g : HtEntry κ α → β) {a : EntryId} (ha : a ∈ ids items) :
      m'.entries.view g a = m.entries.view g a := by
    simp only [Heap.view, hentry a ha]
  refine ⟨htable.trans h.table, h.links.frame fun a ha => hview _ ha, h.nodup, h.tail, h.numItems,
    fun x hx => (hview _ (List.mem_map_of_mem hx)).trans (h.content x hx), h.perm, ?_⟩
  exact h.distributes.frame (fun a ha => hview _ (h.perm.subset ha)) fun a ha =>
    hview _ (h.perm.subset ha)

end Represents

theorem sat_hashAppend_some (h : Represents hash m t T items row) (hhead : head ∈ ids items) :
    Sat E (hashAppend malloc (m.newEntry key data).2 (some head) m.entries.next) fun r =>
      r.1 = head ∧ r.2.app.Seg none (ids items ++ [m.entries.next]) none ∧
      r.2.bkt = (m.newEntry key data).2.bkt ∧ r.2.content = (m.newEntry key data).2.content ∧
      r.2.tables = m.tables.write t { T with tail := m.entries.next } ∧
      r.2.hashTables = m.hashTables ∧
      ∀ a ∉ ids items, a ≠ m.entries.next → r.2.app a = m.app a := by
  have htail : T.tail ∈ ids items := List.mem_of_getLast? h.tail
  have hne {a : EntryId} (ha : a ∈ ids items) : a ≠ m.entries.next := Nat.ne_of_lt (h.lt_next ha)
  have hnot : m.entries.next ∉ ids items := fun hm => hne hm rfl
  have h₁ : Represents hash (m.newEntry key data).2 t T items row :=
    h.frame (fun a ha => (Heap.get?_alloc).trans (if_neg (hne ha))) rfl
  have hnew : ((m.newEntry key data).2.content m.entries.next).isSome = true := by
    rw [newEntry_content, if_pos rfl]
    rfl
  simp only [hashAppend, h₁.tblOf hhead, HtMemory.readTable_eq h₁.table, ok_bind]
  refine (HtMemory.sat_setNext (x := some m.entries.next) (h₁.live htail)).bind fun m₂ h₂ => ?_
  refine (HtMemory.sat_setPrev (x := some T.tail) (by rw [h₂.content]; exact hnew)).bind fun m₃ h₃ => ?_
  have hsame := h₂.trans h₃
  have happ : m₃.app = (((m.newEntry key data).2.app).setPrev m.entries.next (some T.tail)).setNext
      T.tail (some m.entries.next) := by
    rw [h₃.app, h₂.app, Links.setPrev_setNext]
  have hself : (m.newEntry key data).2.app m.entries.next = some ⟨none, none⟩ := by
    rw [newEntry_app, if_pos rfl]
  refine ⟨rfl, ?_, hsame.bkt.trans h₂.bkt, hsame.content, ?_, hsame.hashTables, fun a ha hane => ?_⟩
  · have hseg : (((m.newEntry key data).2.app).setPrev m.entries.next (some T.tail)).Seg none
        (ids items) none := h₁.links.frame fun a ha => Links.setPrev_ne (hne ha)
    have hlast := hseg.append_one h.nodup hnot (by rw [h.tail, Links.setPrev_self hself])
    rw [h.tail] at hlast
    exact happ ▸ hlast
  · simp only [HtMemory.writeTable, hsame.tables]
    rfl
  · refine (congrFun happ a).trans ?_
    have hat : a ≠ T.tail := fun e => ha (e ▸ htail)
    rw [Links.setNext_ne hat, Links.setPrev_ne hane, newEntry_app, if_neg hane]

/-- The entry `a` is the last one in the order of insertion, and is put into its bucket. -/
theorem sat_hashCountIn {c : HtContent κ α} (htbl : m.tblOf head = .ok t)
    (hT : m.tables.get? t = some T) (hd : Distributes m T row) (hperm : row.Perm (ids items))
    (hlinks : m.app.Seg none (ids items ++ [a]) none) (hnodup : (ids items ++ [a]).Nodup)
    (htail : T.tail = a) (hnum : T.numItems.toNat = items.length)
    (hcontent : ∀ x ∈ items, m.content x.1 = some ⟨x.2.1, x.2.2, some t, hash x.2.1⟩)
    (hc : m.content a = some c) (hkey : c.key = key) (hdata : c.data = data)
    (hlen : items.length < UINT_MAX) :
    Sat (Excused malloc) (hashCountIn malloc hash m head key a) fun m' =>
      (∃ T' row', Represents hash m' t T' (items ++ [(a, key, data)]) row') ∧ m'.app = m.app ∧
      m'.hashTables = m.hashTables ∧ (∀ b ∉ ids items, b ≠ a → m'.bkt b = m.bkt b) ∧
      (∀ b, b ≠ a → m'.content b = m.content b) ∧
      ∀ t', t' ≠ t → m'.tables.get? t' = m.tables.get? t' := by
  have hnot : a ∉ ids items := fun hm =>
    (List.nodup_append.mp hnodup).2.2 a hm a (List.mem_singleton_self a) rfl
  have hne {b : EntryId} (hb : b ∈ ids items) : b ≠ a := fun e => hnot (e ▸ hb)
  simp only [hashCountIn, htbl, HtMemory.readTable_eq hT, ok_bind]
  generalize hT₁ : { T with numItems := T.numItems + 1 } = T₁
  have hc₁ : (m.writeTable t T₁).content a = some c := hc
  refine (HtMemory.sat_setContent (t := some t) (fun e => rfl) hc₁).bind fun m₁ h₁ => ?_
  obtain ⟨happ, hbkt, hself, hother, htables, hhash, -⟩ := h₁
  have hT₁' : m₁.tables.get? t = some T₁ := by
    rw [htables]
    exact Heap.get?_write_self hT
  have hcontent₁ (x : EntryId × κ × α) (hx : x ∈ items ++ [(a, key, data)]) :
      m₁.content x.1 = some ⟨x.2.1, x.2.2, some t, hash x.2.1⟩ := by
    rcases List.mem_append.mp hx with hx | hx
    · exact (hother _ (hne (List.mem_map_of_mem hx))).trans (hcontent x hx)
    · rw [List.mem_singleton.mp hx, ← hkey, ← hdata]
      rw [← hkey] at hself
      exact hself
  have hd₁ : Distributes m₁ T₁ row := by
    have hd' : Distributes m₁ T row := hd.frame (fun b _ => congrFun hbkt b)
      fun b hb => hother b (hne (hperm.subset hb))
    subst hT₁
    exact ⟨hd'.log2, hd'.numBuckets, hd'.length, hd'.buckets⟩
  have hT₁eq : T₁.numItems.toNat = items.length + 1 ∧ T₁.tail = a ∧ T₁.numBuckets = T.numBuckets := by
    subst hT₁
    refine ⟨?_, htail, rfl⟩
    simp only [UInt32.toNat_add, hnum, UInt32.toNat_one]
    exact Nat.mod_eq_of_lt (by unfold UINT_MAX at hlen; omega)
  rw [← hT₁eq.2.2]
  refine (sat_addToBkt_represents hT₁' hd₁ hperm (happ ▸ hlinks) hnodup hT₁eq.2.1 hT₁eq.1 hcontent₁
    hlen).mono fun m' ⟨T', row', hr, hrep⟩ => ?_
  refine ⟨⟨T', row', hrep⟩, hr.app.trans happ, hr.hashTables.trans hhash, fun b hb hba => ?_,
    fun b hba => ?_, fun t' ht' => ?_⟩
  · refine (hr.frame b ?_).trans (congrFun hbkt b)
    rw [List.mem_cons, not_or]
    exact ⟨hba, fun hm => hb (hperm.subset hm)⟩
  · rw [hr.content]
    exact hother b hba
  · rw [hr.tables, Heap.get?_write_ne ht', htables]
    exact Heap.get?_write_ne ht'

theorem sat_hashAddKeyptr_some (h : Represents hash m t T items row) (hhead : head ∈ ids items)
    (hlen : items.length < UINT_MAX) :
    Sat (Excused malloc) (hashAddKeyptr malloc hash (m.newEntry key data).2 (some head) key m.entries.next)
      fun r => r.1 = head ∧ r.2.hashTables = m.hashTables ∧ (∃ T' row',
        Represents hash r.2 t T' (items ++ [(m.entries.next, key, data)]) row') ∧
        (∀ a ∉ ids items, a ≠ m.entries.next → r.2.entries.get? a = m.entries.get? a) ∧
        ∀ t', t' ≠ t → r.2.tables.get? t' = m.tables.get? t' := by
  have hne {a : EntryId} (ha : a ∈ ids items) : a ≠ m.entries.next := Nat.ne_of_lt (h.lt_next ha)
  simp only [hashAddKeyptr, modifyEntry_newEntry, ok_bind]
  refine (sat_hashAppend_some h hhead).bind fun r₂ hr₂ => ?_
  obtain ⟨hr, hlinks, hbkt, hcontent, htables, hhash, happ⟩ := hr₂
  obtain ⟨head₂, m₂⟩ := r₂
  subst hr
  dsimp only at hlinks hbkt hcontent htables hhash happ ⊢
  have hold {a : EntryId} (ha : a ≠ m.entries.next) : m₂.content a = m.content a := by
    rw [hcontent, newEntry_content, if_neg ha]
  have htbl : m₂.tblOf head₂ = .ok t := by
    obtain ⟨x, hx, rfl⟩ := List.mem_map.mp hhead
    exact HtMemory.tblOf_eq ((hold (hne hhead)).trans (h.content x hx)) rfl
  have hT₂ : m₂.tables.get? t = some { T with tail := m.entries.next } := by
    rw [htables]
    exact Heap.get?_write_self h.table
  have hnew : m₂.content m.entries.next = some ⟨key, data, none, 0⟩ := by
    rw [hcontent, newEntry_content, if_pos rfl]
  have hd₂ : Distributes m₂ { T with tail := m.entries.next } row := by
    have hd : Distributes m₂ T row := h.distributes.frame
      (fun a ha => (congrFun hbkt a).trans (newEntry_bkt (hne (h.perm.subset ha))))
      fun a ha => hold (hne (h.perm.subset ha))
    exact ⟨hd.log2, hd.numBuckets, hd.length, hd.buckets⟩
  have hnodup : (ids items ++ [m.entries.next]).Nodup :=
    List.nodup_append.mpr ⟨h.nodup, List.nodup_singleton _, fun a ha b hb hab =>
      hne ha (hab.trans (List.mem_singleton.mp hb))⟩
  refine (sat_hashCountIn htbl hT₂ hd₂ h.perm hlinks hnodup rfl h.numItems
    (fun x hx => (hold (hne (List.mem_map_of_mem hx))).trans (h.content x hx)) hnew rfl rfl hlen).bind
    fun m₃ h₃ => ?_
  obtain ⟨hrep, happ₃, hhash₃, hbkt₃, hcontent₃, htables₃⟩ := h₃
  refine ⟨rfl, hhash₃.trans hhash, hrep, fun a ha hane => ?_, fun t' ht' => ?_⟩
  · apply HtMemory.get?_of_views
    · rw [happ₃]
      exact happ a ha hane
    · rw [hbkt₃ a ha hane]
      exact (congrFun hbkt a).trans (newEntry_bkt hane)
    · rw [hcontent₃ a hane]
      exact hold hane
  · rw [htables₃ t' ht', htables, Heap.get?_write_ne ht']

theorem sat_hashAppend_none : Sat (Excused malloc)
    (hashAppend malloc (m.newEntry key data).2 none m.entries.next) fun r =>
      r.1 = m.entries.next ∧ r.2.app = (m.newEntry key data).2.app ∧
      r.2.bkt = (m.newEntry key data).2.bkt ∧
      r.2.content m.entries.next = some ⟨key, data, some m.tables.next, 0⟩ ∧
      (∀ a, a ≠ m.entries.next → r.2.content a = m.content a) ∧ r.2.hashTables = m.hashTables ∧
      ∃ T, r.2.tables = m.tables.alloc T ∧ T.numItems = 0 ∧ T.tail = m.entries.next ∧
        Distributes r.2 T [] := by
  have hget (e : HtEntry κ α) : (m.entries.alloc e).get? m.entries.next = some e :=
    Heap.get?_alloc_next
  simp only [hashAppend, hashMakeTable, HtMemory.modifyEntry, HtMemory.readEntry, HtMemory.newEntry,
    hget, ok_bind, Heap.write_alloc]
  simp only [sat_bind]
  refine (sat_uthashMalloc _).mono fun _ _ => (sat_uthashMalloc _).mono fun _ _ => ?_
  refine ⟨rfl, ?_, ?_, ?_, fun a ha => ?_, rfl, _, rfl, rfl, rfl, ?_⟩
  · funext j
    simp only [HtMemory.app, Heap.view_alloc]
  · funext j
    simp only [HtMemory.bkt, Heap.view_alloc]
  · exact Heap.view_eq_some _ (hget _)
  · exact Heap.view_alloc_ne ha
  · have hlog : HASH_INITIAL_NUM_BUCKETS_LOG2.toNat < 32 := by decide
    exact ⟨hlog, rfl, rfl, buckets_nil _⟩

theorem sat_hashAddKeyptr_none :
    Sat (Excused malloc) (hashAddKeyptr malloc hash (m.newEntry key data).2 none key m.entries.next)
      fun r => r.1 = m.entries.next ∧ r.2.hashTables = m.hashTables ∧ (∃ T' row',
        Represents hash r.2 m.tables.next T' [(m.entries.next, key, data)] row') ∧
        (∀ a, a ≠ m.entries.next → r.2.entries.get? a = m.entries.get? a) ∧
        ∀ t', t' ≠ m.tables.next → r.2.tables.get? t' = m.tables.get? t' := by
  simp only [hashAddKeyptr, modifyEntry_newEntry, ok_bind]
  refine sat_hashAppend_none.bind fun r₂ hr₂ => ?_
  obtain ⟨hr, happ, hbkt, hself, hcontent, hhash, T, htables, hnum, htail, hd⟩ := hr₂
  obtain ⟨head₂, m₂⟩ := r₂
  subst hr
  dsimp only at happ hbkt hself hcontent hhash htables hd ⊢
  have hT₂ : m₂.tables.get? m.tables.next = some T := by
    rw [htables]
    exact Heap.get?_alloc_next
  have hseg : m₂.app.Seg none (ids ([] : Items κ α) ++ [m.entries.next]) none := by
    refine ⟨?_, trivial⟩
    rw [happ, newEntry_app, if_pos rfl]
    rfl
  have hlen : ([] : Items κ α).length < UINT_MAX := by
    rw [List.length_nil]
    decide
  refine (sat_hashCountIn (HtMemory.tblOf_eq hself rfl) hT₂ hd (List.Perm.refl _) hseg
    (List.nodup_singleton _) htail (by rw [hnum]; rfl) (by rintro x ⟨⟩) hself rfl rfl hlen).bind
    fun m₃ h₃ => ?_
  obtain ⟨hrep, happ₃, hhash₃, hbkt₃, hcontent₃, htables₃⟩ := h₃
  refine ⟨rfl, hhash₃.trans hhash, hrep, fun a hane => ?_, fun t' ht' => ?_⟩
  · apply HtMemory.get?_of_views
    · rw [happ₃, happ, newEntry_app, if_neg hane]
    · rw [hbkt₃ a List.not_mem_nil hane, hbkt, newEntry_bkt hane]
    · rw [hcontent₃ a hane, hcontent a hane]
  · rw [htables₃ t' ht', htables, Heap.get?_alloc, if_neg ht']

theorem sat_htInsert {h : HashTableId} {tbl : Option UtTableId} (hh : HtHolds hash m h tbl items)
    (hlen : items.length < UINT_MAX) :
    Sat (Excused malloc) (htInsert malloc hash m h key data) fun m' => ∃ tbl',
      HtHolds hash m' h tbl' (items ++ [(m.entries.next, key, data)]) ∧
      Update m m' h tbl tbl' (ids items) (ids items ++ [m.entries.next]) := by
  have hhead : (m.newEntry key data).2.readHashTable h = .ok (ids items).head? := by
    have hget : (m.newEntry key data).2.hashTables.get? h = some (ids items).head? := hh.head
    simp only [HtMemory.readHashTable, hget]
  have hentry : (m.newEntry key data).1 = m.entries.next := rfl
  -- the table object is the old one or a new one
  have hadd : Sat (Excused malloc) (hashAddKeyptr malloc hash (m.newEntry key data).2
      (ids items).head? key m.entries.next) fun r => some r.1 = (ids items ++ [m.entries.next]).head? ∧
      r.2.hashTables = m.hashTables ∧ ∃ t, (tbl = some t ∨ tbl = none ∧ t = m.tables.next) ∧
      (∃ T' row', Represents hash r.2 t T' (items ++ [(m.entries.next, key, data)]) row') ∧
      (∀ a ∉ ids items, a ≠ m.entries.next → r.2.entries.get? a = m.entries.get? a) ∧
      ∀ t', t' ≠ t → r.2.tables.get? t' = m.tables.get? t' := by
    obtain ⟨rfl, rfl⟩ | ⟨t, T, row, rfl, hrep⟩ := hh.table
    · refine sat_hashAddKeyptr_none.mono fun r ⟨hr, hhash, hrep', hentries, htables⟩ => ?_
      exact ⟨congrArg some hr, hhash, _, .inr ⟨rfl, rfl⟩, hrep', fun a _ => hentries a, htables⟩
    · obtain ⟨head, hhd, hmem⟩ := hrep.exists_head
      rw [hhd]
      refine (sat_hashAddKeyptr_some hrep hmem hlen).mono
        fun r ⟨hr, hhash, hrep', hentries, htables⟩ => ?_
      refine ⟨?_, hhash, t, .inl rfl, hrep', hentries, htables⟩
      rw [hr, List.head?_append, hhd, Option.some_or]
  simp only [htInsert, hentry, hhead, ok_bind]
  refine hadd.bind fun r ⟨hr, hhash, t, ht, ⟨T', row', hrep⟩, hentries, htables⟩ => ?_
  have hget : m.hashTables.get? h = some (ids items).head? := hh.head
  have hdead : m.entries.get? m.entries.next = none := Heap.get?_eq_none (Nat.le_refl _)
  refine ⟨some t, ⟨?_, .inr ⟨t, T', row', rfl, hrep.frame (fun _ _ => rfl) rfl⟩⟩, fun a ha ha' => ?_,
    fun a ha ha' => ?_, fun a ha ha' => ?_, fun t' _ ht' => ?_, fun t' ht' htt => ?_,
    fun t' ht' htt => ?_, fun h' hne => ?_, ?_⟩
  · simp only [HtMemory.writeHashTable, hhash, hr, ids_append, ids_cons, ids_nil]
    exact Heap.get?_write_self hget
  · exact hentries a ha fun e => ha' (e ▸ List.mem_append_right _ (List.mem_singleton_self _))
  · exact absurd (List.mem_append_left _ ha) ha'
  · rcases List.mem_append.mp ha with ha | ha
    · exact absurd ha ha'
    · rw [List.mem_singleton.mp ha, hdead]
  · exact htables t' fun e => ht' (congrArg some e.symm)
  · obtain ht | ⟨ht, -⟩ := ht
    · exact absurd (ht.symm.trans ht') htt
    · exact absurd (ht.symm.trans ht') nofun
  · obtain rfl := Option.some.inj ht'
    obtain ht | ⟨-, rfl⟩ := ht
    · exact absurd ht htt
    · exact Heap.get?_eq_none (Nat.le_refl _)
  · simp only [HtMemory.writeHashTable, hhash]
    exact Heap.get?_write_ne hne
  · simp only [HtMemory.writeHashTable, hhash, Heap.next_write]

end TagFilesystem.Cutil
