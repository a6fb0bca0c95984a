import TagFilesystem.Cutil.Insert

namespace TagFilesystem.Cutil

variable {κ α : Type} {E : HtFault → Prop} {hash : κ → UInt32} {m m' m'' : HtMemory κ α}
  {T T' T'' : UtHashTable} {row : List EntryId} {a head : EntryId} {t : UtTableId} {key : κ}
  {data : α} {items xs ys : Items κ α}

theorem sat_hashDelInBkt {c : HtContent κ α} (hT : m.tables.get? t = some T) (hd : Distributes m T row)
    (hn : row.Nodup) (hlive : ∀ b ∈ row, (m.content b).isSome = true) (ha : a ∈ row)
    (hc : m.content a = some c) :
    Sat E (hashDelInBkt m t (hashToBkt c.hashv T.numBuckets) a) fun m' => ∃ T',
      Rebuckets m m' t T' row ∧ T'.numItems = T.numItems ∧ T'.tail = T.tail ∧
      Distributes m' T' (row.erase a) := by
  obtain ⟨b, hslot, hb, hread⟩ := hd.bucket hc rfl
  obtain ⟨e, he, hre, -, hva, -⟩ := HtMemory.exists_entry hc
  obtain ⟨p, n, hv, hp, hn', hbuckets⟩ := hd.buckets.remove hn ha hb b.expandMult
  obtain ⟨rfl, rfl⟩ := Link.mk.inj (Option.some.inj (hva.symm.trans hv))
  simp only [hashDelInBkt, HtMemory.readTable_eq hT, hread, hre, ok_bind]
  generalize hT₁ : T.setBucket (hashToBkt c.hashv T.numBuckets).toNat
    ⟨if b.hhHead = some a then e.hhNext else b.hhHead, b.count - 1, b.expandMult⟩ = T₁
  have hlive₁ (b : EntryId) (hb : b ∈ row) : ((m.writeTable t T₁).content b).isSome = true := hlive b hb
  refine (HtMemory.sat_setHhNext? fun b hb => hlive₁ b (hp b hb).1).bind fun m₁ h₁ => ?_
  -- the entry itself is as it was
  obtain ⟨e₁, he₁, hlinks⟩ : ∃ e₁, m₁.entries.get? a = some e₁ ∧
      (⟨e₁.hhPrev, e₁.hhNext⟩ : Link) = ⟨e.hhPrev, e.hhNext⟩ := by
    apply Heap.of_view
    refine (congrFun h₁.bkt a).trans ?_
    rw [Links.setNext?_ne fun h => (hp a h).2 rfl]
    exact hva
  obtain ⟨hp₁, hn₁⟩ := Link.mk.inj hlinks
  simp only [HtMemory.readEntry_eq he₁, ok_bind, hp₁, hn₁]
  refine (HtMemory.sat_setHhPrev? fun b hb => ?_).mono fun m₂ h₂ => ?_
  · rw [h₁.content]
    exact hlive₁ b (hn' b hb)
  have hsame := h₁.trans h₂
  have hbkt : m₂.bkt = (m.bkt.setNext? e.hhPrev e.hhNext).setPrev? e.hhNext e.hhPrev := by
    rw [h₂.bkt, h₁.bkt]
    rfl
  refine ⟨T₁, ⟨hsame.app.trans h₁.app, hsame.content, hsame.tables, hsame.hashTables, hsame.next,
    fun b hb => ?_⟩, ?_⟩
  · refine (congrFun hbkt b).trans ?_
    rw [Links.setPrev?_ne fun h => hb (hn' b h), Links.setNext?_ne fun h => hb (hp b h).1]
  · subst hT₁
    refine ⟨rfl, rfl, hd.log2, hd.numBuckets, (List.length_set ..).trans hd.length, ?_⟩
    have hcontent : m₂.content = m.content := hsame.content
    rw [← hbkt, ← hslot, ← slotOf_congr hcontent] at hbuckets
    exact hbuckets

theorem exists_hashMoveTail {l l' : List EntryId} (hT : m.tables.get? t = some T)
    (hn : (l ++ a :: l').Nodup) (htail : (l ++ a :: l').getLast? = some T.tail) (hne : l ++ l' ≠ []) :
    ∃ tail, hashMoveTail m t T a l.getLast? = .ok (m.writeTable t { T with tail := tail }) ∧
      (l ++ l').getLast? = some tail := by
  unfold hashMoveTail
  split_ifs with ha
  · -- an entry behind the removed one would be the tail
    have hl' : l' = [] := by
      by_contra hl'
      rw [List.getLast?_append, List.getLast?_cons, ← ha] at htail
      obtain ⟨b, hb⟩ := Option.ne_none_iff_exists'.mp (mt List.getLast?_eq_none_iff.mp hl')
      rw [hb, Option.getD_some, Option.some_or] at htail
      have hnot := (List.nodup_cons.mp (List.nodup_append.mp hn).2.1).1
      exact hnot (Option.some.inj htail ▸ List.mem_of_getLast? hb)
    subst hl'
    rw [List.append_nil] at hne ⊢
    obtain ⟨p, hp⟩ := Option.ne_none_iff_exists'.mp (mt List.getLast?_eq_none_iff.mp hne)
    exact ⟨p, by simp only [hp], hp⟩
  · have hl' : l' ≠ [] := by
      rintro rfl
      rw [List.getLast?_concat] at htail
      exact ha (Option.some.inj htail)
    refine ⟨T.tail, ?_, ?_⟩
    · have hself : m.writeTable t T = m := by
        simp only [HtMemory.writeTable, Heap.write_of_get? hT]
      exact congrArg _ hself.symm
    · obtain ⟨b, hb⟩ := Option.ne_none_iff_exists'.mp (mt List.getLast?_eq_none_iff.mp hl')
      rw [List.getLast?_append, List.getLast?_cons, hb, Option.getD_some, Option.some_or] at htail
      rw [List.getLast?_append, hb, Option.some_or]
      exact htail

/-- The entry `a`, which is not the only one, leaves the order of insertion. -/
theorem sat_hashUnlink (h : Represents hash m t T (xs ++ (a, key, data) :: ys) row)
    (hhead : (ids (xs ++ (a, key, data) :: ys)).head? = some head) (hne : xs ++ ys ≠ []) :
    Sat E (hashUnlink m head a) fun r => r.1 = (ids (xs ++ ys)).head? ∧
      r.2.app = (m.app.setNext? (ids xs).getLast? (ids ys).head?).setPrev? (ids ys).head?
        (ids xs).getLast? ∧ r.2.bkt = m.bkt ∧ r.2.content = m.content ∧
      (∃ tail, r.2.tables = m.tables.write t { T with tail := tail } ∧
        (ids xs ++ ids ys).getLast? = some tail) ∧ r.2.hashTables = m.hashTables := by
  have hmem : head ∈ ids (xs ++ (a, key, data) :: ys) := List.mem_of_head? hhead
  have hx : (a, key, data) ∈ xs ++ (a, key, data) :: ys :=
    List.mem_append_right _ List.mem_cons_self
  have hlinks := h.links
  have hnodup := h.nodup
  have htail := h.tail
  rw [ids_append, ids_cons] at hlinks hnodup htail hhead
  have hva := hlinks.middle
  obtain ⟨hnx, hnay, hdis⟩ := List.nodup_append.mp hnodup
  obtain ⟨hay, hny⟩ := List.nodup_cons.mp hnay
  have hax : a ∉ ids xs := fun ha => hdis a ha a List.mem_cons_self rfl
  obtain ⟨e, he, happ⟩ := Heap.of_view hva
  obtain ⟨hp, hn⟩ := Link.mk.inj happ
  have hne' : ids xs ++ ids ys ≠ [] := by
    rw [← ids_append]
    exact fun he => hne (List.map_eq_nil_iff.mp he)
  obtain ⟨tail, hmove, hlast⟩ := exists_hashMoveTail h.table hnodup htail hne'
  simp only [hashUnlink, h.tblOf hmem, HtMemory.readTable_eq h.table, HtMemory.readEntry_eq he, ok_bind,
    hp, hn, hmove]
  generalize hT₁ : { T with tail := tail } = T₁
  have hlive {b : EntryId} (hb : b ∈ ids xs ++ a :: ids ys) : ((m.writeTable t T₁).content b).isSome = true := by
    rw [← ids_cons (a, key, data), ← ids_append] at hb
    exact h.live hb
  refine (HtMemory.sat_setNext? fun b hb => hlive (List.mem_append_left _ (List.mem_of_getLast? hb))).bind
    fun m₁ h₁ => ?_
  -- the entry itself is as it was
  obtain ⟨e₁, he₁, hlinks₁⟩ : ∃ e₁, m₁.entries.get? a = some e₁ ∧
      (⟨e₁.prev, e₁.next⟩ : Link) = ⟨(ids xs).getLast?, (ids ys).head?⟩ := by
    apply Heap.of_view
    refine (congrFun h₁.app a).trans ?_
    rw [Links.setNext?_ne fun h => hax (List.mem_of_getLast? h)]
    exact hva
  obtain ⟨hp₁, hn₁⟩ := Link.mk.inj hlinks₁
  simp only [HtMemory.readEntry_eq he₁, ok_bind, hp₁, hn₁]
  refine (HtMemory.sat_setPrev? fun b hb => ?_).bind fun m₂ h₂ => ?_
  · rw [h₁.content]
    exact hlive (List.mem_append_right _ (List.mem_cons_of_mem a (List.mem_of_head? hb)))
  have hsame := h₁.trans h₂
  refine ⟨?_, ?_, h₂.bkt.trans h₁.bkt, hsame.content, ⟨tail, ?_, hlast⟩, hsame.hashTables⟩
  · cases xs with
    | nil => rfl
    | cons x xs =>
      rw [ids_cons, List.cons_append, List.head?_cons] at hhead
      rw [if_neg (by simp), ← hhead]
      rfl
  · rw [h₂.app, h₁.app]
    rfl
  · rw [hsame.tables, ← hT₁]
    rfl

theorem sat_hashDelete (h : Represents hash m t T (xs ++ (a, key, data) :: ys) row)
    (hhead : (ids (xs ++ (a, key, data) :: ys)).head? = some head) :
    Sat E (hashDelete m head a) fun r => r.1 = (ids (xs ++ ys)).head? ∧
      r.2.hashTables = m.hashTables ∧ (∀ t', t' ≠ t → r.2.tables.get? t' = m.tables.get? t') ∧
      (∀ b ∉ ids (xs ++ (a, key, data) :: ys), r.2.entries.get? b = m.entries.get? b) ∧
      (r.2.entries.get? a).isSome = true ∧
      (xs ++ ys = [] ∧ r.2.tables.get? t = none ∨
        ∃ T' row', Represents hash r.2 t T' (xs ++ ys) row') := by
  have hmem : head ∈ ids (xs ++ (a, key, data) :: ys) := List.mem_of_head? hhead
  have hx : (a, key, data) ∈ xs ++ (a, key, data) :: ys :=
    List.mem_append_right _ List.mem_cons_self
  have hlinks := h.links
  have hnodup := h.nodup
  rw [ids_append, ids_cons] at hlinks hnodup
  have hva := hlinks.middle
  have hc := h.content _ hx
  dsimp only at hc
  obtain ⟨e, he, hre, hva', -⟩ := HtMemory.exists_entry hc
  obtain ⟨hp, hn⟩ := Link.mk.inj (Option.some.inj (hva'.symm.trans hva))
  simp only [hashDelete, hre, ok_bind]
  have hdead (b : EntryId) (hb : b ∉ ids (xs ++ (a, key, data) :: ys)) : b ∉ row :=
    fun hm => hb (h.perm.subset hm)
  split_ifs with hlone
  · -- the last entry takes the table with it
    have hx0 : xs = [] := List.map_eq_nil_iff.mp (List.getLast?_eq_none_iff.mp (hp.symm.trans hlone.1))
    have hy0 : ys = [] := List.map_eq_nil_iff.mp (List.head?_eq_none_iff.mp (hn.symm.trans hlone.2))
    subst hx0 hy0
    simp only [h.tblOf hmem, ok_bind]
    refine ⟨rfl, rfl, fun t' ht' => ?_, fun b _ => rfl, ?_, .inl ⟨rfl, ?_⟩⟩
    · rw [Heap.get?_free, if_neg ht']
    · rw [he]
      rfl
    · rw [Heap.get?_free, if_pos rfl]
  · have hne : xs ++ ys ≠ [] := by
      intro hxy
      obtain ⟨rfl, rfl⟩ := List.append_eq_nil_iff.mp hxy
      exact hlone ⟨hp, hn⟩
    refine (sat_hashUnlink h hhead hne).bind fun r hr => ?_
    obtain ⟨head₁, m₁⟩ := r
    obtain ⟨hhead₁, happ₁, hbkt₁, hcontent₁, ⟨tail, htables₁, hlast⟩, hhash₁⟩ := hr
    dsimp only at hhead₁ happ₁ hbkt₁ hcontent₁ htables₁ hhash₁
    have hne' : ids (xs ++ ys) ≠ [] := fun he => hne (List.map_eq_nil_iff.mp he)
    obtain ⟨head', hhead'⟩ := Option.ne_none_iff_exists'.mp (mt List.head?_eq_none_iff.mp hne')
    have hsub {b : EntryId} (hb : b ∈ ids (xs ++ ys)) : b ∈ ids (xs ++ (a, key, data) :: ys) := by
      rw [ids_append] at hb
      rw [ids_append, ids_cons]
      rcases List.mem_append.mp hb with hb | hb
      · exact List.mem_append_left _ hb
      · exact List.mem_append_right _ (List.mem_cons_of_mem a hb)
    have htbl : m₁.tblOf head' = .ok t := by
      obtain ⟨x, hx, rfl⟩ := List.mem_map.mp (hsub (List.mem_of_head? hhead'))
      exact HtMemory.tblOf_eq (hcontent₁ ▸ h.content x hx) rfl
    generalize hT₁ : { T with tail := tail } = T₁ at htables₁
    have hT₁' : m₁.tables.get? t = some T₁ := by
      rw [htables₁]
      exact Heap.get?_write_self h.table
    have hc₁ : m₁.content a = some ⟨key, data, some t, hash key⟩ := hcontent₁ ▸ hc
    obtain ⟨e₁, -, hre₁, -, -, -, -, -, hv₁⟩ := HtMemory.exists_entry hc₁
    have hd₁ : Distributes m₁ T₁ row := by
      have hd : Distributes m₁ T row := h.distributes.frame (fun b _ => congrFun hbkt₁ b)
        fun b _ => congrFun hcontent₁ b
      subst hT₁
      exact ⟨hd.log2, hd.numBuckets, hd.length, hd.buckets⟩
    rw [hhead'] at hhead₁
    subst hhead₁
    simp only [htbl, HtMemory.readTable_eq hT₁', hre₁, ok_bind, hv₁]
    have hdel := sat_hashDelInBkt (E := E) hT₁' hd₁ h.nodup_row
      (fun b hb => by rw [hcontent₁]; exact h.live_row hb)
      (h.perm.symm.subset (by rw [ids_append, ids_cons]; exact List.mem_append_right _ List.mem_cons_self))
      hc₁
    refine hdel.bind fun m₂ ⟨T₂, hr, hnum₂, htail₂, hd₂⟩ => ?_
    have hT₂ : m₂.tables.get? t = some T₂ := by
      rw [hr.tables]
      exact Heap.get?_write_self hT₁'
    simp only [HtMemory.readTable_eq hT₂, ok_bind]
    generalize hT₃ : { T₂ with numItems := T₂.numItems - 1 } = T₃
    have hcontent₂ : m₂.content = m.content := hr.content.trans hcontent₁
    have hax : a ∉ ids xs := fun ha =>
      (List.nodup_append.mp hnodup).2.2 a ha a List.mem_cons_self rfl
    refine ⟨hhead'.symm, hr.hashTables.trans hhash₁, fun t' ht' => ?_, fun b hb => ?_, ?_,
      .inr ⟨T₃, row.erase a, ?_⟩⟩
    · simp only [HtMemory.writeTable, hr.tables, htables₁, Heap.write_write]
      exact Heap.get?_write_ne ht'
    · have hbxy := hb
      rw [ids_append, ids_cons, List.mem_append, List.mem_cons, not_or, not_or] at hbxy
      apply HtMemory.get?_of_views
      · refine (congrFun hr.app b).trans ((congrFun happ₁ b).trans ?_)
        exact Links.unlink_ne hbxy.1 hbxy.2.2
      · exact (hr.frame b (hdead b hb)).trans (congrFun hbkt₁ b)
      · exact congrFun hcontent₂ b
    · obtain ⟨e₂, he₂, -⟩ := HtMemory.exists_entry (hcontent₂ ▸ hc : m₂.content a = _)
      simp only [HtMemory.writeTable, he₂, Option.isSome_some]
    have hT₃' : T₃.tail = tail ∧ T₃.numItems.toNat = (xs ++ ys).length := by
      have hnum : T₂.numItems.toNat = (xs ++ ys).length + 1 := by
        have hlen := h.numItems
        rw [hnum₂, ← hT₁, hlen]
        simp only [List.length_append, List.length_cons]
        omega
      subst hT₃
      refine ⟨htail₂.trans (hT₁ ▸ rfl), ?_⟩
      have hle : (1 : UInt32) ≤ T₂.numItems := by
        rw [UInt32.le_iff_toNat_le, hnum]
        exact Nat.le_add_left 1 _
      dsimp only
      rw [UInt32.toNat_sub_of_le _ _ hle, hnum]
      rfl
    refine ⟨Heap.get?_write_self hT₂, ?_, ?_, ?_, hT₃'.2, fun x hx => ?_, ?_, ?_⟩
    · have happ : (m₂.writeTable t T₃).app = _ := hr.app.trans happ₁
      rw [happ, ids_append]
      exact hlinks.unlink hnodup
    · rw [ids_append]
      exact hnodup.sublist (List.Sublist.append_left (List.sublist_cons_self _ _) _)
    · rw [ids_append, hlast, hT₃'.1]
    · refine (congrFun hcontent₂ x.1).trans (h.content x ?_)
      rcases List.mem_append.mp hx with hx | hx
      · exact List.mem_append_left _ hx
      · exact List.mem_append_right _ (List.mem_cons_of_mem _ hx)
    · have hperm := h.perm.erase a
      rw [ids_append, ids_cons, List.erase_append_right _ hax, List.erase_cons_head, ← ids_append] at hperm
      exact hperm
    · subst hT₃
      exact ⟨hd₂.log2, hd₂.numBuckets, hd₂.length, hd₂.buckets⟩

theorem sat_htDelete {h : HashTableId} {tbl : Option UtTableId}
    (hh : HtHolds hash m h tbl (xs ++ (a, key, data) :: ys)) :
    Sat E (htDelete m h a) fun m' => ∃ tbl', HtHolds hash m' h tbl' (xs ++ ys) ∧
      Update m m' h tbl tbl' (ids (xs ++ (a, key, data) :: ys)) (ids (xs ++ ys)) := by
  obtain ⟨rfl, hnil⟩ | ⟨t, T, row, rfl, hrep⟩ := hh.table
  · exact absurd hnil (by simp)
  obtain ⟨head, hhead, hmem⟩ := hrep.exists_head
  have hget : m.hashTables.get? h = some (some head) := hhead ▸ hh.head
  simp only [htDelete, HtMemory.readHashTable, hget, ok_bind]
  apply (sat_hashDelete hrep hhead).bind
  rintro r ⟨hr, hhash, htables, hentries, hlive, hrest⟩
  obtain ⟨e, he⟩ := Option.isSome_iff_exists.mp hlive
  have hread : (r.2.writeHashTable h r.1).readEntry a = .ok e := HtMemory.readEntry_eq he
  simp only [HtMemory.freeEntry, hread, ok_bind]
  have hnodup := hrep.nodup
  rw [ids_append, ids_cons] at hnodup
  have hane {b : EntryId} (hb : b ∈ ids (xs ++ ys)) : b ≠ a := by
    rintro rfl
    rw [ids_append] at hb
    have hcons : (b :: (ids xs ++ ids ys)).Nodup := List.perm_middle.nodup_iff.mp hnodup
    exact (List.nodup_cons.mp hcons).1 hb
  have hsub {b : EntryId} (hb : b ∈ ids (xs ++ ys)) : b ∈ ids (xs ++ (a, key, data) :: ys) := by
    rw [ids_append] at hb
    rw [ids_append, ids_cons]
    exact List.perm_middle.symm.subset (List.mem_cons_of_mem a hb)
  have hmem {b : EntryId} (hb : b ∈ ids (xs ++ (a, key, data) :: ys)) : b = a ∨ b ∈ ids (xs ++ ys) := by
    rw [ids_append, ids_cons] at hb
    rw [ids_append]
    exact List.mem_cons.mp (List.perm_middle.subset hb)
  generalize htbl' : (if xs ++ ys = [] then none else some t : Option UtTableId) = tbl'
  have hupdate : Update m { r.2.writeHashTable h r.1 with entries := r.2.entries.free a } h (some t) tbl'
      (ids (xs ++ (a, key, data) :: ys)) (ids (xs ++ ys)) := by
    refine ⟨fun b hb _ => ?_, fun b hb hb' => ?_, fun b hb hb' => absurd (hsub hb) hb',
      fun t' ht' _ => htables t' fun e => ht' (congrArg some e.symm), fun t' ht' htt => ?_,
      fun t' ht' htt => ?_, fun h' hne => ?_, ?_⟩
    · rw [Heap.get?_free, if_neg fun e => hb ?_, hentries b hb]
      rw [e, ids_append, ids_cons]
      exact List.mem_append_right _ List.mem_cons_self
    · obtain rfl | hb := hmem hb
      · rw [Heap.get?_free, if_pos rfl]
      · exact absurd hb hb'
    · obtain rfl := Option.some.inj ht'
      obtain ⟨-, hnone⟩ | ⟨T', row', hrep'⟩ := hrest
      · exact hnone
      · rw [← htbl', if_neg hrep'.ne_nil] at htt
        exact absurd rfl htt
    · rw [← htbl'] at ht'
      split_ifs at ht'
      exact absurd ht' htt
    · simp only [HtMemory.writeHashTable, hhash]
      exact Heap.get?_write_ne hne
    · simp only [HtMemory.writeHashTable, hhash, Heap.next_write]
  refine ⟨tbl', ⟨?_, ?_⟩, hupdate⟩
  · simp only [HtMemory.writeHashTable, hhash, hr]
    exact Heap.get?_write_self hget
  · obtain ⟨hnil, -⟩ | ⟨T', row', hrep'⟩ := hrest
    · exact .inl ⟨by rw [← htbl', if_pos hnil], hnil⟩
    · refine .inr ⟨t, T', row', by rw [← htbl', if_neg hrep'.ne_nil], hrep'.frame (fun b hb => ?_) rfl⟩
      simp only [HtMemory.writeHashTable]
      rw [Heap.get?_free, if_neg (hane hb)]

end TagFilesystem.Cutil
