import TagFilesystem.Cutil.HashTable

namespace TagFilesystem.Cutil

variable {κ α : Type} {E : HtFault → Prop} {m m' m'' : HtMemory κ α} {A B A' B' : Links}
  {a b : EntryId} {p n x : Option EntryId}

/-- The members of an entry other than the links. -/
structure HtContent (κ α : Type) where
  key : κ
  data : α
  tbl : Option UtTableId
  hashv : UInt32

namespace HtMemory

/-- The links in the order of insertion. -/
def app (m : HtMemory κ α) : Links := m.entries.view fun e => ⟨e.prev, e.next⟩

/-- The links in the buckets. -/
def bkt (m : HtMemory κ α) : Links := m.entries.view fun e => ⟨e.hhPrev, e.hhNext⟩

def content (m : HtMemory κ α) : EntryId → Option (HtContent κ α) :=
  m.entries.view fun e => ⟨e.key, e.data, e.tbl, e.hashv⟩

theorem readEntry_eq {e : HtEntry κ α} (he : m.entries.get? a = some e) : m.readEntry a = .ok e := by
  simp [readEntry, he]

theorem readTable_eq {t : UtTableId} {T : UtHashTable} (hT : m.tables.get? t = some T) :
    m.readTable t = .ok T := by
  simp [readTable, hT]

theorem exists_entry {c : HtContent κ α} (hc : m.content a = some c) :
    ∃ e, m.entries.get? a = some e ∧ m.readEntry a = .ok e ∧ m.app a = some ⟨e.prev, e.next⟩ ∧
      m.bkt a = some ⟨e.hhPrev, e.hhNext⟩ ∧
      e.key = c.key ∧ e.data = c.data ∧ e.tbl = c.tbl ∧ e.hashv = c.hashv := by
  obtain ⟨e, he, rfl⟩ := Heap.of_view hc
  exact ⟨e, he, readEntry_eq he, Heap.view_eq_some _ he, Heap.view_eq_some _ he, rfl, rfl, rfl, rfl⟩

theorem get?_of_views (happ : m'.app a = m.app a) (hbkt : m'.bkt a = m.bkt a)
    (hcontent : m'.content a = m.content a) : m'.entries.get? a = m.entries.get? a := by
  simp only [app, bkt, content, Heap.view] at happ hbkt hcontent
  cases he : m.entries.get? a with
  | none =>
    rw [he] at happ
    simpa using happ
  | some e =>
    rw [he] at happ hbkt hcontent
    obtain ⟨e', he', hlink⟩ := Option.map_eq_some_iff.mp happ
    rw [he'] at hbkt hcontent ⊢
    obtain ⟨key, data, tbl, prev, next, hhPrev, hhNext, hashv⟩ := e
    obtain ⟨key', data', tbl', prev', next', hhPrev', hhNext', hashv'⟩ := e'
    simp only [Option.map_some, Option.some.injEq, Link.mk.injEq, HtContent.mk.injEq] at hlink hbkt hcontent
    simp only [Option.some.injEq, HtEntry.mk.injEq]
    exact ⟨hcontent.1, hcontent.2.1, hcontent.2.2.1, hlink.1, hlink.2, hbkt.1, hbkt.2, hcontent.2.2.2⟩

theorem tblOf_eq {c : HtContent κ α} {t : UtTableId} (hc : m.content a = some c)
    (ht : c.tbl = some t) : m.tblOf a = .ok t := by
  obtain ⟨e, -, hr, -, -, -, -, htbl, -⟩ := exists_entry hc
  simp only [tblOf, hr, ok_bind, htbl, ht]

/-- From `m` to `m'` only links have changed, to `A` and `B`. -/
structure Relinks (m m' : HtMemory κ α) (A B : Links) : Prop where
  app : m'.app = A
  bkt : m'.bkt = B
  content : m'.content = m.content
  tables : m'.tables = m.tables
  hashTables : m'.hashTables = m.hashTables
  next : m'.entries.next = m.entries.next

namespace Relinks

theorem refl (m : HtMemory κ α) : Relinks m m m.app m.bkt := ⟨rfl, rfl, rfl, rfl, rfl, rfl⟩

theorem trans (h : Relinks m m' A B) (h' : Relinks m' m'' A' B') : Relinks m m'' A' B' :=
  ⟨h'.app, h'.bkt, h'.content.trans h.content, h'.tables.trans h.tables,
    h'.hashTables.trans h.hashTables, h'.next.trans h.next⟩

end Relinks

theorem sat_relink {f : HtEntry κ α → HtEntry κ α} (g g' : Link → Link)
    (hg : ∀ e : HtEntry κ α, (⟨(f e).prev, (f e).next⟩ : Link) = g ⟨e.prev, e.next⟩)
    (hg' : ∀ e : HtEntry κ α, (⟨(f e).hhPrev, (f e).hhNext⟩ : Link) = g' ⟨e.hhPrev, e.hhNext⟩)
    (hc : ∀ e : HtEntry κ α, (f e).key = e.key ∧ (f e).data = e.data ∧ (f e).tbl = e.tbl ∧
      (f e).hashv = e.hashv) (ha : (m.content a).isSome = true) :
    Sat E (m.modifyEntry a f) fun m' => Relinks m m' (m.app.change a g) (m.bkt.change a g') := by
  obtain ⟨c, hca⟩ := Option.isSome_iff_exists.mp ha
  obtain ⟨e, he, -⟩ := Heap.of_view hca
  obtain ⟨hk, hd, ht, hh⟩ := hc e
  simp only [modifyEntry, readEntry_eq he, ok_bind, sat_ok]
  refine ⟨Heap.view_write he (hg e), Heap.view_write he (hg' e), ?_, rfl, rfl, Heap.next_write⟩
  apply Heap.view_write_same he
  simp only [hk, hd, ht, hh]

theorem sat_setNext (ha : (m.content a).isSome = true) :
    Sat E (m.modifyEntry a fun e => { e with next := x }) fun m' =>
      Relinks m m' (m.app.setNext a x) m.bkt := by
  have h := sat_relink (E := E) (f := fun e : HtEntry κ α => { e with next := x })
    (fun k => { k with next := x }) id (fun _ => rfl) (fun _ => rfl) (fun _ => ⟨rfl, rfl, rfl, rfl⟩) ha
  rwa [Links.change_id] at h

theorem sat_setPrev (ha : (m.content a).isSome = true) :
    Sat E (m.modifyEntry a fun e => { e with prev := x }) fun m' =>
      Relinks m m' (m.app.setPrev a x) m.bkt := by
  have h := sat_relink (E := E) (f := fun e : HtEntry κ α => { e with prev := x })
    (fun k => { k with prev := x }) id (fun _ => rfl) (fun _ => rfl) (fun _ => ⟨rfl, rfl, rfl, rfl⟩) ha
  rwa [Links.change_id] at h

theorem sat_setHhNext (ha : (m.content a).isSome = true) :
    Sat E (m.modifyEntry a fun e => { e with hhNext := x }) fun m' =>
      Relinks m m' m.app (m.bkt.setNext a x) := by
  have h := sat_relink (E := E) (f := fun e : HtEntry κ α => { e with hhNext := x })
    id (fun k => { k with next := x }) (fun _ => rfl) (fun _ => rfl) (fun _ => ⟨rfl, rfl, rfl, rfl⟩) ha
  rwa [Links.change_id] at h

theorem sat_setHhPrev (ha : (m.content a).isSome = true) :
    Sat E (m.modifyEntry a fun e => { e with hhPrev := x }) fun m' =>
      Relinks m m' m.app (m.bkt.setPrev a x) := by
  have h := sat_relink (E := E) (f := fun e : HtEntry κ α => { e with hhPrev := x })
    id (fun k => { k with prev := x }) (fun _ => rfl) (fun _ => rfl) (fun _ => ⟨rfl, rfl, rfl, rfl⟩) ha
  rwa [Links.change_id] at h

theorem sat_setHh {f : HtEntry κ α → HtEntry κ α} (hf : ∀ e, f e = { e with hhPrev := p, hhNext := n })
    (ha : (m.content a).isSome = true) :
    Sat E (m.modifyEntry a f) fun m' => Relinks m m' m.app (m.bkt.change a fun _ => ⟨p, n⟩) := by
  have h := sat_relink (E := E) (f := f) id (fun _ => ⟨p, n⟩) (fun e => by rw [hf]; rfl)
    (fun e => by rw [hf]) (fun e => by rw [hf]; exact ⟨rfl, rfl, rfl, rfl⟩) ha
  rwa [Links.change_id] at h

variable {o : Option EntryId}

theorem sat_setNext? (ho : ∀ a ∈ o, (m.content a).isSome = true) :
    Sat E (m.modifyEntry? o fun e => { e with next := x }) fun m' =>
      Relinks m m' (m.app.setNext? o x) m.bkt := by
  cases o with
  | none => exact Relinks.refl m
  | some a => exact sat_setNext (ho a rfl)

theorem sat_setPrev? (ho : ∀ a ∈ o, (m.content a).isSome = true) :
    Sat E (m.modifyEntry? o fun e => { e with prev := x }) fun m' =>
      Relinks m m' (m.app.setPrev? o x) m.bkt := by
  cases o with
  | none => exact Relinks.refl m
  | some a => exact sat_setPrev (ho a rfl)

theorem sat_setHhNext? (ho : ∀ a ∈ o, (m.content a).isSome = true) :
    Sat E (m.modifyEntry? o fun e => { e with hhNext := x }) fun m' =>
      Relinks m m' m.app (m.bkt.setNext? o x) := by
  cases o with
  | none => exact Relinks.refl m
  | some a => exact sat_setHhNext (ho a rfl)

theorem sat_setHhPrev? (ho : ∀ a ∈ o, (m.content a).isSome = true) :
    Sat E (m.modifyEntry? o fun e => { e with hhPrev := x }) fun m' =>
      Relinks m m' m.app (m.bkt.setPrev? o x) := by
  cases o with
  | none => exact Relinks.refl m
  | some a => exact sat_setHhPrev (ho a rfl)

theorem sat_setContent {f : HtEntry κ α → HtEntry κ α} {c : HtContent κ α} {t : Option UtTableId}
    {hashv : UInt32} (hf : ∀ e, f e = { e with tbl := t, hashv := hashv }) (hc : m.content a = some c) :
    Sat E (m.modifyEntry a f) fun m' => m'.app = m.app ∧ m'.bkt = m.bkt ∧
      m'.content a = some ⟨c.key, c.data, t, hashv⟩ ∧ (∀ b, b ≠ a → m'.content b = m.content b) ∧
      m'.tables = m.tables ∧ m'.hashTables = m.hashTables ∧ m'.entries.next = m.entries.next := by
  obtain ⟨e, he, rfl⟩ := Heap.of_view hc
  simp only [modifyEntry, readEntry_eq he, ok_bind, hf]
  refine ⟨Heap.view_write_same he rfl, Heap.view_write_same he rfl, ?_, fun b hb => ?_, rfl, rfl,
    Heap.next_write⟩
  · exact Heap.view_eq_some _ (Heap.get?_write_self he)
  · simp only [content, Heap.view, Heap.get?_write_ne hb]

theorem live {c : HtContent κ α} (hc : m.content a = some c) : (m.content a).isSome = true := by
  rw [hc]
  rfl

end HtMemory

end TagFilesystem.Cutil
