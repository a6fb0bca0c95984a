import TagFilesystem.Cutil.Expand

namespace TagFilesystem.Cutil

variable {κ α : Type} {E : HtFault → Prop} {hash : κ → UInt32} {m m' : HtMemory κ α}
  {T : UtHashTable} {row ys : List EntryId} {a head : EntryId} {p : Option EntryId}
  {malloc : Malloc} {t : UtTableId} {key : κ} {data : α}

abbrev Items (κ α : Type) := List (EntryId × κ × α)

variable {items : Items κ α}

def ids (items : Items κ α) : List EntryId := items.map Prod.fst

@[simp] theorem ids_nil : ids ([] : Items κ α) = [] := rfl

@[simp] theorem ids_append (xs ys : Items κ α) : ids (xs ++ ys) = ids xs ++ ids ys := List.map_append

@[simp] theorem ids_cons (x : EntryId × κ × α) (xs : Items κ α) : ids (x :: xs) = x.1 :: ids xs := rfl

@[simp] theorem length_ids : (ids items).length = items.length := List.length_map _

/-- The table object `t` holds `items`. -/
structure Represents (hash : κ → UInt32) (m : HtMemory κ α) (t : UtTableId) (T : UtHashTable)
    (items : Items κ α) (row : List EntryId) : Prop where
  table : m.tables.get? t = some T
  links : m.app.Seg none (ids items) none
  nodup : (ids items).Nodup
  tail : (ids items).getLast? = some T.tail
  numItems : T.numItems.toNat = items.length
  content : ∀ x ∈ items, m.content x.1 = some ⟨x.2.1, x.2.2, some t, hash x.2.1⟩
  perm : row.Perm (ids items)
  distributes : Distributes m T row

namespace Represents

theorem live (h : Represents hash m t T items row) (ha : a ∈ ids items) :
    (m.content a).isSome = true := by
  obtain ⟨x, hx, rfl⟩ := List.mem_map.mp ha
  exact HtMemory.live (h.content x hx)

theorem live_row (h : Represents hash m t T items row) (ha : a ∈ row) :
    (m.content a).isSome = true := h.live (h.perm.subset ha)

theorem nodup_row (h : Represents hash m t T items row) : row.Nodup := h.perm.nodup_iff.mpr h.nodup

theorem length_row (h : Represents hash m t T items row) : row.length = items.length := by
  rw [h.perm.length_eq, length_ids]

theorem ne_nil (h : Represents hash m t T items row) : items ≠ [] := by
  rintro rfl
  have htail := h.tail
  cases htail

theorem exists_head (h : Represents hash m t T items row) :
    ∃ head, (ids items).head? = some head ∧ head ∈ ids items := by
  obtain ⟨head, hhead⟩ := Option.ne_none_iff_exists'.mp
    (mt List.head?_eq_none_iff.mp fun he => h.ne_nil (List.map_eq_nil_iff.mp he))
  exact ⟨head, hhead, List.mem_of_head? hhead⟩

theorem tblOf (h : Represents hash m t T items row) (ha : a ∈ ids items) : m.tblOf a = .ok t := by
  obtain ⟨x, hx, rfl⟩ := List.mem_map.mp ha
  exact HtMemory.tblOf_eq (h.content x hx) rfl

theorem length_le_next (h : Represents hash m t T items row) : items.length ≤ m.entries.next := by
  rw [← length_ids]
  refine Heap.length_le_next h.nodup fun a ha => ?_
  obtain ⟨c, hc⟩ := Option.isSome_iff_exists.mp (h.live ha)
  obtain ⟨e, he, -⟩ := Heap.of_view hc
  rw [he]
  rfl

end Represents

variable [DecidableEq κ]

/-- What a search for `key` gives: an entry with the key, if there is one. -/
def Found (items : Items κ α) (key : κ) : Option EntryId → Prop
  | some a => ∃ data, (a, key, data) ∈ items
  | none => ∀ x ∈ items, x.2.1 ≠ key

omit [DecidableEq κ] in
theorem found_nil (key : κ) : Found ([] : Items κ α) key none := by
  intro x hx
  cases hx

theorem sat_hashFindInBkt {key : κ} (ys : List EntryId) (fuel : ℕ) (p : Option EntryId)
    (hfuel : ys.length ≤ fuel) (hseg : m.bkt.Seg p ys none)
    (hlive : ∀ a ∈ ys, (m.content a).isSome = true) :
    Sat E (hashFindInBkt m key fuel ys.head?) fun r =>
      match r with
      | some a => a ∈ ys ∧ ∃ c, m.content a = some c ∧ c.key = key
      | none => ∀ a ∈ ys, ∀ c, m.content a = some c → c.key ≠ key := by
  induction ys generalizing fuel p with
  | nil =>
    simp only [List.head?_nil, hashFindInBkt, sat_ok]
    rintro a ⟨⟩
  | cons a ys ih =>
    obtain ⟨hv, hrest⟩ := hseg
    obtain ⟨fuel, rfl⟩ : ∃ f, fuel = f + 1 := ⟨fuel - 1, by simp only [List.length_cons] at hfuel; omega⟩
    obtain ⟨e, he, hlinks⟩ := Heap.of_view hv
    have hc : m.content a = some ⟨e.key, e.data, e.tbl, e.hashv⟩ := Heap.view_eq_some _ he
    have hnext : e.hhNext = ys.head? := by
      rw [Option.or_none] at hlinks
      exact (Link.mk.inj hlinks).2
    simp only [List.head?_cons, hashFindInBkt, HtMemory.readEntry_eq he, ok_bind]
    split_ifs with hkey
    · exact ⟨List.mem_cons_self, _, hc, hkey⟩
    · rw [hnext]
      refine (ih fuel (some a) (by simp only [List.length_cons] at hfuel; omega) hrest
        fun b hb => hlive b (List.mem_cons_of_mem a hb)).mono fun r hr => ?_
      cases r with
      | some b => exact ⟨List.mem_cons_of_mem a hr.1, hr.2⟩
      | none =>
        intro b hb c hbc
        rcases List.mem_cons.mp hb with rfl | hb
        · obtain rfl := Option.some.inj (hc.symm.trans hbc)
          exact hkey
        · exact hr b hb c hbc

theorem Represents.sat_hashFind (h : Represents hash m t T items row) (hhead : head ∈ ids items)
    (key : κ) : Sat E (hashFind hash m (some head) key) (Found items key) := by
  have hlog := hashToBkt_toNat h.distributes.numBuckets (hash key)
  have hlt : (hashToBkt (hash key) T.numBuckets).toNat < T.buckets.length := by
    rw [hlog, h.distributes.length]
    exact Nat.mod_lt _ h.distributes.pos
  obtain ⟨b, hb⟩ : ∃ b, T.buckets[(hashToBkt (hash key) T.numBuckets).toNat]? = some b :=
    ⟨_, List.getElem?_eq_getElem hlt⟩
  obtain ⟨hbhead, -, hseg⟩ := h.distributes.buckets _ b hb
  simp only [hashFind, h.tblOf hhead, ok_bind, HtMemory.readTable_eq h.table, readBucket, hb, hbhead]
  refine (sat_hashFindInBkt _ _ none ?_ hseg fun a ha => ?_).mono fun r hr => ?_
  · refine (chainAt_sublist.length_le).trans ?_
    rw [h.length_row]
    exact h.length_le_next
  · exact h.live_row (mem_chainAt.mp ha).1
  cases r with
  | some a =>
    obtain ⟨ha, c, hc, hkey⟩ := hr
    obtain ⟨x, hx, rfl⟩ := List.mem_map.mp (h.perm.subset (mem_chainAt.mp ha).1)
    obtain rfl := Option.some.inj ((h.content x hx).symm.trans hc)
    exact ⟨x.2.2, by rw [← hkey]; exact hx⟩
  | none =>
    intro x hx hkey
    -- an item with the key is in the bucket that has been searched
    refine hr x.1 (mem_chainAt.mpr ⟨?_, ?_⟩) _ (h.content x hx) hkey
    · exact h.perm.symm.subset (List.mem_map_of_mem hx)
    · rw [hlog, slotOf, h.content x hx]
      simp [hkey]

end TagFilesystem.Cutil
