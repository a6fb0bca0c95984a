import TagFilesystem.Cutil.HashTables
import TagFilesystem.Cutil.Cursor

namespace TagFilesystem.Cutil

variable {κ α : Type} [DecidableEq κ] {E : HtFault → Prop} {hash : κ → UInt32} {m : HtMemory κ α}
  {A A' : Tables κ α} {t : Table κ α} {h : HashTableId} {key : κ} {data : α} {malloc : Malloc}

/-- A call, and the answers of `malloc` during it. -/
structure HtEvent (κ α : Type) where
  op : HtOp κ α
  malloc : Malloc

def htStep (hash : κ → UInt32) (m : HtMemory κ α) (e : HtEvent κ α) :
    Except HtFault (HtReply κ α × HtMemory κ α) := htExec e.malloc hash m e.op

variable {log : List (HtEvent κ α × HtReply κ α)}

instance (m : HtMemory κ α) (op : HtOp κ α) : Decidable (HtLegal m op) :=
  match op with
  | .create => .isTrue trivial
  | .add _ _ _ | .addUnique _ _ _ => inferInstanceAs (Decidable (_ = true))
  | .remove _ _ | .has _ _ | .get _ _ | .forEach _ | .count _ | .free _ =>
    inferInstanceAs (Decidable (_ = true))

/-- Memory is granted. -/
def granting (op : HtOp κ α) : HtEvent κ α := ⟨op, fun size => size < 68719476736⟩

/-- A hash function with a full bucket. -/
def multiples (key : ℕ) : UInt32 := UInt32.ofNat (32 * key)

/-- The calls on tables. -/
def tableExec (A : Tables κ α) : HtOp κ α → HtReply κ α × Tables κ α
  | .create => (.table A.next, A.alloc .empty)
  | .add h key data => (.err 0, A.write h (((A.get? h).getD .empty).add key data))
  | .addUnique h key data =>
    if ((A.get? h).getD .empty).contains key then (.err (-1), A)
    else (.err 0, A.write h (((A.get? h).getD .empty).addNew key data))
  | .remove h key =>
    if ((A.get? h).getD .empty).contains key then
      (.err 0, A.write h (((A.get? h).getD .empty).erase key))
    else (.err (-1), A)
  | .has h key => (.bool (((A.get? h).getD .empty).contains key), A)
  | .get h key => (.data (((A.get? h).getD .empty).get? key), A)
  | .forEach h => (.calls ((A.get? h).getD .empty).entries, A)
  | .count h => (.count (UInt32.ofNat ((A.get? h).getD .empty).size).toInt32, A)
  | .free h => (.done, A.free h)

/-- `ht_add_entry` is called with a key that the table does not have. -/
def HtFresh (hash : κ → UInt32) (m : HtMemory κ α) : HtOp κ α → Prop
  | .add h key _ => returnsWith (htHasEntry hash m h key) (fun b => !b) = true
  | _ => True

def AllUnique (A : Tables κ α) : Prop := ∀ h t, A.get? h = some t → t.Unique

theorem erase_of_entries {xs ys : List (κ × α)} (ht : t.Unique) (he : t.entries = xs ++ (key, data) :: ys) :
    t.erase key = ⟨xs ++ ys⟩ := by
  obtain ⟨entries⟩ := t
  dsimp only at he
  subst he
  have hnodup : (xs.map Prod.fst ++ key :: ys.map Prod.fst).Nodup := by
    have h := ht
    simp only [Table.Unique, Table.keys, List.map_append, List.map_cons] at h
    exact h
  have hys (e : κ × α) (he : e ∈ ys.reverse) : ¬ (decide (e.1 = key)) = true := by
    intro hk
    have hmem : key ∈ ys.map Prod.fst :=
      List.mem_map.mpr ⟨e, List.mem_reverse.mp he, of_decide_eq_true hk⟩
    exact (List.nodup_cons.mp (List.nodup_append.mp hnodup).2.1).1 hmem
  simp only [Table.erase, List.reverse_append, List.reverse_cons, List.append_assoc]
  rw [List.eraseP_append_right _ hys, List.singleton_append, List.eraseP_cons_of_pos (by simp)]
  simp

theorem HtStep.eq_tableExec {op : HtOp κ α} {o : HtReply κ α} (hs : HtStep A op o A') (hu : AllUnique A)
    (hfresh : ∀ h t key data, op = .add h key data → A.get? h = some t → key ∉ t.keys) :
    tableExec A op = (o, A') ∧ AllUnique A' := by
  have hwrite {h : HashTableId} {t : Table κ α} (ht : t.Unique) : AllUnique (A.write h t) := by
    intro h' t' ht'
    obtain ⟨-, rfl⟩ | ⟨-, ht'⟩ := Heap.get?_write_cases ht'
    · exact ht
    · exact hu h' t' ht'
  cases hs with
  | create =>
    refine ⟨rfl, fun h t ht => ?_⟩
    obtain ⟨-, rfl⟩ | ⟨-, ht⟩ := Heap.get?_alloc_cases ht
    · exact Table.unique_empty
    · exact hu h t ht
  | @add h t key data ht =>
    have hk := hfresh h t key data rfl ht
    refine ⟨by simp only [tableExec, ht, Option.getD_some], hwrite ?_⟩
    exact (hu h t ht).add (Table.get?_eq_none.mpr hk)
  | @addNew h t key data ht hk =>
    have hc : t.contains key = false := Table.contains_eq_false.mpr (Table.get?_eq_none.mpr hk)
    have hadd : t.addNew key data = t.add key data := by simp [Table.addNew, hc]
    refine ⟨by simp [tableExec, ht, hc, hadd], hwrite ?_⟩
    exact (hu h t ht).add (Table.get?_eq_none.mpr hk)
  | @addOld h t key data ht hk =>
    have hc : t.contains key = true := Table.contains_iff.mpr hk
    exact ⟨by simp [tableExec, ht, hc], hu⟩
  | @remove h t key data xs ys ht he =>
    have hget : t.get? key = some data := by
      rw [(hu h t ht).get?_eq_some, he]
      exact List.mem_append_right _ List.mem_cons_self
    have hc : t.contains key = true := Table.contains_iff_get?.mpr ⟨data, hget⟩
    have herase := erase_of_entries (hu h t ht) he
    refine ⟨by simp [tableExec, ht, hc, herase], hwrite ?_⟩
    rw [← herase]
    exact (hu h t ht).erase
  | @removeNone h t key ht hk =>
    have hc : t.contains key = false := Table.contains_eq_false.mpr (Table.get?_eq_none.mpr hk)
    exact ⟨by simp [tableExec, ht, hc], hu⟩
  | @has h t key ht =>
    have hc : t.contains key = decide (key ∈ t.keys) := by
      rw [Bool.eq_iff_iff, Table.contains_iff, decide_eq_true_eq]
    exact ⟨by simp only [tableExec, ht, Option.getD_some, hc], hu⟩
  | @get h t key data ht he =>
    have hget := (hu h t ht).get?_eq_some.mpr he
    exact ⟨by simp only [tableExec, ht, Option.getD_some, hget], hu⟩
  | @getNone h t key ht hk =>
    have hget := Table.get?_eq_none.mpr hk
    exact ⟨by simp only [tableExec, ht, Option.getD_some, hget], hu⟩
  | @forEach h t ht => exact ⟨by simp only [tableExec, ht, Option.getD_some], hu⟩
  | @count h t n ht hn =>
    have hcount : (UInt32.ofNat t.size).toInt32 = n := by
      rw [← hn, UInt32.ofNat_toNat]
      rfl
    exact ⟨by simp only [tableExec, ht, Option.getD_some, hcount], hu⟩
  | free ht => exact ⟨rfl, fun h' t' ht' => hu h' t' (Heap.of_get?_free ht').2⟩

theorem notMem_of_fresh {op : HtOp κ α} (hm : HoldsTables hash m A) (hf : HtFresh hash m op) :
    ∀ h t key data, op = .add h key data → A.get? h = some t → key ∉ t.keys := by
  rintro h t key data rfl ht
  obtain ⟨layout, hl⟩ := hm
  obtain ⟨hh, rfl⟩ := hl.holds h t ht
  obtain ⟨b, hb, hfalse⟩ := returnsWith_iff.mp hf
  obtain ⟨r, hr, hfound⟩ := (sat_htFind hh key).exists_ok
  simp only [htHasEntry, hr, ok_bind] at hb
  obtain rfl := Except.ok.inj hb
  cases r with
  | none => exact notMem_keys_of_found hfound
  | some a => cases hfalse

theorem sat_htExec_table {op : HtOp κ α} (hm : HoldsTables hash m A) (hu : AllUnique A)
    (hop : HtLegal m op) (hf : HtFresh hash m op) :
    Sat (Excused malloc) (htExec malloc hash m op) fun r => r.1 = (tableExec A op).1 ∧
      HoldsTables hash r.2 (tableExec A op).2 ∧ AllUnique (tableExec A op).2 := by
  refine (sat_htExec hm hop).mono fun r ⟨A', hs, hA'⟩ => ?_
  obtain ⟨heq, hu'⟩ := hs.eq_tableExec hu (notMem_of_fresh hm hf)
  rw [heq]
  exact ⟨rfl, hA', hu'⟩

/-- In every run in which `ht_add_entry` is not given a key that is there, the replies are those of
tables that are searched, changed and listed by key. -/
theorem hash_tables_refine_tables
    (hrun : Logs (htStep hash) (fun m e => HtLegal m e.op ∧ HtFresh hash m e.op) .empty log m) :
    ∃ A : Tables κ α, Allows (fun A e o A' => tableExec A e.op = (o, A')) .empty log A ∧
      HoldsTables hash m A ∧ AllUnique A ∧
      ∀ e, HtLegal m e.op → HtFresh hash m e.op → Sat (Excused e.malloc) (htStep hash m e) fun r =>
        r.1 = (tableExec A e.op).1 ∧ HoldsTables hash r.2 (tableExec A e.op).2 := by
  have hstep (m : HtMemory κ α) (A : Tables κ α) (e : HtEvent κ α)
      (hm : HoldsTables hash m A ∧ AllUnique A) (he : HtLegal m e.op ∧ HtFresh hash m e.op) :
      Sat (Excused e.malloc) (htStep hash m e) fun r => ∃ A', tableExec A e.op = (r.1, A') ∧
        HoldsTables hash r.2 A' ∧ AllUnique A' :=
    (sat_htExec_table hm.1 hm.2 he.1 he.2).mono fun r ⟨hr, hm', hu'⟩ =>
      ⟨(tableExec A e.op).2, Prod.ext hr.symm rfl, hm', hu'⟩
  have hstart : HoldsTables hash (.empty : HtMemory κ α) .empty ∧ AllUnique (.empty : Tables κ α) :=
    ⟨holdsTables_empty hash, nofun⟩
  obtain ⟨A, hlog, hm, hu⟩ : ∃ A : Tables κ α,
      Allows (fun A e o A' => tableExec A e.op = (o, A')) .empty log A ∧ HoldsTables hash m A ∧
        AllUnique A :=
    hrun.simulate (R := fun m A => HoldsTables hash m A ∧ AllUnique A) hstart hstep
  exact ⟨A, hlog, hm, hu, fun e he hf =>
    (sat_htExec_table hm hu he hf).mono fun r hr => ⟨hr.1, hr.2.1⟩⟩

instance (hash : κ → UInt32) (m : HtMemory κ α) (op : HtOp κ α) : Decidable (HtFresh hash m op) :=
  match op with
  | .add _ _ _ => inferInstanceAs (Decidable (_ = true))
  | .create | .addUnique _ _ _ | .remove _ _ | .has _ _ | .get _ _ | .forEach _ | .count _ | .free _ =>
    .isTrue trivial

/-- Two tables, with keys that are added, found and removed. -/
def twoTables : List (HtEvent CStr ℕ) := ([.create, .create, .add 0 (cstr [120]) 10,
  .addUnique 0 (cstr [120]) 11, .addUnique 1 (cstr [121, 122]) 20, .get 0 (cstr [120]),
  .remove 0 (cstr [120]), .has 0 (cstr [120]), .forEach 1, .count 1] : List (HtOp CStr ℕ)).map granting

def twoTablesReplies : List (HtReply CStr ℕ) :=
  [.table 0, .table 1, .err 0, .err (-1), .err 0, .data (some 10), .err 0, .bool false,
    .calls [(cstr [121, 122], 20)], .count 1]

theorem hash_tables_refine_tables_sample : ∃ (m : HtMemory CStr ℕ)
    (log : List (HtEvent CStr ℕ × HtReply CStr ℕ)) (A : Tables CStr ℕ),
    log.map Prod.snd = twoTablesReplies ∧
    Allows (fun A e o A' => tableExec A e.op = (o, A')) .empty log A ∧ HoldsTables hashStr m A ∧
      AllUnique A := by
  have hrun : (executeLog (htStep hashStr) (fun m e => HtLegal m e.op ∧ HtFresh hashStr m e.op)
      twoTables [] .empty).any (fun r => r.1.map Prod.snd = twoTablesReplies) = true := by
    decide +kernel
  obtain ⟨⟨log, m⟩, hr, hlog⟩ := (Option.any_eq_true _ _).mp hrun
  obtain ⟨A, hallows, hm, hu, -⟩ := hash_tables_refine_tables (logs_of_executeLog .nil hr)
  exact ⟨m, log, A, of_decide_eq_true hlog, hallows, hm, hu⟩

theorem exists_holdsTables (hrun : Logs (htStep hash) (fun m e => HtLegal m e.op) .empty log m) :
    ∃ A : Tables κ α, HoldsTables hash m A := by
  refine hrun.invariant (I := fun m => ∃ A : Tables κ α, HoldsTables hash m A)
    (E := fun e => Excused e.malloc) ⟨.empty, holdsTables_empty hash⟩ fun m e hm he => ?_
  obtain ⟨A, hm⟩ := hm
  exact (sat_htExec hm he).mono fun r ⟨A', _, hA'⟩ => ⟨A', hA'⟩

/-- In every run each live entry is one that the loop over some table visits, and each table object
is the one of the first entry of some table: nothing leaks. -/
theorem hash_tables_do_not_leak
    (hrun : Logs (htStep hash) (fun m e => HtLegal m e.op) .empty log m) :
    (∀ a e, m.entries.get? a = some e → ∃ h calls,
      htForEach m h (fun key data l => l ++ [(key, data)]) [] = .ok calls ∧ (e.key, e.data) ∈ calls) ∧
    (∀ i T, m.tables.get? i = some T → ∃ h head, m.hashTables.get? h = some (some head) ∧
      m.tblOf head = .ok i) ∧
    ((∀ h, m.hashTables.get? h = none) → ∀ i, m.entries.get? i = none ∧ m.tables.get? i = none) := by
  obtain ⟨A, layout, hl⟩ := exists_holdsTables hrun
  have hentry (a : EntryId) (e : HtEntry κ α) (he : m.entries.get? a = some e) : ∃ h calls,
      htForEach m h (fun key data l => l ++ [(key, data)]) [] = .ok calls ∧ (e.key, e.data) ∈ calls := by
    obtain ⟨h, t, ht, ha⟩ := hl.entry a e he
    obtain ⟨hh, rfl⟩ := hl.holds h t ht
    obtain ⟨x, hx, rfl⟩ := List.mem_map.mp ha
    obtain ⟨calls, hcalls, rfl⟩ := (hh.sat_htForEach (fun key data l => l ++ [(key, data)]) []).exists_ok
    refine ⟨h, _, hcalls, ?_⟩
    obtain ⟨e', he', -, -, -, hkey, hdata, -⟩ := HtMemory.exists_entry (hh.content hx)
    obtain rfl := Option.some.inj (he.symm.trans he')
    rw [hkey, hdata, foldl_calls]
    exact List.mem_map_of_mem hx
  have htable (i : UtTableId) (T : UtHashTable) (hT : m.tables.get? i = some T) : ∃ h head,
      m.hashTables.get? h = some (some head) ∧ m.tblOf head = .ok i := by
    obtain ⟨h, t, ht, hi⟩ := hl.table i T hT
    obtain ⟨hh, -⟩ := hl.holds h t ht
    obtain ⟨hnone, -⟩ | ⟨j, T', row, hj, hrep⟩ := hh.table
    · rw [hi] at hnone
      cases hnone
    · obtain rfl := Option.some.inj (hi.symm.trans hj)
      obtain ⟨head, hhead, hmem⟩ := hrep.exists_head
      exact ⟨h, head, hhead ▸ hh.head, hrep.tblOf hmem⟩
  refine ⟨hentry, htable, fun hfreed i => ⟨?_, ?_⟩⟩
  · cases he : m.entries.get? i with
    | none => rfl
    | some e =>
      obtain ⟨h, t, ht, -⟩ := hl.entry i e he
      have hlive := (hl.holds h t ht).1.head
      rw [hfreed h] at hlive
      cases hlive
  · cases hT : m.tables.get? i with
    | none => rfl
    | some T =>
      obtain ⟨h, head, hh, -⟩ := htable i T hT
      rw [hfreed h] at hh
      cases hh

theorem hash_tables_do_not_leak_sample : ∃ m : HtMemory ℕ ℕ, m.entries.next = 2 ∧
    ∀ i, m.entries.get? i = none ∧ m.tables.get? i = none := by
  have hrun : (executeLog (htStep multiples) (fun m e => HtLegal m e.op)
      ([.create, .add 0 1 10, .add 0 2 20, .free 0].map granting) [] .empty).any
      (fun r => r.2.hashTables = ⟨[none]⟩ ∧ r.2.entries.next = 2) = true := by decide +kernel
  obtain ⟨⟨log, m⟩, hr, hm⟩ := (Option.any_eq_true _ _).mp hrun
  obtain ⟨htables, hentries⟩ := of_decide_eq_true hm
  refine ⟨m, hentries, (hash_tables_do_not_leak (logs_of_executeLog .nil hr)).2.2 fun h => ?_⟩
  rw [htables]
  cases h <;> rfl

omit [DecidableEq κ] in
/-- `ht_to_list` puts the data of each entry in front of those of the entries before. -/
theorem HtHolds.sat_htToList [Inhabited α] {tbl : Option UtTableId} {items : Items κ α}
    {lists : Memory α} {S : Sequences α} (hh : HtHolds hash m h tbl items) (hS : Refines lists S) :
    Sat E (htToList m h lists) fun r => r.1 = S.next ∧
      Refines r.2 (S.alloc (items.map fun x => x.2.2).reverse) := by
  have hnew : Sat (fun x => E (.list x)) (listNew lists false []) fun r => Refines r.2 (S.alloc []) ∧
      r.1 = S.next ∧ cursorPosition r.2 S.next = 0 := by
    rw [listNew_eq, forEach_nil, ok_bind]
    refine ⟨hS.withEmpty false, hS.next, ?_⟩
    rw [cursorPosition, ← hS.next]
    simp only [withEmpty, Heap.get?_alloc_next]
  simp only [htToList]
  apply (sat_mapError.mpr hnew).bind
  rintro ⟨l, lists₁⟩ ⟨hr, hl, hfront⟩
  dsimp only at hr hl hfront ⊢
  subst hl
  refine (hh.sat_htIter (fun ys lists => ∃ xs, xs ++ ys = items ∧
    Refines lists (S.alloc (xs.map fun x => x.2.2).reverse) ∧ cursorPosition lists S.next = 0)
    ?_ ?_ ⟨[], rfl, hr, hfront⟩).bind ?_
  · rintro ys s ⟨xs, hxs, -⟩
    have hseg := hh.seg
    rw [← hxs, ids_append] at hseg
    exact nextOf_seg (Links.seg_append.mp hseg).2
  · rintro x ys lists' ⟨xs, hxs, hlists, hcursor⟩
    have hx : x ∈ items := hxs ▸ List.mem_append_right _ List.mem_cons_self
    obtain ⟨e, -, hre, -, -, -, hdata, -, -⟩ := HtMemory.exists_entry (hh.content hx)
    simp only [hre, ok_bind, hdata]
    apply (sat_mapError.mpr (sat_listAdd_front hlists Heap.get?_alloc_next hcursor)).mono
    rintro lists'' ⟨hlists', hcursor'⟩
    rw [Heap.write_alloc] at hlists'
    refine ⟨xs ++ [x], by rw [List.append_assoc]; exact hxs, ?_, hcursor'⟩
    rw [List.map_append, List.reverse_append]
    exact hlists'
  · rintro lists' ⟨xs, hxs, hlists, -⟩
    rw [List.append_nil] at hxs
    subst hxs
    exact ⟨rfl, hlists⟩

/-- In every run `ht_to_list` gives a list of the data of the entries, the last one first, whatever
other lists there are. -/
theorem hash_tables_to_lists [Inhabited α] {lists : Memory α} {S : Sequences α}
    (hrun : Logs (htStep hash) (fun m e => HtLegal m e.op) .empty log m)
    (hlive : (m.hashTables.get? h).isSome = true) (hS : Refines lists S) :
    ∃ calls lists', htForEach m h (fun key data l => l ++ [(key, data)]) [] = .ok calls ∧
      htToList m h lists = .ok (S.next, lists') ∧
      Refines lists' (S.alloc (calls.map Prod.snd).reverse) := by
  obtain ⟨A, layout, hl⟩ := exists_holdsTables hrun
  obtain ⟨t, ht⟩ := hl.exists_table hlive
  obtain ⟨hh, -⟩ := hl.holds h t ht
  obtain ⟨calls, hcalls, rfl⟩ := (hh.sat_htForEach (fun key data l => l ++ [(key, data)]) []).exists_ok
  obtain ⟨⟨l, lists'⟩, hlist, hl, hlists⟩ := (hh.sat_htToList hS).exists_ok
  dsimp only at hl hlists
  subst hl
  refine ⟨_, lists', hcalls, hlist, ?_⟩
  rw [foldl_calls, List.nil_append, List.map_map]
  exact hlists

theorem hash_tables_to_lists_sample : ∃ (m : HtMemory ℕ ℕ) (lists : Memory ℕ),
    htToList m 0 .empty = .ok (0, lists) ∧ Refines lists ((Heap.empty : Sequences ℕ).alloc [20, 10]) := by
  have hrun : (executeLog (htStep multiples) (fun m e => HtLegal m e.op)
      ([.create, .add 0 1 10, .add 0 2 20].map granting) [] .empty).any
      (fun r => (r.2.hashTables.get? 0).isSome = true ∧ returnsWith (htForEach r.2 0
        (fun key data l => l ++ [(key, data)]) []) (fun l => l = [(1, 10), (2, 20)])) = true := by
    decide +kernel
  obtain ⟨⟨log, m⟩, hr, hm⟩ := (Option.any_eq_true _ _).mp hrun
  obtain ⟨hlive, hcalls⟩ := of_decide_eq_true hm
  obtain ⟨calls, lists, hfor, hlist, hlists⟩ :=
    hash_tables_to_lists (logs_of_executeLog .nil hr) hlive refines_empty
  obtain ⟨l, hl, hpairs⟩ := returnsWith_iff.mp hcalls
  obtain rfl := Except.ok.inj (hfor.symm.trans hl)
  rw [of_decide_eq_true hpairs] at hlists
  exact ⟨m, lists, hlist, hlists⟩

end TagFilesystem.Cutil
