import Mathlib.Data.List.Nodup
import Mathlib.Data.List.Basic

namespace TagFilesystem

structure Table (κ α : Type*) where
  entries : List (κ × α)
  deriving Repr, DecidableEq

namespace Table

section Basic

variable {κ α : Type*}

def empty : Table κ α := ⟨[]⟩

def keys (t : Table κ α) : List κ := t.entries.map Prod.fst

def size (t : Table κ α) : ℕ := t.entries.length

def add (t : Table κ α) (k : κ) (v : α) : Table κ α := ⟨t.entries ++ [(k, v)]⟩

/-- No key occurs twice. -/
def Unique (t : Table κ α) : Prop := t.keys.Nodup

@[simp] theorem keys_empty : (empty : Table κ α).keys = [] := rfl

@[simp] theorem entries_empty : (empty : Table κ α).entries = [] := rfl

theorem unique_empty : (empty : Table κ α).Unique := List.nodup_nil

@[simp] theorem entries_add (t : Table κ α) (k : κ) (v : α) :
    (t.add k v).entries = t.entries ++ [(k, v)] := rfl

theorem entries_foldl_add {β : Type*} (k : κ) (g : β → α) (l : List β) (t : Table κ α) :
    (l.foldl (fun t b => t.add k (g b)) t).entries = t.entries ++ l.map fun b => (k, g b) := by
  induction l generalizing t with
  | nil => simp
  | cons b l ih => simp [ih]

theorem size_eq_zero {t : Table κ α} : t.size = 0 ↔ t.entries = [] := by simp [size]

end Basic

variable {κ α : Type*} [DecidableEq κ] {t : Table κ α} {k k' : κ} {v w : α}

def get? (t : Table κ α) (k : κ) : Option α :=
  (t.entries.reverse.find? fun e => e.1 = k).map Prod.snd

def contains (t : Table κ α) (k : κ) : Bool := (t.get? k).isSome

/-- Insertion that leaves an existing entry of the key alone. -/
def addNew (t : Table κ α) (k : κ) (v : α) : Table κ α := if t.contains k then t else t.add k v

/-- Removes the entry that a search finds, if any. -/
def erase (t : Table κ α) (k : κ) : Table κ α :=
  ⟨(t.entries.reverse.eraseP fun e => e.1 = k).reverse⟩

/-- Removes the entries of one value, whatever their key. -/
def eraseValue [DecidableEq α] (t : Table κ α) (v : α) : Table κ α :=
  ⟨t.entries.filter fun e => e.2 ≠ v⟩

/-- Changes the values under a key in place. -/
def modify (t : Table κ α) (k : κ) (f : α → α) : Table κ α :=
  ⟨t.entries.map fun e => if e.1 = k then (e.1, f e.2) else e⟩

@[simp] theorem get?_empty : (empty : Table κ α).get? k = none := rfl

theorem get?_add : (t.add k v).get? k' = if k = k' then some v else t.get? k' := by
  by_cases h : k = k' <;> simp [get?, add, h]

@[simp] theorem get?_add_self : (t.add k v).get? k = some v := by simp [get?_add]

theorem mem_of_get? (h : t.get? k = some v) : (k, v) ∈ t.entries := by
  obtain ⟨e, he, rfl⟩ := Option.map_eq_some_iff.mp h
  have hk : e.1 = k := by simpa using List.find?_some he
  have hm := List.mem_of_find?_eq_some he
  subst hk
  simpa using hm

theorem get?_eq_none : t.get? k = none ↔ k ∉ t.keys := by
  simp only [get?, keys, Option.map_eq_none_iff, List.find?_eq_none, List.mem_reverse,
    decide_eq_true_eq, List.mem_map, not_exists, not_and]

theorem contains_iff : t.contains k = true ↔ k ∈ t.keys := by
  rw [contains, Option.isSome_iff_ne_none, ne_eq, get?_eq_none, not_not]

theorem contains_iff_get? : t.contains k = true ↔ ∃ v, t.get? k = some v :=
  Option.isSome_iff_exists

@[simp] theorem contains_eq_false : t.contains k = false ↔ t.get? k = none := by
  simp [contains]

theorem mem_keys_of_get? (h : t.get? k = some v) : k ∈ t.keys :=
  List.mem_map_of_mem (mem_of_get? h)

theorem Unique.add (h : t.Unique) (hk : t.get? k = none) : (t.add k v).Unique := by
  rw [get?_eq_none] at hk
  simp only [Unique, keys, Table.add, List.map_append, List.map_cons, List.map_nil]
  exact List.nodup_append.mpr ⟨h, List.nodup_singleton _, by
    intro a ha b hb hab
    rw [List.mem_singleton.mp hb] at hab
    exact hk (hab ▸ ha)⟩

theorem Unique.addNew (h : t.Unique) : (t.addNew k v).Unique := by
  unfold Table.addNew
  split
  · exact h
  · next hc => exact h.add (by simpa using hc)

theorem Unique.get?_eq_some (h : t.Unique) : t.get? k = some v ↔ (k, v) ∈ t.entries := by
  refine ⟨mem_of_get?, fun hm => ?_⟩
  have hk : k ∈ t.keys := List.mem_map_of_mem hm
  obtain ⟨w, hw⟩ := Option.ne_none_iff_exists'.mp (mt get?_eq_none.mp (not_not_intro hk))
  have he := List.inj_on_of_nodup_map h hm (mem_of_get? hw) rfl
  have hv : v = w := congrArg Prod.snd he
  rw [hw, hv]

theorem entries_erase_sublist : (t.erase k).entries.Sublist t.entries := by
  have h := (List.eraseP_sublist (p := fun e : κ × α => e.1 = k) (l := t.entries.reverse)).reverse
  simpa [erase] using h

theorem Unique.erase (h : t.Unique) : (t.erase k).Unique :=
  h.sublist (entries_erase_sublist.map Prod.fst)

theorem Unique.mem_erase (h : t.Unique) :
    (k', v) ∈ (t.erase k).entries ↔ (k', v) ∈ t.entries ∧ k' ≠ k := by
  have hr : (t.entries.reverse.map Prod.fst).Nodup := by
    rw [List.map_reverse]
    exact List.nodup_reverse.mpr h
  constructor
  · intro hm
    refine ⟨entries_erase_sublist.subset hm, ?_⟩
    rintro rfl
    -- the erased entry is the only one with this key
    simp only [Table.erase, List.mem_reverse] at hm
    generalize t.entries.reverse = l at hr hm
    induction l with
    | nil => simp at hm
    | cons e l ih =>
      rw [List.map_cons, List.nodup_cons] at hr
      by_cases he : e.1 = k'
      · rw [List.eraseP_cons_of_pos (by simpa using he)] at hm
        exact hr.1 (he ▸ List.mem_map_of_mem hm)
      · rw [List.eraseP_cons_of_neg (by simpa using he)] at hm
        rcases List.mem_cons.mp hm with hm | hm
        · exact he (by rw [← hm])
        · exact ih hr.2 hm
  · rintro ⟨hm, hk⟩
    simp only [Table.erase, List.mem_reverse]
    exact (List.mem_eraseP_of_neg (by simpa using hk)).mpr (List.mem_reverse.mpr hm)

theorem Unique.get?_erase (h : t.Unique) :
    (t.erase k).get? k' = if k' = k then none else t.get? k' := by
  ext v
  rw [h.erase.get?_eq_some, h.mem_erase]
  split_ifs with hk <;> simp [hk, h.get?_eq_some]

@[simp] theorem Unique.get?_erase_self (h : t.Unique) : (t.erase k).get? k = none := by
  simp [h.get?_erase]

theorem Unique.get?_foldl_erase {β : Type*} (h : t.Unique) (l : List (κ × β)) :
    (l.foldl (fun t e => t.erase e.1) t).Unique ∧ ∀ k v,
      (l.foldl (fun t e => t.erase e.1) t).get? k = some v ↔
        k ∉ l.map Prod.fst ∧ t.get? k = some v := by
  induction l generalizing t with
  | nil => exact ⟨h, by simp⟩
  | cons e l ih =>
    obtain ⟨hu, hget⟩ := ih (t := t.erase e.1) h.erase
    refine ⟨hu, fun k v => ?_⟩
    rw [List.foldl_cons, hget, h.get?_erase]
    by_cases hk : k = e.1
    · simp [hk]
    · rw [if_neg hk, List.map_cons, List.mem_cons]
      simp only [hk, false_or]

theorem Unique.get?_erase_ne (h : t.Unique) (hk : k' ≠ k) : (t.erase k).get? k' = t.get? k' := by
  simp [h.get?_erase, hk]

theorem perm_erase (h : t.get? k = some v) : t.entries.Perm ((k, v) :: (t.erase k).entries) := by
  obtain ⟨e, he, rfl⟩ := Option.map_eq_some_iff.mp h
  obtain ⟨hk, as, bs, hl, hno⟩ := List.find?_eq_some_iff_append.mp he
  have hr : t.entries.reverse.eraseP (fun e => e.1 = k) = as ++ bs := by
    have hb : (e :: bs).eraseP (fun e => e.1 = k) = bs := List.eraseP_cons_of_pos hk
    rw [hl, List.eraseP_append_right _ (by simpa using hno), hb]
  have hke : (k, e.2) = e := by
    simp only [decide_eq_true_eq] at hk
    rw [← hk]
  rw [hke]
  calc t.entries.Perm t.entries.reverse := (List.reverse_perm _).symm
    _ = as ++ e :: bs := hl
    List.Perm _ (e :: (as ++ bs)) := List.perm_middle
    List.Perm _ (e :: (t.erase k).entries) := by
      simp only [erase, hr]
      exact (List.reverse_perm _).symm.cons e

theorem erase_of_get?_none (h : t.get? k = none) : t.erase k = t := by
  rw [get?_eq_none] at h
  have hr : t.entries.reverse.eraseP (fun e => e.1 = k) = t.entries.reverse := by
    apply List.eraseP_of_forall_not
    intro e he hk
    exact h (List.mem_map.mpr ⟨e, List.mem_reverse.mp he, by simpa using hk⟩)
  simp [erase, hr]

theorem get?_addNew : (t.addNew k v).get? k' =
    if k = k' then some ((t.get? k).getD v) else t.get? k' := by
  unfold addNew
  split_ifs with hc hk hk
  · subst hk
    obtain ⟨w, hw⟩ := contains_iff_get?.mp hc
    simp [hw]
  · rfl
  · subst hk
    have hn : t.get? k = none := by simpa using hc
    simp [hn]
  · simp [get?_add, hk]

theorem contains_addNew : (t.addNew k v).contains k' = true ↔ k' = k ∨ t.contains k' = true := by
  simp only [contains, get?_addNew]
  by_cases h : k = k'
  · simp [h]
  · simp [h, Ne.symm h]

theorem mem_keys_addNew : k' ∈ (t.addNew k v).keys ↔ k' = k ∨ k' ∈ t.keys := by
  rw [← contains_iff, contains_addNew, contains_iff]

theorem mem_entries_addNew {e : κ × α} (hold : ∀ w, (k, w) ∈ t.entries → w = v) :
    e ∈ (t.addNew k v).entries ↔ e ∈ t.entries ∨ e = (k, v) := by
  unfold addNew
  split_ifs with hc
  · obtain ⟨w, hw⟩ := contains_iff_get?.mp hc
    have hmem := mem_of_get? hw
    obtain rfl := hold w hmem
    constructor
    · exact Or.inl
    · rintro (he | rfl)
      · exact he
      · exact hmem
  · rw [entries_add, List.mem_append, List.mem_singleton]

theorem map_modify {β : Type*} {f : α → α} {g : α → β} (h : ∀ v, g (f v) = g v) :
    (t.modify k f).entries.map (fun e => g e.2) = t.entries.map fun e => g e.2 := by
  simp only [modify, List.map_map]
  congr 1
  funext e
  dsimp only [Function.comp]
  split_ifs
  · exact h e.2
  · rfl

@[simp] theorem keys_modify (f : α → α) : (t.modify k f).keys = t.keys := by
  simp only [keys, modify, List.map_map]
  congr 1
  funext e
  dsimp only [Function.comp]
  split_ifs
  · rfl
  · rfl

theorem get?_modify (f : α → α) :
    (t.modify k f).get? k' = if k' = k then (t.get? k').map f else t.get? k' := by
  have hkey : (fun e : κ × α => decide (e.1 = k')) ∘ (fun e => if e.1 = k then (e.1, f e.2) else e) =
      fun e => decide (e.1 = k') := by
    funext e
    dsimp only [Function.comp]
    split_ifs <;> rfl
  simp only [get?, modify, ← List.map_reverse, List.find?_map, hkey, Option.map_map]
  cases he : t.entries.reverse.find? fun e => e.1 = k' with
  | none => simp
  | some e =>
    have hek : e.1 = k' := by simpa using List.find?_some he
    simp only [Option.map_some, Function.comp, hek]
    split_ifs <;> rfl

theorem get?_of_entries_nil (h : t.entries = []) : t.get? k = none := by simp [get?, h]

end Table

end TagFilesystem
