import Mathlib.Data.List.Dedup

namespace TagFilesystem

/-- A row, as the values of its columns. A column that is missing counts as null. -/
abbrev Row (ν α : Type*) := List (ν × α)

inductive Query (ν α : Type*)
  | table (name : ν)
  | select (distinct : Bool) (column : ν) (source : Query ν α)
  | whereIn (source : Query ν α) (column : ν) (negated : Bool) (values : List α)
  | whereInQuery (source : Query ν α) (column : ν) (negated : Bool) (query : Query ν α)
  deriving DecidableEq

/-- The values in the rows, column by column. -/
def rowValues {ν α : Type*} (rows : List (Row ν α)) : List α := rows.flatMap fun r => r.map Prod.snd

section

variable {ν α : Type*} [DecidableEq ν] [DecidableEq α]

def Row.value? (r : Row ν α) (column : ν) : Option α := r.lookup column

/-- The test `column IN values`; null is neither in nor not in. -/
def Row.among (r : Row ν α) (column : ν) (negated : Bool) (values : List α) : Bool :=
  (r.value? column).any fun v => decide (v ∈ values) != negated

namespace Query

def eval (tables : ν → List (Row ν α)) : Query ν α → List (Row ν α)
  | table name => tables name
  | select distinct column source =>
    let rows := (eval tables source).filterMap fun r =>
      (r.value? column).map fun v => ([(column, v)] : Row ν α)
    if distinct then rows.dedup else rows
  | whereIn source column negated values =>
    (eval tables source).filter fun r => r.among column negated values
  | whereInQuery source column negated query =>
    (eval tables source).filter fun r => r.among column negated (rowValues (eval tables query))

variable {tables : ν → List (Row ν α)} {q q' : Query ν α} {c c' : ν} {r : Row ν α} {v : α} {b : Bool}
  {values : List α}

theorem mem_select : r ∈ (select b c q).eval tables ↔
    ∃ r' ∈ q.eval tables, ∃ v, r'.value? c = some v ∧ r = [(c, v)] := by
  have h : r ∈ (select b c q).eval tables ↔ r ∈ (q.eval tables).filterMap fun r =>
      (r.value? c).map fun v => ([(c, v)] : Row ν α) := by
    cases b with
    | false => exact Iff.rfl
    | true => exact List.mem_dedup
  simp only [h, List.mem_filterMap, Option.map_eq_some_iff, eq_comm (a := r)]

theorem mem_rowValues_select : v ∈ rowValues ((select b c q).eval tables) ↔
    ∃ r ∈ q.eval tables, r.value? c = some v := by
  simp only [rowValues, List.mem_flatMap, mem_select]
  constructor
  · rintro ⟨_, ⟨r, hr, w, hw, rfl⟩, hv⟩
    obtain rfl : v = w := by simpa using hv
    exact ⟨r, hr, hw⟩
  · rintro ⟨r, hr, hv⟩
    exact ⟨_, ⟨r, hr, v, hv, rfl⟩, by simp⟩

theorem among_iff : r.among c b values = true ↔
    ∃ v, r.value? c = some v ∧ (v ∈ values ↔ b = false) := by
  unfold Row.among
  cases r.value? c with
  | none => simp
  | some v => cases b <;> simp

theorem mem_whereIn : r ∈ (whereIn q c b values).eval tables ↔
    r ∈ q.eval tables ∧ ∃ v, r.value? c = some v ∧ (v ∈ values ↔ b = false) := by
  rw [← among_iff]
  exact List.mem_filter

theorem mem_select_whereIn_select {i j : Bool} :
    v ∈ rowValues ((select b c (whereIn (select j c q) c i values)).eval tables) ↔
      v ∈ rowValues ((select j c q).eval tables) ∧ (v ∈ values ↔ i = false) := by
  rw [mem_rowValues_select, mem_rowValues_select]
  simp only [mem_whereIn, mem_select]
  constructor
  · rintro ⟨_, ⟨⟨r, hr, w, hw, rfl⟩, u, hu, hin⟩, hv⟩
    obtain rfl : w = v := by simpa [Row.value?] using hv
    obtain rfl : w = u := by simpa [Row.value?] using hu
    exact ⟨⟨r, hr, hw⟩, hin⟩
  · rintro ⟨⟨r, hr, hv⟩, hin⟩
    have hself : Row.value? [(c, v)] c = some v := by simp [Row.value?]
    exact ⟨_, ⟨⟨r, hr, v, hv, rfl⟩, v, hself, hin⟩, hself⟩

theorem rowValues_select : rowValues ((select false c q).eval tables) =
    (q.eval tables).filterMap fun r => r.value? c := by
  simp only [eval, rowValues, Bool.false_eq_true, if_false]
  induction q.eval tables with
  | nil => rfl
  | cons r l ih =>
    cases hv : r.value? c with
    | none => simpa [hv] using ih
    | some v => simpa [hv] using ih

theorem rowValues_where_sublist {i : Bool} :
    (rowValues ((select false c (whereInQuery q c' i q')).eval tables)).Sublist
      (rowValues ((select false c q).eval tables)) := by
  rw [rowValues_select, rowValues_select]
  exact List.filter_sublist.filterMap _

theorem rowValues_select_where_sublist {i : Bool} :
    (rowValues ((select false c (whereIn (select false c q) c' i values)).eval tables)).Sublist
      (rowValues ((select false c q).eval tables)) := by
  have hself : ((select false c q).eval tables).filterMap (fun r => r.value? c) =
      (q.eval tables).filterMap fun r => r.value? c := by
    simp only [eval, Bool.false_eq_true, if_false, List.filterMap_filterMap]
    congr 1
    funext r
    cases r.value? c with
    | none => rfl
    | some v => simp [Row.value?]
  rw [rowValues_select, rowValues_select, ← hself]
  exact List.filter_sublist.filterMap _

variable {β : Type*} {l : List β} {row : β → Row ν α} {name : ν} {i : Bool}

theorem mem_select_whereIn (ht : tables name = l.map row) :
    v ∈ rowValues ((select b c (whereIn (table name) c' i values)).eval tables) ↔
      ∃ e ∈ l, (row e).value? c = some v ∧ (row e).among c' i values = true := by
  rw [mem_rowValues_select]
  simp only [mem_whereIn, ← among_iff]
  rw [eval, ht]
  constructor
  · rintro ⟨r, ⟨hr, hin⟩, hv⟩
    obtain ⟨e, he, rfl⟩ := List.mem_map.mp hr
    exact ⟨e, he, hv, hin⟩
  · rintro ⟨e, he, hv, hin⟩
    exact ⟨row e, ⟨List.mem_map_of_mem he, hin⟩, hv⟩

theorem mem_select_whereInQuery (ht : tables name = l.map row) :
    v ∈ rowValues ((select b c (whereInQuery (table name) c' i q')).eval tables) ↔
      ∃ e ∈ l, (row e).value? c = some v ∧
        (row e).among c' i (rowValues (q'.eval tables)) = true := by
  have h : (select b c (whereInQuery (table name) c' i q')).eval tables =
      (select b c (whereIn (table name) c' i (rowValues (q'.eval tables)))).eval tables := rfl
  rw [h, mem_select_whereIn ht]

end Query

end

end TagFilesystem
