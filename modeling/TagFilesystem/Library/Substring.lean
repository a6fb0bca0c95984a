import Mathlib.Data.List.Infix

namespace TagFilesystem

variable {α : Type*} [DecidableEq α] {d l p : List α} {i j : ℕ}

/-- The number of elements before the first occurrence of `d`. -/
def firstOccurrence (d : List α) : List α → Option ℕ
  | [] => if d = [] then some 0 else none
  | a :: l => if d <+: a :: l then some 0 else (firstOccurrence d l).map (· + 1)

theorem prefix_drop_of_firstOccurrence (h : firstOccurrence d l = some i) : d <+: l.drop i := by
  induction l generalizing i with
  | nil =>
    rw [firstOccurrence] at h
    split_ifs at h with hd
    rw [hd]
    exact List.nil_prefix
  | cons a l ih =>
    rw [firstOccurrence] at h
    split_ifs at h with hd
    · cases h
      exact hd
    · obtain ⟨k, hk, rfl⟩ := Option.map_eq_some_iff.mp h
      exact ih hk

theorem not_prefix_drop_of_lt (h : firstOccurrence d l = some i) (hj : j < i) : ¬ d <+: l.drop j := by
  induction l generalizing i j with
  | nil =>
    rw [firstOccurrence] at h
    split_ifs at h
    cases h
    exact absurd hj (Nat.not_lt_zero _)
  | cons a l ih =>
    rw [firstOccurrence] at h
    split_ifs at h with hd
    · cases h
      exact absurd hj (Nat.not_lt_zero _)
    · obtain ⟨k, hk, rfl⟩ := Option.map_eq_some_iff.mp h
      cases j with
      | zero => exact hd
      | succ j => exact ih hk (Nat.lt_of_succ_lt_succ hj)

theorem firstOccurrence_eq_none : firstOccurrence d l = none ↔ ¬ d <:+: l := by
  induction l with
  | nil => simp [firstOccurrence]
  | cons a l ih =>
    rw [firstOccurrence, List.infix_cons_iff]
    split_ifs with hd
    · simp [hd]
    · simp [hd, ih]

theorem length_le_of_firstOccurrence (h : firstOccurrence d l = some i) (hd : d ≠ []) :
    i + d.length ≤ l.length := by
  have hlen := (prefix_drop_of_firstOccurrence h).length_le
  have hpos := List.length_pos_iff.mpr hd
  rw [List.length_drop] at hlen
  omega

theorem not_infix_take (h : firstOccurrence d l = some i) (hd : d ≠ []) : ¬ d <:+: l.take i := by
  rintro ⟨s, t, hst⟩
  have hpos := List.length_pos_iff.mpr hd
  have hlen := congrArg List.length hst
  simp only [List.length_append, List.length_take] at hlen
  refine not_prefix_drop_of_lt h (j := s.length) (by omega) ⟨t ++ l.drop i, ?_⟩
  have hl : s ++ (d ++ (t ++ l.drop i)) = l := by
    rw [← List.append_assoc d, ← List.append_assoc s, ← List.append_assoc s, hst, List.take_append_drop]
  have hdrop := congrArg (List.drop s.length) hl
  rwa [List.drop_left] at hdrop

theorem take_append_append_drop (h : firstOccurrence d l = some i) :
    l.take i ++ d ++ l.drop (i + d.length) = l := by
  obtain ⟨t, ht⟩ := prefix_drop_of_firstOccurrence h
  have hrest : l.drop (i + d.length) = t := by
    rw [← List.drop_drop, ← ht, List.drop_left]
  rw [hrest, List.append_assoc, ht, List.take_append_drop]

/-- The first `n` occurrences are cut out. -/
def piecesWithin (d : List α) : ℕ → List α → List (List α)
  | 0, l => [l]
  | n + 1, l =>
    match firstOccurrence d l with
    | none => [l]
    | some i => l.take i :: piecesWithin d n (l.drop (i + d.length))

/-- The pieces between the occurrences of `d`; the search goes on behind each. -/
def pieces (d l : List α) : List (List α) := piecesWithin d l.length l

theorem length_drop_lt (h : firstOccurrence d l = some i) (hd : d ≠ []) :
    (l.drop (i + d.length)).length < l.length := by
  have hle := length_le_of_firstOccurrence h hd
  have hpos := List.length_pos_iff.mpr hd
  rw [List.length_drop]
  omega

theorem piecesWithin_eq {n m : ℕ} (hd : d ≠ []) (hn : l.length ≤ n) (hm : l.length ≤ m) :
    piecesWithin d n l = piecesWithin d m l := by
  induction n generalizing m l with
  | zero =>
    obtain rfl := List.length_eq_zero_iff.mp (Nat.le_zero.mp hn)
    cases m with
    | zero => rfl
    | succ m => simp [piecesWithin, firstOccurrence, hd]
  | succ n ih =>
    cases m with
    | zero =>
      obtain rfl := List.length_eq_zero_iff.mp (Nat.le_zero.mp hm)
      simp [piecesWithin, firstOccurrence, hd]
    | succ m =>
      rw [piecesWithin, piecesWithin]
      cases h : firstOccurrence d l with
      | none => rfl
      | some i =>
        have hlt := length_drop_lt h hd
        exact congrArg _ (ih (by omega) (by omega))

theorem pieces_of_none (h : firstOccurrence d l = none) : pieces d l = [l] := by
  rw [pieces]
  cases l with
  | nil => rfl
  | cons a l => simp only [List.length_cons, piecesWithin, h]

theorem pieces_of_some (h : firstOccurrence d l = some i) (hd : d ≠ []) :
    pieces d l = l.take i :: pieces d (l.drop (i + d.length)) := by
  have hlt := length_drop_lt h hd
  obtain ⟨n, hn⟩ := Nat.exists_eq_succ_of_ne_zero (Nat.ne_of_gt (Nat.zero_lt_of_lt hlt))
  rw [pieces, hn, piecesWithin, h]
  exact congrArg _ (piecesWithin_eq hd (by omega) (Nat.le_refl _))

theorem pieces_induction {P : List α → Prop} (hd : d ≠ [])
    (hnone : ∀ l, firstOccurrence d l = none → P l)
    (hsome : ∀ l i, firstOccurrence d l = some i → P (l.drop (i + d.length)) → P l) (l : List α) :
    P l := by
  induction hn : l.length using Nat.strong_induction_on generalizing l with
  | _ n ih =>
    subst hn
    cases h : firstOccurrence d l with
    | none => exact hnone l h
    | some i =>
      exact hsome l i h (ih _ (length_drop_lt h hd) _ rfl)

theorem pieces_ne_nil (hd : d ≠ []) (l : List α) : pieces d l ≠ [] := by
  cases h : firstOccurrence d l with
  | none => simp [pieces_of_none h]
  | some i => simp [pieces_of_some h hd]

theorem intercalate_pieces (hd : d ≠ []) (l : List α) : d.intercalate (pieces d l) = l := by
  induction l using pieces_induction hd with
  | hnone l h => rw [pieces_of_none h, List.intercalate_singleton]
  | hsome l i h ih =>
    rw [pieces_of_some h hd, List.intercalate_cons_of_ne_nil (pieces_ne_nil hd _), ih]
    exact take_append_append_drop h

theorem not_infix_of_mem_pieces (hd : d ≠ []) (l : List α) : ∀ p ∈ pieces d l, ¬ d <:+: p := by
  induction l using pieces_induction hd with
  | hnone l h =>
    intro p hp
    rw [pieces_of_none h, List.mem_singleton] at hp
    rw [hp]
    exact firstOccurrence_eq_none.mp h
  | hsome l i h ih =>
    intro p hp
    rw [pieces_of_some h hd] at hp
    rcases List.mem_cons.mp hp with rfl | hp
    · exact not_infix_take h hd
    · exact ih p hp

end TagFilesystem
