import TagFilesystem.Library.Outcome
import TagFilesystem.Posix

namespace TagFilesystem

variable {names : List CStr} {n str : CStr} {size : ℕ} {i : ℕ}

/-- The names, joined by single spaces. -/
def joined : List CStr → CStr
  | [] => []
  | n :: names => n ++ names.flatMap fun m => cstr [32] ++ m

theorem joined_concat (names : List CStr) (n : CStr) :
    joined (names ++ [n]) = joined names ++ (if names.length = 0 then [] else cstr [32]) ++ n := by
  cases names with
  | nil => simp [joined]
  | cons m names =>
    rw [if_neg (by simp)]
    simp [joined, List.append_assoc]

/-- The loop of `file_get_tags_string`: `body` appends the name that `value` gives to a tag, sets
the length with `g` and counts. -/
theorem forEach_joined {α γ E : Type} {g : CStr → γ} {value : α → CStr → Prop}
    {b : CStr × γ × ℕ → α → Except E (CStr × γ × ℕ)}
    (hbody : ∀ str c k a n, value a n → b (str, c, k) a =
      .ok (str ++ (if k = 0 then [] else cstr [32]) ++ n,
        g (str ++ (if k = 0 then [] else cstr [32]) ++ n), k + 1))
    {l : List α} (h : List.Forall₂ value l names) (c : γ) : forEach l b ([], c, 0) =
      .ok (joined names, if names = [] then c else g (joined names), names.length) := by
  -- `done` are the names that the loop has passed
  have hloop : ∀ {l : List α} {rest : List CStr}, List.Forall₂ value l rest → ∀ done c,
      forEach l b (joined done, c, done.length) = .ok (joined (done ++ rest),
        if rest = [] then c else g (joined (done ++ rest)), (done ++ rest).length) := by
    intro l rest h
    induction h with
    | nil =>
      intro done c
      rw [List.append_nil, if_pos rfl]
      rfl
    | @cons a n l rest ha _ ih =>
      intro done c
      have hstep : b (joined done, c, done.length) a = .ok (joined (done ++ [n]),
          g (joined (done ++ [n])), (done ++ [n]).length) := by
        rw [hbody _ _ _ _ _ ha, ← joined_concat, List.length_append]
        rfl
      have hnext := ih (done ++ [n]) (g (joined (done ++ [n])))
      rw [List.append_assoc, List.singleton_append] at hnext
      rw [forEach_cons, hstep, if_neg (List.cons_ne_nil n rest)]
      apply hnext.trans
      split_ifs with hrest
      · rw [hrest]
      · rfl
  exact hloop h [] c

theorem length_strncpy (str : CStr) (size : ℕ) : (strncpy str size).length = size := by
  rw [strncpy, List.length_append, List.length_map, List.length_take, List.length_replicate]
  omega

theorem strncpy_of_le (h : str.length ≤ size) :
    strncpy str size = str.map Subtype.val ++ List.replicate (size - str.length) 0 := by
  rw [strncpy, List.take_of_length_le h]

/-- The writes to `buf` by `strncpy` and by the assignment of the final NUL. -/
def ioctlWrites (str : CStr) : List (ℕ × UInt8) :=
  ((strncpy str bufsize).zipIdx.map fun b => (b.2, b.1)) ++ [(bufsize, 0)]

/-- The byte that the last write to an index has left there. -/
def byteAt (writes : List (ℕ × UInt8)) (i : ℕ) : Option UInt8 :=
  (writes.reverse.find? fun w => w.1 = i).map Prod.snd

/-- Every write is inside the array. -/
def InBuffer (writes : List (ℕ × UInt8)) : Prop := ∀ w ∈ writes, w.1 < bufsize

/-- The array holds a NUL-terminated string that starts the joined names, all of them when they
fit, and `size` is its length. -/
def Reports (names : List CStr) (size : ℤ) (writes : List (ℕ × UInt8)) : Prop :=
  ∃ str, str <+: joined names ∧ ((joined names).length < bufsize → str = joined names) ∧
    str.length < bufsize ∧ (∀ i < str.length, byteAt writes i = str[i]?.map Subtype.val) ∧
    byteAt writes str.length = some 0 ∧ size = str.length

theorem not_inBuffer (str : CStr) : ¬ InBuffer (ioctlWrites str) := by
  intro h
  have hlast : (bufsize, (0 : UInt8)) ∈ ioctlWrites str :=
    List.mem_append_right _ (List.mem_singleton_self _)
  exact absurd (h _ hlast) (Nat.lt_irrefl bufsize)

theorem byteAt_zipIdx (bytes : List UInt8) (i : ℕ) :
    byteAt (bytes.zipIdx.map fun b => (b.2, b.1)) i = bytes[i]? := by
  induction bytes using List.reverseRecOn with
  | nil => rfl
  | append_singleton bytes b ih =>
    have hsplit : ((bytes ++ [b]).zipIdx.map fun b => (b.2, b.1)).reverse =
        (bytes.length, b) :: (bytes.zipIdx.map fun b => (b.2, b.1)).reverse := by
      simp [List.zipIdx_append]
    rw [byteAt, hsplit]
    by_cases hi : bytes.length = i
    · rw [List.find?_cons_of_pos (by simpa using hi), ← hi, List.getElem?_concat_length]
      rfl
    · rw [List.find?_cons_of_neg (by simpa using hi)]
      apply ih.trans
      rcases Nat.lt_or_gt_of_ne hi with hlt | hgt
      · rw [List.getElem?_eq_none hlt.le, List.getElem?_eq_none (by rw [List.length_append]; exact hlt)]
      · rw [List.getElem?_append_left hgt]

theorem byteAt_ioctlWrites (str : CStr) (i : ℕ) :
    byteAt (ioctlWrites str) i = (strncpy str bufsize ++ [0])[i]? := by
  rw [← byteAt_zipIdx, List.zipIdx_append, List.map_append, length_strncpy]
  rfl

theorem reports_joined (h : (joined names).length < bufsize) :
    Reports names (joined names).length (ioctlWrites (joined names)) := by
  have hbytes : strncpy (joined names) bufsize ++ [0] =
      (joined names).map Subtype.val ++ List.replicate (bufsize - (joined names).length + 1) 0 := by
    rw [strncpy_of_le h.le, List.append_assoc, List.replicate_succ']
  refine ⟨joined names, List.prefix_rfl, fun _ => rfl, h, fun i hi => ?_, ?_, rfl⟩
  · rw [byteAt_ioctlWrites, hbytes, List.getElem?_append_left (by simpa using hi),
      List.getElem?_map]
  · rw [byteAt_ioctlWrites, hbytes, List.getElem?_append_right (by simp)]
    simp

theorem Reports.size_lt {s : ℤ} {writes : List (ℕ × UInt8)} (h : Reports names s writes) :
    s < bufsize := by
  obtain ⟨str, -, -, hlen, -, -, rfl⟩ := h
  exact Int.ofNat_lt.mpr hlen

theorem reports_nil {s : ℤ} : Reports [] s (ioctlWrites []) ↔ s = 0 := by
  constructor
  · rintro ⟨str, hpre, -, -, -, -, rfl⟩
    rw [List.prefix_nil.mp hpre]
    rfl
  · rintro rfl
    have h : Reports [] (joined []).length (ioctlWrites (joined [])) := reports_joined (by decide)
    exact h

end TagFilesystem
