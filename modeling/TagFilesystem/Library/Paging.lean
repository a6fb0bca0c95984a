import Mathlib.Data.List.Basic
import Mathlib.Tactic.SplitIfs

namespace TagFilesystem

universe u v

variable {α : Type u} {β : Type v} {size : α → ℕ} {encode : α → ℕ → List β}
  {decode : List β → Option ((α × ℕ) × List β)} {l l₁ l₂ : List α} {a : α} {off m fuel : ℕ}

/-- The records of a buffer with the offsets they contain; `off` is where the first one starts. -/
def records (size : α → ℕ) : ℕ → List α → List (α × ℕ)
  | _, [] => []
  | off, a :: l => (a, off + size a) :: records size (off + size a) l

/-- The bytes of the records. -/
def encodeAll (size : α → ℕ) (encode : α → ℕ → List β) (off : ℕ) (l : List α) : List β :=
  (records size off l).flatMap fun r => encode r.1 r.2

theorem encodeAll_cons : encodeAll size encode off (a :: l) =
    encode a (off + size a) ++ encodeAll size encode (off + size a) l := rfl

/-- The sum of the sizes. -/
def sizeAll (size : α → ℕ) : List α → ℕ
  | [] => 0
  | a :: l => size a + sizeAll size l

@[simp] theorem sizeAll_cons : sizeAll size (a :: l) = size a + sizeAll size l := rfl

@[simp] theorem sizeAll_append : sizeAll size (l₁ ++ l₂) = sizeAll size l₁ + sizeAll size l₂ := by
  induction l₁ with
  | nil => rw [List.nil_append, sizeAll, Nat.zero_add]
  | cons a l₁ ih => rw [List.cons_append, sizeAll_cons, sizeAll_cons, ih, Nat.add_assoc]

@[simp] theorem map_fst_records (size : α → ℕ) (off : ℕ) (l : List α) :
    (records size off l).map Prod.fst = l := by
  induction l generalizing off with
  | nil => rfl
  | cons a l ih => rw [records, List.map_cons, ih]

theorem records_append : records size off (l₁ ++ l₂) =
    records size off l₁ ++ records size (off + sizeAll size l₁) l₂ := by
  induction l₁ generalizing off with
  | nil => rfl
  | cons a l₁ ih =>
    rw [List.cons_append, records, ih, records, sizeAll_cons, Nat.add_assoc]
    rfl

theorem encodeAll_append : encodeAll size encode off (l₁ ++ l₂) =
    encodeAll size encode off l₁ ++ encodeAll size encode (off + sizeAll size l₁) l₂ := by
  rw [encodeAll, records_append, List.flatMap_append]
  rfl

theorem getLast?_records (size : α → ℕ) (off : ℕ) (hl : l ≠ []) :
    ∃ a, (records size off l).getLast? = some (a, off + sizeAll size l) := by
  obtain ⟨l', a, rfl⟩ := (List.eq_nil_or_concat l).resolve_left hl
  refine ⟨a, ?_⟩
  rw [List.concat_eq_append, records_append, sizeAll_append]
  simp [records, sizeAll, Nat.add_assoc]

/-- The complete records at the front of a page. -/
def complete (decode : List β → Option ((α × ℕ) × List β)) : ℕ → List β → List (α × ℕ)
  | 0, _ => []
  | fuel + 1, bytes =>
    match decode bytes with
    | none => []
    | some (r, rest) => r :: complete decode fuel rest

/-- The client reads pages from the offset `off` until the first empty one. It fails when a page
holds no complete record, or when it has not come to the end after `fuel` pages. -/
def readAll (decode : List β → Option ((α × ℕ) × List β)) (page : ℕ → List β) :
    ℕ → ℕ → Option (List (α × ℕ))
  | 0, _ => none
  | fuel + 1, off =>
    if page off = [] then some []
    else
      match (complete decode (page off).length (page off)).getLast? with
      | none => none
      | some r => (readAll decode page fuel r.2).map
          (complete decode (page off).length (page off) ++ ·)

/-- The encodings of the records in `l` have the given sizes, and `decode` reads an encoding that
is there completely, with offsets up to `limit`. -/
structure Coding (size : α → ℕ) (encode : α → ℕ → List β)
    (decode : List β → Option ((α × ℕ) × List β)) (limit : ℕ) (l : List α) : Prop where
  length : ∀ a ∈ l, ∀ off, (encode a off).length = size a
  pos : ∀ a ∈ l, 0 < size a
  whole : ∀ a ∈ l, ∀ off ≤ limit, ∀ rest, decode (encode a off ++ rest) = some ((a, off), rest)
  part : ∀ a ∈ l, ∀ off ≤ limit, ∀ n < size a, decode ((encode a off).take n) = none
  nil : decode [] = none

namespace Coding

variable {limit : ℕ} (h : Coding size encode decode limit l)
include h

theorem mono (hl : ∀ a ∈ l₁, a ∈ l) : Coding size encode decode limit l₁ where
  length a ha := h.length a (hl a ha)
  pos a ha := h.pos a (hl a ha)
  whole a ha := h.whole a (hl a ha)
  part a ha := h.part a (hl a ha)
  nil := h.nil

theorem length_encodeAll (off : ℕ) : (encodeAll size encode off l).length = sizeAll size l := by
  induction l generalizing off with
  | nil => rfl
  | cons a l ih =>
    rw [encodeAll_cons, List.length_append, sizeAll_cons, h.length a List.mem_cons_self,
      ih (h.mono fun b hb => List.mem_cons_of_mem a hb)]

/-- The complete records of a page are the first ones of the buffer, and there is at least one
when the first record fits in the page. -/
theorem complete_take (hlim : off + sizeAll size l ≤ limit)
    (hfuel : ((encodeAll size encode off l).take m).length ≤ fuel) :
    ∃ k, complete decode fuel ((encodeAll size encode off l).take m) = records size off (l.take k) ∧
      ((∀ a ∈ l, size a ≤ m) → l ≠ [] → 0 < k) := by
  induction l generalizing off m fuel with
  | nil =>
    refine ⟨0, ?_, fun _ hl => absurd rfl hl⟩
    cases fuel with
    | zero => rfl
    | succ fuel =>
      show complete decode (fuel + 1) (List.take m []) = []
      rw [List.take_nil, complete, h.nil]
  | cons a l ih =>
    have ha : a ∈ a :: l := List.mem_cons_self
    have hl := h.mono fun b hb => List.mem_cons_of_mem a hb
    have hpos := h.pos a ha
    have hlen := h.length a ha (off + size a)
    rw [List.length_take, h.length_encodeAll, sizeAll_cons] at hfuel
    rw [sizeAll_cons] at hlim
    cases fuel with
    | zero =>
      refine ⟨0, rfl, fun hfit _ => ?_⟩
      have hfit := hfit a ha
      omega
    | succ fuel =>
      by_cases hfit : size a ≤ m
      · have htail : ((encodeAll size encode (off + size a) l).take (m - size a)).length ≤ fuel := by
          rw [List.length_take, hl.length_encodeAll]
          omega
        obtain ⟨k, hk, -⟩ := ih hl (by omega) htail
        refine ⟨k + 1, ?_, fun _ _ => Nat.succ_pos k⟩
        rw [encodeAll_cons, List.take_append, List.take_of_length_le (by omega), hlen,
          complete, h.whole a ha _ (by omega)]
        dsimp only
        rw [hk]
        rfl
      · refine ⟨0, ?_, fun hall _ => absurd (hall a ha) hfit⟩
        have hpart := h.part a ha (off + size a) (by omega) m (Nat.lt_of_not_ge hfit)
        rw [encodeAll_cons, List.take_append_of_le_length (by omega), complete, hpart]
        rfl

end Coding

theorem readAll_eq {limit : ℕ} {page : ℕ → List β} (h : Coding size encode decode limit l)
    (hlim : sizeAll size l ≤ limit) (hfit : ∀ a ∈ l, size a ≤ m)
    (hpage : ∀ off, page off = ((encodeAll size encode 0 l).drop off).take m)
    (hfuel : l.length < fuel) : readAll decode page fuel 0 = some (records size 0 l) := by
  -- the records in `done` have been read, those in `rest` have not
  have hrest : ∀ fuel done rest, l = done ++ rest → rest.length < fuel →
      readAll decode page fuel (sizeAll size done) =
        some (records size (sizeAll size done) rest) := by
    intro fuel
    induction fuel with
    | zero => exact fun done rest _ hlt => absurd hlt (Nat.not_lt_zero _)
    | succ fuel ih =>
      rintro done rest rfl hlt
      have hdone := h.mono fun a ha => List.mem_append_left rest ha
      have hr := h.mono fun a ha => List.mem_append_right done ha
      have hfit' : ∀ a ∈ rest, size a ≤ m := fun a ha => hfit a (List.mem_append_right done ha)
      have hbytes : page (sizeAll size done) =
          (encodeAll size encode (sizeAll size done) rest).take m := by
        rw [hpage, encodeAll_append, Nat.zero_add,
          List.drop_left' (hdone.length_encodeAll 0)]
      rw [sizeAll_append] at hlim
      obtain ⟨k, hk, hsome⟩ := hr.complete_take (m := m) hlim (Nat.le_refl _)
      rw [← hbytes] at hk
      cases hnil : rest with
      | nil =>
        subst hnil
        rw [readAll, if_pos (by rw [hbytes]; exact List.take_nil)]
        rfl
      | cons a rest' =>
        have hne : rest ≠ [] := by
          rw [hnil]
          exact List.cons_ne_nil a rest'
        rw [← hnil]
        have hkpos := hsome hfit' hne
        have hlen : 0 < rest.length := List.length_pos_of_ne_nil hne
        have htake : rest.take k ≠ [] := by
          rw [hnil, ← Nat.sub_add_cancel hkpos]
          exact List.cons_ne_nil _ _
        obtain ⟨b, hlast⟩ := getLast?_records size (sizeAll size done) htake
        rw [readAll, if_neg ?_, hk, hlast]
        · dsimp only
          rw [← sizeAll_append, ih (done ++ rest.take k) (rest.drop k)
            (by rw [List.append_assoc, List.take_append_drop]) (by rw [List.length_drop]; omega)]
          rw [Option.map_some, sizeAll_append, ← records_append, List.take_append_drop]
        · intro hempty
          rw [hempty] at hk
          apply htake
          rw [← map_fst_records size (sizeAll size done) (rest.take k), ← hk]
          rfl
  exact hrest fuel [] l rfl hfuel

end TagFilesystem
