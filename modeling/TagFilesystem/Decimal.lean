import TagFilesystem.Posix
import Mathlib.Data.Nat.Digits.Defs

/-!
# Decimal numbers

What `%d` prints and what `atoi` reads. The type `int` is taken as unbounded.
-/

namespace TagFilesystem

variable {n d : ℕ} {c : CChar}

def minusSign : CChar := ⟨45, by decide⟩
def plusSign : CChar := ⟨43, by decide⟩

def isDigit (c : CChar) : Bool := 48 ≤ c.val && c.val ≤ 57

theorem digitByte_toNat (d : ℕ) : (UInt8.ofNat (48 + d % 10)).toNat = 48 + d % 10 := by
  rw [UInt8.toNat_ofNat']
  omega

theorem digitByte_ne_zero (d : ℕ) : UInt8.ofNat (48 + d % 10) ≠ 0 := by
  intro h
  have hnat := (digitByte_toNat d).symm.trans (congrArg UInt8.toNat h)
  rw [show (0 : UInt8).toNat = 0 from rfl] at hnat
  omega

/-- The character of the digit `d < 10`. -/
def digitChar (d : ℕ) : CChar := ⟨UInt8.ofNat (48 + d % 10), digitByte_ne_zero d⟩

/-- The digits of a number, without leading zeros. -/
def decimal (n : ℕ) : CStr :=
  if n = 0 then [digitChar 0] else (Nat.digits 10 n).reverse.map digitChar

/-- What `%d` prints. -/
def formatInt (i : ℤ) : CStr :=
  if i < 0 then minusSign :: decimal i.natAbs else decimal i.natAbs

/-- The value of a row of digits. -/
def decimalValue (w : CStr) : ℕ := w.foldl (fun v c => 10 * v + (c.val.toNat - 48)) 0

/-- `atoi`: white space, a sign, and the digits up to the first other byte. -/
def atoi (str : CStr) : ℤ :=
  match str.dropWhile isspace with
  | [] => 0
  | c :: rest =>
    if c = minusSign then -decimalValue (rest.takeWhile isDigit)
    else if c = plusSign then decimalValue (rest.takeWhile isDigit)
    else decimalValue ((c :: rest).takeWhile isDigit)

theorem digitChar_toNat (hd : d < 10) : (digitChar d).val.toNat = 48 + d := by
  show (UInt8.ofNat (48 + d % 10)).toNat = 48 + d
  rw [digitByte_toNat, Nat.mod_eq_of_lt hd]

theorem isDigit_iff : isDigit c = true ↔ 48 ≤ c.val.toNat ∧ c.val.toNat ≤ 57 := by
  rw [isDigit, Bool.and_eq_true, decide_eq_true_eq, decide_eq_true_eq, UInt8.le_iff_toNat_le,
    UInt8.le_iff_toNat_le]
  exact Iff.rfl

theorem isDigit_digitChar (hd : d < 10) : isDigit (digitChar d) = true := by
  rw [isDigit_iff, digitChar_toNat hd]
  omega

theorem decimalValue_map_reverse (ds : List ℕ) (hds : ∀ d ∈ ds, d < 10) :
    decimalValue (ds.reverse.map digitChar) = Nat.ofDigits 10 ds := by
  induction ds with
  | nil => rfl
  | cons d ds ih =>
    have hd := digitChar_toNat (hds d List.mem_cons_self)
    have hrest := ih fun e he => hds e (List.mem_cons_of_mem d he)
    unfold decimalValue at hrest ⊢
    rw [List.reverse_cons, List.map_append, List.foldl_append, hrest, Nat.ofDigits_cons]
    show 10 * Nat.ofDigits 10 ds + ((digitChar d).val.toNat - 48) = d + 10 * Nat.ofDigits 10 ds
    rw [hd]
    omega

theorem decimalValue_decimal (n : ℕ) : decimalValue (decimal n) = n := by
  unfold decimal
  split_ifs with hn
  · rw [hn]
    rfl
  · rw [decimalValue_map_reverse _ fun d hd => Nat.digits_lt_base (by decide) hd]
    exact Nat.ofDigits_digits 10 n

theorem isDigit_of_mem_decimal (hc : c ∈ decimal n) : isDigit c = true := by
  unfold decimal at hc
  split_ifs at hc with hn
  · obtain rfl := List.mem_singleton.mp hc
    exact isDigit_digitChar (by decide)
  · obtain ⟨d, hd, rfl⟩ := List.mem_map.mp hc
    exact isDigit_digitChar (Nat.digits_lt_base (by decide) (List.mem_reverse.mp hd))

theorem decimal_ne_nil (n : ℕ) : decimal n ≠ [] := by
  unfold decimal
  split_ifs with hn
  · exact List.cons_ne_nil _ _
  · simpa [Nat.digits_eq_nil_iff_eq_zero] using hn

theorem all_isDigit_decimal (n : ℕ) : (decimal n).all isDigit = true :=
  List.all_eq_true.mpr fun _ hc => isDigit_of_mem_decimal hc

theorem not_isspace_of_isDigit (hc : isDigit c = true) : isspace c = false := by
  have hle := (isDigit_iff.mp hc).1
  have hne : c.val ≠ 32 := by
    intro h
    rw [h] at hle
    exact absurd hle (by decide)
  have hgt : ¬ c.val ≤ 13 := by
    rw [UInt8.le_iff_toNat_le]
    show ¬ c.val.toNat ≤ 13
    omega
  simp [isspace, hne, hgt]

theorem atoi_decimal (n : ℕ) : atoi (decimal n) = n := by
  have hall := all_isDigit_decimal n
  have hvalue := decimalValue_decimal n
  cases hw : decimal n with
  | nil => exact absurd hw (decimal_ne_nil n)
  | cons c rest =>
    rw [hw] at hall hvalue
    replace hall := List.all_eq_true.mp hall
    have hspace : isspace c = false := not_isspace_of_isDigit (hall c List.mem_cons_self)
    have hminus : c ≠ minusSign := by
      rintro rfl
      exact absurd (hall minusSign List.mem_cons_self) (by decide)
    have hplus : c ≠ plusSign := by
      rintro rfl
      exact absurd (hall plusSign List.mem_cons_self) (by decide)
    rw [atoi, List.dropWhile_cons_of_neg (by simp [hspace])]
    dsimp only
    rw [if_neg hminus, if_neg hplus, List.takeWhile_eq_self_iff.mpr hall, hvalue]

end TagFilesystem
