/-
  RedisProxy.Lib.Decimal — decimal numerals as bytes: what an output stream prints
  for an unsigned number, and what C's `atoi` reads back.

  `atoi` is `(int) strtol(s, NULL, 10)`: blanks are skipped, then one sign, then
  digits up to the first byte that is none; `strtol` saturates at the ends of a
  64-bit long and the cast keeps the low 32 bits.

  Proved: a printed number is read back (`atoi_decimal_all`, `atoi_neg_decimal`), a
  blank in front changes nothing (`atoi_space`), and a byte that starts no number
  reads as 0 (`atoi_stop`). Where a number has ended, what follows does not matter
  (`atoi_settled`); where it has not, digits can still take it to one of the ends
  (`atoi_saturated`).
-/

import Mathlib.Data.Int.Order.Basic
import Mathlib.Tactic.IntervalCases

namespace RedisProxy.Lib.Decimal

abbrev Byte := UInt8
abbrev Bytes := List Byte

def CR : Byte := 13
def LF : Byte := 10

/-- C's `isspace`. -/
def isSpace (b : Byte) : Bool := b == 32 || (9 ≤ b && b ≤ 13)

def isDigit (b : Byte) : Bool := 48 ≤ b && b ≤ 57

def decimal (n : Nat) : Bytes := (Nat.toDigits 10 n).map fun c => c.toNat.toUInt8

/-- A signed number, as a stream prints it. -/
def decimalInt (i : Int) : Bytes := if i < 0 then 45 :: decimal i.natAbs else decimal i.natAbs

/-- The value read so far is `acc`; the first byte that is no digit ends it. -/
def digitsVal : Nat → Bytes → Nat
  | acc, [] => acc
  | acc, b :: s => if isDigit b then digitsVal (10 * acc + (b.toNat - 48)) s else acc

def strtol (s : Bytes) : Int :=
  match s.dropWhile isSpace with
  | [] => 0
  | b :: t =>
    if b = 45 then max (-2 ^ 63) (-(digitsVal 0 t : Int))
    else if b = 43 then min (2 ^ 63 - 1) (digitsVal 0 t : Int)
    else min (2 ^ 63 - 1) (digitsVal 0 (b :: t) : Int)

/-- The value a 32-bit signed integer keeps of `x`. -/
def int32 (x : Int) : Int := Int.bmod x (2 ^ 32)

def atoi (s : Bytes) : Int := int32 (strtol s)

/-! ## Printing -/

theorem digitChar_byte {d : Nat} (h : d < 10) : (Nat.digitChar d).toNat.toUInt8 = UInt8.ofNat (48 + d) := by
  interval_cases d <;> rfl

theorem decimal_eq (n : Nat) :
    decimal n = if n < 10 then [UInt8.ofNat (48 + n)]
      else decimal (n / 10) ++ [UInt8.ofNat (48 + n % 10)] := by
  unfold decimal
  split
  · rename_i h
    rw [Nat.toDigits_of_lt_base h]
    simp [digitChar_byte h]
  · rename_i h
    rw [Nat.toDigits_of_base_le (by omega) (by omega)]
    simp [digitChar_byte (Nat.mod_lt n (by omega : 0 < 10))]

theorem decimal_of_lt {n : Nat} (h : n < 10) : decimal n = [UInt8.ofNat (48 + n)] := by
  rw [decimal_eq, if_pos h]

theorem decimal_of_ge {n : Nat} (h : 10 ≤ n) :
    decimal n = decimal (n / 10) ++ [UInt8.ofNat (48 + n % 10)] := by
  rw [decimal_eq, if_neg (by omega)]

theorem decimal_ne_nil (n : Nat) : decimal n ≠ [] := by
  rw [decimal_eq]; split <;> simp

theorem digit_toNat {d : Nat} (h : d < 10) : (UInt8.ofNat (48 + d)).toNat = 48 + d := by
  simp; omega

theorem isDigit_ofNat {d : Nat} (h : d < 10) : isDigit (UInt8.ofNat (48 + d)) = true := by
  interval_cases d <;> rfl

theorem decimal_digits (n : Nat) : ∀ b ∈ decimal n, isDigit b = true := by
  induction n using Nat.strong_induction_on with
  | _ n ih =>
    intro b hb
    by_cases h : n < 10
    · rw [decimal_of_lt h] at hb
      rw [List.mem_singleton.mp hb]; exact isDigit_ofNat h
    · rw [decimal_of_ge (by omega)] at hb
      rcases List.mem_append.mp hb with hb | hb
      · exact ih _ (by omega) b hb
      · rw [List.mem_singleton.mp hb]; exact isDigit_ofNat (Nat.mod_lt _ (by omega))

/-! ## Reading back -/

theorem digitsVal_append (acc : Nat) {ds : Bytes} (s : Bytes) (h : ∀ b ∈ ds, isDigit b = true) :
    digitsVal acc (ds ++ s) = digitsVal (digitsVal acc ds) s := by
  induction ds generalizing acc with
  | nil => rfl
  | cons d ds ih =>
    have hd : isDigit d = true := h d (List.mem_cons_self ..)
    simp only [List.cons_append, digitsVal, hd, if_true]
    exact ih _ fun b hb => h b (List.mem_cons_of_mem _ hb)

theorem digitsVal_stop (acc : Nat) {b : Byte} (s : Bytes) (h : isDigit b = false) :
    digitsVal acc (b :: s) = acc := by
  simp [digitsVal, h]

theorem digitsVal_decimal (n : Nat) : digitsVal 0 (decimal n) = n := by
  induction n using Nat.strong_induction_on with
  | _ n ih =>
    by_cases h : n < 10
    · rw [decimal_of_lt h]
      simp only [digitsVal, isDigit_ofNat h, if_true, digit_toNat h]
      omega
    · have hm : n % 10 < 10 := Nat.mod_lt _ (by omega)
      rw [decimal_of_ge (by omega), digitsVal_append _ _ (decimal_digits _), ih _ (by omega)]
      simp only [digitsVal, isDigit_ofNat hm, if_true, digit_toNat hm]
      omega

theorem int32_of_range {x : Int} (h1 : -2 ^ 31 ≤ x) (h2 : x < 2 ^ 31) : int32 x = x := by
  unfold int32
  exact Int.bmod_eq_of_le (by omega) (by omega)

/-- The upper half of a `uint32_t` turns negative. -/
theorem int32_of_far {x : Int} (h1 : 2 ^ 31 ≤ x) (h2 : x < 2 ^ 32) : int32 x = x - 2 ^ 32 := by
  unfold int32
  have hsub := Int.sub_bmod_right x (2 ^ 32)
  rw [← hsub]
  exact Int.bmod_eq_of_le (by omega) (by omega)

theorem int32_range (x : Int) : -2 ^ 31 ≤ int32 x ∧ int32 x < 2 ^ 31 := by
  unfold int32
  have h1 := Int.le_bmod (x := x) (m := 2 ^ 32) (by decide)
  have h2 := Int.bmod_lt (x := x) (m := 2 ^ 32) (by decide)
  omega

theorem isDigit_iff {b : Byte} : isDigit b = true ↔ 48 ≤ b.toNat ∧ b.toNat ≤ 57 := by
  simp [isDigit, UInt8.le_iff_toNat_le]

theorem isSpace_of_isDigit {b : Byte} (h : isDigit b = true) : isSpace b = false := by
  rw [isDigit_iff] at h
  simp only [isSpace, Bool.or_eq_false_iff, beq_eq_false_iff_ne, ne_eq, Bool.and_eq_false_iff,
    decide_eq_false_iff_not,
    UInt8.le_iff_toNat_le, ← UInt8.toNat_inj]
  simp only [UInt8.reduceToNat]
  omega

theorem ne_sign_of_isDigit {b : Byte} (h : isDigit b = true) : b ≠ 45 ∧ b ≠ 43 := by
  rw [isDigit_iff] at h
  simp only [ne_eq, ← UInt8.toNat_inj, UInt8.reduceToNat]
  omega

theorem strtol_digits {ds : Bytes} (s : Bytes) (hne : ds ≠ []) (h : ∀ b ∈ ds, isDigit b = true) :
    strtol (ds ++ s) = min (2 ^ 63 - 1) (digitsVal 0 (ds ++ s) : Int) := by
  cases ds with
  | nil => exact absurd rfl hne
  | cons d ds =>
    have hd := h d (List.mem_cons_self ..)
    simp only [strtol, List.cons_append, List.dropWhile_cons, isSpace_of_isDigit hd,
      Bool.false_eq_true, if_false,
      ne_sign_of_isDigit hd]

theorem digitsVal_decimal_append (n : Nat) {b : Byte} (s : Bytes) (hb : isDigit b = false) :
    digitsVal 0 (decimal n ++ b :: s) = n := by
  rw [digitsVal_append _ _ (decimal_digits n), digitsVal_decimal, digitsVal_stop _ _ hb]

/-- What `atoi` makes of a printed number of any size. -/
theorem atoi_decimal_all (n : Nat) {b : Byte} (s : Bytes) (hb : isDigit b = false) :
    atoi (decimal n ++ b :: s) = int32 (min (2 ^ 63 - 1) (n : Int)) := by
  rw [atoi, strtol_digits _ (decimal_ne_nil n) (decimal_digits n), digitsVal_decimal_append n s hb]

/-- Digits whose value is below 2^31 read as that value. -/
theorem atoi_digits {ds : Bytes} (hne : ds ≠ []) (h : ∀ b ∈ ds, isDigit b = true)
    (hn : digitsVal 0 ds < 2 ^ 31) {b : Byte}
    (s : Bytes) (hb : isDigit b = false) : atoi (ds ++ b :: s) = digitsVal 0 ds := by
  rw [atoi, strtol_digits _ hne h, digitsVal_append _ _ h, digitsVal_stop _ _ hb, min_eq_right (by omega)]
  exact int32_of_range (by omega) (by omega)

theorem atoi_neg_decimal {n : Nat} (hn : n ≤ 2 ^ 31) {b : Byte} (s : Bytes) (hb : isDigit b = false) :
    atoi (45 :: decimal n ++ b :: s) = -n := by
  have h45 : isSpace 45 = false := rfl
  rw [atoi, strtol, List.cons_append, List.dropWhile_cons_of_neg (by simp [h45])]
  simp only [if_true, digitsVal_decimal_append n s hb]
  rw [max_eq_right (by omega)]
  exact int32_of_range (by omega) (by omega)

theorem atoi_space {b : Byte} (s : Bytes) (hb : isSpace b = true) : atoi (b :: s) = atoi s := by
  simp [atoi, strtol, hb]

/-- A byte that starts no number reads as 0. -/
theorem atoi_stop {b : Byte} (s : Bytes) (h1 : isSpace b = false) (h2 : isDigit b = false)
    (h3 : b ≠ 45) (h4 : b ≠ 43) :
    atoi (b :: s) = 0 := by
  rw [atoi, strtol, List.dropWhile_cons_of_neg (by simp [h1])]
  simp only [h3, h4, if_false, digitsVal_stop _ _ h2]
  rfl

/-! ## The first digits of a number -/

theorem decimal_short {n : Nat} (h : n < 100) : ∃ d ds, decimal n = d :: ds ∧ ds.length ≤ 1 := by
  by_cases h1 : n < 10
  · exact ⟨_, [], decimal_of_lt h1, by simp⟩
  · rw [decimal_of_ge (by omega), decimal_of_lt (by omega)]
    exact ⟨_, [_], rfl, by simp⟩

/-- Without its first two digits a number is smaller. -/
theorem decimal_long {n : Nat} (h : 100 ≤ n) :
    ∃ d d' ds, decimal n = d :: d' :: ds ∧ ds ≠ [] ∧ digitsVal 0 ds < n := by
  induction n using Nat.strong_induction_on with
  | _ n ih =>
    have hm : n % 10 < 10 := Nat.mod_lt _ (by omega)
    have hlast (acc : Nat) : digitsVal acc [UInt8.ofNat (48 + n % 10)] = 10 * acc + n % 10 := by
      simp only [digitsVal, isDigit_ofNat hm, if_true, digit_toNat hm]
      omega
    rw [decimal_of_ge (by omega)]
    by_cases h1 : n / 10 < 100
    · rw [decimal_of_ge (by omega), decimal_of_lt (by omega)]
      refine ⟨_, _, [_], rfl, by simp, ?_⟩
      rw [hlast]; omega
    · obtain ⟨d, d', ds, hd, _, hv⟩ := ih (n / 10) (by omega) (by omega)
      rw [hd]
      refine ⟨d, d', ds ++ [_], rfl, by simp, ?_⟩
      have hds : ∀ b ∈ ds, isDigit b = true := fun b hb => decimal_digits (n / 10) b (by rw [hd]; simp [hb])
      rw [digitsVal_append _ _ hds, hlast]
      omega

/-! ## Numbers that have ended -/

/-- The number at the start has ended: a byte that is none of it follows. -/
def settled (s : Bytes) : Bool :=
  match s.dropWhile isSpace with
  | [] => false
  | b :: t => !(if b = 45 ∨ b = 43 then t else b :: t).all isDigit

theorem digitsVal_ended (m : Bytes) {s : Bytes} (h : s.all isDigit = false) :
    ∀ acc, digitsVal acc (s ++ m) = digitsVal acc s := by
  induction s with
  | nil => cases h
  | cons b s ih =>
    intro acc
    cases hb : isDigit b with
    | false => simp [digitsVal, hb]
    | true =>
      simp only [List.all_cons, hb, Bool.true_and] at h
      simp only [List.cons_append, digitsVal, hb, if_true]
      exact ih h _

theorem atoi_settled {s : Bytes} (h : settled s = true) (m : Bytes) : atoi (s ++ m) = atoi s := by
  unfold settled at h
  unfold atoi strtol
  rw [List.dropWhile_append]
  cases hd : s.dropWhile isSpace with
  | nil => simp [hd] at h
  | cons b t =>
    simp only [hd, Bool.not_eq_true'] at h
    have hne : (b :: t).isEmpty = false := rfl
    rw [hne, if_neg Bool.false_ne_true]
    simp only [List.cons_append]
    by_cases h1 : b = 45
    · rw [if_pos (Or.inl h1)] at h
      rw [if_pos h1, if_pos h1, digitsVal_ended m h]
    by_cases h2 : b = 43
    · rw [if_pos (Or.inr h2)] at h
      rw [if_neg h1, if_neg h1, if_pos h2, if_pos h2, digitsVal_ended m h]
    · rw [if_neg (not_or.mpr ⟨h1, h2⟩)] at h
      rw [if_neg h1, if_neg h1, if_neg h2, if_neg h2, ← List.cons_append, digitsVal_ended m h]

/-- Any number of blanks in front. -/
theorem atoi_blanks {s : Bytes} (h : ∀ b ∈ s, isSpace b = true) (m : Bytes) : atoi (s ++ m) = atoi m := by
  induction s with
  | nil => rfl
  | cons b s ih =>
    rw [List.cons_append, atoi_space _ (h b List.mem_cons_self)]
    exact ih fun b' hb => h b' (List.mem_cons_of_mem _ hb)

/-- A line ends its number, unless it is blank. -/
theorem settled_line (t : Bytes) : settled (t ++ [LF]) = true ↔ ∃ b ∈ t, isSpace b = false := by
  have hlf : isDigit LF = false := rfl
  unfold settled
  rw [List.dropWhile_append]
  cases hd : t.dropWhile isSpace with
  | nil =>
    have hall : t.all isSpace = true := by
      have htake := List.takeWhile_append_dropWhile (p := isSpace) (l := t)
      rw [hd, List.append_nil] at htake
      rw [← htake]
      exact List.all_takeWhile
    refine iff_of_false (by simp [show isSpace LF = true from rfl]) ?_
    rintro ⟨b, hb, hs⟩
    rw [List.all_eq_true.mp hall b hb] at hs
    cases hs
  | cons b u =>
    have hb : b ∈ t := (List.dropWhile_suffix isSpace).subset (hd ▸ List.mem_cons_self)
    have hs : isSpace b = false := by
      have hhead := List.head?_dropWhile_not isSpace t
      rw [hd] at hhead
      simpa using hhead
    refine iff_of_true ?_ ⟨b, hb, hs⟩
    simp only [List.isEmpty_cons, Bool.false_eq_true, if_false, List.cons_append]
    split <;> simp [hlf]

theorem digitsVal_mono (s : Bytes) : ∀ {acc acc' : Nat}, acc ≤ acc' → digitsVal acc s ≤ digitsVal acc' s := by
  induction s with
  | nil => exact id
  | cons b s ih =>
    intro acc acc' h
    unfold digitsVal
    split
    · exact ih (by omega)
    · exact h

/-- Digits enough to pass either end of a 64-bit long. -/
def nines : Bytes := List.replicate 19 57

theorem nines_digits : ∀ b ∈ nines, isDigit b = true := by
  intro b hb
  rw [List.eq_of_mem_replicate hb]
  rfl

theorem digitsVal_nines {ds : Bytes} (h : ds.all isDigit = true) (m : Bytes) :
    2 ^ 63 ≤ digitsVal 0 (ds ++ (nines ++ LF :: m)) := by
  have hnines : digitsVal 0 nines = 10 ^ 19 - 1 := by decide
  rw [digitsVal_append _ _ (List.all_eq_true.mp h), digitsVal_append _ _ nines_digits, digitsVal_stop _ _ rfl]
  have hle := digitsVal_mono nines (Nat.zero_le (digitsVal 0 ds))
  omega

/-- A number that has not ended can be made to pass one of the ends, and reads as -1 or 0. -/
theorem atoi_saturated {s : Bytes} (h : settled s = false) (m : Bytes) :
    atoi (s ++ (nines ++ LF :: m)) = -1 ∨ atoi (s ++ (nines ++ LF :: m)) = 0 := by
  have hmax : int32 (2 ^ 63 - 1) = -1 := by decide
  have hmin : int32 (-2 ^ 63) = 0 := by decide
  have hfirst : (nines ++ LF :: m).dropWhile isSpace = nines ++ LF :: m := rfl
  unfold settled at h
  unfold atoi strtol
  rw [List.dropWhile_append]
  cases hd : s.dropWhile isSpace with
  | nil =>
    have hval := @digitsVal_nines [] rfl m
    rw [List.isEmpty_nil, if_pos rfl, hfirst]
    left
    rw [List.nil_append] at hval
    show int32 (min (2 ^ 63 - 1) (digitsVal 0 (nines ++ LF :: m) : Int)) = -1
    rw [min_eq_left (by omega), hmax]
  | cons b t =>
    simp only [hd, Bool.not_eq_false'] at h
    have hne : (b :: t).isEmpty = false := rfl
    rw [hne, if_neg Bool.false_ne_true]
    simp only [List.cons_append]
    by_cases h1 : b = 45
    · rw [if_pos (Or.inl h1)] at h
      have hval := digitsVal_nines h m
      right
      rw [if_pos h1, max_eq_left (by omega), hmin]
    by_cases h2 : b = 43
    · rw [if_pos (Or.inr h2)] at h
      have hval := digitsVal_nines h m
      left
      rw [if_neg h1, if_pos h2, min_eq_left (by omega), hmax]
    · rw [if_neg (not_or.mpr ⟨h1, h2⟩)] at h
      have hval := digitsVal_nines h m
      left
      rw [if_neg h1, if_neg h2, min_eq_left (by rw [List.cons_append] at hval; omega), hmax]

end RedisProxy.Lib.Decimal
