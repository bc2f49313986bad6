import Mathlib.Algebra.Order.Field.Power
import Mathlib.Data.Int.Log
import Mathlib.Data.Rat.Floor
import Mathlib.Tactic.Linarith
import Mathlib.Tactic.Positivity
import ScriptMachine.Number.Significant

/-!
# Rounding to decimal places

`nearestInt` is the integer nearest to a fraction, a tie going to the even one; it is the only
integer that is as near (`nearestInt_eq_iff`). `roundedAt place v` is the multiple of `10 ^ place`
nearest to `v`. The fourteen digits that `Significant.ofFraction` computes in natural numbers are
those of the fraction rounded at the place of its fourteenth digit. Where the digits carry into a
new one the place moves on, and rounding at the new place gives the same (`ofFraction_eq`).
-/

namespace ScriptMachine

/-! ## The nearest integer -/

/-- The integer nearest to a fraction, of two that are equally near the even one. -/
def nearestInt (q : ℚ) : ℤ :=
  if Int.fract q < 1 / 2 then ⌊q⌋
  else if 1 / 2 < Int.fract q then ⌊q⌋ + 1
  else if Even ⌊q⌋ then ⌊q⌋
  else ⌊q⌋ + 1

/-- At most half a unit lies between the fraction and the integer, which is even if it is half a
unit. -/
structure IsNearest (q : ℚ) (n : ℤ) : Prop where
  near : |q - n| ≤ 1 / 2
  even : |q - n| = 1 / 2 → Even n

namespace IsNearest

variable {q : ℚ} {m n : ℤ}

theorem of_near (h : |q - n| < 1 / 2) : IsNearest q n := ⟨h.le, fun htie => absurd htie h.ne⟩

theorem le (h : IsNearest q n) (hq : q ≤ m) : n ≤ m := by
  by_contra hlt
  have hlt' : (m : ℚ) + 1 ≤ n := by exact_mod_cast not_le.1 hlt
  have hnear := (abs_le.1 h.near).1
  linarith

theorem ge (h : IsNearest q n) (hq : m ≤ q) : m ≤ n := by
  by_contra hlt
  have hlt' : (n : ℚ) + 1 ≤ m := by exact_mod_cast not_le.1 hlt
  have hnear := (abs_le.1 h.near).2
  linarith

theorem neg (h : IsNearest q n) : IsNearest (-q) (-n) := by
  have habs : |-q - ((-n : ℤ) : ℚ)| = |q - n| := by
    rw [← abs_neg]
    congr 1
    push_cast
    ring
  exact ⟨habs ▸ h.near, fun htie => (h.even (habs ▸ htie)).neg⟩

/-- Of two integers that are nearest, none is above the other. -/
theorem not_lt (h : IsNearest q m) (h' : IsNearest q n) : ¬m < n := by
  intro hlt
  have hm := (abs_le.1 h.near).2
  have hn := (abs_le.1 h'.near).1
  have hle : (m : ℚ) + 1 ≤ n := by exact_mod_cast hlt
  -- They stand half a unit below and above the fraction, and cannot both be even.
  have heven : Even m := h.even (by rw [abs_of_nonneg] <;> linarith)
  have heven' : Even n := h'.even (by rw [abs_of_nonpos] <;> linarith)
  have hnext : n = m + 1 := by
    have : (n : ℚ) = m + 1 := by linarith
    exact_mod_cast this
  rw [hnext, Int.even_add_one] at heven'
  exact heven' heven

theorem unique (h : IsNearest q m) (h' : IsNearest q n) : m = n := by
  have hm := h.not_lt h'
  have hn := h'.not_lt h
  omega

end IsNearest

theorem isNearest_nearestInt (q : ℚ) : IsNearest q (nearestInt q) := by
  have hfloor : q - ⌊q⌋ = Int.fract q := rfl
  have hnext : q - ((⌊q⌋ + 1 : ℤ) : ℚ) = Int.fract q - 1 := by
    rw [← hfloor]
    push_cast
    ring
  have hnonneg := Int.fract_nonneg q
  have hlt := Int.fract_lt_one q
  unfold nearestInt
  split
  · next hbelow => exact .of_near (by rw [hfloor, abs_of_nonneg hnonneg]; exact hbelow)
  · next hbelow =>
    split
    · next habove =>
      refine .of_near ?_
      rw [hnext, abs_of_neg (by linarith)]
      linarith
    · next habove =>
      have htie : Int.fract q = 1 / 2 := le_antisymm (not_lt.1 habove) (not_lt.1 hbelow)
      split
      · next heven =>
        exact ⟨by rw [hfloor, htie]; norm_num, fun _ => heven⟩
      · next hodd =>
        exact ⟨by rw [hnext, htie]; norm_num, fun _ => Int.even_add_one.2 hodd⟩

theorem nearestInt_eq_iff {q : ℚ} {n : ℤ} : nearestInt q = n ↔ IsNearest q n :=
  ⟨fun h => h ▸ isNearest_nearestInt q, fun h => (isNearest_nearestInt q).unique h⟩

theorem nearestInt_neg (q : ℚ) : nearestInt (-q) = -nearestInt q :=
  nearestInt_eq_iff.2 (isNearest_nearestInt q).neg

/-- The quotient of natural numbers is rounded to the nearest integer. -/
theorem roundDiv_eq_nearestInt (num den : Nat) (hden : den ≠ 0) :
    (roundDiv num den : ℤ) = nearestInt (num / den) := by
  have hfloor : ⌊(num / den : ℚ)⌋ = (num / den : Nat) := by
    rw [Rat.floor_natCast_div_natCast]
    rfl
  have hpos : (0 : ℚ) < den := by exact_mod_cast Nat.pos_of_ne_zero hden
  have hbelow : Int.fract (num / den : ℚ) < 1 / 2 ↔ 2 * (num % den) < den := by
    rw [Int.fract_div_natCast_eq_div_natCast_mod, div_lt_div_iff₀ hpos two_pos]
    exact_mod_cast (by rw [mul_comm, one_mul])
  have habove : 1 / 2 < Int.fract (num / den : ℚ) ↔ den < 2 * (num % den) := by
    rw [Int.fract_div_natCast_eq_div_natCast_mod, div_lt_div_iff₀ two_pos hpos]
    exact_mod_cast (by rw [mul_comm (num % den), one_mul])
  have heven : Even ((num / den : Nat) : ℤ) ↔ num / den % 2 = 0 := by
    rw [Int.even_coe_nat, Nat.even_iff]
  unfold roundDiv nearestInt
  simp only [hbelow, habove, hfloor, heven]
  split_ifs <;> simp

/-- The multiple of `10 ^ place` that is nearest to `v`. -/
def roundedAt (place : ℤ) (v : ℚ) : ℚ := nearestInt (v / 10 ^ place) * 10 ^ place

theorem roundedAt_neg (place : ℤ) (v : ℚ) : roundedAt place (-v) = -roundedAt place v := by
  unfold roundedAt
  rw [neg_div, nearestInt_neg]
  push_cast
  ring

/-! ## The place of the leading digit -/

theorem lt_pow_decimalLength (n : Nat) : n < 10 ^ decimalLength n :=
  (Nat.length_toDigits_le_iff (by decide) Nat.length_toDigits_pos).1 le_rfl

theorem pow_decimalLength_le {n : Nat} (hn : n ≠ 0) : 10 ^ (decimalLength n - 1) ≤ n := by
  by_contra hlt
  have hpos : 0 < decimalLength n := Nat.length_toDigits_pos
  by_cases hone : decimalLength n - 1 = 0
  · rw [hone, pow_zero] at hlt
    omega
  · have hle := (Nat.length_toDigits_le_iff (by decide) (Nat.pos_of_ne_zero hone)).2 (not_le.1 hlt)
    unfold decimalLength at hpos hle
    omega

/-- The place of the leading digit is the largest power of the base that is not above. -/
theorem log_eq_of_le_of_lt {b : ℕ} (hb : 1 < b) {v : ℚ} {k : ℤ} (hle : (b : ℚ) ^ k ≤ v)
    (hlt : v < (b : ℚ) ^ (k + 1)) : Int.log b v = k := by
  have hpos : 0 < v := lt_of_lt_of_le (zpow_pos (by exact_mod_cast Nat.zero_lt_of_lt hb) k) hle
  have hge : k ≤ Int.log b v := (Int.zpow_le_iff_le_log hb hpos).1 hle
  have hbelow : Int.log b v < k + 1 := (Int.lt_zpow_iff_log_lt hb hpos).1 hlt
  omega

/-- A number is scaled by a power of the base until its leading digit has a given place. -/
theorem scaled_bounds {b : ℕ} (hb : 1 < b) {v : ℚ} (hv : 0 < v) (place : ℤ) :
    (b : ℚ) ^ (Int.log b v - place) ≤ v / b ^ place ∧
      v / b ^ place < (b : ℚ) ^ (Int.log b v + 1 - place) := by
  have hpos : (0 : ℚ) < b := by exact_mod_cast Nat.zero_lt_of_lt hb
  have hle := Int.zpow_log_le_self hb hv
  have hlt := Int.lt_zpow_succ_log_self hb v
  rw [zpow_sub₀ hpos.ne', zpow_sub₀ hpos.ne']
  exact ⟨div_le_div_of_nonneg_right hle (zpow_nonneg hpos.le _),
    div_lt_div_of_pos_right hlt (zpow_pos hpos _)⟩

theorem leadingExponent_eq_log {num den : Nat} (hnum : num ≠ 0) (hden : den ≠ 0) :
    leadingExponent num den = Int.log 10 (num / den : ℚ) := by
  have hpos : (0 : ℚ) < den := by exact_mod_cast Nat.pos_of_ne_zero hden
  unfold leadingExponent
  symm
  split
  · next hle =>
    have hquotient : num / den ≠ 0 := (Nat.div_pos hle (Nat.pos_of_ne_zero hden)).ne'
    obtain ⟨k, hk⟩ : ∃ k, decimalLength (num / den) = k + 1 :=
      ⟨decimalLength (num / den) - 1, (Nat.succ_pred_eq_of_pos Nat.length_toDigits_pos).symm⟩
    have hfront := pow_decimalLength_le hquotient
    have hbehind := lt_pow_decimalLength (num / den)
    rw [hk] at hfront hbehind
    rw [Nat.add_sub_cancel, Nat.le_div_iff_mul_le (Nat.pos_of_ne_zero hden)] at hfront
    rw [Nat.div_lt_iff_lt_mul (Nat.pos_of_ne_zero hden)] at hbehind
    rw [hk]
    push_cast
    rw [add_sub_cancel_right]
    refine log_eq_of_le_of_lt (by decide) ?_ ?_
    · rw [le_div_iff₀ hpos, zpow_natCast]
      exact_mod_cast hfront
    · rw [div_lt_iff₀ hpos]
      exact_mod_cast hbehind
  · next hlt =>
    obtain ⟨k, hk⟩ : ∃ k, decimalLength ((den - 1) / num) = k + 1 :=
      ⟨decimalLength ((den - 1) / num) - 1, (Nat.succ_pred_eq_of_pos Nat.length_toDigits_pos).symm⟩
    have hbehind := lt_pow_decimalLength ((den - 1) / num)
    rw [Nat.div_lt_iff_lt_mul (Nat.pos_of_ne_zero hnum), hk] at hbehind
    have hfront : 10 ^ k * num < den := by
      by_cases hzero : (den - 1) / num = 0
      · have hlength : decimalLength ((den - 1) / num) = 1 := by rw [hzero]; rfl
        obtain rfl : k = 0 := by omega
        omega
      · have hle := pow_decimalLength_le hzero
        rw [hk, Nat.add_sub_cancel, Nat.le_div_iff_mul_le (Nat.pos_of_ne_zero hnum)] at hle
        omega
    have hbehind' : den ≤ 10 ^ (k + 1) * num := by omega
    have hfront' : (10 : ℚ) ^ k * num < den := by exact_mod_cast hfront
    have hbehind'' : (den : ℚ) ≤ 10 ^ (k + 1) * num := by exact_mod_cast hbehind'
    rw [hk]
    refine log_eq_of_le_of_lt (by decide) ?_ ?_
    · rw [le_div_iff₀ hpos, zpow_neg, zpow_natCast, inv_mul_le_iff₀ (by positivity)]
      exact hbehind''
    · have hplace : -((k + 1 : Nat) : ℤ) + 1 = -(k : ℤ) := by push_cast; ring
      rw [div_lt_iff₀ hpos, hplace, zpow_neg, zpow_natCast, lt_inv_mul_iff₀ (by positivity)]
      exact hfront'

/-! ## Fourteen digits -/

/-- A power as a fraction of powers with natural exponents. -/
theorem pow_toNat_div (b : ℚ) (k : ℤ) : b ^ k.toNat / b ^ (-k).toNat = b ^ k := by
  rcases le_total 0 k with hk | hk
  · obtain ⟨n, rfl⟩ := Int.eq_ofNat_of_zero_le hk
    simp
  · obtain ⟨n, rfl⟩ : ∃ n : Nat, k = -n := ⟨(-k).toNat, by omega⟩
    simp

namespace Significant

/-- The number that the digits stand for. -/
def value (d : Significant) : ℚ := d.digits * 10 ^ (d.exponent - 13)

/-- Exactly fourteen digits. -/
structure Full (d : Significant) : Prop where
  le : 10 ^ 13 ≤ d.digits
  lt : d.digits < 10 ^ 14

/-- The exponent is the place of the leading digit. -/
theorem Full.log_value {d : Significant} (h : d.Full) : Int.log 10 d.value = d.exponent := by
  have hle : (10 : ℚ) ^ 13 ≤ d.digits := by exact_mod_cast h.le
  have hlt : (d.digits : ℚ) < 10 ^ 14 := by exact_mod_cast h.lt
  have hpow : (0 : ℚ) < 10 ^ (d.exponent - 13) := by positivity
  refine log_eq_of_le_of_lt (by decide) ?_ ?_
  · calc (10 : ℚ) ^ d.exponent = 10 ^ 13 * 10 ^ (d.exponent - 13) := by
          rw [← zpow_natCast, ← zpow_add₀ (by norm_num)]
          congr 1
          omega
      _ ≤ d.value := mul_le_mul_of_nonneg_right hle hpow.le
  · calc d.value < 10 ^ 14 * 10 ^ (d.exponent - 13) := mul_lt_mul_of_pos_right hlt hpow
      _ = 10 ^ (d.exponent + 1) := by
          rw [← zpow_natCast, ← zpow_add₀ (by norm_num)]
          congr 1
          omega

end Significant

/-- Moved to its place, a number has fourteen digits in front of the point. -/
theorem fourteen_bounds {v : ℚ} (hv : 0 < v) :
    10 ^ 13 ≤ v / 10 ^ (Int.log 10 v - 13) ∧ v / 10 ^ (Int.log 10 v - 13) < 10 ^ 14 := by
  have hlower : Int.log 10 v - (Int.log 10 v - 13) = (13 : ℕ) := by omega
  have hupper : Int.log 10 v + 1 - (Int.log 10 v - 13) = (14 : ℕ) := by omega
  have hbounds := scaled_bounds (b := 10) (by decide) hv (Int.log 10 v - 13)
  rw [hlower, hupper, zpow_natCast, zpow_natCast] at hbounds
  exact_mod_cast hbounds

/-- A number that rounds to a ten at some place rounds to it at the place in front, too. -/
theorem IsNearest.ten {v : ℚ} {place m : ℤ} (h : IsNearest (v / 10 ^ place) (10 * m)) :
    IsNearest (v / 10 ^ (place + 1)) m := by
  have hnext : (10 : ℚ) ^ (place + 1) = 10 ^ place * 10 := zpow_add_one₀ (by norm_num) place
  have hnear := h.near
  refine .of_near ?_
  rw [hnext, ← div_div]
  rw [abs_le] at hnear
  rw [abs_lt]
  push_cast at hnear
  constructor <;> linarith [hnear.1, hnear.2]

/-- The digits in natural numbers are those of the fraction moved to their place. -/
theorem roundDiv_places {b den : Nat} (hb : b ≠ 0) (num : Nat) (hden : den ≠ 0) (place : ℤ) :
    (roundDiv (num * Nat.pow b (-place).toNat) (den * Nat.pow b place.toNat) : ℤ) =
      nearestInt ((num / den : ℚ) / b ^ place) := by
  have hden' : den * Nat.pow b place.toNat ≠ 0 :=
    Nat.mul_ne_zero hden (Nat.pow_pos (Nat.pos_of_ne_zero hb)).ne'
  have hpow := pow_toNat_div b (-place)
  rw [neg_neg, zpow_neg] at hpow
  rw [roundDiv_eq_nearestInt _ _ hden']
  congr 1
  push_cast [Nat.pow_eq]
  rw [mul_div_mul_comm, hpow, ← div_eq_mul_inv]

section OfFraction

variable {num den : Nat} (hnum : num ≠ 0) (hden : den ≠ 0)

include hnum hden in
/-- The fourteen digits of a fraction are the fraction rounded at the place of the last of them, and
also rounded thirteen places behind the first of them. -/
theorem ofFraction_eq {v : ℚ} (hv : v = num / den) :
    (Significant.ofFraction num den).Full ∧
      (Significant.ofFraction num den).value = roundedAt (Int.log 10 v - 13) v ∧
      (Significant.ofFraction num den).value =
        roundedAt ((Significant.ofFraction num den).exponent - 13) v := by
  have hpositive : 0 < v := by
    have hnum' : (0 : ℚ) < num := by exact_mod_cast Nat.pos_of_ne_zero hnum
    have hden' : (0 : ℚ) < den := by exact_mod_cast Nat.pos_of_ne_zero hden
    rw [hv]
    positivity
  obtain ⟨hle, hlt⟩ := fourteen_bounds hpositive
  have hplace : (Significant.precision : ℤ) - 1 - leadingExponent num den =
      -(Int.log 10 v - 13) := by
    rw [leadingExponent_eq_log hnum hden, ← hv]
    unfold Significant.precision
    omega
  have hdigits := roundDiv_places (b := 10) (by decide) num hden (Int.log 10 v - 13)
  have hshift : (Int.log 10 v - 13).toNat =
      (-((Significant.precision : ℤ) - 1 - leadingExponent num den)).toNat := by
    rw [hplace, neg_neg]
  rw [Nat.cast_ofNat, ← hv, hshift, ← hplace] at hdigits
  have hnearest := nearestInt_eq_iff.1 hdigits.symm
  have hlower := hnearest.ge (m := 10 ^ 13) (by exact_mod_cast hle)
  have hupper := hnearest.le (m := 10 ^ 14) (by exact_mod_cast hlt.le)
  unfold Significant.ofFraction
  dsimp only
  generalize roundDiv (num * Nat.pow 10 _) (den * Nat.pow 10 _) = digits at *
  rw [leadingExponent_eq_log hnum hden, ← hv]
  have hvalue : (digits : ℚ) * 10 ^ (Int.log 10 v - 13) = roundedAt (Int.log 10 v - 13) v := by
    rw [roundedAt, ← hdigits]
    rfl
  split
  · next hfew =>
    exact ⟨⟨by exact_mod_cast hlower, hfew⟩, hvalue, hvalue⟩
  · next hmany =>
    -- All digits are nines, and rounding gives a one in front of them.
    have hcarry : digits = 10 ^ 14 := by
      have hmany' : ¬digits < 10 ^ 14 := hmany
      have hupper' : digits ≤ 10 ^ 14 := by exact_mod_cast hupper
      omega
    have hplace' : Int.log 10 v + 1 - 13 = Int.log 10 v - 13 + 1 := by omega
    have hnext : (10 : ℚ) ^ (Int.log 10 v + 1 - 13) = 10 ^ (Int.log 10 v - 13) * 10 := by
      rw [hplace', zpow_add_one₀ (by norm_num)]
    have hsame : Significant.value ⟨Nat.pow 10 (Significant.precision - 1), Int.log 10 v + 1⟩ =
        (digits : ℚ) * 10 ^ (Int.log 10 v - 13) := by
      rw [Significant.value, hnext, hcarry]
      push_cast [Significant.precision, Nat.pow_eq]
      ring
    refine ⟨⟨le_rfl, (by decide : 10 ^ 13 < 10 ^ 14)⟩, hsame.trans hvalue, ?_⟩
    have hten : IsNearest (v / 10 ^ (Int.log 10 v - 13 + 1)) (10 ^ 13) := by
      rw [hcarry] at hnearest
      exact hnearest.ten
    rw [hsame, roundedAt, hplace', nearestInt_eq_iff.2 hten, ← hplace', hnext, hcarry]
    push_cast
    ring

end OfFraction

end ScriptMachine
