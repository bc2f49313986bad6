import Mathlib.Data.List.DropRight
import ScriptMachine.Number.Numeral
import ScriptMachine.Proofs.Number.Nearest
import ScriptMachine.Proofs.Number.Position
import ScriptMachine.Proofs.Token.Lexemes

/-!
# Decimals as they are written

A `Numeral` is a decimal as it stands in a text: a sign, digits, perhaps a fraction behind a point
and perhaps an exponent. A text can be read as a numeral in one way only (`Numeral.text_injective`),
so `Numeral.value` is what the text says. Leaving out zeros at the end of the fraction does not
change it (`Numeral.magnitude_pointed`). The main statement is about the text of a double: it is a
numeral whose value is the double rounded to fourteen significant digits, and it is laid out as the
place of the leading digit demands (`formatNumber_rounded`).
-/

namespace ScriptMachine

/-! ## Numerals -/

/-- An exponent with its sign, if one is written: whether it is a minus. -/
@[ext] structure Exponent where
  minus? : Option Bool
  digits : List Char
  isDigits : IsDigits digits

namespace Exponent

def text (e : Exponent) : List Char :=
  match e.minus? with
  | none => e.digits
  | some minus => (if minus then '-' else '+') :: e.digits

def value (e : Exponent) : ℤ :=
  if e.minus? = some true then -digitsNumber e.digits else digitsNumber e.digits

end Exponent

/-- A decimal as it is written. A fraction stands behind a point, which may dangle, and an exponent
behind an `e`. -/
@[ext] structure Numeral where
  negative : Bool
  whole : List Char
  fraction? : Option (List Char)
  exponent? : Option Exponent
  isDigits_whole : IsDigits whole
  isDigit_fraction : ∀ f ∈ fraction?, ∀ c ∈ f, c.isDigit = true

namespace Numeral

def fractionText (n : Numeral) : List Char := n.fraction?.elim [] ('.' :: ·)

def exponentText (n : Numeral) : List Char := n.exponent?.elim [] ('e' :: ·.text)

def text (n : Numeral) : List Char :=
  (if n.negative then ['-'] else []) ++ (n.whole ++ (n.fractionText ++ n.exponentText))

/-- The digits behind the point. -/
def fraction (n : Numeral) : List Char := n.fraction?.getD []

/-- The value without the sign. -/
def magnitude (n : Numeral) : ℚ :=
  digitsNumber (n.whole ++ n.fraction) / 10 ^ n.fraction.length *
    10 ^ n.exponent?.elim 0 Exponent.value

/-- The value of the decimal. -/
def value (n : Numeral) : ℚ := if n.negative then -n.magnitude else n.magnitude

end Numeral

/-! ## Reading numerals -/

/-- Digits end where something else starts. -/
theorem digits_append_inj {xs xs' ys ys' : List Char} (hx : ∀ c ∈ xs, c.isDigit = true)
    (hx' : ∀ c ∈ xs', c.isDigit = true) (hy : ∀ c ∈ ys.head?, c.isDigit = false)
    (hy' : ∀ c ∈ ys'.head?, c.isDigit = false) (h : xs ++ ys = xs' ++ ys') :
    xs = xs' ∧ ys = ys' := by
  have htake := takeWhile_append_eq hx hy
  have hdrop := dropWhile_append_eq hx hy
  rw [h] at htake hdrop
  rw [takeWhile_append_eq hx' hy'] at htake
  rw [dropWhile_append_eq hx' hy'] at hdrop
  exact ⟨htake.symm, hdrop.symm⟩

/-- Digits do not start with anything else. -/
theorem IsDigits.ne_cons {digits : List Char} (h : IsDigits digits) {c : Char}
    (hc : c.isDigit = false) (cs : List Char) : digits ≠ c :: cs := by
  rintro rfl
  rw [h.isDigit c List.mem_cons_self] at hc
  cases hc

namespace Exponent

theorem text_injective {e e' : Exponent} (h : e.text = e'.text) : e = e' := by
  obtain ⟨minus?, digits, hdigits⟩ := e
  obtain ⟨minus?', digits', hdigits'⟩ := e'
  have hsign : ∀ minus : Bool, (if minus then '-' else '+').isDigit = false := by decide
  cases minus? with
  | none =>
    cases minus?' with
    | none =>
      obtain rfl : digits = digits' := h
      rfl
    | some minus => exact absurd h (hdigits.ne_cons (hsign minus) _)
  | some minus =>
    cases minus?' with
    | none => exact absurd h.symm (hdigits'.ne_cons (hsign minus) _)
    | some minus' =>
      obtain ⟨hminus, rfl⟩ := List.cons.inj h
      obtain rfl : minus = minus' := by
        revert hminus
        cases minus <;> cases minus' <;> decide
      rfl

end Exponent

namespace Numeral

variable {n n' : Numeral}

theorem isDigit_head?_exponentText (n : Numeral) :
    ∀ c ∈ n.exponentText.head?, c.isDigit = false := by
  unfold exponentText
  cases n.exponent? <;> simp

theorem isDigit_head?_rest (n : Numeral) :
    ∀ c ∈ (n.fractionText ++ n.exponentText).head?, c.isDigit = false := by
  unfold fractionText
  cases n.fraction? with
  | none => exact n.isDigit_head?_exponentText
  | some f => simp

theorem exponent?_injective (h : n.exponentText = n'.exponentText) :
    n.exponent? = n'.exponent? := by
  unfold exponentText at h
  cases hn : n.exponent? <;> cases hn' : n'.exponent? <;> simp only [hn, hn', Option.elim] at h
  case none.none => rfl
  case none.some | some.none => cases h
  case some.some => rw [Exponent.text_injective (List.cons.inj h).2]

/-- A point tells whether there is a fraction. -/
theorem rest_injective (h : n.fractionText ++ n.exponentText = n'.fractionText ++ n'.exponentText) :
    n.fraction? = n'.fraction? ∧ n.exponent? = n'.exponent? := by
  have hpoint : ∀ (n : Numeral) (cs : List Char), n.exponentText ≠ '.' :: cs := by
    intro n cs
    unfold exponentText
    cases n.exponent? <;> simp
  have hdigits := n.isDigit_fraction
  have hdigits' := n'.isDigit_fraction
  unfold fractionText at h
  cases hn : n.fraction? <;> cases hn' : n'.fraction? <;> rw [hn, hn'] at h
  case none.none => exact ⟨rfl, exponent?_injective h⟩
  case none.some => exact absurd h (hpoint n _)
  case some.none => exact absurd h.symm (hpoint n' _)
  case some.some =>
    obtain ⟨rfl, hexponent⟩ := digits_append_inj (hdigits _ hn) (hdigits' _ hn')
      n.isDigit_head?_exponentText n'.isDigit_head?_exponentText (List.cons.inj h).2
    exact ⟨rfl, exponent?_injective hexponent⟩

/-- A text is the text of one numeral at most. -/
theorem text_injective (h : n.text = n'.text) : n = n' := by
  have hwhole := n.isDigits_whole
  have hwhole' := n'.isDigits_whole
  have hsign : n.negative = n'.negative ∧
      n.whole ++ (n.fractionText ++ n.exponentText) =
        n'.whole ++ (n'.fractionText ++ n'.exponentText) := by
    obtain ⟨d, ds, hcons⟩ := List.exists_cons_of_ne_nil hwhole.ne_nil
    obtain ⟨d', ds', hcons'⟩ := List.exists_cons_of_ne_nil hwhole'.ne_nil
    have hd : d ≠ '-' := by
      rintro rfl
      exact hwhole.ne_cons rfl _ hcons
    have hd' : d' ≠ '-' := by
      rintro rfl
      exact hwhole'.ne_cons rfl _ hcons'
    unfold text at h
    rw [hcons, hcons'] at h ⊢
    cases hn : n.negative <;> cases hn' : n'.negative <;> simp [hn, hn'] at h
    · exact ⟨rfl, by simp [h]⟩
    · exact absurd h.1 hd
    · exact absurd h.1.symm hd'
    · exact ⟨rfl, by simp [h]⟩
  obtain ⟨hnegative, hdigits⟩ := hsign
  obtain ⟨hwhole, hrest⟩ := digits_append_inj hwhole.isDigit hwhole'.isDigit n.isDigit_head?_rest
    n'.isDigit_head?_rest hdigits
  obtain ⟨hfraction, hexponent⟩ := rest_injective hrest
  exact Numeral.ext hnegative hwhole hfraction hexponent

/-! ## Writing numerals -/

/-- A fraction without the zeros at its end. -/
def trimmed (fraction : List Char) : List Char := fraction.rdropWhile (· = '0')

/-- What is left out of a fraction are zeros. -/
theorem exists_zeros (fraction : List Char) :
    ∃ k, trimmed fraction ++ List.replicate k '0' = fraction := by
  have hzeros : fraction.rtakeWhile (· = '0') =
      List.replicate (fraction.rtakeWhile (· = '0')).length '0' :=
    List.eq_replicate_of_mem fun c hc => by simpa using List.mem_rtakeWhile_imp hc
  exact ⟨_, by rw [trimmed, ← hzeros, List.rdropWhile_append_rtakeWhile]⟩

/-- Zeros at the end of a fraction do not count. -/
theorem digitsNumber_zeros (whole kept : List Char) (k : Nat) :
    (digitsNumber (whole ++ (kept ++ List.replicate k '0')) : ℚ) /
        10 ^ (kept ++ List.replicate k '0').length =
      digitsNumber (whole ++ kept) / 10 ^ kept.length := by
  have hdigits : digitsNumber (whole ++ (kept ++ List.replicate k '0')) =
      10 ^ k * digitsNumber (whole ++ kept) := by
    unfold digitsNumber
    rw [← List.append_assoc, Nat.ofDigitChars_append, Nat.ofDigitChars_replicate_zero]
  rw [hdigits, List.length_append, List.length_replicate, pow_add]
  push_cast
  rw [mul_comm ((10 : ℚ) ^ kept.length), mul_div_mul_left _ _ (by positivity)]

/-- A numeral with the zeros at the end of its fraction left out, and without a fraction if nothing
of it is left. -/
def pointed (negative : Bool) (whole fraction : List Char) (exponent? : Option Exponent)
    (hwhole : IsDigits whole) (hfraction : ∀ c ∈ fraction, c.isDigit = true) : Numeral where
  negative
  whole
  fraction? := if trimmed fraction = [] then none else some (trimmed fraction)
  exponent?
  isDigits_whole := hwhole
  isDigit_fraction f hf c hc := by
    split at hf
    · cases hf
    · obtain rfl := Option.some.inj hf
      exact hfraction c ((List.rdropWhile_prefix _ _).subset hc)

section Pointed

variable {negative : Bool} {whole fraction : List Char} {exponent? : Option Exponent}
  {hwhole : IsDigits whole} {hfraction : ∀ c ∈ fraction, c.isDigit = true}

theorem text_pointed : (pointed negative whole fraction exponent? hwhole hfraction).text =
    (if negative then ['-'] else []) ++
      (writePoint whole fraction ++ exponent?.elim [] ('e' :: ·.text)) := by
  have hpoint : writePoint whole fraction =
      whole ++ if trimmed fraction = [] then [] else '.' :: trimmed fraction := by
    unfold writePoint
    rw [← List.rdropWhile.eq_1, ← trimmed]
    by_cases hempty : trimmed fraction = [] <;> simp [hempty]
  rw [hpoint]
  unfold text fractionText exponentText pointed
  by_cases hempty : trimmed fraction = [] <;> simp [hempty]

/-- The fraction is not empty and does not end with a zero. -/
theorem fraction?_pointed {f : List Char}
    (h : (pointed negative whole fraction exponent? hwhole hfraction).fraction? = some f) :
    f ≠ [] ∧ f.getLast? ≠ some '0' := by
  unfold pointed at h
  dsimp only at h
  split at h
  · cases h
  · next hne =>
    obtain rfl := Option.some.inj h
    have hlast := List.rdropWhile_last_not (· = '0') fraction hne
    refine ⟨hne, ?_⟩
    rw [List.getLast?_eq_some_getLast hne]
    simpa [trimmed] using hlast

theorem magnitude_pointed : (pointed negative whole fraction exponent? hwhole hfraction).magnitude =
    digitsNumber (whole ++ fraction) / 10 ^ fraction.length *
      10 ^ exponent?.elim 0 Exponent.value := by
  have hfraction' : (pointed negative whole fraction exponent? hwhole hfraction).fraction =
      trimmed fraction := by
    unfold Numeral.fraction pointed
    by_cases hempty : trimmed fraction = [] <;> simp [hempty]
  obtain ⟨k, hk⟩ := exists_zeros fraction
  unfold magnitude
  rw [hfraction']
  congr 1
  conv_rhs => rw [← hk]
  exact (digitsNumber_zeros _ _ k).symm

end Pointed

end Numeral

/-- The exponent as it is written: with a sign and at least two digits. -/
def writtenExponent (exponent : ℤ) : Exponent where
  minus? := some (exponent < 0)
  digits := (writeExponent exponent).tail
  isDigits := by
    have hdigit : ∀ c ∈ Nat.toDigits 10 exponent.natAbs, c.isDigit = true := fun c hc =>
      Nat.isDigit_of_mem_toDigits (by decide) (by decide) hc
    unfold writeExponent
    dsimp only [List.tail_cons]
    split
    · exact ⟨List.cons_ne_nil _ _, List.forall_mem_cons.2 ⟨rfl, hdigit⟩⟩
    · exact ⟨Nat.toDigits_ne_nil, hdigit⟩

theorem text_writtenExponent (exponent : ℤ) :
    (writtenExponent exponent).text = writeExponent exponent := by
  unfold Exponent.text writtenExponent writeExponent
  simp

theorem two_le_length_writtenExponent (exponent : ℤ) :
    2 ≤ (writtenExponent exponent).digits.length := by
  have hpos : 0 < (Nat.toDigits 10 exponent.natAbs).length := Nat.length_toDigits_pos
  unfold writtenExponent writeExponent
  dsimp only [List.tail_cons]
  split
  · rw [List.length_cons]
    omega
  · omega

theorem value_writtenExponent (exponent : ℤ) : (writtenExponent exponent).value = exponent := by
  have hdigits : digitsNumber (writtenExponent exponent).digits = exponent.natAbs := by
    unfold writtenExponent writeExponent digitsNumber
    dsimp only [List.tail_cons]
    split
    · exact Nat.ofDigitChars_ten_toDigits
    · exact Nat.ofDigitChars_ten_toDigits
  have hsign : (writtenExponent exponent).minus? = some true ↔ exponent < 0 := by
    simp [writtenExponent]
  unfold Exponent.value
  rw [hdigits]
  simp only [hsign]
  split <;> omega

/-! ## Layout -/

/-- A numeral as it is laid out when its leading digit has the place `place`. -/
structure Numeral.LaidOut (n : Numeral) (place : ℤ) : Prop where
  /-- Very small and very large numbers have an exponent. -/
  exponent_iff : n.exponent?.isSome ↔ place < -4 ∨ 14 ≤ place
  /-- It has a sign and two digits or more. -/
  exponent_digits : ∀ e ∈ n.exponent?, e.value = place ∧ e.minus?.isSome ∧ 2 ≤ e.digits.length
  /-- All digits in front of the point are there. -/
  whole_length : n.whole.length = if n.exponent?.isSome then 1 else place.toNat + 1
  /-- A point has digits behind it, and the last of them counts. -/
  fraction_last : ∀ f ∈ n.fraction?, f ≠ [] ∧ f.getLast? ≠ some '0'

namespace Significant

variable {d : Significant}

theorem Full.length_digitChars (h : d.Full) : d.digitChars.length = 14 := by
  have hle := (Nat.length_toDigits_le_iff (b := 10) (by decide) (by decide : 0 < 14)).2 h.lt
  have hgt : ¬(Nat.toDigits 10 d.digits).length ≤ 13 := fun hle =>
    absurd ((Nat.length_toDigits_le_iff (by decide) (by decide)).1 hle) (not_lt.2 h.le)
  unfold digitChars
  omega

theorem isDigit_digitChars (d : Significant) : ∀ c ∈ d.digitChars, c.isDigit = true :=
  fun _ hc => Nat.isDigit_of_mem_toDigits (by decide) (by decide) hc

theorem digitsNumber_digitChars (d : Significant) : digitsNumber d.digitChars = d.digits :=
  Nat.ofDigitChars_ten_toDigits

theorem isDigits_take (h : d.Full) (n : Nat) : IsDigits (d.digitChars.take (n + 1)) where
  ne_nil heq := by
    have hlength := congrArg List.length heq
    rw [List.length_take, h.length_digitChars, List.length_nil] at hlength
    omega
  isDigit c hc := d.isDigit_digitChars c (List.mem_of_mem_take hc)

theorem isDigit_drop (d : Significant) (n : Nat) : ∀ c ∈ d.digitChars.drop n, c.isDigit = true :=
  fun c hc => d.isDigit_digitChars c (List.mem_of_mem_drop hc)

/-- A numeral that the digits are written as, with a sign in front. -/
structure WrittenAs (d : Significant) (negative : Bool) (n : Numeral) : Prop where
  text : n.text = if negative then '-' :: d.write else d.write
  value : n.value = if negative then -d.value else d.value
  laidOut : n.LaidOut d.exponent

theorem isScientific_iff : d.isScientific = true ↔ d.exponent < -4 ∨ 14 ≤ d.exponent := by
  unfold isScientific
  rw [Bool.or_eq_true, decide_eq_true_iff, decide_eq_true_iff]
  rfl

section Layout

variable (h : d.Full) (negative : Bool) {whole fraction : List Char} (exponent? : Option Exponent)
  (hwhole : IsDigits whole) (hfraction : ∀ c ∈ fraction, c.isDigit = true)

/-- What has to be seen of the parts that are written. -/
theorem writtenAs_pointed
    (htext : d.write = writePoint whole fraction ++ exponent?.elim [] ('e' :: ·.text))
    (hvalue : (digitsNumber (whole ++ fraction) : ℚ) / 10 ^ fraction.length *
      10 ^ exponent?.elim 0 Exponent.value = d.value)
    (hiff : exponent?.isSome ↔ d.exponent < -4 ∨ 14 ≤ d.exponent)
    (hdigits : ∀ e ∈ exponent?, e.value = d.exponent ∧ e.minus?.isSome ∧ 2 ≤ e.digits.length)
    (hlength : whole.length = if exponent?.isSome then 1 else d.exponent.toNat + 1) :
    d.WrittenAs negative (.pointed negative whole fraction exponent? hwhole hfraction) where
  text := by
    rw [Numeral.text_pointed, htext]
    cases negative <;> rfl
  value := by
    rw [Numeral.value, Numeral.magnitude_pointed, hvalue]
    rfl
  laidOut := ⟨hiff, hdigits, hlength, fun _ hf => Numeral.fraction?_pointed hf⟩

include h in
/-- With an exponent, one digit stands in front of the point. -/
theorem exists_scientific (hexponent : d.exponent < -4 ∨ 14 ≤ d.exponent) :
    ∃ n, d.WrittenAs negative n := by
  refine ⟨_, writtenAs_pointed negative (some (writtenExponent d.exponent))
    (isDigits_take h 0) (d.isDigit_drop 1) ?_ ?_ ?_ ?_ ?_⟩
  · unfold write
    simp [isScientific_iff.2 hexponent, text_writtenExponent]
  · rw [List.take_append_drop, digitsNumber_digitChars, List.length_drop, h.length_digitChars,
      Option.elim, value_writtenExponent, value, zpow_sub₀ (by norm_num)]
    norm_num
    ring
  · simp [hexponent]
  · rintro e he
    obtain rfl := Option.some.inj he
    exact ⟨value_writtenExponent _, rfl, two_le_length_writtenExponent _⟩
  · simp [h.length_digitChars]

include h in
/-- Small numbers have zeros in front of their digits. -/
theorem exists_small (hneg : d.exponent < 0) (hplain : -4 ≤ d.exponent) :
    ∃ n, d.WrittenAs negative n := by
  obtain ⟨k, hk⟩ : ∃ k : Nat, d.exponent = -(k + 1) := ⟨d.exponent.natAbs - 1, by omega⟩
  have hscientific : ¬d.isScientific = true := by
    rw [isScientific_iff]
    omega
  have hfraction : ∀ c ∈ List.replicate k '0' ++ d.digitChars, c.isDigit = true := by
    refine List.forall_mem_append.2 ⟨fun c hc => ?_, d.isDigit_digitChars⟩
    rw [List.eq_of_mem_replicate hc]
    rfl
  have hnumber : digitsNumber (['0'] ++ (List.replicate k '0' ++ d.digitChars)) = d.digits := by
    rw [← List.append_assoc, List.singleton_append, ← List.replicate_succ, digitsNumber,
      Nat.ofDigitChars_append, Nat.ofDigitChars_replicate_zero, mul_zero]
    exact d.digitsNumber_digitChars
  refine ⟨_, writtenAs_pointed negative none ⟨List.cons_ne_nil '0' [],
    List.forall_mem_singleton.2 (by decide)⟩
    hfraction ?_ ?_ ?_ nofun ?_⟩
  · unfold write
    have habs : d.exponent.natAbs - 1 = k := by omega
    simp [hscientific, hneg, habs]
  · have hplace : d.exponent - 13 = -((k + 14 : Nat) : ℤ) := by omega
    rw [hnumber, List.length_append, List.length_replicate, h.length_digitChars, value, hplace,
      zpow_neg, zpow_natCast]
    simp [div_eq_mul_inv]
  · simp
    omega
  · simp
    omega

include h in
/-- The point stands behind the digit of the ones. -/
theorem exists_large (hnonneg : 0 ≤ d.exponent) (hplain : d.exponent < 14) :
    ∃ n, d.WrittenAs negative n := by
  obtain ⟨k, hk⟩ := Int.eq_ofNat_of_zero_le hnonneg
  have hscientific : ¬d.isScientific = true := by
    rw [isScientific_iff]
    omega
  refine ⟨_, writtenAs_pointed negative none (isDigits_take h k)
    (d.isDigit_drop (k + 1)) ?_ ?_ ?_ nofun ?_⟩
  · unfold write
    have hneg : ¬d.exponent < 0 := by omega
    have habs : d.exponent.toNat = k := by omega
    simp [hscientific, hneg, habs]
  · have hplace : d.exponent - 13 = -((14 - (k + 1) : Nat) : ℤ) := by omega
    rw [List.take_append_drop, digitsNumber_digitChars, List.length_drop, h.length_digitChars,
      value, hplace, zpow_neg, zpow_natCast]
    simp [div_eq_mul_inv]
  · simp
    omega
  · simp [h.length_digitChars]
    omega

end Layout

/-- Fourteen digits are written as a numeral with their value. -/
theorem Full.exists_writtenAs (h : d.Full) (negative : Bool) : ∃ n, d.WrittenAs negative n := by
  by_cases hexponent : d.exponent < -4 ∨ 14 ≤ d.exponent
  · exact exists_scientific h negative hexponent
  · by_cases hneg : d.exponent < 0
    · exact exists_small h negative hneg (by omega)
    · exact exists_large h negative (by omega) (by omega)

end Significant

/-! ## Doubles -/

theorem Significant.Full.value_pos {d : Significant} (h : d.Full) : 0 < d.value := by
  have hdigits : (0 : ℚ) < d.digits := by
    exact_mod_cast lt_of_lt_of_le (by decide : 0 < 10 ^ 13) h.le
  unfold Significant.value
  positivity

theorem exact_true (mantissa : Nat) (exponent : ℤ) :
    Binary64.exact true mantissa exponent = -Binary64.exact false mantissa exponent := by
  simp [Binary64.exact, Binary64.signed]

/-- The digits of a double are those of its exact value. -/
theorem ofBinary_eq {mantissa : Nat} (hmantissa : mantissa ≠ 0) {exponent : ℤ} {v : ℚ}
    (hv : v = Binary64.exact false mantissa exponent) :
    0 < v ∧ (Significant.ofBinary mantissa exponent).Full ∧
      (Significant.ofBinary mantissa exponent).value = roundedAt (Int.log 10 v - 13) v ∧
      (Significant.ofBinary mantissa exponent).value =
        roundedAt ((Significant.ofBinary mantissa exponent).exponent - 13) v := by
  have hnum : mantissa * 2 ^ exponent.toNat ≠ 0 := Nat.mul_ne_zero hmantissa (by positivity)
  have hden : 2 ^ (-exponent).toNat ≠ 0 := by positivity
  have hfraction : v = ((mantissa * 2 ^ exponent.toNat : Nat) : ℚ) /
    (2 ^ (-exponent).toNat : Nat) := by
    push_cast
    rw [hv, mul_div_assoc, pow_toNat_div, Binary64.exact, Binary64.signed]
    simp
  have hpos : 0 < v := by
    rw [hfraction]
    positivity
  exact ⟨hpos, ofFraction_eq hnum hden hfraction⟩

theorem formatNumber_of_ne_zero {x : Float} {negative : Bool} {mantissa : Nat} {exponent : ℤ}
    (hx : Binary64.ofFloat x = .finite negative mantissa exponent) (hmantissa : mantissa ≠ 0) :
    formatNumber x = String.ofList
      (if negative then '-' :: (Significant.ofBinary mantissa exponent).write
        else (Significant.ofBinary mantissa exponent).write) := by
  unfold formatNumber
  rw [hx, Binary64.write]
  simp only [hmantissa, if_false]

/-- The text of a finite double other than zero, with the exact value `v`, says what `v` is when it
is rounded to fourteen significant digits. That is `v` rounded thirteen places behind the leading
digit of `v`, and also `v` rounded thirteen places behind the leading digit of the result. It is
laid out as the place of that digit demands, and cannot be read in any other way. -/
theorem formatNumber_rounded {x : Float} {negative : Bool} {mantissa : Nat} {exponent : ℤ}
    (hx : Binary64.ofFloat x = .finite negative mantissa exponent) (hmantissa : mantissa ≠ 0) :
    let v := Binary64.exact negative mantissa exponent
    let r := roundedAt (Int.log 10 |v| - 13) v
    let place := Int.log 10 |r|
    r = roundedAt (place - 13) v ∧
      ∃ n : Numeral, formatNumber x = String.ofList n.text ∧ n.value = r ∧ n.LaidOut place ∧
        ∀ n' : Numeral, n'.text = n.text → n' = n := by
  intro v r place
  obtain ⟨w, hw⟩ : ∃ w, w = Binary64.exact false mantissa exponent := ⟨_, rfl⟩
  obtain ⟨hpos, hfull, hrounded, hrounded'⟩ := ofBinary_eq hmantissa hw
  generalize hd : Significant.ofBinary mantissa exponent = d at hfull hrounded hrounded'
  have hv : v = if negative then -w else w := by
    cases negative
    · exact hw.symm
    · exact (exact_true mantissa exponent).trans (congrArg _ hw.symm)
  have hsign : ∀ place, roundedAt place v =
      if negative then -roundedAt place w else roundedAt place w := by
    intro k
    rw [hv]
    cases negative
    · rfl
    · exact roundedAt_neg k w
  have hr : r = if negative then -d.value else d.value := by
    have habs : |v| = w := by
      rw [hv]
      cases negative <;> simp [abs_of_pos hpos]
    rw [hrounded, ← hsign, ← habs]
  have hplace : place = d.exponent := by
    have habs : |r| = d.value := by
      rw [hr]
      cases negative <;> simp [abs_of_pos hfull.value_pos]
    exact (congrArg (Int.log 10) habs).trans hfull.log_value
  obtain ⟨n, hn⟩ := hfull.exists_writtenAs negative
  refine ⟨?_, n, ?_, hn.value.trans hr.symm, hplace ▸ hn.laidOut, fun _ => Numeral.text_injective⟩
  · rw [hsign, hplace, ← hrounded', hr]
  · rw [hn.text, formatNumber_of_ne_zero hx hmantissa, hd]

/-- A number just below `10 ^ 14`, whose digits carry when they are rounded. -/
theorem formatNumber_rounded_demo :
    (Binary64.ofFloat 99999999999999.96 = .finite false 6399999999999997 (-6) ∧
        6399999999999997 ≠ 0) ∧
      10 ^ 14 = roundedAt 1 (Binary64.exact false 6399999999999997 (-6)) ∧
      ∃ n : Numeral, formatNumber 99999999999999.96 = String.ofList n.text ∧
        n.value = 10 ^ 14 ∧ n.LaidOut 14 ∧ ∀ n' : Numeral, n'.text = n.text → n' = n := by
  have hr : roundedAt (Int.log 10 |Binary64.exact false 6399999999999997 (-6)| - 13)
      (Binary64.exact false 6399999999999997 (-6)) = 10 ^ 14 := by decide +kernel
  have hplace : Int.log 10 |(10 ^ 14 : ℚ)| = 14 := by decide +kernel
  have hx : Binary64.ofFloat 99999999999999.96 = .finite false 6399999999999997 (-6) := by decide
  have hrounded := formatNumber_rounded hx (by decide)
  dsimp only at hrounded
  rw [hr, hplace] at hrounded
  exact ⟨⟨hx, by decide⟩, hrounded⟩

end ScriptMachine
