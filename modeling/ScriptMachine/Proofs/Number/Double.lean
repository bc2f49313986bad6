import ScriptMachine.Number.Binary64
import ScriptMachine.Proofs.Number.Nearest

/-!
# Numbers read as doubles

A double has up to 53 binary digits and no digit behind the place -1074, so what a number is
rounded to depends on the place of its leading digit (`Binary64.lastPlace`,
`Binary64.rounded`). `IsDouble q x` says that the bits of `x` encode the double nearest to a
number `q` that is not negative. There is one such `x` (`IsDouble.unique`), as every double is
encoded in one way (`Encodable.ofBits_toBits`, `toBits_of_ofBits_eq`), and it is what
`Binary64.ofRatio` computes in natural numbers (`isDouble_ofRatio`).
-/

namespace ScriptMachine

namespace Binary64

/-! ## Exact values -/

/-- The mantissa with its sign. -/
def signed (negative : Bool) (mantissa : Nat) : Int := if negative then -mantissa else mantissa

/-- The exact value of a finite number. -/
def exact (negative : Bool) (mantissa : Nat) (exponent : Int) : ℚ :=
  signed negative mantissa * 2 ^ exponent

/-! ## Rounding -/

/-- The place of the last binary digit that a double has for a number. -/
def lastPlace (q : ℚ) : ℤ := max (Int.log 2 q - 52) (-1074)

/-- A number rounded to the last binary digit of a double, a tie going to the even one. -/
def rounded (q : ℚ) : ℚ := nearestInt (q / 2 ^ lastPlace q) * 2 ^ lastPlace q

/-- The double nearest to a number that is not negative. What is rounded to 2 ^ 1024 or more
is infinite. -/
inductive Nearest (q : ℚ) : Binary64 → Prop
  | finite {mantissa : Nat} {exponent : Int} (h : exact false mantissa exponent = rounded q) :
      Nearest q (.finite false mantissa exponent)
  | infinite (h : 2 ^ 1024 ≤ rounded q) : Nearest q (.infinite false)

theorem rounded_zero : rounded 0 = 0 := by
  have hnearest : nearestInt 0 = 0 := nearestInt_eq_iff.2 (.of_near (by norm_num))
  rw [rounded, zero_div, hnearest, Int.cast_zero, zero_mul]

/-- Integers of up to 53 binary digits are not rounded. -/
theorem rounded_natCast {n : Nat} (h : n < 2 ^ 53) : rounded n = n := by
  rcases Nat.eq_zero_or_pos n with rfl | hpos
  · exact_mod_cast rounded_zero
  have hlog : Int.log 2 (n : ℚ) < 53 :=
    (Int.lt_zpow_iff_log_lt (by decide) (by exact_mod_cast hpos)).1 (by exact_mod_cast h)
  obtain ⟨k, hk⟩ : ∃ k : Nat, lastPlace n = -(k : ℤ) :=
    ⟨(-lastPlace n).toNat, by unfold lastPlace; omega⟩
  have hshifted : (n : ℚ) / 2 ^ lastPlace n = ((n * 2 ^ k : ℤ) : ℚ) := by
    rw [hk, zpow_neg, div_inv_eq_mul]
    push_cast
    rw [zpow_natCast]
  have hnearest : nearestInt ((n * 2 ^ k : ℤ) : ℚ) = n * 2 ^ k :=
    nearestInt_eq_iff.2 (.of_near (by norm_num))
  rw [rounded, hshifted, hnearest, ← hshifted, div_mul_cancel₀ _ (by positivity)]

/-! ## Encodings -/

/-- The sign, the biased exponent and the fraction that 64 bits consist of. -/
structure Fields (bits : UInt64) (negative : Bool) (biased fraction : Nat) : Prop where
  biased_lt : biased < 2 ^ 11
  fraction_lt : fraction < 2 ^ 52
  toNat : bits.toNat = (if negative then 2 ^ 63 else 0) + biased * 2 ^ 52 + fraction

namespace Fields

variable {bits : UInt64} {negative : Bool} {biased fraction : Nat}

theorem exists_fields (bits : UInt64) : ∃ negative biased fraction,
    Fields bits negative biased fraction := by
  have hlt := bits.toNat_lt
  refine ⟨2 ^ 63 ≤ bits.toNat, bits.toNat / 2 ^ 52 % 2 ^ 11, bits.toNat % 2 ^ 52,
    Nat.mod_lt _ (by decide), Nat.mod_lt _ (by decide), ?_⟩
  simp only [decide_eq_true_eq]
  split <;> omega

theorem ofBits_eq (h : Fields bits negative biased fraction) : ofBits bits =
    if biased = 2047 then if fraction = 0 then .infinite negative else .nan
    else if biased = 0 then .finite negative fraction minExponent
    else .finite negative (2 ^ 52 + fraction) (biased - 1075) := by
  obtain ⟨hbiased, hfraction, hbits⟩ := h
  have hnegative : decide (bits.toNat / 2 ^ 63 = 1) = negative := by
    rw [hbits]
    cases negative <;> simp <;> omega
  have hbiased' : bits.toNat / 2 ^ 52 % 2 ^ 11 = biased := by
    rw [hbits]
    cases negative <;> simp <;> omega
  have hfraction' : bits.toNat % 2 ^ 52 = fraction := by
    rw [hbits]
    cases negative <;> simp <;> omega
  unfold ofBits
  simp only [Nat.pow_eq, hnegative, hbiased', hfraction']

/-- Bits with these fields. -/
theorem ofNat {n : Nat} (hbiased : biased < 2 ^ 11) (hfraction : fraction < 2 ^ 52)
    (hn : n = (if negative then 2 ^ 63 else 0) + biased * 2 ^ 52 + fraction) :
    Fields n.toUInt64 negative biased fraction := by
  refine ⟨hbiased, hfraction, ?_⟩
  rw [Nat.toUInt64_eq, UInt64.toNat_ofNat', hn, Nat.mod_eq_of_lt]
  split <;> omega

theorem eq_toUInt64 (h : Fields bits negative biased fraction) {n : Nat}
    (hn : n = (if negative then 2 ^ 63 else 0) + biased * 2 ^ 52 + fraction) :
    bits = n.toUInt64 := by
  rw [hn, ← h.toNat, Nat.toUInt64_eq, UInt64.ofNat_toNat]

end Fields

/-- A mantissa and an exponent as the bits of a double give them: the leading one of 53 digits is
there, unless the exponent is the least. -/
structure Encodable (mantissa : Nat) (exponent : Int) : Prop where
  lt : mantissa < 2 ^ 53
  normal : 2 ^ 52 ≤ mantissa ∨ exponent = minExponent
  ge : minExponent ≤ exponent
  le : exponent ≤ maxExponent

namespace Encodable

variable {negative : Bool} {mantissa mantissa' : Nat} {exponent exponent' : Int}

theorem finiteBits_eq (h : Encodable mantissa exponent) : finiteBits negative mantissa exponent =
    (if negative then 2 ^ 63 else 0) +
      if mantissa < 2 ^ 52 then mantissa
      else (exponent + 1075).toNat * 2 ^ 52 + (mantissa - 2 ^ 52) := by
  have hshift : min (52 - mantissa.log2) (exponent - minExponent).toNat = 0 := by
    rcases h.normal with hnormal | hleast
    · have hlog : 52 ≤ mantissa.log2 := (Nat.le_log2 (by omega)).2 hnormal
      omega
    · rw [hleast, sub_self]
      exact Nat.min_zero _
  unfold finiteBits
  rw [hshift]
  simp only [Nat.pow_eq, pow_zero, mul_one, Nat.cast_zero, sub_zero]

theorem ofBits_toBits (h : Encodable mantissa exponent) :
    ofBits (toBits (.finite negative mantissa exponent)) = .finite negative mantissa exponent := by
  obtain ⟨hlt, hnormal, hge, hle⟩ := id h
  unfold minExponent at hnormal hge
  unfold maxExponent at hle
  by_cases hsmall : mantissa < 2 ^ 52
  · have hfields : Fields (toBits (.finite negative mantissa exponent)) negative 0 mantissa :=
      .ofNat (by decide) hsmall (by rw [h.finiteBits_eq, if_pos hsmall]; omega)
    have hleast : exponent = minExponent := hnormal.resolve_left (by omega)
    rw [hfields.ofBits_eq, if_neg (by decide), if_pos rfl, hleast]
  · have hfields : Fields (toBits (.finite negative mantissa exponent)) negative
        (exponent + 1075).toNat (mantissa - 2 ^ 52) :=
      .ofNat (by omega) (by omega) (by rw [h.finiteBits_eq, if_neg hsmall]; omega)
    have hmantissa : 2 ^ 52 + (mantissa - 2 ^ 52) = mantissa := by omega
    have hexponent : ((exponent + 1075).toNat : ℤ) - 1075 = exponent := by omega
    rw [hfields.ofBits_eq, if_neg (by omega), if_neg (by omega), hmantissa, hexponent]

/-- Of two encodings of one number, none has the greater exponent. -/
theorem exponent_le (h : Encodable mantissa exponent) (h' : Encodable mantissa' exponent')
    (hvalue : exact false mantissa exponent = exact false mantissa' exponent') :
    exponent' ≤ exponent := by
  by_contra hlt
  obtain ⟨k, rfl⟩ : ∃ k : Nat, exponent' = exponent + (k + 1 : Nat) :=
    ⟨(exponent' - exponent - 1).toNat, by omega⟩
  have hpow : (2 : ℚ) ^ exponent ≠ 0 := zpow_ne_zero _ two_ne_zero
  have hmantissa : mantissa = mantissa' * 2 ^ (k + 1) := by
    simp only [exact, signed, Bool.false_eq_true, if_false, Int.cast_natCast] at hvalue
    rw [zpow_add₀ two_ne_zero, zpow_natCast, mul_comm ((2 : ℚ) ^ exponent), ← mul_assoc,
      mul_left_inj' hpow] at hvalue
    exact_mod_cast hvalue
  have hnormal : 2 ^ 52 ≤ mantissa' := h'.normal.resolve_right (by have := h.ge; omega)
  have hle : 2 ^ 52 * 2 ^ 1 ≤ mantissa' * 2 ^ (k + 1) :=
    Nat.mul_le_mul hnormal (Nat.pow_le_pow_right (by decide) (by omega))
  have hmax := h.lt
  omega

/-- A number has one encoding. -/
theorem unique (h : Encodable mantissa exponent) (h' : Encodable mantissa' exponent')
    (hvalue : exact false mantissa exponent = exact false mantissa' exponent') :
    mantissa = mantissa' ∧ exponent = exponent' := by
  have hexponent : exponent = exponent' :=
    le_antisymm (h'.exponent_le h hvalue.symm) (h.exponent_le h' hvalue)
  subst hexponent
  refine ⟨?_, rfl⟩
  simp only [exact, signed, Bool.false_eq_true, if_false, Int.cast_natCast] at hvalue
  exact_mod_cast (mul_left_inj' (zpow_ne_zero exponent (two_ne_zero (α := ℚ)))).1 hvalue

end Encodable

/-- What bits encode, if it is finite, has only these bits. -/
theorem finite_of_ofBits {bits : UInt64} {negative : Bool} {mantissa : Nat} {exponent : Int}
    (h : ofBits bits = .finite negative mantissa exponent) :
    Encodable mantissa exponent ∧ bits = toBits (.finite negative mantissa exponent) := by
  obtain ⟨negative', biased, fraction, hfields⟩ := Fields.exists_fields bits
  have hbiased := hfields.biased_lt
  have hfraction := hfields.fraction_lt
  rw [hfields.ofBits_eq] at h
  split_ifs at h with hspecial hzero hleast
  · cases h
    have hencodable : Encodable mantissa minExponent :=
      ⟨by omega, .inr rfl, le_rfl, by decide⟩
    refine ⟨hencodable, hfields.eq_toUInt64 ?_⟩
    rw [hencodable.finiteBits_eq, if_pos hfraction, hleast]
    omega
  · cases h
    have hencodable : Encodable (2 ^ 52 + fraction) ((biased : ℤ) - 1075) := by
      refine ⟨by omega, .inl (by omega), ?_, ?_⟩
      · unfold minExponent
        omega
      · unfold maxExponent
        omega
    refine ⟨hencodable, hfields.eq_toUInt64 ?_⟩
    rw [hencodable.finiteBits_eq, if_neg (Nat.not_lt.2 (Nat.le_add_right _ _))]
    omega

theorem ofBits_eq_infinite_iff {bits : UInt64} {negative : Bool} :
    ofBits bits = .infinite negative ↔ bits = toBits (.infinite negative) := by
  constructor
  · intro h
    obtain ⟨negative', biased, fraction, hfields⟩ := Fields.exists_fields bits
    rw [hfields.ofBits_eq] at h
    split_ifs at h with hspecial hzero
    cases h
    subst hspecial hzero
    rw [hfields.eq_toUInt64 rfl]
    cases negative <;> rfl
  · rintro rfl
    cases negative <;> decide

/-! ## The nearest double -/

theorem Encodable.exact_lt {mantissa : Nat} {exponent : Int} (h : Encodable mantissa exponent) :
    exact false mantissa exponent < 2 ^ 1024 := by
  have hmantissa : (mantissa : ℚ) < 2 ^ 53 := by exact_mod_cast h.lt
  have hexponent : (2 : ℚ) ^ exponent ≤ 2 ^ (971 : ℤ) := zpow_le_zpow_right₀ one_le_two h.le
  calc exact false mantissa exponent = mantissa * 2 ^ exponent := rfl
    _ < 2 ^ 53 * 2 ^ (971 : ℤ) :=
      mul_lt_mul hmantissa hexponent (zpow_pos two_pos _) (by positivity)
    _ = 2 ^ 1024 := by
      rw [← zpow_natCast, ← zpow_natCast, ← zpow_add₀ two_ne_zero]
      rfl

/-- Only one double is nearest. -/
theorem Nearest.unique {q : ℚ} {bits bits' : UInt64} (h : Nearest q (ofBits bits))
    (h' : Nearest q (ofBits bits')) : bits = bits' := by
  generalize hb : ofBits bits = b at h
  generalize hb' : ofBits bits' = b' at h'
  cases h with
  | finite h =>
    obtain ⟨hencodable, rfl⟩ := finite_of_ofBits hb
    cases h' with
    | finite h' =>
      obtain ⟨hencodable', rfl⟩ := finite_of_ofBits hb'
      obtain ⟨rfl, rfl⟩ := hencodable.unique hencodable' (h.trans h'.symm)
      rfl
    | infinite h' => exact absurd (h ▸ hencodable.exact_lt) (not_lt.2 h')
  | infinite h =>
    cases h' with
    | finite h' =>
      exact absurd (h' ▸ (finite_of_ofBits hb').1.exact_lt) (not_lt.2 h)
    | infinite h' => rw [ofBits_eq_infinite_iff.1 hb, ofBits_eq_infinite_iff.1 hb']

section OfRatio

variable {num den : Nat} (hnum : num ≠ 0) (hden : den ≠ 0)

include hnum hden in
theorem binaryExponent_eq_log : binaryExponent num den = Int.log 2 (num / den : ℚ) := by
  have hpos : (0 : ℚ) < den := by exact_mod_cast Nat.pos_of_ne_zero hden
  have hnum_le : (2 : ℚ) ^ (num.log2 : ℤ) ≤ num := by exact_mod_cast Nat.log2_self_le hnum
  have hnum_lt : (num : ℚ) < 2 ^ (num.log2 + 1 : ℤ) := by exact_mod_cast Nat.lt_log2_self
  have hden_le : (2 : ℚ) ^ (den.log2 : ℤ) ≤ den := by exact_mod_cast Nat.log2_self_le hden
  have hden_lt : (den : ℚ) < 2 ^ (den.log2 + 1 : ℤ) := by exact_mod_cast Nat.lt_log2_self
  -- The logarithms differ by the place of the leading digit, or by one more.
  have habove : (num / den : ℚ) < 2 ^ (num.log2 - den.log2 + 1 : ℤ) := by
    rw [div_lt_iff₀ hpos]
    calc (num : ℚ) < 2 ^ (num.log2 + 1 : ℤ) := hnum_lt
      _ = 2 ^ (num.log2 - den.log2 + 1 : ℤ) * 2 ^ (den.log2 : ℤ) := by
        rw [← zpow_add₀ two_ne_zero]
        congr 1
        ring
      _ ≤ 2 ^ (num.log2 - den.log2 + 1 : ℤ) * den :=
        mul_le_mul_of_nonneg_left hden_le (zpow_nonneg two_pos.le _)
  have hbelow : (2 : ℚ) ^ (num.log2 - den.log2 - 1 : ℤ) ≤ num / den := by
    rw [le_div_iff₀ hpos]
    calc (2 : ℚ) ^ (num.log2 - den.log2 - 1 : ℤ) * den
        ≤ 2 ^ (num.log2 - den.log2 - 1 : ℤ) * 2 ^ (den.log2 + 1 : ℤ) :=
        mul_le_mul_of_nonneg_left hden_lt.le (zpow_nonneg two_pos.le _)
      _ = 2 ^ (num.log2 : ℤ) := by
        rw [← zpow_add₀ two_ne_zero]
        congr 1
        ring
      _ ≤ num := hnum_le
  unfold binaryExponent
  generalize (num.log2 : ℤ) - den.log2 = guess at *
  have hle_iff : den * Nat.pow 2 guess.toNat ≤ num * Nat.pow 2 (-guess).toNat ↔
      (2 : ℚ) ^ guess ≤ num / den := by
    rw [le_div_iff₀ hpos, ← pow_toNat_div, div_mul_eq_mul_div, div_le_iff₀ (by positivity),
      mul_comm]
    exact_mod_cast Iff.rfl
  symm
  dsimp only
  split
  · next hguess =>
    exact log_eq_of_le_of_lt (by decide) (by exact_mod_cast hle_iff.1 hguess)
      (by exact_mod_cast habove)
  · next hguess =>
    refine log_eq_of_le_of_lt (by decide) (by exact_mod_cast hbelow) ?_
    rw [sub_add_cancel]
    exact_mod_cast not_le.1 (mt hle_iff.2 hguess)

/-- Rounded at its last place, a number has up to 53 digits or is 2 ^ 53. It has 53 digits, unless
the place is the least. -/
theorem nearestInt_lastPlace {q : ℚ} (hq : 0 < q) : nearestInt (q / 2 ^ lastPlace q) ≤ 2 ^ 53 ∧
    (2 ^ 52 ≤ nearestInt (q / 2 ^ lastPlace q) ∨ lastPlace q = minExponent) := by
  have hnearest := isNearest_nearestInt (q / 2 ^ lastPlace q)
  obtain ⟨hlower, hupper⟩ := scaled_bounds (b := 2) (by decide) hq (lastPlace q)
  rw [Nat.cast_ofNat] at hlower hupper
  constructor
  · refine hnearest.le (m := 2 ^ 53) (hupper.le.trans ?_)
    have hplace : Int.log 2 q + 1 - lastPlace q ≤ (53 : ℕ) := by
      unfold lastPlace
      omega
    rw [Int.cast_pow, Int.cast_ofNat, ← zpow_natCast]
    exact zpow_le_zpow_right₀ one_le_two hplace
  · by_cases hleast : lastPlace q = minExponent
    · exact .inr hleast
    · refine .inl (hnearest.ge (m := 2 ^ 52) (le_trans ?_ hlower))
      have hplace : (52 : ℕ) ≤ Int.log 2 q - lastPlace q := by
        unfold lastPlace minExponent at hleast
        unfold lastPlace
        omega
      rw [Int.cast_pow, Int.cast_ofNat, ← zpow_natCast]
      exact zpow_le_zpow_right₀ one_le_two hplace

/-- What mantissa and exponent stand for. -/
theorem exact_false (mantissa : Nat) (exponent : Int) :
    exact false mantissa exponent = mantissa * 2 ^ exponent := rfl

include hnum hden in
/-- A fraction is rounded in natural numbers, and 2 ^ 53 is written with the next exponent. -/
theorem exists_ofRatio_eq {q : ℚ} (hq : q = num / den) : ∃ mantissa exponent,
    ofRatio num den =
      (if maxExponent < exponent then .infinite false else .finite false mantissa exponent) ∧
    exact false mantissa exponent = rounded q ∧ mantissa < 2 ^ 53 ∧ minExponent ≤ exponent ∧
      (2 ^ 52 ≤ mantissa ∨ exponent = minExponent) := by
  have hpos : 0 < q := by
    rw [hq]
    have hnum' : (0 : ℚ) < num := by exact_mod_cast Nat.pos_of_ne_zero hnum
    have hden' : (0 : ℚ) < den := by exact_mod_cast Nat.pos_of_ne_zero hden
    positivity
  have hdigits := roundDiv_places (b := 2) (by decide) num hden (lastPlace q)
  obtain ⟨hle, hnormal⟩ := nearestInt_lastPlace hpos
  have hge : minExponent ≤ lastPlace q := le_max_right _ _
  rw [Nat.cast_ofNat, ← hq] at hdigits
  have hrounded : rounded q = (nearestInt (q / 2 ^ lastPlace q) : ℚ) * 2 ^ lastPlace q := rfl
  have hplace : max (binaryExponent num den - 52) minExponent = lastPlace q := by
    rw [binaryExponent_eq_log hnum hden, ← hq]
    rfl
  unfold ofRatio
  rw [if_neg hnum]
  dsimp only
  rw [hplace]
  rw [← hdigits] at hle hnormal hrounded
  generalize roundDiv _ _ = digits at *
  by_cases hcarry : digits = 2 ^ 53
  · refine ⟨2 ^ 52, lastPlace q + 1, ?_, ?_, by decide, by omega, .inl le_rfl⟩
    · simp only [Nat.pow_eq, if_pos hcarry]
    · rw [hrounded, hcarry, exact_false, zpow_add_one₀ two_ne_zero]
      push_cast
      ring
  · refine ⟨digits, lastPlace q, ?_, by rw [hrounded, exact_false]; rfl, by omega, hge, by omega⟩
    simp only [Nat.pow_eq, if_neg hcarry]

end OfRatio

/-- The double of a fraction has the rounded value, or the rounded value is too large for one. -/
theorem ofRatio_cases (num : Nat) {den : Nat} (hden : den ≠ 0) :
    (∃ mantissa exponent, ofRatio num den = .finite false mantissa exponent ∧
      Encodable mantissa exponent ∧ exact false mantissa exponent = rounded (num / den)) ∨
    ofRatio num den = .infinite false ∧ 2 ^ 1024 ≤ rounded (num / den) := by
  by_cases hnum : num = 0
  · subst hnum
    refine .inl ⟨0, minExponent, rfl, ⟨by decide, .inr rfl, le_rfl, by decide⟩, ?_⟩
    rw [Nat.cast_zero, zero_div, rounded_zero, exact_false, Nat.cast_zero, zero_mul]
  · obtain ⟨mantissa, exponent, heq, hexact, hlt, hge, hnormal⟩ :=
      exists_ofRatio_eq hnum hden rfl
    rw [heq]
    split
    · next hlarge =>
      refine .inr ⟨rfl, hexact ▸ ?_⟩
      have hmantissa : (2 : ℚ) ^ 52 ≤ mantissa := by
        have hne : exponent ≠ minExponent := (lt_trans (by decide) hlarge).ne'
        exact_mod_cast hnormal.resolve_right hne
      have hexponent : (2 : ℚ) ^ (972 : ℤ) ≤ 2 ^ exponent :=
        zpow_le_zpow_right₀ one_le_two hlarge
      calc (2 : ℚ) ^ 1024 = 2 ^ 52 * 2 ^ (972 : ℤ) := by
            rw [← zpow_natCast, ← zpow_natCast, ← zpow_add₀ two_ne_zero]
            rfl
        _ ≤ (mantissa : ℚ) * 2 ^ exponent := by gcongr
        _ = exact false mantissa exponent := rfl
    · next hsmall =>
      exact .inl ⟨mantissa, exponent, rfl, ⟨hlt, hnormal, hge, not_lt.1 hsmall⟩, hexact⟩

/-- The double of a fraction is the nearest one. -/
theorem nearest_ofRatio (num : Nat) {den : Nat} (hden : den ≠ 0) :
    Nearest (num / den) (ofBits (toBits (ofRatio num den))) := by
  rcases ofRatio_cases num hden with ⟨mantissa, exponent, heq, hencodable, hexact⟩ | ⟨heq, hlarge⟩
  · rw [heq, hencodable.ofBits_toBits]
    exact .finite hexact
  · rw [heq, ofBits_eq_infinite_iff.2 rfl]
    exact .infinite hlarge

/-- A natural number with up to 53 binary digits is exact as a double. -/
theorem ofRatio_one {n : Nat} (h : n < 2 ^ 53) :
    ∃ mantissa exponent, ofRatio n 1 = .finite false mantissa exponent ∧
      exact false mantissa exponent = n := by
  have hrounded : rounded (n / (1 : Nat)) = n := by
    rw [Nat.cast_one, div_one, rounded_natCast h]
  rcases ofRatio_cases n one_ne_zero with ⟨mantissa, exponent, heq, -, hexact⟩ | ⟨-, hlarge⟩
  · exact ⟨mantissa, exponent, heq, hexact.trans hrounded⟩
  · rw [hrounded] at hlarge
    have hle : (2 : ℚ) ^ 53 ≤ n := (pow_le_pow_right₀ one_le_two (by decide)).trans hlarge
    exact absurd (by exact_mod_cast hle) (not_le.2 h)

end Binary64

/-! ## Floating-point numbers -/

/-- The bits of a floating-point number encode the double nearest to a number. -/
def IsDouble (q : ℚ) (x : Float) : Prop :=
  ∃ bits, x = Float.ofBits bits ∧ Binary64.Nearest q (Binary64.ofBits bits)

theorem IsDouble.unique {q : ℚ} {x y : Float} (h : IsDouble q x) (h' : IsDouble q y) : x = y := by
  obtain ⟨bits, rfl, hbits⟩ := h
  obtain ⟨bits', rfl, hbits'⟩ := h'
  rw [hbits.unique hbits']

theorem isDouble_ofRatio (num : Nat) {den : Nat} (hden : den ≠ 0) :
    IsDouble (num / den) (Binary64.ofRatio num den).toFloat :=
  ⟨_, rfl, Binary64.nearest_ofRatio num hden⟩

end ScriptMachine
