import ScriptMachine.Machine.Perform
import ScriptMachine.Proofs.Number.Double

/-!
# Places in lists, computed with doubles

The place in a list that an index names can be computed without leaving the
doubles: the index has no fraction, is not below zero and is below the size of the
list, itself rounded to a double; it is then cut down to a machine word
(`doublePosition`). For lists of less than 2^53 elements this gives the place that
`listPosition` gives (`doublePosition_eq`): the size is exact as a double.
-/

namespace ScriptMachine

namespace Binary64

/-- Whether anything is left when the number is cut down to an integer. The
difference to an infinite number, or to one that is none, is not zero. -/
def hasFraction : Binary64 → Bool
  | .finite negative mantissa exponent => Int.fract (exact negative mantissa exponent) ≠ 0
  | _ => true

def lt : Binary64 → Binary64 → Bool
  | .finite s m e, .finite s' m' e' => exact s m e < exact s' m' e'
  | .finite .., .infinite negative => !negative
  | .infinite negative, .finite .. => negative
  | .infinite negative, .infinite negative' => negative && !negative'
  | _, _ => false

def le : Binary64 → Binary64 → Bool
  | .finite s m e, .finite s' m' e' => exact s m e ≤ exact s' m' e'
  | .finite .., .infinite negative => !negative
  | .infinite negative, .finite .. => negative
  | .infinite negative, .infinite negative' => negative || !negative'
  | _, _ => false

def zero : Binary64 := .finite false 0 minExponent

/-- The largest machine word. -/
def maxWord : Nat := 2 ^ 64 - 1

/-- The number cut down to a machine word, as far as there is one. -/
def toWord : Binary64 → Nat
  | .nan => 0
  | .infinite negative => if negative then 0 else maxWord
  | .finite negative mantissa exponent => min ⌊exact negative mantissa exponent⌋₊ maxWord

theorem exact_natCast_eq {negative : Bool} {mantissa k : Nat} {n : Int} :
    exact negative mantissa k = n ↔ signed negative mantissa * 2 ^ k = n := by
  unfold exact
  rw [zpow_natCast]
  exact_mod_cast Iff.rfl

theorem exact_neg_natCast_eq {negative : Bool} {mantissa k : Nat} {n : Int} :
    exact negative mantissa (-k) = n ↔ signed negative mantissa = n * 2 ^ k := by
  unfold exact
  rw [zpow_neg, zpow_natCast, ← div_eq_mul_inv, div_eq_iff (by positivity)]
  exact_mod_cast Iff.rfl

/-- A finite number stands for an integer exactly if this is its value. -/
theorem toInt?_eq_some {negative : Bool} {mantissa : Nat} {exponent n : Int} :
    (finite negative mantissa exponent).toInt? = some n ↔
      exact negative mantissa exponent = n := by
  by_cases hexponent : 0 ≤ exponent
  · obtain ⟨k, rfl⟩ := Int.eq_ofNat_of_zero_le hexponent
    rw [exact_natCast_eq]
    unfold toInt? signed
    cases negative <;> simp
  · obtain ⟨k, rfl⟩ : ∃ k : Nat, exponent = -k := ⟨(-exponent).toNat, by omega⟩
    rw [exact_neg_natCast_eq]
    have hpow : (2 : Int) ^ k ≠ 0 := by positivity
    unfold toInt? signed
    simp only [hexponent, if_false, neg_neg, Int.toNat_natCast, Nat.pow_eq]
    by_cases hdivides : mantissa % 2 ^ k = 0
    · obtain ⟨q, rfl⟩ := Nat.dvd_of_mod_eq_zero hdivides
      simp only [hdivides, if_true, Nat.mul_div_cancel_left q (Nat.two_pow_pos k)]
      push_cast
      rw [mul_comm ((2 : Int) ^ k) q]
      cases negative
      · simp [mul_left_inj' hpow]
      · simp [← neg_mul, mul_left_inj' hpow]
    · simp only [hdivides, if_false]
      have hnot : ∀ z : Int, (mantissa : Int) ≠ z * 2 ^ k := by
        intro z hz
        have hint : ((2 ^ k : Nat) : Int) ∣ mantissa := ⟨z, by push_cast; rw [hz, mul_comm]⟩
        exact hdivides (Nat.mod_eq_zero_of_dvd (Int.natCast_dvd_natCast.1 hint))
      cases negative
      · simpa using hnot n
      · have hneg : -(mantissa : Int) ≠ n * 2 ^ k := by
          intro heq
          exact hnot (-n) (by rw [neg_mul, ← heq, neg_neg])
        simpa using hneg

theorem hasFraction_finite {negative : Bool} {mantissa : Nat} {exponent : Int} :
    (finite negative mantissa exponent).hasFraction =
      (finite negative mantissa exponent).toInt?.isNone := by
  cases hint : (finite negative mantissa exponent).toInt? with
  | none =>
    have hfract : Int.fract (exact negative mantissa exponent) ≠ 0 := by
      intro hzero
      obtain ⟨n, hn⟩ := Int.fract_eq_zero_iff.1 hzero
      rw [toInt?_eq_some.2 hn.symm] at hint
      cases hint
    simp [hasFraction, hfract]
  | some n =>
    rw [toInt?_eq_some] at hint
    simp [hasFraction, hint]

end Binary64

/-- The place in a list that an index names, computed with doubles. -/
def doublePosition (index : Value) (size : Nat) : Except Fault Nat :=
  match index with
  | .number x =>
    let index := Binary64.ofFloat x
    if index.hasFraction then .error .indexNotInteger
    else if index.lt .zero || (Binary64.ofRatio size 1).le index then
      .error (.indexOutOfBounds x size)
    else .ok index.toWord
  | _ => .error .indexNotNumber

/-- With less than 2^53 elements, the doubles give the place that an index names. -/
theorem doublePosition_eq (index : Value) {size : Nat} (h : size < 2 ^ 53) :
    doublePosition index size = (listPosition index size).map Fin.val := by
  cases index with
  | null => rfl
  | bool _ => rfl
  | object _ => rfl
  | number x =>
    simp only [doublePosition, listPosition]
    generalize Binary64.ofFloat x = index
    cases index with
    | nan => rfl
    | infinite negative => rfl
    | finite negative mantissa exponent =>
      rw [Binary64.hasFraction_finite]
      cases hint : (Binary64.finite negative mantissa exponent).toInt? with
      | none => rfl
      | some n =>
        obtain ⟨mantissa', exponent', hsize, hexact⟩ := Binary64.ofRatio_one h
        rw [Binary64.toInt?_eq_some] at hint
        have hlt : (Binary64.finite negative mantissa exponent).lt .zero = decide (n < 0) := by
          have hzero : Binary64.exact false 0 Binary64.minExponent = 0 := by
            simp [Binary64.exact, Binary64.signed]
          simp [Binary64.lt, Binary64.zero, hint, hzero]
        have hle : (Binary64.ofRatio size 1).le (.finite negative mantissa exponent) =
            decide ((size : Int) ≤ n) := by
          rw [hsize]
          simp only [Binary64.le, hint, hexact, decide_eq_decide]
          exact_mod_cast Iff.rfl
        have hword : (Binary64.finite negative mantissa exponent).toWord =
            min n.toNat Binary64.maxWord := by
          have hfloor : ⌊(n : ℚ)⌋₊ = n.toNat := by rw [← Int.floor_toNat, Int.floor_intCast]
          simp only [Binary64.toWord, hint, hfloor]
        simp only [Option.isNone_some, Bool.false_eq_true, if_false, hlt, hle]
        by_cases hinside : 0 ≤ n ∧ n < size
        · have hnot : ¬(n < 0 ∨ (size : Int) ≤ n) := by omega
          have hmin : min n.toNat Binary64.maxWord = n.toNat := by
            unfold Binary64.maxWord
            omega
          simp [hinside, hnot, hword, hmin, Except.map]
        · have hoff : n < 0 ∨ (size : Int) ≤ n := by omega
          simp [hinside, hoff, Except.map]

end ScriptMachine
