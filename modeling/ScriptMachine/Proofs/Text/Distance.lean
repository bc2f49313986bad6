import Mathlib.Order.Bounds.Basic
import Mathlib.Order.MinMax
import ScriptMachine.Text.Suggestion

/-!
# Distances of words and nearest names

The distance of two words is the least number of edits, each of which inserts, deletes or replaces
one character, that turn one into the other (`IsDistance`). By the first characters of the words it
satisfies the recurrence of `levenshtein`: no edit brings a word nearer to another one by more
than one (`EditStep.levenshtein_le`), and so many edits are enough (`editsTo_levenshtein`).

The rows that `editDistance` computes are the distances between what has been read of the first
word and every prefix of the second (`distancesFrom`). Prefixes grow at their ends, so they are
taken in reverse here, and in the end edits are turned round (`EditsTo.reverse`). The main
statement adds that a suggestion is a candidate at the least distance (`suggestions_nearest`).
-/

namespace ScriptMachine

/-! ## Edits -/

/-- One character is inserted, deleted or replaced. -/
inductive EditStep : List Char → List Char → Prop
  | insert (front back : List Char) (c : Char) : EditStep (front ++ back) (front ++ c :: back)
  | delete (front back : List Char) (c : Char) : EditStep (front ++ c :: back) (front ++ back)
  | replace (front back : List Char) (c d : Char) :
      EditStep (front ++ c :: back) (front ++ d :: back)

/-- A word is turned into another one by so many edits. -/
inductive EditsTo : Nat → List Char → List Char → Prop
  | done (a : List Char) : EditsTo 0 a a
  | step {n : Nat} {a b c : List Char} (h : EditStep a b) (hrest : EditsTo n b c) :
      EditsTo (n + 1) a c

/-- The least number of edits that turn a word into another one. -/
def IsDistance (a b : List Char) (d : Nat) : Prop := IsLeast {n | EditsTo n a b} d

section Edits

variable {n : Nat} {a b : List Char}

theorem EditStep.cons (h : EditStep a b) (x : Char) : EditStep (x :: a) (x :: b) := by
  cases h with
  | insert front back c => exact .insert (x :: front) back c
  | delete front back c => exact .delete (x :: front) back c
  | replace front back c d => exact .replace (x :: front) back c d

theorem EditsTo.cons (h : EditsTo n a b) (x : Char) : EditsTo n (x :: a) (x :: b) := by
  induction h with
  | done a => exact .done (x :: a)
  | step h _ ih => exact .step (h.cons x) ih

theorem EditStep.reverse (h : EditStep a b) : EditStep a.reverse b.reverse := by
  cases h with
  | insert front back c => simpa using EditStep.insert back.reverse front.reverse c
  | delete front back c => simpa using EditStep.delete back.reverse front.reverse c
  | replace front back c d => simpa using EditStep.replace back.reverse front.reverse c d

theorem EditsTo.reverse (h : EditsTo n a b) : EditsTo n a.reverse b.reverse := by
  induction h with
  | done a => exact .done a.reverse
  | step h _ ih => exact .step h.reverse ih

end Edits

/-! ## The recurrence -/

/-- The distance of two words by their first characters: one of them is left out, or each stands
for the other. -/
def levenshtein : List Char → List Char → Nat
  | [], b => b.length
  | x :: a, [] => (x :: a).length
  | x :: a, y :: b =>
    min (min (levenshtein a (y :: b) + 1) (levenshtein (x :: a) b + 1))
      (levenshtein a b + if x = y then 0 else 1)

@[simp] theorem levenshtein_nil_left (b : List Char) : levenshtein [] b = b.length := by
  rw [levenshtein]

@[simp] theorem levenshtein_nil_right (a : List Char) : levenshtein a [] = a.length := by
  cases a with
  | nil => rw [levenshtein]
  | cons x a => rw [levenshtein]

theorem levenshtein_cons_cons (x y : Char) (a b : List Char) :
    levenshtein (x :: a) (y :: b) =
      min (min (levenshtein a (y :: b) + 1) (levenshtein (x :: a) b + 1))
        (levenshtein a b + if x = y then 0 else 1) := by
  rw [levenshtein]

theorem editsTo_nil_left (b : List Char) : EditsTo b.length [] b := by
  induction b with
  | nil => exact .done []
  | cons y b ih => exact .step (.insert [] [] y) (ih.cons y)

theorem editsTo_nil_right (a : List Char) : EditsTo a.length a [] := by
  induction a with
  | nil => exact .done []
  | cons x a ih => exact .step (.delete [] a x) ih

/-- So many edits are enough. -/
theorem editsTo_levenshtein (a b : List Char) : EditsTo (levenshtein a b) a b := by
  induction a, b using levenshtein.induct with
  | case1 b => simpa using editsTo_nil_left b
  | case2 x a => simpa using editsTo_nil_right (x :: a)
  | case3 x a y b ihdelete ihinsert ihboth =>
    have hdelete : EditsTo (levenshtein a (y :: b) + 1) (x :: a) (y :: b) :=
      .step (.delete [] a x) ihdelete
    have hinsert : EditsTo (levenshtein (x :: a) b + 1) (x :: a) (y :: b) :=
      .step (.insert [] (x :: a) y) (ihinsert.cons y)
    have hboth : EditsTo (levenshtein a b + if x = y then 0 else 1) (x :: a) (y :: b) := by
      by_cases hxy : x = y
      · subst hxy
        simpa using ihboth.cons x
      · simpa [hxy] using EditsTo.step (.replace [] a x y) (ihboth.cons y)
    rw [levenshtein_cons_cons]
    have hleft := min_rec' (EditsTo · (x :: a) (y :: b)) hdelete hinsert
    exact min_rec' (EditsTo · (x :: a) (y :: b)) hleft hboth

/-! ## No edit counts for more than one -/

theorem levenshtein_self (a : List Char) : levenshtein a a = 0 := by
  induction a with
  | nil => simp
  | cons x a ih => simp [levenshtein_cons_cons, ih]

theorem levenshtein_cons_left_le (x : Char) (a c : List Char) :
    levenshtein (x :: a) c ≤ levenshtein a c + 1 := by
  cases c with
  | nil => simp
  | cons z c =>
    rw [levenshtein_cons_cons]
    omega

theorem levenshtein_cons_right_le (a : List Char) (z : Char) (c : List Char) :
    levenshtein a (z :: c) ≤ levenshtein a c + 1 := by
  cases a with
  | nil => simp
  | cons x a =>
    rw [levenshtein_cons_cons]
    omega

theorem levenshtein_le_cons_left (x : Char) (a c : List Char) :
    levenshtein a c ≤ levenshtein (x :: a) c + 1 := by
  induction c with
  | nil =>
    simp only [levenshtein_nil_right, List.length_cons]
    omega
  | cons z c ih =>
    have hright := levenshtein_cons_right_le a z c
    rw [levenshtein_cons_cons]
    omega

theorem levenshtein_replace_le (x y : Char) (a c : List Char) :
    levenshtein (x :: a) c ≤ levenshtein (y :: a) c + 1 := by
  induction c with
  | nil => simp
  | cons z c ih =>
    rw [levenshtein_cons_cons x, levenshtein_cons_cons y]
    split <;> split <;> omega

/-- A bound on what two words differ by is one with characters in front of them, too. -/
theorem levenshtein_append_le {k : Nat} {a b : List Char}
    (h : ∀ c, levenshtein a c ≤ levenshtein b c + k) (front c : List Char) :
    levenshtein (front ++ a) c ≤ levenshtein (front ++ b) c + k := by
  induction front generalizing c with
  | nil => exact h c
  | cons x front ih =>
    simp only [List.cons_append]
    -- The word without the first character of `c` is compared with the whole front again.
    induction c with
    | nil =>
      have hnil := ih []
      simp only [levenshtein_nil_right, List.length_cons] at hnil ⊢
      omega
    | cons z c ihc =>
      have hdelete := ih (z :: c)
      have hboth := ih c
      rw [levenshtein_cons_cons, levenshtein_cons_cons]
      omega

/-- An edit brings a word nearer to another one by no more than one. -/
theorem EditStep.levenshtein_le {a b : List Char} (h : EditStep a b) (c : List Char) :
    levenshtein a c ≤ levenshtein b c + 1 := by
  cases h with
  | insert front back x => exact levenshtein_append_le (levenshtein_le_cons_left x back) front c
  | delete front back x => exact levenshtein_append_le (levenshtein_cons_left_le x back) front c
  | replace front back x y => exact levenshtein_append_le (levenshtein_replace_le x y back) front c

theorem EditsTo.levenshtein_le {n : Nat} {a b : List Char} (h : EditsTo n a b) :
    levenshtein a b ≤ n := by
  induction h with
  | done a => exact (levenshtein_self a).le
  | step h _ ih => exact (h.levenshtein_le _).trans (Nat.succ_le_succ ih)

theorem isDistance_levenshtein (a b : List Char) : IsDistance a b (levenshtein a b) :=
  ⟨editsTo_levenshtein a b, fun _ h => h.levenshtein_le⟩

theorem IsDistance.of_reverse {a b : List Char} {d : Nat} (h : IsDistance a.reverse b.reverse d) :
    IsDistance a b d := by
  refine ⟨?_, fun n hn => h.2 hn.reverse⟩
  have hedits := h.1.reverse
  rwa [List.reverse_reverse, List.reverse_reverse] at hedits

/-! ## Rows -/

/-- The distances between a word and the words that grow, character by character, at the front of
another one. -/
def distancesFrom (p q : List Char) : List Char → List Nat
  | [] => [levenshtein p q]
  | y :: b => levenshtein p q :: distancesFrom p (y :: q) b

theorem distancesFrom_eq_cons (p q b : List Char) :
    distancesFrom p q b = levenshtein p q :: (distancesFrom p q b).tail := by
  cases b with
  | nil => rfl
  | cons y b => rfl

/-- A row follows from the one above cell by cell. -/
theorem distanceCells_eq (x : Char) (p q b : List Char) :
    distanceCells x (levenshtein p q) (levenshtein (x :: p) q) b (distancesFrom p q b).tail =
      (distancesFrom (x :: p) q b).tail := by
  induction b generalizing q with
  | nil => rfl
  | cons y b ih =>
    simp only [distancesFrom, List.tail_cons]
    rw [distancesFrom_eq_cons p, distancesFrom_eq_cons (x :: p), distanceCells, ← ih,
      levenshtein_cons_cons]

theorem distanceRow_eq (x : Char) (p b : List Char) :
    distanceRow x b (distancesFrom p [] b) = distancesFrom (x :: p) [] b := by
  have hcells := distanceCells_eq x p [] b
  rw [distancesFrom_eq_cons, distancesFrom_eq_cons (x :: p), distanceRow, ← hcells]
  simp only [levenshtein_nil_right, List.length_cons]

/-- The first row counts the characters of the second word. -/
theorem distancesFrom_nil (q b : List Char) :
    distancesFrom [] q b = List.range' q.length (b.length + 1) := by
  induction b generalizing q with
  | nil => simp [distancesFrom]
  | cons y b ih => simp [distancesFrom, ih, List.range'_succ]

theorem foldl_distanceRow (a p b : List Char) :
    a.foldl (fun row x => distanceRow x b row) (distancesFrom p [] b) =
      distancesFrom (a.reverse ++ p) [] b := by
  induction a generalizing p with
  | nil => rfl
  | cons x a ih =>
    rw [List.foldl_cons, distanceRow_eq, ih, List.reverse_cons, List.append_assoc,
      List.singleton_append]

theorem getLast?_distancesFrom (p q b : List Char) :
    (distancesFrom p q b).getLast? = some (levenshtein p (b.reverse ++ q)) := by
  induction b generalizing q with
  | nil => rfl
  | cons y b ih =>
    rw [distancesFrom, List.getLast?_cons, ih, Option.getD_some, List.reverse_cons,
      List.append_assoc, List.singleton_append]

theorem editDistance_eq (a b : List Char) :
    editDistance a b = levenshtein a.reverse b.reverse := by
  have hstart : List.range (b.length + 1) = distancesFrom [] [] b := by
    rw [distancesFrom_nil, List.range_eq_range', List.length_nil]
  rw [editDistance, hstart, foldl_distanceRow, getLast?_distancesFrom, Option.getD_some,
    List.append_nil, List.append_nil]

/-- What is computed row by row is the distance. -/
theorem isDistance_editDistance (a b : List Char) : IsDistance a b (editDistance a b) := by
  rw [editDistance_eq]
  exact (isDistance_levenshtein _ _).of_reverse

/-! ## Nearest names -/

/-- How far a suggestion may be from a name: one edit, two for a name of more than four bytes, and
three for one of more than eight. -/
def IsNear (name : String) (d : Nat) : Prop :=
  d ≤ 1 ∨ d ≤ 2 ∧ 4 < name.utf8ByteSize ∨ d ≤ 3 ∧ 8 < name.utf8ByteSize

theorem isNear_iff {name : String} {d : Nat} :
    IsNear name d ↔ d ≤ suggestionLimit name.utf8ByteSize := by
  unfold IsNear suggestionLimit
  split
  · omega
  · split <;> omega

theorem nearest?_eq_none_iff {name : String} {candidates : List String} :
    nearest? name candidates = none ↔ candidates = [] := by
  cases candidates with
  | nil => simp [nearest?]
  | cons c others =>
    rw [nearest?]
    split
    · split <;> simp
    · simp

/-- Among candidates one is found, with its distance, that no other one undercuts. -/
theorem nearest?_eq_some {name best : String} {candidates : List String} {d : Nat}
    (h : nearest? name candidates = some (best, d)) :
    best ∈ candidates ∧ d = editDistance name.toList best.toList ∧
      ∀ c ∈ candidates, d ≤ editDistance name.toList c.toList := by
  induction candidates generalizing best d with
  | nil => cases h
  | cons c others ih =>
    rw [nearest?] at h
    cases hothers : nearest? name others with
    | none =>
      rw [hothers] at h
      cases h
      have hnil : others = [] := nearest?_eq_none_iff.1 hothers
      subst hnil
      exact ⟨List.mem_singleton_self c, rfl, by simp⟩
    | some found =>
      obtain ⟨other, least⟩ := found
      obtain ⟨hmem, hdistance, hleast⟩ := ih hothers
      rw [hothers] at h
      dsimp only at h
      split at h
      · next hlt =>
        cases h
        exact ⟨List.mem_cons_of_mem c hmem, hdistance,
          List.forall_mem_cons.2 ⟨Nat.le_of_lt hlt, hleast⟩⟩
      · next hge =>
        cases h
        refine ⟨List.mem_cons_self, rfl, List.forall_mem_cons.2 ⟨Nat.le_refl _, ?_⟩⟩
        intro c' hc'
        exact Nat.le_trans (Nat.not_lt.1 hge) (hleast c' hc')

theorem suggestion?_eq_none_iff {name : String} {candidates : List String} :
    suggestion? name candidates = none ↔
      ∀ c ∈ candidates, ¬ IsNear name (editDistance name.toList c.toList) := by
  simp only [isNear_iff]
  unfold suggestion?
  cases hnearest : nearest? name candidates with
  | none => simp [nearest?_eq_none_iff.1 hnearest]
  | some found =>
    obtain ⟨best, d⟩ := found
    obtain ⟨hmem, hdistance, hleast⟩ := nearest?_eq_some hnearest
    dsimp only
    split
    · next hle =>
      rw [hdistance] at hle
      exact iff_of_false (Option.some_ne_none best) fun h => h best hmem hle
    · next hgt => exact iff_of_true rfl fun c hc hle => hgt ((hleast c hc).trans hle)

theorem suggestion?_eq_some {name best : String} {candidates : List String}
    (h : suggestion? name candidates = some best) :
    best ∈ candidates ∧ IsNear name (editDistance name.toList best.toList) ∧
      ∀ c ∈ candidates,
        editDistance name.toList best.toList ≤ editDistance name.toList c.toList := by
  simp only [isNear_iff]
  unfold suggestion? at h
  cases hnearest : nearest? name candidates with
  | none =>
    rw [hnearest] at h
    cases h
  | some found =>
    obtain ⟨other, d⟩ := found
    obtain ⟨hmem, rfl, hleast⟩ := nearest?_eq_some hnearest
    rw [hnearest] at h
    dsimp only at h
    split at h
    · next hle =>
      cases h
      exact ⟨hmem, hle, hleast⟩
    · cases h

/-- **Suggestions are nearest names.** The edit distance of two words is the least number of
characters to insert, delete and replace that turns the first into the second. No candidate is
suggested exactly if none is near enough for the length of the name. Otherwise, in whatever order
the candidates come, the suggestion is one of them, near enough, and none of them is nearer. -/
theorem suggestions_nearest :
    (∀ a b : List Char, IsDistance a b (editDistance a b)) ∧
    ∀ (name : String) (candidates : List String),
      (suggestion? name candidates = none ↔
        ∀ c ∈ candidates, ∀ d, IsDistance name.toList c.toList d → ¬ IsNear name d) ∧
      ∀ best, suggestion? name candidates = some best →
        best ∈ candidates ∧ ∃ least, IsDistance name.toList best.toList least ∧
          IsNear name least ∧
          ∀ c ∈ candidates, ∀ d, IsDistance name.toList c.toList d → least ≤ d := by
  refine ⟨isDistance_editDistance, fun name candidates => ⟨?_, fun best hbest => ?_⟩⟩
  · rw [suggestion?_eq_none_iff]
    refine forall₂_congr fun c _ => ?_
    have hdistance := isDistance_editDistance name.toList c.toList
    constructor
    · intro hfar d hd
      rwa [hd.unique hdistance]
    · intro hfar
      exact hfar _ hdistance
  · obtain ⟨hmem, hnear, hleast⟩ := suggestion?_eq_some hbest
    refine ⟨hmem, _, isDistance_editDistance _ _, hnear, fun c hc d hd => ?_⟩
    rw [hd.unique (isDistance_editDistance _ _)]
    exact hleast c hc

/-- A transposition takes two edits, which is too many for a short name. -/
example : suggestion? "cuont" ["clock", "count"] = some "count" ∧
    suggestion? "mian" ["clock", "main"] = none := by decide

end ScriptMachine
