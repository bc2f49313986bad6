/-! # Suggestions for misspelt names

The distance of two words is the least number of single-character insertions,
deletions and substitutions that turn one into the other. It is computed row by
row: the row of a prefix of `a` holds its distance to every prefix of `b`. A
suggestion is a nearest candidate, if it is near enough for the length of the
name. Where several are nearest, the first one tried is suggested, and nothing is
promised about the order in which candidates are tried. -/

namespace ScriptMachine

/-- The rest of the next row of distances. `diagonal` is the entry of the row
above and to the left, `left` the new entry before this one. -/
def distanceCells (a : Char) (diagonal left : Nat) : List Char → List Nat → List Nat
  | b :: bs, above :: row =>
    let cell := min (min (above + 1) (left + 1)) (diagonal + if a = b then 0 else 1)
    cell :: distanceCells a above cell bs row
  | _, _ => []

/-- The row of distances for one more character of the first word. -/
def distanceRow (a : Char) (b : List Char) : List Nat → List Nat
  | [] => []
  | corner :: row => (corner + 1) :: distanceCells a corner (corner + 1) b row

/-- The edit distance of two words. -/
def editDistance (a b : List Char) : Nat :=
  let row := a.foldl (fun row c => distanceRow c b row) (List.range (b.length + 1))
  row.getLast?.getD 0

/-- How far a suggestion may be from a name of the given length in bytes. -/
def suggestionLimit (bytes : Nat) : Nat :=
  if bytes ≤ 4 then 1 else if bytes ≤ 8 then 2 else 3

/-- The first of the candidates nearest to `name`, with its distance. -/
def nearest? (name : String) : List String → Option (String × Nat)
  | [] => none
  | candidate :: others =>
    let distance := editDistance name.toList candidate.toList
    match nearest? name others with
    | some (best, least) =>
      if least < distance then some (best, least) else some (candidate, distance)
    | none => some (candidate, distance)

/-- A nearest candidate, if one lies within the limit for `name`. -/
def suggestion? (name : String) (candidates : List String) : Option String :=
  match nearest? name candidates with
  | some (best, distance) =>
    if distance ≤ suggestionLimit name.utf8ByteSize then some best else none
  | none => none

/-- An order in which candidates are tried. -/
structure CandidateOrder where
  arrange : List String → List String
  mem_arrange : ∀ {names : List String} {name : String}, name ∈ arrange names ↔ name ∈ names

namespace CandidateOrder

/-- The order in which the candidates are given. -/
def asGiven : CandidateOrder := ⟨id, Iff.rfl⟩

instance : Inhabited CandidateOrder := ⟨asGiven⟩

end CandidateOrder

/-- An order for each of several reports, chosen anew every time. -/
abbrev CandidateOrders := Nat → CandidateOrder

def CandidateOrders.asGiven : CandidateOrders := fun _ => .asGiven

end ScriptMachine
