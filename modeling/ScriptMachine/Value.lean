/-! # Values

Numbers, booleans and null are values by themselves. Lists, functions and
strings live on the heap, and a value refers to them by a handle, so copying a
value never copies an object. -/

namespace ScriptMachine

/-- A reference to a slot of the heap. The generation tells the objects apart
that have lived in the slot one after the other. It wraps around at 2^32; the
index has no fixed width, and 32 bits hold it as long as there are less than 2^32
slots. -/
structure Handle where
  index : Nat
  generation : UInt32
  deriving DecidableEq, Repr, Inhabited

inductive Value where
  | null
  | bool (value : Bool)
  | number (value : Float)
  | object (handle : Handle)
  deriving Repr, Inhabited

namespace Value

/-- The object a value refers to. -/
def handle? : Value → Option Handle
  | .object handle => some handle
  | _ => none

/-- Equality as programs see it: numbers compare as numbers, so that not-a-number
differs from itself and the two zeros are equal; objects are equal to
themselves only. -/
def equals : Value → Value → Bool
  | .null, .null => true
  | .bool a, .bool b => a == b
  | .number a, .number b => a == b
  | .object a, .object b => a == b
  | _, _ => false

end Value

end ScriptMachine
