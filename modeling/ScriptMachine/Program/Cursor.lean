import ScriptMachine.Program.Fault
import ScriptMachine.Token

/-! # A place in a token stream

A cursor holds the tokens still to be read. Readers start at a cursor and end
in an `Outcome`: a value with the cursor behind it, for which at least one
token was read, or an error with the cursor at which reading stopped. That
cursors only move forward is part of the type, and is what makes the readers
terminate. -/

namespace ScriptMachine

/-- A place in a token stream: what is still to be read, where the token read
last ends, and where the text ends. -/
structure Cursor where
  rest : List Token
  before : Position
  stop : Position
  deriving Repr, Inhabited

namespace Cursor

/-- The beginning of a token stream. -/
def start (stream : TokenStream) : Cursor := ⟨stream.tokens, .origin, stream.stop⟩

/-- The number of tokens still to be read. -/
def size (c : Cursor) : Nat := c.rest.length

/-- The kind of the next token, if there is one. -/
def peek? (c : Cursor) : Option TokenKind := c.rest.head?.map Token.kind

/-- The span of the next token, or the empty one at the end of the text. -/
def here (c : Cursor) : Span :=
  match c.rest with
  | token :: _ => token.span
  | [] => .point c.stop

/-- The cursor behind the next token; at the end it stays. -/
def advance (c : Cursor) : Cursor :=
  match c.rest with
  | token :: rest => { c with rest, before := token.span.stop }
  | [] => c

/-- The error that reports a fault at the next token. -/
def error (c : Cursor) (fault : SyntaxFault) : SyntaxError := ⟨fault, c.here⟩

/-- The first place from `c` on where a token satisfies `want`, or the end. -/
def skipTo (want : TokenKind → Bool) (c : Cursor) : Cursor :=
  match c with
  | ⟨[], before, stop⟩ => ⟨[], before, stop⟩
  | ⟨token :: rest, before, stop⟩ =>
    if want token.kind then ⟨token :: rest, before, stop⟩
    else skipTo want ⟨rest, token.span.stop, stop⟩
termination_by c.rest.length

@[simp] theorem size_advance (c : Cursor) : c.advance.size = c.size - 1 := by
  unfold advance size
  split <;> simp_all

/-! What readers need to know of the places they have reached. -/

section Reached

variable {c d e : Cursor}

theorem size_le_self (c : Cursor) : c.size ≤ c.size := Nat.le_refl _

theorem size_le_of_lt (h : d.size < c.size) : d.size ≤ c.size := Nat.le_of_lt h

theorem size_le_trans (h : e.size ≤ d.size) (h' : d.size ≤ c.size) : e.size ≤ c.size :=
  Nat.le_trans h h'

theorem size_lt_trans (h : e.size < d.size) (h' : d.size < c.size) : e.size < c.size :=
  Nat.lt_trans h h'

end Reached

theorem size_pos {c : Cursor} {kind : TokenKind} (h : c.peek? = some kind) : 0 < c.size := by
  unfold size
  cases hrest : c.rest with
  | nil => simp [peek?, hrest] at h
  | cons token rest => simp

theorem size_advance_lt {c : Cursor} {kind : TokenKind} (h : c.peek? = some kind) :
    c.advance.size < c.size := by
  have := size_pos h
  rw [size_advance]
  omega

theorem size_advance_lt_of_bind {c : Cursor} {f : TokenKind → Option α} {a : α}
    (h : c.peek?.bind f = some a) : c.advance.size < c.size := by
  cases hp : c.peek? with
  | none => simp [hp] at h
  | some kind => exact size_advance_lt hp

theorem size_skipTo_le (want : TokenKind → Bool) (c : Cursor) : (c.skipTo want).size ≤ c.size := by
  fun_induction skipTo want c with
  | case1 | case2 => exact Nat.le_refl _
  | case3 _ _ _ _ _ ih =>
    simp only [size, List.length_cons] at *
    omega

end Cursor

/-- The result of reading from the cursor `c`: a value and the cursor behind
it, or an error and the cursor where reading stopped. -/
inductive Outcome (c : Cursor) (α : Type) where
  | ok (value : α) (next : Cursor) (read : next.size < c.size)
  | error (error : SyntaxError) (stopped : Cursor) (kept : stopped.size ≤ c.size)

namespace Outcome

variable {c d : Cursor} {α β : Type}

/-- Stops at the next token of `d`, a cursor reached from `c`. -/
def fail (fault : SyntaxFault) (d : Cursor) (h : d.size ≤ c.size) : Outcome c α :=
  .error (d.error fault) d h

/-- Goes on behind a value that was read from `d`, a cursor reached from
`c`. -/
@[inline]
def andThen (x : Outcome d α) (h : d.size ≤ c.size)
    (f : α → (e : Cursor) → e.size < d.size → Outcome c β) : Outcome c β :=
  match x with
  | .ok value next read => f value next read
  | .error e stopped kept => .error e stopped (Nat.le_trans kept h)

end Outcome

/-- Reads one token that satisfies `want`, or stops with `fault`. -/
def expect (want : TokenKind → Bool) (fault : SyntaxFault) (c : Cursor) : Outcome c Span :=
  match h : c.peek? with
  | some kind =>
    if want kind then .ok c.here c.advance (Cursor.size_advance_lt h)
    else .fail fault c (Nat.le_refl _)
  | none => .fail fault c (Nat.le_refl _)

/-- Reads a name, with its span. -/
def expectName (role : NameRole) (c : Cursor) : Outcome c (String × Span) :=
  match h : c.peek? with
  | some (.name name) => .ok (name, c.here) c.advance (Cursor.size_advance_lt h)
  | some _ | none => .fail (.name role) c (Nat.le_refl _)

end ScriptMachine
