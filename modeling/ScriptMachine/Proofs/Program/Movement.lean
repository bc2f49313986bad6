import Mathlib.Logic.Function.Iterate
import ScriptMachine.Proofs.Program.Reading

/-!
# Where readers end

A reader only moves forward in its stream, token by token. Where it stops with an error, the
error is reported at the token that it stops at, and a token whose absence it mends belongs
there (`expr_readers_from`).
-/

namespace ScriptMachine

/-- The spans of the tokens of a stream, and last the empty one where the text ends. -/
def TokenStream.spans (stream : TokenStream) : List Span :=
  stream.tokens.map Token.span ++ [.point stream.stop]

/-- Where the text begins, and where the tokens of a stream end. -/
def TokenStream.stops (stream : TokenStream) : List Position :=
  .origin :: stream.tokens.map fun token => token.span.stop

/-! ## Places further on -/

namespace Cursor

variable {c d e : Cursor} {n m : Nat}

/-- The place `d` is `n` tokens further than `c`. -/
structure Ahead (c : Cursor) (n : Nat) (d : Cursor) : Prop where
  inside : n ≤ c.size
  rest : d.rest = c.rest.drop n
  stop : d.stop = c.stop

theorem Ahead.refl (c : Cursor) : c.Ahead 0 c := ⟨Nat.zero_le _, rfl, rfl⟩

theorem Ahead.size_add (h : c.Ahead n d) : d.size + n = c.size := by
  have hinside := h.inside
  simp only [size, h.rest, List.length_drop] at hinside ⊢
  omega

theorem Ahead.trans (h : c.Ahead n d) (h' : d.Ahead m e) : c.Ahead (n + m) e := by
  have hsize := h.size_add
  have hinside := h'.inside
  exact ⟨by omega, by rw [h'.rest, h.rest, List.drop_drop], h'.stop.trans h.stop⟩

theorem Ahead.size_le (h : c.Ahead n d) : d.size ≤ c.size := by
  have hsize := h.size_add
  omega

theorem ahead_advance {kind : TokenKind} (h : c.peek? = some kind) : c.Ahead 1 c.advance := by
  refine ⟨size_pos h, by rw [c.rest_of_peek? h]; rfl, ?_⟩
  unfold advance
  split <;> rfl

theorem ahead_advance_of_bind {α : Type} {f : TokenKind → Option α} {a : α}
    (h : c.peek?.bind f = some a) : c.Ahead 1 c.advance := by
  obtain ⟨kind, hpeek, -⟩ := Option.bind_eq_some_iff.1 h
  exact ahead_advance hpeek

theorem exists_peek?_of_any {want : TokenKind → Bool} (h : c.peek?.any want = true) :
    ∃ kind, c.peek? = some kind ∧ want kind = true := by
  cases hpeek : c.peek? with
  | none => simp [hpeek] at h
  | some kind => exact ⟨kind, rfl, by simpa [hpeek] using h⟩

theorem rest_ne_nil {kind : TokenKind} (h : c.peek? = some kind) : c.rest ≠ [] := by
  rw [c.rest_of_peek? h]
  exact List.cons_ne_nil _ _

/-- Reading came from `c` to `d` through `n` tokens. -/
structure Passes (c : Cursor) (n : Nat) (d : Cursor) : Prop where
  inside : n ≤ c.size
  eq : d = advance^[n] c

theorem Passes.refl (c : Cursor) : c.Passes 0 c := ⟨Nat.zero_le _, rfl⟩

theorem exists_peek?_of_size_pos (h : 0 < c.size) : ∃ kind, c.peek? = some kind := by
  cases hrest : c.rest with
  | nil => simp [size, hrest] at h
  | cons token rest => exact ⟨token.kind, by simp [peek?, hrest]⟩

theorem Passes.ahead (h : c.Passes n d) : c.Ahead n d := by
  obtain ⟨hinside, rfl⟩ := h
  induction n generalizing c with
  | zero => exact .refl c
  | succ n ih =>
    obtain ⟨kind, hpeek⟩ := exists_peek?_of_size_pos (Nat.lt_of_lt_of_le n.succ_pos hinside)
    have hone := ahead_advance hpeek
    have hsize := hone.size_add
    rw [Function.iterate_succ_apply, Nat.add_comm]
    exact hone.trans (ih (by omega))

theorem Passes.trans (h : c.Passes n d) (h' : d.Passes m e) : c.Passes (n + m) e := by
  refine ⟨(h.ahead.trans h'.ahead).inside, ?_⟩
  rw [h'.eq, h.eq, ← Function.iterate_add_apply, Nat.add_comm]

theorem Passes.size_le (h : c.Passes n d) : d.size ≤ c.size := h.ahead.size_le

theorem passes_advance {kind : TokenKind} (h : c.peek? = some kind) : c.Passes 1 c.advance :=
  ⟨size_pos h, rfl⟩

theorem passes_advance_of_bind {α : Type} {f : TokenKind → Option α} {a : α}
    (h : c.peek?.bind f = some a) : c.Passes 1 c.advance := by
  obtain ⟨kind, hpeek, -⟩ := Option.bind_eq_some_iff.1 h
  exact passes_advance hpeek

/-- Seen from the start of a stream, the spans are those of its tokens and the one at its end. -/
theorem getElem?_spans {stream : TokenStream} (h : (start stream).Ahead n c) :
    stream.spans[n]? = some c.here := by
  have hinside : n ≤ stream.tokens.length := h.inside
  have hrest : c.rest = stream.tokens.drop n := h.rest
  have hstop : c.stop = stream.stop := h.stop
  unfold TokenStream.spans here
  split
  · next token rest hc =>
    have htoken : stream.tokens[n]? = some token := by
      rw [← List.head?_drop, ← hrest, hc, List.head?_cons]
    rw [List.getElem?_append_left, List.getElem?_map, htoken, Option.map_some]
    rw [List.length_map]
    exact (List.getElem?_eq_some_iff.1 htoken).1
  · next hc =>
    have hlength : n = stream.tokens.length := by
      rw [hc] at hrest
      have hdrop := List.drop_eq_nil_iff.1 hrest.symm
      omega
    simp [hlength, hstop]

/-- Seen from the start of a stream, reading comes from the ends of its tokens. -/
theorem getElem?_stops {stream : TokenStream} (h : (start stream).Passes n c) :
    stream.stops[n]? = some c.before := by
  obtain ⟨hinside, rfl⟩ := h
  cases n with
  | zero => rfl
  | succ n =>
    have hpassed : (start stream).Passes n (advance^[n] (start stream)) :=
      ⟨Nat.le_of_succ_le hinside, rfl⟩
    have hrest : (advance^[n] (start stream)).rest = stream.tokens.drop n := hpassed.ahead.rest
    have hlt : n < stream.tokens.length := hinside
    rw [List.drop_eq_getElem_cons hlt] at hrest
    rw [Function.iterate_succ_apply', advance]
    split
    · next token rest hcons =>
      obtain ⟨rfl, -⟩ := List.cons.inj (hrest.symm.trans hcons)
      simp [TokenStream.stops, hlt]
    · next hnil =>
      rw [hrest] at hnil
      cases hnil

end Cursor

/-! ## Where missing tokens belong -/

/-- What a fault at `c` mends belongs there: a semicolon behind the last token that was read, any
other token in front of the next one, or of the end of the text. Commas are not mended at the
end. -/
def SyntaxFault.BelongsAt (fault : SyntaxFault) (c : Cursor) : Prop :=
  match fault with
  | .insertion .semicolon position => position = c.before
  | .insertion .paramComma position | .insertion (.itemComma _) position =>
    position = c.here.start ∧ c.rest ≠ []
  | .insertion (.closeParen _) position | .insertion (.closeBracket _) position =>
    position = c.here.start
  | _ => True

namespace Cursor

variable {c d : Cursor} {n : Nat}

/-- The error is reported at a token from `c` on, and what it mends belongs there. -/
def Reports (c : Cursor) (e : SyntaxError) : Prop :=
  ∃ n d, c.Passes n d ∧ d.here = e.span ∧ e.fault.BelongsAt d

theorem Reports.mem_spans {stream : TokenStream} {e : SyntaxError} :
    (start stream).Reports e → e.span ∈ stream.spans
  | ⟨_, _, hd, hspan, _⟩ => hspan ▸ List.mem_of_getElem? (getElem?_spans hd.ahead)

theorem Reports.before {e : SyntaxError} (h : c.Passes n d) : d.Reports e → c.Reports e
  | ⟨_, place, hplace, hspan⟩ => ⟨_, place, h.trans hplace, hspan⟩

end Cursor

/-! ## Outcomes -/

namespace Outcome

variable {c d e : Cursor} {α β : Type} {n : Nat}

/-- Where reading ended. -/
def place : Outcome c α → Cursor
  | .ok _ next _ => next
  | .error _ stopped _ => stopped

@[simp] theorem place_ok {value : α} {next : Cursor} {read : next.size < c.size} :
    (ok value next read).place = next := rfl

@[simp] theorem place_error {e : SyntaxError} {stopped : Cursor} {kept : stopped.size ≤ c.size} :
    (error e stopped kept : Outcome c α).place = stopped := rfl

/-- Reading went on from `d`, and an error is reported at the token where it stopped, where
what it mends belongs. -/
structure From (d : Cursor) (x : Outcome c α) : Prop where
  passes : ∃ n, d.Passes n x.place
  here : ∀ {e stopped kept}, x = .error e stopped kept → e.span = stopped.here
  belongs : ∀ {e stopped kept}, x = .error e stopped kept → e.fault.BelongsAt stopped

theorem From.ahead {x : Outcome c α} (h : x.From d) : ∃ n, d.Ahead n x.place :=
  h.passes.imp fun _ hn => hn.ahead

theorem From.ok {value : α} {next : Cursor} {read : next.size < c.size} (h : d.Passes n next) :
    (ok value next read).From d :=
  ⟨⟨n, h⟩, nofun, nofun⟩

theorem From.fail {fault : SyntaxFault} {h : e.size ≤ c.size} (he : d.Passes n e)
    (hfault : fault.BelongsAt e) : (fail fault e h : Outcome c α).From d := by
  refine ⟨⟨n, he⟩, fun heq => ?_, fun heq => ?_⟩ <;> cases heq
  · rfl
  · exact hfault

/-- The error that reading stopped with is reported there. -/
theorem From.reports {e : SyntaxError} {stopped : Cursor} {kept : stopped.size ≤ c.size}
    (h : (error e stopped kept : Outcome c α).From d) : d.Reports e := by
  obtain ⟨n, hn⟩ := h.passes
  exact ⟨n, stopped, hn, (h.here rfl).symm, h.belongs rfl⟩

/-- An error stays one of reading from `d`, whatever was to be read. -/
theorem From.error {e : SyntaxError} {stopped : Cursor} {kept : stopped.size ≤ c.size}
    {b : Cursor} {kept' : stopped.size ≤ b.size} (h : (error e stopped kept : Outcome c α).From d) :
    (error e stopped kept' : Outcome b β).From d := by
  refine ⟨h.passes, fun heq => ?_, fun heq => ?_⟩ <;> cases heq
  · exact h.here rfl
  · exact h.belongs rfl

/-- Reading that went on from `e` went on from any place before it. -/
theorem From.before {x : Outcome c α} (h : d.Passes n e) (hx : x.From e) : x.From d := by
  obtain ⟨m, hm⟩ := hx.passes
  exact ⟨⟨n + m, h.trans hm⟩, hx.here, hx.belongs⟩

theorem From.andThen {x : Outcome e α} {h : e.size ≤ c.size}
    {f : α → (b : Cursor) → b.size < e.size → Outcome c β} (hx : x.From d)
    (hf : ∀ a b hb, (f a b hb).From b) : (x.andThen h f).From d := by
  cases x with
  | ok a b hb =>
    obtain ⟨n, hn⟩ := hx.passes
    exact (hf a b hb).before hn
  | error error stopped kept => exact hx.error

theorem From.size_le {x : Outcome c α} (hx : x.From d) : x.place.size ≤ d.size := by
  obtain ⟨n, hn⟩ := hx.ahead
  exact hn.size_le

/-- Reading that began in a stream ends there. -/
theorem From.further {b : Cursor} {i : Nat} {x : Outcome c α} (hx : x.From d) (hb : b.Ahead i d) :
    ∃ j, i ≤ j ∧ b.Ahead j x.place := by
  obtain ⟨n, hn⟩ := hx.ahead
  exact ⟨i + n, Nat.le_add_right i n, hb.trans hn⟩

end Outcome

section Expect

variable {c : Cursor} {want : TokenKind → Bool} {fault : SyntaxFault} {role : NameRole}

theorem expect_of_any (h : c.peek?.any want = true) (ha : c.advance.size < c.size) :
    expect want fault c = .ok c.here c.advance ha := by
  unfold expect
  split <;> simp_all

theorem expect_of_not_any (h : ¬c.peek?.any want = true) :
    expect want fault c = .fail fault c (Nat.le_refl _) := by
  unfold expect
  split <;> simp_all

theorem expectName_of_name {name : String} (h : c.peek? = some (.name name))
    (ha : c.advance.size < c.size) : expectName role c = .ok (name, c.here) c.advance ha := by
  unfold expectName
  split <;> simp_all

theorem expectName_of_ne (h : ∀ name, c.peek? ≠ some (.name name)) :
    expectName role c = .fail (.name role) c (Nat.le_refl _) := by
  unfold expectName
  split
  · next name hname => exact absurd hname (h name)
  · rfl
  · rfl

end Expect

theorem expect_from (want : TokenKind → Bool) {fault : SyntaxFault} {c : Cursor}
    (hfault : fault.BelongsAt c) : (expect want fault c).From c := by
  by_cases hwant : c.peek?.any want = true
  · obtain ⟨kind, hpeek, -⟩ := Cursor.exists_peek?_of_any hwant
    rw [expect_of_any hwant (Cursor.size_advance_lt hpeek)]
    exact .ok (Cursor.passes_advance hpeek)
  · rw [expect_of_not_any hwant]
    exact .fail (.refl c) hfault

theorem expectLandmark_from (want : TokenKind → Bool) (mark : Landmark) (c : Cursor) :
    (expect want (.landmark mark) c).From c :=
  expect_from want trivial

theorem expectCloseParen_from (role : ParenRole) (c : Cursor) : (expectCloseParen role c).From c :=
  expect_from _ rfl

theorem expectCloseBracket_from (role : BracketRole) (c : Cursor) :
    (expectCloseBracket role c).From c :=
  expect_from _ rfl

theorem expectName_from (role : NameRole) (c : Cursor) : (expectName role c).From c := by
  by_cases hname : ∃ name, c.peek? = some (.name name)
  · obtain ⟨name, hpeek⟩ := hname
    rw [expectName_of_name hpeek (Cursor.size_advance_lt hpeek)]
    exact .ok (Cursor.passes_advance hpeek)
  · rw [expectName_of_ne (not_exists.1 hname)]
    exact .fail (.refl c) trivial

/-! ## Expressions -/

/-- The readers of expressions go on from where they are, and report errors where they stop. -/
theorem expr_readers_from :
    (∀ c, (readExpr c).From c) ∧ (∀ level c, (readLevel level c).From c) ∧
      (∀ level left c d hd, (readOperators level left c d hd).From d) ∧
      (∀ level c, (readOperand level c).From c) ∧ (∀ c, (readSigned c).From c) ∧
      (∀ c, (readPrimary c).From c) ∧
      (∀ close role c d hd, (readItems close role c d hd).From d) ∧
      (∀ close role seen c d hd, (readItemsFrom close role seen c d hd).From d) ∧
      ∀ base c d hd, (readSuffixes base c d hd).From d := by
  refine readExpr.mutual_induct (fun c => (readExpr c).From c)
    (fun level c => (readLevel level c).From c)
    (fun level left c d hd => (readOperators level left c d hd).From d)
    (fun level c => (readOperand level c).From c) (fun c => (readSigned c).From c)
    (fun c => (readPrimary c).From c)
    (fun close role c d hd => (readItems close role c d hd).From d)
    (fun close role seen c d hd => (readItemsFrom close role seen c d hd).From d)
    (fun base c d hd => (readSuffixes base c d hd).From d)
    ?expr ?level ?join ?stop ?tighter ?signed ?sign ?plain ?group ?list ?atom ?noAtom ?atEnd
    ?none ?some ?items ?call ?index ?property ?bare
  case expr =>
    intro c hlevel hvalue
    rw [readExpr]
    refine hlevel.andThen fun target d hd => ?_
    split
    · next op hop =>
      refine ((hvalue d hd op hop).andThen fun value e he => .ok (.refl e)).before
        (Cursor.passes_advance_of_bind hop)
    · exact .ok (.refl d)
  case level =>
    intro level c hoperand hoperators
    rw [readLevel]
    exact hoperand.andThen hoperators
  case join =>
    intro level left c d hd op hop ha hoperand hoperators
    rw [readOperators_join hop ha]
    exact (hoperand.andThen fun right e he => hoperators right e he).before
      (Cursor.passes_advance_of_bind hop)
  case stop =>
    intro level left c d hd hop
    rw [readOperators_of_none hop]
    exact .ok (.refl d)
  case tighter =>
    intro level c tighter hover _ hlevel
    rwa [readOperand_tighter hover]
  case signed =>
    intro level c hover hsigned
    rwa [readOperand_signed hover]
  case sign =>
    intro c op hop ha hsigned
    rw [readSigned_sign hop ha]
    exact (hsigned.andThen fun operand d hd => .ok (.refl d)).before
      (Cursor.passes_advance_of_bind hop)
  case plain =>
    intro c hop hprimary
    rwa [readSigned_plain hop]
  case group =>
    intro c hpeek ha hexpr hsuffixes
    rw [readPrimary_group hpeek ha]
    refine (hexpr.andThen fun inner d hd => ?_).before (Cursor.passes_advance hpeek)
    exact (expectCloseParen_from _ d).andThen fun close e he => hsuffixes inner d hd close e he
  case list =>
    intro c hpeek ha hitems hsuffixes
    rw [readPrimary_list hpeek ha]
    refine (hitems.andThen fun items d hd => ?_).before (Cursor.passes_advance hpeek)
    exact (expectCloseBracket_from _ d).andThen fun close e he => hsuffixes items d hd close e he
  case atom =>
    intro c kind _ _ hpeek atom hatom hsuffixes
    rw [readPrimary_atom hpeek hatom (Cursor.size_advance_lt hpeek)]
    exact hsuffixes.before (Cursor.passes_advance hpeek)
  case noAtom =>
    intro c kind hparen hbracket hpeek hatom
    rw [readPrimary_noAtom hparen hbracket hpeek hatom]
    exact .fail (.refl c) trivial
  case atEnd =>
    intro c hpeek
    rw [readPrimary_atEnd hpeek]
    exact .fail (.refl c) trivial
  case none =>
    intro close role c d hd hclose
    rw [readItems, if_pos hclose]
    exact .ok (.refl d)
  case some =>
    intro close role c d hd hclose hfrom
    rwa [readItems, if_neg hclose]
  case items =>
    intro close role seen c d hd hexpr hmore
    rw [readItemsFrom]
    refine hexpr.andThen fun item e he => ?_
    split
    · next hcomma =>
      exact (hmore item e he hcomma).before (Cursor.passes_advance hcomma)
    · next kind _ hkind =>
      split
      · exact .fail (.refl e) ⟨rfl, Cursor.rest_ne_nil hkind⟩
      · exact .ok (.refl e)
    · exact .ok (.refl e)
  case call =>
    intro base c d hd hpeek ha hitems hsuffixes
    rw [readSuffixes_call hpeek ha]
    refine (hitems.andThen fun args e he => ?_).before (Cursor.passes_advance hpeek)
    exact (expectCloseParen_from _ e).andThen fun close f hf => hsuffixes args e he close f hf
  case index =>
    intro base c d hd hpeek ha hexpr hsuffixes
    rw [readSuffixes_index hpeek ha]
    refine (hexpr.andThen fun index e he => ?_).before (Cursor.passes_advance hpeek)
    exact (expectCloseBracket_from _ e).andThen fun close f hf => hsuffixes index e he close f hf
  case property =>
    intro base c d hd hpeek ha hsuffixes
    rw [readSuffixes_property hpeek ha]
    exact ((expectName_from _ _).andThen fun name e he => hsuffixes name e he).before
      (Cursor.passes_advance hpeek)
  case bare =>
    intro base c d hd hparen hbracket hdot
    rw [readSuffixes_of_ne hparen hbracket hdot]
    exact .ok (.refl d)

section Readers

variable {c d : Cursor}

theorem readExpr_from (c : Cursor) : (readExpr c).From c := expr_readers_from.1 c

theorem readLevel_from (level : Level) (c : Cursor) : (readLevel level c).From c :=
  expr_readers_from.2.1 level c

theorem readOperators_from {level : Level} {left : Expr} {hd : d.size < c.size} :
    (readOperators level left c d hd).From d :=
  expr_readers_from.2.2.1 level left c d hd

theorem readOperand_from (level : Level) (c : Cursor) : (readOperand level c).From c :=
  expr_readers_from.2.2.2.1 level c

theorem readSigned_from (c : Cursor) : (readSigned c).From c := expr_readers_from.2.2.2.2.1 c

theorem readItems_from {close : TokenKind → Bool} {role : ItemRole} {hd : d.size < c.size} :
    (readItems close role c d hd).From d :=
  expr_readers_from.2.2.2.2.2.2.1 close role c d hd

theorem readItemsFrom_from {close : TokenKind → Bool} {role : ItemRole} {seen : List Expr}
    {hd : d.size < c.size} : (readItemsFrom close role seen c d hd).From d :=
  expr_readers_from.2.2.2.2.2.2.2.1 close role seen c d hd

theorem readSuffixes_from {base : Expr} {hd : d.size < c.size} :
    (readSuffixes base c d hd).From d :=
  expr_readers_from.2.2.2.2.2.2.2.2 base c d hd

/-- An error in an expression is reported at its tokens, where what it mends belongs. -/
theorem reports_of_parseExpression {stream : TokenStream} {e : SyntaxError}
    (h : parseExpression stream = .error e) : (Cursor.start stream).Reports e := by
  have hfrom := readExpr_from (.start stream)
  unfold parseExpression at h
  split at h
  · next next read hread =>
    split at h
    · cases h
    · cases h
      rw [hread] at hfrom
      obtain ⟨n, hn⟩ := hfrom.passes
      exact ⟨n, next, hn, rfl, trivial⟩
  · next error stopped kept hread =>
    cases h
    rw [hread] at hfrom
    exact hfrom.reports

end Readers

end ScriptMachine
