import ScriptMachine.Program.OfSource
import ScriptMachine.Proofs.Program.Recovery
import ScriptMachine.Proofs.Token.Separators

/-!
# What corrections do

The correction of a syntax error puts one mark into the text. Where the error is reported is
where the mark belongs in the token stream (`Cursor.Reports.exists_place`), so the text, once
corrected, has the same tokens with the missing one in front of the token that the error is
reported at. There is one exception: a mark that is put behind a comment at the end of the text
becomes part of the comment (`corrections_insert`).
-/

namespace ScriptMachine

/-! ## Edits -/

/-- The text with what stands in the span of the edit replaced. -/
def Edit.apply (edit : Edit) (text : List Char) : List Char :=
  ((charsFrom .origin text).filter (·.1.Before edit.span.start)).map Prod.snd ++
    edit.replacement.toList ++
    ((charsFrom .origin text).filter (¬·.1.Before edit.span.stop)).map Prod.snd

/-- An edit of an empty span inserts its text there. -/
theorem Edit.apply_point (file new : String) (front back : List Char) :
    Edit.apply ⟨file, .point (positionBehind front), new⟩ (front ++ back) =
      front ++ (new.toList ++ back) := by
  have hfront : ∀ c ∈ charsFrom .origin front, c.1.Before (positionBehind front) := fun c hc =>
    after_origin front ▸ (bounds_of_mem_charsFrom hc).2
  have hback : ∀ c ∈ charsFrom (Position.origin.after front) back,
      ¬c.1.Before (positionBehind front) := fun c hc =>
    after_origin front ▸ (bounds_of_mem_charsFrom hc).1
  simp only [apply, Span.point, charsFrom_append, List.filter_append]
  rw [List.filter_eq_self.2 fun c hc => by simp [hfront c hc],
    List.filter_eq_nil_iff.2 fun c hc => by simp [hback c hc],
    List.filter_eq_nil_iff.2 fun c hc => by simp [hfront c hc],
    List.filter_eq_self.2 fun c hc => by simp [hback c hc],
    List.append_nil, List.nil_append, map_snd_charsFrom, map_snd_charsFrom, List.append_assoc]

namespace Insertion

/-- The mark that is missing. -/
def mark : Insertion → Char
  | .paramComma | .itemComma _ => ','
  | .semicolon => ';'
  | .closeParen _ => ')'
  | .closeBracket _ => ']'

/-- The token that is missing. -/
def kind : Insertion → TokenKind
  | .paramComma | .itemComma _ => .comma
  | .semicolon => .semicolon
  | .closeParen _ => .closeParen
  | .closeBracket _ => .closeBracket

theorem isSeparator (missing : Insertion) : IsSeparator missing.mark missing.kind := by
  cases missing <;> constructor

/-- The blanks that are inserted behind the mark. -/
def blanks : Insertion → List Char
  | .paramComma | .itemComma _ => [' ']
  | .semicolon | .closeParen _ | .closeBracket _ => []

theorem toList_text (missing : Insertion) :
    missing.text.toList = missing.mark :: missing.blanks := by
  cases missing <;> simp [text, mark, blanks]

theorem blanks_eq_nil {missing : Insertion} (h : missing.kind ≠ .comma) : missing.blanks = [] := by
  cases missing with
  | paramComma | itemComma _ => exact absurd rfl h
  | _ => rfl

theorem blanks_subset (missing : Insertion) : ∀ c ∈ missing.blanks, c ∈ blankCharacters := by
  cases missing <;> simp [blanks, blankCharacters]

end Insertion

/-- A mark that no blanks follow, at the end of the text. -/
theorem Insertion.apply_last {missing : Insertion} (file : String) (h : missing.kind ≠ .comma)
    (text : List Char) :
    Edit.apply ⟨file, .point (positionBehind text), missing.text⟩ text =
      text ++ [missing.mark] := by
  have happly := Edit.apply_point file missing.text text []
  rwa [List.append_nil, List.append_nil, missing.toList_text, blanks_eq_nil h] at happly

/-- Only missing tokens are corrected, and each by one edit. -/
theorem mem_corrections_iff {file : String} {e : SyntaxError} {correction : Correction} :
    correction ∈ (e.diagnostic file).corrections ↔ ∃ missing position,
      e.fault = .insertion missing position ∧
        correction = ⟨missing.title, [⟨file, .point position, missing.text⟩]⟩ := by
  obtain ⟨fault, span⟩ := e
  cases fault <;> simp [SyntaxError.diagnostic, SyntaxFault.fix?, Fix.correction]

/-! ## Where a correction goes -/

/-- The text behind the last token. -/
def TokenStream.trail (stream : TokenStream) (text : List Char) : List Char :=
  Span.slice ⟨stream.stops.getLastD .origin, stream.stop⟩ text

/-- An error about a missing token is reported at some token or at the end. A missing semicolon
belongs behind the token before it; any other token belongs in front of it. -/
theorem Cursor.Reports.exists_place {stream : TokenStream} {e : SyntaxError} {missing : Insertion}
    {position : Position} (h : (Cursor.start stream).Reports e)
    (hfault : e.fault = .insertion missing position) :
    ∃ i ≤ stream.tokens.length, stream.spans[i]? = some e.span ∧
      (missing.kind = .semicolon ∧ stream.stops[i]? = some position ∨
        position = e.span.start ∧ (missing.kind = .comma → i < stream.tokens.length)) := by
  obtain ⟨i, d, hd, hspan, hbelongs⟩ := h
  have hrest : d.rest = stream.tokens.drop i := hd.ahead.rest
  refine ⟨i, hd.inside, hspan ▸ Cursor.getElem?_spans hd.ahead, ?_⟩
  rw [hfault] at hbelongs
  cases missing with
  | semicolon =>
    obtain rfl : position = d.before := hbelongs
    exact .inl ⟨rfl, Cursor.getElem?_stops hd⟩
  | paramComma | itemComma _ =>
    obtain ⟨rfl, hnext⟩ : position = d.here.start ∧ d.rest ≠ [] := hbelongs
    refine .inr ⟨by rw [hspan], fun _ => ?_⟩
    rw [hrest, ne_eq, List.drop_eq_nil_iff] at hnext
    omega
  | closeParen _ | closeBracket _ =>
    obtain rfl : position = d.here.start := hbelongs
    exact .inr ⟨by rw [hspan], nofun⟩

/-! ## Corrected texts -/

theorem insertIdx_length_append {α : Type} (xs ys : List α) (a : α) :
    (xs ++ ys).insertIdx xs.length a = xs ++ a :: ys := by
  induction xs with
  | nil => rfl
  | cons x xs ih => exact congrArg (x :: ·) ih

/-- The text has the tokens of the stream with one more of the kind as number `i`. -/
def TokenStream.Inserts (stream : TokenStream) (i : Nat) (kind : TokenKind) (text : List Char) :
    Prop :=
  ∃ stream', scan text = .ok stream' ∧
    stream'.tokens.map Token.kind = (stream.tokens.map Token.kind).insertIdx i kind

/-- The text has the tokens of the stream. -/
def TokenStream.Keeps (stream : TokenStream) (text : List Char) : Prop :=
  ∃ stream', scan text = .ok stream' ∧
    stream'.tokens.map Token.kind = stream.tokens.map Token.kind

/-- The mark at the position becomes part of a comment that ends with the text. -/
def TokenStream.Swallows (stream : TokenStream) (text : List Char) (position : Position) : Prop :=
  position = stream.stop ∧ EndsInComment (stream.trail text)

namespace Splits

variable {text gap tail : List Char} {l m : List Segment}

/-- The stream of segments that a text splits into. -/
abbrev stream (text : List Char) (segments : List Segment) : TokenStream :=
  ⟨tokensBehind [] segments, positionBehind text⟩

theorem scan_eq (h : Splits text m) : scan text = .ok (stream text m) := h.scanFrom_eq [] []

theorem inserts {text' : List Char} {q : Segment} {m' : List Segment}
    (h : Splits text' (l ++ q :: m')) (hm : m'.map Segment.kind = m.map Segment.kind) :
    (stream text (l ++ m)).Inserts l.length q.kind text' := by
  refine ⟨_, h.scan_eq, ?_⟩
  rw [map_kind_tokensBehind, map_kind_tokensBehind, List.map_append, List.map_append, List.map_cons,
    hm, ← insertIdx_length_append, List.length_map]

/-- What stands behind the last token is the last gap. -/
theorem trail_eq (l : List Segment) (gap : List Char) :
    (stream (written l ++ gap) l).trail (written l ++ gap) = gap := by
  have hstop := getElem?_stops_tokensBehind [] l []
  have hlast : (stream (written l ++ gap) l).stops.getLastD .origin = positionBehind
    (written l) := by
    rw [List.append_nil, List.nil_append] at hstop
    rw [List.getLastD_eq_getLast?, List.getLast?_eq_getElem?]
    simp only [TokenStream.stops, List.length_cons, List.length_map, length_tokensBehind,
      Nat.add_sub_cancel]
    exact congrArg (Option.getD · _) hstop
  have hslice := slice_append (written l) gap []
  rw [List.append_nil] at hslice
  rw [TokenStream.trail, hlast, hslice]

theorem eq_nil_of_positionBehind {front back : List Char}
    (h : positionBehind front = positionBehind (front ++ back)) : back = [] := by
  by_contra hback
  have hbefore := positionBehind_append front hback
  rw [← h] at hbefore
  exact Position.Before.irrefl hbefore

section Marks

variable {missing : Insertion} (file : String)

/-- A semicolon right behind some of the tokens. -/
theorem inserts_behind (h : Splits (written l ++ tail) (l ++ m)) (htail : Splits tail m)
    (hkind : missing.kind ≠ .comma) :
    (stream (written l ++ tail) (l ++ m)).Inserts l.length missing.kind
      (Edit.apply ⟨file, .point (positionBehind (written l)), missing.text⟩
        (written l ++ tail)) := by
  rw [Edit.apply_point, missing.toList_text, Insertion.blanks_eq_nil hkind]
  exact inserts (q := ⟨[], [missing.mark], missing.kind⟩)
    (h.insert_behind htail missing.isSeparator) rfl

/-- No comment is open right behind a token. -/
theorem not_swallows_behind (htail : Splits tail m) :
    ¬(stream (written l ++ tail) (l ++ m)).Swallows (written l ++ tail)
      (positionBehind (written l)) := by
  rintro ⟨hposition, hopen⟩
  obtain rfl := eq_nil_of_positionBehind hposition
  cases m with
  | nil =>
    rw [List.append_nil l, trail_eq] at hopen
    exact not_endsInComment_nil hopen
  | cons p m =>
    generalize hnil : [] = text at htail
    cases htail with
    | segment _ hlexeme _ =>
      rw [List.nil_eq_append_iff, List.append_eq_nil_iff] at hnil
      exact hlexeme.isLexeme.ne_nil hnil.2.1

/-- A mark right in front of a token. -/
theorem inserts_ahead {p : Segment} (h : Splits (written l ++ tail) (l ++ p :: m))
    (htail : Splits tail (p :: m)) :
    (stream (written l ++ tail) (l ++ p :: m)).Inserts l.length missing.kind
      (Edit.apply ⟨file, .point (positionBehind (written l ++ p.gap)), missing.text⟩
        (written l ++ tail)) := by
  cases htail with
  | @segment _ rest _ hgap hlexeme hrest =>
    have hinserted := h.insert_ahead hgap hlexeme hrest missing.isSeparator
      missing.blanks_subset
    rw [← List.append_assoc] at hinserted
    rw [← List.append_assoc (written l), Edit.apply_point, missing.toList_text]
    exact inserts (q := ⟨p.gap, [missing.mark], missing.kind⟩) hinserted rfl

/-- A token does not stand at the end of the text. -/
theorem not_swallows_ahead {p : Segment} (htail : Splits tail (p :: m)) :
    ¬(stream (written l ++ tail) (l ++ p :: m)).Swallows (written l ++ tail)
      (positionBehind (written l ++ p.gap)) := by
  rintro ⟨hposition, -⟩
  cases htail with
  | segment _ hlexeme _ =>
    have hend : positionBehind (written l ++ p.gap) = positionBehind (written l ++ (p.gap ++ _)) :=
      hposition
    rw [← List.append_assoc] at hend
    exact hlexeme.isLexeme.ne_nil (List.append_eq_nil_iff.1 (eq_nil_of_positionBehind hend)).1

/-- A mark at the end of a text, where no comment is open. -/
theorem inserts_last (h : Splits (written l ++ gap) (l ++ [])) (hgap : IsGap gap [])
    (hclosed : ¬EndsInComment gap) (hkind : missing.kind ≠ .comma) :
    (stream (written l ++ gap) (l ++ [])).Inserts l.length missing.kind
      (Edit.apply ⟨file, .point (positionBehind (written l ++ gap)), missing.text⟩
        (written l ++ gap)) := by
  rw [Insertion.apply_last file hkind, List.append_assoc]
  exact inserts (q := ⟨gap, [missing.mark], missing.kind⟩)
    (h.insert_last hgap hclosed missing.isSeparator) rfl

/-- A mark at the end of a comment that ends with the text. -/
theorem keeps_comment (h : Splits (written l ++ gap) (l ++ [])) (hgap : IsGap gap [])
    (hopen : EndsInComment gap) (hkind : missing.kind ≠ .comma) :
    (stream (written l ++ gap) (l ++ [])).Keeps
      (Edit.apply ⟨file, .point (positionBehind (written l ++ gap)), missing.text⟩
        (written l ++ gap)) := by
  rw [Insertion.apply_last file hkind, List.append_assoc]
  refine ⟨_, (h.append_comment hgap hopen missing.isSeparator).scan_eq, ?_⟩
  rw [map_kind_tokensBehind]

end Marks

theorem start_of_spans_ahead {p : Segment} {span : Span}
    (h : (stream text (l ++ p :: m)).spans[l.length]? = some span) :
    span.start = positionBehind (written l ++ p.gap) := by
  have hstart := getElem?_tokensBehind [] l m p
  have hlt : l.length < (tokensBehind [] (l ++ p :: m)).length := by
    simp [length_tokensBehind]
  rw [TokenStream.spans, List.getElem?_append_left (by simpa using hlt), List.getElem?_map] at h
  obtain ⟨token, htoken, rfl⟩ := Option.map_eq_some_iff.1 h
  rw [htoken] at hstart
  exact Option.some.inj hstart

theorem start_of_spans_last {span : Span}
    (h : (stream text (l ++ [])).spans[l.length]? = some span) :
    span.start = positionBehind text := by
  have hlength : l.length = ((stream text (l ++ [])).tokens.map Token.span).length := by
    simp [length_tokensBehind]
  rw [TokenStream.spans, List.getElem?_append_right (Nat.le_of_eq hlength.symm), ← hlength,
    Nat.sub_self] at h
  cases h
  rfl

/-- A mark at the place where it belongs is one token more, unless a comment swallows it. -/
theorem corrected {segments : List Segment} (h : Splits text segments) {missing : Insertion}
    {i : Nat} {position : Position} {span : Span} (hi : i ≤ (stream text segments).tokens.length)
    (hspan : (stream text segments).spans[i]? = some span)
    (hplace : missing.kind = .semicolon ∧ (stream text segments).stops[i]? = some position ∨
      position = span.start ∧
        (missing.kind = .comma → i < (stream text segments).tokens.length))
    (file : String) :
    ((stream text segments).Swallows text position →
      (stream text segments).Keeps (Edit.apply ⟨file, .point position, missing.text⟩ text)) ∧
    (¬(stream text segments).Swallows text position →
      (stream text segments).Inserts i missing.kind
        (Edit.apply ⟨file, .point position, missing.text⟩ text)) := by
  have hi' : i ≤ segments.length := length_tokensBehind [] segments ▸ hi
  obtain ⟨l, m, rfl, rfl⟩ : ∃ l m, segments = l ++ m ∧ i = l.length :=
    ⟨segments.take i, segments.drop i, (List.take_append_drop _ _).symm,
      (List.length_take_of_le hi').symm⟩
  obtain ⟨tail, rfl, htail⟩ := h.exists_tail
  rcases hplace with ⟨hkind, hstop⟩ | ⟨rfl, hcomma⟩
  · have hposition : positionBehind (written l) = position :=
      Option.some.inj ((getElem?_stops_tokensBehind [] l m).symm.trans hstop)
    subst hposition
    have hkind' : missing.kind ≠ .comma := by rw [hkind]; nofun
    exact ⟨fun hswallows => absurd hswallows (not_swallows_behind htail),
      fun _ => inserts_behind file h htail hkind'⟩
  · cases m with
    | cons p m =>
      rw [start_of_spans_ahead hspan]
      exact ⟨fun hswallows => absurd hswallows (not_swallows_ahead htail),
        fun _ => inserts_ahead file h htail⟩
    | nil =>
      have hkind : missing.kind ≠ .comma := fun hkind => by
        have hlt := hcomma hkind
        rw [length_tokensBehind, List.append_nil] at hlt
        exact Nat.lt_irrefl _ hlt
      have hgap : IsGap tail [] := by
        cases htail with
        | last hgap => exact hgap
      rw [start_of_spans_last hspan]
      have htrail : (stream (written l ++ tail) (l ++ [])).trail (written l ++ tail) = tail := by
        rw [List.append_nil l, trail_eq]
      exact ⟨fun hswallows => keeps_comment file h hgap (htrail ▸ hswallows.2) hkind,
        fun hclosed => inserts_last file h hgap
          (fun hopen => hclosed ⟨rfl, htrail.symm ▸ hopen⟩) hkind⟩

end Splits

/-! ## The corrections of a text -/

/-- What the errors of a text are corrected by, each with the tokens of the text and the error. -/
def correctionsOf (file : String) (text : List Char) :
    List (TokenStream × SyntaxError × Correction) :=
  match scan text with
  | .error _ => []
  | .ok stream =>
    match parse stream with
    | .ok _ => []
    | .error errors =>
      errors.flatMap fun e => (e.diagnostic file).corrections.map fun c => (stream, e, c)

theorem of_mem_correctionsOf {file : String} {text : List Char} {stream : TokenStream}
    {e : SyntaxError} {correction : Correction}
    (h : (stream, e, correction) ∈ correctionsOf file text) :
    scan text = .ok stream ∧ (∃ errors, parse stream = .error errors ∧ e ∈ errors) ∧
      correction ∈ (e.diagnostic file).corrections := by
  unfold correctionsOf at h
  split at h
  · cases h
  · next stream' hscan =>
    split at h
    · cases h
    · next errors hparse =>
      obtain ⟨e', he, hc⟩ := List.mem_flatMap.1 h
      obtain ⟨c, hc, heq⟩ := List.mem_map.1 hc
      cases heq
      exact ⟨hscan, ⟨errors, hparse, he⟩, hc⟩

/-- **Corrections.** The correction of a syntax error is one edit, which inserts the missing mark
at a position. The text can be scanned after it as well, and has the same kinds of tokens with the
missing one in front of the token, or the end, that the error is reported at. Only where the
position is the end of a text whose last line is a comment behind the last token, the mark becomes
part of the comment, and the kinds stay as they are. -/
theorem corrections_insert {text : List Char} {stream : TokenStream} {e : SyntaxError}
    {file : String} {correction : Correction} (hscan : scan text = .ok stream)
    (h : (∃ errors, parse stream = .error errors ∧ e ∈ errors) ∨ parseExpression stream = .error e)
    (hcorrection : correction ∈ (e.diagnostic file).corrections) :
    ∃ missing position i, e.fault = .insertion missing position ∧
      correction = ⟨missing.title, [⟨file, .point position, missing.text⟩]⟩ ∧
      stream.spans[i]? = some e.span ∧
      (stream.Swallows text position →
        stream.Keeps (Edit.apply ⟨file, .point position, missing.text⟩ text)) ∧
      (¬stream.Swallows text position →
        stream.Inserts i missing.kind (Edit.apply ⟨file, .point position, missing.text⟩ text)) := by
  have hreports : (Cursor.start stream).Reports e := by
    rcases h with ⟨errors, hparse, he⟩ | hparse
    · exact reports_of_parse hparse e he
    · exact reports_of_parseExpression hparse
  obtain ⟨missing, position, hfault, rfl⟩ := mem_corrections_iff.1 hcorrection
  obtain ⟨i, hi, hspan, hplace⟩ := hreports.exists_place hfault
  have horigin : Position.origin = positionBehind [] := rfl
  obtain ⟨segments, hsplits, rfl⟩ := exists_splits_of_scanFrom horigin hscan
  exact ⟨missing, position, i, hfault, rfl, hspan, hsplits.corrected hi hspan hplace file⟩

/-- A semicolon in front of a comment that ends with the text. -/
theorem corrections_insert_demo :
    let text := "var a = b # note".toList
    ∃ stream errors, scan text = .ok stream ∧ parse stream = .error errors ∧
      ⟨.insertion .semicolon ⟨1, 10⟩, .point ⟨1, 17⟩⟩ ∈ errors ∧
      ∃ i, stream.spans[i]? = some (.point ⟨1, 17⟩) ∧
        stream.Inserts i .semicolon
          (Edit.apply ⟨"demo", .point ⟨1, 10⟩, ";"⟩ text) := by
  intro text
  have hsome : (correctionsOf "demo" text).any fun x =>
      x.2.1 = ⟨.insertion .semicolon ⟨1, 10⟩, .point ⟨1, 17⟩⟩ ∧ x.1.stop = ⟨1, 17⟩ := by
    decide +kernel
  obtain ⟨⟨stream, e, correction⟩, hmem, hfound⟩ := List.any_eq_true.1 hsome
  obtain ⟨rfl, hstop⟩ := of_decide_eq_true hfound
  obtain ⟨hscan, ⟨errors, hparse, he⟩, hcorrection⟩ := of_mem_correctionsOf hmem
  obtain ⟨missing, position, i, hfault, -, hspan, -, hinserts⟩ :=
    corrections_insert hscan (.inl ⟨errors, hparse, he⟩) hcorrection
  cases hfault
  refine ⟨stream, errors, hscan, hparse, he, i, hspan, hinserts fun hswallows => ?_⟩
  have hposition := hswallows.1
  rw [show stream.stop = ⟨1, 17⟩ from hstop] at hposition
  cases hposition

/-- A parenthesis that is put behind a comment at the end of the text is not read. -/
theorem correction_swallowed :
    ¬∀ (text : List Char) (stream : TokenStream) (e : SyntaxError) (correction : Correction),
      scan text = .ok stream → (∃ errors, parse stream = .error errors ∧ e ∈ errors) →
      correction ∈ (e.diagnostic "demo").corrections →
      ∃ edit i kind, correction.edits = [edit] ∧ stream.spans[i]? = some e.span ∧
        stream.Inserts i kind (edit.apply text) := by
  intro hinserts
  let text := "fn main() \x7b print (a # note".toList
  have hsome : (correctionsOf "demo" text).any fun x =>
      x.2.2.edits.all fun edit =>
        match scan (edit.apply text) with
        | .ok stream' => stream'.tokens.length = x.1.tokens.length
        | .error _ => false := by
    decide +kernel
  obtain ⟨⟨stream, e, correction⟩, hmem, hlost⟩ := List.any_eq_true.1 hsome
  obtain ⟨hscan, herror, hcorrection⟩ := of_mem_correctionsOf hmem
  obtain ⟨edit, i, kind, hedits, hspan, stream', hscan', hkinds⟩ :=
    hinserts _ stream e correction hscan herror hcorrection
  have hi : i ≤ stream.tokens.length := by
    have hlt := (List.getElem?_eq_some_iff.1 hspan).1
    rw [TokenStream.spans, List.length_append, List.length_map] at hlt
    exact Nat.le_of_lt_succ hlt
  have hmore := congrArg List.length hkinds
  rw [List.length_map, List.length_insertIdx_of_le_length (by simpa using hi), List.length_map]
    at hmore
  simp only [hedits, hscan', List.all_cons, List.all_nil, Bool.and_true, decide_eq_true_eq] at hlost
  omega

end ScriptMachine
