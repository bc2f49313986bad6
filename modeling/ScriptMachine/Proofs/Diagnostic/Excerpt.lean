import ScriptMachine.Diagnostic.Render
import ScriptMachine.Proofs.Source.Lines

/-!
# Source lines under diagnostics

A diagnostic without a call trace shows the source line that its span starts on, if there
is one, with carets below it (`Diagnostic.render_eq`). Where the span is that of a stretch
of the text, the line is the one in which the stretch begins, the first caret stands under
the first character of the stretch, and the carets go to its end, or to the end of the
line if the stretch ends on a later one (`exists_underlining`). An empty stretch at the end
of the text has a single caret behind the line (`exists_underlining_at_end`).
-/

namespace ScriptMachine

/-! ## Layout -/

/-- A source line with its number before it, and a row of carets below: as many as `width`,
behind the first `indent` columns of the line. -/
def underlined (number : Nat) (text : List Char) (indent width : Nat) : String :=
  let gutter := toString number
  let margin := String.ofList (List.replicate gutter.length ' ')
  margin ++ " |\n" ++ gutter ++ " | " ++ String.ofList text ++ "\n" ++ margin ++ " | " ++
    String.ofList (List.replicate indent ' ' ++ List.replicate width '^') ++ "\n"

namespace Diagnostic

variable {d : Diagnostic} {source : String}

/-- What stands below the source line: notes and help. -/
def footer (d : Diagnostic) : String :=
  String.join (d.notes.map fun note => " = note: " ++ note ++ "\n") ++
    match d.help with
    | some text => " = help: " ++ text ++ "\n"
    | none => ""

theorem render_eq (h : d.trace = []) (source : String) :
    d.render source = d.header ++
      (match line? source.toList d.span.start.line with
        | some text => excerpt d.span text
        | none => "") ++ d.footer := by
  have hshown : d.shownLine? source = line? source.toList d.span.start.line := by
    rw [shownLine?, h]
    rfl
  have htrace : String.join
      (d.trace.map fun e => "[line " ++ toString e.line ++ "] in " ++ e.function ++ "\n") = "" := by
    rw [h]
    rfl
  have happend (front shown notes help : String) :
      front ++ shown ++ "" ++ notes ++ help = front ++ shown ++ (notes ++ help) := by
    rw [String.append_empty, String.append_assoc]
  rw [render, hshown, footer, htrace]
  exact happend _ _ _ _

theorem render_of_line (h : d.trace = []) {text : List Char}
    (hline : line? source.toList d.span.start.line = some text) {indent width : Nat}
    (hcarets : caretColumns d.span text.length = (indent + 1, width)) :
    d.render source =
      d.header ++ underlined d.span.start.line text indent width ++ d.footer := by
  rw [render_eq h, hline]
  dsimp only
  rw [excerpt, hcarets]
  rfl

theorem render_of_no_line (h : d.trace = [])
    (hline : line? source.toList d.span.start.line = none) :
    d.render source = d.header ++ d.footer := by
  rw [render_eq h, hline, String.append_empty]

end Diagnostic

/-! ## Stretches of text -/

/-- In a text in which `stretch` stands behind `before`, the line `text` is underlined from
behind its first `indent` columns on, in `width` columns. -/
structure Underlining (source before stretch : List Char) (span : Span) (text : List Char)
    (indent width : Nat) : Prop where
  /-- The line is the one on which the span starts. -/
  line : line? source span.start.line = some text
  /-- What is not underlined at its beginning is what stands in this line before the
  stretch. -/
  margin : ∃ earlier, LineSplit before earlier (text.take indent)
  indent_le : indent ≤ text.length
  /-- The first caret is under the first character of the stretch, if it has any. -/
  first : text[indent]? = stretch.head?
  /-- On one line there are as many carets as the span has columns, and one if it has none. -/
  oneLine : span.stop.line = span.start.line →
    width = if span.stop = span.start then 1 else span.stop.col - span.start.col
  /-- Over several lines the carets go to the end of the line that is shown. -/
  moreLines : span.stop.line ≠ span.start.line → indent + width = text.length

theorem caretColumns_oneLine {span : Span} (hcol : 0 < span.start.col)
    (hline : span.stop.line = span.start.line) (hlt : span.start.col < span.stop.col)
    (length : Nat) : Diagnostic.caretColumns span length =
      (span.start.col, span.stop.col - span.start.col) := by
  unfold Diagnostic.caretColumns
  simp only [hline, if_true, Prod.mk.injEq]
  omega

theorem caretColumns_moreLines {span : Span} (hcol : 0 < span.start.col)
    (hline : span.stop.line ≠ span.start.line) {length : Nat} (hle : span.start.col ≤ length) :
    Diagnostic.caretColumns span length = (span.start.col, length + 1 - span.start.col) := by
  unfold Diagnostic.caretColumns
  simp only [hline, if_false, Prod.mk.injEq]
  omega

/-- A stretch whose first character ends no line is underlined. -/
theorem exists_underlining {before cs after : List Char} {c : Char} (hnewline : c ≠ '\n')
    (hreturn : c ≠ '\r') {span : Span}
    (hspan : span = ⟨positionBehind before, positionBehind (before ++ c :: cs)⟩) :
    ∃ text indent width,
      Underlining (before ++ (c :: cs ++ after)) before (c :: cs) span text indent width ∧
        Diagnostic.caretColumns span text.length = (indent + 1, width) := by
  obtain ⟨earlier, margin, hsplit⟩ := exists_lineSplit before
  obtain ⟨more, -, -, hline⟩ := hsplit.line?_of_char hnewline hreturn (cs ++ after)
  have hstart : span.start.line = (positionBehind before).line := by rw [hspan]
  have hcol : span.start.col = margin.length + 1 := by
    rw [hspan, hsplit.position]
    exact Nat.add_comm _ _
  have hbefore : span.start.Before span.stop := by
    rw [hspan]
    exact positionBehind_append before (List.cons_ne_nil c cs)
  have hne : span.stop ≠ span.start := by
    intro heq
    rw [heq] at hbefore
    exact Position.Before.irrefl hbefore
  have hlength : span.start.col ≤ (margin ++ c :: more).length := by
    rw [hcol, List.length_append, List.length_cons]
    omega
  have htake : (margin ++ c :: more).take margin.length = margin := List.take_left
  have hfirst : (margin ++ c :: more)[margin.length]? = some c := by
    rw [List.getElem?_append_right (Nat.le_refl _), Nat.sub_self, List.getElem?_cons_zero]
  by_cases hone : span.stop.line = span.start.line
  · have hlt : span.start.col < span.stop.col := by
      unfold Position.Before at hbefore
      omega
    refine ⟨_, margin.length, span.stop.col - span.start.col,
      ⟨by rw [hstart]; exact hline, ⟨earlier, by rwa [htake]⟩, by omega, hfirst, fun _ => ?_,
        fun hmore => absurd hone hmore⟩, ?_⟩
    · rw [if_neg hne]
    · rw [caretColumns_oneLine (by omega) hone hlt, hcol]
  · refine ⟨_, margin.length, (margin ++ c :: more).length + 1 - span.start.col,
      ⟨by rw [hstart]; exact hline, ⟨earlier, by rwa [htake]⟩, by omega, hfirst,
        fun heq => absurd heq hone, fun _ => by omega⟩, ?_⟩
    rw [caretColumns_moreLines (by omega) hone hlength, hcol]

/-- The end of a text is underlined behind its last line, unless that is empty. -/
theorem exists_underlining_at_end {source : List Char} {span : Span}
    (hspan : span = .point (positionBehind source)) :
    line? source span.start.line = none ∨ ∃ text indent width,
      Underlining source source [] span text indent width ∧
        Diagnostic.caretColumns span text.length = (indent + 1, width) := by
  obtain ⟨earlier, margin, hsplit⟩ := exists_lineSplit source
  have hline := hsplit.line?_at_end
  have hstart : span.start = positionBehind source := by rw [hspan]; rfl
  have hstop : span.stop = span.start := by rw [hspan]; rfl
  have hcol : span.start.col = margin.length + 1 := by
    rw [hstart, hsplit.position]
    exact Nat.add_comm _ _
  rw [← hstart] at hline
  by_cases hempty : margin.isEmpty
  · rw [if_pos hempty] at hline
    exact .inl hline
  · rw [if_neg hempty] at hline
    refine .inr ⟨margin, margin.length, 1, ⟨hline, ⟨earlier, by rwa [List.take_length]⟩,
      Nat.le_refl _, List.getElem?_eq_none (Nat.le_refl _), fun _ => (if_pos hstop).symm,
      fun hmore => absurd (congrArg Position.line hstop) hmore⟩, ?_⟩
    unfold Diagnostic.caretColumns
    simp only [hstop, if_true, Prod.mk.injEq]
    omega

end ScriptMachine
