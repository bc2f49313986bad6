import ScriptMachine.Proofs.Token.Scanning
import ScriptMachine.Source.Lines

/-!
# Lines and positions

A position counts the newlines before it, and the characters since the last of them
(`positionBehind`); lines are cut out of a text one by one (`lines`), with their ends
stripped. Both agree: the line of a position begins with what stands between the last
newline and the position, and where a character follows that ends no line, it is in the
line, too (`line?_of_char`). At the end of a text there is a line if its last one holds
anything (`line?_at_end`).
-/

namespace ScriptMachine

/-! ## Whole lines -/

/-- The text is empty or ends with a newline, so that behind it a line begins. -/
def EndsLine (text : List Char) : Prop := text = [] ∨ ∃ front, text = front ++ ['\n']

theorem linesFrom_newline (seen front rest : List Char) :
    linesFrom seen (front ++ '\n' :: rest) =
      linesFrom seen (front ++ ['\n']) ++ linesFrom [] rest := by
  induction front generalizing seen with
  | nil => rfl
  | cons c front ih =>
    rw [List.cons_append, List.cons_append, linesFrom, linesFrom]
    split
    · rw [ih, List.cons_append]
    · exact ih (c :: seen)

theorem length_linesFrom (seen front : List Char) :
    (linesFrom seen (front ++ ['\n'])).length = (front ++ ['\n']).count '\n' := by
  induction front generalizing seen with
  | nil => rfl
  | cons c front ih =>
    rw [List.cons_append, linesFrom]
    split
    · next hc =>
      subst hc
      rw [List.length_cons, ih, List.count_cons_self]
    · next hc => rw [ih, List.count_cons_of_ne hc]

/-- The line behind some whole lines is the first one of what follows. -/
theorem line?_behind {earlier : List Char} (h : EndsLine earlier) (rest : List Char) :
    line? (earlier ++ rest) (1 + earlier.count '\n') = (lines rest).head? := by
  rw [line?, if_neg (by omega), Nat.add_sub_cancel_left]
  rcases h with rfl | ⟨front, rfl⟩
  · rw [List.nil_append, List.count_nil, List.head?_eq_getElem?]
  · rw [← length_linesFrom [], lines, List.append_assoc, List.singleton_append, linesFrom_newline,
      List.getElem?_append_right (Nat.le_refl _), Nat.sub_self, List.head?_eq_getElem?, lines]

/-! ## One line -/

/-- A line without the carriage return at its end. -/
def withoutReturn (line : List Char) : List Char := (chopReturn line.reverse).reverse

theorem linesFrom_ended {line : List Char} (h : '\n' ∉ line) (seen rest : List Char) :
    linesFrom seen (line ++ '\n' :: rest) =
      withoutReturn (seen.reverse ++ line) :: linesFrom [] rest := by
  induction line generalizing seen with
  | nil => simp [linesFrom, withoutReturn]
  | cons c line ih =>
    obtain ⟨hc, hline⟩ := not_or.1 (mt List.mem_cons.2 h)
    rw [List.cons_append, linesFrom, if_neg (Ne.symm hc), ih hline]
    simp

theorem linesFrom_open {line : List Char} (h : '\n' ∉ line) (seen : List Char) :
    linesFrom seen line = if (seen.reverse ++ line).isEmpty then [] else
      [seen.reverse ++ line] := by
  induction line generalizing seen with
  | nil => simp [linesFrom]
  | cons c line ih =>
    obtain ⟨hc, hline⟩ := not_or.1 (mt List.mem_cons.2 h)
    rw [linesFrom, if_neg (Ne.symm hc), ih hline]
    simp

/-- A character that is no carriage return keeps what stands before it in its line. -/
theorem withoutReturn_append (front : List Char) {c : Char} (hc : c ≠ '\r') (back : List Char) :
    ∃ back', back' <+: back ∧ withoutReturn (front ++ c :: back) = front ++ c :: back' := by
  induction back using List.reverseRecOn with
  | nil =>
    refine ⟨[], List.prefix_refl _, ?_⟩
    rw [withoutReturn, List.reverse_append, List.reverse_singleton,
      List.singleton_append, chopReturn]
    · simp
    · exact fun _ heq => hc (List.cons.inj heq).1
  | append_singleton back d _ =>
    by_cases hd : d = '\r'
    · subst hd
      exact ⟨back, List.prefix_append _ _, by simp [withoutReturn, chopReturn]⟩
    · refine ⟨back ++ [d], List.prefix_refl _, ?_⟩
      have hreverse : (front ++ c :: (back ++ [d])).reverse = d ::
        (front ++ c :: back).reverse := by
        simp
      rw [withoutReturn, hreverse, chopReturn]
      · simp
      · exact fun _ heq => hd (List.cons.inj heq).1

/-! ## The line of a position -/

/-- A text before a position, as the whole lines before it and the part of its line. -/
structure LineSplit (before earlier margin : List Char) : Prop where
  split : before = earlier ++ margin
  endsLine : EndsLine earlier
  oneLine : '\n' ∉ margin

theorem exists_lineSplit (before : List Char) :
    ∃ earlier margin, LineSplit before earlier margin := by
  induction before using List.reverseRecOn with
  | nil => exact ⟨[], [], rfl, .inl rfl, List.not_mem_nil⟩
  | append_singleton before c ih =>
    by_cases hc : c = '\n'
    · subst hc
      exact ⟨before ++ ['\n'], [], (List.append_nil _).symm, .inr ⟨before, rfl⟩, List.not_mem_nil⟩
    · obtain ⟨earlier, margin, h⟩ := ih
      refine ⟨earlier, margin ++ [c], by rw [h.split, List.append_assoc], h.endsLine, ?_⟩
      intro hmem
      rcases List.mem_append.1 hmem with hmem | hmem
      · exact h.oneLine hmem
      · exact hc (List.mem_singleton.1 hmem).symm

namespace LineSplit

variable {before earlier margin : List Char}

/-- The position behind the text has the number of the line, and counts what it has of it. -/
theorem position (h : LineSplit before earlier margin) :
    positionBehind before = ⟨1 + earlier.count '\n', 1 + margin.length⟩ := by
  obtain ⟨rfl, hends, hline⟩ := h
  have hmargin : ∀ c ∈ margin.reverse, decide (c ≠ '\n') = true := by
    intro c hc
    exact decide_eq_true fun heq => hline (heq ▸ List.mem_reverse.1 hc)
  have hstop : ∀ c ∈ earlier.reverse.head?, decide (c ≠ '\n') = false := by
    rcases hends with rfl | ⟨front, rfl⟩
    · nofun
    · simp
  rw [positionBehind, List.count_append, List.count_eq_zero.2 hline, Nat.add_zero,
    List.reverse_append, takeWhile_append_eq hmargin hstop, List.length_reverse]

theorem line?_eq (h : LineSplit before earlier margin) (after : List Char) :
    line? (before ++ after) (positionBehind before).line = (lines (margin ++ after)).head? := by
  rw [h.position, h.split, List.append_assoc]
  exact line?_behind h.endsLine (margin ++ after)

/-- The line of a character that ends no line holds it, behind the same characters as the
text. -/
theorem line?_of_char (h : LineSplit before earlier margin) {c : Char} (hnewline : c ≠ '\n')
    (hreturn : c ≠ '\r') (after : List Char) :
    ∃ more, more <+: after ∧ '\n' ∉ more ∧
      line? (before ++ c :: after) (positionBehind before).line = some (margin ++ c :: more) := by
  have hafter : after.takeWhile (· ≠ '\n') ++ after.dropWhile (· ≠ '\n') = after :=
    List.takeWhile_append_dropWhile
  have hone : '\n' ∉ after.takeWhile (· ≠ '\n') := by
    intro hmem
    simpa using List.mem_takeWhile_imp hmem
  have hline : '\n' ∉ margin ++ c :: after.takeWhile (· ≠ '\n') := by
    simp only [List.mem_append, List.mem_cons, not_or]
    exact ⟨h.oneLine, Ne.symm hnewline, hone⟩
  have hprefix : after.takeWhile (· ≠ '\n') <+: after := List.takeWhile_prefix _
  rw [h.line?_eq]
  cases hdrop : after.dropWhile (· ≠ '\n') with
  | nil =>
    rw [hdrop, List.append_nil] at hafter
    rw [hafter] at hline hone
    refine ⟨after, List.prefix_refl _, hone, ?_⟩
    rw [lines, linesFrom_open hline]
    simp
  | cons d rest =>
    have hd : d = '\n' := by
      have hfalse := List.head?_dropWhile_not (· ≠ '\n') after
      rw [hdrop] at hfalse
      simpa using hfalse
    rw [hdrop, hd] at hafter
    obtain ⟨more, hmore, heq⟩ := withoutReturn_append margin hreturn (after.takeWhile (· ≠ '\n'))
    refine ⟨more, hmore.trans hprefix, fun hmem => hone (hmore.subset hmem), ?_⟩
    have hsplit : margin ++ c :: after =
        (margin ++ c :: after.takeWhile (· ≠ '\n')) ++ '\n' :: rest := by
      rw [List.append_assoc, List.cons_append, hafter]
    rw [hsplit, lines, linesFrom_ended hline, List.reverse_nil, List.nil_append, heq,
      List.head?_cons]

/-- At the end of a text its last line is the whole of it, if it is not empty. -/
theorem line?_at_end (h : LineSplit before earlier margin) :
    line? before (positionBehind before).line = if margin.isEmpty then none else some margin := by
  have hline := h.line?_eq []
  rw [List.append_nil, List.append_nil] at hline
  rw [hline, lines, linesFrom_open h.oneLine, List.reverse_nil, List.nil_append]
  split <;> rfl

end LineSplit

end ScriptMachine
