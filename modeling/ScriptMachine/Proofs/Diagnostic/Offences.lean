import ScriptMachine.Proofs.Diagnostic.Excerpt
import ScriptMachine.Proofs.Program.Movement
import ScriptMachine.Proofs.Program.Nodes

/-!
# Where offences stand

What a diagnostic is about stands in a stretch of the text (`Offence.StandsAt`): where no
lexeme can be read on, a token, the tokens that a node is read from, or nothing at all where
the text ends. The span of each goes from the true position of the first character of the
stretch to the one behind its last. Such a stretch never begins with a blank, and so a
diagnostic with this span shows the line on which it begins, with the carets under it
(`Offence.StandsAt.pointsAt`).
-/

namespace ScriptMachine

open Grammar

/-! ## Tokens -/

/-- In the text a token stands behind `before`. -/
structure Token.StandsAt (text : List Char) (t : Token) (before lexeme : List Char) : Prop where
  within : before ++ lexeme <+: text
  isLexeme : IsLexeme lexeme t.kind
  span : t.span = ⟨positionBehind before, positionBehind (before ++ lexeme)⟩

theorem Splits.exists_standsAt {text : List Char} {segments : List Segment}
    (h : Splits text segments) (before : List Char) :
    ∀ t ∈ tokensBehind before segments, ∃ front lexeme, t.StandsAt (before ++ text) front
      lexeme := by
  induction h generalizing before with
  | last _ => nofun
  | @segment p rest segments _ hlexeme _ ih =>
    have hwhole : before ++ (p.gap ++ (p.lexeme ++ rest)) =
      before ++ p.gap ++ p.lexeme ++ rest := by
      simp
    rw [hwhole]
    exact List.forall_mem_cons.2
      ⟨⟨_, _, List.prefix_append _ _, hlexeme.isLexeme, rfl⟩, ih _⟩

theorem exists_standsAt_of_scan {text : List Char} {stream : TokenStream}
    (h : scan text = .ok stream) :
    (∀ t ∈ stream.tokens, ∃ before lexeme, t.StandsAt text before lexeme) ∧
      InOrder stream.tokens ∧ stream.stop = positionBehind text := by
  have horigin : Position.origin = positionBehind [] := rfl
  obtain ⟨segments, hsplits, rfl⟩ := exists_splits_of_scanFrom horigin h
  exact ⟨hsplits.exists_standsAt [], ⟨hsplits.faithful.ordered, hsplits.faithful.disjoint⟩, rfl⟩

/-- Of two first parts of a text, the one that ends first is a part of the other. -/
theorem prefix_of_not_before {xs ys text : List Char} (hxs : xs <+: text) (hys : ys <+: text)
    (h : ¬(positionBehind ys).Before (positionBehind xs)) : xs <+: ys := by
  rcases List.prefix_or_prefix_of_prefix hxs hys with hle | ⟨more, rfl⟩
  · exact hle
  · cases more with
    | nil => rw [List.append_nil]
    | cons c cs => exact absurd (positionBehind_append ys (List.cons_ne_nil c cs)) h

/-! ## Offences -/

/-- What a diagnostic is about. -/
inductive Offence where
  | unreadable (fault : LexFault)
  | token (t : Token)
  | ending
  | node (node : TreeNode)

/-- The stretch of a text in which an offence stands, behind `before`. -/
inductive Offence.StandsAt (text : List Char) : Offence → (before stretch : List Char) → Prop
  /-- Reading tokens has come to a character with which no lexeme can be read. -/
  | unreadable {before cs stretch : List Char} {c : Char} {fault : LexFault} {seen : List Token}
      (hreach : scan text = scanFrom (positionBehind before) (c :: cs) seen)
      (hblank : isBlank c = false) (hcomment : c ≠ '#')
        (hfault : lexeme c cs = .fault fault stretch)
      (htext : text = before ++ c :: cs) : StandsAt text (.unreadable fault) before stretch
  | token {stream : TokenStream} {t : Token} {before lexeme : List Char}
      (hscan : scan text = .ok stream) (ht : t ∈ stream.tokens)
        (h : t.StandsAt text before lexeme) :
      StandsAt text (.token t) before lexeme
  | ending : StandsAt text .ending text []
  /-- From the beginning of the first token of a node to the end of the last one. -/
  | node {stream : TokenStream} {node : TreeNode} {ts : List Token} {first last : Token}
      {before lexeme stretch front lexeme' : List Char}
      (hscan : scan text = .ok stream) (hts : ts <:+: stream.tokens) (hread : node.ReadFrom ts)
      (hhead : ts.head? = some first) (hfirst : first.StandsAt text before lexeme)
      (hlast? : ts.getLast? = some last) (hlast : last.StandsAt text front lexeme')
      (hbegins : lexeme <+: stretch) (hends : before ++ stretch = front ++ lexeme') :
      StandsAt text (.node node) before stretch

/-- A diagnostic that points at the stretch of the source behind `before`: it has the true
span of the stretch, and shows the line on which it begins, if there is such a line, with the
carets under it. -/
structure Diagnostic.PointsAt (d : Diagnostic) (source : String) (before stretch : List Char) :
    Prop where
  span : d.span = ⟨positionBehind before, positionBehind (before ++ stretch)⟩
  shown : ∀ text, line? source.toList d.span.start.line = some text → ∃ indent width,
    Underlining source.toList before stretch d.span text indent width ∧
      d.render source = d.header ++ underlined d.span.start.line text indent width ++ d.footer
  hidden : line? source.toList d.span.start.line = none → d.render source = d.header ++ d.footer

namespace Offence.StandsAt

variable {text before stretch : List Char} {offence : Offence}

theorem within (h : offence.StandsAt text before stretch) : before ++ stretch <+: text := by
  cases h with
  | @unreadable _ cs _ c _ _ _ _ _ hfault htext =>
    have hcovers := lexeme_covers c cs
    rw [hfault] at hcovers
    rw [htext]
    exact (List.prefix_append_right_inj before).2 hcovers.2
  | token _ _ h => exact h.within
  | ending => rw [List.append_nil]
  | node _ _ _ _ _ _ hlast _ hends =>
    rw [hends]
    exact hlast.within

/-- Only the end of a text takes no characters of it. -/
theorem ending_of_nil (h : offence.StandsAt text before []) :
    offence = .ending ∧ before = text := by
  cases h with
  | @unreadable _ cs _ c _ _ _ _ _ hfault =>
    have hcovers := lexeme_covers c cs
    rw [hfault] at hcovers
    exact absurd rfl hcovers.1
  | token _ _ h => exact absurd rfl h.isLexeme.ne_nil
  | ending => exact ⟨rfl, rfl⟩
  | node _ _ _ _ hfirst _ _ hbegins =>
    exact absurd (List.prefix_nil.1 hbegins) hfirst.isLexeme.ne_nil

/-- What an offence takes does not begin with a blank. -/
theorem isBlank_head {c : Char} {cs : List Char} (h : offence.StandsAt text before (c :: cs)) :
    isBlank c = false := by
  cases h with
  | @unreadable _ ds _ d _ _ _ hblank _ hfault =>
    have hcovers := lexeme_covers d ds
    rw [hfault] at hcovers
    obtain ⟨rfl, -⟩ := List.cons_prefix_cons.1 hcovers.2
    exact hblank
  | token _ _ h => exact h.isLexeme.head_ne.1
  | @node _ _ _ _ _ _ lexeme _ _ _ _ _ _ _ hfirst _ _ hbegins =>
    cases lexeme with
    | nil => exact absurd rfl hfirst.isLexeme.ne_nil
    | cons d ds =>
      obtain ⟨rfl, -⟩ := List.cons_prefix_cons.1 hbegins
      exact hfirst.isLexeme.head_ne.1

theorem pointsAt {d : Diagnostic} {source : String}
    (h : offence.StandsAt source.toList before stretch)
    (hspan : d.span = ⟨positionBehind before, positionBehind (before ++ stretch)⟩)
    (htrace : d.trace = []) : d.PointsAt source before stretch := by
  have hunderlined : line? source.toList d.span.start.line = none ∨ ∃ text indent width,
      Underlining source.toList before stretch d.span text indent width ∧
        Diagnostic.caretColumns d.span text.length = (indent + 1, width) := by
    cases stretch with
    | nil =>
      obtain ⟨-, rfl⟩ := h.ending_of_nil
      rw [List.append_nil] at hspan
      exact exists_underlining_at_end hspan
    | cons c cs =>
      obtain ⟨after, hsource⟩ := h.within
      rw [← hsource, List.append_assoc]
      have hblank := h.isBlank_head
      refine .inr (exists_underlining ?_ ?_ hspan)
      · rintro rfl
        cases hblank
      · rintro rfl
        cases hblank
  refine ⟨hspan, fun text hline => ?_, Diagnostic.render_of_no_line htrace⟩
  rcases hunderlined with hnone | ⟨text', indent, width, hunder, hcarets⟩
  · rw [hline] at hnone
    cases hnone
  · have htext := hunder.line
    rw [hline] at htext
    cases htext
    exact ⟨indent, width, hunder, Diagnostic.render_of_line htrace hline hcarets⟩

end Offence.StandsAt

/-! ## Offences that are found -/

theorem exists_unreadable_of_scanFrom {pos : Position} {before text : List Char} {seen : List Token}
    {e : LexError} (hpos : pos = positionBehind before) (h : scanFrom pos text seen = .error e) :
    ∃ gone c cs stretch seen', text = gone ++ c :: cs ∧
      scanFrom pos text seen = scanFrom (positionBehind (before ++ gone)) (c :: cs) seen' ∧
      isBlank c = false ∧ c ≠ '#' ∧ lexeme c cs = .fault e.fault stretch ∧
      e.span = ⟨positionBehind (before ++ gone), positionBehind (before ++ gone ++ stretch)⟩ := by
  subst hpos
  induction hp : positionBehind before, text, seen using scanFrom.induct generalizing before with
  | case1 pos seen =>
    rw [scanFrom] at h
    cases h
  | case2 pos seen c cs hblank ih =>
    subst hp
    have hnext : (positionBehind before).step c = positionBehind (before ++ [c]) :=
      after_positionBehind before [c]
    rw [scanFrom_blank _ _ hblank, hnext] at h ⊢
    rw [hnext] at ih
    obtain ⟨gone, c', cs', stretch, seen', rfl, hreach, hfound⟩ := ih h rfl
    refine ⟨c :: gone, c', cs', stretch, seen', rfl, ?_⟩
    rw [List.append_cons before c gone]
    exact ⟨hreach, hfound⟩
  | case3 pos seen cs hblank ih =>
    subst hp
    let comment := '#' :: cs.takeWhile (· ≠ '\n')
    have hnext := after_positionBehind before comment
    have hcs : cs.takeWhile (· ≠ '\n') ++ cs.dropWhile (· ≠ '\n') = cs :=
      List.takeWhile_append_dropWhile
    rw [scanFrom_comment, hnext] at h ⊢
    rw [hnext] at ih
    obtain ⟨gone, c', cs', stretch, seen', hrest, hreach, hfound⟩ := ih h rfl
    refine ⟨comment ++ gone, c', cs', stretch, seen', ?_, ?_⟩
    · rw [List.append_assoc, ← hrest, List.cons_append, hcs]
    · rw [← List.append_assoc]
      exact ⟨hreach, hfound⟩
  | case4 pos seen c cs hblank hcomment kind taken rest hread hlt ih =>
    subst hp
    have hnext := after_positionBehind before taken
    have hsplit := (lexeme_eq_token_iff.1 hread).1
    rw [scanFrom_token _ _ hblank hcomment hread, hnext] at h ⊢
    rw [hnext] at ih
    obtain ⟨gone, c', cs', stretch, seen', rfl, hreach, hfound⟩ := ih h rfl
    refine ⟨taken ++ gone, c', cs', stretch, seen', ?_, ?_⟩
    · rw [List.append_assoc, hsplit]
    · rw [← List.append_assoc]
      exact ⟨hreach, hfound⟩
  | case5 pos seen c cs hblank hcomment fault taken hread =>
    subst hp
    refine ⟨[], c, cs, taken, seen, rfl, by rw [List.append_nil], Bool.eq_false_iff.2 hblank,
      hcomment, ?_⟩
    rw [scanFrom_fault _ _ hblank hcomment hread, after_positionBehind] at h
    cases h
    rw [List.append_nil]
    exact ⟨hread, rfl⟩

/-- The fault that ends scanning. -/
theorem exists_unreadable_of_scan {text : List Char} {e : LexError} (h : scan text = .error e) :
    ∃ before stretch, (Offence.unreadable e.fault).StandsAt text before stretch ∧
      e.span = ⟨positionBehind before, positionBehind (before ++ stretch)⟩ := by
  have horigin : Position.origin = positionBehind [] := rfl
  obtain ⟨before, c, cs, stretch, seen, htext, hreach, hblank, hcomment, hfault, hspan⟩ :=
    exists_unreadable_of_scanFrom horigin h
  exact ⟨before, stretch, .unreadable hreach hblank hcomment hfault htext, hspan⟩

/-- A node stands where the tokens stand that it is read from. -/
theorem TreeNode.exists_standsAt {text : List Char} {stream : TokenStream} {program : Program}
    {node : TreeNode} (hscan : scan text = .ok stream) (hprogram : IsProgram stream.tokens program)
    (hnode : program.HasNode node) :
    ∃ before stretch, (Offence.node node).StandsAt text before stretch ∧
      node.span = ⟨positionBehind before, positionBehind (before ++ stretch)⟩ := by
  obtain ⟨hstands, horder, -⟩ := exists_standsAt_of_scan hscan
  obtain ⟨ts, hts, hread⟩ := hnode.exists_readFrom hprogram
  have hreaches := hread.reaches
  obtain ⟨first, last, hhead, hlast?, hspan⟩ := id hreaches
  have hmem := List.mem_of_mem_head? hhead
  obtain ⟨before, lexeme, hfirst⟩ := hstands first (hts.subset hmem)
  obtain ⟨front, lexeme', hlast⟩ := hstands last (hts.subset (List.mem_of_getLast? hlast?))
  -- The first token ends no later than the node.
  have hinside := (hreaches.inside_of_mem (horder.of_infix hts) hmem).stop
  rw [hspan, hfirst.span, hlast.span] at hinside
  obtain ⟨more, hends⟩ := prefix_of_not_before hfirst.within hlast.within hinside
  rw [List.append_assoc] at hends
  refine ⟨before, lexeme ++ more, .node hscan hts hread hhead hfirst hlast? hlast
    (List.prefix_append _ _) hends, ?_⟩
  rw [hspan, hfirst.span, hlast.span, hends]

/-- A place in a stream of tokens is that of a token, or the end of the text. -/
theorem exists_standsAt_of_mem_spans {text : List Char} {stream : TokenStream} {span : Span}
    (hscan : scan text = .ok stream) (h : span ∈ stream.spans) :
    (∃ t ∈ stream.tokens, t.span = span ∧ ∃ before lexeme,
        (Offence.token t).StandsAt text before lexeme ∧
          span = ⟨positionBehind before, positionBehind (before ++ lexeme)⟩) ∨
      span = .point (positionBehind text) := by
  obtain ⟨hstands, -, hstop⟩ := exists_standsAt_of_scan hscan
  unfold TokenStream.spans at h
  rcases List.mem_append.1 h with h | h
  · obtain ⟨t, ht, rfl⟩ := List.mem_map.1 h
    obtain ⟨before, lexeme, hat⟩ := hstands t ht
    exact .inl ⟨t, ht, rfl, before, lexeme, .token hscan ht hat, hat.span⟩
  · rw [List.mem_singleton.1 h, hstop]
    exact .inr rfl

end ScriptMachine
