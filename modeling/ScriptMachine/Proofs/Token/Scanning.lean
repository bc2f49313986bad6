import Mathlib.Data.List.Induction
import ScriptMachine.Proofs.Token.Lexemes
import ScriptMachine.Token.Scan

/-!
# Texts that can be scanned

A text can be scanned exactly if it splits into lexemes with gaps in front of
them and one behind the last (`Splits`), where each lexeme is the longest one at
its place. The tokens are then those lexemes, in order, each with the true
positions of its first and last character (`scan_splits`): the span of a token
cuts its lexeme out of the text again (`slice_append`).
-/

namespace ScriptMachine

/-! ## Positions -/

/-- The position behind a first part of a text, by its lines and the characters
since the last of them began. -/
def positionBehind (before : List Char) : Position :=
  ⟨1 + before.count '\n', 1 + (before.reverse.takeWhile (· ≠ '\n')).length⟩

theorem after_origin (before : List Char) :
    Position.origin.after before = positionBehind before := by
  induction before using List.reverseRecOn with
  | nil => rfl
  | append_singleton before c ih =>
    rw [Position.after_append, ih]
    by_cases hc : c = '\n'
    · subst hc
      simp [positionBehind, Position.step, Nat.add_assoc]
    · simp [positionBehind, Position.step, hc, List.count_append, Nat.add_assoc]

/-- A text moves a position by no more lines and columns than it has characters. So 32 bits hold
the positions in every text that has less than 2^32 - 1 of them. -/
theorem positionBehind_le (before : List Char) :
    (positionBehind before).line ≤ 1 + before.length ∧
      (positionBehind before).col ≤ 1 + before.length := by
  have hcol := (List.takeWhile_prefix (· ≠ '\n') (l := before.reverse)).length_le
  rw [List.length_reverse] at hcol
  exact ⟨Nat.add_le_add_left List.count_le_length 1, Nat.add_le_add_left hcol 1⟩

theorem after_positionBehind (before cs : List Char) :
    (positionBehind before).after cs = positionBehind (before ++ cs) := by
  rw [← after_origin, ← after_origin, Position.after_append]

/-- A position comes before another one. -/
def Position.Before (p q : Position) : Prop := p.line < q.line ∨ p.line = q.line ∧ p.col < q.col

instance (p q : Position) : Decidable (p.Before q) :=
  inferInstanceAs (Decidable (p.line < q.line ∨ p.line = q.line ∧ p.col < q.col))

namespace Position.Before

variable {p q r : Position}

theorem trans (h : p.Before q) (h' : q.Before r) : p.Before r := by
  unfold Before at *
  omega

theorem asymm (h : p.Before q) : ¬q.Before p := by
  unfold Before at *
  omega

theorem irrefl : ¬p.Before p := by
  unfold Before
  omega

theorem not_trans (h : ¬q.Before p) (h' : ¬r.Before q) : ¬r.Before p := by
  unfold Before at *
  omega

end Position.Before

theorem Position.before_step (p : Position) (c : Char) : p.Before (p.step c) := by
  unfold Position.step Position.Before
  split
  · exact .inl (Nat.lt_succ_self _)
  · exact .inr ⟨rfl, Nat.lt_succ_self _⟩

/-- Reading moves on. -/
theorem Position.before_after (p : Position) {cs : List Char} (h : cs ≠ []) :
    p.Before (p.after cs) := by
  induction cs generalizing p with
  | nil => exact absurd rfl h
  | cons c cs ih =>
    rw [Position.after_cons]
    cases cs with
    | nil => exact p.before_step c
    | cons d ds => exact (p.before_step c).trans (ih (p.step c) (by simp))

theorem positionBehind_append (before : List Char) {cs : List Char} (h : cs ≠ []) :
    (positionBehind before).Before (positionBehind (before ++ cs)) := by
  rw [← after_positionBehind]
  exact Position.before_after _ h

theorem not_positionBehind_append (before cs : List Char) :
    ¬(positionBehind (before ++ cs)).Before (positionBehind before) := by
  cases cs with
  | nil =>
    rw [List.append_nil]
    exact Position.Before.irrefl
  | cons c cs => exact (positionBehind_append before (by simp)).asymm

/-! ## Spans -/

/-- The characters of a text that starts at a position, each with its own. -/
def charsFrom (p : Position) : List Char → List (Position × Char)
  | [] => []
  | c :: cs => (p, c) :: charsFrom (p.step c) cs

/-- The characters of a text from the start of a span up to its end. -/
def Span.slice (span : Span) (text : List Char) : List Char :=
  ((charsFrom .origin text).filter fun c => ¬c.1.Before span.start ∧ c.1.Before span.stop).map
    Prod.snd

theorem charsFrom_append (p : Position) (xs ys : List Char) :
    charsFrom p (xs ++ ys) = charsFrom p xs ++ charsFrom (p.after xs) ys := by
  induction xs generalizing p with
  | nil => rfl
  | cons x xs ih => exact congrArg ((p, x) :: ·) (ih (p.step x))

theorem map_snd_charsFrom (p : Position) (xs : List Char) :
    (charsFrom p xs).map Prod.snd = xs := by
  induction xs generalizing p with
  | nil => rfl
  | cons x xs ih => exact congrArg (x :: ·) (ih (p.step x))

/-- The characters stand between the two ends of their text. -/
theorem bounds_of_mem_charsFrom {p : Position} {xs : List Char} {c : Position × Char}
    (h : c ∈ charsFrom p xs) : ¬c.1.Before p ∧ c.1.Before (p.after xs) := by
  induction xs generalizing p with
  | nil => cases h
  | cons x xs ih =>
    rcases List.mem_cons.1 h with rfl | h
    · exact ⟨Position.Before.irrefl, p.before_after (by simp)⟩
    · obtain ⟨hstart, hstop⟩ := ih h
      exact ⟨fun hbefore => hstart (hbefore.trans (p.before_step x)), hstop⟩

/-- A span from the true position of a stretch of text to the one behind it cuts
out just that stretch. -/
theorem slice_append (before lexeme after : List Char) :
    Span.slice ⟨positionBehind before, positionBehind (before ++ lexeme)⟩
      (before ++ lexeme ++ after) = lexeme := by
  unfold Span.slice
  rw [← after_origin, ← after_origin, charsFrom_append, charsFrom_append, List.filter_append,
    List.filter_append]
  have hbefore : (charsFrom .origin before).filter (fun c =>
      ¬c.1.Before (Position.origin.after before) ∧
        c.1.Before (Position.origin.after (before ++ lexeme))) = [] := by
    refine List.filter_eq_nil_iff.2 fun c hc => ?_
    simp [(bounds_of_mem_charsFrom hc).2]
  have hlexeme : (charsFrom (Position.origin.after before) lexeme).filter (fun c =>
      ¬c.1.Before (Position.origin.after before) ∧
        c.1.Before (Position.origin.after (before ++ lexeme))) =
      charsFrom (Position.origin.after before) lexeme := by
    refine List.filter_eq_self.2 fun c hc => ?_
    obtain ⟨hstart, hstop⟩ := bounds_of_mem_charsFrom hc
    rw [Position.after_append]
    simp [hstart, hstop]
  have hafter : (charsFrom (Position.origin.after (before ++ lexeme)) after).filter (fun c =>
      ¬c.1.Before (Position.origin.after before) ∧
        c.1.Before (Position.origin.after (before ++ lexeme))) = [] := by
    refine List.filter_eq_nil_iff.2 fun c hc => ?_
    simp [(bounds_of_mem_charsFrom hc).1]
  rw [hbefore, hlexeme, hafter, List.nil_append, List.append_nil, map_snd_charsFrom]

/-! ## Splitting a text -/

/-- Blanks: space, tab, carriage return and newline. -/
def blankCharacters : List Char := [' ', '\t', '\r', '\n']

theorem isBlank_iff {c : Char} : isBlank c = true ↔ c ∈ blankCharacters := by
  simp only [isBlank, Bool.or_eq_true, beq_iff_eq, blankCharacters, List.mem_cons,
    List.not_mem_nil, or_false]
  tauto

/-- A gap in front of the text `rest`: blanks, and comments, each of which ends
with its line or with the text. -/
inductive IsGap : List Char → List Char → Prop
  | nil {rest : List Char} : IsGap [] rest
  | blank {c : Char} {gap rest : List Char} (hc : c ∈ blankCharacters) (h : IsGap gap rest) :
      IsGap (c :: gap) rest
  | comment {body gap rest : List Char} (hbody : '\n' ∉ body)
      (hend : ∀ c ∈ (gap ++ rest).head?, c = '\n') (h : IsGap gap rest) :
      IsGap ('#' :: (body ++ gap)) rest

/-- A lexeme with the gap in front of it, and the token it stands for. -/
structure Segment where
  gap : List Char
  lexeme : List Char
  kind : TokenKind

/-- The segments of a text. Behind the last of them stands a gap. -/
inductive Splits : List Char → List Segment → Prop
  | last {gap : List Char} (h : IsGap gap []) : Splits gap []
  | segment {p : Segment} {rest : List Char} {segments : List Segment}
      (hgap : IsGap p.gap (p.lexeme ++ rest)) (hlexeme : IsLexeme.Longest p.lexeme p.kind rest)
      (hrest : Splits rest segments) : Splits (p.gap ++ (p.lexeme ++ rest)) (p :: segments)

/-- The tokens of segments that stand behind a first part of a text. -/
def tokensBehind (before : List Char) : List Segment → List Token
  | [] => []
  | p :: segments =>
    ⟨p.kind, ⟨positionBehind (before ++ p.gap), positionBehind (before ++ p.gap ++ p.lexeme)⟩⟩ ::
      tokensBehind (before ++ p.gap ++ p.lexeme) segments

/-- Characters more in front of the first gap. -/
def widen (front : List Char) : List Segment → List Segment
  | [] => []
  | p :: segments => { p with gap := front ++ p.gap } :: segments

theorem tokensBehind_widen (before front : List Char) (segments : List Segment) :
    tokensBehind before (widen front segments) = tokensBehind (before ++ front) segments := by
  cases segments with
  | nil => rfl
  | cons p segments => simp [widen, tokensBehind]

/-- What turns a gap in front of any text into a longer one does so to the first
gap of a text. -/
theorem Splits.widen {text : List Char} {segments : List Segment} (h : Splits text segments)
    (front : List Char) (hfront : ∀ {gap rest}, gap ++ rest = text → IsGap gap rest →
      IsGap (front ++ gap) rest) :
    Splits (front ++ text) (widen front segments) := by
  cases h with
  | last hgap => exact .last (hfront (List.append_nil _) hgap)
  | @segment p rest segments hgap hlexeme hrest =>
    rw [← List.append_assoc]
    exact .segment (p := { p with gap := front ++ p.gap }) (hfront rfl hgap) hlexeme hrest

/-! ## Scanning splits -/

/-- The first character of a lexeme is neither blank nor the start of a
comment. -/
theorem IsLexeme.head_ne {c : Char} {cs : List Char} {kind : TokenKind}
    (h : IsLexeme (c :: cs) kind) : isBlank c = false ∧ c ≠ '#' := by
  obtain ⟨taken, kind', rest, hsplit, hlongest⟩ := h.exists_longest (List.prefix_refl _)
  have hread := lexeme_eq_token_iff.2 ⟨hsplit, hlongest⟩
  constructor
  · refine Bool.eq_false_iff.2 fun hblank => ?_
    simp only [isBlank, Bool.or_eq_true, beq_iff_eq] at hblank
    rcases hblank with ((rfl | rfl) | rfl) | rfl <;> cases hread
  · rintro rfl
    cases hread

/-! What happens at a character, one equation for each kind of it. -/

section Steps

variable {c : Char} {cs : List Char} (pos : Position) (seen : List Token)

theorem scanFrom_blank (hblank : isBlank c = true) :
    scanFrom pos (c :: cs) seen = scanFrom (pos.step c) cs seen := by
  rw [scanFrom, if_pos hblank]

theorem scanFrom_comment :
    scanFrom pos ('#' :: cs) seen =
      scanFrom (pos.after ('#' :: cs.takeWhile (· ≠ '\n'))) (cs.dropWhile (· ≠ '\n')) seen := by
  rw [scanFrom, if_neg (by decide), if_pos rfl]

theorem scanFrom_token {kind : TokenKind} {taken rest : List Char} (hblank : ¬isBlank c = true)
    (hcomment : c ≠ '#') (hread : lexeme c cs = .token kind taken rest) :
    scanFrom pos (c :: cs) seen =
      scanFrom (pos.after taken) rest (⟨kind, ⟨pos, pos.after taken⟩⟩ :: seen) := by
  rw [scanFrom, if_neg hblank, if_neg hcomment]
  split
  · next hread' =>
    rw [hread] at hread'
    cases hread'
    rfl
  · next hread' =>
    rw [hread] at hread'
    cases hread'

theorem scanFrom_fault {fault : LexFault} {taken : List Char} (hblank : ¬isBlank c = true)
    (hcomment : c ≠ '#') (hread : lexeme c cs = .fault fault taken) :
    scanFrom pos (c :: cs) seen = .error ⟨fault, ⟨pos, pos.after taken⟩⟩ := by
  rw [scanFrom, if_neg hblank, if_neg hcomment]
  split
  · next hread' =>
    rw [hread] at hread'
    cases hread'
  · next hread' =>
    rw [hread] at hread'
    cases hread'
    rfl

end Steps

/-- A gap is passed. -/
theorem scanFrom_gap {gap rest : List Char} (h : IsGap gap rest) (pos : Position)
    (seen : List Token) :
    scanFrom pos (gap ++ rest) seen = scanFrom (pos.after gap) rest seen := by
  induction h generalizing pos with
  | nil => rfl
  | @blank c gap rest hc _ ih =>
    rw [List.cons_append, scanFrom_blank _ _ (isBlank_iff.2 hc), ih]
    rfl
  | @comment body gap rest hbody hend _ ih =>
    have hall : ∀ c ∈ body, decide (c ≠ '\n') = true := by
      intro c hc
      simp only [ne_eq, decide_not, Bool.not_eq_eq_eq_not, Bool.not_true, decide_eq_false_iff_not]
      rintro rfl
      exact hbody hc
    have hstop : ∀ c ∈ (gap ++ rest).head?, decide (c ≠ '\n') = false := by
      intro c hc
      simp [hend c hc]
    rw [List.cons_append, List.append_assoc, scanFrom_comment,
      takeWhile_append_eq hall hstop, dropWhile_append_eq hall hstop, ih, ← Position.after_append]
    rfl

/-- What a text splits into is scanned. -/
theorem Splits.scanFrom_eq {text : List Char} {segments : List Segment} (h : Splits text segments)
    (before : List Char) (seen : List Token) :
    scanFrom (positionBehind before) text seen =
      .ok ⟨seen.reverse ++ tokensBehind before segments, positionBehind (before ++ text)⟩ := by
  induction h generalizing before seen with
  | @last gap hgap =>
    have hpass := scanFrom_gap hgap (positionBehind before) seen
    rw [List.append_nil] at hpass
    rw [hpass, after_positionBehind, scanFrom, tokensBehind, List.append_nil]
  | @segment p rest segments hgap hlexeme _ ih =>
    obtain ⟨c, cs, hcons⟩ := List.exists_cons_of_ne_nil hlexeme.isLexeme.ne_nil
    have hhead : isBlank c = false ∧ c ≠ '#' := by
      have hlexeme' := hlexeme.isLexeme
      rw [hcons] at hlexeme'
      exact hlexeme'.head_ne
    have hread : lexeme c (cs ++ rest) = .token p.kind p.lexeme rest :=
      lexeme_eq_token_iff.2 ⟨by rw [hcons]; rfl, hlexeme⟩
    have hstep : ∀ pos, scanFrom pos (p.lexeme ++ rest) seen =
        scanFrom (pos.after p.lexeme) rest (⟨p.kind, ⟨pos, pos.after p.lexeme⟩⟩ :: seen) := by
      intro pos
      rw [← scanFrom_token pos seen (by simp [hhead.1]) hhead.2 hread, ← List.cons_append, ← hcons]
    rw [scanFrom_gap hgap, hstep, after_positionBehind, after_positionBehind, ih, tokensBehind]
    simp

/-- What is scanned splits so. -/
theorem exists_splits_of_scanFrom {pos : Position} {before text : List Char} {seen : List Token}
    {stream : TokenStream} (hpos : pos = positionBehind before)
    (h : scanFrom pos text seen = .ok stream) :
    ∃ segments, Splits text segments ∧
      stream = ⟨seen.reverse ++ tokensBehind before segments, positionBehind (before ++ text)⟩ := by
  subst hpos
  induction hp : positionBehind before, text, seen using scanFrom.induct generalizing before with
  | case1 pos seen =>
    subst hp
    rw [scanFrom] at h
    cases h
    exact ⟨[], .last .nil, by simp [tokensBehind]⟩
  | case2 pos seen c cs hblank ih =>
    subst hp
    have hnext : (positionBehind before).step c = positionBehind (before ++ [c]) :=
      after_positionBehind before [c]
    rw [scanFrom_blank _ _ hblank, hnext] at h
    obtain ⟨segments, hsplits, rfl⟩ := ih h hnext.symm
    refine ⟨widen [c] segments, hsplits.widen [c] fun _ hgap => .blank (isBlank_iff.1 hblank) hgap,
      ?_⟩
    rw [tokensBehind_widen, List.append_assoc]
    rfl
  | case3 pos seen cs hblank ih =>
    subst hp
    have hnext := after_positionBehind before ('#' :: cs.takeWhile (· ≠ '\n'))
    rw [scanFrom_comment, hnext] at h
    obtain ⟨segments, hsplits, rfl⟩ := ih h hnext.symm
    have hcs : cs.takeWhile (· ≠ '\n') ++ cs.dropWhile (· ≠ '\n') = cs :=
      List.takeWhile_append_dropWhile
    have hgap : ∀ {gap rest}, gap ++ rest = cs.dropWhile (· ≠ '\n') → IsGap gap rest →
        IsGap ('#' :: cs.takeWhile (· ≠ '\n') ++ gap) rest := by
      intro gap rest hrest hgap
      refine .comment (fun hmem => ?_) (fun c hc => ?_) hgap
      · simpa using List.mem_takeWhile_imp hmem
      · rw [hrest] at hc
        have hfalse := List.head?_dropWhile_not (· ≠ '\n') cs
        rw [hc] at hfalse
        simpa using hfalse
    have hwhole := hsplits.widen _ hgap
    rw [List.cons_append, hcs] at hwhole
    refine ⟨_, hwhole, ?_⟩
    rw [tokensBehind_widen, List.append_assoc, List.cons_append, hcs]
  | case4 pos seen c cs hblank hcomment kind taken rest hread hlt ih =>
    subst hp
    have hnext := after_positionBehind before taken
    rw [scanFrom_token _ _ hblank hcomment hread, hnext] at h
    rw [hnext] at ih
    obtain ⟨segments, hsplits, rfl⟩ := ih h rfl
    obtain ⟨hsplit, hlongest⟩ := lexeme_eq_token_iff.1 hread
    rw [← hsplit]
    refine ⟨⟨[], taken, kind⟩ :: segments, .segment (p := ⟨[], taken, kind⟩) .nil hlongest hsplits,
      ?_⟩
    simp [tokensBehind]
  | case5 pos seen c cs hblank hcomment fault taken hread =>
    subst hp
    rw [scanFrom_fault _ _ hblank hcomment hread] at h
    cases h

/-! ## Tokens and their texts -/

/-- Tokens whose spans follow each other up to the end of a text and cut the
lexemes of its segments out of it. -/
structure TokenStream.Faithful (text : List Char) (segments : List Segment) (stream : TokenStream) :
    Prop where
  kinds : stream.tokens.map Token.kind = segments.map Segment.kind
  slices : stream.tokens.map (·.span.slice text) = segments.map Segment.lexeme
  ordered : ∀ t ∈ stream.tokens, t.span.start.Before t.span.stop
  disjoint : stream.tokens.Pairwise fun t t' => ¬t'.span.start.Before t.span.stop
  inside : ∀ t ∈ stream.tokens, ¬stream.stop.Before t.span.stop

theorem map_kind_tokensBehind (before : List Char) (segments : List Segment) :
    (tokensBehind before segments).map Token.kind = segments.map Segment.kind := by
  induction segments generalizing before with
  | nil => rfl
  | cons p segments ih => exact congrArg (p.kind :: ·) (ih _)

namespace Splits

variable {text : List Char} {segments : List Segment}

theorem slices (h : Splits text segments) (before : List Char) :
    (tokensBehind before segments).map (·.span.slice (before ++ text)) =
      segments.map Segment.lexeme := by
  induction h generalizing before with
  | last _ => rfl
  | @segment p rest segments _ _ _ ih =>
    have hwhole : before ++ (p.gap ++ (p.lexeme ++ rest)) =
      before ++ p.gap ++ p.lexeme ++ rest := by
      simp
    rw [tokensBehind, List.map_cons, List.map_cons, hwhole, slice_append, ih]

/-- Tokens behind a first part of a text stand between it and the end. -/
theorem bounds (h : Splits text segments) (before : List Char) :
    ∀ t ∈ tokensBehind before segments, ¬t.span.start.Before (positionBehind before) ∧
      t.span.start.Before t.span.stop ∧ ¬(positionBehind (before ++ text)).Before t.span.stop := by
  induction h generalizing before with
  | last _ => nofun
  | @segment p rest segments _ hlexeme _ ih =>
    have hwhole : before ++ (p.gap ++ (p.lexeme ++ rest)) =
      before ++ p.gap ++ p.lexeme ++ rest := by
      simp
    rw [hwhole]
    refine List.forall_mem_cons.2 ⟨⟨?_, ?_, ?_⟩, fun t ht => ?_⟩
    · exact not_positionBehind_append before p.gap
    · exact positionBehind_append _ hlexeme.isLexeme.ne_nil
    · exact not_positionBehind_append _ rest
    · obtain ⟨hstart, hordered, hstop⟩ := ih _ t ht
      have hsegment := not_positionBehind_append before (p.gap ++ p.lexeme)
      rw [← List.append_assoc] at hsegment
      exact ⟨Position.Before.not_trans hsegment hstart, hordered, hstop⟩

theorem disjoint (h : Splits text segments) (before : List Char) :
    (tokensBehind before segments).Pairwise fun t t' => ¬t'.span.start.Before t.span.stop := by
  induction h generalizing before with
  | last _ => exact .nil
  | segment _ _ hrest ih => exact .cons (fun t ht => (hrest.bounds _ t ht).1) (ih _)

theorem faithful (h : Splits text segments) :
    TokenStream.Faithful text segments ⟨tokensBehind [] segments, positionBehind text⟩ where
  kinds := map_kind_tokensBehind [] segments
  slices := h.slices []
  ordered t ht := (h.bounds [] t ht).2.1
  disjoint := h.disjoint []
  inside t ht := (h.bounds [] t ht).2.2

end Splits

/-- A text is scanned exactly if it splits into longest lexemes with gaps between
them. The tokens stand for the lexemes, from the true position of the first
character of each to the one behind its last; their spans follow each other and
cut the lexemes out of the text again. -/
theorem scan_splits (text : List Char) :
    (∀ stream, scan text = .ok stream ↔
      ∃ segments, Splits text segments ∧ stream = ⟨tokensBehind [] segments, positionBehind text⟩) ∧
    ∀ segments, Splits text segments →
      TokenStream.Faithful text segments ⟨tokensBehind [] segments, positionBehind text⟩ := by
  refine ⟨fun stream => ⟨fun h => ?_, ?_⟩, fun segments h => h.faithful⟩
  · have horigin : Position.origin = positionBehind [] := rfl
    obtain ⟨segments, hsplits, rfl⟩ := exists_splits_of_scanFrom horigin h
    exact ⟨segments, hsplits, rfl⟩
  · rintro ⟨segments, hsplits, rfl⟩
    exact hsplits.scanFrom_eq [] []

end ScriptMachine
