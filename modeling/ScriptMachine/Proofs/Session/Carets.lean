import ScriptMachine.Proofs.Codegen.Reports
import ScriptMachine.Proofs.Diagnostic.Offences
import ScriptMachine.Proofs.Program.Recovery
import ScriptMachine.Proofs.Session.Outcomes

/-!
# Where carets point

A source text can be turned down when it is read, when its names are resolved and when its
code is generated (`Diagnosed`). Each of the diagnostics is to blame on something that
stands in the text (`Blames`): on the place where no lexeme can be read, on a token or the
end of the text where no program can be read on, on the nodes of the program that scoping
errors and errors of code generation are about. The diagnostic points at just this place
(`carets_exact`): rendered, it shows the line on which what is blamed begins, with the first
caret under its first character.
-/

namespace ScriptMachine

open Grammar

/-! ## Diagnostics of a source text -/

/-- A session whose native functions are the built-in ones. -/
def Session.HasBuiltins {ε τ : Type} (s : Session ε τ) : Prop := s.natives = #["clock", "type"]

theorem Session.hasBuiltins_new {ε τ : Type} (config : Config) (state : τ) :
    (Session.new config state : Session ε τ).HasBuiltins := rfl

theorem Session.HasBuiltins.nodup {ε τ : Type} {s : Session ε τ} (h : s.HasBuiltins) :
    s.natives.toList.Nodup := by
  rw [h]
  decide

theorem Session.HasBuiltins.length_le {ε τ : Type} {s : Session ε τ} (h : s.HasBuiltins) :
    s.natives.toList.length ≤ maxSlots := by
  rw [h]
  decide

/-- The diagnostics of a source text, under whatever names of files. What is resolved and
compiled is the program that is read, in which an earlier resolution may have written numbers
at names. -/
inductive Diagnosed (source : String) : Diagnostic → Prop
  | read {file : String} {ds : List Diagnostic} {d : Diagnostic}
      (h : Program.ofSource file source = .error ds) (hd : d ∈ ds) : Diagnosed source d
  | resolve {ε τ : Type} {s : Session ε τ} {file file' : String} {read program : Program}
      {orders : CandidateOrders} {ds : List Diagnostic} {d : Diagnostic} (hs : s.HasBuiltins)
      (hread : Program.ofSource file source = .ok read)
      (hprogram : program.withoutIds = read.withoutIds)
      (h : (program.resolve s.natives.toList).check file' orders = .error ds) (hd : d ∈ ds) :
      Diagnosed source d
  | compile {ε τ : Type} {s : Session ε τ} {file file' : String} {read program : Program}
      {orders : CandidateOrders} {ds : List Diagnostic} {d : Diagnostic} (hs : s.HasBuiltins)
      (hread : Program.ofSource file source = .ok read)
      (hprogram : program.withoutIds = read.withoutIds)
      (h : (s.compile program file' orders).1 = .error (.compile ds)) (hd : d ∈ ds) :
      Diagnosed source d

/-- What in a text a diagnostic is to blame on. -/
inductive Blames (text : List Char) : Diagnostic → Offence → Prop
  | unreadable {file : String} {e : LexError} (h : scan text = .error e) :
      Blames text (e.diagnostic file) (.unreadable e.fault)
  | token {file : String} {e : SyntaxError} {stream : TokenStream} {t : Token}
      (hscan : scan text = .ok stream) (h : (Cursor.start stream).Reports e)
        (ht : t ∈ stream.tokens)
      (hspan : t.span = e.span) : Blames text (e.diagnostic file) (.token t)
  | ending {file : String} {e : SyntaxError} {stream : TokenStream} (hscan : scan text = .ok stream)
      (h : (Cursor.start stream).Reports e) (hspan : e.span = .point stream.stop) :
      Blames text (e.diagnostic file) .ending
  | scope {file : String} {e : ScopeError} {order : CandidateOrder} {stream : TokenStream}
      {program : Program} {node offence : TreeNode} (hscan : scan text = .ok stream)
      (hprogram : IsProgram stream.tokens program) (hnode : program.HasNode node)
      (h : e.About node offence) : Blames text (e.diagnostic file order) (.node offence)
  | code {file : String} {e : CodeError} {stream : TokenStream} {program : Program}
      {node offence : TreeNode} (hscan : scan text = .ok stream)
      (hprogram : IsProgram stream.tokens program) (hnode : program.HasNode node)
      (h : e.About node offence) : Blames text (e.diagnostic file) (.node offence)

/-- The diagnostic points at something that stands in the source and is to blame. Only where the
source ends are there no characters to point at. -/
def Diagnostic.Points (d : Diagnostic) (source : String) : Prop :=
  ∃ offence before stretch, Blames source.toList d offence ∧
    offence.StandsAt source.toList before stretch ∧ (stretch = [] → offence = .ending) ∧
    d.PointsAt source before stretch

theorem Diagnostic.Points.of_standsAt {source : String} {d : Diagnostic} {offence : Offence}
    {before stretch : List Char} (hblames : Blames source.toList d offence)
    (hstands : offence.StandsAt source.toList before stretch)
    (hspan : d.span = ⟨positionBehind before, positionBehind (before ++ stretch)⟩)
    (htrace : d.trace = []) : d.Points source := by
  refine ⟨offence, before, stretch, hblames, hstands, ?_, hstands.pointsAt hspan htrace⟩
  rintro rfl
  exact hstands.ending_of_nil.1

/-! ## The parts of compilation -/

section Parts

variable {file source : String} {d : Diagnostic}

theorem points_of_read {ds : List Diagnostic} (h : Program.ofSource file source = .error ds)
    (hd : d ∈ ds) : d.Points source := by
  unfold Program.ofSource at h
  split at h
  · next e hscan =>
    cases h
    rw [List.mem_singleton.1 hd]
    obtain ⟨before, stretch, hstands, hspan⟩ := exists_unreadable_of_scan hscan
    exact .of_standsAt (.unreadable hscan) hstands hspan rfl
  · next stream hscan =>
    split at h
    · next es hparse =>
      cases h
      obtain ⟨e, he, rfl⟩ := List.mem_map.1 hd
      have hreports := reports_of_parse hparse e he
      rcases exists_standsAt_of_mem_spans hscan hreports.mem_spans with
        ⟨t, ht, hspan, before, lexeme, hstands, hspan'⟩ | hspan
      · exact .of_standsAt (.token hscan hreports ht hspan) hstands hspan' rfl
      · have hstop := (exists_standsAt_of_scan hscan).2.2
        refine .of_standsAt (.ending hscan hreports (hstop ▸ hspan)) .ending ?_ rfl
        rw [List.append_nil]
        exact hspan
    · cases h

/-- An error that the nodes of a program that is read explain points at one of them. -/
theorem points_of_explains {read : Program} {about : TreeNode → TreeNode → Prop}
    (hread : Program.ofSource file source = .ok read) (h : read.withoutIds.Explains about)
    (hmem : ∀ node offence, about node offence → offence = node ∨ offence ∈ node.children)
    (hspan : ∀ node offence, about node offence → d.span = offence.span) (htrace : d.trace = [])
    (hblames : ∀ stream node offence, scan source.toList = .ok stream →
      IsProgram stream.tokens read → read.HasNode node → about node offence →
        Blames source.toList d (.node offence)) : d.Points source := by
  obtain ⟨stream, hscan, hprogram⟩ := Program.exists_stream_of_ofSource hread
  rw [hprogram.withoutIds_eq] at h
  obtain ⟨node, offence, hnode, hoffence, habout⟩ := h.exists_node hmem
  obtain ⟨before, stretch, hstands, hnodeSpan⟩ := TreeNode.exists_standsAt hscan hprogram hoffence
  exact .of_standsAt (hblames stream node offence hscan hprogram hnode habout) hstands
    ((hspan node offence habout).trans hnodeSpan) htrace

theorem points_of_scopeError {read : Program} {e : ScopeError} {file' : String}
    {order : CandidateOrder} (hread : Program.ofSource file source = .ok read)
    (h : read.withoutIds.Explains e.About) : (e.diagnostic file' order).Points source :=
  points_of_explains hread h (fun _ _ => ScopeError.About.offence_mem)
    (fun _ _ => ScopeError.About.span_eq) rfl fun _ _ _ hscan hprogram hnode habout =>
      .scope hscan hprogram hnode habout

theorem points_of_codeError {read : Program} {e : CodeError} {file' : String}
    (hread : Program.ofSource file source = .ok read) (h : read.withoutIds.Explains e.About) :
    (e.diagnostic file').Points source :=
  points_of_explains hread h (fun _ _ => CodeError.About.offence_mem)
    (fun _ _ => CodeError.About.span_eq) rfl fun _ _ _ hscan hprogram hnode habout =>
      .code hscan hprogram hnode habout

theorem points_of_check {hostNames : List String} (hnames : hostNames.Nodup)
    {read program : Program} {file' : String} {orders : CandidateOrders} {ds : List Diagnostic}
    (hread : Program.ofSource file source = .ok read)
    (hprogram : program.withoutIds = read.withoutIds)
    (h : (program.resolve hostNames).check file' orders = .error ds) (hd : d ∈ ds) :
    d.Points source := by
  unfold Resolution.check at h
  split at h
  · cases h
  · cases h
    obtain ⟨i, hi, rfl⟩ := List.mem_mapIdx.1 hd
    exact points_of_scopeError hread
      (hprogram ▸ program.explains_of_resolve hnames _ (List.getElem_mem hi))

theorem points_of_compile {ε τ : Type} {s : Session ε τ} (hnames : s.natives.toList.Nodup)
    (hcount : s.natives.toList.length ≤ maxSlots) {read program : Program} {file' : String}
    {orders : CandidateOrders} {ds : List Diagnostic}
    (hread : Program.ofSource file source = .ok read)
    (hprogram : program.withoutIds = read.withoutIds)
    (h : (s.compile program file' orders).1 = .error (.compile ds)) (hd : d ∈ ds) :
    d.Points source := by
  have hcompiles := s.compiles program file' orders
  generalize s.compile program file' orders = result at h hcompiles
  cases hcompiles with
  | unresolved hcheck =>
    cases h
    exact points_of_check hnames hread hprogram hcheck hd
  | refused hcheck _ =>
    cases h
    obtain ⟨-, rfl, rfl⟩ := Resolution.check_eq_ok.1 hcheck
    obtain ⟨e, he, rfl⟩ := List.mem_map.1 hd
    exact points_of_codeError hread
      (hprogram ▸ program.explains_of_compile hcount s.memory.heap e he)
  | compiled => cases h

end Parts

/-! ## Carets -/

/-- Every diagnostic of a source text points at what is to blame for it. If the line exists on
which this begins, the diagnostic shows its text and below it carets, the first one under the
first character of what is blamed, or behind the line where the text ends; on one line there
are as many carets as the span has columns, or a single one, and over several lines they reach
to the end of the line that is shown. If there is no such line, none is shown. -/
theorem carets_exact {source : String} {d : Diagnostic} (h : Diagnosed source d) :
    d.Points source := by
  cases h with
  | read h hd => exact points_of_read h hd
  | resolve hs hread hprogram h hd => exact points_of_check hs.nodup hread hprogram h hd
  | compile hs hread hprogram h hd =>
    exact points_of_compile hs.nodup hs.length_le hread hprogram h hd

/-- A source whose lines end with two characters, with a string where there is no code for it. -/
def greeting : String := "# grüße\r\nfn main() \x7b\r\n  print [true, \"ä\"];\r\n\x7d\r\n"

/-- The theorem applies: the source is read, and turned down for the string in its third line. -/
theorem carets_exact_demo : ∃ d : Diagnostic, Diagnosed greeting d ∧
    d.message = "string literals are not supported" ∧ d.span = ⟨⟨3, 16⟩, ⟨3, 19⟩⟩ ∧
      d.Points greeting := by
  let s : Session Empty Unit := Session.new Config.default ()
  have hok : (match Program.ofSource "demo" greeting with
      | .ok program =>
        match (s.compile program "demo").1 with
        | .error (.compile ds) => ds.any fun d =>
          d.message = "string literals are not supported" ∧ d.span = ⟨⟨3, 16⟩, ⟨3, 19⟩⟩
        | _ => false
      | .error _ => false) = true := by decide +kernel
  split at hok
  · next program hread =>
    split at hok
    · next ds hcompile =>
      obtain ⟨d, hd, hfound⟩ := List.any_eq_true.1 hok
      obtain ⟨hmessage, hspan⟩ := of_decide_eq_true hfound
      have h : Diagnosed greeting d :=
        .compile (Session.hasBuiltins_new Config.default ()) hread rfl hcompile hd
      exact ⟨d, h, hmessage, hspan, carets_exact h⟩
    · cases hok
  · cases hok

end ScriptMachine
