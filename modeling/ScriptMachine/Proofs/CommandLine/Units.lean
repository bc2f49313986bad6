import Mathlib.Data.List.Induction
import ScriptMachine.CommandLine.Arguments
import ScriptMachine.Proofs.Token.Lexemes

/-!
# Arguments in any order

The arguments behind a command are a sequence of units: flags, a limit with its number, and paths
(`ArgUnit`). Reading goes unit by unit (`readOptions_words`), so what is accepted are the sequences
of units that the command takes, with at most one path among them (`readOptions_eq_ok_iff`), and
what has been read depends only on which units there are and on the last limit (`foldl_add`). The
main statement says which arguments make a command, and which one (`arguments_any_order`).
-/

namespace ScriptMachine

/-! ## Numbers of frames -/

/-- A text that says a number of frames: the digits of a positive number that fits into a machine
word, perhaps behind a plus sign. -/
structure IsFrameCount (text : String) (n : Nat) : Prop where
  written : ∃ digits, IsDigits digits ∧ (text.toList = digits ∨ text.toList = '+' :: digits) ∧
    n = Nat.ofDigitChars 10 digits 0
  pos : 0 < n
  lt : n < UInt64.size

theorem digits?_eq_some_iff {text : List Char} {n : Nat} :
    digits? text = some n ↔ IsDigits text ∧ n = Nat.ofDigitChars 10 text 0 := by
  unfold digits?
  rw [Nat.ofDigitChars_eq_foldl]
  split
  · next h =>
    refine iff_of_false (by simp) fun hdigits => ?_
    simp only [Bool.or_eq_true, List.isEmpty_iff, Bool.not_eq_true', List.all_eq_false] at h
    rcases h with hnil | ⟨c, hc, hdigit⟩
    · exact hdigits.1.ne_nil hnil
    · exact hdigit (hdigits.1.isDigit c hc)
  · next h =>
    simp only [Bool.or_eq_true, List.isEmpty_iff, Bool.not_eq_true', not_or, Bool.not_eq_false,
      List.all_eq_true] at h
    constructor
    · intro hn
      exact ⟨⟨h.1, h.2⟩, (Option.some.inj hn).symm⟩
    · intro hn
      rw [hn.2]

/-- What is left without the plus sign are digits exactly if the text is digits that perhaps stand
behind one. -/
theorem isDigits_withoutPlus_iff {text digits : List Char} :
    IsDigits digits ∧ withoutPlus text = digits ↔
      IsDigits digits ∧ (text = digits ∨ text = '+' :: digits) := by
  refine and_congr_right fun hdigits => ?_
  have hplus : ∀ rest, digits ≠ '+' :: rest := by
    rintro rest rfl
    exact absurd (hdigits.isDigit '+' List.mem_cons_self) (by decide)
  unfold withoutPlus
  split
  · next rest =>
    have hne : '+' :: rest ≠ digits := fun h => hplus rest h.symm
    simp [hne]
  · next hplain =>
    have hne : text ≠ '+' :: digits := hplain digits
    simp [hne]

theorem word?_eq_some_iff {text : String} {n : Nat} :
    word? text = some n ↔ digits? (withoutPlus text.toList) = some n ∧ n < UInt64.size := by
  have hmax : n ≤ Config.maxWord ↔ n < UInt64.size := Nat.lt_succ_iff.symm
  unfold word?
  cases digits? (withoutPlus text.toList) with
  | none => simp
  | some m =>
    dsimp only
    split <;> grind

theorem maxFrames?_eq_some_iff {text : String} {n : Nat} :
    maxFrames? text = some n ↔ IsFrameCount text n := by
  have hcount : IsFrameCount text n ↔ word? text = some n ∧ 0 < n := by
    rw [word?_eq_some_iff, digits?_eq_some_iff]
    constructor
    · intro h
      obtain ⟨digits, hdigits, htext, hn⟩ := h.written
      obtain ⟨-, rfl⟩ := isDigits_withoutPlus_iff.2 ⟨hdigits, htext⟩
      exact ⟨⟨⟨hdigits, hn⟩, h.lt⟩, h.pos⟩
    · rintro ⟨⟨⟨hdigits, hn⟩, hlt⟩, hpos⟩
      have htext := (isDigits_withoutPlus_iff.1 ⟨hdigits, rfl⟩).2
      exact ⟨⟨_, hdigits, htext, hn⟩, hpos, hlt⟩
  rw [hcount]
  unfold maxFrames?
  cases word? text with
  | none => simp
  | some m =>
    dsimp only
    split <;> grind

/-! ## Units -/

/-- A unit of the arguments behind a command. A path does not start like an option. -/
inductive ArgUnit where
  | json
  | stress
  | maxFrames (text : String) (frames : Nat) (h : IsFrameCount text frames)
  | path (text : String) (h : ¬ ['-'] <+: text.toList)
  deriving DecidableEq

namespace ArgUnit

/-- The arguments that the unit stands for. -/
def words : ArgUnit → List String
  | json => ["--json"]
  | stress => ["--gc-stress"]
  | maxFrames text _ _ => ["--max-frames", text]
  | path text _ => [text]

def flag? : ArgUnit → Option Flag
  | json => some .json
  | stress => some .stress
  | maxFrames .. => some .maxFrames
  | path .. => none

def frames? : ArgUnit → Option Nat
  | maxFrames _ frames _ => some frames
  | _ => none

def path? : ArgUnit → Option String
  | path text _ => some text
  | _ => none

/-- Whether a command takes the unit. -/
def Taken (command : CommandName) (u : ArgUnit) : Prop :=
  u.flag?.all command.takes = true

end ArgUnit

/-- The number that the last limit says. -/
def lastFrames? (units : List ArgUnit) : Option Nat := (units.filterMap ArgUnit.frames?).getLast?

theorem Flag.text_of_ofText? {arg : String} {flag : Flag} (h : ofText? arg = some flag) :
    arg = flag.text := by
  unfold ofText? at h
  split at h
  case h_4 => cases h
  all_goals
    cases h
    rfl

theorem isOption_iff {arg : String} : isOption arg = true ↔ ['-'] <+: arg.toList := by
  unfold isOption
  rw [decide_eq_true_iff]
  cases arg.toList with
  | nil => simp
  | cons c cs => simp [eq_comm]

theorem ofText?_of_not_option {arg : String} (h : ¬ ['-'] <+: arg.toList) :
    Flag.ofText? arg = none := by
  rw [Option.eq_none_iff_forall_ne_some]
  intro flag hflag
  have harg := Flag.text_of_ofText? hflag
  cases flag <;> exact h (harg ▸ by decide)

/-! ## Reading units -/

/-- What has been read with one unit more. -/
def Options.add (o : Options) : ArgUnit → Options
  | .json => { o with json := true }
  | .stress => { o with stress := true }
  | .maxFrames _ frames _ => { o with maxFrames := some frames }
  | .path text _ => { o with path := some text }

/-- Arguments behind what has been read are these units. The command takes them all, and with them
there is at most one path. -/
structure Options.Reads (command : CommandName) (o : Options) (units : List ArgUnit)
    (args : List String) (o' : Options) : Prop where
  words : args = units.flatMap ArgUnit.words
  taken : ∀ u ∈ units, u.Taken command
  paths : (o.path.toList ++ units.filterMap ArgUnit.path?).length ≤ 1
  eq : o' = units.foldl Options.add o

section Reading

variable {command : CommandName} {o o' : Options} {args : List String}

/-- A unit that the command takes is read, but a path only if it is the first one. -/
theorem readOptions_words {u : ArgUnit} (htaken : u.Taken command)
    (hpath : u.path? = none ∨ o.path = none) (args : List String) :
    readOptions command o (u.words ++ args) = readOptions command (o.add u) args := by
  cases u with
  | json =>
    have htakes : command.takes .json = true := htaken
    simp [ArgUnit.words, readOptions, Flag.ofText?, htakes, Options.add]
  | stress =>
    have htakes : command.takes .stress = true := htaken
    simp [ArgUnit.words, readOptions, Flag.ofText?, htakes, Options.add]
  | maxFrames text frames h =>
    have htakes : command.takes .maxFrames = true := htaken
    simp [ArgUnit.words, readOptions, Flag.ofText?, htakes, maxFrames?_eq_some_iff.2 h, Options.add]
  | path text h =>
    have hnone : o.path = none := hpath.resolve_left (Option.some_ne_none text)
    have hoption : isOption text = false := by
      rw [← Bool.not_eq_true, isOption_iff]
      exact h
    simp [ArgUnit.words, readOptions, ofText?_of_not_option h, hoption, hnone, Options.add]

namespace Options.Reads

theorem nil (o : Options) : Reads command o [] [] o :=
  ⟨rfl, by simp, by cases o.path <;> simp, rfl⟩

theorem paths_cons_iff {u : ArgUnit} {units : List ArgUnit} :
    (o.path.toList ++ (u :: units).filterMap ArgUnit.path?).length ≤ 1 ↔
      (u.path? = none ∨ o.path = none) ∧
        ((o.add u).path.toList ++ units.filterMap ArgUnit.path?).length ≤ 1 := by
  cases u with
  | json | stress | maxFrames => simp [List.filterMap_cons, ArgUnit.path?, add]
  | path text h => cases o.path <;> simp [ArgUnit.path?, add]

theorem cons_iff {u : ArgUnit} {units : List ArgUnit} :
    Reads command o (u :: units) (u.words ++ args) o' ↔
      u.Taken command ∧ (u.path? = none ∨ o.path = none) ∧
        Reads command (o.add u) units args o' := by
  constructor
  · rintro ⟨hwords, htaken, hpaths, heq⟩
    obtain ⟨htaken, htakens⟩ := List.forall_mem_cons.1 htaken
    obtain ⟨hpath, hpaths⟩ := paths_cons_iff.1 hpaths
    rw [List.flatMap_cons] at hwords
    exact ⟨htaken, hpath, List.append_cancel_left hwords, htakens, hpaths, heq⟩
  · rintro ⟨htaken, hpath, hwords, htakens, hpaths, heq⟩
    exact ⟨by rw [List.flatMap_cons, hwords], List.forall_mem_cons.2 ⟨htaken, htakens⟩,
      paths_cons_iff.2 ⟨hpath, hpaths⟩, heq⟩

theorem readOptions_eq {units : List ArgUnit} (h : Reads command o units args o') :
    readOptions command o args = .ok o' := by
  induction units generalizing o args with
  | nil =>
    obtain rfl := h.words
    obtain rfl := h.eq
    rfl
  | cons u units ih =>
    obtain rfl := h.words
    obtain ⟨htaken, hpath, hrest⟩ := cons_iff.1 h
    rw [List.flatMap_cons, readOptions_words htaken hpath]
    exact ih hrest

theorem cons {u : ArgUnit} (htaken : u.Taken command) (hpath : u.path? = none ∨ o.path = none)
    (h : ∃ units, Reads command (o.add u) units args o') :
    ∃ units, Reads command o units (u.words ++ args) o' := by
  obtain ⟨units, h⟩ := h
  exact ⟨u :: units, cons_iff.2 ⟨htaken, hpath, h⟩⟩

end Options.Reads

/-- What is read are units that the command takes, with at most one path. -/
theorem readOptions_eq_ok_iff :
    readOptions command o args = .ok o' ↔ ∃ units, Options.Reads command o units args o' := by
  refine ⟨fun h => ?_, fun ⟨_, h⟩ => h.readOptions_eq⟩
  -- One case for each unit; in the others reading ends with a fault.
  fun_induction readOptions command o args
  case case1 =>
    cases h
    exact ⟨[], .nil _⟩
  case case2 hflag htakes ih =>
    obtain rfl := Flag.text_of_ofText? hflag
    exact Options.Reads.cons (u := .json) htakes (.inl rfl) (ih h)
  case case3 hflag htakes ih =>
    obtain rfl := Flag.text_of_ofText? hflag
    exact Options.Reads.cons (u := .stress) htakes (.inl rfl) (ih h)
  case case4 hframes hflag htakes ih =>
    obtain rfl := Flag.text_of_ofText? hflag
    exact Options.Reads.cons (u := .maxFrames _ _ (maxFrames?_eq_some_iff.1 hframes)) htakes
      (.inl rfl) (ih h)
  case case10 hoption hpath ih =>
    exact Options.Reads.cons (u := .path _ (mt isOption_iff.2 hoption)) rfl (.inr hpath) (ih h)
  all_goals cases h

/-! ## What has been read -/

theorem lastFrames?_concat (units : List ArgUnit) (u : ArgUnit) :
    lastFrames? (units ++ [u]) = u.frames?.or (lastFrames? units) := by
  unfold lastFrames?
  cases u <;> simp [ArgUnit.frames?]

/-- What has been read depends only on which flags there are, on the last limit and on the last
path. -/
theorem foldl_add (units : List ArgUnit) :
    units.foldl Options.add {} =
      { path := (units.filterMap ArgUnit.path?).getLast?
        json := decide (.json ∈ units)
        maxFrames := lastFrames? units
        stress := decide (.stress ∈ units) } := by
  induction units using List.reverseRecOn with
  | nil => rfl
  | append_singleton units u ih =>
    rw [List.foldl_append, ih, lastFrames?_concat]
    cases u <;> simp [Options.add, ArgUnit.path?, ArgUnit.frames?]

end Reading

/-! ## Commands -/

/-- Arguments are units, with one path among them. -/
structure IsUnits (units : List ArgUnit) (path : String) (args : List String) : Prop where
  words : args = units.flatMap ArgUnit.words
  path : units.filterMap ArgUnit.path? = [path]

/-- The command that the units behind its name ask for. -/
def CommandName.asked (path : String) (units : List ArgUnit) : CommandName → Command
  | .run => .run path (decide (.json ∈ units)) (lastFrames? units) (decide (.stress ∈ units))
  | .check => .check path (decide (.json ∈ units))
  | .disasm => .disasm path

/-- A command is made of units that it takes, one of which is the path. -/
theorem readCommand_eq_ok_iff {name : CommandName} {args : List String} {command : Command} :
    readCommand name args = .ok command ↔
      ∃ units path, IsUnits units path args ∧ (∀ u ∈ units, u.Taken name) ∧
        command = name.asked path units := by
  constructor
  · intro h
    cases hread : readOptions name {} args with
    | error fault =>
      rw [readCommand, hread] at h
      cases h
    | ok o =>
      obtain ⟨units, hwords, htaken, hpaths, rfl⟩ := readOptions_eq_ok_iff.1 hread
      rw [readCommand, hread, foldl_add] at h
      dsimp only at h
      cases hpath : units.filterMap ArgUnit.path? with
      | nil =>
        rw [hpath] at h
        cases h
      | cons path paths =>
        have hnil : paths = [] := by simpa [hpath] using hpaths
        subst hnil
        refine ⟨units, path, ⟨hwords, hpath⟩, htaken, ?_⟩
        rw [hpath] at h
        cases name <;> cases h <;> rfl
  · rintro ⟨units, path, hunits, htaken, rfl⟩
    have hread : readOptions name {} args = .ok (units.foldl Options.add {}) :=
      readOptions_eq_ok_iff.2 ⟨units, hunits.words, htaken, by simp [hunits.path], rfl⟩
    rw [readCommand, hread, foldl_add, hunits.path]
    cases name <;> rfl

namespace ArgUnit

theorem taken_run (u : ArgUnit) : u.Taken .run := by
  cases u <;> rfl

theorem taken_check_iff {u : ArgUnit} : u.Taken .check ↔ u = .json ∨ u.path? ≠ none := by
  cases u <;> simp [Taken, flag?, path?, CommandName.takes]

theorem taken_disasm_iff {u : ArgUnit} : u.Taken .disasm ↔ u.path? ≠ none := by
  cases u <;> simp [Taken, flag?, path?, CommandName.takes]

end ArgUnit

namespace IsUnits

variable {units units' : List ArgUnit} {path path' : String} {args args' : List String}

theorem mem_path (h : IsUnits units path args) :
    ∃ hpath : ¬ ['-'] <+: path.toList, .path path hpath ∈ units := by
  have hmem : path ∈ units.filterMap ArgUnit.path? := by
    rw [h.path]
    exact List.mem_singleton_self _
  obtain ⟨u, hu, hpath⟩ := List.mem_filterMap.1 hmem
  cases u with
  | path text htext =>
    obtain rfl := Option.some.inj hpath
    exact ⟨htext, hu⟩
  | json | stress | maxFrames => cases hpath

theorem eq_path (h : IsUnits units path args) {u : ArgUnit} (hu : u ∈ units) {text : String}
    (htext : u.path? = some text) : text = path := by
  have hmem : text ∈ units.filterMap ArgUnit.path? := List.mem_filterMap.2 ⟨u, hu, htext⟩
  rw [h.path] at hmem
  exact List.mem_singleton.1 hmem

/-- The command is the same for the same flags and path with the same last limit. -/
theorem asked_congr (h : IsUnits units path args) (h' : IsUnits units' path' args')
    (hsame : ∀ u, u.frames? = none → (u ∈ units ↔ u ∈ units'))
    (hframes : lastFrames? units = lastFrames? units') (name : CommandName) :
    name.asked path units = name.asked path' units' := by
  obtain ⟨hpath, hmem⟩ := h.mem_path
  obtain rfl : path = path' := h'.eq_path ((hsame _ rfl).1 hmem) rfl
  have hjson := hsame .json rfl
  have hstress := hsame .stress rfl
  cases name with
  | run => simp only [CommandName.asked, hjson, hstress, hframes]
  | check => simp only [CommandName.asked, hjson]
  | disasm => rfl

/-- If there are only paths, there is one. -/
theorem args_eq (h : IsUnits units path args) (hpaths : ∀ u ∈ units, u.path? ≠ none) :
    args = [path] := by
  have hwords : units.flatMap ArgUnit.words = units.filterMap ArgUnit.path? := by
    clear h
    induction units with
    | nil => rfl
    | cons u units ih =>
      obtain ⟨hu, hunits⟩ := List.forall_mem_cons.1 hpaths
      rw [List.flatMap_cons, ih hunits]
      cases u with
      | path text htext => rfl
      | json | stress | maxFrames => exact absurd rfl hu
  rw [h.words, hwords, h.path]

theorem taken_check_iff (h : IsUnits units path args) :
    (∀ u ∈ units, u.Taken .check) ↔ ∀ u ∈ units, u = .json ∨ u.path? = some path := by
  refine forall₂_congr fun u hu => ?_
  rw [ArgUnit.taken_check_iff]
  refine or_congr_right ?_
  cases htext : u.path? with
  | none => simp
  | some text => simp [h.eq_path hu htext]

/-- A single path. -/
theorem single {path : String} (hpath : ¬ ['-'] <+: path.toList) :
    IsUnits [.path path hpath] path [path] := ⟨rfl, rfl⟩

end IsUnits

section Commands

variable {args : List String} {command : Command}

theorem readArguments_run_eq_ok_iff :
    readArguments "run" args = .ok command ↔
      ∃ units path, IsUnits units path args ∧ command = CommandName.run.asked path units := by
  have hread : readArguments "run" args = readCommand .run args := rfl
  rw [hread, readCommand_eq_ok_iff]
  simp only [ArgUnit.taken_run, implies_true, true_and]

theorem readArguments_check_eq_ok_iff :
    readArguments "check" args = .ok command ↔
      ∃ units path, IsUnits units path args ∧ (∀ u ∈ units, u = .json ∨ u.path? = some path) ∧
        command = CommandName.check.asked path units := by
  have hread : readArguments "check" args = readCommand .check args := rfl
  rw [hread, readCommand_eq_ok_iff]
  refine exists_congr fun units => exists_congr fun path => and_congr_right fun h => ?_
  exact and_congr_left fun _ => h.taken_check_iff

theorem readArguments_disasm_eq_ok_iff :
    readArguments "disasm" args = .ok command ↔
      ∃ path, args = [path] ∧ ¬ ['-'] <+: path.toList ∧ command = .disasm path := by
  have hread : readArguments "disasm" args = readCommand .disasm args := rfl
  rw [hread, readCommand_eq_ok_iff]
  simp only [ArgUnit.taken_disasm_iff]
  constructor
  · rintro ⟨units, path, h, hpaths, rfl⟩
    obtain ⟨hpath, -⟩ := h.mem_path
    exact ⟨path, h.args_eq hpaths, hpath, rfl⟩
  · rintro ⟨path, rfl, hpath, rfl⟩
    exact ⟨_, path, .single hpath, by simp [ArgUnit.path?], rfl⟩

theorem readCommand_single {path : String} (hpath : ¬ ['-'] <+: path.toList) :
    readCommand .run [path] = .ok (.run path false none false) :=
  readCommand_eq_ok_iff.2
    ⟨_, path, .single hpath, fun u _ => u.taken_run, rfl⟩

/-- An argument that is alone and names no command is the path of a file to run. -/
theorem readArguments_single {arg : String} (hname : CommandName.ofText? arg = none)
    (harg : ¬ ['-'] <+: arg.toList) : readArguments arg [] = .ok (.run arg false none false) := by
  rw [readArguments, hname, ← readCommand_single harg]
  simp [mt isOption_iff.1 harg]

end Commands

/-- **Arguments in any order.** Arguments behind `run` make a command exactly if they are units,
one of which is the path, and the command says whether there are the flags, what the last limit is
and what the path is, in whatever order the units stand. Behind `check` there are only the flag for
reports and the path, and behind `disasm` the path alone. An argument that stands alone, names no
command and does not start like an option is run, as if it stood behind `run`. -/
theorem arguments_any_order :
    (∀ args command, readArguments "run" args = .ok command ↔
      ∃ units path, IsUnits units path args ∧
        command =
          .run path (decide (.json ∈ units)) (lastFrames? units) (decide (.stress ∈ units))) ∧
    (∀ units units' path path' args args',
      IsUnits units path args → IsUnits units' path' args' →
      (∀ u, u.frames? = none → (u ∈ units ↔ u ∈ units')) →
      lastFrames? units = lastFrames? units' →
      readArguments "run" args = readArguments "run" args') ∧
    (∀ args command, readArguments "check" args = .ok command ↔
      ∃ units path, IsUnits units path args ∧ (∀ u ∈ units, u = .json ∨ u.path? = some path) ∧
        command = .check path (decide (.json ∈ units))) ∧
    (∀ args command, readArguments "disasm" args = .ok command ↔
      ∃ path, args = [path] ∧ ¬ ['-'] <+: path.toList ∧ command = .disasm path) ∧
    ∀ arg, arg ≠ "run" → arg ≠ "check" → arg ≠ "disasm" → ¬ ['-'] <+: arg.toList →
      readArguments arg [] = .ok (.run arg false none false) ∧
        readArguments "run" [arg] = .ok (.run arg false none false) := by
  refine ⟨fun _ _ => readArguments_run_eq_ok_iff,
    fun units units' path path' args args' h h' hsame hframes => ?_,
    fun _ _ => readArguments_check_eq_ok_iff, fun _ _ => readArguments_disasm_eq_ok_iff,
    fun arg hrun hcheck hdisasm harg => ⟨?_, readCommand_single harg⟩⟩
  · have hasked := readArguments_run_eq_ok_iff.2 ⟨units, path, h, rfl⟩
    have hasked' := readArguments_run_eq_ok_iff.2 ⟨units', path', h', rfl⟩
    rw [hasked, hasked', h.asked_congr h' hsame hframes]
  · refine readArguments_single ?_ harg
    unfold CommandName.ofText?
    split <;> trivial

/-- The last limit wins, wherever the path and the flags stand. -/
example : readArguments "run"
    ["--max-frames", "8", "--gc-stress", "main.fl", "--max-frames", "+064", "--json"] =
    .ok (.run "main.fl" true (some 64) true) := by decide

/-! ## Requests -/

theorem isHelp_of_not_option {arg : String} (h : ¬ ['-'] <+: arg.toList) : isHelp arg = false := by
  rw [← Bool.not_eq_true]
  intro hhelp
  simp only [isHelp, Bool.or_eq_true, decide_eq_true_eq] at hhelp
  rcases hhelp with rfl | rfl
  · exact h (by decide)
  · exact h (by decide)

theorem IsFrameCount.not_option {text : String} {n : Nat} (h : IsFrameCount text n) :
    ¬ ['-'] <+: text.toList := by
  obtain ⟨digits, hdigits, htext, -⟩ := h.written
  rintro ⟨rest, hrest⟩
  rw [← hrest] at htext
  rcases htext with heq | heq
  · exact absurd (hdigits.isDigit '-' (heq ▸ List.mem_cons_self)) (by decide)
  · cases heq

/-- No unit asks for help. -/
theorem ArgUnit.isHelp_words {u : ArgUnit} {arg : String} (harg : arg ∈ u.words) :
    isHelp arg = false := by
  cases u with
  | json =>
    obtain rfl := List.mem_singleton.1 harg
    decide
  | stress =>
    obtain rfl := List.mem_singleton.1 harg
    decide
  | maxFrames text frames h =>
    rcases List.mem_cons.1 harg with rfl | harg
    · decide
    · obtain rfl := List.mem_singleton.1 harg
      exact isHelp_of_not_option h.not_option
  | path text h =>
    obtain rfl := List.mem_singleton.1 harg
    exact isHelp_of_not_option h

theorem any_isHelp_of_readCommand {name : CommandName} {args : List String} {command : Command}
    (h : readCommand name args = .ok command) : args.any isHelp = false := by
  obtain ⟨units, path, hunits, -, -⟩ := readCommand_eq_ok_iff.1 h
  rw [List.any_eq_false, hunits.words]
  intro arg harg
  obtain ⟨u, -, hu⟩ := List.mem_flatMap.1 harg
  simp [ArgUnit.isHelp_words hu]

theorem CommandName.not_option_of_ofText? {arg : String} {name : CommandName}
    (h : ofText? arg = some name) : ¬ ['-'] <+: arg.toList := by
  unfold ofText? at h
  split at h
  case h_4 => cases h
  all_goals decide

/-- The first of the arguments that make a command is its name or a path. -/
theorem not_option_of_readArguments {first : String} {rest : List String} {command : Command}
    (h : readArguments first rest = .ok command) : ¬ ['-'] <+: first.toList := by
  unfold readArguments at h
  split at h
  · next hname => exact CommandName.not_option_of_ofText? hname
  · split at h
    · cases h
    · next hoption => exact mt isOption_iff.2 hoption

theorem helpFor?_of_readArguments {first : String} {rest : List String} {command : Command}
    (h : readArguments first rest = .ok command) : helpFor? first rest = none := by
  unfold readArguments at h
  split at h
  · simp [helpFor?, any_isHelp_of_readCommand h]
  · next hname => simp [helpFor?, hname]

/-- Flags that ask for help do not hide a command: one is carried out exactly if the arguments make
it. -/
theorem readRequest_eq_perform_iff {first : String} {rest : List String} {command : Command} :
    readRequest (first :: rest) = .perform command ↔ readArguments first rest = .ok command := by
  constructor
  · intro h
    rw [readRequest] at h
    split at h
    · cases h
    split at h
    · cases h
    split at h
    · cases h
    · cases hread : readArguments first rest with
      | error fault =>
        rw [hread] at h
        cases h
      | ok found =>
        rw [hread] at h
        cases h
        rfl
  · intro h
    have hfirst := not_option_of_readArguments h
    have hversion : first ≠ "--version" := by
      rintro rfl
      exact hfirst (by decide)
    simp [readRequest, isHelp_of_not_option hfirst, hversion, helpFor?_of_readArguments h, h,
      Request.ofCommand]

end ScriptMachine
