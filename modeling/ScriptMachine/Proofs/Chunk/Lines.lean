import Mathlib.Data.List.Basic
import ScriptMachine.Chunk.Basic

/-!
# The lines of a chunk

The runs of a chunk stand for a list with one line for every byte of its code
(`Chunk.lineTable`). Writing a byte makes the last run longer or starts one
(`Chunk.lines_write`), so it adds its line at the end of that list, and the line
at an offset is read off it.
-/

namespace ScriptMachine

/-- The lines of all bytes in runs. -/
def expandRuns (runs : List LineRun) : List Nat :=
  runs.flatMap fun run => List.replicate run.length run.line

/-- The line of every byte of the code. -/
def Chunk.lineTable (chunk : Chunk) : List Nat := expandRuns chunk.lines.toList

theorem expandRuns_append (runs runs' : List LineRun) :
    expandRuns (runs ++ runs') = expandRuns runs ++ expandRuns runs' := List.flatMap_append

theorem lineOfRuns_eq {runs : List LineRun} {last offset line : Nat}
    (h : (expandRuns runs)[offset]? = some line) : lineOfRuns last offset runs = line := by
  induction runs generalizing last offset with
  | nil => cases h
  | cons run runs ih =>
    rw [expandRuns, List.flatMap_cons] at h
    rw [lineOfRuns]
    split
    · next hlt =>
      rw [List.getElem?_append_left (by rwa [List.length_replicate]),
        List.getElem?_replicate, if_pos hlt] at h
      exact Option.some.inj h
    · next hge =>
      rw [List.getElem?_append_right (by rw [List.length_replicate]; omega),
        List.length_replicate] at h
      exact ih h

/-- The line at an offset is that of the byte there. -/
theorem Chunk.lineAt_eq {chunk : Chunk} {offset line : Nat}
    (h : chunk.lineTable[offset]? = some line) : chunk.lineAt offset = line := lineOfRuns_eq h

/-- A byte makes the last run longer, or starts one behind a run with another line. -/
theorem Chunk.lines_write (chunk : Chunk) (byte : UInt8) (line : Nat) :
    (∃ runs length, chunk.lines.toList = runs ++ [⟨line, length⟩] ∧
      (chunk.write byte line).lines.toList = runs ++ [⟨line, length + 1⟩]) ∨
    (∀ run ∈ chunk.lines.toList.getLast?, run.line ≠ line) ∧
      (chunk.write byte line).lines.toList = chunk.lines.toList ++ [⟨line, 1⟩] := by
  unfold Chunk.write
  dsimp only
  split
  · next run hrun =>
    obtain ⟨runs, hruns⟩ := Array.back?_eq_some_iff.1 hrun
    by_cases hline : run.line = line
    · subst hline
      exact .inl ⟨runs.toList, run.length, by simp [hruns], by simp [hruns]⟩
    · exact .inr ⟨by simp [hruns, hline], by simp [hline]⟩
  · next hnone => exact .inr ⟨by simp [hnone], by simp⟩

/-- Writing a byte adds its line. -/
theorem Chunk.lineTable_write (chunk : Chunk) (byte : UInt8) (line : Nat) :
    (chunk.write byte line).lineTable = chunk.lineTable ++ [line] := by
  unfold lineTable
  rcases chunk.lines_write byte line with ⟨runs, length, hruns, hwrite⟩ | ⟨-, hwrite⟩
  · rw [hwrite, hruns, expandRuns_append, expandRuns_append]
    simp [expandRuns, List.replicate_succ']
  · rw [hwrite, expandRuns_append]
    simp [expandRuns]

end ScriptMachine
