import Mathlib.Algebra.Order.BigOperators.Group.List
import Mathlib.Algebra.Order.Group.Nat
import Mathlib.Data.List.Chain
import ScriptMachine.Proofs.Chunk.Lines
import ScriptMachine.Proofs.Codegen.Edits

/-!
# The line table is a run-length code

A chunk is built by calls that write a byte or an opcode with its line, add a constant, or land a
jump (`ChunkCall`). Every call keeps the runs such that they stand for the lines that have been
written, none is empty, and two that are neighbours differ in their lines (`Chunk.Tabled`). The
lines at all offsets are read off such runs, those of the bytes and behind the last one
(`Tabled.faithful`), and landing a jump changes no run (`faithful_landJump_iff`).
-/

namespace ScriptMachine

/-! ## Calls -/

/-- A call that extends or changes a chunk. -/
inductive ChunkCall where
  | write (byte : UInt8) (line : Nat)
  | writeOp (op : Opcode) (line : Nat)
  | addConstant (value : Value)
  | patchJump (offset distance : Nat)

namespace ChunkCall

def apply (chunk : Chunk) : ChunkCall → Chunk
  | write byte line => chunk.write byte line
  | writeOp op line => chunk.writeOp op line
  | addConstant value => (chunk.addConstant value).2
  | patchJump offset distance => chunk.patchJump offset distance

/-- The line that is written with a byte. -/
def line? : ChunkCall → Option Nat
  | write _ line | writeOp _ line => some line
  | addConstant _ | patchJump _ _ => none

end ChunkCall

namespace Chunk

/-! ## Runs -/

/-- The line table says of every byte the line that was written with it. Its runs are not empty and
add up to the code, and the line changes from each to the next. As no run is longer than the code,
32 bits are enough for its length as long as they are for that of the code. -/
structure Faithful (chunk : Chunk) (written : List Nat) : Prop where
  size_code : chunk.code.size = written.length
  lineAt : ∀ offset, offset < chunk.code.size → written[offset]? = some (chunk.lineAt offset)
  lineAt_behind : ∀ offset, chunk.code.size ≤ offset →
    chunk.lineAt offset = written.getLast?.getD 0
  positive : ∀ run ∈ chunk.lines, 0 < run.length
  sum : (chunk.lines.toList.map LineRun.length).sum = chunk.code.size
  length_le : ∀ run ∈ chunk.lines, run.length ≤ chunk.code.size
  alternate : chunk.lines.toList.IsChain fun run next => run.line ≠ next.line

/-- The runs stand for the lines of the bytes, none is empty, and two neighbours differ in their
lines. -/
structure Tabled (chunk : Chunk) (written : List Nat) : Prop where
  size_code : chunk.code.size = written.length
  lineTable : chunk.lineTable = written
  positive : ∀ run ∈ chunk.lines.toList, 0 < run.length
  alternate : chunk.lines.toList.IsChain fun run next => run.line ≠ next.line

theorem length_expandRuns (runs : List LineRun) :
    (expandRuns runs).length = (runs.map LineRun.length).sum := by
  simp [expandRuns]

theorem getLast?_expandRuns_cons {run : LineRun} (runs : List LineRun) (h : 0 < run.length) :
    (expandRuns (run :: runs)).getLast? = some ((expandRuns runs).getLast?.getD run.line) := by
  rw [expandRuns, List.flatMap_cons, List.getLast?_append, List.getLast?_replicate,
    if_neg h.ne', ← expandRuns]
  cases (expandRuns runs).getLast? <;> rfl

/-- Behind all runs the line is the last one. -/
theorem lineOfRuns_behind {runs : List LineRun} {offset : Nat} (last : Nat)
    (hpositive : ∀ run ∈ runs, 0 < run.length) (h : (expandRuns runs).length ≤ offset) :
    lineOfRuns last offset runs = (expandRuns runs).getLast?.getD last := by
  induction runs generalizing last offset with
  | nil => rfl
  | cons run runs ih =>
    obtain ⟨hrun, hruns⟩ := List.forall_mem_cons.1 hpositive
    rw [length_expandRuns, List.map_cons, List.sum_cons, ← length_expandRuns] at h
    rw [lineOfRuns, if_neg (by omega), ih run.line hruns (by omega),
      getLast?_expandRuns_cons runs hrun,
      Option.getD_some]

namespace Tabled

variable {chunk : Chunk} {written : List Nat}

theorem empty : Tabled {} [] := ⟨rfl, rfl, by simp, by simp⟩

/-- A byte either makes the last run longer or starts one with another line. -/
theorem write (h : chunk.Tabled written) (byte : UInt8) (line : Nat) :
    (chunk.write byte line).Tabled (written ++ [line]) := by
  have hsize : (chunk.write byte line).code.size = (written ++ [line]).length := by
    simp [Chunk.write, h.size_code]
  have htable : (chunk.write byte line).lineTable = written ++ [line] := by
    rw [lineTable_write, h.lineTable]
  rcases lines_write chunk byte line with ⟨runs, length, hruns, hwrite⟩ | ⟨hlast, hwrite⟩
  · obtain ⟨hpositive, -⟩ := List.forall_mem_append.1 (hruns ▸ h.positive)
    obtain ⟨halternate, -, hlast⟩ := List.isChain_append.1 (hruns ▸ h.alternate)
    refine ⟨hsize, htable, ?_, ?_⟩
    · rw [hwrite]
      exact List.forall_mem_append.2 ⟨hpositive, by simp⟩
    · rw [hwrite]
      exact List.isChain_append.2 ⟨halternate, List.isChain_singleton _, by simpa using hlast⟩
  · refine ⟨hsize, htable, ?_, ?_⟩
    · rw [hwrite]
      exact List.forall_mem_append.2 ⟨h.positive, by simp⟩
    · rw [hwrite]
      exact List.isChain_append.2 ⟨h.alternate, List.isChain_singleton _, by simpa using hlast⟩

/-- What does not change the runs keeps the table. -/
theorem of_eq {chunk' : Chunk} (h : chunk.Tabled written)
    (hsize : chunk'.code.size = chunk.code.size) (hlines : chunk'.lines = chunk.lines) :
    chunk'.Tabled written := by
  obtain ⟨hcode, htable, hpositive, halternate⟩ := h
  rw [← hlines] at hpositive halternate
  refine ⟨hsize.trans hcode, ?_, hpositive, halternate⟩
  rw [← htable, Chunk.lineTable, Chunk.lineTable, hlines]

theorem apply (h : chunk.Tabled written) (call : ChunkCall) :
    (call.apply chunk).Tabled (written ++ call.line?.toList) := by
  cases call with
  | write byte line => exact h.write byte line
  | writeOp op line => exact h.write op.toByte line
  | addConstant value =>
    have hsize : (chunk.addConstant value).2.code.size = chunk.code.size := by
      unfold addConstant
      split <;> rfl
    have hlines : (chunk.addConstant value).2.lines = chunk.lines := by
      unfold addConstant
      split <;> rfl
    rw [ChunkCall.line?, Option.toList_none, List.append_nil]
    exact h.of_eq hsize hlines
  | patchJump offset distance =>
    rw [ChunkCall.line?, Option.toList_none, List.append_nil]
    exact h.of_eq (size_patchJump chunk offset distance) rfl

theorem foldl_apply (h : chunk.Tabled written) (calls : List ChunkCall) :
    (calls.foldl ChunkCall.apply chunk).Tabled (written ++ calls.filterMap ChunkCall.line?) := by
  induction calls generalizing chunk written with
  | nil => simpa using h
  | cons call calls ih =>
    have hrest := ih (h.apply call)
    rw [List.append_assoc] at hrest
    cases hline : call.line? <;> simpa [List.filterMap_cons, hline] using hrest

theorem sum_eq (h : chunk.Tabled written) :
    (chunk.lines.toList.map LineRun.length).sum = chunk.code.size := by
  rw [← length_expandRuns, h.size_code, ← h.lineTable]
  rfl

/-- The lines at all offsets are read off the runs. -/
theorem faithful (h : chunk.Tabled written) : chunk.Faithful written := by
  refine ⟨h.size_code, fun offset hlt => ?_, fun offset hge => ?_,
    fun run hrun => h.positive run hrun.val, h.sum_eq, fun run hrun => ?_, h.alternate⟩
  · rw [h.size_code] at hlt
    have hline : chunk.lineTable[offset]? = some written[offset] := by
      rw [h.lineTable, List.getElem?_eq_getElem hlt]
    rw [List.getElem?_eq_getElem hlt, lineAt_eq hline]
  · have hend : (expandRuns chunk.lines.toList).length ≤ offset := by
      rw [length_expandRuns, h.sum_eq]
      exact hge
    rw [Chunk.lineAt, lineOfRuns_behind 0 h.positive hend, ← h.lineTable]
    rfl
  · rw [← h.sum_eq]
    exact List.le_sum_of_mem (List.mem_map_of_mem hrun.val)

end Tabled

/-- Whether a table is faithful is a matter of its runs and of how many bytes there are. -/
theorem Faithful.of_eq {chunk chunk' : Chunk} {written : List Nat} (h : chunk.Faithful written)
    (hsize : chunk'.code.size = chunk.code.size) (hlines : chunk'.lines = chunk.lines) :
    chunk'.Faithful written := by
  have hlineAt : ∀ offset, chunk'.lineAt offset = chunk.lineAt offset := by
    intro offset
    rw [Chunk.lineAt, Chunk.lineAt, hlines]
  obtain ⟨hcode, hwithin, hbehind, hpositive, hsum, hle, halternate⟩ := h
  simp only [← hsize, ← hlines, ← hlineAt] at *
  exact ⟨hcode, hwithin, hbehind, hpositive, hsum, hle, halternate⟩

/-- Landing a jump fills in its distance, or reports that it is too far. -/
theorem chunk_landJump {κ : Type} (d : Draft κ) (offset : Nat) (span : Span) :
    (∃ distance, (landJump offset span d).2.chunk = d.chunk.patchJump offset distance) ∨
      (landJump offset span d).2.chunk = d.chunk := by
  simp only [landJump, gen_bind]
  rw [gen_get]
  by_cases hnear : d.chunk.code.size - (offset + 3) ≤ maxDistance
  · rw [if_pos hnear]
    exact .inl ⟨_, rfl⟩
  · rw [if_neg hnear]
    exact .inr rfl

/-- Landing a jump leaves the line table as it is. -/
theorem faithful_landJump_iff {κ : Type} (d : Draft κ) (offset : Nat) (span : Span)
    (written : List Nat) :
    (landJump offset span d).2.chunk.Faithful written ↔ d.chunk.Faithful written := by
  rcases chunk_landJump d offset span with ⟨distance, hpatched⟩ | hsame
  · have hsize := size_patchJump d.chunk offset distance
    rw [hpatched]
    exact ⟨fun h => h.of_eq hsize.symm rfl, fun h => h.of_eq hsize rfl⟩
  · rw [hsame]

end Chunk

/-- **The line table.** Whatever calls build a chunk, the line at an offset is the one that was
written with the byte there, and behind the code it is the last one; the runs are positive, add up
to the code, and no two neighbours have the same line. Landing a jump while code is generated
changes nothing of this. -/
theorem line_table_faithful :
    (∀ calls : List ChunkCall,
      (calls.foldl ChunkCall.apply {}).Faithful (calls.filterMap ChunkCall.line?)) ∧
    ∀ (κ : Type) (d : Draft κ) (offset : Nat) (span : Span) (written : List Nat),
      (landJump offset span d).2.chunk.Faithful written ↔ d.chunk.Faithful written := by
  refine ⟨fun calls => ?_, fun _ => Chunk.faithful_landJump_iff⟩
  have htabled := Chunk.Tabled.empty.foldl_apply calls
  exact htabled.faithful

/-- Lines may go back, and then a line has several runs. -/
example : (([.writeOp .loadNull 3, .write 7 3, .writeOp .pop 1, .patchJump 0 5, .writeOp .print 3] :
    List ChunkCall).foldl ChunkCall.apply {}).lines = #[⟨3, 2⟩, ⟨1, 1⟩, ⟨3, 1⟩] := by decide

end ScriptMachine
