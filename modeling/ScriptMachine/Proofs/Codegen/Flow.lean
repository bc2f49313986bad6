import ScriptMachine.Proofs.Codegen.Heights
import ScriptMachine.Proofs.Codegen.Spelling

/-!
# Where listings lead

Every instruction of a listing finds on the stack what it takes off it, names only
slots that are there, and leads to instructions of the same listing in front of
which the stack is as high as it leaves it, or to the end (`Flows`). That is so of
every listing of a part of a program, whatever its names stand for
(`Expr.listed_flows`, `Stmt.listed_flows`), by the rules for single instructions, for
sequences and for jumps. Functions and scripts end by returning, so nothing in them
leads to the end (`FnDecl.listed_selfContained`, `Program.listed_selfContained`).
-/

namespace ScriptMachine

variable {κ : Type} {globals : Nat} {σ : Slots}

/-! ## What instructions in symbols do -/

/-- The number that an operand stands for. -/
def Operand.amount : Operand → Nat
  | .byte n | .count n | .method _ n | .distance n => n
  | .none | .missing | .constant _ | .pending => 0

namespace Listed

/-- How many values the instruction takes off the stack. -/
def pops (l : Listed) : Nat :=
  match l.opcode with
  | .popN | .makeList => l.operand.amount
  | .call | .invoke => l.operand.amount + 1
  | op => (Instruction.mk op 0 0).pops

/-- How many values the instruction puts on the stack. -/
def pushes (l : Listed) : Nat := (Instruction.mk l.opcode 0 0).pushes

/-- How high the stack is behind the instruction. -/
def after (l : Listed) : Nat := l.height - l.pops + l.pushes

/-- Where the function goes on behind the instruction at `p`. -/
def targets (l : Listed) (p : Nat) : List Nat :=
  match l.opcode with
  | .ret => []
  | .jump => [p + (l.size + l.operand.amount)]
  | .jumpIfFalse | .jumpIfTrue => [p + l.size, p + (l.size + l.operand.amount)]
  | _ => [p + l.size]

/-- The operand is of the kind that the opcode has, and slots are there. -/
def OperandOk (globals : Nat) (l : Listed) : Prop :=
  match l.opcode, l.operand with
  | .getLocal, .byte slot | .setLocal, .byte slot => slot < l.height
  | .getGlobal, .byte slot | .setGlobal, .byte slot => slot < globals
  | .constant, .constant _ | .popN, .byte _ | .makeList, .count _ | .call, .count _
  | .invoke, .method _ _ | .jump, .distance _ | .jumpIfFalse, .distance _
  | .jumpIfTrue, .distance _ => True
  | op, .none | op, .missing => op.layout = .bare
  | _, _ => False

theorem targets_add (l : Listed) (a p : Nat) : l.targets (a + p) = (l.targets p).map (a + ·) := by
  unfold targets
  split <;> simp [Nat.add_assoc]

end Listed

/-- How high the stack is in front of the instruction at an offset, or `m` at the
end of the listing. -/
def heightAt (L : List Listed) (m p : Nat) : Option Nat :=
  if p = codeLength L then some m else (listedAt? L p).map Listed.height

theorem heightAt_end (L : List Listed) (m : Nat) : heightAt L m (codeLength L) = some m :=
  if_pos rfl

theorem le_of_heightAt {L : List Listed} {m p n : Nat} (h : heightAt L m p = some n) :
    p ≤ codeLength L := by
  unfold heightAt at h
  split at h
  · omega
  · obtain ⟨l, hl, -⟩ := Option.map_eq_some_iff.1 h
    have hlt := listedAt?_lt hl
    omega

theorem heightAt_append_right (L L' : List Listed) (m p : Nat) :
    heightAt (L ++ L') m (codeLength L + p) = heightAt L' m p := by
  have hge : ¬codeLength L + p < codeLength L := by omega
  rw [heightAt, heightAt, codeLength_append, listedAt?_append, if_neg hge, Nat.add_sub_cancel_left]
  simp only [Nat.add_left_cancel_iff]

theorem heightAt_append_left {L L' : List Listed} {m k p : Nat} (hstart : heightAt L' m 0 = some k)
    (hp : p ≤ codeLength L) : heightAt (L ++ L') m p = heightAt L k p := by
  rcases Nat.lt_or_eq_of_le hp with hlt | rfl
  · have hne : p ≠ codeLength L ∧ p ≠ codeLength L + codeLength L' := by omega
    rw [heightAt, heightAt, codeLength_append, listedAt?_append, if_pos hlt, if_neg hne.1,
      if_neg hne.2]
  · have hright := heightAt_append_right L L' m 0
    rw [Nat.add_zero] at hright
    rw [hright, hstart, heightAt_end]

/-! ## Flows -/

/-- A listing that starts on a stack of height `n` and ends on one of height `m`. -/
structure Flows (globals n : Nat) (L : List Listed) (m : Nat) : Prop where
  start : heightAt L m 0 = some n
  pops : ∀ {p l}, listedAt? L p = some l → l.pops ≤ l.height
  operand : ∀ {p l}, listedAt? L p = some l → l.OperandOk globals
  targets : ∀ {p l}, listedAt? L p = some l → ∀ q ∈ l.targets p, heightAt L m q = some l.after

namespace Flows

variable {n k m : Nat} {L L' : List Listed}

theorem nil : Flows globals n [] n := ⟨rfl, nofun, nofun, nofun⟩

theorem append (h : Flows globals n L k) (h' : Flows globals k L' m) :
    Flows globals n (L ++ L') m := by
  refine ⟨(heightAt_append_left h'.start (Nat.zero_le _)).trans h.start, fun {p l} hl => ?_,
    fun {p l} hl => ?_, fun {p l} hl q hq => ?_⟩
  all_goals rw [listedAt?_append] at hl
  · split at hl
    · exact h.pops hl
    · exact h'.pops hl
  · split at hl
    · exact h.operand hl
    · exact h'.operand hl
  · split at hl
    · have hheight := h.targets hl q hq
      rw [heightAt_append_left h'.start (le_of_heightAt hheight), hheight]
    · next hge =>
      rw [← Nat.add_sub_of_le (Nat.le_of_not_lt hge), Listed.targets_add] at hq
      obtain ⟨q', hq', rfl⟩ := List.mem_map.1 hq
      rw [heightAt_append_right, h'.targets hl q' hq']

/-- An instruction in front of a listing into which it leads. -/
theorem cons {l : Listed} (hheight : l.height = n) (h : Flows globals k L m)
    (hpops : l.pops ≤ l.height) (hoperand : l.OperandOk globals)
    (htargets : ∀ q ∈ l.targets 0, ∃ p, q = l.size + p ∧ heightAt L m p = some l.after) :
    Flows globals n (l :: L) m := by
  subst hheight
  have hright : ∀ p, heightAt (l :: L) m (l.size + p) = heightAt L m p := by
    intro p
    have hright := heightAt_append_right [l] L m p
    rwa [codeLength_cons, codeLength, List.map_nil, List.sum_nil, Nat.add_zero] at hright
  have hpos := l.size_pos
  have hlookup : ∀ {p l'}, listedAt? (l :: L) p = some l' →
      p = 0 ∧ l' = l ∨ ∃ p', p = l.size + p' ∧ listedAt? L p' = some l' := by
    intro p l' hl'
    rw [listedAt?] at hl'
    split at hl'
    · next hzero => exact .inl ⟨hzero, (Option.some.inj hl').symm⟩
    · split at hl'
      · cases hl'
      · exact .inr ⟨p - l.size, by omega, hl'⟩
  refine ⟨?_, fun hl' => ?_, fun hl' => ?_, fun {p l'} hl' q hq => ?_⟩
  · rw [heightAt, codeLength_cons, if_neg (by omega)]
    rfl
  · obtain ⟨-, rfl⟩ | ⟨p', -, hl'⟩ := hlookup hl'
    · exact hpops
    · exact h.pops hl'
  · obtain ⟨-, rfl⟩ | ⟨p', -, hl'⟩ := hlookup hl'
    · exact hoperand
    · exact h.operand hl'
  · obtain ⟨rfl, rfl⟩ | ⟨p', rfl, hinner⟩ := hlookup hl'
    · obtain ⟨p, rfl, hp⟩ := htargets q hq
      rw [hright, hp]
    · rw [Listed.targets_add] at hq
      obtain ⟨q', hq', rfl⟩ := List.mem_map.1 hq
      rw [hright, h.targets hinner q' hq']

/-- A single instruction that does not jump. -/
theorem single {l : Listed} (hheight : l.height = n) (hpops : l.pops ≤ l.height)
    (hoperand : l.OperandOk globals) (htargets : ∀ q ∈ l.targets 0, q = l.size) (hm : l.after = m) :
    Flows globals n [l] m := by
  subst hm
  exact cons hheight nil hpops hoperand fun q hq => ⟨0, htargets q hq, rfl⟩

/-- A single instruction that leads to the one behind it. -/
theorem plain {l : Listed} (hheight : l.height = n) (hpops : l.pops ≤ l.height)
    (hoperand : l.OperandOk globals) (htargets : l.targets 0 = [0 + l.size]) (hm : l.after = m) :
    Flows globals n [l] m := by
  refine single hheight hpops hoperand (fun q hq => ?_) hm
  rw [htargets, List.mem_singleton] at hq
  rw [hq, Nat.zero_add]

/-- A conditional jump over a listing that changes nothing about the height. -/
theorem skip {op : Opcode} (hop : op = .jumpIfFalse ∨ op = .jumpIfTrue) {node : Node}
    (h : Flows globals (n + 1) L (n + 1)) :
    Flows globals (n + 1) (⟨op, .distance (codeLength L), node, n + 1⟩ :: L) (n + 1) := by
  refine cons rfl h ?_ ?_ fun q hq => ?_
  · rcases hop with rfl | rfl <;> exact Nat.le_add_left _ _
  · rcases hop with rfl | rfl <;> exact trivial
  · have hafter : Listed.after ⟨op, .distance (codeLength L), node, n + 1⟩ = n + 1 := by
      rcases hop with rfl | rfl <;> rfl
    have hq' : q = Listed.size ⟨op, .distance (codeLength L), node, n + 1⟩ + 0 ∨
        q = Listed.size ⟨op, .distance (codeLength L), node, n + 1⟩ + codeLength L := by
      rcases hop with rfl | rfl <;> simpa [Listed.targets, Operand.amount] using hq
    rw [hafter]
    rcases hq' with rfl | rfl
    · exact ⟨_, rfl, h.start⟩
    · exact ⟨_, rfl, heightAt_end L _⟩

/-- A conditional jump over one listing to another, over which the first one jumps at
its end. -/
theorem fork {first second : List Listed} {node : Node} {k : Nat}
    (hfirst : Flows globals (n + 1) first k) (hsecond : Flows globals (n + 1) second k) :
    Flows globals (n + 1)
      (⟨.jumpIfFalse,
          .distance (codeLength (first ++ [⟨.jump, .distance (codeLength second), node, k⟩])), node,
          n + 1⟩ :: ((first ++ [⟨.jump, .distance (codeLength second), node, k⟩]) ++ second))
            k := by
  let jump : Listed := ⟨.jump, .distance (codeLength second), node, k⟩
  have hjump : Flows globals k (jump :: second) k := by
    refine cons rfl hsecond (Nat.zero_le _) trivial fun q hq =>
      ⟨codeLength second, ?_, heightAt_end _ _⟩
    simpa [Listed.targets, jump, Operand.amount] using hq
  have hrest := hfirst.append hjump
  rw [← List.singleton_append, ← List.append_assoc] at hrest
  refine cons rfl hrest (Nat.le_add_left _ _) trivial fun q hq => ?_
  have hq' : q = Listed.size ⟨.jumpIfFalse, .distance (codeLength (first ++ [jump])), node, n + 1⟩ ∨
      q = Listed.size ⟨.jumpIfFalse, .distance (codeLength (first ++ [jump])), node, n + 1⟩ +
        codeLength (first ++ [jump]) := by
    simpa [Listed.targets, Operand.amount] using hq
  rcases hq' with rfl | rfl
  · exact ⟨0, rfl, hrest.start⟩
  · refine ⟨_, rfl, ?_⟩
    have hright := heightAt_append_right (first ++ [jump]) second k 0
    rw [Nat.add_zero] at hright
    rw [hright, hsecond.start]
    rfl

end Flows

/-! ## Variables -/

theorem Slots.find?_ok {id : SymbolId} {kind : SymbolKind} {slot : Nat}
    (h : σ.find? id = some (kind, slot)) :
    slot < match kind with | .local => σ.height | .global => σ.globals := by
  unfold Slots.find? at h
  split at h
  · next hglobal =>
    split at h
    · cases h
      exact hglobal
    · cases h
  · split at h
    · obtain ⟨slot', hslot, heq⟩ := Option.map_eq_some_iff.1 h
      cases heq
      have hfound := (Option.filter_eq_some_iff.1 hslot).1
      exact (List.idxOf?_eq_some_iff.1 hfound).1
    · cases h

/-- A bare instruction. -/
theorem Flows.bare {op : Opcode} {node : Node} {n m : Nat} (hop : op.layout = .bare)
    (hpops : (Instruction.mk op 0 0).pops ≤ n)
    (hm : n - (Instruction.mk op 0 0).pops + (Instruction.mk op 0 0).pushes = m) :
    Flows globals n [⟨op, .none, node, n⟩] m := by
  cases op <;> first
    | exact .plain rfl hpops hop rfl hm
    | exact .single rfl hpops hop (fun q hq => absurd hq List.not_mem_nil) hm
    | cases hop

theorem Slots.load_flows (σ : Slots) (id : Option SymbolId) (node : Node) {n : Nat}
    (hn : σ.height ≤ n) :
    Flows σ.globals n (σ.load id node n) (n + 1) := by
  unfold Slots.load Slots.access
  cases hplace : id.bind σ.find? with
  | none => exact .bare rfl (Nat.zero_le _) rfl
  | some place =>
    obtain ⟨kind, slot⟩ := place
    obtain ⟨id, -, hfind⟩ := Option.bind_eq_some_iff.1 hplace
    have hslot := Slots.find?_ok hfind
    cases kind with
    | «local» =>
      have hroom : slot < n := Nat.lt_of_lt_of_le hslot hn
      exact .plain rfl (Nat.zero_le _) hroom rfl rfl
    | global => exact .plain rfl (Nat.zero_le _) hslot rfl rfl

theorem Slots.store_flows (σ : Slots) (id : Option SymbolId) (node : Node) {n : Nat}
    (hn : σ.height ≤ n) :
    Flows σ.globals (n + 1) (σ.store id node (n + 1)) (n + 1) := by
  unfold Slots.store Slots.access
  cases hplace : id.bind σ.find? with
  | none => exact .nil
  | some place =>
    obtain ⟨kind, slot⟩ := place
    obtain ⟨id, -, hfind⟩ := Option.bind_eq_some_iff.1 hplace
    have hslot := Slots.find?_ok hfind
    cases kind with
    | «local» =>
      have hroom : slot < n + 1 := Nat.lt_succ_of_lt (Nat.lt_of_lt_of_le hslot hn)
      exact .plain rfl (Nat.le_add_left _ _) hroom rfl rfl
    | global => exact .plain rfl (Nat.le_add_left _ _) hslot rfl rfl

/-! ## Expressions -/

theorem BinaryOp.flows (op : BinaryOp) (node : Node) (n : Nat) :
    Flows globals (n + 2) [⟨op.opcode, .none, node, n + 2⟩] (n + 1) := by
  cases op <;> exact .bare rfl (Nat.le_add_left _ _) rfl

theorem AssignOp.listed_flows (op : AssignOp) {old : List Listed} {new : Nat → List Listed}
    {node : Node} {n : Nat} (hold : Flows globals n old (n + 1))
    (hnew : ∀ k, n ≤ k → Flows globals k (new k) (k + 1)) :
    Flows globals n (op.listed old new node n) (n + 1) := by
  unfold AssignOp.listed
  cases op.binary? with
  | some binary => exact (hold.append (hnew (n + 1) (Nat.le_succ n))).append (binary.flows node n)
  | none => exact hnew n (Nat.le_refl n)

/-- An instruction that takes a counted number of values for one. -/
theorem Flows.counted {l : Listed} {n m : Nat} (hheight : l.height = m) (hpops : l.pops + n = m)
    (hpushes : l.pushes = 1) (hoperand : l.OperandOk globals)
    (htargets : l.targets 0 = [0 + l.size]) :
    Flows globals m [l] (n + 1) := by
  refine .plain hheight (by omega) hoperand htargets ?_
  unfold Listed.after
  omega

mutual

/-- An expression leaves one value more on the stack. -/
theorem Expr.listed_flows {σ : Slots} : ∀ (e : Expr) {n : Nat}, σ.height ≤ n →
    Flows σ.globals n (e.listed σ n) (n + 1)
  | .null s, n, _ | .bool true s, n, _ | .bool false s, n, _ => .bare rfl (Nat.zero_le _) rfl
  | .string text s, n, _ | .property object name s, n, _ => .plain rfl (Nat.zero_le _) rfl rfl rfl
  | .number x s, n, _ => .counted rfl (Nat.zero_add n) rfl trivial rfl
  | .name text id s, n, hn => σ.load_flows id _ hn
  | .unary op e s, n, hn => by
    have hop : Flows σ.globals (n + 1) [⟨op.opcode, .none, .expr (.unary op e s), n + 1⟩]
      (n + 1) := by
      cases op <;> exact .bare rfl (Nat.le_add_left _ _) rfl
    exact (e.listed_flows hn).append hop
  | .binary op left right s, n, hn =>
    ((left.listed_flows hn).append (right.listed_flows (Nat.le_succ_of_le hn))).append
      (op.flows _ n)
  | .logical op left right s, n, hn => by
    have hop : op.opcode = .jumpIfFalse ∨ op.opcode = .jumpIfTrue := by
      cases op
      · exact .inl rfl
      · exact .inr rfl
    have hpop : Flows σ.globals (n + 1) [⟨.pop, .none, .expr (.logical op left right s), n + 1⟩]
      n :=
      .bare rfl (Nat.le_add_left _ _) rfl
    exact (left.listed_flows hn).append (.skip hop (hpop.append (right.listed_flows hn)))
  | .list items s, n, hn => (exprsListed_flows items hn).append
      (.counted rfl (Nat.add_comm _ n) rfl trivial rfl)
  | .index base index s, n, hn =>
    ((base.listed_flows hn).append (index.listed_flows (Nat.le_succ_of_le hn))).append
      (.bare rfl (Nat.le_add_left _ _) rfl)
  | .assign op target value s, n, hn => by
    have hjoined : ∀ (node : Node) {n : Nat}, σ.height ≤ n →
        Flows σ.globals n (op.listed (target.listed σ n) (value.listed σ) node n) (n + 1) :=
      fun node n hn => op.listed_flows (target.listed_flows hn)
        fun k hk => value.listed_flows (Nat.le_trans hn hk)
    cases target with
    | name text id t => exact (hjoined _ hn).append (σ.store_flows id _ hn)
    | index base index t =>
      have hset : Flows σ.globals (n + 3) [⟨.setIndex, .none,
          .expr (.assign op (.index base index t) value s), n + 3⟩] (n + 1) :=
        .bare rfl (Nat.le_add_left _ _) rfl
      have hplace := (base.listed_flows hn).append (index.listed_flows (Nat.le_succ_of_le hn))
      exact (hplace.append (hjoined _ (Nat.le_add_right_of_le (k := 2) hn))).append hset
    | _ => exact hjoined _ hn
  | .call callee args s, n, hn => by
    have hargs : Flows σ.globals (n + 1) (exprsListed σ args (n + 1)) (n + 1 + args.length) :=
      exprsListed_flows args (Nat.le_succ_of_le hn)
    cases callee with
    | property object name t =>
      have hcall : Flows σ.globals (n + 1 + args.length) [⟨.invoke, .method name args.length,
          .expr (.call (.property object name t) args s), n + 1 + args.length⟩] (n + 1) :=
        .counted rfl (by simp [Listed.pops, Operand.amount]; omega) rfl trivial rfl
      exact ((object.listed_flows hn).append hargs).append hcall
    | _ =>
      refine ((Expr.listed_flows _ hn).append hargs).append ?_
      exact .counted rfl (by simp [Listed.pops, Operand.amount]; omega) rfl trivial rfl
termination_by structural e => e

theorem exprsListed_flows {σ : Slots} : ∀ (es : List Expr) {n : Nat}, σ.height ≤ n →
    Flows σ.globals n (exprsListed σ es n) (n + es.length)
  | [], _, _ => .nil
  | e :: es, n, hn => by
    have hes := exprsListed_flows es (Nat.le_succ_of_le hn)
    rw [Nat.succ_eq_add_one, Nat.add_right_comm] at hes
    exact (e.listed_flows hn).append hes
termination_by structural es => es

end

theorem initListed_flows (σ : Slots) (value : Option Expr) (node : Node) :
    Flows σ.globals σ.height (initListed σ value node) (σ.height + 1) := by
  cases value with
  | some e => exact e.listed_flows (Nat.le_refl _)
  | none => exact .bare rfl (Nat.zero_le _) rfl

/-! ## Statements -/

theorem popManyListed_flows (count : Nat) (node : Node) (n : Nat) :
    Flows globals (n + count) (popManyListed count node n) n := by
  fun_induction popManyListed count node n with
  | case1 count hpos ih =>
    have hbatch : Flows globals (n + count) [⟨.popN, .byte (min count maxCount), node, n + count⟩]
        (n + (count - maxCount)) := by
      refine .plain rfl ?_ trivial rfl ?_
      · exact Nat.le_trans (Nat.min_le_left _ _) (Nat.le_add_left _ _)
      · show n + count - min count maxCount + 0 = n + (count - maxCount)
        omega
    exact hbatch.append ih
  | case2 count hzero =>
    rw [Nat.eq_zero_of_not_pos hzero]
    exact .nil

theorem popsListed_flows (count : Nat) (node : Node) (n : Nat) :
    Flows globals (n + count) (popsListed count node n) n := by
  unfold popsListed
  split
  · next hone =>
    subst hone
    exact .bare rfl (Nat.le_add_left _ _) rfl
  · exact popManyListed_flows count node n

theorem condListed_flows {test thenCode elseCode : List Listed} {node : Node} {n : Nat}
    (htest : Flows globals n test (n + 1)) (hthen : Flows globals n thenCode n)
    (helse : Flows globals n elseCode n) :
    Flows globals n (condListed test thenCode elseCode node n) n := by
  have hpop : Flows globals (n + 1) [⟨.pop, .none, node, n + 1⟩] n :=
    .bare rfl (Nat.le_add_left _ _) rfl
  exact htest.append (.fork (hpop.append hthen) (hpop.append helse))

mutual

/-- A statement leaves the stack as high as locals are live behind it. -/
theorem Stmt.listed_flows : ∀ (s : Stmt) (σ : Slots),
    Flows σ.globals σ.height (s.listed σ) (s.slots σ).height
  | .block body, σ => blockListed_flows body σ
  | .var d, σ => by
    rw [Stmt.slots, height_declare]
    exact initListed_flows σ d.init _
  | .cond test thenBlock none s, σ =>
    condListed_flows (test.listed_flows (Nat.le_refl _)) (blockListed_flows thenBlock σ) .nil
  | .cond test thenBlock (some elseBlock) s, σ =>
    condListed_flows (test.listed_flows (Nat.le_refl _)) (blockListed_flows thenBlock σ)
      (blockListed_flows elseBlock σ)
  | .ret value s, σ => (initListed_flows σ value _).append (.bare rfl (Nat.le_add_left _ _) rfl)
  | .print value s, σ | .expr value s, σ =>
    (value.listed_flows (Nat.le_refl _)).append (.bare rfl (Nat.le_add_left _ _) rfl)
termination_by structural s => s

theorem blockListed_flows : ∀ (body : Block Stmt) (σ : Slots),
    Flows σ.globals σ.height (blockListed body σ) σ.height
  | ⟨stmts, s⟩, σ => by
    have hstmts := stmtsListed_flows stmts σ
    rw [height_stmtsSlots] at hstmts
    exact hstmts.append (popsListed_flows _ _ _)
termination_by structural body => body

theorem stmtsListed_flows : ∀ (stmts : List Stmt) (σ : Slots),
    Flows σ.globals σ.height (stmtsListed stmts σ) (stmtsSlots σ stmts).height
  | [], _ => .nil
  | s :: ss, σ => by
    have hs := s.listed_flows σ
    have hss := stmtsListed_flows ss (s.slots σ)
    have hglobals : (s.slots σ).globals = σ.globals := by cases s <;> rfl
    rw [hglobals] at hss
    exact hs.append hss
termination_by structural stmts => stmts

end

/-! ## Functions and scripts -/

theorem returnListed_flows (node : Node) (n : Nat) : Flows globals n (returnListed node n) n := by
  have hnull : Flows globals n [⟨.loadNull, .none, node, n⟩] (n + 1) :=
    .bare rfl (Nat.zero_le _) rfl
  exact hnull.append (.bare rfl (Nat.le_add_left _ _) rfl)

/-- A listing that starts on a stack of height `n` and ends by returning null, so that
it leads nowhere but to its own instructions. -/
structure SelfContained (globals n : Nat) (L : List Listed) : Prop where
  start : ∃ l, listedAt? L 0 = some l ∧ l.height = n
  pops : ∀ {p l}, listedAt? L p = some l → l.pops ≤ l.height
  operand : ∀ {p l}, listedAt? L p = some l → l.OperandOk globals
  targets : ∀ {p l}, listedAt? L p = some l → ∀ q ∈ l.targets p,
    ∃ l', listedAt? L q = some l' ∧ l'.height = l.after
  ending : ∃ front node m, L = front ++ returnListed node m

theorem Flows.selfContained {n m : Nat} {L : List Listed} (h : Flows globals n L m) (node : Node) :
    SelfContained globals n (L ++ returnListed node m) := by
  have hall := h.append (returnListed_flows node m)
  have hinside : ∀ {q k}, heightAt (L ++ returnListed node m) m q = some k →
      q < codeLength (L ++ returnListed node m) →
        ∃ l, listedAt? (L ++ returnListed node m) q = some l ∧ l.height = k := by
    intro q k hk hlt
    rw [heightAt, if_neg (Nat.ne_of_lt hlt)] at hk
    exact Option.map_eq_some_iff.1 hk
  have hend : codeLength (L ++ returnListed node m) = codeLength L + 2 := codeLength_append ..
  refine ⟨hinside hall.start (by omega), hall.pops, hall.operand, fun {p l} hl q hq => ?_,
    L, node, m, rfl⟩
  refine hinside (hall.targets hl q hq) ?_
  rw [hend]
  rw [listedAt?_append] at hl
  split at hl
  · have hle := le_of_heightAt (h.targets hl q hq)
    omega
  · next hge =>
    -- Only the first instruction of the return leads on, to the second.
    have hlt := listedAt?_lt hl
    have hreturn : ∀ p', listedAt? (returnListed node m) p' = some l →
        p' = 0 ∧ l = ⟨.loadNull, .none, node, m⟩ ∨ l = ⟨.ret, .none, node, m + 1⟩ := by
      intro p' hl'
      have hcases : p' = 0 ∨ p' = 1 := by
        have hle := listedAt?_lt hl'
        have hlength : codeLength (returnListed node m) = 2 := rfl
        have hpos := l.size_pos
        omega
      rcases hcases with rfl | rfl
      · exact .inl ⟨rfl, (Option.some.inj hl').symm⟩
      · exact .inr (Option.some.inj hl').symm
    rcases hreturn _ hl with ⟨hzero, rfl⟩ | rfl
    · have hq' : q = p + 1 := List.mem_singleton.1 hq
      omega
    · cases hq

/-- A function starts on a stack that holds its arguments. -/
theorem FnDecl.listed_selfContained (globals count : Nat) (d : FnDecl) :
    SelfContained globals d.params.length (d.listed globals count) := by
  have hstmts := stmtsListed_flows d.body.stmts (d.slots globals count)
  have harity : (d.slots globals count).height = d.params.length := List.length_map ..
  rw [harity] at hstmts
  exact hstmts.selfContained _

theorem Flows.flatMap {α : Type} {n : Nat} {L : α → List Listed} {xs : List α}
    (h : ∀ x ∈ xs, Flows globals n (L x) n) : Flows globals n (xs.flatMap L) n := by
  induction xs with
  | nil => exact .nil
  | cons x xs ih =>
    exact (h x List.mem_cons_self).append (ih fun y hy => h y (List.mem_cons_of_mem x hy))

/-- A script starts on an empty stack. -/
theorem Program.listed_selfContained (globals count : Nat) (program : Program)
    (fns : List (FnDecl × Handle)) :
    SelfContained globals 0 (program.listed globals count fns) := by
  let σ : Slots := ⟨globals, count, []⟩
  have hpop : ∀ node : Node, Flows globals 1 [⟨.pop, .none, node, 1⟩] 0 :=
    fun node => .bare rfl (Nat.le_refl 1) rfl
  have hstores : ∀ fn ∈ fns, Flows globals 0 (fnStoreListed σ fn) 0 := by
    intro fn _
    have hconstant : Flows globals 0 [⟨.constant, .constant (.object fn.2), .decl (.fn fn.1), 0⟩]
      1 :=
      .plain rfl (Nat.zero_le _) trivial rfl rfl
    exact (hconstant.append (σ.store_flows fn.1.id _ (Nat.zero_le _))).append (hpop _)
  have hinits : ∀ decl ∈ program.decls, Flows globals 0 (varInitListed σ decl) 0 := by
    intro decl _
    cases decl with
    | fn d => exact .nil
    | var d =>
      have hvalue : Flows globals 0 (initListed σ d.init (.decl (.var d))) 1 :=
        initListed_flows σ _ _
      exact (hvalue.append (σ.store_flows d.id _ (Nat.zero_le _))).append (hpop _)
  have hmain : Flows globals 0 (mainListed σ program) 0 := by
    unfold mainListed
    split
    · next id _ =>
      have hcall : Flows globals 1 [⟨.call, .count 0, .scriptEnd program, 1⟩] 1 :=
        .counted rfl rfl rfl trivial rfl
      exact Flows.append (σ.load_flows (some id) _ (Nat.zero_le _)) (hcall.append (hpop _))
    · exact .nil
  exact (((Flows.flatMap hstores).append (.flatMap hinits)).append hmain).selfContained _

end ScriptMachine
