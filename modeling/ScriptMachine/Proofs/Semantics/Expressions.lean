import ScriptMachine.Proofs.Semantics.Calls

/-!
# The code of an expression follows its evaluation

A call that comes to the code of an expression pushes what the evaluation gives
and is behind the code then, or it ends in the fault of the evaluation
(`ExprAt.follows`). What waits on the stack meanwhile stays there, so the parts of
an expression can be followed one after the other.
-/

namespace ScriptMachine

variable {κ σ α : Type} {β γ : Renaming}

theorem UnaryOp.length_opcode (op : UnaryOp) :
    ({ opcode := op.opcode } : Instruction).length = 1 := by
  cases op <;> rfl

theorem BinaryOp.length_opcode (op : BinaryOp) :
    ({ opcode := op.opcode } : Instruction).length = 1 := by
  cases op <;> rfl

/-- The boolean on the left that decides. -/
def LogicalOp.decider : LogicalOp → Bool
  | .and => false
  | .or => true

theorem LogicalOp.decides_iff (op : LogicalOp) (b : Bool) :
    op.decides b = true ↔ b = op.decider := by
  cases op <;> cases b <;> decide

/-- The instruction that jumps over code if a condition is the given one. -/
def Opcode.jumpIf : Bool → Opcode
  | true => .jumpIfTrue
  | false => .jumpIfFalse

theorem LogicalOp.opcode_eq (op : LogicalOp) : op.opcode = .jumpIf op.decider := by
  cases op <;> rfl

theorem Eval.setElement_bind (base index value : Value) (x : Eval κ σ α) (st : Store κ σ) :
    (do setElement base index value; x : Eval κ σ α) st =
      match st.heap.withElement base index value with
      | .error fault => .error (.fault fault) st
      | .ok heap => x { st with heap } := by
  have hset : setElement base index value st = match st.heap.withElement base index value with
      | .error fault => .error (.fault fault) st
      | .ok heap => .ok () { st with heap } := by
    show EStateM.bind (ofResult (st.heap.withElement base index value)) _ st = _
    cases st.heap.withElement base index value <;> rfl
  show EStateM.bind (setElement base index value) (fun _ => x) st = _
  rw [EStateM.bind, hset]
  cases st.heap.withElement base index value <;> rfl

section Stands

variable {env : Environment κ σ} {S : Setting κ σ} {c : Image κ} {a : Activation κ}
  {Γ : List SymbolId} {temps vs : Array Value} {m : Memory κ σ} {st : Store κ σ} {p q n : Nat}
  {v w : Value} {id : SymbolId}

namespace Stands

/-! ## Variables -/

theorem load (ha : a.Of c) (hload : a.site.LoadAt Γ p n id)
    (h : Stands env S c a β Γ temps m st) :
    Follows env S c (Pushed env S c a β Γ (p + 2) temps) (a.frames p) m
      (.ok (st.lookup id) st) := by
  obtain ⟨values, hstack, hlocals⟩ := h.stack
  cases hload with
  | @global slot hi hslot hid =>
    rw [ha.globals] at hid
    obtain ⟨v, hv, hvw⟩ := h.mirrors.lookup_global hid (hlocals.global hid)
    rw [← hslot] at hv
    exact .placed ha h.evolves hi (perform_getGlobal hv) (.pure (.mk (le_refl β) hvw (h.push v)))
  | @«local» slot hi hslot =>
    obtain ⟨v, hv, hvw⟩ := hlocals.lookup hslot
    have hlt := (Array.getElem?_eq_some_iff.1 hv).1
    have hget : m.stack[(a.frameAt (p + 2)).base + slot.toNat]? = some v := by
      show m.stack[a.frame.base + slot.toNat]? = some v
      rw [hstack, ha.base, Array.getElem?_append_left (by rw [Array.size_append]; omega),
        Array.getElem?_append_right (by omega), Nat.add_sub_cancel_left, hv]
    exact .placed ha h.evolves hi (perform_getLocal hget) (.pure (.mk (le_refl β) hvw (h.push v)))

/-- The value that is stored stays on the stack. -/
theorem store (ha : a.Of c) (hstore : a.site.StoreAt Γ p n id) (hvw : Value.Matches β v w)
    (h : Stands env S c a β Γ (temps.push v) m st) :
    ∃ m', execute env (a.frames p) m = .running (a.frames (p + 2)) m' ∧
      Stands env S c a β Γ (temps.push v) m' (st.assign id w) := by
  obtain ⟨values, hstack, hlocals⟩ := h.stack
  have htop : m.stack = (a.below ++ values ++ temps).push v := by rw [hstack, Array.append_push]
  cases hstore with
  | @global slot hi hslot hid =>
    rw [ha.globals] at hid
    subst hslot
    have hroom : slot.toNat < m.globals.size := by rwa [h.mirrors.size]
    have hassign : st.assign slot.toNat w = st.setGlobal slot.toNat w := by
      rw [Store.assign, hlocals.global hid]
      rfl
    refine ⟨{ m with globals := m.globals.setIfInBounds slot.toNat v }, ?_, ?_⟩
    · rw [Activation.execute_eq ha h.evolves hi, perform_setGlobal htop hroom]
      rfl
    · rw [hassign]
      exact h.withMirrors (le_refl β) (h.mirrors.setGlobal hvw) rfl rfl
  | @«local» slot hi hslot =>
    obtain ⟨v₀, hv₀, -⟩ := hlocals.lookup hslot
    obtain ⟨w₀, hw₀, -⟩ := hlocals.value hslot hv₀
    have hlt := (Array.getElem?_eq_some_iff.1 hv₀).1
    have hassign : st.assign id w = st.setLocal id w := by
      rw [Store.assign, hw₀]
      rfl
    have hroom : (a.frameAt (p + 2)).base + slot.toNat < m.stack.size := by
      show a.frame.base + slot.toNat < _
      rw [htop, ha.base, Array.size_push, Array.size_append, Array.size_append]
      omega
    have hset : m.stack.setIfInBounds (a.frame.base + slot.toNat) v =
        a.below ++ values.setIfInBounds slot.toNat v ++ temps.push v := by
      rw [hstack, ha.base, Array.setIfInBounds_append, if_pos (by rw [Array.size_append]; omega),
        Array.setIfInBounds_append, if_neg (by omega), Nat.add_sub_cancel_left]
    refine ⟨{ m with stack := m.stack.setIfInBounds (a.frame.base + slot.toNat) v }, ?_, ?_⟩
    · rw [Activation.execute_eq ha h.evolves hi]
      exact congrArg (a.after env.config (p + 2)) (perform_setLocal htop hroom)
    · rw [hassign]
      exact ⟨(h.mirrors.withStack _).withLocals _, _, hset, hlocals.set hslot hvw⟩

/-! ## Operators and lists -/

section Operators

variable {x x' y y' : Value}

theorem unary (ha : a.Of c) (op : UnaryOp) (hi : a.site.Holds p n { opcode := op.opcode })
    (hx : Value.Matches β x x') (h : Stands env S c a β Γ (temps.push x) m st) :
    Follows env S c (Pushed env S c a β Γ (p + 1) temps) (a.frames p) m
      (Eval.ofResult (op.apply x') st) := by
  obtain ⟨rest, hstack, hrest⟩ := h.pop
  have hfollows := placedOr ha h.evolves hi (perform_unary op hstack) (op.apply_agree hx) hrest
  rwa [op.length_opcode] at hfollows

theorem binary (ha : a.Of c) (op : BinaryOp) (hi : a.site.Holds p n { opcode := op.opcode })
    (hx : Value.Matches β x x') (hy : Value.Matches β y y')
    (h : Stands env S c a β Γ ((temps.push x).push y) m st) :
    Follows env S c (Pushed env S c a β Γ (p + 1) temps) (a.frames p) m
      (Eval.ofResult (op.apply x' y') st) := by
  obtain ⟨rest, hstack, hrest⟩ := h.pop
  obtain ⟨rest', rfl, hrest'⟩ := hrest.pop
  have hfollows := placedOr ha h.evolves hi (perform_binary op hstack)
    (op.apply_agree h.mirrors.heap.biUnique hx hy) hrest'
  rwa [op.length_opcode] at hfollows

theorem getIndex (ha : a.Of c) (hi : a.site.Holds p n { opcode := .getIndex })
    (hx : Value.Matches β x x') (hy : Value.Matches β y y')
    (h : Stands env S c a β Γ ((temps.push x).push y) m st) :
    Follows env S c (Pushed env S c a β Γ (p + 1) temps) (a.frames p) m
      (Eval.element x' y' st) := by
  obtain ⟨rest, hstack, hrest⟩ := h.pop
  obtain ⟨rest', rfl, hrest'⟩ := hrest.pop
  exact placedOr ha h.evolves hi (perform_getIndex hstack) (h.mirrors.heap.element hx hy) hrest'

theorem setIndex (ha : a.Of c) (hi : a.site.Holds p n { opcode := .setIndex })
    (hx : Value.Matches β x x') (hy : Value.Matches β y y') (hvw : Value.Matches β v w)
    (h : Stands env S c a β Γ (((temps.push x).push y).push v) m st) :
    Follows env S c (Pushed env S c a β Γ (p + 1) temps) (a.frames p) m
      ((do Eval.setElement x' y' w; return w : Eval κ σ Value) st) := by
  obtain ⟨rest, hstack, hrest⟩ := h.pop
  obtain ⟨rest', rfl, hrest'⟩ := hrest.pop
  obtain ⟨rest'', rfl, hrest''⟩ := hrest'.pop
  have hagree := h.mirrors.heap.withElement hx hy hvw
  have hperform : perform env (a.frameAt (p + 1)) { opcode := .setIndex } m = _ :=
    perform_setIndex hstack
  rw [Eval.setElement_bind]
  generalize hleft : m.heap.withElement x y v = left at hagree hperform
  generalize st.heap.withElement x' y' w = right at hagree
  cases hagree with
  | error fault => exact .fault ha h.evolves hi hperform hrest''.mirrors
  | ok hheap =>
    have hmirrors := hrest''.mirrors.withHeap (le_refl β) hheap (h.evolves.withElement hleft)
      h.mirrors.host
    have hresult := (hrest''.withMirrors (le_refl β) hmirrors rfl rfl).push v
    exact .placed ha h.evolves hi hperform (.pure (.mk (le_refl β) hvw hresult))

theorem makeList (ha : a.Of c) {count : UInt8} {ws : List Value} (hcount : count.toNat = vs.size)
    (hi : a.site.Holds p n ⟨.makeList, count, 0⟩)
    (hvw : List.Forall₂ (Value.Matches β) vs.toList ws)
    (h : Stands env S c a β Γ (temps ++ vs) m st) :
    Follows env S c (Pushed env S c a β Γ (p + 2) temps) (a.frames p) m (Eval.newList ws st) := by
  obtain ⟨values, hstack, hlocals⟩ := h.stack
  rw [← Array.append_assoc] at hstack
  have hroom : count.toNat ≤ m.stack.size := by
    rw [hstack, hcount, Array.size_append]
    omega
  have hperform : perform env (a.frameAt (p + 2)) ⟨.makeList, count, 0⟩ m = _ :=
    perform_makeList hroom
  simp only [hcount, hstack, extract_args, shrink_args] at hperform
  have hrest : Stands env S c a β Γ temps { m with stack := a.below ++ values ++ temps } st :=
    ⟨h.mirrors.withStack _, values, rfl, hlocals⟩
  have hitems : Pointwise (Value.Matches β) vs ws.toArray := .of_forall₂ (by simpa using hvw)
  have hlist := h.mirrors.newList hitems
  have hle := β.le_extend (m.heap.alloc (.list vs)).1 (st.heap.alloc (.list ws.toArray)).1
  refine .placed ha h.evolves hi hperform (.pure (.mk hle (.object (.inr ⟨rfl, rfl⟩)) ?_))
  exact (hrest.withMirrors hle (hlist.withStack _) rfl rfl).push _

end Operators

/-! ## Conditions -/

/-- A conditional jump leaves the condition on the stack. -/
theorem branch (ha : a.Of c) (expected : Bool) {target : Nat}
    (hjump : a.site.Jumps p n (.jumpIf expected) target) (hvw : Value.Matches β v w)
    (h : Stands env S c a β Γ (temps.push v) m st)
    {P : α → Store κ σ → Array Frame → Memory κ σ → Prop} {k : Bool → Eval κ σ α}
    (hjumps : Follows env S c P (a.frames target) m (k expected st))
    (hnext : Follows env S c P (a.frames (p + 3)) m (k (!expected) st)) :
    Follows env S c P (a.frames p) m ((Eval.condition w >>= k) st) := by
  obtain ⟨first, second, hi, rfl⟩ := hjump
  obtain ⟨rest, hstack, -⟩ := h.pop
  have hlength : (⟨.jumpIf expected, first, second⟩ : Instruction).length = 3 := by
    cases expected <;> rfl
  have hperform : ∀ frame, perform env frame ⟨.jumpIf expected, first, second⟩ m =
      jumped expected (Chunk.wordOf first second) m v := by
    intro frame
    cases expected
    · exact perform_jumpIfFalse hstack first second
    · exact perform_jumpIfTrue hstack first second
  cases hvw with
  | bool b =>
    by_cases hb : b = expected
    · subst hb
      refine .jump ha h.evolves hi ?_ (hlength ▸ hjumps)
      rw [hperform, jumped, if_pos rfl]
    · obtain rfl : b = !expected := by cases b <;> cases expected <;> simp_all
      refine .next ha h.evolves hi ?_ (hlength ▸ hnext)
      rw [hperform, jumped, if_neg hb]
  | _ => exact .fault ha h.evolves hi (hperform _) h.mirrors

end Stands

end Stands

/-! ## Expressions -/

theorem evalExpr_call {k : Site κ} {Γ : List SymbolId} {p n q : Nat} {callee : Expr}
    (h : ExprAt k Γ p n callee q) (S : Setting κ σ)
    (apply : FnDecl → List Value → Eval κ σ Value) (args : List Expr) (s : Span) :
    evalExpr S apply (.call callee args s) =
      evalExpr S apply callee >>= fun callee =>
        evalExprs S apply args >>= fun args => Eval.callValue S apply callee args := by
  cases h <;> simp only [evalExpr]

section Expressions

variable {env : Environment κ σ} {S : Setting κ σ} {c : Image κ} {a : Activation κ}
  {apply : FnDecl → List Value → Eval κ σ Value}

mutual

/-- The code of an expression follows its evaluation. -/
theorem ExprAt.follows {Γ : List SymbolId} {temps : Array Value} {m : Memory κ σ} {st : Store κ σ}
    {p q n : Nat} {e : Expr} {β : Renaming} (ha : a.Of c) (hS : S.Suits env c)
    (happlies : Applies env S c apply (a.outer.size + 1)) :
    ExprAt a.site Γ p n e q → Stands env S c a β Γ temps m st →
      Follows env S c (Pushed env S c a β Γ q temps) (a.frames p) m (evalExpr S apply e st)
  | .null hi, h => by
    rw [evalExpr]
    exact .placed ha h.evolves hi perform_loadNull (.pure (.mk (le_refl β) .null (h.push _)))
  | .true hi, h => by
    rw [evalExpr]
    exact .placed ha h.evolves hi perform_loadTrue (.pure (.mk (le_refl β) (.bool _) (h.push _)))
  | .false hi, h => by
    rw [evalExpr]
    exact .placed ha h.evolves hi perform_loadFalse (.pure (.mk (le_refl β) (.bool _) (h.push _)))
  | .number hi hconstant, h => by
    rw [ha.chunk] at hconstant
    rw [evalExpr]
    exact .placed ha h.evolves hi (perform_constant hconstant)
      (.pure (.mk (le_refl β) (.number _) (h.push _)))
  | .name hload, h => by
    rw [evalExpr]
    exact h.load ha hload
  | @ExprAt.unary _ _ _ _ _ _ op _ _ he hi, h => by
    rw [evalExpr]
    refine (he.follows ha hS happlies h).bindPushed fun hle hx h₁ => ?_
    exact (h₁.unary ha op hi hx).mono (Pushed.mono hle)
  | @ExprAt.binary _ _ _ _ _ _ _ op _ _ _ hleft hright hi, h => by
    rw [evalExpr]
    refine (hleft.follows ha hS happlies h).bindPushed fun hle hx h₁ => ?_
    refine (hright.follows ha hS happlies h₁).bindPushed fun hle' hy h₂ => ?_
    exact (h₂.binary ha op hi (hx.mono hle') hy).mono (Pushed.mono (le_trans hle hle'))
  | @ExprAt.logical _ _ _ _ _ _ _ op _ _ _ hleft hjump hpop hright, h => by
    rw [op.opcode_eq] at hjump
    rw [evalExpr]
    refine (hleft.follows ha hS happlies h).bindPushed fun hle hvw h₁ => ?_
    refine h₁.branch ha op.decider hjump hvw ?_ ?_
    · rw [if_pos ((op.decides_iff _).2 rfl)]
      exact .pure (.mk hle hvw h₁)
    · rw [if_neg fun hdecides => Bool.not_ne_self _ ((op.decides_iff _).1 hdecides)]
      obtain ⟨rest, hstack, hrest⟩ := h₁.pop
      refine .next ha h₁.evolves hpop (perform_pop hstack) ?_
      exact (hright.follows ha hS happlies hrest).mono (Pushed.mono hle)
  | .list hitems hcount hi, h => by
    rw [evalExpr]
    refine (hitems.follows ha hS happlies h).bindPushedAll fun hle hsize hvw h₁ => ?_
    exact (h₁.makeList ha (hcount.trans hsize.symm) hi hvw).mono (Pushed.mono hle)
  | .index hbase hindex hi, h => by
    rw [evalExpr]
    refine (hbase.follows ha hS happlies h).bindPushed fun hle hx h₁ => ?_
    refine (hindex.follows ha hS happlies h₁).bindPushed fun hle' hy h₂ => ?_
    exact (h₂.getIndex ha hi (hx.mono hle') hy).mono (Pushed.mono (le_trans hle hle'))
  | .assignName hvalue hstore, h => by
    rw [evalExpr]
    refine (hvalue.follows ha hS happlies h).bindPushed fun hle hvw h₁ => ?_
    obtain ⟨m', hstep, h₂⟩ := h₁.store ha hstore hvw
    exact .head hstep (.pure (.mk hle hvw h₂))
  | .assignIndex hbase hindex hvalue hi, h => by
    rw [evalExpr]
    refine (hbase.follows ha hS happlies h).bindPushed fun hle hx h₁ => ?_
    refine (hindex.follows ha hS happlies h₁).bindPushed fun hle' hy h₂ => ?_
    refine (hvalue.follows ha hS happlies h₂).bindPushed fun hle'' hvw h₃ => ?_
    exact (h₃.setIndex ha hi (hx.mono (le_trans hle' hle'')) (hy.mono hle'') hvw).mono
      (Pushed.mono (le_trans hle (le_trans hle' hle'')))
  | .invoke hobject hargs hcount hname hi, h => by
    rw [evalExpr]
    refine (hobject.follows ha hS happlies h).bindPushed fun hle hvw h₁ => ?_
    refine (hargs.follows ha hS happlies h₁).bindPushedAll fun hle' hsize hvs h₂ => ?_
    exact (h₂.invoke ha hS (hcount.trans hsize.symm) hname hi (hvw.mono hle') hvs).mono
      (Pushed.mono (le_trans hle hle'))
  | .call hcallee hargs hcount hi, h => by
    rw [evalExpr_call hcallee]
    refine (hcallee.follows ha hS happlies h).bindPushed fun hle hvw h₁ => ?_
    refine (hargs.follows ha hS happlies h₁).bindPushedAll fun hle' hsize hvs h₂ => ?_
    exact (h₂.call ha hS happlies (hcount.trans hsize.symm) hi (hvw.mono hle') hvs).mono
      (Pushed.mono (le_trans hle hle'))

/-- Code generation has the operator of a compound assignment from a table of its own. -/
theorem Eval.assigned_eq (op : AssignOp) (old operand : Eval κ σ Value) :
    Eval.assigned op old operand = match op.binary? with
      | some binary => Eval.updated binary old operand
      | none => operand := by
  cases op <;> rfl

theorem AssignedAt.follows {Γ : List SymbolId} {temps : Array Value} {m : Memory κ σ}
    {st : Store κ σ} {p q n : Nat} {op : AssignOp} {target value : Expr} {β : Renaming}
    (ha : a.Of c) (hS : S.Suits env c) (happlies : Applies env S c apply (a.outer.size + 1)) :
    AssignedAt a.site Γ p n op target value q → Stands env S c a β Γ temps m st →
      Follows env S c (Pushed env S c a β Γ q temps) (a.frames p) m
        (Eval.assigned op (evalExpr S apply target) (evalExpr S apply value) st)
  | .plain hop hvalue, h => by
    rw [Eval.assigned_eq, hop]
    exact hvalue.follows ha hS happlies h
  | @AssignedAt.compound _ _ _ _ _ _ _ _ binary _ _ hop htarget hvalue hi, h => by
    rw [Eval.assigned_eq, hop]
    refine (htarget.follows ha hS happlies h).bindPushed fun hle hx h₁ => ?_
    refine (hvalue.follows ha hS happlies h₁).bindPushed fun hle' hy h₂ => ?_
    exact (h₂.binary ha binary hi (hx.mono hle') hy).mono (Pushed.mono (le_trans hle hle'))

theorem ExprsAt.follows {Γ : List SymbolId} {temps : Array Value} {m : Memory κ σ}
    {st : Store κ σ} {p q n : Nat} {es : List Expr} {β : Renaming} (ha : a.Of c)
    (hS : S.Suits env c) (happlies : Applies env S c apply (a.outer.size + 1)) :
    ExprsAt a.site Γ p n es q → Stands env S c a β Γ temps m st →
      Follows env S c (PushedAll env S c a β Γ q temps es.length) (a.frames p) m
        (evalExprs S apply es st)
  | .nil, h => by
    rw [evalExprs]
    exact .pure (.mk (le_refl β) rfl .nil (by rwa [Array.append_empty]))
  | .cons he hes, h => by
    rw [evalExprs]
    refine (he.follows ha hS happlies h).bindPushed fun hle hvw h₁ => ?_
    refine (hes.follows ha hS happlies h₁).bindPushedAll fun hle' hsize hvs h₂ => ?_
    rw [push_append_args] at h₂
    refine .pure (.mk (le_trans hle hle') ?_ ?_ h₂)
    · rw [size_callee_args, hsize, List.length_cons]
    · rw [Array.toList_append]
      exact .cons (hvw.mono hle') hvs

end

/-- An initialiser that is left out pushes null. -/
theorem InitAt.follows {Γ : List SymbolId} {temps : Array Value} {m : Memory κ σ} {st : Store κ σ}
    {p q n : Nat} {value : Option Expr} (ha : a.Of c) (hS : S.Suits env c)
    (happlies : Applies env S c apply (a.outer.size + 1)) (hinit : InitAt a.site Γ p n value q)
    (h : Stands env S c a β Γ temps m st) :
    Follows env S c (Pushed env S c a β Γ q temps) (a.frames p) m (evalInit S apply value st) := by
  cases hinit with
  | some he => exact he.follows ha hS happlies h
  | none hi =>
    exact .placed ha h.evolves hi perform_loadNull (.pure (.mk (le_refl β) .null (h.push _)))

end Expressions

end ScriptMachine
