import ScriptMachine.Proofs.Semantics.Expressions

/-!
# The code of statements and functions follows their execution

A call that comes to the code of a statement is behind it with the locals that are
live there, or it has returned as the execution has (`StmtsAt.follows`). A block
drops its locals from the stack at its end; the store may keep them, since they are
out of scope.

So a call of a declared function follows its execution if calls from its body do,
and by induction on how deep calls may nest all calls do (`applies_applyFn`).
-/

namespace ScriptMachine

variable {κ σ α : Type} {β γ : Renaming}

/-- How a call goes on behind a statement: at `q` with the live locals `Δ`, or in its
caller. -/
inductive Flowed (env : Environment κ σ) (S : Setting κ σ) (c : Image κ) (a : Activation κ)
    (β : Renaming) (Δ : List SymbolId) (q : Nat) :
    Flow → Store κ σ → Array Frame → Memory κ σ → Prop
  | next {γ : Renaming} {m : Memory κ σ} {st : Store κ σ} (hle : β ≤ γ)
      (h : Stands env S c a γ Δ #[] m st) : Flowed env S c a β Δ q .next st (a.frames q) m
  | returned {γ : Renaming} {v w : Value} {m : Memory κ σ} {st : Store κ σ} (hle : β ≤ γ)
      (hvw : Value.Matches γ v w) (hmirrors : Mirrors env S c γ m st)
      (hstack : m.stack = a.below.pop.push v) :
      Flowed env S c a β Δ q (.returned w) st a.outer m

/-- Executes the second branch of a conditional. -/
def execElse (S : Setting κ σ) (apply : FnDecl → List Value → Eval κ σ Value) :
    Option (Block Stmt) → Eval κ σ Flow
  | some body => execBlock S apply body
  | none => pure .next

theorem execStmt_cond (S : Setting κ σ) (apply : FnDecl → List Value → Eval κ σ Value)
    (test : Expr) (thenBlock : Block Stmt) (elseBlock : Option (Block Stmt)) (s : Span) :
    execStmt S apply (.cond test thenBlock elseBlock s) =
      evalExpr S apply test >>= fun value => Eval.condition value >>= fun b =>
        if b then execBlock S apply thenBlock else execElse S apply elseBlock := by
  cases elseBlock <;> simp only [execStmt, execElse]

section Statements

variable {env : Environment κ σ} {S : Setting κ σ} {c : Image κ} {a : Activation κ}
  {apply : FnDecl → List Value → Eval κ σ Value} {d : FnDecl} {Γ Δ : List SymbolId}
  {temps pre xs : Array Value} {m : Memory κ σ} {st : Store κ σ} {p q n count : Nat} {v w : Value}
  {id : SymbolId}

theorem Flowed.mono {flow : Flow} {frames : Array Frame} (hle : β ≤ γ)
    (h : Flowed env S c a γ Δ q flow st frames m) : Flowed env S c a β Δ q flow st frames m := by
  cases h with
  | next hle' h => exact .next (le_trans hle hle') h
  | returned hle' hvw hmirrors hstack => exact .returned (le_trans hle hle') hvw hmirrors hstack

/-! ## Locals come and go -/

/-- A value that is declared to be a local is no longer a temporary one. -/
theorem Stands.declare (hfresh : id ∉ Γ) (hlocal : c.globals ≤ id) (hvw : Value.Matches β v w)
    (h : Stands env S c a β Γ (#[].push v) m st) :
    Stands env S c a β (Γ ++ [id]) #[] m (st.setLocal id w) := by
  obtain ⟨values, hstack, hlocals⟩ := h.stack
  refine ⟨h.mirrors.withLocals _, values.push v, ?_, hlocals.push hfresh hlocal hvw⟩
  rw [hstack]
  simp

theorem extract_append_extract (xs : Array Value) {i : Nat} (hi : i ≤ xs.size) :
    xs.extract 0 i ++ xs.extract i xs.size = xs := by
  rw [Array.extract_append_extract, Nat.min_eq_left (Nat.zero_le i), Nat.max_eq_right hi,
    Array.extract_size]

theorem PopManyAt.steps (ha : a.Of c) (hpops : PopManyAt a.site p n count q)
    (hm : c.heap.Evolves m.heap) (hstack : m.stack = pre ++ xs) (hsize : xs.size = count) :
    Steps (execute env) (a.frames p) m (a.frames q) { m with stack := pre } := by
  induction hpops generalizing m xs with
  | none =>
    obtain rfl := Array.eq_empty_of_size_eq_zero hsize
    rw [Array.append_empty] at hstack
    rw [← hstack]
    exact .refl
  | @many p n q count batch hpos hbatch hi hrest ih =>
    -- The values that are popped first are the last ones.
    obtain ⟨ys, zs, rfl, hzs⟩ : ∃ ys zs : Array Value, xs = ys ++ zs ∧ zs.size = batch.toNat := by
      refine ⟨_, _, (extract_append_extract xs (Nat.sub_le xs.size batch.toNat)).symm, ?_⟩
      rw [Array.size_extract]
      omega
    rw [← Array.append_assoc] at hstack
    have hshrunk := shrink_args (pre ++ ys) zs
    rw [← hstack, hzs] at hshrunk
    have hstep : execute env (a.frames p) m =
        .running (a.frames (p + 2))
          { m with stack := m.stack.shrink (m.stack.size - batch.toNat) } := by
      rw [Activation.execute_eq ha hm hi]
      rfl
    refine .head hstep (ih hm hshrunk ?_)
    rw [Array.size_append, hzs] at hsize
    unfold maxCount at *
    omega

theorem PopsAt.steps (ha : a.Of c) (hpops : PopsAt a.site p n count q)
    (hm : c.heap.Evolves m.heap) (hstack : m.stack = pre ++ xs) (hsize : xs.size = count) :
    Steps (execute env) (a.frames p) m (a.frames q) { m with stack := pre } := by
  cases hpops with
  | many _ hpops => exact hpops.steps ha hm hstack hsize
  | one hi =>
    obtain ⟨x, rfl⟩ := Array.size_eq_one_iff.1 hsize
    rw [← Array.push_eq_append] at hstack
    refine .tail .refl ?_
    rw [Activation.execute_eq ha hm hi, perform_pop hstack]
    rfl

/-- The locals of a block are dropped. -/
theorem Stands.drop (h : Stands env S c a β (Γ ++ Δ) #[] m st) :
    ∃ pre xs, m.stack = pre ++ xs ∧ xs.size = Δ.length ∧
      Stands env S c a β Γ #[] { m with stack := pre } st := by
  obtain ⟨values, hstack, hlocals⟩ := h.stack
  have hsize := hlocals.size
  rw [List.length_append] at hsize
  refine ⟨a.below ++ values.extract 0 Γ.length, values.extract Γ.length values.size, ?_, ?_,
    h.mirrors.withStack _, _, (Array.append_empty).symm, hlocals.take⟩
  · rw [hstack, Array.append_empty, Array.append_assoc, extract_append_extract values (by omega)]
  · rw [Array.size_extract]
    omega

/-! ## Returning -/

theorem setIfInBounds_last {xs : Array Value} (hxs : xs ≠ #[]) (v : Value) :
    xs.setIfInBounds (xs.size - 1) v = xs.pop.push v := by
  have hpos := Array.size_pos_iff.2 hxs
  refine Array.ext_getElem? fun i => ?_
  rw [Array.getElem?_setIfInBounds, Array.getElem?_push, Array.size_pop, Array.getElem?_pop]
  by_cases hi : i = xs.size - 1
  · rw [if_pos hi.symm, if_pos hi, if_pos (by omega)]
  · rw [if_neg (Ne.symm hi), if_neg hi]
    split
    · rfl
    · exact Array.getElem?_eq_none (by omega)

/-- The result of a call takes the place of the callee. -/
theorem Stands.ret (ha : a.Runs c d) (hi : a.site.Holds p n { opcode := .ret })
    (h : Stands env S c a β Γ (temps.push v) m st) :
    ∃ m', execute env (a.frames p) m = .running a.outer m' ∧ Mirrors env S c β m' st ∧
      m'.stack = a.below.pop.push v := by
  obtain ⟨values, hstack, -⟩ := h.stack
  rw [Array.append_push] at hstack
  have hbelow : (a.below ++ values ++ temps).shrink a.frame.base = a.below := by
    rw [ha.base, Array.append_assoc, Array.shrink_eq_take, Array.take_eq_extract,
      Array.extract_append_left, Array.extract_size]
  have hcaller : a.outer.isEmpty = false := by simpa using ha.caller
  refine ⟨{ m with stack := a.below.pop.push v }, ?_, h.mirrors.withStack _, rfl⟩
  rw [Activation.execute_eq ha.toOf h.evolves hi, perform_ret hstack]
  simp only [Activation.after, transfer, hcaller, Memory.returnTo, Activation.frameAt, hbelow,
    setIfInBounds_last ha.callee]
  rfl

theorem Stands.print (ha : a.Of c) (hi : a.site.Holds p n { opcode := .print })
    (hvw : Value.Matches β v w) (h : Stands env S c a β Γ (#[].push v) m st) :
    Follows env S c (Flowed env S c a β Γ (p + 1)) (a.frames p) m
      ((do Eval.print w; return .next : Eval κ σ Flow) st) := by
  obtain ⟨rest, hstack, hrest⟩ := h.pop
  have houtput := hrest.mirrors.withOutput (st.heap.display w ++ "\n")
  simp only [← String.append_assoc] at houtput
  refine .next ha h.evolves hi (perform_print hstack) (.pure (.next (le_refl β) ?_))
  rw [h.mirrors.heap.display hvw]
  exact hrest.withMirrors (le_refl β) houtput rfl rfl

end Statements

/-! ## Statements -/

section Functions

variable {env : Environment κ σ} {S : Setting κ σ} {c : Image κ} {a : Activation κ}
  {apply : FnDecl → List Value → Eval κ σ Value} {d : FnDecl}

mutual

/-- The code of a statement follows its execution. -/
theorem StmtAt.follows {Γ Δ : List SymbolId} {m : Memory κ σ} {st : Store κ σ} {p q : Nat}
    {s : Stmt} {β : Renaming} (ha : a.Runs c d) (hS : S.Suits env c)
    (happlies : Applies env S c apply (a.outer.size + 1)) :
    StmtAt a.site Γ p s q Δ → Stands env S c a β Γ #[] m st →
      Follows env S c (Flowed env S c a β Δ q) (a.frames p) m (execStmt S apply s st)
  | .block hbody, h => by
    rw [execStmt]
    exact hbody.follows ha hS happlies h
  | .var hid hfresh hlocal hinit, h => by
    rw [ha.globals] at hlocal
    rw [execStmt]
    refine (hinit.follows ha.toOf hS happlies h).bindPushed fun hle hvw h₁ => ?_
    rw [hid]
    exact .pure (.next hle (h₁.declare hfresh hlocal hvw))
  | .cond htest hjump hpop hthen hskip hpop' helse, h => by
    rw [execStmt_cond]
    refine (htest.follows ha.toOf hS happlies h).bindPushed fun hle hvw h₁ => ?_
    obtain ⟨rest, hstack, hrest⟩ := h₁.pop
    refine h₁.branch ha.toOf false hjump hvw ?_ ?_
    · refine .next ha.toOf h₁.evolves hpop' (perform_pop hstack) ?_
      exact (helse.follows ha hS happlies hrest).mono (Flowed.mono hle)
    · refine .next ha.toOf h₁.evolves hpop (perform_pop hstack) ?_
      refine (hthen.follows ha hS happlies hrest).extend fun hflowed => ?_
      cases hflowed with
      | next hle' h₂ =>
        obtain ⟨first, second, hi, rfl⟩ := hskip
        refine .jump ha.toOf h₂.evolves hi (perform_jump first second) ?_
        exact .reaches .refl (.next (le_trans hle hle') h₂)
      | returned hle' hvw' hmirrors hstack' =>
        exact .reaches .refl (.returned (le_trans hle hle') hvw' hmirrors hstack')
  | .ret hinit hi, h => by
    rw [execStmt]
    refine (hinit.follows ha.toOf hS happlies h).bindPushed fun hle hvw h₁ => ?_
    obtain ⟨m', hstep, hmirrors, hstack⟩ := h₁.ret ha hi
    exact .head hstep (.pure (.returned hle hvw hmirrors hstack))
  | .print hvalue hi, h => by
    rw [execStmt]
    refine (hvalue.follows ha.toOf hS happlies h).bindPushed fun hle hvw h₁ => ?_
    exact (h₁.print ha.toOf hi hvw).mono (Flowed.mono hle)
  | .expr hvalue hi, h => by
    rw [execStmt]
    refine (hvalue.follows ha.toOf hS happlies h).bindPushed fun hle hvw h₁ => ?_
    obtain ⟨rest, hstack, hrest⟩ := h₁.pop
    exact .next ha.toOf h₁.evolves hi (perform_pop hstack) (.pure (.next hle hrest))

theorem BlockAt.follows {Γ : List SymbolId} {m : Memory κ σ} {st : Store κ σ} {p q : Nat}
    {body : Block Stmt} {β : Renaming} (ha : a.Runs c d) (hS : S.Suits env c)
    (happlies : Applies env S c apply (a.outer.size + 1)) :
    BlockAt a.site Γ p body q → Stands env S c a β Γ #[] m st →
      Follows env S c (Flowed env S c a β Γ q) (a.frames p) m (execBlock S apply body st)
  | .mk hstmts hpops, h => by
    rw [execBlock]
    refine (hstmts.follows ha hS happlies h).extend fun hflowed => ?_
    cases hflowed with
    | next hle h₁ =>
      obtain ⟨pre, xs, hstack, hsize, hpre⟩ := h₁.drop
      exact .reaches (hpops.steps ha.toOf h₁.evolves hstack hsize) (.next hle hpre)
    | returned hle hvw hmirrors hstack =>
      exact .reaches .refl (.returned hle hvw hmirrors hstack)

theorem ElseAt.follows {Γ : List SymbolId} {m : Memory κ σ} {st : Store κ σ} {p q : Nat}
    {body : Option (Block Stmt)} {β : Renaming} (ha : a.Runs c d) (hS : S.Suits env c)
    (happlies : Applies env S c apply (a.outer.size + 1)) :
    ElseAt a.site Γ p body q → Stands env S c a β Γ #[] m st →
      Follows env S c (Flowed env S c a β Γ q) (a.frames p) m (execElse S apply body st)
  | .none, h => .pure (.next (le_refl β) h)
  | .some hbody, h => hbody.follows ha hS happlies h

/-- The code of statements follows their execution up to the first that returns. -/
theorem StmtsAt.follows {Γ Δ : List SymbolId} {m : Memory κ σ} {st : Store κ σ} {p q : Nat}
    {ss : List Stmt} {β : Renaming} (ha : a.Runs c d) (hS : S.Suits env c)
    (happlies : Applies env S c apply (a.outer.size + 1)) :
    StmtsAt a.site Γ p ss q Δ → Stands env S c a β Γ #[] m st →
      Follows env S c (Flowed env S c a β Δ q) (a.frames p) m (execStmts S apply ss st)
  | .nil _, h => by
    rw [execStmts]
    exact .pure (.next (le_refl β) h)
  | .cons _ hs hss, h => by
    rw [execStmts]
    refine (hs.follows ha hS happlies h).bind fun hflowed => ?_
    cases hflowed with
    | next hle h₁ => exact (hss.follows ha hS happlies h₁).mono (Flowed.mono hle)
    | returned hle hvw hmirrors hstack => exact .pure (.returned hle hvw hmirrors hstack)

end

/-! ## Functions -/

theorem lookup_zip {ids : List SymbolId} {ws : List Value} (hids : ids.Nodup) {i : Nat}
    {id : SymbolId} {w : Value} (hid : ids[i]? = some id) (hw : ws[i]? = some w) :
    (ids.zip ws).lookup id = some w := by
  induction ids generalizing ws i with
  | nil => simp at hid
  | cons id' ids ih =>
    obtain ⟨hnotin, hids⟩ := List.nodup_cons.1 hids
    cases ws with
    | nil => simp at hw
    | cons w' ws =>
      rw [List.zip_cons_cons, List.lookup_cons]
      cases i with
      | zero =>
        cases hid
        cases hw
        simp
      | succ i =>
        rw [List.getElem?_cons_succ] at hid hw
        have hne : (id == id') = false := by
          rw [beq_eq_false_iff_ne]
          rintro rfl
          exact hnotin (List.mem_of_getElem? hid)
        rw [hne]
        exact ih hids hid hw

/-- The parameters of a function have their arguments as values. -/
theorem Locals.bind {vs : Array Value} {ws : List Value} (hnodup : d.locals.Nodup)
    (hlocals : ∀ id ∈ d.locals, c.globals ≤ id) (hsize : vs.size = d.locals.length)
    (hargs : List.Forall₂ (Value.Matches β) vs.toList ws) :
    Locals c β d.locals vs (d.bind ws) := by
  refine ⟨hsize, hnodup, fun {i id v} hid hv => ?_, fun {id} hglobal => ?_⟩
  · have hlength := hargs.length_eq
    rw [Array.length_toList] at hlength
    obtain ⟨hlt, rfl⟩ := Array.getElem?_eq_some_iff.1 hv
    have hw := List.getElem?_eq_getElem (l := ws) (i := i) (by omega)
    refine ⟨_, lookup_zip hnodup hid hw, ?_⟩
    simpa using (List.forall₂_iff_get.1 hargs).2 i (by simpa using hlt) (by omega)
  · refine List.lookup_eq_none_iff.2 fun pair hpair => ?_
    have hmem := (List.of_mem_zip hpair).1
    rw [bne_iff_ne]
    rintro rfl
    exact Nat.not_lt.2 (hlocals _ hmem) hglobal

/-- The code of a function follows its execution, if calls from its body do. -/
theorem Activation.Runs.follows (ha : a.Runs c d) (hS : S.Suits env c)
    (happlies : Applies env S c apply (a.outer.size + 1)) {vs : Array Value} {ws : List Value}
    {m : Memory κ σ} {st : Store κ σ} (hmirrors : Mirrors env S c β m st)
    (hstack : m.stack = a.below ++ vs) (hsize : vs.size = d.params.length)
    (hargs : List.Forall₂ (Value.Matches β) vs.toList ws) :
    Follows env S c (Returned env S c a β st.locals) (a.frames 0) m (runFn S apply d ws st) := by
  obtain ⟨hnodup, hlocals, harity, hbody, hnull, hret⟩ := ha.code
  rw [ha.globals] at hlocals
  have hstart : Stands env S c a β d.locals #[] m { st with locals := d.bind ws } :=
    ⟨hmirrors.withLocals _, vs, by rw [hstack, Array.append_empty],
      .bind hnodup hlocals (hsize.trans harity.symm) hargs⟩
  show Follows env S c _ _ _ ((execStmts S apply d.body.stmts >>= fun flow => do
    modify fun s => { s with locals := st.locals }
    return flow.result : Eval κ σ Value) { st with locals := d.bind ws })
  refine (hbody.follows ha hS happlies hstart).bind fun hflowed => ?_
  cases hflowed with
  | returned hle hvw hm hstack' => exact .pure (.mk hle hvw (hm.withLocals _) hstack' rfl)
  | next hle h =>
    -- A body that comes to its end returns null.
    refine .placed ha.toOf h.evolves hnull perform_loadNull ?_
    obtain ⟨m', hstep, hm, hstack'⟩ := (h.push .null).ret ha hret
    exact .head hstep (.pure (.mk hle .null (hm.withLocals _) hstack' rfl))

/-- Calls that may nest as deep as there are frames left follow those of the
evaluation. -/
theorem applies_applyFn (hS : S.Suits env c) {depth size : Nat}
    (hdepth : env.config.maxFrames ≤ size + depth) : Applies env S c (applyFn S depth) size := by
  induction depth generalizing size with
  | zero =>
    intro a d β vs ws m st ha hsize hroom
    omega
  | succ depth ih =>
    intro a d β vs ws m st ha hsize hroom hmirrors hstack hcount hargs
    exact ha.follows hS (ih (by omega)) hmirrors hstack hcount hargs

end Functions

end ScriptMachine
