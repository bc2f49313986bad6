import ScriptMachine.Proofs.Scope.Scoped

/-!
# Resolved programs are in scope

A walk of name resolution never takes back an error (`Resolves.grows`), so in a
walk without errors every part is without errors. Where a part reports nothing,
the names in what it gives are in scope (`Resolves.expr`, `Resolves.stmts`), and
the scope behind it is again sound: its globals are the first symbols, and its
live locals are different symbols behind them.
-/

namespace ScriptMachine

variable {α β : Type}

/-! ## Sound scopes -/

/-- The live locals in order of declaration. -/
def Scope.live (s : Scope) : List SymbolId := (s.locals.map (·.id)).reverse

/-- The first `globals` symbols of a scope are its globals, and the live locals
are different ones of the others. None is declared deeper inside than the innermost
block. -/
structure Scope.Sound (globals : Nat) (s : Scope) : Prop where
  globals_le : globals ≤ s.symbols.size
  kind : ∀ {id : SymbolId} {symbol}, s.symbols[id]? = some symbol →
    (symbol.kind = .global ↔ id < globals)
  global : ∀ b ∈ s.globals, b.id < globals
  live : ∀ id ∈ s.live, globals ≤ id ∧ id < s.symbols.size
  nodup : s.live.Nodup
  depth_le : ∀ b ∈ s.locals, b.depth ≤ s.depth

theorem Scope.Sound.visible {globals : Nat} {s : Scope} (hs : s.Sound globals) {name : String}
    {id : SymbolId} (h : s.lookup? name = some id) : id < globals ∨ id ∈ s.live := by
  rw [Scope.lookup?_eq] at h
  split at h
  · next b hfind =>
    cases h
    refine .inr ?_
    simp only [Scope.live, List.mem_reverse, List.mem_map]
    exact ⟨b, List.mem_of_find?_eq_some hfind, rfl⟩
  · obtain ⟨b, hfind, rfl⟩ := Option.map_eq_some_iff.1 h
    rw [Array.findRev?_eq_find?_reverse] at hfind
    exact .inl (hs.global b (by simpa using Array.mem_of_find?_eq_some hfind))

/-- A local more. -/
def Scope.withLocal (s : Scope) (name : String) (span : Span) : Scope :=
  { s with
    symbols := s.symbols.push { name, span, kind := .local }
    locals := .declare name s.symbols.size s.depth :: s.locals }

theorem Scope.live_withLocal (s : Scope) (name : String) (span : Span) :
    (s.withLocal name span).live = s.live ++ [s.symbols.size] := by
  rw [Scope.live, Scope.withLocal, List.map_cons, List.reverse_cons]
  rfl

theorem Scope.Sound.withLocal {globals : Nat} {s : Scope} (hs : s.Sound globals) (name : String)
    (span : Span) : (s.withLocal name span).Sound globals where
  globals_le := by
    have hle := hs.globals_le
    simp only [Scope.withLocal, Array.size_push]
    omega
  kind {id symbol} h := by
    simp only [Scope.withLocal, Array.getElem?_push] at h
    split at h
    · next hid =>
      cases h
      have hle := hs.globals_le
      simp [hid]
      omega
    · exact hs.kind h
  global := hs.global
  live id hid := by
    rw [Scope.live_withLocal, List.mem_append, List.mem_singleton] at hid
    simp only [Scope.withLocal, Array.size_push]
    rcases hid with hid | rfl
    · obtain ⟨hle, hlt⟩ := hs.live id hid
      exact ⟨hle, Nat.lt_succ_of_lt hlt⟩
    · exact ⟨hs.globals_le, Nat.lt_succ_self _⟩
  nodup := by
    rw [Scope.live_withLocal, List.nodup_append]
    refine ⟨hs.nodup, by simp, ?_⟩
    rintro id hid _ hnew rfl
    have hlt := (hs.live id hid).2
    rw [List.mem_singleton.1 hnew] at hlt
    exact Nat.lt_irrefl _ hlt
  depth_le := List.forall_mem_cons.2 ⟨Nat.le_refl _, hs.depth_le⟩

/-- The locals below those of the innermost block. -/
def Scope.outer (s : Scope) : List Binding := s.locals.dropWhile (·.depth = s.depth)

/-- What the scope behind a part of a function has to do with the one before: it is as
deep inside, enclosing blocks are the same, no symbol is lost, and it is as sound. -/
structure Scope.Next (globals : Nat) (s s' : Scope) : Prop where
  depth : s'.depth = s.depth
  outer : s.Sound globals → s'.outer = s.outer
  symbols_le : s.symbols.size ≤ s'.symbols.size
  sound : s.Sound globals → s'.Sound globals

namespace Scope.Next

variable {globals : Nat} {s s' s'' : Scope}

theorem refl : s.Next globals s := ⟨rfl, fun _ => rfl, Nat.le_refl _, id⟩

theorem trans (h : s.Next globals s') (h' : s'.Next globals s'') : s.Next globals s'' :=
  ⟨h'.depth.trans h.depth, fun hs => (h'.outer (h.sound hs)).trans (h.outer hs),
    Nat.le_trans h.symbols_le h'.symbols_le, fun hs => h'.sound (h.sound hs)⟩

theorem withLocal (name : String) (span : Span) : s.Next globals (s.withLocal name span) where
  depth := rfl
  outer _ := List.dropWhile_cons_of_pos (decide_eq_true rfl)
  symbols_le := by
    simp only [Scope.withLocal, Array.size_push]
    omega
  sound hs := hs.withLocal name span

end Scope.Next

/-! ## Walks that report nothing -/

theorem resolve_bind (x : Resolve α) (k : α → Resolve β) (s : Scope) :
    (x >>= k) s = k (x s).1 (x s).2 := rfl

/-- A part of name resolution takes no error back, and where it reports none,
`P` holds of the scope before it, its result and the scope behind it. -/
structure Resolves (x : Resolve α) (P : Scope → α → Scope → Prop) : Prop where
  grows : ∀ s, s.errors.size ≤ (x s).2.errors.size
  holds : ∀ s, (x s).2.errors.size = s.errors.size → P s (x s).1 (x s).2

namespace Resolves

theorem mono {x : Resolve α} {P Q : Scope → α → Scope → Prop} (h : Resolves x P)
    (hPQ : ∀ {s a s'}, P s a s' → Q s a s') : Resolves x Q :=
  ⟨h.grows, fun s hs => hPQ (h.holds s hs)⟩

theorem pure (a : α) : Resolves (Pure.pure a) fun s b s' => b = a ∧ s' = s :=
  ⟨fun _ => Nat.le_refl _, fun _ _ => ⟨rfl, rfl⟩⟩

theorem bind {x : Resolve α} {k : α → Resolve β} {P : Scope → α → Scope → Prop}
    {Q : α → Scope → β → Scope → Prop} (hx : Resolves x P) (hk : ∀ a, Resolves (k a) (Q a)) :
    Resolves (x >>= k) fun s b s' => ∃ a s₁, P s a s₁ ∧ Q a s₁ b s' where
  grows s := Nat.le_trans (hx.grows s) ((hk _).grows _)
  holds s hs := by
    rw [resolve_bind] at hs ⊢
    have hgrows := hx.grows s
    have hgrows' := (hk (x s).1).grows (x s).2
    exact ⟨_, _, hx.holds s (by omega), (hk _).holds _ (by omega)⟩

/-- What does not report changes the scope as it does. -/
theorem modifyGet {f : Scope → α × Scope} (h : ∀ s, (f s).2.errors = s.errors) :
    Resolves (modifyGet f) fun s a s' => a = (f s).1 ∧ s' = (f s).2 :=
  ⟨fun s => Nat.le_of_eq (by rw [← h s]; rfl), fun _ _ => ⟨rfl, rfl⟩⟩

theorem modify {f : Scope → Scope} (h : ∀ s, (f s).errors = s.errors) :
    Resolves (modify f) fun s _ s' => s' = f s :=
  (modifyGet (f := fun s => ((), f s)) h).mono fun h => h.2

/-- A part of the walk behind an error. -/
theorem reported {x : Resolve α} {P Q : Scope → α → Scope → Prop} (h : Resolves x P)
    {report : Scope → Scope} (hreport : ∀ s, s.errors.size < (report s).errors.size) :
    Resolves (do
      MonadStateOf.modifyGet fun s => ((), report s)
      x) Q where
  grows s := Nat.le_trans (Nat.le_of_lt (hreport s)) (h.grows (report s))
  holds s hs := by
    have hlt := hreport s
    have hle := h.grows (report s)
    have heq : (x (report s)).2.errors.size = s.errors.size := hs
    omega

/-! ### Expressions -/

theorem resolveName (globals : Nat) (name : String) (span : Span) :
    Resolves (resolveName name span) fun s id s' =>
      s' = s ∧ (s.Sound globals → ∃ i, id = some i ∧ (i < globals ∨ i ∈ s.live)) where
  grows s := by
    unfold ScriptMachine.resolveName
    cases s.lookup? name <;> simp [Scope.report]
  holds s hs := by
    unfold ScriptMachine.resolveName at hs ⊢
    cases hlookup : s.lookup? name with
    | some id => exact ⟨rfl, fun hsound => ⟨id, rfl, hsound.visible hlookup⟩⟩
    | none => simp [hlookup, Scope.report] at hs

mutual

theorem resolveExpr (globals : Nat) : ∀ e : Expr, Resolves (resolveExpr e) fun s e' s' =>
    s' = s ∧ (s.Sound globals → e'.Scoped globals s.live)
  | .null _ | .bool _ _ | .number _ _ | .string _ _ =>
    (pure _).mono fun ⟨he, hs⟩ => ⟨hs, fun _ => he ▸ trivial⟩
  | .name n _ span => by
    refine ((resolveName globals n span).bind fun _ => pure _).mono ?_
    rintro s _ _ ⟨id, _, ⟨rfl, hid⟩, rfl, rfl⟩
    exact ⟨rfl, hid⟩
  | .unary op e span => by
    refine ((resolveExpr globals e).bind fun _ => pure _).mono ?_
    rintro s _ _ ⟨e', _, ⟨rfl, he⟩, rfl, rfl⟩
    exact ⟨rfl, he⟩
  | .binary op left right span => by
    refine ((resolveExpr globals left).bind fun _ => (resolveExpr globals right).bind
      fun _ => pure _).mono ?_
    rintro s _ _ ⟨_, _, ⟨rfl, hleft⟩, _, _, ⟨rfl, hright⟩, rfl, rfl⟩
    exact ⟨rfl, fun hs => ⟨hleft hs, hright hs⟩⟩
  | .logical op left right span => by
    refine ((resolveExpr globals left).bind fun _ => (resolveExpr globals right).bind
      fun _ => pure _).mono ?_
    rintro s _ _ ⟨_, _, ⟨rfl, hleft⟩, _, _, ⟨rfl, hright⟩, rfl, rfl⟩
    exact ⟨rfl, fun hs => ⟨hleft hs, hright hs⟩⟩
  | .list items span => by
    refine ((resolveExprs globals items).bind fun _ => pure _).mono ?_
    rintro s _ _ ⟨_, _, ⟨rfl, hitems⟩, rfl, rfl⟩
    exact ⟨rfl, hitems⟩
  | .index base index span => by
    refine ((resolveExpr globals base).bind fun _ => (resolveExpr globals index).bind
      fun _ => pure _).mono ?_
    rintro s _ _ ⟨_, _, ⟨rfl, hbase⟩, _, _, ⟨rfl, hindex⟩, rfl, rfl⟩
    exact ⟨rfl, fun hs => ⟨hbase hs, hindex hs⟩⟩
  | .assign op target value span => by
    have hrest : Resolves (do
        let target ← ScriptMachine.resolveExpr target
        let value ← ScriptMachine.resolveExpr value
        return Expr.assign op target value span) fun s e' s' =>
          s' = s ∧ (s.Sound globals → e'.Scoped globals s.live) := by
      refine ((resolveExpr globals target).bind fun _ => (resolveExpr globals value).bind
        fun _ => pure _).mono ?_
      rintro s _ _ ⟨_, _, ⟨rfl, htarget⟩, _, _, ⟨rfl, hvalue⟩, rfl, rfl⟩
      exact ⟨rfl, fun hs => ⟨htarget hs, hvalue hs⟩⟩
    rw [ScriptMachine.resolveExpr]
    dsimp only
    split
    · exact reported hrest fun s => by simp [Scope.report]
    · exact hrest
  | .call callee args span => by
    refine ((resolveExpr globals callee).bind fun _ => (resolveExprs globals args).bind
      fun _ => pure _).mono ?_
    rintro s _ _ ⟨_, _, ⟨rfl, hcallee⟩, _, _, ⟨rfl, hargs⟩, rfl, rfl⟩
    exact ⟨rfl, fun hs => ⟨hcallee hs, hargs hs⟩⟩
  | .property object name span => by
    refine ((resolveExpr globals object).bind fun _ => pure _).mono ?_
    rintro s _ _ ⟨_, _, ⟨rfl, hobject⟩, rfl, rfl⟩
    exact ⟨rfl, hobject⟩

theorem resolveExprs (globals : Nat) : ∀ es : List Expr, Resolves (resolveExprs es) fun s es' s' =>
    s' = s ∧ (s.Sound globals → exprsScoped globals s.live es')
  | [] => (pure _).mono fun ⟨he, hs⟩ => ⟨hs, fun _ => he ▸ trivial⟩
  | e :: es => by
    refine ((resolveExpr globals e).bind fun _ => (resolveExprs globals es).bind
      fun _ => pure _).mono ?_
    rintro s _ _ ⟨_, _, ⟨rfl, he⟩, _, _, ⟨rfl, hes⟩, rfl, rfl⟩
    exact ⟨rfl, fun hs => ⟨he hs, hes hs⟩⟩

end

theorem resolveExpr? (globals : Nat) (value : Option Expr) :
    Resolves (resolveExpr? value) fun s value' s' =>
      s' = s ∧ (s.Sound globals → initScoped globals s.live value') := by
  cases value with
  | none => exact (pure _).mono fun ⟨he, hs⟩ => ⟨hs, fun _ => he ▸ trivial⟩
  | some e =>
    refine ((resolveExpr globals e).bind fun _ => pure _).mono ?_
    rintro s _ _ ⟨_, _, ⟨rfl, he⟩, rfl, rfl⟩
    exact ⟨rfl, he⟩

/-! ### Statements -/

/-- Declaring a local, behind a check that may report an error. -/
theorem pushLocal {check : Scope → Scope}
    (hcheck : ∀ s, s.errors.size < (check s).errors.size ∨ check s = s) (name : String)
    (span : Span) :
    Resolves (MonadState.modifyGet fun s => (check s).pushLocal name span) fun s id s' =>
      id = s.symbols.size ∧ s' = s.withLocal name span := by
  have hpush : ∀ s : Scope, s.errors.size < (s.pushLocal name span).2.errors.size ∨
      s.pushLocal name span = (s.symbols.size, s.withLocal name span) := by
    intro s
    unfold Scope.pushLocal
    dsimp only
    split
    · exact .inl (by simp [Scope.report])
    · exact .inr rfl
  have hgrows : ∀ s : Scope, s.errors.size ≤ (s.pushLocal name span).2.errors.size := by
    intro s
    rcases hpush s with h | h
    · exact Nat.le_of_lt h
    · rw [h]
      exact Nat.le_refl _
  refine ⟨fun s => ?_, fun s hs => ?_⟩
  · rcases hcheck s with h | h
    · exact Nat.le_trans (Nat.le_of_lt h) (hgrows (check s))
    · exact Nat.le_trans (Nat.le_of_eq (by rw [h])) (hgrows (check s))
  · change ((check s).pushLocal name span).2.errors.size = s.errors.size at hs
    change ((check s).pushLocal name span).1 = _ ∧ ((check s).pushLocal name span).2 = _
    have hle := hgrows (check s)
    rcases hcheck s with h | h
    · omega
    · rw [h] at hs ⊢
      rcases hpush s with hlt | heq
      · omega
      · rw [heq]
        exact ⟨rfl, rfl⟩

theorem inBlock {walk : Resolve α} {P : Scope → α → Scope → Prop} (h : Resolves walk P) :
    Resolves (inBlock walk) fun s a s' => ∃ s₁, P s.openBlock a s₁ ∧ s' = s₁.closeBlock := by
  have hopen : Resolves (_) fun s _ s' => s' = s.openBlock := modify fun _ => rfl
  have hclose : Resolves (_) fun s _ s' => s' = s.closeBlock := modify fun _ => rfl
  refine (hopen.bind fun _ => h.bind fun _ => hclose.bind fun _ => pure _).mono ?_
  rintro s _ _ ⟨_, _, rfl, _, s₁, hwalk, _, _, rfl, rfl, rfl⟩
  exact ⟨s₁, hwalk, rfl⟩

theorem declareLocal (name : String) (span : Span) :
    Resolves (MonadState.modifyGet (Scope.declareLocal · name span)) fun s id s' =>
      id = s.symbols.size ∧ s' = s.withLocal name span := by
  refine pushLocal (fun s => ?_) name span
  split
  · exact .inl (by simp [Scope.report])
  · exact .inr rfl

theorem declareParam (name : String) (span : Span) :
    Resolves (MonadState.modifyGet (Scope.declareParam · name span)) fun s id s' =>
      id = s.symbols.size ∧ s' = s.withLocal name span := by
  refine pushLocal (fun s => ?_) name span
  split
  · exact .inl (by simp [Scope.report])
  · exact .inr rfl

end Resolves

/-! ## Statements in scope -/

/-- What resolving a statement gives, behind which `s'` is the scope. -/
structure Stmt.Resolved (globals : Nat) (s : Scope) (stmt : Stmt) (s' : Scope) : Prop where
  next : s.Next globals s'
  inScope : ∀ {count}, s'.symbols.size ≤ count → s.Sound globals → stmt.Scoped globals count s.live
  live : s.Sound globals → s'.live = stmt.scope s.live

/-- What resolving statements gives. -/
structure StmtsResolved (globals : Nat) (s : Scope) (stmts : List Stmt) (s' : Scope) : Prop where
  next : s.Next globals s'
  inScope : ∀ {count}, s'.symbols.size ≤ count → s.Sound globals →
    stmtsScoped globals count s.live stmts
  live : s.Sound globals → s'.live = stmtsScope s.live stmts

/-- What resolving a block gives; the scope behind it has the same locals. -/
structure BlockResolved (globals : Nat) (s : Scope) (body : Block Stmt) (s' : Scope) : Prop where
  next : s.Next globals s'
  inScope : ∀ {count}, s'.symbols.size ≤ count → s.Sound globals →
    blockScoped globals count s.live body
  live : s.Sound globals → s'.live = s.live

theorem Scope.Sound.openBlock {globals : Nat} {s : Scope} (hs : s.Sound globals) :
    s.openBlock.Sound globals :=
  ⟨hs.globals_le, hs.kind, hs.global, hs.live, hs.nodup,
    fun b hb => Nat.le_succ_of_le (hs.depth_le b hb)⟩

/-- Nothing is declared yet in a block that has just begun. -/
theorem Scope.Sound.outer_openBlock {globals : Nat} {s : Scope} (hs : s.Sound globals) :
    s.openBlock.outer = s.locals := by
  have hdepth := hs.depth_le
  unfold Scope.outer Scope.openBlock
  cases hlocals : s.locals with
  | nil => rfl
  | cons b rest =>
    have hb := hdepth b (hlocals ▸ List.mem_cons_self)
    exact List.dropWhile_cons_of_neg (by simp only [decide_eq_true_eq]; omega)

theorem StmtsResolved.block {globals : Nat} {s s' : Scope} {stmts : List Stmt}
    (h : StmtsResolved globals s.openBlock stmts s') (span : Span) :
    BlockResolved globals s ⟨stmts, span⟩ s'.closeBlock := by
  have hdepth : s'.closeBlock.depth = s.depth := by
    rw [Scope.closeBlock, h.next.depth]
    rfl
  have hlocals : s.Sound globals → s'.closeBlock.locals = s.locals :=
    fun hs => (h.next.outer hs.openBlock).trans hs.outer_openBlock
  have hlive : s.Sound globals → s'.closeBlock.live = s.live := by
    intro hs
    rw [Scope.live, hlocals hs]
    rfl
  refine ⟨⟨hdepth, fun hs => ?_, h.next.symbols_le, fun hs => ?_⟩, fun hcount hs => ?_, hlive⟩
  · rw [Scope.outer, hlocals hs, hdepth]
    rfl
  · have hs' := h.next.sound hs.openBlock
    refine ⟨hs'.globals_le, hs'.kind, hs'.global, fun id hid => ?_, hlive hs ▸ hs.nodup, ?_⟩
    · rw [hlive hs] at hid
      obtain ⟨hle, hlt⟩ := hs.live id hid
      exact ⟨hle, Nat.lt_of_lt_of_le hlt h.next.symbols_le⟩
    · rw [hlocals hs, hdepth]
      exact hs.depth_le
  · exact h.inScope hcount hs.openBlock

namespace Resolves

mutual

theorem resolveStmt (globals : Nat) :
    ∀ s : Stmt, Resolves (resolveStmt s) fun s st s' => st.Resolved globals s s'
  | .block body => by
    refine ((resolveBlock globals body).bind fun _ => pure _).mono ?_
    rintro s _ _ ⟨_, _, hbody, rfl, rfl⟩
    exact ⟨hbody.next, hbody.inScope, hbody.live⟩
  | .var d => by
    refine ((resolveExpr? globals d.init).bind fun _ =>
      (declareLocal d.name d.nameSpan).bind fun _ => pure _).mono ?_
    rintro _ _ _ ⟨_, s, ⟨rfl, hinit⟩, _, _, ⟨rfl, rfl⟩, rfl, rfl⟩
    refine ⟨.withLocal _ _, fun hcount hs => ⟨hinit hs, s.symbols.size, rfl, hs.globals_le, ?_, ?_⟩,
      fun _ => s.live_withLocal _ _⟩
    · exact Nat.lt_of_lt_of_le (by simp [Scope.withLocal]) hcount
    · intro hmem
      exact Nat.lt_irrefl _ (hs.live _ hmem).2
  | .cond test thenBlock none span => by
    refine ((resolveExpr globals test).bind fun _ => (resolveBlock globals thenBlock).bind fun _ =>
      pure _).mono ?_
    rintro s _ _ ⟨_, _, ⟨rfl, htest⟩, _, _, hthen, rfl, rfl⟩
    exact ⟨hthen.next, fun hcount hs => ⟨htest hs, hthen.inScope hcount hs⟩, hthen.live⟩
  | .cond test thenBlock (some elseBlock) span => by
    refine ((resolveExpr globals test).bind fun _ => (resolveBlock globals thenBlock).bind fun _ =>
      (resolveBlock globals elseBlock).bind fun _ => pure _).mono ?_
    rintro s _ _ ⟨_, _, ⟨rfl, htest⟩, _, s₁, hthen, _, _, helse, rfl, rfl⟩
    refine ⟨hthen.next.trans helse.next, fun hcount hs => ?_,
      fun hs => (helse.live (hthen.next.sound hs)).trans (hthen.live hs)⟩
    have helse' := helse.inScope hcount (hthen.next.sound hs)
    rw [hthen.live hs] at helse'
    exact ⟨htest hs, hthen.inScope (Nat.le_trans helse.next.symbols_le hcount) hs, helse'⟩
  | .ret value span => by
    refine ((resolveExpr? globals value).bind fun _ => pure _).mono ?_
    rintro s _ _ ⟨_, _, ⟨rfl, hvalue⟩, rfl, rfl⟩
    exact ⟨.refl, fun _ => hvalue, fun _ => rfl⟩
  | .print value span => by
    refine ((resolveExpr globals value).bind fun _ => pure _).mono ?_
    rintro s _ _ ⟨_, _, ⟨rfl, hvalue⟩, rfl, rfl⟩
    exact ⟨.refl, fun _ => hvalue, fun _ => rfl⟩
  | .expr value span => by
    refine ((resolveExpr globals value).bind fun _ => pure _).mono ?_
    rintro s _ _ ⟨_, _, ⟨rfl, hvalue⟩, rfl, rfl⟩
    exact ⟨.refl, fun _ => hvalue, fun _ => rfl⟩

theorem resolveBlock (globals : Nat) :
    ∀ b : Block Stmt, Resolves (resolveBlock b) fun s body s' => BlockResolved globals s body s'
  | ⟨stmts, span⟩ => by
    refine ((inBlock (resolveStmts globals stmts)).bind fun _ => pure _).mono ?_
    rintro s _ _ ⟨_, _, ⟨s₁, hstmts, rfl⟩, rfl, rfl⟩
    exact hstmts.block span

theorem resolveStmts (globals : Nat) : ∀ ss : List Stmt,
    Resolves (resolveStmts ss) fun s stmts s' => StmtsResolved globals s stmts s'
  | [] => by
    refine (pure _).mono ?_
    rintro s _ _ ⟨rfl, rfl⟩
    exact ⟨.refl, fun _ _ => trivial, fun _ => rfl⟩
  | s :: ss => by
    refine ((resolveStmt globals s).bind fun _ => (resolveStmts globals ss).bind fun _ =>
      pure _).mono ?_
    rintro s _ _ ⟨_, s₁, hs, _, _, hss, rfl, rfl⟩
    refine ⟨hs.next.trans hss.next, fun hcount hsound => ?_, fun hsound => ?_⟩
    · have hss' := hss.inScope hcount (hs.next.sound hsound)
      rw [hs.live hsound] at hss'
      exact ⟨hs.inScope (Nat.le_trans hss.next.symbols_le hcount) hsound, hss'⟩
    · rw [hss.live (hs.next.sound hsound), hs.live hsound]
      rfl

end

/-! ### Functions -/

/-- Walks over the members of a list, one after the other. -/
theorem mapM {f : α → Resolve β} {P : α → Scope → β → Scope → Prop}
    {Q : Scope → List α → List β → Scope → Prop} (hf : ∀ x, Resolves (f x) (P x))
    (hnil : ∀ s, Q s [] [] s)
    (hcons : ∀ {s x y s₁ xs ys s₂}, P x s y s₁ → Q s₁ xs ys s₂ → Q s (x :: xs) (y :: ys) s₂) :
    ∀ xs : List α, Resolves (xs.mapM f) fun s ys s' => Q s xs ys s'
  | [] => by
    refine (pure _).mono ?_
    rintro _ _ s ⟨rfl, rfl⟩
    exact hnil s
  | x :: xs => by
    rw [List.mapM_cons]
    refine ((hf x).bind fun _ => (mapM hf hnil hcons xs).bind fun _ => pure _).mono ?_
    rintro s _ _ ⟨_, _, hx, _, _, hxs, rfl, rfl⟩
    exact hcons hx hxs

/-- What resolving parameters gives: each is a local more. -/
structure ParamsResolved (globals : Nat) (s : Scope) (params : List Param) (s' : Scope) : Prop where
  next : s.Next globals s'
  live : s'.live = s.live ++ params.filterMap (·.id)
  id : ∀ p ∈ params, ∃ i, p.id = some i ∧ s.symbols.size ≤ i ∧ i < s'.symbols.size

theorem resolveParam (p : Param) : Resolves (resolveParam p) fun s p' s' =>
    p' = { p with id := some s.symbols.size } ∧ s' = s.withLocal p.name p.span := by
  refine ((declareParam p.name p.span).bind fun _ => pure _).mono ?_
  rintro s _ _ ⟨_, _, ⟨rfl, rfl⟩, rfl, rfl⟩
  exact ⟨rfl, rfl⟩

theorem resolveParams (globals : Nat) (params : List Param) :
    Resolves (params.mapM ScriptMachine.resolveParam) fun s params' s' =>
      ParamsResolved globals s params' s' := by
  refine mapM (Q := fun s _ params' s' => ParamsResolved globals s params' s') resolveParam
    (fun s => ⟨.refl, by simp, by simp⟩) ?_ params
  rintro s p _ _ ps ps' s₂ ⟨rfl, rfl⟩ hps
  have hnext : s.Next globals (s.withLocal p.name p.span) := .withLocal _ _
  have hsize : (s.withLocal p.name p.span).symbols.size = s.symbols.size + 1 := by
    simp [Scope.withLocal]
  have hle := hps.next.symbols_le
  rw [hsize] at hle
  refine ⟨hnext.trans hps.next, ?_, fun q hq => ?_⟩
  · rw [hps.live, Scope.live_withLocal]
    simp
  · rcases List.mem_cons.1 hq with rfl | hq
    · exact ⟨s.symbols.size, rfl, Nat.le_refl _, hle⟩
    · obtain ⟨i, hid, hle', hlt⟩ := hps.id q hq
      exact ⟨i, hid, Nat.le_trans hnext.symbols_le hle', hlt⟩

/-- What resolving a declaration at top level gives, where no locals are
live. -/
structure DeclResolved (globals : Nat) (s : Scope) (decl decl' : Decl) (s' : Scope) : Prop where
  name : decl'.name = decl.name
  id : decl'.id = decl.id
  symbols_le : s.symbols.size ≤ s'.symbols.size
  locals : s.locals = [] → s'.locals = []
  sound : s.Sound globals → s.locals = [] → s'.Sound globals
  inScope : ∀ {count}, s'.symbols.size ≤ count → s.Sound globals → s.locals = [] →
    decl'.Scoped globals count

theorem sound_of_locals {globals : Nat} {s s' : Scope} (hs : s.Sound globals)
    (hsymbols : s'.symbols = s.symbols) (hglobals : s'.globals = s.globals)
    (hlocals : s'.locals = []) : s'.Sound globals := by
  have hlive : s'.live = [] := by
    rw [Scope.live, hlocals]
    rfl
  refine ⟨hsymbols ▸ hs.globals_le, hsymbols ▸ hs.kind, hglobals ▸ hs.global, ?_, ?_, ?_⟩
  · rw [hlive]
    intro id hid
    cases hid
  · rw [hlive]
    exact List.nodup_nil
  · rw [hlocals]
    exact nofun

theorem resolveFn (globals : Nat) (d : FnDecl) : Resolves (resolveFn d) fun s d' s' =>
    DeclResolved globals s (.fn d) (.fn d') s' := by
  have hopen : Resolves (_) fun s _ s' => s' = s.openFn :=
    modify fun _ => rfl
  have hclose : Resolves (_) fun s _ s' => s' = s.closeFn := modify fun _ => rfl
  refine (hopen.bind fun _ => (resolveParams globals d.params).bind fun _ =>
    (resolveStmts globals d.body.stmts).bind fun _ => hclose.bind fun _ => pure _).mono ?_
  rintro s _ _ ⟨_, _, rfl, params, s₁, hparams, stmts, s₂, hstmts, _, _, rfl, rfl, rfl⟩
  have hstart : s.Sound globals →
      Scope.Sound globals s.openFn :=
    fun hs => sound_of_locals hs rfl rfl rfl
  have hle : s.symbols.size ≤ s₁.symbols.size := hparams.next.symbols_le
  refine ⟨rfl, rfl, Nat.le_trans hle hstmts.next.symbols_le, fun _ => rfl, fun hs _ => ?_,
    fun hcount hs _ => ?_⟩
  · exact sound_of_locals (hstmts.next.sound (hparams.next.sound (hstart hs))) rfl rfl rfl
  · have hs₁ := hparams.next.sound (hstart hs)
    have hlive : s₁.live = params.filterMap (·.id) := hparams.live
    have hstmts' := hstmts.inScope hcount hs₁
    rw [hlive] at hstmts'
    refine ⟨fun p hp => ?_, ?_, hstmts'⟩
    · obtain ⟨i, hid, hge, hlt⟩ := hparams.id p hp
      exact ⟨i, hid, Nat.le_trans hs.globals_le hge,
        Nat.lt_of_lt_of_le hlt (Nat.le_trans hstmts.next.symbols_le hcount)⟩
    · have hnodup := hs₁.nodup
      rw [hlive] at hnodup
      exact hnodup

theorem resolveDecl (globals : Nat) (decl : Decl) : Resolves (resolveDecl decl) fun s decl' s' =>
    DeclResolved globals s decl decl' s' := by
  cases decl with
  | fn d =>
    refine ((resolveFn globals d).bind fun _ => pure _).mono ?_
    rintro s _ _ ⟨_, _, hd, rfl, rfl⟩
    exact hd
  | var d =>
    refine ((resolveExpr? globals d.init).bind fun _ => pure _).mono ?_
    rintro _ _ _ ⟨_, s, ⟨rfl, hinit⟩, rfl, rfl⟩
    refine ⟨rfl, rfl, Nat.le_refl _, fun h => h, fun hs _ => hs, fun _ hs hlocals => ?_⟩
    have hinit' := hinit hs
    rw [Scope.live, hlocals] at hinit'
    exact hinit'

end Resolves

/-! ## Programs in scope -/

/-- A scope before any function is resolved: all its symbols are globals, under
different names. -/
structure Scope.OnlyGlobals (s : Scope) : Prop where
  locals : s.locals = []
  kind : ∀ symbol ∈ s.symbols, symbol.kind = .global
  global : ∀ b ∈ s.globals, b.id < s.symbols.size
  names : (s.globals.toList.map (·.name)).Nodup

theorem Scope.OnlyGlobals.sound {s : Scope} (hs : s.OnlyGlobals) : s.Sound s.symbols.size := by
  have hlive : s.live = [] := by
    rw [Scope.live, hs.locals]
    rfl
  refine ⟨Nat.le_refl _, fun {id symbol} hsymbol => ?_, hs.global, by simp [hlive], by simp [hlive],
    by simp [hs.locals]⟩
  have hlt := (Array.getElem?_eq_some_iff.1 hsymbol).1
  exact ⟨fun _ => hlt, fun _ => hs.kind symbol (Array.mem_of_getElem? hsymbol)⟩

/-- What declaring globals does: each is the next symbol. -/
structure Scope.Declares (names : List String) (s s' : Scope) : Prop where
  only : s.OnlyGlobals → s'.OnlyGlobals
  size : s'.symbols.size = s.symbols.size + names.length
  names : s'.globals.toList.map (·.name) = s.globals.toList.map (·.name) ++ names

theorem Scope.Declares.nil (s : Scope) : s.Declares [] s :=
  ⟨fun hs => hs, rfl, (List.append_nil _).symm⟩

theorem Scope.Declares.trans {names names' : List String} {s s' s'' : Scope}
    (h : s.Declares names s') (h' : s'.Declares names' s'') :
    s.Declares (names ++ names') s'' where
  only hs := h'.only (h.only hs)
  size := by
    rw [h'.size, h.size, List.length_append]
    omega
  names := by rw [h'.names, h.names, List.append_assoc]

theorem Scope.declareGlobal_cases (s : Scope) (name : String) (span : Span) :
    s.errors.size < (s.declareGlobal name span).2.errors.size ∨
      (s.declareGlobal name span).2.errors = s.errors ∧
        (s.declareGlobal name span).1 = s.symbols.size ∧
          s.Declares [name] (s.declareGlobal name span).2 := by
  unfold Scope.declareGlobal
  dsimp only
  split
  · exact .inl (by simp [Scope.report])
  · next hfind =>
    refine .inr ⟨rfl, rfl, fun hs => ⟨hs.locals, ?_, ?_, ?_⟩, by simp, by simp⟩
    · intro symbol hsymbol
      rcases Array.mem_push.1 hsymbol with hsymbol | rfl
      · exact hs.kind symbol hsymbol
      · rfl
    · intro b hb
      simp only [Array.size_push]
      rcases Array.mem_push.1 hb with hb | rfl
      · exact Nat.lt_succ_of_lt (hs.global b hb)
      · exact Nat.lt_succ_self _
    · simp only [Array.toList_push, List.map_append, List.map_cons, List.map_nil]
      refine List.nodup_append.2 ⟨hs.names, by simp, ?_⟩
      rintro _ hother _ hname rfl
      obtain ⟨b, hb, rfl⟩ := List.mem_map.1 hother
      have hnot := Array.find?_eq_none.1 hfind b (by simpa using hb)
      simp_all

namespace Resolves

theorem declareGlobal (name : String) (span : Span) :
    Resolves (MonadState.modifyGet (Scope.declareGlobal · name span)) fun s id s' =>
      id = s.symbols.size ∧ s.Declares [name] s' where
  grows s := by
    rcases s.declareGlobal_cases name span with h | ⟨h, -⟩
    · exact Nat.le_of_lt h
    · exact Nat.le_of_eq (by rw [← h]; rfl)
  holds s hs := by
    have hs' : (s.declareGlobal name span).2.errors.size = s.errors.size := hs
    rcases s.declareGlobal_cases name span with h | ⟨-, hid, hdeclares⟩
    · omega
    · exact ⟨hid, hdeclares⟩

theorem declareHosts : ∀ names : List String,
    Resolves (MonadState.modifyGet fun s : Scope =>
      ((), names.foldl (fun s name => (s.declareGlobal name .nowhere).2) s)) fun s _ s' =>
        s.Declares names s'
  | [] => ⟨fun _ => Nat.le_refl _, fun s _ => .nil s⟩
  | name :: names => by
    refine ((declareGlobal name .nowhere).bind fun _ => declareHosts names).mono ?_
    rintro s _ _ ⟨_, _, ⟨-, hname⟩, hnames⟩
    exact hname.trans hnames

theorem declareDecl (decl : Decl) : Resolves (declareDecl decl) fun s decl' s' =>
    decl'.id = some s.symbols.size ∧ decl'.name = decl.name ∧ s.Declares [decl'.name] s' := by
  cases decl with
  | fn d =>
    refine ((declareGlobal d.name d.nameSpan).bind fun _ => pure _).mono ?_
    rintro s _ _ ⟨_, _, ⟨rfl, hdeclares⟩, rfl, rfl⟩
    exact ⟨rfl, rfl, hdeclares⟩
  | var d =>
    refine ((declareGlobal d.name d.nameSpan).bind fun _ => pure _).mono ?_
    rintro s _ _ ⟨_, _, ⟨rfl, hdeclares⟩, rfl, rfl⟩
    exact ⟨rfl, rfl, hdeclares⟩

/-- Top-level names get the next symbols, in order. -/
theorem declareDecls (decls : List Decl) :
    Resolves (decls.mapM ScriptMachine.declareDecl) fun s decls' s' =>
      decls'.map Decl.id = (List.range' s.symbols.size decls'.length).map some ∧
        s.Declares (decls'.map Decl.name) s' := by
  refine mapM (Q := fun s _ decls' s' =>
    decls'.map Decl.id = (List.range' s.symbols.size decls'.length).map some ∧
      s.Declares (decls'.map Decl.name) s') declareDecl (fun s => ⟨rfl, .nil s⟩) ?_ decls
  rintro s _ decl' s₁ _ decls' s₂ ⟨hid, -, hdeclares⟩ ⟨hids, hdeclares'⟩
  refine ⟨?_, hdeclares.trans hdeclares'⟩
  rw [List.map_cons, hid, hids, hdeclares.size]
  simp [List.range'_succ]

/-- What resolving the declarations of a program gives. -/
structure DeclsResolved (s : Scope) (decls decls' : List Decl) (s' : Scope) : Prop where
  names : decls'.map Decl.name = decls.map Decl.name
  ids : decls'.map Decl.id = decls.map Decl.id
  symbols_le : s.symbols.size ≤ s'.symbols.size
  sound : ∀ {globals}, s.Sound globals → s.locals = [] → s'.Sound globals
  inScope : ∀ {globals count}, s'.symbols.size ≤ count → s.Sound globals → s.locals = [] →
    ∀ decl ∈ decls', decl.Scoped globals count

theorem resolveDecls (decls : List Decl) :
    Resolves (decls.mapM ScriptMachine.resolveDecl) fun s decls' s' =>
      DeclsResolved s decls decls' s' := by
  have hdecl : ∀ decl, Resolves (ScriptMachine.resolveDecl decl) fun s decl' s' =>
      ∀ globals, DeclResolved globals s decl decl' s' :=
    fun decl => ⟨(resolveDecl 0 decl).grows,
      fun s hs globals => (resolveDecl globals decl).holds s hs⟩
  refine mapM (Q := DeclsResolved) hdecl
    (fun s => ⟨rfl, rfl, Nat.le_refl _, fun hs _ => hs, fun _ _ _ => by simp⟩) ?_ decls
  rintro s decl decl' s₁ decls decls' s₂ hdecl hdecls
  refine ⟨?_, ?_, Nat.le_trans (hdecl 0).symbols_le hdecls.symbols_le,
    fun {globals} hs hlocals => ?_,
    fun {globals count} hcount hs hlocals d hd => ?_⟩
  · rw [List.map_cons, List.map_cons, (hdecl 0).name, hdecls.names]
  · rw [List.map_cons, List.map_cons, (hdecl 0).id, hdecls.ids]
  · have hdecl := hdecl globals
    exact hdecls.sound (hdecl.sound hs hlocals) (hdecl.locals hlocals)
  · have hdecl := hdecl globals
    rcases List.mem_cons.1 hd with rfl | hd
    · exact hdecl.inScope (Nat.le_trans hdecls.symbols_le hcount) hs hlocals
    · exact hdecls.inScope hcount (hdecl.sound hs hlocals) (hdecl.locals hlocals) d hd

theorem resolveProgram (hostNames : List String) (program : Program) :
    Resolves (resolveProgram hostNames program) fun s program' s' =>
      s.OnlyGlobals → s.symbols = #[] → ∃ globals, s'.Sound globals ∧
        program'.Scoped hostNames.length globals s'.symbols.size := by
  refine ((declareHosts hostNames).bind fun _ => (declareDecls program.decls).bind fun decls =>
    (resolveDecls decls).bind fun _ => pure _).mono ?_
  rintro s _ s' ⟨_, s₁, hhosts, decls, s₂, ⟨hids, hdeclares⟩, decls', _, hdecls, rfl, rfl⟩ hs hempty
  have hsize : s₁.symbols.size = hostNames.length := by
    rw [hhosts.size, hempty]
    simp
  have hs₂ := hdeclares.only (hhosts.only hs)
  have hnames := hs₂.names
  rw [hdeclares.names] at hnames
  have hlength : decls'.length = decls.length := by
    simpa using congrArg List.length hdecls.names
  refine ⟨s₂.symbols.size, hdecls.sound hs₂.sound hs₂.locals, ?_, ?_, ?_, ?_⟩
  · rw [hdecls.ids, hids, hsize, hlength]
  · rw [hdeclares.size, hsize, List.length_map, hlength]
  · rw [hdecls.names]
    exact (List.nodup_append.1 hnames).2.1
  · exact hdecls.inScope (Nat.le_refl _) hs₂.sound hs₂.locals

end Resolves

/-- A program resolved without errors is in scope: its globals are the first
symbols, those of the host before its own. -/
theorem Program.resolve_scoped {hostNames : List String} {program : Program}
    (h : (program.resolve hostNames).errors = []) :
    ∃ globals, (program.resolve hostNames).program.Scoped hostNames.length globals
        (program.resolve hostNames).symbols.size ∧
      globals ≤ (program.resolve hostNames).symbols.size ∧
      ∀ {id : SymbolId} {symbol}, (program.resolve hostNames).symbols[id]? = some symbol →
        (symbol.kind = .global ↔ id < globals) := by
  have herrors : (resolveProgram hostNames program {}).2.errors.size = 0 := by
    have htoList : (resolveProgram hostNames program {}).2.errors.toList = [] := h
    rw [← Array.length_toList, htoList]
    rfl
  obtain ⟨globals, hsound, hscoped⟩ := (Resolves.resolveProgram hostNames program).holds {} herrors
    ⟨rfl, by simp, by simp, by simp⟩ rfl
  exact ⟨globals, hscoped, hsound.globals_le, hsound.kind⟩

end ScriptMachine
