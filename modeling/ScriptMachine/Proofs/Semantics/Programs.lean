import ScriptMachine.Proofs.Semantics.Statements

/-!
# The script of a program follows its evaluation

The script stores the functions of the program into their globals, initialises its
variables and calls `main`, as the evaluation of the program does
(`ScriptAt.concludes`). A function that is stored has its code from the compiler; the
evaluation makes a function without code in its place, and from then on the two stand
for each other (`Mirrors.adopt`).
-/

namespace ScriptMachine

variable {κ σ : Type} {β γ : Renaming}

/-! ## Functions that are stored -/

/-- A new object on the right stands for one on the left that stood for nothing. -/
theorem Heap.Matches.adopt {φ : FunctionMatch} [φ.Lawful] {left right : Heap κ} {a : Handle}
    {x y : Object κ} (h : Heap.Matches φ β left right) (hx : left.get a = .ok x)
    (hfree : ∀ b, ¬β a b) (hxy : Object.Matches φ β x y) :
    Heap.Matches φ (β.extend a (right.alloc y).1) left (right.alloc y).2 := by
  have hle := β.le_extend a (right.alloc y).1
  have hfresh : ∀ {p q}, β p q → q ≠ (right.alloc y).1 := by
    rintro p _ hpq rfl
    obtain ⟨_, w, _, hw, -⟩ := h.objects hpq
    obtain ⟨_, hw⟩ := get_eq_ok.1 hw
    rw [entry?_alloc_fresh h.right_wf] at hw
    cases hw
  refine ⟨h.left_wf, h.right_wf.alloc y, ⟨?_, ?_⟩, ?_⟩
  · rintro p p' q (hpq | ⟨rfl, rfl⟩) (hpq' | ⟨rfl, hq⟩)
    · exact h.biUnique.1 hpq hpq'
    · exact absurd hq (hfresh hpq)
    · exact absurd rfl (hfresh hpq')
    · rfl
  · rintro p q q' (hpq | ⟨rfl, rfl⟩) (hpq' | ⟨hp, rfl⟩)
    · exact h.biUnique.2 hpq hpq'
    · exact absurd (hp ▸ hpq) (hfree q)
    · exact absurd hpq' (hfree q')
    · rfl
  · rintro p q (hpq | ⟨rfl, rfl⟩)
    · obtain ⟨u, w, hu, hw, huw⟩ := h.objects hpq
      exact ⟨u, w, hu, get_alloc_of_get h.right_wf y hw, huw.mono hle⟩
    · exact ⟨x, y, hx, get_alloc_self h.right_wf y, hxy.mono hle⟩

/-- A declared function is on the heap of the image, with its code. -/
def Image.Places (c : Image κ) (d : FnDecl) (handle : Handle) : Prop :=
  ∃ chunk height, c.heap.get handle = .ok (.function ⟨d.name, d.params.length, chunk⟩) ∧
    FnAt (c.site chunk height) d

section Script

variable {env : Environment κ σ} {S : Setting κ σ} {c : Image κ} {a : Activation κ}
  {apply : FnDecl → List Value → Eval κ σ Value} {m : Memory κ σ} {st : Store κ σ} {p q n : Nat}

/-- The evaluation makes a function without code for one that the image has. -/
theorem Mirrors.adopt (h : Mirrors env S c β m st) {d : FnDecl} {handle : Handle}
    (hd : d ∈ c.program.fns) (hplaced : c.Places d handle) (hfree : ∀ b, ¬β handle b) :
    let made := st.heap.alloc (.function ⟨d.name, d.params.length, {}⟩)
    Mirrors env S c (β.extend handle made.1) m { st with heap := made.2 } := by
  obtain ⟨chunk, height, hget, hcode⟩ := hplaced
  have hle := β.le_extend handle (st.heap.alloc (.function ⟨d.name, d.params.length, {}⟩)).1
  have hheld := h.evolves.get hget (by simp [Object.kind])
  have hheap := h.heap.adopt hheld hfree (y := .function ⟨d.name, d.params.length, {}⟩)
    (.function ⟨d, hd, rfl, rfl, rfl, height, hcode⟩)
  exact h.withHeap hle hheap h.evolves h.host

/-! ## The parts of a script -/

/-- The script has come to `q`, between two of its parts. -/
inductive Settled (env : Environment κ σ) (S : Setting κ σ) (c : Image κ) (a : Activation κ)
    (q : Nat) : PUnit → Store κ σ → Array Frame → Memory κ σ → Prop
  | mk {γ : Renaming} {m : Memory κ σ} {st : Store κ σ} (h : Stands env S c a γ [] #[] m st) :
      Settled env S c a q () st (a.frames q) m

/-- A value is stored into a global and dropped from the stack. -/
theorem Stands.storeGlobal {id : SymbolId} {v w : Value} (ha : a.Of c)
    (hstore : a.site.StoreAt [] p n id) (hpop : a.site.Holds (p + 2) n { opcode := .pop })
    (hvw : Value.Matches β v w) (h : Stands env S c a β [] (#[].push v) m st) :
    ∃ m', Steps (execute env) (a.frames p) m (a.frames (p + 3)) m' ∧
      Stands env S c a β [] #[] m' (st.assign id w) := by
  obtain ⟨m₁, hstep, h₁⟩ := h.store ha hstore hvw
  obtain ⟨rest, hstack, hrest⟩ := h₁.pop
  refine ⟨_, .tail (.tail .refl hstep) ?_, hrest⟩
  rw [Activation.execute_eq ha h₁.evolves hpop, perform_pop hstack]
  rfl

/-- All functions are stored. Their handles are different, so none of them stands for
anything before it is stored. -/
theorem FnStoresAt.follows {fns : List (FnDecl × Handle)} (ha : a.Of c)
    (hstores : FnStoresAt a.site p fns q)
    (hplaced : ∀ fn ∈ fns, fn.1 ∈ c.program.fns ∧ c.Places fn.1 fn.2)
    (hnodup : (fns.map Prod.snd).Nodup) (hfree : ∀ fn ∈ fns, ∀ b, ¬β fn.2 b)
    (h : Stands env S c a β [] #[] m st) :
    Follows env S c (Settled env S c a q) (a.frames p) m ((fns.map Prod.fst).forM storeFn st) := by
  induction hstores generalizing β m st with
  | nil _ => exact .pure (.mk h)
  | @cons p q d handle fns id index hid hi hconstant hstore hpop _ ih =>
    rw [ha.chunk] at hconstant
    obtain ⟨hd, hplace⟩ := hplaced (d, handle) List.mem_cons_self
    obtain ⟨hnotin, hnodup⟩ := List.nodup_cons.1 hnodup
    let made := st.heap.alloc (.function ⟨d.name, d.params.length, {}⟩)
    have hadopt := h.mirrors.adopt hd hplace (hfree (d, handle) List.mem_cons_self)
    have hmade := (h.withMirrors (β.le_extend handle made.1) hadopt rfl rfl).push (.object handle)
    have hstored : storeFn d st =
        .ok ⟨⟩ (({ st with heap := made.2 } : Store κ σ).assign id (.object made.1)) := by
      rw [storeFn, hid]
      rfl
    refine .placed ha h.evolves hi (perform_constant hconstant) ?_
    obtain ⟨m', hsteps, h'⟩ := hmade.storeGlobal ha hstore hpop (.object (.inr ⟨rfl, rfl⟩))
    show Follows env S c _ _ _ ((storeFn d >>= fun _ => (fns.map Prod.fst).forM storeFn) st)
    refine .bind (P := fun _ st₁ frames₁ m₁ =>
      frames₁ = a.frames (p + 5) ∧ Stands env S c a (β.extend handle made.1) [] #[] m₁ st₁) ?_ ?_
    · rw [hstored]
      exact .reaches hsteps ⟨rfl, h'⟩
    · rintro _ st₁ _ m₁ ⟨rfl, h₁⟩
      have hrest : ∀ fn ∈ fns, fn ∈ (d, handle) :: fns := fun _ => List.mem_cons_of_mem _
      refine ih (fun fn hfn => hplaced fn (hrest fn hfn)) hnodup (fun fn hfn b => ?_) h₁
      rintro (hb | ⟨rfl, -⟩)
      · exact hfree fn (hrest fn hfn) b hb
      · exact hnotin (List.mem_map.2 ⟨fn, hfn, rfl⟩)

/-- Global variables are initialised in order. -/
theorem VarInitsAt.follows {decls : List Decl} (ha : a.Of c) (hS : S.Suits env c)
    (happlies : Applies env S c apply (a.outer.size + 1)) (hinits : VarInitsAt a.site p decls q)
    (h : Stands env S c a β [] #[] m st) :
    Follows env S c (Settled env S c a q) (a.frames p) m (decls.forM (initVar S apply) st) := by
  induction hinits generalizing β m st with
  | nil _ => exact .pure (.mk h)
  | fn _ ih => exact ih h
  | @var p q r d decls id hid hinit hstore hpop _ ih =>
    have hvar : initVar S apply (.var d) = evalInit S apply d.init >>= fun value =>
        (modify (·.assign id value) : Eval κ σ PUnit) := by
      rw [initVar, hid]
    show Follows env S c _ _ _ ((initVar S apply (.var d) >>= fun _ =>
      decls.forM (initVar S apply)) st)
    rw [hvar, bind_assoc]
    refine (hinit.follows ha hS happlies h).bindPushed fun _ hvw h₁ => ?_
    obtain ⟨m', hsteps, h₂⟩ := h₁.storeGlobal ha hstore hpop hvw
    exact .steps hsteps (ih h₂)

/-- Where all functions have numbers, the one that is called is the first with the name `main`. -/
theorem Program.main?_eq {program : Program} (hids : ∀ d ∈ program.fns, d.id.isSome) :
    program.main? = (program.fns.find? (·.name = "main")).bind (·.id) := by
  obtain ⟨decls⟩ := program
  unfold Program.main? Program.fns at *
  induction decls with
  | nil => rfl
  | cons decl decls ih =>
    cases decl with
    | var d => exact ih hids
    | fn d =>
      obtain ⟨hd, hids⟩ := List.forall_mem_cons.1 hids
      obtain ⟨id, hid⟩ := Option.isSome_iff_exists.1 hd
      have hfns : (Decl.fn d :: decls).filterMap Decl.fn? = d :: decls.filterMap Decl.fn? := rfl
      rw [hfns, List.findSome?_cons, List.find?_cons]
      by_cases hname : d.name = "main"
      · simp only [hname, if_true, decide_true, hid, Option.bind_some]
      · simp only [hname, if_false, decide_false]
        exact ih hids

theorem callMain_eq (hS : S.Suits env c) (hids : ∀ d ∈ c.program.fns, d.id.isSome) :
    callMain S apply = match c.program.main? with
      | some id => do
        let _ ← Eval.callValue S apply ((← get).lookup id) []
      | none => pure () := by
  rw [callMain, hS.fns_eq, Program.main?_eq hids]
  cases hmain : c.program.fns.find? (·.name = "main") with
  | none => rfl
  | some d =>
    obtain ⟨id, hid⟩ := Option.isSome_iff_exists.1 (hids d (List.mem_of_find?_eq_some hmain))
    simp only [Option.bind_some, hid]

theorem MainAt.follows (ha : a.Of c) (hS : S.Suits env c)
    (happlies : Applies env S c apply (a.outer.size + 1))
    (hids : ∀ d ∈ c.program.fns, d.id.isSome) (hmain : MainAt a.site p c.program.main? q)
    (h : Stands env S c a β [] #[] m st) :
    Follows env S c (Settled env S c a q) (a.frames p) m (callMain S apply st) := by
  rw [callMain_eq hS hids]
  generalize c.program.main? = main? at hmain
  cases hmain with
  | none => exact .pure (.mk h)
  | @some id hload hcall hpop =>
    show Follows env S c _ _ _ ((do
      let callee ← (do return (← get).lookup id : Eval κ σ Value)
      let _ ← Eval.callValue S apply callee []
      return ⟨⟩ : Eval κ σ PUnit) st)
    refine Follows.bindPushed (h.load ha hload) fun {γ v w m₁ st₁} _ hvw h₁ => ?_
    have hcallee : Stands env S c a γ [] (#[].push v ++ #[]) m₁ st₁ := by rwa [Array.append_empty]
    refine (hcallee.call ha hS happlies rfl hcall hvw .nil).bindPushed fun _ _ h₂ => ?_
    obtain ⟨rest, hstack, hrest⟩ := h₂.pop
    exact .next ha h₂.evolves hpop (perform_pop hstack) (.pure (.mk hrest))

/-! ## Scripts -/

/-- The machine that runs a script does what the evaluation of the program did: it
finishes behind a result and ends in a fault. It may also overflow. -/
inductive Concludes (env : Environment κ σ) (S : Setting κ σ) (c : Image κ) (frames : Array Frame)
    (m : Memory κ σ) : EStateM.Result Stop (Store κ σ) PUnit → Prop
  | finishes {β : Renaming} {st : Store κ σ} {m' : Memory κ σ}
      (hends : Ends (execute env) frames m (.finished m')) (h : Mirrors env S c β m' st) :
      Concludes env S c frames m (.ok ⟨⟩ st)
  | faults {β : Renaming} {fault : Fault} {st : Store κ σ} {frames' : Array Frame}
      {m' : Memory κ σ} (hends : Ends (execute env) frames m (.faulted fault frames' m'))
      (h : Mirrors env S c β m' st) : Concludes env S c frames m (.error (.fault fault) st)
  | overflows {r : EStateM.Result Stop (Store κ σ) PUnit} {frames' : Array Frame}
      {m' : Memory κ σ} (hends : Ends (execute env) frames m (.faulted .stackOverflow frames' m')) :
      Concludes env S c frames m r

theorem ScriptAt.concludes {fns : List (FnDecl × Handle)} (ha : a.Of c) (hS : S.Suits env c)
    (houter : a.outer = #[]) {depth : Nat} (hdepth : env.config.maxFrames ≤ depth)
    (hscript : ScriptAt a.site c.program fns) (hfns : fns.map Prod.fst = c.program.fns)
    (hids : ∀ d ∈ c.program.fns, d.id.isSome) (hplaced : ∀ fn ∈ fns, c.Places fn.1 fn.2)
    (hnodup : (fns.map Prod.snd).Nodup)
    (hfree : ∀ fn ∈ fns, ∀ b, ¬β fn.2 b) (h : Stands env S c a β [] #[] m st) :
    Concludes env S c (a.frames 0) m (c.program.evaluate S depth st) := by
  obtain @⟨_, _, u, hstores, hinits, hmain, hnull, hret⟩ := hscript
  have happlies : Applies env S c (applyFn S depth) (a.outer.size + 1) :=
    applies_applyFn hS (by omega)
  have hdeclared : ∀ fn ∈ fns, fn.1 ∈ c.program.fns ∧ c.Places fn.1 fn.2 := by
    intro fn hfn
    refine ⟨?_, hplaced fn hfn⟩
    rw [← hfns]
    exact List.mem_map_of_mem hfn
  -- Behind its parts the script pushes null, which it returns.
  have hfollows : Follows env S c (fun _ st₁ frames₁ m₁ => frames₁ = a.frames (u + 1) ∧
      ∃ γ, Stands env S c a γ [] (#[].push .null) m₁ st₁) (a.frames 0) m
      (c.program.evaluate S depth st) := by
    unfold Program.evaluate
    rw [← hfns]
    refine (hstores.follows ha hdeclared hnodup hfree h).bind fun hstored => ?_
    cases hstored with
    | mk h₁ =>
    refine (hinits.follows ha hS happlies h₁).bind fun hinitialised => ?_
    cases hinitialised with
    | mk h₂ =>
    refine (hmain.follows ha hS happlies hids h₂).extend fun hcalled => ?_
    cases hcalled with
    | mk h₃ =>
      exact .placed ha h₃.evolves hnull perform_loadNull (.reaches .refl ⟨rfl, _, h₃.push _⟩)
  generalize c.program.evaluate S depth st = r at hfollows
  cases hfollows with
  | overflows hends => exact .overflows hends
  | faults hends h' => exact .faults hends h'
  | @reaches _ _ _ m₁ hsteps hpushed =>
    obtain ⟨rfl, γ, h'⟩ := hpushed
    obtain ⟨rest, hstack, hrest⟩ := h'.pop
    have hlast : execute env (a.frames (u + 1)) m₁ = .finished { m₁ with stack := #[] } := by
      rw [Activation.execute_eq ha h'.evolves hret, perform_ret hstack]
      simp only [Activation.after, transfer, houter]
      rfl
    exact .finishes ⟨_, _, hsteps, hlast⟩ (h'.mirrors.withStack _)

end Script

end ScriptMachine
