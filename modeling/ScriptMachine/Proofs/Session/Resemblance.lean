import ScriptMachine.Proofs.Codegen.Renaming
import ScriptMachine.Proofs.Session.Evaluation

/-!
# Sessions that resemble a fresh one

A session resembles a fresh one if the natives and the methods of the fresh one have
counterparts in it (`Session.Resembles`). What else is on its heap has no counterpart,
and what else is in its globals is not compared, so garbage of earlier programs does not
matter. A program compiles in the same way in both (`Session.ResemblesBy.compile`), and the
session still resembles the fresh one behind whatever is asked of it that runs no program.
-/

namespace ScriptMachine

variable {κ ε τ : Type} {β γ : Renaming}

/-! ## Back to an earlier heap -/

/-- A renaming onto the handles that are live on `origin`. -/
def Renaming.onto (γ : Renaming) (origin : Heap κ) : Renaming :=
  fun a b => γ a b ∧ origin.isLive b

theorem Heap.Holds.onto {origin : Heap κ} {v w : Value} (hw : origin.Holds w)
    (h : Value.Matches γ v w) : Value.Matches (γ.onto origin) v w := by
  cases h with
  | null => exact .null
  | bool b => exact .bool b
  | number x => exact .number x
  | object hab => exact .object ⟨hab, hw _ rfl⟩

/-- Natives do not change, so what stands for them on a later heap does so on the earlier
one. -/
theorem Heap.Matches.onto {φ : FunctionMatch} {left right origin : Heap κ}
    (h : Heap.Matches φ γ left right) (hwf : origin.WF) (hkept : origin.Kept right)
    (hnatives : origin.OnlyNatives) : Heap.Matches φ (γ.onto origin) left origin := by
  refine ⟨h.left_wf, hwf, ⟨?_, ?_⟩, ?_⟩
  · rintro a b c ⟨hab, -⟩ ⟨hcb, -⟩
    exact h.biUnique.1 hab hcb
  · rintro a b c ⟨hab, -⟩ ⟨hac, -⟩
    exact h.biUnique.2 hab hac
  · rintro a b ⟨hab, hlive⟩
    obtain ⟨object, hget⟩ := Heap.isLive_iff.1 hlive
    obtain ⟨native, rfl⟩ := hnatives b object hget
    obtain ⟨x, y, hx, hy, hxy⟩ := h.objects hab
    rw [hkept.get hget (by simp [Object.kind])] at hy
    cases hy
    cases hxy with
    | native _ => exact ⟨_, _, hx, hget, .native native⟩

/-! ## Globals -/

section Globals

variable {R : Value → Value → Prop} {xs ys : Array Value} {n : Nat}

/-- Arrays that are related in their first places are related as a whole when they are cut
off behind these. -/
theorem pointwise_shrink (h : ∀ i < n, Option.Rel R xs[i]? ys[i]?) :
    Pointwise R (xs.shrink n) (ys.shrink n) := by
  intro i
  rw [getElem?_shrink, getElem?_shrink]
  split
  · next hi => exact h i hi
  · exact .none

/-- Both get the same room for globals behind the natives. -/
theorem pointwise_room (h : Pointwise R xs ys) (hnull : R .null .null) (count : Nat) :
    Pointwise R (xs ++ Array.replicate (count - xs.size) .null)
      (ys ++ Array.replicate (count - ys.size) .null) := by
  intro i
  rw [Array.getElem?_append, Array.getElem?_append, h.size_eq]
  split
  · exact h i
  · exact Pointwise.refl_of (fun value hvalue => (Array.mem_replicate.1 hvalue).2 ▸ hnull) _

end Globals

/-! ## Resemblance -/

namespace Session

/-- Two sessions with the same limits, natives and methods, these up to handles. -/
structure Alike (γ : Renaming) (s s' : Session ε τ) : Prop where
  config_eq : s.config = s'.config
  natives_eq : s.natives = s'.natives
  methods : List.Forall₂ (fun a b => a.1 = b.1 ∧ γ a.2 b.2) s.methods s'.methods
  heap : Heap.Matches Function.Matches γ s.memory.heap s'.memory.heap

/-- The session `s` has counterparts of what is in `s₀`, and the natives of `s₀` are its
first globals. -/
structure ResemblesBy (β : Renaming) (s s₀ : Session ε τ) : Prop extends Alike β s s₀ where
  globals : ∀ i < s₀.natives.size,
    Option.Rel (Value.Matches β) s.memory.globals[i]? s₀.memory.globals[i]?

def Resembles (s s₀ : Session ε τ) : Prop := ∃ β, ResemblesBy β s s₀

/-- The session `s'` has come from `s` and still has what `s` had. -/
structure Keeps (s s' : Session ε τ) : Prop where
  config_eq : s'.config = s.config
  natives_eq : s'.natives = s.natives
  methods_eq : s'.methods = s.methods
  heap : s.memory.heap.Kept s'.memory.heap
  globals : SameBelow s.natives.size s.memory.globals s'.memory.globals

/-- What two sessions make of a program: the same diagnostics, or scripts that stand for each
other, with globals that match. -/
inductive CompilesAlike (γ : Renaming) :
    Except SessionError Handle × Session ε τ → Except SessionError Handle × Session ε τ → Prop
  | error {s s' : Session ε τ} (h : Alike γ s s') (error : SessionError) :
      CompilesAlike γ (.error error, s) (.error error, s')
  | ok {s s' : Session ε τ} (h : Alike γ s s')
      (hglobals : Pointwise (Value.Matches γ) s.memory.globals s'.memory.globals) {a b : Handle}
      (hab : γ a b) : CompilesAlike γ (.ok a, s) (.ok b, s')

variable {s s' s₀ s₀' : Session ε τ}

theorem Closed.resembles (h : s.Closed) : s.Resembles s := by
  refine ⟨s.memory.heap.self, ⟨rfl, rfl, ?_, h.heap.self_matches⟩, fun i _ => ?_⟩
  · exact List.forall₂_same.2 fun method hmethod => ⟨rfl, rfl, h.methods method hmethod⟩
  · exact Pointwise.refl_of (fun value hvalue => (h.globals value hvalue).self_matches) i

theorem Resembles.natives_eq (h : s.Resembles s₀) : s.natives = s₀.natives := by
  obtain ⟨β, h⟩ := h
  exact h.toAlike.natives_eq

theorem ResemblesBy.natives_le (h : ResemblesBy β s s₀) (hs₀ : s₀.Fresh) :
    s.natives.size ≤ s.memory.globals.size := by
  by_contra hlt
  have hglobal := h.globals s.memory.globals.size (by rw [← h.natives_eq]; omega)
  rw [Array.getElem?_eq_none (Nat.le_refl _), Array.getElem?_eq_getElem (by
    rw [hs₀.globals_eq, ← h.natives_eq]; omega)] at hglobal
  cases hglobal

/-- A session resembles a fresh one if it is like a session that has come from the fresh
one. -/
theorem Alike.resembles (h : Alike γ s s') (hkeeps : Keeps s₀ s') (hs₀ : s₀.Closed)
    (hnatives : s₀.memory.heap.OnlyNatives)
    (hglobals : ∀ i < s₀.natives.size,
      Option.Rel (Value.Matches γ) s.memory.globals[i]? s'.memory.globals[i]?) :
    s.Resembles s₀ := by
  refine ⟨γ.onto s₀.memory.heap, ⟨h.config_eq.trans hkeeps.config_eq,
    h.natives_eq.trans hkeeps.natives_eq, ?_, h.heap.onto hs₀.heap.wf hkeeps.heap hnatives⟩,
    fun i hi => ?_⟩
  · have hmethods := h.methods
    rw [hkeeps.methods_eq] at hmethods
    refine List.forall₂_iff_get.2 ⟨hmethods.length_eq, fun i hi hi' => ?_⟩
    have hmatch := (List.forall₂_iff_get.1 hmethods).2 i hi hi'
    exact ⟨hmatch.1, hmatch.2, hs₀.methods _ (List.get_mem _ _)⟩
  · have hglobal := hglobals i hi
    rw [hkeeps.globals i hi] at hglobal
    generalize s.memory.globals[i]? = value at hglobal ⊢
    generalize hfound : s₀.memory.globals[i]? = value₀ at hglobal ⊢
    cases hglobal with
    | none => exact .none
    | some hvw => exact .some (Heap.Holds.onto (hs₀.globals _ (Array.mem_of_getElem? hfound)) hvw)

/-! ## Compiling -/

/-- A program that is compiled leaves what was there, whether it compiles or not. -/
theorem compile_keeps (hwf : s.memory.heap.WF) (hsize : s.natives.size ≤ s.memory.globals.size)
    (program : Program) (file : String) (orders : CandidateOrders) :
    Keeps s (s.compile program file orders).2 := by
  have hcompiles := s.compiles program file orders
  generalize s.compile program file orders = result at hcompiles ⊢
  cases hcompiles with
  | unresolved => exact ⟨rfl, rfl, rfl, .refl hwf, .refl _ _⟩
  | @refused resolved symbols =>
    exact ⟨rfl, rfl, rfl, resolved.compile_kept hwf symbols, .refl _ _⟩
  | @compiled resolved symbols =>
    refine ⟨rfl, rfl, rfl, resolved.compile_kept hwf symbols, fun i hi => ?_⟩
    dsimp only
    rw [Array.getElem?_append_left (by rw [Array.size_shrink]; omega), getElem?_shrink, if_pos hi]

theorem CompilesAlike.alike {r r' : Except SessionError Handle × Session ε τ}
    (h : CompilesAlike γ r r') : Alike γ r.2 r'.2 := by
  cases h with
  | error h error => exact h
  | ok h hglobals hab => exact h

/-- A program compiles in the same way in a session that resembles a fresh one. -/
theorem ResemblesBy.compile (h : ResemblesBy β s s₀) (program : Program) (file : String)
    (orders : CandidateOrders) :
    ∃ γ, β ≤ γ ∧
      CompilesAlike γ (s.compile program file orders) (s₀.compile program file orders) := by
  have hmethods : ∀ {γ : Renaming}, β ≤ γ →
      List.Forall₂ (fun a b => a.1 = b.1 ∧ γ a.2 b.2) s.methods s₀.methods := fun hle =>
    h.methods.imp fun _ _ hab => ⟨hab.1, hle _ _ hab.2⟩
  unfold Session.compile
  rw [h.natives_eq]
  split
  · exact ⟨β, le_refl β, .error h.toAlike _⟩
  · next resolved symbols _ =>
    obtain ⟨γ, hle, hheap, hsymbols, hscript, herrors⟩ := resolved.compile_matches h.heap symbols
    dsimp only
    rw [hsymbols, herrors]
    split
    · refine ⟨γ, hle, .ok ?_ (pointwise_room ?_ .null _) hscript⟩
      · exact ⟨h.config_eq, h.natives_eq, hmethods hle, hheap⟩
      · rw [h.natives_eq]
        exact (pointwise_shrink h.globals).mono (Value.Matches.mono hle)
    · refine ⟨γ, hle, .error ?_ _⟩
      exact ⟨h.config_eq, h.natives_eq, hmethods hle, hheap⟩

theorem Resembles.compile (h : s.Resembles s₀) (hs₀ : s₀.Fresh)
    (hnatives : s₀.memory.heap.OnlyNatives) (program : Program) (file : String)
    (orders : CandidateOrders) : (s.compile program file orders).2.Resembles s₀ := by
  obtain ⟨β, h⟩ := h
  obtain ⟨γ, hle, hcompiled⟩ := h.compile program file orders
  have hsize := h.natives_le hs₀
  have hkeeps := compile_keeps h.heap.left_wf hsize program file orders
  have hkeeps₀ :=
    compile_keeps hs₀.closed.heap.wf (Nat.le_of_eq hs₀.globals_eq.symm) program file orders
  refine hcompiled.alike.resembles hkeeps₀ hs₀.closed hnatives fun i hi => ?_
  rw [hkeeps.globals i (h.natives_eq ▸ hi), hkeeps₀.globals i hi]
  exact rel_imp (h.globals i hi) fun _ hvw => hvw.mono hle

/-! ## Other requests -/

/-- Output, host and the time of the next collection are not compared. -/
theorem Resembles.of_parts (h : s.Resembles s₀) (hconfig : s'.config = s.config)
    (hnatives : s'.natives = s.natives) (hmethods : s'.methods = s.methods)
    (hheap : s'.memory.heap = s.memory.heap) (hglobals : s'.memory.globals = s.memory.globals) :
    s'.Resembles s₀ := by
  obtain ⟨β, h⟩ := h
  refine ⟨β, ⟨hconfig.trans h.config_eq, hnatives.trans h.natives_eq, ?_, ?_⟩, ?_⟩
  · rw [hmethods]
    exact h.methods
  · rw [hheap]
    exact h.heap
  · rw [hglobals]
    exact h.globals

/-- Natives and methods are roots, so they survive a collection. -/
theorem Resembles.collectGarbage (h : s.Resembles s₀) : s.collectGarbage.2.Resembles s₀ := by
  obtain ⟨β, h⟩ := h
  let roots := s.memory.roots s.methods #[]
  refine ⟨β.restrict (s.memory.heap.Reachable roots), ⟨h.config_eq, h.natives_eq, ?_,
    h.heap.collect roots⟩, fun i hi => ?_⟩
  · refine List.forall₂_iff_get.2 ⟨h.methods.length_eq, fun i hi hi' => ?_⟩
    have hmatch := (List.forall₂_iff_get.1 h.methods).2 i hi hi'
    exact ⟨hmatch.1, hmatch.2, s.memory.reachable_method #[] (List.get_mem _ _)⟩
  · refine rel_imp (h.globals i hi) fun {value _} hvalue hvw => ?_
    refine hvw.restrict fun {handle} hhandle => .root ?_
    have hmem := Array.mem_of_getElem? hvalue
    simp only [Roots.handles, List.mem_append, List.mem_filterMap]
    exact .inl (.inl (.inr ⟨value, Array.mem_toList_iff.2 hmem, hhandle⟩))

/-! ## Natives and methods -/

/-- A native that is added to both. -/
theorem ResemblesBy.addNative (h : ResemblesBy β s s₀) (name : String) (arity : Nat)
    (code : NativeCode ε) :
    ∃ γ, β ≤ γ ∧ γ (s.addNative name arity code).1 (s₀.addNative name arity code).1 ∧
      ResemblesBy γ (s.addNative name arity code).2 (s₀.addNative name arity code).2 := by
  have hle := β.le_extend (s.addNative name arity code).1 (s₀.addNative name arity code).1
  refine ⟨_, hle, .inr ⟨rfl, rfl⟩, ⟨h.config_eq, h.natives_eq, ?_, h.heap.alloc (.native _)⟩,
    fun i hi => ?_⟩
  · exact h.methods.imp fun _ _ hab => ⟨hab.1, hle _ _ hab.2⟩
  · exact rel_imp (h.globals i hi) fun _ hvw => hvw.mono hle

theorem Resembles.defineNative (h : s.Resembles s₀) (name : String) (arity : Nat)
    (code : NativeCode ε) :
    (s.defineNative name arity code).Resembles (s₀.defineNative name arity code) := by
  obtain ⟨β, h⟩ := h
  obtain ⟨γ, hle, hhandle, hadded⟩ := h.addNative name arity code
  refine ⟨γ, ⟨hadded.config_eq, congrArg (·.push name) h.natives_eq, hadded.methods,
    hadded.heap⟩, fun i _ => ?_⟩
  have hkept : Pointwise (Value.Matches γ) (s.memory.globals.shrink s.natives.size)
      (s₀.memory.globals.shrink s₀.natives.size) := by
    rw [h.natives_eq]
    exact pointwise_shrink hadded.globals
  exact hkept.push (.object hhandle) i

theorem Resembles.defineMethod (h : s.Resembles s₀) (kind : ObjectKind) (name : String)
    (arity : Nat) (code : NativeCode ε) :
    (s.defineMethod kind name arity code).Resembles (s₀.defineMethod kind name arity code) := by
  obtain ⟨β, h⟩ := h
  obtain ⟨γ, hle, hhandle, hadded⟩ := h.addNative name arity code
  refine ⟨γ, ⟨hadded.config_eq, hadded.natives_eq, .cons ⟨rfl, hhandle⟩ ?_, hadded.heap⟩,
    hadded.globals⟩
  exact List.rel_filter (fun a b hab => by simp [hab.1]) hadded.methods

end Session

end ScriptMachine
