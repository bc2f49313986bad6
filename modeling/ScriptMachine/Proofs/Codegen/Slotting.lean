import ScriptMachine.Proofs.Codegen.Settling
import ScriptMachine.Proofs.Codegen.Transcribed

/-!
# Slots by position

A local gets as its slot the number of locals that are visible in front of its
declaration (`Decl.slotted_eq`), and keeps this place among the visible ones as long
as it is visible (`slotted_of_visible`): the locals whose block ends are always the
last ones. So the locals that are visible at any place have the slots from zero
upwards, one after the other.
-/

namespace ScriptMachine

/-! ## Slots that are given along some places -/

/-- The symbols that get slots at places behind others, and their slots. -/
def placesSlotted (front : List Place) : List Place → List (SymbolId × Nat)
  | [] => []
  | p :: after =>
    (p.local?.bind (·.id)).toList.map (·, (visible front).length) ++ placesSlotted
      (front ++ [p]) after

theorem placesSlotted_append (front ps qs : List Place) :
    placesSlotted front (ps ++ qs) = placesSlotted front ps ++ placesSlotted (front ++ ps) qs := by
  induction ps generalizing front with
  | nil => simp [placesSlotted]
  | cons p ps ih => simp [placesSlotted, ih]

theorem placesSlotted_single (front : List Place) (p : Place) :
    placesSlotted front [p] = (p.local?.bind (·.id)).toList.map (·, (visible front).length) :=
  List.append_nil _

theorem placesSlotted_silent (front : List Place) {ps : List Place} (h : ∀ p ∈ ps, p.Silent) :
    placesSlotted front ps = [] := by
  induction ps generalizing front with
  | nil => rfl
  | cons p ps ih =>
    obtain ⟨hp, hps⟩ := List.forall_mem_cons.1 h
    rw [placesSlotted, ih _ hps, hp.1]
    rfl

theorem length_visible_stmt (s : Stmt) (front : List Place) :
    (visible (front ++ s.places)).length = (visible front).length + s.declares := by
  rw [visible_stmt, List.length_append]
  cases s <;> rfl

theorem length_visible_opening (front : List Place) :
    (visible (front ++ [.opening])).length = (visible front).length := by
  rw [visible_concat, filterMap_behind_opening]
  simp [Place.local?]

mutual

theorem Stmt.slotted_eq : ∀ (s : Stmt) (front : List Place),
    s.slotted (visible front).length = placesSlotted front s.places
  | .block body, front => blockSlotted_eq body front
  | .var d, front => by
    rw [Stmt.places, placesSlotted_append, placesSlotted_silent front (init_silent d.init),
      placesSlotted_single, visible_append_silent front (init_silent d.init)]
    rfl
  | .cond test thenBlock none _, front => by
    have hthen := blockSlotted_eq thenBlock (front ++ test.places)
    rw [visible_append_silent front test.silent] at hthen
    rw [Stmt.places, placesSlotted_append, placesSlotted_silent front test.silent, ← hthen]
    rfl
  | .cond test thenBlock (some elseBlock) _, front => by
    have hthen := blockSlotted_eq thenBlock (front ++ test.places)
    have helse := blockSlotted_eq elseBlock (front ++ test.places ++ blockPlaces thenBlock)
    rw [visible_append_silent front test.silent] at hthen
    rw [visible_block, visible_append_silent front test.silent] at helse
    rw [Stmt.places, placesSlotted_append, placesSlotted_append,
      placesSlotted_silent front test.silent, ← hthen, ← helse]
    rfl
  | .ret value _, front => (placesSlotted_silent front (init_silent value)).symm
  | .print value _, front | .expr value _, front => (placesSlotted_silent front value.silent).symm
termination_by structural s => s

theorem blockSlotted_eq : ∀ (body : Block Stmt) (front : List Place),
    blockSlotted body (visible front).length = placesSlotted front (blockPlaces body)
  | ⟨stmts, _⟩, front => by
    have hstmts := stmtsSlotted_eq stmts (front ++ [.opening])
    rw [length_visible_opening] at hstmts
    rw [blockPlaces, placesSlotted, placesSlotted_append, placesSlotted_single, ← hstmts]
    exact (List.append_nil _).symm
termination_by structural body => body

theorem stmtsSlotted_eq : ∀ (ss : List Stmt) (front : List Place),
    stmtsSlotted ss (visible front).length = placesSlotted front (stmtsPlaces ss)
  | [], _ => rfl
  | s :: ss, front => by
    have hss := stmtsSlotted_eq ss (front ++ s.places)
    rw [length_visible_stmt] at hss
    rw [stmtsSlotted, stmtsPlaces, placesSlotted_append, s.slotted_eq front, hss]
termination_by structural ss => ss

end

theorem paramsSlotted_eq (params : List Param) (front : List Place) :
    paramsSlotted params (visible front).length = placesSlotted front (params.map Param.place) := by
  induction params generalizing front with
  | nil => rfl
  | cons p ps ih =>
    have hlength : (visible (front ++ [p.place])).length = (visible front).length + 1 := by
      rw [Param.place, visible_concat_declared, List.length_append, List.length_singleton]
    rw [paramsSlotted, ← hlength, ih, List.map_cons, placesSlotted]
    rfl

theorem length_visible_params (params : List Param) :
    (visible (params.map Param.place)).length = params.length := by
  have hparams : slotsAt 0 0 (params.map Param.place) = _ := slotsAt_params params
  have hslots := congrArg Slots.height hparams
  simpa [slotsAt, Slots.height] using hslots

/-- The locals of a declaration get slots by their positions. -/
theorem Decl.slotted_eq (decl : Decl) : decl.slotted = placesSlotted [] decl.places := by
  cases decl with
  | fn d =>
    have hparams := paramsSlotted_eq d.params []
    have hstmts := stmtsSlotted_eq d.body.stmts (d.params.map Param.place)
    rw [length_visible_params] at hstmts
    rw [Decl.slotted, FnDecl.slotted, Decl.places, FnDecl.places, placesSlotted_append, ← hparams,
      List.nil_append, ← hstmts]
    rfl
  | var d => exact (placesSlotted_silent [] (init_silent d.init)).symm

/-- Where a local is declared its symbol gets a slot. -/
theorem slotted_of_declared {places before after : List Place} {isParam : Bool} {name : String}
    {i : SymbolId} {span : Span}
    (h : places = before ++ .declared isParam name (some i) span :: after) :
    (i, (visible before).length) ∈ placesSlotted [] places := by
  rw [h, placesSlotted_append, placesSlotted, List.nil_append]
  exact List.mem_append_right _ (List.mem_append_left _ (List.mem_singleton_self _))

theorem map_fst_placesSlotted (front places : List Place) :
    (placesSlotted front places).map Prod.fst =
      (places.filterMap Place.declaredId?).filterMap id := by
  induction places generalizing front with
  | nil => rfl
  | cons p places ih =>
    rw [placesSlotted, List.map_append, ih]
    cases p with
    | declared isParam name i span =>
      cases i <;> simp [Place.local?, Place.declaredId?]
    | _ => rfl

/-! ## Positions of visible locals -/

/-- What is filtered from the end of a list does not change positions. -/
theorem getElem?_of_getElem?_filterMap {α β : Type} {f : α → Option β} {l : List α}
    (h : l.Pairwise fun a a' => f a = none → f a' = none) {k : Nat} {b : β}
    (hb : (l.filterMap f)[k]? = some b) : ∃ a, l[k]? = some a ∧ f a = some b := by
  induction l generalizing k with
  | nil => simp at hb
  | cons a l ih =>
    obtain ⟨ha, hl⟩ := List.pairwise_cons.1 h
    cases hfa : f a with
    | none =>
      have hnil : l.filterMap f = [] := List.filterMap_eq_nil_iff.2 fun a' ha' => ha a' ha' hfa
      rw [List.filterMap_cons_none hfa, hnil] at hb
      cases hb
    | some b' =>
      rw [List.filterMap_cons_some hfa] at hb
      cases k with
      | zero =>
        cases hb
        exact ⟨a, rfl, hfa⟩
      | succ k => exact ih hl hb

/-- The later a visible local is declared, the fewer blocks have begun since. -/
theorem visible_sorted (places : List Place) :
    (visible places).Pairwise fun d d' => d'.depth ≤ d.depth := by
  induction places using List.reverseRecOn with
  | nil => exact .nil
  | append_singleton places p ih =>
    have hbehind : ∀ {d e : Declared}, d.behind p = some e → p.nest d.depth = some e.depth := by
      intro d e h
      obtain ⟨depth, hdepth, rfl⟩ := Option.map_eq_some_iff.1 h
      exact hdepth
    rw [visible_concat, List.pairwise_append]
    refine ⟨List.pairwise_filterMap.2 (ih.imp ?_), ?_, fun d _ d' hd' => ?_⟩
    · intro d d' hle e he e' he'
      have he := hbehind he
      have he' := hbehind he'
      cases p <;> simp only [Place.nest] at he he' <;> grind
    · cases p.local? <;> simp
    · have hzero : d'.depth = 0 := by
        cases p with
        | declared isParam name id span => cases List.mem_singleton.1 hd'; rfl
        | _ => cases hd'
      rw [hzero]
      exact Nat.zero_le _

/-- A local that is visible behind one place more was visible in the same position
before, or has just been declared. -/
theorem getElem?_visible_concat {places : List Place} {p : Place} {k : Nat} {d : Declared}
    (h : (visible (places ++ [p]))[k]? = some d) :
    (∃ d', (visible places)[k]? = some d' ∧ d'.id = d.id) ∨
      k = (visible places).length ∧ p.local? = some d := by
  rw [visible_concat, List.getElem?_append] at h
  split at h
  · have hlast : (visible places).Pairwise fun d d' => d.behind p = none → d'.behind p = none := by
      refine (visible_sorted places).imp fun {d d'} hle hd => ?_
      rw [Declared.behind, Option.map_eq_none_iff] at hd ⊢
      cases p <;> simp only [Place.nest] at hd ⊢ <;> grind
    obtain ⟨d', hd', hbehind⟩ := getElem?_of_getElem?_filterMap hlast h
    obtain ⟨depth, -, rfl⟩ := Option.map_eq_some_iff.1 hbehind
    exact .inl ⟨d', hd', rfl⟩
  · next hge =>
    cases p with
    | declared isParam name id span =>
      have hall : (visible places).filterMap (·.behind (.declared isParam name id span)) =
          visible places := List.filterMap_some
      rw [hall] at h hge
      obtain ⟨hlt, heq⟩ := List.getElem?_eq_some_iff.1 h
      refine .inr ⟨?_, ?_⟩
      · simp only [Place.local?, Option.toList_some, List.length_singleton] at hlt
        omega
      · rw [List.mem_singleton.1 (List.mem_of_getElem? h)]
        rfl
    | _ => simp [Place.local?] at h

/-- A visible local has got its position as its slot. -/
theorem slotted_of_visible {places : List Place} {k : Nat} {d : Declared}
    (h : (visible places)[k]? = some d) {i : SymbolId} (hid : d.id = some i) :
    (i, k) ∈ placesSlotted [] places := by
  induction places using List.reverseRecOn generalizing d with
  | nil => cases h
  | append_singleton places p ih =>
    rw [placesSlotted_append, List.nil_append, placesSlotted_single]
    rcases getElem?_visible_concat h with ⟨d', hd', heq⟩ | ⟨rfl, hp⟩
    · exact List.mem_append_left _ (ih hd' (heq.trans hid))
    · rw [hp, Option.bind_some, hid]
      exact List.mem_append_right _ (List.mem_singleton_self _)

/-! ## Tables in which slots have been given -/

namespace SymbolTable

variable {table : SymbolTable} {assigned : List (SymbolId × Nat)} {id : SymbolId}

theorem getElem?_assign_of_notMem (h : id ∉ assigned.map Prod.fst) :
    (table.assign assigned)[id]? = table[id]? := by
  induction assigned generalizing table with
  | nil => rfl
  | cons a assigned ih =>
    rw [List.map_cons, List.mem_cons, not_or] at h
    rw [assign, List.foldl_cons, ← assign, ih h.2, getElem?_setSlot, if_neg h.1]

/-- A symbol that gets a slot once has it in the end. -/
theorem getElem?_assign_of_mem (hnodup : (assigned.map Prod.fst).Nodup) {slot : Nat}
    (h : (id, slot) ∈ assigned) :
    (table.assign assigned)[id]? =
      table[id]?.map fun symbol => { symbol with slot := some slot } := by
  induction assigned generalizing table with
  | nil => cases h
  | cons a assigned ih =>
    obtain ⟨ha, hassigned⟩ := List.nodup_cons.1 hnodup
    rw [assign, List.foldl_cons, ← assign]
    rcases List.mem_cons.1 h with rfl | h
    · rw [getElem?_assign_of_notMem ha, getElem?_setSlot, if_pos rfl]
    · have hne : id ≠ a.1 := by
        rintro rfl
        exact ha (List.mem_map.2 ⟨_, h, rfl⟩)
      rw [ih hassigned h, getElem?_setSlot, if_neg hne]

end SymbolTable

end ScriptMachine
