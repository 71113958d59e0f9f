import BitUnroll.Proofs.Script.Scoping

/-!
# Modules of scripts

What a module becomes depends on the commands that are executed while it is selected, on the named
types, and on nothing else. So the commands that were executed while other modules were selected
can be dropped from a script: a run without them goes on in the same way, and selects the same
modules, whose systems it may know in other states. The system of the module itself is the same.

## Main definitions

* `Script.keptFor`: the commands that are left for a module.
* `Script.AgreeOn`: two scripts agree on all that a module depends on.
* `Script.DistinctVars`: in every module, variables have different names.

## Main statements

* `Script.parse_keptFor`: the module of a script without the commands for the other modules.
-/

namespace BitUnroll

namespace Script

variable {s s' t : Script} {module : String} {name : CommandName} {args : List SExpr}
  {tree : SExpr} {trees : List SExpr}

/-! ## Commands for a module -/

/-- A command that selects a module or names a type, or that is executed while a module is
selected. -/
def KeptFor (module : String) (command : Script × SExpr) : Prop :=
  IsCommand .module command.2 ∨ IsCommand .typedef command.2 ∨ command.1.selected = module

instance (module : String) (command : Script × SExpr) : Decidable (KeptFor module command) :=
  inferInstanceAs (Decidable (_ ∨ _ ∨ _))

/-- The commands that are left when those for other modules are dropped. -/
def keptFor (module : String) (commands : List (Script × SExpr)) : List SExpr :=
  (commands.filter (KeptFor module)).map (·.2)

/-- Two scripts with the same types, the same names of modules and the same selected one. A module
has one system in both of them; the others may differ. -/
structure AgreeOn (module : String) (s t : Script) : Prop where
  types_eq : t.types = s.types
  selected_eq : t.selected = s.selected
  isSome_eq : ∀ other, (t.design.get? other).isSome = (s.design.get? other).isSome
  get?_eq : t.design.get? module = s.design.get? module

/-- Types are read without a look at the system. -/
theorem type_congr (types : TypeTable) (ts ts' : TransitionSystem) (tree : SExpr) :
    (⟨types, ts⟩ : Scope).type tree = (⟨types, ts'⟩ : Scope).type tree := rfl

theorem isSome_get?_modify (s : Script) (f : TransitionSystem → TransitionSystem)
    (other : String) :
    ((s.modified f).design.get? other).isSome = (s.design.get? other).isSome := by
  rw [modified, Design.get?_modify]
  split
  · exact Option.isSome_map
  · rfl

namespace AgreeOn

/-- Selecting a module, which is known to both scripts or new in both of them. -/
theorem selectModule (h : AgreeOn module s t) (name : String) :
    AgreeOn module (s.selectModule name) (t.selectModule name) := by
  refine ⟨h.types_eq, rfl, fun other => ?_, ?_⟩
  all_goals
    simp only [Script.selectModule, h.isSome_eq name]
    split
  · exact h.isSome_eq other
  · rw [Design.get?_insert, Design.get?_insert]
    split
    · rfl
    · exact h.isSome_eq other
  · exact h.get?_eq
  · rw [Design.get?_insert, Design.get?_insert, h.get?_eq]

/-- Changing the selected system in both scripts alike. -/
theorem modified (h : AgreeOn module s t) (f : TransitionSystem → TransitionSystem) :
    AgreeOn module (s.modified f) (t.modified f) := by
  refine ⟨h.types_eq, h.selected_eq, fun other => ?_, ?_⟩
  · rw [isSome_get?_modify, isSome_get?_modify]
    exact h.isSome_eq other
  · rw [Script.modified, Script.modified, Design.get?_modify, Design.get?_modify, h.selected_eq,
      h.get?_eq]

/-- Changing the selected system, which is another one, in one script only. -/
theorem modified_left (h : AgreeOn module s t) (hmodule : s.selected ≠ module)
    (f : TransitionSystem → TransitionSystem) : AgreeOn module (s.modified f) t := by
  refine ⟨h.types_eq, h.selected_eq, fun other => ?_, ?_⟩
  · rw [isSome_get?_modify]
    exact h.isSome_eq other
  · rw [Script.modified, Design.get?_modify, if_neg hmodule]
    exact h.get?_eq

/-- The selected module has a system in both scripts or in none. -/
theorem exists_system (h : AgreeOn module s t) {ts : TransitionSystem} (hts : s.system = .ok ts) :
    ∃ ts', t.system = .ok ts' := by
  have hsome : (t.design.get? t.selected).isSome = true := by
    rw [h.isSome_eq, h.selected_eq, system_eq_ok.1 hts]
    rfl
  obtain ⟨ts', hts'⟩ := Option.isSome_iff_exists.1 hsome
  exact ⟨ts', system_eq_ok.2 hts'⟩

/-- While the module is selected, both scripts have its system. -/
theorem system_eq (h : AgreeOn module s t) (hmodule : s.selected = module) :
    t.system = s.system := by
  rw [system, system, h.selected_eq, hmodule, h.get?_eq]

/-- A command that is kept does the same in both scripts. -/
theorem execute (h : AgreeOn module s t) (heffect : s.Effect name args s')
    (hkept : name = .module ∨ name = .typedef ∨ s.selected = module) :
    ∃ t', t.Effect name args t' ∧ AgreeOn module s' t' := by
  have hsystem : ∀ {ts}, name ≠ .module → name ≠ .typedef → s.system = .ok ts →
      t.system = .ok ts := by
    intro ts hmodule htypedef hts
    rw [h.system_eq ((hkept.resolve_left hmodule).resolve_left htypedef), hts]
  -- both scripts read types in one table
  obtain ⟨design, types, selected, constraints, conversions⟩ := t
  obtain rfl : types = s.types := h.types_eq
  cases heffect with
  | module other => exact ⟨_, .module other, h.selectModule other⟩
  | typedef hts hty type =>
    obtain ⟨ts', hts'⟩ := h.exists_system hts
    exact ⟨_, .typedef hts' ((type_congr _ _ ts' _).symm.trans hty) type,
      ⟨rfl, h.selected_eq, h.isSome_eq, h.get?_eq⟩⟩
  | declareVar hts hty hvar =>
    exact ⟨_, .declareVar (hsystem nofun nofun hts) hty hvar, h.modified _⟩
  | init hts he => exact ⟨_, .init (hsystem nofun nofun hts) he, h.modified _⟩
  | trans hts he => exact ⟨_, .trans (hsystem nofun nofun hts) he, h.modified _⟩
  | constraint hts he hframe =>
    exact ⟨_, .constraint (hsystem nofun nofun hts) he hframe,
      ⟨rfl, h.selected_eq, h.isSome_eq, h.get?_eq⟩⟩
  | convert hts he hframe text =>
    exact ⟨_, .convert (hsystem nofun nofun hts) he hframe text,
      ⟨rfl, h.selected_eq, h.isSome_eq, h.get?_eq⟩⟩

/-- A command that is dropped changes nothing that the module depends on. -/
theorem drop (h : AgreeOn module s t) (heffect : s.Effect name args s')
    (hkept : ¬(name = .module ∨ name = .typedef ∨ s.selected = module)) : AgreeOn module s' t := by
  obtain ⟨hmodule, htypedef, hselected⟩ : name ≠ .module ∧ name ≠ .typedef ∧ s.selected ≠ module :=
    ⟨fun hname => hkept (.inl hname), fun hname => hkept (.inr (.inl hname)),
      fun hselected => hkept (.inr (.inr hselected))⟩
  cases heffect with
  | module => exact absurd rfl hmodule
  | typedef => exact absurd rfl htypedef
  | declareVar | init | trans => exact h.modified_left hselected _
  | constraint | convert => exact ⟨h.types_eq, h.selected_eq, h.isSome_eq, h.get?_eq⟩

end AgreeOn

theorem keptFor_cons (command : Script × SExpr) (commands : List (Script × SExpr)) :
    keptFor module (command :: commands) =
      if KeptFor module command then command.2 :: keptFor module commands
      else keptFor module commands := by
  unfold keptFor
  rw [List.filter_cons]
  simp only [decide_eq_true_eq]
  split <;> rfl

/-- A run without the commands for other modules succeeds where the whole run does, and both lead
to scripts that agree on the module. -/
theorem AgreeOn.runAll (h : AgreeOn module s t) (hrun : s.runAll trees = .ok s') :
    ∃ t', t.runAll (keptFor module (s.history trees)) = .ok t' ∧ AgreeOn module s' t' := by
  induction trees generalizing s t with
  | nil =>
    cases hrun
    exact ⟨t, rfl, h⟩
  | cons tree trees ih =>
    obtain ⟨s₁, hfirst, hrest, hhistory⟩ := runAll_cons hrun
    obtain ⟨head, name, args, rfl, hname, heffect⟩ := run_eq_ok_iff.1 hfirst
    have hkeptFor : KeptFor module (s, .list (.atom head :: args)) ↔
        name = .module ∨ name = .typedef ∨ s.selected = module := by
      rw [KeptFor, isCommand_iff hname, isCommand_iff hname]
    rw [hhistory, keptFor_cons]
    -- a command that is kept is a step of both runs, one that is dropped of the first run only
    split
    · rename_i hkept
      obtain ⟨t₁, heffect', h₁⟩ := h.execute heffect (hkeptFor.1 hkept)
      obtain ⟨t', hrest', h'⟩ := ih h₁ hrest
      have hfirst' := run_eq_ok_iff.2 ⟨head, name, args, rfl, hname, heffect'⟩
      exact ⟨t', runAll_cons_eq_ok.2 ⟨t₁, hfirst', hrest'⟩, h'⟩
    · rename_i hdropped
      exact ih (h.drop heffect fun hkept => hdropped (hkeptFor.2 hkept)) hrest

/-! ## Names of variables -/

/-- In every module, variables have different names. -/
def DistinctVars (s : Script) : Prop := s.Every fun ts => (ts.vars.map (·.1)).Nodup

theorem not_mem_of_var?_eq_none {ts : TransitionSystem} {var : String}
    (h : ts.var? var = none) : var ∉ ts.vars.map (·.1) := by
  intro hvar
  obtain ⟨⟨other, ty⟩, hmem, rfl : other = var⟩ := List.mem_map.1 hvar
  rw [TransitionSystem.var?, Option.map_eq_none_iff] at h
  simpa using List.find?_eq_none.1 h (other, ty) hmem

/-- A variable is declared only if there is none of its name. -/
theorem Effect.distinctVars (h : s.Effect name args s') (hs : s.DistinctVars) :
    s'.DistinctVars := by
  cases h with
  | module other => exact hs.selectModule (fun _ => List.nodup_nil) other
  | typedef | constraint | convert => exact hs
  | declareVar hts hty hvar =>
    refine hs.modified hts fun hnodup => ?_
    rw [TransitionSystem.addVar, List.map_append]
    refine List.nodup_append.2 ⟨hnodup, List.pairwise_singleton _ _, ?_⟩
    rintro other hother _ hmem rfl
    obtain rfl := List.mem_singleton.1 hmem
    exact not_mem_of_var?_eq_none hvar hother
  | init hts | trans hts => exact hs.modified hts id

/-! ## Whole scripts -/

/-- **Modules do not interfere.** For every module, the commands of a text that are left when those
for other modules are dropped are a script, which has the same system of that module; so a text
with these commands is a script as well. In every module of a script, variables have different
names. -/
theorem parse_keptFor {text : String} (h : parse text = .ok s) (module : String) :
    (∃ s', initial.runAll (keptFor module (commands text)) = .ok s' ∧
      s'.design.get? module = s.design.get? module ∧
      ∀ text', SExpr.readAll text' = .ok (keptFor module (commands text)) →
        parse text' = .ok s') ∧
    ∀ ts, s.design.get? module = some ts → (ts.vars.map (·.1)).Nodup := by
  have hinitial : initial.DistinctVars := every_initial List.nodup_nil
  unfold parse at h
  split at h
  · rename_i trees htrees
    have hagree : AgreeOn module initial initial := ⟨rfl, rfl, fun _ => rfl, rfl⟩
    obtain ⟨s', hrun, hs'⟩ := hagree.runAll h
    rw [commands, htrees]
    refine ⟨⟨s', hrun, hs'.get?_eq, fun text' htext' => ?_⟩,
      runAll_induction Effect.distinctVars h hinitial module⟩
    rw [parse, htext']
    exact hrun
  · cases h

/-- A module that is left and selected again, beside a module with a variable of the same name. -/
theorem parse_keptFor_selected_again :
    let text := "(declare-var x bool) (init x) (module m) (declare-var x bool) (trans x)
      (module main) (trans (next x))"
    let text' := "(declare-var x bool) (init x) (module m) (module main) (trans (next x))"
    ∃ s s', parse text = .ok s ∧ SExpr.readAll text' = .ok (keptFor "main" (commands text)) ∧
      parse text' = .ok s' ∧ s'.design.get? "main" = s.design.get? "main" ∧
      ∀ ts, s.design.get? "main" = some ts → (ts.vars.map (·.1)).Nodup := by
  intro text text'
  have htext : SExpr.readAll text = .ok
      [.list [.atom "declare-var", .atom "x", .atom "bool"], .list [.atom "init", .atom "x"],
        .list [.atom "module", .atom "m"], .list [.atom "declare-var", .atom "x", .atom "bool"],
        .list [.atom "trans", .atom "x"], .list [.atom "module", .atom "main"],
        .list [.atom "trans", .list [.atom "next", .atom "x"]]] := by
    dsimp only [text]
    set_option maxRecDepth 4000 in rfl
  have htext' : SExpr.readAll text' = .ok
      [.list [.atom "declare-var", .atom "x", .atom "bool"], .list [.atom "init", .atom "x"],
        .list [.atom "module", .atom "m"], .list [.atom "module", .atom "main"],
        .list [.atom "trans", .list [.atom "next", .atom "x"]]] := by
    dsimp only [text']
    set_option maxRecDepth 4000 in rfl
  have hread : SExpr.readAll text' = .ok (keptFor "main" (commands text)) := by
    rw [commands, htext, htext']
    rfl
  have hparse : (parse text).toOption.isSome = true := by decide +kernel
  rcases hs : parse text with f | s <;> rw [hs] at hparse
  · cases hparse
  · obtain ⟨⟨s', -, hget, haccepts⟩, hvars⟩ := parse_keptFor hs "main"
    exact ⟨s, s', rfl, hread, haccepts text' hread, hget, hvars⟩

end Script

end BitUnroll
