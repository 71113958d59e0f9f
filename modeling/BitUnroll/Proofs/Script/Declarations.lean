import BitUnroll.Proofs.Script.Scoping

/-!
# Declared variables

A module keeps the variables that it has, each with the type that it was declared with, through all
later commands and while other modules are selected. So a name that was declared stands for its
variable whenever the module is selected again, unless it reads as a truth value or as a number: a
declaration takes any name, and in an expression these readings come first.

## Main definitions

* `Scope.literal?`: the truth value or number that a name is.

## Main statements

* `Script.Effect.var?_systemOf`: a module keeps the types of its variables.
* `Script.expr_of_declared`: what a declared name stands for.
-/

namespace BitUnroll

/-- Behind the other variables there is one more. -/
theorem TransitionSystem.var?_addVar (ts : TransitionSystem) (var name : String) (ty : Ty) :
    (ts.addVar var ty).var? name = (ts.var? name).or (if var = name then some ty else none) := by
  rw [addVar, var?, var?, List.find?_append, Option.map_or, List.find?_singleton]
  by_cases hname : var = name <;> simp [hname]

namespace Scope

/-- The truth value that a name is, or the plain number. -/
def literal? (name : String) : Option Expr :=
  if name = "true" then some (.truth true)
  else if name = "false" then some (.truth false)
  else (Text.readInt? Text.intLimit name).map (.constant · .integer)

/-- No literal is a variable. -/
theorem identifier?_of_literal? {name : String} {e : Expr} (h : literal? name = some e) :
    e.identifier? = none := by
  unfold literal? at h
  split at h
  · cases h
    rfl
  · split at h
    · cases h
      rfl
    · obtain ⟨n, -, rfl⟩ := Option.map_eq_some_iff.1 h
      rfl

/-- A leaf is a literal, or else a variable. -/
theorem leaf_eq (scope : Scope) (name : String) :
    scope.leaf name =
      match literal? name with
      | some e => .ok e
      | none =>
        match scope.system.var? name with
        | some ty => .ok (.symbol name ty)
        | none => Elab.refuse (.unknownSymbol name) := by
  unfold leaf literal?
  split
  · rfl
  · split
    · rfl
    · cases Text.readInt? Text.intLimit name <;> rfl

end Scope

namespace Script

variable {s s₁ m : Script} {name : CommandName} {args : List SExpr} {module var : String} {ty : Ty}

/-- A variable keeps its type, whatever is executed while any module is selected. -/
theorem Effect.var?_systemOf (h : s.Effect name args s₁)
    (hvar : (s.systemOf module).var? var = some ty) :
    (s₁.systemOf module).var? var = some ty := by
  have hmodified : ∀ {ts : TransitionSystem} (_ : s.system = .ok ts) {f}
      (_ : ∀ ts : TransitionSystem, ts.var? var = some ty → (f ts).var? var = some ty),
      ((s.modified f).systemOf module).var? var = some ty := by
    intro ts hts f hf
    rw [systemOf_modified hts]
    split
    · exact hf _ hvar
    · exact hvar
  cases h with
  | module other =>
    rw [systemOf_selectModule]
    exact hvar
  | typedef | constraint | convert => exact hvar
  | declareVar hts =>
    refine hmodified hts fun ts hts => ?_
    rw [TransitionSystem.var?_addVar, hts, Option.some_or]
  | init hts | trans hts => exact hmodified hts fun _ => id

/-- A module that has a variable is known. -/
theorem exists_system_of_var? (hvar : (s.systemOf s.selected).var? var = some ty) :
    ∃ ts, s.system = .ok ts ∧ ts.var? var = some ty := by
  rw [systemOf] at hvar
  cases hts : s.design.get? s.selected with
  | some ts =>
    rw [hts] at hvar
    exact ⟨ts, system_eq_ok.2 hts, hvar⟩
  | none =>
    rw [hts] at hvar
    cases hvar

/-- **Declared names stand for their variables, unless they read as something else.** Take any
script, a declaration that it accepts, any commands that are accepted after it, and suppose that the
module of the declaration is the selected one again. Then the name stands for the variable with the
type that was read in the declaration, if the name is no literal. If the name is a truth value or a
number, then it stands for that, and is no variable. -/
theorem expr_of_declared {type : SExpr} {later : List SExpr}
    (hdeclare : s.run (.list [.atom "declare-var", .atom var, type]) = .ok s₁)
    (hlater : s₁.runAll later = .ok m) (hselected : m.selected = s.selected) :
    ∃ ts ty scope, s.system = .ok ts ∧ (⟨s.types, ts⟩ : Scope).type type = .ok ty ∧
      m.scope = .ok scope ∧
      (Scope.literal? var = none → scope.expr (.atom var) = .ok (.symbol var ty)) ∧
      ∀ e, Scope.literal? var = some e →
        scope.expr (.atom var) = .ok e ∧ e.identifier? = none := by
  obtain ⟨head, command, args, htree, hcommand, heffect⟩ := run_eq_ok_iff.1 hdeclare
  cases htree
  cases hcommand
  cases heffect with
  | @declareVar ts hts _ ty hty _ hnew =>
    -- the declaration adds the variable, and all later commands keep it
    have hdeclared :
        ((s.modified (·.addVar var ty)).systemOf s.selected).var? var = some ty := by
      rw [systemOf_modified hts, if_pos rfl, systemOf_selected hts,
        TransitionSystem.var?_addVar, hnew, if_pos rfl, Option.none_or]
    have hkept := runAll_induction (I := fun s' => (s'.systemOf s.selected).var? var = some ty)
      Effect.var?_systemOf hlater hdeclared
    rw [← hselected] at hkept
    obtain ⟨system, hsystem, hvar⟩ := exists_system_of_var? hkept
    refine ⟨ts, ty, ⟨m.types, system⟩, hts, hty, scope_eq_ok.2 ⟨system, hsystem, rfl⟩,
      fun hliteral => ?_, fun e hliteral => ⟨?_, Scope.identifier?_of_literal? hliteral⟩⟩
    · rw [Scope.expr, Scope.leaf_eq, hliteral]
      dsimp only
      rw [hvar]
    · rw [Scope.expr, Scope.leaf_eq, hliteral]

/-- A variable whose name starts with a digit, in a module that is left and selected again, beside a
module with a variable of the same name. -/
theorem expr_of_declared_selected_again :
    let declaration : SExpr :=
      .list [.atom "declare-var", .atom "5x", .list [.atom "unsigned", .atom "4"]]
    let later : List SExpr := [.list [.atom "module", .atom "m"],
      .list [.atom "declare-var", .atom "5x", .atom "bool"], .list [.atom "module", .atom "main"]]
    ∃ s₁ m scope, initial.run declaration = .ok s₁ ∧ s₁.runAll later = .ok m ∧
      m.selected = initial.selected ∧ Scope.literal? "5x" = none ∧ m.scope = .ok scope ∧
      scope.expr (.atom "5x") = .ok (.symbol "5x" (.unsigned 4)) := by
  intro declaration later
  have hrun : (initial.runAll (declaration :: later)).toOption.any
      (fun m => m.selected = initial.selected) = true := by decide +kernel
  have hliteral : Scope.literal? "5x" = none := by decide +kernel
  rcases hm : initial.runAll (declaration :: later) with f | m <;> rw [hm] at hrun
  · cases hrun
  have hselected : m.selected = initial.selected := of_decide_eq_true hrun
  obtain ⟨s₁, hdeclare, hlater⟩ := runAll_cons_eq_ok.1 hm
  obtain ⟨ts, ty, scope, -, hty, hscope, hvar, -⟩ :=
    expr_of_declared hdeclare hlater hselected
  obtain rfl : Ty.unsigned 4 = ty := Except.ok.inj (Eq.trans rfl hty)
  exact ⟨s₁, m, scope, hdeclare, hlater, hselected, hliteral, hscope, hvar hliteral⟩

/-- A variable with the name of a truth value. In an expression the name is the truth value. -/
theorem exists_declared_constant : ∃ s₁ scope,
    initial.run (.list [.atom "declare-var", .atom "true", .atom "bool"]) = .ok s₁ ∧
      s₁.scope = .ok scope ∧ scope.system.vars = [("true", .bool)] ∧
      scope.expr (.atom "true") = .ok (.truth true) := by
  let declaration : SExpr := .list [.atom "declare-var", .atom "true", .atom "bool"]
  have hrun : (do (← initial.run declaration).scope : Elab Scope).toOption.any
      (fun scope => scope.system.vars = [("true", .bool)]) = true := by decide +kernel
  rcases hscope : (do (← initial.run declaration).scope : Elab Scope) with f | scope <;>
    rw [hscope] at hrun
  · cases hrun
  obtain ⟨s₁, hs₁, hscope⟩ := Elab.bind_eq_ok.1 hscope
  refine ⟨s₁, scope, hs₁, hscope, of_decide_eq_true hrun, ?_⟩
  rw [Scope.expr, Scope.leaf_eq]
  rfl

end Script

end BitUnroll
