import BitUnroll.Expr.Meaning
import BitUnroll.Proofs.Script.Commands

/-!
# Conditions of scripts

A transition system's condition on the first state, and its condition on each transition, is the
conjunction of what the commands added while its module was selected, each as it read when the
command was executed.

## Main definitions

* `Script.history`: the commands of a run, each with the script that it was executed on.
* `Script.conditions`: the conditions that commands added to a module.

## Main statements

* `Script.system_parse`: the conditions of the system that a script selects.
* `Script.truthAt_conjoinAll`: when a condition with added conjuncts is true.
-/

namespace BitUnroll

namespace Script

/-! ## What commands add -/

/-- The commands up to the first failure, each with the script that it is executed on. -/
def history : Script → List SExpr → List (Script × SExpr)
  | _, [] => []
  | s, tree :: rest =>
    (s, tree) ::
      match s.run tree with
      | .ok s' => history s' rest
      | .error _ => []

/-- The commands of a text, each with the script that it is executed on. -/
def commands (text : String) : List (Script × SExpr) :=
  match SExpr.readAll text with
  | .ok trees => initial.history trees
  | .error _ => []

/-- The condition that a command of a name states, as it reads when it is executed. -/
def condition? (s : Script) (name : CommandName) : SExpr → Option Expr
  | .list [.atom head, e] =>
    if CommandName.ofText? head = some name then (do (← s.scope).boolExpr e : Elab Expr).toOption
    else none
  | _ => none

/-- The condition that a command of a name adds to a module, if that module is selected. -/
def added? (name : CommandName) (module : String) (command : Script × SExpr) : Option Expr :=
  if command.1.selected = module then command.1.condition? name command.2 else none

/-- The conditions that commands of a name add to a module, in order. -/
def conditions (name : CommandName) (module : String) (commands : List (Script × SExpr)) :
    List Expr :=
  commands.filterMap (added? name module)

/-- A condition with more conjuncts, one after the other. -/
def conjoinAll (e : Expr) (added : List Expr) : Expr := added.foldl conjoin e

/-- The system of a module, which has no conditions if there is none of that name. -/
def systemOf (s : Script) (module : String) : TransitionSystem :=
  (s.design.get? module).getD { name := module }

/-! ## One command -/

variable {s s' : Script} {tree : SExpr}

theorem systemOf_insert {module name : String} (h : s.design.get? name = none) :
    ((s.design.insert { name := name }).get? module).getD { name := module } =
      s.systemOf module := by
  rw [Design.get?_insert, systemOf]
  split
  · rename_i hname
    subst hname
    rw [h]
    rfl
  · rfl

theorem systemOf_selectModule (s : Script) (name module : String) :
    (s.selectModule name).systemOf module = s.systemOf module := by
  cases h : s.design.get? name with
  | none =>
    have hnone : ¬(s.design.get? name).isSome = true := by simp [h]
    rw [systemOf, selectModule, if_neg hnone]
    exact systemOf_insert h
  | some ts =>
    rw [systemOf, selectModule, if_pos (by simp [h])]
    rfl

theorem systemOf_selected {ts : TransitionSystem} (hts : s.system = .ok ts) :
    s.systemOf s.selected = ts := by
  rw [systemOf, system_eq_ok.1 hts]
  rfl

/-- Changing the selected system changes no other one. -/
theorem systemOf_modify {ts : TransitionSystem} (hts : s.system = .ok ts)
    (f : TransitionSystem → TransitionSystem) (module : String) :
    ((s.design.modify s.selected f).get? module).getD { name := module } =
      if s.selected = module then f (s.systemOf module) else s.systemOf module := by
  rw [Design.get?_modify]
  split
  · rename_i hmodule
    subst hmodule
    rw [systemOf_selected hts, system_eq_ok.1 hts]
    rfl
  · rfl

/-- What a command does to the conditions of a module. -/
def Adds (s : Script) (tree : SExpr) (s' : Script) : Prop :=
  ∀ module,
    (s'.systemOf module).init =
      conjoinAll (s.systemOf module).init (added? .init module (s, tree)).toList ∧
    (s'.systemOf module).trans =
      conjoinAll (s.systemOf module).trans (added? .trans module (s, tree)).toList

/-- A command of another name adds no condition. -/
theorem added?_eq_none {name other : CommandName} {module head : String} {args : List SExpr}
    (hhead : CommandName.ofText? head = some other) (hne : other ≠ name) :
    added? name module (s, .list (.atom head :: args)) = none := by
  unfold added? condition?
  split
  · split
    · rename_i heq
      cases heq
      rw [if_neg]
      rw [hhead]
      simpa using hne
    · rfl
  · rfl

/-- A command of a name adds the condition that it reads. -/
theorem added?_eq_some {name : CommandName} {module head : String} {arg : SExpr} {scope : Scope}
    {e : Expr} (hhead : CommandName.ofText? head = some name) (hscope : s.scope = .ok scope)
    (he : scope.boolExpr arg = .ok e) :
    added? name module (s, .list [.atom head, arg]) =
      if s.selected = module then some e else none := by
  unfold added? condition?
  simp only [hhead, hscope, if_true]
  show (if _ then Except.toOption (scope.boolExpr arg) else none) = _
  rw [he]
  rfl

/-- A command that leaves all conditions as they are. -/
theorem adds_of_systemOf_eq {head : String} {args : List SExpr} {name : CommandName}
    (hhead : CommandName.ofText? head = some name) (hinit : name ≠ .init) (htrans : name ≠ .trans)
    (h : ∀ module, (s'.systemOf module).init = (s.systemOf module).init ∧
      (s'.systemOf module).trans = (s.systemOf module).trans) :
    s.Adds (.list (.atom head :: args)) s' := by
  intro module
  rw [added?_eq_none hhead hinit, added?_eq_none hhead htrans]
  exact h module

/-- A command that changes the selected system. -/
theorem systemOf_of_modify {ts : TransitionSystem} (hts : s.system = .ok ts)
    {f : TransitionSystem → TransitionSystem}
    (hs' : s'.design = s.design.modify s.selected f) (module : String) :
    s'.systemOf module = if s.selected = module then f (s.systemOf module)
      else s.systemOf module := by
  rw [systemOf, hs']
  exact systemOf_modify hts f module

/-- What a command adds to the conditions of a module, whatever the command. -/
theorem Effect.adds {head : String} {args : List SExpr} {name : CommandName}
    (hhead : CommandName.ofText? head = some name) (h : s.Effect name args s') :
    s.Adds (.list (.atom head :: args)) s' := by
  cases h with
  | module other =>
    refine adds_of_systemOf_eq hhead (by decide) (by decide) fun module => ?_
    rw [systemOf_selectModule]
    exact ⟨rfl, rfl⟩
  | typedef | constraint | convert =>
    exact adds_of_systemOf_eq hhead (by decide) (by decide) fun module => ⟨rfl, rfl⟩
  | declareVar hts =>
    refine adds_of_systemOf_eq hhead (by decide) (by decide) fun module => ?_
    rw [systemOf_of_modify hts rfl]
    split <;> exact ⟨rfl, rfl⟩
  | init hts he | trans hts he =>
    intro module
    rw [systemOf_of_modify hts rfl, added?_eq_some hhead (scope_eq_ok.2 ⟨_, hts, rfl⟩) he,
      added?_eq_none hhead (by decide)]
    split <;> exact ⟨rfl, rfl⟩

/-- What a command adds to the conditions of a module. -/
theorem adds_of_run (h : s.run tree = .ok s') : s.Adds tree s' := by
  obtain ⟨head, name, args, rfl, hname, heffect⟩ := run_eq_ok_iff.1 h
  exact heffect.adds hname

/-! ## A whole run -/

/-- A run adds the conditions of its commands, in order. -/
theorem systemOf_runAll {trees : List SExpr} (h : s.runAll trees = .ok s') (module : String) :
    (s'.systemOf module).init =
      conjoinAll (s.systemOf module).init (conditions .init module (s.history trees)) ∧
    (s'.systemOf module).trans =
      conjoinAll (s.systemOf module).trans (conditions .trans module (s.history trees)) := by
  induction trees generalizing s with
  | nil =>
    cases h
    exact ⟨rfl, rfl⟩
  | cons tree trees ih =>
    obtain ⟨s₁, hrun, h⟩ := runAll_cons_eq_ok.1 h
    obtain ⟨hinit, htrans⟩ := adds_of_run hrun module
    obtain ⟨hinit', htrans'⟩ := ih h
    rw [hinit', htrans', hinit, htrans]
    simp only [history, hrun, conditions, List.filterMap_cons, conjoinAll]
    constructor <;> split <;> simp_all

/-- The system that a script selects has the conditions that the commands of its text added to
it. -/
theorem system_parse {text : String} (h : parse text = .ok s) {ts : TransitionSystem}
    (hts : s.system = .ok ts) :
    ts.init = conjoinAll (.truth true) (conditions .init s.selected (commands text)) ∧
    ts.trans = conjoinAll (.truth true) (conditions .trans s.selected (commands text)) := by
  have hinitial : ∀ module, (initial.systemOf module).init = .truth true ∧
      (initial.systemOf module).trans = .truth true := by
    intro module
    rw [systemOf]
    simp only [initial, Design.get?_insert, Design.get?_empty]
    split <;> exact ⟨rfl, rfl⟩
  unfold parse at h
  split at h
  · rename_i trees htrees
    obtain ⟨hinit, htrans⟩ := systemOf_runAll h s.selected
    rw [systemOf_selected hts, (hinitial _).1] at hinit
    rw [systemOf_selected hts, (hinitial _).2] at htrans
    rw [commands, htrees]
    exact ⟨hinit, htrans⟩
  · cases h

/-! ## When conditions are true -/

variable {types : TypeTable} {trace : Trace} {frame : Frame}

/-- A condition with one more conjunct is true if the condition and the conjunct are. -/
theorem truthAt_conjoin (e added : Expr) : (conjoin e added).truthAt types trace frame =
    (e.truthAt types trace frame && added.truthAt types trace frame) := by
  unfold conjoin
  split
  · rename_i he
    obtain ⟨kind, ty, es⟩ := e
    obtain rfl : kind = .truth true := he
    exact (Bool.true_and _).symm
  · rename_i he
    rw [Expr.truthAt_of_conjunction rfl, Expr.truthAt_of_conjunction he]
    simp [Expr.conjunction]
  · rw [Expr.truthAt_of_conjunction rfl]
    simp [Expr.conjunction]

theorem truthAt_conjoinAll (e : Expr) (added : List Expr) :
    (conjoinAll e added).truthAt types trace frame =
      (e.truthAt types trace frame && added.all (·.truthAt types trace frame)) := by
  induction added generalizing e with
  | nil => simp [conjoinAll]
  | cons x added ih =>
    have hfirst := ih (conjoin e x)
    rw [truthAt_conjoin] at hfirst
    rw [List.all_cons, ← Bool.and_assoc, ← hfirst]
    rfl

end Script

end BitUnroll
