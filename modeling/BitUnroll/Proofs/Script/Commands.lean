import BitUnroll.Script.Basic

/-!
# What commands do

A command is executed if its arguments have the right shape and what they read as passes the
command's checks; then it has one effect on the script. `Script.Effect` lists the commands with
their checks and effects.

## Main definitions

* `Script.Effect`: what a command makes of a script.
* `Script.IsCommand`: a tree is a command of a name.
* `Script.Every`: the systems of all modules have a property.

## Main statements

* `Script.execute_eq_ok_iff`, `Script.run_eq_ok_iff`: commands are executed with their effects.
* `Script.runAll_induction`: what every command keeps is kept by a run.
-/

namespace BitUnroll

namespace Elab

/-- A computation on results of reading a script succeeds if both of its parts do. -/
theorem bind_eq_ok {α β : Type} {x : Elab α} {f : α → Elab β} {b : β} :
    x >>= f = .ok b ↔ ∃ a, x = .ok a ∧ f a = .ok b := by
  cases x with
  | error e =>
    constructor
    · intro h
      cases h
    · rintro ⟨_, h, _⟩
      cases h
  | ok a =>
    constructor
    · intro h
      exact ⟨a, rfl, h⟩
    · rintro ⟨a', h, h'⟩
      cases h
      exact h'

theorem atom_eq_ok {tree : SExpr} {name : String} : atom tree = .ok name ↔ tree = .atom name := by
  constructor
  · intro h
    cases tree with
    | atom other =>
      cases h
      rfl
    | list items => cases h
  · rintro rfl
    rfl

theorem within_eq_ok {α : Type} {context : FailureContext} {x : Elab α} {a : α} :
    within context x = .ok a ↔ x = .ok a := by
  cases x with
  | ok b => exact Iff.rfl
  | error f => exact ⟨(fun h => nomatch h), (fun h => nomatch h)⟩

end Elab

namespace Script

variable {s s' : Script} {name : CommandName} {args : List SExpr} {tree : SExpr}

theorem system_eq_ok {ts : TransitionSystem} :
    s.system = .ok ts ↔ s.design.get? s.selected = some ts := by
  unfold system
  cases s.design.get? s.selected with
  | some other => simp
  | none => exact ⟨(fun h => nomatch h), (fun h => nomatch h)⟩

theorem scope_eq_ok {scope : Scope} :
    s.scope = .ok scope ↔ ∃ ts, s.system = .ok ts ∧ scope = ⟨s.types, ts⟩ := by
  constructor
  · intro h
    obtain ⟨ts, hts, h⟩ := Elab.bind_eq_ok.1 h
    cases h
    exact ⟨ts, hts, rfl⟩
  · rintro ⟨ts, hts, rfl⟩
    exact Elab.bind_eq_ok.2 ⟨ts, hts, rfl⟩

/-- A script whose selected system was changed. -/
def modified (s : Script) (f : TransitionSystem → TransitionSystem) : Script :=
  { s with design := s.design.modify s.selected f }

/-- What a command of a name with arguments makes of a script. -/
inductive Effect (s : Script) : CommandName → List SExpr → Script → Prop
  | module (module : String) : Effect s .module [.atom module] (s.selectModule module)
  | typedef {ts : TransitionSystem} (hts : s.system = .ok ts) {tree : SExpr} {ty : Ty}
    (hty : (⟨s.types, ts⟩ : Scope).type tree = .ok ty) (type : String) :
    Effect s .typedef [.atom type, tree] { s with types := s.types.insert type ty }
  | declareVar {ts : TransitionSystem} (hts : s.system = .ok ts) {tree : SExpr} {ty : Ty}
    (hty : (⟨s.types, ts⟩ : Scope).type tree = .ok ty) {var : String}
    (hvar : ts.var? var = none) :
    Effect s .declareVar [.atom var, tree] (s.modified (·.addVar var ty))
  | init {ts : TransitionSystem} (hts : s.system = .ok ts) {tree : SExpr} {e : Expr}
    (he : (⟨s.types, ts⟩ : Scope).boolExpr tree = .ok e) :
    Effect s .init [tree] (s.modified fun ts => { ts with init := conjoin ts.init e })
  | trans {ts : TransitionSystem} (hts : s.system = .ok ts) {tree : SExpr} {e : Expr}
    (he : (⟨s.types, ts⟩ : Scope).boolExpr tree = .ok e) :
    Effect s .trans [tree] (s.modified fun ts => { ts with trans := conjoin ts.trans e })
  | constraint {ts : TransitionSystem} (hts : s.system = .ok ts) {tree : SExpr} {e : Expr}
    (he : (⟨s.types, ts⟩ : Scope).boolExpr tree = .ok e) {rest : List SExpr} {f : Frame}
    (hframe : frame .constraint rest = .ok f) :
    Effect s .constraint (tree :: rest) { s with constraints := s.constraints.push ⟨e, f⟩ }
  | convert {ts : TransitionSystem} (hts : s.system = .ok ts) {tree : SExpr} {e : Expr}
    (he : (⟨s.types, ts⟩ : Scope).expr tree = .ok e) {rest : List SExpr} {f : Frame}
    (hframe : frame .convert rest = .ok f) (name : String) :
    Effect s .convert (.atom name :: tree :: rest)
      { s with conversions := s.conversions.push ⟨name, e, f⟩ }

/-- A command that is executed passed its checks. -/
theorem effect_of_execute (h : s.execute name args = .ok s') : s.Effect name args s' := by
  unfold execute at h
  split at h
  · obtain ⟨module, hmodule, h⟩ := Elab.bind_eq_ok.1 h
    cases h
    obtain rfl := Elab.atom_eq_ok.1 hmodule
    exact .module module
  · obtain ⟨scope, hscope, h⟩ := Elab.bind_eq_ok.1 h
    obtain ⟨ty, hty, h⟩ := Elab.bind_eq_ok.1 h
    obtain ⟨type, htype, h⟩ := Elab.bind_eq_ok.1 h
    cases h
    obtain ⟨ts, hts, rfl⟩ := scope_eq_ok.1 hscope
    obtain rfl := Elab.atom_eq_ok.1 htype
    exact .typedef hts hty type
  · obtain ⟨var, hatom, h⟩ := Elab.bind_eq_ok.1 h
    obtain ⟨scope, hscope, h⟩ := Elab.bind_eq_ok.1 h
    obtain ⟨ty, hty, h⟩ := Elab.bind_eq_ok.1 h
    dsimp only at h
    split at h
    · cases h
    · rename_i hvar
      cases h
      obtain ⟨ts, hts, rfl⟩ := scope_eq_ok.1 hscope
      obtain rfl := Elab.atom_eq_ok.1 hatom
      exact .declareVar hts hty (Option.not_isSome_iff_eq_none.1 hvar)
  · obtain ⟨scope, hscope, h⟩ := Elab.bind_eq_ok.1 h
    obtain ⟨e, he, h⟩ := Elab.bind_eq_ok.1 h
    cases h
    obtain ⟨ts, hts, rfl⟩ := scope_eq_ok.1 hscope
    exact .init hts he
  · obtain ⟨scope, hscope, h⟩ := Elab.bind_eq_ok.1 h
    obtain ⟨e, he, h⟩ := Elab.bind_eq_ok.1 h
    cases h
    obtain ⟨ts, hts, rfl⟩ := scope_eq_ok.1 hscope
    exact .trans hts he
  · obtain ⟨f, hframe, h⟩ := Elab.bind_eq_ok.1 h
    obtain ⟨scope, hscope, h⟩ := Elab.bind_eq_ok.1 h
    obtain ⟨e, he, h⟩ := Elab.bind_eq_ok.1 h
    cases h
    obtain ⟨ts, hts, rfl⟩ := scope_eq_ok.1 hscope
    exact .constraint hts he hframe
  · obtain ⟨f, hframe, h⟩ := Elab.bind_eq_ok.1 h
    obtain ⟨name, hname, h⟩ := Elab.bind_eq_ok.1 h
    obtain ⟨scope, hscope, h⟩ := Elab.bind_eq_ok.1 h
    obtain ⟨e, he, h⟩ := Elab.bind_eq_ok.1 h
    cases h
    obtain ⟨ts, hts, rfl⟩ := scope_eq_ok.1 hscope
    obtain rfl := Elab.atom_eq_ok.1 hname
    exact .convert hts he hframe name
  · cases h

/-- A command whose checks are passed is executed. -/
theorem Effect.execute_eq (h : s.Effect name args s') : s.execute name args = .ok s' := by
  have hscope : ∀ {ts}, s.system = .ok ts → s.scope = .ok ⟨s.types, ts⟩ :=
    fun hts => scope_eq_ok.2 ⟨_, hts, rfl⟩
  cases h with
  | module => rfl
  | typedef hts hty type =>
    exact Elab.bind_eq_ok.2 ⟨_, hscope hts, Elab.bind_eq_ok.2 ⟨_, hty, rfl⟩⟩
  | declareVar hts hty hvar =>
    refine Elab.bind_eq_ok.2 ⟨_, rfl, Elab.bind_eq_ok.2 ⟨_, hscope hts,
      Elab.bind_eq_ok.2 ⟨_, hty, ?_⟩⟩⟩
    dsimp only
    rw [hvar]
    rfl
  | init hts he | trans hts he =>
    exact Elab.bind_eq_ok.2 ⟨_, hscope hts, Elab.bind_eq_ok.2 ⟨_, he, rfl⟩⟩
  | constraint hts he hframe =>
    exact Elab.bind_eq_ok.2 ⟨_, hframe, Elab.bind_eq_ok.2 ⟨_, hscope hts,
      Elab.bind_eq_ok.2 ⟨_, he, rfl⟩⟩⟩
  | convert hts he hframe name =>
    exact Elab.bind_eq_ok.2 ⟨_, hframe, Elab.bind_eq_ok.2 ⟨_, rfl,
      Elab.bind_eq_ok.2 ⟨_, hscope hts, Elab.bind_eq_ok.2 ⟨_, he, rfl⟩⟩⟩⟩

theorem execute_eq_ok_iff : s.execute name args = .ok s' ↔ s.Effect name args s' :=
  ⟨effect_of_execute, Effect.execute_eq⟩

/-- A tree that is executed is a command of a name with arguments, and has its effect. -/
theorem run_eq_ok_iff : s.run tree = .ok s' ↔ ∃ head name args, tree = .list (.atom head :: args) ∧
    CommandName.ofText? head = some name ∧ s.Effect name args s' := by
  rw [run, Elab.within_eq_ok]
  constructor
  · intro h
    unfold command at h
    split at h
    · cases h
    · cases h
    · obtain ⟨head, hhead, hexecute⟩ := Elab.bind_eq_ok.1 h
      obtain rfl := Elab.atom_eq_ok.1 hhead
      split at hexecute
      · exact ⟨head, _, _, rfl, ‹_›, execute_eq_ok_iff.1 hexecute⟩
      · cases hexecute
  · rintro ⟨head, name, args, rfl, hname, heffect⟩
    refine Elab.bind_eq_ok.2 ⟨head, rfl, ?_⟩
    rw [hname]
    exact execute_eq_ok_iff.2 heffect

/-- A tree is a command of a name. -/
def IsCommand (name : CommandName) : SExpr → Prop
  | .list (.atom head :: _) => CommandName.ofText? head = some name
  | _ => False

instance (name : CommandName) (tree : SExpr) : Decidable (IsCommand name tree) :=
  match tree with
  | .list (.atom head :: _) => inferInstanceAs (Decidable (CommandName.ofText? head = some name))
  | .list (.list _ :: _) | .list [] | .atom _ => .isFalse id

/-- A command that is executed has one name. -/
theorem isCommand_iff {head : String} (hname : CommandName.ofText? head = some name)
    {other : CommandName} : IsCommand other (.list (.atom head :: args)) ↔ name = other := by
  show CommandName.ofText? head = some other ↔ _
  rw [hname, Option.some.injEq]

/-- Commands are executed one after the other. -/
theorem runAll_cons_eq_ok {trees : List SExpr} : s.runAll (tree :: trees) = .ok s' ↔
    ∃ s₁, s.run tree = .ok s₁ ∧ s₁.runAll trees = .ok s' := by
  rw [runAll, List.foldlM_cons]
  exact Elab.bind_eq_ok

/-- What every command keeps is kept by a run. -/
theorem runAll_induction {I : Script → Prop}
    (hstep : ∀ {s s' name args}, s.Effect name args s' → I s → I s') {trees : List SExpr}
    (h : s.runAll trees = .ok s') (hs : I s) : I s' := by
  induction trees generalizing s with
  | nil =>
    cases h
    exact hs
  | cons tree trees ih =>
    obtain ⟨s₁, hrun, h⟩ := runAll_cons_eq_ok.1 h
    obtain ⟨head, name, args, -, -, heffect⟩ := run_eq_ok_iff.1 hrun
    exact ih h (hstep heffect hs)

/-! ## Systems of a script -/

/-- The systems of all modules have a property. -/
def Every (P : TransitionSystem → Prop) (s : Script) : Prop :=
  ∀ module ts, s.design.get? module = some ts → P ts

variable {P : TransitionSystem → Prop}

theorem every_insert {design : Design} {ts : TransitionSystem}
    (h : ∀ module ts, design.get? module = some ts → P ts) (hts : P ts) :
    ∀ module ts', (design.insert ts).get? module = some ts' → P ts' := by
  intro module ts' hts'
  rw [Design.get?_insert] at hts'
  split at hts'
  · cases hts'
    exact hts
  · exact h module ts' hts'

theorem every_initial (h : P { name := defaultModule }) : initial.Every P :=
  every_insert (fun module ts hts => by simp at hts) h

/-- A module that is selected is one of those before or is new. -/
theorem Every.selectModule (hs : s.Every P) (hnew : ∀ name, P { name := name }) (name : String) :
    (s.selectModule name).Every P := by
  intro module ts hts
  unfold Script.selectModule at hts
  dsimp only at hts
  split at hts
  · exact hs module ts hts
  · exact every_insert hs (hnew name) module ts hts

/-- A property that the selected system keeps when it is changed. -/
theorem Every.modified (hs : s.Every P) {ts : TransitionSystem} (hts : s.system = .ok ts)
    {f : TransitionSystem → TransitionSystem} (hf : P ts → P (f ts)) : (s.modified f).Every P := by
  intro module ts' hts'
  rw [Script.modified, Design.get?_modify] at hts'
  split at hts'
  · rename_i hmodule
    subst hmodule
    rw [system_eq_ok.1 hts] at hts'
    cases hts'
    exact hf (hs _ _ (system_eq_ok.1 hts))
  · exact hs module ts' hts'

end Script

end BitUnroll
