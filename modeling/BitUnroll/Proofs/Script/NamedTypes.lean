import BitUnroll.Proofs.Script.Scoping

/-!
# Named types of scripts

Variables and expressions keep the names of their types, and what the names stand for is looked up
again whenever the type is asked for. New names change nothing for the types that are in use, since
these go through known names only. What can change them is a `typedef` that gives another type to a
known name, which the command does not refuse.

## Main definitions

* `TypeTable.names`: the names that a type goes through.
* `Script.Uses`: the types of a script's variables and expressions.
* `Script.retypedNames`: the names that commands give another type.

## Main statements

* `Script.type_stable`: a type whose names keep their types is the same at the end of a script.
-/

namespace BitUnroll

namespace TypeTable

variable {table table' : TypeTable} {name : String} {ty : Ty}

/-! ## Chains of names -/

/-- The names on a chain of at most `steps` steps. -/
def namesFor (table : TypeTable) : Nat → Ty → List String
  | steps + 1, .named name =>
    match table.lookup? name with
    | some ty => name :: namesFor table steps ty
    | none => [name]
  | _, _ => []

/-- The names that are looked up when a type is followed. -/
def names (table : TypeTable) (ty : Ty) : List String := table.namesFor depth ty

theorem followFor_named (table : TypeTable) (steps : Nat) (name : String) :
    table.followFor (steps + 1) (.named name) =
      match table.lookup? name with
      | some ty => table.followFor steps ty
      | none => .named name := rfl

theorem followFor_congr {steps : Nat}
    (h : ∀ name ∈ table.namesFor steps ty, table'.lookup? name = table.lookup? name) :
    table'.followFor steps ty = table.followFor steps ty := by
  induction steps generalizing ty with
  | zero => rfl
  | succ steps ih =>
    cases ty with
    | named name =>
      rw [followFor_named, followFor_named]
      unfold namesFor at h
      cases hname : table.lookup? name with
      | none =>
        rw [hname] at h
        rw [h name (List.mem_singleton.2 rfl), hname]
      | some next =>
        rw [hname] at h
        obtain ⟨hfirst, hrest⟩ := List.forall_mem_cons.1 h
        rw [hfirst, hname]
        exact ih hrest
    | bool | unsigned | signed | plain | integer | natural | empty => rfl

/-- A type is the same in two tables if the names that it goes through are. -/
theorem follow_congr (h : ∀ name ∈ table.names ty, table'.lookup? name = table.lookup? name) :
    table'.follow ty = table.follow ty := followFor_congr h

/-! ## Known types -/

/-- A type that is not the name of an unknown type. -/
def Knows (table : TypeTable) : Ty → Prop
  | .named name => (table.lookup? name).isSome
  | _ => True

/-- Known names stand for known types. -/
def Complete (table : TypeTable) : Prop :=
  ∀ name ty, table.lookup? name = some ty → table.Knows ty

theorem Knows.insert (h : table.Knows ty) (name : String) (new : Ty) :
    (table.insert name new).Knows ty := by
  cases ty with
  | named other =>
    show ((table.insert name new).lookup? other).isSome
    rw [lookup?_insert]
    split
    · rfl
    · exact h
  | bool | unsigned | signed | plain | integer | natural | empty => trivial

theorem Complete.insert (h : table.Complete) (hty : table.Knows ty) (name : String) :
    (table.insert name ty).Complete := by
  intro other ty' hother
  rw [lookup?_insert] at hother
  split at hother
  · cases hother
    exact hty.insert name ty
  · exact (h other ty' hother).insert name ty

/-- A known type goes through known names only. -/
theorem isSome_of_mem_namesFor (htable : table.Complete) {steps : Nat} (hty : table.Knows ty)
    (hname : name ∈ table.namesFor steps ty) : (table.lookup? name).isSome := by
  induction steps generalizing ty with
  | zero => cases hname
  | succ steps ih =>
    cases ty with
    | named other =>
      unfold namesFor at hname
      cases hother : table.lookup? other with
      | none =>
        rw [hother] at hname
        exact List.mem_singleton.1 hname ▸ hty
      | some next =>
        rw [hother] at hname
        rcases List.mem_cons.1 hname with rfl | hrest
        · exact hty
        · exact ih (htable other next hother) hrest
    | bool | unsigned | signed | plain | integer | natural | empty => cases hname

end TypeTable

/-! ## Types of expressions -/

/-- All types in an expression are known. -/
def Expr.Typed (table : TypeTable) (e : Expr) : Prop :=
  ∀ x, Expr.Subterm x e → table.Knows x.ty

/-- All types of a system are known. -/
structure TransitionSystem.Typed (table : TypeTable) (ts : TransitionSystem) : Prop where
  vars : ∀ v ∈ ts.vars, table.Knows v.2
  init : ts.init.Typed table
  trans : ts.trans.Typed table

namespace Expr

variable {table : TypeTable} {e : Expr}

theorem typed_node {kind : Kind} {ty : Ty} {es : List Expr} :
    (node kind ty es).Typed table ↔ table.Knows ty ∧ ∀ e ∈ es, e.Typed table :=
  forall_subterm_node

theorem Typed.insert (h : e.Typed table) (name : String) (ty : Ty) :
    e.Typed (table.insert name ty) :=
  fun x hx => (h x hx).insert name ty

theorem typed_leaf {kind : Kind} {ty : Ty} (h : table.Knows ty) :
    (node kind ty []).Typed table :=
  typed_node.2 ⟨h, by simp⟩

theorem typed_conjunction {es : List Expr} (h : ∀ e ∈ es, e.Typed table) :
    (conjunction es).Typed table :=
  typed_node.2 ⟨trivial, h⟩

end Expr

theorem TransitionSystem.Typed.insert {table : TypeTable} {ts : TransitionSystem}
    (h : ts.Typed table) (name : String) (ty : Ty) : ts.Typed (table.insert name ty) :=
  ⟨fun v hv => (h.vars v hv).insert name ty, h.init.insert name ty, h.trans.insert name ty⟩

namespace Scope

variable {scope : Scope} {tree : SExpr} {ty : Ty} {e : Expr}

theorem knows_wordType {table : TypeTable} {width : Nat} {kind : String}
    (h : wordType width kind = .ok ty) : table.Knows ty := by
  unfold wordType at h
  split at h <;> cases h <;> trivial

/-- A type that is read is known. -/
theorem knows_type (h : scope.type tree = .ok ty) : scope.types.Knows ty := by
  unfold type at h
  split at h
  · cases h
    trivial
  · cases h
    trivial
  · cases h
    trivial
  · split at h
    · cases h
      assumption
    · cases h
  · obtain ⟨text, -, h⟩ := Elab.bind_eq_ok.1 h
    obtain ⟨width, -, h⟩ := Elab.bind_eq_ok.1 h
    dsimp only at h
    split at h
    · cases h
    · obtain ⟨kind, -, h⟩ := Elab.bind_eq_ok.1 h
      exact knows_wordType h
  · cases h

/-- The types in an expression are those of the variables that it is built from, and known ones. -/
theorem Builds.typed (h : scope.Builds e) (hvars : ∀ v ∈ scope.system.vars, scope.types.Knows v.2) :
    e.Typed scope.types := by
  induction h with
  | truth | number | absent => exact Expr.typed_leaf trivial
  | retyped n _ ih => exact Expr.typed_leaf (ih _ .self)
  | symbol hvar => exact Expr.typed_leaf (hvars _ hvar)
  | next _ _ ih => exact Expr.typed_leaf (ih _ .self)
  | node _ hty _ _ ih =>
    refine Expr.typed_node.2 ⟨?_, ih⟩
    rcases hty with rfl | ⟨width, rfl⟩ | ⟨e, he, rfl⟩
    · trivial
    · trivial
    · exact ih e he e .self

end Scope

namespace Script

variable {s s' : Script} {name : CommandName} {args : List SExpr} {tree : SExpr}
  {trees : List SExpr} {ty : Ty}

/-! ## Types in use -/

/-- The types of a script's variables, of its modules' conditions, and of what it lists. -/
inductive Uses (s : Script) : Ty → Prop
  | var {module : String} {ts : TransitionSystem} (hts : s.design.get? module = some ts)
    {v : String × Ty} (hv : v ∈ ts.vars) : Uses s v.2
  | init {module : String} {ts : TransitionSystem} (hts : s.design.get? module = some ts)
    {x : Expr} (hx : x.Subterm ts.init) : Uses s x.ty
  | trans {module : String} {ts : TransitionSystem} (hts : s.design.get? module = some ts)
    {x : Expr} (hx : x.Subterm ts.trans) : Uses s x.ty
  | constraint {c : Constraint} (hc : c ∈ s.constraints) {x : Expr} (hx : x.Subterm c.expr) :
    Uses s x.ty
  | conversion {c : Conversion} (hc : c ∈ s.conversions) {x : Expr} (hx : x.Subterm c.expr) :
    Uses s x.ty

/-- All types of a script are known. -/
structure Typed (s : Script) : Prop where
  types : s.types.Complete
  systems : s.Every (TransitionSystem.Typed s.types)
  constraints : ∀ c ∈ s.constraints, c.expr.Typed s.types
  conversions : ∀ c ∈ s.conversions, c.expr.Typed s.types

theorem Typed.knows (hs : s.Typed) (h : s.Uses ty) : s.types.Knows ty := by
  cases h with
  | var hts hv => exact (hs.systems _ _ hts).vars _ hv
  | init hts hx => exact (hs.systems _ _ hts).init _ hx
  | trans hts hx => exact (hs.systems _ _ hts).trans _ hx
  | constraint hc hx => exact hs.constraints _ hc _ hx
  | conversion hc hx => exact hs.conversions _ hc _ hx

theorem typed_conjoin {table : TypeTable} {e added : Expr} (he : e.Typed table)
    (hadded : added.Typed table) : (conjoin e added).Typed table := by
  refine conjoin_induction (fun _ => Expr.typed_conjunction) ?_ he hadded
  obtain ⟨kind, ty, es⟩ := e
  exact (Expr.typed_node.1 he).2

theorem typed_initial : initial.Typed where
  types _ _ h := by simp [initial] at h
  systems := every_initial
    ⟨by simp, Expr.typed_leaf trivial, Expr.typed_leaf trivial⟩
  constraints := by simp [initial]
  conversions := by simp [initial]

theorem Effect.typed (h : s.Effect name args s') (hs : s.Typed) : s'.Typed := by
  have hvars : ∀ {ts : TransitionSystem}, s.system = .ok ts → ∀ v ∈ ts.vars, s.types.Knows v.2 :=
    fun hts => (hs.systems _ _ (system_eq_ok.1 hts)).vars
  cases h with
  | module other =>
    exact ⟨hs.types,
      hs.systems.selectModule (fun _ => ⟨by simp, Expr.typed_leaf trivial, Expr.typed_leaf trivial⟩)
        other,
      hs.constraints, hs.conversions⟩
  | typedef hts hty type =>
    exact ⟨hs.types.insert (Scope.knows_type hty) type,
      fun module ts hts => (hs.systems module ts hts).insert type _,
      fun c hc => (hs.constraints c hc).insert type _,
      fun c hc => (hs.conversions c hc).insert type _⟩
  | declareVar hts hty hvar =>
    refine ⟨hs.types, hs.systems.modified hts fun htyped => ⟨?_, htyped.init, htyped.trans⟩,
      hs.constraints, hs.conversions⟩
    intro v hv
    rcases List.mem_append.1 hv with hv | hv
    · exact htyped.vars v hv
    · obtain rfl := List.mem_singleton.1 hv
      exact Scope.knows_type hty
  | init hts he =>
    have he := (Scope.builds_boolExpr he).typed (hvars hts)
    exact ⟨hs.types, hs.systems.modified hts fun htyped =>
      ⟨htyped.vars, typed_conjoin htyped.init he, htyped.trans⟩, hs.constraints, hs.conversions⟩
  | trans hts he =>
    have he := (Scope.builds_boolExpr he).typed (hvars hts)
    exact ⟨hs.types, hs.systems.modified hts fun htyped =>
      ⟨htyped.vars, htyped.init, typed_conjoin htyped.trans he⟩, hs.constraints, hs.conversions⟩
  | constraint hts he =>
    refine ⟨hs.types, hs.systems, fun c hc => ?_, hs.conversions⟩
    rcases Array.mem_push.1 hc with hc | rfl
    · exact hs.constraints c hc
    · exact (Scope.builds_boolExpr he).typed (hvars hts)
  | convert hts he =>
    refine ⟨hs.types, hs.systems, hs.constraints, fun c hc => ?_⟩
    rcases Array.mem_push.1 hc with hc | rfl
    · exact hs.conversions c hc
    · exact (Scope.builds_expr _ _ _ he).typed (hvars hts)

/-! ## Names that are given another type -/

/-- The name that a command gives another type than it had. -/
def retyped? (command : Script × SExpr) : Option String :=
  match command.2 with
  | .list [.atom head, .atom name, type] =>
    if CommandName.ofText? head = some .typedef then
      match command.1.types.lookup? name,
          (do (← command.1.scope).type type : Elab Ty).toOption with
      | some old, some new => if old = new then none else some name
      | _, _ => none
    else none
  | _ => none

/-- The names that commands give another type than they had. -/
def retypedNames (commands : List (Script × SExpr)) : List String :=
  commands.filterMap retyped?

/-- A known name that a command does not give another type keeps its type. -/
theorem lookup?_of_run {type : String} {old : Ty} (h : s.run tree = .ok s')
    (hold : s.types.lookup? type = some old) (hkept : retyped? (s, tree) ≠ some type) :
    s'.types.lookup? type = some old := by
  obtain ⟨head, name, args, rfl, hname, heffect⟩ := run_eq_ok_iff.1 h
  cases heffect with
  | module | declareVar | init | trans | constraint | convert => exact hold
  | @typedef ts hts tree new hnew other =>
    show (s.types.insert other new).lookup? type = some old
    rw [TypeTable.lookup?_insert]
    split
    · -- the name itself: it is given the type that it has
      rename_i hother
      subst hother
      have hscope : (do (← s.scope).type tree : Elab Ty) = .ok new :=
        Elab.bind_eq_ok.2 ⟨_, scope_eq_ok.2 ⟨ts, hts, rfl⟩, hnew⟩
      simp only [retyped?, hname, hold, hscope] at hkept
      by_cases heq : old = new
      · rw [heq]
      · exact absurd (if_neg heq) hkept
    · exact hold

theorem lookup?_of_runAll {type : String} {old : Ty} (h : s.runAll trees = .ok s')
    (hold : s.types.lookup? type = some old) (hkept : type ∉ retypedNames (s.history trees)) :
    s'.types.lookup? type = some old := by
  induction trees generalizing s with
  | nil =>
    cases h
    exact hold
  | cons tree trees ih =>
    obtain ⟨s₁, hrun, hrest, hhistory⟩ := runAll_cons h
    rw [hhistory, retypedNames, List.mem_filterMap] at hkept
    refine ih hrest (lookup?_of_run hrun hold fun hfirst => ?_) fun hlater => ?_
    · exact hkept ⟨_, List.mem_cons_self, hfirst⟩
    · obtain ⟨command, hcommand, hretyped⟩ := List.mem_filterMap.1 hlater
      exact hkept ⟨command, List.mem_cons_of_mem _ hcommand, hretyped⟩

/-! ## Whole scripts -/

/-- **Types are stable as long as their names are.** A type of a variable or of an expression that
the first commands of a script led to has the same width at the end of the script, is signed or not,
and is Boolean or not, as it was for these commands, as long as no later command gives another type
to a name that the type goes through. -/
theorem type_stable {text : String} {before after : List SExpr} {m : Script}
    (hread : SExpr.readAll text = .ok (before ++ after)) (hm : initial.runAll before = .ok m)
    (hs : parse text = .ok s) (hty : m.Uses ty)
    (hkept : ∀ type ∈ m.types.names ty, type ∉ retypedNames (m.history after)) :
    s.types.width ty = m.types.width ty ∧ s.types.isSigned ty = m.types.isSigned ty ∧
      s.types.isBool ty = m.types.isBool ty := by
  have hafter : m.runAll after = .ok s := by
    rw [parse, hread] at hs
    dsimp only at hs
    rw [runAll, List.foldlM_append] at hs
    obtain ⟨m', hm', hafter⟩ := Elab.bind_eq_ok.1 hs
    rw [← runAll, hm] at hm'
    cases hm'
    exact hafter
  have htyped : m.Typed := runAll_induction Effect.typed hm typed_initial
  -- the names on the chain were known, and known names are kept
  have hfollow : s.types.follow ty = m.types.follow ty := by
    refine TypeTable.follow_congr fun type htype => ?_
    have hknown := TypeTable.isSome_of_mem_namesFor htyped.types (htyped.knows hty) htype
    obtain ⟨old, hold⟩ := Option.isSome_iff_exists.1 hknown
    rw [hold]
    exact lookup?_of_runAll hafter hold (hkept type htype)
  simp only [TypeTable.width, TypeTable.isSigned, TypeTable.isBool, hfollow, and_self]

/-- A variable of a named type, after which a new name is given to the type and the name itself is
given the same type again. -/
theorem type_stable_same_type_again :
    let text := "(typedef t (unsigned 4)) (declare-var x t) (typedef u t) (typedef t (unsigned 4))"
    ∃ before after m s, SExpr.readAll text = .ok (before ++ after) ∧
      initial.runAll before = .ok m ∧ parse text = .ok s ∧ m.Uses (.named "t") ∧
      (∀ type ∈ m.types.names (.named "t"), type ∉ retypedNames (m.history after)) ∧
      s.types.width (.named "t") = m.types.width (.named "t") ∧
      s.types.isSigned (.named "t") = m.types.isSigned (.named "t") ∧
      s.types.isBool (.named "t") = m.types.isBool (.named "t") := by
  intro text
  let before : List SExpr :=
    [.list [.atom "typedef", .atom "t", .list [.atom "unsigned", .atom "4"]],
      .list [.atom "declare-var", .atom "x", .atom "t"]]
  let after : List SExpr :=
    [.list [.atom "typedef", .atom "u", .atom "t"],
      .list [.atom "typedef", .atom "t", .list [.atom "unsigned", .atom "4"]]]
  have hread : SExpr.readAll text = .ok (before ++ after) := by
    dsimp only [text]
    set_option maxRecDepth 4000 in rfl
  have hbefore : (initial.runAll before).toOption.any (fun m =>
      (m.design.get? "main").map (·.vars) = some [("x", .named "t")] ∧
      ∀ type ∈ m.types.names (.named "t"), type ∉ retypedNames (m.history after)) = true := by
    decide +kernel
  have hparse : (parse text).toOption.isSome = true := by decide +kernel
  rcases hm : initial.runAll before with f | m <;> rw [hm] at hbefore
  · cases hbefore
  rcases hs : parse text with f | s <;> rw [hs] at hparse
  · cases hparse
  obtain ⟨hvars, hkept⟩ := of_decide_eq_true hbefore
  obtain ⟨ts, hts, hvars⟩ := Option.map_eq_some_iff.1 hvars
  have hx : ("x", .named "t") ∈ ts.vars := by simp [hvars]
  have hty : m.Uses (.named "t") := .var hts hx
  exact ⟨before, after, m, s, hread, hm, rfl, hty, hkept, type_stable hread hm hs hty hkept⟩

/-- A variable whose type is given four bits before it is declared, and eight bits afterwards. -/
theorem exists_retyped_variable :
    let text := "(typedef t (unsigned 4)) (declare-var x t) (typedef t (unsigned 8))"
    ∃ before after m s, SExpr.readAll text = .ok (before ++ after) ∧
      initial.runAll before = .ok m ∧ parse text = .ok s ∧
      (m.design.get? "main").map (·.vars) = some [("x", .named "t")] ∧
      (s.design.get? "main").map (·.vars) = some [("x", .named "t")] ∧
      m.types.width (.named "t") = 4 ∧ s.types.width (.named "t") = 8 := by
  intro text
  let before : List SExpr :=
    [.list [.atom "typedef", .atom "t", .list [.atom "unsigned", .atom "4"]],
      .list [.atom "declare-var", .atom "x", .atom "t"]]
  let after : List SExpr :=
    [.list [.atom "typedef", .atom "t", .list [.atom "unsigned", .atom "8"]]]
  have hread : SExpr.readAll text = .ok (before ++ after) := by
    dsimp only [text]
    set_option maxRecDepth 4000 in rfl
  have hbefore : (initial.runAll before).toOption.any (fun m =>
      (m.design.get? "main").map (·.vars) = some [("x", .named "t")] ∧
        m.types.width (.named "t") = 4) = true := by decide +kernel
  have hparse : (parse text).toOption.any (fun s =>
      (s.design.get? "main").map (·.vars) = some [("x", .named "t")] ∧
        s.types.width (.named "t") = 8) = true := by decide +kernel
  rcases hm : initial.runAll before with f | m <;> rw [hm] at hbefore
  · cases hbefore
  rcases hs : parse text with f | s <;> rw [hs] at hparse
  · cases hparse
  obtain ⟨hvars, hwidth⟩ := of_decide_eq_true hbefore
  obtain ⟨hvars', hwidth'⟩ := of_decide_eq_true hparse
  exact ⟨before, after, m, s, hread, hm, rfl, hvars, hvars', hwidth, hwidth'⟩

end Script

end BitUnroll
