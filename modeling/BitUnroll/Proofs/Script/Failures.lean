import BitUnroll.Script.Basic

/-!
# Failures of reading a script

A text that is no script has a defect in its brackets or quotes, or one of its commands is refused.
In the second case the failure's outermost context is that command, and the cause is a rule of the
language or a number that cannot be read. Nothing is lowered while a script is read, so no cause is
about lowering.

## Main definitions

* `Elab.Fails`: what is known of the failure of a computation.
* `Cause.OfCommand`: the causes for which a command is refused.

## Main statements

* `Script.fails_parse`: the failures of a text.
* `Script.lowering?_parse`: none of them comes from lowering.
-/

namespace BitUnroll

/-- The causes for which a command is refused. -/
inductive Cause.OfCommand : Cause → Prop
  | script (error : ScriptError) : OfCommand (.script error)
  | numeral (error : Text.NumeralError) : OfCommand (.numeral error)

namespace Elab

variable {α β : Type} {post post' : Failure → Prop}

/-- If a computation fails, its failure has a property. -/
def Fails (x : Elab α) (post : Failure → Prop) : Prop := ∀ f, x = .error f → post f

theorem fails_ok {a : α} : Fails (.ok a) post := by
  intro f h
  cases h

theorem Fails.bind {x : Elab α} {f : α → Elab β} (hx : Fails x post)
    (hf : ∀ a, Fails (f a) post) : Fails (x >>= f) post := by
  cases x with
  | ok a => exact hf a
  | error e =>
    intro e' h
    cases h
    exact hx e rfl

theorem fails_within {context : FailureContext} {x : Elab α} (hx : Fails x post)
    (h : ∀ f, post f → post' (f.within context)) : Fails (within context x) post' := by
  intro f hf
  cases x with
  | ok a => cases hf
  | error e =>
    cases hf
    exact h e (hx e rfl)

/-! ## Parts of commands -/

/-- If a computation fails, then for a cause for which commands are refused. -/
abbrev Refuses (x : Elab α) : Prop := Fails x fun f => f.cause.OfCommand

theorem refuses_refuse (e : ScriptError) : Refuses (refuse e : Elab α) := by
  intro f h
  cases h
  exact .script e

theorem refuses_atom (tree : SExpr) : Refuses (atom tree) := by
  cases tree with
  | atom name => exact fails_ok
  | list trees => exact refuses_refuse _

theorem refuses_count (context : FailureContext) (text : String) :
    Refuses (count context text) := by
  unfold count
  split
  · exact fails_ok
  · intro f h
    cases h
    exact .numeral _

theorem refuses_timeframe (tree : SExpr) : Refuses (timeframe tree) :=
  (refuses_atom tree).bind fun _ => refuses_count _ _

theorem refuses_constant (e : Expr) : Refuses (constant e) := by
  unfold constant
  split
  · exact fails_ok
  · exact refuses_refuse _

end Elab

open Elab

namespace Scope

variable (scope : Scope)

theorem refuses_wordType (width : Nat) (kind : String) : Refuses (wordType width kind) := by
  unfold wordType
  split
  case h_4 => exact refuses_refuse _
  all_goals exact fails_ok

theorem refuses_type (tree : SExpr) : Refuses (scope.type tree) := by
  unfold type
  split
  · exact fails_ok
  · exact fails_ok
  · exact fails_ok
  · split
    · exact fails_ok
    · exact refuses_refuse _
  · refine (refuses_atom _).bind fun text => (refuses_count _ _).bind fun width => ?_
    dsimp only
    split
    · exact refuses_refuse _
    · exact (refuses_atom _).bind fun kind => refuses_wordType _ _
  · exact refuses_refuse _

theorem refuses_leaf (name : String) : Refuses (scope.leaf name) := by
  unfold leaf
  split
  · exact fails_ok
  split
  · exact fails_ok
  split
  · exact fails_ok
  split
  · exact fails_ok
  · exact refuses_refuse _

theorem refuses_next (e : Expr) : Refuses (next e) := by
  unfold next
  split
  · exact fails_ok
  · exact refuses_refuse _

theorem refuses_extract (a upper lower : Expr) : Refuses (extract a upper lower) := by
  refine (refuses_constant _).bind fun high => (refuses_constant _).bind fun low => ?_
  dsimp only
  split
  · exact refuses_refuse _
  split
  · exact refuses_refuse _
  split
  · exact refuses_refuse _
  · exact fails_ok

theorem refuses_unary (head : String) (a : Expr) : Refuses (unary head a) := by
  unfold unary
  split
  · exact refuses_next a
  · exact fails_ok
  · exact fails_ok
  · exact fails_ok
  · exact refuses_refuse _

theorem refuses_binary (head : String) (a b : Expr) : Refuses (scope.binary head a b) := by
  unfold binary
  split
  · exact fails_ok
  · exact fails_ok
  · exact fails_ok
  · split
    case h_5 => exact refuses_refuse _
    all_goals exact fails_ok

theorem refuses_ternary (head : String) (a b c : Expr) :
    Refuses (scope.ternary head a b c) := by
  unfold ternary
  split
  · exact fails_ok
  · exact refuses_extract a b c
  · exact fails_ok
  · exact refuses_refuse _

theorem refuses_operator (head : String) (ops : List Expr) :
    Refuses (scope.operator head ops) := by
  unfold operator
  split
  · exact fails_ok
  · exact fails_ok
  · exact fails_ok
  · exact fails_ok
  · exact refuses_unary _ _
  · exact scope.refuses_binary _ _ _
  · exact scope.refuses_ternary _ _ _ _
  · exact refuses_refuse _

mutual

theorem refuses_expr : ∀ tree : SExpr, Refuses (scope.expr tree)
  | .atom name => scope.refuses_leaf name
  | .list [] => refuses_refuse _
  | .list (head :: args) => by
    refine (refuses_atom head).bind fun name => (refuses_exprs args).bind fun ops => ?_
    exact scope.refuses_operator name ops

theorem refuses_exprs : ∀ trees : List SExpr, Refuses (scope.exprs trees)
  | [] => fails_ok
  | tree :: trees =>
    (refuses_expr tree).bind fun _ => (refuses_exprs trees).bind fun _ => fails_ok

end

theorem refuses_boolExpr (tree : SExpr) : Refuses (scope.boolExpr tree) := by
  refine (scope.refuses_expr tree).bind fun e => ?_
  split
  · exact fails_ok
  · exact refuses_refuse _

end Scope

namespace Script

/-! ## Commands -/

theorem refuses_system (s : Script) : Refuses s.system := by
  unfold system
  split
  · exact fails_ok
  · exact refuses_refuse _

theorem refuses_scope (s : Script) : Refuses s.scope :=
  s.refuses_system.bind fun _ => fails_ok

theorem refuses_declareVar (s : Script) (name : String) (type : SExpr) :
    Refuses (s.declareVar name type) := by
  refine s.refuses_scope.bind fun scope => (scope.refuses_type type).bind fun ty => ?_
  dsimp only
  split
  · exact refuses_refuse _
  · exact fails_ok

theorem refuses_frame (command : CommandName) (args : List SExpr) :
    Refuses (frame command args) := by
  unfold frame
  split
  · exact fails_ok
  · exact (refuses_timeframe _).bind fun _ => (refuses_timeframe _).bind fun _ => fails_ok
  · exact refuses_refuse _

theorem refuses_execute (s : Script) (name : CommandName) (args : List SExpr) :
    Refuses (s.execute name args) := by
  unfold execute
  split
  · exact (refuses_atom _).bind fun _ => fails_ok
  · refine s.refuses_scope.bind fun scope => (scope.refuses_type _).bind fun ty => ?_
    exact (refuses_atom _).bind fun _ => fails_ok
  · exact (refuses_atom _).bind fun name => s.refuses_declareVar name _
  · exact s.refuses_scope.bind fun scope => (scope.refuses_boolExpr _).bind fun _ => fails_ok
  · exact s.refuses_scope.bind fun scope => (scope.refuses_boolExpr _).bind fun _ => fails_ok
  · refine (refuses_frame _ _).bind fun frame => s.refuses_scope.bind fun scope => ?_
    exact (scope.refuses_boolExpr _).bind fun _ => fails_ok
  · refine (refuses_frame _ _).bind fun frame => (refuses_atom _).bind fun name => ?_
    exact s.refuses_scope.bind fun scope => (scope.refuses_expr _).bind fun _ => fails_ok
  · exact refuses_refuse _

theorem refuses_command (s : Script) (tree : SExpr) : Refuses (s.command tree) := by
  unfold command
  split
  · exact refuses_refuse _
  · exact refuses_refuse _
  · refine (refuses_atom _).bind fun head => ?_
    split
    · exact s.refuses_execute _ _
    · exact refuses_refuse _

/-! ## A whole text -/

/-- A failure that one of some commands is refused with. -/
def RefusedWith (trees : List SExpr) (f : Failure) : Prop :=
  ∃ tree ∈ trees, ∃ g : Failure, g.cause.OfCommand ∧ f = g.within (.command tree)

theorem fails_runAll (s : Script) (trees : List SExpr) :
    Fails (s.runAll trees) (RefusedWith trees) := by
  induction trees generalizing s with
  | nil => exact fails_ok
  | cons tree trees ih =>
    rw [runAll, List.foldlM_cons]
    refine Fails.bind ?_ fun s' f hf => ?_
    · exact fails_within (s.refuses_command tree) fun g hg => ⟨tree, by simp, g, hg, rfl⟩
    · obtain ⟨other, hother, g, hg, rfl⟩ := ih s' f hf
      exact ⟨other, List.mem_cons_of_mem _ hother, g, hg, rfl⟩

/-- A text fails at its brackets and quotes, or at a command, which the failure names. -/
theorem fails_parse (text : String) : Fails (parse text) fun f =>
    (∃ e, SExpr.readAll text = .error e ∧ f = .of (.reading e)) ∨
    ∃ trees, SExpr.readAll text = .ok trees ∧ RefusedWith trees f := by
  intro f hf
  unfold parse at hf
  split at hf
  · rename_i trees htrees
    exact .inr ⟨trees, htrees, fails_runAll initial trees f hf⟩
  · rename_i e he
    cases hf
    exact .inl ⟨e, he, rfl⟩

end Script

/-! ## No lowering -/

theorem Cause.OfCommand.lowering?_eq_none {f : Failure} (h : f.cause.OfCommand) :
    f.lowering? = none := by
  obtain ⟨contexts, cause⟩ := f
  cases h <;> rfl

namespace Script

theorem lowering?_system (s : Script) : Fails s.system fun f => f.lowering? = none :=
  fun f hf => (s.refuses_system f hf).lowering?_eq_none

/-- No expression is lowered while a script is read. -/
theorem lowering?_parse (text : String) : Fails (parse text) fun f => f.lowering? = none := by
  intro f hf
  obtain ⟨e, -, rfl⟩ | ⟨trees, -, tree, -, g, hg, rfl⟩ := fails_parse text f hf
  · rfl
  · exact hg.lowering?_eq_none

end Script

end BitUnroll
