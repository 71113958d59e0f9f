import BitUnroll.Proofs.Lowering.Delay
import BitUnroll.Proofs.Script.Elaboration

/-!
# Next values in scripts

The next value of a variable in a step is the value of the variable in the step after it. In a
script the operand of `next` is a variable, or a next value again: both have the name that `next`
looks for. The next value of a next value is that next value itself, in the same step and not one
step later.

## Main statements

* `Scope.expr_next_eq_ok_iff`: the operands of `next`.
* `Expr.repeats_nextSymbol_step`: the value of a variable one step later.
* `Scope.next_one_step_later`: both, for the trees of a script.
-/

namespace BitUnroll

/-- A word is read bit by bit. -/
theorem Symbols.wordFrom_congr {symbols : Symbols} {phase phase' : Phase} {f g : Frame}
    {name : String} (h : ∀ i, symbols.bit phase f name i = symbols.bit phase' g name i)
    (i count : Nat) :
    symbols.wordFrom phase f name i count = symbols.wordFrom phase' g name i count := by
  induction count generalizing i with
  | zero => rfl
  | succ count ih => rw [wordFrom, wordFrom, h, ih]

namespace Expr

variable {types : TypeTable} {r : Resolver} {name : String} {ty : Ty}

theorem toWord_symbol (types : TypeTable) (r : Resolver) (name : String) (ty : Ty) (f : Frame) :
    (symbol name ty).toWord ⟨types, .mapped r⟩ f =
      if types.width ty = 0 then Lower.refuse (.zeroWidth name)
      else (Symbols.mapped r).word .current f name (types.width ty) := rfl

theorem toWord_nextSymbol (types : TypeTable) (r : Resolver) (name : String) (ty : Ty)
    (f : Frame) :
    (nextSymbol name ty).toWord ⟨types, .mapped r⟩ f =
      if types.width ty = 0 then Lower.refuse (.unsupported (.nextSymbol name) .bitvector)
      else (Symbols.mapped r).word .next f name (types.width ty) := rfl

/-- The next value of a variable in a step is its value in the step after it, where the variable has
bits. -/
theorem toWord_nextSymbol_step (hty : types.width ty ≠ 0) (t : Nat) :
    (nextSymbol name ty).toWord ⟨types, .mapped r⟩ (.step t) =
      (symbol name ty).toWord ⟨types, .mapped r⟩ (.step (t + 1)) := by
  have hbit : ∀ i, (Symbols.mapped r).bit .next (.step t) name i =
      (Symbols.mapped r).bit .current (.step (t + 1)) name i := fun _ => rfl
  rw [toWord_symbol, toWord_nextSymbol, if_neg hty, if_neg hty]
  exact Symbols.wordFrom_congr hbit 0 _

/-- The next value of a variable in a step and its value in the step after it have the same words,
from any state. A variable without bits has none. -/
theorem repeats_nextSymbol_step (types : TypeTable) (r : Resolver) (name : String) (ty : Ty)
    (t : Nat) (s : Lowering) :
    Lower.Repeats ((nextSymbol name ty).toWord ⟨types, .mapped r⟩ (.step t))
        ((symbol name ty).toWord ⟨types, .mapped r⟩ (.step (t + 1))) s ∧
      Lower.Repeats ((symbol name ty).toWord ⟨types, .mapped r⟩ (.step (t + 1)))
        ((nextSymbol name ty).toWord ⟨types, .mapped r⟩ (.step t)) s := by
  by_cases hty : types.width ty = 0
  · rw [toWord_symbol, toWord_nextSymbol, if_pos hty, if_pos hty]
    exact ⟨nofun, nofun⟩
  · rw [toWord_nextSymbol_step hty]
    exact ⟨fun _ hw => ⟨hw, rfl⟩, fun _ hw => ⟨hw, rfl⟩⟩

end Expr

namespace Scope

variable {scope : Scope} {tree : SExpr} {e n : Expr} {name : String}

/-- An expression with the name of a variable is that variable or its next value. -/
theorem Builds.eq_of_identifier? (h : scope.Builds e) (hname : e.identifier? = some name) :
    e = .symbol name e.ty ∨ e = .nextSymbol name e.ty := by
  cases h with
  | symbol =>
    cases hname
    exact .inl rfl
  | next =>
    cases hname
    exact .inr rfl
  | truth | number | retyped | absent => cases hname
  | @node kind ty es hkind =>
    cases kind with
    | symbol | nextSymbol => cases hkind
    | constant | truth | nil | not | connective | implies | equality | ite | complement | negate
    | binary | relation | extractBit | extractBits | concat | cast | temporal => cases hname

theorem expr_next_eq (scope : Scope) (tree : SExpr) :
    scope.expr (.list [.atom "next", tree]) = scope.expr tree >>= next := by
  rw [expr, exprs, exprs]
  cases scope.expr tree with
  | ok e => rfl
  | error f => rfl

/-- The operands of `next` are the variables and the next values. -/
theorem expr_next_eq_ok_iff :
    scope.expr (.list [.atom "next", tree]) = .ok n ↔ ∃ name ty, n = .nextSymbol name ty ∧
      (scope.expr tree = .ok (.symbol name ty) ∨ scope.expr tree = .ok (.nextSymbol name ty)) := by
  rw [expr_next_eq, Elab.bind_eq_ok]
  constructor
  · rintro ⟨e, he, hn⟩
    unfold next at hn
    split at hn
    · rename_i name hname
      cases hn
      refine ⟨name, e.ty, rfl, ?_⟩
      rw [he]
      exact ((builds_expr scope tree e he).eq_of_identifier? hname).imp (congrArg _) (congrArg _)
    · cases hn
  · rintro ⟨name, ty, rfl, he | he⟩
    · exact ⟨_, he, rfl⟩
    · exact ⟨_, he, rfl⟩

/-- **A next value is the value one step later, unless it is the next value of a next value.** The
operand of `next` is a variable, or a next value itself, and everything else is refused. If it is a
variable, then the next value in a step has the word that the variable has in the step after it,
with any types and any source of literals, from any state, and leads to the same circuit, and one
has a word where the other has. The next value of a next value is that next value, in the same
step. -/
theorem next_one_step_later (scope : Scope) (tree : SExpr) (n : Expr) :
    (scope.expr (.list [.atom "next", tree]) = .ok n ↔ ∃ name ty, n = .nextSymbol name ty ∧
      (scope.expr tree = .ok (.symbol name ty) ∨ scope.expr tree = .ok n)) ∧
    ∀ e, scope.expr tree = .ok e → scope.expr (.list [.atom "next", tree]) = .ok n →
      (∀ name, e.kind ≠ .nextSymbol name) →
      ∀ (types : TypeTable) (r : Resolver) (t : Nat) (s : Lowering),
        Lower.Repeats (n.toWord ⟨types, .mapped r⟩ (.step t))
          (e.toWord ⟨types, .mapped r⟩ (.step (t + 1))) s ∧
        Lower.Repeats (e.toWord ⟨types, .mapped r⟩ (.step (t + 1)))
          (n.toWord ⟨types, .mapped r⟩ (.step t)) s := by
  constructor
  · rw [expr_next_eq_ok_iff]
    constructor
    · rintro ⟨name, ty, rfl, he⟩
      exact ⟨name, ty, rfl, he⟩
    · rintro ⟨name, ty, rfl, he⟩
      exact ⟨name, ty, rfl, he⟩
  · intro e he hn hvar types r t s
    obtain ⟨name, ty, rfl, hsymbol | hnext⟩ := expr_next_eq_ok_iff.1 hn
    · cases he.symm.trans hsymbol
      exact Expr.repeats_nextSymbol_step types r name ty t s
    · cases he.symm.trans hnext
      exact absurd rfl (hvar name)

/-- The next value of a word of two bits, in the second step of three. -/
theorem next_one_step_later_word :
    let scope : Scope := ⟨.empty, { name := "main", vars := [("x", .unsigned 2)] }⟩
    let start := (Unrolled.allocate [("x", 2)] 3).run (.initial {})
    let s : Lowering := { circuit := start.2 }
    let r := start.1.resolver
    ∃ e n, scope.expr (.atom "x") = .ok e ∧ scope.expr (.list [.atom "next", .atom "x"]) = .ok n ∧
      ((n.toWord ⟨.empty, .mapped r⟩ (.step 1)).run s).1 = .ok [⟨5, true⟩, ⟨6, true⟩] ∧
      ((e.toWord ⟨.empty, .mapped r⟩ (.step 2)).run s).1 = .ok [⟨5, true⟩, ⟨6, true⟩] := by
  intro scope start s r
  have hx : scope.expr (.atom "x") = .ok (.symbol "x" (.unsigned 2)) := by rfl
  obtain ⟨hoperands, hwords⟩ :=
    next_one_step_later scope (.atom "x") (.nextSymbol "x" (.unsigned 2))
  have hn := hoperands.2 ⟨"x", .unsigned 2, rfl, .inl hx⟩
  have hvar : ∀ name, (Expr.symbol "x" (.unsigned 2)).kind ≠ .nextSymbol name := nofun
  have hword : (((Expr.nextSymbol "x" (.unsigned 2)).toWord ⟨.empty, .mapped r⟩ (.step 1)).run
      s).1 = .ok [⟨5, true⟩, ⟨6, true⟩] := by decide +kernel
  have hlater := hwords _ hx hn hvar .empty r 1 s
  exact ⟨_, _, hx, hn, hword, (hlater.1 _ hword).1⟩

/-- The next value of a next value. It is accepted, and read in the next timeframe as its operand
is, where one step later the operand is read in the timeframe after that. -/
theorem exists_next_read_early :
    let scope : Scope := ⟨.empty, { name := "main", vars := [("x", .bool)] }⟩
    let start := (Unrolled.allocate [("x", 1)] 3).run (.initial {})
    let s : Lowering := { circuit := start.2 }
    let r := start.1.resolver
    let operand : SExpr := .list [.atom "next", .atom "x"]
    ∃ e n, scope.expr operand = .ok e ∧ scope.expr (.list [.atom "next", operand]) = .ok n ∧
      ((n.toWord ⟨.empty, .mapped r⟩ (.step 0)).run s).1 = .ok [⟨2, true⟩] ∧
      ((e.toWord ⟨.empty, .mapped r⟩ (.step 1)).run s).1 = .ok [⟨3, true⟩] := by
  intro scope start s r operand
  refine ⟨.nextSymbol "x" .bool, .nextSymbol "x" .bool, ?_, ?_, ?_, ?_⟩
  · rfl
  · rfl
  · decide +kernel
  · decide +kernel

end Scope

end BitUnroll
