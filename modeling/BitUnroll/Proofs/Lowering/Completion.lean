import BitUnroll.Proofs.Lowering.Footprint
import BitUnroll.Symbols.Unrolled

/-!
# Lowering breaks no contract

An expression may be any tree: its types need not be those of its operands, and it may have any
number of these. Operations on words rely on words of one length, and operands and bits are taken
that should be there. Whatever the tree, the checks before them make sure of it. What is left is
the contract with a resolver, which should know the variables that it is asked for.

## Main definitions

* `Symbols.Answered`: a resolver knows all that it was asked for.
* `Lower.Finishes`: a run has a result or refuses the expression.

## Main statements

* `Expr.finishes`: lowering and requiring any expression.
-/

namespace BitUnroll

/-- A resolver has answers to the questions that a state has noted. Without a resolver there are
no such questions. -/
def Symbols.Answered (symbols : Symbols) (s : Lowering) : Prop :=
  match symbols with
  | .mapped r => ∀ n ∈ s.reads, ∃ l, r.resolve n.name n.bit n.timeframe = .ok l
  | .onDemand => True

namespace Lower

variable {α : Type} {symbols : Symbols} {asks : Set Read} {post : α → Prop} {s : Lowering}

/-- A run has a result or refuses the expression: it meets no words of different lengths, no operand
and no bit that is not there, and no variable that the resolver does not know. -/
def Finishes (x : Lower α) (s : Lowering) : Prop :=
  (∃ a, (x.run s).1 = .ok a) ∨ ∃ e, (x.run s).1 = .error (.refused e)

/-- What crashes has put a question without an answer. -/
theorem Looks.finishes_of_answered {x : Lower α} (hx : Looks symbols x asks post)
    (h : symbols.Answered (x.run s).2) : x.Finishes s := by
  rcases hresult : (x.run s).1 with fault | a
  · cases fault with
    | refused e => exact .inr ⟨e, hresult⟩
    | crashed c =>
      obtain ⟨miss, -, n, -, hmiss, hseen⟩ := hx.crash s c hresult
      cases symbols with
      | mapped r =>
        obtain ⟨l, hl⟩ := h n hseen
        cases hl.symm.trans hmiss
      | onDemand => exact hmiss.elim
  · exact .inl ⟨a, hresult⟩

end Lower

namespace Expr

/-- **Lowering breaks no contract.** On every circuit, with every source of symbols and in every
frame, the literal of any expression, its word, and its requirement each have a result or are
refused, if a resolver knows what it was asked for. -/
theorem finishes (setting : Setting) (e : Expr) (frame : Frame) (circuit : Circuit)
    (bound : Std.TreeMap NamedBit Literal NamedBit.order) :
    let s : Lowering := { circuit := circuit, bound := bound }
    (setting.symbols.Answered ((e.toLiteral setting frame).run s).2 →
      (e.toLiteral setting frame).Finishes s) ∧
    (setting.symbols.Answered ((e.toWord setting frame).run s).2 →
      (e.toWord setting frame).Finishes s) ∧
    (setting.symbols.Answered ((e.require setting frame).run s).2 →
      (e.require setting frame).Finishes s) :=
  ⟨((e.traced setting).truth frame).finishes_of_answered,
    ((e.traced setting).word frame).finishes_of_answered,
    (looks_require setting e frame).finishes_of_answered⟩

/-- Bit seven of a word that has four bits, where its type says that it has nine. -/
theorem finishes_wider_type :
    let a : Expr := .node .complement (.unsigned 9) [.symbol "x" (.unsigned 4)]
    let e : Expr := .node .extractBit .bool [a, .constant 7 .integer]
    let map := Unrolled.empty.setWord 0 "x" [⟨1, true⟩, ⟨2, true⟩, ⟨3, true⟩, ⟨4, true⟩]
    let setting : Setting := ⟨.empty, .mapped map.resolver⟩
    let s : Lowering := { circuit := .initial {}, bound := ∅ }
    setting.symbols.Answered ((e.require setting (.step 0)).run s).2 ∧
      (e.require setting (.step 0)).Finishes s ∧
      ((e.require setting (.step 0)).run s).1 = .error (.refused (.widthMismatch 9 4)) := by
  intro a e map setting s
  have hreads : ((e.require setting (.step 0)).run s).2.reads =
      #[⟨"x", 0, 0⟩, ⟨"x", 1, 0⟩, ⟨"x", 2, 0⟩, ⟨"x", 3, 0⟩] := rfl
  have hanswered : setting.symbols.Answered ((e.require setting (.step 0)).run s).2 := by
    show ∀ n ∈ ((e.require setting (.step 0)).run s).2.reads, _
    rw [hreads]
    simp only [List.mem_toArray, List.forall_mem_cons, List.not_mem_nil, false_imp_iff,
      implies_true, and_true]
    exact ⟨⟨⟨1, true⟩, rfl⟩, ⟨⟨2, true⟩, rfl⟩, ⟨⟨3, true⟩, rfl⟩, ⟨⟨4, true⟩, rfl⟩⟩
  exact ⟨hanswered, (finishes setting e (.step 0) (.initial {}) ∅).2.2 hanswered, rfl⟩

end Expr

end BitUnroll
