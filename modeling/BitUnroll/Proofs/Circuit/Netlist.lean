import BitUnroll.Logic.Circuit
import Mathlib.Data.List.Induction
import Mathlib.Logic.Function.Basic

/-!
# Netlists

What gives each variable of a circuit its value: the constant, the outside, or a gate on earlier
variables. A netlist computes a function. `Netlist.settle` evaluates it once, in the order of the
variables, from any values of the inputs, and every assignment that follows all gates is the
result of such an evaluation.

## Main definitions

* `Source`, `Netlist`: the source of one variable, and of all variables in order.
* `Netlist.Holds`: an assignment follows every source.
* `Netlist.Ordered`: gates read earlier variables only.
* `Netlist.settle`: the assignment that values of the inputs determine.
-/

namespace BitUnroll

/-- What gives a variable its value. -/
inductive Source where
  | constant
  | input
  | gate (key : GateKey)
  deriving DecidableEq, Repr

namespace Source

/-- The value of variable `x` where the earlier variables have the values of `v`. An input keeps
the value that it has. -/
def value (x : Nat) (v : Valuation) : Source → Bool
  | constant => true
  | input => v x
  | gate key => key.op.eval (key.left.eval v) (key.right.eval v)

/-- Only variables below `n` are read. -/
def ReadsBelow (n : Nat) : Source → Prop
  | constant | input => True
  | gate key => key.left.var < n ∧ key.right.var < n

theorem value_congr {s : Source} {x : Nat} {v w : Valuation} (hs : s.ReadsBelow x)
    (h : ∀ y < x, v y = w y) (hx : s = input → v x = w x) : s.value x v = s.value x w := by
  cases s with
  | constant => rfl
  | input => exact hx rfl
  | gate key =>
    obtain ⟨hleft, hright⟩ := hs
    simp only [value, Literal.eval]
    rw [h _ hleft, h _ hright]

end Source

/-- The sources of the variables of a circuit, in the order of their numbers. -/
abbrev Netlist := List Source

namespace Netlist

/-- An assignment gives every variable the value that its source says. -/
def Holds (net : Netlist) (v : Valuation) : Prop :=
  ∀ (x : Nat) (s : Source), net[x]? = some s → v x = s.value x v

/-- Every source reads earlier variables only. -/
def Ordered (net : Netlist) : Prop := ∀ (x : Nat) (s : Source), net[x]? = some s → s.ReadsBelow x

/-- Gives one variable the value that its source says. -/
def update (v : Valuation) (s : Source) (x : Nat) : Valuation := Function.update v x (s.value x v)

/-- The assignment that values of the inputs determine. Variables beyond the netlist keep the
values that they are given. -/
def settle (net : Netlist) (v : Valuation) : Valuation :=
  net.zipIdx.foldl (fun v s => update v s.1 s.2) v

/-! ## Growing netlists -/

variable {net net' : Netlist}

theorem getElem?_of_isPrefix (h : net <+: net') {x : Nat} {s : Source} (hx : net[x]? = some s) :
    net'[x]? = some s := by
  obtain ⟨more, rfl⟩ := h
  rw [List.getElem?_append_left (List.getElem?_eq_some_iff.1 hx).1, hx]

/-- What follows a netlist follows each of its beginnings. -/
theorem Holds.of_isPrefix {v : Valuation} (h : net <+: net') (hv : net'.Holds v) : net.Holds v :=
  fun x s hx => hv x s (getElem?_of_isPrefix h hx)

theorem Ordered.of_isPrefix (h : net <+: net') (hnet : net'.Ordered) : net.Ordered :=
  fun x s hx => hnet x s (getElem?_of_isPrefix h hx)

theorem getElem?_concat {s t : Source} {x : Nat} :
    (net ++ [s])[x]? = some t ↔ net[x]? = some t ∨ (x = net.length ∧ s = t) := by
  rcases Nat.lt_trichotomy x net.length with hx | rfl | hx
  · rw [List.getElem?_append_left hx]
    simp [Nat.ne_of_lt hx]
  · simp
  · rw [List.getElem?_eq_none (by simp; omega), List.getElem?_eq_none (by omega)]
    simp [Nat.ne_of_gt hx]

@[simp] theorem holds_nil (v : Valuation) : Holds [] v := fun x s hx => by simp at hx

/-- An assignment follows one more source if it gives that variable its value. -/
@[simp] theorem holds_concat {s : Source} {v : Valuation} :
    Holds (net ++ [s]) v ↔ net.Holds v ∧ v net.length = s.value net.length v := by
  simp only [Holds, getElem?_concat]
  constructor
  · intro h
    exact ⟨fun x t hx => h x t (.inl hx), h _ s (.inr ⟨rfl, rfl⟩)⟩
  · rintro ⟨hnet, hs⟩ x t (hx | ⟨rfl, rfl⟩)
    · exact hnet x t hx
    · exact hs

@[simp] theorem ordered_nil : Ordered [] := fun x s hx => by simp at hx

@[simp] theorem ordered_concat {s : Source} :
    Ordered (net ++ [s]) ↔ net.Ordered ∧ s.ReadsBelow net.length := by
  simp only [Ordered, getElem?_concat]
  constructor
  · intro h
    exact ⟨fun x t hx => h x t (.inl hx), h _ s (.inr ⟨rfl, rfl⟩)⟩
  · rintro ⟨hnet, hs⟩ x t (hx | ⟨rfl, rfl⟩)
    · exact hnet x t hx
    · exact hs

/-- Whether an assignment follows an ordered netlist is a matter of the netlist's variables. -/
theorem Holds.congr {v w : Valuation} (hnet : net.Ordered) (h : ∀ x < net.length, v x = w x)
    (hv : net.Holds v) : net.Holds w := by
  intro x s hx
  have hlt : x < net.length := (List.getElem?_eq_some_iff.1 hx).1
  rw [← h x hlt, hv x s hx]
  exact Source.value_congr (hnet x s hx) (fun y hy => h y (by omega)) fun _ => h x hlt

/-! ## Evaluation -/

@[simp] theorem settle_nil (v : Valuation) : settle [] v = v := rfl

theorem settle_concat (net : Netlist) (s : Source) (v : Valuation) :
    settle (net ++ [s]) v = update (net.settle v) s net.length := by
  simp [settle, List.zipIdx_append]

theorem settle_of_length_le {x : Nat} (v : Valuation) (hx : net.length ≤ x) :
    net.settle v x = v x := by
  induction net using List.reverseRecOn with
  | nil => rfl
  | append_singleton net s ih =>
    rw [List.length_append, List.length_singleton] at hx
    have hne : x ≠ net.length := by omega
    rw [settle_concat, update, Function.update_of_ne hne]
    exact ih (by omega)

/-- Inputs keep the values that they are given. -/
theorem settle_of_input {x : Nat} (v : Valuation) (hx : net[x]? = some .input) :
    net.settle v x = v x := by
  induction net using List.reverseRecOn with
  | nil => rfl
  | append_singleton net s ih =>
    rw [settle_concat, update]
    rcases getElem?_concat.1 hx with hx | ⟨rfl, rfl⟩
    · have hlt : x < net.length := (List.getElem?_eq_some_iff.1 hx).1
      rw [Function.update_of_ne (by omega), ih hx]
    · rw [Function.update_self, Source.value, settle_of_length_le v (Nat.le_refl _)]

/-- The evaluation of an ordered netlist follows all sources. -/
theorem holds_settle (hnet : net.Ordered) (v : Valuation) : net.Holds (settle net v) := by
  induction net using List.reverseRecOn with
  | nil => exact holds_nil _
  | append_singleton net s ih =>
    obtain ⟨hordered, hs⟩ := ordered_concat.1 hnet
    have hsame : ∀ y < net.length, settle net v y = settle (net ++ [s]) v y := by
      intro y hy
      rw [settle_concat, update, Function.update_of_ne (by omega)]
    refine holds_concat.2 ⟨(ih hordered).congr hordered hsame, ?_⟩
    have hlast : settle (net ++ [s]) v net.length = s.value net.length (settle net v) := by
      rw [settle_concat, update, Function.update_self]
    rw [hlast]
    refine Source.value_congr hs hsame fun hinput => ?_
    rw [hlast, hinput, Source.value]

/-- What follows an ordered netlist is the evaluation of its own inputs. -/
theorem Holds.eq_settle {v w : Valuation} (hnet : net.Ordered) (hv : net.Holds v)
    (hinput : ∀ x : Nat, net[x]? = some .input → v x = w x) :
    ∀ x < net.length, v x = net.settle w x := by
  induction net using List.reverseRecOn with
  | nil => intro x hx; simp at hx
  | append_singleton net s ih =>
    obtain ⟨hordered, hs⟩ := ordered_concat.1 hnet
    obtain ⟨hbefore, hlast⟩ := holds_concat.1 hv
    have hsame := ih hordered hbefore fun x hx => hinput x (getElem?_concat.2 (.inl hx))
    intro x hx
    rw [List.length_append, List.length_singleton] at hx
    rw [settle_concat, update]
    by_cases h : x = net.length
    · subst h
      rw [Function.update_self, hlast]
      refine Source.value_congr hs hsame fun hs => ?_
      rw [hinput _ (getElem?_concat.2 (.inr ⟨rfl, hs⟩)), settle_of_length_le w (Nat.le_refl _)]
    · rw [Function.update_of_ne h]
      exact hsame x (by omega)

end Netlist

end BitUnroll
