import BitUnroll.Logic.Circuit
import BitUnroll.Symbols.Resolver
import BitUnroll.Word.Basic

/-!
# Unrolled variables

The literals of state variables in numbered timeframes: a finite map from a timeframe, a name and
a bit to a literal. Beside the literals it keeps how many bits each variable has in each
timeframe, up to the highest one that was set, and how many timeframes there are.

## Main definitions

* `Unrolled.set`, `Unrolled.get?`: one bit.
* `Unrolled.setWord`, `Unrolled.word?`: all bits of a variable in a timeframe.
* `Unrolled.allocate`: fresh literals for variables in all timeframes up to a bound.
-/

namespace BitUnroll

/-- One bit of a variable in a timeframe. -/
structure Slot where
  timeframe : Nat
  name : String
  bit : Nat
  deriving DecidableEq, Repr

namespace Slot

/-- Slots are ordered by timeframe, then by name, then by bit. -/
def order : Slot → Slot → Ordering :=
  compareLex (compareOn Slot.timeframe) (compareLex (compareOn Slot.name) (compareOn Slot.bit))

instance : Std.TransCmp order :=
  inferInstanceAs (Std.TransCmp (compareLex (compareOn Slot.timeframe)
    (compareLex (compareOn Slot.name) (compareOn Slot.bit))))

instance : Std.LawfulEqCmp order where
  eq_of_compare {x y} h := by
    obtain ⟨s, n, i⟩ := x
    obtain ⟨t, m, j⟩ := y
    simp only [order, compareLex_eq_eq, compareOn] at h
    obtain ⟨ht, hn, hi⟩ := h
    rw [Std.LawfulEqOrd.eq_of_compare ht, Std.LawfulEqOrd.eq_of_compare hn,
      Std.LawfulEqOrd.eq_of_compare hi]

end Slot

/-- A variable in a timeframe. -/
structure Place where
  timeframe : Nat
  name : String
  deriving DecidableEq, Repr

namespace Place

/-- Places are ordered by timeframe, then by name. -/
def order : Place → Place → Ordering :=
  compareLex (compareOn Place.timeframe) (compareOn Place.name)

instance : Std.TransCmp order :=
  inferInstanceAs (Std.TransCmp (compareLex (compareOn Place.timeframe) (compareOn Place.name)))

instance : Std.LawfulEqCmp order where
  eq_of_compare {x y} h := by
    obtain ⟨s, n⟩ := x
    obtain ⟨t, m⟩ := y
    simp only [order, compareLex_eq_eq, compareOn] at h
    rw [Std.LawfulEqOrd.eq_of_compare h.1, Std.LawfulEqOrd.eq_of_compare h.2]

end Place

/-- The literals of variables in numbered timeframes. -/
structure Unrolled where
  slots : Std.TreeMap Slot Literal Slot.order := ∅
  lengths : Std.TreeMap Place Nat Place.order := ∅
  timeframes : Nat := 0

namespace Unrolled

/-- The map without literals. -/
def empty : Unrolled := {}

/-- The literal of one bit. -/
def get? (m : Unrolled) (t : Nat) (name : String) (bit : Nat) : Option Literal :=
  m.slots[(⟨t, name, bit⟩ : Slot)]?

/-- One more than the highest bit of a variable that was set in a timeframe. -/
def length? (m : Unrolled) (t : Nat) (name : String) : Option Nat :=
  m.lengths[(⟨t, name⟩ : Place)]?

/-- Sets one bit. -/
def set (m : Unrolled) (t : Nat) (name : String) (bit : Nat) (l : Literal) : Unrolled where
  slots := m.slots.insert ⟨t, name, bit⟩ l
  lengths := m.lengths.insert ⟨t, name⟩ (max ((m.length? t name).getD 0) (bit + 1))
  timeframes := max m.timeframes (t + 1)

/-- Sets the bits of a word from a number on. -/
def setFrom (m : Unrolled) (t : Nat) (name : String) : Nat → Word → Unrolled
  | _, [] => m
  | bit, l :: rest => (m.set t name bit l).setFrom t name (bit + 1) rest

/-- Sets the bits of a word from the first one on. -/
def setWord (m : Unrolled) (t : Nat) (name : String) (w : Word) : Unrolled :=
  m.setFrom t name 0 w

/-- All bits of a variable in a timeframe, if there are any and none was left out. -/
def word? (m : Unrolled) (t : Nat) (name : String) : Option Word := do
  (List.range (← m.length? t name)).mapM (m.get? t name)

/-- The literal of one bit, or a miss. -/
def get (m : Unrolled) (t : Nat) (name : String) (bit : Nat) : Except Miss Literal :=
  match m.get? t name bit with
  | some l => .ok l
  | none => .error (.timeframe name bit t)

/-- The map as a resolver for any number of timeframes. -/
def resolver (m : Unrolled) : Resolver where
  multiStep := true
  resolve name bit t := m.get t name bit

/-! ## Allocation -/

/-- Sets the bits of a variable in a timeframe, from a number on, to fresh literals. -/
def allocateBits (t : Nat) (name : String) : Nat → Nat → Unrolled → Build Unrolled
  | _, 0, m => return m
  | bit, count + 1, m => do
    let l ← Circuit.fresh
    allocateBits t name (bit + 1) count (m.set t name bit l)

/-- Sets the bits of variables in a timeframe to fresh literals. -/
def allocateVars (t : Nat) (vars : List (String × Nat)) (m : Unrolled) : Build Unrolled :=
  vars.foldlM (fun m (name, width) => allocateBits t name 0 width m) m

/-- Fresh literals for variables, given with their widths, in each of the first timeframes.
Without a bit to set there is no timeframe in the map, whatever the bound. -/
def allocate (vars : List (String × Nat)) (timeframes : Nat) : Build Unrolled :=
  (List.range timeframes).foldlM (fun m t => allocateVars t vars m) empty

/-! ## Reading what was written -/

@[simp] theorem get?_empty (t : Nat) (name : String) (bit : Nat) :
    empty.get? t name bit = none := by
  simp [empty, get?]

@[simp] theorem length?_empty (t : Nat) (name : String) : empty.length? t name = none := by
  simp [empty, length?]

theorem get?_set (m : Unrolled) (t u : Nat) (name other : String) (bit i : Nat) (l : Literal) :
    (m.set t name bit l).get? u other i =
      if t = u ∧ name = other ∧ bit = i then some l else m.get? u other i := by
  simp [set, get?, Std.TreeMap.getElem?_insert]

theorem length?_set (m : Unrolled) (t u : Nat) (name other : String) (bit : Nat) (l : Literal) :
    (m.set t name bit l).length? u other =
      if t = u ∧ name = other then some (max ((m.length? t name).getD 0) (bit + 1))
      else m.length? u other := by
  simp [set, length?, Std.TreeMap.getElem?_insert]

@[simp] theorem timeframes_set (m : Unrolled) (t : Nat) (name : String) (bit : Nat)
    (l : Literal) : (m.set t name bit l).timeframes = max m.timeframes (t + 1) := rfl

end Unrolled

end BitUnroll
