import BitUnroll.Sat.Record

/-!
# Trails and propagation

A trail has the literals that a search has assigned, in the order in which it did. It is cut into
levels: level zero holds what follows from the clauses alone, and every further level begins with a
choice. A literal that a clause forced has that clause as its ground. Literals are known by their
code.

A clause of two or more literals is watched under its first two. Only when one of these becomes
false is the clause looked at: it then moves another literal, one that is not false, to the place
of that one and is watched under it, or it forces the other of the two, or it is false.

The watchers of a literal are an array of pairs: a clause, and another literal of it. Where that
literal is true, the clause need not be looked at.

## Main definitions

* `Trail`: assigned literals.
* `propagate`: what the literals of a trail force.
-/

namespace BitUnroll.Sat

/-! ## Trails -/

/-- What a trail says about a literal. -/
inductive Value where
  | unset
  | holds
  | fails
  deriving DecidableEq, Inhabited, Repr

/-- Assigned literals. -/
structure Trail where
  /-- For each literal what the trail says about it. -/
  values : Array Value
  /-- For each assigned variable its level. -/
  levels : Array Nat
  /-- For each assigned variable one more than its ground, or zero where it was chosen. -/
  grounds : Array Nat
  /-- For each assigned variable its place. -/
  places : Array Nat
  literals : Array Nat := #[]
  /-- Where each level after the first begins. -/
  limits : Array Nat := #[]

namespace Trail

/-- The trail without literals over variables below a number. -/
def empty (size : Nat) : Trail where
  values := Array.replicate (2 * size) .unset
  levels := Array.replicate size 0
  grounds := Array.replicate size 0
  places := Array.replicate size 0

/-- The number of variables that a trail has room for. -/
def room (t : Trail) : Nat := t.levels.size

/-- The number of literals. -/
def size (t : Trail) : Nat := t.literals.size

/-- The present level. -/
def level (t : Trail) : Nat := t.limits.size

/-- What the trail says about a literal. -/
@[inline] def value (t : Trail) (l : Nat) : Value := t.values.getD l .unset

/-- The level of an assigned literal. -/
@[inline] def levelOf (t : Trail) (l : Nat) : Nat := t.levels.getD (l / 2) 0

/-- One more than the ground of an assigned literal, or zero where it was chosen. -/
@[inline] def groundOf (t : Trail) (l : Nat) : Nat := t.grounds.getD (l / 2) 0

/-- The place of an assigned literal. -/
@[inline] def placeOf (t : Trail) (l : Nat) : Nat := t.places.getD (l / 2) 0

/-- The literal at a place. -/
@[inline] def literal (t : Trail) (k : Nat) : Nat := t.literals.getD k 0

/-- Assigns a literal. -/
def push (t : Trail) (l ground : Nat) : Trail where
  values := (t.values.setIfInBounds l .holds).setIfInBounds (l ^^^ 1) .fails
  levels := t.levels.setIfInBounds (l / 2) t.limits.size
  grounds := t.grounds.setIfInBounds (l / 2) ground
  places := t.places.setIfInBounds (l / 2) t.literals.size
  literals := t.literals.push l
  limits := t.limits

/-- Begins a level with a literal. -/
def choose (t : Trail) (l : Nat) : Trail :=
  { t with limits := t.limits.push t.literals.size }.push l 0

/-- Gives an assigned literal another ground. -/
def setGround (t : Trail) (l ground : Nat) : Trail :=
  { t with grounds := t.grounds.setIfInBounds (l / 2) ground }

/-- The values of variables, of which those without one are false. -/
def assignment (t : Trail) : Array Bool :=
  (Array.range t.room).map fun x => t.value (2 * x + 1) == .holds

end Trail

/-! ## Propagation -/

/-- For each literal the clauses watched under it. -/
abbrev Watchers := Array (Array Nat)

/-- Watches a clause under a literal. -/
@[inline] def Watchers.add (w : Watchers) (l c other : Nat) : Watchers :=
  w.modify l fun ws => (ws.push c).push other

/-- Watches a clause under its first two literals. -/
def Watchers.watch (w : Watchers) (b : Book) (c : Nat) : Watchers :=
  let start := b.start c
  let l := b.literal start
  let m := b.literal (start + 1)
  (w.add l c m).add m c l

/-- The end of a propagation: a clause that is false, if there is one, and what has become of the
text of the clauses, their watchers and the trail. -/
structure Propagated where
  conflict : Option Nat
  text : Array Nat
  watchers : Watchers
  trail : Trail

/-- The first of some places of the text whose literal is not false, or the place behind them. -/
def firstOpen (text : Array Nat) (values : Array Value) (k : Nat) : Nat → Nat
  | 0 => k
  | n + 1 =>
    match values.getD (text.getD k 0) .unset with
    | .fails => firstOpen text values (k + 1) n
    | _ => k

/-- Writes a pair of watchers at a place. -/
@[inline] def putPair (ws : Array Nat) (k c other : Nat) : Array Nat :=
  (ws.setIfInBounds k c).setIfInBounds (k + 1) other

/-- Moves pairs of watchers to the front, behind those kept. -/
def keepRest (ws : Array Nat) (kept i : Nat) : Nat → Array Nat
  | 0 => ws.shrink kept
  | n + 1 => keepRest (putPair ws kept (ws.getD i 0) (ws.getD (i + 1) 0)) (kept + 2) (i + 2) n

/-- Looks at watchers of a literal that has become false. Those kept are moved to the front, as
others leave for another literal. -/
def visit (starts : Array Nat) (l : Nat) (text : Array Nat) (watchers : Watchers) (trail : Trail)
    (ws : Array Nat) (kept i : Nat) : Nat → Propagated
  | 0 => ⟨none, text, watchers.setIfInBounds l (ws.shrink kept), trail⟩
  | n + 1 =>
    let c := ws.getD i 0
    let blocker := ws.getD (i + 1) 0
    match trail.value blocker with
    | .holds =>
      visit starts l text watchers trail (putPair ws kept c blocker) (kept + 2) (i + 2) n
    | _ =>
      let start := starts.getD c 0
      let a := text.getD start 0
      let other := if a = l then text.getD (start + 1) 0 else a
      match trail.value other with
      | .holds =>
        visit starts l text watchers trail (putPair ws kept c other) (kept + 2) (i + 2) n
      | value =>
        let stop := starts.getD (c + 1) 0
        let k := firstOpen text trail.values (start + 2) (stop - (start + 2))
        if k < stop then
          let x := text.getD k 0
          let text := ((text.setIfInBounds start other).setIfInBounds (start + 1) x).setIfInBounds
            k l
          visit starts l text (watchers.add x c other) trail ws kept (i + 2) n
        else
          let ws := putPair ws kept c other
          match value with
          | .fails =>
            ⟨some c, text, watchers.setIfInBounds l (keepRest ws (kept + 2) (i + 2) n), trail⟩
          | _ => visit starts l text watchers (trail.push other (c + 1)) ws (kept + 2) (i + 2) n

/-- Looks at the watchers of the literals that the trail has made false from a place on, as long as
no clause is false. The count bounds the number of literals. -/
def propagate (starts : Array Nat) (text : Array Nat) (watchers : Watchers) (trail : Trail)
    (settled : Nat) : Nat → Propagated
  | 0 => ⟨none, text, watchers, trail⟩
  | n + 1 =>
    if settled < trail.size then
      let l := trail.literal settled ^^^ 1
      let ws := watchers.getD l #[]
      let watchers := watchers.setIfInBounds l #[]
      let ⟨conflict, text, watchers, trail⟩ :=
        visit starts l text watchers trail ws 0 0 (ws.size / 2)
      match conflict with
      | none => propagate starts text watchers trail (settled + 1) n
      | some c => ⟨some c, text, watchers, trail⟩
    else ⟨none, text, watchers, trail⟩

end BitUnroll.Sat
