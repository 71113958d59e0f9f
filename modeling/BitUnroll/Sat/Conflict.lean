import BitUnroll.Sat.Propagation
import BitUnroll.Sat.Ranking

/-!
# Conflicts

When a trail makes a clause false, that clause and the grounds of its literals are followed back
until one literal of the present level is left. The clause of that literal and of the literals of
earlier levels, all negated, follows from the clauses met: it can be learned, with those clauses as
its origin in an order in which each of them forces a literal or, at the end, is false. Literals
that others of the clause imply are left out.

At level zero the ground of a literal has to be a clause of that literal alone. All literals below
are false on the trail unless said otherwise.
-/

namespace BitUnroll.Sat

/-- The mark of a variable while a conflict is followed back. -/
inductive Mark where
  /-- Not looked at so far. -/
  | blank
  /-- A literal of it is in a clause met. -/
  | met
  /-- The variables met imply its literal. -/
  | implied
  /-- That they do could not be shown. -/
  | needed
  deriving DecidableEq, Inhabited, Repr

/-- What has been found about a conflict: marks of variables, the variables marked, the literals of
earlier levels, the grounds of literals of level zero, and the number of literals of the present
level that are still to be followed. Variables that are met rise in the ranking. -/
structure Trace where
  marks : Array Mark
  ranking : Ranking
  marked : List Nat := []
  below : List Nat := []
  units : List Nat := []
  pending : Nat := 0

namespace Trace

/-- The mark of the variable of a literal. -/
@[inline] def mark (s : Trace) (l : Nat) : Mark := s.marks.getD (l / 2) .blank

/-- Marks the variable of a literal. -/
def setMark (s : Trace) (l : Nat) (m : Mark) : Trace :=
  { s with marks := s.marks.setIfInBounds (l / 2) m, marked := (l / 2) :: s.marked }

/-- Takes note of literals at places of the text. -/
def meet (book : Book) (trail : Trail) (s : Trace) (k : Nat) : Nat → Trace
  | 0 => s
  | n + 1 =>
    let l := book.literal k
    match s.mark l with
    | .blank =>
      let ⟨marks, ranking, marked, below, units, pending⟩ := s
      let marks := marks.setIfInBounds (l / 2) .met
      let marked := (l / 2) :: marked
      let level := trail.levelOf l
      if level = 0 then
        meet book trail
          ⟨marks, ranking, marked, below, (trail.groundOf l - 1) :: units, pending⟩ (k + 1) n
      else
        let ranking := ranking.raise (l / 2)
        if level = trail.level then
          meet book trail ⟨marks, ranking, marked, below, units, pending + 1⟩ (k + 1) n
        else meet book trail ⟨marks, ranking, marked, l :: below, units, pending⟩ (k + 1) n
    | _ => meet book trail s (k + 1) n

/-- Takes note of the literals of a clause. -/
def meetClause (book : Book) (trail : Trail) (s : Trace) (c : Nat) : Trace :=
  meet book trail s (book.start c) (book.length c)

/-- Follows the present level back from a place of the trail to the one literal that is left of
it. Gives its negation, and the grounds followed in the order of the trail. -/
def follow (book : Book) (trail : Trail) (s : Trace) (chain : List Nat) :
    Nat → Nat × List Nat × Trace
  | 0 => (0, chain, s)
  | k + 1 =>
    let l := trail.literal k
    match s.mark l with
    | .met =>
      if s.pending ≤ 1 then (l ^^^ 1, chain, s)
      else
        let c := trail.groundOf l - 1
        follow book trail (meetClause book trail { s with pending := s.pending - 1 } c)
          (c :: chain) k
    | _ => follow book trail s chain k

/-- Whether literals at places of the text, but those of one variable, are met or implied. The
chain collects the grounds used, and the fuel bounds how deep grounds are followed. -/
def implies (book : Book) (trail : Trail) (fuel : Nat) (s : Trace) (chain : List Nat)
    (x k n : Nat) : Bool × List Nat × Trace :=
  match n with
  | 0 => (true, chain, s)
  | n + 1 =>
    let l := book.literal k
    if l / 2 = x then implies book trail fuel s chain x (k + 1) n
    else
      match s.mark l with
      | .met | .implied => implies book trail fuel s chain x (k + 1) n
      | .needed => (false, chain, s)
      | .blank =>
        let ground := trail.groundOf l
        if trail.levelOf l = 0 then
          let s := { s.setMark l .implied with units := (ground - 1) :: s.units }
          implies book trail fuel s chain x (k + 1) n
        else if ground = 0 then (false, chain, s.setMark l .needed)
        else
          match fuel with
          | 0 => (false, chain, s.setMark l .needed)
          | fuel + 1 =>
            let c := ground - 1
            let (all, chain, s) :=
              implies book trail fuel s chain (l / 2) (book.start c) (book.length c)
            if all then
              implies book trail (fuel + 1) (s.setMark l .implied) (c :: chain) x (k + 1) n
            else (false, chain, s.setMark l .needed)
termination_by (fuel, n)

/-- How deep grounds are followed to leave out a literal. -/
def depth : Nat := 400

/-- Leaves out literals, given in the order of the trail, that are implied by the others. Gives
the others with the last first, and the grounds used likewise. -/
def prune (book : Book) (trail : Trail) (s : Trace) (chain kept : List Nat) :
    List Nat → List Nat × List Nat × Trace
  | [] => (kept, chain, s)
  | l :: rest =>
    let ground := trail.groundOf l
    if ground = 0 then prune book trail s chain (l :: kept) rest
    else
      let c := ground - 1
      let (all, chain, s) :=
        implies book trail depth s chain (l / 2) (book.start c) (book.length c)
      if all then prune book trail s (c :: chain) kept rest
      else prune book trail s chain (l :: kept) rest

end Trace

/-- The number of levels of literals in the order of the trail, from a level and a count on. -/
def levelCount (trail : Trail) (last count : Nat) : List Nat → Nat
  | [] => count
  | l :: rest =>
    let level := trail.levelOf l
    if level = last then levelCount trail last count rest
    else levelCount trail level (count + 1) rest

/-- What is learned from a conflict: a clause whose first literal is of the present level and whose
second is of the latest level of all others, the clauses from which it follows, and the number of
its levels. -/
structure Lesson where
  clause : List Nat
  origin : List Nat
  spread : Nat

/-- What is learned from a clause that is false at a level after the first. The marks are blank
before and after. -/
def Lesson.ofConflict (book : Book) (trail : Trail) (marks : Array Mark) (ranking : Ranking)
    (c : Nat) : Lesson × Array Mark × Ranking :=
  let (l, chain, s) := Trace.follow book trail
    (Trace.meetClause book trail { marks, ranking } c) [c] trail.size
  let sorted := s.below.mergeSort fun x y => trail.placeOf x ≤ trail.placeOf y
  let (kept, early, s) := s.prune book trail [] [] sorted
  let marks := s.marked.foldl (fun marks x => marks.setIfInBounds x .blank) s.marks
  (⟨l :: kept, s.units ++ early.reverseAux chain, levelCount trail 0 1 kept⟩, marks,
    s.ranking.age)

end BitUnroll.Sat
