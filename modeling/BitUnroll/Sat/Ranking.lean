/-!
# Ranking

Variables that wait for a choice, with the one of the highest score at hand. They are kept in a
binary heap: the children of place `i` are the places `2 * i + 1` and `2 * i + 2`, and no child has
a higher score than its parent.

Scores favour what was used lately. Raising a score adds the present weight to it, and the weight
grows by one part in sixteen from one round to the next. When numbers get large, all are divided
alike.
-/

namespace BitUnroll.Sat

/-- Variables by score. A variable that waits has one more than its place in the heap as its
position, and any other has zero. -/
structure Ranking where
  heap : Array Nat
  positions : Array Nat
  scores : Array Nat
  weight : Nat

namespace Ranking

/-- Whether a variable waits. -/
def contains (r : Ranking) (x : Nat) : Bool := r.positions.getD x 0 != 0

/-- Puts a variable at a place or, as long as it beats the parent there, further up. -/
def siftUp (scores heap positions : Array Nat) (i x : Nat) : Array Nat × Array Nat :=
  if h : i = 0 then (heap.setIfInBounds 0 x, positions.setIfInBounds x 1)
  else
    let up := (i - 1) / 2
    let y := heap.getD up 0
    if scores.getD y 0 < scores.getD x 0 then
      siftUp scores (heap.setIfInBounds i y) (positions.setIfInBounds y (i + 1)) up x
    else (heap.setIfInBounds i x, positions.setIfInBounds x (i + 1))
termination_by i
decreasing_by omega

/-- Puts a variable at a place or, as long as a child there beats it, further down. The count
bounds the number of levels below. -/
def siftDown (scores heap positions : Array Nat) (i x : Nat) : Nat → Array Nat × Array Nat
  | 0 => (heap.setIfInBounds i x, positions.setIfInBounds x (i + 1))
  | n + 1 =>
    let left := 2 * i + 1
    let right := left + 1
    let first :=
      if right < heap.size && scores.getD (heap.getD left 0) 0 < scores.getD (heap.getD right 0) 0
      then right else left
    let y := heap.getD first 0
    if first < heap.size && scores.getD x 0 < scores.getD y 0 then
      siftDown scores (heap.setIfInBounds i y) (positions.setIfInBounds y (i + 1)) first x n
    else (heap.setIfInBounds i x, positions.setIfInBounds x (i + 1))

/-- Lets a variable wait. -/
def insert (r : Ranking) (x : Nat) : Ranking :=
  if r.contains x then r
  else
    let ⟨heap, positions, scores, weight⟩ := r
    let last := heap.size
    let (heap, positions) := siftUp scores (heap.push x) positions last x
    ⟨heap, positions, scores, weight⟩

/-- The variable of the highest score, if any waits, which then waits no longer. The last variable
of the heap fills its place. -/
def pop (r : Ranking) : Option Nat × Ranking :=
  let ⟨heap, positions, scores, weight⟩ := r
  match heap[0]?, heap.back? with
  | some best, some last =>
    let heap := heap.pop
    let positions := positions.setIfInBounds best 0
    if heap.isEmpty then (some best, ⟨heap, positions, scores, weight⟩)
    else
      let count := heap.size
      let (heap, positions) := siftDown scores heap positions 0 last count
      (some best, ⟨heap, positions, scores, weight⟩)
  | _, _ => (none, ⟨heap, positions, scores, weight⟩)

/-- The number from which on scores count as large. -/
def ceiling : Nat := 72057594037927936

/-- Divides all scores, and the weight, when the weight has become large. -/
def rescale (r : Ranking) : Ranking :=
  if ceiling < r.weight then
    { r with scores := r.scores.map (· >>> 40), weight := r.weight >>> 40 }
  else r

/-- Raises the score of a variable by the present weight. -/
def raise (r : Ranking) (x : Nat) : Ranking :=
  let ⟨heap, positions, scores, weight⟩ := r
  let score := scores.getD x 0 + weight
  let scores := scores.setIfInBounds x score
  let position := positions.getD x 0
  if position = 0 then ⟨heap, positions, scores, weight⟩
  else
    let (heap, positions) := siftUp scores heap positions (position - 1) x
    ⟨heap, positions, scores, weight⟩

/-- Lets the weight grow. -/
def age (r : Ranking) : Ranking :=
  rescale { r with weight := r.weight + r.weight / 20 }

/-- Variables below a bound, which wait in the given order. -/
def ofList (size : Nat) (xs : List Nat) : Ranking :=
  xs.foldl insert ⟨#[], Array.replicate size 0, Array.replicate size 0, 65536⟩

end Ranking

end BitUnroll.Sat
