import BitUnroll.Sat.Derivation

/-!
# Books and records of clauses

The clauses of a search by number. A book has the literals of all of them one after the other in one
array. A literal stands there as its code, so that a literal and its negation differ in the last bit
only. A record has the given clauses and behind them those that were learned, with the clauses from
which each learned one follows. A record in which the empty clause has been learned gives a
derivation of it.
-/

namespace BitUnroll.Sat

/-! ## Books -/

/-- Clauses by number. -/
structure Book where
  /-- The literals of all clauses. -/
  text : Array Nat := #[]
  /-- Where each clause begins in the text, and last where the next one will. -/
  starts : Array Nat := #[0]

namespace Book

/-- The number of clauses. -/
def size (b : Book) : Nat := b.starts.size - 1

/-- Where a clause begins in the text. -/
def start (b : Book) (c : Nat) : Nat := b.starts.getD c 0

/-- Where a clause ends in the text. -/
def stop (b : Book) (c : Nat) : Nat := b.starts.getD (c + 1) 0

/-- The number of literals of a clause. -/
def length (b : Book) (c : Nat) : Nat := b.stop c - b.start c

/-- The literal at a place of the text. -/
@[inline] def literal (b : Book) (k : Nat) : Nat := b.text.getD k 0

/-- Writes a clause behind the others. -/
def push (b : Book) (ls : List Nat) : Book :=
  let text := ls.foldl Array.push b.text
  ⟨text, b.starts.push text.size⟩

/-- A clause. -/
def clause (b : Book) (c : Nat) : Clause :=
  ((b.text.extract (b.start c) (b.stop c)).map fun l => (⟨l / 2, l % 2 == 1⟩ : Literal)).toList

end Book

/-! ## Records -/

/-- Given clauses and, behind them, learned ones. -/
structure Record where
  /-- The number of the given clauses. -/
  given : Nat
  book : Book
  /-- The clauses from which each learned clause follows. -/
  origins : Array (Array Nat) := #[]
  /-- The number of levels of the trail that each learned clause had literals of. -/
  spreads : Array Nat := #[]

namespace Record

/-- Learns a clause. -/
def push (r : Record) (ls : List Nat) (origin : Array Nat) (spread : Nat) : Record :=
  { r with
    book := r.book.push ls
    origins := r.origins.push origin
    spreads := r.spreads.push spread }

/-- The clauses from which a learned clause follows. -/
def origin (r : Record) (c : Nat) : Array Nat := r.origins.getD (c - r.given) #[]

/-- The number of levels that a learned clause had literals of. -/
def spread (r : Record) (c : Nat) : Nat := r.spreads.getD (c - r.given) 0

/-- Marks the learned clauses that marked ones among the first of them need, from the last to the
first. -/
def markNeeded (r : Record) (needed : Array Bool) : Nat → Array Bool
  | 0 => needed
  | n + 1 =>
    if needed.getD n false then
      markNeeded r ((r.origin (r.given + n)).foldl
        (fun needed c => if c < r.given then needed else needed.setIfInBounds (c - r.given) true)
        needed) n
    else markNeeded r needed n

/-- The derivation of the learned clauses that the last of them needs. Clauses that are left out
leave no gap in the numbers of the others. -/
def derivation (r : Record) : Derivation :=
  let count := r.origins.size
  let needed := r.markNeeded ((Array.replicate count false).setIfInBounds (count - 1) true) count
  let (_, _, steps) := (List.range count).foldl
    (fun (numbers, next, steps) n =>
      if needed.getD n false then
        let c := r.given + n
        let origin := (r.origin c).toList.map fun d =>
          if d < r.given then d else numbers.getD (d - r.given) 0
        (numbers.push next, next + 1, (⟨r.book.clause c, origin⟩ : Inference) :: steps)
      else (numbers.push 0, next, steps))
    ((#[] : Array Nat), r.given, ([] : Derivation))
  steps.reverse

end Record

end BitUnroll.Sat
