import BitUnroll.Sat.Conflict

/-!
# Search for a model

A search that chooses literals, propagates what follows, and learns from conflicts, until every
variable has a value or a conflict arises before any choice. From time to time it takes all choices
back, and forgets learned clauses that had literals of many levels.

A search that ends in a conflict leaves a derivation of the empty clause. Nothing here is trusted:
what a search answers is checked afterwards.
-/

namespace BitUnroll.Sat

/-! ## When to begin anew and when to forget -/

/-- The conflicts of a search so far, and what is to happen at which number of them. -/
structure Schedule where
  conflicts : Nat := 0
  /-- When all choices are taken back. -/
  restart : Nat := 0
  /-- Two numbers from which the time between such restarts is found. -/
  turn : Nat × Nat := (1, 1)
  /-- When learned clauses are forgotten, at the next restart. -/
  purge : Nat := 3000
  /-- How often learned clauses have been forgotten. -/
  purges : Nat := 0

namespace Schedule

/-- Counts a conflict. -/
def count (s : Schedule) : Schedule := { s with conflicts := s.conflicts + 1 }

/-- Whether it is time to take all choices back. -/
def restartIsDue (s : Schedule) : Bool := s.restart ≤ s.conflicts

/-- Whether it is time to forget. -/
def purgeIsDue (s : Schedule) : Bool := s.purge ≤ s.conflicts

/-- The number of conflicts that one unit of time between restarts stands for. -/
def unit : Nat := 64

/-- Sets the time of the next restart. The times between restarts are 1, 1, 2, 1, 1, 2, 4, …
units. -/
def afterRestart (s : Schedule) : Schedule :=
  let (n, length) := s.turn
  { s with
    restart := s.conflicts + unit * length
    turn := if n - (n &&& (n - 1)) = length then (n + 1, 1) else (n, 2 * length) }

/-- Sets the time at which clauses are forgotten next, a little later each time. -/
def afterPurge (s : Schedule) : Schedule :=
  { s with purge := s.conflicts + 3000 + 300 * s.purges, purges := s.purges + 1 }

end Schedule

/-! ## Searches -/

/-- A search for a model of the given clauses of its record. -/
structure Search where
  record : Record
  watchers : Watchers
  trail : Trail
  /-- The number of literals of the trail whose watchers have been looked at. -/
  settled : Nat := 0
  /-- A clause that the trail makes false, if one is known. -/
  conflict : Option Nat := none
  /-- For each variable whether it was true when it was last assigned. -/
  phases : Array Bool
  ranking : Ranking
  /-- Room for marks of variables. -/
  marks : Array Mark
  /-- The learned clauses still in use. -/
  learned : Array Nat := #[]
  schedule : Schedule := {}

namespace Search

/-! ## Start -/

/-- The codes of a clause's literals without repetitions. A literal marked with the stamp has been
met. -/
def distinct (stamp : Nat) (marks : Array Nat) (clause : Clause) : List Nat × Array Nat :=
  clause.foldr (fun l (ls, marks) =>
    if marks.getD l.code 0 = stamp then (ls, marks)
    else (l.code :: ls, marks.setIfInBounds l.code stamp))
    ([], marks)

/-- Writes clauses into a book, and watches those of two or more literals. The marks are positive
for the literals met. -/
def enter (book : Book) (watchers : Watchers) (marks : Array Nat) :
    List Clause → Book × Watchers × Array Nat
  | [] => (book, watchers, marks)
  | clause :: rest =>
    let c := book.size
    let (ls, marks) := distinct (c + 1) marks clause
    let book := book.push ls
    enter book (if ls.length < 2 then watchers else watchers.watch book c) marks rest

/-- Assigns the literals of clauses of one literal, from a clause on, up to a clause that is
false. -/
def assignUnits (book : Book) (trail : Trail) (c : Nat) : Nat → Option Nat × Trail
  | 0 => (none, trail)
  | n + 1 =>
    match book.length c with
    | 0 => (some c, trail)
    | 1 =>
      let l := book.literal (book.start c)
      match trail.value l with
      | .holds => assignUnits book trail (c + 1) n
      | .fails => (some c, trail)
      | .unset => assignUnits book (trail.push l (c + 1)) (c + 1) n
    | _ => assignUnits book trail (c + 1) n

/-- The start of a search over variables below a number, which are tried false first. -/
def ofGiven (given : List Clause) (size : Nat) : Search :=
  let (book, watchers, marks) :=
    enter {} (Array.replicate (2 * size) #[]) (Array.replicate (2 * size) 0) given
  let (conflict, trail) := assignUnits book (.empty size) 0 book.size
  let mentioned := (List.range size).filter fun x =>
    marks.getD (2 * x) 0 + marks.getD (2 * x + 1) 0 != 0
  { record := { given := book.size, book }
    watchers, trail, conflict
    phases := Array.replicate size false
    ranking := .ofList size mentioned
    marks := Array.replicate size .blank }

/-! ## Propagation and learning -/

/-- The grounds of literals at places of the text, but for those of one variable. -/
def groundsBut (book : Book) (trail : Trail) (x : Nat) (found : Array Nat) (k : Nat) :
    Nat → Array Nat
  | 0 => found
  | n + 1 =>
    let l := book.literal k
    let found := if l / 2 = x then found else found.push (trail.groundOf l - 1)
    groundsBut book trail x found (k + 1) n

/-- Learns the clause of a literal alone for each literal on the trail from a place on, if its
ground is longer, and makes it the ground. This is done at level zero. -/
def learnUnits (record : Record) (trail : Trail) (k : Nat) : Nat → Record × Trail
  | 0 => (record, trail)
  | n + 1 =>
    let l := trail.literal k
    let c := trail.groundOf l - 1
    let book := record.book
    if book.length c ≤ 1 then learnUnits record trail (k + 1) n
    else
      let origin := groundsBut book trail (l / 2) #[] (book.start c) (book.length c)
      let record := record.push [l] (origin.push c) 1
      learnUnits record (trail.setGround l record.book.size) (k + 1) n

/-- Propagates what has been assigned. -/
def settle (s : Search) : Search :=
  let ⟨⟨given, ⟨text, starts⟩, origins, spreads⟩, watchers, trail, settled, conflict, phases,
    ranking, marks, learned, schedule⟩ := s
  let ⟨found, text, watchers, trail⟩ :=
    propagate starts text watchers trail settled trail.room
  let record : Record := ⟨given, ⟨text, starts⟩, origins, spreads⟩
  let (record, trail) :=
    if trail.level = 0 then learnUnits record trail settled (trail.size - settled)
    else (record, trail)
  let size := trail.size
  ⟨record, watchers, trail, size, conflict <|> found, phases, ranking, marks, learned, schedule⟩

/-- Takes literals back until some are left, remembers their values, and lets their variables wait
for a choice. -/
def unwind (values : Array Value) (literals : Array Nat) (phases : Array Bool) (ranking : Ranking)
    (size : Nat) : Nat → Array Value × Array Nat × Array Bool × Ranking
  | 0 => (values, literals, phases, ranking)
  | n + 1 =>
    if size < literals.size then
      let l := literals.getD (literals.size - 1) 0
      unwind ((values.setIfInBounds l .unset).setIfInBounds (l ^^^ 1) .unset) literals.pop
        (phases.setIfInBounds (l / 2) (l % 2 == 1)) (ranking.insert (l / 2)) size n
    else (values, literals, phases, ranking)

/-- Takes all levels back but some. -/
def backTo (s : Search) (level : Nat) : Search :=
  if level < s.trail.level then
    let ⟨record, watchers, ⟨values, levels, grounds, places, literals, limits⟩, _, conflict,
      phases, ranking, marks, learned, schedule⟩ := s
    let size := limits.getD level 0
    let count := literals.size
    let (values, literals, phases, ranking) := unwind values literals phases ranking size count
    ⟨record, watchers, ⟨values, levels, grounds, places, literals, limits.shrink level⟩, size,
      conflict, phases, ranking, marks, learned, schedule⟩
  else s

/-- Learns from a clause that is false at a level after the first, and goes back to where the
learned clause forces its first literal. -/
def resolveConflict (s : Search) (c : Nat) : Search :=
  let ⟨record, watchers, trail, settled, _, phases, ranking, marks, learned, schedule⟩ := s
  let (lesson, marks, ranking) := Lesson.ofConflict record.book trail marks ranking c
  let level := match lesson.clause with
    | _ :: l :: _ => trail.levelOf l
    | _ => 0
  let record := record.push lesson.clause lesson.origin.toArray lesson.spread
  let new := record.book.size - 1
  let watchers := if level = 0 then watchers else watchers.watch record.book new
  let s : Search := ⟨record, watchers, trail, settled, none, phases, ranking, marks,
    learned.push new, schedule.count⟩
  let s := s.backTo level
  { s with trail := s.trail.push (lesson.clause.headD 0) (new + 1) }

/-! ## Restarts -/

/-- Whether a literal at some places of the text is true. -/
def isSatisfied (book : Book) (trail : Trail) (k : Nat) : Nat → Bool
  | 0 => false
  | n + 1 =>
    match trail.value (book.literal k) with
    | .holds => true
    | _ => isSatisfied book trail (k + 1) n

/-- Watches a clause anew, unless it has one literal or is true already. -/
def watchAgain (book : Book) (trail : Trail) (watchers : Watchers) (c : Nat) : Watchers :=
  if book.length c < 2 || isSatisfied book trail (book.start c) (book.length c) then watchers
  else watchers.watch book c

/-- Forgets half of the learned clauses, those with the most levels first and among equals the
oldest, but none of two levels or fewer. This is done at level zero, where no longer clause is a
ground. -/
def forget (s : Search) : Search :=
  let spread := s.record.spread
  let sorted := s.learned.toList.reverse.mergeSort fun c d => spread c ≤ spread d
  let half := sorted.length / 2
  let learned := (sorted.take half ++ (sorted.drop half).takeWhile (spread · ≤ 2)).reverse
  let empty : Watchers := Array.replicate s.watchers.size #[]
  let watchers := (List.range s.record.given ++ learned).foldl
    (watchAgain s.record.book s.trail) empty
  { s with watchers, learned := learned.toArray, schedule := s.schedule.afterPurge }

/-- Takes all choices back, and forgets if it is time to. -/
def restart (s : Search) : Search :=
  let s := s.backTo 0
  let s := if s.schedule.purgeIsDue then s.forget else s
  { s with schedule := s.schedule.afterRestart }

/-! ## Choices and the end -/

/-- The variable of the highest score without a value, if there is one. -/
def nextFree (trail : Trail) (ranking : Ranking) : Nat → Option Nat × Ranking
  | 0 => (none, ranking)
  | n + 1 =>
    match ranking.pop with
    | (none, ranking) => (none, ranking)
    | (some x, ranking) =>
      match trail.value (2 * x) with
      | .unset => (some x, ranking)
      | _ => nextFree trail ranking n

/-- Chooses a literal, and says whether there was one left to choose. -/
def choose (s : Search) : Search × Bool :=
  let ⟨record, watchers, trail, settled, conflict, phases, ranking, marks, learned, schedule⟩ := s
  let (x?, ranking) := nextFree trail ranking trail.room
  let trail := match x? with
    | none => trail
    | some x => trail.choose (2 * x + (phases.getD x false).toNat)
  (⟨record, watchers, trail, settled, conflict, phases, ranking, marks, learned, schedule⟩,
    x?.isSome)

/-- The derivation that a search leaves with a clause that is false at level zero. -/
def derivation (s : Search) (c : Nat) : Derivation :=
  let book := s.record.book
  let origin := groundsBut book s.trail s.trail.room #[] (book.start c) (book.length c)
  (s.record.push [] (origin.push c) 0).derivation

end Search

/-- The end of a search. -/
inductive Verdict where
  | model (values : Array Bool)
  | refuted (derivation : Derivation)
  | unknown

/-- Searches until there is a verdict. The count bounds conflicts, restarts and choices. -/
def Search.run (s : Search) : Nat → Verdict
  | 0 => .unknown
  | n + 1 =>
    let s := s.settle
    match s.conflict with
    | some c =>
      if s.trail.level = 0 then .refuted (s.derivation c) else run (s.resolveConflict c) n
    | none =>
      if s.schedule.restartIsDue then run s.restart n
      else
        let (s, chosen) := s.choose
        if chosen then run s n else .model s.trail.assignment

end BitUnroll.Sat
