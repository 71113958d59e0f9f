import BitUnroll.Sat.Search
import BitUnroll.Sat.Solver
import Std.Data.TreeSet

/-!
# Deciding clauses

Whether clauses have a model. The answer carries its own evidence. A search gives a model or a
derivation of the empty clause, neither of which is believed before it has been checked. Should the
search give up, all assignments are tried: the variables are given values one by one, each false
and then, where the answer depends on it, true. This is the solver of the program.

## Main definitions

* `Sat.Answer`: a model, or a consequence that a trail makes false.
* `Sat.decideClauses`: a model of clauses, or the fact that there is none.
* `Solver.search`: this as a solver.
-/

namespace BitUnroll

namespace Sat

/-! ## Exhaustion of all assignments -/

variable {given : List Clause}

/-- An answer where the literals of a trail are true: a model, or a consequence that the trail
makes false. For the empty trail this is the empty clause. -/
inductive Answer (given : List Clause) (trail : List Literal) where
  | model (v : Valuation) (h : Models v given)
  | refuted (c : Consequence given) (h : ∀ l ∈ c.clause, -l ∈ trail)

/-- Every variable of the given clauses is free or has a literal on the trail. -/
def Covers (given : List Clause) (trail : List Literal) (free : List Nat) : Prop :=
  ∀ c ∈ given, ∀ l ∈ c, l.var ∈ free ∨ l ∈ trail ∨ -l ∈ trail

theorem Covers.assign {trail : List Literal} {x : Nat} {free : List Nat}
    (h : Covers given trail (x :: free)) (s : Bool) : Covers given (⟨x, s⟩ :: trail) free := by
  intro c hc l hl
  rcases h c hc l hl with h | h | h
  · rcases List.mem_cons.1 h with rfl | h
    · obtain ⟨_, t⟩ := l
      cases s <;> cases t <;> simp [Neg.neg, Literal.negate]
    · exact .inl h
  · exact .inr (.inl (List.mem_cons_of_mem _ h))
  · exact .inr (.inr (List.mem_cons_of_mem _ h))

/-- The assignment that makes a variable true where its literal is on the trail. -/
def trailValuation (trail : List Literal) : Valuation := fun x => trail.contains ⟨x, true⟩

namespace Answer

variable {trail : List Literal}

/-- The answer where no variable is free: the trail gives a model, or makes a given clause
false. -/
def ofFull (h : Covers given trail []) : Answer given trail :=
  let v := trailValuation trail
  match hfind : (Consequence.ofGiven given).find? fun c => !c.clause.eval v with
  | none => .model v fun c hc => by
      have := List.find?_eq_none.1 hfind ⟨c, fun _ hv => hv c hc⟩
        (List.mem_map.2 ⟨⟨c, hc⟩, List.mem_attach .., rfl⟩)
      simpa using this
  | some c => .refuted c fun l hl => by
      have hfalse := List.find?_some hfind
      obtain ⟨⟨d, hd⟩, _, rfl⟩ := List.mem_map.1 (List.mem_of_find?_eq_some hfind)
      simp only [Bool.not_eq_true', Clause.eval, List.any_eq_false] at hfalse
      have hl' := hfalse l hl
      obtain ⟨x, s⟩ := l
      rcases h d hd ⟨x, s⟩ hl with h | h | h
      · exact absurd h List.not_mem_nil
      · cases s <;> simp_all [Literal.eval, v, trailValuation, Neg.neg, Literal.negate]
      · exact h

/-- Takes back a literal that a consequence forces: one that is false because of the literal is
resolved with the consequence. -/
def retract {l : Literal} (c : Consequence given) (hc : ∀ x ∈ c.clause, x = l ∨ -x ∈ trail) :
    Answer given (l :: trail) → Answer given trail
  | .model v h => .model v h
  | .refuted d hd =>
    if hmem : -l ∈ d.clause then
      .refuted (.resolve l c d) fun x hx => by
        rcases Consequence.mem_resolventClause.1 hx with ⟨hx, hne⟩ | ⟨hx, hne⟩
        · exact (hc x hx).resolve_left hne
        · rcases List.mem_cons.1 (hd x hx) with h | h
          · exact absurd (by rw [← h, Literal.neg_neg]) hne
          · exact h
    else
      .refuted d fun x hx => by
        rcases List.mem_cons.1 (hd x hx) with h | h
        · exact absurd (by rwa [← h, Literal.neg_neg]) hmem
        · exact h

end Answer

/-- The answer where some variables are free, after trying all of their values. -/
def exhaust (trail : List Literal) : (free : List Nat) → Covers given trail free →
    Answer given trail
  | [], h => .ofFull h
  | x :: free, h =>
    match exhaust (⟨x, false⟩ :: trail) free (h.assign false) with
    | .model v hv => .model v hv
    | .refuted c hc =>
      have hc' : ∀ y ∈ c.clause, y = ⟨x, true⟩ ∨ -y ∈ trail := fun y hy => by
        rcases List.mem_cons.1 (hc y hy) with h | h
        · exact .inl (by rw [← Literal.neg_neg y, h]; rfl)
        · exact .inr h
      if hmem : ⟨x, true⟩ ∈ c.clause then
        (exhaust (⟨x, true⟩ :: trail) free (h.assign true)).retract c hc'
      else .refuted c fun y hy => (hc' y hy).resolve_left fun heq => hmem (heq ▸ hy)

/-- The variables of clauses, in increasing order. -/
def mentioned (given : List Clause) : List Nat :=
  (Std.TreeSet.ofList (given.flatMap fun c => c.map (·.var))).toList

theorem var_mem_mentioned {c : Clause} {l : Literal} (hc : c ∈ given) (hl : l ∈ c) :
    l.var ∈ mentioned given := by
  simp only [mentioned, Std.TreeSet.mem_toList, Std.TreeSet.mem_ofList, List.contains_iff_mem,
    List.mem_flatMap, List.mem_map]
  exact ⟨c, hc, l, hl, rfl⟩

theorem covers_mentioned : Covers given [] (mentioned given) := fun _ hc _ hl =>
  .inl (var_mem_mentioned hc hl)

/-! ## Search and check -/

/-- The number of conflicts, restarts and choices after which a search gives up. -/
def patience : Nat := 1000000000000

/-- One more than the largest variable of clauses. -/
def bound (given : List Clause) : Nat :=
  given.foldl (fun m c => c.foldl (fun m l => max m (l.var + 1)) m) 0

/-- A model of clauses, or the empty clause as a consequence. -/
def decideClauses (given : List Clause) : Answer given [] :=
  let size := bound given
  match (Search.ofGiven given size).run patience with
  | .model values =>
    let v : Valuation := fun x => values.getD x false
    if h : Models v given then .model v h else exhaust [] _ covers_mentioned
  | .refuted derivation =>
    match derivation.refute? given (2 * size) with
    | some ⟨c, hc⟩ => .refuted c fun _ hl => absurd (hc ▸ hl) List.not_mem_nil
    | none => exhaust [] _ covers_mentioned
  | .unknown => exhaust [] _ covers_mentioned

/-- The clauses that numbers are. -/
def ofNumbers (clauses : List (List Int)) : List Clause :=
  clauses.map (·.filterMap Literal.ofDimacs?)

/-- The numbers of the literals over some variables that an assignment makes true. -/
def trueNumbers (xs : List Nat) (v : Valuation) : List Int :=
  xs.map fun x => (⟨x, v x⟩ : Literal).toDimacs

end Sat

/-- The search as a solver. Its models give the variables that the clauses mention. -/
def Solver.search : Solver := fun clauses =>
  let given := Sat.ofNumbers clauses
  match Sat.decideClauses given with
  | .model v _ => .satisfiable (some (Sat.trueNumbers (Sat.mentioned given) v))
  | .refuted .. => .unsatisfiable

end BitUnroll
