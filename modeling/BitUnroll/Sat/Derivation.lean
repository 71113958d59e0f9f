import BitUnroll.Logic.Cnf

/-!
# Consequences and derivations

A consequence of given clauses is a clause that every model of them makes true, together with that
fact. The given clauses are consequences, and so is the resolvent of two consequences, on whatever
literal; the empty clause is one only of clauses without a model.

A derivation is a list of clauses each of which follows from given clauses and earlier ones in a
way that is easy to see: where the clause is false, the clauses named with it force one literal
after the other, until one of them is false as well. `Derivation.refute?` checks this clause by
clause until it reaches the empty clause.

## Main definitions

* `Consequence`: a clause with the fact that it follows.
* `Table`: literals that are known to have a property, and that can all be forgotten at once.
* `Status.of`: what a table makes of a clause.
* `Derivation.refute?`: the empty clause as a consequence, if a derivation leads to it.
-/

namespace BitUnroll.Sat

/-! ## Consequences -/

/-- Whether an assignment makes all clauses of a list true. -/
def Models (v : Valuation) (given : List Clause) : Prop := ∀ c ∈ given, c.eval v = true

instance (v : Valuation) (given : List Clause) : Decidable (Models v given) :=
  inferInstanceAs (Decidable (∀ c ∈ given, c.eval v = true))

/-- A clause that holds in every model of the given clauses. -/
structure Consequence (given : List Clause) where
  clause : Clause
  holds : ∀ v, Models v given → clause.eval v = true

namespace Consequence

variable {given : List Clause}

/-- The given clauses with the fact that they are consequences. -/
def ofGiven (given : List Clause) : List (Consequence given) :=
  given.attach.map fun c => ⟨c.1, fun _ hv => hv c.1 c.2⟩

/-- The two clauses without the literal in the first and without its negation in the second. -/
def resolventClause (l : Literal) (c d : Clause) : Clause :=
  let left := c.filter (· != l)
  left ++ d.filter fun x => x != -l && !left.contains x

theorem mem_resolventClause {l x : Literal} {c d : Clause} :
    x ∈ resolventClause l c d ↔ (x ∈ c ∧ x ≠ l) ∨ (x ∈ d ∧ x ≠ -l) := by
  simp only [resolventClause, List.mem_append, List.mem_filter, bne_iff_ne, Bool.and_eq_true,
    Bool.not_eq_true', List.contains_eq_mem, decide_eq_false_iff_not]
  grind

/-- An assignment that makes two clauses true makes their resolvent true, as it makes the literal
or its negation false. -/
theorem eval_resolventClause {l : Literal} {c d : Clause} {v : Valuation}
    (hc : c.eval v = true) (hd : d.eval v = true) : (resolventClause l c d).eval v = true := by
  simp only [Clause.eval, List.any_eq_true, mem_resolventClause] at *
  obtain ⟨x, hx, hxv⟩ := hc
  obtain ⟨y, hy, hyv⟩ := hd
  by_cases h : x = l
  · refine ⟨y, .inr ⟨hy, ?_⟩, hyv⟩
    rintro rfl
    simp_all
  · exact ⟨x, .inl ⟨hx, h⟩, hxv⟩

/-- The resolvent of two consequences. -/
def resolve (l : Literal) (c d : Consequence given) : Consequence given where
  clause := resolventClause l c.clause d.clause
  holds v hv := eval_resolventClause (c.holds v hv) (d.holds v hv)

/-- Clauses with the empty clause as a consequence have no model. -/
theorem not_models_of_eq_nil (c : Consequence given) (h : c.clause = []) (v : Valuation) :
    ¬Models v given := fun hv => by
  have := c.holds v hv
  simp [h, Clause.eval] at this

end Consequence

/-! ## Derivations -/

/-- Literals with a property, by their code. A literal is known while its entry is the present
time, so that moving on in time forgets all of them. -/
structure Table (P : Literal → Prop) where
  now : Nat
  entries : Array Nat
  le_now : ∀ i, entries.getD i 0 ≤ now
  holds : ∀ l, entries.getD l.code 0 = now → P l

namespace Table

variable {P : Literal → Prop}

/-- The table without literals, with room for codes below a number. -/
def empty (P : Literal → Prop) (size : Nat) : Table P where
  now := 1
  entries := Array.replicate size 0
  le_now i := by
    simp only [Array.getD_eq_getD_getElem?, Array.getElem?_replicate]
    split <;> simp
  holds l h := by
    simp only [Array.getD_eq_getD_getElem?, Array.getElem?_replicate] at h
    split at h <;> simp at h

/-- Whether a literal is known. -/
@[inline] def knows (table : Table P) (l : Literal) : Bool :=
  table.entries.getD l.code 0 == table.now

theorem of_knows {table : Table P} {l : Literal} (h : table.knows l = true) : P l :=
  table.holds l (by simpa [knows] using h)

/-- Forgets all literals. -/
def forget (table : Table P) (Q : Literal → Prop) : Table Q where
  now := table.now + 1
  entries := table.entries
  le_now i := Nat.le_succ_of_le (table.le_now i)
  holds _ h := absurd h (Nat.ne_of_lt (Nat.lt_succ_of_le (table.le_now _)))

/-- Enters a literal with the property. -/
def insert (table : Table P) (l : Literal) (hl : P l) : Table P where
  now := table.now
  entries := table.entries.setIfInBounds l.code table.now
  le_now i := by
    have := table.le_now i
    simp only [Array.getD_eq_getD_getElem?, Array.getElem?_setIfInBounds] at this ⊢
    split
    · split <;> simp
    · exact this
  holds x h := by
    by_cases hx : l.code = x.code
    · exact Literal.code_injective hx ▸ hl
    · refine table.holds x ?_
      simpa [Array.getD_eq_getD_getElem?, Array.getElem?_setIfInBounds, hx] using h

end Table

/-- What a table makes of a clause: all of its literals have a known negation, or all but one, or
else nothing is said. -/
inductive Status (P : Literal → Prop) (c : Clause) where
  | falsified (h : ∀ x ∈ c, P (-x))
  | unit (l : Literal) (h : ∀ x ∈ c, x = l ∨ P (-x))
  | other

/-- Reads a clause until two of its literals have no known negation. -/
def Status.of {P : Literal → Prop} (table : Table P) : (c : Clause) → Status P c
  | [] => .falsified fun _ h => absurd h List.not_mem_nil
  | l :: rest =>
    if hl : table.knows (-l) then
      match of table rest with
      | .falsified h => .falsified (List.forall_mem_cons.2 ⟨Table.of_knows hl, h⟩)
      | .unit u h => .unit u (List.forall_mem_cons.2 ⟨.inr (Table.of_knows hl), h⟩)
      | .other => .other
    else if h : rest.all fun x => x == l || table.knows (-x) then
      .unit l (List.forall_mem_cons.2 ⟨.inl rfl, fun x hx => by
        have := List.all_eq_true.1 h x hx
        simp only [Bool.or_eq_true, beq_iff_eq] at this
        exact this.imp_right Table.of_knows⟩)
    else .other

/-- Whether a literal is true in every model of the given clauses that makes a clause false. -/
def Opposes (given : List Clause) (c : Clause) (l : Literal) : Prop :=
  ∀ v, Models v given → c.eval v = false → l.eval v = true

theorem opposes_neg {c : Clause} {l : Literal} (h : l ∈ c) : Opposes given c (-l) := by
  intro v _ hc
  have := List.any_eq_false.1 hc l h
  simpa using this

/-- A literal that a consequence forces is true where the others are false. -/
theorem Opposes.of_unit {c : Clause} {l : Literal} (d : Consequence given)
    (h : ∀ x ∈ d.clause, x = l ∨ Opposes given c (-x)) : Opposes given c l := by
  intro v hv hc
  obtain ⟨x, hx, hxv⟩ := List.any_eq_true.1 (d.holds v hv)
  rcases h x hx with rfl | hopp
  · exact hxv
  · have := hopp v hv hc
    simp [hxv] at this

/-- A clause whose opposite makes a consequence false is a consequence. -/
theorem eval_of_falsified {c : Clause} (d : Consequence given)
    (h : ∀ x ∈ d.clause, Opposes given c (-x)) (v : Valuation) (hv : Models v given) :
    c.eval v = true := by
  obtain ⟨x, hx, hxv⟩ := List.any_eq_true.1 (d.holds v hv)
  cases hc : c.eval v with
  | true => rfl
  | false =>
    have := h x hx v hv hc
    simp [hxv] at this

/-- The end of a check: the table, and whether the clause has turned out to be a consequence. -/
structure Checked (given : List Clause) (c : Clause) where
  table : Table (Opposes given c)
  passed : Bool
  holds : passed = true → ∀ v, Models v given → c.eval v = true

/-- Lets the consequences at some places force literals that oppose a clause, until one of them is
false. -/
def checkFrom {c : Clause} (known : Array (Consequence given)) (table : Table (Opposes given c)) :
    List Nat → Checked given c
  | [] => ⟨table, false, fun h => nomatch h⟩
  | n :: rest =>
    match known[n]? with
    | none => checkFrom known table rest
    | some d =>
      match Status.of table d.clause with
      | .falsified h => ⟨table, true, fun _ => eval_of_falsified d h⟩
      | .unit l h => checkFrom known (table.insert l (.of_unit d h)) rest
      | .other => checkFrom known table rest

/-- Enters the negations of literals of a clause. -/
def insertOpposite {c : Clause} (table : Table (Opposes given c)) :
    (ls : List Literal) → (∀ l ∈ ls, l ∈ c) → Table (Opposes given c)
  | [], _ => table
  | l :: rest, h =>
    insertOpposite (table.insert (-l) (opposes_neg (h l List.mem_cons_self))) rest
      fun x hx => h x (List.mem_cons_of_mem _ hx)

/-- A clause with the places of the clauses from which it follows. -/
structure Inference where
  clause : Clause
  origin : List Nat

/-- Clauses that follow one after the other. -/
abbrev Derivation := List Inference

namespace Derivation

/-- Checks a derivation from consequences, which it adds to, up to the empty clause. -/
def refuteFrom? {P : Literal → Prop} (known : Array (Consequence given)) (table : Table P) :
    Derivation → Option { d : Consequence given // d.clause = [] }
  | [] => none
  | ⟨c, origin⟩ :: rest =>
    let table := insertOpposite (table.forget (Opposes given c)) c fun _ h => h
    let checked := checkFrom known table origin
    if h : checked.passed then
      let d : Consequence given := ⟨c, checked.holds h⟩
      if hnil : c = [] then some ⟨d, hnil⟩ else refuteFrom? (known.push d) checked.table rest
    else none

/-- The empty clause as a consequence of the given clauses, if a derivation leads to it. Literals
are numbered below a size. -/
def refute? (given : List Clause) (size : Nat) (derivation : Derivation) :
    Option { d : Consequence given // d.clause = [] } :=
  refuteFrom? (Consequence.ofGiven given).toArray (Table.empty (fun _ => True) size) derivation

end Derivation

end BitUnroll.Sat
