import BitUnroll.Proofs.Circuit.Models
import BitUnroll.Sat.Decision

/-!
# What solvers are relied on for

Clauses go to a solver as DIMACS numbers, and a model comes back as the numbers of the literals that
it makes true. Numbers which meet every clause, and of which no two are opposite, are as good as an
assignment that makes the clauses true: each of the two gives the other. So a solver that answers
rightly in terms of numbers decides formulas, although the model of a formula has one value for each
of its variables and none for others.

## Main definitions

* `Sat.Satisfies`: numbers without opposite ones meet every clause.
* `Solver.Reliable`: the solver gives an answer, and a right one.

## Main statements

* `Sat.exists_satisfies_iff`: numbers that satisfy clauses are assignments that make them true.
* `Model.valuation_ofNumbers`: the model of consistent numbers.
* `Solver.reliable_search`: the search is reliable.
* `Cnf.solve_cases`: what a reliable solver makes of a formula.
-/

namespace BitUnroll

/-! ## Numbers of literals -/

namespace Literal

theorem toDimacs_ne_zero (l : Literal) : l.toDimacs ≠ 0 := by
  rw [toDimacs]
  split <;> omega

theorem toDimacs_neg (l : Literal) : (-l).toDimacs = -l.toDimacs := by
  rw [toDimacs, toDimacs, sign_neg, var_neg]
  cases l.sign <;> simp

theorem toDimacs_eq_of_ofDimacs? {n : Int} {l : Literal} (h : ofDimacs? n = some l) :
    l.toDimacs = n := by
  rw [ofDimacs?] at h
  split at h
  · cases h
  · obtain rfl := Option.some.inj h
    by_cases hn : 0 < n <;> simp [toDimacs, hn] <;> omega

theorem ofDimacs?_isSome {n : Int} (h : n ≠ 0) : (ofDimacs? n).isSome := by
  rw [ofDimacs?, if_neg h]
  rfl

end Literal

namespace Sat

variable {cs : List Clause} {clauses : List (List Int)} {ns : List Int}

theorem zero_not_mem_toNumbers {c : List Int} (hc : c ∈ toNumbers cs) : (0 : Int) ∉ c := by
  obtain ⟨c, -, rfl⟩ := List.mem_map.1 hc
  intro hzero
  obtain ⟨l, -, hl⟩ := List.mem_map.1 hzero
  exact l.toDimacs_ne_zero hl

/-- The numbers of literals of a clause are read as these literals. -/
theorem map_toDimacs_filterMap {c : List Int} (hc : (0 : Int) ∉ c) :
    (c.filterMap Literal.ofDimacs?).map (·.toDimacs) = c := by
  induction c with
  | nil => rfl
  | cons n c ih =>
    rw [List.mem_cons, not_or] at hc
    obtain ⟨l, hl⟩ := Option.isSome_iff_exists.1 (Literal.ofDimacs?_isSome (Ne.symm hc.1))
    rw [List.filterMap_cons_some hl, List.map_cons, ih hc.2, Literal.toDimacs_eq_of_ofDimacs? hl]

theorem toNumbers_ofNumbers (h : ∀ c ∈ clauses, (0 : Int) ∉ c) :
    toNumbers (ofNumbers clauses) = clauses := by
  rw [toNumbers, ofNumbers, List.map_map]
  exact (List.map_congr_left fun c hc => map_toDimacs_filterMap (h c hc)).trans (List.map_id _)

/-! ## Numbers and assignments -/

/-- Numbers are a model of clauses: no two of them are opposite, and each clause has one of them. -/
structure Satisfies (ns : List Int) (clauses : List (List Int)) : Prop where
  consistent : ∀ n ∈ ns, -n ∉ ns
  meets : ∀ c ∈ clauses, ∃ n ∈ c, n ∈ ns

/-- The assignment that makes the variables with positive numbers true. -/
def valuationOf (ns : List Int) : Valuation := fun x => decide ((x + 1 : Int) ∈ ns)

theorem eval_valuationOf (hns : ∀ n ∈ ns, -n ∉ ns) {l : Literal} (h : l.toDimacs ∈ ns) :
    l.eval (valuationOf ns) = true := by
  obtain ⟨x, _ | _⟩ := l
  · have hopposite := hns _ h
    simpa [Literal.eval, valuationOf, Literal.toDimacs] using hopposite
  · simpa [Literal.eval, valuationOf, Literal.toDimacs] using h

/-- Numbers that satisfy the clauses' numbers give a model. -/
theorem Satisfies.models (h : Satisfies ns (toNumbers cs)) : Models (valuationOf ns) cs := by
  intro c hc
  obtain ⟨n, hn, hmem⟩ := h.meets _ (List.mem_map_of_mem hc)
  obtain ⟨l, hl, rfl⟩ := List.mem_map.1 hn
  exact List.any_eq_true.2 ⟨l, hl, eval_valuationOf h.consistent hmem⟩

theorem mem_trueNumbers {xs : List Nat} {v : Valuation} {l : Literal} :
    l.toDimacs ∈ trueNumbers xs v ↔ l.var ∈ xs ∧ l.eval v = true := by
  simp only [trueNumbers, List.mem_map, Literal.eval, beq_iff_eq]
  constructor
  · rintro ⟨x, hx, heq⟩
    have hl := congrArg Literal.ofDimacs? heq
    rw [Literal.ofDimacs?_toDimacs, Literal.ofDimacs?_toDimacs] at hl
    obtain rfl := Option.some.inj hl
    exact ⟨hx, rfl⟩
  · rintro ⟨hx, heval⟩
    exact ⟨l.var, hx, by rw [heval]⟩

/-- The literals that a model makes true, over the variables of the clauses, satisfy them. -/
theorem Models.satisfies {xs : List Nat} {v : Valuation} (hv : Models v cs)
    (hxs : ∀ c ∈ cs, ∀ l ∈ c, l.var ∈ xs) : Satisfies (trueNumbers xs v) (toNumbers cs) where
  consistent n hn hopposite := by
    obtain ⟨x, -, rfl⟩ := List.mem_map.1 hn
    rw [← Literal.toDimacs_neg, mem_trueNumbers] at hopposite
    simp [Literal.eval] at hopposite
  meets c hc := by
    obtain ⟨c, hmem, rfl⟩ := List.mem_map.1 hc
    obtain ⟨l, hl, heval⟩ := List.any_eq_true.1 (hv c hmem)
    exact ⟨_, List.mem_map_of_mem hl, mem_trueNumbers.2 ⟨hxs c hmem l hl, heval⟩⟩

/-- Clauses of numbers can be satisfied if and only if the clauses have a model. -/
theorem exists_satisfies_iff : (∃ ns, Satisfies ns (toNumbers cs)) ↔ ∃ v, Models v cs :=
  ⟨fun ⟨_, h⟩ => ⟨_, h.models⟩,
    fun ⟨_, hv⟩ => ⟨_, hv.satisfies fun _ hc _ hl => var_mem_mentioned hc hl⟩⟩

end Sat

open BitUnroll.Sat (Satisfies valuationOf)

/-! ## The model of numbers -/

namespace Model

theorem size_assign (m : Model) (n : Int) : (m.assign n).size = m.size :=
  Array.size_setIfInBounds

theorem size_foldl_assign (ns : List Int) (m : Model) : (ns.foldl assign m).size = m.size := by
  induction ns generalizing m with
  | nil => rfl
  | cons n ns ih => exact (ih _).trans (size_assign m n)

theorem size_ofNumbers (size : Nat) (ns : List Int) : (ofNumbers size ns).size = size := by
  rw [ofNumbers, size_foldl_assign, Array.size_replicate]

/-- A number gives its own variable a value, and no other. -/
theorem valuation_assign (m : Model) {n : Int} (hn : n ≠ 0) {x : Nat} (hx : x < m.size) :
    (m.assign n).valuation x = if n.natAbs = x + 1 then decide (0 < n) else m.valuation x := by
  have hvar : n.natAbs - 1 = x ↔ n.natAbs = x + 1 := by omega
  simp only [valuation, assign, Array.getD_eq_getD_getElem?, Array.getElem?_setIfInBounds, hvar]
  split
  · simp [hvar.2 ‹_›, hx]
  · rfl

/-- Among numbers of which no two are opposite, it does not matter which one comes last. -/
theorem valuation_foldl_assign {ns : List Int} (hns : ∀ n ∈ ns, -n ∉ ns) {m : Model} {x : Nat}
    (hx : x < m.size) : (ns.foldl assign m).valuation x =
      (valuationOf ns x || (m.valuation x && !decide (-(x + 1 : Int) ∈ ns))) := by
  induction ns generalizing m with
  | nil => simp [valuationOf]
  | cons n ns ih =>
    have hn : n ≠ 0 := by
      rintro rfl
      exact hns 0 List.mem_cons_self (by simp)
    have hrest : ∀ k ∈ ns, -k ∉ ns := fun k hk hopposite =>
      hns k (List.mem_cons_of_mem _ hk) (List.mem_cons_of_mem _ hopposite)
    have hopposite : -n ∉ ns := fun h => hns n List.mem_cons_self (List.mem_cons_of_mem _ h)
    rw [List.foldl_cons, ih hrest (by rwa [size_assign]), valuation_assign m hn hx]
    simp only [valuationOf, List.mem_cons]
    rcases Int.lt_trichotomy n 0 with hneg | hzero | hpos
    · grind
    · exact absurd hzero hn
    · grind

theorem valuation_ofNumbers {ns : List Int} (hns : ∀ n ∈ ns, -n ∉ ns) {size x : Nat}
    (hx : x < size) : (ofNumbers size ns).valuation x = valuationOf ns x := by
  rw [ofNumbers, valuation_foldl_assign hns (by simpa using hx)]
  simp [valuation, hx]

end Model

/-! ## Reliable solvers -/

/-- A solver that can be relied on. Given clauses of numbers other than zero it does not give up;
where it gives a model, that is one; and where it gives none, there is none. -/
structure Solver.Reliable (solver : Solver) : Prop where
  answers : ∀ {clauses}, (∀ c ∈ clauses, (0 : Int) ∉ c) → ∀ reason, solver clauses ≠ .failed reason
  satisfies : ∀ {clauses model?}, (∀ c ∈ clauses, (0 : Int) ∉ c) →
    solver clauses = .satisfiable model? → ∃ ns, model? = some ns ∧ Satisfies ns clauses
  not_satisfies : ∀ {clauses}, (∀ c ∈ clauses, (0 : Int) ∉ c) →
    solver clauses = .unsatisfiable → ∀ ns, ¬Satisfies ns clauses

namespace Solver

/-- The search finds a model, or that there is none. -/
theorem search_cases (clauses : List (List Int)) :
    let given := Sat.ofNumbers clauses
    (∃ v, Sat.Models v given ∧
      search clauses = .satisfiable (some (Sat.trueNumbers (Sat.mentioned given) v))) ∨
    (search clauses = .unsatisfiable ∧ ∀ v, ¬Sat.Models v given) := by
  intro given
  unfold search
  dsimp only
  split
  · rename_i v hv _
    exact .inl ⟨v, hv, rfl⟩
  · rename_i c hc _
    refine .inr ⟨rfl, c.not_models_of_eq_nil (List.eq_nil_iff_forall_not_mem.2 fun l hl => ?_)⟩
    exact List.not_mem_nil (hc l hl)

/-- The search can be relied on. -/
theorem reliable_search : search.Reliable where
  answers {clauses} _ reason h := by
    rcases search_cases clauses with ⟨v, -, hreply⟩ | ⟨hreply, -⟩ <;> cases hreply.symm.trans h
  satisfies {clauses model?} hclauses h := by
    rcases search_cases clauses with ⟨v, hv, hreply⟩ | ⟨hreply, -⟩ <;> cases hreply.symm.trans h
    have hsatisfies := hv.satisfies fun _ hc _ hl => Sat.var_mem_mentioned hc hl
    rw [Sat.toNumbers_ofNumbers hclauses] at hsatisfies
    exact ⟨_, rfl, hsatisfies⟩
  not_satisfies {clauses} hclauses h ns hns := by
    rcases search_cases clauses with ⟨v, -, hreply⟩ | ⟨-, hnone⟩
    · cases hreply.symm.trans h
    · rw [← Sat.toNumbers_ofNumbers hclauses] at hns
      exact hnone _ hns.models

end Solver

/-! ## Formulas -/

namespace Cnf

variable {f : Cnf}

theorem eval_iff_models {v : Valuation} : f.eval v = true ↔ Sat.Models v f.clauses.toList := by
  rw [eval_eq_all, List.all_eq_true]
  rfl

theorem not_exists_eval_iff : (¬∃ v, f.eval v = true) ↔ ∀ v, f.eval v = false := by
  simp only [not_exists, Bool.not_eq_true]

/-- A reliable solver finds that a formula has no model, or finds a model of it, with a value for
each variable handed out. -/
theorem solve_cases {solver : Solver} (hsolver : solver.Reliable) (hf : f.Scoped) :
    (f.solve solver = .ok none ∧ ∀ v, f.eval v = false) ∨
      ∃ m, f.solve solver = .ok (some m) ∧ m.size = f.numVars ∧ f.eval m.valuation = true := by
  have hclauses : ∀ c ∈ Sat.toNumbers f.clauses.toList, (0 : Int) ∉ c :=
    fun _ => Sat.zero_not_mem_toNumbers
  cases hreply : solver (Sat.toNumbers f.clauses.toList) with
  | failed reason => exact absurd hreply (hsolver.answers hclauses reason)
  | unsatisfiable =>
    refine .inl ⟨by rw [solve, hreply], not_exists_eval_iff.1 ?_⟩
    rintro ⟨v, hv⟩
    obtain ⟨ns, hns⟩ := Sat.exists_satisfies_iff.2 ⟨v, eval_iff_models.1 hv⟩
    exact hsolver.not_satisfies hclauses hreply ns hns
  | satisfiable model? =>
    obtain ⟨ns, rfl, hns⟩ := hsolver.satisfies hclauses hreply
    refine .inr ⟨.ofNumbers f.numVars ns, by rw [solve, hreply], Model.size_ofNumbers _ _, ?_⟩
    rw [hf.eval_congr fun x hx => Model.valuation_ofNumbers hns.consistent hx]
    exact eval_iff_models.2 hns.models

end Cnf

end BitUnroll
