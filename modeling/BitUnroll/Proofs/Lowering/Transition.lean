import BitUnroll.Proofs.Lowering.Comparison

/-!
# Single steps and unrolled variables

The map of a single transition and a map of unrolled variables may have the same literals for the
two timeframes of the first step. An expression without operators on timeframes is lowered with both
to the same literals and clauses, or refused for the same reason, or a literal is missing under the
same key. An expression with such an operator is never lowered with the map of a transition,
wherever the operator stands.

## Main definitions

* `TransitionMap.Unrolls`: a transition's literals are those of the first step.
* `Expr.Bare`: expressions in which nodes that stand for themselves have no operands.

## Main statements

* `Expr.Bare.needs_timeless`, `Expr.Bare.yields_require`: what is lowered with a transition has no
  operators on timeframes.
* `Expr.transition_eq_unrolled`: an expression over both maps.
-/

namespace BitUnroll

/-! ## One circuit, two maps -/

/-- A circuit and its literals beside themselves. -/
def Comparison.same : Comparison where
  World := Unit
  le _ _ := True
  circuits _ c d := c = d
  literals _ l l' := l = l'

theorem Comparison.lawful_same : Comparison.same.Lawful where
  refl _ := trivial
  trans _ _ := trivial
  mono _ h := h
  constant _ _ := rfl
  neg h := congrArg (- ·) h
  gate op := by
    rintro w a b _ _ rfl rfl c _ rfl
    exact ⟨w, trivial, rfl, rfl⟩
  require := by
    rintro w a _ rfl c _ rfl
    exact ⟨w, trivial, rfl, trivial⟩

/-- The miss of a transition's map as a miss of unrolled variables, under the same key. -/
def Miss.unrolled : Miss → Miss
  | .phase p name bit => .timeframe name bit (p.timeframe .phases)
  | miss => miss

namespace TransitionMap

/-- Unrolled variables have in the first two timeframes the literals of a transition, and none that
the transition lacks. -/
structure Unrolls (m : TransitionMap) (map : Unrolled) : Prop where
  current : ∀ name bit, map.get? 0 name bit = m.get? name bit .current
  next : ∀ name bit, map.get? 1 name bit = m.get? name bit .next

/-- The two maps, asked for the phases of the transition. -/
def sources (m : TransitionMap) (map : Unrolled) : Sources where
  left := m.resolver
  right := map.resolver
  frames f f' := f = .phases ∧ f' = .phases
  reword := Miss.unrolled

variable {m : TransitionMap} {map : Unrolled}

theorem alike_sources (h : m.Unrolls map) : (m.sources map).Alike .same where
  lawful := Comparison.lawful_same
  answers := by
    rintro w _ _ ⟨rfl, rfl⟩ phase name bit
    have hget : map.get? (phase.timeframe .phases) name bit = m.get? name bit phase := by
      cases phase
      · exact h.current name bit
      · exact h.next name bit
    have hleft : m.resolver.resolve name bit (phase.timeframe .phases) = m.get name bit phase := by
      cases phase <;> rfl
    show Agree _ _ (m.resolver.resolve ..) (map.get _ name bit)
    rw [hleft, get, Unrolled.get, hget]
    cases m.get? name bit phase with
    | some l => exact .ok rfl
    | none => exact .error (Miss.phase phase name bit)

end TransitionMap

/-- What a run is with another map: it leads to the same circuit and has the same result, or stops
for the same reason. -/
def Lower.SameRun {α : Type} (x y : Lower α) (s : Lowering) : Prop :=
  (y.run s).2.circuit = (x.run s).2.circuit ∧
    (y.run s).1 = (x.run s).1.mapError (Fault.mapMiss Miss.unrolled)

/-- Computations that keep one circuit the same run alike. -/
theorem Sources.Lowers.sameRun {S : Sources} {m : TransitionMap} {map : Unrolled}
    (hS : S = m.sources map) {α : Type} {x y : Lower α} {post : Unit → α → α → Prop}
    (h : S.Lowers .same () x y post) (hpost : ∀ w a b, post w a b → a = b) (s : Lowering) :
    Lower.SameRun x y s := by
  subst hS
  obtain ⟨_, _, hexcused⟩ | ⟨w, -, hcircuit, hagree⟩ := h s s rfl
  · cases hexcused
  refine ⟨hcircuit.symm, ?_⟩
  revert hagree
  generalize (x.run s).1 = r
  generalize (y.run s).1 = r'
  rintro (hab | fault)
  · rw [hpost w _ _ hab]
    rfl
  · rfl

/-! ## What lowering needs -/

/-- An expression whose variables, numbers, truth values and absent parts have no operands. -/
def Expr.Bare (e : Expr) : Prop :=
  ∀ x, Expr.Subterm x e → x.kind.isLeaf = true → x.operands = []

@[simp] theorem Expr.bare_node {kind : Kind} {ty : Ty} {es : List Expr} :
    (node kind ty es).Bare ↔ (kind.isLeaf = true → es = []) ∧ ∀ e ∈ es, e.Bare :=
  forall_subterm_node

/-- An expression whose literal and word are there only where something holds. -/
structure Expr.Needs (s : Setting) (P : Expr → Prop) (e : Expr) : Prop where
  truth : ∀ frame, Lower.Yields (e.toLiteral s frame) fun _ => P e
  word : ∀ frame, Lower.Yields (e.toWord s frame) fun _ => P e

/-- What is known of the operands of a node that is lowered in a single step: it is no operator on
timeframes, and unless it is a leaf, each of its operands that is no leaf was lowered, too. -/
structure Expr.Stepwise (P : Expr → Prop) (kind : Kind) (es : List Expr) : Prop where
  kind_eq : kind.isTemporal = false
  operands : kind.isLeaf = true ∨ ∀ e ∈ es, P e ∨ e.kind.isLeaf = true

namespace Lower

variable {α : Type} {P : Expr → Prop} {s : Setting} {es : List Expr} {frame : Frame}

/-! ## Operands -/

theorem yields_mapM {g : Operand → Lower α}
    (hes : ∀ e ∈ es, Yields (g (e.lower s)) fun _ => P e) :
    Yields ((es.map (Expr.lower s)).mapM g) fun _ => ∀ e ∈ es, P e := by
  induction es with
  | nil => exact .of fun _ _ he => absurd he List.not_mem_nil
  | cons e es ih =>
    obtain ⟨he, hes⟩ := List.forall_mem_cons.1 hes
    rw [List.map_cons, List.mapM_cons]
    refine he.bind fun _ hpe => (ih hes).bind fun _ hpes => .of fun _ => ?_
    exact List.forall_mem_cons.2 ⟨hpe, hpes⟩

theorem yields_one (kind : Kind) (f : Expr → Operand) :
    Yields (one kind (es.map f)) fun p => ∃ a, es = [a] ∧ p = f a := by
  rcases es with _ | ⟨a, _ | ⟨b, es⟩⟩
  · exact yields_refuse _
  · exact .pure ⟨a, rfl, rfl⟩
  · exact yields_refuse _

theorem yields_two (kind : Kind) (f : Expr → Operand) :
    Yields (two kind (es.map f)) fun p => ∃ a b, es = [a, b] ∧ p = (f a, f b) := by
  rcases es with _ | ⟨a, _ | ⟨b, _ | ⟨c, es⟩⟩⟩
  · exact yields_refuse _
  · exact yields_refuse _
  · exact .pure ⟨a, b, rfl, rfl⟩
  · exact yields_refuse _

theorem yields_three (kind : Kind) (f : Expr → Operand) :
    Yields (three kind (es.map f)) fun p => ∃ a b c, es = [a, b, c] ∧ p = (f a, f b, f c) := by
  rcases es with _ | ⟨a, _ | ⟨b, _ | ⟨c, _ | ⟨d, es⟩⟩⟩⟩
  · exact yields_refuse _
  · exact yields_refuse _
  · exact yields_refuse _
  · exact .pure ⟨a, b, c, rfl, rfl⟩
  · exact yields_refuse _

/-- The number of a bit is a leaf. -/
theorem yields_constantIndex (e : Expr) (kind : Kind) (width : Nat) :
    Yields (constantIndex e kind width) fun _ => e.kind.isLeaf = true := by
  have hleaf : ∀ n, e.toInteger? = some n → e.kind.isLeaf = true := by
    intro n hn
    unfold Expr.toInteger? at hn
    split at hn
    · rename_i hkind
      rw [hkind]
      rfl
    · rename_i hkind
      rw [hkind]
      rfl
    · cases hn
  unfold constantIndex
  split
  · exact yields_refuse _
  · exact .of fun _ => hleaf _ ‹_›

theorem yields_wordPair (hes : ∀ e ∈ es, e.Needs s P) (kind : Kind) :
    Yields (wordPair kind (es.map (Expr.lower s)) frame) fun _ => ∀ e ∈ es, P e := by
  refine (yields_two kind _).bind fun p hp => ?_
  obtain ⟨a, b, rfl, rfl⟩ := hp
  refine ((hes a (by simp)).word frame).bind fun _ ha => ?_
  refine ((hes b (by simp)).word frame).bind fun _ hb => .of fun _ => ?_
  simp [ha, hb]

theorem yields_truthPair {a b : Expr} (ha : a.Needs s P) (hb : b.Needs s P)
    (gate : Literal → Literal → Build Literal) :
    Yields (do
      let x ← a.toLiteral s frame
      let y ← b.toLiteral s frame
      build (gate x y)) fun _ => ∀ e ∈ [a, b], P e := by
  refine (ha.truth frame).bind fun _ ha => (hb.truth frame).bind fun _ hb => .of fun _ => ?_
  simp [ha, hb]

/-! ## Nodes -/

theorem yields_equality (hes : ∀ e ∈ es, e.Needs s P) (kind : Kind) :
    Yields (equality s kind (es.map (Expr.lower s)) frame) fun _ => ∀ e ∈ es, P e := by
  unfold equality
  refine (yields_two kind _).bind fun p hp => ?_
  obtain ⟨a, b, rfl, rfl⟩ := hp
  show Yields (if _ then _ else _) _
  split
  · exact yields_truthPair (hes a (by simp)) (hes b (by simp)) _
  · exact (yields_wordPair hes kind).then

/-- One bit of a word: of a variable only that bit is read. -/
theorem yields_extractBit (hes : ∀ e ∈ es, e.Needs s P) :
    Yields (extractBit s (es.map (Expr.lower s)) frame) fun _ =>
      ∀ e ∈ es, P e ∨ e.kind.isLeaf = true := by
  unfold extractBit
  refine (yields_two .extractBit _).bind fun p hp => ?_
  obtain ⟨a, index, rfl, rfl⟩ := hp
  simp only [Expr.expr_lower]
  refine (yields_constantIndex index .extractBit _).bind fun i hindex => ?_
  split
  · rename_i name hkind
    have hleaf : a.kind.isLeaf = true := by
      rw [hkind]
      rfl
    exact .of fun _ => by simp [hindex, hleaf]
  · refine ((hes a (by simp)).word frame).bind fun _ ha => .of fun _ => ?_
    simp [hindex, ha]

/-- A node whose kind gives a literal by nature. -/
theorem yields_logical (hstep : s.symbols.multiStep = false) (hes : ∀ e ∈ es, e.Needs s P)
    (kind : Kind) :
    Yields (logical s kind (es.map (Expr.lower s)) frame) fun _ => Expr.Stepwise P kind es := by
  have hall : kind.isTemporal = false → (∀ e ∈ es, P e) → Expr.Stepwise P kind es :=
    fun hkind h => ⟨hkind, .inr fun e he => .inl (h e he)⟩
  cases kind with
  | truth value => exact .of fun _ => ⟨rfl, .inl rfl⟩
  | not =>
    refine (yields_one .not _).bind fun p hp => ?_
    obtain ⟨a, rfl, rfl⟩ := hp
    refine ((hes a (by simp)).truth frame).bind fun _ ha => .of fun _ => hall rfl ?_
    simpa using ha
  | connective op =>
    exact (yields_mapM fun e he => (hes e he).truth frame).bind fun _ h => .of fun _ => hall rfl h
  | implies =>
    refine (yields_two .implies _).bind fun p hp => ?_
    obtain ⟨a, b, rfl, rfl⟩ := hp
    exact (yields_truthPair (hes a (by simp)) (hes b (by simp)) Circuit.implies).imp
      fun _ => hall rfl
  | equality negated =>
    exact (yields_equality hes (.equality negated)).bind fun _ h => .of fun _ => hall rfl h
  | ite =>
    refine (yields_three .ite _).bind fun p hp => ?_
    obtain ⟨c, a, b, rfl, rfl⟩ := hp
    refine ((hes c (by simp)).truth frame).bind fun _ hc => ?_
    refine ((hes a (by simp)).truth frame).bind fun _ ha => ?_
    refine ((hes b (by simp)).truth frame).bind fun _ hb => .of fun _ => hall rfl ?_
    simp [hc, ha, hb]
  | relation op =>
    exact (yields_wordPair hes (.relation op)).bind fun _ h => .of fun _ => hall rfl h
  | extractBit => exact (yields_extractBit hes).imp fun _ h => ⟨rfl, .inr h⟩
  | temporal op =>
    show Yields (if s.symbols.multiStep = true then _ else _) _
    rw [hstep]
    exact yields_refuse _
  | symbol | nextSymbol | constant | nil | complement | negate | binary | extractBits | concat
  | cast => exact yields_refuse _

/-- A node whose kind gives a word by nature, or a conditional. -/
theorem yields_wordy (hes : ∀ e ∈ es, e.Needs s P) (kind : Kind) (ty : Ty) :
    Yields (wordy s (.node kind ty es) (es.map (Expr.lower s)) frame) fun _ =>
      Expr.Stepwise P kind es := by
  have hall : kind.isTemporal = false → (∀ e ∈ es, P e) → Expr.Stepwise P kind es :=
    fun hkind h => ⟨hkind, .inr fun e he => .inl (h e he)⟩
  cases kind with
  | symbol | nextSymbol | constant => exact .of fun _ => ⟨rfl, .inl rfl⟩
  | complement =>
    refine (yields_one .complement _).bind fun p hp => ?_
    obtain ⟨a, rfl, rfl⟩ := hp
    refine ((hes a (by simp)).word frame).bind fun _ ha => .of fun _ => hall rfl ?_
    simpa using ha
  | negate =>
    refine (yields_one .negate _).bind fun p hp => ?_
    obtain ⟨a, rfl, rfl⟩ := hp
    refine ((hes a (by simp)).word frame).bind fun _ ha => .of fun _ => hall rfl ?_
    simpa using ha
  | binary op =>
    exact (yields_wordPair hes (.binary op)).bind fun _ h => .of fun _ => hall rfl h
  | ite =>
    refine (yields_three .ite _).bind fun p hp => ?_
    obtain ⟨c, a, b, rfl, rfl⟩ := hp
    refine ((hes c (by simp)).truth frame).bind fun _ hc => ?_
    refine ((hes a (by simp)).word frame).bind fun _ ha => ?_
    refine ((hes b (by simp)).word frame).bind fun _ hb => .of fun _ => hall rfl ?_
    simp [hc, ha, hb]
  | extractBits =>
    refine (yields_three .extractBits _).bind fun p hp => ?_
    obtain ⟨a, last, first, rfl, rfl⟩ := hp
    simp only [Expr.expr_lower]
    refine ((hes a (by simp)).word frame).bind fun _ ha => ?_
    refine (yields_constantIndex last .extractBits _).bind fun _ hlast => ?_
    refine (yields_constantIndex first .extractBits _).bind fun _ hfirst => .of fun _ => ?_
    exact ⟨rfl, .inr (by simp [ha, hlast, hfirst])⟩
  | concat =>
    show Yields ((es.map _).reverse.mapM _ >>= _) _
    rw [← List.map_reverse]
    refine (yields_mapM fun e he => (hes e (List.mem_reverse.1 he)).word frame).bind
      fun _ h => .of fun _ => hall rfl fun e he => h e (List.mem_reverse.2 he)
  | cast =>
    refine (yields_one .cast _).bind fun p hp => ?_
    obtain ⟨a, rfl, rfl⟩ := hp
    refine ((hes a (by simp)).word frame).bind fun _ ha => .of fun _ => hall rfl ?_
    simpa using ha
  | truth | nil | not | connective | implies | equality | relation | extractBit | temporal =>
    exact yields_refuse _

theorem yields_truthOf (hstep : s.symbols.multiStep = false) (hes : ∀ e ∈ es, e.Needs s P)
    (kind : Kind) (ty : Ty) (frame : Frame) :
    Yields (truthOf s (.node kind ty es) (es.map (Expr.lower s)) frame) fun _ =>
      Expr.Stepwise P kind es := by
  have hword : Yields (truthOf.ofWord s (.node kind ty es) (es.map (Expr.lower s)) frame)
      fun _ => Expr.Stepwise P kind es := by
    unfold truthOf.ofWord
    split
    · exact (yields_wordy hes kind ty).then
    · exact yields_refuse _
  have hlogical : Yields (logical s kind (es.map (Expr.lower s)) frame) fun _ =>
      Expr.Stepwise P kind es := yields_logical hstep hes kind
  cases kind with
  | constant n => exact .of fun _ => ⟨rfl, .inl rfl⟩
  | symbol | nextSymbol | complement | negate | binary | extractBits | concat | cast =>
    exact hword
  | truth | nil | not | connective | implies | equality | ite | relation | extractBit
  | temporal => exact hlogical

theorem yields_wordOf (hstep : s.symbols.multiStep = false) (hes : ∀ e ∈ es, e.Needs s P)
    (kind : Kind) (ty : Ty) (frame : Frame) :
    Yields (wordOf s (.node kind ty es) (es.map (Expr.lower s)) frame) fun _ =>
      Expr.Stepwise P kind es := by
  unfold wordOf
  split
  · exact yields_wordy hes kind ty
  · split
    · exact (yields_logical hstep hes kind).then
    · exact yields_refuse _

end Lower

namespace Expr

variable {s : Setting} {e : Expr} {frame : Frame}

/-- A leaf without operands has no operators on timeframes. -/
theorem Bare.timeless_of_isLeaf (h : e.Bare) (hleaf : e.kind.isLeaf = true) : e.Timeless := by
  obtain ⟨kind, ty, es⟩ := e
  obtain rfl := (bare_node.1 h).1 hleaf
  refine timeless_node.2 ⟨?_, fun _ he => absurd he List.not_mem_nil⟩
  cases kind with
  | symbol | nextSymbol | constant | truth | nil => rfl
  | not | connective | implies | equality | ite | complement | negate | binary | relation
  | extractBit | extractBits | concat | cast | temporal => cases hleaf

/-- A node that is lowered in a single step has no operators on timeframes if its operands have
none. -/
theorem Bare.timeless_node {kind : Kind} {ty : Ty} {es : List Expr}
    (h : (node kind ty es).Bare) (hstep : Stepwise Timeless kind es) :
    (node kind ty es).Timeless := by
  rcases hstep.operands with hleaf | hes
  · exact h.timeless_of_isLeaf hleaf
  · refine Expr.timeless_node.2 ⟨hstep.kind_eq, fun e he => ?_⟩
    exact (hes e he).elim id ((bare_node.1 h).2 e he).timeless_of_isLeaf

/-- Without steps beyond the next timeframe, what is lowered has no operators on timeframes. -/
theorem Bare.needs_timeless (h : e.Bare) (hstep : s.symbols.multiStep = false) :
    e.Needs s Timeless := by
  induction e using Expr.induction with
  | node kind ty es ih =>
    have hes : ∀ e ∈ es, e.Needs s Timeless := fun e he => ih e he ((bare_node.1 h).2 e he)
    constructor
    · intro frame
      have hnode := (Lower.yields_truthOf hstep hes kind ty frame).imp
        fun _ => h.timeless_node
      simp only [← lowerAll_eq_map] at hnode
      exact hnode
    · intro frame
      have hnode := (Lower.yields_wordOf hstep hes kind ty frame).imp
        fun _ => h.timeless_node
      simp only [← lowerAll_eq_map] at hnode
      exact hnode

/-- Without steps beyond the next timeframe, what is required has no operators on timeframes. -/
theorem Bare.yields_require {r : Resolver} {types : TypeTable} (h : e.Bare)
    (hstep : r.multiStep = false) :
    Lower.Yields (e.require ⟨types, .mapped r⟩ frame) fun _ => e.Timeless := by
  have htruth : ∀ e : Expr, e.Bare →
      Lower.Yields (e.requireTruth ⟨types, .mapped r⟩ frame) fun _ => e.Timeless :=
    fun e h => ((h.needs_timeless (s := ⟨types, .mapped r⟩) hstep).truth frame).then
  induction e using require_induction with
  | conjunction ty es ih =>
    have hall : Lower.Yields (requireAll ⟨types, .mapped r⟩ es frame)
        fun _ => ∀ e ∈ es, e.Timeless := by
      have hes := fun e he => ih e he ((bare_node.1 h).2 e he)
      clear ih h
      induction es with
      | nil => exact .of fun _ _ he => absurd he List.not_mem_nil
      | cons e es ih =>
        obtain ⟨he, hes⟩ := List.forall_mem_cons.1 hes
        refine he.bind fun _ hte => (ih hes).imp fun _ htes => ?_
        exact List.forall_mem_cons.2 ⟨hte, htes⟩
    exact hall.imp fun _ htime => h.timeless_node ⟨rfl, .inr fun e he => .inl (htime e he)⟩
  | equality ty lhs rhs =>
    rw [require_equality]
    exact htruth _ h
  | other e hrequire =>
    rw [hrequire]
    exact htruth e h

/-! ## Both maps -/

/-- **The map of a single transition and a map of unrolled variables agree.** Let the unrolled
variables have the transition's literals in the first two timeframes, set or unset. Then an
expression without operators on timeframes is lowered to a literal, lowered to a word, and required
with either map alike: the circuit is the same afterwards, and so is the literal, the word or the
refusal, or a literal is missing under the same key. With the map of the transition none of this
succeeds, in any frame, for an expression with an operator on timeframes anywhere, if variables of
either timeframe, numbers, truth values and absent expressions have no operands. -/
theorem transition_eq_unrolled (types : TypeTable) {m : TransitionMap} {map : Unrolled}
    (hmap : m.Unrolls map) (e : Expr) :
    (e.Timeless → ∀ s,
      Lower.SameRun (e.toLiteral ⟨types, .mapped m.resolver⟩ .phases)
        (e.toLiteral ⟨types, .mapped map.resolver⟩ .phases) s ∧
      Lower.SameRun (e.toWord ⟨types, .mapped m.resolver⟩ .phases)
        (e.toWord ⟨types, .mapped map.resolver⟩ .phases) s ∧
      Lower.SameRun (e.require ⟨types, .mapped m.resolver⟩ .phases)
        (e.require ⟨types, .mapped map.resolver⟩ .phases) s) ∧
    (¬e.Timeless → e.Bare → ∀ frame s,
      (∀ l, ((e.toLiteral ⟨types, .mapped m.resolver⟩ frame).run s).1 ≠ .ok l) ∧
      (∀ w, ((e.toWord ⟨types, .mapped m.resolver⟩ frame).run s).1 ≠ .ok w) ∧
      ((e.require ⟨types, .mapped m.resolver⟩ frame).run s).1 ≠ .ok ()) := by
  have hstep : m.resolver.multiStep = false := rfl
  constructor
  · intro htime s
    have hS := TransitionMap.alike_sources hmap
    have hcompares := e.compares hS types (.inr htime)
    have hframes : (m.sources map).frames .phases .phases := ⟨rfl, rfl⟩
    refine ⟨?_, ?_, ?_⟩
    · exact (hcompares.truth () _ _ hframes).sameRun rfl (fun _ _ _ h => h) s
    · refine (hcompares.word () _ _ hframes).sameRun rfl (fun _ a b h => ?_) s
      exact List.forall₂_eq_eq_eq ▸ h
    · exact (e.lowers_require hS types (.inr htime) hframes).sameRun rfl (fun _ _ _ _ => rfl) s
  · intro htime hbare frame s
    have hneeds := hbare.needs_timeless (s := ⟨types, .mapped m.resolver⟩) hstep
    refine ⟨fun l hl => ?_, fun w hw => ?_, fun hrequire => ?_⟩
    · exact htime (hneeds.truth frame s l hl)
    · exact htime (hneeds.word frame s w hw)
    · exact htime (hbare.yields_require hstep s () hrequire)

/-- A bit that changes, and a bit that is true one timeframe later, below a negation. -/
theorem transition_eq_unrolled_change :
    let m : TransitionMap := TransitionMap.empty.set "x" 0 ⟨1, true⟩ ⟨2, true⟩
    let map : Unrolled := (Unrolled.empty.set 0 "x" 0 ⟨1, true⟩).set 1 "x" 0 ⟨2, true⟩
    let change : Expr := .node (.equality true) .bool [.symbol "x" .bool, .nextSymbol "x" .bool]
    let later : Expr := .node .not .bool
      [.node (.temporal .delay) .bool [.constant 1 .natural, .absent, .symbol "x" .bool]]
    m.Unrolls map ∧
      (∀ s, Lower.SameRun (change.toLiteral ⟨.empty, .mapped m.resolver⟩ .phases)
        (change.toLiteral ⟨.empty, .mapped map.resolver⟩ .phases) s) ∧
      ∀ frame s l, ((later.toLiteral ⟨.empty, .mapped m.resolver⟩ frame).run s).1 ≠ .ok l := by
  intro m map change later
  have hmap : m.Unrolls map := by
    have hkey : ∀ (phase : Phase) name bit, m.get? name bit phase =
        if "x" = name ∧ 0 = bit then some (BitPair.at ⟨⟨1, true⟩, ⟨2, true⟩⟩ phase) else none := by
      intro phase name bit
      simp only [m, TransitionMap.get?, TransitionMap.pair?_set]
      split <;> simp [TransitionMap.empty, TransitionMap.pair?]
    constructor <;> intro name bit <;> rw [hkey] <;> simp only [map, Unrolled.get?_set] <;>
      simp [Unrolled.empty, Unrolled.get?, BitPair.at]
  have hchange : change.Timeless := by simp [change, symbol, nextSymbol, Kind.isTemporal]
  have hlater : ¬later.Timeless := by simp [later, Kind.isTemporal]
  have hbare : later.Bare := by simp [later, constant, absent, symbol, Kind.isLeaf]
  refine ⟨hmap, fun s => ?_, fun frame s => ?_⟩
  · exact ((transition_eq_unrolled .empty hmap change).1 hchange s).1
  · exact ((transition_eq_unrolled .empty hmap later).2 hlater hbare frame s).1

end Expr

end BitUnroll
