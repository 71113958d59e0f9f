import BitUnroll.Proofs.Lowering.Transition

/-!
# Lowering at a later time

An expression in a frame that lies some timeframes later is the expression in the frame itself,
with a resolver that answers as the given one does that much later. All that lowering does with a
frame is to move it forward and to ask for literals in its timeframes, so both runs extend one
circuit alike. Only the range of timeframes tells them apart: the later run may leave it, which it
does before the earlier one.

## Main definitions

* `Resolver.later`: a resolver that answers as another one does some timeframes later.
* `Lower.Repeats`: a computation does what another one does where that one succeeds.
* `Expr.delayed`: an expression some timeframes later.

## Main statements

* `Expr.lowered_later`: expressions at a later time, and delays of delays.
-/

namespace BitUnroll

/-- A resolver that answers as another one does some timeframes later. -/
def Resolver.later (r : Resolver) (k : Nat) : Resolver where
  multiStep := r.multiStep
  resolve name bit t := r.resolve name bit (t + k)

/-- Where a computation succeeds, another one does so too: it has the same result and leads to the
same circuit. -/
def Lower.Repeats {α : Type} (x y : Lower α) (s : Lowering) : Prop :=
  ∀ a, (x.run s).1 = .ok a → (y.run s).1 = .ok a ∧ (y.run s).2.circuit = (x.run s).2.circuit

namespace Resolver

/-- A resolver in later frames, beside the resolver that answers later. The first one may be
asked for a timeframe out of range where the second one is not. -/
def delayedSources (r : Resolver) (k : Nat) : Sources where
  left := r
  right := r.later k
  frames g f := g = f.later k
  reword := id
  excuses e := ∃ overflow, e = .timeframeOverflow overflow

variable {r : Resolver} {k : Nat}

theorem alike_delayedSources (r : Resolver) (k : Nat) : (r.delayedSources k).Alike .same where
  lawful := Comparison.lawful_same
  answers := by
    rintro w _ f rfl phase name bit
    have htime : phase.timeframe (f.later k) = phase.timeframe f + k := by cases phase <;> rfl
    show Agree id Eq (r.resolve name bit _) (r.resolve name bit _)
    rw [htime]
    cases r.resolve name bit (phase.timeframe f + k) with
    | ok l => exact .ok rfl
    | error miss => exact .error miss

/-- A frame that stays in range when it is moved does so from an earlier time on, too. -/
theorem shifts_delayedSources (r : Resolver) (k : Nat) : (r.delayedSources k).Shifts where
  multiStep_eq := rfl
  shift := by
    rintro _ f offset rfl
    cases hg : (f.later k).shift offset with
    | error overflow => exact .inl ⟨overflow, rfl, overflow, rfl⟩
    | ok g =>
      obtain ⟨hcurrent, hnext, rfl⟩ := Frame.shift_eq_ok_iff.1 hg
      simp only [Frame.later] at hcurrent hnext
      have hf : f.shift offset = .ok (f.later offset) :=
        Frame.shift_eq_ok_iff.2 ⟨by omega, by omega, rfl⟩
      have hlater : (f.later k).later offset = (f.later offset).later k := by
        simp only [Frame.later, Frame.mk.injEq]
        omega
      rw [hf]
      exact .inr (.ok hlater)

end Resolver

/-- Computations that keep one circuit the same repeat each other. -/
theorem Sources.Lowers.repeats {S : Sources} {α : Type} {x y : Lower α}
    {post : Unit → α → α → Prop} (h : S.Lowers .same () x y post)
    (hpost : ∀ w a b, post w a b → a = b) (s : Lowering) : Lower.Repeats x y s := by
  intro a ha
  have h := h s s rfl
  rw [ha] at h
  obtain ⟨e, he, -⟩ | ⟨w, -, hcircuit, hagree⟩ := h
  · cases he
  · refine ⟨?_, Eq.symm hcircuit⟩
    revert hagree
    generalize (y.run s).1 = result
    rintro (hab | -)
    rw [hpost w _ _ hab]

/-- Moving a frame by two offsets at once moves it by one after the other. -/
theorem Frame.shift_of_shift_add {f g : Frame} {a b : Nat} (h : f.shift (a + b) = .ok g) :
    f.shift a = .ok (f.later a) ∧ (f.later a).shift b = .ok g := by
  obtain ⟨hcurrent, hnext, rfl⟩ := shift_eq_ok_iff.1 h
  refine ⟨shift_eq_ok_iff.2 ⟨by omega, by omega, rfl⟩, shift_eq_ok_iff.2 ?_⟩
  simp only [later, Frame.mk.injEq]
  omega

theorem Lower.shift_eq_pure {f g : Frame} {offset : Nat} (h : f.shift offset = .ok g) :
    shift f offset = pure g := by
  unfold shift
  rw [h]

namespace Expr

/-- An expression some timeframes later. -/
def delayed (offset e : Expr) : Expr := .node (.temporal .delay) .bool [offset, .absent, e]

variable {types : TypeTable} {r : Resolver} {e : Expr}

/-- A delay by a number of timeframes is the expression in the frame moved by that number, where
there are steps beyond the next timeframe. -/
theorem toLiteral_delayed {x : Expr} {a : Nat} (hx : x.delayOffset? = some a) (f : Frame) :
    (delayed x e).toLiteral ⟨types, .mapped r⟩ f =
      if r.multiStep = true then Lower.shift f a >>= e.toLiteral ⟨types, .mapped r⟩
      else Lower.refuse (.unsupported (.temporal .delay) .boolean) := by
  have hnode : (delayed x e).toLiteral ⟨types, .mapped r⟩ f =
      if r.multiStep = true then Lower.delay (x.lower ⟨types, .mapped r⟩)
        (absent.lower ⟨types, .mapped r⟩) (e.lower ⟨types, .mapped r⟩) f
      else Lower.refuse (.unsupported (.temporal .delay) .boolean) := rfl
  rw [hnode, Lower.delay]
  simp only [expr_lower, hx]
  rfl

/-- A delay of a delay does what the delay by both offsets does. -/
theorem repeats_delayed {x y z : Expr} {a b : Nat} (hx : x.delayOffset? = some a)
    (hy : y.delayOffset? = some b) (hz : z.delayOffset? = some (a + b)) (f : Frame)
    (s : Lowering) :
    Lower.Repeats ((delayed z e).toLiteral ⟨types, .mapped r⟩ f)
      ((delayed x (delayed y e)).toLiteral ⟨types, .mapped r⟩ f) s := by
  intro l hl
  rw [toLiteral_delayed hz] at hl ⊢
  rw [toLiteral_delayed hx]
  by_cases hstep : r.multiStep = true
  · simp only [if_pos hstep] at hl ⊢
    cases hg : f.shift (a + b) with
    | error overflow =>
      rw [Lower.shift, hg] at hl
      cases hl
    | ok g =>
      obtain ⟨hfirst, hsecond⟩ := Frame.shift_of_shift_add hg
      rw [Lower.shift_eq_pure hg, pure_bind] at hl ⊢
      rw [Lower.shift_eq_pure hfirst, pure_bind, toLiteral_delayed hy, if_pos hstep,
        Lower.shift_eq_pure hsecond, pure_bind]
      exact ⟨hl, rfl⟩
  · rw [if_neg hstep] at hl
    cases hl

/-- **Lowering is invariant under shifts of time.** Where an expression is lowered to a literal,
lowered to a word or required in a frame that was moved forward, it is so in the frame itself, with
the resolver that answers that much later: the literal or word is the same, and so is the circuit
that both lead to. In particular a delay by `a` timeframes of a delay by `b` timeframes has the
literal, and leads to the circuit, of the delay by `a + b` timeframes, wherever that one has a
literal. -/
theorem lowered_later (types : TypeTable) (r : Resolver) (e : Expr) :
    (∀ {f g : Frame} {k : Nat}, f.shift k = .ok g → ∀ s,
      Lower.Repeats (e.toLiteral ⟨types, .mapped r⟩ g)
        (e.toLiteral ⟨types, .mapped (r.later k)⟩ f) s ∧
      Lower.Repeats (e.toWord ⟨types, .mapped r⟩ g)
        (e.toWord ⟨types, .mapped (r.later k)⟩ f) s ∧
      Lower.Repeats (e.require ⟨types, .mapped r⟩ g)
        (e.require ⟨types, .mapped (r.later k)⟩ f) s) ∧
    ∀ {x y z : Expr} {a b : Nat}, x.delayOffset? = some a → y.delayOffset? = some b →
      z.delayOffset? = some (a + b) → ∀ f s,
      Lower.Repeats ((delayed z e).toLiteral ⟨types, .mapped r⟩ f)
        ((delayed x (delayed y e)).toLiteral ⟨types, .mapped r⟩ f) s := by
  refine ⟨fun {f g k} hg s => ?_, fun hx hy hz => repeats_delayed hx hy hz⟩
  have hS := r.alike_delayedSources k
  have hshift := Or.inl (b := e.Timeless) (r.shifts_delayedSources k)
  have hframes : (r.delayedSources k).frames g f := (Frame.shift_eq_ok_iff.1 hg).2.2
  have hcompares := e.compares hS types hshift
  refine ⟨?_, ?_, ?_⟩
  · exact (hcompares.truth () _ _ hframes).repeats (fun _ _ _ h => h) s
  · refine (hcompares.word () _ _ hframes).repeats (fun _ a b h => ?_) s
    exact List.forall₂_eq_eq_eq ▸ h
  · exact (e.lowers_require hS types hshift hframes).repeats (fun _ _ _ _ => rfl) s

/-- A variable that is true twice in a row, one or two timeframes later, read two timeframes
later. -/
theorem lowered_later_twice_in_a_row :
    let start := (Unrolled.allocate [("x", 1)] 7).run (.initial {})
    let s : Lowering := { circuit := start.2 }
    let r := start.1.resolver
    let e : Expr := .node (.temporal .delay) .bool [.constant 1 .integer, .constant 3 .integer,
      .conjunction [.symbol "x" .bool, .nextSymbol "x" .bool]]
    let run := fun (r : Resolver) (e : Expr) (t : Nat) =>
      (e.toLiteral ⟨.empty, .mapped r⟩ (.step t)).run s
    let delayed := fun n : Int => Expr.delayed (.constant n .integer)
    ((Frame.step 0).shift 2 = .ok (.step 2) ∧ (run r e 2).1 = .ok ⟨10, false⟩ ∧
      (run (r.later 2) e 0).1 = .ok ⟨10, false⟩ ∧
      (run (r.later 2) e 0).2.circuit = (run r e 2).2.circuit) ∧
    (run r (delayed 3 e) 0).1 = .ok ⟨10, false⟩ ∧
      (run r (delayed 1 (delayed 2 e)) 0).1 = .ok ⟨10, false⟩ ∧
      (run r (delayed 1 (delayed 2 e)) 0).2.circuit = (run r (delayed 3 e) 0).2.circuit := by
  intro start s r e run delayed
  have hshift : (Frame.step 0).shift 2 = .ok (.step 2) := by decide
  have hatTwo : (run r e 2).1 = .ok ⟨10, false⟩ := by decide +kernel
  have honce : (run r (delayed 3 e) 0).1 = .ok ⟨10, false⟩ := by decide +kernel
  obtain ⟨hlater, hdelayed⟩ := lowered_later .empty r e
  have hone : (constant 1 .integer).delayOffset? = some 1 := by decide
  have htwo : (constant 2 .integer).delayOffset? = some 2 := by decide
  have hthree : (constant 3 .integer).delayOffset? = some (1 + 2) := by decide
  refine ⟨⟨hshift, hatTwo, ?_⟩, honce, ?_⟩
  · dsimp only [run]
    exact (hlater hshift s).1 _ hatTwo
  · dsimp only [run, delayed]
    exact hdelayed hone htwo hthree (.step 0) s _ honce

end Expr

end BitUnroll
