import BitUnroll.Proofs.Unroll.Reach

/-!
# Encodings without crashes

Encoding a script ends with an encoding or with a failure, and every question that it puts is
answered with a literal of a variable of the selected module, as long as all constraints and
conversions were listed while that module was selected. A constraint of another module is about
variables that have no literals, or about others of the same names.

## Main definitions

* `Attempt.Returns`: every run of an attempt ends with a result or a failure.
* `Step.Keeps`: so does every run of a step, and a property of the state is kept.

## Main statements

* `Unrolling.keeps_encode`: all steps of an unrolling.
* `Script.encode_returns`: the encoding of a script.
* `Script.exists_crash_of_other_module`: a constraint of another module.
-/

namespace BitUnroll

namespace Attempt

variable {α β : Type} {post : α → Prop}

/-- Every run ends with a result that has a property, or with a failure. -/
def Returns (x : Attempt α) (post : α → Prop) : Prop :=
  ∀ log, (∃ a, (x.run log).1 = .ok a ∧ post a) ∨ ∃ f, (x.run log).1 = .error (.failed f)

theorem returns_pure {a : α} (h : post a) : (pure a : Attempt α).Returns post :=
  fun _ => .inl ⟨a, rfl, h⟩

theorem returns_fail (f : Failure) : (fail f : Attempt α).Returns post := fun _ => .inr ⟨f, rfl⟩

theorem Returns.bind {x : Attempt α} {f : α → Attempt β} {post' : β → Prop} (hx : x.Returns post)
    (hf : ∀ a, post a → (f a).Returns post') : (x >>= f).Returns post' := by
  intro log
  rw [run_bind]
  rcases hrun : (x.run log : Except Halt α × MessageLog) with ⟨e | a, log'⟩ <;>
    have h := hx log <;> rw [hrun] at h
  · obtain ⟨a, ha, -⟩ | ⟨failure, hfailure⟩ := h
    · cases ha
    · obtain rfl := Except.error.inj hfailure
      exact .inr ⟨failure, rfl⟩
  · obtain ⟨b, hb, hpost⟩ | ⟨failure, hfailure⟩ := h
    · obtain rfl := Except.ok.inj hb
      exact hf a hpost log'
    · cases hfailure

theorem returns_ofElab (x : Except Failure α) : (ofElab x).Returns fun a => x = .ok a := by
  cases x with
  | ok a => exact returns_pure rfl
  | error f => exact returns_fail f

/-- What does not crash returns, with a failure where it is refused. -/
theorem returns_orFail (context : FailureContext) {result : Except Fault α}
    (h : ∀ c, result ≠ .error (.crashed c)) : (orFail context result).Returns fun _ => True := by
  rcases result with (e | c) | a
  · exact returns_fail _
  · exact absurd rfl (h c)
  · exact returns_pure trivial

end Attempt

namespace Step

open BitUnroll.Attempt

variable {α β : Type} {inv : Lowering → Prop}

/-- Every run from a state with a property ends with a result and such a state, or with a
failure. -/
def Keeps (inv : Lowering → Prop) (x : Step α) : Prop :=
  ∀ s, inv s → (x.run s).Returns fun r => inv r.2

theorem keeps_pure (a : α) : Keeps inv (pure a) := fun _ hs => returns_pure hs

theorem Keeps.bind {x : Step α} {f : α → Step β} (hx : Keeps inv x) (hf : ∀ a, Keeps inv (f a)) :
    Keeps inv (x >>= f) := fun s hs => (hx s hs).bind fun r hr => hf r.1 r.2 hr

theorem keeps_forM {f : β → Step Unit} (xs : List β) (hf : ∀ x, Keeps inv (f x)) :
    Keeps inv (xs.forM f) := by
  induction xs with
  | nil => exact keeps_pure ()
  | cons x xs ih => exact (hf x).bind fun _ => ih

theorem keeps_mapM {f : α → Step β} (xs : List α) (hf : ∀ x ∈ xs, Keeps inv (f x)) :
    Keeps inv (xs.mapM f) := by
  induction xs with
  | nil => exact keeps_pure []
  | cons x xs ih =>
    obtain ⟨hx, hxs⟩ := List.forall_mem_cons.1 hf
    rw [List.mapM_cons]
    exact hx.bind fun y => (ih hxs).bind fun ys => keeps_pure (y :: ys)

end Step

namespace Unrolling

open BitUnroll.Attempt
open BitUnroll.Expr (Answers)

variable {u : Unrolling} {vars : List (String × Ty)} {e : Expr} {frame : Frame}

/-- A question is about a bit of a variable, and there is a literal for it. -/
def Answered (u : Unrolling) (vars : List (String × Ty)) (n : Read) : Prop :=
  (∃ ty, (n.name, ty) ∈ vars ∧ n.bit < u.types.width ty) ∧
    (u.map.get? n.timeframe n.name n.bit).isSome

/-- All questions that were noted are answered. -/
def AllAnswered (u : Unrolling) (vars : List (String × Ty)) (s : Lowering) : Prop :=
  ∀ n ∈ s.reads, u.Answered vars n

/-- What passes the check reads no timeframe beyond the last one. -/
theorem returns_checkReach (goal : Goal) (e : Expr) (frame : Frame) :
    (u.checkReach goal e frame).Returns fun _ =>
      ∀ t, e.reach? frame = some t → t < u.timeframes := by
  unfold checkReach
  split
  · rename_i t ht
    split
    · exact returns_fail _
    · refine returns_pure fun t' ht' => ?_
      obtain rfl : t = t' := Option.some.inj (ht.symm.trans ht')
      omega
  · rename_i hnone
    refine returns_pure fun t ht => ?_
    rw [hnone] at ht
    cases ht

/-- A step that asks the questions of an expression asks for variables in the timeframes only. -/
theorem keeps_lower {α : Type} {x : Lower α} (hu : u.onRefusal = .propagate)
    (hmap : Answers u.map vars u.types u.timeframes) (hover : e.Over vars) (goal : Goal)
    (context : FailureContext) {fatal : Step α} (hx : Lower.Looks u.setting.symbols x
      ((e.footprint u.setting).asks frame) fun _ => (e.footprint u.setting).settled frame) :
    Step.Keeps (u.AllAnswered vars) (u.lower goal e frame (x.orFail context) fatal) := by
  intro s hs
  rw [run_lower, hu]
  refine (returns_checkReach goal e frame).bind fun _ hreach => ?_
  have hcrash : ∀ c, (x.run s).1 ≠ .error (.crashed c) := by
    intro c hc
    obtain ⟨miss, -, n, hn, hmiss, -⟩ := hx.crash s c hc
    exact hover.not_misses hmap hreach hn miss hmiss
  have hkept : u.AllAnswered vars (x.run s).2 := by
    intro n hn
    rcases hx.asked s n hn with hn | hn
    · exact hs n hn
    · refine ⟨hover.declared hn, ?_⟩
      obtain ⟨t, ht, hle⟩ := Expr.reach?_of_asks hn
      have hlt := hreach t ht
      exact hmap _ _ _ (by omega) (hover.declared hn)
  exact (returns_orFail context hcrash).bind fun _ _ => returns_pure hkept

theorem keeps_requireFrom (hu : u.onRefusal = .propagate)
    (hmap : Answers u.map vars u.types u.timeframes) (number : Nat) (cs : List Constraint)
    (hover : ∀ c ∈ cs, c.expr.Over vars) :
    Step.Keeps (u.AllAnswered vars) (u.requireFrom number cs) := by
  induction cs generalizing number with
  | nil => exact Step.keeps_pure ()
  | cons c cs ih =>
    obtain ⟨hc, hcs⟩ := List.forall_mem_cons.1 hover
    exact (keeps_lower hu hmap hc _ _ (Expr.looks_require u.setting c.expr c.frame)).bind
      fun _ => ih (number + 1) hcs

/-- All steps of an unrolling return, and all their questions are answered. -/
theorem keeps_encode (hu : u.onRefusal = .propagate) {ts : TransitionSystem} {s : Script}
    (hmap : Answers u.map ts.vars u.types u.timeframes) (hinit : ts.init.Over ts.vars)
    (htrans : ts.trans.Over ts.vars) (hconstraints : ∀ c ∈ s.constraints, c.expr.Over ts.vars)
    (hconversions : ∀ c ∈ s.conversions, c.expr.Over ts.vars) :
    Step.Keeps (u.AllAnswered ts.vars) (u.encode ts s) := by
  refine (keeps_lower hu hmap hinit _ _ (Expr.looks_require u.setting _ _)).bind fun _ => ?_
  refine (Step.keeps_forM _ fun t =>
    keeps_lower hu hmap htrans _ _ (Expr.looks_require u.setting _ _)).bind fun _ => ?_
  refine (keeps_requireFrom hu hmap 1 _ fun c hc =>
    hconstraints c (Array.mem_toList_iff.1 hc)).bind fun _ => ?_
  refine Step.keeps_mapM _ fun c hc => ?_
  exact (keeps_lower hu hmap (hconversions c (Array.mem_toList_iff.1 hc)) _ _
    ((Expr.traced u.setting c.expr).word c.frame)).bind fun w => Step.keeps_pure _

end Unrolling

namespace Script

variable {text : String} {s : Script}

/-- **Encoding a script does not crash.** Take a script whose constraints and conversions were all
listed while the selected module was selected. Encoding it ends with an encoding or with a failure,
and in an encoding every question that was put is about a bit of a variable of that module, and is
answered with the literal that was allocated for it. -/
theorem encode_returns (hs : parse text = .ok s) (hlists : ListsIn s.selected (commands text))
    (config : Config) :
    (s.encode config).Returns (fun _ => True) ∧
    ∀ ts, s.system = .ok ts → ∀ map c, (Unrolled.allocate (ts.varWidths s.types)
        config.timeframes).run (.initial config.options) = (map, c) →
      let u : Unrolling := ⟨s.types, map, config.timeframes, .propagate⟩
      ((u.encode ts s).run { circuit := c }).Returns fun r => u.AllAnswered ts.vars r.2 := by
  have hencode : ∀ ts, s.system = .ok ts → ∀ map c, (Unrolled.allocate (ts.varWidths s.types)
        config.timeframes).run (.initial config.options) = (map, c) →
      let u : Unrolling := ⟨s.types, map, config.timeframes, .propagate⟩
      ((u.encode ts s).run { circuit := c }).Returns fun r => u.AllAnswered ts.vars r.2 := by
    intro ts hts map c hallocate u
    obtain ⟨hinit, htrans, hlisted⟩ := over_of_parse hs hts
    obtain ⟨hconstraints, hconversions⟩ := hlisted hlists
    have hmap := answers_allocate ts s.types config.timeframes config.options
    obtain rfl : map = _ := (congrArg Prod.fst hallocate).symm
    exact Unrolling.keeps_encode rfl hmap hinit htrans hconstraints hconversions _ (by
      simp [Unrolling.AllAnswered])
  refine ⟨?_, hencode⟩
  unfold encode unroll
  dsimp only
  split
  · have hfail : (Attempt.fail (.of .noTimeframes) : Attempt Unit).Returns fun _ => False :=
      Attempt.returns_fail _
    exact hfail.bind fun _ h => h.elim
  · refine (Attempt.returns_ofElab s.system).bind fun ts hts => ?_
    exact (hencode ts hts _ _ rfl).bind fun _ _ => Attempt.returns_pure trivial

/-- Two modules with a variable of the same name, one of which is selected whenever something is
listed. -/
theorem encode_returns_two_modules :
    let text := "(declare-var x bool) (module m) (declare-var x (unsigned 2)) (constraint (bit x 1))"
    ∃ s, parse text = .ok s ∧ ListsIn s.selected (commands text) ∧
      (s.encode {}).Returns fun _ => True := by
  intro text
  have hrun : (parse text).toOption.any (fun s => ListsIn s.selected (commands text)) = true := by
    decide +kernel
  rcases hs : parse text with f | s <;> rw [hs] at hrun
  · cases hrun
  · have hlists : ListsIn s.selected (commands text) := of_decide_eq_true hrun
    exact ⟨s, rfl, hlists, (encode_returns hs hlists {}).1⟩

/-- A constraint of a module that is not selected in the end is about a variable that has no
literals. -/
theorem exists_crash_of_other_module : ∃ text s log, parse text = .ok s ∧
    (s.encode {}).run {} = (.error (.crashed (.missing (.timeframe "x" 0 0))), log) := by
  have hrun : (parse "(declare-var x bool) (constraint x) (module m)").toOption.any (fun s =>
      match ((s.encode {}).run {} : Except Halt Encoding × MessageLog).1 with
      | .error (.crashed c) => c == .missing (.timeframe "x" 0 0)
      | _ => false) = true := by decide +kernel
  rcases hs : parse "(declare-var x bool) (constraint x) (module m)" with f | s <;> rw [hs] at hrun
  · cases hrun
  rcases he : ((s.encode {}).run {} : Except Halt Encoding × MessageLog) with ⟨result, log⟩
  rw [Except.toOption, Option.any_some, he] at hrun
  rcases result with (f | status | c) | e
  · cases hrun
  · cases hrun
  · exact ⟨_, s, log, hs, by rw [he, eq_of_beq hrun]⟩
  · cases hrun

end Script

end BitUnroll
