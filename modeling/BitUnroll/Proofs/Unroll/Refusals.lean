import BitUnroll.Proofs.Script.Failures
import BitUnroll.Proofs.Unroll.Steps
import BitUnroll.Unroll.Report

/-!
# Returned and fatal refusals

A run that returns refusals as failures and a run that ends the program at them do the same up to
the first refusal, and without one they end alike. At the refusal one of them fails, with the
refusal as the cause, and the other one prints the text of the refusal as its only message and ends
with status one. So what is true of the scripts that one of them accepts is true of the other one.

Each run lowers its expressions through entry points of its own, which differ in what becomes of a
refusal (`Lower.matched_orExit`). A refusal may come in any condition, constraint or conversion, and
the check of the reach before each of them fails in both runs alike. `Ends.Matched` therefore
relates complete runs, and it is kept by sequences and by loops. Where a formula is solved both runs
ask the same solver, which may be any, and if it fails they fail alike.

## Main definitions

* `Ends.Matched`: how the two runs may end.
* `Attempt.Matched`, `Step.Matched`: two computations that end so from every state.
* `Ends.Agree`: what an observer can tell from the ends of the two runs.

## Main statements

* `Lower.matched_orExit`: the two ways to go on after a refusal.
* `Unrolling.matched_encode`: all steps of an unrolling.
* `runScript_agree`: whole runs on the text of a script.
-/

namespace BitUnroll

variable {α β : Type}

/-! ## Ends of runs -/

/-- How a run that returns refusals and a run that ends the program at them may end, if both start
with the same messages. -/
inductive Ends.Matched (log : MessageLog) :
    Except Halt α × MessageLog → Except Halt α × MessageLog → Prop
  | ok (a : α) : Matched log (.ok a, log) (.ok a, log)
  | refused (contexts : List FailureContext) (e : LoweringError) :
    Matched log (.error (.failed ⟨contexts, .lowering e⟩), log)
      (.error (.exited 1), log.print .error e.message)
  | failed (f : Failure) (h : f.lowering? = none) :
    Matched log (.error (.failed f), log) (.error (.failed f), log)
  | crashed (c : Crash) : Matched log (.error (.crashed c), log) (.error (.crashed c), log)

/-- What an observer can tell from the ends of two runs that start with the same messages, the first
of which returns refusals while the second one ends the program at them. -/
structure Ends.Agree (log : MessageLog) (returning fatal : Except Halt α × MessageLog) : Prop where
  /-- One succeeds if the other one does, with the same result. -/
  ok : ∀ a, returning.1 = .ok a ↔ fatal.1 = .ok a
  /-- The first run fails with a refusal as its cause if the second one prints the text of this
  refusal as an error, prints nothing else and ends the program with status one. -/
  refused : ∀ text,
    (∃ f e, returning.1 = .error (.failed f) ∧ f.lowering? = some e ∧ e.message = text) ↔
      fatal = (.error (.exited 1), { log with messages := log.messages.push (.error, text) })
  /-- All other failures are the same ones, with the same contexts. -/
  failed : ∀ f : Failure, f.lowering? = none →
    (returning.1 = .error (.failed f) ↔ fatal.1 = .error (.failed f))
  /-- One crashes if the other one does, for the same reason. -/
  crashed : ∀ c, returning.1 = .error (.crashed c) ↔ fatal.1 = .error (.crashed c)
  /-- The first run never ends the program. -/
  not_exited : ∀ status, returning.1 ≠ .error (.exited status)
  /-- The second run ends the program with status one, and at refusals only. -/
  exited : ∀ status, fatal.1 = .error (.exited status) →
    status = 1 ∧ ∃ f e, returning.1 = .error (.failed f) ∧ f.lowering? = some e
  /-- The second run never returns a refusal. -/
  not_refused : ∀ f, fatal.1 = .error (.failed f) → f.lowering? = none
  /-- The first run prints nothing. -/
  quiet : returning.2 = log
  /-- Unless it ends the program, neither does the second one. -/
  quiet_of_not_exited : (∀ status, fatal.1 ≠ .error (.exited status)) → fatal.2 = log

theorem MessageLog.print_error (log : MessageLog) (text : String) :
    log.print .error text = { log with messages := log.messages.push (.error, text) } :=
  if_pos (Nat.zero_le _)

/-- Different texts are told apart in the log. -/
theorem MessageLog.push_inj {log : MessageLog} {text text' : String}
    (h : ({ log with messages := log.messages.push (.error, text) } : MessageLog) =
      { log with messages := log.messages.push (.error, text') }) : text = text' := by
  have hmessages := congrArg MessageLog.messages h
  exact congrArg Prod.snd (Array.push_inj_right.1 hmessages)

theorem Ends.Matched.agree {log : MessageLog} {returning fatal : Except Halt α × MessageLog}
    (h : Matched log returning fatal) : Agree log returning fatal := by
  cases h with
  | ok a => constructor <;> simp
  | refused contexts e =>
    rw [MessageLog.print_error]
    constructor
    case refused =>
      intro text
      constructor
      · rintro ⟨f, e', hf, he', rfl⟩
        cases hf
        cases he'
        rfl
      · intro h
        exact ⟨_, e, rfl, rfl, MessageLog.push_inj (congrArg Prod.snd h)⟩
    case failed =>
      intro f hf
      constructor <;> intro h <;> cases h
      cases hf
    case exited =>
      intro status h
      cases h
      exact ⟨rfl, _, e, rfl, rfl⟩
    all_goals simp
  | failed f hf =>
    constructor
    case refused =>
      intro text
      constructor
      · rintro ⟨f', e, hf', he, -⟩
        cases hf'
        rw [hf] at he
        cases he
      · intro h
        cases h
    case not_refused =>
      intro f' h
      cases h
      exact hf
    all_goals simp
  | crashed c => constructor <;> simp

/-! ## Attempts -/

namespace Attempt

/-- The runs of two attempts end as matched from all messages. -/
def Matched (x y : Attempt α) : Prop := ∀ log, Ends.Matched log (x.run log) (y.run log)

theorem matched_pure (a : α) : Matched (pure a) (pure a) := fun _ => .ok a

theorem matched_throw_crashed (c : Crash) :
    Matched (throw (.crashed c) : Attempt α) (throw (.crashed c)) := fun _ => .crashed c

/-- What is no refusal fails in both runs. -/
theorem matched_fail {f : Failure} (h : f.lowering? = none) :
    Matched (fail f : Attempt α) (fail f) := fun _ => .failed f h

/-- Nothing that comes after a failure is run. -/
theorem matched_fail_bind {f : Failure} (h : f.lowering? = none) (g g' : α → Attempt β) :
    Matched (fail f >>= g) (fail f >>= g') := fun _ => .failed f h

theorem matched_ofElab {x : Elab α} (h : Elab.Fails x fun f => f.lowering? = none) :
    Matched (ofElab x) (ofElab x) := by
  cases x with
  | ok a => exact matched_pure a
  | error f => exact matched_fail (h f rfl)

/-- The results of lowering, taken in both ways. -/
theorem matched_orExit (context : FailureContext) (result : Except Fault α) :
    Matched (orFail context result) (orExit result) := by
  rcases result with (e | c) | a
  · exact fun _ => .refused [context] e
  · exact matched_throw_crashed c
  · exact matched_pure a

theorem Matched.bind {x y : Attempt α} {f g : α → Attempt β} (h : Matched x y)
    (hfg : ∀ a, Matched (f a) (g a)) : Matched (x >>= f) (y >>= g) := by
  intro log
  rw [run_bind, run_bind]
  have hrun := h log
  generalize (x.run log : Except Halt α × MessageLog) = returning at hrun
  generalize (y.run log : Except Halt α × MessageLog) = fatal at hrun
  cases hrun with
  | ok a => exact hfg a log
  | refused contexts e => exact .refused contexts e
  | failed f hf => exact .failed f hf
  | crashed c => exact .crashed c

end Attempt

/-! ## Steps -/

namespace Step

/-- The runs of two steps end as matched from each state. -/
def Matched (x y : Step α) : Prop := ∀ s, Attempt.Matched (x.run s) (y.run s)

theorem matched_pure (a : α) : Matched (pure a) (pure a) := fun s => Attempt.matched_pure (a, s)

theorem Matched.bind {x y : Step α} {f g : α → Step β} (h : Matched x y)
    (hfg : ∀ a, Matched (f a) (g a)) : Matched (x >>= f) (y >>= g) :=
  fun s => (h s).bind fun r => hfg r.1 r.2

theorem matched_forM {f g : β → Step Unit} (xs : List β) (h : ∀ x, Matched (f x) (g x)) :
    Matched (xs.forM f) (xs.forM g) := by
  induction xs with
  | nil => exact matched_pure ()
  | cons x xs ih => exact (h x).bind fun _ => ih

theorem matched_mapM {f g : α → Step β} (xs : List α) (h : ∀ x, Matched (f x) (g x)) :
    Matched (xs.mapM f) (xs.mapM g) := by
  induction xs with
  | nil => exact matched_pure []
  | cons x xs ih =>
    rw [List.mapM_cons, List.mapM_cons]
    exact (h x).bind fun y => ih.bind fun ys => matched_pure (y :: ys)

end Step

/-- Lowering whose refusal is a failure, and lowering whose refusal ends the program. -/
theorem Lower.matched_orExit (x : Lower α) (context : FailureContext) :
    Step.Matched (x.orFail context) x.orExit :=
  fun s => (Attempt.matched_orExit context (x.run s).1).bind fun _ => Attempt.matched_pure _

/-! ## Unrollings -/

namespace Unrolling

open BitUnroll.Step (Matched)

/-- The same unrolling with something else that becomes of refused expressions. -/
def refusing (u : Unrolling) (onRefusal : OnRefusal) : Unrolling :=
  { u with onRefusal := onRefusal }

variable (u : Unrolling)

/-- Reading too far is a failure, whatever becomes of refusals. -/
theorem matched_checkReach (goal : Goal) (e : Expr) (frame : Frame) :
    Attempt.Matched ((u.refusing .propagate).checkReach goal e frame)
      ((u.refusing .exit).checkReach goal e frame) := by
  show Attempt.Matched (u.checkReach goal e frame) (u.checkReach goal e frame)
  unfold checkReach
  split
  · split
    · exact Attempt.matched_fail rfl
    · exact Attempt.matched_pure ()
  · exact Attempt.matched_pure ()

/-- Of the two ways to lower an expression, each run takes its own. -/
theorem matched_lower (goal : Goal) (e : Expr) (frame : Frame)
    {returning returning' fatal fatal' : Step α} (h : Matched returning fatal) :
    Matched ((u.refusing .propagate).lower goal e frame returning fatal')
      ((u.refusing .exit).lower goal e frame returning' fatal) := by
  intro s
  rw [run_lower, run_lower]
  exact (u.matched_checkReach goal e frame).bind fun _ => h s

theorem matched_require (goal : Goal) (e : Expr) (frame : Frame) :
    Matched ((u.refusing .propagate).require goal e frame)
      ((u.refusing .exit).require goal e frame) :=
  u.matched_lower _ _ _ (Lower.matched_orExit _ _)

theorem matched_convert (c : Conversion) :
    Matched ((u.refusing .propagate).convert c) ((u.refusing .exit).convert c) :=
  (u.matched_lower _ _ _ (Lower.matched_orExit _ _)).bind fun _ => Step.matched_pure _

theorem matched_requireFrom (number : Nat) (cs : List Constraint) :
    Matched ((u.refusing .propagate).requireFrom number cs)
      ((u.refusing .exit).requireFrom number cs) := by
  induction cs generalizing number with
  | nil => exact Step.matched_pure ()
  | cons c cs ih => exact (u.matched_require _ _ _).bind fun _ => ih (number + 1)

/-- The unrolling of a script, up to the first goal that fails. -/
theorem matched_encode (ts : TransitionSystem) (s : Script) :
    Matched ((u.refusing .propagate).encode ts s) ((u.refusing .exit).encode ts s) := by
  refine (u.matched_require _ _ _).bind fun _ => Matched.bind ?_ fun _ => ?_
  · exact Step.matched_forM _ fun t => u.matched_require _ _ _
  · refine (u.matched_requireFrom _ _).bind fun _ => ?_
    exact Step.matched_mapM _ u.matched_convert

end Unrolling

/-! ## Whole runs -/

theorem Script.matched_unroll (s : Script) (config : Config) :
    Attempt.Matched (s.unroll config .propagate) (s.unroll config .exit) := by
  unfold unroll
  dsimp only
  split
  · exact Attempt.matched_fail_bind rfl _ _
  · refine (Attempt.matched_ofElab s.lowering?_system).bind fun ts => ?_
    exact (Unrolling.matched_encode ⟨_, _, _, .propagate⟩ ts s _).bind fun _ =>
      Attempt.matched_pure _

/-- No report fails because of a refused expression. -/
theorem Encoding.lowering?_report (e : Encoding) (types : TypeTable) (solve : Bool)
    (solver : Solver) {f : Failure} (h : e.report types solve solver = .error f) :
    f.lowering? = none := by
  cases solve with
  | false => cases h
  | true =>
    change e.verdict types solver = .error f at h
    unfold verdict at h
    split at h
    · cases h
      rfl
    · cases h
    · cases h

/-- Whole runs on the text of a script agree, whether refusals are returned or end the program,
whichever solver they ask. -/
theorem runScript_agree (text : String) (config : Config) (solver : Solver) (log : MessageLog) :
    Ends.Agree log ((runScript text config .propagate solver).run log)
      ((runScript text config .exit solver).run log) := by
  have hmatched : Attempt.Matched (runScript text config .propagate solver)
      (runScript text config .exit solver) := by
    refine (Attempt.matched_ofElab (Script.lowering?_parse text)).bind fun script => ?_
    exact (script.matched_unroll config).bind fun e =>
      Attempt.matched_ofElab fun _ => e.lowering?_report _ _ _
  exact (hmatched log).agree

end BitUnroll
