/-!
# Frames

A frame says which timeframes an expression is read in: one for state variables and one for their
next values. Timeframes are numbered from zero and stay below `Frame.limit`; a shift that would
leave that range is refused.
-/

namespace BitUnroll

/-- The timeframes of current and next values. -/
structure Frame where
  current : Nat
  next : Nat
  deriving DecidableEq, Repr

namespace Frame

/-- The number of timeframes that can be told apart, which sixty-four bits count. -/
def limit : Nat := 0x10000000000000000

/-- A timeframe and the offset that takes it out of range. -/
structure Overflow where
  base : Nat
  offset : Nat
  deriving DecidableEq, Repr

/-- The step from a timeframe to the one after it. -/
def step (t : Nat) : Frame := ⟨t, t + 1⟩

/-- The first step, for a single transition without numbered timeframes. -/
def phases : Frame := step 0

/-- A timeframe moved forward. -/
def advance (base offset : Nat) : Except Overflow Nat :=
  if base + offset < limit then .ok (base + offset) else .error ⟨base, offset⟩

/-- The frame that lies `offset` timeframes later, however late that is. -/
def later (f : Frame) (offset : Nat) : Frame := ⟨f.current + offset, f.next + offset⟩

/-- Both timeframes moved forward. The current one is looked at first. -/
def shift (f : Frame) (offset : Nat) : Except Overflow Frame := do
  let current ← advance f.current offset
  let next ← advance f.next offset
  return ⟨current, next⟩

/-- The text of a frame. -/
def render (f : Frame) : String :=
  "Frame \x7b current: " ++ toString f.current ++ ", next: " ++ toString f.next ++ " \x7d"

/-- A shift succeeds exactly where both timeframes stay in range, and moves both. -/
theorem shift_eq_ok_iff {f g : Frame} {offset : Nat} :
    f.shift offset = .ok g ↔
      f.current + offset < limit ∧ f.next + offset < limit ∧ g = f.later offset := by
  unfold shift advance later
  by_cases hc : f.current + offset < limit <;> by_cases hn : f.next + offset < limit <;>
    simp [hc, hn, bind, Except.bind, pure, Except.pure, eq_comm]

end Frame

end BitUnroll
