import BitUnroll.SExpr.Reader

/-!
# Scans in parts

A scan of a text goes over a first part of it and then over the rest. What it does with a character
depends on the mode and on a look at the two characters behind, so the scan of the first part is
given the rest to look at.

## Main definitions

* `Token.step`: what one character does.
* `Token.runOver`: the mode after a first part of a text, and the tokens of that part.

## Main statements

* `Token.scanFrom_append`: the scan of a text is the scan of its parts.
* `Token.runOver_eq_of_between`: a first part that ends between tokens is scanned in the same way
  whatever follows it.
-/

namespace BitUnroll.Token

/-- The mode after a character, and the tokens that end with it or that it is. -/
def step (p : Position) (mode : Mode) (c : Char) (rest : List Char) : Mode × List Token :=
  match mode with
  | .between =>
    if endsWord c then (.between, (ofDelimiter? p.line c).toList) else (start p c rest, [])
  | .comment => (if c = '\n' then .between else .comment, [])
  | .word cs =>
    if endsWord c then (.between, ofReversed cs :: (ofDelimiter? p.line c).toList)
    else (.word (c :: cs), [])
  | .quoted line cs =>
    if c = '|' then (.between, [ofReversed cs]) else (.quoted line (c :: cs), [])

/-- The position after some characters. -/
def Position.advanceAll (p : Position) (cs : List Char) : Position := cs.foldl Position.advance p

/-- The mode after the first part of a text, and the tokens that ended in that part. -/
def runOver : Position → Mode → List Char → List Char → Mode × List Token
  | _, mode, [], _ => (mode, [])
  | p, mode, c :: before, rest =>
    let here := step p mode c (before ++ rest)
    let later := runOver (p.advance c) here.1 before rest
    (later.1, here.2 ++ later.2)

variable {p : Position} {mode : Mode} {c : Char} {before rest : List Char}

@[simp] theorem prepend_nil (s : Scanned) : s.prepend [] = s := rfl

theorem prepend_prepend (s : Scanned) (ts us : List Token) :
    (s.prepend us).prepend ts = s.prepend (ts ++ us) := by
  simp [Scanned.prepend]

@[simp] theorem Position.advanceAll_nil (p : Position) : p.advanceAll [] = p := rfl

@[simp] theorem Position.advanceAll_cons (p : Position) (c : Char) (cs : List Char) :
    p.advanceAll (c :: cs) = (p.advance c).advanceAll cs := rfl

@[simp] theorem Position.advanceAll_append (p : Position) (cs ds : List Char) :
    p.advanceAll (cs ++ ds) = (p.advanceAll cs).advanceAll ds := List.foldl_append

/-- One more character. -/
theorem Position.advanceAll_concat (p : Position) (cs : List Char) (c : Char) :
    p.advanceAll (cs ++ [c]) = (p.advanceAll cs).advance c := by
  rw [advanceAll_append]
  rfl

/-- Every line break leads to the next line. -/
theorem line_advanceAll_eq (p : Position) (cs : List Char) :
    (p.advanceAll cs).line = p.line + cs.count '\n' := by
  induction cs generalizing p with
  | nil => rfl
  | cons c cs ih =>
    rw [Position.advanceAll_cons, ih, Position.advance, List.count_cons]
    by_cases hc : c = '\n'
    · simp [hc]
      omega
    · simp [hc]

/-- A scan takes one character at a time. -/
theorem scanFrom_cons (p : Position) (mode : Mode) (c : Char) (rest : List Char) :
    scanFrom p mode (c :: rest) =
      (scanFrom (p.advance c) (step p mode c rest).1 rest).prepend (step p mode c rest).2 := by
  cases mode with
  | between | word =>
    rw [scanFrom, step]
    split <;> rfl
  | comment => rw [scanFrom, step, prepend_nil]
  | quoted line cs =>
    rw [scanFrom, step]
    split <;> rfl

/-- The scan of a text goes over a first part and then over the rest. -/
theorem scanFrom_append (p : Position) (mode : Mode) (before rest : List Char) :
    scanFrom p mode (before ++ rest) =
      (scanFrom (p.advanceAll before) (runOver p mode before rest).1 rest).prepend
        (runOver p mode before rest).2 := by
  induction before generalizing p mode with
  | nil => rfl
  | cons c before ih => rw [List.cons_append, scanFrom_cons, ih, prepend_prepend]; rfl

/-! ## Looking ahead -/

/-- Something other than a delimiter or a blank leads away from between the tokens. -/
theorem start_ne_between (p : Position) (c : Char) (rest : List Char) :
    start p c rest ≠ .between := by
  unfold start
  split
  · exact nofun
  · split <;> exact nofun

/-- Behind a semicolon there is a comment or a name. -/
theorem step_semicolon_ne_between (p : Position) (mode : Mode) (rest : List Char) :
    (step p mode ';' rest).1 ≠ .between := by
  have hends : endsWord ';' = false := by decide
  cases mode with
  | between =>
    rw [step, hends]
    exact start_ne_between p ';' rest
  | comment | word | quoted => simp [step, hends]

/-- Only a second semicolon has a look at what follows it. -/
theorem step_cons_congr {d : Char} (hd : d ≠ ';') (p : Position) (mode : Mode) (c : Char)
    (u u' : List Char) : step p mode c (d :: u) = step p mode c (d :: u') := by
  cases mode with
  | between => simp [step, start, opensOperator, opensQuoted, hd]
  | comment | word | quoted => rfl

/-- What the last character of a first part does is the same whatever follows, if that part ends
between tokens. -/
theorem step_congr {u : List Char} (h : (step p mode c u).1 = .between) (u' : List Char) :
    step p mode c u' = step p mode c u := by
  cases mode with
  | between =>
    rw [step] at h
    split at h
    · rename_i hc
      rw [step, step, if_pos hc, if_pos hc]
    · exact absurd h (start_ne_between p c u)
  | comment | word | quoted => rfl

/-- A first part that ends between tokens is scanned in the same way whatever follows it. -/
theorem runOver_eq_of_between {u : List Char} (h : (runOver p mode before u).1 = .between)
    (u' : List Char) : runOver p mode before u' = runOver p mode before u := by
  induction before generalizing p mode with
  | nil => rfl
  | cons c before ih =>
    have hstep : step p mode c (before ++ u') = step p mode c (before ++ u) := by
      match before with
      | [] => exact step_congr h u'
      | d :: ds =>
        by_cases hd : d = ';'
        · subst hd
          cases ds with
          | nil => exact absurd h (step_semicolon_ne_between _ _ _)
          | cons e es => cases mode <;> rfl
        · exact step_cons_congr hd p mode c _ _
    rw [runOver, runOver, hstep, ih h]

/-- A comment behind a first part does not change how that part is scanned. -/
theorem runOver_congr {u : List Char} (h : (runOver p mode before (';' :: u)).1 = .between)
    (u' : List Char) : runOver p mode before (';' :: u') = runOver p mode before (';' :: u) :=
  runOver_eq_of_between h _

end BitUnroll.Token
