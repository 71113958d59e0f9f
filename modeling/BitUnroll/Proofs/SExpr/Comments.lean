import BitUnroll.Proofs.SExpr.Scan

/-!
# Comments

What a comment says is skipped, but its last character that is not blank stays in sight: the
operator `;;` is told from a comment by the character before it. So a comment's text is free unless
it ends in an opening parenthesis, and `;;` is the first item of a list as long as comments neither
end in an opening parenthesis nor stand right behind one.

## Main definitions

* `Token.Skipped`: a comment that a scan skips.
* `Token.Harmless`: no comment of a first part of a text hides or fakes the start of a list.

## Main statements

* `Token.scanFrom_congr_comment`: a comment with another text.
* `Token.opensOperator_iff`: where `;;` is the operator.
* `SExpr.readAll_comment`: both, for the trees of a text.
-/

namespace BitUnroll

namespace Token

variable {p q : Position} {mode : Mode} {c : Char} {before rest comment other : List Char}
  {tokens : List Token}

/-- The last character that is not blank. -/
def lastMark? (cs : List Char) : Option Char := (cs.filter fun c => !Text.isBlank c).getLast?

/-- Whether a text goes on, after blanks, with `;;` and a blank or a closing parenthesis. -/
def operatorNext (cs : List Char) : Bool :=
  match cs.dropWhile Text.isBlank with
  | ';' :: ';' :: c :: _ => Text.isBlank c || c == ')'
  | _ => false

/-- A text is a first part, after which the scan stands between tokens, a semicolon that opens a
comment, the text of the comment, and what follows the comment's line. -/
structure Skipped (text : String) (before comment rest : List Char) : Prop where
  text_eq : text.toList = before ++ ';' :: (comment ++ rest)
  between : (runOver {} .between before (';' :: (comment ++ rest))).1 = .between
  opens : opensOperator (Position.advanceAll {} before) (comment ++ rest) = false
  line : '\n' ∉ comment
  rest_eq : rest = [] ∨ ∃ more, rest = '\n' :: more

/-! ## Positions -/

theorem lastMark?_cons (c : Char) (cs : List Char) :
    lastMark? (c :: cs) = (lastMark? cs).or (if Text.isBlank c then none else some c) := by
  unfold lastMark?
  by_cases hc : Text.isBlank c = true
  · simp [hc]
  · simp [hc, List.getLast?_cons]

theorem last?_advanceAll (p : Position) (cs : List Char) :
    (p.advanceAll cs).last? = (lastMark? cs).or p.last? := by
  induction cs generalizing p with
  | nil => rfl
  | cons c cs ih =>
    rw [Position.advanceAll_cons, ih, lastMark?_cons, Option.or_assoc, Position.advance]
    by_cases hc : Text.isBlank c = true <;> simp [hc]

theorem line_advanceAll (p : Position) {cs : List Char} (h : '\n' ∉ cs) :
    (p.advanceAll cs).line = p.line := by
  rw [line_advanceAll_eq, List.count_eq_zero_of_not_mem h, Nat.add_zero]

/-- Two positions on one line that look the same to the operator. -/
structure Alike (p q : Position) : Prop where
  line_eq : p.line = q.line
  opening_iff : p.last? = some '(' ↔ q.last? = some '('

theorem Alike.opensOperator_eq (h : Alike p q) (rest : List Char) :
    opensOperator p rest = opensOperator q rest := by
  have hlast : (p.last? == some '(') = (q.last? == some '(') := by
    rw [Bool.eq_iff_iff, beq_iff_eq, beq_iff_eq]
    exact h.opening_iff
  unfold opensOperator
  rw [hlast]

theorem Alike.step_eq (h : Alike p q) (mode : Mode) (c : Char) (rest : List Char) :
    step p mode c rest = step q mode c rest := by
  unfold step start
  rw [h.opensOperator_eq, h.line_eq]

theorem Alike.advance (h : Alike p q) (c : Char) : Alike (p.advance c) (q.advance c) := by
  refine ⟨?_, ?_⟩
  · simp only [Position.advance, h.line_eq]
  · simp only [Position.advance]
    split
    · exact h.opening_iff
    · exact Iff.rfl

/-- Scans from positions that look the same are the same. -/
theorem Alike.scanFrom_eq (h : Alike p q) (mode : Mode) (text : List Char) :
    scanFrom p mode text = scanFrom q mode text := by
  induction text generalizing p q mode with
  | nil => cases mode <;> rfl
  | cons c text ih => rw [scanFrom_cons, scanFrom_cons, h.step_eq, ih (h.advance c)]

/-- Where no operator comes next, positions on one line need not look the same. -/
theorem scanFrom_eq_of_line_eq (hline : p.line = q.line) {text : List Char}
    (htext : operatorNext text = false) :
    scanFrom p .between text = scanFrom q .between text := by
  induction text generalizing p q with
  | nil => rfl
  | cons c text ih =>
    by_cases hc : Text.isBlank c = true
    · have hnext : operatorNext text = false := by
        rw [operatorNext, List.dropWhile_cons_of_pos hc] at htext
        exact htext
      have hstep : ∀ r : Position,
          step r .between c text = (.between, (ofDelimiter? r.line c).toList) := fun r => by
        simp [step, endsWord, hc]
      rw [scanFrom_cons, scanFrom_cons, hstep, hstep, hline]
      refine congrArg (Scanned.prepend _) (ih ?_ hnext)
      simp only [Position.advance, hline]
    · -- the first mark is scanned alike, and behind it the positions are the same
      have hadvance : p.advance c = q.advance c := by
        simp only [Position.advance, hline, if_neg hc]
      have hopens : ∀ r : Position, c = ';' → opensOperator r text = false := by
        rintro r rfl
        rw [operatorNext, List.dropWhile_cons_of_neg hc] at htext
        unfold opensOperator
        split
        · rename_i d more
          have hnone : (Text.isBlank d || d == ')') = false := htext
          rw [hnone, Bool.false_and]
        · rfl
      have hstep : step p .between c text = step q .between c text := by
        have hstart : start p c text = start q c text := by
          unfold start
          by_cases hsemicolon : c = ';'
          · rw [hopens p hsemicolon, hopens q hsemicolon, hline]
          · simp [hsemicolon, hline]
        rw [step, step, hstart, hline]
      rw [scanFrom_cons, scanFrom_cons, hstep, hadvance]

/-! ## One comment with another text -/

/-- Inside a comment nothing is read before the end of the line. -/
theorem runOver_comment (p : Position) (rest : List Char) (h : '\n' ∉ comment) :
    runOver p .comment comment rest = (.comment, []) := by
  induction comment generalizing p with
  | nil => rfl
  | cons c comment ih =>
    rw [List.mem_cons, not_or] at h
    have hstep : step p .comment c (comment ++ rest) = (.comment, []) := by
      rw [step, if_neg (Ne.symm h.1)]
    rw [runOver, hstep, ih _ h.2]
    rfl

/-- A scan skips a comment. -/
theorem scanFrom_comment (hopens : opensOperator p (comment ++ rest) = false)
    (hline : '\n' ∉ comment) : scanFrom p .between (';' :: (comment ++ rest)) =
      scanFrom (p.advanceAll (';' :: comment)) .comment rest := by
  have hstep : step p .between ';' (comment ++ rest) = (.comment, []) := by
    have hends : endsWord ';' = false := by decide
    simp [step, hends, start, hopens]
  rw [scanFrom_cons, hstep, scanFrom_append, runOver_comment _ rest hline, prepend_nil,
    prepend_nil, Position.advanceAll_cons]

/-- A semicolon and a text that starts with no semicolon are no operator. -/
theorem opensOperator_eq_false (p : Position) (hother : other.head? ≠ some ';')
    (hrest : rest = [] ∨ ∃ more, rest = '\n' :: more) :
    opensOperator p (other ++ rest) = false := by
  cases other with
  | nil => rcases hrest with rfl | ⟨more, rfl⟩ <;> rfl
  | cons c other =>
    have hc : c ≠ ';' := fun h => hother (by rw [h]; rfl)
    unfold opensOperator
    split
    · rename_i heq
      exact absurd (List.cons.inj heq).1 hc
    · rfl

/-- The end of a comment's text, as the operator sees it. -/
theorem last?_comment (p : Position) (comment : List Char) :
    (p.advanceAll (';' :: comment)).last? = some '(' ↔ lastMark? comment = some '(' := by
  have hsemicolon : (p.advance ';').last? = some ';' := rfl
  rw [Position.advanceAll_cons, last?_advanceAll, hsemicolon]
  cases lastMark? comment <;> simp

/-- Behind a comment the scan goes on as if the comment had another text, if both texts end in an
opening parenthesis or none does, or if no operator comes next. -/
theorem scanFrom_congr_comment (hline : '\n' ∉ comment) (hline' : '\n' ∉ other)
    (hopens : opensOperator p (comment ++ rest) = false)
    (hopens' : opensOperator p (other ++ rest) = false)
    (hrest : rest = [] ∨ ∃ more, rest = '\n' :: more)
    (hmark : (lastMark? comment = some '(' ↔ lastMark? other = some '(') ∨
      operatorNext rest = false) :
    scanFrom p .between (';' :: (comment ++ rest)) =
      scanFrom p .between (';' :: (other ++ rest)) := by
  rw [scanFrom_comment hopens hline, scanFrom_comment hopens' hline']
  have hlines : (p.advanceAll (';' :: comment)).line = (p.advanceAll (';' :: other)).line := by
    rw [line_advanceAll, line_advanceAll] <;> simp [hline, hline']
  rcases hmark with hmark | hnext
  · have halike : Alike (p.advanceAll (';' :: comment)) (p.advanceAll (';' :: other)) :=
      ⟨hlines, by rw [last?_comment, last?_comment, hmark]⟩
    exact halike.scanFrom_eq .comment rest
  · rcases hrest with rfl | ⟨more, rfl⟩
    · rfl
    · have hmore : operatorNext more = false := by
        rw [operatorNext, List.dropWhile_cons_of_pos (by decide)] at hnext
        exact hnext
      rw [scanFrom_cons, scanFrom_cons]
      refine congrArg (Scanned.prepend _) (scanFrom_eq_of_line_eq ?_ hmore)
      simp only [Position.advance, hlines]

/-! ## Where the operator stands -/

/-- No comment of a first part of a text stands right behind an opening parenthesis, and none ends
in one. -/
def Harmless : Position → Mode → List Char → List Char → Prop
  | _, _, [], _ => True
  | p, mode, c :: before, rest =>
    ((mode = .between ∧ (step p mode c (before ++ rest)).1 = .comment ∨
        mode = .comment ∧ c = '\n') → p.last? ≠ some '(') ∧
      Harmless (p.advance c) (step p mode c (before ++ rest)).1 before rest

instance decidableHarmless : ∀ (p : Position) (mode : Mode) (before rest : List Char),
    Decidable (Harmless p mode before rest)
  | _, _, [], _ => .isTrue trivial
  | p, mode, c :: before, rest =>
    have := decidableHarmless (p.advance c) (step p mode c (before ++ rest)).1 before rest
    inferInstanceAs (Decidable (_ ∧ _))

/-- The last character that is not blank tells whether the last token opened a list. Inside of a
comment that token did not, and the last character of a name does not look as if it did. -/
def Marked (p : Position) (tokens : List Token) : Mode → Prop
  | .between => p.last? = some '(' ↔ ∃ line, tokens.getLast? = some (.opening line)
  | .comment => ∀ line, tokens.getLast? ≠ some (.opening line)
  | .word _ => p.last? ≠ some '('
  | .quoted _ _ => True

/-- Behind a character that ends names, the last character that is not blank tells whether the last
token opened a list, if it did so before. -/
theorem marked_delimiter {before : List Token} (hc : endsWord c = true)
    (hmarked : Marked p before .between) :
    Marked (p.advance c) (before ++ (ofDelimiter? p.line c).toList) .between := by
  unfold Marked at hmarked ⊢
  by_cases hblank : Text.isBlank c = true
  · have hnone : ofDelimiter? p.line c = none := by
      have hopen : c ≠ '(' := fun h => absurd (h ▸ hblank) (by decide)
      have hclose : c ≠ ')' := fun h => absurd (h ▸ hblank) (by decide)
      simp [ofDelimiter?, hopen, hclose]
    have hlast : (p.advance c).last? = p.last? := by rw [Position.advance, if_pos hblank]
    rw [hnone, hlast, Option.toList_none, List.append_nil]
    exact hmarked
  · have hlast : (p.advance c).last? = some c := by rw [Position.advance, if_neg hblank]
    rw [hlast]
    by_cases hopen : c = '('
    · subst hopen
      have hdelimiter : ofDelimiter? p.line '(' = some (.opening p.line) := rfl
      rw [hdelimiter]
      simp
    · have hclose : c = ')' := by
        simp only [endsWord, Bool.or_eq_true, beq_iff_eq] at hc
        rcases hc with (hc | hc) | hc
        · exact absurd hc hblank
        · exact absurd hc hopen
        · exact hc
      subst hclose
      have hdelimiter : ofDelimiter? p.line ')' = some (.closing p.line) := rfl
      rw [hdelimiter]
      simp

/-- What one character of a text keeps. -/
theorem marked_step (hmarked : Marked p tokens mode)
    (hharmless : (mode = .between ∧ (step p mode c rest).1 = .comment ∨
      mode = .comment ∧ c = '\n') → p.last? ≠ some '(') :
    Marked (p.advance c) (tokens ++ (step p mode c rest).2) (step p mode c rest).1 := by
  have hmark : endsWord c = false → (p.advance c).last? ≠ some '(' := by
    intro hc
    simp only [endsWord, Bool.or_eq_false_iff, beq_eq_false_iff_ne] at hc
    have hlast : (p.advance c).last? = some c := by simp [Position.advance, hc.1.1]
    rw [hlast]
    exact fun h => hc.1.2 (Option.some.inj h)
  cases mode with
  | between =>
    by_cases hc : endsWord c = true
    · rw [step, if_pos hc]
      exact marked_delimiter hc hmarked
    · have hword := hmark (Bool.not_eq_true _ ▸ hc)
      rw [step, if_neg hc] at hharmless ⊢
      rw [List.append_nil]
      cases hstart : start p c rest with
      | between => exact absurd hstart (start_ne_between p c rest)
      | comment =>
        intro line hline
        exact hharmless (.inl ⟨rfl, hstart⟩) (hmarked.2 ⟨line, hline⟩)
      | word cs => exact hword
      | quoted line cs => trivial
  | comment =>
    rw [step, List.append_nil]
    by_cases hc : c = '\n'
    · subst hc
      have hlast : (p.advance '\n').last? = p.last? := rfl
      rw [if_pos rfl, Marked, hlast]
      refine iff_of_false (hharmless (.inr ⟨rfl, rfl⟩)) ?_
      rintro ⟨line, hline⟩
      exact hmarked line hline
    · rw [if_neg hc]
      exact hmarked
  | word cs =>
    by_cases hc : endsWord c = true
    · rw [step, if_pos hc]
      have hname : Marked p (tokens ++ [ofReversed cs]) .between :=
        iff_of_false hmarked (by simp [ofReversed])
      have hdelimiter := marked_delimiter hc hname
      rw [List.append_assoc] at hdelimiter
      exact hdelimiter
    · rw [step, if_neg hc]
      exact hmark (Bool.not_eq_true _ ▸ hc)
  | quoted line cs =>
    by_cases hc : c = '|'
    · subst hc
      have hlast : (p.advance '|').last? = some '|' := rfl
      rw [step, if_pos rfl, Marked, hlast]
      exact iff_of_false (by decide) (by simp [ofReversed])
    · rw [step, if_neg hc]
      trivial

/-- What a first part of a text keeps. -/
theorem marked_runOver (hmarked : Marked p tokens mode) (h : Harmless p mode before rest) :
    Marked (p.advanceAll before) (tokens ++ (runOver p mode before rest).2)
      (runOver p mode before rest).1 := by
  induction before generalizing p mode tokens with
  | nil =>
    rw [runOver, List.append_nil]
    exact hmarked
  | cons c before ih =>
    have hlater := ih (marked_step hmarked h.1) h.2
    rw [List.append_assoc] at hlater
    exact hlater

/-- Where comments are harmless, `;;` with a blank or a closing parenthesis behind it is the
operator if the last token opened a list. -/
theorem opensOperator_iff (h : Harmless {} .between before rest)
    (hbetween : (runOver {} .between before rest).1 = .between)
    (hc : (Text.isBlank c || c == ')') = true) (more : List Char) :
    opensOperator (Position.advanceAll {} before) (';' :: c :: more) = true ↔
      ∃ line, (runOver {} .between before rest).2.getLast? = some (.opening line) := by
  have hstart : Marked {} [] .between := iff_of_false nofun nofun
  have hmarked := marked_runOver hstart h
  rw [hbetween] at hmarked
  simp only [opensOperator, hc, Bool.true_and, beq_iff_eq]
  exact hmarked

/-- The operator is a name. -/
theorem scanFrom_operator {more : List Char} (hc : (Text.isBlank c || c == ')') = true)
    (h : opensOperator p (';' :: c :: more) = true) :
    scanFrom p .between (';' :: ';' :: c :: more) =
      (scanFrom (p.advanceAll [';', ';']) .between (c :: more)).prepend [.name ";;"] := by
  have hends : endsWord c = true := by
    rw [Bool.or_eq_true] at hc
    simp only [endsWord, Bool.or_eq_true]
    exact hc.elim (fun hc => .inl (.inl hc)) .inr
  have hfirst : step p .between ';' (';' :: c :: more) = (.word [';'], []) := by
    have hsemicolon : endsWord ';' = false := by decide
    simp [step, hsemicolon, start, h]
  have hsecond : step (p.advance ';') (.word [';']) ';' (c :: more) = (.word [';', ';'], []) := rfl
  have hname : ofReversed [';', ';'] = .name ";;" := by decide
  rw [scanFrom_cons, hfirst, scanFrom_cons, hsecond, scanFrom_cons, scanFrom_cons _ .between, step,
    step, if_pos hends, if_pos hends, prepend_nil, prepend_nil, prepend_prepend, hname]
  rfl

end Token

namespace SExpr

open Token

/-- **The text of a comment does not matter, unless it ends in an opening parenthesis.** A skipped
comment may have any other text without a line break that starts with no semicolon: the trees of
the whole text, or the error, stay the same if both of its texts end in an opening parenthesis or
none does, or if no `;;` comes next. Where comments neither end in an opening parenthesis nor stand
right behind one, `;;` with a blank or a closing parenthesis behind it is a name if it is the first
item of a list, and starts a comment everywhere else. -/
theorem readAll_comment {text other : String} {before comment replacement rest : List Char}
    (h : Skipped text before comment rest)
    (hother : other.toList = before ++ ';' :: (replacement ++ rest))
    (hline : '\n' ∉ replacement) (hhead : replacement.head? ≠ some ';') :
    ((lastMark? comment = some '(' ↔ lastMark? replacement = some '(') ∨
        operatorNext rest = false → readAll other = readAll text) ∧
    ∀ (front : List Char) (c : Char) (more : List Char),
      (Text.isBlank c || c == ')') = true →
      Harmless {} .between front (';' :: ';' :: c :: more) →
      (runOver {} .between front (';' :: ';' :: c :: more)).1 = .between →
      let tokens := (runOver {} .between front (';' :: ';' :: c :: more)).2
      let p := Position.advanceAll {} front
      ((∃ line, tokens.getLast? = some (.opening line)) →
        scan (front ++ ';' :: ';' :: c :: more) =
          (scanFrom (p.advanceAll [';', ';']) .between (c :: more)).prepend
            (tokens ++ [.name ";;"])) ∧
      ((¬∃ line, tokens.getLast? = some (.opening line)) →
        scan (front ++ ';' :: ';' :: c :: more) =
          (scanFrom (p.advance ';') .comment (';' :: c :: more)).prepend tokens) := by
  refine ⟨fun hmark => ?_, fun front c more hc hharmless hbetween => ⟨fun hfirst => ?_,
    fun hfirst => ?_⟩⟩
  · have hscan : scan other.toList = scan text.toList := by
      rw [hother, h.text_eq, scan, scan, scanFrom_append, scanFrom_append,
        runOver_congr h.between (replacement ++ rest), h.between]
      exact congrArg (Scanned.prepend _) (scanFrom_congr_comment h.line hline h.opens
        (opensOperator_eq_false _ hhead h.rest_eq) h.rest_eq hmark).symm
    rw [readAll, readAll, hscan]
  · have hopens := (opensOperator_iff hharmless hbetween hc more).2 hfirst
    rw [scan, scanFrom_append, hbetween, scanFrom_operator hc hopens, prepend_prepend]
  · have hopens : opensOperator (Position.advanceAll {} front) (';' :: c :: more) = false :=
      Bool.not_eq_true _ ▸ mt (opensOperator_iff hharmless hbetween hc more).1 hfirst
    have hstep : step (Position.advanceAll {} front) .between ';' (';' :: c :: more) =
        (.comment, []) := by
      have hsemicolon : endsWord ';' = false := by decide
      simp [step, hsemicolon, start, hopens]
    rw [scan, scanFrom_append, hbetween, scanFrom_cons, hstep, prepend_nil]

/-- A comment before a list that starts with `;;`. -/
theorem readAll_comment_before_list :
    Skipped "; x\n(;; a)" [] " x".toList "\n(;; a)".toList ∧
      readAll "; y\n(;; a)" = readAll "; x\n(;; a)" ∧
      Harmless {} .between "; x\n(".toList ";; a)".toList ∧
      scan "; x\n(;; a)".toList =
        ⟨[.opening 2, .name ";;", .name "a", .closing 2], none⟩ := by
  have hskipped : Skipped "; x\n(;; a)" [] " x".toList "\n(;; a)".toList :=
    ⟨by decide, rfl, rfl, by decide, .inr ⟨"(;; a)".toList, by decide⟩⟩
  have hharmless : Harmless {} .between "; x\n(".toList ";; a)".toList := by
    decide +kernel
  have hother : "; y\n(;; a)".toList = [] ++ ';' :: (" y".toList ++ "\n(;; a)".toList) := by decide
  obtain ⟨hsame, hoperator⟩ := readAll_comment hskipped hother (by decide) (by decide)
  refine ⟨hskipped, hsame (.inl (by decide)), hharmless, ?_⟩
  exact (hoperator "; x\n(".toList ' ' "a)".toList (by decide) hharmless rfl).1 ⟨2, rfl⟩

/-- A comment that ends in an opening parenthesis is not skipped without a trace: the `;;` behind it
is a name, and starts a comment as soon as the first comment has no text. -/
theorem exists_comment_that_matters : ∃ text other before comment replacement rest,
    Skipped text before comment rest ∧ other.toList = before ++ ';' :: (replacement ++ rest) ∧
      '\n' ∉ replacement ∧ replacement.head? ≠ some ';' ∧ readAll other ≠ readAll text := by
  refine ⟨"; (\n;; a", ";\n;; a", [], " (".toList, [], "\n;; a".toList,
    ⟨by decide, rfl, rfl, by decide, .inr ⟨";; a".toList, by decide⟩⟩, by decide, by decide,
    by decide, fun h => ?_⟩
  have htext : readAll "; (\n;; a" = .ok [.atom ";;", .atom "a"] := rfl
  have hother : readAll ";\n;; a" = .ok [] := rfl
  rw [htext, hother] at h
  exact absurd (Except.ok.inj h) (List.cons_ne_nil _ _).symm

end SExpr

end BitUnroll
