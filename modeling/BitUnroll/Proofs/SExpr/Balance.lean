import BitUnroll.Proofs.SExpr.Scan

/-!
# Unbalanced text

A text is read from left to right. Outside of comments and of names in bars every parenthesis opens
or closes a list, and reading stops at a parenthesis that closes none. So three things can go wrong:
a parenthesis closes a list where none is open, the text ends in a name in bars, or it ends where a
list is open. What is left over, and on which line, is all that a syntax error says.

## Main definitions

* `Token.Mode.ReadsLists`: parentheses open and close lists.
* `SExpr.Reading`: what has been read of a text, and which lists are open behind it.
* `SExpr.Unbalanced`: what is left over in a text.

## Main statements

* `SExpr.Reading.readAll_eq`: the reader follows every reading.
* `SExpr.Reading.unbalanced`: a reader that fails has found what is left over.
* `SExpr.readAll_eq_error_iff`: reading fails exactly on unbalanced text.
-/

namespace BitUnroll

/-- Every syntax error starts with its line. -/
theorem SyntaxError.message_ne (e : SyntaxError) : e.message ≠ "unexpected end of input" := by
  intro h
  have hhead := congrArg (fun s : String => s.toList.head?) h
  cases e <;> simp [message] at hhead

namespace Token

variable {p : Position} {mode : Mode} {c : Char} {rest : List Char}

/-- Outside of comments and of names in bars, parentheses open and close lists. -/
def Mode.ReadsLists : Mode → Prop
  | .between | .word _ => True
  | .comment | .quoted _ _ => False

/-- The name that ends with the next parenthesis or blank, if the scan is in one. -/
def Mode.pending : Mode → List Token
  | .word cs => [ofReversed cs]
  | .between | .comment | .quoted _ _ => []

/-- The line that a first part of a text leads to. -/
def lineAfter (before : List Char) : Nat := 1 + before.count '\n'

theorem line_advanceAll_start (before : List Char) :
    (Position.advanceAll {} before).line = lineAfter before := line_advanceAll_eq {} before

/-! ## What a character does -/

theorem step_opening (p : Position) (rest : List Char) (h : mode.ReadsLists) :
    step p mode '(' rest = (.between, mode.pending ++ [.opening p.line]) := by
  cases mode with
  | between | word => rfl
  | comment | quoted => exact h.elim

theorem step_closing (p : Position) (rest : List Char) (h : mode.ReadsLists) :
    step p mode ')' rest = (.between, mode.pending ++ [.closing p.line]) := by
  cases mode with
  | between | word => rfl
  | comment | quoted => exact h.elim

/-- Only parentheses that open and close lists are tokens other than names. -/
theorem exists_name_of_mem_step (h : mode.ReadsLists → c ≠ '(' ∧ c ≠ ')') {t : Token}
    (ht : t ∈ (step p mode c rest).2) : ∃ text, t = .name text := by
  have hdelimiter : mode.ReadsLists → ofDelimiter? p.line c = none := fun hmode => by
    simp [ofDelimiter?, h hmode]
  cases mode with
  | between =>
    rw [step] at ht
    split at ht
    · rw [hdelimiter trivial] at ht
      cases ht
    · cases ht
  | comment => cases ht
  | word cs =>
    rw [step] at ht
    split at ht
    · rw [hdelimiter trivial] at ht
      exact ⟨_, List.mem_singleton.1 ht⟩
    · cases ht
  | quoted line cs =>
    rw [step] at ht
    split at ht
    · exact ⟨_, List.mem_singleton.1 ht⟩
    · cases ht

theorem step_bar (hopens : opensQuoted rest = true) :
    step p .between '|' rest = (.quoted p.line [], []) := by
  have hends : endsWord '|' = false := by decide
  simp [step, hends, start, hopens]

/-- A scan is in a name in bars behind the bar that opens it, and behind any other character of
it. -/
theorem eq_of_step_eq_quoted {line : Nat} {cs : List Char}
    (h : (step p mode c rest).1 = .quoted line cs) :
    mode = .between ∧ c = '|' ∧ opensQuoted rest = true ∧ line = p.line ∨
      ∃ before, mode = .quoted line before ∧ c ≠ '|' := by
  cases mode with
  | between =>
    rw [step] at h
    split at h
    · cases h
    · have hstart : start p c rest = .quoted line cs := h
      unfold start at hstart
      split at hstart
      · cases hstart
      · split at hstart
        · rename_i hbar
          cases hstart
          obtain ⟨hc, hopens⟩ : c = '|' ∧ opensQuoted rest = true := by simpa using hbar
          exact .inl ⟨rfl, hc, hopens, rfl⟩
        · cases hstart
  | comment =>
    rw [step] at h
    dsimp only at h
    split at h <;> cases h
  | word =>
    rw [step] at h
    split at h <;> cases h
  | quoted line' before =>
    rw [step] at h
    split at h
    · cases h
    · rename_i hc
      cases h
      exact .inr ⟨before, rfl, hc⟩

/-- In bars, every character but a bar belongs to the name. -/
theorem runOver_quoted {name : List Char} (hname : '|' ∉ name) (p : Position) (line : Nat)
    (cs rest : List Char) :
    runOver p (.quoted line cs) name rest = (.quoted line (name.reverse ++ cs), []) := by
  induction name generalizing p cs with
  | nil => rfl
  | cons c name ih =>
    rw [List.mem_cons, not_or] at hname
    have hstep : step p (.quoted line cs) c (name ++ rest) = (.quoted line (c :: cs), []) := by
      rw [step, if_neg (Ne.symm hname.1)]
    rw [runOver, hstep, ih hname.2, List.reverse_cons, List.append_assoc]
    rfl

/-- A name in bars goes on to the end of a text without bars. -/
theorem scanFrom_quoted (p : Position) (line : Nat) (cs : List Char) (h : '|' ∉ rest) :
    scanFrom p (.quoted line cs) rest = ⟨[], some line⟩ := by
  have hscan := scanFrom_append p (.quoted line cs) rest []
  rw [List.append_nil, runOver_quoted h] at hscan
  exact hscan

end Token

namespace SExpr

open Token

/-! ## Readings -/

/-- What is known of a text when a first part of it has been read: the rest, the mode, and for each
list that is open, innermost first, what stands before its parenthesis. No reading goes past a
parenthesis that closes a list where none is open. -/
inductive Reading (text : List Char) :
    List Char → List Char → Mode → List (List Char) → Prop
  | start : Reading text [] text .between []
  | opening {before rest : List Char} {mode : Mode} {stack : List (List Char)}
      (h : Reading text before ('(' :: rest) mode stack) (hmode : mode.ReadsLists) :
      Reading text (before ++ ['(']) rest .between (before :: stack)
  | closing {before rest front : List Char} {mode : Mode} {stack : List (List Char)}
      (h : Reading text before (')' :: rest) mode (front :: stack)) (hmode : mode.ReadsLists) :
      Reading text (before ++ [')']) rest .between stack
  | other {before rest : List Char} {c : Char} {mode : Mode} {stack : List (List Char)}
      (h : Reading text before (c :: rest) mode stack)
      (hc : mode.ReadsLists → c ≠ '(' ∧ c ≠ ')') :
      Reading text (before ++ [c]) rest (step (Position.advanceAll {} before) mode c rest).1 stack

/-- What is left over in a text: a parenthesis that closes a list where none is open, the bar of a
name that the text ends in, or the parenthesis of the innermost list that is open where the text
ends. -/
inductive Unbalanced (text : List Char) : SyntaxError → Prop
  | close {before rest : List Char} {mode : Mode} (h : Reading text before (')' :: rest) mode [])
      (hmode : mode.ReadsLists) : Unbalanced text (.unexpectedClose (lineAfter before))
  | name {before inside : List Char} {stack : List (List Char)}
      (h : Reading text before ('|' :: inside) .between stack)
      (hopens : opensQuoted inside = true) (hinside : '|' ∉ inside) :
      Unbalanced text (.unterminatedName (lineAfter before))
  | list {front : List Char} {mode : Mode} {stack : List (List Char)}
      (h : Reading text text [] mode (front :: stack))
      (hmode : ∀ line cs, mode ≠ .quoted line cs) :
      Unbalanced text (.unterminatedList (lineAfter front))

variable {p : Position} {mode : Mode} {c : Char} {before rest : List Char}
  {stack : List (List Char)} {outer : List OpenList} {items : List SExpr} {e : SyntaxError}

namespace Reading

variable {text : List Char}

theorem eq_append (h : Reading text before rest mode stack) : text = before ++ rest := by
  induction h with
  | start => rfl
  | opening _ _ ih | closing _ _ ih | other _ _ ih => rw [ih, List.append_assoc]; rfl

/-- A reading that is in a name in bars has come past the bar that opened the name. -/
theorem exists_bar {line : Nat} {cs : List Char}
    (h : Reading text before rest (.quoted line cs) stack) :
    ∃ front inside, before = front ++ '|' :: inside ∧ '|' ∉ inside ∧ line = lineAfter front ∧
      opensQuoted (inside ++ rest) = true ∧
      Reading text front ('|' :: (inside ++ rest)) .between stack := by
  generalize hmode : Mode.quoted line cs = m at h
  induction h generalizing cs with
  | start | opening | closing => cases hmode
  | @other before rest c mode stack h hc ih =>
    rcases eq_of_step_eq_quoted hmode.symm with
      ⟨rfl, rfl, hopens, hline⟩ | ⟨cs', rfl, hbar⟩
    · rw [line_advanceAll_start] at hline
      exact ⟨before, [], rfl, List.not_mem_nil, hline, hopens, h⟩
    · obtain ⟨front, inside, rfl, hinside, hline, hopens, hfront⟩ := ih rfl
      have htext : inside ++ [c] ++ rest = inside ++ c :: rest := by simp
      refine ⟨front, inside ++ [c], by simp, ?_, hline, ?_, ?_⟩
      · simp [hinside, Ne.symm hbar]
      · rw [htext]
        exact hopens
      · rw [htext]
        exact hfront

end Reading

/-! ## The reader -/

/-- Names add members to the innermost list. -/
theorem exists_build_names {names : List Token} (h : ∀ t ∈ names, ∃ text, t = .name text)
    (outer : List OpenList) (items : List SExpr) : ∃ items', ∀ openBar? tokens,
      build openBar? outer items (names ++ tokens) = build openBar? outer items' tokens := by
  induction names generalizing items with
  | nil => exact ⟨items, fun _ _ => rfl⟩
  | cons t names ih =>
    obtain ⟨⟨text, rfl⟩, hnames⟩ := List.forall_mem_cons.1 h
    obtain ⟨items', hitems'⟩ := ih hnames (.atom text :: items)
    exact ⟨items', hitems'⟩

theorem exists_build_pending (mode : Mode) (outer : List OpenList) (items : List SExpr) :
    ∃ items', ∀ openBar? tokens, build openBar? outer items (mode.pending ++ tokens) =
      build openBar? outer items' tokens :=
  exists_build_names (by cases mode <;> simp [Mode.pending, ofReversed]) outer items

/-- The trees of a text of which a first part has been read. -/
def readFrom (p : Position) (mode : Mode) (rest : List Char) (outer : List OpenList)
    (items : List SExpr) : Except SyntaxError (List SExpr) :=
  build (scanFrom p mode rest).openBar? outer items (scanFrom p mode rest).tokens

theorem readFrom_cons (p : Position) (mode : Mode) (c : Char) (rest : List Char)
    (outer : List OpenList) (items : List SExpr) : readFrom p mode (c :: rest) outer items =
      build (scanFrom (p.advance c) (step p mode c rest).1 rest).openBar? outer items
        ((step p mode c rest).2 ++
          (scanFrom (p.advance c) (step p mode c rest).1 rest).tokens) := by
  rw [readFrom, scanFrom_cons]
  rfl

theorem readFrom_opening (p : Position) (rest : List Char) (outer : List OpenList)
    (items : List SExpr) (h : mode.ReadsLists) : ∃ items',
      readFrom p mode ('(' :: rest) outer items =
        readFrom (p.advance '(') .between rest (⟨p.line, items'⟩ :: outer) [] := by
  obtain ⟨items', hitems'⟩ := exists_build_pending mode outer items
  refine ⟨items', ?_⟩
  rw [readFrom_cons, step_opening p rest h, List.append_assoc, hitems']
  rfl

theorem readFrom_closing (p : Position) (rest : List Char) (innermost : OpenList)
    (outer : List OpenList) (items : List SExpr) (h : mode.ReadsLists) : ∃ items',
      readFrom p mode (')' :: rest) (innermost :: outer) items =
        readFrom (p.advance ')') .between rest outer items' := by
  obtain ⟨items', hitems'⟩ := exists_build_pending mode (innermost :: outer) items
  refine ⟨.list items'.reverse :: innermost.before, ?_⟩
  rw [readFrom_cons, step_closing p rest h, List.append_assoc, hitems']
  rfl

theorem readFrom_unexpectedClose (p : Position) (rest : List Char) (items : List SExpr)
    (h : mode.ReadsLists) :
    readFrom p mode (')' :: rest) [] items = .error (.unexpectedClose p.line) := by
  obtain ⟨items', hitems'⟩ := exists_build_pending mode [] items
  rw [readFrom_cons, step_closing p rest h, List.append_assoc, hitems']
  rfl

theorem readFrom_other (p : Position) (rest : List Char) (outer : List OpenList)
    (items : List SExpr) (h : mode.ReadsLists → c ≠ '(' ∧ c ≠ ')') : ∃ items',
      readFrom p mode (c :: rest) outer items =
        readFrom (p.advance c) (step p mode c rest).1 rest outer items' := by
  have hnames : ∀ t ∈ (step p mode c rest).2, ∃ text, t = .name text :=
    fun t ht => exists_name_of_mem_step h ht
  obtain ⟨items', hitems'⟩ := exists_build_names hnames outer items
  refine ⟨items', ?_⟩
  rw [readFrom_cons, hitems']
  rfl

/-- Outside of names in bars, a text may end where no list is open. -/
theorem readFrom_nil (p : Position) (outer : List OpenList) (items : List SExpr)
    (h : ∀ line cs, mode ≠ .quoted line cs) : ∃ items', readFrom p mode [] outer items =
      match outer with
      | innermost :: _ => .error (.unterminatedList innermost.line)
      | [] => .ok items' := by
  obtain ⟨items', hitems'⟩ := exists_build_pending mode outer items
  have hscan : scanFrom p mode [] = ⟨mode.pending ++ [], none⟩ := by
    cases mode with
    | between | comment | word => rfl
    | quoted line cs => exact absurd rfl (h line cs)
  refine ⟨items'.reverse, ?_⟩
  rw [readFrom, hscan, hitems']
  cases outer <;> rfl

/-! ## Failures -/

namespace Reading

/-- The reader follows a reading. -/
theorem readAll_eq {text : String} (h : Reading text.toList before rest mode stack) :
    ∃ outer items, outer.map OpenList.line = stack.map lineAfter ∧
      readAll text = readFrom (Position.advanceAll {} before) mode rest outer items := by
  induction h with
  | start => exact ⟨[], [], rfl, rfl⟩
  | @opening before rest mode stack _ hmode ih =>
    obtain ⟨outer, items, hlines, hread⟩ := ih
    obtain ⟨items', hstep⟩ :=
      readFrom_opening (Position.advanceAll {} before) rest outer items hmode
    refine ⟨⟨(Position.advanceAll {} before).line, items'⟩ :: outer, [], ?_, ?_⟩
    · rw [List.map_cons, List.map_cons, hlines, line_advanceAll_start]
    · rw [hread, hstep, Position.advanceAll_concat]
  | @closing before rest front mode stack _ hmode ih =>
    obtain ⟨outer, items, hlines, hread⟩ := ih
    cases outer with
    | nil => cases hlines
    | cons innermost outer =>
      obtain ⟨items', hstep⟩ :=
        readFrom_closing (Position.advanceAll {} before) rest innermost outer items hmode
      refine ⟨outer, items', (List.cons.inj hlines).2, ?_⟩
      rw [hread, hstep, Position.advanceAll_concat]
  | @other before rest c mode stack _ hc ih =>
    obtain ⟨outer, items, hlines, hread⟩ := ih
    obtain ⟨items', hstep⟩ := readFrom_other (Position.advanceAll {} before) rest outer items hc
    refine ⟨outer, items', hlines, ?_⟩
    rw [hread, hstep, Position.advanceAll_concat]

/-- If the reader fails at the end of a text, a name in bars or a list is left over. -/
theorem unbalanced_of_end {text : List Char} (h : Reading text before [] mode stack)
    (hlines : outer.map OpenList.line = stack.map lineAfter)
    (hread : readFrom p mode [] outer items = .error e) : Unbalanced text e := by
  by_cases hquoted : ∃ line cs, mode = .quoted line cs
  · obtain ⟨line, cs, rfl⟩ := hquoted
    obtain ⟨front, inside, -, hinside, rfl, hopens, hfront⟩ := h.exists_bar
    rw [List.append_nil] at hopens hfront
    cases hread
    exact .name hfront hopens hinside
  · have hmode : ∀ line cs, mode ≠ .quoted line cs := fun line cs hm => hquoted ⟨line, cs, hm⟩
    obtain ⟨items', hend⟩ := readFrom_nil p outer items hmode
    rw [hend] at hread
    cases outer with
    | nil => cases hread
    | cons innermost outer =>
      cases stack with
      | nil => cases hlines
      | cons front stack =>
        obtain rfl : text = before := by rw [h.eq_append, List.append_nil]
        cases hread
        rw [(List.cons.inj hlines).1]
        exact .list h hmode

/-- If the reader fails from a parenthesis on that closes a list, then none is open there, or it
fails behind the parenthesis with one list less. -/
theorem unbalanced_or_closed {text : List Char} (h : Reading text before (')' :: rest) mode stack)
    (hmode : mode.ReadsLists) (hlines : outer.map OpenList.line = stack.map lineAfter)
    (hread : readFrom (Position.advanceAll {} before) mode (')' :: rest) outer items = .error e) :
    Unbalanced text e ∨ ∃ front inner outer' items', stack = front :: inner ∧
      outer'.map OpenList.line = inner.map lineAfter ∧
      readFrom (Position.advanceAll {} (before ++ [')'])) .between rest outer' items' =
        .error e := by
  cases stack with
  | nil =>
    obtain rfl : outer = [] := List.map_eq_nil_iff.1 hlines
    rw [readFrom_unexpectedClose _ rest items hmode, line_advanceAll_start] at hread
    cases hread
    exact .inl (.close h hmode)
  | cons front inner =>
    cases outer with
    | nil => cases hlines
    | cons innermost outer =>
      obtain ⟨items', hstep⟩ := readFrom_closing _ rest innermost outer items hmode
      rw [hstep, ← Position.advanceAll_concat] at hread
      exact .inr ⟨front, inner, outer, items', rfl, (List.cons.inj hlines).2, hread⟩

/-- If the reader fails behind a reading, it has found what is left over in the text. -/
theorem unbalanced {text : List Char} (h : Reading text before rest mode stack)
    (hlines : outer.map OpenList.line = stack.map lineAfter)
    (hread : readFrom (Position.advanceAll {} before) mode rest outer items = .error e) :
    Unbalanced text e := by
  induction rest generalizing before mode stack outer items with
  | nil => exact h.unbalanced_of_end hlines hread
  | cons c rest ih =>
    by_cases hmode : mode.ReadsLists ∧ (c = '(' ∨ c = ')')
    · obtain ⟨hmode, rfl | rfl⟩ := hmode
      · obtain ⟨items', hstep⟩ := readFrom_opening _ rest outer items hmode
        rw [hstep, ← Position.advanceAll_concat] at hread
        refine ih (h.opening hmode) ?_ hread
        rw [List.map_cons, List.map_cons, hlines, line_advanceAll_start]
      · rcases h.unbalanced_or_closed hmode hlines hread with
          hclose | ⟨front, inner, outer', items', rfl, hlines', hread'⟩
        · exact hclose
        · exact ih (h.closing hmode) hlines' hread'
    · have hother : mode.ReadsLists → c ≠ '(' ∧ c ≠ ')' := fun hm =>
        ⟨fun hc => hmode ⟨hm, .inl hc⟩, fun hc => hmode ⟨hm, .inr hc⟩⟩
      obtain ⟨items', hstep⟩ := readFrom_other _ rest outer items hother
      rw [hstep, ← Position.advanceAll_concat] at hread
      exact ih (h.other hother) hlines hread

end Reading

/-- What is left over in a text is what the reader reports. -/
theorem Unbalanced.readAll_eq {text : String} (h : Unbalanced text.toList e) :
    readAll text = .error e := by
  cases h with
  | @close before rest mode h hmode =>
    obtain ⟨outer, items, hlines, hread⟩ := h.readAll_eq
    obtain rfl : outer = [] := List.map_eq_nil_iff.1 hlines
    rw [hread, readFrom_unexpectedClose _ rest items hmode, line_advanceAll_start]
  | @name before inside stack h hopens hinside =>
    obtain ⟨outer, items, -, hread⟩ := h.readAll_eq
    rw [hread, readFrom_cons, step_bar hopens, scanFrom_quoted _ _ _ hinside,
      line_advanceAll_start]
    rfl
  | @list front mode stack h hmode =>
    obtain ⟨outer, items, hlines, hread⟩ := h.readAll_eq
    obtain ⟨items', hend⟩ := readFrom_nil (Position.advanceAll {} text.toList) outer items hmode
    cases outer with
    | nil => cases hlines
    | cons innermost outer => rw [hread, hend, ← (List.cons.inj hlines).1]

/-- **Reading fails exactly on unbalanced text, and names the line of what is left over.** Every
text is read to its trees or to an error. The error is that of a parenthesis that closes a list
where none is open, with its line, or that of a text that ends in a name in bars, with the line of
the bar that opened the name, or that of a text that ends elsewhere with a list open, with the line
of the innermost such list's parenthesis. No error is about the end of the input alone. -/
theorem readAll_eq_error_iff (text : String) :
    (∀ e, readAll text = .error e ↔ Unbalanced text.toList e) ∧
      ((∃ trees, readAll text = .ok trees) ↔ ∀ e, ¬Unbalanced text.toList e) ∧
      ∀ e, readAll text = .error e → e.message ≠ "unexpected end of input" := by
  have hfails : ∀ e, readAll text = .error e ↔ Unbalanced text.toList e := fun e =>
    ⟨fun hread => Reading.start.unbalanced rfl hread, fun h => h.readAll_eq⟩
  refine ⟨hfails, ?_, fun e _ => e.message_ne⟩
  cases hread : readAll text with
  | ok trees =>
    refine iff_of_true ⟨trees, rfl⟩ fun e he => ?_
    rw [he.readAll_eq] at hread
    cases hread
  | error e => exact iff_of_false nofun fun h => h e ((hfails e).1 hread)

/-- The parenthesis in the comment closes nothing, and the name is left over before the lists. -/
example : readAll "(a\n(b ; ))\n|c" = .error (.unterminatedName 3) := rfl

end SExpr

end BitUnroll
