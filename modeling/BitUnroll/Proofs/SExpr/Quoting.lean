import BitUnroll.Proofs.SExpr.Balance

/-!
# Names in bars

A name in bars is read as it stands, whatever is in it, unless it has a bar itself or its first
character makes the opening bar an operator. One character is looked at for that, so no name in
bars starts with `-` or `=`, whether or not the bar is one of the operators `|->` and `|=>`. The
name is one leaf of the trees of the text. Which leaf that is, and all of the rest, is settled by
the text around the name.

## Main definitions

* `Token.Between`: a first part of a text ends between tokens.
* `SExpr.QuotableName`: the names that can stand in bars.
* `SExpr.Site`: a place for one tree among others.

## Main statements

* `SExpr.scan_inBars_iff`: the names that a scan finds in bars.
* `SExpr.exists_site_readAll`: the text around a name leads to the place of the name.
* `SExpr.readAll_inBars`: both, for the trees of a text.
-/

namespace BitUnroll

namespace Token

variable {before rest : List Char}

/-- A first part of a text ends between tokens. -/
def Between (before : List Char) : Prop := (runOver {} .between before []).1 = .between

instance (before : List Char) : Decidable (Between before) :=
  inferInstanceAs (Decidable (_ = _))

/-- A name in bars. -/
def inBars (name : String) : List Char := '|' :: (name.toList ++ ['|'])

/-- Behind a first part that ends between tokens a scan starts anew. -/
theorem Between.scan_append (h : Between before) (rest : List Char) :
    scan (before ++ rest) = (scanFrom (Position.advanceAll {} before) .between rest).prepend
      (runOver {} .between before []).2 := by
  have hmode : (runOver {} .between before []).1 = .between := h
  rw [scan, scanFrom_append, runOver_eq_of_between hmode rest, hmode]

/-! ## The scan of a name in bars -/

/-- A bar that opens a name is scanned together with the name. -/
theorem scanFrom_bar {name : List Char} (hname : '|' ∉ name)
    (hopens : opensQuoted (name ++ '|' :: rest) = true) (p : Position) :
    scanFrom p .between ('|' :: (name ++ '|' :: rest)) =
      (scanFrom (p.advanceAll ('|' :: (name ++ ['|']))) .between rest).prepend
        [.name (String.ofList name)] := by
  have hend : ∀ (q : Position) (line : Nat) (cs : List Char),
      step q (.quoted line cs) '|' rest = (.between, [ofReversed cs]) := fun _ _ _ => rfl
  rw [scanFrom_cons, step_bar hopens, prepend_nil, scanFrom_append, runOver_quoted hname,
    scanFrom_cons, hend, prepend_nil, Position.advanceAll_cons, Position.advanceAll_concat,
    List.append_nil, ofReversed, List.reverse_reverse]

/-- A name goes on with what stood in it before. -/
theorem exists_scanFrom_word (p : Position) (cs rest : List Char) : ∃ more tokens,
    (scanFrom p (.word cs) rest).tokens = .name (String.ofList (cs.reverse ++ more)) :: tokens := by
  induction rest generalizing p cs with
  | nil => exact ⟨[], [], by rw [List.append_nil]; rfl⟩
  | cons c rest ih =>
    by_cases hc : endsWord c = true
    · rw [scanFrom, if_pos hc]
      exact ⟨[], _, by rw [List.append_nil]; rfl⟩
    · obtain ⟨more, tokens, hmore⟩ := ih (p.advance c) (c :: cs)
      refine ⟨c :: more, tokens, ?_⟩
      rw [scanFrom, if_neg hc, hmore, List.reverse_cons, List.append_assoc]
      rfl

/-- A bar that opens no name in bars starts a name. -/
theorem exists_scanFrom_bar_word (hopens : opensQuoted rest = false) (p : Position) :
    ∃ more tokens, (scanFrom p .between ('|' :: rest)).tokens =
      .name (String.ofList ('|' :: more)) :: tokens := by
  have hends : endsWord '|' = false := by decide
  have hstep : step p .between '|' rest = (.word ['|'], []) := by
    simp [step, hends, start, hopens]
  rw [scanFrom_cons, hstep, prepend_nil]
  exact exists_scanFrom_word _ ['|'] rest

/-! ## Lines -/

/-- A token some lines further down. -/
def down (k : Nat) : Token → Token
  | .opening line => .opening (line + k)
  | .closing line => .closing (line + k)
  | .name text => .name text

/-- A position some lines further down. -/
def Position.down (k : Nat) (p : Position) : Position := { p with line := p.line + k }

/-- A mode of a scan some lines further down. -/
def Mode.down (k : Nat) : Mode → Mode
  | .between => .between
  | .comment => .comment
  | .word cs => .word cs
  | .quoted line cs => .quoted (line + k) cs

/-- What a scan finds some lines further down. -/
def Scanned.down (k : Nat) (s : Scanned) : Scanned :=
  ⟨s.tokens.map (Token.down k), s.openBar?.map (· + k)⟩

theorem Position.advance_down (k : Nat) (p : Position) (c : Char) :
    (p.down k).advance c = (p.advance c).down k := by
  unfold advance down
  split <;> simp [Nat.add_right_comm]

theorem Scanned.down_prepend (k : Nat) (s : Scanned) (ts : List Token) :
    (s.prepend ts).down k = (s.down k).prepend (ts.map (Token.down k)) := by
  simp [prepend, down]

theorem ofDelimiter?_down (k line : Nat) (c : Char) :
    (ofDelimiter? (line + k) c).toList = (ofDelimiter? line c).toList.map (down k) := by
  unfold ofDelimiter?
  split
  · rfl
  · split <;> rfl

/-- A character does the same some lines further down. -/
theorem step_down (k : Nat) (p : Position) (mode : Mode) (c : Char) (rest : List Char) :
    step (p.down k) (mode.down k) c rest =
      ((step p mode c rest).1.down k, (step p mode c rest).2.map (down k)) := by
  cases mode with
  | between =>
    have hstart : start (p.down k) c rest = (start p c rest).down k := by
      have hopens : opensOperator (p.down k) rest = opensOperator p rest := rfl
      unfold start
      rw [hopens]
      split
      · rfl
      · split <;> rfl
    rw [Mode.down, step, step, hstart, Position.down, ofDelimiter?_down]
    split <;> rfl
  | comment =>
    rw [Mode.down, step, step]
    split <;> rfl
  | word cs =>
    rw [Mode.down, step, step, Position.down, ofDelimiter?_down]
    split <;> rfl
  | quoted line cs =>
    rw [Mode.down, step, step]
    split <;> rfl

/-- A scan finds the same some lines further down. -/
theorem scanFrom_down (k : Nat) (p : Position) (mode : Mode) (text : List Char) :
    scanFrom (p.down k) (mode.down k) text = (scanFrom p mode text).down k := by
  induction text generalizing p mode with
  | nil => cases mode <;> rfl
  | cons c text ih =>
    rw [scanFrom_cons, scanFrom_cons, step_down, Position.advance_down, ih, Scanned.down_prepend]

end Token

namespace SExpr

open Token

variable {before after : List Char} {name : String} {outer : List OpenList} {items : List SExpr}
  {tokens : List Token} {openBar? : Option Nat}

/-! ## The names that can stand in bars -/

/-- A name that can stand in bars: it has no bar, and no first character that makes the bar in front
of it an operator. -/
structure QuotableName (name : String) : Prop where
  bar : '|' ∉ name.toList
  head : ∀ c ∈ name.toList.head?, c ≠ '-' ∧ c ≠ '=' ∧ c ≠ ')' ∧ Text.isBlank c = false

theorem opensQuoted_iff (name rest : List Char) : opensQuoted (name ++ '|' :: rest) = true ↔
    ∀ c ∈ name.head?, c ≠ '-' ∧ c ≠ '=' ∧ c ≠ ')' ∧ Text.isBlank c = false := by
  cases name with
  | nil => exact iff_of_true rfl nofun
  | cons c name => simp [opensQuoted, and_assoc]

instance (name : String) : Decidable (QuotableName name) :=
  decidable_of_iff ('|' ∉ name.toList ∧ opensQuoted (name.toList ++ ['|']) = true)
    ⟨fun ⟨hbar, hopens⟩ => ⟨hbar, (opensQuoted_iff _ _).1 hopens⟩,
      fun h => ⟨h.bar, (opensQuoted_iff _ _).2 h.head⟩⟩

theorem inBars_append (name : String) (rest : List Char) :
    inBars name ++ rest = '|' :: (name.toList ++ '|' :: rest) := by simp [inBars]

/-- A scan finds a name that can stand in bars. -/
theorem QuotableName.scanFrom_eq (h : QuotableName name) (p : Position) (rest : List Char) :
    scanFrom p .between (inBars name ++ rest) =
      (scanFrom (p.advanceAll (inBars name)) .between rest).prepend [.name name] := by
  rw [inBars_append, scanFrom_bar h.bar ((opensQuoted_iff _ _).2 h.head),
    String.ofList_toList]
  rfl

/-- A scan that finds a name in bars finds one that can stand there. -/
theorem quotableName_of_scanFrom {p : Position} {rest : List Char} {ts : List Token}
    (h : (scanFrom p .between (inBars name ++ rest)).tokens = .name name :: ts) :
    QuotableName name := by
  rw [inBars_append] at h
  have hopens : opensQuoted (name.toList ++ '|' :: rest) = true := by
    refine Bool.not_eq_false _ ▸ fun hopens => ?_
    obtain ⟨more, us, hword⟩ := exists_scanFrom_bar_word hopens p
    rw [hword] at h
    obtain rfl : String.ofList ('|' :: more) = name := by injection (List.cons.inj h).1
    rw [String.toList_ofList] at hopens
    cases hopens
  refine ⟨fun hbar => ?_, (opensQuoted_iff _ _).1 hopens⟩
  -- a scan ends the name at its first bar
  obtain ⟨u, v, hname, hu⟩ := List.eq_append_cons_of_mem hbar
  rw [hname, List.append_assoc, List.cons_append] at h hopens
  rw [scanFrom_bar hu hopens] at h
  obtain rfl : String.ofList u = name := by injection (List.cons.inj h).1
  rw [String.toList_ofList] at hbar
  exact hu hbar

/-- The names that a scan finds in bars. -/
theorem scan_inBars_iff (h : Between before) (after : List Char) (name : String) :
    scan (before ++ inBars name ++ after) =
        (scanFrom (Position.advanceAll {} (before ++ inBars name)) .between after).prepend
          ((runOver {} .between before []).2 ++ [.name name]) ↔ QuotableName name := by
  rw [List.append_assoc, h.scan_append, Position.advanceAll_append, ← prepend_prepend]
  constructor
  · intro hscan
    have htokens := List.append_cancel_left (congrArg Scanned.tokens hscan)
    exact quotableName_of_scanFrom htokens
  · intro hname
    rw [hname.scanFrom_eq]

/-! ## Places -/

/-- A place for one tree among others, or in a list among them. -/
inductive Site where
  | here (before after : List SExpr)
  | within (before : List SExpr) (site : Site) (after : List SExpr)

namespace Site

/-- The trees with one at the place. -/
def fill : Site → SExpr → List SExpr
  | here before after, tree => before ++ tree :: after
  | within before site after, tree => before ++ .list (site.fill tree) :: after

/-- The place with one more tree behind. -/
def concat : Site → SExpr → Site
  | here before after, item => here before (after ++ [item])
  | within before site after, item => within before site (after ++ [item])

theorem fill_concat (site : Site) (item tree : SExpr) :
    (site.concat item).fill tree = site.fill tree ++ [item] := by
  cases site <;> simp [concat, fill]

/-- One more member of a list that is read. -/
theorem reverse_fill_concat (site : Site) (item tree : SExpr) :
    ((site.concat item).fill tree).reverse = item :: (site.fill tree).reverse := by
  rw [fill_concat, List.reverse_concat]

end Site

/-- The reader keeps a place in the current list, and one before a list that is open. -/
theorem exists_site_build (openBar? : Option Nat) (tokens : List Token) :
    (∀ outer (site : Site), ∃ site? : Option Site, ∀ tree,
      (build openBar? outer (site.fill tree).reverse tokens).toOption =
        site?.map (·.fill tree)) ∧
    ∀ inner line (site : Site) outer items, ∃ site? : Option Site, ∀ tree,
      (build openBar? (inner ++ ⟨line, (site.fill tree).reverse⟩ :: outer) items
        tokens).toOption = site?.map (·.fill tree) := by
  -- a parenthesis that opens a list moves the place before that list, and its partner moves it back
  induction tokens with
  | nil =>
    refine ⟨fun outer site => ?_, fun inner line site outer items => ⟨none, fun tree => ?_⟩⟩
    · cases openBar? with
      | some line => exact ⟨none, fun _ => rfl⟩
      | none =>
        cases outer with
        | cons innermost outer => exact ⟨none, fun _ => rfl⟩
        | nil =>
          refine ⟨some site, fun tree => ?_⟩
          rw [build, List.reverse_reverse]
          rfl
    · cases openBar? <;> cases inner <;> rfl
  | cons t tokens ih =>
    obtain ⟨ihcurrent, ihopen⟩ := ih
    cases t with
    | name text =>
      refine ⟨fun outer site => ?_, fun inner line site outer items => ?_⟩
      · obtain ⟨site?, hsite⟩ := ihcurrent outer (site.concat (.atom text))
        refine ⟨site?, fun tree => ?_⟩
        rw [build, ← hsite, Site.reverse_fill_concat]
      · exact ihopen inner line site outer (.atom text :: items)
    | opening line =>
      refine ⟨fun outer site => ?_, fun inner line' site outer items => ?_⟩
      · exact ihopen [] line site outer []
      · exact ihopen (⟨line, items⟩ :: inner) line' site outer []
    | closing line =>
      refine ⟨fun outer site => ?_, fun inner line' site outer items => ?_⟩
      · cases outer with
        | nil => exact ⟨none, fun _ => rfl⟩
        | cons innermost outer =>
          obtain ⟨site?, hsite⟩ := ihcurrent outer (.within innermost.before.reverse site [])
          refine ⟨site?, fun tree => ?_⟩
          rw [build, ← hsite, Site.fill, List.reverse_concat, List.reverse_reverse,
            List.reverse_reverse]
      · cases inner with
        | cons innermost inner =>
          exact ihopen inner line' site outer (.list items.reverse :: innermost.before)
        | nil =>
          obtain ⟨site?, hsite⟩ := ihcurrent outer (site.concat (.list items.reverse))
          refine ⟨site?, fun tree => ?_⟩
          rw [List.nil_append, build, ← hsite, Site.reverse_fill_concat]

/-! ## The place of a name in bars -/

/-- The trees do not depend on lines, which are only told in errors. -/
theorem toOption_build_down {outer' : List OpenList}
    (houter : outer'.map OpenList.before = outer.map OpenList.before) (k : Nat) :
    (build (openBar?.map (· + k)) outer' items (tokens.map (down k))).toOption =
      (build openBar? outer items tokens).toOption := by
  induction tokens generalizing outer outer' items with
  | nil =>
    cases outer with
    | nil =>
      obtain rfl := List.map_eq_nil_iff.1 houter
      cases openBar? <;> rfl
    | cons innermost outer =>
      cases outer' with
      | nil => cases houter
      | cons innermost' outer' => cases openBar? <;> rfl
  | cons t tokens ih =>
    cases t with
    | name text => exact ih houter
    | opening line => exact ih (congrArg (items :: ·) houter)
    | closing line =>
      cases outer with
      | nil =>
        obtain rfl := List.map_eq_nil_iff.1 houter
        rfl
      | cons innermost outer =>
        cases outer' with
        | nil => cases houter
        | cons innermost' outer' =>
          obtain ⟨hbefore, houter⟩ := List.cons.inj houter
          rw [List.map_cons, down, build, build, hbefore]
          exact ih houter

/-- The reader fails in a first part of the tokens, or goes over it and then over the rest. -/
theorem build_append_cases (ts : List Token) (outer : List OpenList) (items : List SExpr) :
    (∃ e, ∀ openBar? us, build openBar? outer items (ts ++ us) = .error e) ∨
      ∃ outer' items', ∀ openBar? us,
        build openBar? outer items (ts ++ us) = build openBar? outer' items' us := by
  induction ts generalizing outer items with
  | nil => exact .inr ⟨outer, items, fun _ _ => rfl⟩
  | cons t ts ih =>
    cases t with
    | name text => exact ih outer (.atom text :: items)
    | opening line => exact ih (⟨line, items⟩ :: outer) []
    | closing line =>
      cases outer with
      | nil => exact .inl ⟨.unexpectedClose line, fun _ _ => rfl⟩
      | cons innermost outer => exact ih outer (.list items.reverse :: innermost.before)

/-- Behind a name in bars a position only tells the line. -/
theorem advanceAll_inBars (p : Position) (name : String) : p.advanceAll (inBars name) =
    Position.down (p.advanceAll (inBars name)).line ⟨0, some '|'⟩ := by
  have hlast : ∀ q : Position, q.advance '|' = Position.down (q.advance '|').line ⟨0, some '|'⟩ :=
    fun q => by simp [Position.advance, Position.down, Text.isBlank, Text.blankRanges]
  rw [inBars, Position.advanceAll_cons, Position.advanceAll_concat]
  exact hlast _

/-- The text around a name in bars leads to the place of the name. -/
theorem exists_site_readAll (h : Between before) (after : List Char) :
    ∃ site? : Option Site, ∀ name, QuotableName name →
      (readAll (.ofList (before ++ inBars name ++ after))).toOption =
        site?.map (·.fill (.atom name)) := by
  obtain ⟨e, hfails⟩ | ⟨outer, items, hreads⟩ :=
    build_append_cases (runOver {} .between before []).2 [] []
  · refine ⟨none, fun name hname => ?_⟩
    rw [readAll, String.toList_ofList, (scan_inBars_iff h after name).2 hname]
    dsimp only [Scanned.prepend]
    rw [List.append_assoc, hfails]
    rfl
  · obtain ⟨site?, hsite⟩ :=
      (exists_site_build (scanFrom ⟨0, some '|'⟩ .between after).openBar?
        (scanFrom ⟨0, some '|'⟩ .between after).tokens).1 outer (.here items.reverse [])
    refine ⟨site?, fun name hname => ?_⟩
    have hbehind : scanFrom (Position.advanceAll {} (before ++ inBars name)) .between after =
        (scanFrom ⟨0, some '|'⟩ .between after).down
          (Position.advanceAll {} (before ++ inBars name)).line := by
      rw [← scanFrom_down, Position.advanceAll_append, ← advanceAll_inBars]
      rfl
    rw [readAll, String.toList_ofList, (scan_inBars_iff h after name).2 hname, hbehind, ← hsite,
      Site.fill, List.reverse_concat, List.reverse_reverse]
    dsimp only [Scanned.prepend]
    rw [List.append_assoc, hreads]
    exact toOption_build_down rfl _

/-- **A name in bars is read as it stands, unless the bar in front of it is no opening bar.** Take a
text whose first part ends between tokens, a name in bars behind that part, and any rest. The scan
finds the name there and goes on behind its closing bar exactly if the name has no bar and starts
with none of `-`, `=`, a closing parenthesis and a blank character. The text around the name settles
a place, which is the same for all of these names: the trees of the text are those with the name, as
one leaf, at the place. There is none exactly where the text is unbalanced. -/
theorem readAll_inBars (h : Between before) (after : List Char) :
    (∀ name, scan (before ++ inBars name ++ after) =
        (scanFrom (Position.advanceAll {} (before ++ inBars name)) .between after).prepend
          ((runOver {} .between before []).2 ++ [.name name]) ↔ QuotableName name) ∧
    ∃ site? : Option Site, ∀ name, QuotableName name →
      (readAll (.ofList (before ++ inBars name ++ after))).toOption =
        site?.map (·.fill (.atom name)) ∧
      (site? = none ↔ ∃ e, Unbalanced (before ++ inBars name ++ after) e) := by
  refine ⟨scan_inBars_iff h after, ?_⟩
  obtain ⟨site?, hsite⟩ := exists_site_readAll h after
  refine ⟨site?, fun name hname => ⟨hsite name hname, ?_⟩⟩
  have htext : (String.ofList (before ++ inBars name ++ after)).toList =
      before ++ inBars name ++ after := String.toList_ofList
  rw [← Option.map_eq_none_iff, ← hsite name hname, ← htext, String.ofList_toList]
  constructor
  · intro hnone
    cases hread : readAll (.ofList (before ++ inBars name ++ after)) with
    | ok trees =>
      rw [hread] at hnone
      cases hnone
    | error e => exact ⟨e, Reading.start.unbalanced rfl hread⟩
  · rintro ⟨e, he⟩
    rw [he.readAll_eq]
    rfl

/-- A name with a blank, a line break, a parenthesis and a semicolon, in a list behind a comment. -/
theorem readAll_inBars_behind_comment :
    let before := "(f ; note\n".toList
    let after := ") g".toList
    let name := "a b\n(;"
    Between before ∧ QuotableName name ∧
      scan (before ++ inBars name ++ after) =
        ⟨[.opening 1, .name "f", .name name, .closing 3, .name "g"], none⟩ ∧
      ∃ site : Site, site.fill (.atom name) = [.list [.atom "f", .atom name], .atom "g"] ∧
        ∀ other, QuotableName other →
          (readAll (.ofList (before ++ inBars other ++ after))).toOption =
            some (site.fill (.atom other)) := by
  intro before after name
  have hbefore : Between before := by decide +kernel
  have hname : QuotableName name := by decide +kernel
  have htext : before ++ inBars name ++ after = "(f ; note\n|a b\n(;|) g".toList := by
    decide +kernel
  have hread : readAll "(f ; note\n|a b\n(;|) g" =
      .ok [.list [.atom "f", .atom name], .atom "g"] := by rfl
  obtain ⟨hscan, site?, hsite⟩ := readAll_inBars hbefore after
  have htokens := (hscan name).2 hname
  have hplace := (hsite name hname).1
  rw [htext, String.ofList_toList, hread] at hplace
  cases site? with
  | none => cases hplace
  | some site =>
    refine ⟨hbefore, hname, htokens.trans (by decide +kernel), site,
      (Option.some.inj hplace).symm, fun other hother => (hsite other hother).1⟩

/-- A name without bars that starts with none of `->`, `=>`, a closing parenthesis and a blank
character. In bars it is read with its bars. -/
theorem exists_name_read_with_bars : ∃ name : String,
    '|' ∉ name.toList ∧ ¬['-', '>'] <+: name.toList ∧ ¬['=', '>'] <+: name.toList ∧
      (∀ c ∈ name.toList.head?, c ≠ ')' ∧ Text.isBlank c = false) ∧ Between "(a ".toList ∧
      readAll (.ofList ("(a ".toList ++ inBars name ++ " b)".toList)) =
        .ok [.list [.atom "a", .atom "|-x|", .atom "b"]] := by
  refine ⟨"-x", by decide, by decide, by decide, fun c hc => ?_, by decide +kernel, rfl⟩
  obtain rfl : '-' = c := Option.some.inj hc
  decide

end SExpr

end BitUnroll
