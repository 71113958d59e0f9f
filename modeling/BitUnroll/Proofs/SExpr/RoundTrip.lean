import BitUnroll.Proofs.SExpr.Comments

/-!
# Reading what was written

The text of a tree is cut into the tree's own tokens if its names can stand in a text as they are:
names that have no character that ends a name, and that start neither a comment nor a name in bars.
A tree is always followed by a blank, by the end of the list around it or by the end of the text, so
its last name ends where it should; and the operator `;;` is told from a comment because the first
member of a list stands right behind the parenthesis.

## Main definitions

* `SExpr.PrintableName`, `SExpr.Printable`: names that can stand as they are, and trees of them.
* `SExpr.tokens`: the tokens of a tree that is written on one line.
* `Token.ReadsAs`: how a scan reads a first part of a text.

## Main statements

* `SExpr.readsAs_render`: the tokens of a tree's text.
* `SExpr.build_tokens`: the tree of a tree's tokens.
* `SExpr.readAll_intercalate_render`: trees are read back as they were written.
-/

namespace BitUnroll

/-! ## Printable trees -/

namespace SExpr

/-- A name that can stand in a text as it is: it is not empty and has no blank and no parenthesis,
it starts with a semicolon only if it is the operator at the head of a list, and with a bar only if
this opens no name in bars. -/
structure PrintableName (head : Bool) (name : String) : Prop where
  ne_empty : name ≠ ""
  endsWord : ∀ c ∈ name.toList, Token.endsWord c = false
  semicolon : name.toList.head? = some ';' → head = true ∧ name = ";;"
  bar : name.toList.head? = some '|' →
    name = "|" ∨ name.toList[1]? = some '-' ∨ name.toList[1]? = some '='

instance (head : Bool) (name : String) : Decidable (PrintableName head name) :=
  decidable_of_iff
    (name ≠ "" ∧ (name.toList.all fun c => !Token.endsWord c) = true ∧
      (name.toList.head? = some ';' → head = true ∧ name = ";;") ∧
      (name.toList.head? = some '|' →
        name = "|" ∨ name.toList[1]? = some '-' ∨ name.toList[1]? = some '='))
    ⟨fun ⟨hname, hchars, hsemicolon, hbar⟩ => ⟨hname, by simpa using hchars, hsemicolon, hbar⟩,
      fun h => ⟨h.ne_empty, by simpa using h.endsWord, h.semicolon, h.bar⟩⟩

mutual

/-- A tree all of whose names can stand as they are, at the head of a list or elsewhere. -/
def Printable (head : Bool) : SExpr → Prop
  | .atom name => PrintableName head name
  | .list items => AllPrintable true items

/-- Trees in a row all of whose names can stand as they are. The first tree may be at the head of a
list. -/
def AllPrintable (head : Bool) : List SExpr → Prop
  | [] => True
  | item :: rest => item.Printable head ∧ AllPrintable false rest

end

mutual

instance decidablePrintable (head : Bool) : ∀ e : SExpr, Decidable (e.Printable head)
  | .atom name => inferInstanceAs (Decidable (PrintableName head name))
  | .list items => decidableAllPrintable true items

instance decidableAllPrintable (head : Bool) :
    ∀ items : List SExpr, Decidable (AllPrintable head items)
  | [] => .isTrue trivial
  | item :: rest =>
    have := decidablePrintable head item
    have := decidableAllPrintable false rest
    inferInstanceAs (Decidable (_ ∧ _))

end

mutual

/-- The tokens of a tree that is written on a line. -/
def tokens (line : Nat) : SExpr → List Token
  | .atom name => [.name name]
  | .list items => .opening line :: (allTokens line items ++ [.closing line])

/-- The tokens of trees in a row. -/
def allTokens (line : Nat) : List SExpr → List Token
  | [] => []
  | item :: rest => item.tokens line ++ allTokens line rest

end

/-- The members of a list are written with single spaces between them. -/
theorem renderItems_eq (items : List SExpr) :
    renderItems items = " ".intercalate (items.map render) := by
  induction items with
  | nil => rfl
  | cons item items ih =>
    cases items with
    | nil => rw [renderItems, List.map_cons, List.map_nil, String.intercalate_singleton]
    | cons next rest =>
      have hnext : (next :: rest).map render ≠ [] := List.cons_ne_nil _ _
      rw [renderItems, ih, List.map_cons (l := next :: rest),
        String.intercalate_cons_of_ne_nil hnext]
      exact List.cons_ne_nil _ _

end SExpr

/-! ## Scans of printable text -/

namespace Token

variable {p : Position} {text more rest : List Char} {tokens tokens' : List Token}

/-- Between tokens, a scan reads a first part of a text as some tokens, and goes on behind it on the
same line. -/
def ReadsAs (p : Position) (text rest : List Char) (tokens : List Token) : Prop :=
  ∃ q : Position, q.line = p.line ∧
    scanFrom p .between (text ++ rest) = (scanFrom q .between rest).prepend tokens

theorem ReadsAs.nil (p : Position) (rest : List Char) : ReadsAs p [] rest [] := ⟨p, rfl, rfl⟩

/-- One part of a text after the other. -/
theorem ReadsAs.append (h : ReadsAs p text (more ++ rest) tokens)
    (h' : ∀ q : Position, q.line = p.line → ReadsAs q more rest tokens') :
    ReadsAs p (text ++ more) rest (tokens ++ tokens') := by
  obtain ⟨q, hline, hscan⟩ := h
  obtain ⟨r, hline', hscan'⟩ := h' q hline
  refine ⟨r, hline'.trans hline, ?_⟩
  rw [List.append_assoc, hscan, hscan', prepend_prepend]

/-- What can stand behind a tree: a blank, the end of a list or the end of the text. -/
def Follows (rest : List Char) : Prop := ∀ c ∈ rest.head?, Text.isBlank c = true ∨ c = ')'

theorem Follows.endsWord (h : Follows rest) {c : Char} (hc : c ∈ rest.head?) :
    endsWord c = true := by
  unfold Token.endsWord
  rcases h c hc with hblank | rfl
  · simp [hblank]
  · decide

/-- A bar in front of it is a name of its own. -/
theorem Follows.opensQuoted_eq (h : Follows rest) : opensQuoted rest = false := by
  cases rest with
  | nil => rfl
  | cons c rest => rcases h c rfl with hc | rfl <;> simp [opensQuoted, *]

/-- A name ends before the next blank or parenthesis and at the end of the text. -/
theorem scanFrom_word_end (p : Position) (cs : List Char)
    (h : ∀ c ∈ rest.head?, endsWord c = true) :
    scanFrom p (.word cs) rest = (scanFrom p .between rest).prepend [ofReversed cs] := by
  cases rest with
  | nil => rfl
  | cons c rest =>
    have hc := h c rfl
    rw [scanFrom, if_pos hc, scanFrom, if_pos hc, prepend_prepend]
    rfl

/-- A scan goes over a name character by character. -/
theorem scanFrom_word (p : Position) (cs : List Char) {name : List Char}
    (hname : ∀ c ∈ name, endsWord c = false) (h : ∀ c ∈ rest.head?, endsWord c = true) :
    scanFrom p (.word cs) (name ++ rest) =
      (scanFrom (p.advanceAll name) .between rest).prepend [ofReversed (name.reverse ++ cs)] := by
  induction name generalizing p cs with
  | nil => exact scanFrom_word_end p cs h
  | cons c name ih =>
    obtain ⟨hc, hname⟩ := List.forall_mem_cons.1 hname
    rw [List.cons_append, scanFrom, if_neg (Bool.not_eq_true _ ▸ hc), ih _ _ hname,
      List.reverse_cons, List.append_assoc]
    rfl

theorem readsAs_blank : ReadsAs p [' '] rest [] := by
  have hstep : step p .between ' ' rest = (.between, []) := rfl
  refine ⟨p.advance ' ', rfl, ?_⟩
  rw [List.singleton_append, scanFrom_cons, hstep]

theorem readsAs_closing : ReadsAs p [')'] rest [.closing p.line] := by
  have hstep : step p .between ')' rest = (.between, [.closing p.line]) := rfl
  refine ⟨p.advance ')', rfl, ?_⟩
  rw [List.singleton_append, scanFrom_cons, hstep]

/-- Behind an opening parenthesis a scan stands at the head of a list. -/
theorem readsAs_opening
    (h : ∀ q : Position, q.line = p.line → q.last? = some '(' → ReadsAs q text rest tokens) :
    ReadsAs p ('(' :: text) rest (.opening p.line :: tokens) := by
  obtain ⟨q, hline, hscan⟩ := h (p.advance '(') rfl rfl
  have hstep : step p .between '(' (text ++ rest) = (.between, [.opening p.line]) := rfl
  refine ⟨q, hline, ?_⟩
  rw [List.cons_append, scanFrom_cons, hstep, hscan, prepend_prepend]
  rfl

end Token

namespace SExpr

open Token

variable {p : Position} {rest : List Char} {head : Bool}

/-- What may stand around a tree: at the head of a list there is a parenthesis before it, and the
text goes on behind it. -/
structure Stands (p : Position) (rest : List Char) (head : Bool) : Prop where
  follows : Follows rest
  opening : head = true → p.last? = some '(' ∧ rest ≠ []

/-- A printable name that starts with a semicolon is the operator. -/
theorem PrintableName.opensOperator_eq {cs : List Char} {name : String}
    (h : PrintableName head name) (hname : name.toList = ';' :: cs)
    (hstands : Stands p rest head) : opensOperator p (cs ++ rest) = true := by
  obtain ⟨hhead, hoperator⟩ := h.semicolon (by rw [hname]; rfl)
  obtain ⟨hlast, hrest⟩ := hstands.opening hhead
  obtain ⟨d, more, rfl⟩ := List.exists_cons_of_ne_nil hrest
  have hd : (Text.isBlank d || d == ')') = true := by simpa using hstands.follows d rfl
  rw [hoperator] at hname
  obtain rfl : [';'] = cs := (List.cons.inj hname).2
  rw [List.singleton_append, opensOperator, hd, hlast]
  rfl

/-- A printable name that starts with a bar opens no name in bars. -/
theorem PrintableName.opensQuoted_eq {cs : List Char} {name : String}
    (h : PrintableName head name) (hname : name.toList = '|' :: cs) (hrest : Follows rest) :
    opensQuoted (cs ++ rest) = false := by
  cases cs with
  | nil => exact hrest.opensQuoted_eq
  | cons d ds =>
    have hd : d = '-' ∨ d = '=' := by
      rcases h.bar (by rw [hname]; rfl) with halone | hsecond
      · rw [halone] at hname
        cases hname
      · simpa [hname] using hsecond
    rcases hd with rfl | rfl <;> rfl

/-- A printable name is read as a name without bars. -/
theorem PrintableName.start_eq {c : Char} {cs : List Char} {name : String}
    (h : PrintableName head name) (hname : name.toList = c :: cs) (hstands : Stands p rest head) :
    start p c (cs ++ rest) = .word [c] := by
  unfold start
  split
  · rename_i hcomment
    obtain ⟨hc, hoperator⟩ : c = ';' ∧ opensOperator p (cs ++ rest) = false := by
      simpa using hcomment
    rw [h.opensOperator_eq (hc ▸ hname) hstands] at hoperator
    cases hoperator
  · split
    · rename_i hbars
      obtain ⟨hc, hquoted⟩ : c = '|' ∧ opensQuoted (cs ++ rest) = true := by simpa using hbars
      rw [h.opensQuoted_eq (hc ▸ hname) hstands.follows] at hquoted
      cases hquoted
    · rfl

/-- A printable name is one token. -/
theorem PrintableName.readsAs {name : String} (h : PrintableName head name)
    (hstands : Stands p rest head) : ReadsAs p name.toList rest [.name name] := by
  obtain ⟨c, cs, hname⟩ : ∃ c cs, name.toList = c :: cs :=
    List.exists_cons_of_ne_nil fun hnil => h.ne_empty (String.toList_eq_nil_iff.1 hnil)
  have hall := h.endsWord
  rw [hname] at hall
  obtain ⟨hc, hcs⟩ := List.forall_mem_cons.1 hall
  have hnewline : '\n' ∉ c :: cs := fun hmem => absurd (hall '\n' hmem) (by decide)
  have hstep : step p .between c (cs ++ rest) = (.word [c], []) := by
    rw [step, if_neg (Bool.not_eq_true _ ▸ hc), h.start_eq hname hstands]
  have htoken : ofReversed (cs.reverse ++ [c]) = .name name := by
    rw [ofReversed, ← List.reverse_cons, List.reverse_reverse, ← hname, String.ofList_toList]
  refine ⟨p.advanceAll (c :: cs), line_advanceAll p hnewline, ?_⟩
  rw [hname, List.cons_append, scanFrom_cons, hstep, prepend_nil,
    scanFrom_word _ _ hcs fun d hd => hstands.follows.endsWord hd, htoken,
    Position.advanceAll_cons]

mutual

/-- The text of a printable tree is read as the tokens of the tree. -/
theorem readsAs_render (e : SExpr) {p : Position} {rest : List Char} {head : Bool}
    (he : e.Printable head) (hstands : Stands p rest head) :
    ReadsAs p e.render.toList rest (e.tokens p.line) := by
  match e with
  | .atom text =>
    have hname : PrintableName head text := he
    rw [render_atom]
    exact hname.readsAs hstands
  | .list items =>
    have hitems : AllPrintable true items := he
    have htext : (render (.list items)).toList = '(' :: ((renderItems items).toList ++ [')']) := by
      rw [render_list, String.toList_append, String.toList_append]
      rfl
    rw [htext, tokens]
    refine readsAs_opening fun q hline hlast => ?_
    have hinside : Stands q ([')'] ++ rest) true :=
      ⟨fun c hc => .inr (Option.some.inj hc).symm, fun _ => ⟨hlast, List.cons_ne_nil _ _⟩⟩
    rw [← hline]
    refine (readsAs_renderItems items hitems hinside).append fun r hline' => ?_
    rw [← hline']
    exact readsAs_closing

/-- The texts of printable trees, separated by spaces, are read as the tokens of the trees. -/
theorem readsAs_renderItems (items : List SExpr) {p : Position} {rest : List Char} {head : Bool}
    (hitems : AllPrintable head items) (hstands : Stands p rest head) :
    ReadsAs p (renderItems items).toList rest (allTokens p.line items) := by
  match items with
  | [] => exact .nil p rest
  | [item] =>
    rw [renderItems, allTokens, allTokens, List.append_nil]
    exact readsAs_render item hitems.1 hstands
  | item :: next :: more =>
    have htext : (renderItems (item :: next :: more)).toList =
        item.render.toList ++ ([' '] ++ (renderItems (next :: more)).toList) := by
      rw [renderItems, String.toList_append, String.toList_append, List.append_assoc]
      · rfl
      · exact nofun
    have hitem : Stands p ([' '] ++ (renderItems (next :: more)).toList ++ rest) head :=
      ⟨fun c hc => .inl (Option.some.inj hc ▸ rfl), fun hhead =>
        ⟨(hstands.opening hhead).1, List.cons_ne_nil _ _⟩⟩
    rw [htext, allTokens]
    refine (readsAs_render item hitems.1 hitem).append fun q hline => ?_
    refine readsAs_blank.append fun r hline' => ?_
    rw [← hline, ← hline']
    exact readsAs_renderItems (next :: more) hitems.2 ⟨hstands.follows, nofun⟩

end

/-! ## Trees of tokens -/

mutual

/-- The tokens of a tree add the tree to the list that is being read. -/
theorem build_tokens (e : SExpr) (openBar? : Option Nat) (line : Nat) (outer : List OpenList)
    (before : List SExpr) (rest : List Token) :
    build openBar? outer before (e.tokens line ++ rest) =
      build openBar? outer (e :: before) rest := by
  match e with
  | .atom text => rfl
  | .list items =>
    rw [tokens, List.cons_append, build, List.append_assoc, build_allTokens]
    rw [List.singleton_append, build, List.append_nil, List.reverse_reverse]

/-- The tokens of trees in a row add the trees to the list that is being read. -/
theorem build_allTokens (items : List SExpr) (openBar? : Option Nat) (line : Nat)
    (outer : List OpenList) (before : List SExpr) (rest : List Token) :
    build openBar? outer before (allTokens line items ++ rest) =
      build openBar? outer (items.reverse ++ before) rest := by
  match items with
  | [] => rfl
  | item :: more =>
    rw [allTokens, List.append_assoc, build_tokens item, build_allTokens more,
      List.reverse_cons, List.append_assoc]
    rfl

end

/-- **Trees are read back as they were written.** The texts of trees all of whose names are
printable, with single spaces between them, are read as these trees, however deep they are. -/
theorem readAll_intercalate_render {es : List SExpr} (hes : AllPrintable false es) :
    readAll (" ".intercalate (es.map render)) = .ok es := by
  have hstands : Stands {} [] false := ⟨nofun, nofun⟩
  obtain ⟨q, -, hscan⟩ := readsAs_renderItems es hes hstands
  rw [List.append_nil] at hscan
  have htokens : scan (renderItems es).toList = ⟨allTokens 1 es ++ [], none⟩ := hscan
  rw [← renderItems_eq, readAll, htokens]
  dsimp only
  rw [build_allTokens, List.append_nil, build, List.reverse_reverse]

/-- Lists of which one starts with the operator `;;`, one with an operator of bars and one is
empty. -/
theorem readAll_render_operators :
    let es : List SExpr := [.list [.atom ";;", .list [.atom "|->", .atom "a;b", .list []],
      .atom "|"], .atom "c|d|"]
    AllPrintable false es ∧ " ".intercalate (es.map render) = "(;; (|-> a;b ()) |) c|d|" ∧
      readAll "(;; (|-> a;b ()) |) c|d|" = .ok es := by
  intro es
  have hes : AllPrintable false es := by decide
  have htext : " ".intercalate (es.map render) = "(;; (|-> a;b ()) |) c|d|" := by
    decide +kernel
  exact ⟨hes, htext, htext ▸ readAll_intercalate_render hes⟩

end SExpr

end BitUnroll
