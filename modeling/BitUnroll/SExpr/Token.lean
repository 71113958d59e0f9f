import BitUnroll.Text

/-!
# Tokens of scripts

`Token.scan` cuts a text into parentheses and names. It reads the text once, character by
character, and knows three things about what it has read: the line it is on, the last character
that was not blank, and whether it stands between tokens, in a comment or in a name.

## Main rules

* A name ends at a blank character or a parenthesis; a name in bars ends at the next bar.
* A bar opens a name unless the text ends there or goes on with `-`, `=`, `)` or a blank.
* `;` opens a comment to the end of the line, except where `opensOperator` sees the name `;;`.
-/

namespace BitUnroll

/-- A parenthesis with its line, or a name. -/
inductive Token where
  | opening (line : Nat)
  | closing (line : Nat)
  | name (text : String)
  deriving DecidableEq, Repr

namespace Token

/-- Where a scan stands: the current line, counted from one, and the last character read that
was not blank. -/
structure Position where
  line : Nat := 1
  last? : Option Char := none
  deriving DecidableEq, Repr

/-- The position after one more character. -/
def Position.advance (p : Position) (c : Char) : Position where
  line := if c = '\n' then p.line + 1 else p.line
  last? := if Text.isBlank c then p.last? else some c

/-- What a scan is inside of. A name holds its characters in reverse, a name in bars also the
line of its first bar. -/
inductive Mode where
  | between
  | comment
  | word (reversed : List Char)
  | quoted (line : Nat) (reversed : List Char)
  deriving DecidableEq, Repr

/-- Whether a semicolon starts the name `;;`: a second one follows it, then a blank or a closing
parenthesis, and the last character before it that is not blank is an opening parenthesis,
whatever that parenthesis stood in. -/
def opensOperator (p : Position) (rest : List Char) : Bool :=
  match rest with
  | ';' :: c :: _ => (Text.isBlank c || c == ')') && p.last? == some '('
  | _ => false

/-- Whether a bar with `rest` after it opens a name in bars. -/
def opensQuoted (rest : List Char) : Bool :=
  match rest with
  | [] => false
  | c :: _ => !(c == '-' || c == '=' || c == ')' || Text.isBlank c)

/-- Whether a character ends a name that is not in bars. -/
def endsWord (c : Char) : Bool :=
  Text.isBlank c || c == '(' || c == ')'

/-- The name whose characters were collected in reverse. -/
def ofReversed (reversed : List Char) : Token :=
  .name (String.ofList reversed.reverse)

/-- The token that a character outside of comments and names stands for by itself. -/
def ofDelimiter? (line : Nat) (c : Char) : Option Token :=
  if c == '(' then some (.opening line) else if c == ')' then some (.closing line) else none

/-- The tokens of a text, and the line of a bar that is never closed if the text ends within a
name in bars. -/
structure Scanned where
  tokens : List Token
  openBar? : Option Nat := none
  deriving DecidableEq, Repr

/-- Puts tokens in front. -/
def Scanned.prepend (tokens : List Token) (s : Scanned) : Scanned :=
  { s with tokens := tokens ++ s.tokens }

/-- The mode that the first character of something other than a delimiter or a blank leads to. -/
def start (p : Position) (c : Char) (rest : List Char) : Mode :=
  if c == ';' && !opensOperator p rest then .comment
  else if c == '|' && opensQuoted rest then .quoted p.line []
  else .word [c]

/-- The scan from a position and a mode on. -/
def scanFrom : Position → Mode → List Char → Scanned
  | _, .between, [] => ⟨[], none⟩
  | _, .comment, [] => ⟨[], none⟩
  | _, .word cs, [] => ⟨[ofReversed cs], none⟩
  | _, .quoted line _, [] => ⟨[], some line⟩
  | p, .between, c :: rest =>
    if endsWord c then
      (scanFrom (p.advance c) .between rest).prepend (ofDelimiter? p.line c).toList
    else scanFrom (p.advance c) (start p c rest) rest
  | p, .comment, c :: rest =>
    scanFrom (p.advance c) (if c = '\n' then .between else .comment) rest
  | p, .word cs, c :: rest =>
    if endsWord c then
      (scanFrom (p.advance c) .between rest).prepend
        (ofReversed cs :: (ofDelimiter? p.line c).toList)
    else scanFrom (p.advance c) (.word (c :: cs)) rest
  | p, .quoted line cs, c :: rest =>
    if c = '|' then (scanFrom (p.advance c) .between rest).prepend [ofReversed cs]
    else scanFrom (p.advance c) (.quoted line (c :: cs)) rest

/-- The tokens of a text. -/
def scan (text : List Char) : Scanned :=
  scanFrom {} .between text

end Token

end BitUnroll
