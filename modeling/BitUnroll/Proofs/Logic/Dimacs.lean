import BitUnroll.Logic.Dimacs

/-!
# Reading what was written

The text of a formula is read as the formula, with any comments before it. Lines are cut at their
ends only, so a comment may say what it likes as long as it stays on its line.

Numbers are written as they are, whatever their size. Up to a last variable they are the same in
sixty-four bits; beyond it, numbers of sixty-four bits would no longer tell literals apart.

## Main definitions

* `Literal.toDimacs64`, `Cnf.toDimacs64`: the number of a literal in sixty-four bits, and the text
  with such numbers.

## Main statements

* `Cnf.lines_line`, `Cnf.not_mem_of_mem_lines`: a text is cut into lines at their ends, and there
  only.
* `Cnf.ofDimacs?_of_lines`: a text whose lines are comments and those of a formula.
* `Cnf.dimacs_determines`: a formula is determined by its text.
-/

namespace BitUnroll

namespace Text

theorem digit?_of_isDigit {c : Char} (h : c.isDigit = true) :
    digit? c = some (c.toNat - '0'.toNat) := by
  rw [digit?, if_pos]
  simpa [Char.isDigit, Char.le_def] using h

/-- Digits are the number that they stand for. -/
theorem nat?_of_isDigit {digits : List Char} (hne : digits ≠ [])
    (h : ∀ c ∈ digits, c.isDigit = true) : nat? digits = some (Nat.ofDigitChars 10 digits 0) := by
  have hfold : ∀ acc, digits.foldlM (fun acc c => (digit? c).map (acc * 10 + ·)) acc =
      some (Nat.ofDigitChars 10 digits acc) := by
    clear hne
    induction digits with
    | nil => exact fun acc => rfl
    | cons c digits ih =>
      obtain ⟨hc, hdigits⟩ := List.forall_mem_cons.1 h
      intro acc
      rw [List.foldlM_cons, digit?_of_isDigit hc, Nat.ofDigitChars_cons, Nat.mul_comm 10]
      exact ih hdigits _
  unfold nat?
  split
  · exact absurd rfl hne
  · exact hfold 0

/-- A number that is written down is read as itself. -/
theorem nat?_toString (n : Nat) : nat? (toString n).toList = some n := by
  rw [Nat.toString_eq_ofList_toDigits, String.toList_ofList, nat?_of_isDigit Nat.toDigits_ne_nil,
    Nat.ofDigitChars_ten_toDigits]
  exact fun c hc => Nat.isDigit_of_mem_toDigits (by omega) (by omega) hc

theorem isBlank_of_isDigit {c : Char} (h : c.isDigit = true) : isBlank c = false := by
  simp only [Char.isDigit, Bool.and_eq_true, decide_eq_true_eq, ge_iff_le,
    UInt32.le_iff_toNat_le] at h
  have hlow : 48 ≤ c.toNat := h.1
  have hhigh : c.toNat ≤ 57 := h.2
  simp only [isBlank, blankRanges, List.any_cons, List.any_nil, Bool.or_eq_false_iff,
    Bool.and_eq_false_iff, decide_eq_false_iff_not, and_true]
  omega

end Text

namespace Cnf

/-! ## Lines -/

/-- A text starts with a line where the line's end is. -/
theorem lines_line {line : List Char} (h : '\n' ∉ line) (rest : List Char) :
    lines (line ++ '\n' :: rest) = line :: lines rest := by
  induction line with
  | nil => rfl
  | cons c line ih =>
    rw [List.mem_cons, not_or] at h
    obtain ⟨hc, hline⟩ := h
    rw [List.cons_append, lines, if_neg (Ne.symm hc), ih hline]

/-- Lines are cut at every end of a line. -/
theorem not_mem_of_mem_lines {text line : List Char} (h : line ∈ lines text) : '\n' ∉ line := by
  induction text generalizing line with
  | nil => cases h
  | cons c text ih =>
    rw [lines] at h
    split at h
    · rcases List.mem_cons.1 h with rfl | h
      · exact List.not_mem_nil
      · exact ih h
    · rename_i hc
      split at h
      · obtain rfl := List.mem_singleton.1 h
        simpa using Ne.symm hc
      · rename_i first others hlines
        rw [hlines] at ih
        rcases List.mem_cons.1 h with rfl | h
        · rw [List.mem_cons, not_or]
          exact ⟨Ne.symm hc, ih List.mem_cons_self⟩
        · exact ih (List.mem_cons_of_mem _ h)

/-- A text of lines is cut into them. -/
theorem lines_flatMap {first : List (List Char)} (h : ∀ line ∈ first, '\n' ∉ line)
    (rest : List Char) :
    lines (first.flatMap (· ++ ['\n']) ++ rest) = first ++ lines rest := by
  induction first with
  | nil => rfl
  | cons line first ih =>
    obtain ⟨hline, hfirst⟩ := List.forall_mem_cons.1 h
    have htext : (line :: first).flatMap (· ++ ['\n']) ++ rest =
        line ++ '\n' :: (first.flatMap (· ++ ['\n']) ++ rest) := by simp
    rw [htext, lines_line hline, ih hfirst, List.cons_append]

/-! ## Words -/

/-- Characters that are read as one word. -/
structure IsWord (word : List Char) : Prop where
  ne_nil : word ≠ []
  isBlank_eq : ∀ c ∈ word, Text.isBlank c = false

theorem isWord_of_all {word : List Char} (hne : word ≠ [])
    (h : word.all (fun c => !Text.isBlank c) = true) : IsWord word :=
  ⟨hne, fun c hc => by simpa using List.all_eq_true.1 h c hc⟩

theorem wordsFrom_append {word : List Char} (h : ∀ c ∈ word, Text.isBlank c = false)
    (reversed rest : List Char) :
    wordsFrom reversed (word ++ rest) = wordsFrom (word.reverse ++ reversed) rest := by
  induction word generalizing reversed with
  | nil => rfl
  | cons c word ih =>
    obtain ⟨hc, hword⟩ := List.forall_mem_cons.1 h
    rw [List.cons_append, wordsFrom, hc, if_neg Bool.false_ne_true, ih hword]
    simp

/-- Words with a space between each two of them. -/
def spaced (words : List (List Char)) (last : List Char) : List Char :=
  words.flatMap (· ++ [' ']) ++ last

theorem mem_spaced {words : List (List Char)} {last : List Char} {c : Char} :
    c ∈ spaced words last → c = ' ' ∨ ∃ word ∈ words ++ [last], c ∈ word := by
  intro h
  rcases List.mem_append.1 h with h | h
  · obtain ⟨word, hword, h⟩ := List.mem_flatMap.1 h
    rcases List.mem_append.1 h with h | h
    · exact .inr ⟨word, List.mem_append_left _ hword, h⟩
    · exact .inl (List.mem_singleton.1 h)
  · exact .inr ⟨last, by simp, h⟩

theorem wordsFrom_spaced {words : List (List Char)} {last : List Char}
    (hwords : ∀ word ∈ words, IsWord word) (hlast : IsWord last) :
    wordsFrom [] (spaced words last) = words ++ [last] := by
  have hnonempty : ∀ {word : List Char}, IsWord word → word.reverse.isEmpty = false :=
    fun hword => by simpa using hword.ne_nil
  induction words with
  | nil =>
    have h := wordsFrom_append hlast.isBlank_eq [] []
    rw [List.append_nil, List.append_nil, wordsFrom, hnonempty hlast,
      if_neg Bool.false_ne_true, List.reverse_reverse] at h
    exact h
  | cons word words ih =>
    obtain ⟨hword, hwords⟩ := List.forall_mem_cons.1 hwords
    have htext : spaced (word :: words) last = word ++ ' ' :: spaced words last := by
      simp [spaced]
    rw [htext, wordsFrom_append hword.isBlank_eq, List.append_nil, wordsFrom,
      if_pos (by decide : Text.isBlank ' ' = true), hnonempty hword, if_neg Bool.false_ne_true,
      List.reverse_reverse, ih hwords, List.cons_append]

/-- Words with spaces between them stay on their line. -/
theorem newline_not_mem_spaced {words : List (List Char)} {last : List Char}
    (h : ∀ word ∈ words ++ [last], IsWord word) : '\n' ∉ spaced words last := by
  intro hmem
  rcases mem_spaced hmem with hspace | ⟨word, hword, hmem⟩
  · cases hspace
  · have hblank := (h word hword).isBlank_eq _ hmem
    exact absurd hblank (by decide)

/-! ## Numbers -/

/-- A number that is written down. -/
def word (n : Int) : List Char := (toString n).toList

theorem word_eq (n : Int) :
    word n = if 0 ≤ n then (toString n.toNat).toList else '-' :: (toString (-n).toNat).toList := by
  show n.repr.toList = _
  rw [Int.repr_eq_if]
  split
  · rfl
  · rw [String.toList_append]
    rfl

theorem isDigit_of_mem_toString {n : Nat} {c : Char} (h : c ∈ (toString n).toList) :
    c.isDigit = true := by
  rw [Nat.toString_eq_ofList_toDigits, String.toList_ofList] at h
  exact Nat.isDigit_of_mem_toDigits (by omega) (by omega) h

theorem toList_toString_ne_nil (n : Nat) : (toString n).toList ≠ [] := by
  rw [Nat.toString_eq_ofList_toDigits, String.toList_ofList]
  exact Nat.toDigits_ne_nil

theorem isWord_toString (n : Nat) : IsWord (toString n).toList :=
  ⟨toList_toString_ne_nil n, fun _ hc => Text.isBlank_of_isDigit (isDigit_of_mem_toString hc)⟩

/-- Numbers are written with digits, and with a sign if they are negative. -/
theorem mem_word {n : Int} {c : Char} (h : c ∈ word n) : c = '-' ∨ c.isDigit = true := by
  rw [word_eq] at h
  split at h
  · exact .inr (isDigit_of_mem_toString h)
  · rcases List.mem_cons.1 h with h | h
    · exact .inl h
    · exact .inr (isDigit_of_mem_toString h)

theorem isWord_word (n : Int) : IsWord (word n) := by
  constructor
  · rw [word_eq]
    split
    · exact toList_toString_ne_nil _
    · exact List.cons_ne_nil _ _
  · intro c hc
    rcases mem_word hc with rfl | hc
    · decide
    · exact Text.isBlank_of_isDigit hc

/-- A number that is written down is read as itself. -/
theorem number?_word (n : Int) : number? (word n) = some n := by
  rw [word_eq]
  split
  · unfold number?
    split
    · rename_i digits heq
      have hdigit := isDigit_of_mem_toString (heq ▸ List.mem_cons_self : '-' ∈ _)
      exact absurd hdigit (by decide)
    · rw [Text.nat?_toString]
      exact congrArg some (Int.toNat_of_nonneg ‹_›)
  · have hneg : -((-n).toNat : Int) = n := by omega
    rw [number?, Text.nat?_toString]
    exact congrArg some hneg

theorem mapM_number? (ns : List Int) : (ns.map word).mapM number? = some ns := by
  induction ns with
  | nil => rfl
  | cons n ns ih =>
    rw [List.map_cons, List.mapM_cons, number?_word, ih]
    rfl

/-! ## Clauses -/

/-- The numbers on the line of a clause. -/
def numbers (c : Clause) : List Int := c.map Literal.toDimacs ++ [0]

theorem clausesFrom_append (c reversed : Clause) (rest : List Int) :
    clausesFrom reversed (numbers c ++ rest) =
      (clausesFrom [] rest).map ((reversed.reverse ++ c) :: ·) := by
  induction c generalizing reversed with
  | nil =>
    rw [List.append_nil]
    rfl
  | cons l c ih =>
    have hnumbers : numbers (l :: c) ++ rest = l.toDimacs :: (numbers c ++ rest) := rfl
    rw [hnumbers, clausesFrom, Literal.ofDimacs?_toDimacs]
    dsimp only
    rw [ih]
    simp

theorem clausesFrom_flatMap (cs : List Clause) : clausesFrom [] (cs.flatMap numbers) = some cs := by
  induction cs with
  | nil => rfl
  | cons c cs ih =>
    rw [List.flatMap_cons, clausesFrom_append, ih]
    rfl

/-! ## Formulas -/

/-- The words of the line with the numbers of variables and of clauses, but for the last one. -/
def headerWords (f : Cnf) : List (List Char) :=
  [['p'], ['c', 'n', 'f'], (toString f.numVars).toList]

/-- The line with the numbers of variables and of clauses. -/
def headerText (f : Cnf) : List Char := spaced f.headerWords (toString f.clauses.size).toList

/-- The line of a clause. -/
def clauseText (c : Clause) : List Char := spaced (c.map fun l => word l.toDimacs) (word 0)

theorem toList_clauseLine (c : Clause) : (clauseLine c).toList = clauseText c ++ ['\n'] := by
  have hword : ∀ l : Literal, (toString l.toDimacs ++ " ").toList = word l.toDimacs ++ [' '] :=
    fun l => String.toList_append
  rw [clauseLine, String.toList_append, String.toList_join, clauseText, spaced, List.flatMap_map,
    List.flatMap_map, List.append_assoc]
  simp only [hword]
  rfl

theorem toList_toDimacs (f : Cnf) : f.toDimacs.toList =
    (f.headerText :: f.clauses.toList.map clauseText).flatMap (· ++ ['\n']) := by
  simp only [toDimacs, String.toList_append, String.toList_join, headerText, headerWords, spaced,
    List.flatMap_map, List.flatMap_cons, toList_clauseLine, List.append_assoc]
  rfl

theorem isWord_of_mem_header {f : Cnf} {word : List Char}
    (h : word ∈ f.headerWords ++ [(toString f.clauses.size).toList]) : IsWord word := by
  simp only [headerWords, List.cons_append, List.nil_append, List.mem_cons, List.not_mem_nil,
    or_false] at h
  obtain rfl | rfl | rfl | rfl := h
  · exact isWord_of_all (List.cons_ne_nil _ _) rfl
  · exact isWord_of_all (List.cons_ne_nil _ _) rfl
  · exact isWord_toString _
  · exact isWord_toString _

/-- The words on the line of a clause are its numbers. -/
theorem words_eq_numbers (c : Clause) :
    (c.map fun l => word l.toDimacs) ++ [word 0] = (numbers c).map word := by
  simp [numbers]

theorem isWord_of_mem_clause {c : Clause} {w : List Char}
    (h : w ∈ (c.map fun l => word l.toDimacs) ++ [word 0]) : IsWord w := by
  rw [words_eq_numbers] at h
  obtain ⟨n, -, rfl⟩ := List.mem_map.1 h
  exact isWord_word n

/-- A formula has a line for both counts and one for each clause. -/
theorem lines_toDimacs (f : Cnf) :
    lines f.toDimacs.toList = f.headerText :: f.clauses.toList.map clauseText := by
  rw [toList_toDimacs, ← List.append_nil (List.flatMap _ _), lines_flatMap, lines, List.append_nil]
  refine List.forall_mem_cons.2 ⟨newline_not_mem_spaced fun _ => isWord_of_mem_header, ?_⟩
  intro line hline
  obtain ⟨c, -, rfl⟩ := List.mem_map.1 hline
  exact newline_not_mem_spaced fun _ => isWord_of_mem_clause

theorem isComment_headerText (f : Cnf) : isComment f.headerText = false := rfl

theorem isComment_clauseText (c : Clause) : isComment (clauseText c) = false := by
  have hc : 'c' ∉ clauseText c := by
    intro hmem
    rcases mem_spaced hmem with hspace | ⟨w, hw, hmem⟩
    · cases hspace
    · rw [words_eq_numbers] at hw
      obtain ⟨n, -, rfl⟩ := List.mem_map.1 hw
      rcases mem_word hmem with h | h
      · cases h
      · exact absurd h (by decide)
  rw [isComment, beq_eq_false_iff_ne]
  exact fun hhead => hc (List.mem_of_head? hhead)

theorem wordsFrom_headerText (f : Cnf) :
    wordsFrom [] f.headerText = f.headerWords ++ [(toString f.clauses.size).toList] :=
  wordsFrom_spaced (fun _ h => isWord_of_mem_header (List.mem_append_left _ h)) (isWord_toString _)

theorem wordsFrom_clauseText (c : Clause) :
    wordsFrom [] (clauseText c) = (numbers c).map word := by
  rw [← words_eq_numbers]
  exact wordsFrom_spaced (fun _ h => isWord_of_mem_clause (List.mem_append_left _ h))
    (isWord_word 0)

/-- The words of a formula's lines are read as the formula. -/
theorem ofWords?_eq (f : Cnf) :
    ofWords? ((f.headerWords ++ [(toString f.clauses.size).toList]) ::
      f.clauses.toList.map fun c => (numbers c).map word) = some f := by
  have hflatten : (f.clauses.toList.map fun c => (numbers c).map word).flatten =
      (f.clauses.toList.flatMap numbers).map word := by
    rw [List.map_flatMap, List.flatMap_def]
  simp only [headerWords, List.cons_append, List.nil_append, ofWords?, hflatten, mapM_number?,
    clausesFrom_flatMap, Text.nat?_toString, Option.bind_eq_bind, Option.bind_some,
    Array.length_toList, if_true]
  rfl

/-- **A formula is read as it was written.** A text whose lines are comments and then those of a
formula is read as the formula: with the same number of variables, and the same clauses in the same
order. -/
theorem ofDimacs?_of_lines {text : String} {comments : List (List Char)} {f : Cnf}
    (hlines : lines text.toList = comments ++ lines f.toDimacs.toList)
    (hcomments : ∀ line ∈ comments, isComment line = true) : ofDimacs? text = some f := by
  have hskipped : comments.filter (fun line => !isComment line) = [] :=
    List.filter_eq_nil_iff.2 fun line hline => by simp [hcomments line hline]
  have hclauses : (f.clauses.toList.map clauseText).filter (fun line => !isComment line) =
      f.clauses.toList.map clauseText := by
    refine List.filter_eq_self.2 fun line hline => ?_
    obtain ⟨c, -, rfl⟩ := List.mem_map.1 hline
    rw [isComment_clauseText]
    rfl
  have hwords : ((f.clauses.toList.map clauseText).map (wordsFrom [])).filter
      (fun words => !words.isEmpty) = f.clauses.toList.map fun c => (numbers c).map word := by
    rw [List.map_map, List.filter_eq_self.2]
    · exact List.map_congr_left fun c _ => wordsFrom_clauseText c
    · intro words hwords
      obtain ⟨c, -, rfl⟩ := List.mem_map.1 hwords
      rw [Function.comp_apply, wordsFrom_clauseText]
      simp [numbers]
  unfold ofDimacs?
  dsimp only
  rw [hlines, lines_toDimacs, List.filter_append, hskipped, List.nil_append,
    List.filter_cons_of_pos (by rw [isComment_headerText]; rfl), hclauses, List.map_cons,
    wordsFrom_headerText, List.filter_cons_of_pos (by simp), hwords, ofWords?_eq]

theorem ofDimacs?_toDimacs (f : Cnf) : ofDimacs? f.toDimacs = some f :=
  ofDimacs?_of_lines (List.nil_append _).symm fun _ h => absurd h List.not_mem_nil

end Cnf

/-! ## Numbers of sixty-four bits -/

namespace Literal

/-- The variables whose DIMACS numbers have sixty-four bits, one of them for the sign, stay below
this one, which is one less than the sixty-third power of two. -/
def varLimit : Nat := 0x7FFFFFFFFFFFFFFF

/-- The DIMACS number of a literal in sixty-four bits, where arithmetic wraps around. -/
def toDimacs64 (l : Literal) : Int64 :=
  let n := Int64.ofNat l.var + 1
  if l.sign then n else -n

/-- Below the limit nothing wraps around. -/
theorem toInt_toDimacs64 {l : Literal} (h : l.var < varLimit) :
    l.toDimacs64.toInt = l.toDimacs := by
  have hlimit : l.var + 1 < 2 ^ 63 := by
    have : l.var < 0x7FFFFFFFFFFFFFFF := h
    omega
  have hnext : Int64.ofNat l.var + 1 = Int64.ofNat (l.var + 1) := (Int64.ofNat_add l.var 1).symm
  simp only [toDimacs64, toDimacs, hnext]
  cases l.sign with
  | true => simpa using Int64.toInt_ofNat_of_lt hlimit
  | false => simpa using Int64.toInt_neg_ofNat_of_le (Nat.le_of_lt hlimit)

/-- At the limit a variable and its negation have the same number. -/
example : toDimacs64 ⟨varLimit, true⟩ = toDimacs64 ⟨varLimit, false⟩ := by decide

end Literal

namespace Cnf

/-- The variables of all literals are below the limit of numbers of sixty-four bits. -/
def Numerable (f : Cnf) : Prop := ∀ c ∈ f.clauses, ∀ l ∈ c, l.var < Literal.varLimit

instance (f : Cnf) : Decidable f.Numerable :=
  inferInstanceAs (Decidable (∀ c ∈ f.clauses, ∀ l ∈ c, l.var < Literal.varLimit))

/-- The text of a formula whose literals are written in a given way. -/
def textWith (write : Literal → String) (f : Cnf) : String :=
  "p cnf " ++ toString f.numVars ++ " " ++ toString f.clauses.size ++ "\n" ++
    String.join (f.clauses.toList.map fun c => String.join (c.map fun l => write l ++ " ") ++ "0\n")

/-- The text of a formula with numbers of sixty-four bits. -/
def toDimacs64 (f : Cnf) : String := f.textWith fun l => toString l.toDimacs64

theorem toDimacs_eq_textWith (f : Cnf) : f.toDimacs = f.textWith fun l => toString l.toDimacs := rfl

theorem textWith_congr {f : Cnf} {write write' : Literal → String}
    (h : ∀ c ∈ f.clauses, ∀ l ∈ c, write l = write' l) : f.textWith write = f.textWith write' := by
  have hlines : ∀ c ∈ f.clauses.toList, (c.map fun l => write l ++ " ") =
      c.map fun l => write' l ++ " " := by
    intro c hc
    refine List.map_congr_left fun l hl => ?_
    rw [h c (Array.mem_toList_iff.1 hc) l hl]
  rw [textWith, textWith, List.map_congr_left fun c hc => by rw [hlines c hc]]

/-- Below the limit the text with numbers of sixty-four bits is the text. -/
theorem toDimacs64_eq {f : Cnf} (hf : f.Numerable) : f.toDimacs64 = f.toDimacs := by
  rw [toDimacs_eq_textWith]
  refine textWith_congr fun c hc l hl => ?_
  show toString l.toDimacs64.toInt = _
  rw [Literal.toInt_toDimacs64 (hf c hc l hl)]

/-- **A formula is determined by its text.** Where the numbers of all literals fit into sixty-four
bits, working them out in sixty-four bits gives the same text. It is read as the formula, with its
number of variables and with its clauses and their literals in order, so no other such formula has
this text. -/
theorem dimacs_determines {f : Cnf} (hf : f.Numerable) :
    f.toDimacs64 = f.toDimacs ∧ ofDimacs? f.toDimacs64 = some f ∧
      ∀ g : Cnf, g.Numerable → g.toDimacs64 = f.toDimacs64 → g = f := by
  have hread : ∀ {g : Cnf}, g.Numerable → ofDimacs? g.toDimacs64 = some g := by
    intro g hg
    rw [toDimacs64_eq hg, ofDimacs?_toDimacs]
  refine ⟨toDimacs64_eq hf, hread hf, ?_⟩
  intro g hg htext
  have hsame : some g = some f := by rw [← hread hg, htext, hread hf]
  exact Option.some.inj hsame

/-- Three clauses, one of them empty, with the first variable and the last one below the limit. The
same clauses in another order have another text. -/
theorem dimacs_determines_last_variable :
    let first : Clause := [⟨Literal.varLimit - 1, false⟩, ⟨0, true⟩]
    let last : Clause := [⟨0, false⟩]
    let f : Cnf := { numVars := Literal.varLimit, clauses := #[first, [], last] }
    let g : Cnf := { f with clauses := #[first, last, []] }
    let text := "p cnf 9223372036854775807 3\n-9223372036854775807 1 0\n0\n-1 0\n"
    f.Numerable ∧ g.Numerable ∧ f.toDimacs64 = text ∧ ofDimacs? text = some f ∧
      g.toDimacs64 ≠ text := by
  intro first last f g text
  have hf : f.Numerable := by decide +kernel
  have hg : g.Numerable := by decide +kernel
  have htext : f.toDimacs64 = text := by decide +kernel
  obtain ⟨-, hread, hunique⟩ := dimacs_determines hf
  rw [htext] at hread hunique
  have hne : g ≠ f := by decide
  exact ⟨hf, hg, htext, hread, mt (hunique g hg) hne⟩

end Cnf

end BitUnroll
