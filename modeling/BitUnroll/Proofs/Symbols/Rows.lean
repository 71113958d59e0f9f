import BitUnroll.Proofs.Symbols.Writes

/-!
# Rows that grow

The literals of variables can be kept in rows, one for each timeframe: for each name a list of its
bits, which grows where a bit beyond its end is set and has holes where bits were left out. There
are as many rows as it takes to reach the last timeframe. Growing leaves all that is read as it is,
so rows are read as the map that the same calls lead to.

## Main definitions

* `Row`, `Rows`: the bits of variables in one timeframe, and in several.
* `Rows.ReadsAs`: rows from which the same is read as from a map.

## Main statements

* `Row.get?_set`, `Rows.get?_set`: setting a bit changes nothing else, however much has to grow.
* `Rows.readsAs_ofWrites`: rows are read as the map with the same calls.
-/

namespace BitUnroll

/-- What is appended to make a list longer is not read where reading it gives nothing. -/
theorem bind_getElem?_rightpad {α β : Type} {f : α → Option β} {a : α} (ha : f a = none)
    (xs : List α) (n i : Nat) : ((xs.rightpad n a)[i]?).bind f = (xs[i]?).bind f := by
  rw [List.rightpad]
  by_cases hi : i < xs.length
  · rw [List.getElem?_append_left hi]
  · rw [List.getElem?_append_right (by omega), List.getElem?_replicate,
      List.getElem?_eq_none (by omega)]
    split <;> simp [ha]

/-- Where a list was made long enough, what was not there is what was appended. -/
theorem getElem?_rightpad {α : Type} {i n : Nat} (hi : i < n) (xs : List α) (a : α) :
    (xs.rightpad n a)[i]? = some ((xs[i]?).getD a) := by
  rw [List.rightpad]
  by_cases hlt : i < xs.length
  · rw [List.getElem?_append_left hlt, List.getElem?_eq_getElem hlt, Option.getD_some]
  · rw [List.getElem?_append_right (by omega), List.getElem?_replicate, if_pos (by omega),
      List.getElem?_eq_none (by omega), Option.getD_none]

/-! ## One row -/

/-- Values of bits, kept for each name in a list that may have holes. -/
structure Row (V : Type) where
  bits : Std.TreeMap String (List (Option V)) := ∅

namespace Row

variable {V : Type}

/-- The value of one bit. -/
def get? (r : Row V) (name : String) (bit : Nat) : Option V :=
  (r.bits[name]?).bind fun vs => (vs[bit]?).bind id

/-- The number of bits that a name has room for. -/
def length? (r : Row V) (name : String) : Option Nat := (r.bits[name]?).map List.length

/-- Sets one bit, after making room for it. -/
def set (r : Row V) (name : String) (bit : Nat) (v : V) : Row V :=
  ⟨r.bits.insert name ((((r.bits[name]?).getD []).rightpad (bit + 1) none).set bit (some v))⟩

@[simp] theorem get?_empty (name : String) (bit : Nat) : ({} : Row V).get? name bit = none := by
  simp [get?]

@[simp] theorem length?_empty (name : String) : ({} : Row V).length? name = none := by
  simp [length?]

theorem get?_set (r : Row V) (name other : String) (bit i : Nat) (v : V) :
    (r.set name bit v).get? other i =
      if name = other ∧ bit = i then some v else r.get? other i := by
  by_cases hname : name = other
  · subst hname
    have hread : ((((r.bits[name]?).getD []).rightpad (bit + 1) none)[i]?).bind id =
        r.get? name i := by
      rw [bind_getElem?_rightpad rfl, get?]
      cases r.bits[name]? <;> simp
    by_cases hbit : bit = i
    · subst hbit
      have hroom : bit < (((r.bits[name]?).getD []).rightpad (bit + 1) none).length := by
        rw [List.length_rightpad]
        omega
      simp only [get?, set, Std.TreeMap.getElem?_insert_self, Option.bind_some,
        List.getElem?_set_self hroom, id_eq, and_self, if_true]
    · simpa [get?, set, List.getElem?_set, hbit] using hread
  · simp [get?, set, Std.TreeMap.getElem?_insert, hname]

theorem length?_set (r : Row V) (name other : String) (bit : Nat) (v : V) :
    (r.set name bit v).length? other =
      if name = other then some (max ((r.length? name).getD 0) (bit + 1))
      else r.length? other := by
  by_cases hname : name = other
  · subst hname
    simp only [length?, set, Std.TreeMap.getElem?_insert_self, Option.map_some, List.length_set,
      List.length_rightpad, if_true]
    cases r.bits[name]? <;> simp [Nat.max_comm]
  · simp [length?, set, Std.TreeMap.getElem?_insert, hname]

end Row

/-! ## A row for each timeframe -/

/-- The literals of variables, in one row for each timeframe. -/
structure Rows where
  rows : List (Row Literal) := []

namespace Rows

/-- The literal of one bit. -/
def get? (m : Rows) (t : Nat) (name : String) (bit : Nat) : Option Literal :=
  (m.rows[t]?).bind (·.get? name bit)

/-- The number of bits that a variable has room for in a timeframe. -/
def length? (m : Rows) (t : Nat) (name : String) : Option Nat :=
  (m.rows[t]?).bind (·.length? name)

/-- All bits of a variable in a timeframe, if it has a list there without holes. -/
def word? (m : Rows) (t : Nat) (name : String) : Option Word := do
  (← (← m.rows[t]?).bits[name]?).mapM id

/-- The number of rows. -/
def timeframes (m : Rows) : Nat := m.rows.length

/-- Sets one bit, after making room for its timeframe. -/
def set (m : Rows) (t : Nat) (name : String) (bit : Nat) (l : Literal) : Rows :=
  ⟨(m.rows.rightpad (t + 1) {}).modify t (·.set name bit l)⟩

/-- Sets the bits of a word from a number on. -/
def setFrom (m : Rows) (t : Nat) (name : String) : Nat → Word → Rows
  | _, [] => m
  | bit, l :: rest => (m.set t name bit l).setFrom t name (bit + 1) rest

/-- The rows after a call. -/
def write (m : Rows) : Unrolled.Write → Rows
  | .bit slot l => m.set slot.timeframe slot.name slot.bit l
  | .word place w => m.setFrom place.timeframe place.name 0 w

/-- The rows that calls lead to from none. -/
def ofWrites (writes : List Unrolled.Write) : Rows := writes.foldl write {}

/-- Of the rows that are read, only the one in which a bit is set changes. -/
theorem bind_rows_set {β : Type} {f : Row Literal → Option β} (hf : f {} = none) (m : Rows)
    (t u : Nat) (name : String) (bit : Nat) (l : Literal) :
    ((m.set t name bit l).rows[u]?).bind f =
      if t = u then f (((m.rows[t]?).getD {}).set name bit l) else (m.rows[u]?).bind f := by
  rw [set, List.getElem?_modify]
  by_cases ht : t = u
  · subst ht
    rw [getElem?_rightpad (Nat.lt_succ_self t)]
    simp
  · simpa [ht] using bind_getElem?_rightpad hf m.rows (t + 1) u

theorem get?_set (m : Rows) (t u : Nat) (name other : String) (bit i : Nat) (l : Literal) :
    (m.set t name bit l).get? u other i =
      if t = u ∧ name = other ∧ bit = i then some l else m.get? u other i := by
  rw [get?, bind_rows_set (Row.get?_empty other i), Row.get?_set]
  by_cases ht : t = u
  · subst ht
    have hread : ((m.rows[t]?).getD {}).get? other i = m.get? t other i := by
      rw [get?]
      cases m.rows[t]? <;> simp
    simp [hread]
  · simp [ht, get?]

theorem length?_set (m : Rows) (t u : Nat) (name other : String) (bit : Nat) (l : Literal) :
    (m.set t name bit l).length? u other =
      if t = u ∧ name = other then some (max ((m.length? t name).getD 0) (bit + 1))
      else m.length? u other := by
  rw [length?, bind_rows_set (Row.length?_empty other), Row.length?_set]
  by_cases ht : t = u
  · subst ht
    have hread : ∀ name, ((m.rows[t]?).getD {}).length? name = m.length? t name := by
      intro name
      rw [length?]
      cases m.rows[t]? <;> simp
    simp [hread]
  · simp [ht, length?]

theorem timeframes_set (m : Rows) (t : Nat) (name : String) (bit : Nat) (l : Literal) :
    (m.set t name bit l).timeframes = max m.timeframes (t + 1) := by
  rw [timeframes, set, List.length_modify, List.length_rightpad, Nat.max_comm]
  rfl

/-- The word of a variable is made up of what is read for its bits. -/
theorem word?_eq (m : Rows) (t : Nat) (name : String) :
    m.word? t name = (m.length? t name).bind fun k => (List.range k).mapM (m.get? t name) := by
  rcases hrow : m.rows[t]? with _ | row
  · simp [word?, length?, hrow]
  · rcases hbits : row.bits[name]? with _ | vs
    · simp [word?, length?, Row.length?, hrow, hbits]
    · have hget : m.get? t name = fun bit => (vs[bit]?).bind id := by
        funext bit
        simp [get?, Row.get?, hrow, hbits]
      have hvs : vs = (List.range vs.length).map (m.get? t name) := by
        rw [hget]
        refine List.ext_getElem? fun bit => ?_
        by_cases hbit : bit < vs.length <;> simp [hbit]
      have hlength : m.length? t name = some vs.length := by
        simp [length?, Row.length?, hrow, hbits]
      have hword : m.word? t name = vs.mapM id := by simp [word?, hrow, hbits]
      rw [hword, hlength, Option.bind_some]
      conv_lhs => rw [hvs, List.mapM_map]
      rfl

/-! ## Rows and maps -/

/-- The same is read from rows as from a map. -/
structure ReadsAs (m : Rows) (u : Unrolled) : Prop where
  get?_eq : ∀ t name bit, m.get? t name bit = u.get? t name bit
  length?_eq : ∀ t name, m.length? t name = u.length? t name
  word?_eq : ∀ t name, m.word? t name = u.word? t name
  timeframes_eq : m.timeframes = u.timeframes

namespace ReadsAs

variable {m : Rows} {u : Unrolled}

/-- The words agree where the bits and their numbers do. -/
theorem of_bits (hget : ∀ t name bit, m.get? t name bit = u.get? t name bit)
    (hlength : ∀ t name, m.length? t name = u.length? t name)
    (htimeframes : m.timeframes = u.timeframes) : m.ReadsAs u where
  get?_eq := hget
  length?_eq := hlength
  word?_eq t name := by
    have hbits : m.get? t name = u.get? t name := funext (hget t name)
    rw [Rows.word?_eq, hlength, hbits]
    rfl
  timeframes_eq := htimeframes

theorem set (h : m.ReadsAs u) (t : Nat) (name : String) (bit : Nat) (l : Literal) :
    (m.set t name bit l).ReadsAs (u.set t name bit l) := by
  refine of_bits ?_ ?_ ?_
  · intro t' other i
    rw [get?_set, Unrolled.get?_set, h.get?_eq]
  · intro t' other
    rw [length?_set, Unrolled.length?_set, h.length?_eq, h.length?_eq]
  · rw [timeframes_set, Unrolled.timeframes_set, h.timeframes_eq]

theorem setFrom (h : m.ReadsAs u) (t : Nat) (name : String) (bit : Nat) (w : Word) :
    (m.setFrom t name bit w).ReadsAs (u.setFrom t name bit w) := by
  induction w generalizing m u bit with
  | nil => exact h
  | cons l w ih => exact ih (h.set t name bit l) (bit + 1)

theorem write (h : m.ReadsAs u) (x : Unrolled.Write) : (m.write x).ReadsAs (u.write x) := by
  cases x with
  | bit slot l => exact h.set slot.timeframe slot.name slot.bit l
  | word place w => exact h.setFrom place.timeframe place.name 0 w

theorem foldl (h : m.ReadsAs u) (writes : List Unrolled.Write) :
    (writes.foldl Rows.write m).ReadsAs (writes.foldl Unrolled.write u) := by
  induction writes generalizing m u with
  | nil => exact h
  | cons x writes ih => exact ih (h.write x)

end ReadsAs

/-- Rows are read as the map to which the same calls lead. -/
theorem readsAs_ofWrites (writes : List Unrolled.Write) :
    (ofWrites writes).ReadsAs (Unrolled.ofWrites writes) := by
  have hempty : ({} : Rows).ReadsAs Unrolled.empty := by
    refine ReadsAs.of_bits ?_ ?_ ?_
    · intro t name bit
      simp [get?]
    · intro t name
      simp [length?]
    · rfl
  exact hempty.foldl writes

end Rows

end BitUnroll
