import BitUnroll.Symbols.Unrolled
import Mathlib.Tactic.ByContra

/-!
# Writing to unrolled variables

Literals are written bit by bit or word by word, in any order, over others and with holes between
them. The lengths and the number of timeframes that a map keeps beside its literals follow from
the literals, whatever was written before. So the word of a variable is read from its bits: it is
the list with these bits and no others, and where a bit is left out there is none.

A word that is written does not take back the bits beyond its own.

## Main definitions

* `Unrolled.Write`, `Unrolled.ofWrites`: calls that set literals, and the maps that they lead to.
* `Unrolled.Measured`: the lengths and the number of timeframes are those of the literals.

## Main statements

* `Unrolled.Measured.word?_eq_some_iff`, `Unrolled.Measured.word?_eq_none_iff`: what is read.
* `Unrolled.Measured.word?_setWord_eq_some_iff`, `Unrolled.Measured.word?_setWord_eq_none_iff`: what
  is read where a word was written.
* `Unrolled.word?_setWord`: the same, whatever was written before.
-/

namespace BitUnroll

namespace Unrolled

/-! ## Calls that set literals -/

/-- A call that sets literals: that of one bit, or those of the first bits of a variable. -/
inductive Write where
  | bit (slot : Slot) (l : Literal)
  | word (place : Place) (w : Word)
  deriving DecidableEq, Repr

/-- The map after a call. -/
def write (m : Unrolled) : Write → Unrolled
  | .bit slot l => m.set slot.timeframe slot.name slot.bit l
  | .word place w => m.setWord place.timeframe place.name w

/-- The map that calls lead to from the one without literals. -/
def ofWrites (writes : List Write) : Unrolled := writes.foldl write empty

/-- What setting one bit keeps is kept by setting a word. -/
theorem setFrom_induction {p : Unrolled → Prop} {t : Nat} {name : String} {m : Unrolled}
    (hset : ∀ m bit l, p m → p (m.set t name bit l)) (hm : p m) (bit : Nat) (w : Word) :
    p (m.setFrom t name bit w) := by
  induction w generalizing m bit with
  | nil => exact hm
  | cons l w ih => exact ih (hset m bit l hm) (bit + 1)

theorem get?_setFrom (m : Unrolled) (t u : Nat) (name other : String) (bit i : Nat) (w : Word) :
    (m.setFrom t name bit w).get? u other i =
      if t = u ∧ name = other ∧ bit ≤ i ∧ i < bit + w.length then w[i - bit]?
      else m.get? u other i := by
  induction w generalizing m bit with
  | nil =>
    have h : ¬(bit ≤ i ∧ i < bit + ([] : Word).length) := by simp
    rw [if_neg fun hi => h ⟨hi.2.2.1, hi.2.2.2⟩]
    rfl
  | cons l w ih =>
    rw [setFrom, ih, get?_set]
    by_cases hplace : t = u ∧ name = other
    · obtain ⟨rfl, rfl⟩ := hplace
      rcases Nat.lt_trichotomy i bit with hlt | rfl | hlt
      · rw [if_neg (by omega), if_neg (by omega), if_neg (by omega)]
      · rw [if_neg (by omega), if_pos (by simp), if_pos (by simp)]
        simp
      · obtain ⟨k, rfl⟩ : ∃ k, i = bit + 1 + k := ⟨i - (bit + 1), by omega⟩
        have hk : bit + 1 + k - bit = k + 1 := by omega
        simp only [List.length_cons, true_and, hk, List.getElem?_cons_succ, Nat.add_sub_cancel_left]
        by_cases hlen : k < w.length
        · rw [if_pos (by omega), if_pos (by omega)]
        · rw [if_neg (by omega), if_neg (by omega), if_neg (by omega)]
    · rw [if_neg fun h => hplace ⟨h.1, h.2.1⟩, if_neg fun h => hplace ⟨h.1, h.2.1⟩,
        if_neg fun h => hplace ⟨h.1, h.2.1⟩]

/-- A word that is written sets its own bits and no others. -/
theorem get?_setWord (m : Unrolled) (t u : Nat) (name other : String) (i : Nat) (w : Word) :
    (m.setWord t name w).get? u other i =
      if t = u ∧ name = other ∧ i < w.length then w[i]? else m.get? u other i := by
  simp [setWord, get?_setFrom]

theorem get?_setWord_of_lt (m : Unrolled) (t : Nat) (name : String) {w : Word} {bit : Nat}
    (hbit : bit < w.length) : (m.setWord t name w).get? t name bit = w[bit]? := by
  rw [get?_setWord, if_pos ⟨rfl, rfl, hbit⟩]

theorem get?_setWord_of_le (m : Unrolled) (t : Nat) (name : String) {w : Word} {bit : Nat}
    (hbit : w.length ≤ bit) : (m.setWord t name w).get? t name bit = m.get? t name bit := by
  rw [get?_setWord, if_neg fun h => Nat.not_lt.2 hbit h.2.2]

/-! ## Lengths and timeframes -/

/-- The lengths of variables and the number of timeframes are beyond all literals of a map, and no
further than the last one needs. -/
structure Measured (m : Unrolled) : Prop where
  lt_length : ∀ t name bit, (m.get? t name bit).isSome → ∃ k, m.length? t name = some k ∧ bit < k
  last_bit : ∀ t name k, m.length? t name = some k →
    ∃ bit, k = bit + 1 ∧ (m.get? t name bit).isSome
  lt_timeframes : ∀ t name bit, (m.get? t name bit).isSome → t < m.timeframes
  last_timeframe : ∀ t, m.timeframes = t + 1 → ∃ name bit, (m.get? t name bit).isSome

theorem measured_empty : empty.Measured where
  lt_length t name bit h := by simp at h
  last_bit t name k h := by simp at h
  lt_timeframes t name bit h := by simp at h
  last_timeframe t h := by simp [empty] at h

namespace Measured

variable {m : Unrolled}

/-- Setting a bit moves the ends only where they have to be moved. -/
theorem set (h : m.Measured) (t : Nat) (name : String) (bit : Nat) (l : Literal) :
    (m.set t name bit l).Measured where
  lt_length u other i hi := by
    rw [length?_set]
    rw [get?_set] at hi
    by_cases hplace : t = u ∧ name = other
    · obtain ⟨rfl, rfl⟩ := hplace
      refine ⟨_, if_pos ⟨rfl, rfl⟩, ?_⟩
      by_cases hbit : bit = i
      · omega
      · rw [if_neg fun h => hbit h.2.2] at hi
        obtain ⟨k, hk, hlt⟩ := h.lt_length t name i hi
        rw [hk, Option.getD_some]
        omega
    · rw [if_neg fun h => hplace ⟨h.1, h.2.1⟩] at hi
      rw [if_neg hplace]
      exact h.lt_length u other i hi
  last_bit u other k hk := by
    rw [length?_set] at hk
    by_cases hplace : t = u ∧ name = other
    · obtain ⟨rfl, rfl⟩ := hplace
      rw [if_pos ⟨rfl, rfl⟩] at hk
      obtain rfl := Option.some.inj hk
      -- the last bit is the new one, or it is where it was
      by_cases hlast : (m.length? t name).getD 0 ≤ bit + 1
      · exact ⟨bit, by omega, by simp [get?_set]⟩
      · rcases hlength : m.length? t name with _ | k'
        · simp [hlength] at hlast
        · obtain ⟨i, rfl, hi⟩ := h.last_bit t name k' hlength
          rw [hlength, Option.getD_some] at hlast
          refine ⟨i, by rw [Option.getD_some]; omega, ?_⟩
          rw [get?_set, if_neg fun h => hlast (by omega)]
          exact hi
    · rw [if_neg hplace] at hk
      obtain ⟨i, rfl, hi⟩ := h.last_bit u other k hk
      refine ⟨i, rfl, ?_⟩
      rw [get?_set, if_neg fun h => hplace ⟨h.1, h.2.1⟩]
      exact hi
  lt_timeframes u other i hi := by
    rw [get?_set] at hi
    rw [timeframes_set]
    by_cases hslot : t = u ∧ name = other ∧ bit = i
    · omega
    · rw [if_neg hslot] at hi
      have := h.lt_timeframes u other i hi
      omega
  last_timeframe u hu := by
    rw [timeframes_set] at hu
    by_cases hlast : m.timeframes ≤ t + 1
    · obtain rfl : t = u := by omega
      exact ⟨name, bit, by simp [get?_set]⟩
    · obtain ⟨other, i, hi⟩ := h.last_timeframe u (by omega)
      refine ⟨other, i, ?_⟩
      rw [get?_set, if_neg fun h => hlast (by omega)]
      exact hi

theorem setWord (h : m.Measured) (t : Nat) (name : String) (w : Word) :
    (m.setWord t name w).Measured :=
  setFrom_induction (fun _ bit l hm => hm.set t name bit l) h 0 w

theorem write (h : m.Measured) (x : Write) : (m.write x).Measured := by
  cases x with
  | bit slot l => exact h.set slot.timeframe slot.name slot.bit l
  | word place w => exact h.setWord place.timeframe place.name w

/-- Where a variable has no literal in a timeframe, it has no length there. -/
theorem length?_eq_none_iff (h : m.Measured) (t : Nat) (name : String) :
    m.length? t name = none ↔ ∀ bit, m.get? t name bit = none := by
  constructor
  · intro hlength bit
    rcases hbit : m.get? t name bit with _ | l
    · rfl
    · obtain ⟨k, hk, -⟩ := h.lt_length t name bit (by rw [hbit, Option.isSome_some])
      rw [hlength] at hk
      cases hk
  · intro hbits
    rcases hlength : m.length? t name with _ | k
    · rfl
    · obtain ⟨bit, -, hbit⟩ := h.last_bit t name k hlength
      rw [hbits bit] at hbit
      cases hbit

/-- There is one timeframe more than the number of the last one with a literal. -/
theorem timeframes_eq_iff (h : m.Measured) {n : Nat} :
    m.timeframes = n ↔ (∀ t name bit, (m.get? t name bit).isSome → t < n) ∧
      ∀ t, n = t + 1 → ∃ name bit, (m.get? t name bit).isSome := by
  constructor
  · rintro rfl
    exact ⟨h.lt_timeframes, h.last_timeframe⟩
  · rintro ⟨hlt, hlast⟩
    refine Nat.le_antisymm ?_ ?_
    · rcases ht : m.timeframes with _ | t
      · exact Nat.zero_le n
      · obtain ⟨name, bit, hsome⟩ := h.last_timeframe t ht
        exact hlt t name bit hsome
    · rcases n with _ | t
      · exact Nat.zero_le _
      · obtain ⟨name, bit, hsome⟩ := hlast t rfl
        exact h.lt_timeframes t name bit hsome

end Measured

theorem measured_ofWrites (writes : List Write) : (ofWrites writes).Measured :=
  List.foldlRecOn writes _ measured_empty fun _ hm x _ => hm.write x

/-! ## Reading -/

section

variable {α β : Type} {f : α → Option β}

theorem mapM_eq_some_iff {xs : List α} {ys : List β} :
    xs.mapM f = some ys ↔ xs.map f = ys.map some := by
  induction xs generalizing ys with
  | nil => cases ys <;> simp
  | cons x xs ih =>
    rw [List.mapM_cons]
    cases hx : f x with
    | none => cases ys <;> simp [hx]
    | some y =>
      cases ys with
      | nil => simp [hx, Option.bind_eq_some_iff]
      | cons z zs => simpa [hx, ih, Option.bind_eq_some_iff] using and_comm

theorem mapM_eq_none_iff {xs : List α} : xs.mapM f = none ↔ ∃ x ∈ xs, f x = none := by
  induction xs with
  | nil => simp
  | cons x xs ih =>
    rw [List.mapM_cons]
    cases hx : f x with
    | none => simp [hx]
    | some y => cases hxs : xs.mapM f <;> simp_all

end

namespace Measured

variable {m : Unrolled}

/-- The word of a variable is the list of its literals in their order, if there are any and none is
left out. -/
theorem word?_eq_some_iff (h : m.Measured) {t : Nat} {name : String} {w : Word} :
    m.word? t name = some w ↔ w ≠ [] ∧ ∀ bit, w[bit]? = m.get? t name bit := by
  have hword : m.word? t name = some w ↔ ∃ k, m.length? t name = some k ∧
      (List.range k).map (m.get? t name) = w.map some := by
    simp only [word?, Option.bind_eq_bind, Option.bind_eq_some_iff, mapM_eq_some_iff]
  rw [hword]
  constructor
  · rintro ⟨k, hk, hmap⟩
    obtain ⟨last, rfl, -⟩ := h.last_bit t name k hk
    have hlength : last + 1 = w.length := by simpa using congrArg List.length hmap
    refine ⟨List.length_pos_iff.1 (by omega), fun bit => ?_⟩
    by_cases hbit : bit < last + 1
    · have hget := congrArg (·[bit]?) hmap
      simp only [List.getElem?_map, List.getElem?_range hbit, Option.map_some] at hget
      rw [List.getElem?_eq_getElem (hlength ▸ hbit), Option.map_some] at hget
      rw [List.getElem?_eq_getElem (hlength ▸ hbit), Option.some.inj hget]
    · rw [List.getElem?_eq_none (by omega), eq_comm, ← Option.not_isSome_iff_eq_none]
      intro hsome
      obtain ⟨k, hk', hlt⟩ := h.lt_length t name bit hsome
      rw [hk] at hk'
      obtain rfl := Option.some.inj hk'
      exact hbit hlt
  · rintro ⟨hne, hbits⟩
    have hpos := List.length_pos_iff.2 hne
    have hlast : (m.get? t name (w.length - 1)).isSome := by
      rw [← hbits, List.getElem?_eq_getElem (by omega), Option.isSome_some]
    obtain ⟨k, hk, hlt⟩ := h.lt_length t name _ hlast
    obtain ⟨bit, rfl, hbit⟩ := h.last_bit t name k hk
    rw [← hbits, Option.isSome_iff_ne_none, ne_eq, List.getElem?_eq_none_iff] at hbit
    have hlength : bit + 1 = w.length := by omega
    refine ⟨bit + 1, hk, List.ext_getElem? fun i => ?_⟩
    rw [List.getElem?_map, List.getElem?_map, hlength]
    by_cases hi : i < w.length
    · rw [List.getElem?_range hi, Option.map_some, ← hbits, List.getElem?_eq_getElem hi,
        Option.map_some]
    · rw [List.getElem?_eq_none (Nat.not_lt.1 hi), List.getElem?_eq_none (by simpa using hi)]
      rfl

/-- There is no word where a variable has no literal, or where one is left out. -/
theorem word?_eq_none_iff (h : m.Measured) {t : Nat} {name : String} :
    m.word? t name = none ↔ (∀ bit, m.get? t name bit = none) ∨
      ∃ bit later, bit < later ∧ m.get? t name bit = none ∧ (m.get? t name later).isSome := by
  rcases hlength : m.length? t name with _ | k
  · have hnone := (h.length?_eq_none_iff t name).1 hlength
    simp [word?, hlength, hnone]
  obtain ⟨last, rfl, hlast⟩ := h.last_bit t name k hlength
  have hword : m.word? t name = none ↔ ∃ bit ∈ List.range (last + 1), m.get? t name bit = none := by
    simp only [word?, hlength, Option.bind_eq_bind, Option.bind_some, mapM_eq_none_iff]
  rw [hword]
  constructor
  · rintro ⟨bit, hbit, hnone⟩
    refine .inr ⟨bit, last, ?_, hnone, hlast⟩
    rcases Nat.lt_or_eq_of_le (Nat.lt_succ_iff.1 (List.mem_range.1 hbit)) with hlt | rfl
    · exact hlt
    · rw [hnone] at hlast
      cases hlast
  · rintro (hnone | ⟨bit, later, hlt, hnone, hlater⟩)
    · rw [hnone last] at hlast
      cases hlast
    · obtain ⟨k, hk, hlater⟩ := h.lt_length t name later hlater
      rw [hlength] at hk
      obtain rfl := Option.some.inj hk
      exact ⟨bit, List.mem_range.2 (by omega), hnone⟩

/-- Over a word that is written, the variable reads as that word, followed by the literals that it
had beyond it. -/
theorem word?_setWord_eq_some_iff (h : m.Measured) (t : Nat) (name : String) {w u : Word}
    (hw : w ≠ []) : (m.setWord t name w).word? t name = some u ↔
      w <+: u ∧ ∀ bit, w.length ≤ bit → u[bit]? = m.get? t name bit := by
  rw [(h.setWord t name w).word?_eq_some_iff, List.prefix_iff_getElem?]
  constructor
  · rintro ⟨-, hbits⟩
    refine ⟨fun bit hbit => ?_, fun bit hbit => ?_⟩
    · rw [hbits, get?_setWord_of_lt _ _ _ hbit, List.getElem?_eq_getElem hbit]
    · rw [hbits, get?_setWord_of_le _ _ _ hbit]
  · rintro ⟨hfirst, hbeyond⟩
    refine ⟨?_, fun bit => ?_⟩
    · rintro rfl
      have := hfirst 0 (List.length_pos_iff.2 hw)
      simp at this
    · rcases Nat.lt_or_ge bit w.length with hbit | hbit
      · rw [hfirst bit hbit, get?_setWord_of_lt _ _ _ hbit, List.getElem?_eq_getElem hbit]
      · rw [hbeyond bit hbit, get?_setWord_of_le _ _ _ hbit]

/-- The variable reads as the word that is written exactly if it had no literal beyond it. -/
theorem word?_setWord_eq_self_iff (h : m.Measured) (t : Nat) (name : String) {w : Word}
    (hw : w ≠ []) : (m.setWord t name w).word? t name = some w ↔
      ∀ bit, w.length ≤ bit → m.get? t name bit = none := by
  rw [h.word?_setWord_eq_some_iff t name hw]
  constructor
  · rintro ⟨-, hbeyond⟩ bit hbit
    rw [← hbeyond bit hbit, List.getElem?_eq_none hbit]
  · intro hnone
    exact ⟨List.prefix_rfl, fun bit hbit => by rw [hnone bit hbit, List.getElem?_eq_none hbit]⟩

/-- Over a word that is written, the variable has no word exactly if a literal was left out beyond
that word, before another one. -/
theorem word?_setWord_eq_none_iff (h : m.Measured) (t : Nat) (name : String) {w : Word}
    (hw : w ≠ []) : (m.setWord t name w).word? t name = none ↔
      ∃ bit later, w.length ≤ bit ∧ bit < later ∧ m.get? t name bit = none ∧
        (m.get? t name later).isSome := by
  have hset : ∀ bit, (m.setWord t name w).get? t name bit = none → w.length ≤ bit := by
    intro bit hnone
    by_contra hbit
    rw [get?_setWord_of_lt _ _ _ (Nat.not_le.1 hbit), List.getElem?_eq_none_iff] at hnone
    exact hbit hnone
  rw [(h.setWord t name w).word?_eq_none_iff]
  constructor
  · rintro (hnone | ⟨bit, later, hlt, hnone, hlater⟩)
    · exact absurd (List.length_eq_zero_iff.1 (Nat.le_zero.1 (hset 0 (hnone 0)))) hw
    · have hbit := hset bit hnone
      rw [get?_setWord_of_le _ _ _ hbit] at hnone
      rw [get?_setWord_of_le _ _ _ (by omega)] at hlater
      exact ⟨bit, later, hbit, hlt, hnone, hlater⟩
  · rintro ⟨bit, later, hbit, hlt, hnone, hlater⟩
    refine .inr ⟨bit, later, hlt, ?_, ?_⟩
    · rwa [get?_setWord_of_le _ _ _ hbit]
    · rwa [get?_setWord_of_le _ _ _ (by omega)]

end Measured

/-! ## Reading what was written -/

/-- **What is read where a word was written.** Whatever was written before, the word that is read
begins with the word that was written and goes on with the literals that the variable had beyond it.
So it is the word that was written exactly if there were none; and nothing is read exactly if one of
them was left out before another one. -/
theorem word?_setWord (writes : List Write) (t : Nat) (name : String) {w : Word} (hw : w ≠ []) :
    (∀ u, ((ofWrites writes).setWord t name w).word? t name = some u ↔
      w <+: u ∧ ∀ bit, w.length ≤ bit → u[bit]? = (ofWrites writes).get? t name bit) ∧
    (((ofWrites writes).setWord t name w).word? t name = some w ↔
      ∀ bit, w.length ≤ bit → (ofWrites writes).get? t name bit = none) ∧
    (((ofWrites writes).setWord t name w).word? t name = none ↔
      ∃ bit later, w.length ≤ bit ∧ bit < later ∧ (ofWrites writes).get? t name bit = none ∧
        ((ofWrites writes).get? t name later).isSome) := by
  have hm := measured_ofWrites writes
  exact ⟨fun _ => hm.word?_setWord_eq_some_iff t name hw, hm.word?_setWord_eq_self_iff t name hw,
    hm.word?_setWord_eq_none_iff t name hw⟩

/-- A word of two bits over the first of three, the second of which was left out. -/
theorem word?_setWord_over_hole :
    let m := ofWrites [.bit ⟨1, "x", 0⟩ ⟨1, true⟩, .bit ⟨0, "y", 5⟩ ⟨2, true⟩,
      .bit ⟨1, "x", 2⟩ ⟨3, true⟩]
    let w : Word := [⟨4, true⟩, ⟨5, false⟩]
    w ≠ [] ∧ m.word? 1 "x" = none ∧ (m.setWord 1 "x" w).word? 1 "x" = some (w ++ [⟨3, true⟩]) ∧
      ∀ bit, 2 ≤ bit → (w ++ [⟨3, true⟩])[bit]? = m.get? 1 "x" bit := by
  intro m w
  have hw : w ≠ [] := by decide
  have hread : (m.setWord 1 "x" w).word? 1 "x" = some (w ++ [⟨3, true⟩]) := by decide +kernel
  exact ⟨hw, by decide +kernel, hread, (((word?_setWord _ 1 "x" hw).1 _).1 hread).2⟩

/-- A word over a longer one is read with what is left of the longer one, and a word before a hole
is not read at all. -/
theorem exists_word_not_read_back :
    let w : Word := [⟨3, true⟩]
    let long := ofWrites [.word ⟨0, "x"⟩ [⟨1, true⟩, ⟨2, true⟩]]
    let holed := ofWrites [.bit ⟨0, "x", 2⟩ ⟨1, true⟩]
    w ≠ [] ∧ (long.setWord 0 "x" w).word? 0 "x" = some (w ++ [⟨2, true⟩]) ∧
      (holed.setWord 0 "x" w).word? 0 "x" = none := by
  decide +kernel

end Unrolled

end BitUnroll
