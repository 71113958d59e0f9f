import BitUnroll.Proofs.Symbols.Numbering
import BitUnroll.Proofs.Symbols.Rows
import Mathlib.Order.Bounds.Defs

/-!
# What maps remember

Whatever calls a map of variables has seen, it holds for each key what the last call for that key
has set, and nothing for a key that no call was for. So no call has a say in what is read for other
keys, in whatever order the calls were made and wherever they left holes. The same is read from rows
of lists that grow with the calls.

## Main definitions

* `LastSets`: the value that calls, one after the other, set last.
* `Unrolled.Remembers`, `TransitionMap.Remembers`: what is read of a map that calls have led to.

## Main statements

* `read_foldl`: what is read after calls each of which is read back as itself.
* `maps_remember_last_writes`: both kinds of maps hold what was set last.
-/

namespace BitUnroll

/-! ## The last call that sets a value -/

section

variable {M W V : Type} {sets : W → Option V} {writes : List W}

/-- Of the calls that set a value, the last one sets this value. -/
def LastSets (sets : W → Option V) (writes : List W) (v : V) : Prop :=
  ∃ before x after, writes = before ++ x :: after ∧ sets x = some v ∧ ∀ y ∈ after, sets y = none

theorem findSome?_reverse_eq_some_iff {v : V} :
    writes.reverse.findSome? sets = some v ↔ LastSets sets writes v := by
  rw [List.findSome?_eq_some_iff]
  constructor
  · rintro ⟨after, x, before, hwrites, hx, hafter⟩
    refine ⟨before.reverse, x, after.reverse, ?_, hx, ?_⟩
    · simpa using congrArg List.reverse hwrites
    · intro y hy
      exact hafter y (List.mem_reverse.1 hy)
  · rintro ⟨before, x, after, rfl, hx, hafter⟩
    refine ⟨after.reverse, x, before.reverse, by simp, hx, ?_⟩
    intro y hy
    exact hafter y (List.mem_reverse.1 hy)

theorem findSome?_reverse_eq_none_iff :
    writes.reverse.findSome? sets = none ↔ ∀ x ∈ writes, sets x = none := by
  simp only [List.findSome?_eq_none_iff, List.mem_reverse]

/-- If a call is read back as the value that it sets, and changes nothing where it sets none, then
calls are read back as the value that the last of them sets. -/
theorem read_foldl (read : M → Option V) {write : M → W → M}
    (hwrite : ∀ m x, read (write m x) = (sets x).or (read m)) (writes : List W) (m : M) :
    read (writes.foldl write m) = (writes.reverse.findSome? sets).or (read m) := by
  induction writes generalizing m with
  | nil => simp
  | cons x writes ih =>
    rw [List.foldl_cons, ih, hwrite, List.reverse_cons, List.findSome?_append, Option.or_assoc]
    cases hx : sets x <;> simp [hx]

end

/-! ## Maps over timeframes -/

namespace Unrolled

/-- The literal that a call sets in a slot, if it sets one there. -/
def Write.literal? (s : Slot) : Write → Option Literal
  | .bit slot l => if slot = s then some l else none
  | .word place w => if place = ⟨s.timeframe, s.name⟩ then w[s.bit]? else none

/-- Some call sets a literal in a slot. -/
def IsSet (writes : List Write) (s : Slot) : Prop := ∃ x ∈ writes, (x.literal? s).isSome

theorem get?_write (m : Unrolled) (x : Write) (t : Nat) (name : String) (bit : Nat) :
    (m.write x).get? t name bit = (x.literal? ⟨t, name, bit⟩).or (m.get? t name bit) := by
  cases x with
  | bit slot l =>
    obtain ⟨u, other, i⟩ := slot
    rw [write, get?_set]
    by_cases hslot : u = t ∧ other = name ∧ i = bit
    · simp [Write.literal?, hslot]
    · rw [if_neg hslot]
      simp [Write.literal?, hslot]
  | word place w =>
    obtain ⟨u, other⟩ := place
    rw [write, get?_setWord]
    by_cases hplace : u = t ∧ other = name
    · by_cases hbit : bit < w.length
      · simp [Write.literal?, hplace, hbit]
      · simp [Write.literal?, hplace, hbit]
    · rw [if_neg fun h => hplace ⟨h.1, h.2.1⟩]
      simp [Write.literal?, hplace]

/-- What is read for a slot was set by the last call that sets the slot. -/
theorem get?_ofWrites (writes : List Write) (t : Nat) (name : String) (bit : Nat) :
    (ofWrites writes).get? t name bit =
      writes.reverse.findSome? (Write.literal? ⟨t, name, bit⟩) := by
  have hread := read_foldl (fun m => m.get? t name bit)
    (fun m x => get?_write m x t name bit) writes empty
  rw [get?_empty, Option.or_none] at hread
  exact hread

theorem isSome_get?_ofWrites (writes : List Write) (t : Nat) (name : String) (bit : Nat) :
    ((ofWrites writes).get? t name bit).isSome ↔ IsSet writes ⟨t, name, bit⟩ := by
  rw [get?_ofWrites, List.isSome_findSome?, List.any_reverse, List.any_eq_true]
  rfl

namespace Measured

variable {m : Unrolled} {t : Nat} {name : String}

/-- A word goes up to the highest bit of its variable. -/
theorem word?_eq_some_iff_isGreatest (h : m.Measured) {w : Word} :
    m.word? t name = some w ↔
      ∃ k, IsGreatest {bit | (m.get? t name bit).isSome} k ∧
        (∀ bit < k, (m.get? t name bit).isSome) ∧
        w.map some = (List.range (k + 1)).map (m.get? t name) := by
  rw [h.word?_eq_some_iff]
  constructor
  · rintro ⟨hne, hbits⟩
    have hlength : 0 < w.length := List.length_pos_iff.2 hne
    have hsome : ∀ bit, (m.get? t name bit).isSome ↔ bit < w.length := by
      intro bit
      rw [← hbits]
      simp
    refine ⟨w.length - 1, ⟨?_, ?_⟩, ?_, ?_⟩
    · exact (hsome _).2 (by omega)
    · intro bit hbit
      have := (hsome bit).1 hbit
      omega
    · intro bit hbit
      exact (hsome bit).2 (by omega)
    · refine List.ext_getElem? fun bit => ?_
      rw [List.getElem?_map, List.getElem?_map, Nat.sub_add_cancel hlength]
      by_cases hbit : bit < w.length
      · simp [hbit, ← hbits]
      · simp [hbit]
  · rintro ⟨k, ⟨-, hgreatest⟩, -, hmap⟩
    have hlength : w.length = k + 1 := by simpa using congrArg List.length hmap
    refine ⟨List.length_pos_iff.1 (by omega), ?_⟩
    intro bit
    by_cases hbit : bit < k + 1
    · have hget := congrArg (·[bit]?) hmap
      simpa [hbit, hlength] using hget
    · have hnone : ¬(m.get? t name bit).isSome := by
        intro hsome
        have := hgreatest hsome
        omega
      rw [List.getElem?_eq_none (by omega), Option.not_isSome_iff_eq_none.1 hnone]

/-- There is a word where no bit below the highest one is left out. -/
theorem isSome_word?_iff (h : m.Measured) :
    (m.word? t name).isSome ↔ ∃ k, IsGreatest {bit | (m.get? t name bit).isSome} k ∧
      ∀ bit < k, (m.get? t name bit).isSome := by
  constructor
  · intro hword
    obtain ⟨w, hw⟩ := Option.isSome_iff_exists.1 hword
    obtain ⟨k, hk, hbelow, -⟩ := h.word?_eq_some_iff_isGreatest.1 hw
    exact ⟨k, hk, hbelow⟩
  · rintro ⟨k, hk, hbelow⟩
    by_contra hword
    rcases h.word?_eq_none_iff.1 (Option.not_isSome_iff_eq_none.1 hword) with
      hnone | ⟨bit, later, hlt, hnone, hlater⟩
    · have hbit : (m.get? t name k).isSome := hk.1
      rw [hnone k] at hbit
      cases hbit
    · have hbit : (m.get? t name bit).isSome := hbelow bit (Nat.lt_of_lt_of_le hlt (hk.2 hlater))
      rw [hnone] at hbit
      cases hbit

theorem timeframes_eq_succ_iff (h : m.Measured) :
    m.timeframes = t + 1 ↔ IsGreatest {u | ∃ name bit, (m.get? u name bit).isSome} t := by
  rw [h.timeframes_eq_iff]
  constructor
  · rintro ⟨hlt, hlast⟩
    refine ⟨hlast t rfl, ?_⟩
    rintro u ⟨other, bit, hsome⟩
    have := hlt u other bit hsome
    omega
  · rintro ⟨hlast, hgreatest⟩
    refine ⟨?_, ?_⟩
    · intro u other bit hsome
      have := hgreatest ⟨other, bit, hsome⟩
      omega
    · intro u hu
      obtain rfl : t = u := by omega
      exact hlast

theorem timeframes_eq_zero_iff (h : m.Measured) :
    m.timeframes = 0 ↔ ∀ t name bit, ¬(m.get? t name bit).isSome := by
  simp [h.timeframes_eq_iff]

end Measured

/-- A map holds what calls have set, each bit as the last call for that bit has set it. -/
structure Remembers (m : Unrolled) (writes : List Write) : Prop where
  get?_eq_some_iff : ∀ t name bit l, m.get? t name bit = some l ↔
    LastSets (Write.literal? ⟨t, name, bit⟩) writes l
  get?_eq_none_iff : ∀ t name bit, m.get? t name bit = none ↔ ¬IsSet writes ⟨t, name, bit⟩
  /-- A word is there if all bits up to the highest one were set. -/
  isSome_word?_iff : ∀ t name, (m.word? t name).isSome ↔
    ∃ k, IsGreatest {bit | IsSet writes ⟨t, name, bit⟩} k ∧ ∀ bit < k, IsSet writes ⟨t, name, bit⟩
  /-- The word has these bits in their order. -/
  word?_eq_some_iff : ∀ t name w, m.word? t name = some w ↔
    ∃ k, IsGreatest {bit | IsSet writes ⟨t, name, bit⟩} k ∧
      (∀ bit < k, IsSet writes ⟨t, name, bit⟩) ∧
      w.map some = (List.range (k + 1)).map (m.get? t name)
  /-- There is one timeframe more than the number of the last one in which a bit was set. -/
  timeframes_eq_succ_iff : ∀ t, m.timeframes = t + 1 ↔
    IsGreatest {u | ∃ name bit, IsSet writes ⟨u, name, bit⟩} t
  timeframes_eq_zero_iff : m.timeframes = 0 ↔ ∀ s, ¬IsSet writes s

/-- Calls are remembered, in whatever order they were made. -/
theorem remembers_ofWrites (writes : List Write) : (ofWrites writes).Remembers writes where
  get?_eq_some_iff t name bit l := by rw [get?_ofWrites, findSome?_reverse_eq_some_iff]
  get?_eq_none_iff t name bit := by
    rw [← isSome_get?_ofWrites, Option.not_isSome_iff_eq_none]
  isSome_word?_iff t name := by
    simp only [← isSome_get?_ofWrites]
    exact (measured_ofWrites writes).isSome_word?_iff
  word?_eq_some_iff t name w := by
    simp only [← isSome_get?_ofWrites]
    exact (measured_ofWrites writes).word?_eq_some_iff_isGreatest
  timeframes_eq_succ_iff t := by
    simp only [← isSome_get?_ofWrites]
    exact (measured_ofWrites writes).timeframes_eq_succ_iff
  timeframes_eq_zero_iff := by
    rw [(measured_ofWrites writes).timeframes_eq_zero_iff]
    simp only [isSome_get?_ofWrites]
    exact ⟨fun h s => h s.timeframe s.name s.bit, fun h t name bit => h ⟨t, name, bit⟩⟩

end Unrolled

/-! ## Maps for a transition -/

namespace TransitionMap

/-- The map that calls lead to, each of which sets both literals of a named bit. -/
def ofWrites (writes : List (NamedBit × BitPair)) : TransitionMap :=
  writes.foldl (fun m x => m.setPair x.1 x.2) empty

/-- The literals that a call sets for a named bit, if it sets them. -/
def setsPair? (b : NamedBit) (x : NamedBit × BitPair) : Option BitPair :=
  if x.1 = b then some x.2 else none

/-- A map holds for each bit and phase what the last call for that bit has set, and resolves the
bits of its two timeframes to it. -/
structure Remembers (m : TransitionMap) (writes : List (NamedBit × BitPair)) : Prop where
  get?_eq_some_iff : ∀ name bit phase l, m.get? name bit phase = some l ↔
    ∃ pair, LastSets (setsPair? ⟨name, bit⟩) writes pair ∧ pair.at phase = l
  get?_eq_none_iff : ∀ name bit phase, m.get? name bit phase = none ↔
    ∀ x ∈ writes, x.1 ≠ ⟨name, bit⟩
  get_eq_ok_iff : ∀ name bit phase l, m.get name bit phase = .ok l ↔
    m.get? name bit phase = some l
  resolve_zero : ∀ name bit, m.resolver.resolve name bit 0 = m.get name bit .current
  resolve_one : ∀ name bit, m.resolver.resolve name bit 1 = m.get name bit .next

theorem getPair?_setPair_or (m : TransitionMap) (x : NamedBit × BitPair) (b : NamedBit) :
    (m.setPair x.1 x.2).getPair? b = (setsPair? b x).or (m.getPair? b) := by
  rw [getPair?_setPair]
  by_cases hb : x.1 = b <;> simp [setsPair?, hb]

/-- The pair that is read for a bit was set by the last call for that bit. -/
theorem pair?_ofWrites (writes : List (NamedBit × BitPair)) (name : String) (bit : Nat) :
    (ofWrites writes).pair? name bit = writes.reverse.findSome? (setsPair? ⟨name, bit⟩) := by
  have hread := read_foldl (fun m => m.getPair? ⟨name, bit⟩)
    (fun m x => getPair?_setPair_or m x ⟨name, bit⟩) writes empty
  have hempty : empty.getPair? ⟨name, bit⟩ = none := by simp [getPair?, pair?, empty]
  rw [hempty, Option.or_none] at hread
  exact hread

theorem get_eq_ok_iff (m : TransitionMap) (name : String) (bit : Nat) (phase : Phase)
    (l : Literal) : m.get name bit phase = .ok l ↔ m.get? name bit phase = some l := by
  rw [get]
  cases m.get? name bit phase <;> simp

/-- Calls for a transition are remembered, in whatever order they were made. -/
theorem remembers_ofWrites (writes : List (NamedBit × BitPair)) :
    (ofWrites writes).Remembers writes where
  get?_eq_some_iff name bit phase l := by
    simp only [get?, Option.map_eq_some_iff, pair?_ofWrites, findSome?_reverse_eq_some_iff]
  get?_eq_none_iff name bit phase := by
    rw [get?, Option.map_eq_none_iff, pair?_ofWrites, findSome?_reverse_eq_none_iff]
    simp [setsPair?]
  get_eq_ok_iff := get_eq_ok_iff _
  resolve_zero _ _ := rfl
  resolve_one _ _ := rfl

end TransitionMap

/-- The row that calls lead to, each of which sets both literals of a named bit. -/
def Row.ofWrites (writes : List (NamedBit × BitPair)) : Row BitPair :=
  writes.foldl (fun r x => r.set x.1.name x.1.bit x.2) {}

/-- A row of pairs is read as the map for a transition with the same calls. -/
theorem Row.get?_ofWrites (writes : List (NamedBit × BitPair)) (name : String) (bit : Nat) :
    (Row.ofWrites writes).get? name bit = (TransitionMap.ofWrites writes).pair? name bit := by
  have hset : ∀ (r : Row BitPair) (x : NamedBit × BitPair),
      (r.set x.1.name x.1.bit x.2).get? name bit =
        (TransitionMap.setsPair? ⟨name, bit⟩ x).or (r.get? name bit) := by
    intro r x
    obtain ⟨⟨other, i⟩, pair⟩ := x
    rw [get?_set]
    by_cases hbit : other = name ∧ i = bit <;> simp [TransitionMap.setsPair?, hbit]
  have hread := read_foldl (fun r : Row BitPair => r.get? name bit) hset writes {}
  rw [get?_empty, Option.or_none] at hread
  rw [TransitionMap.pair?_ofWrites]
  exact hread

/-! ## Both maps -/

/-- **Maps hold what was set last.** Whatever calls have been made on an empty map, what is read for
a bit of a variable, in a timeframe or in a phase, is what the last call for exactly that bit has
set, and nothing if there was none. The word of a variable is read where the bits were set up to the
highest one, and it is made up of them; the number of timeframes goes up to the last one in which a
bit was set. All this is the same for rows of lists that grow with the calls. -/
theorem maps_remember_last_writes :
    (∀ writes, (Unrolled.ofWrites writes).Remembers writes ∧
      (Rows.ofWrites writes).ReadsAs (Unrolled.ofWrites writes)) ∧
    ∀ writes, (TransitionMap.ofWrites writes).Remembers writes ∧
      ∀ name bit, (Row.ofWrites writes).get? name bit =
        (TransitionMap.ofWrites writes).pair? name bit := by
  constructor
  · intro writes
    exact ⟨Unrolled.remembers_ofWrites writes, Rows.readsAs_ofWrites writes⟩
  · intro writes
    exact ⟨TransitionMap.remembers_ofWrites writes, Row.get?_ofWrites writes⟩

/-- A bit that is set twice, and one that is left out below it. -/
example :
    let m := Unrolled.ofWrites [.bit ⟨3, "x", 1⟩ ⟨7, true⟩, .word ⟨1, "x"⟩ [⟨4, true⟩],
      .bit ⟨3, "x", 1⟩ ⟨8, false⟩]
    m.get? 3 "x" 1 = some ⟨8, false⟩ ∧ m.get? 3 "x" 0 = none ∧ m.get? 2 "x" 1 = none ∧
      m.word? 3 "x" = none ∧ m.word? 1 "x" = some [⟨4, true⟩] ∧ m.timeframes = 4 := by
  decide +kernel

end BitUnroll
