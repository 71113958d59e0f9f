import BitUnroll.Proofs.Symbols.Writes
import BitUnroll.Symbols.Transition
import Mathlib.Data.List.Nodup

/-!
# The numbers of allocated variables

Allocation goes through the bits of variables in a fixed order and gives each the next variable of
a circuit, or the next two, one for each phase. As the nested loops of an allocation are a single
loop over the list of all bits, the number of a bit's variable is its place in that list.

## Main definitions

* `Build.fill`: a loop that sets keys to values which a computation makes.
* `NamedBit.ofVars`, `Slot.ofVars`: the bits of variables, for one timeframe and for several.
* `Unrolled.Numbered`, `TransitionMap.Numbered`: maps whose literals are numbered in this order.

## Main statements

* `Build.fill_exact`: what such a loop leads to where no key comes twice.
* `allocate_numbered`: what allocation leads to.
-/

namespace BitUnroll

/-- A circuit with some more variables and nothing else. -/
def Circuit.reserve (c : Circuit) (count : Nat) : Circuit :=
  { c with formula := { c.formula with numVars := c.formula.numVars + count } }

@[simp] theorem Circuit.numVars_reserve (c : Circuit) (count : Nat) :
    (c.reserve count).formula.numVars = c.formula.numVars + count := rfl

theorem Circuit.reserve_reserve (c : Circuit) (m n : Nat) :
    (c.reserve m).reserve n = c.reserve (m + n) := by
  simp only [reserve, Nat.add_assoc]

theorem Circuit.fresh_eq (c : Circuit) : fresh c = (⟨c.formula.numVars, true⟩, c.reserve 1) := rfl

/-! ## Setting one key after the other -/

namespace Build

variable {M K V α : Type} {set : M → K → V → M} {make : Build V}

/-- Sets keys, one after the other, to values that a computation makes. -/
def fill (set : M → K → V → M) (make : Build V) (keys : List K) (m : M) : Build M :=
  keys.foldlM (fun m k => do return set m k (← make)) m

theorem fill_cons (k : K) (keys : List K) (m : M) (c : Circuit) :
    fill set make (k :: keys) m c = fill set make keys (set m k (make c).1) (make c).2 := by
  rw [fill, List.foldlM_cons]
  rfl

/-- Loops within a loop are one loop. -/
theorem foldlM_fill (g : α → List K) (xs : List α) (m : M) :
    xs.foldlM (fun m x => fill set make (g x) m) m = fill set make (xs.flatMap g) m := by
  induction xs generalizing m with
  | nil => rfl
  | cons x xs ih =>
    rw [List.foldlM_cons, List.flatMap_cons, fill, fill, List.foldlM_append]
    exact congrArg _ (funext ih)

/-- What setting a key keeps is kept by setting several. -/
theorem fill_induction {p : M → Prop} (hset : ∀ m k v, p m → p (set m k v)) (keys : List K) {m : M}
    (hm : p m) (c : Circuit) : p (fill set make keys m c).1 := by
  induction keys generalizing m c with
  | nil => exact hm
  | cons k keys ih =>
    rw [fill_cons]
    exact ih (hset m k _ hm) _

/-- A loop that sets each key once to values that are made from a number of new variables. The
values have the numbers of their keys, all other keys keep their values, and the circuit has as
many variables more as the values need. -/
theorem fill_exact [DecidableEq K] (get : M → K → Option V) (value : Nat → V) {size : Nat}
    (hget : ∀ m k v k', get (set m k v) k' = if k = k' then some v else get m k')
    (hmake : ∀ c, make c = (value c.formula.numVars, c.reserve size)) {keys : List K}
    (hkeys : keys.Nodup) (m : M) (c : Circuit) :
    (fill set make keys m c).2 = c.reserve (keys.length * size) ∧
      (∀ i k, keys[i]? = some k →
        get (fill set make keys m c).1 k = some (value (c.formula.numVars + i * size))) ∧
      ∀ k, k ∉ keys → get (fill set make keys m c).1 k = get m k := by
  induction keys generalizing m c with
  | nil => exact ⟨by simp [fill, Circuit.reserve]; rfl, by simp, fun _ _ => rfl⟩
  | cons k keys ih =>
    obtain ⟨hk, hkeys⟩ := List.nodup_cons.1 hkeys
    rw [fill_cons, hmake]
    obtain ⟨hcircuit, hset, hkept⟩ := ih hkeys (set m k (value c.formula.numVars)) (c.reserve size)
    refine ⟨?_, fun i k' hi => ?_, fun k' hk' => ?_⟩
    · rw [hcircuit, Circuit.reserve_reserve, List.length_cons, Nat.succ_mul, Nat.add_comm]
    · cases i with
      | zero =>
        obtain rfl : k = k' := Option.some.inj hi
        rw [hkept k hk, hget, if_pos rfl, Nat.zero_mul, Nat.add_zero]
      | succ i =>
        rw [hset i k' hi, Circuit.numVars_reserve, Nat.succ_mul]
        congr 2
        omega
    · obtain ⟨hne, hk'⟩ := not_or.1 (mt List.mem_cons.2 hk')
      rw [hkept k' hk', hget, if_neg (Ne.symm hne)]

end Build

/-! ## The order of bits -/

/-- The number of bits that variables have together. -/
def totalWidth : List (String × Nat) → Nat
  | [] => 0
  | (_, width) :: vars => width + totalWidth vars

namespace NamedBit

/-- The bits of variables, in the order of the variables and of their bits. -/
def ofVars (vars : List (String × Nat)) : List NamedBit :=
  vars.flatMap fun (name, width) => (List.range width).map (NamedBit.mk name)

variable {vars : List (String × Nat)}

theorem length_ofVars (vars : List (String × Nat)) : (ofVars vars).length = totalWidth vars := by
  induction vars with
  | nil => rfl
  | cons x vars ih =>
    rw [ofVars, List.flatMap_cons, List.length_append, List.length_map, List.length_range]
    exact congrArg (x.2 + ·) ih

theorem mem_ofVars {name : String} {bit : Nat} :
    ⟨name, bit⟩ ∈ ofVars vars ↔ ∃ width, (name, width) ∈ vars ∧ bit < width := by
  simp [ofVars]

/-- No bit comes twice where no variable does. -/
theorem nodup_ofVars (hvars : (vars.map (·.1)).Nodup) : (ofVars vars).Nodup := by
  rw [List.Nodup, List.pairwise_map] at hvars
  refine List.nodup_flatMap.2 ⟨fun x _ => ?_, hvars.imp fun hne b hb hb' => ?_⟩
  · exact List.nodup_range.map fun i j h => congrArg NamedBit.bit h
  · obtain ⟨i, -, rfl⟩ := List.mem_map.1 hb
    obtain ⟨j, -, h⟩ := List.mem_map.1 hb'
    exact hne (congrArg NamedBit.name h).symm

/-- The bits of a variable come behind those of the variables before it. -/
theorem getElem?_ofVars {name : String} {width bit : Nat} {before after : List (String × Nat)}
    (hvars : vars = before ++ (name, width) :: after) (hbit : bit < width) :
    (ofVars vars)[totalWidth before + bit]? = some ⟨name, bit⟩ := by
  have hsplit : ofVars vars =
      ofVars before ++ ((List.range width).map (NamedBit.mk name) ++ ofVars after) := by
    rw [hvars, ofVars, List.flatMap_append, List.flatMap_cons]
    rfl
  rw [hsplit, ← length_ofVars, List.getElem?_append_right (Nat.le_add_right _ _),
    Nat.add_sub_cancel_left, List.getElem?_append_left (by simpa using hbit), List.getElem?_map,
    List.getElem?_range hbit, Option.map_some]

end NamedBit

namespace Slot

/-- The slot of a named bit in a timeframe. -/
def ofBit (t : Nat) (b : NamedBit) : Slot := ⟨t, b.name, b.bit⟩

/-- The bits of variables in the first timeframes, one timeframe after the other. -/
def ofVars (vars : List (String × Nat)) (timeframes : Nat) : List Slot :=
  (List.range timeframes).flatMap fun t => (NamedBit.ofVars vars).map (ofBit t)

variable {vars : List (String × Nat)} {timeframes : Nat}

theorem length_ofVars (vars : List (String × Nat)) (timeframes : Nat) :
    (ofVars vars timeframes).length = timeframes * totalWidth vars := by
  simp [ofVars, List.length_flatMap, NamedBit.length_ofVars]

theorem mem_ofVars {t : Nat} {name : String} {bit : Nat} :
    ⟨t, name, bit⟩ ∈ ofVars vars timeframes ↔
      t < timeframes ∧ ∃ width, (name, width) ∈ vars ∧ bit < width := by
  simp only [ofVars, List.mem_flatMap, List.mem_range, List.mem_map, ofBit, Slot.mk.injEq]
  constructor
  · rintro ⟨_, ht, b, hb, rfl, rfl, rfl⟩
    exact ⟨ht, NamedBit.mem_ofVars.1 hb⟩
  · rintro ⟨ht, hbit⟩
    exact ⟨t, ht, ⟨name, bit⟩, NamedBit.mem_ofVars.2 hbit, rfl, rfl, rfl⟩

theorem nodup_ofVars (hvars : (vars.map (·.1)).Nodup) (timeframes : Nat) :
    (ofVars vars timeframes).Nodup := by
  refine List.nodup_flatMap.2 ⟨fun t _ => ?_, List.nodup_range.imp fun hne s hs hs' => ?_⟩
  · refine (NamedBit.nodup_ofVars hvars).map fun b b' h => ?_
    obtain ⟨-, hname, hbit⟩ := Slot.mk.inj h
    cases b
    cases b'
    exact congrArg₂ NamedBit.mk hname hbit
  · obtain ⟨b, -, rfl⟩ := List.mem_map.1 hs
    obtain ⟨b', -, h⟩ := List.mem_map.1 hs'
    exact hne (Slot.mk.inj h).1.symm

/-- The bits of a timeframe come behind those of the timeframes before it. -/
theorem getElem?_ofVars {t i : Nat} {b : NamedBit} (ht : t < timeframes)
    (hb : (NamedBit.ofVars vars)[i]? = some b) :
    (ofVars vars timeframes)[t * totalWidth vars + i]? = some (ofBit t b) := by
  obtain ⟨later, rfl⟩ := Nat.exists_eq_add_of_lt ht
  have hsplit : ofVars vars (t + later + 1) = ofVars vars t ++
      ((NamedBit.ofVars vars).map (ofBit t) ++
        (List.range later).flatMap fun u => (NamedBit.ofVars vars).map (ofBit (t + 1 + u))) := by
    rw [ofVars, Nat.add_right_comm, List.range_add, List.flatMap_append, List.range_succ,
      List.flatMap_append, List.flatMap_singleton, List.flatMap_map, List.append_assoc]
    rfl
  have hlt := (List.getElem?_eq_some_iff.1 hb).1
  rw [hsplit, ← length_ofVars, List.getElem?_append_right (Nat.le_add_right _ _),
    Nat.add_sub_cancel_left, List.getElem?_append_left (by simpa using hlt), List.getElem?_map, hb,
    Option.map_some]

end Slot

/-! ## Allocation in timeframes -/

namespace Unrolled

open Build (fill)

/-- Sets the literal of a slot. -/
def setSlot (m : Unrolled) (s : Slot) (l : Literal) : Unrolled := m.set s.timeframe s.name s.bit l

/-- The literal of a slot. -/
def getSlot? (m : Unrolled) (s : Slot) : Option Literal := m.get? s.timeframe s.name s.bit

theorem getSlot?_setSlot (m : Unrolled) (s : Slot) (l : Literal) (s' : Slot) :
    (m.setSlot s l).getSlot? s' = if s = s' then some l else m.getSlot? s' := by
  obtain ⟨t, name, bit⟩ := s
  obtain ⟨u, other, i⟩ := s'
  simp [setSlot, getSlot?, get?_set]

theorem allocateBits_eq_fill (t : Nat) (name : String) (bit count : Nat) (m : Unrolled) :
    allocateBits t name bit count m =
      fill setSlot Circuit.fresh ((List.range' bit count).map (Slot.mk t name)) m := by
  induction count generalizing bit m with
  | zero => rfl
  | succ count ih =>
    funext c
    rw [List.range'_succ, List.map_cons, Build.fill_cons, ← ih]
    rfl

theorem allocateVars_eq_fill (t : Nat) (vars : List (String × Nat)) (m : Unrolled) :
    allocateVars t vars m =
      fill setSlot Circuit.fresh ((NamedBit.ofVars vars).map (Slot.ofBit t)) m := by
  simp only [allocateVars, allocateBits_eq_fill, ← List.range_eq_range', Build.foldlM_fill,
    NamedBit.ofVars, List.map_flatMap, List.map_map]
  rfl

/-- The loops of an allocation are one loop over all slots. -/
theorem allocate_eq_fill (vars : List (String × Nat)) (timeframes : Nat) :
    allocate vars timeframes = fill setSlot Circuit.fresh (Slot.ofVars vars timeframes) empty := by
  simp only [allocate, allocateVars_eq_fill, Build.foldlM_fill, Slot.ofVars]

theorem measured_allocate (vars : List (String × Nat)) (timeframes : Nat) (c : Circuit) :
    (allocate vars timeframes c).1.Measured := by
  rw [allocate_eq_fill]
  exact Build.fill_induction (fun _ s l hm => hm.set s.timeframe s.name s.bit l) _ measured_empty c

/-- The literals of a map are those of successive variables from a first one on, in the order of
timeframes, of variables and of their bits, and there are no others. -/
structure Numbered (m : Unrolled) (vars : List (String × Nat)) (timeframes first : Nat) :
    Prop where
  get?_eq : ∀ before name width after, vars = before ++ (name, width) :: after →
    ∀ t < timeframes, ∀ bit < width, m.get? t name bit =
      some ⟨first + t * totalWidth vars + totalWidth before + bit, true⟩
  get?_eq_none : ∀ t name bit, ¬(t < timeframes ∧ ∃ width, (name, width) ∈ vars ∧ bit < width) →
    m.get? t name bit = none
  /-- Different bits have different variables. -/
  var_injective : ∀ t name bit l u other i l', m.get? t name bit = some l →
    m.get? u other i = some l' → l.var = l'.var → t = u ∧ name = other ∧ bit = i
  /-- The word of a variable that has bits is there with all of them. -/
  word?_eq : ∀ before name width after, vars = before ++ (name, width) :: after →
    ∀ t < timeframes, 0 < width → m.word? t name =
      some ((List.range width).map fun bit =>
        ⟨first + t * totalWidth vars + totalWidth before + bit, true⟩)

/-- What is read of successive literals. -/
theorem Numbered.of_getSlot? {m : Unrolled} {vars : List (String × Nat)} {timeframes first : Nat}
    (hm : m.Measured) (hvars : (vars.map (·.1)).Nodup)
    (hset : ∀ i s, (Slot.ofVars vars timeframes)[i]? = some s →
      m.getSlot? s = some ⟨first + i, true⟩)
    (hnone : ∀ s, s ∉ Slot.ofVars vars timeframes → m.getSlot? s = none) :
    m.Numbered vars timeframes first := by
  have hget : ∀ before name width after, vars = before ++ (name, width) :: after →
      ∀ t < timeframes, ∀ bit < width, m.get? t name bit =
        some ⟨first + t * totalWidth vars + totalWidth before + bit, true⟩ := by
    intro before name width after hsplit t ht bit hbit
    have h := hset _ _ (Slot.getElem?_ofVars ht (NamedBit.getElem?_ofVars hsplit hbit))
    rwa [← Nat.add_assoc, ← Nat.add_assoc] at h
  have hnone' : ∀ t name bit, ¬(t < timeframes ∧ ∃ width, (name, width) ∈ vars ∧ bit < width) →
      m.get? t name bit = none := fun t name bit h => hnone ⟨t, name, bit⟩ (mt Slot.mem_ofVars.1 h)
  refine ⟨hget, hnone', ?_, ?_⟩
  · -- a literal that is there has the place of its slot, and there is one slot at a place
    have hplace : ∀ s l, m.getSlot? s = some l →
        (Slot.ofVars vars timeframes)[l.var - first]? = some s ∧ first ≤ l.var := by
      intro s l hl
      by_cases hs : s ∈ Slot.ofVars vars timeframes
      · obtain ⟨i, hi⟩ := List.mem_iff_getElem?.1 hs
        rw [hset i s hi] at hl
        obtain rfl := Option.some.inj hl
        rw [Nat.add_sub_cancel_left]
        exact ⟨hi, Nat.le_add_right _ _⟩
      · rw [hnone s hs] at hl
        cases hl
    intro t name bit l u other i l' hl hl' hvar
    have h := (hplace ⟨t, name, bit⟩ l hl).1
    rw [hvar, (hplace ⟨u, other, i⟩ l' hl').1] at h
    cases h
    exact ⟨rfl, rfl, rfl⟩
  · intro before name width after hsplit t ht hwidth
    rw [hm.word?_eq_some_iff]
    refine ⟨by simp; omega, fun bit => ?_⟩
    by_cases hbit : bit < width
    · rw [hget before name width after hsplit t ht bit hbit, List.getElem?_map,
        List.getElem?_range hbit, Option.map_some]
    · rw [hnone' t name bit, List.getElem?_eq_none (by simpa using hbit)]
      rintro ⟨-, other, hother, hlt⟩
      have hmem : (name, width) ∈ vars := by simp [hsplit]
      have := List.inj_on_of_nodup_map hvars hother hmem rfl
      exact hbit ((Prod.mk.inj this).2 ▸ hlt)

/-- Allocation in timeframes takes as many variables as there are bits, and numbers them. -/
theorem numbered_allocate {vars : List (String × Nat)} (hvars : (vars.map (·.1)).Nodup)
    (timeframes : Nat) (c : Circuit) :
    (allocate vars timeframes c).2 = c.reserve (timeframes * totalWidth vars) ∧
      (allocate vars timeframes c).1.Numbered vars timeframes c.formula.numVars := by
  have hm := measured_allocate vars timeframes c
  rw [allocate_eq_fill] at hm ⊢
  obtain ⟨hcircuit, hset, hnone⟩ := Build.fill_exact getSlot? (fun x => ⟨x, true⟩) getSlot?_setSlot
    Circuit.fresh_eq (Slot.nodup_ofVars hvars timeframes) empty c
  rw [Nat.mul_one, Slot.length_ofVars] at hcircuit
  simp only [Nat.mul_one] at hset
  exact ⟨hcircuit, .of_getSlot? hm hvars hset fun s hs => (hnone s hs).trans (get?_empty _ _ _)⟩

end Unrolled

/-! ## Allocation for a transition -/

namespace TransitionMap

open Build (fill)

/-- Sets both literals of a named bit. -/
def setPair (m : TransitionMap) (b : NamedBit) (pair : BitPair) : TransitionMap :=
  m.set b.name b.bit pair.current pair.next

/-- The literals of a named bit. -/
def getPair? (m : TransitionMap) (b : NamedBit) : Option BitPair := m.pair? b.name b.bit

theorem getPair?_setPair (m : TransitionMap) (b : NamedBit) (pair : BitPair) (b' : NamedBit) :
    (m.setPair b pair).getPair? b' = if b = b' then some pair else m.getPair? b' := by
  obtain ⟨name, bit⟩ := b
  obtain ⟨other, i⟩ := b'
  simp [setPair, getPair?, pair?_set]

/-- A fresh pair of literals. -/
def freshPair : Build BitPair := do
  return ⟨← Circuit.fresh, ← Circuit.fresh⟩

theorem freshPair_eq (c : Circuit) : freshPair c =
    (⟨⟨c.formula.numVars, true⟩, ⟨c.formula.numVars + 1, true⟩⟩, c.reserve 2) := rfl

theorem allocateBits_eq_fill (name : String) (bit count : Nat) (m : TransitionMap) :
    allocateBits name bit count m =
      fill setPair freshPair ((List.range' bit count).map (NamedBit.mk name)) m := by
  induction count generalizing bit m with
  | zero => rfl
  | succ count ih =>
    funext c
    rw [List.range'_succ, List.map_cons, Build.fill_cons, ← ih]
    rfl

/-- The loops of an allocation are one loop over all named bits. -/
theorem allocate_eq_fill (vars : List (String × Nat)) :
    allocate vars = fill setPair freshPair (NamedBit.ofVars vars) empty := by
  simp only [allocate, allocateBits_eq_fill, ← List.range_eq_range', Build.foldlM_fill,
    NamedBit.ofVars]

/-- The literals of a map are those of successive variables from a first one on, two for each bit,
in the order of variables and of their bits, and there are no others. -/
structure Numbered (m : TransitionMap) (vars : List (String × Nat)) (first : Nat) : Prop where
  get?_eq : ∀ before name width after, vars = before ++ (name, width) :: after → ∀ bit < width,
    m.get? name bit .current = some ⟨first + 2 * (totalWidth before + bit), true⟩ ∧
      m.get? name bit .next = some ⟨first + 2 * (totalWidth before + bit) + 1, true⟩
  get?_eq_none : ∀ name bit phase, ¬(∃ width, (name, width) ∈ vars ∧ bit < width) →
    m.get? name bit phase = none
  /-- Different bits have different variables, and so have the phases of a bit. -/
  var_injective : ∀ name bit phase l other i phase' l', m.get? name bit phase = some l →
    m.get? other i phase' = some l' → l.var = l'.var → name = other ∧ bit = i ∧ phase = phase'

/-- What is read of successive pairs. -/
theorem Numbered.of_getPair? {m : TransitionMap} {vars : List (String × Nat)} {first : Nat}
    (hset : ∀ i b, (NamedBit.ofVars vars)[i]? = some b →
      m.getPair? b = some ⟨⟨first + i * 2, true⟩, ⟨first + i * 2 + 1, true⟩⟩)
    (hnone : ∀ b, b ∉ NamedBit.ofVars vars → m.getPair? b = none) : m.Numbered vars first where
  get?_eq before name width after hsplit bit hbit := by
    have h := hset _ _ (NamedBit.getElem?_ofVars hsplit hbit)
    rw [Nat.mul_comm] at h
    simp only [get?, show m.pair? name bit = _ from h, Option.map_some]
    exact ⟨rfl, rfl⟩
  get?_eq_none name bit phase h := by
    have hpair : m.pair? name bit = none := hnone ⟨name, bit⟩ (mt NamedBit.mem_ofVars.1 h)
    simp only [get?, hpair, Option.map_none]
  var_injective := by
    -- a literal that is there has the place of its bit, and its phase says which of two it is
    have hplace : ∀ name bit phase l, m.get? name bit phase = some l →
        ∃ i, (NamedBit.ofVars vars)[i]? = some ⟨name, bit⟩ ∧
          l.var = match phase with
            | .current => first + i * 2
            | .next => first + i * 2 + 1 := by
      intro name bit phase l hl
      obtain ⟨pair, hpair, rfl⟩ := Option.map_eq_some_iff.1 hl
      by_cases hb : ⟨name, bit⟩ ∈ NamedBit.ofVars vars
      · obtain ⟨i, hi⟩ := List.mem_iff_getElem?.1 hb
        obtain rfl := Option.some.inj ((hset i _ hi).symm.trans hpair)
        exact ⟨i, hi, by cases phase <;> rfl⟩
      · cases (hnone _ hb).symm.trans hpair
    intro name bit phase l other i phase' l' hl hl' hvar
    obtain ⟨k, hk, hl⟩ := hplace name bit phase l hl
    obtain ⟨k', hk', hl'⟩ := hplace other i phase' l' hl'
    obtain ⟨rfl, rfl⟩ : k = k' ∧ phase = phase' := by
      cases phase <;> cases phase' <;> simp only [and_true, and_false, reduceCtorEq] at * <;> omega
    rw [hk] at hk'
    cases hk'
    exact ⟨rfl, rfl, rfl⟩

/-- Allocation for a transition takes two variables for each bit, and numbers them. -/
theorem numbered_allocate {vars : List (String × Nat)} (hvars : (vars.map (·.1)).Nodup)
    (c : Circuit) :
    (allocate vars c).2 = c.reserve (2 * totalWidth vars) ∧
      (allocate vars c).1.Numbered vars c.formula.numVars := by
  rw [allocate_eq_fill]
  obtain ⟨hcircuit, hset, hnone⟩ := Build.fill_exact getPair?
    (fun x => ⟨⟨x, true⟩, ⟨x + 1, true⟩⟩) getPair?_setPair freshPair_eq
    (NamedBit.nodup_ofVars hvars) empty c
  rw [NamedBit.length_ofVars, Nat.mul_comm] at hcircuit
  exact ⟨hcircuit, .of_getPair? hset fun b hb => by rw [hnone b hb]; simp [getPair?, pair?, empty]⟩

end TransitionMap

/-! ## Both allocations -/

/-- **Allocation is fresh and exact.** Where no variable comes twice, allocation adds one variable
to a circuit for each bit of each variable in each timeframe, or two for each bit of a transition,
and nothing else. The literals are the positive ones of the new variables in order, of which no two
are the same, and no other bit has a literal. -/
theorem allocate_numbered {vars : List (String × Nat)} (hvars : (vars.map (·.1)).Nodup)
    (c : Circuit) :
    (∀ timeframes,
      (Unrolled.allocate vars timeframes c).2 = c.reserve (timeframes * totalWidth vars) ∧
      (Unrolled.allocate vars timeframes c).1.Numbered vars timeframes c.formula.numVars) ∧
    (TransitionMap.allocate vars c).2 = c.reserve (2 * totalWidth vars) ∧
    (TransitionMap.allocate vars c).1.Numbered vars c.formula.numVars :=
  ⟨fun timeframes => Unrolled.numbered_allocate hvars timeframes c,
    TransitionMap.numbered_allocate hvars c⟩

/-- Three variables, one of which has no bits, behind a variable that is there already. -/
theorem allocate_numbered_three_variables :
    let vars := [("a", 2), ("n", 0), ("b", 1)]
    let c := (Circuit.fresh (.initial {})).2
    (vars.map (·.1)).Nodup ∧
      (Unrolled.allocate vars 2 c).2.formula = { numVars := 8, clauses := #[[.top]] } ∧
      (Unrolled.allocate vars 2 c).1.word? 1 "a" = some [⟨5, true⟩, ⟨6, true⟩] ∧
      (Unrolled.allocate vars 2 c).1.word? 1 "b" = some [⟨7, true⟩] ∧
      (Unrolled.allocate vars 2 c).1.get? 2 "b" 0 = none ∧
      (TransitionMap.allocate vars c).1.get? "b" 0 .next = some ⟨7, true⟩ := by
  intro vars c
  have hvars : (vars.map (·.1)).Nodup := by decide
  obtain ⟨hunrolled, -, htransition⟩ := allocate_numbered hvars c
  obtain ⟨hcircuit, hm⟩ := hunrolled 2
  refine ⟨hvars, by rw [hcircuit]; rfl, ?_, ?_, ?_, ?_⟩
  · exact hm.word?_eq [] "a" 2 [("n", 0), ("b", 1)] rfl 1 (by decide) (by decide)
  · exact hm.word?_eq [("a", 2), ("n", 0)] "b" 1 [] rfl 1 (by decide) (by decide)
  · exact hm.get?_eq_none 2 "b" 0 fun h => absurd h.1 (by decide)
  · exact (htransition.get?_eq [("a", 2), ("n", 0)] "b" 1 [] rfl 0 (by decide)).2

end BitUnroll
