import BitUnroll.Proofs.Lowering.Rules
import BitUnroll.Proofs.Word.Lengths
import Mathlib.Data.Set.Lattice

/-!
# Questions of lowering computations

Lowering asks for bits of variables. A resolver's questions are noted in the order in which they
are put; without a resolver a question is seen from the bit that has a literal from then on. The
rules here say which questions a computation may ask, that it asks all of them where it succeeds,
and that nothing makes it crash but a question without an answer.

## Main definitions

* `Symbols.note`, `Symbols.Seen`: a question, and the questions that a state has seen.
* `Lower.Looks`: the questions of a lowering computation, and what is known of its result.
-/

namespace BitUnroll

namespace Symbols

variable {symbols : Symbols} {s : Lowering} {n : Read}

/-- The note of a question for a bit of a variable. Without a resolver there are no timeframes, and
the next value of a variable has a name of its own. -/
def note (symbols : Symbols) (phase : Phase) (frame : Frame) (name : String) (bit : Nat) : Read :=
  match symbols, phase with
  | .mapped _, phase => ⟨name, bit, phase.timeframe frame⟩
  | .onDemand, .current => ⟨name, bit, 0⟩
  | .onDemand, .next => ⟨primed name, bit, 0⟩

/-- The notes of questions for some bits in a row. -/
def notes (symbols : Symbols) (phase : Phase) (frame : Frame) (name : String) (first count : Nat) :
    Set Read :=
  {n | ∃ j, first ≤ j ∧ j < first + count ∧ n = symbols.note phase frame name j}

/-- A state has seen a question: it is noted, or its bit has a literal. -/
def Seen (symbols : Symbols) (s : Lowering) (n : Read) : Prop :=
  match symbols with
  | .mapped _ => n ∈ s.reads
  | .onDemand => n.timeframe = 0 ∧ (s.bound[(⟨n.name, n.bit⟩ : NamedBit)]?).isSome

/-- A question without an answer. -/
def Misses (symbols : Symbols) (n : Read) (miss : Miss) : Prop :=
  match symbols with
  | .mapped r => r.resolve n.name n.bit n.timeframe = .error miss
  | .onDemand => False

@[simp] theorem notes_zero (phase : Phase) (frame : Frame) (name : String) (first : Nat) :
    symbols.notes phase frame name first 0 = ∅ := by
  ext n
  simp only [notes, Set.mem_ofPred_eq, Set.mem_empty_iff_false, iff_false]
  rintro ⟨j, hle, hlt, -⟩
  omega

theorem notes_succ (phase : Phase) (frame : Frame) (name : String) (first count : Nat) :
    symbols.notes phase frame name first (count + 1) =
      {symbols.note phase frame name first} ∪ symbols.notes phase frame name (first + 1) count := by
  ext n
  simp only [notes, Set.mem_ofPred_eq, Set.mem_union, Set.mem_singleton_iff]
  constructor
  · rintro ⟨j, hle, hlt, hn⟩
    by_cases h : first = j
    · exact .inl (h ▸ hn)
    · exact .inr ⟨j, by omega, by omega, hn⟩
  · rintro (hn | ⟨j, hle, hlt, hn⟩)
    · exact ⟨first, Nat.le_refl _, by omega, hn⟩
    · exact ⟨j, by omega, by omega, hn⟩

end Symbols

namespace Lower

variable {α β : Type} {symbols : Symbols} {asks asks' : Set Read} {post : α → Prop}

/-- A computation asks some questions, none but these whatever the state and all of them where it
succeeds. Its result has a property, and only a question without an answer makes it crash, once it
was put. -/
structure Looks (symbols : Symbols) (x : Lower α) (asks : Set Read) (post : α → Prop) : Prop where
  kept : ∀ s n, symbols.Seen s n → symbols.Seen (x.run s).2 n
  asked : ∀ s n, symbols.Seen (x.run s).2 n → symbols.Seen s n ∨ n ∈ asks
  result : ∀ s a, (x.run s).1 = .ok a → (∀ n ∈ asks, symbols.Seen (x.run s).2 n) ∧ post a
  crash : ∀ s c, (x.run s).1 = .error (.crashed c) →
    ∃ miss, c = .missing miss ∧
      ∃ n ∈ asks, symbols.Misses n miss ∧ symbols.Seen (x.run s).2 n

/-! ## Structure -/

theorem Looks.pure {a : α} (h : post a) : Looks symbols (Pure.pure a) ∅ post where
  kept _ _ hn := hn
  asked _ _ hn := .inl hn
  result _ _ hb := ⟨nofun, Except.ok.inj hb ▸ h⟩
  crash _ _ hc := nomatch hc

/-- What is refused asks nothing, whatever it could have asked. -/
theorem looks_refuse (e : LoweringError) : Looks symbols (refuse e) asks post where
  kept _ _ hn := hn
  asked _ _ hn := .inl hn
  result _ _ hb := nomatch hb
  crash _ _ hc := nomatch hc

/-- A sequence asks what its parts ask. -/
theorem Looks.bind {x : Lower α} {f : α → Lower β} {mid : α → Prop} {post : β → Prop}
    (hx : Looks symbols x asks mid) (hf : ∀ a, mid a → Looks symbols (f a) asks' post) :
    Looks symbols (x >>= f) (asks ∪ asks') post := by
  have hrun : ∀ s, ((∃ e, (x.run s).1 = .error e ∧ (x >>= f).run s = (.error e, (x.run s).2)) ∨
      ∃ a, mid a ∧ (∀ n ∈ asks, symbols.Seen (x.run s).2 n) ∧
        (x >>= f).run s = (f a).run (x.run s).2) := by
    intro s
    have hresult := hx.result s
    rw [run_bind]
    rcases h : (x.run s : Except Fault α × Lowering) with ⟨e | a, s'⟩ <;> rw [h] at hresult
    · exact .inl ⟨e, rfl, rfl⟩
    · exact .inr ⟨a, (hresult a rfl).2, (hresult a rfl).1, rfl⟩
  refine ⟨fun s n hn => ?_, fun s n hn => ?_, fun s b hb => ?_, fun s c hc => ?_⟩
  · rcases hrun s with ⟨e, -, h⟩ | ⟨a, ha, -, h⟩ <;> rw [h]
    · exact hx.kept s n hn
    · exact (hf a ha).kept _ n (hx.kept s n hn)
  · rcases hrun s with ⟨e, -, h⟩ | ⟨a, ha, -, h⟩ <;> rw [h] at hn
    · exact (hx.asked s n hn).imp_right .inl
    · rcases (hf a ha).asked _ n hn with hn | hn
      · exact (hx.asked s n hn).imp_right .inl
      · exact .inr (.inr hn)
  · rcases hrun s with ⟨e, -, h⟩ | ⟨a, ha, hseen, h⟩ <;> rw [h] at hb ⊢
    · cases hb
    · obtain ⟨hall, hpost⟩ := (hf a ha).result _ b hb
      exact ⟨fun n hn => hn.elim (fun hn => (hf a ha).kept _ n (hseen n hn)) (hall n), hpost⟩
  · rcases hrun s with ⟨e, he, h⟩ | ⟨a, ha, -, h⟩ <;> rw [h] at hc ⊢
    · obtain rfl := Except.error.inj hc
      obtain ⟨miss, hmiss, n, hn, hcrash⟩ := hx.crash s c he
      exact ⟨miss, hmiss, n, .inl hn, hcrash⟩
    · obtain ⟨miss, hmiss, n, hn, hcrash⟩ := (hf a ha).crash _ c hc
      exact ⟨miss, hmiss, n, .inr hn, hcrash⟩

/-- After a computation that asks nothing, a sequence asks what its second part asks. -/
theorem Looks.then {x : Lower α} {f : α → Lower β} {mid : α → Prop} {post : β → Prop}
    (hx : Looks symbols x ∅ mid) (hf : ∀ a, mid a → Looks symbols (f a) asks post) :
    Looks symbols (x >>= f) asks post := Set.empty_union asks ▸ hx.bind hf

/-- Before a computation that asks nothing, a sequence asks what its first part asks. -/
theorem Looks.finally {x : Lower α} {f : α → Lower β} {mid : α → Prop} {post : β → Prop}
    (hx : Looks symbols x asks mid) (hf : ∀ a, mid a → Looks symbols (f a) ∅ post) :
    Looks symbols (x >>= f) asks post := Set.union_empty asks ▸ hx.bind hf

theorem Looks.imp {x : Lower α} {mid : α → Prop} (hx : Looks symbols x asks mid)
    (h : ∀ a, mid a → post a) : Looks symbols x asks post :=
  ⟨hx.kept, hx.asked, fun s a ha => ⟨(hx.result s a ha).1, h a (hx.result s a ha).2⟩, hx.crash⟩

/-- The same questions in other words. -/
theorem Looks.congr {x : Lower α} (hx : Looks symbols x asks post) (h : asks = asks') :
    Looks symbols x asks' post := h ▸ hx

/-- A computation that stops nowhere and changes no more than the circuit asks nothing. -/
theorem looks_of_run {x : Lower α} (h : ∀ s, ∃ a circuit,
    x.run s = (.ok a, { s with circuit := circuit }) ∧ post a) : Looks symbols x ∅ post where
  kept s n hn := by
    obtain ⟨a, circuit, hrun, -⟩ := h s
    rw [hrun]
    cases symbols <;> exact hn
  asked s n hn := by
    obtain ⟨a, circuit, hrun, -⟩ := h s
    rw [hrun] at hn
    cases symbols <;> exact .inl hn
  result s b hb := by
    obtain ⟨a, circuit, hrun, hpost⟩ := h s
    rw [hrun] at hb
    exact ⟨nofun, Except.ok.inj hb ▸ hpost⟩
  crash s c hc := by
    obtain ⟨a, circuit, hrun, -⟩ := h s
    rw [hrun] at hc
    cases hc

/-- Extending the circuit asks nothing. -/
theorem looks_build (x : Build α) : Looks symbols (build x) ∅ fun _ => True :=
  looks_of_run fun s => ⟨(x s.circuit).1, (x s.circuit).2, rfl, trivial⟩

/-- An operation on words that the lengths do not stop does not crash. -/
theorem looks_gated {x : Word.Gated α} (h : x.Gives post) : Looks symbols (gated x) ∅ post := by
  refine looks_of_run fun s => ?_
  obtain ⟨a, ha, hpost⟩ := h s.circuit
  refine ⟨a, (x.run s.circuit).2, ?_, hpost⟩
  have hbuild : (build x.run).run s = (.ok (x.run s.circuit).1,
    { s with circuit := (x.run s.circuit).2 }) := rfl
  rw [gated, run_bind, hbuild]
  dsimp only
  rw [ha]
  rfl

/-! ## Checks -/

theorem looks_sameWidth (m n : Nat) : Looks symbols (sameWidth m n) ∅ fun _ => m = n := by
  unfold sameWidth
  split
  · exact .pure ‹_›
  · exact looks_refuse _

theorem looks_oneBit (w : Word) : Looks symbols (oneBit w) ∅ fun _ => True := by
  unfold oneBit
  split
  · exact .pure trivial
  · exact looks_refuse _

/-- A bit below the length of a word is there. -/
theorem looks_bitOf {w : Word} {i : Nat} (h : i < w.length) :
    Looks symbols (bitOf w i) ∅ fun _ => True := by
  rw [bitOf, List.getElem?_eq_getElem h]
  exact .pure trivial

theorem looks_slice {w : Word} {upper lower : Nat} (hle : lower ≤ upper) (hlt : upper < w.length) :
    Looks symbols (slice w upper lower) ∅ fun _ => True := by
  rw [slice, if_pos ⟨Nat.le_succ_of_le hle, hlt⟩]
  exact .pure trivial

theorem looks_shift (f : Frame) (offset : Nat) :
    Looks symbols (shift f offset) ∅ fun g => f.shift offset = .ok g := by
  unfold shift
  split
  · exact .pure ‹_›
  · exact looks_refuse _

theorem looks_constantIndex (e : Expr) (kind : Kind) (width : Nat) :
    Looks symbols (constantIndex e kind width) ∅ fun i =>
      e.toInteger?.isSome ∧ i = (e.toInteger?.getD 0).toNat ∧ i < width := by
  unfold constantIndex
  split
  · exact looks_refuse _
  · rename_i n hn
    split
    · rename_i hrange
      refine .pure ⟨by rw [hn]; rfl, by rw [hn]; rfl, ?_⟩
      omega
    · exact looks_refuse _

/-! ## Symbols -/

theorem looks_ask (r : Resolver) (name : String) (bit t : Nat) :
    Looks (.mapped r) (ask r name bit t) {⟨name, bit, t⟩} fun _ => True := by
  have hstate : ∀ s : Lowering,
      ((ask r name bit t).run s).2 = { s with reads := s.reads.push ⟨name, bit, t⟩ } := by
    intro s
    unfold ask
    rw [run_bind]
    cases r.resolve name bit t <;> rfl
  refine ⟨fun s n hn => ?_, fun s n hn => ?_, fun s l hl => ⟨fun n hn => ?_, trivial⟩,
    fun s c hc => ?_⟩
  · rw [hstate]
    exact Array.mem_push.2 (.inl hn)
  · rw [hstate] at hn
    exact Array.mem_push.1 hn
  · rw [hstate]
    exact Array.mem_push.2 (.inr hn)
  · unfold ask at hc
    rw [run_bind] at hc
    rcases hmiss : r.resolve name bit t with miss | l <;> rw [hmiss] at hc
    · obtain rfl := Fault.crashed.inj (Except.error.inj hc)
      exact ⟨miss, rfl, _, rfl, hmiss, hstate s ▸ Array.mem_push_self⟩
    · cases hc

/-- After a bit was bound, it has a literal, and so do those that had one before. -/
theorem seen_bind {s : Lowering} {n : Read} (name : String) (bit : Nat) (l : Literal) :
    Symbols.onDemand.Seen { s with bound := s.bound.insert ⟨name, bit⟩ l } n ↔
      Symbols.onDemand.Seen s n ∨ n = ⟨name, bit, 0⟩ := by
  obtain ⟨other, i, t⟩ := n
  simp only [Symbols.Seen, Std.TreeMap.getElem?_insert, Std.LawfulEqCmp.compare_eq_iff_eq,
    NamedBit.mk.injEq, Read.mk.injEq]
  split <;> grind

theorem looks_bind (name : String) (bit : Nat) (l : Literal) :
    Looks .onDemand (bind name bit l) {⟨name, bit, 0⟩} fun _ => True where
  kept _ _ hn := (seen_bind name bit l).2 (.inl hn)
  asked _ _ hn := (seen_bind name bit l).1 hn
  result _ _ _ := ⟨fun _ hn => (seen_bind name bit l).2 (.inr hn), trivial⟩
  crash _ _ hc := nomatch hc

theorem looks_demand (name : String) (bit : Nat) :
    Looks .onDemand (demand name bit) {⟨name, bit, 0⟩} fun _ => True := by
  have hfresh : Looks .onDemand (do
      let l ← build Circuit.fresh
      bind name bit l
      return l) {⟨name, bit, 0⟩} fun _ => True :=
    (looks_build _).then fun l _ => (looks_bind name bit l).finally fun _ _ => .pure trivial
  refine ⟨fun s n hn => ?_, fun s n hn => ?_, fun s l hl => ⟨fun n hn => ?_, trivial⟩,
    fun s c hc => ?_⟩ <;> rcases hbit : s.bound[(⟨name, bit⟩ : NamedBit)]? with _ | l'
  · rw [run_demand, hbit]
    exact hfresh.kept s n hn
  · rw [run_demand, hbit]
    exact hn
  · rw [run_demand, hbit] at hn
    exact hfresh.asked s n hn
  · rw [run_demand, hbit] at hn
    exact .inl hn
  · rw [run_demand, hbit] at hl ⊢
    exact (hfresh.result s l hl).1 n hn
  · rw [run_demand, hbit]
    obtain rfl := hn
    exact ⟨rfl, by rw [hbit]; rfl⟩
  · rw [run_demand, hbit] at hc ⊢
    exact hfresh.crash s c hc
  · rw [run_demand, hbit] at hc
    cases hc

/-- Without a resolver, the bits that have literals in the end are those that were asked for. -/
theorem Looks.isSome_iff {x : Lower α} (hx : Looks .onDemand x asks post) {c : Circuit} {a : α}
    {s' : Lowering} (hrun : x.run { circuit := c } = (.ok a, s')) (key : NamedBit) :
    (s'.bound[key]?).isSome ↔ ⟨key.name, key.bit, 0⟩ ∈ asks := by
  have hasked := hx.asked { circuit := c } ⟨key.name, key.bit, 0⟩
  have hresult := hx.result { circuit := c } a
  rw [hrun] at hasked hresult
  constructor
  · intro h
    refine (hasked ⟨rfl, h⟩).resolve_left ?_
    simp [Symbols.Seen]
  · intro h
    exact ((hresult rfl).1 _ h).2

theorem looks_bit (symbols : Symbols) (phase : Phase) (frame : Frame) (name : String) (i : Nat) :
    Looks symbols (symbols.bit phase frame name i) {symbols.note phase frame name i}
      fun _ => True := by
  cases symbols with
  | mapped r => cases phase <;> exact looks_ask r name i _
  | onDemand => cases phase <;> exact looks_demand _ i

theorem looks_wordFrom (symbols : Symbols) (phase : Phase) (frame : Frame) (name : String)
    (i count : Nat) : Looks symbols (symbols.wordFrom phase frame name i count)
      (symbols.notes phase frame name i count) fun _ => True := by
  induction count generalizing i with
  | zero =>
    rw [Symbols.notes_zero]
    exact .pure trivial
  | succ count ih =>
    rw [Symbols.notes_succ]
    exact (looks_bit symbols phase frame name i).bind fun l _ =>
      (ih (i + 1)).finally fun w _ => .pure trivial

/-- The word of a variable asks for its bits. -/
theorem looks_word (symbols : Symbols) (phase : Phase) (frame : Frame) (name : String)
    (width : Nat) : Looks symbols (symbols.word phase frame name width)
      (symbols.notes phase frame name 0 width) fun _ => True :=
  looks_wordFrom symbols phase frame name 0 width

end Lower

end BitUnroll
