import BitUnroll.Proofs.Circuit.Growth
import BitUnroll.Word.Basic

/-!
# What circuits compute

A literal denotes a function of assignments if it has the function's value wherever the netlist is
followed. Building a gate on literals of a netlist adds gates, no input and no requirement, and its
result denotes the gate's truth function. The rules for sequencing say so of all computations that
are made from gates.

## Main definitions

* `Literal.Denotes`, `Word.Denotes`: what literals and words stand for.
* `Build.AddsGates`: a computation only adds gates, and what is known of its result.
* `Circuit.Computes`: a computation on two literals denotes a truth function.
-/

namespace BitUnroll

/-- A literal has a variable of a netlist, and the value of `f` wherever the netlist is
followed. -/
structure Literal.Denotes (net : Netlist) (l : Literal) (f : Valuation → Bool) : Prop where
  lt : l.var < net.length
  eval_eq : ∀ v, net.Holds v → l.eval v = f v

/-- All literals of a word have variables of a netlist. -/
def Word.Within (net : Netlist) (w : Word) : Prop := ∀ l ∈ w, l.var < net.length

/-- The literals of a word have variables of a netlist, and the bits of `f` wherever the netlist
is followed. -/
structure Word.Denotes (net : Netlist) (w : Word) (f : Valuation → Bits) : Prop where
  within : w.Within net
  bits_eq : ∀ v, net.Holds v → w.bits v = f v

section

variable {net net' : Netlist} {l : Literal} {w : Word} {f : Valuation → Bool}
  {g : Valuation → Bits}

theorem Literal.Denotes.mono (hl : l.Denotes net f) (h : net <+: net') : l.Denotes net' f :=
  ⟨Nat.lt_of_lt_of_le hl.lt h.length_le, fun v hv => hl.eval_eq v (hv.of_isPrefix h)⟩

theorem Literal.Denotes.neg (hl : l.Denotes net f) : (-l).Denotes net fun v => !f v :=
  ⟨hl.lt, fun v hv => by rw [Literal.eval_neg, hl.eval_eq v hv]⟩

theorem Word.Within.mono (hw : w.Within net) (h : net <+: net') : w.Within net' :=
  fun l hl => Nat.lt_of_lt_of_le (hw l hl) h.length_le

theorem Word.Denotes.mono (hw : w.Denotes net g) (h : net <+: net') : w.Denotes net' g :=
  ⟨hw.within.mono h, fun v hv => hw.bits_eq v (hv.of_isPrefix h)⟩

/-- The constants denote their truth values. -/
theorem Literal.denotes_ofBool (hnet : net[0]? = some .constant) (value : Bool) :
    (Literal.ofBool value).Denotes net fun _ => value :=
  ⟨(List.getElem?_eq_some_iff.1 hnet).1, fun _ hv => eval_ofBool (hv 0 _ hnet) value⟩

theorem Literal.denotes_top (hnet : net[0]? = some .constant) :
    Literal.top.Denotes net fun _ => true := denotes_ofBool hnet true

theorem Literal.denotes_bottom (hnet : net[0]? = some .constant) :
    Literal.bottom.Denotes net fun _ => false := denotes_ofBool hnet false

@[simp] theorem Word.within_nil : Word.Within net [] := fun _ hl => absurd hl List.not_mem_nil

@[simp] theorem Word.within_cons :
    Word.Within net (l :: w) ↔ l.var < net.length ∧ Word.Within net w :=
  List.forall_mem_cons

@[simp] theorem Word.within_append {u : Word} :
    Word.Within net (w ++ u) ↔ Word.Within net w ∧ Word.Within net u :=
  List.forall_mem_append

@[simp] theorem Word.bits_nil (v : Valuation) : Word.bits [] v = [] := rfl

@[simp] theorem Word.bits_cons (v : Valuation) :
    Word.bits (l :: w) v = l.eval v :: Word.bits w v := rfl

@[simp] theorem Word.bits_append {u : Word} (v : Valuation) :
    Word.bits (w ++ u) v = Word.bits w v ++ Word.bits u v := List.map_append

theorem Word.denotes_nil : Word.Denotes net [] fun _ => [] := ⟨Word.within_nil, fun _ _ => rfl⟩

theorem Word.Denotes.cons (hl : l.Denotes net f) (hw : w.Denotes net g) :
    Word.Denotes net (l :: w) fun v => f v :: g v :=
  ⟨Word.within_cons.2 ⟨hl.lt, hw.within⟩, fun v hv => by
    rw [Word.bits_cons, hl.eval_eq v hv, hw.bits_eq v hv]⟩

/-- Complementing a word negates its bits. -/
@[simp] theorem Word.bits_complement (w : Word) (v : Valuation) :
    w.complement.bits v = (w.bits v).map (!·) := by
  simp [Word.bits, Word.complement]

@[simp] theorem Word.within_complement : w.complement.Within net ↔ w.Within net := by
  simp [Word.Within, Word.complement]

end

/-! ## Computations that add gates -/

namespace Build

variable {α β : Type} {net : Netlist}

/-- On every circuit that fits a netlist, a computation adds nothing but gates, and its result has
a property on the netlist with these gates. -/
def AddsGates (net : Netlist) (x : Build α) (post : α → Netlist → Prop) : Prop :=
  ∀ c required, c.Fits net required → ∃ keys : List GateKey,
    (x c).2.Fits (net ++ keys.map .gate) required ∧ post (x c).1 (net ++ keys.map .gate)

theorem AddsGates.pure {a : α} {post : α → Netlist → Prop} (h : post a net) :
    AddsGates net (Pure.pure a) post := by
  intro c required hc
  refine ⟨[], ?_, ?_⟩ <;> rw [List.map_nil, List.append_nil]
  · exact hc
  · exact h

/-- The result of a first computation, and all that was known of its netlist, may be used by a
second one, on a netlist that only got longer. -/
theorem AddsGates.bind {x : Build α} {y : α → Build β} {mid : α → Netlist → Prop}
    {post : β → Netlist → Prop} (hx : AddsGates net x mid)
    (hy : ∀ a net', net <+: net' → mid a net' → AddsGates net' (y a) post) :
    AddsGates net (x >>= y) post := by
  intro c required hc
  obtain ⟨keys, hfits, hmid⟩ := hx c required hc
  obtain ⟨more, hfits', hpost⟩ := hy _ _ (List.prefix_append ..) hmid _ required hfits
  refine ⟨keys ++ more, ?_, ?_⟩
  · rw [List.map_append, ← List.append_assoc]
    exact hfits'
  · rw [List.map_append, ← List.append_assoc]
    exact hpost

/-- A computation whose result is used once more, without a gate. -/
theorem AddsGates.map {x : Build α} {y : α → β} {mid : α → Netlist → Prop}
    {post : β → Netlist → Prop} (hx : AddsGates net x mid)
    (hy : ∀ a net', net <+: net' → mid a net' → post (y a) net') :
    AddsGates net (y <$> x) post := by
  intro c required hc
  obtain ⟨keys, hfits, hmid⟩ := hx c required hc
  exact ⟨keys, hfits, hy _ _ (List.prefix_append ..) hmid⟩

theorem AddsGates.imp {x : Build α} {mid post : α → Netlist → Prop} (hx : AddsGates net x mid)
    (h : ∀ a net', net <+: net' → mid a net' → post a net') : AddsGates net x post := by
  intro c required hc
  obtain ⟨keys, hfits, hmid⟩ := hx c required hc
  exact ⟨keys, hfits, h _ _ (List.prefix_append ..) hmid⟩

end Build

/-! ## Gates -/

namespace Circuit

open Build (AddsGates)

variable {net : Netlist}

/-- A computation on two literals adds gates only, and its result denotes a truth function of
theirs. -/
def Computes (x : Literal → Literal → Build Literal) (t : Bool → Bool → Bool) : Prop :=
  ∀ (net : Netlist) (a b : Literal), a.var < net.length → b.var < net.length →
    AddsGates net (x a b) fun l net' => l.Denotes net' fun v => t (a.eval v) (b.eval v)

/-- A folded gate stays on the variables of its operands or the constant. -/
theorem var_of_fold? {op : GateOp} {a b l : Literal} (h : op.fold? a b = some l) :
    l.var = 0 ∨ l.var = a.var ∨ l.var = b.var := by
  cases op <;> simp only [GateOp.fold?] at h <;> split at h <;>
    grind [Literal.var_neg, Literal.top, Literal.bottom]

/-- A gate on two literals in order has the value of the gate on the literals. -/
theorem eval_ofLiterals (op : GateOp) (a b : Literal) (v : Valuation) :
    (GateKey.ofLiterals op a b).op.eval ((GateKey.ofLiterals op a b).left.eval v)
      ((GateKey.ofLiterals op a b).right.eval v) = op.eval (a.eval v) (b.eval v) := by
  simp only [GateKey.ofLiterals]
  rcases Literal.sort_cases a b with h | h <;> rw [h]
  exact op.eval_comm _ _

/-- A variable that is a gate denotes the gate's truth function. -/
theorem denotes_of_gate {op : GateOp} {a b out : Literal} (hsign : out.sign = true)
    (hnet : net[out.var]? = some (.gate (GateKey.ofLiterals op a b))) :
    out.Denotes net fun v => op.eval (a.eval v) (b.eval v) := by
  refine ⟨(List.getElem?_eq_some_iff.1 hnet).1, fun v hv => ?_⟩
  have hvalue := hv _ _ hnet
  rw [Source.value, eval_ofLiterals] at hvalue
  rw [Literal.eval, hsign, hvalue]
  simp

/-- What a circuit answers denotes the gate's truth function. -/
theorem Answers.denotes {c : Circuit} {required : List Literal} {op : GateOp} {a b l : Literal}
    (h : c.Answers op a b l) (hc : c.Fits net required) (ha : a.var < net.length)
    (hb : b.var < net.length) : l.Denotes net fun v => op.eval (a.eval v) (b.eval v) := by
  rcases h with ⟨-, hfold⟩ | ⟨-, -, hshared⟩
  · refine ⟨?_, fun v hv => GateOp.eval_of_fold? hfold (hc.eval_constant hv)⟩
    have := hc.length_pos
    rcases var_of_fold? hfold with h | h | h <;> omega
  · obtain ⟨hsign, hnet⟩ := hc.gates _ _ hshared
    exact denotes_of_gate hsign hnet

/-- A gate that is lacking is one more gate of the netlist. -/
theorem Lacks.fits {c : Circuit} {required : List Literal} {op : GateOp} {a b : Literal}
    (h : c.Lacks op a b) (hc : c.Fits net required) (ha : a.var < net.length)
    (hb : b.var < net.length) :
    (gate op a b c).1 = ⟨net.length, true⟩ ∧
      (gate op a b c).2.Fits (net ++ [.gate (GateKey.ofLiterals op a b)]) required := by
  rw [h.gate_eq]
  refine hc.defineGate ?_ ?_ <;> simp only [GateKey.ofLiterals] <;>
    rcases Literal.sort_cases a b with h | h <;> rw [h] <;> assumption

/-- A gate denotes its truth function, whether it is folded, shared or defined. -/
theorem computes_gate (op : GateOp) : Computes (gate op) op.eval := by
  intro net a b ha hb c required hc
  rcases answers_or_lacks c op a b with ⟨l, h⟩ | h
  · refine ⟨[], ?_⟩
    rw [h.gate_eq, List.map_nil, List.append_nil]
    exact ⟨hc, h.denotes hc ha hb⟩
  · obtain ⟨hout, hfits⟩ := h.fits hc ha hb
    refine ⟨[GateKey.ofLiterals op a b], hfits, ?_⟩
    rw [hout]
    exact denotes_of_gate rfl (by simp)

theorem computes_and : Computes and (· && ·) := computes_gate .and

theorem computes_xor : Computes xor (· ^^ ·) := computes_gate .xor

theorem computes_or : Computes or (· || ·) := by
  intro net a b ha hb
  refine (computes_and net (-a) (-b) ha hb).bind fun l net' _ hl => .pure ⟨hl.lt, fun v hv => ?_⟩
  rw [hl.neg.eval_eq v hv, Literal.eval_neg, Literal.eval_neg]
  cases a.eval v <;> cases b.eval v <;> rfl

theorem computes_implies : Computes implies (!· || ·) := by
  intro net a b ha hb
  refine (computes_or net (-a) b ha hb).imp fun l net' _ hl => ⟨hl.lt, fun v hv => ?_⟩
  rw [hl.eval_eq v hv, Literal.eval_neg]

theorem computes_iff : Computes iff (· == ·) := by
  intro net a b ha hb
  refine (computes_xor net a b ha hb).bind fun l net' _ hl => .pure ⟨hl.lt, fun v hv => ?_⟩
  rw [hl.neg.eval_eq v hv]
  cases a.eval v <;> cases b.eval v <;> rfl

theorem addsGates_select {condition a b : Literal} (hc : condition.var < net.length)
    (ha : a.var < net.length) (hb : b.var < net.length) :
    AddsGates net (select condition a b) fun l net' => l.Denotes net' fun v =>
      if condition.eval v then a.eval v else b.eval v := by
  refine (computes_and net condition a hc ha).bind fun chosen net₁ h₁ hchosen => ?_
  have hle₁ := h₁.length_le
  refine (computes_and net₁ (-condition) b (Nat.lt_of_lt_of_le hc hle₁)
    (Nat.lt_of_lt_of_le hb hle₁)).bind fun other net₂ h₂ hother => ?_
  have hchosen := hchosen.mono h₂
  refine (computes_or net₂ chosen other hchosen.lt hother.lt).imp fun l net' h hl =>
    ⟨hl.lt, fun v hv => ?_⟩
  rw [hl.eval_eq v hv, (hchosen.mono h).eval_eq v hv, (hother.mono h).eval_eq v hv,
    Literal.eval_neg]
  cases condition.eval v <;> simp

/-! ## Gates on lists -/

/-- A gate over a list, from the left. -/
theorem Computes.foldlM {x : Literal → Literal → Build Literal} {t : Bool → Bool → Bool}
    (hx : Computes x t) {ls : List Literal} {first : Literal} (hfirst : first.var < net.length)
    (hls : Word.Within net ls) : AddsGates net (ls.foldlM x first) fun l net' =>
      l.Denotes net' fun v => (ls.map (·.eval v)).foldl t (first.eval v) := by
  induction ls generalizing first net with
  | nil => exact .pure ⟨hfirst, fun _ _ => rfl⟩
  | cons a ls ih =>
    obtain ⟨ha, hls⟩ := Word.within_cons.1 hls
    rw [List.foldlM_cons]
    refine (hx net first a hfirst ha).bind fun l net' h hl => ?_
    refine (ih hl.lt (hls.mono h)).imp fun l' net'' h' hl' => ⟨hl'.lt, fun v hv => ?_⟩
    rw [hl'.eval_eq v hv, (hl.mono h').eval_eq v hv]
    rfl

theorem foldl_and (ps : List Bool) (p : Bool) : ps.foldl (· && ·) p = (p && ps.all id) := by
  induction ps generalizing p with
  | nil => simp
  | cons q ps ih => simp [ih, Bool.and_assoc]

theorem foldl_or (ps : List Bool) (p : Bool) : ps.foldl (· || ·) p = (p || ps.any id) := by
  induction ps generalizing p with
  | nil => simp
  | cons q ps ih => simp [ih, Bool.or_assoc]

theorem addsGates_andAll {ls : List Literal} (hnet : net[0]? = some .constant)
    (hls : Word.Within net ls) : AddsGates net (andAll ls) fun l net' =>
      l.Denotes net' fun v => (ls.map (·.eval v)).all id := by
  cases ls with
  | nil => exact .pure (Literal.denotes_top hnet)
  | cons first rest =>
    obtain ⟨hfirst, hrest⟩ := Word.within_cons.1 hls
    refine (computes_and.foldlM hfirst hrest).imp fun l net' _ hl => ⟨hl.lt, fun v hv => ?_⟩
    rw [hl.eval_eq v hv, foldl_and]
    rfl

theorem addsGates_orAll {ls : List Literal} (hnet : net[0]? = some .constant)
    (hls : Word.Within net ls) : AddsGates net (orAll ls) fun l net' =>
      l.Denotes net' fun v => (ls.map (·.eval v)).any id := by
  cases ls with
  | nil => exact .pure (Literal.denotes_bottom hnet)
  | cons first rest =>
    obtain ⟨hfirst, hrest⟩ := Word.within_cons.1 hls
    refine (computes_or.foldlM hfirst hrest).imp fun l net' _ hl => ⟨hl.lt, fun v hv => ?_⟩
    rw [hl.eval_eq v hv, foldl_or]
    rfl

theorem addsGates_xorAll {ls : List Literal} (hnet : net[0]? = some .constant)
    (hls : Word.Within net ls) : AddsGates net (xorAll ls) fun l net' =>
      l.Denotes net' fun v => (ls.map (·.eval v)).foldl (· ^^ ·) false := by
  have hbottom := Literal.denotes_bottom hnet
  refine (computes_xor.foldlM hbottom.lt hls).imp fun l net' h hl => ⟨hl.lt, fun v hv => ?_⟩
  rw [hl.eval_eq v hv, (hbottom.mono h).eval_eq v hv]

end Circuit

end BitUnroll
