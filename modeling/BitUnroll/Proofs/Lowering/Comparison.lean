import BitUnroll.Proofs.Lowering.Requirements
import BitUnroll.Proofs.Word.Comparison

/-!
# Lowering on two circuits

An expression may be lowered on two circuits, with two resolvers, in two frames. Lowering looks at
no literal and at no circuit: which way it goes depends on the expression, on the types, and on
which questions have an answer. So if both resolvers answer the same questions, in literals that
correspond, then both runs end alike, and what they give corresponds. Where the frames of the first
run are later ones, it may leave the range of timeframes before the second one does; a comparison
can excuse this, and then says nothing more of the second run.

## Main definitions

* `Sources`: two resolvers, and the frames in which they are asked the same.
* `Sources.Lowers`: two lowering computations that keep a comparison.
* `Sources.Alike`: both resolvers answer the same questions.
* `Expr.Timeless`: expressions without operators on timeframes.

## Main statements

* `Expr.compares`: the literal and the word of an expression.
* `Expr.lowers_require`: requiring an expression.
-/

namespace BitUnroll

/-! ## Operators on timeframes -/

/-- Whether a kind of node is an operator on timeframes. -/
def Kind.isTemporal : Kind → Bool
  | .temporal _ => true
  | _ => false

namespace Expr

/-- An expression without operators on timeframes. -/
def Timeless (e : Expr) : Prop := ∀ x, Subterm x e → x.kind.isTemporal = false

@[simp] theorem timeless_node {kind : Kind} {ty : Ty} {es : List Expr} :
    (node kind ty es).Timeless ↔ kind.isTemporal = false ∧ ∀ e ∈ es, e.Timeless :=
  forall_subterm_node

end Expr

/-! ## Two resolvers -/

/-- A broken contract, with its miss in other words. -/
def Crash.mapMiss (reword : Miss → Miss) : Crash → Crash
  | .missing miss => .missing (reword miss)
  | crash => crash

/-- A fault, with its miss in other words. -/
def Fault.mapMiss (reword : Miss → Miss) : Fault → Fault
  | .refused error => .refused error
  | .crashed crash => .crashed (crash.mapMiss reword)

/-- Two resolvers, the frames in which they are asked the same, the words in which the second one
tells a miss of the first one, and the refusals of the first run that excuse the second one. -/
structure Sources where
  left : Resolver
  right : Resolver
  frames : Frame → Frame → Prop
  reword : Miss → Miss
  excuses : LoweringError → Prop := fun _ => False

namespace Sources

variable {S : Sources} {K : Comparison} {w : K.World} {α β γ δ : Type}

/-- What lowering depends on, with the first resolver. -/
abbrev onLeft (S : Sources) (types : TypeTable) : Setting := ⟨types, .mapped S.left⟩

/-- What lowering depends on, with the second resolver. -/
abbrev onRight (S : Sources) (types : TypeTable) : Setting := ⟨types, .mapped S.right⟩

/-- A computation was refused for a reason that excuses the second one. -/
def Excused (S : Sources) (result : Except Fault α) : Prop :=
  ∃ e, result = .error (.refused e) ∧ S.excuses e

/-- Circuits that correspond are led to circuits that correspond in a later world, where both
computations have results that are related, or both stop for one reason, unless the first one stops
for a reason that excuses the second one. -/
def Lowers (S : Sources) (K : Comparison) (w : K.World) (x : Lower α) (y : Lower β)
    (post : K.World → α → β → Prop) : Prop :=
  ∀ s t, K.circuits w s.circuit t.circuit → S.Excused (x.run s).1 ∨ ∃ w', K.le w w' ∧
    K.circuits w' (x.run s).2.circuit (y.run t).2.circuit ∧
      Agree (Fault.mapMiss S.reword) (post w') (x.run s).1 (y.run t).1

/-- In frames in which they are asked the same, both resolvers answer with literals that
correspond, or neither answers. -/
structure Alike (S : Sources) (K : Comparison) : Prop where
  lawful : K.Lawful
  answers : ∀ w f f', S.frames f f' → ∀ (phase : Phase) name bit,
    Agree S.reword (K.literals w) (S.left.resolve name bit (phase.timeframe f))
      (S.right.resolve name bit (phase.timeframe f'))

/-- Operators on timeframes are lowered with both resolvers or with none, and frames in which both
are asked the same are moved alike, unless moving the first one is refused with an excuse. -/
structure Shifts (S : Sources) : Prop where
  multiStep_eq : S.left.multiStep = S.right.multiStep
  shift : ∀ f f' offset, S.frames f f' →
    (∃ overflow, f.shift offset = .error overflow ∧ S.excuses (.timeframeOverflow overflow)) ∨
      Agree id S.frames (f.shift offset) (f'.shift offset)

/-- One and the same frame is moved alike. -/
theorem shifts_of_eq (hframes : S.frames = Eq) (h : S.left.multiStep = S.right.multiStep) :
    S.Shifts where
  multiStep_eq := h
  shift f f' offset hf := by
    rw [hframes] at hf ⊢
    subst hf
    right
    cases f.shift offset with
    | ok g => exact .ok rfl
    | error overflow => exact .error overflow

namespace Alike

variable {post : K.World → α → β → Prop} {types : TypeTable} {es : List Expr} {f f' : Frame}

theorem pure (hS : S.Alike K) {a : α} {b : β} (h : post w a b) :
    S.Lowers K w (Pure.pure a) (Pure.pure b) post :=
  fun _ _ hst => .inr ⟨w, hS.lawful.refl w, hst, .ok h⟩

theorem refuse (hS : S.Alike K) (e : LoweringError) :
    S.Lowers K w (Lower.refuse e) (Lower.refuse e) post :=
  fun _ _ hst => .inr ⟨w, hS.lawful.refl w, hst, .error (Fault.refused e)⟩

/-- A broken contract that is no miss is the same one on both sides. -/
theorem crash (hS : S.Alike K) {c : Crash} (hc : c.mapMiss S.reword = c) :
    S.Lowers K w (Lower.crash c) (Lower.crash c) post := by
  intro s t hst
  have hagree : Agree (Fault.mapMiss S.reword) (post w) (.error (.crashed c))
      (.error (.crashed (c.mapMiss S.reword))) := .error (Fault.crashed c)
  rw [hc] at hagree
  exact .inr ⟨w, hS.lawful.refl w, hst, hagree⟩

/-- Results that are related may be used by computations that go on from a later world. -/
theorem bind (hS : S.Alike K) {x : Lower α} {y : Lower β} {g : α → Lower γ} {h : β → Lower δ}
    {mid : K.World → α → β → Prop} {post : K.World → γ → δ → Prop} (hx : S.Lowers K w x y mid)
    (hg : ∀ w' a b, K.le w w' → mid w' a b → S.Lowers K w' (g a) (h b) post) :
    S.Lowers K w (x >>= g) (y >>= h) post := by
  intro s t hst
  have hmid := hx s t hst
  rw [run_bind, run_bind]
  rcases hs : (x.run s : Except Fault α × Lowering) with ⟨r, s'⟩
  rcases ht : (y.run t : Except Fault β × Lowering) with ⟨r', t'⟩
  rw [hs, ht] at hmid
  obtain ⟨e, rfl, he⟩ | ⟨w₁, h₁, hst₁, hmid⟩ := hmid
  · exact .inl ⟨e, rfl, he⟩
  cases hmid with
  | error e => exact .inr ⟨w₁, h₁, hst₁, .error e⟩
  | ok hab =>
    obtain hexcused | ⟨w₂, h₂, hst₂, hpost⟩ := hg w₁ _ _ h₁ hab s' t' hst₁
    · exact .inl hexcused
    · exact .inr ⟨w₂, hS.lawful.trans h₁ h₂, hst₂, hpost⟩

theorem build {x : Build α} {y : Build β} (h : K.Builds w x y post) :
    S.Lowers K w (Lower.build x) (Lower.build y) post := by
  rintro ⟨c, bound, reads⟩ ⟨d, bound', reads'⟩ hcd
  obtain ⟨w', hle, hcd', hpost⟩ := h c d hcd
  exact .inr ⟨w', hle, hcd', .ok hpost⟩

/-- Extending both circuits with an operation on words. -/
theorem gated (hS : S.Alike K) {x : Word.Gated α} {y : Word.Gated β} (h : K.Gates w x y post) :
    S.Lowers K w (Lower.gated x) (Lower.gated y) post := by
  refine hS.bind (build h) fun w' r r' _ hr => ?_
  cases hr with
  | ok hab => exact hS.pure hab
  | error lengths => exact hS.crash rfl

/-! ## Checks -/

theorem sameWidth (hS : S.Alike K) (m n : Nat) :
    S.Lowers K w (Lower.sameWidth m n) (Lower.sameWidth m n) fun _ _ _ => True := by
  unfold Lower.sameWidth
  split
  · exact hS.pure trivial
  · exact hS.refuse _

theorem oneBit (hS : S.Alike K) {u u' : Word} (hu : K.words w u u') :
    S.Lowers K w (Lower.oneBit u) (Lower.oneBit u') K.literals := by
  rcases hu with _ | ⟨hl, _ | ⟨_, _⟩⟩
  · exact hS.refuse _
  · exact hS.pure hl
  · exact hS.refuse _

theorem constantIndex (hS : S.Alike K) (e : Expr) (kind : Kind) (width : Nat) :
    S.Lowers K w (Lower.constantIndex e kind width) (Lower.constantIndex e kind width)
      fun _ i j => i = j := by
  unfold Lower.constantIndex
  split
  · exact hS.refuse _
  · split
    · exact hS.pure rfl
    · exact hS.refuse _

/-- A bit is in both words or in neither. -/
theorem bitOf (hS : S.Alike K) {u u' : Word} (hu : K.words w u u') (i : Nat) :
    S.Lowers K w (Lower.bitOf u i) (Lower.bitOf u' i) K.literals := by
  unfold Lower.bitOf
  by_cases hi : i < u.length
  · have hi' : i < u'.length := hu.length_eq ▸ hi
    rw [List.getElem?_eq_getElem hi, List.getElem?_eq_getElem hi']
    exact hS.pure ((List.forall₂_iff_get.1 hu).2 i hi hi')
  · have hi' : ¬i < u'.length := hu.length_eq ▸ hi
    rw [List.getElem?_eq_none (Nat.not_lt.1 hi), List.getElem?_eq_none (Nat.not_lt.1 hi')]
    exact hS.crash rfl

theorem slice (hS : S.Alike K) {u u' : Word} (hu : K.words w u u') (upper lower : Nat) :
    S.Lowers K w (Lower.slice u upper lower) (Lower.slice u' upper lower) K.words := by
  unfold Lower.slice
  rw [hu.length_eq]
  split
  · exact hS.pure (Comparison.Lawful.slice hu upper lower)
  · exact hS.crash rfl

theorem shift (hS : S.Alike K) (hshift : S.Shifts) (hf : S.frames f f') (offset : Nat) :
    S.Lowers K w (Lower.shift f offset) (Lower.shift f' offset) fun _ g g' => S.frames g g' := by
  obtain ⟨overflow, hg, hexcused⟩ | h := hshift.shift f f' offset hf
  · intro s t _
    unfold Lower.shift
    rw [hg]
    exact .inl ⟨_, rfl, hexcused⟩
  · unfold Lower.shift
    cases hg : f.shift offset <;> cases hg' : f'.shift offset <;> rw [hg, hg'] at h <;> cases h
    · exact hS.refuse _
    · exact hS.pure ‹_›

/-! ## Symbols -/

theorem bit (hS : S.Alike K) (hf : S.frames f f') (phase : Phase) (name : String) (i : Nat) :
    S.Lowers K w ((Symbols.mapped S.left).bit phase f name i)
      ((Symbols.mapped S.right).bit phase f' name i) K.literals := by
  have hask : ∀ t t', Agree S.reword (K.literals w) (S.left.resolve name i t)
      (S.right.resolve name i t') →
      S.Lowers K w (Lower.ask S.left name i t) (Lower.ask S.right name i t') K.literals := by
    intro t t' h s s' hs
    refine .inr ⟨w, hS.lawful.refl w, ?_⟩
    unfold Lower.ask
    rw [run_bind, run_bind]
    cases hl : S.left.resolve name i t <;> cases hr : S.right.resolve name i t' <;>
      rw [hl, hr] at h <;> cases h
    · exact ⟨hs, .error (Fault.crashed (.missing _))⟩
    · exact ⟨hs, .ok ‹_›⟩
  cases phase
  · exact hask _ _ (hS.answers w f f' hf .current name i)
  · exact hask _ _ (hS.answers w f f' hf .next name i)

theorem word (hS : S.Alike K) (hf : S.frames f f') (phase : Phase) (name : String) (width : Nat) :
    S.Lowers K w ((Symbols.mapped S.left).word phase f name width)
      ((Symbols.mapped S.right).word phase f' name width) K.words := by
  unfold Symbols.word
  generalize 0 = i
  induction width generalizing i w with
  | zero => exact hS.pure .nil
  | succ count ih =>
    refine hS.bind (hS.bit hf phase name i) fun w₁ l l' h₁ hl => ?_
    refine hS.bind (ih (i + 1)) fun w₂ u u' h₂ hu => hS.pure ?_
    exact .cons (hS.lawful.mono h₂ hl) hu

end Alike

end Sources

/-- The literal and the word of an expression, in frames in which the same is asked. -/
structure Expr.Compares (S : Sources) (K : Comparison) (types : TypeTable) (e : Expr) : Prop where
  truth : ∀ w f f', S.frames f f' → S.Lowers K w (e.toLiteral (S.onLeft types) f)
    (e.toLiteral (S.onRight types) f') K.literals
  word : ∀ w f f', S.frames f f' → S.Lowers K w (e.toWord (S.onLeft types) f)
    (e.toWord (S.onRight types) f') K.words

namespace Sources.Alike

variable {S : Sources} {K : Comparison} {w : K.World} {α β : Type} {types : TypeTable}
  {es : List Expr} {f f' : Frame}

/-! ## Operands -/

theorem one (hS : S.Alike K) (kind : Kind) (g h : Expr → Operand) (es : List Expr) :
    S.Lowers K w (Lower.one kind (es.map g)) (Lower.one kind (es.map h)) fun _ p q =>
      ∃ a, es = [a] ∧ p = g a ∧ q = h a := by
  rcases es with _ | ⟨a, _ | ⟨b, es⟩⟩
  · exact hS.refuse _
  · exact hS.pure ⟨a, rfl, rfl, rfl⟩
  · simpa [Lower.one] using hS.refuse _

theorem two (hS : S.Alike K) (kind : Kind) (g h : Expr → Operand) (es : List Expr) :
    S.Lowers K w (Lower.two kind (es.map g)) (Lower.two kind (es.map h)) fun _ p q =>
      ∃ a b, es = [a, b] ∧ p = (g a, g b) ∧ q = (h a, h b) := by
  rcases es with _ | ⟨a, _ | ⟨b, _ | ⟨c, es⟩⟩⟩
  · exact hS.refuse _
  · exact hS.refuse _
  · exact hS.pure ⟨a, b, rfl, rfl, rfl⟩
  · simpa [Lower.two] using hS.refuse _

theorem three (hS : S.Alike K) (kind : Kind) (g h : Expr → Operand) (es : List Expr) :
    S.Lowers K w (Lower.three kind (es.map g)) (Lower.three kind (es.map h)) fun _ p q =>
      ∃ a b c, es = [a, b, c] ∧ p = (g a, g b, g c) ∧ q = (h a, h b, h c) := by
  rcases es with _ | ⟨a, _ | ⟨b, _ | ⟨c, _ | ⟨d, es⟩⟩⟩⟩
  · exact hS.refuse _
  · exact hS.refuse _
  · exact hS.refuse _
  · exact hS.pure ⟨a, b, c, rfl, rfl, rfl⟩
  · simpa [Lower.three] using hS.refuse _

theorem leading (hS : S.Alike K) (g h : Expr → Operand) (es : List Expr) :
    S.Lowers K w (Lower.leading (es.map g)) (Lower.leading (es.map h)) fun _ p q =>
      ∃ a, p = g a ∧ q = h a := by
  cases es with
  | nil => exact hS.crash rfl
  | cons a es => exact hS.pure ⟨a, rfl, rfl⟩

/-- One computation for each operand. -/
theorem mapM (hS : S.Alike K) (related : K.World → α → β → Prop) {g : Operand → Lower α}
    {h : Operand → Lower β}
    (hmono : ∀ {w w' a b}, K.le w w' → related w a b → related w' a b)
    (hes : ∀ e ∈ es, ∀ w, S.Lowers K w (g (e.lower (S.onLeft types)))
      (h (e.lower (S.onRight types))) related) :
    S.Lowers K w ((es.map (Expr.lower (S.onLeft types))).mapM g)
      ((es.map (Expr.lower (S.onRight types))).mapM h) fun w' => List.Forall₂ (related w') := by
  induction es generalizing w with
  | nil => exact hS.pure .nil
  | cons e es ih =>
    obtain ⟨he, hes⟩ := List.forall_mem_cons.1 hes
    rw [List.map_cons, List.map_cons, List.mapM_cons, List.mapM_cons]
    refine hS.bind (he w) fun w₁ a b h₁ hab => ?_
    refine hS.bind (ih hes) fun w₂ as bs h₂ hall => hS.pure ?_
    exact .cons (hmono h₂ hab) hall

/-- The words of two operands of one width. -/
theorem wordPair (hS : S.Alike K) (hf : S.frames f f') (hes : ∀ e ∈ es, e.Compares S K types)
    (kind : Kind) :
    S.Lowers K w (Lower.wordPair kind (es.map (Expr.lower (S.onLeft types))) f)
      (Lower.wordPair kind (es.map (Expr.lower (S.onRight types))) f') fun w' p q =>
        K.words w' p.1 q.1 ∧ K.words w' p.2 q.2 := by
  refine hS.bind (hS.two kind _ _ es) fun w₁ p q h₁ hpq => ?_
  obtain ⟨a, b, rfl, rfl, rfl⟩ := hpq
  refine hS.bind ((hes a (by simp)).word w₁ f f' hf) fun w₂ x x' h₂ hx => ?_
  refine hS.bind ((hes b (by simp)).word w₂ f f' hf) fun w₃ y y' h₃ hy => ?_
  have hx := hS.lawful.mono_list h₃ hx
  rw [hx.length_eq, hy.length_eq]
  refine hS.bind (hS.sameWidth _ _) fun w₄ _ _ h₄ _ => hS.pure ?_
  exact ⟨hS.lawful.mono_list h₄ hx, hS.lawful.mono_list h₄ hy⟩

/-- A gate on the truth values of two operands. -/
theorem truthPair (hS : S.Alike K) (hf : S.frames f f') {a b : Expr}
    (ha : a.Compares S K types) (hb : b.Compares S K types)
    {gate : Literal → Literal → Build Literal} (hgate : K.Respects gate) :
    S.Lowers K w
      (do
        let x ← a.toLiteral (S.onLeft types) f
        let y ← b.toLiteral (S.onLeft types) f
        Lower.build (gate x y))
      (do
        let x ← a.toLiteral (S.onRight types) f'
        let y ← b.toLiteral (S.onRight types) f'
        Lower.build (gate x y)) K.literals := by
  refine hS.bind (ha.truth w f f' hf) fun w₁ x x' h₁ hx => ?_
  refine hS.bind (hb.truth w₁ f f' hf) fun w₂ y y' h₂ hy => ?_
  exact build (hgate w₂ _ _ _ _ (hS.lawful.mono h₂ hx) hy)

/-! ## Operators on timeframes -/

theorem delays (hS : S.Alike K) (hshift : S.Shifts) (hf : S.frames f f') {body : Expr}
    (hbody : body.Compares S K types) (offset count : Nat) :
    S.Lowers K w (Lower.delays (body.lower (S.onLeft types)) f offset count)
      (Lower.delays (body.lower (S.onRight types)) f' offset count) K.words := by
  induction count generalizing offset w with
  | zero => exact hS.pure .nil
  | succ count ih =>
    refine hS.bind (hS.shift hshift hf offset) fun w₁ g g' h₁ hg => ?_
    refine hS.bind (hbody.truth w₁ g g' hg) fun w₂ l l' h₂ hl => ?_
    refine hS.bind (ih (offset + 1)) fun w₃ u u' h₃ hu => hS.pure ?_
    exact .cons (hS.lawful.mono h₃ hl) hu

theorem delay (hS : S.Alike K) (hshift : S.Shifts) (hf : S.frames f f') (first last : Expr)
    {body : Expr} (hbody : body.Compares S K types) :
    S.Lowers K w
      (Lower.delay (first.lower (S.onLeft types)) (last.lower (S.onLeft types))
        (body.lower (S.onLeft types)) f)
      (Lower.delay (first.lower (S.onRight types)) (last.lower (S.onRight types))
        (body.lower (S.onRight types)) f') K.literals := by
  unfold Lower.delay
  simp only [Expr.expr_lower]
  split
  · split
    · exact hS.refuse _
    · exact hS.bind (hS.shift hshift hf _) fun w₁ g g' h₁ hg => hbody.truth w₁ g g' hg
  · split
    · exact hS.bind (hS.delays hshift hf hbody _ _) fun w₁ u u' h₁ hu =>
        build (hS.lawful.orAll hu)
    · exact hS.refuse _

theorem temporal (hS : S.Alike K) (hshift : S.Shifts) (hf : S.frames f f')
    (hes : ∀ e ∈ es, e.Compares S K types) (op : Temporal) :
    S.Lowers K w (Lower.temporal op (es.map (Expr.lower (S.onLeft types))) f)
      (Lower.temporal op (es.map (Expr.lower (S.onRight types))) f') K.literals := by
  cases op with
  | overlapped | nonOverlapped =>
    rcases es with _ | ⟨a, _ | ⟨b, _ | ⟨c, es⟩⟩⟩
    · exact hS.refuse _
    · exact hS.refuse _
    · exact hS.truthPair hf (hes a (by simp)) (hes b (by simp)) hS.lawful.respects_implies
    · exact hS.refuse _
  | concat =>
    rcases es with _ | ⟨a, _ | ⟨b, _ | ⟨c, es⟩⟩⟩
    · exact hS.refuse _
    · exact hS.refuse _
    · exact hS.truthPair hf (hes a (by simp)) (hes b (by simp)) hS.lawful.respects_and
    · exact hS.refuse _
  | delay =>
    rcases es with _ | ⟨a, _ | ⟨b, _ | ⟨c, _ | ⟨d, es⟩⟩⟩⟩
    · exact hS.refuse _
    · exact hS.refuse _
    · exact hS.refuse _
    · exact hS.delay hshift hf a b (hes c (by simp))
    · exact hS.refuse _

/-! ## Operators on truth values -/

theorem equality (hS : S.Alike K) (hf : S.frames f f') (hes : ∀ e ∈ es, e.Compares S K types)
    (kind : Kind) :
    S.Lowers K w
      (Lower.equality (S.onLeft types) kind (es.map (Expr.lower (S.onLeft types))) f)
      (Lower.equality (S.onRight types) kind (es.map (Expr.lower (S.onRight types))) f')
      K.literals := by
  unfold Lower.equality
  refine hS.bind (hS.two kind _ _ es) fun w₁ p q h₁ hpq => ?_
  obtain ⟨a, b, rfl, rfl, rfl⟩ := hpq
  simp only [Expr.expr_lower]
  split
  · exact hS.truthPair hf (hes a (by simp)) (hes b (by simp)) hS.lawful.respects_iff
  · exact hS.bind (hS.wordPair hf hes kind) fun w₂ p q h₂ hpq =>
      hS.gated (hS.lawful.equal hpq.1 hpq.2)

theorem relation (hS : S.Alike K) (op : Relation) {a a' b b' : Word} (ha : K.words w a a')
    (hb : K.words w b b') (signed : Bool) :
    S.Lowers K w (Lower.relation op a b signed) (Lower.relation op a' b' signed) K.literals := by
  cases op with
  | lt => exact hS.gated (hS.lawful.lessThan ha hb signed)
  | gt => exact hS.gated (hS.lawful.lessThan hb ha signed)
  | le =>
    exact hS.bind (hS.gated (hS.lawful.lessThan hb ha signed)) fun _ _ _ _ hl =>
      hS.pure (hS.lawful.neg hl)
  | ge =>
    exact hS.bind (hS.gated (hS.lawful.lessThan ha hb signed)) fun _ _ _ _ hl =>
      hS.pure (hS.lawful.neg hl)

theorem extractBit (hS : S.Alike K) (hf : S.frames f f') (hes : ∀ e ∈ es, e.Compares S K types) :
    S.Lowers K w
      (Lower.extractBit (S.onLeft types) (es.map (Expr.lower (S.onLeft types))) f)
      (Lower.extractBit (S.onRight types) (es.map (Expr.lower (S.onRight types))) f')
      K.literals := by
  unfold Lower.extractBit
  refine hS.bind (hS.two .extractBit _ _ es) fun w₁ p q h₁ hpq => ?_
  obtain ⟨a, index, rfl, rfl, rfl⟩ := hpq
  simp only [Expr.expr_lower]
  refine hS.bind (hS.constantIndex index .extractBit _) fun w₂ i j h₂ hij => ?_
  subst hij
  split
  · exact hS.bit hf .current _ i
  · refine hS.bind ((hes a (by simp)).word w₂ f f' hf) fun w₃ u u' h₃ hu => ?_
    rw [hu.length_eq]
    exact hS.bind (hS.sameWidth _ _) fun w₄ _ _ h₄ _ => hS.bitOf (hS.lawful.mono_list h₄ hu) i

/-- A node whose kind gives a literal by nature. -/
theorem logical (hS : S.Alike K) (hf : S.frames f f') (hes : ∀ e ∈ es, e.Compares S K types)
    (kind : Kind) (htime : S.Shifts ∨ kind.isTemporal = false) :
    S.Lowers K w
      (Lower.logical (S.onLeft types) kind (es.map (Expr.lower (S.onLeft types))) f)
      (Lower.logical (S.onRight types) kind (es.map (Expr.lower (S.onRight types))) f')
      K.literals := by
  cases kind with
  | truth value => exact hS.pure (hS.lawful.constant w value)
  | not =>
    refine hS.bind (hS.one .not _ _ es) fun w₁ p q h₁ hpq => ?_
    obtain ⟨a, rfl, rfl, rfl⟩ := hpq
    exact hS.bind ((hes a (by simp)).truth w₁ f f' hf) fun _ _ _ _ hl =>
      hS.pure (hS.lawful.neg hl)
  | connective op =>
    refine hS.bind (hS.mapM K.literals hS.lawful.mono fun e he w => (hes e he).truth w f f' hf)
      fun w₁ u u' h₁ hu => build ?_
    cases op with
    | and => exact hS.lawful.andAll hu
    | or => exact hS.lawful.orAll hu
    | xor => exact hS.lawful.xorAll hu
  | implies =>
    refine hS.bind (hS.two .implies _ _ es) fun w₁ p q h₁ hpq => ?_
    obtain ⟨a, b, rfl, rfl, rfl⟩ := hpq
    exact hS.truthPair hf (hes a (by simp)) (hes b (by simp)) hS.lawful.respects_implies
  | equality negated =>
    refine hS.bind (hS.equality hf hes (.equality negated)) fun w₁ l l' h₁ hl => ?_
    cases negated with
    | true => exact hS.pure (hS.lawful.neg hl)
    | false => exact hS.pure hl
  | ite =>
    refine hS.bind (hS.three .ite _ _ es) fun w₁ p q h₁ hpq => ?_
    obtain ⟨c, a, b, rfl, rfl, rfl⟩ := hpq
    refine hS.bind ((hes c (by simp)).truth w₁ f f' hf) fun w₂ z z' h₂ hz => ?_
    refine hS.bind ((hes a (by simp)).truth w₂ f f' hf) fun w₃ x x' h₃ hx => ?_
    refine hS.bind ((hes b (by simp)).truth w₃ f f' hf) fun w₄ y y' h₄ hy => build ?_
    exact hS.lawful.select (hS.lawful.mono (hS.lawful.trans h₃ h₄) hz) (hS.lawful.mono h₄ hx) hy
  | relation op =>
    refine hS.bind (hS.wordPair hf hes (.relation op)) fun w₁ p q h₁ hpq => ?_
    refine hS.bind (hS.leading _ _ es) fun w₂ a a' h₂ ha => ?_
    obtain ⟨e, rfl, rfl⟩ := ha
    simp only [Expr.expr_lower]
    exact hS.relation op (hS.lawful.mono_list h₂ hpq.1) (hS.lawful.mono_list h₂ hpq.2) _
  | extractBit => exact hS.extractBit hf hes
  | temporal op =>
    rcases htime with hshift | htime
    · show S.Lowers K w (if S.left.multiStep = true then _ else _)
        (if S.right.multiStep = true then _ else _) _
      rw [hshift.multiStep_eq]
      split
      · exact hS.temporal hshift hf hes op
      · exact hS.refuse _
    · cases htime
  | symbol | nextSymbol | constant | nil | complement | negate | binary | extractBits | concat
  | cast => exact hS.refuse _

/-! ## Operators on words -/

theorem wordOp (hK : K.Lawful) (op : WordOp) {a a' b b' : Word} (ha : K.words w a a')
    (hb : K.words w b b') : K.Gates w (Lower.wordOp op a b) (Lower.wordOp op a' b') K.words := by
  cases op with
  | and => exact hK.bitwise hK.respects_and ha hb
  | or => exact hK.bitwise hK.respects_or ha hb
  | xor => exact hK.bitwise hK.respects_xor ha hb
  | add => exact hK.add (hK.bottom w) ha hb
  | sub => exact hK.sub ha hb
  | mul => exact hK.mul ha hb

theorem extractBits (hS : S.Alike K) (hf : S.frames f f') (hes : ∀ e ∈ es, e.Compares S K types)
    (width : Nat) :
    S.Lowers K w (Lower.extractBits width (es.map (Expr.lower (S.onLeft types))) f)
      (Lower.extractBits width (es.map (Expr.lower (S.onRight types))) f') K.words := by
  unfold Lower.extractBits
  refine hS.bind (hS.three .extractBits _ _ es) fun w₁ p q h₁ hpq => ?_
  obtain ⟨a, last, first, rfl, rfl, rfl⟩ := hpq
  simp only [Expr.expr_lower]
  refine hS.bind ((hes a (by simp)).word w₁ f f' hf) fun w₂ u u' h₂ hu => ?_
  rw [hu.length_eq]
  refine hS.bind (hS.constantIndex last .extractBits _) fun w₃ upper _ h₃ hupper => ?_
  refine hS.bind (hS.constantIndex first .extractBits _) fun w₄ lower _ h₄ hlower => ?_
  subst hupper hlower
  split
  · exact hS.refuse _
  · refine hS.bind (hS.sameWidth _ _) fun w₅ _ _ h₅ _ => ?_
    have h := hS.lawful.trans (hS.lawful.trans h₃ h₄) h₅
    exact hS.slice (hS.lawful.mono_list h hu) upper lower

/-- A node whose kind gives a word by nature, or a conditional. -/
theorem wordy (hS : S.Alike K) (hf : S.frames f f') (hes : ∀ e ∈ es, e.Compares S K types)
    (kind : Kind) (ty : Ty) :
    S.Lowers K w
      (Lower.wordy (S.onLeft types) (.node kind ty es) (es.map (Expr.lower (S.onLeft types))) f)
      (Lower.wordy (S.onRight types) (.node kind ty es) (es.map (Expr.lower (S.onRight types))) f')
      K.words := by
  cases kind with
  | symbol name =>
    show S.Lowers K w (if _ then _ else _) (if _ then _ else _) _
    split
    · exact hS.refuse _
    · exact hS.word hf .current name _
  | nextSymbol name =>
    show S.Lowers K w (if _ then _ else _) (if _ then _ else _) _
    split
    · exact hS.refuse _
    · exact hS.word hf .next name _
  | constant n =>
    show S.Lowers K w (if _ then _ else _) (if _ then _ else _) _
    split
    · exact hS.refuse _
    · exact hS.pure (hS.lawful.constants _)
  | complement =>
    refine hS.bind (hS.one .complement _ _ es) fun w₁ p q h₁ hpq => ?_
    obtain ⟨a, rfl, rfl, rfl⟩ := hpq
    exact hS.bind ((hes a (by simp)).word w₁ f f' hf) fun _ _ _ _ hu =>
      hS.pure (hS.lawful.complement hu)
  | negate =>
    refine hS.bind (hS.one .negate _ _ es) fun w₁ p q h₁ hpq => ?_
    obtain ⟨a, rfl, rfl, rfl⟩ := hpq
    exact hS.bind ((hes a (by simp)).word w₁ f f' hf) fun _ _ _ _ hu =>
      hS.gated (hS.lawful.negate hu)
  | binary op =>
    refine hS.bind (hS.wordPair hf hes (.binary op)) fun w₁ ⟨x, y⟩ ⟨x', y'⟩ h₁ ⟨hx, hy⟩ => ?_
    simp only [hx.length_eq]
    refine hS.bind (hS.sameWidth _ _) fun w₂ _ _ h₂ _ => hS.gated ?_
    exact wordOp hS.lawful op (hS.lawful.mono_list h₂ hx) (hS.lawful.mono_list h₂ hy)
  | ite =>
    refine hS.bind (hS.three .ite _ _ es) fun w₁ p q h₁ hpq => ?_
    obtain ⟨c, a, b, rfl, rfl, rfl⟩ := hpq
    refine hS.bind ((hes c (by simp)).truth w₁ f f' hf) fun w₂ z z' h₂ hz => ?_
    refine hS.bind ((hes a (by simp)).word w₂ f f' hf) fun w₃ x x' h₃ hx => ?_
    refine hS.bind ((hes b (by simp)).word w₃ f f' hf) fun w₄ y y' h₄ hy => ?_
    rw [hx.length_eq, hy.length_eq]
    refine hS.bind (hS.sameWidth _ _) fun w₅ _ _ h₅ _ => hS.gated ?_
    have h₃₅ := hS.lawful.trans (hS.lawful.trans h₃ h₄) h₅
    exact hS.lawful.mux (hS.lawful.mono h₃₅ hz)
      (hS.lawful.mono_list (hS.lawful.trans h₄ h₅) hx) (hS.lawful.mono_list h₅ hy)
  | extractBits => exact hS.extractBits hf hes _
  | concat =>
    show S.Lowers K w ((es.map _).reverse.mapM _ >>= _) ((es.map _).reverse.mapM _ >>= _) _
    rw [← List.map_reverse, ← List.map_reverse]
    refine hS.bind (hS.mapM K.words (fun h => hS.lawful.mono_list h) fun e he w =>
      (hes e (List.mem_reverse.1 he)).word w f f' hf) fun w₁ us us' h₁ hus => ?_
    have hu : K.words w₁ us.flatten us'.flatten := List.rel_flatten hus
    simp only [hu.length_eq]
    exact hS.bind (hS.sameWidth _ _) fun w₂ _ _ h₂ _ => hS.pure (hS.lawful.mono_list h₂ hu)
  | cast =>
    refine hS.bind (hS.one .cast _ _ es) fun w₁ p q h₁ hpq => ?_
    obtain ⟨a, rfl, rfl, rfl⟩ := hpq
    refine hS.bind ((hes a (by simp)).word w₁ f f' hf) fun w₂ u u' h₂ hu => ?_
    show S.Lowers K w₂ (if _ then _ else _) (if _ then _ else _) _
    simp only [Expr.expr_lower]
    split
    · exact hS.refuse _
    · exact hS.pure (hS.lawful.resize hu _ _)
  | truth | nil | not | connective | implies | equality | relation | extractBit | temporal =>
    exact hS.refuse _

/-! ## Nodes -/

theorem ofWord (hS : S.Alike K) (hf : S.frames f f') (hes : ∀ e ∈ es, e.Compares S K types)
    (kind : Kind) (ty : Ty) :
    S.Lowers K w
      (Lower.truthOf.ofWord (S.onLeft types) (.node kind ty es)
        (es.map (Expr.lower (S.onLeft types))) f)
      (Lower.truthOf.ofWord (S.onRight types) (.node kind ty es)
        (es.map (Expr.lower (S.onRight types))) f') K.literals := by
  show S.Lowers K w (if (kind.isSymbol && true || types.width ty == 1) = true then _ else _)
    (if (kind.isSymbol && true || types.width ty == 1) = true then _ else _) _
  split
  · exact hS.bind (hS.wordy hf hes kind ty) fun _ _ _ _ hu => hS.oneBit hu
  · exact hS.refuse _

theorem truthOf (hS : S.Alike K) (hf : S.frames f f') (hes : ∀ e ∈ es, e.Compares S K types)
    (kind : Kind) (htime : S.Shifts ∨ kind.isTemporal = false) (ty : Ty) :
    S.Lowers K w
      (Lower.truthOf (S.onLeft types) (.node kind ty es) (es.map (Expr.lower (S.onLeft types))) f)
      (Lower.truthOf (S.onRight types) (.node kind ty es)
        (es.map (Expr.lower (S.onRight types))) f') K.literals := by
  have hword := hS.ofWord (w := w) hf hes kind ty
  have hlogical := hS.logical (w := w) hf hes kind htime
  cases kind with
  | constant n =>
    show S.Lowers K w (if _ then _ else _) (if _ then _ else _) _
    split
    · exact hS.pure (hS.lawful.constant w _)
    · exact hword
  | symbol | nextSymbol | complement | negate | binary | extractBits | concat | cast =>
    exact hword
  | truth | nil | not | connective | implies | equality | ite | relation | extractBit
  | temporal => exact hlogical

theorem wordOf (hS : S.Alike K) (hf : S.frames f f') (hes : ∀ e ∈ es, e.Compares S K types)
    (kind : Kind) (htime : S.Shifts ∨ kind.isTemporal = false) (ty : Ty) :
    S.Lowers K w
      (Lower.wordOf (S.onLeft types) (.node kind ty es) (es.map (Expr.lower (S.onLeft types))) f)
      (Lower.wordOf (S.onRight types) (.node kind ty es)
        (es.map (Expr.lower (S.onRight types))) f') K.words := by
  unfold Lower.wordOf
  split
  · exact hS.wordy hf hes kind ty
  · split
    · exact hS.bind (hS.logical hf hes kind htime) fun _ _ _ _ hl => hS.pure (.cons hl .nil)
    · exact hS.refuse _

end Sources.Alike

namespace Expr

variable {S : Sources} {K : Comparison}

/-- The literals and the words of an expression correspond, if operators on timeframes are lowered
alike or there are none. -/
theorem compares (hS : S.Alike K) (types : TypeTable) (e : Expr)
    (htime : S.Shifts ∨ e.Timeless) : e.Compares S K types := by
  induction e using Expr.induction with
  | node kind ty es ih =>
    have hes : ∀ e ∈ es, e.Compares S K types := fun e he =>
      ih e he (htime.imp_right fun h => (timeless_node.1 h).2 e he)
    have htime : S.Shifts ∨ kind.isTemporal = false :=
      htime.imp_right fun h => (timeless_node.1 h).1
    constructor
    · intro w f f' hf
      have h := hS.truthOf (w := w) hf hes kind htime ty
      simp only [← lowerAll_eq_map] at h
      exact h
    · intro w f f' hf
      have h := hS.wordOf (w := w) hf hes kind htime ty
      simp only [← lowerAll_eq_map] at h
      exact h

/-- Requiring an expression. -/
theorem lowers_require (hS : S.Alike K) (types : TypeTable) (e : Expr)
    (htime : S.Shifts ∨ e.Timeless) {w : K.World} {f f' : Frame} (hf : S.frames f f') :
    S.Lowers K w (e.require (S.onLeft types) f) (e.require (S.onRight types) f')
      fun _ _ _ => True := by
  have htruth : ∀ e : Expr, S.Shifts ∨ e.Timeless → ∀ w, S.Lowers K w
      (e.requireTruth (S.onLeft types) f) (e.requireTruth (S.onRight types) f') fun _ _ _ => True :=
    fun e htime w => hS.bind ((compares hS types e htime).truth w f f' hf) fun w' _ _ _ hl =>
      Sources.Alike.build (hS.lawful.require w' _ _ hl)
  induction e using require_induction generalizing w with
  | conjunction ty es ih =>
    show S.Lowers K w (requireAll _ es f) (requireAll _ es f') _
    have hes := fun e he w =>
      ih e he (htime.imp_right fun h => (timeless_node.1 h).2 e he) (w := w)
    clear ih htime
    induction es generalizing w with
    | nil => exact hS.pure trivial
    | cons e es ih =>
      obtain ⟨he, hes⟩ := List.forall_mem_cons.1 hes
      exact hS.bind (he w) fun _ _ _ _ _ => ih hes
  | equality ty lhs rhs =>
    rw [require_equality, require_equality]
    exact htruth _ htime w
  | other e hrequire =>
    rw [hrequire, hrequire]
    exact htruth e htime w

end Expr

end BitUnroll
