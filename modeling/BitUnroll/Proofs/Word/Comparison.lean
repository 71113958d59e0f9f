import BitUnroll.Proofs.Circuit.Comparison
import BitUnroll.Word.Arithmetic

/-!
# Operations on words on two circuits

What keeps a comparison of circuits gate by gate also keeps it word by word: on words of literals
that correspond, an operation gives such words again, or the lengths stop it on both circuits.

## Main definitions

* `Agree`: two outcomes are results that are related, or errors that say the same.
* `Comparison.Gates`: operations on words that keep a comparison.

## Main statements

* `Comparison.Lawful.add`, `Comparison.Lawful.mul`, `Comparison.Lawful.lessThan` and so on: each
  operation on words.
-/

namespace BitUnroll

/-- Both outcomes are results, which are related, or both are errors, the second one in the words of
another side. -/
inductive Agree {ε α β : Type} (reword : ε → ε) (related : α → β → Prop) :
    Except ε α → Except ε β → Prop
  | ok {a : α} {b : β} (h : related a b) : Agree reword related (.ok a) (.ok b)
  | error (e : ε) : Agree reword related (.error e) (.error (reword e))

namespace Comparison

variable {K : Comparison} {w : K.World} {α β γ δ : Type}

/-- Words whose literals correspond, bit by bit. -/
abbrev words (K : Comparison) (w : K.World) : Word → Word → Prop := List.Forall₂ (K.literals w)

/-- Operations on words that keep a comparison. Their results are related, or the lengths stop
both. -/
def Gates (K : Comparison) (w : K.World) (x : Word.Gated α) (y : Word.Gated β)
    (post : K.World → α → β → Prop) : Prop :=
  K.Builds w x.run y.run fun w' => Agree id (post w')

namespace Lawful

variable {a b a' b' : Word}

/-- Circuit building that nothing stops. -/
theorem gated (_ : K.Lawful) {x : Build α} {y : Build β} {post : K.World → α → β → Prop}
    (h : K.Builds w x y post) : K.Gates w (liftM x) (liftM y) post := by
  intro c d hcd
  obtain ⟨w', hle, hcd', hpost⟩ := h c d hcd
  exact ⟨w', hle, hcd', .ok hpost⟩

/-- Operations on words one after the other. -/
theorem sequence (hK : K.Lawful) {x : Word.Gated α} {y : Word.Gated β} {f : α → Word.Gated γ}
    {g : β → Word.Gated δ} {mid : K.World → α → β → Prop} {post : K.World → γ → δ → Prop}
    (hx : K.Gates w x y mid)
    (hf : ∀ w' r r', K.le w w' → mid w' r r' → K.Gates w' (f r) (g r') post) :
    K.Gates w (x >>= f) (y >>= g) post := by
  unfold Gates
  rw [ExceptT.run_bind, ExceptT.run_bind]
  refine hK.bind hx fun w₁ r r' h₁ hr => ?_
  cases hr with
  | ok hmid => exact hf w₁ _ _ h₁ hmid
  | error e => exact hK.pure (.error e)

/-- An operation on two words keeps a comparison if it does on words of one length. -/
theorem aligned (hK : K.Lawful) {x : Build α} {y : Build β} {post : K.World → α → β → Prop}
    (ha : K.words w a a') (hb : K.words w b b') (h : K.Builds w x y post) :
    K.Gates w (Word.aligned a b x) (Word.aligned a' b' y) post := by
  unfold Word.aligned
  rw [ha.length_eq, hb.length_eq]
  split
  · exact hK.pure (.error _)
  · exact hK.gated h

/-! ## Bit by bit -/

/-- One gate for each bit. -/
theorem mapM (hK : K.Lawful) {f g : Literal → Build Literal}
    (hf : ∀ w' x x', K.le w w' → K.literals w' x x' → K.Builds w' (f x) (g x') K.literals)
    (ha : K.words w a a') : K.Builds w (a.mapM f) (a'.mapM g) K.words := by
  induction a generalizing a' w with
  | nil =>
    cases ha
    exact hK.pure .nil
  | cons x a ih =>
    obtain ⟨x', rest, hx, hrest, rfl⟩ := List.forall₂_cons_left_iff.1 ha
    rw [List.mapM_cons, List.mapM_cons]
    refine hK.bind (hf w _ _ (hK.refl w) hx) fun w₁ l l' h₁ hl => ?_
    refine hK.bind (ih (fun w' _ _ h => hf w' _ _ (hK.trans h₁ h)) (hK.mono_list h₁ hrest))
      fun w₂ u u' h₂ hu => hK.pure ?_
    exact .cons (hK.mono h₂ hl) hu

/-- One gate for each pair of bits. -/
theorem zipGates (hK : K.Lawful) {f g : Literal → Literal → Build Literal}
    (hf : ∀ w' x y x' y', K.le w w' → K.literals w' x x' → K.literals w' y y' →
      K.Builds w' (f x y) (g x' y') K.literals)
    (ha : K.words w a a') (hb : K.words w b b') :
    K.Builds w (Word.zipGates f a b) (Word.zipGates g a' b') K.words := by
  induction a generalizing a' b b' w with
  | nil =>
    cases ha
    exact hK.pure .nil
  | cons x a ih =>
    obtain ⟨x', rest, hx, hrest, rfl⟩ := List.forall₂_cons_left_iff.1 ha
    cases b with
    | nil =>
      cases hb
      exact hK.pure .nil
    | cons y b =>
      obtain ⟨y', more, hy, hmore, rfl⟩ := List.forall₂_cons_left_iff.1 hb
      refine hK.bind (hf w _ _ _ _ (hK.refl w) hx hy) fun w₁ l l' h₁ hl => ?_
      refine hK.bind (ih (fun w' _ _ _ _ h => hf w' _ _ _ _ (hK.trans h₁ h))
        (hK.mono_list h₁ hrest) (hK.mono_list h₁ hmore)) fun w₂ u u' h₂ hu => hK.pure ?_
      exact .cons (hK.mono h₂ hl) hu

theorem bitwise (hK : K.Lawful) {f : Literal → Literal → Build Literal} (hf : K.Respects f)
    (ha : K.words w a a') (hb : K.words w b b') :
    K.Gates w (Word.bitwise f a b) (Word.bitwise f a' b') K.words :=
  hK.aligned ha hb (hK.zipGates (fun w' _ _ _ _ _ => hf w' _ _ _ _) ha hb)

theorem mux (hK : K.Lawful) {c c' : Literal} (hc : K.literals w c c') (ha : K.words w a a')
    (hb : K.words w b b') : K.Gates w (Word.mux c a b) (Word.mux c' a' b') K.words :=
  hK.aligned ha hb (hK.zipGates (fun _ _ _ _ _ h => hK.select (hK.mono h hc)) ha hb)

/-! ## Constants -/

/-- A constant word corresponds to itself. -/
theorem constants (hK : K.Lawful) (bits : Bits) :
    K.words w (bits.map .ofBool) (bits.map .ofBool) := by
  rw [words, List.forall₂_map_left_iff, List.forall₂_map_right_iff, List.forall₂_same]
  exact fun p _ => hK.constant w p

theorem replicate {l l' : Literal} (h : K.literals w l l') (n : Nat) :
    K.words w (List.replicate n l) (List.replicate n l') := by
  induction n with
  | zero => exact .nil
  | succ n ih => exact .cons h ih

theorem complement (hK : K.Lawful) (ha : K.words w a a') :
    K.words w a.complement a'.complement := by
  rw [words, Word.complement, Word.complement, List.forall₂_map_left_iff,
    List.forall₂_map_right_iff]
  exact ha.imp fun _ _ => hK.neg

/-! ## Sums -/

theorem fullAdder (hK : K.Lawful) {x y c x' y' c' : Literal} (hx : K.literals w x x')
    (hy : K.literals w y y') (hc : K.literals w c c') :
    K.Builds w (Word.fullAdder x y c) (Word.fullAdder x' y' c') fun w' out out' =>
      K.literals w' out.1 out'.1 ∧ K.literals w' out.2 out'.2 := by
  refine hK.bind (hK.respects_xor w _ _ _ _ hx hy) fun w₁ half half' h₁ hhalf => ?_
  refine hK.bind (hK.respects_xor w₁ _ _ _ _ hhalf (hK.mono h₁ hc)) fun w₂ sum sum' h₂ hsum => ?_
  have h₁₂ := hK.trans h₁ h₂
  refine hK.bind (hK.respects_and w₂ _ _ _ _ (hK.mono h₁₂ hx) (hK.mono h₁₂ hy))
    fun w₃ both both' h₃ hboth => ?_
  refine hK.bind (hK.respects_and w₃ _ _ _ _ (hK.mono (hK.trans h₁₂ h₃) hc)
    (hK.mono (hK.trans h₂ h₃) hhalf)) fun w₄ passed passed' h₄ hpassed => ?_
  refine hK.bind (hK.respects_or w₄ _ _ _ _ (hK.mono h₄ hboth) hpassed)
    fun w₅ out out' h₅ hout => hK.pure ⟨?_, hout⟩
  exact hK.mono (hK.trans (hK.trans h₃ h₄) h₅) hsum

theorem ripple (hK : K.Lawful) {c c' : Literal} (hc : K.literals w c c') (ha : K.words w a a')
    (hb : K.words w b b') : K.Builds w (Word.ripple c a b) (Word.ripple c' a' b') K.words := by
  induction a generalizing a' b b' c c' w with
  | nil =>
    cases ha
    exact hK.pure .nil
  | cons x a ih =>
    obtain ⟨x', rest, hx, hrest, rfl⟩ := List.forall₂_cons_left_iff.1 ha
    cases b with
    | nil =>
      cases hb
      exact hK.pure .nil
    | cons y b =>
      obtain ⟨y', more, hy, hmore, rfl⟩ := List.forall₂_cons_left_iff.1 hb
      refine hK.bind (hK.fullAdder hx hy hc) fun w₁ out out' h₁ hout => ?_
      refine hK.bind (ih hout.2 (hK.mono_list h₁ hrest) (hK.mono_list h₁ hmore))
        fun w₂ u u' h₂ hu => hK.pure ?_
      exact .cons (hK.mono h₂ hout.1) hu

theorem add (hK : K.Lawful) {c c' : Literal} (hc : K.literals w c c') (ha : K.words w a a')
    (hb : K.words w b b') : K.Gates w (Word.add a b c) (Word.add a' b' c') K.words :=
  hK.aligned ha hb (hK.ripple hc ha hb)

theorem sub (hK : K.Lawful) (ha : K.words w a a') (hb : K.words w b b') :
    K.Gates w (Word.sub a b) (Word.sub a' b') K.words :=
  hK.add (hK.top w) ha (hK.complement hb)

theorem negate (hK : K.Lawful) (ha : K.words w a a') :
    K.Gates w a.negate a'.negate K.words := by
  unfold Word.negate Word.zero
  rw [ha.length_eq]
  exact hK.sub (replicate (hK.bottom w) _) ha

/-! ## Products -/

theorem product (hK : K.Lawful) (ha : K.words w a a') (shift : Nat) {l l' : Literal}
    (hl : K.literals w l l') :
    K.Builds w (Word.product a shift l) (Word.product a' shift l') K.words := by
  unfold Word.product Word.zero
  rw [ha.length_eq]
  refine hK.bind (hK.mapM (fun w' x x' h hx => hK.respects_and w' _ _ _ _ (hK.mono h hl) hx)
    (List.forall₂_take _ ha)) fun w₁ u u' h₁ hu => hK.pure ?_
  exact List.rel_append (replicate (hK.bottom w₁) _) hu

theorem sumProducts (hK : K.Lawful) (ha : K.words w a a') (shift : Nat) {sum sum' : Word}
    (hsum : K.words w sum sum') (hb : K.words w b b') :
    K.Gates w (Word.sumProducts a shift sum b) (Word.sumProducts a' shift sum' b') K.words := by
  induction b generalizing b' shift sum sum' w with
  | nil =>
    cases hb
    exact hK.pure (.ok hsum)
  | cons l b ih =>
    obtain ⟨l', rest, hl, hrest, rfl⟩ := List.forall₂_cons_left_iff.1 hb
    refine hK.sequence (hK.gated (hK.product ha shift hl)) fun w₁ term term' h₁ hterm => ?_
    refine hK.sequence (hK.add (hK.bottom w₁) (hK.mono_list h₁ hsum) hterm)
      fun w₂ u u' h₂ hu => ?_
    have h₁₂ := hK.trans h₁ h₂
    exact ih (hK.mono_list h₁₂ ha) (shift + 1) hu (hK.mono_list h₁₂ hrest)

theorem mul (hK : K.Lawful) (ha : K.words w a a') (hb : K.words w b b') :
    K.Gates w (Word.mul a b) (Word.mul a' b') K.words := by
  unfold Word.mul Word.zero
  rw [ha.length_eq]
  have haligned : K.Gates w (Word.aligned a b (return ())) (Word.aligned a' b' (return ()))
      fun _ _ _ => True := hK.aligned ha hb (hK.pure trivial)
  refine hK.sequence haligned fun w₁ _ _ h₁ _ => ?_
  exact hK.sumProducts (hK.mono_list h₁ ha) 0 (replicate (hK.bottom w₁) _) (hK.mono_list h₁ hb)

/-! ## Comparisons -/

theorem equal (hK : K.Lawful) (ha : K.words w a a') (hb : K.words w b b') :
    K.Gates w (Word.equal a b) (Word.equal a' b') K.literals :=
  hK.aligned ha hb (hK.bind (hK.zipGates (fun w' _ _ _ _ _ => hK.respects_iff w' _ _ _ _) ha hb)
    fun _ _ _ _ hu => hK.andAll hu)

/-- Pairs of literals that correspond. -/
abbrev pairs (K : Comparison) (w : K.World) :
    List (Literal × Literal) → List (Literal × Literal) → Prop :=
  List.Forall₂ fun p q => K.literals w p.1 q.1 ∧ K.literals w p.2 q.2

theorem lessTerms (hK : K.Lawful) {agree agree' : Literal} (hagree : K.literals w agree agree')
    {ps qs : List (Literal × Literal)} (hps : pairs K w ps qs) :
    K.Builds w (Word.lessTerms agree ps) (Word.lessTerms agree' qs) K.words := by
  induction ps generalizing qs agree agree' w with
  | nil =>
    cases hps
    exact hK.pure .nil
  | cons p ps ih =>
    obtain ⟨q, rest, ⟨hx, hy⟩, hrest, rfl⟩ := List.forall₂_cons_left_iff.1 hps
    refine hK.bind (hK.respects_and w _ _ _ _ (hK.neg hx) hy) fun w₁ less less' h₁ hless => ?_
    refine hK.bind (hK.respects_and w₁ _ _ _ _ (hK.mono h₁ hagree) hless)
      fun w₂ term term' h₂ hterm => ?_
    have h₁₂ := hK.trans h₁ h₂
    refine hK.bind (hK.respects_iff w₂ _ _ _ _ (hK.mono h₁₂ hx) (hK.mono h₁₂ hy))
      fun w₃ same same' h₃ hsame => ?_
    have h₁₃ := hK.trans h₁₂ h₃
    refine hK.bind (hK.respects_and w₃ _ _ _ _ (hK.mono h₁₃ hagree) hsame)
      fun w₄ next next' h₄ hnext => ?_
    have h₁₄ := hK.trans h₁₃ h₄
    refine hK.bind (ih hnext (hrest.imp fun _ _ h => ⟨hK.mono h₁₄ h.1, hK.mono h₁₄ h.2⟩))
      fun w₅ u u' h₅ hu => hK.pure ?_
    exact .cons (hK.mono (hK.trans (hK.trans h₃ h₄) h₅) hterm) hu

theorem zip (ha : K.words w a a') (hb : K.words w b b') : pairs K w (a.zip b) (a'.zip b') := by
  induction ha generalizing b b' with
  | nil => exact .nil
  | cons hx _ ih =>
    cases hb with
    | nil => exact .nil
    | cons hy hb => exact .cons ⟨hx, hy⟩ (ih hb)

theorem orderPairs (hK : K.Lawful) (signed : Bool) (ha : K.words w a a') (hb : K.words w b b') :
    pairs K w (Word.orderPairs signed a b) (Word.orderPairs signed a' b') := by
  unfold Word.orderPairs
  have hzip := List.forall₂_reverse_iff.2 (zip ha hb)
  cases hp : (a.zip b).reverse with
  | nil =>
    rw [hp, List.forall₂_nil_left_iff] at hzip
    rw [hzip]
    exact .nil
  | cons p ps =>
    rw [hp] at hzip
    obtain ⟨q, rest, ⟨hx, hy⟩, hrest, hq⟩ := List.forall₂_cons_left_iff.1 hzip
    rw [hq]
    cases signed
    · exact .cons ⟨hx, hy⟩ hrest
    · exact .cons ⟨hK.neg hx, hK.neg hy⟩ hrest

theorem lessThan (hK : K.Lawful) (ha : K.words w a a') (hb : K.words w b b') (signed : Bool) :
    K.Gates w (Word.lessThan a b signed) (Word.lessThan a' b' signed) K.literals :=
  hK.aligned ha hb (hK.bind (hK.lessTerms (hK.top w) (hK.orderPairs signed ha hb))
    fun _ _ _ _ hu => hK.orAll hu)

/-! ## Parts of words -/

theorem resize (hK : K.Lawful) (ha : K.words w a a') (width : Nat) (signed : Bool) :
    K.words w (a.resize width signed) (a'.resize width signed) := by
  have hlast : K.literals w (a.getLastD .bottom) (a'.getLastD .bottom) := by
    induction ha with
    | nil => exact hK.bottom w
    | cons hx hrest ih =>
      cases hrest with
      | nil => exact hx
      | cons hy hrest => simpa using ih
  have hextension : K.literals w (a.extension signed) (a'.extension signed) := by
    cases signed
    · exact hK.bottom w
    · exact hlast
  unfold Word.resize
  rw [ha.length_eq]
  exact List.rel_append (List.forall₂_take _ ha) (replicate hextension _)

theorem slice (ha : K.words w a a') (upper lower : Nat) :
    K.words w (a.slice upper lower) (a'.slice upper lower) :=
  List.forall₂_take _ (List.forall₂_drop _ ha)

end Lawful

end Comparison

end BitUnroll
