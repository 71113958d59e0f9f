import BitUnroll.Logic.Circuit
import Mathlib.Data.List.Forall2

/-!
# Computations on two circuits

One computation may be run on two circuits, on literals that correspond. If each gate and each
requirement keeps the circuits and the literals in correspondence, then so does everything that is
made from them. What the correspondence is does not matter: the circuits may be one and the same,
or one of them may be much simpler than the other.

## Main definitions

* `Comparison`: which circuits and which literals correspond, while the circuits grow.
* `Comparison.Builds`: two computations that keep a comparison, and how their results are related.
* `Comparison.Lawful`: gates and requirements keep a comparison.

## Main statements

* `Comparison.Lawful.respects_or` and so on: the gates made from gates.
-/

namespace BitUnroll

/-- Which circuits and literals correspond to each other. A world is a stage of the growth of both
circuits; literals that correspond still do so in later worlds. -/
structure Comparison where
  World : Type
  le : World → World → Prop
  circuits : World → Circuit → Circuit → Prop
  literals : World → Literal → Literal → Prop

namespace Comparison

variable {K : Comparison} {w : K.World} {α β γ δ : Type}

/-- Circuits that correspond in a world are led to circuits that correspond in a later one, where
the results are related. -/
def Builds (K : Comparison) (w : K.World) (x : Build α) (y : Build β)
    (post : K.World → α → β → Prop) : Prop :=
  ∀ c d, K.circuits w c d →
    ∃ w', K.le w w' ∧ K.circuits w' (x c).2 (y d).2 ∧ post w' (x c).1 (y d).1

/-- Pairs of literals that correspond are led to literals that correspond. -/
def Respects (K : Comparison) (x : Literal → Literal → Build Literal) : Prop :=
  ∀ w a b a' b', K.literals w a a' → K.literals w b b' →
    K.Builds w (x a b) (x a' b') K.literals

/-- Gates and requirements keep a comparison, in which constants correspond to themselves. -/
structure Lawful (K : Comparison) : Prop where
  refl : ∀ w, K.le w w
  trans : ∀ {w w' w''}, K.le w w' → K.le w' w'' → K.le w w''
  mono : ∀ {w w' a a'}, K.le w w' → K.literals w a a' → K.literals w' a a'
  constant : ∀ w value, K.literals w (.ofBool value) (.ofBool value)
  neg : ∀ {w a a'}, K.literals w a a' → K.literals w (-a) (-a')
  gate : ∀ op, K.Respects (Circuit.gate op)
  require : ∀ w a a', K.literals w a a' →
    K.Builds w (Circuit.require a) (Circuit.require a') fun _ _ _ => True

namespace Lawful

variable {post : K.World → α → β → Prop}

theorem pure (hK : K.Lawful) {a : α} {b : β} (h : post w a b) :
    K.Builds w (Pure.pure a) (Pure.pure b) post :=
  fun _ _ hcd => ⟨w, hK.refl w, hcd, h⟩

/-- Results that are related may be used by computations that go on from a later world. -/
theorem bind (hK : K.Lawful) {x : Build α} {y : Build β} {f : α → Build γ} {g : β → Build δ}
    {mid : K.World → α → β → Prop} {post : K.World → γ → δ → Prop} (hx : K.Builds w x y mid)
    (hf : ∀ w' a b, K.le w w' → mid w' a b → K.Builds w' (f a) (g b) post) :
    K.Builds w (x >>= f) (y >>= g) post := by
  intro c d hcd
  obtain ⟨w₁, h₁, hcd₁, hmid⟩ := hx c d hcd
  obtain ⟨w₂, h₂, hcd₂, hpost⟩ := hf w₁ _ _ h₁ hmid _ _ hcd₁
  exact ⟨w₂, hK.trans h₁ h₂, hcd₂, hpost⟩

theorem top (hK : K.Lawful) (w : K.World) : K.literals w .top .top := hK.constant w true

theorem bottom (hK : K.Lawful) (w : K.World) : K.literals w .bottom .bottom :=
  hK.constant w false

/-- Lists of literals that correspond, in later worlds. -/
theorem mono_list (hK : K.Lawful) {w' : K.World} (h : K.le w w') {ls ls' : List Literal}
    (hls : List.Forall₂ (K.literals w) ls ls') : List.Forall₂ (K.literals w') ls ls' :=
  hls.imp fun _ _ => hK.mono h

/-! ## Gates -/

theorem respects_and (hK : K.Lawful) : K.Respects Circuit.and := hK.gate .and

theorem respects_xor (hK : K.Lawful) : K.Respects Circuit.xor := hK.gate .xor

theorem respects_or (hK : K.Lawful) : K.Respects Circuit.or := fun w _ _ _ _ ha hb =>
  hK.bind (hK.respects_and w _ _ _ _ (hK.neg ha) (hK.neg hb)) fun _ _ _ _ hl =>
    hK.pure (hK.neg hl)

theorem respects_implies (hK : K.Lawful) : K.Respects Circuit.implies := fun w _ _ _ _ ha hb =>
  hK.respects_or w _ _ _ _ (hK.neg ha) hb

theorem respects_iff (hK : K.Lawful) : K.Respects Circuit.iff := fun w _ _ _ _ ha hb =>
  hK.bind (hK.respects_xor w _ _ _ _ ha hb) fun _ _ _ _ hl => hK.pure (hK.neg hl)

theorem select (hK : K.Lawful) {c c' a a' b b' : Literal} (hc : K.literals w c c')
    (ha : K.literals w a a') (hb : K.literals w b b') :
    K.Builds w (Circuit.select c a b) (Circuit.select c' a' b') K.literals := by
  refine hK.bind (hK.respects_and w _ _ _ _ hc ha) fun w₁ chosen chosen' h₁ hchosen => ?_
  refine hK.bind (hK.respects_and w₁ _ _ _ _ (hK.neg (hK.mono h₁ hc)) (hK.mono h₁ hb))
    fun w₂ other other' h₂ hother => ?_
  exact hK.respects_or w₂ _ _ _ _ (hK.mono h₂ hchosen) hother

/-- A gate over a list, from the left. -/
theorem foldlM (hK : K.Lawful) {x : Literal → Literal → Build Literal} (hx : K.Respects x)
    {ls ls' : List Literal} (hls : List.Forall₂ (K.literals w) ls ls') {a a' : Literal}
    (ha : K.literals w a a') : K.Builds w (ls.foldlM x a) (ls'.foldlM x a') K.literals := by
  induction ls generalizing ls' w a a' with
  | nil =>
    cases hls
    exact hK.pure ha
  | cons b ls ih =>
    obtain ⟨b', rest, hb, hrest, rfl⟩ := List.forall₂_cons_left_iff.1 hls
    rw [List.foldlM_cons, List.foldlM_cons]
    exact hK.bind (hx w _ _ _ _ ha hb) fun w' l l' h hl => ih (hK.mono_list h hrest) hl

theorem andAll (hK : K.Lawful) {ls ls' : List Literal}
    (hls : List.Forall₂ (K.literals w) ls ls') :
    K.Builds w (Circuit.andAll ls) (Circuit.andAll ls') K.literals := by
  cases hls with
  | nil => exact hK.pure (hK.top w)
  | cons hfirst hrest => exact hK.foldlM hK.respects_and hrest hfirst

theorem orAll (hK : K.Lawful) {ls ls' : List Literal}
    (hls : List.Forall₂ (K.literals w) ls ls') :
    K.Builds w (Circuit.orAll ls) (Circuit.orAll ls') K.literals := by
  cases hls with
  | nil => exact hK.pure (hK.bottom w)
  | cons hfirst hrest => exact hK.foldlM hK.respects_or hrest hfirst

theorem xorAll (hK : K.Lawful) {ls ls' : List Literal}
    (hls : List.Forall₂ (K.literals w) ls ls') :
    K.Builds w (Circuit.xorAll ls) (Circuit.xorAll ls') K.literals :=
  hK.foldlM hK.respects_xor hls (hK.bottom w)

end Lawful

end Comparison

end BitUnroll
