import BitUnroll.Lower.Expr

/-!
# Lengths of words

How many bits the operations on words give, whatever the circuit. Operations on words of one length
are stopped nowhere, also where one operation is made from others, as a product is from sums.

## Main definitions

* `Word.Gated.Gives`: no lengths stop an operation, and its result has a property.

## Main statements

* `Word.gives_add`, `Word.gives_mul`, `Word.gives_mux` and so on: the number of bits of a result.
-/

namespace BitUnroll

namespace Word

variable {α β : Type} {a b : Word} {post : α → Prop}

/-! ## Bit by bit -/

theorem length_zipGates (f : Literal → Literal → Build Literal) (h : a.length = b.length)
    (c : Circuit) : (zipGates f a b c).1.length = a.length := by
  induction a generalizing b c with
  | nil => rfl
  | cons x a ih =>
    cases b with
    | nil => cases h
    | cons y b => exact congrArg (· + 1) (ih (Nat.succ.inj h) _)

theorem length_ripple (carry : Literal) (h : a.length = b.length) (c : Circuit) :
    (ripple carry a b c).1.length = a.length := by
  induction a generalizing b carry c with
  | nil => rfl
  | cons x a ih =>
    cases b with
    | nil => cases h
    | cons y b => exact congrArg (· + 1) (ih _ (Nat.succ.inj h) _)

theorem length_mapM (f : Literal → Build Literal) (a : Word) (c : Circuit) :
    (a.mapM f c).1.length = a.length := by
  induction a generalizing c with
  | nil => rfl
  | cons x a ih =>
    rw [List.mapM_cons]
    exact congrArg (· + 1) (ih _)

theorem length_product (a : Word) (shift : Nat) (bit : Literal) (c : Circuit) :
    (product a shift bit c).1.length = a.length := by
  have h : (product a shift bit c).1 =
      zero (min shift a.length) ++ ((a.take (a.length - shift)).mapM (Circuit.and bit) c).1 := rfl
  rw [h, List.length_append, length_zero, length_mapM, List.length_take]
  omega

/-! ## Operations that lengths may stop -/

/-- On every circuit an operation has a result, with a property. -/
def Gated.Gives (x : Gated α) (post : α → Prop) : Prop :=
  ∀ c, ∃ y, (x.run c).1 = .ok y ∧ post y

theorem Gated.Gives.pure {y : α} (h : post y) : Gives (Pure.pure y) post := fun _ => ⟨y, rfl, h⟩

theorem Gated.Gives.lift {x : Build α} (h : ∀ c, post (x c).1) : Gives (liftM x) post :=
  fun c => ⟨(x c).1, rfl, h c⟩

theorem Gated.Gives.bind {x : Gated α} {f : α → Gated β} {mid : α → Prop} {post : β → Prop}
    (hx : Gives x mid) (hf : ∀ y, mid y → Gives (f y) post) : Gives (x >>= f) post := by
  intro c
  obtain ⟨y, hy, hmid⟩ := hx c
  obtain ⟨z, hz, hpost⟩ := hf y hmid (x.run c).2
  refine ⟨z, ?_, hpost⟩
  have hrun : (x >>= f).run c = ExceptT.bindCont f (x.run c).1 (x.run c).2 := rfl
  rw [hrun, hy]
  exact hz

/-- Words of one length stop no operation. -/
theorem gives_aligned (h : a.length = b.length) {x : Build α} (hx : ∀ c, post (x c).1) :
    Gated.Gives (aligned a b x) post := by
  rw [aligned, if_neg (not_not_intro h)]
  exact .lift hx

theorem gives_bitwise (f : Literal → Literal → Build Literal) (h : a.length = b.length) :
    (bitwise f a b).Gives fun w => w.length = a.length :=
  gives_aligned h (length_zipGates f h)

theorem gives_mux (condition : Literal) (h : a.length = b.length) :
    (mux condition a b).Gives fun w => w.length = a.length :=
  gives_aligned h (length_zipGates _ h)

theorem gives_add (carry : Literal) (h : a.length = b.length) :
    (add a b carry).Gives fun w => w.length = a.length :=
  gives_aligned h (length_ripple carry h)

theorem gives_sub (h : a.length = b.length) : (sub a b).Gives fun w => w.length = a.length :=
  gives_add .top (by simpa using h)

theorem gives_negate (a : Word) : a.negate.Gives fun w => w.length = a.length := by
  have h := gives_sub (length_zero a.length)
  rwa [length_zero] at h

/-- Each sum of products has the length of the products. -/
theorem gives_sumProducts (shift : Nat) {sum : Word} (h : sum.length = a.length) (b : Word) :
    (sumProducts a shift sum b).Gives fun w => w.length = a.length := by
  induction b generalizing shift sum with
  | nil => exact .pure h
  | cons bit b ih =>
    have hproduct : Gated.Gives (liftM (product a shift bit)) fun term => term.length = a.length :=
      .lift (length_product a shift bit)
    refine hproduct.bind fun term hterm => ?_
    exact (gives_add .bottom (h.trans hterm.symm)).bind fun next hnext =>
      ih (shift + 1) (hnext.trans h)

theorem gives_mul (h : a.length = b.length) : (mul a b).Gives fun w => w.length = a.length := by
  have haligned : Gated.Gives (aligned a b (return ())) fun _ => True :=
    gives_aligned h fun _ => trivial
  exact haligned.bind fun _ _ => gives_sumProducts 0 (length_zero _) b

/-! ## Comparisons -/

theorem gives_equal (h : a.length = b.length) : (equal a b).Gives fun _ => True :=
  gives_aligned h fun _ => trivial

theorem gives_lessThan (h : a.length = b.length) (signed : Bool) :
    (lessThan a b signed).Gives fun _ => True :=
  gives_aligned h fun _ => trivial

/-- An operator on two words gives as many bits as they have. -/
theorem gives_wordOp (op : WordOp) (h : a.length = b.length) :
    (Lower.wordOp op a b).Gives fun w => w.length = a.length := by
  cases op with
  | and | or | xor => exact gives_bitwise _ h
  | add => exact gives_add .bottom h
  | sub => exact gives_sub h
  | mul => exact gives_mul h

end Word

end BitUnroll
