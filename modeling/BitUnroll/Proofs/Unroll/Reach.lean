import BitUnroll.Proofs.Lowering.Footprint
import BitUnroll.Proofs.Script.Scoping
import BitUnroll.Proofs.Unroll.Encoding

/-!
# What the reach of an expression says

The reach of an expression in a frame is the latest timeframe of its footprint. No question is about
a later one, and where delays and indices are numbers in range there is a question about that one,
so lowering an expression over the variables of a system reads no timeframe that the reach does not
allow, and reads the reach itself.

## Main definitions

* `Lower.Confirms`: runs of a lowering computation show that a reach is right.

## Main statements

* `Expr.reach?_of_asks`, `Expr.exists_asks_of_reach?`: the reach and the footprint.
* `Script.reach_exact`: the reach of the expressions of a script.
-/

namespace BitUnroll

theorem later?_none (a : Option Nat) : later? a none = a := by cases a <;> rfl

/-- Where a shift succeeds, nothing is clamped. -/
theorem Frame.shiftClamped_of_shift {f g : Frame} {k : Nat} (h : f.shift k = .ok g) :
    f.shiftClamped k = g := by
  obtain ⟨hcurrent, hnext, rfl⟩ := Frame.shift_eq_ok_iff.1 h
  simp only [Frame.shiftClamped, Frame.clamp, Frame.later, Frame.mk.injEq]
  omega

namespace Expr

variable {e : Expr} {es : List Expr} {f g : Frame} {t : Nat} {kind : Kind} {ty : Ty}
  {vars : List (String × Ty)} {types : TypeTable} {r : Resolver} {n : Read}

/-! ## The latest of some timeframes -/

theorem reachAll?_eq_some (h : reachAll? es f = some t) : ∃ e ∈ es, e.reach? f = some t := by
  induction es generalizing t with
  | nil => cases h
  | cons e es ih =>
    rw [reachAll?] at h
    rcases he : e.reach? f with _ | a <;> rcases hes : reachAll? es f with _ | b <;>
      rw [he, hes] at h
    · cases h
    · obtain ⟨e', hmem, he'⟩ := ih hes
      obtain rfl : b = t := Option.some.inj h
      exact ⟨e', List.mem_cons_of_mem _ hmem, he'⟩
    · obtain rfl : a = t := Option.some.inj h
      exact ⟨e, List.mem_cons_self, he⟩
    · obtain rfl : max a b = t := Option.some.inj h
      rcases Nat.le_total a b with hle | hle
      · obtain ⟨e', hmem, he'⟩ := ih hes
        rw [Nat.max_eq_right hle]
        exact ⟨e', List.mem_cons_of_mem _ hmem, he'⟩
      · rw [Nat.max_eq_left hle]
        exact ⟨e, List.mem_cons_self, he⟩

theorem reachAll?_of_mem (he : e ∈ es) (h : e.reach? f = some t) :
    ∃ u, reachAll? es f = some u ∧ t ≤ u := by
  induction es with
  | nil => cases he
  | cons x es ih =>
    rw [reachAll?]
    rcases List.mem_cons.1 he with rfl | he
    · rw [h]
      cases reachAll? es f with
      | none => exact ⟨t, rfl, Nat.le_refl t⟩
      | some b => exact ⟨max t b, rfl, Nat.le_max_left t b⟩
    · obtain ⟨u, hu, hle⟩ := ih he
      rw [hu]
      cases x.reach? f with
      | none => exact ⟨u, rfl, hle⟩
      | some a => exact ⟨max a u, rfl, Nat.le_trans hle (Nat.le_max_right a u)⟩

/-! ## Delays -/

/-- A kind of node that reads what its operands read. -/
def PassesOn (kind : Kind) (es : List Expr) : Prop :=
  match kind, es with
  | .symbol _, _ | .nextSymbol _, _ | .temporal .delay, [_, _, _] => False
  | _, _ => True

theorem reach?_of_passesOn (h : PassesOn kind es) (ty : Ty) (f : Frame) :
    (node kind ty es).reach? f = reachAll? es f := by
  cases kind with
  | symbol | nextSymbol => exact h.elim
  | temporal op =>
    cases op with
    | delay =>
      rcases es with _ | ⟨a, _ | ⟨b, _ | ⟨c, _ | ⟨d, es⟩⟩⟩⟩
      · rfl
      · rfl
      · rfl
      · exact h.elim
      · rfl
    | overlapped | nonOverlapped | concat => rfl
  | constant | truth | nil | not | connective | implies | equality | ite | complement | negate
  | binary | relation | extractBit | extractBits | concat | cast => rfl

theorem reach?_delay (first last body : Expr) (ty : Ty) (f : Frame) :
    (node (.temporal .delay) ty [first, last, body]).reach? f =
      match lastOffset? first last with
      | some offset => body.reach? (f.shiftClamped offset)
      | none => none := rfl

/-- A later frame leads to a later reach. -/
theorem reach?_mono (hcurrent : f.current ≤ g.current) (hnext : f.next ≤ g.next)
    (h : e.reach? f = some t) : ∃ u, e.reach? g = some u ∧ t ≤ u := by
  induction e using Expr.induction generalizing f g t with
  | node kind ty es ih =>
    by_cases hpasses : PassesOn kind es
    · rw [reach?_of_passesOn hpasses] at h ⊢
      obtain ⟨e, he, h⟩ := reachAll?_eq_some h
      obtain ⟨u, hu, hle⟩ := ih e he hcurrent hnext h
      obtain ⟨u', hu', hle'⟩ := reachAll?_of_mem he hu
      exact ⟨u', hu', Nat.le_trans hle hle'⟩
    · unfold PassesOn at hpasses
      split at hpasses
      · obtain rfl := Option.some.inj h
        exact ⟨g.current, rfl, hcurrent⟩
      · obtain rfl := Option.some.inj h
        exact ⟨g.next, rfl, hnext⟩
      · rename_i first last body
        rw [reach?_delay] at h ⊢
        split at h
        · rename_i offset _
          refine ih body (by simp) ?_ ?_ h <;> simp only [Frame.shiftClamped, Frame.clamp] <;> omega
        · cases h
      · exact absurd trivial hpasses

/-- The greatest offset of a delay is the last one. -/
theorem lastOffset?_of_mem {first last : Expr} {k : Nat} (hk : k ∈ offsets first last) :
    ∃ offset, lastOffset? first last = some offset ∧ k ≤ offset := by
  unfold offsets at hk
  unfold lastOffset?
  cases hnil : last.isNil with
  | true =>
    rw [hnil, if_pos rfl, Option.mem_toList] at hk
    obtain hk : first.delayOffset? = some k := hk
    rw [hk, if_pos rfl]
    exact ⟨k, rfl, Nat.le_refl k⟩
  | false =>
    rw [hnil, if_neg Bool.false_ne_true] at hk
    rw [if_neg Bool.false_ne_true]
    cases ha : first.delayOffset? with
    | none =>
      rw [ha] at hk
      exact absurd hk List.not_mem_nil
    | some a =>
      cases hb : last.delayOffset? with
      | none =>
        rw [ha, hb] at hk
        exact absurd hk List.not_mem_nil
      | some b =>
        rw [ha, hb] at hk
        obtain ⟨hle, hlt⟩ := List.mem_range'_1.1 hk
        exact ⟨b - 1, if_pos (by omega), by omega⟩

theorem mem_of_lastOffset? {first last : Expr} {offset : Nat} (hfirst : first.delayOffset?.isSome)
    (hlast : last.isNil ∨ last.delayOffset?.isSome) (h : lastOffset? first last = some offset) :
    offset ∈ offsets first last := by
  obtain ⟨a, ha⟩ := Option.isSome_iff_exists.1 hfirst
  unfold lastOffset? at h
  unfold offsets
  cases hnil : last.isNil with
  | true =>
    rw [hnil, if_pos rfl, ha] at h
    rw [if_pos rfl, ha]
    obtain rfl : a = offset := Option.some.inj h
    simp
  | false =>
    obtain ⟨b, hb⟩ := Option.isSome_iff_exists.1 (hlast.resolve_left (by simp [hnil]))
    rw [hnil, if_neg Bool.false_ne_true, ha, hb] at h
    rw [if_neg Bool.false_ne_true, ha, hb]
    obtain ⟨hlt, rfl⟩ : a < b ∧ b - 1 = offset := by simpa using h
    exact List.mem_range'_1.2 (by omega)

/-! ## The reach and the footprint -/

/-- The bit that is extracted from a word is one of the word's bits. -/
theorem asks_of_bitAsks {s : Setting} {a i : Expr}
    (h : n ∈ Footprint.bitAsks s (a.footprint s) (i.footprint s) f) :
    n ∈ (a.footprint s).asks f := by
  by_cases hkind : ∃ name, a.kind = .symbol name
  · obtain ⟨name, hkind⟩ := hkind
    rw [Footprint.bitAsks_of_symbol s (by rw [expr_footprint, hkind]), expr_footprint] at h
    rw [asks_of_symbol hkind]
    exact ⟨_, Nat.zero_le _, by simpa using h.1, h.2⟩
  · rwa [Footprint.bitAsks_of_ne s (by simpa using hkind)] at h

/-- If a word is asked for, so is each of its bits. -/
theorem exists_bitAsks {a i : Expr} (h : n ∈ (a.footprint ⟨types, .mapped r⟩).asks f)
    (hlt : (i.footprint ⟨types, .mapped r⟩).index < types.width a.ty) :
    ∃ m ∈ Footprint.bitAsks ⟨types, .mapped r⟩ (a.footprint ⟨types, .mapped r⟩)
      (i.footprint ⟨types, .mapped r⟩) f, m.timeframe = n.timeframe := by
  by_cases hkind : ∃ name, a.kind = .symbol name
  · obtain ⟨name, hkind⟩ := hkind
    rw [asks_of_symbol hkind] at h
    obtain ⟨j, -, -, rfl⟩ := h
    rw [Footprint.bitAsks_of_symbol _ (by rw [expr_footprint, hkind]), expr_footprint]
    exact ⟨_, ⟨hlt, rfl⟩, rfl⟩
  · rw [Footprint.bitAsks_of_ne _ (by simpa using hkind)]
    exact ⟨n, h, rfl⟩

/-- Where the questions of a node come from. -/
theorem asks_cases {s : Setting} (h : n ∈ ((node kind ty es).footprint s).asks f) :
    (∃ name, kind = .symbol name ∧ n ∈ s.symbols.notes .current f name 0 (s.types.width ty)) ∨
    (∃ name, kind = .nextSymbol name ∧ n ∈ s.symbols.notes .next f name 0 (s.types.width ty)) ∨
    (∃ first last body, kind = .temporal .delay ∧ es = [first, last, body] ∧
      ∃ k ∈ offsets first last, ∃ g, f.shift k = .ok g ∧ n ∈ (body.footprint s).asks g) ∨
    PassesOn kind es ∧ ∃ e ∈ es, n ∈ (e.footprint s).asks f := by
  change n ∈ Footprint.nodeAsks s kind ty (footprints s es) f at h
  rw [footprints_eq_map] at h
  have hany : ∀ es, PassesOn kind es → n ∈ Lower.allAsks s es f →
      PassesOn kind es ∧ ∃ e ∈ es, n ∈ (e.footprint s).asks f := by
    rintro es hpasses ⟨a, ha, hn⟩
    obtain ⟨e, he, rfl⟩ := List.mem_map.1 ha
    exact ⟨hpasses, e, he, hn⟩
  cases kind with
  | symbol name => exact .inl ⟨name, rfl, h⟩
  | nextSymbol name => exact .inr (.inl ⟨name, rfl, h⟩)
  | constant | truth => cases h
  | extractBit =>
    rcases es with _ | ⟨a, _ | ⟨i, _ | ⟨b, es⟩⟩⟩
    · exact .inr (.inr (.inr (hany _ trivial h)))
    · exact .inr (.inr (.inr (hany _ trivial h)))
    · exact .inr (.inr (.inr ⟨trivial, a, by simp, asks_of_bitAsks h⟩))
    · exact .inr (.inr (.inr (hany _ trivial h)))
  | extractBits =>
    rcases es with _ | ⟨a, _ | ⟨last, _ | ⟨first, _ | ⟨b, es⟩⟩⟩⟩
    · exact .inr (.inr (.inr (hany _ trivial h)))
    · exact .inr (.inr (.inr (hany _ trivial h)))
    · exact .inr (.inr (.inr (hany _ trivial h)))
    · exact .inr (.inr (.inr ⟨trivial, a, by simp, h⟩))
    · exact .inr (.inr (.inr (hany _ trivial h)))
  | temporal op =>
    cases op with
    | delay =>
      rcases es with _ | ⟨first, _ | ⟨last, _ | ⟨body, _ | ⟨b, es⟩⟩⟩⟩
      · exact .inr (.inr (.inr (hany _ trivial h)))
      · exact .inr (.inr (.inr (hany _ trivial h)))
      · exact .inr (.inr (.inr (hany _ trivial h)))
      · obtain ⟨k, hk, g, hg, hn⟩ := h
        rw [expr_footprint, expr_footprint] at hk
        exact .inr (.inr (.inl ⟨first, last, body, rfl, rfl, k, hk, g, hg, hn⟩))
      · exact .inr (.inr (.inr (hany _ trivial h)))
    | overlapped | nonOverlapped | concat => exact .inr (.inr (.inr (hany _ trivial h)))
  | nil | not | connective | implies | equality | ite | complement | negate | binary | relation
  | concat | cast => exact .inr (.inr (.inr (hany _ trivial h)))

/-- No question is about a later timeframe than the reach. -/
theorem reach?_of_asks (h : n ∈ (e.footprint ⟨types, .mapped r⟩).asks f) :
    ∃ t, e.reach? f = some t ∧ n.timeframe ≤ t := by
  induction e using Expr.induction generalizing f with
  | node kind ty es ih =>
    rcases asks_cases h with ⟨name, rfl, j, -, -, rfl⟩ | ⟨name, rfl, j, -, -, rfl⟩ |
      ⟨first, last, body, rfl, rfl, k, hk, g, hg, hn⟩ | ⟨hpasses, e, he, hn⟩
    · exact ⟨f.current, rfl, Nat.le_refl _⟩
    · exact ⟨f.next, rfl, Nat.le_refl _⟩
    · -- every offset leads to an earlier frame than the greatest one
      obtain ⟨t, ht, hle⟩ := ih body (by simp) hn
      obtain ⟨offset, hoffset, hk⟩ := lastOffset?_of_mem hk
      obtain ⟨hcurrent, hnext, rfl⟩ := Frame.shift_eq_ok_iff.1 hg
      rw [reach?_delay, hoffset]
      obtain ⟨u, hu, hle'⟩ := reach?_mono (g := f.shiftClamped offset)
        (by simp only [Frame.later, Frame.shiftClamped, Frame.clamp]; omega)
        (by simp only [Frame.later, Frame.shiftClamped, Frame.clamp]; omega) ht
      exact ⟨u, hu, Nat.le_trans hle hle'⟩
    · obtain ⟨t, ht, hle⟩ := ih e he hn
      obtain ⟨u, hu, hle'⟩ := reachAll?_of_mem he ht
      rw [reach?_of_passesOn hpasses]
      exact ⟨u, hu, Nat.le_trans hle hle'⟩

/-- A question is about a bit of a variable that is declared. -/
theorem Over.declared (hover : e.Over vars) (h : n ∈ (e.footprint ⟨types, .mapped r⟩).asks f) :
    ∃ ty, (n.name, ty) ∈ vars ∧ n.bit < types.width ty := by
  induction e using Expr.induction generalizing f with
  | node kind ty es ih =>
    obtain ⟨hleaf, hoperands⟩ := hover
    rcases asks_cases h with ⟨name, rfl, j, -, hlt, rfl⟩ | ⟨name, rfl, j, -, hlt, rfl⟩ |
      ⟨first, last, body, rfl, rfl, k, hk, g, hg, hn⟩ | ⟨hpasses, e, he, hn⟩
    · exact ⟨ty, hleaf, Nat.zero_add (types.width ty) ▸ hlt⟩
    · exact ⟨ty, hleaf, Nat.zero_add (types.width ty) ▸ hlt⟩
    · exact ih body (by simp) (hoperands body (by simp)) hn
    · exact ih e he (hoperands e he) hn

/-- A constant reads nothing. -/
theorem Over.reach?_of_toInteger? (hover : e.Over vars) (he : e.toInteger?.isSome) (f : Frame) :
    e.reach? f = none := by
  cases hover with
  | @node kind ty es declared operands =>
    cases kind with
    | constant | truth =>
      obtain rfl : es = [] := declared
      rfl
    | symbol | nextSymbol | nil | not | connective | implies | equality | ite | complement | negate
    | binary | relation | extractBit | extractBits | concat | cast | temporal => cases he

/-- A constant index reads nothing beside the word. -/
theorem Over.reach?_extractBit {a i : Expr} (hi : i.Over vars) (hindex : i.toInteger?.isSome)
    (ty : Ty) (f : Frame) : (Expr.node .extractBit ty [a, i]).reach? f = a.reach? f := by
  have hnone := hi.reach?_of_toInteger? hindex f
  change later? (a.reach? f) (later? (i.reach? f) none) = a.reach? f
  rw [hnone, later?_none, later?_none]

/-- Constant indices read nothing beside the word. -/
theorem Over.reach?_extractBits {a last first : Expr} (hl : last.Over vars) (hf : first.Over vars)
    (hlast : last.toInteger?.isSome) (hfirst : first.toInteger?.isSome) (ty : Ty) (f : Frame) :
    (Expr.node .extractBits ty [a, last, first]).reach? f = a.reach? f := by
  have hnone := hl.reach?_of_toInteger? hlast f
  have hnone' := hf.reach?_of_toInteger? hfirst f
  change later? (a.reach? f) (later? (last.reach? f) (later? (first.reach? f) none)) = a.reach? f
  rw [hnone, hnone', later?_none, later?_none, later?_none]

/-- Where an expression over declared variables was lowered there is a question about its reach. -/
theorem Over.exists_asks_of_reach? (hover : e.Over vars)
    (hsettled : (e.footprint ⟨types, .mapped r⟩).settled f) (h : e.reach? f = some t) :
    ∃ n ∈ (e.footprint ⟨types, .mapped r⟩).asks f, n.timeframe = t := by
  induction e using Expr.induction generalizing f with
  | node kind ty es ih =>
    obtain ⟨hleaf, hoperands⟩ := hover
    change Footprint.nodeSettled ⟨types, .mapped r⟩ kind ty (footprints _ es) f at hsettled
    change ∃ n ∈ Footprint.nodeAsks ⟨types, .mapped r⟩ kind ty (footprints _ es) f, _
    rw [footprints_eq_map] at hsettled ⊢
    have hall : Lower.AllSettled ⟨types, .mapped r⟩ es f → reachAll? es f = some t →
        ∃ n ∈ Lower.allAsks ⟨types, .mapped r⟩ es f, n.timeframe = t := by
      intro hsettled h
      obtain ⟨e, he, h⟩ := reachAll?_eq_some h
      obtain ⟨n, hn, hnt⟩ := ih e he (hoperands e he) (hsettled _ (List.mem_map_of_mem he)) h
      exact ⟨n, ⟨_, List.mem_map_of_mem he, hn⟩, hnt⟩
    cases kind with
    | symbol name =>
      obtain rfl : f.current = t := Option.some.inj h
      exact ⟨_, ⟨0, Nat.le_refl 0, (Nat.zero_add (types.width ty)).symm ▸ hsettled, rfl⟩, rfl⟩
    | nextSymbol name =>
      obtain rfl : f.next = t := Option.some.inj h
      exact ⟨_, ⟨0, Nat.le_refl 0, (Nat.zero_add (types.width ty)).symm ▸ hsettled, rfl⟩, rfl⟩
    | constant | truth =>
      obtain rfl : es = [] := hleaf
      cases h
    | extractBit =>
      rcases es with _ | ⟨a, _ | ⟨i, _ | ⟨b, es⟩⟩⟩
      · exact hall hsettled h
      · exact hall hsettled h
      · obtain ⟨hconstant, hlt, ha⟩ := hsettled
        rw [expr_footprint] at hconstant hlt
        rw [(hoperands i (by simp)).reach?_extractBit hconstant] at h
        obtain ⟨n, hn, rfl⟩ := ih a (by simp) (hoperands a (by simp)) ha h
        exact exists_bitAsks hn hlt
      · exact hall hsettled h
    | extractBits =>
      rcases es with _ | ⟨a, _ | ⟨last, _ | ⟨first, _ | ⟨b, es⟩⟩⟩⟩
      · exact hall hsettled h
      · exact hall hsettled h
      · exact hall hsettled h
      · obtain ⟨hlast, hfirst, ha⟩ := hsettled
        rw [expr_footprint] at hlast hfirst
        rw [(hoperands last (by simp)).reach?_extractBits (hoperands first (by simp)) hlast
          hfirst] at h
        exact ih a (by simp) (hoperands a (by simp)) ha h
      · exact hall hsettled h
    | temporal op =>
      cases op with
      | delay =>
        rcases es with _ | ⟨first, _ | ⟨last, _ | ⟨body, _ | ⟨b, es⟩⟩⟩⟩
        · exact hall hsettled h
        · exact hall hsettled h
        · exact hall hsettled h
        · obtain ⟨hfirst, hlast, hshifts⟩ := hsettled
          rw [expr_footprint] at hfirst hlast
          rw [expr_footprint, expr_footprint] at hshifts
          rw [reach?_delay] at h
          split at h
          · rename_i offset hoffset
            have hmem := mem_of_lastOffset? hfirst hlast hoffset
            obtain ⟨g, hg, hbody⟩ := hshifts offset hmem
            rw [Frame.shiftClamped_of_shift hg] at h
            obtain ⟨n, hn, hnt⟩ := ih body (by simp) (hoperands body (by simp)) hbody h
            refine ⟨n, ⟨offset, ?_, _, hg, hn⟩, hnt⟩
            rwa [expr_footprint, expr_footprint]
          · cases h
        · exact hall hsettled h
      | overlapped | nonOverlapped | concat => exact hall hsettled h
    | nil | not | connective | implies | equality | ite | complement | negate | binary | relation
    | concat | cast => exact hall hsettled h

end Expr

/-! ## The reach of a script's expressions -/

/-- Runs of a lowering computation show that a reach is right: if it lies within the timeframes,
none ends in a question without an answer, and wherever a run succeeds, the reach is the latest
timeframe that was asked for. -/
structure Lower.Confirms {α : Type} (x : Lower α) (reach? : Option Nat) (timeframes : Nat) :
    Prop where
  answered : (∀ t, reach? = some t → t < timeframes) →
    ∀ s miss, (x.run s).1 ≠ .error (.crashed (.missing miss))
  latest : ∀ s a s', s.reads = #[] → x.run s = (.ok a, s') →
    (s'.reads.toList.map (·.timeframe)).max? = reach?

namespace Expr

variable {vars : List (String × Ty)} {types : TypeTable} {map : Unrolled} {timeframes : Nat}
  {e : Expr} {frame : Frame} {α : Type} {x : Lower α}

/-- The literals of variables in timeframes answer every question about a bit of a variable in one
of the timeframes. -/
def Answers (map : Unrolled) (vars : List (String × Ty)) (types : TypeTable) (timeframes : Nat) :
    Prop :=
  ∀ t name bit, t < timeframes → (∃ ty, (name, ty) ∈ vars ∧ bit < types.width ty) →
    (map.get? t name bit).isSome

/-- Within the reach every question has an answer. -/
theorem Over.not_misses (hover : e.Over vars) (hmap : Answers map vars types timeframes)
    (hreach : ∀ t, e.reach? frame = some t → t < timeframes) {n : Read}
    (hn : n ∈ (e.footprint ⟨types, .mapped map.resolver⟩).asks frame) (miss : Miss) :
    ¬(Symbols.mapped map.resolver).Misses n miss := by
  intro hmiss
  obtain ⟨t, ht, hle⟩ := reach?_of_asks hn
  have hlt := hreach t ht
  obtain ⟨l, hl⟩ := Option.isSome_iff_exists.1
    (hmap n.timeframe n.name n.bit (by omega) (hover.declared hn))
  simp only [Symbols.Misses, Unrolled.resolver, Unrolled.get, hl] at hmiss
  cases hmiss

/-- A computation that asks the questions of an expression confirms the expression's reach. -/
theorem Over.confirms (hover : e.Over vars) (hmap : Answers map vars types timeframes)
    (hx : Lower.Looks (.mapped map.resolver) x
      ((e.footprint ⟨types, .mapped map.resolver⟩).asks frame)
      fun _ => (e.footprint ⟨types, .mapped map.resolver⟩).settled frame) :
    x.Confirms (e.reach? frame) timeframes := by
  refine ⟨fun hreach s miss hmiss => ?_, fun s a s' hs hrun => ?_⟩
  · obtain ⟨_, -, n, hn, hmiss, -⟩ := hx.crash s _ hmiss
    exact hover.not_misses hmap hreach hn _ hmiss
  · have hasked : ∀ n, n ∈ s'.reads ↔
        n ∈ (e.footprint ⟨types, .mapped map.resolver⟩).asks frame := by
      intro n
      have hasked := hx.asked s n
      obtain ⟨hseen, -⟩ := hx.result s a (by rw [hrun])
      rw [hrun] at hasked hseen
      refine ⟨fun hn => (hasked hn).resolve_left ?_, hseen n⟩
      simp [Symbols.Seen, hs]
    have hsettled := (hx.result s a (by rw [hrun])).2
    cases hreach : e.reach? frame with
    | none =>
      rw [List.max?_eq_none_iff, List.map_eq_nil_iff, List.eq_nil_iff_forall_not_mem]
      intro n hn
      obtain ⟨t, ht, -⟩ := reach?_of_asks ((hasked n).1 (Array.mem_toList_iff.1 hn))
      rw [hreach] at ht
      cases ht
    | some t =>
      rw [List.max?_eq_some_iff]
      constructor
      · obtain ⟨n, hn, rfl⟩ := hover.exists_asks_of_reach? hsettled hreach
        exact List.mem_map_of_mem (Array.mem_toList_iff.2 ((hasked n).2 hn))
      · intro u hu
        obtain ⟨n, hn, rfl⟩ := List.mem_map.1 hu
        obtain ⟨v, hv, hle⟩ := reach?_of_asks ((hasked n).1 (Array.mem_toList_iff.1 hn))
        rw [hreach] at hv
        exact Option.some.inj hv ▸ hle

end Expr

namespace Script

open BitUnroll.Expr (Answers)

/-- Allocation answers every question about the variables of a system. -/
theorem answers_allocate (ts : TransitionSystem) (types : TypeTable) (timeframes : Nat)
    (options : GateOptions) : Answers
      (Unrolled.allocate (ts.varWidths types) timeframes (.initial options)).1 ts.vars types
      timeframes := by
  intro t name bit ht hdeclared
  obtain ⟨net, -, -, -, hbits⟩ := Unrolled.sets_allocate (ts.varWidths types) timeframes [.constant]
    _ [] (Circuit.fits_initial options) (Unrolled.fresh_empty _)
  exact (hbits t name bit).2 (.inr ⟨ht, TransitionSystem.exists_mem_varWidths.2 hdeclared⟩)

/-- An expression that the encoding of a script lowers. -/
def Mentions (s : Script) (ts : TransitionSystem) (e : Expr) : Prop :=
  e = ts.init ∨ e = ts.trans ∨ (∃ c ∈ s.constraints, c.expr = e) ∨ ∃ c ∈ s.conversions, c.expr = e

/-- **The reach of an expression is the latest timeframe that it reads.** Take a script whose
constraints and conversions were all listed while the selected module was selected, and literals for
the variables of that module in any number of timeframes. Require any expression that the script's
encoding lowers, or convert it to a literal or a word, in any frame. If the expression's reach lies
within the timeframes, no question goes without an answer, and wherever the expression is not
refused, its reach is the latest timeframe that was asked for. -/
theorem reach_exact {text : String} {s : Script} (hs : parse text = .ok s)
    (hlists : ListsIn s.selected (commands text)) {ts : TransitionSystem} (hts : s.system = .ok ts)
    (timeframes : Nat) (options : GateOptions) {e : Expr} (he : s.Mentions ts e) (frame : Frame) :
    let map := (Unrolled.allocate (ts.varWidths s.types) timeframes (.initial options)).1
    let setting : Setting := ⟨s.types, .mapped map.resolver⟩
    (e.require setting frame).Confirms (e.reach? frame) timeframes ∧
      (e.toLiteral setting frame).Confirms (e.reach? frame) timeframes ∧
      (e.toWord setting frame).Confirms (e.reach? frame) timeframes := by
  intro map setting
  have hmap := answers_allocate ts s.types timeframes options
  have hover : e.Over ts.vars := by
    obtain ⟨hinit, htrans, hlisted⟩ := over_of_parse hs hts
    obtain ⟨hconstraints, hconversions⟩ := hlisted hlists
    rcases he with rfl | rfl | ⟨c, hc, rfl⟩ | ⟨c, hc, rfl⟩
    · exact hinit
    · exact htrans
    · exact hconstraints c hc
    · exact hconversions c hc
  exact ⟨hover.confirms hmap (Expr.looks_require setting e frame),
    hover.confirms hmap ((Expr.traced setting e).truth frame),
    hover.confirms hmap ((Expr.traced setting e).word frame)⟩

/-- A range of delays within a range of delays, the last of which ends before its second bound. -/
theorem reach_exact_nested_ranges :
    let text := "(declare-var x bool) (constraint (## 0 2 (## 1 3 x)))"
    ∃ s ts c, parse text = .ok s ∧ ListsIn s.selected (commands text) ∧ s.system = .ok ts ∧
      c ∈ s.constraints ∧ c.expr.reach? c.frame = some 3 ∧
      (c.expr.require ⟨s.types, .mapped
        (Unrolled.allocate (ts.varWidths s.types) 4 (.initial {})).1.resolver⟩ c.frame).Confirms
          (some 3) 4 := by
  intro text
  have hrun : (parse text).toOption.any (fun s => s.system.toOption.isSome &&
      decide (ListsIn s.selected (commands text)) &&
      s.constraints.any fun c => c.expr.reach? c.frame == some 3) = true := by decide +kernel
  rcases hs : parse text with f | s <;> rw [hs] at hrun
  · cases hrun
  rw [Except.toOption, Option.any_some, Bool.and_eq_true, Bool.and_eq_true] at hrun
  obtain ⟨⟨hsystem, hlists⟩, hreach⟩ := hrun
  rcases hts : s.system with f | ts <;> rw [hts] at hsystem
  · cases hsystem
  obtain ⟨c, hc, hreach⟩ := Array.any_eq_true'.1 hreach
  have hlists : ListsIn s.selected (commands text) := of_decide_eq_true hlists
  have hexact := (reach_exact hs hlists hts 4 {} (.inr (.inr (.inl ⟨c, hc, rfl⟩))) c.frame).1
  rw [eq_of_beq hreach] at hexact
  exact ⟨s, ts, c, rfl, hlists, hts, hc, eq_of_beq hreach, hexact⟩

end Script

end BitUnroll
