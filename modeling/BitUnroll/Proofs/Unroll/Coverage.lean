import BitUnroll.Proofs.Symbols.Numbering
import BitUnroll.Proofs.Unroll.Encoding

/-!
# The timeframes of an encoding

The map of an encoding has the timeframes up to the last one that has a literal. So it covers the
number of timeframes that a script is unrolled over if some variable of the selected module has
bits; otherwise it has no timeframe at all, whatever that number is.

## Main statements

* `Script.timeframes_of_encode`: the number of timeframes of an encoding's map.
-/

namespace BitUnroll

namespace Script

variable {s : Script} {config : Config} {e : Encoding}

/-- No script is unrolled over no timeframes. -/
theorem timeframes_pos_of_encode {onRefusal : OnRefusal}
    (h : (s.unroll config onRefusal).Succeeds e) : 0 < config.timeframes := by
  unfold unroll at h
  dsimp only at h
  split at h
  · obtain ⟨_, h, -⟩ := h.of_bind
    exact absurd h (Attempt.not_succeeds_throw _ _)
  · omega

theorem measured_of_encode {onRefusal : OnRefusal} (h : (s.unroll config onRefusal).Succeeds e) :
    e.map.Measured := by
  obtain ⟨ts, c, lowered, -, hallocate, -, -⟩ := of_encode h
  rw [show e.map = _ from (congrArg Prod.fst hallocate).symm]
  exact Unrolled.measured_allocate _ _ _

/-- **The timeframes of an encoding.** Where a script is encoded, the map has all timeframes that it
is unrolled over exactly if some variable of the selected module has bits. If none has, there is no
timeframe in the map. -/
theorem timeframes_of_encode {log log' : MessageLog}
    (he : (s.encode config).run log = (.ok e, log')) :
    ∃ ts, s.system = .ok ts ∧
      (e.map.timeframes = config.timeframes ↔ ∃ x ∈ ts.vars, 0 < s.types.width x.2) ∧
      ((¬∃ x ∈ ts.vars, 0 < s.types.width x.2) → e.map.timeframes = 0) := by
  have hsucceeds : (s.encode config).Succeeds e := ⟨log, log', he⟩
  have hm := measured_of_encode hsucceeds
  have hpos := timeframes_pos_of_encode hsucceeds
  obtain ⟨ts, net, required, hts, -, -, hbits, -⟩ := fits_of_encode hsucceeds fun _ _ _ => false
  have hnone : (¬∃ x ∈ ts.vars, 0 < s.types.width x.2) → e.map.timeframes = 0 := by
    intro hvars
    refine hm.timeframes_eq_iff.2 ⟨fun t name bit hsome => ?_, fun t ht => by omega⟩
    obtain ⟨-, ty, hmem, hlt⟩ := (hbits t name bit).1 hsome
    exact absurd ⟨(name, ty), hmem, Nat.zero_lt_of_lt hlt⟩ hvars
  refine ⟨ts, hts, ⟨fun heq => ?_, ?_⟩, hnone⟩
  · by_contra hvars
    rw [hnone hvars] at heq
    omega
  · rintro ⟨⟨name, ty⟩, hmem, hwidth⟩
    refine hm.timeframes_eq_iff.2 ⟨fun t name bit hsome => ((hbits t name bit).1 hsome).1,
      fun t ht => ⟨name, 0, ?_⟩⟩
    exact (hbits t name 0).2 ⟨by omega, ty, hmem, hwidth⟩

/-- A variable without bits and one with a single bit. -/
theorem timeframes_of_encode_two_variables :
    ∃ s e log, parse "(declare-var n integer) (declare-var x bool)" = .ok s ∧
      (s.encode { timeframes := 3 }).run {} = (.ok e, log) ∧ e.map.timeframes = 3 := by
  have hrun : (parse "(declare-var n integer) (declare-var x bool)").toOption.any (fun s =>
      ((s.encode { timeframes := 3 }).run {} : Except Halt Encoding × MessageLog).1.toOption.any
        fun _ => s.system.toOption.any fun ts => ∃ x ∈ ts.vars, 0 < s.types.width x.2) = true := by
    decide +kernel
  obtain ⟨s, e, log, hs, he, hvars⟩ := exists_encode_of_any hrun
  obtain ⟨ts, hts, hcovers, -⟩ := timeframes_of_encode he
  rw [hts] at hvars
  exact ⟨s, e, log, hs, he, hcovers.2 (of_decide_eq_true hvars)⟩

/-- A script whose only variable has no bits is encoded over two timeframes, none of which is in the
map. -/
theorem exists_encoding_without_timeframes :
    ∃ s e log, parse "(declare-var n integer)" = .ok s ∧ (s.encode {}).run {} = (.ok e, log) ∧
      ({} : Config).timeframes = 2 ∧ e.map.timeframes = 0 := by
  have hrun : (parse "(declare-var n integer)").toOption.any (fun s =>
      ((s.encode {}).run {} : Except Halt Encoding × MessageLog).1.toOption.any fun e =>
        e.map.timeframes == 0) = true := by decide +kernel
  obtain ⟨s, e, log, hs, he, hnone⟩ := exists_encode_of_any hrun
  exact ⟨s, e, log, hs, he, rfl, eq_of_beq hnone⟩

end Script

end BitUnroll
