/-
The tables that the machine builds are those of the codec.  Singles that are bounded are cut without
leaving the 32-bit integers, each step lays one more rung on either side, and the finished ladder is
ordered whatever the power function returns.
-/
import HopCodec.Machine.Rungs
import HopCodec.Proofs.Machine.Filling

namespace HopCodec

open Single

namespace Machine

theorem fitInt_eq {n : Int} (hlow : -0x80000000 ≤ n) (hhigh : n < 0x80000000) :
    fitInt n = .ok n :=
  if_pos ⟨hlow, hhigh⟩

/-- Cutting a bounded single is taking its whole part. -/
theorem truncate_eq {a : Float32} {x : ℚ} {k : Nat} (h : Bounded a x k) (hk : k < 31) :
    truncate a = .ok (floorNat a) := by
  have hleast : Denotes (-2147483648.0) (-2147483648) := by
    have hparts : (-2147483648.0 : Float32).toModel.unpack =
        .finite .negative 8388608 8 (by decide) := rfl
    rw [Denotes, hparts]
    exact congrArg some (by norm_num [signed])
  have hlimit : Denotes 2147483648.0 2147483648 :=
    denotes_of_parts 8388608 8 (by decide) rfl (by norm_num)
  have hlow : -2147483648.0 ≤ a := (hleast.le_iff h.denotes).mpr (by linarith [h.nonneg])
  have hhigh : a < 2147483648.0 := (h.denotes.lt_iff hlimit).mpr
    (h.le.trans_lt ((pow_lt_pow_right₀ (by norm_num) hk).trans_eq (by norm_num)))
  have hnonneg : 0.0 ≤ a := (denotes_zero.le_iff h.denotes).mpr h.nonneg
  rw [truncate, if_pos ⟨hlow, hhigh⟩, if_pos hnonneg]

theorem clampValue_natCast (n : Nat) : clampValue n = Ladder.toValue n := by
  rw [clampValue, Ladder.toValue]
  congr 1
  omega

theorem clampValue_sub (m n : Nat) : clampValue (m - n) = Ladder.toValue (m - n) := by
  rw [clampValue, Ladder.toValue]
  congr 1
  omega

/-- The rungs up to the `k`-th on either side stand in a buffer, which is left alone behind the
ladder. -/
structure Laid (l : Ladder) (room : Bytes) (k : Nat) (filled : Bytes) : Prop where
  size : filled.size = room.size
  inside : ∀ hop : Hop, hop.magnitude ≤ k → filled[hop.index.val]? = some (l hop)
  outside : ∀ i, 9 ≤ i → filled[i]? = room[i]?

namespace Laid

variable {l : Ladder} {room filled : Bytes} {k : Nat}

/-- The null hop alone. -/
theorem null (l : Ladder) (hroom : 9 ≤ room.size) :
    Laid l room 0 (room.setIfInBounds Hop.null.index (l .null)) := by
  have hnull : Hop.null.index.val = 4 := rfl
  refine ⟨Array.size_setIfInBounds, fun hop hhop => ?_, fun i hi => ?_⟩
  · have hplace : hop.index.val = Hop.null.index.val := by
      rw [Hop.magnitude] at hhop
      omega
    rw [Hop.index_injective (Fin.ext hplace), Array.getElem?_setIfInBounds, if_pos rfl,
      if_pos (by omega)]
  · rw [Array.getElem?_setIfInBounds, if_neg (by omega)]

/-- One more rung on either side. -/
theorem succ (h : Laid l room k filled) (hroom : 9 ≤ room.size) {above below : Hop}
    (habove : above.index.val = 5 + k) (hbelow : below.index.val + k = 3) :
    Laid l room (k + 1) ((filled.setIfInBounds (5 + k) (l above)).setIfInBounds (3 - k)
      (l below)) := by
  have hsize := h.size
  have hinside := above.index.isLt
  refine ⟨by rw [Array.size_setIfInBounds, Array.size_setIfInBounds, hsize],
    fun hop hhop => ?_, fun i hi => ?_⟩
  · rw [Array.getElem?_setIfInBounds, Array.size_setIfInBounds, Array.getElem?_setIfInBounds]
    by_cases hlow : 3 - k = hop.index.val
    · have hplace : hop.index.val = below.index.val := by omega
      rw [if_pos hlow, if_pos (by omega), Hop.index_injective (Fin.ext hplace)]
    · rw [if_neg hlow]
      by_cases hhigh : 5 + k = hop.index.val
      · have hplace : hop.index.val = above.index.val := by omega
        rw [if_pos hhigh, if_pos (by omega), Hop.index_injective (Fin.ext hplace)]
      · rw [if_neg hhigh]
        refine h.inside hop ?_
        rw [Hop.magnitude] at hhop ⊢
        omega
  · rw [Array.getElem?_setIfInBounds, if_neg (by omega), Array.getElem?_setIfInBounds,
      if_neg (by omega)]
    exact h.outside i hi

end Laid

section Fill

variable (pow : Power) (predicted ratio step : UInt8)

def upFactor : Float32 :=
  Ladder.growth pow (255 - predicted.toNat) step.toNat (ofNat ratio.toNat / 10.0)

def downFactor : Float32 :=
  Ladder.growth pow predicted.toNat step.toNat (ofNat ratio.toNat / 10.0)

section Factors

variable {ratio}
  (hratio : Predictor.ratioMin ≤ ratio.toNat ∧ ratio.toNat ≤ Predictor.ratioMax)

include hratio

theorem widens_upFactor : Ladder.Widens (upFactor pow predicted ratio step) :=
  Ladder.widens_growth pow _ _ hratio

theorem widens_downFactor : Ladder.Widens (downFactor pow predicted ratio step) :=
  Ladder.widens_growth pow _ _ hratio

end Factors

/-- A ladder in the making with `k` rungs on either side. -/
structure Widening.Reached (room : Bytes) (k : Nat) (w : Widening) : Prop where
  laid : Laid (Ladder.around pow ratio.toNat step.toNat predicted) room k w.ladder
  upward : w.upward = Ladder.spread (upFactor pow predicted ratio step) k
  downward : w.downward = Ladder.spread (downFactor pow predicted ratio step) k

variable {pow predicted ratio step} {room : Bytes}
  (hratio : Predictor.ratioMin ≤ ratio.toNat ∧ ratio.toNat ≤ Predictor.ratioMax)
  (hstep : step.toNat ≤ 32)

include hstep

/-- A rung is cut from its single without leaving the integers. -/
theorem truncate_rung {factor : Float32} (h : Ladder.Widens factor) {k : Nat} (hk : k ≤ 3) :
    truncate (ofNat step.toNat * Ladder.spread factor k) =
        .ok (Ladder.rung step.toNat factor k) ∧
      Ladder.rung step.toNat factor k ≤ 2 ^ 11 := by
  obtain ⟨g, hfactor, -⟩ := h
  have hrung := Ladder.bounded_rung hstep hfactor hk
  refine ⟨truncate_eq hrung (by omega), ?_⟩
  have hle : (2 : ℚ) ^ (5 + 2 * k) ≤ 2 ^ 11 := pow_le_pow_right₀ (by norm_num) (by omega)
  rw [Ladder.rung_eq_floor hstep hfactor hk]
  exact Nat.floor_le_of_le (by exact_mod_cast hrung.le.trans hle)

include hratio

theorem Widening.Reached.lay {k : Nat} {w : Widening}
    (h : w.Reached pow predicted ratio step room k) (hk : k < 4) (hroom : 9 ≤ room.size) :
    ∃ w', Widening.lay step predicted (upFactor pow predicted ratio step)
        (downFactor pow predicted ratio step) k w = .ok w' ∧
      w'.Reached pow predicted ratio step room (k + 1) := by
  have hword : 9 < wordSize := by decide
  have hvalue := predicted.toNat_lt
  obtain ⟨hcutUp, hup⟩ := truncate_rung hstep
    (widens_upFactor pow predicted step hratio) (Nat.le_of_lt_succ hk)
  obtain ⟨hcutDown, hdown⟩ := truncate_rung hstep
    (widens_downFactor pow predicted step hratio) (Nat.le_of_lt_succ hk)
  obtain ⟨above, habove⟩ : ∃ above : Hop, above.index.val = 5 + k :=
    ⟨.ofIndex ⟨5 + k, by omega⟩, by rw [Hop.index_ofIndex]⟩
  obtain ⟨below, hbelow⟩ : ∃ below : Hop, below.index.val + k = 3 :=
    ⟨.ofIndex ⟨3 - k, by omega⟩, by rw [Hop.index_ofIndex]; exact Nat.sub_add_cancel (by omega)⟩
  have hsize := h.laid.size
  have hnext := h.laid.succ hroom habove hbelow
  rw [Ladder.around_above _ _ _ _ (by omega), Ladder.around_below _ _ _ _ (by omega),
    show above.index.val - 5 = k by omega, show 3 - below.index.val = k by omega] at hnext
  refine ⟨⟨_, w.upward * upFactor pow predicted ratio step,
    w.downward * downFactor pow predicted ratio step⟩, ?_, hnext, ?_, ?_⟩
  · have hpos : Hop.pos1.index.val = 5 := rfl
    have hneg : Hop.neg1.index.val = 3 := rfl
    rw [Widening.lay, h.upward, h.downward, hcutUp, ok_bind, hcutDown, ok_bind,
      fitInt_eq (by omega) (by omega), ok_bind, hpos, add_eq (by omega), ok_bind,
      store_eq (by omega), ok_bind, fitInt_eq (by omega) (by omega), ok_bind, hneg,
      sub_eq (by omega), ok_bind, store_eq (by rw [Array.size_setIfInBounds]; omega), ok_bind,
      ← Nat.cast_add, clampValue_natCast, clampValue_sub]
    rfl
  · rw [h.upward]
    rfl
  · rw [h.downward]
    rfl

variable (pow predicted)

/-- Filling a ladder on the machine lays the ladder of the codec into the first nine places. -/
theorem fillLadder_eq (hroom : 9 ≤ room.size) :
    ∃ filled, fillLadder pow predicted ratio step room = .ok filled ∧
      filled.size = room.size ∧ (∀ i, 9 ≤ i → filled[i]? = room[i]?) ∧
      ∀ hop : Hop, filled[hop.index.val]? =
        some (Ladder.around pow ratio.toNat step.toNat predicted hop) := by
  have hvalue := predicted.toNat_lt
  have hnull := Laid.null (Ladder.around pow ratio.toNat step.toNat predicted) hroom
  rw [Ladder.around_null] at hnull
  have hstart : Widening.Reached pow predicted ratio step room 0
      ⟨room.setIfInBounds Hop.null.index (Ladder.toValue predicted.toNat), 1.0, 1.0⟩ :=
    ⟨hnull, rfl, rfl⟩
  obtain ⟨w, hloop, hw⟩ := exists_loop (Widening.Reached pow predicted ratio step room)
    hstart fun k hk w h => h.lay hratio hstep hk hroom
  have hfill : fillLadder pow predicted ratio step room = .ok w.ladder := by
    have hplace : Hop.null.index.val < room.size := Nat.lt_of_lt_of_le Hop.null.index.isLt hroom
    rw [fillLadder, sub_eq (Nat.le_of_lt_succ hvalue), ok_bind, store_eq hplace, ok_bind,
      clampValue_natCast]
    exact bind_eq_ok_iff.mpr ⟨w, hloop, rfl⟩
  refine ⟨w.ladder, hfill, hw.laid.size, hw.laid.outside, fun hop => hw.laid.inside hop ?_⟩
  have hlast := hop.index.isLt
  rw [Hop.magnitude]
  omega

end Fill

/-- Ladders are ordered whatever the power function returns.  Filling one neither leaves the
integers nor the buffer; its nine values never fall as the hop index grows and are never zero, the
null hop keeps the prediction, and the first hops are one step away as far as there is room. -/
theorem fillLadder_ordered (pow : Power) (predicted ratio step : UInt8)
    (hratio : 20 ≤ ratio ∧ ratio ≤ 40) (hstep : 1 ≤ step ∧ step ≤ 19) (ladder : Bytes)
    (hroom : 9 ≤ ladder.size) :
    ∃ filled, fillLadder pow predicted ratio step ladder = .ok filled ∧
      filled.size = ladder.size ∧ (∀ i, 9 ≤ i → filled[i]? = ladder[i]?) ∧
      ∃ values : Ladder, (∀ hop : Hop, filled[hop.index.val]? = some (values hop)) ∧
        values.Ordered ∧ (∀ hop, 1 ≤ (values hop).toNat ∧ (values hop).toNat ≤ 255) ∧
        values .null = max predicted 1 ∧
        ((values .pos1).toNat : ℤ) = max 1 (min (predicted.toNat + step.toNat) 255) ∧
        ((values .neg1).toNat : ℤ) = max 1 (min (predicted.toNat - step.toNat) 255) := by
  have hratio : Predictor.ratioMin ≤ ratio.toNat ∧ ratio.toNat ≤ Predictor.ratioMax := hratio
  have hstep : step.toNat ≤ 32 := le_trans (UInt8.le_iff_toNat_le.mp hstep.2) (by decide)
  obtain ⟨filled, hfill, hsize, houtside, hinside⟩ :=
    fillLadder_eq pow predicted hratio hstep hroom
  have hpos : Hop.pos1.index.val = 5 := rfl
  have hneg : Hop.neg1.index.val = 3 := rfl
  refine ⟨filled, hfill, hsize, houtside, _, hinside,
    Ladder.ordered_around pow predicted hratio hstep, fun hop => ⟨?_, ?_⟩, ?_, ?_, ?_⟩
  · exact UInt8.le_iff_toNat_le.mp (Ladder.one_le_around pow _ _ _ hop)
  · exact Nat.le_of_lt_succ (UInt8.toNat_lt _)
  · rw [Ladder.around_null]
    exact Ladder.toValue_eq_max predicted
  · rw [Ladder.around_above _ _ _ _ (by omega), hpos, Ladder.rung_zero hstep,
      Ladder.toNat_toValue]
    omega
  · rw [Ladder.around_below _ _ _ _ (by omega), hneg, Ladder.rung_zero hstep,
      Ladder.toNat_toValue]
    omega

/-- A power function without a single number as its result, and steps beyond both ends. -/
theorem fillLadder_ordered_notANumber :
    ∃ filled, fillLadder (fun _ _ => 0.0 / 0.0) 250 40 19 (Array.replicate 9 0) = .ok filled ∧
      ∃ values : Ladder, (∀ hop : Hop, filled[hop.index.val]? = some (values hop)) ∧
        values.Ordered ∧ values .null = 250 ∧ values .pos1 = 255 ∧ values .neg1 = 231 := by
  obtain ⟨filled, hfill, -, -, values, hinside, hordered, -, hnull, hpos, hneg⟩ :=
    fillLadder_ordered (fun _ _ => 0.0 / 0.0) 250 40 19 (by decide) (by decide)
      (Array.replicate 9 0) (by decide)
  exact ⟨filled, hfill, values, hinside, hordered, hnull.trans (by decide),
    UInt8.toNat_inj.mp (by exact_mod_cast hpos), UInt8.toNat_inj.mp (by exact_mod_cast hneg)⟩

namespace Ladders

/-- The ladders of the built tables, one behind the other. -/
def builtRungs (pow : Power) : Bytes :=
  (ofTables (Tables.build pow)).rungs

/-- The `n`-th ladder of the built tables, and what it is filled for. -/
theorem getD_builtRungs (pow : Power) {n : Nat} (hn : n < 256 * ratioCount * stepCount)
    (hop : Hop) :
    (builtRungs pow).getD (9 * n + hop.index) 0 =
      Ladder.around pow (Predictor.ratioMin + n / stepCount % ratioCount) (1 + n % stepCount)
        (UInt8.ofNat (n / stepCount / ratioCount)) hop := by
  simp only [ratioCount, stepCount] at hn ⊢
  have hratio : RatioCovered (Predictor.ratioMin + n / 19 % 21) := by
    simp only [RatioCovered, Predictor.ratioMin, Predictor.ratioMax]
    omega
  have hstep : StepCovered (1 + n % 19) := by
    simp only [StepCovered, stepCount]
    omega
  have hpredicted : (UInt8.ofNat (n / 19 / 21)).toNat = n / 19 / 21 :=
    UInt8.toNat_ofNat_of_lt' (show n / 19 / 21 < 256 by omega)
  have hplace : rungPlace (Predictor.ratioMin + n / 19 % 21) (1 + n % 19)
      (UInt8.ofNat (n / 19 / 21)) hop = 9 * n + hop.index.val := by
    simp only [rungPlace, sheetPlace, hpredicted, ladderSpan, Predictor.ratioMin, stepCount]
    omega
  rw [builtRungs, ← hplace, getD_rungs_ofTables _ hratio hstep, Tables.build_ladder]

/-- Filling the `n`-th ladder gives its piece of the built tables. -/
theorem fillLadder_builtRungs (pow : Power) {n : Nat} (hn : n < 256 * ratioCount * stepCount) :
    fillLadder pow (UInt8.ofNat (n / stepCount / ratioCount))
        (UInt8.ofNat (Predictor.ratioMin + n / stepCount % ratioCount))
        (UInt8.ofNat (1 + n % stepCount)) (Array.replicate 9 0) =
      .ok ((builtRungs pow).extract (9 * n) (9 * (n + 1))) := by
  have hrungs : (builtRungs pow).size = 256 * ladderSpan :=
    (sized_ofTables (Tables.build pow)).rungs
  have hread := getD_builtRungs pow hn
  simp only [ratioCount, stepCount, ladderSpan] at hn hrungs hread ⊢
  have hratio : (UInt8.ofNat (Predictor.ratioMin + n / 19 % 21)).toNat =
      Predictor.ratioMin + n / 19 % 21 :=
    UInt8.toNat_ofNat_of_lt' (show 20 + n / 19 % 21 < 256 by omega)
  have hstep : (UInt8.ofNat (1 + n % 19)).toNat = 1 + n % 19 :=
    UInt8.toNat_ofNat_of_lt' (show 1 + n % 19 < 256 by omega)
  have hcovered : Predictor.ratioMin ≤ (UInt8.ofNat (Predictor.ratioMin + n / 19 % 21)).toNat ∧
      (UInt8.ofNat (Predictor.ratioMin + n / 19 % 21)).toNat ≤ Predictor.ratioMax := by
    rw [hratio]
    simp only [Predictor.ratioMin, Predictor.ratioMax]
    omega
  have hsmall : (UInt8.ofNat (1 + n % 19)).toNat ≤ 32 := by
    rw [hstep]
    omega
  have hroom : 9 ≤ (Array.replicate 9 (0 : UInt8)).size := by decide
  obtain ⟨filled, hfill, hsize, -, hinside⟩ :=
    fillLadder_eq pow (UInt8.ofNat (n / 19 / 21)) hcovered hsmall hroom
  rw [Array.size_replicate] at hsize
  have hpiece : ((builtRungs pow).extract (9 * n) (9 * (n + 1))).size = 9 := by
    rw [Array.size_extract, hrungs, Nat.min_eq_left (by omega)]
    omega
  rw [hfill]
  refine congrArg Except.ok (bytes_ext (hsize.trans hpiece.symm) fun i hi => ?_)
  obtain ⟨hop, hhop⟩ : ∃ hop : Hop, hop.index.val = i :=
    ⟨.ofIndex ⟨i, hsize ▸ hi⟩, by rw [Hop.index_ofIndex]⟩
  rw [getD_extract 0 (by omega), ← hhop, hread, Array.getD_eq_getD_getElem?, hinside, hratio, hstep,
    Option.getD_some]

/-- Appending a ladder goes on with the rungs of the built tables. -/
theorem appendLadder_eq (pow : Power) {n : Nat} (hn : n < 256 * ratioCount * stepCount) :
    appendLadder pow (n / stepCount / ratioCount) (n / stepCount % ratioCount) (n % stepCount)
        ((builtRungs pow).extract 0 (9 * n)) =
      .ok ((builtRungs pow).extract 0 (9 * (n + 1))) := by
  have hfill := fillLadder_builtRungs pow hn
  have hratio : Predictor.ratioMin + n / stepCount % ratioCount < 256 := by
    simp only [Predictor.ratioMin, stepCount, ratioCount]
    omega
  have hstep : 1 + n % stepCount < 256 := by
    simp only [stepCount]
    omega
  have hpieces : (builtRungs pow).extract 0 (9 * n) ++
      (builtRungs pow).extract (9 * n) (9 * (n + 1)) = (builtRungs pow).extract 0 (9 * (n + 1)) := by
    rw [Array.extract_append_extract, Nat.min_eq_left (Nat.zero_le _),
      Nat.max_eq_right (Nat.mul_le_mul_left 9 (Nat.le_succ n))]
  rw [appendLadder, fit_eq hratio, ok_bind, fit_eq hstep, ok_bind, hfill, ok_bind, hpieces]
  rfl

/-- The ladders on the machine are those of the built tables, one behind the other. -/
theorem fillRungs_eq (pow : Power) : fillRungs pow = .ok (builtRungs pow) := by
  have hrungs : (builtRungs pow).size = 256 * ladderSpan :=
    (sized_ofTables (Tables.build pow)).rungs
  have hloop := loop_eq (f := fun n => (builtRungs pow).extract 0 (9 * n))
    fun n hn => appendLadder_eq pow hn
  have hall : (builtRungs pow).extract 0 (9 * (256 * ratioCount * stepCount)) = builtRungs pow := by
    simp only [ladderSpan, ratioCount, stepCount] at hrungs ⊢
    exact Array.extract_eq_self_of_le (by omega)
  have hnone : (builtRungs pow).extract 0 (9 * 0) = #[] := Array.extract_eq_empty_of_le (by omega)
  rw [hall, hnone] at hloop
  rw [fillRungs, loop_grid fun r predicted => loop (appendLadder pow predicted r) stepCount,
    loop_grid fun s i => appendLadder pow (i / ratioCount) (i % ratioCount) s, hloop]

/-- Building the tables on the machine leads to the buffers of the tables of the codec, whatever the
power function. -/
theorem build_eq (pow : Power) : build pow = .ok (ofTables (Tables.build pow)) := by
  have hshare : 0.0 < Ladder.reachShare ∧ Ladder.reachShare ≤ 1.0 := by decide +kernel
  have hrungs := fillRungs_eq pow
  have hfill := (filled_build pow).fill
  unfold builtRungs at hrungs
  generalize ofTables (Tables.build pow) = l at hrungs hfill ⊢
  rw [build, ensure_eq hshare, ok_bind, ensure_eq (by decide), ok_bind, ensure_eq (by decide),
    ok_bind, hrungs, ok_bind, hfill]
  rfl

end Ladders

end Machine

end HopCodec
