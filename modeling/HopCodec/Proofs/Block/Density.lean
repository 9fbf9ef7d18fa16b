/-
Relevance and quality never cost samples.  The wanted density falls in both, each of its operations
is followed by rounding, and rounding keeps the order of values; so the number of samples along an
edge does not fall as relevance or quality rises.
-/
import HopCodec.Block.Shape
import HopCodec.Proofs.Single.Monotone

namespace HopCodec

open Single

namespace RelevanceLevel

/-- The relevance that a level stands for, in eighths. -/
def eighths (l : RelevanceLevel) : ℕ :=
  match l.index with
  | 0 => 0
  | 1 => 1
  | 2 => 2
  | 3 => 4
  | 4 => 6
  | 5 => 8

/-- The relevance that a level stands for, as a rational. -/
def fraction (l : RelevanceLevel) : ℚ :=
  l.eighths / 8

theorem denotes_value (l : RelevanceLevel) : Denotes l.value l.fraction := by
  obtain ⟨i⟩ := l
  fin_cases i
  · show Denotes 0.0 ((0 : ℕ) / 8)
    rw [Nat.cast_zero, zero_div]
    exact denotes_zero
  · exact denotes_of_parts 8388608 (-26) (by decide) rfl (by norm_num [fraction, eighths])
  · exact denotes_of_parts 8388608 (-25) (by decide) rfl (by norm_num [fraction, eighths])
  · exact denotes_of_parts 8388608 (-24) (by decide) rfl (by norm_num [fraction, eighths])
  · exact denotes_of_parts 12582912 (-24) (by decide) rfl (by norm_num [fraction, eighths])
  · exact denotes_of_parts 8388608 (-23) (by decide) rfl (by norm_num [fraction, eighths])

theorem fraction_nonneg (l : RelevanceLevel) : 0 ≤ l.fraction :=
  div_nonneg (Nat.cast_nonneg _) (by norm_num)

theorem fraction_mono {l l' : RelevanceLevel} (h : l.index ≤ l'.index) :
    l.fraction ≤ l'.fraction := by
  have heighths : ∀ i j : Fin 6, i ≤ j → (mk i).eighths ≤ (mk j).eighths := by decide
  exact div_le_div_of_nonneg_right (by exact_mod_cast heighths _ _ h) (by norm_num)

theorem fraction_le_one (l : RelevanceLevel) : l.fraction ≤ 1 := by
  have htop : top.fraction = 1 := by norm_num [fraction, eighths, top]
  exact (fraction_mono (Fin.le_last l.index)).trans_eq htop

end RelevanceLevel

/-- The most pixels per sample that a side allows, as a rational. -/
def densityLimit (side : Nat) : ℚ :=
  max (side / 2) 1

theorem one_le_densityLimit (side : Nat) : 1 ≤ densityLimit side :=
  le_max_right _ _

theorem densityLimit_lt {side : Nat} (h : side < 2 ^ 24) : densityLimit side < 2 ^ 24 := by
  have hcast : (side : ℚ) < 2 ^ 24 := by exact_mod_cast h
  have hnonneg : (0 : ℚ) ≤ side := Nat.cast_nonneg side
  exact max_lt (by linarith) (by norm_num)

theorem denotes_densityMax {side : Nat} (h : side < 2 ^ 24) :
    Denotes (densityMax side) (densityLimit side) := by
  have hcast : (side : ℚ) < 2 ^ 24 := by exact_mod_cast h
  have hnonneg : (0 : ℚ) ≤ side := Nat.cast_nonneg side
  have hmin : Denotes (ofNat sideMin) 2 := by exact_mod_cast denotes_ofNat (n := 2) (by norm_num)
  have hhalf : Representable ((side : ℚ) / 2) :=
    representable_half (n := side) (by rw [Nat.abs_cast]; exact_mod_cast h)
  have hquotient := ((denotes_ofNat h).div hmin (by norm_num)).exact rfl hhalf (by
    rw [abs_of_nonneg (by linarith)]
    linarith)
  exact hquotient.larger denotes_one

/-- The density wanted at a relevance under a factor, rounded after every operation. -/
def wantedDensity (limit factor relevance : ℚ) : ℚ :=
  let excess := nearest (nearest (limit - 1) * nearest (1 - relevance))
  let pull := nearest (1 + nearest (nearest (factor * limit) * relevance))
  max 1 (min (nearest (1 + nearest (excess / pull))) limit)

section Density

variable {limit f f' r r' : ℚ}

theorem one_le_wantedDensity : 1 ≤ wantedDensity limit f r :=
  le_max_left _ _

theorem wantedDensity_le (hone : 1 ≤ limit) : wantedDensity limit f r ≤ limit :=
  max_le hone (min_le_right _ _)

theorem denotes_wantedDensity {relevance most factor : Float32} (hrelevance : Bounded relevance r 0)
    (hmost : Bounded most limit 24) (hone : 1 ≤ limit) (hfactor : Bounded factor f 10) :
    Denotes (relevanceDensity relevance most factor) (wantedDensity limit f r) := by
  have hr : r ≤ 1 := hrelevance.le
  have hclamped : Bounded (clamp relevance 0.0 1.0) r 0 := by
    have hclamp := hrelevance.denotes.clamp denotes_zero denotes_one zero_le_one
    rw [min_eq_left hr, max_eq_right hrelevance.nonneg] at hclamp
    exact ⟨hclamp, hrelevance.nonneg, hrelevance.le⟩
  have hroom : Bounded (most - 1.0) (nearest (limit - 1)) 24 :=
    (hmost.denotes.sub denotes_one).bounded (sub_nonneg.mpr hone) (by linarith [hmost.le])
      (by norm_num)
  have hrest : Bounded (1.0 - clamp relevance 0.0 1.0) (nearest (1 - r)) 0 :=
    (denotes_one.sub hclamped.denotes).bounded (sub_nonneg.mpr hr) (by linarith [hclamped.nonneg])
      (by norm_num)
  have hexcess := hroom.mul hrest (by norm_num)
  have hpulled := (hfactor.mul hmost (by norm_num)).mul hclamped (by norm_num)
  have hpull := hpulled.one_add (by norm_num)
  have hquotient := hexcess.div hpull.denotes
    (one_le_nearest (le_add_of_nonneg_right hpulled.nonneg)) (by norm_num)
  exact (hquotient.one_add (by norm_num)).denotes.clamp denotes_one hmost.denotes hone

/-- More relevance or a larger factor never asks for more pixels per sample. -/
theorem wantedDensity_anti (hone : 1 ≤ limit) (hf : 0 ≤ f) (hff' : f ≤ f') (hr : 0 ≤ r)
    (hrr' : r ≤ r') (hr' : r' ≤ 1) : wantedDensity limit f' r' ≤ wantedDensity limit f r := by
  have hroom : 0 ≤ nearest (limit - 1) := nearest_nonneg (by linarith)
  have hrest : nearest (1 - r') ≤ nearest (1 - r) := nearest_mono (by linarith)
  have hexcess := nearest_mono (mul_le_mul_of_nonneg_left hrest hroom)
  have hexcess₀ := nearest_nonneg (mul_nonneg hroom (nearest_nonneg (sub_nonneg.mpr hr')))
  have hscaled : nearest (f * limit) ≤ nearest (f' * limit) :=
    nearest_mono (mul_le_mul_of_nonneg_right hff' (by linarith))
  have hscaled₀ : 0 ≤ nearest (f * limit) := nearest_nonneg (by positivity)
  have hpulled := nearest_mono (mul_le_mul hscaled hrr' hr (hscaled₀.trans hscaled))
  have hpull := nearest_mono (add_le_add_right hpulled 1)
  have hpull₀ : 0 < nearest (1 + nearest (nearest (f * limit) * r)) :=
    zero_lt_one.trans_le (one_le_nearest (by linarith [nearest_nonneg (mul_nonneg hscaled₀ hr)]))
  have hquotient := nearest_mono (div_le_div₀ (hexcess₀.trans hexcess) hexcess hpull₀ hpull)
  exact max_le_max_left 1 (min_le_min_right limit (nearest_mono (add_le_add_right hquotient 1)))

end Density

/-- A single that stands for a density: one pixel per sample or more. -/
structure IsDensity (a : Float32) (x : ℚ) : Prop extends Bounded a x 24 where
  one_le : 1 ≤ x

def meanDensity (d e : ℚ) : ℚ :=
  nearest (nearest (d + e) / 2)

/-- The samples of an edge whose ends want the given densities. -/
def edgeCount (len : ℕ) (edge : ℚ × ℚ) : ℕ :=
  ⌈nearest (len / meanDensity edge.1 edge.2)⌉₊

section Edge

variable {len : ℕ} {d d' e e' : ℚ}

theorem one_le_meanDensity (hd : 1 ≤ d) (he : 1 ≤ e) : 1 ≤ meanDensity d e := by
  have hsum : 2 ≤ nearest (d + e) := denotes_two.representable.le_nearest (by linarith)
  exact one_le_nearest (by linarith)

/-- No edge has more samples than pixels. -/
theorem nearest_len_div_le (h : len < 2 ^ 24) (hd : 1 ≤ d) (he : 1 ≤ e) :
    nearest (len / meanDensity d e) ≤ len :=
  (denotes_ofNat h).representable.nearest_le
    (div_le_self (Nat.cast_nonneg len) (one_le_meanDensity hd he))

theorem denotes_edge {a b : Float32} (h : len < 2 ^ 24) (ha : IsDensity a d)
    (hb : IsDensity b e) :
    Denotes (ofNat len / ((a + b) / 2.0)) (nearest (len / meanDensity d e)) := by
  have hcast : (len : ℚ) < 2 ^ 24 := by exact_mod_cast h
  have hlen : Bounded (ofNat len) len 24 := ⟨denotes_ofNat h, Nat.cast_nonneg len, hcast.le⟩
  have hsum := ha.toBounded.add hb.toBounded (by norm_num)
  have hmean := hsum.div denotes_two (by norm_num) (by norm_num)
  exact (hlen.div hmean.denotes (one_le_meanDensity ha.one_le hb.one_le) (by norm_num)).denotes

theorem edgeSamples_eq {a b : Float32} (h : len < 2 ^ 24) (ha : IsDensity a d)
    (hb : IsDensity b e) : edgeSamples len (a, b) = edgeCount len (d, e) := by
  have hcast : (len : ℚ) < 2 ^ 24 := by exact_mod_cast h
  exact (denotes_edge h ha hb).ceilNat_eq_ceil
    ((nearest_len_div_le h ha.one_le hb.one_le).trans_lt hcast)

/-- Fewer pixels per sample at the ends of an edge are no fewer samples. -/
theorem edgeCount_anti (hd : 1 ≤ d) (he : 1 ≤ e) (hdd' : d ≤ d') (hee' : e ≤ e') :
    edgeCount len (d', e') ≤ edgeCount len (d, e) := by
  have hmean : meanDensity d e ≤ meanDensity d' e' :=
    nearest_mono (div_le_div_of_nonneg_right (nearest_mono (add_le_add hdd' hee')) (by norm_num))
  have hpos := zero_lt_one.trans_le (one_le_meanDensity hd he)
  exact Nat.ceil_mono (nearest_mono (div_le_div_of_nonneg_left (Nat.cast_nonneg len) hpos hmean))

end Edge

/-- A relation between the values at the corners of a block, corner by corner. -/
structure Corners.Related {α β : Type} (R : α → β → Prop) (c : Corners α) (c' : Corners β) :
    Prop where
  topLeft : R c.topLeft c'.topLeft
  topRight : R c.topRight c'.topRight
  bottomLeft : R c.bottomLeft c'.bottomLeft
  bottomRight : R c.bottomRight c'.bottomRight

theorem Corners.Related.map {α β γ δ : Type} {R : α → β → Prop} {S : γ → δ → Prop} {f : α → γ}
    {g : β → δ} {c : Corners α} {c' : Corners β} (h : Related R c c')
    (hfg : ∀ a b, R a b → S (f a) (g b)) : Related S (c.map f) (c'.map g) :=
  ⟨hfg _ _ h.topLeft, hfg _ _ h.topRight, hfg _ _ h.bottomLeft, hfg _ _ h.bottomRight⟩

theorem Corners.Related.imp {α β : Type} {R S : α → β → Prop} {c : Corners α} {c' : Corners β}
    (h : Related R c c') (hRS : ∀ a b, R a b → S a b) : Related S c c' :=
  ⟨hRS _ _ h.topLeft, hRS _ _ h.topRight, hRS _ _ h.bottomLeft, hRS _ _ h.bottomRight⟩

theorem Corners.Related.refl {α : Type} {R : α → α → Prop} (h : ∀ a, R a a) (c : Corners α) :
    Related R c c :=
  ⟨h _, h _, h _, h _⟩

/-- The samples of an axis whose corners want the given densities. -/
def axisCount (direction : Direction) (len : ℕ) (d : Corners ℚ) : ℕ :=
  let (near, far) := direction.edges d
  min (max (max (edgeCount len near) (edgeCount len far)) sideMin) len

theorem axisSamples_eq {len : ℕ} (h : len < 2 ^ 24) {density : Corners Float32} {d : Corners ℚ}
    (hd : Corners.Related IsDensity density d) (direction : Direction) :
    axisSamples direction len density = axisCount direction len d := by
  cases direction
  · simp only [axisSamples, axisCount, Direction.edges, edgeSamples_eq h hd.topLeft hd.topRight,
      edgeSamples_eq h hd.bottomLeft hd.bottomRight]
  · simp only [axisSamples, axisCount, Direction.edges, edgeSamples_eq h hd.topLeft hd.bottomLeft,
      edgeSamples_eq h hd.topRight hd.bottomRight]

theorem axisCount_anti {d d' : Corners ℚ} (h : Corners.Related (fun x y => 1 ≤ x ∧ x ≤ y) d d')
    (direction : Direction) (len : ℕ) :
    axisCount direction len d' ≤ axisCount direction len d := by
  have hedge {x x' y y' : ℚ} (hx : 1 ≤ x ∧ x ≤ x') (hy : 1 ≤ y ∧ y ≤ y') :
      edgeCount len (x', y') ≤ edgeCount len (x, y) := edgeCount_anti hx.1 hy.1 hx.2 hy.2
  refine min_le_min_right len (max_le_max_right sideMin ?_)
  cases direction
  · exact max_le_max (hedge h.topLeft h.topRight) (hedge h.bottomLeft h.bottomRight)
  · exact max_le_max (hedge h.topLeft h.bottomLeft) (hedge h.topRight h.bottomRight)

def wantedCorners (len : ℕ) (f : ℚ) (relevance : Corners RelevanceLevel) : Corners ℚ :=
  relevance.map fun level => wantedDensity (densityLimit len) f level.fraction

section Wanted

variable {len : ℕ} {f f' : ℚ} {factor : Float32}

theorem isDensity_wantedCorners (h : len < 2 ^ 24) (hfactor : Bounded factor f 10)
    (relevance : Corners RelevanceLevel) :
    Corners.Related IsDensity
      (relevance.map fun level => relevanceDensity level.value (densityMax len) factor)
      (wantedCorners len f relevance) := by
  have hone := one_le_densityLimit len
  have hmost : Bounded (densityMax len) (densityLimit len) 24 :=
    ⟨denotes_densityMax h, by linarith, (densityLimit_lt h).le⟩
  refine (Corners.Related.refl (fun _ => rfl) relevance).map fun l l' heq => ?_
  obtain rfl : l = l' := heq
  have hlevel : Bounded l.value l.fraction 0 :=
    ⟨l.denotes_value, l.fraction_nonneg, l.fraction_le_one⟩
  exact ⟨⟨denotes_wantedDensity hlevel hmost hone hfactor,
    zero_le_one.trans one_le_wantedDensity, (wantedDensity_le hone).trans hmost.le⟩,
    one_le_wantedDensity⟩

theorem wantedCorners_anti (hf : 0 ≤ f) (hff' : f ≤ f') {c c' : Corners RelevanceLevel}
    (h : Corners.Related (fun l l' => l.index ≤ l'.index) c c') :
    Corners.Related (fun x y => 1 ≤ x ∧ x ≤ y) (wantedCorners len f' c')
      (wantedCorners len f c) := by
  have hlevel (l l' : RelevanceLevel) (hll' : l.index ≤ l'.index) :=
    wantedDensity_anti (one_le_densityLimit len) hf hff' l.fraction_nonneg
      (RelevanceLevel.fraction_mono hll') l'.fraction_le_one
  exact ⟨⟨one_le_wantedDensity, hlevel _ _ h.topLeft⟩,
    ⟨one_le_wantedDensity, hlevel _ _ h.topRight⟩,
    ⟨one_le_wantedDensity, hlevel _ _ h.bottomLeft⟩,
    ⟨one_le_wantedDensity, hlevel _ _ h.bottomRight⟩⟩

theorem Axis.samples_shape {a : Axis} (h : a.length < 2 ^ 24) (hfactor : Bounded factor f 10)
    (direction : Direction) (relevance : Corners RelevanceLevel) :
    (a.shape direction relevance factor).samples =
      axisCount direction a.length (wantedCorners a.length f relevance) :=
  axisSamples_eq h (isDensity_wantedCorners h hfactor relevance) direction

end Wanted

/-- An axis sampled twice: within the limits of its side, and not finer the first time. -/
structure Axis.Coarser (a a' : Axis) : Prop where
  start_eq : a'.start = a.start
  stop_eq : a'.stop = a.stop
  least : sideMin ≤ a.samples
  le : a.samples ≤ a'.samples
  most : a'.samples ≤ a'.length

namespace Axis

variable {a a' image : Axis}

theorem Coarser.length_eq (h : a.Coarser a') : a'.length = a.length := by
  rw [length, length, h.start_eq, h.stop_eq]

theorem coarser_shape {f f' : ℚ} {factor factor' : Float32} (hmin : sideMin ≤ a.length)
    (h : a.length < 2 ^ 24) (hfactor : Bounded factor f 10) (hfactor' : Bounded factor' f' 10)
    (hff' : f ≤ f') {c c' : Corners RelevanceLevel}
    (hc : Corners.Related (fun l l' => l.index ≤ l'.index) c c') (direction : Direction) :
    (a.shape direction c factor).Coarser (a.shape direction c' factor') := by
  refine ⟨rfl, rfl, ?_, ?_, min_le_right _ _⟩
  · exact le_min (le_max_right _ _) hmin
  · rw [samples_shape h hfactor, samples_shape h hfactor']
    exact axisCount_anti (wantedCorners_anti hfactor.nonneg hff' hc) direction a.length

theorem samples_subsampleAxis (hfull : image.samples = image.length) (factor : ℕ) :
    (BlockGrid.subsampleAxis image a factor).samples =
      if a.samples < a.length then min (max (ceilDiv a.samples factor) sideMin) image.length
      else image.length := by
  simp only [BlockGrid.subsampleAxis, isReduced, decide_eq_true_eq, hfull]

/-- Where the first sampling drops nothing on the subsampled plane, the second one does not drop
anything either. -/
theorem Coarser.subsample (h : a.Coarser a') (hfull : image.samples = image.length)
    (hmin : sideMin ≤ image.length) (factor : ℕ) :
    (BlockGrid.subsampleAxis image a factor).Coarser
      (BlockGrid.subsampleAxis image a' factor) := by
  have hle := h.le
  have hlength := h.length_eq
  have hscaled : ceilDiv a.samples factor ≤ ceilDiv a'.samples factor :=
    Nat.div_le_div_right (by omega)
  refine ⟨rfl, rfl, ?_, ?_, ?_⟩
  · rw [samples_subsampleAxis hfull]
    split_ifs <;> omega
  · rw [samples_subsampleAxis hfull, samples_subsampleAxis hfull]
    split_ifs <;> omega
  · change _ ≤ image.length
    rw [samples_subsampleAxis hfull]
    split_ifs <;> omega

end Axis

/-- A block sampled twice, in neither direction finer the first time. -/
structure Block.Coarser (b b' : Block) : Prop where
  x : b.x.Coarser b'.x
  y : b.y.Coarser b'.y

/-- In neither direction is a corner more relevant than another one. -/
structure RelevanceCorner.AtMost (c c' : RelevanceCorner) : Prop where
  x : c.x.index ≤ c'.x.index
  y : c.y.index ≤ c'.y.index

instance (c c' : RelevanceCorner) : Decidable (c.AtMost c') :=
  decidable_of_iff (c.x.index ≤ c'.x.index ∧ c.y.index ≤ c'.y.index)
    ⟨fun h => ⟨h.1, h.2⟩, fun h => ⟨h.x, h.y⟩⟩

/-- Less relevance at the corners of a block, or a smaller factor, does not shape it finer. -/
theorem Block.coarser_shape {b : Block} {f f' : ℚ} {factor factor' : Float32}
    (hmin : sideMin ≤ b.width ∧ sideMin ≤ b.height) (hwidth : b.width < 2 ^ 24)
    (hheight : b.height < 2 ^ 24) (hfactor : Bounded factor f 10) (hfactor' : Bounded factor' f' 10)
    (hff' : f ≤ f') {c c' : Corners RelevanceCorner}
    (hc : Corners.Related RelevanceCorner.AtMost c c') :
    (b.shape c factor).Coarser (b.shape c' factor') :=
  ⟨Axis.coarser_shape hmin.1 hwidth hfactor hfactor' hff'
      (hc.map fun _ _ => RelevanceCorner.AtMost.x) .horizontal,
    Axis.coarser_shape hmin.2 hheight hfactor hfactor' hff'
      (hc.map fun _ _ => RelevanceCorner.AtMost.y) .vertical⟩

theorem Block.Coarser.sampleCount_le {b b' : Block} (h : b.Coarser b') :
    b.sampleCount ≤ b'.sampleCount :=
  Nat.mul_le_mul h.x.le h.y.le

end HopCodec
