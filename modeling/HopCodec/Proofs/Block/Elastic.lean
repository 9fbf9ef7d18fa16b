/-
The elastic adjustment of the corner densities.  They are scaled so that their mean would become the
pixels per sample of the axis, but none of them goes below one: where that holds a corner up, the
mean stays above its target.
-/
import HopCodec.Proofs.Block.Density
import HopCodec.Proofs.Block.Factor
import HopCodec.Proofs.Single.Relative

namespace HopCodec

open Single

namespace Corners

def mean (c : Corners ℚ) : ℚ :=
  (c.topLeft + c.topRight + c.bottomLeft + c.bottomRight) / 4

theorem mean_map_mul (c : Corners ℚ) (s : ℚ) : (c.map (· * s)).mean = c.mean * s := by
  simp only [mean, map]
  ring

theorem map_congr {c : Corners ℚ} {f g : ℚ → ℚ} (h : ∀ x ∈ c.toList, f x = g x) :
    c.map f = c.map g := by
  simp only [toList, List.mem_cons, List.not_mem_nil, or_false, forall_eq_or_imp, forall_eq] at h
  obtain ⟨h₁, h₂, h₃, h₄⟩ := h
  simp only [map, h₁, h₂, h₃, h₄]

theorem mean_map_le {c : Corners ℚ} {f g : ℚ → ℚ} (h : ∀ x, f x ≤ g x) :
    (c.map f).mean ≤ (c.map g).mean := by
  simp only [mean, map]
  linarith [h c.topLeft, h c.topRight, h c.bottomLeft, h c.bottomRight]

/-- What singles approximate, they stand for values close to. -/
theorem Related.exists_denotes {n : ℕ} {g : ℚ → ℚ} {c : Corners Float32} {d : Corners ℚ}
    (h : Related (fun a x => Approximates a n (g x)) c d) :
    ∃ r : Corners ℚ, Related Denotes c r ∧ Related (fun y x => Close n y (g x)) r d := by
  obtain ⟨v₁, hv₁, hclose₁⟩ := h.topLeft
  obtain ⟨v₂, hv₂, hclose₂⟩ := h.topRight
  obtain ⟨v₃, hv₃, hclose₃⟩ := h.bottomLeft
  obtain ⟨v₄, hv₄, hclose₄⟩ := h.bottomRight
  exact ⟨⟨v₁, v₂, v₃, v₄⟩, ⟨hv₁, hv₂, hv₃, hv₄⟩, ⟨hclose₁, hclose₂, hclose₃, hclose₄⟩⟩

theorem Related.mean_close {n : ℕ} {g : ℚ → ℚ} {r d : Corners ℚ}
    (h : Related (fun y x => Close n y (g x)) r d) : Close n r.mean (d.map g).mean :=
  (((h.topLeft.add h.topRight).add h.bottomLeft).add h.bottomRight).div (.refl (by norm_num))

end Corners

section Fit

variable {density : Corners Float32} {d : Corners ℚ} {len samples : ℕ} {most : Float32} {limit : ℚ}

theorem moderate_of_between {x : ℚ} (hlow : 1 / 2 ^ 50 ≤ x) (hhigh : x ≤ 2 ^ 50) : Moderate x :=
  ⟨le_trans (by norm_num) hlow, hhigh.trans (by norm_num)⟩

theorem one_le_mean (h : Corners.Related IsDensity density d) : 1 ≤ d.mean ∧ d.mean ≤ 2 ^ 24 := by
  have h₁ := h.topLeft
  have h₂ := h.topRight
  have h₃ := h.bottomLeft
  have h₄ := h.bottomRight
  constructor
  · rw [Corners.mean, le_div_iff₀ (by norm_num)]
    linarith [h₁.one_le, h₂.one_le, h₃.one_le, h₄.one_le]
  · rw [Corners.mean, div_le_iff₀ (by norm_num)]
    linarith [h₁.le, h₂.le, h₃.le, h₄.le]

theorem IsDensity.approximates {a : Float32} {x : ℚ} (h : IsDensity a x) : Approximates a 0 x :=
  h.denotes.approximates (zero_lt_one.trans_le h.one_le)

/-- Three additions and a division by four. -/
theorem approximates_mean (h : Corners.Related IsDensity density d) :
    Approximates (density.toList.foldl (· + ·) 0.0 / 4.0) 4 d.mean := by
  have hfour : Denotes 4.0 4 := denotes_of_parts 8388608 (-21) (by decide) rfl (by norm_num)
  have h₁ := h.topLeft
  have h₂ := h.topRight
  have h₃ := h.bottomLeft
  have h₄ := h.bottomRight
  obtain ⟨hone, hmax⟩ := one_le_mean h
  have hfirst : Approximates (0.0 + density.topLeft) 0 d.topLeft := by
    refine (Delivers.exact (denotes_zero.add h₁.denotes) (zero_add _) h₁.denotes.representable ?_)
      |>.approximates (zero_lt_one.trans_le h₁.one_le)
    rw [abs_of_nonneg h₁.nonneg]
    exact h₁.le.trans_lt (by norm_num)
  have hbound {x : ℚ} (hlow : 1 ≤ x) (hhigh : x ≤ 2 ^ 26) : Moderate x :=
    moderate_of_between (by linarith) (by linarith)
  have hsecond := hfirst.add h₂.approximates
    (hbound (by linarith [h₁.one_le, h₂.one_le]) (by linarith [h₁.le, h₂.le])) (by norm_num)
  have hthird := hsecond.add (h₃.approximates.mono (by norm_num))
    (hbound (by linarith [h₁.one_le, h₂.one_le, h₃.one_le]) (by linarith [h₁.le, h₂.le, h₃.le]))
    (by norm_num)
  have hfourth := hthird.add (h₄.approximates.mono (by norm_num))
    (hbound (by linarith [h₁.one_le, h₂.one_le, h₃.one_le, h₄.one_le])
      (by linarith [h₁.le, h₂.le, h₃.le, h₄.le])) (by norm_num)
  exact hfourth.div (hfour.approximates (by norm_num)) (hbound hone (hmax.trans (by norm_num)))
    (by norm_num)

/-- Adjusted densities are scaled by the ratio of the pixels per sample to the mean, and kept
between one and the limit of the side. -/
theorem approximates_elasticFit (h : Corners.Related IsDensity density d) (hlen : len < 2 ^ 24)
    (hpos : 0 < samples) (hle : samples ≤ len) (hmost : Denotes most limit) (hone : 1 ≤ limit) :
    Corners.Related
      (fun a x => Approximates a 7 (max 1 (min (x * (len / samples / d.mean)) limit)))
      (elasticFit density len samples most) d := by
  have hlen' : (len : ℚ) ≤ 2 ^ 24 := by exact_mod_cast hlen.le
  have hsamples : (1 : ℚ) ≤ samples := by exact_mod_cast hpos
  have hle' : (samples : ℚ) ≤ len := by exact_mod_cast hle
  obtain ⟨hmean₁, hmean₂⟩ := one_le_mean h
  have hmean := approximates_mean h
  have htarget₁ : 1 ≤ (len / samples : ℚ) := (one_le_div (by linarith)).mpr hle'
  have htarget₂ : (len / samples : ℚ) ≤ 2 ^ 24 := (div_le_self (by linarith) hsamples).trans hlen'
  have htarget : Approximates (ofNat len / ofNat samples) 1 (len / samples : ℚ) :=
    ((denotes_ofNat hlen).approximates (by linarith)).div
      ((denotes_ofNat (hle.trans_lt hlen)).approximates (by linarith))
      (moderate_of_between (by linarith) (by linarith)) (by norm_num)
  have hscale₁ : 1 / 2 ^ 24 ≤ (len / samples / d.mean : ℚ) :=
    div_le_div₀ (by linarith) htarget₁ (by linarith) hmean₂
  have hscale₂ : (len / samples / d.mean : ℚ) ≤ 2 ^ 24 :=
    (div_le_self (by linarith) hmean₁).trans htarget₂
  have hscale := htarget.div hmean (moderate_of_between (by linarith) (by linarith)) (by norm_num)
  have hpositive : ¬ density.toList.foldl (· + ·) 0.0 / 4.0 ≤ 0.0 := by
    obtain ⟨v, hv, hclose⟩ := hmean
    rw [hv.le_iff denotes_zero]
    exact not_le.mpr hclose.pos
  have hlarger : Denotes (larger most densityMin) limit := by
    have hdenotes := hmost.larger denotes_one
    rwa [max_eq_left hone] at hdenotes
  unfold elasticFit
  simp only [if_neg hpositive]
  change Corners.Related _ _ (d.map id)
  refine h.map fun a x ha => ?_
  have hproduct : Moderate (x * (len / samples / d.mean)) := by
    refine moderate_of_between ?_ ?_
    · calc (1 / 2 ^ 50 : ℚ) ≤ 1 * (1 / 2 ^ 24) := by norm_num
        _ ≤ x * (len / samples / d.mean) := mul_le_mul ha.one_le hscale₁ (by norm_num) ha.nonneg
    · calc x * (len / samples / d.mean) ≤ 2 ^ 24 * 2 ^ 24 :=
            mul_le_mul ha.le hscale₂ (by linarith) (by norm_num)
        _ ≤ 2 ^ 50 := by norm_num
  exact (ha.approximates.mul hscale hproduct (by norm_num)).clamp denotes_one hlarger zero_lt_one
    hone

end Fit

section Target

variable {len samples : ℕ}

/-- The samples of an edge, three roundings aside, take up no more pixels each than its ends want on
average. -/
theorem edge_share_le {a b : Float32} {x y : ℚ} (hpos : 0 < len) (hlen : len < 2 ^ 24)
    (ha : IsDensity a x) (hb : IsDensity b y) (h : edgeCount len (x, y) ≤ samples) :
    len / samples ≤ grain ^ 3 * ((x + y) / 2) := by
  have hone : (1 : ℚ) ≤ len := by exact_mod_cast hpos
  have hmax : (len : ℚ) ≤ 2 ^ 24 := by exact_mod_cast hlen.le
  have hmean₁ : 1 ≤ (x + y) / 2 := by linarith [ha.one_le, hb.one_le]
  have hmean₂ : (x + y) / 2 ≤ 2 ^ 24 := by linarith [ha.le, hb.le]
  have hmean : Approximates ((a + b) / 2.0) 2 ((x + y) / 2) :=
    (ha.approximates.add hb.approximates (moderate_of_between (by linarith) (by linarith))
      (by norm_num)).div (denotes_two.approximates (by norm_num))
      (moderate_of_between (by linarith) (by linarith)) (by norm_num)
  have hlow : (1 / 2 ^ 24 : ℚ) ≤ len / ((x + y) / 2) :=
    div_le_div₀ (by linarith) hone (by linarith) hmean₂
  have hhigh : (len / ((x + y) / 2) : ℚ) ≤ 2 ^ 24 := (div_le_self (by linarith) hmean₁).trans hmax
  obtain ⟨v, hv, hclose⟩ := ((denotes_ofNat hlen).approximates (by linarith)).div hmean
    (moderate_of_between (by linarith) (by linarith)) (by norm_num)
  have hcount : v ≤ samples := by
    rw [hv.unique (denotes_edge hlen ha hb)]
    exact (Nat.le_ceil _).trans (by exact_mod_cast h)
  have hsamples : (0 : ℚ) < samples := hclose.pos.trans_le hcount
  rw [div_le_iff₀ hsamples]
  calc (len : ℚ) = len / ((x + y) / 2) * ((x + y) / 2) := (div_mul_cancel₀ _ (by linarith)).symm
    _ ≤ grain ^ 3 * samples * ((x + y) / 2) :=
        mul_le_mul_of_nonneg_right
          (hclose.ge.trans (mul_le_mul_of_nonneg_left hcount (pow_pos grain_pos 3).le))
          (by linarith)
    _ = grain ^ 3 * ((x + y) / 2) * samples := by ring

/-- The samples of an axis take up no more pixels each than its corners want on average. -/
theorem axis_share_le {density : Corners Float32} {d : Corners ℚ}
    (h : Corners.Related IsDensity density d) (hmin : sideMin ≤ len) (hlen : len < 2 ^ 24)
    (direction : Direction) : len / axisCount direction len d ≤ grain ^ 3 * d.mean := by
  have hpos : 0 < len := Nat.lt_of_lt_of_le (by decide) hmin
  by_cases hfull : axisCount direction len d = len
  · have hone : (1 : ℚ) ≤ grain ^ 3 * d.mean :=
      one_le_mul_of_one_le_of_one_le (one_le_grain_pow 3) (one_le_mean h).1
    have hne : (len : ℚ) ≠ 0 := by exact_mod_cast hpos.ne'
    rwa [hfull, div_self hne]
  · cases direction
    · have hcount : max (edgeCount len (d.topLeft, d.topRight))
          (edgeCount len (d.bottomLeft, d.bottomRight)) ≤ axisCount .horizontal len d := by
        simp only [axisCount, Direction.edges] at hfull ⊢
        omega
      have htop := edge_share_le hpos hlen h.topLeft h.topRight
        ((le_max_left _ _).trans hcount)
      have hbottom := edge_share_le hpos hlen h.bottomLeft h.bottomRight
        ((le_max_right _ _).trans hcount)
      rw [Corners.mean]
      linarith
    · have hcount : max (edgeCount len (d.topLeft, d.bottomLeft))
          (edgeCount len (d.topRight, d.bottomRight)) ≤ axisCount .vertical len d := by
        simp only [axisCount, Direction.edges] at hfull ⊢
        omega
      have hleft := edge_share_le hpos hlen h.topLeft h.bottomLeft
        ((le_max_left _ _).trans hcount)
      have hright := edge_share_le hpos hlen h.topRight h.bottomRight
        ((le_max_right _ _).trans hcount)
      rw [Corners.mean]
      linarith

end Target

namespace Axis

/-- The pixels of an axis for each of its samples. -/
def share (a : Axis) : ℚ :=
  a.length / a.samples

/-- What the adjustment makes of the densities `w` that the corners of an axis want.  Each is scaled
by the same ratio, so that their mean would become the pixels per sample, and is held up at one: the
mean does not stay below the pixels per sample, and it becomes these if no corner is held up. -/
structure Adjusted (a : Axis) (w r : Corners ℚ) : Prop where
  corner : Corners.Related (fun y x => |y - max 1 (x * (a.share / w.mean))| ≤
    max 1 (x * (a.share / w.mean)) / 1000) r w
  mean_ge : a.share - a.share / 1000 ≤ r.mean
  mean_eq : (∀ x ∈ w.toList, w.mean ≤ x * a.share) → |r.mean - a.share| ≤ a.share / 1000

theorem adjusted_of_close {a : Axis} {w r : Corners ℚ} (hw : 0 < w.mean)
    (h : Corners.Related (fun y x => Close 10 y (max 1 (x * (a.share / w.mean)))) r w) :
    a.Adjusted w r := by
  have hgrain : grain ^ 10 - 1 ≤ 1 / 1000 := by norm_num [grain]
  have hnear {x y : ℚ} (hclose : Close 10 x y) : |x - y| ≤ y / 1000 := by
    have hscaled := mul_le_mul_of_nonneg_right hgrain hclose.pos_right.le
    linarith [hclose.abs_sub_le]
  have hmean := hnear h.mean_close
  have htarget : (w.map (· * (a.share / w.mean))).mean = a.share := by
    rw [Corners.mean_map_mul, mul_div_cancel₀ _ hw.ne']
  refine ⟨⟨hnear h.topLeft, hnear h.topRight, hnear h.bottomLeft, hnear h.bottomRight⟩, ?_, ?_⟩
  · have hraised : a.share ≤ (w.map fun x => max 1 (x * (a.share / w.mean))).mean :=
      htarget.symm.trans_le (Corners.mean_map_le fun x => le_max_right _ _)
    linarith [(abs_le.mp hmean).1]
  · intro hfree
    have hkept : ∀ x ∈ w.toList, max 1 (x * (a.share / w.mean)) = x * (a.share / w.mean) := by
      intro x hx
      rw [← mul_div_assoc]
      exact max_eq_right ((one_le_div hw).mpr (hfree x hx))
    rwa [Corners.map_congr hkept, htarget] at hmean

/-- The limit of the side does not bind but by rounding. -/
theorem close_raised {scale limit x : ℚ} (hscale : 0 < scale) (hle : scale ≤ grain ^ 3) (hx : 0 < x)
    (hlimit : x ≤ limit) : Close 3 (max 1 (min (x * scale) limit)) (max 1 (x * scale)) := by
  refine Close.max (Close.min_left (mul_pos hx hscale) (hx.trans_le hlimit) ?_) zero_lt_one
  rw [mul_comm]
  exact mul_le_mul hle hlimit hx.le (pow_pos grain_pos 3).le

/-- Shaping an axis adjusts its corner densities to the samples it gets. -/
theorem adjusted_shape {a : Axis} {f : ℚ} {factor : Float32} (hmin : sideMin ≤ a.length)
    (h : a.length < 2 ^ 24) (hfactor : Bounded factor f 10) (direction : Direction)
    (relevance : Corners RelevanceLevel) :
    ∃ w r, Corners.Related Denotes
        (relevance.map fun level => relevanceDensity level.value (densityMax a.length) factor) w ∧
      Corners.Related Denotes (a.shape direction relevance factor).density r ∧
        (a.shape direction relevance factor).Adjusted w r := by
  have hwanted := isDensity_wantedCorners h hfactor relevance
  have hone := one_le_densityLimit a.length
  have hmean : 0 < (wantedCorners a.length f relevance).mean :=
    zero_lt_one.trans_le (one_le_mean hwanted).1
  have hsamples : sideMin ≤ (a.shape direction relevance factor).samples ∧
      (a.shape direction relevance factor).samples ≤ a.length :=
    ⟨le_min (le_max_right _ _) hmin, min_le_right _ _⟩
  have hpos : 0 < (a.shape direction relevance factor).samples :=
    Nat.lt_of_lt_of_le (by decide) hsamples.1
  have hshare : 0 < (a.shape direction relevance factor).share :=
    div_pos (by exact_mod_cast hpos.trans_le hsamples.2) (by exact_mod_cast hpos)
  have htarget : (a.shape direction relevance factor).share ≤
      grain ^ 3 * (wantedCorners a.length f relevance).mean := by
    have hle := axis_share_le hwanted hmin h direction
    rwa [← samples_shape h hfactor direction relevance] at hle
  have hraised (l : RelevanceLevel) := close_raised (div_pos hshare hmean)
    ((div_le_iff₀ hmean).mpr htarget) (zero_lt_one.trans_le one_le_wantedDensity)
    (wantedDensity_le (f := f) (r := l.fraction) hone)
  have hfit := approximates_elasticFit hwanted h hpos hsamples.2 (denotes_densityMax h) hone
  have hdensity : Corners.Related (fun v x => Approximates v 10 (max 1
      (x * ((a.shape direction relevance factor).share /
        (wantedCorners a.length f relevance).mean))))
      (a.shape direction relevance factor).density (wantedCorners a.length f relevance) :=
    ⟨hfit.topLeft.trans (hraised _), hfit.topRight.trans (hraised _),
      hfit.bottomLeft.trans (hraised _), hfit.bottomRight.trans (hraised _)⟩
  obtain ⟨r, hr, hclose⟩ := hdensity.exists_denotes
  exact ⟨_, r, hwanted.imp fun _ _ hd => hd.denotes, hr, adjusted_of_close hmean hclose⟩

end Axis

/-- The elastic adjustment of a block.  Along both axes the mean of the corner densities does not
stay below the pixels per sample, and it is these wherever no corner would go below one. -/
theorem Block.shape_adjusted {pow : Power} (hpow : pow.Rises) {quality : ℕ}
    (hquality : quality ≤ 99) {b : Block} (hmin : sideMin ≤ b.width ∧ sideMin ≤ b.height)
    (hwidth : b.width < 2 ^ 24) (hheight : b.height < 2 ^ 24) (corners : Corners RelevanceCorner) :
    let factor := compressionFactor pow quality
    let shaped := b.shape corners factor
    (∃ w r, Corners.Related Denotes
        (corners.map fun c => relevanceDensity c.x.value (densityMax b.width) factor) w ∧
      Corners.Related Denotes shaped.x.density r ∧ shaped.x.Adjusted w r) ∧
    ∃ w r, Corners.Related Denotes
        (corners.map fun c => relevanceDensity c.y.value (densityMax b.height) factor) w ∧
      Corners.Related Denotes shaped.y.density r ∧ shaped.y.Adjusted w r := by
  obtain ⟨f, -, hfactor, -⟩ := hpow.exists_bounded le_rfl hquality
  exact ⟨Axis.adjusted_shape hmin.1 hwidth hfactor .horizontal (corners.map RelevanceCorner.x),
    Axis.adjusted_shape hmin.2 hheight hfactor .vertical (corners.map RelevanceCorner.y)⟩

/-- A block of eight pixels by eight at a medium quality, its upper corners without any relevance
along rows. -/
def Block.uneven : Block :=
  (full 0 8 0 8).shape ⟨⟨.zero, .top⟩, ⟨.zero, .top⟩, .uniform .top, .uniform .top⟩
    (compressionFactor Codec.wholePower 50)

theorem Block.shape_adjusted_uneven :
    Power.Rises Codec.wholePower ∧
      (sideMin ≤ (full 0 8 0 8).width ∧ sideMin ≤ (full 0 8 0 8).height) ∧
      ∃ w r, Corners.Related Denotes uneven.x.density r ∧ uneven.x.Adjusted w r := by
  have hmin : sideMin ≤ (full 0 8 0 8).width ∧ sideMin ≤ (full 0 8 0 8).height := by decide
  obtain ⟨⟨w, r, -, hr, hadjusted⟩, -⟩ := shape_adjusted rises_wholePower
    (show 50 ≤ 99 by norm_num) hmin (by decide) (by decide)
    ⟨⟨.zero, .top⟩, ⟨.zero, .top⟩, .uniform .top, .uniform .top⟩
  exact ⟨rises_wholePower, hmin, w, r, hr, hadjusted⟩

/-- Its lower edge keeps all eight samples, so the densities `4, 4, 1, 1` are to be scaled down to a
mean of one; the lower corners are held up, and the mean stays at `1.3`. -/
theorem Block.uneven_mean_above :
    uneven.x.share = 1 ∧ ∃ r : Corners ℚ, Corners.Related Denotes uneven.x.density r ∧
      uneven.x.share + 29 / 100 < r.mean := by
  have hshaped : uneven.x.length = 8 ∧ uneven.x.samples = 8 ∧
      uneven.x.density = ⟨1.6, 1.6, 1.0, 1.0⟩ := by decide +kernel
  obtain ⟨hlength, hsamples, hdensity⟩ := hshaped
  have hshare : uneven.x.share = 1 := by
    rw [Axis.share, hlength, hsamples]
    norm_num
  have hupper : Denotes 1.6 (13421773 * 2 ^ (-23 : ℤ)) :=
    denotes_of_parts 13421773 (-23) (by decide) rfl (by norm_num)
  refine ⟨hshare, ⟨13421773 * 2 ^ (-23 : ℤ), 13421773 * 2 ^ (-23 : ℤ), 1, 1⟩, ?_, ?_⟩
  · rw [hdensity]
    exact ⟨hupper, hupper, denotes_one, denotes_one⟩
  · rw [hshare, Corners.mean]
    norm_num

end HopCodec
