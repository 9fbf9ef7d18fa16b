/-
Full relevance keeps every sample.  At the top level the wanted density is exactly one pixel per
sample, whatever the quality, so a side of `len` pixels keeps `len` samples.
-/
import HopCodec.Proofs.Block.Density
import HopCodec.Proofs.Block.Grid

namespace HopCodec

open Single

/-- At relevance one the curve is at one pixel per sample for every factor. -/
theorem denotes_relevanceDensity {relevance most factor : Float32} {limit : ℚ}
    (hrelevance : Denotes relevance 1) (hmost : Denotes most limit) (hone : 1 ≤ limit)
    (hlimit : limit < 2 ^ 24) (hfactor : AtLeast factor 0) :
    Denotes (relevanceDensity relevance most factor) 1 := by
  have hr : Denotes (clamp relevance 0.0 1.0) 1 := by
    have hclamp := hrelevance.clamp denotes_zero denotes_one zero_le_one
    rwa [min_self, max_eq_right zero_le_one] at hclamp
  have hexcess : Denotes (most - 1.0) (nearest (limit - 1)) :=
    (hmost.sub denotes_one).denotes (by
      rw [abs_of_nonneg (by linarith)]
      linarith)
  have hrest : Denotes (1.0 - clamp relevance 0.0 1.0) 0 :=
    (denotes_one.sub hr).exact (sub_self 1) denotes_zero.representable (by norm_num)
  have hproduct : Denotes ((most - 1.0) * (1.0 - clamp relevance 0.0 1.0)) 0 :=
    (hexcess.mul hrest).exact (mul_zero _) denotes_zero.representable (by norm_num)
  have hdivisor : AtLeast (1.0 + factor * most * clamp relevance 0.0 1.0) 1 :=
    ((hfactor.mul hmost (by linarith)).mul hr zero_lt_one).one_add
  have hdensity : Denotes (1.0 + (most - 1.0) * (1.0 - clamp relevance 0.0 1.0) /
      (1.0 + factor * most * clamp relevance 0.0 1.0)) 1 :=
    (denotes_one.add (denotes_zero_div hproduct hdivisor)).exact (add_zero 1)
      denotes_one.representable (by norm_num)
  have hclamp := hdensity.clamp denotes_one hmost hone
  rwa [min_eq_left hone, max_self] at hclamp

/-- Where both ends of an edge want one pixel per sample, it gets a sample for every pixel. -/
theorem edgeCount_one {len : Nat} (h : len < 2 ^ 24) : edgeCount len (1, 1) = len := by
  have hmean : meanDensity 1 1 = 1 := by
    rw [meanDensity, one_add_one_eq_two, nearest_of_representable denotes_two.representable,
      div_self two_ne_zero, nearest_of_representable denotes_one.representable]
  rw [edgeCount, hmean, div_one, nearest_of_representable (denotes_ofNat h).representable,
    Nat.ceil_natCast]

theorem axisCount_one {len : Nat} (h : len < 2 ^ 24) (direction : Direction) :
    axisCount direction len (.const 1) = len := by
  cases direction
  all_goals
    simp only [axisCount, Direction.edges, Corners.const, edgeCount_one h]
    omega

/-- An axis with full relevance at all corners keeps all its samples. -/
theorem Axis.samples_shape_top (a : Axis) (direction : Direction) {factor : Float32}
    (hfactor : AtLeast factor 0) (h : a.length < 2 ^ 24) :
    (a.shape direction (.const .top) factor).samples = a.length := by
  have hdensity : IsDensity (relevanceDensity 1.0 (densityMax a.length) factor) 1 :=
    ⟨⟨denotes_relevanceDensity denotes_one (denotes_densityMax h) (one_le_densityLimit _)
      (densityLimit_lt h) hfactor, zero_le_one, one_le_pow₀ (by norm_num)⟩, le_rfl⟩
  have hcorners : Corners.Related IsDensity
      (.const (relevanceDensity 1.0 (densityMax a.length) factor)) (.const 1) :=
    ⟨hdensity, hdensity, hdensity, hdensity⟩
  exact (axisSamples_eq h hcorners direction).trans (axisCount_one h direction)

theorem Block.samples_shape_top (b : Block) {factor : Float32} (hfactor : AtLeast factor 0)
    (hx : b.x.length < 2 ^ 24) (hy : b.y.length < 2 ^ 24) :
    (b.shape (.const (.uniform .top)) factor).x.samples =
        (b.shape (.const (.uniform .top)) factor).x.length ∧
      (b.shape (.const (.uniform .top)) factor).y.samples =
        (b.shape (.const (.uniform .top)) factor).y.length := by
  have hshape : b.shape (.const (.uniform .top)) factor =
      ⟨b.x.shape .horizontal (.const .top) factor, b.y.shape .vertical (.const .top) factor⟩ := rfl
  rw [hshape]
  exact ⟨b.x.samples_shape_top .horizontal hfactor hx, b.y.samples_shape_top .vertical hfactor hy⟩

namespace RelevanceMesh

theorem get_uniform {blocksW blocksH column row : Nat} (hcolumn : column ≤ blocksW)
    (hrow : row ≤ blocksH) (level : RelevanceLevel) :
    (uniform blocksW blocksH level).get column row = .uniform level := by
  have hplace : row * (blocksW + 1) + column < (blocksW + 1) * (blocksH + 1) := by
    have hrows : row * (blocksW + 1) ≤ blocksH * (blocksW + 1) := Nat.mul_le_mul_right _ hrow
    have hall : (blocksW + 1) * (blocksH + 1) = blocksH * (blocksW + 1) + (blocksW + 1) := by ring
    omega
  simp [get, uniform, ofFn, place, cornerCount, Array.getD, hplace]

end RelevanceMesh

namespace BlockGrid

/-- Under a uniform mesh of the top level no block of a grid loses a sample. -/
theorem full_applyMesh_top {pow : Power} {g g' : BlockGrid} {width height quality : Nat}
    {mesh : RelevanceMesh} (hmesh : mesh = .uniform g.blocksW g.blocksH .top)
    (h : g.Tiles width height) (hwidth : width < 2 ^ 24) (hheight : height < 2 ^ 24)
    (hfactor : AtLeast (compressionFactor pow quality) 0)
    (hg : g.applyMesh pow mesh quality = .ok g') : g'.Full := by
  subst hmesh
  obtain ⟨-, -, rfl⟩ := applyMesh_eq_ok_iff.mp hg
  intro b hb
  obtain ⟨i, hi, rfl⟩ := Array.mem_iff_getElem.mp hb
  have hlt : i < g.blocks.size := by simpa [mapBlocks] using hi
  have hcolumn := h.column_lt hlt
  have hrow := h.row_lt hlt
  have hplaced := h.placed i hlt
  have hcorners : (RelevanceMesh.uniform g.blocksW g.blocksH .top).blockCorners (i % g.blocksW)
      (i / g.blocksW) = .const (.uniform .top) := by
    simp only [RelevanceMesh.blockCorners]
    have hget : ∀ x y, x ≤ i % g.blocksW + 1 → y ≤ i / g.blocksW + 1 →
        (RelevanceMesh.uniform g.blocksW g.blocksH .top).get x y = .uniform .top :=
      fun x y hx hy => RelevanceMesh.get_uniform (by omega) (by omega) _
    rw [hget _ _ (by omega) (by omega), hget _ _ (by omega) (by omega),
      hget _ _ (by omega) (by omega), hget _ _ (by omega) (by omega)]
    rfl
  have hx : g.blocks[i].x.length < 2 ^ 24 :=
    (hplaced.x.length_le.trans (h.xCuts.le_len hcolumn)).trans_lt hwidth
  have hy : g.blocks[i].y.length < 2 ^ 24 :=
    (hplaced.y.length_le.trans (h.yCuts.le_len hrow)).trans_lt hheight
  simp only [mapBlocks, Array.getElem_mapIdx, hcorners]
  exact g.blocks[i].samples_shape_top hfactor hx hy

end BlockGrid

end HopCodec
