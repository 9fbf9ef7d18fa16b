/-
Estimating relevance treats rows and columns alike.  The scan along the rows of a transposed plane
is the scan along the columns of the plane, and the surroundings of a corner are those of the
mirrored corner turned over; so the mesh of the transposed plane is the mesh mirrored, with the
directions of every corner exchanged.
-/
import HopCodec.Proofs.Frame.Visible
import HopCodec.Proofs.Machine.Estimate

namespace HopCodec

/-- The order of two sums over ranges does not matter. -/
theorem sumRange_comm (top bottom left right : Nat) (f : Nat → Nat → Nat) :
    (sumRange top bottom fun y => sumRange left right fun x => f x y) =
      sumRange left right fun x => sumRange top bottom fun y => f x y := by
  simp only [sumRange_eq_sum]
  induction List.range (bottom - top) with
  | nil => simp
  | cons j rest ih => simp only [List.map_cons, List.sum_cons, List.sum_map_add, ih]

namespace Plane

/-- The plane whose rows are the columns of another one.  Either may be strided. -/
structure Transposes (turned plane : Plane) : Prop where
  width_eq : turned.width = plane.height
  height_eq : turned.height = plane.width
  get_eq : ∀ x < plane.width, ∀ y < plane.height, turned.get y x = plane.get x y

namespace Transposes

variable {turned plane : Plane}

theorem symm (h : turned.Transposes plane) : plane.Transposes turned :=
  ⟨h.height_eq.symm, h.width_eq.symm, fun x hx y hy =>
    (h.get_eq y (h.height_eq ▸ hy) x (h.width_eq ▸ hx)).symm⟩

/-- The pixels of a transposed plane, row by row. -/
theorem toPacked_eq (h : turned.Transposes plane) :
    turned.toPacked = Relevance.transpose plane.width plane.height plane.toPacked := by
  apply bytes_ext
  · rw [size_toPacked, h.width_eq, h.height_eq, Nat.mul_comm]
    simp [Relevance.transpose]
  · intro i hi
    rw [size_toPacked, h.width_eq, h.height_eq] at hi
    have hx := BlockGrid.div_lt_of_lt_mul hi
    have hy := BlockGrid.mod_lt_of_lt_mul hi
    have hturned : turned.toPacked.getD (i / plane.height * turned.width + i % plane.height) 0 =
        turned.get (i % plane.height) (i / plane.height) :=
      getD_toPacked turned (by rwa [h.width_eq]) (by rwa [h.height_eq])
    rw [h.width_eq, Nat.div_add_mod', h.get_eq _ hx _ hy, ← getD_toPacked plane hx hy] at hturned
    rw [hturned, Relevance.transpose]
    simp [Array.getD_eq_getD_getElem?, Nat.mul_comm plane.width, hi]

end Transposes

def transpose (plane : Plane) : Plane :=
  ofPacked plane.height plane.width (Relevance.transpose plane.width plane.height plane.toPacked)
    (by simp [Relevance.transpose, Nat.mul_comm])

theorem transposes_transpose (plane : Plane) : plane.transpose.Transposes plane where
  width_eq := rfl
  height_eq := rfl
  get_eq x hx y hy := by
    obtain ⟨hlt, hcolumn, hrow⟩ := raster_index hy hx
    rw [Nat.mul_comm plane.height] at hlt
    rw [← getD_toPacked plane hx hy]
    simp [get, transpose, ofPacked, window, Window.index, Relevance.transpose,
      Array.getD_eq_getD_getElem?, hlt, hcolumn, hrow]

end Plane

def RelevanceCorner.swap (c : RelevanceCorner) : RelevanceCorner :=
  ⟨c.y, c.x⟩

theorem RelevanceMesh.get_ofFn {blocksW blocksH x y : Nat} (hx : x ≤ blocksW) (hy : y ≤ blocksH)
    (f : Nat → Nat → RelevanceCorner) : (ofFn blocksW blocksH f).get x y = f x y := by
  obtain ⟨hlt, hcolumn, hrow⟩ := raster_index (Nat.lt_succ_of_le hx) (Nat.lt_succ_of_le hy)
  simp only [Nat.succ_eq_add_one] at hlt hcolumn hrow
  simp [get, place, ofFn, cornerCount, Array.getD_eq_getD_getElem?, hlt, hcolumn, hrow]

/-- A grid of a plane with the sides exchanged has the boundaries exchanged. -/
theorem BlockGrid.partition_swap {width height blocksW blocksH : Nat} {g : BlockGrid}
    (hg : partition width height blocksW blocksH = .ok g) :
    ∃ g', partition height width blocksH blocksW = .ok g' ∧
      g'.xBounds = g.yBounds ∧ g'.yBounds = g.xBounds := by
  obtain ⟨⟨hposW, hposH⟩, hbounds⟩ := partition_eq_ok_iff.mp hg
  obtain ⟨⟨hx, hy⟩, rfl⟩ := ofBounds_eq_ok_iff.mp hbounds
  exact ⟨_, partition_eq_ok_iff.mpr ⟨⟨hposH, hposW⟩, ofBounds_eq_ok_iff.mpr ⟨⟨hy, hx⟩, rfl⟩⟩,
    rfl, rfl⟩

namespace Machine.Activity

/-- The activity of a plane with rows and columns exchanged. -/
def swap (a : Activity) : Activity :=
  ⟨a.height, a.width, a.down, a.across⟩

/-- A rectangle turned over has the relevance of the rectangle, with the directions exchanged. -/
theorem plainCorner_swap (a : Activity) (left right top bottom : Nat) :
    a.swap.plainCorner top bottom left right = (a.plainCorner left right top bottom).swap := by
  have hacross : sumRange left right (a.swap.sumAcross top bottom) =
      sumRange top bottom (a.sumDown left right) :=
    sumRange_comm left right top bottom fun y x =>
      Relevance.magnitudeAt a.down (x * a.height + y)
  have hdown : sumRange left right (a.swap.sumDown top bottom) =
      sumRange top bottom (a.sumAcross left right) :=
    sumRange_comm left right top bottom fun y x =>
      Relevance.magnitudeAt a.across (y * a.width + x)
  simp only [plainCorner, hacross, hdown, RelevanceCorner.swap, Nat.mul_comm (right - left)]

/-- The corner of a grid with the boundaries exchanged. -/
theorem cornerAt_swap (a : Activity) {g g' : BlockGrid} (hx : g'.xBounds = g.yBounds)
    (hy : g'.yBounds = g.xBounds) (halfW halfH cx cy : Nat) :
    a.swap.cornerAt g' halfH halfW cy cx = (a.cornerAt g halfW halfH cx cy).swap := by
  simp only [cornerAt, hx, hy]
  exact a.plainCorner_swap _ _ _ _

end Machine.Activity

namespace Relevance

/-- The hops along the rows of a transposed plane are those along the columns of the plane. -/
theorem activityOf_transposes (p : Predictor) {turned plane : Plane}
    (h : turned.Transposes plane) :
    Machine.Forecast.activityOf p turned = (Machine.Forecast.activityOf p plane).swap := by
  have hplane := h.symm.toPacked_eq
  rw [h.width_eq, h.height_eq] at hplane
  simp only [Machine.Forecast.activityOf, Machine.Activity.swap, h.width_eq, h.height_eq,
    ← hplane, ← h.toPacked_eq]

/-- The corner of a mesh, from the hops along the rows and columns of the plane. -/
theorem get_estimate (p : Predictor) (plane : Plane) {g : BlockGrid} {cx cy : Nat}
    (hx : cx ≤ g.blocksW) (hy : cy ≤ g.blocksH) :
    (estimate p plane g).get cx cy =
      (Machine.Forecast.activityOf p plane).cornerAt g (plane.width / g.blocksW / 2)
        (plane.height / g.blocksH / 2) cx cy :=
  RelevanceMesh.get_ofFn hx hy _

end Relevance

/-- Estimating on the machine fails only if there is no room for a packed copy of the plane. -/
theorem Machine.Forecast.estimate_eq_lift {p : Predictor} (hratio : RatioCovered p.ratio)
    {plane : Plane} (hdata : plane.data.size < wordSize) {blocksW blocksH : Nat} {g : BlockGrid}
    (hg : BlockGrid.partition plane.width plane.height blocksW blocksH = .ok g) :
    (ofPredictor p).estimate (.ofPlane plane) g =
      lift (do reserve (plane.width * plane.height); return Relevance.estimate p plane g) := by
  have hcut := BlockGrid.tiles_partition hg
  obtain ⟨⟨hposW, hposH⟩, -⟩ := BlockGrid.partition_eq_ok_iff.mp hg
  obtain ⟨hblocksW, hblocksH⟩ := BlockGrid.blocks_partition hg
  rw [← hblocksW] at hposW
  rw [← hblocksH] at hposH
  have hposX := Nat.lt_of_lt_of_le hposW hcut.xCuts.count_le
  have hposY := Nat.lt_of_lt_of_le hposH hcut.yCuts.count_le
  have hword := Nat.lt_of_le_of_lt plane.area_le_size hdata
  obtain hroom | hfull := Nat.lt_or_ge (plane.width * plane.height) allocationLimit
  · rw [estimate_eq hratio hposX hposY hroom hdata hcut hposW hposH, reserve_of_lt hroom]
    rfl
  · rw [estimate, activity, Canvas.ofPlane, mul_eq hword, ok_bind, allocate_of_le hfull,
      reserve_of_le hfull]
    rfl

namespace Relevance

open Machine (RatioCovered wordSize lift)

/-- Estimating commutes with transposing.  The mesh of a transposed plane, on the grid with the
counts exchanged, has the corners of the mesh mirrored, with the directions of each exchanged. -/
theorem estimate_transpose (p : Predictor) {plane turned : Plane} (h : turned.Transposes plane)
    {blocksW blocksH : Nat} {g : BlockGrid}
    (hg : BlockGrid.partition plane.width plane.height blocksW blocksH = .ok g) :
    ∃ g', BlockGrid.partition turned.width turned.height blocksH blocksW = .ok g' ∧
      let mesh := estimate p plane g
      let mesh' := estimate p turned g'
      (mesh.blocksW = blocksW ∧ mesh.blocksH = blocksH) ∧
      (mesh'.blocksW = blocksH ∧ mesh'.blocksH = blocksW) ∧
      (∀ a ≤ blocksH, ∀ b ≤ blocksW, mesh'.get a b = (mesh.get b a).swap) ∧
      (RatioCovered p.ratio → plane.data.size < wordSize → turned.data.size < wordSize →
        (Machine.Forecast.ofPredictor p).estimate (.ofPlane plane) g =
          lift (do reserve (plane.width * plane.height); return mesh) ∧
        (Machine.Forecast.ofPredictor p).estimate (.ofPlane turned) g' =
          lift (do reserve (plane.width * plane.height); return mesh')) := by
  obtain ⟨g', hg', hx, hy⟩ := BlockGrid.partition_swap hg
  obtain ⟨rfl, rfl⟩ := BlockGrid.blocks_partition hg
  obtain ⟨hblocksW, hblocksH⟩ := BlockGrid.blocks_partition hg'
  rw [← h.width_eq, ← h.height_eq] at hg'
  refine ⟨g', hg', ⟨rfl, rfl⟩, ⟨hblocksW, hblocksH⟩, fun a ha b hb => ?_,
    fun hratio hdata hdata' => ⟨?_, ?_⟩⟩
  · have hmirrored := get_estimate p turned (hblocksW ▸ ha) (hblocksH ▸ hb)
    rw [activityOf_transposes p h, hblocksW, hblocksH, h.width_eq, h.height_eq,
      Machine.Activity.cornerAt_swap _ hx hy, ← get_estimate p plane hb ha] at hmirrored
    exact hmirrored
  · exact Machine.Forecast.estimate_eq_lift hratio hdata hg
  · have hmachine := Machine.Forecast.estimate_eq_lift hratio hdata' hg'
    rw [h.width_eq, h.height_eq, Nat.mul_comm] at hmachine
    exact hmachine

/-- A strided plane of three rows and two columns, and its packed transpose: the corner behind the
first row on the right edge becomes the corner behind the first column on the bottom edge. -/
theorem estimate_transpose_threeRows :
    let plane : Plane := ⟨2, 3, 3, #[100, 110, 0, 100, 110, 0, 100, 110], by decide,
      .inr (by decide)⟩
    let turned := plane.transpose
    let p : Predictor := ⟨Model.standard.tables, 30, .average⟩
    turned.data = #[100, 100, 100, 110, 110, 110] ∧
    ∃ g g', BlockGrid.partition 2 3 1 2 = .ok g ∧ BlockGrid.partition 3 2 2 1 = .ok g' ∧
      (g.xBounds, g.yBounds) = (#[0, 2], #[0, 1, 3]) ∧
      (estimate p turned g').get 1 1 = ((estimate p plane g).get 1 1).swap ∧
      (Machine.Forecast.ofPredictor p).estimate (.ofPlane turned) g' =
        .ok (estimate p turned g') := by
  intro plane turned p
  have hturned : turned.Transposes plane := plane.transposes_transpose
  have hdata : turned.data = #[100, 100, 100, 110, 110, 110] := by decide
  obtain ⟨g, hg⟩ : ∃ g, BlockGrid.partition 2 3 1 2 = .ok g := ⟨_, rfl⟩
  have hbounds : ((BlockGrid.partition 2 3 1 2).toOption.map
      fun g => (g.xBounds, g.yBounds)) = some (#[0, 2], #[0, 1, 3]) := by
    decide
  rw [hg] at hbounds
  obtain ⟨g', hg', -, -, hcorners, hmachine⟩ := estimate_transpose p hturned hg
  exact ⟨hdata, g, g', hg, hg', Option.some.inj hbounds, hcorners 1 (by decide) 1 (by decide),
    (hmachine ⟨by decide, by decide⟩ (by decide) (by rw [hdata]; decide)).2⟩

end Relevance

end HopCodec
