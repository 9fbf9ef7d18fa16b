/-
Estimating relevance on the machine.  The surroundings of a corner lie in the plane, so every hop
that is summed up is one of the scan's, and the sums stay far below a word.
-/
import HopCodec.Machine.Estimate
import HopCodec.Proofs.Machine.Block
import HopCodec.Proofs.Machine.Shape

namespace HopCodec

/-- The surroundings of a centre are a part of the side, and not an empty one. -/
theorem Relevance.surroundings_lt (centre half : Nat) {len : Nat} (hlen : 0 < len) :
    (surroundings centre half len).1 < (surroundings centre half len).2 ∧
      (surroundings centre half len).2 ≤ len := by
  simp only [surroundings]
  omega

theorem Hop.magnitude_le (h : Hop) : h.magnitude ≤ 4 := by
  cases h <;> decide

namespace Machine

theorem surroundings_eq {centre half len : Nat} (hcentre : centre ≤ len) (hhalf : half ≤ len)
    (hlen : len < allocationLimit) (hpos : 0 < len) :
    surroundings centre half len = .ok (Relevance.surroundings centre half len) := by
  have hword : allocationLimit * 4 < wordSize := by decide
  rw [surroundings, sub_eq hpos, ok_bind, add_eq (by omega), ok_bind, add_eq (by omega)]
  rfl

/-- Adding up two rows of numbers at once. -/
theorem loop_add_pair {f g : Nat → Nat} {n : Nat} {step : Nat → Nat × Nat → Run (Nat × Nat)}
    {s : Nat × Nat}
    (hstep : ∀ i, i < n → ∀ t, t.1 + f i ≤ s.1 + ((List.range n).map f).sum →
      t.2 + g i ≤ s.2 + ((List.range n).map g).sum → step i t = .ok (t.1 + f i, t.2 + g i)) :
    loop step n s = .ok (s.1 + ((List.range n).map f).sum, s.2 + ((List.range n).map g).sum) := by
  induction n with
  | zero => rfl
  | succ n ih =>
      have hsum (h : Nat → Nat) : ((List.range (n + 1)).map h).sum =
          ((List.range n).map h).sum + h n := by
        rw [List.range_succ, List.map_append, List.sum_append]
        simp
      have hbefore := ih fun i hi t hfirst hsecond => by
        refine hstep i (Nat.lt_succ_of_lt hi) t ?_ ?_
        · rw [hsum]
          omega
        · rw [hsum]
          omega
      rw [loop_succ, hbefore, ok_bind, hsum, hsum, ← Nat.add_assoc, ← Nat.add_assoc]
      refine hstep n (Nat.lt_succ_self n) _ ?_ ?_
      · rw [hsum, Nat.add_assoc]
      · rw [hsum, Nat.add_assoc]

section Transpose

/-- The raster index of the pixel that comes to lie at place `q` of a transpose. -/
def sourceOf (width height q : Nat) : Nat :=
  q % height * width + q / height

/-- A transpose after its first `n` pixels are in their places. -/
def turnedTo (width height : Nat) (pixels : Bytes) (n : Nat) : Bytes :=
  Array.ofFn fun q : Fin (width * height) =>
    if sourceOf width height q < n then pixels.getD (sourceOf width height q) 0 else 0

variable {width height : Nat}

theorem sourceOf_place {x y : Nat} (hy : y < height) :
    sourceOf width height (x * height + y) = y * width + x := by
  have hpos : 0 < height := Nat.zero_lt_of_lt hy
  rw [sourceOf, Nat.mul_add_mod', Nat.mod_eq_of_lt hy, Nat.mul_comm x height,
    Nat.mul_add_div hpos, Nat.div_eq_of_lt hy, Nat.add_zero]

/-- No two places of a transpose take the same pixel. -/
theorem sourceOf_inj {q r : Nat} (hq : q < width * height) (hr : r < width * height)
    (h : sourceOf width height q = sourceOf width height r) : q = r := by
  have hq' : q / height < width := Nat.div_lt_of_lt_mul (by rwa [Nat.mul_comm])
  have hr' : r / height < width := Nat.div_lt_of_lt_mul (by rwa [Nat.mul_comm])
  obtain ⟨hdiv, hmod⟩ := Window.index_inj (w := ⟨width, height, width⟩) hq' hr' h
  rw [← Nat.div_add_mod' q height, ← Nat.div_add_mod' r height, hdiv, hmod]

theorem turnedTo_zero (pixels : Bytes) :
    turnedTo width height pixels 0 = Array.replicate (width * height) 0 := by
  apply Array.ext
  · simp [turnedTo]
  · intro q hq _
    simp [turnedTo]

theorem turnedTo_all (pixels : Bytes) :
    turnedTo width height pixels (height * width) =
      Relevance.transpose width height pixels := by
  apply Array.ext
  · simp [turnedTo, Relevance.transpose]
  · intro q hq _
    have hlt : q < height * width := by
      rw [turnedTo, Array.size_ofFn, Nat.mul_comm] at hq
      exact hq
    have hsource : sourceOf width height q < height * width := by
      have hrow := BlockGrid.mod_lt_of_lt_mul hlt
      have hcolumn := BlockGrid.div_lt_of_lt_mul hlt
      have hrows : (q % height + 1) * width ≤ height * width := Nat.mul_le_mul_right width hrow
      rw [Nat.succ_mul] at hrows
      rw [sourceOf]
      omega
    simp only [turnedTo, Relevance.transpose, Array.getElem_ofFn, if_pos hsource]
    rfl

theorem turnedTo_succ (pixels : Bytes) {x y : Nat} (hx : x < width) (hy : y < height) :
    (turnedTo width height pixels (y * width + x)).setIfInBounds (x * height + y)
        (pixels.getD (y * width + x) 0) =
      turnedTo width height pixels (y * width + x + 1) := by
  have hplace : x * height + y < width * height := by
    have hrows : (x + 1) * height ≤ width * height := Nat.mul_le_mul_right height hx
    rw [Nat.succ_mul] at hrows
    omega
  apply Array.ext
  · simp [turnedTo]
  · intro q hq _
    have hlt : q < width * height := by
      rw [Array.size_setIfInBounds, turnedTo, Array.size_ofFn] at hq
      exact hq
    rw [Array.getElem_setIfInBounds (by rw [turnedTo, Array.size_ofFn]; exact hlt)]
    simp only [turnedTo, Array.getElem_ofFn]
    by_cases hsame : x * height + y = q
    · have hnext : sourceOf width height q < y * width + x + 1 := by
        rw [← hsame, sourceOf_place hy]
        exact Nat.lt_succ_self _
      rw [if_pos hsame, if_pos hnext, ← hsame, sourceOf_place hy]
    · have hne : sourceOf width height q ≠ y * width + x := by
        intro heq
        rw [← sourceOf_place hy] at heq
        exact hsame (sourceOf_inj hplace hlt heq.symm)
      have hiff : sourceOf width height q < y * width + x ↔
          sourceOf width height q < y * width + x + 1 := by
        omega
      rw [if_neg hsame]
      simp only [hiff]

variable {plane : Plane} (hroom : plane.width * plane.height < allocationLimit)
  (hdata : plane.data.size < wordSize)

include hroom hdata

theorem transposePixel_eq {x y : Nat} (hx : x < plane.width) (hy : y < plane.height) :
    transposePixel (.ofPlane plane) x y
        (turnedTo plane.width plane.height plane.toPacked (y * plane.width + x)) =
      .ok (turnedTo plane.width plane.height plane.toPacked (y * plane.width + x + 1)) := by
  have hword : allocationLimit < wordSize := by decide
  have hindex := plane.index_lt_size hx hy
  have hrows : (y + 1) * plane.width ≤ plane.height * plane.width :=
    Nat.mul_le_mul_right plane.width hy
  have hcolumns : (x + 1) * plane.height ≤ plane.width * plane.height :=
    Nat.mul_le_mul_right plane.height hx
  rw [Nat.succ_mul] at hrows hcolumns
  rw [Nat.mul_comm plane.height] at hrows
  have hpixel : plane.toPacked.getD (y * plane.width + x) 0 =
      plane.data.getD (y * plane.stride + x) 0 := by
    have hlt : y * plane.width + x < plane.window.area := by
      change _ < plane.width * plane.height
      omega
    rw [Plane.toPacked, Window.getD_gather _ _ _ hlt, Nat.zero_add]
    exact congrArg (plane.data.getD · 0) (plane.window.place_index hx y)
  have hset := turnedTo_succ plane.toPacked hx hy
  rw [hpixel] at hset
  simp only [Plane.window, Window.index] at hindex
  simp only [transposePixel, Canvas.ofPlane]
  rw [mul_eq (by omega), ok_bind, add_eq (by omega), ok_bind, fetch_eq_getD hindex 0, ok_bind,
    mul_eq (by omega), ok_bind, add_eq (by omega), ok_bind,
    store_eq (by rw [turnedTo, Array.size_ofFn]; omega), hset]

/-- Every pixel of a plane comes to its place in the transpose. -/
theorem transpose_eq :
    transpose (.ofPlane plane) (Array.replicate (plane.width * plane.height) 0) =
      .ok (Relevance.transpose plane.width plane.height plane.toPacked) := by
  have hloop : loop (fun i => transposePixel (.ofPlane plane) (i % plane.width) (i / plane.width))
      (plane.height * plane.width) (turnedTo plane.width plane.height plane.toPacked 0) =
        .ok (turnedTo plane.width plane.height plane.toPacked (plane.height * plane.width)) := by
    refine loop_eq fun i hi => ?_
    rw [Nat.mul_comm] at hi
    have hstep := transposePixel_eq hroom hdata (BlockGrid.mod_lt_of_lt_mul hi)
      (BlockGrid.div_lt_of_lt_mul hi)
    rwa [Nat.div_add_mod'] at hstep
  rw [turnedTo_zero, turnedTo_all] at hloop
  rw [transpose, loop_grid fun x y => transposePixel (.ofPlane plane) x y]
  exact hloop

end Transpose

namespace Activity

/-- Both scans took a hop for every pixel of a plane, and there is room for a plane of its size. -/
structure Complete (a : Activity) : Prop where
  width_pos : 0 < a.width
  height_pos : 0 < a.height
  room : a.width * a.height < allocationLimit
  across : a.across.size = a.width * a.height
  down : a.down.size = a.width * a.height

/-- The sum of the magnitudes along rows, or along columns, of the pixels of a rectangle. -/
def sumAcross (a : Activity) (left right y : Nat) : Nat :=
  sumRange left right fun x => Relevance.magnitudeAt a.across (y * a.width + x)

def sumDown (a : Activity) (left right y : Nat) : Nat :=
  sumRange left right fun x => Relevance.magnitudeAt a.down (x * a.height + y)

variable {a : Activity} (ha : a.Complete)

theorem magnitudeAt_le (hops : Array Hop) (i : Nat) : Relevance.magnitudeAt hops i ≤ 4 :=
  Hop.magnitude_le _

theorem row_le (a : Activity) (left right y : Nat) :
    a.sumAcross left right y ≤ (right - left) * 4 ∧ a.sumDown left right y ≤ (right - left) * 4 := by
  rw [sumAcross, sumDown, sumRange_eq_sum, sumRange_eq_sum]
  exact ⟨sum_range_le _ fun i _ => magnitudeAt_le a.across _,
    sum_range_le _ fun i _ => magnitudeAt_le a.down _⟩

include ha

theorem Complete.sides_lt : a.width < allocationLimit ∧ a.height < allocationLimit :=
  ⟨Nat.lt_of_le_of_lt (Nat.le_mul_of_pos_right _ ha.height_pos) ha.room,
    Nat.lt_of_le_of_lt (Nat.le_mul_of_pos_left _ ha.width_pos) ha.room⟩

theorem addPixel_eq {x y : Nat} (hx : x < a.width) (hy : y < a.height) {sums : Nat × Nat}
    (hfirst : sums.1 + Relevance.magnitudeAt a.across (y * a.width + x) < wordSize)
    (hsecond : sums.2 + Relevance.magnitudeAt a.down (x * a.height + y) < wordSize) :
    a.addPixel x y sums = .ok (sums.1 + Relevance.magnitudeAt a.across (y * a.width + x),
      sums.2 + Relevance.magnitudeAt a.down (x * a.height + y)) := by
  have hword : allocationLimit < wordSize := by decide
  have harea := ha.room
  have hrows : (y + 1) * a.width ≤ a.height * a.width := Nat.mul_le_mul_right a.width hy
  have hcolumns : (x + 1) * a.height ≤ a.width * a.height := Nat.mul_le_mul_right a.height hx
  rw [Nat.succ_mul] at hrows hcolumns
  rw [Nat.mul_comm a.height] at hrows
  have hacross : y * a.width + x < a.across.size := by
    rw [ha.across]
    omega
  have hdown : x * a.height + y < a.down.size := by
    rw [ha.down]
    omega
  rw [Relevance.magnitudeAt] at *
  rw [addPixel, mul_eq (by omega), ok_bind, add_eq (by omega), ok_bind,
    fetch_eq_getD hacross Hop.null, ok_bind, add_eq hfirst, ok_bind, mul_eq (by omega), ok_bind,
    add_eq (by omega), ok_bind, fetch_eq_getD hdown Hop.null, ok_bind, add_eq hsecond]
  rfl

theorem row_eq {left right y : Nat} (hright : right ≤ a.width) (hy : y < a.height)
    {sums : Nat × Nat} (hfirst : sums.1 + a.sumAcross left right y < wordSize)
    (hsecond : sums.2 + a.sumDown left right y < wordSize) :
    loop (fun i => a.addPixel (left + i) y) (right - left) sums =
      .ok (sums.1 + a.sumAcross left right y, sums.2 + a.sumDown left right y) := by
  rw [sumAcross, sumRange_eq_sum] at *
  rw [sumDown, sumRange_eq_sum] at *
  refine loop_add_pair fun i hi t hacross hdown => ?_
  exact addPixel_eq ha (by omega) hy (Nat.lt_of_le_of_lt hacross hfirst)
    (Nat.lt_of_le_of_lt hdown hsecond)

def plainCorner (a : Activity) (left right top bottom : Nat) : RelevanceCorner :=
  let n := (bottom - top) * (right - left)
  ⟨Relevance.ofActivity (sumRange top bottom (a.sumAcross left right)) n,
    Relevance.ofActivity (sumRange top bottom (a.sumDown left right)) n⟩

theorem corner_eq {left right top bottom : Nat} (hlr : left < right) (hright : right ≤ a.width)
    (htb : top < bottom) (hbottom : bottom ≤ a.height) :
    a.corner left right top bottom = .ok (a.plainCorner left right top bottom) := by
  have hword : allocationLimit * 4 < wordSize := by decide
  have hcount : (bottom - top) * (right - left) < allocationLimit := by
    have hle : (bottom - top) * (right - left) ≤ a.height * a.width :=
      Nat.mul_le_mul (Nat.le_trans (Nat.sub_le _ _) hbottom) (Nat.le_trans (Nat.sub_le _ _) hright)
    rw [Nat.mul_comm a.height] at hle
    exact Nat.lt_of_le_of_lt hle ha.room
  have hacross := sum_range_le (bottom - top) fun j (_ : j < bottom - top) =>
    (a.row_le left right (top + j)).1
  have hdown := sum_range_le (bottom - top) fun j (_ : j < bottom - top) =>
    (a.row_le left right (top + j)).2
  rw [← Nat.mul_assoc] at hacross hdown
  have hloop : loop (fun j => loop (fun i => a.addPixel (left + i) (top + j)) (right - left))
      (bottom - top) (0, 0) = .ok (sumRange top bottom (a.sumAcross left right),
        sumRange top bottom (a.sumDown left right)) := by
    rw [sumRange_eq_sum, sumRange_eq_sum]
    have hpair := loop_add_pair (s := (0, 0)) (n := bottom - top)
      (f := fun j => a.sumAcross left right (top + j))
      (g := fun j => a.sumDown left right (top + j)) fun j hj t hfirst hsecond =>
        row_eq ha hright (Nat.lt_of_lt_of_le (Nat.add_lt_of_lt_sub' hj) hbottom)
          (by omega) (by omega)
    simpa using hpair
  rw [corner, hloop, ok_bind, sub_eq (Nat.le_of_lt htb), ok_bind, sub_eq (Nat.le_of_lt hlr),
    ok_bind, mul_eq (by omega)]
  rfl

section Mesh

variable {g : BlockGrid} (hg : g.Tiles a.width a.height) {halfW : Nat}

def cornerAt (a : Activity) (g : BlockGrid) (halfW halfH cx cy : Nat) : RelevanceCorner :=
  let columns := Relevance.surroundings (g.xBounds.getD cx 0) halfW a.width
  let rows := Relevance.surroundings (g.yBounds.getD cy 0) halfH a.height
  a.plainCorner columns.1 columns.2 rows.1 rows.2

include hg

/-- There are not many more corners than pixels. -/
theorem cornerCount_lt : RelevanceMesh.cornerCount g.blocksW g.blocksH < wordSize := by
  have hword : allocationLimit * 4 < wordSize := by decide
  have hroom := ha.room
  have hW : g.blocksW + 1 ≤ 2 * a.width := by
    have hle := hg.xCuts.count_le
    have hpos := ha.width_pos
    omega
  have hH : g.blocksH + 1 ≤ 2 * a.height := by
    have hle := hg.yCuts.count_le
    have hpos := ha.height_pos
    omega
  calc RelevanceMesh.cornerCount g.blocksW g.blocksH ≤ 2 * a.width * (2 * a.height) :=
        Nat.mul_le_mul hW hH
    _ = a.width * a.height * 4 := by rw [Nat.mul_mul_mul_comm, Nat.mul_comm]
    _ < wordSize := by omega

theorem setCorner_eq (halfH : Nat) (hhalfW : halfW ≤ a.width) {cx cy : Nat}
    (hx : cx < g.blocksW + 1) (hy : cy < g.blocksH + 1)
    {corners : Array RelevanceCorner}
    (hcorners : corners.size = RelevanceMesh.cornerCount g.blocksW g.blocksH) :
    a.setCorner g halfW (Relevance.surroundings (g.yBounds.getD cy 0) halfH a.height) cx cy
        corners =
      .ok (corners.setIfInBounds (cy * (g.blocksW + 1) + cx)
        (a.cornerAt g halfW halfH cx cy)) := by
  have hcount := cornerCount_lt ha hg
  have hrow : (cy + 1) * (g.blocksW + 1) ≤ (g.blocksH + 1) * (g.blocksW + 1) :=
    Nat.mul_le_mul_right _ hy
  rw [Nat.mul_comm (g.blocksH + 1), Nat.succ_mul] at hrow
  rw [RelevanceMesh.cornerCount] at hcount
  have hplace : cy * (g.blocksW + 1) + cx < corners.size := by
    rw [hcorners, RelevanceMesh.cornerCount]
    omega
  have hcentre := hg.xCuts.le_len (Nat.le_of_lt_succ hx)
  obtain ⟨hlr, hright⟩ := Relevance.surroundings_lt (g.xBounds.getD cx 0) halfW ha.width_pos
  obtain ⟨htb, hbottom⟩ := Relevance.surroundings_lt (g.yBounds.getD cy 0) halfH ha.height_pos
  rw [setCorner, fetch_eq_getD (by rw [hg.xCuts.size]; exact hx) 0, ok_bind,
    surroundings_eq hcentre hhalfW ha.sides_lt.1 ha.width_pos, ok_bind,
    corner_eq ha hlr hright htb hbottom,
    ok_bind, add_eq (by omega), ok_bind, mul_eq (by omega), ok_bind, add_eq (by omega), ok_bind,
    store_eq hplace]
  rfl

theorem mesh_eq (hposW : 0 < g.blocksW) (hposH : 0 < g.blocksH) :
    a.mesh g = .ok (RelevanceMesh.ofFn g.blocksW g.blocksH
      (a.cornerAt g (a.width / g.blocksW / 2) (a.height / g.blocksH / 2))) := by
  let halfW := a.width / g.blocksW / 2
  let halfH := a.height / g.blocksH / 2
  have hhalfW : halfW ≤ a.width := Nat.le_trans (Nat.div_le_self _ _) (Nat.div_le_self _ _)
  have hhalfH : halfH ≤ a.height := Nat.le_trans (Nat.div_le_self _ _) (Nat.div_le_self _ _)
  let blank : Array RelevanceCorner :=
    Array.replicate (RelevanceMesh.cornerCount g.blocksW g.blocksH) (.uniform .zero)
  have hblank : blank.size = (g.blocksH + 1) * (g.blocksW + 1) := by
    rw [Array.size_replicate, RelevanceMesh.cornerCount, Nat.mul_comm]
  have hloop : loop (a.setCorners g halfW halfH) (g.blocksH + 1) blank =
      .ok (blank.mapIdx fun i _ =>
        a.cornerAt g halfW halfH (i % (g.blocksW + 1)) (i / (g.blocksW + 1))) := by
    refine loop_rows
      (f := fun cx cy => a.setCorner g halfW
        (Relevance.surroundings (g.yBounds.getD cy 0) halfH a.height) cx cy)
      (g := fun i _ => a.cornerAt g halfW halfH (i % (g.blocksW + 1)) (i / (g.blocksW + 1)))
      hblank (fun cy hcy s _ => ?_) fun i hi s hs _ => ?_
    · have hcentre := hg.yCuts.le_len (Nat.le_of_lt_succ hcy)
      rw [setCorners, fetch_eq_getD (by rw [hg.yCuts.size]; exact hcy) 0, ok_bind,
        surroundings_eq hcentre hhalfH ha.sides_lt.2 ha.height_pos, ok_bind, hg.xCuts.size]
    · rw [hblank, Nat.mul_comm] at hi
      have hplace : i / (g.blocksW + 1) * (g.blocksW + 1) + i % (g.blocksW + 1) = i :=
        Nat.div_add_mod' i (g.blocksW + 1)
      have hset := setCorner_eq ha hg halfH hhalfW
        (BlockGrid.mod_lt_of_lt_mul hi) (BlockGrid.div_lt_of_lt_mul hi)
        (hs.trans Array.size_replicate)
      rwa [hplace] at hset
  rw [mesh, div_eq hposW, ok_bind, div_eq hposH, ok_bind,
    Mesh.cornerCount_eq_of_lt (cornerCount_lt ha hg), ok_bind,
    hg.yCuts.size, hloop, ok_bind]
  refine congrArg Except.ok ?_
  simp only [RelevanceMesh.ofRaster, RelevanceMesh.ofFn, RelevanceMesh.mk.injEq, true_and]
  apply Array.ext
  · simp
  · intro i hi _
    have hi' : i < blank.size := by
      rw [Array.size_ofFn] at hi
      rw [Array.size_replicate]
      exact hi
    have hplace : i / (g.blocksW + 1) * (g.blocksW + 1) + i % (g.blocksW + 1) = i :=
      Nat.div_add_mod' i (g.blocksW + 1)
    simp [Array.getD_eq_getD_getElem?, hplace, hi', halfW, halfH]

end Mesh

end Activity

namespace Forecast

variable {p : Predictor} {plane : Plane}

def activityOf (p : Predictor) (plane : Plane) : Activity where
  width := plane.width
  height := plane.height
  across := (p.encodeBlock plane.width plane.height plane.toPacked).hops
  down := (p.encodeBlock plane.height plane.width
    (Relevance.transpose plane.width plane.height plane.toPacked)).hops

theorem complete_activityOf (p : Predictor) (hposX : 0 < plane.width) (hposY : 0 < plane.height)
    (hroom : plane.width * plane.height < allocationLimit) : (activityOf p plane).Complete where
  width_pos := hposX
  height_pos := hposY
  room := hroom
  across := Predictor.size_hops_scan p plane.width _ _ _
  down := (Predictor.size_hops_scan p plane.height _ _ _).trans (Nat.mul_comm _ _)

variable (hratio : RatioCovered p.ratio) (hposX : 0 < plane.width) (hposY : 0 < plane.height)
  (hroom : plane.width * plane.height < allocationLimit) (hdata : plane.data.size < wordSize)

include hratio hposX hposY hroom hdata

theorem activity_eq : (ofPredictor p).activity (.ofPlane plane) = .ok (activityOf p plane) := by
  have hword : allocationLimit < wordSize := by decide
  have hroom' : plane.height * plane.width < allocationLimit := by rwa [Nat.mul_comm]
  let turned := Relevance.transpose plane.width plane.height plane.toPacked
  let scan := p.encodeBlock plane.width plane.height plane.toPacked
  have hacross : (ofPredictor p).encode ⟨plane.width, plane.height, plane.stride⟩ plane.data
      (.packed plane.width plane.height) (Array.replicate (plane.width * plane.height) 0) =
        .ok (.ofScan scan) :=
    encode_packed hratio hposX hposY hroom hdata
      ⟨plane.width_le_stride, plane.row_le_size (Nat.sub_lt hposY Nat.one_pos)⟩
      Array.size_replicate
  have hturned : turned.size = plane.height * plane.width := by
    rw [Nat.mul_comm]
    exact Array.size_ofFn
  have hscan : (Scanning.ofScan scan).pixels.size = plane.height * plane.width := by
    rw [Nat.mul_comm]
    simp [Scanning.ofScan, scan, Predictor.encodeBlock, Scan.values]
  have hdown : (ofPredictor p).encode (.packed plane.height plane.width) turned
      (.packed plane.height plane.width) (Scanning.ofScan scan).pixels =
        .ok (.ofScan (p.encodeBlock plane.height plane.width turned)) := by
    have hcode := encode_packed hratio hposY hposX hroom'
      (hturned ▸ Nat.lt_trans hroom' hword) (fits_packed hposX hturned) hscan
    rw [← Window.packed, Window.gather_packed hturned] at hcode
    exact hcode
  have hturn := transpose_eq hroom hdata
  simp only [activity, Canvas.ofPlane] at hturn ⊢
  rw [mul_eq (Nat.lt_trans hroom hword), ok_bind, allocate_eq hroom, ok_bind, hacross, ok_bind,
    ok_bind, allocate_eq hroom, ok_bind, hturn, ok_bind, hdown]
  rfl

/-- Estimating the relevance of a luma plane. -/
theorem estimate_eq {g : BlockGrid} (hg : g.Tiles plane.width plane.height)
    (hposW : 0 < g.blocksW) (hposH : 0 < g.blocksH) :
    (ofPredictor p).estimate (.ofPlane plane) g = .ok (Relevance.estimate p plane g) := by
  rw [estimate, activity_eq hratio hposX hposY hroom hdata, ok_bind,
    Activity.mesh_eq (complete_activityOf p hposX hposY hroom) hg hposW hposH]
  rfl

end Forecast

end Machine

end HopCodec
