/-
Down- and upsampling within range.  What the machine keeps of a cell lies between the pixels of the
cell, and what it puts into a block lies between the samples.  An axis of full resolution is left as
it is: there upsampling mixes no samples.
-/
import HopCodec.Proofs.Block.Resample
import HopCodec.Proofs.Machine.Cells

namespace HopCodec

namespace BlockCells

variable {c : BlockCells} {width height columns rows : Nat}

/-- The mean of a cell lies between the pixels of the cell. -/
theorem between_cellMean {src : Bytes} {stride left right top bottom : Nat} (hwide : left < right)
    (hhigh : top < bottom) :
    Between {v | ∃ x y, ((left ≤ x ∧ x < right) ∧ top ≤ y ∧ y < bottom) ∧
      src.getD (y * stride + x) 0 = v} (cellMean src stride left right top bottom) := by
  refine between_of_bounds
    ⟨_, left, top, ⟨⟨Nat.le_refl _, hwide⟩, Nat.le_refl _, hhigh⟩, rfl⟩ fun lo hi h => ?_
  exact cellMean_within hwide hhigh fun x hx hx' y hy hy' =>
    h _ ⟨x, y, ⟨⟨hx, hx'⟩, hy, hy'⟩, rfl⟩

/-- Every pixel lies between the samples. -/
theorem between_upsample (hcutX : Cuts c.x.toArray width columns)
    (hcutY : Cuts c.y.toArray height rows) (hwidth : width < 2 ^ 16) (hheight : height < 2 ^ 16)
    {samples : Bytes} (hsize : samples.size = columns * rows) {v : UInt8}
    (hv : v ∈ c.upsample samples) : Between {s | s ∈ samples} v := by
  obtain ⟨x, hx, y, hy, rfl⟩ := exists_of_mem_upsample hcutX hcutY hv
  have hmem (i : Nat) (hi : i < columns) (j : Nat) (hj : j < rows) :
      samples.getD (j * columns + i) 0 ∈ samples := by
    have hlt : j * columns + i < samples.size := hsize ▸ (raster_index hi hj).1
    simp [Array.getD_eq_getD_getElem?, hlt]
  obtain ⟨column, hcolumn, -⟩ := hcutX.exists_piece hx
  obtain ⟨row, hrow, -⟩ := hcutY.exists_piece hy
  refine between_of_bounds ⟨_, hmem column hcolumn row hrow⟩ fun least greatest h => ?_
  exact pixel_within hcutX hcutY hwidth hheight hx hy fun i hi j hj => h _ (hmem i hi j hj)

/-- Samples that agree on a column give pixels that do, if each column of pixels has its own. -/
theorem upsample_congr_column (hcutX : Cuts c.x.toArray width width)
    (hcutY : Cuts c.y.toArray height rows) (hwidth : width < 2 ^ 16) (hheight : height < 2 ^ 16)
    {samples samples' : Bytes} {x y : Nat} (hx : x < width) (hy : y < height)
    (h : ∀ j < rows, samples.getD (j * width + x) 0 = samples'.getD (j * width + x) 0) :
    (c.upsample samples)[y * width + x]? = (c.upsample samples')[y * width + x]? := by
  obtain ⟨hlower, hupper⟩ := Tap.along_lt hcutY hy
  have hsample (j : Nat) (hj : j < rows) : c.sampleAt samples x j = c.sampleAt samples' x j := by
    rw [sampleAt, sampleAt, columns_eq hcutX, h j hj]
  rw [getElem?_upsample hcutX hcutY samples hx hy, getElem?_upsample hcutX hcutY samples' hx hy,
    pixel_of_full_columns hcutX hcutY hwidth hheight hx hy,
    pixel_of_full_columns hcutX hcutY hwidth hheight hx hy]
  exact congrArg (fun value => some (Single.toPixel value))
    (Tap.blend_congr (hsample _ hlower) (hsample _ hupper))

/-- Samples that agree on a row give pixels that do, if each row of pixels has its own. -/
theorem upsample_congr_row (hcutX : Cuts c.x.toArray width columns)
    (hcutY : Cuts c.y.toArray height height) (hwidth : width < 2 ^ 16) (hheight : height < 2 ^ 16)
    {samples samples' : Bytes} {x y : Nat} (hx : x < width) (hy : y < height)
    (h : ∀ i < columns, samples.getD (y * columns + i) 0 = samples'.getD (y * columns + i) 0) :
    (c.upsample samples)[y * width + x]? = (c.upsample samples')[y * width + x]? := by
  obtain ⟨hlower, hupper⟩ := Tap.along_lt hcutX hx
  have hsample (i : Nat) (hi : i < columns) :
      c.sampleAt samples i y = c.sampleAt samples' i y := by
    rw [sampleAt, sampleAt, columns_eq hcutX, h i hi]
  rw [getElem?_upsample hcutX hcutY samples hx hy, getElem?_upsample hcutX hcutY samples' hx hy,
    pixel_of_full_rows hcutX hcutY hwidth hheight hx hy,
    pixel_of_full_rows hcutX hcutY hwidth hheight hx hy]
  exact congrArg (fun value => some (Single.toPixel value))
    (Tap.blend_congr (hsample _ hlower) (hsample _ hupper))

end BlockCells

namespace Machine

/-- The pixels of a buffer that a cell holds. -/
def Cells.pixels (c : Cells) (src : Bytes) (stride : Nat) (cell : Nat × Nat) : Set UInt8 :=
  {v | ∃ x y, c.Holds cell x y ∧ src.getD (y * stride + x) 0 = v}

/-- A cut into as many pieces as pixels. -/
theorem cuts_of_range {bounds : Array Nat} {len side : Nat} (h : Cuts bounds len side)
    (hrange : bounds = Array.range (len + 1)) : side = len := by
  have hsize := h.size
  rw [hrange, Array.size_range] at hsize
  omega

/-- Resampling stays within range and is exact along axes of full resolution.  For any cells that
cut the sides of a block, the machine takes means that lie between the pixels of their cells and
depend on nothing else; it stretches samples to pixels that lie between them, and writes nothing
else; and along an axis with a cell for each pixel, every column or row of pixels depends on its own
samples alone, so that with both axes full the samples come back as they are. -/
theorem resample_within {c : Cells} {width height columns rows : Nat}
    (hx : Cuts c.x width columns) (hy : Cuts c.y height rows) (hwidth : Modest width)
    (hheight : Modest height) :
    (∀ (src dst : Bytes) (stride : Nat), src.size < wordSize →
      (∀ y < height, y * stride + width ≤ src.size) → dst.size = columns * rows →
        downsample c src stride dst = .ok (c.plain.downsample src stride)) ∧
    (∀ (src : Bytes) (stride : Nat), ∀ i < columns, ∀ j < rows, ∃ mean,
      (c.plain.downsample src stride)[j * columns + i]? = some mean ∧
        Between (c.pixels src stride (i, j)) mean ∧
        ∀ (src' : Bytes) (stride' : Nat), (∀ x y, c.Holds (i, j) x y →
          src.getD (y * stride + x) 0 = src'.getD (y * stride' + x) 0) →
            (c.plain.downsample src' stride')[j * columns + i]? = some mean) ∧
    (∀ (samples dst : Bytes) (stride : Nat), samples.size = columns * rows → dst.size < wordSize →
      (∀ y < height, y * stride + width ≤ dst.size) →
        upsample c samples dst stride =
          .ok ((⟨width, height, stride⟩ : Window).scatter dst 0 (c.plain.upsample samples))) ∧
    (∀ samples : Bytes, samples.size = columns * rows →
      (c.plain.upsample samples).size = width * height ∧
        ∀ v ∈ c.plain.upsample samples, Between {s | s ∈ samples} v) ∧
    (c.x = Array.range (width + 1) → ∀ (samples samples' : Bytes), ∀ p < width,
      (∀ j < rows, samples.getD (j * width + p) 0 = samples'.getD (j * width + p) 0) →
        ∀ y < height, (c.plain.upsample samples)[y * width + p]? =
          (c.plain.upsample samples')[y * width + p]?) ∧
    (c.y = Array.range (height + 1) → ∀ (samples samples' : Bytes), ∀ q < height,
      (∀ i < columns, samples.getD (q * columns + i) 0 = samples'.getD (q * columns + i) 0) →
        ∀ x < width, (c.plain.upsample samples)[q * width + x]? =
          (c.plain.upsample samples')[q * width + x]?) ∧
    (c.x = Array.range (width + 1) → c.y = Array.range (height + 1) →
      ∀ samples : Bytes, samples.size = width * height → c.plain.upsample samples = samples) := by
  have hword : (0x8000 : Nat) < 2 ^ 16 := by decide
  have hwide : width < 2 ^ 16 := Nat.lt_of_le_of_lt hwidth hword
  have hhigh : height < 2 ^ 16 := Nat.lt_of_le_of_lt hheight hword
  refine ⟨?_, ?_, ?_, ?_, ?_, ?_, ?_⟩
  · intro src dst stride hsrc hfits hdst
    exact downsample_eq hx hy hwidth hheight hx.count_le hy.count_le hsrc hfits hdst
  · intro src stride i hi j hj
    have hmean (src : Bytes) (stride : Nat) : (c.plain.downsample src stride)[j * columns + i]? =
        some (HopCodec.cellMean src stride (c.x.getD i 0) (c.x.getD (i + 1) 0) (c.y.getD j 0)
          (c.y.getD (j + 1) 0)) := by
      have hsample := c.plain.getElem?_downsample src stride
        ((Cells.plain_columns hx).symm ▸ hi) ((Cells.plain_rows hy).symm ▸ hj)
      rw [Cells.plain_columns hx] at hsample
      simpa only [Cells.plain, ← getD_toArray] using hsample
    refine ⟨_, hmean src stride, BlockCells.between_cellMean (hx.rising i hi) (hy.rising j hj), ?_⟩
    intro src' stride' hsame
    rw [hmean, cellMean_congr fun x hleft hright y htop hbottom =>
      hsame x y ⟨⟨hleft, hright⟩, htop, hbottom⟩]
  · intro samples dst stride hsamples hdst hfits
    exact upsample_eq hx hy hwidth hheight hsamples hdst hfits
  · intro samples hsamples
    exact ⟨BlockCells.size_upsample (c := c.plain) hx hy samples,
      fun v => BlockCells.between_upsample (c := c.plain) hx hy hwide hhigh hsamples⟩
  · intro hrange samples samples' p hp hsame y hy'
    obtain rfl := cuts_of_range hx hrange
    exact BlockCells.upsample_congr_column (c := c.plain) hx hy hwide hhigh hp hy' hsame
  · intro hrange samples samples' q hq hsame x hx'
    obtain rfl := cuts_of_range hy hrange
    exact BlockCells.upsample_congr_row (c := c.plain) hx hy hwide hhigh hx' hq hsame
  · intro hrangeX hrangeY samples hsamples
    obtain rfl := cuts_of_range hx hrangeX
    obtain rfl := cuts_of_range hy hrangeY
    exact BlockCells.upsample_of_full (c := c.plain) hx hy hwide hhigh hsamples

/-- A block of two by two pixels that keeps them all, written between two rows of a wider plane, and
a block of three by two pixels that keeps two samples. -/
theorem resample_within_twoByTwo :
    upsample ⟨#[0, 1, 2], #[0, 1, 2]⟩ #[10, 200, 30, 40] #[9, 9, 9, 9, 9] 3 =
        .ok #[10, 200, 9, 30, 40] ∧
      (∃ means, downsample ⟨#[0, 1, 3], #[0, 2]⟩ #[1, 2, 4, 1, 0, 3] 3 #[0, 0] = .ok means ∧
        ∃ mean, means[1]? = some mean ∧ Between {2, 4, 0, 3} mean) := by
  have hcutX : Cuts #[0, 1, 2] 2 2 := ⟨rfl, rfl, rfl, by decide⟩
  have hcutX' : Cuts #[0, 1, 3] 3 2 := ⟨rfl, rfl, rfl, by decide⟩
  have hcutY' : Cuts #[0, 2] 2 1 := ⟨rfl, rfl, rfl, by decide⟩
  have htwo : Modest 2 := show 2 ≤ 0x8000 by decide
  have hthree : Modest 3 := show 3 ≤ 0x8000 by decide
  obtain ⟨-, -, hup, -, -, -, hfull⟩ :=
    resample_within (c := ⟨#[0, 1, 2], #[0, 1, 2]⟩) hcutX hcutX htwo htwo
  obtain ⟨hdown, hmeans, -⟩ :=
    resample_within (c := ⟨#[0, 1, 3], #[0, 2]⟩) hcutX' hcutY' hthree htwo
  constructor
  · rw [hup _ _ _ rfl (by decide) (by decide), hfull rfl rfl _ rfl]
    decide
  · obtain ⟨mean, hmean, hbetween, -⟩ := hmeans #[1, 2, 4, 1, 0, 3] 3 1 (by decide) 0 (by decide)
    refine ⟨_, hdown _ _ _ (by decide) (by decide) rfl, mean, hmean, ?_⟩
    have hpixels : Cells.pixels ⟨#[0, 1, 3], #[0, 2]⟩ #[1, 2, 4, 1, 0, 3] 3 (1, 0) ⊆
        {2, 4, 0, 3} := by
      rintro v ⟨x, y, ⟨⟨hleft, hright⟩, htop, hbottom⟩, rfl⟩
      have hx : x = 1 ∨ x = 2 := by
        change 1 ≤ x at hleft
        change x < 3 at hright
        omega
      have hy : y = 0 ∨ y = 1 := by
        change y < 2 at hbottom
        omega
      rcases hx with rfl | rfl <;> rcases hy with rfl | rfl <;> simp
    obtain ⟨⟨a, ha, hle⟩, b, hb, hge⟩ := hbetween
    exact ⟨⟨a, hpixels ha, hle⟩, b, hpixels hb, hge⟩

end Machine

end HopCodec
