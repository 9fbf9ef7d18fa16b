/-
Single blocks on the machine.  A block of a tiling lies in its plane, its cells cut its sides, and
so every buffer is as large as the scans and the resampling need it.
-/
import HopCodec.Machine.Block
import HopCodec.Proofs.Machine.Canvas
import HopCodec.Proofs.Machine.Counts
import HopCodec.Proofs.Machine.Resample
import HopCodec.Proofs.Machine.Scan

namespace HopCodec

namespace Plane

/-- The rectangle at the start of a region is the one at its place in the plane. -/
theorem gather_region (p : Plane) (x y width height : Nat) :
    (⟨width, height, p.stride⟩ : Window).gather (p.region x y) 0 = p.crop x y width height := by
  apply bytes_ext
  · rw [Window.size_gather, size_crop]
    rfl
  · intro i hi
    rw [Window.size_gather] at hi
    rw [crop, Window.getD_gather _ _ _ hi, Window.getD_gather _ _ _ hi, getD_region, Nat.zero_add]

/-- A rectangle and the region at its place start with the same pixel. -/
theorem getD_region_zero (p : Plane) (x y : Nat) {width height : Nat} (hwidth : 0 < width)
    (hheight : 0 < height) :
    (p.region x y).getD 0 0 = (p.crop x y width height).getD 0 0 := by
  have harea : 0 < (⟨width, height, p.stride⟩ : Window).area := Nat.mul_pos hwidth hheight
  have hget := Window.getD_gather ⟨width, height, p.stride⟩ (p.region x y) 0 harea
  rw [p.gather_region] at hget
  simpa [Window.place, Window.index] using hget.symm

/-- The rows of a rectangle lie in the region that starts with it. -/
theorem row_le_size_region (p : Plane) {x y width height k : Nat} (hx : x + width ≤ p.width)
    (hy : y + height ≤ p.height) (hk : k < height) :
    k * p.stride + width ≤ (p.region x y).size := by
  have hrow := p.row_le_size (y := y + k) (by omega)
  have hsize : (p.region x y).size = p.data.size - p.window.index x y := by simp [region]
  rw [hsize]
  simp only [window, Window.index]
  rw [Nat.add_mul] at hrow
  omega

/-- Downsampling a rectangle in its plane or on its own is the same. -/
theorem downsample_region (p : Plane) {c : BlockCells} {x y width height columns rows : Nat}
    (hx : Cuts c.x.toArray width columns) (hy : Cuts c.y.toArray height rows) :
    c.downsample (p.region x y) p.stride = c.downsample (p.crop x y width height) width := by
  refine BlockCells.downsample_congr hx hy fun i hi j hj => ?_
  have hpos : 0 < width := Nat.zero_lt_of_lt hi
  have hrows : (j + 1) * width ≤ height * width := Nat.mul_le_mul_right width hj
  rw [Nat.succ_mul, Nat.mul_comm height] at hrows
  have hplace := (⟨width, height, p.stride⟩ : Window).place_index hi j
  have hcrop := Window.getD_gather ⟨width, height, p.stride⟩ p.data (p.window.index x y)
    (i := j * width + i) (by change _ < width * height; omega)
  rw [hplace] at hcrop
  rw [getD_region]
  exact hcrop.symm

end Plane

/-- Where nothing is dropped there is a sample for every pixel. -/
theorem Block.Within.samples_eq {b : Block} {width height : Nat} (h : b.Within width height)
    (hfull : b.isDownsampled = false) : b.x.samples = b.width ∧ b.y.samples = b.height := by
  have hx := h.x.samples_le
  have hy := h.y.samples_le
  simp only [isDownsampled, Axis.isReduced, Bool.or_eq_false_iff, decide_eq_false_iff_not,
    Nat.not_lt] at hfull
  exact ⟨Nat.le_antisymm hx hfull.1, Nat.le_antisymm hy hfull.2⟩

theorem Block.Within.sides_pos {b : Block} {width height : Nat} (h : b.Within width height) :
    0 < b.width ∧ 0 < b.height :=
  ⟨Nat.lt_of_lt_of_le h.x.samples_pos h.x.samples_le,
    Nat.lt_of_lt_of_le h.y.samples_pos h.y.samples_le⟩

theorem Axis.Within.start_add_length {a : Axis} {len : Nat} (h : a.Within len) :
    a.start + a.length ≤ len := by
  have hstart := h.start_le
  have hstop := h.stop_le
  rw [length]
  omega

namespace Machine

/-- The sides of a block. -/
theorem sides_eq {b : Block} {width height : Nat} (h : b.Within width height) :
    axisLength b.x = .ok b.width ∧ axisLength b.y = .ok b.height :=
  ⟨axisLength_eq h.x.start_le, axisLength_eq h.y.start_le⟩

/-- A scan that has filled a packed buffer. -/
def Scanning.ofScan (s : Scan) : Scanning :=
  ⟨s.values, (s.back?.map ScannedPixel.state).getD .start, s.hops⟩

namespace Forecast

variable (p : Predictor)

theorem scanned_packed (seed : UInt8) (choice : HopChoice) {width height : Nat} {pixels : Bytes}
    (hpixels : pixels.size = width * height) :
    scanned p seed choice (.packed width height) pixels (width * height) =
      .ofScan (p.scan width seed choice (width * height)) := by
  have hvalues := p.size_values_scan width seed choice (width * height)
  have hscatter : (Window.packed width height).scatterTo pixels 0
      (p.scan width seed choice (width * height)).values (width * height) =
        (p.scan width seed choice (width * height)).values :=
    Window.scatterTo_packed hpixels hvalues
  exact congrArg (fun pixels => Scanning.mk pixels _ _) hscatter

theorem fits_packed {width height len : Nat} (hheight : 0 < height)
    (hlen : len = width * height) : (Window.packed width height).Fits len := by
  have hextent : (height - 1) * width + width = width * height := by
    rw [← Nat.succ_mul, Nat.succ_eq_add_one, Nat.sub_add_cancel hheight, Nat.mul_comm]
  refine ⟨Nat.le_refl width, ?_⟩
  rw [hlen, Window.extent]
  exact Nat.le_of_eq hextent

variable {p} (hratio : RatioCovered p.ratio) {width height : Nat}

section Packed

variable (hwidth : 0 < width) (hheight : 0 < height)
  (hroom : width * height < allocationLimit)

include hratio hwidth hheight hroom

/-- Rebuilding a block into a packed buffer. -/
theorem decode_packed (seed : UInt8) {hops : Array Hop} (hhops : hops.size = width * height)
    {pixels : Bytes} (hpixels : pixels.size = width * height) :
    (ofPredictor p).decode seed hops (.packed width height) pixels =
      .ok (.ofScan (p.decodeBlock width height seed hops)) := by
  have hword : width * height < wordSize := Nat.lt_trans hroom (by decide)
  rw [decode_eq p seed (realizes_ofPredictor p) (fits_packed hheight hpixels) (hpixels ▸ hword)
    hratio hword hwidth hheight hhops]
  exact congrArg Except.ok (scanned_packed p seed _ hpixels)

/-- Coding a window of a buffer into a packed one. -/
theorem encode_packed {stride : Nat} {src pixels : Bytes} (hsrc : src.size < wordSize)
    (hfits : (⟨width, height, stride⟩ : Window).Fits src.size)
    (hpixels : pixels.size = width * height) :
    (ofPredictor p).encode ⟨width, height, stride⟩ src (.packed width height) pixels =
      .ok (.ofScan (p.encodeBlock width height
        ((⟨width, height, stride⟩ : Window).gather src 0))) := by
  have hword : width * height < wordSize := Nat.lt_trans hroom (by decide)
  have htarget : (Window.packed width height).Fits pixels.size := fits_packed hheight hpixels
  have hsize : width = (Window.packed width height).width ∧
      height = (Window.packed width height).height := ⟨rfl, rfl⟩
  rw [encode_eq p (realizes_ofPredictor p) hratio hwidth hheight hfits hsize hsrc htarget
    (hpixels ▸ hword) hroom]
  exact congrArg Except.ok (scanned_packed p _ _ hpixels)

end Packed

def cellsOf (b : Block) : Cells :=
  ⟨(b.x.cells .horizontal).toArray, (b.y.cells .vertical).toArray⟩

theorem plain_cellsOf (b : Block) : (cellsOf b).plain = BlockCells.ofBlock b :=
  rfl

section Block

theorem ofBlock_cellsOf {b : Block} (hb : b.Within width height) (hwidth : Modest width)
    (hheight : Modest height) : Cells.ofBlock b = .ok (cellsOf b) :=
  Cells.ofBlock_eq hb hwidth hheight

variable {b : Block} (hb : b.Within width height) (hwidth : Modest width)
  (hheight : Modest height)

include hb hwidth hheight

theorem area_lt : b.width * b.height < allocationLimit ∧
    b.x.samples * b.y.samples < allocationLimit := by
  have hlimit : (0x40000000 : Nat) < allocationLimit := by decide
  have harea : width * height ≤ 0x40000000 := hwidth.mul_lt hheight
  have hpixels : b.width * b.height ≤ width * height :=
    Nat.mul_le_mul hb.x.length_le hb.y.length_le
  have hsamples : b.x.samples * b.y.samples ≤ width * height := hb.sampleCount_le
  omega

omit hwidth hheight in
/-- A block has as many pixels as its sides say, whether or not it is downsampled. -/
theorem size_blockPixels {scan : Scan} (hscan : scan.size = b.sampleCount) :
    (Predictor.blockPixels b scan).size = b.width * b.height := by
  unfold Predictor.blockPixels
  cases hdown : b.isDownsampled with
  | true =>
      rw [if_pos rfl]
      exact BlockCells.size_upsample (c := .ofBlock b) (cuts_cells hb.x .horizontal)
        (cuts_cells hb.y .vertical) _
  | false =>
      obtain ⟨hsamplesX, hsamplesY⟩ := hb.samples_eq hdown
      rw [if_neg Bool.false_ne_true, ← hsamplesX, ← hsamplesY]
      simp [Scan.values, hscan, Block.sampleCount]

omit hwidth hheight in
theorem size_downsample (src : Bytes) (stride : Nat) :
    ((BlockCells.ofBlock b).downsample src stride).size = b.sampleCount := by
  have hcolumns := Cells.plain_columns (c := cellsOf b) (cuts_cells hb.x .horizontal)
  have hrows := Cells.plain_rows (c := cellsOf b) (cuts_cells hb.y .vertical)
  rw [plain_cellsOf] at hcolumns hrows
  simp [BlockCells.downsample, hcolumns, hrows, Block.sampleCount]

/-- Spreading the samples of a block over its pixels. -/
theorem upsample_cellsOf {samples pixels : Bytes} (hsamples : samples.size = b.sampleCount)
    (hpixels : pixels.size = b.width * b.height) :
    upsample (cellsOf b) samples pixels b.width =
      .ok ((BlockCells.ofBlock b).upsample samples) :=
  upsample_packed_eq (c := cellsOf b) (cuts_cells hb.x .horizontal) (cuts_cells hb.y .vertical)
    (Nat.le_trans hb.x.length_le hwidth) (Nat.le_trans hb.y.length_le hheight) hsamples hpixels

include hratio

/-- Rebuilding a block takes one hop for each of its samples. -/
theorem rebuildBlock_eq (seed : UInt8) {hops : Array Hop} (hhops : hops.size = b.sampleCount) :
    (ofPredictor p).rebuildBlock b seed hops = .ok (p.rebuildBlock b seed hops) := by
  have hlimit : allocationLimit < wordSize := by decide
  obtain ⟨hpixels, hsamples⟩ := area_lt hb hwidth hheight
  obtain ⟨hsideX, hsideY⟩ := sides_eq hb
  obtain ⟨hposX, hposY⟩ := hb.sides_pos
  rw [rebuildBlock, hsideX, ok_bind, hsideY, ok_bind, mul_eq (Nat.lt_trans hpixels hlimit),
    ok_bind, allocate_eq hpixels, ok_bind, isDownsampled_eq hb, ok_bind]
  cases hdown : b.isDownsampled with
  | true =>
      have hvalues : (p.decodeBlock b.x.samples b.y.samples seed hops).values.size =
          b.sampleCount := p.size_values_scan _ _ _ _
      rw [if_pos rfl, p.rebuildBlock_of_reduced hdown, mul_eq (Nat.lt_trans hsamples hlimit),
        ok_bind, allocate_eq hsamples, ok_bind,
        decode_packed hratio hb.x.samples_pos hb.y.samples_pos hsamples seed hhops
          Array.size_replicate, ok_bind, ofBlock_cellsOf hb hwidth hheight, ok_bind]
      exact upsample_cellsOf hb hwidth hheight hvalues Array.size_replicate
  | false =>
      have hfull := hb.samples_eq hdown
      have hcount : hops.size = b.width * b.height := by
        rw [hhops, Block.sampleCount, hfull.1, hfull.2]
      rw [if_neg Bool.false_ne_true, p.rebuildBlock_of_full hfull,
        decode_packed hratio hposX hposY hpixels seed hcount Array.size_replicate]
      rfl

/-- Coding the samples of a block from one packed buffer into another. -/
theorem encode_samples {samples rebuilt : Bytes} (hsamples : samples.size = b.sampleCount)
    (hrebuilt : rebuilt.size = b.sampleCount) :
    (ofPredictor p).encode (.packed b.x.samples b.y.samples) samples
        (.packed b.x.samples b.y.samples) rebuilt =
      .ok (.ofScan (p.encodeBlock b.x.samples b.y.samples samples)) := by
  have hlimit : allocationLimit < wordSize := by decide
  have hroom : b.sampleCount < allocationLimit := (area_lt hb hwidth hheight).2
  have hcode := encode_packed hratio hb.x.samples_pos hb.y.samples_pos hroom
    (hsamples ▸ Nat.lt_trans hroom hlimit) (fits_packed hb.y.samples_pos hsamples) hrebuilt
  have hgather : (Window.packed b.x.samples b.y.samples).gather samples 0 = samples :=
    Window.gather_packed hsamples
  rw [← Window.packed, hgather] at hcode
  exact hcode

end Block

section Code

variable {b : Block} {plane : Plane} (hb : b.Within plane.width plane.height)
  (hwidth : Modest plane.width) (hheight : Modest plane.height)
  (hdata : plane.data.size < wordSize)

theorem size_region_lt (hdata : plane.data.size < wordSize) (x y : Nat) :
    (plane.region x y).size < wordSize := by
  refine Nat.lt_of_le_of_lt ?_ hdata
  simp [Plane.region]

include hb

theorem row_le_size_region {k : Nat} (hk : k < b.height) :
    k * plane.stride + b.width ≤ (plane.region b.x.start b.y.start).size :=
  plane.row_le_size_region hb.x.start_add_length hb.y.start_add_length hk

include hdata

theorem region_eq : (Canvas.ofPlane plane).region b.x.start b.y.start =
    .ok (plane.region b.x.start b.y.start) := by
  obtain ⟨hposX, hposY⟩ := hb.sides_pos
  have hinX : b.x.start + b.width ≤ plane.width := hb.x.start_add_length
  have hinY : b.y.start + b.height ≤ plane.height := hb.y.start_add_length
  exact Canvas.region_eq plane (by omega) (by omega) hdata

include hwidth hheight

/-- Averaging the cells of a block where it lies in its plane. -/
theorem downsample_cellsOf {samples : Bytes} (hsamples : samples.size = b.sampleCount) :
    downsample (cellsOf b) (plane.region b.x.start b.y.start) plane.stride samples =
      .ok ((BlockCells.ofBlock b).downsample
        (plane.crop b.x.start b.y.start b.width b.height) b.width) := by
  have hcutX := cuts_cells hb.x .horizontal
  have hcutY := cuts_cells hb.y .vertical
  rw [downsample_eq (c := cellsOf b) hcutX hcutY (Nat.le_trans hb.x.length_le hwidth)
    (Nat.le_trans hb.y.length_le hheight) hb.x.samples_le hb.y.samples_le
    (size_region_lt hdata _ _) (fun k hk => row_le_size_region hb hk) hsamples,
    plain_cellsOf]
  exact congrArg Except.ok (plane.downsample_region hcutX hcutY)

include hratio

/-- Coding the pixels of a block where they lie in their plane. -/
theorem encode_region {pixels : Bytes} (hpixels : pixels.size = b.width * b.height) :
    (ofPredictor p).encode ⟨b.width, b.height, plane.stride⟩
        (plane.region b.x.start b.y.start) (.packed b.width b.height) pixels =
      .ok (.ofScan (p.encodeBlock b.width b.height
        (plane.crop b.x.start b.y.start b.width b.height))) := by
  obtain ⟨hposX, hposY⟩ := hb.sides_pos
  have hsource : (⟨b.width, b.height, plane.stride⟩ : Window).Fits
      (plane.region b.x.start b.y.start).size := by
    refine ⟨?_, row_le_size_region hb (Nat.sub_lt hposY Nat.one_pos)⟩
    have hinX : b.x.start + b.width ≤ plane.width := hb.x.start_add_length
    have hstride := plane.width_le_stride
    simp only
    omega
  have hcode := encode_packed hratio hposX hposY (area_lt hb hwidth hheight).1
    (size_region_lt hdata b.x.start b.y.start) hsource hpixels
  rw [plane.gather_region] at hcode
  exact hcode

omit hdata hratio in
/-- The hops of a coded block are few enough to be counted. -/
theorem ofHops_codeBlock : Counts.ofHops (p.codeBlock plane b).hops.toList =
    .ok (Histogram.ofList (p.codeBlock plane b).hops.toList) := by
  refine Counts.ofHops_eq ?_
  rw [Array.length_toList, Predictor.size_hops_codeBlock]
  exact Nat.lt_trans (area_lt hb hwidth hheight).2 (by decide)

/-- Coding a block of a plane. -/
theorem codeBlock_eq : (ofPredictor p).codeBlock (.ofPlane plane) b =
    .ok ⟨p.codeBlock plane b, Histogram.ofList (p.codeBlock plane b).hops.toList⟩ := by
  have hlimit : allocationLimit < wordSize := by decide
  obtain ⟨hpixels, hsamples⟩ := area_lt hb hwidth hheight
  obtain ⟨hsideX, hsideY⟩ := sides_eq hb
  obtain ⟨hposX, hposY⟩ := hb.sides_pos
  let crop := plane.crop b.x.start b.y.start b.width b.height
  have hcounts := ofHops_codeBlock (p := p) hb hwidth hheight
  rw [codeBlock, hsideX, ok_bind, hsideY, ok_bind, region_eq hb hdata, ok_bind,
    mul_eq (Nat.lt_trans hpixels hlimit), ok_bind, allocate_eq hpixels, ok_bind,
    isDownsampled_eq hb, ok_bind]
  cases hdown : b.isDownsampled with
  | true =>
      let samples := (BlockCells.ofBlock b).downsample crop b.width
      let scan := p.encodeBlock b.x.samples b.y.samples samples
      have hcount : samples.size = b.sampleCount := size_downsample hb crop b.width
      have hfirst : 0 < samples.size := by
        rw [hcount]
        exact Nat.mul_pos hb.x.samples_pos hb.y.samples_pos
      have hdownsample : downsample (cellsOf b) (plane.region b.x.start b.y.start)
          (Canvas.ofPlane plane).stride (Array.replicate (b.x.samples * b.y.samples) 0) =
            .ok samples :=
        downsample_cellsOf hb hwidth hheight hdata Array.size_replicate
      have hencode : (ofPredictor p).encode (.packed b.x.samples b.y.samples) samples
          (.packed b.x.samples b.y.samples) (Array.replicate (b.x.samples * b.y.samples) 0) =
            .ok (.ofScan scan) :=
        encode_samples hratio hb hwidth hheight hcount Array.size_replicate
      have hupsample : upsample (cellsOf b) (Scanning.ofScan scan).pixels
          (Array.replicate (b.width * b.height) 0) b.width =
            .ok ((BlockCells.ofBlock b).upsample scan.values) :=
        upsample_cellsOf hb hwidth hheight (p.size_values_scan _ _ _ _) Array.size_replicate
      rw [p.codeBlock_of_reduced plane hdown] at hcounts ⊢
      rw [if_pos rfl, ofBlock_cellsOf hb hwidth hheight, ok_bind,
        mul_eq (Nat.lt_trans hsamples hlimit), ok_bind, allocate_eq hsamples, ok_bind,
        hdownsample, ok_bind, ok_bind, allocate_eq hsamples, ok_bind]
      simp only [hencode, ok_bind, hupsample, fetch_eq_getD hfirst 0]
      exact congrArg (fun counts => counts >>= _) hcounts
  | false =>
      have hencode : (ofPredictor p).encode ⟨b.width, b.height, (Canvas.ofPlane plane).stride⟩
          (plane.region b.x.start b.y.start) (.packed b.width b.height)
          (Array.replicate (b.width * b.height) 0) =
            .ok (.ofScan (p.encodeBlock b.width b.height crop)) :=
        encode_region hratio hb hwidth hheight hdata Array.size_replicate
      have hfirst : 0 < (plane.region b.x.start b.y.start).size := by
        have hrow := row_le_size_region hb hposY
        omega
      have hseed := plane.getD_region_zero b.x.start b.y.start hposX hposY
      rw [p.codeBlock_of_full plane (hb.samples_eq hdown)] at hcounts ⊢
      rw [if_neg Bool.false_ne_true, hencode, ok_bind, fetch_eq_getD hfirst 0, ok_bind, hseed]
      exact congrArg (fun counts => counts >>= _) hcounts

end Code

end Forecast

namespace Grid

theorem pasteBlock_eq {plane : Plane} {e : Block × Bytes}
    (hinside : BlockGrid.Inside e.1 plane.width plane.height)
    (hdata : plane.data.size < wordSize) (hheight : plane.height < wordSize)
    (hpixels : e.2.size = e.1.width * e.1.height) (hsize : e.2.size < wordSize) :
    pasteBlock (.ofPlane plane) e = .ok (.ofPlane (BlockGrid.pasteBlock plane e)) := by
  obtain ⟨hx, hy, hxle, hyle⟩ := hinside
  have hrows : ∀ k, k < e.1.height → k * e.1.width + e.1.width ≤ e.2.size := by
    intro k hk
    rw [hpixels, ← Nat.succ_mul, Nat.mul_comm e.1.width]
    exact Nat.mul_le_mul_right e.1.width hk
  have hgather : (Window.packed e.1.width e.1.height).gather e.2 0 = e.2 :=
    Window.gather_packed hpixels
  have hsideX : axisLength e.1.x = .ok e.1.width := axisLength_eq (hx ▸ Nat.le_add_right _ _)
  have hsideY : axisLength e.1.y = .ok e.1.height := axisLength_eq (hy ▸ Nat.le_add_right _ _)
  rw [pasteBlock, hsideX, ok_bind, hsideY, ok_bind,
    Canvas.blit_eq plane (hx ▸ hxle) (hy ▸ hyle) hdata hheight hsize hrows, Plane.blit,
    ← Window.packed, hgather]
  rfl

/-- Blocks are copied one after another into the rectangles that they belong to. -/
theorem foldlM_pasteBlock {entries : List (Block × Bytes)} {plane : Plane}
    (hinside : ∀ e ∈ entries, BlockGrid.Inside e.1 plane.width plane.height)
    (hdata : plane.data.size < wordSize) (hheight : plane.height < wordSize)
    (hpixels : ∀ e ∈ entries, e.2.size = e.1.width * e.1.height ∧ e.2.size < wordSize) :
    entries.foldlM pasteBlock (Canvas.ofPlane plane) =
      .ok (.ofPlane (entries.foldl BlockGrid.pasteBlock plane)) := by
  induction entries generalizing plane with
  | nil => rfl
  | cons e rest ih =>
      have hin := hinside e List.mem_cons_self
      obtain ⟨hcount, hsize⟩ := hpixels e List.mem_cons_self
      have hwidth : (BlockGrid.pasteBlock plane e).width = plane.width := Plane.width_paste ..
      have hheight' : (BlockGrid.pasteBlock plane e).height = plane.height :=
        Plane.height_paste ..
      have hdata' : (BlockGrid.pasteBlock plane e).data.size = plane.data.size := by
        rw [BlockGrid.pasteBlock, Plane.data_paste, Window.size_scatter]
      rw [List.foldlM_cons, List.foldl_cons, pasteBlock_eq hin hdata hheight hcount hsize, ok_bind]
      apply ih
      · intro e' he'
        rw [hwidth, hheight']
        exact hinside e' (List.mem_cons_of_mem e he')
      · rw [hdata']
        exact hdata
      · rw [hheight']
        exact hheight
      · exact fun e' he' => hpixels e' (List.mem_cons_of_mem e he')

/-- Putting a plane together from the pixels of its blocks. -/
theorem assemble_eq {g : BlockGrid} {width height : Nat} (h : g.Tiles width height)
    (hwidth : Modest width) (hheight : Modest height) {pixels : List Bytes}
    (hpixels : ∀ e ∈ g.blocks.toList.zip pixels, e.2.size = e.1.width * e.1.height) :
    assemble g width height pixels =
      lift ((g.assemble width height pixels).map Canvas.ofPlane) := by
  have hlimit : (0x40000000 : Nat) < allocationLimit := by decide
  have hword : allocationLimit < wordSize := by decide
  have harea := hwidth.mul_lt hheight
  have hroom : width * height < allocationLimit := by omega
  obtain ⟨blank, hblank⟩ := Plane.exists_new? hroom
  obtain ⟨hwidth', hheight'⟩ := Plane.size_of_new? hblank
  have hdata : blank.data.size = width * height := by
    unfold Plane.new? Plane.filled? reserve at hblank
    rw [if_pos hroom] at hblank
    cases hblank
    exact Array.size_replicate
  rw [assemble, Canvas.new_eq hroom hblank, ok_bind, foldlM_pasteBlock]
  · rw [BlockGrid.assemble_eq_ok_iff.mpr ⟨blank, hblank, rfl⟩]
    rfl
  · intro e he
    obtain ⟨k, hk, hb⟩ := Array.mem_iff_getElem.mp
      (Array.mem_toList_iff.mp (List.of_mem_zip he).1)
    rw [hwidth', hheight', ← hb]
    exact h.inside hk
  · rw [hdata]
    omega
  · rw [hheight']
    exact Nat.lt_of_le_of_lt hheight.le (by decide)
  · intro e he
    have hwithin := h.within (List.of_mem_zip he).1
    obtain ⟨hroom, -⟩ := Forecast.area_lt hwithin hwidth hheight
    exact ⟨hpixels e he, by rw [hpixels e he]; omega⟩

end Grid

end Machine

end HopCodec
