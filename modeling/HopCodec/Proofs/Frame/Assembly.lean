/-
Putting planes together.  The blocks of a tiling do not overlap, so a plane put together from
their pixels shows each block as it was handed over.
-/
import HopCodec.Frame.Block
import HopCodec.Proofs.Frame.Grids
import HopCodec.Proofs.Plane

namespace HopCodec

def Block.Covers (b : Block) (i j : Nat) : Prop :=
  (b.x.start ≤ i ∧ i < b.x.stop) ∧ b.y.start ≤ j ∧ j < b.y.stop

/-- Two planes have the same pixels under a block. -/
def Plane.AgreeOn (b : Block) (p q : Plane) : Prop :=
  ∀ x y, b.Covers x y → p.get x y = q.get x y

/-- Planes that agree on a block have the same rectangle there. -/
theorem Plane.AgreeOn.crop_eq {b : Block} {p q : Plane} (hagree : p.AgreeOn b q) :
    p.crop b.x.start b.y.start b.width b.height = q.crop b.x.start b.y.start b.width b.height :=
  crop_congr fun _ hx _ hy => hagree _ _
    ⟨⟨Nat.le_add_right _ _, Nat.add_lt_of_lt_sub' hx⟩, Nat.le_add_right _ _,
      Nat.add_lt_of_lt_sub' hy⟩

theorem Axis.Spans.start_add_length {a : Axis} {start stop : Nat} (h : a.Spans start stop) :
    a.start + a.length = a.stop := by
  have hpos := h.samples_pos
  have hle := h.samples_le
  unfold length at *
  omega

theorem Axis.Spans.length_pos {a : Axis} {start stop : Nat} (h : a.Spans start stop) :
    0 < a.length :=
  Nat.lt_of_lt_of_le h.samples_pos h.samples_le

namespace BlockGrid

namespace Tiles

variable {g : BlockGrid} {width height : Nat}

/-- A block lies in its plane. -/
theorem block_le (h : g.Tiles width height) {k : Nat} (hk : k < g.blocks.size) :
    g.blocks[k].x.start + g.blocks[k].width ≤ width ∧
      g.blocks[k].y.start + g.blocks[k].height ≤ height := by
  have hplaced := h.placed k hk
  have hcolumn := h.column_lt hk
  have hrow := h.row_lt hk
  unfold Block.width Block.height
  rw [hplaced.x.start_add_length, hplaced.y.start_add_length, hplaced.x.stop_eq,
    hplaced.y.stop_eq]
  exact ⟨h.xCuts.le_len hcolumn, h.yCuts.le_len hrow⟩

/-- No pixel belongs to two blocks. -/
theorem block_unique (h : g.Tiles width height) {k l i j : Nat} (hk : k < g.blocks.size)
    (hl : l < g.blocks.size) (hcovers : g.blocks[k].Covers i j)
    (hcovers' : g.blocks[l].Covers i j) : k = l := by
  have hplaced := h.placed k hk
  have hplaced' := h.placed l hl
  obtain ⟨hx, hy⟩ := hcovers
  obtain ⟨hx', hy'⟩ := hcovers'
  rw [hplaced.x.start_eq, hplaced.x.stop_eq] at hx
  rw [hplaced'.x.start_eq, hplaced'.x.stop_eq] at hx'
  rw [hplaced.y.start_eq, hplaced.y.stop_eq] at hy
  rw [hplaced'.y.start_eq, hplaced'.y.stop_eq] at hy'
  have hcolumn := h.xCuts.piece_unique (h.column_lt hk) (h.column_lt hl) hx hx'
  have hrow := h.yCuts.piece_unique (h.row_lt hk) (h.row_lt hl) hy hy'
  rw [← Nat.div_add_mod k g.blocksW, ← Nat.div_add_mod l g.blocksW, hcolumn, hrow]

end Tiles

def pasteBlock (plane : Plane) (e : Block × Bytes) : Plane :=
  plane.paste e.1.x.start e.1.y.start e.1.width e.1.height e.2

/-- The pixel of a block's list that stands for pixel `(i, j)` of the plane. -/
def pixelAt (e : Block × Bytes) (i j : Nat) : UInt8 :=
  e.2.getD ((j - e.1.y.start) * e.1.width + (i - e.1.x.start)) 0

/-- A block between proper boundaries that lies in a plane of the given size. -/
structure Inside (b : Block) (width height : Nat) : Prop where
  x_stop : b.x.start + b.width = b.x.stop
  y_stop : b.y.start + b.height = b.y.stop
  x_le : b.x.stop ≤ width
  y_le : b.y.stop ≤ height

theorem Tiles.inside {g : BlockGrid} {width height : Nat} (h : g.Tiles width height) {k : Nat}
    (hk : k < g.blocks.size) : Inside g.blocks[k] width height := by
  have hplaced := h.placed k hk
  obtain ⟨hx, hy⟩ := h.block_le hk
  have hstopX : g.blocks[k].x.start + g.blocks[k].width = _ := hplaced.x.start_add_length
  have hstopY : g.blocks[k].y.start + g.blocks[k].height = _ := hplaced.y.start_add_length
  exact ⟨hstopX, hstopY, hstopX ▸ hx, hstopY ▸ hy⟩

theorem get_pasteBlock {plane : Plane} {e : Block × Bytes}
    (hinside : Inside e.1 plane.width plane.height) {i j : Nat} (hi : i < plane.width) :
    (e.1.Covers i j → (pasteBlock plane e).get i j = pixelAt e i j) ∧
      (¬ e.1.Covers i j → (pasteBlock plane e).get i j = plane.get i j) := by
  obtain ⟨hx, hy, hxle, hyle⟩ := hinside
  constructor
  · rintro ⟨⟨hleft, hright⟩, htop, hbottom⟩
    have hget := plane.get_paste_inside e.2 (x := e.1.x.start) (y := e.1.y.start)
      (i := i - e.1.x.start) (j := j - e.1.y.start) (by omega : _ + e.1.width ≤ _)
      (by omega : _ + e.1.height ≤ _) (by omega) (by omega)
    rw [Nat.add_sub_cancel' hleft, Nat.add_sub_cancel' htop] at hget
    exact hget
  · intro hout
    apply plane.get_paste_outside e.2 (by omega) hi
    rw [hx, hy]
    exact hout

/-- After all blocks are pasted, a pixel has the value that every block over it gives it, if there
is such a block at all. -/
theorem get_foldl_pasteBlock {entries : List (Block × Bytes)} {plane : Plane} {i j : Nat}
    {value : UInt8} (hinside : ∀ e ∈ entries, Inside e.1 plane.width plane.height)
    (hi : i < plane.width) (hvalue : ∀ e ∈ entries, e.1.Covers i j → pixelAt e i j = value)
    (hsome : plane.get i j = value ∨ ∃ e ∈ entries, e.1.Covers i j) :
    (entries.foldl pasteBlock plane).get i j = value := by
  induction entries generalizing plane with
  | nil =>
      rcases hsome with hget | ⟨e, hmem, -⟩
      · exact hget
      · cases hmem
  | cons e rest ih =>
      obtain ⟨hin, hout⟩ := get_pasteBlock (hinside e List.mem_cons_self) (j := j) hi
      have hwidth : (pasteBlock plane e).width = plane.width := Plane.width_paste ..
      have hheight : (pasteBlock plane e).height = plane.height := Plane.height_paste ..
      rw [List.foldl_cons]
      apply ih
      · intro e' hmem
        rw [hwidth, hheight]
        exact hinside e' (List.mem_cons_of_mem e hmem)
      · rw [hwidth]
        exact hi
      · exact fun e' hmem => hvalue e' (List.mem_cons_of_mem e hmem)
      · by_cases hcovers : e.1.Covers i j
        · exact .inl ((hin hcovers).trans (hvalue e List.mem_cons_self hcovers))
        · rw [hout hcovers]
          rcases hsome with hget | ⟨e', hmem, hcovers'⟩
          · exact .inl hget
          · rcases List.mem_cons.mp hmem with rfl | hmem
            · exact absurd hcovers' hcovers
            · exact .inr ⟨e', hmem, hcovers'⟩

theorem assemble_eq_ok_iff {g : BlockGrid} {width height : Nat} {pixels : List Bytes}
    {plane : Plane} :
    g.assemble width height pixels = .ok plane ↔
      ∃ blank, Plane.new? width height = .ok blank ∧
        plane = (g.blocks.toList.zip pixels).foldl pasteBlock blank := by
  change (Plane.new? width height >>= _) = _ ↔ _
  simp only [bind_eq_ok_iff, pure_eq_ok_iff, eq_comm (a := plane)]
  rfl

theorem size_foldl_pasteBlock (entries : List (Block × Bytes)) (plane : Plane) :
    (entries.foldl pasteBlock plane).width = plane.width ∧
      (entries.foldl pasteBlock plane).height = plane.height := by
  induction entries generalizing plane with
  | nil => exact ⟨rfl, rfl⟩
  | cons e rest ih =>
      obtain ⟨hwidth, hheight⟩ := ih (pasteBlock plane e)
      exact ⟨hwidth.trans (Plane.width_paste ..), hheight.trans (Plane.height_paste ..)⟩

end BlockGrid

theorem Plane.size_of_new? {width height : Nat} {plane : Plane}
    (h : Plane.new? width height = .ok plane) : plane.width = width ∧ plane.height = height := by
  unfold new? filled? at h
  cases hreserve : reserve (width * height) with
  | error fault =>
      rw [hreserve] at h
      cases h
  | ok _ =>
      rw [hreserve] at h
      cases h
      exact ⟨rfl, rfl⟩

theorem Plane.exists_new? {width height : Nat} (h : width * height < allocationLimit) :
    ∃ plane, Plane.new? width height = .ok plane := by
  unfold new? filled? reserve
  rw [if_pos h]
  exact ⟨_, rfl⟩

namespace BlockGrid

/-- There is a plane for any pixels, as long as there is room for it. -/
theorem exists_assemble (g : BlockGrid) {width height : Nat} (pixels : List Bytes)
    (hroom : width * height < allocationLimit) :
    ∃ plane, g.assemble width height pixels = .ok plane := by
  obtain ⟨blank, hblank⟩ := Plane.exists_new? hroom
  exact ⟨_, assemble_eq_ok_iff.mpr ⟨blank, hblank, rfl⟩⟩

theorem size_of_assemble {g : BlockGrid} {width height : Nat} {pixels : List Bytes}
    {plane : Plane} (h : g.assemble width height pixels = .ok plane) :
    plane.width = width ∧ plane.height = height := by
  obtain ⟨blank, hblank, rfl⟩ := assemble_eq_ok_iff.mp h
  obtain ⟨hwidth, hheight⟩ := Plane.size_of_new? hblank
  rw [← hwidth, ← hheight]
  exact size_foldl_pasteBlock _ blank

/-- A plane put together from the blocks of a tiling shows in each pixel what the block over it has
there. -/
theorem get_assemble {g : BlockGrid} {width height : Nat} (h : g.Tiles width height)
    {pixels : List Bytes} {plane : Plane} (hplane : g.assemble width height pixels = .ok plane)
    {k : Nat} (hk : k < g.blocks.size) (hk' : k < pixels.length) {i j : Nat}
    (hcovers : g.blocks[k].Covers i j) :
    plane.get i j = pixelAt (g.blocks[k], pixels[k]) i j := by
  obtain ⟨blank, hblank, rfl⟩ := assemble_eq_ok_iff.mp hplane
  obtain ⟨hwidth, hheight⟩ := Plane.size_of_new? hblank
  have hentry (e : Block × Bytes) (he : e ∈ g.blocks.toList.zip pixels) :
      ∃ l, ∃ (hl : l < g.blocks.size) (hl' : l < pixels.length),
        e = (g.blocks[l], pixels[l]) := by
    obtain ⟨l, hl, rfl⟩ := List.mem_iff_getElem.mp he
    simp only [List.length_zip, Array.length_toList] at hl
    exact ⟨l, by omega, by omega, by simp⟩
  apply get_foldl_pasteBlock
  · intro e he
    obtain ⟨l, hl, hl', rfl⟩ := hentry e he
    rw [hwidth, hheight]
    exact h.inside hl
  · rw [hwidth]
    exact Nat.lt_of_lt_of_le hcovers.1.2 (h.inside hk).x_le
  · intro e he hcovers'
    obtain ⟨l, hl, hl', rfl⟩ := hentry e he
    obtain rfl := h.block_unique hk hl hcovers hcovers'
    rfl
  · refine .inr ⟨(g.blocks[k], pixels[k]), ?_, hcovers⟩
    have hlength : k < (g.blocks.toList.zip pixels).length := by
      simp only [List.length_zip, Array.length_toList]
      omega
    have hmem := List.getElem_mem hlength
    simpa using hmem

/-- A plane put together from the blocks of a tiling shows each block. -/
theorem crop_assemble {g : BlockGrid} {width height : Nat} (h : g.Tiles width height)
    {pixels : List Bytes} {plane : Plane} (hplane : g.assemble width height pixels = .ok plane)
    {k : Nat} (hk : k < g.blocks.size) (hk' : k < pixels.length)
    (harea : pixels[k].size = g.blocks[k].width * g.blocks[k].height) :
    plane.crop g.blocks[k].x.start g.blocks[k].y.start g.blocks[k].width g.blocks[k].height =
      pixels[k] := by
  have hinside := h.inside hk
  apply bytes_ext
  · rw [Plane.size_crop, harea]
  intro n hn
  rw [Plane.size_crop] at hn
  have hcolumn : n % g.blocks[k].width < g.blocks[k].width := mod_lt_of_lt_mul hn
  have hrow : n / g.blocks[k].width < g.blocks[k].height := div_lt_of_lt_mul hn
  have hx := hinside.x_stop
  have hy := hinside.y_stop
  have hcovers : g.blocks[k].Covers (g.blocks[k].x.start + n % g.blocks[k].width)
      (g.blocks[k].y.start + n / g.blocks[k].width) :=
    ⟨⟨Nat.le_add_right _ _, by omega⟩, Nat.le_add_right _ _, by omega⟩
  rw [Plane.getD_crop _ hn, get_assemble h hplane hk hk' hcovers]
  unfold pixelAt
  rw [Nat.add_sub_cancel_left, Nat.add_sub_cancel_left, Nat.div_add_mod']

end BlockGrid

theorem ceilDiv_pos {a b : Nat} (ha : 0 < a) (hb : 0 < b) : 0 < ceilDiv a b :=
  Nat.div_pos (by omega) hb

theorem ceilDiv_le (a : Nat) {b : Nat} (h : 0 < b) : ceilDiv a b ≤ a := by
  unfold ceilDiv
  cases a with
  | zero => exact Nat.le_of_eq (Nat.div_eq_of_lt (by omega))
  | succ a =>
      cases b with
      | zero => omega
      | succ b =>
          have hproduct := Nat.succ_mul_succ b a
          apply Nat.div_le_of_le_mul
          simp only [Nat.succ_eq_add_one] at hproduct
          omega

/-- There are no more chroma samples than pixels. -/
theorem ChromaFormat.chromaArea_le (f : ChromaFormat) (width height : Nat) :
    (f.chromaSize width height).1 * (f.chromaSize width height).2 ≤ width * height := by
  obtain ⟨hfactorX, hfactorY⟩ := f.factors_pos
  exact Nat.mul_le_mul (ceilDiv_le width hfactorX) (ceilDiv_le height hfactorY)

namespace FrameHeader

/-- No plane of a valid header has more pixels than the luma plane may have. -/
theorem InRange.area_le {h : FrameHeader} (hrange : h.InRange) :
    h.lumaSize.1 * h.lumaSize.2 ≤ pixelsMax ∧ h.chromaSize.1 * h.chromaSize.2 ≤ pixelsMax := by
  have hpixels : h.lumaSize.1 * h.lumaSize.2 ≤ pixelsMax := hrange.pixels_le
  have hchroma : h.chromaSize.1 * h.chromaSize.2 ≤ h.lumaSize.1 * h.lumaSize.2 :=
    h.chroma.chromaArea_le _ _
  exact ⟨hpixels, Nat.le_trans hchroma hpixels⟩

/-- Valid planes are far from filling the memory. -/
theorem InRange.room {h : FrameHeader} (hrange : h.InRange) :
    h.lumaSize.1 * h.lumaSize.2 < allocationLimit ∧
      h.chromaSize.1 * h.chromaSize.2 < allocationLimit := by
  obtain ⟨hluma, hchroma⟩ := hrange.area_le
  have hlimit : pixelsMax < allocationLimit := by decide
  exact ⟨Nat.lt_of_le_of_lt hluma hlimit, Nat.lt_of_le_of_lt hchroma hlimit⟩

end FrameHeader

theorem Frame.ofPlanes?_eq_ok_iff {chroma : ChromaFormat} {planes : Channels Plane} {f : Frame} :
    ofPlanes? chroma planes = .ok f ↔ f.chroma = chroma ∧ f.planes = planes := by
  constructor
  · intro hok
    unfold ofPlanes? at hok
    split at hok
    · split at hok
      · cases hok
        exact ⟨rfl, rfl⟩
      · cases hok
    · cases hok
  · rintro ⟨rfl, rfl⟩
    unfold ofPlanes?
    rw [dif_pos f.chromaA_size, dif_pos f.chromaB_size]

namespace FrameGrids

variable {g : FrameGrids} {h : FrameHeader} {pixels : Channels (List Bytes)} {frame : Frame}

theorem assemble_eq_bind (g : FrameGrids) (h : FrameHeader) (pixels : Channels (List Bytes)) :
    g.assemble h pixels = (do
      let luma ← g.luma.assemble h.lumaSize.1 h.lumaSize.2 pixels.luma
      let a ← g.chroma.assemble h.chromaSize.1 h.chromaSize.2 pixels.chromaA
      let b ← g.chroma.assemble h.chromaSize.1 h.chromaSize.2 pixels.chromaB
      Frame.ofPlanes? h.chroma ⟨luma, a, b⟩) :=
  rfl

/-- An assembled frame is made of the assembled planes. -/
theorem assemble_eq_ok_iff :
    g.assemble h pixels = .ok frame ↔
      g.luma.assemble h.lumaSize.1 h.lumaSize.2 pixels.luma = .ok frame.planes.luma ∧
        g.chroma.assemble h.chromaSize.1 h.chromaSize.2 pixels.chromaA =
          .ok frame.planes.chromaA ∧
        g.chroma.assemble h.chromaSize.1 h.chromaSize.2 pixels.chromaB =
          .ok frame.planes.chromaB ∧
        frame.chroma = h.chroma := by
  rw [assemble_eq_bind]
  simp only [bind_eq_ok_iff, Frame.ofPlanes?_eq_ok_iff]
  constructor
  · rintro ⟨luma, hluma, a, ha, b, hb, hchroma, hplanes⟩
    rw [hplanes]
    exact ⟨hluma, ha, hb, hchroma⟩
  · rintro ⟨hluma, ha, hb, hchroma⟩
    exact ⟨_, hluma, _, ha, _, hb, hchroma, rfl⟩

/-- A valid header's planes can be put together from any pixels. -/
theorem exists_assemble (hrange : h.InRange) (g : FrameGrids)
    (pixels : Channels (List Bytes)) : ∃ frame, g.assemble h pixels = .ok frame := by
  obtain ⟨hroom, hchromaRoom⟩ := hrange.room
  obtain ⟨luma, hluma⟩ := g.luma.exists_assemble pixels.luma hroom
  obtain ⟨a, ha⟩ := g.chroma.exists_assemble pixels.chromaA hchromaRoom
  obtain ⟨b, hb⟩ := g.chroma.exists_assemble pixels.chromaB hchromaRoom
  obtain ⟨hwidth, hheight⟩ := BlockGrid.size_of_assemble hluma
  obtain ⟨hwidthA, hheightA⟩ := BlockGrid.size_of_assemble ha
  obtain ⟨hwidthB, hheightB⟩ := BlockGrid.size_of_assemble hb
  have hsizeA : (a.width, a.height) = h.chroma.chromaSize luma.width luma.height := by
    rw [hwidthA, hheightA, hwidth, hheight]
    rfl
  have hsizeB : (b.width, b.height) = h.chroma.chromaSize luma.width luma.height := by
    rw [hwidthB, hheightB, hwidth, hheight]
    rfl
  exact ⟨⟨h.chroma, ⟨luma, a, b⟩, hsizeA, hsizeB⟩, assemble_eq_ok_iff.mpr ⟨hluma, ha, hb, rfl⟩⟩

/-- An assembled frame has the size and chroma format that its header says. -/
theorem shape_of_assemble (hframe : g.assemble h pixels = .ok frame) :
    frame.chroma = h.chroma ∧ frame.width = h.width.toNat ∧ frame.height = h.height.toNat := by
  obtain ⟨hluma, -, -, hchroma⟩ := assemble_eq_ok_iff.mp hframe
  obtain ⟨hwidth, hheight⟩ := BlockGrid.size_of_assemble hluma
  exact ⟨hchroma, hwidth, hheight⟩

end FrameGrids

end HopCodec
