/-
Coded frames are short.  The blocks of a grid have no more samples together than their plane has
pixels, and a codeword has fourteen bits at most, so that the size of a payload always fits the
length field of a container.
-/
import HopCodec.Proofs.Frame.Size

namespace HopCodec

/-- A sum over a raster of products is the product of a sum over columns and one over rows. -/
theorem sum_map_range_raster (f g : Nat → Nat) (width height : Nat) :
    ((List.range (width * height)).map fun i => f (i % width) * g (i / width)).sum =
      ((List.range width).map f).sum * ((List.range height).map g).sum := by
  rw [map_range_raster fun x y => f x * g y, List.flatMap_def, List.sum_flatten, List.map_map,
    ← List.sum_map_mul_left]
  simp only [Function.comp_def, List.sum_map_mul_right]

/-- The pieces of an axis are as long together as the axis. -/
theorem Cuts.sum_lengths {bounds : Array Nat} {len n : Nat} (h : Cuts bounds len n) :
    ((List.range n).map fun i => bounds.getD (i + 1) 0 - bounds.getD i 0).sum = len := by
  have hfront : ∀ k, k ≤ n →
      ((List.range k).map fun i => bounds.getD (i + 1) 0 - bounds.getD i 0).sum =
        bounds.getD k 0 := by
    intro k
    induction k with
    | zero => exact fun _ => h.first.symm
    | succ k ih =>
        intro hk
        have hstep := h.rising k hk
        rw [List.range_succ, List.map_append, List.sum_append, ih (Nat.le_of_succ_le hk)]
        simp only [List.map_cons, List.map_nil, List.sum_cons, List.sum_nil]
        omega
  exact (hfront n (Nat.le_refl n)).trans h.last

namespace BlockGrid

/-- No more samples are coded of a plane than it has pixels. -/
theorem Tiles.sampleCount_le_area {g : BlockGrid} {width height : Nat} (h : g.Tiles width height) :
    g.sampleCount ≤ width * height := by
  let columnLength (i : Nat) := g.xBounds.getD (i + 1) 0 - g.xBounds.getD i 0
  let rowLength (i : Nat) := g.yBounds.getD (i + 1) 0 - g.yBounds.getD i 0
  have hblocks : List.Forall₂ (· ≤ ·) (g.blocks.toList.map Block.sampleCount)
      ((List.range (g.blocksW * g.blocksH)).map fun i =>
        columnLength (i % g.blocksW) * rowLength (i / g.blocksW)) := by
    rw [List.forall₂_iff_get]
    refine ⟨by simp [h.size_blocks], fun i hi _ => ?_⟩
    have hsize : i < g.blocks.size := by simpa using hi
    have hplaced := h.placed i hsize
    have hx := hplaced.x.samples_le
    have hy := hplaced.y.samples_le
    rw [Axis.length, hplaced.x.start_eq, hplaced.x.stop_eq] at hx
    rw [Axis.length, hplaced.y.start_eq, hplaced.y.stop_eq] at hy
    have hsamples : g.blocks[i].sampleCount ≤
        columnLength (i % g.blocksW) * rowLength (i / g.blocksW) := Nat.mul_le_mul hx hy
    simpa using hsamples
  calc g.sampleCount = (g.blocks.toList.map Block.sampleCount).sum := g.sampleCount_eq_sum
    _ ≤ ((List.range (g.blocksW * g.blocksH)).map fun i =>
          columnLength (i % g.blocksW) * rowLength (i / g.blocksW)).sum := hblocks.sum_le_sum
    _ = width * height := by
        rw [sum_map_range_raster, h.xCuts.sum_lengths, h.yCuts.sum_lengths]

end BlockGrid

/-- A codeword has fourteen bits at most. -/
theorem CodeTable.Sound.length_symbolBits_le {t : CodeTable} (ht : t.Sound) (h : Hop) :
    (t.symbolBits h).length ≤ maxCodeLength := by
  rw [symbolBits]
  cases hcode : t.code? h with
  | none => exact Nat.zero_le _
  | some c => exact (Codeword.length_bits c).trans_le (ht.length_le h c hcode)

theorem CodeTable.Sound.length_flatMap_le {t : CodeTable} (ht : t.Sound) (hops : List Hop) :
    (hops.flatMap t.symbolBits).length ≤ maxCodeLength * hops.length := by
  induction hops with
  | nil => exact Nat.zero_le _
  | cons h rest ih =>
      have hsymbol := ht.length_symbolBits_le h
      rw [List.flatMap_cons, List.length_append, List.length_cons, Nat.mul_succ]
      omega

namespace Coding

variable {m : Model} {s : Settings} {f : Frame} {mesh : Option RelevanceMesh}
  (c : Coding m s f mesh) (hs : s.validate = .ok ())

include hs

/-- No more samples are coded than all three planes have pixels at full resolution. -/
theorem sampleCount_le : c.grids.sampleCount ≤ 3 * FrameHeader.pixelsMax := by
  have fit := c.fit hs
  obtain ⟨hareaL, hareaC⟩ := c.inRange.area_le
  have hluma := fit.luma.sampleCount_le_area
  have hchroma := fit.chroma.sampleCount_le_area
  rw [FrameGrids.sampleCount]
  omega

/-- The symbols of a frame take fourteen bits for each sample at most. -/
theorem length_symbolBits_le : c.symbolBits.length ≤ maxCodeLength * c.grids.sampleCount := by
  obtain ⟨hluma, hchroma⟩ := c.tables_sound hs
  have hl := hluma.length_flatMap_le (Model.hopsOf c.blocks.luma)
  have ha := hchroma.length_flatMap_le (Model.hopsOf c.blocks.chromaA)
  have hb := hchroma.length_flatMap_le (Model.hopsOf c.blocks.chromaB)
  have hlengthL : (Model.hopsOf c.blocks.luma).length = c.grids.luma.sampleCount :=
    Model.length_hopsOf ..
  have hlengthA : (Model.hopsOf c.blocks.chromaA).length = c.grids.chroma.sampleCount :=
    Model.length_hopsOf ..
  have hlengthB : (Model.hopsOf c.blocks.chromaB).length = c.grids.chroma.sampleCount :=
    Model.length_hopsOf ..
  rw [maxCodeLength] at *
  rw [symbolBits, FrameGrids.sampleCount, List.length_append, List.length_append]
  omega

/-- A prologue is short: three bytes for each block and a few bits for each corner. -/
theorem length_prologue_le : c.prologue.bits.length ≤ 2 ^ 21 := by
  have hlength := (c.sendable hs).length_bits
  have hblocks : c.prologue.header.blocksW.toNat * c.prologue.header.blocksH.toNat ≤ 255 * 255 :=
    Nat.mul_le_mul (Nat.le_of_lt_succ (UInt8.toNat_lt _)) (Nat.le_of_lt_succ (UInt8.toNat_lt _))
  have hcorners : (c.prologue.header.blocksW.toNat + 1) * (c.prologue.header.blocksH.toNat + 1) ≤
      256 * 256 :=
    Nat.mul_le_mul (UInt8.toNat_lt _) (UInt8.toNat_lt _)
  split at hlength <;> omega

end Coding

/-- The size of a coded frame fits the length field of a container. -/
theorem Codec.size_bytes_lt (c : Codec) {f : Frame} {e : CodedFrame} (he : c.encode f = .ok e) :
    e.bytes.size < 2 ^ 32 := by
  obtain ⟨mesh, hcoded, ⟨coding⟩⟩ := c.coding_of_encode (.inl he)
  obtain ⟨hsize, -⟩ := coding.size_bytes (coding.yields hcoded)
  have hprologue := coding.length_prologue_le c.valid
  have hsymbols := coding.length_symbolBits_le c.valid
  have hsamples := coding.sampleCount_le c.valid
  rw [coding.length_symbolBits] at hsymbols
  rw [FrameHeader.pixelsMax] at hsamples
  rw [maxCodeLength] at hsymbols
  omega

end HopCodec
