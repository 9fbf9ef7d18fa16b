/-
Flat frames are lossless.  Where a plane has one value all over, every block is coded with null hops
alone, whether it drops samples or not, and every pixel comes back as it was.
-/
import HopCodec.Proofs.Block.Flat
import HopCodec.Proofs.Frame.Independence
import HopCodec.Proofs.Frame.Transmission
import HopCodec.Proofs.Frame.Visible
import HopCodec.Proofs.Prediction.Flat

namespace HopCodec

open Machine (Modest)

namespace Plane

def Flat (p : Plane) (v : UInt8) : Prop :=
  ∀ x < p.width, ∀ y < p.height, p.get x y = v

instance (p : Plane) (v : UInt8) : Decidable (p.Flat v) :=
  inferInstanceAs (Decidable (∀ x < p.width, ∀ y < p.height, p.get x y = v))

namespace Flat

variable {p q : Plane} {v : UInt8}

/-- Any rectangle of a flat plane is flat. -/
theorem crop_eq (h : p.Flat v) {x y width height : Nat} (hwide : x + width ≤ p.width)
    (hhigh : y + height ≤ p.height) :
    p.crop x y width height = Array.replicate (width * height) v := by
  apply bytes_ext
  · rw [size_crop, Array.size_replicate]
  · intro i hi
    rw [size_crop] at hi
    have hcolumn := BlockGrid.mod_lt_of_lt_mul hi
    have hrow := BlockGrid.div_lt_of_lt_mul hi
    rw [getD_crop p hi, getD_replicate hi]
    exact h _ (by omega) _ (by omega)

theorem toPacked_eq (h : p.Flat v) : p.toPacked = Array.replicate (p.width * p.height) v := by
  rw [toPacked_eq_crop]
  exact h.crop_eq (Nat.zero_add _).le (Nat.zero_add _).le

/-- Flat planes of one size and value look alike. -/
theorem looksLike (hp : p.Flat v) (hq : q.Flat v) (hwidth : p.width = q.width)
    (hheight : p.height = q.height) : p.LooksLike q :=
  ⟨hwidth, hheight, by rw [hp.toPacked_eq, hq.toPacked_eq, hwidth, hheight]⟩

end Flat

end Plane

theorem BlockGrid.pixelAt_replicate {b : Block} {width height x y : Nat}
    (h : Inside b width height) (hcovers : b.Covers x y) (v : UInt8) :
    pixelAt (b, Array.replicate (b.width * b.height) v) x y = v := by
  obtain ⟨⟨hleft, hright⟩, htop, hbottom⟩ := hcovers
  have hx := h.x_stop
  have hy := h.y_stop
  have hcolumn : x - b.x.start < b.width := by omega
  have hrow : y - b.y.start < b.height := by omega
  exact getD_replicate (raster_index hcolumn hrow).1 v

namespace Predictor

variable {b : Block} {width height : Nat} (hb : b.Within width height) (v : UInt8)

include hb

/-- The samples of a flat block. -/
theorem blockSamples_replicate :
    blockSamples b (Array.replicate (b.width * b.height) v) = Array.replicate b.sampleCount v := by
  unfold blockSamples
  split
  · exact BlockCells.downsample_replicate (Machine.cuts_cells hb.x .horizontal)
      (Machine.cuts_cells hb.y .vertical) v
  · next hkept =>
      obtain ⟨hx, hy⟩ := hb.samples_eq (Bool.eq_false_of_not_eq_true hkept)
      rw [Block.sampleCount, hx, hy]

variable {v}

/-- The pixels of a flat scan. -/
theorem blockPixels_flat (hwidth : Modest width) (hheight : Modest height) {scan : Scan}
    (hscan : scan.Flat v) (hsize : scan.size = b.sampleCount) :
    blockPixels b scan = Array.replicate (b.width * b.height) v := by
  unfold blockPixels
  rw [hscan.values_eq, hsize]
  split
  · have hwide : b.width ≤ 0x8000 := hb.x.length_le.trans hwidth.le
    have hhigh : b.height ≤ 0x8000 := hb.y.length_le.trans hheight.le
    exact BlockCells.upsample_replicate (Machine.cuts_cells hb.x .horizontal)
      (Machine.cuts_cells hb.y .vertical) (by omega) (by omega) v
  · next hkept =>
      obtain ⟨hx, hy⟩ := hb.samples_eq (Bool.eq_false_of_not_eq_true hkept)
      rw [Block.sampleCount, hx, hy]

/-- A flat block is coded with null hops and comes back flat. -/
theorem codeBlock_flat (p : Predictor) (ht : p.tables.Swept) (hnull : p.tables.NullKeeps)
    (hratio : ratioMin ≤ p.ratio ∧ p.ratio ≤ ratioMax) (hv : 1 ≤ v) {plane : Plane}
    (hplane : plane.Flat v) (hwide : width = plane.width) (hhigh : height = plane.height)
    (hwidth : Modest width) (hheight : Modest height) :
    (p.codeBlock plane b).hops = Array.replicate b.sampleCount .null ∧
      (p.codeBlock plane b).pixels = Array.replicate (b.width * b.height) v := by
  have hcrop : plane.crop b.x.start b.y.start b.width b.height =
      Array.replicate (b.width * b.height) v :=
    hplane.crop_eq (hwide ▸ hb.x.start_add_length) (hhigh ▸ hb.y.start_add_length)
  have hscan : (p.encodeBlock b.x.samples b.y.samples (Array.replicate b.sampleCount v)).Flat v :=
    p.flat_encodeBlock b.x.samples ht hnull hratio hv b.y.samples
  have hsize : (p.encodeBlock b.x.samples b.y.samples
      (Array.replicate b.sampleCount v)).size = b.sampleCount := p.size_scan ..
  simp only [codeBlock, hcrop, blockSamples_replicate hb]
  exact ⟨hscan.hops_eq.trans (by rw [hsize]), blockPixels_flat hb hwidth hheight hscan hsize⟩

end Predictor

namespace Coding

variable {m : Model} {s : Settings} {f : Frame} {mesh : Option RelevanceMesh}

theorem planeSize_eq (c : Coding m s f mesh) (k : Channel) :
    c.header.planeSize k = ((f.planes.get k).width, (f.planes.get k).height) := by
  obtain ⟨hluma, hchromaA, hchromaB⟩ := c.plane_sizes
  cases k
  · exact hluma
  · exact hchromaA
  · exact hchromaB

theorem modest_planeSize (c : Coding m s f mesh) (k : Channel) :
    Modest (c.header.planeSize k).1 ∧ Modest (c.header.planeSize k).2 := by
  obtain ⟨hluma, hchroma⟩ := c.inRange.modest
  cases k
  · exact hluma
  · exact hchroma
  · exact hchroma

variable (c : Coding m s f mesh) (hs : s.validate = .ok ()) (ht : m.tables.Swept)
  (hnull : m.tables.NullKeeps) {k : Channel} {v : UInt8} (hv : 1 ≤ v)
  (hflat : (f.planes.get k).Flat v)

include c hs ht hnull hv hflat

/-- All blocks of a flat plane are coded with null hops and come back flat. -/
theorem flat_blocks {b : Block} (hb : b ∈ (c.grids.channels.get k).blocks.toList) :
    (c.predictor.codeBlock (f.planes.get k) b).hops = Array.replicate b.sampleCount .null ∧
      (c.predictor.codeBlock (f.planes.get k) b).pixels =
        Array.replicate (b.width * b.height) v := by
  obtain ⟨hwidth, hheight⟩ := c.modest_planeSize k
  have hsize := c.planeSize_eq k
  rw [← c.ratio_eq.2.1] at ht hnull
  exact Predictor.codeBlock_flat (((c.fit hs).tiles k).within hb) c.predictor ht hnull
    (c.ratio_range hs) hv hflat (congrArg Prod.fst hsize) (congrArg Prod.snd hsize) hwidth hheight

theorem null_of_mem_blocks {block : CodedBlock} (hblock : block ∈ c.blocks.get k) :
    ∀ hop ∈ block.hops, hop = .null := by
  rw [c.get_blocks] at hblock
  obtain ⟨b, hb, rfl⟩ := List.mem_map.mp hblock
  rw [(c.flat_blocks hs ht hnull hv hflat hb).1]
  exact fun hop hmem => Array.eq_of_mem_replicate hmem

/-- The reconstruction of a flat plane looks like it. -/
theorem looksLike_reconstruction {e : CodedFrame} (he : m.encodeFrame s f mesh = .ok e) :
    (e.reconstruction.planes.get k).LooksLike (f.planes.get k) := by
  have htiles := (c.fit hs).tiles k
  have hsize := c.planeSize_eq k
  obtain ⟨hwidth, hheight⟩ :=
    BlockGrid.size_of_assemble (FrameGrids.plane_of_assemble (c.yields he).frame_eq k)
  refine Plane.Flat.looksLike (fun x hx y hy => ?_) hflat (hwidth.trans (congrArg Prod.fst hsize))
    (hheight.trans (congrArg Prod.snd hsize))
  obtain ⟨i, ⟨hi, hcovers⟩, -⟩ := htiles.covering.pixel x (hwidth ▸ hx) y (hheight ▸ hy)
  rw [c.get_reconstruction hs he k hi hcovers,
    (c.flat_blocks hs ht hnull hv hflat (Array.getElem_mem_toList hi)).2]
  exact BlockGrid.pixelAt_replicate (htiles.inside hi) hcovers v

end Coding

namespace Codec

/-- Flat frames are lossless.  Whatever the settings and the mesh, a frame whose planes are flat and
not zero is coded with null hops alone, and it decodes to the same pixels. -/
theorem flat_lossless (c : Codec) (ht : c.model.tables.Swept) (hnull : c.model.tables.NullKeeps)
    (f : Frame) (values : Channels UInt8)
    (hflat : ∀ k, 1 ≤ values.get k ∧ (f.planes.get k).Flat (values.get k)) (e : CodedFrame)
    (he : c.encode f = .ok e ∨ ∃ mesh, c.encodeWithMesh f mesh = .ok e) :
    (∃ t, Transmission.receive c.model.pow e.bytes = .ok t ∧
      ∀ k, ∀ hops ∈ t.hops.get k, ∀ hop ∈ hops, hop = .null) ∧
    ∃ d, c.decode e.bytes = .ok d ∧ d.frame.LooksLike f := by
  obtain ⟨mesh, hcoded, ⟨coding⟩⟩ := c.coding_of_encode he
  obtain ⟨_, _, hreceive, -⟩ := coding.exists_receive c.valid hcoded
  obtain ⟨n, hdecode⟩ := decode_of_encodeFrame c.valid hcoded
  have hlooks (k : Channel) : (e.reconstruction.planes.get k).LooksLike (f.planes.get k) :=
    coding.looksLike_reconstruction c.valid ht hnull (hflat k).1 (hflat k).2 hcoded
  refine ⟨⟨_, hreceive, fun k hops hmem => ?_⟩, _, hdecode, ?_⟩
  · rw [Channels.get_map] at hmem
    obtain ⟨block, hblock, rfl⟩ := List.mem_map.mp hmem
    exact coding.null_of_mem_blocks c.valid ht hnull (hflat k).1 (hflat k).2 hblock
  · have hchroma := (FrameGrids.shape_of_assemble (coding.yields hcoded).frame_eq).1
    exact ⟨hchroma.trans coding.header_chroma, hlooks .luma, hlooks .chromaA, hlooks .chromaB⟩

/-- Two blocks that keep as few samples as they may, with a value of its own for each plane. -/
theorem flat_lossless_twoBlocks :
    let c : Codec := ⟨⟨.ofLadders fun _ => Ladder.even, Float32.pow⟩,
      { mode := .advanced, blocksW := 2, blocksH := 1 }, rfl⟩
    let luma : Plane := ⟨8, 4, 8, Array.replicate 32 70, by decide, .inr (by decide)⟩
    let chromaA : Plane := ⟨4, 2, 4, Array.replicate 8 1, by decide, .inr (by decide)⟩
    let chromaB : Plane := ⟨4, 2, 4, Array.replicate 8 255, by decide, .inr (by decide)⟩
    let f : Frame := ⟨.yuv420, ⟨luma, chromaA, chromaB⟩, by decide, by decide⟩
    ∃ e, c.encodeWithMesh f (.uniform 2 1 .zero) = .ok e ∧
      (∃ t, Transmission.receive c.model.pow e.bytes = .ok t ∧
        ∀ k, ∀ hops ∈ t.hops.get k, ∀ hop ∈ hops, hop = .null) ∧
      ∃ d, c.decode e.bytes = .ok d ∧ d.frame.LooksLike f := by
  intro c luma chromaA chromaB f
  have hheader : Model.headerOf c.settings f = .ok (c.settings.header .yuv420 8 4) :=
    Model.headerOf_eq_ok_iff.mpr ⟨by decide, rfl, by decide +kernel⟩
  have hfits : Model.MeshFits (c.settings.header .yuv420 8 4) (some (.uniform 2 1 .zero)) := by
    intro given hgiven
    cases hgiven
    exact ⟨rfl, rfl⟩
  obtain ⟨coding⟩ := Model.exists_coding c.model c.valid hheader fun _ => hfits
  obtain ⟨e, he, -⟩ := coding.exists_encodeFrame
  have hcoded : c.encodeWithMesh f (.uniform 2 1 .zero) = .ok e :=
    c.encodeWithMesh_eq_ok_iff.mpr ⟨rfl, he⟩
  refine ⟨e, hcoded, flat_lossless c (Tables.swept_ofLadders fun _ => Ladder.ordered_even)
    (fun _ step _ _ _ _ _ => Ladder.null_even step) f ⟨70, 1, 255⟩ (fun k => ?_) e
    (.inr ⟨_, hcoded⟩)⟩
  cases k <;> decide

end Codec

end HopCodec
