/-
Frames as mosaics.  A plane that a coder or a decoder returns is blank at first and then pasted
over with the pixels of every block of a grid that tiles it: no pixel is left out, and none is
pasted twice.
-/
import HopCodec.Proofs.Block.Partition
import HopCodec.Proofs.Machine.Coded
import HopCodec.Proofs.Machine.Decoded

namespace HopCodec

open Reading

namespace BlockGrid

/-- A plane is pasted together from pixels for every block of a grid that covers it. -/
structure Mosaic (plane : Plane) (g : BlockGrid) (pixels : List Bytes) : Prop where
  pasted : ∃ blank, Plane.new? plane.width plane.height = .ok blank ∧
    plane = (g.blocks.toList.zip pixels).foldl pasteBlock blank
  sizes : List.Forall₂ (fun b pixels => pixels.size = b.width * b.height) g.blocks.toList pixels
  covering : g.Covering plane.width plane.height
  shown : ∀ i (hi : i < g.blocks.size) (hi' : i < pixels.length) x y,
    g.blocks[i].Covers x y → plane.get x y = pixelAt (g.blocks[i], pixels[i]) x y

theorem mosaic_of_assemble {g : BlockGrid} {width height : Nat} (h : g.Tiles width height)
    {pixels : List Bytes} {plane : Plane} (hplane : g.assemble width height pixels = .ok plane)
    (hsizes : List.Forall₂ (fun b pixels => pixels.size = b.width * b.height) g.blocks.toList
      pixels) :
    Mosaic plane g pixels := by
  obtain ⟨hwidth, hheight⟩ := size_of_assemble hplane
  refine ⟨?_, hsizes, ?_, ?_⟩
  · rw [hwidth, hheight]
    exact assemble_eq_ok_iff.mp hplane
  · rw [hwidth, hheight]
    exact h.covering
  · intro i hi hi' x y hcovers
    exact get_assemble h hplane hi hi' hcovers

end BlockGrid

namespace FrameGrids

structure Mosaic (frame : Frame) (g : FrameGrids) (pixels : Channels (List Bytes)) : Prop where
  luma : BlockGrid.Mosaic frame.planes.luma g.luma pixels.luma
  chromaA : BlockGrid.Mosaic frame.planes.chromaA g.chroma pixels.chromaA
  chromaB : BlockGrid.Mosaic frame.planes.chromaB g.chroma pixels.chromaB

end FrameGrids

namespace Model

/-- The pixels of coded blocks are as many as those of the blocks. -/
theorem sizes_codeBlock {g : BlockGrid} {width height : Nat} (h : g.Tiles width height)
    (p : Predictor) (plane : Plane) :
    List.Forall₂ (fun b pixels => pixels.size = b.width * b.height) g.blocks.toList
      ((g.blocks.toList.map (p.codeBlock plane)).map CodedBlock.pixels) := by
  rw [List.map_map, List.forall₂_map_right_iff, List.forall₂_same]
  exact fun b hb => Machine.Forecast.size_pixels_codeBlock (h.within hb) p plane

/-- The pixels of rebuilt blocks are as many as those of the blocks. -/
theorem sizes_rebuildBlocks {g : BlockGrid} {width height : Nat} (h : g.Tiles width height)
    (p : Predictor) {seeds : List UInt8} (hseeds : seeds.length = g.blocks.size)
    {hops : List (Array Hop)} (hhops : hops.length = g.blocks.size) :
    List.Forall₂ (fun b pixels => pixels.size = b.width * b.height) g.blocks.toList
      (rebuildBlocks p g seeds hops) := by
  rw [List.forall₂_iff_get]
  have hlength : (rebuildBlocks p g seeds hops).length = g.blocks.size := by
    simp [rebuildBlocks, hseeds, hhops]
  refine ⟨by rw [hlength, Array.length_toList], fun i hi hi' => ?_⟩
  have hwithin := h.within (List.getElem_mem hi)
  simp only [rebuildBlocks, List.get_eq_getElem, List.getElem_map, List.getElem_zip]
  exact Machine.Forecast.size_blockPixels hwithin (Predictor.size_scan _ _ _ _ _)

/-- A decoded frame is a mosaic of the blocks rebuilt from the seeds and hops of its stream. -/
theorem mosaic_of_decodeFrame {m : Model} {data : Bytes} {d : DecodedFrame}
    (hd : m.decodeFrame data = .ok d) :
    ∃ prologue g p hops r r',
      (Prologue.read m.pow).run (BitReader.ofBytes data) = .ok (prologue, g) r ∧
      prologue.header = d.header ∧
      Predictor.new? m.tables d.header.ratio.toNat d.header.prediction = .ok p ∧
      (readHops prologue.lumaTable prologue.chromaTable g).run r = .ok hops r' ∧
      g.Mosaic d.frame ⟨rebuildBlocks p g.luma prologue.seeds.luma hops.luma,
        rebuildBlocks p g.chroma prologue.seeds.chromaA hops.chromaA,
        rebuildBlocks p g.chroma prologue.seeds.chromaB hops.chromaB⟩ := by
  obtain ⟨r', hread⟩ := readFrame_of_decodeFrame hd
  obtain ⟨prologue, g, p, hops, r, hprologue, hheader, hp, hhops, hframe⟩ :=
    hops_of_readFrame hread
  have hreceived := Prologue.received_of_read hprologue
  have fit := hreceived.fit
  rw [hheader] at fit
  obtain ⟨hluma, hchromaA, hchromaB⟩ := sizes_of_readHops hhops
  obtain ⟨hlumaPlane, hchromaAPlane, hchromaBPlane, -⟩ := FrameGrids.assemble_eq_ok_iff.mp hframe
  refine ⟨prologue, g, p, hops, r, r', hprologue, hheader, hp, hhops, ?_, ?_, ?_⟩
  · exact BlockGrid.mosaic_of_assemble fit.luma hlumaPlane
      (sizes_rebuildBlocks fit.luma p hreceived.luma_seeds hluma.length_eq.symm)
  · exact BlockGrid.mosaic_of_assemble fit.chroma hchromaAPlane
      (sizes_rebuildBlocks fit.chroma p hreceived.chromaA_seeds hchromaA.length_eq.symm)
  · exact BlockGrid.mosaic_of_assemble fit.chroma hchromaBPlane
      (sizes_rebuildBlocks fit.chroma p hreceived.chromaB_seeds hchromaB.length_eq.symm)

end Model

/-- A reconstruction is a mosaic of the coded blocks. -/
theorem Coding.mosaic {m : Model} {s : Settings} {f : Frame} {mesh : Option RelevanceMesh}
    (c : Coding m s f mesh) (hs : s.validate = .ok ()) {e : CodedFrame}
    (he : m.encodeFrame s f mesh = .ok e) :
    c.grids.Mosaic e.reconstruction (c.blocks.map (·.map CodedBlock.pixels)) := by
  have fit := c.fit hs
  obtain ⟨hluma, hchromaA, hchromaB, -⟩ :=
    FrameGrids.assemble_eq_ok_iff.mp (c.yields he).frame_eq
  exact {
    luma := BlockGrid.mosaic_of_assemble fit.luma hluma (Model.sizes_codeBlock fit.luma _ _)
    chromaA := BlockGrid.mosaic_of_assemble fit.chroma hchromaA
      (Model.sizes_codeBlock fit.chroma _ _)
    chromaB := BlockGrid.mosaic_of_assemble fit.chroma hchromaB
      (Model.sizes_codeBlock fit.chroma _ _) }

namespace Codec

open Machine (wordSize)

/-- Blocks tile.  As long as sides times block counts fit into a word, the machine cuts planes as
the plain grid does: there is a grid exactly if no row or column of blocks would be empty, its
blocks cover the plane once, stand in raster order and differ by at most a pixel in width and in
height, and every subsampled grid has as many blocks, which cover the chroma plane once.  Frames
that are coded or decoded are pasted together from the blocks of such grids. -/
theorem blocks_tile :
    (∀ width height blocksW blocksH : Nat, blocksW * width < wordSize →
      blocksH * height < wordSize →
        Machine.Grid.partition width height blocksW blocksH =
          Machine.lift (BlockGrid.partition width height blocksW blocksH) ∧
        ((∃ g, BlockGrid.partition width height blocksW blocksH = .ok g) ↔
          (1 ≤ blocksW ∧ blocksW ≤ width) ∧ 1 ≤ blocksH ∧ blocksH ≤ height) ∧
        ∀ g, BlockGrid.partition width height blocksW blocksH = .ok g →
          g.blocks.size = blocksW * blocksH ∧ g.Covering width height ∧
          g.blocks.toList.Pairwise Block.Precedes ∧
          (∀ a ∈ g.blocks, ∀ b ∈ g.blocks, a.width ≤ b.width + 1 ∧ a.height ≤ b.height + 1) ∧
          ∀ chroma : ChromaFormat,
            Machine.Grid.subsample g chroma.factors.1 chroma.factors.2 =
              Machine.lift (g.subsample chroma.factors.1 chroma.factors.2) ∧
            ∀ g', g.subsample chroma.factors.1 chroma.factors.2 = .ok g' →
              g'.blocks.size = g.blocks.size ∧
                g'.Covering (chroma.chromaSize width height).1
                  (chroma.chromaSize width height).2) ∧
    ∀ c : Codec,
      (∀ f e, c.encode f = .ok e → ∃ coding : Coding c.model c.settings f none,
        coding.grids.Mosaic e.reconstruction (coding.blocks.map (·.map CodedBlock.pixels))) ∧
      (∀ f mesh e, c.encodeWithMesh f mesh = .ok e →
        ∃ coding : Coding c.model c.settings f (some mesh),
          coding.grids.Mosaic e.reconstruction (coding.blocks.map (·.map CodedBlock.pixels))) ∧
      ∀ data d, c.decode data = .ok d →
        ∃ prologue g p hops r r',
          (Prologue.read c.model.pow).run (BitReader.ofBytes data) = .ok (prologue, g) r ∧
          prologue.header = d.header ∧
          Predictor.new? c.model.tables d.header.ratio.toNat d.header.prediction = .ok p ∧
          (Model.readHops prologue.lumaTable prologue.chromaTable g).run r = .ok hops r' ∧
          g.Mosaic d.frame ⟨Model.rebuildBlocks p g.luma prologue.seeds.luma hops.luma,
            Model.rebuildBlocks p g.chroma prologue.seeds.chromaA hops.chromaA,
            Model.rebuildBlocks p g.chroma prologue.seeds.chromaB hops.chromaB⟩ := by
  refine ⟨?_, fun c => ⟨?_, ?_, fun data d => Model.mosaic_of_decodeFrame⟩⟩
  · intro width height blocksW blocksH hwidth hheight
    refine ⟨Machine.Grid.partition_eq hwidth hheight, BlockGrid.exists_partition_iff, ?_⟩
    intro g hg
    have htiles := BlockGrid.tiles_partition hg
    obtain ⟨hblocksW, hblocksH⟩ := BlockGrid.blocks_partition hg
    obtain ⟨⟨-, hleW⟩, -, hleH⟩ := BlockGrid.exists_partition_iff.mp ⟨g, hg⟩
    have hsize : g.blocks.size = blocksW * blocksH := by
      rw [htiles.size_blocks, hblocksW, hblocksH]
    have hcount : g.blocks.size < wordSize := by
      rw [hsize]
      exact Nat.mul_lt_mul'' (Machine.Grid.count_lt_wordSize hleW hwidth)
        (Machine.Grid.count_lt_wordSize hleH hheight)
    refine ⟨hsize, htiles.covering, htiles.pairwise_precedes, ?_, ?_⟩
    · intro a ha b hb
      obtain ⟨⟨-, hwide⟩, -, hhigh⟩ := BlockGrid.sides_partition hg ha
      obtain ⟨⟨hnarrow, -⟩, hlow, -⟩ := BlockGrid.sides_partition hg hb
      exact ⟨Nat.le_trans hwide (Nat.succ_le_succ hnarrow),
        Nat.le_trans hhigh (Nat.succ_le_succ hlow)⟩
    · intro chroma
      obtain ⟨hfactorX, hfactorY⟩ := chroma.factors_pos
      refine ⟨Machine.Grid.subsample_eq htiles hcount hfactorX hfactorY, ?_⟩
      intro g' hg'
      have htiles' := BlockGrid.tiles_subsample htiles hfactorX hfactorY hg'
      obtain ⟨hsameW, hsameH⟩ := BlockGrid.blocks_subsample hg'
      refine ⟨?_, htiles'.covering⟩
      rw [htiles'.size_blocks, hsameW, hsameH, htiles.size_blocks]
  · intro f e he
    obtain ⟨coding⟩ := Model.coding_of_encodeFrame c.valid he
    exact ⟨coding, coding.mosaic c.valid he⟩
  · intro f mesh e he
    obtain ⟨-, hcoded⟩ := c.encodeWithMesh_eq_ok_iff.mp he
    obtain ⟨coding⟩ := Model.coding_of_encodeFrame c.valid hcoded
    exact ⟨coding, coding.mosaic c.valid hcoded⟩

/-- Five by three pixels in two by two blocks, subsampled both ways, and a picture in four blocks. -/
theorem blocks_tile_twoByTwo :
    (∃ g, BlockGrid.partition 5 3 2 2 = .ok g ∧ g.blocks.size = 4 ∧ g.Covering 5 3 ∧
      ∃ g', g.subsample 2 2 = .ok g' ∧ g'.blocks.size = 4 ∧ g'.Covering 3 2) ∧
    ∃ e, fourBlocks.encode .slope = .ok e ∧
      (∃ g pixels, FrameGrids.Mosaic e.reconstruction g pixels) ∧
      ∃ d, fourBlocks.decode e.bytes = .ok d ∧
        ∃ g pixels, FrameGrids.Mosaic d.frame g pixels := by
  obtain ⟨hgrids, hframes⟩ := blocks_tile
  obtain ⟨-, hexists, htiles⟩ := hgrids 5 3 2 2 (by decide) (by decide)
  obtain ⟨g, hg⟩ := hexists.mpr (by decide)
  obtain ⟨hsize, hcovering, -, -, hsubsample⟩ := htiles g hg
  have hok : ((BlockGrid.partition 5 3 2 2).bind fun g => g.subsample 2 2).isOk = true := by decide
  rw [hg] at hok
  obtain ⟨e, he⟩ := exists_encode_slope
  obtain ⟨hcoded, -, hdecoded⟩ := hframes fourBlocks
  obtain ⟨coding, hmosaic⟩ := hcoded _ e he
  obtain ⟨n, hd⟩ := decode_of_encodeFrame fourBlocks.valid he
  obtain ⟨prologue, grids, p, hops, r, r', -, -, -, -, hmosaic'⟩ := hdecoded _ _ hd
  refine ⟨⟨g, hg, hsize, hcovering, ?_⟩, e, he, ⟨_, _, hmosaic⟩, _, hd, _, _, hmosaic'⟩
  obtain ⟨-, hchroma⟩ := hsubsample .yuv420
  rcases hg' : g.subsample 2 2 with fault | g'
  · simp [Except.bind, hg', Except.isOk, Except.toBool] at hok
  · obtain ⟨hcount, hcovering'⟩ := hchroma g' hg'
    exact ⟨g', rfl, hcount.trans hsize, hcovering'⟩

end Codec

end HopCodec
