/-
Headers and prologues on the machine.  The range checks come before anything is computed from the
fields, so the grids of a header are cut without leaving a word.
-/
import HopCodec.Machine.Header
import HopCodec.Proofs.Frame.Received
import HopCodec.Proofs.Machine.Canvas
import HopCodec.Proofs.Machine.Shape
import HopCodec.Proofs.Machine.Table

namespace HopCodec

namespace Machine

namespace Header

variable {h : FrameHeader}

theorem chromaSize_eq (h : FrameHeader) : chromaSize h = .ok h.chromaSize :=
  Machine.chromaSize_eq _ _ _

/-- As many blocks as a byte counts, times any valid side, fit into a word. -/
theorem blocks_mul_lt (blocks : UInt8) {len : Nat} (hlen : len ≤ FrameHeader.dimensionMax) :
    blocks.toNat * len < wordSize :=
  Nat.lt_of_le_of_lt (Nat.mul_le_mul (Nat.le_of_lt blocks.toNat_lt) hlen) (by decide)

theorem size_blocks_lt {g : BlockGrid} {width height : Nat} (hg : g.Tiles width height)
    (hW : g.blocksW = h.blocksW.toNat) (hH : g.blocksH = h.blocksH.toNat) :
    g.blocks.size < wordSize := by
  rw [hg.size_blocks, hW, hH]
  exact blocks_mul_lt _ (Nat.le_trans (Nat.le_of_lt h.blocksH.toNat_lt) (by decide))

/-- The grids of a header whose fields are in range. -/
theorem grids_eq (hrange : h.InRange) : grids h = lift h.grids := by
  obtain ⟨hfactorX, hfactorY⟩ := h.chroma.factors_pos
  unfold grids FrameHeader.grids
  rw [Grid.partition_eq (blocks_mul_lt _ hrange.width_le) (blocks_mul_lt _ hrange.height_le)]
  cases hluma : BlockGrid.partition h.width.toNat h.height.toNat h.blocksW.toNat
      h.blocksH.toNat with
  | error fault => rfl
  | ok luma =>
      have htiles := BlockGrid.tiles_partition hluma
      obtain ⟨hblocksW, hblocksH⟩ := BlockGrid.blocks_partition hluma
      have hcount := size_blocks_lt htiles hblocksW hblocksH
      rw [lift_bind, lift_ok, ok_bind, ok_bind, Grid.subsample_eq htiles hcount hfactorX hfactorY,
        lift_bind]
      cases hchroma : luma.subsample h.chroma.factors.1 h.chroma.factors.2 with
      | error fault => rfl
      | ok chroma =>
          have htiles' := BlockGrid.tiles_subsample htiles hfactorX hfactorY hchroma
          rw [lift_ok, ok_bind, ok_bind]
          by_cases hmode : h.mode = .advanced
          · rw [if_pos hmode, if_pos hmode, Grid.requireSide_eq htiles,
              Grid.requireSide_eq htiles']
            cases luma.requireSide sideMin with
            | error fault => rfl
            | ok _ => cases chroma.requireSide sideMin <;> rfl
          · rw [if_neg hmode, if_neg hmode]
            rfl

theorem checkFields_eq (h : FrameHeader) :
    checkFields h = h.fieldFault?.elim (.ok ()) fun fault => refuse (.header fault) := by
  unfold checkFields FrameHeader.fieldFault?
  by_cases hzero : h.width = 0 ∨ h.height = 0
  · rw [if_pos hzero, if_pos hzero]
    rfl
  rw [if_neg hzero, if_neg hzero]
  by_cases hlarge : FrameHeader.dimensionMax < h.width.toNat ∨
      FrameHeader.dimensionMax < h.height.toNat
  · rw [if_pos hlarge, if_pos hlarge]
    rfl
  rw [if_neg hlarge, if_neg hlarge]
  have hproduct : mul h.width.toNat h.height.toNat = .ok (h.width.toNat * h.height.toNat) := by
    obtain ⟨hwidth, hheight⟩ := not_or.mp hlarge
    have hword : FrameHeader.dimensionMax * FrameHeader.dimensionMax < wordSize := by decide
    exact mul_eq (Nat.lt_of_le_of_lt
      (Nat.mul_le_mul (Nat.not_lt.mp hwidth) (Nat.not_lt.mp hheight)) hword)
  rw [hproduct, ok_bind]
  split
  · rfl
  split
  · rfl
  split
  · rfl
  split
  · rfl
  split <;> rfl

theorem validate_eq (h : FrameHeader) : validate h = lift h.validate := by
  rw [validate, checkFields_eq, FrameHeader.validate]
  cases hfault : h.fieldFault? with
  | some fault => rfl
  | none =>
      rw [Option.elim_none, ok_bind, grids_eq ((FrameHeader.fieldFault?_eq_none_iff h).mp hfault)]
      cases h.grids <;> rfl

theorem modeByte_eq (h : FrameHeader) : modeByte h = .ok h.modeByte := by
  rw [modeByte, shiftLeft_eq (by decide), ok_bind, FrameHeader.modeByte]
  cases h.chroma <;> cases h.mode <;> rfl

theorem appends_write (h : FrameHeader) : Packer.Appends (write h) h.bits := by
  have hall := (Packer.appends_writeByte h.modeByte).comp
    ((Packer.appends_writeWord h.width).comp ((Packer.appends_writeWord h.height).comp
      ((Packer.appends_writeByte h.blocksW).comp ((Packer.appends_writeByte h.blocksH).comp
        (Packer.appends_writeByte h.parameterByte)))))
  have hwrite : write h = fun p => p.writeByte h.modeByte >>= fun p => p.writeWord h.width >>=
      fun p => p.writeWord h.height >>= fun p => p.writeByte h.blocksW >>=
        fun p => p.writeByte h.blocksH >>= fun p => p.writeByte h.parameterByte := by
    funext p
    rw [write, modeByte_eq]
    rfl
  rw [hwrite]
  simp only [FrameHeader.bits, List.append_assoc]
  exact hall

open Scanner

theorem follows_readFields : Follows readFields FrameHeader.readFields := by
  refine follows_byte.bind fun modeByte => ?_
  have hhigh : shiftRight 8 modeByte.toNat 4 = .ok (modeByte.toNat / 16) := by
    rw [shiftRight_eq (by decide), Nat.shiftRight_eq_div_pow]
  refine (Follows.lift rfl).bind fun mode => Follows.step hhigh ?_
  refine (Follows.lift rfl).bind fun chroma => ?_
  exact follows_word.bind fun width => follows_word.bind fun height => follows_byte.bind fun _ =>
    follows_byte.bind fun _ => follows_byte.bind fun _ => .pure _

theorem follows_read : Follows read FrameHeader.read :=
  follows_readFields.bind fun h => (Follows.lift (validate_eq h)).bind fun _ => .pure h

end Header

namespace Mesh

theorem appends_write (m : RelevanceMesh) : Packer.Appends (write m) m.bits :=
  .writeAll _ fun c _ =>
    (Packer.appends_writeBits (by decide) c.x.index_lt).comp
      (Packer.appends_writeBits (by decide) c.y.index_lt)

end Mesh

section Grids

variable {g : FrameGrids} {h : FrameHeader}

/-- Sampling the grids of an advanced header. -/
theorem sampleGrids_eq (hg : h.grids = .ok g) (hmode : h.mode = .advanced) (pow : Power)
    (s : Sampling) : sampleGrids pow g h.chroma s = lift (g.sample pow h.chroma s) := by
  obtain ⟨hfactorX, hfactorY⟩ := h.chroma.factors_pos
  have fit := FrameHeader.fit_of_grids hg
  obtain ⟨-, -, hsides⟩ := FrameHeader.grids_eq_ok_iff.mp hg
  have hW : g.luma.blocksW < 256 := fit.luma_blocks.1 ▸ h.blocksW.toNat_lt
  have hH : g.luma.blocksH < 256 := fit.luma_blocks.2 ▸ h.blocksH.toNat_lt
  rw [sampleGrids, applyMesh_eq fit.luma hW hH, FrameGrids.sample, lift_bind]
  by_cases hmesh : s.mesh.blocksW = g.luma.blocksW ∧ s.mesh.blocksH = g.luma.blocksH
  · obtain ⟨luma, hluma, htiles, hblocksW, hblocksH, -, -⟩ :=
      BlockGrid.exists_applyMesh fit.luma (hsides hmode).1 hmesh pow s.quality.toNat
    have hcount := Header.size_blocks_lt htiles (hblocksW.trans fit.luma_blocks.1)
      (hblocksH.trans fit.luma_blocks.2)
    rw [hluma, lift_ok, ok_bind, ok_bind, Grid.subsample_eq htiles hcount hfactorX hfactorY,
      lift_bind]
    rfl
  · have hother : s.mesh.blocksW ≠ g.luma.blocksW ∨ s.mesh.blocksH ≠ g.luma.blocksH := by omega
    rw [BlockGrid.applyMesh, if_pos hother]
    rfl

theorem sampleCount_lt (fit : g.Fit h) (hrange : h.InRange) : g.sampleCount < 0x1000000000000 := by
  have hluma := fit.luma.sampleCount_le_mul
  have hchroma := fit.chroma.sampleCount_le_mul
  obtain ⟨hareaL, hareaC⟩ := hrange.area_le
  rw [fit.luma_blocks.1, fit.luma_blocks.2] at hluma
  rw [fit.chroma_blocks.1, fit.chroma_blocks.2] at hchroma
  have hblocks : h.blocksW.toNat * h.blocksH.toNat ≤ 256 * 256 :=
    Nat.mul_le_mul (Nat.le_of_lt h.blocksW.toNat_lt) (Nat.le_of_lt h.blocksH.toNat_lt)
  have hluma' := Nat.le_trans hluma (Nat.mul_le_mul hblocks hareaL)
  have hchroma' := Nat.le_trans hchroma (Nat.mul_le_mul hblocks hareaC)
  rw [FrameHeader.pixelsMax] at hluma' hchroma'
  rw [FrameGrids.sampleCount]
  omega

/-- Counting the samples of all planes. -/
theorem totalSamples_eq (fit : g.Fit h) (hrange : h.InRange) :
    totalSamples g = .ok g.sampleCount := by
  have hword : (0x1000000000000 : Nat) < wordSize := by decide
  have hlt := sampleCount_lt fit hrange
  rw [FrameGrids.sampleCount] at hlt
  rw [totalSamples, Grid.totalSamples_eq (by omega), ok_bind, Grid.totalSamples_eq (by omega),
    ok_bind, mul_eq (by omega), ok_bind, add_eq (by omega)]
  rfl

end Grids

namespace Summary

def ofPrologue (p : Prologue) : Summary :=
  ⟨p.header, p.seeds, .ofPlain p.chromaTable, .ofPlain p.lumaTable, p.sampling⟩

theorem appends_write {p : Prologue} (hchroma : p.chromaTable.Sound) (hluma : p.lumaTable.Sound) :
    Packer.Appends (write (ofPrologue p)) p.bits := by
  have hseeds : Packer.Appends
      (Packer.writeAll (Packer.writeAll Packer.writeByte) p.seeds.toList)
      (p.seeds.toList.flatMap Prologue.seedBits) :=
    .writeAll _ fun _ _ => .writeAll _ fun seed _ => Packer.appends_writeByte seed
  have hsampling : Packer.Appends (writeSampling p.sampling) (Prologue.samplingBits p.sampling) := by
    rcases p.sampling with - | s
    · exact .nothing
    · exact (Packer.appends_writeByte s.quality).comp (Mesh.appends_write s.mesh)
  have hall := (Header.appends_write p.header).comp (hseeds.comp
    ((Table.appends_writeLengths hchroma).comp ((Table.appends_writeLengths hluma).comp
      hsampling)))
  simp only [Prologue.bits, List.append_assoc]
  exact hall

open Scanner

variable {h : FrameHeader} {full : FrameGrids}

/-- Reading a sampling and sampling the grids by it. -/
theorem follows_readSampling (pow : Power) (hfull : h.grids = .ok full)
    (seeds : Channels (List UInt8)) (chromaTable lumaTable : CodeTable) :
    Follows (readSampling pow h full) (do
      let sampling ← Prologue.readSampling h
      let grids ← Reading.lift
        (Prologue.grids pow ⟨h, seeds, chromaTable, lumaTable, sampling⟩)
      return (sampling, grids)) := by
  have fit := FrameHeader.fit_of_grids hfull
  have hW : full.luma.blocksW < 256 := fit.luma_blocks.1 ▸ h.blocksW.toNat_lt
  have hH : full.luma.blocksH < 256 := fit.luma_blocks.2 ▸ h.blocksH.toNat_lt
  have hmesh := Mesh.follows_read hW hH
  rw [fit.luma_blocks.1, fit.luma_blocks.2] at hmesh
  unfold readSampling Prologue.readSampling Prologue.grids
  rw [fit.luma_blocks.1, fit.luma_blocks.2]
  by_cases hmode : h.mode = .advanced
  · rw [if_pos hmode, if_pos hmode]
    simp only [bind_assoc, hfull]
    refine follows_byte.bind fun quality => ?_
    by_cases hquality : Sampling.qualityMax < quality
    · rw [if_pos hquality, if_pos hquality]
      exact .refuse _
    · rw [if_neg hquality, if_neg hquality]
      simp only [pure_bind, bind_assoc]
      refine hmesh.bind fun mesh => ?_
      exact (Follows.lift (sampleGrids_eq hfull hmode pow ⟨quality, mesh⟩)).bind
        fun grids => .pure _
  · rw [if_neg hmode, if_neg hmode]
    simp only [pure_bind, hfull]
    exact .pure _

theorem follows_read (pow : Power) :
    Follows (read pow) ((fun e => (ofPrologue e.1, e.2)) <$> Prologue.read pow) := by
  simp only [Prologue.read, map_bind]
  refine Header.follows_read.bind_run fun h r r' hread => ?_
  obtain ⟨hrange, -⟩ :=
    (FrameHeader.validate_eq_ok_iff h).mp (FrameHeader.valid_of_read hread)
  refine (Follows.lift (Header.grids_eq hrange)).bind_run fun full r r' hrun => ?_
  have hfull := (Reading.run_lift_eq_ok_iff.mp hrun).1
  refine (follows_byte.list _).bind fun luma => (follows_byte.list _).bind fun chromaA =>
    (follows_byte.list _).bind fun chromaB => ?_
  refine Table.follows_read.bind_map fun chromaTable _ _ _ =>
    Table.follows_read.bind_map fun lumaTable _ _ _ => ?_
  have hsampling := (follows_readSampling pow hfull ⟨luma, chromaA, chromaB⟩
    chromaTable lumaTable).bind fun e => Follows.pure
      (ofPrologue ⟨h, ⟨luma, chromaA, chromaB⟩, chromaTable, lumaTable, e.1⟩, e.2)
  simp only [bind_assoc, pure_bind] at hsampling
  exact hsampling

end Summary

end Machine

end HopCodec
