/-
The prologue of a frame.  What a writer puts before the hop symbols is read back field by field:
header, seeds, both tables with the same codewords, and in advanced mode quality and mesh.
-/
import HopCodec.Frame.Prologue
import HopCodec.Proofs.Frame.Header
import HopCodec.Proofs.Huffman.Symbols

namespace HopCodec

open BitWriter Reading

namespace RelevanceLevel

theorem ofIndex?_index (l : RelevanceLevel) : ofIndex? l.index = some l := by
  simp [ofIndex?]

theorem index_lt (l : RelevanceLevel) : l.index.val < 2 ^ RelevanceMesh.levelBits := by
  have hlt := l.index.isLt
  have hroom : 6 ≤ 2 ^ RelevanceMesh.levelBits := by decide
  omega

end RelevanceLevel

namespace RelevanceMesh

def cornerBits (c : RelevanceCorner) : List Bool :=
  spell c.x.index levelBits ++ spell c.y.index levelBits

def bits (m : RelevanceMesh) : List Bool :=
  m.corners.toList.flatMap cornerBits

theorem writes_writeCorner (c : RelevanceCorner) :
    Writes (fun w => writeCorner w c) (cornerBits c) :=
  (writes_writeBits c.x.index levelBits).comp (writes_writeBits c.y.index levelBits)

theorem writes_write (m : RelevanceMesh) : Writes (fun w => m.write w) m.bits :=
  Writes.foldl m.corners.toList fun c _ => writes_writeCorner c

theorem reads_readCorner (c : RelevanceCorner) : Reads readCorner (cornerBits c) c := by
  unfold readCorner cornerBits
  refine (Reading.reads_bits _ levelBits c.x.index_lt).bind ?_
  rw [← List.append_nil (spell c.y.index.val levelBits)]
  refine (Reading.reads_bits _ levelBits c.y.index_lt).bind ?_
  rw [RelevanceLevel.ofIndex?_index, RelevanceLevel.ofIndex?_index]
  exact .pure c

/-- A mesh is its corners in raster order. -/
theorem ofRaster_corners (m : RelevanceMesh) : ofRaster m.blocksW m.blocksH m.corners = m := by
  have hcorners : (ofRaster m.blocksW m.blocksH m.corners).corners = m.corners := by
    apply Array.ext
    · simp [ofRaster, ofFn, cornerCount, m.size_corners]
    · intro i hi hi'
      have hplace : i / (m.blocksW + 1) * (m.blocksW + 1) + i % (m.blocksW + 1) = i :=
        Nat.div_add_mod' i (m.blocksW + 1)
      simp [ofRaster, ofFn, hplace, hi']
  cases m with
  | mk blocksW blocksH corners size_corners =>
      simp only [ofRaster, ofFn, mk.injEq, true_and]
      exact hcorners

theorem reads_read (m : RelevanceMesh) : Reads (read m.blocksW m.blocksH) m.bits m := by
  have hlength : m.corners.toList.length = cornerCount m.blocksW m.blocksH := by
    rw [Array.length_toList, m.size_corners, cornerCount]
  have hcorners := Reads.list m.corners.toList fun c _ => reads_readCorner c
  rw [hlength] at hcorners
  have hreads := hcorners.map fun corners => ofRaster m.blocksW m.blocksH corners.toArray
  rw [Array.toArray_toList, ofRaster_corners] at hreads
  exact hreads

end RelevanceMesh

namespace Prologue

def seedBits (seeds : List UInt8) : List Bool :=
  seeds.flatMap fun s => spell s.toNat 8

def samplingBits : Option Sampling → List Bool
  | none => []
  | some s => spell s.quality.toNat 8 ++ s.mesh.bits

def bits (p : Prologue) : List Bool :=
  p.header.bits ++ p.seeds.toList.flatMap seedBits ++ p.chromaTable.headerBits ++
    p.lumaTable.headerBits ++ samplingBits p.sampling

theorem writes_writeSeeds (seeds : List UInt8) :
    Writes (fun w => writeSeeds w seeds) (seedBits seeds) :=
  Writes.foldl seeds fun s _ => writes_writeByte s

theorem writes_writeSampling (s : Option Sampling) :
    Writes (fun w => writeSampling w s) (samplingBits s) := by
  cases s with
  | none => exact .nothing
  | some s =>
      have hboth := (writes_writeByte s.quality).comp s.mesh.writes_write
      exact hboth

theorem writes_write (p : Prologue) : Writes (fun w => p.write w) p.bits := by
  have hseeds := Writes.foldl p.seeds.toList fun seeds _ => writes_writeSeeds seeds
  have hheader := p.header.writes_write.comp hseeds
  have htables := (hheader.comp p.chromaTable.writes_writeLengths).comp
    p.lumaTable.writes_writeLengths
  have hall := htables.comp (writes_writeSampling p.sampling)
  exact hall

theorem reads_seeds (seeds : List UInt8) :
    Reads (Reading.list Reading.byte seeds.length) (seedBits seeds) seeds :=
  Reads.list seeds fun s _ => reads_byte s

/-- A sampling belongs to a header if there is one in advanced mode alone, its quality is in range
and its mesh has the header's block counts. -/
def SamplingFits (h : FrameHeader) : Option Sampling → Prop
  | none => h.mode ≠ .advanced
  | some s => h.mode = .advanced ∧ s.quality ≤ Sampling.qualityMax ∧
      s.mesh.blocksW = h.blocksW.toNat ∧ s.mesh.blocksH = h.blocksH.toNat

theorem reads_readSampling {h : FrameHeader} {s : Option Sampling} (hs : SamplingFits h s) :
    Reads (readSampling h) (samplingBits s) s := by
  unfold readSampling
  cases s with
  | none =>
      rw [if_neg hs]
      exact .pure none
  | some s =>
      obtain ⟨hmode, hquality, hblocksW, hblocksH⟩ := hs
      have hinRange : ¬ Sampling.qualityMax < s.quality := UInt8.not_lt.mpr hquality
      have hmesh := s.mesh.reads_read.map fun mesh => some (Sampling.mk s.quality mesh)
      rw [hblocksW, hblocksH] at hmesh
      rw [if_pos hmode]
      refine (reads_byte s.quality).bind ?_
      rw [if_neg hinRange]
      exact hmesh

/-- A prologue that an encoder may send: its header is valid, it has one seed per block and
tables of feasible lengths, and its sampling belongs to the header. -/
structure Sendable (p : Prologue) (full : FrameGrids) : Prop where
  valid : p.header.validate = .ok ()
  grids : p.header.grids = .ok full
  luma_seeds : p.seeds.luma.length = full.luma.blocks.size
  chromaA_seeds : p.seeds.chromaA.length = full.chroma.blocks.size
  chromaB_seeds : p.seeds.chromaB.length = full.chroma.blocks.size
  chroma_table : ∃ lengths counts, CodeTable.Feasible lengths ∧
    CodeTable.canonical lengths counts = .ok p.chromaTable
  luma_table : ∃ lengths counts, CodeTable.Feasible lengths ∧
    CodeTable.canonical lengths counts = .ok p.lumaTable
  sampling : SamplingFits p.header p.sampling

/-- A prologue is read back as it was sent, up to the counts in its tables. -/
theorem reads_read {p : Prologue} {full : FrameGrids} (h : p.Sendable full) (pow : Power)
    {sampled : FrameGrids} (hsampled : p.grids pow = .ok sampled) :
    ∃ chromaTable lumaTable,
      Reads (Prologue.read pow) p.bits
        (⟨p.header, p.seeds, chromaTable, lumaTable, p.sampling⟩, sampled) ∧
      (chromaTable.Sound ∧ ∀ hop, chromaTable.code? hop = p.chromaTable.code? hop) ∧
      (lumaTable.Sound ∧ ∀ hop, lumaTable.code? hop = p.lumaTable.code? hop) := by
  obtain ⟨chromaLengths, chromaCounts, hchromaFeasible, hchromaTable⟩ := h.chroma_table
  obtain ⟨lumaLengths, lumaCounts, hlumaFeasible, hlumaTable⟩ := h.luma_table
  obtain ⟨chromaTable, hchroma, hchromaCodes⟩ :=
    CodeTable.reads_read hchromaFeasible hchromaTable
  obtain ⟨lumaTable, hluma, hlumaCodes⟩ := CodeTable.reads_read hlumaFeasible hlumaTable
  refine ⟨chromaTable, lumaTable, ?_, hchromaCodes, hlumaCodes⟩
  have hfull : Reads (lift p.header.grids) [] full := by
    rw [h.grids]
    exact reads_lift_ok full
  have hgrids : Reads
      (lift ((⟨p.header, p.seeds, chromaTable, lumaTable, p.sampling⟩ : Prologue).grids pow)) []
      sampled := by
    rw [show (⟨p.header, p.seeds, chromaTable, lumaTable, p.sampling⟩ : Prologue).grids pow =
      p.grids pow from rfl, hsampled]
    exact reads_lift_ok sampled
  have hseedsL := reads_seeds p.seeds.luma
  have hseedsA := reads_seeds p.seeds.chromaA
  have hseedsB := reads_seeds p.seeds.chromaB
  rw [h.luma_seeds] at hseedsL
  rw [h.chromaA_seeds] at hseedsA
  rw [h.chromaB_seeds] at hseedsB
  have hreads : Reads (Prologue.read pow) _ _ :=
    (FrameHeader.reads_read p.header h.valid).bind (hfull.bind (hseedsL.bind (hseedsA.bind
      (hseedsB.bind (hchroma.bind (hluma.bind ((reads_readSampling h.sampling).bind
        (hgrids.bind (Reads.pure _)))))))))
  simpa [bits, Channels.toList, List.append_assoc] using hreads

end Prologue

end HopCodec
