/-
Raw planar sequences on the machine.  The planes of a chunk lie one behind the other and fill it,
whether the sides of the frame are odd or even, so no cut goes outside; the machine splits and
writes every sequence as the plain format does.
-/
import HopCodec.Machine.Yuv
import HopCodec.Proofs.Image.Yuv
import HopCodec.Proofs.Machine.Coded

namespace HopCodec

namespace Machine.Yuv

open HopCodec.Yuv (planesAt packedAt frameAt)

variable {width height : Nat} {chroma : ChromaFormat} {chunk data : Bytes}

section Size

variable (hsize : HopCodec.Yuv.frameSize width height chroma < wordSize)

include hsize

theorem frameSize_eq (hheight : 0 < height) :
    frameSize width height chroma = .ok (HopCodec.Yuv.frameSize width height chroma) := by
  obtain ⟨-, hfactorY⟩ := chroma.factors_pos
  have hchromaH : 0 < (chroma.chromaSize width height).2 := ceilDiv_pos hheight hfactorY
  simp only [HopCodec.Yuv.frameSize] at hsize ⊢
  have hdouble := Nat.le_mul_of_pos_right (2 * (chroma.chromaSize width height).1) hchromaH
  rw [frameSize, chromaSize_eq, ok_bind, mul_eq (by omega), ok_bind, mul_eq (by omega), ok_bind,
    mul_eq (by omega), ok_bind, add_eq hsize]

omit hsize in
theorem splitAt_eq {place : Nat} (h : place ≤ chunk.size) :
    splitAt chunk place = .ok (chunk.extract 0 place, chunk.extract place chunk.size) := by
  rw [splitAt, slice_eq (Nat.zero_le _) h, ok_bind, slice_eq h (Nat.le_refl _)]
  rfl

/-- A whole chunk is cut into its planes without going outside. -/
theorem frameOf_eq (hheight : 0 < height)
    (hchunk : chunk.size = HopCodec.Yuv.frameSize width height chroma) :
    frameOf chunk width height chroma =
      lift ((frameAt chunk width height chroma 0).map Picture.ofFrame) := by
  obtain ⟨-, hfactorY⟩ := chroma.factors_pos
  have hchromaH : 0 < (chroma.chromaSize width height).2 := ceilDiv_pos hheight hfactorY
  have hplace : 0 + HopCodec.Yuv.frameSize width height chroma ≤ chunk.size := by omega
  rw [HopCodec.Yuv.frameSize_eq] at hchunk hsize
  let area := width * height
  let chromaArea := (chroma.chromaSize width height).1 * (chroma.chromaSize width height).2
  have hrest : (chunk.extract area chunk.size).size = chromaArea + chromaArea := by
    rw [Array.size_extract]
    omega
  -- the planes as the machine cuts them out are those at their places in the chunk
  have hl : chunk.extract 0 area = (packedAt chunk width height chroma 0).luma := by
    simp [packedAt, area]
  have ha : (chunk.extract area chunk.size).extract 0 chromaArea =
      (packedAt chunk width height chroma 0).chromaA := by
    rw [Array.extract_extract, Nat.min_eq_left (by omega), Nat.add_zero]
    simp [packedAt, area, chromaArea]
  have hb : (chunk.extract area chunk.size).extract chromaArea (chromaArea + chromaArea) =
      (packedAt chunk width height chroma 0).chromaB := by
    rw [Array.extract_extract, Nat.min_eq_left (by omega), ← Nat.add_assoc]
    simp [packedAt, area, chromaArea]
  obtain ⟨hsizeL, hsizeA, hsizeB⟩ := HopCodec.Yuv.size_packedAt hplace
  rw [frameOf, chromaSize_eq, ok_bind, mul_eq (by omega), ok_bind,
    splitAt_eq (show area ≤ chunk.size by omega), ok_bind, mul_eq (by omega), ok_bind,
    splitAt_eq (show chromaArea ≤ (chunk.extract area chunk.size).size by omega), ok_bind, hrest,
    hl, ha, hb, Canvas.ofBytes_packed hsizeL (by omega) hheight, ok_bind,
    Canvas.ofBytes_packed hsizeA (by omega) hchromaH, ok_bind,
    Canvas.ofBytes_packed hsizeB (by omega) hchromaH, ok_bind, HopCodec.Yuv.frameAt_eq hplace]
  exact Picture.ofPlanes_eq chroma (planesAt hplace)

/-- The machine splits every sequence as the plain format does. -/
theorem read_eq (hwidth : 0 < width) (hheight : 0 < height) (hdata : data.size < wordSize) :
    read data width height chroma =
      lift ((HopCodec.Yuv.read data width height chroma).map (List.map Picture.ofFrame)) := by
  have hpos : 0 < HopCodec.Yuv.frameSize width height chroma :=
    HopCodec.Yuv.frameSize_pos hwidth hheight
  have hsides : ¬ (width = 0 ∨ height = 0) := by omega
  rw [read, if_neg hsides, frameSize_eq hsize hheight, ok_bind, rem_eq hpos, ok_bind,
    div_eq hpos]
  by_cases hempty : data.size = 0
  · rw [if_pos hempty, HopCodec.Yuv.read_of_not_whole hwidth hheight (by omega)]
    rfl
  by_cases hrest : data.size % HopCodec.Yuv.frameSize width height chroma ≠ 0
  · rw [if_neg hempty, if_pos hrest, HopCodec.Yuv.read_of_not_whole hwidth hheight
      fun hwhole => hrest (Nat.mod_eq_zero_of_dvd hwhole.2)]
    rfl
  rw [if_neg hempty, if_neg hrest, HopCodec.Yuv.read_of_whole hwidth hheight
    (Nat.pos_of_ne_zero hempty) (Nat.dvd_of_mod_eq_zero (not_not.mp hrest))]
  refine mapM_eq_lift fun i hi => ?_
  have hplace := Nat.mul_le_of_le_div _ (i + 1) data.size (List.mem_range.mp hi)
  rw [Nat.succ_mul] at hplace
  rw [mul_eq (by omega), ok_bind, add_eq (by omega), ok_bind,
    slice_eq (Nat.le_add_right _ _) hplace, ok_bind, frameOf_eq hsize hheight (by
      rw [Array.size_extract]
      omega), ← HopCodec.Yuv.frameAt_eq_extract]

end Size

theorem append_eq {out bytes : Bytes} (h : (out ++ bytes).size < wordSize) :
    append out bytes = .ok (out ++ bytes) := by
  rw [Array.size_append] at h
  rw [append, add_eq h]
  rfl

theorem write_eq {f : Frame} (hf : Addressable f) {out : Bytes}
    (hout : (out ++ HopCodec.Yuv.write f).size < wordSize) :
    write out (.ofFrame f) = .ok (out ++ HopCodec.Yuv.write f) := by
  have hluma := Canvas.toPacked_eq f.planes.luma hf.luma
  have ha := Canvas.toPacked_eq f.planes.chromaA hf.chromaA
  have hb := Canvas.toPacked_eq f.planes.chromaB hf.chromaB
  simp only [HopCodec.Yuv.write_eq, Frame.packed, Channels.map, ← Array.append_assoc] at hout ⊢
  have hout' := hout
  simp only [Array.size_append] at hout'
  simp only [write, Picture.ofFrame, Channels.map, Channels.toList, List.foldlM_cons,
    List.foldlM_nil, hluma, ha, hb, ok_bind]
  rw [append_eq (by simp only [Array.size_append]; omega), ok_bind,
    append_eq (by simp only [Array.size_append]; omega), ok_bind, append_eq hout]
  rfl

/-- The machine writes frames as the plain format does. -/
theorem writeAll_eq {frames : List Frame} (hframes : ∀ f ∈ frames, Addressable f)
    (hsize : (HopCodec.Yuv.writeAll frames).size < wordSize) :
    writeAll (frames.map Picture.ofFrame) = .ok (HopCodec.Yuv.writeAll frames) := by
  have hfrom (out : Bytes) (hout : (out ++ HopCodec.Yuv.writeAll frames).size < wordSize) :
      (frames.map Picture.ofFrame).foldlM write out =
        .ok (out ++ HopCodec.Yuv.writeAll frames) := by
    clear hsize
    induction frames generalizing out with
    | nil => simp [HopCodec.Yuv.writeAll]
    | cons f rest ih =>
        rw [← List.singleton_append, HopCodec.Yuv.writeAll_append,
          HopCodec.Yuv.writeAll_singleton, ← Array.append_assoc] at hout ⊢
        have hfirst : (out ++ HopCodec.Yuv.write f).size < wordSize := by
          rw [Array.size_append] at hout
          omega
        rw [List.singleton_append, List.map_cons, List.foldlM_cons,
          write_eq (hframes f List.mem_cons_self) hfirst, ok_bind,
          ih (fun f hf => hframes f (List.mem_cons_of_mem _ hf)) _ hout]
  have hstart := hfrom #[] (by rwa [Array.empty_append])
  rwa [Array.empty_append] at hstart

end Machine.Yuv

namespace Yuv

open Machine (Addressable Picture wordSize lift)

/-- Splitting a raw sequence and writing its frames undo one another.  A byte string is a sequence
of frames of a given size just when it is not empty and the size of a frame divides its own, and
its frames write it again; frames of one size, whatever their strides and paddings are, write a
sequence that splits into frames with their pixels.  The machine agrees, and none of its cuts goes
outside the chunk. -/
theorem split_exact (chroma : ChromaFormat) {width height : Nat} (hwidth : 0 < width)
    (hheight : 0 < height) (hsize : frameSize width height chroma < wordSize) :
    (∀ data, ((∃ frames, read data width height chroma = .ok frames) ↔
        0 < data.size ∧ frameSize width height chroma ∣ data.size) ∧
      (¬ (0 < data.size ∧ frameSize width height chroma ∣ data.size) →
        read data width height chroma =
          .error (.format (.yuvSize data.size (frameSize width height chroma)))) ∧
      ∀ frames, read data width height chroma = .ok frames →
        frames.length * frameSize width height chroma = data.size ∧
        (∀ f ∈ frames, f.Sized chroma width height) ∧ writeAll frames = data) ∧
    (∀ frames ≠ [], (∀ f ∈ frames, f.Sized chroma width height) →
      ∃ frames', read (writeAll frames) width height chroma = .ok frames' ∧
        frames'.map Frame.packed = frames.map Frame.packed) ∧
    (∀ data : Bytes, data.size < wordSize →
      Machine.Yuv.read data width height chroma =
          lift ((read data width height chroma).map (List.map Picture.ofFrame)) ∧
        ∀ trap, Machine.Yuv.read data width height chroma ≠ .error (.trap trap)) ∧
    ∀ frames : List Frame, (∀ f ∈ frames, Addressable f) → (writeAll frames).size < wordSize →
      Machine.Yuv.writeAll (frames.map Picture.ofFrame) = .ok (writeAll frames) := by
  refine ⟨fun data => ⟨⟨?_, ?_⟩, read_of_not_whole hwidth hheight, ?_⟩, ?_,
    fun data hdata => ?_, ?_⟩
  · rintro ⟨frames, hread⟩
    exact (frames_of_read hwidth hheight hread).1
  · rintro ⟨hdata, hwhole⟩
    obtain ⟨frames, hread, -⟩ := exists_read hwidth hheight hdata hwhole
    exact ⟨frames, hread⟩
  · intro frames hread
    exact (frames_of_read hwidth hheight hread).2
  · intro frames hne hframes
    exact exists_read_writeAll hwidth hheight hne hframes
  · have hread := Machine.Yuv.read_eq hsize hwidth hheight hdata
    refine ⟨hread, ?_⟩
    rw [hread]
    exact Machine.lift_ne_trap _
  · intro frames hframes hfit
    exact Machine.Yuv.writeAll_eq hframes hfit

/-- Two frames of a single pixel with subsampled chroma, the first one with a stride of two. -/
theorem split_exact_twoFrames :
    let pixel (value : UInt8) : Plane := .ofPacked 1 1 #[value] rfl
    let padded : Plane := ⟨1, 1, 2, #[7, 99], by decide, .inr (by decide)⟩
    let f : Frame := ⟨.yuv420, ⟨padded, pixel 8, pixel 9⟩, by decide, by decide⟩
    let f' : Frame := ⟨.yuv420, ⟨pixel 1, pixel 2, pixel 3⟩, by decide, by decide⟩
    writeAll [f, f'] = #[7, 8, 9, 1, 2, 3] ∧
      (∃ frames, read #[7, 8, 9, 1, 2, 3] 1 1 .yuv420 = .ok frames ∧
        frames.map Frame.packed = [⟨#[7], #[8], #[9]⟩, ⟨#[1], #[2], #[3]⟩]) ∧
      ¬ (∃ frames, read #[7, 8, 9, 1] 1 1 .yuv420 = .ok frames) ∧
      Machine.Yuv.writeAll [.ofFrame f, .ofFrame f'] = .ok #[7, 8, 9, 1, 2, 3] := by
  intro pixel padded f f'
  have hwritten : writeAll [f, f'] = #[7, 8, 9, 1, 2, 3] := by decide
  obtain ⟨haccept, hread, -, hmachine⟩ := split_exact .yuv420 (show 0 < 1 by decide)
    (show 0 < 1 by decide) (by decide)
  refine ⟨hwritten, ?_, ?_, ?_⟩
  · obtain ⟨frames, hframes, hpacked⟩ := hread [f, f'] (by decide)
      (List.forall_mem_cons.mpr ⟨⟨rfl, rfl, rfl⟩, List.forall_mem_singleton.mpr ⟨rfl, rfl, rfl⟩⟩)
    rw [hwritten] at hframes
    exact ⟨frames, hframes, hpacked.trans (by decide)⟩
  · rw [(haccept #[7, 8, 9, 1]).1]
    decide
  · rw [← hwritten]
    refine hmachine [f, f'] (List.forall_mem_cons.mpr ⟨?_, List.forall_mem_singleton.mpr ?_⟩)
      (by decide)
    · exact ⟨by decide, by decide, by decide⟩
    · exact ⟨by decide, by decide, by decide⟩

end Yuv

end HopCodec
