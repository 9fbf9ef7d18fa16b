/-
Raw planar sequences split into the frames they were written from.  A frame of a given format and
size takes up one chunk, the chunk determines its packed planes, and so splitting a sequence and
writing its frames undo one another.
-/
import Mathlib.Data.List.Forall2
import HopCodec.Image.Yuv
import HopCodec.Proofs.Frame.Assembly

namespace HopCodec

structure Frame.Sized (f : Frame) (chroma : ChromaFormat) (width height : Nat) : Prop where
  chroma_eq : f.chroma = chroma
  width_eq : f.width = width
  height_eq : f.height = height

/-- Running through a list whose items all have results of some kind. -/
theorem exists_mapM {ε α β : Type} {f : α → Except ε β} {P : α → β → Prop} (items : List α)
    (h : ∀ a ∈ items, ∃ b, f a = .ok b ∧ P a b) :
    ∃ results, items.mapM f = .ok results ∧ List.Forall₂ P items results := by
  induction items with
  | nil => exact ⟨[], rfl, .nil⟩
  | cons a rest ih =>
      obtain ⟨b, hb, hkind⟩ := h a List.mem_cons_self
      obtain ⟨results, hrest, hkinds⟩ := ih fun a ha => h a (List.mem_cons_of_mem _ ha)
      refine ⟨b :: results, ?_, .cons hkind hkinds⟩
      rw [List.mapM_cons, hb, hrest]
      rfl

theorem extract_append_extract_of_le {data : Bytes} {i j k : Nat} (hij : i ≤ j) (hjk : j ≤ k) :
    data.extract i j ++ data.extract j k = data.extract i k := by
  rw [Array.extract_append_extract, Nat.min_eq_left hij, Nat.max_eq_right hjk]

/-- The parts of a buffer put together from three. -/
theorem extract_parts (a b c : Bytes) :
    (a ++ b ++ c).extract 0 a.size = a ∧
      (a ++ b ++ c).extract a.size (a.size + b.size) = b ∧
        (a ++ b ++ c).extract (a.size + b.size) (a.size + b.size + c.size) = c := by
  refine ⟨by simp [Array.extract_append], by simp [Array.extract_append], ?_⟩
  rw [← Array.size_append, Array.extract_append_right, Array.extract_size]

namespace Yuv

variable {width height : Nat} {chroma : ChromaFormat} {data : Bytes} {place : Nat}

/-- The packed planes of the frame whose bytes begin at a place. -/
def packedAt (data : Bytes) (width height : Nat) (chroma : ChromaFormat) (place : Nat) :
    Channels Bytes :=
  let area := width * height
  let chromaArea := (chroma.chromaSize width height).1 * (chroma.chromaSize width height).2
  ⟨data.extract place (place + area), data.extract (place + area) (place + area + chromaArea),
    data.extract (place + area + chromaArea) (place + area + chromaArea + chromaArea)⟩

theorem frameSize_eq (width height : Nat) (chroma : ChromaFormat) :
    frameSize width height chroma = width * height +
      (chroma.chromaSize width height).1 * (chroma.chromaSize width height).2 +
        (chroma.chromaSize width height).1 * (chroma.chromaSize width height).2 := by
  simp only [frameSize, Nat.two_mul, Nat.add_mul, Nat.add_assoc]

theorem frameSize_pos (hwidth : 0 < width) (hheight : 0 < height) :
    0 < frameSize width height chroma :=
  Nat.add_pos_left (Nat.mul_pos hwidth hheight) _

theorem size_packedAt (hplace : place + frameSize width height chroma ≤ data.size) :
    (packedAt data width height chroma place).luma.size = width * height ∧
      (packedAt data width height chroma place).chromaA.size =
        (chroma.chromaSize width height).1 * (chroma.chromaSize width height).2 ∧
      (packedAt data width height chroma place).chromaB.size =
        (chroma.chromaSize width height).1 * (chroma.chromaSize width height).2 := by
  rw [frameSize_eq] at hplace
  simp only [packedAt, Array.size_extract]
  omega

def planesAt (hplace : place + frameSize width height chroma ≤ data.size) : Channels Plane where
  luma := .ofPacked _ _ _ (size_packedAt hplace).1
  chromaA := .ofPacked _ _ _ (size_packedAt hplace).2.1
  chromaB := .ofPacked _ _ _ (size_packedAt hplace).2.2

theorem frameAt_eq (hplace : place + frameSize width height chroma ≤ data.size) :
    frameAt data width height chroma place = Frame.ofPlanes? chroma (planesAt hplace) := by
  obtain ⟨hluma, ha, hb⟩ := size_packedAt hplace
  simp only [packedAt] at hluma ha hb
  simp only [frameAt]
  rw [Plane.ofBytes?_eq_ofPacked hluma, Plane.ofBytes?_eq_ofPacked ha,
    Plane.ofBytes?_eq_ofPacked hb]
  rfl

/-- A chunk within the data is the bytes of a frame, and the frame has the chunk's planes. -/
theorem exists_frameAt (hplace : place + frameSize width height chroma ≤ data.size) :
    ∃ f, frameAt data width height chroma place = .ok f ∧ f.Sized chroma width height ∧
      f.packed = packedAt data width height chroma place := by
  let f : Frame := ⟨chroma, planesAt hplace, rfl, rfl⟩
  refine ⟨f, ?_, ⟨rfl, rfl, rfl⟩, ?_⟩
  · rw [frameAt_eq hplace]
    exact Frame.ofPlanes?_eq_ok_iff.mpr ⟨rfl, rfl⟩
  · simp [f, Frame.packed, Channels.map, planesAt]

theorem extract_chunk {start stop : Nat} (hstop : stop ≤ frameSize width height chroma) :
    (data.extract place (place + frameSize width height chroma)).extract start stop =
      data.extract (place + start) (place + stop) := by
  rw [Array.extract_extract, Nat.min_eq_left (Nat.add_le_add_left hstop place)]

/-- The planes of a frame are a matter of its chunk. -/
theorem packedAt_eq_extract :
    packedAt data width height chroma place =
      packedAt (data.extract place (place + frameSize width height chroma)) width height chroma
        0 := by
  have hsize := frameSize_eq width height chroma
  simp only [packedAt]
  rw [extract_chunk (by omega), extract_chunk (by omega), extract_chunk (by omega)]
  simp only [Nat.zero_add, Nat.add_zero, Nat.add_assoc]

theorem frameAt_eq_extract :
    frameAt data width height chroma place =
      frameAt (data.extract place (place + frameSize width height chroma)) width height chroma
        0 := by
  have hsize := frameSize_eq width height chroma
  simp only [frameAt]
  rw [extract_chunk (by omega), extract_chunk (by omega), extract_chunk (by omega)]
  simp only [Nat.zero_add, Nat.add_zero, Nat.add_assoc]

theorem write_eq (f : Frame) : write f = f.packed.luma ++ f.packed.chromaA ++ f.packed.chromaB := by
  simp [write, Channels.toList]

/-- A frame writes the planes that its chunk is read as. -/
theorem packedAt_write {f : Frame} (h : f.Sized chroma width height) :
    (write f).size = frameSize width height chroma ∧
      packedAt (write f) width height chroma 0 = f.packed := by
  have hluma : f.packed.luma.size = width * height := by
    rw [← h.width_eq, ← h.height_eq]
    exact Plane.size_toPacked _
  have hchroma : f.packed.chromaA.size =
        (chroma.chromaSize width height).1 * (chroma.chromaSize width height).2 ∧
      f.packed.chromaB.size =
        (chroma.chromaSize width height).1 * (chroma.chromaSize width height).2 := by
    rw [← h.width_eq, ← h.height_eq, ← h.chroma_eq]
    constructor
    · rw [Frame.width, Frame.height, ← f.chromaA_size]
      exact Plane.size_toPacked _
    · rw [Frame.width, Frame.height, ← f.chromaB_size]
      exact Plane.size_toPacked _
  obtain ⟨ha, hb⟩ := hchroma
  refine ⟨?_, ?_⟩
  · rw [write_eq, Array.size_append, Array.size_append, hluma, ha, hb, frameSize_eq]
  · obtain ⟨hfirst, hsecond, hthird⟩ :=
      extract_parts f.packed.luma f.packed.chromaA f.packed.chromaB
    rw [hluma] at hfirst
    rw [hluma, ha] at hsecond
    rw [hluma, ha, hb] at hthird
    rw [write_eq]
    simp only [packedAt, Nat.zero_add, hfirst, hsecond, hthird]

/-- A frame with the planes of a chunk writes the chunk. -/
theorem write_of_packed {f : Frame} (h : f.packed = packedAt data width height chroma place) :
    write f = data.extract place (place + frameSize width height chroma) := by
  rw [write_eq, h, frameSize_eq]
  simp only [packedAt]
  rw [extract_append_extract_of_le (Nat.le_add_right _ _) (Nat.le_add_right _ _),
    extract_append_extract_of_le (by omega) (Nat.le_add_right _ _)]
  simp only [Nat.add_assoc]

theorem writeAll_append (frames rest : List Frame) :
    writeAll (frames ++ rest) = writeAll frames ++ writeAll rest := by
  have hfrom (frames : List Frame) (out : Bytes) :
      frames.foldl (fun out f => out ++ write f) out = out ++ writeAll frames := by
    rw [writeAll]
    induction frames generalizing out with
    | nil => simp
    | cons f rest ih =>
        rw [List.foldl_cons, List.foldl_cons, ih (out ++ write f), ih (#[] ++ write f)]
        simp
  rw [writeAll, List.foldl_append, hfrom]
  rfl

theorem writeAll_singleton (f : Frame) : writeAll [f] = write f := by
  simp [writeAll]

/-- Frames of one size take up one chunk each. -/
theorem size_writeAll {frames : List Frame} (h : ∀ f ∈ frames, f.Sized chroma width height) :
    (writeAll frames).size = frames.length * frameSize width height chroma := by
  induction frames with
  | nil => simp [writeAll]
  | cons f rest ih =>
      obtain ⟨hsize, -⟩ := packedAt_write (h f List.mem_cons_self)
      rw [← List.singleton_append, writeAll_append, writeAll_singleton, Array.size_append, hsize,
        ih fun f hf => h f (List.mem_cons_of_mem _ hf), List.length_append, Nat.add_mul]
      simp

/-- The chunk of a frame among frames of one size. -/
theorem extract_writeAll {frames : List Frame} (h : ∀ f ∈ frames, f.Sized chroma width height)
    {i : Nat} (hi : i < frames.length) :
    (writeAll frames).extract (i * frameSize width height chroma)
        (i * frameSize width height chroma + frameSize width height chroma) =
      write frames[i] := by
  have hsplit : frames.take i ++ [frames[i]] ++ frames.drop (i + 1) = frames := by simp
  have hwrite : writeAll frames =
      writeAll (frames.take i) ++ write frames[i] ++ writeAll (frames.drop (i + 1)) := by
    rw [← writeAll_singleton, ← writeAll_append, ← writeAll_append, hsplit]
  have hbefore : (writeAll (frames.take i)).size = i * frameSize width height chroma := by
    rw [size_writeAll fun f hf => h f (List.mem_of_mem_take hf), List.length_take,
      Nat.min_eq_left (Nat.le_of_lt hi)]
  obtain ⟨hsize, -⟩ := packedAt_write (h frames[i] (List.getElem_mem hi))
  obtain ⟨-, hchunk, -⟩ := extract_parts (writeAll (frames.take i)) (write frames[i])
    (writeAll (frames.drop (i + 1)))
  rw [hbefore, hsize] at hchunk
  rw [hwrite, hchunk]

/-- What frames that agree with the chunks of a sequence write is the sequence. -/
theorem writeAll_of_packed {frames : List Frame}
    (h : ∀ i (hi : i < frames.length), frames[i].packed =
      packedAt data width height chroma (i * frameSize width height chroma)) :
    writeAll frames = data.extract 0 (frames.length * frameSize width height chroma) := by
  induction frames using List.reverseRecOn with
  | nil => simp [writeAll]
  | append_singleton before f ih =>
      have hbefore := ih fun i hi => by
        have hi' : i < (before ++ [f]).length := by
          rw [List.length_append]
          omega
        rw [← h i hi', List.getElem_append_left hi]
      have hlast := h before.length (by simp)
      rw [List.getElem_concat_length rfl] at hlast
      rw [writeAll_append, writeAll_singleton, hbefore, write_of_packed hlast,
        extract_append_extract_of_le (Nat.zero_le _) (Nat.le_add_right _ _), List.length_append,
        List.length_singleton, Nat.add_mul, Nat.one_mul]

/-- A sequence of whole chunks is read chunk by chunk. -/
theorem read_of_whole (hwidth : 0 < width) (hheight : 0 < height) (hdata : 0 < data.size)
    (hwhole : frameSize width height chroma ∣ data.size) :
    read data width height chroma =
      (List.range (data.size / frameSize width height chroma)).mapM fun i =>
        frameAt data width height chroma (i * frameSize width height chroma) := by
  rw [read, if_neg (by omega)]
  refine if_neg ?_
  rintro (hempty | hrest)
  · exact Nat.ne_of_gt hdata hempty
  · exact hrest (Nat.mod_eq_zero_of_dvd hwhole)

/-- The frames of a sequence of whole chunks. -/
theorem exists_read (hwidth : 0 < width) (hheight : 0 < height) (hdata : 0 < data.size)
    (hwhole : frameSize width height chroma ∣ data.size) :
    ∃ frames, read data width height chroma = .ok frames ∧
      frames.length = data.size / frameSize width height chroma ∧
      ∀ i (hi : i < frames.length), frames[i].Sized chroma width height ∧
        frames[i].packed =
          packedAt data width height chroma (i * frameSize width height chroma) := by
  let size := frameSize width height chroma
  obtain ⟨frames, hrun, hframes⟩ := exists_mapM (List.range (data.size / size))
    (f := fun i => frameAt data width height chroma (i * size))
    (P := fun i f => f.Sized chroma width height ∧
      f.packed = packedAt data width height chroma (i * size)) fun i hi => by
        have hplace := Nat.mul_le_of_le_div size (i + 1) data.size (List.mem_range.mp hi)
        rw [Nat.succ_mul] at hplace
        exact exists_frameAt hplace
  obtain ⟨hlength, hitems⟩ := List.forall₂_iff_get.mp hframes
  refine ⟨frames, ?_, ?_, fun i hi => ?_⟩
  · rw [read_of_whole hwidth hheight hdata hwhole]
    exact hrun
  · rw [← hlength, List.length_range]
  · have hitem := hitems i (hlength ▸ hi) hi
    simpa using hitem

/-- Other sequences are refused. -/
theorem read_of_not_whole (hwidth : 0 < width) (hheight : 0 < height)
    (h : ¬ (0 < data.size ∧ frameSize width height chroma ∣ data.size)) :
    read data width height chroma =
      .error (.format (.yuvSize data.size (frameSize width height chroma))) := by
  rw [read, if_neg (by omega)]
  refine if_pos ?_
  by_cases hempty : data.size = 0
  · exact .inl hempty
  · exact .inr fun hrest => h ⟨Nat.pos_of_ne_zero hempty, Nat.dvd_of_mod_eq_zero hrest⟩

/-- What is read is whole, and its frames are of the size asked for and write it again. -/
theorem frames_of_read (hwidth : 0 < width) (hheight : 0 < height) {frames : List Frame}
    (h : read data width height chroma = .ok frames) :
    (0 < data.size ∧ frameSize width height chroma ∣ data.size) ∧
      frames.length * frameSize width height chroma = data.size ∧
      (∀ f ∈ frames, f.Sized chroma width height) ∧ writeAll frames = data := by
  by_cases hwhole : 0 < data.size ∧ frameSize width height chroma ∣ data.size
  · obtain ⟨frames', hread, hlength, hframes⟩ := exists_read hwidth hheight hwhole.1 hwhole.2
    cases hread.symm.trans h
    have hcover : frames.length * frameSize width height chroma = data.size := by
      rw [hlength, Nat.div_mul_cancel hwhole.2]
    refine ⟨hwhole, hcover, fun f hf => ?_, ?_⟩
    · obtain ⟨i, hi, rfl⟩ := List.getElem_of_mem hf
      exact (hframes i hi).1
    · rw [writeAll_of_packed fun i hi => (hframes i hi).2, hcover, Array.extract_size]
  · rw [read_of_not_whole hwidth hheight hwhole] at h
    cases h

/-- Reading what was written gives frames with the same pixels. -/
theorem exists_read_writeAll (hwidth : 0 < width) (hheight : 0 < height) {frames : List Frame}
    (hne : frames ≠ []) (h : ∀ f ∈ frames, f.Sized chroma width height) :
    ∃ frames', read (writeAll frames) width height chroma = .ok frames' ∧
      frames'.map Frame.packed = frames.map Frame.packed := by
  have hpos : 0 < frameSize width height chroma := frameSize_pos hwidth hheight
  have hsize := size_writeAll h
  have hdata : 0 < (writeAll frames).size :=
    hsize ▸ Nat.mul_pos (List.length_pos_iff.mpr hne) hpos
  obtain ⟨frames', hread, hlength, hframes⟩ := exists_read hwidth hheight hdata
    (hsize ▸ Nat.dvd_mul_left (frameSize width height chroma) _)
  rw [hsize, Nat.mul_div_cancel _ hpos] at hlength
  refine ⟨frames', hread, List.ext_getElem (by simp [hlength]) fun i hi hi' => ?_⟩
  rw [List.length_map] at hi hi'
  obtain ⟨-, hpacked⟩ := packedAt_write (h frames[i] (List.getElem_mem hi'))
  rw [List.getElem_map, List.getElem_map, (hframes i hi).2, packedAt_eq_extract,
    extract_writeAll h hi', hpacked]

end Yuv

end HopCodec
