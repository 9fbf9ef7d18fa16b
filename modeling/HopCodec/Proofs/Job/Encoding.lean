/-
Coding jobs.  All that can fail about the frames of an input comes before the output is opened; the
container that is then written piece by piece is the one that is written as a whole.
-/
import HopCodec.Job.Encoding
import HopCodec.Proofs.Container
import HopCodec.Proofs.Frame.Length
import HopCodec.Proofs.Session

namespace HopCodec

/-- Every result is one of an entry. -/
theorem exists_of_mem_results {ε α β : Type} {f : α → Except ε β} {items : List α}
    {results : List β} (h : List.Forall₂ (fun a b => f a = .ok b) items results) {b : β}
    (hb : b ∈ results) : ∃ a, f a = .ok b := by
  obtain ⟨i, hi, rfl⟩ := List.mem_iff_getElem.mp hb
  exact ⟨_, (List.forall₂_iff_get.mp h).2 i (h.length_eq ▸ hi) hi⟩

namespace Container

/-- The size that is reported is that of the container. -/
theorem writtenSize_eq {digest : Bytes → UInt32} {payloads : List Bytes} {data : Bytes}
    (h : writeWith digest payloads = .ok data) : writtenSize payloads = data.size := by
  have hfold (size : Nat) (payloads : List Bytes) :
      payloads.foldl (fun size payload => size + (payload.size + entrySize)) size =
        size + (body digest payloads).length := by
    induction payloads generalizing size with
    | nil => rfl
    | cons payload rest ih =>
        have hentry : (entryBytes digest payload).toList.length = entrySize + payload.size :=
          (Array.length_toList).trans (size_entryBytes payload)
        rw [List.foldl_cons, ih, body, body, List.flatMap_cons, List.length_append, hentry]
        omega
  obtain ⟨-, -, hbytes⟩ := writeWith_eq_ok_iff.mp h
  rw [writtenSize, hfold, ← Array.length_toList, hbytes, ← List.append_assoc, List.length_append,
    length_front, Nat.zero_add]

end Container

namespace Job

section Container

variable {p : Place} (hp : FileTree.isBase p = false) (s : Session) (t : FileTree)

include hp

theorem run_writeEntry {payload : Bytes} (hsize : payload.size < 2 ^ 32) (before : Bytes) :
    (writeEntry p payload).run (s.withTree (t.put p (.file before))) =
      .ok () (s.withTree (t.put p
        (.file (before ++ Container.entryBytes (fun payload => xxh32 payload 0) payload)))) := by
  have hfits : ¬ 1 <<< 32 ≤ payload.size := by
    rw [Nat.one_shiftLeft]
    exact Nat.not_le.mpr hsize
  simp only [writeEntry, if_neg hfits, EStateM.run_bind, run_append hp]
  rw [Container.entryBytes, Array.append_assoc, Array.append_assoc, Array.append_assoc]

/-- Entries are written behind one another. -/
theorem run_writeEntries (payloads : List Bytes)
    (hsizes : ∀ payload ∈ payloads, payload.size < 2 ^ 32) (before : Bytes) :
    (writeEntries p payloads).run (s.withTree (t.put p (.file before))) =
      .ok () (s.withTree (t.put p (.file (payloads.foldl (fun out payload =>
        out ++ Container.entryBytes (fun payload => xxh32 payload 0) payload) before)))) := by
  induction payloads generalizing before with
  | nil => rfl
  | cons payload rest ih =>
      rw [List.forall_mem_cons] at hsizes
      rw [writeEntries, EStateM.run_bind, run_writeEntry hp s t hsizes.1]
      exact ih hsizes.2 _

/-- What is written piece by piece into an empty file is the container. -/
theorem run_writeContainer {payloads : List Bytes} {data : Bytes}
    (h : Container.write payloads = .ok data) :
    (writeContainer p payloads).run (s.withTree (t.put p (.file #[]))) =
      .ok () (s.withTree (t.put p (.file data))) := by
  obtain ⟨hcount, hsizes, hbytes⟩ := Container.writeWith_eq_ok_iff.mp h
  have hfew : ¬ 1 <<< 32 ≤ payloads.length := by
    rw [Nat.one_shiftLeft]
    exact Nat.not_le.mpr hcount
  have hpieces : payloads.foldl (fun out payload =>
      out ++ Container.entryBytes (fun payload => xxh32 payload 0) payload)
        (#[] ++ Container.magic ++ Container.wordBytes (UInt32.ofNat payloads.length)) = data := by
    rw [← Array.toList_inj, Container.toList_foldl, hbytes, Array.empty_append,
      Array.toList_append, List.append_assoc]
    rfl
  simp only [writeContainer, if_neg hfew, EStateM.run_bind, run_append hp,
    run_writeEntries hp s t payloads hsizes, hpieces]

end Container

/-- The frames that a file tree gives as an input. -/
def framesOf (path : String) (chroma : ChromaFormat) (size : Option (Nat × Nat))
    (tree : FileTree) : Except Fault (List Frame) :=
  match ImageFormat.ofPath? path with
  | none => .error (.format (.unknownImage path))
  | some format => inputOf path tree >>= fun data => format.readFrames data chroma size

def codedFrames (model : Model) (settings : Settings) :
    List Frame → Except Fault CodedInput
  | [] => .error (.format .noFrame)
  | first :: rest =>
      let blocks := settings.fitGrid first.width first.height settings.chroma
      Codec.new? model (settings.withBlocks blocks.1 blocks.2) >>= fun codec =>
        (first :: rest).mapM codec.encode >>= fun coded =>
          .ok ⟨first :: rest, first.width, first.height, blocks, coded.map CodedFrame.bytes⟩

theorem observes_loadFrames (path : String) (chroma : ChromaFormat) (size : Option (Nat × Nat)) :
    Observes (loadFrames path chroma size) (framesOf path chroma size) := by
  unfold loadFrames framesOf
  cases ImageFormat.ofPath? path with
  | none => exact observes_throw _
  | some format => exact (observes_readInput path).bind fun data => observes_lift _

/-- Frames are coded one after another, each by itself. -/
theorem observes_encodeFrames (codec : Codec) (total done : Nat) (frames : List Frame) :
    Observes (encodeFrames codec total done frames) fun _ =>
      frames.mapM codec.encode >>= fun coded => .ok (coded.map CodedFrame.bytes) := by
  induction frames generalizing done with
  | nil => exact observes_pure []
  | cons f rest ih =>
      refine Observes.congr ((observes_note _ _).bind fun _ => (observes_lift _).bind fun e =>
        (observes_note _ _).bind fun _ => (ih _).bind fun more =>
          observes_pure (e.bytes :: more)) ?_
      intro tree
      rw [List.mapM_cons]
      cases codec.encode f with
      | error fault => rfl
      | ok e => cases rest.mapM codec.encode <;> rfl

theorem observes_codeInput (model : Model) (settings : Settings) (input : String)
    (size : Option (Nat × Nat)) :
    Observes (codeInput model settings input size) fun tree =>
      framesOf input settings.chroma size tree >>= codedFrames model settings := by
  refine (observes_loadFrames input settings.chroma size).bind fun frames => ?_
  cases frames with
  | nil => exact observes_throw _
  | cons first rest =>
      refine Observes.afterNote ?_ _ _ _
      refine Observes.congr ((observes_lift _).bind fun codec =>
        (observes_encodeFrames codec _ _ _).bind fun payloads => (observes_note _ _).bind fun _ =>
          observes_pure _) ?_
      intro tree
      rw [codedFrames]
      refine congrArg _ (funext fun codec => ?_)
      cases (first :: rest).mapM codec.encode <;> rfl

section Coded

variable {model : Model} {settings : Settings}

/-- Frames are coded under settings that are fitted to the first of them. -/
theorem codedFrames_eq_ok {frames : List Frame} {coded : CodedInput}
    (h : codedFrames model settings frames = .ok coded) :
    ∃ first codec es, frames.head? = some first ∧
      Codec.new? model (settings.withBlocks coded.blocks.1 coded.blocks.2) = .ok codec ∧
        List.Forall₂ (fun f e => codec.encode f = .ok e) frames es ∧
          coded = ⟨frames, first.width, first.height,
            settings.fitGrid first.width first.height settings.chroma,
            es.map CodedFrame.bytes⟩ := by
  cases frames with
  | nil => cases h
  | cons first rest =>
      obtain ⟨codec, hcodec, hrest⟩ := bind_eq_ok_iff.mp h
      obtain ⟨es, hes, hcoded⟩ := bind_eq_ok_iff.mp hrest
      obtain rfl := pure_eq_ok_iff.mp hcoded
      exact ⟨first, codec, es, rfl, hcodec, mapM_eq_ok_iff.mp hes, rfl⟩

/-- What frames are coded to fits a container. -/
theorem exists_write_of_codedFrames {frames : List Frame} {coded : CodedInput}
    (h : codedFrames model settings frames = .ok coded) (hcount : frames.length < 2 ^ 32) :
    ∃ data, Container.write coded.payloads = .ok data := by
  obtain ⟨first, codec, es, -, -, hes, rfl⟩ := codedFrames_eq_ok h
  refine Container.exists_writeWith _ ?_ ?_
  · rwa [List.length_map, ← hes.length_eq]
  · intro payload hmem
    obtain ⟨e, he, rfl⟩ := List.mem_map.mp hmem
    obtain ⟨f, hcoded⟩ := exists_of_mem_results hes he
    exact codec.size_bytes_lt hcoded

/-- A coding job fails and changes nothing, or leaves the container of what the input is coded
to. -/
theorem encodeFile_cases (model : Model) (settings : Settings) (input output : String)
    (size : Option (Nat × Nat)) (overwrite : Bool) (s : Session)
    (hcount : ∀ frames, framesOf input settings.chroma size s.tree = .ok frames →
      frames.length < 2 ^ 32) :
    (∃ fault t, (encodeFile model settings input output size overwrite).run s = .error fault t ∧
      t.tree = s.tree) ∨
    ∃ frames coded p data t, framesOf input settings.chroma size s.tree = .ok frames ∧
      codedFrames model settings frames = .ok coded ∧ s.tree.outputPlace output = .ok p ∧
        Container.write coded.payloads = .ok data ∧
          (encodeFile model settings input output size overwrite).run s =
            .ok ⟨coded.frames.length, coded.frames.length *
              Yuv.frameSize coded.width coded.height settings.chroma, data.size, coded.blocks⟩ t ∧
          t.tree = s.tree.put p (.file data) := by
  obtain ⟨t, htree, ⟨fault, -, hrun⟩ | ⟨coded, hcoded, hrun⟩⟩ :=
    Observes.bind_cases (observes_codeInput model settings input size) (fun coded => do
      let place ← openOutput output overwrite
      writeContainer place coded.payloads
      _) s
  · exact .inl ⟨fault, t, hrun, htree⟩
  cases hframes : framesOf input settings.chroma size s.tree with
  | error fault => simp [bind, Except.bind, hframes] at hcoded
  | ok frames =>
      simp only [bind, Except.bind, hframes] at hcoded
      obtain ⟨data, hdata⟩ := exists_write_of_codedFrames hcoded (hcount frames hframes)
      rw [← htree]
      rcases openOutput_cases output overwrite t with ⟨-, fault, hopen⟩ | ⟨p, hplace, hopen⟩
      · exact .inl ⟨fault, t, hrun.trans (run_bind_error hopen _), rfl⟩
      have hwritten := run_writeContainer (FileTree.isBase_of_outputPlace hplace) t t.tree hdata
      rw [run_bind_ok hopen, run_bind_ok hwritten, Container.writtenSize_eq hdata] at hrun
      obtain ⟨u, htree', hend⟩ := ((observes_note 2 _).bind fun _ => observes_pure
        (EncodeReport.mk coded.frames.length (coded.frames.length *
          Yuv.frameSize coded.width coded.height settings.chroma) data.size coded.blocks))
        (t.withTree (t.tree.put p (.file data)))
      exact .inr ⟨frames, coded, p, data, u, rfl, hcoded, hplace, hdata, hrun.trans hend, htree'⟩

end Coded

end Job

end HopCodec
