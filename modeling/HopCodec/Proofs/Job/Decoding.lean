/-
Decoding jobs.  A container is read and decoded to the last byte of the image file before the
output is opened.
-/
import HopCodec.Job.Decoding
import HopCodec.Proofs.Session

namespace HopCodec

namespace Job

def framesOfContainer (codec : Codec) (data : Bytes) : Except Fault (List Frame) :=
  Container.read data >>= fun entries =>
    (entries.mapM fun entry => codec.decode entry.payload) >>= fun decoded =>
      .ok (decoded.map DecodedFrame.frame)

def decodedBytes (model : Model) (settings : Settings) (format : ImageFormat) (data : Bytes) :
    Except Fault DecodedInput :=
  Codec.new? model settings >>= fun codec => framesOfContainer codec data >>= fun frames =>
    format.writeFrames frames >>= fun bytes => .ok ⟨data.size, frames, bytes⟩

/-- Payloads are decoded one after another, each by itself. -/
theorem observes_decodePayloads (codec : Codec) (total done : Nat)
    (entries : List ContainerEntry) :
    Observes (decodePayloads codec total done entries) fun _ =>
      (entries.mapM fun entry => codec.decode entry.payload) >>= fun decoded =>
        .ok (decoded.map DecodedFrame.frame) := by
  induction entries generalizing done with
  | nil => exact observes_pure []
  | cons entry rest ih =>
      refine Observes.congr ((observes_note _ _).bind fun _ => (observes_lift _).bind fun decoded =>
        (observes_note _ _).bind fun _ => (ih _).bind fun more =>
          observes_pure (decoded.frame :: more)) ?_
      intro tree
      rw [List.mapM_cons]
      cases codec.decode entry.payload with
      | error fault => rfl
      | ok decoded => cases rest.mapM fun entry => codec.decode entry.payload <;> rfl

theorem observes_decodeInput (model : Model) (settings : Settings) (format : ImageFormat)
    (input : String) :
    Observes (decodeInput model settings format input) fun tree =>
      inputOf input tree >>= decodedBytes model settings format := by
  refine (observes_readInput input).bind fun data => (observes_lift _).bind fun codec => ?_
  refine Observes.congr (((observes_lift (Container.read data)).bind fun entries =>
    observes_decodePayloads codec _ _ entries).bind fun frames => (observes_note _ _).bind fun _ =>
      (observes_lift _).bind fun bytes => observes_pure _) ?_
  intro tree
  rfl

variable {model : Model} {settings : Settings}

/-- A decoding job fails and changes nothing, or leaves the image file of what the container is
decoded to.  It does not fail if the container can be decoded and the output can be written. -/
theorem decodeFile_cases (model : Model) (settings : Settings) (input output : String)
    (overwrite : Bool) (s : Session) :
    (∃ fault t, (decodeFile model settings input output overwrite).run s = .error fault t ∧
      t.tree = s.tree ∧ ∀ format decoded, ImageFormat.ofPath? output = some format →
        (inputOf input s.tree >>= decodedBytes model settings format) = .ok decoded →
          ¬ s.tree.Writable output overwrite) ∨
    ∃ format decoded report p t, ImageFormat.ofPath? output = some format ∧
      (inputOf input s.tree >>= decodedBytes model settings format) = .ok decoded ∧
        s.tree.outputPlace output = .ok p ∧
          (decodeFile model settings input output overwrite).run s = .ok report t ∧
            t.tree = s.tree.put p (.file decoded.bytes) := by
  unfold decodeFile
  cases hformat : ImageFormat.ofPath? output with
  | none => exact .inl ⟨_, s, rfl, rfl, fun format decoded hsome => by cases hsome⟩
  | some format =>
      obtain ⟨t, htree, ⟨fault, hdecoded, hrun⟩ | ⟨decoded, hdecoded, hrun⟩⟩ :=
        Observes.bind_cases (observes_decodeInput model settings format input) (fun decoded => do
          writeOutput output decoded.bytes overwrite
          _) s
      · refine .inl ⟨fault, t, hrun, htree, fun format' decoded hsome hok => ?_⟩
        cases hsome
        cases hdecoded.symm.trans hok
      rw [← htree]
      rcases writeOutput_cases output decoded.bytes overwrite t with
        ⟨hwritable, fault, hwrite⟩ | ⟨p, hplace, hwrite⟩
      · exact .inl ⟨fault, t, hrun.trans (run_bind_error hwrite _), rfl, fun _ _ _ _ => hwritable⟩
      rw [run_bind_ok hwrite] at hrun
      obtain ⟨u, htree', hend⟩ := ((observes_note 2 _).bind fun _ => observes_pure
        (DecodeReport.mk decoded.frames.length decoded.encodedBytes
          (decoded.frames.foldl (fun n f => n + Yuv.frameSize f.width f.height f.chroma) 0)))
        (t.withTree (t.tree.put p (.file decoded.bytes)))
      refine .inr ⟨format, decoded, _, p, u, rfl, ?_, hplace, hrun.trans hend, htree'⟩
      rwa [htree]

end Job

end HopCodec
