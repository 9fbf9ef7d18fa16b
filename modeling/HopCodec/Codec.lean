/-
The codec: a model with validated settings.
-/
import HopCodec.Frame.Decoded

namespace HopCodec

/-- A coder and decoder of single frames. -/
structure Codec where
  model : Model
  settings : Settings
  valid : settings.validate = .ok ()

/-- The model of the format, over the power function of the machine. -/
def Model.standard : Model :=
  ⟨Tables.build Float32.pow, Float32.pow⟩

namespace Codec

/-- A codec needs valid settings. -/
def new? (model : Model) (settings : Settings) : Except Fault Codec :=
  match h : settings.validate with
  | .ok () => .ok ⟨model, settings, h⟩
  | .error fault => .error fault

/-- Code a frame, estimating the mesh in advanced mode. -/
def encode (c : Codec) (f : Frame) : Except Fault CodedFrame :=
  c.model.encodeFrame c.settings f none

/-- Code a frame in advanced mode with a given mesh. -/
def encodeWithMesh (c : Codec) (f : Frame) (mesh : RelevanceMesh) : Except Fault CodedFrame :=
  if c.settings.mode ≠ .advanced then .error (.argument .meshForBasicMode)
  else c.model.encodeFrame c.settings f (some mesh)

/-- Decode a frame.  Any fault rejects the whole frame. -/
def decode (c : Codec) (data : Bytes) : Except Fault DecodedFrame :=
  c.model.decodeFrame data

end Codec

end HopCodec
