/-
How coding a frame ends.  The header that a frame would get decides it: an invalid one is refused
as an argument for the reason it is invalid, and a valid one is coded.  A given mesh must be for an
advanced frame and of the size of its grid besides.
-/
import HopCodec.Codec
import HopCodec.Proofs.Frame.Coded
import HopCodec.Proofs.Ladder.Sweep

namespace HopCodec

def OnlyHeaderFaults {α : Type} (x : Except Fault α) : Prop :=
  ∀ fault, x = .error fault → ∃ cause, fault = .header cause

namespace OnlyHeaderFaults

variable {α β : Type}

theorem ok (a : α) : OnlyHeaderFaults (.ok a) := by
  intro fault h
  cases h

theorem error (cause : HeaderFault) : OnlyHeaderFaults (.error (.header cause) : Except Fault α) := by
  intro fault h
  cases h
  exact ⟨cause, rfl⟩

theorem bind {x : Except Fault α} {f : α → Except Fault β} (hx : OnlyHeaderFaults x)
    (hf : ∀ a, OnlyHeaderFaults (f a)) : OnlyHeaderFaults (x >>= f) := by
  rcases x with fault | a
  · intro fault' h
    cases h
    exact hx fault rfl
  · exact hf a

theorem map {x : Except Fault α} (hx : OnlyHeaderFaults x) (f : α → β) :
    OnlyHeaderFaults (x.map f) := by
  rcases x with fault | a
  · intro fault' h
    cases h
    exact hx fault rfl
  · exact ok (f a)

end OnlyHeaderFaults

namespace BlockGrid

theorem onlyHeaderFaults_ofBounds (blocksW blocksH : Nat) (xs ys : List Nat) :
    OnlyHeaderFaults (ofBounds blocksW blocksH xs ys) := by
  unfold ofBounds
  split
  · exact .ok _
  · exact .error _

theorem onlyHeaderFaults_partition (width height blocksW blocksH : Nat) :
    OnlyHeaderFaults (partition width height blocksW blocksH) := by
  unfold partition
  split
  · exact .error _
  · exact onlyHeaderFaults_ofBounds _ _ _ _

theorem onlyHeaderFaults_subsample (g : BlockGrid) (factorX factorY : Nat) :
    OnlyHeaderFaults (g.subsample factorX factorY) :=
  (onlyHeaderFaults_ofBounds _ _ _ _).bind fun _ => .ok _

theorem onlyHeaderFaults_requireSide (g : BlockGrid) (side : Nat) :
    OnlyHeaderFaults (g.requireSide side) := by
  unfold requireSide
  split
  · exact .error _
  · exact .ok _

end BlockGrid

namespace FrameHeader

theorem onlyHeaderFaults_grids (h : FrameHeader) : OnlyHeaderFaults h.grids := by
  refine (BlockGrid.onlyHeaderFaults_partition _ _ _ _).bind fun luma => ?_
  refine (luma.onlyHeaderFaults_subsample _ _).bind fun chroma => ?_
  by_cases hmode : h.mode = .advanced
  · rw [if_pos hmode]
    exact (luma.onlyHeaderFaults_requireSide _).bind fun _ =>
      (chroma.onlyHeaderFaults_requireSide _).bind fun _ => .ok _
  · rw [if_neg hmode]
    exact .ok _

/-- A header is invalid for a reason that lies in the header. -/
theorem onlyHeaderFaults_validate (h : FrameHeader) : OnlyHeaderFaults h.validate := by
  unfold validate
  cases h.fieldFault? with
  | some cause => exact .error cause
  | none => exact h.onlyHeaderFaults_grids.map _

end FrameHeader

/-- The header that a frame gets under given settings, valid or not. -/
def Settings.headerFor (s : Settings) (f : Frame) : FrameHeader :=
  s.header f.chroma (UInt32.ofNat f.width) (UInt32.ofNat f.height)

/-- The sides of a frame are numbers that a header can hold. -/
def Frame.Measurable (f : Frame) : Prop :=
  f.width < 1 <<< 32 ∧ f.height < 1 <<< 32

/-- The frame can be coded under the settings: its sides go into a header, and it is a valid one. -/
def Frame.Codable (f : Frame) (s : Settings) : Prop :=
  f.Measurable ∧ (s.headerFor f).validate = .ok ()

namespace Model

variable {m : Model} {s : Settings} {f : Frame} {mesh : Option RelevanceMesh}

theorem exists_headerOf_iff : (∃ h, headerOf s f = .ok h) ↔ f.Codable s := by
  constructor
  · rintro ⟨h, hheader⟩
    obtain ⟨hsize, rfl, hvalid⟩ := headerOf_eq_ok_iff.mp hheader
    exact ⟨hsize, hvalid⟩
  · rintro ⟨hsize, hvalid⟩
    exact ⟨s.headerFor f, headerOf_eq_ok_iff.mpr ⟨hsize, rfl, hvalid⟩⟩

/-- A header that is not valid is refused for its own reason. -/
theorem headerOf_of_invalid (hsize : f.Measurable) {cause : HeaderFault}
    (hinvalid : (s.headerFor f).validate = .error (.header cause)) :
    headerOf s f = .error (.argument (.header cause)) := by
  obtain ⟨hwidth, hheight⟩ := hsize
  unfold headerOf
  rw [if_neg (Nat.not_le.mpr hwidth), if_neg (Nat.not_le.mpr hheight)]
  change (s.headerFor f).validate.mapError Fault.asArgument >>= _ = _
  rw [hinvalid]
  rfl

theorem argument_of_headerOf {fault : Fault} (h : headerOf s f = .error fault) :
    ∃ cause, fault = .argument cause := by
  by_cases hwidth : 1 <<< 32 ≤ f.width
  · unfold headerOf at h
    rw [if_pos hwidth] at h
    cases h
    exact ⟨_, rfl⟩
  by_cases hheight : 1 <<< 32 ≤ f.height
  · unfold headerOf at h
    rw [if_neg hwidth, if_pos hheight] at h
    cases h
    exact ⟨_, rfl⟩
  have hsize : f.Measurable := ⟨Nat.not_le.mp hwidth, Nat.not_le.mp hheight⟩
  rcases hvalid : (s.headerFor f).validate with fault' | _
  · obtain ⟨cause, rfl⟩ := (s.headerFor f).onlyHeaderFaults_validate fault' hvalid
    rw [headerOf_of_invalid hsize hvalid] at h
    cases h
    exact ⟨_, rfl⟩
  · obtain ⟨header, hheader⟩ := exists_headerOf_iff.mpr ⟨hsize, hvalid⟩
    rw [hheader] at h
    cases h

variable (hs : s.validate = .ok ())

include hs

/-- A frame is coded exactly if it can be, and a given mesh fits it. -/
theorem exists_encodeFrame_iff :
    (∃ e, m.encodeFrame s f mesh = .ok e) ↔
      f.Codable s ∧ (s.mode = .advanced → MeshFits (s.headerFor f) mesh) := by
  constructor
  · rintro ⟨e, he⟩
    obtain ⟨c⟩ := coding_of_encodeFrame hs he
    obtain ⟨-, heq, -⟩ := headerOf_eq_ok_iff.mp c.header_eq
    have hheader : c.header = s.headerFor f := heq
    exact ⟨exists_headerOf_iff.mp ⟨c.header, c.header_eq⟩, hheader ▸ c.meshFits⟩
  · rintro ⟨⟨hsize, hvalid⟩, hmesh⟩
    have hheader : headerOf s f = .ok (s.headerFor f) :=
      headerOf_eq_ok_iff.mpr ⟨hsize, rfl, hvalid⟩
    obtain ⟨c⟩ := exists_coding m hs hheader hmesh
    obtain ⟨e, he, -⟩ := c.exists_encodeFrame
    exact ⟨e, he⟩

/-- Coding a frame has no faults but faults of its arguments. -/
theorem argument_of_encodeFrame {fault : Fault} (h : m.encodeFrame s f mesh = .error fault) :
    ∃ cause, fault = .argument cause := by
  rcases m.encodeFrame_cases hs f mesh with
    ⟨fault', hheader, hcode⟩ | ⟨_, _, -, -, -, -, hcode⟩ | ⟨⟨c⟩⟩
  · rw [hcode] at h
    cases h
    exact argument_of_headerOf hheader
  · rw [hcode] at h
    cases h
    exact ⟨_, rfl⟩
  · obtain ⟨e, hcode, -⟩ := c.exists_encodeFrame
    rw [hcode] at h
    cases h

end Model

namespace Codec

variable (c : Codec) (f : Frame) (mesh : RelevanceMesh)

/-- The mesh is for an advanced frame and has the blocks of its grid. -/
def Accepts (mesh : RelevanceMesh) : Prop :=
  c.settings.mode = .advanced ∧ mesh.blocksW = (c.settings.headerFor f).blocksW.toNat ∧
    mesh.blocksH = (c.settings.headerFor f).blocksH.toNat

theorem exists_encode_iff : (∃ e, c.encode f = .ok e) ↔ f.Codable c.settings := by
  rw [encode, Model.exists_encodeFrame_iff c.valid]
  exact and_iff_left fun _ given hgiven => by cases hgiven

theorem exists_encodeWithMesh_iff :
    (∃ e, c.encodeWithMesh f mesh = .ok e) ↔ f.Codable c.settings ∧ c.Accepts f mesh := by
  unfold encodeWithMesh Accepts
  by_cases hmode : c.settings.mode = .advanced
  · rw [if_neg (not_not_intro hmode), Model.exists_encodeFrame_iff c.valid]
    constructor
    · rintro ⟨hcodable, hmesh⟩
      exact ⟨hcodable, hmode, hmesh hmode mesh rfl⟩
    · rintro ⟨hcodable, -, hmesh⟩
      refine ⟨hcodable, fun _ given hgiven => ?_⟩
      cases hgiven
      exact hmesh
  · rw [if_pos hmode]
    constructor
    · rintro ⟨e, he⟩
      cases he
    · rintro ⟨-, hadvanced, -⟩
      exact absurd hadvanced hmode

variable {c f mesh}

theorem argument_of_encodeWithMesh {fault : Fault} (h : c.encodeWithMesh f mesh = .error fault) :
    ∃ cause, fault = .argument cause := by
  unfold encodeWithMesh at h
  split at h
  · cases h
    exact ⟨_, rfl⟩
  · exact Model.argument_of_encodeFrame c.valid h

/-- A frame whose header would be invalid is refused for that reason, mesh or no mesh. -/
theorem encode_of_invalid (mesh : RelevanceMesh) (hsize : f.Measurable) {cause : HeaderFault}
    (hinvalid : (c.settings.headerFor f).validate = .error (.header cause)) :
    c.encode f = .error (.argument (.header cause)) ∧
      (c.settings.mode = .advanced →
        c.encodeWithMesh f mesh = .error (.argument (.header cause))) := by
  have hheader := Model.headerOf_of_invalid hsize hinvalid
  refine ⟨Model.encodeFrame_of_header_error c.valid hheader none, fun hmode => ?_⟩
  rw [encodeWithMesh, if_neg (not_not_intro hmode)]
  exact Model.encodeFrame_of_header_error c.valid hheader (some mesh)

end Codec

def Model.even : Model :=
  ⟨.ofLadders fun _ => .even, Float32.pow⟩

/-- A packed plane whose pixels rise along every row and from row to row. -/
def Plane.slope (width height : Nat) : Plane :=
  ⟨width, height, width,
    Array.ofFn fun i : Fin (height * width) => UInt8.ofNat (30 + 12 * (i % width) + 9 * (i / width)),
    Nat.le_refl _, by
      cases height with
      | zero => exact .inl rfl
      | succ h => exact .inr (by simp [Nat.succ_mul])⟩

/-- A picture of ten by eight pixels, its chroma halved both ways. -/
def Frame.slope : Frame :=
  ⟨.yuv420, ⟨.slope 10 8, .slope 5 4, .slope 5 4⟩, rfl, rfl⟩

/-- A codec that cuts frames into four blocks and drops samples. -/
def Codec.fourBlocks : Codec :=
  ⟨.standard, { mode := .advanced, blocksW := 2, blocksH := 2 }, rfl⟩

theorem Codec.codable_slope : Frame.slope.Codable fourBlocks.settings :=
  ⟨⟨by decide, by decide⟩, by decide +kernel⟩

theorem Codec.exists_encode_slope : ∃ e, fourBlocks.encode .slope = .ok e :=
  (fourBlocks.exists_encode_iff .slope).mpr codable_slope

end HopCodec
