/-
Jobs and the files they leave.  A job that fails leaves every file as it was, and one that ends well
changes its output and nothing else.  The container that coding leaves holds the payload of every
frame in order and is decoded to the reconstructions of the coder.
-/
import HopCodec.Proofs.Frame.RoundTrip
import HopCodec.Proofs.Image.Yuv
import HopCodec.Proofs.Job.Decoding
import HopCodec.Proofs.Job.Encoding

namespace HopCodec

/-- A sequence is the packed planes of its frames, one plane behind the other. -/
theorem Yuv.toList_writeAll (frames : List Frame) :
    (Yuv.writeAll frames).toList =
      frames.flatMap fun f => f.packed.toList.flatMap Array.toList := by
  induction frames with
  | nil => rfl
  | cons f rest ih =>
      have hfront : Yuv.writeAll (f :: rest) = Yuv.write f ++ Yuv.writeAll rest := by
        rw [← Yuv.writeAll_singleton, ← Yuv.writeAll_append, List.singleton_append]
      rw [hfront, Array.toList_append, ih, List.flatMap_cons, Yuv.write_eq]
      simp [Channels.toList]

theorem Codec.new?_eq_ok_iff {model : Model} {settings : Settings} {codec : Codec} :
    Codec.new? model settings = .ok codec ↔ codec.model = model ∧ codec.settings = settings := by
  obtain ⟨m, s, hs⟩ := codec
  unfold Codec.new?
  split
  next hvalid => simp [eq_comm]
  next fault hfault =>
    constructor
    · intro h
      cases h
    · rintro ⟨-, rfl⟩
      cases hfault.symm.trans hs

namespace Container

theorem map_payload_entriesFrom (digest : Bytes → UInt32) (place : Nat) (payloads : List Bytes) :
    (entriesFrom digest place payloads).map ContainerEntry.payload = payloads := by
  induction payloads generalizing place with
  | nil => rfl
  | cons payload rest ih => rw [entriesFrom, List.map_cons, ih]

/-- What payloads are written as is read as entries with these payloads. -/
theorem exists_read_of_write {payloads : List Bytes} {data : Bytes}
    (h : write payloads = .ok data) :
    ∃ entries, read data = .ok entries ∧ entries.map ContainerEntry.payload = payloads := by
  have hread := readWith_append h #[]
  rw [Array.append_empty, if_pos Array.size_empty] at hread
  exact ⟨_, hread, map_payload_entriesFrom _ _ payloads⟩

end Container

namespace Job

variable {α : Type}

/-- A job that fails leaves every file as it was, and one that ends well changes nothing but the
file that a path leads to. -/
def AllOrNothing (job : Job α) (path : String) (s : Session) : Prop :=
  match job.run s with
  | .error _ t => t.tree = s.tree
  | .ok _ t => ∃ p, s.tree.outputPlace path = .ok p ∧ s.tree.SameBut t.tree p

theorem allOrNothing_of_cases {job : Job α} {path : String} {s : Session}
    (h : (∃ fault t, job.run s = .error fault t ∧ t.tree = s.tree) ∨
      ∃ a p data t, job.run s = .ok a t ∧ s.tree.outputPlace path = .ok p ∧
        t.tree = s.tree.put p (.file data)) :
    AllOrNothing job path s := by
  unfold AllOrNothing
  rcases h with ⟨fault, t, hrun, htree⟩ | ⟨a, p, data, t, hrun, hplace, htree⟩
  · rw [hrun]
    exact htree
  · rw [hrun]
    exact ⟨p, hplace, htree ▸ FileTree.sameBut_put_file hplace data⟩

def Holds (s : Session) (path : String) (chroma : ChromaFormat) (size : Option (Nat × Nat))
    (frames : List Frame) : Prop :=
  ∃ t, (loadFrames path chroma size).run s = .ok frames t

theorem holds_iff {s : Session} {path : String} {chroma : ChromaFormat}
    {size : Option (Nat × Nat)} {frames : List Frame} :
    Holds s path chroma size frames ↔ framesOf path chroma size s.tree = .ok frames := by
  obtain ⟨t, -, hrun⟩ := observes_loadFrames path chroma size s
  rw [Holds, hrun]
  cases framesOf path chroma size s.tree with
  | error fault => simp [ended]
  | ok loaded => simp [ended]

section Decoded

variable {model : Model} {codec other : Codec} {frames : List Frame} {es : List CodedFrame}

/-- The payloads of coded frames are decoded to the reconstructions. -/
theorem mapM_decode (hmodel : other.model = codec.model) {entries : List ContainerEntry}
    (hes : List.Forall₂ (fun f e => codec.encode f = .ok e) frames es)
    (hentries : entries.map ContainerEntry.payload = es.map CodedFrame.bytes) :
    ∃ decoded, (entries.mapM fun entry => other.decode entry.payload) = .ok decoded ∧
      decoded.map DecodedFrame.frame = es.map CodedFrame.reconstruction := by
  induction hes generalizing entries with
  | nil =>
      obtain rfl := List.map_eq_nil_iff.mp hentries
      exact ⟨[], rfl, rfl⟩
  | @cons f e fs es he _ ih =>
      obtain ⟨entry, rest, rfl, hentry, hrest⟩ := List.map_eq_cons_iff.mp hentries
      obtain ⟨decoded, hdecoded, hmap⟩ := ih hrest
      obtain ⟨first, hfirst, -, hframe⟩ := Codec.decode_encode codec other hmodel f e (.inl he)
      refine ⟨first :: decoded, ?_, by rw [List.map_cons, List.map_cons, hframe, hmap]⟩
      rw [List.mapM_cons, hentry, hfirst, hdecoded]
      rfl

/-- A container of coded frames is decoded to the planes of the reconstructions. -/
theorem decodedBytes_of_coded {settings : Settings} (hmodel : codec.model = model)
    (hsettings : settings.validate = .ok ())
    (hes : List.Forall₂ (fun f e => codec.encode f = .ok e) frames es) {data : Bytes}
    (hdata : Container.write (es.map CodedFrame.bytes) = .ok data) :
    decodedBytes model settings .yuv data =
      .ok ⟨data.size, es.map CodedFrame.reconstruction,
        Yuv.writeAll (es.map CodedFrame.reconstruction)⟩ := by
  obtain ⟨entries, hread, hentries⟩ := Container.exists_read_of_write hdata
  have hsame : (Codec.mk model settings hsettings).model = codec.model := hmodel.symm
  obtain ⟨decoded, hdecoded, hframes⟩ := mapM_decode hsame hes hentries
  have hcodec : Codec.new? model settings = .ok ⟨model, settings, hsettings⟩ :=
    Codec.new?_eq_ok_iff.mpr ⟨rfl, rfl⟩
  have hcontainer : framesOfContainer ⟨model, settings, hsettings⟩ data =
      .ok (es.map CodedFrame.reconstruction) := by
    rw [framesOfContainer, hread, ← hframes]
    simp only [bind, Except.bind] at hdecoded ⊢
    rw [hdecoded]
  rw [decodedBytes, hcodec]
  simp only [bind, Except.bind, hcontainer]
  rfl

end Decoded

/-- Wherever a container is and whatever the settings are, as long as they are valid, every job
decodes it to a sequence file that may be written.  The file then holds the given bytes. -/
def DecodedTo (model : Model) (data : Bytes) (content : List UInt8) : Prop :=
  ∀ (settings : Settings) (container target : String) (overwrite : Bool) (s : Session),
    settings.validate = .ok () → ImageFormat.ofPath? target = some .yuv →
      s.tree.read container = .ok data → s.tree.Writable target overwrite →
        ∃ report t file,
          (decodeFile model settings container target overwrite).run s = .ok report t ∧
            t.tree.read target = .ok file ∧ file.toList = content

theorem decodedTo_of_coded {model : Model} {codec : Codec} {frames : List Frame}
    {es : List CodedFrame} (hmodel : codec.model = model)
    (hes : List.Forall₂ (fun f e => codec.encode f = .ok e) frames es) {data : Bytes}
    (hdata : Container.write (es.map CodedFrame.bytes) = .ok data) :
    DecodedTo model data
      (es.flatMap fun e => e.reconstruction.packed.toList.flatMap Array.toList) := by
  intro settings container target overwrite s hsettings hformat hread hwritable
  have hbytes := decodedBytes_of_coded hmodel hsettings hes hdata
  have hinput : (inputOf container s.tree >>= decodedBytes model settings .yuv) =
      .ok ⟨data.size, es.map CodedFrame.reconstruction,
        Yuv.writeAll (es.map CodedFrame.reconstruction)⟩ := by
    rw [inputOf_eq_ok_iff.mpr hread]
    exact hbytes
  rcases decodeFile_cases model settings container target overwrite s with
    ⟨fault, t, -, -, hfailed⟩ | ⟨format, decoded, report, p, t, hformat', hdecoded, hplace, hrun,
      htree⟩
  · exact absurd hwritable (hfailed .yuv _ hformat hinput)
  · cases hformat.symm.trans hformat'
    cases hinput.symm.trans hdecoded
    refine ⟨report, t, _, hrun, htree ▸ FileTree.read_put_self hplace _, ?_⟩
    rw [Yuv.toList_writeAll, List.flatMap_map]

/-- Files are written as a whole or not at all.  A coding job, of an input with fewer than `2 ^ 32`
frames, and a decoding job fail and leave every file as it was, or change their output only.  After
coding, the output is a container of the size reported.  It holds a payload for every frame of the
input in order, each what the codec with the fitted grid gives for the frame, and it is decoded to
the planes of the reconstructions, one behind the other. -/
theorem all_or_nothing (model : Model) :
    (∀ (settings : Settings) (input output : String) (size : Option (Nat × Nat))
      (overwrite : Bool) (s : Session),
      (∀ frames, Holds s input settings.chroma size frames → frames.length < 2 ^ 32) →
        AllOrNothing (encodeFile model settings input output size overwrite) output s ∧
        ∀ report t,
          (encodeFile model settings input output size overwrite).run s = .ok report t →
            ∃ frames first codec es data entries,
              Holds s input settings.chroma size frames ∧ frames.head? = some first ∧
              report.blocks = settings.fitGrid first.width first.height settings.chroma ∧
              Codec.new? model (settings.withBlocks report.blocks.1 report.blocks.2) = .ok codec ∧
              List.Forall₂ (fun f e => codec.encode f = .ok e) frames es ∧
              t.tree.read output = .ok data ∧ report.encodedBytes = data.size ∧
              Container.read data = .ok entries ∧
              entries.map ContainerEntry.payload = es.map CodedFrame.bytes ∧
              DecodedTo model data
                (es.flatMap fun e => e.reconstruction.packed.toList.flatMap Array.toList)) ∧
    ∀ (settings : Settings) (input output : String) (overwrite : Bool) (s : Session),
      AllOrNothing (decodeFile model settings input output overwrite) output s := by
  refine ⟨fun settings input output size overwrite s hcount => ?_,
    fun settings input output overwrite s => allOrNothing_of_cases ?_⟩
  · have hframes : ∀ frames, framesOf input settings.chroma size s.tree = .ok frames →
        frames.length < 2 ^ 32 := fun frames h => hcount frames (holds_iff.mpr h)
    rcases encodeFile_cases model settings input output size overwrite s hframes with
      ⟨fault, t, hrun, htree⟩ | ⟨frames, coded, p, data, t, hloaded, hcoded, hplace, hdata, hrun,
        htree⟩
    · refine ⟨allOrNothing_of_cases (.inl ⟨fault, t, hrun, htree⟩), fun report u hok => ?_⟩
      cases hrun.symm.trans hok
    · refine ⟨allOrNothing_of_cases (.inr ⟨_, p, data, t, hrun, hplace, htree⟩),
        fun report u hok => ?_⟩
      cases hrun.symm.trans hok
      obtain ⟨first, codec, es, hfirst, hcodec, hes, rfl⟩ := codedFrames_eq_ok hcoded
      obtain ⟨entries, hread, hentries⟩ := Container.exists_read_of_write hdata
      exact ⟨frames, first, codec, es, data, entries, holds_iff.mpr hloaded, hfirst, rfl, hcodec,
        hes, htree ▸ FileTree.read_put_self hplace data, rfl, hread, hentries,
        decodedTo_of_coded (Codec.new?_eq_ok_iff.mp hcodec).1 hes hdata⟩
  · rcases decodeFile_cases model settings input output overwrite s with
      ⟨fault, t, hrun, htree, -⟩ | ⟨format, decoded, report, p, t, -, -, hplace, hrun, htree⟩
    · exact .inl ⟨fault, t, hrun, htree⟩
    · exact .inr ⟨report, p, _, t, hrun, hplace, htree⟩

/-- A frame of four by four pixels whose four blocks have one color each. -/
def patches (a b c d : UInt8) : Bytes :=
  #[a, a, b, b, a, a, b, b, c, c, d, d, c, c, d, d] ++ #[b, c, d, a] ++ #[d, c, b, a]

def threeFrames : Session :=
  ⟨0, ⟨[(["in.yuv"], .file (patches 10 60 110 160 ++ patches 20 70 120 170 ++
    patches 30 80 130 180))]⟩, "", ""⟩

def codeThreeFrames : Job EncodeReport :=
  encodeFile .even {} "in.yuv" "out.lhe" (some (4, 4)) false

/-- Whether the sequence has three frames, by reading it. -/
def hasThreeFrames (s : Session) : Bool :=
  (framesOf "in.yuv" .yuv420 (some (4, 4)) s.tree).toOption.all (·.length = 3)

theorem length_eq_of_hasThreeFrames {s : Session} (hthree : hasThreeFrames s = true)
    (frames : List Frame) (h : Holds s "in.yuv" .yuv420 (some (4, 4)) frames) :
    frames.length = 3 := by
  simp only [hasThreeFrames, holds_iff.mp h] at hthree
  simpa [Except.toOption] using hthree

/-- Coding the frames ends well and leaves room for a decoded sequence.  Done once more, it fails. -/
theorem exists_codeThreeFrames :
    ∃ report t, codeThreeFrames.run threeFrames = .ok report t ∧ hasThreeFrames t = true ∧
      t.tree.Writable "back.yuv" false ∧ ∃ fault u, codeThreeFrames.run t = .error fault u := by
  have hran : (match codeThreeFrames.run threeFrames with
      | .ok _ t => hasThreeFrames t && (t.tree.outputPlace "back.yuv").isOk &&
          !t.tree.hasPath "back.yuv" && match codeThreeFrames.run t with
          | .ok _ _ => false
          | .error _ _ => true
      | .error _ _ => false) = true := by
    decide +kernel
  cases hfirst : codeThreeFrames.run threeFrames with
  | error fault t =>
      rw [hfirst] at hran
      cases hran
  | ok report t =>
      rw [hfirst] at hran
      simp only [Bool.and_eq_true, Bool.not_eq_true'] at hran
      obtain ⟨⟨⟨hthree, hplace⟩, hfree⟩, hagain⟩ := hran
      refine ⟨report, t, rfl, hthree, ⟨?_, .inr hfree⟩, ?_⟩
      · cases hback : t.tree.outputPlace "back.yuv" with
        | error fault =>
            rw [hback] at hplace
            cases hplace
        | ok p => exact ⟨p, rfl⟩
      · cases hsecond : codeThreeFrames.run t with
        | ok report u =>
            rw [hsecond] at hagain
            cases hagain
        | error fault u => exact ⟨fault, u, rfl⟩

/-- Three frames are coded into a container of three entries, which is decoded again.  Coded once
more, the container that is there is kept. -/
theorem all_or_nothing_threeFrames :
    ∃ report t, codeThreeFrames.run threeFrames = .ok report t ∧
      (∃ p, threeFrames.tree.outputPlace "out.lhe" = .ok p ∧
        threeFrames.tree.SameBut t.tree p) ∧
      (∃ data entries, t.tree.read "out.lhe" = .ok data ∧ Container.read data = .ok entries ∧
        entries.length = 3) ∧
      (∃ report' u file, (decodeFile .even {} "out.lhe" "back.yuv" false).run t =
        .ok report' u ∧ u.tree.read "back.yuv" = .ok file) ∧
      ∃ fault u, codeThreeFrames.run t = .error fault u ∧ u.tree = t.tree := by
  obtain ⟨report, t, hfirst, hthree', hwritable, fault, u, hsecond⟩ := exists_codeThreeFrames
  have hthree : hasThreeFrames threeFrames = true := by
    decide +kernel
  obtain ⟨hencode, -⟩ := all_or_nothing .even
  have hcode (s : Session) (hs : hasThreeFrames s = true) :
      AllOrNothing codeThreeFrames "out.lhe" s ∧ _ :=
    hencode {} "in.yuv" "out.lhe" (some (4, 4)) false s fun frames h =>
      (length_eq_of_hasThreeFrames hs frames h).trans_lt (by decide)
  obtain ⟨hwhole, hcoded⟩ := hcode threeFrames hthree
  obtain ⟨hwhole', -⟩ := hcode t hthree'
  rw [AllOrNothing, hfirst] at hwhole
  rw [AllOrNothing, hsecond] at hwhole'
  obtain ⟨frames, _, _, es, data, entries, hholds, -, -, -, hes, hread, -, hentries, hpayloads,
    hdecoded⟩ := hcoded report t hfirst
  have hcount : entries.length = 3 := by
    have hlength := congrArg List.length hpayloads
    rw [List.length_map, List.length_map, ← hes.length_eq] at hlength
    exact hlength.trans (length_eq_of_hasThreeFrames hthree frames hholds)
  obtain ⟨report', v, file, hdecode, hfile, -⟩ := hdecoded {} "out.lhe" "back.yuv" false t rfl
    (by decide +kernel) hread hwritable
  exact ⟨report, t, hfirst, hwhole, ⟨data, entries, hread, hentries, hcount⟩,
    ⟨report', v, file, hdecode, hfile⟩, fault, u, hsecond, hwhole'⟩

end Job

end HopCodec
