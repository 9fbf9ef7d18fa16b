/-
Containers on the machine.  Payloads are written, or refused, as in the plain format.  No place is
beyond the end of the data, so that nothing is fetched there and no difference is negative: the
machine reads every byte string as the plain format does.
-/
import HopCodec.Machine.Container
import HopCodec.Proofs.Container
import HopCodec.Proofs.Machine.Word

namespace HopCodec

namespace Machine.Container

open HopCodec.Container (magic headerSize entrySize)

variable {digest : Bytes → UInt32} {data : Bytes} {place : Nat}

theorem word_eq (hdata : data.size < wordSize) (hplace : place + 4 ≤ data.size) :
    word data place = .ok (Checksum.word data place) := by
  have hnext (k : Nat) (hk : k < 4) : add place k = .ok (place + k) := add_eq (by omega)
  have hfetch (k : Nat) (hk : k < 4) :
      fetch data (place + k) = .ok (data.getD (place + k) 0) := fetch_eq_getD (by omega) 0
  have hfirst := hfetch 0 (by decide)
  rw [Nat.add_zero] at hfirst
  simp only [word, hfirst, hnext, hfetch, Nat.reduceLT, ok_bind, pure_eq_ok]
  rfl

theorem countBytes_eq (n : Nat) (fault : ArgumentFault) :
    countBytes n fault = if 1 <<< 32 ≤ n then refuse (.argument fault)
      else .ok (HopCodec.Container.wordBytes (UInt32.ofNat n)) := by
  by_cases hlarge : 1 <<< 32 ≤ n
  · rw [if_pos hlarge]
    exact if_neg (Nat.not_lt.mpr hlarge)
  · rw [if_neg hlarge]
    exact if_pos (Nat.not_le.mp hlarge)

/-- Payloads are written one behind the other up to the first one that is too large. -/
theorem foldlM_writeEntry_eq (digest : Bytes → UInt32) (payloads : List Bytes) (out : Bytes) :
    payloads.foldlM (writeEntry digest) out =
      if payloads.any fun payload => 1 <<< 32 ≤ payload.size then
        refuse (.argument .payloadTooLarge)
      else .ok (payloads.foldl
        (fun out payload => out ++ HopCodec.Container.entryBytes digest payload) out) := by
  induction payloads generalizing out with
  | nil => rfl
  | cons payload rest ih =>
      rw [List.foldlM_cons, writeEntry, countBytes_eq, List.any_cons, List.foldl_cons]
      by_cases hlarge : 1 <<< 32 ≤ payload.size
      · simp only [hlarge, if_true, decide_true, Bool.true_or]
        rfl
      · simp only [hlarge, if_false, decide_false, Bool.false_or, ok_bind, pure_eq_ok, ih]
        rw [HopCodec.Container.entryBytes, Array.append_assoc, Array.append_assoc,
          Array.append_assoc]

/-- The machine writes payloads as the plain format does, and refuses them for the same reasons. -/
theorem writeWith_eq (digest : Bytes → UInt32) (payloads : List Bytes) :
    writeWith digest payloads = lift (HopCodec.Container.writeWith digest payloads) := by
  rw [writeWith, HopCodec.Container.writeWith, countBytes_eq]
  split
  · rfl
  · rw [ok_bind, foldlM_writeEntry_eq]
    split <;> rfl

theorem isContainer_eq : isContainer data = .ok (HopCodec.Container.isContainer data) := by
  unfold isContainer HopCodec.Container.isContainer
  by_cases hshort : data.size < magic.size
  · rw [if_pos hshort]
    have hne : data.extract 0 magic.size ≠ magic := by
      intro heq
      have hsize := congrArg Array.size heq
      rw [Array.size_extract] at hsize
      omega
    simp only [hne, decide_false]
    rfl
  · rw [if_neg hshort]
    simp only [slice_eq (Nat.zero_le _) (Nat.not_lt.mp hshort)]
    rfl

/-- The machine reads entries as the plain format does, from any place within the data. -/
theorem readEntries_eq (hdata : data.size < wordSize) (count : Nat)
    (hplace : place ≤ data.size) :
    readEntries digest data place count =
      lift (HopCodec.Container.readEntries digest data place count) := by
  induction count generalizing place with
  | zero =>
      simp only [readEntries, HopCodec.Container.readEntries, sub_eq hplace, ok_bind]
      by_cases hend : place = data.size
      · rw [if_pos hend, if_neg (not_not_intro hend)]
        rfl
      · rw [if_neg hend, if_pos hend]
        rfl
  | succ count ih =>
      simp only [readEntries, HopCodec.Container.readEntries, sub_eq hplace, ok_bind]
      by_cases hprefix : data.size < place + entrySize
      · rw [if_pos hprefix, if_pos (by omega)]
        rfl
      have hfour : place + 4 + 4 ≤ data.size := by
        unfold entrySize at hprefix
        omega
      have hstart : add place entrySize = .ok (place + entrySize) := add_eq (by omega)
      have hhalf : add place 4 = .ok (place + 4) := add_eq (by omega)
      rw [if_neg hprefix, if_neg (by omega)]
      simp only [pure_eq_ok, word_eq hdata (Nat.le_of_add_right_le hfour), word_eq hdata hfour,
        hstart, hhalf, sub_eq (Nat.not_lt.mp hprefix), ok_bind]
      by_cases hlength : data.size < place + entrySize + (Checksum.word data place).toNat
      · rw [if_pos hlength, if_pos (by omega)]
        rfl
      have hstop : add (place + entrySize) (Checksum.word data place).toNat =
          .ok (place + entrySize + (Checksum.word data place).toNat) := add_eq (by omega)
      rw [if_neg hlength, if_neg (by omega)]
      simp only [hstop, ok_bind, slice_eq (Nat.le_add_right _ _) (Nat.not_lt.mp hlength)]
      split
      · rfl
      · rw [ih (Nat.not_lt.mp hlength), lift_bind]
        rfl

/-- The machine reads every byte string as the plain format does. -/
theorem readWith_eq (digest : Bytes → UInt32) (hdata : data.size < wordSize) :
    readWith digest data = lift (HopCodec.Container.readWith digest data) := by
  unfold readWith HopCodec.Container.readWith
  simp only [isContainer_eq, ok_bind]
  by_cases hheader : data.size < headerSize
  · rw [if_pos hheader, if_pos hheader]
    by_cases hmagic : data.size < magic.size
    · rw [if_pos hmagic, if_pos hmagic]
      rfl
    · rw [if_neg hmagic, if_neg hmagic]
      cases HopCodec.Container.isContainer data <;> rfl
  · have hmagic : ¬ data.size < magic.size := by
      have hle : magic.size ≤ headerSize := by decide
      omega
    rw [if_neg hheader, if_neg hheader, if_neg hmagic]
    cases HopCodec.Container.isContainer data with
    | false => rfl
    | true =>
        have hword : word data 4 = .ok (Checksum.word data 4) :=
          word_eq hdata (Nat.not_lt.mp hheader)
        simp only [hword, ok_bind]
        exact readEntries_eq hdata _ (Nat.not_lt.mp hheader)

end Machine.Container

namespace Container

/-- Containers are exact, whatever the checksum is.  Payloads that are few and short enough are
written, and read back in order with checksum and place; nothing but the whole of what was written
is read, as a beginning of it is truncated and a byte behind it trails.  Whatever is read is what
would be written.  The machine writes all payloads and reads every byte string alike, and never
traps.  With XXH32 for the checksum these are `write` and `read`. -/
theorem format_exact (digest : Bytes → UInt32) :
    (∀ payloads : List Bytes, payloads.length < 2 ^ 32 →
      (∀ payload ∈ payloads, payload.size < 2 ^ 32) →
        ∃ data, writeWith digest payloads = .ok data ∧
          readWith digest data = .ok (payloads.mapIdx fun i payload =>
            ⟨headerSize + ((payloads.take i).map fun before => entrySize + before.size).sum,
              digest payload, payload⟩) ∧
          (∀ size < data.size, readWith digest (data.extract 0 size) = .error .truncated) ∧
          ∀ extra : Bytes, 0 < extra.size →
            readWith digest (data ++ extra) =
              .error (.format (.trailingBytes extra.size))) ∧
    (∀ data entries, readWith digest data = .ok entries →
      writeWith digest (entries.map ContainerEntry.payload) = .ok data) ∧
    (∀ payloads,
      Machine.Container.writeWith digest payloads = Machine.lift (writeWith digest payloads)) ∧
    ∀ data : Bytes, data.size < Machine.wordSize →
      Machine.Container.readWith digest data = Machine.lift (readWith digest data) ∧
        ∀ trap, Machine.Container.readWith digest data ≠ .error (.trap trap) := by
  refine ⟨?_, fun data entries => write_of_readWith, Machine.Container.writeWith_eq digest, ?_⟩
  · intro payloads hcount hsizes
    obtain ⟨data, hdata⟩ := exists_writeWith digest hcount hsizes
    have hread := readWith_append hdata #[]
    rw [Array.append_empty, if_pos Array.size_empty, entriesFrom_eq_mapIdx] at hread
    refine ⟨data, hdata, hread, fun size => readWith_cut hdata, fun extra hextra => ?_⟩
    rw [readWith_append hdata extra, if_neg (Nat.ne_of_gt hextra)]
  · intro data hdata
    have hread := Machine.Container.readWith_eq digest hdata
    refine ⟨hread, ?_⟩
    rw [hread]
    exact Machine.lift_ne_trap _

/-- An empty payload and one of three bytes. -/
theorem format_exact_twoPayloads :
    ∃ data, write [#[], #[1, 2, 3]] = .ok data ∧
      read data = .ok [⟨8, xxh32 #[] 0, #[]⟩, ⟨16, xxh32 #[1, 2, 3] 0, #[1, 2, 3]⟩] ∧
        (∀ size < data.size, read (data.extract 0 size) = .error .truncated) ∧
          read (data ++ #[0]) = .error (.format (.trailingBytes 1)) := by
  obtain ⟨hwritten, -⟩ := format_exact fun payload => xxh32 payload 0
  obtain ⟨data, hdata, hread, hcut, hextra⟩ :=
    hwritten [#[], #[1, 2, 3]] (by decide) (by decide)
  exact ⟨data, hdata, hread, hcut, hextra #[0] (by decide)⟩

end Container

end HopCodec
