/-
Containers.  What is written is read back with the place of every entry, whatever the checksum is,
and what is read is what was written: magic, count and lengths leave nothing to choose.  A cut
leaves an entry that is too short, and bytes that follow the last entry are noticed.
-/
import Mathlib.Algebra.GroupWithZero.Nat
import HopCodec.Container
import HopCodec.Proofs.Bits.Taking

namespace HopCodec

open Reading

theorem BitWriter.wordBytes_injective {a b : UInt32} (h : wordBytes a = wordBytes b) : a = b := by
  simp only [wordBytes, List.cons.injEq, and_true] at h
  rw [← wordBytes_join a, ← wordBytes_join b, h.1, h.2.1, h.2.2.1, h.2.2.2]

theorem toList_extract_zero (data : Bytes) (size : Nat) :
    (data.extract 0 size).toList = data.toList.take size := by
  simp

namespace Checksum

/-- The bytes from a place on begin with those of the word there. -/
theorem drop_eq_word (data : Bytes) (place : Nat) (h : place + 4 ≤ data.size) :
    data.toList.drop place =
      BitWriter.wordBytes (word data place) ++ data.toList.drop (place + 4) := by
  have hget : ∀ k < 4, data.toList[place + k]? = some (data.getD (place + k) 0) := by
    intro k hk
    have hlt : place + k < data.size := by omega
    rw [Array.getElem?_toList, Array.getD_eq_getD_getElem?, Array.getElem?_eq_getElem hlt,
      Option.getD_some]
  have hstep : ∀ k < 4, data.toList.drop (place + k) =
      data.getD (place + k) 0 :: data.toList.drop (place + (k + 1)) := by
    intro k hk
    rw [List.drop_eq_getElem?_toList_append, hget k hk]
    rfl
  have h0 := hstep 0 (by decide)
  rw [Nat.add_zero] at h0
  rw [h0, hstep 1 (by decide), hstep 2 (by decide), hstep 3 (by decide), word, join_wordBytes]
  rfl

/-- The word whose bytes come next is the one read. -/
theorem word_eq {data : Bytes} {place : Nat} {w : UInt32} {rest : List UInt8}
    (h : data.toList.drop place = BitWriter.wordBytes w ++ rest) :
    word data place = w ∧ data.toList.drop (place + 4) = rest := by
  have hlength := congrArg List.length h
  simp only [List.length_drop, Array.length_toList, List.length_append, BitWriter.wordBytes,
    List.length_cons, List.length_nil] at hlength
  rw [drop_eq_word data place (by omega)] at h
  obtain ⟨hword, hrest⟩ := List.append_inj h rfl
  exact ⟨BitWriter.wordBytes_injective hword, hrest⟩

end Checksum

namespace Container

variable (digest : Bytes → UInt32)

def body (payloads : List Bytes) : List UInt8 :=
  payloads.flatMap fun payload => (entryBytes digest payload).toList

def entriesFrom (place : Nat) : List Bytes → List ContainerEntry
  | [] => []
  | payload :: rest =>
      ⟨place, digest payload, payload⟩ :: entriesFrom (place + (entrySize + payload.size)) rest

variable {digest : Bytes → UInt32} {data payload : Bytes} {payloads : List Bytes}
  {place count : Nat} {rest : List UInt8}

theorem toList_entryBytes (payload : Bytes) :
    (entryBytes digest payload).toList = BitWriter.wordBytes (UInt32.ofNat payload.size) ++
      (BitWriter.wordBytes (digest payload) ++ payload.toList) := by
  simp [entryBytes, wordBytes, BitWriter.wordBytes]

theorem size_entryBytes (payload : Bytes) :
    (entryBytes digest payload).size = entrySize + payload.size := by
  simp [entryBytes, wordBytes, entrySize]

/-- An entry is as far behind the first one as the payloads between them are long. -/
theorem entriesFrom_eq_mapIdx (place : Nat) (payloads : List Bytes) :
    entriesFrom digest place payloads = payloads.mapIdx fun i payload =>
      ⟨place + ((payloads.take i).map fun before => entrySize + before.size).sum, digest payload,
        payload⟩ := by
  induction payloads generalizing place with
  | nil => rfl
  | cons payload rest ih =>
      rw [entriesFrom, ih, List.mapIdx_cons]
      simp only [List.take_zero, List.map_nil, List.sum_nil, Nat.add_zero, List.take_succ_cons,
        List.map_cons, List.sum_cons, Nat.add_assoc]

/-- An entry that is there as a whole is read if its checksum is that of its payload. -/
theorem readEntries_stored (digest : Bytes → UInt32) (count : Nat) {stored : UInt32}
    (hsize : payload.size < 2 ^ 32)
    (hrest : data.toList.drop place = BitWriter.wordBytes (UInt32.ofNat payload.size) ++
      (BitWriter.wordBytes stored ++ (payload.toList ++ rest))) :
    place + (entrySize + payload.size) ≤ data.size ∧
      data.toList.drop (place + (entrySize + payload.size)) = rest ∧
      readEntries digest data place (count + 1) =
        if digest payload ≠ stored then .error (.checksum stored (digest payload))
        else (readEntries digest data (place + (entrySize + payload.size)) count).map
          (⟨place, stored, payload⟩ :: ·) := by
  have hfits : place + (entrySize + payload.size) ≤ data.size := by
    have hlength := congrArg List.length hrest
    simp only [List.length_drop, List.length_append, Array.length_toList, BitWriter.wordBytes,
      List.length_cons, List.length_nil] at hlength
    unfold entrySize
    omega
  obtain ⟨hlength, hbehind⟩ := Checksum.word_eq hrest
  obtain ⟨hchecksum, hbehind⟩ := Checksum.word_eq hbehind
  have hstart : place + 4 + 4 = place + entrySize := Nat.add_assoc place 4 4
  rw [hstart] at hbehind
  have hcount : (UInt32.ofNat payload.size).toNat = payload.size :=
    UInt32.toNat_ofNat_of_lt hsize
  have hpayload :
      data.extract (place + entrySize) (place + entrySize + payload.size) = payload := by
    apply Array.toList_inj.mp
    rw [Array.toList_extract, List.extract_eq_take_drop, hbehind, Nat.add_sub_cancel_left,
      ← Array.length_toList, List.take_left]
  refine ⟨hfits, ?_, ?_⟩
  · rw [← Nat.add_assoc, ← List.drop_drop, hbehind, ← Array.length_toList, List.drop_left]
  · rw [← Nat.add_assoc] at hfits ⊢
    simp only [readEntries, hlength, hcount, hchecksum, hpayload]
    rw [if_neg (by omega), if_neg (by omega)]
    cases readEntries digest data (place + entrySize + payload.size) count <;> rfl

/-- Entries that are there as a whole are read, and what comes next behind them. -/
theorem readEntries_append (count : Nat) (hsizes : ∀ payload ∈ payloads, payload.size < 2 ^ 32)
    (hplace : place ≤ data.size) (hrest : data.toList.drop place = body digest payloads ++ rest) :
    ∃ next ≤ data.size, next = place + (payloads.map fun payload => entrySize + payload.size).sum ∧
      data.toList.drop next = rest ∧
        readEntries digest data place (payloads.length + count) =
          (readEntries digest data next count).map (entriesFrom digest place payloads ++ ·) := by
  induction payloads generalizing place with
  | nil =>
      refine ⟨place, hplace, rfl, hrest, ?_⟩
      rw [List.length_nil, Nat.zero_add]
      cases readEntries digest data place count <;> rfl
  | cons payload more ih =>
      rw [List.forall_mem_cons] at hsizes
      rw [body, List.flatMap_cons, toList_entryBytes, List.append_assoc, List.append_assoc,
        List.append_assoc] at hrest
      obtain ⟨hfits, hbehind, hread⟩ :=
        readEntries_stored digest (more.length + count) hsizes.1 hrest
      obtain ⟨next, hnext, hplace', hrest', hmore⟩ := ih hsizes.2 hfits hbehind
      refine ⟨next, hnext, ?_, hrest', ?_⟩
      · rw [hplace', List.map_cons, List.sum_cons, Nat.add_assoc]
      · rw [List.length_cons, Nat.add_right_comm, hread, if_neg (not_not_intro rfl), hmore]
        cases readEntries digest data next count <;> rfl

/-- An entry that is there in part is too short. -/
theorem readEntries_cut (hsize : payload.size < 2 ^ 32)
    (hfront : data.toList.drop place <+: (entryBytes digest payload).toList)
    (hshort : data.size < place + (entrySize + payload.size)) :
    readEntries digest data place (count + 1) = .error .truncated := by
  by_cases hprefix : data.size < place + entrySize
  · simp only [readEntries, if_pos hprefix]
  have hword : Checksum.word data place = UInt32.ofNat payload.size := by
    have hfits : place + 4 ≤ data.size := by
      unfold entrySize at hprefix
      omega
    rw [toList_entryBytes, Checksum.drop_eq_word data place hfits] at hfront
    obtain ⟨more, hmore⟩ := hfront
    rw [List.append_assoc] at hmore
    exact BitWriter.wordBytes_injective (List.append_inj hmore rfl).1
  have hlength : (Checksum.word data place).toNat = payload.size := by
    rw [hword]
    exact UInt32.toNat_ofNat_of_lt hsize
  simp only [readEntries, if_neg hprefix, hlength]
  rw [if_pos (by omega)]

/-- Entries are read from behind one another, and nothing may follow the last one. -/
theorem readEntries_body (hsizes : ∀ payload ∈ payloads, payload.size < 2 ^ 32)
    (hplace : place ≤ data.size) (hrest : data.toList.drop place = body digest payloads ++ rest) :
    readEntries digest data place payloads.length =
      if rest.length = 0 then .ok (entriesFrom digest place payloads)
      else .error (.format (.trailingBytes rest.length)) := by
  obtain ⟨next, hnext, -, hbehind, hread⟩ := readEntries_append 0 hsizes hplace hrest
  have hleft : data.size - next = rest.length := by
    rw [← hbehind, List.length_drop, Array.length_toList]
  rw [Nat.add_zero] at hread
  rw [hread, readEntries, hleft]
  by_cases hend : rest.length = 0
  · rw [if_pos (by omega), if_pos hend]
    exact congrArg Except.ok (List.append_nil _)
  · rw [if_neg (by omega), if_neg hend]
    rfl

/-- Entries that are cut off somewhere are too short. -/
theorem readEntries_body_cut (hsizes : ∀ payload ∈ payloads, payload.size < 2 ^ 32)
    (hfront : data.toList.drop place <+: body digest payloads)
    (hshort : data.size - place < (body digest payloads).length) :
    readEntries digest data place payloads.length = .error .truncated := by
  induction payloads generalizing place with
  | nil => exact absurd hshort (Nat.not_lt_zero _)
  | cons payload more ih =>
      rw [List.forall_mem_cons] at hsizes
      rw [body, List.flatMap_cons] at hfront hshort
      rw [List.length_cons]
      by_cases hcut : data.size < place + (entrySize + payload.size)
      · refine readEntries_cut hsizes.1 (List.prefix_of_prefix_length_le hfront
          (List.prefix_append _ _) ?_) hcut
        rw [List.length_drop, Array.length_toList, Array.length_toList, size_entryBytes]
        omega
      · have hentry : (entryBytes digest payload).toList <+: data.toList.drop place := by
          refine List.prefix_of_prefix_length_le (List.prefix_append _ _) hfront ?_
          rw [List.length_drop, Array.length_toList, Array.length_toList, size_entryBytes]
          omega
        obtain ⟨left, hleft⟩ := hentry
        rw [← hleft, List.prefix_append_right_inj] at hfront
        rw [toList_entryBytes, List.append_assoc, List.append_assoc] at hleft
        obtain ⟨hfits, hbehind, hread⟩ :=
          readEntries_stored digest more.length hsizes.1 hleft.symm
        rw [hread, if_neg (not_not_intro rfl), ih hsizes.2 (hbehind.symm ▸ hfront) ?_]
        · rfl
        · rw [List.length_append, Array.length_toList, size_entryBytes] at hshort
          rw [body]
          omega

theorem size_payload {length : Nat} (hfits : place + length ≤ data.size) :
    (data.extract place (place + length)).size = length := by
  rw [Array.size_extract]
  omega

/-- Where length and checksum are right, the bytes are those of an entry. -/
theorem entryBytes_of_checks
    (hfits : place + entrySize + (Checksum.word data place).toNat ≤ data.size)
    (hchecksum : digest (data.extract (place + entrySize)
      (place + entrySize + (Checksum.word data place).toNat)) = Checksum.word data (place + 4)) :
    data.toList.drop place =
      (entryBytes digest (data.extract (place + entrySize)
        (place + entrySize + (Checksum.word data place).toNat))).toList ++
          data.toList.drop (place + entrySize + (Checksum.word data place).toNat) := by
  have hsize := size_payload hfits
  have hstart : place + 4 + 4 = place + entrySize := Nat.add_assoc place 4 4
  have hprefix : place + entrySize ≤ data.size := Nat.le_of_add_right_le hfits
  unfold entrySize at hprefix
  rw [toList_entryBytes, hsize, hchecksum, UInt32.ofNat_toNat,
    Checksum.drop_eq_word data place (by omega),
    Checksum.drop_eq_word data (place + 4) (by omega), hstart, Array.toList_extract,
    List.extract_eq_take_drop, Nat.add_sub_cancel_left, List.append_assoc, List.append_assoc,
    ← List.drop_drop (j := place + entrySize), List.take_append_drop]

/-- What was read are the bytes of as many entries as asked for, each short enough to be
written. -/
theorem body_of_readEntries {entries : List ContainerEntry} (hplace : place ≤ data.size)
    (hread : readEntries digest data place count = .ok entries) :
    entries.length = count ∧ (∀ e ∈ entries, e.payload.size < 2 ^ 32) ∧
      data.toList.drop place = body digest (entries.map ContainerEntry.payload) := by
  induction count generalizing place entries with
  | zero =>
      rw [readEntries] at hread
      split at hread
      · next hend =>
          cases hread
          refine ⟨rfl, by simp, ?_⟩
          rw [hend, ← Array.length_toList, List.drop_length]
          rfl
      · cases hread
  | succ count ih =>
      simp only [readEntries] at hread
      split at hread
      · cases hread
      split at hread
      · cases hread
      split at hread
      · cases hread
      next hprefix hlength hchecksum =>
        rw [Nat.not_lt] at hprefix hlength
        rcases hmore : readEntries digest data
            (place + entrySize + (Checksum.word data place).toNat) count with fault | more
        · rw [hmore] at hread
          cases hread
        · rw [hmore] at hread
          cases hread
          obtain ⟨hcount, hsizes, hbehind⟩ := ih hlength hmore
          have hentry := entryBytes_of_checks hlength (not_not.mp hchecksum)
          have hsize : (data.extract (place + entrySize)
              (place + entrySize + (Checksum.word data place).toNat)).size < 2 ^ 32 := by
            rw [size_payload hlength]
            exact (Checksum.word data place).toNat_lt
          refine ⟨by rw [List.length_cons, hcount], ?_, ?_⟩
          · rw [List.forall_mem_cons]
            exact ⟨hsize, hsizes⟩
          · rw [List.map_cons, body, List.flatMap_cons, ← body, ← hbehind]
            exact hentry

theorem isContainer_iff : isContainer data = true ↔ magic.toList <+: data.toList := by
  rw [isContainer, decide_eq_true_iff, ← Array.toList_inj, toList_extract_zero,
    List.prefix_iff_eq_take]
  exact eq_comm

theorem toList_foldl (payloads : List Bytes) (out : Bytes) :
    (payloads.foldl (fun out payload => out ++ entryBytes digest payload) out).toList =
      out.toList ++ body digest payloads := by
  induction payloads generalizing out with
  | nil => simp [body]
  | cons payload rest ih =>
      rw [List.foldl_cons, ih, Array.toList_append, List.append_assoc, body, body,
        List.flatMap_cons]

/-- A written container is the magic, the count and the entries of payloads that are few and short
enough. -/
theorem writeWith_eq_ok_iff :
    writeWith digest payloads = .ok data ↔
      payloads.length < 2 ^ 32 ∧ (∀ payload ∈ payloads, payload.size < 2 ^ 32) ∧
        data.toList = magic.toList ++
          (BitWriter.wordBytes (UInt32.ofNat payloads.length) ++ body digest payloads) := by
  unfold writeWith
  rw [Nat.one_shiftLeft]
  by_cases hcount : 2 ^ 32 ≤ payloads.length
  · rw [if_pos hcount]
    simp only [reduceCtorEq, false_iff]
    exact fun h => absurd h.1 (Nat.not_lt.mpr hcount)
  rw [if_neg hcount]
  by_cases hlong : (payloads.any fun payload => 2 ^ 32 ≤ payload.size) = true
  · rw [if_pos hlong]
    simp only [reduceCtorEq, false_iff]
    intro h
    obtain ⟨payload, hmem, hsize⟩ := List.any_eq_true.mp hlong
    exact absurd (h.2.1 payload hmem) (Nat.not_lt.mpr (of_decide_eq_true hsize))
  rw [if_neg hlong, Except.ok.injEq, ← Array.toList_inj, toList_foldl, Array.toList_append,
    List.append_assoc]
  have hsizes : ∀ payload ∈ payloads, payload.size < 2 ^ 32 := by
    intro payload hmem
    by_contra hsize
    exact hlong (List.any_eq_true.mpr ⟨payload, hmem, decide_eq_true (Nat.not_lt.mp hsize)⟩)
  constructor
  · exact fun h => ⟨Nat.not_le.mp hcount, hsizes, h.symm⟩
  · exact fun h => h.2.2.symm

theorem exists_writeWith (digest : Bytes → UInt32) (hcount : payloads.length < 2 ^ 32)
    (hsizes : ∀ payload ∈ payloads, payload.size < 2 ^ 32) :
    ∃ data, writeWith digest payloads = .ok data :=
  ⟨⟨_⟩, writeWith_eq_ok_iff.mpr ⟨hcount, hsizes, rfl⟩⟩

theorem length_front (count : UInt32) :
    (magic.toList ++ BitWriter.wordBytes count).length = headerSize :=
  rfl

/-- Behind the magic and the count, reading a container is reading its entries. -/
theorem readWith_of_front (digest : Bytes → UInt32) {count : UInt32}
    (hdata : data.toList = magic.toList ++ (BitWriter.wordBytes count ++ rest)) :
    headerSize ≤ data.size ∧ data.toList.drop headerSize = rest ∧
      readWith digest data = readEntries digest data headerSize count.toNat := by
  have hsize : data.size = headerSize + rest.length := by
    rw [← Array.length_toList, hdata, ← List.append_assoc, List.length_append, length_front]
  have hbehind : data.toList.drop 4 = BitWriter.wordBytes count ++ rest := by
    rw [hdata]
    rfl
  obtain ⟨hcount, hrest⟩ := Checksum.word_eq hbehind
  have hmagic : isContainer data = true := isContainer_iff.mpr ⟨_, hdata.symm⟩
  have hlong : ¬ data.size < magic.size := by
    have hle : magic.size ≤ headerSize := by decide
    omega
  refine ⟨by omega, hrest, ?_⟩
  rw [readWith, if_neg hlong, hmagic, if_neg (by decide), if_neg (by omega), hcount]

/-- A beginning of what was written, but not all of it, is truncated. -/
theorem readWith_cut (hdata : writeWith digest payloads = .ok data) {size : Nat}
    (hsize : size < data.size) :
    readWith digest (data.extract 0 size) = .error .truncated := by
  obtain ⟨hcount, hsizes, hbytes⟩ := writeWith_eq_ok_iff.mp hdata
  have hcut : (data.extract 0 size).size = size := by
    rw [Array.size_extract]
    omega
  have htake : (data.extract 0 size).toList = data.toList.take size := toList_extract_zero data size
  by_cases hmagic : size < magic.size
  · rw [readWith, if_pos (by omega)]
  have hcontainer : isContainer (data.extract 0 size) = true := by
    rw [isContainer_iff, htake, hbytes, List.prefix_take_iff]
    exact ⟨List.prefix_append _ _, by simpa using hmagic⟩
  by_cases hheader : size < headerSize
  · rw [readWith, if_neg (by omega), hcontainer, if_neg (by decide), if_pos (by omega)]
  have hfront : (data.extract 0 size).toList = magic.toList ++
      (BitWriter.wordBytes (UInt32.ofNat payloads.length) ++
        (body digest payloads).take (size - headerSize)) := by
    rw [htake, hbytes, ← List.append_assoc, ← List.append_assoc, List.take_append,
      List.take_of_length_le (Nat.not_lt.mp hheader), length_front]
  obtain ⟨-, hrest, hread⟩ := readWith_of_front digest hfront
  have hlength : data.size = headerSize + (body digest payloads).length := by
    rw [← Array.length_toList, hbytes, ← List.append_assoc, List.length_append, length_front]
  have hall : (UInt32.ofNat payloads.length).toNat = payloads.length :=
    UInt32.toNat_ofNat_of_lt hcount
  rw [hread, hall]
  exact readEntries_body_cut hsizes (hrest ▸ List.take_prefix _ _) (by omega)

/-- What was written is read back, with the place of every entry, as long as nothing follows. -/
theorem readWith_append (hdata : writeWith digest payloads = .ok data) (extra : Bytes) :
    readWith digest (data ++ extra) =
      if extra.size = 0 then .ok (entriesFrom digest headerSize payloads)
      else .error (.format (.trailingBytes extra.size)) := by
  obtain ⟨hcount, hsizes, hbytes⟩ := writeWith_eq_ok_iff.mp hdata
  have hfront : (data ++ extra).toList = magic.toList ++
      (BitWriter.wordBytes (UInt32.ofNat payloads.length) ++
        (body digest payloads ++ extra.toList)) := by
    rw [Array.toList_append, hbytes, List.append_assoc, List.append_assoc]
  obtain ⟨hplace, hrest, hread⟩ := readWith_of_front digest hfront
  have hall : (UInt32.ofNat payloads.length).toNat = payloads.length :=
    UInt32.toNat_ofNat_of_lt hcount
  rw [hread, hall, readEntries_body hsizes hplace hrest, Array.length_toList]

/-- What was read is what would be written. -/
theorem write_of_readWith {entries : List ContainerEntry}
    (hread : readWith digest data = .ok entries) :
    writeWith digest (entries.map ContainerEntry.payload) = .ok data := by
  unfold readWith at hread
  split at hread
  · cases hread
  split at hread
  · cases hread
  split at hread
  · cases hread
  next hmagic hheader =>
    rw [Nat.not_lt] at hheader
    obtain ⟨hcount, hsizes, hbody⟩ := body_of_readEntries hheader hread
    have hcontainer : magic.toList <+: data.toList :=
      isContainer_iff.mp (by simpa using hmagic)
    obtain ⟨behind, hbehind⟩ := hcontainer
    have hword : data.toList.drop 4 =
        BitWriter.wordBytes (Checksum.word data 4) ++ data.toList.drop headerSize :=
      Checksum.drop_eq_word data 4 hheader
    have hdrop : data.toList.drop 4 = behind := by
      rw [← hbehind]
      rfl
    rw [writeWith_eq_ok_iff, List.length_map, hcount, UInt32.ofNat_toNat, ← hbody, ← hword, hdrop]
    refine ⟨(Checksum.word data 4).toNat_lt, ?_, hbehind.symm⟩
    intro payload hmem
    obtain ⟨e, he, rfl⟩ := List.mem_map.mp hmem
    exact hsizes e he

end Container

end HopCodec
