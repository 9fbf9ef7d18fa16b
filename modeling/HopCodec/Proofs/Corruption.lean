/-
Containers that a byte was changed in.  Magic, count, lengths and checksums stay as they are when
the byte belongs to a payload, so that reading goes on to its entry; there the checksum of what is
found is another than the one stored, since XXH32 never misses a single byte.
-/
import HopCodec.Proofs.Checksum
import HopCodec.Proofs.Container

namespace HopCodec

theorem DifferAt.setIfInBounds {data : Bytes} {place : Nat} {value : UInt8}
    (hplace : place < data.size) (hvalue : value ≠ data[place]) :
    DifferAt data (data.setIfInBounds place value) place where
  size_eq := Array.size_setIfInBounds
  lt_size := hplace
  getD_ne := by
    rw [Array.getD_eq_getD_getElem?, Array.getD_eq_getD_getElem?,
      Array.getElem?_setIfInBounds_self_of_lt hplace, Array.getElem?_eq_getElem hplace]
    exact hvalue.symm
  getD_eq := by
    intro i hi
    rw [Array.getD_eq_getD_getElem?, Array.getD_eq_getD_getElem?,
      Array.getElem?_setIfInBounds_ne hi.symm]

namespace Container

variable {digest : Bytes → UInt32} {data payload : Bytes} {payloads : List Bytes} {i k : Nat}

/-- The bytes of a container ahead of the `i`-th payload: the header, the entries before it, and its
own length and checksum. -/
def ahead (digest : Bytes → UInt32) (payloads : List Bytes) (i : Nat) (payload : Bytes) :
    List UInt8 :=
  magic.toList ++ (BitWriter.wordBytes (UInt32.ofNat payloads.length) ++
    (body digest (payloads.take i) ++ (BitWriter.wordBytes (UInt32.ofNat payload.size) ++
      BitWriter.wordBytes (digest payload))))

theorem toList_eq_ahead_append (hdata : writeWith digest payloads = .ok data)
    (hpayload : payloads[i]? = some payload) :
    data.toList = ahead digest payloads i payload ++
      (payload.toList ++ body digest (payloads.drop (i + 1))) := by
  obtain ⟨-, -, hbytes⟩ := writeWith_eq_ok_iff.mp hdata
  obtain ⟨hi, hget⟩ := List.getElem?_eq_some_iff.mp hpayload
  have hbody : body digest payloads = body digest (payloads.take i) ++
      ((entryBytes digest payload).toList ++ body digest (payloads.drop (i + 1))) := by
    conv => lhs; rw [← List.take_append_drop i payloads, List.drop_eq_getElem_cons hi, hget]
    rw [body, List.flatMap_append, List.flatMap_cons]
    rfl
  rw [hbytes, hbody, toList_entryBytes, ahead]
  simp only [List.append_assoc]

theorem length_ahead (digest : Bytes → UInt32) (payloads : List Bytes) (i : Nat)
    (payload : Bytes) :
    (ahead digest payloads i payload).length = headerSize +
      ((payloads.take i).map fun before => entrySize + before.size).sum + entrySize := by
  have hbody : (body digest (payloads.take i)).length =
      ((payloads.take i).map fun before => entrySize + before.size).sum := by
    rw [body, List.length_flatMap]
    simp only [Array.length_toList, size_entryBytes]
  rw [ahead, ← List.append_assoc, List.length_append, length_front, List.length_append, hbody,
    Nat.add_assoc]
  rfl

/-- A container that holds another payload of the same length, under the old checksum, is refused
at that payload. -/
theorem readWith_ahead {changed : Bytes} (rest : List UInt8)
    (hwritten : writeWith digest payloads = .ok data) (hpayload : payloads[i]? = some payload)
    {other : Bytes} (hsize : changed.size = payload.size)
    (hother : other.toList = ahead digest payloads i payload ++ (changed.toList ++ rest))
    (hdigest : digest changed ≠ digest payload) :
    readWith digest other = .error (.checksum (digest payload) (digest changed)) := by
  obtain ⟨hcount, hsizes, -⟩ := writeWith_eq_ok_iff.mp hwritten
  obtain ⟨hi, hget⟩ := List.getElem?_eq_some_iff.mp hpayload
  have hshort : changed.size < 2 ^ 32 := hsize ▸ hget ▸ hsizes _ (List.getElem_mem hi)
  rw [ahead, ← hsize] at hother
  simp only [List.append_assoc] at hother
  obtain ⟨hplace, hrest, hread⟩ := readWith_of_front digest hother
  obtain ⟨next, -, -, hbehind, hbefore⟩ := readEntries_append (payloads.length - i)
    (fun payload hmem => hsizes payload (List.mem_of_mem_take hmem)) hplace hrest
  rw [List.length_take_of_le (Nat.le_of_lt hi), Nat.add_sub_cancel' (Nat.le_of_lt hi)] at hbefore
  obtain ⟨-, -, hentry⟩ :=
    readEntries_stored digest (payloads.length - i - 1) hshort hbehind
  rw [Nat.sub_add_cancel (Nat.sub_pos_of_lt hi), if_pos hdigest] at hentry
  have hall : (UInt32.ofNat payloads.length).toNat = payloads.length :=
    UInt32.toNat_ofNat_of_lt hcount
  rw [hread, hall, hbefore, hentry]
  rfl

/-- A byte of a payload that was changed is noticed at the payload, if the checksum notices it. -/
theorem readWith_setIfInBounds (hdata : writeWith digest payloads = .ok data)
    (hpayload : payloads[i]? = some payload) {place : Nat}
    (hplace : place = (ahead digest payloads i payload).length) (hk : k < payload.size)
    (value : UInt8) (hdigest : digest (payload.setIfInBounds k value) ≠ digest payload) :
    data[place + k]? = some payload[k] ∧
      readWith digest (data.setIfInBounds (place + k) value) =
        .error (.checksum (digest payload) (digest (payload.setIfInBounds k value))) := by
  have hbytes := toList_eq_ahead_append hdata hpayload
  constructor
  · rw [← Array.getElem?_toList, hbytes, hplace, List.getElem?_append_right (Nat.le_add_right _ _),
      Nat.add_sub_cancel_left, List.getElem?_append_left (by simpa using hk),
      Array.getElem?_toList, Array.getElem?_eq_getElem hk]
  · refine readWith_ahead (body digest (payloads.drop (i + 1))) hdata hpayload
      Array.size_setIfInBounds ?_ hdigest
    rw [Array.toList_setIfInBounds, Array.toList_setIfInBounds, hbytes, hplace,
      List.set_append_right _ _ (Nat.le_add_right _ _), Nat.add_sub_cancel_left,
      List.set_append_left _ _ (by simpa using hk)]

/-- A single byte of a payload cannot be changed unnoticed.  Whatever was written and whichever
byte of whichever payload becomes another one, reading reports the checksum stored with that payload
and a different one found. -/
theorem read_corrupted {payloads : List Bytes} {data : Bytes} (hdata : write payloads = .ok data)
    {i : Nat} {payload : Bytes} (hpayload : payloads[i]? = some payload) {k : Nat}
    (hk : k < payload.size) {value : UInt8} (hvalue : value ≠ payload[k]) :
    ∃ entries entry, read data = .ok entries ∧ entries[i]? = some entry ∧
      entry.payload = payload ∧ data[entry.offset + entrySize + k]? = some payload[k] ∧
        ∃ actual, actual ≠ entry.checksum ∧
          read (data.setIfInBounds (entry.offset + entrySize + k) value) =
            .error (.checksum entry.checksum actual) := by
  have hread := readWith_append hdata #[]
  rw [Array.append_empty, if_pos Array.size_empty, entriesFrom_eq_mapIdx] at hread
  have hdigest := ((DifferAt.setIfInBounds hk hvalue).xxh32_ne 0).symm
  obtain ⟨hbyte, hrefused⟩ := readWith_setIfInBounds hdata hpayload
    (length_ahead _ payloads i payload).symm hk value hdigest
  refine ⟨_, ⟨headerSize + ((payloads.take i).map fun before => entrySize + before.size).sum,
    xxh32 payload 0, payload⟩, hread, ?_, rfl, hbyte, _, hdigest, hrefused⟩
  rw [List.getElem?_mapIdx, hpayload, Option.map_some]

/-- The middle byte of the second of two payloads. -/
theorem read_corrupted_twoPayloads :
    ∃ data, write [#[], #[1, 2, 3]] = .ok data ∧
      ∃ entries entry, read data = .ok entries ∧ entries[1]? = some entry ∧
        entry.payload = #[1, 2, 3] ∧ data[entry.offset + entrySize + 1]? = some 2 ∧
          ∃ actual, actual ≠ entry.checksum ∧
            read (data.setIfInBounds (entry.offset + entrySize + 1) 7) =
              .error (.checksum entry.checksum actual) := by
  have hwrite : ∃ data, write [#[], #[1, 2, 3]] = .ok data :=
    exists_writeWith _ (by decide) (by decide)
  obtain ⟨data, hdata⟩ := hwrite
  exact ⟨data, hdata, read_corrupted hdata (i := 1) rfl (k := 1) (by decide) (by decide)⟩

end Container

end HopCodec
