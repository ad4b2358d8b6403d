import VoltRec.Converter
import VoltRec.ProcessingThread

/-! The header that the file thread writes and the converter reads back. -/

namespace VoltRec

/-- The file structure after `main` has filled it in and `worker_work` has admitted it. -/
structure Recording where
  fileBuff : FileBuff
  admitted : admits fileBuff.nAnts fileBuff.nchans = true
  antNumbers_length : fileBuff.antNumbers.length = maxNoAnts
  antNumbers_lt : ∀ a ∈ fileBuff.antNumbers, a < 2 ^ 32
  firstChan_lt : fileBuff.firstChan < 2 ^ 32
  packetStart_lt : fileBuff.packetStart < 2 ^ 64

namespace Recording

/-- What the converter should find in the header. -/
def inHeader (r : Recording) : InHeader where
  nAnts := r.fileBuff.nAnts
  antIDs := r.fileBuff.antNumbers.take r.fileBuff.nAnts
  nChanpkts := r.fileBuff.nchans
  chanStart := r.fileBuff.firstChan
  pktStart := r.fileBuff.packetStart

variable (r : Recording)

theorem nAnts_le : r.fileBuff.nAnts ≤ maxNoAnts := by
  have := r.admitted
  simp [admits] at this
  omega

theorem nchans_lt : r.fileBuff.nchans < 2 ^ 32 := by
  have := r.admitted
  simp [admits, maxChannelPackets] at this
  omega

theorem length_antIDs : r.inHeader.antIDs.length = r.fileBuff.nAnts := by
  rw [inHeader, List.length_take, r.antNumbers_length, Nat.min_eq_left r.nAnts_le]

end Recording

theorem readInt_encode (len : Nat) {x : Nat} (h : x < 256 ^ len) (rest : List UInt8) :
    readInt len (LittleEndian.encode len x ++ rest) = .ok (x, rest) := by
  have hlen := LittleEndian.length_encode len x
  rw [readInt, if_neg (by simp [hlen]), List.take_left' hlen, List.drop_left' hlen,
    LittleEndian.decode_encode_of_lt h]

theorem readAntIDs_encode {ants : List Nat} (h : ∀ a ∈ ants, a < 2 ^ 32) (rest : List UInt8) :
    readAntIDs ants.length (ants.flatMap (LittleEndian.encode 4) ++ rest) = .ok (ants, rest) := by
  induction ants with
  | nil => rfl
  | cons a ants ih =>
    have ha := readInt_encode 4 (h a List.mem_cons_self) (ants.flatMap (LittleEndian.encode 4) ++ rest)
    simp only [List.length_cons, List.flatMap_cons, List.append_assoc, readAntIDs, ha, bind, Except.bind,
      ih fun b hb => h b (List.mem_cons_of_mem _ hb)]

/-- The fields come back in every case; the check of `nAnts` is what decides. -/
theorem readHeader_bytes (r : Recording) (body : List UInt8) :
    readHeader ((writeHeader r.fileBuff).bytes ++ body) =
      if r.fileBuff.nAnts ≥ maxNoAnts then .error (.tooManyAnts r.fileBuff.nAnts) else .ok (r.inHeader, body) := by
  have hle := r.nAnts_le
  have hgt : ¬r.fileBuff.nAnts > maxNoAnts := by omega
  have hants : r.fileBuff.nAnts < 256 ^ 4 := hle.trans_lt (by decide)
  have hlt : ∀ a ∈ r.inHeader.antIDs, a < 2 ^ 32 := fun a ha => r.antNumbers_lt a (List.mem_of_mem_take ha)
  have hids := readAntIDs_encode hlt (LittleEndian.encode 4 r.fileBuff.nchans ++
    (LittleEndian.encode 4 r.fileBuff.firstChan ++ (LittleEndian.encode 8 r.fileBuff.packetStart ++ body)))
  rw [r.length_antIDs] at hids
  simp only [writeHeader, FileBuff.bytes, List.append_assoc, readHeader, bind, Except.bind, readInt_encode 4 hants,
    hgt, false_and, if_false]
  rw [show r.fileBuff.antNumbers.take r.fileBuff.nAnts = r.inHeader.antIDs from rfl, hids]
  simp only [readInt_encode 4 r.nchans_lt, readInt_encode 4 r.firstChan_lt,
    readInt_encode 8 r.packetStart_lt]
  split <;> rfl

theorem bind_eq_ok {ε α β : Type} {x : Except ε α} {f : α → Except ε β} {b : β} (h : (x >>= f) = .ok b) :
    ∃ a, x = .ok a ∧ f a = .ok b := by
  cases x with
  | error e => cases h
  | ok a => exact ⟨a, rfl, h⟩

theorem length_readAntIDs {n : Nat} {rest rest' : List UInt8} {antIDs : List Nat}
    (h : readAntIDs n rest = .ok (antIDs, rest')) : antIDs.length = n := by
  induction n generalizing rest rest' antIDs with
  | zero =>
    cases h
    rfl
  | succ n ih =>
    obtain ⟨⟨antID, rest₁⟩, -, h⟩ := bind_eq_ok h
    obtain ⟨⟨antIDs', rest₂⟩, hids, h⟩ := bind_eq_ok h
    cases h
    rw [List.length_cons, ih hids]

/-- A header that passes has as many antenna numbers as antennas. -/
theorem length_antIDs {file body : List UInt8} {h : InHeader} (hfile : readHeader file = .ok (h, body)) :
    h.antIDs.length = h.nAnts := by
  obtain ⟨⟨nAnts, rest⟩, -, hfile⟩ := bind_eq_ok hfile
  dsimp only at hfile
  split at hfile
  · cases hfile
  obtain ⟨⟨antIDs, rest⟩, hids, hfile⟩ := bind_eq_ok hfile
  obtain ⟨⟨nChanpkts, rest⟩, -, hfile⟩ := bind_eq_ok hfile
  obtain ⟨⟨chanStart, rest⟩, -, hfile⟩ := bind_eq_ok hfile
  obtain ⟨⟨pktStart, rest⟩, -, hfile⟩ := bind_eq_ok hfile
  dsimp only at hfile
  split at hfile
  · cases hfile
  cases hfile
  exact length_readAntIDs hids

/-- The converter reads a header back if and only if there are fewer antennas than the most the recorder admits. -/
theorem readHeader_bytes_iff (r : Recording) (body : List UInt8) :
    readHeader ((writeHeader r.fileBuff).bytes ++ body) = .ok (r.inHeader, body) ↔
      r.fileBuff.nAnts < maxNoAnts := by
  rw [readHeader_bytes]
  split
  · exact iff_of_false nofun (by omega)
  · exact iff_of_true rfl (by omega)

/-- Files of four antennas are rejected. -/
theorem readHeader_bytes_fails :
    ¬∀ (r : Recording) (body : List UInt8),
      readHeader ((writeHeader r.fileBuff).bytes ++ body) = .ok (r.inHeader, body) := by
  intro h
  have hok := h
    { fileBuff := { nAnts := 4, antNumbers := [1, 2, 3, 4], nchans := 1, firstChan := 0, packetStart := 128 }
      admitted := rfl
      antNumbers_length := rfl
      antNumbers_lt := by decide
      firstChan_lt := by decide
      packetStart_lt := by decide } []
  revert hok
  decide

end VoltRec
