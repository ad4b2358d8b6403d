import VoltRec.ProcessingThread
import VoltRec.Lib.Radix

/-! The packets of a sender. A header holds the antenna, the channel, the packet number and the version in
    the bits that the README gives for them, and every list of packets is what the worker cuts some
    network buffer into. -/

namespace VoltRec

/-- [0-5] antenna, [6-17] channel, [18-55] packet number, [56-63] version. -/
def header (ant chan pckt version : Nat) : Nat := ant + chan * 2 ^ 6 + pckt * 2 ^ 18 + version * 2 ^ 56

/-- The payload does not matter where a stream is about headers. -/
def Packet.ofHeader (x : Nat) : Packet := ⟨x, fun _ => 0⟩

/-- A voltage packet of antenna 0 and channel 0, without a zero in its payload. -/
def Packet.numbered (pckt : Nat) : Packet := ⟨VoltRec.header 0 0 pckt 193, fun _ => Nat.toUInt8 (pckt % 255 + 1)⟩

theorem be64toh_eq {m : Nat → UInt8} {off x : Nat} (hx : x < 2 ^ 64)
    (h : ∀ j < 8, (m (off + j)).toNat = x / 256 ^ (7 - j) % 256) : be64toh m off = x := by
  have hdigits := Radix.foldl_digits h 8 (Nat.le_refl _)
  rw [Nat.sub_self, Nat.pow_zero, Nat.div_one, Nat.mod_eq_of_lt (by simpa using hx)] at hdigits
  exact hdigits

namespace UdpBuffer

/-- The packets one after the other, each with its header in network order. -/
def ofPackets (packets : List Packet) (h : packets.length * rxMsgLen ≤ udpBufferSize) : UdpBuffer where
  data x :=
    match packets[x / rxMsgLen]? with
    | none => 0
    | some p =>
      if h : rxBuffLen ≤ x % rxMsgLen then
        p.payload ⟨x % rxMsgLen - rxBuffLen, by
          have := Nat.mod_lt x (by decide : 0 < rxMsgLen)
          simp only [rxMsgLen, rxBuffLen] at *
          omega⟩
      else UInt8.ofNat (p.header / 256 ^ (7 - x % rxMsgLen))
  dataLen := packets.length * rxMsgLen
  fits := h

theorem packets_ofPackets {packets : List Packet} (h : packets.length * rxMsgLen ≤ udpBufferSize)
    (hhead : ∀ p ∈ packets, p.header < 2 ^ 64) : (ofPackets packets h).packets = packets := by
  have hn : (ofPackets packets h).nOfPackets = packets.length := Nat.mul_div_cancel _ (by decide)
  rw [UdpBuffer.packets, hn]
  apply List.ext_getElem (by simp)
  intro i hi hi'
  have hget : packets[i]? = some packets[i] := List.getElem?_eq_getElem hi'
  simp only [List.getElem_map, List.getElem_range]
  have hpos : ∀ j < rxMsgLen, (i * rxMsgLen + j) / rxMsgLen = i ∧ (i * rxMsgLen + j) % rxMsgLen = j := by
    intro j hj
    simp only [rxMsgLen, rxDataLen, rxBuffLen] at hj ⊢
    omega
  have hheader : ((ofPackets packets h).packet i).header = packets[i].header := by
    refine be64toh_eq (hhead _ (List.getElem_mem hi')) fun j hj => ?_
    obtain ⟨h1, h2⟩ := hpos j (Nat.lt_of_lt_of_le hj (by decide))
    have hlt : ¬rxBuffLen ≤ j := Nat.not_le_of_lt hj
    simp [ofPackets, h1, h2, hget, hlt]
  have hpayload : ((ofPackets packets h).packet i).payload = packets[i].payload := by
    funext j
    have hj : rxBuffLen + j.val < rxMsgLen := by
      have := j.isLt
      simp only [rxMsgLen, rxDataLen, rxBuffLen] at *
      omega
    simp [packet, ofPackets, Nat.add_assoc, (hpos _ hj).1, Nat.mod_eq_of_lt hj, hget]
  exact congrArg₂ Packet.mk hheader hpayload

end UdpBuffer

/-- One antenna and one channel packet. -/
def singleChannel : Config := ⟨1, 1, 0, by decide, by decide⟩

/-- Variables that hold zero before they are set. -/
def zeroed : Uninit := ⟨0, [], fun _ => 0, 0, 0, by decide, by decide, fun _ _ => 0⟩

/-- Packet 0 as the only packet of a buffer. -/
def firstPacket : UdpBuffer := .ofPackets [.numbered 0] (by decide)

theorem packets_firstPacket : firstPacket.packets = [.numbered 0] := UdpBuffer.packets_ofPackets _ (by simp; decide)

theorem program_firstPacket : program [firstPacket] = iteration [.numbered 0] := by
  simp [program, packets_firstPacket]

/-- A packet of each of five blocks, so that the check for mostly started blocks sets the reference. -/
def fivePackets : List Packet := [.numbered 0, .numbered 128, .numbered 256, .numbered 384, .numbered 512]

def fiveStarted : UdpBuffer := .ofPackets fivePackets (by decide)

theorem packets_fiveStarted : fiveStarted.packets = fivePackets :=
  UdpBuffer.packets_ofPackets _ (by simp [fivePackets]; decide)

theorem program_fiveStarted : program [fiveStarted] = iteration fivePackets := by
  simp [program, packets_fiveStarted]

theorem singleton_split {α : Type} {pre post : List α} {b c : α} (h : [c] = pre ++ b :: post) : pre = [] ∧ b = c := by
  cases pre with
  | nil => exact ⟨rfl, (List.head_eq_of_cons_eq h).symm⟩
  | cons a pre => simp at h

/-- `lastSentPacketNo` happens to hold a large number when the thread starts. -/
def staleReference : Uninit :=
  { zeroed with lastSentPacketNo := 1000000, le_lastSentPacketNo := by decide, lastSentPacketNo_lt := by decide }

end VoltRec
