import VoltRec.Theorems.BlockAssembly
import VoltRec.Lib.Distinct

/-! The antenna table that the first scan makes: the ids of the first batch in the order in which they come,
    as many as the configuration has antennas. It is fixed from then on, so a packet of another antenna is
    not stored, whatever comes later. -/

namespace VoltRec

variable {cfg : Config} {slots : Nat → Nat} {u : Uninit} {w : Worker} {bufs : List UdpBuffer}

/-! ### The table -/

/-- The antenna ids of some packets in the order in which they first come. -/
def antennaIds (packets : List Packet) : List Nat := (packets.map fun p => getAntNo p.header).eraseDups

theorem antennaIds_ne {packets : List Packet} {x : Nat} (h : x ∈ antennaIds packets) : x ≠ noAntenna := by
  obtain ⟨p, -, rfl⟩ := List.mem_map.mp (List.mem_eraseDups.mp h)
  exact getAntNo_ne p.header

theorem registerAntennas_eq (cfg : Config) (packets : List Packet) :
    registerAntennas cfg (List.replicate maxNoAnts noAntenna) packets =
      (antennaIds packets).take cfg.nAnts ++
        List.replicate (maxNoAnts - ((antennaIds packets).take cfg.nAnts).length) noAntenna := by
  obtain ⟨-, hmax, -⟩ := cfg.nAnts_pos
  have hids : ∀ id ∈ packets.map (fun p => getAntNo p.header), id ≠ noAntenna := by
    intro id h
    exact antennaIds_ne (List.mem_eraseDups.mpr h)
  have hsize : cfg.nAnts + (maxNoAnts - cfg.nAnts) = maxNoAnts := by
    simp only [maxNoAnts]
    omega
  have heq := registerIds_eq cfg.nAnts (maxNoAnts - cfg.nAnts) hids
  rw [hsize, registerIds, List.foldl_map] at heq
  rw [List.length_take]
  exact heq

/-- The first `nAnts` ids of the first batch are the entries of the table. -/
theorem registerAntennas_mem (cfg : Config) (packets : List Packet) {ant : Nat} (hant : ant < 2 ^ 6) :
    (∃ a, a < cfg.nAnts ∧ (registerAntennas cfg (List.replicate maxNoAnts noAntenna) packets)[a]? = some ant) ↔
      ant ∈ (antennaIds packets).take cfg.nAnts := by
  have hlen : ((antennaIds packets).take cfg.nAnts).length ≤ cfg.nAnts := List.length_take_le ..
  simp only [registerAntennas_eq, getElem?_entries (ne_noAntenna hant)]
  constructor
  · rintro ⟨a, -, hget⟩
    exact List.mem_of_getElem? hget
  · intro h
    obtain ⟨a, ha, hval⟩ := List.getElem_of_mem h
    exact ⟨a, by omega, by rw [List.getElem?_eq_getElem ha, hval]⟩

/-! ### Packets of antennas that came too late -/

/-- The stream has at most as many antennas as the configuration. -/
def FewAntennas (cfg : Config) (bufs : List UdpBuffer) : Prop :=
  ((bufs.flatMap UdpBuffer.packets).map fun p => getAntNo p.header).toFinset.card ≤ cfg.nAnts

instance (cfg : Config) (bufs : List UdpBuffer) : Decidable (FewAntennas cfg bufs) :=
  inferInstanceAs (Decidable (_ ≤ _))

def InRange (cfg : Config) (p : Packet) : Prop :=
  cfg.firstChan ≤ getChanNo p.header ∧ (getChanNo p.header - cfg.firstChan) / chansPerPacket < cfg.nchans

/-- The packet loop copies the packet to its cell in a local block of its number, and counts it there. -/
def Stored (cfg : Config) (w : Worker) (p : Packet) : Prop :=
  ∃ iK a, (w.localStruct iK).packetNo = getPacketFilter (getPcktNo p.header) ∧ a < cfg.nAnts ∧
    w.antNumbers[a]? = some (getAntNo p.header) ∧
    w.packetStep cfg p =
      { w with
        data := Function.update w.data (w.localStruct iK).index
          (Memory.copy (w.data (w.localStruct iK).index)
            (cfg.offset (getPacketRest (getPcktNo p.header)) a
              ((getChanNo p.header - cfg.firstChan) / chansPerPacket)) p.payload)
        localStruct := Function.update w.localStruct iK
          { w.localStruct iK with nToFull := (w.localStruct iK).nToFull - 1 }
        log := w.log ++ [.packet p] }

theorem stored_iff_table {p : Packet} (ht : Table w.antNumbers) (hv : isVersionVolt p.header = true)
    (hc : InRange cfg p) (hlocal : ∃ iK, (w.localStruct iK).packetNo = getPacketFilter (getPcktNo p.header)) :
    Stored cfg w p ↔ ∃ a, a < cfg.nAnts ∧ w.antNumbers[a]? = some (getAntNo p.header) := by
  constructor
  · rintro ⟨iK, a, -, ha, hget, -⟩
    exact ⟨a, ha, hget⟩
  · rintro ⟨a, ha, hget⟩
    have hacc := (accepts_iff cfg ht p.header a _).mpr ⟨hv, ha, hget, hc.1, rfl, hc.2⟩
    rcases w.packetStep_cases cfg p with ⟨hno, -⟩ | ⟨a', c, s, hacc', hfind, hs⟩
    · obtain ⟨iK, hiK⟩ := hlocal
      exact absurd hiK (findStructIndex_eq_none.mp (hno _ _ hacc) iK)
    · rw [hacc] at hacc'
      cases hacc'
      exact ⟨s, a, findStructIndex_spec hfind, ha, hget, hs⟩

/-- With no more antennas in the stream than configured, a voltage packet in range whose block is local is
    stored if and only if its antenna has a packet in the first batch. -/
theorem stored_iff_firstBatch (cfg : Config) (slots : Nat → Nat) (u : Uninit) {bufs : List UdpBuffer}
    (hfew : FewAntennas cfg bufs) {packets : List Packet} (hb : firstBatch bufs = some packets) {pre : List Instr}
    {p : Packet} (hp : pre ++ [.packet p] <+: program bufs) (hv : isVersionVolt p.header = true) (hc : InRange cfg p)
    (hlocal : ∃ iK, ((workerAfter cfg slots u pre).localStruct iK).packetNo = getPacketFilter (getPcktNo p.header)) :
    Stored cfg (workerAfter cfg slots u pre) p ↔ ∃ q ∈ packets, getAntNo q.header = getAntNo p.header := by
  have hpre : pre <+: program bufs := (List.prefix_append pre _).trans hp
  have hr : Reached cfg slots u bufs (workerAfter cfg slots u pre) := ⟨pre, hpre, rfl⟩
  have hne : pre ≠ [] := by
    rintro rfl
    rcases program_cases bufs with ⟨-, hnil⟩ | ⟨packets', is, -, -, hprog⟩
    · simp [hnil] at hp
    · rw [hprog] at hp
      cases (List.cons_prefix_cons.mp hp).1
  have hsub : packets.map (fun p => getAntNo p.header) ⊆
      (bufs.flatMap UdpBuffer.packets).map fun p => getAntNo p.header := by
    obtain ⟨b, hbmem, rfl⟩ := List.mem_map.mp (List.mem_of_find?_eq_some hb)
    exact List.map_subset _ fun q hq => List.mem_flatMap.mpr ⟨b, hbmem, hq⟩
  have hall : (antennaIds packets).take cfg.nAnts = antennaIds packets :=
    List.take_of_length_le ((Distinct.length_eraseDups_le hsub).trans hfew)
  rw [stored_iff_table hr.assembling.table hv hc hlocal, (workerAfter_first cfg slots u hb hpre hne).2.2,
    registerAntennas_mem cfg packets (getAntNo_lt p.header), hall, antennaIds, List.mem_eraseDups, List.mem_map]

/-- The packet of block 0 that `firstPacket` holds is stored. -/
theorem stored_firstPacket :
    Stored singleChannel (workerAfter singleChannel id zeroed [.scan [.numbered 0]]) (.numbered 0) ↔
      ∃ q ∈ [Packet.numbered 0], getAntNo q.header = getAntNo (Packet.numbered 0).header := by
  have hfew : FewAntennas singleChannel [firstPacket] := by
    rw [FewAntennas, List.flatMap_singleton, packets_firstPacket]
    decide
  have hb : firstBatch [firstPacket] = some [.numbered 0] := by simp [firstBatch, packets_firstPacket]
  have hp : [.scan [.numbered 0]] ++ [.packet (.numbered 0)] <+: program [firstPacket] := by
    rw [program_firstPacket]
    exact ⟨_, rfl⟩
  exact stored_iff_firstBatch singleChannel id zeroed hfew hb hp (by decide) ⟨by decide, by decide⟩ ⟨0, by decide⟩

/-- A packet of antenna 1 after one of antenna 0, in a buffer of its own. -/
def secondAntenna : List UdpBuffer :=
  [firstPacket, .ofPackets [.ofHeader (VoltRec.header 1 0 0 193)] (by decide)]

/-- Two antennas are configured; the second one does not come into the table. -/
theorem secondAntenna_dropped :
    ¬∀ (cfg : Config) (slots : Nat → Nat) (u : Uninit) (bufs : List UdpBuffer) (pre : List Instr) (p : Packet),
      FewAntennas cfg bufs → pre ++ [.packet p] <+: program bufs → isVersionVolt p.header = true → InRange cfg p →
      (∃ iK, ((workerAfter cfg slots u pre).localStruct iK).packetNo = getPacketFilter (getPcktNo p.header)) →
      Stored cfg (workerAfter cfg slots u pre) p := by
  intro h
  have hsecond : (UdpBuffer.ofPackets [.ofHeader (VoltRec.header 1 0 0 193)] (by decide)).packets =
      [.ofHeader (VoltRec.header 1 0 0 193)] := UdpBuffer.packets_ofPackets _ (by simp; decide)
  have hpackets : secondAntenna.flatMap UdpBuffer.packets = [.numbered 0, .ofHeader (VoltRec.header 1 0 0 193)] := by
    simp [secondAntenna, packets_firstPacket, hsecond]
  have hprog : program secondAntenna =
      iteration [.numbered 0] ++ iteration [.ofHeader (VoltRec.header 1 0 0 193)] := by
    simp [program, secondAntenna, packets_firstPacket, hsecond]
  obtain ⟨iK, a, -, -, hget, -⟩ := h ⟨2, 1, 0, by decide, by decide⟩ id zeroed secondAntenna
    (iteration [.numbered 0] ++ [.scan [.ofHeader (VoltRec.header 1 0 0 193)]]) (.ofHeader (VoltRec.header 1 0 0 193))
    (by rw [FewAntennas, hpackets]; decide)
    (by rw [hprog, List.append_assoc]; exact List.prefix_append_right_inj _ |>.mpr ⟨_, rfl⟩)
    (by decide) ⟨by decide, by decide⟩ ⟨0, by decide +kernel⟩
  have hne : iteration [.numbered 0] ++ [.scan [.ofHeader (VoltRec.header 1 0 0 193)]] ≠ [] := by simp
  have hfirst : firstBatch secondAntenna = some [.numbered 0] := by
    simp [firstBatch, secondAntenna, packets_firstPacket]
  have htable := (workerAfter_first ⟨2, 1, 0, by decide, by decide⟩ id zeroed hfirst
    (by rw [hprog]; exact List.prefix_append_right_inj _ |>.mpr ⟨_, rfl⟩) hne).2.2
  rw [htable] at hget
  have hmem := List.mem_of_getElem? hget
  revert hmem
  decide

end VoltRec
