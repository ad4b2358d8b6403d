import VoltRec.Theorems.InStep
import VoltRec.Theorems.AntennaTable
import VoltRec.Lib.Radix

/-! Where the packet loop puts a packet. The antenna table holds each antenna once, the channel test
    leaves out channels below the first one, and the offsets of different cells do not overlap. -/

namespace VoltRec

variable {cfg : Config}

/-! ### The antenna table -/

/-- Antennas of which none comes twice, then free entries. -/
def Table (antNumbers : List Nat) : Prop :=
  ∃ ants n, antNumbers = ants ++ List.replicate n noAntenna ∧ ants.Nodup ∧ ∀ x ∈ ants, x < 2 ^ 6

theorem getAntNo_lt (x : Nat) : getAntNo x < 2 ^ 6 := by
  rw [getAntNo_eq]
  exact Nat.mod_lt _ (by decide)

theorem ne_noAntenna {x : Nat} (h : x < 2 ^ 6) : x ≠ noAntenna := by
  rintro rfl
  exact absurd h (by decide)

theorem getAntNo_ne (x : Nat) : getAntNo x ≠ noAntenna := ne_noAntenna (getAntNo_lt x)

theorem Table.updateAntenna {antNumbers : List Nat} (h : Table antNumbers) {ant : Nat} (hant : ant < 2 ^ 6)
    (maxAnts : Nat) : Table (updateAntenna antNumbers ant maxAnts).2 := by
  obtain ⟨ants, n, rfl, hnodup, hants⟩ := h
  rw [updateAntenna_eq (fun x hx => ne_noAntenna (hants x hx)) (ne_noAntenna hant)]
  split
  · exact ⟨ants, n, rfl, hnodup, hants⟩
  split
  · rename_i hnot hfree
    rw [List.take_of_length_le hfree.1.le] at hnot
    refine ⟨ants ++ [ant], n - 1, by simp, ?_, ?_⟩
    · exact List.nodup_append.mpr ⟨hnodup, by simp, fun x hx y hy heq => by simp_all⟩
    · intro x hx
      rcases List.mem_append.mp hx with hx | hx
      · exact hants x hx
      · exact List.mem_singleton.mp hx ▸ hant
  · exact ⟨ants, n, rfl, hnodup, hants⟩

theorem table_registerAntennas (cfg : Config) {antNumbers : List Nat} (h : Table antNumbers) (packets : List Packet) :
    Table (registerAntennas cfg antNumbers packets) := by
  induction packets generalizing antNumbers with
  | nil => exact h
  | cons p packets ih => exact ih (h.updateAntenna (getAntNo_lt p.header) cfg.nAnts)

theorem table_replicate (n : Nat) : Table (List.replicate n noAntenna) := ⟨[], n, rfl, by simp, by simp⟩

/-- No antenna stands at two places of the table. -/
theorem Table.inj {antNumbers : List Nat} (h : Table antNumbers) {i j ant : Nat} (hant : ant < 2 ^ 6)
    (hi : antNumbers[i]? = some ant) (hj : antNumbers[j]? = some ant) : i = j := by
  obtain ⟨ants, n, rfl, hnodup, -⟩ := h
  exact entries_inj hnodup (ne_noAntenna hant) hi hj

theorem Table.getAntIndex {antNumbers : List Nat} (h : Table antNumbers) {ant nAnts a : Nat} (hant : ant < 2 ^ 6) :
    getAntIndex antNumbers ant nAnts = some a ↔ a < nAnts ∧ antNumbers[a]? = some ant := by
  obtain ⟨ants, n, rfl, hnodup, -⟩ := h
  exact getAntIndex_entries hnodup (ne_noAntenna hant)

/-! ### The channel test -/

theorem currChanNo_accepts (cfg : Config) (header c : Nat) :
    (0 ≤ cfg.currChanNo header ∧ cfg.currChanNo header < cfg.nchans ∧ (cfg.currChanNo header).toNat = c) ↔
      cfg.firstChan ≤ getChanNo header ∧ (getChanNo header - cfg.firstChan) / chansPerPacket = c ∧
        c < cfg.nchans := by
  have hchan : getChanNo header < 2 ^ 12 := by
    rw [getChanNo_eq]
    exact Nat.mod_lt _ (by decide)
  have hfirst := cfg.firstChan_lt
  simp only [Config.currChanNo, toInt, chansPerPacket, Int.bmod_def]
  omega

theorem Config.nAnts_pos (cfg : Config) : 1 ≤ cfg.nAnts ∧ cfg.nAnts ≤ 4 ∧ 1 ≤ cfg.nchans ∧ cfg.nchans ≤ 32 := by
  have h := cfg.admitted
  simp only [admits, maxNoAnts, maxChannelPackets, nFileBuffers, nFileBuffersAtATime, Bool.not_eq_true',
    Bool.or_eq_false_iff, decide_eq_false_iff_not, gt_iff_lt, Nat.not_lt] at h
  omega

/-- The packets that the loop accepts, and the antenna and the channel index that it works out. -/
theorem accepts_iff (cfg : Config) {antNumbers : List Nat} (h : Table antNumbers) (header a c : Nat) :
    cfg.accepts antNumbers header = some (a, c) ↔
      isVersionVolt header = true ∧ a < cfg.nAnts ∧ antNumbers[a]? = some (getAntNo header) ∧
        cfg.firstChan ≤ getChanNo header ∧ (getChanNo header - cfg.firstChan) / chansPerPacket = c ∧
          c < cfg.nchans := by
  rw [← currChanNo_accepts, ← and_assoc (a := a < cfg.nAnts), ← h.getAntIndex (getAntNo_lt header)]
  unfold Config.accepts
  cases hidx : getAntIndex antNumbers (getAntNo header) cfg.nAnts with
  | none => simp
  | some b =>
    have hb : b < maxNoAnts := by
      have := ((h.getAntIndex (getAntNo_lt header)).mp hidx).1
      have := cfg.nAnts_pos
      simp only [maxNoAnts]
      omega
    simp only [hb, true_and]
    constructor
    · intro hsome
      split at hsome
      · rename_i hcond
        cases hsome
        exact ⟨hcond.1, rfl, hcond.2.1, hcond.2.2, rfl⟩
      · cases hsome
    · rintro ⟨hv, hab, h0, hlt, rfl⟩
      obtain rfl := Option.some.inj hab
      rw [if_pos ⟨hv, h0, hlt⟩]

/-! ### Cells -/

/-- The number of a cell in its block. -/
def Config.cell (cfg : Config) (r a c : Nat) : Nat := (r * cfg.nAnts + a) * cfg.nchans + c

theorem Config.cell_lt (cfg : Config) {r a c : Nat} (hr : r < timeIntPerBuffer) (ha : a < cfg.nAnts)
    (hc : c < cfg.nchans) :
    cfg.cell r a c < timeIntPerBuffer * cfg.nAnts * cfg.nchans :=
  Radix.lt_mul (Radix.lt_mul hr ha) hc

theorem Config.cell_inj (cfg : Config) {r a c r' a' c' : Nat} (ha : a < cfg.nAnts) (hc : c < cfg.nchans)
    (ha' : a' < cfg.nAnts) (hc' : c' < cfg.nchans) (h : cfg.cell r a c = cfg.cell r' a' c') :
    r = r' ∧ a = a' ∧ c = c' := by
  obtain ⟨hra, hcc⟩ := Radix.inj hc hc' h
  obtain ⟨hrr, haa⟩ := Radix.inj ha ha' hra
  exact ⟨hrr, haa, hcc⟩

theorem Config.cells_le (cfg : Config) : timeIntPerBuffer * cfg.nAnts * cfg.nchans ≤ 16384 := by
  obtain ⟨-, h1, -, h2⟩ := cfg.nAnts_pos
  calc timeIntPerBuffer * cfg.nAnts * cfg.nchans ≤ 128 * 4 * 32 :=
        Nat.mul_le_mul (Nat.mul_le_mul (Nat.le_refl _) h1) h2
    _ = 16384 := rfl

/-- The 32-bit offset does not overflow. -/
theorem Config.offset_eq (cfg : Config) {r a c : Nat} (hr : r < timeIntPerBuffer) (ha : a < cfg.nAnts)
    (hc : c < cfg.nchans) : cfg.offset r a c = cfg.cell r a c * rxDataLen := by
  have hlt := cfg.cell_lt hr ha hc
  have hle := cfg.cells_le
  have heq : r * cfg.nAnts * cfg.nchans + a * cfg.nchans + c = cfg.cell r a c := by
    rw [Config.cell, Nat.add_mul]
  rw [Config.offset, heq, Nat.mod_eq_of_lt]
  simp only [rxDataLen]
  omega

theorem Config.dataLenOut_eq (cfg : Config) :
    cfg.dataLenOut = timeIntPerBuffer * cfg.nAnts * cfg.nchans * rxDataLen := by
  have hle := cfg.cells_le
  have heq : cfg.nAnts * cfg.nchans * timeIntPerBuffer = timeIntPerBuffer * cfg.nAnts * cfg.nchans := by ring
  rw [Config.dataLenOut, Config.packetsPerBlock, heq, Nat.mod_eq_of_lt (by omega)]

theorem Config.dataLenOut_le (cfg : Config) : cfg.dataLenOut ≤ fileBufferSize := by
  have hle := cfg.cells_le
  rw [cfg.dataLenOut_eq, rxDataLen, fileBufferSize]
  omega

/-! ### The packets of any table -/

theorem getPacketRest_lt (x : Nat) : getPacketRest x < timeIntPerBuffer := by
  rw [getPacketRest_eq]
  exact Nat.mod_lt _ (by decide)

theorem accepts_cases {antNumbers : List Nat} {header a c : Nat} (h : cfg.accepts antNumbers header = some (a, c)) :
    a < cfg.nAnts ∧ 0 ≤ cfg.currChanNo header ∧ cfg.currChanNo header < cfg.nchans ∧
      (cfg.currChanNo header).toNat = c := by
  unfold Config.accepts at h
  split at h
  · cases h
  · rename_i b hb
    split at h
    · rename_i hcond
      cases h
      exact ⟨(getAntIndex_eq_some.mp hb).1, hcond.2.2.1, hcond.2.2.2, rfl⟩
    · cases h

/-- The channel test on its own, with the channel as bits 6 to 17 of the header. -/
theorem currChanNo_iff (cfg : Config) (header : Nat) :
    (0 ≤ cfg.currChanNo header ∧ cfg.currChanNo header < cfg.nchans) ↔
      cfg.firstChan ≤ header / 2 ^ 6 % 2 ^ 12 ∧ header / 2 ^ 6 % 2 ^ 12 < cfg.firstChan + 256 * cfg.nchans := by
  have hdiv : (getChanNo header - cfg.firstChan) / chansPerPacket < cfg.nchans ↔
      getChanNo header - cfg.firstChan < 256 * cfg.nchans := by
    rw [Nat.div_lt_iff_lt_mul (by decide), Nat.mul_comm, chansPerPacket]
  rw [← getChanNo_eq]
  constructor
  · rintro ⟨h0, hlt⟩
    obtain ⟨hle, hc, hlt'⟩ := (currChanNo_accepts cfg header _).mp ⟨h0, hlt, rfl⟩
    have := hdiv.mp (hc ▸ hlt')
    omega
  · rintro ⟨hle, hlt⟩
    obtain ⟨h0, hlt, -⟩ := (currChanNo_accepts cfg header _).mpr ⟨hle, rfl, hdiv.mpr (by omega)⟩
    exact ⟨h0, hlt⟩

theorem currChanNo_eq (cfg : Config) {header : Nat} (h0 : 0 ≤ cfg.currChanNo header)
    (hlt : cfg.currChanNo header < cfg.nchans) :
    cfg.currChanNo header = ((header / 2 ^ 6 % 2 ^ 12 - cfg.firstChan) / 256 : Nat) := by
  obtain ⟨-, hc, -⟩ := (currChanNo_accepts cfg header _).mp ⟨h0, hlt, rfl⟩
  rw [← getChanNo_eq, show 256 = chansPerPacket from rfl, hc, Int.toNat_of_nonneg h0]

/-- Cells are apart or the same. -/
theorem Config.offset_apart (cfg : Config) {r a c r' a' c' : Nat} (hr : r < timeIntPerBuffer) (ha : a < cfg.nAnts)
    (hc : c < cfg.nchans) (hr' : r' < timeIntPerBuffer) (ha' : a' < cfg.nAnts) (hc' : c' < cfg.nchans) :
    (r = r' ∧ a = a' ∧ c = c') ∨ cfg.offset r a c + rxDataLen ≤ cfg.offset r' a' c' ∨
      cfg.offset r' a' c' + rxDataLen ≤ cfg.offset r a c := by
  rw [cfg.offset_eq hr ha hc, cfg.offset_eq hr' ha' hc']
  by_cases h : cfg.cell r a c = cfg.cell r' a' c'
  · exact Or.inl (cfg.cell_inj ha hc ha' hc' h)
  · simp only [rxDataLen]
    omega

/-- The packet loop takes the packets of its channels, whatever table of antennas it has. It computes their
    offsets without overflow, they lie in the block, and packets of different cells do not overlap. -/
theorem packet_cells (cfg : Config) (antNumbers : List Nat) :
    (∀ header,
      ((0 ≤ cfg.currChanNo header ∧ cfg.currChanNo header < cfg.nchans) ↔
        cfg.firstChan ≤ header / 2 ^ 6 % 2 ^ 12 ∧ header / 2 ^ 6 % 2 ^ 12 < cfg.firstChan + 256 * cfg.nchans) ∧
      (0 ≤ cfg.currChanNo header → cfg.currChanNo header < cfg.nchans →
        cfg.currChanNo header = ((header / 2 ^ 6 % 2 ^ 12 - cfg.firstChan) / 256 : Nat))) ∧
    cfg.dataLenOut = cfg.nAnts * cfg.nchans * timeIntPerBuffer * rxDataLen ∧ cfg.dataLenOut ≤ fileBufferSize ∧
    ∀ header a c, cfg.accepts antNumbers header = some (a, c) →
      let r := getPacketRest (getPcktNo header)
      cfg.offset r a c = (r * cfg.nAnts * cfg.nchans + a * cfg.nchans + c) * rxDataLen ∧
      cfg.offset r a c + rxDataLen ≤ cfg.dataLenOut ∧
      ∀ header' a' c', cfg.accepts antNumbers header' = some (a', c') →
        let r' := getPacketRest (getPcktNo header')
        (r = r' ∧ a = a' ∧ c = c') ∨ cfg.offset r a c + rxDataLen ≤ cfg.offset r' a' c' ∨
          cfg.offset r' a' c' + rxDataLen ≤ cfg.offset r a c := by
  have hcell : ∀ {header a c}, cfg.accepts antNumbers header = some (a, c) → a < cfg.nAnts ∧ c < cfg.nchans := by
    intro header a c h
    obtain ⟨ha, h0, hlt, rfl⟩ := accepts_cases h
    exact ⟨ha, by omega⟩
  have hlen : cfg.dataLenOut = cfg.nAnts * cfg.nchans * timeIntPerBuffer * rxDataLen := by
    rw [cfg.dataLenOut_eq]
    ring
  refine ⟨fun header => ⟨currChanNo_iff cfg header, currChanNo_eq cfg⟩, hlen, cfg.dataLenOut_le,
    fun header a c h => ?_⟩
  obtain ⟨ha, hc⟩ := hcell h
  have hr := getPacketRest_lt (getPcktNo header)
  have heq := cfg.offset_eq hr ha hc
  refine ⟨?_, ?_, fun header' a' c' h' => ?_⟩
  · rw [heq, Config.cell, Nat.add_mul _ a]
  · have hcell := cfg.cell_lt hr ha hc
    rw [heq, cfg.dataLenOut_eq, ← Nat.succ_mul]
    exact Nat.mul_le_mul_right _ hcell
  · obtain ⟨ha', hc'⟩ := hcell h'
    exact cfg.offset_apart hr ha hc (getPacketRest_lt _) ha' hc'

end VoltRec
