import VoltRec.Theorems.Framing
import VoltRec.Theorems.Reception

/-! What the receiver puts into the network pool, byte by byte. The datagrams of the right size stand one behind
    the other in the published buffers and the one being filled, and no byte is written behind a buffer. -/

namespace VoltRec.Reception

variable {n : Nat} {data : Nat → Nat → UInt8} {dataLen : Nat → Nat} {tr : List (Label RecvResult)} {s s' : State}
  {l : Label RecvResult}

/-! ### Frames -/

/-- The packets that the worker cuts a buffer into. -/
def cut (dataLen : Nat) (data : Nat → UInt8) : List Packet :=
  (List.range (dataLen / rxMsgLen)).map fun iK =>
    { header := be64toh data (iK * rxMsgLen), payload := fun j => data (iK * rxMsgLen + rxBuffLen + j) }

theorem packets_eq_cut (b : UdpBuffer) : b.packets = cut b.dataLen b.data := rfl

section Frames
variable {m m' : Nat → UInt8} {dataSize : Nat} {datagrams : List Datagram}

theorem cut_of_aligned (h : Aligned m dataSize datagrams) (hle : datagrams.length ≤ nReadsDefault) :
    cut dataSize m = datagrams.map Datagram.packet := by
  obtain ⟨hfits, hpackets⟩ := h.packets hle
  exact hpackets

theorem aligned_congr (h : Aligned m dataSize datagrams) (hsame : ∀ x < dataSize, m' x = m x) :
    Aligned m' dataSize datagrams where
  len := h.len
  dataSize := h.dataSize
  bytes i d hi j hj := by
    have hlt := (List.getElem?_eq_some_iff.mp hi).1
    have hx : i * rxMsgLen + j < dataSize := by
      rw [h.dataSize]
      exact Radix.lt_mul hlt hj
    rw [hsame _ hx]
    exact h.bytes i d hi j hj

/-- The frames go on with a datagram whose bytes have been copied behind them. -/
theorem aligned_copied (h : Aligned m dataSize datagrams) {d : Datagram} (hd : d.len = rxMsgLen)
    (hbytes : ∀ j < d.len, m (dataSize + j) = d.bytes j) : Aligned m (dataSize + d.len) (datagrams ++ [d]) := by
  have hsame : Memory.copy m dataSize (fun j : Fin d.len => d.bytes j) = m := by
    funext x
    unfold Memory.copy
    split
    · rename_i hx
      have := hbytes (x - dataSize) (by omega)
      rw [show dataSize + (x - dataSize) = x by omega] at this
      exact this.symm
    · rfl
  have := h.append hd
  rwa [hsame] at this

end Frames

/-! ### What has arrived -/

/-- The packet of a datagram of the right size. -/
def packet? : RecvResult → Option Packet
  | .datagram d => if d.len = rxMsgLen then some d.packet else none
  | _ => none

/-- The packets of the right-sized datagrams that `recvfrom` has returned. -/
def arrivals (tr : List (Label RecvResult)) : List Packet := (inputs tr).filterMap packet?

/-- The first result of `recvfrom`, if it is a datagram, has the right size. -/
def FirstSized (tr : List (Label RecvResult)) : Prop := ∀ d, (inputs tr).head? = some (.datagram d) → d.len = rxMsgLen

/-- The packets in the buffers that the receiver has published. -/
def publishedPackets (tr : List (Label RecvResult)) : List Packet :=
  (sent (acts tr)).flatMap fun m => cut m.2.1 m.2.2

/-- Where the receiver stands, `arrived` are the packets `published` and those in the current buffer. -/
def Filled (data : Nat → Nat → UInt8) (published arrived : List Packet) : ReceiverAt → Prop
  | .test => arrived = published
  | .fetching => arrived = published
  | .reading index iK dataSize => ∃ ds, Aligned (data index) dataSize ds ∧ ds.length ≤ iK ∧ iK ≤ nReadsDefault ∧
      arrived = published ++ ds.map Datagram.packet
  | .copying index iK dataSize d j => ∃ ds, Aligned (data index) dataSize ds ∧ ds.length ≤ iK ∧ iK < nReadsDefault ∧
      d.len = rxMsgLen ∧ (∀ i < j, data index (dataSize + i) = d.bytes i) ∧
      arrived = published ++ ds.map Datagram.packet ++ [d.packet]
  | .leaving index dataSize => ∃ ds, Aligned (data index) dataSize ds ∧ ds.length ≤ nReadsDefault ∧
      arrived = published ++ ds.map Datagram.packet
  | .returning => arrived = published
  | .returned => arrived = published
  | .zero _ _ => True
  | .zeroReturning _ _ => True
  | .zeroReturned _ _ => True

/-- The receiver is at its first pass of the read loop, or before it. -/
def ReceiverAt.isFirst : ReceiverAt → Bool
  | .test => true
  | .fetching => true
  | .reading _ 0 _ => true
  | _ => false

structure Arriving (tr : List (Label RecvResult)) (s : State) : Prop where
  filled : Filled s.pool.buff.data (publishedPackets tr) (arrivals tr) s.producer.pos
  first : s.producer.order = 1 → s.producer.pos.isFirst = true → inputs tr = []
  order : 1 ≤ s.producer.order

theorem arrivals_snoc (tr : List (Label RecvResult)) (l : Label RecvResult) :
    arrivals (tr ++ [l]) = arrivals tr ++ (l.input?.bind packet?).toList := by
  rw [arrivals, inputs_append, List.filterMap_append, arrivals]
  cases h : l.input? with
  | none => rfl
  | some x => cases hx : packet? x <;> simp [hx]

theorem publishedPackets_snoc (tr : List (Label RecvResult)) (l : Label RecvResult) :
    publishedPackets (tr ++ [l]) =
      publishedPackets tr ++ ((l.act?.bind Act.sent).map fun m => cut m.2.1 m.2.2).getD [] := by
  rw [publishedPackets, acts_append, publishedPackets]
  cases h : l.act? with
  | none => simp
  | some a =>
    rw [Option.toList_some, Network.sent_append, List.flatMap_append]
    cases ha : a.sent <;> simp [ha]

/-- A step with no result of `recvfrom` and no publication. -/
theorem quiet_snoc (hin : l.input? = none) (hact : l.act?.bind Act.sent = none) (tr : List (Label RecvResult)) :
    arrivals (tr ++ [l]) = arrivals tr ∧ publishedPackets (tr ++ [l]) = publishedPackets tr ∧
      inputs (tr ++ [l]) = inputs tr := by
  rw [arrivals_snoc, publishedPackets_snoc, inputs_append, hin, hact]
  exact ⟨List.append_nil _, List.append_nil _, List.append_nil _⟩

theorem Arriving.quiet {p' : Pool Side} {k' : Bool} {t' : RecvThread} {c' : EmptierAt} (h : Arriving tr s)
    (hin : l.input? = none) (hact : l.act?.bind Act.sent = none) (horder : t'.order = s.producer.order)
    (hfirst : t'.pos.isFirst = true → s.producer.pos.isFirst = true)
    (hfilled : Filled p'.buff.data (publishedPackets tr) (arrivals tr) t'.pos) :
    Arriving (tr ++ [l]) ⟨p', k', t', c'⟩ := by
  obtain ⟨harr, hpub, hinp⟩ := quiet_snoc hin hact tr
  refine ⟨by rw [harr, hpub]; exact hfilled, fun h1 hf => ?_, horder ▸ h.order⟩
  rw [hinp]
  exact h.first (horder ▸ h1) (hfirst hf)

theorem Filled.congr {m m' : Nat → Nat → UInt8} {published arrived : List Packet} {pos : ReceiverAt}
    (h : Filled m published arrived pos) (hm : m' = m) : Filled m' published arrived pos := hm ▸ h

/-- A step of the receiver. -/
theorem Arriving.producer {p p' : Pool Side} {k k' : Bool} {t t' : RecvThread} {c : EmptierAt}
    (h : Arriving tr ⟨p, k, t, c⟩) (ht : RecvTurn k t l k' t') (hp : l.OnPool p p') (hz : NotZero l)
    (hsized : FirstSized (tr ++ [l])) (hpos : t.pos.isZero = false) : Arriving (tr ++ [l]) ⟨p', k', t', c⟩ := by
  obtain ⟨order, pos⟩ := t
  obtain ⟨hfilled, hfirst, horder⟩ := id h
  simp only at hfilled hfirst horder hpos
  have hread : l.isWrite = false → p'.buff.data = p.buff.data := onPool_data hp
  cases ht with
  | goOn hat | leave hat =>
    cases hat
    exact h.quiet rfl rfl rfl (by simp [ReceiverAt.isFirst]) (hfilled.congr (hread rfl))
  | fetchEmptyBuffer hat =>
    cases hat
    refine h.quiet rfl rfl rfl (by simp [ReceiverAt.isFirst]) ?_
    exact ⟨[], aligned_nil _, Nat.le_refl _, Nat.zero_le _, hfilled.trans (List.append_nil _).symm⟩
  | noEmpty hat =>
    cases hat
    exact h.quiet rfl rfl rfl (by simp [ReceiverAt.isFirst]) (hfilled.congr (hread rfl))
  | @datagram _ _ index iK dataSize d hat more size =>
    cases hat
    obtain ⟨ds, ha, hle, -, harr⟩ := hfilled
    have hlen : d.len = rxMsgLen := by
      rcases size with ⟨rfl, rfl⟩ | hlen
      · refine hsized d ?_
        rw [inputs_append, hfirst rfl rfl]
        rfl
      · exact hlen
    refine ⟨?_, fun _ hf => (by cases hf), horder⟩
    refine ⟨ds, (hread rfl) ▸ ha, hle, more, hlen, fun i hi => absurd hi (Nat.not_lt_zero i), ?_⟩
    rw [arrivals_snoc, publishedPackets_snoc, harr]
    simp [Label.input?, packet?, hlen, Label.act?]
  | @wrongSize _ _ index iK dataSize d hat more size =>
    cases hat
    obtain ⟨ds, ha, hle, hle', harr⟩ := hfilled
    refine ⟨?_, fun _ hf => (by cases hf), horder⟩
    refine ⟨ds, (hread rfl) ▸ ha, by omega, ?_⟩
    rw [arrivals_snoc, publishedPackets_snoc, harr]
    simp [Label.input?, packet?, size.2, Label.act?]
  | error hat =>
    cases hat
    obtain ⟨ds, ha, hle, hle', harr⟩ := hfilled
    refine ⟨?_, fun _ hf => (by cases hf), horder⟩
    refine ⟨ds, (hread rfl) ▸ ha, by omega, ?_⟩
    rw [arrivals_snoc, publishedPackets_snoc, harr]
    simp [Label.input?, packet?, Label.act?]
  | zero => exact absurd rfl hz
  | @write _ _ index iK dataSize j d hat more =>
    cases hat
    cases hp
    obtain ⟨ds, ha, hle, hle', hlen, hbytes, harr⟩ := hfilled
    refine h.quiet rfl rfl rfl (by simp [ReceiverAt.isFirst]) ⟨ds, ?_, hle, hle', hlen, fun i hi => ?_, harr⟩
    · refine aligned_congr ha fun x hx => ?_
      simp only [Function.update_self]
      exact Function.update_of_ne (by omega) ..
    · simp only [Function.update_self]
      rcases Nat.lt_succ_iff_lt_or_eq.mp hi with hi | rfl
      · rw [Function.update_of_ne (by omega)]
        exact hbytes i hi
      · rw [Function.update_self]
  | @copied _ _ index iK dataSize d hat =>
    cases hat
    obtain ⟨ds, ha, hle, hle', hlen, hbytes, harr⟩ := hfilled
    refine h.quiet rfl rfl rfl (by simp [ReceiverAt.isFirst]) ⟨ds ++ [d], ?_, ?_, hle', by simp [harr]⟩
    · exact (hread rfl) ▸ aligned_copied ha hlen hbytes
    · rw [List.length_append, List.length_singleton]
      omega
  | readAll hat =>
    cases hat
    obtain ⟨ds, ha, hle, -, harr⟩ := hfilled
    exact h.quiet rfl rfl rfl (by simp [ReceiverAt.isFirst]) ⟨ds, (hread rfl) ▸ ha, hle, harr⟩
  | zeroReturn hat | zeroReady hat | zeroIntegrity hat | stop hat =>
    cases hat
    cases hpos
  | @returnBuffer _ _ index dataSize data hat =>
    cases hat
    obtain ⟨ds, ha, hle, harr⟩ := hfilled
    have hdata : data = p.buff.data index := by
      cases hp
      rfl
    refine ⟨?_, fun _ hf => (by cases hf), horder⟩
    show arrivals _ = publishedPackets _
    rw [arrivals_snoc, publishedPackets_snoc, harr]
    simp [Label.input?, Label.act?, Act.sent, hdata, cut_of_aligned ha hle]
  | integrity hat =>
    cases hat
    exact h.quiet rfl rfl rfl (by simp [ReceiverAt.isFirst]) (hfilled.congr (hread rfl))
  | ready hat =>
    cases hat
    obtain ⟨harr, hpub, -⟩ := quiet_snoc (l := .call (.returnBufferReady .producer)) rfl rfl tr
    refine ⟨?_, fun h1 _ => ?_, Nat.le_succ_of_le horder⟩
    · show arrivals _ = publishedPackets _
      rw [harr, hpub]
      exact hfilled
    · simp only at h1
      omega

theorem emptier_quiet {k k' : Bool} {c c' : EmptierAt} (h : EmptierTurn k c l k' c') :
    l.input? = none ∧ l.act?.bind Act.sent = none ∧ l.isWrite = false := by
  cases h <;> exact ⟨rfl, rfl, rfl⟩

theorem FirstSized.of_append (h : FirstSized (tr ++ [l])) : FirstSized tr := by
  intro d hd
  refine h d ?_
  rw [inputs_append, List.head?_append, hd]
  rfl

/-- As long as no datagram is empty and the first has the right size, nothing is lost before the pool. -/
theorem arriving (hr : Lts.Run Step (init n data dataLen) tr s) (hz : ∀ l ∈ tr, l ≠ .input .zero)
    (hsized : FirstSized tr) : Arriving tr s := by
  refine hr.invariant (I := fun tr s => (∀ l ∈ tr, NotZero l) → FirstSized tr → Arriving tr s)
    (fun _ _ => ?_) (fun tr s l s' hr ih hs hz hsized => ?_) hz hsized
  · exact ⟨rfl, fun _ _ => rfl, Nat.le_refl _⟩
  have hz' : ∀ l ∈ tr, NotZero l := fun b hb => hz b (List.mem_append_left _ hb)
  obtain ⟨holder, hk⟩ := Threads.kept disciplined_receiver disciplined_emptier hr hz'
  have h := ih hz' hsized.of_append
  have hpos := hk.producer.notZero
  obtain ⟨p, k, t, c⟩ := s
  cases hs with
  | interrupt => exact h.quiet rfl rfl rfl id h.filled
  | producer ht hp => exact h.producer ht hp (hz l (by simp)) hsized hpos
  | consumer ht hp =>
    obtain ⟨hin, hact, hw⟩ := emptier_quiet ht
    exact h.quiet hin hact rfl id (h.filled.congr (onPool_data hp hw))

/-- The worker fetches the packets that have arrived, in order and from the first on. -/
theorem received_prefix (hr : Lts.Run Step (init n data dataLen) tr s) (hz : ∀ l ∈ tr, l ≠ .input .zero)
    (hsized : FirstSized tr) :
    ((received (acts tr)).flatMap fun m => cut m.2.1 m.2.2) <+: arrivals tr := by
  have hfifo := (Network.Fifo.run (network_run hr hz)).received
  have hpub : publishedPackets tr <+: arrivals tr := by
    have hfilled := (arriving hr hz hsized).filled
    obtain ⟨holder, hk⟩ := Threads.kept disciplined_receiver disciplined_emptier hr hz
    have hpos := hk.producer.notZero
    cases hat : s.producer.pos with
    | test | fetching | returning | returned =>
      rw [hat] at hfilled
      exact ⟨[], (List.append_nil _).trans hfilled.symm⟩
    | reading =>
      rw [hat] at hfilled
      obtain ⟨ds, -, -, -, harr⟩ := hfilled
      exact ⟨_, harr.symm⟩
    | copying =>
      rw [hat] at hfilled
      obtain ⟨ds, -, -, -, -, -, harr⟩ := hfilled
      rw [List.append_assoc] at harr
      exact ⟨_, harr.symm⟩
    | leaving =>
      rw [hat] at hfilled
      obtain ⟨ds, -, -, harr⟩ := hfilled
      exact ⟨_, harr.symm⟩
    | zero | zeroReturning | zeroReturned =>
      rw [hat] at hpos
      cases hpos
  exact (hfifo.flatMap _).trans hpub

end VoltRec.Reception
