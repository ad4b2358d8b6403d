import VoltRec.UdpThread
import VoltRec.Lib.Radix
import Mathlib.Data.List.Induction

/-! What the worker cuts the published network buffers into. The receiver drops every datagram of a wrong
    size but one: the first of the run is not checked, and shifts all that comes behind it in its buffer. -/

namespace VoltRec

variable {recv : Nat → RecvResult} {order : Nat} {r : Reader} {s : Receiver}

/-! ### Framed buffers -/

/-- A datagram of the right size as a packet. -/
def Datagram.packet (d : Datagram) : Packet where
  header := be64toh d.bytes 0
  payload := fun j => d.bytes (rxBuffLen + j)

/-- The datagram of a result, if it has the right size. -/
def RecvResult.sized? : RecvResult → Option Datagram
  | .datagram d => if d.len = rxMsgLen then some d else none
  | _ => none

/-- The datagrams of the right size among the results from call `a` to call `b`. -/
def sizedDatagrams (recv : Nat → RecvResult) (a b : Nat) : List Datagram :=
  (List.range' a (b - a)).filterMap fun k => (recv k).sized?

/-- The worker cuts the buffer into the datagrams of the right size that `recvfrom` has returned for it, and there is
    nothing else in it. -/
structure Framed (recv : Nat → RecvResult) (p : Published) : Prop where
  dataLen : p.dataLen = (sizedDatagrams recv p.firstRecv p.nRecv).length * rxMsgLen
  packets : ∃ h : p.dataLen ≤ udpBufferSize,
    (UdpBuffer.mk p.data p.dataLen h).packets = (sizedDatagrams recv p.firstRecv p.nRecv).map Datagram.packet

theorem sizedDatagrams_self (recv : Nat → RecvResult) (a : Nat) : sizedDatagrams recv a a = [] := by
  rw [sizedDatagrams, Nat.sub_self]
  rfl

theorem sizedDatagrams_succ (recv : Nat → RecvResult) {a b : Nat} (h : a ≤ b) :
    sizedDatagrams recv a (b + 1) = sizedDatagrams recv a b ++ (recv b).sized?.toList := by
  rw [sizedDatagrams, Nat.succ_sub h, List.range'_1_concat, List.filterMap_append, ← sizedDatagrams,
    Nat.add_sub_cancel' h]
  cases hr : (recv b).sized? <;> simp [hr]

theorem length_sizedDatagrams_le (recv : Nat → RecvResult) (a b : Nat) : (sizedDatagrams recv a b).length ≤ b - a :=
  (List.length_filterMap_le _ _).trans (List.length_range' ..).le

/-- The datagrams stand one behind the other, each in a frame of its own. -/
structure Aligned (data : Nat → UInt8) (dataSize : Nat) (datagrams : List Datagram) : Prop where
  len : ∀ d ∈ datagrams, d.len = rxMsgLen
  dataSize : dataSize = datagrams.length * rxMsgLen
  bytes : ∀ (i : Nat) (d : Datagram), datagrams[i]? = some d → ∀ j < rxMsgLen, data (i * rxMsgLen + j) = d.bytes j

theorem aligned_nil (data : Nat → UInt8) : Aligned data 0 [] := ⟨by simp, by simp, by simp⟩

theorem Aligned.append {data : Nat → UInt8} {dataSize : Nat} {datagrams : List Datagram}
    (h : Aligned data dataSize datagrams)
    {d : Datagram} (hd : d.len = rxMsgLen) :
    Aligned (Memory.copy data dataSize fun j : Fin d.len => d.bytes j) (dataSize + d.len) (datagrams ++ [d]) where
  len d' hd' := by
    rcases List.mem_append.mp hd' with hd' | hd'
    · exact h.len d' hd'
    · exact List.mem_singleton.mp hd' ▸ hd
  dataSize := by
    rw [h.dataSize, hd, List.length_append, List.length_singleton, Nat.add_mul, Nat.one_mul]
  bytes i d' hi j hj := by
    have hsize := h.dataSize
    rcases Nat.lt_or_ge i datagrams.length with hlt | hge
    · rw [List.getElem?_append_left hlt] at hi
      rw [← h.bytes i d' hi j hj]
      -- An earlier frame ends before the new one.
      refine Memory.copy_of_not_mem (Or.inl ?_)
      rw [hsize]
      exact Radix.lt_mul hlt hj
    · rw [List.getElem?_append_right hge] at hi
      obtain ⟨hi', heq⟩ := List.getElem?_eq_some_iff.mp hi
      obtain rfl : d = d' := by rwa [List.getElem_singleton] at heq
      have hieq : i = datagrams.length := by
        simp only [List.length_singleton] at hi'
        omega
      rw [hieq, ← hsize]
      exact Memory.copy_add (⟨j, hd ▸ hj⟩ : Fin d.len)

theorem be64toh_congr {m m' : Nat → UInt8} {off off' : Nat} (h : ∀ j < 8, m (off + j) = m' (off' + j)) :
    be64toh m off = be64toh m' off' := by
  unfold be64toh
  refine List.foldl_ext _ _ _ fun x j hj => ?_
  rw [h j (List.mem_range.mp hj)]

theorem Aligned.packets {data : Nat → UInt8} {dataSize : Nat} {datagrams : List Datagram}
    (h : Aligned data dataSize datagrams) (hle : datagrams.length ≤ nReadsDefault) :
    ∃ hfits : dataSize ≤ udpBufferSize,
      (UdpBuffer.mk data dataSize hfits).packets = datagrams.map Datagram.packet := by
  have hsize := h.dataSize
  have hfits : dataSize ≤ udpBufferSize := by
    calc dataSize = datagrams.length * rxMsgLen := hsize
      _ ≤ nReadsDefault * rxMsgLen := Nat.mul_le_mul_right _ hle
      _ ≤ udpBufferSize := by decide
  refine ⟨hfits, ?_⟩
  have hn : (UdpBuffer.mk data dataSize hfits).nOfPackets = datagrams.length := by
    show dataSize / rxMsgLen = _
    rw [hsize]
    exact Nat.mul_div_cancel _ (by decide)
  rw [UdpBuffer.packets, hn]
  refine List.ext_getElem (by simp) fun i hi hi' => ?_
  simp only [List.length_map] at hi'
  have hbytes := h.bytes i datagrams[i] (List.getElem?_eq_getElem hi')
  simp only [List.getElem_map, List.getElem_range]
  refine congrArg₂ Packet.mk (be64toh_congr fun j hj => ?_) (funext fun j => ?_)
  · rw [Nat.zero_add]
    exact hbytes j (Nat.lt_of_lt_of_le hj (by decide))
  · have hj := j.isLt
    simp only [rxDataLen] at hj
    have := hbytes (rxBuffLen + j) (by simp only [rxBuffLen, rxMsgLen, rxDataLen]; omega)
    rw [Nat.add_assoc]
    exact this

/-! ### The read loop -/

/-- The first result of the run, if it is a datagram, has the right size. -/
def FirstSized (recv : Nat → RecvResult) : Prop := ∀ d, recv 0 = .datagram d → d.len = rxMsgLen

/-- A pass copies a datagram and goes on, or the loop ends there; a result of zero publishes the buffer. -/
theorem readLoop_succ (recv : Nat → RecvResult) (order n iK : Nat) (r : Reader) :
    (∃ d, recv r.nRecv = .datagram d ∧ (order = 1 ∧ iK = 0 ∨ d.len = rxMsgLen) ∧
      readLoop recv order (n + 1) iK r =
        readLoop recv order n (iK + 1) (Reader.append { r with nRecv := r.nRecv + 1 } d)) ∨
    (recv r.nRecv).sized? = none ∧ ∃ keepGoing published, (published = r.published ∨
        published = r.published ++ [⟨order, r.dataSize, r.data, r.firstRecv, r.nRecv + 1⟩]) ∧
      readLoop recv order (n + 1) iK r =
        { r with nRecv := r.nRecv + 1, keepGoing := keepGoing, published := published } := by
  cases hr : recv r.nRecv with
  | zero => exact Or.inr ⟨rfl, _, _, Or.inr rfl, by simp only [readLoop, hr]; rfl⟩
  | error => exact Or.inr ⟨rfl, _, _, Or.inl rfl, by simp only [readLoop, hr]; rfl⟩
  | datagram d =>
    simp only [readLoop, hr]
    split
    · exact Or.inl ⟨d, rfl, Or.inl ‹_›, rfl⟩
    · split
      · exact Or.inr ⟨if_neg ‹_›, _, _, Or.inl rfl, rfl⟩
      · exact Or.inl ⟨d, rfl, Or.inr (not_not.mp ‹_›), rfl⟩

/-- The buffer holds the frames received for it so far. -/
structure Reader.Framing (recv : Nat → RecvResult) (r : Reader) : Prop where
  le : r.firstRecv ≤ r.nRecv
  few : r.nRecv ≤ r.firstRecv + nReadsDefault
  aligned : Aligned r.data r.dataSize (sizedDatagrams recv r.firstRecv r.nRecv)
  published : ∀ p ∈ r.published, Framed recv p

theorem Reader.Framing.framed (h : r.Framing recv) (order : Nat) :
    Framed recv ⟨order, r.dataSize, r.data, r.firstRecv, r.nRecv⟩ where
  dataLen := h.aligned.dataSize
  packets := h.aligned.packets ((length_sizedDatagrams_le ..).trans (Nat.sub_le_of_le_add (Nat.add_comm _ _ ▸ h.few)))

theorem Reader.Framing.returnBuffer (h : r.Framing recv) (order : Nat) : (r.returnBuffer order).Framing recv where
  le := h.le
  few := h.few
  aligned := h.aligned
  published p hp := by
    rcases List.mem_append.mp hp with hp | hp
    · exact h.published p hp
    · exact List.mem_singleton.mp hp ▸ h.framed order

theorem Reader.Framing.skip (h : r.Framing recv) (hnone : (recv r.nRecv).sized? = none)
    (hfew : r.nRecv < r.firstRecv + nReadsDefault) (keepGoing : Bool) :
    Reader.Framing recv { r with nRecv := r.nRecv + 1, keepGoing := keepGoing } where
  le := Nat.le_succ_of_le h.le
  few := hfew
  aligned := by
    rw [sizedDatagrams_succ recv h.le, hnone, Option.toList_none, List.append_nil]
    exact h.aligned
  published := h.published

theorem Reader.Framing.append (h : r.Framing recv) {d : Datagram} (hr : recv r.nRecv = .datagram d)
    (hd : d.len = rxMsgLen) (hfew : r.nRecv < r.firstRecv + nReadsDefault) :
    (Reader.append { r with nRecv := r.nRecv + 1 } d).Framing recv where
  le := Nat.le_succ_of_le h.le
  few := hfew
  aligned := by
    have hsized : (recv r.nRecv).sized? = some d := by rw [hr]; exact if_pos hd
    have hsucc := sizedDatagrams_succ recv h.le
    rw [hsized, Option.toList_some] at hsucc
    exact hsucc ▸ h.aligned.append hd
  published := h.published

variable (recv order) in
theorem readLoop_framing (n iK : Nat) (r : Reader) (h : r.Framing recv)
    (hfirst : order = 1 → iK = 0 → ∀ d, recv r.nRecv = .datagram d → d.len = rxMsgLen)
    (hle : r.nRecv + n ≤ r.firstRecv + nReadsDefault) : (readLoop recv order n iK r).Framing recv := by
  induction n generalizing iK r with
  | zero => exact h
  | succ n ih =>
    have hfew : r.nRecv < r.firstRecv + nReadsDefault := by omega
    rcases readLoop_succ recv order n iK r with ⟨d, hr, hd, hs⟩ | ⟨hnone, keepGoing, published, hpub, hs⟩ <;> rw [hs]
    · have hlen : d.len = rxMsgLen := hd.elim (fun h => hfirst h.1 h.2 d hr) id
      refine ih (iK + 1) _ (h.append hr hlen hfew) (fun _ h => by omega) ?_
      show r.nRecv + 1 + n ≤ r.firstRecv + nReadsDefault
      omega
    · have hskip := h.skip hnone hfew keepGoing
      rcases hpub with rfl | rfl
      · exact hskip
      · exact hskip.returnBuffer order

variable (recv order) in
/-- Behind the first pass of the loop only whole frames are added, and what is published stays published. -/
theorem readLoop_keeps (n iK : Nat) (r : Reader) : r.published <+: (readLoop recv order n iK r).published ∧
    (iK ≠ 0 → (readLoop recv order n iK r).dataSize % rxMsgLen = r.dataSize % rxMsgLen) := by
  induction n generalizing iK r with
  | zero => exact ⟨List.prefix_rfl, fun _ => rfl⟩
  | succ n ih =>
    rcases readLoop_succ recv order n iK r with ⟨d, -, hd, hs⟩ | ⟨-, keepGoing, published, hpub, hs⟩ <;> rw [hs]
    · obtain ⟨hpre, hmod⟩ := ih (iK + 1) (Reader.append { r with nRecv := r.nRecv + 1 } d)
      refine ⟨hpre, fun hne => (hmod (Nat.succ_ne_zero _)).trans ?_⟩
      show (r.dataSize + d.len) % rxMsgLen = _
      rw [hd.resolve_left fun h => hne h.2, Nat.add_mod_right]
    · refine ⟨?_, fun _ => rfl⟩
      rcases hpub with rfl | rfl
      · exact List.prefix_rfl
      · exact List.prefix_append _ _

/-! ### Runs -/

/-- The receiver has published framed buffers only, and has called `recvfrom` only for passes gone. -/
structure Receiver.Framing (recv : Nat → RecvResult) (s : Receiver) : Prop where
  published : ∀ p ∈ s.published, Framed recv p
  order : 1 ≤ s.order
  first : s.order = 1 → s.nRecv = 0

theorem Receiver.Framing.reader (h : s.Framing recv) (data : Nat → UInt8) : (s.reader data).Framing recv where
  le := Nat.le_refl _
  few := Nat.le_add_right _ _
  aligned := by
    show Aligned data 0 (sizedDatagrams recv s.nRecv s.nRecv)
    rw [sizedDatagrams_self]
    exact aligned_nil data
  published := h.published

theorem Receiver.Framing.pass (h : s.Framing recv) (hfirst : FirstSized recv) (data : Nat → UInt8) :
    (s.pass recv data).Framing recv := by
  have hloop := readLoop_framing recv s.order nReadsDefault 0 (s.reader data) (h.reader data)
    (fun h1 _ d hr => hfirst d (h.first h1 ▸ hr)) (Nat.le_refl _)
  refine ⟨(hloop.returnBuffer s.order).published, Nat.le_succ_of_le h.order, fun h1 => ?_⟩
  have := h.order
  have : s.order + 1 = 1 := h1
  omega

theorem udpRecvWork_framing (hfirst : FirstSized recv) (bufs : List (Nat → UInt8)) :
    (udpRecvWork recv bufs).Framing recv := by
  induction bufs using List.reverseRecOn with
  | nil => exact ⟨by simp [udpRecvWork, Receiver.start], Nat.le_refl 1, fun _ => rfl⟩
  | append_singleton bufs data ih =>
    rw [udpRecvWork, List.foldl_append, List.foldl_cons, List.foldl_nil]
    split
    · exact ih.pass hfirst data
    · exact ih

theorem foldl_published (bufs : List (Nat → UInt8)) (s : Receiver) :
    s.published <+: (bufs.foldl (fun s data => if s.keepGoing then s.pass recv data else s) s).published := by
  induction bufs generalizing s with
  | nil => exact List.prefix_rfl
  | cons data bufs ih =>
    rw [List.foldl_cons]
    refine List.IsPrefix.trans ?_ (ih _)
    split
    · exact (readLoop_keeps recv s.order nReadsDefault 0 (s.reader data)).1.trans (List.prefix_append _ _)
    · exact List.prefix_rfl

theorem readLoop_first {d : Datagram} (h : recv r.nRecv = .datagram d) (n : Nat) :
    readLoop recv 1 (n + 1) 0 r = readLoop recv 1 n 1 (Reader.append { r with nRecv := r.nRecv + 1 } d) := by
  simp [readLoop, h]

/-- The length of the first buffer tells that of a first datagram. -/
theorem first_published {d : Datagram} (h : recv 0 = .datagram d) (data : Nat → UInt8) (bufs : List (Nat → UInt8)) :
    ∃ p ∈ (udpRecvWork recv (data :: bufs)).published, p.dataLen % rxMsgLen = d.len % rxMsgLen := by
  have hpass : ∃ p ∈ (Receiver.start.pass recv data).published, p.dataLen % rxMsgLen = d.len % rxMsgLen := by
    refine ⟨_, List.mem_append_right _ (List.mem_singleton_self _), ?_⟩
    show (readLoop recv 1 (159 + 1) 0 (Receiver.start.reader data)).dataSize % rxMsgLen = _
    rw [readLoop_first h, (readLoop_keeps recv 1 159 1 _).2 Nat.one_ne_zero]
    show (0 + d.len) % rxMsgLen = _
    rw [Nat.zero_add]
  obtain ⟨p, hp, hmod⟩ := hpass
  exact ⟨p, (foldl_published bufs _).subset hp, hmod⟩

theorem sized_of_mod {d : Datagram} (h : d.len % rxMsgLen = 0) : d.len = rxMsgLen := by
  have hpos := d.pos
  rcases Nat.lt_or_eq_of_le d.le with hlt | heq
  · rw [Nat.mod_eq_of_lt hlt] at h
    omega
  · exact heq

/-- Every published buffer is framed exactly when the first result is not a datagram of a wrong size, or the
    thread was stopped before it. -/
theorem framed_iff (recv : Nat → RecvResult) (bufs : List (Nat → UInt8)) :
    (∀ p ∈ (udpRecvWork recv bufs).published, Framed recv p) ↔ bufs = [] ∨ FirstSized recv := by
  constructor
  · intro h
    cases bufs with
    | nil => exact Or.inl rfl
    | cons data bufs =>
      refine Or.inr fun d hd => sized_of_mod ?_
      obtain ⟨p, hp, hmod⟩ := first_published hd data bufs
      rw [← hmod, (h p hp).dataLen, Nat.mul_mod_left]
  · rintro (rfl | hfirst)
    · intro p hp
      cases hp
    · exact (udpRecvWork_framing hfirst bufs).published

/-- A datagram of one byte, then datagrams of the right size. -/
def shortFirst (k : Nat) : RecvResult :=
  if k = 0 then .datagram ⟨1, fun _ => 0, Nat.zero_lt_one, rxMsgLen_pos⟩
  else .datagram ⟨rxMsgLen, fun _ => 0, rxMsgLen_pos, Nat.le_refl _⟩

theorem shortFirst_not_framed : ¬∀ p ∈ (udpRecvWork shortFirst [fun _ => 0]).published, Framed shortFirst p := by
  intro h
  obtain ⟨p, hp, hmod⟩ := first_published (show shortFirst 0 = _ from rfl) (fun _ => 0) []
  rw [(h p hp).dataLen, Nat.mul_mod_left] at hmod
  exact absurd hmod (by decide)

end VoltRec
