import VoltRec.NetworkPool
import VoltRec.Theorems.Pool

/-! Delivery through the network pool. The orders published and not yet fetched are the last ones that the
    producer gave, each in one slot, so the lowest of them is the one that the consumer waits for. -/

namespace VoltRec
namespace Network

variable {n : Nat} {data : Nat → Nat → UInt8} {dataLen : Nat → Nat} {s s' : Network}
  {tr : List (Act Side)} {a : Act Side}

/-! ### The two threads hold the slots they use -/

theorem transfer_take {T : Type} {holder : Nat → Option T} {index i : Nat} {t u : T} (h : holder index = none)
    (hi : holder i = some t) : Function.update holder index (some u) i = some t := by
  have hne : i ≠ index := by
    rintro rfl
    simp [h] at hi
  rw [Function.update_of_ne hne, hi]

theorem transfer_give {T : Type} {holder : Nat → Option T} {index i : Nat} {t u : T} (h : holder index = some u)
    (hi : holder i = some t) (htu : t ≠ u) : Function.update holder index none i = some t := by
  have hne : i ≠ index := by
    rintro rfl
    exact htu (Option.some.inj (hi.symm.trans h))
  rw [Function.update_of_ne hne, hi]

/-- The owned pool `o` has the slots of the locals with their threads. -/
structure Follows (s : Network) (o : Owned Side) : Prop where
  pool : o.pool = s.pool
  marked : Marked o
  filling : ∀ i, s.locals.filling = some i → o.holder i = some .producer
  reading : ∀ i, s.locals.reading = some i → o.holder i = some .consumer

theorem Follows.step {o : Owned Side} (h : Follows s o) (hs : s.Step a s') :
    o.Step a ⟨s'.pool, a.transfer o.holder⟩ ∧ Follows s' ⟨s'.pool, a.transfer o.holder⟩ := by
  obtain ⟨p, l⟩ := s
  obtain ⟨p', l'⟩ := s'
  obtain ⟨_, holder⟩ := o
  obtain ⟨rfl, hmarked, hfill, hread⟩ := h
  obtain ⟨he, ht⟩ := hs
  simp only at he ht hfill hread ⊢
  have hheld : a.Held holder := by
    cases ht with
    | write hf | returnBufferData hf | integrityFilling hf => exact hfill _ hf
    | returnEmptyBuffer hr | integrityReading hr => exact hread _ hr
    | _ => trivial
  suffices h : (∀ i, l'.filling = some i → a.transfer holder i = some .producer) ∧
      ∀ i, l'.reading = some i → a.transfer holder i = some .consumer from
    ⟨⟨he, hheld, rfl⟩, rfl, hmarked.step ⟨he, hheld, rfl⟩, h.1, h.2⟩
  cases ht with
  | @fetchEmptyBuffer index hf =>
    have hnone : holder index = none := by
      cases he with
      | fetchEmptyBuffer _ _ hf => exact hmarked.unheld (UdpBuff.fetchEmptyBuffer_spec hf).1 (by decide)
    refine ⟨fun i hi => ?_, fun i hi => transfer_take hnone (hread i hi)⟩
    obtain rfl : index = i := Option.some.inj hi
    exact Function.update_self ..
  | @returnBufferData index _ _ hf =>
    refine ⟨fun i hi => by simp at hi, fun i hi => ?_⟩
    exact transfer_give (hfill index hf) (hread i hi) (by decide)
  | @fetchBufferTake index _ _ _ hr =>
    have hnone : holder index = none := by
      cases he with
      | fetchBufferTake _ _ hf =>
        obtain ⟨hget, hpos, -⟩ := UdpBuff.fetchBufferTake_spec hf
        exact hmarked.unheld hget (by omega)
    refine ⟨fun i hi => transfer_take hnone (hfill i hi), fun i hi => ?_⟩
    obtain rfl : index = i := Option.some.inj hi
    exact Function.update_self ..
  | @returnEmptyBuffer index hr =>
    refine ⟨fun i hi => ?_, fun i hi => by simp at hi⟩
    exact transfer_give (hread index hr) (hfill i hi) (by decide)
  | _ => exact ⟨hfill, hread⟩

/-- A run of the two loops is a run of threads that use only slots they hold. -/
theorem run_owned (hr : Lts.Run Step (.init n data dataLen) tr s) :
    ∃ o, Follows s o ∧ Lts.Run Owned.Step (.init n data dataLen) tr o := by
  have h0 : Follows (.init n data dataLen) (.init n data dataLen) := by
    refine ⟨rfl, fun index t h => ?_, fun i h => ?_, fun i h => ?_⟩ <;> cases h
  have hstep : ∀ (s : Network) (a : Act Side) (s' : Network) (o : Owned Side), Follows s o → s.Step a s' →
      ∃ o', Follows s' o' ∧ ∀ tr, Lts.Run Owned.Step (.init n data dataLen) tr o →
        Lts.Run Owned.Step (.init n data dataLen) (tr ++ [a]) o' :=
    fun s a s' o hf hs => ⟨_, (hf.step hs).2, fun tr hrun => hrun.next (hf.step hs).1⟩
  obtain ⟨o, hf, hrun⟩ := Lts.Run.simulate (R := Follows) (f := fun a => [a]) h0 hstep hr
  rw [List.flatMap_singleton'] at hrun
  exact ⟨o, hf, hrun⟩

/-- The slots of the locals are marked as in use, and are not the same. -/
theorem locals_marked (hr : Lts.Run Step (.init n data dataLen) tr s) :
    (∀ i, s.locals.filling = some i → s.pool.buff.orderNo[i]? = some (-1) ∧ s.locals.reading ≠ some i) ∧
      ∀ i, s.locals.reading = some i → s.pool.buff.orderNo[i]? = some (-1) := by
  obtain ⟨o, ⟨hpool, hmarked, hfill, hread⟩, -⟩ := run_owned hr
  rw [← hpool]
  refine ⟨fun i hi => ⟨hmarked i _ (hfill i hi), fun hi' => ?_⟩, fun i hi => hmarked i _ (hread i hi)⟩
  have := (hfill i hi).symm.trans (hread i hi')
  cases this

/-! ### What has been published and fetched -/

theorem sent_append (tr : List (Act Side)) (a : Act Side) : sent (tr ++ [a]) = sent tr ++ a.sent.toList := by
  rw [sent, List.filterMap_append]
  cases h : a.sent <;> simp [h, sent]

theorem received_append (tr : List (Act Side)) (a : Act Side) :
    received (tr ++ [a]) = received tr ++ a.received.toList := by
  rw [received, List.filterMap_append]
  cases h : a.received <;> simp [h, received]

theorem inFlight_snoc {i : Nat} (h : InFlight i (tr ++ [a])) :
    (InFlight i tr ∧ a ≠ .returnEmptyBuffer .consumer i) ∨
      ∃ order dataLen data, a = .returnBufferData .producer i order dataLen data := by
  obtain ⟨pre, order, dataLen, data, suf, heq, hnot⟩ := h
  rcases List.eq_nil_or_concat suf with rfl | ⟨suf, b, rfl⟩
  · obtain ⟨-, ha⟩ := List.append_inj' heq rfl
    exact Or.inr ⟨order, dataLen, data, List.head_eq_of_cons_eq ha⟩
  · have heq' : tr ++ [a] = (pre ++ .returnBufferData .producer i order dataLen data :: suf) ++ [b] := by
      simpa using heq
    obtain ⟨htr, hab⟩ := List.append_inj' heq' rfl
    refine Or.inl ⟨⟨pre, order, dataLen, data, suf, htr, fun h => hnot (by simp [h])⟩, ?_⟩
    rintro rfl
    exact hnot (by simp [List.head_eq_of_cons_eq hab])

/-- The messages of the run and the slots that hold them. -/
structure Fifo (tr : List (Act Side)) (s : Network) : Prop where
  order : s.locals.order = (sent tr).length + 1
  numbered : ∀ (k : Nat) (m : Message), (sent tr)[k]? = some m → m.1 = (k : Int) + 1
  received : received tr <+: sent tr
  ready : ∀ (i : Nat) (o : Int), s.pool.buff.orderNo[i]? = some o → 0 < o →
    ∃ k, (VoltRec.received tr).length ≤ k ∧ (sent tr)[k]? = some (o, s.pool.buff.dataLen i, s.pool.buff.data i)
  present : ∀ (k : Nat) (m : Message), (VoltRec.received tr).length ≤ k → (sent tr)[k]? = some m →
    ∃ i : Nat, s.pool.buff.orderNo[i]? = some m.1
  inj : ∀ (i j : Nat) (o : Int), 0 < o → s.pool.buff.orderNo[i]? = some o → s.pool.buff.orderNo[j]? = some o → i = j
  reading : ∀ i, s.locals.reading = some i →
    ∃ o, (VoltRec.received tr).getLast? = some (o, s.pool.buff.dataLen i, s.pool.buff.data i)
  inFlight : ∀ i, InFlight i tr → (∃ o, s.pool.buff.orderNo[i]? = some o ∧ 0 < o) ∨ s.locals.reading = some i

/-- An action that moves no message, and leaves the published slots and the one being read as they are. -/
theorem Fifo.quiet (h : Fifo tr s) (hsent : a.sent = none) (hrecv : a.received = none)
    (horder : s'.locals.order = s.locals.order)
    (hready : ∀ (i : Nat) (o : Int), 0 < o → (s'.pool.buff.orderNo[i]? = some o ↔ s.pool.buff.orderNo[i]? = some o))
    (hdata : ∀ i : Nat, (∃ o : Int, 0 < o ∧ s.pool.buff.orderNo[i]? = some o) ∨ s'.locals.reading = some i →
      s'.pool.buff.dataLen i = s.pool.buff.dataLen i ∧ s'.pool.buff.data i = s.pool.buff.data i)
    (hread : ∀ i, s'.locals.reading = some i → s.locals.reading = some i)
    (hgive : ∀ i, s.locals.reading = some i → s'.locals.reading ≠ some i → a = .returnEmptyBuffer .consumer i) :
    Fifo (tr ++ [a]) s' := by
  have hs : sent (tr ++ [a]) = sent tr := by rw [sent_append, hsent, Option.toList_none, List.append_nil]
  have hr : VoltRec.received (tr ++ [a]) = VoltRec.received tr := by
    rw [received_append, hrecv, Option.toList_none, List.append_nil]
  refine ⟨?_, ?_, ?_, ?_, ?_, ?_, ?_, ?_⟩
  · rw [horder, hs]
    exact h.order
  · rw [hs]
    exact h.numbered
  · rw [hs, hr]
    exact h.received
  · intro i o hi ho
    have hi' := (hready i o ho).mp hi
    obtain ⟨hl, hd⟩ := hdata i (Or.inl ⟨o, ho, hi'⟩)
    rw [hs, hr, hl, hd]
    exact h.ready i o hi' ho
  · rw [hs, hr]
    intro k m hk hm
    obtain ⟨i, hi⟩ := h.present k m hk hm
    have hpos : 0 < m.1 := by
      have := h.numbered k m hm
      omega
    exact ⟨i, (hready i m.1 hpos).mpr hi⟩
  · intro i j o ho hi hj
    exact h.inj i j o ho ((hready i o ho).mp hi) ((hready j o ho).mp hj)
  · intro i hi
    obtain ⟨hl, hd⟩ := hdata i (Or.inr hi)
    rw [hr, hl, hd]
    exact h.reading i (hread i hi)
  · intro i hi
    rcases inFlight_snoc hi with ⟨hi, hne⟩ | ⟨order, dataLen, data, rfl⟩
    · rcases h.inFlight i hi with ⟨o, ho, hpos⟩ | hr
      · exact Or.inl ⟨o, (hready i o hpos).mpr ho, hpos⟩
      · right
        by_contra hnot
        exact hne (hgive i hr hnot)
    · cases hsent

/-- A slot after an update of one of them. -/
theorem getElem?_set_iff {no : List Int} {index : Nat} {o : Int} (h : no[index]? = some o) (o' : Int)
    (i : Nat) (x : Int) :
    (no.set index o')[i]? = some x ↔ index = i ∧ o' = x ∨ index ≠ i ∧ no[i]? = some x := by
  obtain ⟨hlt, -⟩ := List.getElem?_eq_some_iff.mp h
  by_cases hi : index = i
  · subst hi
    simp [hlt]
  · simp [hi]

theorem ready_mark {no : List Int} {index : Nat} {o o' : Int} (h : no[index]? = some o) (ho : ¬0 < o) (ho' : ¬0 < o')
    (i : Nat) (x : Int) (hx : 0 < x) : (no.set index o')[i]? = some x ↔ no[i]? = some x := by
  rw [getElem?_set_iff h]
  constructor
  · rintro (⟨-, rfl⟩ | ⟨-, hi⟩)
    · contradiction
    · exact hi
  · intro hi
    refine Or.inr ⟨?_, hi⟩
    rintro rfl
    obtain rfl := Option.some.inj (h.symm.trans hi)
    contradiction

/-- The published orders are at most the number of messages sent. -/
theorem Fifo.order_lt (h : Fifo tr s) {i : Nat} {o : Int} (hi : s.pool.buff.orderNo[i]? = some o) (ho : 0 < o) :
    o < s.locals.order := by
  obtain ⟨k, -, hk⟩ := h.ready i o hi ho
  have hnum := h.numbered k _ hk
  have hlt := (List.getElem?_eq_some_iff.mp hk).1
  have horder := h.order
  simp only at hnum
  omega

theorem getElem?_concat {α : Type} {l : List α} {x y : α} {k : Nat} (h : (l ++ [x])[k]? = some y) :
    l[k]? = some y ∨ k = l.length ∧ x = y := by
  rcases Nat.lt_or_ge k l.length with hlt | hge
  · rw [List.getElem?_append_left hlt] at h
    exact Or.inl h
  · rw [List.getElem?_append_right hge] at h
    obtain ⟨hk, rfl⟩ := List.getElem?_eq_some_iff.mp h
    rw [List.length_singleton] at hk
    exact Or.inr ⟨by omega, by simp⟩

theorem Fifo.publish (h : Fifo tr s) {index len : Nat} {buff : UdpBuff}
    (hr : Lts.Run Step (.init n data dataLen) tr s)
    (hf : s.locals.filling = some index)
    (hb : s.pool.buff.returnBufferData index s.locals.order len = some buff) :
    Fifo (tr ++ [.returnBufferData .producer index s.locals.order len (s.pool.buff.data index)])
      ⟨{ s.pool with buff := buff, publishing := some .producer },
        { s.locals with order := s.locals.order + 1, filling := none }⟩ := by
  obtain ⟨-, hread⟩ := (locals_marked hr).1 index hf
  obtain ⟨h1, rfl⟩ := UdpBuff.returnBufferData_spec hb
  have hle := h.received.length_le
  have hs : sent (tr ++ [.returnBufferData .producer index s.locals.order len (s.pool.buff.data index)]) =
      sent tr ++ [((s.locals.order : Int), len, s.pool.buff.data index)] := sent_append tr _
  have hrecv : VoltRec.received
      (tr ++ [.returnBufferData .producer index s.locals.order len (s.pool.buff.data index)]) =
      VoltRec.received tr := (received_append tr _).trans (List.append_nil _)
  have horder := h.order
  have hset := getElem?_set_iff h1 (s.locals.order : Int)
  refine ⟨?_, ?_, ?_, ?_, ?_, ?_, ?_, ?_⟩
  · show s.locals.order + 1 = _
    rw [hs, List.length_append, horder]
    rfl
  · rw [hs]
    intro k m hk
    rcases getElem?_concat hk with hk | ⟨rfl, rfl⟩
    · exact h.numbered k m hk
    · simp only
      omega
  · rw [hs, hrecv]
    exact h.received.trans (List.prefix_append _ _)
  · intro i o hi ho
    rw [hs, hrecv]
    rcases (hset i o).mp hi with ⟨rfl, rfl⟩ | ⟨hii, hi⟩
    · refine ⟨(sent tr).length, hle, ?_⟩
      simp only [List.getElem?_append_right (Nat.le_refl _), Nat.sub_self, List.getElem?_cons_zero,
        Function.update_self]
    · obtain ⟨k, hk, hmem⟩ := h.ready i o hi ho
      refine ⟨k, hk, ?_⟩
      simp only [List.getElem?_append_left (List.getElem?_eq_some_iff.mp hmem).1, Function.update_of_ne (Ne.symm hii)]
      exact hmem
  · rw [hs, hrecv]
    intro k m hk hm
    rcases getElem?_concat hm with hm | ⟨rfl, rfl⟩
    · obtain ⟨i, hi⟩ := h.present k m hk hm
      refine ⟨i, (hset i m.1).mpr (Or.inr ⟨?_, hi⟩)⟩
      rintro rfl
      have := h.numbered k m hm
      have := Option.some.inj (h1.symm.trans hi)
      omega
    · exact ⟨index, (hset index _).mpr (Or.inl ⟨rfl, rfl⟩)⟩
  · intro i j o ho hi hj
    rcases (hset i o).mp hi with ⟨rfl, rfl⟩ | ⟨-, hi⟩ <;> rcases (hset j _).mp hj with ⟨rfl, heq⟩ | ⟨-, hj⟩
    · rfl
    · exact absurd (h.order_lt hj ho) (Int.lt_irrefl _)
    · exact absurd (heq ▸ h.order_lt hi ho) (Int.lt_irrefl _)
    · exact h.inj i j o ho hi hj
  · intro i hi
    have hne : i ≠ index := fun heq => hread (heq ▸ hi)
    simp only [hrecv, Function.update_of_ne hne]
    exact h.reading i hi
  · intro i hi
    by_cases hii : index = i
    · exact Or.inl ⟨s.locals.order, (hset i _).mpr (Or.inl ⟨hii, rfl⟩), by omega⟩
    · rcases inFlight_snoc hi with ⟨hi, -⟩ | ⟨order, len', data', heq⟩
      · rcases h.inFlight i hi with ⟨o, ho, hpos⟩ | hr
        · exact Or.inl ⟨o, (hset i o).mpr (Or.inr ⟨hii, ho⟩), hpos⟩
        · exact Or.inr hr
      · exact absurd (by injection heq) hii

/-- The message that the consumer waits for is published, so the lowest order is its order. -/
theorem Fifo.next (h : Fifo tr s) {k : Nat} {order : Int} {m : Message}
    (hmin : ∀ o ∈ s.pool.buff.orderNo, 0 < o → order ≤ o) (hk : (VoltRec.received tr).length ≤ k)
    (hmsg : (sent tr)[k]? = some m) (hm : m.1 = order) :
    k = (VoltRec.received tr).length := by
  have hnum := h.numbered k _ hmsg
  have hlt : (VoltRec.received tr).length < (sent tr).length :=
    Nat.lt_of_le_of_lt hk (List.getElem?_eq_some_iff.mp hmsg).1
  have hnext := List.getElem?_eq_getElem hlt
  obtain ⟨i, hi⟩ := h.present _ _ (Nat.le_refl _) hnext
  have hnum' := h.numbered _ _ hnext
  have := hmin _ (List.mem_of_getElem? hi) (by omega)
  omega

theorem Fifo.fetch (h : Fifo tr s) {index len : Nat} {order : Int} {buff : UdpBuff} (hread : s.locals.reading = none)
    (hb : s.pool.buff.fetchBufferTake = some (buff, index, order, len)) :
    Fifo (tr ++ [.fetchBufferTake .consumer index order len (s.pool.buff.data index)])
      ⟨{ s.pool with buff := buff, claimed := s.pool.claimed.erase .consumer },
        { s.locals with reading := some index }⟩ := by
  obtain ⟨hget, hpos, hmin, rfl, rfl⟩ := UdpBuff.fetchBufferTake_spec hb
  obtain ⟨k, hk, hmsg⟩ := h.ready index order hget hpos
  have hnum := h.numbered k _ hmsg
  simp only at hnum
  have hnext := h.next hmin hk hmsg rfl
  have hs : sent
      (tr ++ [.fetchBufferTake .consumer index order (s.pool.buff.dataLen index) (s.pool.buff.data index)]) =
      sent tr := (sent_append tr _).trans (List.append_nil _)
  have hrecv : VoltRec.received
      (tr ++ [.fetchBufferTake .consumer index order (s.pool.buff.dataLen index) (s.pool.buff.data index)]) =
      VoltRec.received tr ++ [(order, s.pool.buff.dataLen index, s.pool.buff.data index)] := received_append tr _
  have hother : ∀ (i : Nat) (o : Int), 0 < o → (s.pool.buff.orderNo.set index (-1))[i]? = some o →
      index ≠ i ∧ s.pool.buff.orderNo[i]? = some o := by
    intro i o ho hi
    rcases (getElem?_set_iff hget (-1) i o).mp hi with ⟨-, rfl⟩ | hi
    · contradiction
    · exact hi
  refine ⟨hs ▸ h.order, hs ▸ h.numbered, ?_, ?_, ?_, ?_, ?_, ?_⟩
  · rw [hs, hrecv]
    obtain ⟨suf, hsuf⟩ := h.received
    rw [← hsuf, hnext, List.getElem?_append_right (Nat.le_refl _), Nat.sub_self] at hmsg
    obtain ⟨suf, rfl⟩ : ∃ suf', suf = (order, s.pool.buff.dataLen index, s.pool.buff.data index) :: suf' := by
      cases suf with
      | nil => cases hmsg
      | cons m suf =>
        cases hmsg
        exact ⟨suf, rfl⟩
    exact ⟨suf, by rw [← hsuf, List.append_assoc, List.singleton_append]⟩
  · intro i o hi ho
    obtain ⟨hne, hi⟩ := hother i o ho hi
    obtain ⟨k', hk', hmsg'⟩ := h.ready i o hi ho
    have hnum' := h.numbered k' _ hmsg'
    simp only at hnum'
    have : k' ≠ k := by
      rintro rfl
      exact hne (h.inj index i o ho (by rw [hget]; congr 1; omega) hi)
    refine ⟨k', ?_, hs ▸ hmsg'⟩
    rw [hrecv, List.length_append, List.length_singleton]
    omega
  · rw [hs, hrecv, List.length_append, List.length_singleton]
    intro k' m hk' hm
    obtain ⟨i, hi⟩ := h.present k' m (by omega) hm
    have hnum' := h.numbered k' m hm
    refine ⟨i, (getElem?_set_iff hget (-1) i m.1).mpr (Or.inr ⟨?_, hi⟩)⟩
    rintro rfl
    have := Option.some.inj (hget.symm.trans hi)
    omega
  · intro i j o ho hi hj
    exact h.inj i j o ho (hother i o ho hi).2 (hother j o ho hj).2
  · intro i hi
    obtain rfl : index = i := Option.some.inj hi
    exact ⟨order, by rw [hrecv, List.getLast?_concat]⟩
  · intro i hi
    rcases inFlight_snoc hi with ⟨hi, -⟩ | ⟨order, len', data', heq⟩
    · by_cases hii : index = i
      · exact Or.inr (congrArg some hii)
      · rcases h.inFlight i hi with ⟨o, ho, hpos'⟩ | hr
        · exact Or.inl ⟨o, (getElem?_set_iff hget (-1) i o).mpr (Or.inr ⟨hii, ho⟩), hpos'⟩
        · rw [hread] at hr
          cases hr
    · cases heq

theorem Fifo.step (h : Fifo tr s) (hr : Lts.Run Step (.init n data dataLen) tr s) (hs : s.Step a s') :
    Fifo (tr ++ [a]) s' := by
  obtain ⟨hfill, hread⟩ := locals_marked hr
  obtain ⟨p, l⟩ := s
  obtain ⟨p', l'⟩ := s'
  obtain ⟨he, ht⟩ := hs
  simp only at he ht hfill hread
  have same : ∀ {b : Act Side}, b.sent = none → b.received = none → ∀ {q : Pool Side},
      q.buff.orderNo = p.buff.orderNo → q.buff.dataLen = p.buff.dataLen → q.buff.data = p.buff.data →
      Fifo (tr ++ [b]) ⟨q, l⟩ := by
    intro b hsent hrecv q ho hl hd
    exact h.quiet hsent hrecv rfl (fun i o _ => by rw [ho]) (fun i _ => ⟨by rw [hl], by rw [hd]⟩) (fun i hi => hi)
      fun i hi hne => absurd hi hne
  cases ht with
  | @fetchEmptyBuffer index hf =>
    cases he with
    | fetchEmptyBuffer _ _ hb =>
      obtain ⟨h0, rfl⟩ := UdpBuff.fetchEmptyBuffer_spec hb
      exact h.quiet rfl rfl rfl (ready_mark h0 (by decide) (by decide)) (fun _ _ => ⟨rfl, rfl⟩) (fun _ hi => hi)
        fun _ hi hne => absurd hi hne
  | noEmpty => cases he; exact same rfl rfl rfl rfl rfl
  | @write index x v hf =>
    cases he with
    | write =>
      obtain ⟨h1, hne⟩ := hfill index hf
      refine h.quiet rfl rfl rfl (fun _ _ _ => Iff.rfl) (fun i hi => ⟨rfl, ?_⟩) (fun _ hi => hi)
        fun _ hi hn => absurd hi hn
      -- The slot being filled is neither published nor being read.
      refine Function.update_of_ne ?_ ..
      rintro rfl
      rcases hi with ⟨o, ho, hi⟩ | hi
      · have := Option.some.inj (h1.symm.trans hi)
        omega
      · exact hne hi
  | returnBufferData hf =>
    cases he with
    | returnBufferData _ _ hb => exact h.publish hr hf hb
  | returnBufferReady => cases he; exact same rfl rfl rfl rfl rfl
  | integrityFilling => cases he; exact same rfl rfl rfl rfl rfl
  | fetchBufferWait =>
    cases he with
    | fetchBufferWait _ hb =>
      obtain ⟨-, rfl⟩ := UdpBuff.fetchBufferWait_spec hb
      exact same rfl rfl rfl rfl rfl
  | fetchBufferShut => cases he; exact same rfl rfl rfl rfl rfl
  | fetchBufferTake hl =>
    cases he with
    | fetchBufferTake _ _ hb => exact h.fetch hl hb
  | takeNone => cases he; exact same rfl rfl rfl rfl rfl
  | @returnEmptyBuffer index hl =>
    cases he with
    | returnEmptyBuffer _ _ hb =>
      obtain ⟨h1, rfl⟩ := UdpBuff.returnEmptyBuffer_spec hb
      refine h.quiet rfl rfl rfl (ready_mark h1 (by decide) (by decide)) (fun _ _ => ⟨rfl, rfl⟩)
        (fun i hi => by cases hi) fun i hi _ => ?_
      obtain rfl : index = i := Option.some.inj (hl.symm.trans hi)
      rfl
  | integrityReading => cases he; exact same rfl rfl rfl rfl rfl

theorem Fifo.run (hr : Lts.Run Step (.init n data dataLen) tr s) : Fifo tr s := by
  refine hr.invariant (I := Fifo) ⟨rfl, ?_, List.prefix_rfl, fun i o hi ho => ?_, ?_, fun i j o ho hi _ => ?_, ?_, ?_⟩
    fun tr s a s' hr h hs => h.step hr hs
  · intro k m hm
    cases hm
  · obtain rfl := List.eq_of_mem_replicate (List.mem_of_getElem? hi)
    contradiction
  · intro k m _ hm
    cases hm
  · obtain rfl := List.eq_of_mem_replicate (List.mem_of_getElem? hi)
    contradiction
  · intro i hi
    cases hi
  · rintro i ⟨pre, order, dataLen, data, suf, heq, -⟩
    simp at heq

theorem Fifo.bounded (h : Fifo tr s) (hlen : (sent tr).length < intMax) : ∀ a ∈ tr, a.Bounded := by
  intro a ha
  cases a with
  | returnBufferData t index order len data =>
    have hmem : (order, len, data) ∈ sent tr := List.mem_filterMap.mpr ⟨_, ha, rfl⟩
    obtain ⟨k, hk⟩ := List.mem_iff_getElem?.mp hmem
    have hnum := h.numbered k _ hk
    have hlt := (List.getElem?_eq_some_iff.mp hk).1
    simp only at hnum
    exact ⟨by omega, by omega⟩
  | _ => trivial

/-- A slot that the producer fills is not in flight. -/
theorem Fifo.not_inFlight (h : Fifo tr s) (hr : Lts.Run Step (.init n data dataLen) tr s) {index : Nat}
    (hf : s.locals.filling = some index) : ¬InFlight index tr := by
  obtain ⟨h1, hne⟩ := (locals_marked hr).1 index hf
  intro hi
  rcases h.inFlight index hi with ⟨o, ho, hpos⟩ | hread
  · have := Option.some.inj (h1.symm.trans ho)
    omega
  · exact hne hread

/-- The network pool delivers what the producer publishes, all of it, in order and unchanged, while the
    orders stay below `INT_MAX`. -/
theorem lossless_fifo (hr : Lts.Run Step (.init n data dataLen) tr s) (hlen : (sent tr).length < intMax) :
    received tr <+: sent tr ∧
      (∀ (k : Nat) (m : Message), (received tr)[k]? = some m → m.1 = (k : Int) + 1) ∧
      (∀ (k : Nat) (m : Message), (received tr).length ≤ k → (sent tr)[k]? = some m →
        ∃ i, readyIn s.pool.buff i = [m]) ∧
      (∀ i, s.locals.reading = some i →
        ∃ o, (received tr).getLast? = some (o, s.pool.buff.dataLen i, s.pool.buff.data i)) ∧
      (∀ pre t index x v post, tr = pre ++ .write t index x v :: post → ¬InFlight index pre) ∧
      ∀ a ∈ tr, ¬a.Failed := by
  have h := Fifo.run hr
  refine ⟨h.received, fun k m hm => ?_, fun k m hk hm => ?_, h.reading, ?_, ?_⟩
  · obtain ⟨suf, hsuf⟩ := h.received
    refine h.numbered k m ?_
    rw [← hsuf, List.getElem?_append_left (List.getElem?_eq_some_iff.mp hm).1]
    exact hm
  · obtain ⟨i, hi⟩ := h.present k m hk hm
    have hnum := h.numbered k m hm
    obtain ⟨k', -, hk'⟩ := h.ready i m.1 hi (by omega)
    have hnum' := h.numbered k' _ hk'
    simp only at hnum'
    obtain rfl : k' = k := by omega
    refine ⟨i, ?_⟩
    rw [readyIn_of_pos hi (by omega), Option.some.inj (hk'.symm.trans hm)]
  · rintro pre t index x v post rfl
    obtain ⟨s₁, s₂, hr₁, hs⟩ := hr.split
    obtain ⟨-, ht⟩ := hs
    have hfill : s₁.locals.filling = some index := by
      generalize s₁.locals = l, s₂.locals = l' at ht
      cases ht with
      | write hf => exact hf
    exact (Fifo.run hr₁).not_inFlight hr₁ hfill
  · obtain ⟨o, -, hrun⟩ := run_owned hr
    exact (Counted.run hrun (h.bounded hlen)).2.2

theorem Step.of_exec {p : Pool Side} {l : Locals} (h : s.pool.Exec a p) (ht : Turn s.locals a l) : s.Step a ⟨p, l⟩ :=
  ⟨h, ht⟩

/-- The producer writes a byte and publishes the slot, and the consumer fetches it. -/
theorem run_one : ∃ tr s, Lts.Run Step (.init 1 (fun _ _ => 0) fun _ => 0) tr s ∧ (sent tr).length = 1 ∧
    (received tr).length = 1 := by
  refine ⟨_, _, .next (.next (.next (.next (.next (.next .start
    (.of_exec (.fetchEmptyBuffer (t := .producer) ⟨?_, ?_⟩ rfl rfl) (.fetchEmptyBuffer rfl)))
    (.of_exec (.write (t := .producer) (x := 0) (v := 7) ⟨?_, ?_⟩) (.write rfl)))
    (.of_exec (.returnBufferData (t := .producer) ⟨?_, ?_⟩ rfl rfl) (@Turn.returnBufferData _ 0 8 _ rfl)))
    (.of_exec (.returnBufferReady (t := .producer) rfl) .returnBufferReady))
    (.of_exec (.fetchBufferWait (t := .consumer) ⟨?_, ?_⟩ rfl) (.fetchBufferWait rfl)))
    (.of_exec (.fetchBufferTake (t := .consumer) ?_ rfl rfl) (.fetchBufferTake rfl)), rfl, rfl⟩
  all_goals simp [Network.init, Pool.init]

theorem lossless_fifo_one : ∃ tr, (received tr).length = 1 ∧ received tr <+: sent tr := by
  obtain ⟨tr, s, hr, hs, hrecv⟩ := run_one
  exact ⟨tr, hrecv, (lossless_fifo hr (by rw [hs]; decide)).1⟩

end Network
end VoltRec
