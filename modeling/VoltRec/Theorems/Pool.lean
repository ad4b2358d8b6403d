import VoltRec.Pool

/-! The ready count of a pool. `NReady` and the orders are guarded by two mutexes, so they agree only up to
    the thread that is publishing and the threads that have claimed a slot and not yet taken it. -/

namespace VoltRec

variable {T : Type}

/-! ### Searching the slots -/

/-- The scan keeps what it started with, or stops at the first place with the lowest positive order. -/
theorem findLowestFrom_cases (no : List Int) (k : Nat) (lowVal : Int) (retVal : Option Nat) :
    (findLowestFrom no k lowVal retVal = retVal ∧ ∀ o ∈ no, 0 < o → lowVal ≤ o) ∨
    ∃ j o, findLowestFrom no k lowVal retVal = some (k + j) ∧ no[j]? = some o ∧ 0 < o ∧ o < lowVal ∧
      (∀ o' ∈ no, 0 < o' → o ≤ o') ∧ ∀ i < j, no[i]? ≠ some o := by
  induction no generalizing k lowVal retVal with
  | nil => exact Or.inl ⟨rfl, by simp⟩
  | cons o no ih =>
    -- The scan of the rest goes on with the head as its lowest order, or without it.
    have hcons : ∀ {i j : Nat} {o' : Int}, o ≠ o' → (∀ i < j, no[i]? ≠ some o') → i < j + 1 →
        (o :: no)[i]? ≠ some o' := by
      intro i j o' hne hfirst hi
      cases i with
      | zero => exact fun h => hne (Option.some.inj h)
      | succ i => exact hfirst i (by omega)
    unfold findLowestFrom
    split
    · rename_i ho
      rcases ih (k + 1) o (some k) with ⟨h, hmin⟩ | ⟨j, o', h, hj, hpos, hlt, hmin, hfirst⟩
      · refine Or.inr ⟨0, o, h, rfl, ho.2, ho.1, fun o' ho' hpos => ?_, fun i hi => absurd hi (Nat.not_lt_zero i)⟩
        rcases List.mem_cons.mp ho' with rfl | ho'
        · exact Int.le_refl _
        · exact hmin o' ho' hpos
      · refine Or.inr ⟨j + 1, o', h.trans (congrArg some (by omega)), hj, hpos, by omega, fun o'' ho'' hpos' => ?_,
          fun i => hcons (by omega) hfirst⟩
        rcases List.mem_cons.mp ho'' with rfl | ho''
        · omega
        · exact hmin o'' ho'' hpos'
    · rename_i ho
      rcases ih (k + 1) lowVal retVal with ⟨h, hmin⟩ | ⟨j, o', h, hj, hpos, hlt, hmin, hfirst⟩
      · refine Or.inl ⟨h, fun o' ho' hpos => ?_⟩
        rcases List.mem_cons.mp ho' with rfl | ho'
        · omega
        · exact hmin o' ho' hpos
      · refine Or.inr ⟨j + 1, o', h.trans (congrArg some (by omega)), hj, hpos, hlt, fun o'' ho'' hpos' => ?_,
          fun i => hcons (by rintro rfl; exact ho ⟨hlt, hpos⟩) hfirst⟩
        rcases List.mem_cons.mp ho'' with rfl | ho''
        · omega
        · exact hmin o'' ho'' hpos'

theorem findLowest_cases (no : List Int) :
    (findLowest no = none ∧ ∀ o ∈ no, 0 < o → (intMax : Int) ≤ o) ∨
    ∃ j o, findLowest no = some j ∧ no[j]? = some o ∧ 0 < o ∧ o < intMax ∧ (∀ o' ∈ no, 0 < o' → o ≤ o') ∧
      ∀ i < j, no[i]? ≠ some o := by
  rcases findLowestFrom_cases no 0 intMax none with h | ⟨j, o, h, hj⟩
  · exact Or.inl h
  · exact Or.inr ⟨j, o, h.trans (by rw [Nat.zero_add]), hj⟩

theorem findLowest_eq_none (no : List Int) : findLowest no = none ↔ ∀ o ∈ no, 0 < o → (intMax : Int) ≤ o := by
  rcases findLowest_cases no with ⟨hnone, hmin⟩ | ⟨j, o, hj, hget, hpos, hlt, -, -⟩
  · exact iff_of_true hnone hmin
  · refine iff_of_false (by simp [hj]) fun h => ?_
    exact absurd (h o (List.mem_of_getElem? hget) hpos) (Int.not_le.mpr hlt)

theorem findLowest_eq_some {no : List Int} {index : Nat} (h : findLowest no = some index) :
    ∃ o, no[index]? = some o ∧ 0 < o ∧ o < intMax ∧ (∀ o' ∈ no, 0 < o' → o ≤ o') ∧ ∀ i < index, no[i]? ≠ some o := by
  rcases findLowest_cases no with ⟨hnone, -⟩ | ⟨j, o, hj, hget⟩
  · rw [hnone] at h
    cases h
  · obtain rfl := Option.some.inj (hj.symm.trans h)
    exact ⟨o, hget⟩

theorem findEmpty_spec {no : List Int} {index : Nat} (h : findEmpty no = some index) : no[index]? = some 0 := by
  obtain ⟨hlt, h0, -⟩ := List.findIdx?_eq_some_iff_getElem.mp h
  rw [List.getElem?_eq_getElem hlt]
  simpa using h0

/-! ### The calls, by what they do to one slot -/

namespace UdpBuff

variable {s s' : UdpBuff} {index dataLen : Nat} {order : Int}

theorem fetchEmptyBuffer_spec (h : s.fetchEmptyBuffer = some (s', index)) :
    s.orderNo[index]? = some 0 ∧ s' = { s with orderNo := s.orderNo.set index (-1) } := by
  simp only [fetchEmptyBuffer, Option.map_eq_some_iff] at h
  obtain ⟨i, hi, heq⟩ := h
  obtain ⟨rfl, rfl⟩ := Prod.mk.inj heq
  exact ⟨findEmpty_spec hi, rfl⟩

theorem returnBufferData_spec (h : s.returnBufferData index order dataLen = some s') :
    s.orderNo[index]? = some (-1) ∧
      s' = { s with orderNo := s.orderNo.set index order, dataLen := Function.update s.dataLen index dataLen } := by
  unfold returnBufferData at h
  split at h
  · exact ⟨‹_›, (Option.some.inj h).symm⟩
  · cases h

theorem returnEmptyBuffer_spec (h : s.returnEmptyBuffer index = some s') :
    s.orderNo[index]? = some (-1) ∧ s' = { s with orderNo := s.orderNo.set index 0 } := by
  unfold returnEmptyBuffer at h
  split at h
  · exact ⟨‹_›, (Option.some.inj h).symm⟩
  · cases h

theorem fetchBufferWait_spec (h : s.fetchBufferWait = some s') :
    0 < s.nReady ∧ s' = { s with nReady := s.nReady - 1 } := by
  unfold fetchBufferWait at h
  split at h
  · exact ⟨‹_›, (Option.some.inj h).symm⟩
  · cases h

theorem fetchBufferTake_spec (h : s.fetchBufferTake = some (s', index, order, dataLen)) :
    s.orderNo[index]? = some order ∧ 0 < order ∧ (∀ o ∈ s.orderNo, 0 < o → order ≤ o) ∧ dataLen = s.dataLen index ∧
      s' = { s with orderNo := s.orderNo.set index (-1) } := by
  simp only [fetchBufferTake, Option.map_eq_some_iff, Prod.mk.injEq] at h
  obtain ⟨i, hi, rfl, rfl, rfl, rfl⟩ := h
  obtain ⟨o, hget, hpos, -, hmin, -⟩ := findLowest_eq_some hi
  have : s.orderNo.getD i 0 = o := by simp [List.getD_eq_getElem?_getD, hget]
  rw [this]
  exact ⟨hget, hpos, hmin, rfl, rfl⟩

theorem fetchBufferTake_lt (h : s.fetchBufferTake = some (s', index, order, dataLen)) : order < intMax := by
  simp only [fetchBufferTake, Option.map_eq_some_iff, Prod.mk.injEq] at h
  obtain ⟨i, hi, rfl, rfl, rfl, rfl⟩ := h
  obtain ⟨o, hget, -, hlt, -⟩ := findLowest_eq_some hi
  simpa [List.getD_eq_getElem?_getD, hget] using hlt

theorem fetchBufferTake_eq_none : s.fetchBufferTake = none ↔ findLowest s.orderNo = none := by
  rw [fetchBufferTake, Option.map_eq_none_iff]

theorem fetchBufferTake_isSome {o : Int} (ho : o ∈ s.orderNo) (hpos : 0 < o) (hlt : o < intMax) :
    s.fetchBufferTake ≠ none := by
  rw [ne_eq, fetchBufferTake_eq_none, findLowest_eq_none]
  exact fun h => absurd (h o ho hpos) (Int.not_le.mpr hlt)

end UdpBuff

theorem Pool.Exec.anyBufFull_spec [DecidableEq T] {s s' : Pool T} {t : T} {n : Nat}
    (h : s.Exec (.anyBufFull t n) s') : s.Idle t ∧ n = s.buff.nReady ∧ s' = s := by
  generalize ha : Act.anyBufFull t n = a at h
  cases h with
  | anyBufFull idle =>
    cases ha
    exact ⟨idle, rfl, rfl⟩
  | _ => cases ha

theorem Pool.Exec.returnBufferData_spec [DecidableEq T] {s s' : Pool T} {t : T} {index dataLen : Nat} {order : Int}
    {data : Nat → UInt8} (h : s.Exec (.returnBufferData t index order dataLen data) s') :
    s'.buff.orderNo[index]? = some order := by
  generalize ha : Act.returnBufferData t index order dataLen data = a at h
  cases h with
  | returnBufferData _ _ hf =>
    cases ha
    obtain ⟨h1, rfl⟩ := UdpBuff.returnBufferData_spec hf
    exact List.getElem?_set_self (List.getElem?_eq_some_iff.mp h1).1
  | _ => cases ha

theorem Pool.Exec.fetchBufferTake_spec [DecidableEq T] {s s' : Pool T} {t : T} {index dataLen : Nat} {order : Int}
    {data : Nat → UInt8} (h : s.Exec (.fetchBufferTake t index order dataLen data) s') :
    s.buff.orderNo[index]? = some order ∧ order < intMax ∧ s'.buff.orderNo = s.buff.orderNo.set index (-1) := by
  generalize ha : Act.fetchBufferTake t index order dataLen data = a at h
  cases h with
  | fetchBufferTake _ _ hf =>
    cases ha
    obtain ⟨hget, -, -, -, rfl⟩ := UdpBuff.fetchBufferTake_spec hf
    exact ⟨hget, UdpBuff.fetchBufferTake_lt hf, rfl⟩
  | _ => cases ha

/-- The slot that an action marks, with its mark before and after. -/
def Act.mark : Act T → Option (Nat × Int × Int)
  | .fetchEmptyBuffer _ index => some (index, 0, -1)
  | .returnBufferData _ index order _ _ => some (index, -1, order)
  | .returnEmptyBuffer _ index => some (index, -1, 0)
  | .fetchBufferTake _ index order _ _ => some (index, order, -1)
  | _ => none

/-- All that an action can do to the marks. -/
theorem Pool.Exec.mark_cases [DecidableEq T] {s s' : Pool T} {a : Act T} (h : s.Exec a s') :
    (a.mark = none ∧ s'.buff.orderNo = s.buff.orderNo) ∨
    ∃ index old new, a.mark = some (index, old, new) ∧ s.buff.orderNo[index]? = some old ∧
      s'.buff.orderNo = s.buff.orderNo.set index new := by
  cases h with
  | fetchEmptyBuffer _ _ hf =>
    obtain ⟨h0, rfl⟩ := UdpBuff.fetchEmptyBuffer_spec hf
    exact Or.inr ⟨_, _, _, rfl, h0, rfl⟩
  | returnBufferData _ _ hf =>
    obtain ⟨h1, rfl⟩ := UdpBuff.returnBufferData_spec hf
    exact Or.inr ⟨_, _, _, rfl, h1, rfl⟩
  | returnEmptyBuffer _ _ hf =>
    obtain ⟨h1, rfl⟩ := UdpBuff.returnEmptyBuffer_spec hf
    exact Or.inr ⟨_, _, _, rfl, h1, rfl⟩
  | fetchBufferTake _ _ hf =>
    obtain ⟨hget, -, -, -, rfl⟩ := UdpBuff.fetchBufferTake_spec hf
    exact Or.inr ⟨_, _, _, rfl, hget, rfl⟩
  | fetchBufferWait _ hf =>
    obtain ⟨-, rfl⟩ := UdpBuff.fetchBufferWait_spec hf
    exact Or.inl ⟨rfl, rfl⟩
  | noEmpty | returnBufferReady | dataIntegrity | fetchBufferShut | takeNone | anyBufFull | write =>
    exact Or.inl ⟨rfl, rfl⟩

/-! ### What an action changes -/

section Exec
variable [DecidableEq T] {p p' : Pool T} {a : Act T} {i : Nat}

/-- Only a write changes a buffer. -/
theorem Pool.Exec.data_cases (he : p.Exec a p') (i : Nat) :
    p'.buff.data i = p.buff.data i ∨ ∃ t x v, a = .write t i x v := by
  cases he with
  | @write t index x v =>
    by_cases hi : i = index
    · exact Or.inr ⟨t, x, v, by rw [hi]⟩
    · exact Or.inl (Function.update_of_ne hi ..)
  | fetchEmptyBuffer _ _ hf =>
    obtain ⟨-, rfl⟩ := UdpBuff.fetchEmptyBuffer_spec hf
    exact Or.inl rfl
  | returnBufferData _ _ hf =>
    obtain ⟨-, rfl⟩ := UdpBuff.returnBufferData_spec hf
    exact Or.inl rfl
  | returnEmptyBuffer _ _ hf =>
    obtain ⟨-, rfl⟩ := UdpBuff.returnEmptyBuffer_spec hf
    exact Or.inl rfl
  | fetchBufferWait _ hf =>
    obtain ⟨-, rfl⟩ := UdpBuff.fetchBufferWait_spec hf
    exact Or.inl rfl
  | fetchBufferTake _ _ hf =>
    obtain ⟨-, -, -, -, rfl⟩ := UdpBuff.fetchBufferTake_spec hf
    exact Or.inl rfl
  | noEmpty | returnBufferReady | dataIntegrity | fetchBufferShut | takeNone | anyBufFull => exact Or.inl rfl

/-- Only `returnBuffer` changes a length. -/
theorem Pool.Exec.dataLen_cases (he : p.Exec a p') (i : Nat) :
    p'.buff.dataLen i = p.buff.dataLen i ∨
      ∃ t order, a = .returnBufferData t i order (p'.buff.dataLen i) (p'.buff.data i) := by
  cases he with
  | @returnBufferData t _ index n order _ _ hf =>
    obtain ⟨-, rfl⟩ := UdpBuff.returnBufferData_spec hf
    by_cases hi : i = index
    · subst hi
      exact Or.inr ⟨t, order, by simp⟩
    · exact Or.inl (Function.update_of_ne hi ..)
  | fetchEmptyBuffer _ _ hf =>
    obtain ⟨-, rfl⟩ := UdpBuff.fetchEmptyBuffer_spec hf
    exact Or.inl rfl
  | returnEmptyBuffer _ _ hf =>
    obtain ⟨-, rfl⟩ := UdpBuff.returnEmptyBuffer_spec hf
    exact Or.inl rfl
  | fetchBufferWait _ hf =>
    obtain ⟨-, rfl⟩ := UdpBuff.fetchBufferWait_spec hf
    exact Or.inl rfl
  | fetchBufferTake _ _ hf =>
    obtain ⟨-, -, -, -, rfl⟩ := UdpBuff.fetchBufferTake_spec hf
    exact Or.inl rfl
  | noEmpty | returnBufferReady | dataIntegrity | fetchBufferShut | takeNone | anyBufFull | write => exact Or.inl rfl

/-- A published slot was published before, or it is now. -/
theorem Pool.Exec.ready_cases (he : p.Exec a p') {o : Int} (hpos : 0 < o) (hi : p'.buff.orderNo[i]? = some o) :
    (p.buff.orderNo[i]? = some o ∧ p'.buff.dataLen i = p.buff.dataLen i) ∨
      ∃ t, a = .returnBufferData t i o (p'.buff.dataLen i) (p'.buff.data i) := by
  have hpub : ∀ {t index order n d}, a = .returnBufferData t index order n d → index = i →
      ∃ t, a = .returnBufferData t i o (p'.buff.dataLen i) (p'.buff.data i) := by
    rintro t index order n d rfl rfl
    have hget := he.returnBufferData_spec
    obtain rfl := Option.some.inj (hget.symm.trans hi)
    refine ⟨t, ?_⟩
    cases he with
    | returnBufferData _ _ hf =>
      obtain ⟨-, rfl⟩ := UdpBuff.returnBufferData_spec hf
      simp
  rcases he.dataLen_cases i with hlen | ⟨t, order, ha⟩
  · rcases he.mark_cases with ⟨-, hsame⟩ | ⟨index, old, new, hmark, -, hset⟩
    · exact Or.inl ⟨hsame ▸ hi, hlen⟩
    · by_cases hindex : index = i
      · subst hindex
        have hlt : index < p.buff.orderNo.length := by
          have := (List.getElem?_eq_some_iff.mp hi).1
          rwa [hset, List.length_set] at this
        rw [hset, List.getElem?_set_self hlt] at hi
        obtain rfl := Option.some.inj hi
        cases a with
        | returnBufferData t =>
          cases hmark
          exact Or.inr (hpub rfl rfl)
        | fetchEmptyBuffer | returnEmptyBuffer | fetchBufferTake =>
          cases hmark
          exact absurd hpos (by decide)
        | _ => cases hmark
      · rw [hset, List.getElem?_set_ne hindex] at hi
        exact Or.inl ⟨hi, hlen⟩
  · exact Or.inr (hpub ha rfl)

/-- What a fetch finds in the slot. -/
theorem Pool.Exec.fetched_spec {t : T} {n : Nat} {o : Int} {d : Nat → UInt8}
    (he : p.Exec (.fetchBufferTake t i o n d) p') :
    p.buff.orderNo[i]? = some o ∧ 0 < o ∧ n = p.buff.dataLen i ∧ d = p.buff.data i ∧ p'.buff.data = p.buff.data := by
  cases he with
  | fetchBufferTake _ _ hf =>
    obtain ⟨hget, hpos, -, hlen, rfl⟩ := UdpBuff.fetchBufferTake_spec hf
    exact ⟨hget, hpos, hlen, rfl, rfl⟩

end Exec

/-! ### The ready count -/

/-- The number of published slots. -/
def readySlots (no : List Int) : Nat := no.countP (0 < ·)

theorem readySlots_set {no : List Int} {index : Nat} {o : Int} (h : no[index]? = some o) (o' : Int) :
    readySlots (no.set index o') + (if 0 < o then 1 else 0) = readySlots no + if 0 < o' then 1 else 0 := by
  obtain ⟨hlt, rfl⟩ := List.getElem?_eq_some_iff.mp h
  have hle : (if 0 < no[index] then 1 else 0) ≤ readySlots no := by
    split
    · exact List.countP_pos_iff.mpr ⟨_, List.getElem_mem hlt, decide_eq_true ‹_›⟩
    · exact Nat.zero_le _
  simp only [readySlots, List.countP_set hlt, decide_eq_true_eq] at hle ⊢
  omega

/-- A slot that a thread holds is marked as in use. -/
def Marked (s : Owned T) : Prop := ∀ index t, s.holder index = some t → s.pool.buff.orderNo[index]? = some (-1)

theorem Marked.unheld {s : Owned T} (h : Marked s) {index : Nat} {o : Int} (hi : s.pool.buff.orderNo[index]? = some o)
    (ho : o ≠ -1) : s.holder index = none := by
  cases hh : s.holder index with
  | none => rfl
  | some t => exact absurd (Option.some.inj (hi.symm.trans (h index t hh))) ho

/-- Marking a slot as in use keeps the others held, and gives the slot to `t`. -/
theorem marked_take {no : List Int} {holder : Nat → Option T} {index : Nat} {o : Int} {t : T}
    (h : no[index]? = some o)
    (hheld : ∀ i t, holder i = some t → no[i]? = some (-1)) :
    ∀ i u, Function.update holder index (some t) i = some u → (no.set index (-1))[i]? = some (-1) := by
  intro i u hi
  obtain ⟨hlt, -⟩ := List.getElem?_eq_some_iff.mp h
  by_cases hii : index = i
  · subst hii
    simp [hlt]
  · rw [Function.update_of_ne (Ne.symm hii)] at hi
    rw [List.getElem?_set_ne hii]
    exact hheld i u hi

/-- Giving a slot back with another mark keeps the others held. -/
theorem marked_give {no : List Int} {holder : Nat → Option T} {index : Nat} (o : Int)
    (hheld : ∀ i t, holder i = some t → no[i]? = some (-1)) :
    ∀ i u, Function.update holder index none i = some u → (no.set index o)[i]? = some (-1) := by
  intro i u hi
  by_cases hii : index = i
  · subst hii
    simp at hi
  · rw [Function.update_of_ne (Ne.symm hii)] at hi
    rw [List.getElem?_set_ne hii]
    exact hheld i u hi

theorem Marked.step [DecidableEq T] {s s' : Owned T} {a : Act T} (h : Marked s) (hs : s.Step a s') : Marked s' := by
  obtain ⟨p', holder'⟩ := s'
  obtain ⟨he, -, rfl⟩ := hs
  cases he with
  | fetchEmptyBuffer idle free hf =>
    obtain ⟨h0, rfl⟩ := UdpBuff.fetchEmptyBuffer_spec hf
    exact marked_take h0 h
  | returnBufferData idle free hf =>
    obtain ⟨-, rfl⟩ := UdpBuff.returnBufferData_spec hf
    exact marked_give _ h
  | returnEmptyBuffer idle free hf =>
    obtain ⟨-, rfl⟩ := UdpBuff.returnEmptyBuffer_spec hf
    exact marked_give _ h
  | fetchBufferTake past free hf =>
    obtain ⟨hget, -, -, -, rfl⟩ := UdpBuff.fetchBufferTake_spec hf
    exact marked_take hget h
  | fetchBufferWait idle hf =>
    obtain ⟨-, rfl⟩ := UdpBuff.fetchBufferWait_spec hf
    exact h
  | noEmpty | returnBufferReady | dataIntegrity | fetchBufferShut | takeNone | anyBufFull | write => exact h

/-- `NReady`, the claims and the call between its two updates account for all published slots. -/
structure Counted (s : Owned T) : Prop where
  count : s.pool.buff.nReady + s.pool.claimed.card + (if s.pool.publishing = none then 0 else 1) =
    readySlots s.pool.buff.orderNo
  marked : Marked s
  bounded : ∀ o ∈ s.pool.buff.orderNo, o < intMax

theorem counted_init (n : Nat) (data : Nat → Nat → UInt8) (dataLen : Nat → Nat) :
    Counted (.init n data dataLen : Owned T) where
  count := by simp [Owned.init, Pool.init, initUdpBuff, readySlots, List.countP_replicate]
  marked index t h := by simp [Owned.init] at h
  bounded o ho := by
    obtain rfl := List.eq_of_mem_replicate ho
    decide

theorem bounded_set {no : List Int} (index : Nat) {o : Int} (h : ∀ o ∈ no, o < intMax) (ho : o < intMax) :
    ∀ o' ∈ no.set index o, o' < intMax := by
  intro o' ho'
  rcases List.mem_or_eq_of_mem_set ho' with h' | rfl
  · exact h o' h'
  · exact ho

/-- No order that a slot gets is out of reach of the search. -/
theorem Pool.Exec.bounded [DecidableEq T] {s s' : Pool T} {a : Act T} (he : s.Exec a s') (hb : a.Bounded)
    (h : ∀ o ∈ s.buff.orderNo, o < intMax) : ∀ o ∈ s'.buff.orderNo, o < intMax := by
  have hmin : (-1 : Int) < intMax := by decide
  cases he with
  | fetchEmptyBuffer idle free hf =>
    obtain ⟨-, rfl⟩ := UdpBuff.fetchEmptyBuffer_spec hf
    exact bounded_set _ h hmin
  | returnBufferData idle free hf =>
    obtain ⟨-, rfl⟩ := UdpBuff.returnBufferData_spec hf
    exact bounded_set _ h hb.2
  | returnEmptyBuffer idle free hf =>
    obtain ⟨-, rfl⟩ := UdpBuff.returnEmptyBuffer_spec hf
    exact bounded_set _ h (by decide)
  | fetchBufferWait idle hf =>
    obtain ⟨-, rfl⟩ := UdpBuff.fetchBufferWait_spec hf
    exact h
  | fetchBufferTake past free hf =>
    obtain ⟨-, -, -, -, rfl⟩ := UdpBuff.fetchBufferTake_spec hf
    exact bounded_set _ h hmin
  | noEmpty | returnBufferReady | dataIntegrity | fetchBufferShut | takeNone | anyBufFull | write => exact h

/-- A claim stands for a published slot, which the search then finds. -/
theorem Counted.take {s : Owned T} (h : Counted s) {t : T} (ht : t ∈ s.pool.claimed)
    (free : s.pool.publishing = none) :
    s.pool.buff.fetchBufferTake ≠ none := by
  have hpos : 0 < s.pool.claimed.card := Finset.card_pos.mpr ⟨t, ht⟩
  have hcount := h.count
  rw [if_pos free] at hcount
  obtain ⟨o, ho, hopos⟩ := List.countP_pos_iff.mp (show 0 < readySlots s.pool.buff.orderNo by omega)
  exact UdpBuff.fetchBufferTake_isSome ho (of_decide_eq_true hopos) (h.bounded o ho)

theorem Counted.step [DecidableEq T] {s s' : Owned T} {a : Act T} (h : Counted s) (hs : s.Step a s')
    (hb : a.Bounded) :
    Counted s' := by
  have hmarked := h.marked.step hs
  obtain ⟨p', holder'⟩ := s'
  obtain ⟨he, -, rfl⟩ := hs
  refine ⟨?_, hmarked, he.bounded hb h.bounded⟩
  have hcount := h.count
  cases he with
  | fetchEmptyBuffer idle free hf =>
    obtain ⟨h0, rfl⟩ := UdpBuff.fetchEmptyBuffer_spec hf
    have hset := readySlots_set h0 (-1)
    rw [if_neg (by decide), if_neg (by decide)] at hset
    simp only
    omega
  | @returnBufferData _ _ _ _ order idle free hf =>
    obtain ⟨h1, rfl⟩ := UdpBuff.returnBufferData_spec hf
    have hset := readySlots_set h1 order
    rw [if_neg (by decide), if_pos hb.1] at hset
    rw [if_pos free] at hcount
    rw [if_neg (Option.some_ne_none _)]
    simp only
    omega
  | returnBufferReady hf =>
    rw [hf, if_neg (Option.some_ne_none _)] at hcount
    rw [if_pos rfl]
    simp only [UdpBuff.returnBufferReady]
    omega
  | returnEmptyBuffer idle free hf =>
    obtain ⟨h1, rfl⟩ := UdpBuff.returnEmptyBuffer_spec hf
    have hset := readySlots_set h1 0
    rw [if_neg (by decide), if_neg (by decide)] at hset
    simp only
    omega
  | fetchBufferWait idle hf =>
    obtain ⟨hpos, rfl⟩ := UdpBuff.fetchBufferWait_spec hf
    simp only [Finset.card_insert_of_notMem idle.2]
    omega
  | fetchBufferTake past free hf =>
    obtain ⟨hget, hpos, -, -, rfl⟩ := UdpBuff.fetchBufferTake_spec hf
    have hset := readySlots_set hget (-1)
    rw [if_pos hpos, if_neg (by decide)] at hset
    have hcard := Finset.card_erase_add_one past
    simp only
    omega
  | takeNone past free hf => exact absurd hf (h.take past free)
  | noEmpty | dataIntegrity | fetchBufferShut | anyBufFull | write => exact h.count

/-! ### What is published and what is fetched -/

/-- What is published in a slot and not yet fetched. -/
def readyIn (s : UdpBuff) (index : Nat) : List (Int × Nat × (Nat → UInt8)) :=
  match s.orderNo[index]? with
  | some order => if 0 < order then [(order, s.dataLen index, s.data index)] else []
  | none => []

theorem readyIn_of_not_pos {s : UdpBuff} {index : Nat} {o : Int} (h : s.orderNo[index]? = some o) (ho : ¬0 < o) :
    readyIn s index = [] := by
  simp [readyIn, h, ho]

theorem readyIn_of_pos {s : UdpBuff} {index : Nat} {o : Int} (h : s.orderNo[index]? = some o) (ho : 0 < o) :
    readyIn s index = [(o, s.dataLen index, s.data index)] := by
  simp [readyIn, h, ho]

theorem readyIn_set {s : UdpBuff} {index : Nat} {o : Int} (h : s.orderNo[index]? = some o) (o' : Int) (n : Nat) :
    readyIn { s with orderNo := s.orderNo.set index o', dataLen := Function.update s.dataLen index n } index =
        (if 0 < o' then [(o', n, s.data index)] else []) ∧
      ∀ i, i ≠ index →
        readyIn { s with orderNo := s.orderNo.set index o', dataLen := Function.update s.dataLen index n } i =
          readyIn s i := by
  obtain ⟨hlt, -⟩ := List.getElem?_eq_some_iff.mp h
  refine ⟨by simp [readyIn, hlt], fun i hi => ?_⟩
  simp [readyIn, List.getElem?_set_ne (Ne.symm hi), Function.update_of_ne hi]

/-- A slot that is not published is marked anew. -/
theorem readyIn_mark {s : UdpBuff} {index : Nat} {o o' : Int} (h : s.orderNo[index]? = some o) (ho : ¬0 < o)
    (ho' : ¬0 < o')
    (i : Nat) : readyIn { s with orderNo := s.orderNo.set index o' } i = readyIn s i := by
  obtain ⟨h1, h2⟩ := readyIn_set h o' (s.dataLen index)
  rw [Function.update_eq_self] at h1 h2
  by_cases hi : i = index
  · rw [hi, h1, if_neg ho', readyIn_of_not_pos h ho]
  · exact h2 i hi

/-- Each slot has been fetched as often as it was published, in turn and with what was published, but for
    what is still ready. -/
def Delivered (tr : List (Act T)) (s : UdpBuff) : Prop :=
  ∀ index, tr.filterMap (Act.published index) = tr.filterMap (Act.taken index) ++ readyIn s index

theorem delivered_append {tr : List (Act T)} {s s' : UdpBuff} {a : Act T} (h : Delivered tr s)
    (ha : ∀ index, readyIn s index ++ (Act.published index a).toList =
      (Act.taken index a).toList ++ readyIn s' index) :
    Delivered (tr ++ [a]) s' := by
  intro index
  have hone : ∀ f : Act T → Option (Int × Nat × (Nat → UInt8)), [a].filterMap f = (f a).toList := by
    intro f
    cases hf : f a <;> simp [hf]
  rw [List.filterMap_append, List.filterMap_append, h index, hone, hone, List.append_assoc, List.append_assoc,
    ha index]

theorem Delivered.step [DecidableEq T] {tr : List (Act T)} {s s' : Owned T} {a : Act T} (h : Delivered tr s.pool.buff)
    (hc : Counted s) (hs : s.Step a s') (hb : a.Bounded) : Delivered (tr ++ [a]) s'.pool.buff := by
  obtain ⟨p', holder'⟩ := s'
  obtain ⟨he, hheld, rfl⟩ := hs
  refine delivered_append h fun i => ?_
  -- Only publishing and fetching change what a slot has ready.
  cases he with
  | fetchEmptyBuffer idle free hf =>
    obtain ⟨h0, rfl⟩ := UdpBuff.fetchEmptyBuffer_spec hf
    simp [Act.published, Act.taken, readyIn_mark h0 (by decide : ¬(0 : Int) < 0) (by decide : ¬(0 : Int) < -1)]
  | noEmpty => simp [Act.published, Act.taken]
  | @returnBufferData _ _ index n order idle free hf =>
    obtain ⟨h1, rfl⟩ := UdpBuff.returnBufferData_spec hf
    obtain ⟨hself, hother⟩ := readyIn_set h1 order n
    by_cases hi : i = index
    · subst hi
      simp [hself, readyIn_of_not_pos h1, hb.1, Act.published, Act.taken]
    · simp [hother i hi, Ne.symm hi, Act.published, Act.taken]
  | returnBufferReady hf => simp [Act.published, Act.taken, UdpBuff.returnBufferReady, readyIn]
  | returnEmptyBuffer idle free hf =>
    obtain ⟨h1, rfl⟩ := UdpBuff.returnEmptyBuffer_spec hf
    simp [Act.published, Act.taken, readyIn_mark h1 (by decide : ¬(0 : Int) < -1) (by decide : ¬(0 : Int) < 0)]
  | dataIntegrity => simp [Act.published, Act.taken]
  | fetchBufferWait idle hf =>
    obtain ⟨-, rfl⟩ := UdpBuff.fetchBufferWait_spec hf
    simp [Act.published, Act.taken, readyIn]
  | fetchBufferShut => simp [Act.published, Act.taken]
  | @fetchBufferTake _ _ index _ order past free hf =>
    obtain ⟨hget, hpos, -, rfl, rfl⟩ := UdpBuff.fetchBufferTake_spec hf
    obtain ⟨hself, hother⟩ := readyIn_set hget (-1) (s.pool.buff.dataLen index)
    rw [Function.update_eq_self] at hself hother
    by_cases hi : i = index
    · subst hi
      simp [hself, readyIn_of_pos hget hpos, Act.published, Act.taken]
    · simp [hother i hi, Ne.symm hi, Act.published, Act.taken]
  | takeNone past free hf => simp [Act.published, Act.taken]
  | anyBufFull => simp [Act.published, Act.taken]
  | @write _ index _ _ idle =>
    -- The thread holds the slot that it writes to, so nothing is ready there.
    have h1 := hc.marked index _ hheld
    by_cases hi : i = index
    · subst hi
      simp [readyIn, h1, Act.published, Act.taken]
    · simp [readyIn, Function.update_of_ne hi, Act.published, Act.taken]

/-! ### Runs -/

/-- The outcomes of a call that no thread should see. -/
def Act.Failed : Act T → Prop
  | .dataIntegrity _ _ => True
  | .takeNone _ => True
  | _ => False

theorem Counted.not_failed [DecidableEq T] {s s' : Owned T} {a : Act T} (h : Counted s)
    (hs : s.Step a s') : ¬a.Failed := by
  obtain ⟨p', holder'⟩ := s'
  obtain ⟨he, hheld, rfl⟩ := hs
  intro hfail
  cases he with
  | dataIntegrity _ _ hf => simp [UdpBuff.returnEmptyBuffer, h.marked _ _ hheld] at hf
  | takeNone past free hf => exact h.take past free hf
  | _ => exact hfail

section Runs
variable [DecidableEq T] {n : Nat} {data : Nat → Nat → UInt8} {dataLen : Nat → Nat} {tr : List (Act T)} {s : Owned T}

theorem Counted.run (hr : Lts.Run Owned.Step (.init n data dataLen) tr s) (hb : ∀ a ∈ tr, a.Bounded) :
    Counted s ∧ Delivered tr s.pool.buff ∧ ∀ a ∈ tr, ¬a.Failed := by
  refine hr.invariant (I := fun tr s => (∀ a ∈ tr, a.Bounded) →
    Counted s ∧ Delivered tr s.pool.buff ∧ ∀ a ∈ tr, ¬a.Failed)
    (fun _ => ⟨counted_init n data dataLen, fun index => ?_, by simp⟩) (fun tr s a s' _ ih hs hb => ?_) hb
  · by_cases hi : index < n <;> simp [Owned.init, Pool.init, initUdpBuff, readyIn, hi]
  · obtain ⟨hc, hd, hf⟩ := ih fun b hb' => hb b (List.mem_append_left _ hb')
    have hba := hb a (by simp)
    refine ⟨hc.step hs hba, hd.step hc hs hba, fun b hb' => ?_⟩
    rcases List.mem_append.mp hb' with hb' | hb'
    · exact hf b hb'
    · obtain rfl := List.mem_singleton.mp hb'
      exact hc.not_failed hs

/-- The ready count in every state of every interleaving. -/
theorem readyCount (hr : Lts.Run Owned.Step (.init n data dataLen) tr s) (hb : ∀ a ∈ tr, a.Bounded) :
    s.pool.buff.nReady + s.pool.claimed.card + (if s.pool.publishing = none then 0 else 1) =
        s.pool.buff.orderNo.countP (0 < ·) ∧
      (∀ t s', s.Step (.fetchBufferWait t) s' → s.pool.buff.nReady = s'.pool.buff.nReady + 1) ∧
      (∀ t ∈ s.pool.claimed, s.pool.publishing = none → s.pool.buff.fetchBufferTake ≠ none) ∧
      (∀ a ∈ tr, ¬a.Failed) ∧
      ∀ index, tr.filterMap (Act.published index) = tr.filterMap (Act.taken index) ++ readyIn s.pool.buff index := by
  obtain ⟨hc, hd, hf⟩ := Counted.run hr hb
  refine ⟨hc.count, fun t s' hs => ?_, fun t ht free => hc.take ht free, hf, hd⟩
  obtain ⟨p', holder'⟩ := s'
  obtain ⟨he, -⟩ := hs
  cases he with
  | fetchBufferWait idle hw =>
    obtain ⟨hpos, rfl⟩ := UdpBuff.fetchBufferWait_spec hw
    simp only
    omega

theorem calls_append (me : T) (tr : List (Act T)) (a : Act T) :
    (tr ++ [a]).filterMap (Act.call me) = tr.filterMap (Act.call me) ++ (a.call me).toList := by
  rw [List.filterMap_append]
  cases h : a.call me <;> simp [h]

/-- Thread `t` takes a slot that no thread holds, or gives back one that it holds itself. -/
theorem holder_update {holder : Nat → Option T} {me t : T} {i index : Nat} {new : Option T} {b : Bool}
    {calls calls' : List Call} (ih : holder index = some me ↔ heldAfter index calls = true)
    (hme : t = me → (heldAfter index calls' = if i = index then b else heldAfter index calls) ∧
      (new = some me ↔ b = true))
    (hother : t ≠ me → calls' = calls ∧ holder i ≠ some me ∧ new ≠ some me) :
    Function.update holder i new index = some me ↔ heldAfter index calls' = true := by
  by_cases htm : t = me
  · obtain ⟨hcalls, hnew⟩ := hme htm
    rw [hcalls]
    by_cases hi : i = index
    · rw [if_pos hi, ← hi, Function.update_self]
      exact hnew
    · rw [if_neg hi, Function.update_of_ne (Ne.symm hi)]
      exact ih
  · obtain ⟨rfl, hold, hnew⟩ := hother htm
    by_cases hi : i = index
    · subst hi
      rw [Function.update_self, ← ih]
      exact iff_of_false hnew hold
    · rw [Function.update_of_ne (Ne.symm hi)]
      exact ih

/-- What a thread holds is what its calls have taken and not given back. -/
theorem holder_eq (hr : Lts.Run Owned.Step (.init n data dataLen) tr s) (me : T) :
    Marked s ∧ ∀ index, s.holder index = some me ↔ heldAfter index (tr.filterMap (Act.call me)) = true := by
  refine hr.invariant (I := fun tr s => Marked s ∧
    ∀ index, s.holder index = some me ↔ heldAfter index (tr.filterMap (Act.call me)) = true)
    ⟨(counted_init n data dataLen).marked, fun index => by simp [Owned.init, heldAfter]⟩ ?_
  rintro tr s a ⟨p', holder'⟩ - ⟨hm, ih⟩ hs
  refine ⟨hm.step hs, fun index => ?_⟩
  obtain ⟨he, hheld, rfl⟩ := hs
  rw [calls_append]
  cases he with
  | @fetchEmptyBuffer t _ _ _ _ hf =>
    have hnone := hm.unheld (UdpBuff.fetchEmptyBuffer_spec hf).1 (by decide)
    exact holder_update (t := t) (b := true) (ih index) (fun htm => by simp [Act.call, htm, heldAfter])
      fun htm => by simp [Act.call, htm, hnone]
  | @fetchBufferTake t _ _ _ _ _ _ hf =>
    obtain ⟨hget, hpos, -⟩ := UdpBuff.fetchBufferTake_spec hf
    have hnone := hm.unheld hget (by omega)
    exact holder_update (t := t) (b := true) (ih index) (fun htm => by simp [Act.call, htm, heldAfter])
      fun htm => by simp [Act.call, htm, hnone]
  | @returnBufferData t _ i =>
    have hheld : s.holder i = some t := hheld
    exact holder_update (t := t) (b := false) (ih index) (fun htm => by simp [Act.call, htm, heldAfter])
      fun htm => by simp [Act.call, htm, hheld]
  | @returnEmptyBuffer t _ i =>
    have hheld : s.holder i = some t := hheld
    exact holder_update (t := t) (b := false) (ih index) (fun htm => by simp [Act.call, htm, heldAfter])
      fun htm => by simp [Act.call, htm, hheld]
  | _ => simpa [Act.call, Act.transfer] using ih index

/-- `fetchEmptyBuffer` gives a thread only slots that it does not hold. -/
theorem fetchEmptyBuffer_fresh (hr : Lts.Run Owned.Step (.init n data dataLen) tr s) (me : T) :
    ∀ pre index suf, tr.filterMap (Act.call me) = pre ++ .fetchEmptyBuffer index :: suf →
      heldAfter index pre = false := by
  refine hr.invariant (I := fun tr _ => ∀ pre index suf,
    tr.filterMap (Act.call me) = pre ++ .fetchEmptyBuffer index :: suf → heldAfter index pre = false)
    (fun pre index suf heq => by simp at heq) ?_
  rintro tr s a ⟨p', holder'⟩ hr ih hs pre index suf heq
  rw [calls_append] at heq
  rcases List.eq_nil_or_concat suf with rfl | ⟨suf, c, rfl⟩
  · cases hc : a.call me with
    | none =>
      rw [hc, Option.toList_none, List.append_nil] at heq
      exact ih pre index [] heq
    | some c =>
      rw [hc, Option.toList_some] at heq
      obtain ⟨hpre, hcc⟩ := List.append_inj' heq rfl
      obtain rfl := List.head_eq_of_cons_eq hcc
      obtain ⟨he, -⟩ := hs
      obtain ⟨hm, hiff⟩ := holder_eq hr me
      -- The pool gives an empty slot, and a slot that the thread holds is marked as in use.
      cases he with
      | fetchEmptyBuffer _ _ hf =>
        simp only [Act.call] at hc
        split at hc
        · cases hc
          have hnone := hm.unheld (UdpBuff.fetchEmptyBuffer_spec hf).1 (by decide)
          rw [← hpre, ← Bool.not_eq_true, ← hiff, hnone]
          exact fun h => nomatch h
        · cases hc
      | _ => simp [Act.call] at hc
  · cases hc : a.call me with
    | none =>
      rw [hc, Option.toList_none, List.append_nil] at heq
      exact ih pre index _ heq
    | some c' =>
      rw [hc, Option.toList_some] at heq
      have heq' : tr.filterMap (Act.call me) ++ [c'] = (pre ++ .fetchEmptyBuffer index :: suf) ++ [c] := by
        simpa using heq
      exact ih pre index suf (List.append_inj' heq' rfl).1

end Runs

theorem Owned.Step.of_exec [DecidableEq T] {s : Owned T} {a : Act T} {p : Pool T} (h : s.pool.Exec a p)
    (hh : a.Held s.holder) : s.Step a ⟨p, a.transfer s.holder⟩ := ⟨h, hh, rfl⟩

/-- A pool whose first `k` slots have been fetched empty. -/
def Pool.fetched (n : Nat) (data : Nat → Nat → UInt8) (dataLen : Nat → Nat) (k : Nat) : Pool T where
  buff :=
    { data := data, dataLen := dataLen, nReady := 0, orderNo := List.replicate k (-1) ++ List.replicate (n - k) 0 }
  publishing := none
  claimed := ∅

theorem Pool.fetched_zero (n : Nat) (data : Nat → Nat → UInt8) (dataLen : Nat → Nat) :
    (Pool.init n data dataLen : Pool T) = .fetched n data dataLen 0 := rfl

theorem Pool.idle_of_free {p : Pool T} {t : T} (free : p.publishing = none) (unclaimed : t ∉ p.claimed) : p.Idle t :=
  ⟨fun h => Option.some_ne_none t (h.symm.trans free), unclaimed⟩

theorem Pool.fetched_idle (n : Nat) (data : Nat → Nat → UInt8) (dataLen : Nat → Nat) (k : Nat) (t : T) :
    (Pool.fetched n data dataLen k).Idle t := ⟨nofun, Finset.notMem_empty t⟩

/-- The pool gives out its slots in turn. -/
theorem Pool.fetched_succ [DecidableEq T] {n k : Nat} (hk : k < n) (data : Nat → Nat → UInt8) (dataLen : Nat → Nat)
    (t : T) :
    (Pool.fetched n data dataLen k).Exec (.fetchEmptyBuffer t k) (.fetched n data dataLen (k + 1)) := by
  have hno : (List.replicate k (-1) ++ List.replicate (n - k) 0 : List Int) =
      List.replicate k (-1) ++ 0 :: List.replicate (n - (k + 1)) 0 := by
    rw [show n - k = n - (k + 1) + 1 by omega, List.replicate_succ]
  refine .fetchEmptyBuffer (fetched_idle n data dataLen k t) rfl ?_
  simp [fetched, UdpBuff.fetchEmptyBuffer, findEmpty, hno, List.findIdx?_append, List.findIdx?_cons, List.set_append,
    List.replicate_succ']

/-- One slot goes from one thread to the other. -/
def handOn : List (Act Bool) :=
  [.fetchEmptyBuffer true 0, .returnBufferData true 0 1 8 fun _ => 0, .returnBufferReady true, .fetchBufferWait false,
    .fetchBufferTake false 0 1 8 fun _ => 0]

theorem run_handOn : ∃ s, Lts.Run Owned.Step (.init 1 (fun _ _ => 0) fun _ => 0) handOn s := by
  refine ⟨_, .next (.next (.next (.next (.next .start (.of_exec (.fetchEmptyBuffer ⟨?_, ?_⟩ rfl rfl) trivial))
    (.of_exec (.returnBufferData ⟨?_, ?_⟩ rfl rfl) ?_)) (.of_exec (.returnBufferReady rfl) trivial))
    (.of_exec (.fetchBufferWait ⟨?_, ?_⟩ rfl) trivial)) (.of_exec (.fetchBufferTake ?_ rfl rfl) trivial)⟩
  all_goals simp [Owned.init, Pool.init, Act.Held, Act.transfer]

theorem readyCount_handOn : ∃ s : Owned Bool, s.pool.buff.nReady + s.pool.claimed.card +
    (if s.pool.publishing = none then 0 else 1) = s.pool.buff.orderNo.countP (0 < ·) ∧
      ∀ a ∈ handOn, ¬a.Failed := by
  obtain ⟨s, hr⟩ := run_handOn
  have h := readyCount hr (by simp [handOn, Act.Bounded]; decide)
  exact ⟨s, h.1, h.2.2.2.1⟩

end VoltRec
