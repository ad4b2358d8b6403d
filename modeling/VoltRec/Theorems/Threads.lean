import VoltRec.Threads
import VoltRec.Theorems.Pool
import Mathlib.Algebra.Order.BigOperators.Group.Finset

/-! Two threads that keep to the slots they have taken. Each thread is checked alone: where it stands fits
    the calls that it has made, and it gives back only a slot that these have taken. Together the two make a
    run of the pool with an owner for each slot, whatever the interleaving. -/

namespace VoltRec

variable {T ε P C : Type}

/-! ### Slots and owners -/

/-- `returnBuffer` marks the slot as published. -/
def Act.Positive : Act T → Prop
  | .returnBufferData _ _ order _ _ => 0 < order
  | _ => True

def Act.thread : Act T → T
  | .fetchEmptyBuffer t _ => t
  | .noEmpty t => t
  | .returnBufferData t _ _ _ _ => t
  | .returnBufferReady t => t
  | .returnEmptyBuffer t _ => t
  | .dataIntegrity t _ => t
  | .fetchBufferWait t => t
  | .fetchBufferShut t => t
  | .fetchBufferTake t _ _ _ _ => t
  | .takeNone t => t
  | .anyBufFull t _ => t
  | .write t _ _ _ => t

/-- The slot that a call is to give back, whether it does or ends in `data integrity!`. -/
def Act.givenBack : Act T → Option Nat
  | .returnBufferData _ index _ _ _ => some index
  | .returnEmptyBuffer _ index => some index
  | .dataIntegrity _ index => some index
  | _ => none

/-- A slot is empty, published, or in the hands of a thread. -/
def Tracked (s : Owned T) : Prop :=
  ∀ (index : Nat) (o : Int), s.pool.buff.orderNo[index]? = some o → o = 0 ∨ 0 < o ∨ o = -1 ∧ s.holder index ≠ none

theorem Tracked.set {s : Owned T} (h : Tracked s) {pool : Pool T} {index : Nat} {o : Int} {new : Option T}
    (horder : pool.buff.orderNo = s.pool.buff.orderNo.set index o) (ho : o = 0 ∨ 0 < o ∨ o = -1 ∧ new ≠ none) :
    Tracked ⟨pool, Function.update s.holder index new⟩ := by
  intro i x hx
  simp only [horder] at hx
  by_cases hi : index = i
  · subst hi
    obtain ⟨-, rfl⟩ : index < s.pool.buff.orderNo.length ∧ o = x := by
      rw [List.getElem?_set_self'] at hx
      obtain ⟨y, hy, rfl⟩ := Option.map_eq_some_iff.mp hx
      exact ⟨(List.getElem?_eq_some_iff.mp hy).1, rfl⟩
    simpa using ho
  · rw [List.getElem?_set_ne hi] at hx
    simp only [Function.update_of_ne (Ne.symm hi)]
    exact h i x hx

theorem Tracked.step [DecidableEq T] {s s' : Owned T} {a : Act T} (h : Tracked s) (hs : s.Step a s')
    (hpos : a.Positive) : Tracked s' := by
  obtain ⟨p', holder'⟩ := s'
  obtain ⟨he, -, rfl⟩ := hs
  cases he with
  | fetchEmptyBuffer _ _ hf =>
    obtain ⟨-, rfl⟩ := UdpBuff.fetchEmptyBuffer_spec hf
    exact h.set rfl (by simp)
  | returnBufferData _ _ hf =>
    obtain ⟨-, rfl⟩ := UdpBuff.returnBufferData_spec hf
    exact h.set rfl (Or.inr (Or.inl hpos))
  | returnEmptyBuffer _ _ hf =>
    obtain ⟨-, rfl⟩ := UdpBuff.returnEmptyBuffer_spec hf
    exact h.set rfl (Or.inl rfl)
  | fetchBufferTake _ _ hf =>
    obtain ⟨-, -, -, -, rfl⟩ := UdpBuff.fetchBufferTake_spec hf
    exact h.set rfl (by simp)
  | fetchBufferWait _ hf =>
    obtain ⟨-, rfl⟩ := UdpBuff.fetchBufferWait_spec hf
    exact h
  | noEmpty | returnBufferReady | dataIntegrity | fetchBufferShut | takeNone | anyBufFull | write => exact h

/-- A thread that holds the slot it gives back does not meet `data integrity!`. -/
theorem Marked.not_integrity [DecidableEq T] {s s' : Owned T} {t : T} {index : Nat} (h : Marked s) :
    ¬s.Step (.dataIntegrity t index) s' := by
  obtain ⟨p', holder'⟩ := s'
  rintro ⟨he, hheld, -⟩
  cases he with
  | dataIntegrity _ _ hf => simp [UdpBuff.returnEmptyBuffer, h _ _ hheld] at hf

section Owned
variable [DecidableEq T] {n : Nat} {data : Nat → Nat → UInt8} {dataLen : Nat → Nat} {tr : List (Act T)} {s : Owned T}

theorem Tracked.run (hr : Lts.Run Owned.Step (.init n data dataLen) tr s) (hpos : ∀ a ∈ tr, a.Positive) :
    Tracked s := by
  refine hr.invariant (I := fun tr s => (∀ a ∈ tr, a.Positive) → Tracked s) (fun _ index o ho => Or.inl ?_)
    (fun tr s a s' _ ih hs hpos => ?_) hpos
  · exact List.eq_of_mem_replicate (List.mem_of_getElem? ho)
  · exact (ih fun b hb => hpos b (List.mem_append_left _ hb)).step hs (hpos a (by simp))

theorem length_orderNo (hr : Lts.Run Owned.Step (.init n data dataLen) tr s) : s.pool.buff.orderNo.length = n := by
  refine hr.invariant (I := fun _ s => s.pool.buff.orderNo.length = n) (List.length_replicate ..) ?_
  rintro tr s a ⟨p', holder'⟩ - ih ⟨he, -⟩
  rcases he.mark_cases with ⟨-, hsame⟩ | ⟨index, old, new, -, -, hset⟩
  · exact hsame ▸ ih
  · exact hset ▸ List.length_set.trans ih

theorem not_integrity (hr : Lts.Run Owned.Step (.init n data dataLen) tr s) (t : T) (index : Nat) :
    .dataIntegrity t index ∉ tr := by
  intro hmem
  obtain ⟨pre, post, rfl⟩ := List.append_of_mem hmem
  obtain ⟨s₁, s₂, hr₁, hs⟩ := hr.split
  exact (holder_eq hr₁ t).1.not_integrity hs

/-- What a call gives back, the earlier calls of its thread have taken. -/
theorem givenBack_held (hr : Lts.Run Owned.Step (.init n data dataLen) tr s) {pre post : List (Act T)} {a : Act T}
    (htr : tr = pre ++ a :: post) {index : Nat} (ha : a.givenBack = some index) :
    heldAfter index (pre.filterMap (Act.call a.thread)) = true := by
  subst htr
  obtain ⟨s₁, s₂, hr₁, hs⟩ := hr.split
  refine ((holder_eq hr₁ a.thread).2 index).mp ?_
  obtain ⟨-, hheld, -⟩ := hs
  cases a with
  | returnBufferData | returnEmptyBuffer | dataIntegrity =>
    cases ha
    exact hheld
  | _ => cases ha

end Owned

/-! ### One thread -/

section HeldAfter
variable (index i : Nat) (cs : List Call)

@[simp] theorem heldAfter_fetchEmptyBuffer :
    heldAfter index (cs ++ [.fetchEmptyBuffer i]) = if i = index then true else heldAfter index cs := by
  simp [heldAfter]
@[simp] theorem heldAfter_fetchBuffer :
    heldAfter index (cs ++ [.fetchBuffer i]) = if i = index then true else heldAfter index cs := by
  simp [heldAfter]
@[simp] theorem heldAfter_returnBuffer (order : Int) (dataLen : Nat) :
    heldAfter index (cs ++ [.returnBuffer i order dataLen]) = if i = index then false else heldAfter index cs := by
  simp [heldAfter]
@[simp] theorem heldAfter_returnEmptyBuffer :
    heldAfter index (cs ++ [.returnEmptyBuffer i]) = if i = index then false else heldAfter index cs := by
  simp [heldAfter]

theorem heldAfter_fetches (slots : List Nat) :
    heldAfter index (slots.map .fetchEmptyBuffer) = true ↔ index ∈ slots := by
  induction slots using List.reverseRecOn with
  | nil => simp [heldAfter]
  | append_singleton slots i ih =>
    rw [List.map_append, List.map_singleton, heldAfter_fetchEmptyBuffer, List.mem_append, List.mem_singleton, ← ih]
    by_cases h : i = index
    · simp [h]
    · simp [h, Ne.symm h]

end HeldAfter

/-- The slots of a thread after its calls. -/
def holding (me : Side) (cs : List Call) (index : Nat) : Option Side := if heldAfter index cs then some me else none

theorem holding_of_held {me : Side} {cs : List Call} {index : Nat} (h : heldAfter index cs = true) :
    holding me cs index = some me := by
  rw [holding, if_pos h]

/-- No slot was given to the thread while it had it. -/
def FreshCalls (cs : List Call) : Prop :=
  ∀ pre index suf, cs = pre ++ .fetchEmptyBuffer index :: suf → heldAfter index pre = false

theorem FreshCalls.of_append {cs cs' : List Call} (h : FreshCalls (cs ++ cs')) : FreshCalls cs :=
  fun pre index suf heq => h pre index (suf ++ cs') (by simp [heq])

def Label.call? (me : Side) (l : Label ε) : Option Call := l.act?.bind (Act.call me)

/-- A thread that gives back only slots of its own, as long as its steps are of the kind `ok`. `Owns` says how
    the calls it has made fit where it stands. -/
structure Disciplined (me : Side) (ok : Label ε → Prop) (turns : Turns ε P) (start : P)
    (Owns : P → List Call → Prop) : Prop where
  start : Owns start []
  thread : ∀ {k p a k' p'}, turns k p (.call a) k' p' → a.thread = me
  held : ∀ {k p a k' p' cs}, turns k p (.call a) k' p' → ok (.call a) → Owns p cs → FreshCalls cs →
    a.Held (holding me cs) ∧ a.Positive
  step : ∀ {k p l k' p' cs}, turns k p l k' p' → ok l → Owns p cs → FreshCalls cs → Owns p' (cs ++ (l.call? me).toList)

theorem acts_append (tr : List (Label ε)) (l : Label ε) : acts (tr ++ [l]) = acts tr ++ l.act?.toList := by
  rw [acts, List.filterMap_append]
  cases h : l.act? <;> simp [h, acts]

theorem inputs_append (tr : List (Label ε)) (l : Label ε) : inputs (tr ++ [l]) = inputs tr ++ l.input?.toList := by
  rw [inputs, List.filterMap_append, inputs]
  cases l <;> rfl

theorem act_eq_some {l : Label ε} {a : Act Side} : l.act? = some a ↔ l = .call a := by
  cases l <;> simp [Label.act?]

theorem mem_acts {tr : List (Label ε)} {a : Act Side} : a ∈ acts tr ↔ .call a ∈ tr := by
  simp [acts, List.mem_filterMap, act_eq_some]

theorem calls_snoc (me : Side) (tr : List (Label ε)) (l : Label ε) :
    calls me (tr ++ [l]) = calls me tr ++ (l.call? me).toList := by
  rw [calls, acts_append, List.filterMap_append, calls, Label.call?]
  cases l.act? with
  | none => rfl
  | some a => cases h : a.call me <;> simp [h]

theorem call_of_thread {me : Side} {a : Act Side} (h : a.thread ≠ me) : a.call me = none := by
  cases a <;> simp_all [Act.call, Act.thread]

theorem call?_of_thread {me : Side} {a : Act Side} (h : a.thread ≠ me) : (Label.call a : Label ε).call? me = none :=
  call_of_thread h

theorem held_of_holding {me : Side} {cs : List Call} {holder : Nat → Option Side} {a : Act Side}
    (hh : ∀ i, holder i = some me ↔ heldAfter i cs = true) (ha : a.Held (holding me cs)) : a.Held holder := by
  have hmine : ∀ i t, holding me cs i = some t → holder i = some t := by
    intro i t h
    simp only [holding] at h
    split at h
    · rename_i hi
      obtain rfl := Option.some.inj h
      exact (hh i).mpr hi
    · cases h
  cases a with
  | returnBufferData | returnEmptyBuffer | dataIntegrity | write => exact hmine _ _ ha
  | _ => trivial

/-! ### Both threads -/

section Threads
variable {n : Nat} {data : Nat → Nat → UInt8} {dataLen : Nat → Nat} {ok : Label ε → Prop}
  {producerTurns : Turns ε P} {consumerTurns : Turns ε C} {p₀ : P} {c₀ : C} {OwnsP : P → List Call → Prop}
  {OwnsC : C → List Call → Prop} {tr : List (Label ε)} {s : Threads P C} {holder : Nat → Option Side}

/-- The run as one of the pool with owners. -/
structure Kept (n : Nat) (data : Nat → Nat → UInt8) (dataLen : Nat → Nat) (OwnsP : P → List Call → Prop)
    (OwnsC : C → List Call → Prop) (tr : List (Label ε)) (s : Threads P C) (holder : Nat → Option Side) : Prop where
  run : Lts.Run Owned.Step (.init n data dataLen) (acts tr) ⟨s.pool, holder⟩
  producer : OwnsP s.producer (calls .producer tr)
  consumer : OwnsC s.consumer (calls .consumer tr)
  positive : ∀ a ∈ acts tr, a.Positive

theorem Kept.holds (h : Kept n data dataLen OwnsP OwnsC tr s holder) (me : Side) (index : Nat) :
    holder index = some me ↔ Holds me tr index := (holder_eq h.run me).2 index

theorem Kept.fresh (h : Kept n data dataLen OwnsP OwnsC tr s holder) (me : Side) : FreshCalls (calls me tr) :=
  fetchEmptyBuffer_fresh h.run me

theorem onPool_of_act {l : Label ε} {p p' : Pool Side} (h : l.OnPool p p') :
    (∃ a, l = .call a ∧ p.Exec a p') ∨ l.act? = none ∧ p' = p := by
  cases l with
  | call a => exact Or.inl ⟨a, rfl, h⟩
  | _ => exact Or.inr ⟨rfl, h⟩

/-- Only a write changes a buffer. -/
theorem onPool_data {l : Label ε} {p p' : Pool Side} (hp : l.OnPool p p') (hw : l.isWrite = false) :
    p'.buff.data = p.buff.data := by
  rcases onPool_of_act hp with ⟨a, rfl, he⟩ | ⟨-, rfl⟩
  · funext i
    refine (he.data_cases i).resolve_right ?_
    rintro ⟨t, x, v, rfl⟩
    cases hw
  · rfl

theorem Threads.Step.onPool {s' : Threads P C} {l : Label ε} (h : Threads.Step producerTurns consumerTurns s l s') :
    l.OnPool s.pool s'.pool := by
  cases h with
  | producer _ hp => exact hp
  | consumer _ hp => exact hp
  | interrupt => rfl

/-- Whatever the interleaving, two disciplined threads make a run of the pool with owners. -/
theorem Threads.kept (hp : Disciplined .producer ok producerTurns p₀ OwnsP)
    (hc : Disciplined .consumer ok consumerTurns c₀ OwnsC)
    (hr : Lts.Run (Threads.Step producerTurns consumerTurns) (.init n data dataLen p₀ c₀) tr s)
    (hok : ∀ l ∈ tr, ok l) : ∃ holder, Kept n data dataLen OwnsP OwnsC tr s holder := by
  refine hr.invariant (I := fun tr s => (∀ l ∈ tr, ok l) → ∃ holder, Kept n data dataLen OwnsP OwnsC tr s holder)
    (fun _ => ⟨fun _ => none, .start, hp.start, hc.start, by simp [acts]⟩) (fun tr s l s' _ ih hs hok => ?_) hok
  obtain ⟨holder, h⟩ := ih fun b hb => hok b (List.mem_append_left _ hb)
  have hl := hok l (by simp)
  cases hs with
  | interrupt =>
    have hnone : ∀ me, calls me (tr ++ [Label.interrupt]) = calls me tr := fun me =>
      (calls_snoc me tr _).trans (List.append_nil _)
    have hacts : acts (tr ++ [Label.interrupt]) = acts tr := (acts_append tr _).trans (List.append_nil _)
    exact ⟨holder, hacts ▸ h.run, hnone _ ▸ h.producer, hnone _ ▸ h.consumer, hacts ▸ h.positive⟩
  | producer ht hpool =>
    have hprod := hp.step ht hl h.producer (h.fresh _)
    rcases onPool_of_act hpool with ⟨a, rfl, he⟩ | ⟨hnone, rfl⟩
    · obtain ⟨hheld, hpos⟩ := hp.held ht hl h.producer (h.fresh _)
      have hother : calls .consumer (tr ++ [Label.call a]) = calls .consumer tr := by
        rw [calls_snoc, call?_of_thread (by rw [hp.thread ht]; decide), Option.toList_none, List.append_nil]
      refine ⟨_, by rw [acts_append]; exact h.run.next (.of_exec he (held_of_holding (h.holds _) hheld)),
        by rw [calls_snoc]; exact hprod, hother ▸ h.consumer, ?_⟩
      rw [acts_append]
      exact List.forall_mem_append.mpr ⟨h.positive, by simpa [Label.act?] using hpos⟩
    · have hacts : acts (tr ++ [l]) = acts tr := by rw [acts_append, hnone, Option.toList_none, List.append_nil]
      refine ⟨holder, hacts ▸ h.run, by rw [calls_snoc]; exact hprod, ?_, hacts ▸ h.positive⟩
      rw [calls, hacts]
      exact h.consumer
  | consumer ht hpool =>
    have hcons := hc.step ht hl h.consumer (h.fresh _)
    rcases onPool_of_act hpool with ⟨a, rfl, he⟩ | ⟨hnone, rfl⟩
    · obtain ⟨hheld, hpos⟩ := hc.held ht hl h.consumer (h.fresh _)
      have hother : calls .producer (tr ++ [Label.call a]) = calls .producer tr := by
        rw [calls_snoc, call?_of_thread (by rw [hc.thread ht]; decide), Option.toList_none, List.append_nil]
      refine ⟨_, by rw [acts_append]; exact h.run.next (.of_exec he (held_of_holding (h.holds _) hheld)),
        hother ▸ h.producer, by rw [calls_snoc]; exact hcons, ?_⟩
      rw [acts_append]
      exact List.forall_mem_append.mpr ⟨h.positive, by simpa [Label.act?] using hpos⟩
    · have hacts : acts (tr ++ [l]) = acts tr := by rw [acts_append, hnone, Option.toList_none, List.append_nil]
      refine ⟨holder, hacts ▸ h.run, ?_, by rw [calls_snoc]; exact hcons, hacts ▸ h.positive⟩
      rw [calls, hacts]
      exact h.producer

theorem Kept.marked (h : Kept n data dataLen OwnsP OwnsC tr s holder) {me : Side} {index : Nat}
    (hi : Holds me tr index) :
    s.pool.buff.orderNo[index]? = some (-1) := (holder_eq h.run me).1 index me ((h.holds me index).mpr hi)

/-- A thread gives back only a slot that is with it. -/
theorem Kept.givenBack (h : Kept n data dataLen OwnsP OwnsC tr s holder) {pre post : List (Label ε)} {a : Act Side}
    (htr : tr = pre ++ .call a :: post) {index : Nat} (ha : a.givenBack = some index) : Holds a.thread pre index := by
  have hacts : acts tr = acts pre ++ a :: acts post := by
    rw [htr, acts, List.filterMap_append, List.filterMap_cons]
    rfl
  exact givenBack_held h.run hacts ha

theorem Kept.not_integrity (h : Kept n data dataLen OwnsP OwnsC tr s holder) (t : Side) (index : Nat) :
    .dataIntegrity t index ∉ acts tr := VoltRec.not_integrity h.run t index

end Threads

end VoltRec
