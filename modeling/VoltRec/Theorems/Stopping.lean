import VoltRec.Theorems.FileDrain
import VoltRec.Theorems.Delivery

/-! The file writer left alone. Once `keep_going` is 0 and the worker has returned, its steps on the pool are
    those of the loop of `Drain`, pass by pass; the loop comes to its end unless the files wait for a block 1
    that is not there. -/

namespace VoltRec

namespace Drain

variable {s s' : Drain} {index order : Nat}

/-! ### Passes -/

/-- A pass that the loop comes to. -/
def Next (s s' : Drain) : Prop := s.pool.anyBufFull ≠ 0 ∧ s.pass = some s'

theorem Next.unique {s₁ s₂ : Drain} (h₁ : s.Next s₁) (h₂ : s.Next s₂) : s₁ = s₂ :=
  Option.some.inj (h₁.2.symm.trans h₂.2)

/-- The loop is a chain of passes that ends where no buffer is full. -/
theorem loop_iff : (∃ fuel, s.loop fuel = some s') ↔ Relation.ReflTransGen Next s s' ∧ s'.pool.anyBufFull = 0 := by
  constructor
  · rintro ⟨fuel, h⟩
    induction fuel generalizing s with
    | zero => cases h
    | succ fuel ih =>
      rw [loop] at h
      split at h
      · obtain rfl := Option.some.inj h
        exact ⟨.refl, ‹_›⟩
      · obtain ⟨s₁, hpass, hloop⟩ := Option.bind_eq_some_iff.mp h
        obtain ⟨hchain, h0⟩ := ih hloop
        exact ⟨.head ⟨‹_›, hpass⟩ hchain, h0⟩
  · rintro ⟨hchain, h0⟩
    induction hchain using Relation.ReflTransGen.head_induction_on with
    | refl => exact ⟨1, if_pos h0⟩
    | head hnext _ ih =>
      obtain ⟨fuel, hloop⟩ := ih
      exact ⟨fuel + 1, by rw [loop, if_neg hnext.1, hnext.2, Option.bind_some, hloop]⟩

/-- The chain ends in one state, and every pass of it leads there. -/
theorem reaches_end {s₁ s₂ : Drain} (h₁ : Relation.ReflTransGen Next s s₁) (h₂ : Relation.ReflTransGen Next s s₂)
    (h0 : s₂.pool.anyBufFull = 0) : Relation.ReflTransGen Next s₁ s₂ := by
  have hunique : Relator.RightUnique Next := fun _ _ _ => Next.unique
  rcases Relation.ReflTransGen.total_of_right_unique hunique h₁ h₂ with h | h
  · exact h
  · rcases h.cases_head with rfl | ⟨s₃, hnext, -⟩
    · exact .refl
    · exact absurd h0 hnext.1

/-- `Ready`, whether or not block 1 is there. -/
structure Left (s : Drain) : Prop where
  count : s.pool.nReady = readySlots s.pool.orderNo
  bounded : ∀ o ∈ s.pool.orderNo, o < intMax
  distinct : s.pool.orderNo.Pairwise fun o o' => 0 < o → o ≠ o'
  opened : 1 ≤ s.writer.lastOrd → s.writer.files ≠ []

theorem Left.ready (h : s.Left) (hfirst : 1 ≤ s.writer.lastOrd ∨ 1 ∈ s.pool.orderNo) : s.Ready :=
  ⟨h.count, h.bounded, h.distinct, hfirst, h.opened⟩

/-- No file is open, and block 1 is not ready. -/
def Missing (s : Drain) : Prop := s.writer.lastOrd = 0 ∧ 1 ∉ s.pool.orderNo

/-- Without a block 1, a pass puts back what it finds. -/
theorem Missing.pass (h : s.Left) (hm : s.Missing) (hr : 0 < s.pool.nReady) :
    ∃ w, s.pass = some { s with writer := w } ∧ w.lastOrd = 0 := by
  obtain ⟨hlast, hone⟩ := hm
  obtain ⟨index, order, hfind, hlow⟩ := exists_lowest (h.count ▸ hr) h.bounded
  have hpos := hlow.pos
  rcases s.writer.pass_cases (fetched s.pool index order hpos) with
    ⟨hold, -⟩ | ⟨-, -, hp⟩ | ⟨hroll, -⟩ | ⟨hnext, -⟩
  · have hold : order ≤ s.writer.lastOrd := hold
    omega
  · exact ⟨_, pass_eq hr hfind hlow hp rfl (giveBack_same hr hlow), hlast⟩
  · exact absurd hlast hroll.2.1
  · have hnext : s.writer.lastOrd + 1 = order := hnext
    obtain rfl : order = 1 := by omega
    exact absurd (List.mem_of_getElem? hlow.slot) hone

theorem Missing.loop (h : s.Left) (hm : s.Missing) (hr : 0 < s.pool.nReady) (fuel : Nat) : s.loop fuel = none := by
  induction fuel generalizing s with
  | zero => rfl
  | succ fuel ih =>
    obtain ⟨w, hpass, hw⟩ := hm.pass h hr
    rw [Drain.loop, UdpBuff.anyBufFull, if_neg (by omega), hpass, Option.bind_some]
    refine ih ⟨h.count, h.bounded, h.distinct, fun h1 => ?_⟩ ⟨hw, hm.2⟩ hr
    simp only at h1
    omega

theorem loop_ends_iff (h : s.Left) :
    (∃ fuel s', s.loop fuel = some s') ↔ 1 ≤ s.writer.lastOrd ∨ 1 ∈ s.pool.orderNo ∨ s.pool.nReady = 0 := by
  constructor
  · rintro ⟨fuel, s', hloop⟩
    by_contra! hno
    have hm : s.Missing := ⟨by omega, hno.2.1⟩
    rw [hm.loop h (by omega)] at hloop
    cases hloop
  · intro hcond
    by_cases h0 : s.pool.nReady = 0
    · exact ⟨1, s, if_pos h0⟩
    · have hfirst : 1 ≤ s.writer.lastOrd ∨ 1 ∈ s.pool.orderNo := by tauto
      obtain ⟨s', -, hloop, -⟩ := loop_emptied _ s (h.ready hfirst) (Nat.lt_succ_self _)
      exact ⟨_, s', hloop⟩

theorem Emptied.readySlots {ready : List (Nat × Nat)} (h : Emptied s s' ready) :
    VoltRec.readySlots s'.pool.orderNo = 0 := by
  rw [h.orderNo, VoltRec.readySlots, List.countP_map, List.countP_eq_zero]
  intro o _
  simp only [Function.comp_apply, decide_eq_true_eq]
  split <;> omega

end Drain

namespace FilePool

open Drain (Next Left)

variable {cfg : Config} {u : Uninit} {p p' : Pool Side} {c c' : WriterAt} {d d' : Drain} {l : Label UdpBuffer}
  {buff buff' : UdpBuff} {f : FileWriter} {b : Fetched}

/-! ### The file writer on the pool -/

/-- Where the file writer stands in a pass that starts in a given state. -/
inductive Follows : Pool Side → WriterAt → Drain → Prop
  | test {buff : UdpBuff} {f : FileWriter} : Follows ⟨buff, none, ∅⟩ (.test f) ⟨buff, f⟩
  | testFull {buff : UdpBuff} {f : FileWriter} : Follows ⟨buff, none, ∅⟩ (.testFull f) ⟨buff, f⟩
  | waiting {buff : UdpBuff} {f : FileWriter} : Follows ⟨buff, none, ∅⟩ (.waiting f) ⟨buff, f⟩
  | taking {buff buff' : UdpBuff} {f : FileWriter} (h : buff.fetchBufferWait = some buff') :
      Follows ⟨buff', none, {.consumer}⟩ (.taking f) ⟨buff, f⟩
  | holding {buff buff' : UdpBuff} {f : FileWriter} {b : Fetched} (h : buff.fetchBuffer = (buff', some b)) :
      Follows ⟨buff', none, ∅⟩ (.holding f b) ⟨buff, f⟩
  | returning {buff : UdpBuff} {f : FileWriter} {d : Drain} (h : Next d ⟨buff.returnBufferReady, f⟩) :
      Follows ⟨buff, some .consumer, ∅⟩ (.returning f) d
  | returned {buff : UdpBuff} {f : FileWriter} (h : buff.anyBufFull = 0) :
      Follows ⟨buff, none, ∅⟩ (.returned f) ⟨buff, f⟩

theorem anyBufFull_of_wait (h : buff.fetchBufferWait = some buff') : buff.anyBufFull ≠ 0 := by
  obtain ⟨hr, -⟩ := UdpBuff.fetchBufferWait_spec h
  exact Nat.ne_of_gt hr

/-- `fetchBuffer` in its two parts. -/
theorem fetchBuffer_eq_some (h : buff.fetchBuffer = (buff', some b)) : ∃ buff₁, buff.fetchBufferWait = some buff₁ ∧
    buff₁.fetchBufferTake = some (buff', b.index, (b.order : Int), b.dataLen) ∧ b.data = buff₁.data b.index := by
  unfold UdpBuff.fetchBuffer at h
  split at h
  · cases h
  · rename_i buff₁ hwait
    split at h
    · cases h
    · rename_i buff₂ index order dataLen htake
      simp only [Prod.mk.injEq, Option.dite_none_right_eq_some, Option.some.injEq] at h
      obtain ⟨rfl, hpos, rfl⟩ := h
      have hcast : (order.toNat : Int) = order := by omega
      refine ⟨buff₁, hwait, ?_, ?_⟩
      · simpa only [hcast] using htake
      · obtain ⟨-, -, -, -, rfl⟩ := UdpBuff.fetchBufferTake_spec htake
        rfl

theorem fetchBuffer_take {buff₁ : UdpBuff} (hwait : buff.fetchBufferWait = some buff₁)
    (htake : buff₁.fetchBufferTake = some (buff', b.index, (b.order : Int), b.dataLen))
    (hdata : b.data = buff₁.data b.index) : buff.fetchBuffer = (buff', some b) := by
  obtain ⟨index, order, dataLen, data, pos⟩ := b
  obtain ⟨-, -, -, -, rfl⟩ := UdpBuff.fetchBufferTake_spec htake
  simp only at hdata htake
  subst hdata
  simp only [UdpBuff.fetchBuffer, hwait, htake, Int.toNat_natCast, dif_pos pos]

theorem fetchBuffer_none {buff₁ : UdpBuff} (hwait : buff.fetchBufferWait = some buff₁)
    (htake : buff₁.fetchBufferTake = none) : buff.fetchBuffer = (buff₁, none) := by
  simp only [UdpBuff.fetchBuffer, hwait, htake]

theorem next_giveBack {o : Outcome} (h : buff.fetchBuffer = (buff', some b)) (ho : (f.pass b).log.getLast? = some o) :
    Next ⟨buff, f⟩ d' ↔ o.giveBack buff' = some d'.pool ∧ d'.writer = f.pass b := by
  obtain ⟨buff₁, hwait, -⟩ := fetchBuffer_eq_some h
  obtain ⟨pool, writer⟩ := d'
  simp only [Next, Drain.pass, h, ho, Option.bind_eq_bind, Option.bind_some, Option.bind_eq_some_iff, Option.some.injEq,
    Drain.mk.injEq, anyBufFull_of_wait hwait, ne_eq, not_false_eq_true, true_and]
  constructor
  · rintro ⟨pool', hback, rfl, rfl⟩
    exact ⟨hback, rfl⟩
  · rintro ⟨hback, rfl⟩
    exact ⟨pool, hback, rfl, rfl⟩

/-- A turn of the file writer leaves it within the pass, or completes it. -/
theorem Follows.turn (h : Follows p c d) (ht : WriterTurn false c l false c') (hp : l.OnPool p p') :
    Follows p' c' d ∨ ∃ d', Next d d' ∧ Follows p' c' d' := by
  cases ht with
  | stopped =>
    cases h
    cases hp
    exact .inl .testFull
  | anyFull hn =>
    cases h
    cases hp
    exact .inl .waiting
  | leave =>
    cases h
    obtain ⟨-, h0, rfl⟩ := Pool.Exec.anyBufFull_spec hp
    exact .inl (.returned h0.symm)
  | fetchBufferWait =>
    cases h
    cases hp with
    | fetchBufferWait _ hwait => exact .inl (.taking hwait)
  | shut =>
    cases h
    cases hp
    exact .inl .test
  | fetchBufferTake b =>
    cases h with
    | taking hwait =>
      generalize hb : b.data = bytes at hp
      cases hp with
      | fetchBufferTake _ _ htake =>
        rw [Finset.erase_singleton]
        exact .inl (.holding (fetchBuffer_take hwait htake hb))
  | takeNone =>
    cases h with
    | taking hwait =>
      cases hp with
      | takeNone _ _ htake =>
        rw [Finset.erase_singleton]
        refine .inr ⟨_, ⟨anyBufFull_of_wait hwait, ?_⟩, .test⟩
        simp only [Drain.pass, fetchBuffer_none hwait htake]
  | @returnEmptyBuffer _ f b o hlog ho =>
    cases h with
    | holding hfetch =>
      cases hp with
      | returnEmptyBuffer _ _ hback =>
        refine .inr ⟨_, (next_giveBack hfetch hlog).mpr ⟨?_, rfl⟩, .test⟩
        rcases ho with rfl | rfl <;> exact hback
  | returnBuffer hlog =>
    cases h with
    | holding hfetch =>
      cases hp with
      | returnBufferData _ _ hback =>
        refine .inl (.returning ((next_giveBack hfetch hlog).mpr ⟨?_, rfl⟩))
        simp only [Outcome.giveBack, hback, Option.map_some]
  | integrity =>
    cases h with
    | holding hfetch =>
      cases hp
      exact .inl (.holding hfetch)
  | ready =>
    cases h with
    | returning hnext =>
      cases hp
      exact .inr ⟨_, hnext, .test⟩

/-! ### To the end of the loop -/

/-- The worker has returned, and `keep_going` is 0. -/
def alone (p : Pool Side) (c : WriterAt) : State := ⟨p, false, .returned, c⟩

/-- Between two calls. -/
def unclaimed (buff : UdpBuff) : Pool Side := ⟨buff, none, ∅⟩

theorem idle_unclaimed (buff : UdpBuff) (t : Side) : (unclaimed buff).Idle t := ⟨nofun, Finset.notMem_empty t⟩

theorem getLast?_pass (f : FileWriter) (b : Fetched) : ∃ o, (f.pass b).log.getLast? = some o ∧
    (o = .written b.index ∨ o = .discarded b.index ∨ o = .putBack b.index b.order b.dataLen) := by
  rcases f.pass_cases b with ⟨-, hp⟩ | ⟨-, -, hp⟩ | ⟨-, _, -, hp⟩ | ⟨-, hp⟩ <;> rw [hp]
  · exact ⟨_, List.getLast?_concat, .inr (.inl rfl)⟩
  · exact ⟨_, List.getLast?_concat, .inr (.inr rfl)⟩
  · exact ⟨_, List.getLast?_concat, .inl rfl⟩
  · exact ⟨_, List.getLast?_concat, .inl rfl⟩

/-- Each lemma here takes the file writer from one place in a pass to the next test. -/
def Completes (cfg : Config) (u : Uninit) (p : Pool Side) (c : WriterAt) (d : Drain) : Prop :=
  ∃ tr, Lts.Run (Step cfg u) (alone p c) tr (alone (unclaimed d.pool) (.test d.writer))

theorem Completes.head {a : WriterAt} (ht : WriterTurn false a l false c) (hp : l.OnPool p p')
    (h : Completes cfg u p' c d) : Completes cfg u p a d := by
  obtain ⟨tr, hr⟩ := h
  have hfirst : Lts.Run (Step cfg u) (alone p a) ([] ++ [l]) (alone p' c) := .next .start (.consumer ht hp)
  exact ⟨_, hfirst.append hr⟩

theorem completes_returning : Completes cfg u ⟨buff, some .consumer, ∅⟩ (.returning f) ⟨buff.returnBufferReady, f⟩ :=
  .head .ready (.returnBufferReady rfl) ⟨[], .start⟩

theorem completes_holding (h : buff.fetchBuffer = (buff', some b)) (hn : Next ⟨buff, f⟩ d') :
    Completes cfg u (unclaimed buff') (.holding f b) d' := by
  obtain ⟨o, hlog, ho⟩ := getLast?_pass f b
  obtain ⟨hback, hw⟩ := (next_giveBack h hlog).mp hn
  obtain ⟨pool, writer⟩ := d'
  simp only at hback hw
  subst hw
  rcases ho with rfl | rfl | rfl
  · exact .head (.returnEmptyBuffer hlog (.inl rfl)) (.returnEmptyBuffer (idle_unclaimed ..) rfl hback) ⟨[], .start⟩
  · exact .head (.returnEmptyBuffer hlog (.inr rfl)) (.returnEmptyBuffer (idle_unclaimed ..) rfl hback) ⟨[], .start⟩
  · obtain ⟨buff₁, hdata, rfl⟩ := Option.map_eq_some_iff.mp hback
    exact .head (.returnBuffer hlog) (.returnBufferData (idle_unclaimed ..) rfl hdata) completes_returning

theorem completes_taking (h : buff.fetchBufferWait = some buff') (hn : Next ⟨buff, f⟩ d') :
    Completes cfg u ⟨buff', none, {.consumer}⟩ (.taking f) d' := by
  have herase : ({.consumer} : Finset Side).erase .consumer = ∅ := Finset.erase_singleton _
  cases htake : buff'.fetchBufferTake with
  | none =>
    refine .head .takeNone (.takeNone (Finset.mem_singleton_self _) rfl htake) ?_
    obtain rfl : d' = ⟨buff', f⟩ := hn.unique
      ⟨anyBufFull_of_wait h, by simp only [Drain.pass, fetchBuffer_none h htake]⟩
    exact herase ▸ ⟨[], .start⟩
  | some r =>
    obtain ⟨buff₁, index, order, dataLen⟩ := r
    obtain ⟨-, hpos, -⟩ := UdpBuff.fetchBufferTake_spec htake
    have hcast : (order.toNat : Int) = order := by omega
    let b : Fetched := ⟨index, order.toNat, dataLen, buff'.data index, by omega⟩
    have htake' : buff'.fetchBufferTake = some (buff₁, b.index, (b.order : Int), b.dataLen) := by rw [htake, hcast]
    refine .head (.fetchBufferTake b) (.fetchBufferTake (Finset.mem_singleton_self _) rfl htake') ?_
    rw [herase]
    exact completes_holding (fetchBuffer_take h htake' rfl) hn

theorem completes_waiting (hn : Next ⟨buff, f⟩ d') : Completes cfg u (unclaimed buff) (.waiting f) d' := by
  have hr : buff.nReady > 0 := Nat.pos_of_ne_zero hn.1
  have hwait : buff.fetchBufferWait = some { buff with nReady := buff.nReady - 1 } := if_pos hr
  exact .head .fetchBufferWait (.fetchBufferWait (idle_unclaimed ..) hwait) (completes_taking hwait hn)

theorem completes_testFull (hn : Next ⟨buff, f⟩ d') : Completes cfg u (unclaimed buff) (.testFull f) d' :=
  .head (.anyFull hn.1) (.anyBufFull (idle_unclaimed ..)) (completes_waiting hn)

/-- Wherever it stands in a pass, the file writer can complete it. -/
theorem Follows.completes (h : Follows p c d) (hn : Next d d') : Completes cfg u p c d' := by
  cases h with
  | test => exact .head .stopped rfl (completes_testFull hn)
  | testFull => exact completes_testFull hn
  | waiting => exact completes_waiting hn
  | taking hwait => exact completes_taking hwait hn
  | holding hfetch => exact completes_holding hfetch hn
  | returning hnext =>
    obtain rfl := hnext.unique hn
    exact completes_returning
  | returned h0 => exact absurd h0 hn.1

theorem run_testFull (h0 : buff.anyBufFull = 0) : Lts.Run (Step cfg u) (alone (unclaimed buff) (.testFull f)) [lastTest]
    (alone (unclaimed buff) (.returned f)) := by
  have hact : (unclaimed buff).Exec (.anyBufFull Side.consumer 0) (unclaimed buff) := by
    rw [← h0]
    exact .anyBufFull (idle_unclaimed ..)
  exact .next .start (.consumer .leave hact)

/-- Where nothing is left to do, it can return. -/
theorem Follows.stops (h : Follows p c d) (h0 : d.pool.anyBufFull = 0) :
    ∃ tr, Lts.Run (Step cfg u) (alone p c) tr (alone (unclaimed d.pool) (.returned d.writer)) := by
  have htest : ∀ {buff f}, buff.anyBufFull = 0 → ∃ tr, Lts.Run (Step cfg u) (alone (unclaimed buff) (.test f)) tr
      (alone (unclaimed buff) (.returned f)) := fun h0 =>
    ⟨_, Lts.Run.append (.next .start (.consumer .stopped rfl)) (run_testFull h0)⟩
  cases h with
  | test => exact htest h0
  | testFull => exact ⟨_, run_testFull h0⟩
  | @waiting buff f =>
    have hwait : buff.fetchBufferWait = none := if_neg (Nat.not_lt.mpr (Nat.le_of_eq h0))
    obtain ⟨tr, hr⟩ := htest (f := f) h0
    exact ⟨_, Lts.Run.append (.next .start (.consumer .shut (.fetchBufferShut (idle_unclaimed ..) hwait))) hr⟩
  | taking hwait => exact absurd h0 (anyBufFull_of_wait hwait)
  | holding hfetch =>
    obtain ⟨buff₁, hwait, -⟩ := fetchBuffer_eq_some hfetch
    exact absurd h0 (anyBufFull_of_wait hwait)
  | returning hnext => exact absurd h0 hnext.1
  | returned => exact ⟨[], .start⟩

theorem Follows.returns (cfg : Config) (u : Uninit) (h : Follows p c d) (hd : Relation.ReflTransGen Next d d')
    (h0 : d'.pool.anyBufFull = 0) :
    ∃ tr, Lts.Run (Step cfg u) (alone p c) tr (alone (unclaimed d'.pool) (.returned d'.writer)) := by
  induction hd using Relation.ReflTransGen.head_induction_on generalizing p c with
  | refl => exact h.stops h0
  | head hn _ ih =>
    obtain ⟨tr₁, hr₁⟩ := h.completes hn
    obtain ⟨tr₂, hr₂⟩ := ih .test
    exact ⟨_, hr₁.append hr₂⟩

/-! ### Whole runs -/

variable {fileBuff : FileBuff} {data : Nat → Nat → UInt8} {dataLen : Nat → Nat} {tr : List (Label UdpBuffer)}
  {s s' : State}

theorem claimed_taking (hr : Lts.Run (Step cfg u) (init fileBuff data dataLen) tr s) :
    .consumer ∈ s.pool.claimed → ∃ f, s.consumer = .taking f := by
  refine hr.invariant (I := fun _ s => .consumer ∈ s.pool.claimed → ∃ f, s.consumer = .taking f)
    (fun h => absurd h (Finset.notMem_empty _)) ?_
  rintro tr ⟨p, k, wk, wr⟩ l s' - ih hs hmem
  cases hs with
  | interrupt => exact ih hmem
  | producer ht hp =>
    rcases onPool_of_act hp with ⟨a, rfl, he⟩ | ⟨-, rfl⟩
    · rcases he.claimed_of_mem hmem with hmem | rfl
      · exact ih hmem
      · cases ht
    · exact ih hmem
  | consumer ht hp =>
    cases ht with
    | fetchBufferWait => exact ⟨_, rfl⟩
    | fetchBufferTake b =>
      generalize b.data = bytes at hp
      cases hp
      exact absurd hmem (Finset.notMem_erase _ _)
    | takeNone =>
      cases hp
      exact absurd hmem (Finset.notMem_erase _ _)
    | goOn | stopped | waitOn | shut | anyFull | leave | returnEmptyBuffer | returnBuffer | integrity | ready =>
      have hold : .consumer ∈ p.claimed := by
        rcases onPool_of_act hp with ⟨a, hl, he⟩ | ⟨-, rfl⟩
        · rcases he.claimed_of_mem hmem with hmem | rfl
          · exact hmem
          · cases hl
        · exact hmem
      obtain ⟨f, hf⟩ := ih hold
      cases hf

/-- No order is published in two slots. -/
theorem distinct_orders (hr : Lts.Run (Step cfg u) (init fileBuff data dataLen) tr s) :
    s.pool.buff.orderNo.Pairwise fun o o' => 0 < o → o ≠ o' := by
  obtain ⟨-, ⟨kept, -, hcount⟩, -⟩ := accounts hr
  have hnodup : (readyOrders s).Nodup := List.nodup_iff_count_le_one.mpr fun n => by
    have hready : (readyOrders s).count n = s.pool.buff.orderNo.countP (publishes n) := List.count_filterMap
    have hone : (List.range' 1 (slotsGiven tr)).count n ≤ 1 := List.nodup_iff_count_le_one.mp List.nodup_range' n
    have := hcount n
    omega
  refine (List.pairwise_filterMap.mp hnodup).imp fun {o o'} hne hpos heq => ?_
  subst heq
  exact hne _ (if_pos hpos) _ (if_pos hpos) rfl

section Alone
variable (hr : Lts.Run (Step cfg u) (init fileBuff data dataLen) tr s)
  (hlt : ∀ order, Published tr order → order < intMax) (hp : s.producer = .returned) (hf : s.consumer = .test f)
include hr hlt hp hf

/-- Once the worker has returned, nobody is inside a call while the file writer is at its test. -/
theorem left_test : s.pool = unclaimed s.pool.buff ∧ Left ⟨s.pool.buff, f⟩ := by
  obtain ⟨holder, hk⟩ := kept hr
  obtain ⟨hcount, -, hbounded⟩ := (Counted.run hk.run (bounded hr hlt)).1
  obtain ⟨hworker, hwriter, hproducer⟩ := engaged hr
  have hpublishing : s.pool.publishing = none := by
    cases hpub : s.pool.publishing with
    | none => rfl
    | some t =>
      cases t with
      | producer =>
        obtain ⟨w, i, rest, hw⟩ := hworker hpub
        cases hp.symm.trans hw
      | consumer =>
        obtain ⟨f', hf'⟩ := hwriter hpub
        cases hf.symm.trans hf'
  have hclaimed : s.pool.claimed = ∅ := by
    refine Finset.eq_empty_of_forall_notMem fun t ht => ?_
    cases t with
    | producer => exact hproducer ht
    | consumer =>
      obtain ⟨f', hf'⟩ := claimed_taking hr ht
      cases hf.symm.trans hf'
  have hseq := sequenced hr
  rw [hf] at hseq
  simp only [hpublishing, hclaimed, Finset.card_empty, if_true, Nat.add_zero] at hcount
  refine ⟨by rw [unclaimed, ← hpublishing, ← hclaimed], hcount, hbounded, distinct_orders hr, fun h1 hempty => ?_⟩
  have h0 : f.lastOrd = 0 := hseq.nonempty.mp hempty
  simp only at h1
  omega

theorem follows_test : Follows s.pool s.consumer ⟨s.pool.buff, f⟩ := by
  rw [(left_test hr hlt hp hf).1, hf]
  exact .test

end Alone

theorem eq_alone (hp : s.producer = .returned) (hk : s.keepGoing = false) : s = alone s.pool s.consumer := by
  rw [alone, ← hp, ← hk]

/-- The steps after that are passes of the loop. -/
theorem run_passes (hp : s.producer = .returned) (hk : s.keepGoing = false)
    (hfollows : Follows s.pool s.consumer d) {tr' : List (Label UdpBuffer)} (hr : Lts.Run (Step cfg u) s tr' s') :
    ∃ p' c' d', s' = alone p' c' ∧ Relation.ReflTransGen Next d d' ∧ Follows p' c' d' := by
  refine hr.invariant (I := fun _ s' => ∃ p' c' d', s' = alone p' c' ∧ Relation.ReflTransGen Next d d' ∧
    Follows p' c' d') ⟨_, _, d, eq_alone hp hk, .refl, hfollows⟩ ?_
  · rintro tr _ l s₁ - ⟨p₁, c₁, d₁, rfl, hchain, hf⟩ hs
    cases hs with
    | interrupt => exact ⟨_, _, d₁, rfl, hchain, hf⟩
    | producer ht => cases ht
    | @consumer _ k c _ ht hpool =>
      obtain rfl : k = false := by cases ht <;> rfl
      rcases hf.turn ht hpool with hf' | ⟨d', hnext, hf'⟩
      · exact ⟨_, _, d₁, rfl, hchain, hf'⟩
      · exact ⟨_, _, d', rfl, hchain.tail hnext, hf'⟩

/-! ### Two ends -/

/-- The worker of one channel in the iteration of its first buffer, up to a block that it hands over. -/
def workerBefore (u : Uninit) (pre : List Instr) : Worker :=
  pre.foldl (Worker.exec singleChannel fun _ => 0)
    (.start singleChannel (firstSlots (List.range nFileBuffersAtATime)) u)

/-- The same behind it, with the seventh slot in its place. -/
def workerBehind (u : Uninit) (pre post : List Instr) (iK : Fin 6) : Worker :=
  post.foldl (Worker.exec singleChannel fun _ => 0)
    ((workerBefore u pre).exec singleChannel (fun _ => nFileBuffersAtATime) (.earlier iK))

/-- The conditions under which it hands over that one block only. -/
structure HandsOne (u : Uninit) (packets : List Packet) (pre post : List Instr) (iK : Fin 6) : Prop where
  split : iteration packets = pre ++ .earlier iK :: post
  before : quiet singleChannel (workerBefore u []) pre = true
  handed : (workerBefore u pre).handsOver (.earlier iK) = some iK
  slot : ((workerBefore u pre).localStruct iK).index = iK
  order : ((workerBefore u pre).localStruct iK).order = iK + 1
  behind : quiet singleChannel (workerBehind u pre [] iK) post = true
  calls : (workerBehind u pre post iK).log.filterMap Event.call =
    (List.range nFileBuffersAtATime).map .fetchEmptyBuffer ++
      [.returnBuffer iK (iK + 1) singleChannel.dataLenOut, .fetchEmptyBuffer nFileBuffersAtATime]

/-- The marks once the first six slots are taken. -/
def sixTaken : List Int :=
  List.replicate nFileBuffersAtATime (-1) ++ List.replicate (nFileBuffers - nFileBuffersAtATime) 0

theorem sixTaken_handsOver (iK : Fin 6) : sixTaken[(iK : Nat)]? = some (-1) ∧
    findEmpty (sixTaken.set iK (iK + 1)) = some nFileBuffersAtATime ∧
    (iK + 1 : Int) ∈ (sixTaken.set iK (iK + 1)).set nFileBuffersAtATime (-1) ∧
    ∀ o ∈ (sixTaken.set iK (iK + 1)).set nFileBuffersAtATime (-1), 0 < o → o = iK + 1 := by
  revert iK
  decide

/-- A buffer with one packet. -/
def single (p : Packet) : UdpBuffer := .ofPackets [p] (by rw [List.length_singleton]; decide)

theorem packets_single {p : Packet} (h : p.header < 2 ^ 64) : (single p).packets = [p] :=
  UdpBuffer.packets_ofPackets _ fun _ hp => List.mem_singleton.mp hp ▸ h

/-- The handler interrupts after that iteration, the worker returns, and the file writer has done nothing yet. -/
theorem run_handsOne {packet : Packet} {pre post : List Instr} {iK : Fin 6} (hp : packet.header < 2 ^ 64)
    (h : HandsOne u [packet] pre post iK) :
    ∃ tr p, Lts.Run (Step singleChannel u) (init oneAnt (fun _ _ => 0) fun _ => 0) tr
      ⟨p, false, .returned, .test (.start oneAnt)⟩ ∧ (∀ o, 0 < o → (o ∈ p.buff.orderNo ↔ o = iK + 1)) ∧
      ∀ o, Published tr o → o = iK + 1 := by
  obtain ⟨tr₀, hr₀⟩ := run_start (fun _ _ => 0) (fun _ => 0) singleChannel u oneAnt
  have hr₁ := (hr₀.next (.producer .goOn rfl)).next (.producer (.buffer (b := single packet)) rfl)
  rw [packets_single hp, h.split] at hr₁
  obtain ⟨tr₂, hr₂⟩ := run_quiet pre hr₁ h.before
  obtain ⟨hmark, hempty, hmem, honly⟩ := sixTaken_handsOver iK
  have hturn : WorkerTurn singleChannel u true (.running (workerBefore u pre) (.earlier iK :: post))
      (.call (.returnBufferData .producer _ _ singleChannel.dataLenOut fun _ => 0)) true
      (.returning (workerBefore u pre) (.earlier iK) post) := .returnBuffer h.handed
  rw [h.slot, h.order] at hturn
  have hr₃ := hr₂.next (.producer hturn (.returnBufferData (Pool.fetched_idle ..) rfl (if_pos hmark)))
  have hr₄ := hr₃.next (.producer .ready (.returnBufferReady rfl))
  have hr₅ := hr₄.next (.producer .fetchNext (.fetchEmptyBuffer ⟨nofun, Finset.notMem_empty _⟩ rfl
    (congrArg (Option.map _) hempty)))
  rw [← List.append_nil post] at hr₅
  obtain ⟨tr₆, hr₆⟩ := run_quiet post hr₅ h.behind
  have hr₇ := hr₆.next .interrupt
  obtain ⟨tr₈, p, hr₈, hsame, hpub⟩ := run_closing hr₇ rfl
  refine ⟨_, p, hr₈, fun o ho => (hsame o ho).trans ⟨fun h => honly o h ho, fun h => h ▸ hmem⟩, fun o ho => ?_⟩
  obtain ⟨index, n, hcall⟩ := published_log hr₇ rfl (hpub o ho)
  have hcall : .returnBuffer index o n ∈ (workerBehind u pre post iK).log.filterMap Event.call := hcall
  rw [h.calls] at hcall
  simp at hcall
  exact hcall.2.1

section Returned
variable (hr : Lts.Run (Step cfg u) (init fileBuff data dataLen) tr s)
  (hlt : ∀ order, Published tr order → order < intMax) (hp : s.producer = .returned) (hk : s.keepGoing = false)
  (hf : s.consumer = .test f)
include hr hlt hp hk hf

/-- Once the worker has returned, the file writer can come to its end if and only if it has a file open, finds
    block 1, or finds no block at all. -/
theorem returns_iff : (∃ tr' s' f', Lts.Run (Step cfg u) s tr' s' ∧ s'.consumer = .returned f') ↔
    1 ≤ f.lastOrd ∨ 1 ∈ s.pool.buff.orderNo ∨ ∀ index, isReady s index = false := by
  obtain ⟨-, hleft⟩ := left_test hr hlt hp hf
  have hfollows := follows_test hr hlt hp hf
  rw [isReady_iff, ← hleft.count]
  refine Iff.trans ?_ (Drain.loop_ends_iff hleft)
  constructor
  · rintro ⟨tr', s', f', hr', hf'⟩
    obtain ⟨p', c', d', rfl, hchain, hfollows'⟩ := run_passes hp hk hfollows hr'
    obtain rfl : c' = .returned f' := hf'
    cases hfollows' with
    | returned h0 =>
      obtain ⟨fuel, hloop⟩ := Drain.loop_iff.mpr ⟨hchain, h0⟩
      exact ⟨fuel, _, hloop⟩
  · rintro ⟨fuel, d', hloop⟩
    obtain ⟨hchain, h0⟩ := Drain.loop_iff.mp ⟨fuel, hloop⟩
    obtain ⟨tr', hr'⟩ := hfollows.returns cfg u hchain h0
    rw [← eq_alone hp hk] at hr'
    exact ⟨tr', _, d'.writer, hr', rfl⟩

end Returned

/-- A packet five blocks below the middle of the counter. -/
def belowMiddle : Packet := .numbered (2 ^ 37 - 5 * timeIntPerBuffer)

/-- A reference of 0 makes the worker hand over the one block in the upper half of the counter, its sixth. -/
theorem handsOne_belowMiddle :
    HandsOne zeroed [belowMiddle] (takeIn [belowMiddle] ++ sendFull ++ [0, 1, 2, 3, 4].map .earlier) [] 5 where
  split := rfl
  before := by decide +kernel
  handed := by decide +kernel
  slot := by decide +kernel
  order := by decide +kernel
  behind := rfl
  calls := by decide +kernel

/-- There the file writer never comes to its end. -/
theorem returns_iff_belowMiddle : ∃ s : State, s.producer = .returned ∧
    ∃ index, isReady s index = true ∧
      ¬∃ tr' s' f', Lts.Run (Step singleChannel zeroed) s tr' s' ∧ s'.consumer = .returned f' := by
  obtain ⟨tr, p, hr, hready, hpub⟩ := run_handsOne (by decide) handsOne_belowMiddle
  obtain ⟨index, hget⟩ := List.mem_iff_getElem?.mp ((hready _ (by decide)).mpr rfl)
  have hlt : ∀ order, Published tr order → order < intMax := fun order ho => hpub order ho ▸ by decide
  have hindex : isReady ⟨p, false, .returned, .test (.start oneAnt)⟩ index = true := by
    simp [isReady, List.getD_eq_getElem?_getD, hget]
  refine ⟨_, rfl, index, hindex, fun h => ?_⟩
  rcases (returns_iff hr hlt rfl rfl rfl).mp h with h | h | h
  · exact absurd h (by decide)
  · exact absurd ((hready 1 (by decide)).mp h) (by decide)
  · rw [h] at hindex
    cases hindex

section Returned
variable (hr : Lts.Run (Step cfg u) (init fileBuff data dataLen) tr s)
  (hlt : ∀ order, Published tr order → order < intMax) (hp : s.producer = .returned) (hk : s.keepGoing = false)
  (hf : s.consumer = .test f)
include hr hlt hp hk hf

/-- It then returns from wherever it has come to, and only with all blocks above the last one in its files, in
    their order. -/
theorem returned_emptied (hfirst : 1 ≤ f.lastOrd ∨ 1 ∈ s.pool.buff.orderNo) :
    ∃ ready, Drain.ReadyList s.pool.buff.orderNo ready ∧ ∀ tr' s', Lts.Run (Step cfg u) s tr' s' →
      (∃ tr'' s'' f', Lts.Run (Step cfg u) s' tr'' s'' ∧ s''.consumer = .returned f') ∧
        ∀ f', s'.consumer = .returned f' → (∀ index, isReady s' index = false) ∧
          f'.blocks = f.blocks ++ (ready.filter fun x => f.lastOrd < x.2).map (Drain.slotBlock s.pool.buff) := by
  obtain ⟨-, hleft⟩ := left_test hr hlt hp hf
  have hfollows := follows_test hr hlt hp hf
  obtain ⟨e, ready, hloop, hready, hemptied⟩ := Drain.loop_emptied _ _ (hleft.ready hfirst) (Nat.lt_succ_self _)
  obtain ⟨hchain, h0⟩ := Drain.loop_iff.mp ⟨_, hloop⟩
  refine ⟨ready, hready, fun tr' s' hr' => ?_⟩
  obtain ⟨p', c', d', rfl, hchain', hfollows'⟩ := run_passes hp hk hfollows hr'
  have hrest := Drain.reaches_end hchain' hchain h0
  refine ⟨?_, fun f' hf' => ?_⟩
  · obtain ⟨tr'', hr''⟩ := hfollows'.returns cfg u hrest h0
    exact ⟨tr'', _, e.writer, hr'', rfl⟩
  · obtain rfl : c' = .returned f' := hf'
    cases hfollows' with
    | @returned buff _ h0' =>
      obtain rfl : e = ⟨buff, f'⟩ := hrest.cases_head.elim Eq.symm fun ⟨_, hnext, _⟩ => absurd h0' hnext.1
      exact ⟨isReady_iff.mpr hemptied.readySlots, hemptied.blocks⟩

end Returned

/-- A packet of the last block below the stale reference. -/
def lastBelow : Packet := .numbered 999936

theorem handsOne_lastBelow :
    HandsOne staleReference [lastBelow] (takeIn [lastBelow] ++ sendFull) ([1, 2, 3, 4, 5].map .earlier) 0 where
  split := rfl
  before := by decide +kernel
  handed := by decide +kernel
  slot := by decide +kernel
  order := by decide +kernel
  behind := by decide +kernel
  calls := by decide +kernel

theorem returned_emptied_lastBelow : ∃ (s : State) (ready : List (Nat × Nat)),
    Drain.ReadyList s.pool.buff.orderNo ready ∧ ready ≠ [] ∧
      ∀ tr' s', Lts.Run (Step singleChannel staleReference) s tr' s' →
        (∃ tr'' s'' f', Lts.Run (Step singleChannel staleReference) s' tr'' s'' ∧ s''.consumer = .returned f') ∧
          ∀ f', s'.consumer = .returned f' → (∀ index, isReady s' index = false) ∧
            f'.blocks = ready.map (Drain.slotBlock s.pool.buff) := by
  obtain ⟨tr, p, hr, hready, hpub⟩ := run_handsOne (by decide) handsOne_lastBelow
  have hmem : (1 : Int) ∈ p.buff.orderNo := (hready _ (by decide)).mpr rfl
  have hlt : ∀ order, Published tr order → order < intMax := fun order ho => hpub order ho ▸ by decide
  obtain ⟨ready, hlist, hend⟩ := returned_emptied hr hlt rfl rfl rfl (.inr hmem)
  obtain ⟨index, hget⟩ := List.mem_iff_getElem?.mp hmem
  have hone : (index, 1) ∈ ready := (hlist.mem index 1).mpr ⟨by decide, hget⟩
  refine ⟨_, ready, hlist, List.ne_nil_of_mem hone, fun tr' s' hr' => ?_⟩
  obtain ⟨hreturns, hblocks⟩ := hend tr' s' hr'
  refine ⟨hreturns, fun f' hf' => ?_⟩
  obtain ⟨hnone, hbl⟩ := hblocks f' hf'
  refine ⟨hnone, hbl.trans ?_⟩
  have hall : ready.filter (fun x => (FileWriter.start oneAnt).lastOrd < x.2) = ready :=
    List.filter_eq_self.mpr fun x hx => decide_eq_true ((hlist.mem x.1 x.2).mp hx).1
  rw [hall]
  rfl

end FilePool

end VoltRec
