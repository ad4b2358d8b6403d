import VoltRec.Theorems.EarlierBlocks
import VoltRec.Lib.Window

/-! Whether an iteration hands blocks over without leaving an older one behind. The loop over full blocks
    takes any block that is complete; its reference is the last of them by place, not by age, and a window
    with most blocks started overrides it. -/

namespace VoltRec

variable {cfg : Config} {slots : Nat → Nat} {u : Uninit} {w w' : Worker} {bufs : List UdpBuffer}

/-! ### Local blocks and blocks handed over -/

/-- Every block allocated so far is local or handed over, and never both. -/
structure Accounted (w : Worker) : Prop where
  iff : ∀ k, k ∈ handedOrders w.log ↔ 1 ≤ k ∧ k < w.nextOrder ∧ ∀ iK, (w.localStruct iK).order ≠ k

theorem handedOrders_handOver {iK : Fin 6} {e : Handed → Event} (he : ∀ b, (e b).handedOrder = some b.order) :
    handedOrders (w.handOver cfg slots iK e).log = handedOrders w.log ++ [(w.localStruct iK).order] := by
  rw [Worker.handOver_log, handedOrders, List.filterMap_append]
  have halloc : Event.handedOrder (.alloc w.nextOrder (slots w.nextOrder)) = none := rfl
  rw [List.filterMap_cons_some (he _), List.filterMap_cons_none halloc]
  rfl

theorem Accounted.handOver (ha : Accounted w) (ho : Ordered w) {iK : Fin 6} {e : Handed → Event}
    (he : ∀ b, (e b).handedOrder = some b.order) : Accounted (w.handOver cfg slots iK e) := by
  refine ⟨fun k => ?_⟩
  rw [handedOrders_handOver he, List.mem_append, List.mem_singleton, ha.iff, Worker.handOver_nextOrder,
    Worker.handOver_localStruct]
  have hlt := ho.lt iK
  have hpos := ho.pos iK
  constructor
  · rintro (⟨h1, h2, h3⟩ | rfl)
    · refine ⟨h1, by omega, fun jK => ?_⟩
      by_cases hj : jK = iK
      · subst hj
        simp only [Function.update_self, Worker.fresh]
        omega
      · rw [Function.update_of_ne hj]
        exact h3 jK
    · refine ⟨hpos, by omega, fun jK => ?_⟩
      by_cases hj : jK = iK
      · subst hj
        simp only [Function.update_self, Worker.fresh]
        omega
      · rw [Function.update_of_ne hj]
        exact fun heq => hj (ho.inj heq)
  · rintro ⟨h1, h2, h3⟩
    by_cases hk : k = (w.localStruct iK).order
    · exact Or.inr hk
    · left
      have hne := h3 iK
      simp only [Function.update_self, Worker.fresh] at hne
      refine ⟨h1, by omega, fun jK => ?_⟩
      by_cases hj : jK = iK
      · exact hj ▸ fun heq => hk heq.symm
      · have := h3 jK
        rwa [Function.update_of_ne hj] at this

theorem Reached.accounted (hw : Reached cfg slots u bufs w) : Accounted w := by
  suffices h : Ordered w ∧ Accounted w from h.2
  refine hw.blocks (I := fun w => Ordered w ∧ Accounted w) ⟨(Reached.start : Reached cfg slots u bufs _).ordered,
    ⟨fun k => ?_⟩⟩
    ?_ ?_ ?_
  · have hnil : handedOrders (Worker.start cfg slots u).log = [] := by
      simp [handedOrders, Worker.start, Event.handedOrder]
    rw [hnil]
    refine ⟨fun h => by simp at h, ?_⟩
    rintro ⟨h1, h2, h3⟩
    simp only [Worker.start, nFileBuffersAtATime] at h2 h3
    have := h3 ⟨k - 1, by omega⟩
    simp only [ne_eq] at this
    omega
  · rintro w packets hr - hd ⟨ho, ha⟩
    obtain ⟨-, h2, -, h4⟩ := firstScan_blocks cfg packets hd
    have hlog : (w.firstScan cfg packets).log = w.log := by simp [Worker.firstScan, hd]
    refine ⟨ho.firstScan hd packets, ⟨fun k => ?_⟩⟩
    simpa only [hlog, h2, h4] using ha.iff k
  · rintro w w' hs ⟨ho, ha⟩
    refine ⟨ho.same hs, ⟨fun k => ?_⟩⟩
    simpa only [hs.handed, hs.nextOrder, hs.order] using ha.iff k
  · rintro w iK e he - ⟨ho, ha⟩
    exact ⟨ho.handOver iK e, ha.handOver ho he⟩

/-- With a block, every older one has been handed over. -/
def NoneLeftBehind (w : Worker) : Prop :=
  ∀ k ∈ handedOrders w.log, ∀ j, 1 ≤ j → j < k → j ∈ handedOrders w.log

/-- The local blocks are among the last six allocated. -/
def InWindow (w : Worker) : Prop := ∀ iK, w.nextOrder ≤ (w.localStruct iK).order + nFileBuffersAtATime

/-- The local blocks are exactly the last six allocated. -/
def Consecutive (w : Worker) : Prop :=
  ∀ k, (∃ iK, (w.localStruct iK).order = k) ↔ w.nextOrder - nFileBuffersAtATime ≤ k ∧ k < w.nextOrder

theorem InWindow.low (h : InWindow w) (iK : Fin 6) : w.nextOrder - 6 ≤ (w.localStruct iK).order := by
  have := h iK
  simp only [nFileBuffersAtATime] at this
  omega

theorem Ordered.high (ho : Ordered w) (iK : Fin 6) : (w.localStruct iK).order < w.nextOrder - 6 + 6 := by
  have := ho.lt iK
  have := ho.next
  omega

theorem InWindow.consecutive (h : InWindow w) (ho : Ordered w) : Consecutive w := by
  intro k
  have hnext := ho.next
  constructor
  · rintro ⟨iK, rfl⟩
    have := h iK
    have := ho.lt iK
    omega
  · rintro ⟨h1, h2⟩
    simp only [nFileBuffersAtATime] at h1
    exact Window.exists_place ho.inj h.low ho.high h1 (by omega)

theorem inWindow_iff_noneLeftBehind (ho : Ordered w) (ha : Accounted w) : InWindow w ↔ NoneLeftBehind w := by
  constructor
  · intro h k hk j hj hjk
    obtain ⟨-, hlt, hne⟩ := (ha.iff k).mp hk
    refine (ha.iff j).mpr ⟨hj, by omega, fun iK hi => ?_⟩
    -- A local block older than `k` would put `k` itself into the window.
    have := h iK
    obtain ⟨jK, hjK⟩ := (h.consecutive ho k).mpr ⟨by omega, hlt⟩
    exact hne jK hjK
  · intro h iK
    -- Nothing in `(order, nextOrder)` is handed over, so all of it is local, which leaves room for five.
    by_contra hlt
    have hhigh : ∀ k, (w.localStruct iK).order < k → k < w.nextOrder → ∃ jK, (w.localStruct jK).order = k := by
      intro k hk hk'
      by_contra hno
      have hmem : k ∈ handedOrders w.log := (ha.iff k).mpr ⟨by omega, hk', fun jK hj => hno ⟨jK, hj⟩⟩
      have := (ha.iff _).mp (h k hmem _ (ho.pos iK) hk)
      exact this.2.2 iK rfl
    have hsub : Finset.Ico (w.localStruct iK).order w.nextOrder ⊆
        Finset.univ.image fun jK => (w.localStruct jK).order := by
      intro k hk
      obtain ⟨h1, h2⟩ := Finset.mem_Ico.mp hk
      rcases Nat.eq_or_lt_of_le h1 with rfl | h1
      · exact Finset.mem_image_of_mem _ (Finset.mem_univ _)
      · obtain ⟨jK, hj⟩ := hhigh k h1 h2
        exact Finset.mem_image.mpr ⟨jK, Finset.mem_univ _, hj⟩
    have hcard := Finset.card_le_card hsub
    rw [Finset.card_image_of_injective _ ho.inj, Nat.card_Ico] at hcard
    simp only [Finset.card_univ, Fintype.card_fin, nFileBuffersAtATime] at hcard hlt
    omega

/-! ### Passes over the six places -/

def fullPlaces (w : Worker) : Finset (Fin 6) := Finset.univ.filter fun iK => (w.localStruct iK).nToFull = 0

/-- Some packets of the block are there, but not all. -/
def Started (cfg : Config) (w : Worker) (iK : Fin 6) : Prop :=
  (w.localStruct iK).nToFull ≠ 0 ∧ (w.localStruct iK).nToFull < cfg.packetsPerBlock

instance (cfg : Config) (w : Worker) : DecidablePred (Started cfg w) := fun _ => inferInstanceAs (Decidable (_ ∧ _))

/-- `w'` has new blocks in the places `D` and those of `w` in the others. -/
structure Swept (w w' : Worker) (D : Finset (Fin 6)) : Prop where
  kept : ∀ iK ∉ D, w'.localStruct iK = w.localStruct iK
  replaced : ∀ iK ∈ D, w.nextOrder ≤ (w'.localStruct iK).order
  nextOrder : w'.nextOrder = w.nextOrder + D.card
  packetStart : w'.packetStart = w.packetStart

theorem Swept.refl (w : Worker) : Swept w w ∅ := ⟨fun _ _ => rfl, by simp, rfl, rfl⟩

theorem Swept.of_blocks {w'' : Worker} {D : Finset (Fin 6)} (h : Swept w w' D) (hl : w''.localStruct = w'.localStruct)
    (hn : w''.nextOrder = w'.nextOrder) (hp : w''.packetStart = w'.packetStart) : Swept w w'' D :=
  ⟨fun iK hi => hl ▸ h.kept iK hi, fun iK hi => hl ▸ h.replaced iK hi, hn.trans h.nextOrder, hp.trans h.packetStart⟩

theorem Swept.handOver {D : Finset (Fin 6)} (h : Swept w w' D) {iK : Fin 6} (hi : iK ∉ D) (e : Handed → Event) :
    Swept w (w'.handOver cfg slots iK e) (insert iK D) where
  kept jK hj := by
    rw [Finset.mem_insert, not_or] at hj
    rw [Worker.handOver_localStruct, Function.update_of_ne hj.1]
    exact h.kept jK hj.2
  replaced jK hj := by
    have hnext := h.nextOrder
    rw [Worker.handOver_localStruct]
    by_cases hji : jK = iK
    · subst hji
      simp only [Function.update_self, Worker.fresh]
      omega
    · rw [Function.update_of_ne hji]
      exact h.replaced jK (Finset.mem_of_mem_insert_of_ne hj hji)
  nextOrder := by rw [Worker.handOver_nextOrder, h.nextOrder, Finset.card_insert_of_notMem hi, Nat.add_assoc]
  packetStart := h.packetStart

theorem Swept.trans {w'' : Worker} {D E : Finset (Fin 6)} (h : Swept w w' D) (h' : Swept w' w'' E)
    (hd : Disjoint D E) :
    Swept w w'' (D ∪ E) where
  kept iK hi := by
    rw [Finset.mem_union, not_or] at hi
    rw [h'.kept iK hi.2, h.kept iK hi.1]
  replaced iK hi := by
    have hnext := h.nextOrder
    by_cases hE : iK ∈ E
    · have := h'.replaced iK hE
      omega
    · rw [h'.kept iK hE]
      exact h.replaced iK ((Finset.mem_union.mp hi).resolve_right hE)
  nextOrder := by rw [h'.nextOrder, h.nextOrder, Finset.card_union_of_disjoint hd, Nat.add_assoc]
  packetStart := h'.packetStart.trans h.packetStart

/-- What the loop over full blocks has done when it is through the places `l`. -/
structure FullPass (cfg : Config) (w w' : Worker) (l : List (Fin 6)) : Prop where
  swept : Swept w w' (l.toFinset.filter fun iK => (w.localStruct iK).nToFull = 0)
  nStarted : w'.nStarted = w.nStarted + (l.filter (Started cfg w)).length
  lastSent : w'.lastSentPacketNo =
    match (l.filter fun iK => (w.localStruct iK).nToFull = 0).getLast? with
    | none => w.lastSentPacketNo
    | some f => (w.localStruct f).packetNo

theorem filter_insert_toFinset {p : Fin 6 → Prop} [DecidablePred p] (l : List (Fin 6)) (iK : Fin 6) :
    (l ++ [iK]).toFinset.filter p = if p iK then insert iK (l.toFinset.filter p) else l.toFinset.filter p := by
  have : (l ++ [iK]).toFinset = insert iK l.toFinset := by
    ext jK
    simp
  rw [this, Finset.filter_insert]

theorem fullPass (cfg : Config) (slots : Nat → Nat) (w : Worker) (l : List (Fin 6)) (hl : l.Nodup) :
    FullPass cfg w (l.foldl (Worker.fullStep cfg slots) w) l := by
  induction l using List.reverseRecOn with
  | nil => exact ⟨Swept.refl w, rfl, rfl⟩
  | append_singleton l iK ih =>
    rw [List.nodup_append] at hl
    have hi : iK ∉ l := fun h => hl.2.2 iK h iK List.mem_cons_self rfl
    have ih := ih hl.1
    rw [List.foldl_append, List.foldl_cons, List.foldl_nil]
    generalize l.foldl (Worker.fullStep cfg slots) w = w' at ih
    -- The place `iK` still has its block of the beginning.
    have hi' : iK ∉ l.toFinset.filter fun iK => (w.localStruct iK).nToFull = 0 :=
      fun h => hi (List.mem_toFinset.mp (Finset.mem_filter.mp h).1)
    have hkept : w'.localStruct iK = w.localStruct iK := ih.swept.kept iK hi'
    rcases w'.fullStep_cases cfg slots iK with ⟨h0, hs⟩ | ⟨h0, hs⟩ <;> rw [hkept] at h0 hs <;> rw [hs]
    · refine ⟨?_, ?_, ?_⟩
      · rw [filter_insert_toFinset, if_pos h0]
        refine Swept.handOver ?_ hi' _
        exact ih.swept.of_blocks rfl rfl rfl
      · have : ¬Started cfg w iK := fun h => h.1 h0
        simp [List.filter_append, this, ih.nStarted]
      · simp [List.filter_append, h0]
    · refine ⟨?_, ?_, ?_⟩
      · rw [filter_insert_toFinset, if_neg h0]
        exact ih.swept.of_blocks rfl rfl rfl
      · rw [List.filter_append, List.length_append, ← Nat.add_assoc, ← ih.nStarted]
        by_cases hlt : (w.localStruct iK).nToFull < cfg.packetsPerBlock <;> simp [Started, h0, hlt]
      · simp only [List.filter_append, List.filter_cons, h0, decide_false, List.filter_nil]
        simpa using ih.lastSent

theorem earlierPass (cfg : Config) (slots : Nat → Nat) (w : Worker) (l : List (Fin 6)) (hl : l.Nodup) :
    (l.foldl (Worker.earlierStep cfg slots) w).lastSentPacketNo = w.lastSentPacketNo ∧
      Swept w (l.foldl (Worker.earlierStep cfg slots) w)
        (l.toFinset.filter fun iK => isEarlier w.lastSentPacketNo (w.localStruct iK).packetNo = true) := by
  induction l using List.reverseRecOn with
  | nil => exact ⟨rfl, Swept.refl w⟩
  | append_singleton l iK ih =>
    rw [List.nodup_append] at hl
    have hi : iK ∉ l := fun h => hl.2.2 iK h iK List.mem_cons_self rfl
    obtain ⟨hlast, ih⟩ := ih hl.1
    rw [List.foldl_append, List.foldl_cons, List.foldl_nil]
    generalize l.foldl (Worker.earlierStep cfg slots) w = w' at hlast ih
    have hi' : iK ∉ l.toFinset.filter fun iK => isEarlier w.lastSentPacketNo (w.localStruct iK).packetNo = true :=
      fun h => hi (List.mem_toFinset.mp (Finset.mem_filter.mp h).1)
    rcases w'.earlierStep_cases cfg slots iK with ⟨he, n, hs⟩ | ⟨he, hs⟩ <;> rw [hs] <;>
      rw [hlast, ih.kept iK hi'] at he
    · refine ⟨hlast, ?_⟩
      rw [filter_insert_toFinset, if_pos he]
      refine Swept.handOver ?_ hi' _
      exact ih.of_blocks rfl rfl rfl
    · refine ⟨hlast, ?_⟩
      rw [filter_insert_toFinset, if_neg (by simp [he])]
      exact ih

/-! ### The reference of an iteration -/

def startedPlaces (cfg : Config) (w : Worker) : Finset (Fin 6) := Finset.univ.filter (Started cfg w)

theorem card_full_add_started (cfg : Config) (w : Worker) : (fullPlaces w).card + (startedPlaces cfg w).card ≤ 6 := by
  have hd : Disjoint (fullPlaces w) (startedPlaces cfg w) :=
    Finset.disjoint_filter.mpr fun iK _ h0 hs => hs.1 h0
  rw [← Finset.card_union_of_disjoint hd]
  exact Finset.card_le_univ _

/-- With five blocks started, a full one is the only one, and all others are started. -/
theorem started_of_full (h5 : 5 ≤ (startedPlaces cfg w).card) {f : Fin 6} (hf : f ∈ fullPlaces w) :
    fullPlaces w = {f} ∧ ∀ iK, iK ≠ f → Started cfg w iK := by
  have hle := card_full_add_started cfg w
  have hpos : 0 < (fullPlaces w).card := Finset.card_pos.mpr ⟨f, hf⟩
  obtain ⟨g, hg⟩ := Finset.card_eq_one.mp (by omega : (fullPlaces w).card = 1)
  obtain rfl : f = g := Finset.mem_singleton.mp (hg ▸ hf)
  refine ⟨hg, fun iK hi => ?_⟩
  have hsub : startedPlaces cfg w ⊆ Finset.univ.erase f := by
    intro jK hj
    refine Finset.mem_erase.mpr ⟨?_, Finset.mem_univ _⟩
    rintro rfl
    exact (Finset.mem_filter.mp hj).2.1 (Finset.mem_filter.mp hf).2
  have heq := Finset.eq_of_subset_of_card_le hsub (by simpa using h5)
  exact (Finset.mem_filter.mp (heq ▸ Finset.mem_erase.mpr ⟨hi, Finset.mem_univ _⟩)).2

theorem five_le_started {f : Fin 6} (h : ∀ iK, iK ≠ f → Started cfg w iK) : 5 ≤ (startedPlaces cfg w).card := by
  have hsub : Finset.univ.erase f ⊆ startedPlaces cfg w := fun iK hi =>
    Finset.mem_filter.mpr ⟨Finset.mem_univ _, h iK (Finset.ne_of_mem_erase hi)⟩
  simpa using Finset.card_le_card hsub

/-- The place of the full block that the loop visits last. -/
def LastFull (w : Worker) (f : Fin 6) : Prop :=
  (w.localStruct f).nToFull = 0 ∧ ∀ g, f < g → (w.localStruct g).nToFull ≠ 0

/-- The thread between the packet loop and the loop over full blocks, in the iteration on `b`. -/
def beforeFlush (cfg : Config) (slots : Nat → Nat) (u : Uninit) (pre : List UdpBuffer) (b : UdpBuffer) : Worker :=
  workerAfter cfg slots u (program pre ++ takeIn b.packets)

/-- What the loop over full blocks and the check behind it do to the reference. -/
theorem sendFull_cases (cfg : Config) (slots : Nat → Nat) (w : Worker) :
    ∃ w', sendFull.foldl (Worker.exec cfg slots) w = w' ∧ Swept w w' (fullPlaces w) ∧
      ((5 ≤ (startedPlaces cfg w).card ∧
          w'.lastSentPacketNo = ((w'.nextStructPacketNo + (2 ^ 64 - 384)) % 2 ^ 38 : Nat)) ∨
        ((startedPlaces cfg w).card ≤ 4 ∧ ∃ f, LastFull w f ∧ w'.lastSentPacketNo = (w.localStruct f).packetNo) ∨
        ((startedPlaces cfg w).card ≤ 4 ∧ fullPlaces w = ∅ ∧ w'.lastSentPacketNo = w.lastSentPacketNo)) := by
  have hp := fullPass cfg slots { w with nStarted := 0 } (List.finRange 6) (List.nodup_finRange 6)
  have heq : sendFull.foldl (Worker.exec cfg slots) w =
      ((List.finRange 6).foldl (Worker.fullStep cfg slots) { w with nStarted := 0 }).checkStarted := by
    simp only [sendFull, List.cons_append, List.foldl_cons, List.foldl_append, List.foldl_map, List.foldl_nil]
    rfl
  generalize (List.finRange 6).foldl (Worker.fullStep cfg slots) { w with nStarted := 0 } = w₁ at hp heq
  have hfull : (List.finRange 6).toFinset.filter (fun iK => (w.localStruct iK).nToFull = 0) = fullPlaces w := by
    rw [List.toFinset_finRange, fullPlaces]
  have hs : Swept w w₁ (fullPlaces w) := by
    have := hp.swept
    rw [hfull] at this
    exact ⟨this.kept, this.replaced, this.nextOrder, this.packetStart⟩
  have hn : w₁.nStarted = (startedPlaces cfg w).card := by
    rw [hp.nStarted, Nat.zero_add, ← List.toFinset_card_of_nodup ((List.nodup_finRange 6).filter _),
      List.toFinset_filter,
      List.toFinset_finRange]
    simp only [decide_eq_true_eq]
    rfl
  refine ⟨_, heq, ?_⟩
  rcases w₁.checkStarted_cases with ⟨hlt, hc⟩ | ⟨hle, hc⟩ <;> rw [hc]
  · refine ⟨hs.of_blocks rfl rfl rfl, Or.inl ⟨?_, rfl⟩⟩
    rw [hn] at hlt
    exact hlt
  · rw [hn] at hle
    refine ⟨hs, Or.inr ?_⟩
    have hlast := hp.lastSent
    split at hlast
    · rename_i hnone
      refine Or.inr ⟨hle, ?_, hlast⟩
      rw [List.getLast?_eq_none_iff] at hnone
      refine Finset.filter_eq_empty_iff.mpr fun iK _ h0 => ?_
      exact List.filter_eq_nil_iff.mp hnone iK (List.mem_finRange iK) (decide_eq_true h0)
    · rename_i f hf
      refine Or.inl ⟨hle, f, ?_, hlast⟩
      obtain ⟨ys, hys⟩ := List.getLast?_eq_some_iff.mp hf
      have hmem : f ∈ (List.finRange 6).filter fun iK => (w.localStruct iK).nToFull = 0 := hys ▸ by simp
      refine ⟨by simpa using hmem, fun g hg hg0 => ?_⟩
      -- The places are visited in increasing order, so a full one above `f` would come last.
      have hg' : g ∈ (List.finRange 6).filter fun iK => (w.localStruct iK).nToFull = 0 := by simpa using hg0
      have hsorted := (List.pairwise_lt_finRange 6).filter fun iK => (w.localStruct iK).nToFull = 0
      rw [hys] at hg' hsorted
      rcases List.mem_append.mp hg' with hg' | hg'
      · have := (List.pairwise_append.mp hsorted).2.2 g hg' f List.mem_cons_self
        omega
      · obtain rfl := List.mem_singleton.mp hg'
        omega

/-! ### One iteration -/

/-- The counter does not wrap within the window of an iteration, nor within the first six blocks. -/
structure NoWrap (w : Worker) : Prop where
  first : w.packetStart + (nFileBuffersAtATime - 1) * timeIntPerBuffer < 2 ^ 38
  window : (w.packetStart + (w.nextOrder - nFileBuffersAtATime - 1) * timeIntPerBuffer) % 2 ^ 38 +
    (nFileBuffersAtATime + (fullPlaces w).card) * timeIntPerBuffer ≤ 2 ^ 38

/-- What the loops have to find in the local blocks before the flush of an iteration. -/
structure FlushInOrder (cfg : Config) (w : Worker) : Prop where
  /-- The full block with the highest place is newer than each unfinished block that some full block is
      newer than. -/
  reference : ∀ f, LastFull w f → ∀ iK jK, (w.localStruct iK).nToFull ≠ 0 → (w.localStruct jK).nToFull = 0 →
    (w.localStruct iK).order < (w.localStruct jK).order → (w.localStruct iK).order < (w.localStruct f).order
  /-- Where all others are started, the full block is not the newest. -/
  newest : ∀ f, (w.localStruct f).nToFull = 0 → (∀ iK, iK ≠ f → Started cfg w iK) →
    ∃ iK, (w.localStruct f).order < (w.localStruct iK).order
  /-- A reference of at most 3 that nothing replaces selects nothing, or meets a window in the upper half of
      the counter. -/
  halves : fullPlaces w = ∅ → (startedPlaces cfg w).card ≤ nFileBuffersAtATime - 2 →
    w.lastSentPacketNo ≤ nFileBuffersAtATime / 2 →
    (∃ iK, isEarlier w.lastSentPacketNo (w.localStruct iK).packetNo = true) →
    ∀ iK, pcktNoMask >>> 1 < (w.localStruct iK).packetNo

/-- The packet number of the oldest block of the window. -/
def oldestNo (w : Worker) : Nat := (w.packetStart + (w.nextOrder - 7) * 128) % 2 ^ 38

/-- Without a wrap, packet numbers are counted from the oldest block of the window. -/
theorem NoWrap.blockNo (h : NoWrap w) (h7 : 7 ≤ w.nextOrder) {k : Nat} (hk : w.nextOrder ≤ k + 6)
    (hk' : k < w.nextOrder + (fullPlaces w).card) :
    blockNo w.packetStart k = oldestNo w + (k + 6 - w.nextOrder) * 128 := by
  have h1 := h.first
  have h2 := h.window
  simp only [nFileBuffersAtATime, timeIntPerBuffer, Nat.sub_sub] at h1 h2
  unfold oldestNo
  rcases Nat.lt_or_ge 6 k with h6 | h6
  · rw [blockNo_of_lt h6]
    omega
  · rw [blockNo_of_le h6]
    omega

theorem isEarlier_of_lt {L : Int} {p : Nat} (h : nFileBuffersAtATime / 2 < L) :
    isEarlier L p = true ↔ (p : Int) < L % 2 ^ 64 := by
  simp [isEarlier, h, Int.not_le.mpr h]

theorem isEarlier_of_le {L : Int} {p : Nat} (h : L ≤ nFileBuffersAtATime / 2) :
    isEarlier L p = true ↔
      pcktNoMask >>> 1 < p ∧ (p : Int) < (pcktNoMask + L - nFileBuffersAtATime / 2) % 2 ^ 64 := by
  simp [isEarlier, h, Int.not_lt.mpr h]

/-- Among numbers without a wrap, a block is earlier than a reference when it is older. -/
theorem isEarlier_iff_lt {base a b : Nat} (ha : a ≤ 12) (hb : b ≤ 12) (h : base + a * 128 ≤ 2 ^ 38) :
    isEarlier ((base + a * 128 : Nat) : Int) (base + b * 128) = true ↔ b < a := by
  rw [isEarlier_iff (by omega)]
  omega

/-- Replacing the blocks in `D` keeps the window exactly when they are the oldest. -/
theorem Swept.inWindow_iff {D : Finset (Fin 6)} (h : Swept w w' D) (ho : Ordered w) (hw : InWindow w) :
    InWindow w' ↔ ∀ iK ∉ D, ∀ jK ∈ D, (w.localStruct jK).order < (w.localStruct iK).order := by
  rw [← Window.kept_iff_lower ho.inj hw.low ho.high D]
  have hnext := h.nextOrder
  have h7 := ho.next
  have hcard : D.card ≤ 6 := Finset.card_le_univ D
  constructor
  · intro hw' iK hi
    have := hw' iK
    rw [h.kept iK hi] at this
    simp only [nFileBuffersAtATime] at this
    omega
  · intro hk iK
    by_cases hi : iK ∈ D
    · have := h.replaced iK hi
      simp only [nFileBuffersAtATime]
      omega
    · have := hk iK hi
      rw [h.kept iK hi]
      simp only [nFileBuffersAtATime]
      omega

section Iteration
variable {w'' : Worker} (ho : Ordered w) (hn : Numbered w) (hw : InWindow w) (hnw : NoWrap w)
  (ho' : Ordered w') (hn' : Numbered w') (hs : Swept w w' (fullPlaces w))
  (hs' : Swept w' w''
    (Finset.univ.filter fun iK => isEarlier w'.lastSentPacketNo (w'.localStruct iK).packetNo = true))

include ho hw hnw ho' hn' hs in
/-- Where the reference is the number of block `t`, the blocks older than that are selected. -/
theorem isEarlier_iff_order_lt {t : Nat} (ht : w.nextOrder ≤ t + 6) (ht' : t < w.nextOrder + (fullPlaces w).card)
    (hlast : w'.lastSentPacketNo = (oldestNo w + (t + 6 - w.nextOrder) * 128 : Nat)) (iK : Fin 6) :
    isEarlier w'.lastSentPacketNo (w'.localStruct iK).packetNo = true ↔ (w'.localStruct iK).order < t := by
  have hcard : (fullPlaces w).card ≤ 6 := Finset.card_le_univ _
  have hlt := ho'.lt iK
  rw [hs.nextOrder] at hlt
  have hlow : w.nextOrder ≤ (w'.localStruct iK).order + 6 := by
    by_cases hi : iK ∈ fullPlaces w
    · exact Nat.le_add_right_of_le (hs.replaced iK hi)
    · rw [hs.kept iK hi]
      exact hw iK
  have hwin := hnw.window
  simp only [nFileBuffersAtATime, timeIntPerBuffer, Nat.sub_sub] at hwin
  have hbase : oldestNo w + (6 + (fullPlaces w).card) * 128 ≤ 2 ^ 38 := hwin
  rw [hlast, hn'.packetNo, hs.packetStart, hnw.blockNo ho.next hlow hlt, isEarlier_iff_lt (by omega) (by omega)
    (by omega)]
  omega

include ho hw hnw ho' hn' hs hs' in
/-- Then the window is kept exactly when that reference is newer than every unfinished block that some full
    block is newer than. -/
theorem inWindow_iff_of_reference {t : Nat} (ht : w.nextOrder ≤ t + 6) (ht' : t ≤ w.nextOrder)
    (ht'' : t < w.nextOrder + (fullPlaces w).card)
    (hlast : w'.lastSentPacketNo = (oldestNo w + (t + 6 - w.nextOrder) * 128 : Nat)) :
    InWindow w'' ↔ ∀ iK jK, (w.localStruct iK).nToFull ≠ 0 → (w.localStruct jK).nToFull = 0 →
      (w.localStruct iK).order < (w.localStruct jK).order → (w.localStruct iK).order < t := by
  have hiff := isEarlier_iff_order_lt ho hw hnw ho' hn' hs ht ht'' hlast
  have hd : Disjoint (fullPlaces w)
      (Finset.univ.filter fun iK => isEarlier w'.lastSentPacketNo (w'.localStruct iK).packetNo = true) := by
    rw [Finset.disjoint_left]
    intro iK hi he
    have := (hiff iK).mp (Finset.mem_filter.mp he).2
    have := hs.replaced iK hi
    omega
  rw [(hs.trans hs' hd).inWindow_iff ho hw]
  have hmem : ∀ iK, iK ∈ fullPlaces w ∪
      (Finset.univ.filter fun iK => isEarlier w'.lastSentPacketNo (w'.localStruct iK).packetNo = true) ↔
      (w.localStruct iK).nToFull = 0 ∨ (w.localStruct iK).order < t := by
    intro iK
    rw [Finset.mem_union, Finset.mem_filter, hiff iK]
    by_cases h0 : (w.localStruct iK).nToFull = 0
    · simp [fullPlaces, h0]
    · rw [hs.kept iK (by simp [fullPlaces, h0])]
      simp [fullPlaces, h0]
  simp only [hmem, not_or]
  constructor
  · intro h iK jK hi hj hlt
    by_contra hge
    have := h iK ⟨hi, hge⟩ jK (Or.inl hj)
    omega
  · rintro h iK ⟨hi, hge⟩ jK (hj | hj)
    · by_contra hnot
      have hne : iK ≠ jK := fun heq => hi (heq ▸ hj)
      have hne' : (w.localStruct iK).order ≠ (w.localStruct jK).order := fun heq => hne (ho.inj heq)
      exact hge (h iK jK hi hj (by omega))
    · omega

include ho hw hnw ho' hn' hs hs' in
/-- Most blocks are started: the reference is the middle of the window that the full loop has moved. -/
theorem inWindow_iff_of_mostlyStarted (h5 : 5 ≤ (startedPlaces cfg w).card)
    (hlast : w'.lastSentPacketNo = ((w'.nextStructPacketNo + (2 ^ 64 - 384)) % 2 ^ 38 : Nat)) :
    InWindow w'' ↔ FlushInOrder cfg w := by
  have h7 := ho.next
  have hsum := card_full_add_started cfg w
  have hwin := hnw.window
  simp only [nFileBuffersAtATime, timeIntPerBuffer, Nat.sub_sub] at hwin
  have hnext := hn'.next
  rw [hs.packetStart, hs.nextOrder] at hnext
  simp only [timeIntPerBuffer] at hnext
  have hmid : (w'.nextStructPacketNo + (2 ^ 64 - 384)) % 2 ^ 38 =
      oldestNo w + (w.nextOrder + (fullPlaces w).card - 3 + 6 - w.nextOrder) * 128 := by
    unfold oldestNo
    omega
  rw [hmid] at hlast
  rw [inWindow_iff_of_reference ho hw hnw ho' hn' hs hs' (by omega) (by omega) (by omega) hlast]
  constructor
  · intro h
    refine ⟨fun f hf iK jK hi hj hlt => ?_, fun f hf hst => ?_, fun _ h4 => ?_⟩
    · obtain ⟨hone, -⟩ := started_of_full h5 (Finset.mem_filter.mpr ⟨Finset.mem_univ f, hf.1⟩)
      have hj' : jK ∈ fullPlaces w := Finset.mem_filter.mpr ⟨Finset.mem_univ _, hj⟩
      rw [hone] at hj'
      exact Finset.mem_singleton.mp hj' ▸ hlt
    · obtain ⟨hone, -⟩ := started_of_full h5 (Finset.mem_filter.mpr ⟨Finset.mem_univ f, hf⟩)
      have hcard : (fullPlaces w).card = 1 := by rw [hone]; rfl
      by_contra hnewest
      -- The block before the newest is unfinished and not older than the reference.
      obtain ⟨iK, hi⟩ := (hw.consecutive ho (w.nextOrder - 2)).mpr ⟨by simp only [nFileBuffersAtATime]; omega,
        by omega⟩
      obtain ⟨jK, hj⟩ := (hw.consecutive ho (w.nextOrder - 1)).mpr ⟨by simp only [nFileBuffersAtATime]; omega,
        by omega⟩
      have hge : ¬(w.localStruct f).order < (w.localStruct jK).order := fun hlt => hnewest ⟨jK, hlt⟩
      have hlt := ho.lt f
      have hi0 : iK ≠ f := by rintro rfl; omega
      have := h iK f (hst iK hi0).1 hf (by omega)
      omega
    · simp only [nFileBuffersAtATime] at h4
      omega
  · intro h iK jK hi hj hlt
    obtain ⟨hone, hst⟩ := started_of_full h5 (Finset.mem_filter.mpr ⟨Finset.mem_univ jK, hj⟩)
    have hcard : (fullPlaces w).card = 1 := by rw [hone]; rfl
    obtain ⟨kK, hk⟩ := h.newest jK hj hst
    have := ho.lt kK
    omega

include ho hn hw hnw ho' hn' hs hs' in
/-- The reference is the last block found full. -/
theorem inWindow_iff_of_lastFull (h4 : (startedPlaces cfg w).card ≤ 4) {f : Fin 6} (hf : LastFull w f)
    (hlast : w'.lastSentPacketNo = (w.localStruct f).packetNo) : InWindow w'' ↔ FlushInOrder cfg w := by
  have hlow := hw f
  have hlt := ho.lt f
  simp only [nFileBuffersAtATime] at hlow
  have hpos : 0 < (fullPlaces w).card := Finset.card_pos.mpr ⟨f, Finset.mem_filter.mpr ⟨Finset.mem_univ _, hf.1⟩⟩
  rw [hn.packetNo, hnw.blockNo ho.next hlow (by omega)] at hlast
  rw [inWindow_iff_of_reference ho hw hnw ho' hn' hs hs' hlow (by omega) (by omega) hlast]
  constructor
  · intro h
    refine ⟨fun g hg iK jK hi hj hij => ?_, fun g _ hst => ?_, fun hnone => ?_⟩
    · have hfg : f = g := by
        rcases lt_trichotomy f g with hlt | heq | hlt
        · exact absurd hg.1 (hf.2 g hlt)
        · exact heq
        · exact absurd hf.1 (hg.2 f hlt)
      exact hfg ▸ h iK jK hi hj hij
    · have := five_le_started hst
      omega
    · rw [hnone] at hpos
      cases hpos
  · exact fun h => h.reference f hf

include ho hn hw hnw in
/-- In a window without a wrap the packet numbers have the sequence of the orders. -/
theorem packetNo_lt_iff (iK jK : Fin 6) :
    (w.localStruct iK).packetNo < (w.localStruct jK).packetNo ↔
      (w.localStruct iK).order < (w.localStruct jK).order := by
  have h1 := hw iK
  have h2 := hw jK
  have h3 := ho.lt iK
  have h4 := ho.lt jK
  simp only [nFileBuffersAtATime] at h1 h2
  rw [hn.packetNo, hn.packetNo, hnw.blockNo ho.next h1 (by omega), hnw.blockNo ho.next h2 (by omega)]
  omega

include ho hn hw hnw ho' hs hs' in
/-- Nothing is full and the reference is left as it was. -/
theorem inWindow_iff_of_carried (h4 : (startedPlaces cfg w).card ≤ 4) (hnone : fullPlaces w = ∅)
    (hlast : w'.lastSentPacketNo = w.lastSentPacketNo) : InWindow w'' ↔ FlushInOrder cfg w := by
  have hcard : (fullPlaces w).card = 0 := by rw [hnone]; rfl
  have hkept : ∀ iK, w'.localStruct iK = w.localStruct iK := fun iK => hs.kept iK (by simp [hnone])
  have hnotFull : ∀ iK, (w.localStruct iK).nToFull ≠ 0 := fun iK h0 => by
    have : iK ∈ fullPlaces w := Finset.mem_filter.mpr ⟨Finset.mem_univ _, h0⟩
    simp [hnone] at this
  have hw' : InWindow w' := by
    intro iK
    rw [hs.nextOrder, hcard, hkept]
    exact hw iK
  rw [hs'.inWindow_iff ho' hw', hlast]
  simp only [Finset.mem_filter, Finset.mem_univ, true_and, hkept, ← packetNo_lt_iff ho hn hw hnw]
  rcases Int.lt_or_le (nFileBuffersAtATime / 2) w.lastSentPacketNo with h3 | h3
  · -- A larger reference is an upper bound, so what it selects is older than the rest.
    simp only [isEarlier_of_lt h3]
    refine ⟨fun _ => ⟨fun f hf => absurd hf.1 (hnotFull f), fun f hf => absurd hf (hnotFull f), fun _ _ hle => ?_⟩,
      fun _ iK hi jK hj => by omega⟩
    exact absurd hle (Int.not_le.mpr h3)
  · simp only [isEarlier_of_le h3]
    constructor
    · intro h
      refine ⟨fun f hf => absurd hf.1 (hnotFull f), fun f hf => absurd hf (hnotFull f), fun _ _ _ => ?_⟩
      rintro ⟨jK, hj⟩ iK
      rw [isEarlier_of_le h3] at hj
      by_contra hlow
      exact hlow (Nat.lt_trans hj.1 (h iK (fun hi => hlow hi.1) jK hj))
    · rintro h iK hi jK hj
      have hupper := h.halves hnone h4 h3 ⟨jK, (isEarlier_of_le h3).mpr hj⟩ iK
      have : ¬((w.localStruct iK).packetNo : Int) < _ := fun hlt => hi ⟨hupper, hlt⟩
      omega

include ho hn hw hnw ho' hn' hs hs' in
/-- An iteration keeps the window exactly when the blocks before its flush are in order. -/
theorem inWindow_iff_flushInOrder
    (hlast : (5 ≤ (startedPlaces cfg w).card ∧
        w'.lastSentPacketNo = ((w'.nextStructPacketNo + (2 ^ 64 - 384)) % 2 ^ 38 : Nat)) ∨
      ((startedPlaces cfg w).card ≤ 4 ∧ ∃ f, LastFull w f ∧ w'.lastSentPacketNo = (w.localStruct f).packetNo) ∨
      ((startedPlaces cfg w).card ≤ 4 ∧ fullPlaces w = ∅ ∧ w'.lastSentPacketNo = w.lastSentPacketNo)) :
    InWindow w'' ↔ FlushInOrder cfg w := by
  rcases hlast with ⟨h5, hlast⟩ | ⟨h4, f, hf, hlast⟩ | ⟨h4, hnone, hlast⟩
  · exact inWindow_iff_of_mostlyStarted ho hw hnw ho' hn' hs hs' h5 hlast
  · exact inWindow_iff_of_lastFull ho hn hw hnw ho' hn' hs hs' h4 hf hlast
  · exact inWindow_iff_of_carried ho hn hw hnw ho' hs hs' h4 hnone hlast

end Iteration

/-! ### Runs -/

theorem takeIn_order (cfg : Config) (slots : Nat → Nat) (w : Worker) (packets : List Packet) :
    ((takeIn packets).foldl (Worker.exec cfg slots) w).nextOrder = w.nextOrder ∧
      ∀ iK, (((takeIn packets).foldl (Worker.exec cfg slots) w).localStruct iK).order = (w.localStruct iK).order := by
  have hpackets : ∀ w : Worker, ((packets.map Instr.packet).foldl (Worker.exec cfg slots) w).nextOrder = w.nextOrder ∧
      ∀ iK, (((packets.map Instr.packet).foldl (Worker.exec cfg slots) w).localStruct iK).order =
        (w.localStruct iK).order := by
    induction packets with
    | nil => exact fun w => ⟨rfl, fun _ => rfl⟩
    | cons p packets ih =>
      intro w
      obtain ⟨h1, h2⟩ := ih (w.packetStep cfg p)
      exact ⟨h1.trans (w.packetStep_frame cfg p).1, fun iK => (h2 iK).trans (w.packetStep_order cfg p iK)⟩
  have hscan : (w.firstScan cfg packets).nextOrder = w.nextOrder ∧
      ∀ iK, ((w.firstScan cfg packets).localStruct iK).order = (w.localStruct iK).order := by
    unfold Worker.firstScan
    split <;> exact ⟨rfl, fun _ => rfl⟩
  obtain ⟨h1, h2⟩ := hpackets (w.firstScan cfg packets)
  exact ⟨h1.trans hscan.1, fun iK => (h2 iK).trans (hscan.2 iK)⟩

theorem inWindow_beforeFlush (pre : List UdpBuffer) (b : UdpBuffer) :
    InWindow (beforeFlush cfg slots u pre b) ↔ InWindow (workerWork cfg slots u pre) := by
  rw [beforeFlush, workerAfter_append]
  obtain ⟨h1, h2⟩ := takeIn_order cfg slots (workerAfter cfg slots u (program pre)) b.packets
  simp only [InWindow, h1, h2]
  rfl

theorem Reached.workerWork {pre : List UdpBuffer} (hpre : pre <+: bufs) :
    Reached cfg slots u bufs (workerWork cfg slots u pre) := by
  obtain ⟨post, rfl⟩ := hpre
  exact ⟨program pre, program_append pre post ▸ List.prefix_append .., rfl⟩

/-- The window after an iteration on at least one packet. -/
theorem inWindow_snoc (pre : List UdpBuffer) {b : UdpBuffer} (hb : b.packets ≠ [])
    (hnw : NoWrap (beforeFlush cfg slots u pre b)) (hw : InWindow (workerWork cfg slots u pre)) :
    InWindow (workerWork cfg slots u (pre ++ [b])) ↔ FlushInOrder cfg (beforeFlush cfg slots u pre b) := by
  have hprog : program (pre ++ [b]) = program pre ++ takeIn b.packets ++ sendFull ++ sendEarlier := by
    rw [program_append, program_singleton hb]
    simp only [List.append_assoc]
  have hr : Reached cfg slots u (pre ++ [b]) (beforeFlush cfg slots u pre b) :=
    ⟨_, hprog ▸ by simp only [List.append_assoc, List.prefix_append_right_inj]; exact List.prefix_append .., rfl⟩
  have hr' : Reached cfg slots u (pre ++ [b]) (beforeEarlier cfg slots u pre b) :=
    ⟨_, hprog ▸ List.prefix_append .., rfl⟩
  have hd : (beforeFlush cfg slots u pre b).firstLoopDone = true := by
    rw [beforeFlush, workerAfter_append]
    exact (Worker.foldl_firstLoopDone cfg slots (Worker.firstScan_firstLoopDone ..) _).1
  obtain ⟨w', heq, hs, hlast⟩ := sendFull_cases cfg slots (beforeFlush cfg slots u pre b)
  rw [beforeFlush, ← workerAfter_append] at heq
  obtain rfl : beforeEarlier cfg slots u pre b = w' := heq
  have hpass := (earlierPass cfg slots (beforeEarlier cfg slots u pre b) (List.finRange 6) (List.nodup_finRange 6)).2
  rw [List.toFinset_finRange] at hpass
  have hwork : workerWork cfg slots u (pre ++ [b]) =
      (List.finRange 6).foldl (Worker.earlierStep cfg slots) (beforeEarlier cfg slots u pre b) := by
    rw [workerWork, hprog, workerAfter_append, sendEarlier, List.foldl_map]
    rfl
  rw [hwork]
  exact inWindow_iff_flushInOrder hr.ordered (hr.numbered hd) ((inWindow_beforeFlush pre b).mpr hw) hnw hr'.ordered
    (hr'.numbered (beforeEarlier_firstLoopDone ..)) hs hpass hlast

/-- The window over a whole run without a wrap. -/
theorem inWindow_iff
    (h : ∀ pre b post, bufs = pre ++ b :: post → b.packets ≠ [] → NoWrap (beforeFlush cfg slots u pre b)) :
    (∀ pre, pre <+: bufs → InWindow (workerWork cfg slots u pre)) ↔
      ∀ pre b post, bufs = pre ++ b :: post → b.packets ≠ [] → FlushInOrder cfg (beforeFlush cfg slots u pre b) := by
  constructor
  · rintro hw pre b post rfl hb
    refine (inWindow_snoc pre hb (h pre b post rfl hb) (hw pre (List.prefix_append ..))).mp (hw _ ?_)
    exact ⟨post, by simp⟩
  · intro hf pre
    induction pre using List.reverseRecOn with
    | nil =>
      intro _ iK
      have : iK.val < 6 := iK.isLt
      show 7 ≤ iK.val + 1 + 6
      omega
    | append_singleton pre b ih =>
      rintro ⟨post, rfl⟩
      have hw := ih ⟨b :: post, by simp⟩
      by_cases hb : b.packets = []
      · have : program (pre ++ [b]) = program pre := by simp [program, iteration, hb]
        rw [workerWork, this]
        exact hw
      · exact (inWindow_snoc pre hb (h pre b post (by simp) hb) hw).mpr (hf pre b post (by simp) hb)

theorem consecutive_iff_noneLeftBehind (ho : Ordered w) (ha : Accounted w) : Consecutive w ↔ NoneLeftBehind w := by
  rw [← inWindow_iff_noneLeftBehind ho ha]
  refine ⟨fun h iK => ?_, fun h => h.consecutive ho⟩
  have := ((h _).mp ⟨iK, rfl⟩).1
  omega

/-- In a run without a wrap, no iteration leaves a block behind exactly when each finds the blocks before its
    flush in order. -/
theorem noneLeftBehind_iff (cfg : Config) (slots : Nat → Nat) (u : Uninit) (bufs : List UdpBuffer)
    (h : ∀ pre b post, bufs = pre ++ b :: post → b.packets ≠ [] → NoWrap (beforeFlush cfg slots u pre b)) :
    (∀ pre, pre <+: bufs → (NoneLeftBehind (workerWork cfg slots u pre) ↔ Consecutive (workerWork cfg slots u pre))) ∧
      ((∀ pre, pre <+: bufs → NoneLeftBehind (workerWork cfg slots u pre)) ↔
        ∀ pre b post, bufs = pre ++ b :: post → b.packets ≠ [] →
          FlushInOrder cfg (beforeFlush cfg slots u pre b)) := by
  refine ⟨fun pre hpre => ?_, ?_⟩
  · have hr : Reached cfg slots u bufs (workerWork cfg slots u pre) := Reached.workerWork hpre
    exact (consecutive_iff_noneLeftBehind hr.ordered hr.accounted).symm
  · rw [← inWindow_iff h]
    refine forall₂_congr fun pre hpre => ?_
    have hr : Reached cfg slots u bufs (workerWork cfg slots u pre) := Reached.workerWork hpre
    exact (inWindow_iff_noneLeftBehind hr.ordered hr.accounted).symm

theorem noWrap_fiveStarted : NoWrap (workerAfter singleChannel id zeroed (takeIn fivePackets)) := by
  constructor <;> decide +kernel

/-- The iteration hands over three blocks. -/
theorem noneLeftBehind_iff_fiveStarted :
    (workerWork singleChannel id zeroed [fiveStarted]).log.countP Event.isEarly = 3 ∧
      (∀ pre, pre <+: [fiveStarted] →
        (NoneLeftBehind (workerWork singleChannel id zeroed pre) ↔
          Consecutive (workerWork singleChannel id zeroed pre))) ∧
      ((∀ pre, pre <+: [fiveStarted] → NoneLeftBehind (workerWork singleChannel id zeroed pre)) ↔
        ∀ pre b post, [fiveStarted] = pre ++ b :: post → b.packets ≠ [] →
          FlushInOrder singleChannel (beforeFlush singleChannel id zeroed pre b)) := by
  refine ⟨?_, noneLeftBehind_iff singleChannel id zeroed [fiveStarted] fun pre b post heq _ => ?_⟩
  · rw [workerWork, program_fiveStarted]
    decide +kernel
  · obtain ⟨rfl, rfl⟩ := singleton_split heq
    rw [beforeFlush, packets_fiveStarted]
    exact noWrap_fiveStarted

/-! ### A block left behind -/

/-- The place of the local block that a packet goes into. -/
def hit (cfg : Config) (w : Worker) (p : Packet) : Option (Fin 6) :=
  (cfg.accepts w.antNumbers p.header).bind fun _ =>
    findStructIndex w.localStruct (getPacketFilter (getPcktNo p.header))

theorem hit_packetStep (w : Worker) (q p : Packet) : hit cfg (w.packetStep cfg q) p = hit cfg w p := by
  obtain ⟨-, -, -, -, hant, -⟩ := w.packetStep_frame cfg q
  simp [hit, hant, findStructIndex]

/-- The packet loop takes one off the count of a block for every packet that goes into it. -/
theorem foldl_packet_nToFull (w : Worker) (packets : List Packet) (iK : Fin 6) :
    (((packets.map Instr.packet).foldl (Worker.exec cfg slots) w).localStruct iK).nToFull =
      (w.localStruct iK).nToFull - packets.countP (hit cfg w · == some iK) := by
  induction packets generalizing w with
  | nil => simp
  | cons p packets ih =>
    rw [List.map_cons, List.foldl_cons]
    show (((packets.map Instr.packet).foldl (Worker.exec cfg slots) (w.packetStep cfg p)).localStruct iK).nToFull = _
    rw [ih (w.packetStep cfg p), List.countP_cons]
    simp only [hit_packetStep]
    have hstep : ((w.packetStep cfg p).localStruct iK).nToFull =
        (w.localStruct iK).nToFull - if hit cfg w p == some iK then 1 else 0 := by
      rcases w.packetStep_cases cfg p with ⟨hno, h⟩ | ⟨a, c, s, ha, hs, h⟩ <;> rw [h]
      · have : hit cfg w p = none := by
          rw [hit, Option.bind_eq_none_iff]
          rintro ⟨a, c⟩ hac
          exact hno a c hac
        simp [this]
      · have hhit : hit cfg w p = some s := by simp [hit, ha, hs]
        by_cases hi : iK = s
        · subst hi
          simp [hhit]
        · simp [hhit, Function.update_of_ne hi, Ne.symm hi]
    rw [hstep]
    split <;> omega

theorem beforeFlush_nil (cfg : Config) (slots : Nat → Nat) (u : Uninit) (b : UdpBuffer) :
    beforeFlush cfg slots u [] b =
      (b.packets.map Instr.packet).foldl (Worker.exec cfg slots)
        ((Worker.start cfg slots u).firstScan cfg b.packets) :=
  rfl

theorem beforeFlush_nil_order (cfg : Config) (slots : Nat → Nat) (u : Uninit) (b : UdpBuffer) :
    (beforeFlush cfg slots u [] b).nextOrder = 7 ∧
      ∀ iK, ((beforeFlush cfg slots u [] b).localStruct iK).order = iK + 1 :=
  takeIn_order cfg slots (.start cfg slots u) b.packets

/-- A packet of each of the first five blocks, and the sixth whole. -/
def newestFullPackets : List Packet :=
  (List.range 5).map (fun k => .numbered (k * 128)) ++ (List.range 128).map fun j => .numbered (640 + j)

def newestFull : UdpBuffer := .ofPackets newestFullPackets (by simp [newestFullPackets]; decide)

theorem packets_newestFull : newestFull.packets = newestFullPackets := by
  apply UdpBuffer.packets_ofPackets
  decide +kernel

theorem nToFull_newestFull (iK : Fin 6) :
    ((beforeFlush singleChannel id zeroed [] newestFull).localStruct iK).nToFull = if iK = 5 then 0 else 127 := by
  have hcount : ∀ iK, newestFullPackets.countP
      (hit singleChannel ((Worker.start singleChannel id zeroed).firstScan singleChannel newestFullPackets) · ==
        some iK) =
        if iK = 5 then 128 else 1 := by
    decide +kernel
  rw [beforeFlush_nil, packets_newestFull, foldl_packet_nToFull, hcount]
  have hfirst :
      (((Worker.start singleChannel id zeroed).firstScan singleChannel newestFullPackets).localStruct iK).nToFull =
        128 := by
    simp [Worker.firstScan, Worker.start]
    decide
  rw [hfirst]
  split <;> rfl

theorem noWrap_newestFull : NoWrap (beforeFlush singleChannel id zeroed [] newestFull) := by
  have hne : newestFull.packets ≠ [] := by simp [packets_newestFull, newestFullPackets]
  have hfirst : firstBatch [newestFull] = some newestFullPackets := by
    rw [← packets_newestFull]
    simp [firstBatch, hne]
  have hprog : takeIn newestFull.packets <+: program [newestFull] := by
    rw [program_singleton hne, List.append_assoc]
    exact List.prefix_append ..
  have hstart : (beforeFlush singleChannel id zeroed [] newestFull).packetStart = 0 := by
    have hzero : pktStart newestFullPackets = 0 := by decide +kernel
    rw [← hzero]
    exact (workerAfter_first _ _ _ hfirst hprog (by simp [takeIn])).2.1
  have hcard : (fullPlaces (beforeFlush singleChannel id zeroed [] newestFull)).card ≤ 6 := Finset.card_le_univ _
  refine ⟨by rw [hstart]; decide, ?_⟩
  rw [hstart, (beforeFlush_nil_order ..).1]
  simp only [nFileBuffersAtATime, timeIntPerBuffer]
  omega

/-- The full loop takes block 6, five others are started, and the middle of the window spares block 5. -/
theorem newestFull_leavesBehind : ¬NoneLeftBehind (workerWork singleChannel id zeroed [newestFull]) := by
  have hr : Reached singleChannel id zeroed [newestFull] (workerWork singleChannel id zeroed [newestFull]) :=
    Reached.workerWork List.prefix_rfl
  have hne : newestFull.packets ≠ [] := by simp [packets_newestFull, newestFullPackets]
  have hstart : InWindow (workerWork singleChannel id zeroed []) := by
    intro iK
    show 7 ≤ iK.val + 1 + 6
    omega
  rw [← inWindow_iff_noneLeftBehind hr.ordered hr.accounted]
  intro hw
  have horder := (inWindow_snoc [] hne noWrap_newestFull hstart).mp hw
  obtain ⟨iK, hi⟩ := horder.newest 5 (nToFull_newestFull 5) fun jK hj => by
    rw [Started, nToFull_newestFull, if_neg hj]
    decide
  have := iK.isLt
  rw [(beforeFlush_nil_order ..).2, (beforeFlush_nil_order ..).2] at hi
  have h5 : (5 : Fin 6).val = 5 := rfl
  omega

end VoltRec
