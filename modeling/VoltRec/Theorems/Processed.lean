import VoltRec.Theorems.InStep

/-! Which packets the worker processes while a block is local. They are those of the packet instructions that it
    executes between the call that gives the block its slot and the call that hands the block over. -/

namespace VoltRec

variable {cfg : Config} {slots : Nat → Nat} {u : Uninit} {w : Worker} {bufs : List UdpBuffer} {is : List Instr}
  {i : Instr}

def Instr.packet? : Instr → Option Packet
  | .packet p => some p
  | _ => none

theorem packets_iteration (packets : List Packet) : (iteration packets).filterMap Instr.packet? = packets := by
  have hfull : ∀ l : List (Fin 6), (l.map Instr.full).filterMap Instr.packet? = [] := fun l => by
    simp [List.filterMap_map, Function.comp_def, Instr.packet?]
  have hearly : ∀ l : List (Fin 6), (l.map Instr.earlier).filterMap Instr.packet? = [] := fun l => by
    simp [List.filterMap_map, Function.comp_def, Instr.packet?]
  have htake : (packets.map Instr.packet).filterMap Instr.packet? = packets := by
    simp [List.filterMap_map, Function.comp_def, Instr.packet?]
  unfold iteration
  split
  · exact Eq.symm ‹_›
  · simp [takeIn, sendFull, sendEarlier, List.filterMap_cons, Instr.packet?, hfull, hearly, htake]

/-- The packets of the instructions `is` from `w` on, each with the state that it meets. -/
def processed (cfg : Config) (slots : Nat → Nat) : Worker → List Instr → List (Worker × Packet)
  | _, [] => []
  | w, i :: is => (i.packet?.map fun p => (w, p)).toList ++ processed cfg slots (w.exec cfg slots i) is

/-- Block `order` is one of the six. -/
def Worker.HasLocal (w : Worker) (order : Nat) : Prop := ∃ iK, (w.localStruct iK).order = order

instance (w : Worker) (order : Nat) : Decidable (w.HasLocal order) := inferInstanceAs (Decidable (∃ _, _))

/-- The packets processed while block `order` was local. -/
def packetsDuring (cfg : Config) (slots : Nat → Nat) (u : Uninit) (order : Nat) (is : List Instr) : List Packet :=
  ((processed cfg slots (.start cfg slots u) is).filter fun x => x.1.HasLocal order).map Prod.snd

theorem processed_append (w : Worker) (is js : List Instr) :
    processed cfg slots w (is ++ js) =
      processed cfg slots w is ++ processed cfg slots (is.foldl (Worker.exec cfg slots) w) js := by
  induction is generalizing w with
  | nil => rfl
  | cons i is ih => rw [List.cons_append, processed, ih, ← List.append_assoc, processed, List.foldl_cons]

theorem processed_snoc (is : List Instr) (i : Instr) :
    processed cfg slots (.start cfg slots u) (is ++ [i]) =
      processed cfg slots (.start cfg slots u) is ++
        (i.packet?.map fun p => (workerAfter cfg slots u is, p)).toList := by
  rw [processed_append, processed, processed, List.append_nil, workerAfter]

theorem packetsDuring_snoc (order : Nat) (is : List Instr) (i : Instr) :
    packetsDuring cfg slots u order (is ++ [i]) = packetsDuring cfg slots u order is ++
      if (workerAfter cfg slots u is).HasLocal order then i.packet?.toList else [] := by
  rw [packetsDuring, processed_snoc, List.filter_append, List.map_append, packetsDuring]
  refine congrArg _ ?_
  cases i.packet? with
  | none => simp
  | some p =>
    by_cases h : (workerAfter cfg slots u is).HasLocal order <;> simp [h]

variable (cfg slots u) in
theorem packetsDuring_sublist (order : Nat) (is : List Instr) :
    (packetsDuring cfg slots u order is).Sublist (is.filterMap Instr.packet?) := by
  induction is using List.reverseRecOn with
  | nil => exact List.Sublist.refl _
  | append_singleton is i ih =>
    have hone : [i].filterMap Instr.packet? = i.packet?.toList := by cases h : i.packet? <;> simp [h]
    rw [packetsDuring_snoc, List.filterMap_append, hone]
    split
    · exact ih.append (List.Sublist.refl _)
    · exact ih.append (List.nil_sublist _)

theorem mem_processed {x : Worker × Packet} (h : x ∈ processed cfg slots (.start cfg slots u) is) :
    ∃ pre, pre ++ [.packet x.2] <+: is ∧ x.1 = workerAfter cfg slots u pre := by
  induction is using List.reverseRecOn with
  | nil => cases h
  | append_singleton is i ih =>
    rw [processed_snoc] at h
    rcases List.mem_append.mp h with h | h
    · obtain ⟨pre, hpre, hx⟩ := ih h
      exact ⟨pre, hpre.trans (List.prefix_append is [i]), hx⟩
    · cases i with
      | packet p =>
        obtain rfl := List.mem_singleton.mp h
        exact ⟨is, List.prefix_rfl, rfl⟩
      | scan | startFlush | full | checkStarted | earlier => cases h

/-! ### The log -/

def Event.handed? : Event → Option Handed
  | .full b => some b
  | .early b => some b
  | _ => none

/-- The packets logged since block `order` got its slot. -/
def packetsSince (order : Nat) (log : List Event) : List Packet :=
  log.foldl (fun packets e =>
    match e with
    | .packet p => packets ++ [p]
    | .alloc k _ => if k = order then [] else packets
    | _ => packets) []

/-- The blocks handed over, each with the packets logged since it got its slot. -/
def handedOver (log : List Event) : List (Handed × List Packet) :=
  (List.range log.length).filterMap fun i =>
    (log[i]?.bind Event.handed?).map fun b => (b, packetsSince b.order (log.take i))

section Log
variable (k : Nat) (log : List Event)

@[simp] theorem packetsSince_packet (p : Packet) :
    packetsSince k (log ++ [.packet p]) = packetsSince k log ++ [p] := by
  simp [packetsSince]
@[simp] theorem packetsSince_alloc (order i : Nat) :
    packetsSince k (log ++ [.alloc order i]) = if order = k then [] else packetsSince k log := by
  simp [packetsSince]
@[simp] theorem packetsSince_mostlyStarted (n : Nat) :
    packetsSince k (log ++ [.mostlyStarted n]) = packetsSince k log := by
  simp [packetsSince]

theorem packetsSince_handed {e : Event} {b : Handed} (he : e.handed? = some b) :
    packetsSince k (log ++ [e]) = packetsSince k log := by
  cases e <;> simp [Event.handed?] at he <;> simp [packetsSince]

theorem handedOver_append (e : Event) :
    handedOver (log ++ [e]) =
      handedOver log ++ (e.handed?.map fun b => (b, packetsSince b.order log)).toList := by
  have hbefore : (List.range log.length).filterMap (fun i =>
      ((log ++ [e])[i]?.bind Event.handed?).map fun b => (b, packetsSince b.order ((log ++ [e]).take i))) =
      handedOver log := by
    refine List.filterMap_congr fun i hi => ?_
    have hi := List.mem_range.mp hi
    rw [List.getElem?_append_left hi, List.take_append_of_le_length (Nat.le_of_lt hi)]
  rw [handedOver, List.length_append, List.length_singleton, List.range_succ, List.filterMap_append, hbefore]
  cases h : e.handed? <;> simp [h]

variable {k log}

theorem handedOver_of_none {e : Event} (h : e.handed? = none) : handedOver (log ++ [e]) = handedOver log := by
  simp [handedOver_append, h]

theorem handedOver_of_some {e : Event} {b : Handed} (h : e.handed? = some b) :
    handedOver (log ++ [e]) = handedOver log ++ [(b, packetsSince b.order log)] := by
  simp [handedOver_append, h]

theorem handedOver_fst : (handedOver log).map Prod.fst = log.filterMap Event.handed? := by
  induction log using List.reverseRecOn with
  | nil => rfl
  | append_singleton log e ih =>
    rw [handedOver_append, List.map_append, ih, List.filterMap_append]
    cases h : e.handed? <;> simp [h]

theorem mem_handedOver {pre suf : List Event} {e : Event} {b : Handed} (h : e.handed? = some b) :
    (b, packetsSince b.order pre) ∈ handedOver (pre ++ e :: suf) :=
  List.mem_filterMap.mpr ⟨pre.length, by simp, by simp [h]⟩

end Log

theorem packetsSince_allocs {ι : Type} (order index : ι → Nat) (k : Nat) (l : List ι) :
    packetsSince k (l.map fun x => .alloc (order x) (index x)) = [] := by
  induction l using List.reverseRecOn with
  | nil => rfl
  | append_singleton l x ih => simp [ih]

/-! ### One instruction -/

/-- What an instruction leaves alone that hands no block over, and the packet that it logs. -/
structure Worker.Keeps (w : Worker) (i : Instr) (w' : Worker) : Prop where
  order : ∀ iK, (w'.localStruct iK).order = (w.localStruct iK).order
  nextOrder : w'.nextOrder = w.nextOrder
  handed : handedOver w'.log = handedOver w.log
  since : ∀ k, packetsSince k w'.log = packetsSince k w.log ++ i.packet?.toList

/-- An instruction hands one block over, or none. -/
theorem Worker.exec_cases (cfg : Config) (slots : Nat → Nat) (w : Worker) (i : Instr) :
    w.Keeps i (w.exec cfg slots i) ∨
      ∃ (iK : Fin 6) (e : Handed → Event) (m : Int) (n : Nat), (i = .full iK ∨ i = .earlier iK) ∧
        (∀ b, (e b).handed? = some b) ∧
        w.exec cfg slots i = { w with lastSentPacketNo := m, noMissing := n }.handOver cfg slots iK e := by
  have hquiet : ∀ k, packetsSince k w.log = packetsSince k w.log ++ [] := fun k => (List.append_nil _).symm
  cases i with
  | scan packets =>
    rw [exec, firstScan]
    split <;> exact Or.inl ⟨fun _ => rfl, rfl, rfl, hquiet⟩
  | packet p =>
    obtain ⟨hnext, -, -, -, -, -, hlog⟩ := w.packetStep_frame cfg p
    exact Or.inl ⟨w.packetStep_order cfg p, hnext, hlog ▸ handedOver_of_none rfl, fun k =>
      (congrArg (packetsSince k) hlog).trans (packetsSince_packet k w.log p)⟩
  | startFlush => exact Or.inl ⟨fun _ => rfl, rfl, rfl, hquiet⟩
  | full iK =>
    rw [exec]
    rcases w.fullStep_cases cfg slots iK with ⟨-, hs⟩ | ⟨-, hs⟩ <;> rw [hs]
    · exact Or.inr ⟨iK, .full, _, w.noMissing, Or.inl rfl, fun _ => rfl, rfl⟩
    · exact Or.inl ⟨fun _ => rfl, rfl, rfl, hquiet⟩
  | checkStarted =>
    rw [exec]
    rcases w.checkStarted_cases with ⟨-, hs⟩ | ⟨-, hs⟩ <;> rw [hs]
    · exact Or.inl ⟨fun _ => rfl, rfl, handedOver_of_none rfl, fun k =>
        (packetsSince_mostlyStarted k w.log _).trans (hquiet k)⟩
    · exact Or.inl ⟨fun _ => rfl, rfl, rfl, hquiet⟩
  | earlier iK =>
    rw [exec]
    rcases w.earlierStep_cases cfg slots iK with ⟨-, n, hs⟩ | ⟨-, hs⟩ <;> rw [hs]
    · exact Or.inr ⟨iK, .early, w.lastSentPacketNo, n, Or.inr rfl, fun _ => rfl, rfl⟩
    · exact Or.inl ⟨fun _ => rfl, rfl, rfl, hquiet⟩

/-! ### Runs -/

/-- The log tells which packets were processed while a block was local. -/
structure Traced (during : Nat → List Packet) (w : Worker) : Prop where
  here : ∀ iK, during (w.localStruct iK).order = packetsSince (w.localStruct iK).order w.log
  /-- A block handed over does not come back. -/
  gone : ∀ x ∈ handedOver w.log, x.1.order < w.nextOrder ∧ ¬w.HasLocal x.1.order
  handed : ∀ x ∈ handedOver w.log, during x.1.order = x.2
  next : ∀ k, w.nextOrder ≤ k → during k = []

theorem Ordered.not_hasLocal (ho : Ordered w) {k : Nat} (hk : w.nextOrder ≤ k) : ¬w.HasLocal k := by
  rintro ⟨iK, hi⟩
  have := ho.lt iK
  omega

theorem Traced.keep {during : Nat → List Packet} {w' : Worker} (h : Traced during w) (ho : Ordered w)
    (hk : w.Keeps i w') :
    Traced (fun k => during k ++ if w.HasLocal k then i.packet?.toList else []) w' where
  here iK := by
    rw [hk.order, hk.since, if_pos ⟨iK, rfl⟩, h.here]
  gone x hx := by
    obtain ⟨hlt, hnot⟩ := h.gone x (hk.handed ▸ hx)
    refine ⟨hk.nextOrder ▸ hlt, fun ⟨iK, hi⟩ => hnot ⟨iK, ?_⟩⟩
    rw [← hk.order, hi]
  handed x hx := by
    have hx := hk.handed ▸ hx
    rw [if_neg (h.gone x hx).2, List.append_nil, h.handed x hx]
  next k hlt := by
    rw [hk.nextOrder] at hlt
    rw [if_neg (ho.not_hasLocal hlt), List.append_nil, h.next k hlt]

theorem Traced.handOver {during : Nat → List Packet} (h : Traced during w) (ho : Ordered w) (iK : Fin 6)
    {e : Handed → Event} (he : ∀ b, (e b).handed? = some b) (m : Int) (n : Nat) :
    Traced during ({ w with lastSentPacketNo := m, noMissing := n }.handOver cfg slots iK e) := by
  have hlog : ∀ a b : Event, w.log ++ [a, b] = w.log ++ [a] ++ [b] := by simp
  -- Block `iK` goes out, and block `nextOrder` comes in.
  have hlocal : ∀ k, ({ w with lastSentPacketNo := m, noMissing := n }.handOver cfg slots iK e).HasLocal k →
      k = w.nextOrder ∨ ∃ jK, jK ≠ iK ∧ (w.localStruct jK).order = k := by
    rintro k ⟨jK, hj⟩
    by_cases hji : jK = iK
    · subst hji
      rw [Worker.handOver_localStruct, Function.update_self] at hj
      exact Or.inl hj.symm
    · rw [Worker.handOver_localStruct, Function.update_of_ne hji] at hj
      exact Or.inr ⟨jK, hji, hj⟩
  have hover : handedOver ({ w with lastSentPacketNo := m, noMissing := n }.handOver cfg slots iK e).log =
      handedOver w.log ++ [(w.handed cfg iK, packetsSince (w.localStruct iK).order w.log)] := by
    rw [Worker.handOver_log, hlog, handedOver_of_none (e := .alloc _ _) rfl, handedOver_of_some (he _)]
    rfl
  refine ⟨fun jK => ?_, fun x hx => ?_, fun x hx => ?_, fun k hk => ?_⟩
  · rw [Worker.handOver_log, hlog, packetsSince_alloc, packetsSince_handed _ _ (he _), Worker.handOver_localStruct]
    by_cases hj : jK = iK
    · subst hj
      rw [Function.update_self]
      exact (h.next _ (Nat.le_refl _)).trans (if_pos rfl).symm
    · rw [Function.update_of_ne hj, if_neg (Nat.ne_of_gt (ho.lt jK))]
      exact h.here jK
  · rw [hover] at hx
    rw [Worker.handOver_nextOrder]
    rcases List.mem_append.mp hx with hx | hx
    · obtain ⟨hlt, hnot⟩ := h.gone x hx
      refine ⟨Nat.lt_succ_of_lt hlt, fun hin => ?_⟩
      rcases hlocal _ hin with heq | ⟨jK, -, heq⟩
      · exact Nat.ne_of_lt hlt heq
      · exact hnot ⟨jK, heq⟩
    · obtain rfl := List.mem_singleton.mp hx
      have hlt := ho.lt iK
      refine ⟨Nat.lt_succ_of_lt hlt, fun hin => ?_⟩
      rcases hlocal _ hin with heq | ⟨jK, hj, heq⟩
      · exact Nat.ne_of_lt hlt heq
      · exact hj (ho.inj heq)
  · rw [hover] at hx
    rcases List.mem_append.mp hx with hx | hx
    · exact h.handed x hx
    · obtain rfl := List.mem_singleton.mp hx
      exact h.here iK
  · exact h.next k (Nat.le_of_succ_le hk)

variable (cfg slots u) in
theorem traced (hp : is <+: program bufs) :
    Traced (fun k => packetsDuring cfg slots u k is) (workerAfter cfg slots u is) := by
  induction is using List.reverseRecOn with
  | nil =>
    have hnil : handedOver (Worker.start cfg slots u).log = [] := by
      simp [Worker.start, handedOver, List.finRange_succ, Event.handed?, List.range_succ]
    refine ⟨fun iK => (packetsSince_allocs _ _ _ _).symm, fun x hx => ?_, fun x hx => ?_, fun _ _ => rfl⟩
    · exact absurd (hnil ▸ hx) List.not_mem_nil
    · exact absurd (hnil ▸ hx) List.not_mem_nil
  | append_singleton is i ih =>
    have hp' := (List.prefix_append is [i]).trans hp
    have ho : Ordered (workerAfter cfg slots u is) := Reached.ordered ⟨is, hp', rfl⟩
    have h := ih hp'
    simp only [packetsDuring_snoc, workerAfter_snoc]
    rcases (workerAfter cfg slots u is).exec_cases cfg slots i with hk | ⟨iK, e, m, n, hi, he, hs⟩
    · exact h.keep ho hk
    · have hnone : i.packet? = none := by rcases hi with rfl | rfl <;> rfl
      simp only [hnone, Option.toList_none, ite_self, List.append_nil]
      exact hs ▸ h.handOver ho iK he m n

theorem handed_from (hp : is <+: program bufs) {x : Handed × List Packet}
    (hx : x ∈ handedOver (workerAfter cfg slots u is).log) :
    ∃ pre iK, pre <+: is ∧ (workerAfter cfg slots u pre).firstLoopDone = true ∧
      x.1 = (workerAfter cfg slots u pre).handed cfg iK := by
  induction is using List.reverseRecOn with
  | nil =>
    have hnil : handedOver (Worker.start cfg slots u).log = [] := by
      simp [Worker.start, handedOver, List.finRange_succ, Event.handed?, List.range_succ]
    exact absurd (hnil ▸ hx) List.not_mem_nil
  | append_singleton is i ih =>
    have hp' := (List.prefix_append is [i]).trans hp
    have hold : x ∈ handedOver (workerAfter cfg slots u is).log → ∃ pre iK, pre <+: is ++ [i] ∧
        (workerAfter cfg slots u pre).firstLoopDone = true ∧ x.1 = (workerAfter cfg slots u pre).handed cfg iK := by
      intro hx
      obtain ⟨pre, iK, hpre, hd, hfrom⟩ := ih hp' hx
      exact ⟨pre, iK, hpre.trans (List.prefix_append is [i]), hd, hfrom⟩
    rw [workerAfter_snoc] at hx
    rcases (workerAfter cfg slots u is).exec_cases cfg slots i with hk | ⟨iK, e, m, n, hi, he, hs⟩
    · exact hold (hk.handed ▸ hx)
    · rw [hs, Worker.handOver_log, List.append_cons, handedOver_of_none (e := .alloc _ _) rfl,
        handedOver_of_some (he _)] at hx
      rcases List.mem_append.mp hx with hx | hx
      · exact hold hx
      · obtain rfl := List.mem_singleton.mp hx
        refine ⟨is, iK, List.prefix_append is [i], workerAfter_done hp ?_, rfl⟩
        rintro packets rfl
        rcases hi with hi | hi <;> cases hi

end VoltRec
