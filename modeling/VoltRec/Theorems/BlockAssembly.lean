import VoltRec.Theorems.Cells
import VoltRec.Theorems.Pool
import VoltRec.Theorems.Processed

/-! What the blocks hold that the worker hands to the file pool. Each cell has the payload of the last packet
    that belongs to it among those processed while the block was local, and zeros where there was none. The
    file pool enters through its answers: a slot that it gives is not one that the worker still holds. -/

namespace VoltRec

variable {cfg : Config} {slots : Nat → Nat} {u : Uninit} {w : Worker} {bufs : List UdpBuffer}

/-! ### The contents of a block -/

/-- The packet belongs to cell `(r, a, c)` of the block with packet number `packetNo`. -/
def Packet.BelongsTo (cfg : Config) (antNumbers : List Nat) (packetNo r a c : Nat) (p : Packet) : Prop :=
  isVersionVolt p.header = true ∧ antNumbers[a]? = some (getAntNo p.header) ∧ cfg.firstChan ≤ getChanNo p.header ∧
    (getChanNo p.header - cfg.firstChan) / chansPerPacket = c ∧ getPcktNo p.header = packetNo + r

instance (cfg : Config) (antNumbers : List Nat) (packetNo r a c : Nat) :
    DecidablePred (Packet.BelongsTo cfg antNumbers packetNo r a c) :=
  fun _ => inferInstanceAs (Decidable (_ ∧ _ ∧ _ ∧ _ ∧ _))

/-- Byte `j` of a cell: that of the last packet that belongs there. -/
def cellByte (cfg : Config) (antNumbers : List Nat) (packetNo : Nat) (packets : List Packet) (r a c : Nat)
    (j : Fin rxDataLen) : UInt8 :=
  match (packets.filter fun p => p.BelongsTo cfg antNumbers packetNo r a c).getLast? with
  | some p => p.payload j
  | none => 0

/-- The buffer `m` of a block holds exactly what belongs there of `packets`. -/
def Exact (cfg : Config) (antNumbers : List Nat) (packetNo : Nat) (packets : List Packet) (m : Nat → UInt8) : Prop :=
  ∀ r a c, r < timeIntPerBuffer → a < cfg.nAnts → c < cfg.nchans → ∀ j : Fin rxDataLen,
    m (((r * cfg.nAnts + a) * cfg.nchans + c) * rxDataLen + j) = cellByte cfg antNumbers packetNo packets r a c j

theorem belongsTo_iff {antNumbers : List Nat} (ht : Table antNumbers) {packetNo : Nat}
    (hp : packetNo % timeIntPerBuffer = 0)
    {r a c : Nat} (hr : r < timeIntPerBuffer) (ha : a < cfg.nAnts) (hc : c < cfg.nchans) (p : Packet) :
    p.BelongsTo cfg antNumbers packetNo r a c ↔ cfg.accepts antNumbers p.header = some (a, c) ∧
      getPacketFilter (getPcktNo p.header) = packetNo ∧ getPacketRest (getPcktNo p.header) = r := by
  have hlt := getPcktNo_lt p.header
  rw [accepts_iff cfg ht, getPacketFilter_eq (by omega), getPacketRest_eq, Packet.BelongsTo]
  simp only [timeIntPerBuffer] at hp hr ⊢
  constructor
  · rintro ⟨h1, h2, h3, h4, h5⟩
    exact ⟨⟨h1, ha, h2, h3, h4, hc⟩, by omega, by omega⟩
  · rintro ⟨⟨h1, -, h2, h3, h4, -⟩, h5, h6⟩
    exact ⟨h1, h2, h3, h4, by omega⟩

section Exact
variable {antNumbers : List Nat} {packetNo : Nat} {packets : List Packet} {m : Nat → UInt8} {p : Packet}

theorem cellByte_append (cfg : Config) (antNumbers : List Nat) (packetNo : Nat) (packets : List Packet) (p : Packet)
    (r a c : Nat) (j : Fin rxDataLen) :
    cellByte cfg antNumbers packetNo (packets ++ [p]) r a c j =
      if p.BelongsTo cfg antNumbers packetNo r a c then p.payload j
      else cellByte cfg antNumbers packetNo packets r a c j := by
  by_cases h : p.BelongsTo cfg antNumbers packetNo r a c <;> simp [cellByte, List.filter_append, h]

/-- A buffer fresh from `memset` has no packet. -/
theorem exact_fill (cfg : Config) (antNumbers : List Nat) (packetNo : Nat) (m : Nat → UInt8) :
    Exact cfg antNumbers packetNo [] (Memory.fill m 0 cfg.dataLenOut 0) := by
  intro r a c hr ha hc j
  refine Memory.fill_of_lt ?_
  rw [cfg.dataLenOut_eq]
  exact Radix.lt_mul (cfg.cell_lt hr ha hc) j.isLt

/-- A packet that goes to no cell of the block. -/
theorem Exact.miss (h : Exact cfg antNumbers packetNo packets m)
    (hno : ∀ r a c, r < timeIntPerBuffer → a < cfg.nAnts → c < cfg.nchans →
      ¬p.BelongsTo cfg antNumbers packetNo r a c) :
    Exact cfg antNumbers packetNo (packets ++ [p]) m := by
  intro r a c hr ha hc j
  rw [h r a c hr ha hc j, cellByte_append, if_neg (hno r a c hr ha hc)]

/-- A packet that the loop copies into the block. -/
theorem Exact.store (h : Exact cfg antNumbers packetNo packets m) (ht : Table antNumbers)
    (hp : packetNo % timeIntPerBuffer = 0) {a c : Nat} (hacc : cfg.accepts antNumbers p.header = some (a, c))
    (hfilter : getPacketFilter (getPcktNo p.header) = packetNo) :
    Exact cfg antNumbers packetNo (packets ++ [p])
      (Memory.copy m (cfg.offset (getPacketRest (getPcktNo p.header)) a c) p.payload) := by
  obtain ⟨-, ha, -, -, -, hc⟩ := (accepts_iff cfg ht p.header a c).mp hacc
  have hr : getPacketRest (getPcktNo p.header) < timeIntPerBuffer := by
    rw [getPacketRest_eq]
    exact Nat.mod_lt _ (by decide)
  rw [cfg.offset_eq hr ha hc]
  intro r' a' c' hr' ha' hc' j
  rw [cellByte_append]
  by_cases hcell : cfg.cell r' a' c' = cfg.cell (getPacketRest (getPcktNo p.header)) a c
  · obtain ⟨rfl, rfl, rfl⟩ := cfg.cell_inj ha' hc' ha hc hcell
    rw [if_pos ((belongsTo_iff ht hp hr' ha' hc' p).mpr ⟨hacc, hfilter, rfl⟩)]
    exact Memory.copy_add j
  · have hnot : ¬p.BelongsTo cfg antNumbers packetNo r' a' c' := by
      intro hb
      obtain ⟨hacc', -, rfl⟩ := (belongsTo_iff ht hp hr' ha' hc' p).mp hb
      cases hacc'.symm.trans hacc
      exact hcell rfl
    rw [if_neg hnot, ← h r' a' c' hr' ha' hc' j]
    exact Memory.copy_of_not_mem (Radix.disjoint j.isLt hcell)

end Exact

/-! ### Slots and the log -/

def Event.call : Event → Option Call
  | .alloc _ index => some (.fetchEmptyBuffer index)
  | .full b => some (.returnBuffer b.index b.order b.dataLen)
  | .early b => some (.returnBuffer b.index b.order b.dataLen)
  | _ => none

/-- The worker has slot `index`, by the log. -/
def heldIn (index : Nat) (log : List Event) : Bool := heldAfter index (log.filterMap Event.call)

def Event.isAlloc : Event → Bool
  | .alloc _ _ => true
  | _ => false

theorem isAlloc_of_handed {e : Event} {b : Handed} (h : e.handed? = some b) : e.isAlloc = false := by
  cases e with
  | alloc => cases h
  | packet | full | mostlyStarted | early => rfl

/-- No slot was given to the worker while it held it. -/
def Fresh (log : List Event) : Prop :=
  ∀ pre order index suf, log = pre ++ .alloc order index :: suf → heldIn index pre = false

theorem Fresh.of_append {log es : List Event} (h : Fresh (log ++ es)) : Fresh log :=
  fun pre order index suf heq => h pre order index (suf ++ es) (by simp [heq])

/-- No slot was given to the worker while it held it, and fewer than 2^31 blocks were allocated. -/
structure Sound (log : List Event) : Prop where
  fresh : ∀ pre order index suf, log = pre ++ .alloc order index :: suf → heldIn index pre = false
  few : log.countP Event.isAlloc < 2 ^ 31

theorem Sound.of_append {log es : List Event} (h : Sound (log ++ es)) : Sound log where
  fresh := Fresh.of_append h.fresh
  few := by
    have := h.few
    rw [List.countP_append] at this
    omega

section Log
variable (k index : Nat) (log : List Event)

theorem heldIn_of_none {e : Event} (h : e.call = none) : heldIn index (log ++ [e]) = heldIn index log := by
  have : [e].filterMap Event.call = [] := by rw [List.filterMap_eq_nil_iff]; simpa using h
  rw [heldIn, List.filterMap_append, this, List.append_nil, heldIn]

@[simp] theorem heldIn_alloc (order i : Nat) :
    heldIn index (log ++ [.alloc order i]) = if i = index then true else heldIn index log := by
  simp [heldIn, heldAfter, Event.call]

theorem heldIn_handed {e : Event} {b : Handed} (he : e.handed? = some b) :
    heldIn index (log ++ [e]) = if b.index = index then false else heldIn index log := by
  cases e <;> simp [Event.handed?] at he <;> subst he <;> simp [heldIn, heldAfter, Event.call]

end Log

/-! ### The slots of the local blocks -/

/-- The local blocks have different slots, those that the worker holds. -/
structure Placed (w : Worker) : Prop where
  held : ∀ index, heldIn index w.log = true ↔ ∃ iK, (w.localStruct iK).index = index
  inj : Function.Injective fun iK => (w.localStruct iK).index

theorem heldIn_allocs {ι : Type} (order index : ι → Nat) (i : Nat) (l : List ι) :
    heldIn i (l.map fun x => .alloc (order x) (index x)) = true ↔ ∃ x ∈ l, index x = i := by
  induction l using List.reverseRecOn with
  | nil => simp [heldIn, heldAfter]
  | append_singleton l x ih =>
    rw [List.map_append, List.map_singleton, heldIn_alloc]
    by_cases hx : index x = i
    · simp [hx]
    · rw [if_neg hx, ih]
      simp [hx]

theorem nodup_allocs {ι : Type} (order index : ι → Nat) (l : List ι)
    (h : Fresh (l.map fun x => .alloc (order x) (index x))) : (l.map index).Nodup := by
  induction l using List.reverseRecOn with
  | nil => simp
  | append_singleton l x ih =>
    rw [List.map_append, List.map_singleton] at h
    have hx := h _ _ _ [] rfl
    rw [List.map_append, List.map_singleton, List.nodup_append]
    refine ⟨ih h.of_append, by simp, fun y hy z hz heq => ?_⟩
    obtain ⟨y, hyl, rfl⟩ := List.mem_map.mp hy
    obtain rfl := List.mem_singleton.mp hz
    have := (heldIn_allocs order index _ l).mpr ⟨y, hyl, heq⟩
    simp [hx] at this

theorem placed_start (h : Fresh (Worker.start cfg slots u).log) : Placed (.start cfg slots u) where
  held index := by
    have := heldIn_allocs (fun iK : Fin 6 => iK.val + 1) (fun iK => slots (iK.val + 1)) index (List.finRange 6)
    simpa [Worker.start] using this
  inj := by
    have hnodup := nodup_allocs (fun iK : Fin 6 => iK.val + 1) (fun iK => slots (iK.val + 1)) (List.finRange 6) h
    exact fun iK jK hij => List.inj_on_of_nodup_map hnodup (List.mem_finRange iK) (List.mem_finRange jK) hij

/-- The slot that the pool gives is the one just returned, or none of the six. -/
theorem Placed.handOver (h : Placed w) {iK : Fin 6} {e : Handed → Event} (he : ∀ b, (e b).handed? = some b)
    (hfresh : heldIn (slots w.nextOrder) (w.log ++ [e (w.handed cfg iK)]) = false) :
    (∀ jK, jK ≠ iK → (w.localStruct jK).index ≠ slots w.nextOrder) ∧ Placed (w.handOver cfg slots iK e) := by
  have hne : ∀ jK, jK ≠ iK → (w.localStruct jK).index ≠ slots w.nextOrder := by
    intro jK hj heq
    rw [heldIn_handed _ _ (he _)] at hfresh
    have hji : ¬(w.handed cfg iK).index = slots w.nextOrder := fun hi => hj (h.inj (heq.trans hi.symm))
    rw [if_neg hji, ← Bool.not_eq_true] at hfresh
    exact hfresh ((h.held _).mpr ⟨jK, heq⟩)
  have hlog : ∀ a b : Event, w.log ++ [a, b] = w.log ++ [a] ++ [b] := by simp
  refine ⟨hne, fun index => ?_, fun jK kK hjk => ?_⟩
  · rw [Worker.handOver_log, hlog, heldIn_alloc, heldIn_handed _ _ (he _), Worker.handOver_localStruct]
    by_cases hs : slots w.nextOrder = index
    · rw [if_pos hs]
      exact iff_of_true rfl ⟨iK, by rw [Function.update_self]; exact hs⟩
    · rw [if_neg hs]
      constructor
      · intro hheld
        split at hheld
        · cases hheld
        · rename_i hret
          obtain ⟨jK, hj⟩ := (h.held index).mp hheld
          have hji : jK ≠ iK := fun heq => hret (heq ▸ hj)
          exact ⟨jK, by rw [Function.update_of_ne hji]; exact hj⟩
      · rintro ⟨jK, hj⟩
        by_cases hji : jK = iK
        · subst hji
          rw [Function.update_self] at hj
          exact absurd hj hs
        · rw [Function.update_of_ne hji] at hj
          have hret : ¬(w.handed cfg iK).index = index := fun hi => hji (h.inj (hj.trans hi.symm))
          rw [if_neg hret]
          exact (h.held index).mpr ⟨jK, hj⟩
  · simp only [Worker.handOver_localStruct] at hjk
    by_cases hj : jK = iK <;> by_cases hk : kK = iK
    · rw [hj, hk]
    · subst hj
      rw [Function.update_self, Function.update_of_ne hk] at hjk
      exact absurd hjk.symm (hne kK hk)
    · subst hk
      rw [Function.update_self, Function.update_of_ne hj] at hjk
      exact absurd hjk (hne jK hj)
    · rw [Function.update_of_ne hj, Function.update_of_ne hk] at hjk
      exact h.inj hjk

theorem heldIn_of_fresh {iK : Fin 6} {e : Handed → Event} (hf : Fresh (w.handOver cfg slots iK e).log) :
    heldIn (slots w.nextOrder) (w.log ++ [e (w.handed cfg iK)]) = false :=
  hf _ w.nextOrder _ [] (by simp)

theorem Worker.log_exec (cfg : Config) (slots : Nat → Nat) (w : Worker) (i : Instr) :
    w.log <+: (w.exec cfg slots i).log := by
  cases i with
  | scan packets =>
    simp only [Worker.exec, Worker.firstScan]
    split <;> exact List.prefix_rfl
  | packet p =>
    simp only [Worker.exec, (w.packetStep_frame cfg p).2.2.2.2.2.2]
    exact List.prefix_append ..
  | startFlush => exact List.prefix_rfl
  | full iK =>
    rcases w.fullStep_cases cfg slots iK with ⟨-, hs⟩ | ⟨-, hs⟩ <;> simp [Worker.exec, hs]
  | checkStarted =>
    rw [Worker.exec]
    rcases w.checkStarted_cases with ⟨-, hs⟩ | ⟨-, hs⟩ <;> rw [hs]
    exact List.prefix_append ..
  | earlier iK =>
    rcases w.earlierStep_cases cfg slots iK with ⟨-, n, hs⟩ | ⟨-, hs⟩ <;> simp [Worker.exec, hs]

theorem Worker.log_foldl (cfg : Config) (slots : Nat → Nat) (w : Worker) (is : List Instr) :
    w.log <+: (is.foldl (Worker.exec cfg slots) w).log := by
  induction is generalizing w with
  | nil => exact List.prefix_rfl
  | cons i is ih => exact (w.log_exec cfg slots i).trans (ih _)

theorem Reached.placed (hw : Reached cfg slots u bufs w) : Fresh w.log → Placed w := by
  refine hw.induction (I := fun w => Fresh w.log → Placed w) placed_start ?_ ?_ ?_ ?_ ?_ ?_
  · intro w packets _ _ hd h hf
    simp only [Worker.firstScan, hd, Bool.false_eq_true, if_false] at hf ⊢
    exact ⟨(h hf).held, (h hf).inj⟩
  · intro w p _ _ h hf
    have hlog := (w.packetStep_frame cfg p).2.2.2.2.2.2
    rw [hlog] at hf
    have hp := h hf.of_append
    refine ⟨fun index => ?_, ?_⟩
    · simp only [hlog, heldIn_of_none _ _ (e := .packet p) rfl, Worker.packetStep_index]
      exact hp.held index
    · simp only [Worker.packetStep_index]
      exact hp.inj
  · exact fun w _ _ h hf => ⟨(h hf).held, (h hf).inj⟩
  · intro w iK _ _ h hf
    rcases w.fullStep_cases cfg slots iK with ⟨-, hs⟩ | ⟨-, hs⟩ <;> rw [hs] at hf ⊢
    · have hp := h (Fresh.of_append hf)
      have hq : Placed { w with lastSentPacketNo := (w.localStruct iK).packetNo } := ⟨hp.held, hp.inj⟩
      exact (hq.handOver (fun _ => rfl) (heldIn_of_fresh hf)).2
    · exact ⟨(h hf).held, (h hf).inj⟩
  · intro w _ _ h hf
    rcases w.checkStarted_cases with ⟨-, hs⟩ | ⟨-, hs⟩ <;> rw [hs] at hf ⊢
    · have hp := h hf.of_append
      exact ⟨fun index => by rw [heldIn_of_none _ _ rfl]; exact hp.held index, hp.inj⟩
    · exact h hf
  · intro w iK _ _ h hf
    rcases w.earlierStep_cases cfg slots iK with ⟨-, n, hs⟩ | ⟨-, hs⟩ <;> rw [hs] at hf ⊢
    · have hp := h (Fresh.of_append hf)
      have hq : Placed { w with noMissing := n } := ⟨hp.held, hp.inj⟩
      exact (hq.handOver (fun _ => rfl) (heldIn_of_fresh hf)).2
    · exact h hf

/-! ### The six local blocks -/

/-- The local blocks have different slots, those that the worker holds, and their buffers are exact. -/
structure Assembled (cfg : Config) (w : Worker) : Prop where
  held : ∀ index, heldIn index w.log = true ↔ ∃ iK, (w.localStruct iK).index = index
  inj : Function.Injective fun iK => (w.localStruct iK).index
  exact : ∀ iK, Exact cfg w.antNumbers (w.localStruct iK).packetNo (packetsSince (w.localStruct iK).order w.log)
    (w.data (w.localStruct iK).index)

theorem exact_nil {antNumbers antNumbers' : List Nat} {packetNo packetNo' : Nat} {m : Nat → UInt8}
    (h : Exact cfg antNumbers packetNo [] m) : Exact cfg antNumbers' packetNo' [] m := h

theorem foldl_fill {ι : Type} (index : ι → Nat) (n : Nat) (data : Nat → Nat → UInt8) (l : List ι) {x : ι}
    (hx : x ∈ l) :
    ∃ m, l.foldl (fun data x => Function.update data (index x) (Memory.fill (data (index x)) 0 n 0)) data (index x) =
      Memory.fill m 0 n 0 := by
  induction l using List.reverseRecOn with
  | nil => cases hx
  | append_singleton l y ih =>
    rw [List.foldl_append, List.foldl_cons, List.foldl_nil]
    by_cases hxy : index x = index y
    · rw [hxy, Function.update_self]
      exact ⟨_, rfl⟩
    · rw [Function.update_of_ne hxy]
      refine ih ((List.mem_append.mp hx).resolve_right fun h => hxy ?_)
      rw [List.mem_singleton.mp h]

theorem assembled_start (h : Sound (Worker.start cfg slots u).log) : Assembled cfg (.start cfg slots u) where
  held := (placed_start h.fresh).held
  inj := (placed_start h.fresh).inj
  exact iK := by
    have hnil : packetsSince ((Worker.start cfg slots u).localStruct iK).order (Worker.start cfg slots u).log = [] :=
      packetsSince_allocs _ _ _ _
    obtain ⟨m, hm⟩ := foldl_fill (fun iK : Fin 6 => slots (iK.val + 1)) cfg.dataLenOut u.data (List.finRange 6)
      (List.mem_finRange iK)
    have hdata : (Worker.start cfg slots u).data ((Worker.start cfg slots u).localStruct iK).index =
        Memory.fill m 0 cfg.dataLenOut 0 := hm
    rw [hnil, hdata]
    exact exact_fill cfg _ _ m

/-! ### One instruction -/

theorem blockNo_mod {packetStart : Nat} (h : packetStart % timeIntPerBuffer = 0) (k : Nat) :
    blockNo packetStart k % timeIntPerBuffer = 0 := by
  simp only [timeIntPerBuffer] at h ⊢
  rcases Nat.lt_or_ge 6 k with h6 | h6
  · rw [blockNo_of_lt h6]
    omega
  · rw [blockNo_of_le h6]
    omega

theorem findStructIndex_eq_none {localStruct : Fin 6 → WorkLocalStruct} {n : Nat} :
    findStructIndex localStruct n = none ↔ ∀ iK, (localStruct iK).packetNo ≠ n := by
  simp [findStructIndex, List.find?_eq_none]

theorem findStructIndex_spec {localStruct : Fin 6 → WorkLocalStruct} {n : Nat} {s : Fin 6}
    (h : findStructIndex localStruct n = some s) : (localStruct s).packetNo = n := by
  simpa using List.find?_some h

theorem Assembled.packetStep (h : Assembled cfg w) (ht : Table w.antNumbers) (ho : Ordered w) (hn : Numbered w)
    (hlt : w.nextOrder ≤ 2 ^ 31) (p : Packet) : Assembled cfg (w.packetStep cfg p) := by
  obtain ⟨-, -, -, -, hant, -, hlog⟩ := w.packetStep_frame cfg p
  have hmod : ∀ iK, (w.localStruct iK).packetNo % timeIntPerBuffer = 0 := fun iK => by
    rw [hn.packetNo]
    exact blockNo_mod hn.start_mod _
  -- A block that the packet belongs to is the one that the loop finds.
  have hmiss : ∀ iK, (∀ a c, cfg.accepts w.antNumbers p.header = some (a, c) →
      (w.localStruct iK).packetNo ≠ getPacketFilter (getPcktNo p.header)) →
      Exact cfg w.antNumbers (w.localStruct iK).packetNo (packetsSince (w.localStruct iK).order w.log ++ [p])
        (w.data (w.localStruct iK).index) := by
    intro iK hne
    refine (h.exact iK).miss fun r a c hr ha hc hb => ?_
    obtain ⟨hacc, hf, -⟩ := (belongsTo_iff ht (hmod iK) hr ha hc p).mp hb
    exact hne a c hacc hf.symm
  refine ⟨fun index => ?_, ?_, fun iK => ?_⟩
  · simp only [hlog, heldIn_of_none _ _ (e := .packet p) rfl, Worker.packetStep_index]
    exact h.held index
  · simp only [Worker.packetStep_index]
    exact h.inj
  · rw [hant, hlog, Worker.packetStep_packetNo, Worker.packetStep_order, Worker.packetStep_index, packetsSince_packet]
    rcases w.packetStep_cases cfg p with ⟨hno, hs⟩ | ⟨a, c, s, hacc, hfind, hs⟩ <;> rw [hs]
    · exact hmiss iK fun a c hacc => findStructIndex_eq_none.mp (hno a c hacc) iK
    · have hs' := findStructIndex_spec hfind
      by_cases hi : iK = s
      · subst hi
        simp only [Function.update_self]
        exact (h.exact iK).store ht (hmod iK) hacc hs'.symm
      · simp only [Function.update_of_ne (fun heq => hi (h.inj heq))]
        exact hmiss iK fun _ _ _ heq => hi (hn.inj ho hlt (heq.trans hs'.symm))

theorem Assembled.handOver (h : Assembled cfg w) (ho : Ordered w) {iK : Fin 6} {e : Handed → Event}
    (he : ∀ b, (e b).handed? = some b)
    (hfresh : heldIn (slots w.nextOrder) (w.log ++ [e (w.handed cfg iK)]) = false) :
    Assembled cfg (w.handOver cfg slots iK e) := by
  obtain ⟨hne, hplaced⟩ := Placed.handOver ⟨h.held, h.inj⟩ he hfresh
  have hlog : ∀ a b : Event, w.log ++ [a, b] = w.log ++ [a] ++ [b] := by simp
  refine ⟨hplaced.held, hplaced.inj, fun jK => ?_⟩
  rw [Worker.handOver_log, hlog, packetsSince_alloc, packetsSince_handed _ _ (he _), Worker.handOver_localStruct,
    Worker.handOver_data, Worker.handOver_antNumbers]
  by_cases hj : jK = iK
  · subst hj
    simp only [Function.update_self, Worker.fresh, if_true]
    exact exact_fill cfg _ _ _
  · have hlt := ho.lt jK
    simp only [Function.update_of_ne hj, Function.update_of_ne (hne jK hj)]
    rw [if_neg (by omega)]
    exact h.exact jK

/-! ### Runs -/

/-- Every block of the log was exact when it was handed over, as far as the slots were sound by then. -/
def HandedExact (cfg : Config) (antNumbers : List Nat) (log : List Event) : Prop :=
  ∀ pre e suf b, log = pre ++ e :: suf → e.handed? = some b → Sound pre →
    Exact cfg antNumbers b.packetNo (packetsSince b.order pre) b.data

theorem HandedExact.append {antNumbers : List Nat} {log : List Event} {e : Event} (h : HandedExact cfg antNumbers log)
    (he : ∀ b, e.handed? = some b → Sound log → Exact cfg antNumbers b.packetNo (packetsSince b.order log) b.data) :
    HandedExact cfg antNumbers (log ++ [e]) := by
  intro pre e' suf b heq hb hs
  rcases List.eq_nil_or_concat suf with rfl | ⟨suf, x, rfl⟩
  · obtain ⟨rfl, hee⟩ := List.append_inj' heq rfl
    obtain rfl := List.head_eq_of_cons_eq hee
    exact he b hb hs
  · have heq' : log ++ [e] = (pre ++ e' :: suf) ++ [x] := by simpa using heq
    exact h pre e' suf b (List.append_inj' heq' rfl).1 hb hs

/-- What holds of the thread between any two instructions. -/
structure Assembling (cfg : Config) (w : Worker) : Prop where
  unscanned : w.firstLoopDone = false → (∀ k, packetsSince k w.log = []) ∧ ∀ e ∈ w.log, e.handed? = none
  table : Table w.antNumbers
  allocated : w.log.countP Event.isAlloc + 1 = w.nextOrder
  assembled : Sound w.log → Assembled cfg w
  handed : HandedExact cfg w.antNumbers w.log

/-- An instruction that adds at most an event that is no packet, no slot and no block. -/
theorem Assembling.quiet {w' : Worker} (h : Assembling cfg w) (hd : w.firstLoopDone = true)
    (hlocal : w'.localStruct = w.localStruct) (hdata : w'.data = w.data) (hant : w'.antNumbers = w.antNumbers)
    (hnext : w'.nextOrder = w.nextOrder) (hdone : w'.firstLoopDone = w.firstLoopDone)
    (hlog : w'.log = w.log ∨ ∃ n, w'.log = w.log ++ [.mostlyStarted n]) : Assembling cfg w' := by
  have hdone' : w'.firstLoopDone ≠ false := by simp [hdone, hd]
  rcases hlog with hlog | ⟨n, hlog⟩
  · refine ⟨fun hf => absurd hf hdone', hant ▸ h.table, by rw [hlog, hnext]; exact h.allocated, fun hs => ?_,
      by rw [hlog, hant]; exact h.handed⟩
    have ha := h.assembled (hlog ▸ hs)
    exact ⟨by simpa only [hlog, hlocal] using ha.held, by simpa only [hlocal] using ha.inj,
      by simpa only [hlog, hlocal, hdata, hant] using ha.exact⟩
  · refine ⟨fun hf => absurd hf hdone', hant ▸ h.table, ?_, fun hs => ?_, ?_⟩
    · rw [hlog, hnext, List.countP_append]
      exact h.allocated
    · have ha := h.assembled (hlog ▸ hs).of_append
      exact ⟨by simpa only [hlog, hlocal, heldIn_of_none _ _ (e := .mostlyStarted n) rfl] using ha.held,
        by simpa only [hlocal] using ha.inj,
        by simpa only [hlog, hlocal, hdata, hant, packetsSince_mostlyStarted] using ha.exact⟩
    · rw [hlog, hant]
      exact h.handed.append fun b hb => by cases hb

theorem Assembling.firstScan (h : Assembling cfg w) (hd : w.firstLoopDone = false) (packets : List Packet) :
    Assembling cfg (w.firstScan cfg packets) := by
  obtain ⟨hnone, hnot⟩ := h.unscanned hd
  have hfirst : w.firstScan cfg packets =
      { w with
        antNumbers := registerAntennas cfg w.antNumbers packets
        packetStart := pktStart packets
        localStruct := fun iK =>
          { w.localStruct iK with packetNo := pktStart packets + iK * timeIntPerBuffer }
        fileAntNumbers := (registerAntennas cfg w.antNumbers packets).take cfg.nAnts
        nextStructPacketNo := (pktStart packets + nFileBuffersAtATime * timeIntPerBuffer) &&& pcktNoMask
        firstLoopDone := true } := by
    simp [Worker.firstScan, hd]
  rw [hfirst]
  refine ⟨fun hf => absurd hf (by simp), table_registerAntennas cfg h.table packets, h.allocated, fun hs => ?_,
    fun pre e suf b heq hb => ?_⟩
  · have ha := h.assembled hs
    refine ⟨ha.held, ha.inj, fun iK => ?_⟩
    have hexact := ha.exact iK
    simp only [hnone] at hexact ⊢
    exact exact_nil hexact
  · have he : e ∈ w.log := heq ▸ List.mem_append_right _ List.mem_cons_self
    rw [hnot e he] at hb
    cases hb

theorem Assembling.packetStep (h : Assembling cfg w) (hd : w.firstLoopDone = true) (ho : Ordered w) (hn : Numbered w)
    (p : Packet) : Assembling cfg (w.packetStep cfg p) := by
  obtain ⟨hnext, -, -, -, hant, hdone, hlog⟩ := w.packetStep_frame cfg p
  refine ⟨fun hf => ?_, hant ▸ h.table, ?_, fun hs => ?_, ?_⟩
  · rw [hdone, hd] at hf
    cases hf
  · rw [hlog, hnext, List.countP_append]
    exact h.allocated
  · rw [hlog] at hs
    have hfew := hs.of_append.few
    have halloc := h.allocated
    exact (h.assembled hs.of_append).packetStep h.table ho hn (by omega) p
  · rw [hlog, hant]
    exact h.handed.append fun b hb => by cases hb

theorem Assembling.handOver (h : Assembling cfg w) (hd : w.firstLoopDone = true) (ho : Ordered w) (iK : Fin 6)
    {e : Handed → Event} (he : ∀ b, (e b).handed? = some b) :
    Assembling cfg (w.handOver cfg slots iK e) := by
  have hlog : ∀ a b : Event, w.log ++ [a, b] = w.log ++ [a] ++ [b] := by simp
  refine ⟨fun hf => ?_, h.table, ?_, fun hs => ?_, ?_⟩
  · rw [Worker.handOver_firstLoopDone, hd] at hf
    cases hf
  · have hone : Event.isAlloc (.alloc w.nextOrder (slots w.nextOrder)) = true := rfl
    rw [Worker.handOver_log, List.countP_append, List.countP_cons_of_neg (by simp [isAlloc_of_handed (he _)]),
      List.countP_cons_of_pos hone, List.countP_nil, Worker.handOver_nextOrder, ← h.allocated]
  · rw [Worker.handOver_log, hlog] at hs
    exact (h.assembled hs.of_append.of_append).handOver ho he (hs.fresh _ _ _ [] rfl)
  · rw [Worker.handOver_log, hlog, Worker.handOver_antNumbers]
    refine (h.handed.append fun b hb hs => ?_).append fun b hb => by cases hb
    obtain rfl := Option.some.inj ((he _).symm.trans hb)
    exact (h.assembled hs).exact iK

theorem Reached.assembling (hw : Reached cfg slots u bufs w) : Assembling cfg w := by
  refine hw.induction (I := Assembling cfg) ?_ ?_ ?_ ?_ ?_ ?_ ?_
  · refine ⟨fun _ => ⟨fun k => packetsSince_allocs _ _ k _, fun e he => ?_⟩, table_replicate _, by rfl,
      assembled_start,
      fun pre e suf b heq hb => ?_⟩
    · obtain ⟨iK, -, rfl⟩ := List.mem_map.mp he
      rfl
    · have he : e ∈ (Worker.start cfg slots u).log := heq ▸ List.mem_append_right _ List.mem_cons_self
      obtain ⟨iK, -, rfl⟩ := List.mem_map.mp he
      cases hb
  · exact fun w packets _ _ hd h => h.firstScan hd packets
  · exact fun w p hr hd h => h.packetStep hd hr.ordered (hr.numbered hd) p
  · exact fun w _ hd h => h.quiet hd rfl rfl rfl rfl rfl (Or.inl rfl)
  · intro w iK hr hd h
    have ho := hr.ordered
    rcases w.fullStep_cases cfg slots iK with ⟨-, hs⟩ | ⟨-, hs⟩ <;> rw [hs]
    · have hq : Assembling cfg { w with lastSentPacketNo := (w.localStruct iK).packetNo } :=
        h.quiet hd rfl rfl rfl rfl rfl (Or.inl rfl)
      exact hq.handOver (e := .full) hd ⟨ho.pos, ho.lt, ho.inj, ho.next⟩ iK fun _ => rfl
    · exact h.quiet hd rfl rfl rfl rfl rfl (Or.inl rfl)
  · intro w _ hd h
    rcases w.checkStarted_cases with ⟨-, hs⟩ | ⟨-, hs⟩ <;> rw [hs]
    · exact h.quiet hd rfl rfl rfl rfl rfl (Or.inr ⟨_, rfl⟩)
    · exact h
  · intro w iK hr hd h
    have ho := hr.ordered
    rcases w.earlierStep_cases cfg slots iK with ⟨-, n, hs⟩ | ⟨-, hs⟩ <;> rw [hs]
    · have hq : Assembling cfg { w with noMissing := n } := h.quiet hd rfl rfl rfl rfl rfl (Or.inl rfl)
      exact hq.handOver (e := .early) hd ⟨ho.pos, ho.lt, ho.inj, ho.next⟩ iK fun _ => rfl
    · exact h

/-- The pool gives no slot to a thread that holds it. -/
theorem fresh_of_answered {T : Type} [DecidableEq T] {n : Nat} {data : Nat → Nat → UInt8} {dataLen : Nat → Nat}
    {tr : List (Act T)} {s : Owned T} (hr : Lts.Run Owned.Step (.init n data dataLen) tr s) (me : T)
    {log : List Event} (hcalls : tr.filterMap (Act.call me) = log.filterMap Event.call) : Fresh log := by
  intro pre order index suf heq
  refine fetchEmptyBuffer_fresh hr me (pre.filterMap Event.call) index (suf.filterMap Event.call) ?_
  rw [hcalls, heq, List.filterMap_append]
  rfl

/-- The calls in a log on the file pool are those of a thread in a run of the pool. -/
def Answered (log : List Event) : Prop :=
  ∃ (T : Type) (_ : DecidableEq T) (me : T) (data : Nat → Nat → UInt8) (dataLen : Nat → Nat) (tr : List (Act T))
    (s : Owned T), Lts.Run Owned.Step (.init nFileBuffers data dataLen) tr s ∧
      tr.filterMap (Act.call me) = log.filterMap Event.call

theorem Answered.fresh {log : List Event} (h : Answered log) : Fresh log := by
  obtain ⟨T, hT, me, data, dataLen, tr, s, hr, hcalls⟩ := h
  exact fresh_of_answered hr me hcalls

/-- Block assembly is exact, up to any point of a run whose calls on the file pool have been answered. -/
theorem block_assembly (cfg : Config) (slots : Nat → Nat) (u : Uninit) (bufs : List UdpBuffer) {T : Type}
    [DecidableEq T]
    (me : T) {data : Nat → Nat → UInt8} {dataLen : Nat → Nat} {tr : List (Act T)} {s : Owned T} {is : List Instr}
    {log : List Event} (hr : Lts.Run Owned.Step (.init nFileBuffers data dataLen) tr s) (hp : is <+: program bufs)
    (hlog : log <+: (workerAfter cfg slots u is).log)
    (hcalls : tr.filterMap (Act.call me) = log.filterMap Event.call) (hfew : log.countP Event.isAlloc < 2 ^ 31) :
    ∀ e ∈ log, ∀ b, e.handed? = some b →
      Exact cfg (workerAfter cfg slots u is).antNumbers b.packetNo (packetsDuring cfg slots u b.order is) b.data := by
  intro e he b hb
  obtain ⟨pre, suf, rfl⟩ := List.append_of_mem he
  obtain ⟨rest, hrest⟩ := hlog
  have hlog : (workerAfter cfg slots u is).log = pre ++ e :: (suf ++ rest) := by simp [← hrest]
  have hw : Reached cfg slots u bufs (workerAfter cfg slots u is) := ⟨is, hp, rfl⟩
  have hs : Sound (pre ++ e :: suf) := ⟨fresh_of_answered hr me hcalls, hfew⟩
  have hsince : packetsDuring cfg slots u b.order is = packetsSince b.order pre :=
    (traced cfg slots u hp).handed _ (hlog ▸ mem_handedOver hb)
  rw [hsince]
  exact hw.assembling.handed pre e _ b hlog hb hs.of_append

/-- A fresh pool answers `k` calls of `fetchEmptyBuffer` with its slots in turn. -/
theorem run_fetches {n k : Nat} (hk : k ≤ n) (data : Nat → Nat → UInt8) (dataLen : Nat → Nat) :
    ∃ tr, Lts.Run Owned.Step (.init n data dataLen) tr
        ⟨.fetched n data dataLen k, fun index => if index < k then some () else none⟩ ∧
      tr.filterMap (Act.call ()) = (List.range k).map .fetchEmptyBuffer := by
  induction k with
  | zero => exact ⟨[], by simpa [Owned.init, Pool.fetched_zero] using .start, rfl⟩
  | succ k ih =>
    obtain ⟨tr, hr, hcalls⟩ := ih (by omega)
    refine ⟨tr ++ [.fetchEmptyBuffer () k], hr.next ⟨Pool.fetched_succ hk data dataLen (), by simp [Act.Held], ?_⟩, ?_⟩
    · funext index
      simp only [Act.transfer, Function.update_apply, Nat.lt_succ_iff_lt_or_eq]
      by_cases h : index = k <;> simp [h]
    · simp [hcalls, Act.call, List.range_succ]

/-- The iteration of one packet, up to the first of the earlier blocks. -/
def firstFlush : List Instr := takeIn [.numbered 0] ++ sendFull ++ [.earlier 0]

theorem firstFlush_prefix : firstFlush <+: program [firstPacket] :=
  program_firstPacket ▸ ⟨[1, 2, 3, 4, 5].map .earlier, rfl⟩

/-- The pool answers its calls: six slots, and another one for the first block when a stale reference sends it off. -/
theorem run_firstFlush : ∃ tr s, Lts.Run Owned.Step (.init nFileBuffers (fun _ _ => 0) fun _ => 0) tr s ∧
    tr.filterMap (Act.call ()) =
      (workerAfter singleChannel (· - 1) staleReference firstFlush).log.filterMap Event.call := by
  obtain ⟨tr, hr, hcalls⟩ := run_fetches (by decide : 6 ≤ nFileBuffers) (fun _ _ => 0) fun _ => 0
  have hidle := Pool.fetched_idle nFileBuffers (fun _ _ => 0) (fun _ => 0) 6 ()
  have hreturned := hr.next (.of_exec (@Pool.Exec.returnBufferData _ _ _ _ _ 0 singleChannel.dataLenOut 1 hidle rfl rfl)
    (by simp [Act.Held]))
  have hready := hreturned.next (.of_exec (.returnBufferReady (t := ()) rfl) (by simp [Act.Held]))
  have hfetched := hready.next (.of_exec (@Pool.Exec.fetchEmptyBuffer _ _ _ () _ 6 (by simp [Pool.Idle, Pool.fetched])
    rfl rfl) (by simp [Act.Held]))
  refine ⟨_, _, hfetched, ?_⟩
  simp only [List.filterMap_append, hcalls]
  decide +kernel

/-- Block 1 is handed over with the one packet that it has. -/
theorem block_assembly_firstPacket : ∃ e b,
    e ∈ (workerAfter singleChannel (· - 1) staleReference firstFlush).log ∧ e.handed? = some b ∧
      Exact singleChannel (workerAfter singleChannel (· - 1) staleReference firstFlush).antNumbers b.packetNo
        (packetsDuring singleChannel (· - 1) staleReference b.order firstFlush) b.data := by
  obtain ⟨tr, s, hr, hcalls⟩ := run_firstFlush
  have hcall : Call.returnBuffer 0 1 singleChannel.dataLenOut ∈
      (workerAfter singleChannel (· - 1) staleReference firstFlush).log.filterMap Event.call := by
    decide +kernel
  obtain ⟨e, he, hcall⟩ := List.mem_filterMap.mp hcall
  obtain ⟨b, hb⟩ : ∃ b, e.handed? = some b := by
    cases e with
    | full b | early b => exact ⟨b, rfl⟩
    | packet | alloc | mostlyStarted => cases hcall
  exact ⟨e, b, he, hb, block_assembly singleChannel (· - 1) staleReference [firstPacket] () hr firstFlush_prefix
    List.prefix_rfl hcalls (by decide +kernel) e he b hb⟩

end VoltRec
