import VoltRec.Theorems.Pool

/-! What `findLowest` finds. Its lowest order so far starts at `INT_MAX`, while an order is an `ssize_t`: an order from
    there on is passed over, and when no other is ready, `fetchBuffer` has taken a token for a slot that it then does
    not find. -/

namespace VoltRec

/-- The first index of the lowest positive order. -/
def FirstLowest (no : List Int) (index : Nat) : Prop :=
  ∃ o, no[index]? = some o ∧ 0 < o ∧ (∀ o' ∈ no, 0 < o' → o ≤ o') ∧ ∀ i < index, no[i]? ≠ some o

/-- The purpose of `findLowest`, and of `fetchBuffer` past its wait loop. -/
structure FindsLowest (no : List Int) : Prop where
  none_iff : findLowest no = none ↔ ∀ o ∈ no, o ≤ 0
  first : ∀ index, findLowest no = some index → FirstLowest no index
  takeNone : ∀ (T : Type) [DecidableEq T] (s s' : Pool T) (t : T), s.buff.orderNo = no → s.Exec (.takeNone t) s' →
    ∀ o ∈ no, o ≤ 0

theorem findLowest_first {no : List Int} {index : Nat} (h : findLowest no = some index) : FirstLowest no index := by
  obtain ⟨o, hget, hpos, -, hmin⟩ := findLowest_eq_some h
  exact ⟨o, hget, hpos, hmin⟩

theorem Pool.Exec.takeNone_spec {T : Type} [DecidableEq T] {s s' : Pool T} {t : T} (h : s.Exec (.takeNone t) s') :
    findLowest s.buff.orderNo = none := by
  cases h with
  | takeNone past free hf => exact UdpBuff.fetchBufferTake_eq_none.mp hf

/-- Some positive order is below `INT_MAX`, if any order is positive. -/
def LowEnough (no : List Int) : Prop := ∀ o ∈ no, 0 < o → ∃ o' ∈ no, 0 < o' ∧ o' < intMax

theorem FindsLowest.lowEnough {no : List Int} (h : FindsLowest no) : LowEnough no := by
  intro o ho hpos
  by_contra hnot
  have hnone : findLowest no = none := by
    rw [findLowest_eq_none]
    intro o' ho' hpos'
    by_contra hlt
    exact hnot ⟨o', ho', hpos', Int.not_le.mp hlt⟩
  exact absurd (h.none_iff.mp hnone o ho) (Int.not_le.mpr hpos)

theorem LowEnough.findsLowest {no : List Int} (h : LowEnough no) : FindsLowest no := by
  have hnone : findLowest no = none → ∀ o ∈ no, o ≤ 0 := by
    intro hnone o ho
    by_contra hpos
    obtain ⟨o', ho', hpos', hlt⟩ := h o ho (Int.not_le.mp hpos)
    exact absurd ((findLowest_eq_none no).mp hnone o' ho' hpos') (Int.not_le.mpr hlt)
  refine ⟨⟨hnone, fun hall => (findLowest_eq_none no).mpr fun o ho hpos => ?_⟩, fun index => findLowest_first, ?_⟩
  · exact absurd (hall o ho) (Int.not_le.mpr hpos)
  · rintro T _ s s' t rfl hs
    exact hnone hs.takeNone_spec

section Runs
variable {T : Type} [DecidableEq T] {n : Nat} {data : Nat → Nat → UInt8} {dataLen : Nat → Nat} {tr : List (Act T)}
  {s : Pool T}

/-- The orders of every state of every interleaving, as long as no order is too high. -/
theorem lowEnough_run (hr : Lts.Run Pool.Exec (.init n data dataLen) tr s) (hb : ∀ a ∈ tr, a.Bounded) :
    LowEnough s.buff.orderNo := by
  have hlt : ∀ o ∈ s.buff.orderNo, o < intMax := by
    refine hr.invariant (I := fun tr (s : Pool T) => (∀ a ∈ tr, a.Bounded) → ∀ o ∈ s.buff.orderNo, o < intMax)
      (fun _ o ho => ?_) (fun tr s a s' _ ih hs hb => ?_) hb
    · obtain rfl := List.eq_of_mem_replicate ho
      decide
    · exact hs.bounded (hb a (by simp)) (ih fun b hb' => hb b (List.mem_append_left _ hb'))
  exact fun o ho hpos => ⟨o, ho, hpos, hlt o ho⟩

end Runs

/-- `findLowest` does what it is for on exactly these arrays, and on all arrays of runs with orders below `INT_MAX`. -/
theorem findsLowest_iff (no : List Int) :
    (FindsLowest no ↔ LowEnough no) ∧
    ∀ (T : Type) [DecidableEq T] (n : Nat) (data : Nat → Nat → UInt8) (dataLen : Nat → Nat) (tr : List (Act T))
      (s : Pool T), Lts.Run Pool.Exec (.init n data dataLen) tr s → (∀ a ∈ tr, a.Bounded) → s.buff.orderNo = no →
        FindsLowest no := by
  refine ⟨⟨FindsLowest.lowEnough, LowEnough.findsLowest⟩, ?_⟩
  rintro T _ n data dataLen tr s hr hb rfl
  exact (lowEnough_run hr hb).findsLowest

theorem intMaxOrder_not_found : ¬FindsLowest [2147483647] := by
  intro h
  obtain ⟨o, ho, -, hlt⟩ := h.lowEnough 2147483647 (by simp) (by decide)
  obtain rfl := List.mem_singleton.mp ho
  exact absurd hlt (by decide)

end VoltRec
