import VoltRec.Common
import VoltRec.Lib.Distinct

/-! The antenna table of `full_custom/common.c`. `updateAntenna` looks for an id and for a free entry in one scan;
    the free entries are always the last ones, so it finds an id that is there before it can add it again. The ids
    stand in the order in which they first come, and an id never moves. -/

namespace VoltRec

variable {antNumbers ants ids : List Nat} {currAnt maxAnts i id : Nat}

/-! ### One call -/

/-- The scan of a table whose free entries are the last ones. -/
theorem updateAntenna_eq (hants : ∀ x ∈ ants, x ≠ noAntenna) (hant : currAnt ≠ noAntenna) (n maxAnts : Nat) :
    updateAntenna (ants ++ List.replicate n noAntenna) currAnt maxAnts =
      if currAnt ∈ ants.take maxAnts then (0, ants ++ List.replicate n noAntenna)
      else if ants.length < maxAnts ∧ 0 < n then (1, ants ++ currAnt :: List.replicate (n - 1) noAntenna)
      else (-1, ants ++ List.replicate n noAntenna) := by
  induction ants generalizing maxAnts with
  | nil => cases n <;> cases maxAnts <;> simp [updateAntenna, List.replicate_succ, hant.symm]
  | cons x ants ih =>
    cases maxAnts with
    | zero => simp [updateAntenna]
    | succ m =>
      have hx : x ≠ noAntenna := hants x List.mem_cons_self
      have ih := ih (fun y hy => hants y (List.mem_cons_of_mem _ hy)) m
      by_cases h : x = currAnt
      · simp [updateAntenna, h]
      · simp only [List.cons_append, updateAntenna, h, hx, if_false, ih, List.take_succ_cons, List.mem_cons,
          Ne.symm h, false_or, List.length_cons, Nat.add_lt_add_iff_right]
        split
        · rfl
        · split <;> rfl

/-- An id that stands in the table stays where it is. -/
theorem updateAntenna_kept (hid : id ≠ noAntenna) (h : antNumbers[i]? = some id) (currAnt maxAnts : Nat) :
    (updateAntenna antNumbers currAnt maxAnts).2[i]? = some id := by
  induction antNumbers generalizing i maxAnts with
  | nil => simp at h
  | cons x antNumbers ih =>
    cases maxAnts with
    | zero => exact h
    | succ m =>
      unfold updateAntenna
      split
      · exact h
      split
      · cases i with
        | zero => exact absurd (Option.some.inj h).symm (by rintro rfl; exact hid ‹_›)
        | succ i => exact h
      · cases i with
        | zero => exact h
        | succ i => exact ih h m

/-- `getAntIndex` finds the first place below `maxAnts`. -/
theorem getAntIndex_eq_some : getAntIndex antNumbers currAnt maxAnts = some i ↔
    i < maxAnts ∧ antNumbers[i]? = some currAnt ∧ ∀ j < i, antNumbers[j]? ≠ some currAnt := by
  have htake : ∀ {j}, j < maxAnts → (antNumbers.take maxAnts)[j]? = antNumbers[j]? :=
    fun hj => List.getElem?_take_of_lt hj
  rw [getAntIndex, List.findIdx?_eq_some_iff_getElem]
  constructor
  · rintro ⟨hlt, hp, hfirst⟩
    have hi : i < maxAnts := Nat.lt_of_lt_of_le hlt (List.length_take_le ..)
    refine ⟨hi, ?_, fun j hj hget => hfirst j hj ?_⟩
    · rw [← htake hi, List.getElem?_eq_getElem hlt, beq_iff_eq.mp hp]
    · rw [← htake (hj.trans hi), List.getElem?_eq_getElem (hj.trans hlt)] at hget
      exact beq_iff_eq.mpr (Option.some.inj hget)
  · rintro ⟨hi, hget, hfirst⟩
    rw [← htake hi] at hget
    obtain ⟨hlt, hval⟩ := List.getElem?_eq_some_iff.mp hget
    refine ⟨hlt, beq_iff_eq.mpr hval, fun j hj hp => hfirst j hj ?_⟩
    rw [← htake (hj.trans hi), List.getElem?_eq_getElem (hj.trans hlt), beq_iff_eq.mp hp]

theorem getAntIndex_eq_none : getAntIndex antNumbers currAnt maxAnts = none ↔ currAnt ∉ antNumbers.take maxAnts := by
  rw [getAntIndex, List.findIdx?_eq_none_iff]
  constructor
  · intro h hmem
    simpa using h currAnt hmem
  · intro h x hx
    exact beq_eq_false_iff_ne.mpr fun heq => h (heq ▸ hx)

/-! ### A table of some ids and free entries -/

theorem mem_entries {n : Nat} (hid : id ≠ noAntenna) : id ∈ ants ++ List.replicate n noAntenna ↔ id ∈ ants := by
  simp [hid]

theorem getElem?_entries {n : Nat} (hid : id ≠ noAntenna) :
    (ants ++ List.replicate n noAntenna)[i]? = some id ↔ ants[i]? = some id := by
  rcases Nat.lt_or_ge i ants.length with hlt | hge
  · rw [List.getElem?_append_left hlt]
  · rw [List.getElem?_append_right hge, List.getElem?_eq_none hge]
    refine iff_of_false (fun h => hid ?_) (Option.some_ne_none id).symm
    exact List.eq_of_mem_replicate (List.mem_of_getElem? h)

theorem entries_inj {n j : Nat} (hnodup : ants.Nodup) (hid : id ≠ noAntenna)
    (hi : (ants ++ List.replicate n noAntenna)[i]? = some id)
    (hj : (ants ++ List.replicate n noAntenna)[j]? = some id) : i = j := by
  rw [getElem?_entries hid] at hi hj
  obtain ⟨hlt, -⟩ := List.getElem?_eq_some_iff.mp hi
  exact (List.getElem?_inj hlt hnodup).mp (hi.trans hj.symm)

/-- The place of an id that comes once. -/
theorem getAntIndex_entries {n : Nat} (hnodup : ants.Nodup) (hid : id ≠ noAntenna) :
    getAntIndex (ants ++ List.replicate n noAntenna) id maxAnts = some i ↔
      i < maxAnts ∧ (ants ++ List.replicate n noAntenna)[i]? = some id := by
  rw [getAntIndex_eq_some]
  refine and_congr_right fun _ => and_iff_left_of_imp fun hi j hj hget => ?_
  exact Nat.ne_of_lt hj (entries_inj hnodup hid hget hi)

/-- The result codes, for a table with room for the ids that it holds. -/
theorem updateAntenna_codes (hants : ∀ x ∈ ants, x ≠ noAntenna) (hid : id ≠ noAntenna) (hlen : ants.length ≤ maxAnts)
    {n : Nat} (ht : antNumbers = ants ++ List.replicate n noAntenna) :
    ((updateAntenna antNumbers id maxAnts).1 = 1 ↔ id ∉ antNumbers ∧ id ∈ (updateAntenna antNumbers id maxAnts).2) ∧
    ((updateAntenna antNumbers id maxAnts).1 = 0 ↔ id ∈ antNumbers) ∧
    ((updateAntenna antNumbers id maxAnts).1 = -1 ↔ ∀ x ∈ antNumbers.take maxAnts, x ≠ id ∧ x ≠ noAntenna) ∧
    ((updateAntenna antNumbers id maxAnts).1 ≠ 1 → (updateAntenna antNumbers id maxAnts).2 = antNumbers) := by
  have htake : antNumbers.take maxAnts = ants ++ List.replicate (min (maxAnts - ants.length) n) noAntenna := by
    rw [ht, List.take_append, List.take_of_length_le hlen, List.take_replicate]
  have hcall := updateAntenna_eq hants hid n maxAnts
  rw [List.take_of_length_le hlen, ← ht] at hcall
  rw [hcall, htake]
  by_cases hmem : id ∈ ants
  · have hid' : id ∈ antNumbers := ht ▸ List.mem_append_left _ hmem
    rw [if_pos hmem]
    refine ⟨by simp [hid'], by simp [hid'], iff_of_false (by simp) fun h => ?_, fun _ => rfl⟩
    exact (h id (List.mem_append_left _ hmem)).1 rfl
  · have hid' : id ∉ antNumbers := fun h => hmem ((mem_entries hid).mp (ht ▸ h))
    rw [if_neg hmem]
    split
    · -- There is a free entry.
      rename_i hfree
      refine ⟨by simp [hid'], by simp [hid'], iff_of_false (by simp) fun h => ?_, by simp⟩
      refine (h noAntenna (List.mem_append_right _ ?_)).2 rfl
      exact List.mem_replicate.mpr ⟨by omega, rfl⟩
    · rename_i hfull
      refine ⟨by simp [hid'], by simp [hid'], iff_of_true rfl fun x hx => ?_, fun _ => rfl⟩
      have hx : x ∈ ants := by
        rw [show min (maxAnts - ants.length) n = 0 by omega] at hx
        simpa using hx
      exact ⟨fun h => hmem (h ▸ hx), hants x hx⟩

/-! ### A run of calls -/

/-- The table after `updateAntenna` was called with some ids one after the other. -/
def registerIds (antNumbers : List Nat) (maxAnts : Nat) (ids : List Nat) : List Nat :=
  ids.foldl (fun antNumbers id => (updateAntenna antNumbers id maxAnts).2) antNumbers

theorem registerIds_append (antNumbers : List Nat) (maxAnts : Nat) (ids ids' : List Nat) :
    registerIds antNumbers maxAnts (ids ++ ids') = registerIds (registerIds antNumbers maxAnts ids) maxAnts ids' :=
  List.foldl_append

theorem registerIds_kept (hid : id ≠ noAntenna) (h : antNumbers[i]? = some id) (maxAnts : Nat) (ids : List Nat) :
    (registerIds antNumbers maxAnts ids)[i]? = some id := by
  induction ids generalizing antNumbers with
  | nil => exact h
  | cons currAnt ids ih => exact ih (updateAntenna_kept hid h currAnt maxAnts)

theorem registerIds_eq (n k : Nat) (hids : ∀ id ∈ ids, id ≠ noAntenna) :
    registerIds (List.replicate (n + k) noAntenna) n ids =
      ids.eraseDups.take n ++ List.replicate (n + k - min n ids.eraseDups.length) noAntenna := by
  induction ids using List.reverseRecOn with
  | nil => simp [registerIds]
  | append_singleton ids currAnt ih =>
    have hprev : ∀ id ∈ ids, id ≠ noAntenna := fun id h => hids id (List.mem_append_left _ h)
    have hants : ∀ id ∈ ids.eraseDups.take n, id ≠ noAntenna :=
      fun id h => hprev id (List.mem_eraseDups.mp (List.mem_of_mem_take h))
    rw [registerIds_append, ih hprev]
    simp only [registerIds, List.foldl_cons, List.foldl_nil]
    rw [updateAntenna_eq hants (hids currAnt (by simp)), List.take_take, Nat.min_self, List.length_take,
      Distinct.eraseDups_concat]
    rcases Nat.lt_or_ge ids.eraseDups.length n with hlt | hge
    · have hmin : min n ids.eraseDups.length = ids.eraseDups.length := Nat.min_eq_right hlt.le
      rw [List.take_of_length_le hlt.le, hmin]
      by_cases hmem : currAnt ∈ ids
      · rw [if_pos (List.mem_eraseDups.mpr hmem), if_pos hmem, hmin, List.take_of_length_le hlt.le]
      · rw [if_neg fun h => hmem (List.mem_eraseDups.mp h), if_neg hmem, if_pos ⟨hlt, by omega⟩,
          List.take_of_length_le (by simp; omega), List.length_append, List.length_singleton, Nat.min_eq_right hlt,
          List.append_assoc, List.singleton_append, Nat.sub_sub]
    · -- The table is full, so no call changes it.
      rw [Nat.min_eq_left hge, if_neg (fun h : n < n ∧ _ => Nat.lt_irrefl n h.1), apply_ite Prod.snd, ite_self]
      split
      · rw [Nat.min_eq_left hge]
      · rw [List.take_append_of_le_length hge, List.length_append, Nat.min_eq_left (hge.trans (Nat.le_add_right ..))]

/-- What `updateAntenna` and `getAntIndex` make of a table of `n` entries, with `k` more behind it, that was free
    before some ids were registered. -/
structure Registered (n k : Nat) (ids antNumbers : List Nat) : Prop where
  /-- The distinct ids in the order in which they first come, as many as fit, and then free entries. -/
  entries : antNumbers = ids.eraseDups.take n ++ List.replicate (n + k - min n ids.toFinset.card) noAntenna
  nodup : (ids.eraseDups.take n).Nodup
  /-- The result 1 of one more call. -/
  added : ∀ id, id ≠ noAntenna →
    ((updateAntenna antNumbers id n).1 = 1 ↔ id ∉ antNumbers ∧ id ∈ (updateAntenna antNumbers id n).2)
  present : ∀ id, id ≠ noAntenna → ((updateAntenna antNumbers id n).1 = 0 ↔ id ∈ antNumbers)
  full : ∀ id, id ≠ noAntenna →
    ((updateAntenna antNumbers id n).1 = -1 ↔ ∀ x ∈ antNumbers.take n, x ≠ id ∧ x ≠ noAntenna)
  unchanged : ∀ id, id ≠ noAntenna → (updateAntenna antNumbers id n).1 ≠ 1 →
    (updateAntenna antNumbers id n).2 = antNumbers
  position : ∀ id, id ≠ noAntenna → ∀ i, getAntIndex antNumbers id n = some i ↔ antNumbers[i]? = some id
  absent : ∀ id, id ≠ noAntenna → (getAntIndex antNumbers id n = none ↔ id ∉ antNumbers)
  /-- Whatever ids come later. -/
  kept : ∀ ids', (∀ id ∈ ids', id ≠ noAntenna) → ∀ id, id ≠ noAntenna → ∀ i, getAntIndex antNumbers id n = some i →
    getAntIndex (registerIds antNumbers n ids') id n = some i

section
variable {n k : Nat}

theorem registerIds_ne (hids : ∀ id ∈ ids, id ≠ noAntenna) : ∀ id ∈ ids.eraseDups.take n, id ≠ noAntenna :=
  fun id h => hids id (List.mem_eraseDups.mp (List.mem_of_mem_take h))

theorem registerIds_nodup (ids : List Nat) (n : Nat) : (ids.eraseDups.take n).Nodup :=
  (List.take_sublist n _).nodup (Distinct.nodup_eraseDups ids)

theorem registerIds_position (hids : ∀ id ∈ ids, id ≠ noAntenna) (hid : id ≠ noAntenna) :
    getAntIndex (registerIds (List.replicate (n + k) noAntenna) n ids) id n = some i ↔
      (registerIds (List.replicate (n + k) noAntenna) n ids)[i]? = some id := by
  rw [registerIds_eq n k hids, getAntIndex_entries (registerIds_nodup ids n) hid]
  refine and_iff_right_of_imp fun hget => ?_
  obtain ⟨hlt, -⟩ := List.getElem?_eq_some_iff.mp ((getElem?_entries hid).mp hget)
  exact Nat.lt_of_lt_of_le hlt (List.length_take_le ..)

theorem registerIds_registered (n k : Nat) (ids : List Nat) (hids : ∀ id ∈ ids, id ≠ noAntenna) :
    Registered n k ids (registerIds (List.replicate (n + k) noAntenna) n ids) := by
  have heq := registerIds_eq n k hids
  have codes := fun (id : Nat) (hid : id ≠ noAntenna) =>
    updateAntenna_codes (registerIds_ne hids) hid (List.length_take_le ..) heq
  refine ⟨by rw [heq, Distinct.length_eraseDups], registerIds_nodup ids n, fun id hid => (codes id hid).1,
    fun id hid => (codes id hid).2.1, fun id hid => (codes id hid).2.2.1, fun id hid => (codes id hid).2.2.2,
    fun id hid i => registerIds_position hids hid, fun id hid => ?_, fun ids' hids' id hid i hi => ?_⟩
  · rw [← Option.not_isSome_iff_eq_none, not_iff_not, Option.isSome_iff_exists, List.mem_iff_getElem?]
    exact exists_congr fun i => registerIds_position hids hid
  · rw [registerIds_position hids hid] at hi
    have hall : ∀ id ∈ ids ++ ids', id ≠ noAntenna := by
      intro id h
      exact (List.mem_append.mp h).elim (hids id) (hids' id)
    rw [← registerIds_append, registerIds_position hall hid, registerIds_append]
    exact registerIds_kept hid hi n ids'

theorem registerIds_registered_twoPlaces :
    Registered 2 2 [7, 5, 7, 9] (registerIds (List.replicate (2 + 2) noAntenna) 2 [7, 5, 7, 9]) :=
  registerIds_registered 2 2 [7, 5, 7, 9] (by decide)

end

end VoltRec
