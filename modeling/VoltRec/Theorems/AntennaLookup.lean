import VoltRec.AtaObsInfo
import VoltRec.Theorems.AntennaTable

/-! The two antenna lookups. `get_ata_ant_index` finds what `getAntIndex` finds in every table that is not full. Its
    guard takes as many antennas as the table has entries for too many, so it finds none of a full table. -/

namespace VoltRec.VoltOuter

variable {info : AtaObsInfo} {id : Nat}

/-- An id that was passed as an `int32_t` is compared as what it was before. -/
theorem toInt_emod (hid : id < 2 ^ 32) : toInt id % 2 ^ 32 = id := by
  have hmod : (id : Int).bmod (2 ^ 32) % ((2 ^ 32 : Nat) : Int) = id % ((2 ^ 32 : Nat) : Int) := Int.bmod_emod
  simp only [toInt]
  omega

theorem getAtaAntIndex_eq (info : AtaObsInfo) (hid : id < 2 ^ 32) :
    getAtaAntIndex info (toInt id) =
      if info.nants < maxants then getAntIndex info.antids id info.nants else none := by
  have heq : (fun a : Nat => (a : Int) == toInt id % 2 ^ 32) = (· == id) := by
    funext a
    rw [toInt_emod hid, Bool.eq_iff_iff, beq_iff_eq, beq_iff_eq, Int.natCast_inj]
  rw [getAtaAntIndex, heq, getAntIndex]
  by_cases hfull : info.nants < maxants
  · rw [if_pos hfull, if_neg (Nat.not_le.mpr hfull)]
  · rw [if_neg hfull, if_pos (Nat.not_lt.mp hfull)]

/-- The lookups of both programs in one table: the first place below the number of antennas, or none. -/
structure LookupsAgree (info : AtaObsInfo) (id : Nat) : Prop where
  eq : getAtaAntIndex info (toInt id) = getAntIndex info.antids id info.nants
  first : ∀ i, getAtaAntIndex info (toInt id) = some i ↔
    i < info.nants ∧ info.antids[i]? = some id ∧ ∀ j < i, info.antids[j]? ≠ some id

theorem lookupsAgree_iff (info : AtaObsInfo) (id : Nat) (hid : id < 2 ^ 32) :
    LookupsAgree info id ↔ info.nants < maxants ∨ id ∉ info.antids.take info.nants := by
  have hata := getAtaAntIndex_eq info hid
  constructor
  · intro h
    by_cases hfull : info.nants < maxants
    · exact Or.inl hfull
    · rw [if_neg hfull, h.eq] at hata
      exact Or.inr (getAntIndex_eq_none.mp hata)
  · intro h
    have heq : getAtaAntIndex info (toInt id) = getAntIndex info.antids id info.nants := by
      rw [hata]
      rcases h with hroom | habsent
      · rw [if_pos hroom]
      · rw [getAntIndex_eq_none.mpr habsent, ite_self]
    exact ⟨heq, fun i => heq ▸ getAntIndex_eq_some⟩

theorem lookupsAgree_threeAntennas :
    LookupsAgree { nchan := 256, nants := 3, schan := 0, antids := [7, 8, 0xFFFFFFFF, 9] } 0xFFFFFFFF ↔
      3 < maxants ∨ 0xFFFFFFFF ∉ [7, 8, 0xFFFFFFFF, 9].take 3 :=
  lookupsAgree_iff { nchan := 256, nants := 3, schan := 0, antids := [7, 8, 0xFFFFFFFF, 9] } 0xFFFFFFFF (by decide)

theorem fullTable_not_agree :
    ¬LookupsAgree { nchan := 256, nants := 4, schan := 0, antids := [1, 2, 3, 4] } 1 := by
  intro h
  exact absurd h.eq (by decide)

end VoltRec.VoltOuter
