import Mathlib.Algebra.Order.Group.Int
import Mathlib.Data.List.Basic
import Mathlib.Logic.Function.Basic
import Mathlib.Tactic.Common

/-! A queue in a ring of `n` cells. Item `k` of all that ever went in stands in cell `k % n`, and the first `q`
    have gone out again. Since both counts grow without bound, only their remainders are kept as indices. -/

namespace RingBuffer

variable {α : Type*} {n p q : Nat} {cells : Nat → α} {items : List α}

/-- The items that are still in stand in their cells. -/
def Holds (n : Nat) (cells : Nat → α) (items : List α) (q : Nat) : Prop :=
  ∀ k, q ≤ k → k < items.length → items[k]? = some (cells (k % n))

theorem Holds.nil : Holds n cells [] 0 := fun k _ hk => absurd hk (Nat.not_lt_zero k)

theorem mod_ne_mod (hlt : q < p) (hn : p < q + n) : q % n ≠ p % n := by
  intro h
  have h0 : (p - q) % n = 0 := Nat.sub_mod_eq_zero_of_mod_eq h.symm
  rw [Nat.mod_eq_of_lt (by omega)] at h0
  omega

/-- A new item goes into the cell behind the last one, as long as that cell is not in use. -/
theorem Holds.push (h : Holds n cells items q) (hn : items.length < q + n) (x : α) :
    Holds n (Function.update cells (items.length % n) x) (items ++ [x]) q := by
  intro k hq hk
  rw [List.length_append, List.length_singleton] at hk
  rcases Nat.lt_or_ge k items.length with hlt | hge
  · rw [List.getElem?_append_left hlt, Function.update_of_ne (mod_ne_mod hlt (by omega)), h k hq hlt]
  · obtain rfl : k = items.length := by omega
    simp

/-- The oldest item comes out of the cell it went into. -/
theorem Holds.pop (h : Holds n cells items q) (hlt : q < items.length) :
    items[q]? = some (cells (q % n)) ∧ Holds n cells items (q + 1) :=
  ⟨h q (Nat.le_refl q) hlt, fun k hk => h k (by omega)⟩

/-- The number of items in the ring, from the two indices. -/
theorem sub_emod (hle : q ≤ p) (hn : p < q + n) : ((p % n : Nat) - (q % n : Nat) : Int) % n = (p - q : Nat) := by
  rw [Int.natCast_mod, Int.natCast_mod, ← Int.sub_emod, Int.natCast_sub hle]
  exact Int.emod_eq_of_lt (by omega) (by omega)

/-- The next cell is the oldest one exactly when all cells but one are in use. -/
theorem succ_mod_eq_iff (hle : q ≤ p) (hn : p < q + n) : (p + 1) % n = q % n ↔ p + 1 = q + n := by
  constructor
  · intro h
    by_contra hne
    exact mod_ne_mod (by omega) (by omega) h.symm
  · intro h
    rw [h, Nat.add_mod_right]

end RingBuffer
