import Mathlib.Tactic.Ring
import Mathlib.Tactic.Common

/-! Positions of cells of equal length: `i * L + j` with `j < L` names cell `i` and place `j` in it, and
    such positions nest. -/

namespace Radix

theorem div_mul_add {i j L : Nat} (h : j < L) : (i * L + j) / L = i := by
  rw [Nat.mul_comm, Nat.mul_add_div (by omega), Nat.div_eq_of_lt h, Nat.add_zero]

theorem mod_mul_add {i j L : Nat} (h : j < L) : (i * L + j) % L = j := by
  rw [Nat.mul_comm, Nat.mul_add_mod, Nat.mod_eq_of_lt h]

theorem inj {i i' j j' L : Nat} (hj : j < L) (hj' : j' < L) (h : i * L + j = i' * L + j') : i = i' ∧ j = j' := by
  constructor
  · rw [← div_mul_add (i := i) hj, h, div_mul_add hj']
  · rw [← mod_mul_add (i := i) hj, h, mod_mul_add hj']

theorem lt_mul {i j m L : Nat} (hi : i < m) (hj : j < L) : i * L + j < m * L := by
  calc i * L + j < i * L + L := by omega
    _ = (i + 1) * L := by ring
    _ ≤ m * L := Nat.mul_le_mul_right L hi

/-- A cell other than `i` has no place in common with cell `i`. -/
theorem disjoint {i i' j L : Nat} (hj : j < L) (hne : i ≠ i') : i * L + j < i' * L ∨ i' * L + L ≤ i * L + j := by
  rcases Nat.lt_or_gt_of_ne hne with h | h
  · exact Or.inl (by simpa using lt_mul h hj)
  · right
    calc i' * L + L = (i' + 1) * L := by ring
      _ ≤ i * L := Nat.mul_le_mul_right L h
      _ ≤ i * L + j := Nat.le_add_right _ _

theorem exists_digits {m L x : Nat} (h : x < m * L) : ∃ i j, i < m ∧ j < L ∧ i * L + j = x := by
  have hL : 0 < L := Nat.pos_of_ne_zero fun h0 => by simp [h0] at h
  refine ⟨x / L, x % L, Nat.div_lt_of_lt_mul (by rwa [Nat.mul_comm]), Nat.mod_lt _ hL, ?_⟩
  rw [Nat.mul_comm, Nat.div_add_mod]

/-- Reading digits to the base `L`, the first one first, gives the number back, digit by digit. -/
theorem foldl_digits {L N x : Nat} {d : Nat → Nat} (h : ∀ j < N, d j = x / L ^ (N - 1 - j) % L) :
    ∀ n ≤ N, (List.range n).foldl (fun acc j => acc * L + d j) 0 = x / L ^ (N - n) % L ^ n := by
  intro n hn
  induction n with
  | zero => simp [Nat.mod_one]
  | succ n ih =>
    have hdiv : x / L ^ (N - n) = x / L ^ (N - (n + 1)) / L := by
      rw [Nat.div_div_eq_div_mul, ← Nat.pow_succ, show (N - (n + 1)).succ = N - n by omega]
    rw [List.range_succ, List.foldl_append, ih (by omega), List.foldl_cons, List.foldl_nil, h n hn, hdiv,
      show N - 1 - n = N - (n + 1) by omega, Nat.pow_succ', Nat.mod_mul]
    ring

/-! ### Lists of pieces of one length -/

variable {α β : Type*} {g : β → List α} {L : Nat}

theorem length_flatMap {ls : List β} (h : ∀ l ∈ ls, (g l).length = L) : (ls.flatMap g).length = ls.length * L := by
  induction ls with
  | nil => simp
  | cons l ls ih =>
    rw [List.flatMap_cons, List.length_append, h l List.mem_cons_self,
      ih fun l hl => h l (List.mem_cons_of_mem _ hl), List.length_cons, Nat.succ_mul, Nat.add_comm]

theorem getElem?_flatMap {ls : List β} (h : ∀ l ∈ ls, (g l).length = L) {l : β} {k x : Nat} (hl : ls[k]? = some l)
    (hx : x < L) : (ls.flatMap g)[k * L + x]? = (g l)[x]? := by
  induction ls generalizing k with
  | nil => simp at hl
  | cons l' ls ih =>
    have hlen : (g l').length = L := h l' List.mem_cons_self
    rw [List.flatMap_cons]
    cases k with
    | zero =>
      obtain rfl : l' = l := by simpa using hl
      rw [Nat.zero_mul, Nat.zero_add, List.getElem?_append_left (by omega)]
    | succ k =>
      have hk : (k + 1) * L + x = (g l').length + (k * L + x) := by
        rw [hlen, Nat.succ_mul]
        omega
      rw [hk, List.getElem?_append_right (Nat.le_add_right _ _), Nat.add_sub_cancel_left]
      exact ih (fun l hl => h l (List.mem_cons_of_mem _ hl)) (by simpa using hl)

end Radix
