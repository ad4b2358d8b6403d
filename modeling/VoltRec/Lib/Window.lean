import Mathlib.Order.Interval.Finset.Nat
import Mathlib.Data.Fintype.Card

/-! A window of `n` consecutive numbers, one in each of `n` places. Places are given up and filled with the
    next numbers; the window stays consecutive exactly when the places given up hold the lowest numbers. -/

namespace Window

variable {n k₀ : ℕ} {σ : Fin n → ℕ}

theorem card_le_sub {D : Finset (Fin n)} (hinj : Function.Injective σ) (hlow : ∀ i, k₀ ≤ σ i) {x : ℕ}
    (h : ∀ j ∈ D, σ j < x) : D.card ≤ x - k₀ := by
  have hsub : D.image σ ⊆ Finset.Ico k₀ x := by
    intro y hy
    obtain ⟨j, hj, rfl⟩ := Finset.mem_image.mp hy
    exact Finset.mem_Ico.mpr ⟨hlow j, h j hj⟩
  have := Finset.card_le_card hsub
  rwa [Finset.card_image_of_injective _ hinj, Nat.card_Ico] at this

/-- Every number of the window is in some place. -/
theorem exists_place (hinj : Function.Injective σ) (hlow : ∀ i, k₀ ≤ σ i) (hhigh : ∀ i, σ i < k₀ + n) {k : ℕ}
    (hk : k₀ ≤ k) (hk' : k < k₀ + n) : ∃ i, σ i = k := by
  have hsub : Finset.univ.image σ ⊆ Finset.Ico k₀ (k₀ + n) := by
    intro y hy
    obtain ⟨j, -, rfl⟩ := Finset.mem_image.mp hy
    exact Finset.mem_Ico.mpr ⟨hlow j, hhigh j⟩
  have heq := Finset.eq_of_subset_of_card_le hsub (by simp [Finset.card_image_of_injective _ hinj])
  have hmem : k ∈ Finset.univ.image σ := heq ▸ Finset.mem_Ico.mpr ⟨hk, hk'⟩
  simpa using hmem

/-- The places `D` are given up. What is kept starts at the right number exactly when everything given up
    is lower than everything kept. -/
theorem kept_iff_lower (hinj : Function.Injective σ) (hlow : ∀ i, k₀ ≤ σ i) (hhigh : ∀ i, σ i < k₀ + n)
    (D : Finset (Fin n)) : (∀ i ∉ D, k₀ + D.card ≤ σ i) ↔ ∀ i ∉ D, ∀ j ∈ D, σ j < σ i := by
  constructor
  · intro h i hi j hj
    -- The kept places take up all numbers from `k₀ + D.card` on, so `j` has a lower one.
    have hsub : Dᶜ.image σ ⊆ Finset.Ico (k₀ + D.card) (k₀ + n) := by
      intro y hy
      obtain ⟨l, hl, rfl⟩ := Finset.mem_image.mp hy
      exact Finset.mem_Ico.mpr ⟨h l (Finset.mem_compl.mp hl), hhigh l⟩
    have hcard : (Dᶜ.image σ).card = n - D.card := by
      rw [Finset.card_image_of_injective _ hinj, Finset.card_compl, Fintype.card_fin]
    have heq := Finset.eq_of_subset_of_card_le hsub (by rw [hcard, Nat.card_Ico]; omega)
    have hnot : σ j ∉ Dᶜ.image σ := by
      intro hmem
      obtain ⟨l, hl, hlj⟩ := Finset.mem_image.mp hmem
      exact Finset.mem_compl.mp hl (hinj hlj ▸ hj)
    rw [heq, Finset.mem_Ico] at hnot
    have := hhigh j
    have := h i hi
    omega
  · intro h i hi
    have := card_le_sub hinj hlow (h i hi)
    have := hlow i
    omega

end Window
