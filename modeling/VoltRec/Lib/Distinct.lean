import Mathlib.Data.Finset.Card
import Mathlib.Data.List.Induction

/-! The distinct entries of a list in the order in which they first occur (`List.eraseDups`). -/

namespace Distinct

variable {α : Type*} [DecidableEq α]

theorem eraseDups_concat (l : List α) (x : α) :
    (l ++ [x]).eraseDups = if x ∈ l then l.eraseDups else l.eraseDups ++ [x] := by
  rw [List.eraseDups_append]
  by_cases h : x ∈ l <;> simp [List.removeAll, h, List.eraseDups_cons]

theorem nodup_eraseDups (l : List α) : l.eraseDups.Nodup := by
  induction l using List.reverseRecOn with
  | nil => simp
  | append_singleton l x ih =>
    rw [eraseDups_concat]
    split
    · exact ih
    · rename_i hx
      rw [List.nodup_append]
      refine ⟨ih, List.nodup_singleton x, fun y hy z hz heq => hx ?_⟩
      rw [List.mem_singleton.mp hz] at heq
      exact heq ▸ List.mem_eraseDups.mp hy

theorem length_eraseDups (l : List α) : l.eraseDups.length = l.toFinset.card := by
  rw [← List.toFinset_card_of_nodup (nodup_eraseDups l)]
  congr 1
  ext x
  rw [List.mem_toFinset, List.mem_toFinset, List.mem_eraseDups]

/-- A list has no more distinct entries than a list that holds them all. -/
theorem length_eraseDups_le {l m : List α} (h : l ⊆ m) : l.eraseDups.length ≤ m.toFinset.card := by
  rw [length_eraseDups]
  refine Finset.card_le_card fun x hx => ?_
  rw [List.mem_toFinset] at hx ⊢
  exact h hx

end Distinct
