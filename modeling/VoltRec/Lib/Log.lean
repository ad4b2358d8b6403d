import Mathlib.Tactic.Common

/-! Logs with the newest entry first: what holds of each entry and the entries before it. -/

namespace Log

variable {α : Type*} {P : α → List α → Prop} {a : α} {log : List α}

/-- Every entry stands in the relation `P` to the log it was added to. -/
def Each (P : α → List α → Prop) (log : List α) : Prop :=
  ∀ later a earlier, log = later ++ a :: earlier → P a earlier

theorem Each.nil : Each P [] := fun later _ _ h => absurd h.symm (by simp)

theorem each_cons : Each P (a :: log) ↔ P a log ∧ Each P log := by
  refine ⟨fun h => ⟨h [] a log rfl, fun later b earlier hl => h (a :: later) b earlier (by rw [hl]; rfl)⟩, ?_⟩
  rintro ⟨ha, h⟩ (_ | ⟨c, later⟩) b earlier hl
  · cases hl
    exact ha
  · exact h later b earlier (List.cons.inj hl).2

/-- What holds of each entry of a log holds of those before a point. -/
theorem each_of_append {later : List α} (h : Each P (later ++ log)) : Each P log :=
  fun more a earlier hl => h (later ++ more) a earlier (by rw [hl, List.append_assoc])

end Log
