import Mathlib.Data.List.Infix
import Mathlib.Tactic.Common

/-! Runs of a labelled transition relation and of a deterministic machine, and the induction rules for
    them: an invariant that holds at the start and that one step keeps holds at the end of every run. -/

namespace Lts

variable {σ τ α β : Type*}

/-- The runs of `step` from `s₀`, with the labels in the order taken. -/
inductive Run (step : σ → α → σ → Prop) (s₀ : σ) : List α → σ → Prop
  | start : Run step s₀ [] s₀
  | next {tr : List α} {s t : σ} {a : α} : Run step s₀ tr s → step s a t → Run step s₀ (tr ++ [a]) t

namespace Run

variable {step : σ → α → σ → Prop} {s₀ : σ}

/-- The step of an invariant may use the run that led to the state. -/
theorem invariant {I : List α → σ → Prop} (h0 : I [] s₀)
    (hstep : ∀ tr s a t, Run step s₀ tr s → I tr s → step s a t → I (tr ++ [a]) t) {tr : List α} {s : σ}
    (h : Run step s₀ tr s) : I tr s := by
  induction h with
  | start => exact h0
  | next hr hs ih => exact hstep _ _ _ _ hr ih hs

theorem append {tr tr' : List α} {s t : σ} (h : Run step s₀ tr s) (h' : Run step s tr' t) :
    Run step s₀ (tr ++ tr') t := by
  induction h' with
  | start => simpa using h
  | next _ hs ih => simpa using ih.next hs

/-- A relation that follows each step by a run of another system carries runs over. -/
theorem simulate {step' : τ → β → τ → Prop} {t₀ : τ} {R : σ → τ → Prop} {f : α → List β} (h0 : R s₀ t₀)
    (hstep : ∀ s a s' t, R s t → step s a s' → ∃ t', R s' t' ∧ ∀ tr, Run step' t₀ tr t → Run step' t₀ (tr ++ f a) t')
    {tr : List α} {s : σ} (h : Run step s₀ tr s) : ∃ t, R s t ∧ Run step' t₀ (tr.flatMap f) t := by
  induction h with
  | start => exact ⟨t₀, h0, .start⟩
  | next _ hs ih =>
    obtain ⟨t, hR, hrun⟩ := ih
    obtain ⟨t', hR', hnext⟩ := hstep _ _ _ t hR hs
    exact ⟨t', hR', by simpa using hnext _ hrun⟩

/-- A part of a system, seen through `π`, takes the steps whose labels `f` shows it, and no others. -/
def Projects (step : σ → α → σ → Prop) (step' : τ → β → τ → Prop) (π : σ → τ) (f : α → Option β) : Prop :=
  ∀ s a t, step s a t → (∃ b, f a = some b ∧ step' (π s) b (π t)) ∨ f a = none ∧ π t = π s

/-- The part then runs by itself. -/
theorem project {step' : τ → β → τ → Prop} {π : σ → τ} {f : α → Option β} (h : Projects step step' π f)
    {tr : List α} {s : σ} (hr : Run step s₀ tr s) : Run step' (π s₀) (tr.filterMap f) (π s) := by
  induction hr with
  | start => exact .start
  | next _ hs ih =>
    rw [List.filterMap_append]
    rcases h _ _ _ hs with ⟨b, hb, hstep⟩ | ⟨hnone, hsame⟩
    · simpa [hb] using ih.next hstep
    · simpa [hnone, hsame] using ih

/-- Each label of a run was the label of a step from a state that a shorter run reaches. -/
theorem split {tr tr' : List α} {a : α} {s : σ} (h : Run step s₀ (tr ++ a :: tr') s) :
    ∃ t t', Run step s₀ tr t ∧ step t a t' := by
  generalize heq : tr ++ a :: tr' = l at h
  induction h generalizing tr' with
  | start => simp at heq
  | @next l s t b hr hs ih =>
    rcases List.eq_nil_or_concat tr' with rfl | ⟨tr', b', rfl⟩
    · obtain ⟨rfl, hb⟩ := List.append_inj' heq rfl
      cases hb
      exact ⟨s, t, hr, hs⟩
    · have heq' : (tr ++ a :: tr') ++ [b'] = l ++ [b] := by simpa using heq
      exact ih (List.append_inj' heq' rfl).1

end Run

/-- A machine that executes a list of instructions keeps an invariant that each of them keeps where it
    stands in the list. -/
theorem foldl_upTo {f : σ → α → σ} {s₀ : σ} {I : σ → Prop} (h0 : I s₀) {prog : List α}
    (hstep : ∀ pre a, pre ++ [a] <+: prog → I (pre.foldl f s₀) → I (f (pre.foldl f s₀) a)) :
    ∀ {pre : List α}, pre <+: prog → I (pre.foldl f s₀) := by
  intro pre
  induction pre using List.reverseRecOn with
  | nil => exact fun _ => h0
  | append_singleton pre a ih =>
    intro hp
    rw [List.foldl_append]
    exact hstep pre a hp (ih ((List.prefix_append pre [a]).trans hp))

end Lts
