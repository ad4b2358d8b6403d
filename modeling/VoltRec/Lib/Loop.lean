import Mathlib.Tactic.Common

/-! Loops. A loop over a list, seen through one component of the state: what each pass leaves alone the loop leaves
    alone, and what one pass sets and no other touches has that value in the end. A loop whose body may leave it:
    what full passes keep, and where it ends. -/

namespace Loop

/-! ### Loops over lists -/

section Foldl
variable {σ γ ι : Type*} {f : σ → ι → σ}

theorem foldl_keep (view : σ → γ) {l : List ι} (h : ∀ i ∈ l, ∀ s, view (f s i) = view s) (s : σ) :
    view (l.foldl f s) = view s := by
  induction l generalizing s with
  | nil => rfl
  | cons i l ih =>
    rw [List.foldl_cons, ih (fun j hj => h j (List.mem_cons_of_mem _ hj))]
    exact h i List.mem_cons_self s

theorem foldl_set (view : σ → γ) {l : List ι} {i : ι} {v : γ} (hi : i ∈ l) (hset : ∀ s, view (f s i) = v)
    (hkeep : ∀ j ∈ l, j ≠ i → ∀ s, view (f s j) = view s) (s : σ) : view (l.foldl f s) = v := by
  induction l generalizing s with
  | nil => exact absurd hi List.not_mem_nil
  | cons k l ih =>
    have hkeep' : ∀ j ∈ l, j ≠ i → ∀ s, view (f s j) = view s := fun j hj => hkeep j (List.mem_cons_of_mem _ hj)
    rw [List.foldl_cons]
    by_cases hl : i ∈ l
    · exact ih hl hkeep' _
    · have hki : k = i := ((List.mem_cons.mp hi).resolve_right hl).symm
      rw [foldl_keep view fun j hj => hkeep' j hj fun hji => hl (hji ▸ hj)]
      exact hki ▸ hset s

end Foldl

/-! ### Loops that are left -/

section Passes
variable {σ ε : Type*} {f : σ → Except ε σ}

/-- `n` passes with the body `f`, unless one of them leaves the loop. -/
def passes (f : σ → Except ε σ) : Nat → σ → Except ε σ
  | 0, s => .ok s
  | n + 1, s => (f s).bind (passes f n)

theorem passes_ok {s t : σ} (h : f s = .ok t) (n : Nat) : passes f (n + 1) s = passes f n t := by
  rw [passes, h]
  rfl

theorem passes_error {s : σ} {e : ε} (h : f s = .error e) (n : Nat) : passes f (n + 1) s = .error e := by
  rw [passes, h]
  rfl

/-- A loop that is left by the pass behind `k` full ones. -/
theorem passes_ends {k : Nat} {s t : σ} {e : ε} (h : passes f k s = .ok t) (he : f t = .error e) {n : Nat}
    (hn : k < n) : passes f n s = .error e := by
  induction k generalizing s n with
  | zero =>
    obtain ⟨n, rfl⟩ : ∃ m, n = m + 1 := ⟨n - 1, by omega⟩
    cases h
    exact passes_error he n
  | succ k ih =>
    obtain ⟨n, rfl⟩ : ∃ m, n = m + 1 := ⟨n - 1, by omega⟩
    cases hs : f s with
    | error e' => rw [passes_error hs] at h; cases h
    | ok s' =>
      rw [passes_ok hs] at h ⊢
      exact ih h (by omega)

theorem passes_run {I : Nat → σ → Prop} {k : Nat} {s : σ} (h0 : I 0 s)
    (hstep : ∀ i < k, ∀ s, I i s → ∃ t, f s = .ok t ∧ I (i + 1) t) : ∃ t, passes f k s = .ok t ∧ I k t := by
  induction k generalizing s I with
  | zero => exact ⟨s, rfl, h0⟩
  | succ k ih =>
    obtain ⟨s', hs, h1⟩ := hstep 0 (Nat.succ_pos k) s h0
    obtain ⟨t, ht, hI⟩ := ih (I := fun i => I (i + 1)) h1 fun i hi => hstep (i + 1) (Nat.succ_lt_succ hi)
    exact ⟨t, (passes_ok hs k).trans ht, hI⟩

end Passes

end Loop
