import VoltRec.Lib.Memory
import VoltRec.Lib.Radix
import Mathlib.Data.List.Induction

/-! Partial contents laid over a memory, and copies in two dimensions: rows of one length, a stride apart. -/

namespace Memory

variable {β : Type*}

/-- The cells that `f` has a value for take it. -/
def overlay (m : Nat → β) (f : Nat → Option β) : Nat → β := fun x => (f x).getD (m x)

@[simp] theorem overlay_some {m : Nat → β} {f : Nat → Option β} {x : Nat} {v : β} (h : f x = some v) :
    overlay m f x = v := by
  simp [overlay, h]

@[simp] theorem overlay_none {m : Nat → β} {f : Nat → Option β} {x : Nat} (h : f x = none) : overlay m f x = m x := by
  simp [overlay, h]

/-- Of several contents laid over a memory, the last one that has a value for a cell decides it. -/
theorem foldl_overlay {ι : Type*} (m : Nat → β) {f : ι → Nat → Option β} {v : ι → Option β} {x : Nat} (l : List ι)
    (h : ∀ i ∈ l, f i x = v i) : (l.map f).foldl overlay m x = (l.reverse.findSome? v).getD (m x) := by
  induction l using List.reverseRecOn with
  | nil => rfl
  | append_singleton l i ih =>
    rw [List.map_append, List.foldl_append, List.reverse_append, List.reverse_singleton, List.singleton_append,
      List.findSome?_cons, ← h i (by simp)]
    change overlay ((l.map f).foldl overlay m) (f i) x = _
    cases hi : f i x with
    | none => rw [overlay_none hi, ih fun j hj => h j (List.mem_append_left _ hj)]
    | some v => rw [overlay_some hi, Option.getD_some]

/-- `rows` rows of `len` cells, `ostride` apart from `off` on; row `i` takes its values from `i * istride` on. -/
def rowsAt (src : Nat → β) (off ostride istride len rows : Nat) : Nat → Option β := fun x =>
  if off ≤ x ∧ (x - off) / ostride < rows ∧ (x - off) % ostride < len then
    some (src ((x - off) / ostride * istride + (x - off) % ostride))
  else none

section Rows
variable {src : Nat → β} {m : Nat → β} {off ostride istride len rows : Nat}

theorem rowsAt_apply (hlen : len ≤ ostride) {i j : Nat} (hi : i < rows) (hj : j < len) :
    rowsAt src off ostride istride len rows (off + (i * ostride + j)) = some (src (i * istride + j)) := by
  have hsub : off + (i * ostride + j) - off = i * ostride + j := by omega
  have hlt : j < ostride := Nat.lt_of_lt_of_le hj hlen
  simp only [rowsAt, hsub, Radix.div_mul_add hlt, Radix.mod_mul_add hlt, hi, hj, Nat.le_add_right, and_self, if_true]

/-- A cell that a row gives a value to lies in it. -/
theorem rowsAt_eq_some {x : Nat} {v : β} (h : rowsAt src off ostride istride len rows x = some v) :
    ∃ i j, i < rows ∧ j < len ∧ x = off + (i * ostride + j) ∧ v = src (i * istride + j) := by
  simp only [rowsAt, Option.ite_none_right_eq_some, Option.some.injEq] at h
  obtain ⟨⟨hle, hi, hj⟩, rfl⟩ := h
  refine ⟨_, _, hi, hj, ?_, rfl⟩
  rw [Nat.mul_comm, Nat.div_add_mod]
  omega

@[simp] theorem rowsAt_zero : rowsAt src off ostride istride len 0 = fun _ => none := by
  funext x
  simp [rowsAt]

/-- The first row, and the rows behind it. -/
theorem overlay_rowsAt_succ (hlen : len ≤ ostride) :
    overlay (copy m off fun j : Fin len => src j)
        (rowsAt (fun x => src (istride + x)) (off + ostride) ostride istride len rows) =
      overlay m (rowsAt src off ostride istride len (rows + 1)) := by
  funext x
  have hcell : ∀ i j, i < rows + 1 → j < len → x = off + (i * ostride + j) →
      overlay (copy m off fun j : Fin len => src j)
        (rowsAt (fun x => src (istride + x)) (off + ostride) ostride istride len rows) x = src (i * istride + j) := by
    rintro i j hi hj rfl
    cases i with
    | zero =>
      have hnone : rowsAt (fun x => src (istride + x)) (off + ostride) ostride istride len rows
          (off + (0 * ostride + j)) = none := by
        rw [rowsAt, if_neg]
        omega
      rw [overlay_none hnone]
      have hcopy : copy m off (fun j : Fin len => src j) (off + j) = src j := copy_add ⟨j, hj⟩
      simpa using hcopy
    | succ i =>
      have hx : off + ((i + 1) * ostride + j) = off + ostride + (i * ostride + j) := by rw [Nat.succ_mul]; omega
      rw [hx, overlay_some (rowsAt_apply hlen (by omega) hj)]
      congr 1
      rw [Nat.succ_mul]
      omega
  cases h : rowsAt src off ostride istride len (rows + 1) x with
  | some v =>
    obtain ⟨i, j, hi, hj, hx, rfl⟩ := rowsAt_eq_some h
    rw [overlay_some h, hcell i j hi hj hx]
  | none =>
    rw [overlay_none h]
    have hno : ∀ i j, i < rows + 1 → j < len → x ≠ off + (i * ostride + j) := by
      rintro i j hi hj rfl
      rw [rowsAt_apply hlen hi hj] at h
      cases h
    have hrest : rowsAt (fun x => src (istride + x)) (off + ostride) ostride istride len rows x = none := by
      cases hr : rowsAt (fun x => src (istride + x)) (off + ostride) ostride istride len rows x with
      | none => rfl
      | some v =>
        obtain ⟨i, j, hi, hj, hx, -⟩ := rowsAt_eq_some hr
        exact absurd (by rw [hx, Nat.succ_mul]; omega) (hno (i + 1) j (by omega) hj)
    rw [overlay_none hrest]
    refine copy_of_not_mem ?_
    by_contra hin
    exact hno 0 (x - off) (by omega) (by omega) (by omega)

end Rows

end Memory
