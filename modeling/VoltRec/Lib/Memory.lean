import Mathlib.Data.List.FinRange
import Mathlib.Data.List.Induction
import Mathlib.Logic.Function.Basic
import Mathlib.Tactic.Common

/-! A memory of cells numbered from 0, with the two bulk writes of the C library, at once and cell by cell. -/

namespace Memory

variable {β : Type*}

/-- The `n` cells from `off` on take the value `v` (`memset`). -/
def fill (m : Nat → β) (off n : Nat) (v : β) : Nat → β :=
  fun x => if off ≤ x ∧ x < off + n then v else m x

/-- The `n` cells from `off` on take the values of `v` (`memcpy`). -/
def copy (m : Nat → β) (off : Nat) {n : Nat} (v : Fin n → β) : Nat → β :=
  fun x => if h : off ≤ x ∧ x < off + n then v ⟨x - off, by omega⟩ else m x

/-- The `n` cells from `off` on, as a list. -/
def slice (m : Nat → β) (off n : Nat) : List β := (List.range n).map fun j => m (off + j)

theorem fill_of_lt {m : Nat → β} {n x : Nat} {v : β} (h : x < n) : fill m 0 n v x = v := by
  simp [fill, h]

theorem copy_add {m : Nat → β} {off n : Nat} {v : Fin n → β} (j : Fin n) : copy m off v (off + j) = v j := by
  have h : off ≤ off + j.val ∧ off + j.val < off + n := by omega
  simp [copy, h]

theorem copy_of_not_mem {m : Nat → β} {off n x : Nat} {v : Fin n → β} (h : x < off ∨ off + n ≤ x) :
    copy m off v x = m x := by
  have h' : ¬(off ≤ x ∧ x < off + n) := by omega
  simp [copy, h']

theorem copy_congr {m m' : Nat → β} {off n x : Nat} {v : Fin n → β} (h : m' x = m x) :
    copy m' off v x = copy m off v x := by
  simp [copy, h]

@[simp] theorem length_slice {m : Nat → β} {off n : Nat} : (slice m off n).length = n := by simp [slice]

theorem slice_congr {m m' : Nat → β} {n : Nat} (h : ∀ x, x < n → m' x = m x) : slice m' 0 n = slice m 0 n :=
  List.map_congr_left fun j hj => h _ (by simpa using hj)

theorem getElem?_slice {m : Nat → β} {off n j : Nat} (h : j < n) : (slice m off n)[j]? = some (m (off + j)) := by
  simp [slice, h]

theorem slice_add (m : Nat → β) (off n k : Nat) : slice m off (n + k) = slice m off n ++ slice m (off + n) k := by
  simp only [slice, List.range_add, List.map_append, List.map_map, Nat.add_assoc]
  rfl

/-! ### Overwritten cells -/

/-- Whatever the memories held, `f` leaves the same value in cell `x` of memory `i`. -/
def Overwrites {ι : Type*} (f : (ι → Nat → β) → ι → Nat → β) (i : ι) (x : Nat) : Prop := ∀ m m', f m i x = f m' i x

section Overwrites
variable {ι : Type*} [Nontrivial β] {i : ι} {x : Nat}

theorem not_overwrites_id : ¬Overwrites (fun m : ι → Nat → β => m) i x := by
  intro h
  obtain ⟨a, b, hab⟩ := exists_pair_ne β
  exact hab (h (fun _ _ => a) fun _ _ => b)

/-- `copy` overwrites the cells of its range and no others. -/
theorem overwrites_copy [DecidableEq ι] {k : ι} {off n : Nat} {v : Fin n → β} :
    Overwrites (fun m : ι → Nat → β => Function.update m k (copy (m k) off v)) i x ↔
      i = k ∧ off ≤ x ∧ x < off + n := by
  constructor
  · intro h
    by_contra hout
    have hkeep : ∀ m : ι → Nat → β, Function.update m k (copy (m k) off v) i x = m i x := by
      intro m
      by_cases hi : i = k
      · have hx : x < off ∨ off + n ≤ x := by
          have : ¬(off ≤ x ∧ x < off + n) := fun hx => hout ⟨hi, hx⟩
          omega
        subst hi
        rw [Function.update_self, copy_of_not_mem hx]
      · rw [Function.update_of_ne hi]
    have hid : Overwrites (fun m : ι → Nat → β => m) i x := fun m m' => (hkeep m).symm.trans ((h m m').trans (hkeep m'))
    exact not_overwrites_id hid
  · rintro ⟨rfl, hx⟩ m m'
    simp [copy, hx]

end Overwrites

/-! ### Cell by cell -/

/-- A write to one cell of one of several memories. -/
structure Write (ι β : Type*) where
  index : ι
  x : Nat
  v : β

section Store
variable {ι κ : Type*} [DecidableEq ι]

def Write.store (m : ι → Nat → β) (w : Write ι β) : ι → Nat → β :=
  Function.update m w.index (Function.update (m w.index) w.x w.v)

/-- The memories after some writes. -/
def store (m : ι → Nat → β) (ws : List (Write ι β)) : ι → Nat → β := ws.foldl Write.store m

/-- `fill` of memory `i`, cell by cell. -/
def fillWrites (i : ι) (n : Nat) (v : β) : List (Write ι β) := (List.range n).map fun x => ⟨i, x, v⟩

/-- `copy` to memory `i`, cell by cell. -/
def copyWrites (i : ι) (off : Nat) {n : Nat} (v : Fin n → β) : List (Write ι β) :=
  (List.finRange n).map fun j : Fin n => ⟨i, off + j, v j⟩

@[simp] theorem store_nil (m : ι → Nat → β) : store m [] = m := rfl

/-- Writes to different cells of one memory. -/
theorem store_map (m : ι → Nat → β) (i : ι) {x : κ → Nat} (hx : Function.Injective x) (v : κ → β) (l : List κ) :
    ∃ m', store m (l.map fun j => ⟨i, x j, v j⟩) = Function.update m i m' ∧ (∀ j ∈ l, m' (x j) = v j) ∧
      ∀ y, (∀ j ∈ l, x j ≠ y) → m' y = m i y := by
  induction l using List.reverseRecOn with
  | nil => exact ⟨m i, (Function.update_eq_self i m).symm, by simp, fun _ _ => rfl⟩
  | append_singleton l j ih =>
    obtain ⟨m', hstore, hval, hother⟩ := ih
    refine ⟨Function.update m' (x j) (v j), ?_, fun j' hj' => ?_, fun y hy => ?_⟩
    · rw [store] at hstore
      rw [store, List.map_append, List.foldl_append, hstore]
      simp [Write.store]
    · by_cases hjj : x j' = x j
      · rw [hjj, Function.update_self, hx hjj]
      · rw [Function.update_of_ne hjj]
        refine hval j' ((List.mem_append.mp hj').resolve_right fun h => hjj ?_)
        rw [List.mem_singleton.mp h]
    · rw [Function.update_of_ne (Ne.symm (hy j (by simp)))]
      exact hother y fun j' hj' => hy j' (List.mem_append_left _ hj')

theorem store_fillWrites (m : ι → Nat → β) (i : ι) (n : Nat) (v : β) :
    store m (fillWrites i n v) = Function.update m i (fill (m i) 0 n v) := by
  obtain ⟨m', hstore, hval, hother⟩ := store_map m i (x := id) Function.injective_id (fun _ => v) (List.range n)
  have hm : m' = fill (m i) 0 n v := by
    funext y
    rcases Nat.lt_or_ge y n with hlt | hge
    · rw [fill_of_lt hlt]
      exact hval y (List.mem_range.mpr hlt)
    · have hnot : ¬(0 ≤ y ∧ y < 0 + n) := by omega
      rw [fill, if_neg hnot]
      refine hother y fun j hj => ?_
      have := List.mem_range.mp hj
      simp only [id_eq]
      omega
  rw [← hm]
  exact hstore

theorem store_copyWrites (m : ι → Nat → β) (i : ι) (off : Nat) {n : Nat} (v : Fin n → β) :
    store m (copyWrites i off v) = Function.update m i (copy (m i) off v) := by
  have hx : Function.Injective fun j : Fin n => off + j.val := fun j k h => Fin.ext (by simpa using h)
  obtain ⟨m', hstore, hval, hother⟩ := store_map m i hx v (List.finRange n)
  have hm : m' = copy (m i) off v := by
    funext y
    by_cases h : off ≤ y ∧ y < off + n
    · rw [copy, dif_pos h, ← hval ⟨y - off, by omega⟩ (List.mem_finRange _)]
      exact congrArg m' (show y = off + (y - off) by omega)
    · rw [copy, dif_neg h]
      refine hother y fun j _ => ?_
      omega
  rw [← hm]
  exact hstore

end Store

end Memory
