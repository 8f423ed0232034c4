import Mathlib

set_option autoImplicit false

/-!
# Byte strings laid over addresses

A memory is a function from addresses to bytes. `patch` lays a byte string over it and `slice`
reads one out; both are total, and a byte string is compared with a memory pointwise.
-/

/-- Lay the byte string `b` over the memory `f` from address `off` on. -/
def patch (f : ℕ → UInt8) (off : ℕ) (b : List UInt8) : ℕ → UInt8 :=
  fun i => if off ≤ i ∧ i < off + b.length then b.getD (i - off) 0 else f i

/-- The `n` bytes of `f` from address `off` on. -/
def slice (f : ℕ → UInt8) (off n : ℕ) : List UInt8 := (List.range n).map fun i => f (off + i)

@[simp] theorem length_slice (f : ℕ → UInt8) (off n : ℕ) : (slice f off n).length = n := by
  simp [slice]

theorem getD_slice (f : ℕ → UInt8) (off n i : ℕ) (hi : i < n) (d : UInt8) :
    (slice f off n).getD i d = f (off + i) := by
  simp [slice, List.getD_eq_getElem?_getD, List.getElem?_map, List.getElem?_range hi]

theorem slice_congr {f g : ℕ → UInt8} {off off' n : ℕ}
    (h : ∀ i, i < n → f (off + i) = g (off' + i)) : slice f off n = slice g off' n := by
  apply List.map_congr_left
  intro i hi
  exact h i (List.mem_range.mp hi)

theorem slice_shift (f : ℕ → UInt8) (a off n : ℕ) :
    slice (fun i => f (a + i)) off n = slice f (a + off) n := by
  simp only [slice, Nat.add_assoc]

@[simp] theorem slice_zero (f : ℕ → UInt8) (off : ℕ) : slice f off 0 = [] := rfl

theorem slice_add (f : ℕ → UInt8) (off m n : ℕ) :
    slice f off (m + n) = slice f off m ++ slice f (off + m) n := by
  simp [slice, List.range_add, Nat.add_assoc]

theorem take_slice (f : ℕ → UInt8) (off n k : ℕ) :
    (slice f off n).take k = slice f off (min k n) := by
  simp [slice, ← List.map_take, List.take_range]

/-- A byte string is the slice of any memory that agrees with it. -/
theorem eq_slice {f : ℕ → UInt8} {off : ℕ} {b : List UInt8}
    (h : ∀ i, i < b.length → f (off + i) = b.getD i 0) : slice f off b.length = b := by
  apply List.ext_getElem (by simp)
  intro i h1 h2
  have := h i h2
  rw [List.getD_eq_getElem _ _ h2] at this
  rw [← this]
  simp [slice]

theorem patch_of_lt {f : ℕ → UInt8} {off i : ℕ} {b : List UInt8} (h : i < off) :
    patch f off b i = f i := if_neg (by omega)

theorem patch_of_ge {f : ℕ → UInt8} {off i : ℕ} {b : List UInt8} (h : off + b.length ≤ i) :
    patch f off b i = f i := if_neg (by omega)

theorem patch_add {f : ℕ → UInt8} {off i : ℕ} {b : List UInt8} (h : i < b.length) :
    patch f off b (off + i) = b.getD i 0 := by
  rw [patch, if_pos (by omega), Nat.add_sub_cancel_left]

@[simp] theorem patch_nil (f : ℕ → UInt8) (off : ℕ) : patch f off [] = f := by
  funext i
  exact if_neg (by simp)

@[simp] theorem slice_patch (f : ℕ → UInt8) (off : ℕ) (b : List UInt8) :
    slice (patch f off b) off b.length = b := eq_slice fun _ hi => patch_add hi

/-- Laying two adjacent byte strings is laying their concatenation. -/
theorem patch_append (f : ℕ → UInt8) (off : ℕ) (a b : List UInt8) :
    patch (patch f off a) (off + a.length) b = patch f off (a ++ b) := by
  funext i
  simp only [patch, List.length_append]
  split_ifs with h1 h2 h2 h3
  · rw [List.getD_append_right _ _ _ _ (by omega)]
    congr 1
    omega
  · omega
  · rw [List.getD_append _ _ _ _ (by omega)]
  · omega
  · omega
  · rfl
