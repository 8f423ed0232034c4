import Mathlib

set_option autoImplicit false

/-!
# Arrays of words and their letters

A word is a vector of `w` letters. Laying words over an array of words is laying their letters over
its letters.

* `flat`: the letters of an array of words, in order.
* `overlay`: an array laid over another one, which grows if it has to.
* **`flat_overlay`**: the one in terms of the other.
-/

variable {α : Type} {w : ℕ}

/-- The letters of a list of words. -/
def flat (ws : List (List.Vector α w)) : List α := ws.flatMap List.Vector.toList

/-- `b` laid over `l` from `off` on; where `l` is too short, it grows by entries `z`. -/
def overlay (z : α) (l : List α) (off : ℕ) (b : List α) : List α :=
  let l := l ++ List.replicate (off + b.length - l.length) z
  l.take off ++ b ++ l.drop (off + b.length)

@[simp] theorem flat_nil : flat ([] : List (List.Vector α w)) = [] := rfl

theorem flat_cons (v : List.Vector α w) (ws : List (List.Vector α w)) :
    flat (v :: ws) = v.toList ++ flat ws := rfl

@[simp] theorem flat_append (vs ws : List (List.Vector α w)) : flat (vs ++ ws) = flat vs ++ flat ws :=
  List.flatMap_append

@[simp] theorem length_flat (ws : List (List.Vector α w)) : (flat ws).length = ws.length * w := by
  induction ws with
  | nil => simp
  | cons v ws ih =>
    rw [flat_cons, List.length_append, ih, List.length_cons, List.Vector.toList_length]
    ring

theorem flat_take (ws : List (List.Vector α w)) (n : ℕ) : flat (ws.take n) = (flat ws).take (n * w) := by
  induction n generalizing ws with
  | zero => simp
  | succ n ih =>
    cases ws with
    | nil => simp
    | cons v ws =>
      have hlen : v.toList.length = w := List.Vector.toList_length v
      have hall : v.toList.take (w + n * w) = v.toList := List.take_of_length_le (by omega)
      rw [List.take_succ_cons, flat_cons, flat_cons, ih, Nat.succ_mul, Nat.add_comm (n * w),
        List.take_append, hlen, Nat.add_sub_cancel_left, hall]

theorem flat_drop (ws : List (List.Vector α w)) (n : ℕ) : flat (ws.drop n) = (flat ws).drop (n * w) := by
  have h := flat_append (ws.take n) (ws.drop n)
  rw [List.take_append_drop, flat_take] at h
  have h' := (List.take_append_drop (n * w) (flat ws)).trans h
  exact (List.append_cancel_left h').symm

theorem flat_replicate (n : ℕ) (z : α) :
    flat (List.replicate n (List.Vector.replicate w z)) = List.replicate (n * w) z := by
  induction n with
  | zero => simp
  | succ n ih =>
    rw [List.replicate_succ, flat_cons, ih, Nat.succ_mul, Nat.add_comm (n * w), List.replicate_add]
    rfl

/-- **Laying words over words**, in letters. -/
theorem flat_overlay (z : α) (l : List (List.Vector α w)) (off : ℕ) (b : List (List.Vector α w)) :
    flat (overlay (List.Vector.replicate w z) l off b) = overlay z (flat l) (off * w) (flat b) := by
  have hend : off * w + b.length * w = (off + b.length) * w := by ring
  have hgrow : (off + b.length) * w - l.length * w = (off + b.length - l.length) * w :=
    (Nat.sub_mul ..).symm
  simp only [overlay, flat_append, flat_take, flat_drop, flat_replicate, length_flat, hend, hgrow]
