import Mathlib

set_option autoImplicit false

/-!
# Cyclic redundancy checks

A check of any width over symbols of any width, low bits first.

* `bit`, `symbol`, `run`: the remainder after a bit, a symbol and a list of them.
* `bit_xor`, `bit_injective`: a bit is linear, and can be undone if the polynomial has its top bit.
* `run_eq`: symbols that fit into the remainder enter it as one word.
* **`run_burst`**: a burst no longer than the remainder changes it.
-/

namespace Crc

variable {w k : ℕ} (poly : BitVec w)

/-- One bit of the division. -/
def bit (c : BitVec w) : BitVec w := (c >>> 1) ^^^ (if c.getLsbD 0 then poly else 0)

/-- One symbol. -/
def symbol (c : BitVec w) (b : BitVec k) : BitVec w := (bit poly)^[k] (c ^^^ b.setWidth w)

/-- A list of symbols. -/
def run (c : BitVec w) (l : List (BitVec k)) : BitVec w := l.foldl (symbol poly) c

/-- The word that symbols make up, the first one lowest. -/
def word : List (BitVec k) → BitVec w
  | [] => 0
  | b :: l => b.setWidth w ^^^ (word l <<< k)

/-! ## Bits -/

theorem bit_xor (a b : BitVec w) : bit poly (a ^^^ b) = bit poly a ^^^ bit poly b := by
  ext i hi
  unfold bit
  rw [BitVec.getLsbD_xor]
  cases a.getLsbD 0 <;> cases b.getLsbD 0 <;> simp [BitVec.getElem_xor]
  · cases a.getLsbD (1 + i) <;> cases b.getLsbD (1 + i) <;> cases poly[i] <;> rfl
  · cases a.getLsbD (1 + i) <;> cases b.getLsbD (1 + i) <;> cases poly[i] <;> rfl

theorem bits_xor (n : ℕ) (a b : BitVec w) :
    (bit poly)^[n] (a ^^^ b) = (bit poly)^[n] a ^^^ (bit poly)^[n] b := by
  induction n generalizing a b with
  | zero => rfl
  | succ n ih => rw [Function.iterate_succ_apply, bit_xor, ih]; rfl

/-- Where the polynomial has its top bit, that bit of the result is the one that was divided out. -/
theorem bit_injective (h : poly.msb = true) : Function.Injective (bit poly) := by
  intro a b hab
  have hzero : bit poly (a ^^^ b) = 0#w := by rw [bit_xor, hab, BitVec.xor_self]
  suffices hx : a ^^^ b = 0#w from BitVec.xor_eq_zero_iff.mp hx
  generalize a ^^^ b = c at hzero
  have hw : 0 < w := by
    by_contra hw
    rw [BitVec.msb_eq_getLsbD_last, BitVec.getLsbD_of_ge poly _ (by omega)] at h
    cases h
  have hbit : ∀ i, (c.getLsbD (1 + i) ^^ (c.getLsbD 0 && poly.getLsbD i)) = false := by
    intro i
    have := congrArg (fun x : BitVec w => x.getLsbD i) hzero
    unfold bit at this
    cases hc : c.getLsbD 0 <;> simp [hc] at this ⊢ <;> exact this
  have h0 : c.getLsbD 0 = false := by
    have htop := hbit (w - 1)
    rw [← BitVec.msb_eq_getLsbD_last poly, h] at htop
    rw [BitVec.getLsbD_of_ge c _ (by omega)] at htop
    simpa using htop
  ext i hi
  rw [BitVec.getElem_eq_testBit_toNat, BitVec.testBit_toNat]
  cases i with
  | zero => simpa using h0
  | succ i =>
    have := hbit i
    rw [h0, Nat.add_comm] at this
    simpa using this

/-- A word that has room is moved down again. -/
theorem bits_shiftLeft (n : ℕ) {x : BitVec w} (h : ∀ i, w ≤ i + n → x.getLsbD i = false) :
    (bit poly)^[n] (x <<< n) = x := by
  induction n with
  | zero => rw [Function.iterate_zero_apply, BitVec.shiftLeft_zero]
  | succ n ih =>
    have hstep : bit poly (x <<< (n + 1)) = x <<< n := by
      unfold bit
      have hlow : (x <<< (n + 1)).getLsbD 0 = false := by simp
      rw [hlow]
      apply BitVec.eq_of_getLsbD_eq
      intro i hi
      simp only [Bool.false_eq_true, if_false, BitVec.getLsbD_xor, BitVec.getLsbD_ushiftRight,
        BitVec.getLsbD_shiftLeft]
      by_cases htop : 1 + i < w
      · have h1 : 1 + i - (n + 1) = i - n := by omega
        have h2 : (1 + i < n + 1) ↔ i < n := by omega
        simp [htop, hi, h1, h2]
      · by_cases hin : i < n
        · simp [hi, hin]
          omega
        · rw [h (i - n) (by omega)]
          simp [htop]
    rw [Function.iterate_succ_apply, hstep]
    exact ih fun i hi => h i (by omega)

/-! ## Symbols -/

theorem getLsbD_word (l : List (BitVec k)) {i : ℕ} (h : k * l.length ≤ i) :
    (word l : BitVec w).getLsbD i = false := by
  induction l generalizing i with
  | nil => simp [word]
  | cons b l ih =>
    rw [List.length_cons, Nat.mul_succ] at h
    rw [word, BitVec.getLsbD_xor, BitVec.getLsbD_setWidth, BitVec.getLsbD_of_ge b i (by omega),
      BitVec.getLsbD_shiftLeft, ih (by omega)]
    simp

/-- **Symbols that fit enter as one word.** -/
theorem run_eq (l : List (BitVec k)) (c : BitVec w) (h : k * l.length ≤ w) :
    run poly c l = (bit poly)^[k * l.length] (c ^^^ word l) := by
  induction l generalizing c with
  | nil => simp [run, word]
  | cons b l ih =>
    rw [List.length_cons, Nat.mul_succ] at h ⊢
    have hmove : (bit poly)^[k] (word l <<< k) = word l :=
      bits_shiftLeft poly k fun i hi => getLsbD_word l (by omega)
    calc run poly c (b :: l) = run poly (symbol poly c b) l := rfl
      _ = (bit poly)^[k * l.length] ((bit poly)^[k] (c ^^^ b.setWidth w) ^^^ word l) := ih _ (by omega)
      _ = (bit poly)^[k * l.length] ((bit poly)^[k] (c ^^^ b.setWidth w ^^^ (word l <<< k))) := by
        rw [bits_xor poly k (c ^^^ b.setWidth w), hmove]
      _ = (bit poly)^[k * l.length + k] (c ^^^ word (b :: l)) := by
        rw [Function.iterate_add_apply, word, BitVec.xor_assoc]

/-- Symbols that fit can be read off their word. -/
theorem word_injective {l l' : List (BitVec k)} (hlen : l.length = l'.length)
    (h : k * l.length ≤ w) (heq : (word l : BitVec w) = word l') : l = l' := by
  induction l generalizing l' with
  | nil => exact (List.length_eq_zero_iff.mp hlen.symm).symm
  | cons b l ih =>
    cases l' with
    | nil => cases hlen
    | cons b' l' =>
      rw [List.length_cons, Nat.mul_succ] at h
      rw [List.length_cons, List.length_cons, Nat.succ_inj] at hlen
      have hbit : ∀ i, i < w → ((b.getLsbD i) ^^ ((!decide (i < k)) && (word l : BitVec w).getLsbD (i - k))) =
          ((b'.getLsbD i) ^^ ((!decide (i < k)) && (word l' : BitVec w).getLsbD (i - k))) := by
        intro i hi
        have := congrArg (fun x : BitVec w => x.getLsbD i) heq
        simp only [word, BitVec.getLsbD_xor, BitVec.getLsbD_setWidth, BitVec.getLsbD_shiftLeft, hi,
          decide_true, Bool.true_and] at this
        exact this
      have hb : b = b' := by
        apply BitVec.eq_of_getLsbD_eq
        intro i hi
        have := hbit i (by omega)
        simpa [hi] using this
      have hrest : (word l : BitVec w) = word l' := by
        apply BitVec.eq_of_getLsbD_eq
        intro i _
        by_cases hi : i + k < w
        · have := hbit (i + k) hi
          rw [BitVec.getLsbD_of_ge b _ (by omega), BitVec.getLsbD_of_ge b' _ (by omega)] at this
          simpa using this
        · rw [getLsbD_word l (by omega), getLsbD_word l' (by rw [← hlen]; omega)]
      rw [hb, ih hlen (by omega) hrest]

theorem run_append (c : BitVec w) (l m : List (BitVec k)) :
    run poly c (l ++ m) = run poly (run poly c l) m := List.foldl_append

/-- The symbols that follow can be undone. -/
theorem run_injective (h : poly.msb = true) (l : List (BitVec k)) :
    Function.Injective fun c => run poly c l := by
  induction l with
  | nil => exact fun _ _ => id
  | cons b l ih =>
    intro c c' hcc
    have h1 : symbol poly c b = symbol poly c' b := ih hcc
    have h2 := (bit_injective poly h).iterate k h1
    exact (BitVec.xor_left_inj _).mp h2

/-- **A burst of symbols that fit changes the remainder.** -/
theorem run_burst (h : poly.msb = true) {c : BitVec w} {pre post x y : List (BitVec k)}
    (hlen : x.length = y.length) (hfit : k * x.length ≤ w)
    (heq : run poly c (pre ++ (x ++ post)) = run poly c (pre ++ (y ++ post))) : x = y := by
  rw [run_append, run_append, run_append, run_append] at heq
  have h1 := run_injective poly h post heq
  rw [run_eq poly x _ hfit, run_eq poly y _ (hlen ▸ hfit), hlen] at h1
  have h2 := (bit_injective poly h).iterate _ h1
  exact word_injective hlen hfit ((BitVec.xor_right_inj _).mp h2)

end Crc
