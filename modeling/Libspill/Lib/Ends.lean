import Mathlib
import Libspill.Lib.Prog
import Libspill.Lib.Sched

set_option autoImplicit false

/-!
# Systems that use up their work

A system has work left, a multiset of pieces. A move that is due takes one piece off and may leave
smaller ones, so such moves cannot go on for ever.

* `Prog.Rest`: what is left of a program after its first call.
* `Cuts`: one piece of a multiset is replaced by smaller ones.
* **`not_endless`**: no run of moves that are due is endless.
-/

/-- The program `p'` is what is left of `p` after its first call. -/
inductive Prog.Rest {C : Type} {A : C → Type} {α : Type} : Prog C A α → Prog C A α → Prop
  | call (c : C) (k : A c → Prog C A α) (a : A c) : Rest (k a) (.call c k)

theorem Prog.wf_rest {C : Type} {A : C → Type} {α : Type} :
    WellFounded (Prog.Rest : Prog C A α → Prog C A α → Prop) := by
  refine ⟨fun p => ?_⟩
  induction p with
  | ret a => exact ⟨_, fun p h => by cases h⟩
  | hang => exact ⟨_, fun p h => by cases h⟩
  | call c k ih =>
    refine ⟨_, fun p h => ?_⟩
    cases h with
    | call c k a => exact ih a

section Work

variable {T : Type} {r : T → T → Prop} {s s' u : Multiset T} {a : T}

/-- One piece of `s` is replaced by smaller ones in `s'`. -/
def Cuts (r : T → T → Prop) (s' s : Multiset T) : Prop :=
  ∃ (rest t : Multiset T) (a : T), s = rest + {a} ∧ s' = rest + t ∧ ∀ b ∈ t, r b a

theorem Cuts.add (h : Cuts r s' s) (u : Multiset T) : Cuts r (s' + u) (s + u) := by
  obtain ⟨rest, t, a, rfl, rfl, h3⟩ := h
  exact ⟨rest + u, t, a, add_right_comm _ _ _, add_right_comm _ _ _, h3⟩

theorem Cuts.add_left (h : Cuts r s' s) (u : Multiset T) : Cuts r (u + s') (u + s) := by
  rw [add_comm u, add_comm u]
  exact h.add u

/-- A piece is done. -/
theorem cuts_done (s : Multiset T) (a : T) : Cuts r s (s + {a}) :=
  ⟨s, 0, a, rfl, (add_zero s).symm, fun _ h => absurd h (Multiset.notMem_zero _)⟩

/-- The only piece is done. -/
theorem cuts_last (a : T) : Cuts r 0 {a} :=
  ⟨0, 0, a, (zero_add _).symm, (zero_add _).symm, fun _ h => absurd h (Multiset.notMem_zero _)⟩

/-- A piece is replaced by a smaller one. -/
theorem cuts_one {b : T} (h : r b a) : Cuts r {b} {a} :=
  ⟨0, {b}, a, (zero_add _).symm, (zero_add _).symm, fun _ hc => Multiset.mem_singleton.mp hc ▸ h⟩

theorem Cuts.cutExpand (h : Cuts r s' s) : Relation.CutExpand r s' s := by
  obtain ⟨rest, t, a, rfl, rfl, h3⟩ := h
  exact ⟨t, a, h3, add_right_comm _ _ _⟩

end Work

variable {ι C T : Type}

/-- A move that is due keeps the invariant and uses up work. -/
def Spends (step : ι → C → Option C) (Due : ι → C → Prop) (Inv : C → Prop) (r : T → T → Prop)
    (work : C → Multiset T) : Prop :=
  ∀ i c c', Inv c → Due i c → step i c = some c' → Inv c' ∧ Cuts r (work c') (work c)

/-- **No run of moves that are due is endless.** -/
theorem not_endless {step : ι → C → Option C} {Due : ι → C → Prop} {Inv : C → Prop} {r : T → T → Prop}
    {work : C → Multiset T} (hr : WellFounded r) (h : Spends step Due Inv r work) {cs : ℕ → C}
    {is : ℕ → ι} (hc : Inv (cs 0)) :
    ¬ ∀ n, Due (is n) (cs n) ∧ step (is n) (cs n) = some (cs (n + 1)) := by
  intro hrun
  have hinv : ∀ n, Inv (cs n) := by
    intro n
    induction n with
    | zero => exact hc
    | succ n ih => exact (h _ _ _ ih (hrun n).1 (hrun n).2).1
  have hacc : ∀ w : Multiset T, ∀ n, work (cs n) = w → False := by
    intro w
    induction w using hr.cutExpand.induction with
    | h w ih =>
      rintro n rfl
      exact ih _ (h _ _ _ (hinv n) (hrun n).1 (hrun n).2).2.cutExpand (n + 1) rfl
  exact hacc _ 0 rfl
