import Mathlib

set_option autoImplicit false

/-!
# Schedules

A system of agents, one of which moves at a time. A schedule says who moves when; a move may have no
outcome, and then the run has none.

* `sched`: the run of a schedule.
* `Along`: a condition on every move of a run and on every state it leads to.
* **`sched_of_along`**: an invariant that admissible moves keep holds at the end of every admissible
  run, and such a run has an end; `inv_of_sched`: it holds at the end, if there is one.
-/

variable {ι C : Type}

/-- Let the agents move in the order of a schedule. -/
def sched (step : ι → C → Option C) : List ι → C → Option C
  | [], c => some c
  | i :: is, c =>
    match step i c with
    | none => none
    | some c => sched step is c

/-- Every move of a run is admissible, and every state after a move is good. -/
def Along (step : ι → C → Option C) (Adm : ι → C → Prop) (Good : C → Prop) : List ι → C → Prop
  | [], _ => True
  | i :: is, c => Adm i c ∧ ∀ c', step i c = some c' → Good c' ∧ Along step Adm Good is c'

instance decidableAlong (step : ι → C → Option C) (Adm : ι → C → Prop) (Good : C → Prop)
    [∀ i c, Decidable (Adm i c)] [∀ c, Decidable (Good c)] :
    ∀ is c, Decidable (Along step Adm Good is c)
  | [], _ => isTrue trivial
  | i :: is, c =>
    match h : step i c with
    | none => decidable_of_iff (Adm i c) (by simp [Along, h])
    | some c' =>
      have : Decidable (Along step Adm Good is c') := decidableAlong step Adm Good is c'
      decidable_of_iff (Adm i c ∧ Good c' ∧ Along step Adm Good is c') (by simp [Along, h])

variable {step : ι → C → Option C} {Adm Adm' : ι → C → Prop} {Good : C → Prop}

/-- A move that has an outcome and keeps the invariant, if the outcome is good. -/
def Keeps (step : ι → C → Option C) (Adm : ι → C → Prop) (Good Inv : C → Prop) : Prop :=
  ∀ i c, Inv c → Adm i c → ∃ c', step i c = some c' ∧ (Good c' → Inv c')

/-- **An invariant of every admissible run.** -/
theorem sched_of_along {Inv : C → Prop} (hstep : Keeps step Adm Good Inv) (is : List ι) {c : C}
    (hc : Inv c) (h : Along step Adm Good is c) : ∃ c', sched step is c = some c' ∧ Inv c' := by
  induction is generalizing c with
  | nil => exact ⟨c, rfl, hc⟩
  | cons i is ih =>
    obtain ⟨hadm, hnext⟩ := h
    obtain ⟨c₁, h1, h2⟩ := hstep i c hc hadm
    obtain ⟨hgood, hrest⟩ := hnext c₁ h1
    obtain ⟨c', h3, h4⟩ := ih (h2 hgood) hrest
    exact ⟨c', by rw [sched, h1]; exact h3, h4⟩

/-- An invariant of the runs of moves that need not have an outcome. -/
theorem inv_of_sched (Inv : C → Prop)
    (hstep : ∀ i c c', Inv c → Adm i c → step i c = some c' → Inv c') {is : List ι} {c c' : C}
    (hc : Inv c) (h : Along step Adm Good is c) (hrun : sched step is c = some c') : Inv c' := by
  induction is generalizing c with
  | nil =>
    cases hrun
    exact hc
  | cons i is ih =>
    obtain ⟨hadm, hnext⟩ := h
    rw [sched] at hrun
    cases h1 : step i c with
    | none =>
      rw [h1] at hrun
      cases hrun
    | some c₁ =>
      rw [h1] at hrun
      exact ih (hstep i c c₁ hc hadm h1) (hnext c₁ h1).2 hrun

/-- A run may go on with one more move. -/
theorem along_snoc {is : List ι} {c c' c'' : C} {i : ι} (h : Along step Adm Good is c)
    (hrun : sched step is c = some c') (hadm : Adm i c') (hgood : Good c'') (hstep : step i c' = some c'') :
    Along step Adm Good (is ++ [i]) c ∧ sched step (is ++ [i]) c = some c'' := by
  induction is generalizing c with
  | nil =>
    cases hrun
    refine ⟨⟨hadm, fun c₁ h1 => ?_⟩, ?_⟩
    · rw [hstep] at h1
      cases h1
      exact ⟨hgood, trivial⟩
    · rw [List.nil_append, sched, hstep]
      rfl
  | cons j is ih =>
    obtain ⟨hj, hnext⟩ := h
    rw [sched] at hrun
    cases h1 : step j c with
    | none =>
      rw [h1] at hrun
      cases hrun
    | some c₁ =>
      rw [h1] at hrun
      obtain ⟨h2, h3⟩ := ih (hnext c₁ h1).2 hrun
      refine ⟨⟨hj, fun c₂ h4 => ?_⟩, ?_⟩
      · rw [h1] at h4
        cases h4
        exact ⟨(hnext c₁ h1).1, h2⟩
      · rw [List.cons_append, sched, h1]
        exact h3

/-- What is admissible may be weakened with the help of an invariant. -/
theorem Along.mono {Inv : C → Prop} (hstep : Keeps step Adm' Good Inv)
    (hadm : ∀ i c, Inv c → Adm i c → Adm' i c) {is : List ι} {c : C} (hc : Inv c)
    (h : Along step Adm Good is c) : Along step Adm' Good is c := by
  induction is generalizing c with
  | nil => trivial
  | cons i is ih =>
    refine ⟨hadm i c hc h.1, fun c₁ h1 => ⟨(h.2 c₁ h1).1, ih ?_ (h.2 c₁ h1).2⟩⟩
    obtain ⟨c₂, h2, h3⟩ := hstep i c hc (hadm i c hc h.1)
    rw [h1] at h2
    cases h2
    exact h3 (h.2 c₁ h1).1

/-- What is admissible may be weakened. -/
theorem Along.imp (hadm : ∀ i c, Adm i c → Adm' i c) {is : List ι} {c : C}
    (h : Along step Adm Good is c) : Along step Adm' Good is c := by
  induction is generalizing c with
  | nil => trivial
  | cons i is ih => exact ⟨hadm i c h.1, fun c₁ h1 => ⟨(h.2 c₁ h1).1, ih (h.2 c₁ h1).2⟩⟩

/-- What is good may be weakened. -/
theorem Along.imp_good {Good' : C → Prop} (hgood : ∀ c, Good c → Good' c) {is : List ι} {c : C}
    (h : Along step Adm Good is c) : Along step Adm Good' is c := by
  induction is generalizing c with
  | nil => trivial
  | cons i is ih => exact ⟨h.1, fun c₁ h1 => ⟨hgood c₁ (h.2 c₁ h1).1, ih (h.2 c₁ h1).2⟩⟩

/-- What is admissible may be weakened with the help of an invariant of moves that need not have an
outcome. -/
theorem Along.mono_of_inv (Inv : C → Prop)
    (hstep : ∀ i c c', Inv c → Adm' i c → step i c = some c' → Good c' → Inv c')
    (hadm : ∀ i c, Inv c → Adm i c → Adm' i c) {is : List ι} {c : C} (hc : Inv c)
    (h : Along step Adm Good is c) : Along step Adm' Good is c := by
  induction is generalizing c with
  | nil => trivial
  | cons i is ih =>
    have ha := hadm i c hc h.1
    refine ⟨ha, fun c' h1 => ?_⟩
    obtain ⟨hgood, hrest⟩ := h.2 c' h1
    exact ⟨hgood, ih (hstep i c c' hc ha h1 hgood) hrest⟩
