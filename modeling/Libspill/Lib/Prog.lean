import Mathlib

set_option autoImplicit false

/-!
# Programs that issue calls

A program over a signature of calls is a tree: it returns, it asks for a call and goes on with the
answer, or it hangs (a loop that has used up its fuel). A handler answers one call atomically, so
the same tree can be run alone (`Prog.run`) or one call at a time among other programs.

* `Prog.wp`: the weakest precondition over a *local view*. `may` says which calls the owner of a
  view may issue, and `out` which answers it must be ready for.
* `Prog.wp_bind`, `Prog.wp_mono`: the rules used to verify loops.
* **`Prog.run_of_wp`**: a program verified against its view runs to completion on every world the
  view simulates.
* `Prog.wlp`, **`Prog.run_of_wlp`**: the same for programs that may hang.
* `Prog.Each`: a condition on every call of a program.
* `Prog.Runs`: a run in a world that chooses its answers.
-/

/-- A program issuing calls `c : C`, each answered by an `A c`. -/
inductive Prog (C : Type) (A : C → Type) (α : Type) where
  | ret (a : α)
  | hang
  | call (c : C) (k : A c → Prog C A α)

/-- A handler answers one call and moves the world. -/
abbrev Handler (C : Type) (A : C → Type) (W : Type) := (c : C) → W → A c × W

/-- What the owner of a view of type `V` may do, and what it must be ready for. -/
structure Local (C : Type) (A : C → Type) (V : Type) where
  /-- The calls the owner may issue. -/
  may : C → V → Prop
  /-- The answers and the views they lead to. -/
  out : (c : C) → V → A c → V → Prop

namespace Prog

variable {C : Type} {A : C → Type} {α β V W : Type}

/-- Sequencing. -/
def bind : Prog C A α → (α → Prog C A β) → Prog C A β
  | ret a, f => f a
  | hang, _ => hang
  | call c k, f => call c fun a => bind (k a) f

instance : Monad (Prog C A) where
  pure := ret
  bind := bind

/-- Issue one call and return its answer. -/
def issue (c : C) : Prog C A (A c) := call c ret

/-- Run a program alone. -/
def run (h : Handler C A W) : Prog C A α → W → Option (α × W)
  | ret a, w => some (a, w)
  | hang, _ => none
  | call c k, w => run h (k (h c w).1) (h c w).2

@[simp] theorem pure_eq (a : α) : (pure a : Prog C A α) = ret a := rfl

@[simp] theorem ret_bind (a : α) (f : α → Prog C A β) : (ret a >>= f) = f a := rfl

@[simp] theorem hang_bind (f : α → Prog C A β) : ((hang : Prog C A α) >>= f) = hang := rfl

@[simp] theorem call_bind (c : C) (k : A c → Prog C A α) (f : α → Prog C A β) :
    (call c k >>= f) = call c fun a => k a >>= f := rfl

@[simp] theorem issue_bind (c : C) (f : A c → Prog C A β) :
    (issue c >>= f) = call c f := rfl

/-! ## Weakest preconditions -/

variable (S : Local C A V)

/-- The program, started at view `v`, issues only calls it may issue, and ends with `Q`. A program
that hangs satisfies nothing. -/
def wp (Q : α → V → Prop) : Prog C A α → V → Prop
  | ret a, v => Q a v
  | hang, _ => False
  | call c k, v => S.may c v ∧ ∀ a v', S.out c v a v' → wp Q (k a) v'

variable {S}

theorem wp_mono {Q Q' : α → V → Prop} (h : ∀ a v, Q a v → Q' a v) {p : Prog C A α} {v : V}
    (hp : wp S Q p v) : wp S Q' p v := by
  induction p generalizing v with
  | ret a => exact h _ _ hp
  | hang => exact hp
  | call c k ih => exact ⟨hp.1, fun a v' ho => ih a (hp.2 a v' ho)⟩

theorem wp_bind {Q : β → V → Prop} {f : α → Prog C A β} {p : Prog C A α} {v : V}
    (hp : wp S (fun a v' => wp S Q (f a) v') p v) : wp S Q (p >>= f) v := by
  induction p generalizing v with
  | ret a => exact hp
  | hang => exact hp
  | call c k ih => exact ⟨hp.1, fun a v' ho => ih a (hp.2 a v' ho)⟩

/-- The view simulates the world: an allowed call is answered as the view foresees. -/
def Simulates (h : Handler C A W) (S : Local C A V) (Rel : W → V → Prop) : Prop :=
  ∀ c w v, Rel w v → S.may c v → ∃ v', S.out c v (h c w).1 v' ∧ Rel (h c w).2 v'

/-- **A verified program runs to completion.** -/
theorem run_of_wp {h : Handler C A W} {Rel : W → V → Prop} (hs : Simulates h S Rel)
    {Q : α → V → Prop} {p : Prog C A α} {w : W} {v : V} (hp : wp S Q p v) (hr : Rel w v) :
    ∃ a w' v', run h p w = some (a, w') ∧ Q a v' ∧ Rel w' v' := by
  induction p generalizing w v with
  | ret a => exact ⟨a, w, v, rfl, hp, hr⟩
  | hang => exact hp.elim
  | call c k ih =>
    obtain ⟨v', ho, hr'⟩ := hs c w v hr hp.1
    exact ih _ (hp.2 _ _ ho) hr'

/-! ## Programs that may hang -/

variable (S) in
/-- The program, started at view `v`, issues only calls it may issue, and if it ends, then with
`Q`. -/
def wlp (Q : α → V → Prop) : Prog C A α → V → Prop
  | ret a, v => Q a v
  | hang, _ => True
  | call c k, v => S.may c v ∧ ∀ a v', S.out c v a v' → wlp Q (k a) v'

theorem wlp_mono {Q Q' : α → V → Prop} (h : ∀ a v, Q a v → Q' a v) {p : Prog C A α} {v : V}
    (hp : wlp S Q p v) : wlp S Q' p v := by
  induction p generalizing v with
  | ret a => exact h _ _ hp
  | hang => trivial
  | call c k ih => exact ⟨hp.1, fun a v' ho => ih a (hp.2 a v' ho)⟩

theorem wlp_bind {Q : β → V → Prop} {f : α → Prog C A β} {p : Prog C A α} {v : V}
    (hp : wlp S (fun a v' => wlp S Q (f a) v') p v) : wlp S Q (p >>= f) v := by
  induction p generalizing v with
  | ret a => exact hp
  | hang => exact hp
  | call c k ih => exact ⟨hp.1, fun a v' ho => ih a (hp.2 a v' ho)⟩

/-- **A verified program that has run to completion.** -/
theorem run_of_wlp {h : Handler C A W} {Rel : W → V → Prop} (hs : Simulates h S Rel)
    {Q : α → V → Prop} {p : Prog C A α} {w w' : W} {v : V} {a : α} (hp : wlp S Q p v) (hr : Rel w v)
    (hrun : run h p w = some (a, w')) : ∃ v', Q a v' ∧ Rel w' v' := by
  induction p generalizing w v with
  | ret b =>
    cases hrun
    exact ⟨v, hp, hr⟩
  | hang => cases hrun
  | call c k ih =>
    obtain ⟨v', ho, hr'⟩ := hs c w v hr hp.1
    exact ih _ (hp.2 _ _ ho) hr' hrun

/-! ## Every call -/

/-- Whatever the answers are, every call that the program issues is as `P` says. -/
def Each (P : C → Prop) : Prog C A α → Prop
  | ret _ => True
  | hang => True
  | call c k => P c ∧ ∀ a, Each P (k a)

theorem each_mono {P Q : C → Prop} (h : ∀ c, P c → Q c) {p : Prog C A α} (hp : p.Each P) : p.Each Q := by
  induction p with
  | ret a => trivial
  | hang => trivial
  | call c k ih => exact ⟨h c hp.1, fun a => ih a (hp.2 a)⟩

theorem each_bind {P : C → Prop} {p : Prog C A α} {f : α → Prog C A β} (hp : p.Each P)
    (hf : ∀ a, (f a).Each P) : (p >>= f).Each P := by
  induction p with
  | ret a => exact hf a
  | hang => trivial
  | call c k ih => exact ⟨hp.1, fun a => ih a (hp.2 a)⟩

/-! ## Worlds that choose -/

/-- A run of a program in a world that answers a call as `out` allows. -/
inductive Runs (out : (c : C) → W → A c → W → Prop) : Prog C A α → W → α → W → Prop where
  | ret (a : α) (w : W) : Runs out (ret a) w a w
  | call {c : C} {k : A c → Prog C A α} {w w' w'' : W} {a : A c} {b : α} :
      out c w a w' → Runs out (k a) w' b w'' → Runs out (call c k) w b w''

variable {out : (c : C) → W → A c → W → Prop} {w w' : W}

theorem runs_ret {a b : α} : Runs out (ret a : Prog C A α) w b w' ↔ b = a ∧ w' = w := by
  constructor
  · rintro ⟨⟩
    exact ⟨rfl, rfl⟩
  · rintro ⟨rfl, rfl⟩
    exact .ret _ _

theorem not_runs_hang {b : α} : ¬ Runs out (hang : Prog C A α) w b w' := by
  rintro ⟨⟩

theorem runs_call {c : C} {k : A c → Prog C A α} {b : α} :
    Runs out (call c k) w b w' ↔ ∃ a w₁, out c w a w₁ ∧ Runs out (k a) w₁ b w' := by
  constructor
  · rintro (_ | ⟨h1, h2⟩)
    exact ⟨_, _, h1, h2⟩
  · rintro ⟨a, w₁, h1, h2⟩
    exact .call h1 h2

end Prog
