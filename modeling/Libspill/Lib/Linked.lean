import Mathlib

set_option autoImplicit false

/-!
# Linked lists

A link field of the nodes `α` is a function `α → Option α`. A doubly linked list is a list whose
`next` field leads along it, and whose `prev` field leads along its reverse.

* `setAt`: assigning the field of the node a pointer points to, if it points to one.
* `Leads`: following the field goes along a list, and on to `e`.
* `leads_bypass`, `leads_cons`, `leads_snoc`: taking a node out, and adding one at either end.
-/

section Linked

variable {α : Type}

/-- Following `f` goes along the list, and from its last node to `e`. -/
def Leads (f : α → Option α) : List α → Option α → Prop
  | [], _ => True
  | a :: l, e => f a = l.head?.or e ∧ Leads f l e

variable {f g : α → Option α} {l m : List α} {a b : α} {e e' : Option α}

theorem leads_congr (h : ∀ b ∈ l, f b = g b) (hl : Leads f l e) : Leads g l e := by
  induction l with
  | nil => trivial
  | cons b l ih =>
    refine ⟨?_, ih (fun c hc => h c (List.mem_cons_of_mem _ hc)) hl.2⟩
    rw [← h b List.mem_cons_self]
    exact hl.1

theorem leads_append : Leads f (l ++ m) e ↔ Leads f l (m.head?.or e) ∧ Leads f m e := by
  induction l with
  | nil => simp [Leads]
  | cons b l ih => simp only [List.cons_append, Leads, List.head?_append, Option.or_assoc, ih, and_assoc]

/-- What is first says what all of the list is. -/
theorem leads_unique (hl : Leads f l none) (hm : Leads f m none) (h : l.head? = m.head?) : l = m := by
  induction l generalizing m with
  | nil => exact (List.head?_eq_none_iff.mp h.symm).symm
  | cons a l ih =>
    obtain ⟨b, m, rfl⟩ : ∃ b m', m = b :: m' := by
      cases m with
      | nil => cases h
      | cons b m => exact ⟨b, m, rfl⟩
    cases h
    have hhead : l.head? = m.head? := by
      rw [← Option.or_none (o := l.head?), ← hl.1, hm.1, Option.or_none]
    rw [ih hl.2 hm.2 hhead]

variable [DecidableEq α]

/-- `if (p) p->f = v`. -/
def setAt (f : α → Option α) (p v : Option α) : α → Option α :=
  match p with
  | none => f
  | some b => Function.update f b v

@[simp] theorem setAt_none (f : α → Option α) (v : Option α) : setAt f none v = f := rfl

@[simp] theorem setAt_some (f : α → Option α) (b : α) (v : Option α) :
    setAt f (some b) v = Function.update f b v := rfl

theorem setAt_of_ne (f : α → Option α) {p : Option α} (v : Option α) (h : p ≠ some a) :
    setAt f p v a = f a := by
  cases p with
  | none => rfl
  | some b => exact Function.update_of_ne (fun hab => h (by rw [hab])) _ _

/-- Changing where the last node leads. -/
theorem leads_retarget (hl : Leads f l e) (hnd : l.Nodup) (e' : Option α) :
    Leads (setAt f l.getLast? e') l e' := by
  induction l with
  | nil => trivial
  | cons b l ih =>
    obtain ⟨hb, hnd⟩ := List.nodup_cons.mp hnd
    cases l with
    | nil => exact ⟨by simp, trivial⟩
    | cons c l =>
      rw [List.getLast?_cons_cons]
      refine ⟨?_, ih hl.2 hnd⟩
      rw [setAt_of_ne _ _ fun h => hb (List.mem_of_getLast? h)]
      exact hl.1

/-- A node that is on no list may change its field. -/
theorem leads_setAt (hl : Leads f l e) {p : Option α} (h : ∀ b ∈ l, p ≠ some b) (v : Option α) :
    Leads (setAt f p v) l e :=
  leads_congr (fun b hb => (setAt_of_ne f v (h b hb)).symm) hl

/-- **Taking a node out**: the node before it leads to where it led. -/
theorem leads_bypass {pre post : List α} (h : Leads f (pre ++ a :: post) none)
    (hnd : (pre ++ a :: post).Nodup) : f a = post.head? ∧
      Leads (setAt f pre.getLast? (f a)) (pre ++ post) none := by
  obtain ⟨hpre, ha, hpost⟩ := leads_append.mp h
  rw [Option.or_none] at ha
  obtain ⟨h1, h2, h3⟩ := List.nodup_append.mp hnd
  refine ⟨ha, leads_append.mpr ⟨?_, leads_setAt hpost (fun b hb hp => ?_) _⟩⟩
  · rw [Option.or_none, ← ha]
    exact leads_retarget hpre h1 _
  · exact h3 b (List.mem_of_getLast? hp) b (List.mem_cons_of_mem _ hb) rfl

/-- **A node before the first one.** -/
theorem leads_cons (hl : Leads f l e) (ha : a ∉ l) :
    Leads (Function.update f a (l.head?.or e)) (a :: l) e :=
  ⟨Function.update_self _ _ _, leads_congr
    (fun b hb => (Function.update_of_ne (fun hab => ha (by rwa [← hab])) _ _).symm) hl⟩

/-- **A node after the last one.** -/
theorem leads_snoc (hl : Leads f l e) (hnd : l.Nodup) (ha : a ∉ l) (hf : f a = none) :
    Leads (setAt f l.getLast? (some a)) (l ++ [a]) none := by
  refine leads_append.mpr ⟨leads_retarget hl hnd _, ?_, trivial⟩
  rw [setAt_of_ne _ _ fun h => ha (List.mem_of_getLast? h)]
  exact hf

end Linked
