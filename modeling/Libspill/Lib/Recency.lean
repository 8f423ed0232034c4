import Mathlib

set_option autoImplicit false

/-!
# Lists by recency

A list is *ranked* by stamps if a later element has a smaller stamp. Moving an element to the front
and giving it a new stamp keeps a ranked list ranked, so the last element of some kind is the one of
its kind that was moved longest ago.

* `Ranked`: the order.
* `ranked_erase`, **`ranked_toFront`**: taking an element out, and moving one to the front.
* **`ranked_find`**: the last element of a kind has the least stamp of its kind.
-/

section Recency

variable {α : Type} {stamp : α → ℕ} {l : List α} {a : α}

/-- The stamps fall along the list. -/
def Ranked (stamp : α → ℕ) (l : List α) : Prop := l.Pairwise fun a b => stamp b < stamp a

theorem ranked_nil : Ranked stamp [] := List.Pairwise.nil

theorem ranked_congr {stamp' : α → ℕ} (h : ∀ b ∈ l, stamp' b = stamp b) (hl : Ranked stamp l) :
    Ranked stamp' l :=
  List.Pairwise.imp_of_mem (fun ha hb hab => by rw [h _ ha, h _ hb]; exact hab) hl

/-- No two elements have the same stamp. -/
theorem ranked_inj {b : α} (hl : Ranked stamp l) (ha : a ∈ l) (hb : b ∈ l) (h : stamp a = stamp b) : a = b :=
  List.inj_on_of_nodup_map (List.pairwise_map.mpr (hl.imp fun hab => hab.ne')) ha hb h

/-- **The last element of a kind** has the least stamp of its kind. -/
theorem ranked_find {p : α → Bool} (hl : Ranked stamp l) (h : l.reverse.find? p = some a) :
    a ∈ l ∧ p a = true ∧ ∀ b ∈ l, p b = true → stamp a ≤ stamp b := by
  have ha : a ∈ l := List.mem_reverse.mp (List.mem_of_find?_eq_some h)
  refine ⟨ha, List.find?_some h, fun b hb hpb => ?_⟩
  induction l with
  | nil => cases hb
  | cons c l ih =>
    obtain ⟨hc, hl⟩ := List.pairwise_cons.mp hl
    rw [List.reverse_cons, List.find?_append] at h
    cases hrest : l.reverse.find? p with
    | some d =>
      rw [hrest, Option.some_or] at h
      cases h
      have hd := List.mem_reverse.mp (List.mem_of_find?_eq_some hrest)
      rcases List.mem_cons.mp hb with rfl | hb
      · exact (hc a hd).le
      · exact ih hl hrest hd hb
    | none =>
      rw [hrest, Option.none_or] at h
      -- nothing else of the kind is on the list
      have hca : c = a := by
        by_cases hp : p c <;> simp [hp] at h
        exact h
      rcases List.mem_cons.mp hb with rfl | hb
      · rw [hca]
      · exact absurd hpb (List.find?_eq_none.mp hrest b (List.mem_reverse.mpr hb))

variable [DecidableEq α] [BEq α] [LawfulBEq α]

omit [DecidableEq α] [LawfulBEq α] in
theorem ranked_erase (hl : Ranked stamp l) (a : α) : Ranked stamp (l.erase a) :=
  hl.sublist List.erase_sublist

/-- **Moving an element to the front.** -/
theorem ranked_toFront {clock : ℕ} (hl : Ranked stamp l) (hnd : l.Nodup) (hclock : ∀ b, stamp b ≤ clock)
    (a : α) : Ranked (Function.update stamp a (clock + 1))
      (if l.head? = some a then l else a :: l.erase a) := by
  have hcons : ∀ m : List α, a ∉ m → Ranked stamp m → Ranked (Function.update stamp a (clock + 1)) (a :: m) := by
    intro m ha hm
    have hother : ∀ b ∈ m, Function.update stamp a (clock + 1) b = stamp b := fun b hb =>
      Function.update_of_ne (fun hba => ha (by rwa [← hba])) _ _
    refine List.pairwise_cons.mpr ⟨fun b hb => ?_, ranked_congr hother hm⟩
    rw [hother b hb, Function.update_self]
    exact Nat.lt_succ_of_le (hclock b)
  split_ifs with hhead
  · cases l with
    | nil => exact ranked_nil
    | cons b l =>
      cases hhead
      exact hcons l (List.nodup_cons.mp hnd).1 (List.pairwise_cons.mp hl).2
  · exact hcons _ hnd.not_mem_erase (ranked_erase hl a)

end Recency
