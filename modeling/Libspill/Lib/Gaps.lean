import Libspill.Lib.Span

set_option autoImplicit false

/-!
# The gaps between spans

The holes of a tiling, computed from its live spans.

* `gaps`: the gaps that spans in ascending order leave.
* `gaps_covers`, `gapped_gaps`: what they cover, and that they are maximal.
* `top`: where the last span ends.
* **`Tiling.canonical`**: the holes and the end of a tiling are a function of its live spans.
-/

/-- The gaps from `cur` on that spans in ascending order leave. -/
def gaps : ℕ → List Span → List Span
  | _, [] => []
  | cur, e :: l => if cur < e.foff then ⟨cur, e.foff - cur⟩ :: gaps e.fin l else gaps e.fin l

/-- The end of the last span, or `lo` when there is none. -/
def top (lo : ℕ) (l : List Span) : ℕ := (l.map Span.fin).foldr max lo

@[simp] theorem gaps_nil (cur : ℕ) : gaps cur [] = [] := rfl

@[simp] theorem top_nil (lo : ℕ) : top lo [] = lo := rfl

@[simp] theorem top_cons (lo : ℕ) (e : Span) (l : List Span) :
    top lo (e :: l) = max e.fin (top lo l) := rfl

/-- Spans that follow each other from `cur` on. -/
structure Ascending (cur : ℕ) (l : List Span) : Prop where
  from_cur : ∀ e ∈ l, cur ≤ e.foff
  sorted : l.Pairwise fun a b => a.fin ≤ b.foff
  pos : ∀ e ∈ l, 0 < e.len

section Gaps

variable {cur : ℕ} {e : Span} {l : List Span}

theorem Ascending.tail (h : Ascending cur (e :: l)) : Ascending e.fin l where
  from_cur := (List.pairwise_cons.mp h.sorted).1
  sorted := (List.pairwise_cons.mp h.sorted).2
  pos b hb := h.pos b (List.mem_cons_of_mem _ hb)

/-- A gap lies between `cur` and the start of a span. -/
theorem gaps_mem (h : Ascending cur l) {g : Span} (hg : g ∈ gaps cur l) :
    cur ≤ g.foff ∧ 0 < g.len ∧ ∃ e ∈ l, g.fin = e.foff := by
  induction l generalizing cur with
  | nil => cases hg
  | cons e l ih =>
    have hcur := h.from_cur e (by simp)
    have hin : g ∈ gaps e.fin l → cur ≤ g.foff ∧ 0 < g.len ∧ ∃ b ∈ e :: l, g.fin = b.foff := by
      intro hg
      obtain ⟨h1, h2, b, hb, h3⟩ := ih h.tail hg
      exact ⟨by simp only [Span.fin] at h1; omega, h2, b, by simp [hb], h3⟩
    unfold gaps at hg
    split_ifs at hg with hlt
    · rcases List.mem_cons.mp hg with rfl | hg
      · exact ⟨Nat.le_refl _, by simp; omega, e, by simp, by simp only [Span.fin]; omega⟩
      · exact hin hg
    · exact hin hg

/-- **The gaps are maximal**: none is empty and no two touch. -/
theorem gapped_gaps (h : Ascending cur l) : Gapped (gaps cur l) := by
  induction l generalizing cur with
  | nil => exact .nil
  | cons e l ih =>
    have hpos := h.pos e (by simp)
    unfold gaps
    split_ifs with hlt
    · refine gapped_cons.mpr ⟨by simp; omega, fun g hg => ?_, ih h.tail⟩
      have := (gaps_mem h.tail hg).1
      simp only [Span.fin] at this ⊢
      omega
    · exact ih h.tail

/-- **What the gaps cover**: from `cur` to the last end, what no span covers. -/
theorem gaps_covers (h : Ascending cur l) (x : ℕ) :
    Covers (gaps cur l) x ↔ cur ≤ x ∧ x < top cur l ∧ ¬ Covers l x := by
  induction l generalizing cur with
  | nil => simp
  | cons e l ih =>
    have hcur := h.from_cur e (by simp)
    have hpos := h.pos e (by simp)
    have htail := ih h.tail
    -- nothing of the tail is before the end of the head
    have hpast : Covers l x → e.fin ≤ x := fun ⟨b, hb, hx⟩ =>
      (h.tail.from_cur b hb).trans hx.1
    have htop : x < top e.fin l ↔ x < e.fin ∨ x < top cur l := by
      have : top e.fin l = max e.fin (top cur l) := by
        clear htail hpast ih
        have hlast : ∀ (m : List Span), (∀ b ∈ m, e.fin ≤ b.fin) → m ≠ [] →
            top e.fin m = top cur m := by
          intro m hm hne
          induction m with
          | nil => exact absurd rfl hne
          | cons b m ih =>
            have hb := hm b (by simp)
            by_cases hnil : m = []
            · subst hnil
              simp only [Span.fin, top_cons, top_nil] at hb ⊢
              omega
            · rw [top_cons, top_cons, ih (fun c hc => hm c (by simp [hc])) hnil]
        by_cases hnil : l = []
        · subst hnil
          simp only [Span.fin, top_nil]
          omega
        · rw [hlast l (fun b hb => (h.tail.from_cur b hb).trans (Nat.le_add_right _ _)) hnil]
          obtain ⟨b, m, rfl⟩ := List.exists_cons_of_ne_nil hnil
          have := h.tail.from_cur b (by simp)
          simp only [Span.fin, top_cons] at this ⊢
          omega
      rw [this]
      omega
    have hhead : e.Has x ↔ e.foff ≤ x ∧ x < e.fin := Iff.rfl
    have hrest : e.foff ≤ e.fin := Nat.le_add_right _ _
    rw [covers_cons, top_cons, lt_max_iff, hhead]
    unfold gaps
    split_ifs with hlt
    · have hgap : (⟨cur, e.foff - cur⟩ : Span).Has x ↔ cur ≤ x ∧ x < e.foff := by
        simp only [Span.Has]
        omega
      rw [covers_cons, hgap, htail, htop]
      have hlow : x < e.foff → ¬ Covers l x := fun h1 h2 => by
        have := hpast h2
        omega
      constructor
      · rintro (h1 | ⟨h1, h2, h3⟩)
        · exact ⟨h1.1, Or.inl (by omega), by rintro (h2 | h2); exacts [by omega, hlow h1.2 h2]⟩
        · exact ⟨by omega, h2, by rintro (h4 | h4); exacts [by omega, h3 h4]⟩
      · rintro ⟨h1, h2, h3⟩
        rw [not_or] at h3
        by_cases h4 : x < e.foff
        · exact Or.inl ⟨h1, h4⟩
        · exact Or.inr ⟨by omega, h2, h3.2⟩
    · rw [htail, htop]
      constructor
      · rintro ⟨h1, h2, h3⟩
        exact ⟨by omega, h2, by rintro (h4 | h4); exacts [by omega, h3 h4]⟩
      · rintro ⟨h1, h2, h3⟩
        rw [not_or] at h3
        exact ⟨by omega, h2, h3.2⟩

end Gaps

/-! ## Tilings -/

namespace Tiling

variable {lo A fe : ℕ} {live fl : List Span}

/-- The end of a tiling is the end of its last live span. -/
theorem end_eq_top (h : Tiling lo A live fl fe) : fe = top lo live := by
  have hge : ∀ l : List Span, lo ≤ top lo l := by
    intro l
    induction l with
    | nil => exact Nat.le_refl _
    | cons e l ih => exact ih.trans (le_max_right _ _)
  have hmem : ∀ (l : List Span), ∀ e ∈ l, e.fin ≤ top lo l := by
    intro l
    induction l with
    | nil => exact fun e he => by cases he
    | cons b l ih =>
      intro e he
      rcases List.mem_cons.mp he with rfl | he
      · exact le_max_left _ _
      · exact (ih e he).trans (le_max_right _ _)
  have hle : ∀ l : List Span, (∀ e ∈ l, e.fin ≤ fe) → top lo l ≤ fe := by
    intro l hl
    induction l with
    | nil => exact h.lo_le
    | cons e l ih =>
      exact max_le (hl e (by simp)) (ih fun b hb => hl b (by simp [hb]))
  refine Nat.le_antisymm ?_ (hle live fun e he => (h.live_bounds he).2)
  rcases h.last with h1 | ⟨e, he, hx⟩
  · rw [h1]
    exact hge live
  · have h1 := hmem live e he
    simp only [Span.fin, Span.Has] at h1 hx
    omega

/-- In ascending order, the live spans follow each other. -/
theorem ascending (h : Tiling lo A live fl fe) {all : List Span} (hp : all.Perm live)
    (hs : all.Pairwise fun a b => a.foff ≤ b.foff) : Ascending lo all where
  from_cur e he := (h.live_bounds (hp.mem_iff.mp he)).1
  sorted := by
    have hT := h.perm hp.symm
    refine (hs.and hT.apart).imp_of_mem fun {a b} ha hb hab => ?_
    have h1 := (Span.apart_iff (hT.live_pos a ha) (hT.live_pos b hb)).mp hab.2
    have h2 := hT.live_pos b hb
    simp only [Span.fin] at h1 ⊢
    omega
  pos e he := h.live_pos e (hp.mem_iff.mp he)

/-- **The holes of a tiling are the gaps between its live spans**, and it ends where they end. -/
theorem canonical (h : Tiling lo A live fl fe) {all : List Span} (hp : all.Perm live)
    (hs : all.Pairwise fun a b => a.foff ≤ b.foff) : fl = gaps lo all ∧ fe = top lo live := by
  have hasc := h.ascending hp hs
  have hend := h.end_eq_top
  have htop : top lo all = top lo live := by
    rw [← hend, ← (h.perm hp.symm).end_eq_top]
  refine ⟨h.gapped.eq_of_covers (gapped_gaps hasc) fun x => ?_, hend⟩
  rw [gaps_covers hasc, htop, ← hend, covers_perm hp]
  constructor
  · intro hx
    obtain ⟨h1, h2⟩ := (h.cover x).mpr (Or.inr hx)
    exact ⟨h1, h2, fun hl => h.excl x hl hx⟩
  · rintro ⟨h1, h2, h3⟩
    exact ((h.cover x).mp ⟨h1, h2⟩).resolve_left h3

end Tiling
