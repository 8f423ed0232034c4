import Mathlib

set_option autoImplicit false

/-!
# Spans of addresses

A `Span` is an interval of addresses. A list of spans plays two parts.

* As a *map*: `locate l p` is the address of logical position `p` when the spans of `l` are laid end
  to end. Spans that are pairwise apart make `locate` injective (`locate_inj`), and appending spans
  does not move what is there (`locate_prefix`).
* As a *set*: `Covers l x`. A list that is `Gapped` (ascending, no empty span, no two touching) is
  determined by the set it covers (**`Gapped.eq_of_covers`**).

`Tiling lo A live fl fe` says that `live` and `fl` together tile `[lo, fe)`, that `fl` is gapped and
that the last address belongs to `live`: `fl` is then the list of the maximal gaps between the
spans of `live`. It is kept by taking a hole (`Tiling.take`), by splitting one (`Tiling.split`), by
growing at the end (`Tiling.extend`) and by giving a span back (`Tiling.release`,
`Tiling.release_last`).
-/

/-- `len` addresses from `foff` on. -/
structure Span where
  foff : ℕ
  len : ℕ
deriving DecidableEq, Repr

namespace Span

/-- The first address past the span. -/
def fin (e : Span) : ℕ := e.foff + e.len

/-- The span holds address `x`. -/
def Has (e : Span) (x : ℕ) : Prop := e.foff ≤ x ∧ x < e.foff + e.len

/-- Two spans share no address. -/
def Apart (a b : Span) : Prop := ∀ x, a.Has x → ¬ b.Has x

theorem Apart.symm {a b : Span} (h : Apart a b) : Apart b a := fun x hb ha => h x ha hb

theorem apart_iff {a b : Span} (ha : 0 < a.len) (hb : 0 < b.len) :
    Apart a b ↔ a.fin ≤ b.foff ∨ b.fin ≤ a.foff := by
  simp only [Apart, Has, fin]
  constructor
  · intro h
    by_contra hc
    have h1 := h (max a.foff b.foff)
    omega
  · rintro h x h1 h2
    omega

end Span

/-- Some span of the list holds `x`. -/
def Covers (l : List Span) (x : ℕ) : Prop := ∃ e ∈ l, e.Has x

@[simp] theorem covers_nil (x : ℕ) : ¬ Covers [] x := by simp [Covers]

@[simp] theorem covers_cons (e : Span) (l : List Span) (x : ℕ) :
    Covers (e :: l) x ↔ e.Has x ∨ Covers l x := by simp [Covers]

@[simp] theorem covers_append (l m : List Span) (x : ℕ) :
    Covers (l ++ m) x ↔ Covers l x ∨ Covers m x := by
  simp [Covers, or_and_right, exists_or]

theorem covers_perm {l m : List Span} (h : l.Perm m) (x : ℕ) : Covers l x ↔ Covers m x := by
  simp only [Covers, h.mem_iff]

/-! ## Lists of spans as maps -/

/-- The number of positions a list of spans provides. -/
def total (l : List Span) : ℕ := (l.map Span.len).sum

@[simp] theorem total_nil : total [] = 0 := rfl

@[simp] theorem total_cons (e : Span) (l : List Span) : total (e :: l) = e.len + total l := by
  simp [total]

@[simp] theorem total_append (l m : List Span) : total (l ++ m) = total l + total m := by
  simp [total]

theorem total_perm {l m : List Span} (h : l.Perm m) : total l = total m :=
  (h.map Span.len).sum_eq

theorem total_le_of_prefix {l m : List Span} (h : l <+: m) : total l ≤ total m := by
  obtain ⟨t, rfl⟩ := h
  simp

/-- The addresses spans without overlap hold are as many as their lengths say. -/
theorem exists_card_eq_total {l : List Span} (h : l.Pairwise Span.Apart) :
    ∃ S : Finset ℕ, S.card = total l ∧ ∀ x, x ∈ S ↔ Covers l x := by
  induction l with
  | nil => exact ⟨∅, rfl, by simp⟩
  | cons e l ih =>
    rw [List.pairwise_cons] at h
    obtain ⟨S, hc, hS⟩ := ih h.2
    have hdis : Disjoint (Finset.Ico e.foff (e.foff + e.len)) S := by
      rw [Finset.disjoint_left]
      intro x hx hxS
      obtain ⟨b, hb, hbx⟩ := (hS x).mp hxS
      exact h.1 b hb x (Finset.mem_Ico.mp hx) hbx
    refine ⟨Finset.Ico e.foff (e.foff + e.len) ∪ S, ?_, fun x => ?_⟩
    · rw [Finset.card_union_of_disjoint hdis, Nat.card_Ico, hc, total_cons]
      omega
    · rw [Finset.mem_union, Finset.mem_Ico, hS, covers_cons]
      rfl

/-- The least bound of the ends of some spans. -/
theorem exists_top (l : List Span) :
    ∃ t, (∀ e ∈ l, e.fin ≤ t) ∧ ∀ b, (∀ e ∈ l, e.fin ≤ b) → t ≤ b := by
  induction l with
  | nil => exact ⟨0, fun _ h => (by cases h), fun b _ => Nat.zero_le b⟩
  | cons e l ih =>
    obtain ⟨t, h1, h2⟩ := ih
    refine ⟨max e.fin t, fun f hf => ?_, fun b hb => Nat.max_le.mpr
      ⟨hb e List.mem_cons_self, h2 b fun f hf => hb f (List.mem_cons_of_mem _ hf)⟩⟩
    rcases List.mem_cons.mp hf with rfl | hf
    · exact Nat.le_max_left _ _
    · exact (h1 f hf).trans (Nat.le_max_right _ _)

/-- Spans without overlap fit in what they cover. -/
theorem total_le {l : List Span} (h : l.Pairwise Span.Apart) {lo hi : ℕ}
    (hb : ∀ x, Covers l x → lo ≤ x ∧ x < hi) : total l ≤ hi - lo := by
  obtain ⟨S, hc, hS⟩ := exists_card_eq_total h
  rw [← hc, ← Nat.card_Ico]
  exact Finset.card_le_card fun x hx => Finset.mem_Ico.mpr (hb x ((hS x).mp hx))


/-- The address of position `p` when the spans are laid end to end. -/
def locate : List Span → ℕ → Option ℕ
  | [], _ => none
  | e :: l, p => if p < e.len then some (e.foff + p) else locate l (p - e.len)

theorem locate_isSome {l : List Span} {p : ℕ} : (locate l p).isSome ↔ p < total l := by
  induction l generalizing p with
  | nil => simp [locate]
  | cons e l ih =>
    simp only [locate, total_cons]
    split_ifs with h
    · simp
      omega
    · rw [ih]
      omega

theorem exists_locate {l : List Span} {p : ℕ} (h : p < total l) : ∃ x, locate l p = some x :=
  Option.isSome_iff_exists.mp (locate_isSome.mpr h)

theorem lt_total_of_locate {l : List Span} {p x : ℕ} (h : locate l p = some x) : p < total l :=
  locate_isSome.mp (by rw [h]; rfl)

theorem locate_eq_none {l : List Span} {p : ℕ} (h : total l ≤ p) : locate l p = none := by
  rw [← Option.not_isSome_iff_eq_none, locate_isSome]
  omega

theorem covers_of_locate {l : List Span} {p x : ℕ} (h : locate l p = some x) : Covers l x := by
  induction l generalizing p with
  | nil => cases h
  | cons e l ih =>
    simp only [locate] at h
    rw [covers_cons]
    split_ifs at h with hp
    · cases h
      exact Or.inl ⟨by omega, by omega⟩
    · exact Or.inr (ih h)

theorem locate_append_left {l m : List Span} {p : ℕ} (h : p < total l) :
    locate (l ++ m) p = locate l p := by
  induction l generalizing p with
  | nil => simp at h
  | cons e l ih =>
    simp only [List.cons_append, locate]
    split_ifs with hp
    · rfl
    · exact ih (by rw [total_cons] at h; omega)

theorem locate_append_right {l m : List Span} {p : ℕ} (h : total l ≤ p) :
    locate (l ++ m) p = locate m (p - total l) := by
  induction l generalizing p with
  | nil => simp
  | cons e l ih =>
    simp only [List.cons_append, locate, total_cons] at h ⊢
    rw [if_neg (by omega), ih (by omega)]
    congr 1
    omega

/-- Spans appended at the end move nothing. -/
theorem locate_prefix {l m : List Span} (h : l <+: m) {p : ℕ} (hp : p < total l) :
    locate m p = locate l p := by
  obtain ⟨t, rfl⟩ := h
  exact locate_append_left hp

/-- **Distinct positions have distinct addresses.** -/
theorem locate_inj {l : List Span} (h : l.Pairwise Span.Apart) {p q x : ℕ}
    (hp : locate l p = some x) (hq : locate l q = some x) : p = q := by
  induction l generalizing p q with
  | nil => cases hp
  | cons e l ih =>
    obtain ⟨h1, h2⟩ := List.pairwise_cons.mp h
    simp only [locate] at hp hq
    -- an address of the head span is held by no later span
    have key : ∀ r s, r < e.len → locate l s = some (e.foff + r) → False := by
      intro r s hr hs
      obtain ⟨b, hb, hx⟩ := covers_of_locate hs
      exact h1 b hb _ ⟨by omega, by omega⟩ hx
    split_ifs at hp hq with h3 h4 h4
    · have h5 := Option.some.inj hp
      have h6 := Option.some.inj hq
      omega
    · cases hp
      exact (key _ _ h3 hq).elim
    · cases hq
      exact (key _ _ h4 hp).elim
    · have := ih h2 hp hq
      omega

/-! ## Lists of spans as sets -/

/-- Ascending, no empty span, no two touching. -/
structure Gapped (l : List Span) : Prop where
  sorted : l.Pairwise fun a b => a.fin < b.foff
  pos : ∀ e ∈ l, 0 < e.len

theorem Gapped.nil : Gapped [] := ⟨List.Pairwise.nil, by simp⟩

theorem gapped_cons {e : Span} {l : List Span} :
    Gapped (e :: l) ↔ 0 < e.len ∧ (∀ b ∈ l, e.fin < b.foff) ∧ Gapped l := by
  constructor
  · rintro ⟨h1, h2⟩
    obtain ⟨h3, h4⟩ := List.pairwise_cons.mp h1
    exact ⟨h2 e (by simp), h3, ⟨h4, fun b hb => h2 b (by simp [hb])⟩⟩
  · rintro ⟨h1, h2, h3⟩
    refine ⟨List.pairwise_cons.mpr ⟨h2, h3.sorted⟩, fun b hb => ?_⟩
    rcases List.mem_cons.mp hb with rfl | hb
    · exact h1
    · exact h3.pos b hb

theorem gapped_append {l m : List Span} :
    Gapped (l ++ m) ↔ Gapped l ∧ Gapped m ∧ ∀ a ∈ l, ∀ b ∈ m, a.fin < b.foff := by
  constructor
  · rintro ⟨h1, h2⟩
    obtain ⟨h3, h4, h5⟩ := List.pairwise_append.mp h1
    exact ⟨⟨h3, fun e he => h2 e (by simp [he])⟩, ⟨h4, fun e he => h2 e (by simp [he])⟩, h5⟩
  · rintro ⟨h1, h2, h3⟩
    refine ⟨List.pairwise_append.mpr ⟨h1.sorted, h2.sorted, h3⟩, fun e he => ?_⟩
    rcases List.mem_append.mp he with he | he
    · exact h1.pos e he
    · exact h2.pos e he

/-- Whatever the tail of a gapped list covers lies past the head. -/
theorem Gapped.lt_of_covers {e : Span} {l : List Span} (h : Gapped (e :: l)) {x : ℕ}
    (hx : Covers l x) : e.fin < x := by
  obtain ⟨b, hb, hbx⟩ := hx
  have := (gapped_cons.mp h).2.1 b hb
  exact lt_of_lt_of_le this hbx.1

/-- **A gapped list is determined by the set it covers.** -/
theorem Gapped.eq_of_covers {l m : List Span} (hl : Gapped l) (hm : Gapped m)
    (h : ∀ x, Covers l x ↔ Covers m x) : l = m := by
  induction l generalizing m with
  | nil =>
    cases m with
    | nil => rfl
    | cons b m =>
      have hb := (gapped_cons.mp hm).1
      exact absurd ((h b.foff).mpr (by simp only [covers_cons, Span.Has]; omega)) (by simp)
  | cons a l ih =>
    cases m with
    | nil =>
      have ha := (gapped_cons.mp hl).1
      exact absurd ((h a.foff).mp (by simp only [covers_cons, Span.Has]; omega)) (by simp)
    | cons b m =>
      obtain ⟨ha, -, hl'⟩ := gapped_cons.mp hl
      obtain ⟨hb, -, hm'⟩ := gapped_cons.mp hm
      have hal := fun x (hx : Covers l x) => hl.lt_of_covers hx
      have hbm := fun x (hx : Covers m x) => hm.lt_of_covers hx
      simp only [covers_cons, Span.Has, Span.fin] at h hal hbm
      -- both heads start at the least covered address
      have hoff : a.foff = b.foff := by
        rcases (h a.foff).mp (Or.inl ⟨le_rfl, by omega⟩) with h1 | h1
        · rcases (h b.foff).mpr (Or.inl ⟨le_rfl, by omega⟩) with h2 | h2
          · omega
          · have := hal _ h2
            omega
        · have h2 := hbm _ h1
          rcases (h b.foff).mpr (Or.inl ⟨le_rfl, by omega⟩) with h3 | h3
          · omega
          · have := hal _ h3
            omega
      -- and end before the least address above that is not covered
      have hlen : a.len = b.len := by
        rcases Nat.lt_trichotomy a.len b.len with h1 | h1 | h1
        · rcases (h (a.foff + a.len)).mpr (Or.inl (by omega)) with h2 | h2
          · omega
          · have := hal _ h2
            omega
        · exact h1
        · rcases (h (b.foff + b.len)).mp (Or.inl (by omega)) with h2 | h2
          · omega
          · have := hbm _ h2
            omega
      have hab : a = b := by
        cases a
        cases b
        simp_all
      subst hab
      congr 1
      refine ih hl' hm' fun x => ⟨fun hx => ?_, fun hx => ?_⟩
      · have h1 := hal x hx
        rcases (h x).mp (Or.inr hx) with h2 | h2
        · omega
        · exact h2
      · have h1 := hbm x hx
        rcases (h x).mpr (Or.inr hx) with h2 | h2
        · omega
        · exact h2

/-! ## Tilings -/

/-- `live` and `fl` tile `[lo, fe)` in pieces that are multiples of `A`; `fl` is the list of the
maximal gaps of `live`, and `fe` is the end of the last span of `live`. -/
structure Tiling (lo A : ℕ) (live fl : List Span) (fe : ℕ) : Prop where
  apart : live.Pairwise Span.Apart
  live_pos : ∀ e ∈ live, 0 < e.len
  live_al : ∀ e ∈ live, A ∣ e.foff ∧ A ∣ e.len
  gapped : Gapped fl
  fl_al : ∀ h ∈ fl, A ∣ h.foff ∧ A ∣ h.len
  cover : ∀ x, (lo ≤ x ∧ x < fe) ↔ (Covers live x ∨ Covers fl x)
  excl : ∀ x, Covers live x → ¬ Covers fl x
  lo_le : lo ≤ fe
  fe_al : A ∣ fe
  last : fe = lo ∨ Covers live (fe - 1)

namespace Tiling

variable {lo A fe : ℕ} {live fl : List Span}

theorem empty (h : A ∣ lo) : Tiling lo A [] [] lo where
  apart := List.Pairwise.nil
  live_pos := by simp
  live_al := by simp
  gapped := Gapped.nil
  fl_al := by simp
  cover x := by simp
  excl := by simp
  lo_le := le_rfl
  fe_al := h
  last := Or.inl rfl

theorem perm (h : Tiling lo A live fl fe) {live' : List Span} (hp : live.Perm live') :
    Tiling lo A live' fl fe where
  apart := (hp.pairwise_iff fun {a b} (hab : Span.Apart a b) => hab.symm).mp h.apart
  live_pos e he := h.live_pos e (hp.mem_iff.mpr he)
  live_al e he := h.live_al e (hp.mem_iff.mpr he)
  gapped := h.gapped
  fl_al := h.fl_al
  cover x := by rw [h.cover, covers_perm hp]
  excl x hx := h.excl x ((covers_perm hp x).mpr hx)
  lo_le := h.lo_le
  fe_al := h.fe_al
  last := h.last.imp id (covers_perm hp _).mp

theorem live_bounds (h : Tiling lo A live fl fe) {e : Span} (he : e ∈ live) :
    lo ≤ e.foff ∧ e.fin ≤ fe := by
  have hp := h.live_pos e he
  have h1 := (h.cover e.foff).mpr (Or.inl ⟨e, he, le_rfl, by omega⟩)
  have h2 := (h.cover (e.foff + e.len - 1)).mpr (Or.inl ⟨e, he, by omega, by omega⟩)
  simp only [Span.fin]
  omega

theorem total_live_le (h : Tiling lo A live fl fe) : total live ≤ fe - lo :=
  total_le h.apart fun x hx => (h.cover x).mpr (Or.inl hx)

theorem hole_bounds (h : Tiling lo A live fl fe) {e : Span} (he : e ∈ fl) :
    lo ≤ e.foff ∧ e.fin ≤ fe := by
  have hp := h.gapped.pos e he
  have h1 := (h.cover e.foff).mpr (Or.inr ⟨e, he, le_rfl, by omega⟩)
  have h2 := (h.cover (e.foff + e.len - 1)).mpr (Or.inr ⟨e, he, by omega, by omega⟩)
  simp only [Span.fin]
  omega

/-- No hole reaches the end: the last address is live. -/
theorem hole_lt_end (h : Tiling lo A live fl fe) {e : Span} (he : e ∈ fl) : e.fin < fe := by
  have hp := h.gapped.pos e he
  have hb := h.hole_bounds he
  simp only [Span.fin] at hb ⊢
  rcases h.last with h1 | h1
  · omega
  · by_contra hc
    exact h.excl _ h1 ⟨e, he, by omega, by omega⟩

/-- **A gap lies in one hole**, unless it is past the end: no live span meets it. -/
theorem hole_of_gap (h : Tiling lo A live fl fe) {e : Span} (he : 0 < e.len) (hlo : lo ≤ e.foff)
    (hap : ∀ x, e.Has x → ¬ Covers live x) (hfe : e.foff < fe) :
    ∃ b ∈ fl, b.foff ≤ e.foff ∧ e.fin ≤ b.fin := by
  obtain ⟨b, hb, hbx⟩ := ((h.cover e.foff).mp ⟨hlo, hfe⟩).resolve_left
    (hap e.foff ⟨le_rfl, by omega⟩)
  refine ⟨b, hb, hbx.1, ?_⟩
  by_contra hlt
  -- the address where the hole ends would be in a hole that touches it
  have hend := h.hole_lt_end hb
  have hx : e.Has b.fin := by
    simp only [Span.fin] at hlt ⊢
    exact ⟨by have := hbx.2; omega, by omega⟩
  obtain ⟨c, hc, hcx⟩ := ((h.cover b.fin).mp ⟨hlo.trans hx.1, hend⟩).resolve_left (hap _ hx)
  have hpos := h.gapped.pos b hb
  obtain ⟨pre, post, rfl⟩ := List.append_of_mem hb
  obtain ⟨-, hg, hpre⟩ := gapped_append.mp h.gapped
  have h1 := hcx.1
  have h2 := hcx.2
  rcases List.mem_append.mp hc with hc | hc
  · have := hpre c hc b List.mem_cons_self
    simp only [Span.fin] at this h2
    omega
  · rcases List.mem_cons.mp hc with rfl | hc
    · exact absurd h2 (lt_irrefl _)
    · exact absurd ((gapped_cons.mp hg).2.1 c hc) (Nat.not_lt.mpr h1)

/-- **What a span that is no longer live leaves**: a hole that is as long, or an end so much nearer. -/
theorem room_of_release {e : Span} (h : Tiling lo A (e :: live) fl fe) {fl' : List Span} {fe' : ℕ}
    (h' : Tiling lo A live fl' fe') :
    fe' ≤ fe ∧ (fe' + e.len ≤ fe ∨ ∃ b ∈ fl', e.len ≤ b.len) := by
  have he := h.live_pos e List.mem_cons_self
  obtain ⟨hlo, hfin⟩ := h.live_bounds (e := e) List.mem_cons_self
  have hle : fe' ≤ fe := by
    rcases h'.last with h1 | h1
    · exact h1 ▸ h.lo_le
    · have := ((h.cover (fe' - 1)).mpr (Or.inl ((covers_cons ..).mpr (Or.inr h1)))).2
      omega
  refine ⟨hle, ?_⟩
  simp only [Span.fin] at hfin
  by_cases hfe : e.foff < fe'
  · obtain ⟨b, hb, h1, h2⟩ := h'.hole_of_gap he hlo (fun x hx hc => by
      obtain ⟨c, hc, hcx⟩ := hc
      exact (List.pairwise_cons.mp h.apart).1 c hc x hx hcx) hfe
    simp only [Span.fin] at h2
    exact Or.inr ⟨b, hb, by omega⟩
  · exact Or.inl (by omega)

/-- The tiling of a set of live spans is unique. -/
theorem unique (h : Tiling lo A live fl fe) {live' fl' : List Span} {fe' : ℕ}
    (h' : Tiling lo A live' fl' fe') (hc : ∀ x, Covers live x ↔ Covers live' x) :
    fl = fl' ∧ fe = fe' := by
  have hfe : fe = fe' := by
    have b1 := h.lo_le
    have b2 := h'.lo_le
    rcases h.last with h1 | h1
    · rcases h'.last with h2 | h2
      · omega
      · have := (h.cover (fe' - 1)).mpr (Or.inl ((hc _).mpr h2))
        omega
    · have h3 := (h'.cover (fe - 1)).mpr (Or.inl ((hc _).mp h1))
      rcases h'.last with h2 | h2
      · omega
      · have := (h.cover (fe' - 1)).mpr (Or.inl ((hc _).mpr h2))
        omega
  subst hfe
  refine ⟨h.gapped.eq_of_covers h'.gapped fun x => ⟨fun hx => ?_, fun hx => ?_⟩, rfl⟩
  · rcases (h'.cover x).mp ((h.cover x).mpr (Or.inr hx)) with h1 | h1
    · exact absurd hx (h.excl x ((hc x).mpr h1))
    · exact h1
  · rcases (h.cover x).mp ((h'.cover x).mpr (Or.inr hx)) with h1 | h1
    · exact absurd hx (h'.excl x ((hc x).mp h1))
    · exact h1

/-- Growing at the end. -/
theorem extend (h : Tiling lo A live fl fe) {n : ℕ} (hn : 0 < n) (hA : A ∣ n) :
    Tiling lo A (⟨fe, n⟩ :: live) fl (fe + n) where
  apart := by
    refine List.pairwise_cons.mpr ⟨fun b hb x hx hbx => ?_, h.apart⟩
    have := (h.cover x).mpr (Or.inl ⟨b, hb, hbx⟩)
    simp only [Span.Has] at hx
    omega
  live_pos e he := by
    rcases List.mem_cons.mp he with rfl | he
    · exact hn
    · exact h.live_pos e he
  live_al e he := by
    rcases List.mem_cons.mp he with rfl | he
    · exact ⟨h.fe_al, hA⟩
    · exact h.live_al e he
  gapped := h.gapped
  fl_al := h.fl_al
  cover x := by
    rw [covers_cons, or_assoc, ← h.cover]
    have := h.lo_le
    simp only [Span.Has]
    omega
  excl x hx hf := by
    rcases (covers_cons _ _ _).mp hx with h1 | h1
    · have := (h.cover x).mpr (Or.inr hf)
      simp only [Span.Has] at h1
      omega
    · exact h.excl x h1 hf
  lo_le := by have := h.lo_le; omega
  fe_al := Nat.dvd_add h.fe_al hA
  last := Or.inr ((covers_cons _ _ _).mpr (Or.inl ⟨by simp; omega, by simp; omega⟩))

/-- Moving addresses from the holes to the live spans, as a change of the covered sets. -/
theorem move (h : Tiling lo A live fl fe) {e : Span} {fl' : List Span} (he : 0 < e.len)
    (ha : A ∣ e.foff ∧ A ∣ e.len) (hg : Gapped fl') (hal : ∀ b ∈ fl', A ∣ b.foff ∧ A ∣ b.len)
    (hc : ∀ x, Covers fl x ↔ e.Has x ∨ Covers fl' x) (hx : ∀ x, e.Has x → ¬ Covers fl' x) :
    Tiling lo A (e :: live) fl' fe where
  apart := by
    refine List.pairwise_cons.mpr ⟨fun b hb x hex hbx => ?_, h.apart⟩
    exact h.excl x ⟨b, hb, hbx⟩ ((hc x).mpr (Or.inl hex))
  live_pos b hb := by
    rcases List.mem_cons.mp hb with rfl | hb
    · exact he
    · exact h.live_pos b hb
  live_al b hb := by
    rcases List.mem_cons.mp hb with rfl | hb
    · exact ha
    · exact h.live_al b hb
  gapped := hg
  fl_al := hal
  cover x := by
    rw [h.cover, hc, covers_cons]
    tauto
  excl x h1 h2 := by
    rcases (covers_cons _ _ _).mp h1 with h3 | h3
    · exact hx x h3 h2
    · exact h.excl x h3 ((hc x).mpr (Or.inr h2))
  lo_le := h.lo_le
  fe_al := h.fe_al
  last := h.last.imp id fun h1 => (covers_cons _ _ _).mpr (Or.inr h1)

/-- Taking a hole whole. -/
theorem take {pre post : List Span} {e : Span} (h : Tiling lo A live (pre ++ e :: post) fe) :
    Tiling lo A (e :: live) (pre ++ post) fe := by
  obtain ⟨hg1, hg2, hg3⟩ := gapped_append.mp h.gapped
  obtain ⟨hp, hg4, hg5⟩ := gapped_cons.mp hg2
  refine h.move hp (h.fl_al e (by simp)) (gapped_append.mpr ⟨hg1, hg5, fun a ha b hb =>
    hg3 a ha b (by simp [hb])⟩) (fun b hb => h.fl_al b ?_) (fun x => ?_) (fun x hx hc => ?_)
  · rcases List.mem_append.mp hb with hb | hb <;> simp [hb]
  · simp only [covers_append, covers_cons]
    tauto
  · simp only [Span.Has] at hx
    rcases (covers_append _ _ _).mp hc with ⟨b, hb, hbx⟩ | ⟨b, hb, hbx⟩
    · have := hg3 b hb e (by simp)
      simp only [Span.Has, Span.fin] at hbx this
      omega
    · have := hg4 b hb
      simp only [Span.Has, Span.fin] at hbx this
      omega

/-- Taking the front of a hole. -/
theorem split {pre post : List Span} {e : Span} {n : ℕ}
    (h : Tiling lo A live (pre ++ e :: post) fe) (hn : 0 < n) (hlt : n < e.len) (hA : A ∣ n) :
    Tiling lo A (⟨e.foff, n⟩ :: live) (pre ++ ⟨e.foff + n, e.len - n⟩ :: post) fe := by
  obtain ⟨hg1, hg2, hg3⟩ := gapped_append.mp h.gapped
  obtain ⟨hp, hg4, hg5⟩ := gapped_cons.mp hg2
  have hal := h.fl_al e (by simp)
  refine h.move hn ⟨hal.1, hA⟩ (gapped_append.mpr ⟨hg1, gapped_cons.mpr ⟨by simp; omega, ?_, hg5⟩,
    fun a ha b hb => ?_⟩) (fun b hb => ?_) (fun x => ?_) (fun x hx hc => ?_)
  · intro b hb
    have := hg4 b hb
    simp only [Span.fin] at this ⊢
    omega
  · rcases List.mem_cons.mp hb with rfl | hb
    · have := hg3 a ha e (by simp)
      simp only
      omega
    · exact hg3 a ha b (by simp [hb])
  · rcases List.mem_append.mp hb with hb | hb
    · exact h.fl_al b (by simp [hb])
    · rcases List.mem_cons.mp hb with rfl | hb
      · exact ⟨Nat.dvd_add hal.1 hA, Nat.dvd_sub hal.2 hA⟩
      · exact h.fl_al b (by simp [hb])
  · simp only [covers_append, covers_cons]
    have : e.Has x ↔ Span.Has ⟨e.foff, n⟩ x ∨ Span.Has ⟨e.foff + n, e.len - n⟩ x := by
      simp only [Span.Has]
      omega
    rw [this]
    tauto
  · simp only [Span.Has] at hx
    rcases (covers_append _ _ _).mp hc with ⟨b, hb, hbx⟩ | hb
    · have := hg3 b hb e (by simp)
      simp only [Span.Has, Span.fin] at hbx this
      omega
    · rcases (covers_cons _ _ _).mp hb with hb | ⟨b, hb, hbx⟩
      · simp only [Span.Has] at hb
        omega
      · have := hg4 b hb
        simp only [Span.Has, Span.fin] at hbx this
        omega

/-- A hole is apart from every live span. -/
theorem live_apart_of_mem (h : Tiling lo A live fl fe) {e b : Span} (he : e ∈ live) (hb : b ∈ fl) :
    e.fin ≤ b.foff ∨ b.fin ≤ e.foff :=
  (Span.apart_iff (h.live_pos e he) (h.gapped.pos b hb)).mp
    fun x h1 h2 => h.excl x ⟨e, he, h1⟩ ⟨b, hb, h2⟩

/-- Giving a span back, when the enlarged list of holes does not reach the end. -/
theorem release {e : Span} {fl' : List Span} (h : Tiling lo A (e :: live) fl fe)
    (hg : Gapped fl') (hal : ∀ b ∈ fl', A ∣ b.foff ∧ A ∣ b.len)
    (hc : ∀ x, Covers fl' x ↔ e.Has x ∨ Covers fl x) (hend : ∀ b ∈ fl', b.fin ≠ fe) :
    Tiling lo A live fl' fe where
  apart := (List.pairwise_cons.mp h.apart).2
  live_pos b hb := h.live_pos b (by simp [hb])
  live_al b hb := h.live_al b (by simp [hb])
  gapped := hg
  fl_al := hal
  cover x := by
    rw [h.cover, hc, covers_cons]
    tauto
  excl x h1 h2 := by
    rcases (hc x).mp h2 with h3 | h3
    · obtain ⟨b, hb, hbx⟩ := h1
      exact (List.pairwise_cons.mp h.apart).1 b hb x h3 hbx
    · exact h.excl x ((covers_cons _ _ _).mpr (Or.inr h1)) h3
  lo_le := h.lo_le
  fe_al := h.fe_al
  last := by
    refine h.last.imp id fun h1 => ?_
    rcases (covers_cons _ _ _).mp h1 with h2 | h2
    · obtain ⟨b, hb, hbx⟩ := (hc _).mpr (Or.inl h2)
      have h3 := hend b hb
      have h4 := h.live_bounds (e := e) (by simp)
      -- the hole that holds the last address ends there
      exfalso
      have h5 : lo ≤ b.foff + b.len - 1 ∧ b.foff + b.len - 1 < fe := by
        refine (h.cover _).mpr ?_
        have hcov : Covers fl' (b.foff + b.len - 1) := ⟨b, hb, by
          simp only [Span.Has] at hbx ⊢; omega⟩
        rcases (hc _).mp hcov with h6 | h6
        · exact Or.inl ((covers_cons _ _ _).mpr (Or.inl h6))
        · exact Or.inr h6
      simp only [Span.Has, Span.fin] at hbx h3 h2 h4
      omega
    · exact h2

/-- Giving a span back, when the last hole reaches the end: the end falls to its start. -/
theorem release_last {e b : Span} {fl' : List Span} (h : Tiling lo A (e :: live) fl fe)
    (hg : Gapped (fl' ++ [b])) (hal : ∀ c ∈ fl' ++ [b], A ∣ c.foff ∧ A ∣ c.len)
    (hc : ∀ x, Covers (fl' ++ [b]) x ↔ e.Has x ∨ Covers fl x) (hend : b.fin = fe) :
    Tiling lo A live fl' b.foff := by
  obtain ⟨hg1, hg2, hg3⟩ := gapped_append.mp hg
  have hbp := hg.pos b (by simp)
  have hlo : lo ≤ b.foff := by
    have : Covers (fl' ++ [b]) b.foff := ⟨b, by simp, le_rfl, by omega⟩
    rcases (hc _).mp this with h1 | h1
    · exact ((h.cover _).mpr (Or.inl ((covers_cons _ _ _).mpr (Or.inl h1)))).1
    · exact ((h.cover _).mpr (Or.inr h1)).1
  -- below the start of the last hole nothing changes hands but `e`
  have hfl' : ∀ x, Covers fl' x → x < b.foff := by
    rintro x ⟨c, hcm, hcx⟩
    have := hg3 c hcm b (by simp)
    simp only [Span.Has, Span.fin] at hcx this
    omega
  have hcov : ∀ x, (lo ≤ x ∧ x < b.foff) ↔ (Covers live x ∨ Covers fl' x) := by
    intro x
    have hx := h.cover x
    have hcx := hc x
    simp only [covers_cons, covers_append, covers_nil, or_false] at hx hcx
    have hbx : b.Has x ↔ b.foff ≤ x ∧ x < fe := by
      simp only [Span.Has, Span.fin] at hend ⊢
      omega
    constructor
    · intro h1
      have : lo ≤ x ∧ x < fe := by simp only [Span.fin] at hend; omega
      rcases hx.mp this with (h2 | h2) | h2
      · rcases hcx.mpr (Or.inl h2) with h3 | h3
        · exact Or.inr h3
        · exact absurd (hbx.mp h3).1 (by omega)
      · exact Or.inl h2
      · rcases hcx.mpr (Or.inr h2) with h3 | h3
        · exact Or.inr h3
        · exact absurd (hbx.mp h3).1 (by omega)
    · rintro (h1 | h1)
      · have h2 := hx.mpr (Or.inl (Or.inr h1))
        refine ⟨h2.1, ?_⟩
        by_contra h3
        rcases hcx.mp (Or.inr (hbx.mpr ⟨by omega, h2.2⟩)) with h4 | h4
        · obtain ⟨c, hcm, hcx'⟩ := h1
          exact (List.pairwise_cons.mp h.apart).1 c hcm x h4 hcx'
        · exact h.excl x ((covers_cons _ _ _).mpr (Or.inr h1)) h4
      · rcases hcx.mp (Or.inl h1) with h2 | h2
        · exact ⟨(hx.mpr (Or.inl (Or.inl h2))).1, hfl' x h1⟩
        · exact ⟨(hx.mpr (Or.inr h2)).1, hfl' x h1⟩
  refine ⟨(List.pairwise_cons.mp h.apart).2, fun c hcm => h.live_pos c (by simp [hcm]),
    fun c hcm => h.live_al c (by simp [hcm]), hg1, fun c hcm => hal c (by simp [hcm]), hcov, ?_, hlo,
    (hal b (by simp)).1, ?_⟩
  · intro x h1 h2
    rcases (hc x).mp ((covers_append _ _ _).mpr (Or.inl h2)) with h3 | h3
    · obtain ⟨c, hcm, hcx⟩ := h1
      exact (List.pairwise_cons.mp h.apart).1 c hcm x h3 hcx
    · exact h.excl x ((covers_cons _ _ _).mpr (Or.inr h1)) h3
  · rcases Nat.eq_or_lt_of_le hlo with h1 | h1
    · exact Or.inl h1.symm
    · right
      rcases (hcov (b.foff - 1)).mp ⟨by omega, by omega⟩ with h2 | ⟨c, hcm, hcx⟩
      · exact h2
      · have := hg3 c hcm b (by simp)
        simp only [Span.Has, Span.fin] at hcx this
        omega

end Tiling
