import Libspill.Alloc

set_option autoImplicit false

/-!
# The allocator keeps the tiling

The extents of all records and the holes of the free list tile the file from `LS_SUPER_SIZE` to
`file_end` (`Tiling`). Each primitive of the allocator is one of the moves of a tiling.

* `tiling_allocFor`: what `ensure_extents` takes becomes live.
* **`tiling_flInsert`**: what is freed goes back to the holes, and to the end of the file when the
  last hole runs to it.
-/

namespace Libspill

/-! ## Rounding -/

/-- `round_up(n)` does not wrap. -/
def RoundFits (n : ℕ) : Prop := n + (LS_ALIGN - 1) < 2 ^ 64

theorem roundUp_eq {n : ℕ} (h : RoundFits n) :
    roundUp n = (n + (LS_ALIGN - 1)) / LS_ALIGN * LS_ALIGN := by
  rw [roundUp, add64_eq h]

theorem le_roundUp {n : ℕ} (h : RoundFits n) : n ≤ roundUp n ∧ roundUp n < n + LS_ALIGN := by
  rw [roundUp_eq h]
  unfold LS_ALIGN
  omega

theorem dvd_roundUp (n : ℕ) : LS_ALIGN ∣ roundUp n := ⟨_, Nat.mul_comm _ _⟩

/-! ## Searching the free list -/

theorem foldl_range_inv {β : Type} (P : ℕ → β → Prop) (f : β → ℕ → β) (b : β) (h0 : P 0 b)
    (hs : ∀ i b, P i b → P (i + 1) (f b i)) (n : ℕ) : P n ((List.range n).foldl f b) := by
  induction n with
  | zero => exact h0
  | succ n ih =>
    rw [List.range_succ, List.foldl_append]
    exact hs n _ ih

theorem bestFit_spec (fl : List Hole) (need : ℕ) :
    match bestFit fl need with
    | none => ∀ j, j < fl.length → (holeAt fl j).len < need
    | some i => i < fl.length ∧ need ≤ (holeAt fl i).len := by
  refine foldl_range_inv (fun n best => match best with
    | none => ∀ j, j < n → (holeAt fl j).len < need
    | some i => i < n ∧ need ≤ (holeAt fl i).len) _ none (by simp) (fun i best h => ?_) fl.length
  cases best with
  | none =>
    simp only [Option.all_none, and_true]
    split_ifs with hi
    · exact ⟨Nat.lt_succ_self i, hi⟩
    · intro j hj
      by_cases hji : j = i
      · subst hji
        omega
      · exact h j (by omega)
  | some b =>
    dsimp only at h ⊢
    split_ifs with hi
    · exact ⟨Nat.lt_succ_self i, hi.1⟩
    · exact ⟨by omega, h.2⟩

theorem biggest_spec (fl : List Hole) :
    match biggest fl with
    | none => fl.length = 0
    | some i => i < fl.length ∧ ∀ j, j < fl.length → (holeAt fl j).len ≤ (holeAt fl i).len := by
  refine foldl_range_inv (fun n big => match big with
    | none => n = 0
    | some i => i < n ∧ ∀ j, j < n → (holeAt fl j).len ≤ (holeAt fl i).len) _ none rfl
      (fun i big h => ?_) fl.length
  cases big with
  | none =>
    simp only [Option.all_none, if_true]
    refine ⟨Nat.lt_succ_self i, fun j hj => ?_⟩
    obtain rfl : j = i := by omega
    exact Nat.le_refl _
  | some b =>
    dsimp only at h ⊢
    split_ifs with hi
    · refine ⟨Nat.lt_succ_self i, fun j hj => ?_⟩
      by_cases hji : j = i
      · rw [hji]
      · have := h.2 j (by omega)
        have : (holeAt fl i).len > (holeAt fl b).len := by simpa using hi
        omega
    · refine ⟨Nat.lt_succ_of_lt h.1, fun j hj => ?_⟩
      by_cases hji : j = i
      · have : ¬ (holeAt fl i).len > (holeAt fl b).len := by simpa using hi
        rw [hji]
        omega
      · exact h.2 j (by omega)

theorem fl_split {fl : List Hole} {i : ℕ} (hi : i < fl.length) :
    fl = fl.take i ++ holeAt fl i :: fl.drop (i + 1) := by
  rw [holeAt, List.getD_eq_getElem _ _ hi, List.cons_getElem_drop_succ, List.take_append_drop]

theorem holeAt_mem {fl : List Hole} {i : ℕ} (hi : i < fl.length) : holeAt fl i ∈ fl := by
  rw [holeAt, List.getD_eq_getElem _ _ hi]
  exact List.getElem_mem hi

/-! ## Allocation -/

/-- The file from the superblock to `file_end` is tiled by the live extents and the holes. -/
abbrev Tiled (live : List Extent) (a : Alloc) : Prop :=
  Tiling LS_SUPER_SIZE LS_ALIGN live a.fl a.fileEnd

variable {live : List Extent} {a : Alloc}

theorem tiled_lsAllocBest (h : Tiled live a) {need : ℕ} {r : Extent × Alloc}
    (hr : lsAllocBest a need = some r) :
    Tiled (r.1 :: live) r.2 ∧ r.2.fileEnd = a.fileEnd ∧ r.1.len = roundUp need ∧ 0 < r.1.len ∧
      r.1.fin ≤ a.fileEnd := by
  simp only [lsAllocBest] at hr
  split_ifs at hr with h0
  have hb := bestFit_spec a.fl (roundUp need)
  cases hi : bestFit a.fl (roundUp need) with
  | none => simp [hi] at hr
  | some i =>
    rw [hi] at hr hb
    dsimp only at hr hb
    obtain rfl := Option.some.inj hr
    obtain ⟨hi1, hi2⟩ := hb
    have hsplit := fl_split hi1
    have hmem := h.hole_bounds (holeAt_mem hi1)
    generalize holeAt a.fl i = e at hsplit hi2 hmem ⊢
    have hT : Tiling LS_SUPER_SIZE LS_ALIGN live (a.fl.take i ++ e :: a.fl.drop (i + 1)) a.fileEnd :=
      hsplit ▸ h
    refine ⟨?_, rfl, rfl, by dsimp only; omega, by simp only [Span.fin] at hmem ⊢; omega⟩
    dsimp only [Tiled]
    split_ifs with heq
    · rw [← heq, List.eraseIdx_eq_take_drop_succ]
      exact hT.take
    · rw [List.set_eq_take_append_cons_drop, if_pos hi1]
      exact hT.split (by omega) (by omega) (dvd_roundUp _)

theorem tiled_lsAllocLargest (h : Tiled live a) {least : ℕ} {r : Extent × Alloc}
    (hr : lsAllocLargest a least = some r) :
    Tiled (r.1 :: live) r.2 ∧ r.2.fileEnd = a.fileEnd ∧ 0 < r.1.len ∧ r.1.fin ≤ a.fileEnd := by
  simp only [lsAllocLargest] at hr
  have hb := biggest_spec a.fl
  cases hi : biggest a.fl with
  | none => simp [hi] at hr
  | some i =>
    rw [hi] at hr hb
    dsimp only at hr hb
    split_ifs at hr with hge
    obtain rfl := Option.some.inj hr
    obtain ⟨hb, -⟩ := hb
    have hsplit := fl_split hb
    have hmem := h.hole_bounds (holeAt_mem hb)
    have hpos := h.gapped.pos _ (holeAt_mem hb)
    refine ⟨?_, rfl, hpos, hmem.2⟩
    dsimp only [Tiled]
    rw [List.eraseIdx_eq_take_drop_succ]
    exact (hsplit ▸ h : Tiling LS_SUPER_SIZE LS_ALIGN live
      (a.fl.take i ++ holeAt a.fl i :: a.fl.drop (i + 1)) a.fileEnd).take

/-- Fresh space of `need` bytes past `file_end` does not wrap. -/
def TailFits (a : Alloc) (need : ℕ) : Prop := RoundFits need ∧ a.fileEnd + roundUp need < 2 ^ 64

theorem tiled_lsAllocTail (h : Tiled live a) {need : ℕ} (h0 : 0 < need) (hf : TailFits a need) :
    Tiled ((lsAllocTail a need).1 :: live) (lsAllocTail a need).2 ∧
      (lsAllocTail a need).2.fileEnd = a.fileEnd + roundUp need ∧ 0 < roundUp need := by
  have hpos : 0 < roundUp need := by
    have := (le_roundUp hf.1).1
    omega
  simp only [lsAllocTail, Tiled]
  rw [add64_eq hf.2]
  exact ⟨h.extend hpos (dvd_roundUp _), rfl, hpos⟩

/-- What the allocator hands out: an extent that becomes live, inside the old end of the file or
just past it. -/
structure Handed (live : List Extent) (a : Alloc) (e : Extent) (a' : Alloc) : Prop where
  tiled : Tiled (e :: live) a'
  pos : 0 < e.len
  le : a.fileEnd ≤ a'.fileEnd
  fin : a'.fileEnd < 2 ^ 64
  inside : a'.fileEnd = a.fileEnd ∨ e.foff = a.fileEnd ∧ a'.fileEnd = e.fin

theorem handed_tail (h : Tiled live a) {need : ℕ} (h0 : 0 < need) (hf : TailFits a need) :
    Handed live a (lsAllocTail a need).1 (lsAllocTail a need).2 := by
  obtain ⟨h1, h2, h3⟩ := tiled_lsAllocTail h h0 hf
  have := hf.2
  exact ⟨h1, h3, by omega, by omega, Or.inr ⟨rfl, h2⟩⟩

/-- The choice of `ensure_extents`: best fit, the largest hole, or the tail. -/
theorem allocFor_cases (a : Alloc) (next deficit : ℕ) :
    (∃ r, lsAllocBest a deficit = some r ∧ allocFor a next deficit = r) ∨
    (∃ r, (lsAllocBest a deficit = none ∧ next + 1 < LS_MAX_EXTENTS) ∧
      lsAllocLargest a (leastFor deficit) = some r ∧ allocFor a next deficit = r) ∨
    (lsAllocBest a deficit = none ∧
      (next + 1 ≥ LS_MAX_EXTENTS ∨ lsAllocLargest a (leastFor deficit) = none) ∧
      allocFor a next deficit = lsAllocTail a deficit) := by
  unfold allocFor
  cases lsAllocBest a deficit with
  | some r => exact Or.inl ⟨r, rfl, rfl⟩
  | none =>
    right
    dsimp only
    split_ifs with hmax
    · exact Or.inr ⟨rfl, Or.inl hmax, rfl⟩
    cases lsAllocLargest a (leastFor deficit) with
    | some r => exact Or.inl ⟨r, ⟨rfl, Nat.not_le.mp hmax⟩, rfl, rfl⟩
    | none => exact Or.inr ⟨rfl, Or.inr rfl, rfl⟩

/-- Where `ensure_extents` would go to the tail for `deficit` bytes, the tail does not wrap. -/
def AllocFits (a : Alloc) (next deficit : ℕ) : Prop :=
  lsAllocBest a deficit = none →
    (next + 1 ≥ LS_MAX_EXTENTS ∨ lsAllocLargest a (leastFor deficit) = none) → TailFits a deficit

/-- **What `ensure_extents` takes becomes live.** -/
theorem handed_allocFor (h : Tiled live a) (hfe : a.fileEnd < 2 ^ 64) {next deficit : ℕ}
    (h0 : 0 < deficit) (hf : AllocFits a next deficit) :
    Handed live a (allocFor a next deficit).1 (allocFor a next deficit).2 := by
  obtain ⟨r, hr, h'⟩ | ⟨r, -, hr, h'⟩ | ⟨hb, hl, h'⟩ := allocFor_cases a next deficit
  · obtain ⟨h1, h2, -, h4, -⟩ := tiled_lsAllocBest h hr
    rw [h']
    exact ⟨h1, h4, h2.ge, by omega, Or.inl h2⟩
  · obtain ⟨h1, h2, h3, -⟩ := tiled_lsAllocLargest h hr
    rw [h']
    exact ⟨h1, h3, h2.ge, by omega, Or.inl h2⟩
  · rw [h']
    exact handed_tail h h0 (hf hb hl)

/-- At every turn of `ensure_extents` that goes to the tail, the tail does not wrap. -/
def ExtentsFit : ℕ → Alloc → ℕ → ℕ → Prop
  | 0, _, _, _ => True
  | k + 1, a, next, deficit => 0 < deficit → AllocFits a next deficit ∧
      ExtentsFit k (allocFor a next deficit).2 (next + 1)
        (deficit - (allocFor a next deficit).1.len)

/-- Taking a hole does not move the end of the file, and going to the tail covers the deficit. -/
theorem allocFor_end (next : ℕ) (h : Tiled live a) {deficit : ℕ} (hr : RoundFits deficit) :
    (allocFor a next deficit).2.fileEnd = a.fileEnd ∨ deficit ≤ (allocFor a next deficit).1.len := by
  obtain ⟨r, hr, h'⟩ | ⟨r, -, hr, h'⟩ | ⟨hb, hl, h'⟩ := allocFor_cases a next deficit
  · rw [h']
    exact Or.inl (tiled_lsAllocBest h hr).2.1
  · rw [h']
    exact Or.inl (tiled_lsAllocLargest h hr).2.1
  · rw [h']
    exact Or.inr (le_roundUp hr).1

/-- **Up to `2 ^ 63` bytes fit past the end of a file**, whichever holes are taken first. -/
theorem extentsFit_of_le (h : Tiled live a) {deficit : ℕ} (hfe : a.fileEnd < 2 ^ 63)
    (hd : deficit ≤ 2 ^ 63) (k next : ℕ) : ExtentsFit k a next deficit := by
  induction k generalizing live a next deficit with
  | zero => trivial
  | succ k ih =>
    intro h0
    have hA : LS_ALIGN = 4096 := rfl
    have hr : RoundFits deficit := by
      unfold RoundFits
      omega
    have htail : a.fileEnd + roundUp deficit < 2 ^ 64 := by
      obtain ⟨m, hm⟩ := h.fe_al
      have := roundUp_eq hr
      rw [hA] at hm this
      omega
    have hf : AllocFits a next deficit := fun _ _ => ⟨hr, htail⟩
    have hh := handed_allocFor h (by omega) h0 hf
    refine ⟨hf, ?_⟩
    by_cases hcov : deficit ≤ (allocFor a next deficit).1.len
    · rw [Nat.sub_eq_zero_of_le hcov]
      cases k with
      | zero => trivial
      | succ k => exact fun h => absurd h (lt_irrefl 0)
    · have hend := (allocFor_end next h hr).resolve_right hcov
      exact ih hh.tiled (by rw [hend]; exact hfe) (by omega) (next + 1)

/-! ## Freeing -/

/-- A list of holes, and the hole after it that `e` has become. -/
structure Left (A : ℕ) (pre : List Hole) (e : Extent) (m : List Hole × Hole) : Prop where
  gapped : Gapped m.1
  before : ∀ b ∈ m.1, b.fin < m.2.foff
  foff : m.2.foff ≤ e.foff
  fin : m.2.fin = e.fin
  cover : ∀ x, Covers m.1 x ∨ m.2.Has x ↔ Covers pre x ∨ e.Has x
  sub : ∀ b ∈ m.1, b ∈ pre
  aligned : A ∣ m.2.foff ∧ A ∣ m.2.len

theorem left_mergeLeft {A : ℕ} {pre : List Hole} {e : Extent} (hg : Gapped pre)
    (hb : ∀ b ∈ pre, b.fin ≤ e.foff) (hal : ∀ b ∈ pre, A ∣ b.foff ∧ A ∣ b.len)
    (hel : A ∣ e.foff ∧ A ∣ e.len) (hfin : e.fin < 2 ^ 64) :
    Left A pre e (mergeLeft pre e.foff e.len) := by
  unfold mergeLeft
  cases hp : pre.getLast? with
  | none =>
    rw [List.getLast?_eq_none_iff] at hp
    subst hp
    exact ⟨hg, by simp, Nat.le_refl _, rfl, fun x => Iff.rfl, by simp, hel⟩
  | some h =>
    obtain ⟨q, rfl⟩ := List.getLast?_eq_some_iff.mp hp
    rw [gapped_append] at hg
    obtain ⟨hg1, hg2, hg3⟩ := hg
    have hh := hb h (by simp)
    have hhal := hal h (by simp)
    simp only [Span.fin] at hh hfin
    dsimp only
    rw [add64_eq (by omega)]
    split_ifs with heq
    · rw [List.dropLast_concat, add64_eq (by omega)]
      refine ⟨hg1, fun b hb => hg3 b hb h (by simp), by dsimp only; omega,
        by simp only [Span.fin]; omega, fun x => ?_, fun b hb => by simp [hb],
        hhal.1, Nat.dvd_add hhal.2 hel.2⟩
      simp only [covers_append, covers_cons, covers_nil, or_false, Span.Has, or_assoc]
      refine or_congr Iff.rfl ?_
      omega
    · refine ⟨gapped_append.mpr ⟨hg1, hg2, hg3⟩, fun b hb' => ?_, Nat.le_refl _, rfl,
        fun x => Iff.rfl, fun b hb => hb, hel⟩
      rcases List.mem_append.mp hb' with hq | hq
      · have := hg3 b hq h (by simp)
        dsimp only
        omega
      · obtain rfl := List.mem_singleton.mp hq
        simp only [Span.fin]
        omega

theorem gapped_mergeRight {cur : Hole} {post : List Hole} (hg : Gapped post) (hcur : 0 < cur.len)
    (hb : ∀ b ∈ post, cur.fin ≤ b.foff) (hbd : ∀ b ∈ post, b.fin < 2 ^ 64) (hfin : cur.fin < 2 ^ 64)
    (hal : ∀ b ∈ post, LS_ALIGN ∣ b.foff ∧ LS_ALIGN ∣ b.len)
    (hcl : LS_ALIGN ∣ cur.foff ∧ LS_ALIGN ∣ cur.len) :
    Gapped (mergeRight cur post) ∧ (∀ b ∈ mergeRight cur post, cur.foff ≤ b.foff) ∧
      (∀ b ∈ mergeRight cur post, LS_ALIGN ∣ b.foff ∧ LS_ALIGN ∣ b.len) ∧
      ∀ x, Covers (mergeRight cur post) x ↔ cur.Has x ∨ Covers post x := by
  cases post with
  | nil =>
    refine ⟨gapped_cons.mpr ⟨hcur, by simp, .nil⟩, by simp [mergeRight],
      by simpa [mergeRight] using hcl, by simp [mergeRight]⟩
  | cons h post =>
    rw [gapped_cons] at hg
    obtain ⟨hg1, hg2, hg3⟩ := hg
    have hh := hb h (by simp)
    have hhal := hal h (by simp)
    have hhb := hbd h (by simp)
    simp only [Span.fin] at hh hfin hhb hg2
    rw [mergeRight, add64_eq hfin]
    split_ifs with heq
    · rw [add64_eq (by omega)]
      refine ⟨gapped_cons.mpr ⟨by dsimp only; omega, fun b hb' => ?_, hg3⟩, fun b hb' => ?_,
        fun b hb' => ?_, fun x => ?_⟩
      · have := hg2 b hb'
        simp only [Span.fin]
        omega
      · rcases List.mem_cons.mp hb' with rfl | hb'
        · exact Nat.le_refl _
        · have := hg2 b hb'
          omega
      · rcases List.mem_cons.mp hb' with rfl | hb'
        · exact ⟨hcl.1, Nat.dvd_add hcl.2 hhal.2⟩
        · exact hal b (by simp [hb'])
      · simp only [covers_cons, Span.Has, ← or_assoc]
        refine or_congr ?_ Iff.rfl
        omega
    · refine ⟨gapped_cons.mpr ⟨hcur, fun b hb' => ?_, gapped_cons.mpr ⟨hg1, hg2, hg3⟩⟩,
        fun b hb' => ?_, fun b hb' => ?_, fun x => by simp⟩
      · simp only [Span.fin]
        rcases List.mem_cons.mp hb' with rfl | hb'
        · omega
        · have := hg2 b hb'
          omega
      · rcases List.mem_cons.mp hb' with rfl | hb'
        · exact Nat.le_refl _
        · have := hb b hb'
          simp only [Span.fin] at this
          omega
      · rcases List.mem_cons.mp hb' with rfl | hb'
        · exact hcl
        · exact hal b hb'

/-- A sorted list of holes is cut by an offset that no hole straddles. -/
theorem cut_fl {fl : List Hole} (hg : Gapped fl) {e : Extent} (he : 0 < e.len)
    (hap : ∀ b ∈ fl, e.fin ≤ b.foff ∨ b.fin ≤ e.foff) :
    (∀ b ∈ fl.takeWhile fun h => h.foff < e.foff, b.fin ≤ e.foff) ∧
      ∀ b ∈ fl.dropWhile fun h => h.foff < e.foff, e.fin ≤ b.foff := by
  constructor
  · intro b hb
    have h1 := List.mem_takeWhile_imp hb
    have h2 := hap b (List.takeWhile_subset _ hb)
    simp only [decide_eq_true_eq, Span.fin] at h1 h2 ⊢
    omega
  · intro b hb
    -- the first hole not before `e` is after it, and the others are after that hole
    have hmem : b ∈ fl := (List.dropWhile_suffix _).subset hb
    have hge : e.foff ≤ b.foff := by
      cases hd : fl.dropWhile fun h => h.foff < e.foff with
      | nil => simp [hd] at hb
      | cons h t =>
        have hh : ¬ h.foff < e.foff := by
          have := List.head?_dropWhile_not (fun h : Hole => decide (h.foff < e.foff)) fl
          rw [hd] at this
          simpa using this
        have hs : Gapped (h :: t) := by
          have := List.takeWhile_append_dropWhile (p := fun h : Hole => decide (h.foff < e.foff)) (l := fl)
          rw [hd] at this
          rw [← this, gapped_append] at hg
          exact hg.2.1
        rw [hd] at hb
        rcases List.mem_cons.mp hb with rfl | hb
        · omega
        · have := (gapped_cons.mp hs).2.1 b hb
          simp only [Span.fin] at this
          omega
    have h2 := hap b hmem
    have h3 := hg.pos b hmem
    simp only [Span.fin] at h2 ⊢
    omega

/-- The end of the file after `fl_insert`, and the length to cut it to. -/
structure Freed (live : List Extent) (a : Alloc) (r : Alloc × Option ℕ) : Prop where
  tiled : Tiled live r.1
  le : r.1.fileEnd ≤ a.fileEnd
  cut : r.2 = none ∧ r.1.fileEnd = a.fileEnd ∨ r.2 = some r.1.fileEnd

/-- **What is freed goes back to the holes**, and to the end of the file when the last hole runs to
it. -/
theorem freed_flInsert {e : Extent} (h : Tiled (e :: live) a) (hfe : a.fileEnd < 2 ^ 64) :
    Freed live a (flInsert a e.foff e.len) := by
  have he : 0 < e.len := h.live_pos e (by simp)
  have heb := h.live_bounds (e := e) (by simp)
  have hel := h.live_al e (by simp)
  have hcut := cut_fl h.gapped he fun b hb => h.live_apart_of_mem (by simp) hb
  have hsplit := List.takeWhile_append_dropWhile (p := fun h : Hole => decide (h.foff < e.foff))
    (l := a.fl)
  unfold flInsert
  rw [if_neg he.ne']
  dsimp only
  generalize a.fl.takeWhile (fun h => h.foff < e.foff) = pre at hcut hsplit ⊢
  generalize a.fl.dropWhile (fun h => h.foff < e.foff) = post at hcut hsplit ⊢
  have hg := h.gapped
  rw [← hsplit, gapped_append] at hg
  have hal : ∀ b, b ∈ pre ∨ b ∈ post → LS_ALIGN ∣ b.foff ∧ LS_ALIGN ∣ b.len := by
    intro b hb
    exact h.fl_al b (by rw [← hsplit]; exact List.mem_append.mpr hb)
  have hl := left_mergeLeft hg.1 hcut.1 (fun b hb => hal b (Or.inl hb)) hel (by omega)
  generalize mergeLeft pre e.foff e.len = m at hl ⊢
  obtain ⟨pre', cur⟩ := m
  have hcl : 0 < cur.len := by
    have h1 := hl.foff
    have h2 := hl.fin
    simp only [Span.fin] at h1 h2
    omega
  obtain ⟨hr1, hr2, hr3, hr4⟩ := gapped_mergeRight hg.2.1 hcl
    (fun b hb => by rw [hl.fin]; exact hcut.2 b hb)
    (fun b hb => by
      have := h.hole_bounds (e := b) (by rw [← hsplit]; simp [hb])
      omega)
    (by rw [hl.fin]; omega) (fun b hb => hal b (Or.inr hb)) hl.aligned
  dsimp only
  generalize mergeRight cur post = post' at hr1 hr2 hr3 hr4 ⊢
  have hgap : Gapped (pre' ++ post') := by
    refine gapped_append.mpr ⟨hl.gapped, hr1, fun x hx y hy => ?_⟩
    have h1 := hl.before x hx
    have h2 := hr2 y hy
    dsimp only at h1
    omega
  have halign : ∀ b ∈ pre' ++ post', LS_ALIGN ∣ b.foff ∧ LS_ALIGN ∣ b.len := by
    intro b hb
    rcases List.mem_append.mp hb with hb | hb
    · exact hal b (Or.inl (hl.sub b hb))
    · exact hr3 b hb
  have hcover : ∀ x, Covers (pre' ++ post') x ↔ e.Has x ∨ Covers a.fl x := by
    intro x
    have := hl.cover x
    rw [← hsplit, covers_append, hr4, covers_append]
    dsimp only at this
    tauto
  generalize pre' ++ post' = fl at hgap halign hcover ⊢
  have hbd : ∀ b ∈ fl, b.fin ≤ a.fileEnd := by
    intro b hb
    have hpos := hgap.pos b hb
    have hx := (hcover (b.fin - 1)).mp ⟨b, hb, by simp only [Span.fin, Span.Has]; omega⟩
    have := (h.cover (b.fin - 1)).mpr (by simpa only [covers_cons, or_assoc, or_left_comm] using hx.imp Or.inl id)
    omega
  unfold giveBack
  cases hlast : fl.getLast? with
  | none =>
    rw [List.getLast?_eq_none_iff] at hlast
    subst hlast
    exact ⟨h.release hgap halign hcover (by simp), Nat.le_refl _, Or.inl ⟨rfl, rfl⟩⟩
  | some b =>
    obtain ⟨q, rfl⟩ := List.getLast?_eq_some_iff.mp hlast
    have hbb := hbd b (by simp)
    simp only [Span.fin] at hbb
    dsimp only
    rw [add64_eq (by omega)]
    split_ifs with hend
    · rw [List.dropLast_concat]
      refine ⟨h.release_last hgap halign hcover hend, ?_, Or.inr rfl⟩
      dsimp only
      omega
    · refine ⟨h.release hgap halign hcover fun c hc => ?_, Nat.le_refl _, Or.inl ⟨rfl, rfl⟩⟩
      rcases List.mem_append.mp hc with hc | hc
      · have := (gapped_append.mp hgap).2.2 c hc b (by simp)
        simp only [Span.fin] at this ⊢
        omega
      · obtain rfl := List.mem_singleton.mp hc
        exact hend

end Libspill
