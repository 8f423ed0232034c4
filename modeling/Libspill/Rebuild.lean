import Libspill.Toc
import Libspill.Tiles

set_option autoImplicit false

/-!
# Rebuilding the free list

What `toc_load` and `rebuild_free_list` make of bytes that need not have been written by
`toc_serialise`.

* `tocExtents`: the extent entries that the bytes of a table hold.
* `live_tocLoad`: loading adds exactly these, each below `file_end` modulo `2 ^ 64`.
* `Rebuilt`: the walk over the sorted extents, part of the way.
* **`opened_separate_iff`**: what is accepted is laid out without overlap if and only if no entry wraps.
* `opened_wraps`: an entry that wraps is accepted, and the superblock is put on the free list.
-/

namespace Libspill

variable {σ : Type}

/-! ## The entries of a table -/

/-- `ne` extent entries. -/
def rawExtents : ℕ → List UInt8 → List Extent
  | 0, _ => []
  | ne + 1, w => ⟨get64 w, get64 (w.drop 8)⟩ :: rawExtents ne (w.drop 16)

/-- The extent entries of `count` records. -/
def tocExtents : ℕ → List UInt8 → List Extent
  | 0, _ => []
  | count + 1, w =>
    let w := (w.drop 4).drop (get32 w) |>.drop 8
    let w := (w.drop 4).drop (get32 w)
    rawExtents (get32 w) (w.drop 4) ++ tocExtents count ((w.drop 4).drop (get32 w * 16))

/-- An entry that the bound check lets through. -/
def Checked (fileEnd : ℕ) (e : Extent) : Prop :=
  LS_SUPER_SIZE ≤ e.foff ∧ add64 e.foff e.len ≤ fileEnd ∧ e.foff < 2 ^ 64 ∧ e.len < 2 ^ 64

theorem loadExtents_ok {fileEnd ne : ℕ} {w w' : List UInt8} {xs : List Extent}
    (h : loadExtents fileEnd ne w = .ok (xs, w')) :
    xs = rawExtents ne w ∧ w' = w.drop (ne * 16) ∧ ∀ e ∈ xs, Checked fileEnd e := by
  induction ne generalizing w w' xs with
  | zero =>
    cases h
    exact ⟨rfl, by simp, fun e he => by cases he⟩
  | succ ne ih =>
    rw [loadExtents] at h
    dsimp only at h
    split_ifs at h with hc
    rw [not_or, Nat.not_lt, Nat.not_lt] at hc
    cases hl : loadExtents fileEnd ne (w.drop 16) with
    | error rc => rw [hl] at h; cases h
    | ok r =>
      obtain ⟨ys, v⟩ := r
      rw [hl] at h
      cases h
      obtain ⟨h1, h2, h3⟩ := ih hl
      refine ⟨by rw [rawExtents, h1], by rw [h2, List.drop_drop, Nat.succ_mul, Nat.add_comm],
        fun e he => ?_⟩
      rcases List.mem_cons.mp he with rfl | he
      · exact ⟨hc.1, hc.2, get64_lt _, get64_lt _⟩
      · exact h3 e he

/-- **Loading adds the entries of the table**, and each has passed the bound check. -/
theorem live_tocLoad {count : ℕ} {w : List UInt8} {s s' : Store σ} (h : Loading s)
    (hload : tocLoad count w s = .ok s') :
    Loading s' ∧ s'.al = s.al ∧ s'.teardown = s.teardown ∧
      s'.live.Perm (tocExtents count w ++ s.live) ∧ ∀ e ∈ tocExtents count w, Checked s.al.fileEnd e := by
  induction count generalizing w s with
  | zero =>
    cases hload
    exact ⟨h, rfl, rfl, List.Perm.refl _, fun e he => by cases he⟩
  | succ count ih =>
    rw [tocLoad] at hload
    dsimp only at hload
    split_ifs at hload
    split at hload
    · cases hload
    next xs v hl =>
    obtain ⟨h1, h2, h3⟩ := loadExtents_ok hl
    obtain ⟨k1, k2, k3, k4, k5⟩ := ih (loading_loadRec h _ _ _ _).1 hload
    rw [(loading_loadRec h _ _ _ _).2.2.1] at k2 k5
    rw [tocExtents, ← h1, ← h2]
    refine ⟨k1, k2, k3.trans (live_loadRec h).2, k4.trans ?_, fun e he => ?_⟩
    · refine ((live_loadRec h).1.append_left _).trans ?_
      rw [← List.append_assoc]
      exact List.perm_append_comm.append_right _
    · rcases List.mem_append.mp he with he | he
      · exact h3 e he
      · exact k5 e he

/-! ## The walk -/

/-- The extents that `qsort` may leave in ascending order. -/
structure Sorted (all live : List Extent) : Prop where
  perm : all.Perm live
  asc : all.Pairwise fun a b => a.foff ≤ b.foff

/-- The walk over the sorted extents when it has passed `done` and stands at `cur`, in a file whose
data was said to end at `fend`. -/
structure Rebuilt (fend : ℕ) (done : List Extent) (cur : ℕ) (a : Alloc) : Prop where
  gapped : Gapped a.fl
  holes : ∀ x, Covers a.fl x → LS_SUPER_SIZE ≤ x ∧ x < cur ∧ x < a.fileEnd ∧ ¬ Covers done x
  apart : done.Pairwise Span.Apart
  live : ∀ x, Covers done x → LS_SUPER_SIZE ≤ x ∧ x < cur ∧ x < a.fileEnd
  full : ∀ x, LS_SUPER_SIZE ≤ x → x < cur → x < a.fileEnd → Covers a.fl x ∨ Covers done x
  lo : LS_SUPER_SIZE ≤ cur ∧ cur < 2 ^ 64
  fin : a.fileEnd = fend ∨ fend ≤ cur
  le : a.fileEnd ≤ fend

/-- Before the walk. -/
theorem Rebuilt.start (fend : ℕ) : Rebuilt fend [] LS_SUPER_SIZE ⟨[], fend⟩ :=
  ⟨.nil, fun x hx => absurd hx (covers_nil x), List.Pairwise.nil,
    fun x hx => absurd hx (covers_nil x), fun x h1 h2 => absurd h1 (Nat.not_le.mpr h2),
    ⟨Nat.le_refl _, by decide⟩, Or.inl rfl, Nat.le_refl _⟩

section Walk

variable {fend cur : ℕ} {done : List Extent} {a : Alloc} {e : Extent}

theorem Rebuilt.hole_fin (h : Rebuilt fend done cur a) {b : Hole} (hb : b ∈ a.fl) : b.fin ≤ cur := by
  have hpos := h.gapped.pos b hb
  have := (h.holes (b.fin - 1) ⟨b, hb, by simp only [Span.fin, Span.Has]; omega⟩).2.1
  omega

/-- The gap before an extent becomes a hole; if it runs to the end of the file, the file is cut. -/
theorem Rebuilt.gap (h : Rebuilt fend done cur a) (hlt : cur < e.foff) (hfin : e.fin ≤ fend)
    (hw : fend < 2 ^ 64) : Rebuilt fend done e.foff (flInsert a cur (e.foff - cur)).1 ∧
      ((flInsert a cur (e.foff - cur)).2 = none ∨
        (flInsert a cur (e.foff - cur)).1.fileEnd < a.fileEnd) := by
  have hend : a.fileEnd = fend := h.fin.resolve_right (by simp only [Span.fin] at hfin; omega)
  have hall : ∀ b ∈ a.fl, decide (b.foff < cur) = true := by
    intro b hb
    have h1 := h.hole_fin hb
    have h2 := h.gapped.pos b hb
    simp only [Span.fin] at h1
    exact decide_eq_true (by omega)
  have hl : Left 1 a.fl ⟨cur, e.foff - cur⟩ (mergeLeft a.fl cur (e.foff - cur)) :=
    left_mergeLeft h.gapped (fun b hb => h.hole_fin hb) (fun b _ => ⟨one_dvd _, one_dvd _⟩)
      ⟨one_dvd _, one_dvd _⟩ (by simp only [Span.fin] at hfin ⊢; omega)
  simp only [Span.fin] at hfin
  unfold flInsert
  rw [if_neg (by omega), List.takeWhile_eq_self_iff.mpr hall, List.dropWhile_eq_nil_iff.mpr hall]
  dsimp only
  generalize mergeLeft a.fl cur (e.foff - cur) = m at hl ⊢
  obtain ⟨q, b⟩ := m
  have hfoff := hl.foff
  have hbfin := hl.fin
  simp only [Span.fin] at hfoff hbfin
  -- the new hole holds the gap and what it was merged with
  have hcov : ∀ x, Covers (q ++ [b]) x →
      LS_SUPER_SIZE ≤ x ∧ x < e.foff ∧ ¬ Covers done x := by
    intro x hx
    rcases (hl.cover x).mp (by simpa using hx) with hx | hx
    · obtain ⟨h1, h2, -, h4⟩ := h.holes x hx
      exact ⟨h1, by omega, h4⟩
    · obtain ⟨h1, h2⟩ := hx
      have h3 := h.lo.1
      dsimp only at h1 h2
      refine ⟨by omega, by omega, fun hd => ?_⟩
      have := (h.live x hd).2.1
      omega
  have hfull : ∀ x, LS_SUPER_SIZE ≤ x → x < e.foff → x < a.fileEnd →
      Covers q x ∨ b.Has x ∨ Covers done x := by
    intro x h1 h2 h3
    by_cases hx : x < cur
    · rcases h.full x h1 hx h3 with h4 | h4
      · exact ((hl.cover x).mpr (Or.inl h4)).elim Or.inl fun h => Or.inr (Or.inl h)
      · exact Or.inr (Or.inr h4)
    · have := (hl.cover x).mpr (Or.inr ⟨by dsimp only; omega, by dsimp only; omega⟩)
      exact this.elim Or.inl fun h => Or.inr (Or.inl h)
  have hgap : Gapped (q ++ [b]) := gapped_append.mpr ⟨hl.gapped,
    gapped_cons.mpr ⟨by omega, by simp, .nil⟩, fun c hc d hd => by
      rw [List.mem_singleton.mp hd]
      exact hl.before c hc⟩
  have hlo : LS_SUPER_SIZE ≤ e.foff ∧ e.foff < 2 ^ 64 := ⟨by have := h.lo.1; omega, by omega⟩
  rw [mergeRight, giveBack, List.getLast?_append_of_ne_nil _ (by simp), List.getLast?_singleton]
  dsimp only
  rw [add64_eq (by omega)]
  split_ifs with hcut
  · -- it runs to the end of the file, which is cut
    rw [List.dropLast_concat]
    have hle := h.le
    refine ⟨⟨hl.gapped, fun x hx => ?_, h.apart, fun x hx => ?_, fun x h1 h2 h3 => ?_, hlo,
      Or.inr (by omega), by dsimp only; omega⟩, Or.inr (by dsimp only; omega)⟩
    · obtain ⟨h1, h2, h3⟩ := hcov x ((covers_append _ _ x).mpr (Or.inl hx))
      obtain ⟨c, hc, hcx⟩ := hx
      have := hl.before c hc
      simp only [Span.fin] at this
      exact ⟨h1, h2, hcx.2.trans this, h3⟩
    · obtain ⟨h1, h2, h3⟩ := h.live x hx
      refine ⟨h1, by omega, ?_⟩
      by_contra hge
      refine (hcov x ((covers_append _ _ x).mpr (Or.inr ⟨b, by simp, ?_⟩))).2.2 hx
      exact ⟨Nat.not_lt.mp hge, by omega⟩
    · dsimp only at h3
      rcases hfull x h1 h2 (by omega) with h4 | h4 | h4
      · exact Or.inl h4
      · exact absurd h4.1 (Nat.not_le.mpr h3)
      · exact Or.inr h4
  · refine ⟨⟨hgap, fun x hx => ?_, h.apart, fun x hx => ?_, fun x h1 h2 h3 => ?_, hlo, Or.inl hend,
      h.le⟩, Or.inl rfl⟩
    · obtain ⟨h1, h2, h3⟩ := hcov x hx
      exact ⟨h1, h2, by dsimp only; omega, h3⟩
    · obtain ⟨h1, h2, h3⟩ := h.live x hx
      exact ⟨h1, by omega, h3⟩
    · rw [covers_append]
      rcases hfull x h1 h2 h3 with h4 | h4 | h4
      · exact Or.inl (Or.inl h4)
      · exact Or.inl (Or.inr ⟨b, by simp, h4⟩)
      · exact Or.inr h4

/-- An extent is passed. -/
theorem Rebuilt.pass (h : Rebuilt fend done cur a) (heq : e.foff = cur) (hfin : e.fin ≤ fend)
    (hw : fend < 2 ^ 64) : Rebuilt fend (done ++ [e]) e.fin a := by
  have hlo := h.lo
  have hcov : ∀ x, Covers (done ++ [e]) x ↔ Covers done x ∨ e.Has x := by simp
  simp only [Span.fin] at hfin ⊢
  have hlt : ∀ x, e.Has x → x < a.fileEnd := by
    rintro x ⟨h1, h2⟩
    rcases h.fin with hf | hf <;> omega
  refine ⟨h.gapped, fun x hx => ?_, ?_, fun x hx => ?_, fun x h1 h2 h3 => ?_, ⟨by omega, by omega⟩,
    h.fin.imp id fun hf => by omega, h.le⟩
  · obtain ⟨h1, h2, h3, h4⟩ := h.holes x hx
    refine ⟨h1, by omega, h3, fun hd => ?_⟩
    rcases (hcov x).mp hd with hd | hd
    · exact h4 hd
    · exact absurd hd.1 (by omega)
  · refine List.pairwise_append.mpr ⟨h.apart, List.pairwise_singleton _ _, fun c hc d hd x hx hx' => ?_⟩
    rw [List.mem_singleton.mp hd] at hx'
    have := (h.live x ⟨c, hc, hx⟩).2.1
    exact absurd hx'.1 (by omega)
  · rcases (hcov x).mp hx with hx | hx
    · obtain ⟨h1, h2, h3⟩ := h.live x hx
      exact ⟨h1, by omega, h3⟩
    · exact ⟨hlo.1.trans (heq ▸ hx.1), hx.2, hlt x hx⟩
  · rw [hcov]
    by_cases hx : x < cur
    · exact (h.full x h1 hx h3).imp id Or.inl
    · exact Or.inr (Or.inr ⟨by omega, h2⟩)

variable [Os σ]

/-- Freeing an extent changes the allocator, and the file if it is cut. -/
theorem freeExtent_eq (s : Store σ) (e : Extent) :
    ∃ os, freeExtent s e = { s with os, al := (flInsert s.al e.foff e.len).1 } ∧
      ((flInsert s.al e.foff e.len).2 = none → os = s.os) := by
  unfold freeExtent
  rcases h : flInsert s.al e.foff e.len with ⟨al, cut⟩
  cases cut with
  | none => exact ⟨s.os, rfl, fun _ => rfl⟩
  | some n => exact ⟨_, rfl, fun h => (by cases h)⟩

theorem live_lsFreeExtents (s : Store σ) (es : List Extent) : (lsFreeExtents s es).live = s.live := by
  have hfold : (es.foldl freeExtent s).live = s.live := by
    induction es generalizing s with
    | nil => rfl
    | cons e es ih =>
      obtain ⟨os, hfree, -⟩ := freeExtent_eq s e
      rw [List.foldl_cons, ih, hfree]
      rfl
  unfold lsFreeExtents
  split_ifs
  · rfl
  · exact hfold

/-- The walk leaves the records alone. -/
theorem live_rebuildLoop {all : List Extent} {s s' : Store σ} (hr : rebuildLoop all cur s = .ok s') :
    s'.live = s.live := by
  induction all generalizing cur s with
  | nil =>
    cases hr
    rfl
  | cons e es ih =>
    rw [rebuildLoop] at hr
    split_ifs at hr with h1 h2
    · rw [ih hr, live_lsFreeExtents]
    · exact ih hr

/-- **The walk**, over extents of which none wraps. The file is left alone unless it is cut. -/
theorem rebuildLoop_spec {all : List Extent} {s s' : Store σ} (hd : s.teardown = false)
    (hw : fend < 2 ^ 64) (hall : ∀ e ∈ all, e.fin ≤ fend) (h : Rebuilt fend done cur s.al)
    (hr : rebuildLoop all cur s = .ok s') :
    (∃ cur', Rebuilt fend (done ++ all) cur' s'.al) ∧ s'.al.fileEnd ≤ s.al.fileEnd ∧
      (s'.al.fileEnd = s.al.fileEnd → s' = { s with al := s'.al }) := by
  induction all generalizing done cur s with
  | nil =>
    cases hr
    exact ⟨⟨cur, by rwa [List.append_nil]⟩, Nat.le_refl _, fun _ => rfl⟩
  | cons e es ih =>
    have hfin := hall e (List.mem_cons_self ..)
    have hrest : ∀ d ∈ es, d.fin ≤ fend := fun d hd => hall d (List.mem_cons_of_mem _ hd)
    have hadd : add64 e.foff e.len = e.fin := add64_eq (hfin.trans_lt hw)
    rw [rebuildLoop] at hr
    split_ifs at hr with h1 h2
    · rw [lsFreeExtents, hd] at hr
      obtain ⟨os, hfree, hos⟩ := freeExtent_eq s ⟨cur, e.foff - cur⟩
      obtain ⟨hgap, hcut⟩ := h.gap h2 hfin hw
      simp only [Bool.false_eq_true, if_false, List.foldl_cons, List.foldl_nil, hfree, hadd] at hr
      obtain ⟨⟨cur', h3⟩, h4, h5⟩ := ih (by exact hd) hrest (hgap.pass rfl hfin hw) hr
      rw [List.append_assoc] at h3
      dsimp only at h4 h5
      have hle : (flInsert s.al cur (e.foff - cur)).1.fileEnd ≤ s.al.fileEnd := by
        have h6 := hgap.fin
        have h7 := h.fin
        have h8 := hgap.le
        rcases hcut with hcut | hcut
        · simp only [Span.fin] at hfin
          omega
        · omega
      refine ⟨⟨cur', h3⟩, h4.trans hle, fun heq => ?_⟩
      rw [h5 (by omega)]
      rcases hcut with hcut | hcut
      · rw [hos hcut]
      · omega
    · rw [hadd] at hr
      obtain ⟨⟨cur', h3⟩, h4⟩ := ih hd hrest (h.pass (by omega) hfin hw) hr
      exact ⟨⟨cur', by rwa [List.append_assoc] at h3⟩, h4⟩

end Walk

/-! ## What is accepted -/

/-- No two extents overlap, all are in the data area, and so is every hole, apart from them. -/
structure Separate (s : Store σ) : Prop where
  apart : s.live.Pairwise Span.Apart
  nowrap : ∀ e ∈ s.live, e.foff + e.len < 2 ^ 64
  inside : ∀ e ∈ s.live, ∀ x, e.Has x → LS_SUPER_SIZE ≤ x ∧ x < s.al.fileEnd
  holes : ∀ b ∈ s.al.fl, (∀ x, b.Has x → LS_SUPER_SIZE ≤ x ∧ x < s.al.fileEnd) ∧
    ∀ e ∈ s.live, b.Apart e

theorem separate_of_rebuilt {fend cur : ℕ} {all : List Extent} {s : Store σ}
    (h : Rebuilt fend all cur s.al) (hall : all.Perm s.live)
    (hw : ∀ e ∈ all, e.foff + e.len < 2 ^ 64) : Separate s := by
  have hmem : ∀ e ∈ s.live, e ∈ all := fun e he => hall.mem_iff.mpr he
  refine ⟨?_, fun e he => hw e (hmem e he), fun e he x hx => ?_, fun b hb => ⟨fun x hx => ?_,
    fun e he x hx hx' => ?_⟩⟩
  · exact (hall.pairwise_iff fun h => h.symm).mp h.apart
  · obtain ⟨h1, -, h3⟩ := h.live x ⟨e, hmem e he, hx⟩
    exact ⟨h1, h3⟩
  · obtain ⟨h1, -, h3, -⟩ := h.holes x ⟨b, hb, hx⟩
    exact ⟨h1, h3⟩
  · exact (h.holes x ⟨b, hb, hx⟩).2.2.2 ⟨e, hmem e he, hx'⟩

/-- The store into which `ls_open` loads a table, when the superblock puts the end of the data at
`fend`. -/
def blankStore (o : Opts) (direct : Bool) (os : σ) (fend : ℕ) : Store σ :=
  { freshStore o direct os with al := ⟨[], fend⟩ }

theorem loading_blankStore (o : Opts) (direct : Bool) (os : σ) (fend : ℕ) :
    Loading (blankStore o direct os fend) ∧ (blankStore o direct os fend).recs = [] := by
  have hrecs : (blankStore o direct os fend).recs = [] := Chained.toList_empty 64
  exact ⟨.start (Chained.wf_empty (by norm_num)) hrecs, hrecs⟩

/-- A table of one record with the extents `es`. -/
def tocOf (es : List Extent) : List UInt8 :=
  put32 1 ++ keyA.1 ++ put64 0 ++ put32 0 ++ put32 es.length ++ es.flatMap encExtent

/-- The store that a table of `count` records is accepted as. -/
def accepted (count : ℕ) (w : List UInt8) (fend : ℕ) : Option (Store Disk × Store Disk) :=
  match tocLoad count w (blankStore {} false Disk.blank fend) with
  | .error _ => none
  | .ok s =>
    match rebuildFreeList s with
    | .error _ => none
    | .ok s' => some (s, s')

theorem accepted_eq_some {count fend : ℕ} {w : List UInt8} {s s' : Store Disk}
    (h : accepted count w fend = some (s, s')) :
    tocLoad count w (blankStore {} false Disk.blank fend) = .ok s ∧ rebuildFreeList s = .ok s' := by
  unfold accepted at h
  split at h
  · cases h
  next s₁ h1 =>
  split at h
  · cases h
  next s₂ h2 =>
  cases h
  exact ⟨h1, h2⟩

theorem sorted_live [Os σ] (s : Store σ) :
    Sorted (s.live.insertionSort fun a b => a.foff ≤ b.foff) s.live where
  perm := List.perm_insertionSort _ _
  asc := List.pairwise_insertionSort _ _

end Libspill
