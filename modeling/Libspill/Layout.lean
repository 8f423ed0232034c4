import Libspill.Tiles
import Libspill.Transfer

set_option autoImplicit false

/-!
# The layout of a store

The invariant that every critical section keeps, whether its calls succeed or not.

* `RecOk`: one record, its extent array, its buffer and its capacity.
* `Laid spare s`: the table, the memory tier and the file. `spare` are extents that belong to nobody
  for the moment: taken and not yet pushed, or about to be freed.
* `Store.content`: the bytes of a record, wherever they are.
* `Slack`: every byte past the size of a record is zero.
* `Sound`: the invariant.
* `Kept P s s'`: what a change of capacity leaves alone. No record changes its size, or its bytes
  where the slack is zero, and the bytes of the records that `P` pins do not even move.
-/

namespace Libspill

variable {σ : Type}

namespace Store

/-- Where byte `i` of a record is. -/
def loc (s : Store σ) (r : Rec) (i : ℕ) : Option Loc := locOf r.mem (s.exts r) i

/-- The bytes of a record. -/
def content [HonestOs σ] (s : Store σ) (r : Rec) (i : ℕ) : UInt8 := (s.loc r i).elim 0 s.byteAt

end Store

/-- One record. -/
structure RecOk (s : Store σ) (r : Rec) : Prop where
  noExt : r.ext = none → r.next = 0 ∧ r.ncap = 0
  next_le : r.next ≤ r.ncap
  extTotal : r.extTotal = total (s.exts r)
  noMem : r.mem = none → r.memCap = 0 ∧ r.size ≤ r.extTotal
  hasMem : r.mem ≠ none → 0 < r.memCap ∧ r.size ≤ r.memCap
  ext_lt : ∀ p, r.ext = some p → p < s.arrNext
  mem_lt : ∀ p, r.mem = some p → p < s.memNext

/-- The table of contents and its records. -/
structure Records (s : Store σ) : Prop where
  wf : s.toc.WF
  ok : ∀ k r, s.find k = some r → RecOk s r
  ext_inj : ∀ k k' r r' p, s.find k = some r → s.find k' = some r' → r.ext = some p →
    r'.ext = some p → k = k'
  mem_inj : ∀ k k' r r' p, s.find k = some r → s.find k' = some r' → r.mem = some p →
    r'.mem = some p → k = k'

/-- The memory tier. -/
structure Tiered (s : Store σ) : Prop where
  lru_nodup : s.lru.Nodup
  lru_mem : ∀ k, k ∈ s.lru ↔ ∃ r, s.find k = some r ∧ r.mem ≠ none
  resident : s.resident = (s.recs.map Rec.memCap).sum
  resident_lt : s.resident < 2 ^ 63
  fresh : ∀ p i, s.memNext ≤ p → s.mem p i = 0
  noTier : s.o.memoryBudget = 0 → ∀ k r, s.find k = some r → r.mem = none

/-- The layout of a store with `spare` extents that belong to nobody. -/
structure Laid (spare : List Extent) (s : Store σ) : Prop where
  records : Records s
  tiered : Tiered s
  tiled : Tiled (spare ++ s.live) s.al
  teardown : s.teardown = false

/-- Every byte past the size of a record is zero, in its buffer and in its extents. -/
structure Slack [HonestOs σ] (s : Store σ) : Prop where
  ext : ∀ k r i x, s.find k = some r → r.size ≤ i → locate (s.exts r) i = some x →
    s.byteAt (.file x) = 0
  mem : ∀ k r i p, s.find k = some r → r.size ≤ i → r.mem = some p → s.mem p i = 0

/-- A store between two critical sections. -/
structure Sound [HonestOs σ] (s : Store σ) : Prop where
  laid : Laid [] s
  flen : s.al.fileEnd ≤ s.flen

/-! ## Finding records -/

section Find

variable {s : Store σ} {key : CStr} {r : Rec}

theorem key_of_find (h : s.toc.WF) (hk : s.find key = some r) : r.key = key :=
  Chained.key_of_find h hk

theorem find_iff_mem (h : s.toc.WF) : s.find key = some r ↔ r ∈ s.recs ∧ r.key = key :=
  Chained.find_eq_some_iff h

theorem find_of_mem (h : s.toc.WF) (hr : r ∈ s.recs) : s.find r.key = some r :=
  (find_iff_mem h).mpr ⟨hr, rfl⟩

theorem recAt_of_find (hk : s.find key = some r) : s.recAt key = r := by
  rw [Store.recAt, hk]
  rfl

theorem find_setRec (h : s.toc.WF) (hk : s.find key = some r) {f : Rec → Rec}
    (hf : (f r).key = r.key) (k : CStr) :
    (s.setRec key f).find k = if key = k then some (f r) else s.find k :=
  Chained.find_update h hk hf k

theorem wf_setRec (h : s.toc.WF) (hk : s.find key = some r) {f : Rec → Rec}
    (hf : (f r).key = r.key) : (s.setRec key f).toc.WF := (Chained.perm_update h hk hf).1

theorem perm_setRec (h : s.toc.WF) (hk : s.find key = some r) {f : Rec → Rec}
    (hf : (f r).key = r.key) :
    ∃ l, s.recs.Perm (r :: l) ∧ (s.setRec key f).recs.Perm (f r :: l) ∧
      ∀ r' ∈ l, r'.key ≠ key ∧ s.find r'.key = some r' := by
  obtain ⟨-, l, h1, h2⟩ := Chained.perm_update h hk hf
  refine ⟨l, h1, h2, fun r' hr' => ⟨?_, find_of_mem h (h1.mem_iff.mpr (by simp [hr']))⟩⟩
  have hnd := ((h1.map Rec.key).nodup_iff.mp h.nodup)
  rw [List.map_cons, List.nodup_cons] at hnd
  intro heq
  apply hnd.1
  rw [key_of_find h hk, ← heq]
  exact List.mem_map_of_mem hr'

theorem exts_congr {s s' : Store σ} {r : Rec}
    (h : ∀ p, r.ext = some p → ∀ i, i < r.next → s'.arr p i = s.arr p i) : s'.exts r = s.exts r := by
  unfold Store.exts
  cases hr : r.ext with
  | none => rfl
  | some p =>
    apply List.map_congr_left
    intro i hi
    exact h p hr i (List.mem_range.mp hi)

theorem length_exts (h : RecOk s r) : (s.exts r).length = r.next := by
  unfold Store.exts
  cases hr : r.ext with
  | none => simp [(h.noExt hr).1]
  | some p => simp

theorem getElem?_exts {p : Ptr} (hp : r.ext = some p) {i : ℕ} (hi : i < r.next) :
    (s.exts r)[i]? = some (s.arr p i) := by
  simp [Store.exts, hp, hi]

theorem live_perm {l : List Rec} (h : s.recs.Perm (r :: l)) :
    s.live.Perm (s.exts r ++ l.flatMap s.exts) := by
  rw [Store.live]
  exact (h.flatMap_right _).trans (by rw [List.flatMap_cons])

theorem exts_subset_live (h : s.toc.WF) (hk : s.find key = some r) : s.exts r ⊆ s.live := by
  intro e he
  exact List.mem_flatMap.mpr ⟨r, ((find_iff_mem h).mp hk).1, he⟩

end Find

/-! ## What a change of capacity leaves alone -/

/-- The first `n` entries of the array `p` will not change: the array is retired, or they are
entries of its record. -/
def Frozen (s : Store σ) (p : Ptr) (n : ℕ) : Prop :=
  p < s.arrNext ∧ ∀ k r, s.find k = some r → r.ext = some p → n ≤ r.next

variable [HonestOs σ]

open HonestOs (clean)

/-- One record before and after. -/
structure RecKept (pinned : Prop) (s s' : Store σ) (r r' : Rec) : Prop where
  size : r'.size = r.size
  attr : r'.attr = r.attr
  busy : r'.busy = r.busy
  exts : s.exts r <+: s'.exts r'
  content : Slack s → s'.content r' = s.content r
  locs : pinned → ∀ i l, s.loc r i = some l → s'.loc r' i = some l

/-- All records before and after; `P` says by key and number of transfers which are pinned. -/
structure Kept (P : CStr → ℕ → Prop) (s s' : Store σ) : Prop where
  opts : s'.o = s.o ∧ s'.direct = s.direct
  clean : clean s'.os → clean s.os
  slack : Slack s → Slack s'
  none : ∀ k, s.find k = none → s'.find k = none
  some : ∀ k r, s.find k = some r → ∃ r', s'.find k = some r' ∧ RecKept (P k r.busy) s s' r r'
  arr : ∀ p n, Frozen s p n → Frozen s' p n ∧ ∀ i, i < n → s'.arr p i = s.arr p i

section Kept

variable {P Q : CStr → ℕ → Prop} {s s' s'' : Store σ}

theorem RecKept.refl {p : Prop} {r : Rec} : RecKept p s s r r :=
  ⟨rfl, rfl, rfl, List.prefix_rfl, fun _ => rfl, fun _ _ _ h => h⟩

theorem Kept.refl : Kept P s s where
  opts := ⟨rfl, rfl⟩
  clean := id
  slack := id
  none _ h := h
  some _ r h := ⟨r, h, .refl⟩
  arr _ _ h := ⟨h, fun _ _ => rfl⟩

theorem RecKept.trans {p : Prop} {r r' r'' : Rec} (hs : Slack s → Slack s')
    (h : RecKept p s s' r r') (h' : RecKept p s' s'' r' r'') : RecKept p s s'' r r'' where
  size := h'.size.trans h.size
  attr := h'.attr.trans h.attr
  busy := h'.busy.trans h.busy
  exts := h.exts.trans h'.exts
  content hsl := (h'.content (hs hsl)).trans (h.content hsl)
  locs hp i l hl := h'.locs hp i l (h.locs hp i l hl)

theorem Kept.trans (h : Kept P s s') (h' : Kept P s' s'') : Kept P s s'' where
  opts := ⟨h'.opts.1.trans h.opts.1, h'.opts.2.trans h.opts.2⟩
  clean := h.clean ∘ h'.clean
  slack := h'.slack ∘ h.slack
  none k hk := h'.none k (h.none k hk)
  some k r hk := by
    obtain ⟨r', hk', hr'⟩ := h.some k r hk
    obtain ⟨r'', hk'', hr''⟩ := h'.some k r' hk'
    rw [hr'.busy] at hr''
    exact ⟨r'', hk'', hr'.trans h.slack hr''⟩
  arr p n hf := by
    obtain ⟨hf', he⟩ := h.arr p n hf
    obtain ⟨hf'', he'⟩ := h'.arr p n hf'
    exact ⟨hf'', fun i hi => (he' i hi).trans (he i hi)⟩

theorem Kept.mono (h : Kept P s s') (hpq : ∀ k r, s.find k = .some r → Q k r.busy → P k r.busy) :
    Kept Q s s' where
  opts := h.opts
  clean := h.clean
  slack := h.slack
  none := h.none
  some k r hk := by
    obtain ⟨r', hk', hr⟩ := h.some k r hk
    exact ⟨r', hk', hr.size, hr.attr, hr.busy, hr.exts, hr.content, fun hq => hr.locs (hpq _ _ hk hq)⟩
  arr := h.arr

/-- The bytes of a pinned record stay where they are. -/
theorem RecKept.byteAt {r r' : Rec} (h : RecKept True s s' r r') (hs : Slack s) {i : ℕ}
    {l : Loc} (hl : s.loc r i = .some l) : s'.byteAt l = s.byteAt l := by
  have hl' := h.locs trivial i l hl
  have := congrFun (h.content hs) i
  rwa [Store.content, Store.content, hl, hl'] at this

end Kept

end Libspill
