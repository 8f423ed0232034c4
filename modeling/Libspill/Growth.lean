import Libspill.Critical
import Libspill.Pieces
import Libspill.Calls

set_option autoImplicit false

/-!
# Records grow at their ends

What every call does to the extents of the records of a store without a memory tier: it appends to them.
Nothing is assumed about the operating system, about the arguments, or about sums that wrap.

* `Arrays`: no two records share an extent array, and a record has the capacity for its size.
* `Grown`: records stay, extents are added at their ends, and sizes grow as far as asked for.
* `grown_adopt`, `grown_ensureExtents`, `grown_makeRoom`: the way to more capacity.
* **`grown_call`**, `grown_segv`: the calls.
* `exec_scatter`: the transfers.
-/

namespace Libspill

variable {σ : Type}

/-- The records of a store without a memory tier: none is resident, and none shares its extent array.
The capacity of a record is counted modulo `2 ^ 64`, and is enough unless the count has wrapped. -/
structure Arrays (s : Store σ) : Prop where
  wf : s.toc.WF
  noMem : ∀ k r, s.find k = some r → r.mem = none
  noExt : ∀ k r, s.find k = some r → r.ext = none → r.next = 0 ∧ r.ncap = 0
  next_le : ∀ k r, s.find k = some r → r.next ≤ r.ncap
  ext_lt : ∀ k r p, s.find k = some r → r.ext = some p → p < s.arrNext
  inj : ∀ k k' r r' p, s.find k = some r → s.find k' = some r' → r.ext = some p → r'.ext = some p →
    k = k'
  count : ∀ k r, s.find k = some r → r.extTotal = total (s.exts r) % 2 ^ 64
  size_le : ∀ k r, s.find k = some r → total (s.exts r) < 2 ^ 64 → r.size ≤ total (s.exts r)
  noTier : s.o.memoryBudget = 0

/-- Records stay, except for the one of `gone`, extents are added at their ends, and no record grows past
the end that `top` has for it. -/
structure Grown (gone : Option CStr) (top : CStr → ℕ) (s s' : Store σ) : Prop where
  opts : s'.o = s.o
  arrays : Arrays s'
  some : ∀ k r, some k ≠ gone → s.find k = some r →
    ∃ r', s'.find k = some r' ∧ s.exts r <+: s'.exts r' ∧ r'.size ≤ max r.size (top k)

/-- The record that a call may erase. -/
def Op.gone : Op → Option CStr
  | .erase key => some key
  | _ => none

/-- How long a call may make a record. -/
def Op.top (s : Store σ) : Op → CStr → ℕ
  | .write key off buf _, k => if key = k then add64 off buf.length else 0
  | .append key buf _, k => if key = k then add64 ((s.find key).elim 0 Rec.size) buf.length else 0
  | .reserve key n, k => if key = k then n else 0
  | _, _ => 0

section

variable {s s' s'' : Store σ} {key : CStr} {r : Rec} {gone : Option CStr} {top : CStr → ℕ}
  {α : Type}

theorem Grown.refl (h : Arrays s) : Grown gone top s s :=
  ⟨rfl, h, fun _ r _ hr => ⟨r, hr, List.prefix_rfl, Nat.le_max_left _ _⟩⟩

theorem Grown.trans (h : Grown gone top s s') (h' : Grown gone top s' s'') : Grown gone top s s'' where
  opts := h'.opts.trans h.opts
  arrays := h'.arrays
  some k r hk hr := by
    obtain ⟨r', hr', h1, h2⟩ := h.some k r hk hr
    obtain ⟨r'', hr'', h3, h4⟩ := h'.some k r' hk hr'
    exact ⟨r'', hr'', h1.trans h3, by omega⟩

theorem Grown.mono (h : Grown none top s s') : Grown gone top s s' :=
  ⟨h.opts, h.arrays, fun k r _ hr => h.some k r (by simp) hr⟩

/-- The table and the arrays are as they were. -/
structure SameTable (s s' : Store σ) : Prop where
  toc : s'.toc = s.toc
  arr : s'.arr = s.arr
  arrNext : s'.arrNext = s.arrNext
  opts : s'.o = s.o

theorem SameTable.refl : SameTable s s := ⟨rfl, rfl, rfl, rfl⟩

theorem SameTable.trans (h : SameTable s s') (h' : SameTable s' s'') : SameTable s s'' :=
  ⟨h'.toc.trans h.toc, h'.arr.trans h.arr, h'.arrNext.trans h.arrNext, h'.opts.trans h.opts⟩

theorem SameTable.find (h : SameTable s s') (k : CStr) : s'.find k = s.find k := by
  rw [Store.find, h.toc]
  rfl

theorem SameTable.exts (h : SameTable s s') (r : Rec) : s'.exts r = s.exts r :=
  exts_congr fun _ _ _ _ => by rw [h.arr]

theorem SameTable.grown (hs : SameTable s s') (h : Arrays s) : Grown gone top s s' := by
  have hfind := hs.find
  refine ⟨hs.opts, ⟨hs.toc ▸ h.wf, fun k r hr => h.noMem k r (hfind k ▸ hr),
    fun k r hr => h.noExt k r (hfind k ▸ hr), fun k r hr => h.next_le k r (hfind k ▸ hr),
    fun k r p hr hp => hs.arrNext ▸ h.ext_lt k r p (hfind k ▸ hr) hp,
    fun k k' r r' p hr hr' => h.inj k k' r r' p (hfind k ▸ hr) (hfind k' ▸ hr'), fun k r hr => ?_,
    fun k r hr hlt => ?_, hs.opts ▸ h.noTier⟩, fun k r _ hr => ?_⟩
  · rw [hs.exts]
    exact h.count k r (hfind k ▸ hr)
  · rw [hs.exts] at hlt ⊢
    exact h.size_le k r (hfind k ▸ hr) hlt
  · exact ⟨r, (hfind k).trans hr, by rw [hs.exts], Nat.le_max_left _ _⟩

/-- A change of the record of `key` that leaves its extents alone. -/
theorem grown_update (h : Arrays s) (f : Rec → Rec)
    (hf : ∀ r, (f r).key = r.key ∧ (f r).mem = r.mem ∧ (f r).ext = r.ext ∧ (f r).next = r.next ∧
      (f r).ncap = r.ncap ∧ (f r).extTotal = r.extTotal)
    (hsize : ∀ r, s.find key = some r → (f r).size ≤ max r.size (top key) ∧
      (total (s.exts r) < 2 ^ 64 → (f r).size ≤ total (s.exts r))) :
    Grown gone top s (s.setRec key f) := by
  cases hk : s.find key with
  | none => rw [Store.setRec, Chained.update_of_none hk]; exact .refl h
  | some r =>
    have hfind := find_setRec h.wf hk (hf r).1
    have hexts : ∀ q : Rec, (s.setRec key f).exts (f q) = s.exts q := fun q => by
      rw [Store.exts, Store.exts, (hf q).2.2.1, (hf q).2.2.2.1]
      rfl
    have hold : ∀ k q, (s.setRec key f).find k = some q → ∃ q₀, s.find k = some q₀ ∧ q.mem = q₀.mem ∧
        q.ext = q₀.ext ∧ q.next = q₀.next ∧ q.ncap = q₀.ncap ∧ q.extTotal = q₀.extTotal ∧
        (s.setRec key f).exts q = s.exts q₀ ∧ (total (s.exts q₀) < 2 ^ 64 → q.size ≤ total (s.exts q₀)) := by
      intro k q hq
      rw [hfind] at hq
      split_ifs at hq with hkk
      · cases hq
        obtain ⟨-, h1, h2, h3, h4, h5⟩ := hf r
        exact ⟨r, hkk ▸ hk, h1, h2, h3, h4, h5, hexts r, (hsize r hk).2⟩
      · exact ⟨q, hq, rfl, rfl, rfl, rfl, rfl, rfl, h.size_le k q hq⟩
    refine ⟨rfl, ⟨wf_setRec h.wf hk (hf r).1, fun k q hq => ?_, fun k q hq hn => ?_, fun k q hq => ?_,
      fun k q p hq hp => ?_, fun k k' q q' p hq hq' hp hp' => ?_, fun k q hq => ?_, fun k q hq hlt => ?_,
      h.noTier⟩, fun k q _ hq => ?_⟩
    · obtain ⟨q₀, h1, h2, -⟩ := hold k q hq
      exact h2.trans (h.noMem k q₀ h1)
    · obtain ⟨q₀, h1, -, h2, h3, h4, -⟩ := hold k q hq
      rw [h3, h4]
      exact h.noExt k q₀ h1 (h2 ▸ hn)
    · obtain ⟨q₀, h1, -, -, h3, h4, -⟩ := hold k q hq
      rw [h3, h4]
      exact h.next_le k q₀ h1
    · obtain ⟨q₀, h1, -, h2, -⟩ := hold k q hq
      exact h.ext_lt k q₀ p h1 (h2 ▸ hp)
    · obtain ⟨q₀, h1, -, h2, -⟩ := hold k q hq
      obtain ⟨q₀', g1, -, g2, -⟩ := hold k' q' hq'
      exact h.inj k k' q₀ q₀' p h1 g1 (h2 ▸ hp) (g2 ▸ hp')
    · obtain ⟨q₀, h1, -, -, -, -, h5, h6, -⟩ := hold k q hq
      rw [h5, h6]
      exact h.count k q₀ h1
    · obtain ⟨q₀, -, -, -, -, -, -, h6, h7⟩ := hold k q hq
      rw [h6] at hlt ⊢
      exact h7 hlt
    · rw [hfind]
      split_ifs with hkk
      · subst hkk
        rw [hk] at hq
        cases hq
        exact ⟨f r, rfl, by rw [hexts], (hsize r hk).1⟩
      · exact ⟨q, hq, List.prefix_rfl, Nat.le_max_left _ _⟩

/-- A change that also leaves the size alone. -/
theorem grown_setRec (h : Arrays s) (f : Rec → Rec)
    (hf : ∀ r, (f r).key = r.key ∧ (f r).mem = r.mem ∧ (f r).ext = r.ext ∧ (f r).next = r.next ∧
      (f r).ncap = r.ncap ∧ (f r).extTotal = r.extTotal) (hsize : ∀ r, (f r).size = r.size) :
    Grown gone top s (s.setRec key f) :=
  grown_update h f hf fun r hr => by
    rw [hsize]
    exact ⟨Nat.le_max_left _ _, h.size_le key r hr⟩

/-- A new record. -/
theorem grown_insert (h : Arrays s) (hn : s.find key = none) : Grown gone top s (lsTocInsert s key) := by
  have hfind : ∀ k, (lsTocInsert s key).find k = if key = k then some { key } else s.find k :=
    find_insert h.wf hn
  have hold : ∀ k q, (lsTocInsert s key).find k = some q → s.find k = some q ∨ q = { key } := by
    intro k q hq
    rw [hfind] at hq
    split_ifs at hq
    · exact Or.inr (Option.some.inj hq).symm
    · exact Or.inl hq
  refine ⟨rfl, ⟨(Chained.perm_insert (v := ({ key } : Rec)) h.wf hn).1, fun k q hq => ?_, fun k q hq hno => ?_, fun k q hq => ?_,
    fun k q p hq hp => ?_, fun k k' q q' p hq hq' hp hp' => ?_, fun k q hq => ?_, fun k q hq hlt => ?_,
    h.noTier⟩, fun k q _ hq => ⟨q, ?_, List.prefix_rfl, Nat.le_max_left _ _⟩⟩
  · rcases hold k q hq with h1 | rfl
    · exact h.noMem k q h1
    · rfl
  · rcases hold k q hq with h1 | rfl
    · exact h.noExt k q h1 hno
    · exact ⟨rfl, rfl⟩
  · rcases hold k q hq with h1 | rfl
    · exact h.next_le k q h1
    · exact Nat.le_refl _
  · rcases hold k q hq with h1 | rfl
    · exact h.ext_lt k q p h1 hp
    · cases hp
  · rcases hold k q hq with h1 | rfl
    · rcases hold k' q' hq' with h2 | rfl
      · exact h.inj k k' q q' p h1 h2 hp hp'
      · cases hp'
    · cases hp
  · rcases hold k q hq with h1 | rfl
    · exact h.count k q h1
    · rfl
  · rcases hold k q hq with h1 | rfl
    · exact h.size_le k q h1 hlt
    · exact Nat.zero_le _
  · rw [hfind, if_neg]
    · exact hq
    · rintro rfl
      rw [hn] at hq
      cases hq

theorem grown_findOrInsert (gone : Option CStr) (top : CStr → ℕ) (h : Arrays s) (key : CStr) : Grown gone top s (lsTocFindOrInsert s key) ∧
    ∃ r, (lsTocFindOrInsert s key).find key = some r := by
  rw [lsTocFindOrInsert]
  cases hk : s.find key with
  | some r => exact ⟨.refl h, r, hk⟩
  | none => exact ⟨grown_insert h hk, _, (find_insert h.wf hk key).trans (if_pos rfl)⟩

/-- A record that is not there counts as empty. -/
theorem size_findOrInsert (h : Arrays s) (key : CStr) :
    ((lsTocFindOrInsert s key).recAt key).size = (s.find key).elim 0 Rec.size := by
  rw [lsTocFindOrInsert]
  cases hk : s.find key with
  | some r => exact congrArg Rec.size (recAt_of_find hk)
  | none => exact congrArg Rec.size (recAt_of_find ((find_insert h.wf hk key).trans (if_pos rfl)))

/-- **An extent is appended**, and the arrays of the other records stay. -/
theorem grown_adopt (h : Arrays s) (hk : s.find key = some r) (e : Extent) :
    Grown gone top s (adopt s key e) := by
  obtain ⟨arr, arrNext, retired, p, c, f, hpush, hf, hp⟩ := extPush_arrays (e := e) (h.noExt key r hk)
    (h.next_le key r hk) (fun p hp => h.ext_lt key r p hk hp) hk
  have hkey : (f r).key = r.key := by rw [hf]
  let s₁ : Store σ := { s with arr, arrNext, retired }
  have hk₁ : s₁.find key = some r := hk
  have hwf₂ := wf_setRec (s := s₁) h.wf hk₁ hkey
  have hfind₂ := find_setRec (s := s₁) h.wf hk₁ hkey
  have hk₂ : (s₁.setRec key f).find key = some (f r) := by rw [hfind₂, if_pos rfl]
  let g : Rec → Rec := fun r => { r with extTotal := add64 r.extTotal e.len }
  have hadopt : adopt s key e = (s₁.setRec key f).setRec key g := by rw [adopt, hpush]
  have hr' : g (f r) = { pushedRec r p c with extTotal := add64 r.extTotal e.len } := by
    simp only [g, hf]
  have hfind : ∀ k, (adopt s key e).find k = if key = k then some (g (f r)) else s.find k := fun k => by
    rw [hadopt, find_setRec hwf₂ hk₂ (f := g) rfl, hfind₂]
    split_ifs <;> rfl
  have harr : (adopt s key e).arr = arr := by rw [hadopt]; rfl
  have hnext : (adopt s key e).arrNext = arrNext := by rw [hadopt]; rfl
  have hold : ∀ k q, (adopt s key e).find k = some q → key = k ∧ q = g (f r) ∨ key ≠ k ∧ s.find k = some q := by
    intro k q hq
    rw [hfind] at hq
    split_ifs at hq with hkk
    · exact Or.inl ⟨hkk, (Option.some.inj hq).symm⟩
    · exact Or.inr ⟨hkk, hq⟩
  -- an array of another record is not the one that was pushed to
  have hother : ∀ k q a, key ≠ k → s.find k = some q → q.ext = some a → a ≠ p := by
    rintro k q a hkk hq ha rfl
    rcases hp.own with h1 | h1
    · exact hkk (h.inj _ _ _ _ a hk hq h1 ha)
    · exact absurd (h.ext_lt k q a hq ha) (Nat.not_lt.mpr h1)
  have hnew : (adopt s key e).exts (g (f r)) = s.exts r ++ [e] := by
    have h1 : (adopt s key e).exts (g (f r)) = (List.range (r.next + 1)).map (arr p) := by
      rw [hr', ← harr]
      rfl
    rw [h1, List.range_succ, List.map_append, List.map_singleton, hp.last]
    congr 1
    unfold Store.exts
    cases hx : r.ext with
    | none => rw [(h.noExt key r hk hx).1, List.range_zero, List.map_nil]
    | some a => exact List.map_congr_left fun i hi => hp.old a hx i (List.mem_range.mp hi)
  have hsame : ∀ k q, key ≠ k → s.find k = some q → (adopt s key e).exts q = s.exts q :=
    fun k q hkk hq => exts_congr fun a ha i _ => by
      rw [harr]
      exact hp.others a i (h.ext_lt k q a hq ha) fun hra => absurd (h.inj _ _ _ _ a hk hq hra ha) hkk
  have htot : total (s.exts r ++ [e]) = total (s.exts r) + e.len := by simp
  refine ⟨by rw [hadopt]; rfl, ⟨by rw [hadopt]; exact wf_setRec hwf₂ hk₂ rfl, fun k q hq => ?_,
    fun k q hq hn => ?_, fun k q hq => ?_, fun k q a hq ha => ?_, fun k k' q q' a hq hq' ha ha' => ?_,
    fun k q hq => ?_, fun k q hq hlt => ?_, by rw [hadopt]; exact h.noTier⟩, fun k q _ hq => ?_⟩
  · rcases hold k q hq with ⟨-, rfl⟩ | ⟨-, h1⟩
    · rw [hr']
      exact h.noMem key r hk
    · exact h.noMem k q h1
  · rcases hold k q hq with ⟨-, rfl⟩ | ⟨-, h1⟩
    · rw [hr'] at hn
      cases hn
    · exact h.noExt k q h1 hn
  · rcases hold k q hq with ⟨-, rfl⟩ | ⟨-, h1⟩
    · rw [hr']
      exact hp.cap
    · exact h.next_le k q h1
  · rw [hnext]
    rcases hold k q hq with ⟨-, rfl⟩ | ⟨-, h1⟩
    · rw [hr'] at ha
      cases ha
      exact hp.lt
    · exact (h.ext_lt k q a h1 ha).trans_le hp.next_le
  · rcases hold k q hq with ⟨h1, rfl⟩ | ⟨h1, h2⟩
    · rcases hold k' q' hq' with ⟨h3, -⟩ | ⟨h3, h4⟩
      · exact h1.symm.trans h3
      · rw [hr'] at ha
        cases ha
        exact absurd rfl (hother k' q' _ h3 h4 ha')
    · rcases hold k' q' hq' with ⟨h3, rfl⟩ | ⟨h3, h4⟩
      · rw [hr'] at ha'
        cases ha'
        exact absurd rfl (hother k q _ h1 h2 ha)
      · exact h.inj k k' q q' a h2 h4 ha ha'
  · rcases hold k q hq with ⟨-, rfl⟩ | ⟨h1, h2⟩
    · rw [hnew, htot, hr']
      show add64 r.extTotal e.len = _
      rw [h.count key r hk, add64, Nat.mod_add_mod]
    · rw [hsame k q h1 h2]
      exact h.count k q h2
  · rcases hold k q hq with ⟨-, rfl⟩ | ⟨h1, h2⟩
    · rw [hnew, htot] at hlt ⊢
      have := h.size_le key r hk (by omega)
      rw [hr']
      exact this.trans (Nat.le_add_right _ _)
    · rw [hsame k q h1 h2] at hlt ⊢
      exact h.size_le k q h2 hlt
  · rw [hfind]
    split_ifs with hkk
    · subst hkk
      rw [hk] at hq
      cases hq
      exact ⟨g (f r), rfl, ⟨[e], hnew.symm⟩, by rw [hr']; exact Nat.le_max_left _ _⟩
    · exact ⟨q, hq, by rw [hsame k q hkk hq], Nat.le_max_left _ _⟩

end

/-! ## The way to more capacity -/

section

variable [Os σ] {E : Env} {s s' : Store σ} {key : CStr} {r : Rec} {gone : Option CStr} {top : CStr → ℕ}
  {α : Type}
  {rc : Rc}

/-- A transfer changes the file and the buffers only. -/
theorem exec_sameTable {p : Io α} {a : α} (h : s.exec p = some (a, s')) : SameTable s s' := by
  induction p generalizing s with
  | ret b =>
    cases h
    exact .refl
  | hang => cases h
  | call q k ih =>
    have hstep : SameTable s (perform q s).2 := by
      cases q <;> exact ⟨rfl, rfl, rfl, rfl⟩
    exact hstep.trans (ih _ h)

theorem writeZeros_sameTable {fuel off len : ℕ} (h : writeZeros E fuel off len s = some (rc, s')) :
    SameTable s s' := by
  induction fuel generalizing s off len with
  | zero => cases h
  | succ fuel ih =>
    rw [writeZeros] at h
    by_cases h0 : len = 0
    · rw [if_pos h0] at h
      cases h
      exact .refl
    rw [if_neg h0] at h
    dsimp only at h
    generalize (if len < 2 ^ 20 then len else 2 ^ 20) = k at h
    cases hx : s.exec (lsPwriteAll E s.direct 0 (List.replicate k 0) off) with
    | none =>
      rw [hx] at h
      cases h
    | some x =>
      obtain ⟨⟨rc₁, b⟩, s₁⟩ := x
      rw [hx] at h
      dsimp only at h
      have h1 := exec_sameTable hx
      by_cases hrc : rc₁ = .ok
      · rw [if_pos hrc] at h
        exact h1.trans (ih h)
      · rw [if_neg hrc] at h
        cases h
        exact h1

theorem askZero_sameTable (s : Store σ) (off inside : ℕ) : SameTable s (askZero s off inside).2 := by
  rw [askZero]
  split_ifs
  · exact .refl
  · exact ⟨rfl, rfl, rfl, rfl⟩

theorem zeroRange_sameTable {off len : ℕ} (h : zeroRange E s off len = some (rc, s')) :
    SameTable s s' := by
  rw [zeroRange] at h
  by_cases h0 : len = 0
  · rw [if_pos h0] at h
    cases h
    exact .refl
  rw [if_neg h0] at h
  by_cases hd : s.direct = true
  · rw [if_pos hd] at h
    exact writeZeros_sameTable h
  rw [if_neg hd] at h
  generalize Os.fileSize s.os = z at h
  obtain ⟨fin, os⟩ := z
  cases fin with
  | error e =>
    cases h
    exact ⟨rfl, rfl, rfl, rfl⟩
  | ok fin =>
    dsimp only at h
    have h1 : SameTable s { s with os } := ⟨rfl, rfl, rfl, rfl⟩
    have h2 := askZero_sameTable { s with os } off (insideOf fin off len)
    generalize askZero { s with os } off (insideOf fin off len) = z at h h2
    obtain ⟨b, s₁⟩ := z
    cases b with
    | false => exact (h1.trans h2).trans (writeZeros_sameTable h)
    | true =>
      dsimp only at h h2
      by_cases hin : add64 off len ≤ fin
      · rw [if_pos hin] at h
        cases h
        exact h1.trans h2
      rw [if_neg hin] at h
      cases hx : s₁.exec (lsPwriteAll E s₁.direct 0 [0] (sub64 (add64 off len) 1)) with
      | none =>
        rw [hx] at h
        cases h
      | some x =>
        obtain ⟨⟨rc₁, b⟩, s₂⟩ := x
        rw [hx] at h
        cases h
        exact (h1.trans h2).trans (exec_sameTable hx)

theorem lsFreeExtents_sameTable (s : Store σ) (es : List Extent) : SameTable s (lsFreeExtents s es) := by
  have hone : ∀ (s : Store σ) e, SameTable s (freeExtent s e) := fun s e => by
    rw [freeExtent]
    generalize flInsert s.al e.foff e.len = a
    obtain ⟨al, n⟩ := a
    cases n <;> exact ⟨rfl, rfl, rfl, rfl⟩
  have hall : ∀ (es : List Extent) (s : Store σ), SameTable s (es.foldl freeExtent s) := fun es => by
    induction es with
    | nil => exact fun _ => .refl
    | cons e es ih => exact fun s => (hone s e).trans (ih _)
  rw [lsFreeExtents]
  split_ifs
  · exact .refl
  · exact hall es s

theorem lsRecFree_sameTable (s : Store σ) (r : Rec) : SameTable s (lsRecFree s r) := by
  have h1 : ∀ s : Store σ, SameTable s (if r.ext.isSome then lsFreeExtents s (s.exts r) else s) := by
    intro s
    split_ifs
    · exact lsFreeExtents_sameTable s _
    · exact .refl
  rw [lsRecFree]
  refine SameTable.trans ?_ (h1 _)
  split_ifs <;> exact ⟨rfl, rfl, rfl, rfl⟩

/-- `ensure_extents` appends until there is capacity: by induction on its turns. -/
theorem grown_ensureExtents {fuel need : ℕ} (h : Arrays s) (hk : s.find key = some r)
    (hrun : ensureExtents E fuel s key need = some (rc, s')) :
    Grown gone top s s' ∧ (rc = .ok → need ≤ (s'.recAt key).extTotal) := by
  induction fuel generalizing s r with
  | zero => cases hrun
  | succ fuel ih =>
    rw [ensureExtents] at hrun
    dsimp only at hrun
    by_cases hlt : (s.recAt key).extTotal < need
    swap
    · rw [if_neg hlt] at hrun
      cases hrun
      exact ⟨.refl h, fun _ => Nat.not_lt.mp hlt⟩
    rw [if_pos hlt] at hrun
    generalize allocFor s.al (s.recAt key).next (sub64 need (s.recAt key).extTotal) = a at hrun
    obtain ⟨e, al⟩ := a
    dsimp only at hrun
    have h1 : SameTable s { s with al } := ⟨rfl, rfl, rfl, rfl⟩
    cases hz : zeroRange E { s with al } e.foff e.len with
    | none =>
      rw [hz] at hrun
      cases hrun
    | some z =>
      obtain ⟨rc₁, s₁⟩ := z
      rw [hz] at hrun
      dsimp only at hrun
      have h2 := h1.trans (zeroRange_sameTable hz)
      by_cases hrc : rc₁ ≠ .ok
      · rw [if_pos hrc] at hrun
        cases hrun
        exact ⟨(h2.trans (lsFreeExtents_sameTable s₁ [e])).grown h, fun hc => absurd hc hrc⟩
      rw [if_neg hrc] at hrun
      have hg : Grown gone top s s₁ := h2.grown h
      have hk₁ : s₁.find key = some r := (h2.find key).trans hk
      have ha : Grown none top s₁ (adopt s₁ key e) := grown_adopt hg.arrays hk₁ e
      obtain ⟨r₂, hk₂, -⟩ := ha.some key r (by simp) hk₁
      obtain ⟨h3, h4⟩ := ih ha.arrays hk₂ hrun
      exact ⟨(hg.trans ha.mono).trans h3, h4⟩

/-- Room for a write. -/
theorem grown_makeRoom {fin : ℕ} (h : Arrays s) (htop : fin ≤ top key)
    (hrun : makeRoom E s key fin = some (rc, s')) : Grown gone top s s' := by
  obtain ⟨h1, r, hk⟩ := grown_findOrInsert gone top h key
  rw [makeRoom] at hrun
  generalize lsTocFindOrInsert s key = s₀ at h1 hk hrun
  have hr := recAt_of_find hk
  have hm := h1.arrays.noMem key r hk
  have htry : tryMemory E s₀ key fin = some (false, s₀) := by
    rw [tryMemory, h1.arrays.noTier, if_neg (by simp)]
  have hspill : spill E s₀ key = some (.ok, s₀) := by rw [spill, hr, hm]
  have hcap : ∀ rc₁ s₁, ensureCap E s₀ key fin = some (rc₁, s₁) →
      Grown gone top s₀ s₁ ∧ (rc₁ = .ok → fin ≤ (s₁.recAt key).extTotal) := by
    intro rc₁ s₁ hc
    rw [ensureCap, hr, hm, htry] at hc
    dsimp only at hc
    rw [if_neg (by simp)] at hc
    split_ifs at hc with hfit
    · cases hc
      exact ⟨.refl h1.arrays, fun _ => hr ▸ hfit.1⟩
    · rw [hspill] at hc
      dsimp only at hc
      rw [if_neg (by simp)] at hc
      exact grown_ensureExtents h1.arrays hk hc
  cases hc : ensureCap E s₀ key fin with
  | none =>
    rw [hc] at hrun
    cases hrun
  | some q =>
    obtain ⟨rc₁, s₁⟩ := q
    rw [hc] at hrun
    dsimp only at hrun
    obtain ⟨h2, h3⟩ := hcap rc₁ s₁ hc
    by_cases hrc : rc₁ ≠ .ok
    · rw [if_pos hrc] at hrun
      cases hrun
      exact h1.trans h2
    rw [if_neg hrc] at hrun
    cases hrun
    refine (h1.trans h2).trans (grown_update h2.arrays _ (fun _ => ⟨rfl, rfl, rfl, rfl, rfl, rfl⟩)
      fun r₁ hk₁ => ?_)
    have h4 := h3 (not_not.mp hrc)
    have h5 := h2.arrays.count key r₁ hk₁
    have h6 := h2.arrays.size_le key r₁ hk₁
    rw [recAt_of_find hk₁, h5] at h4
    dsimp only
    refine ⟨by split_ifs <;> omega, fun hlt => ?_⟩
    rw [Nat.mod_eq_of_lt hlt] at h4
    have := h6 hlt
    split_ifs
    · exact h4
    · exact this

/-! ## Calls -/

omit [Os σ] in
theorem grown_pin (h : Arrays s) (key : CStr) : Grown gone top s (pin s key).2 := by
  have h1 : SameTable s (if (s.recAt key).mem.isSome then lsLruTouch s key else s) := by
    rw [lsLruTouch]
    split_ifs <;> exact ⟨rfl, rfl, rfl, rfl⟩
  have h2 : Grown gone top s _ := h1.grown h
  exact h2.trans (grown_setRec h2.arrays _ (fun _ => ⟨rfl, rfl, rfl, rfl, rfl, rfl⟩) fun _ => rfl)

omit [Os σ] in
theorem grown_unpin (h : Arrays s) (key : CStr) : Grown gone top s (unpin s key) :=
  grown_setRec h _ (fun _ => ⟨rfl, rfl, rfl, rfl, rfl, rfl⟩) fun _ => rfl

/-- Making room, and taking the place of the record if there is. -/
theorem grown_room_pin {fin : ℕ} (gone : Option CStr) {top : CStr → ℕ} (h : Arrays s)
    (htop : fin ≤ top key) (hrun : makeRoom E s key fin = some (rc, s')) :
    Grown gone top s s' ∧ Grown gone top s (pin s' key).2 := by
  have h1 : Grown gone top s s' := grown_makeRoom h htop hrun
  exact ⟨h1, h1.trans (grown_pin h1.arrays key)⟩

theorem grown_writeBegin {off n : ℕ} {a : Except Rc Place} (h : Arrays s) (htop : add64 off n ≤ top key)
    (hrun : writeBegin E s key off n = some (a, s')) : Grown gone top s s' := by
  rw [writeBegin] at hrun
  split_ifs at hrun
  · cases hrun; exact .refl h
  · cases hrun; exact .refl h
  · cases hrun; exact .refl h
  cases hm : makeRoom E s key (add64 off n) with
  | none =>
    rw [hm] at hrun
    cases hrun
  | some q =>
    obtain ⟨rc₁, s₁⟩ := q
    rw [hm] at hrun
    dsimp only at hrun
    obtain ⟨h1, h2⟩ := grown_room_pin gone h htop hm
    split_ifs at hrun
    · cases hrun
      exact h1
    · cases hrun
      exact h2

theorem grown_appendBegin {n : ℕ} {a : Except Rc (ℕ × Place)} (h : Arrays s)
    (htop : add64 ((lsTocFindOrInsert s key).recAt key).size n ≤ top key)
    (hrun : appendBegin E s key n = some (a, s')) : Grown gone top s s' := by
  rw [appendBegin] at hrun
  split_ifs at hrun
  · cases hrun; exact .refl h
  · cases hrun; exact .refl h
  obtain ⟨h0, -⟩ := grown_findOrInsert gone top h key
  dsimp only at hrun
  split_ifs at hrun
  · cases hrun
    exact h0
  generalize lsTocFindOrInsert s key = s₀ at h0 htop hrun
  generalize add64 (s₀.recAt key).size n = fin at htop hrun
  cases hm : makeRoom E s₀ key fin with
  | none =>
    rw [hm] at hrun
    cases hrun
  | some q =>
    obtain ⟨rc₁, s₁⟩ := q
    rw [hm] at hrun
    dsimp only at hrun
    obtain ⟨h1, h2⟩ := grown_room_pin gone h0.arrays htop hm
    split_ifs at hrun
    · cases hrun
      exact h0.trans h1
    · cases hrun
      exact h0.trans h2

omit [Os σ] in
theorem grown_readBegin {off n : ℕ} (h : Arrays s) : Grown gone top s (readBegin s key off n).2 := by
  rw [readBegin]
  split_ifs
  · exact .refl h
  · exact .refl h
  · exact .refl h
  · exact .refl h
  · exact grown_pin h key

theorem grown_reserve {n : ℕ} (h : Arrays s) (htop : n ≤ top key) (hrun : lsReserve E s key n = some (rc, s')) :
    Grown gone top s s' := by
  rw [lsReserve] at hrun
  split_ifs at hrun
  · cases hrun; exact .refl h
  · cases hrun; exact .refl h
  · exact grown_makeRoom h htop hrun

/-- Only the erased record goes. -/
theorem grown_erase (h : Arrays s) : Grown (some key) top s (lsErase s key).2 := by
  rw [lsErase]
  split_ifs
  · exact .refl h
  · exact .refl h
  cases hk : s.find key with
  | none => exact .refl h
  | some r =>
    have hfind : ∀ k, (lsTocUnlink s key).find k = if key = k then none else s.find k :=
      Chained.find_unlink h.wf hk
    have hold : ∀ k q, (lsTocUnlink s key).find k = some q → s.find k = some q := by
      intro k q hq
      rw [hfind] at hq
      split_ifs at hq
      exact hq
    have hun : Grown (some key) top s (lsTocUnlink s key) := by
      refine ⟨rfl, ⟨(Chained.perm_unlink h.wf hk).1, fun k q hq => h.noMem k q (hold k q hq),
        fun k q hq => h.noExt k q (hold k q hq), fun k q hq => h.next_le k q (hold k q hq),
        fun k q p hq => h.ext_lt k q p (hold k q hq),
        fun k k' q q' p hq hq' => h.inj k k' q q' p (hold k q hq) (hold k' q' hq'),
        fun k q hq => h.count k q (hold k q hq), fun k q hq => h.size_le k q (hold k q hq), h.noTier⟩,
        fun k q hkk hq => ⟨q, ?_, List.prefix_rfl, Nat.le_max_left _ _⟩⟩
      rw [hfind, if_neg fun hc => hkk (congrArg some hc.symm)]
      exact hq
    refine hun.trans (SameTable.grown ?_ hun.arrays)
    have h1 : SameTable (lsTocUnlink s key) (lsLruDrop (lsTocUnlink s key) key) := ⟨rfl, rfl, rfl, rfl⟩
    exact h1.trans (lsRecFree_sameTable _ r)

omit [Os σ] in
theorem grown_setAttr {blob : List UInt8} (h : Arrays s) : Grown gone top s (lsSetAttr s key blob).2 := by
  rw [lsSetAttr]
  split_ifs
  · exact .refl h
  · exact .refl h
  · exact .refl h
  · obtain ⟨h1, -⟩ := grown_findOrInsert gone top h key
    exact h1.trans (grown_setRec h1.arrays _ (fun _ => ⟨rfl, rfl, rfl, rfl, rfl, rfl⟩) fun _ => rfl)

theorem grown_enter {op : Op} {ent : Entered} (h : Arrays s)
    (hrun : op.enter E s = some (ent, s')) : Grown op.gone (op.top s) s s' := by
  cases op with
  | write k off buf addr =>
    simp only [Op.enter] at hrun
    cases hb : writeBegin E s k off buf.length with
    | none =>
      rw [hb] at hrun
      cases hrun
    | some q =>
      obtain ⟨a, s₁⟩ := q
      rw [hb] at hrun
      have h1 : Grown (Op.write k off buf addr).gone ((Op.write k off buf addr).top s) s s₁ :=
        grown_writeBegin h (if_pos rfl).ge hb
      cases a <;> (cases hrun; exact h1)
  | append k buf addr =>
    simp only [Op.enter] at hrun
    cases hb : appendBegin E s k buf.length with
    | none =>
      rw [hb] at hrun
      cases hrun
    | some q =>
      obtain ⟨a, s₁⟩ := q
      rw [hb] at hrun
      have htop : add64 ((lsTocFindOrInsert s k).recAt k).size buf.length ≤
          Op.top s (Op.append k buf addr) k := by
        rw [size_findOrInsert h]
        exact (if_pos rfl).ge
      have h1 : Grown (Op.append k buf addr).gone ((Op.append k buf addr).top s) s s₁ :=
        grown_appendBegin h htop hb
      cases a <;> (cases hrun; exact h1)
  | read k off n addr =>
    have h1 : Grown (Op.read k off n addr).gone ((Op.read k off n addr).top s) s (readBegin s k off n).2 := grown_readBegin h
    simp only [Op.enter] at hrun
    generalize readBegin s k off n = q at h1 hrun
    obtain ⟨a, s₁⟩ := q
    cases a <;> (cases hrun; exact h1)
  | reserve k n =>
    simp only [Op.enter] at hrun
    cases hb : lsReserve E s k n with
    | none =>
      rw [hb] at hrun
      cases hrun
    | some q =>
      obtain ⟨a, s₁⟩ := q
      rw [hb] at hrun
      cases hrun
      exact grown_reserve h (if_pos rfl).ge hb
  | erase k =>
    have h1 : Grown (Op.erase k).gone ((Op.erase k).top s) s (lsErase s k).2 := grown_erase h
    simp only [Op.enter] at hrun
    cases hrun
    exact h1
  | setAttr k blob =>
    have h1 : Grown (Op.setAttr k blob).gone ((Op.setAttr k blob).top s) s (lsSetAttr s k blob).2 := grown_setAttr h
    simp only [Op.enter] at hrun
    cases hrun
    exact h1
  | size k => cases hrun; exact .refl h
  | «exists» k => cases hrun; exact .refl h
  | getAttr k cap => cases hrun; exact .refl h
  | keys => cases hrun; exact .refl h

/-- **A call appends to records**, whatever its arguments are and whatever the system answers. -/
theorem grown_call {op : Op} {out : Out} (h : Arrays s) (hrun : op.call E s = some (out, s')) :
    Grown op.gone (op.top s) s s' := by
  rw [Op.call] at hrun
  cases he : op.enter E s with
  | none =>
    rw [he] at hrun
    cases hrun
  | some q =>
    obtain ⟨ent, s₁⟩ := q
    rw [he] at hrun
    have h1 := grown_enter h he
    cases ent with
    | done o =>
      cases hrun
      exact h1
    | xfer x pl p =>
      dsimp only at hrun
      cases hx : s₁.exec p with
      | none =>
        rw [hx] at hrun
        cases hrun
      | some w =>
        obtain ⟨o, s₂⟩ := w
        rw [hx] at hrun
        cases hrun
        have h2 : Grown op.gone (op.top s) s₁ s₂ := (exec_sameTable hx).grown h1.arrays
        exact (h1.trans h2).trans (grown_unpin h2.arrays _)

/-- So does a vectored call. -/
theorem grown_segv {segs : List Seg} {write : Bool} {a : Rc × List (List UInt8)} (h : Arrays s)
    (htop : write = true → ∀ hi, segvCheck segs 0 = .ok hi → hi ≤ top key)
    (hrun : segv E s key segs write = some (a, s')) : Grown none top s s' := by
  rw [segv] at hrun
  split_ifs at hrun
  · cases hrun; exact .refl h
  · cases hrun; exact .refl h
  cases hc : segvCheck segs 0 with
  | error e =>
    rw [hc] at hrun
    cases hrun
    exact .refl h
  | ok hi =>
    rw [hc] at hrun
    dsimp only at hrun
    have hbegin : ∀ b s₁, segvBegin E s key hi write = some (b, s₁) → Grown none top s s₁ := by
      intro b s₁ hb
      rw [segvBegin] at hb
      split_ifs at hb with hw
      · cases hb; exact .refl h
      · have htop := htop hw hi hc
        cases hm : makeRoom E s key hi with
        | none =>
          rw [hm] at hb
          cases hb
        | some q =>
          obtain ⟨rc₁, s₂⟩ := q
          rw [hm] at hb
          dsimp only at hb
          obtain ⟨h1, h2⟩ := grown_room_pin none h htop hm
          split_ifs at hb
          · cases hb; exact h1
          · cases hb; exact h2
      · cases hb; exact .refl h
      · cases hb; exact .refl h
      · cases hb; exact grown_pin h key
    cases hb : segvBegin E s key hi write with
    | none =>
      rw [hb] at hrun
      cases hrun
    | some q =>
      obtain ⟨b, s₁⟩ := q
      rw [hb] at hrun
      have h1 := hbegin b s₁ hb
      cases b with
      | error e =>
        cases hrun
        exact h1
      | ok pl =>
        dsimp only at hrun
        cases hx : s₁.exec (segvLoop E s₁.direct pl write segs []) with
        | none =>
          rw [hx] at hrun
          cases hrun
        | some w =>
          obtain ⟨o, s₂⟩ := w
          rw [hx] at hrun
          cases hrun
          have h2 : Grown none top s₁ s₂ := (exec_sameTable hx).grown h1.arrays
          exact (h1.trans h2).trans (grown_unpin h2.arrays _)

/-- `ls_scatter` moves the pieces that the record's extents make, one after the other. -/
theorem exec_scatter (h : Arrays s) (hk : s.find key = some r)
    (direct write : Bool) {off n : ℕ} (hn : n ≠ 0) (addr : ℕ) (buf : List UInt8) :
    s.exec (lsScatter E direct (lsPlaceOf r) off n write addr buf) =
      s.exec (movePieces E direct addr write buf
        (if (pieces off n (s.exts r) 0 0).2 = n then .ok else .errno .eio)
        (pieces off n (s.exts r) 0 0).1 []) := by
  rw [lsScatter, if_neg hn, lsPlaceOf]
  dsimp only
  rw [h.noMem key r hk]
  have hlen : (s.exts r).length = r.next := by
    cases hx : r.ext with
    | none => rw [Store.exts, hx, (h.noExt key r hk hx).1]; rfl
    | some p => rw [Store.exts, hx, List.length_map, List.length_range]
  have hget : ∀ j e, (s.exts r)[j]? = some e → s.arr (r.ext.getD 0) (0 + j) = e := by
    intro j e hj
    rw [Nat.zero_add]
    cases hx : r.ext with
    | none => rw [Store.exts, hx, List.getElem?_nil] at hj; cases hj
    | some p =>
      rw [Store.exts, hx, List.getElem?_map] at hj
      obtain ⟨i, hi, rfl⟩ := Option.map_eq_some_iff.mp hj
      obtain ⟨hlt, hi⟩ := List.getElem?_eq_some_iff.mp hi
      rw [List.getElem_range] at hi
      rw [Option.getD_some, hi]
  have hloop := fun base out => @exec_scatterLoop σ _ E s direct write addr off n buf (r.ext.getD 0)
    (s.exts r) 0 base 0 out (Nat.zero_le n) hget
  rw [hlen] at hloop
  exact hloop 0 []

end

end Libspill
