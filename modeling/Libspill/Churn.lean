import Libspill.Exact
import Libspill.Elements

set_option autoImplicit false

/-!
# Churn

A record is erased, and one no larger takes its place.

* `ensureExtents_fileEnd`: how far `ensure_extents` moves the end of the file.
* `erase_leaves_gap`: where the extent of an erased record is.
* **`churn_within`**: the file does not grow.
* `churn_grows`: it does after the end of the file has wrapped.
-/

namespace Libspill

variable {σ : Type} [HonestOs σ] {E : Env}

open HonestOs (clean file)

section

variable {s s' : Store σ} {key : CStr} {r : Rec} {need : ℕ} {live : List Extent}

theorem roundUp_le_roundUp {n m : ℕ} (hm : RoundFits m) (h : n ≤ m) : roundUp n ≤ roundUp m := by
  have hn : RoundFits n := by
    unfold RoundFits at hm ⊢
    omega
  rw [roundUp_eq hn, roundUp_eq hm]
  exact Nat.mul_le_mul_right _ (Nat.div_le_div_right (by omega))

/-- A turn of `ensure_extents` moves the end of the file by what is missing, and not at all if a hole
covers it. -/
theorem allocFor_fileEnd {a : Alloc} {deficit : ℕ} (h : Tiled live a) (next : ℕ) (h0 : 0 < deficit)
    (hr : RoundFits deficit) (hf : AllocFits a next deficit) :
    (allocFor a next deficit).2.fileEnd ≤ a.fileEnd + roundUp deficit ∧
      ∀ b ∈ a.fl, roundUp deficit ≤ b.len → (allocFor a next deficit).2.fileEnd = a.fileEnd ∧
        deficit ≤ (allocFor a next deficit).1.len := by
  have hle := (le_roundUp hr).1
  have hnone : lsAllocBest a deficit = none → ∀ b ∈ a.fl, ¬ roundUp deficit ≤ b.len := fun hb b hm => by
    have := lt_of_lsAllocBest h h0 hr hb b hm
    omega
  obtain ⟨t, ht, h'⟩ | ⟨t, ⟨hb, -⟩, ht, h'⟩ | ⟨hb, hl, h'⟩ := allocFor_cases a next deficit
  · obtain ⟨-, h2, h3, -⟩ := tiled_lsAllocBest h ht
    rw [h']
    exact ⟨by omega, fun _ _ _ => ⟨h2, by omega⟩⟩
  · rw [h']
    have := (tiled_lsAllocLargest h ht).2.1
    exact ⟨by omega, fun b hm hlen => absurd hlen (hnone hb b hm)⟩
  · rw [h']
    exact ⟨(tiled_lsAllocTail h h0 (hf hb hl)).2.1.le, fun b hm hlen => absurd hlen (hnone hb b hm)⟩

omit [HonestOs σ] in
theorem freeExtent_al [Os σ] (s : Store σ) (e : Extent) :
    (freeExtent s e).al = (flInsert s.al e.foff e.len).1 := by
  rw [freeExtent]
  generalize flInsert s.al e.foff e.len = a
  obtain ⟨al, n⟩ := a
  cases n <;> rfl

/-- **How far `ensure_extents` moves the end of the file**: by what is missing, and not at all if a
hole covers it. By induction on the turns. -/
theorem ensureExtents_fileEnd (hF : 2 ^ 64 ≤ E.fuel) (fuel : ℕ) (h : Records s) (ht : Tiled live s.al)
    (htd : s.teardown = false) (hfe : s.al.fileEnd < 2 ^ 64) (hk : s.find key = some r)
    (hr : RoundFits need) (hlt : r.extTotal < need)
    (hfit : ∀ k, ExtentsFit k s.al r.next (need - r.extTotal)) {rc : Rc}
    (hrun : ensureExtents E fuel s key need = some (rc, s')) :
    s'.al.fileEnd ≤ s.al.fileEnd + roundUp (need - r.extTotal) ∧
      ∀ b ∈ s.al.fl, roundUp (need - r.extTotal) ≤ b.len → s'.al.fileEnd ≤ s.al.fileEnd := by
  induction fuel generalizing s r live with
  | zero => cases hrun
  | succ fuel ih =>
    have hneed : need < 2 ^ 64 := by
      unfold RoundFits at hr
      omega
    have hd : 0 < need - r.extTotal := by omega
    have hrd : RoundFits (need - r.extTotal) := by
      unfold RoundFits at hr ⊢
      omega
    rw [ensureExtents, recAt_of_find hk] at hrun
    dsimp only at hrun
    rw [if_pos hlt, sub64_eq (by omega) hneed] at hrun
    have hf := (hfit 1 hd).1
    have hh := handed_allocFor ht hfe hd hf
    have hok := takeOk_allocFor ht hd hrd hf
    have hmove := allocFor_fileEnd ht r.next hd hrd hf
    have hend := allocFor_end r.next ht hrd
    have hnext : ∀ k, ExtentsFit k (allocFor s.al r.next (need - r.extTotal)).2 (r.next + 1)
        (need - r.extTotal - (allocFor s.al r.next (need - r.extTotal)).1.len) :=
      fun k => (hfit (k + 1) hd).2
    generalize allocFor s.al r.next (need - r.extTotal) = a at hh hok hmove hend hnext hrun
    obtain ⟨e, al⟩ := a
    dsimp only at hh hok hmove hend hnext hrun
    have heb := hh.tiled.live_bounds (List.mem_cons_self ..)
    have hefin := hh.fin
    simp only [Span.fin] at heb
    obtain ⟨rc₂, s₂, hz1, hz2⟩ := zeroRange_spec hF { s with al := al } e.foff e.len (by omega)
    rw [hz1] at hrun
    dsimp only at hrun
    have hs₂ : s₂ = { s with os := s₂.os, al := al } := hz2.os
    have hal₂ : s₂.al = al := by rw [hs₂]
    by_cases hrc : rc₂ ≠ .ok
    · -- what was taken is given back
      rw [if_pos hrc, lsFreeExtents, if_neg (by rw [hs₂]; simp [htd])] at hrun
      cases hrun
      have hfr := (freed_flInsert hh.tiled hefin).tiled
      have : (freeExtent s₂ e).al.fileEnd = s.al.fileEnd := by
        rw [freeExtent_al, hal₂]
        exact (hfr.unique ht fun x => Iff.rfl).2
      exact ⟨this.le.trans (Nat.le_add_right _ _), fun _ _ _ => this.le⟩
    rw [if_neg hrc] at hrun
    have hrec₂ : Records s₂ := by
      rw [hs₂]
      exact h.withFile
    have hk₂ : s₂.find key = some r := by rw [hs₂]; exact hk
    have hlen : r.extTotal + e.len < 2 ^ 64 := by
      have hup := le_roundUp hrd
      have hcov : e.len ≤ roundUp (need - r.extTotal) := by
        by_cases hc : need - r.extTotal ≤ e.len
        · exact (hok.exact hc).le
        · omega
      unfold RoundFits at hr
      omega
    obtain ⟨r₃, ha⟩ := adopted_adopt hrec₂ hk₂ hlen
    generalize adopt s₂ key e = s₃ at ha hrun
    have hk₃ : s₃.find key = some r₃ := by rw [ha.find, if_pos rfl]
    have hr₃ := ha.recEq
    have htot₃ : r₃.extTotal = r.extTotal + e.len := by rw [hr₃]
    have hal₃ : s₃.al = al := by rw [ha.rest, hs₂]
    have hsub : need - r₃.extTotal = need - r.extTotal - e.len := by omega
    by_cases hdone : need ≤ r₃.extTotal
    · cases fuel with
      | zero => cases hrun
      | succ fuel =>
        rw [ensureExtents, recAt_of_find hk₃] at hrun
        dsimp only at hrun
        rw [if_neg (Nat.not_lt.mpr hdone)] at hrun
        cases hrun
        rw [hal₃]
        exact ⟨hmove.1, fun b hb hle => (hmove.2 b hb hle).1.le⟩
    · obtain ⟨g1, -⟩ := ih (ha.records hrec₂ hk₂) (hal₃ ▸ hh.tiled) (by rw [ha.rest, hs₂]; exact htd)
        (hal₃ ▸ hefin) hk₃ (by omega) (by rw [hal₃, hsub, show r₃.next = r.next + 1 by rw [hr₃]]; exact hnext)
        hrun
      have hsame := hend.resolve_right (by omega)
      have hmono := roundUp_le_roundUp hrd (show need - r₃.extTotal ≤ need - r.extTotal by omega)
      rw [hal₃, hsame] at g1
      refine ⟨by omega, fun b hb hle => ?_⟩
      have := (hmove.2 b hb hle).2
      omega

/-! ## Erasing and reserving -/

/-- An erasure moves the end of the file back by the extent of the record, or leaves a hole as long. -/
theorem erase_room (h : Settled s) (hk : s.find key = some r) {e : Extent} (hexts : s.exts r = [e])
    {out : Out} (hcall : (Op.erase key).call E s = some (out, s')) :
    s'.al.fileEnd ≤ s.al.fileEnd ∧ (s.o.parallel ≠ .shared →
      s'.al.fileEnd + e.len ≤ s.al.fileEnd ∨ ∃ b ∈ s'.al.fl, e.len ≤ b.len) := by
  have hkey := (h.named key r hk).1
  obtain ⟨s₁, h1, h2, -, -, h3⟩ := lsErase_spec h.sound hk
  rw [hexts, List.singleton_append] at h3
  have hroom := (h.sound.laid.tiled.perm h3).room_of_release h2.laid.tiled
  simp only [Op.call, Op.enter, lsErase, hkey, hk, Bool.not_true, Bool.false_eq_true, if_false, h1] at hcall
  split_ifs at hcall with hsh
  · cases hcall
    exact ⟨Nat.le_refl _, fun hne => absurd hsh hne⟩
  · cases hcall
    exact ⟨hroom.1, fun _ => hroom.2⟩

/-- A reservation for a new key moves the end of the file by what is needed, and not at all if a hole
covers it. -/
theorem reserve_fileEnd (hF : 2 ^ 64 ≤ E.fuel) (h : Sound s) (hbud : s.o.memoryBudget = 0)
    (hn : s.find key = none) (h0 : 0 < need) (hneed : need ≤ 2 ^ 63) {out : Out}
    (hcall : (Op.reserve key need).call E s = some (out, s')) :
    s'.al.fileEnd ≤ s.al.fileEnd + roundUp need ∧
      (∀ b ∈ s.al.fl, roundUp need ≤ b.len → s'.al.fileEnd ≤ s.al.fileEnd) ∧
      (s.o.parallel = .shared → s'.al.fileEnd = s.al.fileEnd) := by
  have hr : RoundFits need := by
    have : LS_ALIGN = 4096 := rfl
    unfold RoundFits
    omega
  rw [Op.call, Op.enter, lsReserve] at hcall
  by_cases hkey : lsKeyOk key = true
  swap
  · rw [if_pos (by simp [hkey])] at hcall
    cases hcall
    exact ⟨Nat.le_add_right _ _, fun _ _ _ => Nat.le_refl _, fun _ => rfl⟩
  rw [if_neg (by simp [hkey])] at hcall
  by_cases hsh : s.o.parallel = .shared
  · rw [if_pos hsh] at hcall
    cases hcall
    exact ⟨Nat.le_add_right _ _, fun _ _ _ => Nat.le_refl _, fun _ => rfl⟩
  rw [if_neg hsh, makeRoom, ensureCap_new h hn hbud h0] at hcall
  obtain ⟨h1, -, h3, h4, -⟩ := lsTocFindOrInsert_spec h key
  rw [recAt_of_none hn] at h3
  generalize lsTocFindOrInsert s key = s₀ at h1 h3 h4 hcall
  have hfe := fileEnd_lt h1
  cases hext : ensureExtents E E.fuel s₀ key need with
  | none =>
    rw [hext] at hcall
    cases hcall
  | some q =>
    obtain ⟨rc, s₁⟩ := q
    have hend := ensureExtents_fileEnd hF E.fuel h1.laid.records h1.laid.tiled h1.laid.teardown
      (by omega) h3 hr h0 (fun k => extentsFit_of_le h1.laid.tiled hfe (by omega) k _) hext
    have hal : s'.al = s₁.al := by
      rw [hext] at hcall
      dsimp only at hcall
      split_ifs at hcall <;> (cases hcall; rfl)
    rw [h4] at hend
    rw [hal]
    exact ⟨hend.1, hend.2, fun hc => absurd hc hsh⟩

/-- **Replacing a record in one extent by one no larger never makes the file longer**: in every store
that is reached without a memory tier, whatever records and holes are around it. -/
theorem churn_within (hF : 2 ^ 64 ≤ E.fuel) (h : Reached E s) (hbud : s.o.memoryBudget = 0)
    (hk : s.find key = some r) {e : Extent} (hexts : s.exts r = [e]) (h0 : 0 < need)
    (hr : RoundFits need) (hle : roundUp need ≤ e.len) :
    ∃ out s₁, (Op.erase key).call E s = some (out, s₁) ∧ ∀ key', s₁.find key' = none →
      ∃ out' s₂, (Op.reserve key' need).call E s₁ = some (out', s₂) ∧
        s₂.al.fileEnd ≤ s.al.fileEnd := by
  have hset := h.settled hF
  obtain ⟨out, s₁, h1, h2⟩ := call_spec hF hset.sound (show (Op.erase key).Fits E s from trivial)
  refine ⟨out, s₁, h1, fun key' hn => ?_⟩
  obtain ⟨hle₁, hgap⟩ := erase_room hset hk hexts h1
  have hbound := hset.sound.laid.tiled.live_bounds (e := e)
    (exts_subset_live hset.sound.laid.records.wf hk (by rw [hexts]; exact List.mem_cons_self))
  have hfe := fileEnd_lt hset.sound
  have hup := (le_roundUp hr).1
  have hneed : need ≤ 2 ^ 63 := by
    have := hbound.2
    simp only [Span.fin] at this
    omega
  obtain ⟨out', s₂, g1, -⟩ := call_spec hF h2.sound
    (show (Op.reserve key' need).Fits E s₁ from ⟨by omega, roomFits_of_le hF h2.sound hneed⟩)
  refine ⟨out', s₂, g1, ?_⟩
  obtain ⟨g2, g3, g4⟩ := reserve_fileEnd hF h2.sound (by rw [h2.opts.1]; exact hbud) hn h0 hneed g1
  by_cases hsh : s.o.parallel = .shared
  · rw [g4 (by rw [h2.opts.1]; exact hsh)]
    exact hle₁
  rcases hgap hsh with hend | ⟨b, hb, hlen⟩
  · omega
  · exact (g3 b hb (by omega)).trans hle₁

end

/-! ## On a disk -/

/-- **After the end of the file has wrapped**: the first record of a new store is so long that
`file_end` becomes 0, and the file ends past that when one page takes its place. -/
theorem churn_grows : ∃ (s s₂ : Store Disk) (r : Rec) (e : Extent) (outs : List Out),
    History Env.ample (fun _ _ => True) (fun _ => True) s ∧ s.o.memoryBudget = 0 ∧
    s.find keyA = some r ∧ s.exts r = [e] ∧ s.find keyB = none ∧ roundUp 1 ≤ e.len ∧
    runOps Env.ample [.erase keyA, .reserve keyB 1] s = some (outs, s₂) ∧
    outs.map Out.rc = [.ok, .ok] ∧ s₂.os.ok = true ∧ s.al.fileEnd < s₂.al.fileEnd := by
  have hrun : ((runOps Env.ample [.reserve keyA (2 ^ 64 - 4096)] (Disk.newStore {})).bind fun q =>
      (runOps Env.ample [.erase keyA, .reserve keyB 1] q.2).map fun z =>
        ((q.2.find keyA).map q.2.exts, [(q.2.find keyB).isNone, z.2.os.ok],
          [q.2.o.memoryBudget, q.2.al.fileEnd, z.2.al.fileEnd], z.1.map Out.rc)) =
      some (some [⟨4096, 2 ^ 64 - 4096⟩], [true, true], [0, 0, 8192], [.ok, .ok]) := by decide +kernel
  obtain ⟨⟨outs₀, s⟩, h1, hrun⟩ := Option.bind_eq_some_iff.mp hrun
  obtain ⟨⟨outs, s₂⟩, h2, hrun⟩ := Option.map_eq_some_iff.mp hrun
  simp only [Prod.mk.injEq, List.cons.injEq, and_true, Option.map_eq_some_iff] at hrun
  obtain ⟨⟨r, c1, c2⟩, ⟨c3, c4⟩, ⟨c5, c6, c7⟩, c8⟩ := hrun
  have hs : History Env.ample (fun _ _ => True) (fun _ => True) s :=
    (History.opened rfl (Disk.lsOpen_blank _ rfl (by decide))).runOps h1 fun _ _ _ _ _ _ => trivial
  refine ⟨s, s₂, r, _, outs, hs, c5, c1, c2, Option.isNone_iff_eq_none.mp c3, by decide, h2, c8, c4, ?_⟩
  rw [c6, c7]
  norm_num

theorem churn_within_two : ∃ outs s,
    runOps Env.ample [.reserve keyA 8192, .reserve keyB 1] (Disk.newStore {}) = some (outs, s) ∧
    ∃ out s₁, (Op.erase keyA).call Env.ample s = some (out, s₁) ∧ ∀ key', s₁.find key' = none →
      ∃ out' s₂, (Op.reserve key' 5000).call Env.ample s₁ = some (out', s₂) ∧
        s₂.al.fileEnd ≤ s.al.fileEnd := by
  have hF : 2 ^ 64 ≤ Env.ample.fuel := Nat.le_refl _
  have hsome : ((runOps Env.ample [.reserve keyA 8192, .reserve keyB 1] (Disk.newStore {})).map fun q =>
      ((q.2.find keyA).map q.2.exts, q.2.o.memoryBudget)) = some (some [⟨4096, 8192⟩], 0) := by
    decide +kernel
  obtain ⟨⟨outs, s⟩, hrun, hsome⟩ := Option.map_eq_some_iff.mp hsome
  simp only [Prod.mk.injEq, Option.map_eq_some_iff] at hsome
  obtain ⟨⟨r, c1, c2⟩, c3⟩ := hsome
  have h₀ : Reached Env.ample (Disk.newStore {}) := reached_newStore rfl (by decide)
  have hone : ∀ (t : Store Disk) key (n : ℕ), Settled t → n ≤ 2 ^ 63 → (Op.reserve key n).Fits Env.ample t :=
    fun t key n ht hn => ⟨by omega, roomFits_of_le hF ht.sound hn⟩
  have hfit : FitsRun Env.ample [.reserve keyA 8192, .reserve keyB 1] (Disk.newStore {}) :=
    ⟨hone _ _ _ (h₀.settled hF) (by norm_num), fun out t ht =>
      ⟨hone _ _ _ ((h₀.settled hF).called hF (hone _ _ _ (h₀.settled hF) (by norm_num)) ht) (by norm_num),
        fun _ _ _ => trivial⟩⟩
  exact ⟨outs, s, hrun, churn_within hF (h₀.runOps hfit hrun) c3 c1 c2 (by norm_num)
    (show 5000 + 4095 < 2 ^ 64 by norm_num) (by decide)⟩

end Libspill
