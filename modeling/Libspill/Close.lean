import Libspill.Reopen
import Libspill.Fence

set_option autoImplicit false

/-!
# Keeping a store

* `exec_lsPwriteAll_past`: a write past the largest offset fails.
* `spilt_of_lsSpillAll`: when no transfer is under way, `ls_spill_all` leaves no record in memory.
* `persist_spec`: the table and the superblock are written.
* **`closeStore_spec`**: an `ls_close(keep=1)` without an error leaves a file that holds the store.
-/

namespace Libspill

variable {σ : Type} [HonestOs σ] {E : Env}

open HonestOs (file clean)

/-! ## Past the largest offset -/

section Past

variable {s : Store σ} {b cbuf : List UInt8} {off n done : ℕ}

/-- A write that succeeds ends within `OFF_MAX`. -/
theorem pwrite_within {os : σ} {k : ℕ} (hb : b ≠ []) (h : (Os.pwrite os b off).1 = .ok k) :
    off + b.length ≤ OFF_MAX := by
  have hlen := HonestOs.len_le (Os.pwrite os b off).2
  rw [(HonestOs.pwrite_ok _ _ _ _ h).2, File.write] at hlen
  dsimp only at hlen
  rw [if_neg hb] at hlen
  omega

/-- A program that begins with a write. -/
theorem exec_pwrite {α : Type} (s : Store σ) (b : List UInt8) (off : ℕ) (k : Except Errno ℕ → Io α) :
    s.exec (Io.pwrite b off k) =
      Store.exec { s with os := (Os.pwrite s.os b off).2 } (k (Os.pwrite s.os b off).1) := rfl

/-- A program that begins with a read. -/
theorem exec_pread {α : Type} (s : Store σ) (n off : ℕ) (k : Except Errno (List UInt8) → Io α) :
    s.exec (Io.pread n off k) =
      Store.exec { s with os := (Os.pread s.os n off).2 } (k (Os.pread s.os n off).1) := rfl

theorem plain_past {fuel : ℕ} (hf : 0 < fuel) (hoff : off ≤ OFF_MAX)
    (hn : OFF_MAX < off + cbuf.length) :
    ∃ rc out s', s.exec (plain true cbuf cbuf.length off fuel 0 []) = some ((rc, out), s') ∧
      rc ≠ .ok ∧ ¬ clean s'.os := by
  obtain ⟨fuel, rfl⟩ := Nat.exists_eq_succ_of_ne_zero hf.ne'
  have hmax : OFF_MAX = 2 ^ 63 - 1 := rfl
  rw [plain, if_pos (by omega), if_pos rfl, List.drop_zero, Nat.sub_zero, List.take_length,
    add64_eq (by omega), Nat.add_zero, exec_pwrite]
  cases hr : (Os.pwrite s.os cbuf off).1 with
  | ok k =>
    have := pwrite_within (List.ne_nil_of_length_pos (by omega)) hr
    omega
  | error e =>
    obtain ⟨he, hc, -⟩ := HonestOs.pwrite_err _ _ _ _ hr
    dsimp only
    rw [if_neg he]
    exact ⟨_, _, _, rfl, fun h => (by cases h), hc⟩

theorem bounce_past {fuel : ℕ} {out : List UInt8} (hoff : off + done ≤ OFF_MAX)
    (hn : OFF_MAX < off + cbuf.length) (hfuel : OFF_MAX - (off + done) < fuel) :
    ∃ rc out' s', s.exec (bounce true cbuf cbuf.length off fuel done out) = some ((rc, out'), s') ∧
      rc ≠ .ok ∧ ¬ clean s'.os := by
  induction fuel generalizing done s out with
  | zero => omega
  | succ fuel ih =>
    have hmax : OFF_MAX = 2 ^ 63 - 1 := rfl
    have hA : LS_ALIGN = 4096 := rfl
    have hB : LS_BOUNCE = 4194304 := rfl
    rw [bounce, if_pos (by omega), add64_eq (by omega)]
    dsimp only
    rw [if_pos rfl]
    generalize hbase : (off + done) / LS_ALIGN * LS_ALIGN = base
    generalize hskew : off + done - base = skew
    generalize hchunk : (if cbuf.length - done > LS_BOUNCE - skew then LS_BOUNCE - skew
      else cbuf.length - done) = chunk
    rw [hA] at hbase
    have hsk : base + skew = off + done ∧ skew < 4096 := by omega
    have hck : 0 < chunk ∧ chunk ≤ cbuf.length - done := by
      split_ifs at hchunk <;> omega
    generalize hspan : (skew + chunk + LS_ALIGN - 1) / LS_ALIGN * LS_ALIGN = span
    have hsp : skew + chunk ≤ span := by
      rw [hA] at hspan
      omega
    -- what is written back
    have hput : ∀ (bb : List UInt8) (s : Store σ) (k : Except Errno ℕ → Io (Rc × List UInt8)),
        skew ≤ bb.length →
        (∀ m, k (.ok m) = bounce true cbuf cbuf.length off fuel (done + chunk) out) →
        (∀ e, e ≠ .eintr → k (.error e) = .ret (.errno e, out)) →
        ∃ rc out' s', s.exec (Io.pwrite (bb.take skew ++ (cbuf.drop done).take chunk ++
            bb.drop (skew + chunk)) base k) = some ((rc, out'), s') ∧ rc ≠ .ok ∧ ¬ clean s'.os := by
      intro bb s k hbb hok herr
      generalize hw : bb.take skew ++ (cbuf.drop done).take chunk ++ bb.drop (skew + chunk) = w
      have hwl : skew + chunk ≤ w.length := by
        rw [← hw]
        simp only [List.length_append, List.length_take, List.length_drop]
        omega
      rw [exec_pwrite]
      cases hr : (Os.pwrite s.os w base).1 with
      | ok m =>
        have := pwrite_within (List.ne_nil_of_length_pos (by omega)) hr
        rw [hok]
        exact ih (by omega) (by omega)
      | error e =>
        obtain ⟨he, hc, -⟩ := HonestOs.pwrite_err _ _ _ _ hr
        rw [herr e he]
        exact ⟨_, _, _, rfl, fun h => (by cases h), hc⟩
    split_ifs with hcond
    · rw [exec_pread]
      cases hr : (Os.pread s.os span base).1 with
      | error e => exact ⟨_, _, _, rfl, fun h => (by cases h), (HonestOs.pread_err _ _ _ _ hr).2⟩
      | ok b =>
        refine hput (b ++ List.replicate (span - b.length) 0) _ _ ?_ (fun _ => rfl)
          fun e he => if_neg he
        simp only [List.length_append, List.length_replicate]
        omega
    · refine hput [] s _ ?_ (fun _ => rfl) fun e he => if_neg he
      rw [not_or, not_not] at hcond
      rw [hcond.1]
      exact Nat.zero_le _

/-- **A write past the largest offset fails.** -/
theorem exec_lsPwriteAll_past (hF : 2 ^ 64 ≤ E.fuel) (s : Store σ) (direct : Bool) (addr : ℕ)
    (hoff : off ≤ OFF_MAX) (hn : OFF_MAX < off + b.length) :
    ∃ rc out s', s.exec (lsPwriteAll E direct addr b off) = some ((rc, out), s') ∧ rc ≠ .ok ∧
      ¬ clean s'.os := by
  have hmax : OFF_MAX = 2 ^ 63 - 1 := rfl
  rw [lsPwriteAll, rwAll, if_neg (by omega)]
  split_ifs
  · exact plain_past (by omega) hoff hn
  · exact bounce_past (by omega) hn (by omega)

end Past

/-! ## Spilling all records -/

/-- When no transfer is under way, `ls_spill_all` leaves no record in memory. -/
theorem spilt_of_evicted {s s' : Store σ} (hi : Idle s) (h : Evicted s s' 0 none .ok) :
    Idle s' ∧ ∀ k r, s'.find k = some r → r.mem = none := by
  have hidle : Idle s' := by
    intro k
    cases hk : s.find k with
    | none => rw [recAt_of_none (h.kept.none k hk)]
    | some r =>
      obtain ⟨r', hk', hr⟩ := h.kept.some k r hk
      have := hi k
      rw [recAt_of_find hk] at this
      rw [recAt_of_find hk', hr.busy, this]
  refine ⟨hidle, fun k r hk => ?_⟩
  by_contra hm
  have hlru := (h.sound.laid.tiered.lru_mem k).mpr ⟨r, hk, hm⟩
  rcases h.room rfl with hres | hv
  · have h1 := memCap_le_resident h.sound.laid hk
    have h2 := ((h.sound.laid.records.ok k r hk).hasMem hm).1
    omega
  · have := List.find?_eq_none.mp hv k (List.mem_reverse.mpr hlru)
    simp [hidle k] at this

/-- **`ls_spill_all`**. -/
theorem lsSpillAll_spec (hF : 2 ^ 64 ≤ E.fuel) {s : Store σ} (h : Sound s) :
    ∃ rc s', lsSpillAll E s = some (rc, s') ∧ Evicted s s' 0 none rc :=
  lsEvictTo_spec hF E.fuel h 0 none ((lru_length_lt h.laid).trans_le (by omega))

/-! ## Writing the table -/

/-- What `persist` leaves. -/
structure Persisted (s : Store σ) (rc : Rc) (os : σ) : Prop where
  clean : clean os → clean s.os ∧ rc = .ok
  stored : rc = .ok → StoredIn s (file os)
  /-- An empty table leaves the file as it was past the superblock. -/
  empty : rc = .ok → tocSerialise s = [] → (file os).len = s.flen ∧
    ∀ x, LS_SUPER_SIZE ≤ x → (file os).byte x = s.fbyte x

theorem persist_spec (hF : 2 ^ 64 ≤ E.fuel) {s : Store σ} (h : Sound s) :
    ∃ rc s', persist E s (tocSerialise s) = some (rc, s') ∧ Persisted s rc s'.os := by
  have hfe := fileEnd_lt h
  have hlo := h.laid.tiled.lo_le
  have hmax : OFF_MAX = 2 ^ 63 - 1 := rfl
  have hS : LS_SUPER_SIZE = 4096 := rfl
  rw [persist]
  by_cases hlong : OFF_MAX < s.al.fileEnd + (tocSerialise s).length
  · obtain ⟨rc, out, s₁, g1, g2, g3⟩ := exec_lsPwriteAll_past hF s s.direct E.tbAddr
      (show s.al.fileEnd ≤ OFF_MAX by omega) hlong
    rw [g1]
    dsimp only
    rw [if_pos g2]
    exact ⟨rc, s₁, rfl, fun hc => absurd hc g3, fun hr => absurd hr g2, fun hr => absurd hr g2⟩
  obtain ⟨rc, out, s₁, g1, g2⟩ := exec_lsPwriteAll hF s s.direct E.tbAddr (tocSerialise s)
    s.al.fileEnd (by omega)
  rw [g1]
  dsimp only
  by_cases hrc : rc ≠ .ok
  · rw [if_pos hrc]
    exact ⟨rc, s₁, rfl, g2.clean, fun hr => absurd hr hrc, fun hr => absurd hr hrc⟩
  rw [if_neg hrc]
  rw [not_not] at hrc
  subst hrc
  have hsup : superblock s₁ (tocSerialise s) = superblock s (tocSerialise s) := by rw [g2.os]; rfl
  have hdir : s₁.direct = s.direct := by rw [g2.os]
  have hlen := length_superblock s (tocSerialise s)
  rw [hsup]
  obtain ⟨rc, out, s₂, k1, k2⟩ := exec_lsPwriteAll hF s₁ s₁.direct E.sbAddr
    (superblock s (tocSerialise s)) 0 (by omega)
  rw [hlen] at k2
  rw [k1]
  dsimp only
  -- what is on the file when both writes have succeeded
  have hstored : rc = .ok → ∀ os : σ, file os = file s₂.os → StoredIn s (file os) := by
    rintro rfl os hos
    rw [hos]
    refine ⟨?_, ?_, ?_, fun x hx => ?_⟩
    · rw [← hlen]
      refine eq_slice fun i hi => ?_
      rw [hlen] at hi
      rw [Nat.zero_add]
      refine (k2.inside rfl i (Nat.zero_le _) (by omega)).trans ?_
      rw [patch, if_pos ⟨Nat.zero_le _, by omega⟩, Nat.sub_zero]
    · refine eq_slice fun i hi => ?_
      refine (k2.outside _ (Or.inr (by omega))).trans ?_
      rw [g2.inside rfl _ (Nat.le_add_right _ _) (by omega), patch,
        if_pos ⟨Nat.le_add_right _ _, by omega⟩, Nat.add_sub_cancel_left]
    · refine Nat.le_trans ?_ k2.len
      by_cases hn : 0 < (tocSerialise s).length
      · exact g2.reach rfl hn
      · have := h.flen.trans g2.len
        omega
    · have hx' := (h.laid.tiled.cover x).mpr (Or.inl hx)
      exact (k2.outside x (Or.inr (by omega))).trans (g2.outside x (Or.inl hx'.2))
  have hempty : ∀ os : σ, file os = file s₂.os → tocSerialise s = [] → (file os).len = s.flen ∧
      ∀ x, LS_SUPER_SIZE ≤ x → (file os).byte x = s.fbyte x := by
    intro os hos hnil
    have f1 := exec_lsPwriteAll_fenced (by omega) g1
    have f2 := exec_lsPwriteAll_fenced (by omega) k1
    rw [hnil] at f1
    rw [hlen] at f2
    have hin : ∀ x, Loc.file x ∈ blocks s₁.direct 0 LS_SUPER_SIZE → x < LS_SUPER_SIZE := by
      rintro x ⟨y, ⟨z, h1, h2, h3⟩, hy⟩
      cases hy
      have hA : LS_ALIGN = 4096 := rfl
      rw [hA] at h3
      omega
    have hno : ∀ x, Loc.file x ∉ blocks s.direct s.al.fileEnd ([] : List UInt8).length := by
      rintro x ⟨y, ⟨z, h1, h2, -⟩, -⟩
      rw [List.length_nil] at h2
      omega
    have hf := f1.file_eq hno
    rw [hos]
    refine ⟨Nat.le_antisymm (f2.top s.flen (congrArg File.len hf).le fun x hx => ?_)
      (g2.len.trans k2.len), fun x hx => ?_⟩
    · have := hin x hx
      have := h.flen
      omega
    · refine (f2.byte (.file x) fun hmem => ?_).trans (congrFun (congrArg File.byte hf) x)
      exact absurd (hin x hmem) (Nat.not_lt.mpr hx)
  have hclean : clean s₂.os → clean s.os ∧ rc = .ok := fun hc =>
    ⟨(g2.clean (k2.clean hc).1).1, (k2.clean hc).2⟩
  split_ifs with hend
  · exact ⟨rc, s₂, rfl, hclean, fun hr => hstored hr _ rfl, fun _ => hempty _ rfl⟩
  rw [not_or, not_not] at hend
  have hf := HonestOs.fsync_file s₂.os
  have hc := HonestOs.fsync_clean s₂.os
  have he := HonestOs.fsync_err s₂.os
  generalize Os.fsync s₂.os = a at hf hc he ⊢
  obtain ⟨e | u, os⟩ := a
  · exact ⟨_, _, rfl, fun h => absurd h (he e rfl), fun h => (by cases h), fun h => (by cases h)⟩
  · exact ⟨_, _, rfl, fun h => ⟨(hclean (hc h)).1, rfl⟩, fun _ => hstored hend.1 os hf,
      fun _ => hempty os hf⟩

/-- What `ls_close(keep=1)` leaves. -/
structure Closed (E : Env) (s : Store σ) (rc : Rc) (os : σ) : Prop where
  clean : clean os → clean s.os ∧ rc = .ok
  kept : rc = .ok → ∃ s₁, lsSpillAll E s = some (.ok, s₁) ∧ Evicted s s₁ 0 none .ok ∧
    Persisted s₁ .ok os

/-- **`ls_close(keep=1)`** of a store that is not shared. -/
theorem closeStore_spec (hF : 2 ^ 64 ≤ E.fuel) {s : Store σ} (h : Sound s)
    (hsh : s.o.parallel ≠ .shared) :
    ∃ rc os, closeStore E s true = some (rc, os) ∧ Closed E s rc os := by
  obtain ⟨first, s₁, h1, h2⟩ := lsSpillAll_spec hF h
  obtain ⟨rc, s₂, h3, h4⟩ := persist_spec hF h2.sound
  rw [closeStore, if_neg hsh, if_pos rfl, h1]
  dsimp only
  rw [h3]
  refine ⟨_, _, rfl, fun hc => ?_, fun hr => ?_⟩
  · obtain ⟨h5, rfl⟩ := h4.clean hc
    have hfirst := h2.clean h5
    exact ⟨h2.kept.clean h5, if_pos hfirst⟩
  · by_cases hfirst : first = .ok
    · subst hfirst
      rw [if_pos rfl] at hr
      subst hr
      exact ⟨s₁, h1, h2, h4⟩
    · rw [if_neg hfirst] at hr
      exact absurd hr hfirst

end Libspill
