import Libspill.Sequential

set_option autoImplicit false

/-!
# What `ensure_extents` takes

* `takes`: the turns of its loop, on the free list alone.
* `TakeOk`: what one turn may take. `takeOk_allocFor`: best fit, the largest hole and the tail do.
* `takes_spec`: the turns of a whole loop.
* `ensureExtents_takes`: the loop adds them to the record, or a call has failed.
* **`ensureExtents_exact`**: so a record gets exactly what it needs, in few large pieces.
-/

namespace Libspill

/-! ## One turn -/

/-- A turn of the loop of `ensure_extents`: the allocator, the extent count and the deficit before it,
the extent it takes, and the allocator after it. -/
structure Take where
  al : Alloc
  next : ℕ
  deficit : ℕ
  e : Extent
  al' : Alloc

/-- The turns of the loop of `ensure_extents`. -/
def takes : ℕ → Alloc → ℕ → ℕ → List Take
  | 0, _, _, _ => []
  | k + 1, a, next, deficit =>
    if deficit = 0 then []
    else
      let r := allocFor a next deficit
      ⟨a, next, deficit, r.1, r.2⟩ :: takes k r.2 (next + 1) (deficit - r.1.len)

/-- What a turn may take. -/
structure TakeOk (t : Take) : Prop where
  /-- It finishes the job exactly, or takes less. -/
  exact : t.deficit ≤ t.e.len → t.e.len = roundUp t.deficit
  /-- What it takes whole without finishing the job is worth having. -/
  short : t.e.len < t.deficit → LS_MIN_EXTENT ≤ t.e.len ∧ t.next + 1 < LS_MAX_EXTENTS
  /-- A hole that is taken whole is shorter than the deficit. -/
  whole : lsAllocBest t.al t.deficit = none → t.al'.fileEnd = t.al.fileEnd →
    t.e ∈ t.al.fl ∧ t.e.len < t.deficit
  /-- The file grows only when no hole will do. -/
  tail : t.al.fileEnd < t.al'.fileEnd → (∀ h ∈ t.al.fl, h.len < t.deficit) ∧
    (LS_MAX_EXTENTS - 1 ≤ t.next ∨ ∀ h ∈ t.al.fl, h.len < LS_MIN_EXTENT)
  aligned : LS_ALIGN ∣ t.e.len

section Turn

variable {live : List Extent} {a : Alloc} {next deficit : ℕ}

/-- A length on the grid is below a number if it is below the next one on the grid. -/
theorem lt_of_lt_roundUp {n len : ℕ} (hr : RoundFits n) (hlen : LS_ALIGN ∣ len)
    (h : len < roundUp n) : len < n := by
  rw [roundUp_eq hr] at h
  have hA : LS_ALIGN = 4096 := rfl
  obtain ⟨m, rfl⟩ := hlen
  rw [hA] at h ⊢
  omega

/-- When best fit finds nothing, no hole covers the deficit. -/
theorem lt_of_lsAllocBest (h : Tiled live a) (h0 : 0 < deficit) (hr : RoundFits deficit)
    (hb : lsAllocBest a deficit = none) : ∀ x ∈ a.fl, x.len < deficit := by
  intro x hx
  refine lt_of_lt_roundUp hr (h.fl_al x hx).2 ?_
  have hpos := (le_roundUp hr).1
  unfold lsAllocBest at hb
  dsimp only at hb
  rw [if_neg (by omega)] at hb
  have hspec := bestFit_spec a.fl (roundUp deficit)
  cases hi : bestFit a.fl (roundUp deficit) with
  | some i =>
    rw [hi] at hb
    cases hb
  | none =>
    rw [hi] at hspec
    obtain ⟨j, hj, rfl⟩ := List.mem_iff_getElem.mp hx
    have := hspec j hj
    rwa [holeAt, List.getD_eq_getElem _ _ hj] at this

/-- The largest hole. -/
theorem lsAllocLargest_eq_some {least : ℕ} {r : Extent × Alloc} (h : lsAllocLargest a least = some r) :
    r.1 ∈ a.fl ∧ roundUp least ≤ r.1.len ∧ r.2.fileEnd = a.fileEnd := by
  unfold lsAllocLargest at h
  have hspec := biggest_spec a.fl
  cases hi : biggest a.fl with
  | none =>
    rw [hi] at h
    cases h
  | some i =>
    rw [hi] at h hspec
    dsimp only at h hspec
    split_ifs at h with hge
    cases h
    exact ⟨holeAt_mem hspec.1, hge, rfl⟩

/-- When the largest hole is not worth having, none is. -/
theorem lt_of_lsAllocLargest {least : ℕ} (h : lsAllocLargest a least = none) :
    ∀ x ∈ a.fl, x.len < roundUp least := by
  intro x hx
  obtain ⟨j, hj, rfl⟩ := List.mem_iff_getElem.mp hx
  unfold lsAllocLargest at h
  have hspec := biggest_spec a.fl
  cases hi : biggest a.fl with
  | none =>
    rw [hi] at hspec
    dsimp only at hspec
    omega
  | some i =>
    rw [hi] at h hspec
    dsimp only at h hspec
    split_ifs at h with hge
    have := hspec.2 j hj
    rw [holeAt, List.getD_eq_getElem _ _ hj] at this
    omega

/-- **A turn takes what it may.** -/
theorem takeOk_allocFor (h : Tiled live a) (h0 : 0 < deficit) (hr : RoundFits deficit)
    (hf : AllocFits a next deficit) :
    TakeOk ⟨a, next, deficit, (allocFor a next deficit).1, (allocFor a next deficit).2⟩ := by
  have hA : LS_ALIGN = 4096 := rfl
  have hM : LS_MIN_EXTENT = 65536 := rfl
  have hmin : roundUp LS_MIN_EXTENT = LS_MIN_EXTENT := by decide
  obtain ⟨r, hbest, h'⟩ | ⟨r, hbest, hlarge, h'⟩ | ⟨hbest, hlarge, h'⟩ := allocFor_cases a next deficit
  · obtain ⟨-, h2, h3, -, -⟩ := tiled_lsAllocBest h hbest
    have hle := (le_roundUp hr).1
    rw [h']
    refine ⟨fun _ => h3, fun hlt => ?_, fun hn => ?_, fun hlt => ?_, h3 ▸ dvd_roundUp _⟩
    · dsimp only at hlt
      omega
    · rw [hbest] at hn
      cases hn
    · dsimp only at hlt
      omega
  · obtain ⟨hmem, hge, hend⟩ := lsAllocLargest_eq_some hlarge
    have hlt := lt_of_lsAllocBest h h0 hr hbest.1 _ hmem
    rw [h']
    refine ⟨fun hle => absurd hlt (Nat.not_lt.mpr hle), fun _ => ⟨?_, hbest.2⟩, fun _ _ => ⟨hmem, hlt⟩,
      fun hg => absurd hg (by dsimp only; omega), (h.fl_al _ hmem).2⟩
    dsimp only
    unfold leastFor at hge
    split_ifs at hge with hmin'
    · omega
    · have := (le_roundUp hr).1
      omega
  · have hle := (le_roundUp hr).1
    have hsmall := lt_of_lsAllocBest h h0 hr hbest
    rw [h']
    refine ⟨fun _ => rfl, fun hlt => ?_, fun _ hend => ?_, fun _ => ⟨hsmall, ?_⟩, dvd_roundUp _⟩
    · dsimp only [lsAllocTail] at hlt
      omega
    · have hpos := (tiled_lsAllocTail h h0 (hf hbest hlarge)).2
      dsimp only at hend
      omega
    · refine hlarge.imp (fun hc => Nat.sub_le_of_le_add hc) fun hn x hx => ?_
      have hlt := lt_of_lsAllocLargest hn x hx
      have hs := hsmall x hx
      unfold leastFor at hlt
      split_ifs at hlt with hmin' <;> omega

end Turn

/-! ## All turns -/

/-- What the turns of a loop take together. -/
structure TakesOk (next deficit : ℕ) (ts : List Take) : Prop where
  each : ∀ t ∈ ts, TakeOk t
  few : ts.length ≤ max 1 (LS_MAX_EXTENTS - next)
  large : ∀ t ∈ ts.dropLast, LS_MIN_EXTENT ≤ t.e.len
  exact : total (ts.map Take.e) = roundUp deficit

/-- Taking part of a deficit off leaves a deficit that is rounded up to the same end. -/
theorem roundUp_sub {deficit len : ℕ} (hr : RoundFits deficit) (hlen : LS_ALIGN ∣ len)
    (hle : len ≤ deficit) : RoundFits (deficit - len) ∧ len + roundUp (deficit - len) = roundUp deficit := by
  have hr' : RoundFits (deficit - len) := by
    unfold RoundFits at hr ⊢
    omega
  have hA : LS_ALIGN = 4096 := rfl
  refine ⟨hr', ?_⟩
  rw [roundUp_eq hr, roundUp_eq hr']
  obtain ⟨m, rfl⟩ := hlen
  rw [hA] at hle ⊢
  omega

theorem takes_spec {live : List Extent} {a : Alloc} {k next deficit : ℕ} (h : Tiled live a)
    (hfe : a.fileEnd < 2 ^ 64) (h0 : 0 < deficit) (hr : RoundFits deficit)
    (hfit : ExtentsFit k a next deficit) (hk : max 1 (LS_MAX_EXTENTS - next) ≤ k) :
    TakesOk next deficit (takes k a next deficit) := by
  have hM : LS_MAX_EXTENTS = 8 := rfl
  induction k generalizing live a next deficit with
  | zero => omega
  | succ k ih =>
    obtain ⟨hf, hrest⟩ := hfit h0
    have hok := takeOk_allocFor h h0 hr hf
    have hh := handed_allocFor h hfe h0 hf
    rw [takes, if_neg (by omega)]
    generalize allocFor a next deficit = r at hok hh hrest ⊢
    obtain ⟨e, a'⟩ := r
    dsimp only at hok hh hrest ⊢
    by_cases hcov : deficit ≤ e.len
    · have hnil : takes k a' (next + 1) (deficit - e.len) = [] := by
        rw [Nat.sub_eq_zero_of_le hcov]
        cases k <;> rfl
      rw [hnil]
      refine ⟨by simpa using hok, by simp, fun t ht => (by cases ht), ?_⟩
      simpa using hok.exact hcov
    · have hlt : e.len < deficit := by omega
      obtain ⟨hmin, hnext⟩ := hok.short hlt
      obtain ⟨hr', hsum⟩ := roundUp_sub hr hok.aligned (Nat.le_of_lt hlt)
      dsimp only at hmin hnext hsum hr'
      obtain ⟨g1, g2, g3, g4⟩ := ih hh.tiled hh.fin (by omega) hr' hrest (by omega)
      refine ⟨List.forall_mem_cons.mpr ⟨hok, g1⟩, ?_, fun t ht => ?_, ?_⟩
      · rw [List.length_cons]
        omega
      · cases hts : takes k a' (next + 1) (deficit - e.len) with
        | nil =>
          rw [hts] at ht
          cases ht
        | cons t' ts =>
          rw [hts, List.dropLast_cons_cons] at ht
          rw [hts] at g3
          rcases List.mem_cons.mp ht with rfl | ht
          · exact hmin
          · exact g3 t ht
      · rw [List.map_cons, total_cons, g4, hsum]

/-! ## The loop -/

section Loop

variable {σ : Type} [HonestOs σ] {E : Env} {key : CStr} {need : ℕ}

open HonestOs (clean)

/-- The record after the turns `ts`. -/
structure Took (s s' : Store σ) (key : CStr) (r r' : Rec) (ts : List Take) : Prop where
  find : s'.find key = some r'
  exts : s'.exts r' = s.exts r ++ ts.map Take.e
  extTotal : r'.extTotal = r.extTotal + total (ts.map Take.e)
  al : s'.al = (ts.getLast?.map Take.al').getD s.al

omit [HonestOs σ] in
theorem Took.nil {s : Store σ} {r : Rec} (hk : s.find key = some r) : Took s s key r r [] :=
  ⟨hk, (List.append_nil _).symm, rfl, rfl⟩

omit [HonestOs σ] in
theorem Took.cons {s s₁ s' : Store σ} {r r₁ r' : Rec} {t : Take} {ts : List Take}
    (h : Took s₁ s' key r₁ r' ts) (hx : s₁.exts r₁ = s.exts r ++ [t.e])
    (htot : r₁.extTotal = r.extTotal + t.e.len) (hal : s₁.al = t.al') :
    Took s s' key r r' (t :: ts) where
  find := h.find
  exts := by rw [h.exts, hx, List.append_assoc, List.map_cons, List.singleton_append]
  extTotal := by rw [h.extTotal, htot, List.map_cons, total_cons, Nat.add_assoc]
  al := by
    rw [h.al, hal]
    cases ts with
    | nil => rfl
    | cons t' ts => rw [List.getLast?_cons_cons, List.getLast?_eq_some_getLast (List.cons_ne_nil _ _)]; rfl

/-- A store that gives extents back is clean only if it was. -/
theorem clean_lsFreeExtents {s : Store σ} {es : List Extent}
    (h : clean (lsFreeExtents s es).os) : clean s.os := by
  have hone : ∀ (s : Store σ) e, clean (freeExtent s e).os → clean s.os := by
    intro s e h
    unfold freeExtent at h
    split at h
    · exact h
    · exact HonestOs.ftruncate_clean _ _ h
  have hfold : clean (es.foldl freeExtent s).os → clean s.os := by
    clear h
    induction es generalizing s with
    | nil => exact id
    | cons e es ih => exact fun h => hone s e (ih h)
  unfold lsFreeExtents at h
  split_ifs at h
  · exact h
  · exact hfold h

/-- **The loop adds its turns to the record**, or a call has failed. -/
theorem ensureExtents_takes (hF : 2 ^ 64 ≤ E.fuel) {k fuel : ℕ} {s : Store σ} {r : Rec}
    {live : List Extent} (h : Records s) (ht : Tiled live s.al) (hfe : s.al.fileEnd < 2 ^ 64)
    (hk : s.find key = some r) (hr : RoundFits need)
    (hfit : ExtentsFit k s.al r.next (need - r.extTotal))
    (hturns : need ≤ r.extTotal ∨ max 1 (LS_MAX_EXTENTS - r.next) ≤ k) (hfuel : k < fuel) :
    ∃ rc s', ensureExtents E fuel s key need = some (rc, s') ∧ (clean s'.os → clean s.os ∧ rc = .ok ∧
      ∃ r', Took s s' key r r' (takes k s.al r.next (need - r.extTotal))) := by
  have hM : LS_MAX_EXTENTS = 8 := rfl
  have hA : LS_ALIGN = 4096 := rfl
  induction fuel generalizing k s r live with
  | zero => omega
  | succ fuel ih =>
    have hneed : need < 2 ^ 64 := by
      unfold RoundFits at hr
      omega
    rw [ensureExtents, recAt_of_find hk]
    dsimp only
    by_cases hlt : r.extTotal < need
    swap
    · rw [if_neg hlt]
      have hnil : takes k s.al r.next (need - r.extTotal) = [] := by
        rw [Nat.sub_eq_zero_of_le (Nat.not_lt.mp hlt)]
        cases k <;> rfl
      rw [hnil]
      exact ⟨_, s, rfl, fun hc => ⟨hc, rfl, r, .nil hk⟩⟩
    obtain ⟨k, rfl⟩ : ∃ m, k = m + 1 := ⟨k - 1, by omega⟩
    have hd : 0 < need - r.extTotal := by omega
    have hrd : RoundFits (need - r.extTotal) := by
      unfold RoundFits at hr ⊢
      omega
    rw [if_pos hlt, sub64_eq (by omega) hneed, takes, if_neg (by omega)]
    obtain ⟨hf, hrest⟩ := hfit hd
    have hok := takeOk_allocFor ht hd hrd hf
    have hh := handed_allocFor ht hfe hd hf
    generalize allocFor s.al r.next (need - r.extTotal) = a at hok hh hrest ⊢
    obtain ⟨e, al⟩ := a
    dsimp only at hok hh hrest ⊢
    have heb := hh.tiled.live_bounds (List.mem_cons_self ..)
    have hefin := hh.fin
    obtain ⟨rc, s₂, hz1, hz2⟩ := zeroRange_spec hF { s with al := al } e.foff e.len
      (by simp only [Span.fin] at heb; omega)
    rw [hz1]
    dsimp only
    by_cases hrc : rc ≠ .ok
    · rw [if_pos hrc]
      exact ⟨rc, _, rfl, fun hc => absurd (hz2.clean (clean_lsFreeExtents hc)).2 hrc⟩
    rw [not_not] at hrc
    subst hrc
    rw [if_neg (by simp)]
    have hs₂ : s₂ = { s with os := s₂.os, al := al } := hz2.os
    have hrec₂ : Records s₂ := by
      rw [hs₂]
      exact h.withFile
    have hk₂ : s₂.find key = some r := by rw [hs₂]; exact hk
    have hx₂ : s₂.exts r = s.exts r := by rw [hs₂]; rfl
    have hcov : e.len ≤ roundUp (need - r.extTotal) := by
      by_cases hle : need - r.extTotal ≤ e.len
      · exact (hok.exact hle).le
      · have := (le_roundUp hrd).1
        omega
    have hup := (le_roundUp hrd).2
    obtain ⟨r₃, ha⟩ := adopted_adopt (e := e) hrec₂ hk₂ (by unfold RoundFits at hr; omega)
    generalize adopt s₂ key e = s₃ at ha ⊢
    have hk₃ : s₃.find key = some r₃ := by rw [ha.find, if_pos rfl]
    have hr₃ := ha.recEq
    have hnext₃ : r₃.next = r.next + 1 := by rw [hr₃]
    have htot₃ : r₃.extTotal = r.extTotal + e.len := by rw [hr₃]
    have hal₃ : s₃.al = al := by rw [ha.rest, hs₂]
    have hos₃ : s₃.os = s₂.os := by rw [ha.rest]
    have hx₃ : s₃.exts r₃ = s.exts r ++ [e] := by rw [ha.exts, hx₂]
    have hturns₃ : need ≤ r₃.extTotal ∨ max 1 (LS_MAX_EXTENTS - r₃.next) ≤ k := by
      by_cases hle : need - r.extTotal ≤ e.len
      · exact Or.inl (by omega)
      · have := (hok.short (Nat.not_le.mp hle)).2
        dsimp only at this
        exact Or.inr (by omega)
    have hsub : need - r₃.extTotal = need - r.extTotal - e.len := by omega
    obtain ⟨rc, s', g1, g2⟩ := ih (ha.records hrec₂ hk₂) (hal₃ ▸ hh.tiled) (hal₃ ▸ hh.fin) hk₃
      (by rw [hal₃, hnext₃, hsub]; exact hrest) hturns₃ (by omega)
    refine ⟨rc, s', g1, fun hc => ?_⟩
    obtain ⟨g3, g4, r', g5⟩ := g2 hc
    rw [hos₃] at g3
    rw [hal₃, hnext₃, hsub] at g5
    exact ⟨(hz2.clean g3).1, g4, r', g5.cons hx₃ htot₃ hal₃⟩

/-- A record has got what it needs: the turns of the loop, and what they add up to. -/
structure Exactly (s s' : Store σ) (key : CStr) (r : Rec) (need : ℕ) (ts : List Take) : Prop where
  /-- The turns are those of the loop, and their extents are appended to the record. -/
  turns : ts = takes LS_MAX_EXTENTS s.al r.next (need - r.extTotal)
  took : ∃ r', Took s s' key r r' ts ∧ r'.extTotal = roundUp need
  few : ts.length ≤ max 1 (LS_MAX_EXTENTS - r.next)
  large : ∀ t ∈ ts.dropLast, LS_MIN_EXTENT ≤ t.e.len
  each : ∀ t ∈ ts, TakeOk t

end Loop

end Libspill
