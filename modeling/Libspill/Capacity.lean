import Libspill.FileIo
import Libspill.Layout
import Libspill.Tier

set_option autoImplicit false

/-!
# Capacity

`ensure_extents` and what it is made of: an extent is taken, zeroed and pushed, or given back. The
bytes of every record stay where they are, and a record that grows reads as zero in its new part.

* `Pinned s s'`: the change left every record where it was.
* `adopt_spec`: pushing a zeroed extent.
* **`ensureExtents_spec`**: the loop ends, and the record has the capacity or a call has failed.
-/

namespace Libspill

variable {σ : Type} [HonestOs σ] {E : Env}

open HonestOs (clean)

/-- Every record is pinned. -/
abbrev Pinned (s s' : Store σ) : Prop := Kept (fun _ _ => True) s s'

/-! ## Changes of the file and of the allocator -/

section File

variable {s : Store σ} {os : σ} {al : Alloc} {spare : List Extent}

omit [HonestOs σ] in
theorem Records.withFile (h : Records s) : Records { s with os, al } where
  wf := h.wf
  ok k r hk := ⟨(h.ok k r hk).noExt, (h.ok k r hk).next_le, (h.ok k r hk).extTotal,
    (h.ok k r hk).noMem, (h.ok k r hk).hasMem, (h.ok k r hk).ext_lt, (h.ok k r hk).mem_lt⟩
  ext_inj := h.ext_inj
  mem_inj := h.mem_inj

omit [HonestOs σ] in
theorem Tiered.withFile (h : Tiered s) : Tiered { s with os, al } :=
  ⟨h.lru_nodup, h.lru_mem, h.resident, h.resident_lt, h.fresh, h.noTier⟩

omit [HonestOs σ] in
theorem Laid.withFile (h : Laid spare s) {spare' : List Extent} (ht : Tiled (spare' ++ s.live) al) :
    Laid spare' { s with os, al } :=
  ⟨h.records.withFile, h.tiered.withFile, ht, h.teardown⟩

omit [HonestOs σ] in
theorem loc_mem_covers {r : Rec} {i x : ℕ} (hl : s.loc r i = some (.file x)) :
    Covers (s.exts r) x := by
  unfold Store.loc locOf at hl
  cases hm : r.mem with
  | some p => simp [hm] at hl
  | none =>
    simp only [hm, Option.map_eq_some_iff] at hl
    obtain ⟨y, hy, hyx⟩ := hl
    cases hyx
    exact covers_of_locate hy

omit [HonestOs σ] in
theorem covers_live {key : CStr} {r : Rec} (h : s.toc.WF) (hk : s.find key = some r) {x : ℕ}
    (hx : Covers (s.exts r) x) : Covers s.live x := by
  obtain ⟨e, he, hx⟩ := hx
  exact ⟨e, exts_subset_live h hk he, hx⟩

omit [HonestOs σ] in
/-- Two records share no byte of the file. -/
theorem exts_apart (h : Laid spare s) {k k' : CStr} {r q : Rec} (hk : s.find k = some r)
    (hk' : s.find k' = some q) (hne : k ≠ k') {x : ℕ} (hx : Covers (s.exts r) x) :
    ¬ Covers (s.exts q) x := by
  obtain ⟨l₁, l₂, hl⟩ := List.append_of_mem ((find_iff_mem h.records.wf).mp hk).1
  have hq := ((find_iff_mem h.records.wf).mp hk').1
  have hkq : r ≠ q := by
    rintro rfl
    exact hne ((key_of_find h.records.wf hk).symm.trans (key_of_find h.records.wf hk'))
  have hq' : q ∈ l₁ ++ l₂ := by
    rw [hl, List.mem_append, List.mem_cons] at hq
    rw [List.mem_append]
    tauto
  have hperm := live_perm (s := s) (r := r) (l := l₁ ++ l₂) (by rw [hl]; exact List.perm_middle)
  have hap := (List.pairwise_append.mp h.tiled.apart).2.1
  rw [hperm.pairwise_iff fun {a b} (hab : Span.Apart a b) => hab.symm] at hap
  rintro ⟨b, hb, hbx⟩
  obtain ⟨a, ha, hax⟩ := hx
  exact (List.pairwise_append.mp hap).2.2 a ha b (List.mem_flatMap.mpr ⟨q, hq', hb⟩) x hax hbx

theorem slack_withFile (h : s.toc.WF) (hs : Slack s)
    (hb : ∀ x, Covers s.live x → Store.fbyte { s with os, al } x = s.fbyte x) :
    Slack { s with os, al } where
  ext k r i x hk hi hx :=
    (hb x (covers_live h hk (covers_of_locate hx))).trans (hs.ext k r i x hk hi hx)
  mem := hs.mem

/-- A change of the file that leaves the extents of the records without a buffer alone. -/
theorem kept_withFile (hc : clean os → clean s.os) (hs : Slack s → Slack { s with os, al })
    (hb : ∀ k r x, s.find k = some r → r.mem = none → Covers (s.exts r) x →
      Store.fbyte { s with os, al } x = s.fbyte x) : Pinned s { s with os, al } where
  opts := ⟨rfl, rfl⟩
  clean := hc
  slack := hs
  none _ hk := hk
  some k r hk := by
    refine ⟨r, hk, rfl, rfl, rfl, List.prefix_rfl, fun _ => ?_, fun _ _ _ h => h⟩
    funext i
    show (s.loc r i).elim 0 _ = (s.loc r i).elim 0 _
    cases hl : s.loc r i with
    | none => rfl
    | some l =>
      cases l with
      | mem p i => rfl
      | file x =>
        refine hb k r x hk ?_ (loc_mem_covers hl)
        unfold Store.loc locOf at hl
        cases hm : r.mem with
        | none => rfl
        | some p => simp [hm] at hl
  arr _ _ hf := ⟨hf, fun _ _ => rfl⟩

/-- A change of the file that leaves the extents of the records alone. -/
theorem pinned_withFile (hwf : s.toc.WF) (hc : clean os → clean s.os)
    (hb : ∀ x, Covers s.live x → Store.fbyte { s with os, al } x = s.fbyte x) :
    Pinned s { s with os, al } :=
  kept_withFile hc (fun hs => slack_withFile hwf hs hb) fun _ _ x hk _ hx =>
    hb x (covers_live hwf hk hx)

/-- Freeing an extent that belongs to nobody. -/
theorem freeExtent_spec {e : Extent} (h : Laid (e :: spare) s) (hfe : s.al.fileEnd < 2 ^ 64)
    (hfit : (flInsert s.al e.foff e.len).1.fileEnd ≤ s.flen) :
    ∃ os al, freeExtent s e = { s with os, al } ∧ Laid spare { s with os, al } ∧
      al.fileEnd ≤ Store.flen { s with os, al } ∧ (clean os → clean s.os) ∧
      ∀ x, x < al.fileEnd → Store.fbyte { s with os, al } x = s.fbyte x := by
  have hf := freed_flInsert h.tiled hfe
  unfold freeExtent
  generalize flInsert s.al e.foff e.len = r at hf hfit ⊢
  obtain ⟨al, cut⟩ := r
  rcases hf.cut with ⟨hcut, -⟩ | hcut
  · dsimp only at hcut
    subst hcut
    exact ⟨s.os, al, rfl, h.withFile hf.tiled, hfit, id, fun _ _ => rfl⟩
  · dsimp only at hcut
    subst hcut
    refine ⟨_, al, rfl, h.withFile hf.tiled, ?_, HonestOs.ftruncate_clean _ _, fun x hx => ?_⟩
    · cases hr : (Os.ftruncate s.os al.fileEnd).1 with
      | ok _ => simp [Store.flen, HonestOs.ftruncate_ok _ _ hr, File.truncate]
      | error e =>
        rw [Store.flen, (HonestOs.ftruncate_err _ _ _ hr).2]
        exact hfit
    · cases hr : (Os.ftruncate s.os al.fileEnd).1 with
      | ok _ =>
        simp only [Store.fbyte, HonestOs.ftruncate_ok _ _ hr, File.truncate]
        exact if_pos hx
      | error e => rw [Store.fbyte, (HonestOs.ftruncate_err _ _ _ hr).2, Store.fbyte]

end File

/-! ## Pushing an extent -/

section Push

variable {s : Store σ} {key : CStr} {r : Rec} {e : Extent} {spare : List Extent}

/-- The arrays after a push: the new one agrees with the old one, and no other changes where a
snapshot can see. -/
structure Pushed (s : Store σ) (r : Rec) (e : Extent) (arr : Ptr → ℕ → Extent) (arrNext p c : ℕ) :
    Prop where
  next_le : s.arrNext ≤ arrNext
  lt : p < arrNext
  cap : r.next + 1 ≤ c
  old : ∀ q, r.ext = some q → ∀ i, i < r.next → arr p i = s.arr q i
  last : arr p r.next = e
  own : r.ext = some p ∨ s.arrNext ≤ p
  others : ∀ q i, q < s.arrNext → (r.ext = some q → i < r.next) → arr q i = s.arr q i

/-- The record after a push. -/
abbrev pushedRec (r : Rec) (p c : ℕ) : Rec := { r with ext := some p, ncap := c, next := r.next + 1 }

omit [HonestOs σ] in
/-- A push depends on the record's own array only. -/
theorem extPush_arrays (hno : r.ext = none → r.next = 0 ∧ r.ncap = 0) (hle : r.next ≤ r.ncap)
    (hext : ∀ p, r.ext = some p → p < s.arrNext) (hk : s.find key = some r) :
    ∃ arr arrNext retired p c f,
      extPush s key e = Store.setRec { s with arr, arrNext, retired } key f ∧
        f r = pushedRec r p c ∧ Pushed s r e arr arrNext p c := by
  unfold extPush
  rw [recAt_of_find hk]
  dsimp only
  split_ifs with hfull
  · refine ⟨_, _, _, s.arrNext, if r.ncap ≠ 0 then r.ncap * 2 else 4, _, rfl, rfl,
      Nat.le_succ _, Nat.lt_succ_self _, ?_, fun q hq i hi => ?_, ?_, Or.inr (Nat.le_refl _),
      fun q i hq hi => ?_⟩
    · split_ifs <;> omega
    · rw [Function.update_self, Function.update_of_ne (by omega), if_pos hi, hq, Option.getD_some]
    · rw [Function.update_self, Function.update_self]
    · rw [Function.update_of_ne hq.ne]
  · obtain ⟨p, hp⟩ : ∃ p, r.ext = some p := by
      cases hr : r.ext with
      | none => exact absurd (by rw [(hno hr).1, (hno hr).2]) hfull
      | some p => exact ⟨p, rfl⟩
    have hpd : r.ext.getD 0 = p := by rw [hp, Option.getD_some]
    refine ⟨_, _, _, p, r.ncap, fun r => { r with next := r.next + 1 }, rfl, ?_, Nat.le_refl _,
      hext p hp, by omega, fun q hq i hi => ?_, ?_, Or.inl hp, fun q i hq hi => ?_⟩
    · simp only [pushedRec, hp]
    · rw [hp] at hq
      cases hq
      rw [hpd, Function.update_self, Function.update_of_ne (by omega)]
    · rw [hpd, Function.update_self, Function.update_self]
    · rw [hpd]
      by_cases hqp : q = p
      · subst hqp
        rw [Function.update_self, Function.update_of_ne (by have := hi hp; omega)]
      · rw [Function.update_of_ne hqp]

omit [HonestOs σ] in
theorem extPush_spec (h : RecOk s r) (hk : s.find key = some r) :
    ∃ arr arrNext retired p c f,
      extPush s key e = Store.setRec { s with arr, arrNext, retired } key f ∧
        f r = pushedRec r p c ∧ Pushed s r e arr arrNext p c :=
  extPush_arrays h.noExt h.next_le h.ext_lt hk

/-- The table after an extent was pushed to the record of `key`. -/
structure Adopted (s s' : Store σ) (key : CStr) (r r' : Rec) (e : Extent) : Prop where
  rest : s' = { s with toc := s'.toc, arr := s'.arr, arrNext := s'.arrNext, retired := s'.retired }
  wf : s'.toc.WF
  find : ∀ k, s'.find k = if key = k then some r' else s.find k
  perm : ∃ l, s.recs.Perm (r :: l) ∧ s'.recs.Perm (r' :: l) ∧
    ∀ q ∈ l, q.key ≠ key ∧ s.find q.key = some q
  recEq : r' = { r with ext := r'.ext, ncap := r'.ncap, next := r.next + 1
                        extTotal := r.extTotal + e.len }
  cap : r'.next ≤ r'.ncap
  arrNext : s.arrNext ≤ s'.arrNext
  exts : s'.exts r' = s.exts r ++ [e]
  others : ∀ k q, k ≠ key → s.find k = some q → s'.exts q = s.exts q
  own : ∃ p, r'.ext = some p ∧ p < s'.arrNext ∧ (r.ext = some p ∨ s.arrNext ≤ p)
  frozen : ∀ p n, Frozen s p n → ∀ i, i < n → s'.arr p i = s.arr p i

omit [HonestOs σ] in
theorem adopted_adopt (h : Records s) (hk : s.find key = some r) (hlt : r.extTotal + e.len < 2 ^ 64) :
    ∃ r', Adopted s (adopt s key e) key r r' e := by
  have hok := h.ok _ _ hk
  obtain ⟨arr, arrNext, retired, p, c, f, hpush, hf, hp⟩ := extPush_spec (e := e) hok hk
  have hkey : (f r).key = r.key := by rw [hf]
  let s₁ : Store σ := { s with arr, arrNext, retired }
  have hk₁ : s₁.find key = some r := hk
  have hwf₂ := wf_setRec (s := s₁) h.wf hk₁ hkey
  have hfind₂ := find_setRec (s := s₁) h.wf hk₁ hkey
  have hk₂ : (s₁.setRec key f).find key = some (f r) := by rw [hfind₂, if_pos rfl]
  let g : Rec → Rec := fun r => { r with extTotal := add64 r.extTotal e.len }
  have hgkey : (g (f r)).key = (f r).key := rfl
  have hadopt : adopt s key e = (s₁.setRec key f).setRec key g := by rw [adopt, hpush]
  have hr' : g (f r) = { pushedRec r p c with extTotal := r.extTotal + e.len } := by
    simp only [g, hf]
    rw [add64_eq hlt]
  have hotherarr : ∀ k q, k ≠ key → s.find k = some q → ∀ a, q.ext = some a →
      ∀ i, i < q.next → arr a i = s.arr a i := by
    intro k q hkk hq a ha i _
    exact hp.others a i ((h.ok _ _ hq).ext_lt a ha) fun hra => absurd
      (h.ext_inj _ _ _ _ a hq hk ha hra) hkk
  refine ⟨g (f r), ?_⟩
  rw [hadopt]
  refine ⟨rfl, wf_setRec hwf₂ hk₂ hgkey, fun k => ?_, ?_, ?_, ?_, hp.next_le, ?_, ?_, ?_, ?_⟩
  · rw [find_setRec hwf₂ hk₂ hgkey, hfind₂]
    split_ifs <;> rfl
  · obtain ⟨l, h1, h2, h3⟩ := perm_setRec (s := s₁) h.wf hk₁ hkey
    obtain ⟨l', h4, h5, -⟩ := perm_setRec hwf₂ hk₂ hgkey
    have hll : l'.Perm l := (List.perm_cons _).mp (h4.symm.trans h2)
    exact ⟨l, h1, h5.trans (hll.cons _), h3⟩
  · rw [hr']
  · rw [hr']
    exact hp.cap
  · rw [hr']
    show (List.range (r.next + 1)).map (arr p) = s.exts r ++ [e]
    rw [List.range_succ, List.map_append, List.map_singleton, hp.last]
    congr 1
    unfold Store.exts
    cases hx : r.ext with
    | none => rw [(hok.noExt hx).1, List.range_zero, List.map_nil]
    | some q =>
      apply List.map_congr_left
      intro i hi
      exact hp.old q hx i (List.mem_range.mp hi)
  · intro k q hkk hq
    exact exts_congr (s := s) (hotherarr k q hkk hq)
  · rw [hr']
    exact ⟨p, rfl, hp.lt, hp.own⟩
  · intro q n hq i hi
    exact hp.others q i hq.1 fun hrq => lt_of_lt_of_le hi (hq.2 key r hk hrq)

namespace Adopted

variable {s' : Store σ} {r' : Rec}

omit [HonestOs σ] in
theorem recOk (ha : Adopted s s' key r r' e) (h : Records s) (hk : s.find key = some r) :
    RecOk s' r' := by
  have hok := h.ok _ _ hk
  obtain ⟨p, hp1, hp2, -⟩ := ha.own
  have hr := ha.recEq
  have hsize : r'.size = r.size := by rw [hr]
  have hmem : r'.mem = r.mem := by rw [hr]
  have hcap : r'.memCap = r.memCap := by rw [hr]
  have htot : r'.extTotal = r.extTotal + e.len := by rw [hr]
  refine ⟨fun hn => ?_, ha.cap, ?_, ?_, ?_, ?_, ?_⟩
  · rw [hp1] at hn
    cases hn
  · rw [htot, ha.exts, total_append, total_cons, total_nil, hok.extTotal, Nat.add_zero]
  · rw [hmem, hcap, hsize, htot]
    intro hn
    exact ⟨(hok.noMem hn).1, (hok.noMem hn).2.trans (Nat.le_add_right _ _)⟩
  · rw [hmem, hcap, hsize]
    exact hok.hasMem
  · intro q hq
    rw [hp1] at hq
    cases hq
    exact hp2
  · rw [hmem, ha.rest]
    exact hok.mem_lt

omit [HonestOs σ] in
theorem records (ha : Adopted s s' key r r' e) (h : Records s) (hk : s.find key = some r) :
    Records s' := by
  have hmem : r'.mem = r.mem := by rw [ha.recEq]
  have hm : ∀ k q p, s'.find k = some q → q.mem = some p → ∃ q', s.find k = some q' ∧ q'.mem = some p := by
    intro k q p hq hp
    rw [ha.find] at hq
    split_ifs at hq with hkk
    · cases hq
      exact ⟨r, hkk ▸ hk, hmem ▸ hp⟩
    · exact ⟨q, hq, hp⟩
  -- an array is the record's old one, a fresh one, or another record's
  have hx : ∀ k q p, s'.find k = some q → q.ext = some p →
      (∃ q', s.find k = some q' ∧ q'.ext = some p) ∨ k = key ∧ s.arrNext ≤ p := by
    intro k q p hq hp
    rw [ha.find] at hq
    split_ifs at hq with hkk
    · cases hq
      obtain ⟨p', hp1, -, hp3⟩ := ha.own
      rw [hp1] at hp
      cases hp
      exact hp3.imp (fun h => ⟨r, hkk ▸ hk, h⟩) fun h => ⟨hkk.symm, h⟩
    · exact Or.inl ⟨q, hq, hp⟩
  refine ⟨ha.wf, fun k q hq => ?_, ?_, ?_⟩
  · rw [ha.find] at hq
    split_ifs at hq with hkk
    · cases hq
      exact ha.recOk h hk
    · have hok := h.ok k q hq
      refine ⟨hok.noExt, hok.next_le, ?_, hok.noMem, hok.hasMem,
        fun p hp => (hok.ext_lt p hp).trans_le ha.arrNext, fun p hp => ?_⟩
      · rw [ha.others k q (Ne.symm hkk) hq]
        exact hok.extTotal
      · rw [ha.rest]
        exact hok.mem_lt p hp
  · intro k k' q q' p hq hq' hp hp'
    rcases hx k q p hq hp with ⟨a, ha1, ha2⟩ | ⟨h1, h2⟩ <;>
      rcases hx k' q' p hq' hp' with ⟨b, hb1, hb2⟩ | ⟨h3, h4⟩
    · exact h.ext_inj _ _ _ _ p ha1 hb1 ha2 hb2
    · exact absurd ((h.ok _ _ ha1).ext_lt p ha2) (Nat.not_lt.mpr h4)
    · exact absurd ((h.ok _ _ hb1).ext_lt p hb2) (Nat.not_lt.mpr h2)
    · rw [h1, h3]
  · intro k k' q q' p hq hq' hp hp'
    obtain ⟨a, ha1, ha2⟩ := hm k q p hq hp
    obtain ⟨b, hb1, hb2⟩ := hm k' q' p hq' hp'
    exact h.mem_inj _ _ _ _ p ha1 hb1 ha2 hb2

omit [HonestOs σ] in
theorem tiered (ha : Adopted s s' key r r' e) (h : Tiered s) (hk : s.find key = some r) :
    Tiered s' := by
  have hmem : r'.mem = r.mem := by rw [ha.recEq]
  have hcap : r'.memCap = r.memCap := by rw [ha.recEq]
  have hfind : ∀ k, (∃ q, s'.find k = some q ∧ q.mem ≠ none) ↔
      ∃ q, s.find k = some q ∧ q.mem ≠ none := by
    intro k
    rw [ha.find]
    split_ifs with hkk
    · subst hkk
      simp [hk, hmem]
    · rfl
  refine ⟨by rw [ha.rest]; exact h.lru_nodup, fun k => ?_, ?_, ?_, ?_, ?_⟩
  · rw [hfind k, ← h.lru_mem, ha.rest]
  · obtain ⟨l, h1, h2, -⟩ := ha.perm
    rw [(h2.map Rec.memCap).sum_eq, List.map_cons, hcap, ← List.map_cons (f := Rec.memCap),
      ← (h1.map Rec.memCap).sum_eq, ← h.resident, ha.rest]
  · rw [ha.rest]
    exact h.resident_lt
  · rw [ha.rest]
    exact h.fresh
  · intro hb k q hq
    rw [ha.rest] at hb
    rw [ha.find] at hq
    split_ifs at hq with hkk
    · cases hq
      rw [hmem]
      exact h.noTier hb key r hk
    · exact h.noTier hb k q hq

omit [HonestOs σ] in
theorem live_perm (ha : Adopted s s' key r r' e) : s'.live.Perm (e :: s.live) := by
  obtain ⟨l, h1, h2, h3⟩ := ha.perm
  have hl : l.flatMap s'.exts = l.flatMap s.exts :=
    List.flatMap_congr fun q hq => ha.others _ q (h3 q hq).1 (h3 q hq).2
  refine (Libspill.live_perm h2).trans ?_
  rw [ha.exts, hl, List.append_assoc, List.singleton_append]
  exact List.perm_middle.trans ((Libspill.live_perm h1).symm.cons e)

omit [HonestOs σ] in
theorem laid (ha : Adopted s s' key r r' e) (h : Laid (e :: spare) s) (hk : s.find key = some r) :
    Laid spare s' where
  records := ha.records h.records hk
  tiered := ha.tiered h.tiered hk
  tiled := by
    rw [ha.rest]
    refine h.tiled.perm ?_
    rw [List.cons_append]
    refine List.perm_middle.symm.trans (List.Perm.append_left _ ?_)
    have := ha.live_perm.symm
    rwa [ha.rest] at this
  teardown := by
    rw [ha.rest]
    exact h.teardown

theorem byteAt_eq (ha : Adopted s s' key r r' e) : s'.byteAt = s.byteAt := by
  rw [ha.rest]
  rfl

omit [HonestOs σ] in
/-- A byte of the record is where it was, or in the new extent. -/
theorem loc_eq (ha : Adopted s s' key r r' e) (i : ℕ) :
    s'.loc r' i = s.loc r i ∨ s.loc r i = none ∧ ∃ x, e.Has x ∧ s'.loc r' i = some (.file x) := by
  have hmem : r'.mem = r.mem := by rw [ha.recEq]
  simp only [Store.loc, hmem, ha.exts]
  cases hm : r.mem with
  | some p => exact Or.inl rfl
  | none =>
    simp only [locOf]
    by_cases hi : i < total (s.exts r)
    · rw [locate_append_left hi]
      exact Or.inl rfl
    · rw [locate_append_right (by omega), locate_eq_none (l := s.exts r) (by omega)]
      simp only [locate]
      split_ifs with hlt
      · exact Or.inr ⟨rfl, _, ⟨by omega, by omega⟩, rfl⟩
      · exact Or.inl rfl

theorem slack (ha : Adopted s s' key r r' e) (hs : Slack s) (hk : s.find key = some r)
    (hz : ∀ x, e.Has x → s.fbyte x = 0) : Slack s' where
  ext k q i x hq hi hx := by
    rw [ha.byteAt_eq]
    rw [ha.find] at hq
    split_ifs at hq with hkk
    · cases hq
      have hsize : r'.size = r.size := by rw [ha.recEq]
      rw [ha.exts] at hx
      by_cases hlt : i < total (s.exts r)
      · rw [locate_append_left hlt] at hx
        exact hs.ext key r i x hk (hsize ▸ hi) hx
      · rw [locate_append_right (by omega)] at hx
        have := covers_of_locate hx
        simp only [covers_cons, covers_nil, or_false] at this
        exact hz x this
    · rw [ha.others k q (Ne.symm hkk) hq] at hx
      exact hs.ext k q i x hq hi hx
  mem k q i p hq hi hp := by
    have hmem : s'.mem = s.mem := by rw [ha.rest]
    rw [hmem]
    rw [ha.find] at hq
    split_ifs at hq with hkk
    · cases hq
      have hr := ha.recEq
      rw [hr] at hi hp
      exact hs.mem key r i p hk hi hp
    · exact hs.mem k q i p hq hi hp

theorem pinned (ha : Adopted s s' key r r' e) (hk : s.find key = some r)
    (hz : ∀ x, e.Has x → s.fbyte x = 0) : Pinned s s' where
  opts := by
    rw [ha.rest]
    exact ⟨rfl, rfl⟩
  clean hc := by
    rw [ha.rest] at hc
    exact hc
  slack hs := ha.slack hs hk hz
  none k hn := by
    rw [ha.find, if_neg]
    · exact hn
    · rintro rfl
      rw [hk] at hn
      cases hn
  some k q hq := by
    by_cases hkk : key = k
    · subst hkk
      rw [hk] at hq
      cases hq
      refine ⟨r', by rw [ha.find, if_pos rfl], by rw [ha.recEq], by rw [ha.recEq], by rw [ha.recEq],
        by rw [ha.exts]; exact List.prefix_append _ _, fun _ => ?_, fun _ i l hl => ?_⟩
      · funext i
        rw [Store.content, Store.content, ha.byteAt_eq]
        rcases ha.loc_eq i with hi | ⟨hi, x, hx, hi'⟩
        · rw [hi]
        · rw [hi, hi']
          exact hz x hx
      · rcases ha.loc_eq i with hi | ⟨hi, -⟩
        · rw [hi, hl]
        · rw [hi] at hl
          cases hl
    · have hex := ha.others k q (Ne.symm hkk) hq
      refine ⟨q, by rw [ha.find, if_neg hkk, hq], rfl, rfl, rfl, by rw [hex], fun _ => ?_,
        fun _ i l hl => ?_⟩
      · funext i
        rw [Store.content, Store.content, ha.byteAt_eq, Store.loc, Store.loc, hex]
      · rwa [Store.loc, hex]
  arr p n hf := by
    refine ⟨⟨hf.1.trans_le ha.arrNext, fun k q hq hp => ?_⟩, ha.frozen p n hf⟩
    rw [ha.find] at hq
    split_ifs at hq with hkk
    · cases hq
      obtain ⟨p', hp1, -, hp3⟩ := ha.own
      rw [hp1] at hp
      cases hp
      rcases hp3 with hp3 | hp3
      · have := hf.2 key r hk hp3
        rw [ha.recEq]
        exact this.trans (Nat.le_succ _)
      · exact absurd hf.1 (Nat.not_lt.mpr hp3)
    · exact hf.2 k q hq hp

end Adopted

end Push

/-! ## `ensure_extents` -/

section Ensure

variable {s : Store σ} {key : CStr} {r : Rec} {spare : List Extent}

omit [HonestOs σ] in
theorem total_exts_le (h : Laid spare s) (hk : s.find key = some r) :
    total spare + total (s.exts r) ≤ s.al.fileEnd - LS_SUPER_SIZE := by
  have ht := h.tiled.total_live_le
  rw [total_append] at ht
  obtain ⟨l₁, l₂, hl⟩ := List.append_of_mem ((find_iff_mem h.records.wf).mp hk).1
  have := total_perm (live_perm (by rw [hl]; exact List.perm_middle))
  rw [total_append] at this
  omega

theorem fileEnd_lt (h : Sound s) : s.al.fileEnd < 2 ^ 63 := by
  have h1 := h.flen
  have h2 := HonestOs.len_le s.os
  rw [Store.flen] at h1
  have : OFF_MAX = 2 ^ 63 - 1 := rfl
  omega

/-- What a change of a record's extents leaves alone besides the bytes. -/
structure Stretched (s s' : Store σ) (key : CStr) (r r' : Rec) : Prop where
  find : s'.find key = some r'
  others : ∀ k, k ≠ key → s'.find k = s.find k
  mem : s'.mem = s.mem ∧ s'.memNext = s.memNext
  lru : s'.lru = s.lru
  resident : s'.resident = s.resident
  recMem : r'.mem = r.mem ∧ r'.memCap = r.memCap
  grown : r.extTotal ≤ r'.extTotal

/-- **`ensure_extents` ends**: the record has the capacity, or a call has failed. -/
theorem ensureExtents_spec (hF : 2 ^ 64 ≤ E.fuel) (fuel : ℕ) {s : Store σ} {r : Rec} (h : Sound s)
    (hk : s.find key = some r) {need : ℕ} (hneed : need < 2 ^ 64)
    (hfit : ∀ k, ExtentsFit k s.al r.next (need - r.extTotal)) (hfuel : need - r.extTotal < fuel) :
    ∃ rc s' r', ensureExtents E fuel s key need = some (rc, s') ∧ Sound s' ∧ Pinned s s' ∧
      Stretched s s' key r r' ∧ (clean s'.os → rc = .ok) ∧ (rc = .ok → need ≤ r'.extTotal) := by
  induction fuel generalizing s r with
  | zero => omega
  | succ fuel ih =>
    rw [ensureExtents, recAt_of_find hk]
    dsimp only
    by_cases hlt : r.extTotal < need
    swap
    · rw [if_neg hlt]
      exact ⟨_, s, r, rfl, h, .refl, ⟨hk, fun _ _ => rfl, ⟨rfl, rfl⟩, rfl, rfl, ⟨rfl, rfl⟩, Nat.le_refl _⟩, fun _ => rfl,
        fun _ => by omega⟩
    have hfe := fileEnd_lt h
    rw [if_pos hlt, sub64_eq (by omega) hneed]
    have hd : 0 < need - r.extTotal := by omega
    have hh := handed_allocFor (a := s.al) h.laid.tiled (by omega) hd (hfit 1 hd).1
    have hnext : ∀ k, ExtentsFit k (allocFor s.al r.next (need - r.extTotal)).2 (r.next + 1)
        (need - r.extTotal - (allocFor s.al r.next (need - r.extTotal)).1.len) :=
      fun k => (hfit (k + 1) hd).2
    generalize allocFor s.al r.next (need - r.extTotal) = a at hh hnext ⊢
    obtain ⟨e, al⟩ := a
    dsimp only at hh hnext ⊢
    have heb := hh.tiled.live_bounds (e := e) (by simp)
    have hefin := hh.fin
    obtain ⟨rc, s₂, hz1, hz2⟩ := zeroRange_spec hF { s with al := al } e.foff e.len
      (by simp only [Span.fin] at heb; omega)
    rw [hz1]
    dsimp only
    have hs₂ : s₂ = { s with os := s₂.os, al := al } := hz2.os
    have hlaid₂ : Laid [e] s₂ := by
      rw [hs₂]
      exact h.laid.withFile hh.tiled
    -- the live extents are apart from the one that was zeroed
    have hout : ∀ x, Covers s.live x → s₂.fbyte x = s.fbyte x := by
      rintro x ⟨b, hb, hbx⟩
      refine hz2.outside x ?_
      have := (List.pairwise_cons.mp hh.tiled.apart).1 b (by simpa using hb) x
      simp only [Span.Has] at this hbx
      omega
    have hflen₂ : s.flen ≤ s₂.flen := hz2.len
    by_cases hrc : rc ≠ .ok
    · rw [if_pos hrc]
      have hal₂ : s₂.al = al := by rw [hs₂]
      have hback : (flInsert s₂.al e.foff e.len).1.fileEnd ≤ s₂.flen := by
        have hl : s₂.live = s.live := by rw [hs₂]; rfl
        have hfr := (freed_flInsert hlaid₂.tiled (by rw [hal₂]; exact hefin)).tiled
        rw [hl] at hfr
        rw [(hfr.unique h.laid.tiled fun x => Iff.rfl).2]
        exact h.flen.trans hflen₂
      obtain ⟨os, al', hf1, hf2, hf3, hf4, hf5⟩ := freeExtent_spec (show Laid (e :: []) s₂ from hlaid₂)
        (by rw [hal₂]; exact hefin) hback
      have hdirty : ¬ clean os := fun hc => hrc (hz2.clean (hf4 hc)).2
      refine ⟨rc, lsFreeExtents s₂ [e], r, rfl, ?_⟩
      have hfree : lsFreeExtents s₂ [e] = { s with os, al := al' } := by
        rw [lsFreeExtents, hlaid₂.teardown]
        show freeExtent s₂ e = _
        rw [hf1, hs₂]
      have hback : ({ s₂ with os, al := al' } : Store σ) = { s with os, al := al' } := by rw [hs₂]
      rw [hback] at hf2 hf3 hf5
      rw [hfree]
      exact ⟨⟨hf2, hf3⟩,
        pinned_withFile h.laid.records.wf (fun hc => absurd hc hdirty) fun x hx =>
          (hf5 x ((hf2.tiled.cover x).mpr (Or.inl hx)).2).trans (hout x hx),
        ⟨hk, fun _ _ => rfl, ⟨rfl, rfl⟩, rfl, rfl, ⟨rfl, rfl⟩, Nat.le_refl _⟩, fun hc => absurd hc hdirty,
        fun hc => absurd hc hrc⟩
    · rw [not_not] at hrc
      subst hrc
      rw [if_neg (by simp)]
      have hk₂ : s₂.find key = some r := by rw [hs₂]; exact hk
      have htot := total_exts_le hlaid₂ hk₂
      have hal₂ : s₂.al = al := by rw [hs₂]
      have hok₂ := hlaid₂.records.ok _ _ hk₂
      rw [hal₂, total_cons, total_nil, ← hok₂.extTotal] at htot
      obtain ⟨r₃, ha⟩ := adopted_adopt (e := e) hlaid₂.records hk₂ (by omega)
      have hzero : ∀ x, e.Has x → s₂.fbyte x = 0 := fun x hx => hz2.inside rfl x hx.1 hx.2
      have hpin₂ : Pinned s s₂ := by
        rw [hs₂]
        refine pinned_withFile h.laid.records.wf (fun hc => (hz2.clean hc).1) fun x hx => ?_
        have := hout x hx
        rwa [hs₂] at this
      generalize hs₃ : adopt s₂ key e = s₃ at ha ⊢
      have hos₃ : s₃.os = s₂.os := by rw [ha.rest]
      have hk₃ : s₃.find key = some r₃ := by rw [ha.find, if_pos rfl]
      have hr₃ := ha.recEq
      have hsound : Sound s₃ := by
        refine ⟨ha.laid hlaid₂ hk₂, ?_⟩
        have h1 : s₃.al.fileEnd = al.fileEnd := by rw [ha.rest, hs₂]
        have h2 : s₃.flen = s₂.flen := by rw [Store.flen, hos₃, Store.flen]
        have h3 := hz2.reach rfl hh.pos
        have h4 := h.flen
        rcases hh.inside with h5 | ⟨h5, h6⟩
        · omega
        · simp only [Span.fin] at h6
          omega
      have hal₃ : s₃.al = al := by rw [ha.rest, hs₂]
      have htot₃ : r₃.extTotal = r.extTotal + e.len := by rw [hr₃]
      obtain ⟨rc, s', r', h1, h2, h3, h4, h5, h6⟩ := ih (s := s₃) (r := r₃) hsound hk₃ (by
          intro k
          have := hnext k
          rw [hal₃, htot₃, show r₃.next = r.next + 1 by rw [hr₃]]
          rwa [Nat.sub_sub] at this)
        (by have := hh.pos; omega)
      refine ⟨rc, s', r', h1, h2, (hpin₂.trans (ha.pinned hk₂ hzero)).trans h3, ?_, h5, h6⟩
      refine ⟨h4.find, fun k hkk => ?_, ?_, ?_, ?_, ?_, by have := h4.grown; omega⟩
      · rw [h4.others k hkk, ha.find, if_neg (Ne.symm hkk), hs₂]
        rfl
      · rw [h4.mem.1, h4.mem.2, ha.rest, hs₂]
        exact ⟨rfl, rfl⟩
      · rw [h4.lru, ha.rest, hs₂]
      · rw [h4.resident, ha.rest, hs₂]
      · rw [h4.recMem.1, h4.recMem.2, hr₃]
        exact ⟨rfl, rfl⟩

end Ensure

end Libspill
