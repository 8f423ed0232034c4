import Libspill.Capacity

set_option autoImplicit false

/-!
# The memory tier

A record that changes tier keeps its bytes: writing it out (`spill`), making room for another
(`ls_evict_to`), growing its buffer, and the choice between them (`ensure_cap`).

* `Retier`: a record's buffer, size or flags change, its extents do not.
* `spill_spec`, `lsEvictTo_spec`, `tryMemory_spec`.
* **`ensureCap_spec`**: after `ensure_cap` the record has the capacity asked for, every record has
  the bytes it had, and a record with a transfer under way has not moved, unless it is the one that
  grew out of its buffer.
-/

namespace Libspill

variable {σ : Type} [HonestOs σ] {E : Env}

open HonestOs (clean)

/-! ## Changing a record's buffer, size or flags -/

section Retier

variable {s : Store σ} {key : CStr} {r : Rec} {f : Rec → Rec} {spare : List Extent} {os : σ}
  {mem : Ptr → ℕ → UInt8} {memNext : Ptr} {resident : ℕ} {lru : List CStr}

/-- The store with the memory tier and the record of `key` changed. -/
abbrev retier (s : Store σ) (key : CStr) (f : Rec → Rec) (os : σ) (mem : Ptr → ℕ → UInt8)
    (memNext : Ptr) (resident : ℕ) (lru : List CStr) : Store σ :=
  Store.setRec { s with os, mem, memNext, resident, lru } key f

/-- `f` changes a record's buffer, size or flags, and leaves its extents alone. -/
structure Retier (r r' : Rec) : Prop where
  key : r'.key = r.key
  ext : r'.ext = r.ext
  next : r'.next = r.next
  ncap : r'.ncap = r.ncap
  extTotal : r'.extTotal = r.extTotal

omit [HonestOs σ] in
theorem Retier.exts {r' : Rec} (h : Retier r r') : s.exts r' = s.exts r := by
  simp only [Store.exts, h.ext, h.next]

omit [HonestOs σ] in
theorem find_retier (h : s.toc.WF) (hk : s.find key = some r) (hf : Retier r (f r)) (k : CStr) :
    (retier s key f os mem memNext resident lru).find k =
      if key = k then some (f r) else s.find k :=
  find_setRec (s := { s with os, mem, memNext, resident, lru }) h hk hf.key k

omit [HonestOs σ] in
theorem records_retier (h : Records s) (hk : s.find key = some r) (hf : Retier r (f r))
    (hnext : s.memNext ≤ memNext) (hno : (f r).mem = none → (f r).memCap = 0 ∧ (f r).size ≤ r.extTotal)
    (hhas : (f r).mem ≠ none → 0 < (f r).memCap ∧ (f r).size ≤ (f r).memCap)
    (hp : ∀ p, (f r).mem = some p → p < memNext ∧
      ∀ k q, k ≠ key → s.find k = some q → q.mem ≠ some p) :
    Records (retier s key f os mem memNext resident lru) := by
  have hfind : ∀ k, (retier s key f os mem memNext resident lru).find k = _ :=
    find_retier h.wf hk hf
  have hok := h.ok _ _ hk
  have hold : ∀ k q, (retier s key f os mem memNext resident lru).find k = some q →
      k = key ∧ q = f r ∨ k ≠ key ∧ s.find k = some q := by
    intro k q hq
    rw [hfind] at hq
    split_ifs at hq with hkk
    · exact Or.inl ⟨hkk.symm, (Option.some.inj hq).symm⟩
    · exact Or.inr ⟨Ne.symm hkk, hq⟩
  refine ⟨wf_setRec (s := { s with os, mem, memNext, resident, lru }) h.wf hk hf.key, ?_, ?_, ?_⟩
  · intro k q hq
    rcases hold k q hq with ⟨rfl, rfl⟩ | ⟨-, hq'⟩
    · refine ⟨?_, ?_, ?_, ?_, hhas, ?_, fun p hq => (hp p hq).1⟩
      · rw [hf.ext, hf.next, hf.ncap]
        exact hok.noExt
      · rw [hf.next, hf.ncap]
        exact hok.next_le
      · rw [hf.extTotal, hok.extTotal]
        exact congrArg total (hf.exts (s := s)).symm
      · rw [hf.extTotal]
        exact hno
      · rw [hf.ext]
        exact hok.ext_lt
    · have := h.ok k q hq'
      exact ⟨this.noExt, this.next_le, this.extTotal, this.noMem, this.hasMem, this.ext_lt,
        fun p hq => (this.mem_lt p hq).trans_le hnext⟩
  · intro k k' q q' p hq hq' hqp hqp'
    have hx : ∀ k q, (retier s key f os mem memNext resident lru).find k = some q →
        ∃ q', s.find k = some q' ∧ q'.ext = q.ext := by
      intro k q hq
      rcases hold k q hq with ⟨rfl, rfl⟩ | ⟨-, hq'⟩
      · exact ⟨r, hk, hf.ext.symm⟩
      · exact ⟨q, hq', rfl⟩
    obtain ⟨a, ha, ha'⟩ := hx k q hq
    obtain ⟨b, hb, hb'⟩ := hx k' q' hq'
    exact h.ext_inj k k' a b p ha hb (ha'.trans hqp) (hb'.trans hqp')
  · intro k k' q q' p hq hq' hqp hqp'
    rcases hold k q hq with ⟨rfl, rfl⟩ | ⟨h1, hq1⟩ <;>
      rcases hold k' q' hq' with ⟨rfl, rfl⟩ | ⟨h2, hq2⟩
    · rfl
    · exact absurd hqp' ((hp p hqp).2 k' q' h2 hq2)
    · exact absurd hqp ((hp p hqp').2 k q h1 hq1)
    · exact h.mem_inj k k' q q' p hq1 hq2 hqp hqp'

omit [HonestOs σ] in
theorem tiered_retier (h : Tiered s) (hwf : s.toc.WF) (hk : s.find key = some r)
    (hf : Retier r (f r)) (hnd : lru.Nodup)
    (hlru : ∀ k, k ∈ lru ↔ if key = k then (f r).mem ≠ none else k ∈ s.lru)
    (hres : resident + r.memCap = s.resident + (f r).memCap) (hlt : resident < 2 ^ 63)
    (hfresh : ∀ p i, memNext ≤ p → mem p i = 0)
    (hno : s.o.memoryBudget = 0 → (f r).mem = none) :
    Tiered (retier s key f os mem memNext resident lru) := by
  have hfind : ∀ k, (retier s key f os mem memNext resident lru).find k = _ :=
    find_retier hwf hk hf
  refine ⟨hnd, fun k => ?_, ?_, hlt, hfresh, fun hb k q hq => ?_⟩
  · rw [hfind]
    show k ∈ lru ↔ _
    rw [hlru]
    split_ifs with hkk
    · simp
    · exact h.lru_mem k
  · obtain ⟨l, h1, h2, -⟩ := perm_setRec (s := { s with os, mem, memNext, resident, lru }) hwf hk hf.key
    have e1 := (h1.map Rec.memCap).sum_eq
    have e2 := (h2.map Rec.memCap).sum_eq
    simp only [List.map_cons, List.sum_cons] at e1 e2
    have := h.resident
    show resident = _
    rw [e2]
    have e3 : (s.recs.map Rec.memCap).sum = r.memCap + (l.map Rec.memCap).sum := e1
    omega
  · rw [hfind] at hq
    split_ifs at hq with hkk
    · rw [← Option.some.inj hq]
      exact hno hb
    · exact h.noTier hb k q hq

omit [HonestOs σ] in
theorem live_retier (hwf : s.toc.WF) (hk : s.find key = some r) (hf : Retier r (f r)) :
    s.live.Perm (retier s key f os mem memNext resident lru).live := by
  obtain ⟨l, h1, h2, -⟩ := perm_setRec (s := { s with os, mem, memNext, resident, lru }) hwf hk hf.key
  refine (live_perm (s := s) h1).trans (List.Perm.trans ?_ (live_perm h2).symm)
  have : Store.exts (retier s key f os mem memNext resident lru) (f r) = s.exts r := hf.exts (s := s)
  rw [this]
  exact List.Perm.refl _

omit [HonestOs σ] in
theorem laid_retier (h : Laid spare s) (hk : s.find key = some r) (hf : Retier r (f r))
    (hrec : Records (retier s key f os mem memNext resident lru))
    (htier : Tiered (retier s key f os mem memNext resident lru)) :
    Laid spare (retier s key f os mem memNext resident lru) :=
  ⟨hrec, htier, h.tiled.perm ((live_retier h.records.wf hk hf).append_left _), h.teardown⟩

/-- Slack, from what the change does to the record itself. -/
theorem slack_retier (h : Records s) (hs : Slack s) (hk : s.find key = some r)
    (hf : Retier r (f r)) (hfile : HonestOs.file os = HonestOs.file s.os)
    (hmem : ∀ k q p, k ≠ key → s.find k = some q → q.mem = some p → mem p = s.mem p)
    (hsize : r.size ≤ (f r).size) (hp : ∀ p i, (f r).mem = some p → (f r).size ≤ i → mem p i = 0) :
    Slack (retier s key f os mem memNext resident lru) where
  ext k q i x hq hi hx := by
    show (HonestOs.file os).byte x = 0
    rw [hfile]
    rw [find_retier h.wf hk hf] at hq
    split_ifs at hq with hkk
    · rw [← Option.some.inj hq] at hi hx
      have hx' : locate (s.exts r) i = some x := by
        rw [← hf.exts (s := s)]
        exact hx
      exact hs.ext key r i x hk (hsize.trans hi) hx'
    · exact hs.ext k q i x hq hi hx
  mem k q i p hq hi hqp := by
    rw [find_retier h.wf hk hf] at hq
    split_ifs at hq with hkk
    · rw [← Option.some.inj hq] at hi hqp
      exact hp p i hqp hi
    · show mem p i = 0
      rw [hmem k q p (Ne.symm hkk) hq hqp]
      exact hs.mem k q i p hq hi hqp

/-- The frame of such a change, from what it does to the record itself. -/
theorem kept_retier {P : CStr → ℕ → Prop} (h : Records s) (hk : s.find key = some r)
    (hf : Retier r (f r)) (hfile : HonestOs.file os = HonestOs.file s.os) (hc : clean os → clean s.os)
    (hmem : ∀ k q p, k ≠ key → s.find k = some q → q.mem = some p → mem p = s.mem p)
    (hrec : RecKept (P key r.busy) s (retier s key f os mem memNext resident lru) r (f r))
    (hsize : r.size ≤ (f r).size)
    (hp : Slack s → ∀ p i, (f r).mem = some p → (f r).size ≤ i → mem p i = 0) :
    Kept P s (retier s key f os mem memNext resident lru) where
  opts := ⟨rfl, rfl⟩
  clean := hc
  slack hs := slack_retier h hs hk hf hfile hmem hsize (hp hs)
  none k hn := by
    rw [find_retier h.wf hk hf, if_neg]
    · exact hn
    · rintro rfl
      rw [hk] at hn
      cases hn
  some k q hq := by
    rw [find_retier h.wf hk hf]
    split_ifs with hkk
    · subst hkk
      rw [hk] at hq
      cases hq
      exact ⟨_, rfl, hrec⟩
    · refine ⟨q, hq, rfl, rfl, rfl, List.prefix_rfl, fun _ => ?_, fun _ _ _ hl => hl⟩
      funext i
      show (s.loc q i).elim 0 _ = (s.loc q i).elim 0 _
      cases hl : s.loc q i with
      | none => rfl
      | some l =>
        cases l with
        | file x =>
          show (HonestOs.file os).byte x = (HonestOs.file s.os).byte x
          rw [hfile]
        | mem p j =>
          have hqp : q.mem = some p := by
            unfold Store.loc locOf at hl
            cases hm : q.mem with
            | none => simp [hm] at hl
            | some p' =>
              simp only [hm, Option.some.injEq, Loc.mem.injEq] at hl
              rw [hl.1]
          show mem p j = s.mem p j
          rw [hmem k q p (Ne.symm hkk) hq hqp]
  arr p n hp := by
    refine ⟨⟨hp.1, fun k q hq hqp => ?_⟩, fun _ _ => rfl⟩
    rw [find_retier h.wf hk hf] at hq
    split_ifs at hq with hkk
    · rw [← Option.some.inj hq, hf.next]
      rw [← Option.some.inj hq, hf.ext] at hqp
      exact hp.2 key r hk hqp
    · exact hp.2 k q hq hqp

end Retier

/-! ## Writing a record out -/

/-- The loop of `spill` lays the first `left` bytes of the buffer, from `pos` on, over the extents. -/
theorem spillLoop_spec (hF : 2 ^ 64 ≤ E.fuel) (p : Ptr) (es : List Extent) (left pos : ℕ)
    (s : Store σ) (hap : es.Pairwise Span.Apart) (hb : ∀ e ∈ es, e.fin < 2 ^ 63)
    (hleft : left ≤ total es) :
    ∃ rc s', spillLoop E p es left pos s = some (rc, s') ∧ s' = { s with os := s'.os } ∧
      s.flen ≤ s'.flen ∧ (clean s'.os → clean s.os ∧ rc = .ok) ∧
      (∀ x, ¬ Covers es x → s'.fbyte x = s.fbyte x) ∧
      (∀ i x, locate es i = some x → left ≤ i → s'.fbyte x = s.fbyte x) ∧
      (rc = .ok → ∀ i x, locate es i = some x → i < left → s'.fbyte x = s.mem p (pos + i)) := by
  induction es generalizing left pos s with
  | nil =>
    exact ⟨_, s, rfl, rfl, Nat.le_refl _, fun hc => ⟨hc, rfl⟩, fun _ _ => rfl,
      fun _ _ _ _ => rfl, fun _ i x hx => by cases hx⟩
  | cons e es ih =>
    rw [spillLoop]
    by_cases h0 : left = 0
    · rw [if_pos h0]
      exact ⟨_, s, rfl, rfl, Nat.le_refl _, fun hc => ⟨hc, rfl⟩, fun _ _ => rfl,
        fun _ _ _ _ => rfl, fun _ i x _ hi => by omega⟩
    rw [if_neg h0]
    dsimp only
    generalize hk : (if e.len < left then e.len else left) = k
    have hk' : k ≤ e.len ∧ k ≤ left ∧ (k = e.len ∨ k = left) := by split_ifs at hk <;> omega
    have hfin := hb e (by simp)
    rw [List.pairwise_cons] at hap
    rw [total_cons] at hleft
    simp only [Span.fin] at hfin
    obtain ⟨rc, out, s₁, h1, h2⟩ := exec_lsPwriteAll hF s s.direct (E.addr p + pos)
      (slice (s.mem p) pos k) e.foff (by rw [length_slice]; omega)
    rw [length_slice] at h2
    rw [h1]
    dsimp only
    have hmem : s₁.mem = s.mem := by rw [h2.os]
    by_cases hrc : rc ≠ .ok
    · rw [if_pos hrc]
      refine ⟨rc, s₁, rfl, h2.os, h2.len, h2.clean, fun x hx => h2.outside x ?_,
        fun i x hx hi => h2.outside x ?_, fun h => absurd h hrc⟩
      · simp only [covers_cons, not_or, Span.Has] at hx
        omega
      · rw [locate] at hx
        split_ifs at hx with hil
        · have := Option.some.inj hx
          omega
        · have : ¬ e.Has x := fun h => by
            obtain ⟨b, hb', hbx⟩ := covers_of_locate hx
            exact hap.1 b hb' x h hbx
          simp only [Span.Has] at this
          omega
    rw [not_not] at hrc
    subst hrc
    rw [if_neg (by simp)]
    obtain ⟨rc, s', h3, h4, h5, h6, h7, h8, h9⟩ := ih (left - k) (pos + k) s₁ hap.2
      (fun e he => hb e (by simp [he])) (by omega)
    have hfar : ∀ x, e.Has x → ¬ Covers es x := by
      rintro x hx ⟨b, hb, hbx⟩
      exact hap.1 b hb x hx hbx
    have hout : ∀ x, Covers es x → s₁.fbyte x = s.fbyte x := by
      intro x hcov
      refine h2.outside x ?_
      have : ¬ e.Has x := fun h => hfar x h hcov
      simp only [Span.Has] at this
      omega
    refine ⟨rc, s', h3, by rw [h4, h2.os], h2.len.trans h5,
      fun hc => ⟨(h2.clean (h6 hc).1).1, (h6 hc).2⟩, fun x hx => ?_, fun i x hx hi => ?_,
      fun hr i x hx hi => ?_⟩
    · rw [covers_cons, not_or] at hx
      rw [h7 x hx.2]
      refine h2.outside x ?_
      have := hx.1
      simp only [Span.Has] at this
      omega
    · rw [locate] at hx
      split_ifs at hx with hie
      · obtain rfl := Option.some.inj hx
        rw [h7 _ (hfar _ ⟨by omega, by omega⟩), h2.outside _ (by omega)]
      · rw [h8 _ x hx (by omega), hout x (covers_of_locate hx)]
    · rw [locate] at hx
      split_ifs at hx with hie
      · -- a byte of this extent, which the rest of the loop leaves alone
        obtain rfl := Option.some.inj hx
        rw [h7 _ (hfar _ ⟨by omega, by omega⟩), h2.inside rfl _ (by omega) (by omega),
          patch_add (by rw [length_slice]; omega), getD_slice _ _ _ _ (by omega)]
      · rw [h9 hr _ x hx (by omega), hmem]
        congr 1
        omega

section Drop

variable {s : Store σ} {key : CStr} {r : Rec}

/-- A record after its buffer was released. -/
abbrev droppedRec (r : Rec) : Rec := { r with mem := none, memCap := 0 }

omit [HonestOs σ] in
theorem memCap_le_resident (h : Laid [] s) (hk : s.find key = some r) : r.memCap ≤ s.resident := by
  rw [h.tiered.resident]
  exact List.single_le_sum (by simp) _ (List.mem_map_of_mem ((find_iff_mem h.records.wf).mp hk).1)

omit [HonestOs σ] in
theorem dropBuffer_eq (h : Laid [] s) (hk : s.find key = some r) :
    dropBuffer s key = retier s key (fun r => { r with mem := none, memCap := 0 }) s.os s.mem
      s.memNext (s.resident - r.memCap) (s.lru.erase key) := by
  have := memCap_le_resident h hk
  simp only [dropBuffer, recAt_of_find hk, if_pos this]
  rfl

/-- Releasing the buffer of a record that has been written out. -/
theorem dropBuffer_spec (h : Sound s) (hk : s.find key = some r) {p : Ptr} (hp : r.mem = some p)
    (hcap : r.size ≤ r.extTotal)
    (hout : ∀ i x, locate (s.exts r) i = some x → i < r.size → s.fbyte x = s.mem p i) :
    Sound (dropBuffer s key) ∧ Kept (fun k _ => k ≠ key) s (dropBuffer s key) ∧
      (∀ k, (dropBuffer s key).find k = if key = k then some (droppedRec r) else s.find k) ∧
      ((dropBuffer s key).mem = s.mem ∧ (dropBuffer s key).memNext = s.memNext) ∧
      (dropBuffer s key).lru = s.lru.erase key := by
  have hrec := h.laid.records
  have htier := h.laid.tiered
  have hres := memCap_le_resident h.laid hk
  have hf : Retier r (droppedRec r) := ⟨rfl, rfl, rfl, rfl, rfl⟩
  have hmem : ∀ k q p, k ≠ key → s.find k = some q → q.mem = some p → s.mem p = s.mem p :=
    fun _ _ _ _ _ _ => rfl
  have htot : r.extTotal = total (s.exts r) := (hrec.ok _ _ hk).extTotal
  rw [dropBuffer_eq h.laid hk]
  have hrec' : Records (retier s key (fun r => { r with mem := none, memCap := 0 }) s.os s.mem
      s.memNext (s.resident - r.memCap) (s.lru.erase key)) :=
    records_retier hrec hk hf (Nat.le_refl _)
    (fun _ => ⟨rfl, hcap⟩) (fun h => absurd rfl h) (fun p hp => by cases hp)
  have htier' : Tiered (retier s key (fun r => { r with mem := none, memCap := 0 }) s.os s.mem
      s.memNext (s.resident - r.memCap) (s.lru.erase key)) :=
    tiered_retier htier hrec.wf hk hf
    (htier.lru_nodup.erase _)
    (fun k => by
      rw [htier.lru_nodup.mem_erase_iff]
      split_ifs with hkk
      · simp [hkk]
      · simp [Ne.symm hkk])
    (by dsimp only; omega) (by have := htier.resident_lt; omega) htier.fresh (fun _ => rfl)
  refine ⟨⟨laid_retier h.laid hk hf hrec' htier', h.flen⟩, ?_, ?_, ⟨rfl, rfl⟩, rfl⟩
  · refine kept_retier hrec hk hf rfl id hmem
      ⟨rfl, rfl, rfl, List.prefix_rfl, fun hs => ?_, fun h => absurd rfl h⟩ (Nat.le_refl _)
      fun _ p i hp => by cases hp
    -- the extents hold what the buffer held, and both are zero past the size
    funext i
    have hl : s.loc r i = some (.mem p i) := by rw [Store.loc, hp]; rfl
    rw [Store.content, Store.content, hl]
    show ((locate (s.exts r) i).map Loc.file).elim 0 _ = s.mem p i
    cases hx : locate (s.exts r) i with
    | none =>
      have hi : r.size ≤ i := by
        by_contra hlt
        obtain ⟨x, hx'⟩ := exists_locate (l := s.exts r) (p := i) (by omega)
        rw [hx] at hx'
        cases hx'
      exact (hs.mem key r i p hk hi hp).symm
    | some x =>
      show s.fbyte x = s.mem p i
      by_cases hi : i < r.size
      · exact hout i x hx hi
      · rw [hs.mem key r i p hk (by omega) hp]
        exact hs.ext key r i x hk (by omega) hx
  · exact find_retier hrec.wf hk hf

end Drop

/-- `spill` of a record: it is in its extents alone, or a call has failed. -/
structure Spilled (s s' : Store σ) (key : CStr) (r : Rec) (rc : Rc) : Prop where
  sound : Sound s'
  kept : Kept (fun k _ => k ≠ key) s s'
  clean : clean s'.os → rc = .ok
  out : rc = .ok → ∃ r', s'.find key = some r' ∧ r'.mem = none ∧ r.extTotal ≤ r'.extTotal
  lru : rc = .ok → s'.lru = s.lru.erase key
  others : ∀ k, k ≠ key → s'.find k = s.find k
  mem : s'.mem = s.mem ∧ s'.memNext = s.memNext

theorem spill_spec (hF : 2 ^ 64 ≤ E.fuel) {s : Store σ} {key : CStr} {r : Rec} (h : Sound s)
    (hk : s.find key = some r) :
    ∃ rc s', spill E s key = some (rc, s') ∧ Spilled s s' key r rc := by
  rw [spill, recAt_of_find hk]
  have hok := h.laid.records.ok _ _ hk
  cases hp : r.mem with
  | none =>
    refine ⟨_, s, rfl, h, .refl, fun _ => rfl, fun _ => ⟨r, hk, hp, Nat.le_refl _⟩, fun _ => ?_,
      fun _ _ => rfl, rfl, rfl⟩
    refine (List.erase_of_not_mem fun hmem => ?_).symm
    obtain ⟨q, hq, hqm⟩ := (h.laid.tiered.lru_mem key).mp hmem
    rw [hk] at hq
    cases hq
    exact hqm hp
  | some p =>
    dsimp only
    have hsize : r.size < 2 ^ 63 := by
      have h1 := (hok.hasMem (by simp [hp])).2
      have h2 := memCap_le_resident h.laid hk
      have h3 := h.laid.tiered.resident_lt
      omega
    obtain ⟨rc, s₁, r₁, h1, h2, h3, h4, h5, h6⟩ := ensureExtents_spec hF E.fuel h hk
      (show r.size < 2 ^ 64 by omega)
      (extentsFit_of_le h.laid.tiled (fileEnd_lt h) (by omega) · r.next) (by omega)
    rw [h1]
    dsimp only
    obtain ⟨q, hq, hkq⟩ := h3.some key r hk
    rw [h4.find] at hq
    cases hq
    by_cases hrc : rc ≠ .ok
    · rw [if_pos hrc]
      exact ⟨rc, s₁, rfl, h2, h3.mono fun _ _ _ _ => trivial, h5, fun h => absurd h hrc,
        fun h => absurd h hrc, h4.others, h4.mem⟩
    rw [not_not] at hrc
    subst hrc
    rw [if_neg (by simp), recAt_of_find h4.find, hkq.size]
    have hok₁ := h2.laid.records.ok _ _ h4.find
    have hsub := exts_subset_live h2.laid.records.wf h4.find
    obtain ⟨l₁, l₂, hl⟩ := List.append_of_mem ((find_iff_mem h2.laid.records.wf).mp h4.find).1
    have hperm := live_perm (s := s₁) (r := r₁) (by rw [hl]; exact List.perm_middle)
    have hap : (s₁.exts r₁).Pairwise Span.Apart := by
      have := (h2.laid.tiled.perm hperm).apart
      exact (List.pairwise_append.mp this).1
    have hbd : ∀ e ∈ s₁.exts r₁, e.fin < 2 ^ 63 := fun e he =>
      (h2.laid.tiled.live_bounds (hsub he)).2.trans_lt (fileEnd_lt h2)
    obtain ⟨rc, s₂, g1, g2, g3, g4, g5, g6, g7⟩ := spillLoop_spec hF p (s₁.exts r₁) r.size 0 s₁ hap hbd
      (by rw [← hok₁.extTotal]; exact h6 rfl)
    rw [g1]
    dsimp only
    have hlaid₂ : Laid [] s₂ := by
      rw [g2]
      exact h2.laid.withFile h2.laid.tiled
    have hp₁ : r₁.mem = some p := h4.recMem.1.trans hp
    have hexts₂ : ∀ q, s₂.exts q = s₁.exts q := fun q => by rw [g2]; rfl
    have hfind₂ : ∀ k, s₂.find k = s₁.find k := fun k => by rw [g2]; rfl
    have hmem₂ : s₂.mem = s₁.mem := by rw [g2]
    have hnext₂ : s₂.memNext = s₁.memNext := by rw [g2]
    have hother₂ : ∀ k, k ≠ key → s₂.find k = s.find k := fun k hkk =>
      (hfind₂ k).trans (h4.others k hkk)
    have hslack₂ : Slack s₁ → Slack s₂ := by
      refine fun hs => ⟨fun k q i x hq hi hx => ?_, fun k q i a hq hi ha => ?_⟩
      · show s₂.fbyte x = 0
        rw [hfind₂] at hq
        rw [hexts₂] at hx
        refine Eq.trans ?_ (hs.ext k q i x hq hi hx)
        by_cases hkk : k = key
        · subst hkk
          rw [h4.find] at hq
          cases hq
          exact g6 i x hx (hkq.size ▸ hi)
        · exact g5 x (exts_apart h2.laid hq h4.find hkk (covers_of_locate hx))
      · rw [hfind₂] at hq
        rw [hmem₂]
        exact hs.mem k q i a hq hi ha
    have hpin₂ : Pinned s₁ s₂ := by
      rw [g2] at hslack₂ ⊢
      refine kept_withFile (fun hc => (g4 hc).1) hslack₂ fun k q x hq hqm hx => ?_
      have hkk : k ≠ key := by
        rintro rfl
        rw [h4.find] at hq
        cases hq
        rw [hp₁] at hqm
        cases hqm
      exact g5 x (exts_apart h2.laid hq h4.find hkk hx)
    have hsound₂ : Sound s₂ := by
      refine ⟨hlaid₂, ?_⟩
      have : s₂.al = s₁.al := by rw [g2]
      rw [this]
      exact h2.flen.trans g3
    have hkept₂ : Kept (fun k _ => k ≠ key) s s₂ := (h3.trans hpin₂).mono fun _ _ _ _ => trivial
    by_cases hrc : rc ≠ .ok
    · rw [if_pos hrc]
      exact ⟨rc, s₂, rfl, hsound₂, hkept₂, fun hc => (g4 hc).2, fun h => absurd h hrc,
        fun h => absurd h hrc, hother₂, hmem₂.trans h4.mem.1, hnext₂.trans h4.mem.2⟩
    rw [not_not] at hrc
    subst hrc
    rw [if_neg (by simp)]
    have hk₂ : s₂.find key = some r₁ := (hfind₂ key).trans h4.find
    obtain ⟨e1, e2, e3, e4, e5⟩ := dropBuffer_spec hsound₂ hk₂ hp₁
      (by rw [hkq.size]; exact h6 rfl) (fun i x hx hi => by
        rw [hkq.size] at hi
        rw [hexts₂] at hx
        rw [g7 rfl i x hx hi, hmem₂, Nat.zero_add])
    refine ⟨.ok, _, rfl, e1, hkept₂.trans e2, fun _ => rfl,
      fun _ => ⟨droppedRec r₁, by rw [e3, if_pos rfl], rfl, h4.grown⟩, fun _ => ?_, fun k hkk => ?_,
      e4.1.trans (hmem₂.trans h4.mem.1), e4.2.trans (hnext₂.trans h4.mem.2)⟩
    · rw [e5, g2, ← h4.lru]
    · rw [e3, if_neg (Ne.symm hkk), hother₂ k hkk]

/-! ## Eviction -/

omit [HonestOs σ] in
theorem victim_spec {s : Store σ} {keep : Option CStr} {v : CStr} (h : victim s keep = some v) :
    v ∈ s.lru ∧ some v ≠ keep ∧ (s.recAt v).busy = 0 := by
  have h1 := List.mem_of_find?_eq_some h
  have h2 := List.find?_some h
  simp only [Bool.decide_and, Bool.and_eq_true, decide_eq_true_eq] at h2
  exact ⟨List.mem_reverse.mp h1, h2⟩

/-- Eviction leaves the kept record and those with a transfer under way as they are. -/
structure Evicted (s s' : Store σ) (budget : ℕ) (keep : Option CStr) (rc : Rc) : Prop where
  sound : Sound s'
  kept : Kept (fun k n => n ≠ 0 ∨ some k = keep) s s'
  clean : clean s'.os → rc = .ok
  same : ∀ k r, s.find k = some r → r.busy ≠ 0 ∨ some k = keep → s'.find k = some r
  mem : s'.mem = s.mem ∧ s'.memNext = s.memNext
  room : rc = .ok → s'.resident ≤ budget ∨ victim s' keep = none

theorem lsEvictTo_spec (hF : 2 ^ 64 ≤ E.fuel) (fuel : ℕ) {s : Store σ} (h : Sound s) (budget : ℕ)
    (keep : Option CStr) (hfuel : s.lru.length < fuel) :
    ∃ rc s', lsEvictTo E fuel s budget keep = some (rc, s') ∧ Evicted s s' budget keep rc := by
  induction fuel generalizing s with
  | zero => omega
  | succ fuel ih =>
    rw [lsEvictTo]
    by_cases hres : s.resident > budget
    swap
    · rw [if_neg hres]
      exact ⟨_, s, rfl, h, .refl, fun _ => rfl, fun _ _ hk _ => hk, ⟨rfl, rfl⟩,
        fun _ => Or.inl (by omega)⟩
    rw [if_pos hres]
    cases hv : victim s keep with
    | none => exact ⟨_, s, rfl, h, .refl, fun _ => rfl, fun _ _ hk _ => hk, ⟨rfl, rfl⟩,
        fun _ => Or.inr hv⟩
    | some v =>
      obtain ⟨hv1, hv2, hv3⟩ := victim_spec hv
      obtain ⟨r, hr, hrm⟩ := (h.laid.tiered.lru_mem v).mp hv1
      rw [recAt_of_find hr] at hv3
      obtain ⟨rc, s₁, h1, h2⟩ := spill_spec hF h hr
      have hne : ∀ k q, s.find k = some q → q.busy ≠ 0 ∨ some k = keep → k ≠ v := by
        rintro k q hq hkeep rfl
        rw [hr] at hq
        cases hq
        exact hkeep.elim (fun hb => hb hv3) hv2
      have hkept : Kept (fun k n => n ≠ 0 ∨ some k = keep) s s₁ := h2.kept.mono hne
      have hsame : ∀ k q, s.find k = some q → q.busy ≠ 0 ∨ some k = keep → s₁.find k = some q :=
        fun k q hq hkeep => (h2.others k (hne k q hq hkeep)).trans hq
      dsimp only
      rw [h1]
      dsimp only
      by_cases hrc : rc ≠ .ok
      · rw [if_pos hrc]
        exact ⟨rc, s₁, rfl, h2.sound, hkept, h2.clean, hsame, h2.mem, fun h => absurd h hrc⟩
      rw [not_not] at hrc
      rw [if_neg (by simp [hrc])]
      obtain ⟨rc', s', h3, h4⟩ := ih h2.sound (by
        rw [h2.lru hrc, List.length_erase_of_mem hv1]
        have := List.length_pos_of_mem hv1
        omega)
      exact ⟨rc', s', h3, h4.sound, hkept.trans h4.kept, h4.clean,
        fun k q hq hkeep => h4.same k q (hsame k q hq hkeep) hkeep,
        ⟨h4.mem.1.trans h2.mem.1, h4.mem.2.trans h2.mem.2⟩, h4.room⟩

omit [HonestOs σ] in
/-- There are fewer resident records than resident bytes. -/
theorem lru_length_lt {s : Store σ} (h : Laid [] s) : s.lru.length < 2 ^ 63 := by
  have hcount : ∀ l : List Rec, (∀ r ∈ l, r.mem ≠ none → 0 < r.memCap) →
      (l.filter fun r => r.mem.isSome).length ≤ (l.map Rec.memCap).sum := by
    intro l
    induction l with
    | nil => simp
    | cons r l ih =>
      intro hl
      have := ih fun q hq => hl q (by simp [hq])
      rw [List.filter_cons, List.map_cons, List.sum_cons]
      split_ifs with hr
      · have hpos := hl r (by simp) (Option.isSome_iff_ne_none.mp hr)
        rw [List.length_cons]
        omega
      · omega
  have hsub : s.lru ⊆ (s.recs.filter fun r => r.mem.isSome).map Rec.key := by
    intro k hk
    obtain ⟨r, hr, hm⟩ := (h.tiered.lru_mem k).mp hk
    obtain ⟨hr1, hr2⟩ := (find_iff_mem h.records.wf).mp hr
    exact List.mem_map.mpr ⟨r, List.mem_filter.mpr ⟨hr1, Option.isSome_iff_ne_none.mpr hm⟩, hr2⟩
  have hle := (h.tiered.lru_nodup.subperm hsub).length_le
  rw [List.length_map] at hle
  refine lt_of_le_of_lt (hle.trans ?_) h.tiered.resident_lt
  rw [h.tiered.resident]
  exact hcount s.recs fun r hr hm => ((h.records.ok _ _ (find_of_mem h.records.wf hr)).hasMem hm).1

/-! ## Growing a buffer -/

section Grow

variable {s : Store σ} {key : CStr} {r : Rec} {p : Ptr} {need : ℕ}

/-- The bytes of a buffer grown to `need` bytes at `p`. -/
abbrev grownMem (s : Store σ) (r : Rec) (p : Ptr) (need : ℕ) : Ptr → ℕ → UInt8 :=
  Function.update s.mem p fun i =>
    if i < r.memCap then s.mem (r.mem.getD p) i else if i < need then 0 else s.mem p i

/-- The LRU list after `key` was used. -/
def touched (lru : List CStr) (key : CStr) : List CStr :=
  if lru.head? = some key then lru else key :: lru.erase key

theorem nodup_touched {lru : List CStr} (h : lru.Nodup) (key : CStr) : (touched lru key).Nodup := by
  unfold touched
  split_ifs
  · exact h
  · exact List.nodup_cons.mpr ⟨fun hm => (h.mem_erase_iff.mp hm).1 rfl, h.erase _⟩

theorem mem_touched {lru : List CStr} (h : lru.Nodup) (key k : CStr) :
    k ∈ touched lru key ↔ k = key ∨ k ∈ lru := by
  unfold touched
  split_ifs with hh
  · constructor
    · exact Or.inr
    · rintro (rfl | hk)
      · exact List.mem_of_mem_head? hh
      · exact hk
  · rw [List.mem_cons, h.mem_erase_iff]
    tauto

omit [HonestOs σ] in
theorem lsLruTouch_eq (s : Store σ) (key : CStr) :
    lsLruTouch s key = { s with lru := touched s.lru key } := by
  unfold lsLruTouch touched
  split_ifs <;> rfl

omit [HonestOs σ] in
theorem growBuffer_eq (hk : s.find key = some r) {hold : ℕ} (hhold : hold = r.memCap)
    (hres : r.memCap ≤ s.resident) (hlt : s.resident - r.memCap + need < 2 ^ 64)
    (hr64 : s.resident < 2 ^ 64) :
    growBuffer s key p hold need = retier s key (fun r => { r with mem := some p, memCap := need })
      s.os (grownMem s r p need) (max s.memNext (p + 1)) (s.resident - r.memCap + need)
      (touched s.lru key) := by
  rw [growBuffer, lsLruTouch_eq, recAt_of_find hk, hhold, sub64_eq hres hr64, add64_eq hlt]
  rfl

/-- Growing the buffer of a record that has no extents keeps its bytes. -/
theorem growBuffer_spec (h : Sound s) (hk : s.find key = some r) (hext : r.ext = none)
    (hp : p = s.memNext ∨ r.mem = some p) (hneed : r.memCap < need)
    (hlt : s.resident - r.memCap + need < 2 ^ 63) (hb : s.o.memoryBudget ≠ 0) {s' : Store σ}
    (hs' : s' = retier s key (fun r => { r with mem := some p, memCap := need })
      s.os (grownMem s r p need) (max s.memNext (p + 1)) (s.resident - r.memCap + need)
      (touched s.lru key)) :
    Sound s' ∧ Kept (fun k _ => k ≠ key ∨ r.mem = none) s s' ∧
      s'.find key = some { r with mem := some p, memCap := need } := by
  have hrec := h.laid.records
  have htier := h.laid.tiered
  have hok := hrec.ok _ _ hk
  have hres := memCap_le_resident h.laid hk
  have hf : Retier r { r with mem := some p, memCap := need } := ⟨rfl, rfl, rfl, rfl, rfl⟩
  have hexts : s.exts r = [] := by simp [Store.exts, hext]
  have hsize : r.size ≤ r.memCap := by
    cases hm : r.mem with
    | none =>
      have h1 := (hok.noMem hm).2
      rw [hok.extTotal, hexts, total_nil] at h1
      omega
    | some q => exact (hok.hasMem (by simp [hm])).2
  -- no other record has this buffer
  have hown : ∀ k q, k ≠ key → s.find k = some q → q.mem ≠ some p := by
    intro k q hkk hq hqp
    rcases hp with hp | hp
    · exact absurd ((hrec.ok _ _ hq).mem_lt p hqp) (by rw [hp]; exact Nat.lt_irrefl _)
    · exact hkk (hrec.mem_inj _ _ _ _ p hq hk hqp hp)
  have hmem : ∀ k q a, k ≠ key → s.find k = some q → q.mem = some a →
      grownMem s r p need a = s.mem a := by
    intro k q a hkk hq hqa
    refine Function.update_of_ne ?_ _ _
    rintro rfl
    exact hown k q hkk hq hqa
  -- past the size, the new buffer is zero
  have hzero : Slack s → ∀ i, r.size ≤ i → grownMem s r p need p i = 0 := by
    intro hs i hi
    rw [grownMem, Function.update_self]
    have hfresh : p = s.memNext → ∀ i, s.mem p i = 0 := fun hp i => htier.fresh p i hp.ge
    split_ifs with h1
    · cases hm : r.mem with
      | none =>
        have := (hok.noMem hm).1
        omega
      | some q => exact hs.mem key r i q hk hi hm
    · rfl
    · rcases hp with hp | hp
      · exact hfresh hp i
      · exact hs.mem key r i p hk hi hp
  have hrec' : Records (retier s key (fun r => { r with mem := some p, memCap := need }) s.os
      (grownMem s r p need) (max s.memNext (p + 1)) (s.resident - r.memCap + need)
      (touched s.lru key)) := records_retier hrec hk hf
    (Nat.le_max_left _ _) (fun h => by cases h) (fun _ => ⟨by dsimp only; omega, by dsimp only; omega⟩)
    (fun a ha => by
      obtain rfl := Option.some.inj ha
      exact ⟨Nat.lt_of_lt_of_le (Nat.lt_succ_self _) (Nat.le_max_right _ _), hown⟩)
  have htier' : Tiered (retier s key (fun r => { r with mem := some p, memCap := need }) s.os
      (grownMem s r p need) (max s.memNext (p + 1)) (s.resident - r.memCap + need)
      (touched s.lru key)) := tiered_retier htier
    hrec.wf hk hf (nodup_touched htier.lru_nodup key)
    (fun k => by
      rw [mem_touched htier.lru_nodup]
      split_ifs with hkk
      · simp [hkk]
      · simp [Ne.symm hkk])
    (by dsimp only; omega) hlt
    (fun a i ha => by
      have h1 : s.memNext ≤ a := (Nat.le_max_left _ _).trans ha
      have h2 : p + 1 ≤ a := (Nat.le_max_right _ _).trans ha
      rw [grownMem, Function.update_of_ne (by rintro rfl; exact absurd h2 (Nat.not_succ_le_self _))]
      exact htier.fresh a i h1)
    (fun h => absurd h hb)
  subst hs'
  refine ⟨⟨laid_retier h.laid hk hf hrec' htier', h.flen⟩, ?_, ?_⟩
  · refine kept_retier hrec hk hf rfl id hmem
      ⟨rfl, rfl, rfl, List.prefix_rfl, fun hs => ?_, fun hpin i l hl => ?_⟩ (Nat.le_refl _)
      fun hs a i ha hi => by
        obtain rfl := Option.some.inj ha
        exact hzero hs i hi
    · funext i
      show grownMem s r p need p i = s.content r i
      have hcon : s.content r i = if r.mem = none then 0 else s.mem (r.mem.getD p) i := by
        rw [Store.content, Store.loc, hexts]
        cases r.mem <;> rfl
      rw [hcon]
      by_cases hi : r.size ≤ i
      · rw [hzero hs i hi]
        split_ifs with hm
        · rfl
        · obtain ⟨q, hq⟩ := Option.ne_none_iff_exists'.mp hm
          rw [hq, Option.getD_some]
          exact (hs.mem key r i q hk hi hq).symm
      · have hm : r.mem ≠ none := by
          intro hm
          have h1 := (hok.noMem hm).2
          rw [hok.extTotal, hexts, total_nil] at h1
          omega
        rw [if_neg hm, grownMem, Function.update_self, if_pos (by omega)]
    · rw [Store.loc, hexts, hpin.resolve_left fun h => h rfl] at hl
      cases hl
  · rw [find_retier hrec.wf hk hf, if_pos rfl]

end Grow

/-! ## `ensure_cap` -/

section Cap

variable {s : Store σ} {key : CStr} {r : Rec} {need : ℕ}

/-- The memory-tier attempt: either the record has `need` bytes in memory, or it is as it was. -/
structure Tried (s s' : Store σ) (key : CStr) (r : Rec) (need : ℕ) (b : Bool) : Prop where
  sound : Sound s'
  kept : Kept (fun k n => n ≠ 0 ∧ k ≠ key ∨ k = key ∧ r.mem = none) s s'
  grown : b = true → ∃ p, s'.find key = some { r with mem := some p, memCap := need }
  same : b = false → s'.find key = some r

theorem withOs_spec {os : σ} (h : Sound s) (hf : HonestOs.file os = HonestOs.file s.os)
    (hc : clean os → clean s.os) : Sound { s with os } ∧ Pinned s { s with os } := by
  have hb : ∀ x, Store.fbyte { s with os, al := s.al } x = s.fbyte x := by
    intro x
    rw [Store.fbyte, hf, Store.fbyte]
  refine ⟨⟨h.laid.withFile h.laid.tiled, ?_⟩, ?_⟩
  · show s.al.fileEnd ≤ (HonestOs.file os).len
    rw [hf]
    exact h.flen
  · exact pinned_withFile h.laid.records.wf hc fun x _ => hb x

theorem tryMemory_spec (hF : 2 ^ 64 ≤ E.fuel) (h : Sound s) (hk : s.find key = some r)
    (hneed : r.memCap < need) :
    ∃ b s', tryMemory E s key need = some (b, s') ∧ Tried s s' key r need b := by
  have hhold : (if r.mem.isSome then r.memCap else 0) = r.memCap := by
    split_ifs with hm
    · rfl
    · rw [((h.laid.records.ok _ _ hk).noMem (by simpa using hm)).1]
  rw [tryMemory, recAt_of_find hk]
  dsimp only
  rw [hhold]
  by_cases hif : s.o.memoryBudget ≠ 0 ∧ r.ext = none ∧ need ≤ s.o.memoryBudget
  swap
  · rw [if_neg hif]
    exact ⟨_, s, rfl, h, .refl, fun h => (by cases h), fun _ => hk⟩
  rw [if_pos hif]
  obtain ⟨hb, hext, hle⟩ := hif
  -- the eviction, if there is one, leaves this record as it is
  have hev : ∃ rc s₁, (if add64 (sub64 s.resident r.memCap) need > s.o.memoryBudget then
        lsEvictTo E E.fuel s (add64 (sub64 s.o.memoryBudget need) r.memCap) (some key)
      else some (.ok, s)) = some (rc, s₁) ∧ Sound s₁ ∧
      Kept (fun k n => n ≠ 0 ∨ some k = some key) s s₁ ∧ s₁.find key = some r := by
    split_ifs
    · obtain ⟨rc, s₁, h1, h2⟩ := lsEvictTo_spec hF E.fuel h
        (add64 (sub64 s.o.memoryBudget need) r.memCap) (some key)
        (by have := lru_length_lt h.laid; omega)
      exact ⟨rc, s₁, h1, h2.sound, h2.kept, h2.same key r hk (Or.inr rfl)⟩
    · exact ⟨_, s, rfl, h, .refl, hk⟩
  obtain ⟨rc, s₁, h1, h2, h3, h4⟩ := hev
  rw [h1]
  dsimp only
  have h3' : Kept (fun k n => n ≠ 0 ∧ k ≠ key ∨ k = key ∧ r.mem = none) s s₁ :=
    h3.mono fun k q _ hkq => hkq.imp And.left fun h => congrArg some h.1
  have hres := memCap_le_resident h2.laid h4
  have hrlt := h2.laid.tiered.resident_lt
  have hopt : s₁.o = s.o := h3.opts.1
  rw [sub64_eq hres (by omega)]
  by_cases hfit : add64 (s₁.resident - r.memCap) need ≤ s.o.memoryBudget
  swap
  · rw [if_neg hfit]
    exact ⟨_, s₁, rfl, h2, h3', fun h => (by cases h), fun _ => h4⟩
  rw [if_pos hfit]
  have hrf := HonestOs.realloc_file s₁.os (s₁.resident - r.memCap) need
  have hrc := HonestOs.realloc_clean s₁.os (s₁.resident - r.memCap) need
  have hrl := HonestOs.realloc_lt s₁.os (s₁.resident - r.memCap) need
  generalize Os.realloc s₁.os (s₁.resident - r.memCap) need = ans at hrf hrc hrl ⊢
  obtain ⟨res, os⟩ := ans
  obtain ⟨g1, g2⟩ := withOs_spec h2 hrf hrc
  have g2' : Kept (fun k n => n ≠ 0 ∧ k ≠ key ∨ k = key ∧ r.mem = none) s₁ { s₁ with os } :=
    g2.mono fun _ _ _ _ => trivial
  cases res with
  | none => exact ⟨_, _, rfl, g1, h3'.trans g2', fun h => (by cases h), fun _ => h4⟩
  | some moved =>
    have hlt := hrl moved rfl
    have hp : (if moved = true then s₁.memNext else r.mem.getD s₁.memNext) = s₁.memNext ∨
        r.mem = some (if moved = true then s₁.memNext else r.mem.getD s₁.memNext) := by
      split_ifs
      · exact Or.inl rfl
      · cases r.mem
        · exact Or.inl rfl
        · exact Or.inr rfl
    dsimp only
    generalize (if moved = true then s₁.memNext else r.mem.getD s₁.memNext) = p at hp ⊢
    obtain ⟨k1, k2, k3⟩ := growBuffer_spec (s := { s₁ with os }) g1 h4 hext hp hneed hlt
      (by rw [← hopt] at hb; exact hb)
      (growBuffer_eq (s := { s₁ with os }) h4 rfl hres (by dsimp only; omega)
        (by dsimp only; omega))
    refine ⟨_, _, rfl, k1, (h3'.trans g2').trans (k2.mono fun k q _ hkq => ?_),
      fun _ => ⟨p, k3⟩, fun h => (by cases h)⟩
    exact hkq.imp And.right And.right

/-- Where `ensure_cap` goes to the file for `need` bytes, no tail it takes wraps. -/
def CapFits (E : Env) (s : Store σ) (key : CStr) (need : ℕ) : Prop :=
  ∀ s₁ s₂, tryMemory E s key need = some (false, s₁) → spill E s₁ key = some (.ok, s₂) →
    ∀ k, ExtentsFit k s₂.al (s₂.recAt key).next (need - (s₂.recAt key).extTotal)

theorem spill_none {s : Store σ} (hk : s.find key = some r) (hm : r.mem = none) :
    spill E s key = some (.ok, s) := by
  rw [spill, recAt_of_find hk, hm]

/-- **Up to `2 ^ 63` bytes of capacity never wrap.** -/
theorem capFits_of_le (hF : 2 ^ 64 ≤ E.fuel) (h : Sound s) (hk : s.find key = some r)
    (hlt : r.memCap < need) (hneed : need ≤ 2 ^ 63) : CapFits E s key need := by
  intro s₁ s₂ h1 h2 k
  obtain ⟨b, s₁', h3, h4⟩ := tryMemory_spec hF h hk hlt
  rw [h1] at h3
  cases h3
  obtain ⟨rc, s₂', h5, h6⟩ := spill_spec hF h4.sound (h4.same rfl)
  rw [h2] at h5
  cases h5
  exact extentsFit_of_le h6.sound.laid.tiled (fileEnd_lt h6.sound) (by omega) k _

/-- The record has room for `need` bytes. -/
def HasCap (r : Rec) (need : ℕ) : Prop :=
  (r.mem = none → need ≤ r.extTotal) ∧ (r.mem ≠ none → need ≤ r.memCap)

/-- The records that `ensure_cap` for `need` bytes of the record `r` of `key` does not move. -/
def Unmoved (key : CStr) (r : Rec) (need : ℕ) (k : CStr) (n : ℕ) : Prop :=
  n ≠ 0 ∧ k ≠ key ∨ k = key ∧ (r.mem = none ∨ need ≤ r.memCap)

/-- **`ensure_cap`**: the record has the capacity, or a call has failed. -/
theorem ensureCap_spec (hF : 2 ^ 64 ≤ E.fuel) (h : Sound s) (hk : s.find key = some r)
    (hn64 : need < 2 ^ 64) (hfit : r.memCap < need → CapFits E s key need) :
    ∃ rc s', ensureCap E s key need = some (rc, s') ∧ Sound s' ∧ Kept (Unmoved key r need) s s' ∧
      (clean s'.os → rc = .ok) ∧ (rc = .ok → ∃ r', s'.find key = some r' ∧ HasCap r' need) := by
  have hok := h.laid.records.ok _ _ hk
  rw [ensureCap, recAt_of_find hk]
  by_cases h1 : need ≤ r.memCap ∧ r.mem.isSome
  · rw [if_pos h1]
    exact ⟨_, s, rfl, h, .refl, fun _ => rfl, fun _ => ⟨r, hk,
      fun hm => by rw [hm] at h1; exact absurd h1.2 (by simp), fun _ => h1.1⟩⟩
  rw [if_neg h1]
  by_cases h2 : r.extTotal ≥ need ∧ r.mem = none
  · rw [if_pos h2]
    exact ⟨_, s, rfl, h, .refl, fun _ => rfl, fun _ => ⟨r, hk, fun _ => h2.1,
      fun hm => absurd h2.2 hm⟩⟩
  rw [if_neg h2]
  have hlt : r.memCap < need := by
    cases hm : r.mem with
    | none =>
      have := (hok.noMem hm).1
      have : ¬ r.extTotal ≥ need := fun h => h2 ⟨h, hm⟩
      omega
    | some p =>
      by_contra hc
      exact h1 ⟨by omega, by simp [hm]⟩
  have hmono : ∀ {s₁ : Store σ}, Kept (fun k n => n ≠ 0 ∧ k ≠ key ∨ k = key ∧ r.mem = none) s s₁ →
      Kept (Unmoved key r need) s s₁ := fun hkept => hkept.mono fun k q _ hu =>
    hu.imp id fun hk => ⟨hk.1, hk.2.resolve_right (by omega)⟩
  obtain ⟨b, s₁, h3, h4⟩ := tryMemory_spec hF h hk hlt
  rw [h3]
  cases b with
  | true =>
    obtain ⟨p, hp⟩ := h4.grown rfl
    exact ⟨_, s₁, rfl, h4.sound, hmono h4.kept, fun _ => rfl, fun _ => ⟨_, hp, fun h => (by cases h),
      fun _ => Nat.le_refl _⟩⟩
  | false =>
    have hk₁ := h4.same rfl
    have hsp : ∃ rc s₂, spill E s₁ key = some (rc, s₂) ∧ Sound s₂ ∧
        Kept (Unmoved key r need) s s₂ ∧ (clean s₂.os → rc = .ok) ∧
        (rc = .ok → ∃ r₂, s₂.find key = some r₂ ∧ r₂.mem = none) := by
      by_cases hm : r.mem = none
      · exact ⟨_, s₁, spill_none hk₁ hm, h4.sound, hmono h4.kept, fun _ => rfl,
          fun _ => ⟨r, hk₁, hm⟩⟩
      · obtain ⟨rc, s₂, h5, h6⟩ := spill_spec hF h4.sound hk₁
        refine ⟨rc, s₂, h5, h6.sound, (hmono h4.kept).trans (h6.kept.mono fun k q _ hu => ?_),
          h6.clean, fun hr => ?_⟩
        · exact hu.elim And.right fun hk => absurd (hk.2.resolve_right (by omega)) hm
        · obtain ⟨r₂, hr1, hr2, -⟩ := h6.out hr
          exact ⟨r₂, hr1, hr2⟩
    obtain ⟨rc, s₂, h5, h6, h7, h8, h9⟩ := hsp
    dsimp only
    rw [h5]
    dsimp only
    by_cases hrc : rc ≠ .ok
    · rw [if_pos hrc]
      exact ⟨rc, s₂, rfl, h6, h7, h8, fun h => absurd h hrc⟩
    rw [not_not] at hrc
    subst hrc
    rw [if_neg (by simp)]
    obtain ⟨r₂, hk₂, hm₂⟩ := h9 rfl
    have hfit₂ := hfit hlt s₁ s₂ h3 h5
    rw [recAt_of_find hk₂] at hfit₂
    obtain ⟨rc, s', r', g1, g2, g3, g4, g5, g6⟩ := ensureExtents_spec hF E.fuel h6 hk₂ hn64 hfit₂
      (by omega)
    refine ⟨rc, s', g1, g2, h7.trans (g3.mono fun _ _ _ _ => trivial), g5, fun hr => ⟨r', g4.find,
      fun _ => g6 hr, fun hm => ?_⟩⟩
    exact absurd (g4.recMem.1.trans hm₂) hm

end Cap

end Libspill
