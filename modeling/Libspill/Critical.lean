import Libspill.Spill
import Libspill.Data

set_option autoImplicit false

/-!
# The critical sections

What each entry point does with the table-of-contents lock held: to the record it names, and to the
others (`Stays`).

* `makeRoom_spec`: the record has the size and the capacity a write needs.
* `pin_spec`, `unpin_spec`: a transfer starts and ends.
* `lsErase_spec`, `lsSetAttr_spec`.
-/

namespace Libspill

variable {σ : Type} [HonestOs σ] {E : Env}

open HonestOs (clean)

/-! ## Frames -/

/-- The bytes of the record a critical section is about. -/
structure BytesKept (pinned : Prop) (s s' : Store σ) (r r' : Rec) : Prop where
  exts : s.exts r <+: s'.exts r'
  content : Slack s → s'.content r' = s.content r
  locs : pinned → ∀ i l, s.loc r i = some l → s'.loc r' i = some l

/-- What a critical section about `key` leaves alone. -/
structure Stays (key : CStr) (s s' : Store σ) : Prop where
  opts : s'.o = s.o ∧ s'.direct = s.direct
  clean : clean s'.os → clean s.os
  slack : Slack s → Slack s'
  none : ∀ k, k ≠ key → s.find k = none → s'.find k = none
  some : ∀ k r, k ≠ key → s.find k = some r →
    ∃ r', s'.find k = some r' ∧ RecKept (r.busy ≠ 0) s s' r r'
  arr : ∀ p n, Frozen s p n → Frozen s' p n ∧ ∀ i, i < n → s'.arr p i = s.arr p i

section Frames

variable {s s' s'' : Store σ} {key : CStr} {r r' r'' : Rec} {p q : Prop}

theorem RecKept.bytes (h : RecKept p s s' r r') : BytesKept p s s' r r' :=
  ⟨h.exts, h.content, h.locs⟩

theorem BytesKept.refl : BytesKept p s s r r := RecKept.refl.bytes

theorem BytesKept.trans (hs : Slack s → Slack s') (h : BytesKept p s s' r r')
    (h' : BytesKept p s' s'' r' r'') : BytesKept p s s'' r r'' where
  exts := h.exts.trans h'.exts
  content hsl := (h'.content (hs hsl)).trans (h.content hsl)
  locs hp i l hl := h'.locs hp i l (h.locs hp i l hl)

theorem BytesKept.mono (h : BytesKept p s s' r r') (hqp : q → p) : BytesKept q s s' r r' :=
  ⟨h.exts, h.content, fun hq => h.locs (hqp hq)⟩

theorem Stays.refl : Stays key s s :=
  ⟨⟨rfl, rfl⟩, id, id, fun _ _ h => h, fun _ r _ h => ⟨r, h, .refl⟩, fun _ _ h => ⟨h, fun _ _ => rfl⟩⟩

theorem Stays.trans (h : Stays key s s') (h' : Stays key s' s'') : Stays key s s'' where
  opts := ⟨h'.opts.1.trans h.opts.1, h'.opts.2.trans h.opts.2⟩
  clean := h.clean ∘ h'.clean
  slack := h'.slack ∘ h.slack
  none k hk hn := h'.none k hk (h.none k hk hn)
  some k r hk hr := by
    obtain ⟨r', hr', h1⟩ := h.some k r hk hr
    obtain ⟨r'', hr'', h2⟩ := h'.some k r' hk hr'
    rw [h1.busy] at h2
    exact ⟨r'', hr'', h1.trans h.slack h2⟩
  arr p n hf := by
    obtain ⟨hf', he⟩ := h.arr p n hf
    obtain ⟨hf'', he'⟩ := h'.arr p n hf'
    exact ⟨hf'', fun i hi => (he' i hi).trans (he i hi)⟩

theorem Kept.stays {P : CStr → ℕ → Prop} (h : Kept P s s')
    (hP : ∀ k n, k ≠ key → n ≠ 0 → P k n) : Stays key s s' where
  opts := h.opts
  clean := h.clean
  slack := h.slack
  none k _ hn := h.none k hn
  some k r hk hr := by
    obtain ⟨r', hr', h1⟩ := h.some k r hr
    exact ⟨r', hr', h1.size, h1.attr, h1.busy, h1.exts, h1.content,
      fun hb => h1.locs (hP k r.busy hk hb)⟩
  arr := h.arr

end Frames

/-! ## Insertion -/

section Insert

variable {s : Store σ} {key : CStr}

omit [HonestOs σ] in
theorem exts_new (s : Store σ) (key : CStr) : s.exts { key } = [] := rfl

theorem content_new (s : Store σ) (key : CStr) (i : ℕ) : s.content { key } i = 0 := rfl

omit [HonestOs σ] in
theorem recAt_of_none (hn : s.find key = none) : s.recAt key = { key } := by
  rw [Store.recAt, hn]
  rfl

omit [HonestOs σ] in
theorem find_insert (h : s.toc.WF) (hn : s.find key = none) (k : CStr) :
    (lsTocInsert s key).find k = if key = k then some { key } else s.find k :=
  Chained.find_insert h (v := { key }) hn k

omit [HonestOs σ] in
theorem laid_insert (h : Laid [] s) (hn : s.find key = none) : Laid [] (lsTocInsert s key) := by
  obtain ⟨hwf, hperm⟩ := Chained.perm_insert h.records.wf (v := ({ key } : Rec)) hn
  have hfind := find_insert h.records.wf hn
  have hold : ∀ k q, (lsTocInsert s key).find k = some q →
      k = key ∧ q = { key } ∨ s.find k = some q := by
    intro k q hq
    rw [hfind] at hq
    split_ifs at hq with hkk
    · exact Or.inl ⟨hkk.symm, (Option.some.inj hq).symm⟩
    · exact Or.inr hq
  refine ⟨⟨hwf, ?_, ?_, ?_⟩, ⟨h.tiered.lru_nodup, fun k => ?_, ?_, h.tiered.resident_lt,
    h.tiered.fresh, fun hb k q hq => ?_⟩, h.tiled.perm ?_, h.teardown⟩
  · intro k q hq
    rcases hold k q hq with ⟨rfl, rfl⟩ | hq'
    · exact ⟨fun _ => ⟨rfl, rfl⟩, Nat.le_refl _, rfl, fun _ => ⟨rfl, Nat.le_refl _⟩,
        fun h => absurd rfl h, fun _ h => (by cases h), fun _ h => (by cases h)⟩
    · have := h.records.ok k q hq'
      exact ⟨this.noExt, this.next_le, this.extTotal, this.noMem, this.hasMem, this.ext_lt,
        this.mem_lt⟩
  · intro k k' q q' p hq hq' hp hp'
    rcases hold k q hq with ⟨rfl, rfl⟩ | h1
    · cases hp
    rcases hold k' q' hq' with ⟨rfl, rfl⟩ | h2
    · cases hp'
    exact h.records.ext_inj k k' q q' p h1 h2 hp hp'
  · intro k k' q q' p hq hq' hp hp'
    rcases hold k q hq with ⟨rfl, rfl⟩ | h1
    · cases hp
    rcases hold k' q' hq' with ⟨rfl, rfl⟩ | h2
    · cases hp'
    exact h.records.mem_inj k k' q q' p h1 h2 hp hp'
  · show k ∈ s.lru ↔ _
    rw [h.tiered.lru_mem, hfind]
    split_ifs with hkk
    · subst hkk
      simp [hn]
    · rfl
  · show s.resident = _
    rw [h.tiered.resident]
    have := (hperm.map Rec.memCap).sum_eq
    simp only [List.map_cons, List.sum_cons, Nat.zero_add] at this
    exact this.symm
  · rcases hold k q hq with ⟨rfl, rfl⟩ | h1
    · rfl
    · exact h.tiered.noTier hb k q h1
  · exact (live_perm (s := lsTocInsert s key) hperm).symm

theorem sound_insert (h : Sound s) (hn : s.find key = none) : Sound (lsTocInsert s key) :=
  ⟨laid_insert h.laid hn, h.flen⟩

theorem slack_insert (h : s.toc.WF) (hn : s.find key = none) (hs : Slack s) :
    Slack (lsTocInsert s key) := by
  have hfind := find_insert h hn
  refine ⟨fun k q i x hq hi hx => ?_, fun k q i p hq hi hp => ?_⟩
  · rw [hfind] at hq
    split_ifs at hq with hkk
    · cases hq
      cases hx
    · exact hs.ext k q i x hq hi hx
  · rw [hfind] at hq
    split_ifs at hq with hkk
    · cases hq
      cases hp
    · exact hs.mem k q i p hq hi hp

/-- After the lookup there is a record, as `recAt` says it is. -/
theorem lsTocFindOrInsert_spec (h : Sound s) (key : CStr) :
    Sound (lsTocFindOrInsert s key) ∧ Stays key s (lsTocFindOrInsert s key) ∧
      (lsTocFindOrInsert s key).find key = some (s.recAt key) ∧
      (lsTocFindOrInsert s key).al = s.al ∧
      BytesKept True s (lsTocFindOrInsert s key) (s.recAt key) (s.recAt key) := by
  unfold lsTocFindOrInsert
  cases hn : s.find key with
  | some r => exact ⟨h, .refl, by rw [recAt_of_find hn]; exact hn, rfl, .refl⟩
  | none =>
    have hfind := find_insert h.laid.records.wf hn
    refine ⟨sound_insert h hn, ⟨⟨rfl, rfl⟩, id, slack_insert h.laid.records.wf hn, fun k hk hkn => ?_, fun k r hk hr => ?_,
      fun p n hf => ⟨⟨hf.1, fun k r hr hp => ?_⟩, fun _ _ => rfl⟩⟩, ?_, rfl, ?_⟩
    · rw [hfind, if_neg (Ne.symm hk), hkn]
    · exact ⟨r, by rw [hfind, if_neg (Ne.symm hk), hr], rfl, rfl, rfl, List.prefix_rfl, fun _ => rfl,
        fun _ _ _ h => h⟩
    · rw [hfind] at hr
      split_ifs at hr
      · cases hr
        cases hp
      · exact hf.2 k r hr hp
    · rw [hfind, if_pos rfl, recAt_of_none hn]
    · exact ⟨List.prefix_rfl, fun _ => rfl, fun _ _ _ h => h⟩

end Insert

/-! ## Sizes, flags and attributes -/

section Flags

variable {s : Store σ} {key : CStr} {r : Rec} {f : Rec → Rec}

/-- Changing a record's size within its capacity, its flags or its attribute. -/
theorem setFlags_spec (h : Sound s) (hk : s.find key = some r) (hf : Retier r (f r))
    (hm : (f r).mem = r.mem) (hc : (f r).memCap = r.memCap) (hsize : r.size ≤ (f r).size)
    (hcap : HasCap r (f r).size) {lru : List CStr} (hnd : lru.Nodup)
    (hlru : ∀ k, k ∈ lru ↔ k ∈ s.lru) {s' : Store σ}
    (hs' : s' = retier s key f s.os s.mem s.memNext s.resident lru) :
    Sound s' ∧ Stays key s s' ∧ s'.find key = some (f r) ∧ BytesKept True s s' r (f r) := by
  have hrec := h.laid.records
  have htier := h.laid.tiered
  have hok := hrec.ok _ _ hk
  have hmem : ∀ k q p, k ≠ key → s.find k = some q → q.mem = some p → s.mem p = s.mem p :=
    fun _ _ _ _ _ _ => rfl
  have hrec' : Records (retier s key f s.os s.mem s.memNext s.resident lru) := records_retier hrec hk hf
    (Nat.le_refl _)
    (fun hn => by
      rw [hm] at hn
      rw [hc]
      exact ⟨(hok.noMem hn).1, hcap.1 hn⟩)
    (fun hn => by
      rw [hm] at hn
      rw [hc]
      exact ⟨(hok.hasMem hn).1, hcap.2 hn⟩)
    (fun p hp => by
      rw [hm] at hp
      exact ⟨hok.mem_lt p hp, fun k q hkk hq hqp => hkk (hrec.mem_inj _ _ _ _ p hq hk hqp hp)⟩)
  have htier' : Tiered (retier s key f s.os s.mem s.memNext s.resident lru) := tiered_retier htier hrec.wf hk
    hf hnd
    (fun k => by
      rw [hlru]
      split_ifs with hkk
      · subst hkk
        rw [hm, htier.lru_mem]
        simp [hk]
      · rfl)
    (by rw [hc]) htier.resident_lt htier.fresh (fun hb => by rw [hm]; exact htier.noTier hb key r hk)
  subst hs'
  have hexts : (retier s key f s.os s.mem s.memNext s.resident lru).exts (f r) = s.exts r :=
    hf.exts (s := s)
  have hbytes : BytesKept True s (retier s key f s.os s.mem s.memNext s.resident lru) r (f r) := by
    refine ⟨by rw [hexts], fun _ => ?_, fun _ i l hl => ?_⟩
    · funext i
      rw [Store.content, Store.content, Store.loc, Store.loc, hexts, hm]
      rfl
    · rwa [Store.loc, hexts, hm]
  have hfind : ∀ k, (retier s key f s.os s.mem s.memNext s.resident lru).find k = _ :=
    find_retier hrec.wf hk hf
  refine ⟨⟨laid_retier h.laid hk hf hrec' htier', h.flen⟩, ?_, ?_, hbytes⟩
  · refine ⟨⟨rfl, rfl⟩, id, fun hs => slack_retier hrec hs hk hf rfl hmem hsize fun p i hp hi => by
      rw [hm] at hp
      exact hs.mem key r i p hk (hsize.trans hi) hp, fun k hkk hn => ?_, fun k q hkk hq => ⟨q, ?_, rfl, rfl, rfl,
      List.prefix_rfl, fun _ => rfl, fun _ _ _ h => h⟩, fun p n hp => ⟨⟨hp.1, fun k q hq hqp => ?_⟩,
      fun _ _ => rfl⟩⟩
    · rw [hfind, if_neg (Ne.symm hkk), hn]
    · rw [hfind, if_neg (Ne.symm hkk), hq]
    · rw [hfind] at hq
      split_ifs at hq
      · rw [← Option.some.inj hq, hf.ext] at hqp
        rw [← Option.some.inj hq, hf.next]
        exact hp.2 key r hk hqp
      · exact hp.2 k q hq hqp
  · rw [hfind, if_pos rfl]

omit [HonestOs σ] in
theorem hasCap_self (h : RecOk s r) : HasCap r r.size :=
  ⟨fun hm => (h.noMem hm).2, fun hm => (h.hasMem hm).2⟩

/-- The start of a transfer: the record is busy once more, and the snapshot is of where it is. -/
theorem pin_spec (h : Sound s) (hk : s.find key = some r) :
    Sound (pin s key).2 ∧ Stays key s (pin s key).2 ∧
      (pin s key).2.find key = some { r with busy := r.busy + 1 } ∧
      (pin s key).1 = lsPlaceOf r ∧
      BytesKept True s (pin s key).2 r { r with busy := r.busy + 1 } := by
  have hnd := h.laid.tiered.lru_nodup
  have hs : (pin s key).2 = retier s key (fun r => { r with busy := r.busy + 1 }) s.os s.mem
      s.memNext s.resident (if r.mem.isSome then touched s.lru key else s.lru) := by
    simp only [pin, recAt_of_find hk, lsLruTouch_eq]
    split_ifs <;> rfl
  obtain ⟨h1, h2, h3, h4⟩ := setFlags_spec (f := fun r => { r with busy := r.busy + 1 }) h hk
    ⟨rfl, rfl, rfl, rfl, rfl⟩ rfl rfl (Nat.le_refl _) (hasCap_self (h.laid.records.ok _ _ hk))
    (show (if r.mem.isSome then touched s.lru key else s.lru).Nodup by
      split_ifs
      · exact nodup_touched hnd key
      · exact hnd)
    (fun k => by
      split_ifs with hm
      · rw [mem_touched hnd]
        refine or_iff_right_of_imp ?_
        rintro rfl
        exact (h.laid.tiered.lru_mem k).mpr ⟨r, hk, Option.isSome_iff_ne_none.mp hm⟩
      · rfl) hs
  refine ⟨h1, h2, h3, ?_, h4⟩
  have : (pin s key).1 = lsPlaceOf ((pin s key).2.recAt key) := rfl
  rw [this, recAt_of_find h3]
  rfl

/-- The end of a transfer. -/
theorem unpin_spec (h : Sound s) (hk : s.find key = some r) :
    Sound (unpin s key) ∧ Stays key s (unpin s key) ∧
      (unpin s key).find key = some { r with busy := r.busy - 1 } ∧
      BytesKept True s (unpin s key) r { r with busy := r.busy - 1 } :=
  setFlags_spec (f := fun r => { r with busy := r.busy - 1 }) h hk ⟨rfl, rfl, rfl, rfl, rfl⟩ rfl rfl
    (Nat.le_refl _) (hasCap_self (h.laid.records.ok _ _ hk)) h.laid.tiered.lru_nodup
    (fun _ => Iff.rfl) rfl

/-- A new attribute, under a key that need not exist. -/
theorem attr_spec (h : Sound s) (key : CStr) (blob : List UInt8) :
    ∃ s', (lsTocFindOrInsert s key).setRec key (fun r => { r with attr := blob }) = s' ∧ Sound s' ∧
      Stays key s s' ∧ s'.find key = some { s.recAt key with attr := blob } ∧
      BytesKept True s s' (s.recAt key) { s.recAt key with attr := blob } := by
  obtain ⟨h1, h2, h3, -, h4⟩ := lsTocFindOrInsert_spec h key
  obtain ⟨g1, g2, g3, g4⟩ := setFlags_spec (f := fun r => { r with attr := blob }) h1 h3
    ⟨rfl, rfl, rfl, rfl, rfl⟩ rfl rfl (Nat.le_refl _) (hasCap_self (h1.laid.records.ok _ _ h3))
    h1.laid.tiered.lru_nodup (fun _ => Iff.rfl) rfl
  exact ⟨_, rfl, g1, h2.trans g2, g3, h4.trans h2.slack g4⟩

/-- Where a call that ends at `fin` asks for more capacity, no tail it takes wraps. -/
def RoomFits (E : Env) (s : Store σ) (key : CStr) (fin : ℕ) : Prop :=
  (s.recAt key).memCap < fin → CapFits E (lsTocFindOrInsert s key) key fin

theorem roomFits_of_le (hF : 2 ^ 64 ≤ E.fuel) (h : Sound s) {fin : ℕ} (hfin : fin ≤ 2 ^ 63) :
    RoomFits E s key fin := by
  intro hlt
  obtain ⟨h1, -, h3, -⟩ := lsTocFindOrInsert_spec h key
  exact capFits_of_le hF h1 h3 hlt hfin

/-- **Room for a write that ends at `fin`**: the record has its size and its capacity, or a call has
failed. -/
structure Roomed (s s' : Store σ) (key : CStr) (fin : ℕ) (rc : Rc) : Prop where
  sound : Sound s'
  stays : Stays key s s'
  clean : clean s'.os → rc = .ok
  record : ∃ r', s'.find key = some r' ∧ r'.busy = (s.recAt key).busy ∧
    r'.attr = (s.recAt key).attr ∧ (s.recAt key).size ≤ r'.size ∧
    (rc = .ok → r'.size = max (s.recAt key).size fin ∧ HasCap r' fin) ∧
    (rc ≠ .ok → r'.size = (s.recAt key).size) ∧
    BytesKept ((s.recAt key).mem = none ∨ fin ≤ (s.recAt key).memCap) s s' (s.recAt key) r'

theorem makeRoom_spec (hF : 2 ^ 64 ≤ E.fuel) (h : Sound s) {fin : ℕ} (hfin : fin < 2 ^ 64)
    (hfit : RoomFits E s key fin) :
    ∃ rc s', makeRoom E s key fin = some (rc, s') ∧ Roomed s s' key fin rc := by
  obtain ⟨h1, h2, h3, -, h4⟩ := lsTocFindOrInsert_spec h key
  obtain ⟨rc, s₁, g1, g2, g3, g4, g5⟩ := ensureCap_spec hF h1 h3 hfin hfit
  obtain ⟨r₁, hk₁, hr₁⟩ := g3.some key _ h3
  have hst₁ : Stays key s s₁ := h2.trans (g3.stays fun k n hk hn => Or.inl ⟨hn, hk⟩)
  have hby₁ : BytesKept ((s.recAt key).mem = none ∨ fin ≤ (s.recAt key).memCap) s s₁
      (s.recAt key) r₁ :=
    (h4.mono fun _ => trivial).trans h2.slack (hr₁.bytes.mono fun hp => Or.inr ⟨rfl, hp⟩)
  rw [makeRoom, g1]
  dsimp only
  by_cases hrc : rc ≠ .ok
  · rw [if_pos hrc]
    exact ⟨rc, s₁, rfl, g2, hst₁, g4, r₁, hk₁, hr₁.busy, hr₁.attr, hr₁.size.ge,
      fun h => absurd h hrc, fun _ => hr₁.size, hby₁⟩
  rw [not_not] at hrc
  subst hrc
  rw [if_neg (by simp)]
  obtain ⟨r', hk', hcap⟩ := g5 rfl
  rw [hk₁] at hk'
  cases hk'
  have hself := hasCap_self (g2.laid.records.ok _ _ hk₁)
  obtain ⟨e1, e2, e3, e4⟩ := setFlags_spec
    (f := fun r => { r with size := if fin > r.size then fin else r.size }) g2 hk₁
    ⟨rfl, rfl, rfl, rfl, rfl⟩ rfl rfl (by dsimp only; split_ifs <;> omega)
    (by
      dsimp only
      split_ifs
      · exact hcap
      · exact hself)
    g2.laid.tiered.lru_nodup (fun _ => Iff.rfl) rfl
  have hsize : (if fin > r₁.size then fin else r₁.size) = max (s.recAt key).size fin := by
    rw [hr₁.size]
    split_ifs <;> omega
  exact ⟨_, _, rfl, e1, hst₁.trans e2, fun _ => rfl, _, e3, hr₁.busy, hr₁.attr,
    hsize.symm ▸ Nat.le_max_left _ _, fun _ => ⟨hsize, hcap⟩, fun h => absurd rfl h,
    hby₁.trans hst₁.slack (e4.mono fun _ => trivial)⟩

end Flags

/-! ## Erasing -/

section Erase

variable {s : Store σ} {key : CStr} {r : Rec}

/-- Freeing all the extents that belong to nobody. -/
theorem freeAll_spec (es : List Extent) {s : Store σ} (h : Laid es s) (hf : s.al.fileEnd ≤ s.flen) :
    ∃ os al, es.foldl freeExtent s = { s with os, al } ∧ Laid [] { s with os, al } ∧
      al.fileEnd ≤ Store.flen { s with os, al } ∧ (clean os → clean s.os) ∧
      ∀ x, Covers s.live x → Store.fbyte { s with os, al } x = s.fbyte x := by
  induction es generalizing s with
  | nil => exact ⟨s.os, s.al, rfl, h, hf, id, fun _ _ => rfl⟩
  | cons e es ih =>
    have hfe : s.al.fileEnd < 2 ^ 64 := by
      have h1 := HonestOs.len_le s.os
      have : OFF_MAX = 2 ^ 63 - 1 := rfl
      rw [Store.flen] at hf
      omega
    have hfr := freed_flInsert h.tiled hfe
    obtain ⟨os, al, h1, h2, h3, h4, h5⟩ := freeExtent_spec h hfe (hfr.le.trans hf)
    obtain ⟨os', al', g1, g2, g3, g4, g5⟩ := ih h2 h3
    refine ⟨os', al', by rw [List.foldl_cons, h1, g1], g2, g3, h4 ∘ g4, fun x hx => ?_⟩
    refine (g5 x hx).trans (h5 x ?_)
    have := (h2.tiled.cover x).mpr (Or.inl (by rw [covers_append]; exact Or.inr hx))
    exact this.2

/-- The store without the record of `key`, whose extents are spare. -/
abbrev unlinked (s : Store σ) (key : CStr) (r : Rec) : Store σ :=
  { s with toc := s.toc.unlink key, lru := s.lru.erase key, resident := s.resident - r.memCap }

omit [HonestOs σ] in
theorem find_unlinked (h : s.toc.WF) (hk : s.find key = some r) (k : CStr) :
    (unlinked s key r).find k = if key = k then none else s.find k :=
  Chained.find_unlink h hk k

omit [HonestOs σ] in
theorem laid_unlinked (h : Laid [] s) (hk : s.find key = some r) :
    Laid (s.exts r) (unlinked s key r) := by
  obtain ⟨hwf, hperm⟩ := Chained.perm_unlink h.records.wf hk
  have hfind := find_unlinked h.records.wf hk
  have hold : ∀ k q, (unlinked s key r).find k = some q → k ≠ key ∧ s.find k = some q := by
    intro k q hq
    rw [hfind] at hq
    split_ifs at hq with hkk
    exact ⟨Ne.symm hkk, hq⟩
  have hsum := (hperm.map Rec.memCap).sum_eq
  simp only [List.map_cons, List.sum_cons] at hsum
  have hres := h.tiered.resident
  refine ⟨⟨hwf, ?_, ?_, ?_⟩, ⟨h.tiered.lru_nodup.erase _, fun k => ?_, ?_, ?_,
    h.tiered.fresh, fun hb k q hq => ?_⟩, h.tiled.perm ?_, h.teardown⟩
  · intro k q hq
    have := h.records.ok k q (hold k q hq).2
    exact ⟨this.noExt, this.next_le, this.extTotal, this.noMem, this.hasMem, this.ext_lt,
      this.mem_lt⟩
  · exact fun k k' q q' p hq hq' => h.records.ext_inj k k' q q' p (hold k q hq).2 (hold k' q' hq').2
  · exact fun k k' q q' p hq hq' => h.records.mem_inj k k' q q' p (hold k q hq).2 (hold k' q' hq').2
  · rw [h.tiered.lru_nodup.mem_erase_iff, h.tiered.lru_mem, hfind]
    split_ifs with hkk
    · simp [hkk]
    · simp [Ne.symm hkk]
  · show s.resident - r.memCap = _
    have e1 : (s.recs.map Rec.memCap).sum =
        r.memCap + ((unlinked s key r).recs.map Rec.memCap).sum := hsum
    omega
  · exact (Nat.sub_le _ _).trans_lt h.tiered.resident_lt
  · exact h.tiered.noTier hb k q (hold k q hq).2
  · exact live_perm (s := s) hperm

/-- Freeing an unlinked record gives its extents back. -/
theorem lsRecFree_spec (h : Sound s) (hk : s.find key = some r) : ∃ os al,
    lsRecFree (lsLruDrop (lsTocUnlink s key) key) r = { unlinked s key r with os, al } ∧
      Laid [] { unlinked s key r with os, al } ∧
      al.fileEnd ≤ Store.flen { unlinked s key r with os, al } ∧ (clean os → clean s.os) ∧
      ∀ x, Covers (unlinked s key r).live x →
        Store.fbyte { unlinked s key r with os, al } x = s.fbyte x := by
  have hlaid := laid_unlinked h.laid hk
  have hok := h.laid.records.ok _ _ hk
  obtain ⟨os, al, h1, h2, h3, h4, h5⟩ := freeAll_spec (s.exts r) hlaid h.flen
  refine ⟨os, al, ?_, h2, h3, h4, h5⟩
  have hres := memCap_le_resident h.laid hk
  have hs₁ : (if r.mem.isSome then { lsLruDrop (lsTocUnlink s key) key with
      resident := if s.resident ≥ r.memCap then s.resident - r.memCap else s.resident }
      else lsLruDrop (lsTocUnlink s key) key) = unlinked s key r := by
    split_ifs with hm
    · rfl
    · have := (hok.noMem (by simpa using hm)).1
      simp only [unlinked, this]
      rfl
  have hs₂ : (if r.mem.isSome then { lsLruDrop (lsTocUnlink s key) key with
      resident := if (lsLruDrop (lsTocUnlink s key) key).resident ≥ r.memCap then
        (lsLruDrop (lsTocUnlink s key) key).resident - r.memCap
        else (lsLruDrop (lsTocUnlink s key) key).resident }
      else lsLruDrop (lsTocUnlink s key) key) = unlinked s key r := hs₁
  rw [lsRecFree]
  dsimp only
  rw [hs₂]
  split_ifs with hx
  · rw [lsFreeExtents, if_neg (by rw [hlaid.teardown]; simp)]
    exact h1
  · have hnil : s.exts r = [] := by
      rw [Store.exts, Option.not_isSome_iff_eq_none.mp hx]
    rw [hnil] at h1
    exact h1

/-- **`ls_erase`** of a record that is there. -/
theorem lsErase_spec (h : Sound s) (hk : s.find key = some r) :
    ∃ s', lsRecFree (lsLruDrop (lsTocUnlink s key) key) r = s' ∧ Sound s' ∧ Stays key s s' ∧
      s'.find key = none ∧ s.live.Perm (s.exts r ++ s'.live) := by
  have hlaid := laid_unlinked h.laid hk
  have hfind := find_unlinked h.laid.records.wf hk
  obtain ⟨os, al, hfree, h2, h3, h4, h5⟩ := lsRecFree_spec h hk
  have hsub : ∀ k q, (unlinked s key r).find k = some q → k ≠ key ∧ s.find k = some q := by
    intro k q hq
    rw [hfind] at hq
    split_ifs at hq with hkk
    exact ⟨Ne.symm hkk, hq⟩
  have hbyte : ∀ k q x, (unlinked s key r).find k = some q → Covers (s.exts q) x →
      Store.fbyte { unlinked s key r with os, al } x = s.fbyte x := fun k q x hq hx =>
    h5 x (covers_live hlaid.records.wf hq hx)
  refine ⟨_, rfl, ?_⟩
  rw [hfree]
  refine ⟨⟨h2, h3⟩, ?_, ?_, ?_⟩
  · refine ⟨⟨rfl, rfl⟩, h4, fun hs => ⟨fun k q i x hq hi hx =>
      (hbyte k q x hq (covers_of_locate hx)).trans (hs.ext k q i x (hsub k q hq).2 hi hx),
      fun k q i p hq => hs.mem k q i p (hsub k q hq).2⟩, fun k hkk hn => ?_, fun k q hkk hq => ?_, fun p n hp => ⟨⟨hp.1,
      fun k q hq => hp.2 k q (hsub k q hq).2⟩, fun _ _ => rfl⟩⟩
    · exact (hfind k).trans (by rw [if_neg (Ne.symm hkk), hn])
    · have hq' : (unlinked s key r).find k = some q := by rw [hfind, if_neg (Ne.symm hkk), hq]
      refine ⟨q, hq', rfl, rfl, rfl, List.prefix_rfl, fun _ => ?_, fun _ _ _ hl => hl⟩
      funext i
      show (s.loc q i).elim 0 _ = (s.loc q i).elim 0 _
      cases hl : s.loc q i with
      | none => rfl
      | some l =>
        cases l with
        | mem p i => rfl
        | file x => exact hbyte k q x hq' (loc_mem_covers hl)
  · exact (hfind key).trans (if_pos rfl)
  · exact live_perm (s := s) (Chained.perm_unlink h.laid.records.wf hk).2

end Erase

end Libspill
