import Libspill.Residency
import Libspill.Shared
import Libspill.Sizes

set_option autoImplicit false

/-!
# Critical sections and the memory tier

What a critical section does to the memory tier, whatever transfers are under way, and which buffers a
transfer copies into.

* `Cut`: a critical section about one key.
* `Call.Inside`, **`each_scatter`**: a transfer copies into the buffer of its snapshot only.
* `Api.Tame`: the calls in which no tail of the file wraps.
* `Enlists`, **`enter_leaves`**: the first critical section of a call.
* `sound_perform`: one call of a transfer.
-/

namespace Libspill

variable {σ : Type}

/-! ## What a critical section does to the tier -/

section Cut

variable [HonestOs σ] {E : Env} {s s' s'' : Store σ} {key : CStr} {n m : ℕ}

/-- A critical section about `key` that starts at most `n` transfers. -/
structure Cut (key : CStr) (n : ℕ) (s s' : Store σ) : Prop where
  sound : Sound s'
  stays : Stays key s s'
  bound : TierBound s s'
  attr : ∀ r, s'.find key = some r →
    r.attr = (s.recAt key).attr ∨ r.attr.length ≤ LS_ATTR_MAX
  busy : (s'.recAt key).busy ≤ (s.recAt key).busy + n

theorem Cut.refl (h : Sound s) : Cut key 0 s s :=
  ⟨h, .refl, ⟨Nat.le_max_left _ _, Nat.le_refl _⟩, fun r hr => Or.inl (by rw [recAt_of_find hr]),
    Nat.le_refl _⟩

theorem Cut.trans (h : Cut key n s s') (h' : Cut key m s' s'') : Cut key (n + m) s s'' where
  sound := h'.sound
  stays := h.stays.trans h'.stays
  bound := by
    have h1 := h.bound
    have h2 := h'.bound
    rw [TierBound, h.stays.opts.1] at h2
    exact ⟨h2.1.trans (max_le h1.1 (Nat.le_max_right _ _)), h1.2.trans h2.2⟩
  attr r hr := by
    rcases h'.attr r hr with ha | ha
    · cases hk : s'.find key with
      | none =>
        rw [recAt_of_none hk] at ha
        exact Or.inr (by rw [ha]; exact Nat.zero_le _)
      | some r' =>
        rw [recAt_of_find hk] at ha
        rw [ha]
        exact h.attr r' hk
    · exact Or.inr ha
  busy := by
    have h1 := h.busy
    have h2 := h'.busy
    omega

theorem Cut.named (h : Cut key n s s') (hkey : lsKeyOk key = true) (hn : Named s) : Named s' := by
  intro k r hr
  by_cases hk : k = key
  · subst hk
    refine ⟨hkey, ?_⟩
    rcases h.attr r hr with ha | ha
    · rw [ha]
      cases hf : s.find k with
      | none =>
        rw [recAt_of_none hf]
        exact Nat.zero_le _
      | some q =>
        rw [recAt_of_find hf]
        exact (hn k q hf).2
    · exact ha
  · cases hf : s.find k with
    | none =>
      rw [h.stays.none k hk hf] at hr
      cases hr
    | some q =>
      obtain ⟨r', hr', hkept⟩ := h.stays.some k q hk hf
      rw [hr] at hr'
      cases hr'
      rw [hkept.attr]
      exact hn k q hf

theorem cut_pin (h : Sound s) {r : Rec} (hk : s.find key = some r) : Cut key 1 s (pin s key).2 := by
  obtain ⟨h1, h2, h3, -, -⟩ := pin_spec h hk
  have hpin : (pin s key).2.resident = s.resident ∧ (pin s key).2.memNext = s.memNext := by
    unfold pin lsLruTouch
    dsimp only
    split_ifs <;> exact ⟨rfl, rfl⟩
  refine ⟨h1, h2, tierBound_of_le hpin.1.le hpin.2, fun r' hr' => Or.inl ?_, ?_⟩
  · rw [h3] at hr'
    cases hr'
    rw [recAt_of_find hk]
  · rw [recAt_of_find h3, recAt_of_find hk]

/-- A snapshot that was just taken names a buffer that the store knows. -/
theorem pin_mem_lt (h : Sound s) {r : Rec} (hk : s.find key = some r) {p : Ptr}
    (hp : (pin s key).1.mem = some p) : p < (pin s key).2.memNext := by
  obtain ⟨h1, -, h3, h4, -⟩ := pin_spec h hk
  rw [h4] at hp
  exact (h1.laid.records.ok _ _ h3).mem_lt p hp

theorem cut_makeRoom (hF : 2 ^ 64 ≤ E.fuel) (h : Sound s) {fin : ℕ} (hfin : fin < 2 ^ 64)
    (hfit : RoomFits E s key fin) : ∃ rc s' r, makeRoom E s key fin = some (rc, s') ∧ Cut key 0 s s' ∧
      s'.find key = some r := by
  obtain ⟨rc, s', h1, h2⟩ := makeRoom_spec hF h hfin hfit
  obtain ⟨r, h3, h4, h5, -⟩ := h2.record
  refine ⟨rc, s', r, h1, ⟨h2.sound, h2.stays, makeRoom_bound h1, fun r' hr' => Or.inl ?_, ?_⟩, h3⟩
  · rw [h3] at hr'
    cases hr'
    exact h5
  · rw [recAt_of_find h3, h4]
    exact Nat.le_refl _

/-- Room, and the start of a transfer. -/
theorem cut_roomPin (hF : 2 ^ 64 ≤ E.fuel) (h : Sound s) {fin : ℕ} (hfin : fin < 2 ^ 64)
    (hfit : RoomFits E s key fin) : ∃ rc s', makeRoom E s key fin = some (rc, s') ∧ Cut key 0 s s' ∧
      Cut key 1 s (pin s' key).2 ∧ ∀ p, (pin s' key).1.mem = some p → p < (pin s' key).2.memNext := by
  obtain ⟨rc, s', r, h1, h2, h3⟩ := cut_makeRoom hF h hfin hfit
  exact ⟨rc, s', h1, h2, h2.trans (cut_pin h2.sound h3), fun p => pin_mem_lt h2.sound h3⟩

theorem cut_erase (h : Sound s) (key : CStr) : Cut key 0 s (lsErase s key).2 := by
  unfold lsErase
  split_ifs
  · exact .refl h
  · exact .refl h
  cases hk : s.find key with
  | none => exact .refl h
  | some r =>
    obtain ⟨s', h1, h2, h3, h4, -⟩ := lsErase_spec h hk
    dsimp only
    have hbound : TierBound s (lsRecFree (lsLruDrop (lsTocUnlink s key) key) r) := by
      have hown : ∀ (s : Store σ) (e : List Extent), (lsFreeExtents s e).resident = s.resident ∧
          (lsFreeExtents s e).memNext = s.memNext := by
        intro s e
        have := lsFreeExtents_withTier s s.lru s.resident s.memNext e
        rw [show s.withTier s.lru s.resident s.memNext = s from rfl] at this
        rw [this]
        exact ⟨rfl, rfl⟩
      have hsub : (if s.resident ≥ r.memCap then s.resident - r.memCap else s.resident) ≤ s.resident := by
        split_ifs
        · exact Nat.sub_le _ _
        · exact Nat.le_refl _
      unfold lsRecFree
      dsimp only
      by_cases he : r.ext.isSome = true
      · rw [if_pos he]
        refine tierBound_of_le ((hown _ _).1.le.trans ?_) ((hown _ _).2.trans ?_)
        · by_cases hm : r.mem.isSome = true
          · rw [if_pos hm]
            exact hsub
          · rw [if_neg hm]
            exact Nat.le_refl _
        · split_ifs <;> rfl
      · rw [if_neg he]
        by_cases hm : r.mem.isSome = true
        · rw [if_pos hm]
          exact tierBound_of_le hsub rfl
        · rw [if_neg hm]
          exact tierBound_of_le (Nat.le_refl _) rfl
    rw [h1] at hbound ⊢
    refine ⟨h2, h3, hbound, fun r' hr' => ?_, ?_⟩
    · rw [h4] at hr'
      cases hr'
    · rw [recAt_of_none h4]
      exact Nat.zero_le _

theorem cut_setAttr (h : Sound s) (key : CStr) (blob : List UInt8) : Cut key 0 s (lsSetAttr s key blob).2 := by
  unfold lsSetAttr
  split_ifs with h1 h2 h3
  · exact .refl h
  · exact .refl h
  · exact .refl h
  obtain ⟨s', g1, g2, g3, g4, -⟩ := attr_spec h key blob
  have hbound : TierBound s ((lsTocFindOrInsert s key).setRec key fun r => { r with attr := blob }) := by
    unfold lsTocFindOrInsert
    cases s.find key <;> exact tierBound_of_le (Nat.le_refl _) rfl
  dsimp only
  rw [g1] at hbound ⊢
  refine ⟨g2, g3, hbound, fun r' hr' => Or.inr ?_, ?_⟩
  · rw [g4] at hr'
    cases hr'
    exact not_lt.mp h2
  · rw [recAt_of_find g4]
    exact Nat.le_refl _

end Cut

/-! ## The transfers -/

section Transfers

variable {E : Env} {N : ℕ}

/-- The call copies into one of the first `N` buffers, if it copies into a buffer. -/
def Call.Inside (N : ℕ) : Call → Prop
  | .store p _ _ => p < N
  | _ => True

theorem Call.Inside.mono {M : ℕ} (h : N ≤ M) {c : Call} (hc : c.Inside N) : c.Inside M := by
  cases c with
  | store p off b => exact lt_of_lt_of_le hc h
  | _ => trivial

theorem each_plain (write : Bool) (cbuf : List UInt8) (n off fuel done : ℕ) (out : List UInt8) :
    (plain write cbuf n off fuel done out).Each (Call.Inside N) := by
  induction fuel generalizing done out with
  | zero => trivial
  | succ fuel ih =>
    rw [plain]
    split_ifs
    · refine ⟨trivial, fun a => ?_⟩
      rcases a with e | k <;> dsimp only <;> split_ifs <;> first | exact ih _ _ | trivial
    · refine ⟨trivial, fun a => ?_⟩
      rcases a with e | k <;> dsimp only <;> split_ifs <;> first | exact ih _ _ | trivial
    · trivial

theorem each_bounce (write : Bool) (cbuf : List UInt8) (n off fuel done : ℕ) (out : List UInt8) :
    (bounce write cbuf n off fuel done out).Each (Call.Inside N) := by
  induction fuel generalizing done out with
  | zero => trivial
  | succ fuel ih =>
    rw [bounce]
    by_cases hd : done < n
    case neg =>
      rw [if_neg hd]
      trivial
    rw [if_pos hd]
    dsimp only
    generalize (add64 off done) / LS_ALIGN * LS_ALIGN = base
    generalize add64 off done - base = skew
    generalize (if n - done > LS_BOUNCE - skew then LS_BOUNCE - skew else n - done) = chunk
    generalize (skew + chunk + LS_ALIGN - 1) / LS_ALIGN * LS_ALIGN = span
    -- what follows the last call of a turn
    have hput : ∀ (b : List UInt8) (k : Except Errno ℕ → Io (Rc × List UInt8)),
        (∀ e, (k (.error e)).Each (Call.Inside N)) → (∀ j, (k (.ok j)).Each (Call.Inside N)) →
        (Io.pwrite b base k).Each (Call.Inside N) := by
      intro b k herr hok
      refine ⟨trivial, fun a => ?_⟩
      cases a with
      | error e => exact herr e
      | ok j => exact hok j
    have hagain : ∀ e : Errno, (if e = .eintr then bounce write cbuf n off fuel done out
        else .ret (.errno e, out)).Each (Call.Inside N) := by
      intro e
      split_ifs
      · exact ih _ _
      · trivial
    split_ifs
    · refine ⟨trivial, fun a => ?_⟩
      cases a with
      | error e => trivial
      | ok b => exact hput _ _ hagain fun _ => ih _ _
    · exact hput _ _ hagain fun _ => ih _ _
    · refine ⟨trivial, fun a => ?_⟩
      cases a with
      | error e => exact hagain e
      | ok b => exact ih _ _

theorem each_rwAll (direct : Bool) (addr : ℕ) (write : Bool) (cbuf : List UInt8) (n off : ℕ) :
    (rwAll E direct addr write cbuf n off).Each (Call.Inside N) := by
  rw [rwAll]
  split_ifs
  · trivial
  · exact each_plain _ _ _ _ _ _ _
  · exact each_bounce _ _ _ _ _ _ _

theorem each_scatterLoop (direct : Bool) (addr : ℕ) (write : Bool) (buf : List UInt8) (p : Ptr)
    (off n left i base done : ℕ) (out : List UInt8) :
    (scatterLoop E direct addr write buf p off n left i base done out).Each (Call.Inside N) := by
  induction left generalizing i base done out with
  | zero => trivial
  | succ left ih =>
    rw [scatterLoop]
    by_cases hd : done < n
    case neg =>
      rw [if_neg hd]
      trivial
    rw [if_pos hd]
    refine ⟨trivial, fun e => ?_⟩
    dsimp only
    by_cases hpast : add64 off done ≥ add64 base e.len
    · rw [if_pos hpast]
      exact ih _ _ _ _
    rw [if_neg hpast]
    refine Prog.each_bind (each_rwAll _ _ _ _ _ _) fun a => ?_
    by_cases hrc : a.1 ≠ .ok
    · rw [if_pos hrc]
      trivial
    · rw [if_neg hrc]
      exact ih _ _ _ _

/-- **A transfer copies only into the buffer of its snapshot.** -/
theorem each_scatter {pl : Place} (hpl : ∀ p, pl.mem = some p → p < N) (direct : Bool) (off n : ℕ)
    (write : Bool) (addr : ℕ) (buf : List UInt8) :
    (lsScatter E direct pl off n write addr buf).Each (Call.Inside N) := by
  unfold lsScatter
  by_cases hn : n = 0
  · rw [if_pos hn]
    trivial
  rw [if_neg hn]
  cases hm : pl.mem with
  | none => exact each_scatterLoop _ _ _ _ _ _ _ _ _ _ _ _
  | some p =>
    dsimp only
    split_ifs
    · exact ⟨hpl p hm, fun _ => trivial⟩
    · exact ⟨trivial, fun _ => trivial⟩

theorem each_segvLoop {pl : Place} (hpl : ∀ p, pl.mem = some p → p < N) (direct : Bool) (write : Bool)
    (segs : List Seg) (outs : List (List UInt8)) :
    (segvLoop E direct pl write segs outs).Each (Call.Inside N) := by
  induction segs generalizing outs with
  | nil => trivial
  | cons g segs ih =>
    rw [segvLoop]
    refine Prog.each_bind (each_scatter hpl _ _ _ _ _ _) fun a => ?_
    dsimp only
    split_ifs
    · trivial
    · exact ih _

theorem each_accumulate {pl : Place} (hpl : ∀ p, pl.mem = some p → p < N) (direct : Bool) (op : Reduce)
    (tmp : ℕ) (buf : List UInt8) (off : ℕ) :
    (accumulate E direct pl op tmp buf off).Each (Call.Inside N) := by
  have hloop : ∀ fuel done, (accumulateLoop E direct pl op tmp buf off buf.length fuel done).Each
      (Call.Inside N) := by
    intro fuel
    induction fuel with
    | zero => exact fun _ => trivial
    | succ fuel ih =>
      intro done
      rw [accumulateLoop]
      by_cases hd : done < buf.length
      case neg =>
        rw [if_neg hd]
        trivial
      rw [if_pos hd]
      refine Prog.each_bind (each_scatter hpl _ _ _ _ _ _) fun a => ?_
      obtain ⟨rc, b⟩ := a
      by_cases hrc : rc ≠ .ok
      · simp only [if_pos hrc]
        trivial
      simp only [if_neg hrc]
      refine Prog.each_bind (each_scatter hpl _ _ _ _ _ _) fun a => ?_
      obtain ⟨rc', b'⟩ := a
      by_cases hrc' : rc' ≠ .ok
      · simp only [if_pos hrc']
        trivial
      · simp only [if_neg hrc']
        exact ih _
  unfold accumulate
  cases hm : pl.mem with
  | none => exact hloop _ _
  | some p => exact ⟨trivial, fun b => ⟨hpl p hm, fun _ => trivial⟩⟩

end Transfers

/-! ## Conditions -/

section Conditions

variable [HonestOs σ] {E : Env} {s : Store σ} {key : CStr} {fin : ℕ}

/-- The arguments are 64-bit numbers, and where the call asks for capacity no tail wraps. A shared store
has no tail. -/
def Api.Tame (E : Env) (a : Api) (s : Store σ) : Prop :=
  a.Args64 ∧ (s.o.parallel ≠ .shared → a.Fits E s)

/-- A write inside a record needs no capacity. -/
theorem roomFits_of_covered (hF : 2 ^ 64 ≤ E.fuel) (h : Sound s) {r : Rec} (hk : s.find key = some r)
    (hle : fin ≤ r.size) : RoomFits E s key fin := by
  intro hlt
  rw [recAt_of_find hk] at hlt
  have hok := h.laid.records.ok _ _ hk
  have hm : r.mem = none := by
    by_contra hm
    have := (hok.hasMem hm).2
    omega
  have hins : lsTocFindOrInsert s key = s := by rw [lsTocFindOrInsert, hk]
  rw [hins]
  intro s₁ s₂ h1 h2 k
  obtain ⟨b, s₁', h3, h4⟩ := tryMemory_spec hF h hk hlt
  rw [h1] at h3
  cases h3
  have hk₁ := h4.same rfl
  rw [spill_none hk₁ hm] at h2
  cases h2
  have hcov := (hok.noMem hm).2
  rw [recAt_of_find hk₁, Nat.sub_eq_zero_of_le (hle.trans hcov)]
  cases k with
  | zero => trivial
  | succ k => exact fun h0 => absurd h0 (Nat.lt_irrefl 0)

/-- A call that a shared store does not refuse needs no capacity. -/
theorem roomFits_of_shared (hF : 2 ^ 64 ≤ E.fuel) (h : Sound s) (hsh : s.o.parallel = .shared)
    (hfz : ¬ frozen s key fin = true) : RoomFits E s key fin := by
  rw [frozen, hsh, decide_eq_true rfl, Bool.true_and, Bool.or_eq_true, not_or, decide_eq_true_iff,
    not_lt] at hfz
  obtain ⟨r, hr⟩ := Option.ne_none_iff_exists'.mp (by simpa using hfz.1)
  rw [recAt_of_find hr] at hfz
  exact roomFits_of_covered hF h hr hfz.2

/-- Where a call is not refused for its mode it has the room it needs. -/
theorem roomFits_of_tame (hF : 2 ^ 64 ≤ E.fuel) (h : Sound s)
    (hfit : s.o.parallel ≠ .shared → RoomFits E s key fin) (hfz : ¬ frozen s key fin = true) :
    RoomFits E s key fin := by
  by_cases hsh : s.o.parallel = .shared
  · exact roomFits_of_shared hF h hsh hfz
  · exact hfit hsh

end Conditions

/-! ## Calls -/

section Entering

variable [HonestOs σ] {E : Env} {s s' : Store σ} {key : CStr} {n : ℕ}

/-- What a critical section that starts at most `n` transfers on `key` leaves. -/
structure Enlists (key : CStr) (n : ℕ) (s s' : Store σ) : Prop where
  sound : Sound s'
  opts : s'.o = s.o
  named : Named s → Named s'
  bound : TierBound s s'
  busy : ∀ k, (s'.recAt k).busy ≤ (s.recAt k).busy + if key = k then n else 0

theorem Enlists.refl (h : Sound s) : Enlists key 0 s s :=
  ⟨h, rfl, id, ⟨Nat.le_max_left _ _, Nat.le_refl _⟩, fun _ => Nat.le_add_right _ _⟩

theorem Cut.enlists (h : Cut key n s s') (hkey : lsKeyOk key = true) : Enlists key n s s' := by
  refine ⟨h.sound, h.stays.opts.1, h.named hkey, h.bound, fun k => ?_⟩
  split_ifs with hk
  · subst hk
    exact h.busy
  cases hf : s.find k with
  | none =>
    rw [recAt_of_none (h.stays.none k (Ne.symm hk) hf)]
    exact Nat.zero_le _
  | some r =>
    obtain ⟨r', hr', hkept⟩ := h.stays.some k r (Ne.symm hk) hf
    rw [recAt_of_find hr', recAt_of_find hf, hkept.busy]
    exact Nat.le_refl _

/-- What a critical section that takes the place of a record, if it does, leaves. -/
def Takes (key : CStr) (s : Store σ) : Except Rc Place → Store σ → Prop
  | .error _, s' => Enlists key 0 s s'
  | .ok pl, s' => Enlists key 1 s s' ∧ ∀ p, pl.mem = some p → p < s'.memNext

/-- What the first critical section of a call leaves. -/
def Begun.Leaves (s : Store σ) : Begun → Store σ → Prop
  | .done _, s' => ∃ key, Enlists key 0 s s'
  | .going key p, s' => Enlists key 1 s s' ∧ p.Each (Call.Inside s'.memNext)

theorem takes_pin (h : Sound s) (hkey : lsKeyOk key = true) {r : Rec} (hk : s.find key = some r) :
    Takes key s (.ok (pin s key).1) (pin s key).2 :=
  ⟨(cut_pin h hk).enlists hkey, fun _ => pin_mem_lt h hk⟩

theorem takes_room (hF : 2 ^ 64 ≤ E.fuel) (h : Sound s) (hkey : lsKeyOk key = true) {fin : ℕ}
    (hfin : fin < 2 ^ 64) (hfit : RoomFits E s key fin) : ∃ rc s', makeRoom E s key fin = some (rc, s') ∧
      Enlists key 0 s s' ∧ Takes key s (.ok (pin s' key).1) (pin s' key).2 := by
  obtain ⟨rc, s', h1, h2, h3, h4⟩ := cut_roomPin hF h hfin hfit
  exact ⟨rc, s', h1, h2.enlists hkey, h3.enlists hkey, h4⟩

theorem takes_write (hF : 2 ^ 64 ≤ E.fuel) (h : Sound s) {off n : ℕ} (hoff : off < 2 ^ 64)
    (hn : n < 2 ^ 64) (hfit : off + n < 2 ^ 64 → s.o.parallel ≠ .shared → RoomFits E s key (off + n)) :
    ∃ x s', writeBegin E s key off n = some (x, s') ∧ Takes key s x s' := by
  unfold writeBegin
  split_ifs with h1 h2 h3
  · exact ⟨_, s, rfl, .refl h⟩
  · exact ⟨_, s, rfl, .refl h⟩
  · exact ⟨_, s, rfl, .refl h⟩
  have hlt : off + n < 2 ^ 64 := not_le.mp fun hle => h2 ((add64_lt_iff hoff hn).mpr hle)
  rw [add64_eq hlt] at h3 ⊢
  obtain ⟨rc, s', g1, g2, g3⟩ := takes_room hF h (by simpa using h1) hlt (roomFits_of_tame hF h (hfit hlt) h3)
  rw [g1]
  dsimp only
  split_ifs
  · exact ⟨_, s', rfl, g2⟩
  · exact ⟨_, _, rfl, g3⟩

theorem takes_read (h : Sound s) (off n : ℕ) :
    Takes key s (readBegin s key off n).1 (readBegin s key off n).2 := by
  unfold readBegin
  split_ifs with h1 h2 h3
  · exact .refl h
  · exact .refl h
  · exact .refl h
  · exact .refl h
  · obtain ⟨r, hr⟩ := Option.ne_none_iff_exists'.mp (by simpa using h3)
    exact takes_pin h (by simpa using h1) hr

theorem takes_append (hF : 2 ^ 64 ≤ E.fuel) (h : Sound s) {n : ℕ}
    (hfit : s.o.parallel ≠ .shared → n < 2 ^ 64 ∧ ((s.recAt key).size + n < 2 ^ 64 →
      RoomFits E (lsTocFindOrInsert s key) key ((s.recAt key).size + n))) :
    ∃ x s', appendBegin E s key n = some (x, s') ∧ Takes key s (x.map Prod.snd) s' := by
  unfold appendBegin
  split_ifs with h1 h2
  · exact ⟨_, s, rfl, .refl h⟩
  · exact ⟨_, s, rfl, .refl h⟩
  have hkey : lsKeyOk key = true := by simpa using h1
  obtain ⟨hn, hfit⟩ := hfit h2
  obtain ⟨g1, g2, g3, -, -⟩ := lsTocFindOrInsert_spec h key
  have hbound : TierBound s (lsTocFindOrInsert s key) := by
    unfold lsTocFindOrInsert
    cases s.find key <;> exact tierBound_of_le (Nat.le_refl _) rfl
  have hins : Cut key 0 s (lsTocFindOrInsert s key) := by
    refine ⟨g1, g2, hbound, fun r hr => Or.inl ?_, ?_⟩
    · rw [g3] at hr
      cases hr
      rfl
    · rw [recAt_of_find g3]
      exact Nat.le_refl _
  dsimp only
  rw [recAt_of_find g3]
  split_ifs with h3
  · exact ⟨_, _, rfl, hins.enlists hkey⟩
  have hlt : (s.recAt key).size + n < 2 ^ 64 := not_le.mp fun hle =>
    h3 ((add64_lt_iff ((size_lt h key).trans (by decide)) hn).mpr hle)
  rw [add64_eq hlt]
  obtain ⟨rc, s', k1, k2, k3, k4⟩ := cut_roomPin hF g1 hlt (hfit hlt)
  rw [k1]
  dsimp only
  split_ifs
  · exact ⟨_, s', rfl, (hins.trans k2).enlists hkey⟩
  · exact ⟨_, _, rfl, (hins.trans k3).enlists hkey, k4⟩

theorem takes_segv (hF : 2 ^ 64 ≤ E.fuel) (h : Sound s) (hkey : lsKeyOk key = true) {hi : ℕ} {write : Bool}
    (hhi : hi < 2 ^ 64) (hfit : write = true → s.o.parallel ≠ .shared → RoomFits E s key hi) :
    ∃ x s', segvBegin E s key hi write = some (x, s') ∧ Takes key s x s' := by
  unfold segvBegin
  split_ifs with h1 h2 h3 h4
  · exact ⟨_, s, rfl, .refl h⟩
  · obtain ⟨rc, s', g1, g2, g3⟩ := takes_room hF h hkey hhi (roomFits_of_tame hF h (hfit h1) h2)
    rw [g1]
    dsimp only
    split_ifs
    · exact ⟨_, s', rfl, g2⟩
    · exact ⟨_, _, rfl, g3⟩
  · exact ⟨_, s, rfl, .refl h⟩
  · exact ⟨_, s, rfl, .refl h⟩
  · obtain ⟨r, hr⟩ := Option.ne_none_iff_exists'.mp (by simpa using h3)
    exact ⟨_, _, rfl, takes_pin h hkey hr⟩

theorem enlists_erase (h : Sound s) (key : CStr) : Enlists key 0 s (lsErase s key).2 := by
  by_cases hkey : lsKeyOk key = true
  · exact (cut_erase h key).enlists hkey
  · have hbad : (!lsKeyOk key) = true := by simpa using hkey
    unfold lsErase
    rw [if_pos hbad]
    exact .refl h

theorem enlists_setAttr (h : Sound s) (key : CStr) (blob : List UInt8) :
    Enlists key 0 s (lsSetAttr s key blob).2 := by
  by_cases hkey : lsKeyOk key = true
  · exact (cut_setAttr h key blob).enlists hkey
  · have hbad : (!lsKeyOk key) = true := by simpa using hkey
    unfold lsSetAttr
    rw [if_pos hbad]
    exact .refl h

theorem leaves_xfer {pl : Place} (h : Takes key s (.ok pl) s') {off n addr : ℕ} {buf : List UInt8}
    {write : Bool} (f : Rc × List UInt8 → Out) :
    (Entered.xfer ⟨key, write, off, n⟩ pl (do
      let r ← lsScatter E s'.direct pl off n write addr buf
      .ret (f r))).begun.Leaves s s' :=
  ⟨h.1, Prog.each_bind (Prog.each_bind (each_scatter h.2 _ _ _ _ _ _) fun _ => trivial) fun _ => trivial⟩

/-- **The first critical section of a plain call.** -/
theorem leaves_plain (hF : 2 ^ 64 ≤ E.fuel) (h : Sound s) {op : Op} (hfit : (Api.plain op).Tame E s) :
    ∃ ent s', op.enter E s = some (ent, s') ∧ ent.begun.Leaves s s' := by
  obtain ⟨h64, hfit⟩ := hfit
  cases op with
  | write key off buf addr =>
    obtain ⟨x, s', g1, g2⟩ := takes_write hF h h64.1 h64.2 fun hlt hsh => (hfit hsh).2.2 hlt
    simp only [Op.enter]
    rw [g1]
    cases x with
    | error rc => exact ⟨_, _, rfl, key, g2⟩
    | ok pl => exact ⟨_, _, rfl, leaves_xfer g2 _⟩
  | read key off n addr =>
    have g1 : Takes key s (readBegin s key off n).1 (readBegin s key off n).2 := takes_read h off n
    simp only [Op.enter]
    rcases hx : readBegin s key off n with ⟨x, s'⟩
    rw [hx] at g1
    cases x with
    | error rc => exact ⟨_, _, rfl, key, g1⟩
    | ok pl => exact ⟨_, _, rfl, leaves_xfer g1 _⟩
  | append key buf addr =>
    obtain ⟨x, s', g1, g2⟩ := takes_append hF h hfit
    simp only [Op.enter]
    rw [g1]
    rcases x with rc | ⟨off, pl⟩
    · exact ⟨_, _, rfl, key, g2⟩
    · exact ⟨_, _, rfl, leaves_xfer g2 _⟩
  | reserve key nbytes =>
    simp only [Op.enter, lsReserve]
    split_ifs with h1 h2
    · exact ⟨_, _, rfl, key, .refl h⟩
    · exact ⟨_, _, rfl, key, .refl h⟩
    · obtain ⟨rc, s', g1, g2, -⟩ := takes_room hF h (by simpa using h1) (hfit h2).1 (hfit h2).2
      rw [g1]
      exact ⟨_, _, rfl, key, g2⟩
  | erase key => exact ⟨_, _, rfl, key, enlists_erase h key⟩
  | setAttr key blob => exact ⟨_, _, rfl, key, enlists_setAttr h key blob⟩
  | size key => exact ⟨_, _, rfl, key, .refl h⟩
  | «exists» key => exact ⟨_, _, rfl, key, .refl h⟩
  | getAttr key cap => exact ⟨_, _, rfl, key, .refl h⟩
  | keys => exact ⟨_, _, rfl, cstr [], .refl h⟩

theorem leaves_vectored (hF : 2 ^ 64 ≤ E.fuel) (h : Sound s) {segs : List Seg} {write : Bool}
    (hfit : (Api.vectored key segs write).Tame E s) :
    ∃ b s', segvEnter E s key segs write = some (b, s') ∧ b.Leaves s s' := by
  obtain ⟨h64, hfit⟩ := hfit
  unfold segvEnter
  split_ifs with h1 h2
  · exact ⟨_, _, rfl, key, .refl h⟩
  · exact ⟨_, _, rfl, key, .refl h⟩
  rcases segs_error_or segs with hok | ⟨rc, herr⟩
  · have hcheck := segvCheck_ok hok 0
    rw [Nat.zero_max] at hcheck
    obtain ⟨x, s', g1, g2⟩ := takes_segv hF h (by simpa using h1) (top_lt hok)
      fun hw hsh => (hfit hsh).2 hw
    rw [hcheck]
    dsimp only
    rw [g1]
    cases x with
    | error rc => exact ⟨_, _, rfl, key, g2⟩
    | ok pl =>
      exact ⟨_, _, rfl, g2.1, Prog.each_bind (each_segvLoop g2.2 _ _ _ _) fun _ => trivial⟩
  · rw [segvCheck_error h64 herr]
    exact ⟨_, _, rfl, key, .refl h⟩

theorem leaves_accumulate (hF : 2 ^ 64 ≤ E.fuel) (h : Sound s) {off tmp : ℕ} {buf : List UInt8}
    {op : Option Reduce} (hfit : (Api.accumulate key off buf op tmp).Tame E s) :
    ∃ b s', accumulateEnter E s key off buf op tmp = some (b, s') ∧ b.Leaves s s' := by
  obtain ⟨⟨h1, h2⟩, hfit⟩ := hfit
  cases op with
  | none => exact ⟨_, _, rfl, key, .refl h⟩
  | some op =>
    unfold accumulateEnter
    split_ifs with g1 g2 g3 g4 g5
    · exact ⟨_, _, rfl, key, .refl h⟩
    · exact ⟨_, _, rfl, key, .refl h⟩
    · exact ⟨_, _, rfl, key, .refl h⟩
    · exact ⟨_, _, rfl, key, .refl h⟩
    · exact ⟨_, _, rfl, key, .refl h⟩
    have hlt : off + buf.length < 2 ^ 64 := not_le.mp fun hle => g3 ((add64_lt_iff h1 h2).mpr hle)
    rw [add64_eq hlt] at g5 ⊢
    obtain ⟨rc, s', k1, k2, k3⟩ := takes_room hF h (by simpa using g1) hlt
      (roomFits_of_tame hF h (fun hsh => (hfit hsh).2.2 hlt) g5)
    rw [k1]
    dsimp only
    split_ifs
    · exact ⟨_, _, rfl, key, k2⟩
    · exact ⟨_, _, rfl, k3.1, Prog.each_bind (each_accumulate k3.2 _ _ _ _ _) fun _ => trivial⟩

/-- **The first critical section of a call.** -/
theorem enter_leaves (hF : 2 ^ 64 ≤ E.fuel) (h : Sound s) {a : Api} (hfit : a.Tame E s) :
    ∃ b s', a.enter E s = some (b, s') ∧ b.Leaves s s' := by
  cases a with
  | plain op =>
    obtain ⟨ent, s', g1, g2⟩ := leaves_plain hF h hfit
    refine ⟨ent.begun, s', ?_, g2⟩
    simp only [Api.enter]
    rw [g1]
    rfl
  | vectored key segs write => exact leaves_vectored hF h hfit
  | accumulate key off buf op tmp => exact leaves_accumulate hF h hfit

end Entering

/-! ## Transfers that run -/

section Perform

variable [HonestOs σ] {s : Store σ}

open HonestOs (file)

/-- A file that does not get shorter. -/
theorem sound_withOs (h : Sound s) {os : σ} (hlen : s.flen ≤ (file os).len) : Sound { s with os } :=
  ⟨h.laid.withFile h.laid.tiled, h.flen.trans hlen⟩

/-- **One call of a transfer.** -/
theorem sound_perform (h : Sound s) {q : Call} (hq : q.Inside s.memNext) : Sound (perform q s).2 := by
  cases q with
  | pread n off => exact sound_withOs h (congrArg File.len (HonestOs.pread_file s.os n off)).ge
  | pwrite b off =>
    have hlen := (@perform_fenced σ _ Set.univ 0 [] s (.pwrite b off) fun _ _ => trivial).len
    exact sound_withOs h hlen
  | load p off n => exact h
  | store p off b =>
    have htier := h.laid.tiered
    have hrec := h.laid.records
    refine ⟨⟨⟨hrec.wf, fun k r hk => ?_, hrec.ext_inj, hrec.mem_inj⟩, ?_, h.laid.tiled, h.laid.teardown⟩, h.flen⟩
    · have hok := hrec.ok k r hk
      exact ⟨hok.noExt, hok.next_le, hok.extTotal, hok.noMem, hok.hasMem, hok.ext_lt, hok.mem_lt⟩
    · refine ⟨htier.lru_nodup, htier.lru_mem, htier.resident, htier.resident_lt, fun p' i hp => ?_,
        htier.noTier⟩
      have hne : p' ≠ p := fun he => absurd (lt_of_lt_of_le hq hp) (by rw [he]; exact lt_irrefl _)
      show Function.update s.mem p _ p' i = 0
      rw [Function.update_of_ne hne]
      exact htier.fresh p' i hp
  | extent p i => exact h

/-- The critical section after a transfer. -/
theorem sound_unpin (h : Sound s) (key : CStr) : Sound (unpin s key) := by
  cases hk : s.find key with
  | none =>
    have hsame : unpin s key = s := by
      rw [unpin, Store.setRec, Chained.update_of_none hk]
    rw [hsame]
    exact h
  | some r => exact (unpin_spec h hk).1

/-- It takes one transfer off the record. -/
theorem busy_unpin (h : Sound s) (key k : CStr) :
    ((unpin s key).recAt k).busy = (s.recAt k).busy - if key = k then 1 else 0 := by
  cases hk : s.find key with
  | none =>
    have hsame : unpin s key = s := by
      rw [unpin, Store.setRec, Chained.update_of_none hk]
    rw [hsame]
    split_ifs with hkk
    · subst hkk
      rw [recAt_of_none hk]
      rfl
    · rfl
  | some r =>
    have hfind : (unpin s key).find k = if key = k then some { r with busy := r.busy - 1 } else s.find k :=
      find_setRec h.laid.records.wf hk rfl k
    rw [Store.recAt, hfind]
    split_ifs with hkk
    · subst hkk
      rw [recAt_of_find hk]
      rfl
    · rfl

end Perform

end Libspill
