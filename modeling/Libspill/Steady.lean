import Libspill.Threads

set_option autoImplicit false

/-!
# Transfers that nobody disturbs

* `Op.Beside`: a call that may run beside a transfer on the same key.
* `Steady`: every transfer under way will do its work, whether or not calls of the operating system
  fail, and the records are as busy as the transfers make them.
* `steady_done`, `steady_xfer`: a call enters. `steady_call`, `steady_return`: a transfer goes on.
* **`steady_step`**: every calm step keeps it.
-/

namespace Libspill

variable {σ ι : Type} [HonestOs σ] [Fintype ι] [DecidableEq ι] {E : Env}

open HonestOs (clean)

/-- What `x` writes is nothing that `y` moves. -/
def Xfer.Spares (direct : Bool) (x y : Xfer) : Prop :=
  x.write = true → ∀ i, Reach direct y.off y.n i → ¬ (x.off ≤ i ∧ i < x.off + x.n)

/-- The call may enter beside the transfer `x` on the same key: it leaves the record where it is, and
the two do not write what the other moves. -/
structure Op.Beside (s : Store σ) (x : Xfer) (op : Op) : Prop where
  erases : op.erases = false
  inPlace : op.InPlace s
  spares : ∀ y, op.xfer s = some y → y.Spares s.direct x ∧ x.Spares s.direct y

/-- The step is not one that disturbs a transfer: the call that enters is beside every transfer on
its key. -/
def Config.Calm (E : Env) (i : ι) (c : Config σ ι) : Prop :=
  ∀ op, c.next i = some op → op.Fits E c.store ∧
    ∀ j x pl p, (c.thread j).cur = some (x, pl, p) → op.key? = some x.key → op.Beside c.store x

/-- How many of the transfers `g` are on `k`. -/
def load (g : ι → Option Pend) (k : CStr) : ℕ :=
  ∑ j, (g j).elim 0 fun pd => if pd.x.key = k then 1 else 0

/-- The transfer of a thread. -/
def Holding (s : Store σ) (t : Thread) (o : Option Pend) : Prop :=
  o = none ∧ t.cur = none ∨
    ∃ pd p, o = some pd ∧ t.cur = some (pd.x, pd.pl, p) ∧ Pending s pd p

/-- The transfer `pd` is the one that the call `op` makes. -/
structure Pend.Of (op : Op) (pd : Pend) : Prop where
  key : op.key? = some pd.x.key
  writes : op.writes = pd.x.write
  startsAt : op.startsAt pd.out = pd.x.off
  payload : pd.x.write = true → pd.x.n = op.payload.length ∧
    ∀ i, pd.byte i = op.payload.getD (i - pd.x.off) 0

/-- The threads of a process with the transfers `g` under way. -/
structure Steady (o : Opts) (direct : Bool) (progs : ι → List Op) (g : ι → Option Pend)
    (c : Config σ ι) : Prop where
  sound : Sound c.store
  slack : Slack c.store
  mode : c.store.o = o ∧ c.store.direct = direct
  busy : ∀ k, (c.store.recAt k).busy = load g k
  holding : ∀ j, Holding c.store (c.thread j) (g j)
  spares : ∀ j j' pd pd', j ≠ j' → g j = some pd → g j' = some pd' → pd.x.key = pd'.x.key →
    pd.x.Spares direct pd'.x
  calls : ∀ j, callsOf j c.log ++ (c.thread j).todo = progs j
  answered : ∀ j, (callsOf j c.log).length = (c.thread j).outs.length + (g j).toList.length
  logged : ∀ j pd, g j = some pd → ∃ op, (progs j)[(c.thread j).outs.length]? = some op ∧
    pd.Of op ∧ ⟨j, op, some pd.x⟩ ∈ c.log

section

variable {s s' : Store σ} {g : ι → Option Pend} {key : CStr} {pd : Pend} {i : ι}

omit [HonestOs σ] in
theorem load_update (g : ι → Option Pend) (i : ι) (o : Option Pend) (k : CStr) :
    load (Function.update g i o) k + ((g i).elim 0 fun pd => if pd.x.key = k then 1 else 0) =
      load g k + (o.elim 0 fun pd => if pd.x.key = k then 1 else 0) := by
  have h1 : ∀ f : ι → Option Pend, load f k =
      ((f i).elim 0 fun pd => if pd.x.key = k then 1 else 0) +
        ∑ j ∈ Finset.univ.erase i, (f j).elim 0 fun pd => if pd.x.key = k then 1 else 0 :=
    fun f => (Finset.add_sum_erase _ _ (Finset.mem_univ i)).symm
  have h2 : (∑ j ∈ Finset.univ.erase i, (Function.update g i o j).elim 0
      fun pd => if pd.x.key = k then 1 else 0) =
      ∑ j ∈ Finset.univ.erase i, (g j).elim 0 fun pd => if pd.x.key = k then 1 else 0 :=
    Finset.sum_congr rfl fun j hj => by rw [Function.update_of_ne (Finset.ne_of_mem_erase hj)]
  rw [h1 (Function.update g i o), h1 g, h2, Function.update_self]
  omega

omit [HonestOs σ] in
theorem load_pos (h : g i = some pd) : load g pd.x.key ≠ 0 := by
  have := load_update g i none pd.x.key
  simp only [h, Option.elim_some, Option.elim_none, if_true] at this
  omega

theorem Holding.pending {t : Thread} (h : Holding s t (some pd)) :
    ∃ p, t.cur = some (pd.x, pd.pl, p) ∧ Pending s pd p := by
  rcases h with ⟨h, -⟩ | ⟨pd', p, h1, h2, h3⟩
  · cases h
  · cases h1
    exact ⟨p, h2, h3⟩

theorem Holding.idle {t : Thread} {o : Option Pend} (h : Holding s t o) (ht : t.cur = none) :
    o = none := by
  rcases h with ⟨h, -⟩ | ⟨pd', p, -, h2, -⟩
  · exact h
  · rw [ht] at h2
    cases h2

/-- Transfers that stay pending are held on. -/
theorem Holding.mono {t : Thread} {o : Option Pend} (h : Holding s t o)
    (hp : ∀ pd p, o = some pd → Pending s pd p → Pending s' pd p) : Holding s' t o := by
  rcases h with h | ⟨pd, p, h1, h2, h3⟩
  · exact Or.inl h
  · exact Or.inr ⟨pd, p, h1, h2, hp pd p h1 h3⟩

end


section

variable {o : Opts} {direct : Bool} {progs : ι → List Op} {g : ι → Option Pend} {c : Config σ ι}
  {i : ι}

/-- The calls in the log are calls of the threads' programs. -/
theorem mem_progs_of_log (h : Steady o direct progs g c) {l : Logged ι} (hl : l ∈ c.log) :
    l.op ∈ progs l.thread := by
  rw [← h.calls l.thread]
  exact List.mem_append_left _ (List.mem_map_of_mem (List.mem_filter.mpr ⟨hl, by simp⟩))

theorem mem_progs_of_next (h : Steady o direct progs g c) {op : Op} (hop : c.next i = some op) :
    op ∈ progs i := by
  obtain ⟨-, todo, ht⟩ := Config.next_eq_some.mp hop
  rw [← h.calls i, ht]
  simp

end

/-! ## Entering -/

section Enter

variable {o : Opts} {direct : Bool} {progs : ι → List Op} {g : ι → Option Pend} {c : Config σ ι}
  {i : ι} {op : Op} {todo : List Op} {key : CStr} {ent : Entered} {s' : Store σ}

/-- A transfer is held on through a critical section it has nothing to fear from. -/
theorem pending_enters (h : Steady o direct progs g c) (he : Enters op key c.store ent s')
    (hbeside : ∀ j pd, g j = some pd → pd.x.key = key → op.Beside c.store pd.x) {j : ι} {pd : Pend}
    (hj : g j = some pd) {p : Io Out} (hp : Pending c.store pd p) : Pending s' pd p := by
  by_cases hk : pd.x.key = key
  · subst hk
    obtain ⟨h1, h2, -⟩ := hbeside j pd hj rfl
    exact hp.same he h.slack h1 h2
  · exact hp.other he.sound he.stays h.slack hk (by rw [h.busy]; exact load_pos hj)

/-- A call beside every transfer on its key leaves the records as busy as they were. -/
theorem busy_enters (h : Steady o direct progs g c) {out : Out}
    (he : Enters op key c.store (.done out) s')
    (hbeside : ∀ j pd, g j = some pd → pd.x.key = key → op.Beside c.store pd.x) (k : CStr) :
    (s'.recAt k).busy = (c.store.recAt k).busy := by
  have hbusy : op.erases = false ∨ (c.store.recAt key).busy = 0 := by
    by_cases hl : load g key = 0
    · exact Or.inr ((h.busy key).trans hl)
    · obtain ⟨j, -, hj⟩ := Finset.exists_ne_zero_of_sum_ne_zero hl
      cases hgj : g j with
      | none => simp [hgj] at hj
      | some pd =>
        rw [hgj] at hj
        simp only [Option.elim_some, ne_eq, ite_eq_right_iff, one_ne_zero, imp_false,
          not_not] at hj
        exact Or.inl (hbeside j pd hgj hj).erases
  by_cases hk : k = key
  · rw [hk]
    exact he.busy hbusy
  · exact he.stays.busy hk

/-- A call that was over in its critical section. -/
theorem steady_done (h : Steady o direct progs g c) (hi : (c.thread i).cur = none)
    (ht : (c.thread i).todo = op :: todo) {out : Out} (hs : Sound s') (hsl : Slack s')
    (hmode : s'.o = c.store.o ∧ s'.direct = c.store.direct)
    (hbusy : ∀ k, (s'.recAt k).busy = (c.store.recAt k).busy)
    (hpend : ∀ j pd p, g j = some pd → Pending c.store pd p → Pending s' pd p) :
    Steady o direct progs g ⟨s', Function.update c.thread i ((c.thread i).enter todo (.done out)),
      c.log ++ [⟨i, op, none⟩]⟩ := by
  have hgi := (h.holding i).idle hi
  refine ⟨hs, hsl, ⟨hmode.1.trans h.mode.1, hmode.2.trans h.mode.2⟩,
    fun k => (hbusy k).trans (h.busy k), fun j => ?_, h.spares, fun j => ?_, fun j => ?_,
    fun j pd hj => ?_⟩
  · by_cases hj : j = i
    · subst hj
      dsimp only
      rw [Function.update_self, hgi]
      exact Or.inl ⟨rfl, hi⟩
    · dsimp only
      rw [Function.update_of_ne hj]
      exact (h.holding j).mono fun pd p => hpend j pd p
  · dsimp only
    rw [callsOf_append, ← h.calls j]
    by_cases hj : j = i
    · subst hj
      rw [Function.update_self, if_pos rfl, ht]
      simp [Thread.enter]
    · rw [Function.update_of_ne hj, if_neg (Ne.symm hj), List.append_nil]
  · have ha := h.answered j
    dsimp only
    rw [callsOf_append]
    by_cases hj : j = i
    · subst hj
      rw [hgi] at ha
      simp only [Function.update_self, if_true, List.length_append, Thread.enter,
        List.length_singleton, hgi, ha]
      rfl
    · rw [Function.update_of_ne hj, if_neg (Ne.symm hj), List.append_nil, ha]
  · obtain ⟨op', h1, h2, h3⟩ := h.logged j pd hj
    have hji : j ≠ i := by
      rintro rfl
      rw [hgi] at hj
      cases hj
    refine ⟨op', ?_, h2, List.mem_append_left _ h3⟩
    dsimp only
    rw [Function.update_of_ne hji]
    exact h1

/-- The next call of a thread. -/
theorem next_of_progs (h : Steady o direct progs g c) (hi : (c.thread i).cur = none)
    (ht : (c.thread i).todo = op :: todo) : (progs i)[(c.thread i).outs.length]? = some op := by
  have ha : (callsOf i c.log).length = (c.thread i).outs.length := by
    rw [h.answered i, (h.holding i).idle hi]
    rfl
  rw [← h.calls i, ht, List.getElem?_append_right ha.le, ha, Nat.sub_self]
  rfl

/-- A call that goes on to a transfer. -/
theorem steady_xfer (h : Steady o direct progs g c) (hi : (c.thread i).cur = none)
    (ht : (c.thread i).todo = op :: todo) {x : Xfer} {pl : Place} {p : Io Out} (he : Enters op key c.store (.xfer x pl p) s')
    (hbeside : ∀ j pd, g j = some pd → pd.x.key = key → op.Beside c.store pd.x) {pd : Pend} {r : Rec}
    (hpx : pd.x = x) (hpl : pd.pl = pl) (hready : Ready s' pd p r) (hof : pd.Of op) :
    Steady o direct progs (Function.update g i (some pd))
      ⟨s', Function.update c.thread i ((c.thread i).enter todo (.xfer x pl p)),
        c.log ++ [⟨i, op, some x⟩]⟩ := by
  have hgi := (h.holding i).idle hi
  obtain ⟨hxk, hxf, -⟩ := he.going x pl p rfl
  have hpend := hready.pending he.sound
  refine ⟨he.sound, he.stays.slack h.slack,
    ⟨he.stays.opts.1.trans h.mode.1, he.stays.opts.2.trans h.mode.2⟩, fun k => ?_, fun j => ?_,
    fun j j' pd₁ pd₂ hjj h1 h2 hk => ?_, fun j => ?_, fun j => ?_, fun j pd' hj => ?_⟩
  · have hl := load_update g i (some pd) k
    simp only [hgi, Option.elim_none, Option.elim_some, Nat.add_zero, hpx, hxk] at hl
    rw [hl, ← h.busy k]
    dsimp only
    by_cases hk : key = k
    · subst hk
      rw [if_pos rfl]
      exact he.busy (Or.inl (Op.write_of_xfer hxf).2)
    · rw [if_neg hk]
      exact he.stays.busy (Ne.symm hk)
  · dsimp only
    by_cases hj : j = i
    · subst hj
      rw [Function.update_self, Function.update_self]
      exact Or.inr ⟨pd, p, rfl, by rw [hpx, hpl]; rfl, hpend⟩
    · rw [Function.update_of_ne hj, Function.update_of_ne hj]
      exact (h.holding j).mono fun pd' p' hj' => pending_enters h he hbeside hj'
  · -- the new transfer was let in beside the others
    rw [← h.mode.2]
    by_cases hj : j = i
    · subst hj
      rw [Function.update_self] at h1
      rw [Function.update_of_ne (Ne.symm hjj)] at h2
      cases h1
      rw [hpx]
      exact ((hbeside j' pd₂ h2 (by rw [← hk, hpx, hxk])).spares x hxf).1
    · rw [Function.update_of_ne hj] at h1
      by_cases hj' : j' = i
      · subst hj'
        rw [Function.update_self] at h2
        cases h2
        rw [hpx]
        exact ((hbeside j pd₁ h1 (by rw [hk, hpx, hxk])).spares x hxf).2
      · rw [Function.update_of_ne hj'] at h2
        rw [h.mode.2]
        exact h.spares j j' pd₁ pd₂ hjj h1 h2 hk
  · dsimp only
    rw [callsOf_append, ← h.calls j]
    by_cases hj : j = i
    · subst hj
      rw [Function.update_self, if_pos rfl, ht]
      simp [Thread.enter]
    · rw [Function.update_of_ne hj, if_neg (Ne.symm hj), List.append_nil]
  · have ha := h.answered j
    dsimp only
    rw [callsOf_append]
    by_cases hj : j = i
    · subst hj
      rw [hgi] at ha
      simp only [Function.update_self, if_true, List.length_append, Thread.enter,
        List.length_singleton, Option.toList_some, ha]
      rfl
    · rw [Function.update_of_ne hj, Function.update_of_ne hj, if_neg (Ne.symm hj), List.append_nil,
        ha]
  · by_cases hj' : j = i
    · subst hj'
      rw [Function.update_self] at hj
      cases hj
      refine ⟨op, ?_, hof, by simp [hpx]⟩
      dsimp only
      rw [Function.update_self]
      exact next_of_progs h hi ht
    · rw [Function.update_of_ne hj'] at hj
      obtain ⟨op', h1, h2, h3⟩ := h.logged j pd' hj
      refine ⟨op', ?_, h2, List.mem_append_left _ h3⟩
      dsimp only
      rw [Function.update_of_ne hj']
      exact h1

end Enter

/-! ## Transfers -/

section Transfers

variable {o : Opts} {direct : Bool} {progs : ι → List Op} {g : ι → Option Pend} {c : Config σ ι}
  {i : ι} {pd : Pend}

/-- The transfer a thread is in. -/
theorem Steady.pending (h : Steady o direct progs g c) (hi : g i = some pd) :
    ∃ p, (c.thread i).cur = some (pd.x, pd.pl, p) ∧ Pending c.store pd p := by
  have hi' := h.holding i
  rw [hi] at hi'
  exact hi'.pending

/-- The region of one transfer is not the target of another. -/
theorem region_disjoint (h : Steady o direct progs g c) {j : ι} {pd' : Pend} (hji : j ≠ i)
    (hj : g j = some pd') (hi : g i = some pd) :
    ∀ l ∈ (pd'.foot c.store.direct).R, l ∉ (pd.foot c.store.direct).T := by
  rintro l ⟨a, hreach, ha⟩ ⟨hw, b, hb1, hb2, hb⟩
  obtain ⟨_, -, hp'⟩ := h.pending hj
  obtain ⟨_, -, hp⟩ := h.pending hi
  obtain ⟨r', hr'⟩ := hp'.snap
  obtain ⟨r, hr⟩ := hp.snap
  have hla := hr'.locs a l ha
  have hlb := hr.locs b l hb
  have hk := loc_disjoint h.sound.laid hr'.find hr.find hla hlb
  have hrr : r' = r := Option.some.inj (hr'.find.symm.trans (hk ▸ hr.find))
  subst hrr
  obtain rfl := loc_inj h.sound.laid hr.find hla hlb
  rw [h.mode.2] at hreach
  exact h.spares i j pd pd' (Ne.symm hji) hi hj hk.symm hw a hreach ⟨hb1, hb2⟩

/-- One call of a transfer. -/
theorem steady_call (h : Steady o direct progs g c) (hi : g i = some pd) {q : Call}
    {k : q.Ans → Io Out} (hcur : (c.thread i).cur = some (pd.x, pd.pl, .call q k)) :
    Steady o direct progs g { c with
      store := (perform q c.store).2
      thread := Function.update c.thread i
        { c.thread i with cur := some (pd.x, pd.pl, k (perform q c.store).1) } } := by
  obtain ⟨p, hp1, hp⟩ := h.pending hi
  rw [hcur] at hp1
  cases hp1
  obtain ⟨hnext, hu⟩ := hp.call
  have hrec := hu.recAt
  have hthread : ∀ j, (Function.update c.thread i
      { c.thread i with cur := some (pd.x, pd.pl, k (perform q c.store).1) } j).outs =
        (c.thread j).outs := by
    intro j
    by_cases hj : j = i
    · subst hj
      rw [Function.update_self]
    · rw [Function.update_of_ne hj]
  refine ⟨sound_untouched h.sound hp.targets hu, slack_untouched h.sound.laid hp.targets hu h.slack,
    ?_, fun k => ?_, fun j => ?_, h.spares, fun j => ?_, fun j => ?_, fun j pd' hj => ?_⟩
  · rw [← h.mode.1, ← h.mode.2]
    dsimp only
    rw [hu.rest]
    exact ⟨rfl, rfl⟩
  · dsimp only
    rw [hrec, h.busy]
  · dsimp only
    by_cases hj : j = i
    · subst hj
      rw [Function.update_self, hi]
      exact Or.inr ⟨pd, _, rfl, rfl, hnext⟩
    · rw [Function.update_of_ne hj]
      exact (h.holding j).mono fun pd' p' hj' hp' =>
        hp'.untouched hu (region_disjoint h hj hj' hi)
  · rw [← h.calls j]
    by_cases hj : j = i
    · subst hj
      dsimp only
      rw [Function.update_self]
    · dsimp only
      rw [Function.update_of_ne hj]
  · dsimp only
    rw [hthread]
    exact h.answered j
  · dsimp only
    rw [hthread]
    exact h.logged j pd' hj

/-- The critical section after a transfer. -/
theorem steady_return (h : Steady o direct progs g c) (hi : g i = some pd) {out : Out}
    (hcur : (c.thread i).cur = some (pd.x, pd.pl, .ret out)) :
    Steady o direct progs (Function.update g i none) { c with
      store := unpin c.store pd.x.key
      thread := Function.update c.thread i
        { c.thread i with cur := none, outs := (c.thread i).outs ++ [out] } } := by
  obtain ⟨p, hp1, hp⟩ := h.pending hi
  rw [hcur] at hp1
  cases hp1
  obtain ⟨r, hr⟩ := hp.snap
  obtain ⟨h1, h2, h3, h4⟩ := unpin_spec h.sound hr.find
  have hold : ∀ j pd', Function.update g i none j = some pd' → j ≠ i ∧ g j = some pd' := by
    intro j pd' hj
    by_cases hji : j = i
    · subst hji
      rw [Function.update_self] at hj
      cases hj
    · rw [Function.update_of_ne hji] at hj
      exact ⟨hji, hj⟩
  have hpend : ∀ j pd' p', g j = some pd' → Pending c.store pd' p' →
      Pending (unpin c.store pd.x.key) pd' p' := by
    intro j pd' p' hj hp'
    by_cases hk : pd'.x.key = pd.x.key
    · refine hp'.kept h1 h2.opts.2 h2.clean h.slack h2.arr fun r' hr' => ?_
      rw [hk, hr.find] at hr'
      cases hr'
      rw [hk]
      exact ⟨_, h3, Nat.le_refl _, h4⟩
    · exact hp'.other h1 h2 h.slack hk (by rw [h.busy]; exact load_pos hj)
  refine ⟨h1, h2.slack h.slack, ⟨h2.opts.1.trans h.mode.1, h2.opts.2.trans h.mode.2⟩, fun k => ?_,
    fun j => ?_, fun j j' pd₁ pd₂ hjj g1 g2 => ?_, fun j => ?_, fun j => ?_, fun j pd' hj => ?_⟩
  · have hl := load_update g i none k
    have hb := h.busy k
    simp only [hi, Option.elim_none, Option.elim_some, Nat.add_zero] at hl
    dsimp only
    by_cases hk : pd.x.key = k
    · subst hk
      rw [if_pos rfl] at hl
      rw [recAt_of_find hr.find] at hb
      rw [recAt_of_find h3]
      dsimp only
      omega
    · rw [if_neg hk] at hl
      rw [h2.busy (Ne.symm hk)]
      omega
  · dsimp only
    by_cases hj : j = i
    · subst hj
      rw [Function.update_self, Function.update_self]
      exact Or.inl ⟨rfl, rfl⟩
    · rw [Function.update_of_ne hj, Function.update_of_ne hj]
      exact (h.holding j).mono fun pd' p' => hpend j pd' p'
  · exact h.spares j j' pd₁ pd₂ hjj (hold j pd₁ g1).2 (hold j' pd₂ g2).2
  · rw [← h.calls j]
    by_cases hj : j = i
    · subst hj
      dsimp only
      rw [Function.update_self]
    · dsimp only
      rw [Function.update_of_ne hj]
  · have ha := h.answered j
    dsimp only
    by_cases hj : j = i
    · subst hj
      rw [hi] at ha
      simp only [Function.update_self, List.length_append, List.length_singleton,
        Option.toList_none, List.length_nil, ha, Option.toList_some, Nat.add_zero]
    · rw [Function.update_of_ne hj, Function.update_of_ne hj, ha]
  · obtain ⟨hji, hj⟩ := hold j pd' hj
    dsimp only
    rw [Function.update_of_ne hji]
    exact h.logged j pd' hj

/-- A call enters beside every transfer on its key. -/
theorem Steady.beside (h : Steady o direct progs g c) (hcalm : c.Calm E i) {op : Op} {key : CStr}
    (hop : c.next i = some op) (hkey : op.key? = some key) :
    ∀ j pd, g j = some pd → pd.x.key = key → op.Beside c.store pd.x := by
  intro j pd hj hk
  obtain ⟨p, hp, -⟩ := h.pending hj
  exact (hcalm op hop).2 j _ _ _ hp (by rw [hkey, hk])

/-- **Every calm step keeps transfers on their way**, whether or not its calls succeed. -/
theorem steady_step (hF : 2 ^ 64 ≤ E.fuel) (h : Steady o direct progs g c) (hcalm : c.Calm E i) :
    ∃ c', c.step E i = some c' ∧ ∃ g', Steady o direct progs g' c' := by
  cases hcur : (c.thread i).cur with
  | some cur =>
    obtain ⟨x, pl, p⟩ := cur
    rcases h.holding i with ⟨-, hn⟩ | ⟨pd, p', hgi, hcur', hp⟩
    · rw [hcur] at hn
      cases hn
    rw [hcur] at hcur'
    cases hcur'
    cases p with
    | ret out => exact ⟨_, Config.step_return hcur, _, steady_return h hgi hcur⟩
    | hang =>
      obtain ⟨v, hv, -⟩ := hp.view
      exact hv.elim
    | call q k => exact ⟨_, Config.step_call hcur, g, steady_call h hgi hcur⟩
  | none =>
    cases ht : (c.thread i).todo with
    | nil => exact ⟨c, by simp only [Config.step, hcur, ht], g, h⟩
    | cons op todo =>
      have hop := Config.next_eq_some.mpr ⟨hcur, todo, ht⟩
      cases hkey : op.key? with
      | none =>
        cases op with
        | keys =>
          exact ⟨_, Config.step_enter hcur ht rfl, g, steady_done h hcur ht h.sound h.slack ⟨rfl, rfl⟩
            (fun _ => rfl) fun _ _ _ _ hp => hp⟩
        | _ => cases hkey
      | some key =>
        obtain ⟨ent, s', h1, h2⟩ := enter_spec hF h.sound hkey (hcalm op hop).1
        have hbes := h.beside hcalm hop hkey
        refine ⟨_, Config.step_enter hcur ht h1, ?_⟩
        cases ent with
        | done out =>
          exact ⟨g, steady_done h hcur ht h2.sound (h2.stays.slack h.slack) h2.stays.opts
            (busy_enters h h2 hbes) fun j pd p hj => pending_enters h h2 hbes hj⟩
        | xfer x pl p =>
          obtain ⟨hxk, hxf, pd, r, hpx, hpl, hready, hpay, -⟩ := h2.going x pl p rfl
          refine ⟨_, steady_xfer h hcur ht h2 hbes hpx hpl hready ⟨?_, ?_, ?_, ?_⟩⟩
          · rw [hpx, hxk, hkey]
          · rw [hpx]
            exact (Op.write_of_xfer hxf).1
          · rw [hpx]
            exact hpay.1
          · rw [hpx]
            exact hpay.2

/-- The threads before their first step. -/
theorem steady_start {s : Store σ} (hs : Sound s) (hsl : Slack s) (hi : Idle s)
    (progs : ι → List Op) :
    Steady s.o s.direct progs (fun _ => none) (Config.start s progs) := by
  refine ⟨hs, hsl, ⟨rfl, rfl⟩, fun k => (hi k).trans ?_, fun j => Or.inl ⟨rfl, rfl⟩, ?_, fun j => ?_,
    fun j => rfl, ?_⟩
  · simp [load]
  · intro _ _ _ _ _ h
    cases h
  · simp [Config.start, callsOf]
  · intro _ _ h
    cases h

end Transfers

end Libspill
