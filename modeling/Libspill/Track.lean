import Libspill.Steady

set_option autoImplicit false

/-!
# The invariant of many threads

* `Tracks`: the store is the map that the calls have made, in the order of their first critical
  sections, except for the bytes of the writes that are still under way.
* **`tracks_step`**: every calm step keeps it, if no call of the operating system fails.
-/

namespace Libspill

variable {σ ι : Type} [HonestOs σ] [Fintype ι] [DecidableEq ι] {E : Env}

open HonestOs (clean)

/-- No call of the operating system has failed. -/
def Config.Clean (c : Config σ ι) : Prop := clean c.store.os

instance {κ : Type} (c : Config Disk κ) : Decidable c.Clean :=
  inferInstanceAs (Decidable (c.store.os.ok = true))

/-- The bytes that the transfers `g` have yet to write. -/
def Due (g : ι → Option Pend) : CStr → ℕ → Prop := fun k i =>
  ∃ j pd, g j = some pd ∧ withXfer Nowhere pd.x k i

/-- The threads keep to the map `m₀` from which they started. `g` are the transfers under way. -/
structure Tracks (o : Opts) (direct : Bool) (m₀ : RefMap) (progs : ι → List Op) (g : ι → Option Pend)
    (c : Config σ ι) : Prop extends Steady o direct progs g c where
  clean : clean c.store.os
  abs : Abs (Due g) c.store (refRun o.shared (Libspill.calls c.log) m₀).2
  bytes : ∀ j pd, g j = some pd → pd.x.write = true →
    ∃ e, (refRun o.shared (Libspill.calls c.log) m₀).2.lookup pd.x.key = some e ∧
      ∀ i, pd.x.off ≤ i → i < pd.x.off + pd.x.n → e.byte i = pd.byte i
  outs : ∀ j, (c.thread j).outs ++ ((g j).map Pend.out).toList =
    outsOf j c.log (refRun o.shared (Libspill.calls c.log) m₀).1

/-! ## Entering -/

section Enter

variable {o : Opts} {direct : Bool} {m₀ : RefMap} {progs : ι → List Op} {g : ι → Option Pend}
  {c : Config σ ι} {i : ι} {op : Op} {todo : List Op} {key : CStr} {s' : Store σ}

/-- The map the threads have made so far. -/
def Config.map (o : Opts) (m₀ : RefMap) (c : Config σ ι) : RefMap :=
  (refRun o.shared (calls c.log) m₀).2

/-- The bytes a transfer will write are still the map's after another call on the map. -/
theorem bytes_enters (h : Tracks o direct m₀ progs g c) (hkey : op.key? = some key)
    (hbeside : ∀ j pd, g j = some pd → pd.x.key = key → op.Beside c.store pd.x) {j : ι} {pd : Pend}
    (hj : g j = some pd) (hw : pd.x.write = true) :
    ∃ e, (op.refStep o.shared (c.map o m₀)).2.lookup pd.x.key = some e ∧
      ∀ n, pd.x.off ≤ n → n < pd.x.off + pd.x.n → e.byte n = pd.byte n := by
  obtain ⟨e, he, hb⟩ := h.bytes j pd hj hw
  rw [refStep_of_key hkey, RefMap.lookup_put]
  split_ifs with hk
  · obtain ⟨h1, -, h3⟩ := hbeside j pd hj hk.symm
    subst hk
    have hsize := (h.abs.recAt pd.x.key).size
    rw [he, Option.getD_some] at hsize
    obtain ⟨e', he', -, hb'⟩ := Op.apply_byte o.shared h1 hkey hsize
    refine ⟨e', by rw [Config.map, he, he'], fun n h4 h5 => ?_⟩
    rw [hb' n fun y hy hyw hin => (h3 y hy).1 hyw n (.of_mem h4 h5) hin, hb n h4 h5]
  · exact ⟨e, he, hb⟩

omit [HonestOs σ] [Fintype ι] [DecidableEq ι] in
theorem Config.calls_append (c : Config σ ι) (l : Logged ι) :
    Libspill.calls (c.log ++ [l]) = Libspill.calls c.log ++ [l.op] := by
  simp [Libspill.calls]

/-- A call that was over in its critical section. -/
theorem tracks_done (h : Tracks o direct m₀ progs g c) (hi : (c.thread i).cur = none) {out : Out}
    (hsteady : Steady o direct progs g ⟨s', Function.update c.thread i
      ((c.thread i).enter todo (.done out)), c.log ++ [⟨i, op, none⟩]⟩) (hc : HonestOs.clean s'.os)
    (hbytes : ∀ j pd, g j = some pd → pd.x.write = true →
      ∃ e, (op.refStep o.shared (c.map o m₀)).2.lookup pd.x.key = some e ∧
        ∀ n, pd.x.off ≤ n → n < pd.x.off + pd.x.n → e.byte n = pd.byte n)
    (hout : out = (op.refStep o.shared (c.map o m₀)).1)
    (habs : Abs (Due g) s' (op.refStep o.shared (c.map o m₀)).2) :
    Tracks o direct m₀ progs g ⟨s', Function.update c.thread i ((c.thread i).enter todo (.done out)),
      c.log ++ [⟨i, op, none⟩]⟩ := by
  have hgi := (h.holding i).idle hi
  have hrun := refRun_append o.shared (calls c.log) op m₀
  have hcalls := c.calls_append ⟨i, op, none⟩
  refine ⟨hsteady, hc, ?_, fun j pd hj hw => ?_, fun j => ?_⟩
  · dsimp only
    rw [hcalls, hrun]
    exact habs
  · dsimp only
    rw [hcalls, hrun]
    exact hbytes j pd hj hw
  · dsimp only
    rw [hcalls, hrun, outsOf_append j (by simp [calls, length_refRun]), ← h.outs j]
    by_cases hj : j = i
    · subst hj
      rw [Function.update_self, hgi, if_pos rfl, hout]
      simp [Thread.enter, Config.map]
    · rw [Function.update_of_ne hj, if_neg (Ne.symm hj), List.append_nil]

omit [HonestOs σ] [Fintype ι] in
theorem due_update {x : Xfer} {pd : Pend} (hx : pd.x = x) (hgi : g i = none) (k : CStr) (n : ℕ)
    (h : withXfer (Due g) x k n) : Due (Function.update g i (some pd)) k n := by
  rcases h with ⟨j, pd', hj, hd⟩ | hd
  · refine ⟨j, pd', ?_, hd⟩
    rw [Function.update_of_ne (by rintro rfl; rw [hgi] at hj; cases hj), hj]
  · exact ⟨i, pd, Function.update_self .., Or.inr (hx ▸ hd)⟩

/-- A call that goes on to a transfer. -/
theorem tracks_xfer (h : Tracks o direct m₀ progs g c) (hi : (c.thread i).cur = none)
    (hkey : op.key? = some key) {x : Xfer} {pl : Place} {p : Io Out} {pd : Pend}
    (hsteady : Steady o direct progs (Function.update g i (some pd))
      ⟨s', Function.update c.thread i ((c.thread i).enter todo (.xfer x pl p)),
        c.log ++ [⟨i, op, some x⟩]⟩) (hc : HonestOs.clean s'.os)
    (hbeside : ∀ j pd, g j = some pd → pd.x.key = key → op.Beside c.store pd.x) (hpx : pd.x = x)
    (hxk : x.key = key)
    (hmap : ∀ D m, Abs D c.store m → op.Clear (D key) →
      pd.out = (op.apply o.shared (m.lookup key)).1 ∧
      Abs (withXfer D x) s' (m.put key (op.apply o.shared (m.lookup key)).2) ∧
      (x.write = true → ∃ e, (op.apply o.shared (m.lookup key)).2 = some e ∧
        ∀ i, x.off ≤ i → i < x.off + x.n → e.byte i = pd.byte i)) :
    Tracks o direct m₀ progs (Function.update g i (some pd))
      ⟨s', Function.update c.thread i ((c.thread i).enter todo (.xfer x pl p)),
        c.log ++ [⟨i, op, some x⟩]⟩ := by
  have hgi := (h.holding i).idle hi
  have hrun := refRun_append o.shared (calls c.log) op m₀
  have hcalls := c.calls_append ⟨i, op, some x⟩
  have hclear : op.Clear (Due g key) := by
    refine Op.clear_of_xfer (s := c.store) fun y hy n h1 h2 hdue => ?_
    obtain ⟨j, pd', hj, hd⟩ := hdue
    obtain ⟨hw, hk, h3⟩ := hd.resolve_left id
    exact ((hbeside j pd' hj hk.symm).spares y hy).2 hw n (.of_mem h1 h2) h3
  obtain ⟨e1, e2, e3⟩ := hmap _ _ h.abs hclear
  have hstep := refStep_of_key hkey o.shared (c.map o m₀)
  rw [Config.map] at hstep
  refine ⟨hsteady, hc, ?_, fun j pd' hj hw => ?_, fun j => ?_⟩
  · dsimp only
    rw [hcalls, hrun, hstep]
    exact e2.mono (due_update hpx hgi)
  · dsimp only
    rw [hcalls, hrun]
    by_cases hj' : j = i
    · subst hj'
      rw [Function.update_self] at hj
      cases hj
      rw [hpx] at hw ⊢
      obtain ⟨e, he, hb⟩ := e3 hw
      refine ⟨e, ?_, hb⟩
      rw [hstep, RefMap.lookup_put, if_pos hxk.symm, he]
    · rw [Function.update_of_ne hj'] at hj
      exact bytes_enters h hkey hbeside hj hw
  · dsimp only
    rw [hcalls, hrun, outsOf_append j (by simp [calls, length_refRun]), ← h.outs j]
    by_cases hj : j = i
    · subst hj
      rw [Function.update_self, Function.update_self, hgi, if_pos rfl, hstep]
      simp [Thread.enter, e1]
    · rw [Function.update_of_ne hj, Function.update_of_ne hj, if_neg (Ne.symm hj), List.append_nil]

end Enter

/-! ## Transfers -/

section Transfers

variable {o : Opts} {direct : Bool} {m₀ : RefMap} {progs : ι → List Op} {g : ι → Option Pend}
  {c : Config σ ι} {i : ι} {pd : Pend}

/-- One call of a transfer. -/
theorem tracks_call (h : Tracks o direct m₀ progs g c) (hi : g i = some pd) {q : Call}
    {k : q.Ans → Io Out} (hcur : (c.thread i).cur = some (pd.x, pd.pl, .call q k))
    (hc : HonestOs.clean (perform q c.store).2.os) :
    Tracks o direct m₀ progs g { c with
      store := (perform q c.store).2
      thread := Function.update c.thread i
        { c.thread i with cur := some (pd.x, pd.pl, k (perform q c.store).1) } } := by
  obtain ⟨p, hp1, hp⟩ := h.pending hi
  rw [hcur] at hp1
  cases hp1
  obtain ⟨hnext, hu⟩ := hp.call
  have htarget : Targets c.store pd.x.key (Due g pd.x.key) (pd.foot c.store.direct).T := fun l hl => by
    obtain ⟨r, a, h1, h2, h3, h4⟩ := hp.targets l hl
    exact ⟨r, a, h1, h2, ⟨i, pd, hi, Or.inr ⟨h3.1, rfl, h3.2⟩⟩, h4⟩
  refine ⟨steady_call h.toSteady hi hcur, hc, abs_untouched h.sound.laid h.abs htarget hu, h.bytes,
    fun j => ?_⟩
  rw [← h.outs j]
  by_cases hj : j = i
  · subst hj
    dsimp only
    rw [Function.update_self]
  · dsimp only
    rw [Function.update_of_ne hj]

/-- The critical section after a transfer. -/
theorem tracks_return (h : Tracks o direct m₀ progs g c) (hi : g i = some pd) {out : Out}
    (hcur : (c.thread i).cur = some (pd.x, pd.pl, .ret out)) :
    Tracks o direct m₀ progs (Function.update g i none) { c with
      store := unpin c.store pd.x.key
      thread := Function.update c.thread i
        { c.thread i with cur := none, outs := (c.thread i).outs ++ [out] } } := by
  obtain ⟨p, hp1, hp⟩ := h.pending hi
  rw [hcur] at hp1
  cases hp1
  have hold : ∀ j pd', Function.update g i none j = some pd' → j ≠ i ∧ g j = some pd' := by
    intro j pd' hj
    by_cases hji : j = i
    · subst hji
      rw [Function.update_self] at hj
      cases hj
    · rw [Function.update_of_ne hji] at hj
      exact ⟨hji, hj⟩
  refine ⟨steady_return h.toSteady hi hcur, h.clean, ?_,
    fun j pd' hj => h.bytes j pd' (hold j pd' hj).2, fun j => ?_⟩
  · refine hp.landed h.sound h.slack (Or.inl h.clean) h.abs (fun k n hdue => ?_) (h.bytes i pd hi)
    obtain ⟨j, pd', hj, hd⟩ := hdue
    by_cases hji : j = i
    · subst hji
      rw [hi] at hj
      cases hj
      exact Or.inr hd
    · exact Or.inl ⟨j, pd', by rw [Function.update_of_ne hji, hj], hd⟩
  · rw [← h.outs j]
    by_cases hj : j = i
    · subst hj
      dsimp only
      rw [Function.update_self, Function.update_self, hi, (hp.settle (Or.inl h.clean)).1]
      simp
    · dsimp only
      rw [Function.update_of_ne hj, Function.update_of_ne hj]

/-- **Every calm step keeps the invariant.** -/
theorem tracks_step (hF : 2 ^ 64 ≤ E.fuel) (h : Tracks o direct m₀ progs g c)
    (hcalm : c.Calm E i) :
    ∃ c', c.step E i = some c' ∧ (c'.Clean → ∃ g', Tracks o direct m₀ progs g' c') := by
  cases hcur : (c.thread i).cur with
  | some cur =>
    obtain ⟨x, pl, p⟩ := cur
    rcases h.holding i with ⟨-, hn⟩ | ⟨pd, p', hgi, hcur', hp⟩
    · rw [hcur] at hn
      cases hn
    rw [hcur] at hcur'
    cases hcur'
    cases p with
    | ret out =>
      exact ⟨_, Config.step_return hcur, fun _ => ⟨_, tracks_return h hgi hcur⟩⟩
    | hang =>
      obtain ⟨v, hv, -⟩ := hp.view
      exact hv.elim
    | call q k =>
      exact ⟨_, Config.step_call hcur, fun hc => ⟨g, tracks_call h hgi hcur hc⟩⟩
  | none =>
    cases ht : (c.thread i).todo with
    | nil => exact ⟨c, by simp only [Config.step, hcur, ht], fun _ => ⟨g, h⟩⟩
    | cons op todo =>
      have hop := Config.next_eq_some.mpr ⟨hcur, todo, ht⟩
      cases hkey : op.key? with
      | none =>
        cases op with
        | keys =>
          refine ⟨_, Config.step_enter hcur ht rfl, fun hc => ⟨g, ?_⟩⟩
          refine tracks_done h hcur (steady_done h.toSteady hcur ht h.sound h.slack ⟨rfl, rfl⟩
            (fun _ => rfl) fun _ _ _ _ hp => hp) hc (fun j pd hj hw => h.bytes j pd hj hw) ?_ h.abs
          rw [h.abs.keys h.sound.laid.records.wf]
          rfl
        | _ => cases hkey
      | some key =>
        obtain ⟨ent, s', h1, h2⟩ := enter_spec hF h.sound hkey (hcalm op hop).1
        have hbes := h.toSteady.beside hcalm hop hkey
        refine ⟨_, Config.step_enter hcur ht h1, fun hc => ?_⟩
        cases ent with
        | done out =>
          obtain ⟨e1, e2⟩ := ((h2.ended out rfl).resolve_left fun hr => hr.dirty hc) h.slack _ _ h.abs
          have hstep := refStep_of_key hkey o.shared (c.map o m₀)
          rw [Store.shared, h.mode.1] at e1 e2
          exact ⟨g, tracks_done h hcur (steady_done h.toSteady hcur ht h2.sound
            (h2.stays.slack h.slack) h2.stays.opts (busy_enters h.toSteady h2 hbes)
            fun j pd p hj => pending_enters h.toSteady h2 hbes hj) hc
            (fun j pd hj => bytes_enters h hkey hbes hj) (by rw [hstep]; exact e1)
            (by rw [hstep]; exact e2)⟩
        | xfer x pl p =>
          obtain ⟨hxk, hxf, pd, r, hpx, hpl, hready, hpay, hmap⟩ := h2.going x pl p rfl
          rw [Store.shared, h.mode.1] at hmap
          have hof : pd.Of op := ⟨by rw [hpx, hxk, hkey], by rw [hpx]; exact (Op.write_of_xfer hxf).1,
            by rw [hpx]; exact hpay.1, by rw [hpx]; exact hpay.2⟩
          exact ⟨_, tracks_xfer h hcur hkey (steady_xfer h.toSteady hcur ht h2 hbes hpx hpl hready hof)
            hc hbes hpx hxk (hmap h.slack)⟩

/-- The threads before their first step. -/
theorem tracks_start {s : Store σ} (hs : Sound s) (hsl : Slack s) (hc : HonestOs.clean s.os)
    (hi : Idle s) (ha : Abs Nowhere s m₀) (progs : ι → List Op) :
    Tracks s.o s.direct m₀ progs (fun _ => none) (Config.start s progs) := by
  refine ⟨steady_start hs hsl hi progs, hc, ?_, ?_, fun j => ?_⟩
  · exact ha.mono fun _ _ hf => hf.elim
  · intro _ _ h
    cases h
  · simp [Config.start, outsOf]

end Transfers

end Libspill
