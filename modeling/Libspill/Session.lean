import Libspill.Close
import Libspill.Steady

set_option autoImplicit false

/-!
# Sessions

A store lives in sessions: `ls_open`, calls, `ls_close(keep=1)`, and `ls_open` again.

* `History`: the stores that sessions on one name lead to.
* `Settled`, **`settled_of_history`**: what every such store satisfies.
* **`reopen_shows_kept`**: a store that is kept and opened again shows what it showed.
* `reopen_corrupt`: an empty store over stale bytes that cannot be opened again.
-/

namespace Libspill

variable {σ : Type} [HonestOs σ] {E : Env}

open HonestOs (file clean)

/-! ## Names -/

section Names

variable {s s' : Store σ} {op : Op} {key : CStr}

omit [HonestOs σ] in
/-- A call with a bad key does nothing. -/
theorem enter_badKey [Os σ] {ent : Entered} (hkey : op.key? = some key) (hbad : lsKeyOk key = false)
    (h : op.enter E s = some (ent, s')) : s' = s ∧ ∃ out, ent = .done out := by
  cases op with
  | keys => cases hkey
  | write k off buf addr =>
    cases hkey
    simp [Op.enter, writeBegin, hbad] at h
    exact ⟨h.2.symm, _, h.1.symm⟩
  | append k buf addr =>
    cases hkey
    simp [Op.enter, appendBegin, hbad] at h
    exact ⟨h.2.symm, _, h.1.symm⟩
  | read k off n addr =>
    cases hkey
    simp [Op.enter, readBegin, hbad] at h
    exact ⟨h.2.symm, _, h.1.symm⟩
  | reserve k nbytes =>
    cases hkey
    simp [Op.enter, lsReserve, hbad] at h
    exact ⟨h.2.symm, _, h.1.symm⟩
  | erase k =>
    cases hkey
    simp [Op.enter, lsErase, hbad] at h
    exact ⟨h.2.symm, _, h.1.symm⟩
  | setAttr k blob =>
    cases hkey
    simp [Op.enter, lsSetAttr, hbad] at h
    exact ⟨h.2.symm, _, h.1.symm⟩
  | size k =>
    cases hkey
    simp [Op.enter] at h
    exact ⟨h.2.symm, _, h.1.symm⟩
  | «exists» k =>
    cases hkey
    simp [Op.enter] at h
    exact ⟨h.2.symm, _, h.1.symm⟩
  | getAttr k cap =>
    cases hkey
    simp [Op.enter] at h
    exact ⟨h.2.symm, _, h.1.symm⟩

/-- Every key of the map has a legal length, and every attribute too. -/
def RefMap.Named (m : RefMap) : Prop :=
  ∀ k e, m.lookup k = some e → lsKeyOk k = true ∧ e.attr.length ≤ LS_ATTR_MAX

theorem named_of_abs {D : CStr → ℕ → Prop} {m : RefMap} (h : Abs D s m) (hm : m.Named) : Named s := by
  intro k r hk
  obtain ⟨e, he, hr⟩ := h.some k r hk
  rw [hr.attr]
  exact hm k e he

theorem named_map (h : Records s) (hn : Named s) : s.map.Named := by
  intro k e he
  rw [lookup_map h] at he
  obtain ⟨r, hr, rfl⟩ := Option.map_eq_some_iff.mp he
  exact hn k r hr

/-- A call with a legal key keeps the lengths. -/
theorem RefMap.Named.put {m : RefMap} (hm : m.Named) (hkey : lsKeyOk key = true) {e : Option Entry}
    (he : ∀ x, e = some x → x.attr.length ≤ LS_ATTR_MAX) : (m.put key e).Named := by
  intro k x hx
  rw [RefMap.lookup_put] at hx
  split_ifs at hx with hk
  · subst hk
    exact ⟨hkey, he x hx⟩
  · exact hm k x hx

/-- A call keeps the attribute within its bound. -/
theorem Op.apply_attr (sh : Bool) (op : Op) {e : Option Entry}
    (he : ∀ x, e = some x → x.attr.length ≤ LS_ATTR_MAX) :
    ∀ x, (op.apply sh e).2 = some x → x.attr.length ≤ LS_ATTR_MAX := by
  have hd : (e.getD {}).attr.length ≤ LS_ATTR_MAX := by
    cases e with
    | none => exact Nat.zero_le _
    | some x => exact he x rfl
  intro x hx
  cases op with
  | write k off buf addr =>
    simp only [Op.apply] at hx
    split_ifs at hx
    · exact he x hx
    · exact he x hx
    · exact he x hx
    · cases hx
      exact hd
  | append k buf addr =>
    simp only [Op.apply] at hx
    split_ifs at hx
    · exact he x hx
    · exact he x hx
    · cases hx
      exact hd
    · cases hx
      exact hd
  | reserve k nbytes =>
    simp only [Op.apply] at hx
    split_ifs at hx
    · exact he x hx
    · exact he x hx
    · cases hx
      exact hd
  | setAttr k blob =>
    simp only [Op.apply] at hx
    split_ifs at hx with h1 h2 h3
    · exact he x hx
    · exact he x hx
    · exact he x hx
    · cases hx
      exact Nat.not_lt.mp h2
  | read k off n addr => cases e <;> simp only [Op.apply] at hx <;> split_ifs at hx <;> exact he x hx
  | erase k =>
    cases e <;> simp only [Op.apply] at hx <;> split_ifs at hx <;> exact he x hx
  | size k => cases e <;> simp only [Op.apply] at hx <;> split_ifs at hx <;> exact he x hx
  | «exists» k =>
    simp only [Op.apply] at hx
    split_ifs at hx <;> exact he x hx
  | getAttr k cap =>
    cases e <;> cases cap <;> simp only [Op.apply] at hx <;> split_ifs at hx <;> exact he x hx
  | keys => exact he x hx

/-- The first critical section of a call keeps the lengths. -/
theorem named_enters {ent : Entered} (h : Sound s) (hs : Slack s) (hn : Named s)
    (hkey : lsKeyOk key = true) (he : Enters op key s ent s') : Named s' := by
  have ha := abs_map h.laid.records hs (D := Nowhere)
  have hm := named_map h.laid.records hn
  have hattr : ∀ x, s.map.lookup key = some x → x.attr.length ≤ LS_ATTR_MAX := fun x hx => (hm _ _ hx).2
  have hput := hm.put hkey (Op.apply_attr s.shared op hattr)
  cases ent with
  | done out =>
    rcases he.ended out rfl with hr | hr
    · refine named_of_abs (hr.map hs _ _ ha) (hm.put hkey fun x hx => ?_)
      cases hx
      cases hl : s.map.lookup key with
      | none => exact Nat.zero_le _
      | some e => exact hattr e hl
    · exact named_of_abs (hr hs _ _ ha).2 hput
  | xfer x pl p =>
    obtain ⟨-, -, pd, r, -, -, -, -, hmap⟩ := he.going x pl p rfl
    exact named_of_abs (hmap hs _ _ ha (op.clear_of_none fun _ => id)).2.1 hput

omit [HonestOs σ] in
/-- The critical section after a transfer keeps the lengths. -/
theorem named_unpin (hwf : s.toc.WF) (hn : Named s) (key : CStr) : Named (unpin s key) := by
  intro k q hq
  cases hk : s.find key with
  | none =>
    rw [unpin, Store.setRec, Store.find, Chained.update_of_none hk] at hq
    exact hn k q hq
  | some r =>
    rw [unpin, find_setRec hwf hk rfl] at hq
    split_ifs at hq with hkk
    · cases hq
      exact hn k r (hkk ▸ hk)
    · exact hn k q hq

/-- **A call keeps the lengths.** -/
theorem named_call (hF : 2 ^ 64 ≤ E.fuel) (h : Sound s) (hs : Slack s) (hn : Named s)
    (hfit : op.Fits E s) {out : Out} (hcall : op.call E s = some (out, s')) : Named s' := by
  cases hkey : op.key? with
  | none =>
    cases op with
    | keys =>
      cases hcall
      exact hn
    | _ => cases hkey
  | some key =>
    obtain ⟨ent, s₁, h1, h2⟩ := enter_spec hF h hkey hfit
    rw [Op.call, h1] at hcall
    have hn₁ : Named s₁ := by
      by_cases hbad : lsKeyOk key = true
      · exact named_enters h hs hn hbad h2
      · rw [(enter_badKey hkey (Bool.not_eq_true _ ▸ hbad) h1).1]
        exact hn
    cases ent with
    | done out =>
      cases hcall
      exact hn₁
    | xfer x pl p =>
      obtain ⟨hx, -, pd, r, rfl, -, hready, -⟩ := h2.going x pl p rfl
      have hpend := hready.pending h2.sound
      obtain ⟨out', s₂, h3, h4, h5⟩ := hpend.exec
      dsimp only at hcall
      rw [h3] at hcall
      cases hcall
      have hsound := sound_untouched h2.sound hpend.targets h5
      have hfind : ∀ k, s₂.find k = s₁.find k := fun k => by rw [h5.rest]; rfl
      exact named_unpin hsound.laid.records.wf (fun k r hk => hn₁ k r ((hfind k).symm.trans hk)) _

end Names

/-! ## Histories -/

/-- The stores that sessions on one name lead to: a store is opened on an empty file, calls are made,
it is kept without an error, and opened again. `Call` says which calls are made when, and `Keep`
when the store is closed. -/
inductive History (E : Env) (Call : Op → Store σ → Prop) (Keep : Store σ → Prop) : Store σ → Prop where
  | opened {o : Opts} {os : σ} {s : Store σ} : (file os).len = 0 → lsOpen E o os = some (.ok s) →
      History E Call Keep s
  | called {s s' : Store σ} {op : Op} {out : Out} : History E Call Keep s → Call op s →
      op.call E s = some (out, s') → History E Call Keep s'
  | kept {s s' : Store σ} {o : Opts} {os : σ} : History E Call Keep s → s.o.parallel ≠ .shared →
      Keep s → closeStore E s true = some (.ok, os) → lsOpen E o os = some (.ok s') →
      History E Call Keep s'

/-- When the table of contents is written, no record has more extents than it can say. -/
def Few (E : Env) (s : Store σ) : Prop :=
  ∀ s₁, lsSpillAll E s = some (.ok, s₁) → ∀ k r, s₁.find k = some r → r.next < 2 ^ 32

/-- A store between two calls. -/
structure Settled (s : Store σ) : Prop where
  sound : Sound s
  slack : Slack s
  idle : Idle s
  named : Named s

section

variable {s s' : Store σ} {o : Opts} {os : σ} {op : Op} {out : Out}

theorem settled_opened (hfile : (file os).len = 0) (hopen : lsOpen E o os = some (.ok s)) :
    Settled s := by
  obtain ⟨direct, os', rfl, hlen, -⟩ := lsOpen_empty hfile hopen
  obtain ⟨h1, h2, h3, -⟩ := sound_freshStore o direct hlen
  refine ⟨h1, h2, h3, fun k r hk => ?_⟩
  have hrecs : (freshStore o direct os').recs = [] := Chained.toList_empty 64
  have := ((find_iff_mem h1.laid.records.wf).mp hk).1
  rw [hrecs] at this
  cases this

theorem Settled.called (hF : 2 ^ 64 ≤ E.fuel) (h : Settled s) (hfit : op.Fits E s)
    (hcall : op.call E s = some (out, s')) : Settled s' := by
  obtain ⟨out', s₁, h1, h2⟩ := call_spec hF h.sound hfit
  rw [hcall] at h1
  cases h1
  exact ⟨h2.sound, h2.slack h.slack, h2.idle h.idle, named_call hF h.sound h.slack h.named hfit hcall⟩

/-- What is left when the table has been written. -/
theorem closable_of_evicted (hidle : Idle s) (hn : Named s) {s₁ : Store σ} (h₁ : Evicted s s₁ 0 none .ok)
    (hfew : ∀ k r, s₁.find k = some r → r.next < 2 ^ 32) : Closable s₁ := by
  refine ⟨h₁.sound, fun k r hk => ?_, (spilt_of_evicted hidle h₁).2, hfew⟩
  cases hk₀ : s.find k with
  | none =>
    rw [h₁.kept.none k hk₀] at hk
    cases hk
  | some q =>
    obtain ⟨r', hr', hq⟩ := h₁.kept.some k q hk₀
    rw [hk] at hr'
    cases hr'
    rw [hq.attr]
    exact hn k q hk₀

theorem Settled.closable (h : Settled s) {s₁ : Store σ} (h₁ : Evicted s s₁ 0 none .ok)
    (hfew : ∀ k r, s₁.find k = some r → r.next < 2 ^ 32) : Closable s₁ :=
  closable_of_evicted h.idle h.named h₁ hfew

/-- A store that is kept, and what opening it again gives. -/
theorem Settled.kept (hF : 2 ^ 64 ≤ E.fuel) (h : Settled s) (hsh : s.o.parallel ≠ .shared)
    (hfew : Few E s) : ∃ rc os, closeStore E s true = some (rc, os) ∧
      (clean os → clean s.os ∧ rc = .ok) ∧
      (rc = .ok → ∃ s₁, lsSpillAll E s = some (.ok, s₁) ∧ Evicted s s₁ 0 none .ok ∧ Persisted s₁ .ok os ∧
        Closable s₁ ∧ ∀ o, optsRefused o = none → ∃ r, lsOpen E o os = some r ∧
          Opens o s₁ (file os) r) := by
  obtain ⟨rc, os, h1, h2⟩ := closeStore_spec hF h.sound hsh
  refine ⟨rc, os, h1, h2.clean, fun hr => ?_⟩
  obtain ⟨s₁, h3, h4, h5⟩ := h2.kept hr
  have hc := h.closable h4 (hfew s₁ h3)
  exact ⟨s₁, h3, h4, h5, hc, fun o ho => lsOpen_storedIn hF hc (h5.stored rfl) ho⟩

theorem optsRefused_of_lsOpen (hopen : lsOpen E o os = some (.ok s)) : optsRefused o = none := by
  unfold lsOpen at hopen
  split at hopen
  · cases hopen
  · assumption

/-- A store that was opened again. -/
theorem Reopened.settled {f : File} (hc : Closable s) (hs : Slack s) (h : Reopened o s f s') :
    Settled s' := by
  refine ⟨h.sound, h.slack hs, h.idle, fun k r hk => ?_⟩
  obtain ⟨q, hq, hrow⟩ := h.rows.some hk
  have hattr : r.attr = q.attr := congrArg Row.attr hrow
  rw [hattr]
  exact hc.named k q hq

/-- **Every store of a history is settled.** -/
theorem settled_of_history (hF : 2 ^ 64 ≤ E.fuel) {Call : Op → Store σ → Prop}
    {Keep : Store σ → Prop} (hCall : ∀ op s, Call op s → op.Fits E s) (hKeep : ∀ s, Keep s → Few E s)
    (h : History E Call Keep s) : Settled s := by
  induction h with
  | opened hfile hopen => exact settled_opened hfile hopen
  | called _ hadm hcall ih => exact ih.called hF (hCall _ _ hadm) hcall
  | kept _ hsh hkeep hclose hopen ih =>
    obtain ⟨rc, os, h1, -, h2⟩ := ih.kept hF hsh (hKeep _ hkeep)
    rw [hclose] at h1
    cases h1
    obtain ⟨s₁, -, h4, -, h5, h6⟩ := h2 rfl
    obtain ⟨r, h7, h8⟩ := h6 _ (optsRefused_of_lsOpen hopen)
    rw [hopen] at h7
    cases h7
    exact (h8.reopened _ rfl).settled h5 (h4.kept.slack ih.slack)

/-! ## What is shown -/

/-- What leaves the contents alone leaves the map alone. -/
theorem map_of_kept {P : CStr → ℕ → Prop} (h : Kept P s s') (hr : Records s) (hr' : Records s')
    (hs : Slack s) : s'.map = s.map := by
  refine Finmap.ext_lookup fun k => ?_
  rw [lookup_map hr, lookup_map hr']
  cases hk : s.find k with
  | none => rw [h.none k hk]; rfl
  | some r =>
    obtain ⟨r', hk', hq⟩ := h.some k r hk
    rw [hk', Option.map_some, Option.map_some, Store.entry, Store.entry, hq.content hs, hq.size,
      hq.attr]

/-- A store that was opened again is the same map. -/
theorem Reopened.map {f : File} (hr : Records s) (h : Reopened o s f s') : s'.map = s.map := by
  refine Finmap.ext_lookup fun k => ?_
  rw [lookup_map hr, lookup_map h.sound.laid.records]
  cases hk : s'.find k with
  | none =>
    have := h.rows.find k
    rw [hk, Option.map_none, eq_comm, Option.map_eq_none_iff] at this
    rw [this]
    rfl
  | some r =>
    obtain ⟨q, hq, hrow⟩ := h.rows.some hk
    have hsize : r.size = q.size := congrArg Row.size hrow
    have hattr : r.attr = q.attr := congrArg Row.attr hrow
    rw [hq, Option.map_some, Option.map_some, Store.entry, Store.entry, h.content k q r hq hk, hsize,
      hattr]

/-- The table of contents of the store can be told from what the file has past the data: no record
has more extents than the table can say, and where there is no record the checksum of the bytes past
`file_end` is that of nothing. -/
structure Rereadable (E : Env) (s : Store σ) : Prop where
  few : Few E s
  unmarked : Unmarked s (file s.os)

/-- An empty store is written as it is. -/
theorem unmarked_of_kept (hF : 0 < E.fuel) (h : Settled s) (hu : Unmarked s (file s.os))
    {s₁ : Store σ} (hsp : lsSpillAll E s = some (.ok, s₁)) (hev : Evicted s s₁ 0 none .ok)
    (hp : Persisted s₁ .ok os) : Unmarked s₁ (file os) := by
  intro hnil
  have hrecs : s.recs = [] := by
    by_contra hne
    obtain ⟨r, hr⟩ := List.exists_mem_of_ne_nil _ hne
    obtain ⟨r', hr', -⟩ := hev.kept.some _ _ (find_of_mem h.sound.laid.records.wf hr)
    have := ((find_iff_mem hev.sound.laid.records.wf).mp hr').1
    rw [hnil] at this
    cases this
  have hres : s.resident = 0 := by rw [h.sound.laid.tiered.resident, hrecs]; rfl
  obtain ⟨fuel, hfuel⟩ := Nat.exists_eq_succ_of_ne_zero hF.ne'
  rw [lsSpillAll, hfuel, lsEvictTo, if_neg (by omega)] at hsp
  cases hsp
  obtain ⟨h1, h2⟩ := hp.empty rfl (by rw [tocSerialise, hnil]; rfl)
  have hlo := h.sound.laid.tiled.lo_le
  rw [h1, ← hu hrecs]
  exact congrArg crc32Of (slice_congr fun i _ => h2 _ (by omega))

/-- **A store that is kept and opened again shows what it showed**: in every history of sessions in
which no tail wraps and every table of contents can be told from what the file has past the data,
`ls_close(keep=1)` succeeds if no call of the operating system fails, and so does every `ls_open`
after it. -/
theorem reopen_shows_kept (hF : 2 ^ 64 ≤ E.fuel)
    (h : History E (fun op s => op.Fits E s) (Rereadable E) s) (hsh : s.o.parallel ≠ .shared)
    (hk : Rereadable E s) : ∃ rc os, closeStore E s true = some (rc, os) ∧ (clean os → rc = .ok) ∧
      (rc = .ok → ∀ o, optsRefused o = none → ∃ r, lsOpen E o os = some r ∧
        (clean (openedOs r) → ∃ s', r = .ok s' ∧ s'.map = s.map)) := by
  have hset := settled_of_history hF (fun _ _ => id) (fun _ h => h.few) h
  obtain ⟨rc, os, h1, h2, h3⟩ := hset.kept hF hsh hk.few
  refine ⟨rc, os, h1, fun hc => (h2 hc).2, fun hr o ho => ?_⟩
  obtain ⟨s₁, g1, g2, g3, g4, g5⟩ := h3 hr
  obtain ⟨r, h4, h5⟩ := g5 o ho
  refine ⟨r, h4, fun hc => ?_⟩
  obtain ⟨s', rfl⟩ := h5.ok (unmarked_of_kept (by omega) hset hk.unmarked g1 g2 g3) hc
  exact ⟨s', rfl, ((h5.reopened s' rfl).map g2.sound.laid.records).trans
    (map_of_kept g2.kept hset.sound.laid.records g2.sound.laid.records hset.slack)⟩

/-- The calls of a session. -/
theorem History.runOps {Call : Op → Store σ → Prop} {Keep : Store σ → Prop} {ops : List Op}
    {outs : List Out} (h : History E Call Keep s) (hrun : runOps E ops s = some (outs, s'))
    (hadm : ∀ pre op, pre ++ [op] <+: ops → ∀ outs s', Libspill.runOps E pre s = some (outs, s') →
      Call op s') : History E Call Keep s' := by
  induction ops generalizing s outs with
  | nil =>
    cases hrun
    exact h
  | cons op ops ih =>
    rw [Libspill.runOps] at hrun
    cases hcall : op.call E s with
    | none =>
      rw [hcall] at hrun
      cases hrun
    | some a =>
      obtain ⟨out, s₁⟩ := a
      rw [hcall] at hrun
      dsimp only at hrun
      cases hrest : Libspill.runOps E ops s₁ with
      | none =>
        rw [hrest] at hrun
        cases hrun
      | some b =>
        obtain ⟨outs₁, s₂⟩ := b
        rw [hrest] at hrun
        cases hrun
        refine ih (.called h (hadm [] op (by simp) [] s rfl) hcall) hrest fun pre op' hpre outs t ht => ?_
        refine hadm (op :: pre) op' (by simpa using hpre) (out :: outs) t ?_
        rw [Libspill.runOps, hcall]
        dsimp only
        rw [ht]

/-- Calls within bounds, when none of them makes the operating system fail. -/
theorem History.runOps_within (hF : 2 ^ 64 ≤ E.fuel) {Keep : Store σ → Prop}
    (hKeep : ∀ s, Keep s → Few E s) {ops : List Op} {outs : List Out} {m : RefMap}
    (h : History E (fun op s => op.Fits E s) Keep s) (ha : Abs Nowhere s m)
    (hw : m.Within s.shared ops) (hc : CleanRun E ops s) (hrun : Libspill.runOps E ops s = some (outs, s')) :
    History E (fun op s => op.Fits E s) Keep s' := by
  refine h.runOps hrun fun pre op hpre outs₁ t ht => ?_
  have hset := settled_of_history hF (fun _ _ => id) hKeep h
  obtain ⟨rest, rfl⟩ := hpre
  have hpw : ∀ (l l' : List Op) (m : RefMap), m.Within s.shared (l ++ l') →
      m.Within s.shared l ∧ RefMap.Within s.shared l' (refRun s.shared l m).2 := by
    intro l l'
    induction l with
    | nil => exact fun m h => ⟨trivial, h⟩
    | cons op l ih => exact fun m h => ⟨⟨h.1, (ih _ h.2).1⟩, (ih _ h.2).2⟩
  rw [List.append_assoc] at hw hc
  obtain ⟨h1, h2⟩ := hpw pre _ m hw
  obtain ⟨outs', t', g1, -, g2, -, -, g3, g4⟩ := runOps_spec hF pre hset.sound hset.slack hset.idle ha h1
    fun l hl => hc l (hl.trans (List.prefix_append _ _))
  rw [ht] at g1
  cases g1
  exact fits_of_within hF g2 (size_of_abs g4) h2.1

end

/-! ## On a disk -/

/-- A session on a disk: the store when it is closed, and the disk after. -/
def Disk.session (o : Opts) (ops : List Op) (d : Disk) : Option (Store Disk × Disk) :=
  match lsOpen Env.ample o d with
  | some (.ok s) =>
    match runOps Env.ample ops s with
    | some (_, s) =>
      match closeStore Env.ample s true with
      | some (.ok, d) => some (s, d)
      | _ => none
    | none => none
  | _ => none

/-- The code of `ls_open`, and whether no call of the operating system failed. -/
def openCode : Except (Rc × Disk) (Store Disk) → Rc × Bool
  | .error e => (e.1, e.2.ok)
  | .ok s => (.ok, s.os.ok)

theorem session_eq_some {o : Opts} {ops : List Op} {d d' : Disk} {s : Store Disk}
    (h : Disk.session o ops d = some (s, d')) : ∃ s₀ outs, lsOpen Env.ample o d = some (.ok s₀) ∧
      runOps Env.ample ops s₀ = some (outs, s) ∧ closeStore Env.ample s true = some (.ok, d') := by
  unfold Disk.session at h
  split at h
  next s₀ h1 =>
    split at h
    next outs s₁ h2 =>
      split at h
      next d₁ h3 =>
        cases h
        exact ⟨s₀, outs, h1, h2, h3⟩
      · cases h
    · cases h
  · cases h

/-- **An empty store that cannot be opened again**: the first session leaves a record without bytes,
the second one erases it. Its empty table of contents is recorded with length 0, which `ls_open` takes
for "not recorded", so that it reads the first session's table instead. -/
theorem reopen_corrupt : ∃ (s : Store Disk) (os os' : Disk), History Env.ample (fun _ _ => True) (fun _ => True) s ∧
    s.o = {} ∧ s.recs.map Rec.key = [] ∧ closeStore Env.ample s true = some (.ok, os) ∧
    lsOpen Env.ample {} os = some (.error (.corrupt, os')) ∧ os'.ok = true := by
  have hrun : ((Disk.session {} [.write keyA 0 [] 0] Disk.blank).bind fun r =>
      (Disk.session {} [.erase keyA] r.2).bind fun q => (lsOpen Env.ample {} q.2).map fun x =>
        ([r.1.o, q.1.o], q.1.recs.map Rec.key, openCode x)) =
          some ([{}, {}], [], .corrupt, true) := by decide +kernel
  obtain ⟨⟨s₁, d₁⟩, h1, hrun⟩ := Option.bind_eq_some_iff.mp hrun
  obtain ⟨⟨s₂, d₂⟩, h2, hrun⟩ := Option.bind_eq_some_iff.mp hrun
  obtain ⟨x, h3, hrun⟩ := Option.map_eq_some_iff.mp hrun
  obtain ⟨t₁, outs₁, a1, a2, a3⟩ := session_eq_some h1
  obtain ⟨t₂, outs₂, b1, b2, b3⟩ := session_eq_some h2
  simp only [Prod.mk.injEq, List.cons.injEq, and_true] at hrun
  obtain ⟨⟨c1, c2⟩, c3, c4⟩ := hrun
  have hs₁ : History Env.ample (fun _ _ => True) (fun _ => True) s₁ :=
    (History.opened rfl a1).runOps a2 fun _ _ _ _ _ _ => trivial
  have hs₂ : History Env.ample (fun _ _ => True) (fun _ => True) s₂ :=
    (hs₁.kept (by rw [c1]; decide) trivial a3 b1).runOps b2 fun _ _ _ _ _ _ => trivial
  cases x with
  | ok s => simp [openCode] at c4
  | error e =>
    obtain ⟨rc, os'⟩ := e
    simp only [openCode, Prod.mk.injEq] at c4
    obtain ⟨rfl, c5⟩ := c4
    exact ⟨s₂, d₂, os', hs₂, c2, c3, b3, h3, c5⟩

/-- A record with bytes in the memory tier, and one that has an attribute only. -/
def keptOps : List Op := [.write keyA 3 [1, 2] 0, .setAttr keyB [9]]

theorem reopen_shows_kept_two : ∃ outs s,
    runOps Env.ample keptOps (Disk.newStore { memoryBudget := 8 }) = some (outs, s) ∧
    ∃ rc os, closeStore Env.ample s true = some (rc, os) ∧ (os.ok = true → rc = .ok) ∧
      (rc = .ok → ∀ o, optsRefused o = none → ∃ r, lsOpen Env.ample o os = some r ∧
        ((openedOs r).ok = true → ∃ s', r = .ok s' ∧ s'.map = s.map)) := by
  have hsome : ((runOps Env.ample keptOps (Disk.newStore { memoryBudget := 8 })).any fun r =>
      r.2.o.parallel = .loc ∧ r.2.recs.map Rec.key ≠ [] ∧ ((lsSpillAll Env.ample r.2).all fun q =>
        q.2.recs.all fun r => r.next < 2 ^ 32) = true) = true := by decide +kernel
  have hclean : ∀ pre ∈ keptOps.inits, ((runOps Env.ample pre
      (Disk.newStore { memoryBudget := 8 })).all fun r => r.2.os.ok) = true := by decide +kernel
  obtain ⟨⟨outs, s⟩, hrun⟩ : ∃ r, runOps Env.ample keptOps (Disk.newStore { memoryBudget := 8 }) =
      some r := Option.isSome_iff_exists.mp (by decide +kernel)
  rw [hrun] at hsome
  simp only [Option.any_some, Bool.decide_and, Bool.and_eq_true, decide_eq_true_eq,
    Option.all_eq_true] at hsome
  obtain ⟨hloc, hne, hfew⟩ := hsome
  have hw : RefMap.Within false keptOps ∅ := by
    refine ⟨?_, ?_, trivial⟩ <;> decide +kernel
  have hlen : LS_SUPER_SIZE ≤ (file (Disk.newStore { memoryBudget := 8 }).os).len := Nat.le_refl _
  have hfresh := sound_freshStore { memoryBudget := 8 } false hlen
  have hs : History Env.ample (fun op s => op.Fits Env.ample s) (Rereadable Env.ample) s :=
    (History.opened rfl (Disk.lsOpen_blank _ rfl (by decide))).runOps_within (Nat.le_refl _)
      (fun _ h => h.few) hfresh.2.2.2 hw (fun pre hpre outs s' h => by
        have := hclean pre ((List.mem_inits pre keptOps).mpr hpre)
        rw [h] at this
        exact this) hrun
  have hset := settled_of_history (Nat.le_refl _) (fun _ _ => id) (fun _ h => h.few) hs
  refine ⟨outs, s, hrun, reopen_shows_kept (Nat.le_refl _) hs (by rw [hloc]; decide)
    ⟨fun s₁ h₁ k r hk => ?_, fun hnil => absurd (congrArg (List.map Rec.key) hnil) hne⟩⟩
  obtain ⟨rc, s₂, h₂, hev⟩ := lsSpillAll_spec (show 2 ^ 64 ≤ Env.ample.fuel from Nat.le_refl _)
    hset.sound
  rw [h₁] at h₂
  cases h₂
  have := hfew _ h₁
  rw [List.all_eq_true] at this
  exact of_decide_eq_true (this r ((find_iff_mem hev.sound.laid.records.wf).mp hk).1)

end Libspill
