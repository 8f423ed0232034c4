import Libspill.Lib.Sched
import Libspill.PoolInv
import Libspill.Sequential

set_option autoImplicit false

/-!
# Every accepted request runs once

Every step of the process keeps the invariant of the request pool, so it holds in every state that a
pool reaches, over every order of the sections of submitters, workers, waiting threads and
`ls_pool_stop`.

* `Pool.Inv.step`: any step.
* `Pool.Served`: what the invariant means for the caller.
* **`pool_runs_each_once`**: it holds in every state that a pool reaches.
-/

namespace Libspill

variable {σ ι : Type}

section Steps

variable [DecidableEq ι] {ws : List ι} {p p' : Pool σ ι} {q l : List ReqPtr} {i w : ι} {r : ReqPtr}
  {rc : Rc}

variable [Os σ] {E : Env} {m : Move ι}

omit [Os σ] in
theorem Pool.Inv.client (h : p.Inv ws q l) (hrun : p.client i = some p') :
    ∃ q' l', p'.Inv ws q' l' := by
  rw [Pool.client] at hrun
  cases hc : p.user i with
  | idle => rw [hc] at hrun; cases hrun
  | submitting r =>
    simp only [hc] at hrun
    split_ifs at hrun with hs
    · cases hrun
      exact ⟨q, l, h.busy hc hs⟩
    · cases hrun
      exact ⟨q ++ [r], r :: l, h.enqueue hc (by simpa using hs)⟩
  | waiting r =>
    simp only [hc] at hrun
    cases hx : p.req r with
    | none => rw [hx] at hrun; cases hrun
    | some x =>
      simp only [hx] at hrun
      split_ifs at hrun with hd
      cases hrun
      exact ⟨q, l, h.waited hc hx hd⟩
  | reaping r rc =>
    simp only [hc] at hrun
    cases hx : p.req r with
    | none => rw [hx] at hrun; cases hrun
    | some x =>
      simp only [hx] at hrun
      cases hrun
      obtain ⟨l', h'⟩ := h.reap hc
      exact ⟨q, l', h'⟩

theorem Pool.Inv.work (h : p.Inv ws q l) (hws : w ∈ ws) (hrun : p.work E w = some p') :
    ∃ q' l', p'.Inv ws q' l' := by
  rw [Pool.work] at hrun
  cases hc : p.worker w with
  | top =>
    simp only [hc] at hrun
    cases hq : p.qh with
    | none =>
      simp only [hq] at hrun
      split_ifs at hrun with hs
      cases hrun
      exact ⟨q, l, h.exit hws hc hq hs⟩
    | some r =>
      simp only [hq] at hrun
      cases hx : p.req r with
      | none => rw [hx] at hrun; cases hrun
      | some x =>
        simp only [hx] at hrun
        cases hrun
        obtain ⟨q', rfl⟩ : ∃ q', q = r :: q' := by
          have := h.queue.head
          rw [hq] at this
          exact List.head?_eq_some_iff.mp this.symm
        exact ⟨q', l, h.take hws hc x⟩
  | running r =>
    simp only [hc] at hrun
    split at hrun
    · cases hrun
      exact ⟨q, l, h.finish hws hc _⟩
    · split at hrun
      · cases hrun
      · cases hrun
        exact ⟨q, l, { h with }⟩
  | posting r rc =>
    simp only [hc] at hrun
    cases hx : p.req r with
    | none => rw [hx] at hrun; cases hrun
    | some x =>
      simp only [hx] at hrun
      cases hrun
      exact ⟨q, l, h.post hws hc x⟩
  | booking r rc =>
    simp only [hc] at hrun
    cases hrun
    exact ⟨q, l, h.book hws hc⟩
  | exited =>
    simp only [hc] at hrun
    cases hrun

omit [Os σ] in
theorem Pool.Inv.submit (h : p.Inv ws q l) (a : Submission) : (p.submit i a).Inv ws q l := by
  rw [Pool.submit]
  split
  · exact h.note (fun hb => absurd hb (submitRefused_ne_busy (by assumption))) (Or.inl ⟨_, rfl⟩)
  · split_ifs
    · exact h.note (fun hb => (by cases hb)) (Or.inl ⟨_, rfl⟩)
    · exact h.alloc rfl

omit [Os σ] [DecidableEq ι] in
theorem Pool.Inv.poolStop (h : p.Inv ws q l) (hne : ws ≠ []) (hquiet : ∀ i, (p.user i).Quiet)
    (hrun : p.poolStop E = some p') : ∃ q' l', p'.Inv ws q' l' := by
  rw [Pool.poolStop] at hrun
  cases hs : p.stopping with
  | idle =>
    simp only [hs] at hrun
    cases hrun
    exact ⟨q, l, h.stop hs hquiet⟩
  | joining k =>
    simp only [hs] at hrun
    cases hk : p.thr[k]? with
    | none =>
      simp only [hk] at hrun
      cases hrun
      exact ⟨q, l, h.joined hs hk⟩
    | some w =>
      simp only [hk] at hrun
      split_ifs at hrun with hw
      cases hrun
      exact ⟨q, l, h.join hs hk hw⟩
  | draining =>
    simp only [hs] at hrun
    cases hr : p.releaseAll E.fuel with
    | none => rw [hr] at hrun; cases hrun
    | some p₁ =>
      simp only [hr] at hrun
      cases hrun
      exact ⟨q, [], h.drain hne hs hr⟩
  | returned =>
    simp only [hs] at hrun
    cases hrun

/-- **Every step keeps the invariant.** -/
theorem Pool.Inv.step (h : p.Inv ws q l) (hne : ws ≠ []) (hm : p.Allowed ws m)
    (hrun : p.step E m = some p') : ∃ q' l', p'.Inv ws q' l' := by
  cases m with
  | submit i a =>
    cases hrun
    exact ⟨q, l, h.submit a⟩
  | wait i r =>
    cases hrun
    exact ⟨q, l, h.wait hm.2.1 hm.2.2.1 hm.2.2.2⟩
  | test r =>
    simp only [Pool.step] at hrun
    obtain ⟨x, hx, hd, -⟩ := h.req r ((h.mem_live r).mpr ⟨hm.1, hm.2.1⟩)
    simp only [hx] at hrun
    cases hrun
    exact ⟨q, l, h.note hd.mp (Or.inr (Or.inl ⟨_, _, rfl⟩))⟩
  | client i => exact h.client hrun
  | work w => exact h.work hm hrun
  | api i =>
    simp only [Pool.step] at hrun
    split at hrun
    · cases hrun
    · cases hrun
      exact ⟨q, l, { h with }⟩
  | stop => exact h.poolStop hne hm hrun

end Steps

/-! ## Every run -/

variable [Os σ] [DecidableEq ι] {E : Env}

omit [DecidableEq ι] [Os σ] in
/-- Nothing has happened yet. -/
theorem Pool.inv_start (ws : List ι) (cfg : Config σ ι) : (Pool.start ws cfg).Inv ws [] [] where
  lawful := trivial
  queue := ⟨trivial, rfl, rfl⟩
  order := rfl
  live := ⟨trivial, trivial, rfl, List.nodup_nil⟩
  mem_live r := ⟨fun h => (by cases h), fun h => (by cases h.1)⟩
  fresh r _ := ⟨rfl, fun h => (by cases h)⟩
  unlinked r _ := ⟨rfl, rfl⟩
  req r h := (by cases h)
  worker w := trivial
  one w w' r h := (by cases h)
  served r h := (by cases h)
  count := rfl
  err := rfl
  crew w _ := rfl
  user i := trivial
  alone i j r h := (by cases h)
  reaped _ r h := (by cases h)
  stop_iff := ⟨fun h => (by cases h), fun h => absurd rfl h⟩
  stopped_iff := ⟨fun h => (by cases h), fun h => (by cases h)⟩
  stopping := rfl
  quiet h := absurd rfl h

/-- The queue and the live list of a pool are those of another. -/
def Pool.SameLists (p p' : Pool σ ι) : Prop :=
  p'.qh = p.qh ∧ p'.qt = p.qt ∧ p'.next = p.next ∧ p'.live = p.live ∧ p'.lnext = p.lnext ∧
    p'.lprev = p.lprev ∧ p'.inflight = p.inflight

/-- **What holds of a pool** after any number of steps. -/
structure Pool.Served (E : Env) (p : Pool σ ι) : Prop where
  /-- Requests are taken in the order in which they were accepted, each runs once and is released
  once, and `ls_wait` returns the code of a request that has run. -/
  lawful : Lawful p.log
  queue : ∃ q, QueueOk p.next p.qh p.qt q ∧ submitted p.log = q.reverse ++ took p.log
  inflight : p.inflight =
    ((submitted p.log).filter fun r => r ∉ (booked p.log).map Prod.fst).length
  /-- No request is used after it was freed. -/
  alive : ∀ r, r ∈ submitted p.log → r ∉ released p.log → (p.req r).isSome
  /-- A thread that is in `submit` when the pool has stopped is refused. -/
  busy : p.stop = true → ∀ i r, p.user i = .submitting r → ∃ p', p.step E (.client i) = some p' ∧
    p.SameLists p' ∧ p'.log = .refused .busy :: p.log
  /-- A thread that calls `submit` when the pool has stopped is on its way to be refused, or is
  refused at once when the workers are gone. -/
  backend : p.stop = true → ∀ i a, submitRefused p.cfg.store.o a = none →
    ∃ p', p.step E (.submit i a) = some p' ∧ p.SameLists p' ∧
      if p.thr = [] then p'.log = .refused .backend :: p.log
      else p'.log = p.log ∧ p'.user i = .submitting p.reqNext
  /-- When `ls_pool_stop` has returned, every request has run and is gone. -/
  returned : p.stopping = .returned → ((ran p.log).map Prod.fst).Perm (submitted p.log) ∧
    (released p.log).Perm (submitted p.log) ∧ p.live = none

section Served

variable {ws : List ι} {p : Pool σ ι} {q l : List ReqPtr}

omit [Os σ] [DecidableEq ι] in
theorem Pool.Inv.inflight_eq (h : p.Inv ws q l) : p.inflight =
    ((submitted p.log).filter fun r => r ∉ (booked p.log).map Prod.fst).length := by
  have hperm : ((submitted p.log).filter fun r => r ∈ (booked p.log).map Prod.fst).Perm
      ((booked p.log).map Prod.fst) := by
    rw [List.perm_ext_iff_of_nodup ((nodup_submitted h.lawful).filter _) (nodup_booked h.lawful)]
    intro r
    simp only [List.mem_filter, decide_eq_true_eq]
    exact ⟨And.right, fun hr => ⟨submitted_of_posted h.lawful (posted_of_booked h.lawful hr), hr⟩⟩
  have hlen := hperm.length_eq
  have hsum := List.length_eq_length_filter_add (l := submitted p.log)
    fun r => decide (r ∈ (booked p.log).map Prod.fst)
  have hcount := h.count
  simp only [decide_not] at *
  rw [List.length_map] at hlen
  omega

omit [Os σ] [DecidableEq ι] in
theorem Pool.Inv.all_gone (h : p.Inv ws q l) (hne : ws ≠ []) (hs : p.stopping = .returned) :
    ((ran p.log).map Prod.fst).Perm (submitted p.log) ∧ (released p.log).Perm (submitted p.log) ∧
      p.live = none := by
  have hst := h.stopping
  rw [hs] at hst
  obtain ⟨-, hex, rfl⟩ := hst
  have hnd := nodup_submitted h.lawful
  refine ⟨?_, ?_, h.live.head⟩
  · rw [List.perm_ext_iff_of_nodup (nodup_ran h.lawful) hnd]
    intro r
    constructor
    · intro hr
      obtain ⟨x, hx, rfl⟩ := List.mem_map.mp hr
      exact submitted_of_took h.lawful (took_of_ran h.lawful hx)
    · intro hr
      exact ran_of_posted h.lawful (posted_of_booked h.lawful (h.all_booked hne hex hr))
  · rw [List.perm_ext_iff_of_nodup (nodup_released h.lawful) hnd]
    intro r
    constructor
    · exact fun hr => submitted_of_posted h.lawful (posted_of_released h.lawful hr)
    · intro hr
      by_contra hn
      cases (h.mem_live r).mpr ⟨hr, hn⟩

theorem Pool.Inv.served_all (h : p.Inv ws q l) (hne : ws ≠ []) : p.Served E where
  lawful := h.lawful
  queue := ⟨q, h.queue, h.order⟩
  inflight := h.inflight_eq
  alive r hr hn := by
    obtain ⟨x, hx, -⟩ := h.req r ((h.mem_live r).mpr ⟨hr, hn⟩)
    rw [hx]
    rfl
  busy hs i r hi := by
    refine ⟨((p.free r).note (.refused .busy)).setUser i .idle, ?_, ⟨rfl, rfl, rfl, rfl, rfl, rfl, rfl⟩, rfl⟩
    simp only [Pool.step, Pool.client, hi, hs, if_true]
  backend hs i a ha := by
    refine ⟨p.submit i a, rfl, ?_⟩
    simp only [Pool.submit, ha]
    split_ifs with h1 h2 h2
    · exact ⟨⟨rfl, rfl, rfl, rfl, rfl, rfl, rfl⟩, rfl⟩
    · exact absurd (List.length_eq_zero_iff.mp h1) h2
    · exact absurd (by rw [h2]; rfl) h1
    · exact ⟨⟨rfl, rfl, rfl, rfl, rfl, rfl, rfl⟩, rfl, Function.update_self _ _ _⟩
  returned := h.all_gone hne

end Served

/-- The invariant holds in every state that a pool reaches. -/
theorem pool_inv {ws : List ι} (hne : ws ≠ []) (cfg : Config σ ι) {ms : List (Move ι)} {p : Pool σ ι}
    (h : Along (Pool.step E) (Pool.Allowed ws) (fun _ => True) ms (Pool.start ws cfg))
    (hrun : sched (Pool.step E) ms (Pool.start ws cfg) = some p) : ∃ q l, p.Inv ws q l := by
  refine inv_of_sched (fun p => ∃ q l, p.Inv ws q l) ?_ ⟨[], [], Pool.inv_start ws cfg⟩ h hrun
  rintro m p p' ⟨q, l, hi⟩ hadm hstep
  exact hi.step hne hadm hstep

/-- **The pool runs every accepted request exactly once and loses none**, in every order of the
sections of the threads that submit and wait, of the workers and of `ls_pool_stop`. -/
theorem pool_runs_each_once {ws : List ι} (hne : ws ≠ []) (cfg : Config σ ι) {ms : List (Move ι)}
    {p : Pool σ ι}
    (h : Along (Pool.step E) (Pool.Allowed ws) (fun _ => True) ms (Pool.start ws cfg))
    (hrun : sched (Pool.step E) ms (Pool.start ws cfg) = some p) : p.Served E := by
  obtain ⟨q, l, hinv⟩ := pool_inv hne cfg h hrun
  exact hinv.served_all hne

/-- A worker, thread 0, and a user, thread 1, on a new store. -/
def twoThreads : Pool Disk (Fin 2) :=
  .start [0] (.start (freshStore {} false Disk.blank) fun _ => [])

/-- The move of the worker of `twoThreads` that takes its next step. -/
def workFirst : Move (Fin 2) := .work 0

/-- A read of one byte of the record "a". -/
def readA : Submission := ⟨.read, keyA, 0, 1, some 0, []⟩

/-- The user asks for the read and posts it. -/
def askA : List (Move (Fin 2)) := [.submit 1 readA, .client 1]

/-- Requests are made, waited for and left behind, and the pool stops. -/
def someMoves : List (Move (Fin 2)) :=
  [.submit 1 readA, .client 1, .submit 1 readA, .work 0, .client 1, .work 0, .work 0, .wait 1 0,
    .work 0, .client 1, .test 0, .client 1, .work 0, .stop, .submit 1 readA, .client 1, .work 0,
    .work 0, .work 0, .work 0, .work 0, .work 0, .stop, .stop, .stop]

/-- Requests are run, waited for and left behind until the pool has stopped. -/
theorem pool_runs_each_once_two : ∃ p, sched (Pool.step ⟨9, fun _ => 0, 0, 0⟩) someMoves twoThreads = some p ∧
    p.stopping = .returned ∧ p.Served ⟨9, fun _ => 0, 0, 0⟩ := by
  have hend : (sched (Pool.step ⟨9, fun _ => 0, 0, 0⟩) someMoves twoThreads).map Pool.stopping =
    some .returned := by decide +kernel
  obtain ⟨p, hrun, hp⟩ := Option.map_eq_some_iff.mp hend
  exact ⟨p, hrun, hp, pool_runs_each_once (by decide) _ (by decide +kernel) hrun⟩

/-- A submission that comes when the workers are gone is refused, but not as busy. -/
theorem pool_refuses_backend :
    Along (Pool.step ⟨9, fun _ => 0, 0, 0⟩) (Pool.Allowed [0]) (fun _ => True)
      [.stop, .work 0, .stop, .stop] twoThreads ∧
    ∃ p, sched (Pool.step ⟨9, fun _ => 0, 0, 0⟩) [.stop, .work 0, .stop, .stop] twoThreads = some p ∧
    p.stop = true ∧ submitRefused p.cfg.store.o readA = none ∧
    ∃ p', p.step ⟨9, fun _ => 0, 0, 0⟩ (.submit 1 readA) = some p' ∧ p'.user 1 = .idle ∧
      p'.log = .refused .backend :: p.log := by
  have hend : (sched (Pool.step ⟨9, fun _ => 0, 0, 0⟩) [.stop, .work 0, .stop, .stop] twoThreads).map
      (fun p => (p.stop, submitRefused p.cfg.store.o readA, (p.submit 1 readA).user 1,
        (p.submit 1 readA).log, p.log)) =
    some (true, none, .idle, [.refused .backend, .joined, .stopped], [.joined, .stopped]) := by
    decide +kernel
  obtain ⟨p, hrun, hp⟩ := Option.map_eq_some_iff.mp hend
  simp only [Prod.mk.injEq] at hp
  obtain ⟨h1, h2, h3, h4, h5⟩ := hp
  exact ⟨by decide +kernel, p, hrun, h1, h2, _, rfl, h3, by rw [h4, h5]⟩

end Libspill
