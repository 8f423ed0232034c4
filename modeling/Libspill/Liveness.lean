import Libspill.Lib.Ends
import Libspill.Serial

set_option autoImplicit false

/-!
# The request pool comes to rest

What is under way in the pool, the requests that are queued, the calls of its threads and a stop, is
work that its moves use up. They cannot go on for ever, and they stop only when all of it is done.

* `Task`, `Pool.tasks`: what a pool has left to do; `Pool.Due`: a move that goes on with it.
* **`pool_ends`**: no run of moves that are due is endless.
* `Pool.AtRest`, **`pool_goes_on`**: where no move that is due has an outcome, every accepted request
  has run, every `ls_wait` has returned, and so has `ls_pool_stop`, if it was called.
-/

namespace Libspill

variable {σ ι : Type}

/-! ## What is left to do -/

/-- Something that is left to do: its stage, and what is left of a transfer. -/
abbrev Task : Type := ℕ × Io Out

/-- A task that is not a transfer. -/
def stage (n : ℕ) : Task := (n, .hang)

/-- What a task leads to is of an earlier stage, or less of the same transfer. -/
abbrev Task.Less : Task → Task → Prop := Prod.Lex (· < ·) Prog.Rest

theorem Task.wf_less : WellFounded Task.Less := WellFounded.prod_lex Nat.lt_wfRel.wf Prog.wf_rest

theorem stage_less {m n : ℕ} (h : m < n) : Task.Less (stage m) (stage n) := .left _ _ h

/-- The transfer that a call goes on with. -/
def xferTask : Option (Xfer × Place × Io Out) → Multiset Task
  | none => 0
  | some x => {(5, x.2.2)}

/-- The calls a thread has yet to make, and the rest of the one it is in. -/
def Thread.tasks (t : Thread) : Multiset Task :=
  Multiset.replicate t.todo.length (stage 6) + xferTask t.cur

/-- A worker that has a request goes through three sections before it looks for the next one or
exits. -/
def Worker.tasks : Worker → Multiset Task
  | .top => {stage 1}
  | .running _ => {stage 1} + {stage 4}
  | .posting _ _ => {stage 1} + {stage 3}
  | .booking _ _ => {stage 1} + {stage 2}
  | .exited => 0

/-- A `submit` leads to a request in the queue. -/
def Client.tasks : Client → Multiset Task
  | .idle => 0
  | .submitting _ => {stage 8}
  | .waiting _ => {stage 3}
  | .reaping _ _ => {stage 2}

/-- The `n` workers that `ls_pool_stop` has not joined, and its last two sections. -/
def Stopping.tasks (n : ℕ) : Stopping → Multiset Task
  | .idle | .returned => 0
  | .joining k => Multiset.replicate (n - k + 2) (stage 1)
  | .draining => {stage 1}

/-- The requests in the queue. -/
def queueTasks (log : List PoolEvent) : Multiset Task :=
  Multiset.replicate ((submitted log).length - (took log).length) (stage 7)

/-- What the pool has left to do. -/
def Pool.tasks [Fintype ι] (p : Pool σ ι) : Multiset Task :=
  ∑ i, (p.cfg.thread i).tasks + ∑ i, (p.worker i).tasks + ∑ i, (p.user i).tasks + queueTasks p.log +
    p.stopping.tasks p.thr.length

/-- The move goes on with what is under way. -/
def Pool.Due (ws : List ι) : Move ι → Pool σ ι → Prop
  | .submit _ _, _ | .wait _ _, _ | .test _, _ => False
  | .client i, p => p.user i ≠ .idle
  | .work w, _ => w ∈ ws
  | .api i, p => i ∉ ws ∧ ¬(p.cfg.thread i).Done
  | .stop, p => p.stopping ≠ .idle

section Sums

variable [Fintype ι] [DecidableEq ι] {α : Type} {f : α → Multiset Task} {g : ι → α} {i : ι} {x : α}

/-- The tasks of one agent, and those of the others. -/
theorem sum_split (f : α → Multiset Task) (g : ι → α) (i : ι) (x : α) :
    ∑ j, f (Function.update g i x j) = ∑ j ∈ Finset.univ.erase i, f (g j) + f x := by
  rw [← Finset.sum_erase_add _ _ (Finset.mem_univ i), Function.update_self]
  congr 1
  exact Finset.sum_congr rfl fun j hj => by rw [Function.update_of_ne (Finset.ne_of_mem_erase hj)]

/-- One of the agents changes. -/
theorem sum_update (f : α → Multiset Task) (g : ι → α) (i : ι) (x : α) :
    ∑ j, f (Function.update g i x j) + f (g i) = ∑ j, f (g j) + f x := by
  rw [sum_split, ← Finset.sum_erase_add _ (fun j => f (g j)) (Finset.mem_univ i), add_right_comm]

/-- One of the agents has less to do. -/
theorem cuts_sum (h : Cuts Task.Less (f x) (f (g i))) :
    Cuts Task.Less (∑ j, f (Function.update g i x j)) (∑ j, f (g j)) := by
  rw [sum_split, ← Finset.sum_erase_add _ (fun j => f (g j)) (Finset.mem_univ i)]
  exact h.add_left _

/-- One of the agents has more to do. -/
theorem sum_update_add {t : Multiset Task} (h : f x = f (g i) + t) :
    ∑ j, f (Function.update g i x j) = ∑ j, f (g j) + t := by
  have hsum := sum_update f g i x
  rw [h, ← add_assoc, add_right_comm] at hsum
  exact add_right_cancel hsum

end Sums

section Moves

variable [Fintype ι] [DecidableEq ι] [Os σ] {E : Env} {c c' : Config σ ι} {p p' : Pool σ ι} {ws : List ι}
  {q l : List ReqPtr} {subs : List Submission} {i w : ι} {m : Move ι}

omit [Fintype ι] in
/-- A step of a thread that is not done uses up work. -/
theorem Config.step_cuts (hstep : c.step E i = some c') (hd : ¬(c.thread i).Done) :
    ∃ t, c'.thread = Function.update c.thread i t ∧ Cuts Task.Less t.tasks (c.thread i).tasks := by
  cases hcur : (c.thread i).cur with
  | some cur =>
    obtain ⟨x, pl, io⟩ := cur
    cases io with
    | ret out =>
      rw [Config.step_return hcur] at hstep
      cases hstep
      refine ⟨_, rfl, ?_⟩
      rw [Thread.tasks, Thread.tasks, hcur]
      show Cuts Task.Less (Multiset.replicate (c.thread i).todo.length (stage 6) + 0) _
      rw [add_zero]
      exact cuts_done _ _
    | hang => simp only [Config.step, hcur, reduceCtorEq] at hstep
    | call q k =>
      rw [Config.step_call hcur] at hstep
      cases hstep
      refine ⟨_, rfl, ?_⟩
      rw [Thread.tasks, Thread.tasks, hcur]
      exact (cuts_one (.right _ (.call q k _))).add_left _
  | none =>
    cases ht : (c.thread i).todo with
    | nil => exact absurd ⟨ht, hcur⟩ hd
    | cons op todo =>
      cases he : op.enter E c.store with
      | none => simp only [Config.step, hcur, ht, he, reduceCtorEq] at hstep
      | some r =>
        obtain ⟨ent, s⟩ := r
        rw [Config.step_enter hcur ht he] at hstep
        cases hstep
        refine ⟨_, rfl, ?_⟩
        have hone : (c.thread i).tasks = Multiset.replicate todo.length (stage 6) + {stage 6} := by
          rw [Thread.tasks, hcur, ht, List.length_cons, Multiset.replicate_succ, ← Multiset.singleton_add]
          exact (add_zero _).trans (add_comm _ _)
        rw [hone]
        cases ent with
        | done out =>
          show Cuts Task.Less (Multiset.replicate todo.length (stage 6) + xferTask (c.thread i).cur) _
          rw [hcur]
          show Cuts Task.Less (Multiset.replicate todo.length (stage 6) + 0) _
          rw [add_zero]
          exact cuts_done _ _
        | xfer x pl io => exact (cuts_one (.left _ _ (by decide))).add_left _

omit [Fintype ι] [DecidableEq ι] [Os σ] in
/-- A request that is taken was in the queue. -/
theorem Pool.Inv.queue_length (h : p.Inv ws q l) :
    (submitted p.log).length = q.length + (took p.log).length := by
  rw [h.order, List.length_append, List.length_reverse]

omit [Fintype ι] [DecidableEq ι] [Os σ] in
/-- A request joins the queue. -/
theorem Pool.Inv.queue_accepted (h : p.Inv ws q l) (r : ReqPtr) :
    queueTasks (.accepted r :: p.log) = queueTasks p.log + {stage 7} := by
  have hlen := h.queue_length
  show Multiset.replicate ((submitted p.log).length + 1 - (took p.log).length) (stage 7) = _
  rw [Nat.sub_add_comm (by omega), Multiset.replicate_succ, ← Multiset.singleton_add, add_comm]
  rfl

omit [Fintype ι] [DecidableEq ι] [Os σ] in
/-- A request leaves the queue. -/
theorem Pool.Inv.queue_took {r : ReqPtr} (h : p.Inv ws (r :: q) l) :
    queueTasks p.log = queueTasks (.took r :: p.log) + {stage 7} := by
  have hlen := h.queue_length
  rw [List.length_cons] at hlen
  have hsub : (submitted p.log).length - (took p.log).length =
      (submitted p.log).length - ((took p.log).length + 1) + 1 := by omega
  show Multiset.replicate ((submitted p.log).length - (took p.log).length) (stage 7) = _
  rw [hsub, Multiset.replicate_succ, ← Multiset.singleton_add, add_comm]
  rfl

omit [Os σ] in
/-- A thread inside `submit` or `ls_wait` uses up work. -/
theorem Pool.client_cuts (h : p.Inv ws q l) (hrun : p.client i = some p') :
    Cuts Task.Less p'.tasks p.tasks := by
  have hsum := fun c => sum_update Client.tasks p.user i c
  rw [Pool.client] at hrun
  cases hu : p.user i with
  | idle =>
    rw [hu] at hrun
    cases hrun
  | submitting r =>
    rw [hu] at hrun hsum
    have hone : ∑ j, (Function.update p.user i .idle j).tasks + {stage 8} = ∑ j, (p.user j).tasks :=
      (hsum .idle).trans (add_zero _)
    dsimp only at hrun
    split_ifs at hrun with hs
    · cases hrun
      show Cuts Task.Less (_ + _ + ∑ j, (Function.update p.user i .idle j).tasks + _ + _) (_ + _ + _ + _ + _)
      rw [← hone]
      exact (((cuts_done _ _).add_left _).add _).add _
    · cases hrun
      have hnew : ((p.enqueue r).setUser i .idle).tasks = ∑ i, (p.cfg.thread i).tasks +
          ∑ i, (p.worker i).tasks + ∑ j, (Function.update p.user i .idle j).tasks +
            queueTasks (.accepted r :: p.log) + p.stopping.tasks p.thr.length := rfl
      refine ⟨∑ i, (p.cfg.thread i).tasks + ∑ i, (p.worker i).tasks +
        ∑ j, (Function.update p.user i .idle j).tasks + queueTasks p.log +
          p.stopping.tasks p.thr.length, {stage 7}, stage 8, ?_, ?_, fun b hb => ?_⟩
      · rw [Pool.tasks, ← hone]
        abel
      · rw [hnew, h.queue_accepted]
        abel
      · rw [Multiset.mem_singleton.mp hb]
        exact stage_less (by decide)
  | waiting r =>
    rw [hu] at hrun
    dsimp only at hrun
    cases hr : p.req r with
    | none =>
      rw [hr] at hrun
      cases hrun
    | some x =>
      rw [hr] at hrun
      dsimp only at hrun
      split_ifs at hrun
      cases hrun
      have hcut : Cuts Task.Less (Client.reaping r x.status).tasks (p.user i).tasks := by
        rw [hu]
        exact cuts_one (stage_less (by decide))
      exact (((cuts_sum hcut).add_left _).add _).add _
  | reaping r rc =>
    rw [hu] at hrun
    dsimp only at hrun
    cases hr : p.req r with
    | none =>
      rw [hr] at hrun
      cases hrun
    | some x =>
      rw [hr] at hrun
      cases hrun
      have hcut : Cuts Task.Less Client.idle.tasks (p.user i).tasks := by
        rw [hu]
        exact cuts_last _
      exact (((cuts_sum hcut).add_left _).add _).add _

/-- A worker uses up work. -/
theorem Pool.work_cuts (h : p.Inv ws q l)
    (hd : (p.worker w).Duty subs (p.cfg.thread w)) (hrun : p.work E w = some p') :
    Cuts Task.Less p'.tasks p.tasks := by
  have hmoves : ∀ pc : Worker, Cuts Task.Less pc.tasks (p.worker w).tasks →
      Cuts Task.Less (∑ j, (Function.update p.worker w pc j).tasks) (∑ j, (p.worker j).tasks) :=
    fun _ => cuts_sum
  rw [Pool.work] at hrun
  cases hw : p.worker w with
  | top =>
    rw [hw] at hrun hd
    simp only at hrun
    cases hq : p.qh with
    | none =>
      rw [hq] at hrun
      dsimp only at hrun
      split_ifs at hrun
      cases hrun
      have hcut : Cuts Task.Less Worker.exited.tasks (p.worker w).tasks := by
        rw [hw]
        exact cuts_last _
      exact ((((hmoves _ hcut).add_left _).add _).add _).add _
    | some r =>
      rw [hq] at hrun
      dsimp only at hrun
      cases hr : p.req r with
      | none =>
        rw [hr] at hrun
        cases hrun
      | some x =>
        rw [hr] at hrun
        cases hrun
        obtain ⟨q', rfl⟩ : ∃ q', q = r :: q' := by
          have hhead := h.queue.head
          rw [hq] at hhead
          exact List.head?_eq_some_iff.mp hhead.symm
        have hworker : ∑ j, (Function.update p.worker w (.running r) j).tasks =
            ∑ j, (p.worker j).tasks + {stage 4} := sum_update_add (by rw [hw]; rfl)
        have hthread : ∑ j, (Function.update p.cfg.thread w { todo := [x.lsRw] } j).tasks =
            ∑ j, (p.cfg.thread j).tasks + {stage 6} := sum_update_add (by
          obtain ⟨h1, h2⟩ := hd
          rw [Thread.tasks, Thread.tasks, h1, h2]
          rfl)
        refine ⟨∑ j, (p.cfg.thread j).tasks + ∑ j, (p.worker j).tasks + ∑ j, (p.user j).tasks +
          queueTasks (.took r :: p.log) + p.stopping.tasks p.thr.length, {stage 4} + {stage 6}, stage 7,
          ?_, ?_, fun b hb => ?_⟩
        · rw [Pool.tasks, h.queue_took]
          abel
        · show ∑ j, (Function.update p.cfg.thread w { todo := [x.lsRw] } j).tasks +
              ∑ j, (Function.update p.worker w (.running r) j).tasks + ∑ j, (p.user j).tasks +
                queueTasks (.took r :: p.log) + p.stopping.tasks p.thr.length = _
          rw [hworker, hthread]
          abel
        · rcases Multiset.mem_add.mp hb with hb | hb <;> rw [Multiset.mem_singleton.mp hb] <;>
            exact stage_less (by decide)
  | running r =>
    rw [hw] at hrun hd
    dsimp only at hrun
    cases hr : (p.cfg.thread w).returned? with
    | some out =>
      rw [hr] at hrun
      cases hrun
      have hcut : Cuts Task.Less (Worker.posting r out.rc).tasks (p.worker w).tasks := by
        rw [hw]
        exact (cuts_one (stage_less (by decide))).add_left _
      exact ((((hmoves _ hcut).add_left _).add _).add _).add _
    | none =>
      rw [hr] at hrun
      dsimp only at hrun
      cases hs : p.cfg.step E w with
      | none =>
        rw [hs] at hrun
        cases hrun
      | some cfg =>
        rw [hs] at hrun
        cases hrun
        obtain ⟨a, -, hjob⟩ := hd
        have hdone : ¬(p.cfg.thread w).Done := by
          rintro ⟨h1, h2⟩
          generalize p.cfg.thread w = t at hjob h1 h2 hr
          cases hjob with
          | fresh => cases h1
          | moving x => cases h2
          | ended out => cases hr
        obtain ⟨t, ht, hcut⟩ := Config.step_cuts hs hdone
        show Cuts Task.Less (∑ j, (cfg.thread j).tasks + _ + _ + _ + _) (_ + _ + _ + _ + _)
        rw [ht]
        exact ((((cuts_sum hcut).add _).add _).add _).add _
  | posting r rc =>
    rw [hw] at hrun
    dsimp only at hrun
    cases hr : p.req r with
    | none =>
      rw [hr] at hrun
      cases hrun
    | some x =>
      rw [hr] at hrun
      cases hrun
      have hcut : Cuts Task.Less (Worker.booking r rc).tasks (p.worker w).tasks := by
        rw [hw]
        exact (cuts_one (stage_less (by decide))).add_left _
      exact ((((hmoves _ hcut).add_left _).add _).add _).add _
  | booking r rc =>
    rw [hw] at hrun
    cases hrun
    have hcut : Cuts Task.Less Worker.top.tasks (p.worker w).tasks := by
      rw [hw]
      exact cuts_done _ _
    exact ((((hmoves _ hcut).add_left _).add _).add _).add _
  | exited =>
    rw [hw] at hrun
    cases hrun

omit [DecidableEq ι] [Os σ] in
/-- Requests that are released were not left to do. -/
theorem Pool.releaseAll_tasks {fuel : ℕ} (hrun : p.releaseAll fuel = some p') :
    p'.tasks = p.tasks ∧ p'.stopping = p.stopping := by
  induction fuel generalizing p with
  | zero => cases hrun
  | succ fuel ih =>
    rw [Pool.releaseAll] at hrun
    split at hrun
    · cases hrun
      exact ⟨rfl, rfl⟩
    · split at hrun
      · cases hrun
      · obtain ⟨h1, h2⟩ := ih hrun
        exact ⟨h1, h2⟩

omit [DecidableEq ι] [Os σ] in
/-- `ls_pool_stop` uses up work. -/
theorem Pool.stop_cuts (hs : p.stopping ≠ .idle) (hrun : p.poolStop E = some p') :
    Cuts Task.Less p'.tasks p.tasks := by
  rw [Pool.poolStop] at hrun
  cases hst : p.stopping with
  | idle => exact absurd hst hs
  | joining k =>
    rw [hst] at hrun
    dsimp only at hrun
    cases hw : p.thr[k]? with
    | some w =>
      rw [hw] at hrun
      dsimp only at hrun
      split_ifs at hrun
      cases hrun
      have hlt := (List.getElem?_eq_some_iff.mp hw).1
      have hcut : Cuts Task.Less (Stopping.tasks p.thr.length (.joining (k + 1)))
          (p.stopping.tasks p.thr.length) := by
        have hone : p.thr.length - k + 2 = p.thr.length - (k + 1) + 2 + 1 := by omega
        rw [hst, Stopping.tasks, Stopping.tasks, hone, Multiset.replicate_add (_ + 2) 1]
        exact cuts_done _ _
      exact hcut.add_left _
    | none =>
      rw [hw] at hrun
      cases hrun
      have hle := List.getElem?_eq_none_iff.mp hw
      have hcut : Cuts Task.Less (Stopping.draining.tasks 0) (p.stopping.tasks p.thr.length) := by
        rw [hst, Stopping.tasks, Nat.sub_eq_zero_of_le hle]
        exact cuts_done {stage 1} _
      exact hcut.add_left _
  | draining =>
    rw [hst] at hrun
    dsimp only at hrun
    cases hr : p.releaseAll E.fuel with
    | none =>
      rw [hr] at hrun
      cases hrun
    | some p₁ =>
      rw [hr] at hrun
      cases hrun
      obtain ⟨h1, h2⟩ := Pool.releaseAll_tasks hr
      have hcut : Cuts Task.Less (Stopping.returned.tasks p₁.thr.length)
          (p₁.stopping.tasks p₁.thr.length) := by
        rw [h2, hst]
        exact cuts_last _
      rw [← h1]
      exact hcut.add_left _
  | returned =>
    rw [hst] at hrun
    cases hrun

/-- What is known of a pool, whatever its threads have done. -/
def Pool.Orderly (ws : List ι) (progs₀ : ι → List Op) (p : Pool σ ι) : Prop :=
  (∃ q l, p.Inv ws q l) ∧ ∃ subs, p.Carried (fun _ _ => True) ws progs₀ subs

omit [Fintype ι] [DecidableEq ι] [Os σ] in
/-- What goes on with what is under way is allowed. -/
theorem Pool.Inv.allowed_of_due (h : p.Inv ws q l) (hdue : p.Due ws m) : p.Allowed ws m := by
  cases m with
  | client i => trivial
  | work w => exact hdue
  | api i => exact hdue.1
  | stop => exact h.quiet hdue
  | _ => exact hdue.elim

end Moves

section Ends

variable [Fintype ι] [DecidableEq ι] [HonestOs σ] {E : Env} {p p' : Pool σ ι} {ws : List ι}
  {progs₀ : ι → List Op} {m : Move ι}

/-- **A move that is due uses up work.** -/
theorem Pool.spends (hne : ws ≠ []) :
    Spends (Pool.step (σ := σ) E) (fun m p => p.Due ws m) (Pool.Orderly ws progs₀) Task.Less
      Pool.tasks := by
  rintro m p p' ⟨⟨q, l, hinv⟩, subs, hc⟩ hdue hrun
  have hadm := hinv.allowed_of_due hdue
  have hcalm : p.Admits (fun _ _ => True) m := by
    cases m <;> trivial
  refine ⟨⟨hinv.step hne hadm hrun, _, hc.step (rides_any E) hadm hcalm hrun trivial⟩, ?_⟩
  cases m with
  | client i => exact Pool.client_cuts hinv hrun
  | work w => exact Pool.work_cuts hinv (hc.duty w hdue) hrun
  | api i =>
    simp only [Pool.step] at hrun
    cases hs : p.cfg.step E i with
    | none =>
      rw [hs] at hrun
      cases hrun
    | some cfg =>
      rw [hs] at hrun
      cases hrun
      obtain ⟨t, ht, hcut⟩ := Config.step_cuts hs hdue.2
      show Cuts Task.Less (∑ j, (cfg.thread j).tasks + _ + _ + _ + _) (_ + _ + _ + _ + _)
      rw [ht]
      exact ((((cuts_sum hcut).add _).add _).add _).add _
  | stop => exact Pool.stop_cuts hdue hrun
  | _ => exact hdue.elim

omit [Fintype ι] [DecidableEq ι] [HonestOs σ] in
theorem Pool.orderly_start (ws : List ι) (s : Store σ) {progs : ι → List Op}
    (hcrew : ∀ w ∈ ws, progs w = []) : (Pool.start ws (.start s progs)).Orderly ws progs :=
  ⟨⟨[], [], Pool.inv_start ws _⟩, [], ⟨rfl, fun r x hx => (by cases hx)⟩,
    fun w hw => ⟨hcrew w hw, rfl⟩, fun _ => [], progs, trivial, fun i _ => ⟨rfl, rfl⟩⟩

end Ends

/-! ## Where nothing that is due can go on -/

/-- Nothing is under way: every call that uses the pool has returned, the threads have made their own
calls, and every accepted request has run and is no longer in flight. -/
structure Pool.AtRest (ws : List ι) (p : Pool σ ι) : Prop where
  users : ∀ i, p.user i = .idle
  threads : ∀ i ∉ ws, (p.cfg.thread i).Done
  served : ∀ r, r ∈ submitted p.log → r ∈ (booked p.log).map Prod.fst
  stopping : p.stopping = .idle ∨ p.stopping = .returned

section Rest

variable [Fintype ι] [DecidableEq ι] [HonestOs σ] {E : Env} {o : Opts} {direct : Bool} {p p' : Pool σ ι}
  {ws : List ι} {progs₀ : ι → List Op} {subs : List Submission} {q l : List ReqPtr} {i w : ι}
  {r : ReqPtr} {rc : Rc} {m : Move ι}

omit [Fintype ι] [DecidableEq ι] [HonestOs σ] in
/-- The first request of the live list is released when `ls_pool_stop` drains it. -/
theorem Pool.Inv.release_head (h : p.Inv ws q (r :: l)) (hs : p.stopping = .draining)
    (hp : r ∈ posted p.log) : (p.reqRelease r).Inv ws q l := by
  have hne : p.stopping ≠ .idle := by rw [hs]; exact Stopping.noConfusion
  have hsub := ((h.mem_live r).mp List.mem_cons_self).1
  refine Pool.Inv.release (show p.Inv ws q ([] ++ r :: l) from h) hp (fun he => absurd he hne)
    (by rw [hs]; exact Stopping.noConfusion) p.user fun j => ?_
  have hq := h.quiet hne j
  have hu := h.user j
  cases hc : p.user j with
  | idle => exact Or.inl rfl
  | submitting r' =>
    refine Or.inr ⟨rfl, fun he => ?_⟩
    rw [hc] at hu
    cases he
    exact hu.1 hsub
  | waiting r' => rw [hc] at hq; exact hq.elim
  | reaping r' rc => rw [hc] at hq; exact hq.elim

omit [Fintype ι] [DecidableEq ι] [HonestOs σ] in
/-- `ls_pool_stop` can release what is left. -/
theorem Pool.Inv.releaseAll_isSome (fuel : ℕ) (h : p.Inv ws q l) (hs : p.stopping = .draining)
    (hp : ∀ r, r ∈ l → r ∈ posted p.log) (hfuel : l.length < fuel) :
    ∃ p', p.releaseAll fuel = some p' := by
  induction fuel generalizing p l with
  | zero => exact absurd hfuel (Nat.not_lt_zero _)
  | succ fuel ih =>
    have hhead := h.live.head
    rw [Pool.releaseAll]
    cases l with
    | nil =>
      rw [show p.live = none from hhead]
      exact ⟨p, rfl⟩
    | cons r l =>
      rw [show p.live = some r from hhead]
      obtain ⟨x, hx, -⟩ := h.req r List.mem_cons_self
      simp only [hx]
      rw [List.length_cons] at hfuel
      exact ih (h.release_head hs (hp r List.mem_cons_self)) hs
        (fun r' hr' => hp r' (List.mem_cons_of_mem _ hr')) (by omega)

omit [Fintype ι] [DecidableEq ι] [HonestOs σ] in
/-- A request that was accepted and is not freed exists. -/
theorem Pool.Inv.exists_req (h : p.Inv ws q l) (hr : r ∈ submitted p.log) (hn : r ∉ released p.log) :
    ∃ x, p.req r = some x ∧ (x.done = true ↔ r ∈ posted p.log) := by
  obtain ⟨x, h1, h2, -⟩ := h.req r ((h.mem_live r).mpr ⟨hr, hn⟩)
  exact ⟨x, h1, h2⟩

/-- The threads of the pool are on their way. -/
def Pool.Moving (o : Opts) (direct : Bool) (ws : List ι) (progs₀ : ι → List Op) (p : Pool σ ι)
    (subs : List Submission) : Prop :=
  p.Carried (fun progs c => ∃ g, Steady o direct progs g c) ws progs₀ subs

/-- A call that begins and disturbs no transfer can begin, and one that has begun goes on. -/
theorem Pool.Moving.step_isSome (hF : 2 ^ 64 ≤ E.fuel) (h : p.Moving o direct ws progs₀ subs)
    (hcalm : p.cfg.Calm E i) : ∃ cfg, p.cfg.step E i = some cfg := by
  obtain ⟨past, progs, ⟨g, hg⟩, -⟩ := h.kept
  obtain ⟨c, hc, -⟩ := steady_step (i := i) hF hg hcalm
  rw [Config.step_past] at hc
  obtain ⟨cfg, hcfg, -⟩ := Option.map_eq_some_iff.mp hc
  exact ⟨cfg, hcfg⟩

/-- A worker that has a request goes on with it. -/
theorem Pool.Moving.work_isSome (hF : 2 ^ 64 ≤ E.fuel) (hinv : p.Inv ws q l)
    (h : p.Moving o direct ws progs₀ subs) (hw : (p.worker w).req? = some r)
    (hcalm : p.cfg.Calm E w) : ∃ p', p.work E w = some p' := by
  have hok := hinv.worker w
  rw [Pool.work]
  cases hpc : p.worker w with
  | running r' =>
    dsimp only
    cases hr : (p.cfg.thread w).returned? with
    | some out => exact ⟨_, rfl⟩
    | none =>
      obtain ⟨cfg, hcfg⟩ := h.step_isSome hF hcalm
      rw [hcfg]
      exact ⟨_, rfl⟩
  | posting r' rc =>
    dsimp only
    rw [hpc] at hok
    have hsub : r' ∈ submitted p.log := submitted_of_took hinv.lawful (took_of_ran hinv.lawful hok.1)
    obtain ⟨x, hx, -⟩ := hinv.exists_req hsub fun hrel => hok.2 (posted_of_released hinv.lawful hrel)
    rw [hx]
    exact ⟨_, rfl⟩
  | booking r' rc => exact ⟨_, rfl⟩
  | top =>
    rw [hpc] at hw
    cases hw
  | exited =>
    rw [hpc] at hw
    cases hw

omit [Fintype ι] in
/-- A worker that looks for a request finds one in the queue. -/
theorem Pool.Inv.take_isSome (h : p.Inv ws (r :: q) l) (hw : p.worker w = .top) :
    ∃ p', p.work E w = some p' := by
  have hsub : r ∈ submitted p.log := by
    rw [h.order]
    simp
  have htook : r ∉ took p.log := by
    intro hr
    have hnd := nodup_submitted h.lawful
    rw [h.order] at hnd
    exact (List.nodup_append.mp hnd).2.2 r (by simp) r hr rfl
  obtain ⟨x, hx, -⟩ := h.exists_req hsub fun hrel => by
    obtain ⟨a, ha, rfl⟩ := List.mem_map.mp (ran_of_posted h.lawful (posted_of_released h.lawful hrel))
    exact htook (took_of_ran h.lawful ha)
  rw [Pool.work, hw]
  dsimp only
  rw [show p.qh = some r from h.queue.head]
  dsimp only
  rw [hx]
  exact ⟨_, rfl⟩

/-- No move that is due can go on, although the calls that are due disturb no transfer. -/
def Pool.Stuck (E : Env) (ws : List ι) (p : Pool σ ι) : Prop :=
  ∀ m, p.Due ws m → p.Admits (Calmly E) m ∧ p.step E m = none

section Stuck

variable (hF : 2 ^ 64 ≤ E.fuel) (hinv : p.Inv ws q l) (h : p.Moving o direct ws progs₀ subs)
  (hstuck : p.Stuck E ws)

include hF hinv h hstuck

/-- The workers have no request. -/
theorem Pool.Stuck.no_req (w : ι) : (p.worker w).req? = none := by
  by_contra hne
  obtain ⟨r, hr⟩ := Option.ne_none_iff_exists'.mp hne
  have hw : w ∈ ws := by
    by_contra hw
    rw [hinv.crew w hw] at hr
    cases hr
  obtain ⟨hcalm, hnone⟩ := hstuck (.work w) hw
  obtain ⟨p', hp'⟩ := h.work_isSome hF hinv hr hcalm
  rw [show p.step E (.work w) = p.work E w from rfl, hp'] at hnone
  cases hnone

/-- The queue is empty, and a worker has left its loop if the pool stops. -/
theorem Pool.Stuck.queue_nil (hw : w ∈ ws) : q = [] ∧ (p.stop = true → p.worker w = .exited) := by
  have hreq := hstuck.no_req hF hinv h w
  have hok := hinv.worker w
  have hnone : p.work E w = none := (hstuck (.work w) hw).2
  cases hpc : p.worker w with
  | top =>
    cases q with
    | nil =>
      refine ⟨rfl, fun hs => ?_⟩
      rw [Pool.work, hpc] at hnone
      dsimp only at hnone
      rw [show p.qh = none from hinv.queue.head] at hnone
      dsimp only at hnone
      rw [if_pos hs] at hnone
      cases hnone
    | cons r q =>
      obtain ⟨p', hp'⟩ := hinv.take_isSome (E := E) hpc
      rw [hp'] at hnone
      cases hnone
  | exited =>
    rw [hpc] at hok
    exact ⟨hok.2, fun _ => rfl⟩
  | _ =>
    rw [hpc] at hreq
    cases hreq

/-- Every accepted request has run. -/
theorem Pool.Stuck.served (hne : ws ≠ []) (hr : r ∈ submitted p.log) : r ∈ (booked p.log).map Prod.fst := by
  obtain ⟨w, hw⟩ := List.exists_mem_of_ne_nil ws hne
  have hord := hinv.order
  rw [(hstuck.queue_nil hF hinv h hw).1, List.reverse_nil, List.nil_append] at hord
  rw [hord] at hr
  refine (hinv.served r hr).resolve_right fun hw => ?_
  obtain ⟨w, hw⟩ := hw
  rw [hstuck.no_req hF hinv h w] at hw
  cases hw

/-- No thread is in `submit` or `ls_wait`. -/
theorem Pool.Stuck.user_idle (hne : ws ≠ []) (i : ι) : p.user i = .idle := by
  have hposted : ∀ r, r ∈ submitted p.log → r ∈ posted p.log := fun r hr =>
    posted_of_booked hinv.lawful (hstuck.served hF hinv h hne hr)
  by_contra hidle
  have hnone : p.client i = none := (hstuck (.client i) hidle).2
  have hok := hinv.user i
  rw [Pool.client] at hnone
  cases hu : p.user i with
  | idle => exact hidle hu
  | submitting r =>
    rw [hu] at hnone
    dsimp only at hnone
    split_ifs at hnone
  | waiting r =>
    rw [hu] at hnone hok
    obtain ⟨x, hx, hdone⟩ := hinv.exists_req hok.1 hok.2.1
    dsimp only at hnone
    rw [hx] at hnone
    dsimp only at hnone
    rw [if_pos (hdone.mpr (hposted r hok.1))] at hnone
    cases hnone
  | reaping r rc =>
    rw [hu] at hnone hok
    have htook := took_of_ran hinv.lawful hok.1
    obtain ⟨x, hx, -⟩ := hinv.exists_req (submitted_of_took hinv.lawful htook) hok.2.2.1
    dsimp only at hnone
    rw [hx] at hnone
    cases hnone

/-- `ls_pool_stop` is not under way. -/
theorem Pool.Stuck.stopping (hne : ws ≠ []) (hlive : (submitted p.log).length < E.fuel) :
    p.stopping = .idle ∨ p.stopping = .returned := by
  by_contra hst
  obtain ⟨hst₁, hst₂⟩ := not_or.mp hst
  have hnone : p.poolStop E = none := (hstuck .stop hst₁).2
  have hstop := hinv.stop_iff.mpr hst₁
  have hok := hinv.stopping
  rw [Pool.poolStop] at hnone
  cases hs : p.stopping with
  | idle => exact hst₁ hs
  | joining k =>
    rw [hs] at hnone hok
    dsimp only at hnone
    cases hw : p.thr[k]? with
    | none =>
      rw [hw] at hnone
      cases hnone
    | some w =>
      rw [hw] at hnone
      have hmem : w ∈ ws := hok.1 ▸ List.mem_of_getElem? hw
      dsimp only at hnone
      rw [if_pos ((hstuck.queue_nil hF hinv h hmem).2 hstop)] at hnone
      cases hnone
  | draining =>
    rw [hs] at hnone
    have hsub : l ⊆ submitted p.log := fun r hr => ((hinv.mem_live r).mp hr).1
    have hlen := (hinv.live.nodup.subperm hsub).length_le
    obtain ⟨p', hp'⟩ := hinv.releaseAll_isSome E.fuel hs
      (fun r hr => posted_of_booked hinv.lawful (hstuck.served hF hinv h hne (hsub hr))) (by omega)
    dsimp only at hnone
    rw [hp'] at hnone
    cases hnone
  | returned => exact hst₂ hs

/-- **A pool that is stuck is at rest.** -/
theorem Pool.Stuck.atRest (hne : ws ≠ []) (hlive : (submitted p.log).length < E.fuel) : p.AtRest ws where
  users := hstuck.user_idle hF hinv h hne
  threads := fun i hi => by
    by_contra hd
    obtain ⟨hcalm, hnone⟩ := hstuck (.api i) ⟨hi, hd⟩
    obtain ⟨cfg, hcfg⟩ := h.step_isSome hF hcalm
    simp only [Pool.step, hcfg, reduceCtorEq] at hnone
  served := fun r hr => hstuck.served hF hinv h hne hr
  stopping := hstuck.stopping hF hinv h hne hlive

end Stuck

end Rest

/-! ## On a disk -/

/-- When the two requests have run, there is nothing left to do. -/
theorem twoRequests_stuck : ∃ p, sched (Pool.step Env.ample) twoRequests newPool = some p ∧
    (submitted p.log).length = 2 ∧ p.Stuck Env.ample [0] := by
  have hrun : (sched (Pool.step Env.ample) twoRequests newPool).map (fun p =>
      ((submitted p.log).length, decide (∀ i, p.user i = .idle), (p.work Env.ample 0).isNone,
        decide (∀ i, (p.cfg.thread i).todo.isEmpty ∧ (p.cfg.thread i).cur.isNone),
        decide (p.stopping = .idle))) = some (2, true, true, true, true) := by decide +kernel
  obtain ⟨p, h1, h2⟩ := Option.map_eq_some_iff.mp hrun
  simp only [Prod.mk.injEq, decide_eq_true_eq, Option.isNone_iff_eq_none, List.isEmpty_iff] at h2
  obtain ⟨hlen, husers, hwork, hdone, hstop⟩ := h2
  refine ⟨p, h1, hlen, fun m hdue => ?_⟩
  cases m with
  | client i => exact absurd (husers i) hdue
  | work w =>
    cases List.mem_singleton.mp hdue
    refine ⟨fun op hop => ?_, hwork⟩
    obtain ⟨todo, htodo⟩ := (Config.next_eq_some.mp hop).2
    rw [(hdone 0).1] at htodo
    cases htodo
  | api i => exact absurd (hdone i) hdue.2
  | stop => exact absurd hstop hdue
  | _ => exact hdue.elim

end Libspill
