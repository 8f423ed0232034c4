import Libspill.Lib.Linked
import Libspill.Threads

set_option autoImplicit false

/-!
# The request pool

`async.c`: requests are queued by the threads that submit them and run by the worker threads of the
store, each as an ordinary `ls_rw`. A request is reached through two linked structures, the pending
queue and the list of all live requests, and it is freed by the thread that waits for it, or when
the pool stops.

* `Pool`: the queue, the live list and the requests, next to the threads of the process (`Config`);
  a worker's thread runs the `ls_rw` of its request.
* `Pool.work`, `Pool.client`, `Pool.poolStop`: the next section of a worker, of a thread inside
  `ls_awrite`, `ls_aread` or `ls_wait`, and of `ls_pool_stop`. A section that has to wait has no
  outcome, and neither has one that follows the pointer to a freed request.
* `PoolEvent`, `Lawful`: what the log of a run says, and when it tells of a pool that runs every
  accepted request once, in the order in which they were accepted; `took_of_ran`, `nodup_ran`, …:
  what follows from it for each request.
* `QueueOk`, `LiveOk`: the pending queue and the live list as lists.
-/

namespace Libspill

variable {σ ι : Type}

/-- The name of a request. A name is never used twice. -/
abbrev ReqPtr : Type := ℕ

/-- `LS_OP_READ` and `LS_OP_WRITE`. -/
inductive ReqOp where
  | read
  | write
deriving DecidableEq, Repr

/-- What `submit` is asked for: `buf` is the address of the caller's buffer, `none` if it is `NULL`,
and `bytes` what a write finds there. -/
structure Submission where
  op : ReqOp
  key : CStr
  off : ℕ
  n : ℕ
  buf : Option ℕ
  bytes : List UInt8 := []

/-- `ls_req`. -/
structure Req extends Submission where
  status : Rc := .ok
  done : Bool := false

/-- `ls_rw(s, r->key, r->off, r->n, r->rbuf, r->wbuf, r->op)`. -/
def Req.lsRw (r : Req) : Op :=
  match r.op with
  | .read => .read r.key r.off r.n (r.buf.getD 0)
  | .write => .write r.key r.off (r.bytes.take r.n) (r.buf.getD 0)

/-- Where a worker is in its loop. -/
inductive Worker where
  | top
  /-- In `ls_rw`. -/
  | running (r : ReqPtr)
  /-- About to set the status of the request. -/
  | posting (r : ReqPtr) (rc : Rc)
  /-- About to record the error and count the request as no longer in flight. -/
  | booking (r : ReqPtr) (rc : Rc)
  | exited
deriving DecidableEq

/-- Where a thread is that uses the pool. -/
inductive Client where
  | idle
  /-- In `submit`, before its critical section. -/
  | submitting (r : ReqPtr)
  /-- In `ls_wait`, before the request is done. -/
  | waiting (r : ReqPtr)
  /-- In `ls_wait`, about to release the request. -/
  | reaping (r : ReqPtr) (rc : Rc)
deriving DecidableEq

/-- Where `ls_pool_stop` is. -/
inductive Stopping where
  | idle
  /-- `k` workers have been joined. -/
  | joining (k : ℕ)
  /-- About to release the requests that nobody waited for. -/
  | draining
  | returned
deriving DecidableEq

/-- What happened. -/
inductive PoolEvent where
  /-- `submit` put the request on the queue. -/
  | accepted (r : ReqPtr)
  /-- `submit` returned an error. -/
  | refused (rc : Rc)
  /-- A worker took the request off the queue. -/
  | took (r : ReqPtr)
  /-- The `ls_rw` of the request returned. -/
  | ran (r : ReqPtr) (out : Out)
  /-- The worker of the request has set its status. -/
  | posted (r : ReqPtr)
  /-- The worker of the request has finished its bookkeeping. -/
  | booked (r : ReqPtr) (rc : Rc)
  /-- `ls_wait` was called. -/
  | waits (r : ReqPtr)
  /-- `ls_wait` returned. -/
  | waited (r : ReqPtr) (rc : Rc)
  /-- The request was freed. -/
  | released (r : ReqPtr)
  /-- `ls_test` returned. -/
  | tested (r : ReqPtr) (done : Bool)
  /-- `ls_pool_stop` has set `stop`. -/
  | stopped
  /-- `ls_pool_stop` has joined every worker. -/
  | joined
deriving DecidableEq

/-- The request pool of a store, and the threads of the process. -/
structure Pool (σ ι : Type) where
  cfg : Config σ ι
  /-- The workers that are not joined yet. -/
  thr : List ι
  qh : Option ReqPtr := none
  qt : Option ReqPtr := none
  live : Option ReqPtr := none
  stop : Bool := false
  drainErr : Rc := .ok
  inflight : ℕ := 0
  req : ReqPtr → Option Req := fun _ => none
  next : ReqPtr → Option ReqPtr := fun _ => none
  lnext : ReqPtr → Option ReqPtr := fun _ => none
  lprev : ReqPtr → Option ReqPtr := fun _ => none
  reqNext : ReqPtr := 0
  worker : ι → Worker := fun _ => .top
  user : ι → Client := fun _ => .idle
  stopping : Stopping := .idle
  /-- What happened, the last first. -/
  log : List PoolEvent := []

/-- Something happened. -/
def Pool.note (p : Pool σ ι) (e : PoolEvent) : Pool σ ι := { p with log := e :: p.log }

/-- A request that is off every list is freed. -/
def Pool.free (p : Pool σ ι) (r : ReqPtr) : Pool σ ι :=
  { p with req := Function.update p.req r none }

/-- `req_release`. -/
def Pool.reqRelease (p : Pool σ ι) (r : ReqPtr) : Pool σ ι :=
  { p.free r with
    live := if (p.lprev r).isSome then p.live else p.lnext r
    lnext := setAt p.lnext (p.lprev r) (p.lnext r)
    lprev := setAt p.lprev (p.lnext r) (p.lprev r) }.note (.released r)

/-- The result of the last call of a thread that has made all its calls. -/
def Thread.returned? (t : Thread) : Option Out :=
  if t.todo.isEmpty && t.cur.isNone then t.outs.getLast? else none

variable [DecidableEq ι]

/-- A worker moves on. -/
def Pool.setWorker (p : Pool σ ι) (w : ι) (pc : Worker) : Pool σ ι :=
  { p with worker := Function.update p.worker w pc }

/-- A thread that uses the pool moves on. -/
def Pool.setUser (p : Pool σ ι) (i : ι) (pc : Client) : Pool σ ι :=
  { p with user := Function.update p.user i pc }

/-- The critical section of `worker` that takes the head `r` of the queue. -/
def Pool.take (p : Pool σ ι) (w : ι) (r : ReqPtr) (q : Req) : Pool σ ι :=
  ({ p with
    qh := p.next r
    qt := if (p.next r).isNone then none else p.qt
    cfg := { p.cfg with thread := Function.update p.cfg.thread w { todo := [q.lsRw] } } }.note
      (.took r)).setWorker w (.running r)

/-- The critical section of `worker` on the request: its status is set, and it is done. -/
def Pool.post (p : Pool σ ι) (r : ReqPtr) (rc : Rc) (q : Req) : Pool σ ι :=
  { p with req := Function.update p.req r (some { q with status := rc, done := true }) }.note (.posted r)

/-- The last critical section of `worker`. -/
def Pool.book (p : Pool σ ι) (r : ReqPtr) (rc : Rc) : Pool σ ι :=
  { p with
    drainErr := if rc ≠ Rc.ok ∧ p.drainErr = Rc.ok then rc else p.drainErr
    inflight := p.inflight - 1 }.note (.booked r rc)

/-- The next section of a worker. -/
def Pool.work [Os σ] (E : Env) (w : ι) (p : Pool σ ι) : Option (Pool σ ι) :=
  match p.worker w with
  | .top =>
    match p.qh with
    | none => if p.stop then some (p.setWorker w .exited) else none
    | some r =>
      match p.req r with
      | none => none
      | some q => some (p.take w r q)
  | .running r =>
    match (p.cfg.thread w).returned? with
    | some out => some ((p.note (.ran r out)).setWorker w (.posting r out.rc))
    | none =>
      match p.cfg.step E w with
      | none => none
      | some cfg => some { p with cfg }
  | .posting r rc =>
    match p.req r with
    | none => none
    | some q => some ((p.post r rc q).setWorker w (.booking r rc))
  | .booking r rc => some ((p.book r rc).setWorker w .top)
  | .exited => none

/-- The tests of `submit` that do not look at the pool. -/
def submitRefused (o : Opts) (a : Submission) : Option Rc :=
  if !lsKeyOk a.key then some .inval
  else if a.n ≠ 0 ∧ a.buf = none then some .inval
  else if o.mode ≠ .explicit then some .mode
  else if o.backend ≠ .posix then some .mode
  else none

/-- `submit` up to its critical section. -/
def Pool.submit (p : Pool σ ι) (i : ι) (a : Submission) : Pool σ ι :=
  match submitRefused p.cfg.store.o a with
  | some rc => p.note (.refused rc)
  | none =>
    if p.thr.length = 0 then p.note (.refused .backend)
    else { p with
      req := Function.update p.req p.reqNext (some { a with })
      reqNext := p.reqNext + 1 }.setUser i (.submitting p.reqNext)

/-- The critical section of `submit` when the pool is open: the request goes to the head of the live
list and to the tail of the queue. -/
def Pool.enqueue (p : Pool σ ι) (r : ReqPtr) : Pool σ ι :=
  { p with
    lnext := Function.update p.lnext r p.live
    lprev := setAt p.lprev p.live (some r)
    live := some r
    next := setAt p.next p.qt (some r)
    qh := if p.qt.isSome then p.qh else some r
    qt := some r
    inflight := p.inflight + 1 }.note (.accepted r)

/-- The next section of a thread in `submit` or `ls_wait`. -/
def Pool.client (i : ι) (p : Pool σ ι) : Option (Pool σ ι) :=
  match p.user i with
  | .idle => none
  | .submitting r =>
    if p.stop then some (((p.free r).note (.refused .busy)).setUser i .idle)
    else some ((p.enqueue r).setUser i .idle)
  | .waiting r =>
    match p.req r with
    | none => none
    | some q => if q.done then some (p.setUser i (.reaping r q.status)) else none
  | .reaping r rc =>
    match p.req r with
    | none => none
    | some _ => some (((p.reqRelease r).note (.waited r rc)).setUser i .idle)

/-- `while (s->live) req_release(s, s->live)`. -/
def Pool.releaseAll : ℕ → Pool σ ι → Option (Pool σ ι)
  | 0, _ => none
  | fuel + 1, p =>
    match p.live with
    | none => some p
    | some r =>
      match p.req r with
      | none => none
      | some _ => releaseAll fuel (p.reqRelease r)

/-- The next section of `ls_pool_stop`. -/
def Pool.poolStop (E : Env) (p : Pool σ ι) : Option (Pool σ ι) :=
  match p.stopping with
  | .idle => some ({ p with stop := true, stopping := .joining 0 }.note .stopped)
  | .joining k =>
    match p.thr[k]? with
    | some w => if p.worker w = .exited then some { p with stopping := .joining (k + 1) } else none
    | none => some ({ p with thr := [], stopping := .draining }.note .joined)
  | .draining =>
    match p.releaseAll E.fuel with
    | none => none
    | some p => some { p with stopping := .returned }
  | .returned => none

/-- What moves next. -/
inductive Move (ι : Type) where
  /-- A call of `ls_awrite` or `ls_aread` by thread `i` begins. -/
  | submit (i : ι) (a : Submission)
  /-- A call of `ls_wait` by thread `i` begins. -/
  | wait (i : ι) (r : ReqPtr)
  /-- A call of `ls_test`. -/
  | test (r : ReqPtr)
  /-- Thread `i` goes on with its `submit` or `ls_wait`. -/
  | client (i : ι)
  | work (w : ι)
  /-- Thread `i` goes on with its calls that do not use the pool. -/
  | api (i : ι)
  | stop

/-- One step of the process. -/
def Pool.step [Os σ] (E : Env) (m : Move ι) (p : Pool σ ι) : Option (Pool σ ι) :=
  match m with
  | .submit i a => some (p.submit i a)
  | .wait i r => some ((p.note (.waits r)).setUser i (.waiting r))
  | .test r =>
    match p.req r with
    | none => none
    | some q => some (p.note (.tested r q.done))
  | .client i => p.client i
  | .work w => p.work E w
  | .api i =>
    match p.cfg.step E i with
    | none => none
    | some cfg => some { p with cfg }
  | .stop => p.poolStop E

/-- The pool that `ls_pool_start` leaves. -/
def Pool.start (thr : List ι) (cfg : Config σ ι) : Pool σ ι := { cfg, thr }

/-! ## What the log says -/

def PoolEvent.accepted? : PoolEvent → Option ReqPtr
  | .accepted r => some r
  | _ => none

def PoolEvent.took? : PoolEvent → Option ReqPtr
  | .took r => some r
  | _ => none

def PoolEvent.ran? : PoolEvent → Option (ReqPtr × Rc)
  | .ran r out => some (r, out.rc)
  | _ => none

def PoolEvent.posted? : PoolEvent → Option ReqPtr
  | .posted r => some r
  | _ => none

def PoolEvent.booked? : PoolEvent → Option (ReqPtr × Rc)
  | .booked r rc => some (r, rc)
  | _ => none

def PoolEvent.waits? : PoolEvent → Option ReqPtr
  | .waits r => some r
  | _ => none

def PoolEvent.released? : PoolEvent → Option ReqPtr
  | .released r => some r
  | _ => none

/-- The accepted requests, the last first. -/
def submitted (log : List PoolEvent) : List ReqPtr := log.filterMap PoolEvent.accepted?

/-- The requests taken off the queue, the last first. -/
def took (log : List PoolEvent) : List ReqPtr := log.filterMap PoolEvent.took?

/-- The requests whose `ls_rw` has returned, and its codes, the last first. -/
def ran (log : List PoolEvent) : List (ReqPtr × Rc) := log.filterMap PoolEvent.ran?

/-- The requests that are done, the last first. -/
def posted (log : List PoolEvent) : List ReqPtr := log.filterMap PoolEvent.posted?

/-- The requests that are no longer in flight, and their codes, the last first. -/
def booked (log : List PoolEvent) : List (ReqPtr × Rc) := log.filterMap PoolEvent.booked?

/-- The requests some thread waits for or has waited for. -/
def waits (log : List PoolEvent) : List ReqPtr := log.filterMap PoolEvent.waits?

/-- The requests that were freed, the last first. -/
def released (log : List PoolEvent) : List ReqPtr := log.filterMap PoolEvent.released?

/-- The first error that a worker recorded. -/
def firstErr (log : List PoolEvent) : Option Rc :=
  ((booked log).map Prod.snd).reverse.find? fun rc => rc ≠ .ok

/-- What may happen after what has happened. -/
def Follows (log : List PoolEvent) : PoolEvent → Prop
  | .accepted r => r ∉ submitted log ∧ PoolEvent.stopped ∉ log
  | .refused rc => rc = .busy → PoolEvent.stopped ∈ log
  | .took r => ∃ later, submitted log = later ++ r :: took log
  | .ran r _ => r ∈ took log ∧ r ∉ (ran log).map Prod.fst
  | .posted r => r ∈ (ran log).map Prod.fst ∧ r ∉ posted log
  | .booked r rc => (r, rc) ∈ ran log ∧ r ∈ posted log ∧ r ∉ (booked log).map Prod.fst
  | .waits r => r ∈ submitted log ∧ r ∉ waits log
  | .waited r rc => (r, rc) ∈ ran log ∧ r ∈ posted log
  | .released r => r ∈ posted log ∧ r ∉ released log
  | .tested r done => done = true → r ∈ posted log
  | .stopped => PoolEvent.stopped ∉ log
  | .joined => PoolEvent.stopped ∈ log

/-- **Every event of the log may follow those before it.** -/
def Lawful : List PoolEvent → Prop
  | [] => True
  | e :: log => Follows log e ∧ Lawful log

section Log

variable {log : List PoolEvent} {r : ReqPtr} {rc : Rc}

theorem submitted_of_took (h : Lawful log) (hr : r ∈ took log) : r ∈ submitted log := by
  induction log with
  | nil => cases hr
  | cons e log ih =>
    cases e with
    | accepted r' => exact List.mem_cons_of_mem _ (ih h.2 hr)
    | took r' =>
      obtain ⟨⟨later, h1⟩, h2⟩ := h
      rcases List.mem_cons.mp hr with rfl | hr
      · show r ∈ submitted log
        rw [h1]
        simp
      · exact ih h2 hr
    | _ => exact ih h.2 hr

theorem took_of_ran (h : Lawful log) (hr : (r, rc) ∈ ran log) : r ∈ took log := by
  induction log with
  | nil => cases hr
  | cons e log ih =>
    cases e with
    | took r' => exact List.mem_cons_of_mem _ (ih h.2 hr)
    | ran r' out =>
      rcases List.mem_cons.mp hr with he | hr
      · cases he
        exact h.1.1
      · exact ih h.2 hr
    | _ => exact ih h.2 hr

theorem ran_of_posted (h : Lawful log) (hr : r ∈ posted log) : r ∈ (ran log).map Prod.fst := by
  induction log with
  | nil => cases hr
  | cons e log ih =>
    cases e with
    | ran r' out => exact List.mem_cons_of_mem _ (ih h.2 hr)
    | posted r' =>
      rcases List.mem_cons.mp hr with rfl | hr
      · exact h.1.1
      · exact ih h.2 hr
    | _ => exact ih h.2 hr

theorem ran_of_booked (h : Lawful log) (hr : (r, rc) ∈ booked log) : (r, rc) ∈ ran log := by
  induction log with
  | nil => cases hr
  | cons e log ih =>
    cases e with
    | ran r' out => exact List.mem_cons_of_mem _ (ih h.2 hr)
    | booked r' rc' =>
      rcases List.mem_cons.mp hr with he | hr
      · cases he
        exact h.1.1
      · exact ih h.2 hr
    | _ => exact ih h.2 hr

theorem posted_of_booked (h : Lawful log) (hr : r ∈ (booked log).map Prod.fst) : r ∈ posted log := by
  induction log with
  | nil => cases hr
  | cons e log ih =>
    cases e with
    | posted r' => exact List.mem_cons_of_mem _ (ih h.2 hr)
    | booked r' rc' =>
      rcases List.mem_cons.mp hr with rfl | hr
      · exact h.1.2.1
      · exact ih h.2 hr
    | _ => exact ih h.2 hr

theorem posted_of_released (h : Lawful log) (hr : r ∈ released log) : r ∈ posted log := by
  induction log with
  | nil => cases hr
  | cons e log ih =>
    cases e with
    | posted r' => exact List.mem_cons_of_mem _ (ih h.2 hr)
    | released r' =>
      rcases List.mem_cons.mp hr with rfl | hr
      · exact h.1.1
      · exact ih h.2 hr
    | _ => exact ih h.2 hr

/-- A request is accepted once. -/
theorem nodup_submitted (h : Lawful log) : (submitted log).Nodup := by
  induction log with
  | nil => exact List.nodup_nil
  | cons e log ih =>
    cases e with
    | accepted r => exact List.nodup_cons.mpr ⟨h.1.1, ih h.2⟩
    | _ => exact ih h.2

/-- A request runs once. -/
theorem nodup_ran (h : Lawful log) : ((ran log).map Prod.fst).Nodup := by
  induction log with
  | nil => exact List.nodup_nil
  | cons e log ih =>
    cases e with
    | ran r out => exact List.nodup_cons.mpr ⟨h.1.2, ih h.2⟩
    | _ => exact ih h.2

theorem nodup_booked (h : Lawful log) : ((booked log).map Prod.fst).Nodup := by
  induction log with
  | nil => exact List.nodup_nil
  | cons e log ih =>
    cases e with
    | booked r rc => exact List.nodup_cons.mpr ⟨h.1.2.2, ih h.2⟩
    | _ => exact ih h.2

/-- A request is freed once. -/
theorem nodup_released (h : Lawful log) : (released log).Nodup := by
  induction log with
  | nil => exact List.nodup_nil
  | cons e log ih =>
    cases e with
    | released r => exact List.nodup_cons.mpr ⟨h.1.2, ih h.2⟩
    | _ => exact ih h.2

theorem firstErr_booked :
    firstErr (.booked r rc :: log) = (firstErr log).or (if rc = .ok then none else some rc) := by
  show ((((r, rc) :: booked log).map Prod.snd).reverse.find? _) = _
  rw [List.map_cons, List.reverse_cons, List.find?_append]
  congr 1
  by_cases h : rc = .ok <;> simp [h]

theorem ne_ok_of_firstErr (h : firstErr log = some rc) : rc ≠ .ok := by
  have := List.find?_some h
  simpa using this

theorem submitted_of_posted (h : Lawful log) (hr : r ∈ posted log) : r ∈ submitted log := by
  obtain ⟨x, hx, rfl⟩ := List.mem_map.mp (ran_of_posted h hr)
  exact submitted_of_took h (took_of_ran h hx)

end Log

/-! ## The two lists -/

/-- The pending queue holds the requests `q`. -/
structure QueueOk (next : ReqPtr → Option ReqPtr) (qh qt : Option ReqPtr) (q : List ReqPtr) : Prop where
  next : Leads next q none
  head : qh = q.head?
  tail : qt = q.getLast?

/-- The live list holds the requests `l`. -/
structure LiveOk (lnext lprev : ReqPtr → Option ReqPtr) (live : Option ReqPtr) (l : List ReqPtr) :
    Prop where
  next : Leads lnext l none
  prev : Leads lprev l.reverse none
  head : live = l.head?
  nodup : l.Nodup

section Lists

variable {next lnext lprev : ReqPtr → Option ReqPtr} {qh qt live : Option ReqPtr} {q l : List ReqPtr}
  {r : ReqPtr}

/-- The head of the queue is taken. -/
theorem QueueOk.pop (h : QueueOk next qh qt (r :: q)) :
    QueueOk next (next r) (if (next r).isNone then none else qt) q := by
  have hr : next r = q.head? := by rw [h.next.1, Option.or_none]
  refine ⟨h.next.2, hr, ?_⟩
  rw [hr, h.tail]
  cases q with
  | nil => rfl
  | cons a q => rfl

/-- A request goes to the tail of the queue. -/
theorem QueueOk.push (h : QueueOk next qh qt q) (hnd : q.Nodup) (hr : r ∉ q) (hn : next r = none) :
    QueueOk (setAt next qt (some r)) (if qt.isSome then qh else some r) (some r) (q ++ [r]) := by
  refine ⟨?_, ?_, by rw [List.getLast?_concat]⟩
  · rw [h.tail]
    exact leads_snoc h.next hnd hr hn
  · rw [h.tail, h.head]
    cases q with
    | nil => rfl
    | cons a q => simp

/-- A request goes to the head of the live list. -/
theorem LiveOk.push (h : LiveOk lnext lprev live l) (hr : r ∉ l) (hp : lprev r = none) :
    LiveOk (Function.update lnext r live) (setAt lprev live (some r)) (some r) (r :: l) := by
  refine ⟨?_, ?_, rfl, List.nodup_cons.mpr ⟨hr, h.nodup⟩⟩
  · have := leads_cons h.next hr
    rwa [Option.or_none, ← h.head] at this
  · rw [List.reverse_cons, h.head, ← List.getLast?_reverse]
    exact leads_snoc h.prev (List.nodup_reverse.mpr h.nodup) (by rwa [List.mem_reverse]) hp

/-- A request leaves the live list. -/
theorem LiveOk.unlink {pre post : List ReqPtr} (h : LiveOk lnext lprev live (pre ++ r :: post)) :
    LiveOk (setAt lnext (lprev r) (lnext r)) (setAt lprev (lnext r) (lprev r))
      (if (lprev r).isSome then live else lnext r) (pre ++ post) := by
  have hrev : (pre ++ r :: post).reverse = post.reverse ++ r :: pre.reverse := by simp
  have hprev := h.prev
  rw [hrev] at hprev
  have hnd : (post.reverse ++ r :: pre.reverse).Nodup := by
    rw [← hrev]
    exact List.nodup_reverse.mpr h.nodup
  obtain ⟨h1, h2⟩ := leads_bypass h.next h.nodup
  obtain ⟨h3, h4⟩ := leads_bypass hprev hnd
  rw [List.head?_reverse] at h3
  rw [List.getLast?_reverse] at h4
  refine ⟨?_, ?_, ?_, ?_⟩
  · rw [h3]
    exact h2
  · rw [h1, List.reverse_append]
    exact h4
  · rw [h3, h1, h.head]
    cases pre with
    | nil => rfl
    | cons a pre => simp [List.getLast?_cons]
  · exact h.nodup.sublist (List.Sublist.append_left (List.sublist_cons_self r post) pre)

end Lists

end Libspill
