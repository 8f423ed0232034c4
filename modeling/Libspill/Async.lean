import Libspill.PoolRun
import Libspill.Track

set_option autoImplicit false

/-!
# The calls of the request pool

A worker makes the call of a request as a thread that has nothing else to do, so what holds of
threads that make calls holds of the pool.

* `Config.past`: a process in which the threads have made calls before.
* `Job`, `Duty`: what a worker is doing for its request.
* `asked`, `Pool.Knows`: the requests by their names.
* `Pool.Does`, **`Pool.step_does`**: what a step of the pool does for the calls of its threads.
* `Rides`: an invariant of threads that goes on to hold when a thread is given another call;
  **`Pool.Carried.step`**: the pool keeps it.
-/

namespace Libspill

variable {σ ι : Type}

/-! ## Threads that have made calls before -/

/-- The threads of a process, with the answers `h` they got before. -/
def Config.past (c : Config σ ι) (h : ι → List Out) : Config σ ι :=
  { c with thread := fun i => { c.thread i with outs := h i ++ (c.thread i).outs } }

section Past

variable [Os σ] [DecidableEq ι] {E : Env} {c c' : Config σ ι} {h : ι → List Out} {i j : ι}

omit [Os σ] in
theorem Config.past_update (c : Config σ ι) (h : ι → List Out) (i : ι) (s : Store σ) (t : Thread)
    (log : List (Logged ι)) :
    Config.past ⟨s, Function.update c.thread i t, log⟩ h =
      ⟨s, Function.update (c.past h).thread i { t with outs := h i ++ t.outs }, log⟩ := by
  have hthread : ∀ j, { Function.update c.thread i t j with
      outs := h j ++ (Function.update c.thread i t j).outs } =
        Function.update (c.past h).thread i { t with outs := h i ++ t.outs } j := by
    intro j
    by_cases hj : j = i
    · subst hj
      rw [Function.update_self, Function.update_self]
    · rw [Function.update_of_ne hj, Function.update_of_ne hj]
      rfl
  exact congrArg (fun f => (⟨s, f, log⟩ : Config σ ι)) (funext hthread)

/-- What a thread was answered before does not change what it does. -/
theorem Config.step_past (c : Config σ ι) (h : ι → List Out) (i : ι) :
    (c.past h).step E i = (c.step E i).map fun c' => c'.past h := by
  cases hcur : (c.thread i).cur with
  | some cur =>
    obtain ⟨x, pl, p⟩ := cur
    have hcur' : ((c.past h).thread i).cur = some (x, pl, p) := hcur
    cases p with
    | ret out =>
      rw [Config.step_return hcur, Config.step_return hcur', Option.map_some, Config.past_update,
        ← List.append_assoc]
      rfl
    | hang => simp only [Config.step, hcur, hcur', Option.map_none]
    | call q k =>
      rw [Config.step_call hcur, Config.step_call hcur', Option.map_some, Config.past_update]
      rfl
  | none =>
    have hcur' : ((c.past h).thread i).cur = none := hcur
    cases ht : (c.thread i).todo with
    | nil =>
      have ht' : ((c.past h).thread i).todo = [] := ht
      simp only [Config.step, hcur, ht, hcur', ht', Option.map_some]
    | cons op todo =>
      have ht' : ((c.past h).thread i).todo = op :: todo := ht
      cases he : op.enter E c.store with
      | none =>
        have he' : op.enter E (c.past h).store = none := he
        simp only [Config.step, hcur, ht, he, hcur', ht', he', Option.map_none]
      | some r =>
        obtain ⟨ent, s⟩ := r
        have he' : op.enter E (c.past h).store = some (ent, s) := he
        rw [Config.step_enter hcur ht he, Config.step_enter hcur' ht' he', Option.map_some,
          Config.past_update]
        cases ent with
        | done out =>
          simp only [Thread.enter, ← List.append_assoc]
          rfl
        | xfer x pl p => rfl

/-- A step of one thread leaves the others where they are. -/
theorem Config.step_thread_ne (hstep : c.step E i = some c') (hj : j ≠ i) :
    c'.thread j = c.thread j := by
  cases hcur : (c.thread i).cur with
  | some cur =>
    obtain ⟨x, pl, p⟩ := cur
    cases p with
    | ret out =>
      rw [Config.step_return hcur] at hstep
      cases hstep
      exact Function.update_of_ne hj _ _
    | hang => simp only [Config.step, hcur, reduceCtorEq] at hstep
    | call q k =>
      rw [Config.step_call hcur] at hstep
      cases hstep
      exact Function.update_of_ne hj _ _
  | none =>
    cases ht : (c.thread i).todo with
    | nil =>
      simp only [Config.step, hcur, ht] at hstep
      cases hstep
      rfl
    | cons op todo =>
      cases he : op.enter E c.store with
      | none => simp only [Config.step, hcur, ht, he, reduceCtorEq] at hstep
      | some r =>
        rw [Config.step_enter hcur ht he] at hstep
        cases hstep
        exact Function.update_of_ne hj _ _

end Past

/-! ## A worker's thread -/

/-- The call that a request asks for. -/
def Submission.lsRw (a : Submission) : Op := ({ a with } : Req).lsRw

theorem Req.lsRw_eq (x : Req) : x.lsRw = x.toSubmission.lsRw := rfl

/-- The thread of a worker that makes the call `op` for its request. -/
inductive Job (op : Op) : Thread → Prop
  | fresh : Job op { todo := [op] }
  | moving (x : Xfer × Place × Io Out) : Job op { todo := [], cur := some x }
  | ended (out : Out) : Job op { todo := [], outs := [out] }

/-- What the thread of a worker is doing. `subs` are the requests by their names. -/
def Worker.Duty (subs : List Submission) (t : Thread) : Worker → Prop
  | .running r => ∃ a, subs[r]? = some a ∧ Job a.lsRw t
  | .top | .posting _ _ | .booking _ _ | .exited => t.Done

theorem Worker.Duty.mono {subs subs' : List Submission} {t : Thread} {w : Worker}
    (h : w.Duty subs t) (hs : subs <+: subs') : w.Duty subs' t := by
  cases w with
  | running r =>
    obtain ⟨a, h1, h2⟩ := h
    refine ⟨a, ?_, h2⟩
    obtain ⟨l, rfl⟩ := hs
    rw [List.getElem?_append_left (List.getElem?_eq_some_iff.mp h1).1]
    exact h1
  | _ => exact h

/-- A worker that has not got the answer goes on with the call. -/
theorem Job.step [Os σ] [DecidableEq ι] {E : Env} {c c' : Config σ ι} {i : ι} {op : Op}
    (h : Job op (c.thread i)) (hstep : c.step E i = some c') : Job op (c'.thread i) := by
  generalize ht : c.thread i = t at h
  cases h with
  | fresh =>
    cases he : op.enter E c.store with
    | none => simp only [Config.step, ht, he, reduceCtorEq] at hstep
    | some r =>
      obtain ⟨ent, s⟩ := r
      rw [Config.step_enter (by rw [ht]) (by rw [ht]) he] at hstep
      cases hstep
      dsimp only
      rw [Function.update_self, ht]
      cases ent with
      | done out => exact .ended out
      | xfer x pl p => exact .moving _
  | moving x =>
    obtain ⟨x, pl, p⟩ := x
    have hcur : (c.thread i).cur = some (x, pl, p) := by rw [ht]
    cases p with
    | ret out =>
      rw [Config.step_return hcur] at hstep
      cases hstep
      dsimp only
      rw [Function.update_self, ht]
      exact .ended out
    | hang => simp only [Config.step, hcur, reduceCtorEq] at hstep
    | call q k =>
      rw [Config.step_call hcur] at hstep
      cases hstep
      dsimp only
      rw [Function.update_self, ht]
      exact .moving _
  | ended out =>
    simp only [Config.step, ht] at hstep
    cases hstep
    rw [ht]
    exact .ended out

/-- The worker has the answer when its call is over. -/
theorem Job.returned? {op : Op} {t : Thread} {out : Out} (h : Job op t) (hr : t.returned? = some out) :
    t = { todo := [], outs := [out] } := by
  cases h with
  | fresh => cases hr
  | moving x => cases hr
  | ended out' =>
    cases hr
    rfl

/-! ## Requests by their names -/

/-- What a move allocates a request for. -/
def Pool.allocs (p : Pool σ ι) : Move ι → List Submission
  | .submit _ a => if submitRefused p.cfg.store.o a = none ∧ p.thr ≠ [] then [a] else []
  | .wait _ _ | .test _ | .client _ | .work _ | .api _ | .stop => []

/-- The requests that a run allocates, in the order of their names. -/
def asked [Os σ] [DecidableEq ι] (E : Env) : List (Move ι) → Pool σ ι → List Submission
  | [], _ => []
  | m :: ms, p =>
    match p.step E m with
    | none => []
    | some p' => p.allocs m ++ asked E ms p'

/-- The requests that exist are among `subs`. -/
structure Pool.Knows (p : Pool σ ι) (subs : List Submission) : Prop where
  length : subs.length = p.reqNext
  req : ∀ r x, p.req r = some x → subs[r]? = some x.toSubmission

section Knows

variable [DecidableEq ι] {p p' : Pool σ ι} {subs : List Submission} {r : ReqPtr} {i w : ι}

omit [DecidableEq ι] in
theorem Pool.Knows.mono (h : p.Knows subs) (hn : p'.reqNext = p.reqNext)
    (hreq : ∀ r x, p'.req r = some x → ∃ y, p.req r = some y ∧ y.toSubmission = x.toSubmission) :
    p'.Knows subs := by
  refine ⟨h.length.trans hn.symm, fun r x hx => ?_⟩
  obtain ⟨y, hy, he⟩ := hreq r x hx
  rw [← he]
  exact h.req r y hy

omit [DecidableEq ι] in
theorem Pool.Knows.free (h : p.Knows subs) (r : ReqPtr) : (p.free r).Knows subs := by
  refine h.mono rfl fun r' x hx => ⟨x, ?_, rfl⟩
  simp only [Pool.free, Function.update_apply] at hx
  split_ifs at hx
  exact hx

omit [DecidableEq ι] in
theorem Pool.Knows.reqRelease (h : p.Knows subs) (r : ReqPtr) : (p.reqRelease r).Knows subs := by
  obtain ⟨h1, h2⟩ := h.free r
  exact ⟨h1, h2⟩

omit [DecidableEq ι] in
theorem Pool.Knows.releaseAll {fuel : ℕ} (h : p.Knows subs) (hrun : p.releaseAll fuel = some p') :
    p'.Knows subs := by
  induction fuel generalizing p with
  | zero => cases hrun
  | succ fuel ih =>
    rw [Pool.releaseAll] at hrun
    split at hrun
    · cases hrun
      exact h
    · split at hrun
      · cases hrun
      · exact ih (h.reqRelease _) hrun

omit [DecidableEq ι] in
theorem Pool.Knows.post (h : p.Knows subs) {x : Req} (hx : p.req r = some x) (rc : Rc) :
    (p.post r rc x).Knows subs := by
  refine h.mono rfl fun r' y hy => ?_
  simp only [Pool.post, Pool.note, Function.update_apply] at hy
  split_ifs at hy with hr
  · cases hy
    exact ⟨x, by rw [hr]; exact hx, rfl⟩
  · exact ⟨y, hy, rfl⟩

/-- **A step knows the requests** that it allocates. -/
theorem Pool.Knows.step [Os σ] {E : Env} {m : Move ι} (h : p.Knows subs)
    (hrun : p.step E m = some p') : p'.Knows (subs ++ p.allocs m) := by
  cases m with
  | submit i a =>
    cases hrun
    cases ha : submitRefused p.cfg.store.o a with
    | some rc =>
      have hno : p.allocs (.submit i a) = [] := if_neg fun hc => by
        rw [ha] at hc
        cases hc.1
      rw [hno, List.append_nil, Pool.submit, ha]
      exact ⟨h.length, h.req⟩
    | none =>
      rw [Pool.submit, ha]
      by_cases hthr : p.thr = []
      · have hno : p.allocs (.submit i a) = [] := if_neg fun hc => hc.2 hthr
        rw [hno, List.append_nil, hthr]
        exact ⟨h.length, h.req⟩
      · have hone : p.allocs (.submit i a) = [a] := if_pos ⟨ha, hthr⟩
        dsimp only
        rw [hone, if_neg (by rwa [List.length_eq_zero_iff])]
        refine ⟨by rw [List.length_append, h.length]; rfl, fun r x hx => ?_⟩
        simp only [Pool.setUser, Function.update_apply] at hx
        split_ifs at hx with hr
        · cases hx
          rw [hr, ← h.length, List.getElem?_concat_length]
        · have := h.req r x hx
          rw [List.getElem?_append_left (List.getElem?_eq_some_iff.mp this).1]
          exact this
  | wait i r =>
    cases hrun
    rw [Pool.allocs, List.append_nil]
    exact ⟨h.length, h.req⟩
  | test r =>
    rw [Pool.allocs, List.append_nil]
    simp only [Pool.step] at hrun
    split at hrun
    · cases hrun
    · cases hrun
      exact ⟨h.length, h.req⟩
  | client i =>
    rw [Pool.allocs, List.append_nil]
    simp only [Pool.step, Pool.client] at hrun
    split at hrun
    · cases hrun
    · split_ifs at hrun
      · cases hrun
        obtain ⟨h1, h2⟩ := h.free _
        exact ⟨h1, h2⟩
      · cases hrun
        exact ⟨h.length, h.req⟩
    · split at hrun
      · cases hrun
      · split_ifs at hrun
        cases hrun
        exact ⟨h.length, h.req⟩
    · split at hrun
      · cases hrun
      · cases hrun
        obtain ⟨h1, h2⟩ := h.reqRelease _
        exact ⟨h1, h2⟩
  | work w =>
    rw [Pool.allocs, List.append_nil]
    simp only [Pool.step, Pool.work] at hrun
    split at hrun
    · split at hrun
      · split_ifs at hrun
        cases hrun
        exact ⟨h.length, h.req⟩
      · split at hrun
        · cases hrun
        · cases hrun
          exact ⟨h.length, h.req⟩
    · split at hrun
      · cases hrun
        exact ⟨h.length, h.req⟩
      · split at hrun
        · cases hrun
        · cases hrun
          exact ⟨h.length, h.req⟩
    · split at hrun
      · cases hrun
      · cases hrun
        obtain ⟨h1, h2⟩ := h.post (by assumption) (by assumption)
        exact ⟨h1, h2⟩
    · cases hrun
      exact ⟨h.length, h.req⟩
    · cases hrun
  | api i =>
    rw [Pool.allocs, List.append_nil]
    simp only [Pool.step] at hrun
    split at hrun
    · cases hrun
    · cases hrun
      exact ⟨h.length, h.req⟩
  | stop =>
    rw [Pool.allocs, List.append_nil]
    simp only [Pool.step, Pool.poolStop] at hrun
    split at hrun
    · cases hrun
      exact ⟨h.length, h.req⟩
    · split at hrun
      · split_ifs at hrun
        cases hrun
        exact ⟨h.length, h.req⟩
      · cases hrun
        exact ⟨h.length, h.req⟩
    · split at hrun
      · cases hrun
      · cases hrun
        obtain ⟨h1, h2⟩ := h.releaseAll (by assumption)
        exact ⟨h1, h2⟩
    · cases hrun

end Knows

/-! ## What a step does for the calls -/

/-- The event is about no call of a worker. -/
def PoolEvent.Plain : PoolEvent → Prop
  | .took _ | .ran _ _ => False
  | _ => True

/-- The calls of workers go unnoticed. -/
def Unheard (log log' : List PoolEvent) : Prop := ∃ es, log' = es ++ log ∧ ∀ e ∈ es, e.Plain

theorem Unheard.refl (log : List PoolEvent) : Unheard log log := ⟨[], rfl, fun _ h => by cases h⟩

theorem Unheard.cons {log log' : List PoolEvent} {e : PoolEvent} (h : Unheard log log')
    (he : e.Plain) : Unheard log (e :: log') := by
  obtain ⟨es, rfl, hes⟩ := h
  exact ⟨e :: es, rfl, List.forall_mem_cons.mpr ⟨he, hes⟩⟩

theorem Unheard.trans {log log' log'' : List PoolEvent} (h : Unheard log log')
    (h' : Unheard log' log'') : Unheard log log'' := by
  obtain ⟨es, rfl, h1⟩ := h
  obtain ⟨es', rfl, h2⟩ := h'
  exact ⟨es' ++ es, (List.append_assoc _ _ _).symm, List.forall_mem_append.mpr ⟨h2, h1⟩⟩

/-- The worker makes no call. -/
def Worker.Off : Worker → Prop
  | .running _ => False
  | .top | .posting _ _ | .booking _ _ | .exited => True

theorem Worker.Off.duty {w : Worker} {subs : List Submission} {t : Thread} (h : w.Off) :
    w.Duty subs t ↔ t.Done := by
  cases w with
  | running r => exact h.elim
  | _ => exact Iff.rfl

section Does

variable [DecidableEq ι] [Os σ]

/-- What a step does for the calls of the threads. -/
inductive Pool.Does (E : Env) (p p' : Pool σ ι) : Move ι → Prop
  /-- Nothing. -/
  | other {m : Move ι} : p'.cfg = p.cfg → p'.worker = p.worker → Unheard p.log p'.log → Does E p p' m
  /-- A worker goes on between two calls. -/
  | between {w : ι} {pc : Worker} : p'.cfg = p.cfg → (p.worker w).Off → pc.Off →
      p'.worker = Function.update p.worker w pc → Unheard p.log p'.log → Does E p p' (.work w)
  | take {w : ι} {r : ReqPtr} {x : Req} : p.worker w = .top → p.req r = some x →
      p'.cfg = { p.cfg with thread := Function.update p.cfg.thread w { todo := [x.lsRw] } } →
      p'.worker = Function.update p.worker w (.running r) → p'.log = .took r :: p.log →
      Does E p p' (.work w)
  | run {w : ι} {r : ReqPtr} {cfg : Config σ ι} : p.worker w = .running r →
      (p.cfg.thread w).returned? = none → p.cfg.step E w = some cfg → p' = { p with cfg } →
      Does E p p' (.work w)
  | answer {w : ι} {r : ReqPtr} {out : Out} : p.worker w = .running r →
      (p.cfg.thread w).returned? = some out → p'.cfg = p.cfg →
      p'.worker = Function.update p.worker w (.posting r out.rc) → p'.log = .ran r out :: p.log →
      Does E p p' (.work w)
  | api {i : ι} {cfg : Config σ ι} : p.cfg.step E i = some cfg → p' = { p with cfg } →
      Does E p p' (.api i)

variable {E : Env} {p p' : Pool σ ι} {m : Move ι}

omit [DecidableEq ι] [Os σ] in
theorem Pool.releaseAll_other {fuel : ℕ} (h : p.releaseAll fuel = some p') :
    p'.cfg = p.cfg ∧ p'.worker = p.worker ∧ Unheard p.log p'.log := by
  induction fuel generalizing p with
  | zero => cases h
  | succ fuel ih =>
    rw [Pool.releaseAll] at h
    split at h
    · cases h
      exact ⟨rfl, rfl, .refl _⟩
    · split at h
      · cases h
      · obtain ⟨h1, h2, h3⟩ := ih h
        exact ⟨h1, h2, ((Unheard.refl p.log).cons (e := .released _) trivial).trans h3⟩

omit [Os σ] in
theorem Pool.submit_other (p : Pool σ ι) (i : ι) (a : Submission) :
    (p.submit i a).cfg = p.cfg ∧ (p.submit i a).worker = p.worker ∧
      Unheard p.log (p.submit i a).log := by
  have hcons : ∀ rc, Unheard p.log (.refused rc :: p.log) := fun _ => (Unheard.refl _).cons trivial
  rw [Pool.submit]
  split
  · exact ⟨rfl, rfl, hcons _⟩
  · split_ifs
    · exact ⟨rfl, rfl, hcons _⟩
    · exact ⟨rfl, rfl, .refl _⟩

omit [Os σ] in
theorem Pool.client_other {i : ι} (h : p.client i = some p') :
    p'.cfg = p.cfg ∧ p'.worker = p.worker ∧ Unheard p.log p'.log := by
  have hcons : ∀ e : PoolEvent, e.Plain → Unheard p.log (e :: p.log) := fun _ => (Unheard.refl _).cons
  rw [Pool.client] at h
  split at h
  · cases h
  · split_ifs at h <;> cases h <;> exact ⟨rfl, rfl, hcons _ trivial⟩
  · split at h
    · cases h
    · split_ifs at h
      cases h
      exact ⟨rfl, rfl, .refl _⟩
  · split at h
    · cases h
    · cases h
      exact ⟨rfl, rfl, (hcons (.released _) trivial).cons trivial⟩

omit [DecidableEq ι] [Os σ] in
theorem Pool.poolStop_other (h : p.poolStop E = some p') :
    p'.cfg = p.cfg ∧ p'.worker = p.worker ∧ Unheard p.log p'.log := by
  have hcons : ∀ e : PoolEvent, e.Plain → Unheard p.log (e :: p.log) := fun _ => (Unheard.refl _).cons
  rw [Pool.poolStop] at h
  split at h
  · cases h
    exact ⟨rfl, rfl, hcons _ trivial⟩
  · split at h
    · split_ifs at h
      cases h
      exact ⟨rfl, rfl, .refl _⟩
    · cases h
      exact ⟨rfl, rfl, hcons _ trivial⟩
  · split at h
    · cases h
    · cases h
      obtain ⟨h1, h2, h3⟩ := Pool.releaseAll_other (by assumption)
      exact ⟨h1, h2, h3⟩
  · cases h

theorem Pool.work_does {w : ι} (h : p.work E w = some p') : p.Does E p' (.work w) := by
  have hcons : ∀ e : PoolEvent, e.Plain → Unheard p.log (e :: p.log) := fun _ => (Unheard.refl _).cons
  rw [Pool.work] at h
  cases hw : p.worker w with
  | top =>
    simp only [hw] at h
    split at h
    · split_ifs at h
      cases h
      exact .between rfl (by rw [hw]; trivial) (show Worker.Off .exited from trivial) rfl (.refl _)
    · split at h
      · cases h
      · cases h
        exact .take hw (by assumption) rfl rfl rfl
  | running r =>
    simp only [hw] at h
    cases hr : (p.cfg.thread w).returned? with
    | some out =>
      rw [hr] at h
      cases h
      exact .answer hw hr rfl rfl rfl
    | none =>
      rw [hr] at h
      dsimp only at h
      cases hs : p.cfg.step E w with
      | none =>
        rw [hs] at h
        cases h
      | some cfg =>
        rw [hs] at h
        cases h
        exact .run hw hr hs rfl
  | posting r rc =>
    simp only [hw] at h
    split at h
    · cases h
    · cases h
      exact .between rfl (by rw [hw]; trivial) (show Worker.Off (.booking r rc) from trivial) rfl (hcons _ trivial)
  | booking r rc =>
    simp only [hw] at h
    cases h
    exact .between rfl (by rw [hw]; trivial) (show Worker.Off .top from trivial) rfl (hcons _ trivial)
  | exited =>
    simp only [hw] at h
    cases h

/-- **What a step does for the calls.** -/
theorem Pool.step_does (h : p.step E m = some p') : p.Does E p' m := by
  have hcons : ∀ e : PoolEvent, e.Plain → Unheard p.log (e :: p.log) := fun _ => (Unheard.refl _).cons
  cases m with
  | submit i a =>
    cases h
    obtain ⟨h1, h2, h3⟩ := p.submit_other i a
    exact .other h1 h2 h3
  | wait i r =>
    cases h
    exact .other rfl rfl (hcons _ trivial)
  | test r =>
    simp only [Pool.step] at h
    split at h
    · cases h
    · cases h
      exact .other rfl rfl (hcons _ trivial)
  | client i =>
    obtain ⟨h1, h2, h3⟩ := Pool.client_other h
    exact .other h1 h2 h3
  | work w => exact Pool.work_does h
  | api i =>
    simp only [Pool.step] at h
    split at h
    · cases h
    · cases h
      exact .api (by assumption) rfl
  | stop =>
    obtain ⟨h1, h2, h3⟩ := Pool.poolStop_other h
    exact .other h1 h2 h3

end Does

/-! ## Invariants of threads, in the pool -/

variable [HonestOs σ] [Fintype ι] [DecidableEq ι] {E : Env}

open HonestOs (clean)

/-- A thread is given more calls to make. -/
def Config.ask (c : Config σ ι) (i : ι) (ops : List Op) : Config σ ι :=
  { c with
    thread := Function.update c.thread i { c.thread i with todo := (c.thread i).todo ++ ops } }

/-- `K` is an invariant of threads that make the calls `progs`: an admissible step whose outcome is good
keeps it, and it goes on to hold when a thread is given more calls. -/
structure Rides (E : Env) (Adm : ι → Config σ ι → Prop) (Good : Config σ ι → Prop)
    (K : (ι → List Op) → Config σ ι → Prop) : Prop where
  step : ∀ progs c c' i, K progs c → Adm i c → c.step E i = some c' → Good c' → K progs c'
  ask : ∀ progs c i ops, K progs c → K (Function.update progs i (progs i ++ ops)) (c.ask i ops)
  /-- What is admissible or good does not look at the answers of the past. -/
  adm_past : ∀ c h i, Adm i c → Adm i (c.past h)
  good_past : ∀ c h, Good c → Good (c.past h)

/-- A call that begins disturbs no transfer. -/
abbrev Calmly (E : Env) (i : ι) (c : Config σ ι) : Prop := c.Calm E i

section Ask

variable {o : Opts} {direct : Bool} {m₀ : RefMap} {progs : ι → List Op} {g : ι → Option Pend}
  {c : Config σ ι}

omit [HonestOs σ] [Fintype ι] in
theorem Config.ask_thread (c : Config σ ι) (i j : ι) (ops : List Op) :
    ((c.ask i ops).thread j).cur = (c.thread j).cur ∧
      ((c.ask i ops).thread j).outs = (c.thread j).outs := by
  simp only [Config.ask]
  by_cases hj : j = i
  · subst hj
    rw [Function.update_self]
    exact ⟨rfl, rfl⟩
  · rw [Function.update_of_ne hj]
    exact ⟨rfl, rfl⟩

theorem Steady.ask (h : Steady o direct progs g c) (i : ι) (ops : List Op) :
    Steady o direct (Function.update progs i (progs i ++ ops)) g (c.ask i ops) := by
  have hthread := fun j => c.ask_thread i j ops
  refine { h with
    holding := fun j => ?_, calls := fun j => ?_, answered := fun j => ?_, logged := fun j pd hj => ?_ }
  · rcases h.holding j with ⟨h1, h2⟩ | ⟨pd, p, h1, h2, h3⟩
    · exact Or.inl ⟨h1, (hthread j).1.trans h2⟩
    · exact Or.inr ⟨pd, p, h1, (hthread j).1.trans h2, h3⟩
  · rw [Config.ask]
    dsimp only
    by_cases hj : j = i
    · subst hj
      rw [Function.update_self, Function.update_self, ← List.append_assoc, h.calls j]
    · rw [Function.update_of_ne hj, Function.update_of_ne hj]
      exact h.calls j
  · rw [(hthread j).2]
    exact h.answered j
  · obtain ⟨op, h1, h2, h3⟩ := h.logged j pd hj
    refine ⟨op, ?_, h2, h3⟩
    rw [(hthread j).2]
    by_cases hji : j = i
    · subst hji
      rw [Function.update_self, List.getElem?_append_left (List.getElem?_eq_some_iff.mp h1).1]
      exact h1
    · rw [Function.update_of_ne hji]
      exact h1

theorem Tracks.ask (h : Tracks o direct m₀ progs g c) (i : ι) (ops : List Op) :
    Tracks o direct m₀ (Function.update progs i (progs i ++ ops)) g (c.ask i ops) where
  toSteady := h.toSteady.ask i ops
  clean := h.clean
  abs := h.abs
  bytes := h.bytes
  outs j := by
    rw [(c.ask_thread i j ops).2]
    exact h.outs j

/-- Transfers that nobody disturbs. -/
theorem rides_steady (hF : 2 ^ 64 ≤ E.fuel) (o : Opts) (direct : Bool) :
    Rides (σ := σ) (ι := ι) E (Calmly E) (fun _ => True) fun progs c => ∃ g, Steady o direct progs g c where
  step progs c c' i h hcalm hstep _ := by
    obtain ⟨g, hg⟩ := h
    obtain ⟨c₁, h1, h2⟩ := steady_step hF hg hcalm
    rw [hstep] at h1
    cases h1
    exact h2
  ask progs c i ops h := h.imp fun g hg => hg.ask i ops
  adm_past _ _ _ := id
  good_past _ _ := id

/-- Threads that keep to the map `m₀`. -/
theorem rides_tracks (hF : 2 ^ 64 ≤ E.fuel) (o : Opts) (direct : Bool) (m₀ : RefMap) :
    Rides (σ := σ) (ι := ι) E (Calmly E) Config.Clean fun progs c => ∃ g, Tracks o direct m₀ progs g c where
  step progs c c' i h hcalm hstep hgood := by
    obtain ⟨g, hg⟩ := h
    obtain ⟨c₁, h1, h2⟩ := tracks_step hF hg hcalm
    rw [hstep] at h1
    cases h1
    exact h2 hgood
  ask progs c i ops h := h.imp fun g hg => hg.ask i ops
  adm_past _ _ _ := id
  good_past _ _ := id

omit [Fintype ι] in
/-- Threads of which nothing is known. -/
theorem rides_any (E : Env) :
    Rides (σ := σ) (ι := ι) E (fun _ _ => True) (fun _ => True) fun _ _ => True :=
  ⟨fun _ _ _ _ _ _ _ _ => trivial, fun _ _ _ _ _ => trivial, fun _ _ _ => id, fun _ _ => id⟩

end Ask

/-- The step of a thread in which the process goes on, if it is one, is admissible. -/
def Pool.Admits (Adm : ι → Config σ ι → Prop) (p : Pool σ ι) : Move ι → Prop
  | .work i | .api i => Adm i p.cfg
  | .submit _ _ | .wait _ _ | .test _ | .client _ | .stop => True

/-- The threads of the pool and its workers keep to `K`. -/
structure Pool.Carried (K : (ι → List Op) → Config σ ι → Prop) (ws : List ι) (progs₀ : ι → List Op)
    (p : Pool σ ι) (subs : List Submission) : Prop where
  knows : p.Knows subs
  duty : ∀ w ∈ ws, (p.worker w).Duty subs (p.cfg.thread w)
  kept : ∃ h progs, K progs (p.cfg.past h) ∧ ∀ i ∉ ws, h i = [] ∧ progs i = progs₀ i

section Carried

variable {Adm : ι → Config σ ι → Prop} {Good : Config σ ι → Prop}
  {K : (ι → List Op) → Config σ ι → Prop} {ws : List ι}
  {progs₀ : ι → List Op} {p p' : Pool σ ι} {subs : List Submission} {m : Move ι}

omit [HonestOs σ] [Fintype ι] in
/-- A thread that has made its calls is given a new one. -/
theorem Config.past_ask {c : Config σ ι} {i : ι} (hd : (c.thread i).Done) (h : ι → List Out) (op : Op) :
    Config.past { c with thread := Function.update c.thread i { todo := [op] } }
      (Function.update h i (h i ++ (c.thread i).outs)) = (c.past h).ask i [op] := by
  obtain ⟨h1, h2⟩ := hd
  have hthread : ∀ j, { Function.update c.thread i { todo := [op] } j with
      outs := Function.update h i (h i ++ (c.thread i).outs) j ++
        (Function.update c.thread i { todo := [op] } j).outs } = ((c.past h).ask i [op]).thread j := by
    intro j
    simp only [Config.ask]
    by_cases hj : j = i
    · subst hj
      rw [Function.update_self, Function.update_self, Function.update_self]
      simp only [Config.past, h1, h2, List.append_nil, List.nil_append]
    · rw [Function.update_of_ne hj, Function.update_of_ne hj, Function.update_of_ne hj]
      rfl
  exact congrArg (fun f => (⟨c.store, f, c.log⟩ : Config σ ι)) (funext hthread)

omit [Fintype ι] in
/-- A step of one thread. -/
theorem Rides.step_past (hK : Rides E Adm Good K) {progs : ι → List Op} {c c' : Config σ ι} {i : ι}
    {h : ι → List Out} (hc : K progs (c.past h)) (hadm : Adm i c) (hstep : c.step E i = some c')
    (hgood : Good c') : K progs (c'.past h) := by
  refine hK.step progs (c.past h) _ i hc (hK.adm_past c h i hadm) ?_ (hK.good_past c' h hgood)
  rw [Config.step_past, hstep, Option.map_some]

omit [Fintype ι] in
/-- **The pool keeps to what its threads keep to.** -/
theorem Pool.Carried.step (hK : Rides E Adm Good K) (h : p.Carried K ws progs₀ subs) (hadm : p.Allowed ws m)
    (hcalm : p.Admits Adm m) (hrun : p.step E m = some p') (hgood : Good p'.cfg) :
    p'.Carried K ws progs₀ (subs ++ p.allocs m) := by
  have hknows := h.knows.step hrun
  have hsubs : subs <+: subs ++ p.allocs m := List.prefix_append _ _
  obtain ⟨past, progs, h1, h2⟩ := h.kept
  cases Pool.step_does hrun with
  | other hcfg hwork hlog =>
    refine ⟨hknows, fun w hw => ?_, past, progs, by rwa [hcfg], h2⟩
    rw [hcfg, hwork]
    exact (h.duty w hw).mono hsubs
  | @between w pc hcfg hoff hoff' hwork hlog =>
    refine ⟨hknows, fun w' hw' => ?_, past, progs, by rwa [hcfg], h2⟩
    have hd := (h.duty w' hw').mono hsubs
    rw [hcfg, hwork]
    by_cases he : w' = w
    · subst he
      rw [Function.update_self]
      exact hoff'.duty.mpr (hoff.duty.mp hd)
    · rw [Function.update_of_ne he]
      exact hd
  | @take w r x htop hx hcfg hwork hlog =>
    have hdone : (p.cfg.thread w).Done := by
      have := h.duty w hadm
      rwa [htop] at this
    refine ⟨hknows, fun w' hw' => ?_, Function.update past w (past w ++ (p.cfg.thread w).outs),
      Function.update progs w (progs w ++ [x.lsRw]), ?_, fun i hi => ?_⟩
    · rw [hcfg, hwork]
      dsimp only
      by_cases he : w' = w
      · subst he
        rw [Function.update_self, Function.update_self]
        refine ⟨x.toSubmission, ?_, .fresh⟩
        have := h.knows.req r x hx
        rw [List.getElem?_append_left (List.getElem?_eq_some_iff.mp this).1]
        exact this
      · rw [Function.update_of_ne he, Function.update_of_ne he]
        exact (h.duty w' hw').mono hsubs
    · rw [hcfg, Config.past_ask hdone]
      exact hK.ask progs _ w [x.lsRw] h1
    · rw [Function.update_of_ne (by rintro rfl; exact hi hadm),
        Function.update_of_ne (by rintro rfl; exact hi hadm)]
      exact h2 i hi
  | @run w r cfg hw hnone hstep hp =>
    subst hp
    refine ⟨hknows, fun w' hw' => ?_, past, progs, hK.step_past h1 hcalm hstep hgood, h2⟩
    have hd := (h.duty w' hw').mono hsubs
    by_cases he : w' = w
    · subst he
      rw [hw] at hd
      show (p.worker w').Duty _ (cfg.thread w')
      rw [hw]
      exact hd.imp fun a ha => ⟨ha.1, ha.2.step hstep⟩
    · show (p.worker w').Duty _ (cfg.thread w')
      rw [Config.step_thread_ne hstep he]
      exact hd
  | @answer w r out hw hout hcfg hwork hlog =>
    refine ⟨hknows, fun w' hw' => ?_, past, progs, by rwa [hcfg], h2⟩
    have hd := (h.duty w' hw').mono hsubs
    rw [hcfg, hwork]
    by_cases he : w' = w
    · subst he
      rw [hw] at hd
      obtain ⟨a, -, hjob⟩ := hd
      rw [Function.update_self, hjob.returned? hout]
      exact ⟨rfl, rfl⟩
    · rw [Function.update_of_ne he]
      exact hd
  | @api i cfg hstep hp =>
    subst hp
    refine ⟨hknows, fun w hw => ?_, past, progs, hK.step_past h1 hcalm hstep hgood, h2⟩
    show (p.worker w).Duty _ (cfg.thread w)
    rw [Config.step_thread_ne hstep (by rintro rfl; exact hadm hw)]
    exact (h.duty w hw).mono hsubs

end Carried

end Libspill
