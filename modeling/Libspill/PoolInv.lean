import Libspill.Pool

set_option autoImplicit false

/-!
# The invariant of the request pool

What is known between two sections of any threads, and that every section keeps it.

* `WorkerOk`, `ClientOk`, `StopOk`: what is known where a worker is, where a thread is that uses the
  pool, and where `ls_pool_stop` is.
* **`Pool.Inv`**: the invariant; `Pool.Allowed`: what the caller promises (each request is waited for
  at most once, and nobody waits when the pool stops).
* `Pool.Inv.enqueue`, `Pool.Inv.take`, `Pool.Inv.release`, …: one lemma for each section.
-/

namespace Libspill

variable {σ ι : Type}

/-! ## The invariant -/

/-- The request a worker has taken. -/
def Worker.req? : Worker → Option ReqPtr
  | .running r | .posting r _ | .booking r _ => some r
  | .top | .exited => none

/-- The request a thread is submitting or waiting for. -/
def Client.req? : Client → Option ReqPtr
  | .submitting r | .waiting r | .reaping r _ => some r
  | .idle => none

/-- What is known where a worker is. -/
def WorkerOk (log : List PoolEvent) (stop : Bool) (q : List ReqPtr) : Worker → Prop
  | .top => True
  | .running r => r ∈ took log ∧ r ∉ (ran log).map Prod.fst
  | .posting r rc => (r, rc) ∈ ran log ∧ r ∉ posted log
  | .booking r rc => (r, rc) ∈ ran log ∧ r ∈ posted log ∧ r ∉ (booked log).map Prod.fst
  | .exited => stop = true ∧ q = []

/-- What is known where a thread is that uses the pool. -/
def ClientOk (log : List PoolEvent) (req : ReqPtr → Option Req) : Client → Prop
  | .idle => True
  | .submitting r => r ∉ submitted log ∧ ∃ x, req r = some x ∧ x.done = false
  | .waiting r => r ∈ submitted log ∧ r ∉ released log ∧ r ∈ waits log
  | .reaping r rc => (r, rc) ∈ ran log ∧ r ∈ posted log ∧ r ∉ released log ∧ r ∈ waits log

/-- The thread is not in `ls_wait`. -/
def Client.Quiet : Client → Prop
  | .idle | .submitting _ => True
  | .waiting _ | .reaping _ _ => False

instance decidableQuiet : ∀ c : Client, Decidable c.Quiet
  | .idle => isTrue trivial
  | .submitting _ => isTrue trivial
  | .waiting _ => isFalse id
  | .reaping _ _ => isFalse id

/-- What is known where `ls_pool_stop` is, for the workers `ws` and the live list `l`. -/
def StopOk (ws : List ι) (thr : List ι) (worker : ι → Worker) (l : List ReqPtr) : Stopping → Prop
  | .idle => thr = ws
  | .joining k => thr = ws ∧ ∀ w ∈ ws.take k, worker w = .exited
  | .draining => thr = [] ∧ ∀ w ∈ ws, worker w = .exited
  | .returned => thr = [] ∧ (∀ w ∈ ws, worker w = .exited) ∧ l = []

/-- **The invariant of a pool** with the workers `ws`, whose queue holds `q` and whose live list
holds `l`. -/
structure Pool.Inv (ws : List ι) (p : Pool σ ι) (q l : List ReqPtr) : Prop where
  lawful : Lawful p.log
  queue : QueueOk p.next p.qh p.qt q
  order : submitted p.log = q.reverse ++ took p.log
  live : LiveOk p.lnext p.lprev p.live l
  mem_live : ∀ r, r ∈ l ↔ r ∈ submitted p.log ∧ r ∉ released p.log
  fresh : ∀ r, p.reqNext ≤ r → p.req r = none ∧ r ∉ submitted p.log
  unlinked : ∀ r, r ∉ submitted p.log → p.next r = none ∧ p.lprev r = none
  req : ∀ r, r ∈ l → ∃ x, p.req r = some x ∧ (x.done = true ↔ r ∈ posted p.log) ∧
    (r ∈ posted p.log → (r, x.status) ∈ ran p.log)
  worker : ∀ w, WorkerOk p.log p.stop q (p.worker w)
  one : ∀ w w' r, (p.worker w).req? = some r → (p.worker w').req? = some r → w = w'
  served : ∀ r, r ∈ took p.log → r ∈ (booked p.log).map Prod.fst ∨ ∃ w, (p.worker w).req? = some r
  count : p.inflight + (booked p.log).length = (submitted p.log).length
  err : p.drainErr = (firstErr p.log).getD .ok
  crew : ∀ w, w ∉ ws → p.worker w = .top
  user : ∀ i, ClientOk p.log p.req (p.user i)
  alone : ∀ i j r, (p.user i).req? = some r → (p.user j).req? = some r → i = j
  reaped : p.stopping = .idle → ∀ r, r ∈ released p.log → r ∈ waits p.log
  stop_iff : p.stop = true ↔ p.stopping ≠ .idle
  stopped_iff : PoolEvent.stopped ∈ p.log ↔ p.stop = true
  stopping : StopOk ws p.thr p.worker l p.stopping
  quiet : p.stopping ≠ .idle → ∀ i, (p.user i).Quiet

/-- What the caller promises: a thread makes one call at a time, a request is waited for at most
once and tested only while it is live, and no `ls_wait` or `ls_test` is under way or begins once
`ls_pool_stop` has begun. -/
def Pool.Allowed (ws : List ι) : Move ι → Pool σ ι → Prop
  | .submit i _, p => p.user i = .idle
  | .wait i r, p => p.user i = .idle ∧ r ∈ submitted p.log ∧ r ∉ waits p.log ∧ p.stopping = .idle
  | .test r, p => r ∈ submitted p.log ∧ r ∉ released p.log ∧ p.stopping = .idle
  | .client _, _ => True
  | .work w, _ => w ∈ ws
  | .api i, _ => i ∉ ws
  | .stop, p => ∀ i, (p.user i).Quiet

instance decidableAllowed [DecidableEq ι] [Fintype ι] (ws : List ι) :
    ∀ (m : Move ι) (p : Pool σ ι), Decidable (p.Allowed ws m)
  | .submit i _, p => inferInstanceAs (Decidable (p.user i = .idle))
  | .wait i r, p => inferInstanceAs (Decidable
      (p.user i = .idle ∧ r ∈ submitted p.log ∧ r ∉ waits p.log ∧ p.stopping = .idle))
  | .test r, p => inferInstanceAs (Decidable
      (r ∈ submitted p.log ∧ r ∉ released p.log ∧ p.stopping = .idle))
  | .client _, _ => isTrue trivial
  | .work w, _ => inferInstanceAs (Decidable (w ∈ ws))
  | .api i, _ => inferInstanceAs (Decidable (i ∉ ws))
  | .stop, p => inferInstanceAs (Decidable (∀ i, (p.user i).Quiet))

section Steps

variable [DecidableEq ι] {ws : List ι} {p p' : Pool σ ι} {q l : List ReqPtr} {i w : ι} {r : ReqPtr}
  {rc : Rc} {log : List PoolEvent} {e : PoolEvent} {pc : Worker}

/-- The request a worker has got on with. -/
def PoolEvent.served? : PoolEvent → Option ReqPtr
  | .ran r _ | .posted r | .booked r _ => some r
  | _ => none

/-- An event about another request changes nothing for a worker. -/
theorem WorkerOk.cons {stop : Bool} (h : WorkerOk log stop q pc)
    (he : ∀ r, pc.req? = some r → e.served? ≠ some r) : WorkerOk (e :: log) stop q pc := by
  have hsub : log.Sublist (e :: log) := List.sublist_cons_self e log
  cases pc with
  | top => trivial
  | exited => exact h
  | running r =>
    refine ⟨(hsub.filterMap _).subset h.1, fun hm => ?_⟩
    cases e with
    | ran r' out =>
      rcases List.mem_cons.mp hm with rfl | hm
      · exact he _ rfl rfl
      · exact h.2 hm
    | _ => exact h.2 hm
  | posting r rc =>
    refine ⟨(hsub.filterMap _).subset h.1, fun hm => ?_⟩
    cases e with
    | posted r' =>
      rcases List.mem_cons.mp hm with rfl | hm
      · exact he _ rfl rfl
      · exact h.2 hm
    | _ => exact h.2 hm
  | booking r rc =>
    refine ⟨(hsub.filterMap _).subset h.1, (hsub.filterMap _).subset h.2.1, fun hm => ?_⟩
    cases e with
    | booked r' rc' =>
      rcases List.mem_cons.mp hm with rfl | hm
      · exact he _ rfl rfl
      · exact h.2.2 hm
    | _ => exact h.2.2 hm

/-! ### Submitting -/

theorem submitRefused_ne_busy {o : Opts} {a : Submission} (h : submitRefused o a = some rc) :
    rc ≠ .busy := by
  unfold submitRefused at h
  split_ifs at h <;> (cases h; decide)

theorem mem_cons_stopped (he : e ≠ .stopped) :
    PoolEvent.stopped ∈ e :: log ↔ PoolEvent.stopped ∈ log := by
  simp [Ne.symm he]

omit [DecidableEq ι] in
/-- An answer changes nothing. -/
theorem Pool.Inv.note (h : p.Inv ws q l) (hf : Follows p.log e)
    (he : (∃ rc, e = .refused rc) ∨ (∃ r done, e = .tested r done) ∨ ∃ r rc, e = .waited r rc) :
    (p.note e).Inv ws q l := by
  have hw : ∀ w, WorkerOk (e :: p.log) p.stop q (p.worker w) := fun w =>
    (h.worker w).cons fun r _ => by
      rcases he with ⟨_, rfl⟩ | ⟨_, _, rfl⟩ | ⟨_, _, rfl⟩ <;> simp [PoolEvent.served?]
  have hs : PoolEvent.stopped ∈ e :: p.log ↔ p.stop = true := by
    rw [mem_cons_stopped, h.stopped_iff]
    rcases he with ⟨_, rfl⟩ | ⟨_, _, rfl⟩ | ⟨_, _, rfl⟩ <;> simp
  rcases he with ⟨_, rfl⟩ | ⟨_, _, rfl⟩ | ⟨_, _, rfl⟩ <;>
    exact { h with lawful := ⟨hf, h.lawful⟩, worker := hw, stopped_iff := hs }

/-- A request is allocated. -/
theorem Pool.Inv.alloc (h : p.Inv ws q l) {x : Req} (hx : x.done = false) :
    ({ p with req := Function.update p.req p.reqNext (some x), reqNext := p.reqNext + 1 }.setUser i
      (.submitting p.reqNext) : Pool σ ι).Inv ws q l := by
  obtain ⟨hnone, hnew⟩ := h.fresh p.reqNext (Nat.le_refl _)
  have hreq : ∀ r y, p.req r = some y → Function.update p.req p.reqNext (some x) r = some y := by
    intro r y hr
    rw [← hr]
    refine Function.update_of_ne (fun he => ?_) _ _
    rw [he, hnone] at hr
    cases hr
  -- nobody knows of the new request yet
  have hunknown : ∀ j, (p.user j).req? ≠ some p.reqNext := by
    intro j hj
    have hu := h.user j
    cases hc : p.user j with
    | idle => rw [hc] at hj; cases hj
    | submitting r =>
      rw [hc] at hj hu
      cases hj
      obtain ⟨-, y, hy, -⟩ := hu
      rw [hnone] at hy
      cases hy
    | waiting r =>
      rw [hc] at hj hu
      cases hj
      exact hnew hu.1
    | reaping r rc =>
      rw [hc] at hj hu
      cases hj
      exact hnew (submitted_of_posted h.lawful hu.2.1)
  refine { h with fresh := fun r hr => ?_, req := fun r hr => ?_, user := fun j => ?_,
                  alone := fun j k r hj hk => ?_, quiet := fun hs j => ?_ }
  · obtain ⟨h1, h2⟩ := h.fresh r (Nat.le_of_succ_le hr)
    refine ⟨?_, h2⟩
    show Function.update p.req p.reqNext (some x) r = none
    rw [Function.update_of_ne (Nat.ne_of_gt (Nat.lt_of_succ_le hr))]
    exact h1
  · obtain ⟨y, h1, h2⟩ := h.req r hr
    exact ⟨y, hreq r y h1, h2⟩
  · show ClientOk p.log _ (Function.update p.user i _ j)
    by_cases hj : j = i
    · rw [hj, Function.update_self]
      exact ⟨hnew, x, Function.update_self _ _ _, hx⟩
    · rw [Function.update_of_ne hj]
      have hu := h.user j
      cases hc : p.user j with
      | submitting r =>
        rw [hc] at hu
        obtain ⟨h1, y, h2, h3⟩ := hu
        exact ⟨h1, y, hreq r y h2, h3⟩
      | idle => trivial
      | waiting r => rw [hc] at hu; exact hu
      | reaping r rc => rw [hc] at hu; exact hu
  · simp only [Pool.setUser, Function.update_apply] at hj hk
    split_ifs at hj hk with h1 h2 h2
    · rw [h1, h2]
    · cases hj
      exact absurd hk (hunknown k)
    · cases hk
      exact absurd hj (hunknown j)
    · exact h.alone j k r hj hk
  · simp only [Pool.setUser, Function.update_apply]
    split_ifs
    · trivial
    · exact h.quiet hs j

/-- Two threads never have the same request, also after one of them has moved on. -/
theorem Pool.Inv.alone_setUser (h : p.Inv ws q l) {c : Client} (hc : ∀ r, c.req? = some r →
    (p.user i).req? = some r) {j k : ι} (hj : (Function.update p.user i c j).req? = some r)
    (hk : (Function.update p.user i c k).req? = some r) : j = k := by
  have hold : ∀ j, (Function.update p.user i c j).req? = some r → (p.user j).req? = some r := by
    intro j hj
    rw [Function.update_apply] at hj
    split_ifs at hj with he
    · rw [he]
      exact hc r hj
    · exact hj
  exact h.alone j k r (hold j hj) (hold k hk)

theorem Pool.Inv.quiet_setUser (h : p.Inv ws q l) {c : Client} (hc : c.Quiet)
    (hs : p.stopping ≠ .idle) (j : ι) : (Function.update p.user i c j).Quiet := by
  rw [Function.update_apply]
  split_ifs
  · exact hc
  · exact h.quiet hs j

/-- What the other threads know of their requests survives as long as these are not touched. -/
theorem ClientOk.cons {req req' : ReqPtr → Option Req} {c : Client} (h : ClientOk log req c)
    (hreq : ∀ r, c = .submitting r → r ∉ submitted (e :: log) ∧ ∃ x, req' r = some x ∧ x.done = false)
    (hrel : ∀ r, c.req? = some r → e.released? ≠ some r) : ClientOk (e :: log) req' c := by
  have hsub : log.Sublist (e :: log) := List.sublist_cons_self e log
  have hnot : ∀ r, c.req? = some r → r ∉ released log → r ∉ released (e :: log) := by
    intro r hr hn hm
    cases e with
    | released r' =>
      rcases List.mem_cons.mp hm with rfl | hm
      · exact hrel _ hr rfl
      · exact hn hm
    | _ => exact hn hm
  cases c with
  | idle => trivial
  | submitting r => exact hreq r rfl
  | waiting r =>
    exact ⟨(hsub.filterMap _).subset h.1, hnot r rfl h.2.1, (hsub.filterMap _).subset h.2.2⟩
  | reaping r rc =>
    exact ⟨(hsub.filterMap _).subset h.1, (hsub.filterMap _).subset h.2.1, hnot r rfl h.2.2.1,
      (hsub.filterMap _).subset h.2.2.2⟩

/-- `submit` is refused because the pool has stopped. -/
theorem Pool.Inv.busy (h : p.Inv ws q l) (hi : p.user i = .submitting r) (hs : p.stop = true) :
    (((p.free r).note (.refused .busy)).setUser i .idle).Inv ws q l := by
  obtain ⟨hr, -⟩ : r ∉ submitted p.log ∧ ∃ x, p.req r = some x ∧ x.done = false := by
    have := h.user i
    rwa [hi] at this
  have hne : ∀ r', r' ∈ l → r' ≠ r := by
    rintro r' h' rfl
    exact hr ((h.mem_live r').mp h').1
  refine { h with
    lawful := ⟨fun _ => h.stopped_iff.mpr hs, h.lawful⟩
    fresh := fun r' hr' => ⟨?_, (h.fresh r' hr').2⟩
    req := fun r' hr' => ?_
    worker := fun w => (h.worker w).cons (fun _ _ => (by simp [PoolEvent.served?]))
    user := fun j => ?_
    alone := fun j k r' hj hk => h.alone_setUser (fun _ hc => (by cases hc)) hj hk
    stopped_iff := (mem_cons_stopped (by simp)).trans h.stopped_iff
    quiet := fun hs j => h.quiet_setUser (show Client.Quiet .idle from trivial) hs j }
  · show Function.update p.req r none r' = none
    rw [Function.update_apply, (h.fresh r' hr').1, ite_self]
  · show ∃ x, Function.update p.req r none r' = some x ∧ _
    rw [Function.update_of_ne (hne r' hr')]
    exact h.req r' hr'
  · show ClientOk (.refused .busy :: p.log) _ (Function.update p.user i _ j)
    by_cases hj : j = i
    · rw [hj, Function.update_self]
      trivial
    · rw [Function.update_of_ne hj]
      refine (h.user j).cons (fun r' hc => ?_) fun _ _ => (by simp [PoolEvent.released?])
      have hu := h.user j
      rw [hc] at hu
      refine ⟨hu.1, ?_⟩
      show ∃ x, Function.update p.req r none r' = some x ∧ _
      rw [Function.update_of_ne fun he => hj (h.alone j i r (by rw [hc, he]; rfl) (by rw [hi]; rfl))]
      exact hu.2

/-- **A request is accepted.** -/
theorem Pool.Inv.enqueue (h : p.Inv ws q l) (hi : p.user i = .submitting r) (hs : p.stop = false) :
    ((p.enqueue r).setUser i .idle).Inv ws (q ++ [r]) (r :: l) := by
  obtain ⟨hr, x, hx, hdone⟩ : r ∉ submitted p.log ∧ ∃ x, p.req r = some x ∧ x.done = false := by
    have := h.user i
    rwa [hi] at this
  have hq : ∀ r', r' ∈ q → r' ∈ submitted p.log := by
    intro r' h'
    rw [h.order]
    exact List.mem_append_left _ (List.mem_reverse.mpr h')
  have hqnd : q.Nodup := by
    have := nodup_submitted h.lawful
    rw [h.order] at this
    exact List.nodup_reverse.mp this.of_append_left
  have hnl : r ∉ l := fun hl => hr ((h.mem_live r).mp hl).1
  have hnp : r ∉ posted p.log := fun hp => hr (submitted_of_posted h.lawful hp)
  have hns : PoolEvent.stopped ∉ p.log := fun hm => by
    rw [h.stopped_iff, hs] at hm
    cases hm
  obtain ⟨hn1, hn2⟩ := h.unlinked r hr
  refine { h with
    lawful := ⟨⟨hr, hns⟩, h.lawful⟩
    queue := h.queue.push hqnd (fun hm => hr (hq r hm)) hn1
    order := ?_
    live := h.live.push hnl hn2
    mem_live := fun r' => ?_
    fresh := fun r' hr' => ⟨(h.fresh r' hr').1, fun hm => ?_⟩
    unlinked := fun r' hr' => ?_
    req := fun r' hr' => ?_
    worker := fun w => ?_
    count := ?_
    user := fun j => ?_
    alone := fun j k r' hj hk => h.alone_setUser (fun _ hc => (by cases hc)) hj hk
    stopped_iff := (mem_cons_stopped (by simp)).trans h.stopped_iff
    stopping := ?_
    quiet := fun hs j => h.quiet_setUser (show Client.Quiet .idle from trivial) hs j }
  · show r :: submitted p.log = (q ++ [r]).reverse ++ took p.log
    rw [h.order, List.reverse_append]
    rfl
  · show r' ∈ r :: l ↔ r' ∈ r :: submitted p.log ∧ r' ∉ released p.log
    rw [List.mem_cons, List.mem_cons, h.mem_live r']
    constructor
    · rintro (rfl | hm)
      · exact ⟨Or.inl rfl, fun hm => hnp (posted_of_released h.lawful hm)⟩
      · exact ⟨Or.inr hm.1, hm.2⟩
    · rintro ⟨rfl | hm, hn⟩
      · exact Or.inl rfl
      · exact Or.inr ⟨hm, hn⟩
  · rcases List.mem_cons.mp hm with rfl | hm
    · rw [(h.fresh _ hr').1] at hx
      cases hx
    · exact (h.fresh r' hr').2 hm
  · have h2 : r' ∉ submitted p.log := fun hm => hr' (List.mem_cons_of_mem _ hm)
    obtain ⟨h3, h4⟩ := h.unlinked r' h2
    refine ⟨?_, ?_⟩
    · show setAt p.next p.qt (some r) r' = none
      rw [setAt_of_ne, h3]
      rw [h.queue.tail]
      exact fun he => h2 (hq r' (List.mem_of_getLast? he))
    · show setAt p.lprev p.live (some r) r' = none
      rw [setAt_of_ne, h4]
      rw [h.live.head]
      exact fun he => h2 ((h.mem_live r').mp (List.mem_of_mem_head? he)).1
  · rcases List.mem_cons.mp hr' with rfl | hm
    · exact ⟨x, hx, by rw [hdone]; exact ⟨fun hd => (by cases hd), fun hp => absurd hp hnp⟩,
        fun hp => absurd hp hnp⟩
    · exact h.req r' hm
  · have hw := h.worker w
    refine WorkerOk.cons ?_ fun _ _ => (by simp [PoolEvent.served?])
    show WorkerOk p.log p.stop (q ++ [r]) (p.worker w)
    cases hc : p.worker w with
    | exited =>
      rw [hc, WorkerOk, hs] at hw
      cases hw.1
    | top => trivial
    | running r' => rw [hc] at hw; exact hw
    | posting r' rc => rw [hc] at hw; exact hw
    | booking r' rc => rw [hc] at hw; exact hw
  · show p.inflight + 1 + (booked p.log).length = (submitted p.log).length + 1
    rw [← h.count]
    omega
  · show ClientOk (.accepted r :: p.log) _ (Function.update p.user i _ j)
    by_cases hj : j = i
    · rw [hj, Function.update_self]
      trivial
    · rw [Function.update_of_ne hj]
      refine (h.user j).cons (fun r' hc => ?_) fun _ _ => (by simp [PoolEvent.released?])
      have hu := h.user j
      rw [hc] at hu
      refine ⟨fun hm => ?_, hu.2⟩
      rcases List.mem_cons.mp hm with rfl | hm
      · exact hj (h.alone j i _ (by rw [hc]; rfl) (by rw [hi]; rfl))
      · exact hu.1 hm
  · have hidle : p.stopping = .idle := by
      by_contra hne
      rw [h.stop_iff.mpr hne] at hs
      cases hs
    have := h.stopping
    rw [hidle] at this
    show StopOk ws p.thr p.worker (r :: l) p.stopping
    rw [hidle]
    exact this

/-! ### Waiting -/

/-- `ls_wait` is called. -/
theorem Pool.Inv.wait (h : p.Inv ws q l) (hr : r ∈ submitted p.log) (hw : r ∉ waits p.log)
    (hs : p.stopping = .idle) : ((p.note (.waits r)).setUser i (.waiting r)).Inv ws q l := by
  have hnew : ∀ j, (p.user j).req? ≠ some r := by
    intro j hj
    have hu := h.user j
    cases hc : p.user j with
    | idle => rw [hc] at hj; cases hj
    | submitting r' => rw [hc] at hj hu; cases hj; exact hu.1 hr
    | waiting r' => rw [hc] at hj hu; cases hj; exact hw hu.2.2
    | reaping r' rc => rw [hc] at hj hu; cases hj; exact hw hu.2.2.2
  refine { h with
    lawful := ⟨⟨hr, hw⟩, h.lawful⟩
    worker := fun w => (h.worker w).cons (fun _ _ => (by simp [PoolEvent.served?]))
    user := fun j => ?_
    alone := fun j k r' hj hk => ?_
    reaped := fun hs r' hr' => List.mem_cons_of_mem _ (h.reaped hs r' hr')
    stopped_iff := (mem_cons_stopped (by simp)).trans h.stopped_iff
    quiet := fun hne => absurd hs hne }
  · show ClientOk (.waits r :: p.log) _ (Function.update p.user i _ j)
    by_cases hj : j = i
    · rw [hj, Function.update_self]
      exact ⟨hr, fun hm => hw (h.reaped hs r hm), List.mem_cons_self⟩
    · rw [Function.update_of_ne hj]
      refine (h.user j).cons (fun r' hc => ?_) fun _ _ => (by simp [PoolEvent.released?])
      have hu := h.user j
      rw [hc] at hu
      exact hu
  · simp only [Pool.setUser, Function.update_apply] at hj hk
    split_ifs at hj hk with h1 h2 h2
    · rw [h1, h2]
    · cases hj
      exact absurd hk (hnew k)
    · cases hk
      exact absurd hj (hnew j)
    · exact h.alone j k r' hj hk

/-- `ls_wait` finds the request done. -/
theorem Pool.Inv.waited (h : p.Inv ws q l) (hi : p.user i = .waiting r) {x : Req}
    (hx : p.req r = some x) (hdone : x.done = true) :
    (p.setUser i (.reaping r x.status)).Inv ws q l := by
  have hu : r ∈ submitted p.log ∧ r ∉ released p.log ∧ r ∈ waits p.log := by
    have := h.user i
    rwa [hi] at this
  obtain ⟨y, h1, h2, h3⟩ := h.req r ((h.mem_live r).mpr ⟨hu.1, hu.2.1⟩)
  rw [hx] at h1
  cases h1
  have hp := h2.mp hdone
  refine { h with
    user := fun j => ?_
    alone := fun j k r' hj hk => h.alone_setUser (fun _ hc => (by rw [hi]; exact hc)) hj hk
    quiet := fun hs => absurd (h.quiet hs i) (by rw [hi]; exact id) }
  show ClientOk p.log p.req (Function.update p.user i _ j)
  by_cases hj : j = i
  · rw [hj, Function.update_self]
    exact ⟨h3 hp, hp, hu.2⟩
  · rw [Function.update_of_ne hj]
    exact h.user j

omit [DecidableEq ι] in
/-- **A request is released**, and nobody goes on with it. -/
theorem Pool.Inv.release {pre post : List ReqPtr} (h : p.Inv ws q (pre ++ r :: post))
    (hp : r ∈ posted p.log) (hw : p.stopping = .idle → r ∈ waits p.log)
    (hret : p.stopping ≠ .returned) (user : ι → Client)
    (hu : ∀ j, user j = .idle ∨ user j = p.user j ∧ (p.user j).req? ≠ some r) :
    ({ p.reqRelease r with user } : Pool σ ι).Inv ws q (pre ++ post) := by
  have hrl : r ∈ pre ++ r :: post := List.mem_append_right _ List.mem_cons_self
  obtain ⟨hr, hnr⟩ := (h.mem_live r).mp hrl
  have hnd : (r :: (pre ++ post)).Nodup := List.nodup_middle.mp h.live.nodup
  have hmem : ∀ r', r' ∈ pre ++ r :: post ↔ r' = r ∨ r' ∈ pre ++ post := by
    intro r'
    simp only [List.mem_append, List.mem_cons]
    tauto
  have hold : ∀ j r', (user j).req? = some r' → (p.user j).req? = some r' := by
    intro j r' hj
    rcases hu j with h0 | ⟨h1, -⟩
    · rw [h0] at hj
      cases hj
    · rwa [h1] at hj
  refine { h with
    lawful := ⟨⟨hp, hnr⟩, h.lawful⟩
    live := h.live.unlink
    mem_live := fun r' => ?_
    fresh := fun r' hr' => ⟨?_, (h.fresh r' hr').2⟩
    unlinked := fun r' hr' => ⟨(h.unlinked r' hr').1, ?_⟩
    req := fun r' hr' => ?_
    worker := fun w => (h.worker w).cons (fun _ _ => (by simp [PoolEvent.served?]))
    user := fun j => ?_
    alone := fun j k r' hj hk => h.alone j k r' (hold j r' hj) (hold k r' hk)
    reaped := fun hs r' hr' => ?_
    stopped_iff := (mem_cons_stopped (by simp)).trans h.stopped_iff
    stopping := ?_
    quiet := fun hs j => ?_ }
  · have := h.mem_live r'
    rw [hmem] at this
    show r' ∈ pre ++ post ↔ r' ∈ submitted p.log ∧ r' ∉ r :: released p.log
    rw [List.mem_cons, not_or]
    constructor
    · intro hm
      exact ⟨(this.mp (Or.inr hm)).1, fun he => (List.nodup_cons.mp hnd).1 (he ▸ hm),
        (this.mp (Or.inr hm)).2⟩
    · rintro ⟨h1, h2, h3⟩
      exact (this.mpr ⟨h1, h3⟩).resolve_left h2
  · show Function.update p.req r none r' = none
    rw [Function.update_apply, (h.fresh r' hr').1, ite_self]
  · show setAt p.lprev (p.lnext r) (p.lprev r) r' = none
    rw [setAt_of_ne, (h.unlinked r' hr').2]
    rw [(leads_bypass h.live.next h.live.nodup).1]
    intro he
    have : r' ∈ pre ++ r :: post := (hmem r').mpr (Or.inr (List.mem_append_right _ (List.mem_of_mem_head? he)))
    exact hr' ((h.mem_live r').mp this).1
  · show ∃ x, Function.update p.req r none r' = some x ∧ _
    rw [Function.update_of_ne (fun he : r' = r => (List.nodup_cons.mp hnd).1 (he ▸ hr'))]
    exact h.req r' ((hmem r').mpr (Or.inr hr'))
  · show ClientOk (.released r :: p.log) (Function.update p.req r none) (user j)
    rcases hu j with h0 | ⟨h1, h2⟩
    · rw [h0]
      trivial
    · rw [h1]
      refine (h.user j).cons (fun r' hc => ?_) fun r' hr' he => h2 (by cases he; exact hr')
      have hj := h.user j
      rw [hc] at hj
      refine ⟨hj.1, ?_⟩
      show ∃ x, Function.update p.req r none r' = some x ∧ _
      rw [Function.update_of_ne (fun he : r' = r => hj.1 (he ▸ hr))]
      exact hj.2
  · rcases List.mem_cons.mp hr' with rfl | hm
    · exact hw hs
    · exact h.reaped hs r' hm
  · have hst := h.stopping
    show StopOk ws p.thr p.worker (pre ++ post) p.stopping
    cases hc : p.stopping with
    | returned => exact absurd hc hret
    | idle => rw [hc] at hst; exact hst
    | joining k => rw [hc] at hst; exact hst
    | draining => rw [hc] at hst; exact hst
  · show (user j).Quiet
    rcases hu j with h0 | ⟨h1, -⟩
    · rw [h0]
      trivial
    · rw [h1]
      exact h.quiet hs j

/-- `ls_wait` releases the request. -/
theorem Pool.Inv.reap (h : p.Inv ws q l) (hi : p.user i = .reaping r rc) :
    ∃ l', (((p.reqRelease r).note (.waited r rc)).setUser i .idle).Inv ws q l' := by
  obtain ⟨h1, h2, h3, h4⟩ : (r, rc) ∈ ran p.log ∧ r ∈ posted p.log ∧ r ∉ released p.log ∧
      r ∈ waits p.log := by
    have := h.user i
    rwa [hi] at this
  have hidle : p.stopping = .idle := by
    by_contra hne
    have := h.quiet hne i
    rw [hi] at this
    exact this
  obtain ⟨pre, post, rfl⟩ := List.append_of_mem
    ((h.mem_live r).mpr ⟨submitted_of_posted h.lawful h2, h3⟩)
  have hrel := h.release h2 (fun _ => h4) (by rw [hidle]; exact Stopping.noConfusion)
    (Function.update p.user i .idle) fun j => by
      by_cases hj : j = i
      · exact Or.inl (by rw [hj, Function.update_self])
      · refine Or.inr ⟨Function.update_of_ne hj _ _, fun he => hj ?_⟩
        exact h.alone j i r he (by rw [hi]; rfl)
  exact ⟨pre ++ post, hrel.note ⟨h1, h2⟩ (Or.inr (Or.inr ⟨r, rc, rfl⟩))⟩

/-! ### Working -/

omit [DecidableEq ι] in
/-- A request that a worker has was taken. -/
theorem Pool.Inv.took_of_req (h : p.Inv ws q l) (hw : (p.worker w).req? = some r) : r ∈ took p.log := by
  have hok := h.worker w
  cases hc : p.worker w with
  | top => rw [hc] at hw; cases hw
  | exited => rw [hc] at hw; cases hw
  | running r' => rw [hc] at hw hok; cases hw; exact hok.1
  | posting r' rc => rw [hc] at hw hok; cases hw; exact took_of_ran h.lawful hok.1
  | booking r' rc => rw [hc] at hw hok; cases hw; exact took_of_ran h.lawful hok.1

/-- Two workers never have the same request, also after one of them has moved on. -/
theorem Pool.Inv.one_setWorker (h : p.Inv ws q l)
    (hpc : ∀ r, pc.req? = some r → (p.worker w).req? = some r ∨ r ∉ took p.log) (w₁ w₂ : ι) (r : ReqPtr)
    (h1 : (Function.update p.worker w pc w₁).req? = some r)
    (h2 : (Function.update p.worker w pc w₂).req? = some r) : w₁ = w₂ := by
  rw [Function.update_apply] at h1 h2
  split_ifs at h1 h2 with e1 e2 e2
  · rw [e1, e2]
  · rcases hpc r h1 with ho | hn
    · rw [e1]
      exact h.one w w₂ r ho h2
    · exact absurd (h.took_of_req h2) hn
  · rcases hpc r h2 with ho | hn
    · rw [e2]
      exact h.one w₁ w r h1 ho
    · exact absurd (h.took_of_req h1) hn
  · exact h.one w₁ w₂ r h1 h2

theorem Pool.Inv.crew_setWorker (h : p.Inv ws q l) (hw : w ∈ ws) (w' : ι) (hw' : w' ∉ ws) :
    Function.update p.worker w pc w' = .top := by
  rw [Function.update_of_ne fun he => hw' (by rw [he]; exact hw)]
  exact h.crew w' hw'

/-- A worker that has exited does not come back. -/
theorem StopOk.setWorker {thr : List ι} {worker : ι → Worker} {s : Stopping}
    (h : StopOk ws thr worker l s) (hw : worker w ≠ .exited ∨ pc = .exited) :
    StopOk ws thr (Function.update worker w pc) l s := by
  have hex : ∀ w', worker w' = .exited → Function.update worker w pc w' = .exited := by
    intro w' hw'
    rw [Function.update_apply]
    split_ifs with he
    · exact hw.resolve_left fun hn => hn (by rw [← he]; exact hw')
    · exact hw'
  cases s with
  | idle => exact h
  | joining k => exact ⟨h.1, fun w' hw' => hex w' (h.2 w' hw')⟩
  | draining => exact ⟨h.1, fun w' hw' => hex w' (h.2 w' hw')⟩
  | returned => exact ⟨h.1, fun w' hw' => hex w' (h.2.1 w' hw'), h.2.2⟩

/-- The other workers are where they were. -/
theorem Pool.Inv.worker_setWorker (h : p.Inv ws q l) (hpc : WorkerOk (e :: p.log) p.stop q pc)
    (he : ∀ r, e.served? = some r → (p.worker w).req? = some r) (w' : ι) :
    WorkerOk (e :: p.log) p.stop q (Function.update p.worker w pc w') := by
  by_cases hw : w' = w
  · rw [hw, Function.update_self]
    exact hpc
  · rw [Function.update_of_ne hw]
    exact (h.worker w').cons fun r hr hs => hw (h.one w' w r hr (he r hs))

/-- Nobody loses a request. -/
theorem Pool.Inv.served_setWorker (h : p.Inv ws q l)
    (hpc : ∀ r, (p.worker w).req? = some r → pc.req? = some r) (r : ReqPtr) (hr : r ∈ took p.log) :
    r ∈ (booked p.log).map Prod.fst ∨ ∃ w', (Function.update p.worker w pc w').req? = some r := by
  refine (h.served r hr).imp_right ?_
  rintro ⟨w', hw'⟩
  refine ⟨w', ?_⟩
  rw [Function.update_apply]
  split_ifs with he
  · exact hpc r (by rw [← he]; exact hw')
  · exact hw'

omit [DecidableEq ι] in
/-- What a worker does changes nothing for the threads that wait. -/
theorem Pool.Inv.user_cons (h : p.Inv ws q l) (h1 : e.accepted? = none) (h2 : e.released? = none)
    (i : ι) : ClientOk (e :: p.log) p.req (p.user i) := by
  refine (h.user i).cons (fun r hc => ?_) fun r _ he => by rw [h2] at he; cases he
  have hu := h.user i
  rw [hc] at hu
  refine ⟨?_, hu.2⟩
  rw [submitted, List.filterMap_cons_none h1]
  exact hu.1

/-- A worker exits. -/
theorem Pool.Inv.exit (h : p.Inv ws q l) (hws : w ∈ ws) (hw : p.worker w = .top) (hq : p.qh = none)
    (hs : p.stop = true) : (p.setWorker w .exited).Inv ws q l := by
  have hnil : q = [] := by
    have := h.queue.head
    rw [hq] at this
    exact List.head?_eq_none_iff.mp this.symm
  refine { h with
    worker := fun w' => ?_
    one := h.one_setWorker fun _ hr => (by cases hr)
    served := h.served_setWorker fun r hr => (by rw [hw] at hr; cases hr)
    crew := h.crew_setWorker hws
    stopping := h.stopping.setWorker (Or.inr rfl) }
  show WorkerOk p.log p.stop q (Function.update p.worker w .exited w')
  rw [Function.update_apply]
  split_ifs
  · exact ⟨hs, hnil⟩
  · exact h.worker w'

/-- **A worker takes the oldest request.** -/
theorem Pool.Inv.take (h : p.Inv ws (r :: q) l) (hws : w ∈ ws) (hw : p.worker w = .top) (x : Req) :
    (p.take w r x).Inv ws q l := by
  have horder : submitted p.log = q.reverse ++ r :: took p.log := by
    rw [h.order]
    simp
  have hnd := nodup_submitted h.lawful
  have hnt : r ∉ took p.log := by
    rw [horder] at hnd
    exact (List.nodup_cons.mp hnd.of_append_right).1
  have hnr : r ∉ (ran p.log).map Prod.fst := by
    intro hm
    obtain ⟨y, hy, rfl⟩ := List.mem_map.mp hm
    exact hnt (took_of_ran h.lawful hy)
  have hold : ∀ w', WorkerOk p.log p.stop q (p.worker w') := by
    intro w'
    have hok := h.worker w'
    cases hc : p.worker w' with
    | exited => rw [hc] at hok; cases hok.2
    | top => trivial
    | running r' => rw [hc] at hok; exact hok
    | posting r' rc => rw [hc] at hok; exact hok
    | booking r' rc => rw [hc] at hok; exact hok
  refine { h with
    lawful := ⟨⟨q.reverse, horder⟩, h.lawful⟩
    queue := h.queue.pop
    order := horder
    worker := fun w' => ?_
    one := h.one_setWorker fun r' hr' => Or.inr (by cases hr'; exact hnt)
    served := fun r' hr' => ?_
    crew := h.crew_setWorker hws
    user := h.user_cons rfl rfl
    stopped_iff := (mem_cons_stopped (by simp)).trans h.stopped_iff
    stopping := h.stopping.setWorker (Or.inl (by rw [hw]; exact Worker.noConfusion)) }
  · show WorkerOk (.took r :: p.log) p.stop q (Function.update p.worker w (.running r) w')
    rw [Function.update_apply]
    split_ifs
    · exact ⟨List.mem_cons_self, hnr⟩
    · exact (hold w').cons fun _ _ => by simp [PoolEvent.served?]
  · show _ ∨ ∃ w', (Function.update p.worker w (.running r) w').req? = some r'
    rcases List.mem_cons.mp hr' with rfl | hm
    · exact Or.inr ⟨w, by rw [Function.update_self]; rfl⟩
    · exact h.served_setWorker (fun r'' hr'' => (by rw [hw] at hr''; cases hr'')) r' hm

/-- `ls_rw` has returned. -/
theorem Pool.Inv.finish (h : p.Inv ws q l) (hws : w ∈ ws) (hw : p.worker w = .running r) (out : Out) :
    ((p.note (.ran r out)).setWorker w (.posting r out.rc)).Inv ws q l := by
  have hok : r ∈ took p.log ∧ r ∉ (ran p.log).map Prod.fst := by
    have := h.worker w
    rwa [hw] at this
  have hnp : r ∉ posted p.log := fun hm => hok.2 (ran_of_posted h.lawful hm)
  refine { h with
    lawful := ⟨hok, h.lawful⟩
    req := fun r' hr' => ?_
    worker := h.worker_setWorker ⟨List.mem_cons_self, hnp⟩ fun r' hr' => (by cases hr'; rw [hw]; rfl)
    one := h.one_setWorker fun r' hr' => Or.inl (by cases hr'; rw [hw]; rfl)
    served := h.served_setWorker fun r' hr' => (by rw [hw] at hr'; exact hr')
    crew := h.crew_setWorker hws
    user := h.user_cons rfl rfl
    stopped_iff := (mem_cons_stopped (by simp)).trans h.stopped_iff
    stopping := h.stopping.setWorker (Or.inl (by rw [hw]; exact Worker.noConfusion)) }
  obtain ⟨x, h1, h2, h3⟩ := h.req r' hr'
  exact ⟨x, h1, h2, fun hp => List.mem_cons_of_mem _ (h3 hp)⟩

/-- The status of a request is set. -/
theorem Pool.Inv.post (h : p.Inv ws q l) (hws : w ∈ ws) (hw : p.worker w = .posting r rc) (x : Req) : ((p.post r rc x).setWorker w (.booking r rc)).Inv ws q l := by
  have hok : (r, rc) ∈ ran p.log ∧ r ∉ posted p.log := by
    have := h.worker w
    rwa [hw] at this
  have hsub : r ∈ submitted p.log := submitted_of_took h.lawful (took_of_ran h.lawful hok.1)
  have hnb : r ∉ (booked p.log).map Prod.fst := fun hm => hok.2 (posted_of_booked h.lawful hm)
  refine { h with
    lawful := ⟨⟨List.mem_map.mpr ⟨_, hok.1, rfl⟩, hok.2⟩, h.lawful⟩
    fresh := fun r' hr' => ⟨?_, (h.fresh r' hr').2⟩
    req := fun r' hr' => ?_
    worker := h.worker_setWorker ⟨hok.1, List.mem_cons_self, hnb⟩ fun r' hr' => (by cases hr'; rw [hw]; rfl)
    one := h.one_setWorker fun r' hr' => Or.inl (by cases hr'; rw [hw]; rfl)
    served := h.served_setWorker fun r' hr' => (by rw [hw] at hr'; exact hr')
    crew := h.crew_setWorker hws
    user := fun i => (h.user i).cons (fun r' hc => ?_) fun _ _ => (by simp [PoolEvent.released?])
    stopped_iff := (mem_cons_stopped (by simp)).trans h.stopped_iff
    stopping := h.stopping.setWorker (Or.inl (by rw [hw]; exact Worker.noConfusion)) }
  · show Function.update p.req r _ r' = none
    rw [Function.update_of_ne fun he => (h.fresh r' hr').2 (by rw [he]; exact hsub)]
    exact (h.fresh r' hr').1
  · show ∃ y, Function.update p.req r _ r' = some y ∧ (y.done = true ↔ r' ∈ r :: posted p.log) ∧
      (r' ∈ r :: posted p.log → (r', y.status) ∈ ran p.log)
    by_cases he : r' = r
    · rw [he, Function.update_self]
      exact ⟨_, rfl, by simp, fun _ => hok.1⟩
    · rw [Function.update_of_ne he]
      obtain ⟨y, h1, h2, h3⟩ := h.req r' hr'
      refine ⟨y, h1, ?_, fun hm => h3 ((List.mem_cons.mp hm).resolve_left he)⟩
      rw [h2, List.mem_cons]
      exact ⟨Or.inr, fun hm => hm.resolve_left he⟩
  · have hu := h.user i
    rw [hc] at hu
    refine ⟨hu.1, ?_⟩
    show ∃ y, Function.update p.req r _ r' = some y ∧ _
    rw [Function.update_of_ne fun he => hu.1 (by rw [he]; exact hsub)]
    exact hu.2

/-- A request is no longer in flight. -/
theorem Pool.Inv.book (h : p.Inv ws q l) (hws : w ∈ ws) (hw : p.worker w = .booking r rc) :
    ((p.book r rc).setWorker w .top).Inv ws q l := by
  have hok : (r, rc) ∈ ran p.log ∧ r ∈ posted p.log ∧ r ∉ (booked p.log).map Prod.fst := by
    have := h.worker w
    rwa [hw] at this
  have hlt : (booked p.log).length < (submitted p.log).length := by
    have hsub : r :: (booked p.log).map Prod.fst ⊆ submitted p.log := by
      intro r' hr'
      rcases List.mem_cons.mp hr' with rfl | hm
      · exact submitted_of_posted h.lawful hok.2.1
      · exact submitted_of_posted h.lawful (posted_of_booked h.lawful hm)
    have hnd : (r :: (booked p.log).map Prod.fst).Nodup :=
      List.nodup_cons.mpr ⟨hok.2.2, nodup_booked h.lawful⟩
    have := (List.subperm_of_subset hnd hsub).length_le
    rwa [List.length_cons, List.length_map] at this
  refine { h with
    lawful := ⟨hok, h.lawful⟩
    worker := h.worker_setWorker trivial fun r' hr' => (by cases hr'; rw [hw]; rfl)
    one := h.one_setWorker fun _ hr' => (by cases hr')
    served := fun r' hr' => ?_
    count := ?_
    err := ?_
    crew := h.crew_setWorker hws
    user := h.user_cons rfl rfl
    stopped_iff := (mem_cons_stopped (by simp)).trans h.stopped_iff
    stopping := h.stopping.setWorker (Or.inl (by rw [hw]; exact Worker.noConfusion)) }
  · show r' ∈ r :: (booked p.log).map Prod.fst ∨
      ∃ w', (Function.update p.worker w .top w').req? = some r'
    rcases h.served r' hr' with hm | ⟨w', hw'⟩
    · exact Or.inl (List.mem_cons_of_mem _ hm)
    · by_cases he : w' = w
      · rw [he, hw] at hw'
        cases hw'
        exact Or.inl List.mem_cons_self
      · exact Or.inr ⟨w', by rw [Function.update_of_ne he]; exact hw'⟩
  · show p.inflight - 1 + ((booked p.log).length + 1) = (submitted p.log).length
    have := h.count
    omega
  · show (if rc ≠ Rc.ok ∧ p.drainErr = Rc.ok then rc else p.drainErr) =
      (firstErr (.booked r rc :: p.log)).getD .ok
    rw [h.err, firstErr_booked]
    cases hf : firstErr p.log with
    | none => by_cases hrc : rc = .ok <;> simp [hrc]
    | some e => simp [ne_ok_of_firstErr hf]

/-! ### Stopping -/

omit [DecidableEq ι] in
/-- `ls_pool_stop` begins. -/
theorem Pool.Inv.stop (h : p.Inv ws q l) (hs : p.stopping = .idle) (hquiet : ∀ i, (p.user i).Quiet) :
    ({ p with stop := true, stopping := .joining 0 }.note .stopped : Pool σ ι).Inv ws q l := by
  have hnot : PoolEvent.stopped ∉ p.log := fun hm => h.stop_iff.mp (h.stopped_iff.mp hm) hs
  refine { h with
    lawful := ⟨hnot, h.lawful⟩
    worker := fun w => ?_
    user := h.user_cons rfl rfl
    reaped := fun hs => (by cases hs)
    stop_iff := ⟨fun _ => Stopping.noConfusion, fun _ => rfl⟩
    stopped_iff := ⟨fun _ => rfl, fun _ => List.mem_cons_self⟩
    stopping := ?_
    quiet := fun _ => hquiet }
  · refine WorkerOk.cons ?_ fun _ _ => by simp [PoolEvent.served?]
    have hw := h.worker w
    show WorkerOk p.log true q (p.worker w)
    cases hc : p.worker w with
    | exited => rw [hc] at hw; exact ⟨rfl, hw.2⟩
    | top => trivial
    | running r => rw [hc] at hw; exact hw
    | posting r rc => rw [hc] at hw; exact hw
    | booking r rc => rw [hc] at hw; exact hw
  · have := h.stopping
    rw [hs] at this
    exact ⟨this, fun w hw => by simp at hw⟩

omit [DecidableEq ι] in
/-- A worker is joined. -/
theorem Pool.Inv.join {k : ℕ} (h : p.Inv ws q l) (hs : p.stopping = .joining k)
    (hk : p.thr[k]? = some w) (hw : p.worker w = .exited) :
    ({ p with stopping := .joining (k + 1) } : Pool σ ι).Inv ws q l := by
  have hst := h.stopping
  rw [hs] at hst
  refine { h with
    reaped := fun hs => (by cases hs)
    stop_iff := ⟨fun _ => Stopping.noConfusion, fun _ => h.stop_iff.mpr (by rw [hs]; exact Stopping.noConfusion)⟩
    stopping := ⟨hst.1, fun w' hw' => ?_⟩
    quiet := fun _ => h.quiet (by rw [hs]; exact Stopping.noConfusion) }
  rw [hst.1] at hk
  rw [List.take_add_one, hk, Option.toList_some, List.mem_append, List.mem_singleton] at hw'
  rcases hw' with hm | rfl
  · exact hst.2 w' hm
  · exact hw

omit [DecidableEq ι] in
/-- Every worker is joined. -/
theorem Pool.Inv.joined {k : ℕ} (h : p.Inv ws q l) (hs : p.stopping = .joining k)
    (hk : p.thr[k]? = none) :
    ({ p with thr := [], stopping := .draining }.note .joined : Pool σ ι).Inv ws q l := by
  have hst := h.stopping
  rw [hs] at hst
  have hne : p.stopping ≠ .idle := by rw [hs]; exact Stopping.noConfusion
  refine { h with
    lawful := ⟨h.stopped_iff.mpr (h.stop_iff.mpr hne), h.lawful⟩
    worker := fun w => (h.worker w).cons (fun _ _ => (by simp [PoolEvent.served?]))
    user := h.user_cons rfl rfl
    reaped := fun hs => (by cases hs)
    stop_iff := ⟨fun _ => Stopping.noConfusion, fun _ => h.stop_iff.mpr hne⟩
    stopped_iff := (mem_cons_stopped (by simp)).trans h.stopped_iff
    stopping := ⟨rfl, fun w hw => hst.2 w ?_⟩
    quiet := fun _ => h.quiet hne }
  rw [hst.1, List.getElem?_eq_none_iff] at hk
  rwa [List.take_of_length_le hk]

omit [DecidableEq ι] in
/-- **Once the workers have exited, every accepted request has run.** -/
theorem Pool.Inv.all_booked (h : p.Inv ws q l) (hne : ws ≠ []) (hex : ∀ w ∈ ws, p.worker w = .exited)
    (hr : r ∈ submitted p.log) : r ∈ (booked p.log).map Prod.fst := by
  have hq : q = [] := by
    obtain ⟨w, hw⟩ := List.exists_mem_of_ne_nil ws hne
    have := h.worker w
    rw [hex w hw] at this
    exact this.2
  rw [h.order, hq] at hr
  refine (h.served r hr).resolve_right ?_
  rintro ⟨w, hw⟩
  by_cases hm : w ∈ ws
  · rw [hex w hm] at hw
    cases hw
  · rw [h.crew w hm] at hw
    cases hw

omit [DecidableEq ι] in
/-- `ls_pool_stop` releases what is left. -/
theorem Pool.Inv.releaseAll {fuel : ℕ} (h : p.Inv ws q l) (hs : p.stopping = .draining)
    (hp : ∀ r, r ∈ l → r ∈ posted p.log) (hrun : p.releaseAll fuel = some p') :
    p'.Inv ws q [] ∧ p'.stopping = .draining := by
  induction fuel generalizing p l with
  | zero => cases hrun
  | succ fuel ih =>
    have hhead := h.live.head
    rw [Pool.releaseAll] at hrun
    cases l with
    | nil =>
      rw [show p.live = none from hhead] at hrun
      cases hrun
      exact ⟨h, hs⟩
    | cons r l =>
      rw [show p.live = some r from hhead] at hrun
      obtain ⟨x, hx, -⟩ := h.req r List.mem_cons_self
      simp only [hx] at hrun
      have hsub := ((h.mem_live r).mp List.mem_cons_self).1
      have hrel := Pool.Inv.release (show p.Inv ws q ([] ++ r :: l) from h) (hp r List.mem_cons_self)
        (fun he => by rw [hs] at he; cases he) (by rw [hs]; exact Stopping.noConfusion) p.user
        fun j => by
          have hq := h.quiet (by rw [hs]; exact Stopping.noConfusion) j
          have hu := h.user j
          cases hc : p.user j with
          | idle => exact Or.inl rfl
          | submitting r' =>
            refine Or.inr ⟨rfl, fun he => ?_⟩
            rw [hc] at hu
            cases he
            exact hu.1 hsub
          | waiting r' => rw [hc] at hq; exact hq.elim
          | reaping r' rc => rw [hc] at hq; exact hq.elim
      exact ih hrel hs (fun r' hr' => hp r' (List.mem_cons_of_mem _ hr')) hrun

omit [DecidableEq ι] in
/-- `ls_pool_stop` returns. -/
theorem Pool.Inv.drain {fuel : ℕ} (h : p.Inv ws q l) (hne : ws ≠ []) (hs : p.stopping = .draining)
    (hrun : p.releaseAll fuel = some p') :
    ({ p' with stopping := .returned } : Pool σ ι).Inv ws q [] := by
  have hst := h.stopping
  rw [hs] at hst
  obtain ⟨h', hs'⟩ := h.releaseAll hs (fun r hr => posted_of_booked h.lawful
    (h.all_booked hne hst.2 ((h.mem_live r).mp hr).1)) hrun
  have hst' := h'.stopping
  rw [hs'] at hst'
  have hne' : p'.stopping ≠ .idle := by rw [hs']; exact Stopping.noConfusion
  exact { h' with
    reaped := fun hs => (by cases hs)
    stop_iff := ⟨fun _ => Stopping.noConfusion, fun _ => h'.stop_iff.mpr hne'⟩
    stopping := ⟨hst'.1, hst'.2, rfl⟩
    quiet := fun _ => h'.quiet hne' }

end Steps

end Libspill
