import Libspill.Async
import Libspill.Distinct
import Libspill.Held
import Libspill.Session

set_option autoImplicit false

/-!
# Asynchronous calls, one after the other

* `Order`: the calls of a run, each with the thread or the request that made it.
* `Pool.Traced`, **`Pool.Traced.step`**: which request made which call, and when.
* `Pool.Serial`, **`pool_serial`**: the answers of a pool are those of its calls made one after the
  other.
* **`pool_in_order`**: with one worker, in the order in which the requests were accepted.
-/

namespace Libspill

variable {σ ι : Type} [HonestOs σ] [Fintype ι] [DecidableEq ι] {E : Env}

open HonestOs (clean)

/-! ## Which request made which call -/

/-- The calls of a process in the order of their first critical sections, each with the thread or the
request that made it. -/
abbrev Order (ι : Type) : Type := List ((ι ⊕ ReqPtr) × Op)

/-- The requests that have made their call. -/
def Order.requests {κ : Type} (order : Order κ) : List ReqPtr := order.filterMap fun x => x.1.getRight?

/-- The call at `k` is that of the request `r`. -/
def Order.At {κ : Type} (order : Order κ) (k : ℕ) (r : ReqPtr) : Prop :=
  ∃ op, order[k]? = some ((Sum.inr r : κ ⊕ ReqPtr), op)

/-- The answers to the calls, made one after the other. -/
def Order.answers {κ : Type} (sh : Bool) (m₀ : RefMap) (order : Order κ) : List Out :=
  (refRun sh (order.map Prod.snd) m₀).1

/-- The call that a worker made was that of a request, any other call that of its thread. -/
def Tagged (ws : List ι) (subs : List Submission) (l : Logged ι) (x : (ι ⊕ ReqPtr) × Op) : Prop :=
  l.op = x.2 ∧ x.1.elim (fun i => l.thread = i ∧ i ∉ ws)
    fun r => l.thread ∈ ws ∧ ∃ a, subs[r]? = some a ∧ x.2 = a.lsRw

/-- The last call of thread `i` is the one at `k`. -/
def LastAt (i : ι) (log : List (Logged ι)) (k : ℕ) : Prop :=
  ∃ pre l post, log = pre ++ l :: post ∧ pre.length = k ∧ l.thread = i ∧ ∀ l' ∈ post, l'.thread ≠ i

section Order

variable {ws : List ι} {subs : List Submission} {log : List (Logged ι)} {order : Order ι} {i j : ι}
  {k : ℕ} {r : ReqPtr} {op : Op} {sh : Bool} {m₀ : RefMap}

omit [Fintype ι] [DecidableEq ι]

theorem calls_of_tagged (h : List.Forall₂ (Tagged ws subs) log order) :
    calls log = order.map Prod.snd := by
  induction h with
  | nil => rfl
  | cons h1 h2 ih =>
    rw [calls, List.map_cons, List.map_cons, h1.1]
    exact congrArg _ ih

theorem Tagged.mono {l : Logged ι} {x : (ι ⊕ ReqPtr) × Op} (h : Tagged ws subs l x)
    (subs' : List Submission) : Tagged ws (subs ++ subs') l x := by
  obtain ⟨h1, h2⟩ := h
  refine ⟨h1, ?_⟩
  cases hx : x.1 with
  | inl i => rwa [hx] at h2
  | inr r =>
    rw [hx] at h2
    obtain ⟨h3, a, h4, h5⟩ := h2
    refine ⟨h3, a, ?_, h5⟩
    rw [List.getElem?_append_left (List.getElem?_eq_some_iff.mp h4).1]
    exact h4

theorem lastAt_concat (l : Logged ι) : LastAt l.thread (log ++ [l]) log.length :=
  ⟨log, l, [], rfl, rfl, rfl, fun _ h => by cases h⟩

theorem LastAt.concat (h : LastAt i log k) {l : Logged ι} (hl : l.thread ≠ i) :
    LastAt i (log ++ [l]) k := by
  obtain ⟨pre, l₁, post, rfl, h1, h2, h3⟩ := h
  refine ⟨pre, l₁, post ++ [l], by simp, h1, h2, List.forall_mem_append.mpr ⟨h3, ?_⟩⟩
  simpa using hl

theorem answers_concat (sh : Bool) (m₀ : RefMap) (order : Order ι) (x : (ι ⊕ ReqPtr) × Op) :
    ∃ out, Order.answers sh m₀ (order ++ [x]) = order.answers sh m₀ ++ [out] := by
  rw [Order.answers, List.map_append, List.map_singleton, refRun_append]
  exact ⟨_, rfl⟩

theorem length_answers : (order.answers sh m₀).length = order.length := by
  rw [Order.answers, length_refRun, List.length_map]

theorem mem_requests : r ∈ order.requests ↔ ∃ op, (.inr r, op) ∈ order := by
  rw [Order.requests, List.mem_filterMap]
  constructor
  · rintro ⟨⟨t, op⟩, h1, h2⟩
    rw [Sum.getRight?_eq_some_iff] at h2
    dsimp only at h2
    exact ⟨op, h2 ▸ h1⟩
  · rintro ⟨op, h⟩
    exact ⟨_, h, rfl⟩

theorem Order.At.mem (h : order.At k r) : r ∈ order.requests :=
  mem_requests.mpr (h.imp fun _ ho => List.mem_of_getElem? ho)

theorem Order.At.lt (h : order.At k r) : k < order.length :=
  h.elim fun _ ho => (List.getElem?_eq_some_iff.mp ho).1

theorem Order.at_concat (h : k < order.length) (x : (ι ⊕ ReqPtr) × Op) :
    Order.At (order ++ [x]) k r ↔ order.At k r := by
  rw [Order.At, Order.At, List.getElem?_append_left h]

variable [DecidableEq ι]

/-- The last answer to a thread is the one to its last call. -/
theorem getLast?_outsOf {outs : List Out} (h : LastAt i log k) (hlen : log.length = outs.length) :
    (outsOf i log outs).getLast? = outs[k]? := by
  obtain ⟨pre, l, post, rfl, rfl, hl, hpost⟩ := h
  rw [List.length_append, List.length_cons] at hlen
  obtain ⟨out, hout⟩ : ∃ out, outs[pre.length]? = some out :=
    ⟨_, List.getElem?_eq_getElem (by omega)⟩
  have hsplit : outs = outs.take pre.length ++ out :: outs.drop (pre.length + 1) := by
    conv_lhs => rw [← List.take_append_drop pre.length outs]
    rw [List.drop_eq_getElem_cons (by omega), ← (List.getElem?_eq_some_iff.mp hout).2]
  have htake : pre.length = (outs.take pre.length).length := by
    rw [List.length_take]
    omega
  have hrest : (post.zip (outs.drop (pre.length + 1))).filter (fun x => x.1.thread = i) = [] := by
    rw [List.filter_eq_nil_iff]
    intro x hx
    simpa using hpost x.1 (List.of_mem_zip hx).1
  rw [hout, hsplit, outsOf, List.zip_append htake, List.zip_cons_cons, List.filter_append,
    List.filter_cons_of_pos (by simpa using hl), hrest, List.map_append, List.map_singleton,
    List.getLast?_concat]

end Order

/-- Which request made which call, and when. -/
structure Pool.Traced (sh : Bool) (m₀ : RefMap) (ws : List ι) (p : Pool σ ι) (subs : List Submission)
    (order : Order ι) : Prop where
  tagged : List.Forall₂ (Tagged ws subs) p.cfg.log order
  once : order.requests.Nodup
  taken : ∀ r ∈ order.requests, r ∈ took p.log
  /-- A worker has made the call of its request when it has nothing else to do. -/
  made : ∀ w ∈ ws, ∀ r, p.worker w = .running r → (p.cfg.thread w).todo = [] →
    ∃ k, order.At k r ∧ LastAt w p.cfg.log k
  fresh : ∀ w ∈ ws, ∀ r, p.worker w = .running r → (p.cfg.thread w).todo ≠ [] → r ∉ order.requests
  ran : ∀ r out, .ran r out ∈ p.log →
    ∃ k, order.At k r ∧ (order.answers sh m₀)[k]? = some out
  /-- A request that was taken when another one had run comes after it. -/
  after : ∀ r r' out k', [.took r', .ran r out].Sublist p.log → order.At k' r' →
    ∃ k, k < k' ∧ order.At k r

section Traced

variable {sh : Bool} {m₀ : RefMap} {ws : List ι} {p p' : Pool σ ι} {subs subs' : List Submission}
  {order : Order ι} {i w : ι} {r : ReqPtr} {cfg : Config σ ι}

omit [HonestOs σ] [Fintype ι] [DecidableEq ι]

theorem Unheard.took {log log' : List PoolEvent} (h : Unheard log log') : took log' = took log := by
  obtain ⟨es, rfl, hes⟩ := h
  induction es with
  | nil => rfl
  | cons e es ih =>
    have he := hes e List.mem_cons_self
    cases e with
    | took r => exact he.elim
    | _ => exact ih fun e he => hes e (List.mem_cons_of_mem _ he)

theorem Unheard.mem_ran {log log' : List PoolEvent} (h : Unheard log log') {out : Out}
    (hr : .ran r out ∈ log') : .ran r out ∈ log := by
  obtain ⟨es, rfl, hes⟩ := h
  exact (List.mem_append.mp hr).resolve_left fun hm => hes _ hm

theorem Unheard.sublist {log log' : List PoolEvent} (h : Unheard log log') {r' : ReqPtr} {out : Out}
    (hr : [.took r', .ran r out].Sublist log') : [.took r', .ran r out].Sublist log := by
  obtain ⟨es, rfl, hes⟩ := h
  induction es with
  | nil => exact hr
  | cons e es ih =>
    refine ih (fun e he => hes e (List.mem_cons_of_mem _ he)) ?_
    rcases List.cons_sublist_cons'.mp hr with hr | ⟨he, -⟩
    · exact hr
    · have := hes e List.mem_cons_self
      rw [← he] at this
      exact this.elim

/-- Nothing has happened to the calls. -/
theorem Pool.Traced.unheard (h : p.Traced sh m₀ ws subs order) (hcfg : p'.cfg = p.cfg)
    (hwork : ∀ w r, p'.worker w = .running r → p.worker w = .running r)
    (hlog : Unheard p.log p'.log) (subs' : List Submission) :
    p'.Traced sh m₀ ws (subs ++ subs') order where
  tagged := by
    rw [hcfg]
    exact h.tagged.imp fun _ _ hx => hx.mono subs'
  once := h.once
  taken r hr := by
    rw [hlog.took]
    exact h.taken r hr
  made w hw r hr ht := by
    rw [hcfg] at ht ⊢
    exact h.made w hw r (hwork w r hr) ht
  fresh w hw r hr ht := by
    rw [hcfg] at ht
    exact h.fresh w hw r (hwork w r hr) ht
  ran r out hr := h.ran r out (hlog.mem_ran hr)
  after r r' out k' hr := h.after r r' out k' (hlog.sublist hr)

variable [DecidableEq ι]

/-- A worker takes a request. -/
theorem Pool.Traced.take {x : Req} (h : p.Traced sh m₀ ws subs order) (hnew : r ∉ took p.log)
    (hcfg : p'.cfg = { p.cfg with thread := Function.update p.cfg.thread w { todo := [x.lsRw] } })
    (hwork : p'.worker = Function.update p.worker w (.running r))
    (hlog : p'.log = .took r :: p.log) : p'.Traced sh m₀ ws subs order where
  tagged := by
    rw [hcfg]
    exact h.tagged
  once := h.once
  taken r' hr' := by
    rw [hlog]
    exact List.mem_cons_of_mem _ (h.taken r' hr')
  made w' hw' r' hr' ht := by
    rw [hcfg] at ht ⊢
    rw [hwork] at hr'
    dsimp only at ht ⊢
    by_cases he : w' = w
    · subst he
      rw [Function.update_self] at ht
      cases ht
    · rw [Function.update_of_ne he] at hr' ht
      exact h.made w' hw' r' hr' ht
  fresh w' hw' r' hr' ht := by
    rw [hcfg] at ht
    rw [hwork] at hr'
    dsimp only at ht
    by_cases he : w' = w
    · subst he
      rw [Function.update_self] at hr'
      cases hr'
      exact fun hm => hnew (h.taken _ hm)
    · rw [Function.update_of_ne he] at hr' ht
      exact h.fresh w' hw' r' hr' ht
  ran r' out hr' := by
    rw [hlog] at hr'
    exact h.ran r' out ((List.mem_cons.mp hr').resolve_left (by simp))
  after r₁ r₂ out k' hr hk := by
    rw [hlog] at hr
    rcases List.cons_sublist_cons'.mp hr with hr | ⟨he, -⟩
    · exact h.after r₁ r₂ out k' hr hk
    · cases he
      exact absurd (h.taken _ hk.mem) hnew

omit [DecidableEq ι] in
/-- A step in the middle of a call. -/
theorem Pool.Traced.goOn (h : p.Traced sh m₀ ws subs order) (hstep : cfg.log = p.cfg.log)
    (htodo : ∀ w ∈ ws, (cfg.thread w).todo = (p.cfg.thread w).todo) :
    ({ p with cfg } : Pool σ ι).Traced sh m₀ ws subs order where
  tagged := by
    show List.Forall₂ _ cfg.log order
    rw [hstep]
    exact h.tagged
  once := h.once
  taken := h.taken
  made w hw r hr ht := by
    obtain ⟨k, h1, h2⟩ := h.made w hw r hr ((htodo w hw).symm.trans ht)
    exact ⟨k, h1, hstep ▸ h2⟩
  fresh w hw r hr ht := h.fresh w hw r hr fun hn => ht ((htodo w hw).trans hn)
  ran := h.ran
  after := h.after

/-- A call is made. -/
theorem Pool.Traced.enter {x : (ι ⊕ ReqPtr) × Op} {l : Logged ι}
    (h : p.Traced sh m₀ ws subs order) (hl : Tagged ws subs l x) (hlog : cfg.log = p.cfg.log ++ [l])
    (hthread : ∀ w, w ≠ l.thread → cfg.thread w = p.cfg.thread w)
    (hmine : ∀ r, x.1 = .inr r → p.worker l.thread = .running r ∧ (p.cfg.thread l.thread).todo ≠ [] ∧
      (cfg.thread l.thread).todo = [] ∧ r ∈ took p.log)
    (honly : ∀ w ∈ ws, ∀ r, p.worker w = .running r → (x.1 = .inr r ↔ w = l.thread)) :
    ({ p with cfg } : Pool σ ι).Traced sh m₀ ws subs (order ++ [x]) := by
  have hlen := h.tagged.length_eq
  have hgrow : ∀ {k : ℕ} {r : ReqPtr}, order.At k r → Order.At (order ++ [x]) k r :=
    fun hk => (Order.at_concat hk.lt x).mpr hk
  have hreq : Order.requests (order ++ [x]) = order.requests ++ x.1.getRight?.toList := by
    rw [Order.requests, List.filterMap_append]
    cases hx : x.1.getRight? <;> simp [hx, Order.requests]
  have hmem : ∀ r, r ∈ Order.requests (order ++ [x]) ↔ r ∈ order.requests ∨ x.1 = .inr r := by
    intro r
    rw [hreq, List.mem_append, Option.mem_toList, Sum.getRight?_eq_some_iff]
  have hfresh : ∀ r, x.1 = .inr r → r ∉ order.requests := fun r hx => by
    obtain ⟨h1, h2, -, -⟩ := hmine r hx
    have hw : l.thread ∈ ws := by
      have := hl.2
      rw [hx] at this
      exact this.1
    exact h.fresh _ hw r h1 h2
  refine ⟨?_, ?_, fun r hr => ?_, fun w hw r hr ht => ?_, fun w hw r hr ht => ?_, fun r out hr => ?_,
    fun r r' out k' hr hk => ?_⟩
  · show List.Forall₂ _ cfg.log _
    rw [hlog]
    exact List.rel_append h.tagged (.cons hl .nil)
  · rw [hreq]
    cases hx : x.1 with
    | inl i => simpa using h.once
    | inr r =>
      refine List.nodup_append.mpr ⟨h.once, by simp, fun a ha b hb => ?_⟩
      have hb' : b = r := by simpa using hb
      rw [hb']
      rintro rfl
      exact hfresh a hx ha
  · rcases (hmem r).mp hr with hr | hr
    · exact h.taken r hr
    · exact (hmine r hr).2.2.2
  · by_cases he : w = l.thread
    · have hx := (honly w hw r hr).mpr he
      refine ⟨order.length, ⟨x.2, by rw [List.getElem?_concat_length, ← hx]⟩, ?_⟩
      show LastAt w cfg.log _
      rw [hlog, he, ← hlen]
      exact lastAt_concat l
    · obtain ⟨k, h1, h2⟩ := h.made w hw r hr (by rw [← hthread w he]; exact ht)
      refine ⟨k, hgrow h1, ?_⟩
      show LastAt w cfg.log k
      rw [hlog]
      exact h2.concat (Ne.symm he)
  · have he : w ≠ l.thread := by
      rintro rfl
      exact ht (hmine r ((honly _ hw r hr).mpr rfl)).2.2.1
    rw [hmem, not_or]
    exact ⟨h.fresh w hw r hr (by rw [← hthread w he]; exact ht), fun hx => he ((honly w hw r hr).mp hx)⟩
  · obtain ⟨k, h1, h2⟩ := h.ran r out hr
    obtain ⟨out', h3⟩ := answers_concat sh m₀ order x
    refine ⟨k, hgrow h1, ?_⟩
    rw [h3, List.getElem?_append_left (List.getElem?_eq_some_iff.mp h2).1]
    exact h2
  · by_cases hlt : k' < order.length
    · obtain ⟨k, h1, h2⟩ := h.after r r' out k' hr ((Order.at_concat hlt x).mp hk)
      exact ⟨k, h1, hgrow h2⟩
    · obtain ⟨k, h1, -⟩ := h.ran r out (hr.subset (by simp))
      exact ⟨k, h1.lt.trans_le (Nat.not_lt.mp hlt), hgrow h1⟩

/-- The call of a request has returned. -/
theorem Pool.Traced.answer {out : Out} (h : p.Traced sh m₀ ws subs order) (hw : w ∈ ws)
    (hrun : p.worker w = .running r) (ht : (p.cfg.thread w).todo = [])
    (hout : ∀ k, LastAt w p.cfg.log k → (order.answers sh m₀)[k]? = some out) (hcfg : p'.cfg = p.cfg)
    (hwork : p'.worker = Function.update p.worker w (.posting r out.rc))
    (hlog : p'.log = .ran r out :: p.log) : p'.Traced sh m₀ ws subs order := by
  have hold : ∀ w' r', p'.worker w' = .running r' → p.worker w' = .running r' := by
    intro w' r' hr'
    rw [hwork] at hr'
    by_cases he : w' = w
    · rw [he, Function.update_self] at hr'
      cases hr'
    · rwa [Function.update_of_ne he] at hr'
  refine ⟨by rw [hcfg]; exact h.tagged, h.once, fun r' hr' => ?_, fun w' hw' r' hr' ht' => ?_,
    fun w' hw' r' hr' ht' => ?_, fun r' out' hr' => ?_, fun r₁ r₂ out' k' hr' hk => ?_⟩
  · rw [hlog]
    exact h.taken r' hr'
  · rw [hcfg] at ht' ⊢
    exact h.made w' hw' r' (hold w' r' hr') ht'
  · rw [hcfg] at ht'
    exact h.fresh w' hw' r' (hold w' r' hr') ht'
  · rw [hlog] at hr'
    rcases List.mem_cons.mp hr' with he | hr'
    · cases he
      obtain ⟨k, h1, h2⟩ := h.made w hw r hrun ht
      exact ⟨k, h1, hout k h2⟩
    · exact h.ran r' out' hr'
  · rw [hlog] at hr'
    rcases List.cons_sublist_cons'.mp hr' with hr' | ⟨he, -⟩
    · exact h.after r₁ r₂ out' k' hr' hk
    · cases he

end Traced

section Runs

variable {o : Opts} {direct : Bool} {m₀ : RefMap} {ws : List ι} {progs₀ : ι → List Op}
  {p p' : Pool σ ι} {subs : List Submission} {order : Order ι} {q q' l l' : List ReqPtr} {m : Move ι}

/-- The threads of the pool keep to the map `m₀`. -/
abbrev Pool.OnMap (o : Opts) (direct : Bool) (m₀ : RefMap) (ws : List ι) (progs₀ : ι → List Op)
    (p : Pool σ ι) (subs : List Submission) : Prop :=
  p.Carried (fun progs c => ∃ g, Tracks o direct m₀ progs g c) ws progs₀ subs

/-- The answer a worker has got is the one to the last call of its thread. -/
theorem Pool.Carried.answer {w : ι} {k : ℕ} {out : Out} (h : p.OnMap o direct m₀ ws progs₀ subs)
    (ht : p.cfg.thread w = { todo := [], outs := [out] })
    (htag : List.Forall₂ (Tagged ws subs) p.cfg.log order) (hk : LastAt w p.cfg.log k) :
    (order.answers o.shared m₀)[k]? = some out := by
  obtain ⟨past, progs, ⟨g, hg⟩, -⟩ := h.kept
  have hnone : g w = none := (hg.holding w).idle (by
    show (p.cfg.thread w).cur = none
    rw [ht])
  have houts := hg.outs w
  rw [hnone, Option.map_none, Option.toList_none, List.append_nil] at houts
  have hlast := getLast?_outsOf hk
    (show p.cfg.log.length = (order.answers o.shared m₀).length by rw [length_answers, htag.length_eq])
  rw [← hlast, Order.answers, ← calls_of_tagged htag]
  refine (congrArg List.getLast? houts).symm.trans ?_
  show (past w ++ (p.cfg.thread w).outs).getLast? = some out
  rw [ht, List.getLast?_concat]

/-- **A step traces the calls** that it makes. -/
theorem Pool.Traced.step (h : p.Traced o.shared m₀ ws subs order) (hinv : p.Inv ws q l)
    (hinv' : p'.Inv ws q' l') (hc : p.OnMap o direct m₀ ws progs₀ subs) (hadm : p.Allowed ws m)
    (hrun : p.step E m = some p') : ∃ order', p'.Traced o.shared m₀ ws (subs ++ p.allocs m) order' := by
  cases Pool.step_does hrun with
  | other hcfg hwork hlog => exact ⟨order, h.unheard hcfg (fun w r hr => hwork ▸ hr) hlog _⟩
  | @between w pc hcfg hoff hoff' hwork hlog =>
    refine ⟨order, h.unheard hcfg (fun w' r hr => ?_) hlog _⟩
    rw [hwork] at hr
    by_cases he : w' = w
    · rw [he, Function.update_self] at hr
      rw [hr] at hoff'
      exact hoff'.elim
    · rwa [Function.update_of_ne he] at hr
  | @take w r x htop hx hcfg hwork hlog =>
    rw [Pool.allocs, List.append_nil]
    refine ⟨order, h.take (fun hm => ?_) hcfg hwork hlog⟩
    have hnd := nodup_submitted hinv'.lawful
    rw [hinv'.order, hlog] at hnd
    exact (List.nodup_cons.mp (List.nodup_append.mp hnd).2.1).1 hm
  | @run w r cfg hw hnone hstep hp =>
    rw [Pool.allocs, List.append_nil]
    subst hp
    have hd := hc.duty w hadm
    rw [hw] at hd
    obtain ⟨a, ha, hjob⟩ := hd
    generalize ht : p.cfg.thread w = t at hjob hnone
    cases hjob with
    | fresh =>
      cases he : a.lsRw.enter E p.cfg.store with
      | none => simp only [Config.step, ht, he, reduceCtorEq] at hstep
      | some b =>
        obtain ⟨ent, s⟩ := b
        rw [Config.step_enter (by rw [ht]) (by rw [ht]) he] at hstep
        cases hstep
        have htag : Tagged ws subs ⟨w, a.lsRw, ent.xfer?⟩ (.inr r, a.lsRw) := ⟨rfl, hadm, a, ha, rfl⟩
        refine ⟨order ++ [(.inr r, a.lsRw)], h.enter htag rfl
          (fun w' hw' => Function.update_of_ne hw' _ _) (fun r' hr' => ?_) fun w' hw' r' hr' => ?_⟩
        · cases hr'
          refine ⟨hw, by rw [ht]; simp, ?_, hinv.took_of_req (w := w) (by rw [hw]; rfl)⟩
          dsimp only
          rw [Function.update_self, ht]
          cases ent <;> rfl
        · constructor
          · intro hr
            cases hr
            exact hinv.one w' w r (by rw [hr']; rfl) (by rw [hw]; rfl)
          · rintro rfl
            rw [hw] at hr'
            cases hr'
            rfl
    | moving x =>
      obtain ⟨x, pl, io⟩ := x
      have hcur : (p.cfg.thread w).cur = some (x, pl, io) := by rw [ht]
      have htodo : ∀ w' ∈ ws, (cfg.thread w').todo = (p.cfg.thread w').todo := by
        intro w' _
        by_cases he : w' = w
        · subst he
          cases io with
          | ret out =>
            rw [Config.step_return hcur] at hstep
            cases hstep
            dsimp only
            rw [Function.update_self]
          | hang => simp only [Config.step, hcur, reduceCtorEq] at hstep
          | call c k =>
            rw [Config.step_call hcur] at hstep
            cases hstep
            dsimp only
            rw [Function.update_self]
        · rw [Config.step_thread_ne hstep he]
      rcases Config.step_log hstep with hlog | ⟨op, y, hn, -⟩
      · exact ⟨order, h.goOn hlog htodo⟩
      · rw [(Config.next_eq_some.mp hn).1] at hcur
        cases hcur
    | ended out => cases hnone
  | @answer w r out hw hout hcfg hwork hlog =>
    rw [Pool.allocs, List.append_nil]
    have hd := hc.duty w hadm
    rw [hw] at hd
    obtain ⟨a, -, hjob⟩ := hd
    have ht := hjob.returned? hout
    exact ⟨order, h.answer hadm hw (by rw [ht]) (fun k hk => hc.answer ht h.tagged hk) hcfg hwork hlog⟩
  | @api i cfg hstep hp =>
    rw [Pool.allocs, List.append_nil]
    subst hp
    have hne : ∀ w ∈ ws, w ≠ i := by
      rintro w hw rfl
      exact hadm hw
    rcases Config.step_log hstep with hlog | ⟨op, x, -, hlog⟩
    · exact ⟨order, h.goOn hlog fun w hw => by rw [Config.step_thread_ne hstep (hne w hw)]⟩
    · have htag : Tagged ws subs ⟨i, op, x⟩ (.inl i, op) := ⟨rfl, rfl, hadm⟩
      exact ⟨order ++ [(.inl i, op)], h.enter htag hlog
        (fun w hw => Config.step_thread_ne hstep hw) (fun r hr => (by cases hr)) fun w hw r _ =>
          ⟨fun hr => (by cases hr), fun he => absurd he (hne w hw)⟩⟩

/-- What the caller promises, and a call that begins disturbs no transfer. -/
def Pool.AllowedCalm (E : Env) (ws : List ι) (m : Move ι) (p : Pool σ ι) : Prop :=
  p.Allowed ws m ∧ p.Admits (Calmly E) m

/-- No call of the operating system has failed. -/
def Pool.Clean (p : Pool σ ι) : Prop := p.cfg.Clean

/-- The pool keeps to the map, and its requests are known. -/
def Pool.Good (o : Opts) (direct : Bool) (m₀ : RefMap) (ws : List ι) (progs₀ : ι → List Op)
    (p : Pool σ ι) (subs : List Submission) : Prop :=
  (∃ q l, p.Inv ws q l) ∧ p.OnMap o direct m₀ ws progs₀ subs

theorem Pool.Good.step (hF : 2 ^ 64 ≤ E.fuel) (hne : ws ≠ [])
    (h : p.Good o direct m₀ ws progs₀ subs) (hadm : p.AllowedCalm E ws m)
    (hrun : p.step E m = some p') (hc : p'.Clean) :
    p'.Good o direct m₀ ws progs₀ (subs ++ p.allocs m) := by
  obtain ⟨⟨q, l, hinv⟩, hm⟩ := h
  exact ⟨hinv.step hne hadm.1 hrun,
    hm.step (rides_tracks hF o direct m₀) hadm.1 hadm.2 hrun hc⟩

/-- **A run traces the calls** that it makes. -/
theorem traced_of_sched (hF : 2 ^ 64 ≤ E.fuel) (hne : ws ≠ []) {ms : List (Move ι)}
    (hgood : p.Good o direct m₀ ws progs₀ subs) (ht : p.Traced o.shared m₀ ws subs order)
    (h : Along (Pool.step E) (Pool.AllowedCalm E ws) Pool.Clean ms p)
    (hrun : sched (Pool.step E) ms p = some p') :
    p'.Good o direct m₀ ws progs₀ (subs ++ asked E ms p) ∧
      ∃ order', p'.Traced o.shared m₀ ws (subs ++ asked E ms p) order' := by
  induction ms generalizing p subs order with
  | nil =>
    cases hrun
    rw [asked, List.append_nil]
    exact ⟨hgood, order, ht⟩
  | cons m ms ih =>
    obtain ⟨hadm, hnext⟩ := h
    rw [sched] at hrun
    cases h1 : p.step E m with
    | none =>
      rw [h1] at hrun
      cases hrun
    | some p₁ =>
      rw [h1] at hrun
      obtain ⟨hc, hrest⟩ := hnext p₁ h1
      have hgood₁ := hgood.step hF hne hadm h1 hc
      obtain ⟨⟨q, l, hinv⟩, hm⟩ := hgood
      obtain ⟨q', l', hinv'⟩ := hgood₁.1
      obtain ⟨order', ht'⟩ := ht.step hinv hinv' hm hadm.1 h1
      rw [asked, h1]
      dsimp only
      rw [← List.append_assoc]
      exact ih hgood₁ ht' hrest hrun

/-- A pool that starts on a store that is settled. -/
theorem Pool.good_start (ws : List ι) {s : Store σ} (hs : Settled s) (hc : clean s.os) {progs : ι → List Op}
    (hcrew : ∀ w ∈ ws, progs w = []) :
    (Pool.start ws (.start s progs)).Good s.o s.direct s.map ws progs [] ∧
      (Pool.start ws (Config.start s progs)).Traced s.o.shared s.map ws [] [] := by
  refine ⟨⟨⟨[], [], Pool.inv_start ws _⟩, ⟨rfl, fun r x hx => (by cases hx)⟩,
    fun w hw => ⟨hcrew w hw, rfl⟩, fun _ => [], progs, ?_, fun i _ => ⟨rfl, rfl⟩⟩, ?_⟩
  · exact ⟨_, tracks_start hs.sound hs.slack hc hs.idle
      (abs_map hs.sound.laid.records hs.slack) progs⟩
  · exact ⟨.nil, List.nodup_nil, fun r hr => (by cases hr), fun w _ r hr => (by cases hr),
      fun w _ r hr => (by cases hr), fun r out hr => (by cases hr), fun r r' out k' hr => (by cases hr)⟩

end Runs

/-! ## One after the other -/

/-- The calls of thread `i`. -/
def Order.own (order : Order ι) (i : ι) : List Op :=
  (order.filter fun x => x.1 = .inl i).map Prod.snd

/-- The answers to the calls of thread `i`, made among all of them. -/
def Order.answersTo (sh : Bool) (m₀ : RefMap) (order : Order ι) (i : ι) : List Out :=
  ((order.zip (order.answers sh m₀)).filter fun x => x.1.1 = .inl i).map Prod.snd

/-- **The calls of a pool are as if made one after the other**, in the order `order`, on the map `m₀`.
`subs` are the requests by their names, `progs` the calls that the threads make themselves, and `ws`
the workers. -/
structure Pool.Serial (sh : Bool) (m₀ : RefMap) (ws : List ι) (progs : ι → List Op)
    (subs : List Submission) (p : Pool σ ι) (order : Order ι) : Prop where
  /-- Every request makes its call at most once. -/
  once : order.requests.Nodup
  /-- A request that has run made the call it asked for, and was answered as it is there. -/
  ran : ∀ r out, .ran r out ∈ p.log → ∃ (k : ℕ) (a : Submission), subs[r]? = some a ∧
    order[k]? = some ((Sum.inr r : ι ⊕ ReqPtr), a.lsRw) ∧ (order.answers sh m₀)[k]? = some out
  /-- A request that was taken when another one had run comes after it. -/
  after : ∀ r r' out k', [.took r', .ran r out].Sublist p.log → order.At k' r' →
    ∃ k, k < k' ∧ order.At k r
  /-- A thread makes its own calls in its own order, and is answered as it is there. -/
  own : ∀ i ∉ ws, order.own i ++ (p.cfg.thread i).todo = progs i ∧
    (p.cfg.thread i).outs <+: order.answersTo sh m₀ i
  /-- When no transfer is under way, the store is the map that the calls make. -/
  map : (∀ i, (p.cfg.thread i).cur = none) → p.cfg.store.map = (refRun sh (order.map Prod.snd) m₀).2

section Serial

variable {o : Opts} {direct : Bool} {m₀ : RefMap} {ws : List ι} {progs : ι → List Op}
  {p p' : Pool σ ι} {subs : List Submission} {order : Order ι} {log : List (Logged ι)} {i : ι}

omit [Fintype ι] [DecidableEq ι] in
theorem Tagged.own_iff {l : Logged ι} {x : (ι ⊕ ReqPtr) × Op} (h : Tagged ws subs l x) (hi : i ∉ ws) :
    l.thread = i ↔ x.1 = .inl i := by
  have htag := h.2
  cases hx : x.1 with
  | inl j =>
    rw [hx] at htag
    rw [htag.1, Sum.inl.injEq]
  | inr r =>
    rw [hx] at htag
    exact iff_of_false (fun he => hi (he ▸ htag.1)) (by simp)

omit [Fintype ι] in
theorem callsOf_of_tagged (h : List.Forall₂ (Tagged ws subs) log order) (hi : i ∉ ws) :
    callsOf i log = order.own i := by
  induction h with
  | nil => rfl
  | @cons l x log order h1 h2 ih =>
    have hiff := h1.own_iff hi
    rw [callsOf, Order.own] at ih ⊢
    by_cases hx : x.1 = .inl i
    · rw [List.filter_cons_of_pos (by simpa using hiff.mpr hx),
        List.filter_cons_of_pos (by simpa using hx), List.map_cons, List.map_cons, ih, h1.1]
    · rw [List.filter_cons_of_neg (by simpa using fun he => hx (hiff.mp he)),
        List.filter_cons_of_neg (by simpa using hx), ih]

omit [Fintype ι] in
theorem outsOf_of_tagged {outs : List Out} (h : List.Forall₂ (Tagged ws subs) log order) (hi : i ∉ ws) :
    outsOf i log outs = ((order.zip outs).filter fun x => x.1.1 = .inl i).map Prod.snd := by
  induction h generalizing outs with
  | nil => rfl
  | @cons l x log order h1 h2 ih =>
    have hiff := h1.own_iff hi
    cases outs with
    | nil => rfl
    | cons out outs =>
      have hrest := @ih outs
      rw [outsOf] at hrest ⊢
      rw [List.zip_cons_cons, List.zip_cons_cons]
      by_cases hx : x.1 = .inl i
      · rw [List.filter_cons_of_pos (by simpa using hiff.mpr hx),
          List.filter_cons_of_pos (by simpa using hx), List.map_cons, List.map_cons, hrest]
      · rw [List.filter_cons_of_neg (by simpa using fun he => hx (hiff.mp he)),
          List.filter_cons_of_neg (by simpa using hx), hrest]

/-- What has been traced is serial. -/
theorem Pool.Traced.serial (h : p.Traced o.shared m₀ ws subs order)
    (hm : p.OnMap o direct m₀ ws progs subs) : p.Serial o.shared m₀ ws progs subs order := by
  obtain ⟨past, progs', ⟨g, hg⟩, hours⟩ := hm.kept
  refine ⟨h.once, fun r out hr => ?_, h.after, fun i hi => ⟨?_, ?_⟩, fun hcur => ?_⟩
  · obtain ⟨k, ⟨op, hk⟩, hout⟩ := h.ran r out hr
    have hlt := (List.getElem?_eq_some_iff.mp hk).1
    have htag := h.tagged.get (h.tagged.length_eq ▸ hlt) hlt
    have hx : order.get ⟨k, hlt⟩ = (.inr r, op) := (List.getElem?_eq_some_iff.mp hk).2
    rw [hx] at htag
    obtain ⟨-, -, a, ha, hop⟩ := htag
    exact ⟨k, a, ha, by rw [hk, ← hop], hout⟩
  · rw [← callsOf_of_tagged h.tagged hi, ← (hours i hi).2]
    exact hg.calls i
  · rw [Order.answersTo, ← outsOf_of_tagged h.tagged hi, Order.answers, ← calls_of_tagged h.tagged]
    refine ⟨((g i).map Pend.out).toList, ?_⟩
    have houts := hg.outs i
    simp only [Config.past, (hours i hi).1, List.nil_append] at houts
    exact houts
  · have hnone : ∀ j, g j = none := fun j => (hg.holding j).idle (hcur j)
    rw [← calls_of_tagged h.tagged]
    refine (abs_unique hg.sound.laid.records (hg.abs.mono fun k n hd => ?_)).symm
    obtain ⟨j, pd, hj, -⟩ := hd
    rw [hnone j] at hj
    cases hj

end Serial

/-! ## One worker -/

/-- A list that is closed, in order, under what comes before its members in another one is a prefix of
it. -/
theorem prefix_of_closed {α : Type} {l m : List α} (hm : m.Nodup) (hl : l.Nodup) (hlm : l ⊆ m)
    (h : ∀ a b, [a, b].Sublist m → b ∈ l → [a, b].Sublist l) : l <+: m := by
  induction m generalizing l with
  | nil => rw [List.subset_nil.mp hlm]
  | cons a m ih =>
    obtain ⟨ham, hm'⟩ := List.nodup_cons.mp hm
    cases l with
    | nil => exact List.nil_prefix
    | cons b l =>
      obtain ⟨hbl, hl'⟩ := List.nodup_cons.mp hl
      obtain rfl : b = a := by
        by_contra hne
        have hb : b ∈ m := (List.mem_cons.mp (hlm List.mem_cons_self)).resolve_left hne
        have hsub := h a b ((List.singleton_sublist.mpr hb).cons_cons a) List.mem_cons_self
        rcases List.cons_sublist_cons'.mp hsub with hsub | ⟨he, -⟩
        · exact hbl (hsub.subset (by simp))
        · exact hne he.symm
      rw [List.prefix_cons_inj]
      have hlm' : l ⊆ m := fun c hc =>
        (List.mem_cons.mp (hlm (List.mem_cons_of_mem _ hc))).resolve_left (by rintro rfl; exact hbl hc)
      refine ih hm' hl' hlm' fun c d hcd hd => ?_
      rcases List.cons_sublist_cons'.mp (h c d (hcd.cons _) (List.mem_cons_of_mem _ hd)) with
        hsub | ⟨rfl, -⟩
      · exact hsub
      · exact absurd (hcd.subset (by simp)) ham

/-- Every request that was taken before another one had run by then. -/
def OneByOne (log : List PoolEvent) : Prop :=
  ∀ r r', [.took r', .took r].Sublist log → ∃ out, [.took r', .ran r out].Sublist log

section One

variable {o : Opts} {direct : Bool} {m₀ : RefMap} {w : ι} {p p' : Pool σ ι} {subs : List Submission}
  {order : Order ι} {q l : List ReqPtr} {m : Move ι} {log log' : List PoolEvent} {r : ReqPtr}

omit [HonestOs σ] [Fintype ι] [DecidableEq ι]

theorem mem_took_iff : r ∈ took log ↔ .took r ∈ log := by
  rw [took, List.mem_filterMap]
  constructor
  · rintro ⟨e, he, h⟩
    cases e with
    | took r' =>
      cases h
      exact he
    | _ => cases h
  · exact fun h => ⟨_, h, rfl⟩

theorem mem_ran_iff {rc : Rc} : (r, rc) ∈ ran log ↔ ∃ out, .ran r out ∈ log ∧ out.rc = rc := by
  rw [ran, List.mem_filterMap]
  constructor
  · rintro ⟨e, he, h⟩
    cases e with
    | ran r' out =>
      cases h
      exact ⟨out, he, rfl⟩
    | _ => cases h
  · rintro ⟨out, h, rfl⟩
    exact ⟨_, h, rfl⟩

theorem sublist_of_took {r' : ReqPtr} (h : [r', r].Sublist (took log)) :
    [.took r', .took r].Sublist log := by
  induction log with
  | nil => cases h
  | cons e log ih =>
    cases e with
    | took a =>
      rcases List.cons_sublist_cons'.mp h with hs | ⟨rfl, hs⟩
      · exact (ih hs).cons _
      · exact (List.singleton_sublist.mpr (mem_took_iff.mp (List.singleton_sublist.mp hs))).cons_cons _
    | _ => exact (ih h).cons _

theorem Order.At.sublist {k k' : ℕ} {r' : ReqPtr} (h : order.At k r) (h' : order.At k' r') (hlt : k < k') :
    [r, r'].Sublist order.requests := by
  obtain ⟨op, hk⟩ := h
  obtain ⟨op', hk'⟩ := h'
  have h1 : [((Sum.inr r : ι ⊕ ReqPtr), op)].Sublist (order.take k') := by
    refine List.singleton_sublist.mpr (List.mem_of_getElem? (i := k) ?_)
    rw [List.getElem?_take_of_lt hlt, hk]
  have h2 : [((Sum.inr r' : ι ⊕ ReqPtr), op')].Sublist (order.drop k') := by
    refine List.singleton_sublist.mpr (List.mem_of_getElem? (i := 0) ?_)
    rw [List.getElem?_drop, Nat.add_zero, hk']
  have h3 := (h1.append h2).filterMap fun x => x.1.getRight?
  rw [List.take_append_drop] at h3
  exact h3

theorem OneByOne.cons {e : PoolEvent} (h : OneByOne log)
    (he : ∀ r', e = .took r' → ∀ r ∈ took log, ∃ out, .ran r out ∈ log) : OneByOne (e :: log) := by
  intro r r' hr
  rcases List.cons_sublist_cons'.mp hr with hr | ⟨h1, h2⟩
  · obtain ⟨out, ho⟩ := h r r' hr
    exact ⟨out, ho.cons _⟩
  · obtain ⟨out, ho⟩ := he r' h1.symm r (mem_took_iff.mpr (h2.subset (by simp)))
    refine ⟨out, ?_⟩
    rw [← h1]
    exact (List.singleton_sublist.mpr ho).cons_cons _

theorem OneByOne.unheard (h : OneByOne log) (hlog : Unheard log log') : OneByOne log' := by
  obtain ⟨es, rfl, hes⟩ := hlog
  induction es with
  | nil => exact h
  | cons e es ih =>
    refine (ih fun e he => hes e (List.mem_cons_of_mem _ he)).cons fun r' he => ?_
    have := hes e List.mem_cons_self
    rw [he] at this
    exact this.elim

variable [DecidableEq ι]

/-- One worker runs one request after the other. -/
theorem OneByOne.step [Os σ] (h : OneByOne p.log) (hinv : p.Inv [w] q l) (hadm : p.Allowed [w] m)
    (hrun : p.step E m = some p') : OneByOne p'.log := by
  cases Pool.step_does hrun with
  | other hcfg hwork hlog => exact h.unheard hlog
  | between hcfg hoff hoff' hwork hlog => exact h.unheard hlog
  | @take w' r x htop hx hcfg hwork hlog =>
    rw [hlog]
    refine h.cons fun r' _ r hr => ?_
    have hw' : w' = w := List.mem_singleton.mp hadm
    -- the worker is at the top, so no request is with it
    rcases hinv.served r hr with hb | ⟨v, hv⟩
    · obtain ⟨x, hx, rfl⟩ := List.mem_map.mp hb
      obtain ⟨out, ho, -⟩ := mem_ran_iff.mp (ran_of_booked hinv.lawful (show (x.1, x.2) ∈ _ from hx))
      exact ⟨out, ho⟩
    · by_cases hvw : v = w
      · rw [hvw, ← hw', htop] at hv
        cases hv
      · rw [hinv.crew v (by simpa using hvw)] at hv
        cases hv
  | run hw hnone hstep hp =>
    subst hp
    exact h
  | answer hw hout hcfg hwork hlog =>
    rw [hlog]
    exact h.cons fun r' he => (by cases he)
  | api hstep hp =>
    subst hp
    exact h

omit [DecidableEq ι] in
/-- With one worker the requests make their calls in the order in which they were accepted. -/
theorem Pool.Traced.requests_prefix {sh : Bool} {ws : List ι} (h : p.Traced sh m₀ ws subs order)
    (hinv : p.Inv ws q l) (hone : OneByOne p.log) : order.requests <+: (submitted p.log).reverse := by
  have hnd := nodup_submitted hinv.lawful
  rw [hinv.order] at hnd
  have htook := (List.nodup_append.mp hnd).2.1
  have hpre : order.requests <+: (took p.log).reverse := by
    refine prefix_of_closed (List.nodup_reverse.mpr htook) h.once
      (fun r hr => List.mem_reverse.mpr (h.taken r hr)) fun r r' hr hr' => ?_
    have hsub : [r', r].Sublist (took p.log) := by simpa using hr.reverse
    obtain ⟨out, ho⟩ := hone r r' (sublist_of_took hsub)
    obtain ⟨op', hop'⟩ := mem_requests.mp hr'
    obtain ⟨k', hk'⟩ := List.mem_iff_getElem?.mp hop'
    obtain ⟨k, hlt, hk⟩ := h.after r r' out k' ho ⟨op', hk'⟩
    exact hk.sublist ⟨op', hk'⟩ hlt
  refine hpre.trans ⟨q, ?_⟩
  rw [hinv.order, List.reverse_append, List.reverse_reverse]

end One

/-- The calls that the accepted requests ask for, in the order in which they were accepted. -/
def acceptedCalls (subs : List Submission) (log : List PoolEvent) : List Op :=
  (submitted log).reverse.filterMap fun r => subs[r]?.map Submission.lsRw

/-- What the caller promises, and a call that begins asks for an end below `2 ^ 63`. -/
def Pool.AllowedSmall (ws : List ι) (m : Move ι) (p : Pool σ ι) : Prop :=
  p.Allowed ws m ∧ p.Admits Config.Small m

section InOrder

variable {o : Opts} {direct : Bool} {m₀ : RefMap} {w : ι} {p : Pool σ ι} {subs : List Submission}
  {order : Order ι} {m : Move ι}

/-- A thread that makes no calls of its own is in none. -/
theorem Pool.Carried.idle {ws : List ι} {i : ι} (h : p.OnMap o direct m₀ ws (fun _ => []) subs)
    (hi : i ∉ ws) : (p.cfg.thread i).cur = none ∧ (p.cfg.thread i).todo = [] := by
  obtain ⟨past, progs, ⟨g, hg⟩, hours⟩ := h.kept
  have hcalls := hg.calls i
  rw [(hours i hi).2, List.append_eq_nil_iff] at hcalls
  refine ⟨?_, hcalls.2⟩
  rcases hg.holding i with ⟨-, hn⟩ | ⟨pd, io, hgi, -, -⟩
  · exact hn
  · obtain ⟨op, hop, -⟩ := hg.logged i pd hgi
    rw [(hours i hi).2] at hop
    cases hop

/-- Beside one worker no transfer is under way when a call begins. -/
theorem Pool.Good.calm (hF : 2 ^ 64 ≤ E.fuel) (h : p.Good o direct m₀ [w] (fun _ => []) subs)
    (hadm : p.AllowedSmall [w] m) : p.AllowedCalm E [w] m := by
  refine ⟨hadm.1, ?_⟩
  have hcalm : ∀ i, p.cfg.Small i → p.cfg.Calm E i := by
    intro i hs op hop
    obtain ⟨past, progs, ⟨g, hg⟩, -⟩ := h.2.kept
    refine ⟨fits_of_small hF hg.sound hs hop, fun j x pl io hj _ => ?_⟩
    obtain ⟨hcur, todo, ht⟩ := Config.next_eq_some.mp hop
    by_cases hjw : j ∈ [w]
    · by_cases hiw : i ∈ [w]
      · rw [List.mem_singleton.mp hjw, ← List.mem_singleton.mp hiw, hcur] at hj
        cases hj
      · rw [(h.2.idle hiw).2] at ht
        cases ht
    · rw [(h.2.idle hjw).1] at hj
      cases hj
  cases m with
  | work i => exact hcalm i hadm.2
  | api i => exact hcalm i hadm.2
  | _ => trivial

theorem Pool.calm_of_small (hF : 2 ^ 64 ≤ E.fuel) {ms : List (Move ι)}
    (hgood : p.Good o direct m₀ [w] (fun _ => []) subs)
    (h : Along (Pool.step E) (Pool.AllowedSmall [w]) Pool.Clean ms p) :
    Along (Pool.step E) (Pool.AllowedCalm E [w]) Pool.Clean ms p := by
  refine Along.mono_of_inv (fun p => ∃ subs, p.Good o direct m₀ [w] (fun _ => []) subs) ?_ ?_
    ⟨subs, hgood⟩ h
  · rintro m p p' ⟨subs, hp⟩ hadm hstep hc
    exact ⟨_, hp.step hF (List.cons_ne_nil w []) hadm hstep hc⟩
  · rintro m p ⟨subs, hp⟩ hadm
    exact hp.calm hF hadm

omit [HonestOs σ] [Fintype ι] [DecidableEq ι] in
/-- An order in which only requests make calls. -/
theorem requests_of_all (h : ∀ x ∈ order, ∃ r a, x.1 = .inr r ∧ subs[r]? = some a ∧ x.2 = a.lsRw) :
    (order.requests.filterMap fun r => subs[r]?.map Submission.lsRw) = order.map Prod.snd ∧
      ∀ k r, order.At k r → order.requests[k]? = some r := by
  induction order with
  | nil => exact ⟨rfl, fun k r hk => by cases hk.lt⟩
  | cons x order ih =>
    obtain ⟨r, a, h1, h2, h3⟩ := h x List.mem_cons_self
    obtain ⟨ih1, ih2⟩ := ih fun y hy => h y (List.mem_cons_of_mem _ hy)
    have hreq : Order.requests (x :: order) = r :: Order.requests order :=
      List.filterMap_cons_some (show x.1.getRight? = some r by rw [h1]; rfl)
    refine ⟨?_, fun k r' hk => ?_⟩
    · rw [hreq, List.filterMap_cons, h2, Option.map_some, List.map_cons, h3]
      exact congrArg _ ih1
    · rw [hreq]
      cases k with
      | zero =>
        obtain ⟨op, hop⟩ := hk
        rw [List.getElem?_cons_zero, Option.some.injEq] at hop
        rw [hop, Sum.inr.injEq] at h1
        rw [List.getElem?_cons_zero, h1]
      | succ k =>
        rw [List.getElem?_cons_succ]
        exact ih2 k r' (by simpa [Order.At] using hk)

/-- **With one worker, asynchronous calls are answered in the order in which they were accepted**, as
the plain calls would be, whatever they overlap. -/
theorem pool_in_order (hF : 2 ^ 64 ≤ E.fuel) {s : Store σ} (hs : Settled s) (hc : clean s.os)
    {ms : List (Move ι)}
    (h : Along (Pool.step E) (Pool.AllowedSmall [w]) Pool.Clean ms (.start [w] (.start s fun _ => [])))
    (hrun : sched (Pool.step E) ms (.start [w] (.start s fun _ => [])) = some p) (k : ℕ) (r : ReqPtr)
    (out : Out) (hr : (submitted p.log).reverse[k]? = some r) (hran : .ran r out ∈ p.log) :
    (refRun s.o.shared (acceptedCalls (asked E ms (.start [w] (.start s fun _ => []))) p.log)
      s.map).1[k]? = some out := by
  have hne : [w] ≠ [] := List.cons_ne_nil w []
  obtain ⟨hgood₀, htraced⟩ := Pool.good_start [w] hs hc fun _ _ => rfl
  have hcalm := Pool.calm_of_small hF hgood₀ h
  obtain ⟨⟨⟨q, l, hinv⟩, hm⟩, order, ht⟩ := traced_of_sched hF hne hgood₀ htraced hcalm hrun
  rw [List.nil_append] at hm ht
  generalize asked E ms (.start [w] (.start s fun _ => [])) = subs at hm ht ⊢
  have hser := ht.serial hm
  have hone : OneByOne p.log := by
    refine (inv_of_sched (fun p => OneByOne p.log ∧ ∃ q l, p.Inv [w] q l) ?_
      ⟨fun r r' hr => (by cases hr), [], [], Pool.inv_start [w] _⟩ h hrun).1
    rintro m p p' ⟨h1, q, l, h2⟩ hadm hstep
    exact ⟨h1.step h2 hadm.1 hstep, h2.step hne hadm.1 hstep⟩
  have hall : ∀ x ∈ order, ∃ r a, x.1 = .inr r ∧ subs[r]? = some a ∧ x.2 = a.lsRw := by
    intro x hx
    obtain ⟨n, hn, hget⟩ := List.mem_iff_getElem.mp hx
    have htag := ht.tagged.get (ht.tagged.length_eq ▸ hn) hn
    rw [show order.get ⟨n, hn⟩ = x from hget] at htag
    cases hxt : x.1 with
    | inl i =>
      have hi := htag.2
      rw [hxt] at hi
      have hown := (hser.own i hi.2).1
      rw [List.append_eq_nil_iff] at hown
      have hmem : x ∈ order.filter fun x => x.1 = .inl i := List.mem_filter.mpr ⟨hx, by simpa using hxt⟩
      rw [List.map_eq_nil_iff.mp hown.1] at hmem
      cases hmem
    | inr r =>
      have hr := htag.2
      rw [hxt] at hr
      obtain ⟨-, a, h1, h2⟩ := hr
      exact ⟨r, a, rfl, h1, h2⟩
  obtain ⟨h1, h2⟩ := requests_of_all hall
  have hpre := ht.requests_prefix hinv hone
  obtain ⟨k', hk', hout⟩ := ht.ran r out hran
  have hreq := h2 k' r hk'
  have hkk : k' = k := by
    have hsub : (submitted p.log).reverse[k']? = some r := by
      obtain ⟨hlt, hget⟩ := List.getElem?_eq_some_iff.mp hreq
      rw [List.prefix_iff_getElem?.mp hpre k' hlt, hget]
    have hnd := List.nodup_reverse.mpr (nodup_submitted hinv.lawful)
    exact (List.getElem?_inj (List.getElem?_eq_some_iff.mp hsub).1 hnd).mp (hsub.trans hr.symm)
  subst hkk
  have hops : order.map Prod.snd <+: acceptedCalls subs p.log := h1 ▸ hpre.filterMap _
  have hans : order.answers s.o.shared s.map <+: _ := refRun_prefix hops
  obtain ⟨hlt, hget⟩ := List.getElem?_eq_some_iff.mp hout
  rw [List.prefix_iff_getElem?.mp hans k' hlt, hget]

end InOrder

/-! ## On a disk -/

instance (p : Pool σ ι) (m : Move ι) : Decidable (p.Admits Config.Small m) :=
  match m with
  | .work i | .api i => inferInstanceAs (Decidable (p.cfg.Small i))
  | .submit _ _ | .wait _ _ | .test _ | .client _ | .stop => isTrue trivial

instance (ws : List ι) (m : Move ι) (p : Pool σ ι) : Decidable (p.AllowedSmall ws m) :=
  inferInstanceAs (Decidable (p.Allowed ws m ∧ p.Admits Config.Small m))

instance (p : Pool Disk ι) : Decidable p.Clean := inferInstanceAs (Decidable p.cfg.Clean)

/-- A write of one byte to the record "a". -/
def writeA : Submission := ⟨.write, keyA, 0, 1, some 0, [7]⟩

/-- The user posts a write and a read, and the worker runs them. -/
def twoRequests : List (Move (Fin 2)) :=
  [.submit (Fin.last 1) writeA, .client (Fin.last 1)] ++ askA ++ List.replicate 16 workFirst

/-- A worker, thread 0, and a user, thread 1, on a new store. -/
def newPool : Pool Disk (Fin 2) := .start twoThreads.thr (.start (Disk.newStore {}) fun _ => [])

theorem settled_newStore : Settled (Disk.newStore {}) :=
  settled_opened (E := Env.ample) rfl (Disk.lsOpen_blank _ rfl (by decide))

theorem twoRequests_run : (∃ p, sched (Pool.step Env.ample) twoRequests newPool = some p ∧
      ran p.log = [(1, .ok), (0, .ok)]) ∧
    Along (Pool.step Env.ample) (Pool.AllowedSmall [0]) Pool.Clean twoRequests newPool := by
  have hrun : (sched (Pool.step Env.ample) twoRequests newPool).map (fun p => ran p.log) =
      some [(1, .ok), (0, .ok)] := by decide +kernel
  obtain ⟨p, h1, h2⟩ := Option.map_eq_some_iff.mp hrun
  exact ⟨⟨p, h1, h2⟩, by decide +kernel⟩

theorem pool_in_order_two : ∃ p, sched (Pool.step Env.ample) twoRequests newPool = some p ∧
    ran p.log = [(1, .ok), (0, .ok)] ∧ ∀ (k : ℕ) (r : ReqPtr) (out : Out), (submitted p.log).reverse[k]? = some r →
      .ran r out ∈ p.log → (refRun false (acceptedCalls (asked Env.ample twoRequests newPool) p.log)
        (Disk.newStore {}).map).1[k]? = some out := by
  obtain ⟨⟨p, hrun, hran⟩, hsmall⟩ := twoRequests_run
  exact ⟨p, hrun, hran, pool_in_order (Nat.le_refl _) settled_newStore rfl hsmall hrun⟩

end Libspill
