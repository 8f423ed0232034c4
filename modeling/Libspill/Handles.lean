import Libspill.PoolRun

set_option autoImplicit false

/-!
# The objects that own requests

`libspill.hpp`: a `request` owns the request it points to, and waits for it when it is told to, when
it is assigned to, and when it is destroyed. So a program that uses the pool through these objects
waits for every request once, as the pool asks of its callers.

* `Handles`, `Handles.step`: the objects by their names, next to the pool. A step of the pool is a
  section, and so the objects change hands while others wait.
* `HandleMove.Proper`: what is left to the program.
* `Handles.Owned`: the invariant; `Handles.Owned.step`: one step keeps it, and is allowed.
* **`handles_wait_once`**: every run.
-/

namespace Libspill

variable {σ ι κ : Type}

/-- Where a thread is that uses `request` objects. -/
inductive Doing (κ : Type) where
  | idle
  /-- In `awrite` or `aread`, whose result is to be the object `x`. -/
  | posting (x : κ)
  /-- In `wait`, or in the destructor. -/
  | waiting
  /-- In `operator=`, in `x.drain()`, before `x` takes the request of `y`. -/
  | assigning (x y : κ)
deriving DecidableEq

/-- The object that the thread is about to set. -/
def Doing.target? : Doing κ → Option κ
  | .idle | .waiting => none
  | .posting x | .assigning x _ => some x

/-- The `request` objects of a process: `req x` is `x.req_`. -/
structure Handles (σ ι κ : Type) where
  pool : Pool σ ι
  req : κ → Option ReqPtr := fun _ => none
  doing : ι → Doing κ := fun _ => .idle

/-- What a program does with `request` objects. -/
inductive HandleMove (ι κ : Type) where
  /-- `request x = s.awrite(…)`, or `aread`, by thread `i`, begins. -/
  | post (i : ι) (x : κ) (a : Submission)
  /-- `x.wait()`, or the destructor of `x`. -/
  | wait (i : ι) (x : κ)
  /-- `x.done()`. -/
  | done (x : κ)
  /-- `request x(std::move(y))`. -/
  | move (x y : κ)
  /-- `x = std::move(y)`. -/
  | assign (i : ι) (x y : κ)
  /-- Thread `i` goes on with the call it is in. -/
  | go (i : ι)
  | work (w : ι)
  | api (i : ι)
  /-- `ls_close` goes on. -/
  | stop

variable [DecidableEq ι] [DecidableEq κ]

/-- `x.req_ = std::exchange(y.req_, nullptr)`. -/
def Handles.exchange (h : Handles σ ι κ) (x y : κ) : κ → Option ReqPtr :=
  Function.update (Function.update h.req y none) x (h.req y)

/-- `ls_wait(std::exchange(req_, nullptr))` begins. -/
def Handles.lsWait (h : Handles σ ι κ) (i : ι) (x : κ) (r : ReqPtr) (d : Doing κ) : Handles σ ι κ where
  pool := (h.pool.note (.waits r)).setUser i (.waiting r)
  req := Function.update h.req x none
  doing := Function.update h.doing i d

/-- What becomes of the objects when the call of thread `i` returns. -/
def Handles.returned (h : Handles σ ι κ) (i : ι) : κ → Option ReqPtr :=
  match h.doing i, h.pool.user i with
  | .posting x, .submitting r => if h.pool.stop then h.req else Function.update h.req x (some r)
  | .assigning x y, _ => h.exchange x y
  | _, _ => h.req

/-- One step of the program. -/
def Handles.step [Os σ] (E : Env) (m : HandleMove ι κ) (h : Handles σ ι κ) : Option (Handles σ ι κ) :=
  match m with
  | .post i x a =>
    let pool := h.pool.submit i a
    some { h with
      pool
      doing := if pool.user i = .idle then h.doing else Function.update h.doing i (.posting x) }
  | .wait i x =>
    match h.req x with
    | none => some h
    | some r => some (h.lsWait i x r .waiting)
  | .done x =>
    match h.req x with
    | none => some h
    | some r => (h.pool.step E (.test r)).map fun pool => { h with pool }
  | .move x y => some { h with req := h.exchange x y }
  | .assign i x y =>
    if x = y then some h
    else
      match h.req x with
      | none => some { h with req := h.exchange x y }
      | some r => some (h.lsWait i x r (.assigning x y))
  | .go i =>
    match h.pool.client i with
    | none => none
    | some pool =>
      if pool.user i = .idle then
        some { pool, req := h.returned i, doing := Function.update h.doing i .idle }
      else some { h with pool }
  | .work w => (h.pool.step E (.work w)).map fun pool => { h with pool }
  | .api i => (h.pool.step E (.api i)).map fun pool => { h with pool }
  | .stop => (h.pool.step E .stop).map fun pool => { h with pool }

/-- What is left to the program: a thread makes one call at a time, an object is made once and is not
assigned to by two threads at a time, and a store is closed when its requests are gone. -/
def HandleMove.Proper (ws : List ι) : HandleMove ι κ → Handles σ ι κ → Prop
  | .post i x _, h => h.doing i = .idle ∧ h.req x = none ∧ ∀ j, (h.doing j).target? ≠ some x
  | .wait i _, h => h.doing i = .idle
  | .done _, _ => True
  | .move x y, h => x ≠ y ∧ h.req x = none ∧ ∀ j, (h.doing j).target? ≠ some x
  | .assign i x _, h => h.doing i = .idle ∧ ∀ j, (h.doing j).target? ≠ some x
  | .go _, _ => True
  | .work w, _ => w ∈ ws
  | .api i, _ => i ∉ ws
  | .stop, h => (∀ x, h.req x = none) ∧ ∀ i, (h.pool.user i).Quiet

/-- The thread is in `ls_wait` for the request. -/
def Client.waits? : Client → Option ReqPtr
  | .waiting r | .reaping r _ => some r
  | .idle | .submitting _ => none

/-- A thread is in the call of the pool that its use of the objects has led to. -/
def Doing.Fits : Doing κ → Client → Prop
  | .idle, c => c = .idle
  | .posting _, c => ∃ r, c = .submitting r
  | .waiting, c | .assigning _ _, c => ∃ r, c.waits? = some r

omit [DecidableEq ι] [DecidableEq κ] in
theorem Doing.fits_submitting {d : Doing κ} {r : ReqPtr} (h : d.Fits (.submitting r)) :
    ∃ x, d = .posting x := by
  cases d with
  | idle => cases h
  | posting x => exact ⟨x, rfl⟩
  | waiting =>
    obtain ⟨r', hr'⟩ := h
    cases hr'
  | assigning x y =>
    obtain ⟨r', hr'⟩ := h
    cases hr'

omit [DecidableEq ι] [DecidableEq κ] in
theorem Doing.fits_waits {d : Doing κ} {c : Client} {r : ReqPtr} (h : d.Fits c) (hc : c.waits? = some r) :
    d = .waiting ∨ ∃ x y, d = .assigning x y := by
  cases d with
  | idle =>
    cases h
    cases hc
  | posting x =>
    obtain ⟨r', rfl⟩ := h
    cases hc
  | waiting => exact Or.inl rfl
  | assigning x y => exact Or.inr ⟨x, y, rfl⟩

/-- **Every accepted request that nobody has waited for yet is owned by one object.** -/
structure Handles.Owned (ws : List ι) (h : Handles σ ι κ) : Prop where
  inv : ∃ q l, h.pool.Inv ws q l
  held : ∀ x r, h.req x = some r → r ∈ submitted h.pool.log ∧ r ∉ waits h.pool.log
  one : ∀ x y r, h.req x = some r → h.req y = some r → x = y
  kept : ∀ r, r ∈ submitted h.pool.log → r ∈ waits h.pool.log ∨ ∃ x, h.req x = some r
  gone : ∀ r, r ∈ waits h.pool.log → r ∈ released h.pool.log ∨ ∃ i, (h.pool.user i).waits? = some r
  fits : ∀ i, (h.doing i).Fits (h.pool.user i)
  empty : ∀ i x, (h.doing i).target? = some x → h.req x = none
  apart : ∀ i j x, (h.doing i).target? = some x → (h.doing j).target? = some x → i = j
  closed : h.pool.stopping ≠ .idle → ∀ x, h.req x = none

/-- A step of the pool that is about no call of a program on its requests. -/
structure Pool.Beside (p p' : Pool σ ι) : Prop where
  submitted : submitted p'.log = submitted p.log
  waits : waits p'.log = waits p.log
  released : released p.log ⊆ released p'.log
  user : p'.user = p.user

section Beside

variable {p p' : Pool σ ι} {ws : List ι} {h : Handles σ ι κ}

omit [DecidableEq ι] [DecidableEq κ]

theorem Handles.Owned.beside (ho : h.Owned ws) (hb : h.pool.Beside p') (hinv : ∃ q l, p'.Inv ws q l)
    (hclosed : p'.stopping ≠ .idle → ∀ x, h.req x = none) :
    ({ h with pool := p' } : Handles σ ι κ).Owned ws where
  inv := hinv
  held x r hx := by
    rw [show submitted p'.log = _ from hb.submitted, show waits p'.log = _ from hb.waits]
    exact ho.held x r hx
  one := ho.one
  kept r hr := by
    rw [show waits p'.log = _ from hb.waits]
    exact ho.kept r (hb.submitted ▸ hr)
  gone r hr := by
    rw [show p'.user = _ from hb.user]
    exact (ho.gone r (hb.waits ▸ hr)).imp_left fun hrel => hb.released hrel
  fits i := by
    rw [show p'.user = _ from hb.user]
    exact ho.fits i
  empty := ho.empty
  apart := ho.apart
  closed := hclosed

end Beside

section Log

variable {log : List PoolEvent} {r : ReqPtr}

theorem submitted_of_waits (hl : Lawful log) (hr : r ∈ waits log) : r ∈ submitted log := by
  induction log with
  | nil => cases hr
  | cons e log ih =>
    cases e with
    | accepted r' => exact List.mem_cons_of_mem _ (ih hl.2 hr)
    | waits r' =>
      rcases List.mem_cons.mp hr with rfl | hr
      · exact hl.1.1
      · exact ih hl.2 hr
    | _ => exact ih hl.2 hr

/-- A request is waited for once. -/
theorem nodup_waits (hl : Lawful log) : (waits log).Nodup := by
  induction log with
  | nil => exact List.nodup_nil
  | cons e log ih =>
    cases e with
    | waits r => exact List.nodup_cons.mpr ⟨hl.1.2, ih hl.2⟩
    | _ => exact ih hl.2

end Log

section Steps

variable [Os σ] {E : Env} {h h' : Handles σ ι κ} {p p' : Pool σ ι} {ws : List ι} {q l : List ReqPtr}
  {i : ι} {x y : κ} {r : ReqPtr}

omit [DecidableEq ι] [DecidableEq κ] [Os σ] in
theorem Pool.Beside.refl (p : Pool σ ι) : p.Beside p := ⟨rfl, rfl, List.Subset.refl _, rfl⟩

omit [DecidableEq ι] [DecidableEq κ] [Os σ] in
theorem Pool.releaseAll_beside {fuel : ℕ} (hrun : p.releaseAll fuel = some p') : p.Beside p' := by
  induction fuel generalizing p with
  | zero => cases hrun
  | succ fuel ih =>
    rw [Pool.releaseAll] at hrun
    split at hrun
    · cases hrun
      exact .refl _
    · split at hrun
      · cases hrun
      · obtain ⟨h1, h2, h3, h4⟩ := ih hrun
        exact ⟨h1, h2, fun r hr => h3 (List.mem_cons_of_mem _ hr), h4⟩

omit [DecidableEq κ] in
theorem Pool.work_beside {w : ι} (hrun : p.work E w = some p') :
    p.Beside p' ∧ p'.stopping = p.stopping := by
  rw [Pool.work] at hrun
  split at hrun
  · split at hrun
    · split_ifs at hrun
      cases hrun
      exact ⟨⟨rfl, rfl, List.Subset.refl _, rfl⟩, rfl⟩
    · split at hrun
      · cases hrun
      · cases hrun
        exact ⟨⟨rfl, rfl, List.Subset.refl _, rfl⟩, rfl⟩
  · split at hrun
    · cases hrun
      exact ⟨⟨rfl, rfl, List.Subset.refl _, rfl⟩, rfl⟩
    · split at hrun
      · cases hrun
      · cases hrun
        exact ⟨⟨rfl, rfl, List.Subset.refl _, rfl⟩, rfl⟩
  · split at hrun
    · cases hrun
    · cases hrun
      exact ⟨⟨rfl, rfl, List.Subset.refl _, rfl⟩, rfl⟩
  · cases hrun
    exact ⟨⟨rfl, rfl, List.Subset.refl _, rfl⟩, rfl⟩
  · cases hrun

omit [DecidableEq ι] [DecidableEq κ] [Os σ] in
theorem Pool.poolStop_beside (hrun : p.poolStop E = some p') : p.Beside p' := by
  rw [Pool.poolStop] at hrun
  split at hrun
  · cases hrun
    exact ⟨rfl, rfl, List.Subset.refl _, rfl⟩
  · split at hrun
    · split_ifs at hrun
      cases hrun
      exact ⟨rfl, rfl, List.Subset.refl _, rfl⟩
    · cases hrun
      exact ⟨rfl, rfl, List.Subset.refl _, rfl⟩
  · split at hrun
    · cases hrun
    · cases hrun
      obtain ⟨h1, h2, h3, h4⟩ := Pool.releaseAll_beside (by assumption)
      exact ⟨h1, h2, h3, h4⟩
  · cases hrun

section Update

variable {α β : Type} [DecidableEq α] {f : α → Option β} {d : Doing κ} {c : Client} {j : ι}

omit [DecidableEq ι] [DecidableEq κ] [Os σ]

theorem update_eq_some {a b : α} {v : Option β} {w : β} (hw : Function.update f a v b = some w) :
    b = a ∧ v = some w ∨ b ≠ a ∧ f b = some w := by
  by_cases hb : b = a
  · rw [hb, Function.update_self] at hw
    exact Or.inl ⟨hb, hw⟩
  · rw [Function.update_of_ne hb] at hw
    exact Or.inr ⟨hb, hw⟩

theorem target_update [DecidableEq ι] {g : ι → Doing κ}
    (hx : (Function.update g i d j).target? = some x) :
    j = i ∧ d.target? = some x ∨ j ≠ i ∧ (g j).target? = some x := by
  by_cases hji : j = i
  · rw [hji, Function.update_self] at hx
    exact Or.inl ⟨hji, hx⟩
  · rw [Function.update_of_ne hji] at hx
    exact Or.inr ⟨hji, hx⟩

/-- The calls of the other threads go on. -/
theorem waits_update [DecidableEq ι] {u : ι → Client} (hi : (u i).waits? = none)
    (hr : ∃ j, (u j).waits? = some r) : ∃ j, (Function.update u i c j).waits? = some r := by
  obtain ⟨j, hj⟩ := hr
  have hji : j ≠ i := by
    rintro rfl
    rw [hi] at hj
    cases hj
  exact ⟨j, by rwa [Function.update_of_ne hji]⟩

theorem Handles.Owned.fits_update [DecidableEq ι] (ho : h.Owned ws) (hd : d.Fits c) (j : ι) :
    (Function.update h.doing i d j).Fits (Function.update h.pool.user i c j) := by
  by_cases hji : j = i
  · rw [hji, Function.update_self, Function.update_self]
    exact hd
  · rw [Function.update_of_ne hji, Function.update_of_ne hji]
    exact ho.fits j

end Update

omit [DecidableEq ι] [Os σ] in
/-- What an object owns after an exchange it has owned, or the other object has. -/
theorem Handles.exchange_eq_some {z : κ} (hz : h.exchange x y z = some r) :
    ∃ z', h.req z' = some r ∧ (z' = z ∧ z ≠ x ∧ z ≠ y ∨ z' = y ∧ z = x) := by
  rcases update_eq_some hz with ⟨hzx, hy⟩ | ⟨hzx, hz⟩
  · exact ⟨y, hy, Or.inr ⟨rfl, hzx⟩⟩
  · rcases update_eq_some hz with ⟨-, hnone⟩ | ⟨hzy, hz⟩
    · cases hnone
    · exact ⟨z, hz, Or.inl ⟨rfl, hzx, hzy⟩⟩

omit [DecidableEq ι] [Os σ] in
theorem Handles.exists_exchange (hx : h.req x = none) {z : κ} (hz : h.req z = some r) :
    ∃ z', h.exchange x y z' = some r := by
  by_cases hzy : z = y
  · subst hzy
    exact ⟨x, by rw [Handles.exchange, Function.update_self, hz]⟩
  · have hzx : z ≠ x := by
      rintro rfl
      rw [hx] at hz
      cases hz
    exact ⟨z, by rw [Handles.exchange, Function.update_of_ne hzx, Function.update_of_ne hzy, hz]⟩

omit [DecidableEq ι] [Os σ] in
/-- A request changes hands. -/
theorem Handles.Owned.exchange (ho : h.Owned ws) (hx : h.req x = none)
    (ht : ∀ j, (h.doing j).target? ≠ some x) :
    ({ h with req := h.exchange x y } : Handles σ ι κ).Owned ws where
  inv := ho.inv
  held z r hz := by
    obtain ⟨z', h1, -⟩ := Handles.exchange_eq_some hz
    exact ho.held z' r h1
  one z w r hz hw := by
    obtain ⟨z', h1, h2⟩ := Handles.exchange_eq_some hz
    obtain ⟨w', h3, h4⟩ := Handles.exchange_eq_some hw
    have he := ho.one z' w' r h1 h3
    rcases h2 with ⟨rfl, -, hzy⟩ | ⟨rfl, rfl⟩
    · rcases h4 with ⟨rfl, -, -⟩ | ⟨rfl, rfl⟩
      · exact he
      · exact absurd he hzy
    · rcases h4 with ⟨rfl, -, hwy⟩ | ⟨rfl, rfl⟩
      · exact absurd he.symm hwy
      · rfl
  kept r hr := by
    rcases ho.kept r hr with hw | ⟨z, hz⟩
    · exact Or.inl hw
    · exact Or.inr (Handles.exists_exchange hx hz)
  gone := ho.gone
  fits := ho.fits
  empty i z hz := by
    have hzx : z ≠ x := by
      rintro rfl
      exact ht i hz
    show h.exchange x y z = none
    rw [Handles.exchange, Function.update_of_ne hzx]
    by_cases hzy : z = y
    · rw [hzy, Function.update_self]
    · rw [Function.update_of_ne hzy]
      exact ho.empty i z hz
  apart := ho.apart
  closed hs z := by
    cases hz : h.exchange x y z with
    | none => exact hz
    | some r =>
      obtain ⟨z', h1, -⟩ := Handles.exchange_eq_some hz
      rw [ho.closed hs z'] at h1
      cases h1

omit [DecidableEq ι] [DecidableEq κ] [Os σ] in
/-- A thread that is in no call is in none of the pool. -/
theorem Handles.Owned.user_idle (ho : h.Owned ws) (hi : h.doing i = .idle) : h.pool.user i = .idle := by
  have := ho.fits i
  rwa [hi] at this

omit [Os σ] in
/-- `ls_wait` begins. -/
theorem Handles.Owned.lsWait (ho : h.Owned ws) (hi : h.doing i = .idle) (hx : h.req x = some r)
    {d : Doing κ} (hd : d.Fits (.waiting r))
    (ht : ∀ z, d.target? = some z → z = x ∧ ∀ j, (h.doing j).target? ≠ some x) :
    h.pool.Allowed ws (.wait i r) ∧ (h.lsWait i x r d).Owned ws := by
  have hidle := ho.user_idle hi
  have hnone : (h.pool.user i).waits? = none := by
    rw [hidle]
    rfl
  obtain ⟨hsub, hnw⟩ := ho.held x r hx
  have hstop : h.pool.stopping = .idle := by
    by_contra hs
    rw [ho.closed hs x] at hx
    cases hx
  obtain ⟨q, l, hinv⟩ := ho.inv
  have hold : ∀ z r', Function.update h.req x none z = some r' → z ≠ x ∧ h.req z = some r' := by
    intro z r' hz
    rcases update_eq_some hz with ⟨-, hnone⟩ | hz'
    · cases hnone
    · exact hz'
  refine ⟨⟨hidle, hsub, hnw, hstop⟩, ⟨q, l, hinv.wait hsub hnw hstop⟩, fun z r' hz => ?_,
    fun z w r' hz hw => ?_, fun r' hr' => ?_, fun r' hr' => ?_, fun j => ?_, fun j z hz => ?_,
    fun j k z hj hk => ?_, fun hs => absurd hstop hs⟩
  · obtain ⟨hzx, hz'⟩ := hold z r' hz
    obtain ⟨h1, h2⟩ := ho.held z r' hz'
    refine ⟨h1, fun hmem => ?_⟩
    rcases List.mem_cons.mp hmem with he | hmem
    · exact hzx (ho.one z x r (he ▸ hz') hx)
    · exact h2 hmem
  · exact ho.one z w r' (hold z r' hz).2 (hold w r' hw).2
  · rcases ho.kept r' hr' with hw | ⟨z, hz⟩
    · exact Or.inl (List.mem_cons_of_mem _ hw)
    · by_cases hzx : z = x
      · rw [hzx, hx] at hz
        cases hz
        exact Or.inl List.mem_cons_self
      · exact Or.inr ⟨z, by
          show Function.update h.req x none z = some r'
          rw [Function.update_of_ne hzx]
          exact hz⟩
  · rcases List.mem_cons.mp hr' with rfl | hr'
    · exact Or.inr ⟨i, by
        show (Function.update h.pool.user i _ i).waits? = _
        rw [Function.update_self]
        rfl⟩
    · exact (ho.gone r' hr').imp_right (waits_update hnone)
  · exact ho.fits_update hd j
  · show Function.update h.req x none z = none
    by_cases hzx : z = x
    · rw [hzx, Function.update_self]
    · rw [Function.update_of_ne hzx]
      rcases target_update hz with ⟨-, hd'⟩ | ⟨-, hz'⟩
      · exact absurd (ht z hd').1 hzx
      · exact ho.empty j z hz'
  · rcases target_update hj with ⟨hji, hd'⟩ | ⟨-, h1⟩
    · obtain ⟨rfl, hno⟩ := ht z hd'
      rcases target_update hk with ⟨hki, -⟩ | ⟨-, h2⟩
      · exact hji.trans hki.symm
      · exact absurd h2 (hno k)
    · rcases target_update hk with ⟨-, hd'⟩ | ⟨-, h2⟩
      · obtain ⟨rfl, hno⟩ := ht z hd'
        exact absurd h1 (hno j)
      · exact ho.apart j k z h1 h2

omit [DecidableEq κ] [Os σ] in
theorem Pool.submit_beside (p : Pool σ ι) (i : ι) (a : Submission) :
    submitted (p.submit i a).log = submitted p.log ∧ waits (p.submit i a).log = waits p.log ∧
      released (p.submit i a).log = released p.log ∧ (p.submit i a).stopping = p.stopping ∧
        ((p.submit i a).user = p.user ∨
          ∃ r, (p.submit i a).user = Function.update p.user i (.submitting r)) := by
  rw [Pool.submit]
  split
  · exact ⟨rfl, rfl, rfl, rfl, Or.inl rfl⟩
  · split_ifs
    · exact ⟨rfl, rfl, rfl, rfl, Or.inl rfl⟩
    · exact ⟨rfl, rfl, rfl, rfl, Or.inr ⟨_, rfl⟩⟩

omit [Os σ] [DecidableEq κ] in
/-- `awrite` or `aread` begins. -/
theorem Handles.Owned.post (ho : h.Owned ws) (hi : h.doing i = .idle) (hx : h.req x = none)
    (ht : ∀ j, (h.doing j).target? ≠ some x) (a : Submission) :
    ({ h with
      pool := h.pool.submit i a
      doing := if (h.pool.submit i a).user i = .idle then h.doing
        else Function.update h.doing i (.posting x) } : Handles σ ι κ).Owned ws := by
  have hidle := ho.user_idle hi
  have hnone : (h.pool.user i).waits? = none := by
    rw [hidle]
    rfl
  obtain ⟨q, l, hinv⟩ := ho.inv
  have hinv' := hinv.submit (i := i) a
  obtain ⟨h1, h2, h3, h4, h5⟩ := h.pool.submit_beside i a
  rcases h5 with h5 | ⟨r, h5⟩
  · rw [if_pos (by rw [h5]; exact hidle)]
    exact ho.beside ⟨h1, h2, by rw [h3]; exact List.Subset.refl _, h5⟩ ⟨q, l, hinv'⟩
      fun hs => ho.closed (by rwa [h4] at hs)
  · have hne : (h.pool.submit i a).user i ≠ .idle := by
      rw [h5, Function.update_self]
      exact Client.noConfusion
    rw [if_neg hne]
    have hcase : ∀ j z, (Function.update h.doing i (.posting x) j).target? = some z →
        j = i ∧ z = x ∨ (h.doing j).target? = some z := by
      intro j z hj
      rcases target_update hj with ⟨hji, hd⟩ | ⟨-, hj'⟩
      · exact Or.inl ⟨hji, (Option.some.inj hd).symm⟩
      · exact Or.inr hj'
    refine ⟨⟨q, l, hinv'⟩, fun z r' hz => ?_, ho.one, fun r' hr' => ?_, fun r' hr' => ?_, fun j => ?_,
      fun j z hz => ?_, fun j k z hj hk => ?_, fun hs => ho.closed (by rwa [h4] at hs)⟩
    · rw [show submitted (h.pool.submit i a).log = _ from h1, show waits (h.pool.submit i a).log = _ from h2]
      exact ho.held z r' hz
    · rw [show waits (h.pool.submit i a).log = _ from h2]
      exact ho.kept r' (h1 ▸ hr')
    · rw [show released (h.pool.submit i a).log = _ from h3, show (h.pool.submit i a).user = _ from h5]
      exact (ho.gone r' (h2 ▸ hr')).imp_right (waits_update hnone)
    · show (Function.update h.doing i (.posting x) j).Fits ((h.pool.submit i a).user j)
      rw [h5]
      exact ho.fits_update (d := .posting x) ⟨r, rfl⟩ j
    · rcases hcase j z hz with ⟨-, hzx⟩ | hz'
      · exact hzx ▸ hx
      · exact ho.empty j z hz'
    · rcases hcase j z hj with ⟨hji, hzx⟩ | hj'
      · rcases hcase k z hk with ⟨hki, -⟩ | hk'
        · exact hji.trans hki.symm
        · exact absurd (hzx ▸ hk') (ht k)
      · rcases hcase k z hk with ⟨-, hzx⟩ | hk'
        · exact absurd (hzx ▸ hj') (ht j)
        · exact ho.apart j k z hj' hk'

omit [Os σ] [DecidableEq κ] in
/-- What a program owns after thread `i` has returned from a call that changed the log and the
objects as `hreq` and the rest say. -/
theorem Handles.Owned.back (ho : h.Owned ws) (hinv : ∃ q l, p'.Inv ws q l)
    (huser : p'.user = Function.update h.pool.user i .idle) (hsub : submitted p'.log = submitted h.pool.log)
    (hwaits : waits p'.log = waits h.pool.log) (hrel : released h.pool.log ⊆ released p'.log)
    (hdone : ∀ r, (h.pool.user i).waits? = some r → r ∈ released p'.log)
    (hstop : p'.stopping = h.pool.stopping) :
    ({ h with pool := p', doing := Function.update h.doing i .idle } : Handles σ ι κ).Owned ws := by
  have hold : ∀ j z, (Function.update h.doing i .idle j).target? = some z → (h.doing j).target? = some z := by
    intro j z hj
    rcases target_update hj with ⟨-, hd⟩ | ⟨-, hj'⟩
    · cases hd
    · exact hj'
  refine ⟨hinv, fun z r' hz => ?_, ho.one, fun r' hr' => ?_, fun r' hr' => ?_, fun j => ?_,
    fun j z hz => ho.empty j z (hold j z hz),
    fun j k z hj hk => ho.apart j k z (hold j z hj) (hold k z hk), fun hs => ho.closed (hstop ▸ hs)⟩
  · rw [show submitted p'.log = _ from hsub, show waits p'.log = _ from hwaits]
    exact ho.held z r' hz
  · rw [show waits p'.log = _ from hwaits]
    exact ho.kept r' (hsub ▸ hr')
  · rcases ho.gone r' (hwaits ▸ hr') with hr' | ⟨j, hj⟩
    · exact Or.inl (hrel hr')
    · by_cases hji : j = i
      · rw [hji] at hj
        exact Or.inl (hdone r' hj)
      · refine Or.inr ⟨j, ?_⟩
        rw [show p'.user = _ from huser, Function.update_of_ne hji]
        exact hj
  · show (Function.update h.doing i .idle j).Fits (p'.user j)
    rw [huser]
    exact ho.fits_update (d := .idle) rfl j

omit [Os σ] in
/-- The request that was accepted goes to the object that the thread was to set. -/
theorem Handles.Owned.accept (ho : h.Owned ws) (hi : h.doing i = .posting x) (hu : h.pool.user i = .submitting r)
    (hs : h.pool.stop = false) :
    (⟨(h.pool.enqueue r).setUser i .idle, Function.update h.req x (some r),
      Function.update h.doing i .idle⟩ : Handles σ ι κ).Owned ws := by
  obtain ⟨q, l, hinv⟩ := ho.inv
  have hnew : r ∉ submitted h.pool.log := by
    have := hinv.user i
    rw [hu] at this
    exact this.1
  have hnw : r ∉ waits h.pool.log := fun hw => hnew (submitted_of_waits hinv.lawful hw)
  have hx : h.req x = none := ho.empty i x (by rw [hi]; rfl)
  have hnone : (h.pool.user i).waits? = none := by
    rw [hu]
    rfl
  have hold : ∀ j z, (Function.update h.doing i .idle j).target? = some z →
      j ≠ i ∧ (h.doing j).target? = some z := by
    intro j z hj
    rcases target_update hj with ⟨-, hd⟩ | hj'
    · cases hd
    · exact hj'
  have hcase : ∀ z r', Function.update h.req x (some r) z = some r' →
      z = x ∧ r' = r ∨ z ≠ x ∧ h.req z = some r' := fun z r' hz =>
    (update_eq_some hz).imp_left (And.imp_right fun he => (Option.some.inj he).symm)
  refine ⟨⟨q ++ [r], r :: l, hinv.enqueue hu hs⟩, fun z r' hz => ?_, fun z w r' hz hw => ?_,
    fun r' hr' => ?_, fun r' hr' => ?_, fun j => ?_, fun j z hz => ?_,
    fun j k z hj hk => ho.apart j k z (hold j z hj).2 (hold k z hk).2, fun hst => ?_⟩
  · rcases hcase z r' hz with ⟨-, he⟩ | ⟨-, hz'⟩
    · rw [he]
      exact ⟨List.mem_cons_self, hnw⟩
    · exact ⟨List.mem_cons_of_mem _ (ho.held z r' hz').1, (ho.held z r' hz').2⟩
  · rcases hcase z r' hz with ⟨hzx, he⟩ | ⟨-, hz'⟩
    · rcases hcase w r' hw with ⟨hwx, -⟩ | ⟨-, hw'⟩
      · exact hzx.trans hwx.symm
      · exact absurd (he ▸ (ho.held w r' hw').1) hnew
    · rcases hcase w r' hw with ⟨-, he⟩ | ⟨-, hw'⟩
      · exact absurd (he ▸ (ho.held z r' hz').1) hnew
      · exact ho.one z w r' hz' hw'
  · rcases List.mem_cons.mp hr' with rfl | hr'
    · exact Or.inr ⟨x, Function.update_self _ _ _⟩
    · refine (ho.kept r' hr').imp_right (Exists.imp fun z hz => ?_)
      have hzx : z ≠ x := by
        rintro rfl
        rw [hx] at hz
        cases hz
      show Function.update h.req x (some r) z = some r'
      rw [Function.update_of_ne hzx]
      exact hz
  · exact (ho.gone r' hr').imp_right (waits_update hnone)
  · exact ho.fits_update (d := .idle) rfl j
  · obtain ⟨hji, hz'⟩ := hold j z hz
    have hzx : z ≠ x := fun he => hji (ho.apart j i z hz' (by rw [hi, he]; rfl))
    show Function.update h.req x (some r) z = none
    rw [Function.update_of_ne hzx]
    exact ho.empty j z hz'
  · rw [hinv.stop_iff.mpr hst] at hs
    cases hs

omit [DecidableEq κ] [Os σ] in
theorem Pool.setUser_self (p : Pool σ ι) (i : ι) (c : Client) : (p.setUser i c).user i = c :=
  Function.update_self _ _ _

/-- **Thread `i` goes on with its call.** -/
theorem Handles.Owned.go (ho : h.Owned ws) (hrun : h.step E (.go i) = some h') :
    h'.Owned ws ∧ h.pool.step E (.client i) = some h'.pool := by
  obtain ⟨q, l, hinv⟩ := ho.inv
  simp only [Handles.step] at hrun
  cases hc : h.pool.client i with
  | none =>
    rw [hc] at hrun
    cases hrun
  | some p' =>
    rw [hc] at hrun
    dsimp only at hrun
    have hinv' := hinv.client hc
    have hfits := ho.fits i
    rw [Pool.client] at hc
    cases hu : h.pool.user i with
    | idle =>
      rw [hu] at hc
      cases hc
    | submitting r =>
      rw [hu] at hc hfits
      obtain ⟨x, hx⟩ := Doing.fits_submitting hfits
      dsimp only at hc
      split_ifs at hc with hs
      · cases hc
        rw [Pool.setUser_self, if_pos rfl] at hrun
        cases hrun
        refine ⟨?_, by simp only [Pool.step, Pool.client, hu, if_pos hs]⟩
        have hreq : h.returned i = h.req := by
          simp only [Handles.returned, hx, hu, if_pos hs]
        rw [hreq]
        exact ho.back hinv' rfl rfl rfl (List.Subset.refl _)
          (fun r' hr' => by rw [hu] at hr'; cases hr') rfl
      · cases hc
        rw [Pool.setUser_self, if_pos rfl] at hrun
        cases hrun
        refine ⟨?_, by simp only [Pool.step, Pool.client, hu, if_neg hs]⟩
        have hreq : h.returned i = Function.update h.req x (some r) := by
          simp only [Handles.returned, hx, hu, if_neg hs]
        rw [hreq]
        exact ho.accept hx hu (by simpa using hs)
    | waiting r =>
      rw [hu] at hc hfits
      dsimp only at hc
      cases hr : h.pool.req r with
      | none =>
        rw [hr] at hc
        cases hc
      | some v =>
        rw [hr] at hc
        dsimp only at hc
        split_ifs at hc with hd
        cases hc
        rw [Pool.setUser_self, if_neg Client.noConfusion] at hrun
        cases hrun
        refine ⟨?_, by simp only [Pool.step, Pool.client, hu, hr, if_pos hd]⟩
        refine ⟨hinv', ho.held, ho.one, ho.kept, fun r' hr' => ?_, fun j => ?_, ho.empty, ho.apart, ho.closed⟩
        · refine (ho.gone r' hr').imp_right (Exists.imp fun j hj => ?_)
          show (Function.update h.pool.user i (.reaping r v.status) j).waits? = some r'
          by_cases hji : j = i
          · rw [hji, Function.update_self]
            rw [hji, hu] at hj
            exact hj
          · rw [Function.update_of_ne hji]
            exact hj
        · show (h.doing j).Fits (Function.update h.pool.user i (.reaping r v.status) j)
          by_cases hji : j = i
          · rw [hji, Function.update_self]
            rcases Doing.fits_waits hfits rfl with he | ⟨x, y, he⟩ <;> rw [he] <;> exact ⟨r, rfl⟩
          · rw [Function.update_of_ne hji]
            exact ho.fits j
    | reaping r rc =>
      rw [hu] at hc hfits
      dsimp only at hc
      cases hr : h.pool.req r with
      | none =>
        rw [hr] at hc
        cases hc
      | some v =>
        rw [hr] at hc
        cases hc
        rw [Pool.setUser_self, if_pos rfl] at hrun
        cases hrun
        refine ⟨?_, by simp only [Pool.step, Pool.client, hu, hr]⟩
        have hback := ho.back (i := i) hinv' rfl rfl rfl (List.subset_cons_self _ _)
          (fun r' hr' => by
            rw [hu] at hr'
            cases hr'
            exact List.mem_cons_self) rfl
        rcases Doing.fits_waits hfits rfl with hd | ⟨x, y, hd⟩
        · have hreq : h.returned i = h.req := by simp only [Handles.returned, hd]
          rw [hreq]
          exact hback
        · have hreq : h.returned i = h.exchange x y := by simp only [Handles.returned, hd]
          rw [hreq]
          refine hback.exchange (ho.empty i x (by rw [hd]; rfl)) fun j hj => ?_
          rcases target_update hj with ⟨-, hidle⟩ | ⟨hji, hj'⟩
          · cases hidle
          · exact hji (ho.apart j i x hj' (by rw [hd]; rfl))

/-- **A proper step keeps the invariant**, and it is a step that the pool allows, or none of the pool. -/
theorem Handles.Owned.step {m : HandleMove ι κ} (hne : ws ≠ []) (ho : h.Owned ws) (hm : m.Proper ws h)
    (hrun : h.step E m = some h') : h'.Owned ws ∧
      (h'.pool = h.pool ∨ ∃ mv, h.pool.Allowed ws mv ∧ h.pool.step E mv = some h'.pool) := by
  obtain ⟨q, l, hinv⟩ := ho.inv
  cases m with
  | post i x a =>
    obtain ⟨hi, hx, ht⟩ := hm
    cases hrun
    exact ⟨ho.post hi hx ht a, Or.inr ⟨.submit i a, ho.user_idle hi, rfl⟩⟩
  | wait i x =>
    simp only [Handles.step] at hrun
    cases hx : h.req x with
    | none =>
      rw [hx] at hrun
      cases hrun
      exact ⟨ho, Or.inl rfl⟩
    | some r =>
      rw [hx] at hrun
      cases hrun
      obtain ⟨h1, h2⟩ := ho.lsWait (d := .waiting) hm hx ⟨r, rfl⟩ fun z hz => (by cases hz)
      exact ⟨h2, Or.inr ⟨_, h1, rfl⟩⟩
  | done x =>
    simp only [Handles.step] at hrun
    cases hx : h.req x with
    | none =>
      rw [hx] at hrun
      cases hrun
      exact ⟨ho, Or.inl rfl⟩
    | some r =>
      rw [hx] at hrun
      obtain ⟨p', hp', rfl⟩ := Option.map_eq_some_iff.mp hrun
      obtain ⟨hsub, hnw⟩ := ho.held x r hx
      have hstop : h.pool.stopping = .idle := by
        by_contra hs
        rw [ho.closed hs x] at hx
        cases hx
      have hadm : h.pool.Allowed ws (.test r) :=
        ⟨hsub, fun hrel => hnw (hinv.reaped hstop r hrel), hstop⟩
      refine ⟨?_, Or.inr ⟨_, hadm, hp'⟩⟩
      have hinv' := hinv.step hne hadm hp'
      simp only [Pool.step] at hp'
      split at hp'
      · cases hp'
      · cases hp'
        exact ho.beside ⟨rfl, rfl, List.Subset.refl _, rfl⟩ hinv' ho.closed
  | move x y =>
    obtain ⟨-, hx, ht⟩ := hm
    cases hrun
    exact ⟨ho.exchange hx ht, Or.inl rfl⟩
  | assign i x y =>
    obtain ⟨hi, ht⟩ := hm
    simp only [Handles.step] at hrun
    split_ifs at hrun with hxy
    · cases hrun
      exact ⟨ho, Or.inl rfl⟩
    · cases hx : h.req x with
      | none =>
        rw [hx] at hrun
        cases hrun
        exact ⟨ho.exchange hx ht, Or.inl rfl⟩
      | some r =>
        rw [hx] at hrun
        cases hrun
        obtain ⟨h1, h2⟩ := ho.lsWait (d := .assigning x y) hi hx ⟨r, rfl⟩ fun z hz => (by
          cases hz
          exact ⟨rfl, ht⟩)
        exact ⟨h2, Or.inr ⟨_, h1, rfl⟩⟩
  | go i =>
    obtain ⟨h1, h2⟩ := ho.go hrun
    exact ⟨h1, Or.inr ⟨.client i, trivial, h2⟩⟩
  | work w =>
    obtain ⟨p', hp', rfl⟩ := Option.map_eq_some_iff.mp hrun
    obtain ⟨hb, hs⟩ := Pool.work_beside hp'
    have hadm : h.pool.Allowed ws (.work w) := hm
    exact ⟨ho.beside hb (hinv.step hne hadm hp') (hs ▸ ho.closed), Or.inr ⟨_, hadm, hp'⟩⟩
  | api i =>
    obtain ⟨p', hp', rfl⟩ := Option.map_eq_some_iff.mp hrun
    have hadm : h.pool.Allowed ws (.api i) := hm
    have hinv' := hinv.step hne hadm hp'
    refine ⟨?_, Or.inr ⟨_, hadm, hp'⟩⟩
    simp only [Pool.step] at hp'
    split at hp'
    · cases hp'
    · cases hp'
      exact ho.beside ⟨rfl, rfl, List.Subset.refl _, rfl⟩ hinv' ho.closed
  | stop =>
    obtain ⟨p', hp', rfl⟩ := Option.map_eq_some_iff.mp hrun
    have hadm : h.pool.Allowed ws .stop := hm.2
    exact ⟨ho.beside (Pool.poolStop_beside hp') (hinv.step hne hadm hp') fun _ => hm.1,
      Or.inr ⟨_, hadm, hp'⟩⟩

end Steps

/-! ## Every run -/

section Runs

variable [Os σ] {E : Env} {h : Handles σ ι κ} {ws : List ι}

/-- A program before it has asked for anything. -/
def Handles.start (ws : List ι) (cfg : Config σ ι) : Handles σ ι κ := { pool := .start ws cfg }

omit [DecidableEq ι] [DecidableEq κ] [Os σ] in
theorem Handles.owned_start (ws : List ι) (cfg : Config σ ι) :
    (Handles.start ws cfg : Handles σ ι κ).Owned ws where
  inv := ⟨[], [], Pool.inv_start ws cfg⟩
  held x r hx := by cases hx
  one x y r hx := by cases hx
  kept r hr := by cases hr
  gone r hr := by cases hr
  fits i := rfl
  empty i x hx := by cases hx
  apart i j x hx := by cases hx
  closed hs := absurd rfl hs

/-- **What a program with `request` objects has done.** -/
structure Handles.Tidy (E : Env) (ws : List ι) (cfg : Config σ ι) (h : Handles σ ι κ) : Prop where
  /-- It has used the pool as the pool asks. -/
  allowed : ∃ ms, Along (Pool.step E) (Pool.Allowed ws) (fun _ => True) ms (.start ws cfg) ∧
    sched (Pool.step E) ms (.start ws cfg) = some h.pool
  /-- It has waited for no request twice. -/
  once : (waits h.pool.log).Nodup
  /-- A request that it has not waited for has one owner. -/
  owned : ∀ r, r ∈ submitted h.pool.log → r ∉ waits h.pool.log → ∃! x, h.req x = some r
  /-- When no object owns a request and no call is under way, every request is freed. -/
  freed : (∀ x, h.req x = none) → (∀ i, h.doing i = .idle) →
    ∀ r, r ∈ submitted h.pool.log → r ∈ released h.pool.log

/-- **A program that uses `request` objects waits for every request once**, in every order in which its
threads and the workers take their sections, and leaks none. -/
theorem handles_wait_once (hne : ws ≠ []) (cfg : Config σ ι) {ms : List (HandleMove ι κ)}
    (hp : Along (Handles.step E) (HandleMove.Proper ws) (fun _ => True) ms (Handles.start ws cfg))
    (hrun : sched (Handles.step E) ms (Handles.start ws cfg) = some h) : h.Tidy E ws cfg := by
  have hkeep : h.Owned ws ∧ ∃ ms, Along (Pool.step E) (Pool.Allowed ws) (fun _ => True) ms (.start ws cfg) ∧
      sched (Pool.step E) ms (.start ws cfg) = some h.pool := by
    refine inv_of_sched (fun h : Handles σ ι κ => h.Owned ws ∧ ∃ ms,
      Along (Pool.step E) (Pool.Allowed ws) (fun _ => True) ms (.start ws cfg) ∧
        sched (Pool.step E) ms (.start ws cfg) = some h.pool) ?_
      ⟨Handles.owned_start ws cfg, [], trivial, rfl⟩ hp hrun
    rintro m h₁ h₂ ⟨ho, ms, h1, h2⟩ hadm hstep
    obtain ⟨ho', hpool | ⟨mv, h3, h4⟩⟩ := ho.step hne hadm hstep
    · exact ⟨ho', ms, h1, hpool ▸ h2⟩
    · obtain ⟨h5, h6⟩ := along_snoc h1 h2 h3 trivial h4
      exact ⟨ho', ms ++ [mv], h5, h6⟩
  obtain ⟨ho, hallowed⟩ := hkeep
  obtain ⟨q, l, hinv⟩ := ho.inv
  refine ⟨hallowed, nodup_waits hinv.lawful, fun r hr hw => ?_, fun hreq hidle r hr => ?_⟩
  · obtain ⟨x, hx⟩ := (ho.kept r hr).resolve_left hw
    exact ⟨x, hx, fun y hy => ho.one y x r hy hx⟩
  · rcases ho.kept r hr with hw | ⟨x, hx⟩
    · rcases ho.gone r hw with hrel | ⟨i, hi⟩
      · exact hrel
      · rw [ho.user_idle (hidle i)] at hi
        cases hi
    · rw [hreq x] at hx
      cases hx

/-- The threads of a process are two, and so are its objects. -/
def twoHandles : Handles Disk Bool Bool :=
  .start [false] (.start (freshStore {} false Disk.blank) fun _ => [])

/-- Two reads are asked for, the object of the second one is assigned to that of the first, and the
store is closed. -/
def handleMoves : List (HandleMove Bool Bool) :=
  [.post true false readA, .go true, .post true true readA, .go true, .assign true false true] ++
    List.replicate 10 (.work false) ++
      [.go true, .go true, .done false, .wait true false, .go true, .go true, .stop, .work false, .stop,
        .stop, .stop]

instance [Fintype ι] [Fintype κ] (ws : List ι) (m : HandleMove ι κ) (h : Handles σ ι κ) :
    Decidable (m.Proper ws h) :=
  match m with
  | .post i x _ =>
    inferInstanceAs (Decidable (h.doing i = .idle ∧ h.req x = none ∧ ∀ j, (h.doing j).target? ≠ some x))
  | .wait i _ => inferInstanceAs (Decidable (h.doing i = .idle))
  | .done _ | .go _ => isTrue trivial
  | .move x y =>
    inferInstanceAs (Decidable (x ≠ y ∧ h.req x = none ∧ ∀ j, (h.doing j).target? ≠ some x))
  | .assign i x _ =>
    inferInstanceAs (Decidable (h.doing i = .idle ∧ ∀ j, (h.doing j).target? ≠ some x))
  | .work w => inferInstanceAs (Decidable (w ∈ ws))
  | .api i => inferInstanceAs (Decidable (i ∉ ws))
  | .stop => inferInstanceAs (Decidable ((∀ x, h.req x = none) ∧ ∀ i, (h.pool.user i).Quiet))

theorem handles_wait_once_two :
    ∃ h, sched (Handles.step ⟨9, fun _ => 0, 0, 0⟩) handleMoves twoHandles = some h ∧
    (submitted h.pool.log = [1, 0] ∧ h.pool.stopping = .returned) ∧
      h.Tidy ⟨9, fun _ => 0, 0, 0⟩ [false] twoHandles.pool.cfg := by
  have hend : (sched (Handles.step ⟨9, fun _ => 0, 0, 0⟩) handleMoves twoHandles).map
      (fun h => (submitted h.pool.log, h.pool.stopping)) = some ([1, 0], .returned) := by decide +kernel
  obtain ⟨h, hrun, hh⟩ := Option.map_eq_some_iff.mp hend
  rw [Prod.mk.injEq] at hh
  exact ⟨h, hrun, hh, handles_wait_once (by decide) _ (by decide +kernel) hrun⟩

end Runs

end Libspill
