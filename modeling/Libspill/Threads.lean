import Libspill.Lib.Sched
import Libspill.Sequential

set_option autoImplicit false

/-!
# A store used by many threads

Each thread makes its calls one after the other. One step of a thread is a critical section, or one
call of a transfer: a read or write of the file, a copy from or to a buffer, or a look at an entry
of the extent array its snapshot points to.

* `Config`, `Config.step`: the threads of one process.
* `callsOf`, `outsOf`: what the log of the critical sections says about one thread.
-/

namespace Libspill

variable {σ ι : Type}

/-- A thread: the calls it has yet to make, the transfer it is in, and the answers it got. -/
structure Thread where
  todo : List Op
  cur : Option (Xfer × Place × Io Out) := none
  outs : List Out := []

/-- A call that has entered: its thread, and the transfer it went on to. -/
structure Logged (ι : Type) where
  thread : ι
  op : Op
  x : Option Xfer

/-- The threads of a process, and the calls in the order of their first critical sections. -/
structure Config (σ ι : Type) where
  store : Store σ
  thread : ι → Thread
  log : List (Logged ι) := []

/-- The transfer a critical section starts. -/
def Entered.xfer? : Entered → Option Xfer
  | .done _ => none
  | .xfer x _ _ => some x

/-- The thread after its first critical section. -/
def Thread.enter (t : Thread) (todo : List Op) : Entered → Thread
  | .done out => { t with todo, outs := t.outs ++ [out] }
  | .xfer x pl p => { t with todo, cur := some (x, pl, p) }

/-- One step of a thread. A thread that has nothing left to do stays as it is. -/
def Config.step [Os σ] [DecidableEq ι] (E : Env) (i : ι) (c : Config σ ι) : Option (Config σ ι) :=
  let t := c.thread i
  match t.cur with
  | none =>
    match t.todo with
    | [] => some c
    | op :: todo =>
      match op.enter E c.store with
      | none => none
      | some (ent, s) => some {
          store := s
          thread := Function.update c.thread i (t.enter todo ent)
          log := c.log ++ [⟨i, op, ent.xfer?⟩] }
  | some (x, _, .ret out) => some { c with
      store := unpin c.store x.key
      thread := Function.update c.thread i { t with cur := none, outs := t.outs ++ [out] } }
  | some (_, _, .hang) => none
  | some (x, pl, .call q k) =>
    let a := perform q c.store
    some { c with
      store := a.2
      thread := Function.update c.thread i { t with cur := some (x, pl, k a.1) } }

/-- The call a thread is about to make. -/
def Config.next (c : Config σ ι) (i : ι) : Option Op :=
  match (c.thread i).cur with
  | none => (c.thread i).todo.head?
  | some _ => none

theorem Config.next_eq_some {c : Config σ ι} {i : ι} {op : Op} :
    c.next i = some op ↔ (c.thread i).cur = none ∧ ∃ todo, (c.thread i).todo = op :: todo := by
  rw [Config.next]
  cases (c.thread i).cur with
  | some _ => simp
  | none => cases (c.thread i).todo <;> simp

section Step

variable [Os σ] [DecidableEq ι] {E : Env} {c : Config σ ι} {i : ι}

/-- The step of a thread that begins a call. -/
theorem Config.step_enter {op : Op} {todo : List Op} {ent : Entered} {s : Store σ}
    (hcur : (c.thread i).cur = none) (ht : (c.thread i).todo = op :: todo)
    (h : op.enter E c.store = some (ent, s)) :
    c.step E i = some ⟨s, Function.update c.thread i ((c.thread i).enter todo ent),
      c.log ++ [⟨i, op, ent.xfer?⟩]⟩ := by
  simp only [Config.step, hcur, ht, h]

/-- The step of a thread whose transfer has ended. -/
theorem Config.step_return {x : Xfer} {pl : Place} {out : Out}
    (hcur : (c.thread i).cur = some (x, pl, .ret out)) :
    c.step E i = some { c with
      store := unpin c.store x.key
      thread := Function.update c.thread i
        { c.thread i with cur := none, outs := (c.thread i).outs ++ [out] } } := by
  simp only [Config.step, hcur]

/-- The step of a thread in a transfer. -/
theorem Config.step_call {x : Xfer} {pl : Place} {q : Call} {k : q.Ans → Io Out}
    (hcur : (c.thread i).cur = some (x, pl, .call q k)) :
    c.step E i = some { c with
      store := (perform q c.store).2
      thread := Function.update c.thread i
        { c.thread i with cur := some (x, pl, k (perform q c.store).1) } } := by
  simp only [Config.step, hcur]

/-- A step logs at most the call that it begins. -/
theorem Config.step_log {c' : Config σ ι} (h : c.step E i = some c') :
    c'.log = c.log ∨ ∃ op x, c.next i = some op ∧ c'.log = c.log ++ [⟨i, op, x⟩] := by
  cases hcur : (c.thread i).cur with
  | some cur =>
    obtain ⟨x, pl, p⟩ := cur
    cases p with
    | ret out =>
      rw [Config.step_return hcur] at h
      cases h
      exact Or.inl rfl
    | hang =>
      simp only [Config.step, hcur] at h
      cases h
    | call q k =>
      rw [Config.step_call hcur] at h
      cases h
      exact Or.inl rfl
  | none =>
    cases ht : (c.thread i).todo with
    | nil =>
      simp only [Config.step, hcur, ht] at h
      cases h
      exact Or.inl rfl
    | cons op todo =>
      cases he : op.enter E c.store with
      | none =>
        simp only [Config.step, hcur, ht, he] at h
        cases h
      | some r =>
        rw [Config.step_enter hcur ht he] at h
        cases h
        exact Or.inr ⟨op, _, Config.next_eq_some.mpr ⟨hcur, todo, ht⟩, rfl⟩

end Step

/-- The threads before their first step. -/
def Config.start (s : Store σ) (progs : ι → List Op) : Config σ ι :=
  { store := s, thread := fun i => { todo := progs i } }

/-- The thread has made all its calls. -/
def Thread.Done (t : Thread) : Prop := t.todo = [] ∧ t.cur = none

/-! ## What the log says -/

section Log

variable [DecidableEq ι]

/-- The calls of a log. -/
def calls (log : List (Logged ι)) : List Op := log.map Logged.op

/-- The calls of one thread. -/
def callsOf (i : ι) (log : List (Logged ι)) : List Op :=
  (log.filter fun l => l.thread = i).map Logged.op

/-- The answers to one thread's calls among the answers to all of them. -/
def outsOf (i : ι) (log : List (Logged ι)) (outs : List Out) : List Out :=
  ((log.zip outs).filter fun l => l.1.thread = i).map Prod.snd

theorem callsOf_append (i : ι) (log : List (Logged ι)) (l : Logged ι) :
    callsOf i (log ++ [l]) = callsOf i log ++ if l.thread = i then [l.op] else [] := by
  rw [callsOf, List.filter_append, List.map_append]
  by_cases h : l.thread = i <;> simp [callsOf, h]

theorem outsOf_append (i : ι) {log : List (Logged ι)} {outs : List Out}
    (h : log.length = outs.length) (l : Logged ι) (out : Out) :
    outsOf i (log ++ [l]) (outs ++ [out]) = outsOf i log outs ++ if l.thread = i then [out] else [] := by
  rw [outsOf, List.zip_append h, List.filter_append, List.map_append]
  by_cases hl : l.thread = i <;> simp [outsOf, hl]

theorem length_refRun (sh : Bool) (ops : List Op) (m : RefMap) :
    (refRun sh ops m).1.length = ops.length := by
  induction ops generalizing m with
  | nil => rfl
  | cons op ops ih => simp [refRun, ih]

theorem refRun_append (sh : Bool) (ops : List Op) (op : Op) (m : RefMap) :
    refRun sh (ops ++ [op]) m = ((refRun sh ops m).1 ++ [(op.refStep sh (refRun sh ops m).2).1],
      (op.refStep sh (refRun sh ops m).2).2) := by
  induction ops generalizing m with
  | nil => rfl
  | cons op' ops ih => simp [refRun, ih]

end Log

end Libspill
