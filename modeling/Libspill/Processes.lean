import Libspill.Calls
import Libspill.Open

set_option autoImplicit false

/-!
# Processes that share a store file

Each process opens the file by itself, keeps a store of its own in its memory, and has threads that
make calls one after the other. What the processes have in common is the file. A process moves when
it opens the file, when it closes it, or when one of its threads takes a step: a critical section, or
one call of a transfer. The threads of the request pool are threads that make the plain calls of the
requests.

* `Api`, `Api.enter`: the calls, and their first critical sections.
* `Api.call`: a whole call when nothing else runs; `call_plain`, `call_vectored`, `call_accumulate`:
  it is what the modules before say it is.
* `World`, `World.step`: the processes.
-/

namespace Libspill

variable {σ π ι : Type}

/-! ## Calls -/

/-- The calls of the programming interface, those that make several transfers among them. -/
inductive Api where
  | plain (op : Op)
  | vectored (key : CStr) (segs : List Seg) (write : Bool)
  /-- `none` is a `NULL` reduction; `tmp` is the address of the staging buffer. -/
  | accumulate (key : CStr) (off : ℕ) (buf : List UInt8) (op : Option Reduce) (tmp : ℕ)

/-- What a call returns. -/
inductive Answer where
  | plain (out : Out)
  | vectored (a : Rc × List (List UInt8))
  | accumulated (rc : Rc)

/-- The code of an answer. -/
def Answer.rc : Answer → Rc
  | .plain out => out.rc
  | .vectored a => a.1
  | .accumulated rc => rc

/-- What the first critical section of a call decides: the call is over, or transfers are to run on
the record of `key`. -/
inductive Begun where
  | done (a : Answer)
  | going (key : CStr) (p : Io Answer)

section Calls

variable [Os σ] (E : Env)

/-- `segv` up to its transfers. -/
def segvEnter (s : Store σ) (key : CStr) (segs : List Seg) (write : Bool) : Option (Begun × Store σ) :=
  if !lsKeyOk key then some (.done (.vectored (.inval, [])), s)
  else if segs.isEmpty then some (.done (.vectored (.ok, [])), s)
  else
    match segvCheck segs 0 with
    | .error rc => some (.done (.vectored (rc, [])), s)
    | .ok hi =>
      match segvBegin E s key hi write with
      | none => none
      | some (.error rc, s) => some (.done (.vectored (rc, [])), s)
      | some (.ok pl, s) => some (.going key (do
          let r ← segvLoop E s.direct pl write segs []
          .ret (.vectored r)), s)

/-- `ls_accumulate` up to its transfers. -/
def accumulateEnter (s : Store σ) (key : CStr) (off : ℕ) (buf : List UInt8) (op : Option Reduce)
    (tmp : ℕ) : Option (Begun × Store σ) :=
  match op with
  | none => some (.done (.accumulated .inval), s)
  | some op =>
    if !lsKeyOk key then some (.done (.accumulated .inval), s)
    else if s.o.mode ≠ .explicit then some (.done (.accumulated .mode), s)
    else if add64 off buf.length < off then some (.done (.accumulated .range), s)
    else if buf.length = 0 then some (.done (.accumulated .ok), s)
    else if frozen s key (add64 off buf.length) then some (.done (.accumulated .mode), s)
    else
      match makeRoom E s key (add64 off buf.length) with
      | none => none
      | some (rc, s) =>
        if rc ≠ .ok then some (.done (.accumulated rc), s)
        else
          let (pl, s) := pin s key
          some (.going key (do
            let rc ← accumulate E s.direct pl op tmp buf off
            .ret (.accumulated rc)), s)

/-- What a plain call goes on to. -/
def Entered.begun : Entered → Begun
  | .done out => .done (.plain out)
  | .xfer x _ p => .going x.key (do
      let out ← p
      .ret (.plain out))

/-- The first critical section of a call. -/
def Api.enter (a : Api) (s : Store σ) : Option (Begun × Store σ) :=
  match a with
  | .plain op => (op.enter E s).map fun q => (q.1.begun, q.2)
  | .vectored key segs write => segvEnter E s key segs write
  | .accumulate key off buf op tmp => accumulateEnter E s key off buf op tmp

/-- A whole call when nothing else runs. -/
def Api.call (a : Api) (s : Store σ) : Option (Answer × Store σ) :=
  match a.enter E s with
  | none => none
  | some (.done ans, s) => some (ans, s)
  | some (.going key p, s) =>
    match s.exec p with
    | none => none
    | some (ans, s) => some (ans, unpin s key)

end Calls

section Alone

variable [Os σ] {E : Env} {s : Store σ}

/-- An answer that is wrapped after the last call of a transfer. -/
theorem exec_ret {α β : Type} (p : Io α) (f : α → β) (s : Store σ) :
    s.exec (p >>= fun a => .ret (f a)) = (s.exec p).map fun q => (f q.1, q.2) := by
  induction p generalizing s with
  | ret a => rfl
  | hang => rfl
  | call c k ih => exact ih _ _

theorem call_plain (op : Op) :
    (Api.plain op).call E s = (op.call E s).map fun q => (.plain q.1, q.2) := by
  rw [Api.call, Op.call]
  simp only [Api.enter]
  rcases op.enter E s with _ | ⟨_ | ⟨x, pl, p⟩, s₁⟩
  · rfl
  · rfl
  · simp only [Option.map_some, Entered.begun, exec_ret]
    cases s₁.exec p <;> rfl

theorem call_vectored (key : CStr) (segs : List Seg) (write : Bool) :
    (Api.vectored key segs write).call E s =
      (segv E s key segs write).map fun q => (.vectored q.1, q.2) := by
  rw [Api.call, segv]
  simp only [Api.enter]
  rw [segvEnter]
  split_ifs
  · rfl
  · rfl
  cases segvCheck segs 0 with
  | error rc => rfl
  | ok hi =>
    dsimp only
    rcases segvBegin E s key hi write with _ | ⟨_ | pl, s₁⟩
    · rfl
    · rfl
    · simp only [exec_ret]
      cases s₁.exec (segvLoop E s₁.direct pl write segs []) <;> rfl

theorem call_accumulate (key : CStr) (off : ℕ) (buf : List UInt8) (op : Option Reduce) (tmp : ℕ) :
    (Api.accumulate key off buf op tmp).call E s =
      (lsAccumulate E s key off buf op tmp).map fun q => (.accumulated q.1, q.2) := by
  rw [Api.call]
  simp only [Api.enter]
  cases op with
  | none => rfl
  | some op =>
    rw [accumulateEnter, lsAccumulate]
    dsimp only
    split_ifs
    · rfl
    · rfl
    · rfl
    · rfl
    · rfl
    rcases makeRoom E s key (add64 off buf.length) with _ | ⟨rc, s₁⟩
    · rfl
    dsimp only
    split_ifs
    · rfl
    simp only [exec_ret]
    cases (pin s₁ key).2.exec (accumulate E (pin s₁ key).2.direct (pin s₁ key).1 op tmp buf off) <;> rfl

end Alone

/-! ## Processes -/

/-- A thread: the calls it has yet to make, the call it is in with what is left of its transfers, and
the calls it has made with their answers. -/
structure Caller where
  todo : List Api
  cur : Option (Api × CStr × Io Answer) := none
  made : List (Api × Answer) := []

/-- A process: the store that it has open, and its threads. -/
structure Process (σ ι : Type) where
  store : Option (Store σ) := none
  thread : ι → Caller

/-- The processes and what they have in common. -/
structure World (σ π ι : Type) where
  os : σ
  proc : π → Process σ ι

/-- Who moves. -/
inductive Event (π ι : Type) where
  | opens (p : π) (o : Opts)
  | steps (p : π) (i : ι)
  | closes (p : π) (keep : Bool)

/-- The thread after the first critical section of `a`. -/
def Caller.begin (t : Caller) (a : Api) (todo : List Api) : Begun → Caller
  | .done ans => { t with todo, made := t.made ++ [(a, ans)] }
  | .going key p => { t with todo, cur := some (a, key, p) }

/-- One step of a thread of a process whose store is `s`. -/
def Caller.step [Os σ] (E : Env) (t : Caller) (s : Store σ) : Option (Caller × Store σ) :=
  match t.cur with
  | none =>
    match t.todo with
    | [] => some (t, s)
    | a :: todo => (a.enter E s).map fun q => (t.begin a todo q.1, q.2)
  | some (a, key, .ret ans) =>
    some ({ t with cur := none, made := t.made ++ [(a, ans)] }, unpin s key)
  | some (_, _, .hang) => none
  | some (a, key, .call q k) =>
    let r := perform q s
    some ({ t with cur := some (a, key, k r.1) }, r.2)

section Step

variable [Os σ] [Fintype ι] [DecidableEq ι] [DecidableEq π]

/-- The world after the process `p` has become `q` and left `os` of the operating system. -/
def World.put (w : World σ π ι) (p : π) (os : σ) (q : Process σ ι) : World σ π ι :=
  ⟨os, Function.update w.proc p q⟩

/-- One move. `ls_open` is one move: nobody changes what it reads. A process has the file open once,
makes calls while it is open, and closes it when none of its calls is under way. -/
def World.step (E : π → Env) (m : Event π ι) (w : World σ π ι) : Option (World σ π ι) :=
  match m with
  | .opens p o =>
    match (w.proc p).store with
    | some _ => some w
    | none =>
      match lsOpen (E p) o w.os with
      | none => none
      | some (.error (_, os)) => some (w.put p os (w.proc p))
      | some (.ok s) => some (w.put p s.os { w.proc p with store := some s })
  | .steps p i =>
    match (w.proc p).store with
    | none => some w
    | some s =>
      match ((w.proc p).thread i).step (E p) { s with os := w.os } with
      | none => none
      | some (t, s) => some (w.put p s.os
          { store := some s, thread := Function.update (w.proc p).thread i t })
  | .closes p keep =>
    match (w.proc p).store with
    | none => some w
    | some s =>
      if ∀ i, ((w.proc p).thread i).cur.isNone then
        match closeStore (E p) { s with os := w.os } keep with
        | none => none
        | some (_, os) => some (w.put p os { w.proc p with store := none })
      else some w

/-- Before anybody has opened the file. -/
def World.start (os : σ) (progs : π → ι → List Api) : World σ π ι :=
  ⟨os, fun p => { thread := fun i => { todo := progs p i } }⟩

end Step

end Libspill
