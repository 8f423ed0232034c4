import Libspill.LruStore
import Libspill.Sizes

set_option autoImplicit false

/-!
# Threads on a store whose LRU list lies in memory

Threads that make calls of every kind on one store whose LRU list lies in memory. One step of a
thread is a critical section, or one call of a transfer.

* `LruStore.enter`, `Crew.step`: the first critical sections on pointers, and the threads.
* `tallies_enter`: the critical sections on pointers are those on lists.
-/

namespace Libspill

variable {σ ι : Type}

/-! ## The calls on pointers -/

namespace LruStore

variable [Os σ] (E : Env)

/-- The first critical section of a plain call. -/
def enterOp (op : Op) (t : LruStore σ) : Option (Entered × LruStore σ) :=
  match op with
  | .write key off buf addr =>
    match writeBegin E t key off buf.length with
    | none => none
    | some (.error rc, t) => some (.done { rc }, t)
    | some (.ok pl, t) => some (.xfer ⟨key, true, off, buf.length⟩ pl (do
        let r ← lsScatter E t.s.direct pl off buf.length true addr buf
        .ret { rc := r.1 }), t)
  | .read key off n addr =>
    match readBegin t key off n with
    | (.error rc, t) => some (.done { rc }, t)
    | (.ok pl, t) => some (.xfer ⟨key, false, off, n⟩ pl (do
        let r ← lsScatter E t.s.direct pl off n false addr []
        .ret (readOut r)), t)
  | .append key buf addr =>
    match appendBegin E t key buf.length with
    | none => none
    | some (.error rc, t) => some (.done { rc }, t)
    | some (.ok (off, pl), t) => some (.xfer ⟨key, true, off, buf.length⟩ pl (do
        let r ← lsScatter E t.s.direct pl off buf.length true addr buf
        .ret (appendOut off r)), t)
  | .reserve key nbytes =>
    match lsReserve E t key nbytes with
    | none => none
    | some (rc, t) => some (.done { rc }, t)
  | .erase key =>
    let (rc, t) := lsErase t key
    some (.done { rc }, t)
  -- the other calls do not touch the list
  | op => (op.enter E t.s).map fun q => (q.1, { t with s := q.2 })

/-- `segv` up to its transfers. -/
def segvEnter (t : LruStore σ) (key : CStr) (segs : List Seg) (write : Bool) :
    Option (Begun × LruStore σ) :=
  if !lsKeyOk key then some (.done (.vectored (.inval, [])), t)
  else if segs.isEmpty then some (.done (.vectored (.ok, [])), t)
  else
    match segvCheck segs 0 with
    | .error rc => some (.done (.vectored (rc, [])), t)
    | .ok hi =>
      match segvBegin E t key hi write with
      | none => none
      | some (.error rc, t) => some (.done (.vectored (rc, [])), t)
      | some (.ok pl, t) => some (.going key (do
          let r ← segvLoop E t.s.direct pl write segs []
          .ret (.vectored r)), t)

/-- `ls_accumulate` up to its transfers. -/
def accumulateEnter (t : LruStore σ) (key : CStr) (off : ℕ) (buf : List UInt8) (op : Option Reduce)
    (tmp : ℕ) : Option (Begun × LruStore σ) :=
  match op with
  | none => some (.done (.accumulated .inval), t)
  | some op =>
    if !lsKeyOk key then some (.done (.accumulated .inval), t)
    else if t.s.o.mode ≠ .explicit then some (.done (.accumulated .mode), t)
    else if add64 off buf.length < off then some (.done (.accumulated .range), t)
    else if buf.length = 0 then some (.done (.accumulated .ok), t)
    else if frozen t.s key (add64 off buf.length) then some (.done (.accumulated .mode), t)
    else
      match roomPin E t key (add64 off buf.length) with
      | none => none
      | some (.error rc, t) => some (.done (.accumulated rc), t)
      | some (.ok pl, t) => some (.going key (do
          let rc ← Libspill.accumulate E t.s.direct pl op tmp buf off
          .ret (.accumulated rc)), t)

/-- The first critical section of a call. -/
def enter (a : Api) (t : LruStore σ) : Option (Begun × LruStore σ) :=
  match a with
  | .plain op => (enterOp E op t).map fun q => (q.1.begun, q.2)
  | .vectored key segs write => segvEnter E t key segs write
  | .accumulate key off buf op tmp => accumulateEnter E t key off buf op tmp

/-- `ls_close(keep = 1)` after the request pool has stopped. -/
def closeKept (t : LruStore σ) : Option (Rc × σ) :=
  if t.s.o.parallel = .shared then some (.ok, t.s.os)
  else
    match lsSpillAll E t with
    | none => none
    | some (first, t) =>
      match persist E t.s (tocSerialise t.s) with
      | none => none
      | some (rc, s) => some (if first = .ok then rc else first, s.os)

end LruStore

/-! ## The threads -/

/-- The threads of a process, and the store that they have open. -/
structure Crew (σ ι : Type) where
  store : LruStore σ
  thread : ι → Caller

/-- One step of a thread. A thread that has nothing left to do stays as it is. -/
def Crew.step [Os σ] [DecidableEq ι] (E : Env) (i : ι) (c : Crew σ ι) : Option (Crew σ ι) :=
  let w := c.thread i
  match w.cur with
  | none =>
    match w.todo with
    | [] => some c
    | a :: todo => (c.store.enter E a).map fun q =>
        ⟨q.2, Function.update c.thread i (w.begin a todo q.1)⟩
  | some (a, key, .ret ans) =>
    some ⟨c.store.unpin key,
      Function.update c.thread i { w with cur := none, made := w.made ++ [(a, ans)] }⟩
  | some (_, _, .hang) => none
  | some (a, key, .call q k) =>
    let r := perform q c.store.s
    some ⟨{ c.store with s := r.2 }, Function.update c.thread i { w with cur := some (a, key, k r.1) }⟩

/-- The threads of a process that has just opened a store. -/
def Crew.start (s : Store σ) (progs : ι → List Api) : Crew σ ι :=
  ⟨⟨s, .opened, 0, fun _ => 0⟩, fun i => { todo := progs i }⟩

/-! ## Pointers and lists -/

section OnPointers

variable [Os σ] {E : Env} {t : LruStore σ} {l : List CStr} {key : CStr}

/-- What a critical section that makes room and takes the place of the record has done. -/
theorem tallies_roomPin (h : t.Lists l) (hf : l.length < E.fuel) (key : CStr) (fin : ℕ) :
    Tallies (t.roomPin E key fin) (match makeRoom E (t.s.withLru l) key fin with
      | none => none
      | some (rc, s) =>
        if rc ≠ .ok then some (.error rc, s)
        else some (.ok (pin s key).1, (pin s key).2)) := by
  unfold LruStore.roomPin
  rcases tallies_makeRoom (E := E) h hf key fin with ⟨h1, h2⟩ | ⟨rc, t₁, s₁, h1, h2, l₁, h3, rfl⟩
  · rw [h1, h2]
    exact Or.inl ⟨rfl, rfl⟩
  rw [h1, h2]
  dsimp only
  by_cases hrc : rc ≠ .ok
  · rw [if_pos hrc, if_pos hrc]
    exact tallies_some h3 _
  · rw [if_neg hrc, if_neg hrc]
    obtain ⟨h4, h5⟩ := mirrors_pin h3 key
    exact Or.inr ⟨_, _, _, rfl, by rw [h4], h5⟩

theorem tallies_writeBegin (h : t.Lists l) (hf : l.length < E.fuel) (key : CStr) (off n : ℕ) :
    Tallies (t.writeBegin E key off n) (writeBegin E (t.s.withLru l) key off n) := by
  unfold LruStore.writeBegin writeBegin
  rw [show frozen (t.s.withLru l) key (add64 off n) = frozen t.s key (add64 off n) from rfl]
  split_ifs
  · exact tallies_some h _
  · exact tallies_some h _
  · exact tallies_some h _
  · exact tallies_roomPin h hf key _

omit [Os σ] in
theorem mirrors_readBegin (h : t.Lists l) (key : CStr) (off n : ℕ) :
    (t.readBegin key off n).1 = (readBegin (t.s.withLru l) key off n).1 ∧
      Mirrors (t.readBegin key off n).2 (readBegin (t.s.withLru l) key off n).2 := by
  unfold LruStore.readBegin readBegin
  rw [show (t.s.withLru l).find key = t.s.find key from rfl,
    show (t.s.withLru l).recAt key = t.s.recAt key from rfl]
  obtain ⟨h1, h2⟩ := mirrors_pin h key
  split_ifs
  · exact ⟨rfl, l, h, rfl⟩
  · exact ⟨rfl, l, h, rfl⟩
  · exact ⟨rfl, l, h, rfl⟩
  · exact ⟨rfl, l, h, rfl⟩
  · exact ⟨congrArg _ h1, h2⟩

theorem tallies_appendBegin (h : t.Lists l) (hf : l.length < E.fuel) (key : CStr) (n : ℕ) :
    Tallies (t.appendBegin E key n) (appendBegin E (t.s.withLru l) key n) := by
  unfold LruStore.appendBegin appendBegin
  rw [lsTocFindOrInsert_withLru t.s l key]
  dsimp only
  rw [show (((lsTocFindOrInsert t.s key).withLru l).recAt key) = (lsTocFindOrInsert t.s key).recAt key from rfl]
  split_ifs
  · exact tallies_some h _
  · exact tallies_some h _
  · exact tallies_some (h.set _) _
  unfold LruStore.roomPin
  rcases tallies_makeRoom (E := E) (h.set (lsTocFindOrInsert t.s key)) hf key
    (add64 ((lsTocFindOrInsert t.s key).recAt key).size n) with ⟨h1, h2⟩ | ⟨rc, t₁, s₁, h1, h2, l₁, h3, rfl⟩
  · rw [h1, h2]
    exact Or.inl ⟨rfl, rfl⟩
  rw [h1, h2]
  dsimp only
  by_cases hrc : rc ≠ .ok
  · rw [if_pos hrc, if_pos hrc]
    exact tallies_some h3 _
  · rw [if_neg hrc, if_neg hrc]
    obtain ⟨h4, h5⟩ := mirrors_pin h3 key
    exact Or.inr ⟨_, _, _, rfl, by rw [h4]; rfl, h5⟩

theorem tallies_reserve (h : t.Lists l) (hf : l.length < E.fuel) (key : CStr) (nbytes : ℕ) :
    Tallies (t.lsReserve E key nbytes) (lsReserve E (t.s.withLru l) key nbytes) := by
  unfold LruStore.lsReserve lsReserve
  dsimp only
  split_ifs
  · exact tallies_some h _
  · exact tallies_some h _
  · exact tallies_makeRoom h hf key _

theorem lsRecFree_withLru (s : Store σ) (l : List CStr) (r : Rec) :
    lsRecFree (s.withLru l) r = (lsRecFree s r).withLru l := by
  have hfree : ∀ (s : Store σ) (e : List Extent),
      lsFreeExtents (s.withLru l) e = (lsFreeExtents s e).withLru l := by
    intro s e
    have hown : lsFreeExtents s e = (lsFreeExtents s e).withTier s.lru s.resident s.memNext :=
      lsFreeExtents_withTier s s.lru s.resident s.memNext e
    rw [lsFreeExtents_withTier s l s.resident s.memNext e, hown]
  unfold lsRecFree
  dsimp only
  generalize (if s.resident ≥ r.memCap then s.resident - r.memCap else s.resident) = n
  by_cases hm : r.mem.isSome = true
  · rw [if_pos hm, if_pos hm]
    by_cases he : r.ext.isSome = true
    · rw [if_pos he, if_pos he]
      exact hfree { s with resident := n } _
    · rw [if_neg he, if_neg he]
  · rw [if_neg hm, if_neg hm]
    by_cases he : r.ext.isSome = true
    · rw [if_pos he, if_pos he]
      exact hfree s _
    · rw [if_neg he, if_neg he]

theorem mirrors_erase (h : t.Lists l) (key : CStr) : (t.lsErase key).1 = (lsErase (t.s.withLru l) key).1 ∧
    Mirrors (t.lsErase key).2 (lsErase (t.s.withLru l) key).2 := by
  unfold LruStore.lsErase lsErase
  rw [show (t.s.withLru l).find key = t.s.find key from rfl]
  dsimp only
  split_ifs
  · exact ⟨rfl, l, h, rfl⟩
  · exact ⟨rfl, l, h, rfl⟩
  cases t.s.find key with
  | none => exact ⟨rfl, l, h, rfl⟩
  | some r =>
    refine ⟨rfl, l.erase key, (((h.set (lsTocUnlink t.s key)).drop key).set _), ?_⟩
    exact lsRecFree_withLru (lsTocUnlink t.s key) (l.erase key) r

theorem tallies_segvBegin (h : t.Lists l) (hf : l.length < E.fuel) (key : CStr) (hi : ℕ) (write : Bool) :
    Tallies (t.segvBegin E key hi write) (segvBegin E (t.s.withLru l) key hi write) := by
  unfold LruStore.segvBegin segvBegin
  rw [show frozen (t.s.withLru l) key hi = frozen t.s key hi from rfl,
    show (t.s.withLru l).find key = t.s.find key from rfl,
    show (t.s.withLru l).recAt key = t.s.recAt key from rfl]
  split_ifs
  · exact tallies_some h _
  · exact tallies_roomPin h hf key hi
  · exact tallies_some h _
  · exact tallies_some h _
  · obtain ⟨h1, h2⟩ := mirrors_pin h key
    exact Or.inr ⟨.ok (t.pin key).1, _, _, rfl, by rw [h1], h2⟩

/-- **The first critical section of a plain call.** -/
theorem tallies_enterOp (h : t.Lists l) (hf : l.length < E.fuel) (op : Op) :
    Tallies (t.enterOp E op) (op.enter E (t.s.withLru l)) := by
  cases op with
  | write key off buf addr =>
    simp only [LruStore.enterOp, Op.enter]
    rcases tallies_writeBegin (E := E) h hf key off buf.length with ⟨h1, h2⟩ | ⟨x, t₁, s₁, h1, h2, l₁, h3, rfl⟩
    · rw [h1, h2]
      exact Or.inl ⟨rfl, rfl⟩
    rw [h1, h2]
    cases x <;> exact tallies_some h3 _
  | read key off n addr =>
    simp only [LruStore.enterOp, Op.enter]
    obtain ⟨h1, l₁, h2, h3⟩ := mirrors_readBegin h key off n
    rcases ht : t.readBegin key off n with ⟨x, t₁⟩
    rcases hs : readBegin (t.s.withLru l) key off n with ⟨y, s₁⟩
    rw [ht, hs] at h1 h3
    rw [ht] at h2
    dsimp only at h1 h2 h3
    subst h1 h3
    cases x <;> exact tallies_some h2 _
  | append key buf addr =>
    simp only [LruStore.enterOp, Op.enter]
    rcases tallies_appendBegin (E := E) h hf key buf.length with ⟨h1, h2⟩ | ⟨x, t₁, s₁, h1, h2, l₁, h3, rfl⟩
    · rw [h1, h2]
      exact Or.inl ⟨rfl, rfl⟩
    rw [h1, h2]
    rcases x with rc | ⟨off, pl⟩ <;> exact tallies_some h3 _
  | reserve key nbytes =>
    simp only [LruStore.enterOp, Op.enter]
    rcases tallies_reserve (E := E) h hf key nbytes with ⟨h1, h2⟩ | ⟨x, t₁, s₁, h1, h2, l₁, h3, rfl⟩
    · rw [h1, h2]
      exact Or.inl ⟨rfl, rfl⟩
    rw [h1, h2]
    exact tallies_some h3 _
  | erase key =>
    obtain ⟨h1, h2⟩ := mirrors_erase h key
    exact Or.inr ⟨.done { rc := (t.lsErase key).1 }, (t.lsErase key).2, _, rfl, by rw [h1]; rfl, h2⟩
  | size key => exact tallies_some h _
  | «exists» key => exact tallies_some h _
  | getAttr key cap => exact tallies_some h _
  | keys => exact tallies_some h _
  | setAttr key blob =>
    simp only [LruStore.enterOp, Op.enter, lsSetAttr]
    split_ifs
    · exact tallies_some h _
    · exact tallies_some h _
    · exact tallies_some h _
    · rw [lsTocFindOrInsert_withLru t.s l key]
      exact tallies_some (h.set _) _

theorem tallies_segvEnter (h : t.Lists l) (hf : l.length < E.fuel) (key : CStr) (segs : List Seg)
    (write : Bool) : Tallies (t.segvEnter E key segs write) (segvEnter E (t.s.withLru l) key segs write) := by
  unfold LruStore.segvEnter segvEnter
  split_ifs
  · exact tallies_some h _
  · exact tallies_some h _
  cases segvCheck segs 0 with
  | error rc => exact tallies_some h _
  | ok hi =>
    dsimp only
    rcases tallies_segvBegin (E := E) h hf key hi write with ⟨h1, h2⟩ | ⟨x, t₁, s₁, h1, h2, l₁, h3, rfl⟩
    · rw [h1, h2]
      exact Or.inl ⟨rfl, rfl⟩
    rw [h1, h2]
    cases x <;> exact tallies_some h3 _

theorem tallies_accumulateEnter (h : t.Lists l) (hf : l.length < E.fuel) (key : CStr) (off : ℕ)
    (buf : List UInt8) (op : Option Reduce) (tmp : ℕ) :
    Tallies (t.accumulateEnter E key off buf op tmp)
      (accumulateEnter E (t.s.withLru l) key off buf op tmp) := by
  cases op with
  | none => exact tallies_some h _
  | some op =>
    unfold LruStore.accumulateEnter accumulateEnter
    dsimp only
    rw [show frozen (t.s.withLru l) key (add64 off buf.length) = frozen t.s key (add64 off buf.length) from rfl]
    split_ifs
    · exact tallies_some h _
    · exact tallies_some h _
    · exact tallies_some h _
    · exact tallies_some h _
    · exact tallies_some h _
    unfold LruStore.roomPin
    rcases tallies_makeRoom (E := E) h hf key (add64 off buf.length) with
      ⟨h1, h2⟩ | ⟨rc, t₁, s₁, h1, h2, l₁, h3, rfl⟩
    · rw [h1, h2]
      exact Or.inl ⟨rfl, rfl⟩
    rw [h1, h2]
    dsimp only
    by_cases hrc : rc ≠ .ok
    · rw [if_pos hrc, if_pos hrc]
      exact tallies_some h3 _
    · rw [if_neg hrc, if_neg hrc]
      obtain ⟨h4, l₂, h5, h6⟩ := mirrors_pin h3 key
      rw [← h4, h6]
      exact tallies_some h5 _

/-- **The first critical section of a call** on pointers does what it does on lists. -/
theorem tallies_enter (h : t.Lists l) (hf : l.length < E.fuel) (a : Api) :
    Tallies (t.enter E a) (a.enter E (t.s.withLru l)) := by
  cases a with
  | plain op =>
    simp only [LruStore.enter, Api.enter]
    rcases tallies_enterOp (E := E) h hf op with ⟨h1, h2⟩ | ⟨x, t₁, s₁, h1, h2, l₁, h3, rfl⟩
    · rw [h1, h2]
      exact Or.inl ⟨rfl, rfl⟩
    rw [h1, h2]
    exact tallies_some h3 _
  | vectored key segs write => exact tallies_segvEnter h hf key segs write
  | accumulate key off buf op tmp => exact tallies_accumulateEnter h hf key off buf op tmp

end OnPointers

end Libspill
