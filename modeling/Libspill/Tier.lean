import Libspill.Alloc

set_option autoImplicit false

/-!
# The memory tier and capacity

The middle of `store.c`: the LRU list, writing a resident record out, eviction, the extent array,
and the choice of the tier. Everything here runs with the table-of-contents lock held.
-/

namespace Libspill

variable {σ : Type} [Os σ] (E : Env)

/-- `ls_lru_drop`. -/
def lsLruDrop (s : Store σ) (key : CStr) : Store σ := { s with lru := s.lru.erase key }

/-- `ls_lru_touch`. -/
def lsLruTouch (s : Store σ) (key : CStr) : Store σ :=
  if s.lru.head? = some key then s else { s with lru := key :: s.lru.erase key }

/-- `ext_push`: append an extent to a record. A full array is replaced, never moved: a transfer may
still be reading the old one. -/
def extPush (s : Store σ) (key : CStr) (e : Extent) : Store σ :=
  let r := s.recAt key
  if r.next = r.ncap then
    let p := s.arrNext
    { s with
      arr := Function.update s.arr p (Function.update
        (fun i => if i < r.next then s.arr (r.ext.getD p) i else s.arr p i) r.next e)
      arrNext := p + 1
      retired := s.retired ++ r.ext.toList }.setRec key fun r =>
        { r with ext := some p, ncap := if r.ncap ≠ 0 then r.ncap * 2 else 4, next := r.next + 1 }
  else
    let p := r.ext.getD 0
    { s with arr := Function.update s.arr p (Function.update (s.arr p) r.next e) }.setRec key fun r =>
      { r with next := r.next + 1 }

/-- Pushing an extent, with its length added to the capacity. -/
def adopt (s : Store σ) (key : CStr) (e : Extent) : Store σ :=
  (extPush s key e).setRec key fun r => { r with extTotal := add64 r.extTotal e.len }

/-- `ensure_extents`. -/
def ensureExtents : ℕ → Store σ → CStr → ℕ → Option (Rc × Store σ)
  | 0, _, _, _ => none
  | fuel + 1, s, key, need =>
    let r := s.recAt key
    if r.extTotal < need then
      let a := allocFor s.al r.next (sub64 need r.extTotal)
      match zeroRange E { s with al := a.2 } a.1.foff a.1.len with
      | none => none
      | some (rc, s) =>
        if rc ≠ .ok then some (rc, lsFreeExtents s [a.1])
        else ensureExtents fuel (adopt s key a.1) key need
    else some (.ok, s)

/-- The loop of `spill`: scatter the buffer `p` across the record's extents. -/
def spillLoop (p : Ptr) : List Extent → ℕ → ℕ → Store σ → Option (Rc × Store σ)
  | [], _, _, s => some (.ok, s)
  | e :: es, left, pos, s =>
    if left = 0 then some (.ok, s)
    else
      let k := if e.len < left then e.len else left
      match s.exec (lsPwriteAll E s.direct (E.addr p + pos) (slice (s.mem p) pos k) e.foff) with
      | none => none
      | some ((rc, _), s) =>
        if rc ≠ .ok then some (rc, s) else spillLoop p es (left - k) (pos + k) s

/-- Releasing the buffer of a record that has been written out. -/
def dropBuffer (s : Store σ) (key : CStr) : Store σ :=
  let r := s.recAt key
  lsLruDrop ({ s with
    resident := if s.resident ≥ r.memCap then s.resident - r.memCap else s.resident }.setRec key
      fun r => { r with mem := none, memCap := 0 }) key

/-- `spill`. -/
def spill (s : Store σ) (key : CStr) : Option (Rc × Store σ) :=
  match (s.recAt key).mem with
  | none => some (.ok, s)
  | some p =>
    match ensureExtents E E.fuel s key (s.recAt key).size with
    | none => none
    | some (rc, s) =>
      if rc ≠ .ok then some (rc, s)
      else
        match spillLoop E p (s.exts (s.recAt key)) (s.recAt key).size 0 s with
        | none => none
        | some (rc, s) => if rc ≠ .ok then some (rc, s) else some (.ok, dropBuffer s key)

/-- The victim `ls_evict_to` picks: the least recently used record that is neither kept nor busy. -/
def victim (s : Store σ) (keep : Option CStr) : Option CStr :=
  s.lru.reverse.find? fun k => some k ≠ keep ∧ (s.recAt k).busy = 0

/-- `ls_evict_to`. -/
def lsEvictTo : ℕ → Store σ → ℕ → Option CStr → Option (Rc × Store σ)
  | 0, _, _, _ => none
  | fuel + 1, s, budget, keep =>
    if s.resident > budget then
      match victim s keep with
      | none => some (.ok, s)
      | some v =>
        match spill E s v with
        | none => none
        | some (rc, s) => if rc ≠ .ok then some (rc, s) else lsEvictTo fuel s budget keep
    else some (.ok, s)

/-- `ls_spill_all`. -/
def lsSpillAll (s : Store σ) : Option (Rc × Store σ) := lsEvictTo E E.fuel s 0 none

/-- A record's buffer of `hold` bytes grown to `need` bytes at `p`, with the new part zeroed. -/
def growBuffer (s : Store σ) (key : CStr) (p : Ptr) (hold need : ℕ) : Store σ :=
  let r := s.recAt key
  lsLruTouch ({ s with
    mem := Function.update s.mem p fun i =>
      if i < r.memCap then s.mem (r.mem.getD p) i else if i < need then 0 else s.mem p i
    memNext := max s.memNext (p + 1)
    resident := add64 (sub64 s.resident hold) need }.setRec key fun r =>
      { r with mem := some p, memCap := need }) key

/-- The memory-tier attempt of `ensure_cap`: `true` if the record now has `need` bytes in memory. -/
def tryMemory (s : Store σ) (key : CStr) (need : ℕ) : Option (Bool × Store σ) :=
  let budget := s.o.memoryBudget
  let r := s.recAt key
  if budget ≠ 0 ∧ r.ext = none ∧ need ≤ budget then
    let hold := if r.mem.isSome then r.memCap else 0
    let evicted :=
      if add64 (sub64 s.resident hold) need > budget then
        lsEvictTo E E.fuel s (add64 (sub64 budget need) hold) (some key)
      else some (.ok, s)
    match evicted with
    | none => none
    | some (_, s) =>
      if add64 (sub64 s.resident hold) need ≤ budget then
        match Os.realloc s.os (sub64 s.resident hold) need with
        | (none, os) => some (false, { s with os })
        | (some moved, os) =>
          let p := if moved then s.memNext else r.mem.getD s.memNext
          some (true, growBuffer { s with os } key p hold need)
      else some (false, s)
  else some (false, s)

/-- `ensure_cap`: makes `need` bytes of capacity available, choosing the tier. -/
def ensureCap (s : Store σ) (key : CStr) (need : ℕ) : Option (Rc × Store σ) :=
  let r := s.recAt key
  if need ≤ r.memCap ∧ r.mem.isSome then some (.ok, s)
  else if r.extTotal ≥ need ∧ r.mem = none then some (.ok, s)
  else
    match tryMemory E s key need with
    | none => none
    | some (true, s) => some (.ok, s)
    | some (false, s) =>
      -- does not fit any more: spill
      match spill E s key with
      | none => none
      | some (rc, s) => if rc ≠ .ok then some (rc, s) else ensureExtents E E.fuel s key need

end Libspill
