import Libspill.Data

set_option autoImplicit false

/-!
# Vectored and accumulating calls

`ls_readv`, `ls_writev` and `ls_accumulate`, when nothing else runs. Both look the record up and take
its place once, and then make several transfers on it.

* `Seg`, `segv`: a list of segments is checked, room is made for its highest end, and the segments are
  moved in order.
* `Reduce`, `lsAccumulate`: the reduction runs in place on a resident record, and on pieces of `1 << 20`
  bytes through a staging buffer on the extents of one that is not.
-/

namespace Libspill

variable {σ : Type} [Os σ] (E : Env)

/-! ## Segments -/

/-- `ls_seg`: what its buffer holds, `none` for a `NULL` pointer, and the address of the buffer. -/
structure Seg where
  off : ℕ
  len : ℕ
  buf : Option {b : List UInt8 // b.length = len}
  addr : ℕ

/-- The bytes that a segment writes. -/
def Seg.bytes (g : Seg) : List UInt8 := (g.buf.map Subtype.val).getD []

/-- The first loop of `segv`: the first error of a segment, or the highest end. -/
def segvCheck : List Seg → ℕ → Except Rc ℕ
  | [], hi => .ok hi
  | g :: segs, hi =>
    if g.len ≠ 0 && g.buf.isNone then .error .inval
    else if add64 g.off g.len < g.off then .error .range
    else segvCheck segs (if add64 g.off g.len > hi then add64 g.off g.len else hi)

/-- The first critical section of `segv`. -/
def segvBegin (s : Store σ) (key : CStr) (hi : ℕ) (write : Bool) :
    Option (Except Rc Place × Store σ) :=
  if write then
    if frozen s key hi then some (.error .mode, s)
    else
      match makeRoom E s key hi with
      | none => none
      | some (rc, s) =>
        if rc ≠ .ok then some (.error rc, s)
        else
          let (pl, s) := pin s key
          some (.ok pl, s)
  else if (s.find key).isNone then some (.error .nokey, s)
  else if hi > (s.recAt key).size then some (.error .range, s)
  else
    let (pl, s) := pin s key
    some (.ok pl, s)

/-- The second loop of `segv`: the bytes that went to the buffer of each segment that was moved. -/
def segvLoop (direct : Bool) (pl : Place) (write : Bool) :
    List Seg → List (List UInt8) → Io (Rc × List (List UInt8))
  | [], outs => .ret (.ok, outs)
  | g :: segs, outs => do
    let (rc, b) ← lsScatter E direct pl g.off g.len write g.addr (if write then g.bytes else [])
    if rc ≠ .ok then .ret (rc, outs ++ [b]) else segvLoop direct pl write segs (outs ++ [b])

/-- `segv`. -/
def segv (s : Store σ) (key : CStr) (segs : List Seg) (write : Bool) :
    Option ((Rc × List (List UInt8)) × Store σ) :=
  if !lsKeyOk key then some ((.inval, []), s)
  else if segs.isEmpty then some ((.ok, []), s)
  else
    match segvCheck segs 0 with
    | .error rc => some ((rc, []), s)
    | .ok hi =>
      match segvBegin E s key hi write with
      | none => none
      | some (.error rc, s) => some ((rc, []), s)
      | some (.ok pl, s) =>
        match s.exec (segvLoop E s.direct pl write segs []) with
        | none => none
        | some (r, s) => some (r, unpin s key)

/-- `ls_readv`. -/
def lsReadv (s : Store σ) (key : CStr) (segs : List Seg) :
    Option ((Rc × List (List UInt8)) × Store σ) := segv E s key segs false

/-- `ls_writev`. -/
def lsWritev (s : Store σ) (key : CStr) (segs : List Seg) :
    Option ((Rc × List (List UInt8)) × Store σ) := segv E s key segs true

/-! ## Reductions -/

/-- `ls_reduce`, with its context: what it makes of the bytes at `dst` and those at `src`. -/
structure Reduce where
  run : List UInt8 → List UInt8 → List UInt8
  length_run : ∀ dst src, (run dst src).length = dst.length

/-- The bytes that `ls_accumulate` stages at a time. -/
def CH : ℕ := 2 ^ 20

/-- The loop of `ls_accumulate` over the pieces of its range; `tmp` is the address of the staging
buffer. -/
def accumulateLoop (direct : Bool) (pl : Place) (op : Reduce) (tmp : ℕ) (buf : List UInt8)
    (off n : ℕ) : ℕ → ℕ → Io Rc
  | 0, _ => .hang
  | fuel + 1, done =>
    if done < n then do
      let k := if n - done < CH then n - done else CH
      let (rc, b) ← lsScatter E direct pl (add64 off done) k false tmp []
      if rc ≠ .ok then .ret rc
      else do
        let (rc, _) ← lsScatter E direct pl (add64 off done) k true tmp
          (op.run b ((buf.drop done).take k))
        if rc ≠ .ok then .ret rc
        else accumulateLoop direct pl op tmp buf off n fuel (done + k)
    else .ret .ok

/-- The transfers of `ls_accumulate`. -/
def accumulate (direct : Bool) (pl : Place) (op : Reduce) (tmp : ℕ) (buf : List UInt8) (off : ℕ) :
    Io Rc :=
  match pl.mem with
  | some p => Io.load p off buf.length fun b => Io.store p off (op.run b buf) (.ret .ok)
  | none => accumulateLoop E direct pl op tmp buf off buf.length E.fuel 0

/-- `ls_accumulate`; `none` is a `NULL` reduction. -/
def lsAccumulate (s : Store σ) (key : CStr) (off : ℕ) (buf : List UInt8) (op : Option Reduce)
    (tmp : ℕ) : Option (Rc × Store σ) :=
  match op with
  | none => some (.inval, s)
  | some op =>
    if !lsKeyOk key then some (.inval, s)
    else if s.o.mode ≠ .explicit then some (.mode, s)
    else if add64 off buf.length < off then some (.range, s)
    else if buf.length = 0 then some (.ok, s)
    else if frozen s key (add64 off buf.length) then some (.mode, s)
    else
      match makeRoom E s key (add64 off buf.length) with
      | none => none
      | some (rc, s) =>
        if rc ≠ .ok then some (rc, s)
        else
          let (pl, s) := pin s key
          match s.exec (accumulate E s.direct pl op tmp buf off) with
          | none => none
          | some (rc, s) => some (rc, unpin s key)

end Libspill
