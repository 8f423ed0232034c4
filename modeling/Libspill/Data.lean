import Libspill.Tier

set_option autoImplicit false

/-!
# The data path and the table of contents

The entry points of `store.c`. A data call looks its record up and takes a snapshot of where the
bytes are (`Place`) under the table-of-contents lock, transfers outside it, and takes the lock once
more to give the record free. The three parts are kept apart here: the two critical sections are
functions of the store, the transfer is a program (`Io`).

`Op` and `Out` are the calls of the programming interface and what they return. `Op.enter` is the
first critical section of a call, `Op.call` the whole call when nothing else runs.
-/

namespace Libspill

variable {σ : Type} [Os σ] (E : Env)

/-- `ls_place`: where a record's bytes are. -/
structure Place where
  mem : Option Ptr
  ext : Option Ptr
  next : ℕ
deriving DecidableEq, Repr

/-- `ls_place_of`. -/
def lsPlaceOf (r : Rec) : Place := ⟨r.mem, r.ext, r.next⟩

/-- The loop of `ls_scatter` over the extents `i, i + 1, …` of the array `p`. -/
def scatterLoop (direct : Bool) (addr : ℕ) (write : Bool) (buf : List UInt8) (p : Ptr) (off n : ℕ) :
    ℕ → ℕ → ℕ → ℕ → List UInt8 → Io (Rc × List UInt8)
  | 0, _, _, done, out => .ret (if done = n then .ok else .errno .eio, out)
  | left + 1, i, base, done, out =>
    if done < n then
      Io.extent p i fun e =>
        let ehi := add64 base e.len
        if add64 off done ≥ ehi then
          scatterLoop direct addr write buf p off n left (i + 1) ehi done out
        else
          let within := sub64 (add64 off done) base
          let room := sub64 ehi (add64 off done)
          let k := if room > n - done then n - done else room
          rwAll E direct (addr + done) write ((buf.drop done).take k) k (add64 e.foff within) >>=
            fun (rc, b) =>
              if rc ≠ .ok then .ret (rc, out ++ b)
              else scatterLoop direct addr write buf p off n left (i + 1) ehi (done + k) (out ++ b)
    else .ret (.ok, out)

/-- `ls_scatter`. -/
def lsScatter (direct : Bool) (pl : Place) (off n : ℕ) (write : Bool) (addr : ℕ)
    (buf : List UInt8) : Io (Rc × List UInt8) :=
  if n = 0 then .ret (.ok, [])
  else
    match pl.mem with
    | some p =>
      if write then Io.store p off buf (.ret (.ok, []))
      else Io.load p off n fun b => .ret (.ok, b)
    | none => scatterLoop E direct addr write buf (pl.ext.getD 0) off n pl.next 0 0 0 []

/-- The end of a critical section that starts a transfer: the record is most recently used and
busy, and its place is taken. -/
def pin (s : Store σ) (key : CStr) : Place × Store σ :=
  let s := if (s.recAt key).mem.isSome then lsLruTouch s key else s
  let s := s.setRec key fun r => { r with busy := r.busy + 1 }
  (lsPlaceOf (s.recAt key), s)

/-- The critical section after a transfer. -/
def unpin (s : Store σ) (key : CStr) : Store σ :=
  s.setRec key fun r => { r with busy := r.busy - 1 }

/-- Room for a write that ends at `fin`: the record, its capacity, its size. -/
def makeRoom (s : Store σ) (key : CStr) (fin : ℕ) : Option (Rc × Store σ) :=
  match ensureCap E (lsTocFindOrInsert s key) key fin with
  | none => none
  | some (rc, s) =>
    if rc ≠ .ok then some (rc, s)
    else some (.ok, s.setRec key fun r => { r with size := if fin > r.size then fin else r.size })

/-- The mode test of every write: a shared store's layout is frozen. -/
def frozen (s : Store σ) (key : CStr) (fin : ℕ) : Bool :=
  s.o.parallel = .shared && ((s.find key).isNone || fin > (s.recAt key).size)

/-- The first critical section of `ls_rw`, reading. -/
def readBegin (s : Store σ) (key : CStr) (off n : ℕ) : Except Rc Place × Store σ :=
  if !lsKeyOk key then (.error .inval, s)
  else if add64 off n < off then (.error .range, s)
  else if (s.find key).isNone then (.error .nokey, s)
  else if add64 off n > (s.recAt key).size then (.error .range, s)
  else
    let (pl, s) := pin s key
    (.ok pl, s)

/-- The first critical section of `ls_rw`, writing. -/
def writeBegin (s : Store σ) (key : CStr) (off n : ℕ) : Option (Except Rc Place × Store σ) :=
  if !lsKeyOk key then some (.error .inval, s)
  else if add64 off n < off then some (.error .range, s)
  else if frozen s key (add64 off n) then some (.error .mode, s)
  else
    match makeRoom E s key (add64 off n) with
    | none => none
    | some (rc, s) =>
      if rc ≠ .ok then some (.error rc, s)
      else
        let (pl, s) := pin s key
        some (.ok pl, s)

/-- The first critical section of `ls_append`: the offset is taken and the record extended. -/
def appendBegin (s : Store σ) (key : CStr) (n : ℕ) : Option (Except Rc (ℕ × Place) × Store σ) :=
  if !lsKeyOk key then some (.error .inval, s)
  else if s.o.parallel = .shared then some (.error .mode, s)
  else
    let s := lsTocFindOrInsert s key
    let off := (s.recAt key).size
    if add64 off n < off then some (.error .range, s)
    else
      match makeRoom E s key (add64 off n) with
      | none => none
      | some (rc, s) =>
        if rc ≠ .ok then some (.error rc, s)
        else
          let (pl, s) := pin s key
          some (.ok (off, pl), s)

/-- `ls_reserve`. -/
def lsReserve (s : Store σ) (key : CStr) (nbytes : ℕ) : Option (Rc × Store σ) :=
  if !lsKeyOk key then some (.inval, s)
  else if s.o.parallel = .shared then some (.mode, s)
  else makeRoom E s key nbytes

/-- `ls_rec_free` of a record that has been unlinked. -/
def lsRecFree (s : Store σ) (r : Rec) : Store σ :=
  let s := if r.mem.isSome then
      { s with resident := if s.resident ≥ r.memCap then s.resident - r.memCap else s.resident }
    else s
  if r.ext.isSome then lsFreeExtents s (s.exts r) else s

/-- `ls_erase`. -/
def lsErase (s : Store σ) (key : CStr) : Rc × Store σ :=
  if !lsKeyOk key then (.inval, s)
  else if s.o.parallel = .shared then (.mode, s)
  else
    match s.find key with
    | none => (.nokey, s)
    | some r => (.ok, lsRecFree (lsLruDrop (lsTocUnlink s key) key) r)

/-- `ls_set_attr`. -/
def lsSetAttr (s : Store σ) (key : CStr) (blob : List UInt8) : Rc × Store σ :=
  if !lsKeyOk key then (.inval, s)
  else if blob.length > LS_ATTR_MAX then (.inval, s)
  else if s.o.parallel = .shared then (.mode, s)
  else (.ok, (lsTocFindOrInsert s key).setRec key fun r => { r with attr := blob })

/-- `ls_keys`: the keys in table order. -/
def lsKeys (s : Store σ) : List CStr := s.recs.map Rec.key

/-! ## Calls -/

/-- The calls of the programming interface. A buffer is given by its bytes and its address. -/
inductive Op where
  | write (key : CStr) (off : ℕ) (buf : List UInt8) (addr : ℕ)
  | read (key : CStr) (off n addr : ℕ)
  | append (key : CStr) (buf : List UInt8) (addr : ℕ)
  | reserve (key : CStr) (nbytes : ℕ)
  | erase (key : CStr)
  | size (key : CStr)
  | «exists» (key : CStr)
  | setAttr (key : CStr) (blob : List UInt8)
  /-- `cap` is the caller's capacity, `none` for a `NULL` buffer. -/
  | getAttr (key : CStr) (cap : Option ℕ)
  | keys

/-- What a call returns: its code, the bytes and the number it hands out, and the keys it lists,
in no particular order. -/
structure Out where
  rc : Rc
  data : List UInt8 := []
  num : ℕ := 0
  keys : Multiset CStr := 0
deriving DecidableEq

/-- The key of a call. -/
def Op.key? : Op → Option CStr
  | .write key _ _ _ | .read key _ _ _ | .append key _ _ | .reserve key _ | .erase key
  | .size key | .exists key | .setAttr key _ | .getAttr key _ => some key
  | .keys => none

/-- What a transfer hands to the caller. -/
def readOut : Rc × List UInt8 → Out
  | (.ok, b) => { rc := .ok, data := b }
  | (rc, _) => { rc }

/-- `*off_out` is set only by an append that succeeded. -/
def appendOut (off : ℕ) : Rc × List UInt8 → Out
  | (.ok, _) => { rc := .ok, num := off }
  | (rc, _) => { rc }

/-- A transfer of `[off, off + n)` of the record of `key`. -/
structure Xfer where
  key : CStr
  write : Bool
  off : ℕ
  n : ℕ
deriving DecidableEq

/-- What the first critical section of a call decides: the call is over, or a transfer is to run
on the place that was taken. -/
inductive Entered where
  | done (out : Out)
  | xfer (x : Xfer) (pl : Place) (p : Io Out)

/-- The first critical section of a call. -/
def Op.enter (op : Op) (s : Store σ) : Option (Entered × Store σ) :=
  match op with
  | .write key off buf addr =>
    match writeBegin E s key off buf.length with
    | none => none
    | some (.error rc, s) => some (.done { rc }, s)
    | some (.ok pl, s) => some (.xfer ⟨key, true, off, buf.length⟩ pl (do
        let r ← lsScatter E s.direct pl off buf.length true addr buf
        .ret { rc := r.1 }), s)
  | .read key off n addr =>
    match readBegin s key off n with
    | (.error rc, s) => some (.done { rc }, s)
    | (.ok pl, s) => some (.xfer ⟨key, false, off, n⟩ pl (do
        let r ← lsScatter E s.direct pl off n false addr []
        .ret (readOut r)), s)
  | .append key buf addr =>
    match appendBegin E s key buf.length with
    | none => none
    | some (.error rc, s) => some (.done { rc }, s)
    | some (.ok (off, pl), s) => some (.xfer ⟨key, true, off, buf.length⟩ pl (do
        let r ← lsScatter E s.direct pl off buf.length true addr buf
        .ret (appendOut off r)), s)
  | .reserve key nbytes =>
    match lsReserve E s key nbytes with
    | none => none
    | some (rc, s) => some (.done { rc }, s)
  | .erase key =>
    let (rc, s) := lsErase s key
    some (.done { rc }, s)
  | .size key =>
    some (.done (if !lsKeyOk key then { rc := .inval }
      else match s.find key with
        | none => { rc := .nokey }
        | some r => { rc := .ok, num := r.size }), s)
  | .exists key =>
    some (.done (if !lsKeyOk key then { rc := .inval }
      else { rc := .ok, num := if (s.find key).isSome then 1 else 0 }), s)
  | .setAttr key blob =>
    let (rc, s) := lsSetAttr s key blob
    some (.done { rc }, s)
  | .getAttr key cap =>
    some (.done (if !lsKeyOk key then { rc := .inval }
      else match s.find key with
        | none => { rc := .nokey }
        | some r => match cap with
          | none => { rc := .ok, num := r.attr.length }
          | some n => if n < r.attr.length then { rc := .range, num := r.attr.length }
              else { rc := .ok, data := r.attr, num := r.attr.length }), s)
  | .keys => some (.done { rc := .ok, keys := (lsKeys s : Multiset CStr) }, s)

/-- A whole call when nothing else runs. -/
def Op.call (op : Op) (s : Store σ) : Option (Out × Store σ) :=
  match op.enter E s with
  | none => none
  | some (.done out, s) => some (out, s)
  | some (.xfer x _ p, s) =>
    match s.exec p with
    | none => none
    | some (out, s) => some (out, unpin s x.key)

/-- A sequence of calls. -/
def runOps : List Op → Store σ → Option (List Out × Store σ)
  | [], s => some ([], s)
  | op :: ops, s =>
    match op.call E s with
    | none => none
    | some (out, s) =>
      match runOps ops s with
      | none => none
      | some (outs, s) => some (out :: outs, s)

end Libspill
