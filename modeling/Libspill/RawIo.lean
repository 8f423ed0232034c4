import Libspill.Store

set_option autoImplicit false

/-!
# Raw file I/O

`rw_all` and `zero_range`. `rw_all` runs both inside and outside the table-of-contents lock, so it
is a program over the calls of `Call`: inside the lock it is run to its end (`Store.exec`), outside
it is one call at a time among other threads.
-/

namespace Libspill

/-- What a transfer outside the lock asks for: file I/O, a copy from or to a memory-tier buffer,
and an entry of an extent array. -/
inductive Call where
  | pread (n off : ℕ)
  | pwrite (b : List UInt8) (off : ℕ)
  | load (p : Ptr) (off n : ℕ)
  | store (p : Ptr) (off : ℕ) (b : List UInt8)
  | extent (p : Ptr) (i : ℕ)

/-- The answer to a call. -/
def Call.Ans : Call → Type
  | .pread _ _ => Except Errno (List UInt8)
  | .pwrite _ _ => Except Errno ℕ
  | .load _ _ _ => List UInt8
  | .store _ _ _ => Unit
  | .extent _ _ => Extent

/-- A transfer. -/
abbrev Io (α : Type) : Type := Prog Call Call.Ans α

namespace Io

variable {α : Type}

/-- `ls_os_pread`, and what follows it. -/
def pread (n off : ℕ) (k : Except Errno (List UInt8) → Io α) : Io α := .call (.pread n off) k

/-- `ls_os_pwrite`, and what follows it. -/
def pwrite (b : List UInt8) (off : ℕ) (k : Except Errno ℕ → Io α) : Io α := .call (.pwrite b off) k

/-- A copy out of a buffer, and what follows it. -/
def load (p : Ptr) (off n : ℕ) (k : List UInt8 → Io α) : Io α := .call (.load p off n) k

/-- A copy into a buffer, and what follows it. -/
def store (p : Ptr) (off : ℕ) (b : List UInt8) (k : Io α) : Io α :=
  .call (.store p off b) fun _ => k

/-- An entry of an extent array, and what follows it. -/
def extent (p : Ptr) (i : ℕ) (k : Extent → Io α) : Io α := .call (.extent p i) k

end Io

variable {σ : Type} [Os σ]

/-- Answer one call on a store. -/
def perform : Handler Call Call.Ans (Store σ)
  | .pread n off, s => ((Os.pread s.os n off).1, { s with os := (Os.pread s.os n off).2 })
  | .pwrite b off, s => ((Os.pwrite s.os b off).1, { s with os := (Os.pwrite s.os b off).2 })
  | .load p off n, s => (slice (s.mem p) off n, s)
  | .store p off b, s => ((), { s with mem := Function.update s.mem p (patch (s.mem p) off b) })
  | .extent p i, s => (s.arr p i, s)

/-- Run a transfer to its end. -/
def Store.exec {α : Type} (s : Store σ) (p : Io α) : Option (α × Store σ) := p.run perform s

variable (E : Env)

/-- The plain loop of `rw_all`: transfers until `n` bytes are done, retrying what was interrupted
and what came back short. -/
def plain (write : Bool) (cbuf : List UInt8) (n off : ℕ) :
    ℕ → ℕ → List UInt8 → Io (Rc × List UInt8)
  | 0, _, _ => .hang
  | fuel + 1, done, out =>
    if done < n then
      if write then
        Io.pwrite ((cbuf.drop done).take (n - done)) (add64 off done) fun
          | .error e => if e = .eintr then plain write cbuf n off fuel done out
              else .ret (.errno e, out)
          | .ok r => if r = 0 then .ret (.errno .enospc, out)
              else plain write cbuf n off fuel (done + r) out
      else
        Io.pread (n - done) (add64 off done) fun
          | .error e => if e = .eintr then plain write cbuf n off fuel done out
              else .ret (.errno e, out)
          | .ok b => if b.length = 0 then .ret (.errno .eio, out)
              else plain write cbuf n off fuel (done + b.length) (out ++ b)
    else .ret (.ok, out)

/-- The bounce loop of `rw_all`: aligned spans through a staging buffer, reading a span before
writing back part of it. -/
def bounce (write : Bool) (cbuf : List UInt8) (n off : ℕ) :
    ℕ → ℕ → List UInt8 → Io (Rc × List UInt8)
  | 0, _, _ => .hang
  | fuel + 1, done, out =>
    if done < n then
      let abs := add64 off done
      let base := abs / LS_ALIGN * LS_ALIGN
      let skew := abs - base
      let chunk := if n - done > LS_BOUNCE - skew then LS_BOUNCE - skew else n - done
      let span := (skew + chunk + LS_ALIGN - 1) / LS_ALIGN * LS_ALIGN
      if write then
        let put (bb : List UInt8) : Io (Rc × List UInt8) :=
          Io.pwrite (bb.take skew ++ (cbuf.drop done).take chunk ++ bb.drop (skew + chunk)) base fun
            | .error e => if e = .eintr then bounce write cbuf n off fuel done out
                else .ret (.errno e, out)
            | .ok _ => bounce write cbuf n off fuel (done + chunk) out
        if skew ≠ 0 ∨ span ≠ skew + chunk then
          Io.pread span base fun
            | .error e => .ret (.errno e, out)
            | .ok b => put (b ++ List.replicate (span - b.length) 0)
        else put []
      else
        Io.pread span base fun
          | .error e => if e = .eintr then bounce write cbuf n off fuel done out
              else .ret (.errno e, out)
          | .ok b => bounce write cbuf n off fuel (done + chunk)
              (out ++ ((b ++ List.replicate (span - b.length) 0).drop skew).take chunk)
    else .ret (.ok, out)

/-- `rw_all`. `addr` is the address of the caller's buffer. -/
def rwAll (direct : Bool) (addr : ℕ) (write : Bool) (cbuf : List UInt8) (n off : ℕ) :
    Io (Rc × List UInt8) :=
  if n = 0 then .ret (.ok, [])
  else if !direct || (addr % LS_ALIGN = 0 && off % LS_ALIGN = 0 && n % LS_ALIGN = 0) then
    plain write cbuf n off E.fuel 0 []
  else bounce write cbuf n off E.fuel 0 []

/-- `ls_pread_all`. -/
def lsPreadAll (direct : Bool) (addr n off : ℕ) : Io (Rc × List UInt8) :=
  rwAll E direct addr false [] n off

/-- `ls_pwrite_all`. -/
def lsPwriteAll (direct : Bool) (addr : ℕ) (b : List UInt8) (off : ℕ) : Io (Rc × List UInt8) :=
  rwAll E direct addr true b b.length off

/-- The explicit zeros of `zero_range`, in chunks of `1 << 20` from an aligned buffer. -/
def writeZeros : ℕ → ℕ → ℕ → Store σ → Option (Rc × Store σ)
  | 0, _, _, _ => none
  | fuel + 1, off, len, s =>
    if len = 0 then some (.ok, s)
    else
      let k := if len < 2 ^ 20 then len else 2 ^ 20
      match s.exec (lsPwriteAll E s.direct 0 (List.replicate k 0) off) with
      | none => none
      | some ((rc, _), s) =>
        if rc = .ok then writeZeros fuel (add64 off k) (len - k) s else some (rc, s)

/-- How many bytes of `[off, off + len)` are inside a file of `fin` bytes. -/
def insideOf (fin off len : ℕ) : ℕ :=
  if off ≥ fin then 0 else if len > fin - off then fin - off else len

/-- `inside == 0 || ls_os_zero_range(s->fd, off, inside) == 0`. -/
def askZero (s : Store σ) (off inside : ℕ) : Bool × Store σ :=
  if inside = 0 then (true, s)
  else
    let z := Os.zeroRange s.os off inside
    (z.1.isOk, { s with os := z.2 })

/-- `zero_range`. -/
def zeroRange (s : Store σ) (off len : ℕ) : Option (Rc × Store σ) :=
  if len = 0 then some (.ok, s)
  else if s.direct then writeZeros E E.fuel off len s
  else
    match Os.fileSize s.os with
    | (.error e, os) => some (.errno e, { s with os })
    | (.ok fin, os) =>
      -- the zeroing primitive is asked only for bytes that are inside the file
      match askZero { s with os } off (insideOf fin off len) with
      | (true, s) =>
        if add64 off len ≤ fin then some (.ok, s)
        else
          match s.exec (lsPwriteAll E s.direct 0 [0] (sub64 (add64 off len) 1)) with
          | none => none
          | some ((rc, _), s) => some (rc, s)
      | (false, s) => writeZeros E E.fuel off len s

end Libspill
