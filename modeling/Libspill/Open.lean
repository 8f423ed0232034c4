import Libspill.Data

set_option autoImplicit false

/-!
# Opening and closing

`open.c`: the superblock, the table of contents on disk, and the two ends of a store's life. The
superblock is `LS_SUPER_SIZE` bytes at offset 0, little-endian, and the rest of it is zero:

    0   8   magic
    8   4   LS_FMT_VERSION
   12   4   zero
   16   8   ToC offset in the file, always equal to file_end
   24   8   number of records the ToC holds
   32   8   file_end
   40   4   CRC32 of the ToC bytes
   48   8   ToC length in bytes
-/

namespace Libspill

/-! ## Numbers as bytes -/

/-- `n` bytes of `v`, least significant first. -/
def putLE : ℕ → ℕ → List UInt8
  | 0, _ => []
  | n + 1, v => UInt8.ofNat v :: putLE n (v / 256)

/-- The number a byte string spells, least significant byte first. -/
def getLE : List UInt8 → ℕ
  | [] => 0
  | b :: l => b.toNat + 256 * getLE l

/-- `put32`. -/
def put32 (v : ℕ) : List UInt8 := putLE 4 v

/-- `put64`. -/
def put64 (v : ℕ) : List UInt8 := putLE 8 v

/-- `get32`. -/
def get32 (b : List UInt8) : ℕ := getLE (b.take 4)

/-- `get64`. -/
def get64 (b : List UInt8) : ℕ := getLE (b.take 8)

/-- One bit of the checksum. -/
def crcBit (c : UInt32) : UInt32 := (c >>> 1) ^^^ (0xedb88320 &&& (0 - (c &&& 1)))

/-- One byte of the checksum. -/
def crcByte (c : UInt32) (b : UInt8) : UInt32 :=
  crcBit (crcBit (crcBit (crcBit (crcBit (crcBit (crcBit (crcBit (c ^^^ b.toUInt32))))))))

/-- `crc32_of`. -/
def crc32Of (b : List UInt8) : UInt32 := ~~~ (b.foldl crcByte 0xffffffff)

/-! ## The table of contents on disk -/

variable {σ : Type} [Os σ] (E : Env)

/-- The bytes of one extent. -/
def encExtent (e : Extent) : List UInt8 := put64 e.foff ++ put64 e.len

/-- The bytes of one record. -/
def encRec (s : Store σ) (r : Rec) : List UInt8 :=
  put32 r.key.1.length ++ r.key.1 ++ put64 r.size ++ put32 r.attr.length ++ r.attr ++
    put32 r.next ++ (s.exts r).flatMap encExtent

/-- `toc_serialise`. -/
def tocSerialise (s : Store σ) : List UInt8 := s.recs.flatMap (encRec s)

/-- The extents of one record: `ne` of them, each inside the data area. -/
def loadExtents (fileEnd : ℕ) : ℕ → List UInt8 → Except Rc (List Extent × List UInt8)
  | 0, w => .ok ([], w)
  | ne + 1, w =>
    let x : Extent := ⟨get64 w, get64 (w.drop 8)⟩
    if x.foff < LS_SUPER_SIZE ∨ add64 x.foff x.len > fileEnd then .error .corrupt
    else
      match loadExtents fileEnd ne (w.drop 16) with
      | .error rc => .error rc
      | .ok (xs, w) => .ok (x :: xs, w)

/-- The capacity an extent array reaches by doubling until it holds `n`. -/
def ncapFor (n : ℕ) : ℕ :=
  (List.range n).foldl (fun cap i => if i = cap then (if cap ≠ 0 then cap * 2 else 4) else cap) 0

/-- A record read back from the table of contents. -/
def loadRec (s : Store σ) (key : CStr) (size : ℕ) (attr : List UInt8) (xs : List Extent) :
    Store σ :=
  let s := lsTocInsert s key
  if xs = [] then s.setRec key fun r => { r with size, attr }
  else
    let p := s.arrNext
    { s with
      arr := Function.update s.arr p fun i => xs.getD i ⟨0, 0⟩
      arrNext := p + 1 }.setRec key fun r =>
        { r with size, attr, ext := some p, next := xs.length, ncap := ncapFor xs.length
                 extTotal := xs.foldl (fun t (x : Extent) => add64 t x.len) 0 }

/-- `toc_load`. -/
def tocLoad : ℕ → List UInt8 → Store σ → Except Rc (Store σ)
  | 0, _, s => .ok s
  | count + 1, w, s =>
    if w.length < 4 then .error .corrupt
    else
      let kl := get32 w
      let w := w.drop 4
      if kl = 0 ∨ kl > LS_KEY_MAX ∨ w.length < kl + 8 then .error .corrupt
      else
        let key := cstr (w.take kl)
        let w := w.drop kl
        let size := get64 w
        let w := w.drop 8
        if w.length < 4 then .error .corrupt
        else
          let attrlen := get32 w
          let w := w.drop 4
          if attrlen > LS_ATTR_MAX ∨ w.length < attrlen + 4 then .error .corrupt
          else
            let attr := w.take attrlen
            let w := w.drop attrlen
            let ne := get32 w
            let w := w.drop 4
            if w.length < ne * 16 then .error .corrupt
            else
              match loadExtents s.al.fileEnd ne w with
              | .error rc => .error rc
              | .ok (xs, w) => tocLoad count w (loadRec s key size attr xs)

/-- The walk of `rebuild_free_list` over the extents in ascending order. -/
def rebuildLoop : List Extent → ℕ → Store σ → Except Rc (Store σ)
  | [], _, s => .ok s
  | e :: es, cur, s =>
    if e.foff < cur then .error .corrupt
    else
      let s := if e.foff > cur then lsFreeExtents s [⟨cur, e.foff - cur⟩] else s
      rebuildLoop es (add64 e.foff e.len) s

/-- `rebuild_free_list`: the free list from the gaps between live extents. -/
def rebuildFreeList (s : Store σ) : Except Rc (Store σ) :=
  rebuildLoop (s.live.insertionSort fun a b => a.foff ≤ b.foff) LS_SUPER_SIZE s

/-! ## Open and close -/

/-- The magic number, `LIBSPILL`. -/
def LS_MAGIC : List UInt8 := [76, 73, 66, 83, 80, 73, 76, 76]

/-- Version 2 added the attribute blob. -/
def LS_FMT_VERSION : ℕ := 2

/-- The superblock of a store whose table of contents is `tb`. -/
def superblock (s : Store σ) (tb : List UInt8) : List UInt8 :=
  LS_MAGIC ++ put32 LS_FMT_VERSION ++ put32 0 ++ put64 s.al.fileEnd ++ put64 s.toc.n ++
    put64 s.al.fileEnd ++ put32 (crc32Of tb).toNat ++ put32 0 ++ put64 tb.length ++
    List.replicate (LS_SUPER_SIZE - 56) 0

/-- A store with an empty table of contents on the file `os`. -/
def freshStore (o : Opts) (direct : Bool) (os : σ) : Store σ where
  os
  o
  direct
  toc := Chained.empty 64
  al := ⟨[], LS_SUPER_SIZE⟩
  teardown := false
  retired := []
  resident := 0
  lru := []
  mem _ _ := 0
  memNext := 0
  arr _ _ := ⟨0, 0⟩
  arrNext := 0

/-- The option combinations `ls_open` refuses. -/
def optsRefused (o : Opts) : Option Rc :=
  if o.mode = .mapped ∧ (o.backend ≠ .posix ∨ o.memoryBudget ≠ 0 ∨ o.directIo) then some .inval
  else if o.parallel = .shared ∧ o.memoryBudget ≠ 0 then some .inval
  else if o.backend = .hdf5 then some .backend
  else if o.exactName ∧ o.parallel = .perRank then some .inval
  else none

/-- Reading the table of contents that the superblock `sb` of a file of `fsize` bytes describes. -/
def openToc (s : Store σ) (fsize : ℕ) (sb : List UInt8) : Option (Except (Rc × σ) (Store σ)) :=
  if sb.take 8 ≠ LS_MAGIC ∨ get32 (sb.drop 8) ≠ LS_FMT_VERSION then some (.error (.corrupt, s.os))
  else
    let tocOff := get64 (sb.drop 16)
    let tocN := get64 (sb.drop 24)
    let fend := get64 (sb.drop 32)
    let crc := get32 (sb.drop 40)
    let tlen := get64 (sb.drop 48)
    if tocOff < LS_SUPER_SIZE ∨ tocOff > fsize then some (.error (.corrupt, s.os))
    else
      -- a store written before the length was recorded leaves it zero
      let tlen := if tlen = 0 then fsize - tocOff else tlen
      if tlen > fsize - tocOff then some (.error (.corrupt, s.os))
      else
        let s := { s with al := { s.al with fileEnd := fend } }
        match s.exec (lsPreadAll E s.direct E.tbAddr tlen tocOff) with
        | none => none
        | some ((rc, tb), s) =>
          if rc ≠ .ok then some (.error (rc, s.os))
          else if (crc32Of tb).toNat ≠ crc then some (.error (.corrupt, s.os))
          else
            match tocLoad tocN tb s with
            | .error rc => some (.error (rc, s.os))
            | .ok s' =>
              match rebuildFreeList s' with
              | .error rc => some (.error (rc, s'.os))
              | .ok s'' => some (.ok s'')

/-- `ls_open`. A failure leaves the file to the next attempt. -/
def lsOpen (o : Opts) (os : σ) : Option (Except (Rc × σ) (Store σ)) :=
  match optsRefused o with
  | some rc => some (.error (rc, os))
  | none =>
    match Os.openRw os o.directIo with
    | (.error e, os) => some (.error (.errno e, os))
    | (.ok direct, os) =>
      match Os.fileSize os with
      | (.error e, os) => some (.error (.errno e, os))
      | (.ok fsize, os) =>
        let s := freshStore o direct os
        if fsize ≥ LS_SUPER_SIZE then
          match s.exec (lsPreadAll E direct E.sbAddr LS_SUPER_SIZE 0) with
          | none => none
          | some ((rc, sb), s) =>
            if rc ≠ .ok then some (.error (rc, s.os)) else openToc E s fsize sb
        else if fsize > 0 then some (.error (.corrupt, os))
        else if o.parallel = .shared then some (.error (.errno .enoent, os))
        else
          match Os.ftruncate os LS_SUPER_SIZE with
          | (.error e, os) => some (.error (.errno e, os))
          | (.ok _, os) => some (.ok (freshStore o direct os))

/-- Writing the table of contents `tb` and the superblock of a store that is kept. -/
def persist (s : Store σ) (tb : List UInt8) : Option (Rc × Store σ) :=
  match s.exec (lsPwriteAll E s.direct E.tbAddr tb s.al.fileEnd) with
  | none => none
  | some ((rc, _), s) =>
    if rc ≠ .ok then some (rc, s)
    else
      match s.exec (lsPwriteAll E s.direct E.sbAddr (superblock s tb) 0) with
      | none => none
      | some ((rc, _), s) =>
        if rc ≠ .ok ∨ !s.o.durableClose then some (rc, s)
        else
          match Os.fsync s.os with
          | (.error e, os) => some (.errno e, { s with os })
          | (.ok _, os) => some (.ok, { s with os })

/-- `ls_close` after the request pool has stopped. -/
def closeStore (s : Store σ) (keep : Bool) : Option (Rc × σ) :=
  if s.o.parallel = .shared then some (.ok, s.os)
  else if keep then
    match lsSpillAll E s with
    | none => none
    | some (first, s) =>
      match persist E s (tocSerialise s) with
      | none => none
      | some (rc, s) => some (if first = .ok then rc else first, s.os)
  else some (.ok, Os.unlink s.os)

end Libspill
