import Libspill.Hdf5
import Libspill.Reach

set_option autoImplicit false

/-!
# The two backends

The same calls on a store of each backend.

* `Request`, `Request.posix`, `Request.hdf5`: the calls that both backends have, on each of them.
* `Request.ref`: the calls on the reference map. `Request.Alike`: where both backends follow it.
* `Agree`: an HDF5 file holds what the map holds.
* `Request.hdf5_spec`, `Request.posix_spec`: one call on each backend, against the map.
* **`backends_agree`**: whole sequences of calls.
* `backends_differ`: what becomes of a write of no bytes.
-/

namespace Libspill

variable {η σ : Type} {E : Env}

/-! ## The calls -/

/-- A call that both backends have. -/
inductive Request where
  | write (key : CStr) (off : ℕ) (buf : List UInt8) (addr : ℕ)
  | read (key : CStr) (off n addr : ℕ)
  | append (key : CStr) (buf : List UInt8) (addr : ℕ)
  | reserve (key : CStr) (nbytes : ℕ)
  | erase (key : CStr)
  | size (key : CStr)
  | «exists» (key : CStr)
  | readv (key : CStr) (segs : List Seg)
  | writev (key : CStr) (segs : List Seg)

namespace Request

/-- The key of a call. -/
def key : Request → CStr
  | .write key _ _ _ | .read key _ _ _ | .append key _ _ | .reserve key _ | .erase key | .size key
  | .exists key | .readv key _ | .writev key _ => key

/-- The calls that take no list of segments. -/
def op? : Request → Option Op
  | .write key off buf addr => some (.write key off buf addr)
  | .read key off n addr => some (.read key off n addr)
  | .append key buf addr => some (.append key buf addr)
  | .reserve key nbytes => some (.reserve key nbytes)
  | .erase key => some (.erase key)
  | .size key => some (.size key)
  | .exists key => some (.exists key)
  | .readv _ _ | .writev _ _ => none

/-- What a vectored call hands to the caller: the buffers, one after the other, if it succeeds. -/
def vecOut : Rc × List (List UInt8) → Out
  | (.ok, bufs) => { rc := .ok, data := bufs.flatten }
  | (rc, _) => { rc }

/-- The call on a store of the POSIX backend. -/
def posix [Os σ] (E : Env) (s : Store σ) : Request → Option (Out × Store σ)
  | .write key off buf addr => (Op.write key off buf addr).call E s
  | .read key off n addr => (Op.read key off n addr).call E s
  | .append key buf addr => (Op.append key buf addr).call E s
  | .reserve key nbytes => (Op.reserve key nbytes).call E s
  | .erase key => (Op.erase key).call E s
  | .size key => (Op.size key).call E s
  | .exists key => (Op.exists key).call E s
  | .readv key segs => (lsReadv E s key segs).map fun a => (vecOut a.1, a.2)
  | .writev key segs => (lsWritev E s key segs).map fun a => ({ rc := a.1.1 }, a.2)

end Request

/-! ## The calls on the HDF5 backend -/

section

variable [H5 η]

/-- The loop of `segv` over the segments, on this backend. -/
def segvH5Loop (key : CStr) (write : Bool) :
    List Seg → List (List UInt8) → η → (Rc × List (List UInt8)) × η
  | [], bufs, f => ((.ok, bufs), f)
  | g :: segs, bufs, f =>
    let a :=
      if write then ((((lsH5Write f key g.off g.bytes).1, []) : Rc × List UInt8), (lsH5Write f key g.off g.bytes).2)
      else lsH5Read f key g.off g.len
    if a.1.1 ≠ .ok then ((a.1.1, bufs), a.2) else segvH5Loop key write segs (bufs ++ [a.1.2]) a.2

/-- `segv`, on this backend. -/
def segvH5 (f : η) (key : CStr) (segs : List Seg) (write : Bool) : (Rc × List (List UInt8)) × η :=
  if !lsKeyOk key then ((.inval, []), f)
  else if segs.isEmpty then ((.ok, []), f)
  else
    match segvCheck segs 0 with
    | .error rc => ((rc, []), f)
    | .ok _ => segvH5Loop key write segs [] f

/-- The call on a store of the HDF5 backend, once its key has been checked. -/
def Request.serve (f : η) : Request → Out × η
  | .write key off buf _ => ({ rc := (lsH5Write f key off buf).1 }, (lsH5Write f key off buf).2)
  | .read key off n _ => (readOut (lsH5Read f key off n).1, (lsH5Read f key off n).2)
  | .append key buf _ =>
    ({ rc := (lsH5Append f key buf).1.1, num := (lsH5Append f key buf).1.2 }, (lsH5Append f key buf).2)
  | .reserve key nbytes => ({ rc := (lsH5Reserve f key nbytes).1 }, (lsH5Reserve f key nbytes).2)
  | .erase key => ({ rc := (lsH5Erase f key).1 }, (lsH5Erase f key).2)
  | .size key =>
    match h5Extent f key with
    | (.ok n, f) => ({ rc := .ok, num := n }, f)
    | (.error rc, f) => ({ rc }, f)
  | .exists key => ({ rc := .ok, num := if H5.lexists f key then 1 else 0 }, f)
  | .readv key segs => (Request.vecOut (segvH5 f key segs false).1, (segvH5 f key segs false).2)
  | .writev key segs => ({ rc := (segvH5 f key segs true).1.1 }, (segvH5 f key segs true).2)

/-- The call on a store of the HDF5 backend, which `ls_open` does not let be shared. -/
def Request.hdf5 (f : η) (c : Request) : Out × η :=
  if !lsKeyOk c.key then ({ rc := .inval }, f) else c.serve f

/-- A sequence of calls on a store of the HDF5 backend. -/
def runHdf5 : List Request → η → List Out × η
  | [], f => ([], f)
  | c :: cs, f => ((c.hdf5 f).1 :: (runHdf5 cs (c.hdf5 f).2).1, (runHdf5 cs (c.hdf5 f).2).2)

end

/-- A sequence of calls on a store of the POSIX backend. -/
def runPosix [Os σ] (E : Env) : List Request → Store σ → Option (List Out × Store σ)
  | [], s => some ([], s)
  | c :: cs, s =>
    match c.posix E s with
    | none => none
    | some (out, s) =>
      match runPosix E cs s with
      | none => none
      | some (outs, s) => some (out :: outs, s)

/-! ## The calls on the map -/

namespace Request

/-- A vectored call on the entry of its key. -/
def segvRef (key : CStr) (segs : List Seg) (write : Bool) (e : Option Entry) : Out × Option Entry :=
  if !lsKeyOk key then ({ rc := .inval }, e)
  else if segs.isEmpty then ({ rc := .ok }, e)
  else
    match segs.findSome? Seg.error with
    | some rc => ({ rc }, e)
    | none =>
      if write then ({ rc := .ok }, some ((e.getD {}).writes (segWrites segs)))
      else
        (e.elim { rc := .nokey } fun e =>
          if Entry.top (segWrites segs) > e.bytes.length then { rc := .range }
          else { rc := .ok, data := (segs.map fun g => slice e.byte g.off g.len).flatten }, e)

/-- A call on the entry of its key. -/
def apply (c : Request) (e : Option Entry) : Out × Option Entry :=
  match c with
  | .write key off buf addr => (Op.write key off buf addr).apply false e
  | .read key off n addr => (Op.read key off n addr).apply false e
  | .append key buf addr => (Op.append key buf addr).apply false e
  | .reserve key nbytes => (Op.reserve key nbytes).apply false e
  | .erase key => (Op.erase key).apply false e
  | .size key => (Op.size key).apply false e
  | .exists key => (Op.exists key).apply false e
  | .readv key segs => segvRef key segs false e
  | .writev key segs => segvRef key segs true e

/-- The segments that move bytes. -/
def moving (segs : List Seg) : List Seg := segs.filter fun g => g.len ≠ 0

/-- Where both backends follow the map; `size` is that of the record. Nothing of `0` bytes reaches where
the record does not, and no end is past the largest extent. -/
def Alike (size : Option ℕ) : Request → Prop
  | .write _ off buf _ => off + buf.length < 2 ^ 64 - 1 ∧ (buf = [] → ∃ n, size = some n ∧ off ≤ n)
  | .read _ off n _ =>
    if n = 0 then ∃ m, size = some m ∧ off ≤ m
    else off + n < 2 ^ 64 ∨ ∃ m, size = some m ∧ m < add64 off n
  | .append _ buf _ => size.getD 0 + buf.length < 2 ^ 64 - 1
  | .reserve _ nbytes => nbytes < 2 ^ 64 - 1
  | .erase _ | .size _ | .exists _ => True
  | .readv _ segs => (∀ g ∈ segs, g.error = none) → segs ≠ [] →
    (size = none → moving segs ≠ []) ∧ ∀ n, size = some n →
      Entry.top (segWrites segs) ≤ n ∨ n < Entry.top (segWrites (moving segs))
  | .writev _ segs => (∀ g ∈ segs, g.error = none) → segs ≠ [] →
    Entry.top (segWrites segs) < 2 ^ 64 - 1 ∧ (size = none → moving segs ≠ []) ∧
      Entry.top (segWrites segs) ≤ max (size.getD 0) (Entry.top (segWrites (moving segs)))

end Request

/-! ## One call on the HDF5 backend -/

section

variable [HonestH5 η] {f f' : η} {m : RefMap} {e : Option Entry} {key : CStr} {off n : ℕ} {buf : List UInt8}
  {segs : List Seg}

open HonestH5 (sets)

/-- The file holds what the map holds. -/
def Agree (f : η) (m : RefMap) : Prop := ∀ k, PlainName k → sets f k = (m.lookup k).map Entry.bytes

theorem Agree.putAt (h : Agree f m) (hname : PlainName key)
    (hput : PutAt (sets f) (sets f') key (e.map Entry.bytes)) : Agree f' (m.put key e) := by
  intro k hk
  rw [RefMap.lookup_put]
  split_ifs with hkk
  · rw [← hkk]
    exact hput.1
  · rw [hput.2 k hname hk (Ne.symm hkk)]
    exact h k hk

theorem Entry.bytes_write_congr {e₁ e₂ : Entry} (h : e₁.bytes = e₂.bytes) (off : ℕ) (buf : List UInt8) :
    (e₁.write off buf).bytes = (e₂.write off buf).bytes := by
  simp only [Entry.write, Entry.resize, h]

theorem Entry.write_nil {e : Entry} (h : off ≤ e.bytes.length) : e.write off [] = e := by
  refine Entry.ext_byte ?_ rfl ?_
  · rw [Entry.length_write, List.length_nil]
    omega
  · rw [Entry.byte_write]
    exact patch_nil _ _

theorem h5Entry_bytes (he : sets f key = e.map Entry.bytes) : (h5Entry f key).bytes = (e.getD {}).bytes := by
  unfold h5Entry
  rw [he]
  cases e <;> rfl

theorem putAt_same (he : sets f key = e.map Entry.bytes) (hs : sets f' = sets f) :
    PutAt (sets f) (sets f') key (e.map Entry.bytes) := by
  rw [hs, ← he]
  exact putAt_refl _ _

theorem lsH5Write_spec (hname : PlainName key) (he : sets f key = e.map Entry.bytes)
    (h : (Request.write key off buf 0).Alike (e.map fun e => e.bytes.length)) :
    (lsH5Write f key off buf).1 = .ok ∧
    PutAt (sets f) (sets (lsH5Write f key off buf).2) key (some ((e.getD {}).write off buf).bytes) := by
  obtain ⟨hlt, hnil⟩ := h
  rw [lsH5Write]
  by_cases h0 : buf.length = 0
  · rw [if_pos h0]
    obtain rfl := List.eq_nil_of_length_eq_zero h0
    obtain ⟨n, hn, hoff⟩ := hnil rfl
    obtain ⟨e, rfl, rfl⟩ := Option.map_eq_some_iff.mp hn
    rw [Option.getD_some, Entry.write_nil hoff]
    exact ⟨rfl, putAt_same he rfl⟩
  · rw [if_neg h0]
    have hlt' : off + buf.length < 2 ^ 64 := by omega
    obtain ⟨h1, h2⟩ := h5TransferWrite_spec hlt' f key
    have hok := h1 hname hlt
    refine ⟨hok, ?_⟩
    rw [Entry.bytes_write_congr (h5Entry_bytes he).symm]
    exact h2 hok

/-- What `ls_read` hands out, on the entry of its key. -/
theorem apply_read (hkey : lsKeyOk key = true) (off n addr : ℕ) (e : Option Entry) :
    (Request.read key off n addr).apply e =
      (if off + n ≥ 2 ^ 64 then { rc := .range }
        else e.elim { rc := .nokey } fun e => if off + n > e.bytes.length then { rc := .range }
          else { rc := .ok, data := slice e.byte off n }, e) := by
  simp only [Request.apply, Op.apply, hkey, Bool.not_true, Bool.false_eq_true, if_false]
  by_cases hge : off + n ≥ 2 ^ 64
  · rw [if_pos hge, if_pos hge]
  · rw [if_neg hge, if_neg hge]
    cases e with
    | none => rfl
    | some e =>
      dsimp only [Option.elim_some]
      by_cases hgt : off + n > e.bytes.length
      · rw [if_pos hgt, if_pos hgt]
      · rw [if_neg hgt, if_neg hgt, Entry.slice_byte (Nat.not_lt.mp hgt)]

theorem lsH5Read_spec (he : sets f key = e.map Entry.bytes) (hkey : lsKeyOk key = true) {addr : ℕ}
    (h : (Request.read key off n addr).Alike (e.map fun e => e.bytes.length)) :
    readOut (lsH5Read f key off n).1 = ((Request.read key off n addr).apply e).1 ∧
    sets (lsH5Read f key off n).2 = sets f := by
  rw [apply_read hkey, lsH5Read]
  rw [Request.Alike] at h
  by_cases h0 : n = 0
  · subst h0
    rw [if_pos rfl] at h
    obtain ⟨m, hm, hoff⟩ := h
    obtain ⟨e, rfl, rfl⟩ := Option.map_eq_some_iff.mp hm
    have hlen := HonestH5.length_lt f key _ he
    rw [if_pos rfl, if_neg (by omega), Option.elim_some, if_neg (by omega), slice_zero]
    exact ⟨rfl, rfl⟩
  rw [if_neg h0] at h ⊢
  obtain ⟨h1, h2, h3⟩ := h5TransferRead_spec f key off h0
  refine ⟨?_, h1⟩
  cases e with
  | none =>
    have hlt : off + n < 2 ^ 64 := h.resolve_right fun ⟨m, hm, _⟩ => (by cases hm)
    have hrc := h2 he
    rw [if_neg (by omega)]
    generalize h5TransferRead f key off n = a at hrc ⊢
    obtain ⟨⟨rc, b⟩, f₁⟩ := a
    dsimp only at hrc
    subst hrc
    rfl
  | some e =>
    obtain ⟨h4, h5, -⟩ := h3 e.bytes he
    have hlen := HonestH5.length_lt f key _ he
    by_cases hle : off + n ≤ e.bytes.length
    · rw [h4 hle, if_neg (by omega), Option.elim_some, if_neg (by omega), Entry.slice_byte hle]
      rfl
    · have hpast : e.bytes.length < add64 off n := by
        rcases h with hlt | ⟨m, hm, hlt⟩
        · rw [add64_eq hlt]
          omega
        · cases hm
          exact hlt
      have hrc := h5 hpast
      have hout : (if off + n ≥ 2 ^ 64 then ({ rc := .range } : Out)
          else (some e).elim { rc := .nokey } fun e => if off + n > e.bytes.length then { rc := .range }
            else { rc := .ok, data := slice e.byte off n }) = { rc := .range } := by
        rw [Option.elim_some, if_pos (Nat.not_le.mp hle)]
        split_ifs <;> rfl
      rw [hout]
      generalize h5TransferRead f key off n = a at hrc ⊢
      obtain ⟨⟨rc, b⟩, f₁⟩ := a
      dsimp only at hrc
      subst hrc
      rfl

/-- A dataset that is measured. -/
theorem h5Extent_spec (hname : PlainName key) (f : η) :
    (h5Extent f key).1 = (sets f key).elim (.error .nokey) (fun b => .ok b.length) ∧
    sets (h5Extent f key).2 = sets f := by
  rw [h5Extent, HonestH5.lexists_eq f key hname]
  cases hb : sets f key with
  | none => exact ⟨rfl, rfl⟩
  | some b =>
    rw [Option.isSome_some, if_neg (by decide)]
    obtain ⟨d, h1, h2⟩ := HonestH5.dopen_some f key b hb
    have h3 := HonestH5.dopen_sets f key
    generalize H5.dopen f key = a at h1 h2 h3 ⊢
    obtain ⟨a, f₁⟩ := a
    dsimp only at h1 h2 h3
    subst h1
    dsimp only
    rw [HonestH5.dims_eq f₁ d key b h2 (by rw [h3, hb]), HonestH5.dclose_sets, h3]
    exact ⟨rfl, rfl⟩

theorem lsH5Append_spec (hname : PlainName key) (he : sets f key = e.map Entry.bytes)
    (h : (e.map fun e => e.bytes.length).getD 0 + buf.length < 2 ^ 64 - 1) :
    (lsH5Append f key buf).1 = (.ok, (e.getD {}).bytes.length) ∧
    PutAt (sets f) (sets (lsH5Append f key buf).2) key
      (some ((e.getD {}).write (e.getD {}).bytes.length buf).bytes) := by
  have hat : ∃ f₁ : η, sets f₁ = sets f ∧ (if H5.lexists f key then h5Extent f key else (.ok 0, f)) =
      (.ok (e.getD {}).bytes.length, f₁) := by
    obtain ⟨h1, h2⟩ := h5Extent_spec hname f
    rw [HonestH5.lexists_eq f key hname]
    rw [he] at h1 ⊢
    cases e with
    | none => exact ⟨f, rfl, rfl⟩
    | some e => exact ⟨(h5Extent f key).2, h2, Prod.ext h1 rfl⟩
  obtain ⟨f₁, h1, h2⟩ := hat
  have hlen : (e.map fun e => e.bytes.length).getD 0 = (e.getD {}).bytes.length := by
    cases e <;> rfl
  have hlt : (e.getD {}).bytes.length + buf.length < 2 ^ 64 := by omega
  obtain ⟨h3, h4⟩ := h5TransferWrite_spec hlt f₁ key
  have hok := h3 hname (by omega)
  have hput := h4 hok
  rw [Entry.bytes_write_congr (h5Entry_bytes (h1 ▸ he)), h1] at hput
  rw [lsH5Append, h2]
  dsimp only
  generalize h5TransferWrite f₁ key (e.getD {}).bytes.length buf = a at hok hput ⊢
  obtain ⟨rc, f₂⟩ := a
  dsimp only at hok hput
  subst hok
  exact ⟨rfl, hput⟩

theorem lsH5Reserve_spec (hname : PlainName key) (he : sets f key = e.map Entry.bytes)
    (hn : n < 2 ^ 64 - 1) : (lsH5Reserve f key n).1 = .ok ∧
    PutAt (sets f) (sets (lsH5Reserve f key n).2) key (some ((e.getD {}).resize n).bytes) := by
  obtain ⟨h1, h2⟩ := h5OpenOrCreate_write f key n
  have h3 := h1 hname hn
  rw [lsH5Reserve]
  generalize h5OpenOrCreate f key n true = a at h2 h3 ⊢
  obtain ⟨a, f₁⟩ := a
  cases a with
  | none => exact absurd rfl h3
  | some d =>
    refine ⟨rfl, ?_⟩
    have hput := (h2 d rfl).2
    dsimp only at hput ⊢
    rw [HonestH5.dclose_sets]
    have hbytes : (sets f key).getD [] = (e.getD {}).bytes := by
      rw [he]
      cases e <;> rfl
    rw [hbytes] at hput
    exact hput

theorem lsH5Erase_spec (hname : PlainName key) (he : sets f key = e.map Entry.bytes) :
    (lsH5Erase f key).1 = (if e.isSome then .ok else .nokey) ∧
    PutAt (sets f) (sets (lsH5Erase f key).2) key none := by
  rw [lsH5Erase, HonestH5.lexists_eq f key hname, he]
  cases e with
  | none => exact ⟨rfl, putAt_same (e := none) he rfl⟩
  | some e =>
    obtain ⟨h1, h2⟩ := HonestH5.ldelete_ok f key e.bytes hname he
    rw [Option.map_some, Option.isSome_some, if_neg (by decide)]
    generalize H5.ldelete f key = a at h1 h2 ⊢
    obtain ⟨ok, f₁⟩ := a
    dsimp only at h1 h2
    subst h1
    exact ⟨rfl, h2⟩

/-! ## Vectored calls on the HDF5 backend -/

theorem lsH5Read_rc (f : η) (key : CStr) (hlt : off + n < 2 ^ 64) : (lsH5Read f key off n).1.1 =
    if n = 0 then .ok else (sets f key).elim .nokey fun b => if off + n ≤ b.length then .ok else .range := by
  rw [lsH5Read]
  by_cases h0 : n = 0
  · rw [if_pos h0, if_pos h0]
  rw [if_neg h0, if_neg h0]
  obtain ⟨-, h2, h3⟩ := h5TransferRead_spec f key off h0
  cases hb : sets f key with
  | none => exact h2 hb
  | some b =>
    obtain ⟨h4, h5, -⟩ := h3 b hb
    rw [Option.elim_some]
    split_ifs with hle
    · rw [h4 hle]
    · exact h5 (by rw [add64_eq hlt]; omega)

/-- A read of bytes that are there, or of none. -/
theorem lsH5Read_in (h : n ≠ 0 → ∃ b, sets f key = some b ∧ off + n ≤ b.length) :
    (lsH5Read f key off n).1 = (.ok, slice (h5Entry f key).byte off n) ∧
    sets (lsH5Read f key off n).2 = sets f := by
  rw [lsH5Read]
  by_cases h0 : n = 0
  · rw [if_pos h0, h0, slice_zero]
    exact ⟨rfl, rfl⟩
  rw [if_neg h0]
  obtain ⟨b, hb, hle⟩ := h h0
  obtain ⟨h1, -, h3⟩ := h5TransferRead_spec f key off h0
  refine ⟨?_, h1⟩
  rw [(h3 b hb).1 hle, h5Entry, hb, Option.getD_some, Entry.slice_byte hle]

/-- The loop of `ls_readv` over segments that are there: by induction on the segments. -/
theorem segvH5Loop_read (f : η) (bufs : List (List UInt8))
    (hin : ∀ g ∈ segs, g.len ≠ 0 → ∃ b, sets f key = some b ∧ g.off + g.len ≤ b.length) :
    (segvH5Loop key false segs bufs f).1 =
      (.ok, bufs ++ segs.map fun g => slice (h5Entry f key).byte g.off g.len) ∧
    sets (segvH5Loop key false segs bufs f).2 = sets f := by
  induction segs generalizing f bufs with
  | nil =>
    rw [List.map_nil, List.append_nil]
    exact ⟨rfl, rfl⟩
  | cons g segs ih =>
    obtain ⟨h1, h2⟩ := lsH5Read_in (hin g List.mem_cons_self)
    rw [segvH5Loop]
    rw [if_neg Bool.false_ne_true, h1, if_neg (fun h => h rfl)]
    obtain ⟨h3, h4⟩ := ih (lsH5Read f key g.off g.len).2 (bufs ++ [slice (h5Entry f key).byte g.off g.len])
      (fun g hg h0 => by rw [h2]; exact hin g (List.mem_cons_of_mem _ hg) h0)
    have hentry : h5Entry (lsH5Read f key g.off g.len).2 key = h5Entry f key := by
      rw [h5Entry, h5Entry, h2]
    rw [h3, h4, h2, hentry, List.append_assoc]
    exact ⟨rfl, rfl⟩

/-- The loop over segments of which one is refused: by induction on the segments. -/
theorem segvH5Loop_refused {rc : Rc} (hrc : rc ≠ .ok) (f : η) (bufs : List (List UInt8))
    (hok : ∀ g ∈ segs, g.error = none)
    (hall : ∀ g ∈ segs, g.len ≠ 0 →
      ((sets f key).elim .nokey fun b => if g.off + g.len ≤ b.length then .ok else .range) = Rc.ok ∨
      ((sets f key).elim .nokey fun b => if g.off + g.len ≤ b.length then .ok else .range) = rc)
    (hex : ∃ g ∈ segs, g.len ≠ 0 ∧
      ((sets f key).elim .nokey fun b => if g.off + g.len ≤ b.length then .ok else .range) = rc) :
    (segvH5Loop key false segs bufs f).1.1 = rc ∧ sets (segvH5Loop key false segs bufs f).2 = sets f := by
  induction segs generalizing f bufs with
  | nil =>
    obtain ⟨g, hg, -⟩ := hex
    cases hg
  | cons g segs ih =>
    have h1 := lsH5Read_rc f key (Seg.fin_lt (hok g List.mem_cons_self))
    have h2 : sets (lsH5Read f key g.off g.len).2 = sets f := by
      rw [lsH5Read]
      split_ifs with h0
      · rfl
      · exact (h5TransferRead_spec f key g.off h0).1
    rw [segvH5Loop]
    rw [if_neg Bool.false_ne_true]
    by_cases hg : (lsH5Read f key g.off g.len).1.1 = .ok
    · rw [if_neg (not_not.mpr hg)]
      have hih := ih (lsH5Read f key g.off g.len).2 (bufs ++ [(lsH5Read f key g.off g.len).1.2])
        (fun g hg => hok g (List.mem_cons_of_mem _ hg))
        (fun g hg h0 => by rw [h2]; exact hall g (List.mem_cons_of_mem _ hg) h0) (by
          rw [h2]
          obtain ⟨g', hg', h3, h4⟩ := hex
          rcases List.mem_cons.mp hg' with rfl | hm
          · rw [h1, if_neg h3, h4] at hg
            exact absurd hg hrc
          · exact ⟨g', hm, h3, h4⟩)
      rw [h2] at hih
      exact hih
    · rw [if_pos hg]
      refine ⟨?_, h2⟩
      by_cases h0 : g.len = 0
      · rw [h1, if_pos h0] at hg
        exact absurd rfl hg
      · rw [h1, if_neg h0] at hg ⊢
        exact (hall g List.mem_cons_self h0).resolve_left hg

/-- The loop of `ls_writev`: by induction on the segments. Those of no bytes are passed over. -/
theorem segvH5Loop_write (hname : PlainName key) (f : η) (bufs : List (List UInt8))
    (hok : ∀ g ∈ segs, g.error = none) (hlt : Entry.top (segWrites segs) < 2 ^ 64 - 1) :
    (segvH5Loop key true segs bufs f).1.1 = .ok ∧
    (Request.moving segs = [] → sets (segvH5Loop key true segs bufs f).2 = sets f) ∧
    (Request.moving segs ≠ [] → PutAt (sets f) (sets (segvH5Loop key true segs bufs f).2) key
      (some ((h5Entry f key).writes (segWrites (Request.moving segs))).bytes)) := by
  induction segs generalizing f bufs with
  | nil => exact ⟨rfl, fun _ => rfl, fun h => absurd rfl h⟩
  | cons g segs ih =>
    have hlen := Seg.length_bytes (hok g List.mem_cons_self)
    have hcons : segWrites (g :: segs) = (g.off, g.bytes) :: segWrites segs := rfl
    rw [hcons, Entry.top, hlen] at hlt
    dsimp only at hlt
    have hok' : ∀ g ∈ segs, g.error = none := fun g hg => hok g (List.mem_cons_of_mem _ hg)
    have hlt' : Entry.top (segWrites segs) < 2 ^ 64 - 1 := by omega
    rw [segvH5Loop]
    rw [if_pos rfl]
    by_cases h0 : g.len = 0
    · have hmove : Request.moving (g :: segs) = Request.moving segs := by
        rw [Request.moving, List.filter_cons, if_neg (by simp [h0])]
        rfl
      have hw : lsH5Write f key g.off g.bytes = (.ok, f) := by
        rw [lsH5Write, if_pos (by omega)]
      rw [hw, hmove, if_neg (fun h => h rfl)]
      exact ih f _ hok' hlt'
    · have hmove : Request.moving (g :: segs) = g :: Request.moving segs := by
        rw [Request.moving, List.filter_cons, if_pos (by simp [h0])]
        rfl
      have hw : lsH5Write f key g.off g.bytes = h5TransferWrite f key g.off g.bytes := by
        rw [lsH5Write, if_neg (by omega)]
      have hgl : g.off + g.bytes.length < 2 ^ 64 := by omega
      obtain ⟨h1, h2⟩ := h5TransferWrite_spec hgl f key
      rw [← hw] at h1 h2
      have hrc := h1 hname (by omega)
      have hput := h2 hrc
      generalize lsH5Write f key g.off g.bytes = a at hrc hput ⊢
      obtain ⟨rc, f₁⟩ := a
      dsimp only at hrc hput ⊢
      subst hrc
      rw [if_neg (fun h => h rfl), hmove]
      obtain ⟨h3, h4, h5⟩ := ih f₁ (bufs ++ [[]]) hok' hlt'
      refine ⟨h3, fun h => absurd h (List.cons_ne_nil _ _), fun _ => ?_⟩
      have hentry : h5Entry f₁ key = (h5Entry f key).write g.off g.bytes := by
        rw [h5Entry, hput.1]
        rfl
      have hwrites : (h5Entry f key).writes (segWrites (g :: Request.moving segs)) =
          (h5Entry f₁ key).writes (segWrites (Request.moving segs)) := by
        rw [hentry]
        rfl
      rw [hwrites]
      by_cases hnil : Request.moving segs = []
      · rw [h4 hnil, hnil, hentry]
        exact hput
      · exact hput.trans (h5 hnil)

theorem exists_of_lt_top {l : List Seg} (h : n < Entry.top (segWrites l)) :
    ∃ g ∈ l, n < g.off + g.bytes.length := by
  induction l with
  | nil => exact absurd h (Nat.not_lt_zero n)
  | cons g l ih =>
    rcases lt_max_iff.mp h with hg | hl
    · exact ⟨g, List.mem_cons_self, hg⟩
    · obtain ⟨g', hg', hlt⟩ := ih hl
      exact ⟨g', List.mem_cons_of_mem _ hg', hlt⟩

theorem le_top_of_mem {l : List Seg} {g : Seg} (h : g ∈ l) :
    g.off + g.bytes.length ≤ Entry.top (segWrites l) := by
  induction l with
  | nil => cases h
  | cons g' l ih =>
    rcases List.mem_cons.mp h with rfl | hm
    · exact le_max_left _ _
    · exact (ih hm).trans (le_max_right _ _)

theorem Entry.bytes_writes_congr {e₁ e₂ : Entry} (h : e₁.bytes = e₂.bytes) (l : List (ℕ × List UInt8)) :
    (e₁.writes l).bytes = (e₂.writes l).bytes := by
  induction l generalizing e₁ e₂ with
  | nil => exact h
  | cons g l ih => exact ih (Entry.bytes_write_congr h g.1 g.2)

theorem top_moving_le (segs : List Seg) :
    Entry.top (segWrites (Request.moving segs)) ≤ Entry.top (segWrites segs) := by
  induction segs with
  | nil => exact Nat.le_refl _
  | cons g segs ih =>
    have hcons : ∀ l : List Seg, Entry.top (segWrites (g :: l)) =
        max (g.off + g.bytes.length) (Entry.top (segWrites l)) := fun _ => rfl
    rw [Request.moving, List.filter_cons]
    split_ifs
    · rw [hcons, hcons]
      exact max_le_max_left _ ih
    · rw [hcons]
      exact ih.trans (le_max_right _ _)

/-- Segments of no bytes write nothing, where the record reaches. -/
theorem writes_moving (hok : ∀ g ∈ segs, g.error = none) {e : Entry}
    (htop : Entry.top (segWrites segs) ≤
      max e.bytes.length (Entry.top (segWrites (Request.moving segs)))) :
    e.writes (segWrites (Request.moving segs)) = e.writes (segWrites segs) := by
  have hle := top_moving_le segs
  refine Entry.ext_byte ?_ (by rw [Entry.writes_attr, Entry.writes_attr]) ?_
  · rw [Entry.length_writes, Entry.length_writes]
    omega
  rw [Entry.byte_writes, Entry.byte_writes]
  clear htop hle
  generalize e.byte = b
  induction segs generalizing b with
  | nil => rfl
  | cons g segs ih =>
    have hlen := Seg.length_bytes (hok g List.mem_cons_self)
    have hih := fun b => ih (fun g hg => hok g (List.mem_cons_of_mem _ hg)) b
    have hcons : segWrites (g :: segs) = (g.off, g.bytes) :: segWrites segs := rfl
    rw [hcons, List.foldl_cons, ← hih, Request.moving, List.filter_cons]
    split_ifs with h0
    · rfl
    · have hnil : g.bytes = [] := List.eq_nil_of_length_eq_zero (by simpa [hlen] using h0)
      rw [hnil, patch_nil]
      rfl

namespace Request

theorem segvH5_ok (hkey : lsKeyOk key = true) (hok : ∀ g ∈ segs, g.error = none) (hne : segs ≠ [])
    (f : η) (write : Bool) : segvH5 f key segs write = segvH5Loop key write segs [] f := by
  have hcheck := segvCheck_ok hok 0
  have hemp : segs.isEmpty = false := by simpa using hne
  rw [segvH5, if_neg (by simp [hkey]), hemp, if_neg (by decide), hcheck]

/-- A vectored call that is over before a segment is moved. -/
theorem segv_over (hkey : lsKeyOk key = true) (h64 : Segs64 segs)
    (h : segs = [] ∨ ∃ rc, segs.findSome? Seg.error = some rc) (f : η) (write : Bool) (e : Option Entry) :
    ∃ rc, segvH5 f key segs write = ((rc, []), f) ∧ segvRef key segs write e = ({ rc }, e) := by
  rw [segvH5, segvRef]
  simp only [hkey, Bool.not_true, Bool.false_eq_true, if_false]
  rcases h with rfl | ⟨rc, hrc⟩
  · exact ⟨.ok, rfl, rfl⟩
  · have hemp : segs.isEmpty = false := by
      cases segs with
      | nil => cases hrc
      | cons => rfl
    rw [hemp, if_neg (by decide), if_neg (by decide), segvCheck_error h64 hrc 0, hrc]
    exact ⟨rc, rfl, rfl⟩

theorem segvRef_ok (hkey : lsKeyOk key = true) (hok : ∀ g ∈ segs, g.error = none) (hne : segs ≠ [])
    (write : Bool) (e : Option Entry) : segvRef key segs write e =
      if write then ({ rc := .ok }, some ((e.getD {}).writes (segWrites segs)))
      else (e.elim { rc := .nokey } fun e =>
        if Entry.top (segWrites segs) > e.bytes.length then { rc := .range }
        else { rc := .ok, data := (segs.map fun g => slice e.byte g.off g.len).flatten }, e) := by
  have hnone : segs.findSome? Seg.error = none := List.findSome?_eq_none_iff.mpr hok
  have hemp : segs.isEmpty = false := by simpa using hne
  rw [segvRef, if_neg (by simp [hkey]), hemp, if_neg (by decide), hnone]

/-- **`ls_readv`** follows the map. -/
theorem segvH5_read (hkey : lsKeyOk key = true) (he : sets f key = e.map Entry.bytes)
    (h64 : Segs64 segs) (h : (Request.readv key segs).Alike (e.map fun e => e.bytes.length)) :
    vecOut (segvH5 f key segs false).1 = (segvRef key segs false e).1 ∧
    (segvRef key segs false e).2 = e ∧ sets (segvH5 f key segs false).2 = sets f := by
  by_cases hover : segs = [] ∨ ∃ rc, segs.findSome? Seg.error = some rc
  · obtain ⟨rc, h1, h2⟩ := segv_over hkey h64 hover f false e
    rw [h1, h2]
    refine ⟨?_, rfl, rfl⟩
    cases rc <;> rfl
  obtain ⟨hne, herr⟩ := not_or.mp hover
  have hok := (segs_error_or segs).resolve_right herr
  obtain ⟨habs, hpres⟩ := h hok hne
  rw [segvH5_ok hkey hok hne, segvRef_ok hkey hok hne, if_neg Bool.false_ne_true]
  have hrefused : ∀ rc, rc ≠ .ok →
      (∀ g ∈ segs, g.len ≠ 0 →
        ((sets f key).elim .nokey fun b => if g.off + g.len ≤ b.length then .ok else .range) = Rc.ok ∨
        ((sets f key).elim .nokey fun b => if g.off + g.len ≤ b.length then .ok else .range) = rc) →
      (∃ g ∈ segs, g.len ≠ 0 ∧
        ((sets f key).elim .nokey fun b => if g.off + g.len ≤ b.length then .ok else .range) = rc) →
      vecOut (segvH5Loop key false segs [] f).1 = { rc } ∧
      sets (segvH5Loop key false segs [] f).2 = sets f := by
    intro rc hrc hall hex
    obtain ⟨h1, h2⟩ := segvH5Loop_refused hrc f [] hok hall hex
    refine ⟨?_, h2⟩
    generalize segvH5Loop key false segs [] f = a at h1 ⊢
    obtain ⟨⟨rc', bufs⟩, f'⟩ := a
    dsimp only at h1 ⊢
    subst h1
    cases rc' with
    | ok => exact absurd rfl hrc
    | _ => rfl
  cases e with
  | none =>
    obtain ⟨g, hg⟩ := List.exists_mem_of_ne_nil _ (habs rfl)
    obtain ⟨hg, h0⟩ := List.mem_filter.mp hg
    obtain ⟨h1, h2⟩ := hrefused .nokey (by decide) (fun _ _ _ => Or.inr (by rw [he]; rfl))
      ⟨g, hg, by simpa using h0, by rw [he]; rfl⟩
    exact ⟨h1, rfl, h2⟩
  | some e =>
    rw [Option.elim_some]
    by_cases htop : Entry.top (segWrites segs) ≤ e.bytes.length
    · rw [if_neg (Nat.not_lt.mpr htop)]
      have hends : ∀ g ∈ segs, g.off + g.len ≤ e.bytes.length := by
        intro g hg
        by_contra hlt
        have hlen := Seg.length_bytes (hok g hg)
        exact absurd (le_top_of_mem hg) (by omega)
      obtain ⟨h1, h2⟩ := segvH5Loop_read f [] fun g hg _ => ⟨e.bytes, he, hends g hg⟩
      have hbyte : (h5Entry f key).byte = e.byte := by
        unfold Entry.byte
        rw [h5Entry_bytes he]
        rfl
      rw [h1, h2, hbyte]
      exact ⟨rfl, rfl, rfl⟩
    · have hmove := (hpres _ rfl).resolve_left htop
      rw [if_pos (Nat.not_le.mp htop)]
      obtain ⟨g, hg, hlt⟩ := exists_of_lt_top hmove
      obtain ⟨hg, h0⟩ := List.mem_filter.mp hg
      rw [Seg.length_bytes (hok g hg)] at hlt
      obtain ⟨h1, h2⟩ := hrefused .range (by decide) (fun g _ _ => by
          rw [he, Option.map_some, Option.elim_some]
          split_ifs
          · exact Or.inl rfl
          · exact Or.inr rfl)
        ⟨g, hg, by simpa using h0, by
          rw [he, Option.map_some, Option.elim_some]
          exact if_neg (Nat.not_le.mpr hlt)⟩
      exact ⟨h1, rfl, h2⟩

/-- **`ls_writev`** follows the map. -/
theorem segvH5_write (hname : PlainName key) (hkey : lsKeyOk key = true)
    (he : sets f key = e.map Entry.bytes)
    (h64 : Segs64 segs) (h : (Request.writev key segs).Alike (e.map fun e => e.bytes.length)) :
    { rc := (segvH5 f key segs true).1.1 } = (segvRef key segs true e).1 ∧
    PutAt (sets f) (sets (segvH5 f key segs true).2) key ((segvRef key segs true e).2.map Entry.bytes) := by
  by_cases hover : segs = [] ∨ ∃ rc, segs.findSome? Seg.error = some rc
  · obtain ⟨rc, h1, h2⟩ := segv_over hkey h64 hover f true e
    rw [h1, h2]
    exact ⟨rfl, putAt_same he rfl⟩
  obtain ⟨hne, herr⟩ := not_or.mp hover
  have hok := (segs_error_or segs).resolve_right herr
  obtain ⟨hlt, habs, htop⟩ := h hok hne
  rw [segvH5_ok hkey hok hne, segvRef_ok hkey hok hne, if_pos rfl]
  obtain ⟨h1, h2, h3⟩ := segvH5Loop_write hname f [] hok hlt
  rw [h1]
  refine ⟨rfl, ?_⟩
  have hbytes : ((h5Entry f key).writes (segWrites (moving segs))).bytes =
      ((e.getD {}).writes (segWrites segs)).bytes := by
    have hsize : (e.map fun e => e.bytes.length).getD 0 = (e.getD {}).bytes.length := by
      cases e <;> rfl
    rw [Entry.bytes_writes_congr (h5Entry_bytes he), writes_moving hok (by rw [← hsize]; exact htop)]
  by_cases hnil : moving segs = []
  · cases e with
    | none => exact absurd hnil (habs rfl)
    | some e =>
      rw [Option.map_some, ← hbytes, hnil]
      have hsame : ((h5Entry f key).writes (segWrites [])).bytes = e.bytes := h5Entry_bytes he
      rw [hsame]
      exact putAt_same (e := some e) he (h2 hnil)
  · have hput := h3 hnil
    rw [hbytes] at hput
    exact hput

theorem apply_badKey {c : Request} (hkey : lsKeyOk c.key = false) (e : Option Entry) :
    c.apply e = ({ rc := .inval }, e) := by
  cases c <;> simp only [key] at hkey <;> simp [apply, Op.apply, segvRef, hkey]

/-- The segments of a call have 64-bit arguments. -/
def Args64 : Request → Prop
  | .write _ off buf _ => off < 2 ^ 64 ∧ buf.length < 2 ^ 64
  | .read _ off n _ => off < 2 ^ 64 ∧ n < 2 ^ 64
  | .append _ buf _ => buf.length < 2 ^ 64
  | .reserve _ nbytes => nbytes < 2 ^ 64
  | .readv _ segs | .writev _ segs => Segs64 segs
  | _ => True

/-- **A call on the HDF5 backend** follows the map, where both backends do. -/
theorem hdf5_spec {c : Request} (hname : PlainName c.key) (h64 : c.Args64)
    (he : sets f c.key = e.map Entry.bytes)
    (h : lsKeyOk c.key = true → c.Alike (e.map fun e => e.bytes.length)) :
    (c.hdf5 f).1 = (c.apply e).1 ∧
    PutAt (sets f) (sets (c.hdf5 f).2) c.key ((c.apply e).2.map Entry.bytes) := by
  cases hkey : lsKeyOk c.key with
  | false =>
    rw [hdf5, if_pos (by simp [hkey]), apply_badKey hkey]
    exact ⟨rfl, putAt_same he rfl⟩
  | true =>
  replace h := h hkey
  rw [hdf5, if_neg (by simp [hkey])]
  cases c <;> simp only [Request.key] at hname he hkey ⊢
  case write key off buf addr =>
    obtain ⟨h1, h2⟩ := lsH5Write_spec hname he h
    have hlt := h.1
    have happ : (Request.write key off buf addr).apply e =
        ({ rc := .ok }, some ((e.getD {}).write off buf)) := by
      simp only [apply, Op.apply, hkey, Bool.not_true, Bool.false_eq_true, if_false, Bool.false_and,
        if_neg (show ¬ off + buf.length ≥ 2 ^ 64 by omega)]
    rw [happ, serve, h1]
    exact ⟨rfl, h2⟩
  case read key off n addr =>
    obtain ⟨h1, h2⟩ := lsH5Read_spec he hkey h
    refine ⟨h1, ?_⟩
    rw [apply_read hkey]
    exact putAt_same he h2
  case append key buf addr =>
    obtain ⟨h1, h2⟩ := lsH5Append_spec hname he h
    have hsize : (e.map fun e => e.bytes.length).getD 0 = (e.getD {}).bytes.length := by
      cases e <;> rfl
    rw [Alike, hsize] at h
    have happ : (Request.append key buf addr).apply e = ({ rc := .ok, num := (e.getD {}).bytes.length },
        some ((e.getD {}).write (e.getD {}).bytes.length buf)) := by
      simp only [apply, Op.apply, hkey, Bool.not_true, Bool.false_eq_true, if_false,
        if_neg (show ¬ (e.getD {}).bytes.length + buf.length ≥ 2 ^ 64 by omega)]
    rw [happ, serve, h1]
    exact ⟨rfl, h2⟩
  case reserve key nbytes =>
    obtain ⟨h1, h2⟩ := lsH5Reserve_spec hname he h
    have happ : (Request.reserve key nbytes).apply e = ({ rc := .ok }, some ((e.getD {}).resize nbytes)) := by
      simp only [apply, Op.apply, hkey, Bool.not_true, Bool.false_eq_true, if_false]
    rw [happ, serve, h1]
    exact ⟨rfl, h2⟩
  case erase key =>
    obtain ⟨h1, h2⟩ := lsH5Erase_spec hname he
    have happ : (Request.erase key).apply e = ({ rc := if e.isSome then .ok else .nokey }, none) := by
      simp only [apply, Op.apply, hkey, Bool.not_true, Bool.false_eq_true, if_false]
      cases e <;> rfl
    rw [happ, serve, h1]
    exact ⟨rfl, h2⟩
  case size key =>
    obtain ⟨h1, h2⟩ := h5Extent_spec hname f
    have happ : (Request.size key).apply e =
        (e.elim { rc := .nokey } fun e => { rc := .ok, num := e.bytes.length }, e) := by
      simp only [apply, Op.apply, hkey, Bool.not_true, Bool.false_eq_true, if_false]
      cases e <;> rfl
    rw [happ, serve]
    generalize h5Extent f key = a at h1 h2 ⊢
    obtain ⟨a, f₁⟩ := a
    dsimp only at h1 h2
    subst h1
    rw [he]
    cases e with
    | none => exact ⟨rfl, putAt_same (e := none) he h2⟩
    | some e => exact ⟨rfl, putAt_same (e := some e) he h2⟩
  case «exists» key =>
    have happ : (Request.exists key).apply e = ({ rc := .ok, num := if e.isSome then 1 else 0 }, e) := by
      simp only [apply, Op.apply, hkey, Bool.not_true, Bool.false_eq_true, if_false]
    rw [happ, serve, HonestH5.lexists_eq f key hname, he, Option.isSome_map]
    exact ⟨rfl, putAt_same he rfl⟩
  case readv key segs =>
    obtain ⟨h1, h2, h3⟩ := segvH5_read hkey he h64 h
    refine ⟨h1, ?_⟩
    rw [apply, h2]
    exact putAt_same he h3
  case writev key segs =>
    exact segvH5_write hname hkey he h64 h

end Request

end

/-! ## One call on the POSIX backend -/

section

variable [HonestOs σ] {s s' : Store σ} {key : CStr} {segs : List Seg}

open HonestOs (clean file)

namespace Request

/-- The arguments are 64-bit numbers, and where the call asks for capacity no tail wraps. -/
def Fits (E : Env) (s : Store σ) (c : Request) : Prop :=
  c.Args64 ∧ (∀ op, c.op? = some op → op.Fits E s) ∧
    ∀ key segs, c = .writev key segs → RoomFits E s key (Entry.top (segWrites segs))

/-- What a call does to the map. -/
structure Follows (c : Request) (s : Store σ) (out : Out) (s' : Store σ) : Prop where
  next : Next s s'
  map : clean s'.os → out = (c.apply (s.map.lookup c.key)).1 ∧
    s'.map = s.map.put c.key (c.apply (s.map.lookup c.key)).2

/-- A call that takes no segments. -/
theorem posix_op (hF : 2 ^ 64 ≤ E.fuel) (h : Settled s) (hsh : s.shared = false) {c : Request} {op : Op}
    (hkey : op.key? = some c.key) (happ : c.apply = op.apply false) (hfit : op.Fits E s) :
    ∃ out s', op.call E s = some (out, s') ∧ c.Follows s out s' := by
  obtain ⟨out, s', h1, h2⟩ := call_spec hF h.sound hfit
  have hs := h.called hF hfit h1
  refine ⟨out, s', h1, ⟨hs, h2.opts, h2.clean⟩, fun hc => ?_⟩
  obtain ⟨e1, e2⟩ := h2.map (Or.inl hc) h.slack s.map (abs_map h.sound.laid.records h.slack)
  rw [refStep_of_key hkey, hsh, ← happ] at e1 e2
  exact ⟨e1, (abs_unique hs.sound.laid.records e2).symm⟩

/-- A call that changes nothing. -/
theorem follows_same (h : Settled s) {c : Request} {out : Out}
    (happ : c.apply (s.map.lookup c.key) = (out, s.map.lookup c.key)) : c.Follows s out s := by
  refine ⟨.refl h, fun _ => ?_⟩
  rw [happ, RefMap.put_lookup]
  exact ⟨rfl, rfl⟩

/-- A vectored call that is over before a segment is moved. -/
theorem posix_over (h64 : Segs64 segs) (write : Bool) (e : Option Entry)
    (h : lsKeyOk key = false ∨ segs = [] ∨ ∃ rc, segs.findSome? Seg.error = some rc) :
    ∃ rc, segv E s key segs write = some ((rc, []), s) ∧ segvRef key segs write e = ({ rc }, e) := by
  cases hkey : lsKeyOk key with
  | false => exact ⟨.inval, segv_badKey hkey write, by rw [segvRef, if_pos (by simp [hkey])]⟩
  | true =>
    rw [segvRef, if_neg (by simp [hkey])]
    rcases h with hbad | rfl | ⟨rc, hrc⟩
    · rw [hkey] at hbad
      cases hbad
    · exact ⟨.ok, by rw [segv, if_neg (by simp [hkey]), List.isEmpty_nil, if_pos rfl], rfl⟩
    · have hemp : segs.isEmpty = false := by
        cases segs with
        | nil => cases hrc
        | cons => rfl
      exact ⟨rc, segv_error h64 hkey hrc write, by rw [hemp, if_neg (by decide), hrc]⟩

theorem posix_readv (hF : 2 ^ 64 ≤ E.fuel) (h : Settled s) (h64 : Segs64 segs) :
    ∃ a s', lsReadv E s key segs = some (a, s') ∧ (Request.readv key segs).Follows s (vecOut a) s' := by
  by_cases hover : lsKeyOk key = false ∨ segs = [] ∨ ∃ rc, segs.findSome? Seg.error = some rc
  · obtain ⟨rc, h1, h2⟩ := posix_over (E := E) (s := s) h64 false (s.map.lookup key) hover
    refine ⟨_, s, h1, follows_same h ?_⟩
    rw [apply, Request.key, h2]
    cases rc <;> rfl
  obtain ⟨hkey, hne, herr⟩ := by simpa only [not_or] using hover
  replace hkey : lsKeyOk key = true := by simpa using hkey
  have hok := (segs_error_or segs).resolve_right herr
  have hlook := lookup_map h.sound.laid.records key
  cases hk : s.find key with
  | none =>
    refine ⟨_, s, segv_refused hkey hne hok (segvBegin_noKey hk), follows_same h ?_⟩
    rw [apply, Request.key, segvRef_ok hkey hok hne, hlook, hk]
    rfl
  | some r =>
    rw [hk, Option.map_some] at hlook
    have hlen : (s.entry r).bytes.length = r.size := length_slice ..
    by_cases htop : Entry.top (segWrites segs) ≤ r.size
    · obtain ⟨a, s', h1, h2, h3⟩ := readv_spec hF h hkey hne hok hk htop
      refine ⟨a, s', h1, h2, fun hc => ?_⟩
      obtain ⟨h4, h5⟩ := h3 (Or.inl hc)
      have hmap := abs_unique h2.settled.sound.laid.records
        (h5 _ (abs_map h.sound.laid.records h.slack))
      have hbyte : (s.entry r).byte = s.content r := funext fun i =>
        ((matches_entry h.slack hk (d := fun _ => False)).bytes i id).symm
      rw [h4, ← hmap, apply, Request.key, segvRef_ok hkey hok hne, if_neg Bool.false_ne_true,
        RefMap.put_lookup, hlook, Option.elim_some, hlen, if_neg (Nat.not_lt.mpr htop), hbyte]
      exact ⟨rfl, rfl⟩
    · refine ⟨_, s, segv_refused hkey hne hok (segvBegin_past hk (Nat.not_le.mp htop)), follows_same h ?_⟩
      rw [apply, Request.key, segvRef_ok hkey hok hne, if_neg Bool.false_ne_true, hlook, Option.elim_some,
        hlen, if_pos (Nat.not_le.mp htop)]
      rfl

theorem posix_writev (hF : 2 ^ 64 ≤ E.fuel) (h : Settled s) (hsh : s.shared = false) (h64 : Segs64 segs)
    (hroom : RoomFits E s key (Entry.top (segWrites segs))) :
    ∃ a s', lsWritev E s key segs = some (a, s') ∧
      (Request.writev key segs).Follows s { rc := a.1 } s' := by
  by_cases hover : lsKeyOk key = false ∨ segs = [] ∨ ∃ rc, segs.findSome? Seg.error = some rc
  · obtain ⟨rc, h1, h2⟩ := posix_over (E := E) (s := s) h64 true (s.map.lookup key) hover
    refine ⟨_, s, h1, follows_same h ?_⟩
    rw [apply, Request.key, h2]
  obtain ⟨hkey, hne, herr⟩ := by simpa only [not_or] using hover
  replace hkey : lsKeyOk key = true := by simpa using hkey
  have hok := (segs_error_or segs).resolve_right herr
  have hfz : frozen s key (Entry.top (segWrites segs)) = false := by
    rw [frozen, show decide (s.o.parallel = .shared) = false from hsh, Bool.false_and]
  obtain ⟨a, s', h1, h2, h3⟩ := writev_spec hF h hkey hne hok hfz hroom
  refine ⟨a, s', h1, h2, fun hc => ?_⟩
  obtain ⟨h4, h5⟩ := h3 (Or.inl hc)
  have hmap := abs_unique h2.settled.sound.laid.records (h5 _ (abs_map h.sound.laid.records h.slack))
  rw [h4, ← hmap, apply, Request.key, segvRef_ok hkey hok hne, if_pos rfl]
  exact ⟨rfl, rfl⟩

/-- **A call on the POSIX backend** follows the map, if the operating system does not fail. -/
theorem posix_spec (hF : 2 ^ 64 ≤ E.fuel) (h : Settled s) (hsh : s.shared = false) {c : Request}
    (hfit : c.Fits E s) : ∃ out s', c.posix E s = some (out, s') ∧ c.Follows s out s' := by
  obtain ⟨h64, hop, hroom⟩ := hfit
  cases c with
  | readv key segs =>
    have hread : ∃ a s', lsReadv E s key segs = some (a, s') ∧
        (Request.readv key segs).Follows s (vecOut a) s' := posix_readv hF h h64
    obtain ⟨a, s', h1, h2⟩ := hread
    exact ⟨_, s', by rw [posix, h1]; rfl, h2⟩
  | writev key segs =>
    obtain ⟨a, s', h1, h2⟩ := posix_writev hF h hsh h64 (hroom key segs rfl)
    exact ⟨_, s', by rw [posix, h1]; rfl, h2⟩
  | _ => exact posix_op hF h hsh rfl rfl (hop _ rfl)

end Request

/-! ## Sequences of calls -/

/-- Every call of a sequence fits, and is one where both backends follow the map, when its turn comes. -/
def AlikeRun (E : Env) : List Request → Store σ → Prop
  | [], _ => True
  | c :: cs, s => c.Fits E s ∧ (lsKeyOk c.key = true → c.Alike ((s.find c.key).map Rec.size)) ∧
      ∀ out s', c.posix E s = some (out, s') → AlikeRun E cs s'

open HonestH5 (sets)

/-- A sequence of calls on both backends: by induction on the calls. -/
theorem runs_agree [HonestH5 η] (hF : 2 ^ 64 ≤ E.fuel) {cs : List Request} (h : Settled s)
    (hsh : s.shared = false) (hname : ∀ c ∈ cs, PlainName c.key) (hrun : AlikeRun E cs s) (f : η) :
    ∃ outs s', runPosix E cs s = some (outs, s') ∧ (clean s'.os → clean s.os) ∧
      (clean s'.os → Agree f s.map → (runHdf5 cs f).1 = outs ∧ Agree (runHdf5 cs f).2 s'.map) := by
  induction cs generalizing s f with
  | nil => exact ⟨[], s, rfl, id, fun _ hf => ⟨rfl, hf⟩⟩
  | cons c cs ih =>
    obtain ⟨hfit, halike, hrest⟩ := hrun
    obtain ⟨out, s₁, h1, h2⟩ := Request.posix_spec hF h hsh hfit
    have hsh₁ : s₁.shared = false := by rw [Store.shared, h2.next.opts.1]; exact hsh
    obtain ⟨outs, s', g1, g2, g3⟩ := ih h2.next.settled hsh₁
      (fun c hc => hname c (List.mem_cons_of_mem _ hc)) (hrest out s₁ h1) (c.hdf5 f).2
    refine ⟨out :: outs, s', ?_, fun hc => h2.next.clean (g2 hc), fun hc hf => ?_⟩
    · rw [runPosix, h1]
      dsimp only
      rw [g1]
    · obtain ⟨e1, e2⟩ := h2.map (g2 hc)
      have hlook := lookup_map h.sound.laid.records c.key
      have hsize : (s.map.lookup c.key).map (fun e => e.bytes.length) = (s.find c.key).map Rec.size := by
        rw [hlook, Option.map_map]
        exact congrArg (fun g => (s.find c.key).map g) (funext fun r => length_slice ..)
      obtain ⟨k1, k2⟩ := Request.hdf5_spec (hname c List.mem_cons_self) hfit.1
        (hf c.key (hname c List.mem_cons_self)) (fun hk => by rw [hsize]; exact halike hk)
      have hf₁ : Agree (c.hdf5 f).2 s₁.map := by
        rw [e2]
        exact hf.putAt (hname c List.mem_cons_self) k2
      obtain ⟨k3, k4⟩ := g3 hc hf₁
      rw [runHdf5, k3, k1, e1]
      exact ⟨rfl, k4⟩

/-- **The API is the same on both backends** in every run whose calls are alike. -/
theorem backends_agree [HonestH5 η] (hF : 2 ^ 64 ≤ E.fuel) {o : Opts} {os : σ} (hfile : (file os).len = 0)
    (hopen : lsOpen E o os = some (.ok s)) {f : η} (hblank : ∀ k, PlainName k → sets f k = none)
    {cs : List Request} (hname : ∀ c ∈ cs, PlainName c.key) (hrun : AlikeRun E cs s) :
    ∃ outs s', runPosix E cs s = some (outs, s') ∧ (clean s'.os → (runHdf5 cs f).1 = outs) := by
  have hset := settled_opened hfile hopen
  obtain ⟨direct, os', rfl, -, hsh, -⟩ := lsOpen_empty hfile hopen
  obtain ⟨outs, s', h1, -, h2⟩ := runs_agree hF hset (decide_eq_false hsh) hname hrun f
  refine ⟨outs, s', h1, fun hc => (h2 hc fun k hk => ?_).1⟩
  rw [hblank k hk, lookup_map hset.sound.laid.records]
  have hnone : (freshStore o direct os').find k = none := by
    cases hf : (freshStore o direct os').find k with
    | none => rfl
    | some r =>
      have hmem := ((find_iff_mem hset.sound.laid.records.wf).mp hf).1
      rw [show (freshStore o direct os').recs = [] from Chained.toList_empty 64] at hmem
      cases hmem
  rw [hnone]
  rfl

end

/-- One byte that is written and read back. -/
theorem backends_agree_byte : ∃ outs s',
    runPosix Env.ample [.write keyA 0 [7] 0, .read keyA 0 1 0] (Disk.newStore {}) = some (outs, s') ∧
    (s'.os.ok = true → (runHdf5 [.write keyA 0 [7] 0, .read keyA 0 1 0] H5File.blank).1 = outs) := by
  have hF : 2 ^ 64 ≤ Env.ample.fuel := Nat.le_refl _
  have hopen : lsOpen Env.ample {} Disk.blank = some (.ok (Disk.newStore {})) :=
    Disk.lsOpen_blank _ rfl (by decide)
  have hset := settled_opened rfl hopen
  refine backends_agree hF rfl hopen (fun _ _ => rfl) ?_ ⟨⟨⟨by decide, by decide⟩, ?_, ?_⟩, ?_, ?_⟩
  · intro c hc
    fin_cases hc <;> decide
  · intro op hop
    cases hop
    exact ⟨by decide, by decide, fun _ => roomFits_of_le hF hset.sound (by decide)⟩
  · intro key segs h
    cases h
  · exact fun _ => ⟨by decide, fun h => (by cases h)⟩
  · intro out s' hcall
    refine ⟨⟨⟨by decide, by decide⟩, ?_, ?_⟩, ?_, fun _ _ _ => trivial⟩
    · intro op hop
      cases hop
      exact ⟨by decide, by decide⟩
    · intro key segs h
      cases h
    · exact fun _ => Or.inl (by decide)

/-- **A write of no bytes** makes a record on one backend only. -/
theorem backends_differ : ∃ outs s',
    runPosix Env.ample [.write keyA 0 [] 0, .size keyA] (Disk.newStore {}) = some (outs, s') ∧
    s'.os.ok = true ∧ outs.map Out.rc = [.ok, .ok] ∧
    (runHdf5 [.write keyA 0 [] 0, .size keyA] H5File.blank).1.map Out.rc = [.ok, .nokey] := by
  have hrun : (runPosix Env.ample [.write keyA 0 [] 0, .size keyA] (Disk.newStore {})).map (fun a =>
      (a.1.map Out.rc, a.2.os.ok)) = some ([.ok, .ok], true) := by decide +kernel
  obtain ⟨⟨outs, s'⟩, h1, h2⟩ := Option.map_eq_some_iff.mp hrun
  rw [Prod.mk.injEq] at h2
  exact ⟨outs, s', h1, h2.2, h2.1, by decide +kernel⟩

end Libspill
