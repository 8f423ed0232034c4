import Libspill.Data

set_option autoImplicit false

/-!
# The reference map

What a store is for: a map from keys to byte strings and attributes. A write or a reservation makes
a record as long as the end of its range, bytes never written are zero, and every call answers from
the entry of its own key (`Op.apply`); only `ls_keys` looks at the whole map.
-/

namespace Libspill

/-- What the reference map holds under a key. -/
structure Entry where
  bytes : List UInt8 := []
  attr : List UInt8 := []
deriving DecidableEq

namespace Entry

/-- The byte at position `i`, zero past the end. -/
def byte (e : Entry) (i : ℕ) : UInt8 := e.bytes.getD i 0

/-- At least `n` bytes long, the new ones zero. -/
def resize (e : Entry) (n : ℕ) : Entry :=
  { e with bytes := e.bytes ++ List.replicate (n - e.bytes.length) 0 }

/-- `buf` laid over the bytes from `off` on. -/
def write (e : Entry) (off : ℕ) (buf : List UInt8) : Entry :=
  let b := (e.resize (off + buf.length)).bytes
  { e with bytes := b.take off ++ buf ++ b.drop (off + buf.length) }

@[simp] theorem length_resize (e : Entry) (n : ℕ) :
    (e.resize n).bytes.length = max e.bytes.length n := by
  simp only [resize, List.length_append, List.length_replicate]
  omega

@[simp] theorem resize_attr (e : Entry) (n : ℕ) : (e.resize n).attr = e.attr := rfl

@[simp] theorem write_attr (e : Entry) (off : ℕ) (buf : List UInt8) :
    (e.write off buf).attr = e.attr := rfl

@[simp] theorem byte_resize (e : Entry) (n i : ℕ) : (e.resize n).byte i = e.byte i := by
  simp only [byte, resize]
  by_cases hi : i < e.bytes.length
  · rw [List.getD_append _ _ _ _ hi]
  · rw [List.getD_append_right _ _ _ _ (by omega), List.getD_eq_default e.bytes 0 (by omega),
      List.getD_eq_getElem?_getD, List.getElem?_replicate]
    split_ifs <;> rfl

@[simp] theorem length_write (e : Entry) (off : ℕ) (buf : List UInt8) :
    (e.write off buf).bytes.length = max e.bytes.length (off + buf.length) := by
  have := e.length_resize (off + buf.length)
  simp only [write, List.length_append, List.length_take, List.length_drop]
  omega

theorem byte_write (e : Entry) (off : ℕ) (buf : List UInt8) :
    (e.write off buf).byte = patch e.byte off buf := by
  funext i
  have hlen := e.length_resize (off + buf.length)
  have hold : e.byte i = (e.resize (off + buf.length)).bytes.getD i 0 :=
    (e.byte_resize (off + buf.length) i).symm
  simp only [write, patch, hold]
  generalize (e.resize (off + buf.length)).bytes = b at hlen ⊢
  have hbt : (b.take off).length = off := by
    rw [List.length_take]
    omega
  rw [byte]
  by_cases h1 : i < off
  · rw [List.append_assoc, List.getD_append _ _ _ _ (by omega), if_neg (by omega),
      List.getD_eq_getElem?_getD, List.getElem?_take_of_lt h1, List.getD_eq_getElem?_getD]
  · rw [List.append_assoc, List.getD_append_right _ _ _ _ (by omega), hbt]
    by_cases h2 : i < off + buf.length
    · rw [List.getD_append _ _ _ _ (by omega), if_pos (by omega)]
    · rw [List.getD_append_right _ _ _ _ (by omega), if_neg (by omega), List.getD_eq_getElem?_getD,
        List.getElem?_drop, List.getD_eq_getElem?_getD]
      congr 2
      omega

theorem byte_of_le {e : Entry} {i : ℕ} (h : e.bytes.length ≤ i) : e.byte i = 0 :=
  List.getD_eq_default _ _ h

/-- The bytes of a range inside the entry. -/
theorem slice_byte {e : Entry} {off n : ℕ} (h : off + n ≤ e.bytes.length) :
    slice e.byte off n = (e.bytes.drop off).take n := by
  apply List.ext_getElem
  · simp
    omega
  · intro i h1 h2
    have hi : i < n := by simpa using h1
    rw [List.getElem_take, List.getElem_drop]
    simp only [slice, byte, List.getElem_map, List.getElem_range]
    rw [List.getD_eq_getElem _ _ (by omega)]

end Entry

/-- A reference map. -/
abbrev RefMap : Type := Finmap fun _ : CStr => Entry

/-- Set or remove the entry of a key. -/
def RefMap.put (m : RefMap) (key : CStr) : Option Entry → RefMap
  | none => m.erase key
  | some e => m.insert key e

theorem RefMap.lookup_put (m : RefMap) (key : CStr) (e : Option Entry) (k : CStr) :
    (m.put key e).lookup k = if key = k then e else m.lookup k := by
  cases e with
  | none =>
    split_ifs with h
    · rw [← h]
      exact Finmap.lookup_erase key m
    · exact Finmap.lookup_erase_ne (Ne.symm h)
  | some e =>
    split_ifs with h
    · rw [← h]
      exact Finmap.lookup_insert m
    · exact Finmap.lookup_insert_of_ne m (Ne.symm h)

/-- A call on one key: its answer, and the entry it leaves. `shared` is the mode in which layout and
attributes are frozen. -/
def Op.apply (shared : Bool) (op : Op) (e : Option Entry) : Out × Option Entry :=
  match op with
  | .write key off buf _ =>
    if !lsKeyOk key then ({ rc := .inval }, e)
    else if off + buf.length ≥ 2 ^ 64 then ({ rc := .range }, e)
    else if shared && e.all (fun e => off + buf.length > e.bytes.length) then ({ rc := .mode }, e)
    else ({ rc := .ok }, some ((e.getD {}).write off buf))
  | .read key off n _ =>
    if !lsKeyOk key then ({ rc := .inval }, e)
    else if off + n ≥ 2 ^ 64 then ({ rc := .range }, e)
    else match e with
      | none => ({ rc := .nokey }, none)
      | some e => if off + n > e.bytes.length then ({ rc := .range }, some e)
          else ({ rc := .ok, data := (e.bytes.drop off).take n }, some e)
  | .append key buf _ =>
    if !lsKeyOk key then ({ rc := .inval }, e)
    else if shared then ({ rc := .mode }, e)
    else
      let e' := e.getD {}
      if e'.bytes.length + buf.length ≥ 2 ^ 64 then ({ rc := .range }, some e')
      else ({ rc := .ok, num := e'.bytes.length }, some (e'.write e'.bytes.length buf))
  | .reserve key nbytes =>
    if !lsKeyOk key then ({ rc := .inval }, e)
    else if shared then ({ rc := .mode }, e)
    else ({ rc := .ok }, some ((e.getD {}).resize nbytes))
  | .erase key =>
    if !lsKeyOk key then ({ rc := .inval }, e)
    else if shared then ({ rc := .mode }, e)
    else match e with
      | none => ({ rc := .nokey }, none)
      | some _ => ({ rc := .ok }, none)
  | .size key =>
    if !lsKeyOk key then ({ rc := .inval }, e)
    else match e with
      | none => ({ rc := .nokey }, none)
      | some e => ({ rc := .ok, num := e.bytes.length }, some e)
  | .exists key =>
    if !lsKeyOk key then ({ rc := .inval }, e)
    else ({ rc := .ok, num := if e.isSome then 1 else 0 }, e)
  | .setAttr key blob =>
    if !lsKeyOk key then ({ rc := .inval }, e)
    else if blob.length > LS_ATTR_MAX then ({ rc := .inval }, e)
    else if shared then ({ rc := .mode }, e)
    else ({ rc := .ok }, some { e.getD {} with attr := blob })
  | .getAttr key cap =>
    if !lsKeyOk key then ({ rc := .inval }, e)
    else match e with
      | none => ({ rc := .nokey }, none)
      | some e => match cap with
        | none => ({ rc := .ok, num := e.attr.length }, some e)
        | some n => if n < e.attr.length then ({ rc := .range, num := e.attr.length }, some e)
            else ({ rc := .ok, data := e.attr, num := e.attr.length }, some e)
  | .keys => ({ rc := .ok }, e)

/-- A call on the map. -/
def Op.refStep (shared : Bool) (op : Op) (m : RefMap) : Out × RefMap :=
  match op.key? with
  | some key =>
    let r := op.apply shared (m.lookup key)
    (r.1, m.put key r.2)
  | none => ({ rc := .ok, keys := m.keys.val }, m)

/-- A sequence of calls on the map. -/
def refRun (shared : Bool) : List Op → RefMap → List Out × RefMap
  | [], m => ([], m)
  | op :: ops, m =>
    let r := op.refStep shared m
    let rs := refRun shared ops r.2
    (r.1 :: rs.1, rs.2)

end Libspill
