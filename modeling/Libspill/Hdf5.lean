import Libspill.Accumulate

set_option autoImplicit false

/-!
# The HDF5 backend

One dataset of bytes for each key.

* `H5`: the calls of the HDF5 library that the backend makes. `HonestH5`: a file that behaves as a map
  from names to byte arrays that can be extended and read as zero where nothing was written.
* `h5OpenOrCreate`, `h5Extent`, `h5TransferWrite`, `h5TransferRead`, and the entry points.
* `H5File`: a file that always answers.
* `h5TransferWrite_spec`, `h5TransferRead_spec`: what a transfer does, on the entry of its key.
* **`h5_accumulates_iff`**: when `ls_accumulate` combines with what is stored.
-/

namespace Libspill

/-! ## The calls -/

/-- The calls of the HDF5 library. A dataset that is open is a number. -/
class H5 (η : Type) where
  /-- `H5Lexists`. -/
  lexists : η → CStr → Bool
  /-- `H5Dopen2`. -/
  dopen : η → CStr → Option ℕ × η
  /-- `H5Dget_space` and `H5Sget_simple_extent_dims`. -/
  dims : η → ℕ → ℕ
  /-- `H5Dset_extent`. -/
  setExtent : η → (ds want : ℕ) → Bool × η
  /-- `H5Dcreate2`, of bytes that are filled with zeros. -/
  dcreate : η → CStr → (dims chunk : ℕ) → Option ℕ × η
  /-- `H5Sselect_hyperslab`, on a dataspace of `dims` bytes. -/
  select : η → (dims start count : ℕ) → Bool
  /-- `H5Dwrite`, to the bytes from `start` on. -/
  dwrite : η → (ds start : ℕ) → List UInt8 → Bool × η
  /-- `H5Dread`. -/
  dread : η → (ds start count : ℕ) → Option (List UInt8) × η
  /-- `H5Dclose`. -/
  dclose : η → ℕ → η
  /-- `H5Ldelete`. -/
  ldelete : η → CStr → Bool × η

variable {η : Type}

def H5_CHUNK_MAX : ℕ := 2 ^ 20

def H5_CHUNK_MIN : ℕ := 4096

/-- `h5_chunk_for`. -/
def h5ChunkFor (need : ℕ) : ℕ :=
  let c := if need ≠ 0 then need else H5_CHUNK_MIN
  let c := if c < H5_CHUNK_MIN then H5_CHUNK_MIN else c
  if c > H5_CHUNK_MAX then H5_CHUNK_MAX else c

section

variable [H5 η]

/-- `h5_open_or_create`. -/
def h5OpenOrCreate (f : η) (key : CStr) (need : ℕ) (create : Bool) : Option ℕ × η :=
  if H5.lexists f key then
    match H5.dopen f key with
    | (none, f) => (none, f)
    | (some ds, f) =>
      if need ≠ 0 ∧ H5.dims f ds < need then
        match H5.setExtent f ds need with
        | (true, f) => (some ds, f)
        | (false, f) => (none, H5.dclose f ds)
      else (some ds, f)
  else if !create then (none, f)
  else H5.dcreate f key need (h5ChunkFor need)

/-- `h5_extent`. -/
def h5Extent (f : η) (key : CStr) : Except Rc ℕ × η :=
  if !H5.lexists f key then (.error .nokey, f)
  else
    match H5.dopen f key with
    | (none, f) => (.error .backend, f)
    | (some ds, f) => (.ok (H5.dims f ds), H5.dclose f ds)

/-- `h5_transfer`, writing. -/
def h5TransferWrite (f : η) (key : CStr) (off : ℕ) (buf : List UInt8) : Rc × η :=
  match h5OpenOrCreate f key (add64 off buf.length) true with
  | (none, f) => (.backend, f)
  | (some ds, f) =>
    if !H5.select f (H5.dims f ds) off buf.length then (.backend, H5.dclose f ds)
    else
      match H5.dwrite f ds off buf with
      | (true, f) => (.ok, H5.dclose f ds)
      | (false, f) => (.backend, H5.dclose f ds)

/-- `h5_transfer`, reading. -/
def h5TransferRead (f : η) (key : CStr) (off n : ℕ) : (Rc × List UInt8) × η :=
  match h5OpenOrCreate f key 0 false with
  | (none, f) => ((.nokey, []), f)
  | (some ds, f) =>
    if add64 off n > H5.dims f ds then ((.range, []), H5.dclose f ds)
    else if !H5.select f (H5.dims f ds) off n then ((.backend, []), H5.dclose f ds)
    else
      match H5.dread f ds off n with
      | (some b, f) => ((.ok, b), H5.dclose f ds)
      | (none, f) => ((.backend, []), H5.dclose f ds)

/-- `ls_h5_rw`, writing. -/
def lsH5Write (f : η) (key : CStr) (off : ℕ) (buf : List UInt8) : Rc × η :=
  if buf.length = 0 then (.ok, f) else h5TransferWrite f key off buf

/-- `ls_h5_rw`, reading. -/
def lsH5Read (f : η) (key : CStr) (off n : ℕ) : (Rc × List UInt8) × η :=
  if n = 0 then ((.ok, []), f) else h5TransferRead f key off n

/-- `ls_h5_erase`. -/
def lsH5Erase (f : η) (key : CStr) : Rc × η :=
  if !H5.lexists f key then (.nokey, f)
  else
    match H5.ldelete f key with
    | (true, f) => (.ok, f)
    | (false, f) => (.backend, f)

/-- `ls_h5_reserve`. -/
def lsH5Reserve (f : η) (key : CStr) (nbytes : ℕ) : Rc × η :=
  match h5OpenOrCreate f key nbytes true with
  | (none, f) => (.backend, f)
  | (some ds, f) => (.ok, H5.dclose f ds)

/-- `ls_h5_append`, with the offset it hands out. -/
def lsH5Append (f : η) (key : CStr) (buf : List UInt8) : (Rc × ℕ) × η :=
  let a := if H5.lexists f key then h5Extent f key else (.ok 0, f)
  match a with
  | (.error rc, f) => ((rc, 0), f)
  | (.ok at', f) =>
    match h5TransferWrite f key at' buf with
    | (.ok, f) => ((.ok, at'), f)
    | (rc, f) => ((rc, 0), f)

/-- `ls_h5_accumulate`; `tmp` says whether there is memory for the staging buffer. -/
def lsH5Accumulate (f : η) (key : CStr) (off : ℕ) (buf : List UInt8) (op : Reduce) (tmp : Bool) : Rc × η :=
  if !tmp then (.errno .enomem, f)
  else
    match h5TransferRead f key off buf.length with
    | ((.ok, b), f) => h5TransferWrite f key off (op.run b buf)
    | ((rc, _), f) =>
      if rc = .nokey ∨ rc = .range then
        -- accumulate into fresh space
        h5TransferWrite f key off (op.run (List.replicate buf.length 0) buf)
      else (rc, f)

/-- `ls_accumulate` on this backend; `none` is a `NULL` reduction. -/
def accumulateH5 (o : Opts) (f : η) (key : CStr) (off : ℕ) (buf : List UInt8) (op : Option Reduce)
    (tmp : Bool) : Rc × η :=
  match op with
  | none => (.inval, f)
  | some op =>
    if !lsKeyOk key then (.inval, f)
    else if o.mode ≠ .explicit then (.mode, f)
    else lsH5Accumulate f key off buf op tmp

end

/-! ## A file that behaves as a map -/

/-- A name that is not a path. -/
def PlainName (k : CStr) : Prop := 47 ∉ k.1

instance (k : CStr) : Decidable (PlainName k) := by
  unfold PlainName
  infer_instance

/-- Bytes that have been extended with zeros. -/
def extended (b : List UInt8) (n : ℕ) : List UInt8 := b ++ List.replicate (n - b.length) 0

/-- Only what name `k` leads to has changed. A path may lead where another one does, so that nothing is said of
paths. -/
def PutAt (m m' : CStr → Option (List UInt8)) (k : CStr) (b : Option (List UInt8)) : Prop :=
  m' k = b ∧ ∀ k', PlainName k → PlainName k' → k' ≠ k → m' k' = m k'

/-- A file that behaves as a map from names to byte arrays. The largest number cannot be an extent: it
says that there is no limit. -/
class HonestH5 (η : Type) extends H5 η where
  /-- The bytes of the dataset that a name leads to. -/
  sets : η → CStr → Option (List UInt8)
  /-- The name of the dataset that is open. -/
  opened : η → ℕ → Option CStr
  length_lt : ∀ f k b, sets f k = some b → b.length < 2 ^ 64
  lexists_eq : ∀ f k, PlainName k → lexists f k = (sets f k).isSome
  lexists_some : ∀ f k b, sets f k = some b → lexists f k = true
  dopen_none : ∀ f k, sets f k = none → (dopen f k).1 = none
  dopen_some : ∀ f k b, sets f k = some b → ∃ d, (dopen f k).1 = some d ∧ opened (dopen f k).2 d = some k
  dopen_sets : ∀ f k, sets (dopen f k).2 = sets f
  dims_eq : ∀ f d k b, opened f d = some k → sets f k = some b → dims f d = b.length
  setExtent_ok : ∀ f d k b n, opened f d = some k → sets f k = some b → b.length ≤ n → n < 2 ^ 64 - 1 →
    (setExtent f d n).1 = true
  setExtent_sets : ∀ f d k b n, opened f d = some k → sets f k = some b → b.length ≤ n →
    (setExtent f d n).1 = true →
    PutAt (sets f) (sets (setExtent f d n).2) k (some (extended b n)) ∧ opened (setExtent f d n).2 d = some k
  dcreate_ok : ∀ f k n c, PlainName k → sets f k = none → n < 2 ^ 64 - 1 → 0 < c → c < 2 ^ 32 →
    ∃ d, (dcreate f k n c).1 = some d
  dcreate_sets : ∀ f k n c d, sets f k = none → (dcreate f k n c).1 = some d →
    PutAt (sets f) (sets (dcreate f k n c).2) k (some (List.replicate n 0)) ∧
      opened (dcreate f k n c).2 d = some k
  select_ok : ∀ f n start count, start + count ≤ n → select f n start count = true
  dwrite_ok : ∀ f d k b start buf, opened f d = some k → sets f k = some b →
    start + buf.length ≤ b.length → (dwrite f d start buf).1 = true ∧
      PutAt (sets f) (sets (dwrite f d start buf).2) k
        (some (b.take start ++ buf ++ b.drop (start + buf.length)))
  dwrite_past : ∀ f d k b start buf, opened f d = some k → sets f k = some b → buf ≠ [] →
    b.length < start + buf.length → (dwrite f d start buf).1 = false
  dread_ok : ∀ f d k b start n, opened f d = some k → sets f k = some b → start + n ≤ b.length →
    (dread f d start n).1 = some ((b.drop start).take n)
  dread_past : ∀ f d k b start n, opened f d = some k → sets f k = some b → n ≠ 0 →
    b.length < start + n → (dread f d start n).1 = none
  dread_sets : ∀ f d start n, sets (dread f d start n).2 = sets f
  dclose_sets : ∀ f d, sets (dclose f d) = sets f
  ldelete_ok : ∀ f k b, PlainName k → sets f k = some b →
    (ldelete f k).1 = true ∧ PutAt (sets f) (sets (ldelete f k).2) k none

/-- A file that always answers. One dataset is open at a time. -/
structure H5File where
  sets : CStr → Option (List UInt8)
  length_lt : ∀ k b, sets k = some b → b.length < 2 ^ 64
  cur : Option CStr

namespace H5File

/-- A file without datasets. -/
def blank : H5File := ⟨fun _ => none, fun _ _ h => (by cases h), none⟩

/-- Change a dataset. -/
def put (f : H5File) (k : CStr) (b : List UInt8) (h : b.length < 2 ^ 64) : H5File where
  sets := Function.update f.sets k (some b)
  length_lt k' b' hb := by
    rw [Function.update_apply] at hb
    split_ifs at hb
    · cases hb
      exact h
    · exact f.length_lt k' b' hb
  cur := some k

/-- The open dataset, and its bytes. -/
def at' (f : H5File) : Option (CStr × List UInt8) := f.cur.bind fun k => (f.sets k).map fun b => (k, b)

instance : H5 H5File where
  lexists f k := (f.sets k).isSome
  dopen f k := if (f.sets k).isSome then (some 0, { f with cur := some k }) else (none, f)
  dims f _ := f.at'.elim 0 fun p => p.2.length
  setExtent f _ want :=
    match f.at' with
    | some (k, b) =>
      if h : (extended b want).length < 2 ^ 64 ∧ want < 2 ^ 64 - 1 then (true, f.put k (extended b want) h.1)
      else (false, f)
    | none => (false, f)
  dcreate f k n _ :=
    if h : (List.replicate n (0 : UInt8)).length < 2 ^ 64 ∧ n < 2 ^ 64 - 1 ∧ (f.sets k).isNone ∧ PlainName k then
      (some 0, f.put k (List.replicate n 0) h.1)
    else (none, f)
  select _ n start count := start + count ≤ n
  dwrite f _ start buf :=
    match f.at' with
    | some (k, b) =>
      if h : (b.take start ++ buf ++ b.drop (start + buf.length)).length < 2 ^ 64 ∧
          start + buf.length ≤ b.length then
        (true, f.put k (b.take start ++ buf ++ b.drop (start + buf.length)) h.1)
      else (false, f)
    | none => (false, f)
  dread f _ start n :=
    (f.at'.bind fun p => if start + n ≤ p.2.length then some ((p.2.drop start).take n) else none, f)
  dclose f _ := { f with cur := none }
  ldelete f k :=
    if (f.sets k).isSome then
      (true, { f with
        sets := Function.update f.sets k none
        length_lt := fun k' b' hb => by
          rw [Function.update_apply] at hb
          split_ifs at hb
          exact f.length_lt k' b' hb })
    else (false, f)

theorem at'_eq {f : H5File} {k : CStr} {b : List UInt8} (h : f.cur = some k) (hb : f.sets k = some b) :
    f.at' = some (k, b) := by
  rw [at', h, Option.bind_some, hb]
  rfl

theorem length_extended (b : List UInt8) (n : ℕ) : (extended b n).length = max b.length n := by
  rw [extended, List.length_append, List.length_replicate]
  omega

theorem putAt_update (m : CStr → Option (List UInt8)) (k : CStr) (b : Option (List UInt8)) :
    PutAt m (Function.update m k b) k b :=
  ⟨Function.update_self .., fun _ _ _ h => Function.update_of_ne h _ _⟩

instance : HonestH5 H5File where
  sets := H5File.sets
  opened f _ := f.cur
  length_lt f := f.length_lt
  lexists_eq _ _ _ := rfl
  lexists_some f k b hb := by
    simp [H5.lexists, hb]
  dopen_none f k hb := by
    simp [H5.dopen, hb]
  dopen_some f k b hb := by
    refine ⟨0, ?_⟩
    simp [H5.dopen, hb]
  dopen_sets f k := by
    simp only [H5.dopen]
    split_ifs <;> rfl
  dims_eq f d k b hc hb := by
    simp only [H5.dims, at'_eq hc hb]
    rfl
  setExtent_ok f d k b n hc hb hle hn := by
    simp only [H5.setExtent, at'_eq hc hb]
    rw [dif_pos ⟨by rw [length_extended]; omega, hn⟩]
  setExtent_sets f d k b n hc hb hle hok := by
    simp only [H5.setExtent, at'_eq hc hb] at hok ⊢
    split_ifs at hok ⊢
    exact ⟨putAt_update _ _ _, rfl⟩
  dcreate_ok f k n c hk hb hn _ _ := by
    simp only [H5.dcreate]
    rw [dif_pos ⟨by rw [List.length_replicate]; omega, hn, by rw [hb]; rfl, hk⟩]
    exact ⟨0, rfl⟩
  dcreate_sets f k n c d hb hok := by
    simp only [H5.dcreate] at hok ⊢
    split_ifs at hok ⊢
    exact ⟨putAt_update _ _ _, rfl⟩
  select_ok f n start count h := decide_eq_true h
  dwrite_ok f d k b start buf hc hb hle := by
    have hlt := f.length_lt k b hb
    simp only [H5.dwrite, at'_eq hc hb]
    rw [dif_pos ⟨by simp only [List.length_append, List.length_take, List.length_drop]; omega, hle⟩]
    exact ⟨rfl, putAt_update _ _ _⟩
  dwrite_past f d k b start buf hc hb _ hlt := by
    simp only [H5.dwrite, at'_eq hc hb]
    rw [dif_neg fun h => by omega]
  dread_ok f d k b start n hc hb hle := by
    simp only [H5.dread, at'_eq hc hb, Option.bind_some]
    exact if_pos hle
  dread_past f d k b start n hc hb _ hlt := by
    simp only [H5.dread, at'_eq hc hb, Option.bind_some]
    exact if_neg (Nat.not_le.mpr hlt)
  dread_sets _ _ _ _ := rfl
  dclose_sets _ _ := rfl
  ldelete_ok f k b _ hb := by
    simp only [H5.ldelete, hb, Option.isSome_some, if_true]
    exact ⟨trivial, putAt_update _ _ _⟩

end H5File

/-! ## What the functions do -/

theorem PutAt.trans {m₁ m₂ m₃ : CStr → Option (List UInt8)} {k : CStr} {b₁ b₂ : Option (List UInt8)}
    (h₁ : PutAt m₁ m₂ k b₁) (h₂ : PutAt m₂ m₃ k b₂) : PutAt m₁ m₃ k b₂ :=
  ⟨h₂.1, fun k' hk hk' hne => (h₂.2 k' hk hk' hne).trans (h₁.2 k' hk hk' hne)⟩

theorem putAt_refl (m : CStr → Option (List UInt8)) (k : CStr) : PutAt m m k (m k) :=
  ⟨rfl, fun _ _ _ _ => rfl⟩

section

variable [HonestH5 η] {key : CStr} {need off n : ℕ} {buf : List UInt8}

open HonestH5 (sets opened)

/-- The entry of a key, and an empty one where there is none. -/
def h5Entry (f : η) (key : CStr) : Entry := { bytes := (sets f key).getD [] }

theorem extended_of_le {b : List UInt8} (h : n ≤ b.length) : extended b n = b := by
  rw [extended, Nat.sub_eq_zero_of_le h, List.replicate_zero, List.append_nil]

theorem chunk_bounds (need : ℕ) : 0 < h5ChunkFor need ∧ h5ChunkFor need < 2 ^ 32 := by
  unfold h5ChunkFor H5_CHUNK_MAX H5_CHUNK_MIN
  dsimp only
  split_ifs <;> omega

/-- A dataset that is opened for writing is there, and is long enough. -/
theorem h5OpenOrCreate_write (f : η) (key : CStr) (need : ℕ) :
    (PlainName key → need < 2 ^ 64 - 1 → (h5OpenOrCreate f key need true).1 ≠ none) ∧
    ∀ d, (h5OpenOrCreate f key need true).1 = some d →
      opened (h5OpenOrCreate f key need true).2 d = some key ∧
      PutAt (sets f) (sets (h5OpenOrCreate f key need true).2) key
        (some (extended ((sets f key).getD []) need)) := by
  rw [h5OpenOrCreate]
  cases hb : sets f key with
  | none =>
    by_cases hl : H5.lexists f key
    · -- a name that leads to no dataset
      rw [if_pos hl]
      have h1 := HonestH5.dopen_none f key hb
      generalize H5.dopen f key = a at h1 ⊢
      obtain ⟨a, f₁⟩ := a
      dsimp only at h1
      subst h1
      refine ⟨fun hname => ?_, fun d hd => (by cases hd)⟩
      rw [HonestH5.lexists_eq f key hname, hb] at hl
      cases hl
    rw [if_neg hl, if_neg (by decide)]
    have hc := chunk_bounds need
    refine ⟨fun hname hlt => ?_, fun d hd => ?_⟩
    · obtain ⟨d, hd⟩ := HonestH5.dcreate_ok f key need (h5ChunkFor need) hname hb hlt hc.1 hc.2
      rw [hd]
      exact Option.some_ne_none d
    · obtain ⟨h1, h2⟩ := HonestH5.dcreate_sets f key need (h5ChunkFor need) d hb hd
      refine ⟨h2, ?_⟩
      rw [Option.getD_none, extended, List.nil_append, List.length_nil, Nat.sub_zero]
      exact h1
  | some b =>
    rw [if_pos (HonestH5.lexists_some f key b hb), Option.getD_some]
    obtain ⟨d, h1, h2⟩ := HonestH5.dopen_some f key b hb
    have h3 := HonestH5.dopen_sets f key
    generalize H5.dopen f key = a at h1 h2 h3 ⊢
    obtain ⟨a, f₁⟩ := a
    dsimp only at h1 h2 h3
    subst h1
    have hb₁ : sets f₁ key = some b := by rw [h3, hb]
    dsimp only
    rw [HonestH5.dims_eq f₁ d key b h2 hb₁]
    by_cases hext : need ≠ 0 ∧ b.length < need
    · rw [if_pos hext]
      have h4 := HonestH5.setExtent_ok f₁ d key b need h2 hb₁ hext.2.le
      have h5 := HonestH5.setExtent_sets f₁ d key b need h2 hb₁ hext.2.le
      generalize H5.setExtent f₁ d need = a at h4 h5 ⊢
      obtain ⟨ok, f₂⟩ := a
      cases ok with
      | false => exact ⟨fun _ hlt => absurd (h4 hlt) Bool.false_ne_true, fun d' hd' => (by cases hd')⟩
      | true =>
        obtain ⟨h6, h7⟩ := h5 rfl
        refine ⟨fun _ _ => Option.some_ne_none d, fun d' hd' => ?_⟩
        cases hd'
        exact ⟨h7, h3 ▸ h6⟩
    · rw [if_neg hext, extended_of_le (by omega)]
      refine ⟨fun _ _ => Option.some_ne_none d, fun d' hd' => ?_⟩
      cases hd'
      exact ⟨h2, by rw [h3, ← hb]; exact putAt_refl _ _⟩

/-- **A transfer that writes** does what a write of the map does, if its range does not wrap. -/
theorem h5TransferWrite_spec (hlt : off + buf.length < 2 ^ 64) (f : η) (key : CStr) :
    (PlainName key → off + buf.length < 2 ^ 64 - 1 → (h5TransferWrite f key off buf).1 = .ok) ∧
    ((h5TransferWrite f key off buf).1 = .ok →
      PutAt (sets f) (sets (h5TransferWrite f key off buf).2) key
        (some ((h5Entry f key).write off buf).bytes)) := by
  rw [h5TransferWrite, add64_eq hlt]
  obtain ⟨h1, h2⟩ := h5OpenOrCreate_write f key (off + buf.length)
  generalize h5OpenOrCreate f key (off + buf.length) true = a at h1 h2 ⊢
  obtain ⟨a, f₁⟩ := a
  cases a with
  | none => exact ⟨fun hname h => absurd rfl (h1 hname h), fun h => (by cases h)⟩
  | some d =>
    obtain ⟨h3, h4⟩ := h2 d rfl
    dsimp only at h3 h4 ⊢
    have hb := h4.1
    have hlen := H5File.length_extended ((sets f key).getD []) (off + buf.length)
    rw [HonestH5.dims_eq f₁ d key _ h3 hb, HonestH5.select_ok _ _ _ _ (by omega), if_neg (by decide)]
    obtain ⟨h5, h6⟩ := HonestH5.dwrite_ok f₁ d key _ off buf h3 hb (by omega)
    generalize H5.dwrite f₁ d off buf = a at h5 h6 ⊢
    obtain ⟨ok, f₂⟩ := a
    dsimp only at h5 h6
    subst h5
    refine ⟨fun _ _ => rfl, fun _ => ?_⟩
    rw [HonestH5.dclose_sets]
    exact h4.trans h6

/-- A range that wraps is past every dataset. -/
theorem h5TransferWrite_wrap (hne : buf ≠ []) (hge : 2 ^ 64 ≤ off + buf.length) (f : η) (key : CStr) :
    (h5TransferWrite f key off buf).1 = .backend := by
  rw [h5TransferWrite]
  obtain ⟨-, h2⟩ := h5OpenOrCreate_write f key (add64 off buf.length)
  generalize h5OpenOrCreate f key (add64 off buf.length) true = a at h2 ⊢
  obtain ⟨a, f₁⟩ := a
  cases a with
  | none => rfl
  | some d =>
    obtain ⟨h3, h4⟩ := h2 d rfl
    dsimp only at h3 h4 ⊢
    split_ifs
    · rfl
    have hlen := HonestH5.length_lt f₁ key _ h4.1
    have h5 := HonestH5.dwrite_past f₁ d key _ off buf h3 h4.1 hne (by omega)
    generalize H5.dwrite f₁ d off buf = a at h5 ⊢
    obtain ⟨ok, f₂⟩ := a
    dsimp only at h5
    subst h5
    rfl

/-- A dataset that is opened for reading. -/
theorem h5OpenOrCreate_read (f : η) (key : CStr) :
    sets (h5OpenOrCreate f key 0 false).2 = sets f ∧
    (sets f key = none → (h5OpenOrCreate f key 0 false).1 = none) ∧
    ∀ b, sets f key = some b → ∃ d, (h5OpenOrCreate f key 0 false).1 = some d ∧
      opened (h5OpenOrCreate f key 0 false).2 d = some key := by
  rw [h5OpenOrCreate]
  have h3 := HonestH5.dopen_sets f key
  cases hb : sets f key with
  | none =>
    have h1 := HonestH5.dopen_none f key hb
    split_ifs
    · generalize H5.dopen f key = a at h1 h3 ⊢
      obtain ⟨a, f₁⟩ := a
      dsimp only at h1 h3
      subst h1
      exact ⟨h3, fun _ => rfl, fun b h => (by cases h)⟩
    · exact ⟨rfl, fun _ => rfl, fun b h => (by cases h)⟩
    · exact absurd rfl ‹_›
  | some b =>
    rw [if_pos (HonestH5.lexists_some f key b hb)]
    obtain ⟨d, h1, h2⟩ := HonestH5.dopen_some f key b hb
    generalize H5.dopen f key = a at h1 h2 h3 ⊢
    obtain ⟨a, f₁⟩ := a
    dsimp only at h1 h2 h3 ⊢
    subst h1
    dsimp only
    rw [if_neg (by simp)]
    exact ⟨h3, fun h => (by cases h), fun _ _ => ⟨d, rfl, h2⟩⟩

/-- **A transfer that reads**: what it returns, and that it changes nothing. -/
theorem h5TransferRead_spec (f : η) (key : CStr) (off : ℕ) (hn : n ≠ 0) :
    sets (h5TransferRead f key off n).2 = sets f ∧
    (sets f key = none → (h5TransferRead f key off n).1.1 = .nokey) ∧
    ∀ b, sets f key = some b →
      (off + n ≤ b.length → (h5TransferRead f key off n).1 = (.ok, (b.drop off).take n)) ∧
      (b.length < add64 off n → (h5TransferRead f key off n).1.1 = .range) ∧
      (2 ^ 64 ≤ off + n → add64 off n ≤ b.length → (h5TransferRead f key off n).1.1 = .backend) := by
  rw [h5TransferRead]
  obtain ⟨h1, h2, h3⟩ := h5OpenOrCreate_read f key
  generalize h5OpenOrCreate f key 0 false = a at h1 h2 h3 ⊢
  obtain ⟨a, f₁⟩ := a
  dsimp only at h1 h2 h3
  cases hb : sets f key with
  | none =>
    have := h2 hb
    subst this
    exact ⟨h1, fun _ => rfl, fun b h => (by cases h)⟩
  | some b =>
    obtain ⟨d, rfl, h4⟩ := h3 b hb
    have hb₁ : sets f₁ key = some b := by rw [h1, hb]
    have hlen := HonestH5.length_lt f key b hb
    have h5 := HonestH5.dread_ok f₁ d key b off n h4 hb₁
    have h6 := HonestH5.dread_past f₁ d key b off n h4 hb₁ hn
    have h7 := HonestH5.dread_sets f₁ d off n
    have h8 := HonestH5.select_ok f₁ b.length off n
    dsimp only
    rw [HonestH5.dims_eq f₁ d key b h4 hb₁]
    by_cases hpast : add64 off n > b.length
    · rw [if_pos hpast, HonestH5.dclose_sets, h1]
      refine ⟨rfl, fun h => (by cases h), fun b' hb' => ?_⟩
      cases hb'
      refine ⟨fun hle => ?_, fun _ => rfl, fun _ hle => absurd hpast (Nat.not_lt.mpr hle)⟩
      rw [add64_eq (by omega)] at hpast
      omega
    rw [if_neg hpast]
    generalize H5.dread f₁ d off n = a at h5 h6 h7 ⊢
    obtain ⟨r, f₂⟩ := a
    dsimp only at h5 h6 h7 ⊢
    by_cases hle : off + n ≤ b.length
    · obtain rfl := h5 hle
      rw [h8 hle, if_neg (by decide)]
      refine ⟨by rw [HonestH5.dclose_sets, h7, h1], fun h => (by cases h), fun b' hb' => ?_⟩
      cases hb'
      refine ⟨fun _ => rfl, fun h => absurd h hpast, fun h => ?_⟩
      omega
    · -- the range wraps: the selection may fail, and the read does
      obtain rfl := h6 (Nat.not_le.mp hle)
      cases H5.select f₁ b.length off n with
      | false =>
        rw [if_pos (by decide), HonestH5.dclose_sets, h1]
        refine ⟨rfl, fun h => (by cases h), fun b' hb' => ?_⟩
        cases hb'
        exact ⟨fun h => absurd h hle, fun h => absurd h hpast, fun _ _ => rfl⟩
      | true =>
        rw [if_neg (by decide)]
        refine ⟨by rw [HonestH5.dclose_sets, h7, h1], fun h => (by cases h), fun b' hb' => ?_⟩
        cases hb'
        exact ⟨fun h => absurd h hle, fun h => absurd h hpast, fun _ _ => rfl⟩

/-! ## Accumulation -/

/-- `e'` is `e` combined with `buf` from `off` on. -/
def Combined (op : Reduce) (off : ℕ) (buf : List UInt8) (e e' : Entry) : Prop :=
  e'.bytes.length = max e.bytes.length (off + buf.length) ∧
  slice e'.byte off buf.length = op.run (slice e.byte off buf.length) buf ∧
  ∀ i, i < off ∨ off + buf.length ≤ i → e'.byte i = e.byte i

/-- What the call gives to the reduction: nothing of a range that a read does not cover. -/
def gathered (e : Entry) (off n : ℕ) : List UInt8 :=
  if off + n ≤ e.bytes.length then slice e.byte off n else List.replicate n 0

theorem length_gathered (e : Entry) (off n : ℕ) : (gathered e off n).length = n := by
  unfold gathered
  split_ifs
  · exact length_slice ..
  · exact List.length_replicate

/-- Past the end of an entry there are zeros. -/
theorem gathered_of_le {e : Entry} (h : e.bytes.length ≤ off ∨ off + n ≤ e.bytes.length) :
    gathered e off n = slice e.byte off n := by
  unfold gathered
  split_ifs with hle
  · rfl
  · have hz : slice e.byte off (List.replicate n (0 : UInt8)).length = List.replicate n 0 :=
      eq_slice fun i hi => by
        rw [List.length_replicate] at hi
        rw [Entry.byte_of_le (by omega), List.getD_eq_getElem _ _ (by rwa [List.length_replicate]),
          List.getElem_replicate]
    rw [List.length_replicate] at hz
    exact hz.symm

/-- A write combines if it writes what the reduction makes of the bytes that were there. -/
theorem combined_write (op : Reduce) (off : ℕ) (buf new : List UInt8) (e : Entry)
    (hlen : new.length = buf.length) :
    Combined op off buf e (e.write off new) ↔ new = op.run (slice e.byte off buf.length) buf := by
  rw [Combined, Entry.length_write, Entry.byte_write, hlen, ← hlen, slice_patch]
  refine ⟨fun h => h.2.1, fun h => ⟨rfl, h, fun i hi => ?_⟩⟩
  exact hi.elim patch_of_lt patch_of_ge

/-- **`ls_h5_accumulate`** writes what the reduction makes of what it has gathered. -/
theorem lsH5Accumulate_eq (hne : buf ≠ []) (hlt : off + buf.length < 2 ^ 64) (f : η) (key : CStr)
    (op : Reduce) : ∃ f₁ : η, sets f₁ = sets f ∧ lsH5Accumulate f key off buf op true =
      h5TransferWrite f₁ key off (op.run (gathered (h5Entry f key) off buf.length) buf) := by
  have hpos := List.length_pos_iff.mpr hne
  rw [lsH5Accumulate, if_neg (by decide)]
  obtain ⟨h1, h2, h3⟩ := h5TransferRead_spec f key off (by omega : buf.length ≠ 0)
  generalize h5TransferRead f key off buf.length = a at h1 h2 h3 ⊢
  obtain ⟨⟨rc, b⟩, f₁⟩ := a
  dsimp only at h1 h2 h3
  refine ⟨f₁, h1, ?_⟩
  unfold gathered h5Entry
  cases hb : sets f key with
  | none =>
    obtain rfl := h2 hb
    dsimp only [Option.getD_none]
    rw [if_pos (by decide), if_neg (by rw [List.length_nil]; omega)]
  | some b₀ =>
    obtain ⟨h4, h5, -⟩ := h3 b₀ hb
    dsimp only [Option.getD_some]
    by_cases hle : off + buf.length ≤ b₀.length
    · cases h4 hle
      rw [if_pos hle, Entry.slice_byte hle]
    · obtain rfl := h5 (by rw [add64_eq hlt]; omega)
      dsimp only
      rw [if_pos (by decide), if_neg hle]

/-- It does not succeed on a range that wraps. -/
theorem lsH5Accumulate_wrap (hne : buf ≠ []) (hge : 2 ^ 64 ≤ off + buf.length) (f : η) (key : CStr)
    (op : Reduce) : (lsH5Accumulate f key off buf op true).1 ≠ .ok := by
  have hpos := List.length_pos_iff.mpr hne
  have hwrite : ∀ (f : η) (b : List UInt8), (h5TransferWrite f key off (op.run b buf)).1 = .ok →
      b.length ≠ buf.length := by
    intro f b hok hb
    have hbl : (op.run b buf).length = buf.length := by rw [op.length_run, hb]
    rw [h5TransferWrite_wrap (by rw [← List.length_pos_iff]; omega) (by omega)] at hok
    cases hok
  rw [lsH5Accumulate, if_neg (by decide)]
  obtain ⟨-, h2, h3⟩ := h5TransferRead_spec f key off (by omega : buf.length ≠ 0)
  generalize h5TransferRead f key off buf.length = a at h2 h3 ⊢
  obtain ⟨⟨rc, b⟩, f₁⟩ := a
  dsimp only at h2 h3
  have hrc : rc ≠ .ok := by
    rintro rfl
    cases hb : sets f key with
    | none => cases h2 hb
    | some b₀ =>
      obtain ⟨-, h5, h6⟩ := h3 b₀ hb
      by_cases hlt : b₀.length < add64 off buf.length
      · cases h5 hlt
      · cases h6 hge (Nat.not_lt.mp hlt)
  by_cases hg : rc = .nokey ∨ rc = .range
  · intro hok
    refine hwrite f₁ (List.replicate buf.length 0) ?_ List.length_replicate
    rcases hg with rfl | rfl
    · exact hok
    · exact hok
  · cases rc with
    | ok => exact absurd rfl hrc
    | _ =>
      dsimp only
      rw [if_neg hg]
      exact hrc

/-- **`ls_accumulate` combines with what is stored** if the record does not end inside the range, or if
the reduction makes the same of the bytes there as of zeros. It succeeds on every plain name, if the range
does not reach the end of the numbers and there is memory. -/
theorem h5_accumulates_iff (hne : buf ≠ []) (f : η) (o : Opts) (key : CStr) (off : ℕ) (op : Reduce) :
    (∀ tmp f', accumulateH5 o f key off buf (some op) tmp = (.ok, f') →
      (Combined op off buf (h5Entry f key) (h5Entry f' key) ↔
        (h5Entry f key).bytes.length ≤ off ∨ off + buf.length ≤ (h5Entry f key).bytes.length ∨
        op.run (slice (h5Entry f key).byte off buf.length) buf =
          op.run (List.replicate buf.length 0) buf)) ∧
    (PlainName key → lsKeyOk key = true → o.mode = .explicit → off + buf.length < 2 ^ 64 - 1 →
      (accumulateH5 o f key off buf (some op) true).1 = .ok) := by
  refine ⟨fun tmp f' hrun => ?_, fun hname hkey hmode hlt => ?_⟩
  · rw [accumulateH5] at hrun
    split_ifs at hrun with h1 h2
    · cases hrun
    · cases hrun
    cases tmp with
    | false => cases hrun
    | true =>
      have hlt : off + buf.length < 2 ^ 64 := by
        by_contra hge
        exact lsH5Accumulate_wrap hne (Nat.not_lt.mp hge) f key op (by rw [hrun])
      obtain ⟨f₁, h3, h4⟩ := lsH5Accumulate_eq hne hlt f key op
      have hlen : (op.run (gathered (h5Entry f key) off buf.length) buf).length = buf.length := by
        rw [op.length_run, length_gathered]
      have hput := (h5TransferWrite_spec (by rw [hlen]; exact hlt) f₁ key).2
      rw [← h4, hrun] at hput
      have hentry : h5Entry f' key =
          (h5Entry f key).write off (op.run (gathered (h5Entry f key) off buf.length) buf) := by
        have := (hput rfl).1
        unfold h5Entry at this ⊢
        rw [this, h3]
        rfl
      rw [hentry, combined_write op off buf _ _ hlen]
      by_cases hin : (h5Entry f key).bytes.length ≤ off ∨ off + buf.length ≤ (h5Entry f key).bytes.length
      · rw [gathered_of_le hin]
        exact ⟨fun _ => hin.imp_right Or.inl, fun _ => rfl⟩
      · rw [gathered, if_neg fun h => hin (Or.inr h)]
        exact ⟨fun h => Or.inr (Or.inr h.symm),
          fun h => ((or_assoc.mpr h).resolve_left hin).symm⟩
  · rw [accumulateH5]
    rw [if_neg (by simp [hkey]), if_neg (by simp [hmode])]
    have hlt' : off + buf.length < 2 ^ 64 := by omega
    obtain ⟨f₁, -, h4⟩ := lsH5Accumulate_eq hne hlt' f key op
    have hlen : (op.run (gathered (h5Entry f key) off buf.length) buf).length = buf.length := by
      rw [op.length_run, length_gathered]
    rw [h4]
    exact (h5TransferWrite_spec (by rw [hlen]; omega) f₁ key).1 hname (by rw [hlen]; exact hlt)

end

/-- A file with one record of one byte. -/
def H5File.one : H5File := H5File.blank.put keyA [1] (by decide)

/-- A covered byte is combined. -/
theorem h5_accumulates_covered :
    Combined (.bump 1) 0 [0] (h5Entry H5File.one keyA)
      (h5Entry (accumulateH5 {} H5File.one keyA 0 [0] (some (.bump 1)) true).2 keyA) :=
  ((h5_accumulates_iff (List.cons_ne_nil 0 []) H5File.one {} keyA 0 (.bump 1)).1 true _
    (Prod.ext (by decide +kernel) rfl)).mpr (Or.inr (Or.inl (by decide +kernel)))

/-- A record that ends inside the range loses its byte. -/
theorem h5_accumulate_forgets :
    Elementwise 1 (.bump 1) ∧ (accumulateH5 {} H5File.one keyA 0 [0, 0] (some (.bump 1)) true).1 = .ok ∧
    ¬ Combined (.bump 1) 0 [0, 0] (h5Entry H5File.one keyA)
      (h5Entry (accumulateH5 {} H5File.one keyA 0 [0, 0] (some (.bump 1)) true).2 keyA) := by
  refine ⟨elementwise_bump (by decide), by decide +kernel, fun h => ?_⟩
  exact absurd h.2.1 (by decide +kernel)

end Libspill
