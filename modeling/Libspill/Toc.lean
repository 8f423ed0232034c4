import Libspill.Sequential

set_option autoImplicit false

/-!
# The table of contents on disk

What `toc_serialise` writes and what `toc_load` makes of bytes.

* `get32_put32`, `get64_put64`: numbers read back.
* `loadExtents_encExtents`, `tocLoad_encRec`: one record reads back.
* `tocNeed`: the length `toc_serialise` computes before it writes.
* **`toc_round_trip`**: a table reads back as the same map.
-/

namespace Libspill

variable {σ : Type}

/-! ## Numbers -/

@[simp] theorem length_putLE (n v : ℕ) : (putLE n v).length = n := by
  induction n generalizing v with
  | zero => rfl
  | succ n ih => rw [putLE, List.length_cons, ih]

theorem getLE_putLE (n v : ℕ) : getLE (putLE n v) = v % 256 ^ n := by
  induction n generalizing v with
  | zero => rw [putLE, getLE, pow_zero, Nat.mod_one]
  | succ n ih =>
    rw [putLE, getLE, ih, UInt8.toNat_ofNat']
    show v % 256 + 256 * (v / 256 % 256 ^ n) = v % 256 ^ (n + 1)
    rw [Nat.pow_succ', Nat.mod_mul]

theorem getLE_lt (b : List UInt8) : getLE b < 256 ^ b.length := by
  induction b with
  | nil => exact Nat.one_pos
  | cons c b ih =>
    have hc := c.toNat_lt
    rw [getLE, List.length_cons, Nat.pow_succ']
    omega

@[simp] theorem length_put32 (v : ℕ) : (put32 v).length = 4 := length_putLE 4 v

@[simp] theorem length_put64 (v : ℕ) : (put64 v).length = 8 := length_putLE 8 v

/-- A 32-bit number reads back. -/
theorem get32_put32 {v : ℕ} (h : v < 2 ^ 32) (w : List UInt8) : get32 (put32 v ++ w) = v := by
  rw [get32, List.take_left' (length_put32 v), put32, getLE_putLE, Nat.mod_eq_of_lt (h.trans_le (by norm_num))]

/-- A 64-bit number reads back. -/
theorem get64_put64 {v : ℕ} (h : v < 2 ^ 64) (w : List UInt8) : get64 (put64 v ++ w) = v := by
  rw [get64, List.take_left' (length_put64 v), put64, getLE_putLE, Nat.mod_eq_of_lt (h.trans_le (by norm_num))]

theorem get64_lt (b : List UInt8) : get64 b < 2 ^ 64 := by
  have h := getLE_lt (b.take 8)
  have hl : (b.take 8).length ≤ 8 := List.length_take_le 8 b
  calc get64 b < 256 ^ (b.take 8).length := h
    _ ≤ 256 ^ 8 := Nat.pow_le_pow_right (by norm_num) hl

/-! ## Writing -/

/-- The number of bytes `toc_serialise` allocates, computed before any is written. The table it
describes is in memory, so the sum is a `size_t`. -/
def tocNeed (s : Store σ) : ℕ :=
  (s.recs.map fun r => 4 + r.key.1.length + 8 + 4 + r.attr.length + 4 + 16 * r.next).sum

@[simp] theorem length_encExtent (e : Extent) : (encExtent e).length = 16 := by
  simp [encExtent]

@[simp] theorem length_encExtents (xs : List Extent) : (xs.flatMap encExtent).length = 16 * xs.length := by
  induction xs with
  | nil => rfl
  | cons x xs ih =>
    rw [List.flatMap_cons, List.length_append, length_encExtent, ih, List.length_cons]
    omega

theorem length_encRec {s : Store σ} {r : Rec} (h : (s.exts r).length = r.next) :
    (encRec s r).length = 4 + r.key.1.length + 8 + 4 + r.attr.length + 4 + 16 * r.next := by
  simp [encRec, h]
  omega

/-! ## Reading one record -/

/-- An extent inside the data area of a file whose data ends at `fileEnd`. -/
def InData (fileEnd : ℕ) (e : Extent) : Prop := LS_SUPER_SIZE ≤ e.foff ∧ e.foff + e.len ≤ fileEnd

/-- Extents inside the data area read back. -/
theorem loadExtents_encExtents {fileEnd : ℕ} (hfe : fileEnd < 2 ^ 64) {xs : List Extent}
    (hxs : ∀ e ∈ xs, InData fileEnd e) (w : List UInt8) :
    loadExtents fileEnd xs.length (xs.flatMap encExtent ++ w) = .ok (xs, w) := by
  induction xs with
  | nil => rfl
  | cons x xs ih =>
    obtain ⟨h1, h2⟩ := hxs x (List.mem_cons_self ..)
    have hw : (x :: xs).flatMap encExtent ++ w =
        put64 x.foff ++ (put64 x.len ++ (xs.flatMap encExtent ++ w)) := by
      simp [encExtent]
    have hdrop : (put64 x.foff ++ (put64 x.len ++ (xs.flatMap encExtent ++ w))).drop 16 =
        xs.flatMap encExtent ++ w := by
      rw [← List.append_assoc]
      exact List.drop_left' (by simp)
    rw [hw, List.length_cons, loadExtents, hdrop, List.drop_left' (length_put64 _),
      get64_put64 (by omega), get64_put64 (by omega)]
    dsimp only
    rw [if_neg (by rw [add64_eq (by omega)]; omega),
      ih fun e he => hxs e (List.mem_cons_of_mem _ he)]

/-- The bytes of a key without a zero byte are the C string they start with. -/
theorem cstr_val (k : CStr) : cstr k.1 = k := by
  refine Subtype.ext (List.takeWhile_eq_self_iff.mpr fun b hb => ?_)
  simp only [ne_eq, decide_not, Bool.not_eq_eq_eq_not, Bool.not_true, decide_eq_false_iff_not]
  rintro rfl
  exact k.2 hb

/-- A record that can be written to the table of contents. -/
structure Storable (s : Store σ) (r : Rec) : Prop where
  key : lsKeyOk r.key = true
  size : r.size < 2 ^ 64
  attr : r.attr.length ≤ LS_ATTR_MAX
  next : (s.exts r).length = r.next
  next_lt : r.next < 2 ^ 32
  inData : ∀ e ∈ s.exts r, InData s.al.fileEnd e
  extTotal : r.extTotal = (s.exts r).foldl (fun t e => add64 t e.len) 0

/-- **One record reads back.** -/
theorem tocLoad_encRec {s s₁ : Store σ} {r : Rec} (h : Storable s r) (hfe : s.al.fileEnd < 2 ^ 64)
    (hend : s₁.al.fileEnd = s.al.fileEnd) (count : ℕ) (w : List UInt8) :
    tocLoad (count + 1) (encRec s r ++ w) s₁ =
      tocLoad count w (loadRec s₁ r.key r.size r.attr (s.exts r)) := by
  have hkey : 0 < r.key.1.length ∧ r.key.1.length ≤ LS_KEY_MAX := by
    simpa [lsKeyOk] using h.key
  have hK : LS_KEY_MAX = 255 := rfl
  have hA : LS_ATTR_MAX = 256 := rfl
  have hattr := h.attr
  have hlt := h.next_lt
  have hload := loadExtents_encExtents hfe h.inData w
  rw [h.next] at hload
  have hw : encRec s r ++ w = put32 r.key.1.length ++ (r.key.1 ++ (put64 r.size ++
      (put32 r.attr.length ++ (r.attr ++ (put32 r.next ++
        ((s.exts r).flatMap encExtent ++ w)))))) := by
    simp [encRec]
  rw [hw, tocLoad]
  dsimp only
  rw [if_neg (by simp), get32_put32 (by omega), List.drop_left' (length_put32 _),
    if_neg (by simp only [List.length_append, length_put64]; omega), List.take_left, List.drop_left,
    cstr_val, get64_put64 h.size, List.drop_left' (length_put64 _), if_neg (by simp),
    get32_put32 (by omega), List.drop_left' (length_put32 _), if_neg (by simp; omega),
    List.take_left, List.drop_left, get32_put32 hlt, List.drop_left' (length_put32 _),
    if_neg (by simp [h.next]), hend, hload]

/-! ## Reading a table -/

/-- The record that `loadRec` adds, whose extents are in the array `p`. -/
def loadedRec (p : Ptr) (key : CStr) (size : ℕ) (attr : List UInt8) (xs : List Extent) : Rec :=
  if xs = [] then { key, size, attr }
  else { key, size, attr, ext := some p, next := xs.length, ncap := ncapFor xs.length
         extTotal := xs.foldl (fun t e => add64 t e.len) 0 }

@[simp] theorem loadedRec_key (p : Ptr) (key : CStr) (size : ℕ) (attr : List UInt8)
    (xs : List Extent) : (loadedRec p key size attr xs).key = key := by
  unfold loadedRec
  split_ifs <;> rfl

theorem le_ncapFor (n : ℕ) : n ≤ ncapFor n := by
  refine foldl_range_inv (fun i cap => i ≤ cap) _ 0 (Nat.le_refl _) (fun i cap h => ?_) n
  split_ifs with h1 h2 <;> omega

/-- A record as it is read: it has no buffer and no transfer. -/
structure Plain (r : Rec) : Prop where
  mem : r.mem = none ∧ r.memCap = 0
  busy : r.busy = 0
  noExt : r.ext = none → r.next = 0 ∧ r.ncap = 0
  next_le : r.next ≤ r.ncap

theorem plain_loadedRec (p : Ptr) (key : CStr) (size : ℕ) (attr : List UInt8) (xs : List Extent) :
    Plain (loadedRec p key size attr xs) := by
  unfold loadedRec
  split_ifs
  · exact ⟨⟨rfl, rfl⟩, rfl, fun _ => ⟨rfl, rfl⟩, Nat.le_refl _⟩
  · exact ⟨⟨rfl, rfl⟩, rfl, fun h => (by cases h), le_ncapFor _⟩

/-- The table while it is read: arrays that records use are not used again. -/
structure Loading (s : Store σ) : Prop where
  placed : Chained.Placed s.toc.tab
  count : s.toc.n = s.recs.length
  ext_lt : ∀ r ∈ s.recs, ∀ p, r.ext = some p → p < s.arrNext
  plain : ∀ r ∈ s.recs, Plain r
  ext_inj : ∀ r ∈ s.recs, ∀ r' ∈ s.recs, ∀ p, r.ext = some p → r'.ext = some p → r.key = r'.key

section Loading

/-- Before the first record is read. -/
theorem Loading.start {s : Store σ} (h : s.toc.WF) (hnil : s.recs = []) : Loading s where
  placed := h.placed
  count := h.count
  ext_lt r hr := by
    rw [hnil] at hr
    cases hr
  plain r hr := by
    rw [hnil] at hr
    cases hr
  ext_inj r hr := by
    rw [hnil] at hr
    cases hr

variable {s : Store σ} {key : CStr} {size : ℕ} {attr : List UInt8} {xs : List Extent}

theorem toc_loadRec (s : Store σ) (key : CStr) (size : ℕ) (attr : List UInt8) (xs : List Extent) :
    (loadRec s key size attr xs).toc = s.toc.insert (loadedRec s.arrNext key size attr xs) := by
  unfold loadRec loadedRec
  split_ifs
  · exact Chained.update_insert _ rfl
  · exact Chained.update_insert _ rfl

theorem wf_loadRec (h : s.toc.WF) (hn : s.find key = none) (size : ℕ) (attr : List UInt8)
    (xs : List Extent) : (loadRec s key size attr xs).toc.WF := by
  rw [toc_loadRec]
  refine (Chained.perm_insert h ?_).1
  show s.find (loadedRec s.arrNext key size attr xs).key = none
  rw [loadedRec_key, hn]

/-- A record that is read leaves the others alone. -/
theorem loading_loadRec (h : Loading s) (key : CStr) (size : ℕ) (attr : List UInt8)
    (xs : List Extent) : Loading (loadRec s key size attr xs) ∧
    (loadRec s key size attr xs).recs.Perm (loadedRec s.arrNext key size attr xs :: s.recs) ∧
    (loadRec s key size attr xs).al = s.al ∧
    (loadRec s key size attr xs).exts (loadedRec s.arrNext key size attr xs) = xs ∧
    ∀ r ∈ s.recs, (loadRec s key size attr xs).exts r = s.exts r := by
  obtain ⟨hp, hperm⟩ := Chained.placed_insert h.placed (loadedRec s.arrNext key size attr xs)
  rw [← toc_loadRec] at hp hperm
  have hnext : s.arrNext ≤ (loadRec s key size attr xs).arrNext := by
    unfold loadRec
    split_ifs
    · exact Nat.le_refl _
    · exact Nat.le_succ _
  have hlt : ∀ p, (loadedRec s.arrNext key size attr xs).ext = some p →
      p < (loadRec s key size attr xs).arrNext := by
    unfold loadRec loadedRec
    split_ifs
    · intro p hp
      cases hp
    · intro p hp
      cases hp
      exact Nat.lt_succ_self _
  have hge : ∀ p, (loadedRec s.arrNext key size attr xs).ext = some p → s.arrNext ≤ p := by
    unfold loadedRec
    split_ifs
    · intro p hp
      cases hp
    · intro p hp
      cases hp
      exact Nat.le_refl _
  refine ⟨⟨hp, ?_, fun r hr p hp => ?_, fun r hr => ?_, fun r hr r' hr' p hp hp' => ?_⟩,
    hperm, ?_, ?_, fun r hr => ?_⟩
  · have hn := hperm.length_eq
    rw [List.length_cons] at hn
    rw [toc_loadRec, Chained.n_insert, h.count]
    exact hn.symm
  · rcases List.mem_cons.mp (hperm.mem_iff.mp hr) with rfl | hr
    · exact hlt p hp
    · exact (h.ext_lt r hr p hp).trans_le hnext
  · rcases List.mem_cons.mp (hperm.mem_iff.mp hr) with rfl | hr
    · exact plain_loadedRec _ _ _ _ _
    · exact h.plain r hr
  · rcases List.mem_cons.mp (hperm.mem_iff.mp hr) with rfl | hr <;>
      rcases List.mem_cons.mp (hperm.mem_iff.mp hr') with rfl | hr'
    · rfl
    · exact absurd (h.ext_lt r' hr' p hp') (Nat.not_lt.mpr (hge p hp))
    · exact absurd (h.ext_lt r hr p hp) (Nat.not_lt.mpr (hge p hp'))
    · exact h.ext_inj r hr r' hr' p hp hp'
  · unfold loadRec
    split_ifs <;> rfl
  · unfold loadRec loadedRec
    split_ifs with hx
    · exact hx.symm
    · refine List.ext_getElem (by simp [Store.exts]) fun i h1 h2 => ?_
      simp [Store.exts, Store.setRec, lsTocInsert, h2]
  · unfold loadRec
    split_ifs
    · rfl
    · unfold Store.exts
      cases hr' : r.ext with
      | none => rfl
      | some p =>
        refine List.map_congr_left fun i _ => ?_
        have := h.ext_lt r hr p hr'
        simp [Store.setRec, lsTocInsert, Function.update_of_ne (Nat.ne_of_lt this)]

/-- A record that is read adds its extents to those of the table. -/
theorem live_loadRec (h : Loading s) : (loadRec s key size attr xs).live.Perm (xs ++ s.live) ∧
    (loadRec s key size attr xs).teardown = s.teardown := by
  obtain ⟨-, hperm, -, hx, hold⟩ := loading_loadRec h key size attr xs
  constructor
  · refine (live_perm hperm).trans ?_
    rw [hx, Store.live, List.flatMap_congr fun q hq => hold q hq]
  · unfold loadRec
    split_ifs <;> rfl

end Loading

/-- What a table holds under a key. -/
structure Row where
  key : CStr
  size : ℕ
  attr : List UInt8
  exts : List Extent
  extTotal : ℕ
deriving DecidableEq

/-- The row of a record. -/
def Store.row (s : Store σ) (r : Rec) : Row := ⟨r.key, r.size, r.attr, s.exts r, r.extTotal⟩

instance (s : Store σ) (r : Rec) : Decidable (Storable s r) :=
  decidable_of_iff (lsKeyOk r.key = true ∧ r.size < 2 ^ 64 ∧ r.attr.length ≤ LS_ATTR_MAX ∧
      (s.exts r).length = r.next ∧ r.next < 2 ^ 32 ∧
      (∀ e ∈ s.exts r, LS_SUPER_SIZE ≤ e.foff ∧ e.foff + e.len ≤ s.al.fileEnd) ∧
      r.extTotal = (s.exts r).foldl (fun t e => add64 t e.len) 0)
    ⟨fun ⟨h1, h2, h3, h4, h5, h6, h7⟩ => ⟨h1, h2, h3, h4, h5, h6, h7⟩,
      fun h => ⟨h.key, h.size, h.attr, h.next, h.next_lt, h.inData, h.extTotal⟩⟩

/-- Reading a record adds its row. -/
theorem rows_loadRec {s : Store σ} (h : Loading s) (key : CStr) (size : ℕ) (attr : List UInt8)
    (xs : List Extent) : ((loadRec s key size attr xs).recs.map (loadRec s key size attr xs).row).Perm
      (⟨key, size, attr, xs, xs.foldl (fun t e => add64 t e.len) 0⟩ :: s.recs.map s.row) := by
  obtain ⟨-, hperm, -, hx, hold⟩ := loading_loadRec h key size attr xs
  have hrow : (loadRec s key size attr xs).row (loadedRec s.arrNext key size attr xs) =
      ⟨key, size, attr, xs, xs.foldl (fun t e => add64 t e.len) 0⟩ := by
    rw [Store.row, hx]
    unfold loadedRec
    split_ifs with hnil
    · rw [hnil]
      rfl
    · rfl
  have hrest : s.recs.map (loadRec s key size attr xs).row = s.recs.map s.row :=
    List.map_congr_left fun q hq => by rw [Store.row, Store.row, hold q hq]
  have hmap := hperm.map (loadRec s key size attr xs).row
  rwa [List.map_cons, hrow, hrest] at hmap

/-- Reading what was written adds its rows to the table. -/
theorem tocLoad_flatMap {s : Store σ} (hfe : s.al.fileEnd < 2 ^ 64) {l : List Rec}
    (hl : ∀ r ∈ l, Storable s r) {s₁ : Store σ} (h : Loading s₁)
    (hend : s₁.al.fileEnd = s.al.fileEnd) :
    ∃ s', tocLoad l.length (l.flatMap (encRec s)) s₁ = .ok s' ∧ Loading s' ∧
      (s'.recs.map s'.row).Perm (l.map s.row ++ s₁.recs.map s₁.row) := by
  induction l generalizing s₁ with
  | nil => exact ⟨s₁, rfl, h, List.Perm.refl _⟩
  | cons r l ih =>
    have hr := hl r (List.mem_cons_self ..)
    obtain ⟨h1, -, hal, -, -⟩ := loading_loadRec h r.key r.size r.attr (s.exts r)
    obtain ⟨s', hload, h', hrows⟩ := ih (fun r hr => hl r (List.mem_cons_of_mem _ hr)) h1
      (by rw [hal]; exact hend)
    refine ⟨s', by rw [List.length_cons, List.flatMap_cons, tocLoad_encRec hr hfe hend, hload], h',
      hrows.trans ?_⟩
    have hrow := rows_loadRec h r.key r.size r.attr (s.exts r)
    rw [← hr.extTotal] at hrow
    exact (hrow.append_left _).trans List.perm_middle

theorem map_row_find {s : Store σ} (h : s.toc.WF) (k : CStr) (x : Row) :
    (s.find k).map s.row = some x ↔ x ∈ s.recs.map s.row ∧ x.key = k := by
  rw [Option.map_eq_some_iff, List.mem_map]
  constructor
  · rintro ⟨r, hr, rfl⟩
    obtain ⟨h1, h2⟩ := (find_iff_mem h).mp hr
    exact ⟨⟨r, h1, rfl⟩, h2⟩
  · rintro ⟨⟨r, hr, rfl⟩, hk⟩
    exact ⟨r, (find_iff_mem h).mpr ⟨hr, hk⟩, rfl⟩

/-- The rows of a table that was written and read back. -/
structure SameRows (s s' : Store σ) : Prop where
  perm : (s'.recs.map s'.row).Perm (s.recs.map s.row)
  find : ∀ k, (s'.find k).map s'.row = (s.find k).map s.row

theorem SameRows.live {s s' : Store σ} (h : SameRows s s') : s'.live.Perm s.live := by
  have := h.perm.flatMap_right Row.exts
  rwa [List.flatMap_map, List.flatMap_map] at this

theorem SameRows.some {s s' : Store σ} (h : SameRows s s') {k : CStr} {r' : Rec}
    (hk : s'.find k = some r') : ∃ r, s.find k = some r ∧ s'.row r' = s.row r := by
  have := h.find k
  rw [hk, Option.map_some] at this
  obtain ⟨r, h1, h2⟩ := Option.map_eq_some_iff.mp this.symm
  exact ⟨r, h1, h2.symm⟩

theorem SameRows.symm {s s' : Store σ} (h : SameRows s s') : SameRows s' s :=
  ⟨h.perm.symm, fun k => (h.find k).symm⟩

/-- A table that was read. -/
structure Loaded (s s' : Store σ) : Prop where
  loading : Loading s'
  wf : s'.toc.WF
  rows : SameRows s s'

/-- Reading what was written. -/
theorem tocLoad_tocSerialise {s s₀ : Store σ} (hwf : s.toc.WF) (hs : ∀ r ∈ s.recs, Storable s r)
    (hfe : s.al.fileEnd < 2 ^ 64) (hwf₀ : s₀.toc.WF) (hnil : s₀.recs = [])
    (hend : s₀.al.fileEnd = s.al.fileEnd) :
    ∃ s', tocLoad s.toc.n (tocSerialise s) s₀ = .ok s' ∧ Loaded s s' := by
  obtain ⟨s', h1, h2, h3⟩ := tocLoad_flatMap hfe hs (.start hwf₀ hnil) hend
  rw [hnil, List.map_nil, List.append_nil] at h3
  have hkeys : (s'.recs.map Rec.key).Perm (s.recs.map Rec.key) := by
    have := h3.map Row.key
    rwa [List.map_map, List.map_map] at this
  have hwf' : s'.toc.WF := ⟨h2.placed, hkeys.nodup_iff.mpr hwf.nodup, h2.count⟩
  refine ⟨s', by rw [hwf.count]; exact h1, h2, hwf', h3, fun k => Option.ext fun x => ?_⟩
  rw [map_row_find hwf', map_row_find hwf, h3.mem_iff]

/-- **Decoding undoes encoding**: `toc_serialise` writes the bytes it has allocated, and `toc_load`
makes the same map of them. -/
theorem toc_round_trip {s s₀ : Store σ} (hwf : s.toc.WF) (hs : ∀ r ∈ s.recs, Storable s r)
    (hfe : s.al.fileEnd < 2 ^ 64) (hwf₀ : s₀.toc.WF) (hnil : s₀.recs = [])
    (hend : s₀.al.fileEnd = s.al.fileEnd) :
    (tocSerialise s).length = tocNeed s ∧
      ∃ s', tocLoad s.toc.n (tocSerialise s) s₀ = .ok s' ∧
        ∀ k, (s'.find k).map s'.row = (s.find k).map s.row := by
  constructor
  · rw [tocSerialise, tocNeed, List.length_flatMap]
    exact congrArg List.sum (List.map_congr_left fun r hr => length_encRec (hs r hr).next)
  · obtain ⟨s', h1, h2⟩ := tocLoad_tocSerialise hwf hs hfe hwf₀ hnil hend
    exact ⟨s', h1, h2.rows.find⟩

/-- A table of two records, one with two extents and an attribute, one of length zero. -/
def twoRows : Store Disk :=
  let s := loadRec (Disk.newStore {}) keyA 5 [1, 2] [⟨8192, 4096⟩, ⟨4096, 4096⟩]
  let s := loadRec s keyB 0 [] []
  { s with al := ⟨[], 12288⟩ }

theorem toc_round_trip_two :
    (tocSerialise twoRows).length = tocNeed twoRows ∧
      ∃ s', tocLoad twoRows.toc.n (tocSerialise twoRows)
          { Disk.newStore {} with al := ⟨[], 12288⟩ } = .ok s' ∧
        ∀ k, (s'.find k).map s'.row = (twoRows.find k).map twoRows.row := by
  have hwf₀ : (Disk.newStore {}).toc.WF := Chained.wf_empty (by norm_num)
  have hwf : twoRows.toc.WF := wf_loadRec (wf_loadRec hwf₀ (by decide +kernel) _ _ _)
    (by decide +kernel) _ _ _
  exact toc_round_trip hwf (by decide +kernel) (by decide) hwf₀ (by decide +kernel) rfl

end Libspill
