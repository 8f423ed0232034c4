import Libspill.Rebuild

set_option autoImplicit false

/-!
# The cursor of `toc_load`

`toc_load` walks through a buffer with a pointer. Here it is once more, with the pointer, the two ways
it compares what is left, and everything it touches on the way.

* `walkToc`: the loop, with the number of turns it has begun and the bytes it has touched.
* `walkToc_result`: it computes what `tocLoad` computes.
* `TocEntry`: a record as it is spelt in the buffer.
* **`walkToc_safe`**: whatever the bytes and the count say, nothing outside the buffers is touched, a
  turn takes 21 bytes, and `LS_OK` means that the buffer begins with that many entries.
-/

namespace Libspill

variable {σ : Type}

/-! ## The walk -/

/-- What `toc_load` touches. -/
inductive Touch where
  /-- Bytes of the buffer are read. -/
  | read (pos n : ℕ)
  /-- Bytes of `key` are written. -/
  | key (pos n : ℕ)
  /-- The first bytes of `r->attr` are written. -/
  | attr (n : ℕ)
  /-- An entry of an extent array that has room for `cap` of them is written. -/
  | ext (i cap : ℕ)

/-- The bytes that a step touches exist. -/
def Touch.Inside (b : List UInt8) : Touch → Prop
  | .read pos n => pos + n ≤ b.length
  | .key pos n => pos + n ≤ LS_KEY_MAX + 1
  | .attr n => n ≤ LS_ATTR_MAX
  | .ext i cap => i < cap

/-- `end - w`. -/
def leftOf (b : List UInt8) (w : ℕ) : ℤ := b.length - w

/-- `(size_t)(end - w)`. -/
def sizeLeft (b : List UInt8) (w : ℕ) : ℕ := (leftOf b w % 2 ^ 64).toNat

/-- The inner loop: the extents found, the cursor, and what was touched. -/
def walkExtents (b : List UInt8) (fileEnd : ℕ) :
    ℕ → ℕ → ℕ → ℕ → Except Rc (List Extent) × ℕ × List Touch
  | 0, w, _, _ => (.ok [], w, [])
  | ne + 1, w, next, ncap =>
    let x : Extent := ⟨get64 (b.drop w), get64 (b.drop (w + 8))⟩
    if x.foff < LS_SUPER_SIZE ∨ add64 x.foff x.len > fileEnd then
      (.error .corrupt, w + 16, [.read w 8, .read (w + 8) 8])
    else
      let cap := if next = ncap then (if ncap ≠ 0 then ncap * 2 else 4) else ncap
      let r := walkExtents b fileEnd ne (w + 16) (next + 1) cap
      (r.1.map (x :: ·), r.2.1, .read w 8 :: .read (w + 8) 8 :: .ext next cap :: r.2.2)

/-- How far `toc_load` got. -/
structure Walk (σ : Type) where
  /-- The turns of the outer loop that were begun. -/
  turns : ℕ
  touched : List Touch
  result : Except Rc (Store σ)

/-- A turn that ends the call with an error. -/
def Walk.stop (t : List Touch) : Walk σ := ⟨1, t, .error .corrupt⟩

/-- `toc_load`, with `w` the offset of the cursor in the buffer. -/
def walkToc (b : List UInt8) : ℕ → ℕ → Store σ → Walk σ
  | 0, _, s => ⟨0, [], .ok s⟩
  | count + 1, w, s =>
    if leftOf b w < 4 then .stop []
    else
      let kl := get32 (b.drop w)
      let t : List Touch := [.read w 4]
      let w := w + 4
      if kl = 0 ∨ kl > LS_KEY_MAX ∨ sizeLeft b w < (kl + 8) % 2 ^ 32 then .stop t
      else
        let key := cstr ((b.drop w).take kl)
        let t := t ++ [.read w kl, .key 0 kl, .key kl 1]
        let w := w + kl
        let size := get64 (b.drop w)
        let t := t ++ [.read w 8]
        let w := w + 8
        if leftOf b w < 4 then .stop t
        else
          let attrlen := get32 (b.drop w)
          let t := t ++ [.read w 4]
          let w := w + 4
          if attrlen > LS_ATTR_MAX ∨ sizeLeft b w < (attrlen + 4) % 2 ^ 32 then .stop t
          else
            let attr := (b.drop w).take attrlen
            let t := t ++ if attrlen = 0 then [] else [.read w attrlen, .attr attrlen]
            let w := w + attrlen
            let ne := get32 (b.drop w)
            let t := t ++ [.read w 4]
            let w := w + 4
            if sizeLeft b w < ne * 16 % 2 ^ 64 then .stop t
            else
              let r := walkExtents b s.al.fileEnd ne w 0 0
              match r.1 with
              | .error rc => ⟨1, t ++ r.2.2, .error rc⟩
              | .ok xs =>
                let k := walkToc b count r.2.1 (loadRec s key size attr xs)
                ⟨k.turns + 1, t ++ r.2.2 ++ k.touched, k.result⟩

/-! ## What is left -/

section Left

variable {b : List UInt8} {w : ℕ}

theorem leftOf_lt (w k : ℕ) : leftOf b w < k ↔ (b.drop w).length < k ∨ b.length < w := by
  unfold leftOf
  rw [List.length_drop]
  omega

theorem sizeLeft_eq (hb : b.length < 2 ^ 64) (hw : w ≤ b.length) :
    sizeLeft b w = (b.drop w).length := by
  unfold sizeLeft leftOf
  rw [List.length_drop, Int.emod_eq_of_lt (by omega) (by omega)]
  omega

theorem get32_lt (w : List UInt8) : get32 w < 2 ^ 32 := by
  have h := getLE_lt (w.take 4)
  have hl : (w.take 4).length ≤ 4 := List.length_take_le 4 w
  calc get32 w < 256 ^ (w.take 4).length := h
    _ ≤ 256 ^ 4 := Nat.pow_le_pow_right (by norm_num) hl

end Left

/-! ## The inner loop -/

/-- What the inner loop has done when its extents are all in the buffer. -/
structure ExtentsWalked (b : List UInt8) (fileEnd ne w : ℕ)
    (r : Except Rc (List Extent) × ℕ × List Touch) : Prop where
  result : (r.1.map fun xs => (xs, b.drop (w + ne * 16))) = loadExtents fileEnd ne (b.drop w)
  cursor : ∀ xs, r.1 = .ok xs → r.2.1 = w + ne * 16
  inside : ∀ t ∈ r.2.2, t.Inside b

/-- One turn of the inner loop. -/
theorem loadExtents_drop (b : List UInt8) (fileEnd ne w : ℕ) :
    loadExtents fileEnd (ne + 1) (b.drop w) =
      if get64 (b.drop w) < LS_SUPER_SIZE ∨
          add64 (get64 (b.drop w)) (get64 (b.drop (w + 8))) > fileEnd then .error .corrupt
      else (loadExtents fileEnd ne (b.drop (w + 16))).map fun r =>
        (⟨get64 (b.drop w), get64 (b.drop (w + 8))⟩ :: r.1, r.2) := by
  have h8 : (b.drop w).drop 8 = b.drop (w + 8) := List.drop_drop ..
  have h16 : (b.drop w).drop 16 = b.drop (w + 16) := List.drop_drop ..
  rw [loadExtents, h8, h16]
  dsimp only
  cases loadExtents fileEnd ne (b.drop (w + 16)) <;> rfl

theorem walkExtents_spec {b : List UInt8} (fileEnd : ℕ) {ne w next ncap : ℕ}
    (hw : w + ne * 16 ≤ b.length) (hcap : next ≤ ncap) :
    ExtentsWalked b fileEnd ne w (walkExtents b fileEnd ne w next ncap) := by
  induction ne generalizing w next ncap with
  | zero => exact ⟨by simp [walkExtents, loadExtents, Except.map], fun _ _ => by simp [walkExtents],
      fun t ht => (by cases ht)⟩
  | succ ne ih =>
    have hread : Touch.Inside b (.read w 8) ∧ Touch.Inside b (.read (w + 8) 8) := by
      constructor <;> unfold Touch.Inside <;> omega
    unfold walkExtents
    dsimp only
    by_cases hbad : get64 (b.drop w) < LS_SUPER_SIZE ∨
      add64 (get64 (b.drop w)) (get64 (b.drop (w + 8))) > fileEnd
    · rw [if_pos hbad]
      refine ⟨?_, fun xs h => (by cases h), fun t ht => ?_⟩
      · rw [loadExtents_drop, if_pos hbad]
        rfl
      · simp only [List.mem_cons, List.not_mem_nil, or_false] at ht
        rcases ht with rfl | rfl
        · exact hread.1
        · exact hread.2
    rw [if_neg hbad]
    generalize hc : (if next = ncap then (if ncap ≠ 0 then ncap * 2 else 4) else ncap) = cap
    have hlt : next < cap := by
      split_ifs at hc <;> omega
    obtain ⟨h1, h2, h3⟩ := ih (w := w + 16) (by omega) (show next + 1 ≤ cap from hlt)
    have hend : w + 16 + ne * 16 = w + (ne + 1) * 16 := by omega
    rw [hend] at h1 h2
    generalize walkExtents b fileEnd ne (w + 16) (next + 1) cap = r at h1 h2 h3 ⊢
    obtain ⟨res, w', t'⟩ := r
    refine ⟨?_, fun xs h => ?_, fun t ht => ?_⟩
    · rw [loadExtents_drop, if_neg hbad, ← h1]
      cases res <;> rfl
    · cases res with
      | error rc => cases h
      | ok ys => exact h2 ys rfl
    · rcases List.mem_cons.mp ht with rfl | ht
      · exact hread.1
      rcases List.mem_cons.mp ht with rfl | ht
      · exact hread.2
      rcases List.mem_cons.mp ht with rfl | ht
      · exact hlt
      · exact h3 t ht

/-! ## Entries -/

/-- A record as it is spelt in a table of contents. -/
structure TocEntry where
  key : List UInt8
  size : ℕ
  attr : List UInt8
  exts : List Extent

/-- The bytes of an entry. -/
def TocEntry.enc (x : TocEntry) : List UInt8 :=
  put32 x.key.length ++ x.key ++ put64 x.size ++ put32 x.attr.length ++ x.attr ++
    put32 x.exts.length ++ x.exts.flatMap encExtent

/-- The lengths that `toc_load` lets through, and numbers that fit their fields. -/
structure TocEntry.Ok (x : TocEntry) : Prop where
  key : 1 ≤ x.key.length ∧ x.key.length ≤ LS_KEY_MAX
  attr : x.attr.length ≤ LS_ATTR_MAX
  size : x.size < 2 ^ 64
  count : x.exts.length < 2 ^ 32
  exts : ∀ e ∈ x.exts, e.foff < 2 ^ 64 ∧ e.len < 2 ^ 64

/-- The entries that the bytes of a table spell. -/
def tocEntries : ℕ → List UInt8 → List TocEntry
  | 0, _ => []
  | count + 1, w =>
    let kl := get32 w
    let w := w.drop 4
    let key := w.take kl
    let w := w.drop kl
    let size := get64 w
    let w := w.drop 8
    let attrlen := get32 w
    let w := w.drop 4
    let attr := w.take attrlen
    let w := w.drop attrlen
    let ne := get32 w
    let w := w.drop 4
    ⟨key, size, attr, rawExtents ne w⟩ :: tocEntries count (w.drop (ne * 16))

@[simp] theorem length_tocEntries (count : ℕ) (w : List UInt8) : (tocEntries count w).length = count := by
  induction count generalizing w with
  | zero => rfl
  | succ count ih => rw [tocEntries, List.length_cons, ih]

theorem putLE_getLE (b : List UInt8) : putLE b.length (getLE b) = b := by
  induction b with
  | nil => rfl
  | cons c b ih =>
    have hc := c.toNat_lt
    have hdiv : (c.toNat + 256 * getLE b) / 256 = getLE b := by omega
    rw [List.length_cons, getLE, putLE, hdiv, ih]
    congr 1
    apply UInt8.toNat_inj.mp
    rw [UInt8.toNat_ofNat']
    omega

/-- Four bytes at the cursor are the number they spell. -/
theorem put32_get32 {b : List UInt8} {w : ℕ} (h : w + 4 ≤ b.length) :
    put32 (get32 (b.drop w)) ++ b.drop (w + 4) = b.drop w := by
  have hl : ((b.drop w).take 4).length = 4 := by
    rw [List.length_take, List.length_drop]
    omega
  unfold put32 get32
  nth_rewrite 1 [← hl]
  rw [putLE_getLE, ← List.drop_drop, List.take_append_drop]

/-- Eight bytes at the cursor are the number they spell. -/
theorem put64_get64 {b : List UInt8} {w : ℕ} (h : w + 8 ≤ b.length) :
    put64 (get64 (b.drop w)) ++ b.drop (w + 8) = b.drop w := by
  have hl : ((b.drop w).take 8).length = 8 := by
    rw [List.length_take, List.length_drop]
    omega
  unfold put64 get64
  nth_rewrite 1 [← hl]
  rw [putLE_getLE, ← List.drop_drop, List.take_append_drop]

theorem take_append_drop_add (b : List UInt8) (w k : ℕ) :
    (b.drop w).take k ++ b.drop (w + k) = b.drop w := by
  rw [← List.drop_drop, List.take_append_drop]

@[simp] theorem length_rawExtents (ne : ℕ) (w : List UInt8) : (rawExtents ne w).length = ne := by
  induction ne generalizing w with
  | zero => rfl
  | succ ne ih => rw [rawExtents, List.length_cons, ih]

theorem rawExtents_lt {ne : ℕ} {w : List UInt8} {e : Extent} (h : e ∈ rawExtents ne w) :
    e.foff < 2 ^ 64 ∧ e.len < 2 ^ 64 := by
  induction ne generalizing w with
  | zero => cases h
  | succ ne ih =>
    rw [rawExtents] at h
    rcases List.mem_cons.mp h with rfl | h
    · exact ⟨get64_lt _, get64_lt _⟩
    · exact ih h

/-- The extents at the cursor are spelt by their bytes. -/
theorem enc_rawExtents {b : List UInt8} {ne w : ℕ} (h : w + ne * 16 ≤ b.length) :
    (rawExtents ne (b.drop w)).flatMap encExtent ++ b.drop (w + ne * 16) = b.drop w := by
  induction ne generalizing w with
  | zero => simp [rawExtents]
  | succ ne ih =>
    have hrest := ih (w := w + 16) (by omega)
    rw [show w + 16 + ne * 16 = w + (ne + 1) * 16 by omega] at hrest
    rw [rawExtents, List.flatMap_cons, List.append_assoc, List.drop_drop, List.drop_drop, hrest,
      encExtent, List.append_assoc, put64_get64 (w := w + 8) (by omega), put64_get64 (by omega)]

/-! ## The outer loop -/

/-- What the outer loop has done from the cursor `w` on. -/
structure Walked (b : List UInt8) (count w : ℕ) (s : Store σ) (k : Walk σ) : Prop where
  result : k.result = tocLoad count (b.drop w) s
  inside : ∀ t ∈ k.touched, t.Inside b
  turns : k.turns ≤ (b.length - w) / 21 + 1
  entries : ∀ s', k.result = .ok s' → (∀ x ∈ tocEntries count (b.drop w), x.Ok) ∧
    (tocEntries count (b.drop w)).flatMap TocEntry.enc <+: b.drop w

section Walk

variable {b : List UInt8} {count w : ℕ} {s : Store σ}

theorem Walked.stop {t : List Touch} (ht : ∀ x ∈ t, x.Inside b)
    (hr : tocLoad (count + 1) (b.drop w) s = .error .corrupt) :
    Walked b (count + 1) w s (.stop t) where
  result := hr.symm
  inside := ht
  turns := Nat.le_add_left _ _
  entries _ h := by cases h

theorem walkToc_spec (hb : b.length < 2 ^ 64) (hw : w ≤ b.length) :
    Walked b count w s (walkToc b count w s) := by
  induction count generalizing w s with
  | zero => exact ⟨rfl, fun t ht => (by cases ht), Nat.zero_le _, fun _ _ =>
      ⟨fun x hx => (by cases hx), List.nil_prefix⟩⟩
  | succ count ih =>
    have hK : LS_KEY_MAX = 255 := rfl
    have hA : LS_ATTR_MAX = 256 := rfl
    have hload : tocLoad (count + 1) (b.drop w) s = tocLoad (count + 1) (b.drop w) s := rfl
    conv at hload =>
      rhs
      unfold tocLoad
      simp only [List.drop_drop]
    have hents : tocEntries (count + 1) (b.drop w) = tocEntries (count + 1) (b.drop w) := rfl
    conv at hents =>
      rhs
      unfold tocEntries
      simp only [List.drop_drop]
    unfold walkToc
    -- the length of the key
    by_cases h1 : leftOf b w < 4
    · rw [if_pos h1]
      refine .stop (fun x hx => (by cases hx)) ?_
      rw [hload, if_pos (((leftOf_lt w 4).mp h1).resolve_right (by omega))]
    have hw1 : w + 4 ≤ b.length := by
      unfold leftOf at h1
      omega
    have hp1 := put32_get32 hw1
    rw [if_neg h1]
    rw [if_neg (by rw [List.length_drop]; omega)] at hload
    generalize get32 (b.drop w) = kl at hload hents hp1 ⊢
    dsimp only at hload hents ⊢
    -- the key
    by_cases h2 : kl = 0 ∨ kl > LS_KEY_MAX ∨ sizeLeft b (w + 4) < (kl + 8) % 2 ^ 32
    · rw [if_pos h2]
      refine .stop (by simpa [Touch.Inside] using hw1) ?_
      rw [sizeLeft_eq hb hw1] at h2
      rw [hload, if_pos (by omega)]
    rw [if_neg h2]
    rw [sizeLeft_eq hb hw1, List.length_drop] at h2
    have hkl : 1 ≤ kl ∧ kl ≤ 255 ∧ w + 4 + kl + 8 ≤ b.length := by omega
    rw [if_neg (by rw [List.length_drop]; omega)] at hload
    have hkey := take_append_drop_add b (w + 4) kl
    have hkeyl : ((b.drop (w + 4)).take kl).length = kl := by
      rw [List.length_take, List.length_drop]
      omega
    have hsize := put64_get64 (b := b) (w := w + 4 + kl) (by omega)
    have hsizel := get64_lt (b.drop (w + 4 + kl))
    have ht2 : ∀ x ∈ ([.read w 4] ++ [.read (w + 4) kl, .key 0 kl, .key kl 1] ++
        [.read (w + 4 + kl) 8] : List Touch), x.Inside b := by
      simp only [List.cons_append, List.nil_append, List.forall_mem_cons, List.not_mem_nil,
        false_implies, implies_true, and_true, Touch.Inside]
      omega
    generalize (b.drop (w + 4)).take kl = key at hload hents hkey hkeyl ⊢
    generalize get64 (b.drop (w + 4 + kl)) = size at hload hents hsize hsizel ⊢
    have hw2 : w + 12 + kl = w + 4 + kl + 8 := by omega
    generalize w + 4 + kl + 8 = w₂ at hload hents hsize hw2 ⊢
    -- the length of the attribute
    by_cases h3 : leftOf b w₂ < 4
    · rw [if_pos h3]
      refine .stop ht2 ?_
      rw [hload, if_pos (((leftOf_lt w₂ 4).mp h3).resolve_right (by omega))]
    have hw3 : w₂ + 4 ≤ b.length := by
      unfold leftOf at h3
      omega
    have hp3 := put32_get32 hw3
    rw [if_neg h3]
    rw [if_neg (by rw [List.length_drop]; omega)] at hload
    generalize get32 (b.drop w₂) = attrlen at hload hents hp3 ⊢
    generalize ([.read w 4] ++ [.read (w + 4) kl, .key 0 kl, .key kl 1] ++
        [.read (w + 4 + kl) 8] : List Touch) = t₂ at ht2 ⊢
    have ht3 : ∀ x ∈ t₂ ++ [.read w₂ 4], x.Inside b :=
      List.forall_mem_append.mpr ⟨ht2, by simpa [Touch.Inside] using hw3⟩
    generalize t₂ ++ [.read w₂ 4] = t₃ at ht3 ⊢
    -- the attribute
    by_cases h4 : attrlen > LS_ATTR_MAX ∨ sizeLeft b (w₂ + 4) < (attrlen + 4) % 2 ^ 32
    · rw [if_pos h4]
      refine .stop ht3 ?_
      rw [sizeLeft_eq hb hw3] at h4
      rw [hload, if_pos (by omega)]
    rw [if_neg h4]
    rw [sizeLeft_eq hb hw3, List.length_drop] at h4
    have hal : attrlen ≤ 256 ∧ w₂ + 4 + attrlen + 4 ≤ b.length := by omega
    rw [if_neg (by rw [List.length_drop]; omega)] at hload
    have hattr := take_append_drop_add b (w₂ + 4) attrlen
    have hattrl : ((b.drop (w₂ + 4)).take attrlen).length = attrlen := by
      rw [List.length_take, List.length_drop]
      omega
    have hp4 := put32_get32 hal.2
    have hne := get32_lt (b.drop (w₂ + 4 + attrlen))
    have ht4 : ∀ x ∈ t₃ ++ (if attrlen = 0 then [] else [.read (w₂ + 4) attrlen, .attr attrlen]) ++
        [.read (w₂ + 4 + attrlen) 4], x.Inside b := by
      refine List.forall_mem_append.mpr ⟨List.forall_mem_append.mpr ⟨ht3, ?_⟩, ?_⟩
      · split_ifs
        · exact fun x hx => (by cases hx)
        · simp only [List.forall_mem_cons, List.not_mem_nil, false_implies, implies_true, and_true,
            Touch.Inside]
          omega
      · simpa [Touch.Inside] using hal.2
    generalize (t₃ ++ (if attrlen = 0 then [] else [.read (w₂ + 4) attrlen, .attr attrlen]) ++
        [.read (w₂ + 4 + attrlen) 4] : List Touch) = t₄ at ht4 ⊢
    generalize (b.drop (w₂ + 4)).take attrlen = attr at hload hents hattr hattrl ⊢
    generalize get32 (b.drop (w₂ + 4 + attrlen)) = ne at hload hents hp4 hne ⊢
    have hw4 : w₂ + 8 + attrlen = w₂ + 4 + attrlen + 4 := by omega
    -- the extents
    by_cases h5 : sizeLeft b (w₂ + 4 + attrlen + 4) < ne * 16 % 2 ^ 64
    · rw [if_pos h5]
      refine .stop ht4 ?_
      rw [sizeLeft_eq hb hal.2] at h5
      rw [hload, if_pos (by omega)]
    rw [if_neg h5]
    rw [sizeLeft_eq hb hal.2, List.length_drop] at h5
    rw [if_neg (by rw [List.length_drop]; omega)] at hload
    generalize w₂ + 4 + attrlen + 4 = w₄ at hload hents hp4 hw4 hal h5 ⊢
    have hend : w₄ + ne * 16 ≤ b.length := by omega
    have hexts := enc_rawExtents hend
    obtain ⟨g1, g2, g3⟩ := walkExtents_spec s.al.fileEnd hend (Nat.le_refl 0)
    generalize walkExtents b s.al.fileEnd ne w₄ 0 0 = r at g1 g2 g3 ⊢
    obtain ⟨res, w', t'⟩ := r
    cases res with
    | error rc =>
      rw [← g1] at hload
      exact ⟨hload.symm, List.forall_mem_append.mpr ⟨ht4, g3⟩, Nat.le_add_left _ _,
        fun _ h => (by cases h)⟩
    | ok xs =>
      rw [← g1] at hload
      obtain rfl : w' = w₄ + ne * 16 := g2 xs rfl
      have hk := ih (s := loadRec s (cstr key) size attr xs) hend
      refine ⟨hk.result.trans hload.symm,
        List.forall_mem_append.mpr ⟨List.forall_mem_append.mpr ⟨ht4, g3⟩, hk.inside⟩, ?_,
        fun s' h => ?_⟩
      · have hturns := hk.turns
        dsimp only
        have hstep : (b.length - (w₄ + ne * 16)) / 21 + 1 ≤ (b.length - w) / 21 := by omega
        omega
      · obtain ⟨k1, k2⟩ := hk.entries s' h
        rw [hents]
        refine ⟨List.forall_mem_cons.mpr ⟨⟨?_, ?_, hsizel, ?_, fun e he => rawExtents_lt he⟩, k1⟩, ?_⟩
        · show 1 ≤ key.length ∧ key.length ≤ LS_KEY_MAX
          omega
        · show attr.length ≤ LS_ATTR_MAX
          omega
        · show (rawExtents ne (b.drop w₄)).length < 2 ^ 32
          rw [length_rawExtents]
          exact hne
        · rw [List.flatMap_cons]
          have hb' : b.drop w = TocEntry.enc ⟨key, size, attr, rawExtents ne (b.drop w₄)⟩ ++
              b.drop (w₄ + ne * 16) := by
            simp only [TocEntry.enc, hkeyl, hattrl, length_rawExtents, List.append_assoc]
            rw [hexts, hp4, hattr, hp3, hsize, hkey, hp1]
          rw [hb']
          exact List.prefix_append_right_inj _ |>.mpr k2

end Walk

/-- The walk computes what `tocLoad` computes. -/
theorem walkToc_result {b : List UInt8} (hb : b.length < 2 ^ 64) (count : ℕ) (s : Store σ) :
    (walkToc b count 0 s).result = tocLoad count b s :=
  (walkToc_spec hb (Nat.zero_le _)).result

/-- **`toc_load` is safe on every input**: it touches nothing outside its buffers, begins at most
`n / 21 + 1` turns, and returns `LS_OK` only for a buffer that begins with `count` entries. -/
theorem walkToc_safe (b : List UInt8) (hb : b.length < 2 ^ 64) (count : ℕ) (s : Store σ) :
    (∀ t ∈ (walkToc b count 0 s).touched, t.Inside b) ∧
      (walkToc b count 0 s).turns ≤ b.length / 21 + 1 ∧
      ∀ s', (walkToc b count 0 s).result = .ok s' → ∃ xs : List TocEntry, xs.length = count ∧
        (∀ x ∈ xs, x.Ok) ∧ xs.flatMap TocEntry.enc <+: b := by
  have h : Walked b count 0 s (walkToc b count 0 s) := walkToc_spec hb (Nat.zero_le _)
  exact ⟨h.inside, h.turns, fun s' hr =>
    ⟨_, length_tocEntries count _, (h.entries s' hr).1, (h.entries s' hr).2⟩⟩

/-- A key that runs past the end of the buffer. -/
theorem walkToc_safe_cut :
    (∀ t ∈ (walkToc [5, 0, 0, 0, 97] (2 ^ 64 - 1) 0 (Disk.newStore {})).touched,
        t.Inside [5, 0, 0, 0, 97]) ∧
      (walkToc [5, 0, 0, 0, 97] (2 ^ 64 - 1) 0 (Disk.newStore {})).turns ≤ 5 / 21 + 1 ∧
      ∀ s', (walkToc [5, 0, 0, 0, 97] (2 ^ 64 - 1) 0 (Disk.newStore {})).result = .ok s' →
        ∃ xs : List TocEntry, xs.length = 2 ^ 64 - 1 ∧ (∀ x ∈ xs, x.Ok) ∧
          xs.flatMap TocEntry.enc <+: [5, 0, 0, 0, 97] :=
  walkToc_safe [5, 0, 0, 0, 97] (by decide) (2 ^ 64 - 1) (Disk.newStore {})

end Libspill
