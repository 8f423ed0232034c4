import Libspill.RawIo

set_option autoImplicit false

/-!
# What a transfer knows

A transfer runs outside the lock, so the store changes under it. What it may rely on is a *view*:
the bytes of a region `R` it shares with nobody who writes, the entries of the extent array it holds
a pointer to, and how far the file reaches at least. It changes bytes of its target `T` only; what
it writes back elsewhere in `R` is what it found there.

* `Loc`: a byte of the file or of a buffer.
* `Foot`, `View`: the region and target of a transfer, and what it knows.
* `Foot.spec`: the calls a transfer may issue and the answers it gets.
* **`simulates`**: an honest operating system answers a store's calls as the view foresees.
* `exec_of_wp`: a verified transfer runs to its end and changes nothing but its target.
-/

namespace Libspill

variable {σ : Type} [HonestOs σ]

open HonestOs (file clean)

/-- A byte the store holds. -/
inductive Loc where
  | file (x : ℕ)
  | mem (p : Ptr) (i : ℕ)
deriving DecidableEq

/-- The bytes of a store. -/
def Store.byteAt (s : Store σ) : Loc → UInt8
  | .file x => (file s.os).byte x
  | .mem p i => s.mem p i

/-- The length of the store file. -/
def Store.flen (s : Store σ) : ℕ := (file s.os).len

/-- What a transfer may touch: the region it knows, the target inside it, and its extent array. -/
structure Foot where
  R : Set Loc
  T : Set Loc
  arr : Ptr
  es : List Extent

/-- What a transfer knows: the bytes of its region, and a length the file reaches. `dirty` says that
one of its calls has failed. -/
structure View where
  byte : Loc → UInt8
  len : ℕ
  dirty : Bool

namespace View

/-- The bytes of the file. -/
def fbyte (v : View) (x : ℕ) : UInt8 := v.byte (.file x)

/-- Lay `b` over the file at `off`. -/
def put (v : View) (off : ℕ) (b : List UInt8) : View where
  byte
    | .file x => patch v.fbyte off b x
    | .mem p i => v.byte (.mem p i)
  len := if b = [] then v.len else max v.len (off + b.length)
  dirty := v.dirty

/-- Lay `b` over the buffer `p` at `off`. -/
def putMem (v : View) (p : Ptr) (off : ℕ) (b : List UInt8) : View :=
  { v with byte := fun
    | .file x => v.byte (.file x)
    | .mem q i => if q = p then patch (fun i => v.byte (.mem p i)) off b i else v.byte (.mem q i) }

@[simp] theorem put_dirty (v : View) (off : ℕ) (b : List UInt8) : (v.put off b).dirty = v.dirty := rfl

theorem fbyte_put (v : View) (off : ℕ) (b : List UInt8) :
    (v.put off b).fbyte = patch v.fbyte off b := rfl

theorem len_le_put (v : View) (off : ℕ) (b : List UInt8) : v.len ≤ (v.put off b).len := by
  simp only [put]
  split_ifs <;> omega

@[simp] theorem put_nil (v : View) (off : ℕ) : v.put off [] = v := by
  obtain ⟨byte, len, dirty⟩ := v
  simp only [put, patch_nil, if_true, View.mk.injEq, and_true]
  funext l
  cases l <;> rfl

/-- Laying two adjacent byte strings is laying their concatenation. -/
theorem put_append (v : View) (off : ℕ) (a b : List UInt8) :
    (v.put off a).put (off + a.length) b = v.put off (a ++ b) := by
  by_cases ha : a = []
  · simp [ha]
  by_cases hb : b = []
  · simp [hb]
  have hab : a ++ b ≠ [] := by simp [ha]
  simp only [put, if_neg ha, if_neg hb, if_neg hab, View.mk.injEq, and_true]
  refine ⟨?_, by simp; omega⟩
  funext l
  cases l with
  | file x => exact congrFun (patch_append v.fbyte off a b) x
  | mem p i => rfl

end View

namespace Foot

variable (F : Foot)

/-- The calls a transfer may issue. -/
def may : Call → View → Prop
  | .pread n off, _ => ∀ x, off ≤ x → x < off + n → Loc.file x ∈ F.R
  | .pwrite b off, v => ∀ i, i < b.length →
      Loc.file (off + i) ∈ F.R ∧ (Loc.file (off + i) ∈ F.T ∨ b.getD i 0 = v.fbyte (off + i))
  | .load p off n, _ => ∀ i, i < n → Loc.mem p (off + i) ∈ F.R
  | .store p off b, _ => ∀ i, i < b.length → Loc.mem p (off + i) ∈ F.R ∧ Loc.mem p (off + i) ∈ F.T
  | .extent p i, _ => p = F.arr ∧ i < F.es.length

/-- The answers it gets. A read past the end of the file comes back short, and what it misses is
zero; a write that failed may have changed any byte of the target. -/
def out : (c : Call) → View → c.Ans → View → Prop
  | .pread n off, v, .ok b, v' => v' = v ∧ ∃ m ≤ n, b = slice v.fbyte off m ∧
      (∀ i, m ≤ i → i < n → v.fbyte (off + i) = 0) ∧ (off + n ≤ v.len → m = n)
  | .pread _ _, v, .error e, v' => e ≠ .eintr ∧ v' = { v with dirty := true }
  | .pwrite b off, v, .ok k, v' => k = b.length ∧ v' = v.put off b
  | .pwrite _ _, v, .error e, v' => e ≠ .eintr ∧ v'.dirty = true ∧ v'.len = v.len ∧
      ∀ l, l ∉ F.T → v'.byte l = v.byte l
  | .load p off n, v, b, v' => v' = v ∧ b = slice (fun i => v.byte (.mem p i)) off n
  | .store p off b, v, _, v' => v' = v.putMem p off b
  | .extent _ i, v, e, v' => v' = v ∧ F.es[i]? = some e

/-- The local specification of a transfer. -/
def spec : Local Call Call.Ans View := ⟨F.may, F.out⟩

section Rules

variable {F} {α : Type} {Q : α → View → Prop} {v : View}

theorem wp_pread {n off : ℕ} {k : Except Errno (List UInt8) → Io α} (hm : F.may (.pread n off) v)
    (hok : ∀ m, m ≤ n → (∀ i, m ≤ i → i < n → v.fbyte (off + i) = 0) → (off + n ≤ v.len → m = n) →
      (k (.ok (slice v.fbyte off m))).wp F.spec Q v)
    (herr : ∀ e, e ≠ .eintr → (k (.error e)).wp F.spec Q { v with dirty := true }) :
    (Io.pread n off k).wp F.spec Q v := by
  refine ⟨hm, fun a w hw => ?_⟩
  cases a with
  | error e =>
    obtain ⟨he, rfl⟩ := hw
    exact herr e he
  | ok b =>
    obtain ⟨rfl, m, hmn, rfl, hz, hfull⟩ := hw
    exact hok m hmn hz hfull

theorem wp_pwrite {b : List UInt8} {off : ℕ} {k : Except Errno ℕ → Io α}
    (hm : F.may (.pwrite b off) v) (hok : (k (.ok b.length)).wp F.spec Q (v.put off b))
    (herr : ∀ e w, e ≠ .eintr → w.dirty = true → (k (.error e)).wp F.spec Q w) :
    (Io.pwrite b off k).wp F.spec Q v := by
  refine ⟨hm, fun a w hw => ?_⟩
  cases a with
  | error e =>
    obtain ⟨he, hd, -⟩ := hw
    exact herr e w he hd
  | ok k =>
    obtain ⟨rfl, rfl⟩ := hw
    exact hok

theorem wp_load {p : Ptr} {off n : ℕ} {k : List UInt8 → Io α}
    (hm : F.may (.load p off n) v)
    (hk : (k (slice (fun i => v.byte (.mem p i)) off n)).wp F.spec Q v) :
    (Io.load p off n k).wp F.spec Q v := by
  refine ⟨hm, fun a w hw => ?_⟩
  obtain ⟨rfl, rfl⟩ := hw
  exact hk

theorem wp_store {p : Ptr} {off : ℕ} {b : List UInt8} {k : Io α}
    (hm : F.may (.store p off b) v) (hk : k.wp F.spec Q (v.putMem p off b)) :
    (Io.store p off b k).wp F.spec Q v := by
  refine ⟨hm, fun a w hw => ?_⟩
  subst hw
  exact hk

theorem wp_extent {i : ℕ} {e : Extent} {k : Extent → Io α} (he : F.es[i]? = some e)
    (hk : (k e).wp F.spec Q v) : (Io.extent F.arr i k).wp F.spec Q v := by
  refine ⟨⟨rfl, (List.getElem?_eq_some_iff.mp he).1⟩, fun a w hw => ?_⟩
  obtain ⟨rfl, hw⟩ := hw
  rw [he] at hw
  obtain rfl := Option.some.inj hw
  exact hk

end Rules

/-- The view is true of the store. -/
structure Sees (s : Store σ) (v : View) : Prop where
  byte : ∀ l ∈ F.R, s.byteAt l = v.byte l
  len : v.len ≤ s.flen
  dirty : v.dirty = true → ¬ clean s.os
  arr : ∀ i e, F.es[i]? = some e → s.arr F.arr i = e

end Foot

/-! ## One call -/

/-- What one call of a transfer leaves alone. -/
structure Untouched (T : Set Loc) (s s' : Store σ) : Prop where
  rest : s' = { s with os := s'.os, mem := s'.mem }
  byte : ∀ l, l ∉ T → s'.byteAt l = s.byteAt l
  len : s.flen ≤ s'.flen
  clean : clean s'.os → clean s.os

namespace Untouched

variable {T : Set Loc} {s s' s'' : Store σ}

theorem refl : Untouched T s s := ⟨rfl, fun _ _ => rfl, Nat.le_refl _, id⟩

theorem trans (h : Untouched T s s') (h' : Untouched T s' s'') : Untouched T s s'' where
  rest := by rw [h'.rest, h.rest]
  byte l hl := (h'.byte l hl).trans (h.byte l hl)
  len := h.len.trans h'.len
  clean := h.clean ∘ h'.clean

/-- If the target is in the file, the memory tier is as it was. -/
theorem mem_eq (h : Untouched T s s') (hT : ∀ p i, Loc.mem p i ∉ T) : s'.mem = s.mem := by
  funext p i
  exact h.byte (.mem p i) (hT p i)

theorem eq_os (h : Untouched T s s') (hT : ∀ p i, Loc.mem p i ∉ T) :
    s' = { s with os := s'.os } := by
  rw [h.rest, h.mem_eq hT]

end Untouched

theorem perform_untouched {F : Foot} {s : Store σ} {v : View} {c : Call} (hs : F.Sees s v)
    (hm : F.may c v) : Untouched F.T s (perform c s).2 := by
  cases c with
  | pread n off =>
    refine ⟨rfl, fun l _ => ?_, ?_, HonestOs.pread_clean _ _ _⟩
    · cases l <;> simp [perform, Store.byteAt, HonestOs.pread_file]
    · simp [perform, Store.flen, HonestOs.pread_file]
  | pwrite b off =>
    -- a byte outside the target is written only with what it already is
    have keep : ∀ x, Loc.file x ∉ F.T → patch (file s.os).byte off b x = (file s.os).byte x := by
      intro x hx
      by_cases hr : off ≤ x ∧ x < off + b.length
      · obtain ⟨h1, h2⟩ := hm (x - off) (by omega)
        rw [Nat.add_sub_cancel' hr.1] at h1 h2
        rw [patch, if_pos hr, h2.resolve_left hx]
        exact (hs.byte _ h1).symm
      · exact if_neg hr
    cases hr : (Os.pwrite s.os b off).1 with
    | ok k =>
      obtain ⟨-, hf⟩ := HonestOs.pwrite_ok _ _ _ _ hr
      refine ⟨rfl, fun l hl => ?_, ?_, HonestOs.pwrite_clean _ _ _⟩
      · cases l with
        | file x => simpa [perform, Store.byteAt, hf, File.write] using keep x hl
        | mem p i => rfl
      · simpa [perform, Store.flen, hf] using File.write_len_ge _ _ _
    | error e =>
      obtain ⟨-, -, hlen, ht⟩ := HonestOs.pwrite_err _ _ _ _ hr
      refine ⟨rfl, fun l hl => ?_, hlen, HonestOs.pwrite_clean _ _ _⟩
      cases l with
      | file x =>
        rcases ht x with h | h
        · exact h
        · exact h.trans (keep x hl)
      | mem p i => rfl
  | load p off n => exact .refl
  | store p off b =>
    refine ⟨rfl, fun l hl => ?_, Nat.le_refl _, id⟩
    cases l with
    | file x => rfl
    | mem q i =>
      simp only [perform, Store.byteAt]
      by_cases hq : q = p
      · subst hq
        rw [Function.update_self]
        refine if_neg fun hi => hl ?_
        have := (hm (i - off) (by omega)).2
        rwa [Nat.add_sub_cancel' hi.1] at this
      · rw [Function.update_of_ne hq]
  | extent p i => exact .refl

/-- **An honest operating system answers as the view foresees.** -/
theorem simulates (F : Foot) : Prog.Simulates (perform (σ := σ)) F.spec F.Sees := by
  intro c s v hs hm
  have hu := perform_untouched hs hm
  have harr : ∀ i e, F.es[i]? = some e → (perform c s).2.arr F.arr i = e := by
    intro i e he
    rw [hu.rest]
    exact hs.arr i e he
  cases c with
  | pread n off =>
    have hbyte : ∀ l ∈ F.R, (perform (.pread n off) s).2.byteAt l = v.byte l := by
      intro l hl
      rw [← hs.byte l hl]
      cases l <;> simp [perform, Store.byteAt, HonestOs.pread_file]
    cases hr : (Os.pread s.os n off).1 with
    | error e =>
      have he := HonestOs.pread_err _ _ _ _ hr
      refine ⟨{ v with dirty := true }, ?_, hbyte, hs.len.trans hu.len, fun _ => he.2, harr⟩
      simp only [Foot.spec, perform, hr]
      exact ⟨he.1, rfl⟩
    | ok b =>
      refine ⟨v, ?_, hbyte, hs.len.trans hu.len, fun h hc => hs.dirty h (hu.clean hc), harr⟩
      simp only [Foot.spec, perform, hr]
      refine ⟨rfl, min n (s.flen - off), Nat.min_le_left _ _, ?_, ?_, ?_⟩
      · rw [HonestOs.pread_ok _ _ _ _ hr]
        exact slice_congr fun i hi => hs.byte _ (hm _ (by omega) (by omega))
      · intro i h1 h2
        rw [View.fbyte, ← hs.byte _ (hm _ (by omega) (by omega))]
        exact (file s.os).past _ (by simp only [Store.flen] at h1; omega)
      · intro h
        have := hs.len
        omega
  | pwrite b off =>
    cases hr : (Os.pwrite s.os b off).1 with
    | ok k =>
      obtain ⟨hk, hf⟩ := HonestOs.pwrite_ok _ _ _ _ hr
      refine ⟨v.put off b, ?_, fun l hl => ?_, ?_, fun h hc => hs.dirty h (hu.clean hc), harr⟩
      · simp only [Foot.spec, perform, hr]
        exact ⟨hk, rfl⟩
      · cases l with
        | file x =>
          simp only [perform, Store.byteAt, hf, File.write, View.put, patch]
          split_ifs
          · rfl
          · exact hs.byte _ hl
        | mem p i => exact hs.byte _ hl
      · have := hs.len
        simp only [Store.flen, perform, hf, File.write, View.put] at this ⊢
        split_ifs <;> omega
    | error e =>
      obtain ⟨he, hc, -, -⟩ := HonestOs.pwrite_err _ _ _ _ hr
      classical
      let s' := (perform (.pwrite b off) s).2
      refine ⟨⟨fun l => if l ∈ F.R then s'.byteAt l else v.byte l, v.len, true⟩, ?_,
        fun l hl => (if_pos hl).symm, hs.len.trans hu.len, fun _ => hc, harr⟩
      simp only [Foot.spec, perform, hr]
      refine ⟨he, rfl, rfl, fun l hl => ?_⟩
      dsimp only
      split_ifs with hR
      · rw [← hs.byte l hR]
        exact hu.byte l hl
      · rfl
  | load p off n =>
    refine ⟨v, ⟨rfl, slice_congr fun i hi => hs.byte _ (hm i hi)⟩, hs⟩
  | store p off b =>
    refine ⟨v.putMem p off b, rfl, fun l hl => ?_, hs.len, hs.dirty, harr⟩
    cases l with
    | file x => exact hs.byte _ hl
    | mem q i =>
      simp only [perform, Store.byteAt, View.putMem]
      by_cases hq : q = p
      · subst hq
        rw [Function.update_self, if_pos rfl]
        simp only [patch]
        split_ifs
        · rfl
        · exact hs.byte _ hl
      · rw [Function.update_of_ne hq, if_neg hq]
        exact hs.byte _ hl
  | extent p i =>
    obtain ⟨rfl, hi⟩ := hm
    refine ⟨v, ⟨rfl, ?_⟩, hs⟩
    obtain ⟨e, he⟩ : ∃ e, F.es[i]? = some e := ⟨_, List.getElem?_eq_getElem hi⟩
    rw [he]
    exact congrArg some (hs.arr i e he).symm

/-! ## Whole transfers -/

/-- **A verified transfer runs to its end**, and changes nothing but its target. -/
theorem exec_of_wp {F : Foot} {α : Type} {p : Io α} {Q : α → View → Prop} {s : Store σ} {v : View}
    (hp : p.wp F.spec Q v) (hs : F.Sees s v) :
    ∃ a s' v', s.exec p = some (a, s') ∧ Q a v' ∧ F.Sees s' v' ∧ Untouched F.T s s' := by
  have hsim : Prog.Simulates (perform (σ := σ)) F.spec
      fun s' v' => F.Sees s' v' ∧ Untouched F.T s s' := by
    intro c w u hw hm
    obtain ⟨u', h1, h2⟩ := simulates F c w u hw.1 hm
    exact ⟨u', h1, h2, hw.2.trans (perform_untouched hw.1 hm)⟩
  obtain ⟨a, s', v', h1, h2, h3, h4⟩ := Prog.run_of_wp hsim hp ⟨hs, .refl⟩
  exact ⟨a, s', v', h1, h2, h3, h4⟩

end Libspill
