import Libspill.RawIo

set_option autoImplicit false

/-!
# Transfers that come back short

`rw_all` on an operating system that may move less than it was asked, or nothing, or fail, at every
call.

* `Answers`: what such an operating system may answer.
* `Stored`, `Fetched`: what a transfer that returns `LS_OK` has to have done.
* `stored_plain`, `fetched_plain`: the plain loop does it, whatever the answers.
* **`rwAll_all_or_nothing_iff`**: so `rw_all` does it if and only if it takes the plain loop.
* `rwAll_short`: the bounce loop takes a short read for the end of the file and zeroes what follows.
-/

namespace Libspill

/-- What the operating system may answer. A transfer moves any part of what it was asked that ends
where a file can end; a write that fails may have touched its range. -/
def Answers : (c : Call) → File → c.Ans → File → Prop
  | .pread n off, f, .ok b, f' => f' = f ∧ ∃ k ≤ n, b = f.read k off
  | .pread _ _, f, .error _, f' => f' = f
  | .pwrite b off, f, .ok k, f' =>
      k ≤ b.length ∧ (k = 0 ∨ off + k ≤ OFF_MAX + 1) ∧ f' = f.write off (b.take k)
  | .pwrite b off, f, .error _, f' => f.Torn off b f'
  | .load _ _ _, f, _, f' => f' = f
  | .store _ _ _, f, _, f' => f' = f
  | .extent _ _, f, _, f' => f' = f

/-- The bytes `b` are in the file at `off`, and nothing else has changed. -/
structure Stored (f : File) (off : ℕ) (b : List UInt8) (f' : File) : Prop where
  len : 0 < b.length → off + b.length ≤ f'.len
  inside : ∀ i, i < b.length → f'.byte (off + i) = b.getD i 0
  outside : ∀ i, i < off ∨ off + b.length ≤ i → f'.byte i = f.byte i

/-- The `n` bytes `out` are those of the file at `off`. -/
structure Fetched (f : File) (off n : ℕ) (out : List UInt8) (f' : File) : Prop where
  len : 0 < n → off + n ≤ f.len
  out : out = slice f.byte off n
  file : f' = f

/-- `rw_all` takes the plain loop, or has nothing to do. -/
def PlainPath (direct : Bool) (addr n off : ℕ) : Prop :=
  n = 0 ∨ direct = false ∨ addr % LS_ALIGN = 0 ∧ off % LS_ALIGN = 0 ∧ n % LS_ALIGN = 0

instance (direct : Bool) (addr n off : ℕ) : Decidable (PlainPath direct addr n off) :=
  inferInstanceAs (Decidable (_ ∨ _ ∨ _ ∧ _ ∧ _))

variable {E : Env} {off : ℕ} {f f' : File}

/-! ## The plain loop -/

/-- A write of which the first `done` bytes are in the file. -/
structure Storing (f₀ : File) (off : ℕ) (b : List UInt8) (done : ℕ) (f : File) : Prop where
  done_le : done ≤ b.length
  fits : done = 0 ∨ off + done ≤ OFF_MAX + 1
  len : done = 0 ∨ off + done ≤ f.len
  inside : ∀ i, i < done → f.byte (off + i) = b.getD i 0
  outside : ∀ i, i < off ∨ off + b.length ≤ i → f.byte i = f₀.byte i

/-- The bytes that were not moved yet. -/
theorem getD_rest (b : List UInt8) (done i : ℕ) :
    ((b.drop done).take (b.length - done)).getD i 0 = b.getD (done + i) 0 := by
  rw [List.take_of_length_le (by simp), List.getD_eq_getElem?_getD, List.getElem?_drop,
    List.getD_eq_getElem?_getD]

/-- Part of what is left is written. -/
theorem Storing.write {f₀ : File} {b : List UInt8} {done r : ℕ} (h : Storing f₀ off b done f)
    (hr : 0 < r) (hle : r ≤ b.length - done) (hfit : off + done + r ≤ OFF_MAX + 1) :
    Storing f₀ off b (done + r)
      (f.write (off + done) (((b.drop done).take (b.length - done)).take r)) := by
  have hlen : (((b.drop done).take (b.length - done)).take r).length = r := by simp; omega
  have hne : ((b.drop done).take (b.length - done)).take r ≠ [] := by
    rw [← List.length_pos_iff, hlen]
    exact hr
  refine ⟨by have := h.done_le; omega, Or.inr (by omega), Or.inr ?_, fun i hi => ?_, fun i hi => ?_⟩
  · simp only [File.write, if_neg hne, hlen]
    omega
  · simp only [File.write]
    by_cases hlt : i < done
    · rw [patch_of_lt (by omega), h.inside i hlt]
    · rw [show off + i = off + done + (i - done) by omega, patch_add (by omega),
        List.getD_eq_getElem?_getD, List.getElem?_take_of_lt (by omega),
        ← List.getD_eq_getElem?_getD, getD_rest]
      congr 1
      omega
  · simp only [File.write]
    rw [← h.outside i hi]
    have := h.done_le
    rcases hi with hi | hi
    · exact patch_of_lt (by omega)
    · exact patch_of_ge (by omega)

/-- A failed attempt leaves the rest to be written again. -/
theorem Storing.torn {f₀ : File} {b : List UInt8} {done : ℕ} (h : Storing f₀ off b done f)
    (ht : f.Torn (off + done) ((b.drop done).take (b.length - done)) f') :
    Storing f₀ off b done f' := by
  have hlen : ((b.drop done).take (b.length - done)).length = b.length - done := by simp
  have hd := h.done_le
  refine ⟨hd, h.fits, h.len.imp id fun hl => hl.trans ht.1, fun i hi => ?_, fun i hi => ?_⟩
  · rw [← h.inside i hi]
    rcases ht.2 (off + i) with he | he
    · exact he
    · rw [he, patch_of_lt (by omega)]
  · rw [← h.outside i hi]
    rcases ht.2 i with he | he
    · exact he
    · rw [he]
      rcases hi with hi | hi
      · exact patch_of_lt (by omega)
      · exact patch_of_ge (by omega)

/-- **The plain loop stores everything or reports an error.** -/
theorem stored_plain {f₀ : File} {b : List UInt8} (hoff : off < 2 ^ 64) {fuel done : ℕ}
    (h : Storing f₀ off b done f) {acc out : List UInt8}
    (hrun : (plain true b b.length off fuel done acc).Runs Answers f (.ok, out) f') :
    Storing f₀ off b b.length f' := by
  have hO : OFF_MAX = 2 ^ 63 - 1 := rfl
  induction fuel generalizing done f with
  | zero => exact absurd hrun Prog.not_runs_hang
  | succ fuel ih =>
    have hadd : add64 off done = off + done := by
      rcases h.fits with h0 | h0
      · rw [h0]
        exact add64_eq hoff
      · exact add64_eq (by omega)
    rw [plain, if_pos rfl] at hrun
    split_ifs at hrun with hlt
    · obtain ⟨a, f₁, ha, hrun⟩ := Prog.runs_call.mp hrun
      rw [hadd] at ha
      cases a with
      | error e =>
        dsimp only at hrun
        split_ifs at hrun
        · exact ih (h.torn ha) hrun
        · cases (Prog.runs_ret.mp hrun).1
      | ok r =>
        obtain ⟨h1, h2, rfl⟩ := ha
        dsimp only at hrun
        split_ifs at hrun with hr
        · cases (Prog.runs_ret.mp hrun).1
        · have hle : r ≤ b.length - done := by simpa using h1
          exact ih (h.write (Nat.pos_of_ne_zero hr) hle (h2.resolve_left hr)) hrun
    · obtain ⟨-, rfl⟩ := Prog.runs_ret.mp hrun
      have hd : done = b.length := by have := h.done_le; omega
      rwa [hd] at h

/-- **The plain loop fetches everything or reports an error.** -/
theorem fetched_plain {n : ℕ} (hlen : f.len ≤ OFF_MAX) (hoff : off < 2 ^ 64) {fuel done : ℕ}
    (hd : done ≤ n) (hin : done = 0 ∨ off + done ≤ f.len) {out : List UInt8}
    (hrun : (plain false [] n off fuel done (slice f.byte off done)).Runs Answers f (.ok, out) f') :
    (n = 0 ∨ off + n ≤ f.len) ∧ out = slice f.byte off n ∧ f' = f := by
  have hO : OFF_MAX = 2 ^ 63 - 1 := rfl
  induction fuel generalizing done with
  | zero => exact absurd hrun Prog.not_runs_hang
  | succ fuel ih =>
    have hadd : add64 off done = off + done := by
      rcases hin with h0 | h0
      · rw [h0]
        exact add64_eq hoff
      · exact add64_eq (by omega)
    rw [plain, if_neg Bool.false_ne_true] at hrun
    split_ifs at hrun with hlt
    · obtain ⟨a, f₁, ha, hrun⟩ := Prog.runs_call.mp hrun
      rw [hadd] at ha
      cases a with
      | error e =>
        obtain rfl : f₁ = f := ha
        dsimp only at hrun
        split_ifs at hrun
        · exact ih hd hin hrun
        · cases (Prog.runs_ret.mp hrun).1
      | ok b =>
        obtain ⟨rfl, k, hk, rfl⟩ := ha
        dsimp only at hrun
        split_ifs at hrun with hr
        · cases (Prog.runs_ret.mp hrun).1
        · rw [File.read, ← slice_add] at hrun
          rw [File.read, length_slice] at hr
          rw [length_slice] at hrun
          exact ih (by omega) (Or.inr (by omega)) hrun
    · obtain ⟨h1, rfl⟩ := Prog.runs_ret.mp hrun
      obtain rfl : done = n := by omega
      exact ⟨hin, (Prod.mk.inj h1).2, rfl⟩

/-! ## The bounce loop -/

theorem runs_nothing_written {α : Type} {b : List UInt8} {k : Except Errno ℕ → Io α} {a : α}
    (h : (k (.ok 0)).Runs Answers f a f') : (Io.pwrite b off k).Runs Answers f a f' := by
  refine Prog.runs_call.mpr ⟨Except.ok 0, f, ?_, h⟩
  show 0 ≤ b.length ∧ (0 = 0 ∨ off + 0 ≤ OFF_MAX + 1) ∧ f = f.write off (b.take 0)
  exact ⟨Nat.zero_le _, Or.inl rfl, by simp [File.write]⟩

theorem runs_nothing_read {α : Type} {n : ℕ} {k : Except Errno (List UInt8) → Io α} {a : α}
    (h : (k (.ok [])).Runs Answers f a f') : (Io.pread n off k).Runs Answers f a f' := by
  refine Prog.runs_call.mpr ⟨Except.ok [], f, ?_, h⟩
  show f = f ∧ ∃ m ≤ n, [] = f.read m off
  exact ⟨rfl, 0, Nat.zero_le _, by simp [File.read]⟩

/-- The bounce loop goes on over reads that found nothing and writes that moved nothing. -/
theorem runs_bounce (write : Bool) (cbuf : List UInt8) (n off : ℕ) (f : File) {fuel done : ℕ}
    (acc : List UInt8) (hfuel : n - done < fuel) :
    (bounce write cbuf n off fuel done acc).Runs Answers f
      (.ok, if write then acc else acc ++ List.replicate (n - done) 0) f := by
  induction fuel generalizing done acc with
  | zero => omega
  | succ fuel ih =>
    have hA : LS_ALIGN = 4096 := rfl
    have hB : LS_BOUNCE = 4 * 2 ^ 20 := rfl
    rw [bounce]
    by_cases hlt : done < n
    swap
    · rw [if_neg hlt, Nat.sub_eq_zero_of_le (Nat.not_lt.mp hlt), List.replicate_zero,
        List.append_nil, ite_self]
      exact .ret _ _
    rw [if_pos hlt]
    dsimp only
    generalize hskew : add64 off done - add64 off done / LS_ALIGN * LS_ALIGN = skew
    have hskew' : skew < LS_ALIGN := by
      have := Nat.div_add_mod' (add64 off done) LS_ALIGN
      have := Nat.mod_lt (add64 off done) (show 0 < LS_ALIGN by omega)
      omega
    generalize hchunk : (if n - done > LS_BOUNCE - skew then LS_BOUNCE - skew else n - done) = chunk
    have hchunk' : 0 < chunk ∧ chunk ≤ n - done := by split_ifs at hchunk <;> omega
    generalize hspan : (skew + chunk + LS_ALIGN - 1) / LS_ALIGN * LS_ALIGN = span
    have hspan' : skew + chunk ≤ span := by
      have := Nat.div_add_mod' (skew + chunk + LS_ALIGN - 1) LS_ALIGN
      have := Nat.mod_lt (skew + chunk + LS_ALIGN - 1) (show 0 < LS_ALIGN by omega)
      omega
    cases write with
    | true =>
      have hrest := ih acc (show n - (done + chunk) < fuel by omega)
      simp only [if_true] at hrest ⊢
      split_ifs
      · exact runs_nothing_read (runs_nothing_written hrest)
      · exact runs_nothing_written hrest
    | false =>
      simp only [Bool.false_eq_true, if_false]
      refine runs_nothing_read ?_
      have hz : ((([] : List UInt8) ++ List.replicate (span - ([] : List UInt8).length) 0).drop skew).take chunk =
          List.replicate chunk 0 := by
        simp
        omega
      have := ih (acc ++ List.replicate chunk 0) (show n - (done + chunk) < fuel by omega)
      simp only [Bool.false_eq_true, if_false, List.append_assoc, List.replicate_append_replicate] at this
      rw [show chunk + (n - (done + chunk)) = n - done by omega, ← hz] at this
      exact this

/-! ## Both -/

theorem rwAll_plain {direct : Bool} {addr n : ℕ} (h : PlainPath direct addr n off) (hn : n ≠ 0)
    (write : Bool) (cbuf : List UInt8) :
    rwAll E direct addr write cbuf n off = plain write cbuf n off E.fuel 0 [] := by
  have hc : (!direct || (addr % LS_ALIGN = 0 && off % LS_ALIGN = 0 && n % LS_ALIGN = 0)) = true := by
    rcases h.resolve_left hn with hd | ⟨h1, h2, h3⟩
    · simp [hd]
    · simp [h1, h2, h3]
  rw [rwAll, if_neg hn, if_pos hc]

theorem rwAll_bounce {direct : Bool} {addr n : ℕ} (h : ¬ PlainPath direct addr n off)
    (write : Bool) (cbuf : List UInt8) :
    rwAll E direct addr write cbuf n off = bounce write cbuf n off E.fuel 0 [] := by
  simp only [PlainPath, not_or, Bool.not_eq_false] at h
  rw [rwAll, if_neg h.1, if_neg]
  simp [h.2.1]
  tauto

/-- **Transfers are all-or-nothing if and only if they take the plain loop**: then whatever the
operating system answers, a transfer that returns `LS_OK` has moved every byte, and touched no
other. -/
theorem rwAll_all_or_nothing_iff {direct : Bool} {addr n : ℕ} (hoff : off < 2 ^ 64)
    (hn : n < E.fuel) :
    ((∀ b f out f', b.length = n →
        (lsPwriteAll E direct addr b off).Runs Answers f (.ok, out) f' → Stored f off b f') ↔
      PlainPath direct addr n off) ∧
    ((∀ f out f', f.len ≤ OFF_MAX →
        (lsPreadAll E direct addr n off).Runs Answers f (.ok, out) f' → Fetched f off n out f') ↔
      PlainPath direct addr n off) := by
  refine ⟨⟨fun h => ?_, fun h b f out f' hb hrun => ?_⟩, ⟨fun h => ?_, fun h f out f' hlen hrun => ?_⟩⟩
  · -- every byte is taken to have been written, and none was
    by_contra hp
    have h0 : n ≠ 0 := fun h0 => hp (Or.inl h0)
    have hrun := runs_bounce true (List.replicate n 1) n off File.empty [] (show n - 0 < E.fuel by omega)
    have hs := h (List.replicate n 1) File.empty [] File.empty (by simp) (by
      rw [lsPwriteAll, List.length_replicate, rwAll_bounce hp]
      exact hrun)
    have := hs.inside 0 (by rw [List.length_replicate]; omega)
    rw [List.getD_eq_getElem _ _ (by rw [List.length_replicate]; omega), List.getElem_replicate] at this
    cases this
  · subst hb
    by_cases h0 : b.length = 0
    · rw [lsPwriteAll, rwAll, if_pos h0] at hrun
      obtain ⟨-, rfl⟩ := Prog.runs_ret.mp hrun
      exact ⟨fun h => absurd h0 h.ne', fun i hi => by omega, fun _ _ => rfl⟩
    · rw [lsPwriteAll, rwAll_plain h h0] at hrun
      have hs := stored_plain hoff ⟨Nat.zero_le _, Or.inl rfl, Or.inl rfl, fun i hi => by omega,
        fun _ _ => rfl⟩ hrun
      exact ⟨fun _ => hs.len.resolve_left h0, hs.inside, hs.outside⟩
  · -- every byte is taken to be past the end of the file, and it is
    by_contra hp
    have h0 : n ≠ 0 := fun h0 => hp (Or.inl h0)
    have hrun := runs_bounce false [] n off File.empty [] (show n - 0 < E.fuel by omega)
    have hs := h File.empty _ File.empty (Nat.zero_le _) (by
      rw [lsPreadAll, rwAll_bounce hp]
      exact hrun)
    have : off + n ≤ 0 := hs.len (Nat.pos_of_ne_zero h0)
    omega
  · by_cases h0 : n = 0
    · rw [lsPreadAll, rwAll, if_pos h0] at hrun
      obtain ⟨h1, rfl⟩ := Prog.runs_ret.mp hrun
      exact ⟨fun h => absurd h0 h.ne', by rw [h0]; exact (Prod.mk.inj h1).2, rfl⟩
    · rw [lsPreadAll, rwAll_plain h h0] at hrun
      obtain ⟨h1, h2, h3⟩ := fetched_plain hlen hoff (Nat.zero_le n) (Or.inl rfl) hrun
      exact ⟨fun _ => h1.resolve_left h0, h2, h3⟩

/-- A byte of a file opened without direct I/O is written and read back. -/
theorem rwAll_all_or_nothing_one :
    ((∀ b f out f', b.length = 1 →
        (lsPwriteAll ⟨2, fun _ => 0, 0, 0⟩ false 0 b 1000).Runs Answers f (.ok, out) f' →
          Stored f 1000 b f') ↔ PlainPath false 0 1 1000) ∧
    ((∀ f out f', f.len ≤ OFF_MAX →
        (lsPreadAll ⟨2, fun _ => 0, 0, 0⟩ false 0 1 1000).Runs Answers f (.ok, out) f' →
          Fetched f 1000 1 out f') ↔ PlainPath false 0 1 1000) :=
  rwAll_all_or_nothing_iff (by decide) (by decide)

/-- One byte is written at 1000 of an empty file with direct I/O. Of its block the operating system
moves 512 bytes, and the byte is taken to have been written. -/
theorem rwAll_short : ∃ f', (lsPwriteAll ⟨2, fun _ => 0, 0, 0⟩ true 0 [9] 1000).Runs Answers
      File.empty (.ok, []) f' ∧ f'.byte 1000 = 0 ∧ ¬ Stored File.empty 1000 [9] f' := by
  have hbyte : ∀ (base : ℕ) (b : List UInt8), base = 0 →
      (File.empty.write base (b.take 512)).byte 1000 = 0 := by
    rintro _ b rfl
    exact patch_of_ge (by have := List.length_take_le 512 b; omega)
  refine ⟨_, runs_nothing_read (Prog.runs_call.mpr ⟨Except.ok 512, _, ⟨?_, Or.inr ?_, rfl⟩,
    .ret _ _⟩), hbyte _ _ (by decide +kernel), fun h => ?_⟩
  · decide +kernel
  · decide
  · have := h.inside 0 (by decide)
    rw [Nat.add_zero, hbyte _ _ (by decide +kernel)] at this
    exact absurd this (by decide)

end Libspill
