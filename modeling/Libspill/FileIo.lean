import Libspill.Open
import Libspill.Transfer

set_option autoImplicit false

/-!
# File I/O inside a critical section

With the lock held a transfer runs to its end, and its footprint is the whole store. A call of
`ls_pwrite_all` or of `zero_range` then has one of two outcomes: it did what it was asked, or a call
of the operating system has failed and at most its own range was touched.

* `Filed`: what such a call leaves behind.
* `exec_lsPwriteAll`, `exec_lsPreadAll`, `zeroRange_spec`.
* **`zeroRange_zeroes`**: the range reads as zero, the rest is unchanged, and the file reaches its end.
-/

namespace Libspill

variable {σ : Type} [HonestOs σ] {E : Env}

open HonestOs (file clean)

/-- The file bytes of a store. -/
def Store.fbyte (s : Store σ) (x : ℕ) : UInt8 := (file s.os).byte x

/-- A call has written `f` over `[off, off + n)` of the file, or it has failed. -/
structure Filed (s s' : Store σ) (off n : ℕ) (f : ℕ → UInt8) (rc : Rc) : Prop where
  os : s' = { s with os := s'.os }
  len : s.flen ≤ s'.flen
  clean : clean s'.os → clean s.os ∧ rc = .ok
  inside : rc = .ok → ∀ x, off ≤ x → x < off + n → s'.fbyte x = f x
  outside : ∀ x, x < off ∨ off + n ≤ x → s'.fbyte x = s.fbyte x
  reach : rc = .ok → 0 < n → off + n ≤ s'.flen

namespace Filed

variable {s s' s'' : Store σ} {off n m : ℕ} {f : ℕ → UInt8} {rc rc' : Rc}

theorem nil (hn : n = 0) : Filed s s off n f .ok :=
  ⟨rfl, Nat.le_refl _, fun h => ⟨h, rfl⟩, fun _ x h1 h2 => by omega, fun _ _ => rfl,
    fun _ h => by omega⟩

/-- Two calls on adjacent ranges. -/
theorem append (h : Filed s s' off n f .ok) (h' : Filed s' s'' (off + n) m f rc) :
    Filed s s'' off (n + m) f rc where
  os := by rw [h'.os, h.os]
  len := h.len.trans h'.len
  clean hc := ⟨(h.clean (h'.clean hc).1).1, (h'.clean hc).2⟩
  inside hr x h1 h2 := by
    by_cases hx : x < off + n
    · rw [h'.outside x (Or.inl hx)]
      exact h.inside rfl x h1 hx
    · exact h'.inside hr x (by omega) (by omega)
  outside x hx := (h'.outside x (by omega)).trans (h.outside x (by omega))
  reach hr hn := by
    by_cases hm : 0 < m
    · have := h'.reach hr hm
      omega
    · have := h.reach rfl (by omega)
      have := h'.len
      omega

/-- A failed call is a failed part of a longer one. -/
theorem widen (h : Filed s s' off n f rc) (hr : rc ≠ .ok) (hnm : n ≤ m) : Filed s s' off m f rc :=
  ⟨h.os, h.len, h.clean, fun h' => absurd h' hr, fun x hx => h.outside x (by omega),
    fun h' => absurd h' hr⟩

end Filed

/-- The view of a transfer that owns the whole store. -/
def Store.view (s : Store σ) : View := ⟨s.byteAt, s.flen, false⟩

/-- The footprint of a write to `[off, off + n)` of the file by the owner of the whole store. -/
def fileFoot (off n : ℕ) : Foot := ⟨Set.univ, {l | ∃ x, off ≤ x ∧ x < off + n ∧ l = .file x}, 0, []⟩

theorem sees_view (s : Store σ) (off n : ℕ) : (fileFoot off n).Sees s s.view where
  byte _ _ := rfl
  len := Nat.le_refl _
  dirty h := by cases h
  arr i e h := by simp [fileFoot] at h

theorem mem_not_fileFoot (off n : ℕ) (p : Ptr) (i : ℕ) : Loc.mem p i ∉ (fileFoot off n).T := by
  rintro ⟨x, -, -, h⟩
  cases h

/-- A file transfer inside a critical section. -/
theorem exec_file {α : Type} {p : Io α} {Q : α → View → Prop} {s : Store σ} {off n : ℕ}
    (hp : p.wp (fileFoot off n).spec Q s.view) :
    ∃ a s' w, s.exec p = some (a, s') ∧ Q a w ∧ (fileFoot off n).Sees s' w ∧
      s' = { s with os := s'.os } ∧ s.flen ≤ s'.flen ∧ (clean s'.os → clean s.os) ∧
      ∀ x, x < off ∨ off + n ≤ x → s'.fbyte x = s.fbyte x := by
  obtain ⟨a, s', w, h1, h2, h3, h4⟩ := exec_of_wp hp (sees_view s off n)
  refine ⟨a, s', w, h1, h2, h3, h4.eq_os (mem_not_fileFoot off n), h4.len, h4.clean, fun x hx => ?_⟩
  refine h4.byte (.file x) ?_
  rintro ⟨y, hy1, hy2, hy⟩
  cases hy
  omega

/-- `ls_pwrite_all`. -/
theorem exec_lsPwriteAll (hF : 2 ^ 64 ≤ E.fuel) (s : Store σ) (direct : Bool) (addr : ℕ)
    (b : List UInt8) (off : ℕ) (hoff : off + b.length < 2 ^ 64) :
    ∃ rc out s', s.exec (lsPwriteAll E direct addr b off) = some ((rc, out), s') ∧
      Filed s s' off b.length (patch s.fbyte off b) rc := by
  have hwp := wp_rwAll_write (F := fileFoot off b.length) (v := s.view) hF direct addr hoff (fun x _ => trivial) fun i hi => ⟨off + i, by omega, by omega, rfl⟩
  obtain ⟨⟨rc, out⟩, s', w, h1, h2, h3, hos, hlen, hcl, hout⟩ := exec_file hwp
  refine ⟨rc, out, s', h1, hos, hlen, fun hc => ⟨hcl hc, ?_⟩, fun hr x h4 h5 => ?_, hout,
    fun hr hn => ?_⟩
  · rcases h2 with h2 | ⟨h2, -⟩
    · exact absurd hc (h3.dirty h2.2)
    · exact congrArg Prod.fst h2
  · rcases h2 with h2 | ⟨-, h2⟩
    · exact absurd hr h2.1
    · have := h3.byte (.file x) trivial
      rwa [h2.byte] at this
  · rcases h2 with h2 | ⟨-, h2⟩
    · exact absurd hr h2.1
    · have h4 := h3.len
      have h5 := h2.len
      have h6 : b ≠ [] := List.length_pos_iff.mp hn
      simp only [View.put, if_neg h6] at h5
      omega

/-- `ls_pread_all`. -/
theorem exec_lsPreadAll (hF : 2 ^ 64 ≤ E.fuel) (s : Store σ) (direct : Bool) (addr : ℕ)
    {n off : ℕ} (hoff : off + n < 2 ^ 64) (hlen : off + n ≤ s.flen) :
    ∃ rc out s', s.exec (lsPreadAll E direct addr n off) = some ((rc, out), s') ∧
      s' = { s with os := s'.os } ∧ s.flen ≤ s'.flen ∧ s'.fbyte = s.fbyte ∧
      (clean s'.os → clean s.os ∧ rc = .ok) ∧ (rc = .ok → out = slice s.fbyte off n) := by
  have hwp := wp_rwAll_read (F := fileFoot off 0) (v := s.view) hF direct addr hoff (fun x _ => trivial) hlen
  obtain ⟨⟨rc, out⟩, s', w, h1, h2, h3, hos, hl, hcl, hout⟩ := exec_file hwp
  refine ⟨rc, out, s', h1, hos, hl, funext fun x => hout x (by omega), fun hc => ⟨hcl hc, ?_⟩,
    fun hr => ?_⟩
  · rcases h2 with h2 | ⟨h2, -⟩
    · exact absurd hc (h3.dirty h2.2)
    · exact congrArg Prod.fst h2
  · rcases h2 with h2 | ⟨h2, -⟩
    · exact absurd hr h2.1
    · exact congrArg Prod.snd h2

/-! ## `zero_range` -/

theorem filed_congr {s s' : Store σ} {off n : ℕ} {f g : ℕ → UInt8} {rc : Rc}
    (h : Filed s s' off n f rc) (hfg : ∀ x, off ≤ x → x < off + n → f x = g x) :
    Filed s s' off n g rc :=
  ⟨h.os, h.len, h.clean, fun hr x h1 h2 => (h.inside hr x h1 h2).trans (hfg x h1 h2), h.outside,
    h.reach⟩

theorem writeZeros_spec (hF : 2 ^ 64 ≤ E.fuel) (fuel : ℕ) (s : Store σ) (off len : ℕ)
    (hoff : off + len < 2 ^ 64) (hfuel : len < fuel) :
    ∃ rc s', writeZeros E fuel off len s = some (rc, s') ∧ Filed s s' off len (fun _ => 0) rc := by
  induction fuel generalizing s off len with
  | zero => omega
  | succ fuel ih =>
    rw [writeZeros]
    by_cases h0 : len = 0
    · rw [if_pos h0]
      exact ⟨_, _, rfl, .nil h0⟩
    rw [if_neg h0]
    dsimp only
    generalize hk : (if len < 2 ^ 20 then len else 2 ^ 20) = k
    have hk' : 0 < k ∧ k ≤ len := by split_ifs at hk <;> omega
    obtain ⟨rc, out, s', h1, h2⟩ := exec_lsPwriteAll hF s s.direct 0 (List.replicate k 0)
      off (by simp; omega)
    rw [h1]
    dsimp only
    have hz : Filed s s' off k (fun _ => 0) rc := by
      rw [List.length_replicate] at h2
      refine filed_congr h2 fun x h3 h4 => ?_
      rw [patch, if_pos (by simp; omega), List.getD_eq_getElem?_getD,
        List.getElem?_replicate_of_lt (by omega)]
      rfl
    split_ifs with hr
    · subst hr
      rw [add64_eq (by omega)]
      obtain ⟨rc, s'', h3, h4⟩ := ih s' (off + k) (len - k) (by omega) (by omega)
      refine ⟨rc, s'', h3, ?_⟩
      have := hz.append h4
      rwa [Nat.add_sub_cancel' hk'.2] at this
    · exact ⟨rc, s', rfl, hz.widen hr hk'.2⟩

/-- The file after the zeroing primitive was asked for the bytes of `[off, off + n)` inside it. -/
structure Asked (s s' : Store σ) (off n : ℕ) (zeroed : Bool) : Prop where
  os : s' = { s with os := s'.os }
  len : s'.flen = s.flen
  clean : clean s'.os → clean s.os
  inside : zeroed = true → ∀ x, off ≤ x → x < off + n → s'.fbyte x = 0
  outside : ∀ x, x < off ∨ off + n ≤ x → s'.fbyte x = s.fbyte x

theorem asked_askZero (s : Store σ) (off n : ℕ) :
    Asked s (askZero s off (insideOf s.flen off n)).2 off n
      (askZero s off (insideOf s.flen off n)).1 := by
  generalize hin : insideOf s.flen off n = inside
  have hle : inside ≤ n := by
    unfold insideOf at hin
    split_ifs at hin <;> omega
  have hpast : ∀ x, off + inside ≤ x → x < off + n → (file s.os).byte x = 0 := by
    intro x h1 h2
    apply (file s.os).past
    unfold insideOf Store.flen at hin
    split_ifs at hin <;> omega
  unfold askZero
  split_ifs with h0
  · exact ⟨rfl, rfl, id, fun _ x h1 h2 => hpast x (by omega) h2, fun _ _ => rfl⟩
  cases hz : (Os.zeroRange s.os off inside).1 with
  | ok _ =>
    have hf := HonestOs.zeroRange_ok _ _ _ hz
    refine ⟨rfl, by simp [Store.flen, hf, File.zero], HonestOs.zeroRange_clean _ _ _,
      fun _ x h1 h2 => ?_, fun x hx => ?_⟩
    · simp only [Store.fbyte, hf, File.zero]
      split_ifs with hi
      · rfl
      · exact hpast x (by omega) h2
    · simp only [Store.fbyte, hf, File.zero]
      exact if_neg (by omega)
  | error e =>
    have hf := HonestOs.zeroRange_err _ _ _ _ hz
    refine ⟨rfl, hf.1, HonestOs.zeroRange_clean _ _ _,
      fun h => by simp [hz, Except.isOk, Except.toBool] at h, fun x hx => ?_⟩
    rcases hf.2 x with h | ⟨h1, h2, -⟩
    · exact h
    · omega

/-- What is asked for first and written afterwards. -/
theorem Asked.filed {s s' s'' : Store σ} {off n m k : ℕ} {zeroed : Bool} {f : ℕ → UInt8} {rc : Rc}
    (h : Asked s s' off n zeroed) (h' : Filed s' s'' m k f rc) (hm : off ≤ m) (hk : m + k = off + n)
    (hf : ∀ x, m ≤ x → x < m + k → f x = 0) (hz : zeroed = true ∨ m = off) (hn : 0 < n → 0 < k) :
    Filed s s'' off n (fun _ => 0) rc where
  os := by rw [h'.os, h.os]
  len := h.len.ge.trans h'.len
  clean hc := ⟨h.clean (h'.clean hc).1, (h'.clean hc).2⟩
  inside hr x h1 h2 := by
    by_cases hx : m ≤ x
    · rw [h'.inside hr x hx (by omega), hf x hx (by omega)]
    · rw [h'.outside x (by omega)]
      exact h.inside (hz.resolve_right (by omega)) x h1 h2
  outside x hx := (h'.outside x (by omega)).trans (h.outside x (by omega))
  reach hr hn' := by
    have := h'.reach hr (hn hn')
    omega

/-- **`zero_range` zeroes its range and extends the file to its end**, or a call has failed. -/
theorem zeroRange_spec (hF : 2 ^ 64 ≤ E.fuel) (s : Store σ) (off len : ℕ)
    (hoff : off + len < 2 ^ 64) :
    ∃ rc s', zeroRange E s off len = some (rc, s') ∧ Filed s s' off len (fun _ => 0) rc := by
  rw [zeroRange]
  split_ifs with h0 hd
  · exact ⟨_, _, rfl, .nil h0⟩
  · exact writeZeros_spec hF _ s off len hoff (by omega)
  have hsz := HonestOs.fileSize_file s.os
  have hcl := HonestOs.fileSize_clean s.os
  cases hr : Os.fileSize s.os with
  | mk res os =>
    rw [hr] at hsz hcl
    dsimp only at hsz hcl
    cases res with
    | error e =>
      have hdirty := HonestOs.fileSize_err s.os e (by rw [hr])
      rw [hr] at hdirty
      refine ⟨_, _, rfl, rfl, ?_, fun h => absurd h hdirty, fun h => (by cases h),
        fun x _ => ?_, fun h => (by cases h)⟩
      · simp [Store.flen, hsz]
      · simp [Store.fbyte, hsz]
    | ok fin =>
      have hfin : fin = s.flen := HonestOs.fileSize_ok s.os fin (by rw [hr])
      have hask := asked_askZero { s with os := os } off len
      have hlen : Store.flen { s with os := os } = s.flen := by simp [Store.flen, hsz]
      rw [hlen, ← hfin] at hask
      have hask' : Asked s (askZero { s with os := os } off (insideOf fin off len)).2 off len
          (askZero { s with os := os } off (insideOf fin off len)).1 := by
        refine ⟨hask.os.trans rfl, hask.len.trans hlen, hcl ∘ hask.clean, hask.inside, fun x hx => ?_⟩
        rw [hask.outside x hx]
        simp [Store.fbyte, hsz]
      dsimp only
      clear hask
      generalize askZero { s with os := os } off (insideOf fin off len) = z at hask' ⊢
      obtain ⟨zeroed, s₁⟩ := z
      cases zeroed with
      | false =>
        obtain ⟨rc, s', h1, h2⟩ := writeZeros_spec hF E.fuel s₁ off len hoff (by omega)
        exact ⟨rc, s', h1, hask'.filed h2 (Nat.le_refl _) rfl (fun _ _ _ => rfl) (Or.inr rfl) id⟩
      | true =>
        dsimp only at hask' ⊢
        rw [add64_eq hoff]
        split_ifs with hle
        · refine ⟨_, _, rfl, hask'.os, hask'.len.ge, fun hc => ⟨hask'.clean hc, rfl⟩,
            fun _ => hask'.inside rfl, hask'.outside, fun _ _ => ?_⟩
          rw [hask'.len]
          omega
        · rw [sub64_eq (by omega) (by omega)]
          obtain ⟨rc, out, s', h1, h2⟩ := exec_lsPwriteAll hF s₁ s₁.direct 0 [0]
            (off + len - 1) (by simp; omega)
          rw [h1]
          refine ⟨rc, s', rfl, hask'.filed h2 (by omega) (by simp; omega) (fun x h3 h4 => ?_)
            (Or.inl rfl) fun _ => by simp⟩
          rw [patch, if_pos ⟨h3, h4⟩]
          simp only [List.length_singleton] at h4
          rw [show x - (off + len - 1) = 0 by omega]
          rfl

/-- The file after a range of it was zeroed. An empty range leaves it as short as it is. -/
structure Zeroed (s s' : Store σ) (off len : ℕ) : Prop where
  inside : ∀ x, off ≤ x → x < off + len → s'.fbyte x = 0
  outside : ∀ x, x < off ∨ off + len ≤ x → s'.fbyte x = s.fbyte x
  grows : s.flen ≤ s'.flen
  reach : len ≠ 0 → off + len ≤ s'.flen

/-- **`zero_range` zeroes exactly its range**, whatever the file holds and wherever it ends, with
direct I/O or without it, and whether the zeroing primitive works or refuses. -/
theorem zeroRange_zeroes (hF : 2 ^ 64 ≤ E.fuel) (s : Store σ) {off len : ℕ} (hlen : off + len < 2 ^ 63) :
    ∃ rc s', zeroRange E s off len = some (rc, s') ∧ (clean s'.os → rc = .ok) ∧
      (rc = .ok → Zeroed s s' off len) := by
  obtain ⟨rc, s', h1, h2⟩ := zeroRange_spec hF s off len (by omega)
  refine ⟨rc, s', h1, fun hc => (h2.clean hc).2, fun hr => ?_⟩
  exact ⟨h2.inside hr, h2.outside, h2.len, fun h0 => h2.reach hr (Nat.pos_of_ne_zero h0)⟩

/-- A store on a disk whose file has stale bytes where the data ends. -/
def Disk.stale : Store Disk :=
  freshStore {} false ⟨File.empty.write LS_SUPER_SIZE [1, 2, 3], by decide, true⟩

/-- A range that begins on stale bytes and ends past the end of the file. -/
theorem zeroRange_zeroes_stale : ∃ s', zeroRange ⟨2 ^ 64, fun _ => 0, 0, 0⟩ Disk.stale LS_SUPER_SIZE 8192 =
    some (.ok, s') ∧ Disk.stale.fbyte 4098 = 3 ∧ Disk.stale.flen = 4099 ∧
      Zeroed Disk.stale s' LS_SUPER_SIZE 8192 := by
  have hrun : (zeroRange ⟨2 ^ 64, fun _ => 0, 0, 0⟩ Disk.stale LS_SUPER_SIZE 8192).map Prod.fst =
      some .ok := by decide +kernel
  obtain ⟨⟨rc, s'⟩, h1, rfl⟩ := Option.map_eq_some_iff.mp hrun
  obtain ⟨rc, s₁, h2, -, h3⟩ := @zeroRange_zeroes Disk _ ⟨2 ^ 64, fun _ => 0, 0, 0⟩ (Nat.le_refl _)
    Disk.stale LS_SUPER_SIZE 8192 (by decide)
  rw [h1] at h2
  cases h2
  exact ⟨s', h1, rfl, rfl, h3 rfl⟩

/-- **An empty range past the end of the file**: there is nothing to zero, and the file ends before it. -/
theorem zeroRange_empty : ∃ (s : Store Disk) (off len : ℕ), LS_ALIGN ∣ off ∧ LS_ALIGN ∣ len ∧
    off + len < 2 ^ 63 ∧ zeroRange ⟨2 ^ 64, fun _ => 0, 0, 0⟩ s off len = some (.ok, s) ∧
    s.os.ok = true ∧ s.flen < off + len :=
  ⟨Disk.stale, 8192, 0, by decide, by decide, by decide, rfl, rfl, by decide⟩

end Libspill
