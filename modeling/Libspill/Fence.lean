import Libspill.Transfer
import Libspill.FileIo

set_option autoImplicit false

/-!
# What a transfer cannot touch

Whatever the calls of a transfer answer, and whatever others do to the bytes it moves, it writes
only where its range lies, in whole blocks under direct I/O.

* `fence`: the calls that write in `T` only, and any answers.
* `Fenced`: what such calls leave alone. `perform_fenced`: one call.
* `wlp_rwAll`: `rw_all` stays in the blocks of its range.
* **`exec_lsPwriteAll_fenced`**, **`exec_lsPreadAll_fenced`**: inside a critical section.
-/

namespace Libspill

variable {σ : Type} [HonestOs σ] {E : Env}

open HonestOs (file clean)

/-- The calls that write in `T` only, over the extents `es` in the array `arr`. A read is answered
with at most what was asked for. -/
def fence (T : Set Loc) (arr : Ptr) (es : List Extent) : Local Call Call.Ans Unit where
  may
    | .pwrite b off, _ => ∀ i, i < b.length → Loc.file (off + i) ∈ T
    | .store p off b, _ => ∀ i, i < b.length → Loc.mem p (off + i) ∈ T
    | .extent p i, _ => p = arr ∧ i < es.length
    | _, _ => True
  out
    | .pread n _, _, .ok b, _ => b.length ≤ n
    | .extent _ i, _, e, _ => es[i]? = some e
    | _, _, _, _ => True

theorem File.eq_of_byte {f g : File} (hl : f.len = g.len) (hb : f.byte = g.byte) : f = g := by
  cases f
  cases g
  cases hl
  cases hb
  rfl

/-- What such calls leave alone. -/
structure Fenced (T : Set Loc) (s s' : Store σ) : Prop extends Untouched T s s' where
  top : ∀ B, s.flen ≤ B → (∀ x, Loc.file x ∈ T → x < B) → s'.flen ≤ B

namespace Fenced

variable {T : Set Loc} {s s' s'' : Store σ}

theorem refl : Fenced T s s := ⟨.refl, fun _ h _ => h⟩

theorem trans (h : Fenced T s s') (h' : Fenced T s' s'') : Fenced T s s'' :=
  ⟨h.toUntouched.trans h'.toUntouched, fun B h1 h2 => h'.top B (h.top B h1 h2) h2⟩

/-- Where nothing in the file is written the file is as it was. -/
theorem file_eq (h : Fenced T s s') (hT : ∀ x, Loc.file x ∉ T) : file s'.os = file s.os := by
  have hlen : s'.flen = s.flen :=
    Nat.le_antisymm (h.top _ (Nat.le_refl _) fun x hx => absurd hx (hT x)) h.len
  exact File.eq_of_byte hlen (funext fun x => h.byte (.file x) (hT x))

end Fenced

section Calls

variable {T : Set Loc} {arr : Ptr} {es : List Extent} {s : Store σ}

/-- One call. -/
theorem perform_fenced {c : Call} (hm : (fence T arr es).may c ()) : Fenced T s (perform c s).2 := by
  cases c with
  | pread n off =>
    have hf := HonestOs.pread_file s.os n off
    refine ⟨⟨rfl, fun l _ => ?_, ?_, HonestOs.pread_clean _ _ _⟩, fun B h _ => ?_⟩
    · cases l with
      | file x => exact congrFun (congrArg File.byte hf) x
      | mem p i => rfl
    · exact (congrArg File.len hf).ge
    · exact (congrArg File.len hf).le.trans h
  | pwrite b off =>
    have hlen := HonestOs.pwrite_len s.os b off
    have hout : ∀ x, Loc.file x ∉ T → patch (file s.os).byte off b x = (file s.os).byte x := by
      intro x hx
      refine if_neg fun hi => hx ?_
      have := hm (x - off) (by omega)
      rwa [Nat.add_sub_cancel' hi.1] at this
    have htop : ∀ B, s.flen ≤ B → (∀ x, Loc.file x ∈ T → x < B) →
        (file (Os.pwrite s.os b off).2).len ≤ B := by
      intro B h1 h2
      refine hlen.trans ?_
      simp only [File.write]
      split_ifs with hb
      · exact h1
      · have hpos := List.length_pos_iff.mpr hb
        have := h2 _ (hm (b.length - 1) (by omega))
        simp only [Store.flen] at h1
        omega
    refine ⟨⟨rfl, fun l hl => ?_, ?_, HonestOs.pwrite_clean _ _ _⟩, htop⟩
    · cases l with
      | mem p i => rfl
      | file x =>
        show (file (Os.pwrite s.os b off).2).byte x = (file s.os).byte x
        cases hr : (Os.pwrite s.os b off).1 with
        | ok k =>
          rw [(HonestOs.pwrite_ok _ _ _ _ hr).2]
          exact hout x hl
        | error e =>
          obtain ⟨-, -, -, ht⟩ := HonestOs.pwrite_err _ _ _ _ hr
          exact (ht x).elim id fun h => h.trans (hout x hl)
    · show s.flen ≤ (file (Os.pwrite s.os b off).2).len
      cases hr : (Os.pwrite s.os b off).1 with
      | ok k =>
        rw [(HonestOs.pwrite_ok _ _ _ _ hr).2]
        exact File.write_len_ge _ _ _
      | error e => exact (HonestOs.pwrite_err _ _ _ _ hr).2.2.1
  | load p off n => exact .refl
  | store p off b =>
    refine ⟨⟨rfl, fun l hl => ?_, Nat.le_refl _, id⟩, fun B h _ => h⟩
    cases l with
    | file x => rfl
    | mem q i =>
      simp only [perform, Store.byteAt]
      by_cases hq : q = p
      · subst hq
        rw [Function.update_self]
        refine if_neg fun hi => hl ?_
        have := hm (i - off) (by omega)
        rwa [Nat.add_sub_cancel' hi.1] at this
      · rw [Function.update_of_ne hq]
  | extent p i => exact .refl

/-- The answer to such a call. -/
theorem perform_out {c : Call} (hm : (fence T arr es).may c ())
    (harr : ∀ i e, es[i]? = some e → s.arr arr i = e) : (fence T arr es).out c () (perform c s).1 () := by
  cases c with
  | pread n off =>
    show (fence T arr es).out (.pread n off) () (Os.pread s.os n off).1 ()
    cases hr : (Os.pread s.os n off).1 with
    | error e => trivial
    | ok b =>
      show b.length ≤ n
      rw [HonestOs.pread_ok _ _ _ _ hr, File.read, length_slice]
      exact Nat.min_le_left _ _
  | pwrite b off => trivial
  | load p off n => trivial
  | store p off b => trivial
  | extent p i =>
    obtain ⟨rfl, hi⟩ := hm
    show es[i]? = some (s.arr p i)
    rw [harr i _ (List.getElem?_eq_getElem hi), List.getElem?_eq_getElem hi]

end Calls

/-! ## `rw_all` -/

section RwAll

variable {T : Set Loc} {arr : Ptr} {es : List Extent} {direct write : Bool} {cbuf out : List UInt8}
  {n off addr fuel done : ℕ}

/-- The bytes of the file that a write of `[off, off + n)` may touch. -/
def blocks (direct : Bool) (off n : ℕ) : Set Loc := {l | ∃ x, Reach direct off n x ∧ l = .file x}

theorem wlp_plain (hoff : off + n < 2 ^ 64) (hT : write = true → blocks direct off n ⊆ T) :
    (plain write cbuf n off fuel done out).wlp (fence T arr es) (fun _ _ => True) () := by
  induction fuel generalizing done out with
  | zero => trivial
  | succ fuel ih =>
    rw [plain]
    split_ifs with hd hw
    · refine ⟨fun i hi => hT hw ⟨_, .of_mem ?_ ?_, rfl⟩, fun a _ _ => ?_⟩
      · rw [add64_eq (by omega)]
        omega
      · rw [add64_eq (by omega)]
        simp only [List.length_take, List.length_drop] at hi
        omega
      · cases a with
        | error e =>
          dsimp only
          split_ifs
          · exact ih
          · trivial
        | ok k =>
          dsimp only
          split_ifs
          · trivial
          · exact ih
    · refine ⟨trivial, fun a _ _ => ?_⟩
      cases a with
      | error e =>
        dsimp only
        split_ifs
        · exact ih
        · trivial
      | ok b =>
        dsimp only
        split_ifs
        · trivial
        · exact ih
    · trivial

theorem wlp_bounce (hoff : off + n < 2 ^ 64) (hT : write = true → blocks true off n ⊆ T) :
    (bounce write cbuf n off fuel done out).wlp (fence T arr es) (fun _ _ => True) () := by
  induction fuel generalizing done out with
  | zero => trivial
  | succ fuel ih =>
    rw [bounce]
    by_cases hd : done < n
    swap
    · rw [if_neg hd]
      trivial
    rw [if_pos hd, add64_eq (by omega)]
    dsimp only
    generalize hbase : (off + done) / LS_ALIGN * LS_ALIGN = base
    generalize hskew : off + done - base = skew
    generalize hchunk : (if n - done > LS_BOUNCE - skew then LS_BOUNCE - skew else n - done) = chunk
    generalize hspan : (skew + chunk + LS_ALIGN - 1) / LS_ALIGN * LS_ALIGN = span
    have hA : LS_ALIGN = 4096 := rfl
    have hB : LS_BOUNCE = 4194304 := rfl
    have hsp : skew < 4096 ∧ skew + chunk ≤ span := by
      rw [hA] at hbase hspan
      omega
    have hck : 0 < chunk ∧ chunk ≤ n - done := by
      split_ifs at hchunk <;> omega
    have hreach : ∀ i, i < span → Reach true off n (base + i) := by
      intro i hi
      subst hbase hskew hspan
      exact (reach_span hck.1 (Nat.le_add_right _ _) (by omega)).mono (by omega) (by omega)
    split_ifs with hw hcond
    · refine ⟨trivial, fun a _ ha => ?_⟩
      cases a with
      | error e => trivial
      | ok b =>
        refine ⟨fun i hi => hT hw ⟨_, hreach i ?_, rfl⟩, fun a _ _ => ?_⟩
        · replace ha : b.length ≤ span := ha
          simp only [List.length_append, List.length_take, List.length_drop,
            List.length_replicate] at hi
          omega
        · cases a with
          | error e =>
            dsimp only
            split_ifs
            · exact ih
            · trivial
          | ok k => exact ih
    · refine ⟨fun i hi => hT hw ⟨_, hreach i ?_, rfl⟩, fun a _ _ => ?_⟩
      · simp only [List.length_append, List.length_take, List.length_drop, List.length_nil] at hi
        omega
      · cases a with
        | error e =>
          dsimp only
          split_ifs
          · exact ih
          · trivial
        | ok k => exact ih
    · refine ⟨trivial, fun a _ _ => ?_⟩
      cases a with
      | error e =>
        dsimp only
        split_ifs
        · exact ih
        · trivial
      | ok b => exact ih

/-- **`rw_all` writes only in the blocks of its range.** -/
theorem wlp_rwAll (hoff : off + n < 2 ^ 64) (hT : write = true → blocks direct off n ⊆ T) :
    (rwAll E direct addr write cbuf n off).wlp (fence T arr es) (fun _ _ => True) () := by
  rw [rwAll]
  split_ifs with h0 hp
  · trivial
  · exact wlp_plain hoff hT
  · have hd : direct = true := by
      cases direct
      · exact absurd rfl hp
      · rfl
    subst hd
    exact wlp_bounce hoff hT

end RwAll

/-! ## Inside a critical section -/

section Exec

variable {s s' : Store σ} {α : Type} {T : Set Loc} {p : Io α} {a : α}

/-- A transfer that writes in `T` only. -/
theorem exec_fenced (arr : Ptr) (es : List Extent) (hp : p.wlp (fence T arr es) (fun _ _ => True) ())
    (harr : ∀ i e, es[i]? = some e → s.arr arr i = e) (hrun : s.exec p = some (a, s')) :
    Fenced T s s' := by
  have hsim : Prog.Simulates (perform (σ := σ)) (fence T arr es) fun s' _ => Fenced T s s' := by
    intro c w u hw hm
    refine ⟨(), perform_out hm fun i e he => ?_, hw.trans (perform_fenced hm)⟩
    rw [hw.rest]
    exact harr i e he
  obtain ⟨-, -, h⟩ := Prog.run_of_wlp hsim hp .refl hrun
  exact h

theorem exec_lsPwriteAll_fenced {direct : Bool} {addr off : ℕ} {b : List UInt8}
    {a : Rc × List UInt8} (hoff : off + b.length < 2 ^ 64)
    (hrun : s.exec (lsPwriteAll E direct addr b off) = some (a, s')) :
    Fenced (blocks direct off b.length) s s' :=
  exec_fenced 0 [] (wlp_rwAll hoff fun _ => subset_rfl)
    (fun i e h => by simp at h) hrun

/-- Reading leaves the file as it is. -/
theorem exec_lsPreadAll_file {direct : Bool} {addr n off : ℕ} {a : Rc × List UInt8}
    (hoff : off + n < 2 ^ 64) (hrun : s.exec (lsPreadAll E direct addr n off) = some (a, s')) :
    file s'.os = file s.os ∧ (clean s'.os → clean s.os) := by
  have h : Fenced ∅ s s' := exec_fenced 0 [] (wlp_rwAll hoff fun h => by cases h)
    (fun i e h => by simp at h) hrun
  exact ⟨h.file_eq fun x => id, h.clean⟩

end Exec

end Libspill
