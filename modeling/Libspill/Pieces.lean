import Libspill.Fence

set_option autoImplicit false

/-!
# The pieces of a transfer

The loop of `ls_scatter` cuts a range of a record at the borders of its extents.

* `pieces`: the parts of the range, each with its place in the file, and the bytes they make up.
* `exec_scatterLoop`: the loop transfers its pieces, one after the other.
* `pieces_done`: they make up the range if the extents do, also where the sum of their lengths wraps.
* **`pieces_locate`**: they move each byte to or from the place where the extents have it.
-/

namespace Libspill

variable {σ : Type} [Os σ] (E : Env)

/-- A part of a transfer: bytes `[pos, pos + len)` of the caller's buffer, at `foff` of the file. -/
structure Piece where
  pos : ℕ
  foff : ℕ
  len : ℕ
deriving DecidableEq, Repr

/-- The parts into which `ls_scatter` cuts `[off, off + n)`, from the extents that begin at logical
offset `base` on, and the bytes that are done after them. -/
def pieces (off n : ℕ) : List Extent → ℕ → ℕ → List Piece × ℕ
  | [], _, done => ([], done)
  | e :: es, base, done =>
    if done < n then
      let ehi := add64 base e.len
      if add64 off done ≥ ehi then pieces off n es ehi done
      else
        let room := sub64 ehi (add64 off done)
        let k := if room > n - done then n - done else room
        let r := pieces off n es ehi (done + k)
        (⟨done, add64 e.foff (sub64 (add64 off done) base), k⟩ :: r.1, r.2)
    else ([], done)

/-- Transfer pieces one after the other, and return `rc` after the last one. -/
def movePieces (direct : Bool) (addr : ℕ) (write : Bool) (buf : List UInt8) (rc : Rc) :
    List Piece → List UInt8 → Io (Rc × List UInt8)
  | [], out => .ret (rc, out)
  | q :: qs, out =>
    rwAll E direct (addr + q.pos) write ((buf.drop q.pos).take q.len) q.len q.foff >>= fun a =>
      if a.1 ≠ .ok then .ret (a.1, out ++ a.2)
      else movePieces direct addr write buf rc qs (out ++ a.2)

/-! ## The loop -/

section Loop

variable {E} {s s' : Store σ} {α β : Type}

/-- No call writes an extent array. -/
theorem exec_arr {p : Io α} {a : α} (h : s.exec p = some (a, s')) : s'.arr = s.arr := by
  induction p generalizing s with
  | ret b =>
    cases h
    rfl
  | hang => cases h
  | call q k ih =>
    have hstep : (perform q s).2.arr = s.arr := by
      cases q <;> rfl
    rw [← hstep]
    exact ih _ h

/-- Running one program after another. -/
theorem exec_bind (s : Store σ) (p : Io α) (f : α → Io β) :
    s.exec (p >>= f) = (s.exec p).bind fun r => r.2.exec (f r.1) := by
  induction p generalizing s with
  | ret a => rfl
  | hang => rfl
  | call q k ih => exact ih _ _

/-- An entry of an extent array does not change while a transfer runs alone. -/
theorem exec_extent (s : Store σ) (p : Ptr) (i : ℕ) (k : Extent → Io α) :
    s.exec (Io.extent p i k) = s.exec (k (s.arr p i)) := rfl

/-- **The loop of `ls_scatter` transfers its pieces.** -/
theorem exec_scatterLoop {direct write : Bool} {addr off n : ℕ} {buf : List UInt8} {arr : Ptr}
    {es : List Extent} {i base done : ℕ} {out : List UInt8} (hdone : done ≤ n)
    (hs : ∀ j e, es[j]? = some e → s.arr arr (i + j) = e) :
    s.exec (scatterLoop E direct addr write buf arr off n es.length i base done out) =
      s.exec (movePieces E direct addr write buf
        (if (pieces off n es base done).2 = n then .ok else .errno .eio)
        (pieces off n es base done).1 out) := by
  induction es generalizing s i base done out with
  | nil => rfl
  | cons e es ih =>
    have h0 : s.arr arr i = e := hs 0 e rfl
    have hrest : ∀ (s' : Store σ), s'.arr = s.arr →
        ∀ j e', es[j]? = some e' → s'.arr arr (i + 1 + j) = e' := by
      intro s' hs' j e' hj
      rw [hs', Nat.add_assoc, Nat.add_comm 1 j]
      exact hs (j + 1) e' hj
    unfold pieces
    rw [List.length_cons, scatterLoop]
    by_cases hlt : done < n
    swap
    · obtain rfl : done = n := by omega
      rw [if_neg hlt, if_neg hlt, if_pos rfl]
      rfl
    rw [if_pos hlt, if_pos hlt, exec_extent, h0]
    dsimp only
    by_cases hskip : add64 off done ≥ add64 base e.len
    · rw [if_pos hskip, if_pos hskip]
      exact ih hdone (hrest s rfl)
    rw [if_neg hskip, if_neg hskip]
    generalize hk : (if sub64 (add64 base e.len) (add64 off done) > n - done then n - done
      else sub64 (add64 base e.len) (add64 off done)) = k
    have hkn : done + k ≤ n := by
      split_ifs at hk <;> omega
    dsimp only
    unfold movePieces
    rw [exec_bind, exec_bind]
    dsimp only
    cases hrun : s.exec (rwAll E direct (addr + done) write ((buf.drop done).take k) k
      (add64 e.foff (sub64 (add64 off done) base))) with
    | none => rfl
    | some r =>
      obtain ⟨⟨rc, b⟩, s'⟩ := r
      simp only [Option.bind_some]
      by_cases hrc : rc ≠ .ok
      · rw [if_pos hrc, if_pos hrc]
      · rw [if_neg hrc, if_neg hrc]
        exact ih hkn (hrest s' (exec_arr hrun))

end Loop

/-! ## What the pieces make up -/

/-- The end of the last extent, as the loop computes it. -/
def endOf (es : List Extent) (base : ℕ) : ℕ := es.foldl (fun t e => add64 t e.len) base

/-- **The pieces make up the range** when the extents reach to its end, also where the sum of their
lengths wraps on the way. -/
theorem pieces_done {off n : ℕ} (hoff : off + n < 2 ^ 64) {es : List Extent} {base done : ℕ}
    (hdone : done ≤ n) (hbase : base ≤ off + done ∨ done = n) (hend : off + n ≤ endOf es base) :
    (pieces off n es base done).2 = n := by
  induction es generalizing base done with
  | nil =>
    have hend' : off + n ≤ base := hend
    show done = n
    omega
  | cons e es ih =>
    unfold pieces
    by_cases hlt : done < n
    swap
    · rw [if_neg hlt]
      show done = n
      omega
    have hadd : add64 off done = off + done := add64_eq (by omega)
    have hehi : add64 base e.len < 2 ^ 64 := Nat.mod_lt _ (by norm_num)
    rw [if_pos hlt, hadd]
    dsimp only
    by_cases hskip : off + done ≥ add64 base e.len
    · rw [if_pos hskip]
      exact ih hdone (Or.inl hskip) hend
    rw [if_neg hskip, sub64_eq (by omega) hehi]
    refine ih ?_ ?_ hend <;> split_ifs <;> omega

/-- The piece moves byte `j` of the caller's buffer, to or from place `x` of the file. -/
def Piece.Moves (q : Piece) (j x : ℕ) : Prop :=
  q.pos ≤ j ∧ j < q.pos + q.len ∧ x = q.foff + (j - q.pos)

/-- A piece lies in the part of the range that is not done. -/
theorem pieces_bounds {off n : ℕ} {es : List Extent} {base done : ℕ} {q : Piece}
    (hq : q ∈ (pieces off n es base done).1) : done ≤ q.pos ∧ q.pos + q.len ≤ n := by
  induction es generalizing base done with
  | nil => cases hq
  | cons e es ih =>
    unfold pieces at hq
    by_cases hlt : done < n
    swap
    · rw [if_neg hlt] at hq
      cases hq
    rw [if_pos hlt] at hq
    dsimp only at hq
    by_cases hskip : add64 off done ≥ add64 base e.len
    · rw [if_pos hskip] at hq
      exact ih hq
    rw [if_neg hskip] at hq
    rcases List.mem_cons.mp hq with rfl | hq
    · refine ⟨Nat.le_refl _, ?_⟩
      dsimp only
      split_ifs <;> omega
    · have := ih hq
      omega

/-- **Each byte of the range is moved to or from the place where the extents have it**, as far as the
sum of their lengths does not wrap: extents `rest` may follow for which it does. -/
theorem pieces_locate {off n : ℕ} {es rest : List Extent} (hfin : ∀ e ∈ es, e.fin ≤ 2 ^ 64)
    (htot : total es < 2 ^ 64) (hoff : off + n < 2 ^ 64) {j x : ℕ} (hj : j < n → off + j < total es)
    (post pre : List Extent) (hes : es = pre ++ post) {done : ℕ}
    (hbase : total pre ≤ off + done ∨ n ≤ done) :
    (∃ q ∈ (pieces off n (post ++ rest) (total pre) done).1, q.Moves j x) ↔
      done ≤ j ∧ j < n ∧ locate es (off + j) = some x := by
  induction post generalizing pre done with
  | nil =>
    rw [List.append_nil] at hes
    subst hes
    constructor
    · rintro ⟨q, hq, h1, h2, -⟩
      have := pieces_bounds hq
      have := hj (by omega)
      omega
    · rintro ⟨h1, h2, -⟩
      have := hj h2
      omega
  | cons e post ih =>
    rw [List.cons_append]
    unfold pieces
    by_cases hlt : done < n
    swap
    · rw [if_neg hlt]
      simp only [List.not_mem_nil, false_and, exists_false, false_iff]
      omega
    have hes' : es = (pre ++ [e]) ++ post := by rw [hes, List.append_assoc, List.singleton_append]
    have hbound := hfin e (by simp [hes])
    have htp : total (pre ++ [e]) = total pre + e.len := by simp
    have htes : total es = total pre + e.len + total post := by
      rw [hes', total_append, htp]
    rw [Span.fin] at hbound
    have hadd : add64 off done = off + done := add64_eq (by omega)
    have hehi : add64 (total pre) e.len = total (pre ++ [e]) := by rw [add64_eq (by omega), htp]
    rw [if_pos hlt, hadd, hehi]
    dsimp only
    by_cases hskip : off + done ≥ total (pre ++ [e])
    · rw [if_pos hskip]
      exact ih (pre ++ [e]) hes' (Or.inl hskip)
    rw [if_neg hskip, sub64_eq (by omega) (by omega), sub64_eq (by omega) (by omega),
      add64_eq (by omega)]
    generalize hk : (if total (pre ++ [e]) - (off + done) > n - done then n - done
      else total (pre ++ [e]) - (off + done)) = k
    have hkk : done + k ≤ n ∧ off + (done + k) ≤ total pre + e.len ∧
        (total (pre ++ [e]) ≤ off + (done + k) ∨ n ≤ done + k) := by
      split_ifs at hk <;> omega
    obtain ⟨hkn, hke, hnext⟩ := hkk
    have hrest := ih (pre ++ [e]) hes' hnext
    -- a byte of this extent
    have hhere : ∀ j, done ≤ j → j < done + k →
        locate es (off + j) = some (e.foff + (off + done - total pre) + (j - done)) := by
      intro j h1 h2
      rw [hes, show off + j = total pre + (off + j - total pre) by omega, locate_middle (by omega)]
      congr 1
      omega
    rw [List.exists_mem_cons_iff, hrest]
    unfold Piece.Moves
    dsimp only
    by_cases hj : done ≤ j ∧ j < done + k
    · rw [hhere j hj.1 hj.2, Option.some_inj]
      constructor
      · rintro (⟨-, -, hx⟩ | ⟨hge, -⟩)
        · exact ⟨hj.1, by omega, hx.symm⟩
        · omega
      · rintro ⟨-, -, hx⟩
        exact Or.inl ⟨hj.1, hj.2, hx.symm⟩
    · constructor
      · rintro (⟨h1, h2, -⟩ | ⟨h1, h2, h3⟩)
        · exact absurd ⟨h1, h2⟩ hj
        · exact ⟨by omega, h2, h3⟩
      · rintro ⟨h1, h2, h3⟩
        exact Or.inr ⟨by omega, h2, h3⟩

end Libspill
