import Libspill.Transfer

set_option autoImplicit false

/-!
# Direct I/O

The bounce loop of `rw_all` against its plain loop, on an operating system that makes full transfers.
Neither loop looks at the address of the buffer, which only decides which of them runs.

* `full`: the answers of such an operating system, which keeps the calls it was asked.
* `bounce_turn_read`, `bounce_turn_write`: one turn of the bounce loop moves a piece of the range
  through an aligned span.
* `bounce_plain`: the two loops move the same bytes, and the bounce loop's calls are aligned, are no
  longer than its buffer, and stay in the blocks of the range.
-/

namespace Libspill

/-- A file, and the calls that were asked of it. -/
@[ext] structure Tape where
  file : File
  calls : List Call

/-- Full transfers: short only at the end of the file. -/
def full : Handler Call Call.Ans Tape
  | .pread n off, w => (.ok (w.file.read n off), { w with calls := w.calls ++ [.pread n off] })
  | .pwrite b off, w =>
    (.ok b.length, { file := w.file.write off b, calls := w.calls ++ [.pwrite b off] })
  | .load p off n, w => ([], { w with calls := w.calls ++ [.load p off n] })
  | .store p off b, w => ((), { w with calls := w.calls ++ [.store p off b] })
  | .extent p i, w => (⟨0, 0⟩, { w with calls := w.calls ++ [.extent p i] })

/-- A transfer from or to the file that direct I/O accepts and that the staging buffer holds. -/
def Call.Aligned : Call → Prop
  | .pread n off => LS_ALIGN ∣ off ∧ LS_ALIGN ∣ n ∧ n ≤ LS_BOUNCE
  | .pwrite b off => LS_ALIGN ∣ off ∧ LS_ALIGN ∣ b.length ∧ b.length ≤ LS_BOUNCE
  | _ => False

/-- A transfer from or to `[lo, hi)` of the file. -/
def Call.Within (lo hi : ℕ) : Call → Prop
  | .pread n off => lo ≤ off ∧ off + n ≤ hi
  | .pwrite b off => lo ≤ off ∧ off + b.length ≤ hi
  | _ => False

/-- Calls for the range `[off, off + n)`: aligned, and inside every range of whole blocks that the
range is in. -/
def Staged (off n : ℕ) (cs : List Call) : Prop :=
  ∀ c ∈ cs, c.Aligned ∧ ∀ lo hi, LS_ALIGN ∣ lo → LS_ALIGN ∣ hi → lo ≤ off → off + n ≤ hi →
    c.Within lo hi

theorem Staged.append {off n : ℕ} {cs ds : List Call} (h : Staged off n cs) (h' : Staged off n ds) :
    Staged off n (cs ++ ds) := fun c hc => (List.mem_append.mp hc).elim (h c) (h' c)

/-- The end of the block that a range up to `x` ends in. -/
def blockEnd (x : ℕ) : ℕ := (x + LS_ALIGN - 1) / LS_ALIGN * LS_ALIGN

/-! ## One turn -/

/-- The aligned span of one turn. -/
structure Window (off n done base skew chunk span : ℕ) : Prop extends
    Turn off n done base skew chunk span where
  skew_lt : skew < LS_ALIGN
  base_dvd : LS_ALIGN ∣ base
  span_dvd : LS_ALIGN ∣ span
  span_le : span ≤ LS_BOUNCE
  fin : base + span = blockEnd (off + (done + chunk))

theorem window_of_lt (off : ℕ) {n done : ℕ} (hlt : done < n) :
    let base := (off + done) / LS_ALIGN * LS_ALIGN
    let skew := off + done - base
    let chunk := if n - done > LS_BOUNCE - skew then LS_BOUNCE - skew else n - done
    Window off n done base skew chunk ((skew + chunk + LS_ALIGN - 1) / LS_ALIGN * LS_ALIGN) := by
  intro base skew chunk
  have ht := turn_of_lt off hlt
  have hA : LS_ALIGN = 4096 := rfl
  have hB : LS_BOUNCE = 4194304 := rfl
  have hbase : LS_ALIGN ∣ base := Nat.dvd_mul_left _ _
  have hle : base + skew = off + done := ht.pos
  have hskew : skew < LS_ALIGN := by simp only [skew, base, hA]; omega
  have hck : skew + chunk ≤ LS_BOUNCE := by
    simp only [chunk]
    split_ifs <;> omega
  refine ⟨ht, hskew, hbase, Nat.dvd_mul_left _ _, ?_, ?_⟩
  · rw [hA, hB] at *
    omega
  · rw [← Nat.add_assoc, ← hle, blockEnd]
    rw [hA] at *
    omega

/-- The calls of one turn are for its range. -/
theorem Window.staged {off n done base skew chunk span : ℕ}
    (h : Window off n done base skew chunk span) {c : Call}
    (hc : c = .pread span base ∨ ∃ b : List UInt8, b.length = span ∧ c = .pwrite b base) :
    c.Aligned ∧ ∀ lo hi, LS_ALIGN ∣ lo → LS_ALIGN ∣ hi → lo ≤ off → off + n ≤ hi →
      c.Within lo hi := by
  have hin : ∀ lo hi, LS_ALIGN ∣ lo → LS_ALIGN ∣ hi → lo ≤ off → off + n ≤ hi →
      lo ≤ base ∧ base + span ≤ hi := by
    intro lo hi hlo hhi h1 h2
    have hb := h.base_dvd
    have hp := h.pos
    have hcn := h.chunk_le
    have hf := h.fin
    rw [blockEnd] at hf
    have hskew := h.skew_lt
    rw [show LS_ALIGN = 4096 from rfl] at *
    omega
  rcases hc with rfl | ⟨b, hb, rfl⟩
  · exact ⟨⟨h.base_dvd, h.span_dvd, h.span_le⟩, hin⟩
  · refine ⟨?_, ?_⟩
    · rw [Call.Aligned, hb]
      exact ⟨h.base_dvd, h.span_dvd, h.span_le⟩
    · simp only [Call.Within, hb]
      exact hin

/-- What a read that comes back short at the end of the file is filled up to. -/
theorem read_padded (f : File) (off n : ℕ) :
    f.read n off ++ List.replicate (n - (f.read n off).length) 0 = slice f.byte off n :=
  slice_padded (Nat.min_le_left _ _) fun i h1 h2 => f.past _ (by omega)

theorem write_len (f : File) (off : ℕ) {b : List UInt8} (hb : b ≠ []) :
    (f.write off b).len = max f.len (off + b.length) := if_neg hb

section Run

variable {α : Type} (n off : ℕ) (w : Tape)

theorem run_pread (k : Except Errno (List UInt8) → Io α) : (Io.pread n off k).run full w =
    (k (.ok (w.file.read n off))).run full { w with calls := w.calls ++ [.pread n off] } := rfl

theorem run_pwrite (b : List UInt8) (k : Except Errno ℕ → Io α) : (Io.pwrite b off k).run full w =
    (k (.ok b.length)).run full ⟨w.file.write off b, w.calls ++ [.pwrite b off]⟩ := rfl

end Run

/-- **One turn of a read.** -/
theorem bounce_turn_read {n off done : ℕ} (hlt : done < n) (hoff : off + n ≤ 2 ^ 64) (w : Tape)
    (out : List UInt8) : ∃ chunk c, 0 < chunk ∧ done + chunk ≤ n ∧ Staged off n [c] ∧
      ∀ fuel, (bounce false [] n off (fuel + 1) done out).run full w =
        (bounce false [] n off fuel (done + chunk)
          (out ++ slice w.file.byte (off + done) chunk)).run full
          { w with calls := w.calls ++ [c] } := by
  have ht := window_of_lt off hlt
  dsimp only at ht
  generalize hb : (off + done) / LS_ALIGN * LS_ALIGN = base at ht
  generalize hs : off + done - base = skew at ht
  generalize hc : (if n - done > LS_BOUNCE - skew then LS_BOUNCE - skew else n - done) = chunk at ht
  generalize hp : (skew + chunk + LS_ALIGN - 1) / LS_ALIGN * LS_ALIGN = span at ht
  have hpos := ht.pos
  have hspan := ht.span_ge
  have hcut : ((slice w.file.byte base span).drop skew).take chunk =
      slice w.file.byte (off + done) chunk := by
    have : span = skew + (span - skew) := by omega
    rw [this, slice_add, List.drop_append_of_le_length (by simp),
      List.drop_eq_nil_of_le (by simp), List.nil_append, take_slice, hpos,
      Nat.min_eq_left (by omega)]
  refine ⟨chunk, .pread span base, ht.chunk_pos, ht.chunk_le, fun c hc => ?_, fun fuel => ?_⟩
  · exact List.mem_singleton.mp hc ▸ ht.staged (Or.inl rfl)
  · rw [bounce, if_pos hlt, add64_eq (by omega), if_neg (by simp)]
    simp only [hb, hs, hc, hp, run_pread, read_padded, hcut]

/-- **One turn of a write**: what is read around the piece is written back. -/
theorem bounce_turn_write {b : List UInt8} {off done : ℕ} (hlt : done < b.length)
    (hoff : off + b.length ≤ 2 ^ 64) (w : Tape) : ∃ chunk f cs, 0 < chunk ∧
      done + chunk ≤ b.length ∧ Staged off b.length cs ∧
      f.byte = patch w.file.byte (off + done) ((b.drop done).take chunk) ∧
      f.len = max w.file.len (blockEnd (off + (done + chunk))) ∧
      ∀ fuel out, (bounce true b b.length off (fuel + 1) done out).run full w =
        (bounce true b b.length off fuel (done + chunk) out).run full ⟨f, w.calls ++ cs⟩ := by
  have ht := window_of_lt off hlt
  dsimp only at ht
  generalize hb : (off + done) / LS_ALIGN * LS_ALIGN = base at ht
  generalize hs : off + done - base = skew at ht
  generalize hc : (if b.length - done > LS_BOUNCE - skew then LS_BOUNCE - skew
    else b.length - done) = chunk at ht
  generalize hp : (skew + chunk + LS_ALIGN - 1) / LS_ALIGN * LS_ALIGN = span at ht
  have hpos := ht.pos
  have hspan := ht.span_ge
  have hcn := ht.chunk_le
  have hc0 := ht.chunk_pos
  generalize hd : (b.drop done).take chunk = d
  have hdl : d.length = chunk := by
    rw [← hd, List.length_take, List.length_drop]
    omega
  -- what is written, from what the staging buffer holds around the piece
  have key : ∀ bb : List UInt8, bb.take skew = slice w.file.byte base skew →
      bb.drop (skew + chunk) = slice w.file.byte (base + skew + d.length) (span - (skew + chunk)) →
      (bb.take skew ++ d ++ bb.drop (skew + chunk)).length = span ∧
      (w.file.write base (bb.take skew ++ d ++ bb.drop (skew + chunk))).byte =
        patch w.file.byte (off + done) d ∧
      (w.file.write base (bb.take skew ++ d ++ bb.drop (skew + chunk))).len =
        max w.file.len (blockEnd (off + (done + chunk))) := by
    intro bb h1 h2
    have hB := patch_between w.file.byte base skew (span - (skew + chunk)) d
    rw [← h1, ← h2, hpos] at hB
    have hBl : (bb.take skew ++ d ++ bb.drop (skew + chunk)).length = span := by
      rw [h1, h2]
      simp only [List.length_append, length_slice]
      omega
    refine ⟨hBl, hB, ?_⟩
    have hne : bb.take skew ++ d ++ bb.drop (skew + chunk) ≠ [] := by
      rw [← List.length_pos_iff]
      omega
    rw [write_len _ _ hne, hBl, ht.fin]
  have hfull : (slice w.file.byte base span).drop (skew + chunk) =
      slice w.file.byte (base + skew + d.length) (span - (skew + chunk)) := by
    have : span = (skew + chunk) + (span - (skew + chunk)) := by omega
    conv_lhs => rw [this, slice_add]
    rw [List.drop_append_of_le_length (by simp), List.drop_eq_nil_of_le (by simp),
      List.nil_append, hdl, Nat.add_assoc]
  by_cases hrmw : skew ≠ 0 ∨ span ≠ skew + chunk
  · obtain ⟨h1, h2, h3⟩ := key (slice w.file.byte base span)
      (by rw [take_slice, Nat.min_eq_left (by omega)]) hfull
    generalize hB : (slice w.file.byte base span).take skew ++ d ++
      (slice w.file.byte base span).drop (skew + chunk) = B at h1 h2 h3
    refine ⟨chunk, w.file.write base B, [.pread span base, .pwrite B base], hc0, hcn, fun c hcs => ?_, by rw [hd, h2],
      h3, fun fuel out => ?_⟩
    · rcases List.mem_cons.mp hcs with rfl | hcs
      · exact ht.staged (Or.inl rfl)
      · exact List.mem_singleton.mp hcs ▸ ht.staged (Or.inr ⟨_, h1, rfl⟩)
    · rw [bounce, if_pos hlt, add64_eq (by omega), if_pos rfl]
      dsimp only
      rw [hb, hs, hc, hp, if_pos hrmw, run_pread]
      dsimp only
      rw [read_padded, hd, hB, run_pwrite]
      dsimp only
      rw [List.append_assoc]
      rfl
  · rw [not_or, not_not, not_not] at hrmw
    obtain ⟨h1, h2, h3⟩ := key [] (by rw [hrmw.1]; rfl)
      (by rw [show span - (skew + chunk) = 0 by omega, List.drop_nil]; rfl)
    generalize hB : ([] : List UInt8).take skew ++ d ++ ([] : List UInt8).drop (skew + chunk) = B
      at h1 h2 h3
    refine ⟨chunk, w.file.write base B, [.pwrite B base], hc0, hcn, fun c hcs => ?_, by rw [hd, h2], h3,
      fun fuel out => ?_⟩
    · exact List.mem_singleton.mp hcs ▸ ht.staged (Or.inr ⟨_, h1, rfl⟩)
    · rw [bounce, if_pos hlt, add64_eq (by omega), if_pos rfl]
      dsimp only
      rw [hb, hs, hc, hp, if_neg (by simp [hrmw]), hd, hB, run_pwrite]

/-! ## Whole transfers -/

/-- The bounce loop reads: by induction on its turns. -/
theorem run_bounce_read {n off : ℕ} (hoff : off + n ≤ 2 ^ 64) (fuel done : ℕ) (hdone : done ≤ n)
    (hfuel : n - done < fuel) (w : Tape) (out : List UInt8) : ∃ cs, Staged off n cs ∧
      (bounce false [] n off fuel done out).run full w =
        some ((.ok, out ++ slice w.file.byte (off + done) (n - done)),
          { w with calls := w.calls ++ cs }) := by
  induction fuel generalizing done w out with
  | zero => omega
  | succ fuel ih =>
    by_cases hlt : done < n
    · obtain ⟨chunk, c, h0, hn, hc, hturn⟩ := bounce_turn_read hlt hoff w out
      obtain ⟨cs, hcs, hrun⟩ := ih (done + chunk) hn (by omega) { w with calls := w.calls ++ [c] }
        (out ++ slice w.file.byte (off + done) chunk)
      refine ⟨[c] ++ cs, hc.append hcs, ?_⟩
      rw [hturn, hrun, List.append_assoc, List.append_assoc, ← Nat.add_assoc, ← slice_add]
      congr 6
      omega
    · refine ⟨[], fun c hc => (by cases hc), ?_⟩
      rw [bounce, if_neg hlt, Nat.sub_eq_zero_of_le (by omega), slice_zero, List.append_nil,
        List.append_nil]
      rfl

/-- The bounce loop writes: by induction on its turns. -/
theorem run_bounce_write {b : List UInt8} {off : ℕ} (hoff : off + b.length ≤ 2 ^ 64)
    (fuel done : ℕ) (hdone : done ≤ b.length) (hfuel : b.length - done < fuel) (w : Tape)
    (out : List UInt8) : ∃ f cs, Staged off b.length cs ∧
      f.byte = patch w.file.byte (off + done) (b.drop done) ∧
      f.len = (if done < b.length then max w.file.len (blockEnd (off + b.length))
        else w.file.len) ∧
      (bounce true b b.length off fuel done out).run full w =
        some ((.ok, out), ⟨f, w.calls ++ cs⟩) := by
  induction fuel generalizing done w with
  | zero => omega
  | succ fuel ih =>
    by_cases hlt : done < b.length
    · obtain ⟨chunk, f, cs, h0, hn, hcs, hbyte, hlen, hturn⟩ := bounce_turn_write hlt hoff w
      obtain ⟨g, ds, hds, hgb, hgl, hrun⟩ := ih (done + chunk) hn (by omega) ⟨f, w.calls ++ cs⟩
      refine ⟨g, cs ++ ds, hcs.append hds, ?_, ?_, ?_⟩
      · have hcat : (b.drop done).take chunk ++ b.drop (done + chunk) = b.drop done := by
          rw [← List.drop_drop, List.take_append_drop]
        have hl : ((b.drop done).take chunk).length = chunk := by
          rw [List.length_take, List.length_drop]
          omega
        conv_rhs => rw [← hcat, ← patch_append, hl, Nat.add_assoc]
        rw [hgb, hbyte]
      · rw [hgl, if_pos hlt, hlen]
        unfold blockEnd
        split_ifs with hd
        · rw [show LS_ALIGN = 4096 from rfl]
          omega
        · rw [show done + chunk = b.length by omega]
      · rw [hturn, hrun, List.append_assoc]
    · refine ⟨w.file, [], fun c hc => (by cases hc), ?_, (if_neg hlt).symm, ?_⟩
      · rw [List.drop_eq_nil_of_le (by omega), patch_nil]
      · rw [bounce, if_neg hlt, List.append_nil]
        rfl

theorem run_plain_read {n off : ℕ} (hoff : off + n ≤ 2 ^ 64) {fuel : ℕ} (hfuel : n < fuel) (f : File)
    (hin : off + n ≤ f.len) : ∃ cs, (plain false [] n off fuel 0 []).run full ⟨f, []⟩ =
      some ((.ok, slice f.byte off n), ⟨f, cs⟩) := by
  obtain ⟨fuel, rfl⟩ := Nat.exists_eq_succ_of_ne_zero (by omega : fuel ≠ 0)
  by_cases h0 : 0 < n
  · obtain ⟨fuel, rfl⟩ := Nat.exists_eq_succ_of_ne_zero (by omega : fuel ≠ 0)
    have hlen : (f.read n off).length = n := by
      rw [File.read, length_slice]
      omega
    have hread : f.read n off = slice f.byte off n := by
      rw [File.read, Nat.min_eq_left (by omega)]
    refine ⟨[.pread n off], ?_⟩
    rw [plain, if_pos h0, if_neg (by simp), add64_eq (by omega), run_pread, Nat.sub_zero,
      Nat.add_zero]
    dsimp only
    rw [hlen, if_neg h0.ne', plain, if_neg (by omega), hread]
    rfl
  · obtain rfl : n = 0 := by omega
    exact ⟨[], rfl⟩

theorem run_plain_write {b : List UInt8} {off : ℕ} (hoff : off + b.length ≤ 2 ^ 64) {fuel : ℕ}
    (hfuel : b.length < fuel) (f : File) : ∃ cs, (plain true b b.length off fuel 0 []).run full
      ⟨f, []⟩ = some ((.ok, []), ⟨if b = [] then f else f.write off b, cs⟩) := by
  obtain ⟨fuel, rfl⟩ := Nat.exists_eq_succ_of_ne_zero (by omega : fuel ≠ 0)
  by_cases h0 : b = []
  · subst h0
    exact ⟨[], rfl⟩
  · have hpos := List.length_pos_iff.mpr h0
    obtain ⟨fuel, rfl⟩ := Nat.exists_eq_succ_of_ne_zero (by omega : fuel ≠ 0)
    refine ⟨[.pwrite b off], ?_⟩
    rw [plain, if_pos hpos, if_pos rfl, add64_eq (by omega), run_pwrite, List.drop_zero,
      Nat.sub_zero, List.take_length, if_neg h0, Nat.add_zero]
    dsimp only
    rw [if_neg hpos.ne', plain, if_neg (by omega)]
    rfl

/-- Every turn of the bounce loop gets on by at least one byte. -/
def Advances (write : Bool) (b : List UInt8) (n off : ℕ) : Prop :=
  ∀ done < n, ∀ w out, ∃ chunk out' w', 0 < chunk ∧ done + chunk ≤ n ∧ ∀ fuel,
    (bounce write b n off (fuel + 1) done out).run full w =
      (bounce write b n off fuel (done + chunk) out').run full w'

/-- **The bounce loop moves what the plain loop moves**, through aligned spans of the blocks of the
range; a write may leave the file longer, up to the end of the last block, with the same bytes. -/
theorem bounce_plain (f : File) {n off fuel : ℕ} (hoff : off + n ≤ 2 ^ 64) (hfuel : n < fuel) :
    (Advances false [] n off ∧ (off + n ≤ f.len → ∃ out cs ds,
      (plain false [] n off fuel 0 []).run full ⟨f, []⟩ = some ((.ok, out), ⟨f, cs⟩) ∧
      (bounce false [] n off fuel 0 []).run full ⟨f, []⟩ = some ((.ok, out), ⟨f, ds⟩) ∧
      Staged off n ds)) ∧
    ∀ b : List UInt8, b.length = n → Advances true b n off ∧ ∃ g h cs ds,
      (plain true b n off fuel 0 []).run full ⟨f, []⟩ = some ((.ok, []), ⟨g, cs⟩) ∧
      (bounce true b n off fuel 0 []).run full ⟨f, []⟩ = some ((.ok, []), ⟨h, ds⟩) ∧
      h.byte = g.byte ∧ h.len = (if n = 0 then g.len else max g.len (blockEnd (off + n))) ∧
      Staged off n ds := by
  refine ⟨⟨fun done hlt w out => ?_, fun hin => ?_⟩, ?_⟩
  · obtain ⟨chunk, c, h0, hn, -, hturn⟩ := bounce_turn_read hlt hoff w out
    exact ⟨chunk, _, _, h0, hn, hturn⟩
  · obtain ⟨cs, hplain⟩ := run_plain_read hoff hfuel f hin
    obtain ⟨ds, hds, hbounce⟩ := run_bounce_read hoff fuel 0 (Nat.zero_le _) hfuel ⟨f, []⟩ []
    exact ⟨_, cs, _, hplain, hbounce, hds⟩
  · rintro b rfl
    refine ⟨fun done hlt w out => ?_, ?_⟩
    · obtain ⟨chunk, g, cs, h0, hn, -, -, -, hturn⟩ := bounce_turn_write hlt hoff w
      exact ⟨chunk, out, _, h0, hn, fun fuel => hturn fuel out⟩
    · obtain ⟨cs, hplain⟩ := run_plain_write hoff hfuel f
      obtain ⟨h, ds, hds, hbyte, hlen, hbounce⟩ :=
        run_bounce_write hoff fuel 0 (Nat.zero_le _) hfuel ⟨f, []⟩ []
      refine ⟨_, h, cs, _, hplain, hbounce, ?_, ?_, hds⟩
      · rw [hbyte, List.drop_zero, Nat.add_zero]
        split_ifs with hb
        · rw [hb, patch_nil]
        · rfl
      · rw [hlen]
        by_cases hb : b = []
        · rw [if_pos hb, hb]
          rfl
        · have hpos := List.length_pos_iff.mpr hb
          rw [if_pos hpos, if_neg hpos.ne', if_neg hb, write_len _ _ hb, blockEnd,
            show LS_ALIGN = 4096 from rfl]
          dsimp only
          omega

/-- `bounce_plain` for three bytes around the end of the first block of a file of two blocks. -/
theorem bounce_plain_skewed : ∃ out cs ds,
    (plain false [] 3 4094 4 0 []).run full ⟨File.empty.truncate 8192, []⟩ =
      some ((.ok, out), ⟨File.empty.truncate 8192, cs⟩) ∧
    (bounce false [] 3 4094 4 0 []).run full ⟨File.empty.truncate 8192, []⟩ =
      some ((.ok, out), ⟨File.empty.truncate 8192, ds⟩) ∧ Staged 4094 3 ds :=
  (bounce_plain (File.empty.truncate 8192) (by norm_num) (by norm_num)).1.2
    (show 4094 + 3 ≤ 8192 by norm_num)

end Libspill
