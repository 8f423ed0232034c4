import Libspill.Data
import Libspill.View

set_option autoImplicit false

/-!
# Transfers

What `rw_all` and `ls_scatter` do, whoever else is running: each is verified against the view of its
own footprint. Under direct I/O a transfer touches whole blocks of `LS_ALIGN` bytes, so its region
is made of the blocks its range meets (`Reach`).

* `wp_rwAll_write`, `wp_rwAll_read`: `rw_all` moves exactly the bytes asked for.
* **`wp_lsScatter_write`, `wp_lsScatter_read`**: `ls_scatter` moves the bytes of a record to or from
  wherever its snapshot says they are.
-/

namespace Libspill

/-- The positions a transfer of `[off, off + n)` may touch: its own, and under direct I/O all of
the blocks they lie in. -/
def Reach (direct : Bool) (off n x : ℕ) : Prop :=
  ∃ y, off ≤ y ∧ y < off + n ∧ (x = y ∨ direct = true ∧ x / LS_ALIGN = y / LS_ALIGN)

theorem Reach.of_mem {direct : Bool} {off n x : ℕ} (h1 : off ≤ x) (h2 : x < off + n) :
    Reach direct off n x := ⟨x, h1, h2, Or.inl rfl⟩

theorem Reach.mono {direct : Bool} {off n off' n' x : ℕ} (h : Reach direct off n x)
    (h1 : off' ≤ off) (h2 : off + n ≤ off' + n') : Reach direct off' n' x := by
  obtain ⟨y, hy1, hy2, hy⟩ := h
  exact ⟨y, by omega, by omega, hy⟩

/-- One view knows what another does, and perhaps more about the length of the file. -/
structure View.Le (v w : View) : Prop where
  byte : w.byte = v.byte
  dirty : w.dirty = v.dirty
  len : v.len ≤ w.len

theorem View.Le.refl (v : View) : v.Le v := ⟨rfl, rfl, Nat.le_refl _⟩

theorem View.Le.trans {u v w : View} (h : u.Le v) (h' : v.Le w) : u.Le w :=
  ⟨h'.byte.trans h.byte, h'.dirty.trans h.dirty, h.len.trans h'.len⟩

theorem View.Le.put {v w : View} (h : v.Le w) (off : ℕ) (b : List UInt8) :
    (v.put off b).Le (w.put off b) := by
  obtain ⟨byte, len, dirty⟩ := v
  obtain ⟨byte', len', dirty'⟩ := w
  obtain ⟨hb, hd, hl⟩ := h
  dsimp only at hb hd hl
  subst hb hd
  refine ⟨rfl, rfl, ?_⟩
  simp only [View.put]
  split_ifs <;> omega

/-- Laying a byte string between what is there already is laying the byte string. -/
theorem patch_between (f : ℕ → UInt8) (base a c : ℕ) (d : List UInt8) :
    patch f base (slice f base a ++ d ++ slice f (base + a + d.length) c) = patch f (base + a) d := by
  rw [List.append_assoc, ← patch_append, length_slice, ← patch_append]
  have hs : ∀ (g : ℕ → UInt8) (o n : ℕ), patch g o (slice g o n) = g := by
    intro g o n
    funext i
    simp only [patch, length_slice]
    split_ifs with h
    · rw [getD_slice _ _ _ _ (by omega), Nat.add_sub_cancel' h.1]
    · rfl
  rw [hs]
  funext i
  by_cases h : base + a + d.length ≤ i ∧ i < base + a + d.length + c
  · rw [patch, if_pos (by simpa using h), getD_slice _ _ _ _ (by omega), patch_of_ge (by omega)]
    congr 1
    omega
  · exact if_neg (by simpa using h)

/-! ## The plain loop -/

variable {F : Foot} {v : View}

theorem wp_plain_write {b : List UInt8} {off fuel : ℕ} (hb : b ≠ []) (hoff : off < 2 ^ 64)
    (hm : F.may (.pwrite b off) v) :
    (plain true b b.length off (fuel + 2) 0 []).wp F.spec
      (fun a w => a.1 ≠ .ok ∧ w.dirty = true ∨ a = (.ok, []) ∧ (v.put off b).Le w) v := by
  have hpos : 0 < b.length := List.length_pos_iff.mpr hb
  rw [plain, if_pos hpos, if_pos rfl, add64_eq (by omega), List.drop_zero, Nat.sub_zero,
    List.take_length]
  refine Foot.wp_pwrite hm ?_ fun e w he hd => ?_
  · dsimp only
    rw [if_neg hpos.ne', plain, Nat.zero_add, if_neg (lt_irrefl _)]
    exact Or.inr ⟨rfl, .refl _⟩
  · dsimp only
    rw [if_neg he]
    exact Or.inl ⟨by simp, hd⟩

theorem wp_plain_read {n off fuel : ℕ} (hn : 0 < n) (hoff : off < 2 ^ 64)
    (hm : F.may (.pread n off) v) (hlen : off + n ≤ v.len) :
    (plain false [] n off (fuel + 2) 0 []).wp F.spec
      (fun a w => a.1 ≠ .ok ∧ w.dirty = true ∨ a = (.ok, slice v.fbyte off n) ∧ v.Le w) v := by
  rw [plain, if_pos hn, if_neg (by simp), add64_eq (by omega), Nat.sub_zero]
  refine Foot.wp_pread hm (fun m _ _ hfull => ?_) fun e he => ?_
  · dsimp only
    rw [length_slice, hfull hlen, if_neg hn.ne', plain, Nat.zero_add, if_neg (lt_irrefl _)]
    exact Or.inr ⟨rfl, .refl _⟩
  · dsimp only
    rw [if_neg he]
    exact Or.inl ⟨by simp, rfl⟩

/-! ## The bounce loop -/

/-- The aligned span that one turn of the bounce loop moves lies in the blocks of its chunk. -/
theorem reach_span {abs chunk x : ℕ} (hc : 0 < chunk)
    (h1 : abs / LS_ALIGN * LS_ALIGN ≤ x)
    (h2 : x < abs / LS_ALIGN * LS_ALIGN +
      (abs - abs / LS_ALIGN * LS_ALIGN + chunk + LS_ALIGN - 1) / LS_ALIGN * LS_ALIGN) :
    Reach true abs chunk x := by
  unfold LS_ALIGN at h1 h2
  by_cases ha : x < abs
  · refine ⟨abs, Nat.le_refl _, by omega, Or.inr ⟨rfl, ?_⟩⟩
    unfold LS_ALIGN
    omega
  by_cases hb : x < abs + chunk
  · exact .of_mem (by omega) hb
  · refine ⟨abs + chunk - 1, by omega, by omega, Or.inr ⟨rfl, ?_⟩⟩
    unfold LS_ALIGN
    omega

/-- A short read filled up with zeros is what the file holds. -/
theorem slice_padded {f : ℕ → UInt8} {off m n : ℕ} (hm : m ≤ n)
    (h : ∀ i, m ≤ i → i < n → f (off + i) = 0) :
    slice f off m ++ List.replicate (n - (slice f off m).length) 0 = slice f off n := by
  have hn : n = m + (n - m) := by omega
  rw [length_slice]
  conv_rhs => rw [hn, slice_add]
  congr 1
  apply List.ext_getElem (by simp)
  intro i h1 h2
  have hi : i < n - m := by simpa using h1
  simp only [List.getElem_replicate, slice, List.getElem_map, List.getElem_range]
  rw [Nat.add_assoc, h _ (by omega) (by omega)]

/-- The geometry of one turn of the bounce loop. -/
structure Turn (off n done base skew chunk span : ℕ) : Prop where
  pos : base + skew = off + done
  chunk_pos : 0 < chunk
  chunk_le : done + chunk ≤ n
  span_ge : skew + chunk ≤ span
  reach : ∀ x, base ≤ x → x < base + span → Reach true off n x

theorem turn_of_lt (off : ℕ) {n done : ℕ} (hlt : done < n) :
    let base := (off + done) / LS_ALIGN * LS_ALIGN
    let skew := off + done - base
    let chunk := if n - done > LS_BOUNCE - skew then LS_BOUNCE - skew else n - done
    Turn off n done base skew chunk ((skew + chunk + LS_ALIGN - 1) / LS_ALIGN * LS_ALIGN) := by
  intro base skew chunk
  have hA : LS_ALIGN = 4096 := rfl
  have hB : LS_BOUNCE = 4194304 := rfl
  have hbase : base ≤ off + done ∧ off + done < base + LS_ALIGN := by
    simp only [base, hA]
    omega
  have hskew : base + skew = off + done := by omega
  have hck : 0 < chunk ∧ chunk ≤ n - done := by
    simp only [chunk]
    split_ifs <;> omega
  refine ⟨hskew, hck.1, by omega, by rw [hA]; omega, fun x h1 h2 => ?_⟩
  exact (reach_span hck.1 h1 h2).mono (by omega) (by omega)

theorem wp_bounce_write {b : List UInt8} {n off : ℕ} (hn : n = b.length)
    (hoff : off + n < 2 ^ 64) (hR : ∀ x, Reach true off n x → Loc.file x ∈ F.R)
    (hT : ∀ i, i < n → Loc.file (off + i) ∈ F.T) (fuel done : ℕ) (v : View) (hdone : done ≤ n)
    (hfuel : n - done < fuel) :
    (bounce true b n off fuel done []).wp F.spec
      (fun a w => a.1 ≠ .ok ∧ w.dirty = true ∨ a = (.ok, []) ∧ (v.put (off + done) (b.drop done)).Le w) v := by
  induction fuel generalizing done v with
  | zero => omega
  | succ fuel ih =>
    rw [bounce]
    by_cases hlt : done < n
    swap
    · rw [if_neg hlt, List.drop_eq_nil_of_le (by omega), View.put_nil]
      exact Or.inr ⟨rfl, .refl v⟩
    have ht := turn_of_lt off hlt
    rw [if_pos hlt, add64_eq (by omega)]
    dsimp only at ht ⊢
    generalize (off + done) / LS_ALIGN * LS_ALIGN = base at ht ⊢
    generalize off + done - base = skew at ht ⊢
    generalize (if n - done > LS_BOUNCE - skew then LS_BOUNCE - skew else n - done) = chunk at ht ⊢
    generalize (skew + chunk + LS_ALIGN - 1) / LS_ALIGN * LS_ALIGN = span at ht ⊢
    obtain ⟨hpos, hc0, hcn, hspan, hreach⟩ := ht
    generalize hd : (b.drop done).take chunk = d
    have hdl : d.length = chunk := by
      rw [← hd, List.length_take, List.length_drop]
      omega
    have hrest : d ++ b.drop (done + chunk) = b.drop done := by
      rw [← hd, ← List.drop_drop, List.take_append_drop]
    -- one turn, from what the staging buffer holds around the chunk
    have turn : ∀ (bb : List UInt8) (k : Except Errno ℕ → Io (Rc × List UInt8)),
        (∀ m, k (.ok m) = bounce true b n off fuel (done + chunk) []) →
        (∀ e, e ≠ .eintr → k (.error e) = .ret (.errno e, [])) →
        bb.take skew = slice v.fbyte base skew →
        bb.drop (skew + chunk) = slice v.fbyte (base + skew + d.length) (span - (skew + chunk)) →
        (Io.pwrite (bb.take skew ++ d ++ bb.drop (skew + chunk)) base k).wp F.spec
          (fun a w => a.1 ≠ .ok ∧ w.dirty = true ∨
            a = (.ok, []) ∧ (v.put (off + done) (b.drop done)).Le w) v := by
      intro bb k hok herr h1 h2
      have hB := patch_between v.fbyte base skew (span - (skew + chunk)) d
      rw [← h1, ← h2, hpos] at hB
      have hBl : (bb.take skew ++ d ++ bb.drop (skew + chunk)).length = span := by
        rw [h1, h2]
        simp only [List.length_append, length_slice]
        omega
      generalize bb.take skew ++ d ++ bb.drop (skew + chunk) = B at hB hBl ⊢
      have hle : (v.put (off + done) d).Le (v.put base B) := by
        refine ⟨?_, rfl, ?_⟩
        · funext l
          cases l with
          | file x => exact congrFun hB x
          | mem p i => rfl
        · have hB0 : B ≠ [] := by
            rw [← List.length_pos_iff]
            omega
          simp only [View.put, if_neg hB0]
          split_ifs <;> omega
      refine Foot.wp_pwrite (fun i hi => ⟨hR _ (hreach _ (by omega) (by omega)), ?_⟩) ?_
        fun e w he hd => ?_
      · have hBi := congrFun hB (base + i)
        rw [patch_add hi] at hBi
        by_cases hin : off + done ≤ base + i ∧ base + i < off + done + d.length
        · left
          have := hT (base + i - off) (by omega)
          rwa [Nat.add_sub_cancel' (by omega)] at this
        · right
          rw [hBi]
          exact if_neg hin
      · rw [hok]
        refine Prog.wp_mono (fun a w hw => ?_) (ih (done + chunk) _ hcn (by omega))
        refine hw.imp id fun h => ⟨h.1, View.Le.trans ?_ h.2⟩
        have := hle.put (off + done + d.length) (b.drop (done + chunk))
        rwa [View.put_append, hrest, hdl, Nat.add_assoc] at this
      · rw [herr e he]
        exact Or.inl ⟨by simp, hd⟩
    rw [if_pos rfl]
    split_ifs with hrmw
    · refine Foot.wp_pread (fun x h1 h2 => hR x (hreach x h1 h2)) (fun m hm hz _ => ?_)
        fun e he => Or.inl ⟨by simp, rfl⟩
      dsimp only
      rw [slice_padded hm hz]
      refine turn _ _ (fun _ => rfl) (fun e he => if_neg he) ?_ ?_
      · rw [take_slice, Nat.min_eq_left (by omega)]
      · have : slice v.fbyte base span =
            slice v.fbyte base (skew + chunk) ++ slice v.fbyte (base + (skew + chunk))
              (span - (skew + chunk)) := by
          rw [← slice_add]
          congr 1
          omega
        rw [this, List.drop_append_of_le_length (by simp), List.drop_eq_nil_of_le (by simp),
          List.nil_append, hdl, Nat.add_assoc]
    · rw [not_or, not_not, not_not] at hrmw
      have hs0 : span - (skew + chunk) = 0 := by omega
      refine turn _ _ (fun _ => rfl) (fun e he => if_neg he) ?_ ?_
      · rw [hrmw.1]
        rfl
      · rw [hs0, List.drop_nil]
        rfl

theorem wp_bounce_read {n off : ℕ} (hoff : off + n < 2 ^ 64)
    (hR : ∀ x, Reach true off n x → Loc.file x ∈ F.R) (fuel done : ℕ) (out : List UInt8)
    (hdone : done ≤ n) (hfuel : n - done < fuel) :
    (bounce false [] n off fuel done out).wp F.spec
      (fun a w => a.1 ≠ .ok ∧ w.dirty = true ∨ a = (.ok, out ++ slice v.fbyte (off + done) (n - done)) ∧ v.Le w)
      v := by
  induction fuel generalizing done out with
  | zero => omega
  | succ fuel ih =>
    rw [bounce]
    by_cases hlt : done < n
    swap
    · rw [if_neg hlt, show n - done = 0 by omega, slice_zero, List.append_nil]
      exact Or.inr ⟨rfl, .refl v⟩
    have ht := turn_of_lt off hlt
    rw [if_pos hlt, add64_eq (by omega), if_neg (by simp)]
    dsimp only at ht ⊢
    generalize (off + done) / LS_ALIGN * LS_ALIGN = base at ht ⊢
    generalize off + done - base = skew at ht ⊢
    generalize (if n - done > LS_BOUNCE - skew then LS_BOUNCE - skew else n - done) = chunk at ht ⊢
    generalize (skew + chunk + LS_ALIGN - 1) / LS_ALIGN * LS_ALIGN = span at ht ⊢
    obtain ⟨hpos, hc0, hcn, hspan, hreach⟩ := ht
    refine Foot.wp_pread (fun x h1 h2 => hR x (hreach x h1 h2)) (fun m hm hz _ => ?_)
      fun e he => ?_
    · dsimp only
      have hcut : ((slice v.fbyte base span).drop skew).take chunk =
          slice v.fbyte (off + done) chunk := by
        have : span = skew + (span - skew) := by omega
        rw [this, slice_add, List.drop_append_of_le_length (by simp),
          List.drop_eq_nil_of_le (by simp), List.nil_append, take_slice, hpos,
          Nat.min_eq_left (by omega)]
      rw [slice_padded hm hz, hcut]
      refine Prog.wp_mono (fun a w hw => ?_) (ih (done + chunk) _ hcn (by omega))
      have : n - done = chunk + (n - (done + chunk)) := by omega
      rwa [this, slice_add, ← List.append_assoc, Nat.add_assoc]
    · dsimp only
      rw [if_neg he]
      exact Or.inl ⟨by simp, rfl⟩

/-! ## `rw_all` -/

variable {E : Env}

/-- **`rw_all` writes exactly what it is asked to write**, or one of its calls failed. -/
theorem wp_rwAll_write (hF : 2 ^ 64 ≤ E.fuel) (direct : Bool) (addr : ℕ) {off : ℕ} {b : List UInt8}
    (hoff : off + b.length < 2 ^ 64) (hR : ∀ x, Reach direct off b.length x → Loc.file x ∈ F.R)
    (hT : ∀ i, i < b.length → Loc.file (off + i) ∈ F.T) :
    (rwAll E direct addr true b b.length off).wp F.spec
      (fun a w => a.1 ≠ .ok ∧ w.dirty = true ∨ a = (.ok, []) ∧ (v.put off b).Le w) v := by
  unfold rwAll
  split_ifs with h0 hdir
  · rw [List.length_eq_zero_iff.mp h0, View.put_nil]
    exact Or.inr ⟨rfl, .refl v⟩
  · obtain ⟨fuel, hfuel⟩ : ∃ fuel, E.fuel = fuel + 2 := ⟨E.fuel - 2, by omega⟩
    rw [hfuel]
    refine wp_plain_write (fun h => h0 (by simp [h])) (by omega) fun i hi => ?_
    exact ⟨hR _ (.of_mem (by omega) (by omega)), Or.inl (hT i hi)⟩
  · have hd : direct = true := by
      cases direct
      · simp at hdir
      · rfl
    subst hd
    have := wp_bounce_write rfl hoff hR hT E.fuel 0 v (Nat.zero_le _) (by omega)
    rwa [List.drop_zero, Nat.add_zero] at this

/-- **`rw_all` reads exactly what it is asked to read**, or one of its calls failed. -/
theorem wp_rwAll_read (hF : 2 ^ 64 ≤ E.fuel) (direct : Bool) (addr : ℕ) {off n : ℕ}
    (hoff : off + n < 2 ^ 64) (hR : ∀ x, Reach direct off n x → Loc.file x ∈ F.R)
    (hlen : off + n ≤ v.len) :
    (rwAll E direct addr false [] n off).wp F.spec
      (fun a w => a.1 ≠ .ok ∧ w.dirty = true ∨ a = (.ok, slice v.fbyte off n) ∧ v.Le w) v := by
  unfold rwAll
  split_ifs with h0 hdir
  · rw [h0, slice_zero]
    exact Or.inr ⟨rfl, .refl v⟩
  · obtain ⟨fuel, hfuel⟩ : ∃ fuel, E.fuel = fuel + 2 := ⟨E.fuel - 2, by omega⟩
    rw [hfuel]
    exact wp_plain_read (by omega) (by omega) (fun x h1 h2 => hR x (.of_mem h1 h2)) hlen
  · have hd : direct = true := by
      cases direct
      · simp at hdir
      · rfl
    subst hd
    have := wp_bounce_read (v := v) hoff hR E.fuel 0 [] (Nat.zero_le _) (by omega)
    rwa [List.nil_append, Nat.add_zero, Nat.sub_zero] at this

/-! ## `ls_scatter` -/

/-- Where byte `i` of a record is: in its buffer, or in its extents. -/
def locOf (mem : Option Ptr) (es : List Extent) (i : ℕ) : Option Loc :=
  match mem with
  | some p => some (.mem p i)
  | none => (locate es i).map .file

theorem locOf_inj {mem : Option Ptr} {es : List Extent} (h : es.Pairwise Span.Apart) {i j : ℕ}
    {l : Loc} (hi : locOf mem es i = some l) (hj : locOf mem es j = some l) : i = j := by
  cases mem with
  | some p =>
    obtain rfl := Option.some.inj hi
    have := Option.some.inj hj
    injection this with _ hij
    exact hij.symm
  | none =>
    simp only [locOf, Option.map_eq_some_iff] at hi hj
    obtain ⟨x, hx, rfl⟩ := hi
    obtain ⟨y, hy, hyx⟩ := hj
    injection hyx with hyx
    subst hyx
    exact locate_inj h hx hy

/-- Byte `i` of a record as a view sees it. -/
def View.lbyte (v : View) (mem : Option Ptr) (es : List Extent) (i : ℕ) : UInt8 :=
  (locOf mem es i).elim 0 v.byte

/-- The footprint of a transfer of `[off, off + n)` of a record. -/
def footOf (direct write : Bool) (mem : Option Ptr) (arr : Ptr) (es : List Extent) (off n : ℕ) :
    Foot where
  R := {l | ∃ i, Reach direct off n i ∧ locOf mem es i = some l}
  T := {l | write = true ∧ ∃ i, off ≤ i ∧ i < off + n ∧ locOf mem es i = some l}
  arr
  es

theorem locate_middle {pre post : List Extent} {e : Extent} {i : ℕ} (hi : i < e.len) :
    locate (pre ++ e :: post) (total pre + i) = some (e.foff + i) := by
  rw [locate_append_right (by omega), Nat.add_sub_cancel_left, locate, if_pos hi]

/-- The blocks of a range inside an aligned extent are blocks of the record. -/
theorem reach_middle {direct : Bool} (pre post : List Extent) {e : Extent} {o k x : ℕ}
    (hal : direct = true → LS_ALIGN ∣ e.foff ∧ LS_ALIGN ∣ e.len ∧ LS_ALIGN ∣ total pre)
    (hk : o + k ≤ e.len) (hx : Reach direct (e.foff + o) k x) :
    ∃ i, Reach direct (total pre + o) k i ∧ locate (pre ++ e :: post) i = some x := by
  obtain ⟨y, hy1, hy2, hxy⟩ := hx
  rcases hxy with rfl | ⟨hd, hxy⟩
  · refine ⟨total pre + (x - e.foff), .of_mem (by omega) (by omega), ?_⟩
    rw [locate_middle (by omega), Nat.add_sub_cancel' (by omega)]
  · obtain ⟨⟨a, ha⟩, ⟨b, hb⟩, ⟨c, hc⟩⟩ := hal hd
    have hA : LS_ALIGN = 4096 := rfl
    rw [hA] at ha hb hc hxy
    have hlo : e.foff ≤ x ∧ x < e.foff + e.len := by omega
    refine ⟨total pre + (x - e.foff), ⟨total pre + (y - e.foff), by omega, by omega,
      Or.inr ⟨hd, by rw [hA]; omega⟩⟩, ?_⟩
    rw [locate_middle (by omega), Nat.add_sub_cancel' (by omega)]

/-- What a transfer relies on about the extents it goes through. -/
structure Solid (direct : Bool) (es : List Extent) : Prop where
  apart : es.Pairwise Span.Apart
  aligned : direct = true → ∀ e ∈ es, LS_ALIGN ∣ e.foff ∧ LS_ALIGN ∣ e.len
  bound : ∀ e ∈ es, e.fin < 2 ^ 63
  total_lt : total es < 2 ^ 63

theorem Solid.dvd_total {direct : Bool} {pre post : List Extent} {e : Extent}
    (h : Solid direct (pre ++ e :: post)) (hd : direct = true) :
    LS_ALIGN ∣ e.foff ∧ LS_ALIGN ∣ e.len ∧ LS_ALIGN ∣ total pre := by
  have he := h.aligned hd e (by simp)
  refine ⟨he.1, he.2, ?_⟩
  have : ∀ l : List Extent, (∀ e ∈ l, LS_ALIGN ∣ e.len) → LS_ALIGN ∣ total l := by
    intro l
    induction l with
    | nil => simp
    | cons a l ih =>
      intro hl
      rw [total_cons]
      exact Nat.dvd_add (hl a (by simp)) (ih fun b hb => hl b (by simp [hb]))
  exact this pre fun b hb => (h.aligned hd b (by simp [hb])).2

/-- One turn of the loop of `ls_scatter`: the extent is before the range, or it holds the next
piece of it. -/
theorem scatterLoop_cons {direct write : Bool} {addr off n done : ℕ} {buf out : List UInt8} {arr : Ptr}
    {pre post : List Extent} {e : Extent} (hs : Solid direct (pre ++ e :: post)) (hdone : done < n)
    (hoff : off + n ≤ total (pre ++ e :: post)) (hpos : total pre ≤ off + done)
    {Q : Rc × List UInt8 → View → Prop} {F : Foot} (hF : F.es = pre ++ e :: post) (hA : F.arr = arr)
    (hskip : total (pre ++ [e]) ≤ off + done →
      (scatterLoop E direct addr write buf arr off n post.length (pre.length + 1) (total (pre ++ [e]))
        done out).wp F.spec Q v)
    (hmove : ∀ o k, total pre + o = off + done → 0 < k → o + k ≤ e.len → done + k ≤ n →
      (total (pre ++ [e]) ≤ off + (done + k) ∨ done + k = n) →
      (rwAll E direct (addr + done) write ((buf.drop done).take k) k (e.foff + o)).wp F.spec
        (fun a w => (if a.1 ≠ .ok then (.ret (a.1, out ++ a.2) : Io _)
          else scatterLoop E direct addr write buf arr off n post.length (pre.length + 1)
            (total (pre ++ [e])) (done + k) (out ++ a.2)).wp F.spec Q w) v) :
    (scatterLoop E direct addr write buf arr off n (e :: post).length pre.length (total pre) done
      out).wp F.spec Q v := by
  have hb := hs.bound e (by simp)
  have htot := hs.total_lt
  have htp : total (pre ++ [e]) = total pre + e.len := by simp
  simp only [total_append, total_cons] at htot hoff
  simp only [Span.fin] at hb
  rw [List.length_cons, scatterLoop, if_pos hdone]
  subst hA
  refine Foot.wp_extent (e := e) (by rw [hF]; simp) ?_
  have h1 : add64 (total pre) e.len = total (pre ++ [e]) := by rw [add64_eq (by omega), htp]
  have h2 : add64 off done = off + done := add64_eq (by omega)
  dsimp only
  rw [h1, h2]
  by_cases hge : off + done ≥ total (pre ++ [e])
  · rw [if_pos hge]
    exact hskip hge
  · have h3 : sub64 (off + done) (total pre) = off + done - total pre := sub64_eq hpos (by omega)
    have h4 : sub64 (total (pre ++ [e])) (off + done) = total (pre ++ [e]) - (off + done) :=
      sub64_eq (by omega) (by omega)
    have h5 : add64 e.foff (off + done - total pre) = e.foff + (off + done - total pre) :=
      add64_eq (by omega)
    rw [if_neg hge, h3, h4, h5]
    apply Prog.wp_bind
    generalize hk : (if total (pre ++ [e]) - (off + done) > n - done then n - done
      else total (pre ++ [e]) - (off + done)) = k
    apply hmove <;> split_ifs at hk <;> omega

theorem wp_scatterLoop_write (hF : 2 ^ 64 ≤ E.fuel) {direct : Bool} (addr : ℕ) {off n : ℕ}
    {buf : List UInt8} (arr : Ptr) {es : List Extent} (hs : Solid direct es) (hn : n = buf.length)
    (hoff : off + n ≤ total es) (post pre : List Extent) (hes : es = pre ++ post) (done : ℕ)
    (hdone : done ≤ n) (hpos : total pre ≤ off + done ∨ done = n) (v : View) :
    (scatterLoop E direct addr true buf arr off n post.length pre.length (total pre) done []).wp
      (footOf direct true none arr es off n).spec
      (fun a w => a.1 ≠ .ok ∧ w.dirty = true ∨ a = (.ok, []) ∧ w.dirty = v.dirty ∧ v.len ≤ w.len ∧
        (∀ j x, done ≤ j → j < n → locate es (off + j) = some x → w.fbyte x = buf.getD j 0) ∧
        ∀ l, (∀ j, done ≤ j → j < n → locOf none es (off + j) ≠ some l) → w.byte l = v.byte l) v := by
  induction post generalizing pre done v with
  | nil =>
    rw [List.append_nil] at hes
    subst hes
    have : done = n := by omega
    rw [List.length_nil, scatterLoop, if_pos this]
    exact Or.inr ⟨rfl, rfl, Nat.le_refl _, fun j x h1 h2 => by omega, fun l _ => rfl⟩
  | cons e post ih =>
    by_cases hlt : done < n
    swap
    · rw [List.length_cons, scatterLoop, if_neg hlt]
      exact Or.inr ⟨rfl, rfl, Nat.le_refl _, fun j x h1 h2 => by omega, fun l _ => rfl⟩
    have hes' : es = (pre ++ [e]) ++ post := by rw [hes, List.append_assoc, List.singleton_append]
    have hlen : (pre ++ [e]).length = pre.length + 1 := by simp
    refine scatterLoop_cons (hes ▸ hs) hlt (hes ▸ hoff) (by omega) (hes ▸ rfl) rfl
      (fun hskip => ?_) fun o k ho hk hke hkn hnext => ?_
    · exact hlen ▸ ih (pre ++ [e]) hes' done hdone (Or.inl hskip) v
    generalize hd : (buf.drop done).take k = d
    have hdl : d.length = k := by
      rw [← hd, List.length_take, List.length_drop]
      omega
    have hbound := hs.bound e (by simp [hes])
    rw [Span.fin] at hbound
    -- position `done + i` of the range is byte `o + i` of this extent
    have hloc : ∀ i, i < k → locate es (off + (done + i)) = some (e.foff + o + i) := by
      intro i hi
      rw [hes, show off + (done + i) = total pre + (o + i) by omega, locate_middle (by omega),
        Nat.add_assoc]
    have hw := wp_rwAll_write (F := footOf direct true none arr es off n) (v := v) hF
      direct (addr + done) (show e.foff + o + d.length < 2 ^ 64 by omega)
      (fun x hx => by
        rw [hdl] at hx
        obtain ⟨i, hi, hx⟩ := reach_middle pre post
          (fun h => (hes ▸ hs).dvd_total h) hke hx
        exact ⟨i, hi.mono (by omega) (by omega), by rw [locOf, hes, hx]; rfl⟩)
      (fun i hi => ⟨rfl, off + (done + i), by omega, by omega, by
        rw [locOf, hloc i (by omega)]; rfl⟩)
    rw [hdl] at hw
    refine Prog.wp_mono (fun a u hu => ?_) hw
    rcases hu with hu | ⟨rfl, hu⟩
    · rw [if_pos hu.1]
      exact Or.inl hu
    rw [if_neg (by simp), List.nil_append, ← hlen]
    refine Prog.wp_mono (fun a w hw => ?_) (ih (pre ++ [e]) hes' (done + k) hkn hnext u)
    refine hw.imp id ?_
    rintro ⟨ha, hdirty, hle, hin, hout⟩
    refine ⟨ha, ?_, ?_, ?_, ?_⟩
    · rw [hdirty, hu.dirty, View.put_dirty]
    · exact (View.len_le_put _ _ _).trans (hu.len.trans hle)
    · intro j x hj1 hj2 hx
      by_cases hjk : done + k ≤ j
      · exact hin j x hjk hj2 hx
      · have hj := hloc (j - done) (by omega)
        rw [Nat.add_sub_cancel' hj1, hx] at hj
        have hxj := Option.some.inj hj
        rw [View.fbyte, hout _ fun i h1 h2 h3 => ?_, hu.byte]
        · have hget : d.getD (j - done) 0 = buf.getD j 0 := by
            rw [← hd, List.getD_eq_getElem?_getD, List.getElem?_take_of_lt (by omega),
              List.getElem?_drop, Nat.add_sub_cancel' hj1, List.getD_eq_getElem?_getD]
          rw [← hget, hxj]
          exact patch_add (by omega)
        · have := locOf_inj hs.apart h3 (show locOf none es (off + j) = _ by rw [locOf, hx]; rfl)
          omega
    · intro l hl
      rw [hout l fun j h1 h2 => hl j (by omega) h2, hu.byte]
      cases l with
      | mem p i => rfl
      | file x =>
        refine if_neg fun hx => hl (done + (x - (e.foff + o))) (by omega) (by omega) ?_
        rw [locOf, hloc _ (by omega), Nat.add_sub_cancel' hx.1]
        rfl

theorem wp_scatterLoop_read (hF : 2 ^ 64 ≤ E.fuel) {direct : Bool} (addr : ℕ) {off n : ℕ}
    (arr : Ptr) {es : List Extent} (hs : Solid direct es) (hoff : off + n ≤ total es)
    (post pre : List Extent) (hes : es = pre ++ post) (done : ℕ) (hdone : done ≤ n)
    (hpos : total pre ≤ off + done ∨ done = n) (out : List UInt8) (v : View)
    (hlen : ∀ e ∈ es, e.fin ≤ v.len) :
    (scatterLoop E direct addr false [] arr off n post.length pre.length (total pre) done out).wp
      (footOf direct false none arr es off n).spec
      (fun a w => a.1 ≠ .ok ∧ w.dirty = true ∨
        a = (.ok, out ++ slice (v.lbyte none es) (off + done) (n - done)) ∧ v.Le w) v := by
  have hend : ∀ out (v : View) d, d = n → (.ret (.ok, out) : Io (Rc × List UInt8)).wp
      (footOf direct false none arr es off n).spec (fun a w => a.1 ≠ .ok ∧ w.dirty = true ∨
        a = (.ok, out ++ slice (v.lbyte none es) (off + d) (n - d)) ∧ v.Le w) v := by
    rintro out v d rfl
    rw [Nat.sub_self, slice_zero, List.append_nil]
    exact Or.inr ⟨rfl, .refl v⟩
  induction post generalizing pre done out v with
  | nil =>
    rw [List.append_nil] at hes
    subst hes
    have : done = n := by omega
    rw [List.length_nil, scatterLoop, if_pos this]
    exact hend out v done this
  | cons e post ih =>
    by_cases hlt : done < n
    swap
    · rw [List.length_cons, scatterLoop, if_neg hlt]
      exact hend out v done (by omega)
    have hes' : es = (pre ++ [e]) ++ post := by rw [hes, List.append_assoc, List.singleton_append]
    have hplen : (pre ++ [e]).length = pre.length + 1 := by simp
    refine scatterLoop_cons (hes ▸ hs) hlt (hes ▸ hoff) (by omega) (hes ▸ rfl) rfl
      (fun hskip => ?_) fun o k ho hk hke hkn hnext => ?_
    · exact hplen ▸ ih (pre ++ [e]) hes' done hdone (Or.inl hskip) out v hlen
    have hbound := hs.bound e (by simp [hes])
    have hle := hlen e (by simp [hes])
    rw [Span.fin] at hbound hle
    have hpiece : slice v.fbyte (e.foff + o) k = slice (v.lbyte none es) (off + done) k := by
      refine slice_congr fun i hi => ?_
      rw [View.lbyte, locOf, hes, show off + done + i = total pre + (o + i) by omega,
        locate_middle (by omega), Nat.add_assoc]
      rfl
    rw [List.drop_nil, List.take_nil]
    refine Prog.wp_mono (fun a u hu => ?_) (wp_rwAll_read (v := v) hF direct _ (by omega)
      (fun x hx => ?_) (by omega))
    · rcases hu with hu | ⟨rfl, hu⟩
      · rw [if_pos hu.1]
        exact Or.inl hu
      rw [if_neg (by simp), ← hplen]
      refine Prog.wp_mono (fun a w hw => ?_) (ih (pre ++ [e]) hes' (done + k) hkn hnext _ u
        fun e he => (hlen e he).trans hu.len)
      refine hw.imp id ?_
      rintro ⟨ha, hle⟩
      refine ⟨?_, hu.trans hle⟩
      have hby : u.lbyte none es = v.lbyte none es := by
        funext i
        rw [View.lbyte, View.lbyte, hu.byte]
      rw [ha, hby, hpiece, List.append_assoc, ← Nat.add_assoc, ← slice_add]
      congr 4
      omega
    · obtain ⟨i, hi, hx⟩ := reach_middle pre post
        (fun h => (hes ▸ hs).dvd_total h) hke hx
      exact ⟨i, hi.mono (by omega) (by omega), by rw [locOf, hes, hx]; rfl⟩

/-- What a transfer relies on about the snapshot it goes through: with a buffer nothing, without one
that the range lies in the extents. -/
structure Holds (direct : Bool) (mem : Option Ptr) (es : List Extent) (off n len : ℕ) : Prop where
  solid : Solid direct es
  within : mem = none → off + n ≤ total es
  len : ∀ e ∈ es, e.fin ≤ len

/-- The bytes of a record after a transfer has written `buf` at `off`. -/
structure Wrote (mem : Option Ptr) (es : List Extent) (off : ℕ) (buf : List UInt8) (v w : View) :
    Prop where
  dirty : w.dirty = v.dirty
  inside : ∀ j l, j < buf.length → locOf mem es (off + j) = some l → w.byte l = buf.getD j 0
  outside : ∀ l, (∀ j, j < buf.length → locOf mem es (off + j) ≠ some l) → w.byte l = v.byte l

/-- **`ls_scatter` writes the bytes of its range**, or one of its calls failed. -/
theorem wp_lsScatter_write (hF : 2 ^ 64 ≤ E.fuel) {direct : Bool} {pl : Place} {off addr : ℕ}
    {buf : List UInt8} {es : List Extent} (hes : es.length = pl.next)
    (h : Holds direct pl.mem es off buf.length v.len) :
    (lsScatter E direct pl off buf.length true addr buf).wp
      (footOf direct true pl.mem (pl.ext.getD 0) es off buf.length).spec
      (fun a w => a.1 ≠ .ok ∧ w.dirty = true ∨ a.1 = .ok ∧ Wrote pl.mem es off buf v w) v := by
  unfold lsScatter
  by_cases h0 : buf.length = 0
  · rw [if_pos h0]
    exact Or.inr ⟨rfl, rfl, fun j l hj => by omega, fun l _ => rfl⟩
  rw [if_neg h0]
  obtain ⟨mem, ext, next⟩ := pl
  cases mem with
  | some p =>
    dsimp only
    rw [if_pos rfl]
    refine Foot.wp_store (fun i hi => ⟨⟨off + i, .of_mem (by omega) (by omega), rfl⟩,
      rfl, off + i, by omega, by omega, rfl⟩) (Or.inr ⟨rfl, rfl, ?_, ?_⟩)
    · intro j l hj hl
      obtain rfl := Option.some.inj hl
      simp only [View.putMem, if_true]
      exact patch_add hj
    · intro l hl
      cases l with
      | file x => rfl
      | mem q i =>
        simp only [View.putMem]
        split_ifs with hq
        · subst hq
          refine if_neg fun hi => hl (i - off) (by omega) ?_
          rw [locOf, Nat.add_sub_cancel' hi.1]
        · rfl
  | none =>
    have := wp_scatterLoop_write hF addr (ext.getD 0) h.solid rfl (h.within rfl) es [] rfl 0 (Nat.zero_le _)
      (Or.inl (Nat.zero_le _)) v
    rw [hes] at this
    refine Prog.wp_mono (fun a w hw => hw.imp id ?_) this
    rintro ⟨rfl, hd, -, hin, hout⟩
    refine ⟨rfl, hd, fun j l hj hl => ?_, fun l hl => hout l fun j _ => hl j⟩
    obtain ⟨x, hx, rfl⟩ := Option.map_eq_some_iff.mp hl
    exact hin j x (Nat.zero_le _) hj hx

/-- **`ls_scatter` reads the bytes of its range**, or one of its calls failed. -/
theorem wp_lsScatter_read (hF : 2 ^ 64 ≤ E.fuel) {direct : Bool} {pl : Place} {off n addr : ℕ}
    {es : List Extent} (hes : es.length = pl.next) (h : Holds direct pl.mem es off n v.len) :
    (lsScatter E direct pl off n false addr []).wp
      (footOf direct false pl.mem (pl.ext.getD 0) es off n).spec
      (fun a w => a.1 ≠ .ok ∧ w.dirty = true ∨
        a = (.ok, slice (v.lbyte pl.mem es) off n) ∧ v.Le w) v := by
  unfold lsScatter
  by_cases h0 : n = 0
  · rw [if_pos h0, h0, slice_zero]
    exact Or.inr ⟨rfl, .refl v⟩
  rw [if_neg h0]
  obtain ⟨mem, ext, next⟩ := pl
  cases mem with
  | some p =>
    dsimp only
    rw [if_neg (by simp)]
    exact Foot.wp_load (fun i hi => ⟨off + i, .of_mem (by omega) (by omega), rfl⟩)
      (Or.inr ⟨rfl, .refl v⟩)
  | none =>
    have := wp_scatterLoop_read hF addr (ext.getD 0) h.solid (h.within rfl) es [] rfl 0 (Nat.zero_le _)
      (Or.inl (Nat.zero_le _)) [] v h.len
    rw [hes] at this
    exact this

end Libspill
