import Libspill.Shared
import Libspill.Writers

set_option autoImplicit false

/-!
# Writes of one record by several processes

Processes that have opened one kept file with `LS_SHARED` write to one record, each call in its own
byte range. Under direct I/O a write reads the blocks at the ends of its range, patches them and
writes them back.

* `Writers`: programs of writes to one record, no two with a byte in common.
* `Landing`: what is left of a write will leave its bytes in the record. `Landing.call`, `Landing.kept`:
  its own next call, and what others do beside it.
* `World.Spread`: a write that begins shares no block with a write under way. **`world_lands`**: one
  move.
* **`direct_writes_land`**: in one process and in several, every write that answered `LS_OK` is there to
  be read in the end. `direct_loses`: two writes in one block.
-/

namespace Libspill

variable {σ π ι : Type} [HonestOs σ]

open HonestOs (file clean)

/-! ## Writers -/

/-- The bytes that a call of `ls_write` is about. -/
def Api.xfer : Api → Option Xfer
  | .plain (.write key off buf _) => some ⟨key, true, off, buf.length⟩
  | _ => none

/-- Two calls write no byte in common. -/
def Api.Avoids (a b : Api) : Prop := ∀ x ∈ a.xfer, ∀ y ∈ b.xfer, ¬ x.Meets y

/-- All calls write to `key`, and no two of them have a byte in common. -/
structure Writers (key : CStr) (progs : π → ι → List Api) : Prop where
  writes : ∀ p i, ∀ a ∈ progs p i, ∃ off buf addr, a = .plain (.write key off buf addr) ∧
    off < 2 ^ 64 ∧ buf.length < 2 ^ 64
  own : ∀ p i, (progs p i).Pairwise Api.Avoids
  others : ∀ p i q j, p ≠ q ∨ i ≠ j → ∀ a ∈ progs p i, ∀ b ∈ progs q j, a.Avoids b

omit [HonestOs σ] in
theorem Xfer.Meets.symm {x y : Xfer} (h : x.Meets y) : y.Meets x := ⟨h.2.1, h.1, h.2.2.2, h.2.2.1⟩

omit [HonestOs σ] in
theorem Xfer.SharesBlock.symm {x y : Xfer} (h : x.SharesBlock y) : y.SharesBlock x :=
  ⟨h.2.1, h.1, h.2.2.2, h.2.2.1⟩

/-! ## A write under way -/

/-- The bytes `b` are in the file `f` where the layout of `s` has the record of `key`, from `off` on. -/
def LiesIn (s : Store σ) (f : File) (key : CStr) (off : ℕ) (b : List UInt8) : Prop :=
  ∃ r, s.find key = some r ∧ off + b.length ≤ r.size ∧
    ∀ j x, j < b.length → locate (s.exts r) (off + j) = some x → f.byte x = b.getD j 0

/-- What is left of a write of `b` at `off`, in a process whose store is `t`: it will leave its bytes in
the record, or report that a call has failed. -/
def Landing (s t : Store σ) (key : CStr) (off : ℕ) (b : List UInt8) (q : Io Answer) : Prop :=
  ∃ r p v, s.find key = some r ∧ off + b.length ≤ r.size ∧
    q.wp (footOf t.direct true none p (s.exts r) off b.length).spec (fun a w => a.rc = .ok →
      ∀ j x, j < b.length → locate (s.exts r) (off + j) = some x → w.fbyte x = b.getD j 0) v ∧
    (footOf t.direct true none p (s.exts r) off b.length).Sees t v

/-- The places in the file of the bytes that a transfer on a record writes. -/
def placesOf (s : Store σ) (x : Xfer) : Set ℕ :=
  {l | ∃ r i, s.find x.key = some r ∧ x.off ≤ i ∧ i < x.off + x.n ∧ locate (s.exts r) i = some l}

section Landing

variable {s t t' : Store σ} {key : CStr} {off : ℕ} {b : List UInt8} {q : Io Answer} {r : Rec} {E : Env}

/-- A write that has taken its place. -/
theorem landing_begin (hF : 2 ^ 64 ≤ E.fuel) (hc : Closable s) {u : Store σ} (hu : Stands s u)
    (hk : u.find key = some r) (hn : off + b.length ≤ r.size) (hlen : s.al.fileEnd ≤ u.flen) (addr : ℕ) :
    Landing s (pin u key).2 key off b
      ((lsScatter E (pin u key).2.direct (pin u key).1 off b.length true addr b >>= fun a =>
        .ret ({ rc := a.1 } : Out)) >>= fun out => .ret (.plain out)) := by
  obtain ⟨-, h2, h3⟩ := hu.pin hc hk
  obtain ⟨r₁, g1, g2, g3, -⟩ := hu.record hk
  have hsub := exts_subset_live hc.sound.laid.records.wf g1
  generalize (pin u key).1 = pl at h3 ⊢
  have hos : (pin u key).2.os = u.os := by rw [h2]; rfl
  generalize (pin u key).2 = t at h3 hos ⊢
  rw [← g3] at h3
  have hflen : ∀ e ∈ s.exts r₁, e.fin ≤ t.flen := fun e he => by
    rw [Store.flen, hos]
    exact (hc.sound.laid.tiled.live_bounds (hsub he)).2.trans hlen
  have hholds : Holds t.direct pl.mem (s.exts r₁) off b.length t.flen :=
    ⟨h3.solid, fun _ => hn.trans h3.within, hflen⟩
  have hw := @wp_lsScatter_write ⟨t.byteAt, t.flen, false⟩ E hF t.direct pl off addr b (s.exts r₁)
    h3.next.symm hholds
  rw [h3.mem] at hw
  refine ⟨r₁, pl.ext.getD 0, _, g1, by omega, Prog.wp_bind (Prog.wp_bind (Prog.wp_mono ?_ hw)),
    fun _ _ => rfl, Nat.le_refl _, fun hd => (by cases hd), h3.arr⟩
  rintro a w (ha | ha) hok j x hj hx
  · exact absurd hok ha.1
  · exact ha.2.inside j (.file x) hj (by rw [locOf, hx]; rfl)

/-- Its own next call. -/
theorem Landing.call {c : Call} {k : c.Ans → Io Answer} (h : Landing s t key off b (.call c k)) :
    Landing s (perform c t).2 key off b (k (perform c t).1) ∧ (perform c t).2.direct = t.direct ∧
      (perform c t).2.arr = t.arr ∧ t.flen ≤ (perform c t).2.flen ∧
      (clean (perform c t).2.os → clean t.os) ∧
      ∀ x, x ∉ placesOf s ⟨key, true, off, b.length⟩ →
        (file (perform c t).2.os).byte x = (file t.os).byte x := by
  obtain ⟨r, p, v, h1, h2, ⟨hm, hk⟩, hv⟩ := h
  have hu := perform_untouched hv hm
  obtain ⟨v', h3, h4⟩ := simulates _ c t v hv hm
  have hdir : (perform c t).2.direct = t.direct := by rw [hu.rest]
  refine ⟨⟨r, p, v', h1, h2, ?_, ?_⟩, hdir, by rw [hu.rest], hu.len, hu.clean, fun x hx => ?_⟩
  · rw [hdir]
    exact hk _ _ h3
  · rw [hdir]
    exact h4
  · refine hu.byte (.file x) fun hT => hx ?_
    obtain ⟨-, i, h5, h6, h7⟩ := hT
    rw [locOf, Option.map_eq_some_iff] at h7
    obtain ⟨y, hy, hyx⟩ := h7
    cases hyx
    exact ⟨r, i, h1, h5, h6, hy⟩

/-- What others do beside it: the bytes that it moves stay. -/
theorem Landing.kept (h : Landing s t key off b q) (hd : t'.direct = t.direct) (ha : t'.arr = t.arr)
    (hlen : t.flen ≤ t'.flen) (hcl : clean t'.os → clean t.os)
    (hb : ∀ r i x, s.find key = some r → Reach t.direct off b.length i → locate (s.exts r) i = some x →
      (file t'.os).byte x = (file t.os).byte x) : Landing s t' key off b q := by
  obtain ⟨r, p, v, h1, h2, h3, h4⟩ := h
  refine ⟨r, p, v, h1, h2, by rwa [hd], ?_⟩
  rw [hd]
  refine ⟨?_, h4.len.trans hlen, fun hdi hc => h4.dirty hdi (hcl hc), fun i e he => by
    rw [ha]; exact h4.arr i e he⟩
  rintro l ⟨i, hi, hl⟩
  rw [← h4.byte l ⟨i, hi, hl⟩]
  rw [locOf, Option.map_eq_some_iff] at hl
  obtain ⟨x, hx, rfl⟩ := hl
  exact hb r i x h1 hi hx

/-- The end of a write that reports no failure. -/
theorem Landing.lies {ans : Answer} (h : Landing s t key off b (.ret ans)) (hok : ans.rc = .ok) :
    LiesIn s (file t.os) key off b := by
  obtain ⟨r, p, v, h1, h2, h3, h4⟩ := h
  refine ⟨r, h1, h2, fun j x hj hx => ?_⟩
  rw [← h3 hok j x hj hx]
  exact h4.byte (.file x) ⟨off + j, .of_mem (by omega) (by omega), by rw [locOf, hx]; rfl⟩

omit [HonestOs σ] in
theorem LiesIn.kept {f g : File} (h : LiesIn s f key off b)
    (hb : ∀ r j x, s.find key = some r → j < b.length → locate (s.exts r) (off + j) = some x →
      g.byte x = f.byte x) : LiesIn s g key off b := by
  obtain ⟨r, h1, h2, h3⟩ := h
  exact ⟨r, h1, h2, fun j x hj hx => (hb r j x h1 hj hx).trans (h3 j x hj hx)⟩

omit [HonestOs σ] in
/-- A byte of a record that a transfer on it does not write. -/
theorem not_mem_placesOf (h : Laid [] s) {x : Xfer} {i l : ℕ} (hk : s.find x.key = some r)
    (hl : locate (s.exts r) i = some l) (hi : ¬ (x.off ≤ i ∧ i < x.off + x.n)) : l ∉ placesOf s x := by
  rintro ⟨r', j, h1, h2, h3, h4⟩
  rw [hk] at h1
  cases h1
  have hij := locate_inj (pairwise_exts h hk) hl h4
  exact hi (hij ▸ ⟨h2, h3⟩)

/-- A process that has the file open reads what is there. -/
theorem read_lies (hF : 2 ^ 64 ≤ E.fuel) (hc : Closable s) (ht : Stands s t)
    (hlen : s.al.fileEnd ≤ t.flen) (h : LiesIn s (file t.os) key off b) (addr : ℕ) :
    ∃ out t', (Op.read key off b.length addr).call E t = some (out, t') ∧
      (clean t'.os ∨ out.rc = .ok → out = { rc := .ok, data := b }) := by
  obtain ⟨r₁, h1, h2, h3⟩ := h
  have hrow := ht.rows key
  rw [h1, Option.map_some] at hrow
  obtain ⟨r, hk, hr⟩ := Option.map_eq_some_iff.mp hrow
  simp only [Store.row, Row.mk.injEq] at hr
  obtain ⟨-, hsize, -, hexts, -⟩ := hr
  have hlt := size_lt hc.sound key
  rw [recAt_of_find h1] at hlt
  obtain ⟨-, hp, ha⟩ := ht.pin hc hk
  have hsub := exts_subset_live hc.sound.laid.records.wf h1
  have hbegin : readBegin t key off b.length = (.ok (pin t key).1, (pin t key).2) := by
    rw [readBegin, (hc.named key r₁ h1).1, add64_eq (by omega), hk, recAt_of_find hk, if_neg (by simp),
      if_neg (by omega), if_neg (by simp), if_neg (by omega)]
  rw [Op.call, Op.enter, hbegin]
  dsimp only
  generalize (pin t key).1 = pl at ha ⊢
  have hos : (pin t key).2.os = t.os := by rw [hp]; rfl
  generalize (pin t key).2 = u at ha hos ⊢
  rw [hexts] at ha
  have hflen : ∀ e ∈ s.exts r₁, e.fin ≤ u.flen := fun e he => by
    rw [Store.flen, hos]
    exact (hc.sound.laid.tiled.live_bounds (hsub he)).2.trans hlen
  have hwithin := ha.within
  have hholds : Holds u.direct pl.mem (s.exts r₁) off b.length u.flen :=
    ⟨ha.solid, fun _ => by omega, hflen⟩
  have hw := @wp_lsScatter_read ⟨u.byteAt, u.flen, false⟩ E hF u.direct pl off b.length addr (s.exts r₁)
    ha.next.symm hholds
  rw [ha.mem] at hw
  have hread : slice (View.lbyte ⟨u.byteAt, u.flen, false⟩ none (s.exts r₁)) off b.length = b := by
    refine eq_slice fun j hj => ?_
    obtain ⟨x, hx⟩ : ∃ x, locate (s.exts r₁) (off + j) = some x :=
      Option.isSome_iff_exists.mp (locate_isSome.mpr (by omega))
    rw [View.lbyte, locOf, hx]
    exact (congrArg (fun o => (file o).byte x) hos).trans (h3 j x hj hx)
  rw [hread] at hw
  have hend : (lsScatter E u.direct pl off b.length false addr [] >>= fun a => .ret (readOut a)).wp
      (footOf u.direct false none (pl.ext.getD 0) (s.exts r₁) off b.length).spec
      (fun out w => out.rc ≠ .ok ∧ w.dirty = true ∨ out = { rc := .ok, data := b })
      ⟨u.byteAt, u.flen, false⟩ := by
    refine Prog.wp_bind (Prog.wp_mono ?_ hw)
    rintro ⟨rc, d⟩ w (hbad | ⟨hd, -⟩)
    · refine Or.inl ⟨?_, hbad.2⟩
      cases rc <;> first | exact absurd rfl hbad.1 | exact fun h => (by cases h)
    · cases hd
      exact Or.inr rfl
  obtain ⟨a, u', v', g1, g2, g3, -⟩ :=
    exec_of_wp hend ⟨fun _ _ => rfl, Nat.le_refl _, fun hd => (by cases hd), ha.arr⟩
  rw [g1]
  refine ⟨a, _, rfl, fun hok => g2.resolve_left fun hbad => ?_⟩
  exact hok.elim (g3.dirty hbad.2) hbad.1

end Landing

/-! ## One step of a thread -/

/-- The write that a thread is in. -/
def Caller.moving (c : Caller) : Option Xfer := c.cur.bind fun a => a.1.xfer

/-- The write that a thread begins with its next step. -/
def Caller.begins (c : Caller) : Option Xfer :=
  if c.cur.isSome then none else c.todo.head?.bind Api.xfer

/-- The calls of a thread, those it has made first. -/
def Caller.calls (c : Caller) : List Api :=
  c.made.map Prod.fst ++ (c.cur.toList.map Prod.fst ++ c.todo)

/-- What a step of a writer does. -/
structure Stepped (s t t' : Store σ) (key : CStr) (c c' : Caller) : Prop where
  calls : c'.calls = c.calls
  direct : t'.direct = t.direct
  arr : t'.arr = t.arr
  len : t.flen ≤ t'.flen
  clean : clean t'.os → clean t.os
  byte : ∀ l, (∀ x ∈ c.moving, l ∉ placesOf s x) → (file t'.os).byte l = (file t.os).byte l
  moving : ∀ x ∈ c'.moving, x ∈ c.moving ∨ x ∈ c.begins
  landing : ∀ a k q, c'.cur = some (a, k, q) → ∃ off b addr, a = .plain (.write key off b addr) ∧
    Landing s t' key off b q
  lies : ∀ m ∈ c'.made, m ∈ c.made ∨ (m.2.rc = .ok → ∀ off b addr,
    m.1 = .plain (.write key off b addr) → LiesIn s (file t'.os) key off b)

section Steps

variable {s t t' : Store σ} {key k : CStr} {c : Caller} {E : Env} {a : Api}

omit [HonestOs σ] in
theorem Caller.step_ret [Os σ] {ans : Answer} (h : c.cur = some (a, k, .ret ans)) :
    c.step E t = some ({ c with cur := none, made := c.made ++ [(a, ans)] }, unpin t k) := by
  simp only [Caller.step, h]

omit [HonestOs σ] in
theorem Caller.step_call [Os σ] {q : Call} {f : q.Ans → Io Answer} (h : c.cur = some (a, k, .call q f)) :
    c.step E t = some ({ c with cur := some (a, k, f (perform q t).1) }, (perform q t).2) := by
  simp only [Caller.step, h]

omit [HonestOs σ] in
theorem Caller.step_begin [Os σ] {todo : List Api} {b : Begun} (h : c.cur = none) (hd : c.todo = a :: todo)
    (he : a.enter E t = some (b, t')) : c.step E t = some (c.begin a todo b, t') := by
  simp only [Caller.step, h, hd, he, Option.map_some]

/-- The end of a write. -/
theorem stepped_ret {off addr : ℕ} {b : List UInt8} {ans : Answer}
    (h : c.cur = some (.plain (.write key off b addr), k, .ret ans))
    (hl : Landing s t key off b (.ret ans)) :
    Stepped s t (unpin t k) key c
      { c with cur := none, made := c.made ++ [(.plain (.write key off b addr), ans)] } := by
  refine ⟨?_, rfl, rfl, Nat.le_refl _, id, fun _ _ => rfl, fun x hx => (by cases hx),
    fun _ _ _ hn => (by cases hn), fun m hm => ?_⟩
  · simp [Caller.calls, h]
  · rcases List.mem_append.mp hm with hm | hm
    · exact Or.inl hm
    · rw [List.mem_singleton.mp hm]
      refine Or.inr fun hok off' b' addr' he => ?_
      cases he
      exact hl.lies hok

/-- One call of a write. -/
theorem stepped_call {off addr : ℕ} {b : List UInt8} {q : Call} {f : q.Ans → Io Answer}
    (h : c.cur = some (.plain (.write key off b addr), k, .call q f))
    (hl : Landing s t key off b (.call q f)) : Stepped s t (perform q t).2 key c
      { c with cur := some (.plain (.write key off b addr), k, f (perform q t).1) } := by
  obtain ⟨h1, h2, h3, h4, h5, h6⟩ := hl.call
  have hmove : c.moving = some ⟨key, true, off, b.length⟩ := by
    rw [Caller.moving, h]
    rfl
  refine ⟨?_, h2, h3, h4, h5, fun l hl => h6 l (hl _ hmove), fun x hx => Or.inl (hmove ▸ hx),
    fun a k q hn => ?_, fun m hm => Or.inl hm⟩
  · simp [Caller.calls, h]
  · cases hn
    exact ⟨off, b, addr, rfl, h1⟩

/-- A write that is refused. -/
theorem stepped_done {todo : List Api} {ans : Answer} (h : c.cur = none) (hd : c.todo = a :: todo)
    (hans : ans.rc ≠ .ok) : Stepped s t t key c (c.begin a todo (.done ans)) := by
  have hcur : (c.begin a todo (.done ans)).cur = none := h
  refine ⟨?_, rfl, rfl, Nat.le_refl _, id, fun _ _ => rfl, fun x hx => ?_, fun a k q hn => ?_,
    fun m hm => ?_⟩
  · simp [Caller.calls, Caller.begin, h, hd]
  · rw [Caller.moving, hcur] at hx
    cases hx
  · rw [hcur] at hn
    cases hn
  · rcases List.mem_append.mp hm with hm | hm
    · exact Or.inl hm
    · rw [List.mem_singleton.mp hm]
      exact Or.inr fun hok => absurd hok hans

/-- A write that goes on to its transfer. -/
theorem stepped_going {todo : List Api} {off addr : ℕ} {b : List UInt8} {q : Io Answer}
    (h : c.cur = none) (hd : c.todo = .plain (.write key off b addr) :: todo)
    (ht : t'.direct = t.direct ∧ t'.arr = t.arr ∧ t'.os = t.os) (hl : Landing s t' key off b q) :
    Stepped s t t' key c (c.begin (.plain (.write key off b addr)) todo (.going k q)) := by
  obtain ⟨h1, h2, h3⟩ := ht
  refine ⟨?_, h1, h2, by rw [Store.flen, Store.flen, h3], fun h => h3 ▸ h, fun l _ => by rw [h3],
    fun x hx => Or.inr ?_, fun a k q hn => ?_, fun m hm => Or.inl hm⟩
  · simp [Caller.calls, Caller.begin, h, hd]
  · rw [Caller.begins, h, hd]
    exact hx
  · cases hn
    exact ⟨off, b, addr, rfl, hl⟩

/-- **One step of a writer.** -/
theorem caller_lands (hF : 2 ^ 64 ≤ E.fuel) (hc : Closable s) (ht : Stands s t)
    (hlen : s.al.fileEnd ≤ t.flen) (hcur : ∀ a k q, c.cur = some (a, k, q) → ∃ off b addr,
      a = .plain (.write key off b addr) ∧ Landing s t key off b q)
    (htodo : ∀ a ∈ c.todo, ∃ off b addr, a = .plain (.write key off b addr) ∧ off < 2 ^ 64 ∧
      b.length < 2 ^ 64) :
    ∃ c' t', c.step E t = some (c', t') ∧ Stepped s t t' key c c' := by
  cases hq : c.cur with
  | some a =>
    obtain ⟨a, k, q⟩ := a
    obtain ⟨off, b, addr, rfl, hl⟩ := hcur a k q hq
    cases q with
    | hang =>
      obtain ⟨r, q, v, -, -, hv, -⟩ := hl
      exact False.elim hv
    | ret ans => exact ⟨_, _, Caller.step_ret hq, stepped_ret hq hl⟩
    | call q f => exact ⟨_, _, Caller.step_call hq, stepped_call hq hl⟩
  | none =>
    cases hd : c.todo with
    | nil =>
      refine ⟨c, t, by simp only [Caller.step, hq, hd], rfl, rfl, rfl, Nat.le_refl _, id, fun _ _ => rfl,
        fun x hx => Or.inl hx, fun a k q hn => ?_, fun m hm => Or.inl hm⟩
      rw [hq] at hn
      cases hn
    | cons a todo =>
      obtain ⟨off, b, addr, rfl, ho, hb⟩ := htodo a (by simp [hd])
      rcases writeBegin_stands (E := E) hc ht key ho hb with
        ⟨rc, hx, hrc, -⟩ | ⟨u, r, hx, -, g2, g3, g4, g5, g6, g7⟩
      · have he : (Api.plain (.write key off b addr)).enter E t =
            some (.done (.plain { rc }), t) := by
          simp only [Api.enter, Op.enter, hx, Option.map_some, Entered.begun]
        exact ⟨_, _, Caller.step_begin hq hd he, stepped_done hq hd hrc⟩
      · have he : (Api.plain (.write key off b addr)).enter E t = some (.going key
            ((lsScatter E (Libspill.pin u key).2.direct (Libspill.pin u key).1 off b.length true addr b >>= fun a =>
              .ret ({ rc := a.1 } : Out)) >>= fun out => .ret (.plain out)), (Libspill.pin u key).2) := by
          simp only [Api.enter, Op.enter, hx, Option.map_some, Entered.begun]
        obtain ⟨-, h2, -⟩ := g2.pin hc g3
        have hl := landing_begin hF hc g2 g3 g4 (by rwa [Store.flen, g5]) addr
        refine ⟨_, _, Caller.step_begin hq hd he, stepped_going hq hd ?_ hl⟩
        rw [h2]
        exact ⟨g7, g6, g5⟩

end Steps

/-! ## Worlds -/

/-- Direct I/O is in force in a process that has the file open. -/
def Process.direct (q : Process σ ι) : Bool := q.store.any fun t => t.direct

/-- The thread that takes a step. -/
def Event.stepper : Event π ι → Option (π × ι)
  | .steps p i => some (p, i)
  | _ => none

/-- The file is opened shared, and a write that begins shares no block with a write under way if direct
I/O is in force for either of them. -/
def World.Spread (m : Event π ι) (w : World σ π ι) : Prop :=
  m.Shared ∧ ∀ a ∈ m.stepper, (w.proc a.1).store.isSome = true →
    ∀ x ∈ ((w.proc a.1).thread a.2).begins, ∀ q j, ∀ y ∈ ((w.proc q).thread j).moving,
      (w.proc a.1).direct = true ∨ (w.proc q).direct = true → ¬ y.SharesBlock x

/-- What stands in a world of writers of `key`. -/
structure World.Lands (s : Store σ) (f : File) (key : CStr) (progs : π → ι → List Api) (w : World σ π ι) :
    Prop where
  stands : w.Stands s f
  calls : ∀ p i, ((w.proc p).thread i).calls = progs p i
  landing : ∀ p i a k q, ((w.proc p).thread i).cur = some (a, k, q) → ∃ off b addr t,
    a = .plain (.write key off b addr) ∧ (w.proc p).store = some t ∧
      Landing s { t with os := w.os } key off b q
  spread : ∀ p i q j, p ≠ q ∨ i ≠ j → ∀ x ∈ ((w.proc p).thread i).moving,
    ∀ y ∈ ((w.proc q).thread j).moving, (w.proc p).direct = true ∨ (w.proc q).direct = true →
      ¬ x.SharesBlock y
  lies : ∀ p i, ∀ m ∈ ((w.proc p).thread i).made, m.2.rc = .ok → ∀ off b addr,
    m.1 = .plain (.write key off b addr) → LiesIn s (file w.os) key off b

section Worlds

variable {s t : Store σ} {f : File} {key : CStr} {progs : π → ι → List Api} {w : World σ π ι}

namespace World.Lands

/-- What a thread is in is one of its writes. -/
theorem moving (h : w.Lands s f key progs) {p : π} {i : ι} {x : Xfer}
    (hx : x ∈ ((w.proc p).thread i).moving) : x.write = true ∧ x.key = key ∧
      ∃ a k q, ((w.proc p).thread i).cur = some (a, k, q) ∧ a.xfer = some x := by
  rw [Caller.moving, Option.mem_def, Option.bind_eq_some_iff] at hx
  obtain ⟨⟨a, k, q⟩, h1, h2⟩ := hx
  obtain ⟨off, b, addr, t, rfl, -⟩ := h.landing p i a k q h1
  refine ⟨?_, ?_, _, _, _, h1, h2⟩ <;>
  · cases h2
    rfl

/-- A call that a thread is in avoids those it has made, and those that others have made or are in. -/
theorem avoids (h : w.Lands s f key progs) (hw : Writers key progs) {p q : π} {i j : ι} {a b : Api}
    (ha : a ∈ ((w.proc p).thread i).cur.toList.map Prod.fst)
    (hb : b ∈ ((w.proc q).thread j).made.map Prod.fst ∨
      (p ≠ q ∨ i ≠ j) ∧ b ∈ ((w.proc q).thread j).cur.toList.map Prod.fst) : b.Avoids a := by
  have hmem : ∀ p i, ∀ a, a ∈ ((w.proc p).thread i).made.map Prod.fst ∨
      a ∈ ((w.proc p).thread i).cur.toList.map Prod.fst → a ∈ progs p i := by
    intro p i a ha
    rw [← h.calls p i, Caller.calls, List.mem_append, List.mem_append]
    exact ha.imp id Or.inl
  by_cases hne : p ≠ q ∨ i ≠ j
  · exact hw.others q j p i (hne.imp Ne.symm Ne.symm) b (hmem q j b (hb.imp id And.right)) a
      (hmem p i a (Or.inr ha))
  · obtain ⟨rfl, rfl⟩ : p = q ∧ i = j := by
      rw [not_or, not_not, not_not] at hne
      exact hne
    have hown := hw.own p i
    rw [← h.calls p i, Caller.calls, List.pairwise_append] at hown
    exact hown.2.2 b (hb.resolve_right fun hn => hne hn.1) a (List.mem_append_left _ ha)

/-- What a thread does to the file leaves the other transfers alone. -/
theorem landing_beside (h : w.Lands s f key progs) (hw : Writers key progs) (hs : Laid [] s) {p q : π}
    {i j : ι} (hne : p ≠ q ∨ i ≠ j) {k : CStr} {r : Io Answer} {off addr : ℕ} {b : List UInt8}
    (hq : ((w.proc q).thread j).cur = some (.plain (.write key off b addr), k, r))
    (ht : (w.proc q).store = some t) (hl : Landing s { t with os := w.os } key off b r) {u : Store σ}
    (hd : u.direct = t.direct) (ha : u.arr = t.arr) (hlen : (file w.os).len ≤ u.flen)
    (hcl : clean u.os → clean w.os)
    (hb : ∀ l, (∀ x ∈ ((w.proc p).thread i).moving, l ∉ placesOf s x) →
      (file u.os).byte l = (file w.os).byte l) : Landing s u key off b r := by
  refine hl.kept hd ha hlen hcl fun r' n l hr hn hx => hb l fun y hy => ?_
  obtain ⟨h1, rfl, a', k', r', h3, h4⟩ := h.moving hy
  have hz : (⟨y.key, true, off, b.length⟩ : Xfer) ∈ ((w.proc q).thread j).moving := by
    rw [Caller.moving, hq]
    rfl
  have hdir : t.direct = true → (w.proc q).direct = true := fun hd => by
    rw [Process.direct, ht]
    exact hd
  have hav := h.avoids hw (p := p) (q := q) (i := i) (j := j) (by rw [h3]; exact List.mem_singleton_self _)
    (Or.inr ⟨hne, by rw [hq]; exact List.mem_singleton_self _⟩)
  have hmeet : ¬ y.Meets ⟨y.key, true, off, b.length⟩ := fun hm => hav _ rfl y h4 hm.symm
  refine not_mem_placesOf hs hr hx ((spares_of_not_shares hmeet fun hd => ?_).1 h1 n hn)
  exact h.spread p i q j hne y hy _ hz (Or.inr (hdir hd))

/-- What a thread does to the file leaves what has landed. -/
theorem lies_beside (h : w.Lands s f key progs) (hw : Writers key progs) (hs : Laid [] s) {p q : π}
    {i j : ι} {m : Api × Answer} (hm : m ∈ ((w.proc q).thread j).made) (hok : m.2.rc = .ok)
    {off addr : ℕ} {b : List UInt8} (he : m.1 = .plain (.write key off b addr)) {g : File}
    (hb : ∀ l, (∀ x ∈ ((w.proc p).thread i).moving, l ∉ placesOf s x) → g.byte l = (file w.os).byte l) :
    LiesIn s g key off b := by
  refine (h.lies q j m hm hok off b addr he).kept fun r n l hr hn hx => hb l fun y hy => ?_
  obtain ⟨h1, rfl, a', k', r', h3, h4⟩ := h.moving hy
  have hav := h.avoids hw (p := p) (q := q) (i := i) (j := j) (b := m.1)
    (by rw [h3]; exact List.mem_singleton_self _) (Or.inl (List.mem_map_of_mem hm))
  refine not_mem_placesOf hs hr hx fun hin => hav ⟨y.key, true, off, b.length⟩ (by rw [he]; rfl) y h4 ?_
  exact ⟨by dsimp only; omega, by omega, by dsimp only; omega, by dsimp only; omega⟩

end World.Lands

variable [Fintype ι] [DecidableEq ι] [DecidableEq π] {E : π → Env}

omit [Fintype ι] [DecidableEq ι] in
/-- A process opens or closes the file. -/
theorem World.Lands.put (h : w.Lands s f key progs) {p : π} {os : σ} {x : Option (Store σ)}
    (hstands : (w.put p os { w.proc p with store := x }).Stands s f)
    (hidle : ∀ i, ((w.proc p).thread i).cur = none)
    (hfile : file os = file w.os) (hcl : clean os → clean w.os) :
    (w.put p os { w.proc p with store := x }).Lands s f key progs := by
  have hth : ∀ q j, ((w.put p os { w.proc p with store := x }).proc q).thread j =
      (w.proc q).thread j := by
    intro q j
    by_cases hq : q = p
    · subst hq
      simp only [World.put, Function.update_self]
    · simp only [World.put, Function.update_of_ne hq]
  have hold : ∀ q j, ((w.proc q).thread j).cur ≠ none →
      (w.put p os { w.proc p with store := x }).proc q = w.proc q := by
    intro q j hj
    have hq : q ≠ p := by
      rintro rfl
      exact hj (hidle j)
    simp only [World.put, Function.update_of_ne hq]
  have hmove : ∀ q j, ∀ y ∈ ((w.proc q).thread j).moving, ((w.proc q).thread j).cur ≠ none := by
    intro q j y hy hn
    rw [Caller.moving, hn] at hy
    cases hy
  refine ⟨hstands, fun q j => (hth q j ▸ h.calls q j : _), fun q j a k r hr => ?_,
    fun q j q' j' hne y hy z hz => ?_, fun q j m hm hok off b addr he => ?_⟩
  · rw [hth] at hr
    obtain ⟨off, b, addr, t, h1, h2, h3⟩ := h.landing q j a k r hr
    refine ⟨off, b, addr, t, h1, by rw [hold q j (by rw [hr]; simp)]; exact h2, ?_⟩
    refine h3.kept rfl rfl (congrArg File.len hfile).ge hcl fun _ _ l _ _ _ => ?_
    exact congrFun (congrArg File.byte hfile) l
  · rw [hth] at hy hz
    rw [hold q j (hmove q j y hy), hold q' j' (hmove q' j' z hz)]
    exact h.spread q j q' j' hne y hy z hz
  · rw [hth] at hm
    refine (h.lies q j m hm hok off b addr he).kept fun _ _ l _ _ _ => ?_
    exact congrFun (congrArg File.byte hfile) l

omit [Fintype ι] in
/-- A thread of a process takes a step. -/
theorem World.Lands.step (h : w.Lands s f key progs) (hw : Writers key progs) (hs : Laid [] s) {p : π}
    {i : ι} {c' : Caller} {t' : Store σ} (hp : (w.proc p).store = some t)
    (hst : Stepped s { t with os := w.os } t' key ((w.proc p).thread i) c')
    (hspread : ∀ x ∈ ((w.proc p).thread i).begins, ∀ q j, ∀ y ∈ ((w.proc q).thread j).moving,
      (w.proc p).direct = true ∨ (w.proc q).direct = true → ¬ y.SharesBlock x)
    (hstands : (w.put p t'.os { store := some t', thread := Function.update (w.proc p).thread i c' }).Stands
      s f) :
    (w.put p t'.os { store := some t', thread := Function.update (w.proc p).thread i c' }).Lands s f key
      progs := by
  generalize hw' : w.put p t'.os { store := some t', thread := Function.update (w.proc p).thread i c' } = w'
    at hstands ⊢
  have hos : w'.os = t'.os := by rw [← hw']; rfl
  have hself : ((w'.proc p).thread i) = c' := by
    rw [← hw']
    simp only [World.put, Function.update_self]
  have hth : ∀ q j, p ≠ q ∨ i ≠ j → (w'.proc q).thread j = (w.proc q).thread j := by
    intro q j hne
    rw [← hw']
    by_cases hq : q = p
    · subst hq
      simp only [World.put, Function.update_self, Function.update_of_ne (hne.resolve_left (by simp)).symm]
    · simp only [World.put, Function.update_of_ne hq]
  have hdir : ∀ q, (w'.proc q).direct = (w.proc q).direct := by
    intro q
    rw [← hw']
    by_cases hq : q = p
    · subst hq
      simp only [World.put, Function.update_self, Process.direct, hp, Option.any_some]
      exact hst.direct
    · simp only [World.put, Function.update_of_ne hq]
  have hsame : ∀ q j, p ≠ q ∨ i ≠ j ∨ q = p ∧ j = i := fun q j => by
    by_cases hq : p = q
    · by_cases hj : i = j
      · exact Or.inr (Or.inr ⟨hq.symm, hj.symm⟩)
      · exact Or.inr (Or.inl hj)
    · exact Or.inl hq
  refine ⟨hstands, fun q j => ?_, fun q j a k r hr => ?_, fun q j q' j' hne y hy z hz hd => ?_,
    fun q j m hm hok off b addr he => ?_⟩
  · rcases or_assoc.mpr (hsame q j) with hne | ⟨rfl, rfl⟩
    · rw [hth q j hne]
      exact h.calls q j
    · rw [hself, hst.calls]
      exact h.calls q j
  · rcases or_assoc.mpr (hsame q j) with hne | ⟨rfl, rfl⟩
    · rw [hth q j hne] at hr
      obtain ⟨off, b, addr, u, rfl, h2, h3⟩ := h.landing q j a k r hr
      by_cases hq : q = p
      · subst hq
        rw [hp] at h2
        cases h2
        refine ⟨off, b, addr, t', rfl, by rw [← hw']; simp only [World.put, Function.update_self], ?_⟩
        rw [hos]
        exact h.landing_beside hw hs hne hr hp h3 hst.direct hst.arr hst.len hst.clean hst.byte
      · refine ⟨off, b, addr, u, rfl, by rw [← hw']; simp only [World.put, Function.update_of_ne hq, h2], ?_⟩
        rw [hos]
        exact h.landing_beside hw hs hne hr h2 h3 rfl rfl hst.len hst.clean hst.byte
    · rw [hself] at hr
      obtain ⟨off, b, addr, h1, h2⟩ := hst.landing a k r hr
      refine ⟨off, b, addr, t', h1, by rw [← hw']; simp only [World.put, Function.update_self], ?_⟩
      rw [hos]
      exact h2
  · rw [hdir, hdir] at hd
    rcases or_assoc.mpr (hsame q j) with h1 | ⟨rfl, rfl⟩
    · rw [hth q j h1] at hy
      rcases or_assoc.mpr (hsame q' j') with h2 | ⟨rfl, rfl⟩
      · rw [hth q' j' h2] at hz
        exact h.spread q j q' j' hne y hy z hz hd
      · rw [hself] at hz
        rcases hst.moving z hz with hz | hz
        · exact h.spread q j q' j' hne y hy z hz hd
        · exact hspread z hz q j y hy hd.symm
    · rw [hself] at hy
      rw [hth q' j' hne] at hz
      rcases hst.moving y hy with hy | hy
      · exact h.spread q j q' j' hne y hy z hz hd
      · exact fun hyz => hspread y hy q' j' z hz hd hyz.symm
  · rw [hos]
    rcases or_assoc.mpr (hsame q j) with hne | ⟨rfl, rfl⟩
    · rw [hth q j hne] at hm
      exact h.lies_beside hw hs hm hok he hst.byte
    · rw [hself] at hm
      rcases hst.lies m hm with hm | hm
      · exact h.lies_beside hw hs hm hok he hst.byte
      · exact hm hok off b addr he

/-- **One move of such a world.** -/
theorem world_lands (hF : ∀ p, 2 ^ 64 ≤ (E p).fuel) (hc : Closable s) (hf : StoredIn s f)
    (hw : Writers key progs) :
    Keeps (World.step E) World.Spread (fun _ => True) fun w : World σ π ι => w.Lands s f key progs := by
  rintro m w h ⟨hm, hspread⟩
  have hstands : ∀ w', w.step E m = some w' → w'.Stands s f := fun w' hstep =>
    world_step hF hc hf h.stands hm hstep
  cases m with
  | opens p o =>
    cases hp : (w.proc p).store with
    | some t => exact ⟨w, by simp only [World.step, hp], fun _ => h⟩
    | none =>
      have hidle : ∀ i, ((w.proc p).thread i).cur = none := by
        intro i
        cases hcur : ((w.proc p).thread i).cur with
        | none => rfl
        | some a =>
          obtain ⟨-, -, -, t, -, h2, -⟩ := h.landing p i a.1 a.2.1 a.2.2 hcur
          rw [hp] at h2
          cases h2
      obtain ⟨h1, h2⟩ := storedIn_outside hc hf h.stands.file
      obtain ⟨r, h3⟩ : ∃ r, lsOpen (E p) o w.os = some r := by
        cases ho : optsRefused o with
        | some rc => exact ⟨.error (rc, w.os), by rw [lsOpen, ho]⟩
        | none =>
          obtain ⟨r, h3, -⟩ := lsOpen_storedIn (hF p) h1 h2 ho
          exact ⟨r, h3⟩
      obtain ⟨h5, h6⟩ := lsOpen_file (hF p) h1 h2 h3
      cases r with
      | error e =>
        have hsame : w.proc p = { w.proc p with store := none } := by rw [← hp]
        have hstep : w.step E (.opens p o) = some (w.put p e.2 { w.proc p with store := none }) := by
          rw [← hsame]
          simp only [World.step, hp, h3]
        exact ⟨_, hstep, fun _ => h.put (hstands _ hstep) hidle h5 h6⟩
      | ok t =>
        have hstep : w.step E (.opens p o) = some (w.put p t.os { w.proc p with store := some t }) := by
          simp only [World.step, hp, h3]
        exact ⟨_, hstep, fun _ => h.put (hstands _ hstep) hidle h5 h6⟩
  | steps p i =>
    cases hp : (w.proc p).store with
    | none => exact ⟨w, by simp only [World.step, hp], fun _ => h⟩
    | some t =>
      have hlay := (h.stands.proc p).layout t hp
      have hplug : Libspill.Stands s { t with os := w.os } :=
        ⟨hlay.shared, hlay.wf, hlay.al, hlay.rows, hlay.plain⟩
      have hlen : s.al.fileEnd ≤ (file w.os).len := by
        have := hf.len
        rw [h.stands.file.len]
        omega
      have hcur : ∀ a k q, ((w.proc p).thread i).cur = some (a, k, q) → ∃ off b addr,
          a = .plain (.write key off b addr) ∧ Landing s { t with os := w.os } key off b q := by
        intro a k q hq
        obtain ⟨off, b, addr, u, g1, g2, g3⟩ := h.landing p i a k q hq
        rw [hp] at g2
        cases g2
        exact ⟨off, b, addr, g1, g3⟩
      have htodo : ∀ a ∈ ((w.proc p).thread i).todo, ∃ off b addr, a = .plain (.write key off b addr) ∧
          off < 2 ^ 64 ∧ b.length < 2 ^ 64 := by
        refine fun a ha => hw.writes p i a ?_
        rw [← h.calls p i, Caller.calls]
        exact List.mem_append_right _ (List.mem_append_right _ ha)
      obtain ⟨c', t', h1, h2⟩ := caller_lands (hF p) hc hplug hlen hcur htodo
      have hstep : w.step E (.steps p i) = some (w.put p t'.os
          { store := some t', thread := Function.update (w.proc p).thread i c' }) := by
        simp only [World.step, hp, h1]
      refine ⟨_, hstep, fun _ => ?_⟩
      exact h.step hw hc.sound.laid hp h2 (hspread (p, i) rfl (by rw [hp]; rfl)) (hstands _ hstep)
  | closes p keep =>
    cases hp : (w.proc p).store with
    | none => exact ⟨w, by simp only [World.step, hp], fun _ => h⟩
    | some t =>
      by_cases hidle : ∀ i, ((w.proc p).thread i).cur.isNone
      swap
      · exact ⟨w, by simp only [World.step, hp, if_neg hidle], fun _ => h⟩
      have hsh : ({ t with os := w.os } : Store σ).o.parallel = .shared :=
        ((h.stands.proc p).layout t hp).shared
      have hclose : closeStore (E p) { t with os := w.os } keep = some (.ok, w.os) := by
        exact if_pos hsh
      have hstep : w.step E (.closes p keep) = some (w.put p w.os { w.proc p with store := none }) := by
        simp only [World.step, hp, if_pos hidle, hclose]
      refine ⟨_, hstep, fun _ => h.put (hstands _ hstep) (fun i => ?_) rfl id⟩
      exact Option.isNone_iff_eq_none.mp (hidle i)

omit [Fintype ι] [DecidableEq ι] [DecidableEq π] in
theorem World.Lands.start {os : σ} (hw : Writers key progs) (hf : file os = f) :
    (World.start os progs : World σ π ι).Lands s f key progs := by
  have hargs : ∀ p i, ∀ a ∈ progs p i, a.Args64 := by
    intro p i a ha
    obtain ⟨off, b, addr, rfl, h1, h2⟩ := hw.writes p i a ha
    exact ⟨h1, h2⟩
  refine ⟨⟨hf ▸ .refl, fun p => ⟨fun _ ht => (by cases ht), fun _ _ _ _ hx => (by cases hx),
    fun _ _ hm => (by cases hm), fun i => hargs p i⟩⟩, fun p i => rfl, fun _ _ _ _ _ hq => (by cases hq),
    fun _ _ _ _ _ _ hx => (by cases hx), fun _ _ _ hm => (by cases hm)⟩

/-- **Writes of disjoint ranges under direct I/O**. In one process: in a run where no tail wraps, and
where no call that begins beside a transfer on the key makes the record move or shares a block with the
transfer, every write that answered `LS_OK` is there to be read in the end. In several processes that
have opened a kept file shared: the same of every run where no write that begins shares a block with a
write under way. -/
theorem direct_writes_land {E₀ : Env} (hF₀ : 2 ^ 64 ≤ E₀.fuel) (hF : ∀ p, 2 ^ 64 ≤ (E p).fuel) :
    (∀ (s : Store σ) (progs : ι → List Op) (key : CStr) (is : List ι), Reached E₀ s →
      WritersOf key progs →
      Along (Config.step E₀) (fun i c => c.Fits E₀ i ∧ c.Apart key i ∧ c.Gentle key i) (fun _ => True) is
        (Config.start s progs) →
      ∃ c, sched (Config.step E₀) is (Config.start s progs) = some c ∧
        ((∀ j, (c.thread j).Done) → ∀ j (n : ℕ) op out, (progs j)[n]? = some op →
          op.key? = some key → (c.thread j).outs[n]? = some out → out.rc = .ok → ∀ addr,
          ∃ ans s', (Op.read key (op.startsAt out) op.payload.length addr).call E₀ c.store =
              some (ans, s') ∧
            (clean s'.os ∨ ans.rc = .ok → ans = { rc := .ok, data := op.payload }))) ∧
    ∀ (s : Store σ) (os : σ) (progs : π → ι → List Api) (key : CStr) (ms : List (Event π ι)),
      Reached E₀ s → s.o.parallel ≠ .shared → Few E₀ s → closeStore E₀ s true = some (.ok, os) →
      Writers key progs →
      Along (World.step E) World.Spread (fun _ => True) ms (World.start os progs) →
      ∃ w, sched (World.step E) ms (World.start os progs) = some w ∧
        ∀ p i, ∀ m ∈ ((w.proc p).thread i).made, m.2.rc = .ok → ∀ off b addr,
          m.1 = .plain (.write key off b addr) → ∀ q t, (w.proc q).store = some t → ∀ addr',
          ∃ ans t', (Op.read key off b.length addr').call (E q) { t with os := w.os } = some (ans, t') ∧
            (clean t'.os ∨ ans.rc = .ok → ans = { rc := .ok, data := b }) := by
  refine ⟨fun s progs key is hs hw h => ?_, fun s₀ os progs key ms hs hsh hfew hclose hw h => ?_⟩
  · have hset := hs.settled hF₀
    exact writes_land hF₀ hset.sound hset.slack hset.idle hw is h
  · obtain ⟨rc, os', h1, -, h2⟩ := (hs.settled hF₀).kept hF₀ hsh hfew
    rw [hclose] at h1
    cases h1
    obtain ⟨s, -, -, h4, hc, -⟩ := h2 rfl
    have hf := h4.stored rfl
    obtain ⟨w, h6, h7⟩ := sched_of_along (world_lands hF hc hf hw) ms (World.Lands.start hw rfl) h
    refine ⟨w, h6, fun p i m hm hok off b addr he q t ht addr' => ?_⟩
    have hlay := (h7.stands.proc q).layout t ht
    have hplug : Libspill.Stands s { t with os := w.os } :=
      ⟨hlay.shared, hlay.wf, hlay.al, hlay.rows, hlay.plain⟩
    have hlen : s.al.fileEnd ≤ (file w.os).len := by
      have := hf.len
      rw [h7.stands.file.len]
      omega
    exact read_lies (hF q) hc hplug hlen (h7.lies p i m hm hok off b addr he) addr'

end Worlds

/-! ## Two writes in one block -/

instance [Fintype π] [Fintype ι] (m : Event π ι) (w : World σ π ι) : Decidable (w.Spread m) :=
  inferInstanceAs (Decidable (_ ∧ _))

/-- Two writers of one block, each of a byte of its own. -/
def blockProgs : Bool → List Op
  | false => [.write keyA 0 [7] 0]
  | true => [.write keyA 1 [8] 0]

theorem blockProgs_writers : WritersOf keyA blockProgs := by
  have hkey : ∀ i, ∀ op ∈ blockProgs i, op.key? = some keyA := by decide
  exact ⟨by decide, fun i _ _ op hop _ _ _ => Or.inl (hkey i op hop)⟩

/-- **Two writes in one block**: both read the block, and what the second one writes back has the first
one's byte as it was before. Both calls answer `LS_OK`. -/
theorem direct_loses : WritersOf keyA blockProgs ∧ ∃ c,
    Along (Config.step Env.ample) (Config.Apart keyA) (fun c => c.store.direct = true ∧ c.store.os.ok = true)
      [false, true, false, true, false, true, false, true, false, true]
      (Config.start (Disk.newStore { directIo := true }) blockProgs) ∧
    sched (Config.step Env.ample) [false, true, false, true, false, true, false, true, false, true]
      (Config.start (Disk.newStore { directIo := true }) blockProgs) = some c ∧
    (∀ j, (c.thread j).Done) ∧ ends keyA 2 c = ([.ok], [.ok], some [0, 8]) := by
  have h1 : Along (Config.step Env.ample) (Config.Apart keyA)
      (fun c => c.store.direct = true ∧ c.store.os.ok = true)
      [false, true, false, true, false, true, false, true, false, true]
      (Config.start (Disk.newStore { directIo := true }) blockProgs) := by decide +kernel
  have h2 : (sched (Config.step Env.ample) [false, true, false, true, false, true, false, true, false, true]
      (Config.start (Disk.newStore { directIo := true }) blockProgs)).map (fun c =>
        ([false, true].all fun j => (c.thread j).todo.isEmpty && (c.thread j).cur.isNone,
          ends keyA 2 c)) = some (true, [.ok], [.ok], some [0, 8]) := by decide +kernel
  obtain ⟨c, h3, h4⟩ := Option.map_eq_some_iff.mp h2
  rw [Prod.mk.injEq] at h4
  refine ⟨blockProgs_writers, c, h1, h3, fun j => ?_, h4.2⟩
  have hj := List.all_eq_true.mp h4.1 j (by cases j <;> decide)
  rw [Bool.and_eq_true, List.isEmpty_iff, Option.isNone_iff_eq_none] at hj
  exact hj

/-- A record of two bytes is kept. -/
def keptPair : List Op := [.write keyA 0 [1, 2] 0]

/-- Two processes, one thread of each writes a byte of the record. -/
def pairProcs : Bool → Bool → List Api
  | false, false => [.plain (.write keyA 0 [7] 0)]
  | true, false => [.plain (.write keyA 1 [8] 0)]
  | _, true => []

theorem pairProcs_writers : Writers keyA pairProcs := by
  refine ⟨fun p i a ha => ?_, fun p i => ?_, fun p i q j hne a ha b hb => ?_⟩
  · cases i <;> cases p
    · exact ⟨0, [7], 0, List.mem_singleton.mp ha, by decide, by decide⟩
    · exact ⟨1, [8], 0, List.mem_singleton.mp ha, by decide, by decide⟩
    · cases ha
    · cases ha
  · cases i <;> cases p
    · exact List.pairwise_singleton _ _
    · exact List.pairwise_singleton _ _
    · exact .nil
    · exact .nil
  · cases i with
    | true => cases p <;> cases ha
    | false =>
      cases j with
      | true => cases q <;> cases hb
      | false =>
        cases p <;> cases q
        · exact absurd rfl (hne.resolve_left (by simp))
        · rw [List.mem_singleton.mp ha, List.mem_singleton.mp hb]
          rintro x hx y hy hm
          cases hx
          cases hy
          exact absurd hm.2.2.2 (by decide)
        · rw [List.mem_singleton.mp ha, List.mem_singleton.mp hb]
          rintro x hx y hy hm
          cases hx
          cases hy
          exact absurd hm.2.2.1 (by decide)
        · exact absurd rfl (hne.resolve_left (by simp))

/-- Both open the file with direct I/O, and write one after the other. -/
def pairMoves : List (Event Bool Bool) :=
  [.opens false { parallel := .shared, directIo := true },
    .opens true { parallel := .shared, directIo := true }] ++
  List.replicate 5 (.steps false false) ++ List.replicate 5 (.steps true false)

/-- The two writers one after the other, in one process and in two. -/
theorem direct_writes_land_two :
    (∃ c, sched (Config.step Env.ample) [false, false, false, false, false, true, true, true, true, true]
        (Config.start (Disk.newStore { directIo := true }) blockProgs) = some c ∧
      ((∀ j, (c.thread j).Done) → ∀ j (n : ℕ) op out, (blockProgs j)[n]? = some op →
        op.key? = some keyA → (c.thread j).outs[n]? = some out → out.rc = .ok → ∀ addr,
        ∃ ans s', (Op.read keyA (op.startsAt out) op.payload.length addr).call Env.ample c.store =
            some (ans, s') ∧
          (s'.os.ok = true ∨ ans.rc = .ok → ans = { rc := .ok, data := op.payload }))) ∧
    ∃ (os : Disk) (w : World Disk Bool Bool),
      sched (World.step fun _ => Env.ample) pairMoves (World.start os pairProcs) = some w ∧
        ∀ p i, ∀ m ∈ ((w.proc p).thread i).made, m.2.rc = .ok → ∀ off b addr,
          m.1 = .plain (.write keyA off b addr) → ∀ q t, (w.proc q).store = some t → ∀ addr',
          ∃ ans t', (Op.read keyA off b.length addr').call Env.ample { t with os := w.os } = some (ans, t') ∧
            (t'.os.ok = true ∨ ans.rc = .ok → ans = { rc := .ok, data := b }) := by
  have hF : 2 ^ 64 ≤ Env.ample.fuel := Nat.le_refl _
  obtain ⟨hone, hall⟩ := direct_writes_land (σ := Disk) (π := Bool) (ι := Bool) (E := fun _ => Env.ample)
    hF fun _ => hF
  constructor
  · have hs : Reached Env.ample (Disk.newStore { directIo := true }) :=
      reached_newStore rfl (by decide)
    have hmild : Along (Config.step Env.ample) (Config.Mild keyA) (fun _ => True)
        [false, false, false, false, false, true, true, true, true, true]
        (Config.start (Disk.newStore { directIo := true }) blockProgs) := by decide +kernel
    exact hone _ _ _ _ hs blockProgs_writers (along_kind hF (hs.settled hF) blockProgs_writers hmild)
  · have hrun : ((Disk.session {} keptPair Disk.blank).map fun q => (q.1.o, fewExtents q.1,
        decide (Along (World.step fun _ => Env.ample) World.Spread (fun _ => True) pairMoves
          (World.start q.2 pairProcs)))) = some ({}, true, true) := by decide +kernel
    obtain ⟨⟨t, d⟩, h1, hrun⟩ := Option.map_eq_some_iff.mp hrun
    simp only [Prod.mk.injEq] at hrun
    obtain ⟨s₀, outs₀, b1, b2, b3⟩ := session_eq_some h1
    have hs₀ : Reached Env.ample s₀ := .opened rfl b1
    have hfit : FitsRun Env.ample keptPair s₀ :=
      ⟨⟨by decide, by decide, fun _ => roomFits_of_le hF (hs₀.settled hF).sound (by decide)⟩,
        fun _ _ _ => trivial⟩
    have ht : Reached Env.ample t := hs₀.runOps hfit b2
    obtain ⟨w, h2, h3⟩ := hall t d pairProcs keyA pairMoves ht (by rw [hrun.1]; decide)
      (few_of_fewExtents (ht.settled hF) hrun.2.1) b3 pairProcs_writers (of_decide_eq_true hrun.2.2)
    exact ⟨d, w, h2, h3⟩

end Libspill
