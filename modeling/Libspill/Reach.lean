import Libspill.Accumulate

set_option autoImplicit false

/-!
# What a program of one thread reaches

The stores that sessions lead to when the calls are the plain ones, the vectored ones and
`ls_accumulate`, in any mode, and what the vectored calls and `ls_accumulate` do there.

* `Reached`, `Reached.settled`: every store that is reached is settled.
* `runOps_fits`: a sequence of plain calls, against the reference map.
* **`vectored_as_plain`**: `ls_writev` and `ls_readv` against the plain calls in list order.
* `vectored_differ`: a shared store refuses a list whole.
* **`accumulate_at_once`**: when the pieces of `ls_accumulate` show.
-/

namespace Libspill

variable {σ : Type} [HonestOs σ] {E : Env}

open HonestOs (clean file)

/-- The stores that a program of one thread leads to. No tail wraps on the way, and the tables of
contents that are written can say how many extents there are. -/
inductive Reached (E : Env) : Store σ → Prop where
  | opened {o : Opts} {os : σ} {s : Store σ} : (file os).len = 0 → lsOpen E o os = some (.ok s) →
      Reached E s
  | called {s s' : Store σ} {op : Op} {out : Out} : Reached E s → op.Fits E s →
      op.call E s = some (out, s') → Reached E s'
  | vectored {s s' : Store σ} {key : CStr} {segs : List Seg} {write : Bool}
      {a : Rc × List (List UInt8)} : Reached E s → Segs64 segs →
      (write = true → RoomFits E s key (Entry.top (segWrites segs))) →
      segv E s key segs write = some (a, s') → Reached E s'
  | accumulated {s s' : Store σ} {key : CStr} {off tmp : ℕ} {buf : List UInt8} {op : Option Reduce}
      {rc : Rc} : Reached E s → (Op.write key off buf tmp).Fits E s →
      lsAccumulate E s key off buf op tmp = some (rc, s') → Reached E s'
  | kept {s s' : Store σ} {o : Opts} {os : σ} : Reached E s → s.o.parallel ≠ .shared → Few E s →
      closeStore E s true = some (.ok, os) → lsOpen E o os = some (.ok s') → Reached E s'

section

variable {s s' : Store σ} {key : CStr} {segs : List Seg}

theorem Next.refl (h : Settled s) : Next s s := ⟨h, ⟨rfl, rfl⟩, id⟩

/-- A segment that is not right, or none. -/
theorem segs_error_or (segs : List Seg) :
    (∀ g ∈ segs, g.error = none) ∨ ∃ rc, segs.findSome? Seg.error = some rc := by
  cases h : segs.findSome? Seg.error with
  | none => exact Or.inl (List.findSome?_eq_none_iff.mp h)
  | some rc => exact Or.inr ⟨rc, rfl⟩

/-! ## Vectored calls that are refused -/

theorem segv_badKey (hkey : lsKeyOk key = false) (write : Bool) :
    segv E s key segs write = some ((.inval, []), s) := by
  rw [segv, if_pos (by simp [hkey])]

/-- A list with a segment that is not right. -/
theorem segv_error (h64 : Segs64 segs) {rc : Rc} (hkey : lsKeyOk key = true)
    (h : segs.findSome? Seg.error = some rc) (write : Bool) :
    segv E s key segs write = some ((rc, []), s) := by
  have hne : segs.isEmpty = false := by
    cases segs with
    | nil => cases h
    | cons => rfl
  rw [segv, if_neg (by simp [hkey]), hne, if_neg (by decide), segvCheck_error h64 h 0]

/-- A list that is right, and refused by the first critical section. -/
theorem segv_refused (hkey : lsKeyOk key = true) (hne : segs ≠ [])
    (hok : ∀ g ∈ segs, g.error = none) {write : Bool} {rc : Rc}
    (h : segvBegin E s key (Entry.top (segWrites segs)) write = some (.error rc, s)) :
    segv E s key segs write = some ((rc, []), s) := by
  have hemp : segs.isEmpty = false := by simpa using hne
  have hcheck := segvCheck_ok hok 0
  rw [Nat.max_eq_right (Nat.zero_le _)] at hcheck
  rw [segv, if_neg (by simp [hkey]), hemp, if_neg (by decide), hcheck]
  dsimp only
  rw [h]

theorem segvBegin_frozen {hi : ℕ} (h : frozen s key hi = true) :
    segvBegin E s key hi true = some (.error .mode, s) := by
  rw [segvBegin, if_pos rfl, if_pos h]

theorem segvBegin_noKey {hi : ℕ} (h : s.find key = none) :
    segvBegin E s key hi false = some (.error .nokey, s) := by
  rw [segvBegin, if_neg (by decide), h, Option.isNone_none, if_pos rfl]

theorem segvBegin_past {fin : ℕ} {r : Rec} (h : s.find key = some r) (hlt : r.size < fin) :
    segvBegin E s key fin false = some (.error .range, s) := by
  rw [segvBegin, if_neg (by decide), h, if_neg (by simp), recAt_of_find h, if_pos hlt]

/-! ## Every store that is reached -/

/-- Whatever the segments are, a vectored call leaves a settled store. -/
theorem segv_next (hF : 2 ^ 64 ≤ E.fuel) (h : Settled s) (h64 : Segs64 segs) (write : Bool)
    (hfit : write = true → RoomFits E s key (Entry.top (segWrites segs))) :
    ∃ a s', segv E s key segs write = some (a, s') ∧ Next s s' := by
  cases hkey : lsKeyOk key with
  | false => exact ⟨_, s, segv_badKey hkey write, .refl h⟩
  | true =>
  by_cases hne : segs = []
  · refine ⟨(.ok, []), s, ?_, .refl h⟩
    rw [segv, if_neg (by simp [hkey]), hne, List.isEmpty_nil, if_pos rfl]
  rcases segs_error_or segs with hok | ⟨rc, herr⟩
  swap
  · exact ⟨_, s, segv_error h64 hkey herr write, .refl h⟩
  cases write with
  | true =>
    cases hfz : frozen s key (Entry.top (segWrites segs)) with
    | true => exact ⟨_, s, segv_refused hkey hne hok (segvBegin_frozen hfz), .refl h⟩
    | false =>
      obtain ⟨a, s', h1, h2, -⟩ := writev_spec hF h hkey hne hok hfz (hfit rfl)
      exact ⟨a, s', h1, h2⟩
  | false =>
    cases hk : s.find key with
    | none => exact ⟨_, s, segv_refused hkey hne hok (segvBegin_noKey hk), .refl h⟩
    | some r =>
      by_cases htop : Entry.top (segWrites segs) ≤ r.size
      · obtain ⟨a, s', h1, h2, -⟩ := readv_spec hF h hkey hne hok hk htop
        exact ⟨a, s', h1, h2⟩
      · exact ⟨_, s, segv_refused hkey hne hok (segvBegin_past hk (by omega)), .refl h⟩

/-- Whatever its arguments are, `ls_accumulate` leaves a settled store. -/
theorem accumulate_next (hF : 2 ^ 64 ≤ E.fuel) (h : Settled s) {off tmp : ℕ} {buf : List UInt8}
    (op : Option Reduce) (hfit : (Op.write key off buf tmp).Fits E s) :
    ∃ rc s', lsAccumulate E s key off buf op tmp = some (rc, s') ∧ Next s s' := by
  obtain ⟨h1, h2, h3⟩ := hfit
  cases op with
  | none => exact ⟨_, s, rfl, .refl h⟩
  | some op =>
    by_cases hkey : lsKeyOk key = true
    swap
    · exact ⟨_, s, by rw [lsAccumulate, if_pos (by simp [hkey])], .refl h⟩
    by_cases hmode : s.o.mode = .explicit
    swap
    · exact ⟨_, s, by rw [lsAccumulate, if_neg (by simp [hkey]), if_pos hmode], .refl h⟩
    by_cases hlt : off + buf.length < 2 ^ 64
    swap
    · refine ⟨.range, s, ?_, .refl h⟩
      rw [lsAccumulate, if_neg (by simp [hkey]), if_neg (by simp [hmode]),
        if_pos (by rw [add64_lt_iff h1 h2]; omega)]
    by_cases hne : buf = []
    · refine ⟨.ok, s, ?_, .refl h⟩
      rw [lsAccumulate, if_neg (by simp [hkey]), if_neg (by simp [hmode]), add64_eq hlt,
        if_neg (by omega), if_pos (by rw [hne]; rfl)]
    cases hfz : frozen s key (off + buf.length) with
    | true =>
      refine ⟨.mode, s, ?_, .refl h⟩
      have hpos := List.length_pos_iff.mpr hne
      rw [lsAccumulate, if_neg (by simp [hkey]), if_neg (by simp [hmode]), add64_eq hlt,
        if_neg (by omega), if_neg (by omega), if_pos hfz]
    | false =>
      obtain ⟨-, -, -, rc, s', h4, h5, -⟩ :=
        accumulate_spec hF h hkey hmode hne hlt hfz (h3 hlt) op tmp
      exact ⟨rc, s', h4, h5⟩

/-- **Every store that is reached is settled.** -/
theorem Reached.settled (hF : 2 ^ 64 ≤ E.fuel) (h : Reached E s) : Settled s := by
  induction h with
  | opened hfile hopen => exact settled_opened hfile hopen
  | called _ hfit hcall ih => exact ih.called hF hfit hcall
  | @vectored s s' key segs write a _ h64 hfit hcall ih =>
    obtain ⟨a', s₁, h1, h2⟩ := segv_next hF ih h64 write hfit
    rw [hcall] at h1
    cases h1
    exact h2.settled
  | @accumulated s s' key off tmp buf op rc _ hfit hcall ih =>
    obtain ⟨rc', s₁, h1, h2⟩ := accumulate_next hF ih op hfit
    rw [hcall] at h1
    cases h1
    exact h2.settled
  | kept _ hsh hfew hclose hopen ih =>
    obtain ⟨rc, os, h1, -, h2⟩ := ih.kept hF hsh hfew
    rw [hclose] at h1
    cases h1
    obtain ⟨s₁, -, h4, -, h5, h6⟩ := h2 rfl
    obtain ⟨r, h7, h8⟩ := h6 _ (optsRefused_of_lsOpen hopen)
    rw [hopen] at h7
    cases h7
    exact (h8.reopened _ rfl).settled h5 (h4.kept.slack ih.slack)

/-! ## Sequences of plain calls -/

/-- Every call of a sequence has 64-bit arguments, and no tail wraps when its turn comes. -/
def FitsRun (E : Env) : List Op → Store σ → Prop
  | [], _ => True
  | op :: ops, s => op.Fits E s ∧ ∀ out s', op.call E s = some (out, s') → FitsRun E ops s'

/-- **A sequence of calls**, against the reference map: by induction on the calls. -/
theorem runOps_fits (hF : 2 ^ 64 ≤ E.fuel) {ops : List Op} (h : Settled s) (hfit : FitsRun E ops s) :
    ∃ outs s', runOps E ops s = some (outs, s') ∧ Next s s' ∧ (clean s'.os →
      outs = (refRun s.shared ops s.map).1 ∧ s'.map = (refRun s.shared ops s.map).2) := by
  induction ops generalizing s with
  | nil => exact ⟨[], s, rfl, .refl h, fun _ => ⟨rfl, rfl⟩⟩
  | cons op ops ih =>
    obtain ⟨hop, hrest⟩ := hfit
    obtain ⟨out, s₁, h1, h2⟩ := call_spec hF h.sound hop
    have h₁ := h.called hF hop h1
    obtain ⟨outs, s', g1, g2, g3⟩ := ih h₁ (hrest out s₁ h1)
    have hsh : s₁.shared = s.shared := by rw [Store.shared, Store.shared, h2.opts.1]
    refine ⟨out :: outs, s', by rw [runOps, h1]; dsimp only; rw [g1], ⟨g2.settled, ?_, fun hc =>
      h2.clean (g2.clean hc)⟩, fun hc => ?_⟩
    · exact ⟨g2.opts.1.trans h2.opts.1, g2.opts.2.trans h2.opts.2⟩
    · obtain ⟨e1, e2⟩ := h2.map (Or.inl (g2.clean hc)) h.slack s.map (abs_map h.sound.laid.records h.slack)
      have hmap : s₁.map = (op.refStep s.shared s.map).2 := (abs_unique h₁.sound.laid.records e2).symm
      obtain ⟨e3, e4⟩ := g3 hc
      rw [hsh, hmap] at e3 e4
      exact ⟨by rw [refRun, e3, e1], e4⟩

/-- The calls of a program. -/
theorem Reached.runOps {ops : List Op} {outs : List Out} (h : Reached E s) (hfit : FitsRun E ops s)
    (hrun : Libspill.runOps E ops s = some (outs, s')) : Reached E s' := by
  induction ops generalizing s outs with
  | nil =>
    cases hrun
    exact h
  | cons op ops ih =>
    rw [Libspill.runOps] at hrun
    cases hcall : op.call E s with
    | none =>
      rw [hcall] at hrun
      cases hrun
    | some a =>
      obtain ⟨out, s₁⟩ := a
      rw [hcall] at hrun
      dsimp only at hrun
      cases hrest : Libspill.runOps E ops s₁ with
      | none =>
        rw [hrest] at hrun
        cases hrun
      | some b =>
        rw [hrest] at hrun
        cases hrun
        exact ih (h.called hfit.1 hcall) (hfit.2 out s₁ hcall) hrest

/-- `ls_write` once for each segment. -/
def plainWrites (key : CStr) (segs : List Seg) : List Op :=
  segs.map fun g => .write key g.off g.bytes g.addr

/-- `ls_read` once for each segment. -/
def plainReads (key : CStr) (segs : List Seg) : List Op :=
  segs.map fun g => .read key g.off g.len g.addr

/-- The plain writes, on the map. -/
theorem refRun_plainWrites {sh : Bool} {m : RefMap} (hkey : lsKeyOk key = true) (hne : segs ≠ [])
    (hok : ∀ g ∈ segs, g.error = none)
    (hsh : sh = true → ∃ e, m.lookup key = some e ∧ Entry.top (segWrites segs) ≤ e.bytes.length) :
    refRun sh (plainWrites key segs) m = (segs.map fun _ => { rc := .ok },
      m.put key (some (((m.lookup key).getD {}).writes (segWrites segs)))) := by
  induction segs generalizing m with
  | nil => exact absurd rfl hne
  | cons g segs ih =>
    have hg := hok g List.mem_cons_self
    have hlen := Seg.length_bytes hg
    have hlt := Seg.fin_lt hg
    have hcons : segWrites (g :: segs) = (g.off, g.bytes) :: segWrites segs := rfl
    rw [hcons, Entry.top] at hsh
    dsimp only at hsh
    have hone : (Op.write key g.off g.bytes g.addr).refStep sh m =
        ({ rc := .ok }, m.put key (some (((m.lookup key).getD {}).write g.off g.bytes))) := by
      have hfz : ¬ (sh && (m.lookup key).all fun e =>
          decide (g.off + g.bytes.length > e.bytes.length)) = true := by
        intro hc
        rw [Bool.and_eq_true] at hc
        obtain ⟨e, he, hle⟩ := hsh hc.1
        rw [he, Option.all_some, decide_eq_true_eq] at hc
        omega
      rw [refStep_of_key rfl, Op.apply, if_neg (by simp [hkey]), if_neg (by omega), if_neg hfz]
    rw [plainWrites, List.map_cons, refRun, hone, hcons, Entry.writes, List.foldl_cons,
      ← Entry.writes]
    by_cases hnil : segs = []
    · subst hnil
      rfl
    dsimp only
    rw [← plainWrites, ih hnil (fun g hg => hok g (List.mem_cons_of_mem _ hg)) fun h => ?_]
    · rw [RefMap.lookup_put, if_pos rfl, RefMap.put_put]
      rfl
    · obtain ⟨e, he, hle⟩ := hsh h
      refine ⟨_, by rw [RefMap.lookup_put, if_pos rfl], ?_⟩
      rw [he, Option.getD_some, Entry.length_write]
      omega

/-- The plain reads of bytes that the record has, on the map. -/
theorem refRun_plainReads {sh : Bool} {m : RefMap} {e : Entry} (hkey : lsKeyOk key = true)
    (hok : ∀ g ∈ segs, g.error = none) (he : m.lookup key = some e)
    (htop : Entry.top (segWrites segs) ≤ e.bytes.length) :
    refRun sh (plainReads key segs) m =
      (segs.map fun g => { rc := .ok, data := slice e.byte g.off g.len }, m) := by
  induction segs with
  | nil => rfl
  | cons g segs ih =>
    have hg := hok g List.mem_cons_self
    have hlt := Seg.fin_lt hg
    have hcons : segWrites (g :: segs) = (g.off, g.bytes) :: segWrites segs := rfl
    rw [hcons, Entry.top, Seg.length_bytes hg] at htop
    dsimp only at htop
    have happ : (Op.read key g.off g.len g.addr).apply sh (some e) =
        ({ rc := .ok, data := slice e.byte g.off g.len }, some e) := by
      simp only [Op.apply, hkey, Bool.not_true, Bool.false_eq_true, if_false,
        if_neg (show ¬ g.off + g.len ≥ 2 ^ 64 by omega),
        if_neg (show ¬ g.off + g.len > e.bytes.length by omega),
        Entry.slice_byte (show g.off + g.len ≤ e.bytes.length by omega)]
    have hone : (Op.read key g.off g.len g.addr).refStep sh m =
        ({ rc := .ok, data := slice e.byte g.off g.len }, m) := by
      rw [refStep_of_key rfl, he, happ]
      dsimp only
      rw [← he, RefMap.put_lookup]
    rw [plainReads, List.map_cons, refRun, hone, ← plainReads]
    dsimp only
    rw [ih (fun g hg => hok g (List.mem_cons_of_mem _ hg)) (by omega)]
    rfl

/-! ## Vectored calls as plain calls -/

/-- What `ls_writev` and `ls_readv` do with a list of segments, against the plain calls in list
order. -/
structure AsPlain (E : Env) (s : Store σ) (key : CStr) (segs : List Seg) : Prop where
  /-- Segments that are right leave the keys, the sizes and the bytes that the plain writes leave. -/
  writev : lsKeyOk key = true → (∀ g ∈ segs, g.error = none) →
    frozen s key (Entry.top (segWrites segs)) = false →
    RoomFits E s key (Entry.top (segWrites segs)) → FitsRun E (plainWrites key segs) s →
    ∃ a s₁ outs s₂, lsWritev E s key segs = some (a, s₁) ∧
      runOps E (plainWrites key segs) s = some (outs, s₂) ∧ (clean s₁.os → clean s₂.os →
        a.1 = .ok ∧ (∀ out ∈ outs, out.rc = .ok) ∧ s₁.map = s₂.map)
  /-- Segments that the record has fill the buffers as the plain reads do. -/
  readv : lsKeyOk key = true → (∀ g ∈ segs, g.error = none) → ∀ r, s.find key = some r →
    Entry.top (segWrites segs) ≤ r.size →
    ∃ a s₁ outs s₂, lsReadv E s key segs = some (a, s₁) ∧
      runOps E (plainReads key segs) s = some (outs, s₂) ∧ (clean s₁.os → clean s₂.os →
        a = (.ok, outs.map Out.data) ∧ (∀ out ∈ outs, out.rc = .ok) ∧
        s₁.map = s.map ∧ s₂.map = s.map)
  /-- A bad key is refused before anything has changed. -/
  badKey : lsKeyOk key = false → lsWritev E s key segs = some ((.inval, []), s) ∧
    lsReadv E s key segs = some ((.inval, []), s)
  /-- So is a segment that is not right. -/
  badSeg : lsKeyOk key = true → ∀ rc, segs.findSome? Seg.error = some rc →
    lsWritev E s key segs = some ((rc, []), s) ∧ lsReadv E s key segs = some ((rc, []), s)
  /-- So are reads where there is no record. -/
  noKey : lsKeyOk key = true → (∀ g ∈ segs, g.error = none) → s.find key = none →
    lsReadv E s key segs = some ((.nokey, []), s)
  /-- So are reads of which one ends past the record. -/
  past : lsKeyOk key = true → (∀ g ∈ segs, g.error = none) → ∀ r, s.find key = some r →
    r.size < Entry.top (segWrites segs) → lsReadv E s key segs = some ((.range, []), s)
  /-- So are writes of which one is past the frozen layout of a shared store. -/
  frozen : lsKeyOk key = true → (∀ g ∈ segs, g.error = none) →
    frozen s key (Entry.top (segWrites segs)) = true → lsWritev E s key segs = some ((.mode, []), s)

/-- A frozen layout, and an end inside it. -/
theorem lookup_of_not_frozen (h : Records s) {fin : ℕ} (hfz : frozen s key fin = false)
    (hsh : s.shared = true) : ∃ e, s.map.lookup key = some e ∧ fin ≤ e.bytes.length := by
  have hp : s.o.parallel = .shared := of_decide_eq_true hsh
  rw [frozen, decide_eq_true hp, Bool.true_and, Bool.or_eq_false_iff] at hfz
  obtain ⟨r, hr⟩ := Option.isSome_iff_exists.mp (Option.isNone_eq_false_iff.mp hfz.1)
  refine ⟨s.entry r, by rw [lookup_map h, hr]; rfl, ?_⟩
  have := of_decide_eq_false hfz.2
  rw [recAt_of_find hr] at this
  rw [Store.entry, length_slice]
  omega

/-- **Vectored calls are the plain calls in list order**, and a list that is refused is refused
whole. -/
theorem vectored_as_plain (hF : 2 ^ 64 ≤ E.fuel) (h : Reached E s) (key : CStr) {segs : List Seg}
    (hne : segs ≠ []) (h64 : Segs64 segs) : AsPlain E s key segs := by
  have hset := h.settled hF
  have ha := abs_map hset.sound.laid.records hset.slack (D := Nowhere)
  refine ⟨fun hkey hok hfz hroom hfit => ?_, fun hkey hok r hk htop => ?_,
    fun hkey => ⟨segv_badKey hkey _, segv_badKey hkey _⟩,
    fun hkey rc hrc => ⟨segv_error h64 hkey hrc _, segv_error h64 hkey hrc _⟩,
    fun hkey hok hk => segv_refused hkey hne hok (segvBegin_noKey hk),
    fun hkey hok r hk hlt => segv_refused hkey hne hok (segvBegin_past hk hlt),
    fun hkey hok hfz => segv_refused hkey hne hok (segvBegin_frozen hfz)⟩
  · obtain ⟨a, s₁, h1, h2, h3⟩ := writev_spec hF hset hkey hne hok hfz hroom
    obtain ⟨outs, s₂, g1, -, g3⟩ := runOps_fits hF hset hfit
    refine ⟨a, s₁, outs, s₂, h1, g1, fun hc₁ hc₂ => ?_⟩
    obtain ⟨h4, h5⟩ := h3 (Or.inl hc₁)
    obtain ⟨g4, g5⟩ := g3 hc₂
    rw [refRun_plainWrites hkey hne hok (lookup_of_not_frozen hset.sound.laid.records hfz)] at g4 g5
    refine ⟨h4, fun out hout => ?_, ?_⟩
    · rw [g4] at hout
      obtain ⟨g, -, rfl⟩ := List.mem_map.mp hout
      rfl
    · rw [g5, abs_unique h2.settled.sound.laid.records (h5 s.map ha)]
  · obtain ⟨a, s₁, h1, h2, h3⟩ := readv_spec hF hset hkey hne hok hk htop
    have hfit : ∀ (l : List Seg), Segs64 l → ∀ t : Store σ, FitsRun E (plainReads key l) t := by
      intro l
      induction l with
      | nil => exact fun _ _ => trivial
      | cons g l ih =>
        exact fun hl t => ⟨hl g List.mem_cons_self,
          fun _ t' _ => ih (fun g hg => hl g (List.mem_cons_of_mem _ hg)) t'⟩
    obtain ⟨outs, s₂, g1, -, g3⟩ := runOps_fits hF hset (hfit segs h64 s)
    refine ⟨a, s₁, outs, s₂, h1, g1, fun hc₁ hc₂ => ?_⟩
    obtain ⟨h4, h5⟩ := h3 (Or.inl hc₁)
    obtain ⟨g4, g5⟩ := g3 hc₂
    have hent : s.map.lookup key = some (s.entry r) := by
      rw [lookup_map hset.sound.laid.records, hk]
      rfl
    rw [refRun_plainReads hkey hok hent (by rw [Store.entry, length_slice]; exact htop)] at g4 g5
    refine ⟨?_, fun out hout => ?_, (abs_unique h2.settled.sound.laid.records (h5 s.map ha)).symm, g5⟩
    · rw [h4, g4, List.map_map]
      congr 1
      refine List.map_congr_left fun g hg => ?_
      have hb : ∀ i, s.content r i = (s.entry r).byte i := fun i =>
        (matches_entry hset.slack hk (d := fun _ => False)).bytes i id
      exact slice_congr fun i _ => hb _
    · rw [g4] at hout
      obtain ⟨g, -, rfl⟩ := List.mem_map.mp hout
      rfl

/-- Segments that end below `2 ^ 63` never wrap. -/
theorem fitsRun_plainWrites (hF : 2 ^ 64 ≤ E.fuel) (h : Settled s) (hok : ∀ g ∈ segs, g.error = none)
    (htop : Entry.top (segWrites segs) ≤ 2 ^ 63) : FitsRun E (plainWrites key segs) s := by
  induction segs generalizing s with
  | nil => trivial
  | cons g segs ih =>
    have hcons : segWrites (g :: segs) = (g.off, g.bytes) :: segWrites segs := rfl
    rw [hcons, Entry.top] at htop
    dsimp only at htop
    have hfit : (Op.write key g.off g.bytes g.addr).Fits E s :=
      ⟨by omega, by omega, fun _ => roomFits_of_le hF h.sound (by omega)⟩
    exact ⟨hfit, fun out s' hcall => ih (h.called hF hfit hcall)
      (fun g hg => hok g (List.mem_cons_of_mem _ hg)) (by omega)⟩

end

/-! ## On a disk -/

/-- No record has more extents than the table of contents can say. -/
def fewExtents (s : Store Disk) : Bool :=
  (lsSpillAll Env.ample s).all fun q => q.2.recs.all fun r => r.next < 2 ^ 32

theorem few_of_fewExtents {s : Store Disk} (h : Settled s) (hfew : fewExtents s = true) :
    Few Env.ample s := by
  intro s₁ h₁ k r hk
  obtain ⟨rc, s₂, h₂, hev⟩ := lsSpillAll_spec (show 2 ^ 64 ≤ Env.ample.fuel from Nat.le_refl _) h.sound
  rw [h₁] at h₂
  cases h₂
  rw [fewExtents, h₁, Option.all_some, List.all_eq_true] at hfew
  exact of_decide_eq_true (hfew r ((find_iff_mem hev.sound.laid.records.wf).mp hk).1)

/-- Two bytes, each in a segment of its own. -/
def twoSegs : List Seg := [⟨1, 1, some ⟨[8], rfl⟩, 0⟩, ⟨0, 1, some ⟨[7], rfl⟩, 0⟩]

theorem twoSegs_ok : (∀ g ∈ twoSegs, g.error = none) ∧ Segs64 twoSegs := by
  constructor <;> intro g hg <;> fin_cases hg <;> decide

theorem reached_newStore {o : Opts} (ho : optsRefused o = none) (hsh : o.parallel ≠ .shared) :
    Reached Env.ample (Disk.newStore o) := .opened rfl (Disk.lsOpen_blank _ ho hsh)

/-- **A shared store refuses a list whole** where the plain calls write the segments that are inside
the record. -/
theorem vectored_differ : ∃ (s s₁ s₂ : Store Disk) (a : Rc × List (List UInt8)) (outs : List Out),
    Reached Env.ample s ∧ lsKeyOk keyA = true ∧ (∀ g ∈ twoSegs, g.error = none) ∧ Segs64 twoSegs ∧
    lsWritev Env.ample s keyA twoSegs = some (a, s₁) ∧
    runOps Env.ample (plainWrites keyA twoSegs) s = some (outs, s₂) ∧
    s₁.os.ok = true ∧ s₂.os.ok = true ∧ s₁.map ≠ s₂.map := by
  have hrun : ((Disk.session {} [.write keyA 0 [1] 0] Disk.blank).bind fun q =>
      (lsOpen Env.ample { parallel := .shared } q.2).bind fun x => x.toOption.bind fun s =>
        (lsWritev Env.ample s keyA twoSegs).bind fun y =>
          (runOps Env.ample (plainWrites keyA twoSegs) s).map fun z =>
            (q.1.o, [fewExtents q.1, y.2.os.ok, z.2.os.ok],
              [(y.2.find keyA).map y.2.entry, (z.2.find keyA).map z.2.entry])) =
      some ({}, [true, true, true], [some ⟨[1], []⟩, some ⟨[7], []⟩]) := by decide +kernel
  obtain ⟨⟨t, d⟩, h1, hrun⟩ := Option.bind_eq_some_iff.mp hrun
  obtain ⟨x, h2, hrun⟩ := Option.bind_eq_some_iff.mp hrun
  obtain ⟨s, h3, hrun⟩ := Option.bind_eq_some_iff.mp hrun
  obtain ⟨⟨a, s₁⟩, h4, hrun⟩ := Option.bind_eq_some_iff.mp hrun
  obtain ⟨⟨outs, s₂⟩, h5, hrun⟩ := Option.map_eq_some_iff.mp hrun
  simp only [Prod.mk.injEq, List.cons.injEq, and_true] at hrun
  obtain ⟨c1, ⟨c2, c3, c4⟩, c5, c6⟩ := hrun
  obtain ⟨s₀, outs₀, b1, b2, b3⟩ := session_eq_some h1
  have hx : x = .ok s := by
    cases x with
    | error e => cases h3
    | ok y => exact congrArg _ (Option.some.inj h3)
  subst hx
  have hF : 2 ^ 64 ≤ Env.ample.fuel := Nat.le_refl _
  have hs₀ : Reached Env.ample s₀ := .opened rfl b1
  have hfit : FitsRun Env.ample [.write keyA 0 [1] 0] s₀ :=
    ⟨⟨by decide, by decide, fun _ => roomFits_of_le hF (hs₀.settled hF).sound (by decide)⟩,
      fun _ _ _ => trivial⟩
  have ht : Reached Env.ample t := hs₀.runOps hfit b2
  have hs : Reached Env.ample s := ht.kept (by rw [c1]; decide)
    (few_of_fewExtents (ht.settled hF) c2) b3 h2
  have hset := hs.settled hF
  have hroom : RoomFits Env.ample s keyA (Entry.top (segWrites twoSegs)) :=
    roomFits_of_le hF hset.sound (by decide)
  have hplain : FitsRun Env.ample (plainWrites keyA twoSegs) s :=
    fitsRun_plainWrites hF hset twoSegs_ok.1 (by decide)
  obtain ⟨a', s₁', g1, g2⟩ := segv_next hF hset twoSegs_ok.2 true fun _ => hroom
  obtain ⟨outs', s₂', g3, g4, -⟩ := runOps_fits hF hset hplain
  rw [← lsWritev, h4] at g1
  rw [h5] at g3
  cases g1
  cases g3
  refine ⟨s, s₁, s₂, a, outs, hs, rfl, twoSegs_ok.1, twoSegs_ok.2, h4, h5, c3, c4, fun hmap => ?_⟩
  have hl₁ := lookup_map g2.settled.sound.laid.records keyA
  have hl₂ := lookup_map g4.settled.sound.laid.records keyA
  rw [hmap, hl₂, c5, c6] at hl₁
  exact absurd hl₁ (by decide)

theorem vectored_as_plain_two : ∃ a s₁ outs s₂,
    lsWritev Env.ample (Disk.newStore {}) keyA twoSegs = some (a, s₁) ∧
    runOps Env.ample (plainWrites keyA twoSegs) (Disk.newStore {}) = some (outs, s₂) ∧
    (s₁.os.ok = true → s₂.os.ok = true →
      a.1 = .ok ∧ (∀ out ∈ outs, out.rc = .ok) ∧ s₁.map = s₂.map) := by
  have hF : 2 ^ 64 ≤ Env.ample.fuel := Nat.le_refl _
  have h : Reached Env.ample (Disk.newStore {}) := reached_newStore rfl (by decide)
  have hset := h.settled hF
  exact (vectored_as_plain hF h keyA (show twoSegs ≠ [] by decide) twoSegs_ok.2).writev rfl
    twoSegs_ok.1 rfl (roomFits_of_le hF hset.sound (by decide))
    (fitsRun_plainWrites hF hset twoSegs_ok.1 (by decide))

end Libspill
