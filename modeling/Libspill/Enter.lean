import Libspill.Abs

set_option autoImplicit false

/-!
# Entering a call

The first critical section of each call, against the reference map: a call that is over has answered
what the map answers, and a call that goes on to a transfer has left the map's new entry except for
the bytes it is about to move.

* `Op.Fits`: the arguments are 64-bit numbers, and where the call asks for capacity no tail wraps.
* `Op.InPlace`: the call does not move the record.
* `Ready`: a transfer that will do its work.
* **`enter_spec`**.
-/

namespace Libspill

variable {σ : Type} [HonestOs σ] {E : Env}

open HonestOs (clean)

/-! ## Conditions -/

/-- The arguments are 64-bit numbers, and where the call asks for capacity no tail wraps. -/
def Op.Fits (E : Env) (s : Store σ) : Op → Prop
  | .write key off buf _ => off < 2 ^ 64 ∧ buf.length < 2 ^ 64 ∧
      (off + buf.length < 2 ^ 64 → RoomFits E s key (off + buf.length))
  | .read _ off n _ => off < 2 ^ 64 ∧ n < 2 ^ 64
  | .append key buf _ => buf.length < 2 ^ 64 ∧
      ((s.recAt key).size + buf.length < 2 ^ 64 →
        RoomFits E (lsTocFindOrInsert s key) key ((s.recAt key).size + buf.length))
  | .reserve key nbytes => nbytes < 2 ^ 64 ∧ RoomFits E s key nbytes
  | _ => True

/-- The call does not move the record it is about, and does not erase it. -/
def Op.InPlace (s : Store σ) : Op → Prop
  | .write key off buf _ => (s.recAt key).mem = none ∨ off + buf.length ≤ (s.recAt key).memCap
  | .append key buf _ =>
      (s.recAt key).mem = none ∨ (s.recAt key).size + buf.length ≤ (s.recAt key).memCap
  | .reserve key nbytes => (s.recAt key).mem = none ∨ nbytes ≤ (s.recAt key).memCap
  | .erase _ => False
  | _ => True

/-- A read does not meet the bytes `d`. -/
def Op.Clear (d : ℕ → Prop) : Op → Prop
  | .read _ off n _ => ∀ i, off ≤ i → i < off + n → ¬ d i
  | _ => True

theorem Op.clear_of_none {d : ℕ → Prop} (h : ∀ i, ¬ d i) (op : Op) : op.Clear d := by
  cases op with
  | read _ _ _ _ => exact fun i _ _ => h i
  | _ => trivial

/-- The bytes `D` and those of a transfer. -/
def withXfer (D : CStr → ℕ → Prop) (x : Xfer) : CStr → ℕ → Prop := fun k i =>
  D k i ∨ x.write = true ∧ k = x.key ∧ x.off ≤ i ∧ i < x.off + x.n

/-! ## Transfers that are ready to run -/

/-- A transfer under way: where its snapshot says the bytes are, what it will answer, and the bytes
it will have written. -/
structure Pend where
  x : Xfer
  pl : Place
  es : List Extent
  out : Out
  byte : ℕ → UInt8

/-- The footprint of a transfer. -/
def Pend.foot (direct : Bool) (pd : Pend) : Foot :=
  footOf direct pd.x.write pd.pl.mem (pd.pl.ext.getD 0) pd.es pd.x.off pd.x.n

/-- What a transfer has done when it ends, unless one of its calls has failed, as it then reports. -/
def Pend.Post (pd : Pend) (out : Out) (w : View) : Prop :=
  out.rc ≠ .ok ∧ w.dirty = true ∨ out = pd.out ∧ (pd.x.write = true → ∀ i l, pd.x.off ≤ i → i < pd.x.off + pd.x.n →
    locOf pd.pl.mem pd.es i = some l → w.byte l = pd.byte i)

/-- The transfer `p` is ready to run on the record `r`. -/
structure Ready (s : Store σ) (pd : Pend) (p : Io Out) (r : Rec) : Prop where
  find : s.find pd.x.key = some r
  place : pd.pl = lsPlaceOf r
  es : pd.es = s.exts r
  size : pd.x.off + pd.x.n ≤ r.size
  wp : ∀ v : View, (pd.foot s.direct).Sees s v → (∀ e ∈ pd.es, e.fin ≤ v.len) →
    p.wp (pd.foot s.direct).spec pd.Post v

theorem holds_of_find {s : Store σ} {key : CStr} {r : Rec} (h : Sound s) (hk : s.find key = some r)
    {off n len : ℕ} (hn : off + n ≤ r.size) (hlen : ∀ e ∈ s.exts r, e.fin ≤ len) (direct : Bool) :
    Holds direct r.mem (s.exts r) off n len := by
  have hok := h.laid.records.ok _ _ hk
  have hfe := fileEnd_lt h
  have hsub := exts_subset_live h.laid.records.wf hk
  have htot := total_exts_le h.laid hk
  rw [total_nil] at htot
  refine ⟨⟨pairwise_exts h.laid hk, fun _ e he => h.laid.tiled.live_al e (hsub he), fun e he => ?_,
    by omega⟩, fun hm => ?_, hlen⟩
  · exact (h.laid.tiled.live_bounds (hsub he)).2.trans_lt hfe
  · rw [← hok.extTotal]
    exact hn.trans (hok.noMem hm).2

/-- A write that is ready to run. -/
theorem ready_write (hF : 2 ^ 64 ≤ E.fuel) {s : Store σ} {key : CStr} {r : Rec} (h : Sound s)
    (hk : s.find key = some r) {off addr : ℕ} {buf : List UInt8} (hn : off + buf.length ≤ r.size)
    (k : Rc × List UInt8 → Out) (out : Out) (hout : ∀ b, k (.ok, b) = out)
    (herr : ∀ rc b, rc ≠ .ok → (k (rc, b)).rc ≠ .ok) :
    Ready s ⟨⟨key, true, off, buf.length⟩, lsPlaceOf r, s.exts r, out,
      fun i => buf.getD (i - off) 0⟩
      (lsScatter E s.direct (lsPlaceOf r) off buf.length true addr buf >>= fun a => .ret (k a)) r := by
  refine ⟨hk, rfl, rfl, hn, fun v hv hlen => Prog.wp_bind ?_⟩
  have hes : (s.exts r).length = (lsPlaceOf r).next := length_exts (h.laid.records.ok _ _ hk)
  refine Prog.wp_mono (fun a w hw => ?_) (wp_lsScatter_write (v := v) hF hes
    (holds_of_find h hk hn hlen s.direct))
  rcases hw with hw | ⟨ha, hw⟩
  · exact Or.inl ⟨herr a.1 a.2 hw.1, hw.2⟩
  · obtain ⟨rc, b⟩ := a
    dsimp only at ha
    subst ha
    refine Or.inr ⟨hout b, fun _ i l h1 h2 hl => ?_⟩
    dsimp only at h1 h2 hl ⊢
    have := hw.inside (i - off) l (by omega) (by rw [Nat.add_sub_cancel' h1]; exact hl)
    exact this

/-- A read that is ready to run. -/
theorem ready_read (hF : 2 ^ 64 ≤ E.fuel) {s : Store σ} {key : CStr} {r : Rec} (h : Sound s)
    (hk : s.find key = some r) {off n addr : ℕ} (hn : off + n ≤ r.size) :
    Ready s ⟨⟨key, false, off, n⟩, lsPlaceOf r, s.exts r,
      { rc := .ok, data := slice (s.content r) off n }, fun _ => 0⟩
      (lsScatter E s.direct (lsPlaceOf r) off n false addr [] >>= fun a => .ret (readOut a)) r := by
  refine ⟨hk, rfl, rfl, hn, fun v hv hlen => Prog.wp_bind ?_⟩
  have hes : (s.exts r).length = (lsPlaceOf r).next := length_exts (h.laid.records.ok _ _ hk)
  refine Prog.wp_mono (fun a w hw => ?_) (wp_lsScatter_read (v := v) hF hes
    (holds_of_find h hk hn hlen s.direct))
  rcases hw with hw | ⟨ha, hw⟩
  · obtain ⟨rc, b⟩ := a
    refine Or.inl ⟨?_, hw.2⟩
    cases rc <;> first | exact absurd rfl hw.1 | exact fun h => (by cases h)
  · subst ha
    refine Or.inr ⟨?_, fun h => (by cases h)⟩
    show readOut (.ok, slice (v.lbyte r.mem (s.exts r)) off n) = _
    rw [readOut]
    congr 1
    refine slice_congr fun i hi => ?_
    rw [View.lbyte, Store.content, Store.loc]
    cases hl : locOf r.mem (s.exts r) (off + i) with
    | none => rfl
    | some l =>
      exact (hv.byte l ⟨off + i, .of_mem (Nat.le_add_right _ _) (Nat.add_lt_add_left hi _), hl⟩).symm

/-! ## What a critical section has done -/

/-- The mode in which layout and attributes are frozen. -/
def Opts.shared (o : Opts) : Bool := decide (o.parallel = .shared)

/-- The mode in which layout and attributes are frozen. -/
def Store.shared (s : Store σ) : Bool := s.o.shared

/-- The transfer a call will make if nothing goes wrong. -/
def Op.xfer (s : Store σ) : Op → Option Xfer
  | .write key off buf _ => some ⟨key, true, off, buf.length⟩
  | .read key off n _ => some ⟨key, false, off, n⟩
  | .append key buf _ => some ⟨key, true, (s.recAt key).size, buf.length⟩
  | _ => none

omit [HonestOs σ] in
theorem Op.clear_of_xfer {s : Store σ} {op : Op} {d : ℕ → Prop}
    (h : ∀ y, op.xfer s = some y → ∀ i, y.off ≤ i → i < y.off + y.n → ¬ d i) : op.Clear d := by
  cases op with
  | read k off n addr => exact h _ rfl
  | _ => trivial

/-- Where the transfer of a call that answered `out` started. -/
def Op.startsAt : Op → Out → ℕ
  | .write _ off _ _, _ => off
  | .read _ off _ _, _ => off
  | .append _ _ _, out => out.num
  | _, _ => 0

/-- The bytes a call writes. -/
def Op.payload : Op → List UInt8
  | .write _ _ buf _ | .append _ buf _ => buf
  | _ => []

/-- The call writes to its record. -/
def Op.writes : Op → Bool
  | .write _ _ _ _ | .append _ _ _ => true
  | _ => false

/-- The call gives a record up. -/
def Op.erases : Op → Bool
  | .erase _ => true
  | _ => false

omit [HonestOs σ] in
/-- A call that gives no record up changes the bytes of its entry only where it writes. -/
theorem Op.apply_byte (sh : Bool) {op : Op} (hop : op.erases = false) {s : Store σ} {key : CStr}
    (hkey : op.key? = some key) {e : Entry} (hsize : (s.recAt key).size = e.bytes.length) :
    ∃ e', (op.apply sh (some e)).2 = some e' ∧ e.bytes.length ≤ e'.bytes.length ∧
      ∀ i, (∀ y, op.xfer s = some y → y.write = true → ¬ (y.off ≤ i ∧ i < y.off + y.n)) →
        e'.byte i = e.byte i := by
  have hsame : ∀ o : Out × Option Entry, o.2 = some e → ∃ e', o.2 = some e' ∧
      e.bytes.length ≤ e'.bytes.length ∧ ∀ i, (∀ y, op.xfer s = some y → y.write = true →
        ¬ (y.off ≤ i ∧ i < y.off + y.n)) → e'.byte i = e.byte i :=
    fun o ho => ⟨e, ho, Nat.le_refl _, fun _ _ => rfl⟩
  have hwrite : ∀ off (buf : List UInt8), op.xfer s = some ⟨key, true, off, buf.length⟩ →
      ∃ e', some (e.write off buf) = some e' ∧ e.bytes.length ≤ e'.bytes.length ∧
        ∀ i, (∀ y, op.xfer s = some y → y.write = true → ¬ (y.off ≤ i ∧ i < y.off + y.n)) →
          e'.byte i = e.byte i := by
    refine fun off buf hx => ⟨_, rfl, by simp, fun i hi => ?_⟩
    rw [Entry.byte_write]
    exact if_neg (hi _ hx rfl)
  cases op with
  | write k off buf addr =>
    cases hkey
    simp only [Op.apply, Option.getD_some]
    split_ifs
    · exact hsame (_, _) rfl
    · exact hsame (_, _) rfl
    · exact hsame (_, _) rfl
    · exact hwrite off buf rfl
  | append k buf addr =>
    cases hkey
    simp only [Op.apply, Option.getD_some]
    split_ifs
    · exact hsame (_, _) rfl
    · exact hsame (_, _) rfl
    · exact hsame (_, _) rfl
    · exact hwrite _ buf (by rw [Op.xfer, hsize])
  | reserve k nbytes =>
    simp only [Op.apply, Option.getD_some]
    split_ifs
    · exact hsame (_, _) rfl
    · exact hsame (_, _) rfl
    · exact ⟨_, rfl, by simp, fun i _ => Entry.byte_resize e nbytes i⟩
  | setAttr k blob =>
    simp only [Op.apply, Option.getD_some]
    split_ifs
    · exact hsame (_, _) rfl
    · exact hsame (_, _) rfl
    · exact hsame (_, _) rfl
    · exact ⟨_, rfl, Nat.le_refl _, fun i _ => rfl⟩
  | erase k => cases hop
  | read k off n addr =>
    simp only [Op.apply]
    split_ifs <;> exact hsame (_, _) rfl
  | size k =>
    simp only [Op.apply]
    split_ifs <;> exact hsame (_, _) rfl
  | «exists» k =>
    simp only [Op.apply]
    split_ifs <;> exact hsame (_, _) rfl
  | getAttr k cap =>
    cases cap <;> simp only [Op.apply] <;> split_ifs <;> exact hsame (_, _) rfl
  | keys => cases hkey

/-- What is left of a call on `key` that could not get the capacity it needs: the map is as it was,
but for an empty record. -/
structure Refused (key : CStr) (s : Store σ) (out : Out) (s' : Store σ) : Prop where
  rc : out.rc ≠ .ok
  dirty : ¬ clean s'.os
  map : Slack s → ∀ D m, Abs D s m → Abs D s' (m.put key (some ((m.lookup key).getD {})))

omit [HonestOs σ] in
theorem Op.write_of_xfer {s : Store σ} {op : Op} {x : Xfer} (hx : op.xfer s = some x) :
    op.writes = x.write ∧ op.erases = false := by
  cases op with
  | write _ _ _ _ => cases hx; exact ⟨rfl, rfl⟩
  | read _ _ _ _ => cases hx; exact ⟨rfl, rfl⟩
  | append _ _ _ => cases hx; exact ⟨rfl, rfl⟩
  | _ => cases hx

omit [HonestOs σ] in
theorem Op.key_of_xfer {s : Store σ} {op : Op} {x : Xfer} (hx : op.xfer s = some x) :
    op.key? = some x.key := by
  cases op with
  | write _ _ _ _ => cases hx; rfl
  | read _ _ _ _ => cases hx; rfl
  | append _ _ _ => cases hx; rfl
  | _ => cases hx

/-- How many transfers a critical section starts. -/
def Entered.pins : Entered → ℕ
  | .done _ => 0
  | .xfer _ _ _ => 1

/-- The first critical section of the call `op` on `key`, against the reference map. -/
structure Enters (op : Op) (key : CStr) (s : Store σ) (ent : Entered) (s' : Store σ) : Prop where
  sound : Sound s'
  stays : Stays key s s'
  busy : op.erases = false ∨ (s.recAt key).busy = 0 →
    (s'.recAt key).busy = (s.recAt key).busy + ent.pins
  kept : op.erases = false → ∀ r, s.find key = some r →
    ∃ r', s'.find key = some r' ∧ r.size ≤ r'.size ∧ BytesKept (op.InPlace s) s s' r r'
  ended : ∀ out, ent = .done out → Refused key s out s' ∨ (Slack s → ∀ D m, Abs D s m →
    out = (op.apply s.shared (m.lookup key)).1 ∧
      Abs D s' (m.put key (op.apply s.shared (m.lookup key)).2))
  going : ∀ x pl p, ent = .xfer x pl p → x.key = key ∧ op.xfer s = some x ∧
    ∃ pd r, pd.x = x ∧ pd.pl = pl ∧ Ready s' pd p r ∧
    (op.startsAt pd.out = x.off ∧ (x.write = true → x.n = op.payload.length ∧
      ∀ i, pd.byte i = op.payload.getD (i - x.off) 0)) ∧
    (Slack s → ∀ D m, Abs D s m → op.Clear (D key) →
      pd.out = (op.apply s.shared (m.lookup key)).1 ∧
      Abs (withXfer D x) s' (m.put key (op.apply s.shared (m.lookup key)).2) ∧
      (x.write = true → ∃ e, (op.apply s.shared (m.lookup key)).2 = some e ∧
        ∀ i, x.off ≤ i → i < x.off + x.n → e.byte i = pd.byte i))

section Maps

variable {s s' : Store σ} {D D' : CStr → ℕ → Prop} {m : RefMap} {key : CStr} {r : Rec}

theorem RefMap.put_lookup (m : RefMap) (key : CStr) : m.put key (m.lookup key) = m := by
  refine Finmap.ext_lookup fun k => ?_
  rw [RefMap.lookup_put]
  split_ifs with h
  · rw [h]
  · rfl

/-- A record that need not be there is an entry that need not be there. -/
theorem Abs.recAt (h : Abs D s m) (key : CStr) :
    Matches (D key) s (s.recAt key) ((m.lookup key).getD {}) := by
  cases hk : s.find key with
  | none =>
    rw [h.none key hk, recAt_of_none hk]
    exact ⟨rfl, rfl, fun _ _ => rfl⟩
  | some r =>
    obtain ⟨e, he, hm⟩ := h.some key r hk
    rw [he, recAt_of_find hk]
    exact hm

/-- The map after a critical section about `key`. -/
theorem abs_put (h : Abs D s m) (hs : Stays key s s') (hsl : Slack s)
    (hD : ∀ k i, k ≠ key → D k i → D' k i) {e : Option Entry}
    (hnone : s'.find key = none → e = none)
    (hsome : ∀ r, s'.find key = some r → ∃ e', e = some e' ∧ Matches (D' key) s' r e') :
    Abs D' s' (m.put key e) := by
  refine ⟨fun k hk => ?_, fun k q hq => ?_⟩
  · rw [RefMap.lookup_put]
    split_ifs with hkk
    · exact hnone (hkk ▸ hk)
    · cases hk0 : s.find k with
      | none => exact h.none k hk0
      | some r =>
        obtain ⟨r', hr', -⟩ := hs.some k r (Ne.symm hkk) hk0
        rw [hk] at hr'
        cases hr'
  · rw [RefMap.lookup_put]
    split_ifs with hkk
    · subst hkk
      exact hsome q hq
    · cases hk0 : s.find k with
      | none =>
        rw [hs.none k (Ne.symm hkk) hk0] at hq
        cases hq
      | some r =>
        obtain ⟨r', hr', hkept⟩ := hs.some k r (Ne.symm hkk) hk0
        rw [hq] at hr'
        cases hr'
        obtain ⟨e', he', hm⟩ := h.some k r hk0
        refine ⟨e', he', hkept.size.trans hm.size, hkept.attr.trans hm.attr, fun i hi => ?_⟩
        rw [hkept.content hsl]
        exact hm.bytes i fun hd => hi (hD k i (Ne.symm hkk) hd)

/-- A call that has changed nothing. -/
theorem enters_same (h : Sound s) {op : Op} {out : Out}
    (hout : ∀ D m, Abs D s m → op.apply s.shared (m.lookup key) = (out, m.lookup key)) :
    Enters op key s (.done out) s where
  sound := h
  stays := .refl
  busy _ := rfl
  kept _ r hr := ⟨r, hr, Nat.le_refl _, .refl⟩
  ended o ho := Or.inr fun _ D m ha => by
    cases ho
    rw [hout D m ha, RefMap.put_lookup]
    exact ⟨rfl, ha⟩
  going _ _ _ h := by cases h

end Maps

/-! ## Calls that write -/

section Write

variable {s s' s₁ : Store σ} {D : CStr → ℕ → Prop} {m : RefMap} {key : CStr} {r r' : Rec}

theorem add64_lt_iff {a b : ℕ} (ha : a < 2 ^ 64) (hb : b < 2 ^ 64) :
    add64 a b < a ↔ 2 ^ 64 ≤ a + b := by
  unfold add64
  constructor
  · intro h
    by_contra hn
    rw [Nat.mod_eq_of_lt (by omega)] at h
    omega
  · intro h
    rw [Nat.mod_eq_sub_mod h, Nat.mod_eq_of_lt (by omega)]
    omega

/-- No record is longer than the memory tier or the file. -/
theorem size_lt (h : Sound s) (key : CStr) : (s.recAt key).size < 2 ^ 63 := by
  cases hk : s.find key with
  | none =>
    rw [recAt_of_none hk]
    norm_num
  | some r =>
    rw [recAt_of_find hk]
    have hok := h.laid.records.ok _ _ hk
    cases hm : r.mem with
    | none =>
      have h1 := (hok.noMem hm).2
      have h2 := total_exts_le h.laid hk
      have h3 := fileEnd_lt h
      rw [hok.extTotal] at h1
      rw [total_nil] at h2
      omega
    | some p =>
      have h1 := (hok.hasMem (by simp [hm])).2
      have h2 := memCap_le_resident h.laid hk
      have h3 := h.laid.tiered.resident_lt
      omega

theorem kept_of_recAt {P : Prop} (hk : s'.find key = some r') (hsize : (s.recAt key).size ≤ r'.size)
    (hb : BytesKept P s s' (s.recAt key) r') :
    ∀ r, s.find key = some r → ∃ r', s'.find key = some r' ∧ r.size ≤ r'.size ∧
      BytesKept P s s' r r' := by
  intro r hr
  rw [recAt_of_find hr] at hsize hb
  exact ⟨r', hk, hsize, hb⟩

/-- Room that could not be made: the map is as it was, but for an empty record. -/
theorem Roomed.refused {fin : ℕ} {rc : Rc} (h : Roomed s s₁ key fin rc) (hrc : rc ≠ .ok) :
    Refused key s { rc } s₁ := by
  obtain ⟨r', hk', -, hattr, -, -, hsize, hby⟩ := h.record
  refine ⟨hrc, fun hc => hrc (h.clean hc), fun hs D m ha => ?_⟩
  refine abs_put ha h.stays hs (fun _ _ _ hd => hd) (fun hn => by rw [hk'] at hn; cases hn)
    fun r hr => ⟨_, rfl, ?_⟩
  rw [hk'] at hr
  cases hr
  have hm := ha.recAt key
  exact ⟨(hsize hrc).trans hm.size, hattr.trans hm.attr,
    fun i hi => (congrFun (hby.content hs) i).trans (hm.bytes i hi)⟩

/-- Room that could not be made: a call has failed. -/
theorem enters_failed {op : Op} {fin : ℕ} {rc : Rc} (h : Roomed s s₁ key fin rc) (hrc : rc ≠ .ok)
    (hp : op.InPlace s → (s.recAt key).mem = none ∨ fin ≤ (s.recAt key).memCap) :
    Enters op key s (.done { rc }) s₁ := by
  obtain ⟨r', hk', hb, -, hle, -, -, hby⟩ := h.record
  refine ⟨h.sound, h.stays, fun _ => ?_, fun _ => kept_of_recAt hk' hle (hby.mono hp),
    fun out hout => Or.inl ?_, fun _ _ _ h => (by cases h)⟩
  · rw [recAt_of_find hk', hb]
    rfl
  · cases hout
    exact h.refused hrc

/-- A record that has been given room is the resized entry. -/
theorem matches_resize {d : ℕ → Prop} {P : Prop} {e : Entry} {fin : ℕ} (h : Matches d s r e)
    (hb : BytesKept P s s' r r') (hs : Slack s) (hsize : r'.size = max r.size fin)
    (hattr : r'.attr = r.attr) : Matches d s' r' (e.resize fin) := by
  refine ⟨?_, hattr.trans h.attr, fun i hi => ?_⟩
  · rw [hsize, h.size, Entry.length_resize]
  · rw [hb.content hs, Entry.byte_resize, h.bytes i hi]

/-- Room has been made, and the transfer of `buf` to `off` starts. -/
theorem enters_going (hF : 2 ^ 64 ≤ E.fuel) {op : Op} {off addr : ℕ} {buf : List UInt8}
    (h : Roomed s s₁ key (off + buf.length) .ok)
    (hp : op.InPlace s → (s.recAt key).mem = none ∨ off + buf.length ≤ (s.recAt key).memCap)
    (hxf : op.xfer s = some ⟨key, true, off, buf.length⟩) (hpay : op.payload = buf)
    (k : Rc × List UInt8 → Out) (out : Out) (hk : ∀ b, k (.ok, b) = out)
    (herr : ∀ rc b, rc ≠ .ok → (k (rc, b)).rc ≠ .ok) (hat : op.startsAt out = off)
    (hout : ∀ D m, Abs D s m → op.apply s.shared (m.lookup key) =
      (out, some (((m.lookup key).getD {}).write off buf))) :
    Enters op key s (.xfer ⟨key, true, off, buf.length⟩ (pin s₁ key).1
      (lsScatter E (pin s₁ key).2.direct (pin s₁ key).1 off buf.length true addr buf >>=
        fun a => .ret (k a))) (pin s₁ key).2 := by
  obtain ⟨r₁, hk₁, hbusy, hattr, -, hr, -, hby⟩ := h.record
  obtain ⟨hsize, -⟩ := hr rfl
  obtain ⟨g1, g2, g3, g4, g5⟩ := pin_spec h.sound hk₁
  have hkept := hby.trans h.stays.slack (g5.mono fun _ => trivial)
  refine ⟨g1, h.stays.trans g2, fun _ => ?_,
    fun _ => kept_of_recAt g3 (by dsimp only; omega) (hkept.mono hp), fun _ h => (by cases h),
    fun x pl p hx => ?_⟩
  · rw [recAt_of_find g3, ← hbusy]
    rfl
  · cases hx
    rw [g4]
    refine ⟨rfl, hxf, _, _, ?_, ?_, ready_write hF g1 g3 (by dsimp only; omega) k out hk herr,
      ⟨hat, fun _ => ⟨by rw [hpay], fun i => by rw [hpay]⟩⟩,
      fun hs D m ha _ => ?_⟩
    · rfl
    · rfl
    · rw [hout D m ha]
      refine ⟨rfl, abs_put ha (h.stays.trans g2) hs (fun _ _ _ hd => Or.inl hd)
        (fun hn => by rw [g3] at hn; cases hn) fun r hr => ⟨_, rfl, ?_⟩, fun _ => ⟨_, rfl, fun i h1 h2 => ?_⟩⟩
      · rw [g3] at hr
        cases hr
        have hmat := matches_resize (ha.recAt key) hkept hs hsize hattr
        refine ⟨by rw [hmat.size]; simp, hmat.attr, fun i hi => ?_⟩
        rw [hmat.bytes i fun hd => hi (Or.inl hd), Entry.byte_resize, Entry.byte_write]
        refine (if_neg fun hin => hi (Or.inr ⟨rfl, rfl, hin⟩)).symm
      · rw [Entry.byte_write]
        exact if_pos ⟨h1, h2⟩

theorem enter_write (hF : 2 ^ 64 ≤ E.fuel) (h : Sound s) {off addr : ℕ} {buf : List UInt8}
    (hfit : (Op.write key off buf addr).Fits E s) :
    ∃ ent s', (Op.write key off buf addr).enter E s = some (ent, s') ∧
      Enters (.write key off buf addr) key s ent s' := by
  obtain ⟨hoff, hn, hroom⟩ := hfit
  simp only [Op.enter, writeBegin]
  by_cases hkey : lsKeyOk key
  case neg =>
    rw [if_pos (by simpa using hkey)]
    exact ⟨_, _, rfl, enters_same h fun D m _ => by simp [Op.apply, hkey]⟩
  rw [if_neg (by simpa using hkey)]
  by_cases hwrap : add64 off buf.length < off
  · rw [if_pos hwrap]
    rw [add64_lt_iff hoff hn] at hwrap
    exact ⟨_, _, rfl, enters_same h fun D m _ => by
      rw [Op.apply, if_neg (by simpa using hkey), if_pos hwrap]⟩
  rw [if_neg hwrap]
  rw [add64_lt_iff hoff hn, Nat.not_le] at hwrap
  rw [add64_eq hwrap]
  have hmode : ∀ D m, Abs D s m → frozen s key (off + buf.length) =
      (s.shared && (m.lookup key).all fun e => off + buf.length > e.bytes.length) := by
    intro D m ha
    rw [frozen, Store.shared, Opts.shared]
    congr 1
    cases hk : s.find key with
    | none => simp [ha.none key hk]
    | some r =>
      obtain ⟨e, he, hm⟩ := ha.some key r hk
      simp [he, recAt_of_find hk, hm.size]
  by_cases hfz : frozen s key (off + buf.length)
  · rw [if_pos hfz]
    refine ⟨_, _, rfl, enters_same h fun D m ha => ?_⟩
    rw [hmode D m ha] at hfz
    simp only [Op.apply, hkey, Bool.not_true, Bool.false_eq_true, if_false, if_neg hwrap.not_ge,
      if_pos hfz]
  rw [if_neg hfz]
  obtain ⟨rc, s₁, h1, h2⟩ := makeRoom_spec hF h hwrap (hroom hwrap)
  rw [h1]
  dsimp only
  by_cases hrc : rc ≠ .ok
  · rw [if_pos hrc]
    exact ⟨_, _, rfl, enters_failed h2 hrc id⟩
  rw [not_not] at hrc
  subst hrc
  rw [if_neg (by simp)]
  refine ⟨_, _, rfl, enters_going hF h2 id rfl rfl (fun a => { rc := a.1 }) { rc := .ok } (fun _ => rfl)
    (fun _ _ h => h) rfl fun D m ha => ?_⟩
  rw [hmode D m ha] at hfz
  simp only [Op.apply, hkey, Bool.not_true, Bool.false_eq_true, if_false, if_neg hwrap.not_ge,
    if_neg hfz]

theorem enter_append (hF : 2 ^ 64 ≤ E.fuel) (h : Sound s) {addr : ℕ} {buf : List UInt8}
    (hfit : (Op.append key buf addr).Fits E s) :
    ∃ ent s', (Op.append key buf addr).enter E s = some (ent, s') ∧
      Enters (.append key buf addr) key s ent s' := by
  obtain ⟨hn, hroom⟩ := hfit
  have hsz : (s.recAt key).size < 2 ^ 64 := by
    have := size_lt h key
    omega
  simp only [Op.enter, appendBegin]
  by_cases hkey : lsKeyOk key
  case neg =>
    rw [if_pos (by simpa using hkey)]
    exact ⟨_, _, rfl, enters_same h fun D m _ => by simp [Op.apply, hkey]⟩
  rw [if_neg (by simpa using hkey)]
  by_cases hsh : s.o.parallel = .shared
  · rw [if_pos hsh]
    exact ⟨_, _, rfl, enters_same h fun D m _ => by simp [Op.apply, hkey, Store.shared, Opts.shared, hsh]⟩
  rw [if_neg hsh]
  have hsh' : s.shared = false := by simp [Store.shared, Opts.shared, hsh]
  obtain ⟨g1, g2, g3, -, g4⟩ := lsTocFindOrInsert_spec h key
  rw [recAt_of_find g3]
  have hlen : ∀ D m, Abs D s m → (s.recAt key).size = ((m.lookup key).getD {}).bytes.length :=
    fun D m ha => (ha.recAt key).size
  by_cases hwrap : add64 (s.recAt key).size buf.length < (s.recAt key).size
  · rw [if_pos hwrap]
    rw [add64_lt_iff hsz hn] at hwrap
    refine ⟨_, _, rfl, g1, g2, fun _ => ?_, fun _ => kept_of_recAt g3 (Nat.le_refl _)
      (g4.mono fun _ => trivial), fun out hout => Or.inr fun hs D m ha => ?_,
      fun _ _ _ h => (by cases h)⟩
    · rw [recAt_of_find g3]
      rfl
    · cases hout
      have hw := hwrap
      rw [hlen D m ha] at hw
      simp only [Op.apply, hkey, hsh', Bool.not_true, Bool.false_eq_true, if_false, if_pos hw]
      refine ⟨trivial, abs_put ha g2 hs (fun _ _ _ hd => hd) (fun hn => by rw [g3] at hn; cases hn)
        fun r hr => ⟨_, rfl, ?_⟩⟩
      rw [g3] at hr
      cases hr
      have hm := ha.recAt key
      exact ⟨hm.size, hm.attr, fun i hi => (congrFun (g4.content hs) i).trans (hm.bytes i hi)⟩
  rw [if_neg hwrap]
  rw [add64_lt_iff hsz hn, Nat.not_le] at hwrap
  rw [add64_eq hwrap]
  obtain ⟨rc, s₁, h1, h2⟩ := makeRoom_spec hF g1 hwrap (hroom hwrap)
  rw [h1]
  dsimp only
  -- the room is made for the record of `s`, which the lookup has only put into the table
  have hroomed : Roomed s s₁ key ((s.recAt key).size + buf.length) rc := by
    have hr := h2.record
    rw [recAt_of_find g3] at hr
    obtain ⟨r', e1, e2, e3, e4, e5, e6, e7⟩ := hr
    exact ⟨h2.sound, g2.trans h2.stays, h2.clean, r', e1, e2, e3, e4, e5, e6,
      (g4.mono fun _ => trivial).trans g2.slack e7⟩
  by_cases hrc : rc ≠ .ok
  · rw [if_pos hrc]
    exact ⟨_, _, rfl, enters_failed hroomed hrc id⟩
  rw [not_not] at hrc
  subst hrc
  rw [if_neg (by simp)]
  refine ⟨_, _, rfl, enters_going hF hroomed id rfl rfl (appendOut (s.recAt key).size)
    { rc := .ok, num := (s.recAt key).size } (fun _ => rfl)
    (fun rc _ h => by cases rc <;> first | exact absurd rfl h | exact fun h => (by cases h))
    rfl fun D m ha => ?_⟩
  have hw := hwrap.not_ge
  rw [hlen D m ha] at hw ⊢
  simp only [Op.apply, hkey, hsh', Bool.not_true, Bool.false_eq_true, if_false, if_neg hw]

theorem enter_reserve (hF : 2 ^ 64 ≤ E.fuel) (h : Sound s) {nbytes : ℕ}
    (hfit : (Op.reserve key nbytes).Fits E s) :
    ∃ ent s', (Op.reserve key nbytes).enter E s = some (ent, s') ∧
      Enters (.reserve key nbytes) key s ent s' := by
  obtain ⟨hn, hroom⟩ := hfit
  simp only [Op.enter, lsReserve]
  by_cases hkey : lsKeyOk key
  case neg =>
    rw [if_pos (by simpa using hkey)]
    exact ⟨_, _, rfl, enters_same h fun D m _ => by simp [Op.apply, hkey]⟩
  rw [if_neg (by simpa using hkey)]
  by_cases hsh : s.o.parallel = .shared
  · rw [if_pos hsh]
    exact ⟨_, _, rfl, enters_same h fun D m _ => by simp [Op.apply, hkey, Store.shared, Opts.shared, hsh]⟩
  rw [if_neg hsh]
  have hsh' : s.shared = false := by simp [Store.shared, Opts.shared, hsh]
  obtain ⟨rc, s₁, h1, h2⟩ := makeRoom_spec hF h hn hroom
  rw [h1]
  by_cases hrc : rc ≠ .ok
  · exact ⟨_, _, rfl, enters_failed h2 hrc id⟩
  rw [not_not] at hrc
  subst hrc
  obtain ⟨r₁, hk₁, hbusy, hattr, hle, hr, -, hby⟩ := h2.record
  refine ⟨_, _, rfl, h2.sound, h2.stays, fun _ => ?_, fun _ => kept_of_recAt hk₁ hle (hby.mono id),
    fun out hout => Or.inr fun hs D m ha => ?_, fun _ _ _ h => (by cases h)⟩
  · rw [recAt_of_find hk₁, hbusy]
    rfl
  · cases hout
    simp only [Op.apply, hkey, hsh', Bool.not_true, Bool.false_eq_true, if_false]
    refine ⟨trivial, abs_put ha h2.stays hs (fun _ _ _ hd => hd)
      (fun hn => by rw [hk₁] at hn; cases hn) fun r hr' => ⟨_, rfl, ?_⟩⟩
    rw [hk₁] at hr'
    cases hr'
    exact matches_resize (ha.recAt key) hby hs (hr rfl).1 hattr

end Write

/-! ## The other calls -/

section Others

variable {s s' : Store σ} {key : CStr}

theorem enter_read (hF : 2 ^ 64 ≤ E.fuel) (h : Sound s) {off n addr : ℕ}
    (hfit : (Op.read key off n addr).Fits E s) :
    ∃ ent s', (Op.read key off n addr).enter E s = some (ent, s') ∧
      Enters (.read key off n addr) key s ent s' := by
  obtain ⟨hoff, hn⟩ := hfit
  simp only [Op.enter, readBegin]
  by_cases hkey : lsKeyOk key
  case neg =>
    rw [if_pos (by simpa using hkey)]
    exact ⟨_, _, rfl, enters_same h fun D m _ => by simp [Op.apply, hkey]⟩
  rw [if_neg (by simpa using hkey)]
  by_cases hwrap : add64 off n < off
  · rw [if_pos hwrap]
    rw [add64_lt_iff hoff hn] at hwrap
    refine ⟨_, _, rfl, enters_same h fun D m _ => ?_⟩
    simp only [Op.apply, hkey, Bool.not_true, Bool.false_eq_true, if_false, if_pos hwrap]
  rw [if_neg hwrap]
  rw [add64_lt_iff hoff hn, Nat.not_le] at hwrap
  rw [add64_eq hwrap]
  have hw := hwrap.not_ge
  cases hk : s.find key with
  | none =>
    rw [if_pos (by simp)]
    refine ⟨_, _, rfl, enters_same h fun D m ha => ?_⟩
    simp only [Op.apply, hkey, Bool.not_true, Bool.false_eq_true, if_false, if_neg hw, ha.none key hk]
  | some r =>
    rw [if_neg (by simp), recAt_of_find hk]
    by_cases hend : off + n > r.size
    · rw [if_pos hend]
      refine ⟨_, _, rfl, enters_same h fun D m ha => ?_⟩
      obtain ⟨e, he, hm⟩ := ha.some key r hk
      rw [hm.size] at hend
      simp only [Op.apply, hkey, Bool.not_true, Bool.false_eq_true, if_false, if_neg hw, he,
        if_pos hend]
    rw [if_neg hend]
    obtain ⟨g1, g2, g3, g4, g5⟩ := pin_spec h hk
    refine ⟨_, _, rfl, g1, g2, fun _ => ?_, fun _ => kept_of_recAt g3 ?_ ?_,
      fun _ h => (by cases h), fun x pl p hx => ?_⟩
    · rw [recAt_of_find g3, recAt_of_find hk]
      rfl
    · rw [recAt_of_find hk]
    · rw [recAt_of_find hk]
      exact g5.mono fun _ => trivial
    · cases hx
      rw [g4]
      refine ⟨rfl, rfl, _, _, ?_, ?_, ready_read hF g1 g3 (by dsimp only; omega),
        ⟨rfl, fun h => (by cases h)⟩, fun hs D m ha hcl => ?_⟩
      · rfl
      · rfl
      obtain ⟨e, he, hm⟩ := ha.some key r hk
      rw [hm.size] at hend
      simp only [Op.apply, hkey, Bool.not_true, Bool.false_eq_true, if_false, if_neg hw, he,
        if_neg hend]
      refine ⟨?_, abs_put ha g2 hs (fun _ _ _ hd => Or.inl hd) (fun hn => by rw [g3] at hn; cases hn)
        fun r hr => ⟨_, rfl, ?_⟩, fun h => (by cases h)⟩
      · rw [← Entry.slice_byte (by omega)]
        congr 1
        refine slice_congr fun i hi => ?_
        rw [g5.content hs]
        exact hm.bytes _ (hcl _ (Nat.le_add_right _ _) (Nat.add_lt_add_left hi _))
      · rw [g3] at hr
        cases hr
        exact ⟨hm.size, hm.attr, fun i hi => (congrFun (g5.content hs) i).trans
          (hm.bytes i fun hd => hi (Or.inl hd))⟩

theorem enter_erase (h : Sound s) :
    ∃ ent s', (Op.erase key).enter E s = some (ent, s') ∧ Enters (.erase key) key s ent s' := by
  simp only [Op.enter, lsErase]
  by_cases hkey : lsKeyOk key
  case neg =>
    rw [if_pos (by simpa using hkey)]
    exact ⟨_, _, rfl, enters_same h fun D m _ => by simp [Op.apply, hkey]⟩
  rw [if_neg (by simpa using hkey)]
  by_cases hsh : s.o.parallel = .shared
  · rw [if_pos hsh]
    exact ⟨_, _, rfl, enters_same h fun D m _ => by simp [Op.apply, hkey, Store.shared, Opts.shared, hsh]⟩
  rw [if_neg hsh]
  cases hk : s.find key with
  | none =>
    exact ⟨_, _, rfl, enters_same h fun D m ha => by
      simp [Op.apply, hkey, Store.shared, Opts.shared, hsh, ha.none key hk]⟩
  | some r =>
    obtain ⟨s₁, h1, h2, h3, h4, -⟩ := lsErase_spec h hk
    dsimp only
    rw [h1]
    refine ⟨_, _, rfl, h2, h3, fun hb => ?_, fun h => (by cases h),
      fun out hout => Or.inr fun hs D m ha => ?_, fun _ _ _ h => (by cases h)⟩
    · rw [hb.resolve_left (by simp [Op.erases]), recAt_of_none h4]
      rfl
    · cases hout
      obtain ⟨e, he, hm⟩ := ha.some key r hk
      simp only [Op.apply, hkey, Store.shared, Opts.shared, hsh, he, Bool.not_true, Bool.false_eq_true, if_false,
        decide_false]
      exact ⟨trivial, abs_put ha h3 hs (fun _ _ _ hd => hd) (fun _ => rfl)
        fun r hr => by rw [h4] at hr; cases hr⟩

theorem enter_setAttr (h : Sound s) {blob : List UInt8} :
    ∃ ent s', (Op.setAttr key blob).enter E s = some (ent, s') ∧
      Enters (.setAttr key blob) key s ent s' := by
  simp only [Op.enter, lsSetAttr]
  by_cases hkey : lsKeyOk key
  case neg =>
    rw [if_pos (by simpa using hkey)]
    exact ⟨_, _, rfl, enters_same h fun D m _ => by simp [Op.apply, hkey]⟩
  rw [if_neg (by simpa using hkey)]
  by_cases hlen : blob.length > LS_ATTR_MAX
  · rw [if_pos hlen]
    exact ⟨_, _, rfl, enters_same h fun D m _ => by
      rw [Op.apply, if_neg (by simpa using hkey), if_pos hlen]⟩
  rw [if_neg hlen]
  by_cases hsh : s.o.parallel = .shared
  · rw [if_pos hsh]
    exact ⟨_, _, rfl, enters_same h fun D m _ => by
      rw [Op.apply, if_neg (by simpa using hkey), if_neg hlen, if_pos (by simp [Store.shared, Opts.shared, hsh])]⟩
  rw [if_neg hsh]
  obtain ⟨s₁, h1, h2, h3, h4, h5⟩ := attr_spec h key blob
  rw [h1]
  refine ⟨_, _, rfl, h2, h3, fun _ => ?_, fun _ => kept_of_recAt h4 (Nat.le_refl _)
    (h5.mono fun _ => trivial), fun out hout => Or.inr fun hs D m ha => ?_,
    fun _ _ _ h => (by cases h)⟩
  · rw [recAt_of_find h4]
    rfl
  · cases hout
    rw [Op.apply, if_neg (by simpa using hkey), if_neg hlen, if_neg (by simp [Store.shared, Opts.shared, hsh])]
    refine ⟨rfl, abs_put ha h3 hs (fun _ _ _ hd => hd) (fun hn => by rw [h4] at hn; cases hn)
      fun r hr => ⟨_, rfl, ?_⟩⟩
    rw [h4] at hr
    cases hr
    have hm := ha.recAt key
    exact ⟨hm.size, rfl, fun i hi => (congrFun (h5.content hs) i).trans (hm.bytes i hi)⟩

/-- A call that only looks at its record. -/
theorem enter_query (h : Sound s) {op : Op}
    (hop : op = .size key ∨ op = .exists key ∨ ∃ cap, op = .getAttr key cap) :
    ∃ ent s', op.enter E s = some (ent, s') ∧ Enters op key s ent s' := by
  have hlook : ∀ D m, Abs D s m → s.find key = none ∧ m.lookup key = none ∨
      ∃ r e, s.find key = some r ∧ m.lookup key = some e ∧ r.size = e.bytes.length ∧
        r.attr = e.attr := by
    intro D m ha
    cases hk : s.find key with
    | none => exact Or.inl ⟨rfl, ha.none key hk⟩
    | some r =>
      obtain ⟨e, he, hm⟩ := ha.some key r hk
      exact Or.inr ⟨r, e, rfl, he, hm.size, hm.attr⟩
  rcases hop with rfl | rfl | ⟨cap, rfl⟩
  · refine ⟨_, _, rfl, enters_same h fun D m ha => ?_⟩
    rcases hlook D m ha with ⟨h1, h2⟩ | ⟨r, e, h1, h2, h3, -⟩
    · by_cases hkey : lsKeyOk key <;> simp [Op.apply, hkey, h1, h2]
    · by_cases hkey : lsKeyOk key <;> simp [Op.apply, hkey, h1, h2, h3]
  · refine ⟨_, _, rfl, enters_same h fun D m ha => ?_⟩
    rcases hlook D m ha with ⟨h1, h2⟩ | ⟨r, e, h1, h2, -, -⟩
    · by_cases hkey : lsKeyOk key <;> simp [Op.apply, hkey, h1, h2]
    · by_cases hkey : lsKeyOk key <;> simp [Op.apply, hkey, h1, h2]
  · refine ⟨_, _, rfl, enters_same h fun D m ha => ?_⟩
    rcases hlook D m ha with ⟨h1, h2⟩ | ⟨r, e, h1, h2, -, h3⟩
    · by_cases hkey : lsKeyOk key <;> simp [Op.apply, hkey, h1, h2]
    · by_cases hkey : lsKeyOk key
      case neg => simp [Op.apply, hkey]
      cases cap with
      | none => simp [Op.apply, hkey, h1, h2, h3]
      | some n => by_cases hn : n < e.attr.length <;> simp [Op.apply, hkey, h1, h2, h3, hn]

omit [HonestOs σ] in
theorem writeBegin_error [Os σ] {off n : ℕ} {rc : Rc}
    (h : writeBegin E s key off n = some (.error rc, s')) : rc ≠ .ok := by
  unfold writeBegin at h
  split_ifs at h
  · cases h; simp
  · cases h; simp
  · cases h; simp
  · cases hm : makeRoom E s key (add64 off n) with
    | none => simp [hm] at h
    | some a =>
      simp only [hm] at h
      split_ifs at h with hrc
      · cases h
        exact hrc
      · cases h

omit [HonestOs σ] in
theorem writeBegin_ok [Os σ] {off n : ℕ} {pl : Place}
    (h : writeBegin E s key off n = some (.ok pl, s')) : lsKeyOk key = true := by
  by_contra hk
  rw [writeBegin, if_pos (by simpa using hk)] at h
  cases h

omit [HonestOs σ] in
theorem appendBegin_error [Os σ] {n : ℕ} {rc : Rc}
    (h : appendBegin E s key n = some (.error rc, s')) : rc ≠ .ok := by
  unfold appendBegin at h
  split_ifs at h
  · cases h; simp
  · cases h; simp
  · dsimp only at h
    split_ifs at h
    · cases h; simp
    · cases hm : makeRoom E (lsTocFindOrInsert s key) key
        (add64 ((lsTocFindOrInsert s key).recAt key).size n) with
      | none => simp [hm] at h
      | some a =>
        simp only [hm] at h
        split_ifs at h with hrc
        · cases h
          exact hrc
        · cases h

omit [HonestOs σ] in
theorem appendBegin_ok [Os σ] {n : ℕ} {a : ℕ × Place}
    (h : appendBegin E s key n = some (.ok a, s')) : lsKeyOk key = true := by
  by_contra hk
  rw [appendBegin, if_pos (by simpa using hk)] at h
  cases h

omit [HonestOs σ] in
/-- A call that writes and is over in its critical section has failed, and one that goes on has a
key that is valid. -/
theorem enter_writes [Os σ] {op : Op} (hw : op.writes = true) {ent : Entered}
    (h : op.enter E s = some (ent, s')) : (∀ out, ent = .done out → out.rc ≠ .ok) ∧
      ∀ x pl p, ent = .xfer x pl p → lsKeyOk x.key = true := by
  cases op with
  | write k off buf addr =>
    simp only [Op.enter] at h
    cases hb : writeBegin E s k off buf.length with
    | none => simp [hb] at h
    | some a =>
      obtain ⟨res, s₁⟩ := a
      cases res with
      | error rc =>
        simp only [hb] at h
        cases h
        exact ⟨fun out ho => (by cases ho; exact writeBegin_error hb), fun _ _ _ ho => (by cases ho)⟩
      | ok pl =>
        simp only [hb] at h
        cases h
        exact ⟨fun _ ho => (by cases ho), fun _ _ _ ho => (by cases ho; exact writeBegin_ok hb)⟩
  | append k buf addr =>
    simp only [Op.enter] at h
    cases hb : appendBegin E s k buf.length with
    | none => simp [hb] at h
    | some a =>
      obtain ⟨res, s₁⟩ := a
      cases res with
      | error rc =>
        simp only [hb] at h
        cases h
        exact ⟨fun out ho => (by cases ho; exact appendBegin_error hb), fun _ _ _ ho => (by cases ho)⟩
      | ok pl =>
        simp only [hb] at h
        cases h
        exact ⟨fun _ ho => (by cases ho), fun _ _ _ ho => (by cases ho; exact appendBegin_ok hb)⟩
  | _ => cases hw

/-- **The first critical section of a call**, against the reference map. -/
theorem enter_spec (hF : 2 ^ 64 ≤ E.fuel) (h : Sound s) {op : Op} (hkey : op.key? = some key)
    (hfit : op.Fits E s) : ∃ ent s', op.enter E s = some (ent, s') ∧ Enters op key s ent s' := by
  cases op with
  | write k off buf addr => cases hkey; exact enter_write hF h hfit
  | read k off n addr => cases hkey; exact enter_read hF h hfit
  | append k buf addr => cases hkey; exact enter_append hF h hfit
  | reserve k nbytes => cases hkey; exact enter_reserve hF h hfit
  | erase k => cases hkey; exact enter_erase h
  | size k => cases hkey; exact enter_query h (Or.inl rfl)
  | «exists» k => cases hkey; exact enter_query h (Or.inr (Or.inl rfl))
  | setAttr k blob => cases hkey; exact enter_setAttr h
  | getAttr k cap => cases hkey; exact enter_query h (Or.inr (Or.inr ⟨cap, rfl⟩))
  | keys => cases hkey

end Others

end Libspill
