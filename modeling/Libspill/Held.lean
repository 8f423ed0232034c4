import Libspill.Calls
import Libspill.Sequential
import Libspill.Pieces

set_option autoImplicit false

/-!
# Several transfers on one record

`segv` and `ls_accumulate` make several transfers between taking the place of a record and giving the
record free. Nobody else runs, so what one of them has written the next one finds.

* `Trail`: the calls of a transfer stay inside the file.
* `exec_scatter_write`, `exec_scatter_read`: one transfer, on the content of its record.
* `abs_resize`, `abs_content`, `abs_unpin`: what room, a transfer, and giving the record free do to the
  map.
* `Entry.foldl_write_resize`: writes need not be made room for one by one.
-/

namespace Libspill

variable {σ : Type} [HonestOs σ] {E : Env}

open HonestOs (clean)

/-- What reads, and writes inside a file of the largest length, lead to. -/
inductive Trail : σ → σ → Prop where
  | refl (os : σ) : Trail os os
  | pread {os os' : σ} (n off : ℕ) : Trail os os' → Trail os (Os.pread os' n off).2
  | pwrite {os os' : σ} (b : List UInt8) (off : ℕ) : b = [] ∨ off + b.length ≤ OFF_MAX →
      Trail os os' → Trail os (Os.pwrite os' b off).2

theorem Trail.trans {os os' os'' : σ} (h : Trail os os') (h' : Trail os' os'') : Trail os os'' := by
  induction h' with
  | refl => exact h
  | pread n off _ ih => exact .pread n off ih
  | pwrite b off hb _ ih => exact .pwrite b off hb ih

/-- On a disk that has refused nothing, nothing is refused on the way. -/
theorem Trail.ok {d d' : Disk} (h : Trail d d') (hd : d.ok = true) : d'.ok = true := by
  induction h with
  | refl => exact hd
  | pread n off _ ih => exact ih
  | @pwrite os' b off hb _ ih =>
    have hlen : (os'.file.write off b).len ≤ OFF_MAX := by
      have := os'.len_le
      simp only [File.write]
      split_ifs with h0
      · exact this
      · exact max_le this (hb.resolve_left h0)
    simp only [Os.pwrite, Disk.put, dif_pos hlen]
    exact ih

/-- The bytes of a record. -/
def Store.locs (s : Store σ) (r : Rec) : Set Loc := {l | ∃ i, i < r.size ∧ s.loc r i = some l}

section

variable {s s' : Store σ} {key : CStr} {r : Rec} {T : Set Loc}

theorem Untouched.mono {T' : Set Loc} (h : Untouched T s s') (hT : T ⊆ T') : Untouched T' s s' :=
  ⟨h.rest, fun l hl => h.byte l fun hm => hl (hT hm), h.len, h.clean⟩

theorem Untouched.find (h : Untouched T s s') (k : CStr) : s'.find k = s.find k := by
  rw [h.rest]
  rfl

theorem Untouched.loc (h : Untouched T s s') (r : Rec) : s'.loc r = s.loc r := by
  rw [h.rest]
  rfl

theorem Untouched.locs (h : Untouched T s s') (r : Rec) : s'.locs r = s.locs r := by
  rw [Store.locs, h.loc]
  rfl

omit [HonestOs σ] in
theorem targets_locs (hk : s.find key = some r) : Targets s key (fun _ => True) (s.locs r) :=
  fun _ ⟨i, hi, hl⟩ => ⟨r, i, hk, hi, trivial, hl⟩

/-- One call of a transfer. -/
theorem Pending.step {pd : Pend} {c : Call} {k : c.Ans → Io Out} (h : Pending s pd (.call c k))
    (hs : Sound s) : Trail s.os (perform c s).2.os := by
  obtain ⟨v, ⟨hm, -⟩, -⟩ := h.view
  obtain ⟨r, hr⟩ := h.snap
  cases c with
  | pread n off => exact .pread n off (.refl _)
  | load q off n => exact .refl _
  | store q off b => exact .refl _
  | extent q i => exact .refl _
  | pwrite b off =>
    refine .pwrite b off (or_iff_not_imp_left.mpr fun hb => ?_) (.refl _)
    have hpos := List.length_pos_iff.mpr hb
    obtain ⟨e, he, hx⟩ := covers_of_region (hm (b.length - 1) (by omega)).1
    have hfin := (hs.laid.tiled.live_bounds (exts_subset_live hs.laid.records.wf hr.find
      (hr.exts.subset he))).2
    have hlen := HonestOs.len_le s.os
    have hfl := hs.flen
    rw [Store.flen] at hfl
    have hlt : off + (b.length - 1) < e.fin := hx.2
    omega

theorem Pending.trail {pd : Pend} {p : Io Out} (h : Pending s pd p) (hs : Sound s) {out : Out}
    (hrun : s.exec p = some (out, s')) : Trail s.os s'.os := by
  induction p generalizing s with
  | ret out =>
    cases hrun
    exact .refl _
  | hang => cases hrun
  | call c k ih =>
    obtain ⟨h1, h2⟩ := h.call
    exact (h.step hs).trans (ih _ h1 (sound_untouched hs h.targets h2) hrun)

/-- What a transfer that is alone does when it runs to its end. -/
theorem Pending.alone {pd : Pend} {p : Io Out} (h : Pending s pd p) (hs : Sound s)
    (hk : s.find pd.x.key = some r) : ∃ out s', s.exec p = some (out, s') ∧ Trail s.os s'.os ∧
      Untouched (s.locs r) s s' ∧ (clean s'.os ∨ out.rc = .ok → out = pd.out ∧
        s'.content r = if pd.x.write then fun i =>
          if pd.x.off ≤ i ∧ i < pd.x.off + pd.x.n then pd.byte i else s.content r i
        else s.content r) := by
  obtain ⟨out, s', h1, h2, h3⟩ := h.exec
  have ht := h.targets
  have hsub : (pd.foot s.direct).T ⊆ s.locs r := fun l hl => by
    obtain ⟨q, i, hq, hi, -, hloc⟩ := ht l hl
    rw [hk] at hq
    cases hq
    exact ⟨i, hi, hloc⟩
  refine ⟨out, s', h1, h.trail hs h1, h3.mono hsub, fun hc => ?_⟩
  obtain ⟨h4, h5⟩ := h2.settle hc
  have hout : ∀ i, ¬ (pd.x.write = true ∧ pd.x.off ≤ i ∧ i < pd.x.off + pd.x.n) →
      s'.content r i = s.content r i := fun i hi =>
    content_untouched hs.laid ht h3 hk fun _ => hi
  refine ⟨h4, funext fun i => ?_⟩
  split_ifs with hw
  · dsimp only
    by_cases hi : pd.x.off ≤ i ∧ i < pd.x.off + pd.x.n
    · rw [if_pos hi]
      exact h5 hw r (by rw [h3.find]; exact hk) i hi.1 hi.2
    · rw [if_neg hi]
      exact hout i fun h => hi h.2
  · exact hout i fun h => hw h.1

/-- **A transfer that writes**, on the content of its record. -/
theorem exec_scatter_write (hF : 2 ^ 64 ≤ E.fuel) (h : Sound s) (hk : s.find key = some r)
    {off : ℕ} {buf : List UInt8} (hn : off + buf.length ≤ r.size) (addr : ℕ) :
    ∃ a s', s.exec (lsScatter E s.direct (lsPlaceOf r) off buf.length true addr buf) = some (a, s') ∧
      Trail s.os s'.os ∧ Untouched (s.locs r) s s' ∧
      (clean s'.os ∨ a.1 = .ok → a.1 = .ok ∧ s'.content r = patch (s.content r) off buf) := by
  have hready := @ready_write _ _ _ hF s key r h hk off addr buf hn (fun a => { rc := a.1 })
    { rc := .ok } (fun _ => rfl) (fun _ _ h => h)
  obtain ⟨out, s', h1, ht, h2, h3⟩ := (hready.pending h).alone h hk
  rw [exec_bind] at h1
  obtain ⟨⟨a, s₁⟩, h4, h5⟩ := Option.bind_eq_some_iff.mp h1
  cases h5
  refine ⟨a, s₁, h4, ht, h2, fun hc => ?_⟩
  obtain ⟨h6, h7⟩ := h3 hc
  exact ⟨congrArg Out.rc h6, h7⟩

/-- **A transfer that reads**, from the content of its record. -/
theorem exec_scatter_read (hF : 2 ^ 64 ≤ E.fuel) (h : Sound s) (hk : s.find key = some r)
    {off n : ℕ} (hn : off + n ≤ r.size) (addr : ℕ) :
    ∃ a s', s.exec (lsScatter E s.direct (lsPlaceOf r) off n false addr []) = some (a, s') ∧
      Trail s.os s'.os ∧ Untouched (s.locs r) s s' ∧
      (clean s'.os ∨ a.1 = .ok → a = (.ok, slice (s.content r) off n) ∧
        s'.content r = s.content r) := by
  obtain ⟨out, s', h1, ht, h2, h3⟩ := ((@ready_read _ _ _ hF s key r h hk off n addr hn).pending h).alone h hk
  rw [exec_bind] at h1
  obtain ⟨⟨⟨rc, b⟩, s₁⟩, h4, h5⟩ := Option.bind_eq_some_iff.mp h1
  cases h5
  have hrc : (readOut (rc, b)).rc = rc := by cases rc <;> rfl
  refine ⟨(rc, b), s₁, h4, ht, h2, fun hc => ?_⟩
  rw [hrc] at h3
  obtain ⟨h6, h7⟩ := h3 hc
  have hok : rc = .ok := hrc.symm.trans (congrArg Out.rc h6)
  subst hok
  exact ⟨by rw [show b = slice (s.content r) off n from congrArg Out.data h6], h7⟩

/-! ## On the map -/

variable {m : RefMap} {e : Entry}

/-- The entry of one record has changed with its content. -/
theorem abs_content (h : Sound s) (ha : Abs Nowhere s m) (hk : s.find key = some r)
    (hu : Untouched (s.locs r) s s') (hsize : r.size = e.bytes.length)
    (hattr : ∀ x, m.lookup key = some x → e.attr = x.attr) (hc : s'.content r = e.byte) :
    Abs Nowhere s' (m.put key (some e)) := by
  refine ⟨fun k hk' => ?_, fun k q hq => ?_⟩
  · rw [hu.find] at hk'
    rw [RefMap.lookup_put, if_neg (fun hkk => by rw [hkk, hk'] at hk; cases hk)]
    exact ha.none k hk'
  · rw [hu.find] at hq
    obtain ⟨x, hx, hm⟩ := ha.some k q hq
    rw [RefMap.lookup_put]
    split_ifs with hkk
    · subst hkk
      rw [hk] at hq
      cases hq
      exact ⟨e, rfl, hsize, hm.attr.trans (hattr x hx).symm, fun i _ => congrFun hc i⟩
    · refine ⟨x, hx, hm.size, hm.attr, fun i hi => ?_⟩
      rw [content_untouched h.laid (targets_locs hk) hu hq fun h => absurd h.symm hkk]
      exact hm.bytes i hi

/-- Room has been made for the record of `key`, and its place taken. -/
theorem abs_resize {s₁ : Store σ} {fin : ℕ} (h : Roomed s s₁ key fin .ok) (hs : Slack s)
    (ha : Abs Nowhere s m) : Abs Nowhere (pin s₁ key).2
      (m.put key (some (((m.lookup key).getD {}).resize fin))) := by
  obtain ⟨r₁, hk₁, -, hattr, -, hr, -, hby⟩ := h.record
  obtain ⟨hsize, -⟩ := hr rfl
  obtain ⟨-, g2, g3, -, g5⟩ := pin_spec h.sound hk₁
  have hkept := hby.trans h.stays.slack (g5.mono fun _ => trivial)
  refine abs_put ha (h.stays.trans g2) hs (fun _ _ _ hd => hd)
    (fun hn => by rw [g3] at hn; cases hn) fun r hr => ⟨_, rfl, ?_⟩
  rw [g3] at hr
  cases hr
  exact matches_resize (ha.recAt key) hkept hs hsize hattr

/-- The record of `key` has been given free. -/
theorem abs_unpin (h : Sound s) (hsl : Slack s) (hk : s.find key = some r) (ha : Abs Nowhere s m) :
    Abs Nowhere (unpin s key) m := by
  obtain ⟨-, h2, h3, h4⟩ := unpin_spec h hk
  obtain ⟨e, he, hm⟩ := ha.some key r hk
  rw [← RefMap.put_lookup m key]
  refine abs_put ha h2 hsl (fun _ _ _ hd => hd) (fun hn => by rw [h3] at hn; cases hn)
    fun q hq => ⟨e, he, ?_⟩
  rw [h3] at hq
  cases hq
  exact ⟨hm.size, hm.attr, fun i hi => (congrFun (h4.content hsl) i).trans (hm.bytes i hi)⟩

/-- A store is one map only. -/
theorem abs_unique (h : Records s) (ha : Abs Nowhere s m) : m = s.map := by
  refine Finmap.ext_lookup fun k => ?_
  rw [lookup_map h]
  cases hk : s.find k with
  | none => rw [ha.none k hk]; rfl
  | some r =>
    obtain ⟨e, he, hm⟩ := ha.some k r hk
    obtain ⟨bytes, attr⟩ := e
    have hb : bytes = slice (s.content r) 0 r.size := by
      rw [hm.size]
      refine (eq_slice fun i _ => ?_).symm
      rw [Nat.zero_add]
      exact hm.bytes i id
    rw [he, Option.map_some, Store.entry, hb, hm.attr]

end

/-! ## Entries -/

namespace Entry

theorem ext_byte {e e' : Entry} (hlen : e.bytes.length = e'.bytes.length) (hattr : e.attr = e'.attr)
    (hb : e.byte = e'.byte) : e = e' := by
  obtain ⟨bytes, attr⟩ := e
  obtain ⟨bytes', attr'⟩ := e'
  dsimp only at hlen hattr
  subst hattr
  congr 1
  refine List.ext_getElem hlen fun i h1 h2 => ?_
  have := congrFun hb i
  rwa [byte, byte, List.getD_eq_getElem _ _ h1, List.getD_eq_getElem _ _ h2] at this

/-- Write the strings of a list, each at its offset. -/
def writes (e : Entry) (l : List (ℕ × List UInt8)) : Entry := l.foldl (fun e g => e.write g.1 g.2) e

/-- The highest end of the writes of a list. -/
def top : List (ℕ × List UInt8) → ℕ
  | [] => 0
  | g :: l => max (g.1 + g.2.length) (top l)

variable {e : Entry} {l : List (ℕ × List UInt8)}

theorem writes_attr : (e.writes l).attr = e.attr := by
  induction l generalizing e with
  | nil => rfl
  | cons g l ih => exact ih.trans (write_attr ..)

theorem length_writes : (e.writes l).bytes.length = max e.bytes.length (top l) := by
  induction l generalizing e with
  | nil => exact (Nat.max_eq_left (Nat.zero_le _)).symm
  | cons g l ih =>
    rw [writes, List.foldl_cons, ← writes, ih, length_write, top]
    omega

theorem byte_writes : (e.writes l).byte = l.foldl (fun f g => patch f g.1 g.2) e.byte := by
  induction l generalizing e with
  | nil => rfl
  | cons g l ih => rw [writes, List.foldl_cons, ← writes, ih, byte_write, List.foldl_cons]

/-- **Writes need not be made room for one by one.** -/
theorem writes_resize (e : Entry) (l : List (ℕ × List UInt8)) :
    (e.resize (top l)).writes l = e.writes l := by
  refine ext_byte ?_ (by rw [writes_attr, writes_attr, resize_attr]) ?_
  · rw [length_writes, length_writes, length_resize]
    omega
  · rw [byte_writes, byte_writes, show (e.resize (top l)).byte = e.byte from
      funext fun i => byte_resize e _ i]

end Entry

end Libspill
