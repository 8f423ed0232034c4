import Libspill.Enter

set_option autoImplicit false

/-!
# Transfers under way

A transfer runs outside the lock on a snapshot of its record. `Pending` is what stays true of it
while it runs: its snapshot is a prefix of the record's extents, its bytes are still bytes of the
record, and the rest of it will do its work (`Prog.wp`).

* `Pending.call`: its own next call.
* `Pending.untouched`: a call of another transfer.
* `Pending.other`, `Pending.same`: a critical section, about another key or about its own.
* `Pending.settle`: its end.
-/

namespace Libspill

variable {σ : Type} [HonestOs σ] {E : Env}

open HonestOs (clean)

/-- The bytes of a transfer's range have a place. -/
def Pend.Located (pd : Pend) : Prop :=
  ∀ i, pd.x.off ≤ i → i < pd.x.off + pd.x.n → ∃ l, locOf pd.pl.mem pd.es i = some l

/-- The snapshot of a transfer still says where the bytes of its record are. -/
structure Snapshot (s : Store σ) (pd : Pend) (r : Rec) : Prop where
  find : s.find pd.x.key = some r
  size : pd.x.off + pd.x.n ≤ r.size
  exts : pd.es <+: s.exts r
  locs : ∀ i l, locOf pd.pl.mem pd.es i = some l → s.loc r i = some l
  arr : pd.es = [] ∨ Frozen s (pd.pl.ext.getD 0) pd.es.length

/-- The program `p` is what is left of the transfer `pd`. -/
structure Pending (s : Store σ) (pd : Pend) (p : Io Out) : Prop where
  snap : ∃ r, Snapshot s pd r
  located : pd.Located
  next : pd.es.length = pd.pl.next
  view : ∃ v, p.wp (pd.foot s.direct).spec pd.Post v ∧ (pd.foot s.direct).Sees s v ∧
    ∀ b, (∀ e ∈ pd.es, e.fin ≤ b) → v.len ≤ b

section

variable {s s' : Store σ} {pd : Pend} {p : Io Out} {r : Rec} {key : CStr}

omit [HonestOs σ] in
theorem covers_of_region {direct : Bool} {x : ℕ} (hx : Loc.file x ∈ (pd.foot direct).R) :
    Covers pd.es x := by
  obtain ⟨i, -, hl⟩ := hx
  unfold locOf at hl
  cases hm : pd.pl.mem with
  | some q => simp [hm] at hl
  | none =>
    simp only [hm, Option.map_eq_some_iff] at hl
    obtain ⟨y, hy, hyx⟩ := hl
    cases hyx
    exact covers_of_locate hy

/-- A call does not stretch the view past the region. -/
theorem len_of_out {F : Foot} {c : Call} {v v' : View} {a : c.Ans} (hm : F.may c v)
    (ho : F.out c v a v') {b : ℕ} (hv : v.len ≤ b) (hR : ∀ x, Loc.file x ∈ F.R → x < b) :
    v'.len ≤ b := by
  cases c with
  | pread n off =>
    cases a with
    | ok b => rw [ho.1]; exact hv
    | error e => rw [ho.2]; exact hv
  | pwrite d off =>
    cases a with
    | error e => rw [ho.2.2.1]; exact hv
    | ok k =>
      rw [ho.2]
      simp only [View.put]
      split_ifs with hd
      · exact hv
      · have hpos := List.length_pos_iff.mpr hd
        have := hR _ (hm (d.length - 1) (by omega)).1
        omega
  | load q off n => rw [ho.1]; exact hv
  | store q off d => rw [ho]; exact hv
  | extent q i => rw [ho.1]; exact hv

theorem Ready.pending (h : Ready s pd p r) (hs : Sound s) : Pending s pd p := by
  have hok := hs.laid.records.ok _ _ h.find
  have hlocs : ∀ i, locOf pd.pl.mem pd.es i = s.loc r i := fun i => by rw [h.place, h.es]; rfl
  have harr : pd.es = [] ∨ r.ext = some (pd.pl.ext.getD 0) := by
    cases hx : r.ext with
    | none =>
      rw [h.es, Store.exts, hx]
      exact Or.inl rfl
    | some q =>
      rw [h.place, lsPlaceOf, hx]
      exact Or.inr rfl
  have hfin : ∀ e ∈ pd.es, e.fin ≤ s.flen := fun e he => by
    rw [h.es] at he
    exact (hs.laid.tiled.live_bounds (exts_subset_live hs.laid.records.wf h.find he)).2.trans hs.flen
  refine ⟨⟨r, h.find, h.size, by rw [h.es], fun i l hl => hlocs i ▸ hl, ?_⟩, fun i _ h2 => ?_, ?_, ?_⟩
  · refine harr.imp id fun hx => ⟨hok.ext_lt _ hx, fun k q hq hqx => ?_⟩
    have := hs.laid.records.ext_inj _ _ _ _ _ hq h.find hqx hx
    rw [this, h.find] at hq
    rw [← Option.some.inj hq, h.es, length_exts hok]
  · rw [hlocs, Store.loc]
    unfold locOf
    cases hm : r.mem with
    | some q => exact ⟨_, rfl⟩
    | none =>
      have h3 := (hok.noMem hm).2
      rw [hok.extTotal] at h3
      obtain ⟨x, hx⟩ := Option.isSome_iff_exists.mp
        (locate_isSome.mpr (h2.trans_le (h.size.trans h3)))
      exact ⟨.file x, by rw [hx]; rfl⟩
  · rw [h.es, h.place, length_exts hok]
    rfl
  · -- the least length that holds every extent
    obtain ⟨top, hle, htop⟩ := exists_top pd.es
    have hsees : (pd.foot s.direct).Sees s ⟨s.byteAt, top, false⟩ := by
      refine ⟨fun _ _ => rfl, htop _ hfin, fun h => (by cases h), fun i e he => ?_⟩
      rcases harr with hx | hx
      · have he' : pd.es[i]? = some e := he
        rw [hx] at he'
        cases he'
      · have he' : (s.exts r)[i]? = some e := h.es ▸ he
        have hi := (List.getElem?_eq_some_iff.mp he').1
        rw [length_exts hok] at hi
        rw [getElem?_exts hx hi] at he'
        exact Option.some.inj he'
    exact ⟨_, h.wp _ hsees hle, hsees, htop⟩

theorem Snapshot.untouched {T : Set Loc} (h : Snapshot s pd r) (hu : Untouched T s s') :
    Snapshot s' pd r := by
  obtain ⟨h1, h2, h3, h4, h5⟩ := h
  rw [hu.rest]
  exact ⟨h1, h2, h3, h4, h5⟩

/-- The next call of a transfer. -/
theorem Pending.call {c : Call} {k : c.Ans → Io Out} (h : Pending s pd (.call c k)) :
    Pending (perform c s).2 pd (k (perform c s).1) ∧
      Untouched (pd.foot s.direct).T s (perform c s).2 := by
  obtain ⟨v, ⟨hm, hk⟩, hv, hlen⟩ := h.view
  have hu := perform_untouched hv hm
  obtain ⟨v', h1, h2⟩ := simulates _ c s v hv hm
  obtain ⟨r, hr⟩ := h.snap
  have hdir : (perform c s).2.direct = s.direct := by rw [hu.rest]
  refine ⟨⟨⟨r, hr.untouched hu⟩, h.located, h.next, v', ?_, ?_, fun b hb => ?_⟩, hu⟩
  · rw [hdir]
    exact hk _ _ h1
  · rw [hdir]
    exact h2
  · refine len_of_out hm h1 (hlen b hb) fun x hx => ?_
    obtain ⟨e, he, hex⟩ := covers_of_region hx
    exact hex.2.trans_le (hb e he)

/-- A call of another transfer, whose target is not in this one's region. -/
theorem Pending.untouched {T : Set Loc} (h : Pending s pd p) (hu : Untouched T s s')
    (hT : ∀ l ∈ (pd.foot s.direct).R, l ∉ T) : Pending s' pd p := by
  obtain ⟨v, hp, hv, hlen⟩ := h.view
  obtain ⟨r, hr⟩ := h.snap
  have hdir : s'.direct = s.direct := by rw [hu.rest]
  refine ⟨⟨r, hr.untouched hu⟩, h.located, h.next, v, by rwa [hdir], ?_, hlen⟩
  rw [hdir]
  refine ⟨fun l hl => (hu.byte l (hT l hl)).trans (hv.byte l hl), hv.len.trans hu.len,
    fun hd hc => hv.dirty hd (hu.clean hc), fun i e he => ?_⟩
  rw [hu.rest]
  exact hv.arr i e he

/-- A critical section that leaves the bytes of the record where they are. -/
theorem Pending.kept (h : Pending s pd p) (hs : Sound s') (hst : s'.direct = s.direct)
    (hcl : clean s'.os → clean s.os) (hsl : Slack s)
    (harr : ∀ q n, Frozen s q n → Frozen s' q n ∧ ∀ i, i < n → s'.arr q i = s.arr q i)
    (hkept : ∀ r, s.find pd.x.key = some r → ∃ r', s'.find pd.x.key = some r' ∧ r.size ≤ r'.size ∧
      BytesKept True s s' r r') : Pending s' pd p := by
  obtain ⟨v, hp, hv, hlen⟩ := h.view
  obtain ⟨r, hr⟩ := h.snap
  obtain ⟨r', hr', hsize, hb⟩ := hkept r hr.find
  have hsnap : Snapshot s' pd r' := by
    refine ⟨hr', hr.size.trans hsize, hr.exts.trans hb.exts,
      fun i l hl => hb.locs trivial i l (hr.locs i l hl), hr.arr.imp id fun hf => (harr _ _ hf).1⟩
  refine ⟨⟨r', hsnap⟩, h.located, h.next, v, by rwa [hst], ?_, hlen⟩
  rw [hst]
  refine ⟨fun l hl => ?_, ?_, fun hd hc => hv.dirty hd (hcl hc), fun i e he => ?_⟩
  · obtain ⟨i, -, hi⟩ := id hl
    have h1 := hr.locs i l hi
    have h2 := congrFun (hb.content hsl) i
    rw [Store.content, Store.content, h1, hb.locs trivial i l h1] at h2
    exact h2.trans (hv.byte l hl)
  · refine hlen _ fun e he => ?_
    exact (hs.laid.tiled.live_bounds
      (exts_subset_live hs.laid.records.wf hr' (hsnap.exts.subset he))).2.trans hs.flen
  · rw [← hv.arr i e he]
    have hi : i < pd.es.length := (List.getElem?_eq_some_iff.mp he).1
    rcases hr.arr with hnil | hf
    · rw [hnil] at hi
      cases hi
    · exact (harr _ _ hf).2 i hi

/-- A critical section about another key. -/
theorem Pending.other (h : Pending s pd p) (hs : Sound s') (hst : Stays key s s')
    (hsl : Slack s) (hne : pd.x.key ≠ key) (hbusy : (s.recAt pd.x.key).busy ≠ 0) :
    Pending s' pd p :=
  h.kept hs hst.opts.2 hst.clean hsl hst.arr fun r hr => by
    obtain ⟨r', hr', hk⟩ := hst.some _ r hne hr
    rw [recAt_of_find hr] at hbusy
    exact ⟨r', hr', hk.size.ge, hk.bytes.mono fun _ => hbusy⟩

/-- A critical section about its own key that does not move the record. -/
theorem Pending.same (h : Pending s pd p) {op : Op} {ent : Entered}
    (he : Enters op pd.x.key s ent s') (hsl : Slack s) (hop : op.erases = false)
    (hin : op.InPlace s) : Pending s' pd p :=
  h.kept he.sound he.stays.opts.2 he.stays.clean hsl he.stays.arr fun r hr => by
    obtain ⟨r', hr', hsize, hb⟩ := he.kept hop r hr
    exact ⟨r', hr', hsize, hb.mono fun _ => hin⟩

/-- **The end of a transfer** that reports no failure: it answers what it should, and its bytes are in
the record. -/
theorem Pending.settle {out : Out} (h : Pending s pd (.ret out)) (hc : clean s.os ∨ out.rc = .ok) :
    out = pd.out ∧ (pd.x.write = true → ∀ r, s.find pd.x.key = some r → ∀ i, pd.x.off ≤ i →
      i < pd.x.off + pd.x.n → s.content r i = pd.byte i) := by
  obtain ⟨v, hp, hv, -⟩ := h.view
  obtain ⟨r, hr⟩ := h.snap
  rcases hp with hd | ⟨rfl, hw⟩
  · exact absurd hc (not_or.mpr ⟨hv.dirty hd.2, hd.1⟩)
  · refine ⟨rfl, fun hwr q hq i h1 h2 => ?_⟩
    rw [hr.find] at hq
    cases hq
    obtain ⟨l, hl⟩ := h.located i h1 h2
    rw [Store.content, hr.locs i l hl]
    exact (hv.byte l ⟨i, .of_mem h1 h2, hl⟩).trans (hw hwr i l h1 h2 hl)

/-- The critical section after a transfer: the map is whole again where the transfer wrote. -/
theorem Pending.landed {out : Out} (h : Pending s pd (.ret out)) (hs : Sound s) (hsl : Slack s)
    (hc : clean s.os ∨ out.rc = .ok) {D D' : CStr → ℕ → Prop} {m : RefMap} (ha : Abs D s m)
    (hD : ∀ k i, D k i → D' k i ∨ withXfer (fun _ _ => False) pd.x k i)
    (hbyte : pd.x.write = true → ∃ e, m.lookup pd.x.key = some e ∧
      ∀ i, pd.x.off ≤ i → i < pd.x.off + pd.x.n → e.byte i = pd.byte i) :
    Abs D' (unpin s pd.x.key) m := by
  obtain ⟨r, hr⟩ := h.snap
  obtain ⟨-, h2, h3, h4⟩ := unpin_spec hs hr.find
  obtain ⟨e, he, hm⟩ := ha.some _ r hr.find
  rw [← RefMap.put_lookup m pd.x.key]
  refine abs_put ha h2 hsl (fun k i hk hd => (hD k i hd).resolve_right ?_)
    (fun hn => by rw [h3] at hn; cases hn) fun q hq => ⟨e, he, ?_⟩
  · rintro (hf | ⟨-, hkk, -⟩)
    · exact hf
    · exact hk hkk
  · rw [h3] at hq
    cases hq
    refine ⟨hm.size, hm.attr, fun i hi => (congrFun (h4.content hsl) i).trans ?_⟩
    by_cases hd : D pd.x.key i
    · -- a byte the transfer has just written
      obtain ⟨hw, -, h5, h6⟩ := ((hD _ i hd).resolve_left hi).resolve_left id
      obtain ⟨e', he', hb⟩ := hbyte hw
      rw [he] at he'
      cases he'
      rw [(h.settle hc).2 hw r hr.find i h5 h6, hb i h5 h6]
    · exact hm.bytes i hd

/-- The target of a transfer is its range of its record. -/
theorem Pending.targets (h : Pending s pd p) : Targets s pd.x.key
    (fun i => pd.x.write = true ∧ pd.x.off ≤ i ∧ i < pd.x.off + pd.x.n) (pd.foot s.direct).T := by
  rintro l ⟨hw, i, h1, h2, hl⟩
  obtain ⟨r, hr⟩ := h.snap
  exact ⟨r, i, hr.find, h2.trans_le hr.size, ⟨hw, h1, h2⟩, hr.locs i l hl⟩

/-- A transfer that nobody disturbs runs to its end. -/
theorem Pending.exec (h : Pending s pd p) : ∃ out s', s.exec p = some (out, s') ∧
    Pending s' pd (.ret out) ∧ Untouched (pd.foot s.direct).T s s' := by
  induction p generalizing s with
  | ret out => exact ⟨out, s, rfl, h, .refl⟩
  | hang =>
    obtain ⟨v, hp, -⟩ := h.view
    exact hp.elim
  | call c k ih =>
    obtain ⟨h1, h2⟩ := h.call
    obtain ⟨out, s', h3, h4, h5⟩ := ih _ h1
    have hdir : (perform c s).2.direct = s.direct := by rw [h2.rest]
    rw [hdir] at h5
    exact ⟨out, s', h3, h4, h2.trans h5⟩

end

end Libspill
