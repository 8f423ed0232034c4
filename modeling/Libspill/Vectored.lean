import Libspill.Held
import Libspill.Session

set_option autoImplicit false

/-!
# Vectored calls

`ls_writev` and `ls_readv` against the plain calls, one for each segment in list order.

* `segvCheck_ok`, `segvCheck_error`: the check finds the highest end, or the first bad segment.
* `exec_segvLoop_write`, `exec_segvLoop_read`: the loop over the segments.
* `writev_spec`, `readv_spec`: the calls on the map.
-/

namespace Libspill

variable {σ : Type} [HonestOs σ] {E : Env}

open HonestOs (clean)

/-! ## Records that a call leaves alone -/

/-- The records of the other keys are busy as before and have their attributes. -/
structure Beyond (key : CStr) (s s' : Store σ) : Prop where
  none : ∀ k, k ≠ key → s.find k = none → s'.find k = none
  some : ∀ k r, k ≠ key → s.find k = some r →
    ∃ r', s'.find k = some r' ∧ r'.busy = r.busy ∧ r'.attr = r.attr

section

variable {s s' s'' : Store σ} {key : CStr} {r : Rec} {T : Set Loc}

theorem Stays.beyond (h : Stays key s s') : Beyond key s s' :=
  ⟨h.none, fun k r hk hr => (h.some k r hk hr).imp fun _ h => ⟨h.1, h.2.busy, h.2.attr⟩⟩

theorem Untouched.beyond (h : Untouched T s s') : Beyond key s s' :=
  ⟨fun k _ hk => by rwa [h.find], fun k r _ hr => ⟨r, by rwa [h.find], rfl, rfl⟩⟩

omit [HonestOs σ] in
theorem Beyond.trans (h : Beyond key s s') (h' : Beyond key s' s'') : Beyond key s s'' where
  none k hk hn := h'.none k hk (h.none k hk hn)
  some k r hk hr := by
    obtain ⟨r', hr', h1, h2⟩ := h.some k r hk hr
    obtain ⟨r'', hr'', h3, h4⟩ := h'.some k r' hk hr'
    exact ⟨r'', hr'', h3.trans h1, h4.trans h2⟩

/-- A whole call on a legal key. -/
theorem Settled.beyond (h : Settled s) (hs : Sound s') (hsl : Slack s') (hb : Beyond key s s')
    (hkey : lsKeyOk key = true) (hk : s'.find key = some r) (hbusy : r.busy = (s.recAt key).busy)
    (hattr : r.attr = (s.recAt key).attr) : Settled s' := by
  refine ⟨hs, hsl, fun k => ?_, fun k q hq => ?_⟩
  · by_cases hkk : k = key
    · rw [hkk, recAt_of_find hk, hbusy, h.idle]
    · cases hf : s.find k with
      | none => rw [recAt_of_none (hb.none k hkk hf)]
      | some q =>
        obtain ⟨q', hq', h1, -⟩ := hb.some k q hkk hf
        rw [recAt_of_find hq', h1, ← recAt_of_find hf, h.idle]
  · by_cases hkk : k = key
    · subst hkk
      rw [hk] at hq
      cases hq
      refine ⟨hkey, ?_⟩
      rw [hattr]
      cases hf : s.find k with
      | none =>
        rw [recAt_of_none hf]
        exact Nat.zero_le _
      | some q =>
        rw [recAt_of_find hf]
        exact (h.named k q hf).2
    · cases hf : s.find k with
      | none =>
        rw [hb.none k hkk hf] at hq
        cases hq
      | some p =>
        obtain ⟨q', hq', -, h2⟩ := hb.some k p hkk hf
        rw [hq] at hq'
        cases hq'
        rw [h2]
        exact h.named k p hf

theorem RefMap.put_put (m : RefMap) (key : CStr) (e e' : Option Entry) :
    (m.put key e).put key e' = m.put key e' := by
  refine Finmap.ext_lookup fun k => ?_
  rw [RefMap.lookup_put, RefMap.lookup_put, RefMap.lookup_put]
  split_ifs <;> rfl

end

/-! ## The check -/

/-- What is wrong with a segment. -/
def Seg.error (g : Seg) : Option Rc :=
  if g.len ≠ 0 && g.buf.isNone then some .inval
  else if g.off + g.len ≥ 2 ^ 64 then some .range
  else none

/-- What the segments write. -/
def segWrites (segs : List Seg) : List (ℕ × List UInt8) := segs.map fun g => (g.off, g.bytes)

/-- The arguments are 64-bit numbers. -/
def Segs64 (segs : List Seg) : Prop := ∀ g ∈ segs, g.off < 2 ^ 64 ∧ g.len < 2 ^ 64

theorem Seg.length_bytes {g : Seg} (h : g.error = none) : g.bytes.length = g.len := by
  obtain ⟨off, len, buf, addr⟩ := g
  cases buf with
  | none =>
    by_contra hne
    rw [Seg.error, if_pos (by simpa [Seg.bytes] using Ne.symm hne)] at h
    cases h
  | some b => exact b.2

theorem Seg.fin_lt {g : Seg} (h : g.error = none) : g.off + g.len < 2 ^ 64 := by
  by_contra hge
  rw [Seg.error] at h
  split_ifs at h with h1 h2
  exact h2 (by omega)

/-- **The check of segments that are right** finds their highest end. -/
theorem segvCheck_ok {segs : List Seg} (h : ∀ g ∈ segs, g.error = none) (hi : ℕ) :
    segvCheck segs hi = .ok (max hi (Entry.top (segWrites segs))) := by
  induction segs generalizing hi with
  | nil => exact congrArg _ (Nat.max_eq_left (Nat.zero_le _)).symm
  | cons g segs ih =>
    have hg := h g List.mem_cons_self
    have hlt := Seg.fin_lt hg
    have h1 : ¬ (g.len ≠ 0 && g.buf.isNone) = true := fun h1 => by
      rw [Seg.error, if_pos h1] at hg
      cases hg
    have hcons : segWrites (g :: segs) = (g.off, g.bytes) :: segWrites segs := rfl
    rw [segvCheck, if_neg h1, add64_eq hlt, if_neg (by omega),
      ih fun g hg => h g (List.mem_cons_of_mem _ hg), hcons, Entry.top, Seg.length_bytes hg]
    congr 1
    split_ifs <;> omega

/-- **The check of segments that are not** finds what is wrong with the first bad one. -/
theorem segvCheck_error {segs : List Seg} (h64 : Segs64 segs) {rc : Rc}
    (h : segs.findSome? Seg.error = some rc) (hi : ℕ) : segvCheck segs hi = .error rc := by
  induction segs generalizing hi with
  | nil => cases h
  | cons g segs ih =>
    obtain ⟨h1, h2⟩ := h64 g List.mem_cons_self
    rw [List.findSome?_cons] at h
    rw [segvCheck]
    simp only [add64_lt_iff h1 h2]
    cases hg : g.error with
    | none =>
      rw [hg] at h
      have := ih (fun g hg => h64 g (List.mem_cons_of_mem _ hg)) h
      rw [Seg.error] at hg
      split_ifs at hg ⊢ with h3 h4
      · exact this _
      · exact this _
    | some rc' =>
      rw [hg] at h
      cases h
      rw [Seg.error] at hg
      split_ifs at hg ⊢ with h3 h4
      · exact congrArg _ (Option.some.inj hg)
      · exact congrArg _ (Option.some.inj hg)

/-! ## The loop -/

section Loop

variable {s : Store σ} {key : CStr} {r : Rec} {segs : List Seg}

/-- The segments are inside the record. -/
def SegsIn (segs : List Seg) (r : Rec) : Prop := ∀ g ∈ segs, g.error = none ∧ g.off + g.len ≤ r.size

/-- The loop of `ls_writev`: by induction on the segments. -/
theorem exec_segvLoop_write (hF : 2 ^ 64 ≤ E.fuel) (h : Sound s) (hk : s.find key = some r)
    (hin : SegsIn segs r) (outs : List (List UInt8)) : ∃ a s',
      s.exec (segvLoop E s.direct (lsPlaceOf r) true segs outs) = some (a, s') ∧
      Untouched (s.locs r) s s' ∧ (clean s'.os ∨ a.1 = .ok → a.1 = .ok ∧
        s'.content r = (segWrites segs).foldl (fun f g => patch f g.1 g.2) (s.content r)) := by
  induction segs generalizing s outs with
  | nil => exact ⟨_, s, rfl, .refl, fun _ => ⟨rfl, rfl⟩⟩
  | cons g segs ih =>
    obtain ⟨hg, hend⟩ := hin g List.mem_cons_self
    have hlen := Seg.length_bytes hg
    obtain ⟨⟨rc, b⟩, s₁, h1, -, h2, h3⟩ := exec_scatter_write hF h hk
      (show g.off + g.bytes.length ≤ r.size by rwa [hlen]) g.addr
    rw [hlen] at h1
    rw [segvLoop, if_pos rfl, exec_bind, h1]
    dsimp only [Option.bind_some]
    by_cases hrc : rc ≠ .ok
    · rw [if_pos hrc]
      exact ⟨_, s₁, rfl, h2, fun hc => absurd (h3 hc).1 hrc⟩
    rw [if_neg hrc]
    rw [not_not] at hrc
    have hs₁ := sound_untouched h (targets_locs hk) h2
    obtain ⟨a, s', g1, g2, g3⟩ := ih hs₁ (by rw [h2.find]; exact hk)
      (fun g hg => hin g (List.mem_cons_of_mem _ hg)) (outs ++ [b])
    rw [show s₁.direct = s.direct by rw [h2.rest]] at g1
    rw [h2.locs] at g2
    refine ⟨a, s', g1, h2.trans g2, fun hc => ?_⟩
    obtain ⟨g4, g5⟩ := g3 hc
    exact ⟨g4, by rw [g5, (h3 (Or.inr hrc)).2]; rfl⟩

/-- The loop of `ls_readv`: by induction on the segments. -/
theorem exec_segvLoop_read (hF : 2 ^ 64 ≤ E.fuel) (h : Sound s) (hk : s.find key = some r)
    (hin : SegsIn segs r) (outs : List (List UInt8)) : ∃ a s',
      s.exec (segvLoop E s.direct (lsPlaceOf r) false segs outs) = some (a, s') ∧
      Untouched (s.locs r) s s' ∧ (clean s'.os ∨ a.1 = .ok →
        a = (.ok, outs ++ segs.map fun g => slice (s.content r) g.off g.len) ∧
        s'.content r = s.content r) := by
  induction segs generalizing s outs with
  | nil => exact ⟨_, s, rfl, .refl, fun _ => ⟨by rw [List.map_nil, List.append_nil], rfl⟩⟩
  | cons g segs ih =>
    obtain ⟨hg, hend⟩ := hin g List.mem_cons_self
    obtain ⟨⟨rc, b⟩, s₁, h1, -, h2, h3⟩ := exec_scatter_read hF h hk hend g.addr
    rw [segvLoop, if_neg (by decide), exec_bind, h1]
    dsimp only [Option.bind_some]
    by_cases hrc : rc ≠ .ok
    · rw [if_pos hrc]
      exact ⟨_, s₁, rfl, h2, fun hc => absurd (congrArg Prod.fst (h3 hc).1) hrc⟩
    rw [if_neg hrc]
    rw [not_not] at hrc
    have hs₁ := sound_untouched h (targets_locs hk) h2
    obtain ⟨a, s', g1, g2, g3⟩ := ih hs₁ (by rw [h2.find]; exact hk)
      (fun g hg => hin g (List.mem_cons_of_mem _ hg)) (outs ++ [b])
    rw [show s₁.direct = s.direct by rw [h2.rest]] at g1
    rw [h2.locs] at g2
    refine ⟨a, s', g1, h2.trans g2, fun hc => ?_⟩
    obtain ⟨h4, h5⟩ := h3 (Or.inr hrc)
    obtain ⟨g4, g5⟩ := g3 hc
    refine ⟨?_, g5.trans h5⟩
    rw [g4, h5, show b = _ from congrArg Prod.snd h4, List.append_assoc]
    rfl

end Loop

/-! ## The calls -/

/-- What every call on a store between two calls leaves, whatever the operating system answered. -/
structure Next (s s' : Store σ) : Prop where
  settled : Settled s'
  opts : s'.o = s.o ∧ s'.direct = s.direct
  clean : clean s'.os → HonestOs.clean s.os

section Calls

variable {s s₁ s' : Store σ} {key : CStr} {r : Rec} {segs : List Seg} {m : RefMap}

theorem top_lt (h : ∀ g ∈ segs, g.error = none) : Entry.top (segWrites segs) < 2 ^ 64 := by
  induction segs with
  | nil => norm_num [segWrites, Entry.top]
  | cons g segs ih =>
    have hg := h g List.mem_cons_self
    have hcons : segWrites (g :: segs) = (g.off, g.bytes) :: segWrites segs := rfl
    rw [hcons, Entry.top, Seg.length_bytes hg]
    exact max_lt (Seg.fin_lt hg) (ih fun g hg => h g (List.mem_cons_of_mem _ hg))

theorem segsIn_of_top (h : ∀ g ∈ segs, g.error = none)
    (htop : Entry.top (segWrites segs) ≤ r.size) : SegsIn segs r := by
  induction segs with
  | nil => exact fun g hg => (by cases hg)
  | cons g segs ih =>
    have hg := h g List.mem_cons_self
    have hcons : segWrites (g :: segs) = (g.off, g.bytes) :: segWrites segs := rfl
    rw [hcons, Entry.top, Seg.length_bytes hg] at htop
    intro g' hg'
    rcases List.mem_cons.mp hg' with rfl | hm
    · exact ⟨hg, by omega⟩
    · exact ih (fun g hg => h g (List.mem_cons_of_mem _ hg)) (by omega) g' hm

/-- A call that could not get room. -/
theorem Roomed.next {fin : ℕ} {rc : Rc} (h : Settled s) (hr : Roomed s s₁ key fin rc)
    (hkey : lsKeyOk key = true) : Next s s₁ := by
  obtain ⟨r₁, hk₁, hbusy, hattr, -⟩ := hr.record
  exact ⟨h.beyond hr.sound (hr.stays.slack h.slack) hr.stays.beyond hkey hk₁ hbusy hattr,
    hr.stays.opts, hr.stays.clean⟩

/-- Giving a record free after transfers on it, whose place was taken in `s₁`. -/
theorem next_unpin {s₂ s₃ : Store σ} {busy : ℕ} (h : Settled s) (hkey : lsKeyOk key = true)
    (hst : Stays key s s₂) (hs₂ : Sound s₂) (hk : s₂.find key = some { r with busy := busy + 1 })
    (hbusy : busy = (s.recAt key).busy) (hattr : r.attr = (s.recAt key).attr)
    (hu : Untouched (s₂.locs { r with busy := busy + 1 }) s₂ s₃) : Next s (unpin s₃ key) := by
  have hs₃ := sound_untouched hs₂ (targets_locs hk) hu
  obtain ⟨g1, g2, g3, -⟩ := unpin_spec hs₃ ((hu.find key).trans hk)
  have hsl := slack_untouched hs₂.laid (targets_locs hk) hu (hst.slack h.slack)
  have hopts : s₃.o = s₂.o ∧ s₃.direct = s₂.direct := by rw [hu.rest]; exact ⟨rfl, rfl⟩
  refine ⟨h.beyond g1 (g2.slack hsl) ((hst.beyond.trans hu.beyond).trans g2.beyond) hkey g3 ?_ hattr,
    ⟨g2.opts.1.trans (hopts.1.trans hst.opts.1), g2.opts.2.trans (hopts.2.trans hst.opts.2)⟩,
    fun hc => hst.clean (hu.clean (g2.clean hc))⟩
  rw [← hbusy]
  exact Nat.add_sub_cancel _ _

/-- **`ls_writev`** makes room once and writes its segments in order. -/
theorem writev_spec (hF : 2 ^ 64 ≤ E.fuel) (h : Settled s) (hkey : lsKeyOk key = true)
    (hne : segs ≠ []) (hok : ∀ g ∈ segs, g.error = none)
    (hfz : frozen s key (Entry.top (segWrites segs)) = false)
    (hroom : RoomFits E s key (Entry.top (segWrites segs))) :
    ∃ a s', lsWritev E s key segs = some (a, s') ∧ Next s s' ∧
      (clean s'.os ∨ a.1 = .ok → a.1 = .ok ∧ ∀ m, Abs Nowhere s m →
        Abs Nowhere s' (m.put key (some (((m.lookup key).getD {}).writes (segWrites segs))))) := by
  have hlt := top_lt hok
  have hcheck := segvCheck_ok hok 0
  rw [Nat.max_eq_right (Nat.zero_le _)] at hcheck
  have hemp : segs.isEmpty = false := by simpa using hne
  rw [lsWritev, segv, if_neg (by simp [hkey]), hemp, if_neg (by decide), hcheck]
  dsimp only
  obtain ⟨rc, s₁, h1, h2⟩ := makeRoom_spec hF h.sound hlt hroom
  rw [segvBegin, if_pos rfl, if_neg (by simp [hfz]), h1]
  dsimp only
  by_cases hrc : rc ≠ .ok
  · rw [if_pos hrc]
    exact ⟨_, _, rfl, h2.next h hkey, fun hc => absurd (hc.elim h2.clean id) hrc⟩
  rw [if_neg hrc]
  rw [not_not] at hrc
  subst hrc
  dsimp only
  obtain ⟨r₁, hk₁, hbusy, hattr, -, hr, -, -⟩ := h2.record
  obtain ⟨hsize, -⟩ := hr rfl
  obtain ⟨p1, p2, p3, p4, -⟩ := pin_spec h2.sound hk₁
  obtain ⟨a, s₃, q1, q2, q3⟩ := exec_segvLoop_write hF p1 p3
    (segsIn_of_top hok (by dsimp only; omega)) []
  rw [show lsPlaceOf { r₁ with busy := r₁.busy + 1 } = (pin s₁ key).1 from p4.symm] at q1
  rw [q1]
  have hsl₂ := p2.slack (h2.stays.slack h.slack)
  have hs₃ := sound_untouched p1 (targets_locs p3) q2
  have hsl₃ := slack_untouched p1.laid (targets_locs p3) q2 hsl₂
  have hnext : Next s (unpin s₃ key) := next_unpin h hkey (h2.stays.trans p2) p1 p3 hbusy hattr q2
  have hclean : clean (unpin s₃ key).os → clean s₃.os := id
  refine ⟨a, _, rfl, hnext, fun hc => ?_⟩
  obtain ⟨q4, q5⟩ := q3 (hc.imp hclean id)
  refine ⟨q4, fun m ha => ?_⟩
  have ha₂ := abs_resize h2 h.slack ha
  obtain ⟨e, he, hm⟩ := ha₂.some _ _ p3
  rw [RefMap.lookup_put, if_pos rfl] at he
  obtain rfl := Option.some.inj he
  have ha₃ := abs_content p1 ha₂ p3 q2
    (e := (((m.lookup key).getD {}).resize (Entry.top (segWrites segs))).writes (segWrites segs))
    (by
      rw [Entry.length_writes, Entry.length_resize, ← (ha.recAt key).size]
      dsimp only
      omega)
    (fun x hx => by
      rw [RefMap.lookup_put, if_pos rfl] at hx
      obtain rfl := Option.some.inj hx
      exact Entry.writes_attr)
    (by rw [q5, Entry.byte_writes, funext fun i => hm.bytes i id])
  rw [RefMap.put_put, Entry.writes_resize] at ha₃
  exact abs_unpin hs₃ hsl₃ ((q2.find key).trans p3) ha₃

/-- **`ls_readv`** reads its segments in order, and changes nothing. -/
theorem readv_spec (hF : 2 ^ 64 ≤ E.fuel) (h : Settled s) (hkey : lsKeyOk key = true)
    (hne : segs ≠ []) (hok : ∀ g ∈ segs, g.error = none) (hk : s.find key = some r)
    (htop : Entry.top (segWrites segs) ≤ r.size) :
    ∃ a s', lsReadv E s key segs = some (a, s') ∧ Next s s' ∧
      (clean s'.os ∨ a.1 = .ok →
        a = (.ok, segs.map fun g => slice (s.content r) g.off g.len) ∧
        ∀ m, Abs Nowhere s m → Abs Nowhere s' m) := by
  have hcheck := segvCheck_ok hok 0
  rw [Nat.max_eq_right (Nat.zero_le _)] at hcheck
  have hemp : segs.isEmpty = false := by simpa using hne
  rw [lsReadv, segv, if_neg (by simp [hkey]), hemp, if_neg (by decide), hcheck]
  dsimp only
  rw [segvBegin, if_neg (by decide), hk, if_neg (by simp), recAt_of_find hk,
    if_neg (by omega)]
  dsimp only
  obtain ⟨p1, p2, p3, p4, p5⟩ := pin_spec h.sound hk
  obtain ⟨a, s₃, q1, q2, q3⟩ := exec_segvLoop_read hF p1 p3 (segsIn_of_top hok htop) []
  rw [show lsPlaceOf { r with busy := r.busy + 1 } = (pin s key).1 from p4.symm] at q1
  rw [q1]
  have hsl₂ := p2.slack h.slack
  have hs₃ := sound_untouched p1 (targets_locs p3) q2
  have hsl₃ := slack_untouched p1.laid (targets_locs p3) q2 hsl₂
  have hrec := recAt_of_find hk
  have hnext : Next s (unpin s₃ key) := next_unpin h hkey p2 p1 p3 (by rw [hrec]) (by rw [hrec]) q2
  have hclean : clean (unpin s₃ key).os → clean s₃.os := id
  have hsame : (pin s key).2.content { r with busy := r.busy + 1 } = s.content r := p5.content h.slack
  refine ⟨a, _, rfl, hnext, fun hc => ?_⟩
  obtain ⟨q4, q5⟩ := q3 (hc.imp hclean id)
  refine ⟨by rw [q4, hsame, List.nil_append], fun m ha => ?_⟩
  obtain ⟨e, he, hm⟩ := ha.some _ _ hk
  have ha₂ : Abs Nowhere (pin s key).2 m := by
    rw [← RefMap.put_lookup m key]
    refine abs_put ha p2 h.slack (fun _ _ _ hd => hd) (fun hn => by rw [p3] at hn; cases hn)
      fun q hq => ⟨e, he, ?_⟩
    rw [p3] at hq
    cases hq
    exact ⟨hm.size, hm.attr, fun i hi => (congrFun hsame i).trans (hm.bytes i hi)⟩
  have ha₃ := abs_content p1 ha₂ p3 q2 hm.size (fun x hx => by
    rw [he] at hx
    exact congrArg Entry.attr (Option.some.inj hx)) (by
    rw [q5, hsame]
    exact funext fun i => hm.bytes i id)
  rw [← he, RefMap.put_lookup] at ha₃
  exact abs_unpin hs₃ hsl₃ ((q2.find key).trans p3) ha₃

end Calls

end Libspill
