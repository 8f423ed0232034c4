import Libspill.Critical
import Libspill.Ref

set_option autoImplicit false

/-!
# A store as a map

* `Abs D s m`: the store `s` holds the map `m`, except for the bytes in `D`, which a transfer that
  is still under way has yet to write.
* `Store.map`, **`abs_map`**: the map that a store is.
* `loc_disjoint`: no byte belongs to two records.
* `sound_untouched`, `slack_untouched`, `abs_untouched`: what the calls of a transfer do to a store.
-/

namespace Libspill

variable {σ : Type} [HonestOs σ]

open HonestOs (clean)

/-- A record is an entry, except for the bytes in `D`. -/
structure Matches (D : ℕ → Prop) (s : Store σ) (r : Rec) (e : Entry) : Prop where
  size : r.size = e.bytes.length
  attr : r.attr = e.attr
  bytes : ∀ i, ¬ D i → s.content r i = e.byte i

/-- A store is a map, except for the bytes in `D`. -/
structure Abs (D : CStr → ℕ → Prop) (s : Store σ) (m : RefMap) : Prop where
  none : ∀ k, s.find k = none → m.lookup k = none
  some : ∀ k r, s.find k = some r → ∃ e, m.lookup k = some e ∧ Matches (D k) s r e

section

variable {s s' : Store σ} {D D' : CStr → ℕ → Prop} {m : RefMap} {key : CStr} {r : Rec}

theorem Matches.mono {d d' : ℕ → Prop} {e : Entry} (h : Matches d s r e)
    (hd : ∀ i, d i → d' i) : Matches d' s r e :=
  ⟨h.size, h.attr, fun i hi => h.bytes i fun hdi => hi (hd i hdi)⟩

theorem Abs.mono (h : Abs D s m) (hD : ∀ k i, D k i → D' k i) : Abs D' s m :=
  ⟨h.none, fun k r hr => (h.some k r hr).imp fun _ he => ⟨he.1, he.2.mono (hD k)⟩⟩

theorem Abs.find_isSome (h : Abs D s m) (k : CStr) : (m.lookup k).isSome = (s.find k).isSome := by
  cases hk : s.find k with
  | none => rw [h.none k hk]; rfl
  | some r =>
    obtain ⟨e, he, -⟩ := h.some k r hk
    rw [he]; rfl

/-- The keys of a store are the keys of its map. -/
theorem Abs.keys (h : Abs D s m) (hwf : s.toc.WF) : (lsKeys s : Multiset CStr) = m.keys.val := by
  have hnd : (lsKeys s).Nodup := hwf.nodup
  refine (Multiset.Nodup.ext (Multiset.coe_nodup.mpr hnd) m.keys.nodup).mpr fun k => ?_
  rw [Multiset.mem_coe, Finset.mem_val, Finmap.mem_keys, ← Finmap.lookup_isSome, h.find_isSome]
  constructor
  · intro hk
    obtain ⟨r, hr, rfl⟩ := List.mem_map.mp hk
    rw [find_of_mem hwf hr]
    rfl
  · intro hk
    obtain ⟨r, hr⟩ := Option.isSome_iff_exists.mp hk
    obtain ⟨h1, h2⟩ := (find_iff_mem hwf).mp hr
    exact List.mem_map.mpr ⟨r, h1, h2⟩

/-- The entry a record is. -/
def Store.entry (s : Store σ) (r : Rec) : Entry := ⟨slice (s.content r) 0 r.size, r.attr⟩

/-- The content of a record ends with the record. -/
theorem content_past (hs : Slack s) (hk : s.find key = some r) {i : ℕ}
    (hi : r.size ≤ i) : s.content r i = 0 := by
  rw [Store.content, Store.loc]
  unfold locOf
  cases hm : r.mem with
  | some p => exact hs.mem key r i p hk hi hm
  | none =>
    cases hx : locate (s.exts r) i with
    | none => rfl
    | some x => exact hs.ext key r i x hk hi hx

theorem matches_entry (hs : Slack s) (hk : s.find key = some r) {d : ℕ → Prop} :
    Matches d s r (s.entry r) := by
  refine ⟨by simp [Store.entry], rfl, fun i _ => ?_⟩
  rw [Entry.byte, Store.entry]
  by_cases hi : i < r.size
  · rw [getD_slice _ _ _ _ hi, Nat.zero_add]
  · rw [content_past hs hk (by omega), List.getD_eq_default]
    simpa using hi

/-- The map a store is. -/
def Store.map (s : Store σ) : RefMap :=
  (s.recs.map fun r => (⟨r.key, s.entry r⟩ : Sigma fun _ : CStr => Entry)).toFinmap

theorem lookup_map (h : Records s) (k : CStr) : s.map.lookup k = (s.find k).map s.entry := by
  have hnd : (s.recs.map fun r => (⟨r.key, s.entry r⟩ : Sigma fun _ : CStr => Entry)).NodupKeys := by
    rw [List.NodupKeys, List.keys, List.map_map]
    exact h.wf.nodup
  rw [Store.map, Finmap.dlookup_list_toFinmap]
  cases hk : s.find k with
  | none =>
    rw [Option.map_none, List.dlookup_eq_none, List.keys, List.map_map]
    intro hmem
    obtain ⟨r, hr, hrk⟩ := List.mem_map.mp hmem
    have := (find_iff_mem h.wf).mpr ⟨hr, hrk⟩
    rw [hk] at this
    cases this
  | some r =>
    obtain ⟨h1, rfl⟩ := (find_iff_mem h.wf).mp hk
    exact List.mem_dlookup hnd (List.mem_map.mpr ⟨r, h1, rfl⟩)

/-- **A store whose slack is zero is a map.** -/
theorem abs_map (h : Records s) (hs : Slack s) : Abs D s s.map :=
  ⟨fun k hk => by rw [lookup_map h, hk]; rfl,
    fun k r hk => ⟨s.entry r, by rw [lookup_map h, hk]; rfl, matches_entry hs hk⟩⟩

/-! ## Where bytes are -/

omit [HonestOs σ] in
theorem pairwise_exts (h : Laid [] s) (hk : s.find key = some r) :
    (s.exts r).Pairwise Span.Apart := by
  obtain ⟨l₁, l₂, hl⟩ := List.append_of_mem ((find_iff_mem h.records.wf).mp hk).1
  have hperm := live_perm (s := s) (r := r) (l := l₁ ++ l₂) (by rw [hl]; exact List.perm_middle)
  exact (List.pairwise_append.mp (h.tiled.perm hperm).apart).1

omit [HonestOs σ] in
theorem loc_inj (h : Laid [] s) (hk : s.find key = some r) {i j : ℕ} {l : Loc}
    (hi : s.loc r i = some l) (hj : s.loc r j = some l) : i = j :=
  locOf_inj (pairwise_exts h hk) hi hj

omit [HonestOs σ] in
theorem mem_of_loc {i : ℕ} {p : Ptr} {j : ℕ} (hl : s.loc r i = some (.mem p j)) :
    r.mem = some p ∧ j = i := by
  unfold Store.loc locOf at hl
  cases hm : r.mem with
  | none => simp [hm] at hl
  | some q =>
    simp only [hm, Option.some.injEq, Loc.mem.injEq] at hl
    exact ⟨by rw [hl.1], hl.2.symm⟩

omit [HonestOs σ] in
theorem file_of_loc {i x : ℕ} (hl : s.loc r i = some (.file x)) :
    r.mem = none ∧ locate (s.exts r) i = some x := by
  unfold Store.loc locOf at hl
  cases hm : r.mem with
  | some q => simp [hm] at hl
  | none =>
    simp only [hm, Option.map_eq_some_iff] at hl
    obtain ⟨y, hy, hyx⟩ := hl
    cases hyx
    exact ⟨rfl, hy⟩

omit [HonestOs σ] in
/-- **No byte belongs to two records.** -/
theorem loc_disjoint (h : Laid [] s) {k k' : CStr} {q : Rec} (hk : s.find k = some r)
    (hk' : s.find k' = some q) {i j : ℕ} {l : Loc} (hi : s.loc r i = some l)
    (hj : s.loc q j = some l) : k = k' := by
  cases l with
  | mem p a =>
    exact h.records.mem_inj k k' r q p hk hk' (mem_of_loc hi).1 (mem_of_loc hj).1
  | file x =>
    by_contra hne
    exact exts_apart h hk hk' hne (covers_of_locate (file_of_loc hi).2)
      (covers_of_locate (file_of_loc hj).2)

/-! ## The calls of a transfer -/

/-- The target of a transfer is in the bytes `d` of the record of `key`. -/
def Targets (s : Store σ) (key : CStr) (d : ℕ → Prop) (T : Set Loc) : Prop :=
  ∀ l ∈ T, ∃ r i, s.find key = some r ∧ i < r.size ∧ d i ∧ s.loc r i = some l

theorem sound_untouched (h : Sound s) {T : Set Loc} {d : ℕ → Prop} (hT : Targets s key d T)
    (hu : Untouched T s s') : Sound s' := by
  have hs' := hu.rest
  have hexts : ∀ q, s'.exts q = s.exts q := fun q => by rw [hs']; rfl
  have hfind : ∀ k, s'.find k = s.find k := fun k => by rw [hs']; rfl
  have hlive : s'.live = s.live := by rw [hs']; rfl
  have hal : s'.al = s.al := by rw [hs']
  refine ⟨⟨⟨?_, fun k q hq => ?_, ?_, ?_⟩, ⟨?_, ?_, ?_, ?_, fun p i hp => ?_, ?_⟩, ?_, ?_⟩, ?_⟩
  · rw [hs']; exact h.laid.records.wf
  · rw [hfind] at hq
    have hok := h.laid.records.ok k q hq
    refine ⟨hok.noExt, hok.next_le, by rw [hexts]; exact hok.extTotal, hok.noMem, hok.hasMem, ?_, ?_⟩
    · rw [hs']; exact hok.ext_lt
    · rw [hs']; exact hok.mem_lt
  · simpa only [hfind] using h.laid.records.ext_inj
  · simpa only [hfind] using h.laid.records.mem_inj
  · rw [hs']; exact h.laid.tiered.lru_nodup
  · rw [hs']; exact h.laid.tiered.lru_mem
  · rw [hs']; exact h.laid.tiered.resident
  · rw [hs']; exact h.laid.tiered.resident_lt
  · have hnext : s'.memNext = s.memNext := by rw [hs']
    rw [hnext] at hp
    have : s'.byteAt (.mem p i) = s.byteAt (.mem p i) := hu.byte _ fun hl => by
      obtain ⟨r, j, hr, -, -, hj⟩ := hT _ hl
      exact absurd ((h.laid.records.ok _ _ hr).mem_lt p (mem_of_loc hj).1) (Nat.not_lt.mpr hp)
    exact this.trans (h.laid.tiered.fresh p i hp)
  · rw [hs']; exact h.laid.tiered.noTier
  · rw [hlive, hal]; exact h.laid.tiled
  · rw [hs']; exact h.laid.teardown
  · rw [hal]; exact h.flen.trans hu.len

theorem slack_untouched (h : Laid [] s) {T : Set Loc} {d : ℕ → Prop} (hT : Targets s key d T)
    (hu : Untouched T s s') (hs : Slack s) : Slack s' := by
  have hs' := hu.rest
  have hexts : ∀ q, s'.exts q = s.exts q := fun q => by rw [hs']; rfl
  have hfind : ∀ k, s'.find k = s.find k := fun k => by rw [hs']; rfl
  refine ⟨fun k q i x hq hi hx => ?_, fun k q i p hq hi hp => ?_⟩
  · rw [hfind] at hq
    rw [hexts] at hx
    rw [hu.byte, hs.ext k q i x hq hi hx]
    intro hl
    obtain ⟨r, j, hr, hj, -, hloc⟩ := hT _ hl
    obtain ⟨-, hjx⟩ := file_of_loc hloc
    by_cases hkk : k = key
    · subst hkk
      rw [hr] at hq
      cases hq
      have := locate_inj (pairwise_exts h hr) hjx hx
      omega
    · exact exts_apart h hq hr hkk (covers_of_locate hx) (covers_of_locate hjx)
  · rw [hfind] at hq
    have : s'.byteAt (.mem p i) = s.byteAt (.mem p i) := hu.byte _ fun hl => by
      obtain ⟨r, j, hr, hj, -, hloc⟩ := hT _ hl
      obtain ⟨hrp, hij⟩ := mem_of_loc hloc
      have hkk := h.records.mem_inj k key q r p hq hr hp hrp
      subst hkk
      rw [hr] at hq
      cases hq
      omega
    exact this.trans (hs.mem k q i p hq hi hp)

theorem content_untouched (h : Laid [] s) {T : Set Loc} {d : ℕ → Prop} (hT : Targets s key d T)
    (hu : Untouched T s s') {k : CStr} {q : Rec} (hq : s.find k = some q) {i : ℕ}
    (hi : k = key → ¬ d i) : s'.content q i = s.content q i := by
  have hloc : s'.loc q i = s.loc q i := by rw [hu.rest]; rfl
  rw [Store.content, Store.content, hloc]
  cases hl : s.loc q i with
  | none => rfl
  | some l =>
    refine hu.byte l fun hlT => ?_
    obtain ⟨r, j, hr, -, hd, hj⟩ := hT l hlT
    have hkk := loc_disjoint h hq hr hl hj
    subst hkk
    rw [hr] at hq
    cases hq
    obtain rfl := loc_inj h hr hl hj
    exact hi rfl hd

theorem abs_untouched (h : Laid [] s) (ha : Abs D s m) {T : Set Loc}
    (hT : Targets s key (D key) T) (hu : Untouched T s s') : Abs D s' m := by
  have hfind : ∀ k, s'.find k = s.find k := fun k => by rw [hu.rest]; rfl
  refine ⟨fun k hk => ha.none k (by rwa [hfind] at hk), fun k q hq => ?_⟩
  rw [hfind] at hq
  obtain ⟨e, he, hm⟩ := ha.some k q hq
  refine ⟨e, he, hm.size, hm.attr, fun i hi => ?_⟩
  rw [content_untouched h hT hu hq (fun hkk hd => hi (hkk ▸ hd)), hm.bytes i hi]

end

end Libspill
