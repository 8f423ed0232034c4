import Libspill.Mapping
import Libspill.Growth
import Libspill.Reach

set_option autoImplicit false

/-!
# Mappings and transfers

A mapped record is reached in two ways: through its mapping, and by `ls_scatter`. Both put a list of
extents one after the other.

* `slices`, `mapLoop_slices`: the pieces of the mapping.
* `lsOsMapExtents_ok`, `lsOsMapExtents_keeps`: what a mapping shows, and what it leaves alone.
* `MapCall`, `MapCall.run_cases`: the calls on a mapped store, and what one does to the mappings.
* **`mapping_as_scatter`**: both ways lead to the same bytes of the file, also after the record has grown.
* **`map_covers`**: when the length that `ls_map` hands out is mapped.
-/

namespace Libspill

open HonestMap (page shows taken)

variable {μ : Type} [HonestMap μ]

/-! ## The slices of a mapping -/

/-- The slices over which the extents of a record are mapped, each by its offset from the base. -/
def slices : List Extent → ℕ → List Extent
  | [], _ => []
  | e :: es, pos => ⟨pos, e.len⟩ :: slices es (add64 pos e.len)

/-- Map extents over slices. -/
def mapSlices (base : ℕ) : List (Extent × Extent) → μ → Except Errno Unit × μ
  | [], m => (.ok (), m)
  | (sl, e) :: rest, m =>
    match MapOs.mmapFixed m (add64 base sl.foff) sl.len e.foff with
    | (.error err, m) => (.error err, m)
    | (.ok _, m) => mapSlices base rest m

/-- The loop of `ls_os_map_extents` maps each extent over its slice. -/
theorem mapLoop_slices (base : ℕ) (es : List Extent) (pos : ℕ) (m : μ) :
    mapLoop base es pos m = mapSlices base ((slices es pos).zip es) m := by
  induction es generalizing pos m with
  | nil => rfl
  | cons e es ih =>
    rw [mapLoop, slices, List.zip_cons_cons, mapSlices]
    dsimp only
    cases MapOs.mmapFixed m (add64 base pos) e.len e.foff with
    | mk a m' =>
      cases a with
      | error err => rfl
      | ok u => exact ih _ _

/-- **The slices cover their range without gap or overlap.** -/
theorem slices_tile {es : List Extent} {pos : ℕ} (h : pos + total es < 2 ^ 64) :
    (slices es pos).Pairwise Span.Apart ∧
      ∀ p, Covers (slices es pos) p ↔ pos ≤ p ∧ p < pos + total es := by
  induction es generalizing pos with
  | nil =>
    refine ⟨List.Pairwise.nil, fun p => ?_⟩
    rw [slices, total_nil]
    simp only [covers_nil, false_iff]
    omega
  | cons e es ih =>
    rw [total_cons] at h
    have hpos : add64 pos e.len = pos + e.len := add64_eq (by omega)
    rw [slices, hpos]
    obtain ⟨h1, h2⟩ := @ih (pos + e.len) (by omega)
    refine ⟨List.pairwise_cons.mpr ⟨fun sl hsl x hx hx' => ?_, h1⟩, fun p => ?_⟩
    · have h3 := (h2 x).mp ⟨sl, hsl, hx'⟩
      have h4 : pos ≤ x ∧ x < pos + e.len := hx
      omega
    · rw [covers_cons, h2, total_cons]
      show (pos ≤ p ∧ p < pos + e.len) ∨ _ ↔ _
      omega

theorem mapTotal_eq (es : List Extent) : MStore.mapTotal es = total es % 2 ^ 64 := by
  have hall : ∀ (es : List Extent) (t : ℕ), es.foldl (fun total e => add64 total e.len) (t % 2 ^ 64) =
      (t + total es) % 2 ^ 64 := by
    intro es
    induction es with
    | nil => exact fun _ => rfl
    | cons e es ih =>
      intro t
      rw [List.foldl_cons, add64, Nat.mod_add_mod, ih, total_cons, Nat.add_assoc]
  have := hall es 0
  rwa [Nat.zero_mod, Nat.zero_add] at this

/-! ## Pages -/

theorem pagesUp_mono {pg a b : ℕ} (h : a ≤ b) : pagesUp pg a ≤ pagesUp pg b :=
  Nat.mul_le_mul_right pg (Nat.div_le_div_right (Nat.add_le_add_right h _))

theorem pagesUp_add {pg a n : ℕ} (hpg : 0 < pg) (hd : pg ∣ a) : pagesUp pg (a + n) = a + pagesUp pg n := by
  obtain ⟨k, rfl⟩ := hd
  rw [pagesUp, pagesUp, Nat.add_assoc, Nat.mul_add_div hpg, Nat.add_mul, Nat.mul_comm k pg]

/-! ## Stitching -/

section

variable {m m' : μ} {es : List Extent} {base : ℕ}

/-- What the loop has mapped when it is through: by induction on the extents that are left, with those
that are mapped before them. -/
theorem mapLoop_ok (es pre : List Extent) {m : μ} (hbase : base + total pre ≤ 2 ^ 63)
    (hshow : ∀ p, p < total pre → shows m (base + p) = locate pre p)
    (hok : (mapLoop base es (total pre) m).1 = .ok ()) :
    base + total (pre ++ es) ≤ 2 ^ 63 ∧ (∀ e ∈ es, e.fin ≤ 2 ^ 63) ∧
      (∀ p, p < total (pre ++ es) →
        shows (mapLoop base es (total pre) m).2 (base + p) = locate (pre ++ es) p) ∧
      ∀ x, taken m x → taken (mapLoop base es (total pre) m).2 x := by
  induction es generalizing pre m with
  | nil =>
    rw [List.append_nil]
    exact ⟨hbase, by simp, hshow, fun _ => id⟩
  | cons e es ih =>
    have ha : add64 base (total pre) = base + total pre := add64_eq (by omega)
    have hf := HonestMap.fixed_ok m (base + total pre) e.len e.foff
    have ht := fun x => HonestMap.fixed_taken m (base + total pre) e.len e.foff x
    have hframe := fun x => HonestMap.fixed_frame m (base + total pre) e.len e.foff x
    rw [mapLoop, ha] at hok ⊢
    generalize MapOs.mmapFixed m (base + total pre) e.len e.foff = q at hok hf ht hframe ⊢
    obtain ⟨a, m₁⟩ := q
    cases a with
    | error err => cases hok
    | ok u =>
      dsimp only at hok hf ht hframe ⊢
      obtain ⟨-, h1, h2, h3⟩ := hf rfl
      have hp : add64 (total pre) e.len = total (pre ++ [e]) := by
        rw [add64_eq (by omega)]
        simp
      have htp : total (pre ++ [e]) = total pre + e.len := by simp
      rw [hp] at hok ⊢
      have hshow₁ : ∀ p, p < total (pre ++ [e]) → shows m₁ (base + p) = locate (pre ++ [e]) p := by
        intro p hlt
        by_cases hold : p < total pre
        · rw [(hframe _ (Or.inr (Or.inl (by omega)))).1, hshow p hold, locate_append_left hold]
        · rw [h3 _ (by omega) (by omega), show p = total pre + (p - total pre) by omega,
            locate_middle (by omega)]
          congr 2
          omega
      obtain ⟨g1, g2, g3, g4⟩ := ih (pre ++ [e]) (by omega) hshow₁ hok
      rw [List.append_assoc, List.singleton_append] at g1 g3
      refine ⟨g1, fun b hb => ?_, g3, fun x hx => g4 x (ht x rfl hx)⟩
      rcases List.mem_cons.mp hb with rfl | hb
      · exact h2
      · exact g2 b hb

/-- The loop leaves the pages outside of its range alone, also when it gives up. -/
theorem mapLoop_frame (es pre : List Extent) {m : μ} (hd : page μ ∣ base)
    (hbase : base + total (pre ++ es) < 2 ^ 64) {x : ℕ}
    (hx : x < base ∨ base + pagesUp (page μ) (total (pre ++ es)) ≤ x) :
    shows (mapLoop base es (total pre) m).2 x = shows m x ∧
      (taken m x → taken (mapLoop base es (total pre) m).2 x) := by
  induction es generalizing pre m with
  | nil => exact ⟨rfl, id⟩
  | cons e es ih =>
    have htot : total (pre ++ e :: es) = total pre + (e.len + total es) := by simp
    have htp : total (pre ++ [e]) = total pre + e.len := by simp
    have ha : add64 base (total pre) = base + total pre := add64_eq (by omega)
    have hout : ¬ page μ ∣ base + total pre ∨ x < base + total pre ∨
        base + total pre + pagesUp (page μ) e.len ≤ x := by
      by_cases hdp : page μ ∣ base + total pre
      swap
      · exact Or.inl hdp
      have h1 := pagesUp_add (n := e.len + total es) HonestMap.page_pos ((Nat.dvd_add_right hd).mp hdp)
      have h2 : pagesUp (page μ) e.len ≤ pagesUp (page μ) (e.len + total es) :=
        pagesUp_mono (Nat.le_add_right _ _)
      rw [htot, h1] at hx
      omega
    have hframe := HonestMap.fixed_frame m (base + total pre) e.len e.foff x hout
    rw [mapLoop, ha]
    generalize MapOs.mmapFixed m (base + total pre) e.len e.foff = q at hframe ⊢
    obtain ⟨a, m₁⟩ := q
    cases a with
    | error err => exact hframe
    | ok u =>
      dsimp only at hframe ⊢
      have hp : add64 (total pre) e.len = total (pre ++ [e]) := by
        rw [add64_eq (by omega), htp]
      have heq : pre ++ [e] ++ es = pre ++ e :: es := by simp
      rw [hp]
      obtain ⟨g1, g2⟩ := ih (pre ++ [e]) (m := m₁) (heq ▸ hbase) (heq ▸ hx)
      exact ⟨g1.trans hframe.1, fun h => g2 (hframe.2 h)⟩

/-- **A mapping that is made** has not wrapped, and shows the bytes of the extents in order. -/
theorem lsOsMapExtents_ok (h : lsOsMapExtents m es (MStore.mapTotal es) = (.ok base, m')) :
    MStore.mapTotal es = total es ∧ total es ≤ 2 ^ 63 ∧ (∀ e ∈ es, e.fin ≤ 2 ^ 63) ∧
      (∀ p, p < total es → shows m' (base + p) = locate es p) ∧
      page μ ∣ base ∧ ∀ x, base ≤ x → x < base + pagesUp (page μ) (total es) → ¬ taken m x ∧ taken m' x := by
  rw [lsOsMapExtents] at h
  have hanon := HonestMap.anon_ok m (MStore.mapTotal es)
  generalize MapOs.mmapAnon m (MStore.mapTotal es) = q at h hanon
  obtain ⟨a, m₁⟩ := q
  cases a with
  | error err => cases h
  | ok b =>
    dsimp only at h hanon
    obtain ⟨hd, hb, hfree⟩ := hanon b rfl
    have hloop := @mapLoop_ok μ _ b es [] m₁ (by rw [total_nil]; omega)
      (fun p hp => absurd hp (Nat.not_lt_zero p))
    rw [total_nil, List.nil_append] at hloop
    generalize mapLoop b es 0 m₁ = q at h hloop
    obtain ⟨a, m₂⟩ := q
    cases a with
    | error err => cases h
    | ok u =>
      cases h
      obtain ⟨h1, h2, h3, h4⟩ := hloop rfl
      have htot : MStore.mapTotal es = total es := by
        rw [mapTotal_eq]
        exact Nat.mod_eq_of_lt (by omega)
      rw [htot] at hfree
      exact ⟨htot, by omega, h2, h3, hd, fun x hx hx' => ⟨(hfree x hx hx').1, h4 x (hfree x hx hx').2⟩⟩

/-- Mapping a record, also when it fails, leaves the other mappings alone, unless the lengths of its
extents wrap. -/
theorem lsOsMapExtents_keeps (hes : total es < 2 ^ 64) {x : ℕ} (hx : taken m x) :
    shows (lsOsMapExtents m es (MStore.mapTotal es)).2 x = shows m x ∧
      taken (lsOsMapExtents m es (MStore.mapTotal es)).2 x := by
  have htot : MStore.mapTotal es = total es := by
    rw [mapTotal_eq]
    exact Nat.mod_eq_of_lt hes
  rw [htot, lsOsMapExtents]
  have hanon := HonestMap.anon_ok m (total es)
  have hframe := HonestMap.anon_frame m (total es) x hx
  generalize MapOs.mmapAnon m (total es) = q at hanon hframe ⊢
  obtain ⟨a, m₁⟩ := q
  cases a with
  | error err => exact hframe
  | ok b =>
    dsimp only at hanon hframe ⊢
    obtain ⟨hd, hb, hfree⟩ := hanon b rfl
    have hout : x < b ∨ b + pagesUp (page μ) (total es) ≤ x := by
      by_contra hin
      exact (hfree x (by omega) (by omega)).1 hx
    have hloop := mapLoop_frame es [] (m := m₁) hd (by rw [List.nil_append]; omega) hout
    rw [total_nil] at hloop
    generalize mapLoop b es 0 m₁ = q at hloop ⊢
    obtain ⟨a, m₂⟩ := q
    obtain ⟨h1, h2⟩ := hloop
    cases a with
    | ok u => exact ⟨h1.trans hframe.1, h2 hframe.2⟩
    | error err =>
      obtain ⟨g1, g2⟩ := HonestMap.unmap_frame m₂ b (total es) x hout
      exact ⟨(g1.trans h1).trans hframe.1, g2 (h2 hframe.2)⟩

end

/-! ## The calls on a mapped store -/

/-- The calls on a mapped store. -/
inductive MapCall where
  | plain (op : Op)
  | vectored (key : CStr) (segs : List Seg) (write : Bool)
  | map (key : CStr)
  | unmap (key : CStr)

section

variable {σ : Type} [Os σ] {E : Env} {t t' : MStore σ μ} {c : MapCall}

/-- The store that a call leaves. -/
def MapCall.run (E : Env) (c : MapCall) (t : MStore σ μ) : Option (MStore σ μ) :=
  match c with
  | .plain op => (t.call E op).map Prod.snd
  | .vectored key segs write => (t.segv E key segs write).map Prod.snd
  | .map key => some (t.lsMap key).2
  | .unmap key => some (t.lsUnmap key).2

/-- How long a call may make a record. -/
def MapCall.top (t : MStore σ μ) : MapCall → CStr → ℕ
  | .plain op, k => op.top t.st k
  | .vectored key segs write, k =>
    if key = k ∧ write = true then
      match segvCheck segs 0 with
      | .ok hi => hi
      | .error _ => 0
    else 0
  | _, _ => 0

/-- What a call does to the mappings. -/
inductive Shift (c : MapCall) (t t' : MStore σ μ) : Prop where
  | same : t'.vm = t.vm → t'.map = t.map → Shift c t t'
  | dropped (key : CStr) (a n : ℕ) : t.map key = some (a, n) → t'.vm = (MapOs.munmap t.vm a n).2 →
      t'.map = Function.update t.map key none → Shift c t t'
  | refused (key : CStr) (r : Rec) : c = .map key → t.st.find key = some r →
      t'.vm = (lsOsMapExtents t.vm (t.st.exts r) (MStore.mapTotal (t.st.exts r))).2 → t'.map = t.map →
      Shift c t t'
  | made (key : CStr) (r : Rec) (base : ℕ) : c = .map key → t.map key = none → t.st.find key = some r →
      t'.st = t.st →
      lsOsMapExtents t.vm (t.st.exts r) (MStore.mapTotal (t.st.exts r)) = (.ok base, t'.vm) →
      t'.map = Function.update t.map key (some (base, MStore.mapTotal (t.st.exts r))) → Shift c t t'

omit [Os σ] in
/-- Forgetting a mapping. -/
theorem shift_drop (t : MStore σ μ) (key : CStr) (st : Store σ) :
    Shift c t { (t.drop key).2 with st } ∧ (t.drop key).2.map key = none ∧ (t.drop key).2.st = t.st := by
  rw [MStore.drop]
  cases hk : t.map key with
  | none => exact ⟨.same rfl rfl, hk, rfl⟩
  | some p =>
    obtain ⟨a, n⟩ := p
    exact ⟨.dropped key a n hk rfl rfl, Function.update_self _ _ _, rfl⟩

/-- A record that is not erased stays as it is. -/
theorem erase_refused {s s' : Store σ} {key : CStr} {out : Out} (h : (Op.erase key).call E s = some (out, s'))
    (hrc : out.rc ≠ .ok) : s' = s := by
  rw [Op.call] at h
  simp only [Op.enter] at h
  cases h
  dsimp only at hrc
  rw [lsErase] at hrc ⊢
  split_ifs at hrc ⊢
  · rfl
  · rfl
  · cases hk : s.find key with
    | none => rfl
    | some r =>
      rw [hk] at hrc
      exact absurd rfl hrc

/-- What a call leaves: longer records, one of them erased perhaps, and mappings that may have changed. -/
def MapCall.Does (c : MapCall) (t t' : MStore σ μ) : Prop :=
  ∃ gone, Grown gone (c.top t) t.st t'.st ∧ (∀ k, gone = some k → t'.map k = none) ∧ Shift c t t'

omit [Os σ] in
theorem MapCall.does_of_none (hg : Grown none (c.top t) t.st t'.st) (hs : Shift c t t') : c.Does t t' :=
  ⟨none, hg, fun k hk => absurd hk (by simp), hs⟩

/-- **What a call does**: it appends to records, and it changes the mappings in one of four ways. -/
theorem MapCall.run_cases (h : Arrays t.st) (hrun : c.run E t = some t') : c.Does t t' := by
  cases c with
  | plain op =>
    obtain ⟨⟨out, t₁⟩, hcall, rfl⟩ := Option.map_eq_some_iff.mp hrun
    rw [MStore.call] at hcall
    cases hop : op.call E t.st with
    | none =>
      rw [hop] at hcall
      cases hcall
    | some q =>
      obtain ⟨out', st⟩ := q
      rw [hop] at hcall
      have hg : Grown op.gone (op.top t.st) t.st st := grown_call h hop
      cases op with
      | erase key =>
        dsimp only at hcall
        split_ifs at hcall with hrc
        · cases hcall
          obtain ⟨h1, h2, -⟩ := shift_drop (c := .plain (.erase key)) t key st
          refine ⟨some key, hg, fun k hk => ?_, h1⟩
          cases hk
          exact h2
        · cases hcall
          have := erase_refused hop hrc
          subst this
          exact does_of_none (.refl h) (.same rfl rfl)
      | _ =>
        cases hcall
        exact does_of_none hg (.same rfl rfl)
  | vectored key segs write =>
    obtain ⟨⟨a, t₁⟩, hcall, rfl⟩ := Option.map_eq_some_iff.mp hrun
    obtain ⟨⟨a', st⟩, hseg, heq⟩ := Option.map_eq_some_iff.mp hcall
    cases heq
    refine does_of_none (grown_segv h (fun hw hi hc => ?_) hseg) (.same rfl rfl)
    rw [MapCall.top, if_pos ⟨rfl, hw⟩, hc]
  | map key =>
    cases hrun
    have hsame : MapCall.Does (.map key) t t := does_of_none (.refl h) (.same rfl rfl)
    rw [MStore.lsMap]
    split_ifs
    · exact hsame
    · exact hsame
    cases hk : t.st.find key with
    | none => exact hsame
    | some r =>
      dsimp only
      split_ifs
      · exact hsame
      cases hm : t.map key with
      | some p => exact hsame
      | none =>
        dsimp only
        cases hx : lsOsMapExtents t.vm (t.st.exts r) (MStore.mapTotal (t.st.exts r)) with
        | mk a vm =>
          cases a with
          | error e => exact does_of_none (.refl h) (.refused key r rfl hk (by rw [hx]) rfl)
          | ok base => exact does_of_none (.refl h) (.made key r base rfl hm hk rfl hx rfl)
  | unmap key =>
    cases hrun
    have hsame : MapCall.Does (.unmap key) t t := does_of_none (.refl h) (.same rfl rfl)
    rw [MStore.lsUnmap]
    split_ifs
    · exact hsame
    · exact hsame
    cases t.st.find key with
    | none => exact hsame
    | some r =>
      dsimp only
      obtain ⟨h1, -, h2⟩ := shift_drop (c := .unmap key) t key t.st
      generalize t.drop key = q at h1 h2 ⊢
      obtain ⟨a, t₁⟩ := q
      obtain ⟨st, vm, map⟩ := t₁
      dsimp only at h1 h2
      subst h2
      cases a <;> exact does_of_none (.refl h) h1

end

/-! ## Runs -/

/-- The mapped stores that calls lead to, each of which meets `P` where it is made, from a store of which
nothing is mapped. -/
inductive MappedBy {σ : Type} [HonestOs σ] (E : Env) (P : MStore σ μ → MapCall → Prop) :
    MStore σ μ → Prop where
  | opened {s : Store σ} {vm : μ} : Reached E s → s.o.mode = .mapped → MappedBy E P ⟨s, vm, fun _ => none⟩
  | called {t t' : MStore σ μ} {c : MapCall} : MappedBy E P t → P t c → c.run E t = some t' →
      MappedBy E P t'

section

variable {σ : Type} [HonestOs σ] {E : Env} {s : Store σ} {t t' : MStore σ μ} {c : MapCall}
  {P Q : MStore σ μ → MapCall → Prop}

theorem MappedBy.mono (h : MappedBy E P t) (hPQ : ∀ t c, P t c → Q t c) : MappedBy E Q t := by
  induction h with
  | opened hs hm => exact .opened hs hm
  | called _ hP hrun ih => exact ih.called (hPQ _ _ hP) hrun

/-- The options of an open store pass the tests of `ls_open`. -/
theorem Reached.opts (hF : 2 ^ 64 ≤ E.fuel) (h : Reached E s) : optsRefused s.o = none := by
  induction h with
  | opened hfile hopen =>
    obtain ⟨direct, os', rfl, -⟩ := lsOpen_empty hfile hopen
    exact optsRefused_of_lsOpen hopen
  | called hr hfit hcall ih =>
    obtain ⟨out', s₁, h1, h2⟩ := call_spec hF (hr.settled hF).sound hfit
    rw [hcall] at h1
    cases h1
    rw [h2.opts.1]
    exact ih
  | @vectored s s' key segs write a hr h64 hfit hcall ih =>
    obtain ⟨a', s₁, h1, h2⟩ := segv_next hF (hr.settled hF) h64 write hfit
    rw [hcall] at h1
    cases h1
    rw [h2.opts.1]
    exact ih
  | @accumulated s s' key off tmp buf op rc hr hfit hcall ih =>
    obtain ⟨rc', s₁, h1, h2⟩ := accumulate_next hF (hr.settled hF) op hfit
    rw [hcall] at h1
    cases h1
    rw [h2.opts.1]
    exact ih
  | kept hr hsh hfew hclose hopen =>
    obtain ⟨rc, os, h1, -, h2⟩ := (hr.settled hF).kept hF hsh hfew
    rw [hclose] at h1
    cases h1
    have ho := optsRefused_of_lsOpen hopen
    obtain ⟨s₁, -, -, -, -, h6⟩ := h2 rfl
    obtain ⟨r, h7, h8⟩ := h6 _ ho
    rw [hopen] at h7
    cases h7
    rw [(h8.reopened _ rfl).opts.1]
    exact ho

/-- A mapped store has no memory tier. -/
theorem Reached.arrays (hF : 2 ^ 64 ≤ E.fuel) (h : Reached E s) (hm : s.o.mode = .mapped) : Arrays s := by
  have hlaid := (h.settled hF).sound.laid
  have hr := hlaid.records
  have hb : s.o.memoryBudget = 0 := by
    have ho := h.opts hF
    rw [optsRefused] at ho
    split_ifs at ho with h1
    by_contra hb
    exact h1 ⟨hm, Or.inr (Or.inl hb)⟩
  have hmem := hlaid.tiered.noTier hb
  have hlt : ∀ k r, s.find k = some r → total (s.exts r) < 2 ^ 64 := fun k r hk => by
    have h1 := total_exts_le hlaid hk
    have h2 := fileEnd_lt (h.settled hF).sound
    omega
  refine ⟨hr.wf, hmem, fun k r hk => (hr.ok k r hk).noExt, fun k r hk => (hr.ok k r hk).next_le,
    fun k r p hk => (hr.ok k r hk).ext_lt p, hr.ext_inj, fun k r hk => ?_, fun k r hk _ => ?_, hb⟩
  · rw [Nat.mod_eq_of_lt (hlt k r hk)]
    exact (hr.ok k r hk).extTotal
  · have := ((hr.ok k r hk).noMem (hmem k r hk)).2
    rwa [(hr.ok k r hk).extTotal] at this

/-- What holds of the records of a mapped store: those that are mapped are there. -/
structure Live (t : MStore σ μ) : Prop where
  arrays : Arrays t.st
  there : ∀ k a n, t.map k = some (a, n) → ∃ r, t.st.find k = some r

omit [HonestOs σ] in
/-- A mapping that there is after a call was there before, and its record has grown; or it is the one
that was made. -/
theorem MapCall.Does.cases_map (h : Live t) (hd : c.Does t t') {k : CStr} {a n : ℕ}
    (hk : t'.map k = some (a, n)) : (∃ r r', t.map k = some (a, n) ∧ t.st.find k = some r ∧
      t'.st.find k = some r' ∧ t.st.exts r <+: t'.st.exts r' ∧ r'.size ≤ max r.size (c.top t k)) ∨
    ∃ r, c = .map k ∧ t.map k = none ∧ t'.st = t.st ∧ t.st.find k = some r ∧
      n = MStore.mapTotal (t.st.exts r) ∧
      lsOsMapExtents t.vm (t.st.exts r) (MStore.mapTotal (t.st.exts r)) = (.ok a, t'.vm) := by
  obtain ⟨gone, hg, hgone, hs⟩ := hd
  have hold : t.map k = some (a, n) → ∃ r r', t.map k = some (a, n) ∧ t.st.find k = some r ∧
      t'.st.find k = some r' ∧ t.st.exts r <+: t'.st.exts r' ∧ r'.size ≤ max r.size (c.top t k) := by
    intro hm
    obtain ⟨r, hr⟩ := h.there k a n hm
    have hne : some k ≠ gone := fun hc => by
      rw [hgone k hc.symm] at hk
      cases hk
    obtain ⟨r', h1, h2, h3⟩ := hg.some k r hne hr
    exact ⟨r, r', hm, hr, h1, h2, h3⟩
  cases hs with
  | same hvm hmap => exact Or.inl (hold (hmap ▸ hk))
  | dropped key b m hb hvm hmap =>
    rw [hmap, Function.update_apply] at hk
    split_ifs at hk
    exact Or.inl (hold hk)
  | refused key r hc hr hvm hmap => exact Or.inl (hold (hmap ▸ hk))
  | made key r base hc hnone hr hst hok hmap =>
    rw [hmap, Function.update_apply] at hk
    split_ifs at hk with hkk
    · cases hk
      subst hkk
      exact Or.inr ⟨r, hc, hnone, hst, hr, rfl, hok⟩
    · exact Or.inl (hold hk)

omit [HonestOs σ] in
theorem MapCall.Does.live (h : Live t) (hd : c.Does t t') : Live t' := by
  refine ⟨?_, fun k a n hk => ?_⟩
  · obtain ⟨gone, hg, -⟩ := hd
    exact hg.arrays
  · obtain ⟨r, r', -, -, h1, -⟩ | ⟨r, -, -, hst, hr, -⟩ := hd.cases_map h hk
    · exact ⟨r', h1⟩
    · exact ⟨r, hst ▸ hr⟩

theorem MappedBy.live (hF : 2 ^ 64 ≤ E.fuel) (h : MappedBy E P t) : Live t := by
  induction h with
  | opened hs hm => exact ⟨hs.arrays hF hm, fun _ _ _ hk => (by cases hk)⟩
  | called _ _ hrun ih => exact (MapCall.run_cases ih.arrays hrun).live ih

/-! ## What a mapping shows -/

/-- The lengths of the extents of a record that is mapped do not wrap. -/
def Unwrapped (t : MStore σ μ) : MapCall → Prop
  | .map key => ∀ r, t.st.find key = some r → total (t.st.exts r) < 2 ^ 64
  | _ => True

/-- The invariant of the mappings: each shows the extents that its record had when it was made, and
the pages of two are apart. -/
structure Stitched (t : MStore σ μ) : Prop where
  live : Live t
  cached : ∀ k a n, t.map k = some (a, n) → ∃ r pre, t.st.find k = some r ∧ pre <+: t.st.exts r ∧
    total pre = n ∧ n ≤ 2 ^ 63 ∧ (∀ e ∈ pre, e.fin ≤ 2 ^ 63) ∧
    ∀ p, p < n → shows t.vm (a + p) = locate pre p
  held : ∀ k a n, t.map k = some (a, n) → ∀ x, a ≤ x → x < a + pagesUp (page μ) n → taken t.vm x
  apart : ∀ k k' a n a' n', k ≠ k' → t.map k = some (a, n) → t.map k' = some (a', n') →
    ∀ x, a ≤ x → x < a + pagesUp (page μ) n → x < a' ∨ a' + pagesUp (page μ) n' ≤ x

omit [HonestOs σ] in
/-- A mapping is as it was when its pages have been left alone. -/
theorem Stitched.carried (h : Stitched t) (hd : c.Does t t') {k : CStr} {a n : ℕ}
    (hk : t'.map k = some (a, n)) (hold : t.map k = some (a, n))
    (hsame : ∀ x, a ≤ x → x < a + pagesUp (page μ) n → shows t'.vm x = shows t.vm x) :
    ∃ r pre, t'.st.find k = some r ∧ pre <+: t'.st.exts r ∧ total pre = n ∧ n ≤ 2 ^ 63 ∧
      (∀ e ∈ pre, e.fin ≤ 2 ^ 63) ∧ ∀ p, p < n → shows t'.vm (a + p) = locate pre p := by
  obtain ⟨r, pre, h1, h2, h3, h4, h5, h6⟩ := h.cached k a n hold
  obtain ⟨r₀, r', -, g1, g2, g3, -⟩ | ⟨r', -, hnone, -⟩ := hd.cases_map h.live hk
  · rw [h1] at g1
    cases g1
    have := (le_pagesUp (n := n) (HonestMap.page_pos (μ := μ))).1
    refine ⟨r', pre, g2, h2.trans g3, h3, h4, h5, fun p hp => ?_⟩
    rw [hsame (a + p) (Nat.le_add_right a p) (by omega)]
    exact h6 p hp
  · rw [hold] at hnone
    cases hnone

omit [HonestOs σ] in
/-- **Calls keep the mappings.** -/
theorem MapCall.Does.stitched (h : Stitched t) (hd : c.Does t t') (hw : Unwrapped t c) : Stitched t' := by
  have hlive := hd.live h.live
  have hshift := hd
  obtain ⟨gone, -, -, hs⟩ := hshift
  cases hs with
  | same hvm hmap =>
    refine ⟨hlive, fun k a n hk => h.carried hd hk (hmap ▸ hk) fun x _ _ => by rw [hvm], ?_, ?_⟩
    · rw [hvm, hmap]
      exact h.held
    · rw [hmap]
      exact h.apart
  | dropped key b m hb hvm hmap =>
    have hother : ∀ k a n, t'.map k = some (a, n) → key ≠ k ∧ t.map k = some (a, n) := by
      intro k a n hk
      rw [hmap, Function.update_apply] at hk
      split_ifs at hk with hkk
      exact ⟨fun hc => hkk hc.symm, hk⟩
    -- what is unmapped is apart from the other mappings
    have hframe : ∀ k a n, t'.map k = some (a, n) → ∀ x, a ≤ x → x < a + pagesUp (page μ) n →
        shows t'.vm x = shows t.vm x ∧ (taken t.vm x → taken t'.vm x) := by
      intro k a n hk x h1 h2
      obtain ⟨hne, hold⟩ := hother k a n hk
      rw [hvm]
      exact HonestMap.unmap_frame t.vm b m x (h.apart k key a n b m hne.symm hold hb x h1 h2)
    refine ⟨hlive, fun k a n hk => h.carried hd hk (hother k a n hk).2 fun x h1 h2 =>
      (hframe k a n hk x h1 h2).1, fun k a n hk x h1 h2 => ?_, fun k k' a n a' n' hne hk hk' => ?_⟩
    · exact (hframe k a n hk x h1 h2).2 (h.held k a n (hother k a n hk).2 x h1 h2)
    · exact h.apart k k' a n a' n' hne (hother k a n hk).2 (hother k' a' n' hk').2
  | refused key r hc hr hvm hmap =>
    subst hc
    have hframe := fun x (hx : taken t.vm x) => lsOsMapExtents_keeps (hw r hr) hx
    rw [← hvm] at hframe
    refine ⟨hlive, fun k a n hk => h.carried hd hk (hmap ▸ hk) fun x h1 h2 =>
      (hframe x (h.held k a n (hmap ▸ hk) x h1 h2)).1, fun k a n hk x h1 h2 => ?_, ?_⟩
    · exact (hframe x (h.held k a n (hmap ▸ hk) x h1 h2)).2
    · rw [hmap]
      exact h.apart
  | made key r base hc hnone hr hst hok hmap =>
    subst hc
    have hframe := fun x (hx : taken t.vm x) => lsOsMapExtents_keeps (hw r hr) hx
    rw [hok] at hframe
    obtain ⟨htot, hle, hfin, hshow, -, hfree⟩ := lsOsMapExtents_ok hok
    rw [htot] at hmap
    have hcase : ∀ k a n, t'.map k = some (a, n) →
        k = key ∧ a = base ∧ n = total (t.st.exts r) ∨ k ≠ key ∧ t.map k = some (a, n) := by
      intro k a n hk
      rw [hmap, Function.update_apply] at hk
      split_ifs at hk with hkk
      · cases hk
        exact Or.inl ⟨hkk, rfl, rfl⟩
      · exact Or.inr ⟨hkk, hk⟩
    refine ⟨hlive, fun k a n hk => ?_, fun k a n hk x h1 h2 => ?_, fun k k' a n a' n' hne hk hk' x h1 h2 => ?_⟩
    · rcases hcase k a n hk with ⟨rfl, rfl, rfl⟩ | ⟨-, hold⟩
      · exact ⟨r, t.st.exts r, hst ▸ hr, by rw [hst], rfl, hle, hfin, hshow⟩
      · exact h.carried hd hk hold fun x h1 h2 => (hframe x (h.held k a n hold x h1 h2)).1
    · rcases hcase k a n hk with ⟨-, rfl, rfl⟩ | ⟨-, hold⟩
      · exact (hfree x h1 h2).2
      · exact (hframe x (h.held k a n hold x h1 h2)).2
    · rcases hcase k a n hk with ⟨rfl, rfl, rfl⟩ | ⟨-, hold⟩
      · rcases hcase k' a' n' hk' with ⟨rfl, -⟩ | ⟨-, hold'⟩
        · exact absurd rfl hne
        · by_contra hin
          exact (hfree x h1 h2).1 (h.held k' a' n' hold' x (by omega) (by omega))
      · rcases hcase k' a' n' hk' with ⟨-, rfl, rfl⟩ | ⟨-, hold'⟩
        · by_contra hin
          exact (hfree x (by omega) (by omega)).1 (h.held k a n hold x h1 h2)
        · exact h.apart k k' a n a' n' hne hold hold' x h1 h2

theorem MappedBy.stitched (hF : 2 ^ 64 ≤ E.fuel) (h : MappedBy E Unwrapped t) : Stitched t := by
  induction h with
  | opened hs hm =>
    exact ⟨⟨hs.arrays hF hm, fun _ _ _ hk => (by cases hk)⟩, fun _ _ _ hk => (by cases hk),
      fun _ _ _ hk => (by cases hk), fun _ _ _ _ _ _ _ hk => (by cases hk)⟩
  | called _ hw hrun ih => exact (MapCall.run_cases ih.live.arrays hrun).stitched ih hw

/-- Byte `p` of a mapping is the byte of the file that `ls_scatter` moves for logical offset `p`, in
every range that has it. -/
def OneByte (m : μ) (base : ℕ) (es : List Extent) (p : ℕ) : Prop :=
  ∃ x, shows m (base + p) = some x ∧ ∀ off n, off ≤ p → p < off + n → off + n < 2 ^ 64 → ∀ y,
    (∃ q ∈ (pieces off n es 0 0).1, q.Moves (p - off) y) ↔ y = x

/-- A mapping of the first extents of a record. -/
theorem oneByte_of_prefix {m : μ} {base p : ℕ} {pre es : List Extent} (hpre : pre <+: es)
    (hle : total pre ≤ 2 ^ 63) (hfin : ∀ e ∈ pre, e.fin ≤ 2 ^ 63)
    (hshow : ∀ p, p < total pre → shows m (base + p) = locate pre p) (hp : p < total pre) :
    OneByte m base es p := by
  obtain ⟨x, hx⟩ := exists_locate hp
  obtain ⟨rest, rfl⟩ := hpre
  refine ⟨x, (hshow p hp).trans hx, fun off n h1 h2 h3 y => ?_⟩
  have hpos : off + (p - off) = p := by omega
  have hmoves := @pieces_locate off n pre rest (fun e he => (hfin e he).trans (by norm_num)) (by omega) h3
    (p - off) y (fun _ => by omega) pre [] rfl 0 (Or.inl (Nat.zero_le _))
  rw [total_nil, hpos, hx, Option.some_inj] at hmoves
  rw [hmoves]
  constructor
  · rintro ⟨-, -, rfl⟩
    rfl
  · rintro rfl
    exact ⟨Nat.zero_le _, by omega, rfl⟩

/-- **The stitched mapping and the transfers address the same bytes**: of every list of extents that can
be mapped, and of every mapping that a store keeps, whatever its record has grown to since. -/
theorem mapping_as_scatter (hF : 2 ^ 64 ≤ E.fuel) :
    (∀ (m m' : μ) (es : List Extent) (base : ℕ),
      lsOsMapExtents m es (MStore.mapTotal es) = (.ok base, m') → MStore.mapTotal es = total es ∧
        (slices es 0).Pairwise Span.Apart ∧ (∀ p, Covers (slices es 0) p ↔ p < total es) ∧
        ∀ p, p < total es → OneByte m' base es p) ∧
    ∀ t : MStore σ μ, MappedBy E Unwrapped t →
      (∀ key r, t.st.find key = some r → ∀ (direct write : Bool) off n addr buf, n ≠ 0 →
        t.st.exec (lsScatter E direct (lsPlaceOf r) off n write addr buf) =
          t.st.exec (movePieces E direct addr write buf
            (if (pieces off n (t.st.exts r) 0 0).2 = n then .ok else .errno .eio)
            (pieces off n (t.st.exts r) 0 0).1 [])) ∧
      ∀ key a n, t.map key = some (a, n) → ∃ r, t.st.find key = some r ∧ n ≤ total (t.st.exts r) ∧
        ∀ p, p < n → OneByte t.vm a (t.st.exts r) p := by
  refine ⟨fun m m' es base h => ?_, fun t ht => ⟨fun key r hk direct write off n addr buf hn =>
    exec_scatter (ht.live hF).arrays hk direct write hn addr buf, fun key a n hk => ?_⟩⟩
  · obtain ⟨h1, h2, h3, h4, -, -⟩ := lsOsMapExtents_ok h
    have hsum : 0 + total es < 2 ^ 64 := by omega
    obtain ⟨h5, h6⟩ := slices_tile hsum
    refine ⟨h1, h5, fun p => ?_, fun p hp => oneByte_of_prefix List.prefix_rfl h2 h3 h4 hp⟩
    rw [h6 p, Nat.zero_add]
    exact and_iff_right (Nat.zero_le p)
  · obtain ⟨r, pre, h1, h2, rfl, h4, h5, h6⟩ := (ht.stitched hF).cached key a n hk
    exact ⟨r, h1, total_le_of_prefix h2, fun p hp => oneByte_of_prefix h2 h4 h5 h6 hp⟩

/-! ## The length that is handed out -/

/-- What `ls_map` hands out is mapped, and is the size of the record. -/
def Promised (t : MStore σ μ) (key : CStr) (a len : ℕ) : Prop :=
  ∃ n r, t.map key = some (a, n) ∧ t.st.find key = some r ∧ len ≤ n ∧ len = r.size

/-- No call makes a mapped record longer than its mapping. -/
def Within (t : MStore σ μ) (c : MapCall) : Prop := ∀ k a n, t.map k = some (a, n) → c.top t k ≤ n

omit [HonestOs σ] in
/-- A record that is mapped for the first time has its size mapped. -/
theorem size_le_mapTotal {m m' : μ} {r : Rec} {key : CStr} {base : ℕ} (h : Arrays s) (hk : s.find key = some r)
    (hok : lsOsMapExtents m (s.exts r) (MStore.mapTotal (s.exts r)) = (.ok base, m')) :
    r.size ≤ MStore.mapTotal (s.exts r) := by
  obtain ⟨h1, h2, -⟩ := lsOsMapExtents_ok hok
  rw [h1]
  exact h.size_le key r hk (by omega)

theorem MappedBy.within (hF : 2 ^ 64 ≤ E.fuel) (h : MappedBy E Within t) {k : CStr} {a n : ℕ} {r : Rec}
    (hm : t.map k = some (a, n)) (hk : t.st.find k = some r) : r.size ≤ n := by
  induction h generalizing k a n r with
  | opened => cases hm
  | @called t t' c ht hw hrun ih =>
    have hlive := ht.live hF
    obtain ⟨r₀, r', g1, g2, g3, -, g4⟩ | ⟨r₀, -, -, hst, g1, g2, g3⟩ :=
      (MapCall.run_cases hlive.arrays hrun).cases_map hlive hm
    · rw [hk] at g3
      cases g3
      have := ih g1 g2
      have := hw k a n g1
      omega
    · rw [hst, g1] at hk
      cases hk
      rw [g2]
      exact size_le_mapTotal hlive.arrays g1 g3

omit [HonestOs σ] in
/-- What `ls_map` hands out, and when it is mapped. -/
theorem lsMap_ok (h : Live t) {key : CStr} {a len : ℕ} (hok : t.lsMap key = ((.ok, some (a, len)), t')) :
    ∃ r, t.st.find key = some r ∧ (Promised t' key a len ↔ ∀ b n, t.map key = some (b, n) → r.size ≤ n) := by
  rw [MStore.lsMap] at hok
  split_ifs at hok
  · cases hok
  · cases hok
  cases hk : t.st.find key with
  | none =>
    rw [hk] at hok
    cases hok
  | some r =>
    rw [hk] at hok
    dsimp only at hok
    by_cases h0 : r.size = 0
    · rw [if_pos h0] at hok
      cases hok
    rw [if_neg h0] at hok
    refine ⟨r, rfl, ?_⟩
    cases hm : t.map key with
    | some p =>
      obtain ⟨b, n⟩ := p
      rw [hm] at hok
      cases hok
      constructor
      · rintro ⟨n', r', h1, h2, h3, h4⟩ b' n₂ h5
        cases h5
        rw [hm] at h1
        cases h1
        exact h3
      · intro hle
        exact ⟨n, r, hm, hk, hle a n rfl, rfl⟩
    | none =>
      rw [hm] at hok
      dsimp only at hok
      cases hx : lsOsMapExtents t.vm (t.st.exts r) (MStore.mapTotal (t.st.exts r)) with
      | mk q vm =>
        rw [hx] at hok
        cases q with
        | error e => cases hok
        | ok base =>
          cases hok
          exact iff_of_true ⟨_, r, Function.update_self _ _ _, hk, size_le_mapTotal h.arrays hk hx, rfl⟩
            fun b n hb => (by cases hb)

/-- **What `ls_map` hands out is mapped** unless the record was mapped before, and has grown past its
mapping; so always, when no call takes a mapped record past its mapping. -/
theorem map_covers (hF : 2 ^ 64 ≤ E.fuel) :
    (∀ t t' : MStore σ μ, MappedBy E Within t → ∀ key a len,
      t.lsMap key = ((.ok, some (a, len)), t') → Promised t' key a len) ∧
    ∀ t t' : MStore σ μ, MappedBy E (fun _ _ => True) t → ∀ key a len,
      t.lsMap key = ((.ok, some (a, len)), t') → ∃ r, t.st.find key = some r ∧
        (Promised t' key a len ↔ ∀ b n, t.map key = some (b, n) → r.size ≤ n) := by
  refine ⟨fun t t' ht key a len hok => ?_, fun t t' ht key a len hok => lsMap_ok (ht.live hF) hok⟩
  obtain ⟨r, hk, hiff⟩ := lsMap_ok (ht.live hF) hok
  exact hiff.mpr fun b n hb => ht.within hF hb hk

end

/-! ## On a disk -/

/-- A new store on which nothing is mapped. -/
def MStore.blank : MStore Disk Pages := ⟨Disk.newStore { mode := .mapped }, Pages.blank, fun _ => none⟩

/-- Calls, one after the other. -/
def runCalls (cs : List MapCall) (t : MStore Disk Pages) : Option (MStore Disk Pages) :=
  cs.foldlM (fun t c => c.run Env.ample t) t

theorem mappedBy_blank {P : MStore Disk Pages → MapCall → Prop} : MappedBy Env.ample P MStore.blank :=
  .opened (reached_newStore rfl (by decide)) rfl

theorem MappedBy.runCalls {P : MStore Disk Pages → MapCall → Prop} {cs : List MapCall}
    {t t' : MStore Disk Pages} (h : MappedBy Env.ample P t) (hP : ∀ c ∈ cs, ∀ t, P t c)
    (hrun : Libspill.runCalls cs t = some t') : MappedBy Env.ample P t' := by
  induction cs generalizing t with
  | nil =>
    cases hrun
    exact h
  | cons c cs ih =>
    obtain ⟨t₁, h1, h2⟩ := Option.bind_eq_some_iff.mp hrun
    exact ih (h.called (hP c List.mem_cons_self t) h1) (fun c hc => hP c (List.mem_cons_of_mem _ hc)) h2

/-- A record of two extents is mapped, and grows by a third one. -/
theorem mapping_as_scatter_grown : ∃ (t : MStore Disk Pages) (r : Rec) (a n : ℕ),
    MappedBy Env.ample Unwrapped t ∧ t.map keyA = some (a, n) ∧ t.st.find keyA = some r ∧
    (t.st.exts r).length = 3 ∧ n < total (t.st.exts r) ∧ ∀ p, p < n → OneByte t.vm a (t.st.exts r) p := by
  have hsome : ((runCalls [.plain (.reserve keyA 4096), .plain (.reserve keyB 4096),
      .plain (.reserve keyA 8192), .plain (.reserve keyB 8192)] MStore.blank).bind fun t =>
      (runCalls [.map keyA, .plain (.reserve keyA 16384)] t).map fun t' =>
        ((t.st.find keyA).map t.st.exts, (t'.st.find keyA).map t'.st.exts, t'.map keyA)) =
      some (some [⟨4096, 4096⟩, ⟨12288, 4096⟩], some [⟨4096, 4096⟩, ⟨12288, 4096⟩, ⟨20480, 8192⟩],
        some (4096, 8192)) := by decide +kernel
  obtain ⟨t₁, hrun₁, hsome⟩ := Option.bind_eq_some_iff.mp hsome
  obtain ⟨t, hrun, hsome⟩ := Option.map_eq_some_iff.mp hsome
  simp only [Prod.mk.injEq, Option.map_eq_some_iff] at hsome
  obtain ⟨⟨r₁, c1, c2⟩, ⟨r, c3, c4⟩, c5⟩ := hsome
  have hlast : runCalls [.plain (.reserve keyA 16384)] (t₁.lsMap keyA).2 = some t := hrun
  have h₁ : MappedBy Env.ample Unwrapped t₁ := mappedBy_blank.runCalls (by
    simp only [List.forall_mem_cons, List.not_mem_nil, false_imp_iff, implies_true, and_true]
    exact ⟨fun _ => trivial, fun _ => trivial, fun _ => trivial, fun _ => trivial⟩) hrun₁
  have hw : Unwrapped t₁ (.map keyA) := fun q hq => by
    rw [c1] at hq
    cases hq
    rw [c2]
    decide
  have h₂ : MappedBy Env.ample Unwrapped (t₁.lsMap keyA).2 := h₁.called hw rfl
  have h : MappedBy Env.ample Unwrapped t := h₂.runCalls (by
    simp only [List.forall_mem_cons, List.not_mem_nil, false_imp_iff, implies_true, and_true]
    exact fun _ => trivial) hlast
  obtain ⟨q, g1, -, g2⟩ := ((mapping_as_scatter (Nat.le_refl (2 ^ 64))).2 t h).2 keyA 4096 8192 c5
  rw [c3] at g1
  cases g1
  exact ⟨t, r, 4096, 8192, h, c5, c3, by rw [c4]; rfl, by rw [c4]; decide, g2⟩

/-- A record grows inside its mapping. -/
theorem map_covers_grown : ∃ (t t' : MStore Disk Pages) (a : ℕ), MappedBy Env.ample Within t ∧
    (∃ n, t.map keyA = some (a, n)) ∧ t.lsMap keyA = ((.ok, some (a, 101)), t') ∧ Promised t' keyA a 101 := by
  have hsome : ((MapCall.run Env.ample (.plain (.write keyA 0 [7] 0)) MStore.blank).bind fun t =>
      (MapCall.run Env.ample (.plain (.write keyA 100 [8] 0)) (t.lsMap keyA).2).map fun t' =>
        ((t.lsMap keyA).2.map keyA, t'.map keyA, (t'.lsMap keyA).1)) =
      some (some (4096, 4096), some (4096, 4096), (.ok, some (4096, 101))) := by decide +kernel
  obtain ⟨t₀, h0, hsome⟩ := Option.bind_eq_some_iff.mp hsome
  obtain ⟨t, h1, hsome⟩ := Option.map_eq_some_iff.mp hsome
  simp only [Prod.mk.injEq] at hsome
  obtain ⟨c1, c2, c3⟩ := hsome
  have hnone : ∀ k, t₀.map k = none := fun k => by
    cases hc : t₀.map k with
    | none => rfl
    | some q =>
      have hl := (mappedBy_blank (P := fun _ _ => True)).live (Nat.le_refl (2 ^ 64))
      obtain ⟨r, r', h2, -⟩ | ⟨r, h2, -⟩ := (MapCall.run_cases hl.arrays h0).cases_map hl hc
      · cases h2
      · cases h2
  have hm₀ : MappedBy Env.ample Within t₀ := mappedBy_blank.called (fun _ _ _ hk => (by cases hk)) h0
  have hm₁ : MappedBy Env.ample Within (t₀.lsMap keyA).2 :=
    hm₀.called (c := .map keyA) (fun k _ _ hk => (by rw [hnone k] at hk; cases hk)) rfl
  have hm : MappedBy Env.ample Within t := hm₁.called (fun k a n hk => by
    have hl := hm₀.live (Nat.le_refl (2 ^ 64))
    have hd := MapCall.run_cases (c := .map keyA) (E := Env.ample) hl.arrays rfl
    obtain ⟨r, r', h2, -⟩ | ⟨r, h2, -⟩ := hd.cases_map hl hk
    · rw [hnone k] at h2
      cases h2
    · cases h2
      rw [c1] at hk
      cases hk
      rw [MapCall.top, Op.top, if_pos rfl]
      decide) h1
  have hok : t.lsMap keyA = ((.ok, some (4096, 101)), (t.lsMap keyA).2) := Prod.ext c3 rfl
  exact ⟨t, _, 4096, hm, ⟨4096, c2⟩, hok, (map_covers (Nat.le_refl (2 ^ 64))).1 t _ hm keyA 4096 101 hok⟩

/-- **The length of a record that has grown**: its second page is not mapped. -/
theorem map_overruns : ∃ (t t' : MStore Disk Pages) (a len : ℕ), MappedBy Env.ample (fun _ _ => True) t ∧
    t.lsMap keyA = ((.ok, some (a, len)), t') ∧ ¬ Promised t' keyA a len := by
  have hsome : ((runCalls [.plain (.write keyA 0 [7] 0), .map keyA, .plain (.write keyA 4096 [8] 0)]
      MStore.blank).map fun t => ((t.lsMap keyA).1, (t.lsMap keyA).2.map keyA)) =
      some ((.ok, some (4096, 4097)), some (4096, 4096)) := by decide +kernel
  obtain ⟨t, hrun, h1⟩ := Option.map_eq_some_iff.mp hsome
  rw [Prod.mk.injEq] at h1
  obtain ⟨h1, h2⟩ := h1
  refine ⟨t, (t.lsMap keyA).2, 4096, 4097, mappedBy_blank.runCalls (fun _ _ _ => trivial) hrun,
    Prod.ext h1 rfl, ?_⟩
  rintro ⟨n, r, h3, -, h4, -⟩
  rw [h2] at h3
  cases h3
  omega

end Libspill
