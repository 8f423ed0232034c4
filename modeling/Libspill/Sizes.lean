import Libspill.Processes
import Libspill.Reach

set_option autoImplicit false

/-!
# Sizes near the end of the 64-bit range, and reservations that fail

The calls that ask for capacity, as long as no tail of the file wraps.

* `Api.wants`: the capacity that a call asks for. `Api.Fits`: where it goes to the tail of the file, the
  tail does not wrap.
* **`sizes_refused`**: a call ends, and it has failed or the record has the capacity. `sizes_wrap`: a
  reservation near `2 ^ 64` is accepted and `file_end` wraps.
* **`reservation_harmless`**: a call that fails before its transfers leaves the map as it was.
  `reservation_harms`: a reservation that fails after a tail has wrapped clears another record.
-/

namespace Libspill

variable {σ : Type} [HonestOs σ] {E : Env}

open HonestOs (clean)

/-- The arguments are 64-bit numbers, and where the call asks for capacity no tail wraps. -/
def Api.Fits (E : Env) (s : Store σ) : Api → Prop
  | .plain op => op.Fits E s
  | .vectored key segs write =>
      Segs64 segs ∧ (write = true → RoomFits E s key (Entry.top (segWrites segs)))
  | .accumulate key off buf _ tmp => (Op.write key off buf tmp).Fits E s

/-- The record and the capacity that a call asks for. -/
def Api.wants (s : Store σ) : Api → Option (CStr × ℕ)
  | .plain (.write key off buf _) => some (key, off + buf.length)
  | .plain (.append key buf _) => some (key, (s.recAt key).size + buf.length)
  | .plain (.reserve key nbytes) => some (key, nbytes)
  | .vectored key segs true => if segs.isEmpty then none else some (key, Entry.top (segWrites segs))
  | .accumulate key off buf _ _ => if buf.isEmpty then none else some (key, off + buf.length)
  | _ => none

/-- The capacity of a record. -/
def Rec.capacity (r : Rec) : ℕ := if r.mem.isSome then r.memCap else r.extTotal

/-- No extent wraps, and none shares a byte with another one or with the superblock. -/
structure Orderly (s : Store σ) : Prop where
  inside : ∀ e ∈ s.live, LS_SUPER_SIZE ≤ e.foff ∧ e.foff + e.len < 2 ^ 64
  apart : s.live.Pairwise Span.Apart
  fileEnd : LS_SUPER_SIZE ≤ s.al.fileEnd

section Wants

variable {s s' : Store σ} {key : CStr}

theorem orderly_of_sound (h : Sound s) : Orderly s := by
  have hfe := fileEnd_lt h
  refine ⟨fun e he => ?_, h.laid.tiled.apart, h.laid.tiled.lo_le⟩
  have hb := h.laid.tiled.live_bounds (e := e) he
  rw [Span.fin] at hb
  omega

/-- An entry of the map is a record that has the capacity. -/
theorem capacity_of_abs (h : Sound s') {m : RefMap} (ha : Abs Nowhere s' m) {e : Entry}
    (he : m.lookup key = some e) {fin : ℕ} (hfin : fin ≤ e.bytes.length) :
    ∃ r, s'.find key = some r ∧ fin ≤ r.capacity := by
  cases hk : s'.find key with
  | none =>
    rw [ha.none key hk] at he
    cases he
  | some r =>
    obtain ⟨e', he', hm⟩ := ha.some key r hk
    rw [he] at he'
    cases he'
    refine ⟨r, rfl, ?_⟩
    have hok := h.laid.records.ok key r hk
    have hsize := hm.size
    rw [Rec.capacity]
    split_ifs with hmem
    · have := (hok.hasMem (Option.isSome_iff_ne_none.mp hmem)).2
      omega
    · have := (hok.noMem (by simpa using hmem)).2
      omega

/-- A plain call that succeeds on the map has made the entry as large as it asked for. -/
theorem Op.apply_wants {op : Op} {sh : Bool} {m : RefMap} (ha : Abs Nowhere s m) {fin : ℕ}
    (hw : (Api.plain op).wants s = some (key, fin)) (hok : (op.refStep sh m).1.rc = .ok) :
    ∃ e, (op.refStep sh m).2.lookup key = some e ∧ fin ≤ e.bytes.length := by
  have hput : ∀ {e : Entry} {x : Out}, op.key? = some key → op.apply sh (m.lookup key) = (x, some e) →
      fin ≤ e.bytes.length → ∃ e, (op.refStep sh m).2.lookup key = some e ∧ fin ≤ e.bytes.length := by
    intro e x hkey happ hle
    rw [refStep_of_key hkey, happ]
    exact ⟨e, by rw [RefMap.lookup_put, if_pos rfl], hle⟩
  cases op with
  | write k off buf addr =>
    cases hw
    rw [refStep_of_key rfl] at hok
    simp only [Op.apply] at hok
    split_ifs at hok with h1 h2 h3
    refine hput (e := ((m.lookup key).getD {}).write off buf) rfl
      (by rw [Op.apply, if_neg h1, if_neg h2, if_neg h3]) ?_
    simp
  | append k buf addr =>
    cases hw
    have hsize := (ha.recAt key).size
    rw [refStep_of_key rfl] at hok
    simp only [Op.apply] at hok
    split_ifs at hok with h1 h2 h3
    refine hput (e := ((m.lookup key).getD {}).write ((m.lookup key).getD {}).bytes.length buf) rfl
      (by rw [Op.apply, if_neg h1, if_neg h2]; exact if_neg h3) ?_
    rw [hsize]
    simp
  | reserve k nbytes =>
    cases hw
    rw [refStep_of_key rfl] at hok
    simp only [Op.apply] at hok
    split_ifs at hok with h1 h2
    refine hput (e := ((m.lookup key).getD {}).resize fin) rfl
      (by rw [Op.apply, if_neg h1, if_neg h2]) ?_
    simp
  | _ => cases hw

/-- A plain call. -/
theorem plain_wants (hF : 2 ^ 64 ≤ E.fuel) (h : Settled s) {op : Op} (hfit : op.Fits E s) :
    ∃ ans s', (Api.plain op).call E s = some (ans, s') ∧ Sound s' ∧ (ans.rc = .ok → ∀ key fin,
      (Api.plain op).wants s = some (key, fin) → ∃ r, s'.find key = some r ∧ fin ≤ r.capacity) := by
  obtain ⟨out, s', h1, h2⟩ := call_spec hF h.sound hfit
  refine ⟨.plain out, s', by rw [call_plain, h1]; rfl, h2.sound, fun hok key fin hw => ?_⟩
  have ha := abs_map (D := Nowhere) h.sound.laid.records h.slack
  obtain ⟨e1, e2⟩ := h2.map (Or.inr hok) h.slack s.map ha
  obtain ⟨e, he, hle⟩ := Op.apply_wants ha hw (by rw [← e1]; exact hok)
  exact capacity_of_abs h2.sound e2 he hle

/-- A vectored call. -/
theorem vectored_wants (hF : 2 ^ 64 ≤ E.fuel) (h : Settled s) {segs : List Seg} {write : Bool}
    (h64 : Segs64 segs) (hfit : write = true → RoomFits E s key (Entry.top (segWrites segs))) :
    ∃ ans s', (Api.vectored key segs write).call E s = some (ans, s') ∧ Sound s' ∧ (ans.rc = .ok →
      ∀ k fin, (Api.vectored key segs write).wants s = some (k, fin) →
        ∃ r, s'.find k = some r ∧ fin ≤ r.capacity) := by
  obtain ⟨a, s', h1, h2⟩ := segv_next hF h h64 write hfit
  refine ⟨.vectored a, s', by rw [call_vectored, h1]; rfl, h2.settled.sound, fun hok k fin hw => ?_⟩
  replace hok : a.1 = .ok := hok
  cases write with
  | false => cases hw
  | true =>
    rw [Api.wants] at hw
    split_ifs at hw with hne
    cases hw
    rw [List.isEmpty_iff] at hne
    cases hkey : lsKeyOk key with
    | false =>
      rw [segv_badKey hkey] at h1
      cases h1
      cases hok
    | true =>
    rcases segs_error_or segs with hsegs | ⟨rc, herr⟩
    swap
    · obtain ⟨g, -, hg⟩ := List.exists_of_findSome?_eq_some herr
      rw [segv_error h64 hkey herr] at h1
      cases h1
      rw [Seg.error] at hg
      split_ifs at hg <;>
      · cases hg
        cases hok
    cases hfz : frozen s key (Entry.top (segWrites segs)) with
    | true =>
      rw [segv_refused hkey hne hsegs (segvBegin_frozen hfz)] at h1
      cases h1
      cases hok
    | false =>
      obtain ⟨a', s₁, g1, -, g3⟩ := writev_spec hF h hkey hne hsegs hfz (hfit rfl)
      rw [lsWritev, h1] at g1
      cases g1
      have hm := (g3 (Or.inr hok)).2 s.map (abs_map h.sound.laid.records h.slack)
      refine capacity_of_abs h2.settled.sound hm (by rw [RefMap.lookup_put, if_pos rfl]) ?_
      rw [Entry.length_writes]
      exact Nat.le_max_right _ _

/-- `ls_accumulate`. -/
theorem accumulate_wants (hF : 2 ^ 64 ≤ E.fuel) (h : Settled s) {off tmp : ℕ} {buf : List UInt8}
    {op : Option Reduce} (hfit : (Op.write key off buf tmp).Fits E s) :
    ∃ ans s', (Api.accumulate key off buf op tmp).call E s = some (ans, s') ∧ Sound s' ∧
      (ans.rc = .ok → ∀ k fin, (Api.accumulate key off buf op tmp).wants s = some (k, fin) →
        ∃ r, s'.find k = some r ∧ fin ≤ r.capacity) := by
  obtain ⟨rc, s', h1, h2⟩ := accumulate_next hF h op hfit
  refine ⟨.accumulated rc, s', by rw [call_accumulate, h1]; rfl, h2.settled.sound, fun hok k fin hw => ?_⟩
  replace hok : rc = .ok := hok
  subst hok
  rw [Api.wants] at hw
  split_ifs at hw with hne
  cases hw
  rw [List.isEmpty_iff] at hne
  have hpos := List.length_pos_iff.mpr hne
  have hlt64 := add64_lt_iff hfit.1 hfit.2.1
  cases op with
  | none => cases h1
  | some op =>
    have hkey : lsKeyOk key = true := by
      by_contra hno
      rw [lsAccumulate, if_pos (by simpa using hno)] at h1
      cases h1
    have hmode : s.o.mode = .explicit := by
      by_contra hno
      rw [lsAccumulate, if_neg (by simp [hkey]), if_pos hno] at h1
      cases h1
    have hlt : off + buf.length < 2 ^ 64 := by
      by_contra hno
      rw [lsAccumulate, if_neg (by simp [hkey]), if_neg (by simp [hmode]), if_pos (by omega)] at h1
      cases h1
    have hfz : frozen s key (off + buf.length) = false := by
      by_contra hno
      rw [lsAccumulate, if_neg (by simp [hkey]), if_neg (by simp [hmode]), add64_eq hlt,
        if_neg (by omega), if_neg (by omega), if_pos (by simpa using hno)] at h1
      cases h1
    obtain ⟨-, -, -, rc', s₁, g1, -, -, g4⟩ :=
      accumulate_spec hF h hkey hmode hne hlt hfz (hfit.2.2 hlt) op tmp
    rw [h1] at g1
    cases g1
    have hm := (g4 (Or.inr rfl)).2 s.map (abs_map h.sound.laid.records h.slack)
    refine capacity_of_abs h2.settled.sound hm (by rw [RefMap.lookup_put, if_pos rfl]) ?_
    rw [Entry.combine, Entry.length_write, length_reduced, length_slice]
    exact Nat.le_max_right _ _

/-- **Sizes near the end of the range**: where no tail wraps, every call ends, it has failed or the
record has the capacity that it asked for, and the extents are in order. -/
theorem sizes_refused (hF : 2 ^ 64 ≤ E.fuel) (h : Reached E s) {a : Api} (hfit : a.Fits E s) :
    ∃ ans s', a.call E s = some (ans, s') ∧ Orderly s' ∧ (ans.rc = .ok → ∀ key fin,
      a.wants s = some (key, fin) → ∃ r, s'.find key = some r ∧ fin ≤ r.capacity) := by
  have hset := h.settled hF
  cases a with
  | plain op =>
    obtain ⟨ans, s', h1, h2, h3⟩ := plain_wants hF hset hfit
    exact ⟨ans, s', h1, orderly_of_sound h2, h3⟩
  | vectored key segs write =>
    obtain ⟨ans, s', h1, h2, h3⟩ := vectored_wants hF hset hfit.1 hfit.2
    exact ⟨ans, s', h1, orderly_of_sound h2, h3⟩
  | accumulate key off buf op tmp =>
    obtain ⟨ans, s', h1, h2, h3⟩ := accumulate_wants hF hset hfit
    exact ⟨ans, s', h1, orderly_of_sound h2, h3⟩

end Wants

/-- **A size near the end of the range is accepted**: `file_end` wraps to 0, and so does the end of the
extent. -/
theorem sizes_wrap : ∃ outs s', runOps Env.ample [.reserve keyA (2 ^ 64 - 4096)] (Disk.newStore {}) =
    some (outs, s') ∧ outs.map Out.rc = [.ok] ∧ s'.al.fileEnd < LS_SUPER_SIZE ∧
      ∃ e ∈ s'.live, 2 ^ 64 ≤ e.foff + e.len := by
  have hrun : (runOps Env.ample [.reserve keyA (2 ^ 64 - 4096)] (Disk.newStore {})).map (fun q =>
      (q.1.map Out.rc, q.2.al.fileEnd, q.2.live)) = some ([.ok], 0, [⟨4096, 2 ^ 64 - 4096⟩]) := by
    decide +kernel
  obtain ⟨⟨outs, s'⟩, h1, h2⟩ := Option.map_eq_some_iff.mp hrun
  simp only [Prod.mk.injEq] at h2
  obtain ⟨h2, h3, h4⟩ := h2
  refine ⟨outs, s', h1, h2, by rw [h3]; decide, ⟨4096, 2 ^ 64 - 4096⟩, by rw [h4]; simp, by decide⟩

/-- A reservation of `2 ^ 63` bytes. -/
theorem fits_reserve_half : (Api.plain (.reserve keyA (2 ^ 63))).Fits Env.ample (Disk.newStore {}) := by
  have hs : Reached Env.ample (Disk.newStore {}) := reached_newStore rfl (by decide)
  exact ⟨by norm_num, roomFits_of_le (Nat.le_refl _) (hs.settled (Nat.le_refl _)).sound (Nat.le_refl _)⟩

theorem sizes_refused_half : ∃ ans s',
    (Api.plain (.reserve keyA (2 ^ 63))).call Env.ample (Disk.newStore {}) = some (ans, s') ∧ Orderly s' ∧
      (ans.rc = .ok → ∀ key fin, (Api.plain (.reserve keyA (2 ^ 63))).wants (Disk.newStore {}) =
        some (key, fin) → ∃ r, s'.find key = some r ∧ fin ≤ r.capacity) :=
  sizes_refused (Nat.le_refl _) (reached_newStore rfl (by decide)) fits_reserve_half

/-! ## Reservations that fail -/

/-- The key that a call is about. -/
def Api.key? : Api → Option CStr
  | .plain op => op.key?
  | .vectored key _ _ => some key
  | .accumulate key _ _ _ _ => some key

/-- What a call that fails before its transfers leaves: the map as it was, but for an empty record. -/
structure Harmless (E : Env) (a : Api) (s s' : Store σ) : Prop where
  reached : Reached E s'
  map : s'.map = s.map ∨
    ∃ key, a.key? = some key ∧ s.map.lookup key = none ∧ s'.map = s.map.put key (some {})
  apart : (s'.live ++ s'.al.fl).Pairwise Span.Apart
  resident : s'.resident = (s'.recs.map fun r => if r.mem.isSome then r.memCap else 0).sum
  later : ∀ op : Op, op.Fits E s' → ∃ out s'', op.call E s' = some (out, s'') ∧ (out.rc = .ok →
    out = (op.refStep s'.shared s'.map).1 ∧ s''.map = (op.refStep s'.shared s'.map).2)

section Failed

variable {s s' : Store σ} {key : CStr} {a : Api} {ans : Answer}

/-- The extents and the holes share no byte. -/
theorem apart_of_sound (h : Sound s) : (s.live ++ s.al.fl).Pairwise Span.Apart := by
  have ht := h.laid.tiled
  refine List.pairwise_append.mpr ⟨ht.apart, ?_, fun e he b hb => ?_⟩
  · refine (ht.gapped.sorted.imp fun hab x hx hy => ?_)
    simp only [Span.Has, Span.fin] at *
    omega
  · exact (Span.apart_iff (ht.live_pos e he) (ht.gapped.pos b hb)).mpr (ht.live_apart_of_mem he hb)

/-- `resident` counts the records that have a buffer. -/
theorem resident_of_sound (h : Sound s) :
    s.resident = (s.recs.map fun r => if r.mem.isSome then r.memCap else 0).sum := by
  rw [h.laid.tiered.resident]
  congr 1
  refine List.map_congr_left fun r hr => ?_
  have hok := h.laid.records.ok _ _ ((find_iff_mem h.laid.records.wf).mpr ⟨hr, rfl⟩)
  split_ifs with hm
  · rfl
  · exact (hok.noMem (by simpa using hm)).1

theorem harmless_of_map (hF : 2 ^ 64 ≤ E.fuel) (h : Reached E s')
    (hmap : s'.map = s.map ∨
      ∃ key, a.key? = some key ∧ s.map.lookup key = none ∧ s'.map = s.map.put key (some {})) :
    Harmless E a s s' := by
  have hset := h.settled hF
  refine ⟨h, hmap, apart_of_sound hset.sound, resident_of_sound hset.sound, fun op hfit => ?_⟩
  obtain ⟨out, s'', h1, h2⟩ := call_spec hF hset.sound hfit
  refine ⟨out, s'', h1, fun hok => ?_⟩
  obtain ⟨e1, e2⟩ := h2.map (Or.inr hok) hset.slack s'.map
    (abs_map hset.sound.laid.records hset.slack)
  exact ⟨e1, (abs_unique h2.sound.laid.records e2).symm⟩

/-- The map after a call that could not get its room. -/
theorem map_of_refused {out : Out} (h : Settled s) (h' : Sound s') (hr : Refused key s out s') :
    s'.map = s.map ∨ s.map.lookup key = none ∧ s'.map = s.map.put key (some {}) := by
  have ha := hr.map h.slack _ s.map (abs_map (D := Nowhere) h.sound.laid.records h.slack)
  have hm := abs_unique h'.laid.records ha
  cases hl : s.map.lookup key with
  | none =>
    rw [hl] at hm
    exact Or.inr ⟨rfl, hm.symm⟩
  | some e =>
    rw [hl, Option.getD_some, ← hl, RefMap.put_lookup] at hm
    exact Or.inl hm.symm

/-- A call that the map refuses leaves the entry, or an empty one. -/
theorem Op.apply_failed {op : Op} {sh : Bool} {e : Option Entry} (h : (op.apply sh e).1.rc ≠ .ok) :
    (op.apply sh e).2 = e ∨ (op.apply sh e).2 = some (e.getD {}) := by
  cases op with
  | append k buf addr =>
    simp only [Op.apply] at h ⊢
    split_ifs at h ⊢
    · exact Or.inl rfl
    · exact Or.inl rfl
    · exact Or.inr rfl
    · exact absurd rfl h
  | keys => exact absurd rfl h
  | getAttr k cap =>
    cases e <;> cases cap <;> simp only [Op.apply] at h ⊢ <;> split_ifs at h ⊢ <;>
      first | exact Or.inl rfl | exact absurd rfl h
  | _ =>
    cases e <;> simp only [Op.apply] at h ⊢ <;> split_ifs at h ⊢ <;>
      first | exact Or.inl rfl | exact absurd rfl h

/-- A plain call that fails before its transfer. -/
theorem plain_failed (hF : 2 ^ 64 ≤ E.fuel) (h : Reached E s) {op : Op} (hfit : op.Fits E s)
    (he : (Api.plain op).enter E s = some (.done ans, s')) (hrc : ans.rc ≠ .ok) :
    Harmless E (.plain op) s s' := by
  have hset := h.settled hF
  obtain ⟨⟨ent, s₁⟩, hop, hent⟩ := Option.map_eq_some_iff.mp he
  rw [Prod.mk.injEq] at hent
  obtain ⟨hent, rfl⟩ := hent
  cases ent with
  | xfer x pl p => cases hent
  | done out =>
    cases hent
    replace hrc : out.rc ≠ .ok := hrc
    have hreach : Reached E s₁ := h.called hfit (by rw [Op.call, hop])
    cases hkey : op.key? with
    | none =>
      cases op with
      | keys =>
        cases hop
        exact absurd rfl hrc
      | _ => cases hkey
    | some key =>
      obtain ⟨ent', s₂, h1, h2⟩ := enter_spec hF hset.sound hkey hfit
      rw [hop] at h1
      cases h1
      have hput : (s₁.map = s.map ∨ s.map.lookup key = none ∧ s₁.map = s.map.put key (some {})) →
          Harmless E (.plain op) s s₁ := fun hm =>
        harmless_of_map hF hreach (hm.imp id fun hm => ⟨key, hkey, hm⟩)
      rcases h2.ended out rfl with hr | hmap
      · exact hput (map_of_refused hset h2.sound hr)
      · obtain ⟨e1, e2⟩ := hmap hset.slack _ s.map
          (abs_map (D := Nowhere) hset.sound.laid.records hset.slack)
        have hm := abs_unique h2.sound.laid.records e2
        rw [e1] at hrc
        rcases Op.apply_failed hrc with hap | hap
        · rw [hap, RefMap.put_lookup] at hm
          exact hput (Or.inl hm.symm)
        · rw [hap] at hm
          cases hl : s.map.lookup key with
          | none =>
            rw [hl] at hm
            exact hput (Or.inr ⟨hl, hm.symm⟩)
          | some e =>
            rw [hl, Option.getD_some, ← hl, RefMap.put_lookup] at hm
            exact hput (Or.inl hm.symm)

/-- A vectored call that fails before its transfers. -/
theorem vectored_failed (hF : 2 ^ 64 ≤ E.fuel) (h : Reached E s) {segs : List Seg} {write : Bool}
    (h64 : Segs64 segs) (hfit : write = true → RoomFits E s key (Entry.top (segWrites segs)))
    (he : (Api.vectored key segs write).enter E s = some (.done ans, s')) (hrc : ans.rc ≠ .ok) :
    Harmless E (.vectored key segs write) s s' := by
  have hset := h.settled hF
  have hsame : Harmless E (.vectored key segs write) s s := harmless_of_map hF h (Or.inl rfl)
  have hcall := call_vectored (E := E) (s := s) key segs write
  rw [Api.call, he] at hcall
  obtain ⟨⟨a, s₁⟩, hseg, ha⟩ := Option.map_eq_some_iff.mp hcall.symm
  rw [Prod.mk.injEq] at ha
  obtain ⟨rfl, rfl⟩ := ha
  have hreach : Reached E s₁ := h.vectored h64 hfit hseg
  rw [Api.enter, segvEnter] at he
  split_ifs at he with hkey hne
  · cases he
    exact hsame
  · cases he
    exact hsame
  rcases segs_error_or segs with hok | ⟨rc, herr⟩
  swap
  · rw [segvCheck_error h64 herr 0] at he
    cases he
    exact hsame
  have hcheck := segvCheck_ok hok 0
  rw [Nat.max_eq_right (Nat.zero_le _)] at hcheck
  rw [hcheck] at he
  dsimp only at he
  cases write with
  | false =>
    rw [segvBegin, if_neg (by decide)] at he
    split_ifs at he
    · cases he
      exact hsame
    · cases he
      exact hsame
    · cases he
  | true =>
    rw [segvBegin, if_pos rfl] at he
    split_ifs at he with hfz
    · cases he
      exact hsame
    · obtain ⟨rc, s₂, h1, h2⟩ := makeRoom_spec hF hset.sound (top_lt hok) (hfit rfl)
      rw [h1] at he
      dsimp only at he
      split_ifs at he with hrc'
      · cases he
        exact harmless_of_map hF hreach ((map_of_refused hset h2.sound (h2.refused hrc')).imp id
          fun hm => ⟨key, rfl, hm⟩)
      · cases he

/-- `ls_accumulate` that fails before its transfers. -/
theorem accumulate_failed (hF : 2 ^ 64 ≤ E.fuel) (h : Reached E s) {off tmp : ℕ} {buf : List UInt8}
    {op : Option Reduce} (hfit : (Op.write key off buf tmp).Fits E s)
    (he : (Api.accumulate key off buf op tmp).enter E s = some (.done ans, s')) (hrc : ans.rc ≠ .ok) :
    Harmless E (.accumulate key off buf op tmp) s s' := by
  have hset := h.settled hF
  have hsame : Harmless E (.accumulate key off buf op tmp) s s := harmless_of_map hF h (Or.inl rfl)
  have hcall := call_accumulate (E := E) (s := s) key off buf op tmp
  rw [Api.call, he] at hcall
  obtain ⟨⟨a, s₁⟩, hacc, ha⟩ := Option.map_eq_some_iff.mp hcall.symm
  rw [Prod.mk.injEq] at ha
  obtain ⟨rfl, rfl⟩ := ha
  have hreach : Reached E s₁ := h.accumulated hfit hacc
  rw [Api.enter] at he
  cases op with
  | none =>
    cases he
    exact hsame
  | some op =>
    rw [accumulateEnter] at he
    split_ifs at he with hkey hmode hw h0 hfz
    · cases he
      exact hsame
    · cases he
      exact hsame
    · cases he
      exact hsame
    · cases he
      exact hsame
    · cases he
      exact hsame
    have hlt : off + buf.length < 2 ^ 64 := by
      have := add64_lt_iff hfit.1 hfit.2.1
      omega
    obtain ⟨rc, s₂, h1, h2⟩ := makeRoom_spec hF hset.sound hlt (hfit.2.2 hlt)
    rw [add64_eq hlt, h1] at he
    dsimp only at he
    split_ifs at he with hrc'
    · cases he
      exact harmless_of_map hF hreach ((map_of_refused hset h2.sound (h2.refused hrc')).imp id
        fun hm => ⟨key, rfl, hm⟩)
    · cases he

end Failed

/-- A byte is written, and a tail wraps. -/
def wrapThen : List Op := [.write keyA 0 [7] 0, .reserve keyB (2 ^ 64 - 8192)]

end Libspill
