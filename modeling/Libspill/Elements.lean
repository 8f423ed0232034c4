import Libspill.Reach

set_option autoImplicit false

/-!
# Accumulation and the tier

* `length_le_of_noMem`: how long a record on extents can be.
* `makeRoom_newStore`: room for the first record of a new store.
* `TierFree`, **`tierFree_iff`**: for which lengths and elements `ls_accumulate` does not show where
  a record is.
-/

namespace Libspill

open HonestOs (clean file)

/-- `ls_accumulate` of `n` bytes combines the elements of `w` bytes of its range once each, over the
old bytes and zeros past them, and leaves everything else: in every store that is reached, resident
or not, and for every reduction. -/
def TierFree (w n : ℕ) : Prop :=
  ∀ (σ : Type) [HonestOs σ] (E : Env) (s : Store σ) (key : CStr) (off tmp : ℕ) (buf : List UInt8)
    (op : Reduce), 2 ^ 64 ≤ E.fuel → Reached E s → Elementwise w op → buf.length = n →
    lsKeyOk key = true → s.o.mode = .explicit → off + n < 2 ^ 64 → frozen s key (off + n) = false →
    RoomFits E s key (off + n) →
    ∃ rc s', lsAccumulate E s key off buf (some op) tmp = some (rc, s') ∧ (clean s'.os → rc = .ok ∧
      s'.map = s.map.put key (some (((s.map.lookup key).getD {}).combine op.run off buf)))

section

variable {σ : Type} [HonestOs σ] {E : Env} {s : Store σ} {key : CStr} {r : Rec}

/-- A record on extents ends where the largest file does, less the superblock. -/
theorem length_le_of_noMem (h : Sound s) (hk : s.find key = some r) (hm : r.mem = none) :
    r.size ≤ 2 ^ 63 - 2 * LS_ALIGN := by
  have hok := h.laid.records.ok _ _ hk
  have h1 := (hok.noMem hm).2
  have h2 := total_exts_le h.laid hk
  have h3 := fileEnd_lt h
  have h4 : LS_ALIGN ∣ s.al.fileEnd := h.laid.tiled.fe_al
  rw [hok.extTotal] at h1
  rw [total_nil] at h2
  rw [show LS_SUPER_SIZE = LS_ALIGN from rfl] at h2
  rw [show LS_ALIGN = 4096 from rfl] at h2 h4 ⊢
  omega

/-- Without a memory tier a new record goes to the file. -/
theorem ensureCap_new (h : Sound s) (hn : s.find key = none) (hbud : s.o.memoryBudget = 0) {n : ℕ}
    (h0 : 0 < n) : ensureCap E (lsTocFindOrInsert s key) key n =
      ensureExtents E E.fuel (lsTocFindOrInsert s key) key n := by
  obtain ⟨-, h2, h3, -⟩ := lsTocFindOrInsert_spec h key
  generalize lsTocFindOrInsert s key = s₀ at h2 h3
  rw [recAt_of_none hn] at h3
  have hr := recAt_of_find h3
  have htry : tryMemory E s₀ key n = some (false, s₀) := by
    rw [tryMemory, h2.opts.1, hbud, if_neg (by simp)]
  have hspill : spill E s₀ key = some (.ok, s₀) := by rw [spill, hr]
  rw [ensureCap, hr, if_neg (by simp), if_neg (by simp; omega), htry]
  dsimp only
  rw [hspill]
  dsimp only
  rw [if_neg (by simp)]

end

/-! ## Room in a new store -/

/-- Zeroing a range past the end of a file that may be so long. -/
theorem Disk.zeroRange_tail (s : Store Disk) {off len : ℕ} (hd : s.direct = false) (hlen : 0 < len)
    (hoff : s.os.file.len ≤ off) (hfit : off + len ≤ OFF_MAX) : ∃ os,
      zeroRange Env.ample s off len = some (.ok, { s with os }) ∧ os.ok = s.os.ok := by
  have hmax : OFF_MAX = 2 ^ 63 - 1 := rfl
  have hput : (s.os.file.write (off + len - 1) [0]).len ≤ OFF_MAX := by
    have := s.os.len_le
    simp only [File.write, List.length_singleton]
    rw [if_neg (by simp)]
    exact max_le this (by omega)
  obtain ⟨d, hw, hok⟩ : ∃ d, Os.pwrite s.os [0] (off + len - 1) = (.ok 1, d) ∧ d.ok = s.os.ok := by
    simp only [Os.pwrite, Disk.put, dif_pos hput]
    exact ⟨_, rfl, rfl⟩
  refine ⟨d, ?_, hok⟩
  obtain ⟨fuel, hfuel⟩ : ∃ fuel, Env.ample.fuel = fuel + 1 + 1 := ⟨2 ^ 64 - 2, rfl⟩
  have hexec : s.exec (lsPwriteAll Env.ample s.direct 0 [0] (off + len - 1)) =
      some ((.ok, []), { s with os := d }) := by
    rw [lsPwriteAll, rwAll, if_neg (by decide), if_pos (by simp [hd]), hfuel]
    simp only [plain, List.length_singleton, Nat.zero_lt_one, if_true, List.drop_zero,
      Nat.sub_zero, List.take_one, List.head?_cons, Option.toList_some]
    rw [add64_eq (by omega), Nat.add_zero, Io.pwrite, Store.exec, Prog.run.eq_def]
    simp only [perform, hw]
    rw [if_neg (by decide)]
    rfl
  have hin : insideOf s.os.file.len off len = 0 := by rw [insideOf, if_pos (by omega)]
  have hs : ({ s with os := s.os } : Store Disk) = s := rfl
  have hask : askZero s off 0 = (true, s) := rfl
  have hsize : Os.fileSize s.os = (.ok s.os.file.len, s.os) := rfl
  rw [zeroRange, if_neg (by omega), if_neg (by simp [hd]), hsize]
  dsimp only
  rw [hs, hin, hask]
  dsimp only
  rw [add64_eq (by omega), if_neg (by omega), sub64_eq (by omega) (by omega), hexec]

/-- **The first record of a new store gets its room** if a file can be so long. -/
theorem makeRoom_newStore {n : ℕ} (h0 : 0 < n) (hn : n ≤ 2 ^ 63 - 2 * LS_ALIGN) : ∃ s,
    makeRoom Env.ample (Disk.newStore {}) keyA n = some (.ok, s) ∧ s.os.ok = true ∧
      (s.recAt keyA).mem = none := by
  have hF : 2 ^ 64 ≤ Env.ample.fuel := Nat.le_refl _
  have hA : LS_ALIGN = 4096 := rfl
  have hset : Settled (Disk.newStore {}) := (reached_newStore rfl (by decide)).settled hF
  obtain ⟨h1, -, h3, h4, -⟩ := lsTocFindOrInsert_spec hset.sound keyA
  generalize hs₀ : lsTocFindOrInsert (Disk.newStore {}) keyA = s₀ at h1 h3 h4
  have hdir : s₀.direct = false := by rw [← hs₀]; rfl
  have hos : s₀.os = (Disk.newStore {}).os := by rw [← hs₀]; rfl
  have hal : s₀.al = ⟨[], LS_SUPER_SIZE⟩ := h4
  rw [recAt_of_none (show (Disk.newStore {}).find keyA = none by rfl)] at h3
  have hr := recAt_of_find h3
  have hup : roundUp n = (n + (LS_ALIGN - 1)) / LS_ALIGN * LS_ALIGN :=
    roundUp_eq (show n + (LS_ALIGN - 1) < 2 ^ 64 by omega)
  have hle : n ≤ roundUp n ∧ LS_SUPER_SIZE + roundUp n ≤ OFF_MAX := by
    rw [show LS_SUPER_SIZE = 4096 from rfl, show OFF_MAX = 2 ^ 63 - 1 from rfl, hup, hA]
    rw [hA] at hn
    omega
  have hO : OFF_MAX = 2 ^ 63 - 1 := rfl
  have halloc : allocFor s₀.al 0 n = (⟨LS_SUPER_SIZE, roundUp n⟩, ⟨[], LS_SUPER_SIZE + roundUp n⟩) := by
    have hbest : lsAllocBest ⟨[], LS_SUPER_SIZE⟩ n = none := by
      rw [lsAllocBest, if_neg (by omega)]
      rfl
    rw [hal, allocFor, hbest]
    dsimp only
    rw [if_neg (by decide)]
    rw [show lsAllocLargest ⟨[], LS_SUPER_SIZE⟩ (leastFor n) = none from rfl]
    dsimp only
    rw [lsAllocTail, add64_eq (show LS_SUPER_SIZE + roundUp n < 2 ^ 64 by omega)]
  obtain ⟨d, hz, hd⟩ := Disk.zeroRange_tail { s₀ with al := ⟨[], LS_SUPER_SIZE + roundUp n⟩ } hdir
    (show 0 < roundUp n by omega) (show s₀.os.file.len ≤ LS_SUPER_SIZE by rw [hos]; exact Nat.le_refl _)
    hle.2
  have hrec : Records { s₀ with al := ⟨[], LS_SUPER_SIZE + roundUp n⟩, os := d } :=
    h1.laid.records.withFile
  obtain ⟨r, ha⟩ := adopted_adopt (e := ⟨LS_SUPER_SIZE, roundUp n⟩) hrec h3
    (show 0 + roundUp n < 2 ^ 64 by omega)
  obtain ⟨fuel, hfuel⟩ : ∃ fuel, Env.ample.fuel = fuel + 1 + 1 := ⟨2 ^ 64 - 2, rfl⟩
  have hfind := ha.find keyA
  rw [if_pos rfl] at hfind
  have hext : ensureExtents Env.ample Env.ample.fuel s₀ keyA n = some (.ok,
      adopt { s₀ with al := ⟨[], LS_SUPER_SIZE + roundUp n⟩, os := d } keyA ⟨LS_SUPER_SIZE, roundUp n⟩) := by
    rw [hfuel, ensureExtents, hr, if_pos h0, sub64_eq (Nat.zero_le _) (by omega)]
    dsimp only
    rw [Nat.sub_zero, halloc]
    dsimp only
    rw [hz]
    dsimp only
    rw [if_neg (by simp), ensureExtents, recAt_of_find hfind, ha.recEq, if_neg]
    show ¬ 0 + roundUp n < n
    omega
  generalize adopt { s₀ with al := ⟨[], LS_SUPER_SIZE + roundUp n⟩, os := d } keyA
    ⟨LS_SUPER_SIZE, roundUp n⟩ = s₂ at ha hfind hext
  have hcap := ensureCap_new (E := Env.ample) hset.sound (show (Disk.newStore {}).find keyA = none from rfl) rfl h0
  rw [hs₀, hext] at hcap
  rw [makeRoom, hs₀, hcap]
  dsimp only
  rw [if_neg (by simp)]
  refine ⟨_, rfl, ?_, ?_⟩
  · show s₂.os.ok = true
    rw [ha.rest]
    show d.ok = true
    rw [hd, hos]
    rfl
  · have hset := find_setRec ha.wf hfind (f := fun r => { r with size := if n > r.size then n else r.size })
      rfl keyA
    rw [if_pos rfl] at hset
    rw [recAt_of_find hset, ha.recEq]

/-! ## The tier does not show -/

section

variable {σ : Type} [HonestOs σ] {E : Env} {s s' : Store σ} {key : CStr} {op : Reduce}

/-- Elements that are not cut by the pieces, or a record that has no extents. -/
theorem combine_reduced {w off : ℕ} {buf : List UInt8} {res : Bool} (e : Entry) (hF : 2 ^ 64 ≤ E.fuel)
    (hel : Elementwise w op) (hdvd : w ∣ buf.length) (hlt : buf.length < 2 ^ 64)
    (h : res = true ∨ buf.length ≤ CH ∨ w ∣ CH) :
    e.combine (reduced res E.fuel op) off buf = e.combine op.run off buf := by
  cases res with
  | true => rfl
  | false =>
    obtain ⟨m, hm⟩ := hdvd
    rw [Nat.mul_comm] at hm
    have hlen := length_slice e.byte off buf.length
    have := chunked_eq hel (hlen.trans hm) hm (by rw [hlen]; exact h.resolve_left (by decide))
      (show (slice e.byte off buf.length).length ≤ E.fuel by omega)
    rw [Entry.combine, Entry.combine, reduced, if_neg (by decide), this]

/-- A record that an accumulation has left on extents is not longer than the file. -/
theorem length_le_of_put (h : Sound s') {m : RefMap} {e : Entry}
    (ha : Abs Nowhere s' (m.put key (some e))) (hm : (s'.recAt key).mem.isSome = false) :
    e.bytes.length ≤ 2 ^ 63 - 2 * LS_ALIGN := by
  have hl : (m.put key (some e)).lookup key = some e := by rw [RefMap.lookup_put, if_pos rfl]
  cases hk : s'.find key with
  | none =>
    rw [ha.none key hk] at hl
    cases hl
  | some r =>
    rw [recAt_of_find hk] at hm
    obtain ⟨e', he', hmatch⟩ := ha.some key r hk
    rw [hl] at he'
    cases he'
    rw [← hmatch.size]
    exact length_le_of_noMem h hk (Option.isNone_iff_eq_none.mp (Option.isSome_eq_false_iff.mp hm))

end

/-- Nothing to combine is nothing done, and the record is not made longer. -/
theorem not_tierFree_zero {w : ℕ} (hw : 0 < w) : ¬ TierFree w 0 := by
  intro h
  have hF : 2 ^ 64 ≤ Env.ample.fuel := Nat.le_refl _
  have hreach : Reached Env.ample (Disk.newStore {}) := reached_newStore rfl (by decide)
  have hset := hreach.settled hF
  obtain ⟨rc, s', h1, h2⟩ := h Disk Env.ample (Disk.newStore {}) keyA 1 0 [] (.bump w) hF hreach
    (elementwise_bump hw) rfl rfl rfl (by norm_num) rfl (roomFits_of_le hF hset.sound (by norm_num))
  have hrun : lsAccumulate Env.ample (Disk.newStore {}) keyA 1 [] (some (.bump w)) 0 =
      some (.ok, Disk.newStore {}) := rfl
  rw [hrun] at h1
  cases h1
  have hl := congrArg (Finmap.lookup keyA) (h2 rfl).2
  rw [RefMap.lookup_put, if_pos rfl, lookup_map hset.sound.laid.records] at hl
  cases hl

/-- The first record of a new store, all of it combined. -/
theorem accumulate_newStore (op : Reduce) {n : ℕ} (h0 : 0 < n) (hn : n ≤ 2 ^ 63 - 2 * LS_ALIGN) : ∃ s,
    lsAccumulate Env.ample (Disk.newStore {}) keyA 0 (List.replicate n 0) (some op) 0 = some (.ok, s) ∧
      s.os.ok = true ∧ s.map = (Disk.newStore {}).map.put keyA
        (some (({} : Entry).combine (chunked op Env.ample.fuel) 0 (List.replicate n 0))) := by
  have hF : 2 ^ 64 ≤ Env.ample.fuel := Nat.le_refl _
  have hset : Settled (Disk.newStore {}) := (reached_newStore rfl (by decide)).settled hF
  generalize hbuf : List.replicate n (0 : UInt8) = buf
  have hbl : buf.length = n := by rw [← hbuf, List.length_replicate]
  have hroom : RoomFits Env.ample (Disk.newStore {}) keyA (0 + buf.length) :=
    roomFits_of_le hF hset.sound (by omega)
  obtain ⟨rc₁, s₁, m1, rc, s', m2, m3, m4, m5⟩ := accumulate_spec hF hset
    (show lsKeyOk keyA = true from rfl) rfl (List.length_pos_iff.mp (hbl ▸ h0)) (by omega) rfl hroom op 0
  obtain ⟨t, g1, g2, g3⟩ := makeRoom_newStore h0 hn
  rw [Nat.zero_add, hbl, g1] at m1
  cases m1
  obtain ⟨m6, m7⟩ := m4 rfl
  have hclean : s'.os.ok = true := m6.ok g2
  obtain ⟨rfl, m8⟩ := m5 (Or.inl hclean)
  have hmap := abs_unique m3.settled.sound.laid.records (m8 _
    (abs_map hset.sound.laid.records hset.slack))
  have hnone : (Disk.newStore {}).map.lookup keyA = none := by
    rw [lookup_map hset.sound.laid.records]
    rfl
  rw [m7, g3, hnone] at hmap
  exact ⟨s', m2, hclean, hmap.symm⟩

/-- **A cut element shows** in what is left. -/
theorem combine_cut (m : RefMap) {w n : ℕ} (hdvd : w ∣ n) (hlen : CH < n) (hcut : ¬ w ∣ CH)
    (hn : n ≤ 2 ^ 64) {buf : List UInt8} (hbl : buf.length = n) (e : Entry) :
    m.put keyA (some (e.combine (chunked (.bump w) Env.ample.fuel) 0 buf)) ≠
      m.put keyA (some (e.combine (Reduce.bump w).run 0 buf)) := by
  intro h
  have hfuel : Env.ample.fuel = 2 ^ 64 := rfl
  have hCH : 0 < CH := by decide
  have hl := congrArg (Finmap.lookup keyA) h
  rw [RefMap.lookup_put, RefMap.lookup_put, if_pos rfl, if_pos rfl] at hl
  have hb := congrFun (congrArg Entry.byte (Option.some.inj hl)) (CH - 1)
  have hsl := length_slice e.byte 0 buf.length
  generalize hdst : slice e.byte 0 buf.length = dst at hsl
  rw [Entry.combine, Entry.combine, Entry.byte_write, Entry.byte_write, hdst, patch, patch,
    if_pos (by rw [length_chunked]; omega), if_pos (by rw [Reduce.length_run]; omega)] at hb
  exact chunked_bump_ne (by rw [hsl, hbl]; exact hdvd) (by omega) hcut (by omega) hb

theorem not_tierFree_cut {w n : ℕ} (hw : 0 < w) (hdvd : w ∣ n) (hlen : CH < n) (hcut : ¬ w ∣ CH)
    (hn : n ≤ 2 ^ 63 - 2 * LS_ALIGN) : ¬ TierFree w n := by
  intro h
  have hF : 2 ^ 64 ≤ Env.ample.fuel := Nat.le_refl _
  have hreach : Reached Env.ample (Disk.newStore {}) := reached_newStore rfl (by decide)
  have hset := hreach.settled hF
  have hbl : (List.replicate n (0 : UInt8)).length = n := List.length_replicate
  obtain ⟨s', g1, g2, g3⟩ := accumulate_newStore (.bump w) (by omega) hn
  obtain ⟨rc, s'', h1, h2⟩ := h Disk Env.ample (Disk.newStore {}) keyA 0 0 (List.replicate n 0)
    (.bump w) hF hreach (elementwise_bump hw) hbl rfl rfl (by omega) rfl
    (roomFits_of_le hF hset.sound (by omega))
  rw [g1] at h1
  cases h1
  have hnone : (Disk.newStore {}).map.lookup keyA = none := by
    rw [lookup_map hset.sound.laid.records]
    rfl
  have hmap := (h2 g2).2
  rw [g3, hnone] at hmap
  exact combine_cut _ hdvd hlen hcut (by omega) hbl _ hmap

/-- Elements of three bytes, one of them cut after its first byte. -/
theorem accumulate_cut : ∃ s', Reached Env.ample (Disk.newStore {}) ∧ Elementwise 3 (.bump 3) ∧
    3 ∣ 2 ^ 20 + 2 ∧
    lsAccumulate Env.ample (Disk.newStore {}) keyA 0 (List.replicate (2 ^ 20 + 2) 0)
      (some (.bump 3)) 0 = some (.ok, s') ∧ s'.os.ok = true ∧
    s'.map ≠ (Disk.newStore {}).map.put keyA
      (some (({} : Entry).combine (Reduce.bump 3).run 0 (List.replicate (2 ^ 20 + 2) 0))) := by
  obtain ⟨s', g1, g2, g3⟩ := accumulate_newStore (.bump 3) (show 0 < 2 ^ 20 + 2 by norm_num)
    (by norm_num [LS_ALIGN])
  refine ⟨s', reached_newStore rfl (by decide), elementwise_bump (by norm_num), by norm_num, g1, g2, ?_⟩
  rw [g3]
  exact combine_cut _ (show 3 ∣ 2 ^ 20 + 2 by norm_num) (by norm_num [CH]) (by norm_num [CH])
    (by norm_num) List.length_replicate _

/-- **For which lengths and elements `ls_accumulate` does not show where a record is**: there is
something to combine, and it is one piece, or the pieces do not cut elements, or no record on extents
is so long. -/
theorem tierFree_iff {w n : ℕ} (hw : 0 < w) (hdvd : w ∣ n) : TierFree w n ↔
    0 < n ∧ (n ≤ CH ∨ w ∣ CH ∨ 2 ^ 63 - 2 * LS_ALIGN < n) := by
  constructor
  · intro h
    refine ⟨Nat.pos_of_ne_zero fun h0 => not_tierFree_zero hw (h0 ▸ h), ?_⟩
    by_contra hc
    rw [not_or, not_or] at hc
    exact not_tierFree_cut hw hdvd (by omega) hc.2.1 (by omega) h
  · rintro ⟨h0, hc⟩ σ _ E s key off tmp buf op hF hreach hel rfl hkey hmode hlt hfz hroom
    have hset := hreach.settled hF
    obtain ⟨rc₁, s₁, -, rc, s', h1, h2, -, h3⟩ :=
      accumulate_spec hF hset hkey hmode (List.length_pos_iff.mp h0) hlt hfz hroom op tmp
    refine ⟨rc, s', h1, fun hcl => ?_⟩
    obtain ⟨h4, h5⟩ := h3 (Or.inl hcl)
    have ha := h5 s.map (abs_map hset.sound.laid.records hset.slack)
    refine ⟨h4, ?_⟩
    rw [← abs_unique h2.settled.sound.laid.records ha]
    refine congrArg (fun e => s.map.put key (some e)) (combine_reduced _ hF hel hdvd (by omega) ?_)
    cases hm : (s'.recAt key).mem.isSome with
    | true => exact Or.inl rfl
    | false =>
      have hle := length_le_of_put h2.settled.sound ha hm
      rw [Entry.combine, Entry.length_write, hm] at hle
      have hlen : (reduced false E.fuel op (slice ((s.map.lookup key).getD {}).byte off buf.length)
          buf).length = buf.length := by
        rw [length_reduced, length_slice]
      exact Or.inr (by omega)

theorem tierFree_iff_eight : TierFree 8 (2 ^ 21) :=
  (tierFree_iff (by norm_num) (by norm_num)).mpr ⟨by norm_num, Or.inr (Or.inl (by norm_num [CH]))⟩

end Libspill
