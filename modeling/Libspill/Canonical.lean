import Libspill.Lib.Gaps
import Libspill.Reach

set_option autoImplicit false

/-!
# The canonical form of the allocator

In every store that is reached the free list and the end of the file are what the live extents make
them, whatever calls have led there.

* `canonical`: the allocator that belongs to a list of live extents.
* `Canonical`: the live extents and the allocator of a store.
* `al_freed`: what freeing some of the extents leaves does not depend on the order.
* **`allocator_canonical`**: every store that is reached, freeing there, and reopening.
* `Stacked`: a store on a disk whose one record has `n` extents.
* `allocator_truncated`: `2 ^ 32` extents of one record are lost when the store is opened again.
-/

namespace Libspill

/-- The allocator of a file whose live extents are `live`. -/
def canonical (live : List Extent) : Alloc :=
  ⟨gaps LS_SUPER_SIZE (live.insertionSort fun a b => a.foff ≤ b.foff), top LS_SUPER_SIZE live⟩

/-- The live extents are apart, aligned and past the superblock; the free list is the list of the
gaps between them, the file ends where they end, and no byte is leaked. -/
structure Canonical {σ : Type} (s : Store σ) : Prop where
  apart : s.live.Pairwise Span.Apart
  start : ∀ e ∈ s.live, LS_SUPER_SIZE ≤ e.foff
  aligned : ∀ e ∈ s.live, LS_ALIGN ∣ e.foff ∧ LS_ALIGN ∣ e.len
  al : s.al = canonical s.live
  gapped : Gapped s.al.fl
  whole : ∀ x, LS_SUPER_SIZE ≤ x → x < s.al.fileEnd → Covers s.live x ∨ Covers s.al.fl x

section Tiled

variable {live : List Extent} {a : Alloc}

/-- **A tiling is in canonical form.** -/
theorem al_of_tiled (h : Tiled live a) : a = canonical live := by
  have hperm := List.perm_insertionSort (fun a b : Extent => a.foff ≤ b.foff) live
  have hsort := List.pairwise_insertionSort (fun a b : Extent => a.foff ≤ b.foff) live
  obtain ⟨h1, h2⟩ := h.canonical hperm hsort
  exact Alloc.ext h1 h2

variable {σ : Type} [Os σ]

omit [Os σ] in
theorem canonical_of_tiled {s : Store σ} (h : Tiled s.live s.al) : Canonical s where
  apart := h.apart
  start _ he := (h.live_bounds he).1
  aligned := h.live_al
  al := al_of_tiled h
  gapped := h.gapped
  whole x h1 h2 := (h.cover x).mp ⟨h1, h2⟩

/-- **Freeing in any order**: what is left is the canonical form of the extents that stay live. -/
theorem al_freed {s : Store σ} {es rest : List Extent} (htd : s.teardown = false)
    (h : Tiled (es ++ rest) s.al) (hfe : s.al.fileEnd < 2 ^ 64) :
    (lsFreeExtents s es).al = canonical rest := by
  rw [lsFreeExtents, if_neg (by simp [htd])]
  clear htd
  induction es generalizing s with
  | nil => exact al_of_tiled h
  | cons e es ih =>
    obtain ⟨os, hfree, -⟩ := freeExtent_eq s e
    have hfr := freed_flInsert h hfe
    rw [List.foldl_cons, hfree]
    exact ih hfr.tiled (hfr.le.trans_lt hfe)

end Tiled

section Reached

variable {σ : Type} [HonestOs σ] {E : Env} {s : Store σ}

open HonestOs (file)

/-- A store that is closed and opened again has the allocator it was closed with. -/
theorem al_reopened (hF : 2 ^ 64 ≤ E.fuel) (h : Reached E s) (hsh : s.o.parallel ≠ .shared)
    (hfew : Few E s) {o : Opts} {os : σ} {s' : Store σ} (hclose : closeStore E s true = some (.ok, os))
    (hopen : lsOpen E o os = some (.ok s')) :
    ∃ s₁, lsSpillAll E s = some (.ok, s₁) ∧ Canonical s₁ ∧ s'.al = s₁.al := by
  obtain ⟨rc, os', h1, -, h2⟩ := (h.settled hF).kept hF hsh hfew
  rw [hclose] at h1
  cases h1
  obtain ⟨s₁, h3, h4, -, -, h5⟩ := h2 rfl
  obtain ⟨r, h6, h7⟩ := h5 o (optsRefused_of_lsOpen hopen)
  rw [hopen] at h6
  cases h6
  exact ⟨s₁, h3, canonical_of_tiled h4.sound.laid.tiled, (h7.reopened _ rfl).al⟩

/-- **The allocator is always in canonical form**: in every store that is reached, after freeing any
of its extents in any order, and in the store that is opened again. -/
theorem allocator_canonical (hF : 2 ^ 64 ≤ E.fuel) (h : Reached E s) : Canonical s ∧
    (∀ es rest, s.live.Perm (es ++ rest) → (lsFreeExtents s es).al = canonical rest) ∧
    ∀ (o : Opts) (os : σ) (s' : Store σ), s.o.parallel ≠ .shared → Few E s →
      closeStore E s true = some (.ok, os) → lsOpen E o os = some (.ok s') →
        ∃ s₁, lsSpillAll E s = some (.ok, s₁) ∧ Canonical s₁ ∧ s'.al = s₁.al := by
  have hs := (h.settled hF).sound
  have hfe := fileEnd_lt hs
  refine ⟨canonical_of_tiled hs.laid.tiled, fun es rest hp => ?_, fun o os s' hsh hfew hc ho =>
    al_reopened hF h hsh hfew hc ho⟩
  exact al_freed hs.laid.teardown (hs.laid.tiled.perm hp) (by omega)

end Reached

/-! ## Transfers on a disk -/

section Disk

variable {E : Env} {s : Store Disk}

/-- A write that ends within `OFF_MAX` is made at once. -/
theorem Disk.pwrite_ok {d : Disk} {b : List UInt8} {off : ℕ} (h : off + b.length ≤ OFF_MAX) :
    ∃ d' : Disk, Os.pwrite d b off = (.ok b.length, d') ∧ d'.ok = d.ok := by
  have hlen : (d.file.write off b).len ≤ OFF_MAX := by
    have := d.len_le
    simp only [File.write]
    split_ifs <;> omega
  refine ⟨{ d with file := d.file.write off b, len_le := hlen }, ?_, rfl⟩
  simp only [Os.pwrite, Disk.put, dif_pos hlen]

theorem Disk.exec_lsPwriteAll (hF : 2 ^ 64 ≤ E.fuel) {direct : Bool} (hdir : direct = false)
    {b : List UInt8} {off addr : ℕ} (h : off + b.length ≤ OFF_MAX) : ∃ os : Disk,
      s.exec (lsPwriteAll E direct addr b off) = some ((.ok, []), { s with os }) ∧ os.ok = s.os.ok := by
  have hmax : OFF_MAX = 2 ^ 63 - 1 := rfl
  rw [hdir, lsPwriteAll, rwAll]
  by_cases hb : b.length = 0
  · rw [if_pos hb]
    exact ⟨s.os, rfl, rfl⟩
  rw [if_neg hb, if_pos (by simp)]
  obtain ⟨os, h1, h2⟩ := Disk.pwrite_ok (d := s.os) h
  obtain ⟨fuel, hfuel⟩ : ∃ fuel, E.fuel = fuel + 2 := ⟨E.fuel - 2, by omega⟩
  refine ⟨os, ?_, h2⟩
  rw [hfuel, plain, if_pos (by omega), if_pos rfl, List.drop_zero, Nat.sub_zero, List.take_length,
    add64_eq (by omega), Nat.add_zero, exec_pwrite, h1]
  dsimp only
  rw [if_neg hb, Nat.zero_add, plain, if_neg (Nat.lt_irrefl _)]
  rfl

theorem Disk.exec_lsPreadAll (hF : 2 ^ 64 ≤ E.fuel) {direct : Bool} (hdir : direct = false)
    {n off addr : ℕ} (hn : 0 < n) (h : off + n ≤ s.flen) :
    s.exec (lsPreadAll E direct addr n off) = some ((.ok, slice s.fbyte off n), s) := by
  have hmax : OFF_MAX = 2 ^ 63 - 1 := rfl
  have hle : s.flen ≤ OFF_MAX := s.os.len_le
  obtain ⟨fuel, hfuel⟩ : ∃ fuel, E.fuel = fuel + 2 := ⟨E.fuel - 2, by omega⟩
  have hread : Os.pread s.os n off = (.ok (slice s.fbyte off n), s.os) := by
    show (Except.ok (s.os.file.read n off), s.os) = _
    rw [File.read, Nat.min_eq_left (by have : s.flen = s.os.file.len := rfl; omega)]
    rfl
  rw [hdir, lsPreadAll, rwAll, if_neg (by omega), if_pos (by simp), hfuel, plain, if_pos hn, if_neg (by simp),
    Nat.sub_zero, add64_eq (by omega), Nat.add_zero, exec_pread, hread]
  dsimp only
  rw [length_slice, if_neg (by omega), Nat.zero_add, plain, if_neg (Nat.lt_irrefl _)]
  rfl

theorem Disk.zeroRange_ok (hF : 2 ^ 64 ≤ E.fuel) (hdir : s.direct = false) {off len : ℕ}
    (hlen : 0 < len) (h : off + len ≤ OFF_MAX) :
    ∃ os : Disk, zeroRange E s off len = some (.ok, { s with os }) ∧ os.ok = s.os.ok := by
  have hmax : OFF_MAX = 2 ^ 63 - 1 := rfl
  have hask : ∃ os : Disk, askZero s off (insideOf s.os.file.len off len) = (true, { s with os }) ∧
      os.ok = s.os.ok := by
    unfold askZero
    split_ifs
    · exact ⟨s.os, rfl, rfl⟩
    · exact ⟨(Os.zeroRange s.os off (insideOf s.os.file.len off len)).2, rfl, rfl⟩
  obtain ⟨os, h1, h2⟩ := hask
  have hsize : Os.fileSize s.os = (.ok s.os.file.len, s.os) := rfl
  rw [zeroRange, if_neg (by omega), if_neg (by simp [hdir]), hsize]
  dsimp only
  rw [show ({ s with os := s.os } : Store Disk) = s from rfl, h1, add64_eq (by omega)]
  dsimp only
  split_ifs with hend
  · exact ⟨os, rfl, h2⟩
  · rw [sub64_eq (by omega) (by omega)]
    obtain ⟨os', h3, h4⟩ := @Disk.exec_lsPwriteAll E { s with os } hF s.direct hdir [0]
      (off + len - 1) 0
      (show off + len - 1 + ([0] : List UInt8).length ≤ OFF_MAX by simp; omega)
    rw [h3]
    exact ⟨os', rfl, h4.trans h2⟩

end Disk

/-! ## One record with many extents -/

/-- A store on a disk with one record, of `n` extents of `LS_ALIGN` bytes each. -/
structure Stacked (n : ℕ) (s : Store Disk) : Prop where
  reached : Reached Env.ample s
  ok : s.os.ok = true
  opts : s.o = {} ∧ s.direct = false
  resident : s.resident = 0
  al : s.al = ⟨[], LS_SUPER_SIZE + n * LS_ALIGN⟩
  row : (s.recAt keyA).mem = none ∧ (s.recAt keyA).attr = [] ∧ (s.recAt keyA).next = n ∧
    (s.recAt keyA).extTotal = n * LS_ALIGN
  only : ∀ k, k ≠ keyA → s.find k = none

theorem stacked_zero : Stacked 0 (Disk.newStore {}) where
  reached := reached_newStore rfl (by decide)
  ok := rfl
  opts := ⟨rfl, rfl⟩
  resident := rfl
  al := rfl
  row := ⟨rfl, rfl, rfl, rfl⟩
  only k _ := by
    cases hk : (Disk.newStore {}).find k with
    | none => rfl
    | some r =>
      have hwf := ((reached_newStore (o := {}) rfl (by decide)).settled (Nat.le_refl _)).sound.laid.records.wf
      cases ((find_iff_mem hwf).mp hk).1

/-- The tail of a file without holes. -/
theorem allocFor_tail {fe next : ℕ} (hfe : fe + LS_ALIGN < 2 ^ 64) :
    allocFor ⟨[], fe⟩ next LS_ALIGN = (⟨fe, LS_ALIGN⟩, ⟨[], fe + LS_ALIGN⟩) := by
  have hround : roundUp LS_ALIGN = LS_ALIGN := by decide
  have htail : lsAllocTail ⟨[], fe⟩ LS_ALIGN = (⟨fe, LS_ALIGN⟩, ⟨[], fe + LS_ALIGN⟩) := by
    rw [lsAllocTail, hround, add64_eq hfe]
  have hbest : lsAllocBest ⟨[], fe⟩ LS_ALIGN = none := rfl
  have hlarge : lsAllocLargest ⟨[], fe⟩ (leastFor LS_ALIGN) = none := rfl
  rw [allocFor, hbest]
  dsimp only
  rw [hlarge, htail]
  exact ite_self _

/-- One more extent, at the tail. -/
theorem ensureExtents_tail {s : Store Disk} {r : Rec} {fe fuel need : ℕ} (h : Sound s)
    (hdir : s.direct = false) (hk : s.find keyA = some r) (hal : s.al = ⟨[], fe⟩)
    (hneed : need = r.extTotal + LS_ALIGN) (hfe : fe + LS_ALIGN ≤ OFF_MAX) :
    ∃ (os : Disk) (s' : Store Disk) (r' : Rec),
      ensureExtents Env.ample (fuel + 2) s keyA need = some (.ok, s') ∧ os.ok = s.os.ok ∧
      Adopted { s with os, al := ⟨[], fe + LS_ALIGN⟩ } s' keyA r r' ⟨fe, LS_ALIGN⟩ := by
  have hmax : OFF_MAX = 2 ^ 63 - 1 := rfl
  have hA : LS_ALIGN = 4096 := rfl
  have htot := total_exts_le h.laid hk
  have hlt := fileEnd_lt h
  rw [← (h.laid.records.ok _ _ hk).extTotal, total_nil] at htot
  have hsub : sub64 need r.extTotal = LS_ALIGN := by
    rw [sub64_eq (by omega) (by omega)]
    omega
  obtain ⟨os, hz, hok⟩ := @Disk.zeroRange_ok Env.ample { s with al := ⟨[], fe + LS_ALIGN⟩ }
    (Nat.le_refl _) hdir fe LS_ALIGN (by omega) hfe
  obtain ⟨r', ha⟩ := adopted_adopt (e := ⟨fe, LS_ALIGN⟩) (s := { s with os, al := ⟨[], fe + LS_ALIGN⟩ })
    h.laid.records.withFile hk (show r.extTotal + LS_ALIGN < 2 ^ 64 by omega)
  have hk' : (adopt { s with os, al := ⟨[], fe + LS_ALIGN⟩ } keyA ⟨fe, LS_ALIGN⟩).find keyA = some r' := by
    rw [ha.find, if_pos rfl]
  have htot' : r'.extTotal = need := by
    rw [ha.recEq, hneed]
  refine ⟨os, _, r', ?_, hok, ha⟩
  rw [ensureExtents, recAt_of_find hk]
  dsimp only
  rw [if_pos (by omega), hsub, hal, allocFor_tail (by omega)]
  dsimp only
  rw [hz]
  dsimp only
  rw [if_neg (by simp), ensureExtents, recAt_of_find hk', if_neg (by omega)]

/-- Reserving `LS_ALIGN` bytes more gives the record one more extent. -/
theorem stacked_reserve {n : ℕ} {s : Store Disk} (h : Stacked n s) (hn : n < 2 ^ 32) :
    ∃ s', lsReserve Env.ample s keyA ((n + 1) * LS_ALIGN) = some (.ok, s') ∧ Stacked (n + 1) s' ∧
      (n + 1) * LS_ALIGN ≤ (s'.recAt keyA).size := by
  have hmax : OFF_MAX = 2 ^ 63 - 1 := rfl
  have hA : LS_ALIGN = 4096 := rfl
  have hS : LS_SUPER_SIZE = 4096 := rfl
  have hmul : (n + 1) * LS_ALIGN = n * LS_ALIGN + LS_ALIGN := Nat.succ_mul n _
  have hlt : n * LS_ALIGN < 2 ^ 44 := by
    rw [hA]
    omega
  have hsound := (h.reached.settled (Nat.le_refl _)).sound
  obtain ⟨h1, h2, h3, h4, -⟩ := lsTocFindOrInsert_spec hsound keyA
  have hrest : lsTocFindOrInsert s keyA = { s with toc := (lsTocFindOrInsert s keyA).toc } := by
    unfold lsTocFindOrInsert
    cases s.find keyA <;> rfl
  obtain ⟨g1, g2, g3, g4⟩ := h.row
  have hdir : (lsTocFindOrInsert s keyA).direct = false := by rw [hrest]; exact h.opts.2
  have hbudget : (lsTocFindOrInsert s keyA).o.memoryBudget = 0 := by rw [hrest]; exact congrArg _ h.opts.1
  have hal : (lsTocFindOrInsert s keyA).al = ⟨[], LS_SUPER_SIZE + n * LS_ALIGN⟩ := h4.trans h.al
  obtain ⟨os, t, r', e1, e2, e3⟩ := @ensureExtents_tail _ _ _ (2 ^ 64 - 2) ((n + 1) * LS_ALIGN) h1 hdir h3
    hal (by omega) (by omega)
  have hcap : ensureCap Env.ample (lsTocFindOrInsert s keyA) keyA ((n + 1) * LS_ALIGN) = some (.ok, t) := by
    have hmem : tryMemory Env.ample (lsTocFindOrInsert s keyA) keyA ((n + 1) * LS_ALIGN) =
        some (false, lsTocFindOrInsert s keyA) := by
      rw [tryMemory, if_neg (by simp [hbudget])]
    rw [ensureCap, recAt_of_find h3, g1, if_neg (by simp), if_neg (by omega), hmem]
    dsimp only
    rw [spill_none h3 g1]
    exact e1
  have hkt : t.find keyA = some r' := by rw [e3.find, if_pos rfl]
  let f : Rec → Rec := fun r => { r with size := if (n + 1) * LS_ALIGN > r.size then (n + 1) * LS_ALIGN
    else r.size }
  have hres : lsReserve Env.ample s keyA ((n + 1) * LS_ALIGN) = some (.ok, t.setRec keyA f) := by
    rw [lsReserve, if_neg (by decide), if_neg (by rw [h.opts.1]; decide), makeRoom, hcap]
    rfl
  have hcall : (Op.reserve keyA ((n + 1) * LS_ALIGN)).call Env.ample s =
      some ({ rc := .ok }, t.setRec keyA f) := by
    rw [Op.call, Op.enter, hres]
  have hfind := find_setRec (f := f) e3.wf hkt rfl
  have hrec : (t.setRec keyA f).recAt keyA = f r' := recAt_of_find (by rw [hfind, if_pos rfl])
  have hr' := e3.recEq
  have hfits : (Op.reserve keyA ((n + 1) * LS_ALIGN)).Fits Env.ample s :=
    ⟨by omega, roomFits_of_le (Nat.le_refl _) hsound (by omega)⟩
  refine ⟨t.setRec keyA f, hres, ⟨h.reached.called hfits hcall, ?_, ?_, ?_, ?_, ?_, fun k hk => ?_⟩, ?_⟩
  · show t.os.ok = true
    rw [e3.rest]
    exact e2.trans (by rw [hrest]; exact h.ok)
  · show t.o = {} ∧ t.direct = false
    rw [e3.rest]
    exact ⟨by rw [hrest]; exact h.opts.1, hdir⟩
  · show t.resident = 0
    rw [e3.rest, hrest]
    exact h.resident
  · show t.al = _
    rw [e3.rest]
    exact congrArg (Alloc.mk []) (by omega)
  · rw [hrec]
    refine ⟨?_, ?_, ?_, ?_⟩
    · show r'.mem = none
      rw [hr']
      exact g1
    · show r'.attr = []
      rw [hr']
      exact g2
    · show r'.next = n + 1
      rw [hr', ← g3]
    · show r'.extTotal = (n + 1) * LS_ALIGN
      rw [hr']
      show (s.recAt keyA).extTotal + LS_ALIGN = _
      omega
  · rw [hfind, if_neg (Ne.symm hk), e3.find, if_neg (Ne.symm hk)]
    exact h2.none k hk (h.only k hk)
  · rw [hrec]
    show _ ≤ if (n + 1) * LS_ALIGN > r'.size then (n + 1) * LS_ALIGN else r'.size
    split_ifs
    · exact Nat.le_refl _
    · omega

theorem exists_stacked {n : ℕ} (hn : n ≤ 2 ^ 32) : ∃ s, Stacked n s := by
  induction n with
  | zero => exact ⟨_, stacked_zero⟩
  | succ n ih =>
    obtain ⟨s, hs⟩ := ih (by omega)
    obtain ⟨s', -, hs', -⟩ := stacked_reserve hs (by omega)
    exact ⟨s', hs'⟩

/-! ## Closing it, and opening it again -/

/-- The table and the superblock are written. -/
theorem Disk.persist_ok {E : Env} (hF : 2 ^ 64 ≤ E.fuel) {s : Store Disk} (hdir : s.direct = false)
    (hdur : s.o.durableClose = false) {tb : List UInt8} (hend : s.al.fileEnd + tb.length ≤ OFF_MAX) :
    ∃ os : Disk, persist E s tb = some (.ok, { s with os }) ∧ os.ok = s.os.ok := by
  obtain ⟨os, h1, h2⟩ := @Disk.exec_lsPwriteAll E s hF s.direct hdir tb s.al.fileEnd E.tbAddr hend
  obtain ⟨os', h3, h4⟩ := @Disk.exec_lsPwriteAll E { s with os } hF s.direct hdir
    (superblock { s with os } tb) 0 E.sbAddr (by rw [length_superblock]; decide)
  rw [persist, h1]
  dsimp only
  rw [if_neg (by simp), h3]
  dsimp only
  rw [if_pos (by simp [hdur])]
  exact ⟨os', rfl, h4.trans h2⟩

variable {s : Store Disk}

theorem Stacked.find (h : Stacked (2 ^ 32) s) : s.find keyA = some (s.recAt keyA) := by
  have hnext := h.row.2.2.1
  cases hk : s.find keyA with
  | none =>
    rw [recAt_of_none hk] at hnext
    cases hnext
  | some r => rw [recAt_of_find hk]

theorem Stacked.recs (h : Stacked (2 ^ 32) s) : s.recs = [s.recAt keyA] := by
  have hwf := (h.reached.settled (Nat.le_refl _)).sound.laid.records.wf
  have hall : ∀ r ∈ s.recs, r = s.recAt keyA := by
    intro r hr
    have hk := find_of_mem hwf hr
    by_cases hkey : r.key = keyA
    · rw [hkey, h.find] at hk
      exact (Option.some.inj hk).symm
    · rw [h.only _ hkey] at hk
      cases hk
  have hmem := ((find_iff_mem hwf).mp h.find).1
  have hrep : s.recs = List.replicate s.recs.length (s.recAt keyA) :=
    List.eq_replicate_iff.mpr ⟨rfl, hall⟩
  have hnodup : s.recs.Nodup := hwf.nodup.of_map
  rw [hrep, List.nodup_replicate] at hnodup
  have hpos := List.length_pos_of_mem hmem
  rw [hrep, show s.recs.length = 1 by omega]
  rfl

/-- The record as the table of contents spells it: the number of its extents is `2 ^ 32` in 32 bits. -/
def bare (r : Rec) : Rec := { r with ext := none, next := 0, extTotal := 0 }

theorem Stacked.toc (h : Stacked (2 ^ 32) s) : ∃ w, w.length = 2 ^ 36 ∧
    tocSerialise s = encRec s (bare (s.recAt keyA)) ++ w := by
  have hok := (h.reached.settled (Nat.le_refl _)).sound.laid.records.ok _ _ h.find
  have hlen := length_exts hok
  refine ⟨(s.exts (s.recAt keyA)).flatMap encExtent, ?_, ?_⟩
  · rw [length_encExtents, hlen, h.row.2.2.1]
    norm_num
  · have hcount : put32 (2 ^ 32) = put32 0 := by decide
    have hnone : s.exts (bare (s.recAt keyA)) = [] := rfl
    have hkeep : (bare (s.recAt keyA)).key = (s.recAt keyA).key ∧
        (bare (s.recAt keyA)).size = (s.recAt keyA).size ∧
        (bare (s.recAt keyA)).attr = (s.recAt keyA).attr ∧ (bare (s.recAt keyA)).next = 0 :=
      ⟨rfl, rfl, rfl, rfl⟩
    rw [tocSerialise, h.recs, List.flatMap_cons, List.flatMap_nil, List.append_nil, encRec, encRec,
      hnone, hkeep.1, hkeep.2.1, hkeep.2.2.1, hkeep.2.2.2, h.row.2.2.1, hcount, List.flatMap_nil,
      List.append_nil]

theorem Stacked.storable (h : Stacked (2 ^ 32) s) : Storable s (bare (s.recAt keyA)) where
  key := by
    have hwf := (h.reached.settled (Nat.le_refl _)).sound.laid.records.wf
    show lsKeyOk (s.recAt keyA).key = true
    rw [((find_iff_mem hwf).mp h.find).2]
    rfl
  size := (size_lt (h.reached.settled (Nat.le_refl _)).sound keyA).trans (by norm_num)
  attr := by
    show (s.recAt keyA).attr.length ≤ _
    rw [h.row.2.1]
    exact Nat.zero_le _
  next := rfl
  next_lt := by
    show 0 < 2 ^ 32
    norm_num
  inData _ he := by cases he
  extTotal := rfl

/-- What `ls_close(keep=1)` leaves of it. -/
theorem Stacked.close (h : Stacked (2 ^ 32) s) : ∃ os : Disk,
    closeStore Env.ample s true = some (.ok, os) ∧ StoredIn s os.file := by
  have harith : ∀ a b : ℕ, a ≤ 255 → b ≤ 256 →
      4096 + 2 ^ 44 + (4 + a + 8 + 4 + b + 4 + 16 * 0 + 2 ^ 36) ≤ 2 ^ 63 - 1 := by
    intro a b ha hb
    omega
  have hF : 2 ^ 64 ≤ Env.ample.fuel := Nat.le_refl _
  have hmax : OFF_MAX = 2 ^ 63 - 1 := rfl
  have hsound := (h.reached.settled hF).sound
  obtain ⟨w, hw, htoc⟩ := h.toc
  have hspill : lsSpillAll Env.ample s = some (.ok, s) := by
    show lsEvictTo Env.ample (2 ^ 64 - 1 + 1) s 0 none = _
    rw [lsEvictTo, if_neg (by rw [h.resident]; decide)]
  have hend : s.al.fileEnd + (tocSerialise s).length ≤ OFF_MAX := by
    have hA : LS_ALIGN = 4096 := rfl
    have hS : LS_SUPER_SIZE = 4096 := rfl
    have hsto := h.storable
    have hnext : (bare (s.recAt keyA)).next = 0 := rfl
    have hfe : s.al.fileEnd = LS_SUPER_SIZE + 2 ^ 44 := by
      rw [h.al, hA]
      norm_num
    generalize bare (s.recAt keyA) = r at htoc hsto hnext
    have hkey := hsto.key
    have hattr := hsto.attr
    have hK : LS_KEY_MAX = 255 := rfl
    have hT : LS_ATTR_MAX = 256 := rfl
    rw [lsKeyOk, Bool.and_eq_true, decide_eq_true_eq, decide_eq_true_eq] at hkey
    rw [htoc, List.length_append, length_encRec hsto.next, hw, hfe, hnext]
    exact harith _ _ hkey.2 hattr
  obtain ⟨os, h1, -⟩ := Disk.persist_ok hF h.opts.2 (by rw [h.opts.1]) hend
  obtain ⟨rc, s', h2, h3⟩ := persist_spec hF hsound
  rw [h1] at h2
  cases h2
  refine ⟨os, ?_, h3.stored rfl⟩
  rw [closeStore, if_neg (by rw [h.opts.1]; decide), if_pos rfl, hspill]
  dsimp only
  rw [h1]
  rfl

/-- On a disk the superblock is read. -/
theorem Disk.lsOpen_super {E : Env} (hF : 2 ^ 64 ≤ E.fuel) {o : Opts} (ho : optsRefused o = none)
    (hdir : o.directIo = false) {os : Disk} {sb : List UInt8}
    (hsb : slice os.file.byte 0 LS_SUPER_SIZE = sb) (hlen : LS_SUPER_SIZE ≤ os.file.len) :
    lsOpen E o os = openToc E (freshStore o false os) os.file.len sb := by
  have hread := @Disk.exec_lsPreadAll E (freshStore o false os) hF false rfl LS_SUPER_SIZE 0 E.sbAddr
    (by decide) (show 0 + LS_SUPER_SIZE ≤ os.file.len by omega)
  have hrd : slice (freshStore o false os).fbyte 0 LS_SUPER_SIZE = sb := hsb
  have hopen : Os.openRw os o.directIo = (.ok false, os) := by
    rw [hdir]
    rfl
  have hsize : Os.fileSize os = (.ok os.file.len, os) := rfl
  rw [hrd] at hread
  rw [lsOpen, ho]
  dsimp only
  rw [hopen]
  dsimp only
  rw [hsize]
  dsimp only
  rw [if_pos (by omega), hread]
  rfl

/-- A table that has one record without extents. -/
theorem live_reloaded (os : Disk) (fe size : ℕ) :
    (loadRec (blankStore {} false os fe) keyA size [] []).live = [] := by
  obtain ⟨l1, l2⟩ := loading_blankStore {} false os fe
  have := (@live_loadRec Disk _ keyA size [] [] l1).1
  rw [List.nil_append, Store.live, Store.live, l2] at this
  exact this.eq_nil

/-- What `ls_open` reads: one record without extents. -/
theorem Stacked.reloads (h : Stacked (2 ^ 32) s) {os : Disk} (hf : StoredIn s os.file) :
    lsOpen Env.ample {} os =
      some (.ok (loadRec (blankStore {} false os s.al.fileEnd) keyA (s.recAt keyA).size [] [])) := by
  have hF : 2 ^ 64 ≤ Env.ample.fuel := Nat.le_refl _
  have hmax : OFF_MAX = 2 ^ 63 - 1 := rfl
  have hsound := (h.reached.settled hF).sound
  have hfe := fileEnd_lt hsound
  have hlo := hsound.laid.tiled.lo_le
  have hlen := hf.len
  have hle : os.file.len ≤ OFF_MAX := os.len_le
  obtain ⟨w, hw, htoc⟩ := h.toc
  have hpos : 0 < (tocSerialise s).length := by
    rw [htoc, List.length_append]
    omega
  have hn : s.toc.n = 1 := by
    rw [hsound.laid.records.wf.count]
    exact congrArg List.length h.recs
  generalize htb : tocSerialise s = tb at *
  obtain ⟨⟨p1, p2⟩, p3, p4, p5, p6, p7⟩ := superblock_fields s tb (by omega) (by omega) (by omega) rfl
  have hS : LS_SUPER_SIZE = 4096 := rfl
  have hrt := @Disk.exec_lsPreadAll Env.ample (blankStore {} false os s.al.fileEnd) hF false rfl
    tb.length s.al.fileEnd Env.ample.tbAddr hpos (show s.al.fileEnd + tb.length ≤ os.file.len by omega)
  have hrd : slice (blankStore {} false os s.al.fileEnd).fbyte s.al.fileEnd tb.length = tb := by
    rw [← htb]
    exact hf.toc
  rw [hrd] at hrt
  -- the table is read as one record without extents, and the rest of it is left over
  obtain ⟨l1, -⟩ := loading_blankStore {} false os s.al.fileEnd
  have hsto := h.storable
  have hnone : s.exts (bare (s.recAt keyA)) = [] := rfl
  have hfind : (s.recAt keyA).key = keyA := key_of_find hsound.laid.records.wf h.find
  have hkey : (bare (s.recAt keyA)).key = keyA := hfind
  have hsize : (bare (s.recAt keyA)).size = (s.recAt keyA).size := rfl
  have hattr : (bare (s.recAt keyA)).attr = [] := h.row.2.1
  generalize bare (s.recAt keyA) = r at htoc hsto hnone hkey hsize hattr
  have hload : tocLoad 1 tb (blankStore {} false os s.al.fileEnd) =
      .ok (loadRec (blankStore {} false os s.al.fileEnd) r.key r.size r.attr []) := by
    have hread := @tocLoad_encRec Disk s (blankStore {} false os s.al.fileEnd) r hsto (by omega) rfl 0 w
    rw [hnone] at hread
    rw [htoc]
    exact hread
  rw [hkey, hsize, hattr] at hload
  have hlive : (loadRec (blankStore {} false os s.al.fileEnd) keyA (s.recAt keyA).size [] []).live = [] :=
    live_reloaded _ _ _
  generalize loadRec (blankStore {} false os s.al.fileEnd) keyA (s.recAt keyA).size [] [] = s₁ at hload hlive
  have hbuild : rebuildFreeList s₁ = .ok s₁ := by
    rw [rebuildFreeList, hlive]
    rfl
  have hopen := Disk.lsOpen_super hF (o := {}) rfl rfl (hf.super.trans (by rw [htb])) (by omega)
  rw [hopen, openToc, if_neg (by rw [p1, p2]; simp)]
  dsimp only
  have htl : (if tb.length = 0 then os.file.len - s.al.fileEnd else tb.length) = tb.length :=
    if_neg (by omega)
  rw [p3, p4, p5, p6, p7, if_neg (by omega), htl, if_neg (by omega)]
  erw [hrt]
  dsimp only
  rw [if_neg (by simp), if_neg (by simp), hn, hload]
  dsimp only
  rw [hbuild]

/-- What `ls_open` makes of that: a record without extents in a file that does not shrink. -/
theorem Stacked.reopen (h : Stacked (2 ^ 32) s) {os : Disk} (hf : StoredIn s os.file) :
    ∃ s', lsOpen Env.ample {} os = some (.ok s') ∧ s'.live = [] ∧
      s'.al = ⟨[], LS_SUPER_SIZE + 2 ^ 32 * LS_ALIGN⟩ := by
  refine ⟨_, h.reloads hf, live_reloaded _ _ _, ?_⟩
  rw [loadRec_rest]
  show (⟨[], s.al.fileEnd⟩ : Alloc) = _
  rw [h.al]

/-- **Extents that the table of contents cannot count are lost**: a store whose record has `2 ^ 32`
extents is closed without an error, and what is opened again is not in canonical form. -/
theorem allocator_truncated : ∃ (s : Store Disk) (os : Disk) (s' : Store Disk),
    Reached Env.ample s ∧ s.os.ok = true ∧ s.o.parallel ≠ .shared ∧
    closeStore Env.ample s true = some (.ok, os) ∧ lsOpen Env.ample {} os = some (.ok s') ∧
    ¬ Canonical s' := by
  obtain ⟨s, h⟩ := exists_stacked (Nat.le_refl (2 ^ 32))
  obtain ⟨os, h1, h2⟩ := h.close
  obtain ⟨s', h3, h4, h5⟩ := h.reopen h2
  refine ⟨s, os, s', h.reached, h.ok, by rw [h.opts.1]; decide, h1, h3, fun hc => ?_⟩
  have hal := hc.al
  rw [h4, h5] at hal
  have hend := congrArg Alloc.fileEnd hal
  have hmul : 0 < 2 ^ 32 * LS_ALIGN := Nat.mul_pos (by norm_num) (by decide)
  have hcan : (canonical []).fileEnd = LS_SUPER_SIZE := rfl
  rw [hcan] at hend
  dsimp only at hend
  omega

theorem allocator_canonical_three : ∃ s : Store Disk, Stacked 3 s ∧ Canonical s ∧
    (∀ es rest, s.live.Perm (es ++ rest) → (lsFreeExtents s es).al = canonical rest) ∧
    ∀ (o : Opts) (os : Disk) (s' : Store Disk), s.o.parallel ≠ .shared → Few Env.ample s →
      closeStore Env.ample s true = some (.ok, os) → lsOpen Env.ample o os = some (.ok s') →
        ∃ s₁, lsSpillAll Env.ample s = some (.ok, s₁) ∧ Canonical s₁ ∧ s'.al = s₁.al := by
  obtain ⟨s, h⟩ := exists_stacked (show 3 ≤ 2 ^ 32 by norm_num)
  exact ⟨s, h, allocator_canonical (Nat.le_refl _) h.reached⟩

end Libspill
