import Libspill.Rebuild

set_option autoImplicit false

/-!
# Reading a kept store back

* `rebuildFreeList_tiled`: where the extents of a table tile the data area, the walk finds the holes
  between them and leaves the file alone.
* `loaded_sound`: a table that was loaded is a store.
* `superblock_fields`: the fields of the superblock read back.
* `StoredIn`: a file holds a store. **`lsOpen_storedIn`**: opening such a file gives the store back.
-/

namespace Libspill

variable {σ : Type}

/-! ## The free list -/

section Tiled

variable [Os σ]

/-- The walk accepts extents that follow each other. -/
theorem rebuildLoop_ok {all : List Extent} {cur : ℕ} {s : Store σ}
    (hord : all.Pairwise fun a b => a.fin ≤ b.foff) (hcur : ∀ e ∈ all, cur ≤ e.foff)
    (hw : ∀ e ∈ all, e.fin < 2 ^ 64) : ∃ s', rebuildLoop all cur s = .ok s' := by
  induction all generalizing cur s with
  | nil => exact ⟨s, rfl⟩
  | cons e es ih =>
    obtain ⟨h1, h2⟩ := List.pairwise_cons.mp hord
    have hadd : add64 e.foff e.len = e.fin := add64_eq (hw e (List.mem_cons_self ..))
    rw [rebuildLoop, if_neg (Nat.not_lt.mpr (hcur e (List.mem_cons_self ..))), hadd]
    exact ih h2 h1 fun d hd => hw d (List.mem_cons_of_mem _ hd)

/-- **The free list of a tiling is rebuilt**, and the file is not cut. -/
theorem rebuildFreeList_tiled {s : Store σ} {al : Alloc} (htd : s.teardown = false)
    (hal : s.al = ⟨[], al.fileEnd⟩) (ht : Tiled s.live al) (hw : al.fileEnd < 2 ^ 64) :
    rebuildFreeList s = .ok { s with al } := by
  rw [rebuildFreeList]
  have hsort := sorted_live s
  generalize s.live.insertionSort (fun a b => a.foff ≤ b.foff) = all at hsort
  have hT : Tiled all al := ht.perm hsort.perm.symm
  have hfin : ∀ e ∈ all, e.fin ≤ al.fileEnd := fun e he => (hT.live_bounds he).2
  have hord : all.Pairwise fun a b => a.fin ≤ b.foff := by
    refine (hsort.asc.and hT.apart).imp_of_mem fun {a b} ha hb hab => ?_
    have := (Span.apart_iff (hT.live_pos a ha) (hT.live_pos b hb)).mp hab.2
    have := hT.live_pos b hb
    simp only [Span.fin] at *
    omega
  obtain ⟨s', hok⟩ := rebuildLoop_ok (s := s) hord (fun e he => (hT.live_bounds he).1)
    fun e he => (hfin e he).trans_lt hw
  have hstart : Rebuilt al.fileEnd [] LS_SUPER_SIZE s.al := by
    rw [hal]
    exact .start _
  obtain ⟨⟨cur, h1⟩, h2, h3⟩ := rebuildLoop_spec htd hw hfin hstart hok
  rw [List.nil_append] at h1
  have hend : s'.al.fileEnd = al.fileEnd := by
    refine Nat.le_antisymm h1.le ?_
    rcases hT.last with hlo | hlast
    · rcases h1.fin with hf | hf
      · exact hf.ge
      · rw [hlo]
        cases all with
        | nil =>
          cases hok
          rw [hal]
          exact hT.lo_le
        | cons e es =>
          have := hT.live_bounds (List.mem_cons_self ..)
          have := hT.live_pos e (List.mem_cons_self ..)
          simp only [Span.fin] at *
          omega
    · have := (h1.live _ hlast).2.2
      have := hT.lo_le
      have : LS_SUPER_SIZE = 4096 := rfl
      omega
  have hfl : s'.al.fl = al.fl := by
    refine h1.gapped.eq_of_covers hT.gapped fun x => ⟨fun hx => ?_, fun hx => ?_⟩
    · obtain ⟨g1, -, g3, g4⟩ := h1.holes x hx
      exact ((hT.cover x).mp ⟨g1, by omega⟩).resolve_left g4
    · obtain ⟨g1, g2⟩ := (hT.cover x).mpr (Or.inr hx)
      rcases hT.last with hlo | hlast
      · omega
      · have := (h1.live _ hlast).2.1
        exact (h1.full x g1 (by omega) (by omega)).resolve_right fun hd => hT.excl x hd hx
  rw [hok, h3 (by rw [hend, hal]), Alloc.ext hfl hend]

end Tiled

/-! ## The table -/

/-- Reading a record touches the table and the extent arrays. -/
theorem loadRec_rest (s : Store σ) (key : CStr) (size : ℕ) (attr : List UInt8) (xs : List Extent) :
    loadRec s key size attr xs = { s with
      toc := (loadRec s key size attr xs).toc
      arr := (loadRec s key size attr xs).arr
      arrNext := (loadRec s key size attr xs).arrNext } := by
  unfold loadRec
  split_ifs <;> rfl

/-- Reading a table touches the table and the extent arrays. -/
theorem tocLoad_rest {count : ℕ} {w : List UInt8} {s s' : Store σ} (h : tocLoad count w s = .ok s') :
    s' = { s with toc := s'.toc, arr := s'.arr, arrNext := s'.arrNext } := by
  induction count generalizing w s with
  | zero =>
    cases h
    rfl
  | succ count ih =>
    rw [tocLoad] at h
    dsimp only at h
    split_ifs at h
    split at h
    · cases h
    rw [loadRec_rest] at h
    have hrest := ih h
    exact hrest

/-! ## The superblock -/

/-- **The superblock reads back.** -/
theorem superblock_fields (s : Store σ) (tb : List UInt8) (hfe : s.al.fileEnd < 2 ^ 64)
    (hn : s.toc.n < 2 ^ 64) (htb : tb.length < 2 ^ 64) {sb : List UInt8} (hsb : sb = superblock s tb) :
    (sb.take 8 = LS_MAGIC ∧ get32 (sb.drop 8) = LS_FMT_VERSION) ∧
      get64 (sb.drop 16) = s.al.fileEnd ∧ get64 (sb.drop 24) = s.toc.n ∧
      get64 (sb.drop 32) = s.al.fileEnd ∧ get32 (sb.drop 40) = (crc32Of tb).toNat ∧
      get64 (sb.drop 48) = tb.length := by
  have h0 : sb = LS_MAGIC ++ (put32 LS_FMT_VERSION ++ (put32 0 ++ (put64 s.al.fileEnd ++
      (put64 s.toc.n ++ (put64 s.al.fileEnd ++ (put32 (crc32Of tb).toNat ++ (put32 0 ++
        (put64 tb.length ++ List.replicate (LS_SUPER_SIZE - 56) 0)))))))) := by
    rw [hsb]
    simp [superblock]
  have hskip : ∀ {a n m : ℕ} {f r : List UInt8}, sb.drop a = f ++ r → f.length = m → a + m = n →
      sb.drop n = r := by
    rintro a n m f r h rfl rfl
    rw [← List.drop_drop, h, List.drop_left]
  have h8 := hskip (a := 0) (n := 8) (by rw [List.drop_zero]; exact h0) rfl rfl
  have h12 := hskip (n := 12) h8 (length_put32 _) rfl
  have h16 := hskip (n := 16) h12 (length_put32 _) rfl
  have h24 := hskip (n := 24) h16 (length_put64 _) rfl
  have h32 := hskip (n := 32) h24 (length_put64 _) rfl
  have h40 := hskip (n := 40) h32 (length_put64 _) rfl
  have h44 := hskip (n := 44) h40 (length_put32 _) rfl
  have h48 := hskip (n := 48) h44 (length_put32 _) rfl
  refine ⟨⟨by rw [h0]; rfl, ?_⟩, ?_, ?_, ?_, ?_, ?_⟩
  · rw [h8, get32_put32 (by decide)]
  · rw [h16, get64_put64 hfe]
  · rw [h24, get64_put64 hn]
  · rw [h32, get64_put64 hfe]
  · rw [h40, get32_put32 (crc32Of tb).toNat_lt]
  · rw [h48, get64_put64 htb]

theorem length_superblock (s : Store σ) (tb : List UInt8) :
    (superblock s tb).length = LS_SUPER_SIZE := by
  rw [superblock]
  simp only [List.length_append, List.length_replicate, length_put32, length_put64]
  rfl

/-! ## A kept store -/

variable [HonestOs σ] {E : Env}

open HonestOs (file clean)

/-- Every key has a legal length, and every attribute too. -/
def Named (s : Store σ) : Prop :=
  ∀ k r, s.find k = some r → lsKeyOk k = true ∧ r.attr.length ≤ LS_ATTR_MAX

/-- A store whose table of contents can be written: no record is in memory, and none has more
extents than the table can say. -/
structure Closable (s : Store σ) : Prop where
  sound : Sound s
  named : Named s
  spilt : ∀ k r, s.find k = some r → r.mem = none
  few : ∀ k r, s.find k = some r → r.next < 2 ^ 32

/-- The file holds the store: its superblock, its table and the bytes of its extents. -/
structure StoredIn (s : Store σ) (f : File) : Prop where
  super : slice f.byte 0 LS_SUPER_SIZE = superblock s (tocSerialise s)
  toc : slice f.byte s.al.fileEnd (tocSerialise s).length = tocSerialise s
  len : s.al.fileEnd + (tocSerialise s).length ≤ f.len
  data : ∀ x, Covers s.live x → f.byte x = s.fbyte x

/-- Should the table be empty, the checksum of what the file has past the data is that of nothing. -/
def Unmarked (s : Store σ) (f : File) : Prop :=
  s.recs = [] → crc32Of (slice f.byte s.al.fileEnd (f.len - s.al.fileEnd)) = crc32Of []

/-- What `ls_open` leaves of the operating system. -/
def openedOs : Except (Rc × σ) (Store σ) → σ
  | .error e => e.2
  | .ok s => s.os

/-- The store `s'` that was opened on a file holding the store `s`. -/
structure Reopened (o : Opts) (s : Store σ) (f : File) (s' : Store σ) : Prop where
  sound : Sound s'
  slack : Slack s → Slack s'
  idle : Idle s'
  opts : s'.o = o ∧ (s'.direct = true → o.directIo = true)
  al : s'.al = s.al
  rows : SameRows s s'
  content : ∀ k r r', s.find k = some r → s'.find k = some r' → s'.content r' = s.content r
  spilt : s'.lru = [] ∧ ∀ k r, s'.find k = some r → r.mem = none
  file : s'.fbyte = f.byte ∧ f.len ≤ s'.flen

section Rows

variable {s s' : Store σ}

theorem foldl_add64 {xs : List Extent} {t : ℕ} (h : t + total xs < 2 ^ 64) :
    xs.foldl (fun t e => add64 t e.len) t = t + total xs := by
  induction xs generalizing t with
  | nil => rfl
  | cons x xs ih =>
    rw [total_cons] at h ⊢
    rw [List.foldl_cons, add64_eq (by omega), ih (by omega)]
    omega

theorem storable_of_closable (h : Closable s) {r : Rec} (hr : r ∈ s.recs) : Storable s r := by
  have hk := find_of_mem h.sound.laid.records.wf hr
  have hok := h.sound.laid.records.ok _ _ hk
  have hsub := exts_subset_live h.sound.laid.records.wf hk
  have htot := total_exts_le h.sound.laid hk
  have hfe := fileEnd_lt h.sound
  have hsize := (hok.noMem (h.spilt _ _ hk)).2
  have hext := hok.extTotal
  rw [total_nil] at htot
  refine ⟨(h.named _ _ hk).1, by omega, (h.named _ _ hk).2, length_exts hok, h.few _ _ hk,
    fun e he => ?_, ?_⟩
  · exact h.sound.laid.tiled.live_bounds (hsub he)
  · rw [foldl_add64 (by omega), hext, Nat.zero_add]

omit [HonestOs σ] in
/-- A table that is empty has no record. -/
theorem recs_of_tocSerialise (h : tocSerialise s = []) : s.recs = [] := by
  cases hr : s.recs with
  | nil => rfl
  | cons r l =>
    rw [tocSerialise, hr, List.flatMap_cons] at h
    have := congrArg List.length h
    simp [encRec] at this

omit [HonestOs σ] in
theorem n_le_tocSerialise (s : Store σ) (hwf : s.toc.WF) : s.toc.n ≤ (tocSerialise s).length := by
  rw [hwf.count]
  show s.recs.length ≤ _
  rw [tocSerialise]
  induction s.recs with
  | nil => exact Nat.zero_le _
  | cons r l ih =>
    rw [List.flatMap_cons, List.length_append, List.length_cons]
    have : 0 < (encRec s r).length := by simp [encRec]
    omega

omit [HonestOs σ] in
theorem plain_of_loaded (hl : Loaded s s') {k : CStr} {r' : Rec} (hk : s'.find k = some r') :
    Plain r' := hl.loading.plain r' ((find_iff_mem hl.wf).mp hk).1

/-- A table that was loaded, and whose free list was rebuilt. -/
theorem laid_loaded (hc : Closable s) (hl : Loaded s s') {o : Opts} {direct : Bool} {os : σ}
    (hrest : s' = { blankStore o direct os s.al.fileEnd with
      toc := s'.toc, arr := s'.arr, arrNext := s'.arrNext, al := s.al }) : Laid [] s' := by
  have hwf := hl.wf
  have hplain : ∀ k r, s'.find k = some r → Plain r := fun k r hk => plain_of_loaded hl hk
  refine ⟨⟨hwf, fun k r hk => ?_, fun k k' r r' p hk hk' hp hp' => ?_,
    fun k k' r r' p hk hk' hp hp' => ?_⟩, ⟨?_, fun k => ⟨fun h => ?_, ?_⟩, ?_, ?_,
      fun p i hp => ?_, fun _ k r hk => (hplain k r hk).mem.1⟩, ?_, ?_⟩
  · obtain ⟨q, hq, hrow⟩ := hl.rows.some hk
    have hp := hplain k r hk
    have hok := hc.sound.laid.records.ok k q hq
    have hexts : s'.exts r = s.exts q := congrArg Row.exts hrow
    have htot : r.extTotal = q.extTotal := congrArg Row.extTotal hrow
    have hsize : r.size = q.size := congrArg Row.size hrow
    refine ⟨hp.noExt, hp.next_le, ?_, fun _ => ⟨hp.mem.2, ?_⟩, fun h => absurd hp.mem.1 h,
      hl.loading.ext_lt r ((find_iff_mem hwf).mp hk).1, fun p h => ?_⟩
    · rw [htot, hexts, hok.extTotal]
    · rw [hsize, htot]
      exact (hok.noMem (hc.spilt k q hq)).2
    · rw [hp.mem.1] at h
      cases h
  · obtain ⟨h1, h2⟩ := (find_iff_mem hwf).mp hk
    obtain ⟨h3, h4⟩ := (find_iff_mem hwf).mp hk'
    rw [← h2, ← h4, hl.loading.ext_inj r h1 r' h3 p hp hp']
  · rw [(hplain k r hk).mem.1] at hp
    cases hp
  · rw [hrest]
    exact List.nodup_nil
  · rw [hrest] at h
    cases h
  · rintro ⟨r, hk, hm⟩
    exact absurd (hplain k r hk).mem.1 hm
  · have hzero : ∀ n ∈ s'.recs.map Rec.memCap, n = 0 := by
      intro n hn
      obtain ⟨r, hr, rfl⟩ := List.mem_map.mp hn
      exact (hl.loading.plain r hr).mem.2
    rw [List.sum_eq_zero hzero, hrest]
    rfl
  · rw [hrest]
    show 0 < 2 ^ 63
    norm_num
  · rw [hrest]
    rfl
  · have hal : s'.al = s.al := by rw [hrest]
    rw [hal]
    exact hc.sound.laid.tiled.perm hl.rows.live.symm
  · rw [hrest]
    rfl

/-- The bytes of a record are in its extents when it has no buffer. -/
theorem content_spilt {r : Rec} (hm : r.mem = none) (i : ℕ) :
    s.content r i = (locate (s.exts r) i).elim 0 s.fbyte := by
  rw [Store.content, Store.loc]
  unfold locOf
  rw [hm]
  cases locate (s.exts r) i <;> rfl

theorem reopened_of_loaded (hc : Closable s) {f : File} (hf : StoredIn s f) (hl : Loaded s s')
    {o : Opts} (direct : Bool) (os : σ)
    (hrest : s' = { blankStore o direct os s.al.fileEnd with
      toc := s'.toc, arr := s'.arr, arrNext := s'.arrNext, al := s.al })
    (hos : (file os).byte = f.byte ∧ f.len ≤ (file os).len)
    (hdir : direct = true → o.directIo = true) : Reopened o s f s' := by
  have hplain : ∀ k r, s'.find k = some r → Plain r := fun k r hk => plain_of_loaded hl hk
  have hal : s'.al = s.al := by rw [hrest]
  have hfile : s'.fbyte = f.byte ∧ f.len ≤ s'.flen := by rw [hrest]; exact hos
  have hbyte : ∀ {k : CStr} {q : Rec} {i x : ℕ}, s.find k = some q → locate (s.exts q) i = some x →
      s'.fbyte x = s.fbyte x := by
    intro k q i x hq hx
    obtain ⟨e, he, hex⟩ := covers_of_locate hx
    rw [hfile.1]
    exact hf.data x ⟨e, exts_subset_live hc.sound.laid.records.wf hq he, hex⟩
  refine ⟨⟨laid_loaded hc hl hrest, ?_⟩, fun hs => ⟨fun k r i x hk hi hx => ?_,
    fun k r i p hk _ hp => ?_⟩, fun k => ?_, ⟨?_, fun hd => hdir ?_⟩, hal, hl.rows,
    fun k r r' hk hk' => funext fun i => ?_, ⟨?_, fun k r hk => (hplain k r hk).mem.1⟩, hfile⟩
  · rw [hal]
    exact ((Nat.le_add_right _ _).trans hf.len).trans hfile.2
  · obtain ⟨q, hq, hrow⟩ := hl.rows.some hk
    have hexts : s'.exts r = s.exts q := congrArg Row.exts hrow
    have hsize : r.size = q.size := congrArg Row.size hrow
    rw [hexts] at hx
    exact (hbyte hq hx).trans (hs.ext k q i x hq (hsize ▸ hi) hx)
  · rw [(hplain k r hk).mem.1] at hp
    cases hp
  · cases hk : s'.find k with
    | none => rw [recAt_of_none hk]
    | some r => rw [recAt_of_find hk, (hplain k r hk).busy]
  · rw [hrest]
    rfl
  · rw [hrest] at hd
    exact hd
  · obtain ⟨q, hq, hrow⟩ := hl.rows.some hk'
    rw [hk] at hq
    cases hq
    have hexts : s'.exts r' = s.exts r := congrArg Row.exts hrow
    rw [content_spilt (hplain k r' hk').mem.1, content_spilt (hc.spilt k r hk), hexts]
    cases hx : locate (s.exts r) i with
    | none => rfl
    | some x => exact hbyte hk hx
  · rw [hrest]
    rfl

end Rows

/-! ## Opening -/

/-- What `ls_open` answers on a file that holds a store: the store, or a failed call, or an empty
table that is taken for another one. -/
structure Opens (o : Opts) (s : Store σ) (f : File) (r : Except (Rc × σ) (Store σ)) : Prop where
  ok : Unmarked s f → clean (openedOs r) → ∃ s', r = .ok s'
  reopened : ∀ s', r = .ok s' → Reopened o s f s'

section Open

variable {s : Store σ} {f : File} {o : Opts} {direct : Bool}

theorem Opens.failed {e : Rc × σ} (h : ¬ clean e.2) : Opens o s f (.error e) :=
  ⟨fun _ hc => absurd hc h, fun s' h => by cases h⟩

/-- The table that the superblock describes. -/
theorem openToc_storedIn (hF : 2 ^ 64 ≤ E.fuel) (hc : Closable s) (hf : StoredIn s f) {os : σ}
    (hos : (file os).byte = f.byte ∧ f.len ≤ (file os).len)
    (hdir : direct = true → o.directIo = true) :
    ∃ r, openToc E (freshStore o direct os) f.len (superblock s (tocSerialise s)) = some r ∧
      Opens o s f r := by
  have hfe := fileEnd_lt hc.sound
  have hlo := hc.sound.laid.tiled.lo_le
  have hlen : f.len ≤ OFF_MAX := hos.2.trans (HonestOs.len_le os)
  have hmax : OFF_MAX = 2 ^ 63 - 1 := rfl
  have hfl := hf.len
  have hn := n_le_tocSerialise s hc.sound.laid.records.wf
  obtain ⟨hmagic, h16, h24, h32, h40, h48⟩ := superblock_fields s (tocSerialise s) (by omega)
    (by omega) (by omega) rfl
  rw [openToc, if_neg (by rw [hmagic.1, hmagic.2]; simp)]
  dsimp only
  rw [h16, h24, h32, h40, h48, if_neg (by omega)]
  -- the length that is read
  generalize htl : (if (tocSerialise s).length = 0 then f.len - s.al.fileEnd
    else (tocSerialise s).length) = tlen
  have htle : tlen ≤ f.len - s.al.fileEnd := by
    rw [← htl]
    split_ifs <;> omega
  rw [if_neg (by omega)]
  obtain ⟨rc, out, s₁, g1, g2, g3, g4, g5, g6⟩ := exec_lsPreadAll hF
    (blankStore o direct os s.al.fileEnd) direct E.tbAddr
    (show s.al.fileEnd + tlen < 2 ^ 64 by omega)
    (show s.al.fileEnd + tlen ≤ (file os).len by omega)
  have hf₁ : (file s₁.os).byte = f.byte ∧ f.len ≤ (file s₁.os).len := ⟨g4.trans hos.1, hos.2.trans g3⟩
  erw [g1]
  dsimp only
  by_cases hrc : rc ≠ .ok
  · rw [if_pos hrc]
    exact ⟨_, rfl, .failed fun h => hrc (g5 h).2⟩
  rw [if_neg hrc]
  rw [not_not] at hrc
  have hout := g6 hrc
  have hwf₁ : s₁.toc.WF := by rw [g2]; exact Chained.wf_empty (by norm_num)
  obtain ⟨s₂, k1, k2⟩ := tocLoad_tocSerialise hc.sound.laid.records.wf
    (fun r hr => storable_of_closable hc hr) (by omega) hwf₁
    (by rw [g2]; exact Chained.toList_empty 64) (by rw [g2]; rfl)
  -- an empty table is read whatever the bytes are
  have hcase : (crc32Of out).toNat ≠ (crc32Of (tocSerialise s)).toNat ∧ ¬ Unmarked s f ∨
      (crc32Of out).toNat = (crc32Of (tocSerialise s)).toNat ∧ tocLoad s.toc.n out s₁ = .ok s₂ := by
    have hbyte : (blankStore o direct os s.al.fileEnd).fbyte = f.byte := hos.1
    rw [hbyte] at hout
    by_cases hnil : tocSerialise s = []
    · have hrecs := recs_of_tocSerialise hnil
      have hn0 : s.toc.n = 0 := by
        rw [hc.sound.laid.records.wf.count]
        exact congrArg List.length hrecs
      rw [hnil] at htl k1
      rw [List.length_nil, if_pos rfl] at htl
      rw [hn0] at k1 ⊢
      rw [hout, ← htl, hnil]
      by_cases heq : (crc32Of (slice f.byte s.al.fileEnd (f.len - s.al.fileEnd))).toNat =
          (crc32Of []).toNat
      · exact Or.inr ⟨heq, k1⟩
      · exact Or.inl ⟨heq, fun hu => heq (congrArg UInt32.toNat (hu hrecs))⟩
    · rw [if_neg (by rwa [List.length_eq_zero_iff])] at htl
      rw [← htl, hf.toc] at hout
      exact Or.inr ⟨by rw [hout], by rw [hout]; exact k1⟩
  rcases hcase with ⟨hne, hu⟩ | ⟨heq, hload⟩
  · rw [if_pos hne]
    exact ⟨_, rfl, fun h => absurd h hu, fun s' h => by cases h⟩
  rw [if_neg (by rw [heq]; simp), hload]
  dsimp only
  have hrest := tocLoad_rest hload
  have hlive : Tiled s₂.live s.al := hc.sound.laid.tiled.perm k2.rows.live.symm
  rw [rebuildFreeList_tiled (show s₂.teardown = false by rw [hrest, g2]; rfl)
    (by rw [hrest, g2]; rfl) hlive
    (by omega)]
  refine ⟨_, rfl, fun _ _ => ⟨_, rfl⟩, fun s' h => ?_⟩
  cases h
  have k3 : Loaded s { s₂ with al := s.al } :=
    ⟨⟨k2.loading.placed, k2.loading.count, k2.loading.ext_lt, k2.loading.plain, k2.loading.ext_inj⟩,
      k2.wf, ⟨k2.rows.perm, k2.rows.find⟩⟩
  refine reopened_of_loaded hc hf k3 direct s₁.os ?_ hf₁ hdir
  rw [hrest, g2]
  rfl

/-- `ls_open` of a file that has a superblock reads it, and the table that it describes. -/
theorem lsOpen_super (hF : 2 ^ 64 ≤ E.fuel) {os : σ} {sb : List UInt8}
    (hsb : slice (file os).byte 0 LS_SUPER_SIZE = sb) (hlen : LS_SUPER_SIZE ≤ (file os).len)
    (ho : optsRefused o = none) :
    (∃ e : Rc × σ, lsOpen E o os = some (.error e) ∧ ¬ clean e.2) ∨
    ∃ (direct : Bool) (os₁ : σ), ((file os₁).byte = (file os).byte ∧ (file os).len ≤ (file os₁).len) ∧
      (direct = true → o.directIo = true) ∧
      lsOpen E o os = openToc E (freshStore o direct os₁) (file os).len sb := by
  unfold lsOpen
  rw [ho]
  dsimp only
  have hf₁ := HonestOs.openRw_file os o.directIo
  have hd₁ := HonestOs.openRw_ok os o.directIo
  have hc₁ := HonestOs.openRw_err os o.directIo
  generalize Os.openRw os o.directIo = a at hf₁ hd₁ hc₁ ⊢
  obtain ⟨direct | direct, os₁⟩ := a
  · exact Or.inl ⟨_, rfl, hc₁ _ rfl⟩
  dsimp only at hf₁ ⊢
  have hf₂ := HonestOs.fileSize_file os₁
  have hs₂ := HonestOs.fileSize_ok os₁
  have hc₂ := HonestOs.fileSize_err os₁
  generalize Os.fileSize os₁ = a at hf₂ hs₂ hc₂ ⊢
  obtain ⟨fsize | fsize, os₂⟩ := a
  · exact Or.inl ⟨_, rfl, hc₂ _ rfl⟩
  dsimp only at hf₂ ⊢
  have hfile : file os₂ = file os := hf₂.trans hf₁
  have hsize : fsize = (file os).len := (hs₂ _ rfl).trans (congrArg File.len hf₁)
  subst hsize
  rw [if_pos (by omega)]
  obtain ⟨rc, b, s₁, g1, g2, g3, g4, g5, g6⟩ := exec_lsPreadAll hF (freshStore o direct os₂) direct
    E.sbAddr (show 0 + LS_SUPER_SIZE < 2 ^ 64 by decide)
    (show 0 + LS_SUPER_SIZE ≤ (file os₂).len by rw [hfile]; omega)
  rw [g1]
  dsimp only
  by_cases hrc : rc ≠ .ok
  · rw [if_pos hrc]
    exact Or.inl ⟨_, rfl, fun h => hrc (g5 h).2⟩
  rw [if_neg hrc]
  rw [not_not] at hrc
  have hbyte : (freshStore o direct os₂).fbyte = (file os).byte := congrArg File.byte hfile
  have hb : b = sb := by rw [g6 hrc, hbyte, hsb]
  have hs₁ : s₁ = freshStore o direct s₁.os := by rw [g2]; rfl
  refine Or.inr ⟨direct, s₁.os, ⟨g4.trans hbyte, (congrArg File.len hfile).ge.trans g3⟩, hd₁ direct rfl, ?_⟩
  rw [hs₁, hb]
  rfl

/-- **A kept store is opened again.** -/
theorem lsOpen_storedIn (hF : 2 ^ 64 ≤ E.fuel) (hc : Closable s) {os : σ}
    (hf : StoredIn s (file os)) (ho : optsRefused o = none) :
    ∃ r, lsOpen E o os = some r ∧ Opens o s (file os) r := by
  have hlo := hc.sound.laid.tiled.lo_le
  have hlen := hf.len
  rcases lsOpen_super hF hf.super (by omega) ho with ⟨e, h1, h2⟩ | ⟨direct, os₁, h1, h2, h3⟩
  · exact ⟨_, h1, .failed h2⟩
  · rw [h3]
    exact openToc_storedIn hF hc hf h1 h2

end Open

end Libspill
