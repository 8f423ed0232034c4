import Libspill.Cursor
import Libspill.Pieces
import Libspill.Reopen

set_option autoImplicit false

/-!
# What the loader lets in

`ls_open` of a file with arbitrary bytes: the bounds of the table are checked, what it says is not.

* `File.entries`: the entries of the table of contents that a file spells.
* `lsOpen_rows`: the records of an accepted store are these entries.
* `Usable`: what the rest of the code relies on. `Serves`: what follows from it.
* **`opened_usable_iff`**: an accepted store is usable if and only if the entries of the file are sane.
* `opened_unusable`: an accepted store that is not.
-/

namespace Libspill

variable {σ : Type}

/-! ## Rows -/

/-- The row that an entry becomes: its key ends at the first zero byte. -/
def TocEntry.row (x : TocEntry) : Row := ⟨cstr x.key, x.size, x.attr, x.exts, endOf x.exts 0⟩

/-- **Loading adds the rows of the entries.** -/
theorem tocLoad_rows {count : ℕ} {w : List UInt8} {s s' : Store σ} (h : Loading s)
    (hload : tocLoad count w s = .ok s') : Loading s' ∧
      (s'.recs.map s'.row).Perm ((tocEntries count w).map TocEntry.row ++ s.recs.map s.row) := by
  induction count generalizing w s with
  | zero =>
    cases hload
    exact ⟨h, List.Perm.refl _⟩
  | succ count ih =>
    rw [tocLoad] at hload
    dsimp only at hload
    split_ifs at hload
    split at hload
    · cases hload
    next xs v hl =>
    obtain ⟨h1, h2, -⟩ := loadExtents_ok hl
    obtain ⟨h3, h4⟩ := ih (loading_loadRec h _ _ _ _).1 hload
    refine ⟨h3, h4.trans ?_⟩
    rw [tocEntries, ← h1, ← h2]
    exact ((rows_loadRec h _ _ _ _).append_left _).trans List.perm_middle

/-! ## Opening -/

/-- The entries of the table of contents that the superblock `sb` of a file points to. -/
def tableOf (f : File) (sb : List UInt8) : List TocEntry :=
  let tocOff := get64 (sb.drop 16)
  let tlen := get64 (sb.drop 48)
  let tlen := if tlen = 0 then f.len - tocOff else tlen
  tocEntries (get64 (sb.drop 24)) (slice f.byte tocOff tlen)

/-- The entries of the table of contents that a file spells. -/
def File.entries (f : File) : List TocEntry :=
  if f.len < LS_SUPER_SIZE then [] else tableOf f (slice f.byte 0 LS_SUPER_SIZE)

section Opening

variable [HonestOs σ] {E : Env}

open HonestOs (file)

omit [HonestOs σ] in
/-- The free list is rebuilt from the records. -/
theorem rebuildLoop_rest [Os σ] {all : List Extent} {cur : ℕ} {s s' : Store σ}
    (h : rebuildLoop all cur s = .ok s') : ∃ (os : σ) (al : Alloc), s' = { s with os, al } := by
  induction all generalizing cur s with
  | nil =>
    cases h
    exact ⟨_, _, rfl⟩
  | cons e es ih =>
    rw [rebuildLoop] at h
    split_ifs at h with h1 h2
    · obtain ⟨os, hfree, -⟩ := freeExtent_eq s ⟨cur, e.foff - cur⟩
      obtain ⟨os', al', h⟩ := ih h
      refine ⟨os', al', h.trans ?_⟩
      unfold lsFreeExtents
      split_ifs
      · rfl
      · rw [List.foldl_cons, List.foldl_nil, hfree]
    · exact ih h

/-- A store whose records are the entries of a table. -/
structure Opened (o : Opts) (xs : List TocEntry) (s : Store σ) : Prop where
  loading : Loading s
  rows : (s.recs.map s.row).Perm (xs.map TocEntry.row)
  ok : ∀ x ∈ xs, x.Ok
  opts : s.o = o

omit [HonestOs σ] in
theorem opened_of_tocLoad [Os σ] {o : Opts} {count : ℕ} {w : List UInt8} {s₀ s₁ s₂ : Store σ}
    (hl : Loading s₀) (hnil : s₀.recs = []) (ho : s₀.o = o) (hw : w.length < 2 ^ 64)
    (hload : tocLoad count w s₀ = .ok s₁) (hreb : rebuildFreeList s₁ = .ok s₂) :
    Opened o (tocEntries count w) s₂ := by
  obtain ⟨h1, h2⟩ := tocLoad_rows hl hload
  have hopts : s₁.o = o := by rw [tocLoad_rest hload, ← ho]
  obtain ⟨os, al, rfl⟩ := rebuildLoop_rest hreb
  rw [hnil, List.map_nil, List.append_nil] at h2
  have hwalk : Walked w count 0 s₀ (walkToc w count 0 s₀) := walkToc_spec hw (Nat.zero_le _)
  exact ⟨⟨h1.placed, h1.count, h1.ext_lt, h1.plain, h1.ext_inj⟩, h2,
    (hwalk.entries _ (hwalk.result.trans hload)).1, hopts⟩

theorem openToc_rows (hF : 2 ^ 64 ≤ E.fuel) {o : Opts} {direct : Bool} {os : σ} {f : File}
    (hf : f.len ≤ OFF_MAX) (hbyte : (file os).byte = f.byte) (hlen : f.len ≤ (file os).len)
    {sb : List UInt8} {s : Store σ} (h : openToc E (freshStore o direct os) f.len sb = some (.ok s)) :
    Opened o (tableOf f sb) s := by
  have hmax : OFF_MAX = 2 ^ 63 - 1 := rfl
  unfold openToc at h
  split_ifs at h with hmagic
  · cases h
  unfold tableOf
  dsimp only at h ⊢
  generalize htn : (if get64 (sb.drop 48) = 0 then f.len - get64 (sb.drop 16)
    else get64 (sb.drop 48)) = tlen at h ⊢
  generalize get64 (sb.drop 16) = tocOff at h ⊢
  split_ifs at h with hoff htl
  · cases h
  · cases h
  rw [not_or, Nat.not_lt, Nat.not_lt] at hoff
  obtain ⟨rc, tb, s₁, g1, g2, -, -, -, g6⟩ := exec_lsPreadAll hF
    (blankStore o direct os (get64 (sb.drop 32))) direct E.tbAddr
    (show tocOff + tlen < 2 ^ 64 by omega) (show tocOff + tlen ≤ (file os).len by omega)
  erw [g1] at h
  dsimp only at h
  split_ifs at h with hrc hcrc
  · cases h
  · cases h
  have hout : tb = slice f.byte tocOff tlen := by
    rw [g6 (not_not.mp hrc), ← hbyte]
    rfl
  obtain ⟨hl₀, hnil₀⟩ := loading_blankStore o direct os (get64 (sb.drop 32))
  have hl₁ : Loading s₁ := by
    rw [g2]
    exact ⟨hl₀.placed, hl₀.count, hl₀.ext_lt, hl₀.plain, hl₀.ext_inj⟩
  have hnil₁ : s₁.recs = [] := by
    rw [g2]
    exact hnil₀
  cases hload : tocLoad (get64 (sb.drop 24)) tb s₁ with
  | error rc =>
    rw [hload] at h
    cases h
  | ok s₂ =>
    rw [hload] at h
    dsimp only at h
    cases hreb : rebuildFreeList s₂ with
    | error rc =>
      rw [hreb] at h
      cases h
    | ok s₃ =>
      rw [hreb] at h
      cases h
      rw [← hout]
      have htl : tb.length < 2 ^ 64 := by
        rw [hout, length_slice]
        omega
      exact opened_of_tocLoad hl₁ hnil₁ (by rw [g2]; rfl) htl hload hreb

/-- **The records of an accepted store are the entries of its file.** -/
theorem lsOpen_rows (hF : 2 ^ 64 ≤ E.fuel) {o : Opts} {os : σ} {s : Store σ}
    (h : lsOpen E o os = some (.ok s)) : Opened o (file os).entries s := by
  unfold lsOpen at h
  split at h
  · cases h
  have hf₁ := HonestOs.openRw_file os o.directIo
  generalize Os.openRw os o.directIo = a at h hf₁
  obtain ⟨e | direct, os₁⟩ := a
  · cases h
  dsimp only at h hf₁
  have hf₂ := HonestOs.fileSize_file os₁
  have hs₂ := HonestOs.fileSize_ok os₁
  generalize Os.fileSize os₁ = a at h hf₂ hs₂
  obtain ⟨fsize | fsize, os₂⟩ := a
  · cases h
  dsimp only at h hf₂
  have hfile : file os₂ = file os := hf₂.trans hf₁
  have hsize : fsize = (file os).len := (hs₂ _ rfl).trans (congrArg File.len hf₁)
  have hS : LS_SUPER_SIZE = 4096 := rfl
  subst hsize
  by_cases hge : (file os).len ≥ LS_SUPER_SIZE
  · obtain ⟨rc, sb, s₁, g1, g2, g3, g4, -, g6⟩ := exec_lsPreadAll hF (freshStore o direct os₂) direct
      E.sbAddr (show 0 + LS_SUPER_SIZE < 2 ^ 64 by decide)
      (show 0 + LS_SUPER_SIZE ≤ (file os₂).len by rw [hfile]; omega)
    rw [if_pos hge, g1] at h
    dsimp only at h
    by_cases hrc : rc ≠ .ok
    · rw [if_pos hrc] at h
      cases h
    have hbyte : (freshStore o direct os₂).fbyte = (file os).byte := congrArg File.byte hfile
    have hlen : (freshStore o direct os₂).flen = (file os).len := congrArg File.len hfile
    have hs₁ : s₁ = freshStore o direct s₁.os := g2
    rw [if_neg hrc, hs₁] at h
    rw [File.entries, if_neg (by omega), ← hbyte, ← g6 (not_not.mp hrc)]
    exact openToc_rows hF (HonestOs.len_le os) (g4.trans hbyte) (hlen ▸ g3) h
  rw [if_neg hge] at h
  split_ifs at h with hpos hshared
  · cases h
  · cases h
  · generalize Os.ftruncate os₂ LS_SUPER_SIZE = a at h
    obtain ⟨e | u, os₃⟩ := a
    · cases h
    · cases h
      have hrecs : (freshStore o direct os₃).recs = [] := Chained.toList_empty 64
      rw [File.entries, if_pos (by omega)]
      exact ⟨.start (Chained.wf_empty (by norm_num)) hrecs, by rw [hrecs]; exact List.Perm.refl _,
        fun x hx => (by cases hx), rfl⟩

end Opening

/-! ## Usable stores -/

/-- What the rest of the code relies on: keys can be told apart, and extents cover what is in them. -/
structure Usable (s : Store σ) : Prop where
  distinct : (s.recs.map Rec.key).Nodup
  nonempty : ∀ r ∈ s.recs, r.key.1 ≠ []
  covered : ∀ r ∈ s.recs, r.size ≤ r.extTotal

/-- Entries whose keys, up to a zero byte, are distinct and not empty, and whose sizes are within
the sum of the lengths of their extents, as 64 bits hold it. -/
structure Sane (xs : List TocEntry) : Prop where
  distinct : (xs.map fun x => cstr x.key).Nodup
  nonempty : ∀ x ∈ xs, x.key.head? ≠ some 0
  covered : ∀ x ∈ xs, x.size ≤ total x.exts % 2 ^ 64

/-- What can be done with the records: each is found and listed once, no read inside its size runs
out of extents, and in a shared store no write inside its size changes the layout. -/
structure Serves [Os σ] (E : Env) (s : Store σ) : Prop where
  found : ∀ r ∈ s.recs, s.find r.key = some r
  listed : (lsKeys s).Nodup ∧ ∀ k, k ∈ lsKeys s ↔ (s.find k).isSome
  reads : ∀ r ∈ s.recs, ∀ off n, off + n ≤ r.size → (pieces off n (s.exts r) 0 0).2 = n
  writes : s.o.parallel = .shared → ∀ r ∈ s.recs, ∀ fin ≤ r.size,
    frozen s r.key fin = false ∧ ensureCap E s r.key fin = some (.ok, s)

theorem endOf_eq (es : List Extent) {base : ℕ} (h : base < 2 ^ 64) :
    endOf es base = (base + total es) % 2 ^ 64 := by
  induction es generalizing base with
  | nil => exact (Nat.mod_eq_of_lt h).symm
  | cons e es ih =>
    have hlt : add64 base e.len < 2 ^ 64 := Nat.mod_lt _ (by norm_num)
    show endOf es (add64 base e.len) = _
    rw [ih hlt, total_cons, add64, Nat.mod_add_mod, Nat.add_assoc]

/-- A key is empty when its first byte is zero. -/
theorem cstr_eq_nil {b : List UInt8} (hb : b ≠ []) : (cstr b).1 = [] ↔ b.head? = some 0 := by
  cases b with
  | nil => exact absurd rfl hb
  | cons c b =>
    by_cases hc : c = 0 <;> simp [cstr, hc]

section Usable

variable {s : Store σ} {o : Opts} {xs : List TocEntry}

/-- A property of rows holds of the records if it holds of the entries. -/
theorem Opened.forall_iff (h : Opened o xs s) (p : Row → Prop) :
    (∀ r ∈ s.recs, p (s.row r)) ↔ ∀ x ∈ xs, p x.row := by
  rw [← List.forall_mem_map, ← List.forall_mem_map (f := TocEntry.row)]
  exact ⟨fun hp y hy => hp y (h.rows.mem_iff.mpr hy), fun hp y hy => hp y (h.rows.mem_iff.mp hy)⟩

theorem Opened.usable_iff (h : Opened o xs s) : Usable s ↔ Sane xs := by
  have hkeys : (s.recs.map Rec.key).Nodup ↔ (xs.map fun x => cstr x.key).Nodup := by
    have := h.rows.map Row.key
    rw [List.map_map, List.map_map] at this
    exact this.nodup_iff
  have hnil : (∀ r ∈ s.recs, r.key.1 ≠ []) ↔ ∀ x ∈ xs, x.key.head? ≠ some 0 := by
    refine (h.forall_iff fun y => y.key.1 ≠ []).trans (forall₂_congr fun x hx => ?_)
    have := (h.ok x hx).key.1
    exact not_congr (cstr_eq_nil (List.ne_nil_of_length_pos this))
  have hcov : (∀ r ∈ s.recs, r.size ≤ r.extTotal) ↔ ∀ x ∈ xs, x.size ≤ total x.exts % 2 ^ 64 := by
    refine (h.forall_iff fun y => y.size ≤ y.extTotal).trans (forall₂_congr fun x _ => ?_)
    show x.size ≤ endOf x.exts 0 ↔ _
    rw [endOf_eq _ (by norm_num), Nat.zero_add]
  exact ⟨fun u => ⟨hkeys.mp u.distinct, hnil.mp u.nonempty, hcov.mp u.covered⟩,
    fun u => ⟨hkeys.mpr u.distinct, hnil.mpr u.nonempty, hcov.mpr u.covered⟩⟩

theorem Opened.serves [Os σ] (E : Env) (h : Opened o xs s) (hu : Usable s) : Serves E s := by
  have hwf : s.toc.WF := ⟨h.loading.placed, hu.distinct, h.loading.count⟩
  have hend : ∀ r ∈ s.recs, r.size < 2 ^ 64 ∧ r.extTotal = endOf (s.exts r) 0 :=
    (h.forall_iff fun y => y.size < 2 ^ 64 ∧ y.extTotal = endOf y.exts 0).mpr
      fun x hx => ⟨(h.ok x hx).size, rfl⟩
  refine ⟨fun r hr => find_of_mem hwf hr, ⟨hu.distinct, fun k => ?_⟩, fun r hr off n hn => ?_,
    fun hsh r hr fin hfin => ?_⟩
  · unfold lsKeys
    rw [List.mem_map, Option.isSome_iff_exists]
    exact exists_congr fun r => (find_iff_mem hwf).symm
  · have hcov := hu.covered r hr
    obtain ⟨h1, h2⟩ := hend r hr
    exact pieces_done (by omega) (Nat.zero_le _) (Or.inl (Nat.zero_le _)) (by omega)
  · have hfind := find_of_mem hwf hr
    have hcov := hu.covered r hr
    have hmem := (h.loading.plain r hr).mem.1
    constructor
    · unfold frozen
      rw [recAt_of_find hfind, hfind]
      simp
      omega
    · unfold ensureCap
      rw [recAt_of_find hfind]
      dsimp only
      rw [if_neg (by rw [hmem]; simp), if_pos ⟨by omega, hmem⟩]

end Usable

/-- **An accepted store is usable if and only if the entries of its file are sane**; then it can be
used. -/
theorem opened_usable_iff [HonestOs σ] {E : Env} (hF : 2 ^ 64 ≤ E.fuel) {o : Opts} {os : σ}
    {s : Store σ} (h : lsOpen E o os = some (.ok s)) :
    (Usable s ↔ Sane (HonestOs.file os).entries) ∧ (Usable s → Serves E s) :=
  ⟨(lsOpen_rows hF h).usable_iff, (lsOpen_rows hF h).serves E⟩

/-- A disk with a table of the entries `xs`, where the data ends at `fend`. -/
def Disk.ofTable (xs : List TocEntry) (fend : ℕ) : Option Disk :=
  let tb := xs.flatMap TocEntry.enc
  let s := freshStore {} false Disk.blank
  let s := { s with toc := { s.toc with n := xs.length }, al := ⟨[], fend⟩ }
  Disk.blank.put ((File.empty.write 0 (superblock s tb)).write fend tb)

/-- The store that `ls_open` makes of a disk. -/
def Disk.opened (d : Disk) : Option (Store Disk) :=
  match lsOpen Env.ample {} d with
  | some (.ok s) => some s
  | _ => none

theorem Disk.opened_eq_some {d : Disk} {s : Store Disk} (h : d.opened = some s) :
    lsOpen Env.ample {} d = some (.ok s) := by
  unfold Disk.opened at h
  split at h
  next s' h' =>
    cases h
    exact h'
  · cases h

/-- A record of one byte in one extent. -/
theorem opened_usable_iff_one : ∃ d s, Disk.ofTable [⟨[97], 1, [], [⟨4096, 4096⟩]⟩] 8192 = some d ∧
    lsOpen Env.ample {} d = some (.ok s) ∧ (Usable s ↔ Sane d.file.entries) ∧
      (Usable s → Serves Env.ample s) := by
  have hsome : ((Disk.ofTable [⟨[97], 1, [], [⟨4096, 4096⟩]⟩] 8192).bind fun d => d.opened).isSome =
      true := by decide +kernel
  obtain ⟨s, h⟩ := Option.isSome_iff_exists.mp hsome
  obtain ⟨d, hd, h⟩ := Option.bind_eq_some_iff.mp h
  have hopen := Disk.opened_eq_some h
  exact ⟨d, s, hd, hopen, opened_usable_iff (Nat.le_refl _) hopen⟩

/-- Two entries with one key, the later without a byte of its own, and one with an empty key. -/
def wildEntries : List TocEntry := [⟨[97], 0, [], []⟩, ⟨[97], 1, [], []⟩, ⟨[0], 0, [], []⟩]

/-- **An accepted store that is not usable**: `ls_keys` lists a key twice and lists an empty key, and a
read inside the reported size fails. -/
theorem opened_unusable : ∃ d s out s', Disk.ofTable wildEntries 4096 = some d ∧
    lsOpen Env.ample {} d = some (.ok s) ∧ (lsKeys s).map Subtype.val = [[], [97], [97]] ∧
    (Op.read keyA 0 1 0).call Env.ample s = some (out, s') ∧ out.rc = .errno .eio ∧ ¬ Usable s := by
  have hrun : ((Disk.ofTable wildEntries 4096).bind fun d => d.opened.bind fun s =>
      ((Op.read keyA 0 1 0).call Env.ample s).map fun r =>
        ((lsKeys s).map Subtype.val, r.1.rc)) = some ([[], [97], [97]], .errno .eio) := by
    decide +kernel
  obtain ⟨d, hd, hrun⟩ := Option.bind_eq_some_iff.mp hrun
  obtain ⟨s, hs, hrun⟩ := Option.bind_eq_some_iff.mp hrun
  obtain ⟨⟨out, s'⟩, hcall, hrun⟩ := Option.map_eq_some_iff.mp hrun
  obtain ⟨hkeys, hrc⟩ := Prod.mk.inj hrun
  refine ⟨d, s, out, s', hd, Disk.opened_eq_some hs, hkeys, hcall, hrc, fun hu => ?_⟩
  have hdup : ((lsKeys s).map Subtype.val).Nodup := hu.distinct.map Subtype.val_injective
  rw [hkeys] at hdup
  exact absurd hdup (by decide)

end Libspill
