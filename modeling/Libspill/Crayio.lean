import Libspill.Lib.Words
import Libspill.Shared

set_option autoImplicit false

/-!
# The word-addressable layer

`crayio_libspill.c` with 64-bit integers: numbered units, each an open store with one record, and
transfers of 64-bit words at 1-based word addresses.

* `Cray`, `Cray.step`: the unit table, and the four calls.
* `WordTable`: what the layer is for, an array of words under every name.
* `CrayCall.Proper`, `CrayCall.Narrow`: calls as the interface asks for them, and calls whose byte
  offsets and lengths do not wrap.
* `KeepsWords`: the open units and the closed files hold the words of the arrays.
* **`words_kept`**: every run of narrow calls answers as the arrays do.
* `words_alias`: an address past `2 ^ 61` is taken for a small one.
-/

namespace Libspill

/-- A 64-bit word, as it lies in memory. -/
abbrev Word : Type := List.Vector UInt8 8

/-- `CRAY_KEY`. -/
def CRAY_KEY : CStr := ⟨[119], by decide⟩

/-- A call of the interface. `grows` is the answer of `realloc` should the unit table grow, and `buf`
the address of the caller's array. -/
inductive CrayCall where
  | wopen (unit : ℤ) (name : List UInt8) (lennam : ℤ) (grows : Bool)
  | wclose (unit : ℤ)
  | getwa (unit addr count : ℤ) (buf : ℕ)
  | putwa (unit : ℤ) (source : List Word) (addr count : ℤ) (buf : ℕ)

/-- The answer of a call: its error code, and the bytes it has put in the caller's array. -/
structure CrayAns where
  ierr : ℤ
  result : List UInt8 := []
deriving DecidableEq

/-! ## The layer -/

/-- The unit table, and the files by name. -/
structure Cray (σ : Type) where
  nunits : ℕ
  units : ℕ → Option (CStr × Store σ)
  files : CStr → σ

/-- `while (n < want) n *= 2`. -/
def doubled : ℕ → ℕ → ℕ → ℕ
  | 0, n, _ => n
  | fuel + 1, n, want => if n < want then doubled fuel (n * 2) want else n

/-- `(uint64_t)x` of a signed integer. -/
def toU64 (x : ℤ) : ℕ := (x % 2 ^ 64).toNat

/-- `byte_off`: the byte offset of a 1-based word address. -/
def byteOff (addr : ℤ) : ℕ := toU64 (addr - 1) * 8 % 2 ^ 64

/-- `(size_t)count * 8u`. -/
def byteCount (count : ℤ) : ℕ := toU64 count * 8 % 2 ^ 64

/-- `sprintf(nm, "fort.%.2d", (int)u)`. -/
def fortName (unit : ℤ) : List UInt8 :=
  let u := (unit + 2 ^ 31) % 2 ^ 32 - 2 ^ 31
  let digits := (Nat.toDigits 10 u.natAbs).map fun c => UInt8.ofNat c.toNat
  [102, 111, 114, 116, 46] ++ (if u < 0 then [45] else []) ++ List.replicate (2 - digits.length) 48 ++ digits

/-- The name in the buffer `nm` of 256 bytes. -/
def unitName (unit : ℤ) (name : List UInt8) (lennam : ℤ) : CStr :=
  if lennam > 0 then cstr (name.take (if lennam.toNat ≥ 256 then 255 else lennam.toNat))
  else cstr (fortName unit)

variable {σ : Type}

/-- `ensure_unit`; nothing is known when the size of the new table, a 64-bit product, wraps. -/
def ensureUnit (c : Cray σ) (unit : ℤ) (grows : Bool) : Option (Bool × Cray σ) :=
  if unit < 0 then some (false, c)
  else if unit.toNat ≥ c.nunits then
    let n := doubled 64 (if c.nunits ≠ 0 then c.nunits else 16) (unit.toNat + 1)
    if n * 16 ≥ 2 ^ 64 then none
    else if grows then
      some (true, { c with nunits := n, units := fun i => if i < c.nunits then c.units i else none })
    else some (false, c)
  else some (true, c)

/-- `unit_open`. -/
def unitOpen (c : Cray σ) (unit : ℤ) : Option (CStr × Store σ) :=
  if unit < 0 ∨ unit.toNat ≥ c.nunits then none else c.units unit.toNat

/-- The store of a unit changed. -/
def Cray.setUnit (c : Cray σ) (unit : ℤ) (u : Option (CStr × Store σ)) : Cray σ :=
  { c with units := Function.update c.units unit.toNat u }

variable [Os σ] (E : Env)

/-- `wopen`. -/
def wopen (c : Cray σ) (unit : ℤ) (name : List UInt8) (lennam : ℤ) (grows : Bool) :
    Option (CrayAns × Cray σ) :=
  if unit < 0 then some ({ ierr := -1 }, c)
  else
    match ensureUnit c unit grows with
    | none => none
    | some (false, c) => some ({ ierr := -1 }, c)
    | some (true, c) =>
      if (c.units unit.toNat).isSome then some ({ ierr := 0 }, c)
      else
        let nm := unitName unit name lennam
        if nm.1 = [] then some ({ ierr := -6 }, c)
        else
          match lsOpen E {} (c.files nm) with
          | none => none
          | some (.error (_, os)) =>
            some ({ ierr := -6 }, { c with files := Function.update c.files nm os })
          | some (.ok s) => some ({ ierr := 0 }, c.setUnit unit (some (nm, s)))

/-- `wclose`: the file is kept. -/
def wclose (c : Cray σ) (unit : ℤ) : Option (CrayAns × Cray σ) :=
  match unitOpen c unit with
  | none => some ({ ierr := -1 }, c)
  | some (nm, s) =>
    match closeStore E s true with
    | none => none
    | some (rc, os) => some ({ ierr := if rc = .ok then 0 else -6 },
        { c.setUnit unit none with files := Function.update c.files nm os })

/-- The arguments that `getwa` and `putwa` answer without a transfer. -/
def waRefused (addr count : ℤ) : Option ℤ :=
  if addr ≤ 0 ∨ count < 0 then some (-4) else if count = 0 then some 0 else none

/-- The code that `getwa` makes of the code of `ls_read`. -/
def readIerr (rc : Rc) : ℤ := if rc = .range ∨ rc = .nokey then -5 else if rc ≠ .ok then -4 else 0

/-- `getwa`. -/
def getwa (c : Cray σ) (unit addr count : ℤ) (buf : ℕ) : Option (CrayAns × Cray σ) :=
  match unitOpen c unit with
  | none => some ({ ierr := -1 }, c)
  | some (nm, s) =>
    match waRefused addr count with
    | some ierr => some ({ ierr }, c)
    | none =>
      match (Op.read CRAY_KEY (byteOff addr) (byteCount count) buf).call E s with
      | none => none
      | some (out, s) => some (⟨readIerr out.rc, out.data⟩, c.setUnit unit (some (nm, s)))

/-- `putwa`. -/
def putwa (c : Cray σ) (unit : ℤ) (source : List Word) (addr count : ℤ) (buf : ℕ) :
    Option (CrayAns × Cray σ) :=
  match unitOpen c unit with
  | none => some ({ ierr := -1 }, c)
  | some (nm, s) =>
    match waRefused addr count with
    | some ierr => some ({ ierr }, c)
    | none =>
      match (Op.write CRAY_KEY (byteOff addr) ((flat source).take (byteCount count)) buf).call E s with
      | none => none
      | some (out, s) =>
        some ({ ierr := if out.rc = .ok then 0 else -6 }, c.setUnit unit (some (nm, s)))

/-- One call. -/
def Cray.step (c : Cray σ) : CrayCall → Option (CrayAns × Cray σ)
  | .wopen unit name lennam grows => wopen E c unit name lennam grows
  | .wclose unit => wclose E c unit
  | .getwa unit addr count buf => getwa E c unit addr count buf
  | .putwa unit source addr count buf => putwa E c unit source addr count buf

/-- A sequence of calls. -/
def crayRun : List CrayCall → Cray σ → Option (List CrayAns × Cray σ)
  | [], c => some ([], c)
  | call :: calls, c =>
    match c.step E call with
    | none => none
    | some (ans, c) => (crayRun calls c).map fun r => (ans :: r.1, r.2)

/-! ## What it is for -/

/-- The names of the units that are open, and the array of words under every name. -/
structure WordTable where
  opened : ℕ → Option CStr
  words : CStr → List Word

/-- The name that a `wopen` means. -/
def meantName (unit : ℤ) (name : List UInt8) (lennam : ℤ) : CStr :=
  cstr (if lennam > 0 then name.take lennam.toNat else fortName unit)

/-- The array of an open unit. -/
def WordTable.unit (t : WordTable) (unit : ℤ) : Option CStr :=
  if unit < 0 then none else t.opened unit.toNat

/-- One call on the arrays. No array is longer than `2 ^ 61` words, whose bytes a 64-bit number can
count. -/
def WordTable.step (t : WordTable) : CrayCall → CrayAns × WordTable
  | .wopen unit name lennam _ =>
    if unit < 0 then ({ ierr := -1 }, t)
    else if (t.opened unit.toNat).isSome then ({ ierr := 0 }, t)
    else if (meantName unit name lennam).1 = [] then ({ ierr := -6 }, t)
    else ({ ierr := 0 },
      { t with opened := Function.update t.opened unit.toNat (some (meantName unit name lennam)) })
  | .wclose unit =>
    match t.unit unit with
    | none => ({ ierr := -1 }, t)
    | some _ => ({ ierr := 0 }, { t with opened := Function.update t.opened unit.toNat none })
  | .getwa unit addr count _ =>
    match t.unit unit with
    | none => ({ ierr := -1 }, t)
    | some nm =>
      if addr ≤ 0 ∨ count < 0 then ({ ierr := -4 }, t)
      else if count = 0 then ({ ierr := 0 }, t)
      else if addr - 1 + count ≤ (t.words nm).length then
        (⟨0, flat (((t.words nm).drop (addr - 1).toNat).take count.toNat)⟩, t)
      else ({ ierr := -5 }, t)
  | .putwa unit source addr count _ =>
    match t.unit unit with
    | none => ({ ierr := -1 }, t)
    | some nm =>
      if addr ≤ 0 ∨ count < 0 then ({ ierr := -4 }, t)
      else if count = 0 then ({ ierr := 0 }, t)
      else if addr - 1 + count < 2 ^ 61 then
        let ws := overlay (List.Vector.replicate 8 0) (t.words nm) (addr - 1).toNat source
        ({ ierr := 0 }, { t with words := Function.update t.words nm ws })
      else ({ ierr := -6 }, t)

/-- A sequence of calls on the arrays. -/
def WordTable.run : List CrayCall → WordTable → List CrayAns × WordTable
  | [], t => ([], t)
  | call :: calls, t =>
    let r := t.step call
    let rs := WordTable.run calls r.2
    (r.1 :: rs.1, rs.2)

/-- Before the first call: no unit is open, and every array is empty. -/
def WordTable.start : WordTable := ⟨fun _ => none, fun _ => []⟩

/-! ## Calls as they are meant -/

section Meant

variable {σ : Type} [HonestOs σ] {E : Env}

open HonestOs (file clean)

/-- No call of the operating system has failed. -/
def Cray.Quiet (c : Cray σ) : Prop :=
  (∀ nm, clean (c.files nm)) ∧ ∀ u nm s, c.units u = some (nm, s) → clean s.os

/-- A 64-bit integer. -/
def Int64 (x : ℤ) : Prop := -2 ^ 63 ≤ x ∧ x < 2 ^ 63

/-- What the interface asks of a call: 64-bit integers, a name of less than 256 bytes that no other
open unit has, room for the unit table, and as many words as are to be put. -/
def CrayCall.Proper (c : Cray σ) : CrayCall → Prop
  | .wopen unit name lennam grows => Int64 unit ∧ Int64 lennam ∧ lennam < 256 ∧ grows = true ∧
      (c.units unit.toNat = none → ∀ v nm s, c.units v = some (nm, s) → nm ≠ meantName unit name lennam)
  | .wclose unit => Int64 unit
  | .getwa unit addr count _ => Int64 unit ∧ Int64 addr ∧ Int64 count
  | .putwa unit source addr count _ => Int64 unit ∧ Int64 addr ∧ Int64 count ∧ source.length = count.toNat

/-- A call whose sizes do not wrap: that of the unit table, the byte offset and the byte count, the end
of the file where it has to grow, and the number of extents that the table of contents can say. -/
def CrayCall.Narrow (E : Env) (c : Cray σ) : CrayCall → Prop
  | .wopen unit _ _ _ => unit < 2 ^ 59
  | .wclose unit => ∀ nm s, unitOpen c unit = some (nm, s) → Few E s
  | .getwa _ addr count _ => addr - 1 < 2 ^ 61 ∧ count < 2 ^ 61
  | .putwa unit source addr count buf => addr - 1 < 2 ^ 61 ∧ count < 2 ^ 61 ∧
      ∀ nm s, unitOpen c unit = some (nm, s) →
        (Op.write CRAY_KEY (byteOff addr) ((flat source).take (byteCount count)) buf).Fits E s

/-- Every call of a run is as `P` says, and in none does a call of the operating system fail. -/
def QuietRun (E : Env) (P : Cray σ → CrayCall → Prop) : List CrayCall → Cray σ → Prop
  | [], _ => True
  | call :: calls, c => P c call ∧
      ∀ ans c', c.step E call = some (ans, c') → c'.Quiet ∧ QuietRun E P calls c'

/-! ## Stores that hold words -/

/-- An open store whose record holds the words. -/
structure HoldsWords (s : Store σ) (ws : List Word) : Prop where
  settled : Settled s
  opts : s.o = {}
  bytes : ((s.map.lookup CRAY_KEY).getD {}).bytes = flat ws
  unmarked : Unmarked s (file s.os)

/-- A file that is empty, or that was left by closing a store that holds the words. -/
def Shelved (E : Env) (os : σ) (ws : List Word) : Prop :=
  (file os).len = 0 ∧ ws = [] ∨
    ∃ s, HoldsWords s ws ∧ Few E s ∧ closeStore E s true = some (.ok, os)

variable {s s' : Store σ} {ws : List Word} {op : Op} {os : σ}

theorem HoldsWords.shared (h : HoldsWords s ws) : s.shared = false := by
  rw [Store.shared, h.opts]
  rfl

/-- A call that fits. -/
theorem Settled.call (hF : 2 ^ 64 ≤ E.fuel) (h : Settled s) (hfit : op.Fits E s) :
    ∃ out s', op.call E s = some (out, s') ∧ Next s s' ∧ (clean s'.os →
      out = (op.refStep s.shared s.map).1 ∧ s'.map = (op.refStep s.shared s.map).2) := by
  have hrun : FitsRun E [op] s := ⟨hfit, fun _ _ _ => trivial⟩
  obtain ⟨outs, s', h1, h2, h3⟩ := runOps_fits hF h hrun
  rw [runOps] at h1
  cases hcall : op.call E s with
  | none =>
    rw [hcall] at h1
    cases h1
  | some a =>
    obtain ⟨out, s₁⟩ := a
    rw [hcall] at h1
    cases h1
    refine ⟨out, s', rfl, h2, fun hc => ?_⟩
    obtain ⟨e1, e2⟩ := h3 hc
    exact ⟨(List.cons.inj e1).1, e2⟩

/-- A store that has a record is not written as an empty table. -/
theorem unmarked_of_lookup (h : Settled s) {e : Entry} (hl : s.map.lookup CRAY_KEY = some e) (f : File) :
    Unmarked s f := by
  intro hnil
  rw [lookup_map h.sound.laid.records] at hl
  obtain ⟨r, hr, -⟩ := Option.map_eq_some_iff.mp hl
  have hmem := ((find_iff_mem h.sound.laid.records.wf).mp hr).1
  rw [hnil] at hmem
  cases hmem

/-- `ls_open` of an empty file. -/
theorem lsOpen_new {o : Opts} (ho : optsRefused o = none) (hsh : o.parallel ≠ .shared)
    (hfile : (file os).len = 0) : ∃ r, lsOpen E o os = some r ∧ (clean (openedOs r) →
      ∃ direct os', r = .ok (freshStore o direct os') ∧ (file os').len = LS_SUPER_SIZE) := by
  rw [lsOpen, ho]
  dsimp only
  have hf₁ := HonestOs.openRw_file os o.directIo
  have hc₁ := HonestOs.openRw_err os o.directIo
  generalize Os.openRw os o.directIo = a at hf₁ hc₁ ⊢
  obtain ⟨e | direct, os₁⟩ := a
  · exact ⟨_, rfl, fun hc => absurd hc (hc₁ e rfl)⟩
  dsimp only at hf₁ ⊢
  have hf₂ := HonestOs.fileSize_file os₁
  have hs₂ := HonestOs.fileSize_ok os₁
  have hc₂ := HonestOs.fileSize_err os₁
  generalize Os.fileSize os₁ = a at hf₂ hs₂ hc₂ ⊢
  obtain ⟨e | fsize, os₂⟩ := a
  · exact ⟨_, rfl, fun hc => absurd hc (hc₂ e rfl)⟩
  dsimp only at hf₂ ⊢
  have hsize : fsize = 0 := (hs₂ _ rfl).trans ((congrArg File.len hf₁).trans hfile)
  subst hsize
  rw [if_neg (by decide), if_neg (by decide), if_neg hsh]
  have hf₃ := HonestOs.ftruncate_ok os₂ LS_SUPER_SIZE
  have hc₃ := HonestOs.ftruncate_err os₂ LS_SUPER_SIZE
  generalize Os.ftruncate os₂ LS_SUPER_SIZE = a at hf₃ hc₃ ⊢
  obtain ⟨e | u, os₃⟩ := a
  · exact ⟨_, rfl, fun hc => absurd hc (hc₃ e rfl).1⟩
  · refine ⟨_, rfl, fun _ => ⟨direct, os₃, rfl, ?_⟩⟩
    dsimp only at hf₃
    rw [hf₃ rfl]
    rfl

/-- **A file gives its words back** when it is opened. -/
theorem opens_shelved (hF : 2 ^ 64 ≤ E.fuel) (h : Shelved E os ws) :
    ∃ r, lsOpen E {} os = some r ∧ (clean (openedOs r) → ∃ s, r = .ok s ∧ HoldsWords s ws) := by
  rcases h with ⟨hlen, rfl⟩ | ⟨s, h1, h2, h3⟩
  · obtain ⟨r, h1, h2⟩ := lsOpen_new (E := E) (o := {}) rfl (by decide) hlen
    refine ⟨r, h1, fun hc => ?_⟩
    obtain ⟨direct, os', rfl, h3⟩ := h2 hc
    have hset := settled_opened hlen h1
    have hmap := abs_unique hset.sound.laid.records (sound_freshStore {} direct h3.ge).2.2.2
    refine ⟨_, rfl, hset, rfl, ?_, fun _ => ?_⟩
    · rw [← hmap]
      rfl
    · have hnil : (file (freshStore {} direct os').os).len - (freshStore {} direct os').al.fileEnd = 0 := by
        show (file os').len - LS_SUPER_SIZE = 0
        omega
      rw [hnil]
      rfl
  · have hsh : s.o.parallel ≠ .shared := by
      rw [h1.opts]
      decide
    obtain ⟨rc, os', g1, -, g2⟩ := h1.settled.kept hF hsh h2
    rw [h3] at g1
    cases g1
    obtain ⟨s₁, k1, k2, k3, k4, k5⟩ := g2 rfl
    obtain ⟨r, g3, g4⟩ := k5 {} rfl
    have hu := unmarked_of_kept (by omega) h1.settled h1.unmarked k1 k2 k3
    refine ⟨r, g3, fun hc => ?_⟩
    obtain ⟨s', rfl⟩ := g4.ok hu hc
    have hre := g4.reopened s' rfl
    have hfile := (lsOpen_file hF k4 (k3.stored rfl) g3).1
    refine ⟨s', rfl, hre.settled k4 (k2.kept.slack h1.settled.slack), hre.opts.1, ?_, fun hnil => ?_⟩
    · rw [hre.map k2.sound.laid.records, map_of_kept k2.kept h1.settled.sound.laid.records
        k2.sound.laid.records h1.settled.slack, h1.bytes]
    · have hrecs : s₁.recs = [] := by
        by_contra hne
        obtain ⟨q, hq⟩ := List.exists_mem_of_ne_nil _ hne
        have hk := find_of_mem k2.sound.laid.records.wf hq
        have hrow := hre.rows.find q.key
        have hnone : s'.find q.key = none := by
          cases hs' : s'.find q.key with
          | none => rfl
          | some r =>
            have hmem := ((find_iff_mem hre.sound.laid.records.wf).mp hs').1
            rw [hnil] at hmem
            cases hmem
        rw [hk, hnone] at hrow
        cases hrow
      have := hu hrecs
      rw [show file s'.os = file os from hfile, hre.al]
      exact this

theorem byteOff_eq {addr : ℤ} (h0 : 0 < addr) (h : addr - 1 < 2 ^ 61) :
    byteOff addr = (addr - 1).toNat * 8 := by
  rw [byteOff, toU64]
  omega

theorem byteCount_eq {count : ℤ} (h0 : 0 ≤ count) (h : count < 2 ^ 61) :
    byteCount count = count.toNat * 8 := by
  rw [byteCount, toU64]
  omega

theorem add64_words {a k : ℕ} (ha : a < 2 ^ 61) (hk : k < 2 ^ 61) :
    add64 (a * 8) (k * 8) < a * 8 ↔ 2 ^ 61 ≤ a + k := by
  rw [add64_lt_iff (by omega) (by omega)]
  omega

/-- **Reading words.** -/
theorem HoldsWords.read (hF : 2 ^ 64 ≤ E.fuel) (h : HoldsWords s ws) {a k buf : ℕ} (ha : a < 2 ^ 61)
    (hk : 0 < k) (hk' : k < 2 ^ 61) :
    ∃ out s', (Op.read CRAY_KEY (a * 8) (k * 8) buf).call E s = some (out, s') ∧ (clean s'.os →
      HoldsWords s' ws ∧ (⟨readIerr out.rc, out.data⟩ : CrayAns) =
        if a + k ≤ ws.length then ⟨0, flat ((ws.drop a).take k)⟩ else { ierr := -5 }) := by
  have hlook := lookup_map h.settled.sound.laid.records CRAY_KEY
  have hlen := congrArg List.length h.bytes
  rw [length_flat] at hlen
  cases hf : s.find CRAY_KEY with
  | none =>
    rw [hf, Option.map_none] at hlook
    rw [hlook, Option.getD_none, List.length_nil] at hlen
    -- the store has no record: nothing was ever written
    have hcall : (Op.read CRAY_KEY (a * 8) (k * 8) buf).call E s =
        some ({ rc := if 2 ^ 61 ≤ a + k then .range else .nokey }, s) := by
      rw [Op.call, Op.enter, readBegin, if_neg (by decide), hf]
      by_cases hw : 2 ^ 61 ≤ a + k
      · rw [if_pos ((add64_words ha hk').mpr hw), if_pos hw]
      · rw [if_neg (mt (add64_words ha hk').mp hw), if_neg hw, Option.isNone_none, if_pos rfl]
    have hneg : ¬ a + k ≤ ws.length := by omega
    refine ⟨_, s, hcall, fun _ => ⟨h, ?_⟩⟩
    rw [if_neg hneg]
    split_ifs <;> rfl
  | some r =>
    rw [hf, Option.map_some] at hlook
    have hfits : (Op.read CRAY_KEY (a * 8) (k * 8) buf).Fits E s := ⟨by omega, by omega⟩
    obtain ⟨out, s', h1, h2, h3⟩ := h.settled.call hF hfits
    refine ⟨out, s', h1, fun hc => ?_⟩
    obtain ⟨h4, h5⟩ := h3 hc
    have hbytes := h.bytes
    have hsize : (s.entry r).bytes.length < 2 ^ 63 := by
      have := size_lt h.settled.sound CRAY_KEY
      rw [recAt_of_find hf] at this
      simpa [Store.entry] using this
    rw [hlook, Option.getD_some] at hbytes hlen
    generalize s.entry r = e at hlook hbytes hlen hsize
    have hdata : (e.bytes.drop (a * 8)).take (k * 8) = flat ((ws.drop a).take k) := by
      rw [flat_take, flat_drop, hbytes]
    have happ : (Op.read CRAY_KEY (a * 8) (k * 8) buf).apply s.shared (some e) =
        (if a + k ≤ ws.length then { rc := .ok, data := flat ((ws.drop a).take k) } else { rc := .range },
          some e) := by
      rw [← hdata, Op.apply, if_neg (by decide)]
      by_cases hin : a + k ≤ ws.length
      · rw [if_neg (by omega), if_pos hin, if_neg (by omega)]
      · rw [if_neg hin]
        by_cases hw : a * 8 + k * 8 ≥ 2 ^ 64
        · rw [if_pos hw]
        · rw [if_neg hw, if_pos (by omega)]
    rw [refStep_of_key rfl, hlook, happ] at h4 h5
    dsimp only at h4 h5
    rw [← hlook, RefMap.put_lookup] at h5
    have hl' : s'.map.lookup CRAY_KEY = some e := by rw [h5, hlook]
    refine ⟨⟨h2.settled, h2.opts.1.trans h.opts, ?_, unmarked_of_lookup h2.settled hl' _⟩, ?_⟩
    · rw [h5]
      exact h.bytes
    · rw [h4]
      split_ifs <;> rfl

/-- **Writing words**: the array is extended if it has to be, or the call is refused. -/
theorem HoldsWords.write (hF : 2 ^ 64 ≤ E.fuel) (h : HoldsWords s ws) {source : List Word} {a buf : ℕ}
    (ha : a < 2 ^ 61) (hk' : source.length < 2 ^ 61)
    (hfit : (Op.write CRAY_KEY (a * 8) (flat source) buf).Fits E s) :
    ∃ out s', (Op.write CRAY_KEY (a * 8) (flat source) buf).call E s = some (out, s') ∧ (clean s'.os →
      out.rc = (if a + source.length < 2 ^ 61 then .ok else .range) ∧
      HoldsWords s' (if a + source.length < 2 ^ 61 then overlay (List.Vector.replicate 8 0) ws a source
        else ws)) := by
  by_cases hw : a + source.length < 2 ^ 61
  swap
  · have hcall : (Op.write CRAY_KEY (a * 8) (flat source) buf).call E s = some ({ rc := .range }, s) := by
      rw [Op.call, Op.enter, writeBegin, length_flat, if_neg (by decide),
        if_pos ((add64_words ha hk').mpr (by omega))]
    exact ⟨_, s, hcall, fun _ => ⟨(if_neg hw).symm, by rw [if_neg hw]; exact h⟩⟩
  obtain ⟨out, s', h1, h2, h3⟩ := h.settled.call hF hfit
  refine ⟨out, s', h1, fun hc => ?_⟩
  obtain ⟨h4, h5⟩ := h3 hc
  have happ : (Op.write CRAY_KEY (a * 8) (flat source) buf).apply s.shared (s.map.lookup CRAY_KEY) =
      ({ rc := .ok }, some (((s.map.lookup CRAY_KEY).getD {}).write (a * 8) (flat source))) := by
    rw [Op.apply, if_neg (by decide), if_neg (by rw [length_flat]; omega), h.shared]
    rfl
  rw [refStep_of_key rfl, happ] at h4 h5
  dsimp only at h4 h5
  have hl' : s'.map.lookup CRAY_KEY =
      some (((s.map.lookup CRAY_KEY).getD {}).write (a * 8) (flat source)) := by
    rw [h5, RefMap.lookup_put, if_pos rfl]
  rw [if_pos hw, if_pos hw]
  refine ⟨by rw [h4], h2.settled, h2.opts.1.trans h.opts, ?_, unmarked_of_lookup h2.settled hl' _⟩
  rw [hl', Option.getD_some, flat_overlay, ← h.bytes]
  rfl

/-! ## The unit table -/

omit [HonestOs σ] in
/-- The doubling reaches what is wanted, and no more than twice that. -/
theorem doubled_spec (fuel : ℕ) {n want : ℕ} (hw : want ≤ n * 2 ^ fuel) :
    want ≤ doubled fuel n want ∧ (doubled fuel n want = n ∨ doubled fuel n want < 2 * want) := by
  induction fuel generalizing n with
  | zero => exact ⟨by simpa [doubled] using hw, Or.inl rfl⟩
  | succ fuel ih =>
    rw [doubled]
    split_ifs with hlt
    · obtain ⟨h1, h2⟩ := ih (n := n * 2) (by rw [pow_succ'] at hw; rwa [Nat.mul_assoc])
      refine ⟨h1, Or.inr ?_⟩
      rcases h2 with h2 | h2 <;> omega
    · exact ⟨by omega, Or.inl rfl⟩

/-- The layer keeps the arrays: every open unit holds the array of its name, and the files of the
other names hold theirs. -/
structure KeepsWords (E : Env) (c : Cray σ) (t : WordTable) : Prop where
  opened : ∀ u, t.opened u = (c.units u).map Prod.fst
  small : ∀ u, c.nunits ≤ u → c.units u = none
  apart : ∀ u v nm s s', c.units u = some (nm, s) → c.units v = some (nm, s') → u = v
  holds : ∀ u nm s, c.units u = some (nm, s) → HoldsWords s (t.words nm)
  shelved : ∀ nm, (∀ u s, c.units u ≠ some (nm, s)) → Shelved E (c.files nm) (t.words nm)

variable {c c' : Cray σ} {t : WordTable} {unit : ℤ}

theorem KeepsWords.unit_eq (h : KeepsWords E c t) (unit : ℤ) : t.unit unit = (unitOpen c unit).map Prod.fst := by
  rw [WordTable.unit, unitOpen, h.opened]
  by_cases h0 : unit < 0
  · rw [if_pos h0, if_pos (Or.inl h0)]
    rfl
  · rw [if_neg h0]
    by_cases hn : unit.toNat ≥ c.nunits
    · rw [if_pos (Or.inr hn), h.small _ hn]
    · rw [if_neg (by tauto)]

omit [HonestOs σ] in
theorem units_of_unitOpen {u : CStr × Store σ} (h : unitOpen c unit = some u) :
    c.units unit.toNat = some u := by
  unfold unitOpen at h
  split_ifs at h
  exact h

/-- Room for a unit in the table. -/
theorem KeepsWords.ensureUnit (h : KeepsWords E c t) (h0 : 0 ≤ unit) (hn : unit < 2 ^ 59) :
    ∃ c', Libspill.ensureUnit c unit true = some (true, c') ∧ KeepsWords E c' t ∧ unit.toNat < c'.nunits ∧
      c'.units = c.units ∧ c'.files = c.files := by
  by_cases hlt : unit.toNat ≥ c.nunits
  swap
  · refine ⟨c, ?_, h, by omega, rfl, rfl⟩
    rw [Libspill.ensureUnit, if_neg (by omega), if_neg hlt]
  generalize hfrom : (if c.nunits ≠ 0 then c.nunits else 16) = n
  have hpos : 0 < n ∧ (n = c.nunits ∨ n = 16) := by
    split_ifs at hfrom <;> omega
  have hwant : unit.toNat + 1 ≤ n * 2 ^ 64 := by
    have : 2 ^ 64 ≤ n * 2 ^ 64 := Nat.le_mul_of_pos_left _ hpos.1
    omega
  obtain ⟨h1, h2⟩ := doubled_spec 64 hwant
  have hsize : doubled 64 n (unit.toNat + 1) < 2 ^ 60 := by omega
  have hunits : (fun i => if i < c.nunits then c.units i else none) = c.units := by
    funext i
    split_ifs with hi
    · rfl
    · exact (h.small i (by omega)).symm
  refine ⟨{ c with nunits := doubled 64 n (unit.toNat + 1) }, ?_, ?_, h1, rfl, rfl⟩
  · rw [Libspill.ensureUnit, if_neg (by omega), if_pos hlt, hfrom]
    dsimp only
    rw [if_neg (by omega), if_pos rfl, hunits]
  · exact ⟨h.opened, fun u hu => h.small u (by dsimp only at hu; omega), h.apart, h.holds, h.shelved⟩

/-- A unit whose store has moved on. -/
theorem KeepsWords.moved (h : KeepsWords E c t) {nm : CStr} (hu : unitOpen c unit = some (nm, s))
    (hs : HoldsWords s' ws) :
    KeepsWords E (c.setUnit unit (some (nm, s'))) { t with words := Function.update t.words nm ws } := by
  have hin := units_of_unitOpen hu
  have hold : ∀ u nm' s₁, (c.setUnit unit (some (nm, s'))).units u = some (nm', s₁) →
      (u = unit.toNat ∧ nm' = nm ∧ s₁ = s') ∨ (u ≠ unit.toNat ∧ c.units u = some (nm', s₁)) := by
    intro u nm' s₁ h₁
    rw [Cray.setUnit] at h₁
    dsimp only at h₁
    by_cases hu' : u = unit.toNat
    · rw [hu', Function.update_self] at h₁
      cases h₁
      exact Or.inl ⟨hu', rfl, rfl⟩
    · rw [Function.update_of_ne hu'] at h₁
      exact Or.inr ⟨hu', h₁⟩
  have hname : ∀ u nm' s₁, (c.setUnit unit (some (nm, s'))).units u = some (nm', s₁) →
      ∃ s₂, c.units u = some (nm', s₂) := by
    intro u nm' s₁ h₁
    rcases hold u nm' s₁ h₁ with ⟨rfl, rfl, -⟩ | ⟨-, h₂⟩
    · exact ⟨s, hin⟩
    · exact ⟨s₁, h₂⟩
  refine ⟨fun u => ?_, fun u hn => ?_, fun u v nm' s₁ s₂ h₁ h₂ => ?_, fun u nm' s₁ h₁ => ?_,
    fun nm' hno => ?_⟩
  · show t.opened u = (Function.update c.units unit.toNat (some (nm, s')) u).map Prod.fst
    rw [h.opened]
    by_cases hu' : u = unit.toNat
    · rw [hu', Function.update_self, hin]
      rfl
    · rw [Function.update_of_ne hu']
  · show Function.update c.units unit.toNat (some (nm, s')) u = none
    have hne : u ≠ unit.toNat := by
      rintro rfl
      rw [h.small _ hn] at hin
      cases hin
    rw [Function.update_of_ne hne]
    exact h.small u hn
  · obtain ⟨_, g₁⟩ := hname u nm' s₁ h₁
    obtain ⟨_, g₂⟩ := hname v nm' s₂ h₂
    exact h.apart u v nm' _ _ g₁ g₂
  · dsimp only
    rcases hold u nm' s₁ h₁ with ⟨-, rfl, rfl⟩ | ⟨hne, h₂⟩
    · rw [Function.update_self]
      exact hs
    · have hnm : nm' ≠ nm := by
        rintro rfl
        exact hne (h.apart u _ nm' _ _ h₂ hin)
      rw [Function.update_of_ne hnm]
      exact h.holds u nm' s₁ h₂
  · have hnm : nm' ≠ nm := by
      rintro rfl
      refine hno unit.toNat s' ?_
      rw [Cray.setUnit]
      exact Function.update_self _ _ _
    dsimp only
    rw [Function.update_of_ne hnm]
    refine h.shelved nm' fun u s₁ h₁ => hno u s₁ ?_
    have hne : u ≠ unit.toNat := by
      rintro rfl
      rw [hin] at h₁
      cases h₁
      exact hnm rfl
    rw [Cray.setUnit]
    dsimp only
    rw [Function.update_of_ne hne]
    exact h₁

/-- A unit that is opened on the file of its name. -/
theorem KeepsWords.open_unit (h : KeepsWords E c t) {nm : CStr} (hu : c.units unit.toNat = none)
    (hlt : unit.toNat < c.nunits) (hno : ∀ v s, c.units v ≠ some (nm, s)) (hs : HoldsWords s (t.words nm)) :
    KeepsWords E (c.setUnit unit (some (nm, s)))
      { t with opened := Function.update t.opened unit.toNat (some nm) } := by
  have hold : ∀ u nm' s₁, (c.setUnit unit (some (nm, s))).units u = some (nm', s₁) →
      (u = unit.toNat ∧ nm' = nm ∧ s₁ = s) ∨ (u ≠ unit.toNat ∧ c.units u = some (nm', s₁)) := by
    intro u nm' s₁ h₁
    rw [Cray.setUnit] at h₁
    dsimp only at h₁
    by_cases hu' : u = unit.toNat
    · rw [hu', Function.update_self] at h₁
      cases h₁
      exact Or.inl ⟨hu', rfl, rfl⟩
    · rw [Function.update_of_ne hu'] at h₁
      exact Or.inr ⟨hu', h₁⟩
  refine ⟨fun u => ?_, fun u hn => ?_, fun u v nm' s₁ s₂ h₁ h₂ => ?_, fun u nm' s₁ h₁ => ?_,
    fun nm' hno' => h.shelved nm' fun u s₁ h₁ => hno' u s₁ ?_⟩
  · show Function.update t.opened unit.toNat (some nm) u =
      (Function.update c.units unit.toNat (some (nm, s)) u).map Prod.fst
    by_cases hu' : u = unit.toNat
    · rw [hu', Function.update_self, Function.update_self]
      rfl
    · rw [Function.update_of_ne hu', Function.update_of_ne hu', h.opened]
  · show Function.update c.units unit.toNat (some (nm, s)) u = none
    have hn' : c.nunits ≤ u := hn
    rw [Function.update_of_ne (by omega)]
    exact h.small u hn
  · rcases hold u nm' s₁ h₁ with ⟨rfl, rfl, -⟩ | ⟨-, g₁⟩ <;>
      rcases hold v nm' s₂ h₂ with ⟨rfl, g, -⟩ | ⟨-, g₂⟩
    · rfl
    · exact absurd g₂ (hno v s₂)
    · subst g
      exact absurd g₁ (hno u s₁)
    · exact h.apart u v nm' _ _ g₁ g₂
  · rcases hold u nm' s₁ h₁ with ⟨-, rfl, rfl⟩ | ⟨-, g₁⟩
    · exact hs
    · exact h.holds u nm' s₁ g₁
  · have hne : u ≠ unit.toNat := by
      rintro rfl
      rw [hu] at h₁
      cases h₁
    rw [Cray.setUnit]
    dsimp only
    rw [Function.update_of_ne hne]
    exact h₁

/-- A unit that is closed leaves its file. -/
theorem KeepsWords.close_unit (h : KeepsWords E c t) {nm : CStr} (hu : unitOpen c unit = some (nm, s))
    (hs : Shelved E os (t.words nm)) :
    KeepsWords E { c.setUnit unit none with files := Function.update c.files nm os }
      { t with opened := Function.update t.opened unit.toNat none } := by
  have hin := units_of_unitOpen hu
  have hold : ∀ u nm' s₁, Function.update c.units unit.toNat none u = some (nm', s₁) →
      u ≠ unit.toNat ∧ c.units u = some (nm', s₁) := by
    intro u nm' s₁ h₁
    by_cases hu' : u = unit.toNat
    · rw [hu', Function.update_self] at h₁
      cases h₁
    · rw [Function.update_of_ne hu'] at h₁
      exact ⟨hu', h₁⟩
  refine ⟨fun u => ?_, fun u hn => ?_, fun u v nm' s₁ s₂ h₁ h₂ =>
    h.apart u v nm' _ _ (hold u nm' s₁ h₁).2 (hold v nm' s₂ h₂).2, fun u nm' s₁ h₁ =>
      h.holds u nm' s₁ (hold u nm' s₁ h₁).2, fun nm' hno => ?_⟩
  · show Function.update t.opened unit.toNat none u =
      (Function.update c.units unit.toNat none u).map Prod.fst
    by_cases hu' : u = unit.toNat
    · rw [hu', Function.update_self, Function.update_self]
      rfl
    · rw [Function.update_of_ne hu', Function.update_of_ne hu', h.opened]
  · show Function.update c.units unit.toNat none u = none
    by_cases hu' : u = unit.toNat
    · rw [hu', Function.update_self]
    · rw [Function.update_of_ne hu']
      exact h.small u hn
  · dsimp only
    by_cases hnm : nm' = nm
    · subst hnm
      rw [Function.update_self]
      exact hs
    · rw [Function.update_of_ne hnm]
      refine h.shelved nm' fun u s₁ h₁ => hno u s₁ ?_
      have hne : u ≠ unit.toNat := by
        rintro rfl
        rw [hin] at h₁
        cases h₁
        exact hnm rfl
      show Function.update c.units unit.toNat none u = _
      rw [Function.update_of_ne hne]
      exact h₁

/-! ## The four calls -/

/-- What a call answers and leaves when no call of the operating system fails in it. -/
def AnswersAs (E : Env) (c : Cray σ) (t : WordTable) (call : CrayCall) : Prop :=
  ∃ ans c', c.step E call = some (ans, c') ∧
    (c'.Quiet → ans = (t.step call).1 ∧ KeepsWords E c' (t.step call).2)

omit [HonestOs σ] in
/-- A name of less than 256 bytes is not cut. -/
theorem unitName_eq {name : List UInt8} {lennam : ℤ} (h : lennam < 256) :
    unitName unit name lennam = meantName unit name lennam := by
  rw [unitName, meantName]
  split_ifs with h1 h2
  · omega
  · rfl
  · rfl

theorem answers_wopen (hF : 2 ^ 64 ≤ E.fuel) (h : KeepsWords E c t) {name : List UInt8} {lennam : ℤ}
    {grows : Bool} (hp : (CrayCall.wopen unit name lennam grows).Proper c)
    (hn : (CrayCall.wopen unit name lennam grows).Narrow E c) :
    AnswersAs E c t (.wopen unit name lennam grows) := by
  obtain ⟨-, -, hlen, rfl, hdist⟩ := hp
  have hn : unit < 2 ^ 59 := hn
  show ∃ ans c', wopen E c unit name lennam true = some (ans, c') ∧ _
  by_cases h0 : unit < 0
  · rw [wopen, if_pos h0, WordTable.step, if_pos h0]
    exact ⟨_, c, rfl, fun _ => ⟨rfl, h⟩⟩
  obtain ⟨c₁, e1, e2, e3, e4, e5⟩ := h.ensureUnit (by omega) hn
  rw [wopen, if_neg h0, e1, WordTable.step, if_neg h0]
  dsimp only
  rw [unitName_eq hlen, e2.opened]
  cases hu : c₁.units unit.toNat with
  | some u => exact ⟨_, c₁, rfl, fun _ => ⟨rfl, e2⟩⟩
  | none =>
    have hclosed : ¬ false = true := by decide
    rw [Option.isSome_none, Option.map_none, Option.isSome_none, if_neg hclosed, if_neg hclosed]
    have hdist := hdist (by rw [← e4]; exact hu)
    generalize meantName unit name lennam = nm at hdist ⊢
    by_cases hnil : nm.1 = []
    · rw [if_pos hnil, if_pos hnil]
      exact ⟨_, c₁, rfl, fun _ => ⟨rfl, e2⟩⟩
    rw [if_neg hnil, if_neg hnil]
    have hno : ∀ v s, c₁.units v ≠ some (nm, s) := fun v s hv =>
      hdist v nm s (by rw [← e4]; exact hv) rfl
    obtain ⟨r, g1, g2⟩ := opens_shelved hF (e2.shelved nm hno)
    rw [g1]
    obtain ⟨rc, os⟩ | s := r
    · refine ⟨_, _, rfl, fun hq => ?_⟩
      have hc : clean os := by
        have := hq.1 nm
        dsimp only at this
        rwa [Function.update_self] at this
      obtain ⟨_, hr, -⟩ := g2 hc
      cases hr
    · refine ⟨_, _, rfl, fun hq => ⟨rfl, ?_⟩⟩
      have hc : clean s.os := hq.2 unit.toNat nm s (Function.update_self _ _ _)
      obtain ⟨_, hr, hs⟩ := g2 hc
      cases hr
      exact e2.open_unit hu e3 hno hs

theorem answers_wclose (hF : 2 ^ 64 ≤ E.fuel) (h : KeepsWords E c t)
    (hn : (CrayCall.wclose unit).Narrow E c) : AnswersAs E c t (.wclose unit) := by
  show ∃ ans c', wclose E c unit = some (ans, c') ∧ _
  rw [wclose, WordTable.step, h.unit_eq]
  cases hu : unitOpen c unit with
  | none => exact ⟨_, c, rfl, fun _ => ⟨rfl, h⟩⟩
  | some u =>
    obtain ⟨nm, s⟩ := u
    have hs := h.holds _ nm s (units_of_unitOpen hu)
    have hfew : Few E s := hn nm s hu
    have hsh : s.o.parallel ≠ .shared := by
      rw [hs.opts]
      decide
    obtain ⟨rc, os, h1, h2, -⟩ := hs.settled.kept hF hsh hfew
    dsimp only
    rw [h1]
    refine ⟨_, _, rfl, fun hq => ?_⟩
    have hc : clean os := by
      have := hq.1 nm
      dsimp only at this
      rwa [Function.update_self] at this
    obtain ⟨-, rfl⟩ := h2 hc
    exact ⟨rfl, h.close_unit hu (Or.inr ⟨s, hs, hfew, h1⟩)⟩

theorem answers_getwa (hF : 2 ^ 64 ≤ E.fuel) (h : KeepsWords E c t) {addr count : ℤ} {buf : ℕ}
    (hn : (CrayCall.getwa unit addr count buf).Narrow E c) :
    AnswersAs E c t (.getwa unit addr count buf) := by
  obtain ⟨hn1, hn2⟩ : addr - 1 < 2 ^ 61 ∧ count < 2 ^ 61 := hn
  show ∃ ans c', getwa E c unit addr count buf = some (ans, c') ∧ _
  rw [getwa, WordTable.step, h.unit_eq]
  cases hu : unitOpen c unit with
  | none => exact ⟨_, c, rfl, fun _ => ⟨rfl, h⟩⟩
  | some u =>
    obtain ⟨nm, s⟩ := u
    have hs := h.holds _ nm s (units_of_unitOpen hu)
    dsimp only [Option.map_some]
    rw [waRefused]
    by_cases hbad : addr ≤ 0 ∨ count < 0
    · rw [if_pos hbad, if_pos hbad]
      exact ⟨_, c, rfl, fun _ => ⟨rfl, h⟩⟩
    rw [if_neg hbad, if_neg hbad]
    by_cases hzero : count = 0
    · rw [if_pos hzero, if_pos hzero]
      exact ⟨_, c, rfl, fun _ => ⟨rfl, h⟩⟩
    rw [if_neg hzero, if_neg hzero, byteOff_eq (by omega) hn1, byteCount_eq (by omega) hn2]
    have haddr : (addr - 1).toNat < 2 ^ 61 := by omega
    have hcount : count.toNat < 2 ^ 61 := by omega
    obtain ⟨out, s', h1, h2⟩ := hs.read hF  haddr (by omega) hcount
    dsimp only
    rw [h1]
    refine ⟨_, _, rfl, fun hq => ?_⟩
    have hc : clean s'.os := hq.2 unit.toNat nm s' (Function.update_self _ _ _)
    obtain ⟨h3, h4⟩ := h2 hc
    have hmoved := h.moved hu h3
    rw [Function.update_eq_self] at hmoved
    have hend : addr - 1 + count ≤ (t.words nm).length ↔
        (addr - 1).toNat + count.toNat ≤ (t.words nm).length := by omega
    rw [h4]
    by_cases hin : (addr - 1).toNat + count.toNat ≤ (t.words nm).length
    · rw [if_pos hin, if_pos (hend.mpr hin)]
      exact ⟨rfl, hmoved⟩
    · rw [if_neg hin, if_neg (mt hend.mp hin)]
      exact ⟨rfl, hmoved⟩

theorem answers_putwa (hF : 2 ^ 64 ≤ E.fuel) (h : KeepsWords E c t) {source : List Word} {addr count : ℤ}
    {buf : ℕ} (hp : (CrayCall.putwa unit source addr count buf).Proper c)
    (hn : (CrayCall.putwa unit source addr count buf).Narrow E c) :
    AnswersAs E c t (.putwa unit source addr count buf) := by
  obtain ⟨-, -, -, hlen⟩ := hp
  obtain ⟨hn1, hn2, hfit⟩ := hn
  show ∃ ans c', putwa E c unit source addr count buf = some (ans, c') ∧ _
  rw [putwa, WordTable.step, h.unit_eq]
  cases hu : unitOpen c unit with
  | none => exact ⟨_, c, rfl, fun _ => ⟨rfl, h⟩⟩
  | some u =>
    obtain ⟨nm, s⟩ := u
    have hs := h.holds _ nm s (units_of_unitOpen hu)
    have hfit := hfit nm s hu
    dsimp only [Option.map_some]
    rw [waRefused]
    by_cases hbad : addr ≤ 0 ∨ count < 0
    · rw [if_pos hbad, if_pos hbad]
      exact ⟨_, c, rfl, fun _ => ⟨rfl, h⟩⟩
    rw [if_neg hbad, if_neg hbad]
    by_cases hzero : count = 0
    · rw [if_pos hzero, if_pos hzero]
      exact ⟨_, c, rfl, fun _ => ⟨rfl, h⟩⟩
    have hall : (flat source).take (byteCount count) = flat source := by
      rw [byteCount_eq (by omega) hn2, ← hlen, ← length_flat, List.take_length]
    rw [hall, byteOff_eq (by omega) hn1] at hfit
    rw [if_neg hzero, if_neg hzero, hall, byteOff_eq (by omega) hn1]
    obtain ⟨out, s', h1, h2⟩ := hs.write hF (by omega) (by omega) hfit
    dsimp only
    rw [h1]
    refine ⟨_, _, rfl, fun hq => ?_⟩
    have hc : clean s'.os := hq.2 unit.toNat nm s' (Function.update_self _ _ _)
    obtain ⟨h3, h4⟩ := h2 hc
    have hend : addr - 1 + count < 2 ^ 61 ↔ (addr - 1).toNat + source.length < 2 ^ 61 := by omega
    rw [h3]
    by_cases hin : (addr - 1).toNat + source.length < 2 ^ 61
    · rw [if_pos hin] at h4
      rw [if_pos hin, if_pos (hend.mpr hin)]
      exact ⟨rfl, h.moved hu h4⟩
    · rw [if_neg hin] at h4
      have hmoved := h.moved hu h4
      rw [Function.update_eq_self] at hmoved
      rw [if_neg hin, if_neg (mt hend.mp hin)]
      exact ⟨rfl, hmoved⟩

/-- **Every call keeps the arrays.** -/
theorem answers_call (hF : 2 ^ 64 ≤ E.fuel) (h : KeepsWords E c t) {call : CrayCall} (hp : call.Proper c)
    (hn : call.Narrow E c) : AnswersAs E c t call := by
  cases call with
  | wopen unit name lennam grows => exact answers_wopen hF h hp hn
  | wclose unit => exact answers_wclose hF h hn
  | getwa unit addr count buf => exact answers_getwa hF h hn
  | putwa unit source addr count buf => exact answers_putwa hF h hp hn

theorem keeps_run (hF : 2 ^ 64 ≤ E.fuel) {calls : List CrayCall} (h : KeepsWords E c t)
    (hrun : QuietRun E (fun c call => call.Proper c ∧ call.Narrow E c) calls c) :
    ∃ c', crayRun E calls c = some ((WordTable.run calls t).1, c') ∧
      KeepsWords E c' (WordTable.run calls t).2 := by
  induction calls generalizing c t with
  | nil => exact ⟨c, rfl, h⟩
  | cons call calls ih =>
    obtain ⟨⟨hp, hn⟩, hrest⟩ := hrun
    obtain ⟨ans, c₁, h1, h2⟩ := answers_call hF h hp hn
    obtain ⟨hq, hrun₁⟩ := hrest ans c₁ h1
    obtain ⟨rfl, h3⟩ := h2 hq
    obtain ⟨c', h4, h5⟩ := ih h3 hrun₁
    refine ⟨c', ?_, h5⟩
    rw [crayRun, h1]
    dsimp only
    rw [h4]
    rfl

/-- Before the first call. -/
def Cray.start (files : CStr → σ) : Cray σ := ⟨0, fun _ => none, files⟩

theorem keeps_start {files : CStr → σ} (hfiles : ∀ nm, (file (files nm)).len = 0) :
    KeepsWords E (.start files) .start :=
  ⟨fun _ => rfl, fun _ _ => rfl, fun u v nm s s' hu => (by cases hu), fun u nm s hu => (by cases hu),
    fun nm _ => Or.inl ⟨hfiles nm, rfl⟩⟩

/-- **The layer keeps arrays of words**: in every run of proper and narrow calls that begins on empty
files, and in which no call of the operating system fails, every call answers as the arrays do. -/
theorem words_kept (hF : 2 ^ 64 ≤ E.fuel) {files : CStr → σ} (hfiles : ∀ nm, (file (files nm)).len = 0)
    {calls : List CrayCall}
    (hrun : QuietRun E (fun c call => call.Proper c ∧ call.Narrow E c) calls (.start files)) :
    ∃ c', crayRun E calls (.start files) = some ((WordTable.run calls .start).1, c') := by
  obtain ⟨c', h1, -⟩ := keeps_run hF (keeps_start hfiles) hrun
  exact ⟨c', h1⟩

/-! ## Addresses that wrap -/

/-- The unit that a call is about. -/
def CrayCall.onUnit : CrayCall → ℤ
  | .wopen unit _ _ _ => unit
  | .wclose unit => unit
  | .getwa unit _ _ _ => unit
  | .putwa unit _ _ _ _ => unit

omit [HonestOs σ] in
/-- The units of a table that one unit was changed in. -/
theorem units_setUnit {u : CStr × Store σ} {v : ℕ} {x : CStr × Store σ}
    (h : (c.setUnit unit (some u)).units v = some x) :
    (v = unit.toNat ∧ x = u) ∨ c.units v = some x := by
  by_cases hv : v = unit.toNat
  · rw [Cray.setUnit, hv] at h
    dsimp only at h
    rw [Function.update_self] at h
    exact Or.inl ⟨hv, (Option.some.inj h).symm⟩
  · rw [Cray.setUnit] at h
    dsimp only at h
    rw [Function.update_of_ne hv] at h
    exact Or.inr h

/-- A call that closes nothing and does not fail touches the store of its unit only. -/
theorem Cray.Quiet.step (h : c.Quiet) {call : CrayCall} {ans : CrayAns}
    (hstep : c.step E call = some (ans, c')) (hcall : ∀ u, call ≠ .wclose u) (hans : ans.ierr ≠ -6)
    (hunit : ∀ nm s, c'.units call.onUnit.toNat = some (nm, s) → clean s.os) : c'.Quiet := by
  have hset : ∀ (c₁ : Cray σ), c₁.Quiet → ∀ (unit : ℤ) (u : CStr × Store σ), unit = call.onUnit →
      c' = c₁.setUnit unit (some u) → c'.Quiet := by
    rintro c₁ hc₁ unit u rfl rfl
    refine ⟨hc₁.1, fun v nm s hv => ?_⟩
    rcases units_setUnit hv with ⟨rfl, rfl⟩ | hv
    · exact hunit nm s hv
    · exact hc₁.2 v nm s hv
  cases call with
  | wclose u => exact absurd rfl (hcall u)
  | wopen unit name lennam grows =>
    have hens : ∀ b c₁, ensureUnit c unit grows = some (b, c₁) → c₁.Quiet := by
      intro b c₁ hb
      unfold ensureUnit at hb
      generalize (if c.nunits ≠ 0 then c.nunits else 16) = n at hb
      dsimp only at hb
      split_ifs at hb
      · cases hb
        exact h
      · cases hb
        refine ⟨h.1, fun v nm s hv => ?_⟩
        dsimp only at hv
        split_ifs at hv
        exact h.2 v nm s hv
      · cases hb
        exact h
      · cases hb
        exact h
    have hw : wopen E c unit name lennam grows = some (ans, c') := hstep
    unfold wopen at hw
    split_ifs at hw
    · cases hw
      exact h
    split at hw
    · cases hw
    next c₁ he =>
      cases hw
      exact hens _ _ he
    next c₁ he =>
      have hc₁ := hens _ _ he
      dsimp only at hw
      split_ifs at hw
      · cases hw
        exact hc₁
      · cases hw
        exact hc₁
      split at hw
      · cases hw
      · cases hw
        exact absurd rfl hans
      · cases hw
        exact hset c₁ hc₁ unit _ rfl rfl
  | getwa unit addr count buf =>
    have hw : getwa E c unit addr count buf = some (ans, c') := hstep
    unfold getwa at hw
    split at hw
    · cases hw
      exact h
    split at hw
    · cases hw
      exact h
    split at hw
    · cases hw
    · cases hw
      exact hset c h unit _ rfl rfl
  | putwa unit source addr count buf =>
    have hw : putwa E c unit source addr count buf = some (ans, c') := hstep
    unfold putwa at hw
    split at hw
    · cases hw
      exact h
    split at hw
    · cases hw
      exact h
    split at hw
    · cases hw
    · cases hw
      exact hset c h unit _ rfl rfl

end Meant

/-- Calls on one unit, none of which closes it or fails, when the store of the unit stays clean. -/
def calmRun (unit : ℤ) : List CrayCall → Cray Disk → Bool
  | [], _ => true
  | call :: calls, c =>
    match c.step Env.ample call with
    | none => false
    | some (ans, c) => decide (ans.ierr ≠ -6) && ((c.units unit.toNat).all fun u => u.2.os.ok) &&
        calmRun unit calls c

theorem quietRun_of_calm {P : Cray Disk → CrayCall → Prop} {unit : ℤ} {calls : List CrayCall}
    {c : Cray Disk} (h : c.Quiet) (hcalls : ∀ call ∈ calls, call.onUnit = unit ∧ ∀ u, call ≠ .wclose u)
    (hcalm : calmRun unit calls c = true)
    (hP : ∀ pre call post, calls = pre ++ call :: post → QuietRun Env.ample P pre c → ∀ outs c',
      crayRun Env.ample pre c = some (outs, c') → P c' call) : QuietRun Env.ample P calls c := by
  induction calls generalizing c with
  | nil => trivial
  | cons call calls ih =>
    have hp : P c call := hP [] call calls rfl trivial [] c rfl
    refine ⟨hp, fun ans c' hstep => ?_⟩
    obtain ⟨hu, hcl⟩ := hcalls call (List.mem_cons_self ..)
    rw [calmRun, hstep] at hcalm
    dsimp only at hcalm
    rw [Bool.and_eq_true, Bool.and_eq_true, decide_eq_true_eq] at hcalm
    obtain ⟨⟨h1, h2⟩, h3⟩ := hcalm
    have hq : c'.Quiet := h.step hstep hcl h1 fun nm s hs => by
      rw [hu] at hs
      rw [hs, Option.all_some] at h2
      exact h2
    refine ⟨hq, ih hq (fun x hx => hcalls x (List.mem_cons_of_mem _ hx)) h3
      fun pre x post hx hpre outs c₂ hrun => ?_⟩
    refine hP (call :: pre) x post (by rw [hx]; rfl) ⟨hp, fun ans' c₃ hstep' => ?_⟩ (ans :: outs) c₂ ?_
    · rw [hstep] at hstep'
      cases hstep'
      exact ⟨hq, hpre⟩
    · rw [crayRun, hstep]
      dsimp only
      rw [hrun]
      rfl

/-- A disk for every name, and no file yet. -/
def Cray.blank : Cray Disk := .start fun _ => Disk.blank

theorem Cray.quiet_blank : Cray.blank.Quiet := ⟨fun _ => rfl, fun u nm s hu => (by cases hu)⟩

/-- Eight bytes of the same value. -/
def wordOf (b : UInt8) : Word := List.Vector.replicate 8 b

/-- Word 2 is put, and words 1 and 2 are read. -/
def putCalls : List CrayCall :=
  [.wopen 1 [119] 1 true, .putwa 1 [wordOf 7] 2 1 0, .getwa 1 1 2 0]

theorem words_kept_two : ∃ c',
    crayRun Env.ample putCalls Cray.blank = some ((WordTable.run putCalls .start).1, c') := by
  have hF : 2 ^ 64 ≤ Env.ample.fuel := Nat.le_refl _
  have hfiles : ∀ nm, (HonestOs.file ((fun _ => Disk.blank : CStr → Disk) nm)).len = 0 := fun _ => rfl
  have hkeeps : KeepsWords Env.ample (Cray.start fun _ => Disk.blank) .start := keeps_start hfiles
  have hcalm : calmRun 1 putCalls Cray.blank = true := by decide +kernel
  refine words_kept hF hfiles (quietRun_of_calm Cray.quiet_blank ?_ hcalm ?_)
  · intro call hcall
    fin_cases hcall <;> exact ⟨rfl, fun u hu => by cases hu⟩
  · intro pre call post hpre hq outs c' hrun
    obtain ⟨c₁, h1, h2⟩ := keeps_run hF hkeeps hq
    rw [hrun] at h1
    cases h1
    rcases pre with _ | ⟨_, _ | ⟨_, _ | ⟨_, pre⟩⟩⟩
    · cases hpre
      cases hrun
      exact ⟨⟨⟨by decide, by decide⟩, ⟨by decide, by decide⟩, by decide, rfl, fun _ v nm s hv => (by cases hv)⟩,
        show (1 : ℤ) < 2 ^ 59 by norm_num⟩
    · cases hpre
      refine ⟨⟨⟨by decide, by decide⟩, ⟨by decide, by decide⟩, ⟨by decide, by decide⟩, rfl⟩,
        by norm_num, by norm_num, fun nm s hs => ?_⟩
      have hholds := h2.holds _ nm s (units_of_unitOpen hs)
      exact ⟨by decide, by decide, fun _ => roomFits_of_le hF hholds.settled.sound (by decide)⟩
    · cases hpre
      exact ⟨⟨⟨by decide, by decide⟩, ⟨by decide, by decide⟩, ⟨by decide, by decide⟩⟩, by norm_num, by norm_num⟩
    · simp [putCalls] at hpre

/-- Word 1 is put; word `2 ^ 61 + 1`, which was never put, is read; it is put; and word 1 is read. -/
def aliasCalls : List CrayCall :=
  [.wopen 1 [119] 1 true, .putwa 1 [wordOf 7] 1 1 0, .getwa 1 (2 ^ 61 + 1) 1 0,
    .putwa 1 [wordOf 8] (2 ^ 61 + 1) 1 0, .getwa 1 1 1 0]

/-- **An address past `2 ^ 61` is taken for a small one**: a word that does not exist is read, and
putting it changes word 1. -/
theorem words_alias : QuietRun Env.ample (fun c call => call.Proper c) aliasCalls Cray.blank ∧
    (crayRun Env.ample aliasCalls Cray.blank).map Prod.fst =
      some [{ ierr := 0 }, { ierr := 0 }, ⟨0, flat [wordOf 7]⟩, { ierr := 0 }, ⟨0, flat [wordOf 8]⟩] ∧
    (crayRun Env.ample aliasCalls Cray.blank).map Prod.fst ≠ some (WordTable.run aliasCalls .start).1 := by
  have hrun : (crayRun Env.ample aliasCalls Cray.blank).map Prod.fst =
      some [{ ierr := 0 }, { ierr := 0 }, ⟨0, flat [wordOf 7]⟩, { ierr := 0 }, ⟨0, flat [wordOf 8]⟩] := by
    decide +kernel
  have hcalm : calmRun 1 aliasCalls Cray.blank = true := by decide +kernel
  refine ⟨quietRun_of_calm Cray.quiet_blank ?_ hcalm ?_, hrun, fun heq => ?_⟩
  · intro call hcall
    fin_cases hcall <;> exact ⟨rfl, fun u hu => by cases hu⟩
  · intro pre call post hpre hq outs c' hrun
    have h64 : Int64 1 ∧ Int64 (2 ^ 61 + 1) := ⟨⟨by decide, by decide⟩, ⟨by norm_num, by norm_num⟩⟩
    rcases pre with _ | ⟨_, _ | ⟨_, _ | ⟨_, _ | ⟨_, _ | ⟨_, pre⟩⟩⟩⟩⟩
    · cases hpre
      cases hrun
      exact ⟨h64.1, h64.1, by decide, rfl, fun _ v nm s hv => (by cases hv)⟩
    · cases hpre
      exact ⟨h64.1, h64.1, h64.1, rfl⟩
    · cases hpre
      exact ⟨h64.1, h64.2, h64.1⟩
    · cases hpre
      exact ⟨h64.1, h64.2, h64.1, rfl⟩
    · cases hpre
      exact ⟨h64.1, h64.1, h64.1⟩
    · simp [aliasCalls] at hpre
  · rw [hrun] at heq
    have hget : (WordTable.run aliasCalls .start).1[2]? = some { ierr := -5 } := by decide +kernel
    rw [← Option.some.inj heq] at hget
    exact absurd hget (by decide)

end Libspill
