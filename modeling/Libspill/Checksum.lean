import Libspill.Lib.Crc
import Libspill.Reach

set_option autoImplicit false

/-!
# The checksum of the table of contents

`crc32_of` is a cyclic redundancy check whose polynomial has its top bit, so damage that is no longer
than the remainder is always seen.

* `toBitVec_crcByte`: a byte of `crc32_of` is a symbol of the check.
* `crc32Of_burst`: two byte strings that differ inside of four bytes have different checksums.
* **`damage_refused`**: `ls_open` refuses a kept store whose table of contents was damaged so.
-/

namespace Libspill

variable {σ : Type} [HonestOs σ] {E : Env}

open HonestOs (file clean)

/-! ## The check -/

/-- The polynomial of `crc32_of`. -/
def crcPoly : BitVec 32 := 0xedb88320

theorem toBitVec_crcBit (c : UInt32) : (crcBit c).toBitVec = Crc.bit crcPoly c.toBitVec := by
  have hmask : (0 - (c &&& 1)).toBitVec = if c.toBitVec.getLsbD 0 then BitVec.allOnes 32 else 0#32 := by
    rw [UInt32.toBitVec_sub, UInt32.toBitVec_and, UInt32.toBitVec_one,
      BitVec.and_one_eq_setWidth_ofBool_getLsbD]
    cases c.toBitVec.getLsbD 0 <;> rfl
  rw [crcBit, Crc.bit, UInt32.toBitVec_xor, UInt32.toBitVec_and, hmask]
  congr 1
  split_ifs
  · exact BitVec.and_allOnes
  · exact BitVec.and_zero

/-- A byte of `crc32_of` is a symbol. -/
theorem toBitVec_crcByte (c : UInt32) (b : UInt8) :
    (crcByte c b).toBitVec = Crc.symbol crcPoly c.toBitVec b.toBitVec := by
  rw [crcByte]
  simp only [toBitVec_crcBit, UInt32.toBitVec_xor]
  rfl

theorem toBitVec_foldl (c : UInt32) (l : List UInt8) :
    (l.foldl crcByte c).toBitVec = Crc.run crcPoly c.toBitVec (l.map UInt8.toBitVec) := by
  induction l generalizing c with
  | nil => rfl
  | cons b l ih =>
    rw [List.foldl_cons, ih, toBitVec_crcByte]
    rfl

/-- **A burst of four bytes changes the checksum.** -/
theorem crc32Of_burst {a b : List UInt8} (hlen : a.length = b.length) {i : ℕ}
    (hout : ∀ j, j < i ∨ i + 4 ≤ j → a[j]? = b[j]?) (heq : crc32Of a = crc32Of b) : a = b := by
  have hpre : a.take i = b.take i := by
    refine List.ext_getElem? fun j => ?_
    rw [List.getElem?_take, List.getElem?_take]
    split_ifs with hj
    · exact hout j (Or.inl hj)
    · rfl
  have hpost : a.drop (i + 4) = b.drop (i + 4) := by
    refine List.ext_getElem? fun j => ?_
    rw [List.getElem?_drop, List.getElem?_drop]
    exact hout _ (Or.inr (Nat.le_add_right _ _))
  have hsplit : ∀ l : List UInt8, l = l.take i ++ ((l.drop i).take 4 ++ l.drop (i + 4)) := fun l => by
    rw [← List.drop_drop, List.take_append_drop, List.take_append_drop]
  have hrun := congrArg UInt32.toBitVec (UInt32.not_inj.mp heq)
  rw [toBitVec_foldl, toBitVec_foldl, hsplit a, hsplit b, hpre, hpost] at hrun
  simp only [List.map_append] at hrun
  have hfit : 8 * ((a.drop i).take 4).length ≤ 32 := by
    rw [List.length_take]
    omega
  have hmid := Crc.run_burst crcPoly (by decide) (by simp [hlen]) (by rwa [List.length_map]) hrun
  have hmid' : (a.drop i).take 4 = (b.drop i).take 4 :=
    List.map_injective_iff.mpr (fun _ _ h => UInt8.toBitVec_inj.mp h) hmid
  rw [hsplit a, hsplit b, hpre, hpost, hmid']

/-! ## Damaged files -/

/-- The file of a kept store: the table of contents that its superblock describes is there, and has the
checksum that the superblock has. -/
structure Sealed (f : File) (sb : List UInt8) : Prop where
  super : slice f.byte 0 LS_SUPER_SIZE = sb
  past : LS_SUPER_SIZE ≤ get64 (sb.drop 16)
  inside : get64 (sb.drop 16) + get64 (sb.drop 48) ≤ f.len
  crc : get32 (sb.drop 40) = (crc32Of (slice f.byte (get64 (sb.drop 16)) (get64 (sb.drop 48)))).toNat

/-- Bytes of the table of contents have changed, all of them inside of four bytes. -/
structure Damaged (f : File) (sb : List UInt8) (f' : File) : Prop where
  len : f'.len = f.len
  differ : f'.byte ≠ f.byte
  burst : ∃ i, ∀ x, f'.byte x ≠ f.byte x → i ≤ x ∧ x < i + 4
  toc : ∀ x, f'.byte x ≠ f.byte x → get64 (sb.drop 16) ≤ x ∧ x < get64 (sb.drop 16) + get64 (sb.drop 48)

section

variable {s : Store σ} {f f' : File} {sb : List UInt8} {o : Opts} {direct : Bool} {os : σ}

/-- The damaged table has another checksum. -/
theorem Damaged.crc (h : Damaged f sb f') :
    crc32Of (slice f'.byte (get64 (sb.drop 16)) (get64 (sb.drop 48))) ≠
      crc32Of (slice f.byte (get64 (sb.drop 16)) (get64 (sb.drop 48))) := by
  obtain ⟨i, hi⟩ := h.burst
  have htoc := h.toc
  generalize get64 (sb.drop 16) = p at htoc ⊢
  generalize get64 (sb.drop 48) = n at htoc ⊢
  intro heq
  have hget : ∀ (g : ℕ → UInt8) j, j < n → (slice g p n)[j]? = some (g (p + j)) := fun g j hj => by
    rw [slice, List.getElem?_map, List.getElem?_range hj, Option.map_some]
  -- a window that begins before the table is one at its start
  have hsame := @crc32Of_burst (slice f'.byte p n) (slice f.byte p n) (by simp) (i - p) (fun j hj => by
    by_cases hjn : j < n
    · rw [hget _ j hjn, hget _ j hjn]
      by_contra hne
      have := hi (p + j) fun hb => hne (by rw [hb])
      omega
    · rw [List.getElem?_eq_none (by simp; omega), List.getElem?_eq_none (by simp; omega)]) heq
  refine h.differ (funext fun x => ?_)
  by_contra hne
  obtain ⟨h1, h2⟩ := htoc x hne
  have := congrArg (fun l => l[x - p]?) hsame
  rw [hget _ _ (by omega), hget _ _ (by omega), Option.some_inj, Nat.add_sub_cancel' h1] at this
  exact hne this

/-- The superblock is as it was. -/
theorem Damaged.super (h : Damaged f sb f') (hf : Sealed f sb) : slice f'.byte 0 LS_SUPER_SIZE = sb := by
  rw [← hf.super]
  refine slice_congr fun x hx => ?_
  by_contra hne
  have h1 := (h.toc _ hne).1
  have h2 := hf.past
  omega

/-- There is a table. -/
theorem Damaged.toc_ne (h : Damaged f sb f') : get64 (sb.drop 48) ≠ 0 := by
  intro h0
  refine h.differ (funext fun x => ?_)
  by_contra hne
  have := h.toc x hne
  omega

/-- The table that the superblock describes is not the one that is there. -/
theorem openToc_damaged (hF : 2 ^ 64 ≤ E.fuel) (hf : Sealed f sb) (h : Damaged f sb f')
    (hos : (file os).byte = f'.byte ∧ f'.len ≤ (file os).len) :
    ∃ e : Rc × σ, openToc E (freshStore o direct os) f'.len sb = some (.error e) ∧
      (clean e.2 → e.1 = .corrupt) := by
  have hlen : f'.len ≤ OFF_MAX := hos.2.trans (HonestOs.len_le os)
  have hmax : OFF_MAX = 2 ^ 63 - 1 := rfl
  have hlen' := h.len
  have hin := hf.inside
  have hpast := hf.past
  rw [openToc]
  split_ifs with hmagic
  · exact ⟨_, rfl, fun _ => rfl⟩
  dsimp only
  rw [if_neg (by omega), if_neg h.toc_ne, if_neg (by omega)]
  obtain ⟨rc, out, s₁, g1, g2, g3, g4, g5, g6⟩ := exec_lsPreadAll hF
    (blankStore o direct os (get64 (sb.drop 32))) direct E.tbAddr
    (show get64 (sb.drop 16) + get64 (sb.drop 48) < 2 ^ 64 by omega)
    (show get64 (sb.drop 16) + get64 (sb.drop 48) ≤ (file os).len by omega)
  erw [g1]
  dsimp only
  by_cases hrc : rc ≠ .ok
  · rw [if_pos hrc]
    exact ⟨_, rfl, fun hc => absurd (g5 hc).2 hrc⟩
  rw [if_neg hrc]
  have hbyte : (blankStore o direct os (get64 (sb.drop 32))).fbyte = f'.byte := hos.1
  have hout := g6 (not_not.mp hrc)
  rw [hbyte] at hout
  rw [if_pos]
  · exact ⟨_, rfl, fun _ => rfl⟩
  · rw [hout, hf.crc]
    exact fun hc => h.crc (UInt32.toNat_inj.mp hc)

/-- `ls_open` refuses a damaged file. -/
theorem lsOpen_damaged (hF : 2 ^ 64 ≤ E.fuel) (hf : Sealed f sb) (h : Damaged f sb (file os))
    (ho : optsRefused o = none) :
    ∃ e : Rc × σ, lsOpen E o os = some (.error e) ∧ (clean e.2 → e.1 = .corrupt) := by
  have hpast := hf.past
  have hin := hf.inside
  have hlen := h.len
  rcases lsOpen_super hF (h.super hf) (by omega) ho with ⟨e, g1, g2⟩ | ⟨direct, os₁, g1, -, g2⟩
  · exact ⟨e, g1, fun hc => absurd hc g2⟩
  · rw [g2]
    exact openToc_damaged hF hf h g1

/-- A store that is kept without an error leaves such a file. -/
theorem sealed_of_storedIn (hs : Sound s) (hf : StoredIn s f) (hlen : f.len ≤ OFF_MAX) :
    Sealed f (superblock s (tocSerialise s)) := by
  have hfe := fileEnd_lt hs
  have hmax : OFF_MAX = 2 ^ 63 - 1 := rfl
  have hlo := hs.laid.tiled.lo_le
  have hfl := hf.len
  have hn := n_le_tocSerialise s hs.laid.records.wf
  obtain ⟨-, h16, -, -, h40, h48⟩ := superblock_fields s (tocSerialise s) (by omega) (by omega)
    (by omega) rfl
  refine ⟨hf.super, ?_, ?_, ?_⟩
  · rw [h16]
    exact hlo
  · rw [h16, h48]
    exact hfl
  · rw [h16, h40, h48, hf.toc]

/-- **Damage of up to four bytes is seen.** Different byte strings of one length that differ inside of a
window of four bytes have different checksums; so `ls_open` refuses the file of a kept store of which
the table of contents was damaged so. -/
theorem damage_refused (hF : 2 ^ 64 ≤ E.fuel) :
    (∀ (a b : List UInt8) (i : ℕ), a.length = b.length → a ≠ b →
      (∀ j, j < i ∨ i + 4 ≤ j → a[j]? = b[j]?) → crc32Of a ≠ crc32Of b) ∧
    (∀ (f : File) (sb : List UInt8) (os : σ) (o : Opts), Sealed f sb → Damaged f sb (file os) →
      optsRefused o = none → ∃ e : Rc × σ, lsOpen E o os = some (.error e) ∧
        (clean e.2 → e.1 = .corrupt)) ∧
    ∀ (s : Store σ) (os : σ), Reached E s → s.o.parallel ≠ .shared →
      closeStore E s true = some (.ok, os) → ∃ sb, Sealed (file os) sb := by
  refine ⟨fun a b i hlen hne hout heq => hne (crc32Of_burst hlen hout heq),
    fun f sb os o hf h ho => lsOpen_damaged hF hf h ho, fun s os hs hsh hclose => ?_⟩
  obtain ⟨rc, os₁, h1, h2⟩ := closeStore_spec hF (hs.settled hF).sound hsh
  rw [hclose] at h1
  cases h1
  obtain ⟨s₁, -, h3, h4⟩ := h2.kept rfl
  exact ⟨_, sealed_of_storedIn h3.sound (h4.stored rfl) (HonestOs.len_le os)⟩

end

/-! ## On a disk -/

/-- Change a byte of the file. -/
def Disk.flip (d : Disk) (x : ℕ) (h : x < d.file.len) : Disk :=
  { d with
    file := d.file.write x [d.file.byte x + 1]
    len_le := by
      have := d.len_le
      simp only [File.write, List.length_singleton, List.cons_ne_nil, if_false]
      omega }

/-- A change of one byte of the table. -/
theorem Disk.damaged_flip (d : Disk) {x : ℕ} (h : x < d.file.len)
    {sb : List UInt8} (h1 : get64 (sb.drop 16) ≤ x) (h2 : x < get64 (sb.drop 16) + get64 (sb.drop 48)) :
    Damaged d.file sb (d.flip x h).file := by
  have hbyte : ∀ y, (d.flip x h).file.byte y = if y = x then d.file.byte x + 1 else d.file.byte y := by
    intro y
    show patch d.file.byte x [d.file.byte x + 1] y = _
    by_cases hy : y = x
    · rw [if_pos hy, patch, if_pos (by simp; omega), hy, Nat.sub_self]
      rfl
    · rw [if_neg hy, patch, if_neg (by simp; omega)]
  have hone : ∀ y, (d.flip x h).file.byte y ≠ d.file.byte y → y = x := fun y hne => by
    by_contra hy
    rw [hbyte, if_neg hy] at hne
    exact hne rfl
  refine ⟨?_, fun hc => ?_, ⟨x, fun y hne => ?_⟩, fun y hne => ?_⟩
  · simp only [Disk.flip, File.write, List.length_singleton, List.cons_ne_nil, if_false]
    omega
  · have := congrFun hc x
    rw [hbyte, if_pos rfl] at this
    have hnat := congrArg UInt8.toNat this
    have hlt := (d.file.byte x).toNat_lt
    rw [UInt8.toNat_add] at hnat
    simp only [UInt8.toNat_one] at hnat
    omega
  · rw [hone y hne]
    omega
  · rw [hone y hne]
    exact ⟨h1, h2⟩

/-- The first byte of a table that holds one record. -/
theorem damage_refused_one : ∃ (s : Store Disk) (d : Disk) (h : LS_SUPER_SIZE < d.file.len)
    (e : Rc × Disk), Reached Env.ample s ∧ closeStore Env.ample s true = some (.ok, d) ∧
      Damaged d.file (slice d.file.byte 0 LS_SUPER_SIZE) (d.flip LS_SUPER_SIZE h).file ∧
      lsOpen Env.ample {} (d.flip LS_SUPER_SIZE h) = some (.error e) ∧ (e.2.ok = true → e.1 = .corrupt) := by
  have hF : 2 ^ 64 ≤ Env.ample.fuel := Nat.le_refl _
  have hrun : ((runOps Env.ample [.setAttr keyA [1]] (Disk.newStore {})).bind fun q =>
      (closeStore Env.ample q.2 true).map fun z =>
        (z.1, q.2.o.parallel, get64 ((slice z.2.file.byte 0 LS_SUPER_SIZE).drop 16),
          get64 ((slice z.2.file.byte 0 LS_SUPER_SIZE).drop 48), z.2.file.len)) =
      some (.ok, .loc, 4096, 22, 4118) := by decide +kernel
  obtain ⟨⟨outs, s⟩, h1, hrun⟩ := Option.bind_eq_some_iff.mp hrun
  obtain ⟨⟨rc, d⟩, h2, hrun⟩ := Option.map_eq_some_iff.mp hrun
  simp only [Prod.mk.injEq] at hrun
  obtain ⟨rfl, c0, c1, c2, c3⟩ := hrun
  have hfit : FitsRun Env.ample [.setAttr keyA [1]] (Disk.newStore {}) := ⟨trivial, fun _ _ _ => trivial⟩
  have hs : Reached Env.ample s := (reached_newStore rfl (by decide)).runOps hfit h1
  have hlen : LS_SUPER_SIZE < d.file.len := by rw [c3]; decide
  have hdam : Damaged d.file (slice d.file.byte 0 LS_SUPER_SIZE) (d.flip LS_SUPER_SIZE hlen).file :=
    d.damaged_flip hlen (by rw [c1]; decide) (by rw [c1, c2]; decide)
  obtain ⟨-, hopen, hkept⟩ := @damage_refused Disk _ Env.ample hF
  obtain ⟨sb, hf⟩ := hkept s d hs (by rw [c0]; decide) h2
  have hsb := hf.super
  subst hsb
  obtain ⟨e, h3, h4⟩ := hopen d.file _ (d.flip LS_SUPER_SIZE hlen) {} hf hdam rfl
  exact ⟨s, d, hlen, e, hs, h2, hdam, h3, h4⟩

end Libspill
