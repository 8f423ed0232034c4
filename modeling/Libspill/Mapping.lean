import Libspill.Calls

set_option autoImplicit false

/-!
# Mapped stores

`ls_map` and `ls_unmap`. A record is a list of extents, so it is mapped piece by piece over a range of
addresses that is reserved first.

* `MapOs`: the calls of the platform floor that map, and `HonestMap`, what they do.
* `mapLoop`, `lsOsMapExtents`: the stitching.
* `MStore`: a store with the mappings of its records, `lsMap`, `lsUnmap`, and the other calls on it.
* `Pages`: an address space that always answers.
-/

namespace Libspill

/-- The calls of the platform floor that map. -/
class MapOs (μ : Type) where
  /-- Reserve `len` bytes of address space, where the system finds them. -/
  mmapAnon : μ → (len : ℕ) → Except Errno ℕ × μ
  /-- Map `len` bytes of the store file from `foff` on over the addresses from `addr` on. -/
  mmapFixed : μ → (addr len foff : ℕ) → Except Errno Unit × μ
  munmap : μ → (addr len : ℕ) → Except Errno Unit × μ

variable {σ μ : Type} [MapOs μ] (E : Env)

/-- The loop of `ls_os_map_extents`. -/
def mapLoop (base : ℕ) : List Extent → ℕ → μ → Except Errno Unit × μ
  | [], _, m => (.ok (), m)
  | e :: es, pos, m =>
    match MapOs.mmapFixed m (add64 base pos) e.len e.foff with
    | (.error err, m) => (.error err, m)
    | (.ok _, m) => mapLoop base es (add64 pos e.len) m

/-- `ls_os_map_extents`. -/
def lsOsMapExtents (m : μ) (es : List Extent) (total : ℕ) : Except Errno ℕ × μ :=
  match MapOs.mmapAnon m total with
  | (.error err, m) => (.error err, m)
  | (.ok base, m) =>
    match mapLoop base es 0 m with
    | (.error err, m) => (.error err, (MapOs.munmap m base total).2)
    | (.ok _, m) => (.ok base, m)

/-- A store whose records may be mapped: `map` holds `map_addr` and `map_len` of those that are. -/
structure MStore (σ μ : Type) where
  st : Store σ
  vm : μ
  map : CStr → Option (ℕ × ℕ)

namespace MStore

variable (t : MStore σ μ)

/-- Forget the mapping of a record, and undo it. -/
def drop (key : CStr) : Except Errno Unit × MStore σ μ :=
  match t.map key with
  | none => (.ok (), t)
  | some (a, n) =>
    let r := MapOs.munmap t.vm a n
    (r.1, { t with vm := r.2, map := Function.update t.map key none })

/-- A plain call. Erasing a record unmaps it (`ls_rec_free`). -/
def call [Os σ] (op : Op) : Option (Out × MStore σ μ) :=
  match op.call E t.st with
  | none => none
  | some (out, st) =>
    match op with
    | .erase key => if out.rc = .ok then some (out, { (t.drop key).2 with st }) else some (out, { t with st })
    | _ => some (out, { t with st })

/-- A vectored call. -/
def segv [Os σ] (key : CStr) (segs : List Seg) (write : Bool) :
    Option ((Rc × List (List UInt8)) × MStore σ μ) :=
  (Libspill.segv E t.st key segs write).map fun r => (r.1, { t with st := r.2 })

/-- The sum of the lengths of a record's extents, as `ls_map` computes it. -/
def mapTotal (es : List Extent) : ℕ := es.foldl (fun total e => add64 total e.len) 0

/-- `ls_map`: what it returns, and the address and the length that it hands out. The record is busy
while it is being mapped, and as before after that. -/
def lsMap (key : CStr) : (Rc × Option (ℕ × ℕ)) × MStore σ μ :=
  if !lsKeyOk key then ((.inval, none), t)
  else if t.st.o.mode ≠ .mapped then ((.mode, none), t)
  else
    match t.st.find key with
    | none => ((.nokey, none), t)
    | some r =>
      if r.size = 0 then ((.range, none), t)
      else
        match t.map key with
        | some (a, _) => ((.ok, some (a, r.size)), t)  -- already mapped: hand it back
        | none =>
          let total := mapTotal (t.st.exts r)
          match lsOsMapExtents t.vm (t.st.exts r) total with
          | (.error e, vm) => ((.errno e, none), { t with vm })
          | (.ok base, vm) => ((.ok, some (base, r.size)),
              { t with vm, map := Function.update t.map key (some (base, total)) })

/-- `ls_unmap`. -/
def lsUnmap (key : CStr) : Rc × MStore σ μ :=
  if !lsKeyOk key then (.inval, t)
  else if t.st.o.mode ≠ .mapped then (.mode, t)
  else
    match t.st.find key with
    | none => (.nokey, t)
    | some _ =>
      match t.drop key with
      | (.ok _, t) => (.ok, t)
      | (.error e, t) => (.errno e, t)

end MStore

/-! ## What the calls do -/

/-- `n` rounded up to whole pages of `pg` bytes. -/
def pagesUp (pg n : ℕ) : ℕ := (n + (pg - 1)) / pg * pg

/-- An address space whose answers can be believed. A call that fails may have changed the pages that it
was asked about, and no others. -/
class HonestMap (μ : Type) extends MapOs μ where
  page : ℕ
  page_pos : 0 < page
  /-- The place of the store file that an address shows. -/
  shows : μ → ℕ → Option ℕ
  /-- The address is part of a mapping. -/
  taken : μ → ℕ → Prop
  anon_ok : ∀ m n base, (mmapAnon m n).1 = .ok base → page ∣ base ∧ base + n ≤ 2 ^ 63 ∧
    ∀ x, base ≤ x → x < base + pagesUp page n → ¬ taken m x ∧ taken (mmapAnon m n).2 x
  anon_frame : ∀ m n x, taken m x → shows (mmapAnon m n).2 x = shows m x ∧ taken (mmapAnon m n).2 x
  fixed_ok : ∀ m a n foff, (mmapFixed m a n foff).1 = .ok () →
    page ∣ a ∧ a + n ≤ 2 ^ 63 ∧ foff + n ≤ 2 ^ 63 ∧
    ∀ x, a ≤ x → x < a + n → shows (mmapFixed m a n foff).2 x = some (foff + (x - a))
  fixed_taken : ∀ m a n foff x, (mmapFixed m a n foff).1 = .ok () → taken m x →
    taken (mmapFixed m a n foff).2 x
  fixed_frame : ∀ m a n foff x, ¬ page ∣ a ∨ x < a ∨ a + pagesUp page n ≤ x →
    shows (mmapFixed m a n foff).2 x = shows m x ∧ (taken m x → taken (mmapFixed m a n foff).2 x)
  unmap_frame : ∀ m a n x, x < a ∨ a + pagesUp page n ≤ x →
    shows (munmap m a n).2 x = shows m x ∧ (taken m x → taken (munmap m a n).2 x)

theorem le_pagesUp {pg n : ℕ} (h : 0 < pg) : n ≤ pagesUp pg n ∧ pagesUp pg n < n + pg := by
  have h1 := Nat.div_add_mod (n + (pg - 1)) pg
  have h2 := Nat.mod_lt (n + (pg - 1)) h
  rw [Nat.mul_comm] at h1
  rw [pagesUp]
  omega

theorem pagesUp_of_dvd {pg n : ℕ} (h : 0 < pg) (hd : pg ∣ n) : pagesUp pg n = n := by
  obtain ⟨k, rfl⟩ := hd
  rw [pagesUp, Nat.mul_add_div h, Nat.div_eq_of_lt (by omega), Nat.add_zero, Nat.mul_comm]

/-! ## An address space that always answers -/

/-- An address space of pages of 4096 bytes: mappings are put one after the other from page `next` on,
and no address is used twice. -/
structure Pages where
  next : ℕ
  shows : ℕ → Option ℕ

namespace Pages

/-- Nothing is mapped. -/
def blank : Pages := ⟨1, fun _ => none⟩

/-- Another view of the addresses from `a` on. -/
def look (m : Pages) (a n : ℕ) (f : ℕ → Option ℕ) : Pages :=
  { m with shows := fun x => if a ≤ x ∧ x < a + n then f x else m.shows x }

instance : MapOs Pages where
  mmapAnon m n :=
    if n = 0 then (.error .einval, m)
    else if m.next * 4096 + n ≤ 2 ^ 47 then
      (.ok (m.next * 4096), { m with next := m.next + (n + 4095) / 4096 })
    else (.error .enomem, m)
  mmapFixed m a n foff :=
    if n ≠ 0 ∧ 4096 ∣ a ∧ 4096 ∣ foff ∧ a + n ≤ 2 ^ 47 ∧ foff + n ≤ 2 ^ 63 then
      (.ok (), m.look a n fun x => some (foff + (x - a)))
    else (.error .einval, m)
  munmap m a n := (.ok (), m.look a n fun _ => none)

theorem look_shows_of_out (m : Pages) {a n x : ℕ} (f : ℕ → Option ℕ)
    (h : x < a ∨ a + pagesUp 4096 n ≤ x) : (m.look a n f).shows x = m.shows x := by
  have : n ≤ pagesUp 4096 n := (le_pagesUp (by norm_num)).1
  exact if_neg (by omega)

instance : HonestMap Pages where
  page := 4096
  page_pos := by norm_num
  shows := Pages.shows
  taken m x := x < m.next * 4096
  anon_ok m n base h := by
    simp only [MapOs.mmapAnon] at h ⊢
    split_ifs at h ⊢ with h0 hfit
    cases h
    refine ⟨Nat.dvd_mul_left _ _, by omega, fun x h1 h2 => ?_⟩
    dsimp only
    rw [pagesUp] at h2
    omega
  anon_frame m n x h := by
    simp only [MapOs.mmapAnon]
    split_ifs
    · exact ⟨rfl, h⟩
    · exact ⟨rfl, h.trans_le (Nat.mul_le_mul_right 4096 (Nat.le_add_right _ _))⟩
    · exact ⟨rfl, h⟩
  fixed_ok m a n foff h := by
    simp only [MapOs.mmapFixed] at h ⊢
    split_ifs at h ⊢ with hok
    exact ⟨hok.2.1, by omega, hok.2.2.2.2, fun x h1 h2 => if_pos ⟨h1, h2⟩⟩
  fixed_taken m a n foff x _ h := by
    simp only [MapOs.mmapFixed]
    split_ifs <;> exact h
  fixed_frame m a n foff x h := by
    simp only [MapOs.mmapFixed]
    split_ifs with hok
    · exact ⟨look_shows_of_out m _ (h.resolve_left (not_not.mpr hok.2.1)), id⟩
    · exact ⟨rfl, id⟩
  unmap_frame m a n x h := ⟨look_shows_of_out m _ h, id⟩

end Pages

end Libspill
