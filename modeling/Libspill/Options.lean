import Libspill.Toc

set_option autoImplicit false

/-!
# Options across versions of the header

`ls_opts` grows at its end, and a caller passes the struct of the header that it was compiled against.
`ls_opts_init` and `ls_open` get by on the version which that header declares.

* `OptField`: the members, with their places where pointers and `size_t` have eight bytes.
* `lsOptsInit`, `optsCopied`, `lsOpenFrom`: `ls_opts_init`, and `ls_open` from the struct on.
* `setAll`: a caller assigns to members. `CxxOptions.toC`: the one that is `options::to_c`.
* **`opts_round_trip`**: what `ls_open` sees of what the caller has set, and what it does not look at.
-/

namespace Libspill

/-! ## The struct -/

/-- The members of `ls_opts`, in their order. -/
inductive OptField where
  | version
  | backend
  | mode
  | parallel
  | rank
  | memoryBudget
  | dir
  | directIo
  | log
  | logCtx
  | exactName
  | durableClose
deriving DecidableEq, Repr

namespace OptField

/-- `offsetof`. -/
def offset : OptField → ℕ
  | version => 0
  | backend => 4
  | mode => 8
  | parallel => 12
  | rank => 16
  | memoryBudget => 24
  | dir => 32
  | directIo => 40
  | log => 48
  | logCtx => 56
  | exactName => 64
  | durableClose => 68

/-- `sizeof`. -/
def size : OptField → ℕ
  | memoryBudget | dir | log | logCtx => 8
  | version | backend | mode | parallel | rank | directIo | exactName | durableClose => 4

/-- The version of the header that added the member. -/
def since : OptField → ℕ
  | exactName => 2
  | durableClose => 3
  | _ => 1

/-- What `ls_opts_init` sets the member to, the version apart: the rank is `-1`. -/
def preset : OptField → ℕ
  | rank => 2 ^ 32 - 1
  | _ => 0

end OptField

/-- `LS_OPTS_VERSION`. -/
def LS_OPTS_VERSION : ℕ := 3

/-- `sizeof(ls_opts)`. -/
def LS_OPTS_SIZEOF : ℕ := 72

/-- `opts_size`. -/
def optsSize : ℕ → ℕ
  | 1 => OptField.exactName.offset
  | 2 => OptField.durableClose.offset
  | 3 => LS_OPTS_SIZEOF
  | _ => 0

/-- The member of the struct at address 0 of `m`. -/
def getField (m : ℕ → UInt8) (f : OptField) : ℕ := getLE (slice m f.offset f.size)

/-- An assignment to the member. -/
def setField (m : ℕ → UInt8) (f : OptField) (v : ℕ) : ℕ → UInt8 := patch m f.offset (putLE f.size v)

/-- `ls_opts_init`. -/
def lsOptsInit (m : ℕ → UInt8) (version : ℕ) : ℕ → UInt8 :=
  let version := if version = 0 ∨ version > LS_OPTS_VERSION then LS_OPTS_VERSION else version
  let m := patch m 0 (List.replicate (optsSize version) 0)
  let m := setField m .version version
  let m := setField m .backend 0
  let m := setField m .mode 0
  let m := setField m .parallel 0
  setField m .rank (2 ^ 32 - 1)

/-- The options that `ls_open` and `ls_store_exists` go on with, `none` if the version is unknown.
`frame` is what their stack frame held. -/
def optsCopied (frame : ℕ → UInt8) (opts : Option (ℕ → UInt8)) : Option (ℕ → UInt8) :=
  let o := lsOptsInit frame LS_OPTS_VERSION
  match opts with
  | none => some o
  | some m =>
    let n := optsSize (getField m .version)
    if n = 0 then none else some (setField (patch o 0 (slice m 0 n)) .version LS_OPTS_VERSION)

/-- The options as `ls_open` reads them. -/
def readOpts (o : ℕ → UInt8) : Opts where
  backend := if getField o .backend = 1 then .hdf5 else .posix
  mode := if getField o .mode = 1 then .mapped else .explicit
  parallel := if getField o .parallel = 1 then .perRank else if getField o .parallel = 2 then .shared else .loc
  memoryBudget := getField o .memoryBudget
  directIo := getField o .directIo ≠ 0
  exactName := getField o .exactName ≠ 0
  durableClose := getField o .durableClose ≠ 0

/-- `ls_open` from the struct on. -/
def lsOpenFrom {σ : Type} [Os σ] (E : Env) (frame : ℕ → UInt8) (opts : Option (ℕ → UInt8)) (os : σ) :
    Option (Except (Rc × σ) (Store σ)) :=
  match optsCopied frame opts with
  | none => some (.error (.inval, os))
  | some o => lsOpen E (readOpts o) os

/-! ## The caller -/

/-- The caller assigns to members, one after the other. -/
def setAll (m : ℕ → UInt8) (sets : List (OptField × ℕ)) : ℕ → UInt8 :=
  sets.foldl (fun m a => setField m a.1 a.2) m

/-- What the assignments leave in a member that held `d`. -/
def lastSet (f : OptField) (d : ℕ) (sets : List (OptField × ℕ)) : ℕ :=
  sets.foldl (fun d a => if a.1 = f then a.2 else d) d

/-- `options` of the C++ layer: what becomes of `dir` is an address, 0 if it is empty. -/
structure CxxOptions extends Opts where
  rank : ℕ := 2 ^ 32 - 1
  dir : ℕ := 0

/-- `options::to_c`. -/
def CxxOptions.toC (x : CxxOptions) : List (OptField × ℕ) :=
  [(.backend, match x.backend with | .posix => 0 | .hdf5 => 1),
    (.mode, match x.mode with | .explicit => 0 | .mapped => 1),
    (.parallel, match x.parallel with | .loc => 0 | .perRank => 1 | .shared => 2),
    (.rank, x.rank), (.memoryBudget, x.memoryBudget), (.dir, x.dir),
    (.directIo, if x.directIo then 1 else 0), (.exactName, if x.exactName then 1 else 0),
    (.durableClose, if x.durableClose then 1 else 0)]

/-! ## Members are apart -/

section Fields

variable {m m' : ℕ → UInt8} {f f' : OptField} {v n x : ℕ} {sets : List (OptField × ℕ)}

theorem OptField.apart (f f' : OptField) : f ≠ f' →
    f.offset + f.size ≤ f'.offset ∨ f'.offset + f'.size ≤ f.offset := by
  cases f <;> cases f' <;> decide

/-- A version declares a member with all of its bytes, or with none. -/
theorem OptField.declared (f : OptField) (hv : v = 1 ∨ v = 2 ∨ v = 3) :
    if f.since ≤ v then f.offset + f.size ≤ optsSize v else optsSize v ≤ f.offset := by
  rcases hv with rfl | rfl | rfl <;> cases f <;> decide

theorem getField_congr (h : ∀ x, x < f.offset + f.size → f.offset ≤ x → m x = m' x) :
    getField m f = getField m' f := by
  rw [getField, getField]
  congr 1
  exact slice_congr fun i hi => h _ (by omega) (by omega)

/-- A member reads as it was set, and the others as before. -/
theorem getField_setField (m : ℕ → UInt8) (hv : v < 256 ^ f.size) :
    getField (setField m f v) f' = if f = f' then v else getField m f' := by
  have hlen := length_putLE f.size v
  split_ifs with h
  · subst h
    have := slice_patch m f.offset (putLE f.size v)
    rw [hlen] at this
    rw [getField, setField, this, getLE_putLE, Nat.mod_eq_of_lt hv]
  · refine getField_congr fun x h1 h2 => ?_
    rcases OptField.apart f f' h with h3 | h3
    · exact patch_of_ge (by omega)
    · exact patch_of_lt (by omega)

theorem setField_of_ge (h : f.offset + f.size ≤ x) : setField m f v x = m x :=
  patch_of_ge (by rwa [length_putLE])

/-- What is copied reads as the original. -/
theorem patch_slice_of_lt (h : x < n) : patch m 0 (slice m' 0 n) x = m' x := by
  have hat : patch m 0 (slice m' 0 n) (0 + x) = (slice m' 0 n).getD x 0 :=
    patch_add (by rwa [length_slice])
  rw [Nat.zero_add] at hat
  rw [hat, getD_slice _ _ _ _ h, Nat.zero_add]

theorem getLE_zeros (n : ℕ) : getLE (List.replicate n 0) = 0 := by
  induction n with
  | zero => rfl
  | succ n ih => rw [List.replicate_succ, getLE, ih]; rfl

/-- Zeros read as 0. -/
theorem getField_zeros (h : f.offset + f.size ≤ n) : getField (patch m 0 (List.replicate n 0)) f = 0 := by
  have hz : slice (patch m 0 (List.replicate n 0)) f.offset f.size = slice (fun _ => 0) f.offset f.size := by
    refine slice_congr fun i hi => ?_
    have hat : patch m 0 (List.replicate n 0) (0 + (f.offset + i)) = (List.replicate n 0).getD (f.offset + i) 0 :=
      patch_add (by rw [List.length_replicate]; omega)
    rw [Nat.zero_add] at hat
    rw [hat, List.getD_eq_getElem _ _ (by rw [List.length_replicate]; omega), List.getElem_replicate]
  rw [getField, hz]
  have hrep : slice (fun _ => 0) f.offset f.size = List.replicate f.size 0 := by
    simp [slice, List.map_const']
  rw [hrep, getLE_zeros]

/-- Assignments within what a version declares do not reach past its struct. -/
theorem setAll_of_ge (hv : v = 1 ∨ v = 2 ∨ v = 3) (hsets : ∀ a ∈ sets, a.1.since ≤ v)
    (hx : optsSize v ≤ x) :
    setAll m sets x = m x := by
  induction sets generalizing m with
  | nil => rfl
  | cons a sets ih =>
    have hd := a.1.declared hv
    rw [if_pos (hsets a List.mem_cons_self)] at hd
    exact (ih fun b hb => hsets b (List.mem_cons_of_mem _ hb)).trans (setField_of_ge (by omega))

/-- A member reads as it was set last. -/
theorem getField_setAll (hsets : ∀ a ∈ sets, a.2 < 256 ^ a.1.size) :
    getField (setAll m sets) f = lastSet f (getField m f) sets := by
  induction sets generalizing m with
  | nil => rfl
  | cons a sets ih =>
    have ha := hsets a List.mem_cons_self
    show getField (setAll (setField m a.1 a.2) sets) f =
      lastSet f (if a.1 = f then a.2 else getField m f) sets
    rw [ih fun b hb => hsets b (List.mem_cons_of_mem _ hb), getField_setField m ha]

theorem lastSet_of_forall_ne {d : ℕ} (h : ∀ a ∈ sets, a.1 ≠ f) : lastSet f d sets = d := by
  induction sets generalizing d with
  | nil => rfl
  | cons a sets ih =>
    show lastSet f (if a.1 = f then a.2 else d) sets = d
    rw [if_neg (h a List.mem_cons_self)]
    exact ih fun b hb => h b (List.mem_cons_of_mem _ hb)

end Fields

/-! ## What the library sees -/

section Versions

variable {m m' : ℕ → UInt8} {f : OptField} {v x : ℕ} {sets : List (OptField × ℕ)}

theorem optsSize_ne_zero (hv : v = 1 ∨ v = 2 ∨ v = 3) : optsSize v ≠ 0 := by
  rcases hv with rfl | rfl | rfl <;> decide

theorem optsSize_eq_zero : optsSize v = 0 ↔ ¬(v = 1 ∨ v = 2 ∨ v = 3) := by
  constructor
  · exact fun h hv => optsSize_ne_zero hv h
  · intro h
    unfold optsSize
    split <;> simp_all

theorem lsOptsInit_eq (m : ℕ → UInt8) (hv : v = 1 ∨ v = 2 ∨ v = 3) :
    lsOptsInit m v = setAll (patch m 0 (List.replicate (optsSize v) 0))
      [(.version, v), (.backend, 0), (.mode, 0), (.parallel, 0), (.rank, 2 ^ 32 - 1)] := by
  have h : ¬(v = 0 ∨ v > LS_OPTS_VERSION) := by
    rcases hv with rfl | rfl | rfl <;> decide
  rw [lsOptsInit, if_neg h]
  rfl

/-- `ls_opts_init` sets what the version declares. -/
theorem getField_init (hv : v = 1 ∨ v = 2 ∨ v = 3) (hf : f.since ≤ v) :
    getField (lsOptsInit m v) f = if f = .version then v else f.preset := by
  have hd := f.declared hv
  rw [if_pos hf] at hd
  have hlt : v < 256 ^ 4 := by
    rcases hv with rfl | rfl | rfl <;> decide
  rw [lsOptsInit_eq m hv, getField_setAll fun a ha => ?_, getField_zeros hd]
  · cases f <;> rfl
  · fin_cases ha
    · exact hlt
    all_goals decide

/-- `ls_opts_init` writes nothing past what the version declares. -/
theorem lsOptsInit_of_ge (hv : v = 1 ∨ v = 2 ∨ v = 3) (hx : optsSize v ≤ x) : lsOptsInit m v x = m x := by
  rw [lsOptsInit_eq m hv, setAll_of_ge hv ?_ hx]
  · exact patch_of_ge (by rwa [List.length_replicate, Nat.zero_add])
  · intro a ha
    have : a.1.since = 1 := by
      fin_cases ha <;> rfl
    omega

/-- **What `ls_open` copies**: the members that the version of the caller's struct declares, and presets
for the others. -/
theorem getField_copied (frame : ℕ → UInt8)
    (hv : getField m .version = 1 ∨ getField m .version = 2 ∨ getField m .version = 3) :
    ∃ o, optsCopied frame (some m) = some o ∧ ∀ f, getField o f =
      if f = .version then LS_OPTS_VERSION
      else if f.since ≤ getField m .version then getField m f else f.preset := by
  refine ⟨_, if_neg (optsSize_ne_zero hv), fun f => ?_⟩
  rw [getField_setField _ (by decide)]
  by_cases hf : f = .version
  · rw [if_pos hf, if_pos hf.symm]
  rw [if_neg hf, if_neg (Ne.symm hf)]
  have hd := f.declared hv
  generalize getField m .version = v at hv hd ⊢
  split_ifs at hd ⊢ with hs
  · exact getField_congr fun x h1 _ => patch_slice_of_lt (by omega)
  · have hkeep : getField (patch (lsOptsInit frame LS_OPTS_VERSION) 0 (slice m 0 (optsSize v))) f =
        getField (lsOptsInit frame LS_OPTS_VERSION) f :=
      getField_congr fun x h1 h2 => patch_of_ge (by rw [length_slice]; omega)
    have hnew : f.since ≤ LS_OPTS_VERSION := by cases f <;> decide
    rw [hkeep, getField_init (v := LS_OPTS_VERSION) (Or.inr (Or.inr rfl)) hnew, if_neg hf]

/-- `ls_open` sees what the caller has set last, and presets elsewhere. -/
theorem getField_seen (frame : ℕ → UInt8) (hv : v = 1 ∨ v = 2 ∨ v = 3)
    (hsets : ∀ a ∈ sets, a.1.since ≤ v ∧ a.1 ≠ .version ∧ a.2 < 256 ^ a.1.size)
    (hm : ∀ x, x < optsSize v → m' x = setAll (lsOptsInit m v) sets x) :
    ∃ o, optsCopied frame (some m') = some o ∧
      ∀ f, f ≠ .version → getField o f = lastSet f f.preset sets := by
  have hread : ∀ f : OptField, f.since ≤ v → getField m' f =
      lastSet f (if f = .version then v else f.preset) sets := by
    intro f hf
    have hd := f.declared hv
    rw [if_pos hf] at hd
    rw [getField_congr fun x h1 _ => hm x (by omega), getField_setAll fun a ha => (hsets a ha).2.2,
      getField_init hv hf]
  have hversion : getField m' .version = v := by
    have h1 : OptField.version.since ≤ v := by
      rcases hv with rfl | rfl | rfl <;> decide
    rw [hread .version h1, if_pos rfl]
    exact lastSet_of_forall_ne fun a ha => (hsets a ha).2.1
  obtain ⟨o, h1, h2⟩ := getField_copied (m := m') frame (by rwa [hversion])
  refine ⟨o, h1, fun f hf => ?_⟩
  rw [h2 f, if_neg hf, hversion]
  split_ifs with hs
  · rw [hread f hs, if_neg hf]
  · refine (lastSet_of_forall_ne fun a ha he => hs ?_).symm
    rw [← he]
    exact (hsets a ha).1

theorem readOpts_congr {o o' : ℕ → UInt8} (h : ∀ f, f ≠ .version → getField o f = getField o' f) :
    readOpts o = readOpts o' := by
  have hne : ∀ f : OptField, f ≠ .version → getField o f = getField o' f := h
  simp only [readOpts, hne .backend (by decide), hne .mode (by decide), hne .parallel (by decide),
    hne .memoryBudget (by decide), hne .directIo (by decide), hne .exactName (by decide),
    hne .durableClose (by decide)]

end Versions

section Callers

variable {σ : Type} [Os σ] {E : Env}

/-- A struct of a version that the library does not know is refused before the file is looked at. -/
theorem lsOpenFrom_unknown {m : ℕ → UInt8} (frame : ℕ → UInt8) (os : σ)
    (hv : ¬(getField m .version = 1 ∨ getField m .version = 2 ∨ getField m .version = 3)) :
    lsOpenFrom E frame (some m) os = some (.error (.inval, os)) := by
  rw [lsOpenFrom, optsCopied, if_pos (optsSize_eq_zero.mpr hv)]

/-- **Options reach the library across versions of the header.** A caller that was compiled against
version `v` calls `ls_opts_init` with it and assigns to members that this version declares, in any
order. No byte past its struct is written, `ls_open` sees what it has set last and presets elsewhere, and
the outcome does not depend on the bytes past the struct nor on the library's stack. -/
theorem opts_round_trip {v : ℕ} (hv : v = 1 ∨ v = 2 ∨ v = 3) {sets : List (OptField × ℕ)}
    (hsets : ∀ a ∈ sets, a.1.since ≤ v ∧ a.1 ≠ .version ∧ a.2 < 256 ^ a.1.size)
    (m frame : ℕ → UInt8) (os : σ) :
    (∀ x, optsSize v ≤ x → setAll (lsOptsInit m v) sets x = m x) ∧
    (∃ o, optsCopied frame (some (setAll (lsOptsInit m v) sets)) = some o ∧
      ∀ f, f ≠ .version → getField o f = lastSet f f.preset sets) ∧
    ∀ m' frame', (∀ x, x < optsSize v → m' x = setAll (lsOptsInit m v) sets x) →
      lsOpenFrom E frame' (some m') os = lsOpenFrom E frame (some (setAll (lsOptsInit m v) sets)) os := by
  obtain ⟨o, h1, h2⟩ := getField_seen frame hv hsets fun x _ => rfl
  refine ⟨fun x hx => ?_, ⟨o, h1, h2⟩, fun m' frame' hm => ?_⟩
  · rw [setAll_of_ge hv (fun a ha => (hsets a ha).1) hx, lsOptsInit_of_ge hv hx]
  · obtain ⟨o', h3, h4⟩ := getField_seen frame' hv hsets hm
    rw [lsOpenFrom, lsOpenFrom, h1, h3]
    dsimp only
    rw [readOpts_congr fun f hf => (h4 f hf).trans (h2 f hf).symm]

theorem opts_round_trip_first : ∃ o, optsCopied (fun _ => 7) (some (setAll (lsOptsInit (fun _ => 9) 1)
    [(.memoryBudget, 4096), (.directIo, 1)])) = some o ∧
      ∀ f, f ≠ .version → getField o f = lastSet f f.preset [(.memoryBudget, 4096), (.directIo, 1)] :=
  (opts_round_trip (E := ⟨9, fun _ => 0, 0, 0⟩) (Or.inl rfl) (by decide) (fun _ => 9) (fun _ => 7)
    Disk.blank).2.1

/-- What `options::to_c` assigns are members of the newest version, and fits. -/
theorem CxxOptions.sets_ok {x : CxxOptions} (hbudget : x.memoryBudget < 2 ^ 64) (hrank : x.rank < 2 ^ 32)
    (hdir : x.dir < 2 ^ 64) :
    ∀ a ∈ x.toC, a.1.since ≤ LS_OPTS_VERSION ∧ a.1 ≠ .version ∧ a.2 < 256 ^ a.1.size := by
  have hbit : ∀ b : Bool, (if b then 1 else 0) < 256 ^ 4 := by decide
  simp only [CxxOptions.toC, List.forall_mem_cons, List.not_mem_nil, false_imp_iff, implies_true, and_true]
  refine ⟨⟨by decide, by decide, ?_⟩, ⟨by decide, by decide, ?_⟩, ⟨by decide, by decide, ?_⟩,
    ⟨by decide, by decide, ?_⟩, ⟨by decide, by decide, ?_⟩, ⟨by decide, by decide, ?_⟩,
    ⟨by decide, by decide, hbit _⟩, ⟨by decide, by decide, hbit _⟩, ⟨by decide, by decide, hbit _⟩⟩
  · cases x.backend <;> decide
  · cases x.mode <;> decide
  · cases x.parallel <;> decide
  · exact hrank.trans_le (by decide)
  · exact hbudget.trans_le (by decide)
  · exact hdir.trans_le (by decide)

/-- A store that is opened through the C++ layer has the options it was opened with. -/
theorem lsOpenFrom_toC {x : CxxOptions} (hbudget : x.memoryBudget < 2 ^ 64) (hrank : x.rank < 2 ^ 32)
    (hdir : x.dir < 2 ^ 64) (m frame : ℕ → UInt8) (os : σ) :
    lsOpenFrom E frame (some (setAll (lsOptsInit m LS_OPTS_VERSION) x.toC)) os = lsOpen E x.toOpts os := by
  obtain ⟨o, h1, h2⟩ := getField_seen (v := LS_OPTS_VERSION) (m := m) frame (Or.inr (Or.inr rfl))
    (CxxOptions.sets_ok hbudget hrank hdir) fun x _ => rfl
  have hread : readOpts o = x.toOpts := by
    obtain ⟨⟨backend, mode, parallel, budget, direct, exact, durable⟩, rank, dir⟩ := x
    have hbackend : (readOpts o).backend = backend := by
      rw [readOpts, h2 .backend (by decide)]
      cases backend <;> rfl
    have hmode : (readOpts o).mode = mode := by
      rw [readOpts, h2 .mode (by decide)]
      cases mode <;> rfl
    have hparallel : (readOpts o).parallel = parallel := by
      rw [readOpts, h2 .parallel (by decide)]
      cases parallel <;> rfl
    have hbudget' : (readOpts o).memoryBudget = budget := h2 .memoryBudget (by decide)
    have hdirect : (readOpts o).directIo = direct := by
      rw [readOpts, h2 .directIo (by decide)]
      cases direct <;> rfl
    have hexact : (readOpts o).exactName = exact := by
      rw [readOpts, h2 .exactName (by decide)]
      cases exact <;> rfl
    have hdurable : (readOpts o).durableClose = durable := by
      rw [readOpts, h2 .durableClose (by decide)]
      cases durable <;> rfl
    show Opts.mk (readOpts o).backend (readOpts o).mode (readOpts o).parallel (readOpts o).memoryBudget
      (readOpts o).directIo (readOpts o).exactName (readOpts o).durableClose = _
    rw [hbackend, hmode, hparallel, hbudget', hdirect, hexact, hdurable]
  rw [lsOpenFrom, h1]
  dsimp only
  rw [hread]

end Callers

end Libspill
