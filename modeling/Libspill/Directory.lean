import Libspill.Crayio

set_option autoImplicit false

/-!
# Stores by their names

`ls_open`, `ls_close` and `ls_store_exists`: `build_path` makes a path of a name, and under a path there is
a file, which is closed or which one store has open.

* `buildPath`, `buildPath_inj`: under the same options, other names are other files.
* `dirStep`: the calls of a process, on any of its stores.
* `Shelves`: what names are for. A map is kept under a path until its store is closed without `keep`.
* `Slot.Holds`: the file, or the store that has it open, holds the map.
* **`directory_answers`**: every run answers as the shelves do.
-/

namespace Libspill

/-! ## Paths -/

/-- What `build_path` makes a path of: the directory, which is `o->dir` or the temporary one, the name,
and what `resolve_rank` has made of `o->rank`. -/
structure StoreName where
  dir : List UInt8
  name : List UInt8
  rank : ℕ := 0

/-- `LS_PATH_SEP`. -/
def LS_PATH_SEP : UInt8 := 47

/-- `.libspill`. -/
def LS_PATH_EXT : List UInt8 := [46, 108, 105, 98, 115, 112, 105, 108, 108]

/-- What follows the name. Every process must name the same file of a shared store. -/
def pathSuffix (o : Opts) (rank : ℕ) : List UInt8 :=
  if o.exactName then []
  else if o.parallel = .perRank then
    [46, 114] ++ (Nat.toDigits 10 rank).map (fun c => UInt8.ofNat c.toNat) ++ LS_PATH_EXT
  else LS_PATH_EXT

/-- `build_path`. -/
def buildPath (p : StoreName) (o : Opts) : List UInt8 :=
  p.dir ++ LS_PATH_SEP :: (p.name ++ pathSuffix o p.rank)

/-- **Other names are other files.** -/
theorem buildPath_inj {p p' : StoreName} {o : Opts} (hdir : p.dir = p'.dir) (hrank : p.rank = p'.rank)
    (h : buildPath p o = buildPath p' o) : p.name = p'.name := by
  rw [buildPath, buildPath, hdir, hrank] at h
  exact List.append_cancel_right (List.cons.inj (List.append_cancel_left h)).2

/-- The file of a store has an exact name too. -/
theorem buildPath_exact (p : StoreName) (o : Opts) :
    buildPath p o =
      buildPath { p with name := p.name ++ pathSuffix o p.rank } { o with exactName := true } := by
  rw [buildPath, buildPath]
  simp [pathSuffix]

/-! ## The calls -/

/-- What is under a path: a file, or the store that has it open. -/
inductive Slot (σ : Type) where
  | closed (os : σ)
  | opened (s : Store σ)

/-- The calls of a process. One on an open store is about the path that the store was opened on. -/
inductive DirCall where
  | lsOpen (p : StoreName) (o : Opts)
  | lsStoreExists (p : StoreName) (o : Opts)
  | call (path : List UInt8) (op : Op)
  | lsClose (path : List UInt8) (keep : Bool)

/-- What a call answers. -/
inductive DirAns where
  | code (rc : Rc)
  | found (b : Bool)
  | out (out : Out)

/-- The path that a call is about. -/
def DirCall.path : DirCall → List UInt8
  | .lsOpen p o | .lsStoreExists p o => buildPath p o
  | .call path _ | .lsClose path _ => path

section Calls

variable {σ : Type}

/-- The file of a slot. -/
def Slot.os : Slot σ → σ
  | .closed os => os
  | .opened s => s.os

def Slot.withOs (os : σ) : Slot σ → Slot σ
  | .closed _ => .closed os
  | .opened s => .opened { s with os }

theorem Slot.os_withOs (os : σ) (x : Slot σ) : (x.withOs os).os = os := by
  cases x <;> rfl

variable [Os σ] (E : Env)

/-- `ls_open` by name. That a second store has the file open is not said here. -/
def Slot.lsOpen (name : List UInt8) (o : Opts) : Slot σ → Option (DirAns × Slot σ)
  | .opened _ => none
  | .closed os =>
    if name = [] then some (.code .inval, .closed os)
    else
      match Libspill.lsOpen E o os with
      | none => none
      | some (.error (rc, os)) => some (.code rc, .closed os)
      | some (.ok s) => some (.code .ok, .opened s)

/-- `ls_store_exists`. A file that is not there is an empty one. -/
def Slot.lsStoreExists (name : List UInt8) (x : Slot σ) : DirAns × Slot σ :=
  if name = [] then (.code .inval, x)
  else
    match Os.fileSize x.os with
    | (.error _, os) => (.found false, x.withOs os)
    | (.ok sz, os) => (.found (decide (0 < sz)), x.withOs os)

/-- A call on what is under its path. -/
def Slot.step (c : DirCall) (x : Slot σ) : Option (DirAns × Slot σ) :=
  match c, x with
  | .lsOpen p o, x => x.lsOpen E p.name o
  | .lsStoreExists p _, x => some (x.lsStoreExists p.name)
  | .call _ op, .opened s => (op.call E s).map fun r => (.out r.1, .opened r.2)
  | .lsClose _ keep, .opened s => (closeStore E s keep).map fun r => (.code r.1, .closed r.2)
  | .call _ _, .closed _ | .lsClose _ _, .closed _ => none

/-- A call. -/
def dirStep (c : DirCall) (d : List UInt8 → Slot σ) : Option (DirAns × (List UInt8 → Slot σ)) :=
  (Slot.step E c (d c.path)).map fun r => (r.1, Function.update d c.path r.2)

def dirRun : List DirCall → (List UInt8 → Slot σ) → Option (List DirAns × (List UInt8 → Slot σ))
  | [], d => some ([], d)
  | c :: cs, d =>
    match dirStep E c d with
    | none => none
    | some (ans, d) =>
      match dirRun cs d with
      | none => none
      | some (anss, d) => some (ans :: anss, d)

end Calls

/-! ## What names are for -/

/-- The maps under the paths that have a store. -/
abbrev Shelves : Type := List UInt8 → Option RefMap

/-- What a call answers, and what becomes of the map. -/
def shelfStep : DirCall → Option RefMap → DirAns × Option RefMap
  | .lsOpen p o, a =>
    if p.name = [] then (.code .inval, a)
    else
      match optsRefused o with
      | some rc => (.code rc, a)
      | none => (.code .ok, some (a.getD ∅))
  | .lsStoreExists p _, a => (if p.name = [] then .code .inval else .found a.isSome, a)
  | .call _ op, a => (.out (op.refStep false (a.getD ∅)).1, some (op.refStep false (a.getD ∅)).2)
  | .lsClose _ keep, a => (.code .ok, if keep then a else none)

def Shelves.run : List DirCall → Shelves → List DirAns × Shelves
  | [], t => ([], t)
  | c :: cs, t =>
    let r := shelfStep c (t c.path)
    let rs := Shelves.run cs (Function.update t c.path r.2)
    (r.1 :: rs.1, rs.2)

/-! ## Every run -/

variable {σ : Type} [HonestOs σ] {E : Env}

open HonestOs (file clean)

/-- What is under a path holds a map, or there is no store. -/
inductive Slot.Holds : Slot σ → Option RefMap → Prop
  | absent {os : σ} : (file os).len = 0 → Holds (.closed os) none
  | kept {os : σ} {s : Store σ} {m : RefMap} : Closable s → Slack s → StoredIn s (file os) →
      Unmarked s (file os) → s.map = m → Holds (.closed os) (some m)
  | opened {s : Store σ} {m : RefMap} : Settled s → s.o.parallel ≠ .shared → s.map = m →
      Holds (.opened s) (some m)

/-- What is left to the process: a file is opened by one store at a time, and not as a shared one, calls
are on open stores and fit, and what is kept can be read again. -/
def DirCall.Proper (E : Env) : DirCall → Slot σ → Prop
  | .lsOpen _ o, .closed _ => o.parallel ≠ .shared
  | .lsStoreExists _ _, _ => True
  | .call _ op, .opened s => op.Fits E s
  | .lsClose _ keep, .opened s => keep = true → Rereadable E s
  | .lsOpen _ _, .opened _ | .call _ _, .closed _ | .lsClose _ _, .closed _ => False

/-- A run of proper calls in which no call of the operating system fails. -/
def QuietCalls (E : Env) : List DirCall → (List UInt8 → Slot σ) → Prop
  | [], _ => True
  | c :: cs, d => c.Proper E (d c.path) ∧
      ∀ ans d', dirStep E c d = some (ans, d') → clean (d' c.path).os ∧ QuietCalls E cs d'

/-- A call answers as it should, if no call of the operating system fails. -/
def Slot.Answers (E : Env) (x : Slot σ) (a : Option RefMap) (c : DirCall) : Prop :=
  ∃ ans x', Slot.step E c x = some (ans, x') ∧
    (clean x'.os → ans = (shelfStep c a).1 ∧ x'.Holds (shelfStep c a).2)

section Slots

variable {x : Slot σ} {a : Option RefMap} {os : σ} {p : StoreName} {o : Opts} {path : List UInt8}

/-- A file is opened, and shows what it holds. -/
theorem Slot.Holds.shows (hF : 2 ^ 64 ≤ E.fuel) (h : (Slot.closed os).Holds a) (ho : optsRefused o = none)
    (hsh : o.parallel ≠ .shared) : ∃ r, Libspill.lsOpen E o os = some r ∧ (clean (openedOs r) →
      ∃ s, r = .ok s ∧ Settled s ∧ s.o = o ∧ s.map = a.getD ∅) := by
  cases h with
  | absent hlen =>
    obtain ⟨r, h1, h2⟩ := lsOpen_new (E := E) ho hsh hlen
    refine ⟨r, h1, fun hc => ?_⟩
    obtain ⟨direct, os', rfl, h3⟩ := h2 hc
    have hset := settled_opened hlen h1
    have hmap := abs_unique hset.sound.laid.records (sound_freshStore o direct h3.ge).2.2.2
    exact ⟨_, rfl, hset, rfl, hmap.symm⟩
  | kept hclosable hslack hstored hu hmap =>
    obtain ⟨r, h1, h2⟩ := lsOpen_storedIn hF hclosable hstored ho
    refine ⟨r, h1, fun hc => ?_⟩
    obtain ⟨s, rfl⟩ := h2.ok hu hc
    have hre := h2.reopened s rfl
    exact ⟨s, rfl, hre.settled hclosable hslack, hre.opts.1,
      (hre.map hclosable.sound.laid.records).trans hmap⟩

theorem answers_lsOpen (hF : 2 ^ 64 ≤ E.fuel) (h : x.Holds a) (hp : (DirCall.lsOpen p o).Proper E x) :
    x.Answers E a (.lsOpen p o) := by
  cases x with
  | opened s => exact hp.elim
  | closed os =>
    have hsh : o.parallel ≠ .shared := hp
    show ∃ ans x', Slot.lsOpen E p.name o (.closed os) = some (ans, x') ∧ _
    rw [Slot.lsOpen, shelfStep]
    by_cases hn : p.name = []
    · rw [if_pos hn, if_pos hn]
      exact ⟨_, _, rfl, fun _ => ⟨rfl, h⟩⟩
    rw [if_neg hn, if_neg hn]
    cases ho : optsRefused o with
    | some rc =>
      have hopen : Libspill.lsOpen E o os = some (.error (rc, os)) := by rw [Libspill.lsOpen, ho]
      rw [hopen]
      exact ⟨_, _, rfl, fun _ => ⟨rfl, h⟩⟩
    | none =>
      obtain ⟨r, h1, h2⟩ := h.shows hF ho hsh
      rw [h1]
      cases r with
      | error e =>
        refine ⟨_, _, rfl, fun hc => ?_⟩
        obtain ⟨s, hs, -⟩ := h2 hc
        cases hs
      | ok s =>
        refine ⟨_, _, rfl, fun hc => ?_⟩
        obtain ⟨s', hs, h3, h4, h5⟩ := h2 hc
        cases hs
        exact ⟨rfl, .opened h3 (by rwa [h4]) h5⟩

/-- A file has a byte when there is a store. -/
theorem Slot.Holds.len_pos (h : x.Holds a) : 0 < (file x.os).len ↔ a.isSome = true := by
  have hsuper : 0 < LS_SUPER_SIZE := by decide
  cases h with
  | absent hlen => simp [Slot.os, hlen]
  | kept hclosable _ hstored _ _ =>
    have hlo := hclosable.sound.laid.tiled.lo_le
    have hlen := hstored.len
    exact ⟨fun _ => rfl, fun _ => by rw [Slot.os]; omega⟩
  | @opened s m hset _ _ =>
    have hlo := hset.sound.laid.tiled.lo_le
    have hlen : s.al.fileEnd ≤ (file s.os).len := hset.sound.flen
    exact ⟨fun _ => rfl, fun _ => by rw [Slot.os]; omega⟩

theorem Slot.Holds.withOs (h : x.Holds a) (hfile : file os = file x.os) (hclean : clean os → clean x.os) :
    (x.withOs os).Holds a := by
  cases h with
  | absent hlen => exact .absent ((congrArg File.len hfile).trans hlen)
  | kept hclosable hslack hstored hu hmap =>
    have hfile' : file os = file _ := hfile
    exact .kept hclosable hslack (hfile'.symm ▸ hstored) (hfile'.symm ▸ hu) hmap
  | opened hset hsh hmap =>
    obtain ⟨h1, h2⟩ := withOs_spec hset.sound hfile hclean
    exact .opened ⟨h1, h2.slack hset.slack, hset.idle, hset.named⟩ hsh
      ((map_of_kept h2 hset.sound.laid.records h1.laid.records hset.slack).trans hmap)

theorem answers_lsStoreExists (h : x.Holds a) : x.Answers E a (.lsStoreExists p o) := by
  show ∃ ans x', some (x.lsStoreExists p.name) = some (ans, x') ∧ _
  rw [Slot.lsStoreExists, shelfStep]
  by_cases hn : p.name = []
  · rw [if_pos hn, if_pos hn]
    exact ⟨_, _, rfl, fun _ => ⟨rfl, h⟩⟩
  rw [if_neg hn, if_neg hn]
  have hfile := HonestOs.fileSize_file x.os
  have hsize := HonestOs.fileSize_ok x.os
  have herr := HonestOs.fileSize_err x.os
  have hclean := HonestOs.fileSize_clean x.os
  generalize Os.fileSize x.os = r at hfile hsize herr hclean ⊢
  obtain ⟨e | sz, os⟩ := r
  · refine ⟨_, _, rfl, fun hc => absurd ?_ (herr e rfl)⟩
    rwa [Slot.os_withOs] at hc
  · refine ⟨_, _, rfl, fun _ => ⟨congrArg DirAns.found ?_, h.withOs hfile hclean⟩⟩
    rw [hsize sz rfl, Bool.eq_iff_iff, decide_eq_true_eq]
    exact h.len_pos

theorem answers_onStore {op : Op} (hF : 2 ^ 64 ≤ E.fuel) (h : x.Holds a)
    (hp : (DirCall.call path op).Proper E x) : x.Answers E a (.call path op) := by
  cases x with
  | closed os => exact hp.elim
  | opened s =>
    cases h with
    | @opened _ m hset hsh hmap =>
      obtain ⟨out, s', h1, h2, h3⟩ := hset.call hF hp
      have hshared : s.shared = false := decide_eq_false hsh
      refine ⟨.out out, .opened s', ?_, fun hc => ?_⟩
      · show (op.call E s).map _ = _
        rw [h1]
        rfl
      · obtain ⟨h4, h5⟩ := h3 hc
        rw [hshared, hmap] at h4 h5
        exact ⟨congrArg DirAns.out h4, .opened h2.settled (by rwa [h2.opts.1]) h5⟩

theorem answers_lsClose {keep : Bool} (hF : 2 ^ 64 ≤ E.fuel) (h : x.Holds a)
    (hp : (DirCall.lsClose path keep).Proper E x) : x.Answers E a (.lsClose path keep) := by
  cases x with
  | closed os => exact hp.elim
  | opened s =>
    cases h with
    | @opened _ m hset hsh hmap =>
      cases keep with
      | false =>
        refine ⟨.code .ok, .closed (Os.unlink s.os), ?_, fun _ => ⟨rfl, .absent ?_⟩⟩
        · show (closeStore E s false).map _ = _
          rw [closeStore, if_neg hsh]
          rfl
        · rw [HonestOs.unlink_file]
          rfl
      | true =>
        have hre : Rereadable E s := hp rfl
        obtain ⟨rc, os, h1, h2, h3⟩ := hset.kept hF hsh hre.few
        refine ⟨.code rc, .closed os, ?_, fun hc => ?_⟩
        · show (closeStore E s true).map _ = _
          rw [h1]
          rfl
        · obtain ⟨-, rfl⟩ := h2 hc
          obtain ⟨s₁, g1, g2, g3, g4, -⟩ := h3 rfl
          have hu := unmarked_of_kept (by omega) hset hre.unmarked g1 g2 g3
          have hkept := map_of_kept g2.kept hset.sound.laid.records g2.sound.laid.records hset.slack
          exact ⟨rfl, .kept g4 (g2.kept.slack hset.slack) (g3.stored rfl) hu (hkept.trans hmap)⟩

/-- **Every call answers as it should.** -/
theorem answers_dirCall {c : DirCall} (hF : 2 ^ 64 ≤ E.fuel) (h : x.Holds a) (hp : c.Proper E x) :
    x.Answers E a c := by
  cases c with
  | lsOpen p o => exact answers_lsOpen hF h hp
  | lsStoreExists p o => exact answers_lsStoreExists h
  | call path op => exact answers_onStore hF h hp
  | lsClose path keep => exact answers_lsClose hF h hp

end Slots

section Runs

variable {d : List UInt8 → Slot σ} {t : Shelves} {c : DirCall} {cs : List DirCall}

/-- One call, on all paths. -/
theorem holds_dirStep (hF : 2 ^ 64 ≤ E.fuel) (h : ∀ path, (d path).Holds (t path))
    (hp : c.Proper E (d c.path)) : ∃ ans d', dirStep E c d = some (ans, d') ∧ (clean (d' c.path).os →
      ans = (shelfStep c (t c.path)).1 ∧
      ∀ path, (d' path).Holds (Function.update t c.path (shelfStep c (t c.path)).2 path)) := by
  obtain ⟨ans, x', h1, h2⟩ := answers_dirCall hF (h c.path) hp
  refine ⟨ans, Function.update d c.path x', by rw [dirStep, h1]; rfl, fun hc => ?_⟩
  rw [Function.update_self] at hc
  obtain ⟨h3, h4⟩ := h2 hc
  refine ⟨h3, fun path => ?_⟩
  by_cases hpath : path = c.path
  · rw [hpath, Function.update_self, Function.update_self]
    exact h4
  · rw [Function.update_of_ne hpath, Function.update_of_ne hpath]
    exact h path

theorem holds_dirRun (hF : 2 ^ 64 ≤ E.fuel) (h : ∀ path, (d path).Holds (t path))
    (hrun : QuietCalls E cs d) : ∃ d', dirRun E cs d = some ((Shelves.run cs t).1, d') ∧
      ∀ path, (d' path).Holds ((Shelves.run cs t).2 path) := by
  induction cs generalizing d t with
  | nil => exact ⟨d, rfl, h⟩
  | cons c cs ih =>
    obtain ⟨hp, hrest⟩ := hrun
    obtain ⟨ans, d₁, h1, h2⟩ := holds_dirStep hF h hp
    obtain ⟨hc, hrun₁⟩ := hrest ans d₁ h1
    obtain ⟨rfl, h3⟩ := h2 hc
    obtain ⟨d', h4, h5⟩ := ih h3 hrun₁
    refine ⟨d', ?_, h5⟩
    rw [dirRun, h1]
    dsimp only
    rw [h4]
    rfl

/-- **Names keep maps**: in every run of proper calls that begins on empty files, and in which no call of
the operating system fails, every call answers as the shelves do, and a store that is open at the end
shows the map under its path. -/
theorem directory_answers (hF : 2 ^ 64 ≤ E.fuel) {files : List UInt8 → σ}
    (hfiles : ∀ path, (file (files path)).len = 0) (hrun : QuietCalls E cs fun path => .closed (files path)) :
    ∃ d', dirRun E cs (fun path => .closed (files path)) = some ((Shelves.run cs fun _ => none).1, d') ∧
      ∀ path s, d' path = .opened s → (Shelves.run cs fun _ => none).2 path = some s.map := by
  obtain ⟨d', h1, h2⟩ := holds_dirRun hF (t := fun _ => none) (fun path => .absent (hfiles path)) hrun
  refine ⟨d', h1, fun path s hs => ?_⟩
  have h3 := h2 path
  rw [hs] at h3
  generalize (Shelves.run cs fun _ => none).2 path = a at h3 ⊢
  cases h3 with
  | opened _ _ hmap => rw [hmap]

end Runs

/-! ## On disks -/

section Disks

/-- What makes a call on a disk proper, as far as it is computed. -/
def DirCall.calm : DirCall → Slot Disk → Bool
  | .lsOpen _ o, .closed _ => decide (o.parallel ≠ .shared)
  | .lsStoreExists _ _, _ => true
  | .call _ op, .opened s => decide (op.Within ((op.key?.map fun k => (s.recAt k).size).getD 0))
  | .lsClose _ keep, .opened s => !keep || (decide (s.recs.map Rec.key ≠ []) &&
      (lsSpillAll Env.ample s).all fun q => q.2.recs.all fun r => decide (r.next < 2 ^ 32))
  | .lsOpen _ _, .opened _ | .call _ _, .closed _ | .lsClose _ _, .closed _ => false

def calmCalls : List DirCall → (List UInt8 → Slot Disk) → Bool
  | [], _ => true
  | c :: cs, d => c.calm (d c.path) &&
      (dirStep Env.ample c d).all fun r => (r.2 c.path).os.ok && calmCalls cs r.2

variable {x : Slot Disk} {a : Option RefMap} {c : DirCall}

theorem Slot.Holds.proper (h : x.Holds a) (hcalm : c.calm x = true) : c.Proper Env.ample x := by
  have hF : 2 ^ 64 ≤ Env.ample.fuel := Nat.le_refl _
  cases x with
  | closed os =>
    cases c with
    | lsOpen p o =>
      have hsh : o.parallel ≠ .shared := of_decide_eq_true hcalm
      exact hsh
    | lsStoreExists p o => trivial
    | call path op => cases hcalm
    | lsClose path keep => cases hcalm
  | opened s =>
    have hset : Settled s := by
      cases h with
      | opened hset _ _ => exact hset
    cases c with
    | lsOpen p o => cases hcalm
    | lsStoreExists p o => trivial
    | call path op =>
      refine fits_of_within hF hset.sound (fun key hkey => ?_) (of_decide_eq_true hcalm)
      rw [hkey]
      rfl
    | lsClose path keep =>
      intro hkeep
      subst hkeep
      rw [DirCall.calm, Bool.not_true, Bool.false_or, Bool.and_eq_true, decide_eq_true_eq] at hcalm
      obtain ⟨hne, hfew⟩ := hcalm
      refine ⟨fun s₁ h₁ k r hk => ?_, fun hnil => absurd (congrArg (List.map Rec.key) hnil) hne⟩
      obtain ⟨rc, s₂, h₂, hev⟩ := lsSpillAll_spec hF hset.sound
      rw [h₁] at h₂
      cases h₂
      rw [h₁, Option.all_some, List.all_eq_true] at hfew
      exact of_decide_eq_true (hfew r ((find_iff_mem hev.sound.laid.records.wf).mp hk).1)

theorem quiet_of_calm {cs : List DirCall} {d : List UInt8 → Slot Disk} {t : Shelves}
    (h : ∀ path, (d path).Holds (t path)) (hcalm : calmCalls cs d = true) : QuietCalls Env.ample cs d := by
  induction cs generalizing d t with
  | nil => trivial
  | cons c cs ih =>
    rw [calmCalls, Bool.and_eq_true] at hcalm
    have hp := (h c.path).proper hcalm.1
    obtain ⟨ans, d₁, h1, h2⟩ := holds_dirStep (Nat.le_refl _) h hp
    have hrest := hcalm.2
    rw [h1, Option.all_some, Bool.and_eq_true] at hrest
    refine ⟨hp, fun ans' d' hstep => ?_⟩
    rw [h1] at hstep
    cases hstep
    exact ⟨hrest.1, ih (h2 hrest.1).2 hrest.2⟩

/-- Two stores in one directory. -/
def nameA : StoreName := ⟨[116], [97], 0⟩

def nameB : StoreName := ⟨[116], [98], 0⟩

/-- The first store is kept and opened again, and the second one is not kept. -/
def dirCalls : List DirCall :=
  [.lsStoreExists nameA {}, .lsOpen nameA {}, .call (buildPath nameA {}) (.write keyA 3 [1, 2] 0),
    .lsOpen nameB { memoryBudget := 8 }, .lsClose (buildPath nameA {}) true,
    .call (buildPath nameB {}) (.write keyA 0 [7] 0), .lsOpen nameA {},
    .call (buildPath nameA {}) (.read keyA 3 2 0), .lsClose (buildPath nameB {}) false,
    .lsStoreExists nameB {}]

theorem directory_answers_two : ∃ d', dirRun Env.ample dirCalls (fun _ => .closed Disk.blank) =
    some ((Shelves.run dirCalls fun _ => none).1, d') ∧
      ∀ path s, d' path = .opened s → (Shelves.run dirCalls fun _ => none).2 path = some s.map := by
  have hcalm : calmCalls dirCalls (fun _ => .closed Disk.blank) = true := by decide +kernel
  exact directory_answers (Nat.le_refl _) (fun _ => rfl)
    (quiet_of_calm (t := fun _ => none) (fun _ => .absent rfl) hcalm)

end Disks

end Libspill
