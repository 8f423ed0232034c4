import Libspill.Open
import Libspill.Pending

set_option autoImplicit false

/-!
# A store used by one thread

* `call_spec`: a whole call against the reference map. `read_call`: a read of what is there.
* `runOps_spec`: a sequence of calls.
* `sound_freshStore`: a freshly opened store.
* **`run_refines_map`**: whatever the calls and the memory budget, a buffered store answers as the
  reference map does.
-/

namespace Libspill

variable {σ : Type} [HonestOs σ] {E : Env}

open HonestOs (clean file)

/-- No byte is on its way. -/
def Nowhere : CStr → ℕ → Prop := fun _ _ => False

/-- No transfer is under way. -/
def Idle (s : Store σ) : Prop := ∀ k, (s.recAt k).busy = 0

/-- A whole call, against the reference map. -/
structure Called (op : Op) (s : Store σ) (out : Out) (s' : Store σ) : Prop where
  sound : Sound s'
  opts : s'.o = s.o ∧ s'.direct = s.direct
  clean : clean s'.os → clean s.os
  slack : Slack s → Slack s'
  idle : Idle s → Idle s'
  map : HonestOs.clean s'.os ∨ out.rc = .ok → Slack s → ∀ m, Abs Nowhere s m →
    out = (op.refStep s.shared m).1 ∧ Abs Nowhere s' (op.refStep s.shared m).2

section

variable {s s' : Store σ} {key : CStr} {op : Op}

theorem Stays.busy (h : Stays key s s') {k : CStr} (hk : k ≠ key) :
    (s'.recAt k).busy = (s.recAt k).busy := by
  cases hf : s.find k with
  | none => rw [recAt_of_none hf, recAt_of_none (h.none k hk hf)]
  | some r =>
    obtain ⟨r', hr', hkept⟩ := h.some k r hk hf
    rw [recAt_of_find hf, recAt_of_find hr', hkept.busy]

omit [HonestOs σ] in
theorem Untouched.recAt [HonestOs σ] {T : Set Loc} (h : Untouched T s s') (k : CStr) :
    s'.recAt k = s.recAt k := by
  rw [h.rest]
  rfl

theorem refStep_of_key (hkey : op.key? = some key) (sh : Bool) (m : RefMap) :
    op.refStep sh m = ((op.apply sh (m.lookup key)).1, m.put key (op.apply sh (m.lookup key)).2) := by
  rw [Op.refStep, hkey]

/-- **A whole call.** -/
theorem call_spec (hF : 2 ^ 64 ≤ E.fuel) (h : Sound s) (hfit : op.Fits E s) :
    ∃ out s', op.call E s = some (out, s') ∧ Called op s out s' := by
  cases hkey : op.key? with
  | none =>
    cases op with
    | keys =>
      refine ⟨_, _, rfl, h, ⟨rfl, rfl⟩, id, id, id, fun _ _ m ha => ⟨?_, ha⟩⟩
      rw [ha.keys h.laid.records.wf]
      rfl
    | _ => cases hkey
  | some key =>
    obtain ⟨ent, s₁, h1, h2⟩ := enter_spec hF h hkey hfit
    have hsh : ∀ m, op.refStep s.shared m = _ := refStep_of_key hkey s.shared
    rw [Op.call, h1]
    cases ent with
    | done out =>
      refine ⟨out, s₁, rfl, h2.sound, h2.stays.opts, h2.stays.clean, h2.stays.slack,
        fun hi k => ?_, fun hc hs m ha => ?_⟩
      · by_cases hk : k = key
        · rw [hk, h2.busy (Or.inr (hi key)), hi key]
          rfl
        · rw [h2.stays.busy hk, hi k]
      · rw [hsh]
        refine (h2.ended out rfl).elim (fun hr => absurd hc (not_or.mpr ⟨hr.dirty, hr.rc⟩))
          fun he => he hs _ m ha
    | xfer x pl p =>
      obtain ⟨hx, -, pd, r, rfl, -, hready, -, hmap⟩ := h2.going x pl p rfl
      have hpend := hready.pending h2.sound
      obtain ⟨out, s₂, h3, h4, h5⟩ := hpend.exec
      have hsound := sound_untouched h2.sound hpend.targets h5
      obtain ⟨r₂, hr₂⟩ := h4.snap
      obtain ⟨g1, g2, g3, -⟩ := unpin_spec hsound hr₂.find
      have hos : s₂.o = s₁.o ∧ s₂.direct = s₁.direct := by rw [h5.rest]; exact ⟨rfl, rfl⟩
      dsimp only
      rw [h3]
      refine ⟨out, _, rfl, g1, ⟨?_, ?_⟩, fun hc => h2.stays.clean (h5.clean hc),
        fun hs => g2.slack (slack_untouched h2.sound.laid hpend.targets h5 (h2.stays.slack hs)),
        fun hi k => ?_, fun hc hs m ha => ?_⟩
      · rw [g2.opts.1, hos.1, h2.stays.opts.1]
      · rw [g2.opts.2, hos.2, h2.stays.opts.2]
      · by_cases hk : k = pd.x.key
        · have hb := h2.busy (Or.inr (hi key))
          rw [← hx, ← h5.recAt, recAt_of_find hr₂.find, hi] at hb
          rw [hk, recAt_of_find g3, hb]
          rfl
        · rw [g2.busy hk, h5.recAt, h2.stays.busy (hx ▸ hk), hi k]
      · obtain ⟨e1, e2, e3⟩ := hmap hs _ m ha (op.clear_of_none fun _ => id)
        have hs₂ := slack_untouched h2.sound.laid hpend.targets h5 (h2.stays.slack hs)
        have htarget : Targets s₁ pd.x.key (withXfer Nowhere pd.x pd.x.key)
            (pd.foot s₁.direct).T := fun l hl => by
          obtain ⟨q, i, q1, q2, q3, q4⟩ := hpend.targets l hl
          exact ⟨q, i, q1, q2, Or.inr ⟨q3.1, rfl, q3.2⟩, q4⟩
        have ha₂ := abs_untouched h2.sound.laid e2 htarget h5
        rw [hsh]
        refine ⟨(h4.settle hc).1.trans e1, h4.landed hsound hs₂ hc ha₂ (fun _ _ => Or.inr) fun hw => ?_⟩
        obtain ⟨e, he, hb⟩ := e3 hw
        exact ⟨e, by rw [RefMap.lookup_put, if_pos hx.symm, he], hb⟩

/-- A read of bytes that a record has. -/
theorem read_call (hF : 2 ^ 64 ≤ E.fuel) (h : Sound s) (hs : Slack s) {r : Rec}
    (hkey : lsKeyOk key = true) (hk : s.find key = some r) {off n : ℕ} (hn : off + n ≤ r.size)
    (addr : ℕ) : ∃ out s', (Op.read key off n addr).call E s = some (out, s') ∧
      (HonestOs.clean s'.os ∨ out.rc = .ok →
        out = { rc := .ok, data := slice (s.content r) off n }) := by
  have hsize := size_lt h key
  rw [recAt_of_find hk] at hsize
  obtain ⟨out, s', h1, h2⟩ := call_spec hF h
    (show (Op.read key off n addr).Fits E s from ⟨by omega, by omega⟩)
  refine ⟨out, s', h1, fun hc => ?_⟩
  have hm := h2.map hc hs s.map (abs_map h.laid.records hs)
  have hlen : (s.entry r).bytes.length = r.size := by simp [Store.entry]
  rw [hm.1, refStep_of_key rfl, lookup_map h.laid.records, hk]
  simp only [Op.apply, hkey, Bool.not_true, Bool.false_eq_true, if_false, Option.map_some, hlen,
    if_neg (show ¬ off + n ≥ 2 ^ 64 by omega), if_neg (show ¬ off + n > r.size by omega)]
  rw [← Entry.slice_byte (by omega)]
  congr 1
  exact slice_congr fun i hi =>
    (((matches_entry hs hk (d := fun _ => False)).bytes (off + i) id).symm)

end

/-! ## Runs -/

/-- The arguments of a call on a record of `size` bytes: 64-bit numbers, and where the call asks for
room an end below `2 ^ 63`. -/
def Op.Within (size : ℕ) : Op → Prop
  | .write _ off buf _ => off + buf.length < 2 ^ 63
  | .read _ off n _ => off < 2 ^ 64 ∧ n < 2 ^ 64
  | .append _ buf _ => size + buf.length < 2 ^ 63
  | .reserve _ nbytes => nbytes < 2 ^ 63
  | _ => True

instance (size : ℕ) : ∀ op : Op, Decidable (op.Within size)
  | .write _ off buf _ => inferInstanceAs (Decidable (off + buf.length < 2 ^ 63))
  | .read _ off n _ => inferInstanceAs (Decidable (off < 2 ^ 64 ∧ n < 2 ^ 64))
  | .append _ buf _ => inferInstanceAs (Decidable (size + buf.length < 2 ^ 63))
  | .reserve _ nbytes => inferInstanceAs (Decidable (nbytes < 2 ^ 63))
  | .erase _ | .size _ | .exists _ | .setAttr _ _ | .getAttr _ _ | .keys => isTrue trivial

/-- The size of the record a call is about. -/
def RefMap.sizeFor (m : RefMap) (op : Op) : ℕ :=
  ((op.key?.bind fun k => m.lookup k).getD {}).bytes.length

/-- Every call of a sequence is within bounds when its turn comes. -/
def RefMap.Within (sh : Bool) : List Op → RefMap → Prop
  | [], _ => True
  | op :: ops, m => op.Within (m.sizeFor op) ∧ RefMap.Within sh ops (op.refStep sh m).2

/-- No call of the operating system fails while the calls `ops` are made. -/
def CleanRun (E : Env) (ops : List Op) (s : Store σ) : Prop :=
  ∀ pre, pre <+: ops → ∀ outs s', runOps E pre s = some (outs, s') → clean s'.os

section

variable {s : Store σ}

theorem fits_of_within (hF : 2 ^ 64 ≤ E.fuel) (h : Sound s) {op : Op} {size : ℕ}
    (hsize : ∀ key, op.key? = some key → (s.recAt key).size = size) (hw : op.Within size) :
    op.Fits E s := by
  cases op with
  | write key off buf addr =>
    have hw' : off + buf.length < 2 ^ 63 := hw
    exact ⟨by omega, by omega, fun _ => roomFits_of_le hF h hw'.le⟩
  | read key off n addr => exact hw
  | append key buf addr =>
    have hw' : size + buf.length < 2 ^ 63 := hw
    rw [← hsize key rfl] at hw'
    obtain ⟨h1, -⟩ := lsTocFindOrInsert_spec h key
    exact ⟨by omega, fun _ => roomFits_of_le hF h1 hw'.le⟩
  | reserve key nbytes =>
    have hw' : nbytes < 2 ^ 63 := hw
    exact ⟨by omega, roomFits_of_le hF h hw'.le⟩
  | _ => trivial

theorem size_of_abs {D : CStr → ℕ → Prop} {m : RefMap} (ha : Abs D s m) {op : Op} (key : CStr)
    (hkey : op.key? = some key) : (s.recAt key).size = m.sizeFor op := by
  rw [(ha.recAt key).size, RefMap.sizeFor, hkey]
  rfl

/-- A sequence of calls against the reference map. -/
theorem runOps_spec (hF : 2 ^ 64 ≤ E.fuel) (ops : List Op) {s : Store σ} {m : RefMap} (h : Sound s)
    (hs : Slack s) (hi : Idle s) (ha : Abs Nowhere s m) (hw : m.Within s.shared ops) (hc : CleanRun E ops s) :
    ∃ outs s', runOps E ops s = some (outs, s') ∧ outs = (refRun s.shared ops m).1 ∧ Sound s' ∧
      Slack s' ∧ Idle s' ∧ (s'.o = s.o ∧ s'.direct = s.direct) ∧
      Abs Nowhere s' (refRun s.shared ops m).2 := by
  induction ops generalizing s m with
  | nil => exact ⟨[], s, rfl, rfl, h, hs, hi, ⟨rfl, rfl⟩, ha⟩
  | cons op ops ih =>
    obtain ⟨hw1, hw2⟩ := hw
    obtain ⟨out, s₁, h1, h2⟩ := call_spec hF h (fits_of_within hF h (size_of_abs ha) hw1)
    have hc₁ : clean s₁.os := hc [op] (by simp) [out] s₁ (by simp [runOps, h1])
    obtain ⟨e1, e2⟩ := h2.map (Or.inl hc₁) hs m ha
    have hsh : s₁.shared = s.shared := by rw [Store.shared, Store.shared, h2.opts.1]
    have hrun : ∀ pre, runOps E (op :: pre) s =
        (runOps E pre s₁).map fun r => (out :: r.1, r.2) := by
      intro pre
      rw [runOps, h1]
      dsimp only
      cases runOps E pre s₁ <;> rfl
    obtain ⟨outs, s', g1, g2, g3, gs, g4, g5, g6⟩ := ih h2.sound (h2.slack hs) (h2.idle hi) e2 (by rwa [hsh])
      fun pre hpre outs s' hr => hc (op :: pre) (by simpa using hpre) (out :: outs) s'
        (by rw [hrun, hr]; rfl)
    rw [hsh] at g2 g6
    exact ⟨out :: outs, s', by rw [hrun, g1]; rfl, by rw [g2, e1]; rfl, g3, gs, g4,
      ⟨g5.1.trans h2.opts.1, g5.2.trans h2.opts.2⟩, g6⟩

end

/-! ## A new store -/

theorem sound_freshStore (o : Opts) (direct : Bool) {os : σ} (h : LS_SUPER_SIZE ≤ (file os).len) :
    Sound (freshStore o direct os) ∧ Slack (freshStore o direct os) ∧
      Idle (freshStore o direct os) ∧ Abs Nowhere (freshStore o direct os) ∅ := by
  have hwf : (freshStore o direct os).toc.WF := Chained.wf_empty (by norm_num)
  have hrecs : (freshStore o direct os).recs = [] := Chained.toList_empty 64
  have hfind : ∀ k, (freshStore o direct os).find k = none := fun k => by
    by_contra hk
    obtain ⟨r, hr⟩ := Option.ne_none_iff_exists'.mp hk
    have := ((find_iff_mem hwf).mp hr).1
    rw [hrecs] at this
    cases this
  have hlive : (freshStore o direct os).live = [] := by rw [Store.live, hrecs]; rfl
  refine ⟨⟨⟨⟨hwf, ?_, ?_, ?_⟩, ⟨List.nodup_nil, ?_, ?_, by norm_num [freshStore], fun _ _ _ => rfl, ?_⟩,
    ?_, rfl⟩, h⟩, ⟨?_, ?_⟩, fun k => ?_, ⟨fun k _ => rfl, ?_⟩⟩
  · exact fun k r hr => by rw [hfind] at hr; cases hr
  · exact fun k _ r _ _ hr => by rw [hfind] at hr; cases hr
  · exact fun k _ r _ _ hr => by rw [hfind] at hr; cases hr
  · refine fun k => ⟨fun h => (by cases h), ?_⟩
    rintro ⟨r, hr, -⟩
    rw [hfind] at hr
    cases hr
  · rw [hrecs]; rfl
  · exact fun _ k r hr => by rw [hfind] at hr; cases hr
  · rw [hlive]
    exact Tiling.empty (by decide)
  · exact fun k r _ _ hr => by rw [hfind] at hr; cases hr
  · exact fun k r _ _ hr => by rw [hfind] at hr; cases hr
  · rw [recAt_of_none (hfind k)]
  · exact fun k r hr => by rw [hfind] at hr; cases hr

/-- Opening a store whose file is empty. -/
theorem lsOpen_empty {o : Opts} {os : σ} {s : Store σ} (hfile : (file os).len = 0)
    (hopen : lsOpen E o os = some (.ok s)) :
    ∃ direct os', s = freshStore o direct os' ∧ LS_SUPER_SIZE ≤ (file os').len ∧
      o.parallel ≠ .shared ∧ (direct = true → o.directIo = true) := by
  unfold lsOpen at hopen
  split at hopen
  · cases hopen
  split at hopen
  · cases hopen
  next direct os₁ h1 =>
  have hf₁ : file os₁ = file os := by
    have := HonestOs.openRw_file os o.directIo
    rwa [h1] at this
  split at hopen
  · cases hopen
  next fsize os₂ h2 =>
  have hf₂ : file os₂ = file os := by
    have := HonestOs.fileSize_file os₁
    rw [h2] at this
    exact this.trans hf₁
  have hsize : fsize = 0 := by
    have := HonestOs.fileSize_ok os₁ fsize (by rw [h2])
    rw [this, hf₁, hfile]
  subst hsize
  rw [if_neg (by decide), if_neg (by decide)] at hopen
  split_ifs at hopen with hsh
  · cases hopen
  split at hopen
  · cases hopen
  next u os₃ h3 =>
  have hf₃ : file os₃ = (file os₂).truncate LS_SUPER_SIZE := by
    have := HonestOs.ftruncate_ok os₂ LS_SUPER_SIZE (by rw [h3])
    rwa [h3] at this
  cases hopen
  exact ⟨direct, os₃, rfl, by rw [hf₃]; exact Nat.le_refl _, hsh,
    HonestOs.openRw_ok os o.directIo direct (by rw [h1])⟩

/-- **A buffered store refines the reference map**: on a freshly opened store, whatever the memory
budget, every call of every sequence answers what the map answers. -/
theorem run_refines_map (hF : 2 ^ 64 ≤ E.fuel) {o : Opts} {os : σ} {s : Store σ}
    (ho : o.parallel = .loc ∧ o.mode = .explicit ∧ o.directIo = false) (hfile : (file os).len = 0)
    (hopen : lsOpen E o os = some (.ok s)) {ops : List Op} (hw : RefMap.Within false ops ∅)
    (hc : CleanRun E ops s) :
    ∃ s', runOps E ops s = some ((refRun false ops ∅).1, s') := by
  obtain ⟨direct, os', rfl, hlen, -⟩ := lsOpen_empty hfile hopen
  obtain ⟨h1, hs, h2, h3⟩ := sound_freshStore o direct hlen
  have hsh : (freshStore o direct os').shared = false := by
    simp [Store.shared, Opts.shared, freshStore, ho.1]
  obtain ⟨outs, s', g1, rfl, -⟩ := runOps_spec hF ops h1 hs h2 h3 (by rwa [hsh]) hc
  exact ⟨s', by rw [g1, hsh]⟩

/-- A store that was opened on an empty file and then used by the calls `ops`, of which no call of
the operating system failed. -/
structure Used (E : Env) (o : Opts) (ops : List Op) (s : Store σ) : Prop where
  run : ∃ os s₀ outs, (file os).len = 0 ∧ lsOpen E o os = some (.ok s₀) ∧
    runOps E ops s₀ = some (outs, s) ∧ CleanRun E ops s₀
  within : RefMap.Within false ops ∅

theorem Used.spec (hF : 2 ^ 64 ≤ E.fuel) {o : Opts} {ops : List Op} {s : Store σ}
    (h : Used E o ops s) : Sound s ∧ Slack s ∧ Idle s ∧ clean s.os ∧ s.o = o ∧ s.shared = false ∧
      (s.direct = true → o.directIo = true) ∧ Abs Nowhere s (refRun false ops ∅).2 := by
  obtain ⟨os, s₀, outs, hfile, hopen, hrun, hc⟩ := h.run
  obtain ⟨direct, os', rfl, hlen, hsh, hdir⟩ := lsOpen_empty hfile hopen
  obtain ⟨h1, hs, h2, h3⟩ := sound_freshStore o direct hlen
  have hsh' : (freshStore o direct os').shared = false := by simp [Store.shared, Opts.shared, freshStore, hsh]
  obtain ⟨outs', s', g1, -, g3, gs, g4, g5, g6⟩ := runOps_spec hF ops h1 hs h2 h3 (by rw [hsh']; exact h.within) hc
  rw [hrun] at g1
  cases g1
  rw [hsh'] at g6
  refine ⟨g3, gs, g4, hc ops List.prefix_rfl outs s hrun, g5.1, ?_, fun hd => hdir ?_, g6⟩
  · simp [Store.shared, Opts.shared, g5.1, freshStore, hsh]
  · rw [g5.2] at hd
    exact hd

/-! ## A new store on a disk -/

/-- Loops that are never cut short, and aligned buffers. -/
def Env.ample : Env := ⟨2 ^ 64, fun _ => 0, 0, 0⟩

/-- A new store on an empty disk. -/
def Disk.newStore (o : Opts) : Store Disk :=
  freshStore o o.directIo ⟨File.empty.truncate LS_SUPER_SIZE, by decide, true⟩

theorem Disk.lsOpen_blank (E : Env) {o : Opts} (ho : optsRefused o = none)
    (hsh : o.parallel ≠ .shared) : lsOpen E o Disk.blank = some (.ok (Disk.newStore o)) := by
  rw [lsOpen, ho]
  show (if 0 ≥ LS_SUPER_SIZE then _ else _) = _
  rw [if_neg (by decide), if_neg (by decide), if_neg hsh]
  rfl

theorem Disk.used_newStore (E : Env) {o : Opts} (ho : optsRefused o = none)
    (hsh : o.parallel ≠ .shared) : Used E o [] (Disk.newStore o) := by
  refine ⟨⟨_, _, _, rfl, Disk.lsOpen_blank E ho hsh, rfl, fun pre hpre outs s' h => ?_⟩, trivial⟩
  rw [List.prefix_nil.mp hpre] at h
  cases h
  rfl

/-- The key `a`. -/
def keyA : CStr := ⟨[97], by decide⟩

/-- The key `b`. -/
def keyB : CStr := ⟨[98], by decide⟩

/-- The key `c`. -/
def keyC : CStr := ⟨[99], by decide⟩

/-- Two records in turn in a memory tier that holds one of them. -/
def tierOps : List Op :=
  [.write keyA 3 [1, 2] 0, .append keyB [3] 0, .read keyA 0 5 0, .erase keyA, .reserve keyB 4096, .keys]

theorem run_refines_map_tier :
    lsOpen Env.ample { memoryBudget := 5 } Disk.blank =
        some (.ok (Disk.newStore { memoryBudget := 5 })) ∧
      RefMap.Within false tierOps ∅ ∧
      ∃ s', runOps Env.ample tierOps (Disk.newStore { memoryBudget := 5 }) =
        some ((refRun false tierOps ∅).1, s') := by
  have hopen : lsOpen Env.ample { memoryBudget := 5 } Disk.blank =
      some (.ok (Disk.newStore { memoryBudget := 5 })) := Disk.lsOpen_blank _ rfl (by decide)
  have hw : RefMap.Within false tierOps ∅ := by
    refine ⟨?_, ?_, ?_, ?_, ?_, ?_, trivial⟩ <;> decide +kernel
  have hc : ∀ pre ∈ tierOps.inits, ((runOps Env.ample pre
      (Disk.newStore { memoryBudget := 5 })).all fun r => r.2.os.ok) = true := by decide +kernel
  refine ⟨hopen, hw, run_refines_map (Nat.le_refl _) ⟨rfl, rfl, rfl⟩ rfl hopen hw ?_⟩
  intro pre hpre outs s' hrun
  have := hc pre ((List.mem_inits pre tierOps).mpr hpre)
  rw [hrun] at this
  exact this

end Libspill
