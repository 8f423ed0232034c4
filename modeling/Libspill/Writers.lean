import Libspill.Disjoint
import Libspill.Reach

set_option autoImplicit false

/-!
# Writers of one key in a session

Where the store is one that a program leads to.

* `Config.Mild`: what a run can be asked in place of `Config.Kind`, and decided.
* **`tier_writes_land`**: the memory tier, as long as no call that begins beside a transfer on the
  key outgrows the buffer of the record. `tier_loses`: a write that a growing buffer leaves behind.
-/

namespace Libspill

variable {σ ι : Type} [HonestOs σ] [Fintype ι] [DecidableEq ι] {E : Env}

open HonestOs (clean)

/-! ## Runs that can be decided -/

instance (x y : Xfer) : Decidable (x.Meets y) := inferInstanceAs (Decidable (_ ∧ _))

instance (x y : Xfer) : Decidable (x.SharesBlock y) := inferInstanceAs (Decidable (_ ∧ _))

instance (key : CStr) (i : ι) (c : Config σ ι) : Decidable (c.Apart key i) :=
  inferInstanceAs (Decidable (∀ op ∈ c.next i, ∀ y ∈ op.xfer c.store, y.key = key →
    ∀ l ∈ c.log, ∀ x ∈ l.x, x.key = key → ¬ x.Meets y))

instance (s : Store σ) : (op : Op) → Decidable (op.InPlace s)
  | .write _ _ _ _ | .append _ _ _ | .reserve _ _ => inferInstanceAs (Decidable (_ ∨ _))
  | .erase _ => inferInstanceAs (Decidable False)
  | .read _ _ _ _ | .size _ | .exists _ | .setAttr _ _ | .getAttr _ _ | .keys =>
    inferInstanceAs (Decidable True)

instance (key : CStr) (i : ι) (c : Config σ ι) : Decidable (c.Gentle key i) :=
  inferInstanceAs (Decidable (∀ op ∈ c.next i, op.key? = some key → ∀ j, ∀ t ∈ (c.thread j).cur,
    t.1.key = key → op.InPlace c.store ∧
      (c.store.direct = true → ∀ y ∈ op.xfer c.store, ¬ t.1.SharesBlock y)))

/-- Steps of writers that leave each other alone, with calls that are within bounds. -/
def Config.Mild (key : CStr) (i : ι) (c : Config σ ι) : Prop :=
  c.Small i ∧ c.Apart key i ∧ c.Gentle key i

instance (key : CStr) (i : ι) (c : Config σ ι) : Decidable (c.Mild key i) :=
  inferInstanceAs (Decidable (_ ∧ _))

/-- A mild run is one of the kind whose writes land. -/
theorem along_kind (hF : 2 ^ 64 ≤ E.fuel) {s : Store σ} {progs : ι → List Op} {key : CStr}
    (hs : Settled s) (hw : WritersOf key progs) {is : List ι}
    (h : Along (Config.step E) (Config.Mild key) (fun _ => True) is (Config.start s progs)) :
    Along (Config.step E) (Config.Kind E key) (fun _ => True) is (Config.start s progs) := by
  refine Along.mono (keeps_landed hF hw) ?_
    ⟨_, steady_start hs.sound hs.slack hs.idle progs, landed_start s progs key⟩ h
  rintro i c ⟨g, hst, -⟩ ⟨h1, h2, h3⟩
  exact ⟨fun op hop => fits_of_small hF hst.sound h1 hop, h2, h3⟩

/-! ## The memory tier -/

/-- **Writes of disjoint ranges in the memory tier**: in a run where no tail wraps and where no call
that begins beside a transfer on the key outgrows the buffer of the record, every write that answered
`LS_OK` is there to be read in the end. -/
theorem tier_writes_land (hF : 2 ^ 64 ≤ E.fuel) {s : Store σ} (hs : Reached E s)
    (hdir : s.direct = false) {progs : ι → List Op} {key : CStr} (hw : WritersOf key progs)
    (is : List ι)
    (h : Along (Config.step E) (fun i c => c.Fits E i ∧ c.Apart key i ∧ ∀ op ∈ c.next i,
        op.key? = some key → (∃ j, ∃ t ∈ (c.thread j).cur, t.1.key = key) → op.InPlace c.store)
      (fun _ => True) is (Config.start s progs)) :
    ∃ c, sched (Config.step E) is (Config.start s progs) = some c ∧
      ((∀ j, (c.thread j).Done) → ∀ j (n : ℕ) op out, (progs j)[n]? = some op →
        op.key? = some key → (c.thread j).outs[n]? = some out → out.rc = .ok → ∀ addr,
        ∃ ans s', (Op.read key (op.startsAt out) op.payload.length addr).call E c.store =
            some (ans, s') ∧
          (clean s'.os ∨ ans.rc = .ok → ans = { rc := .ok, data := op.payload })) := by
  have hset := hs.settled hF
  refine writes_land hF hset.sound hset.slack hset.idle hw is ?_
  refine Along.mono (keeps_landed hF hw) ?_
    ⟨_, steady_start hset.sound hset.slack hset.idle progs, landed_start s progs key⟩ h
  rintro i c ⟨g, hst, -⟩ ⟨h1, h2, h3⟩
  refine ⟨h1, h2, fun op hop hkey j t ht hk => ⟨h3 op hop hkey ⟨j, t, ht, hk⟩, fun hd => ?_⟩⟩
  rw [hst.mode.2, hdir] at hd
  cases hd

/-- Two writers of one record: the second one's append grows the buffer that the first one is about
to write to. -/
def growProgs : Bool → List Op
  | false => [.write keyA 0 [7] 0]
  | true => [.append keyA [8] 0]

theorem growProgs_writers : WritersOf keyA growProgs := by
  have hkey : ∀ i, ∀ op ∈ growProgs i, op.key? = some keyA := by decide
  exact ⟨by decide, fun i _ _ op hop _ _ _ => Or.inl (hkey i op hop)⟩

/-- What a run leaves: the answers, and what a read of `[0, n)` finds in the end. -/
def ends (key : CStr) (n : ℕ) (c : Config Disk Bool) : List Rc × List Rc × Option (List UInt8) :=
  ((c.thread false).outs.map Out.rc, (c.thread true).outs.map Out.rc,
    ((Op.read key 0 n 0).call Env.ample c.store).map fun q => q.1.data)

/-- **A write that a growing buffer leaves behind**: the first writer has its place, the append moves
the record, and the first writer's byte goes to the buffer that is given up. Both calls answer
`LS_OK`. -/
theorem tier_loses : WritersOf keyA growProgs ∧ ∃ c,
    Along (Config.step Env.ample) (Config.Apart keyA) (fun c => c.store.os.ok = true)
      [false, true, false, false, true, true]
      (Config.start (Disk.newStore { memoryBudget := 2 }) growProgs) ∧
    sched (Config.step Env.ample) [false, true, false, false, true, true]
      (Config.start (Disk.newStore { memoryBudget := 2 }) growProgs) = some c ∧
    (∀ j, (c.thread j).Done) ∧ ends keyA 2 c = ([.ok], [.ok], some [0, 8]) := by
  have h1 : Along (Config.step Env.ample) (Config.Apart keyA) (fun c => c.store.os.ok = true)
      [false, true, false, false, true, true]
      (Config.start (Disk.newStore { memoryBudget := 2 }) growProgs) := by decide +kernel
  have h2 : (sched (Config.step Env.ample) [false, true, false, false, true, true]
      (Config.start (Disk.newStore { memoryBudget := 2 }) growProgs)).map (fun c =>
        ([false, true].all fun j => (c.thread j).todo.isEmpty && (c.thread j).cur.isNone,
          ends keyA 2 c)) = some (true, [.ok], [.ok], some [0, 8]) := by decide +kernel
  obtain ⟨c, h3, h4⟩ := Option.map_eq_some_iff.mp h2
  rw [Prod.mk.injEq] at h4
  refine ⟨growProgs_writers, c, h1, h3, fun j => ?_, h4.2⟩
  have hj := List.all_eq_true.mp h4.1 j (by cases j <;> decide)
  rw [Bool.and_eq_true, List.isEmpty_iff, Option.isNone_iff_eq_none] at hj
  exact hj

/-- The two writers one after the other. -/
theorem tier_writes_land_two : ∃ c,
    sched (Config.step Env.ample) [false, false, false, true, true, true]
      (Config.start (Disk.newStore { memoryBudget := 2 }) growProgs) = some c ∧
    ((∀ j, (c.thread j).Done) → ∀ j (n : ℕ) op out, (growProgs j)[n]? = some op →
      op.key? = some keyA → (c.thread j).outs[n]? = some out → out.rc = .ok → ∀ addr,
      ∃ ans s', (Op.read keyA (op.startsAt out) op.payload.length addr).call Env.ample c.store =
          some (ans, s') ∧
        (s'.os.ok = true ∨ ans.rc = .ok → ans = { rc := .ok, data := op.payload })) := by
  have hs : Reached Env.ample (Disk.newStore { memoryBudget := 2 }) :=
    reached_newStore rfl (by decide)
  have hmild : Along (Config.step Env.ample) (Config.Mild keyA) (fun _ => True)
      [false, false, false, true, true, true]
      (Config.start (Disk.newStore { memoryBudget := 2 }) growProgs) := by decide +kernel
  refine tier_writes_land (Nat.le_refl _) hs rfl growProgs_writers _ ?_
  refine Along.imp (fun i c hk => ⟨hk.1, hk.2.1, ?_⟩)
    (along_kind (Nat.le_refl _) (hs.settled (Nat.le_refl _)) growProgs_writers hmild)
  rintro op hop hkey ⟨j, t, ht, hk'⟩
  exact (hk.2.2 op hop hkey j t ht hk').1

end Libspill
