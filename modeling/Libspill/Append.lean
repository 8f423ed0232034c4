import Libspill.Distinct

set_option autoImplicit false

/-!
# Concurrent appends

Threads that only append to one key, on a buffered store without a memory tier.

* `offsets`: consecutive partial sums.
* `calm_of_appends`: every step is calm. An append starts where the record ends, and a record
  without a buffer does not move.
* **`appends_tile`**: the offsets reported are the partial sums in lock order, every snapshot stays a
  prefix of the record's extents, and in the end the record is the initial bytes followed by the
  appended ones.
-/

namespace Libspill

variable {σ ι : Type} [HonestOs σ] [Fintype ι] [DecidableEq ι] {E : Env}

open HonestOs (clean)

/-- All the bytes some calls write, in their order. -/
def payloads (ops : List Op) : List UInt8 := ops.flatMap Op.payload

/-- Answers with consecutive offsets, from `start` on. -/
def offsets (start : ℕ) : List Op → List Out
  | [] => []
  | op :: ops => { rc := .ok, num := start } :: offsets (start + op.payload.length) ops

/-- Every call is an append to `key`. A buffer is a C object, so it has at most `PTRDIFF_MAX` bytes. -/
def OnlyAppends (key : CStr) (progs : ι → List Op) : Prop :=
  ∀ i, ∀ op ∈ progs i, ∃ buf addr, op = .append key buf addr ∧ buf.length < 2 ^ 63

/-- The bytes of a record. -/
def Store.bytes (s : Store σ) (key : CStr) : List UInt8 :=
  slice (s.content (s.recAt key)) 0 (s.recAt key).size

/-- The entries of an extent array that a snapshot can see. -/
def Store.seen (s : Store σ) (pl : Place) : List Extent :=
  (List.range pl.next).map (s.arr (pl.ext.getD 0))

/-- Every snapshot that a thread holds is a prefix of the extents of its record. -/
def Config.SnapshotsHold (c : Config σ ι) : Prop :=
  ∀ j x pl p, (c.thread j).cur = some (x, pl, p) →
    ∃ r, c.store.find x.key = some r ∧ c.store.seen pl <+: c.store.exts r

/-! ## Offsets -/

omit [Fintype ι] [DecidableEq ι] in
theorem offsets_append (start : ℕ) (ops : List Op) (op : Op) :
    offsets start (ops ++ [op]) =
      offsets start ops ++ [{ rc := .ok, num := start + (payloads ops).length }] := by
  induction ops generalizing start with
  | nil => simp [offsets, payloads]
  | cons op' ops ih => simp [offsets, payloads, ih, Nat.add_assoc]

theorem payloads_append (ops : List Op) (op : Op) :
    payloads (ops ++ [op]) = payloads ops ++ op.payload := by
  simp [payloads]

theorem Entry.write_length (e : Entry) (buf : List UInt8) :
    e.write e.bytes.length buf = { e with bytes := e.bytes ++ buf } := by
  simp only [Entry.write, Entry.resize]
  rw [List.take_left, List.drop_eq_nil_of_le (by simp), List.append_nil]

section

variable {o : Opts} {direct : Bool} {m₀ : RefMap} {progs : ι → List Op} {g : ι → Option Pend}
  {c : Config σ ι} {i : ι} {key : CStr}

/-! ## Calm steps -/

/-- Without a memory tier an append of less than `2 ^ 63` bytes never wraps. -/
theorem fits_append (E : Env) {s : Store σ} (h : Sound s) (hb : s.o.memoryBudget = 0)
    {buf : List UInt8} (addr : ℕ) (hn : buf.length < 2 ^ 63) : (Op.append key buf addr).Fits E s := by
  refine ⟨by omega, fun _ _ => ?_⟩
  obtain ⟨h1, h2, h3, -⟩ := lsTocFindOrInsert_spec h key
  have hsame : lsTocFindOrInsert (lsTocFindOrInsert s key) key = lsTocFindOrInsert s key := by
    conv_lhs => rw [lsTocFindOrInsert, h3]
  rw [hsame]
  generalize lsTocFindOrInsert s key = s₁ at h1 h2 h3
  have hb₁ : s₁.o.memoryBudget = 0 := by rw [h2.opts.1, hb]
  have hm := h1.laid.tiered.noTier hb₁ key _ h3
  have hok := h1.laid.records.ok _ _ h3
  intro s₂ s₃ ht hs k
  have hs₂ : s₂ = s₁ := by
    rw [tryMemory, if_neg (by simp [hb₁])] at ht
    cases ht
    rfl
  subst hs₂
  rw [spill_none h3 hm] at hs
  cases hs
  rw [recAt_of_find h3]
  have hcap := (hok.noMem hm).2
  exact extentsFit_of_le h1.laid.tiled (fileEnd_lt h1) (by omega) k _

omit [HonestOs σ] in
theorem reach_buffered {off n i : ℕ} : Reach false off n i ↔ off ≤ i ∧ i < off + n := by
  constructor
  · rintro ⟨y, h1, h2, h3 | ⟨h3, -⟩⟩
    · exact ⟨h3 ▸ h1, h3 ▸ h2⟩
    · cases h3
  · rintro ⟨h1, h2⟩
    exact .of_mem h1 h2

/-- Every step of threads that only append is calm. -/
theorem calm_of_appends (E : Env) (hk : OnlyAppends key progs)
    (hb : o.memoryBudget = 0) (h : Tracks o false m₀ progs g c) : c.Calm E i := by
  intro op hop
  have hb' : c.store.o.memoryBudget = 0 := by rw [h.mode.1, hb]
  obtain ⟨buf, addr, rfl, hn⟩ := hk i op (mem_progs_of_next h.toSteady hop)
  refine ⟨fits_append E h.sound hb' addr hn, fun j x pl p hj hkey => ?_⟩
  rcases h.holding j with ⟨-, hnone⟩ | ⟨pd, p', hgj, hcur, hp⟩
  · rw [hj] at hnone
    cases hnone
  rw [hj] at hcur
  cases hcur
  obtain ⟨r, hr⟩ := hp.snap
  cases hkey
  refine ⟨rfl, Or.inl ?_, fun y hy => ?_⟩
  · rw [recAt_of_find hr.find]
    exact h.sound.laid.tiered.noTier hb' _ r hr.find
  · cases hy
    have hsize := hr.size
    rw [h.mode.2, recAt_of_find hr.find]
    refine ⟨fun _ n hn h2 => ?_, fun _ n hn h2 => ?_⟩
    · rw [reach_buffered] at hn
      dsimp only at h2
      omega
    · rw [reach_buffered] at hn
      dsimp only at hn
      omega

/-! ## The map the appends make -/

/-- The answers are consecutive offsets, and the record is what was appended. -/
structure Tiles (o : Opts) (key : CStr) (m₀ : RefMap) (c : Config σ ι) : Prop where
  outs : (refRun o.shared (calls c.log) m₀).1 =
    offsets ((m₀.lookup key).getD {}).bytes.length (calls c.log)
  bytes : ((c.map o m₀).lookup key).getD {} =
    { (m₀.lookup key).getD {} with
      bytes := ((m₀.lookup key).getD {}).bytes ++ payloads (calls c.log) }

theorem tiles_step (hkey : lsKeyOk key = true) (hsh : o.shared = false) (hk : OnlyAppends key progs)
    (h : Tracks o direct m₀ progs g c) (ht : Tiles o key m₀ c) {c' : Config σ ι}
    (hstep : c.step E i = some c') : Tiles o key m₀ c' := by
  rcases Config.step_log hstep with hlog | ⟨op, x, hop, hlog⟩
  · exact ⟨by rw [hlog]; exact ht.outs, by rw [Config.map, hlog]; exact ht.bytes⟩
  · obtain ⟨buf, addr, rfl, hn⟩ := hk i op (mem_progs_of_next h.toSteady hop)
    have hcalls : calls c'.log = calls c.log ++ [.append key buf addr] := by
      rw [hlog]
      exact c.calls_append _
    have hlt : (((c.map o m₀).lookup key).getD {}).bytes.length < 2 ^ 63 := by
      rw [Config.map, ← (h.abs.recAt key).size]
      exact size_lt h.sound key
    have hrun := refRun_append o.shared (calls c.log) (.append key buf addr) m₀
    have happly : (Op.append key buf addr).refStep o.shared (c.map o m₀) =
        ({ rc := .ok, num := (((c.map o m₀).lookup key).getD {}).bytes.length },
          (c.map o m₀).put key (some ((((c.map o m₀).lookup key).getD {}).write
            (((c.map o m₀).lookup key).getD {}).bytes.length buf))) := by
      rw [refStep_of_key rfl]
      simp only [Op.apply, hkey, hsh, Bool.not_true, Bool.false_eq_true, if_false]
      rw [if_neg (by omega)]
    rw [Config.map] at happly
    refine ⟨?_, ?_⟩
    · rw [hcalls, hrun, happly, ht.outs, offsets_append]
      have := congrArg (fun e => e.bytes.length) ht.bytes
      simp only [Config.map, List.length_append] at this
      rw [this]
    · rw [Config.map, hcalls, hrun, happly]
      dsimp only
      rw [RefMap.lookup_put, if_pos rfl, Option.getD_some, payloads_append]
      have hb := ht.bytes
      rw [Config.map] at hb
      rw [hb, Entry.write_length, List.append_assoc]
      rfl

/-! ## Snapshots -/

theorem seen_of_pending {s : Store σ} {pd : Pend} {p : Io Out} (h : Pending s pd p) :
    s.seen pd.pl = pd.es := by
  obtain ⟨v, -, hv, -⟩ := h.view
  refine List.ext_getElem (by simp [Store.seen, h.next]) fun n h1 h2 => ?_
  simp only [Store.seen, List.getElem_map, List.getElem_range]
  exact hv.arr n _ (List.getElem?_eq_getElem h2)

theorem snapshots_of_tracks (h : Tracks o direct m₀ progs g c) : c.SnapshotsHold := by
  intro j x pl p hj
  rcases h.holding j with ⟨-, hnone⟩ | ⟨pd, p', hgj, hcur, hp⟩
  · rw [hj] at hnone
    cases hnone
  rw [hj] at hcur
  cases hcur
  obtain ⟨r, hr⟩ := hp.snap
  exact ⟨r, hr.find, by rw [seen_of_pending hp]; exact hr.exts⟩

/-- A step leaves alone the entries that a snapshot can see. -/
theorem seen_step (hF : 2 ^ 64 ≤ E.fuel) (h : Tracks o direct m₀ progs g c) (hcalm : c.Calm E i)
    {c' : Config σ ι} (hstep : c.step E i = some c') {j : ι} {x : Xfer} {pl : Place} {p : Io Out}
    (hj : (c.thread j).cur = some (x, pl, p)) : c'.store.seen pl = c.store.seen pl := by
  rcases h.holding j with ⟨-, hnone⟩ | ⟨pd, p', hgj, hcur', hp⟩
  · rw [hj] at hnone
    cases hnone
  rw [hj] at hcur'
  cases hcur'
  obtain ⟨r, hr⟩ := hp.snap
  suffices harr : ∀ n, n < pd.es.length →
      c'.store.arr (pd.pl.ext.getD 0) n = c.store.arr (pd.pl.ext.getD 0) n by
    refine List.map_congr_left fun n hn => harr n ?_
    rw [hp.next]
    exact List.mem_range.mp hn
  cases hcur : (c.thread i).cur with
  | some cur =>
    obtain ⟨y, pl', q⟩ := cur
    cases q with
    | ret out =>
      rw [Config.step_return hcur] at hstep
      cases hstep
      exact fun _ _ => rfl
    | hang =>
      simp only [Config.step, hcur] at hstep
      cases hstep
    | call q k =>
      rw [Config.step_call hcur] at hstep
      cases hstep
      rcases h.holding i with ⟨-, hnone⟩ | ⟨pd', q', -, hcur', hp'⟩
      · rw [hcur] at hnone
        cases hnone
      rw [hcur] at hcur'
      cases hcur'
      intro n _
      dsimp only
      rw [(hp'.call).2.rest]
  | none =>
    cases ht : (c.thread i).todo with
    | nil =>
      simp only [Config.step, hcur, ht] at hstep
      cases hstep
      exact fun _ _ => rfl
    | cons op todo =>
      obtain ⟨hfit, -⟩ := hcalm op (Config.next_eq_some.mpr ⟨hcur, todo, ht⟩)
      cases hkey : op.key? with
      | none =>
        cases op with
        | keys =>
          rw [Config.step_enter hcur ht rfl] at hstep
          cases hstep
          exact fun _ _ => rfl
        | _ => cases hkey
      | some k =>
        obtain ⟨ent, s', h1, h2⟩ := enter_spec hF h.sound hkey hfit
        rw [Config.step_enter hcur ht h1] at hstep
        cases hstep
        intro n hn
        rcases hr.arr with hnil | hf
        · rw [hnil] at hn
          cases hn
        · exact (h2.stays.arr _ _ hf).2 n hn

/-! ## Runs -/

/-- Where no byte is on its way the bytes of a record are the entry's. -/
theorem bytes_of_abs {s : Store σ} {D : CStr → ℕ → Prop} {m : RefMap} (h : Abs D s m)
    (hD : ∀ n, ¬ D key n) : s.bytes key = ((m.lookup key).getD {}).bytes := by
  have hm := h.recAt key
  have hc : s.content (s.recAt key) = ((m.lookup key).getD {}).byte := by
    funext n
    exact hm.bytes n (hD n)
  rw [Store.bytes, hc, hm.size, Entry.slice_byte (by omega)]
  simp

theorem not_due_of_done (h : Tracks o direct m₀ progs g c) (hd : ∀ i, (c.thread i).Done)
    (k : CStr) (n : ℕ) : ¬ Due g k n := by
  rintro ⟨j, pd, hj, -⟩
  rw [(h.holding j).idle (hd j).2] at hj
  cases hj

/-- **Concurrent appends tile the record**, whatever the order of their critical sections and
transfers. -/
theorem appends_tile (hF : 2 ^ 64 ≤ E.fuel) {o : Opts}
    (ho : o.memoryBudget = 0 ∧ o.directIo = false) {ops : List Op} {s : Store σ}
    (hs : Used E o ops s) {key : CStr} (hkey : lsKeyOk key = true) {progs : ι → List Op}
    (hk : OnlyAppends key progs) {is : List ι}
    (hall : Along (Config.step E) (fun _ _ => True) Config.Clean is (Config.start s progs)) :
    ∃ c, sched (Config.step E) is (Config.start s progs) = some c ∧
      (∀ i, callsOf i c.log ++ (c.thread i).todo = progs i) ∧
      (∀ i, (c.thread i).outs <+: outsOf i c.log (offsets (s.recAt key).size (calls c.log)) ∧
        ((c.thread i).cur = none →
          (c.thread i).outs = outsOf i c.log (offsets (s.recAt key).size (calls c.log)))) ∧
      c.SnapshotsHold ∧
      (∀ i c', c.step E i = some c' → ∀ j x pl p, (c.thread j).cur = some (x, pl, p) →
        c'.store.seen pl = c.store.seen pl) ∧
      ((∀ i, (c.thread i).Done) →
        c.store.bytes key = s.bytes key ++ payloads (calls c.log)) := by
  obtain ⟨h1, hsl, h2, h3, rfl, hsh, hdir, h4⟩ := hs.spec hF
  have hd : s.direct = false := by
    by_contra hd
    rw [Bool.not_eq_false] at hd
    rw [ho.2] at hdir
    exact Bool.noConfusion (hdir hd)
  have hsize := (h4.recAt key).size
  have hstart := tracks_start h1 hsl h3 h2 h4 progs
  rw [hd] at hstart
  have hkeeps : Keeps (Config.step E) (fun _ _ => True) Config.Clean fun c : Config σ ι =>
      (∃ g, Tracks s.o false (refRun false ops ∅).2 progs g c) ∧
        Tiles s.o key (refRun false ops ∅).2 c := by
    rintro i c ⟨⟨g, ht⟩, htile⟩ -
    obtain ⟨c', hc', hnext⟩ := tracks_step hF ht (calm_of_appends E hk ho.1 ht)
    exact ⟨c', hc', fun hclean => ⟨hnext hclean, tiles_step hkey hsh hk ht htile hc'⟩⟩
  obtain ⟨c, hc, ⟨g, ht⟩, htile⟩ := sched_of_along hkeeps is
    ⟨⟨_, hstart⟩, rfl, by simp [Config.map, Config.start, calls, refRun, payloads]⟩ hall
  have houts := ht.outs
  rw [htile.outs, ← hsize] at houts
  refine ⟨c, hc, ht.calls, fun i => ⟨?_, fun hcur => ?_⟩, snapshots_of_tracks ht,
    fun i c' hstep j x pl p hj => seen_step hF ht (calm_of_appends E hk ho.1 ht) hstep hj,
    fun hdone => ?_⟩
  · rw [← houts i]
    exact List.prefix_append _ _
  · rw [← houts i, (ht.holding i).idle hcur]
    simp
  · have hb := htile.bytes
    rw [Config.map] at hb
    rw [bytes_of_abs ht.abs (not_due_of_done ht hdone key), hb,
      bytes_of_abs h4 (fun _ => id)]

/-- Two threads that append to the key `a`. -/
def appendProgs : Bool → List Op
  | false => [.append keyA [1, 2] 0, .append keyA [3] 0]
  | true => [.append keyA [4] 0]

/-- The second thread takes its offset while the first one is in its transfer. -/
def appendSched : List Bool :=
  [false, true, false, true, false, true, false, true, false, false, false, false]

theorem appends_tile_two : OnlyAppends keyA appendProgs ∧ ∃ c,
    sched (Config.step Env.ample) appendSched (Config.start (Disk.newStore {}) appendProgs) =
        some c ∧
      (∀ i, callsOf i c.log ++ (c.thread i).todo = appendProgs i) ∧
      (∀ i, (c.thread i).outs <+:
          outsOf i c.log (offsets ((Disk.newStore {}).recAt keyA).size (calls c.log)) ∧
        ((c.thread i).cur = none → (c.thread i).outs =
          outsOf i c.log (offsets ((Disk.newStore {}).recAt keyA).size (calls c.log)))) ∧
      c.SnapshotsHold ∧
      (∀ i c', c.step Env.ample i = some c' → ∀ j x pl p, (c.thread j).cur = some (x, pl, p) →
        c'.store.seen pl = c.store.seen pl) ∧
      ((∀ i, (c.thread i).Done) → c.store.bytes keyA =
        (Disk.newStore {}).bytes keyA ++ payloads (calls c.log)) := by
  have hk : OnlyAppends keyA appendProgs := by
    intro i op hop
    cases i with
    | false =>
      simp only [appendProgs, List.mem_cons, List.not_mem_nil, or_false] at hop
      rcases hop with rfl | rfl
      · exact ⟨_, _, rfl, by decide⟩
      · exact ⟨_, _, rfl, by decide⟩
    | true =>
      simp only [appendProgs, List.mem_cons, List.not_mem_nil, or_false] at hop
      exact ⟨_, _, hop, by decide⟩
  exact ⟨hk, appends_tile (Nat.le_refl _) ⟨rfl, rfl⟩ (Disk.used_newStore _ rfl (by decide))
    (by decide) hk (by decide +kernel)⟩

end

end Libspill
