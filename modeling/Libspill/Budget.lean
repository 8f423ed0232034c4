import Libspill.Canonical
import Libspill.Enlist

set_option autoImplicit false

/-!
# The memory tier stays within its budget

* `LruStore.Evicts`: a run of `ls_evict_to`. **`evicts_of_lists`**: it ends, and spills the least recently
  used record that it may spill first.
* `Crew.Manned`: what holds between two steps of the threads. **`manned_step`**, `manned_kept`.
* `Crewed`: the stores that sessions of many threads lead to.
* **`tier_within_budget`**: the count, the bounds and the list in each of them. `tier_truncated`: extents
  that are lost leave a record without the bytes that it says it has.
-/

namespace Libspill

variable {σ ι : Type}

open HonestOs (file clean)

/-! ## Eviction -/

/-- `v` is the least recently used of the records that may be spilled. -/
structure LruStore.Oldest (t : LruStore σ) (keep : Option CStr) (v : CStr) : Prop where
  resident : ∃ r, t.s.find v = some r ∧ r.mem ≠ none ∧ r.busy = 0
  free : some v ≠ keep
  least : ∀ k r, t.s.find k = some r → r.mem ≠ none → r.busy = 0 → some k ≠ keep → k ≠ v →
    t.stamp v < t.stamp k

/-- A run of `ls_evict_to` that spills the records `vs` one after the other. -/
inductive LruStore.Evicts [Os σ] (E : Env) (budget : ℕ) (keep : Option CStr) :
    LruStore σ → List CStr → Rc → LruStore σ → Prop where
  | fits {t : LruStore σ} : t.s.resident ≤ budget → Evicts E budget keep t [] .ok t
  | stuck {t : LruStore σ} : (∀ k r, t.s.find k = some r → r.mem ≠ none → r.busy ≠ 0 ∨ some k = keep) →
      Evicts E budget keep t [] .ok t
  | failed {t t' : LruStore σ} {v : CStr} {rc : Rc} : budget < t.s.resident → t.Oldest keep v →
      t.spill E v = some (rc, t') → rc ≠ .ok → Evicts E budget keep t [v] rc t'
  | spilt {t t₁ t' : LruStore σ} {v : CStr} {vs : List CStr} {rc : Rc} : budget < t.s.resident →
      t.Oldest keep v → t.spill E v = some (.ok, t₁) → Evicts E budget keep t₁ vs rc t' →
      Evicts E budget keep t (v :: vs) rc t'

section Eviction

variable [HonestOs σ] {E : Env} {t : LruStore σ} {l : List CStr} {keep : Option CStr}

theorem lists_mem (hs : Sound (t.s.withLru l)) (k : CStr) :
    k ∈ l ↔ ∃ r, t.s.find k = some r ∧ r.mem ≠ none := hs.laid.tiered.lru_mem k

/-- The victim is the least recently used record that may be spilled. -/
theorem oldest_of_victim (h : t.Lists l) (hs : Sound (t.s.withLru l)) {v : CStr}
    (hv : victim (t.s.withLru l) keep = some v) : t.Oldest keep v := by
  obtain ⟨hvl, hvk, hvb⟩ := victim_spec hv
  obtain ⟨r, hr, hrm⟩ := (lists_mem hs v).mp hvl
  have hvb' : (t.s.recAt v).busy = 0 := hvb
  rw [recAt_of_find hr] at hvb'
  refine ⟨⟨r, hr, hrm, hvb'⟩, hvk, fun k q hq hqm hqb hqk hne => ?_⟩
  have hk : k ∈ l := (lists_mem hs k).mpr ⟨q, hq, hqm⟩
  have hkb : ((t.s.withLru l).recAt k).busy = 0 := by
    rw [show (t.s.withLru l).recAt k = t.s.recAt k from rfl, recAt_of_find hq]
    exact hqb
  have hle := (ranked_find h.ranked hv).2.2 k hk (by simp [hqk, hkb])
  exact lt_of_le_of_ne hle fun he => hne (ranked_inj h.ranked hk hvl he.symm)

/-- **`ls_evict_to` ends**, and spills the least recently used record first. -/
theorem evicts_of_lists (hF : 2 ^ 64 ≤ E.fuel) (fuel : ℕ) (h : t.Lists l) (hs : Sound (t.s.withLru l))
    (hf : l.length < fuel) (budget : ℕ) (keep : Option CStr) : ∃ vs rc t',
      t.lsEvictTo E fuel budget keep = some (rc, t') ∧ t.Evicts E budget keep vs rc t' := by
  induction fuel generalizing t l with
  | zero => exact absurd hf (Nat.not_lt_zero _)
  | succ fuel ih =>
    have hlen : l.length < E.fuel := (lru_length_lt hs.laid).trans_le (by omega)
    rw [LruStore.lsEvictTo, walk_eq_victim h hlen]
    by_cases hres : t.s.resident > budget
    case neg =>
      rw [if_neg hres]
      exact ⟨_, _, _, rfl, .fits (not_lt.mp hres)⟩
    rw [if_pos hres]
    cases hv : victim (t.s.withLru l) keep with
    | none =>
      refine ⟨_, _, _, rfl, .stuck fun k r hr hrm => ?_⟩
      have := List.find?_eq_none.mp hv k (List.mem_reverse.mpr ((lists_mem hs k).mpr ⟨r, hr, hrm⟩))
      rw [show (t.s.withLru l).recAt k = t.s.recAt k from rfl, recAt_of_find hr] at this
      by_contra hno
      rw [not_or, not_not] at hno
      simp [hno.1, hno.2] at this
    | some v =>
      have hold := oldest_of_victim h hs hv
      have hvl : v ∈ l := (victim_spec hv).1
      obtain ⟨r, hr, -⟩ := hold.resident
      obtain ⟨rc, s₁, h1, h2⟩ := spill_spec hF hs (show (t.s.withLru l).find v = some r from hr)
      rcases tallies_spill (E := E) h v with ⟨h3, h4⟩ | ⟨rc', t₁, s₁', h3, h4, l₁, h5, rfl⟩
      · rw [h4] at h1
        cases h1
      rw [h4] at h1
      cases h1
      dsimp only
      rw [h3]
      dsimp only
      by_cases hrc : rc ≠ .ok
      · rw [if_pos hrc]
        exact ⟨_, _, _, rfl, .failed hres hold h3 hrc⟩
      rw [if_neg hrc]
      rw [not_not] at hrc
      subst hrc
      have hl₁ : l₁ = l.erase v := h2.lru rfl
      obtain ⟨vs, rc, t', h6, h7⟩ := ih h5 h2.sound (by
        rw [hl₁, List.length_erase_of_mem hvl]
        have := List.length_pos_of_mem hvl
        omega)
      exact ⟨_, _, _, h6, .spilt hres hold h3 h7⟩

end Eviction

/-! ## Threads -/

/-- How many transfers on `k` a thread is in. -/
def Caller.on (w : Caller) (k : CStr) : ℕ :=
  match w.cur with
  | none => 0
  | some (_, key, _) => if key = k then 1 else 0

/-- How many transfers on `k` the threads are in. -/
def Crew.flights [Fintype ι] (c : Crew σ ι) (k : CStr) : ℕ := ∑ i, (c.thread i).on k

/-- The call that a thread begins, if it begins one, is one of `Call`. -/
def Crew.Begins (Call : Api → Store σ → Prop) (c : Crew σ ι) (i : ι) : Prop :=
  ∀ a todo s, (c.thread i).cur = none → (c.thread i).todo = a :: todo → Mirrors c.store s → Call a s

/-- The operating system after others have done something. -/
def Crew.withOs (c : Crew σ ι) (os : σ) : Crew σ ι :=
  { c with store := { c.store with s := { c.store.s with os } } }

/-- What holds between two steps of the threads, if the pointers spell `l`. -/
structure Crew.Manned [HonestOs σ] [Fintype ι] (c : Crew σ ι) (l : List CStr) : Prop where
  lists : c.store.Lists l
  sound : Sound (c.store.s.withLru l)
  named : Named (c.store.s.withLru l)
  budget : c.store.s.resident ≤ c.store.s.o.memoryBudget
  busy : ∀ k, (c.store.s.recAt k).busy ≤ c.flights k
  inside : ∀ i a key p, (c.thread i).cur = some (a, key, p) → p.Each (Call.Inside c.store.s.memNext)

section Manned

theorem perform_withLru [Os σ] (q : Call) (s : Store σ) (l : List CStr) :
    perform q (s.withLru l) = ((perform q s).1, (perform q s).2.withLru l) := by
  cases q <;> rfl

theorem perform_rest [Os σ] (q : Call) (s : Store σ) : (perform q s).2.toc = s.toc ∧
    (perform q s).2.o = s.o ∧ (perform q s).2.resident = s.resident ∧ (perform q s).2.memNext = s.memNext := by
  cases q <;> exact ⟨rfl, rfl, rfl, rfl⟩

variable [Fintype ι]

theorem flights_idle {c : Crew σ ι} (h : ∀ i, (c.thread i).cur = none) (k : CStr) : c.flights k = 0 :=
  Finset.sum_eq_zero fun i _ => by rw [Caller.on, h i]

variable [HonestOs σ] {E : Env} {c c' : Crew σ ι} {l : List CStr}

theorem manned_start {s : Store σ} (h : Sound s) (hn : Named s) (hidle : Idle s) (hlru : s.lru = [])
    (hsp : ∀ k r, s.find k = some r → r.mem = none) (progs : ι → List Api) :
    (Crew.start s progs).Manned [] := by
  have hs : s.withLru [] = s := by rw [← hlru]
  have hres : s.resident = 0 := by
    rw [h.laid.tiered.resident]
    refine List.sum_eq_zero fun n hn => ?_
    obtain ⟨r, hr, rfl⟩ := List.mem_map.mp hn
    have hk := find_of_mem h.laid.records.wf hr
    exact ((h.laid.records.ok _ _ hk).noMem (hsp _ _ hk)).1
  refine ⟨⟨Lru.spells_opened, ranked_nil, fun _ => Nat.le_refl _⟩, ?_, ?_, ?_, fun k => ?_,
    fun i a key p hp => by cases hp⟩
  · show Sound (s.withLru [])
    rwa [hs]
  · show Named (s.withLru [])
    rwa [hs]
  · show s.resident ≤ _
    rw [hres]
    exact Nat.zero_le _
  · show (s.recAt k).busy ≤ _
    rw [hidle k]
    exact Nat.zero_le _

/-- What others do to the operating system. -/
theorem Crew.Manned.withOs (h : c.Manned l) {os : σ} (hlen : c.store.s.flen ≤ (file os).len) :
    (c.withOs os).Manned l :=
  ⟨h.lists.set _, sound_withOs h.sound hlen, h.named, h.budget, h.busy, h.inside⟩

variable [DecidableEq ι]

omit [HonestOs σ] in
/-- What the move of a thread does to the number of transfers. -/
theorem flights_update (c : Crew σ ι) (t : LruStore σ) (i : ι) (w : Caller) (k : CStr) :
    ∃ n, c.flights k = (c.thread i).on k + n ∧
      (Crew.mk t (Function.update c.thread i w)).flights k = w.on k + n := by
  refine ⟨∑ j ∈ Finset.univ.erase i, (c.thread j).on k, (Finset.add_sum_erase _ _ (Finset.mem_univ i)).symm, ?_⟩
  have hrest : ∑ j ∈ Finset.univ.erase i, (Function.update c.thread i w j).on k =
      ∑ j ∈ Finset.univ.erase i, (c.thread j).on k :=
    Finset.sum_congr rfl fun j hj => by rw [Function.update_of_ne (Finset.ne_of_mem_erase hj)]
  have hself : (Function.update c.thread i w i).on k = w.on k := by rw [Function.update_self]
  rw [← hrest, ← hself]
  exact (Finset.add_sum_erase _ (fun j => (Function.update c.thread i w j).on k) (Finset.mem_univ i)).symm

/-- A thread that moves takes its transfers with it. -/
theorem busy_update (h : c.Manned l) {t : LruStore σ} {i : ι} {w : Caller} {k : CStr}
    (hk : (t.s.recAt k).busy ≤ (c.store.s.recAt k).busy - (c.thread i).on k + w.on k) :
    (t.s.recAt k).busy ≤ (Crew.mk t (Function.update c.thread i w)).flights k := by
  obtain ⟨n, h1, h2⟩ := flights_update c t i w k
  have h3 := h.busy k
  omega

omit [HonestOs σ] [Fintype ι] in
/-- What the threads are in after one of them has moved. -/
theorem cur_update {c : Crew σ ι} {i j : ι} {w : Caller} {x : Api × CStr × Io Answer}
    (h : (Function.update c.thread i w j).cur = some x) : w.cur = some x ∨ (c.thread j).cur = some x := by
  by_cases hji : j = i
  · subst hji
    rw [Function.update_self] at h
    exact Or.inl h
  · rw [Function.update_of_ne hji] at h
    exact Or.inr h

/-- The thread begins a call. -/
theorem manned_begin (h : c.Manned l) {i : ι} {a : Api} {todo : List Api} {b : Begun} {t' : LruStore σ}
    {l' : List CStr} (hcur : (c.thread i).cur = none) (hl' : t'.Lists l')
    (hb : b.Leaves (c.store.s.withLru l) (t'.s.withLru l')) :
    (Crew.mk t' (Function.update c.thread i ((c.thread i).begin a todo b))).Manned l' := by
  have hidle : ∀ k, (c.thread i).on k = 0 := fun k => by rw [Caller.on, hcur]
  have hrest : ∀ {key : CStr} {n : ℕ}, Enlists key n (c.store.s.withLru l) (t'.s.withLru l') →
      (∀ k, ((c.thread i).begin a todo b).on k = if key = k then n else 0) →
      (∀ a' key' p, ((c.thread i).begin a todo b).cur = some (a', key', p) → p.Each (Call.Inside t'.s.memNext)) →
      (Crew.mk t' (Function.update c.thread i ((c.thread i).begin a todo b))).Manned l' := by
    intro key n hen hon hin
    refine ⟨hl', hen.sound, hen.named h.named, ?_, fun k => ?_, fun j a' key' p hp => ?_⟩
    · have hbound := hen.bound.1
      have hopts : t'.s.o = c.store.s.o := hen.opts
      rw [hopts]
      exact hbound.trans (max_le h.budget (Nat.le_refl _))
    · refine busy_update h ?_
      rw [hidle k, hon k]
      exact hen.busy k
    · rcases cur_update hp with hp | hp
      · exact hin a' key' p hp
      · exact Prog.each_mono (fun q hq => Call.Inside.mono hen.bound.2 hq) (h.inside j a' key' p hp)
  cases b with
  | done ans =>
    obtain ⟨key, hen⟩ := hb
    have hcur' : ((c.thread i).begin a todo (.done ans)).cur = none := hcur
    refine hrest hen (fun k => ?_) fun a' key' p hp => ?_
    · rw [Caller.on, hcur', ite_self]
    · rw [hcur'] at hp
      cases hp
  | going key p =>
    refine hrest hb.1 (fun k => rfl) fun a' key' p' hp => ?_
    cases hp
    exact hb.2

omit [HonestOs σ] [Fintype ι] in
/-- A step begins at most one call. -/
theorem todo_step [Os σ] {i : ι} (hstep : c.step E i = some c') (j : ι) :
    (c'.thread j).todo ⊆ (c.thread j).todo := by
  have hput : ∀ (t : LruStore σ) (w : Caller), w.todo ⊆ (c.thread i).todo →
      ((Crew.mk t (Function.update c.thread i w)).thread j).todo ⊆ (c.thread j).todo := by
    intro t w hw
    show (Function.update c.thread i w j).todo ⊆ _
    by_cases hj : j = i
    · subst hj
      rwa [Function.update_self]
    · rw [Function.update_of_ne hj]
      exact List.Subset.refl _
  cases hcur : (c.thread i).cur with
  | none =>
    cases htodo : (c.thread i).todo with
    | nil =>
      simp only [Crew.step, hcur, htodo] at hstep
      cases hstep
      exact List.Subset.refl _
    | cons a todo =>
      simp only [Crew.step, hcur, htodo] at hstep
      obtain ⟨⟨b, t⟩, -, h2⟩ := Option.map_eq_some_iff.mp hstep
      cases h2
      refine hput t _ ?_
      rw [htodo]
      cases b <;> exact List.subset_cons_self a todo
  | some cur =>
    obtain ⟨a, key, p⟩ := cur
    cases p with
    | hang =>
      simp only [Crew.step, hcur] at hstep
      cases hstep
    | ret ans =>
      simp only [Crew.step, hcur] at hstep
      cases hstep
      exact hput _ _ (List.Subset.refl _)
    | call q k =>
      simp only [Crew.step, hcur] at hstep
      cases hstep
      exact hput _ _ (List.Subset.refl _)

/-- **One step of a thread.** -/
theorem manned_step (hF : 2 ^ 64 ≤ E.fuel) (h : c.Manned l) {i : ι} (hadm : c.Begins (Api.Tame E) i)
    (hstep : c.step E i = some c') : ∃ l', c'.Manned l' := by
  have hlen : l.length < E.fuel := (lru_length_lt h.sound.laid).trans_le (by omega)
  cases hcur : (c.thread i).cur with
  | none =>
    cases htodo : (c.thread i).todo with
    | nil =>
      simp only [Crew.step, hcur, htodo] at hstep
      cases hstep
      exact ⟨l, h⟩
    | cons a todo =>
      simp only [Crew.step, hcur, htodo] at hstep
      obtain ⟨⟨b, t'⟩, h1, h2⟩ := Option.map_eq_some_iff.mp hstep
      cases h2
      obtain ⟨b', s', h3, h4⟩ := enter_leaves hF h.sound (hadm a todo _ hcur htodo ⟨l, h.lists, rfl⟩)
      rcases tallies_enter (E := E) h.lists hlen a with ⟨h5, -⟩ | ⟨b₁, t₁, s₁, h5, h6, l', h7, rfl⟩
      · rw [h5] at h1
        cases h1
      rw [h5] at h1
      cases h1
      rw [h6] at h3
      cases h3
      exact ⟨l', manned_begin h hcur h7 h4⟩
  | some cur =>
    obtain ⟨a, key, p⟩ := cur
    have hin := h.inside i a key p hcur
    have hon : ∀ k, (c.thread i).on k = if key = k then 1 else 0 := fun k => by rw [Caller.on, hcur]
    cases p with
    | hang =>
      simp only [Crew.step, hcur] at hstep
      cases hstep
    | ret ans =>
      simp only [Crew.step, hcur] at hstep
      cases hstep
      refine ⟨l, h.lists.set _, sound_unpin h.sound key, named_unpin h.sound.laid.records.wf h.named key,
        h.budget, fun k => ?_, fun j a' key' p hp => ?_⟩
      · refine busy_update h ?_
        rw [hon k]
        exact (busy_unpin h.sound key k).le
      · rcases cur_update hp with hp | hp
        · cases hp
        · exact h.inside j a' key' p hp
    | call q k =>
      simp only [Crew.step, hcur] at hstep
      cases hstep
      obtain ⟨h1, h2, h3, h4⟩ := perform_rest q c.store.s
      have hsound := sound_perform h.sound hin.1
      rw [perform_withLru] at hsound
      refine ⟨l, h.lists.set _, hsound, fun k' r hr => h.named k' r ?_, ?_, fun k' => ?_,
        fun j a' key' p hp => ?_⟩
      · rw [← hr]
        show c.store.s.toc.find k' = (perform q c.store.s).2.toc.find k'
        rw [h1]
      · show (perform q c.store.s).2.resident ≤ (perform q c.store.s).2.o.memoryBudget
        rw [h2, h3]
        exact h.budget
      · refine busy_update h ?_
        have hbusy : ((perform q c.store.s).2.recAt k').busy = (c.store.s.recAt k').busy := by
          rw [Store.recAt, Store.find, h1]
          rfl
        have hon' : Caller.on { c.thread i with cur := some (a, key, k (perform q c.store.s).1) } k' =
            if key = k' then 1 else 0 := rfl
        rw [hon k', hon']
        exact hbusy.le.trans le_tsub_add
      · show p.Each (Call.Inside (perform q c.store.s).2.memNext)
        rw [h4]
        rcases cur_update hp with hp | hp
        · cases hp
          exact hin.2 _
        · exact h.inside j a' key' p hp

end Manned

/-! ## Sessions -/

section Kept

variable [Os σ] {E : Env}

theorem persist_withLru (s : Store σ) (l : List CStr) (tb : List UInt8) :
    persist E (s.withLru l) tb = (persist E s tb).map fun q => (q.1, q.2.withLru l) := by
  have hexec : ∀ (s : Store σ) (p : Io (Rc × List UInt8)),
      (s.withLru l).exec p = (s.exec p).map fun q => (q.1, q.2.withLru l) :=
    fun s p => Frames.withLru (exec_withTier p) s l
  unfold persist
  rw [hexec]
  rcases s.exec (lsPwriteAll E s.direct E.tbAddr tb s.al.fileEnd) with _ | ⟨⟨rc, b⟩, s₁⟩
  · rfl
  dsimp only [Option.map_some]
  by_cases hrc : rc ≠ .ok
  · rw [if_pos hrc, if_pos hrc]
    rfl
  rw [if_neg hrc, if_neg hrc, show superblock (s₁.withLru l) tb = superblock s₁ tb from rfl, hexec]
  rcases s₁.exec (lsPwriteAll E s₁.direct E.sbAddr (superblock s₁ tb) 0) with _ | ⟨⟨rc', b'⟩, s₂⟩
  · rfl
  dsimp only [Option.map_some]
  by_cases hrc' : rc' ≠ .ok ∨ !s₂.o.durableClose
  · rw [if_pos hrc', if_pos hrc']
    rfl
  rw [if_neg hrc', if_neg hrc']
  rcases Os.fsync s₂.os with ⟨_ | _, os⟩ <;> rfl

/-- **Keeping a store** whose list lies in memory. -/
theorem closeKept_eq {t : LruStore σ} {l : List CStr} (h : t.Lists l) (hf : l.length < E.fuel) :
    t.closeKept E = closeStore E (t.s.withLru l) true := by
  unfold LruStore.closeKept closeStore
  rw [show (t.s.withLru l).o = t.s.o from rfl]
  by_cases hsh : t.s.o.parallel = .shared
  · rw [if_pos hsh, if_pos hsh]
  rw [if_neg hsh, if_neg hsh, if_pos rfl]
  have hev := tallies_evictTo (E := E) E.fuel h hf 0 none
  rw [LruStore.lsSpillAll, lsSpillAll]
  rcases hev with ⟨h1, h2⟩ | ⟨rc, t₁, s₁, h1, h2, l₁, h3, rfl⟩
  · rw [h1, h2]
  rw [h1, h2]
  dsimp only
  rw [show tocSerialise (t₁.s.withLru l₁) = tocSerialise t₁.s from rfl, persist_withLru t₁.s l₁]
  cases persist E t₁.s (tocSerialise t₁.s) with
  | none => rfl
  | some q => rfl

end Kept

/-- The stores, with the threads that work on them, that sessions on one name lead to: a store is opened
on an empty file, threads make calls in any interleaving while others do what they like to the operating
system, it is kept without an error when no call is under way, other processes may open it shared, and it
is opened again. `Call` says which calls are made when, and `Keep` when the store is closed. -/
inductive Crewed [HonestOs σ] [Fintype ι] [DecidableEq ι] (E : Env) (Call : Api → Store σ → Prop)
    (Keep : Store σ → Prop) : Crew σ ι → Prop where
  | opened {o : Opts} {os : σ} {s : Store σ} (progs : ι → List Api) : (file os).len = 0 →
      lsOpen E o os = some (.ok s) → Crewed E Call Keep (.start s progs)
  | stepped {c c' : Crew σ ι} {i : ι} : Crewed E Call Keep c → c.Begins Call i → c.step E i = some c' →
      Crewed E Call Keep c'
  | others {c : Crew σ ι} {os : σ} : Crewed E Call Keep c → c.store.s.flen ≤ (file os).len →
      Crewed E Call Keep (c.withOs os)
  | kept {c : Crew σ ι} {o : Opts} {os : σ} {s : Store σ} {π κ : Type} [DecidableEq π] [Fintype κ] [DecidableEq κ]
      {E' : π → Env} {between : π → κ → List Api} {ms : List (Event π κ)} {w : World σ π κ}
      (progs : ι → List Api) : Crewed E Call Keep c → (∀ i, (c.thread i).cur = none) →
      c.store.s.o.parallel ≠ .shared → (∀ s, Mirrors c.store s → Keep s) →
      c.store.closeKept E = some (.ok, os) → (∀ p, 2 ^ 64 ≤ (E' p).fuel) →
      (∀ p i, ∀ a ∈ between p i, a.Args64) → (∀ m ∈ ms, m.Shared) →
      sched (World.step E') ms (World.start os between) = some w →
      lsOpen E o w.os = some (.ok s) → Crewed E Call Keep (.start s progs)

theorem find_of_recs_nil {s : Store σ} (h : s.toc.WF) (hs : s.recs = []) (k : CStr) : s.find k = none := by
  by_contra hk
  obtain ⟨r, hr⟩ := Option.ne_none_iff_exists'.mp hk
  have := ((find_iff_mem h).mp hr).1
  rw [hs] at this
  cases this

section Sessions

variable [HonestOs σ] [Fintype ι] [DecidableEq ι] {E : Env} {c : Crew σ ι} {l : List CStr}

omit [DecidableEq ι] in
/-- A store that is kept, and opened again after others had it open shared. -/
theorem manned_kept {π κ : Type} [DecidableEq π] [Fintype κ] [DecidableEq κ] {E' : π → Env}
    {between : π → κ → List Api} {ms : List (Event π κ)} {w : World σ π κ} {o : Opts} {os : σ} {s : Store σ}
    (hF : 2 ^ 64 ≤ E.fuel) (h : c.Manned l) (hidle : ∀ i, (c.thread i).cur = none)
    (hsh : c.store.s.o.parallel ≠ .shared) (hfew : Few E (c.store.s.withLru l))
    (hclose : c.store.closeKept E = some (.ok, os)) (hF' : ∀ p, 2 ^ 64 ≤ (E' p).fuel)
    (hargs : ∀ p i, ∀ a ∈ between p i, a.Args64) (hms : ∀ m ∈ ms, m.Shared)
    (hrun : sched (World.step E') ms (World.start os between) = some w)
    (hopen : lsOpen E o w.os = some (.ok s)) (progs : ι → List Api) : (Crew.start s progs).Manned [] := by
  have hlen : l.length < E.fuel := (lru_length_lt h.sound.laid).trans_le (by omega)
  rw [closeKept_eq h.lists hlen] at hclose
  obtain ⟨rc, os', h1, h2⟩ := closeStore_spec hF h.sound hsh
  rw [hclose] at h1
  cases h1
  obtain ⟨s₁, h3, h4, h5⟩ := h2.kept rfl
  have hbusy : Idle (c.store.s.withLru l) := fun k =>
    Nat.le_zero.mp ((h.busy k).trans (flights_idle hidle k).le)
  have hc := closable_of_evicted hbusy h.named h4 (hfew s₁ h3)
  have hf := h5.stored rfl
  have hstart : (World.start os between : World σ π κ).Stands s₁ (file os) :=
    ⟨.refl, fun p => ⟨fun _ ht => (by cases ht), fun _ _ _ _ hx => (by cases hx),
      fun _ _ hm => (by cases hm), fun i => hargs p i⟩⟩
  have hw : w.Stands s₁ (file os) := inv_of_sched (fun w => w.Stands s₁ (file os))
    (fun m w w' hw hm hstep => world_step hF' hc hf hw hm hstep) hstart (along_shared hms _) hrun
  obtain ⟨hc', hf'⟩ := storedIn_outside hc hf hw.file
  obtain ⟨r, h6, h7⟩ := lsOpen_storedIn hF hc' hf' (optsRefused_of_lsOpen hopen)
  rw [hopen] at h6
  cases h6
  have hr := h7.reopened s rfl
  refine manned_start hr.sound (fun k r hk => ?_) hr.idle hr.spilt.1 hr.spilt.2 progs
  obtain ⟨q, hq, hrow⟩ := hr.rows.some hk
  have hattr : r.attr = q.attr := congrArg Row.attr hrow
  rw [hattr]
  exact hc'.named k q hq

/-- **What holds in every session.** -/
theorem manned_of_crewed (hF : 2 ^ 64 ≤ E.fuel) (h : Crewed E (Api.Tame E) (Few E) c) : ∃ l, c.Manned l := by
  induction h with
  | @opened o os s progs hfile hopen =>
    have hset := settled_opened hfile hopen
    obtain ⟨direct, os', rfl, -⟩ := lsOpen_empty hfile hopen
    refine ⟨[], manned_start hset.sound hset.named hset.idle rfl (fun k r hk => ?_) progs⟩
    rw [find_of_recs_nil hset.sound.laid.records.wf (Chained.toList_empty 64) k] at hk
    cases hk
  | stepped _ hadm hstep ih =>
    obtain ⟨l, hl⟩ := ih
    exact manned_step hF hl hadm hstep
  | others _ hlen ih =>
    obtain ⟨l, hl⟩ := ih
    exact ⟨l, hl.withOs hlen⟩
  | kept progs _ hidle hsh hkeep hclose hF' hargs hms hrun hopen ih =>
    obtain ⟨l, hl⟩ := ih
    exact ⟨[], manned_kept hF hl hidle hsh (hkeep _ ⟨l, hl.lists, rfl⟩) hclose hF' hargs hms hrun hopen progs⟩

/-! ## The tier -/

/-- The count of resident bytes is right and within the budget, every record has the bytes that it says
it has, the list is that of the resident records, and eviction ends. -/
structure LruStore.Within (E : Env) (t : LruStore σ) : Prop where
  resident : t.s.resident = ((t.s.recs.filter fun r => r.mem.isSome).map Rec.memCap).sum
  budget : t.s.resident ≤ t.s.o.memoryBudget
  hasMem : ∀ k r, t.s.find k = some r → r.mem ≠ none → 1 ≤ r.memCap ∧ r.size ≤ r.memCap
  noMem : ∀ k r, t.s.find k = some r → r.mem = none → r.size ≤ r.extTotal
  list : ∃ l, t.w.Spells l ∧ ∀ k, k ∈ l ↔ ∃ r, t.s.find k = some r ∧ r.mem ≠ none
  evicts : ∀ budget keep, ∃ vs rc t', t.lsEvictTo E E.fuel budget keep = some (rc, t') ∧
    t.Evicts E budget keep vs rc t'
  spilt : (∀ k, (t.s.recAt k).busy = 0) → ∀ t', t.lsSpillAll E = some (.ok, t') →
    ∀ k r, t'.s.find k = some r → r.mem = none

omit [HonestOs σ] [Fintype ι] [DecidableEq ι] in
/-- Records without a buffer count for nothing. -/
theorem sum_resident {rs : List Rec} (h : ∀ r ∈ rs, r.mem = none → r.memCap = 0) :
    (rs.map Rec.memCap).sum = ((rs.filter fun r => r.mem.isSome).map Rec.memCap).sum := by
  induction rs with
  | nil => rfl
  | cons r rs ih =>
    have hrs := ih fun q hq => h q (List.mem_cons_of_mem _ hq)
    rw [List.filter_cons, List.map_cons, List.sum_cons, hrs]
    by_cases hr : r.mem.isSome = true
    · rw [if_pos hr, List.map_cons, List.sum_cons]
    · rw [if_neg hr, h r List.mem_cons_self (by simpa using hr), Nat.zero_add]

omit [DecidableEq ι] in
theorem Crew.Manned.within (hF : 2 ^ 64 ≤ E.fuel) (h : c.Manned l) : c.store.Within E := by
  have hlaid := h.sound.laid
  have hok := hlaid.records.ok
  have hlen : l.length < E.fuel := (lru_length_lt hlaid).trans_le (by omega)
  refine ⟨?_, h.budget, fun k r hk hm => (hok k r hk).hasMem hm, fun k r hk hm => ((hok k r hk).noMem hm).2,
    ⟨l, h.lists.spells, lists_mem h.sound⟩, evicts_of_lists hF E.fuel h.lists h.sound hlen,
    fun hidle t' hsp k r hk => ?_⟩
  · have hsum := hlaid.tiered.resident
    rw [sum_resident fun r hr hm => ((hok _ _ (find_of_mem hlaid.records.wf hr)).noMem hm).1] at hsum
    exact hsum
  · obtain ⟨rc, s₁, h1, h2⟩ := lsSpillAll_spec hF h.sound
    rw [LruStore.lsSpillAll] at hsp
    rw [lsSpillAll] at h1
    rcases tallies_evictTo (E := E) E.fuel h.lists hlen 0 none with ⟨h3, -⟩ | ⟨rc', t₁, s₂, h3, h4, l₁, -, rfl⟩
    · rw [h3] at hsp
      cases hsp
    rw [h3] at hsp
    cases hsp
    rw [h4] at h1
    cases h1
    have hidle' : Idle (c.store.s.withLru l) := hidle
    exact (spilt_of_evicted hidle' h2).2 k r hk

/-- **The memory tier stays within its budget and its list stays true**, in every session of any number
of threads in which no tail wraps and every table of contents can say how many extents a record has. -/
theorem tier_within_budget (hF : 2 ^ 64 ≤ E.fuel) (h : Crewed E (Api.Tame E) (Few E) c) :
    c.store.Within E := by
  obtain ⟨l, hl⟩ := manned_of_crewed hF h
  exact hl.within hF

end Sessions

/-! ## On a disk -/

section Disk

/-- Writes that end within `2 ^ 63` never make a tail wrap. -/
def Api.LowWrite (a : Api) : Prop := ∃ key off buf addr, a = .plain (.write key off buf addr) ∧
  off + buf.length ≤ 2 ^ 63

theorem crewed_lowWrites [HonestOs σ] [Fintype ι] [DecidableEq ι] {E : Env} (hF : 2 ^ 64 ≤ E.fuel) {is : List ι}
    {c c' : Crew σ ι} (h : Crewed E (Api.Tame E) (Few E) c) (hw : ∀ i, ∀ a ∈ (c.thread i).todo, a.LowWrite)
    (hrun : sched (Crew.step E) is c = some c') : Crewed E (Api.Tame E) (Few E) c' := by
  induction is generalizing c with
  | nil =>
    cases hrun
    exact h
  | cons i is ih =>
    rw [sched] at hrun
    cases hstep : c.step E i with
    | none =>
      rw [hstep] at hrun
      cases hrun
    | some c₁ =>
      rw [hstep] at hrun
      have hsub : ∀ j, (c₁.thread j).todo ⊆ (c.thread j).todo := todo_step hstep
      refine ih (h.stepped (fun a todo s hcur ha hs => ?_) hstep) (fun j a ha => hw j a (hsub j ha)) hrun
      obtain ⟨key, off, buf, addr, rfl, hend⟩ := hw i a (by rw [ha]; exact List.mem_cons_self)
      obtain ⟨l, hl⟩ := manned_of_crewed hF h
      obtain ⟨m, hm, rfl⟩ := hs
      rw [hm.spells.unique hl.lists.spells]
      exact ⟨⟨by omega, by omega⟩, fun _ => ⟨by omega, by omega, fun _ => roomFits_of_le hF hl.sound hend⟩⟩

/-- Two threads that write, on a store that has room in memory for one of their records. -/
def twoWriters : Bool → List Api
  | false => [.plain (.write keyA 0 [1, 2, 3, 4, 5] 0)]
  | true => [.plain (.write keyB 0 [6, 7, 8, 9, 10, 11] 0)]

/-- The second writer makes the first record go to the file. -/
theorem tier_within_budget_two : ∃ c : Crew Disk Bool,
    sched (Crew.step Env.ample) [false, false, false, true] (.start (Disk.newStore { memoryBudget := 8 }) twoWriters) =
      some c ∧ c.store.s.resident = 6 ∧ c.store.w.lruTail = some keyB ∧ c.store.Within Env.ample := by
  have hF : 2 ^ 64 ≤ Env.ample.fuel := Nat.le_refl _
  have hrun : ((sched (Crew.step Env.ample) [false, false, false, true]
      (Crew.start (Disk.newStore { memoryBudget := 8 }) twoWriters)).map fun c =>
        (c.store.s.resident, c.store.w.lruTail)) = some (6, some keyB) := by decide +kernel
  obtain ⟨c, h1, h2⟩ := Option.map_eq_some_iff.mp hrun
  rw [Prod.mk.injEq] at h2
  have hstart : Crewed Env.ample (Api.Tame Env.ample) (Few Env.ample)
      (Crew.start (Disk.newStore { memoryBudget := 8 }) twoWriters) :=
    .opened _ rfl (Disk.lsOpen_blank _ rfl (by decide))
  have hlow : ∀ i, ∀ a ∈ twoWriters i, a.LowWrite := by
    intro i a ha
    cases i <;> rw [List.mem_singleton.mp ha]
    · exact ⟨keyA, 0, [1, 2, 3, 4, 5], 0, rfl, by decide⟩
    · exact ⟨keyB, 0, [6, 7, 8, 9, 10, 11], 0, rfl, by decide⟩
  exact ⟨c, h1, h2.1, h2.2, tier_within_budget hF (crewed_lowWrites hF hstart hlow h1)⟩

/-- A thread that reserves `LS_ALIGN` bytes more, `N` times. -/
def growing (N : ℕ) : Unit → List Api := fun _ =>
  (List.range N).map fun n => .plain (.reserve keyA ((n + 1) * LS_ALIGN))

/-- The store after `n` of its calls. -/
structure Amassed (N n : ℕ) (c : Crew Disk Unit) (s : Store Disk) : Prop where
  crewed : Crewed Env.ample (Api.Tame Env.ample) (fun _ => True) c
  mirrors : Mirrors c.store s
  stacked : Stacked n s
  size : n * LS_ALIGN ≤ (s.recAt keyA).size
  idle : (c.thread ()).cur = none
  todo : (c.thread ()).todo = (growing N ()).drop n

theorem amassed_zero (N : ℕ) : Amassed N 0 (.start (Disk.newStore {}) (growing N)) (Disk.newStore {}) where
  crewed := .opened _ rfl (Disk.lsOpen_blank _ rfl (by decide))
  mirrors := ⟨[], ⟨Lru.spells_opened, ranked_nil, fun _ => Nat.le_refl _⟩, rfl⟩
  stacked := stacked_zero
  size := (Nat.zero_mul _).le.trans (Nat.zero_le _)
  idle := rfl
  todo := rfl

theorem amassed_succ {N n : ℕ} {c : Crew Disk Unit} {s : Store Disk} (h : Amassed N n c s) (hn : n < N)
    (hN : N ≤ 2 ^ 32) : ∃ c' s', Amassed N (n + 1) c' s' := by
  have hF : 2 ^ 64 ≤ Env.ample.fuel := Nat.le_refl _
  have hend : (n + 1) * LS_ALIGN ≤ 2 ^ 44 := by
    rw [show LS_ALIGN = 4096 from rfl]
    omega
  have hsound := (h.stacked.reached.settled hF).sound
  obtain ⟨s', h1, h2, h3⟩ := stacked_reserve h.stacked (by omega)
  obtain ⟨l, h4, hs⟩ := h.mirrors
  have htodo : (c.thread ()).todo = .plain (.reserve keyA ((n + 1) * LS_ALIGN)) :: (growing N ()).drop (n + 1) := by
    have hlen : n < (growing N ()).length := by
      rw [growing, List.length_map, List.length_range]
      exact hn
    rw [h.todo, List.drop_eq_getElem_cons hlen]
    congr 1
    simp [growing]
  rw [hs] at h1 hsound
  have hlen : l.length < Env.ample.fuel := (lru_length_lt hsound.laid).trans_le (by omega)
  rcases tallies_reserve (E := Env.ample) h4 hlen keyA ((n + 1) * LS_ALIGN) with ⟨-, h5⟩ | ⟨rc, t', s₁, h5, h6, h7⟩
  · rw [h5] at h1
    cases h1
  rw [h6] at h1
  cases h1
  have henter : c.store.enter Env.ample (.plain (.reserve keyA ((n + 1) * LS_ALIGN))) =
      some (.done (.plain { rc := .ok }), t') := by
    simp only [LruStore.enter, LruStore.enterOp]
    rw [h5]
    rfl
  have hstep : c.step Env.ample () = some ⟨t', Function.update c.thread ()
      ((c.thread ()).begin (.plain (.reserve keyA ((n + 1) * LS_ALIGN))) ((growing N ()).drop (n + 1))
        (.done (.plain { rc := .ok })))⟩ := by
    simp only [Crew.step, h.idle, htodo]
    rw [henter]
    rfl
  refine ⟨_, s', h.crewed.stepped (fun a todo u hcur ha hu => ?_) hstep, h7, h2, h3, ?_, ?_⟩
  · rw [htodo] at ha
    cases ha
    obtain ⟨l', h8, rfl⟩ := hu
    rw [h8.spells.unique h4.spells]
    exact ⟨trivial, fun _ => ⟨by omega, roomFits_of_le hF hsound (by omega)⟩⟩
  · show (Function.update c.thread () _ ()).cur = none
    rw [Function.update_self]
    exact h.idle
  · show (Function.update c.thread () _ ()).todo = _
    rw [Function.update_self]
    rfl

theorem exists_amassed {N n : ℕ} (hn : n ≤ N) (hN : N ≤ 2 ^ 32) : ∃ c s, Amassed N n c s := by
  induction n with
  | zero => exact ⟨_, _, amassed_zero N⟩
  | succ n ih =>
    obtain ⟨c, s, h⟩ := ih (by omega)
    exact amassed_succ h (by omega) hN

/-- **Extents that the table of contents cannot count leave a record short**: a store whose record has
`2 ^ 32` extents is kept without an error, and in what is opened again the record has its size and no
bytes. -/
theorem tier_truncated : ∃ c : Crew Disk Unit, Crewed Env.ample (Api.Tame Env.ample) (fun _ => True) c ∧
    ¬ c.store.Within Env.ample := by
  have hF : 2 ^ 64 ≤ Env.ample.fuel := Nat.le_refl _
  obtain ⟨c, s, h⟩ := exists_amassed (Nat.le_refl (2 ^ 32)) (Nat.le_refl _)
  obtain ⟨os, h1, h2⟩ := h.stacked.close
  have hopen := h.stacked.reloads h2
  have hopts := h.stacked.opts.1
  have hsound := (h.stacked.reached.settled hF).sound
  have hsize := h.size
  obtain ⟨l, h3, hs⟩ := h.mirrors
  rw [hs] at hsound
  have hclose : c.store.closeKept Env.ample = some (.ok, os) := by
    rw [closeKept_eq h3 ((lru_length_lt hsound.laid).trans_le (by omega)), ← hs]
    exact h1
  have hloc : c.store.s.o.parallel ≠ .shared := by
    have ho : c.store.s.o = s.o := by rw [hs]
    rw [ho, hopts]
    decide
  have hrun : sched (World.step fun _ : Unit => Env.ample) []
      (World.start os fun (_ : Unit) (_ : Unit) => ([] : List Api)) = some (World.start os fun _ _ => []) := rfl
  have hkept : Crewed Env.ample (Api.Tame Env.ample) (fun _ => True) (Crew.start (loadRec
      (blankStore {} false os s.al.fileEnd) keyA (s.recAt keyA).size [] []) fun _ : Unit => []) :=
    .kept _ h.crewed (fun _ => h.idle) hloc (fun _ _ => trivial) hclose (fun _ => hF)
      (fun _ _ _ ha => (by cases ha)) (fun _ hm => (by cases hm)) hrun hopen
  refine ⟨_, hkept, fun hw => ?_⟩
  have hfind : (loadRec (blankStore {} false os s.al.fileEnd) keyA (s.recAt keyA).size [] []).find keyA =
      some { key := keyA, size := (s.recAt keyA).size } := by
    have hwf : (blankStore {} false os s.al.fileEnd).toc.WF := Chained.wf_empty (by norm_num)
    have hnone := find_of_recs_nil hwf (loading_blankStore {} false os s.al.fileEnd).2 keyA
    have hrec : loadedRec (blankStore {} false os s.al.fileEnd).arrNext keyA (s.recAt keyA).size [] [] =
        { key := keyA, size := (s.recAt keyA).size } := if_pos rfl
    rw [Store.find, toc_loadRec, hrec, Chained.find_insert (v := { key := keyA, size := (s.recAt keyA).size }) hwf hnone]
    exact if_pos rfl
  have hle := hw.noMem keyA _ hfind rfl
  have hpos : 0 < 2 ^ 32 * LS_ALIGN := Nat.mul_pos (by norm_num) (by decide)
  exact absurd (hpos.trans_le (hsize.trans hle)) (Nat.lt_irrefl 0)

end Disk

end Libspill
