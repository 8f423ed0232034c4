import Libspill.Track

set_option autoImplicit false

/-!
# Threads on distinct keys

* `outsOf_refRun`: on the reference map, calls on other keys do not change a thread's answers.
* **`distinct_keys_alone`**: threads that share no key get the answers each of them gets alone, as
  long as no call asks for room up to an end of `2 ^ 63` or more.
* `distinct_keys_wrap`: a reservation near `2 ^ 64` wraps the end of the file, and the next one is
  laid over another thread's record.
-/

namespace Libspill

variable {σ ι : Type} [HonestOs σ] [Fintype ι] [DecidableEq ι] {E : Env}

open HonestOs (clean)

/-- Every call is about one key, and no key is used by two threads. -/
def KeysApart (progs : ι → List Op) : Prop :=
  (∀ i, ∀ op ∈ progs i, op.key? ≠ none) ∧
    ∀ i j, i ≠ j → ∀ op ∈ progs i, ∀ op' ∈ progs j, op.key? ≠ op'.key?

/-- The threads when only `i` has calls to make. -/
def alone (i : ι) (progs : ι → List Op) : ι → List Op := Function.update (fun _ => []) i (progs i)

/-- The size of the record a call is about. -/
def Store.sizeFor (s : Store σ) (op : Op) : ℕ := (op.key?.map fun k => (s.recAt k).size).getD 0

/-- The call that a thread is about to make is within bounds. -/
def Config.Small (i : ι) (c : Config σ ι) : Prop :=
  ∀ op, c.next i = some op → op.Within (c.store.sizeFor op)

omit [HonestOs σ] [Fintype ι] [DecidableEq ι] in
theorem Config.small_of_next {i : ι} {c : Config σ ι} {op : Op} (h : c.next i = some op) :
    op.Within (c.store.sizeFor op) ↔ c.Small i :=
  ⟨fun hw op' hop' => by rw [h] at hop'; cases hop'; exact hw, fun hs => hs op h⟩

instance (i : ι) (c : Config σ ι) : Decidable (c.Small i) :=
  match h : c.next i with
  | none => isTrue fun op hop => by rw [h] at hop; cases hop
  | some _ => decidable_of_iff _ (Config.small_of_next h)

/-! ## The reference map -/

section Ref

variable {i : ι}

omit [Fintype ι] in
/-- On the reference map, calls on other keys do not change a thread's answers. -/
theorem outsOf_refRun (sh : Bool) (m₀ : RefMap) {log : List (Logged ι)} {K : CStr → Prop}
    (hmine : ∀ l ∈ log, l.thread = i → ∃ k, l.op.key? = some k ∧ K k)
    (hother : ∀ l ∈ log, l.thread ≠ i → ∀ k, l.op.key? = some k → ¬ K k) :
    outsOf i log (refRun sh (calls log) m₀).1 = (refRun sh (callsOf i log) m₀).1 ∧
      ∀ k, K k → (refRun sh (calls log) m₀).2.lookup k = (refRun sh (callsOf i log) m₀).2.lookup k := by
  induction log using List.reverseRecOn with
  | nil => exact ⟨rfl, fun _ _ => rfl⟩
  | append_singleton log l ih =>
    obtain ⟨ih1, ih2⟩ := ih (fun l' hl' => hmine l' (List.mem_append_left _ hl'))
      (fun l' hl' => hother l' (List.mem_append_left _ hl'))
    have hl : l ∈ log ++ [l] := by simp
    have hcalls : calls (log ++ [l]) = calls log ++ [l.op] := by simp [calls]
    rw [hcalls, refRun_append, callsOf_append, outsOf_append i (by simp [calls, length_refRun])]
    by_cases hi : l.thread = i
    · obtain ⟨k, hk, hK⟩ := hmine l hl hi
      rw [if_pos hi, if_pos hi, refRun_append, refStep_of_key hk, refStep_of_key hk, ih1, ih2 k hK]
      refine ⟨rfl, fun k' hk' => ?_⟩
      dsimp only
      rw [RefMap.lookup_put, RefMap.lookup_put, ih2 k' hk']
    · rw [if_neg hi, if_neg hi, List.append_nil, List.append_nil]
      refine ⟨ih1, fun k hK => ?_⟩
      rw [← ih2 k hK]
      cases hkey : l.op.key? with
      | none => rw [Op.refStep, hkey]
      | some k' =>
        rw [refStep_of_key hkey]
        dsimp only
        rw [RefMap.lookup_put, if_neg]
        rintro rfl
        exact hother l hl hi k' hkey hK

theorem refRun_prefix {sh : Bool} {m₀ : RefMap} {ops ops' : List Op} (h : ops <+: ops') :
    (refRun sh ops m₀).1 <+: (refRun sh ops' m₀).1 := by
  induction ops generalizing ops' m₀ with
  | nil => exact List.nil_prefix
  | cons op ops ih =>
    obtain ⟨t, rfl⟩ := h
    simp only [List.cons_append, refRun, List.prefix_cons_inj]
    exact ih (List.prefix_append ops t)

end Ref

/-! ## Runs -/

section Runs

variable {o : Opts} {direct : Bool} {m₀ : RefMap} {progs : ι → List Op} {g : ι → Option Pend}
  {c : Config σ ι} {i : ι}

omit [Fintype ι] [DecidableEq ι] in
theorem fits_of_small (hF : 2 ^ 64 ≤ E.fuel) (h : Sound c.store) (hs : c.Small i) {op : Op}
    (hop : c.next i = some op) : op.Fits E c.store :=
  fits_of_within hF h (fun key hkey => by rw [Store.sizeFor, hkey]; rfl) (hs op hop)

/-- Where no key is shared every small step is calm. -/
theorem calm_of_keysApart (hF : 2 ^ 64 ≤ E.fuel) (hk : KeysApart progs)
    (h : Tracks o direct m₀ progs g c) (hs : c.Small i) : c.Calm E i := by
  refine fun op hop => ⟨fits_of_small hF h.sound hs hop, fun j x pl p hj hkey => ?_⟩
  have hne : i ≠ j := by
    rintro rfl
    rw [(Config.next_eq_some.mp hop).1] at hj
    cases hj
  rcases h.holding j with ⟨-, hn⟩ | ⟨pd, p', hgj, hcur, -⟩
  · rw [hj] at hn
    cases hn
  rw [hj] at hcur
  cases hcur
  obtain ⟨op', -, hof, hl⟩ := h.logged j pd hgj
  exact absurd (hkey.trans hof.key.symm)
    (hk.2 i j hne op (mem_progs_of_next h.toSteady hop) op' (mem_progs_of_log h.toSteady hl))

theorem keeps_tracks (hF : 2 ^ 64 ≤ E.fuel) (hk : KeysApart progs) :
    Keeps (Config.step E) Config.Small Config.Clean
      fun c : Config σ ι => ∃ g, Tracks o direct m₀ progs g c := by
  rintro i c ⟨g, h⟩ hs
  exact tracks_step hF h (calm_of_keysApart hF hk h hs)

/-- The answers of a thread are those of its own calls on the reference map. -/
theorem outs_of_tracks (hk : KeysApart progs) (h : Tracks o direct m₀ progs g c) (i : ι) :
    (c.thread i).outs <+: (refRun o.shared (progs i) m₀).1 ∧
      ((c.thread i).Done → (c.thread i).outs = (refRun o.shared (progs i) m₀).1) := by
  obtain ⟨h1, -⟩ := outsOf_refRun o.shared m₀ (i := i)
    (K := fun k => ∃ op ∈ progs i, op.key? = some k)
    (fun l hl hli => by
      obtain ⟨k, hk'⟩ := Option.ne_none_iff_exists'.mp (hk.1 _ _ (mem_progs_of_log h.toSteady hl))
      exact ⟨k, hk', l.op, hli ▸ mem_progs_of_log h.toSteady hl, hk'⟩)
    (fun l hl hli k hlk hK => by
      obtain ⟨op, hop, hopk⟩ := hK
      exact hk.2 _ _ hli _ (mem_progs_of_log h.toSteady hl) op hop (hlk.trans hopk.symm))
  have hcalls := h.calls i
  refine ⟨?_, fun hd => ?_⟩
  · refine (List.prefix_append _ ((g i).map Pend.out).toList).trans ?_
    rw [h.outs i, h1, ← hcalls]
    exact refRun_prefix (List.prefix_append _ _)
  · have hgi := (h.holding i).idle hd.2
    have houts := h.outs i
    rw [hgi, Option.map_none, Option.toList_none, List.append_nil, h1] at houts
    rw [hd.1, List.append_nil] at hcalls
    rw [houts, hcalls]

omit [HonestOs σ] [Fintype ι] in
theorem keysApart_alone (hk : KeysApart progs) (i : ι) : KeysApart (alone i progs) := by
  have hmem : ∀ j op, op ∈ alone i progs j → j = i ∧ op ∈ progs i := by
    intro j op hop
    unfold alone at hop
    by_cases hj : j = i
    · subst hj
      rw [Function.update_self] at hop
      exact ⟨rfl, hop⟩
    · rw [Function.update_of_ne hj] at hop
      cases hop
  refine ⟨fun j op hop => hk.1 i op (hmem j op hop).2, fun j j' hjj op hop op' hop' => ?_⟩
  exact absurd ((hmem j op hop).1.trans (hmem j' op' hop').1.symm) hjj

/-- **Threads that share no key do not interfere**: whatever the order of the steps, every call
answers what it answers when its thread is alone with the store. -/
theorem distinct_keys_alone (hF : 2 ^ 64 ≤ E.fuel) {o : Opts} {ops : List Op} {s : Store σ}
    (hs : Used E o ops s) {progs : ι → List Op} (hk : KeysApart progs) (i : ι) {is js : List ι}
    (hall : Along (Config.step E) Config.Small Config.Clean is (Config.start s progs))
    (halone : Along (Config.step E) Config.Small Config.Clean js
      (Config.start s (alone i progs))) :
    ∃ c c', sched (Config.step E) is (Config.start s progs) = some c ∧
      sched (Config.step E) js (Config.start s (alone i progs)) = some c' ∧
      ((c.thread i).outs <+: (c'.thread i).outs ∨ (c'.thread i).outs <+: (c.thread i).outs) ∧
      ((c.thread i).Done → (c'.thread i).Done → (c.thread i).outs = (c'.thread i).outs) := by
  obtain ⟨h1, hsl, h2, h3, -, -, -, h4⟩ := hs.spec hF
  have hka := keysApart_alone hk i
  obtain ⟨c, hc, g, ht⟩ := sched_of_along (keeps_tracks hF hk) is
    ⟨_, tracks_start h1 hsl h3 h2 h4 progs⟩ hall
  obtain ⟨c', hc', g', ht'⟩ := sched_of_along (keeps_tracks hF hka) js
    ⟨_, tracks_start h1 hsl h3 h2 h4 (alone i progs)⟩ halone
  obtain ⟨e1, e2⟩ := outs_of_tracks hk ht i
  obtain ⟨e3, e4⟩ := outs_of_tracks hka ht' i
  have hprog : alone i progs i = progs i := Function.update_self ..
  rw [hprog] at e3 e4
  refine ⟨c, c', hc, hc', ?_, fun hd hd' => (e2 hd).trans (e4 hd').symm⟩
  rcases Nat.le_total (c.thread i).outs.length (c'.thread i).outs.length with hle | hle
  · exact Or.inl (List.prefix_of_prefix_length_le e1 e3 hle)
  · exact Or.inr (List.prefix_of_prefix_length_le e3 e1 hle)

/-- Two threads whose records share the memory tier: the second one's append evicts the first one's
record. -/
def apartProgs : Bool → List Op
  | false => [.write keyA 0 [7, 8] 0, .read keyA 0 2 0]
  | true => [.append keyB [9] 0, .erase keyB]

/-- The steps of the two threads, one by one. -/
def apartSched : List Bool := [false, true, false, true, false, true, false, false, true, false, false]

theorem distinct_keys_alone_evicted : KeysApart apartProgs ∧ ∃ c c',
    sched (Config.step Env.ample) apartSched
      (Config.start (Disk.newStore { memoryBudget := 2 }) apartProgs) = some c ∧
    sched (Config.step Env.ample) (List.replicate 6 false)
      (Config.start (Disk.newStore { memoryBudget := 2 }) (alone false apartProgs)) = some c' ∧
    ((c.thread false).outs <+: (c'.thread false).outs ∨
      (c'.thread false).outs <+: (c.thread false).outs) ∧
    ((c.thread false).Done → (c'.thread false).Done →
      (c.thread false).outs = (c'.thread false).outs) := by
  have hk : KeysApart apartProgs := ⟨by decide, by decide⟩
  exact ⟨hk, distinct_keys_alone (Nat.le_refl _) (Disk.used_newStore _ rfl (by decide)) hk false
    (by decide +kernel) (by decide +kernel)⟩

end Runs

/-! ## Near `2 ^ 64` -/

/-- One thread keeps a byte, the other reserves all that is left of the 64-bit range and then a
little more. -/
def wrapProgs : Bool → List Op
  | false => [.write keyA 0 [7] 0, .read keyA 0 1 0]
  | true => [.reserve keyB (2 ^ 64 - 8192), .reserve keyC 8192]

/-- The byte is written, the reservations are made, the byte is read. -/
def wrapSched : List Bool := List.replicate 4 false ++ [true, true] ++ List.replicate 4 false

/-- The first reservation is accepted and wraps the end of the file to 0, so the second one is laid
over the first thread's extent and zeroes it. -/
theorem distinct_keys_wrap :
    KeysApart wrapProgs ∧
      Along (Config.step Env.ample) (fun _ _ => True) Config.Clean wrapSched
        (Config.start (Disk.newStore {}) wrapProgs) ∧
      (sched (Config.step Env.ample) wrapSched (Config.start (Disk.newStore {}) wrapProgs)).map
        (fun c => ((c.thread false).outs.map Out.data, (c.thread true).outs.map Out.rc)) =
          some ([[], [0]], [.ok, .ok]) ∧
      Along (Config.step Env.ample) (fun _ _ => True) Config.Clean (List.replicate 8 false)
        (Config.start (Disk.newStore {}) (alone false wrapProgs)) ∧
      (sched (Config.step Env.ample) (List.replicate 8 false)
        (Config.start (Disk.newStore {}) (alone false wrapProgs))).map
          (fun c => (c.thread false).outs.map Out.data) = some [[], [7]] := by
  refine ⟨⟨by decide, by decide⟩, ?_, ?_, ?_, ?_⟩
  · decide +kernel
  · decide +kernel
  · decide +kernel
  · decide +kernel

end Libspill
