import Mathlib

set_option autoImplicit false

/-!
# Chained hash tables

A table is a list of chains; an entry sits in the chain `hash key &&& (buckets - 1)`. The table
doubles when it is three quarters full, and the entries are pushed over in table order.

* `Chained.WF`: every entry is in its own chain, keys are distinct and the count is right.
* `Chained.find_eq`: searching one chain is searching the whole table.
* `Chained.perm_insert`, `Chained.perm_unlink`, `Chained.perm_update`: what each operation does to
  the entries; `find_insert`, `find_unlink`, `find_update`: what it does to a search.
-/

/-- Entries that carry a key, and a hash of keys. -/
class Keyed (V : Type) (K : outParam Type) where
  key : V → K
  hash : K → ℕ

/-- A table: its chains, and the number of entries. -/
structure Chained (V : Type) where
  tab : List (List V)
  n : ℕ

namespace Chained

variable {V K : Type} [DecidableEq K] [Keyed V K]

open Keyed

/-- The chain of key `k`. -/
def slot (tab : List (List V)) (k : K) : ℕ := hash V k &&& (tab.length - 1)

/-- All entries, in table order. -/
def toList (t : Chained V) : List V := t.tab.flatten

/-- The first entry under `k` in its chain. -/
def find (t : Chained V) (k : K) : Option V :=
  (t.tab.getD (slot t.tab k) []).find? fun v => key v = k

/-- Put `v` at the head of its chain. -/
def push (tab : List (List V)) (v : V) : List (List V) :=
  tab.modify (slot tab (key v)) (v :: ·)

/-- Double the number of chains. -/
def grow (t : Chained V) : Chained V :=
  { t with tab := t.tab.flatten.foldl push (List.replicate (2 * t.tab.length) []) }

/-- Insert `v`, growing first when the table would be more than three quarters full. -/
def insert (t : Chained V) (v : V) : Chained V :=
  let t := if t.n + 1 > t.tab.length - t.tab.length / 4 then t.grow else t
  { tab := push t.tab v, n := t.n + 1 }

/-- Take the first entry under `k` out of its chain. -/
def unlink (t : Chained V) (k : K) : Chained V :=
  match t.find k with
  | none => t
  | some _ => { tab := t.tab.modify (slot t.tab k) (List.eraseP fun v => key v = k), n := t.n - 1 }

/-- Change the first entry of a chain that satisfies `p`. -/
def updateFirst (p : V → Bool) (f : V → V) : List V → List V
  | [] => []
  | v :: l => if p v then f v :: l else v :: updateFirst p f l

/-- Change the first entry under `k`. -/
def update (t : Chained V) (k : K) (f : V → V) : Chained V :=
  { t with tab := t.tab.modify (slot t.tab k) (updateFirst (fun v => key v = k) f) }

/-- Every entry is in its own chain. -/
def Placed (tab : List (List V)) : Prop :=
  0 < tab.length ∧ ∀ i, ∀ v ∈ tab.getD i [], slot tab (key v) = i

/-- A well-formed table. -/
structure WF (t : Chained V) : Prop where
  placed : Placed t.tab
  nodup : (t.toList.map key).Nodup
  count : t.n = t.toList.length

/-- The empty table of `m` chains. -/
def empty (m : ℕ) : Chained V := { tab := List.replicate m [], n := 0 }

/-! ## Searching -/

/-- Among entries with distinct keys a search is membership. -/
theorem find?_eq_some_iff {l : List V} (h : (l.map key).Nodup) {k : K} {v : V} :
    (l.find? fun w => key w = k) = some v ↔ v ∈ l ∧ key v = k := by
  constructor
  · intro hf
    have h1 := List.find?_some hf
    exact ⟨List.mem_of_find?_eq_some hf, of_decide_eq_true h1⟩
  · rintro ⟨hv, rfl⟩
    cases hf : l.find? fun w => key w = key v with
    | none => exact absurd (decide_eq_true rfl) (List.find?_eq_none.mp hf v hv)
    | some w =>
      have hw := List.mem_of_find?_eq_some hf
      have hk : key w = key v := by simpa using List.find?_some hf
      rw [List.inj_on_of_nodup_map h hw hv hk]

theorem find?_perm {l m : List V} (hl : (l.map key).Nodup) (h : l.Perm m) (k : K) :
    (l.find? fun w => key w = k) = m.find? fun w => key w = k := by
  have hm : (m.map key).Nodup := (h.map key).nodup_iff.mp hl
  apply Option.ext
  intro v
  rw [find?_eq_some_iff hl, find?_eq_some_iff hm, h.mem_iff]

omit [DecidableEq K] in
theorem slot_lt {tab : List (List V)} (h : 0 < tab.length) (k : K) : slot tab k < tab.length := by
  have : hash V k &&& (tab.length - 1) ≤ tab.length - 1 := Nat.and_le_right
  unfold slot
  omega

theorem flatten_modify {tab : List (List V)} {i : ℕ} (h : i < tab.length) (f : List V → List V) :
    (tab.modify i f).flatten =
      (tab.take i).flatten ++ (f (tab.getD i []) ++ (tab.drop (i + 1)).flatten) := by
  rw [List.modify_eq_take_cons_drop h, List.flatten_append, List.flatten_cons,
    List.getD_eq_getElem _ _ h]

theorem flatten_eq {tab : List (List V)} {i : ℕ} (h : i < tab.length) :
    tab.flatten = (tab.take i).flatten ++ (tab.getD i [] ++ (tab.drop (i + 1)).flatten) := by
  have := flatten_modify h id
  rwa [List.modify_id] at this

omit [DecidableEq K] in
theorem mem_flatten_iff {tab : List (List V)} (h : Placed tab) {v : V} :
    v ∈ tab.flatten ↔ v ∈ tab.getD (slot tab (key v)) [] := by
  constructor
  · intro hv
    obtain ⟨c, hc, hvc⟩ := List.mem_flatten.mp hv
    obtain ⟨i, hi, rfl⟩ := List.mem_iff_getElem.mp hc
    have hm : v ∈ tab.getD i [] := by rwa [List.getD_eq_getElem _ _ hi]
    rwa [h.2 i v hm]
  · intro hv
    rw [flatten_eq (slot_lt h.1 (key v))]
    exact List.mem_append_right _ (List.mem_append_left _ hv)

/-- **Searching one chain is searching the table.** -/
theorem find_eq {t : Chained V} (h : WF t) (k : K) :
    t.find k = t.toList.find? fun w => key w = k := by
  have hsub : (t.tab.getD (slot t.tab k) []).Sublist t.toList := by
    rw [toList, flatten_eq (slot_lt h.placed.1 k)]
    exact (List.sublist_append_left _ _).trans (List.sublist_append_right _ _)
  have hnd := List.Nodup.sublist (hsub.map key) h.nodup
  apply Option.ext
  intro v
  rw [find, find?_eq_some_iff hnd, find?_eq_some_iff h.nodup]
  constructor
  · rintro ⟨hv, hk⟩
    exact ⟨hsub.subset hv, hk⟩
  · rintro ⟨hv, rfl⟩
    exact ⟨(mem_flatten_iff h.placed).mp hv, rfl⟩

theorem find_eq_some_iff {t : Chained V} (h : WF t) {k : K} {v : V} :
    t.find k = some v ↔ v ∈ t.toList ∧ key v = k := by
  rw [find_eq h, find?_eq_some_iff h.nodup]

theorem key_of_find {t : Chained V} (h : WF t) {k : K} {v : V} (hf : t.find k = some v) :
    key v = k := ((find_eq_some_iff h).mp hf).2

theorem find_eq_none_iff {t : Chained V} (h : WF t) {k : K} :
    t.find k = none ↔ k ∉ t.toList.map key := by
  rw [find_eq h, List.find?_eq_none]
  simp only [decide_eq_true_eq, List.mem_map, not_exists, not_and]

/-- Two well-formed tables with the same entries answer alike. -/
theorem find_of_perm {t : Chained V} (h : WF t) {l : List V} (hp : t.toList.Perm l) (k : K) :
    t.find k = l.find? fun w => key w = k := by
  rw [find_eq h, find?_perm h.nodup hp]

omit [DecidableEq K] in
theorem wf_empty {m : ℕ} (h : 0 < m) : WF (empty m : Chained V) where
  placed := by
    refine ⟨by simpa [empty] using h, fun i v hv => ?_⟩
    simp only [empty, List.getD_eq_getElem?_getD, List.getElem?_replicate] at hv
    split_ifs at hv <;> simp at hv
  nodup := by simp [toList, empty]
  count := by simp [toList, empty]

@[simp] theorem toList_empty (m : ℕ) : (empty m : Chained V).toList = [] := by
  simp [toList, empty]

/-! ## Changing one chain -/

omit [DecidableEq K] in
theorem slot_modify (tab : List (List V)) (i : ℕ) (f : List V → List V) (k : K) :
    slot (tab.modify i f) k = slot tab k := by simp [slot]

omit [DecidableEq K] in
theorem placed_modify {tab : List (List V)} (h : Placed tab) {k : K} {f : List V → List V}
    (hf : ∀ v ∈ f (tab.getD (slot tab k) []), v ∈ tab.getD (slot tab k) [] ∨ key v = k) :
    Placed (tab.modify (slot tab k) f) := by
  refine ⟨by simpa using h.1, fun i v hv => ?_⟩
  rw [slot_modify]
  rw [List.getD_eq_getElem?_getD, List.getElem?_modify] at hv
  split_ifs at hv with hi
  · have hlt := slot_lt h.1 k
    rw [← hi, List.getElem?_eq_getElem hlt, ← List.getD_eq_getElem _ [] hlt] at hv
    rcases hf v hv with h1 | rfl
    · rw [h.2 _ v h1, hi]
    · exact hi
  · rw [id_map', ← List.getD_eq_getElem?_getD] at hv
    exact h.2 i v hv

omit [DecidableEq K] in
theorem placed_push {tab : List (List V)} (h : Placed tab) (v : V) : Placed (push tab v) :=
  placed_modify h fun w hw => (List.mem_cons.mp hw).elim (fun e => Or.inr (by rw [e])) Or.inl

omit [DecidableEq K] in
theorem flatten_push {tab : List (List V)} (h : 0 < tab.length) (v : V) :
    (push tab v).flatten.Perm (v :: tab.flatten) := by
  rw [push, flatten_modify (slot_lt h _), flatten_eq (slot_lt h (key v))]
  exact List.perm_middle

omit [DecidableEq K] in
theorem length_push (tab : List (List V)) (v : V) : (push tab v).length = tab.length := by
  simp [push]

omit [DecidableEq K] in
theorem foldl_push {tab : List (List V)} (h : Placed tab) (l : List V) :
    Placed (l.foldl push tab) ∧ (l.foldl push tab).flatten.Perm (l ++ tab.flatten) := by
  induction l generalizing tab with
  | nil => exact ⟨h, List.Perm.refl _⟩
  | cons v l ih =>
    obtain ⟨h1, h2⟩ := ih (placed_push h v)
    refine ⟨h1, h2.trans ?_⟩
    exact ((flatten_push h.1 v).append_left l).trans List.perm_middle

omit [DecidableEq K] in
theorem placed_grow {t : Chained V} (h : Placed t.tab) :
    Placed t.grow.tab ∧ t.grow.toList.Perm t.toList := by
  have h0 := (wf_empty (V := V) (m := 2 * t.tab.length) (by have := h.1; omega)).placed
  obtain ⟨h1, h2⟩ := foldl_push h0 t.tab.flatten
  exact ⟨h1, by simpa [toList, grow, empty] using h2⟩

omit [DecidableEq K] in
/-- An insertion puts the entry in its chain, whether or not its key is new. -/
theorem placed_insert {t : Chained V} (h : Placed t.tab) (v : V) :
    Placed (t.insert v).tab ∧ (t.insert v).toList.Perm (v :: t.toList) := by
  obtain ⟨h1, h2⟩ := placed_grow h
  unfold insert
  split_ifs
  · exact ⟨placed_push h1 v, (flatten_push h1.1 v).trans (h2.cons v)⟩
  · exact ⟨placed_push h v, flatten_push h.1 v⟩

omit [DecidableEq K] in
theorem n_insert (t : Chained V) (v : V) : (t.insert v).n = t.n + 1 := by
  unfold insert
  split_ifs <;> rfl

/-- The entry just inserted is the first one under its key. -/
theorem update_insert (t : Chained V) {v : V} {f : V → V} (hf : key (f v) = key v) :
    (t.insert v).update (key v) f = t.insert (f v) := by
  have hpush : ∀ tab : List (List V), (push tab v).modify (slot (push tab v) (key v))
      (updateFirst (fun w => key w = key v) f) = push tab (f v) := by
    intro tab
    have hslot : slot (push tab v) (key v) = slot tab (key v) := by rw [slot, slot, length_push]
    rw [hslot, push, push, hf]
    refine List.ext_getElem? fun i => ?_
    simp only [List.getElem?_modify]
    cases tab[i]? with
    | none => rfl
    | some c =>
      by_cases hi : slot tab (key v) = i
      · simp [hi, updateFirst]
      · simp [hi]
  unfold insert update
  split_ifs
  · exact congrArg (Chained.mk · _) (hpush _)
  · exact congrArg (Chained.mk · _) (hpush _)

/-- **What an insertion does to the entries.** -/
theorem perm_insert {t : Chained V} (h : WF t) {v : V} (hv : t.find (key v) = none) :
    WF (t.insert v) ∧ (t.insert v).toList.Perm (v :: t.toList) := by
  obtain ⟨hp, hl⟩ := placed_insert h.placed v
  refine ⟨⟨hp, ?_, ?_⟩, hl⟩
  · refine (hl.map key).nodup_iff.mpr ?_
    rw [List.map_cons, List.nodup_cons]
    exact ⟨(find_eq_none_iff h).mp hv, h.nodup⟩
  · rw [n_insert, h.count, hl.length_eq, List.length_cons]

/-- **What taking an entry out does to the entries.** -/
theorem perm_unlink {t : Chained V} (h : WF t) {k : K} {v : V} (hv : t.find k = some v) :
    WF (t.unlink k) ∧ t.toList.Perm (v :: (t.unlink k).toList) := by
  have hlt := slot_lt h.placed.1 k
  have hu : t.unlink k = ⟨t.tab.modify (slot t.tab k) (List.eraseP fun v => key v = k), t.n - 1⟩ := by
    rw [unlink, hv]
  have hv' : (t.tab.getD (slot t.tab k) []).find? (fun w => key w = k) = some v := hv
  obtain ⟨hk, as, bs, hsplit, has⟩ := List.find?_eq_some_iff_append.mp hv'
  have hk' : key v = k := of_decide_eq_true hk
  have her : (t.tab.getD (slot t.tab k) []).eraseP (fun w => decide (key w = k)) = as ++ bs := by
    rw [hsplit, List.eraseP_append_right _ (by simpa using has),
      List.eraseP_cons_of_pos (by simpa using hk')]
  have hl : t.toList.Perm (v :: (t.unlink k).toList) := by
    rw [hu, toList, toList, flatten_modify hlt, flatten_eq hlt, her, hsplit]
    simp only [List.append_assoc, List.cons_append]
    rw [← List.append_assoc, ← List.append_assoc]
    exact List.perm_middle
  refine ⟨⟨?_, ?_, ?_⟩, hl⟩
  · rw [hu]
    exact placed_modify h.placed fun w hw => Or.inl (List.mem_of_mem_eraseP hw)
  · have := (hl.map key).nodup_iff.mp h.nodup
    exact (List.nodup_cons.mp this).2
  · have h1 := hl.length_eq
    have h2 := h.count
    rw [List.length_cons] at h1
    rw [hu] at h1 ⊢
    change t.n - 1 = _
    omega

theorem updateFirst_split {p : V → Bool} {f : V → V} {l : List V} {v : V}
    (h : l.find? p = some v) : ∃ as bs, l = as ++ v :: bs ∧ updateFirst p f l = as ++ f v :: bs := by
  induction l with
  | nil => cases h
  | cons w l ih =>
    simp only [updateFirst]
    by_cases hw : p w
    · rw [List.find?_cons_of_pos hw] at h
      cases h
      exact ⟨[], l, rfl, by rw [if_pos hw]; rfl⟩
    · rw [List.find?_cons_of_neg hw] at h
      obtain ⟨as, bs, h1, h2⟩ := ih h
      exact ⟨w :: as, bs, by rw [h1]; rfl, by rw [if_neg hw, h2]; rfl⟩

theorem updateFirst_of_none {p : V → Bool} {f : V → V} {l : List V} (h : l.find? p = none) :
    updateFirst p f l = l := by
  induction l with
  | nil => rfl
  | cons w l ih =>
    rw [List.find?_eq_none] at h
    rw [updateFirst, if_neg (h w (List.mem_cons_self ..)),
      ih (List.find?_eq_none.mpr fun v hv => h v (List.mem_cons_of_mem _ hv))]

/-- Under a key that has no entry there is nothing to change. -/
theorem update_of_none {t : Chained V} {k : K} {f : V → V} (h : t.find k = none) :
    t.update k f = t := by
  have htab : t.tab.modify (slot t.tab k) (updateFirst (fun v => key v = k) f) = t.tab := by
    refine List.ext_getElem? fun i => ?_
    rw [List.getElem?_modify]
    by_cases hi : slot t.tab k = i
    · subst hi
      cases hc : t.tab[slot t.tab k]? with
      | none => rfl
      | some c =>
        have hfind : c.find? (fun v => decide (key v = k)) = none := by
          rw [find, List.getD_eq_getElem?_getD, hc] at h
          exact h
        simp [updateFirst_of_none hfind]
    · simp [hi]
  rw [update, htab]

/-- **What changing an entry does to the entries.** -/
theorem perm_update {t : Chained V} (h : WF t) {k : K} {v : V} {f : V → V}
    (hv : t.find k = some v) (hf : key (f v) = key v) :
    WF (t.update k f) ∧ ∃ l, t.toList.Perm (v :: l) ∧ (t.update k f).toList.Perm (f v :: l) := by
  have hlt := slot_lt h.placed.1 k
  have hv' : (t.tab.getD (slot t.tab k) []).find? (fun w => key w = k) = some v := hv
  have hk : key v = k := key_of_find h hv
  obtain ⟨as, bs, h1, h2⟩ := updateFirst_split (f := f) hv'
  have e1 : t.toList = (t.tab.take (slot t.tab k)).flatten ++ (as ++ v :: bs ++
      (t.tab.drop (slot t.tab k + 1)).flatten) := by
    rw [toList, flatten_eq hlt, h1]
  have e2 : (t.update k f).toList = (t.tab.take (slot t.tab k)).flatten ++ (as ++ f v :: bs ++
      (t.tab.drop (slot t.tab k + 1)).flatten) := by
    rw [toList, update, flatten_modify hlt, h2]
  have p1 : t.toList.Perm (v :: ((t.tab.take (slot t.tab k)).flatten ++ (as ++ bs ++
      (t.tab.drop (slot t.tab k + 1)).flatten))) := by
    rw [e1]
    simp only [List.append_assoc, List.cons_append]
    rw [← List.append_assoc, ← List.append_assoc _ as]
    exact List.perm_middle
  have p2 : (t.update k f).toList.Perm (f v :: ((t.tab.take (slot t.tab k)).flatten ++ (as ++ bs ++
      (t.tab.drop (slot t.tab k + 1)).flatten))) := by
    rw [e2]
    simp only [List.append_assoc, List.cons_append]
    rw [← List.append_assoc, ← List.append_assoc _ as]
    exact List.perm_middle
  refine ⟨⟨placed_modify h.placed fun w hw => ?_, ?_, ?_⟩, _, p1, p2⟩
  · rw [h2] at hw
    rw [h1]
    rcases List.mem_append.mp hw with h3 | h3
    · exact Or.inl (by simp [h3])
    · rcases List.mem_cons.mp h3 with rfl | h3
      · exact Or.inr (by rw [hf, hk])
      · exact Or.inl (by simp [h3])
  · refine (p2.map key).nodup_iff.mpr ?_
    have := (p1.map key).nodup_iff.mp h.nodup
    simpa only [List.map_cons, hf] using this
  · have := p1.length_eq.trans p2.length_eq.symm
    rw [← this]
    exact h.count

/-! ## Searching after a change -/

theorem find_insert {t : Chained V} (h : WF t) {v : V} (hv : t.find (key v) = none) (k : K) :
    (t.insert v).find k = if key v = k then some v else t.find k := by
  obtain ⟨h1, h2⟩ := perm_insert h hv
  rw [find_of_perm h1 h2, List.find?_cons, find_eq h]
  split_ifs with hk <;> simp [hk]

theorem find_unlink {t : Chained V} (h : WF t) {k : K} {v : V} (hv : t.find k = some v) (k' : K) :
    (t.unlink k).find k' = if k = k' then none else t.find k' := by
  obtain ⟨h1, h2⟩ := perm_unlink h hv
  have hk : key v = k := key_of_find h hv
  rw [find_of_perm h h2, List.find?_cons, hk]
  split_ifs with hkk
  · subst hkk
    rw [find_eq_none_iff h1]
    have := (h2.map key).nodup_iff.mp h.nodup
    rw [List.map_cons, List.nodup_cons, hk] at this
    exact this.1
  · simp [hkk, find_eq h1]

theorem find_update {t : Chained V} (h : WF t) {k : K} {v : V} {f : V → V}
    (hv : t.find k = some v) (hf : key (f v) = key v) (k' : K) :
    (t.update k f).find k' = if k = k' then some (f v) else t.find k' := by
  obtain ⟨h1, l, h2, h3⟩ := perm_update h hv hf
  have hk : key v = k := key_of_find h hv
  rw [find_of_perm h1 h3, find_of_perm h h2, List.find?_cons, List.find?_cons, hf, hk]
  split_ifs with hkk <;> simp [hkk]

end Chained
