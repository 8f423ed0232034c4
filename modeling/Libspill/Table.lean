import Libspill.Lib.Linked
import Libspill.Store

set_option autoImplicit false

/-!
# The table of contents in memory

`toc.c` and `ls_keys` as they handle pointers: an array of buckets, and a link field `hnext` in each
record. The table of the store (`Chained`) is what this memory holds.

* `Table.tocGrow` relinks every chain in place while walking it, and `Table.lsTocUnlink` edits a
  chain through a pointer to a pointer (`Slot`).
* `Links`, `Carries`: the chains that the memory holds, and that they are those of a table.
* `carries_grow`, `carries_insert`, `carries_unlink`: each operation is that of the table it holds.
* `table_is_map`: after any sequence of insertions and removals the table is a finite map.
-/

namespace Libspill

/-- The table of contents as it lies in memory. -/
structure Table where
  tab : ℕ → Option Ptr
  nbuckets : ℕ
  nrec : ℕ
  key : Ptr → CStr
  hnext : Ptr → Option Ptr

namespace Table

/-- The table of a store that is being opened; the memory around it is arbitrary. -/
def opened (key : Ptr → CStr) (hnext : Ptr → Option Ptr) : Table :=
  { tab := fun _ => none, nbuckets := 64, nrec := 0, key, hnext }

/-- `hash_of(key) & (nb - 1)`. -/
def bucketOf (nb : ℕ) (key : CStr) : ℕ := hashOf key &&& (nb - 1)

/-- The loop of `ls_toc_find`. -/
def findLoop (t : Table) (key : CStr) : ℕ → Option Ptr → Option (Option Ptr)
  | 0, _ => none
  | _ + 1, none => some none
  | fuel + 1, some r =>
    if t.key r = key then some (some r) else findLoop t key fuel (t.hnext r)

/-- `ls_toc_find`: a pointer to a record, or `NULL`. -/
def lsTocFind (fuel : ℕ) (t : Table) (key : CStr) : Option (Option Ptr) :=
  findLoop t key fuel (t.tab (bucketOf t.nbuckets key))

/-- `r->hnext = tab[b]; tab[b] = r`, where `b` is the bucket of `r->key`. -/
def push (t : Table) (r : Ptr) : Table :=
  { t with
    hnext := Function.update t.hnext r (t.tab (bucketOf t.nbuckets (t.key r)))
    tab := Function.update t.tab (bucketOf t.nbuckets (t.key r)) (some r) }

/-- The inner loop of `toc_grow`: `nx` is read before `r` is relinked. -/
def growLoop : ℕ → Option Ptr → Table → Option Table
  | 0, _, _ => none
  | _ + 1, none, t => some t
  | fuel + 1, some r, t =>
    let nx := t.hnext r
    growLoop fuel nx (t.push r)

/-- `toc_grow`: the loops push the records onto the buckets of the new array. -/
def tocGrow (fuel : ℕ) (t : Table) : Option Table :=
  (List.range t.nbuckets).foldlM (fun w i => growLoop fuel (t.tab i) w)
    { t with tab := fun _ => none, nbuckets := t.nbuckets * 2 }

/-- `ls_toc_insert`; `calloc` returned `r`. -/
def lsTocInsert (fuel : ℕ) (t : Table) (key : CStr) (r : Ptr) : Option Table := do
  let t ← if t.nrec + 1 > t.nbuckets - t.nbuckets / 4 then tocGrow fuel t else some t
  let t := { t with key := Function.update t.key r key }
  some { t.push r with nrec := t.nrec + 1 }

/-- What an `ls_rec **` points to. -/
inductive Slot where
  | bucket (b : ℕ)
  | hnext (r : Ptr)

/-- `*pp`. -/
def load (t : Table) : Slot → Option Ptr
  | .bucket b => t.tab b
  | .hnext r => t.hnext r

/-- `*pp = v`. -/
def store (t : Table) (v : Option Ptr) : Slot → Table
  | .bucket b => { t with tab := Function.update t.tab b v }
  | .hnext r => { t with hnext := Function.update t.hnext r v }

/-- `while (*pp && *pp != r) pp = &(*pp)->hnext`. -/
def slotLoop (t : Table) (r : Ptr) : ℕ → Slot → Option Slot
  | 0, _ => none
  | fuel + 1, pp =>
    match t.load pp with
    | none => some pp
    | some q => if q = r then some pp else slotLoop t r fuel (.hnext q)

/-- `ls_toc_unlink`. -/
def lsTocUnlink (fuel : ℕ) (t : Table) (r : Ptr) : Option Table := do
  let pp ← slotLoop t r fuel (.bucket (bucketOf t.nbuckets (t.key r)))
  match t.load pp with
  | none => some t
  | some _ => some { t.store (t.hnext r) pp with nrec := t.nrec - 1 }

/-- The inner loop of `ls_keys`, writing to an array of `n` entries. It has no result when it would
write past the array. -/
def keysLoop (t : Table) (n : ℕ) : ℕ → Option Ptr → List CStr → Option (List CStr)
  | 0, _, _ => none
  | _ + 1, none, out => some out
  | fuel + 1, some r, out =>
    if out.length < n then keysLoop t n fuel (t.hnext r) (out ++ [t.key r]) else none

/-- `ls_keys`: the entries written; `*n` is their number. -/
def lsKeys (fuel : ℕ) (t : Table) : Option (List CStr) :=
  (List.range t.nbuckets).foldlM
    (fun out i => keysLoop t (if t.nrec = 0 then 1 else t.nrec) fuel (t.tab i) out) []

end Table

/-! ## The chains in memory -/

/-- A record in a chain: where it lies, and its key. -/
structure Cell where
  ptr : Ptr
  key : CStr

instance : Keyed Cell CStr where
  key := Cell.key
  hash := hashOf

open Chained (slot)

/-- Buckets and links hold the chains, and the records their keys. -/
structure Links (t : Table) (chains : List (List Cell)) : Prop where
  head : ∀ b, t.tab b = ((chains.getD b []).map Cell.ptr).head?
  leads : ∀ b, Leads t.hnext ((chains.getD b []).map Cell.ptr) none
  named : ∀ c ∈ chains.flatten, t.key c.ptr = c.key

/-- The memory holds the table `ch`. -/
structure Carries (t : Table) (ch : Chained Cell) : Prop where
  links : Links t ch.tab
  buckets : ch.tab.length = t.nbuckets
  count : ch.n = t.nrec
  ptrs : (ch.toList.map Cell.ptr).Nodup
  wf : ch.WF

variable {t : Table} {chains : List (List Cell)} {ch : Chained Cell} {c : Cell} {l : List Cell}

theorem getD_modify {i : ℕ} (h : i < chains.length) (f : List Cell → List Cell) (j : ℕ) :
    (chains.modify i f).getD j [] = if i = j then f (chains.getD j []) else chains.getD j [] := by
  rw [List.getD_eq_getElem?_getD, List.getElem?_modify, List.getD_eq_getElem?_getD]
  split_ifs with hij
  · subst hij
    rw [List.getElem?_eq_getElem h]
    rfl
  · cases chains[j]? <;> rfl

theorem mem_getD {b : ℕ} (h : c ∈ chains.getD b []) : c ∈ chains.flatten := by
  by_cases hb : b < chains.length
  · rw [Chained.flatten_eq hb]
    exact List.mem_append_right _ (List.mem_append_left _ h)
  · rw [List.getD_eq_default _ _ (by omega)] at h
    cases h

theorem slot_eq (hb : chains.length = t.nbuckets) (k : CStr) :
    slot chains k = Table.bucketOf t.nbuckets k := by rw [slot, hb]; rfl

/-- **A record at the head of its chain.** -/
theorem links_push (h : Links t chains) (h0 : 0 < chains.length) (hb : chains.length = t.nbuckets)
    (hc : t.key c.ptr = c.key) (hn : c.ptr ∉ chains.flatten.map Cell.ptr) :
    Links (t.push c.ptr) (Chained.push chains c) := by
  have hlt : slot chains (Keyed.key c) < chains.length := Chained.slot_lt h0 _
  have hs : Table.bucketOf t.nbuckets (t.key c.ptr) = slot chains (Keyed.key c) := by
    rw [hc, ← slot_eq hb]; rfl
  have hn' : ∀ b, c.ptr ∉ (chains.getD b []).map Cell.ptr := by
    intro b hm
    obtain ⟨d, hd, he⟩ := List.mem_map.mp hm
    exact hn (List.mem_map.mpr ⟨d, mem_getD hd, he⟩)
  refine ⟨fun b => ?_, fun b => ?_, fun d hd => ?_⟩
  · rw [Chained.push, getD_modify hlt, Table.push, hs]
    split_ifs with hi
    · subst hi
      exact Function.update_self _ _ _
    · exact (Function.update_of_ne (Ne.symm hi) _ _).trans (h.head b)
  · rw [Chained.push, getD_modify hlt, Table.push, hs]
    split_ifs with hi
    · subst hi
      have := leads_cons (h.leads (slot chains (Keyed.key c))) (hn' _)
      rwa [Option.or_none, ← h.head] at this
    · refine leads_congr (fun q hq => ?_) (h.leads b)
      exact (Function.update_of_ne (fun he => hn' b (by rwa [← he])) _ _).symm
  · rcases List.mem_cons.mp ((Chained.flatten_push h0 c).mem_iff.mp hd) with rfl | hd
    · exact hc
    · exact h.named d hd

/-! ## Growth -/

/-- What relinking leaves alone. -/
structure Relinked (t t' : Table) (l : List Cell) : Prop where
  nbuckets : t'.nbuckets = t.nbuckets
  nrec : t'.nrec = t.nrec
  key : t'.key = t.key
  hnext : ∀ q, q ∉ l.map Cell.ptr → t'.hnext q = t.hnext q

/-- **One chain is pushed over**: by induction on what is left of it. -/
theorem growLoop_spec (fuel : ℕ) (h : Links t chains) (h0 : 0 < chains.length)
    (hb : chains.length = t.nbuckets) (hk : ∀ c ∈ l, t.key c.ptr = c.key)
    (hnd : (l.map Cell.ptr).Nodup)
    (hd : ∀ c ∈ l, c.ptr ∉ chains.flatten.map Cell.ptr)
    (hl : Leads t.hnext (l.map Cell.ptr) none) (hf : l.length < fuel) :
    ∃ t', Table.growLoop fuel (l.map Cell.ptr).head? t = some t' ∧
      Links t' (l.foldl Chained.push chains) ∧ Relinked t t' l := by
  induction l generalizing t chains fuel with
  | nil =>
    obtain ⟨fuel, rfl⟩ := Nat.exists_eq_succ_of_ne_zero (by omega : fuel ≠ 0)
    exact ⟨t, rfl, h, rfl, rfl, rfl, fun _ _ => rfl⟩
  | cons c l ih =>
    obtain ⟨fuel, rfl⟩ := Nat.exists_eq_succ_of_ne_zero (by omega : fuel ≠ 0)
    rw [List.map_cons, List.nodup_cons] at hnd
    rw [List.map_cons] at hl
    have hc := hd c List.mem_cons_self
    have hp := links_push h h0 hb (hk c List.mem_cons_self) hc
    have hnx : t.hnext c.ptr = (l.map Cell.ptr).head? := by rw [hl.1, Option.or_none]
    have hlen : (Chained.push chains c).length = chains.length := Chained.length_push _ _
    obtain ⟨t', h1, h2, h3⟩ := ih (t := t.push c.ptr) fuel hp (by rwa [hlen])
      (by rw [hlen, hb]; rfl) (fun d hd' => hk d (List.mem_cons_of_mem _ hd')) hnd.2
      (fun d hd' => by
        rw [((Chained.flatten_push h0 c).map Cell.ptr).mem_iff, List.map_cons, List.mem_cons]
        rintro (he | hm)
        · exact hnd.1 (he ▸ List.mem_map_of_mem hd')
        · exact hd d (List.mem_cons_of_mem _ hd') hm)
      (leads_congr (fun q hq => (Function.update_of_ne (fun he => hnd.1 (by rwa [← he])) _ _).symm)
        hl.2)
      (by rw [List.length_cons] at hf; omega)
    refine ⟨t', ?_, h2, h3.nbuckets, h3.nrec, h3.key, fun q hq => ?_⟩
    · rw [List.map_cons, List.head?_cons, Table.growLoop]
      simp only [hnx]
      exact h1
    · rw [List.map_cons, List.mem_cons, not_or] at hq
      rw [h3.hnext q hq.2]
      exact Function.update_of_ne hq.1 _ _

theorem take_succ_flatten {m : ℕ} (h : m < chains.length) :
    (chains.take (m + 1)).flatten = (chains.take m).flatten ++ chains.getD m [] := by
  rw [List.take_succ_eq_append_getElem h, List.flatten_append, List.flatten_singleton,
    List.getD_eq_getElem _ _ h]

theorem getD_replicate (n b : ℕ) : (List.replicate n ([] : List Cell)).getD b [] = [] := by
  rw [List.getD_eq_getElem?_getD, List.getElem?_replicate]
  split_ifs <;> rfl

theorem length_foldl_push (l : List Cell) (tab : List (List Cell)) :
    (l.foldl Chained.push tab).length = tab.length := by
  induction l generalizing tab with
  | nil => rfl
  | cons c l ih => rw [List.foldl_cons, ih, Chained.length_push]

/-- The number of entries of a chain is at most that of the table. -/
theorem length_getD_le (chains : List (List Cell)) (b : ℕ) :
    (chains.getD b []).length ≤ chains.flatten.length := by
  by_cases hb : b < chains.length
  · rw [Chained.flatten_eq hb, List.length_append, List.length_append]
    omega
  · rw [List.getD_eq_default _ _ (by omega)]
    exact Nat.zero_le _

theorem Carries.length (h : Carries t ch) : ch.tab.flatten.length = t.nrec := by
  rw [← h.count, h.wf.count]; rfl

/-- The first chains are pushed over: by induction on their number. -/
theorem grow_prefix {fuel : ℕ} (h : Carries t ch) (hf : t.nrec < fuel) {m : ℕ}
    (hm : m ≤ t.nbuckets) :
    ∃ w, (List.range m).foldlM (fun w i => Table.growLoop fuel (t.tab i) w)
        { t with tab := fun _ => none, nbuckets := t.nbuckets * 2 } = some w ∧
      Links w ((ch.tab.take m).flatten.foldl Chained.push
        (List.replicate (2 * ch.tab.length) [])) ∧
      Relinked { t with tab := fun _ => none, nbuckets := t.nbuckets * 2 } w
        (ch.tab.take m).flatten := by
  have hempty : (List.replicate (2 * ch.tab.length) ([] : List Cell)).flatten = [] := by simp
  have hpos := h.wf.placed.1
  have h0 := (Chained.wf_empty (V := Cell) (m := 2 * ch.tab.length) (by omega)).placed
  induction m with
  | zero =>
    refine ⟨_, rfl, ⟨fun b => ?_, fun b => ?_, fun c hc => ?_⟩, rfl, rfl, rfl, fun _ _ => rfl⟩
    · rw [List.take_zero, List.flatten_nil, List.foldl_nil, getD_replicate]; rfl
    · rw [List.take_zero, List.flatten_nil, List.foldl_nil, getD_replicate]; trivial
    · simp at hc
  | succ m ih =>
    obtain ⟨w, h1, h2, h3⟩ := ih (by omega)
    have hlt : m < ch.tab.length := by rw [h.buckets]; omega
    have hsplit := Chained.flatten_eq hlt
    obtain ⟨hpl, hperm⟩ := Chained.foldl_push h0 (ch.tab.take m).flatten
    have hnd : ((ch.tab.take m).flatten.map Cell.ptr ++ ((ch.tab.getD m []).map Cell.ptr ++
        ((ch.tab.drop (m + 1)).flatten).map Cell.ptr)).Nodup := by
      have := h.ptrs
      rwa [Chained.toList, hsplit, List.map_append, List.map_append] at this
    obtain ⟨-, hnd2, hdis⟩ := List.nodup_append.mp hnd
    have hdis' : ∀ c ∈ ch.tab.getD m [], c.ptr ∉ (ch.tab.take m).flatten.map Cell.ptr :=
      fun c hc hm' => hdis _ hm' _ (List.mem_append_left _ (List.mem_map_of_mem hc)) rfl
    have hflat : ∀ p, p ∈ ((ch.tab.take m).flatten.foldl Chained.push
        (List.replicate (2 * ch.tab.length) [])).flatten.map Cell.ptr →
        p ∈ (ch.tab.take m).flatten.map Cell.ptr := by
      intro p hp
      have := (hperm.map Cell.ptr).mem_iff.mp hp
      rwa [show (Chained.empty (V := Cell) (2 * ch.tab.length)).tab.flatten = [] from hempty,
        List.append_nil] at this
    have hlen : ((ch.tab.take m).flatten.foldl Chained.push
        (List.replicate (2 * ch.tab.length) [])).length = t.nbuckets * 2 := by
      rw [← h.buckets, mul_comm]
      rw [length_foldl_push, List.length_replicate]
    obtain ⟨w', g1, g2, g3⟩ := growLoop_spec (l := ch.tab.getD m []) fuel h2 hpl.1
      (hlen.trans h3.nbuckets.symm)
      (fun c hc => by rw [h3.key]; exact h.links.named c (mem_getD hc))
      (List.nodup_append.mp hnd2).1 (fun c hc hm' => hdis' c hc (hflat _ hm'))
      (leads_congr (fun q hq => by
        obtain ⟨c, hc, rfl⟩ := List.mem_map.mp hq
        exact (h3.hnext _ (hdis' c hc)).symm) (h.links.leads m))
      (by have := length_getD_le ch.tab m; rw [h.length] at this; omega)
    refine ⟨w', ?_, ?_, g3.nbuckets.trans h3.nbuckets, g3.nrec.trans h3.nrec,
      g3.key.trans h3.key, fun q hq => ?_⟩
    · rw [List.range_succ, List.foldlM_append, h1]
      simp only [List.foldlM_cons, List.foldlM_nil, Option.bind_eq_bind, Option.bind_some,
        Option.pure_def, Option.bind_fun_some]
      rw [h.links.head m]
      exact g1
    · rw [take_succ_flatten hlt, List.foldl_append]
      exact g2
    · rw [take_succ_flatten hlt, List.map_append, List.mem_append, not_or] at hq
      rw [g3.hnext q hq.2, h3.hnext q hq.1]

/-- **Growth.** -/
theorem carries_grow {fuel : ℕ} (h : Carries t ch) (hf : t.nrec < fuel) :
    ∃ w, Table.tocGrow fuel t = some w ∧ Carries w ch.grow ∧ w.nbuckets = t.nbuckets * 2 ∧
      w.nrec = t.nrec ∧ w.key = t.key := by
  obtain ⟨w, h1, h2, h3⟩ := grow_prefix h hf le_rfl
  obtain ⟨hp, hl⟩ := Chained.placed_grow h.wf.placed
  rw [← h.buckets, List.take_length] at h2
  have hlen : ch.grow.tab.length = 2 * ch.tab.length :=
    (length_foldl_push _ _).trans (List.length_replicate ..)
  refine ⟨w, h1, ⟨h2, ?_, h.count.trans h3.nrec.symm, ?_, hp, ?_, ?_⟩, h3.nbuckets, h3.nrec, h3.key⟩
  · rw [h3.nbuckets, hlen, h.buckets]
    exact mul_comm _ _
  · exact (hl.map Cell.ptr).nodup_iff.mpr h.ptrs
  · exact (hl.map _).nodup_iff.mpr h.wf.nodup
  · exact h.wf.count.trans hl.length_eq.symm

/-! ## Insertion -/

/-- The memory of a record that is in no chain may change. -/
theorem links_key (h : Links t chains) {p : Ptr} (hp : p ∉ chains.flatten.map Cell.ptr) (k : CStr) :
    Links { t with key := Function.update t.key p k } chains where
  head := h.head
  leads := h.leads
  named := fun c hc => by
    have hne : c.ptr ≠ p := fun he => hp (he ▸ List.mem_map_of_mem hc)
    exact (Function.update_of_ne hne _ _).trans (h.named c hc)

theorem carries_push {p : Ptr} {k : CStr} (h : Carries t ch) (hp : p ∉ ch.toList.map Cell.ptr)
    (hk : k ∉ ch.toList.map Cell.key) :
    Carries { ({ t with key := Function.update t.key p k } : Table).push p with nrec := t.nrec + 1 }
      { tab := Chained.push ch.tab ⟨p, k⟩, n := ch.n + 1 } := by
  have hfl := Chained.flatten_push (V := Cell) h.wf.placed.1 ⟨p, k⟩
  have hh := links_push (c := ⟨p, k⟩) (links_key h.links hp k) h.wf.placed.1 h.buckets
    (Function.update_self _ _ _) hp
  refine ⟨⟨hh.head, hh.leads, hh.named⟩, ?_, ?_, ?_, Chained.placed_push h.wf.placed _, ?_, ?_⟩
  · exact (Chained.length_push _ _).trans h.buckets
  · exact congrArg (· + 1) h.count
  · refine (hfl.map Cell.ptr).nodup_iff.mpr ?_
    exact List.nodup_cons.mpr ⟨hp, h.ptrs⟩
  · refine (hfl.map Cell.key).nodup_iff.mpr ?_
    exact List.nodup_cons.mpr ⟨hk, h.wf.nodup⟩
  · exact (congrArg (· + 1) h.wf.count).trans hfl.length_eq.symm

/-- **`ls_toc_insert` inserts.** -/
theorem carries_insert {fuel : ℕ} {p : Ptr} {k : CStr} (h : Carries t ch)
    (hp : p ∉ ch.toList.map Cell.ptr) (hk : ch.find k = none) (hf : t.nrec < fuel) :
    ∃ t', Table.lsTocInsert fuel t k p = some t' ∧ Carries t' (ch.insert ⟨p, k⟩) ∧
      t'.nrec = t.nrec + 1 ∧
      t'.nbuckets = if t.nrec + 1 > t.nbuckets - t.nbuckets / 4 then t.nbuckets * 2
        else t.nbuckets := by
  have hk' := (Chained.find_eq_none_iff h.wf).mp hk
  have hcond : (ch.n + 1 > ch.tab.length - ch.tab.length / 4) =
      (t.nrec + 1 > t.nbuckets - t.nbuckets / 4) := by rw [h.count, h.buckets]
  unfold Table.lsTocInsert Chained.insert
  simp only [hcond]
  split_ifs with hg
  · obtain ⟨w, h1, h2, h3, h4, h5⟩ := carries_grow h hf
    have hl := (Chained.placed_grow h.wf.placed).2
    have := carries_push h2 (p := p) (k := k) (fun hm => hp ((hl.map Cell.ptr).mem_iff.mp hm))
      (fun hm => hk' ((hl.map Cell.key).mem_iff.mp hm))
    refine ⟨_, by rw [h1]; rfl, this, ?_, h3⟩
    exact congrArg (· + 1) h4
  · exact ⟨_, rfl, carries_push h hp hk', rfl, rfl⟩

/-! ## Searching -/

/-- The search of a chain, by induction on it. -/
theorem findLoop_spec {fuel : ℕ} {k : CStr} (hl : Leads t.hnext (l.map Cell.ptr) none)
    (hk : ∀ c ∈ l, t.key c.ptr = c.key) (hf : l.length < fuel) :
    Table.findLoop t k fuel (l.map Cell.ptr).head? =
      some ((l.find? fun c => c.key = k).map Cell.ptr) := by
  induction l generalizing fuel with
  | nil =>
    obtain ⟨fuel, rfl⟩ := Nat.exists_eq_succ_of_ne_zero (by omega : fuel ≠ 0)
    rfl
  | cons c l ih =>
    obtain ⟨fuel, rfl⟩ := Nat.exists_eq_succ_of_ne_zero (by omega : fuel ≠ 0)
    rw [List.map_cons, List.head?_cons, Table.findLoop, hk c List.mem_cons_self, List.find?_cons]
    by_cases hc : c.key = k
    · simp [hc]
    · rw [if_neg hc, decide_eq_false hc, hl.1, Option.or_none]
      exact ih hl.2 (fun d hd => hk d (List.mem_cons_of_mem _ hd))
        (by rw [List.length_cons] at hf; omega)

theorem Carries.chain_lt (h : Carries t ch) {fuel : ℕ} (hf : t.nrec < fuel) (b : ℕ) :
    (ch.tab.getD b []).length < fuel := by
  have := length_getD_le ch.tab b
  rw [h.length] at this
  omega

/-- **`ls_toc_find` searches the table.** -/
theorem carries_find {fuel : ℕ} (h : Carries t ch) (hf : t.nrec < fuel) (k : CStr) :
    Table.lsTocFind fuel t k = some ((ch.find k).map Cell.ptr) := by
  rw [Table.lsTocFind, ← slot_eq h.buckets, h.links.head]
  exact findLoop_spec (h.links.leads _) (fun c hc => h.links.named c (mem_getD hc))
    (h.chain_lt hf _)

/-! ## Removal -/

/-- The pointer to the link that leads to `r`. -/
theorem slotLoop_spec (fuel : ℕ) (pp : Table.Slot) {r : Ptr} {pre post : List Ptr}
    (hpp : t.load pp = (pre ++ r :: post).head?) (hl : Leads t.hnext (pre ++ r :: post) none)
    (hr : r ∉ pre) (hf : pre.length < fuel) :
    Table.slotLoop t r fuel pp = some ((pre.getLast?.map .hnext).getD pp) := by
  induction pre generalizing pp fuel with
  | nil =>
    obtain ⟨fuel, rfl⟩ := Nat.exists_eq_succ_of_ne_zero (by omega : fuel ≠ 0)
    rw [Table.slotLoop, hpp]
    exact if_pos rfl
  | cons q pre ih =>
    obtain ⟨fuel, rfl⟩ := Nat.exists_eq_succ_of_ne_zero (by omega : fuel ≠ 0)
    rw [List.mem_cons, not_or] at hr
    rw [Table.slotLoop, hpp]
    refine (if_neg (Ne.symm hr.1)).trans ?_
    rw [ih _ (.hnext q) (hl.1.trans (Option.or_none ..)) hl.2 hr.2
      (by rw [List.length_cons] at hf; omega)]
    cases pre with
    | nil => rfl
    | cons q' pre => rw [List.getLast?_cons_cons, List.getLast?_cons]; rfl

/-- A record is in one chain only. -/
theorem Carries.apart (h : Carries t ch) {i j : ℕ} (hij : i ≠ j) {q : Ptr}
    (hi : q ∈ (ch.tab.getD i []).map Cell.ptr) : q ∉ (ch.tab.getD j []).map Cell.ptr := by
  intro hj
  obtain ⟨c, hc, rfl⟩ := List.mem_map.mp hi
  obtain ⟨d, hd, he⟩ := List.mem_map.mp hj
  have := List.inj_on_of_nodup_map h.ptrs (mem_getD hd) (mem_getD hc) he
  subst this
  exact hij ((h.wf.placed.2 i d hc).symm.trans (h.wf.placed.2 j d hd))

/-- **A record is taken out of its chain**: the link before it leads to where it led. -/
theorem links_bypass (h : Carries t ch) {i : ℕ} (hi : i < ch.tab.length) {as bs : List Cell}
    (hs : ch.tab.getD i [] = as ++ c :: bs) {f : List Cell → List Cell}
    (hf : f (ch.tab.getD i []) = as ++ bs) :
    Links (t.store (t.hnext c.ptr) (((as.map Cell.ptr).getLast?.map .hnext).getD (.bucket i)))
      (ch.tab.modify i f) := by
  have hl := h.links.leads i
  have hnd : ((ch.tab.getD i []).map Cell.ptr).Nodup :=
    List.Nodup.sublist (List.Sublist.map _ (by
      rw [Chained.toList, Chained.flatten_eq hi]
      exact (List.sublist_append_left _ _).trans (List.sublist_append_right _ _))) h.ptrs
  have hap := fun j (hij : i ≠ j) q => h.apart hij (q := q)
  rw [hs, List.map_append, List.map_cons] at hl hnd hap
  obtain ⟨hc, hb⟩ := leads_bypass hl hnd
  have hsub : ∀ d ∈ (ch.tab.modify i f).flatten, d ∈ ch.tab.flatten := by
    rw [Chained.flatten_modify hi, Chained.flatten_eq hi, hs, ← hs, hf]
    intro d hd
    simp only [hs, List.mem_append, List.mem_cons] at hd ⊢
    tauto
  have hget : ∀ b, (ch.tab.modify i f).getD b [] =
      if i = b then as ++ bs else ch.tab.getD b [] := by
    intro b
    rw [getD_modify hi]
    split_ifs with hib
    · rw [← hib, hf]
    · rfl
  cases hq : (as.map Cell.ptr).getLast? with
  | none =>
    rw [hq] at hb
    have has : as = [] := by simpa using hq
    subst has
    refine ⟨fun b => ?_, fun b => ?_, fun d hd => h.links.named d (hsub d hd)⟩
    · rw [hget]
      split_ifs with hib
      · subst hib
        exact (Function.update_self _ _ _).trans hc
      · exact (Function.update_of_ne (Ne.symm hib) _ _).trans (h.links.head b)
    · rw [hget]
      split_ifs with hib
      · exact hb
      · exact h.links.leads b
  | some q =>
    rw [hq] at hb
    have hqm : q ∈ as.map Cell.ptr := List.mem_of_getLast? hq
    refine ⟨fun b => ?_, fun b => ?_, fun d hd => h.links.named d (hsub d hd)⟩
    · rw [hget]
      split_ifs with hib
      · subst hib
        refine (h.links.head i).trans ?_
        cases as with
        | nil => cases hqm
        | cons a as => rw [hs]; rfl
      · exact h.links.head b
    · rw [hget]
      split_ifs with hib
      · rw [List.map_append]
        exact hb
      · refine leads_congr (fun p hp => ?_) (h.links.leads b)
        refine (Function.update_of_ne (fun he => ?_) _ _).symm
        exact hap b hib q (List.mem_append_left _ hqm) (by rwa [← he])

theorem load_slot {i : ℕ} {pre post : List Ptr} {r : Ptr}
    (hi : t.tab i = (pre ++ r :: post).head?) (hl : Leads t.hnext (pre ++ r :: post) none) :
    t.load ((pre.getLast?.map .hnext).getD (.bucket i)) = some r := by
  rcases List.eq_nil_or_concat pre with rfl | ⟨pre, q, rfl⟩
  · exact hi
  · rw [List.concat_eq_append, List.append_assoc] at hl
    rw [List.concat_eq_append, List.getLast?_concat]
    exact (leads_append.mp hl).2.1

/-- **`ls_toc_unlink` takes the record out.** -/
theorem carries_unlink {fuel : ℕ} {k : CStr} (h : Carries t ch) (hk : ch.find k = some c)
    (hf : t.nrec < fuel) :
    ∃ t', Table.lsTocUnlink fuel t c.ptr = some t' ∧ Carries t' (ch.unlink k) ∧
      t'.nbuckets = t.nbuckets ∧ t'.nrec + 1 = t.nrec := by
  have hlt := Chained.slot_lt h.wf.placed.1 k
  have hk' : (ch.tab.getD (slot ch.tab k) []).find? (fun d => Keyed.key d = k) = some c := hk
  obtain ⟨hck, as, bs, hs, has⟩ := List.find?_eq_some_iff_append.mp hk'
  have hck : Keyed.key c = k := of_decide_eq_true hck
  have her : (ch.tab.getD (slot ch.tab k) []).eraseP (fun d => decide (Keyed.key d = k)) =
      as ++ bs := by
    rw [hs, List.eraseP_append_right _ (by simpa using has),
      List.eraseP_cons_of_pos (by simpa using hck)]
  have hu : ch.unlink k = ⟨ch.tab.modify (slot ch.tab k)
      (List.eraseP fun d => decide (Keyed.key d = k)), ch.n - 1⟩ := by rw [Chained.unlink, hk]
  have hname : t.key c.ptr = k := by
    rw [h.links.named c (mem_getD (b := slot ch.tab k) (by rw [hs]; simp))]
    exact hck
  have hl := h.links.leads (slot ch.tab k)
  have hhd := h.links.head (slot ch.tab k)
  rw [hs, List.map_append, List.map_cons] at hl hhd
  have hnd : c.ptr ∉ as.map Cell.ptr := by
    have h1 := h.ptrs
    rw [Chained.toList, Chained.flatten_eq hlt, hs] at h1
    simp only [List.map_append, List.map_cons, List.nodup_append] at h1
    exact fun hm => h1.2.1.1.2.2 _ hm _ List.mem_cons_self rfl
  have hslot := slotLoop_spec fuel (.bucket (slot ch.tab k)) hhd hl hnd (by
    have := h.chain_lt hf (slot ch.tab k)
    rw [hs, List.length_append, List.length_cons] at this
    rw [List.length_map]
    omega)
  have hload := load_slot hhd hl
  obtain ⟨hwf, hperm⟩ := Chained.perm_unlink h.wf hk
  have hcount : 0 < t.nrec := by
    rw [← h.count, h.wf.count, hperm.length_eq]
    exact Nat.succ_pos _
  have hbp := links_bypass h hlt hs her
  have hst : ∀ pp, (t.store (t.hnext c.ptr) pp).nbuckets = t.nbuckets := fun pp => by
    cases pp <;> rfl
  refine ⟨{ t.store (t.hnext c.ptr) (((as.map Cell.ptr).getLast?.map .hnext).getD
      (.bucket (slot ch.tab k))) with nrec := t.nrec - 1 }, ?_, ?_, hst _, ?_⟩
  · rw [Table.lsTocUnlink, hname, ← slot_eq h.buckets, hslot]
    simp only [Option.bind_eq_bind, Option.bind_some, hload]
  · refine ⟨?_, ?_, ?_, ?_, hwf⟩
    · rw [hu]
      exact ⟨hbp.head, hbp.leads, hbp.named⟩
    · rw [hu]
      exact (List.length_modify ..).trans (h.buckets.trans (hst _).symm)
    · rw [hu]
      exact congrArg (· - 1) h.count
    · exact (List.nodup_cons.mp ((hperm.map Cell.ptr).nodup_iff.mp h.ptrs)).2
  · exact Nat.sub_add_cancel hcount

/-! ## Listing -/

/-- One chain is listed: by induction on it. -/
theorem keysLoop_spec {fuel n : ℕ} {out : List CStr} (hl : Leads t.hnext (l.map Cell.ptr) none)
    (hk : ∀ c ∈ l, t.key c.ptr = c.key) (hn : out.length + l.length ≤ n) (hf : l.length < fuel) :
    Table.keysLoop t n fuel (l.map Cell.ptr).head? out = some (out ++ l.map Cell.key) := by
  induction l generalizing fuel out with
  | nil =>
    obtain ⟨fuel, rfl⟩ := Nat.exists_eq_succ_of_ne_zero (by omega : fuel ≠ 0)
    exact congrArg some (List.append_nil _).symm
  | cons c l ih =>
    obtain ⟨fuel, rfl⟩ := Nat.exists_eq_succ_of_ne_zero (by omega : fuel ≠ 0)
    rw [List.length_cons] at hn hf
    rw [List.map_cons, List.head?_cons, Table.keysLoop, if_pos (by omega),
      hk c List.mem_cons_self, hl.1, Option.or_none,
      ih hl.2 (fun d hd => hk d (List.mem_cons_of_mem _ hd))
        (by rw [List.length_append, List.length_singleton]; omega) (by omega),
      List.append_assoc]
    rfl

/-- **`ls_keys` lists the table**, within its array. -/
theorem carries_keys {fuel : ℕ} (h : Carries t ch) (hf : t.nrec < fuel) :
    Table.lsKeys fuel t = some (ch.toList.map Cell.key) := by
  have hstep : ∀ m ≤ t.nbuckets, (List.range m).foldlM
      (fun out i => Table.keysLoop t (if t.nrec = 0 then 1 else t.nrec) fuel (t.tab i) out) [] =
      some ((ch.tab.take m).flatten.map Cell.key) := by
    intro m
    induction m with
    | zero => exact fun _ => rfl
    | succ m ih =>
      intro hm
      have hlt : m < ch.tab.length := by rw [h.buckets]; omega
      have hlen := h.length
      rw [Chained.flatten_eq hlt, List.length_append, List.length_append] at hlen
      rw [List.range_succ, List.foldlM_append, ih (by omega)]
      simp only [List.foldlM_cons, List.foldlM_nil, Option.bind_eq_bind, Option.bind_some,
        Option.pure_def, Option.bind_fun_some]
      rw [h.links.head, keysLoop_spec (h.links.leads m)
        (fun c hc => h.links.named c (mem_getD hc)) ?_ (h.chain_lt hf m), take_succ_flatten hlt,
        List.map_append]
      rw [List.length_map]
      split_ifs <;> omega
  rw [Table.lsKeys, hstep _ le_rfl, ← h.buckets, List.take_length]
  rfl

/-! ## Runs -/

namespace Table

/-- The tables that sequences of insertions and removals lead to, each with the record last inserted
under a key and not unlinked since. An insertion is of a key that is not found, at an address where
no record is, and a removal is of a record that was found. -/
inductive Reached : Table → (CStr → Option Ptr) → Prop
  | opened (key : Ptr → CStr) (hnext : Ptr → Option Ptr) :
    Reached (opened key hnext) fun _ => none
  | insert {t t' : Table} {m : CStr → Option Ptr} {key : CStr} {r : Ptr} {fuel fuel' : ℕ} :
    Reached t m → lsTocFind fuel t key = some none → (∀ k, m k ≠ some r) →
    lsTocInsert fuel' t key r = some t' → Reached t' (Function.update m key (some r))
  | unlink {t t' : Table} {m : CStr → Option Ptr} {key : CStr} {r : Ptr} {fuel fuel' : ℕ} :
    Reached t m → lsTocFind fuel t key = some (some r) →
    lsTocUnlink fuel' t r = some t' → Reached t' (Function.update m key none)

/-- The table is the finite map `m`. -/
structure IsMap (t : Table) (m : CStr → Option Ptr) : Prop where
  pow : ∃ j, t.nbuckets = 2 ^ j
  load : 4 * t.nrec ≤ 3 * t.nbuckets
  /-- Every record is in the chain of its hash, and the chains end. -/
  chains : ∃ chain : ℕ → List Ptr,
    (∀ b < t.nbuckets, t.tab b = (chain b).head? ∧ Leads t.hnext (chain b) none ∧
      (chain b).Nodup ∧ ∀ r ∈ chain b, hashOf (t.key r) % t.nbuckets = b) ∧
    t.nrec = ∑ b ∈ Finset.range t.nbuckets, (chain b).length ∧
    ∀ k r, m k = some r ↔ ∃ b < t.nbuckets, r ∈ chain b ∧ t.key r = k
  find : ∀ fuel > t.nrec, ∀ k, lsTocFind fuel t k = some (m k)
  insert : ∀ fuel > t.nrec, ∀ k r, m k = none → (∀ k', m k' ≠ some r) →
    ∃ t', lsTocInsert fuel t k r = some t'
  unlink : ∀ fuel > t.nrec, ∀ k r, m k = some r → ∃ t', lsTocUnlink fuel t r = some t'
  keys : ∀ fuel > t.nrec, ∃ l, lsKeys fuel t = some l ∧ l.Nodup ∧ l.length = t.nrec ∧
    ∀ k, k ∈ l ↔ ∃ r, m k = some r

/-! A loop that ended would have ended alike with more fuel. -/

theorem findLoop_mono {t : Table} {key : CStr} {fuel fuel' : ℕ} {r v : Option Ptr}
    (h : findLoop t key fuel r = some v) (hf : fuel ≤ fuel') : findLoop t key fuel' r = some v := by
  induction fuel generalizing fuel' r with
  | zero => cases h
  | succ fuel ih =>
    obtain ⟨fuel', rfl⟩ := Nat.exists_eq_succ_of_ne_zero (by omega : fuel' ≠ 0)
    cases r with
    | none => exact h
    | some r =>
      rw [findLoop] at h ⊢
      split_ifs at h ⊢ with hk
      · exact h
      · exact ih h (by omega)

theorem growLoop_mono {t v : Table} {fuel fuel' : ℕ} {r : Option Ptr}
    (h : growLoop fuel r t = some v) (hf : fuel ≤ fuel') : growLoop fuel' r t = some v := by
  induction fuel generalizing fuel' r t with
  | zero => cases h
  | succ fuel ih =>
    obtain ⟨fuel', rfl⟩ := Nat.exists_eq_succ_of_ne_zero (by omega : fuel' ≠ 0)
    cases r with
    | none => exact h
    | some r =>
      rw [growLoop] at h ⊢
      exact ih h (by omega)

theorem slotLoop_mono {t : Table} {r : Ptr} {fuel fuel' : ℕ} {pp v : Slot}
    (h : slotLoop t r fuel pp = some v) (hf : fuel ≤ fuel') : slotLoop t r fuel' pp = some v := by
  induction fuel generalizing fuel' pp with
  | zero => cases h
  | succ fuel ih =>
    obtain ⟨fuel', rfl⟩ := Nat.exists_eq_succ_of_ne_zero (by omega : fuel' ≠ 0)
    rw [slotLoop] at h ⊢
    cases hl : t.load pp with
    | none =>
      rw [hl] at h
      exact h
    | some q =>
      simp only [hl] at h ⊢
      split_ifs at h ⊢ with hq
      · exact h
      · exact ih h (by omega)

theorem foldlM_mono {f g : Table → ℕ → Option Table} (hfg : ∀ w i v, f w i = some v → g w i = some v)
    {l : List ℕ} {w v : Table} (h : l.foldlM f w = some v) : l.foldlM g w = some v := by
  induction l generalizing w with
  | nil => exact h
  | cons i l ih =>
    rw [List.foldlM_cons, Option.bind_eq_bind, Option.bind_eq_some_iff] at h ⊢
    obtain ⟨u, hu, hv⟩ := h
    exact ⟨u, hfg _ _ _ hu, ih hv⟩

theorem lsTocInsert_mono {t v : Table} {key : CStr} {r : Ptr} {fuel fuel' : ℕ}
    (h : lsTocInsert fuel t key r = some v) (hf : fuel ≤ fuel') :
    lsTocInsert fuel' t key r = some v := by
  unfold lsTocInsert at h ⊢
  split_ifs at h ⊢ with hg
  · rw [Option.bind_eq_bind, Option.bind_eq_some_iff] at h ⊢
    obtain ⟨w, hw, hv⟩ := h
    exact ⟨w, foldlM_mono (fun _ _ _ hl => growLoop_mono hl hf) hw, hv⟩
  · exact h

theorem lsTocUnlink_mono {t v : Table} {r : Ptr} {fuel fuel' : ℕ}
    (h : lsTocUnlink fuel t r = some v) (hf : fuel ≤ fuel') : lsTocUnlink fuel' t r = some v := by
  unfold lsTocUnlink at h ⊢
  rw [Option.bind_eq_bind, Option.bind_eq_some_iff] at h ⊢
  obtain ⟨pp, hpp, hv⟩ := h
  exact ⟨pp, slotLoop_mono hpp hf, hv⟩

end Table

/-- The memory holds a table that finds what `m` says. -/
structure Agrees (t : Table) (m : CStr → Option Ptr) (ch : Chained Cell) : Prop where
  carries : Carries t ch
  found : ∀ k, (ch.find k).map Cell.ptr = m k
  pow : ∃ j, t.nbuckets = 2 ^ j * 64
  load : 4 * t.nrec ≤ 3 * t.nbuckets

variable {m : CStr → Option Ptr}

theorem Agrees.mem_iff (h : Agrees t m ch) {k : CStr} {r : Ptr} :
    m k = some r ↔ (⟨r, k⟩ : Cell) ∈ ch.toList := by
  rw [← h.found, Option.map_eq_some_iff]
  constructor
  · rintro ⟨c, hc, rfl⟩
    obtain ⟨hm, rfl⟩ := (Chained.find_eq_some_iff h.carries.wf).mp hc
    exact hm
  · exact fun hm => ⟨⟨r, k⟩, (Chained.find_eq_some_iff h.carries.wf).mpr ⟨hm, rfl⟩, rfl⟩

theorem Agrees.fresh (h : Agrees t m ch) {r : Ptr} (hr : ∀ k, m k ≠ some r) :
    r ∉ ch.toList.map Cell.ptr := by
  intro hm
  obtain ⟨c, hc, rfl⟩ := List.mem_map.mp hm
  exact hr c.key (h.mem_iff.mpr hc)

theorem agrees_opened (key : Ptr → CStr) (hnext : Ptr → Option Ptr) :
    Agrees (.opened key hnext) (fun _ => none) (Chained.empty 64) := by
  refine ⟨⟨⟨fun b => ?_, fun b => ?_, fun c hc => ?_⟩, ?_, rfl, ?_, Chained.wf_empty (by decide)⟩,
    fun k => ?_, ⟨0, rfl⟩, Nat.zero_le _⟩
  · rw [Chained.empty, getD_replicate]; rfl
  · rw [Chained.empty, getD_replicate]; trivial
  · rw [← Chained.toList, Chained.toList_empty] at hc
    cases hc
  · exact List.length_replicate ..
  · rw [Chained.toList_empty]
    exact List.nodup_nil
  · rw [Chained.find, Chained.empty, getD_replicate]; rfl

/-- **An insertion**, which may double the table first. -/
theorem agrees_insert (fuel : ℕ) {k : CStr} {r : Ptr} (h : Agrees t m ch) (hk : m k = none)
    (hr : ∀ k', m k' ≠ some r) (hf : t.nrec < fuel) :
    ∃ t', Table.lsTocInsert fuel t k r = some t' ∧
      Agrees t' (Function.update m k (some r)) (ch.insert ⟨r, k⟩) := by
  have hk' : ch.find k = none := by
    rw [← h.found] at hk
    exact Option.map_eq_none_iff.mp hk
  obtain ⟨t', h1, h2, h3, h4⟩ := carries_insert h.carries (h.fresh hr) hk' hf
  obtain ⟨j, hj⟩ := h.pow
  have hload := h.load
  refine ⟨t', h1, h2, fun k' => ?_, ?_, ?_⟩
  · rw [Chained.find_insert h.carries.wf hk']
    change Option.map _ (if k = k' then _ else _) = _
    by_cases hkk : k = k'
    · subst hkk
      rw [if_pos rfl, Function.update_self]
      rfl
    · rw [if_neg hkk, Function.update_of_ne (Ne.symm hkk), h.found]
  · rw [h4]
    split_ifs
    · exact ⟨j + 1, by rw [hj]; ring⟩
    · exact ⟨j, hj⟩
  · have hpos : 0 < 2 ^ j := Nat.two_pow_pos j
    rw [h3, h4]
    generalize 2 ^ j = p at hj hpos
    split_ifs <;> omega

/-- **A removal.** -/
theorem agrees_unlink (fuel : ℕ) {k : CStr} {r : Ptr} (h : Agrees t m ch) (hk : m k = some r)
    (hf : t.nrec < fuel) :
    ∃ t', Table.lsTocUnlink fuel t r = some t' ∧
      Agrees t' (Function.update m k none) (ch.unlink k) := by
  have hk' : ch.find k = some ⟨r, k⟩ :=
    (Chained.find_eq_some_iff h.carries.wf).mpr ⟨h.mem_iff.mp hk, rfl⟩
  obtain ⟨t', h1, h2, h3, h4⟩ := carries_unlink h.carries hk' hf
  have hload := h.load
  refine ⟨t', h1, h2, fun k' => ?_, by rw [h3]; exact h.pow, by omega⟩
  rw [Chained.find_unlink h.carries.wf hk']
  by_cases hkk : k = k'
  · subst hkk
    rw [if_pos rfl, Function.update_self]
    rfl
  · rw [if_neg hkk, Function.update_of_ne (Ne.symm hkk), h.found]

/-- What a search answers, whatever the fuel it ended with. -/
theorem Agrees.find {fuel : ℕ} {k : CStr} {v : Option Ptr} (h : Agrees t m ch)
    (hv : Table.lsTocFind fuel t k = some v) : m k = v := by
  have h1 : Table.lsTocFind (fuel + t.nrec + 1) t k = some v :=
    Table.findLoop_mono hv (by omega)
  rw [carries_find h.carries (by omega), h.found] at h1
  exact Option.some.inj h1

/-- **Every reached table holds a table**: by induction on the run. -/
theorem agrees_of_reached (h : t.Reached m) : ∃ ch, Agrees t m ch := by
  induction h with
  | opened key hnext => exact ⟨_, agrees_opened key hnext⟩
  | @insert t t' m key r fuel fuel' _ hfind hr hins ih =>
    obtain ⟨ch, hch⟩ := ih
    obtain ⟨w, h1, h2⟩ := agrees_insert (fuel' + t.nrec + 1) hch (hch.find hfind) hr
      (by omega)
    rw [Table.lsTocInsert_mono hins (by omega)] at h1
    cases h1
    exact ⟨_, h2⟩
  | @unlink t t' m key r fuel fuel' _ hfind hunl ih =>
    obtain ⟨ch, hch⟩ := ih
    obtain ⟨w, h1, h2⟩ := agrees_unlink (fuel' + t.nrec + 1) hch (hch.find hfind)
      (by omega)
    rw [Table.lsTocUnlink_mono hunl (by omega)] at h1
    cases h1
    exact ⟨_, h2⟩

theorem sum_length {m : ℕ} (hm : m ≤ chains.length) :
    (chains.take m).flatten.length = ∑ b ∈ Finset.range m, (chains.getD b []).length := by
  induction m with
  | zero => rfl
  | succ m ih =>
    rw [take_succ_flatten (by omega), List.length_append, ih (by omega), Finset.sum_range_succ]

/-- **The table of contents is a finite map.** -/
theorem table_is_map (h : t.Reached m) : t.IsMap m := by
  obtain ⟨ch, hch⟩ := agrees_of_reached h
  obtain ⟨j, hj⟩ := hch.pow
  have hcar := hch.carries
  have hmem : ∀ {b : ℕ} {r : Ptr}, r ∈ (ch.tab.getD b []).map Cell.ptr →
      (⟨r, t.key r⟩ : Cell) ∈ ch.tab.getD b [] := by
    intro b r hr
    obtain ⟨c, hc, rfl⟩ := List.mem_map.mp hr
    rw [hcar.links.named c (mem_getD hc)]
    exact hc
  have hpow : t.nbuckets = 2 ^ (j + 6) := by rw [hj]; ring
  have hslot : ∀ k, slot ch.tab k = hashOf k % t.nbuckets := by
    intro k
    rw [slot_eq hcar.buckets, Table.bucketOf, hpow, Nat.and_two_pow_sub_one_eq_mod]
  refine ⟨⟨j + 6, hpow⟩, hch.load, ⟨fun b => (ch.tab.getD b []).map Cell.ptr, ?_, ?_, ?_⟩, ?_, ?_,
    ?_, ?_⟩
  · refine fun b _ => ⟨hcar.links.head b, hcar.links.leads b, ?_, fun r hr => ?_⟩
    · refine List.Nodup.sublist (List.Sublist.map _ ?_) hcar.ptrs
      rw [Chained.toList, Chained.flatten_eq (by rw [hcar.buckets]; assumption)]
      exact (List.sublist_append_left _ _).trans (List.sublist_append_right _ _)
    · rw [← hslot]
      exact hcar.wf.placed.2 b _ (hmem hr)
  · rw [← hcar.length, ← hcar.buckets]
    simp only [List.length_map]
    rw [← sum_length le_rfl, List.take_length]
  · intro k r
    rw [hch.mem_iff]
    constructor
    · intro hm
      have hb := (Chained.mem_flatten_iff hcar.wf.placed).mp hm
      refine ⟨slot ch.tab k, ?_, List.mem_map.mpr ⟨_, hb, rfl⟩, hcar.links.named _ hm⟩
      rw [← hcar.buckets]
      exact Chained.slot_lt hcar.wf.placed.1 k
    · rintro ⟨b, -, hr, rfl⟩
      exact mem_getD (hmem hr)
  · intro fuel hf k
    rw [carries_find hcar hf, hch.found]
  · intro fuel hf k r hk hr
    obtain ⟨t', h1, -⟩ := agrees_insert fuel hch hk hr hf
    exact ⟨t', h1⟩
  · intro fuel hf k r hk
    obtain ⟨t', h1, -⟩ := agrees_unlink fuel hch hk hf
    exact ⟨t', h1⟩
  · intro fuel hf
    refine ⟨_, carries_keys hcar hf, hcar.wf.nodup, (List.length_map _).trans hcar.length, fun k => ?_⟩
    rw [List.mem_map]
    constructor
    · rintro ⟨c, hc, rfl⟩
      exact ⟨c.ptr, hch.mem_iff.mpr hc⟩
    · rintro ⟨r, hr⟩
      exact ⟨_, hch.mem_iff.mp hr, rfl⟩

/-- `table_is_map` after one insertion into the table of a new store. -/
theorem table_is_map_one : ∃ t, Table.lsTocInsert 1 (.opened (fun _ => cstr []) fun _ => none)
    (cstr [97]) 7 = some t ∧ t.IsMap (Function.update (fun _ => none) (cstr [97]) (some 7)) :=
  have hfind : Table.lsTocFind 1 (.opened (fun _ => cstr []) fun _ => none) (cstr [97]) =
      some none := rfl
  have hins : Table.lsTocInsert 1 (.opened (fun _ => cstr []) fun _ => none) (cstr [97]) 7 =
      some _ := rfl
  ⟨_, hins, table_is_map (.insert (.opened _ _) hfind (fun _ h => (by cases h)) hins)⟩

end Libspill
