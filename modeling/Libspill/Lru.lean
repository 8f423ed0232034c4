import Libspill.Lib.Linked
import Libspill.Store

set_option autoImplicit false

/-!
# The LRU list in memory

`ls_lru_drop`, `ls_lru_touch` and the walk of `ls_evict_to` as they handle pointers: `lru_head` and
`lru_tail` of the store, and the fields `lru_prev` and `lru_next` of every record. A record is named
by its key.

* `Lru.lsLruDrop`, `Lru.lsLruTouch`, `Lru.walk`: the code.
* `Lru.Spells`: the pointers are those of a list, most recently used first, and a record that is not
  on it points nowhere.
* **`spells_drop`**, **`spells_touch`**, **`walk_spec`**: what the code does to the list.
-/

namespace Libspill

/-- The pointers of the list. -/
structure Lru where
  lruHead : Option CStr
  lruTail : Option CStr
  lruPrev : CStr → Option CStr
  lruNext : CStr → Option CStr

namespace Lru

/-- The list of a store that is being opened. -/
def opened : Lru := ⟨none, none, fun _ => none, fun _ => none⟩

/-- The first statement of `ls_lru_drop`: what led to `r` leads past it. -/
def dropNext (w : Lru) (r : CStr) : Lru :=
  match w.lruPrev r with
  | some p => { w with lruNext := Function.update w.lruNext p (w.lruNext r) }
  | none => if w.lruHead = some r then { w with lruHead := w.lruNext r } else w

/-- The second statement of `ls_lru_drop`: what led back to `r` leads past it. -/
def dropPrev (w : Lru) (r : CStr) : Lru :=
  match w.lruNext r with
  | some q => { w with lruPrev := Function.update w.lruPrev q (w.lruPrev r) }
  | none => if w.lruTail = some r then { w with lruTail := w.lruPrev r } else w

/-- `ls_lru_drop`. -/
def lsLruDrop (w : Lru) (r : CStr) : Lru :=
  let w := (w.dropNext r).dropPrev r
  { w with lruPrev := Function.update w.lruPrev r none, lruNext := Function.update w.lruNext r none }

/-- `ls_lru_touch`. -/
def lsLruTouch (w : Lru) (r : CStr) : Lru :=
  if w.lruHead = some r then w
  else
    let w := w.lsLruDrop r
    let w := { w with lruNext := Function.update w.lruNext r w.lruHead }
    let w := { w with lruPrev := setAt w.lruPrev w.lruHead (some r), lruHead := some r }
    if w.lruTail = none then { w with lruTail := some r } else w

/-- `while (v && (v == keep || v->busy)) v = v->lru_prev`, where `skip v` is the test in brackets. -/
def walk (w : Lru) (skip : CStr → Bool) : ℕ → Option CStr → Option (Option CStr)
  | 0, _ => none
  | _ + 1, none => some none
  | fuel + 1, some v => if skip v then walk w skip fuel (w.lruPrev v) else some (some v)

/-! ## The list -/

/-- The pointers are those of a list. -/
structure Spells (w : Lru) (l : List CStr) : Prop where
  head : w.lruHead = l.head?
  tail : w.lruTail = l.getLast?
  next : Leads w.lruNext l none
  prev : Leads w.lruPrev l.reverse none
  nodup : l.Nodup
  away : ∀ k, k ∉ l → w.lruPrev k = none ∧ w.lruNext k = none

/-- The pointers spell one list. -/
theorem Spells.unique {w : Lru} {l m : List CStr} (h : w.Spells l) (h' : w.Spells m) : l = m :=
  leads_unique h.next h'.next (h.head.symm.trans h'.head)

theorem spells_opened : opened.Spells [] := ⟨rfl, rfl, trivial, trivial, List.nodup_nil, fun _ _ => ⟨rfl, rfl⟩⟩

section Ops

variable {w : Lru} {l pre post : List CStr} {r : CStr}

/-- The neighbours of a record on the list. -/
theorem Spells.around (h : w.Spells (pre ++ r :: post)) :
    w.lruPrev r = pre.getLast? ∧ w.lruNext r = post.head? := by
  have hrev : (pre ++ r :: post).reverse = post.reverse ++ r :: pre.reverse := by simp
  have hp := h.prev
  rw [hrev] at hp
  have h1 := (leads_bypass hp (by rw [← hrev]; exact List.nodup_reverse.mpr h.nodup)).1
  exact ⟨by rw [h1, List.head?_reverse], (leads_bypass h.next h.nodup).1⟩

/-- The two statements that take a record out, on a list that has it. -/
theorem dropNext_eq (h : w.Spells (pre ++ r :: post)) :
    w.dropNext r = { w with
      lruHead := (pre ++ post).head?
      lruNext := setAt w.lruNext pre.getLast? post.head? } := by
  obtain ⟨hp, hn⟩ := h.around
  unfold dropNext
  rw [hp, hn]
  rcases List.eq_nil_or_concat pre with rfl | ⟨as, p, rfl⟩
  · simp [h.head]
  · have hhead : w.lruHead = (as.concat p ++ post).head? := by
      rw [h.head]
      cases as <;> simp
    simp only [List.concat_eq_append, List.getLast?_concat, setAt_some] at hhead ⊢
    rw [← hhead]

theorem dropPrev_eq (h : w.Spells (pre ++ r :: post)) :
    (w.dropNext r).dropPrev r = { w with
      lruHead := (pre ++ post).head?
      lruTail := (pre ++ post).getLast?
      lruNext := setAt w.lruNext pre.getLast? post.head?
      lruPrev := setAt w.lruPrev post.head? pre.getLast? } := by
  obtain ⟨hp, hn⟩ := h.around
  have hnd := h.nodup
  rw [List.nodup_append, List.nodup_cons] at hnd
  obtain ⟨-, ⟨hr, -⟩, hap⟩ := hnd
  have hne : pre.getLast? ≠ some r := fun hl => hap r (List.mem_of_getLast? hl) r List.mem_cons_self rfl
  rw [dropNext_eq h]
  unfold dropPrev
  dsimp only
  rw [setAt_of_ne _ _ hne, hp, hn]
  cases post with
  | nil => simp [h.tail]
  | cons q post =>
    have htail : w.lruTail = (pre ++ q :: post).getLast? := by
      rw [h.tail, List.getLast?_append, List.getLast?_append, List.getLast?_cons_cons]
    simp only [List.head?_cons, setAt_some]
    rw [← htail]

/-- **Taking a record off the list.** -/
theorem spells_drop (h : w.Spells l) (r : CStr) : (w.lsLruDrop r).Spells (l.erase r) := by
  by_cases hr : r ∈ l
  case neg =>
    obtain ⟨hp, hn⟩ := h.away r hr
    have hhead : w.lruHead ≠ some r := fun he => hr (List.mem_of_head? (h.head.symm.trans he))
    have htail : w.lruTail ≠ some r := fun he => hr (List.mem_of_getLast? (h.tail.symm.trans he))
    have hw : w.lsLruDrop r = w := by
      unfold lsLruDrop
      have h1 : w.dropNext r = w := by rw [dropNext, hp]; exact if_neg hhead
      have h2 : w.dropPrev r = w := by rw [dropPrev, hn]; exact if_neg htail
      rw [h1, h2]
      dsimp only
      rw [Function.update_eq_self_iff.mpr hp.symm, Function.update_eq_self_iff.mpr hn.symm]
    rw [hw, List.erase_of_not_mem hr]
    exact h
  obtain ⟨pre, post, rfl⟩ := List.append_of_mem hr
  have hnd := h.nodup
  have hpre : r ∉ pre := fun hm => (List.nodup_append.mp hnd).2.2 r hm r List.mem_cons_self rfl
  have herase : (pre ++ r :: post).erase r = pre ++ post := by
    rw [List.erase_append_right _ hpre, List.erase_cons_head]
  have hrev : (pre ++ r :: post).reverse = post.reverse ++ r :: pre.reverse := by simp
  have hnr : r ∉ pre ++ post := by
    have := hnd.perm (List.perm_middle)
    exact (List.nodup_cons.mp this).1
  obtain ⟨hp, hn⟩ := h.around
  have hprev := h.prev
  rw [hrev] at hprev
  have h1 := (leads_bypass h.next hnd).2
  have h2 := (leads_bypass hprev (by rw [← hrev]; exact List.nodup_reverse.mpr hnd)).2
  rw [hn] at h1
  rw [hp, List.getLast?_reverse, ← List.reverse_append] at h2
  rw [herase]
  unfold lsLruDrop
  rw [dropPrev_eq h]
  refine ⟨rfl, rfl, ?_, ?_, (hnd.sublist (by simp)), fun k hk => ?_⟩
  · exact leads_setAt (p := some r) h1 (fun b hb hrb => hnr (by cases hrb; exact hb)) none
  · exact leads_setAt (p := some r) h2
      (fun b hb hrb => hnr (by cases hrb; exact List.mem_reverse.mp hb)) none
  · dsimp only
    by_cases hkr : k = r
    · subst hkr
      exact ⟨Function.update_self _ _ _, Function.update_self _ _ _⟩
    rw [Function.update_of_ne hkr, Function.update_of_ne hkr]
    rw [List.mem_append, not_or] at hk
    have hk' := h.away k (by simp [hk.1, hk.2, hkr])
    rw [setAt_of_ne _ _ fun hl => hk.1 (List.mem_of_getLast? hl),
      setAt_of_ne _ _ fun hl => hk.2 (List.mem_of_head? hl)]
    exact hk'

/-- **Putting a record at the front.** -/
theorem spells_touch (h : w.Spells l) (r : CStr) :
    (w.lsLruTouch r).Spells (if l.head? = some r then l else r :: l.erase r) := by
  unfold lsLruTouch
  rw [h.head]
  split_ifs with hhead
  · exact h
  have hd := spells_drop h r
  have hr : r ∉ l.erase r := h.nodup.not_mem_erase
  generalize w.lsLruDrop r = w' at hd ⊢
  generalize l.erase r = m at hd hr ⊢
  obtain ⟨hprev, hnext⟩ := hd.away r hr
  have h1 : Leads (Function.update w'.lruNext r w'.lruHead) (r :: m) none := by
    have := leads_cons hd.next hr
    rwa [Option.or_none, ← hd.head] at this
  have h2 : Leads (setAt w'.lruPrev w'.lruHead (some r)) (r :: m).reverse none := by
    have := leads_snoc hd.prev (List.nodup_reverse.mpr hd.nodup) (by simpa using hr) hprev
    rwa [List.getLast?_reverse, ← hd.head, ← List.reverse_cons] at this
  have haway : ∀ k, k ∉ r :: m → setAt w'.lruPrev w'.lruHead (some r) k = none ∧
      Function.update w'.lruNext r w'.lruHead k = none := fun k hk => by
    rw [List.mem_cons, not_or] at hk
    rw [Function.update_of_ne hk.1, setAt_of_ne _ _ fun hl => hk.2 (List.mem_of_head? (hd.head.symm.trans hl))]
    exact hd.away k hk.2
  have hnd : (r :: m).Nodup := List.nodup_cons.mpr ⟨hr, hd.nodup⟩
  dsimp only
  split_ifs with htail
  · refine ⟨rfl, ?_, h1, h2, hnd, haway⟩
    have : m = [] := List.getLast?_eq_none_iff.mp (hd.tail.symm.trans htail)
    rw [this]
    rfl
  · refine ⟨rfl, ?_, h1, h2, hnd, haway⟩
    dsimp only
    rw [hd.tail] at htail ⊢
    cases m with
    | nil => exact absurd rfl htail
    | cons a m => rw [List.getLast?_cons_cons]

/-- The walk along a part of the list. -/
theorem walk_leads {skip : CStr → Bool} (fuel : ℕ) {m : List CStr} (h : Leads w.lruPrev m none)
    (hf : m.length < fuel) : w.walk skip fuel m.head? = some (m.find? fun k => !skip k) := by
  induction m generalizing fuel with
  | nil =>
    cases fuel with
    | zero => exact absurd hf (Nat.not_lt_zero _)
    | succ fuel => rfl
  | cons a m ih =>
    cases fuel with
    | zero => exact absurd hf (Nat.not_lt_zero _)
    | succ fuel =>
      obtain ⟨ha, hm⟩ := h
      rw [Option.or_none] at ha
      rw [List.head?_cons, walk, List.find?_cons]
      cases skip a with
      | true =>
        rw [if_pos rfl, ha]
        exact ih fuel hm (by simpa using hf)
      | false => rfl

/-- **The walk from the tail** finds the least recently used record that is not skipped. -/
theorem walk_spec {skip : CStr → Bool} {fuel : ℕ} (h : w.Spells l) (hf : l.length < fuel) :
    w.walk skip fuel w.lruTail = some (l.reverse.find? fun k => !skip k) := by
  have hwalk : w.walk skip fuel l.reverse.head? = some (l.reverse.find? fun k => !skip k) :=
    walk_leads fuel h.prev (by rwa [List.length_reverse])
  rwa [List.head?_reverse, ← h.tail] at hwalk

end Ops

end Lru

end Libspill
