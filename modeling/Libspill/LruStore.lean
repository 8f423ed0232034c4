import Libspill.Lib.Recency
import Libspill.Calls
import Libspill.Lru
import Libspill.Open

set_option autoImplicit false

/-!
# The store with its LRU list in memory

The functions of `store.c` and `toc.c` that handle the LRU list, once more, on a store whose list is
the one that the pointers spell. The functions that do not touch the list are those of the store.

* `LruStore`, and the functions under their names.
* `Mirrors`, `Tallies`: the store that the pointers stand for.
* `tallies_spill`, **`tallies_evictTo`**, `tallies_makeRoom`, …: the functions on pointers do what those on
  lists do.
* `TierBound`, `makeRoom_bound`: the count of resident bytes.
-/

namespace Libspill

variable {σ : Type}

/-- A store whose LRU list lies in memory; the field `lru` of `s` is not used. `clock` counts the
touches, and `stamp` says when each record was last touched: the code has neither. -/
structure LruStore (σ : Type) where
  s : Store σ
  w : Lru
  clock : ℕ := 0
  stamp : CStr → ℕ := fun _ => 0

namespace LruStore

/-! ## The code -/

/-- `ls_lru_drop`. -/
def lsLruDrop (t : LruStore σ) (key : CStr) : LruStore σ := { t with w := t.w.lsLruDrop key }

/-- `ls_lru_touch`. -/
def lsLruTouch (t : LruStore σ) (key : CStr) : LruStore σ :=
  { t with
    w := t.w.lsLruTouch key
    clock := t.clock + 1
    stamp := Function.update t.stamp key (t.clock + 1) }

/-- Releasing the buffer of a record that has been written out. -/
def dropBuffer (t : LruStore σ) (key : CStr) : LruStore σ :=
  let r := t.s.recAt key
  let s := { t.s with
    resident := if t.s.resident ≥ r.memCap then t.s.resident - r.memCap else t.s.resident }
  lsLruDrop { t with s := s.setRec key fun r => { r with mem := none, memCap := 0 } } key

/-- A record's buffer of `hold` bytes grown to `need` bytes at `p`, with the new part zeroed. -/
def growBuffer (t : LruStore σ) (key : CStr) (p : Ptr) (hold need : ℕ) : LruStore σ :=
  let r := t.s.recAt key
  let s := { t.s with
    mem := Function.update t.s.mem p fun i =>
      if i < r.memCap then t.s.mem (r.mem.getD p) i else if i < need then 0 else t.s.mem p i
    memNext := max t.s.memNext (p + 1)
    resident := add64 (sub64 t.s.resident hold) need }
  lsLruTouch { t with s := s.setRec key fun r => { r with mem := some p, memCap := need } } key

/-- The end of a critical section that starts a transfer. -/
def pin (t : LruStore σ) (key : CStr) : Place × LruStore σ :=
  let t := if (t.s.recAt key).mem.isSome then t.lsLruTouch key else t
  let t := { t with s := t.s.setRec key fun r => { r with busy := r.busy + 1 } }
  (lsPlaceOf (t.s.recAt key), t)

/-- The critical section after a transfer. -/
def unpin (t : LruStore σ) (key : CStr) : LruStore σ := { t with s := Libspill.unpin t.s key }

variable [Os σ] (E : Env)

/-- `spill`. -/
def spill (t : LruStore σ) (key : CStr) : Option (Rc × LruStore σ) :=
  match (t.s.recAt key).mem with
  | none => some (.ok, t)
  | some p =>
    match ensureExtents E E.fuel t.s key (t.s.recAt key).size with
    | none => none
    | some (rc, s) =>
      if rc ≠ .ok then some (rc, { t with s })
      else
        match spillLoop E p (s.exts (s.recAt key)) (s.recAt key).size 0 s with
        | none => none
        | some (rc, s) => if rc ≠ .ok then some (rc, { t with s }) else some (.ok, dropBuffer { t with s } key)

/-- `v == keep || v->busy`. -/
def skip (t : LruStore σ) (keep : Option CStr) (v : CStr) : Bool :=
  some v = keep || (t.s.recAt v).busy ≠ 0

/-- `ls_evict_to`. -/
def lsEvictTo : ℕ → LruStore σ → ℕ → Option CStr → Option (Rc × LruStore σ)
  | 0, _, _, _ => none
  | fuel + 1, t, budget, keep =>
    if t.s.resident > budget then
      match t.w.walk (t.skip keep) E.fuel t.w.lruTail with
      | none => none
      | some none => some (.ok, t)
      | some (some v) =>
        match spill E t v with
        | none => none
        | some (rc, t) => if rc ≠ .ok then some (rc, t) else lsEvictTo fuel t budget keep
    else some (.ok, t)

/-- `ls_spill_all`. -/
def lsSpillAll (t : LruStore σ) : Option (Rc × LruStore σ) := lsEvictTo E E.fuel t 0 none

/-- The memory-tier attempt of `ensure_cap`. -/
def tryMemory (t : LruStore σ) (key : CStr) (need : ℕ) : Option (Bool × LruStore σ) :=
  let budget := t.s.o.memoryBudget
  let r := t.s.recAt key
  if budget ≠ 0 ∧ r.ext = none ∧ need ≤ budget then
    let hold := if r.mem.isSome then r.memCap else 0
    let evicted :=
      if add64 (sub64 t.s.resident hold) need > budget then
        lsEvictTo E E.fuel t (add64 (sub64 budget need) hold) (some key)
      else some (.ok, t)
    match evicted with
    | none => none
    | some (_, t) =>
      if add64 (sub64 t.s.resident hold) need ≤ budget then
        match Os.realloc t.s.os (sub64 t.s.resident hold) need with
        | (none, os) => some (false, { t with s := { t.s with os } })
        | (some moved, os) =>
          let p := if moved then t.s.memNext else r.mem.getD t.s.memNext
          some (true, growBuffer { t with s := { t.s with os } } key p hold need)
      else some (false, t)
  else some (false, t)

/-- `ensure_cap`. -/
def ensureCap (t : LruStore σ) (key : CStr) (need : ℕ) : Option (Rc × LruStore σ) :=
  let r := t.s.recAt key
  if need ≤ r.memCap ∧ r.mem.isSome then some (.ok, t)
  else if r.extTotal ≥ need ∧ r.mem = none then some (.ok, t)
  else
    match tryMemory E t key need with
    | none => none
    | some (true, t) => some (.ok, t)
    | some (false, t) =>
      match spill E t key with
      | none => none
      | some (rc, t) =>
        if rc ≠ .ok then some (rc, t)
        else (ensureExtents E E.fuel t.s key need).map fun q => (q.1, { t with s := q.2 })

/-- Room for a write that ends at `fin`. -/
def makeRoom (t : LruStore σ) (key : CStr) (fin : ℕ) : Option (Rc × LruStore σ) :=
  match ensureCap E { t with s := lsTocFindOrInsert t.s key } key fin with
  | none => none
  | some (rc, t) =>
    if rc ≠ .ok then some (rc, t)
    else some (.ok, { t with
      s := t.s.setRec key fun r => { r with size := if fin > r.size then fin else r.size } })

/-- The first critical section of `ls_rw`, reading. -/
def readBegin (t : LruStore σ) (key : CStr) (off n : ℕ) : Except Rc Place × LruStore σ :=
  if !lsKeyOk key then (.error .inval, t)
  else if add64 off n < off then (.error .range, t)
  else if (t.s.find key).isNone then (.error .nokey, t)
  else if add64 off n > (t.s.recAt key).size then (.error .range, t)
  else
    let (pl, t) := pin t key
    (.ok pl, t)

/-- Room, and the start of a transfer: the end of the first critical section of every write. -/
def roomPin (t : LruStore σ) (key : CStr) (fin : ℕ) : Option (Except Rc Place × LruStore σ) :=
  match makeRoom E t key fin with
  | none => none
  | some (rc, t) =>
    if rc ≠ .ok then some (.error rc, t)
    else
      let (pl, t) := pin t key
      some (.ok pl, t)

/-- The first critical section of `ls_rw`, writing. -/
def writeBegin (t : LruStore σ) (key : CStr) (off n : ℕ) : Option (Except Rc Place × LruStore σ) :=
  if !lsKeyOk key then some (.error .inval, t)
  else if add64 off n < off then some (.error .range, t)
  else if frozen t.s key (add64 off n) then some (.error .mode, t)
  else roomPin E t key (add64 off n)

/-- The first critical section of `ls_append`. -/
def appendBegin (t : LruStore σ) (key : CStr) (n : ℕ) : Option (Except Rc (ℕ × Place) × LruStore σ) :=
  if !lsKeyOk key then some (.error .inval, t)
  else if t.s.o.parallel = .shared then some (.error .mode, t)
  else
    let t := { t with s := lsTocFindOrInsert t.s key }
    let off := (t.s.recAt key).size
    if add64 off n < off then some (.error .range, t)
    else (roomPin E t key (add64 off n)).map fun q => (q.1.map fun pl => (off, pl), q.2)

/-- `ls_reserve`. -/
def lsReserve (t : LruStore σ) (key : CStr) (nbytes : ℕ) : Option (Rc × LruStore σ) :=
  if !lsKeyOk key then some (.inval, t)
  else if t.s.o.parallel = .shared then some (.mode, t)
  else makeRoom E t key nbytes

/-- `ls_erase`. -/
def lsErase (t : LruStore σ) (key : CStr) : Rc × LruStore σ :=
  if !lsKeyOk key then (.inval, t)
  else if t.s.o.parallel = .shared then (.mode, t)
  else
    match t.s.find key with
    | none => (.nokey, t)
    | some r =>
      let t := lsLruDrop { t with s := lsTocUnlink t.s key } key
      (.ok, { t with s := lsRecFree t.s r })

/-- The first critical section of `segv`. -/
def segvBegin (t : LruStore σ) (key : CStr) (hi : ℕ) (write : Bool) :
    Option (Except Rc Place × LruStore σ) :=
  if write then
    if frozen t.s key hi then some (.error .mode, t) else roomPin E t key hi
  else if (t.s.find key).isNone then some (.error .nokey, t)
  else if hi > (t.s.recAt key).size then some (.error .range, t)
  else
    let (pl, t) := pin t key
    some (.ok pl, t)

end LruStore

/-! ## Functions that touch neither the list nor the count -/

/-- The store with another LRU list, count of resident bytes and supply of buffers. -/
abbrev Store.withTier (s : Store σ) (l : List CStr) (n : ℕ) (m : Ptr) : Store σ :=
  { s with lru := l, resident := n, memNext := m }

/-- The store with another LRU list. -/
abbrev Store.withLru (s : Store σ) (l : List CStr) : Store σ := s.withTier l s.resident s.memNext

/-- What a function has returned, with another list, count and supply. -/
def reTier {α : Type} (l : List CStr) (n : ℕ) (m : Ptr) (o : Option (α × Store σ)) :
    Option (α × Store σ) :=
  o.map fun q => (q.1, q.2.withTier l n m)

/-- The function neither reads nor changes the LRU list, the count of resident bytes and the supply of
buffers. -/
def Frames {α : Type} (F : Store σ → Option (α × Store σ)) : Prop :=
  ∀ s l n m, F (s.withTier l n m) = reTier l n m (F s)

section Frame

variable [Os σ] {E : Env} {s s' : Store σ} {l : List CStr} {n : ℕ} {m : Ptr}

omit [Os σ] in
@[simp] theorem reTier_none {α : Type} : reTier l n m (none : Option (α × Store σ)) = none := rfl

omit [Os σ] in
@[simp] theorem reTier_some {α : Type} (a : α) : reTier l n m (some (a, s)) = some (a, s.withTier l n m) := rfl

omit [Os σ] in
theorem Frames.same {α : Type} {F : Store σ → Option (α × Store σ)} {a : α} (hF : Frames F)
    (h : F s = some (a, s')) : s'.lru = s.lru ∧ s'.resident = s.resident ∧ s'.memNext = s.memNext := by
  have heq := hF s s.lru s.resident s.memNext
  rw [show s.withTier s.lru s.resident s.memNext = s from rfl, h, reTier_some] at heq
  have hs' : s' = s'.withTier s.lru s.resident s.memNext := congrArg Prod.snd (Option.some.inj heq)
  rw [hs']
  exact ⟨rfl, rfl, rfl⟩

omit [Os σ] in
theorem Frames.withLru {α : Type} {F : Store σ → Option (α × Store σ)} (hF : Frames F) (s : Store σ)
    (l : List CStr) : F (s.withLru l) = (F s).map fun q => (q.1, q.2.withLru l) := by
  rw [hF s l s.resident s.memNext]
  cases hs : F s with
  | none => rfl
  | some q =>
    obtain ⟨a, s'⟩ := q
    rw [reTier_some, Option.map_some, Store.withLru, (hF.same hs).2.1, (hF.same hs).2.2]

theorem exec_withTier {α : Type} (p : Io α) (s : Store σ) (l : List CStr) (n : ℕ) (m : Ptr) :
    (s.withTier l n m).exec p = reTier l n m (s.exec p) := by
  induction p generalizing s with
  | ret a => rfl
  | hang => rfl
  | call c k ih =>
    have hc : perform c (s.withTier l n m) = ((perform c s).1, (perform c s).2.withTier l n m) := by
      cases c <;> rfl
    show (k (perform c (s.withTier l n m)).1).run perform (perform c (s.withTier l n m)).2 = _
    rw [hc]
    exact ih _ _

theorem frames_writeZeros (fuel off len : ℕ) : Frames fun s : Store σ => writeZeros E fuel off len s := by
  intro s l n m
  induction fuel generalizing off len s with
  | zero => rfl
  | succ fuel ih =>
    dsimp only
    rw [writeZeros, writeZeros]
    by_cases hlen : len = 0
    · rw [if_pos hlen, if_pos hlen, reTier_some]
    rw [if_neg hlen, if_neg hlen]
    dsimp only
    rw [exec_withTier (lsPwriteAll E s.direct 0 (List.replicate (if len < 2 ^ 20 then len else 2 ^ 20) 0) off) s l n m]
    rcases s.exec (lsPwriteAll E s.direct 0 (List.replicate (if len < 2 ^ 20 then len else 2 ^ 20) 0) off)
      with _ | ⟨⟨rc, b⟩, s₁⟩
    · rfl
    rw [reTier_some]
    dsimp only
    by_cases hrc : rc = .ok
    · rw [if_pos hrc, if_pos hrc]
      exact ih _ _ _
    · rw [if_neg hrc, if_neg hrc, reTier_some]

theorem askZero_withTier (off inside : ℕ) (s : Store σ) (l : List CStr) (n : ℕ) (m : Ptr) :
    askZero (s.withTier l n m) off inside =
      ((askZero s off inside).1, (askZero s off inside).2.withTier l n m) := by
  unfold askZero
  split_ifs <;> rfl

theorem frames_zeroRange (off len : ℕ) : Frames fun s : Store σ => zeroRange E s off len := by
  intro s l n m
  dsimp only
  rw [zeroRange, zeroRange]
  by_cases hlen : len = 0
  · rw [if_pos hlen, if_pos hlen, reTier_some]
  rw [if_neg hlen, if_neg hlen]
  by_cases hdir : s.direct = true
  · rw [if_pos hdir, if_pos hdir]
    exact frames_writeZeros _ _ _ s l n m
  rw [if_neg hdir, if_neg hdir]
  rcases Os.fileSize s.os with ⟨fin, os⟩
  cases fin with
  | error e => rfl
  | ok fin =>
    dsimp only
    rw [askZero_withTier off (insideOf fin off len) { s with os } l n m]
    rcases askZero { s with os } off (insideOf fin off len) with ⟨_ | _, s₁⟩
    · exact frames_writeZeros _ _ _ s₁ l n m
    dsimp only
    by_cases hin : add64 off len ≤ fin
    · rw [if_pos hin, if_pos hin, reTier_some]
    rw [if_neg hin, if_neg hin, exec_withTier (lsPwriteAll E s₁.direct 0 [0] (sub64 (add64 off len) 1)) s₁ l n m]
    rcases s₁.exec (lsPwriteAll E s₁.direct 0 [0] (sub64 (add64 off len) 1)) with _ | ⟨⟨rc, b⟩, s₂⟩ <;> rfl

theorem lsFreeExtents_withTier (s : Store σ) (l : List CStr) (n : ℕ) (m : Ptr) (e : List Extent) :
    lsFreeExtents (s.withTier l n m) e = (lsFreeExtents s e).withTier l n m := by
  have hone : ∀ (s : Store σ) (e : Extent), freeExtent (s.withTier l n m) e = (freeExtent s e).withTier l n m := by
    intro s e
    unfold freeExtent
    dsimp only
    rcases flInsert s.al e.foff e.len with ⟨al, _ | n⟩ <;> rfl
  have hfold : ∀ (s : Store σ), e.foldl freeExtent (s.withTier l n m) = (e.foldl freeExtent s).withTier l n m := by
    induction e with
    | nil => exact fun _ => rfl
    | cons a e ih => exact fun s => by rw [List.foldl_cons, List.foldl_cons, hone, ih]
  unfold lsFreeExtents
  by_cases ht : s.teardown = true
  · rw [if_pos ht, if_pos ht]
  · rw [if_neg ht, if_neg ht]
    exact hfold s

omit [Os σ] in
theorem adopt_withTier (s : Store σ) (l : List CStr) (n : ℕ) (m : Ptr) (key : CStr) (e : Extent) :
    adopt (s.withTier l n m) key e = (adopt s key e).withTier l n m := by
  have hpush : extPush (s.withTier l n m) key e = (extPush s key e).withTier l n m := by
    unfold extPush
    rw [show (s.withTier l n m).recAt key = s.recAt key from rfl]
    dsimp only
    split_ifs <;> rfl
  rw [adopt, hpush]
  rfl

theorem frames_ensureExtents (fuel : ℕ) (key : CStr) (need : ℕ) :
    Frames fun s : Store σ => ensureExtents E fuel s key need := by
  intro s l n m
  induction fuel generalizing s with
  | zero => rfl
  | succ fuel ih =>
    dsimp only
    rw [ensureExtents, ensureExtents, show (s.withTier l n m).recAt key = s.recAt key from rfl]
    by_cases hlt : (s.recAt key).extTotal < need
    case neg => rw [if_neg hlt, if_neg hlt, reTier_some]
    rw [if_pos hlt, if_pos hlt]
    dsimp only
    generalize allocFor s.al (s.recAt key).next (sub64 need (s.recAt key).extTotal) = a
    have hz := frames_zeroRange (E := E) a.1.foff a.1.len { s with al := a.2 } l n m
    dsimp only at hz ⊢
    rw [hz]
    rcases zeroRange E { s with al := a.2 } a.1.foff a.1.len with _ | ⟨rc, s₁⟩
    · rfl
    rw [reTier_some]
    dsimp only
    by_cases hrc : rc ≠ .ok
    · rw [if_pos hrc, if_pos hrc, lsFreeExtents_withTier s₁ l n m, reTier_some]
    · rw [if_neg hrc, if_neg hrc, adopt_withTier s₁ l n m]
      exact ih _

theorem frames_spillLoop (p : Ptr) (es : List Extent) (left pos : ℕ) :
    Frames fun s : Store σ => spillLoop E p es left pos s := by
  intro s l n m
  induction es generalizing left pos s with
  | nil => rfl
  | cons e es ih =>
    dsimp only
    rw [spillLoop, spillLoop]
    by_cases hleft : left = 0
    · rw [if_pos hleft, if_pos hleft, reTier_some]
    rw [if_neg hleft, if_neg hleft]
    dsimp only
    rw [exec_withTier (lsPwriteAll E s.direct (E.addr p + pos)
      (slice (s.mem p) pos (if e.len < left then e.len else left)) e.foff) s l n m]
    rcases s.exec (lsPwriteAll E s.direct (E.addr p + pos)
      (slice (s.mem p) pos (if e.len < left then e.len else left)) e.foff) with _ | ⟨⟨rc, b⟩, s₁⟩
    · rfl
    rw [reTier_some]
    dsimp only
    by_cases hrc : rc ≠ .ok
    · rw [if_pos hrc, if_pos hrc, reTier_some]
    · rw [if_neg hrc, if_neg hrc]
      exact ih _ _ _

omit [Os σ] in
theorem lsTocFindOrInsert_withLru (s : Store σ) (l : List CStr) (key : CStr) :
    lsTocFindOrInsert (s.withLru l) key = (lsTocFindOrInsert s key).withLru l := by
  unfold lsTocFindOrInsert
  show (match s.find key with | none => _ | some _ => _) = _
  cases s.find key <;> rfl

end Frame

/-! ## The store that the pointers stand for -/

/-- The pointers spell the list, which is by recency. -/
structure LruStore.Lists (t : LruStore σ) (l : List CStr) : Prop where
  spells : t.w.Spells l
  ranked : Ranked t.stamp l
  stamps : ∀ k, t.stamp k ≤ t.clock

/-- The store is the one that the pointers stand for. -/
def Mirrors (t : LruStore σ) (s : Store σ) : Prop := ∃ l, t.Lists l ∧ s = t.s.withLru l

/-- Two functions have returned the same, and stores that mirror each other. -/
def Tallies {α : Type} (a : Option (α × LruStore σ)) (b : Option (α × Store σ)) : Prop :=
  a = none ∧ b = none ∨ ∃ x t s, a = some (x, t) ∧ b = some (x, s) ∧ Mirrors t s

section Mirrors

variable {t : LruStore σ} {l : List CStr} {key : CStr}

theorem LruStore.Lists.drop (h : t.Lists l) (key : CStr) : (t.lsLruDrop key).Lists (l.erase key) :=
  ⟨Lru.spells_drop h.spells key, ranked_erase h.ranked key, h.stamps⟩

theorem LruStore.Lists.touch (h : t.Lists l) (key : CStr) :
    (t.lsLruTouch key).Lists (if l.head? = some key then l else key :: l.erase key) := by
  refine ⟨Lru.spells_touch h.spells key, ranked_toFront h.ranked h.spells.nodup h.stamps key, fun k => ?_⟩
  show Function.update t.stamp key (t.clock + 1) k ≤ t.clock + 1
  by_cases hk : k = key
  · rw [hk, Function.update_self]
  · rw [Function.update_of_ne hk]
    exact (h.stamps k).trans (Nat.le_succ _)

theorem LruStore.Lists.set (h : t.Lists l) (s : Store σ) : ({ t with s } : LruStore σ).Lists l :=
  ⟨h.spells, h.ranked, h.stamps⟩

theorem tallies_some {α : Type} (h : t.Lists l) (x : α) : Tallies (some (x, t)) (some (x, t.s.withLru l)) :=
  Or.inr ⟨x, t, _, rfl, rfl, l, h, rfl⟩

theorem mirrors_touch (h : t.Lists l) (key : CStr) :
    Mirrors (t.lsLruTouch key) (lsLruTouch (t.s.withLru l) key) := by
  refine ⟨_, h.touch key, ?_⟩
  unfold lsLruTouch
  dsimp only
  split_ifs <;> rfl

theorem mirrors_dropBuffer (h : t.Lists l) (key : CStr) :
    Mirrors (t.dropBuffer key) (dropBuffer (t.s.withLru l) key) :=
  ⟨l.erase key, (h.set _).drop key, rfl⟩

theorem mirrors_growBuffer (h : t.Lists l) (key : CStr) (p : Ptr) (hold need : ℕ) :
    Mirrors (t.growBuffer key p hold need) (growBuffer (t.s.withLru l) key p hold need) := by
  unfold LruStore.growBuffer growBuffer
  exact mirrors_touch (h.set _) key

theorem mirrors_pin (h : t.Lists l) (key : CStr) : (t.pin key).1 = (pin (t.s.withLru l) key).1 ∧
    Mirrors (t.pin key).2 (pin (t.s.withLru l) key).2 := by
  unfold LruStore.pin pin
  rw [show (t.s.withLru l).recAt key = t.s.recAt key from rfl]
  dsimp only
  by_cases hm : (t.s.recAt key).mem.isSome = true
  · rw [if_pos hm, if_pos hm]
    obtain ⟨l', h1, h2⟩ := mirrors_touch h key
    rw [h2]
    exact ⟨rfl, l', h1.set _, rfl⟩
  · rw [if_neg hm, if_neg hm]
    exact ⟨rfl, l, h.set _, rfl⟩

variable [Os σ] {E : Env}

theorem tallies_spill (h : t.Lists l) (key : CStr) :
    Tallies (t.spill E key) (spill E (t.s.withLru l) key) := by
  unfold LruStore.spill spill
  rw [show (t.s.withLru l).recAt key = t.s.recAt key from rfl]
  cases (t.s.recAt key).mem with
  | none => exact tallies_some h _
  | some p =>
    dsimp only
    rw [(frames_ensureExtents E.fuel key (t.s.recAt key).size).withLru t.s l]
    rcases ensureExtents E E.fuel t.s key (t.s.recAt key).size with _ | ⟨rc, s₁⟩
    · exact Or.inl ⟨rfl, rfl⟩
    rw [Option.map_some]
    dsimp only
    by_cases hrc : rc ≠ .ok
    · rw [if_pos hrc, if_pos hrc]
      exact tallies_some (h.set s₁) rc
    rw [if_neg hrc, if_neg hrc]
    have hloop := (frames_spillLoop (E := E) p (s₁.exts (s₁.recAt key)) (s₁.recAt key).size 0).withLru s₁ l
    rw [show spillLoop E p ((s₁.withLru l).exts ((s₁.withLru l).recAt key)) ((s₁.withLru l).recAt key).size 0
      (s₁.withLru l) = _ from hloop]
    rcases spillLoop E p (s₁.exts (s₁.recAt key)) (s₁.recAt key).size 0 s₁ with _ | ⟨rc', s₂⟩
    · exact Or.inl ⟨rfl, rfl⟩
    rw [Option.map_some]
    dsimp only
    by_cases hrc' : rc' ≠ .ok
    · rw [if_pos hrc', if_pos hrc']
      exact tallies_some (h.set s₂) rc'
    · rw [if_neg hrc', if_neg hrc']
      exact Or.inr ⟨_, _, _, rfl, rfl, mirrors_dropBuffer (h.set s₂) key⟩

omit [Os σ] in
/-- The walk finds the victim. -/
theorem walk_eq_victim {fuel : ℕ} (h : t.Lists l) (hf : l.length < fuel) (keep : Option CStr) :
    t.w.walk (t.skip keep) fuel t.w.lruTail = some (victim (t.s.withLru l) keep) := by
  rw [Lru.walk_spec h.spells hf, victim]
  congr 2
  funext k
  rw [LruStore.skip, show (t.s.withLru l).recAt k = t.s.recAt k from rfl]
  by_cases h1 : some k = keep <;> by_cases h2 : (t.s.recAt k).busy = 0 <;> simp [h1, h2]

/-- What `spill` does to the list and the count. -/
theorem spill_tier {s s' : Store σ} {rc : Rc} (h : Libspill.spill E s key = some (rc, s')) :
    (s'.lru = s.lru ∨ s'.lru = s.lru.erase key) ∧ s'.resident ≤ s.resident ∧ s'.memNext = s.memNext := by
  unfold Libspill.spill at h
  cases hp : (s.recAt key).mem with
  | none =>
    rw [hp] at h
    cases h
    exact ⟨Or.inl rfl, Nat.le_refl _, rfl⟩
  | some p =>
    rw [hp] at h
    dsimp only at h
    rcases he : ensureExtents E E.fuel s key (s.recAt key).size with _ | ⟨rc₁, s₁⟩
    · rw [he] at h
      cases h
    obtain ⟨h1, h2, h3⟩ := (frames_ensureExtents E.fuel key (s.recAt key).size).same he
    rw [he] at h
    dsimp only at h
    by_cases hrc₁ : rc₁ ≠ .ok
    · rw [if_pos hrc₁] at h
      cases h
      exact ⟨Or.inl h1, h2.le, h3⟩
    rw [if_neg hrc₁] at h
    rcases hl : spillLoop E p (s₁.exts (s₁.recAt key)) (s₁.recAt key).size 0 s₁ with _ | ⟨rc₂, s₂⟩
    · rw [hl] at h
      cases h
    obtain ⟨h4, h5, h6⟩ := (frames_spillLoop p (s₁.exts (s₁.recAt key)) (s₁.recAt key).size 0).same hl
    rw [hl] at h
    dsimp only at h
    by_cases hrc₂ : rc₂ ≠ .ok
    · rw [if_pos hrc₂] at h
      cases h
      exact ⟨Or.inl (h4.trans h1), (h5.trans h2).le, h6.trans h3⟩
    · rw [if_neg hrc₂] at h
      cases h
      refine ⟨Or.inr (by rw [← h1, ← h4]; rfl), ?_, h6.trans h3⟩
      rw [← h2, ← h5]
      show (if s₂.resident ≥ _ then _ else _) ≤ s₂.resident
      split_ifs
      · exact Nat.sub_le _ _
      · exact Nat.le_refl _

/-- **Eviction.** -/
theorem tallies_evictTo (fuel : ℕ) (h : t.Lists l) (hf : l.length < E.fuel) (budget : ℕ)
    (keep : Option CStr) :
    Tallies (t.lsEvictTo E fuel budget keep) (lsEvictTo E fuel (t.s.withLru l) budget keep) := by
  induction fuel generalizing t l with
  | zero => exact Or.inl ⟨rfl, rfl⟩
  | succ fuel ih =>
    rw [LruStore.lsEvictTo, lsEvictTo, walk_eq_victim h hf]
    by_cases hres : t.s.resident > budget
    case neg =>
      rw [if_neg hres, if_neg hres]
      exact tallies_some h _
    rw [if_pos hres, if_pos hres]
    cases hv : victim (t.s.withLru l) keep with
    | none => exact tallies_some h _
    | some v =>
      dsimp only
      rcases tallies_spill (E := E) h v with ⟨h1, h2⟩ | ⟨rc, t₁, s₁, h1, h2, l₁, h3, rfl⟩
      · rw [h1, h2]
        exact Or.inl ⟨rfl, rfl⟩
      have hl₁ : l₁.length ≤ l.length := by
        rcases (spill_tier h2).1 with hl | hl
        · exact (congrArg List.length hl).le
        · exact (congrArg List.length hl).le.trans List.erase_sublist.length_le
      rw [h1, h2]
      dsimp only
      by_cases hrc : rc ≠ .ok
      · rw [if_pos hrc, if_pos hrc]
        exact tallies_some h3 rc
      · rw [if_neg hrc, if_neg hrc]
        exact ih h3 (by omega)

theorem tallies_tryMemory (h : t.Lists l) (hf : l.length < E.fuel) (key : CStr) (need : ℕ) :
    Tallies (t.tryMemory E key need) (tryMemory E (t.s.withLru l) key need) := by
  unfold LruStore.tryMemory tryMemory
  rw [show (t.s.withLru l).recAt key = t.s.recAt key from rfl]
  dsimp only
  by_cases htry : t.s.o.memoryBudget ≠ 0 ∧ (t.s.recAt key).ext = none ∧ need ≤ t.s.o.memoryBudget
  case neg =>
    rw [if_neg htry, if_neg htry]
    exact tallies_some h _
  rw [if_pos htry, if_pos htry]
  generalize (if (t.s.recAt key).mem.isSome = true then (t.s.recAt key).memCap else 0) = hold
  have hev : Tallies
      (if add64 (sub64 t.s.resident hold) need > t.s.o.memoryBudget then
        t.lsEvictTo E E.fuel (add64 (sub64 t.s.o.memoryBudget need) hold) (some key) else some (Rc.ok, t))
      (if add64 (sub64 t.s.resident hold) need > t.s.o.memoryBudget then
        lsEvictTo E E.fuel (t.s.withLru l) (add64 (sub64 t.s.o.memoryBudget need) hold) (some key)
        else some (Rc.ok, t.s.withLru l)) := by
    split_ifs
    · exact tallies_evictTo _ h hf _ _
    · exact tallies_some h _
  rcases hev with ⟨h1, h2⟩ | ⟨rc, t₁, s₁, h1, h2, l₁, h3, rfl⟩
  · rw [h1, h2]
    exact Or.inl ⟨rfl, rfl⟩
  rw [h1, h2]
  dsimp only
  by_cases hfits : add64 (sub64 t₁.s.resident hold) need ≤ t.s.o.memoryBudget
  case neg =>
    rw [if_neg hfits, if_neg hfits]
    exact tallies_some h3 _
  rw [if_pos hfits, if_pos hfits]
  rcases Os.realloc t₁.s.os (sub64 t₁.s.resident hold) need with ⟨_ | moved, os⟩
  · exact tallies_some (h3.set { t₁.s with os }) _
  · exact Or.inr ⟨_, _, _, rfl, rfl, mirrors_growBuffer (h3.set { t₁.s with os }) key _ hold need⟩

theorem tallies_ensureCap (h : t.Lists l) (hf : l.length < E.fuel) (key : CStr) (need : ℕ) :
    Tallies (t.ensureCap E key need) (ensureCap E (t.s.withLru l) key need) := by
  unfold LruStore.ensureCap ensureCap
  rw [show (t.s.withLru l).recAt key = t.s.recAt key from rfl]
  dsimp only
  by_cases hmem : need ≤ (t.s.recAt key).memCap ∧ (t.s.recAt key).mem.isSome = true
  · rw [if_pos hmem, if_pos hmem]
    exact tallies_some h _
  rw [if_neg hmem, if_neg hmem]
  by_cases hext : (t.s.recAt key).extTotal ≥ need ∧ (t.s.recAt key).mem = none
  · rw [if_pos hext, if_pos hext]
    exact tallies_some h _
  rw [if_neg hext, if_neg hext]
  rcases tallies_tryMemory (E := E) h hf key need with ⟨h1, h2⟩ | ⟨b, t₁, s₁, h1, h2, l₁, h3, rfl⟩
  · rw [h1, h2]
    exact Or.inl ⟨rfl, rfl⟩
  rw [h1, h2]
  cases b with
  | true => exact tallies_some h3 _
  | false =>
    dsimp only
    rcases tallies_spill (E := E) h3 key with ⟨h1, h2⟩ | ⟨rc, t₂, s₂, h1, h2, l₂, h4, rfl⟩
    · rw [h1, h2]
      exact Or.inl ⟨rfl, rfl⟩
    rw [h1, h2]
    dsimp only
    by_cases hrc : rc ≠ .ok
    · rw [if_pos hrc, if_pos hrc]
      exact tallies_some h4 _
    rw [if_neg hrc, if_neg hrc, (frames_ensureExtents E.fuel key need).withLru t₂.s l₂]
    rcases ensureExtents E E.fuel t₂.s key need with _ | ⟨rc', s₃⟩
    · exact Or.inl ⟨rfl, rfl⟩
    · exact tallies_some (h4.set s₃) _

theorem tallies_makeRoom (h : t.Lists l) (hf : l.length < E.fuel) (key : CStr) (fin : ℕ) :
    Tallies (t.makeRoom E key fin) (makeRoom E (t.s.withLru l) key fin) := by
  unfold LruStore.makeRoom makeRoom
  rw [lsTocFindOrInsert_withLru t.s l key]
  rcases tallies_ensureCap (E := E) (h.set (lsTocFindOrInsert t.s key)) hf key fin with
    ⟨h1, h2⟩ | ⟨rc, t₁, s₁, h1, h2, l₁, h3, rfl⟩
  · rw [h1, h2]
    exact Or.inl ⟨rfl, rfl⟩
  rw [h1, h2]
  dsimp only
  by_cases hrc : rc ≠ .ok
  · rw [if_pos hrc, if_pos hrc]
    exact tallies_some h3 _
  · rw [if_neg hrc, if_neg hrc]
    exact tallies_some (h3.set (t₁.s.setRec key _)) _

/-! ### The count of resident bytes -/

theorem evictTo_tier {fuel budget : ℕ} {keep : Option CStr} {s s' : Store σ} {rc : Rc}
    (h : lsEvictTo E fuel s budget keep = some (rc, s')) :
    s'.resident ≤ s.resident ∧ s'.memNext = s.memNext := by
  induction fuel generalizing s with
  | zero => cases h
  | succ fuel ih =>
    rw [lsEvictTo] at h
    by_cases hres : s.resident > budget
    case neg =>
      rw [if_neg hres] at h
      cases h
      exact ⟨Nat.le_refl _, rfl⟩
    rw [if_pos hres] at h
    cases hv : victim s keep with
    | none =>
      rw [hv] at h
      cases h
      exact ⟨Nat.le_refl _, rfl⟩
    | some v =>
      rw [hv] at h
      dsimp only at h
      rcases hsp : spill E s v with _ | ⟨rc₁, s₁⟩
      · rw [hsp] at h
        cases h
      obtain ⟨-, h1, h2⟩ := spill_tier hsp
      rw [hsp] at h
      dsimp only at h
      by_cases hrc : rc₁ ≠ .ok
      · rw [if_pos hrc] at h
        cases h
        exact ⟨h1, h2⟩
      · rw [if_neg hrc] at h
        obtain ⟨h3, h4⟩ := ih h
        exact ⟨h3.trans h1, h4.trans h2⟩

/-- A function leaves the tier within its budget if it was there, and the buffers it knows. -/
def TierBound (s s' : Store σ) : Prop :=
  s'.resident ≤ max s.resident s.o.memoryBudget ∧ s.memNext ≤ s'.memNext

omit [Os σ] in
theorem tierBound_of_le {s s' : Store σ} (h1 : s'.resident ≤ s.resident) (h2 : s'.memNext = s.memNext) :
    TierBound s s' := ⟨h1.trans (Nat.le_max_left _ _), h2.ge⟩

theorem tryMemory_bound {need : ℕ} {b : Bool} {s s' : Store σ}
    (h : tryMemory E s key need = some (b, s')) : TierBound s s' := by
  unfold tryMemory at h
  dsimp only at h
  by_cases htry : s.o.memoryBudget ≠ 0 ∧ (s.recAt key).ext = none ∧ need ≤ s.o.memoryBudget
  case neg =>
    rw [if_neg htry] at h
    cases h
    exact tierBound_of_le (Nat.le_refl _) rfl
  rw [if_pos htry] at h
  generalize (if (s.recAt key).mem.isSome = true then (s.recAt key).memCap else 0) = hold at h
  rcases hev : (if add64 (sub64 s.resident hold) need > s.o.memoryBudget then
    lsEvictTo E E.fuel s (add64 (sub64 s.o.memoryBudget need) hold) (some key)
    else some (Rc.ok, s)) with _ | ⟨rc, s₁⟩
  · rw [hev] at h
    cases h
  have hle : s₁.resident ≤ s.resident ∧ s₁.memNext = s.memNext := by
    split_ifs at hev
    · exact evictTo_tier hev
    · cases hev
      exact ⟨Nat.le_refl _, rfl⟩
  rw [hev] at h
  dsimp only at h
  by_cases hfits : add64 (sub64 s₁.resident hold) need ≤ s.o.memoryBudget
  case neg =>
    rw [if_neg hfits] at h
    cases h
    exact tierBound_of_le hle.1 hle.2
  rw [if_pos hfits] at h
  rcases hre : Os.realloc s₁.os (sub64 s₁.resident hold) need with ⟨_ | moved, os⟩
  · rw [hre] at h
    cases h
    exact tierBound_of_le hle.1 hle.2
  · rw [hre] at h
    cases h
    refine ⟨?_, ?_⟩
    · have hres : (growBuffer { s₁ with os } key (if moved = true then s₁.memNext else
          (s.recAt key).mem.getD s₁.memNext) hold need).resident = add64 (sub64 s₁.resident hold) need := by
        unfold growBuffer lsLruTouch
        dsimp only
        split_ifs <;> rfl
      rw [hres]
      exact hfits.trans (Nat.le_max_right _ _)
    · have hnext : s₁.memNext ≤ (growBuffer { s₁ with os } key (if moved = true then s₁.memNext else
          (s.recAt key).mem.getD s₁.memNext) hold need).memNext := by
        unfold growBuffer lsLruTouch
        dsimp only
        split_ifs <;> exact Nat.le_max_left _ _
      rw [← hle.2]
      exact hnext

theorem ensureCap_bound {need : ℕ} {rc : Rc} {s s' : Store σ}
    (h : ensureCap E s key need = some (rc, s')) : TierBound s s' := by
  unfold ensureCap at h
  dsimp only at h
  split_ifs at h
  · cases h
    exact tierBound_of_le (Nat.le_refl _) rfl
  · cases h
    exact tierBound_of_le (Nat.le_refl _) rfl
  rcases htry : tryMemory E s key need with _ | ⟨b, s₁⟩
  · rw [htry] at h
    cases h
  have h1 := tryMemory_bound htry
  rw [htry] at h
  cases b with
  | true =>
    cases h
    exact h1
  | false =>
    dsimp only at h
    rcases hsp : spill E s₁ key with _ | ⟨rc₁, s₂⟩
    · rw [hsp] at h
      cases h
    obtain ⟨-, h2, h3⟩ := spill_tier hsp
    have h4 : TierBound s s₂ := ⟨h2.trans h1.1, h1.2.trans h3.ge⟩
    rw [hsp] at h
    dsimp only at h
    split_ifs at h
    · cases h
      exact h4
    · obtain ⟨-, h5, h6⟩ := (frames_ensureExtents E.fuel key need).same h
      exact ⟨h5.le.trans h4.1, h4.2.trans h6.ge⟩

theorem makeRoom_bound {fin : ℕ} {rc : Rc} {s s' : Store σ}
    (h : makeRoom E s key fin = some (rc, s')) : TierBound s s' := by
  unfold makeRoom at h
  rcases hcap : ensureCap E (lsTocFindOrInsert s key) key fin with _ | ⟨rc₁, s₁⟩
  · rw [hcap] at h
    cases h
  have h1 : TierBound s s₁ := by
    have := ensureCap_bound hcap
    unfold lsTocFindOrInsert at this
    cases hk : s.find key <;> rw [hk] at this <;> exact this
  rw [hcap] at h
  dsimp only at h
  split_ifs at h
  · cases h
    exact h1
  · cases h
    exact h1

end Mirrors

end Libspill
