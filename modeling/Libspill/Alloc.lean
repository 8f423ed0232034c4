import Libspill.RawIo

set_option autoImplicit false

/-!
# The extent allocator

`alloc.c`: best fit, the largest hole, the tail, and the free list with immediate coalescing. The
free list is an ascending list; what the source does with an index and a `memmove` is done here
with the part of the list before and the part after it.
-/

namespace Libspill

/-- The next multiple of `LS_ALIGN`. -/
def roundUp (n : ℕ) : ℕ := add64 n (LS_ALIGN - 1) / LS_ALIGN * LS_ALIGN

/-- The left merge of `fl_insert`: the holes before, and the hole that `[foff, foff + len)` becomes. -/
def mergeLeft (pre : List Hole) (foff len : ℕ) : List Hole × Hole :=
  match pre.getLast? with
  | none => (pre, ⟨foff, len⟩)
  | some h => if add64 h.foff h.len = foff then (pre.dropLast, ⟨h.foff, add64 h.len len⟩)
      else (pre, ⟨foff, len⟩)

/-- The right merge of `fl_insert`. -/
def mergeRight (cur : Hole) : List Hole → List Hole
  | [] => [cur]
  | h :: post => if add64 cur.foff cur.len = h.foff then ⟨cur.foff, add64 cur.len h.len⟩ :: post
      else cur :: h :: post

/-- A hole running to the end of the file is not a hole, it is the end: the second component is the
length to truncate the file to. -/
def giveBack (fl : List Hole) (fileEnd : ℕ) : Alloc × Option ℕ :=
  match fl.getLast? with
  | none => (⟨fl, fileEnd⟩, none)
  | some h => if add64 h.foff h.len = fileEnd then (⟨fl.dropLast, h.foff⟩, some h.foff)
      else (⟨fl, fileEnd⟩, none)

/-- `fl_insert`: put `[foff, foff + len)` on the free list, coalescing with either neighbour. -/
def flInsert (a : Alloc) (foff len : ℕ) : Alloc × Option ℕ :=
  if len = 0 then (a, none)
  else
    let m := mergeLeft (a.fl.takeWhile fun h => h.foff < foff) foff len
    giveBack (m.1 ++ mergeRight m.2 (a.fl.dropWhile fun h => h.foff < foff)) a.fileEnd

/-- Entry `i` of the free list. -/
def holeAt (fl : List Hole) (i : ℕ) : Hole := fl.getD i ⟨0, 0⟩

/-- The index of the smallest hole that covers `need`. -/
def bestFit (fl : List Hole) (need : ℕ) : Option ℕ :=
  (List.range fl.length).foldl (fun best i =>
    if (holeAt fl i).len ≥ need ∧ best.all (fun b => (holeAt fl i).len < (holeAt fl b).len) then some i
    else best) none

/-- The index of the largest hole. -/
def biggest (fl : List Hole) : Option ℕ :=
  (List.range fl.length).foldl (fun big i =>
    if big.all (fun b => (holeAt fl i).len > (holeAt fl b).len) then some i else big) none

/-- `ls_alloc_best`: the smallest hole that covers `need`, split to size. -/
def lsAllocBest (a : Alloc) (need : ℕ) : Option (Extent × Alloc) :=
  let need := roundUp need
  if need = 0 then none
  else
    match bestFit a.fl need with
    | none => none
    | some i =>
      let h := holeAt a.fl i
      some (⟨h.foff, need⟩, { a with fl :=
        if h.len = need then a.fl.eraseIdx i else a.fl.set i ⟨h.foff + need, h.len - need⟩ })

/-- `ls_alloc_largest`: the largest hole, taken whole, if it is worth having. -/
def lsAllocLargest (a : Alloc) (least : ℕ) : Option (Extent × Alloc) :=
  match biggest a.fl with
  | none => none
  | some i =>
    if (holeAt a.fl i).len ≥ roundUp least then
      some (holeAt a.fl i, { a with fl := a.fl.eraseIdx i })
    else none

/-- `ls_alloc_tail`: fresh space past the end of the file. -/
def lsAllocTail (a : Alloc) (need : ℕ) : Extent × Alloc :=
  (⟨a.fileEnd, roundUp need⟩, { a with fileEnd := add64 a.fileEnd (roundUp need) })

/-- The least hole worth taking for `deficit` bytes. -/
def leastFor (deficit : ℕ) : ℕ := if LS_MIN_EXTENT < deficit then LS_MIN_EXTENT else deficit

/-- The choice `ensure_extents` makes for a record that has `next` extents: a hole that finishes
the job, else the largest hole worth having, else the tail. -/
def allocFor (a : Alloc) (next deficit : ℕ) : Extent × Alloc :=
  match lsAllocBest a deficit with
  | some r => r
  | none =>
    if next + 1 ≥ LS_MAX_EXTENTS then lsAllocTail a deficit
    else
      match lsAllocLargest a (leastFor deficit) with
      | some r => r
      | none => lsAllocTail a deficit

variable {σ : Type} [Os σ]

/-- `fl_insert` on a store: the file is cut when its last hole ran to its end. -/
def freeExtent (s : Store σ) (e : Extent) : Store σ :=
  match flInsert s.al e.foff e.len with
  | (al, none) => { s with al }
  | (al, some n) => { s with al, os := (Os.ftruncate s.os n).2 }

/-- `ls_free_extents`. -/
def lsFreeExtents (s : Store σ) (e : List Extent) : Store σ :=
  if s.teardown then s else e.foldl freeExtent s

end Libspill
