import Libspill.Lib.Sched
import Libspill.Processes
import Libspill.Reach

set_option autoImplicit false

/-!
# A shared layout stands still

Processes that open one kept file with `LS_SHARED`.

* `wlp_lsScatter`, `wlp_segvLoop`, `wlp_accumulate`: whatever others do to the file, the transfers of
  a record write in its extents only.
* `Stands`: the layout of a process is that of the store which was kept.
* `Api.Grows`: the calls that need a new key or a larger record. **`enter_stands`**: such a call is
  refused, and no call changes the layout.
* **`shared_layout_stands`**: the file and all layouts over a whole run.
* `shared_layout_wraps`: an extent that wraps lets a process write over the superblock.
-/

namespace Libspill

variable {σ π ι : Type} [HonestOs σ] {E : Env}

open HonestOs (file clean)

/-! ## Transfers -/

section Transfers

variable {T : Set Loc} {q : Ptr} {es : List Extent} {direct write : Bool} {addr off n : ℕ}
  {buf : List UInt8}

/-- The blocks of a range inside an aligned extent are bytes of the extent. -/
theorem has_of_reach {e : Extent} (hal : direct = true → LS_ALIGN ∣ e.foff ∧ LS_ALIGN ∣ e.len)
    {o k x : ℕ} (hk : o + k ≤ e.len) (hx : Reach direct (e.foff + o) k x) : e.Has x := by
  obtain ⟨i, -, hi⟩ := reach_middle [] [] (fun h => ⟨(hal h).1, (hal h).2, by simp⟩) hk hx
  obtain ⟨e', he', hx'⟩ := covers_of_locate hi
  rw [List.nil_append, List.mem_singleton] at he'
  exact he' ▸ hx'

/-- `ls_scatter` over the extents `post`, after `pre`. -/
theorem wlp_scatterLoop (hs : Solid direct es) (hoff : off + n ≤ total es)
    (hT : ∀ x, Covers es x → Loc.file x ∈ T) (post pre : List Extent) (hes : es = pre ++ post)
    (done : ℕ) (hpos : total pre ≤ off + done) (out : List UInt8) :
    (scatterLoop E direct addr write buf q off n post.length pre.length (total pre) done out).wlp
      (fence T q es) (fun _ _ => True) () := by
  induction post generalizing pre done out with
  | nil => trivial
  | cons e post ih =>
    have htot := hs.total_lt
    have hbound := hs.bound e (by simp [hes])
    have hal : direct = true → LS_ALIGN ∣ e.foff ∧ LS_ALIGN ∣ e.len := fun h =>
      hs.aligned h e (by simp [hes])
    have hpre : total es = total pre + e.len + total post := by
      rw [hes, total_append, total_cons, Nat.add_assoc]
    have htp : total (pre ++ [e]) = total pre + e.len := by simp
    have hes' : es = (pre ++ [e]) ++ post := by rw [hes, List.append_assoc, List.singleton_append]
    have hlen : (pre ++ [e]).length = pre.length + 1 := by simp
    simp only [Span.fin] at hbound
    rw [List.length_cons, scatterLoop]
    by_cases hlt : done < n
    swap
    · rw [if_neg hlt]
      trivial
    rw [if_pos hlt]
    refine ⟨⟨rfl, by simp [hes]⟩, fun a _ ha => ?_⟩
    obtain rfl : e = a := by
      have ha' : es[pre.length]? = some a := ha
      rw [hes, List.getElem?_append_right (Nat.le_refl _), Nat.sub_self] at ha'
      exact Option.some.inj ha'
    have h1 : add64 (total pre) e.len = total (pre ++ [e]) := by rw [add64_eq (by omega), htp]
    have h2 : add64 off done = off + done := add64_eq (by omega)
    dsimp only
    rw [h1, h2]
    by_cases hge : off + done ≥ total (pre ++ [e])
    · rw [if_pos hge]
      exact hlen ▸ ih (pre ++ [e]) hes' done hge out
    · have h3 : sub64 (off + done) (total pre) = off + done - total pre := sub64_eq hpos (by omega)
      have h4 : sub64 (total (pre ++ [e])) (off + done) = total (pre ++ [e]) - (off + done) :=
        sub64_eq (by omega) (by omega)
      have h5 : add64 e.foff (off + done - total pre) = e.foff + (off + done - total pre) :=
        add64_eq (by omega)
      rw [if_neg hge, h3, h4, h5]
      generalize hk : (if total (pre ++ [e]) - (off + done) > n - done then n - done
        else total (pre ++ [e]) - (off + done)) = k
      have hke : off + done - total pre + k ≤ e.len := by split_ifs at hk <;> omega
      have hkn : total (pre ++ [e]) ≤ off + (done + k) ∨ done + k = n := by
        split_ifs at hk <;> omega
      refine Prog.wlp_bind (Prog.wlp_mono (fun b _ _ => ?_) (wlp_rwAll (by omega) fun _ => ?_))
      · obtain ⟨rc, b⟩ := b
        dsimp only
        split_ifs
        · trivial
        · rcases hkn with hkn | hkn
          · exact hlen ▸ ih (pre ++ [e]) hes' (done + k) hkn _
          · -- all is done: the loop stops at the next extent, or at the end
            cases post with
            | nil => trivial
            | cons e' post' =>
              rw [List.length_cons, scatterLoop, if_neg (by omega)]
              trivial
      · rintro l ⟨x, hx, rfl⟩
        exact hT x ⟨e, by simp [hes], has_of_reach hal hke hx⟩

theorem wlp_lsScatter {pl : Place} (hm : pl.mem = none) (hq : pl.ext.getD 0 = q)
    (hn : pl.next = es.length) (hs : Solid direct es) (hoff : off + n ≤ total es)
    (hT : ∀ x, Covers es x → Loc.file x ∈ T) :
    (lsScatter E direct pl off n write addr buf).wlp (fence T q es) (fun _ _ => True) () := by
  subst hq
  rw [lsScatter]
  by_cases h0 : n = 0
  · rw [if_pos h0]
    trivial
  · rw [if_neg h0, hm, hn]
    exact wlp_scatterLoop hs hoff hT es [] rfl 0 (Nat.zero_le _) []

theorem wlp_segvLoop {pl : Place} (hm : pl.mem = none) (hq : pl.ext.getD 0 = q)
    (hn : pl.next = es.length) (hs : Solid direct es) {segs : List Seg}
    (hoff : ∀ g ∈ segs, g.off + g.len ≤ total es) (hT : ∀ x, Covers es x → Loc.file x ∈ T)
    (outs : List (List UInt8)) :
    (segvLoop E direct pl write segs outs).wlp (fence T q es) (fun _ _ => True) () := by
  induction segs generalizing outs with
  | nil => trivial
  | cons g segs ih =>
    rw [segvLoop]
    refine Prog.wlp_bind (Prog.wlp_mono (fun a _ _ => ?_)
      (wlp_lsScatter hm hq hn hs (hoff g (by simp)) hT))
    dsimp only
    split_ifs
    · trivial
    · exact ih (fun g' hg' => hoff g' (by simp [hg'])) _

theorem wlp_accumulateLoop {pl : Place} (hm : pl.mem = none) (hq : pl.ext.getD 0 = q)
    (hn : pl.next = es.length) (hs : Solid direct es) (hoff : off + n ≤ total es)
    (hT : ∀ x, Covers es x → Loc.file x ∈ T) (op : Reduce) (tmp fuel done : ℕ) :
    (accumulateLoop E direct pl op tmp buf off n fuel done).wlp (fence T q es) (fun _ _ => True) () := by
  have htot := hs.total_lt
  induction fuel generalizing done with
  | zero => trivial
  | succ fuel ih =>
    rw [accumulateLoop]
    by_cases hd : done < n
    swap
    · rw [if_neg hd]
      trivial
    rw [if_pos hd]
    dsimp only
    generalize hk : (if n - done < CH then n - done else CH) = k
    have hle : add64 off done + k ≤ total es := by
      rw [add64_eq (by omega)]
      split_ifs at hk <;> omega
    refine Prog.wlp_bind (Prog.wlp_mono (fun a _ _ => ?_) (wlp_lsScatter hm hq hn hs hle hT))
    obtain ⟨rc, b⟩ := a
    dsimp only
    split_ifs
    · trivial
    refine Prog.wlp_bind (Prog.wlp_mono (fun a _ _ => ?_) (wlp_lsScatter hm hq hn hs hle hT))
    obtain ⟨rc, -⟩ := a
    dsimp only
    split_ifs
    · trivial
    · exact ih _

end Transfers

/-! ## Layouts -/

/-- The layout of `t`, the store of a process, is that of the store `s` which was kept. -/
structure Stands (s t : Store σ) : Prop where
  shared : t.o.parallel = .shared
  wf : t.toc.WF
  al : t.al = s.al
  rows : ∀ k, (t.find k).map t.row = (s.find k).map s.row
  plain : ∀ k r, t.find k = some r → r.mem = none ∧ (t.exts r).length = r.next

/-- The bytes of the extents of all records. -/
def dataOf (s : Store σ) : Set Loc := {l | ∃ x, Covers s.live x ∧ l = .file x}

/-- A place that transfers of up to `n` bytes may use. -/
structure Anchored (T : Set Loc) (t : Store σ) (pl : Place) (es : List Extent) (n : ℕ) : Prop where
  mem : pl.mem = none
  next : pl.next = es.length
  solid : Solid t.direct es
  within : n ≤ total es
  inside : ∀ x, Covers es x → Loc.file x ∈ T
  arr : ∀ i e, es[i]? = some e → t.arr (pl.ext.getD 0) i = e

/-- The transfers `p` write in `T` only. -/
def Fencing {α : Type} (T : Set Loc) (t : Store σ) (p : Io α) : Prop :=
  ∃ q es, p.wlp (fence T q es) (fun _ _ => True) () ∧ ∀ i e, es[i]? = some e → t.arr q i = e

section Layouts

variable {s t : Store σ} {key : CStr} {r : Rec}

omit [HonestOs σ] in
theorem Stands.record (h : Stands s t) (hk : t.find key = some r) :
    ∃ r₁, s.find key = some r₁ ∧ r₁.size = r.size ∧ s.exts r₁ = t.exts r ∧ r₁.extTotal = r.extTotal := by
  have hrow := h.rows key
  rw [hk, Option.map_some] at hrow
  obtain ⟨r₁, h1, h2⟩ := Option.map_eq_some_iff.mp hrow.symm
  simp only [Store.row, Row.mk.injEq] at h2
  exact ⟨r₁, h1, h2.2.1, h2.2.2.2.1, h2.2.2.2.2⟩

omit [HonestOs σ] in
/-- A change of `busy` alone. -/
theorem Stands.setRec (h : Stands s t) (key : CStr) {f : Rec → Rec}
    (hf : ∀ r, t.find key = some r → ∃ n, f r = { r with busy := n }) : Stands s (t.setRec key f) := by
  cases hk : t.find key with
  | none =>
    rw [Store.setRec, Chained.update_of_none hk]
    exact h
  | some r =>
    obtain ⟨n, hn⟩ := hf r hk
    have hkey : (f r).key = r.key := by rw [hn]
    have hfind := find_setRec h.wf hk hkey
    refine ⟨h.shared, wf_setRec h.wf hk hkey, h.al, fun k => ?_, fun k r' hr' => ?_⟩
    · rw [hfind]
      split_ifs with hkk
      · subst hkk
        rw [← h.rows key, hk, hn]
        rfl
      · exact h.rows k
    · rw [hfind] at hr'
      split_ifs at hr' with hkk
      · subst hkk
        cases hr'
        rw [hn]
        exact h.plain key r hk
      · exact h.plain k r' hr'

/-- Taking the place of a record. -/
theorem Stands.pin (hc : Closable s) (h : Stands s t) (hk : t.find key = some r) :
    Stands s (pin t key).2 ∧ (pin t key).2 = t.setRec key (fun r => { r with busy := r.busy + 1 }) ∧
      Anchored (dataOf s) (Libspill.pin t key).2 (Libspill.pin t key).1 (t.exts r) r.size := by
  obtain ⟨h1, h2⟩ := h.plain key r hk
  obtain ⟨r₁, g1, g2, g3, -⟩ := h.record hk
  have hsub := exts_subset_live hc.sound.laid.records.wf g1
  have hrec : (t.setRec key fun r => { r with busy := r.busy + 1 }).recAt key =
      { r with busy := r.busy + 1 } := by
    refine recAt_of_find ?_
    rw [find_setRec h.wf hk rfl, if_pos rfl]
  have hpin : Libspill.pin t key = (lsPlaceOf r, t.setRec key fun r => { r with busy := r.busy + 1 }) := by
    rw [Libspill.pin, recAt_of_find hk, h1, if_neg (by decide), hrec]
    rfl
  have hhold := holds_of_find hc.sound g1 (Nat.zero_add r₁.size).le
    (fun e he => (hc.sound.laid.tiled.live_bounds (hsub he)).2) t.direct
  have htot := hhold.within (hc.spilt key r₁ g1)
  rw [Nat.zero_add, g2, g3] at htot
  rw [hpin]
  refine ⟨h.setRec key fun r _ => ⟨_, rfl⟩, rfl, h1, h2.symm, g3 ▸ hhold.solid, htot, ?_,
    fun i e he => ?_⟩
  · rintro x ⟨e, he, hx⟩
    exact ⟨x, ⟨e, hsub (g3 ▸ he), hx⟩, rfl⟩
  · cases hq : r.ext with
    | none =>
      rw [Store.exts, hq] at he
      cases he
    | some q =>
      have hi := (List.getElem?_eq_some_iff.mp he).1
      rw [h2] at hi
      rw [getElem?_exts hq hi] at he
      rw [lsPlaceOf, hq]
      exact Option.some.inj he

/-- Room that is there already. -/
theorem Stands.makeRoom (hc : Closable s) (h : Stands s t) (hk : t.find key = some r) {fin : ℕ}
    (hfin : fin ≤ r.size) : ∃ t' r', makeRoom E t key fin = some (.ok, t') ∧ Stands s t' ∧
      t'.find key = some r' ∧ r'.size = r.size ∧ t'.os = t.os ∧ t'.arr = t.arr ∧
      t'.direct = t.direct := by
  obtain ⟨h1, -⟩ := h.plain key r hk
  obtain ⟨r₁, g1, g2, -, g4⟩ := h.record hk
  have hle : fin ≤ r.extTotal := by
    have := ((hc.sound.laid.records.ok _ _ g1).noMem (hc.spilt key r₁ g1)).2
    omega
  have hfind : lsTocFindOrInsert t key = t := by rw [lsTocFindOrInsert, hk]
  have hsame : (if fin > r.size then fin else r.size) = r.size := if_neg (by omega)
  refine ⟨t.setRec key fun r => { r with size := if fin > r.size then fin else r.size },
    { r with size := if fin > r.size then fin else r.size }, ?_, h.setRec key fun q hq => ?_, ?_, hsame,
    rfl, rfl, rfl⟩
  · rw [Libspill.makeRoom, hfind, ensureCap, recAt_of_find hk, h1, if_neg (by simp), if_pos ⟨hle, rfl⟩]
    rfl
  · rw [hk] at hq
    cases hq
    exact ⟨r.busy, by rw [hsame]⟩
  · rw [find_setRec h.wf hk rfl, if_pos rfl]

end Layouts

/-! ## Calls -/

/-- There is no record under the key that reaches `fin`. -/
def Short (s : Store σ) (key : CStr) (fin : ℕ) : Prop := ∀ r, s.find key = some r → r.size < fin

/-- The call needs a new key or a larger record than the layout of `s` has. -/
def Api.Grows (s : Store σ) : Api → Prop
  | .plain (.write key off buf _) =>
      lsKeyOk key = true ∧ off + buf.length < 2 ^ 64 ∧ Short s key (off + buf.length)
  | .plain (.append key buf _) => lsKeyOk key = true ∧ (s.find key = none ∨ buf ≠ [])
  | .plain (.reserve key nbytes) => lsKeyOk key = true ∧ Short s key nbytes
  | .plain (.setAttr key blob) =>
      lsKeyOk key = true ∧ blob.length ≤ LS_ATTR_MAX ∧ s.find key = none
  | .vectored key segs true =>
      lsKeyOk key = true ∧ segs ≠ [] ∧ (∀ g ∈ segs, g.error = none) ∧
        Short s key (Entry.top (segWrites segs))
  | .accumulate key off buf (some _) _ =>
      lsKeyOk key = true ∧ buf ≠ [] ∧ off + buf.length < 2 ^ 64 ∧ Short s key (off + buf.length)
  | _ => False

/-- The arguments are 64-bit numbers. -/
def Api.Args64 : Api → Prop
  | .plain (.write _ off buf _) => off < 2 ^ 64 ∧ buf.length < 2 ^ 64
  | .plain (.read _ off n _) => off < 2 ^ 64 ∧ n < 2 ^ 64
  | .vectored _ segs _ => Segs64 segs
  | .accumulate _ off buf _ _ => off < 2 ^ 64 ∧ buf.length < 2 ^ 64
  | _ => True

/-- What the first critical section of a call does to a store whose layout is that of `s`. -/
structure Begins (s t t' : Store σ) (b : Begun) : Prop where
  stands : Stands s t'
  os : t'.os = t.os
  arr : t'.arr = t.arr
  going : ∀ key p, b = .going key p → Fencing (dataOf s) t' p

section Enter

variable {s t t' : Store σ} {key : CStr} {r : Rec} {b : Begun}

omit [HonestOs σ] in
theorem frozen_iff_short (h : Stands s t) (key : CStr) (fin : ℕ) :
    frozen t key fin = true ↔ Short s key fin := by
  rw [frozen, h.shared, decide_eq_true rfl, Bool.true_and, Bool.or_eq_true, decide_eq_true_iff]
  cases hk : t.find key with
  | none =>
    have hrow := h.rows key
    rw [hk, Option.map_none] at hrow
    refine ⟨fun _ r hr => ?_, fun _ => Or.inl rfl⟩
    rw [hr] at hrow
    cases hrow
  | some r =>
    obtain ⟨r₁, h1, h2, -⟩ := h.record hk
    rw [recAt_of_find hk]
    refine ⟨fun hor q hq => ?_, fun hs => Or.inr ?_⟩
    · rw [h1] at hq
      cases hq
      have := hor.resolve_left (by simp)
      omega
    · have := hs r₁ h1
      omega

/-- What a look-up under the lock leaves: the layout, and a place for up to `n` bytes if it is not an
error. -/
structure Looked (s t : Store σ) (n : ℕ) (x : Except Rc Place) (t' : Store σ) : Prop where
  stands : Stands s t'
  os : t'.os = t.os
  arr : t'.arr = t.arr
  place : ∀ pl, x = .ok pl → ∃ es, Anchored (dataOf s) t' pl es n

omit [HonestOs σ] in
theorem looked_error (h : Stands s t) (n : ℕ) (rc : Rc) : Looked s t n (.error rc) t :=
  ⟨h, rfl, rfl, fun _ hp => (by cases hp)⟩

theorem looked_pin (hc : Closable s) {u : Store σ} (hu : Stands s u) (hos : u.os = t.os)
    (harr : u.arr = t.arr) (hk : u.find key = some r) {n : ℕ} (hn : n ≤ r.size) :
    Looked s t n (.ok (pin u key).1) (pin u key).2 := by
  obtain ⟨h1, h2, h3⟩ := hu.pin hc hk
  refine ⟨h1, by rw [h2]; exact hos, by rw [h2]; exact harr, fun pl hpl => ?_⟩
  cases hpl
  exact ⟨_, h3.mem, h3.next, h3.solid, hn.trans h3.within, h3.inside, h3.arr⟩

/-- A write that is not refused has room. -/
theorem stands_room (hc : Closable s) (h : Stands s t) {fin : ℕ} (hfz : ¬ frozen t key fin = true) :
    ∃ u r, makeRoom E t key fin = some (.ok, u) ∧ Stands s u ∧ u.find key = some r ∧ fin ≤ r.size ∧
      u.os = t.os ∧ u.arr = t.arr ∧ u.direct = t.direct := by
  rw [frozen_iff_short h, Short, not_forall] at hfz
  obtain ⟨r₁, hr₁⟩ := hfz
  rw [Classical.not_imp, Nat.not_lt] at hr₁
  have hrow := h.rows key
  rw [hr₁.1, Option.map_some] at hrow
  obtain ⟨r, hk, hr⟩ := Option.map_eq_some_iff.mp hrow
  simp only [Store.row, Row.mk.injEq] at hr
  have hle : fin ≤ r.size := by omega
  obtain ⟨u, r', h1, h2, h3, h4, h5⟩ := h.makeRoom (E := E) hc hk hle
  exact ⟨u, r', h1, h2, h3, by omega, h5⟩

/-- The first critical section of `ls_write`: it is refused, or it takes the place of a record that has
the room. -/
theorem writeBegin_stands (hc : Closable s) (h : Stands s t) (key : CStr) {off n : ℕ}
    (h1 : off < 2 ^ 64) (h2 : n < 2 ^ 64) :
    (∃ rc, writeBegin E t key off n = some (.error rc, t) ∧ rc ≠ .ok ∧
      (lsKeyOk key = true → off + n < 2 ^ 64 → Short s key (off + n) → rc = .mode)) ∨
    ∃ u r, writeBegin E t key off n = some (.ok (pin u key).1, (pin u key).2) ∧
      ¬ Short s key (off + n) ∧ Stands s u ∧ u.find key = some r ∧ off + n ≤ r.size ∧ u.os = t.os ∧
      u.arr = t.arr ∧ u.direct = t.direct := by
  have hlt := add64_lt_iff h1 h2
  rw [writeBegin]
  split_ifs with hkey hw hfz
  · exact Or.inl ⟨_, rfl, by simp, fun hk => absurd hk (by simpa using hkey)⟩
  · exact Or.inl ⟨_, rfl, by simp, fun _ hn => absurd (hlt.mp hw) (by omega)⟩
  · exact Or.inl ⟨_, rfl, by simp, fun _ _ _ => rfl⟩
  · rw [add64_eq (by omega)] at hfz ⊢
    obtain ⟨u, r, g1, g2, g3, g4, g5, g6, g7⟩ := stands_room (E := E) hc h hfz
    rw [g1]
    exact Or.inr ⟨u, r, rfl, fun hs => hfz ((frozen_iff_short h _ _).mpr hs), g2, g3, g4, g5, g6, g7⟩

theorem looked_write (hc : Closable s) (h : Stands s t) {off n : ℕ} (h1 : off < 2 ^ 64)
    (h2 : n < 2 ^ 64) {x : Except Rc Place} (hx : writeBegin E t key off n = some (x, t')) :
    Looked s t (off + n) x t' ∧
      (lsKeyOk key = true → off + n < 2 ^ 64 → Short s key (off + n) → x = .error .mode) := by
  rcases writeBegin_stands (E := E) hc h key h1 h2 with
    ⟨rc, hx', -, hrc⟩ | ⟨u, r, hx', hno, g2, g3, g4, g5, g6, -⟩
  · rw [hx'] at hx
    cases hx
    exact ⟨looked_error h _ _, fun hk hn hs => by rw [hrc hk hn hs]⟩
  · rw [hx'] at hx
    cases hx
    exact ⟨looked_pin hc g2 g5 g6 g3 g4, fun _ _ hs => absurd hs hno⟩

theorem looked_read (hc : Closable s) (h : Stands s t) {off n : ℕ} (h1 : off < 2 ^ 64)
    (h2 : n < 2 ^ 64) {x : Except Rc Place} (hx : readBegin t key off n = (x, t')) :
    Looked s t (off + n) x t' := by
  have hlt := add64_lt_iff h1 h2
  rw [readBegin] at hx
  split_ifs at hx with hkey hw hk hn
  · cases hx
    exact looked_error h _ _
  · cases hx
    exact looked_error h _ _
  · cases hx
    exact looked_error h _ _
  · cases hx
    exact looked_error h _ _
  · cases hx
    rw [Option.isNone_iff_eq_none, ← ne_eq, Option.ne_none_iff_exists'] at hk
    obtain ⟨r, hr⟩ := hk
    rw [recAt_of_find hr, add64_eq (by omega)] at hn
    exact looked_pin hc h rfl rfl hr (Nat.le_of_not_lt hn)

theorem looked_segv (hc : Closable s) (h : Stands s t) {hi : ℕ} {write : Bool} {x : Except Rc Place}
    (hx : segvBegin E t key hi write = some (x, t')) :
    Looked s t hi x t' ∧ (write = true → Short s key hi → x = .error .mode) := by
  cases write with
  | true =>
    rw [segvBegin, if_pos rfl] at hx
    by_cases hfz : frozen t key hi = true
    · rw [if_pos hfz] at hx
      cases hx
      exact ⟨looked_error h _ _, fun _ _ => rfl⟩
    · obtain ⟨u, r, g1, g2, g3, g4, g5, g6, -⟩ := stands_room (E := E) hc h hfz
      rw [if_neg hfz, g1] at hx
      cases hx
      exact ⟨looked_pin hc g2 g5 g6 g3 g4, fun _ hs => absurd ((frozen_iff_short h _ _).mpr hs) hfz⟩
  | false =>
    refine ⟨?_, fun hw => (by cases hw)⟩
    rw [segvBegin, if_neg (by decide)] at hx
    split_ifs at hx with hk hn
    · cases hx
      exact looked_error h _ _
    · cases hx
      exact looked_error h _ _
    · cases hx
      rw [Option.isNone_iff_eq_none, ← ne_eq, Option.ne_none_iff_exists'] at hk
      obtain ⟨r, hr⟩ := hk
      rw [recAt_of_find hr] at hn
      exact looked_pin hc h rfl rfl hr (Nat.le_of_not_lt hn)

omit [HonestOs σ] in
theorem segvCheck_le {segs : List Seg} (h64 : Segs64 segs) {hi₀ hi : ℕ}
    (h : segvCheck segs hi₀ = .ok hi) : hi₀ ≤ hi ∧ ∀ g ∈ segs, g.off + g.len ≤ hi := by
  induction segs generalizing hi₀ with
  | nil =>
    cases h
    exact ⟨Nat.le_refl _, fun g hg => (by cases hg)⟩
  | cons g segs ih =>
    obtain ⟨h1, h2⟩ := h64 g List.mem_cons_self
    have hlt := add64_lt_iff h1 h2
    rw [segvCheck] at h
    by_cases h3 : (decide (g.len ≠ 0) && g.buf.isNone) = true
    · rw [if_pos h3] at h
      cases h
    by_cases h4 : add64 g.off g.len < g.off
    · rw [if_neg h3, if_pos h4] at h
      cases h
    rw [if_neg h3, if_neg h4, add64_eq (by omega)] at h
    obtain ⟨h6, h7⟩ := ih (fun g' hg' => h64 g' (List.mem_cons_of_mem _ hg')) h
    have h8 : hi₀ ≤ hi ∧ g.off + g.len ≤ hi := by split_ifs at h6 <;> omega
    refine ⟨h8.1, fun g' hg' => ?_⟩
    rcases List.mem_cons.mp hg' with rfl | hg'
    · exact h8.2
    · exact h7 g' hg'

omit [HonestOs σ] in
/-- Nothing but an answer. -/
theorem begins_done (h : Stands s t) (ans : Answer) : Begins s t t (.done ans) :=
  ⟨h, rfl, rfl, fun _ _ hb => (by cases hb)⟩

omit [HonestOs σ] in
theorem Looked.done {n : ℕ} {rc : Rc} (h : Looked s t n (.error rc) t') (ans : Answer) :
    Begins s t t' (.done ans) := ⟨h.stands, h.os, h.arr, fun _ _ hb => (by cases hb)⟩

omit [HonestOs σ] in
/-- The place of a record is taken and the transfers `p` begin. -/
theorem Looked.going {n : ℕ} {pl : Place} (h : Looked s t n (.ok pl) t') {p : Io Answer}
    (hp : ∀ es, Anchored (dataOf s) t' pl es n →
      p.wlp (fence (dataOf s) (pl.ext.getD 0) es) (fun _ _ => True) ()) :
    Begins s t t' (.going key p) := by
  refine ⟨h.stands, h.os, h.arr, fun k q hq => ?_⟩
  cases hq
  obtain ⟨es, hes⟩ := h.place pl rfl
  exact ⟨_, es, hp es hes, hes.arr⟩

omit [HonestOs σ] in
/-- A transfer of a plain call. -/
theorem Looked.xfer {off n addr : ℕ} {buf : List UInt8} {write : Bool} {pl : Place}
    (h : Looked s t (off + n) (.ok pl) t') (f : Rc × List UInt8 → Out) :
    Begins s t t' (.going key ((lsScatter E t'.direct pl off n write addr buf >>= fun a => .ret (f a)) >>=
      fun out => .ret (.plain out))) := by
  refine h.going fun es hes => Prog.wlp_bind (Prog.wlp_bind (Prog.wlp_mono (fun _ _ _ => trivial)
    (wlp_lsScatter hes.mem rfl hes.next hes.solid hes.within hes.inside)))

theorem begins_plain (hc : Closable s) (h : Stands s t) {op : Op} (h64 : (Api.plain op).Args64)
    (he : (Api.plain op).enter E t = some (b, t')) :
    Begins s t t' b ∧ ((Api.plain op).Grows s → ∃ ans, b = .done ans ∧ ans.rc = .mode) := by
  rw [Api.enter] at he
  cases op with
  | write key off buf addr =>
    rw [Op.enter] at he
    cases hx : writeBegin E t key off buf.length with
    | none =>
      rw [hx] at he
      cases he
    | some q =>
      obtain ⟨x, u⟩ := q
      obtain ⟨h1, h2⟩ := looked_write hc h h64.1 h64.2 hx
      rw [hx] at he
      cases x with
      | error rc =>
        cases he
        refine ⟨h1.done _, fun hg => ⟨_, rfl, ?_⟩⟩
        have := h2 hg.1 hg.2.1 hg.2.2
        cases this
        rfl
      | ok pl =>
        cases he
        refine ⟨h1.xfer _, fun hg => ?_⟩
        have := h2 hg.1 hg.2.1 hg.2.2
        cases this
  | read key off n addr =>
    rw [Op.enter] at he
    cases hx : readBegin t key off n with
    | mk x u =>
      have h1 := looked_read hc h h64.1 h64.2 hx
      rw [hx] at he
      cases x with
      | error rc =>
        cases he
        exact ⟨h1.done _, fun hg => hg.elim⟩
      | ok pl =>
        cases he
        exact ⟨h1.xfer _, fun hg => hg.elim⟩
  | append key buf addr =>
    rw [Op.enter, appendBegin, h.shared] at he
    by_cases hkey : lsKeyOk key = true
    · rw [if_neg (by simp [hkey]), if_pos rfl] at he
      cases he
      exact ⟨begins_done h _, fun _ => ⟨_, rfl, rfl⟩⟩
    · rw [if_pos (by simp [hkey])] at he
      cases he
      exact ⟨begins_done h _, fun hg => absurd hg.1 hkey⟩
  | reserve key nbytes =>
    rw [Op.enter, lsReserve, h.shared] at he
    by_cases hkey : lsKeyOk key = true
    · rw [if_neg (by simp [hkey]), if_pos rfl] at he
      cases he
      exact ⟨begins_done h _, fun _ => ⟨_, rfl, rfl⟩⟩
    · rw [if_pos (by simp [hkey])] at he
      cases he
      exact ⟨begins_done h _, fun hg => absurd hg.1 hkey⟩
  | erase key =>
    rw [Op.enter, lsErase, h.shared] at he
    by_cases hkey : lsKeyOk key = true
    · rw [if_neg (by simp [hkey]), if_pos rfl] at he
      cases he
      exact ⟨begins_done h _, fun hg => hg.elim⟩
    · rw [if_pos (by simp [hkey])] at he
      cases he
      exact ⟨begins_done h _, fun hg => hg.elim⟩
  | setAttr key blob =>
    rw [Op.enter, lsSetAttr, h.shared] at he
    by_cases hkey : lsKeyOk key = true
    · by_cases hb : blob.length > LS_ATTR_MAX
      · rw [if_neg (by simp [hkey]), if_pos hb] at he
        cases he
        exact ⟨begins_done h _, fun hg => absurd hg.2.1 (Nat.not_le.mpr hb)⟩
      · rw [if_neg (by simp [hkey]), if_neg hb, if_pos rfl] at he
        cases he
        exact ⟨begins_done h _, fun _ => ⟨_, rfl, rfl⟩⟩
    · rw [if_pos (by simp [hkey])] at he
      cases he
      exact ⟨begins_done h _, fun hg => absurd hg.1 hkey⟩
  | _ =>
    cases he
    exact ⟨begins_done h _, fun hg => hg.elim⟩

theorem begins_vectored (hc : Closable s) (h : Stands s t) {segs : List Seg} {write : Bool}
    (h64 : Segs64 segs) (he : segvEnter E t key segs write = some (b, t')) :
    Begins s t t' b ∧
      ((Api.vectored key segs write).Grows s → ∃ ans, b = .done ans ∧ ans.rc = .mode) := by
  have hno : write = false → ¬ (Api.vectored key segs write).Grows s := by
    rintro rfl hg
    exact hg
  rw [segvEnter] at he
  by_cases hkey : lsKeyOk key = true
  swap
  · rw [if_pos (by simp [hkey])] at he
    cases he
    refine ⟨begins_done h _, fun hg => ?_⟩
    cases write with
    | false => exact absurd hg (hno rfl)
    | true => exact absurd hg.1 hkey
  by_cases hne : segs = []
  · rw [if_neg (by simp [hkey]), hne, List.isEmpty_nil, if_pos rfl] at he
    cases he
    refine ⟨begins_done h _, fun hg => ?_⟩
    cases write with
    | false => exact absurd hg (hno rfl)
    | true => exact absurd hne hg.2.1
  rw [if_neg (by simp [hkey]), if_neg (by simpa using hne)] at he
  cases hcheck : segvCheck segs 0 with
  | error rc =>
    rw [hcheck] at he
    cases he
    refine ⟨begins_done h _, fun hg => ?_⟩
    cases write with
    | false => exact absurd hg (hno rfl)
    | true =>
      rw [segvCheck_ok hg.2.2.1] at hcheck
      cases hcheck
  | ok hi =>
    rw [hcheck] at he
    dsimp only at he
    have hends := (segvCheck_le h64 hcheck).2
    cases hx : segvBegin E t key hi write with
    | none =>
      rw [hx] at he
      cases he
    | some q =>
      obtain ⟨x, u⟩ := q
      obtain ⟨h1, h2⟩ := looked_segv hc h hx
      have hmode : (Api.vectored key segs write).Grows s → x = .error .mode := by
        intro hg
        cases write with
        | false => exact absurd hg (hno rfl)
        | true =>
          refine h2 rfl ?_
          rw [segvCheck_ok hg.2.2.1, Nat.max_eq_right (Nat.zero_le _)] at hcheck
          cases hcheck
          exact hg.2.2.2
      rw [hx] at he
      cases x with
      | error rc =>
        cases he
        refine ⟨h1.done _, fun hg => ⟨_, rfl, ?_⟩⟩
        have := hmode hg
        cases this
        rfl
      | ok pl =>
        cases he
        refine ⟨h1.going fun es hes => Prog.wlp_bind (Prog.wlp_mono (fun _ _ _ => trivial)
          (wlp_segvLoop hes.mem rfl hes.next hes.solid (fun g hg => (hends g hg).trans hes.within)
            hes.inside _)), fun hg => ?_⟩
        have := hmode hg
        cases this

theorem begins_accumulate (hc : Closable s) (h : Stands s t) {off tmp : ℕ} {buf : List UInt8}
    {op : Option Reduce} (h1 : off < 2 ^ 64) (h2 : buf.length < 2 ^ 64)
    (he : accumulateEnter E t key off buf op tmp = some (b, t')) :
    Begins s t t' b ∧
      ((Api.accumulate key off buf op tmp).Grows s → ∃ ans, b = .done ans ∧ ans.rc = .mode) := by
  have hlt := add64_lt_iff h1 h2
  cases op with
  | none =>
    cases he
    exact ⟨begins_done h _, fun hg => hg.elim⟩
  | some op =>
    rw [accumulateEnter] at he
    split_ifs at he with hkey hmode hw h0 hfz
    · cases he
      exact ⟨begins_done h _, fun hg => absurd hg.1 (by simpa using hkey)⟩
    · cases he
      exact ⟨begins_done h _, fun _ => ⟨_, rfl, rfl⟩⟩
    · cases he
      exact ⟨begins_done h _, fun hg => absurd hg.2.2.1 (by omega)⟩
    · cases he
      exact ⟨begins_done h _, fun hg => absurd (List.eq_nil_of_length_eq_zero h0) hg.2.1⟩
    · cases he
      exact ⟨begins_done h _, fun _ => ⟨_, rfl, rfl⟩⟩
    · rw [add64_eq (by omega)] at he hfz
      obtain ⟨u, r, g1, g2, g3, g4, g5, g6, -⟩ := stands_room (E := E) hc h hfz
      rw [g1] at he
      cases he
      refine ⟨(looked_pin hc g2 g5 g6 g3 g4).going fun es hes => ?_,
        fun hg => absurd ((frozen_iff_short h _ _).mpr hg.2.2.2) hfz⟩
      have hacc : (accumulate E (pin u key).2.direct (pin u key).1 op tmp buf off).wlp
          (fence (dataOf s) ((pin u key).1.ext.getD 0) es) (fun _ _ => True) () := by
        rw [accumulate, hes.mem]
        exact wlp_accumulateLoop hes.mem rfl hes.next hes.solid hes.within hes.inside op tmp _ _
      exact Prog.wlp_bind (Prog.wlp_mono (fun _ _ _ => trivial) hacc)

/-- **No call changes the layout**, and one that would have to is refused. -/
theorem enter_stands (hc : Closable s) (h : Stands s t) {a : Api} (h64 : a.Args64)
    (he : a.enter E t = some (b, t')) :
    Begins s t t' b ∧ (a.Grows s → ∃ ans, b = .done ans ∧ ans.rc = .mode) := by
  cases a with
  | plain op => exact begins_plain hc h h64 he
  | vectored key segs write => exact begins_vectored hc h h64 he
  | accumulate key off buf op tmp => exact begins_accumulate hc h h64.1 h64.2 he

end Enter

/-! ## The file -/

/-- The file is as long as before, and outside the extents of `s` as it was. -/
structure Outside (s : Store σ) (f g : File) : Prop where
  len : g.len = f.len
  byte : ∀ x, ¬ Covers s.live x → g.byte x = f.byte x

section Files

variable {s t t' : Store σ} {f g : File} {os : σ}

omit [HonestOs σ] in
theorem Outside.refl : Outside s f f := ⟨rfl, fun _ _ => rfl⟩

omit [HonestOs σ] in
theorem Outside.trans {h : File} (h1 : Outside s f g) (h2 : Outside s g h) : Outside s f h :=
  ⟨h2.len.trans h1.len, fun x hx => (h2.byte x hx).trans (h1.byte x hx)⟩

/-- The kept store is still on the file, with the bytes that its extents have by now. -/
theorem storedIn_outside (hc : Closable s) (hf : StoredIn s f) (h : Outside s f (file os)) :
    Closable { s with os } ∧ StoredIn { s with os } (file os) := by
  have hlen := hf.len
  have hlive := hc.sound.laid.tiled
  have hlo := hlive.lo_le
  have hno : ∀ x, x < LS_SUPER_SIZE ∨ s.al.fileEnd ≤ x → ¬ Covers s.live x := by
    rintro x hx ⟨e, he, h1, h2⟩
    have hb := hlive.live_bounds (e := e) he
    simp only [Span.fin] at hb
    omega
  have hlaid : Laid [] { s with os } := hc.sound.laid.withFile hc.sound.laid.tiled
  refine ⟨⟨⟨hlaid, ?_⟩, hc.named, hc.spilt, hc.few⟩, ?_, ?_, ?_, fun x _ => rfl⟩
  · show s.al.fileEnd ≤ (file os).len
    rw [h.len]
    omega
  · refine Eq.trans (slice_congr fun i hi => h.byte _ (hno _ (Or.inl ?_))) hf.super
    omega
  · refine Eq.trans (slice_congr fun i hi => h.byte _ (hno _ (Or.inr ?_))) hf.toc
    exact Nat.le_add_right _ _
  · show s.al.fileEnd + (tocSerialise s).length ≤ (file os).len
    rw [h.len]
    exact hlen

/-- Reading the table of a kept store leaves the file as it is. -/
theorem openToc_file (hF : 2 ^ 64 ≤ E.fuel) (hc : Closable s) {u : Store σ} (htd : u.teardown = false)
    (hfl : u.al.fl = []) {fsize : ℕ} (hsize : fsize = u.flen) {r : Except (Rc × σ) (Store σ)}
    (h : openToc E u fsize (superblock s (tocSerialise s)) = some r)
    (hn : (tocSerialise s).length < 2 ^ 64)
    (hok : ∀ t, r = .ok t → Sound t ∧ t.al.fileEnd = s.al.fileEnd) :
    file (openedOs r) = file u.os ∧ (clean (openedOs r) → clean u.os) := by
  have hmax : OFF_MAX = 2 ^ 63 - 1 := rfl
  have hlen : u.flen ≤ OFF_MAX := HonestOs.len_le u.os
  have hfe := fileEnd_lt hc.sound
  have hcount := n_le_tocSerialise s hc.sound.laid.records.wf
  obtain ⟨-, h16, h24, h32, h40, h48⟩ := superblock_fields s (tocSerialise s) (by omega) (by omega)
    hn rfl
  rw [openToc] at h
  dsimp only at h
  rw [h16, h24, h32, h40, h48] at h
  generalize htl : (if (tocSerialise s).length = 0 then fsize - s.al.fileEnd
    else (tocSerialise s).length) = tlen at h
  by_cases h1 : (superblock s (tocSerialise s)).take 8 ≠ LS_MAGIC ∨
      get32 ((superblock s (tocSerialise s)).drop 8) ≠ LS_FMT_VERSION
  · rw [if_pos h1] at h
    cases h
    exact ⟨rfl, id⟩
  rw [if_neg h1] at h
  by_cases h2 : s.al.fileEnd < LS_SUPER_SIZE ∨ s.al.fileEnd > fsize
  · rw [if_pos h2] at h
    cases h
    exact ⟨rfl, id⟩
  rw [if_neg h2] at h
  by_cases h3 : tlen > fsize - s.al.fileEnd
  · rw [if_pos h3] at h
    cases h
    exact ⟨rfl, id⟩
  rw [if_neg h3] at h
  have hoff : s.al.fileEnd + tlen < 2 ^ 64 := by omega
  generalize hv : ({ u with al := ⟨u.al.fl, s.al.fileEnd⟩ } : Store σ) = v at h
  have hvos : v.os = u.os := by rw [← hv]
  obtain ⟨rc, tb, v₁, hx, hrest₁, -⟩ := exec_lsPreadAll hF v u.direct E.tbAddr hoff
    (show s.al.fileEnd + tlen ≤ (file v.os).len by rw [hvos]; rw [Store.flen] at hsize; omega)
  have hf₁ : file v₁.os = file u.os ∧ (clean v₁.os → clean u.os) := hvos ▸ exec_lsPreadAll_file hoff hx
  rw [hx] at h
  dsimp only at h
  by_cases h4 : rc ≠ .ok
  · rw [if_pos h4] at h
    cases h
    exact hf₁
  rw [if_neg h4] at h
  by_cases h5 : (crc32Of tb).toNat ≠ (crc32Of (tocSerialise s)).toNat
  · rw [if_pos h5] at h
    cases h
    exact hf₁
  rw [if_neg h5] at h
  cases hload : tocLoad s.toc.n tb v₁ with
  | error e =>
    rw [hload] at h
    cases h
    exact hf₁
  | ok v₂ =>
    have hrest₂ := tocLoad_rest hload
    have hos₂ : v₂.os = v₁.os := by rw [hrest₂]
    rw [hload] at h
    dsimp only at h
    cases hreb : rebuildFreeList v₂ with
    | error e =>
      rw [hreb] at h
      cases h
      exact hos₂ ▸ hf₁
    | ok t =>
      rw [hreb] at h
      cases h
      obtain ⟨h6, h7⟩ := hok t rfl
      have hlive : t.live = v₂.live := live_rebuildLoop hreb
      have hal : v₂.al = ⟨[], s.al.fileEnd⟩ := by
        rw [hrest₂, hrest₁, ← hv, ← hfl]
      have htd₂ : v₂.teardown = false := by
        rw [hrest₂, hrest₁, ← hv, ← htd]
      have hall : ∀ e ∈ v₂.live.insertionSort fun a b => a.foff ≤ b.foff, e.fin ≤ s.al.fileEnd := by
        intro e he
        rw [List.mem_insertionSort, ← hlive] at he
        exact h7 ▸ (h6.laid.tiled.live_bounds he).2
      have hstart : Rebuilt s.al.fileEnd [] LS_SUPER_SIZE v₂.al := by
        rw [hal]
        exact .start _
      obtain ⟨-, -, h8⟩ := rebuildLoop_spec htd₂ (by omega) hall hstart hreb
      have h9 := h8 (by rw [h7, hal])
      have hos : t.os = v₂.os := by rw [h9]
      rw [openedOs, hos, hos₂]
      exact hf₁

/-- Opening a shared store leaves the file as it is. -/
theorem lsOpen_file (hF : 2 ^ 64 ≤ E.fuel) (hc : Closable s) (hf : StoredIn s (file os)) {o : Opts}
    {r : Except (Rc × σ) (Store σ)} (h : lsOpen E o os = some r) :
    file (openedOs r) = file os ∧ (clean (openedOs r) → clean os) := by
  have hlen := hf.len
  have hlo := hc.sound.laid.tiled.lo_le
  have hmax := HonestOs.len_le os
  have hmax' : OFF_MAX = 2 ^ 63 - 1 := rfl
  cases ho : optsRefused o with
  | some rc =>
    rw [lsOpen, ho] at h
    cases h
    exact ⟨rfl, id⟩
  | none =>
  have hok : ∀ t, r = .ok t → Sound t ∧ t.al.fileEnd = s.al.fileEnd := by
    rintro t rfl
    obtain ⟨r', h1, h2⟩ := lsOpen_storedIn hF hc hf ho
    rw [h] at h1
    cases h1
    have hr := h2.reopened t rfl
    exact ⟨hr.sound, congrArg Alloc.fileEnd hr.al⟩
  rw [lsOpen, ho] at h
  dsimp only at h
  have hf₁ := HonestOs.openRw_file os o.directIo
  have hc₁ := HonestOs.openRw_clean os o.directIo
  generalize Os.openRw os o.directIo = a at hf₁ hc₁ h
  obtain ⟨e | direct, os₁⟩ := a
  · cases h
    exact ⟨hf₁, hc₁⟩
  dsimp only at hf₁ hc₁ h
  have hf₂ := HonestOs.fileSize_file os₁
  have hc₂ := HonestOs.fileSize_clean os₁
  have hs₂ := HonestOs.fileSize_ok os₁
  generalize Os.fileSize os₁ = a at hf₂ hc₂ hs₂ h
  obtain ⟨e | fsize, os₂⟩ := a
  · cases h
    exact ⟨hf₂.trans hf₁, hc₁ ∘ hc₂⟩
  dsimp only at hf₂ hc₂ h
  have hfile : file os₂ = file os := hf₂.trans hf₁
  have hsize : fsize = (file os).len := (hs₂ _ rfl).trans (congrArg File.len hf₁)
  subst hsize
  rw [if_pos (by omega)] at h
  obtain ⟨rc, sb, s₁, g1, g2, -, -, -, g6⟩ := exec_lsPreadAll hF (freshStore o direct os₂) direct
    E.sbAddr (show 0 + LS_SUPER_SIZE < 2 ^ 64 by decide)
    (show 0 + LS_SUPER_SIZE ≤ (file os₂).len by rw [hfile]; omega)
  obtain ⟨hf₃, hc₃⟩ := exec_lsPreadAll_file (by decide) g1
  replace hf₃ : file s₁.os = file os := hf₃.trans hfile
  replace hc₃ : clean s₁.os → clean os := hc₁ ∘ hc₂ ∘ hc₃
  rw [g1] at h
  dsimp only at h
  by_cases hrc : rc ≠ .ok
  · rw [if_pos hrc] at h
    cases h
    exact ⟨hf₃, hc₃⟩
  rw [if_neg hrc] at h
  rw [not_not] at hrc
  have hsb : sb = superblock s (tocSerialise s) := by
    rw [g6 hrc, ← hf.super]
    exact congrArg (fun f => slice (File.byte f) 0 LS_SUPER_SIZE) hfile
  rw [hsb] at h
  obtain ⟨h1, h2⟩ := openToc_file hF hc (by rw [g2]; rfl) (by rw [g2]; rfl) (congrArg File.len hf₃).symm h
    (by omega) hok
  exact ⟨h1.trans hf₃, hc₃ ∘ h2⟩

/-- What is opened stands as it was kept. -/
theorem stands_opened (hF : 2 ^ 64 ≤ E.fuel) (hc : Closable s) (hf : StoredIn s f)
    (h : Outside s f (file os)) {o : Opts} (hsh : o.parallel = .shared)
    (hopen : lsOpen E o os = some (.ok t)) : Stands s t := by
  obtain ⟨h1, h2⟩ := storedIn_outside hc hf h
  obtain ⟨r, h3, h4⟩ := lsOpen_storedIn hF h1 h2 (optsRefused_of_lsOpen hopen)
  rw [hopen] at h3
  cases h3
  have hr := h4.reopened t rfl
  refine ⟨by rw [hr.opts.1]; exact hsh, hr.sound.laid.records.wf, hr.al, hr.rows.find, fun k r hk =>
    ⟨hr.spilt.2 k r hk, length_exts (hr.sound.laid.records.ok k r hk)⟩⟩

/-- One call of a transfer. -/
theorem fencing_call (hc : Closable s) {α : Type} {q : Call} {k : q.Ans → Io α}
    (h : Fencing (dataOf s) t (.call q k)) (hlen : s.al.fileEnd ≤ t.flen) :
    Fencing (dataOf s) (perform q t).2 (k (perform q t).1) ∧ (perform q t).2.arr = t.arr ∧
      Outside s (file t.os) (file (perform q t).2.os) ∧
      (Stands s t → Stands s (perform q t).2) := by
  obtain ⟨p, es, ⟨h1, h2⟩, h3⟩ := h
  have hf := perform_fenced (s := t) h1
  have hrest := hf.rest
  have harr : (perform q t).2.arr = t.arr := by rw [hrest]
  refine ⟨⟨p, es, h2 _ _ (perform_out h1 h3), fun i e he => by rw [harr]; exact h3 i e he⟩, harr,
    ⟨Nat.le_antisymm (hf.top _ (Nat.le_refl _) ?_) hf.len, fun x hx => hf.byte (.file x) ?_⟩, fun h => ?_⟩
  · rintro x ⟨y, ⟨e, he, hx⟩, hxy⟩
    cases hxy
    have hb := (hc.sound.laid.tiled.live_bounds (e := e) he).2
    exact hx.2.trans_le (hb.trans hlen)
  · rintro ⟨y, hy, hxy⟩
    cases hxy
    exact hx hy
  · rw [hrest]
    exact ⟨h.shared, h.wf, h.al, h.rows, h.plain⟩

end Files

/-! ## Runs -/

/-- What stands for a process. -/
structure Process.Stands (s : Store σ) (q : Process σ ι) : Prop where
  layout : ∀ t, q.store = some t → Libspill.Stands s t
  going : ∀ i a key p, (q.thread i).cur = some (a, key, p) → ¬ a.Grows s ∧
    ∃ t, q.store = some t ∧ Fencing (dataOf s) t p
  made : ∀ i, ∀ m ∈ (q.thread i).made, m.1.Grows s → m.2.rc = .mode
  args : ∀ i, ∀ a ∈ (q.thread i).todo, a.Args64

/-- What stands in a world of processes that share the file `f`, which holds the store `s`. -/
structure World.Stands (s : Store σ) (f : File) (w : World σ π ι) : Prop where
  file : Outside s f (file w.os)
  proc : ∀ p, (w.proc p).Stands s

/-- The file is opened shared. -/
def Event.Shared : Event π ι → Prop
  | .opens _ o => o.parallel = .shared
  | _ => True

instance : DecidablePred (Event.Shared : Event π ι → Prop)
  | .opens _ o => inferInstanceAs (Decidable (o.parallel = .shared))
  | .steps _ _ | .closes _ _ => isTrue trivial

section World

variable {s t t' : Store σ} {f : File} {w w' : World σ π ι} {c c' : Caller}

/-- What stands for one thread of a process. -/
structure Caller.Stands (s t : Store σ) (c : Caller) : Prop where
  going : ∀ a key q, c.cur = some (a, key, q) → ¬ a.Grows s ∧ Fencing (dataOf s) t q
  made : ∀ m ∈ c.made, m.1.Grows s → m.2.rc = .mode
  args : ∀ a ∈ c.todo, a.Args64

omit [HonestOs σ] in
theorem Caller.Stands.of_arr (h : c.Stands s t) (harr : t'.arr = t.arr) : c.Stands s t' := by
  refine ⟨fun a key q hq => ?_, h.made, h.args⟩
  obtain ⟨h1, p, es, h2, h3⟩ := h.going a key q hq
  exact ⟨h1, p, es, h2, fun i e he => by rw [harr]; exact h3 i e he⟩

/-- **One step of a thread.** -/
theorem caller_step (hc : Closable s) (h : Libspill.Stands s t) (hcs : c.Stands s t)
    (hlen : s.al.fileEnd ≤ t.flen) (hstep : c.step E t = some (c', t')) :
    Libspill.Stands s t' ∧ c'.Stands s t' ∧ t'.arr = t.arr ∧ Outside s (HonestOs.file t.os) (HonestOs.file t'.os) := by
  cases hcur : c.cur with
  | some cur =>
    obtain ⟨a, key, q⟩ := cur
    obtain ⟨hg, hq⟩ := hcs.going a key q hcur
    cases q with
    | ret ans =>
      simp only [Caller.step, hcur] at hstep
      cases hstep
      refine ⟨h.setRec key fun r _ => ⟨_, rfl⟩, ⟨fun _ _ _ hn => (by cases hn), fun m hm => ?_, hcs.args⟩,
        rfl, .refl⟩
      rcases List.mem_append.mp hm with hm | hm
      · exact hcs.made m hm
      · rw [List.mem_singleton.mp hm]
        exact fun hgr => absurd hgr hg
    | hang =>
      simp only [Caller.step, hcur] at hstep
      cases hstep
    | call q k =>
      obtain ⟨h1, h2, h3, h4⟩ := fencing_call hc hq hlen
      simp only [Caller.step, hcur] at hstep
      cases hstep
      refine ⟨h4 h, ⟨fun b key' q' hq' => ?_, hcs.made, hcs.args⟩, h2, h3⟩
      cases hq'
      exact ⟨hg, h1⟩
  | none =>
    cases htodo : c.todo with
    | nil =>
      simp only [Caller.step, hcur, htodo] at hstep
      cases hstep
      exact ⟨h, hcs, rfl, .refl⟩
    | cons a todo =>
      simp only [Caller.step, hcur, htodo] at hstep
      obtain ⟨⟨b, u⟩, h1, h2⟩ := Option.map_eq_some_iff.mp hstep
      cases h2
      have hargs := hcs.args
      rw [htodo] at hargs
      obtain ⟨h3, h4⟩ := enter_stands hc h (hargs a List.mem_cons_self) h1
      refine ⟨h3.stands, ?_, h3.arr, by rw [h3.os]; exact .refl⟩
      have hrest : ∀ a' ∈ todo, a'.Args64 := fun a' ha' => hargs a' (List.mem_cons_of_mem _ ha')
      cases b with
      | done ans =>
        refine ⟨fun a' key q hq => ?_, fun m hm => ?_, hrest⟩
        · have hq' : c.cur = some (a', key, q) := hq
          rw [hcur] at hq'
          cases hq'
        · rcases List.mem_append.mp hm with hm | hm
          · exact hcs.made m hm
          · rw [List.mem_singleton.mp hm]
            intro hgr
            obtain ⟨ans', h5, h6⟩ := h4 hgr
            cases h5
            exact h6
      | going key q =>
        refine ⟨fun a' key' q' hq => ?_, hcs.made, hrest⟩
        cases hq
        refine ⟨fun hgr => ?_, h3.going key q rfl⟩
        obtain ⟨ans', h5, -⟩ := h4 hgr
        cases h5

omit [HonestOs σ] in
theorem Process.Stands.caller {q : Process σ ι} (h : q.Stands s) (ht : q.store = some t) (i : ι) :
    (q.thread i).Stands s t := by
  refine ⟨fun a key p hp => ?_, h.made i, h.args i⟩
  obtain ⟨h1, t', h2, h3⟩ := h.going i a key p hp
  rw [ht] at h2
  cases h2
  exact ⟨h1, h3⟩

variable [Fintype ι] [DecidableEq ι] [DecidableEq π] {E : π → Env}

omit [Fintype ι] [DecidableEq ι] in
/-- The world after a process has moved. -/
theorem World.Stands.put (h : w.Stands s f) (p : π) {os : σ} {q : Process σ ι}
    (hfile : Outside s (HonestOs.file w.os) (HonestOs.file os)) (hq : q.Stands s) :
    (w.put p os q).Stands s f := by
  refine ⟨h.file.trans hfile, fun p' => ?_⟩
  dsimp only [World.put]
  by_cases hp : p' = p
  · subst hp
    rw [Function.update_self]
    exact hq
  · rw [Function.update_of_ne hp]
    exact h.proc p'

/-- **One move.** -/
theorem world_step (hF : ∀ p, 2 ^ 64 ≤ (E p).fuel) (hc : Closable s) (hf : StoredIn s f)
    (h : w.Stands s f) {m : Event π ι} (hm : m.Shared) (hstep : w.step E m = some w') :
    w'.Stands s f := by
  have hlen : s.al.fileEnd ≤ (HonestOs.file w.os).len := by
    have := hf.len
    rw [h.file.len]
    omega
  cases m with
  | opens p o =>
    cases hp : (w.proc p).store with
    | some t =>
      simp only [World.step, hp] at hstep
      cases hstep
      exact h
    | none =>
      obtain ⟨h1, h2⟩ := storedIn_outside hc hf h.file
      simp only [World.step, hp] at hstep
      cases hopen : lsOpen (E p) o w.os with
      | none =>
        rw [hopen] at hstep
        cases hstep
      | some r =>
        have hfile := (lsOpen_file (hF p) h1 h2 hopen).1
        rw [hopen] at hstep
        cases r with
        | error e =>
          cases hstep
          exact h.put p (by rw [show HonestOs.file e.2 = HonestOs.file w.os from hfile]; exact .refl)
            (h.proc p)
        | ok t =>
          cases hstep
          refine h.put p (by rw [show HonestOs.file t.os = HonestOs.file w.os from hfile]; exact .refl) ?_
          refine ⟨fun u hu => ?_, fun i a key x hx => ?_, (h.proc p).made, (h.proc p).args⟩
          · cases hu
            exact stands_opened (hF p) hc hf h.file hm hopen
          · obtain ⟨-, u, hu, -⟩ := (h.proc p).going i a key x hx
            rw [hp] at hu
            cases hu
  | steps p i =>
    cases hp : (w.proc p).store with
    | none =>
      simp only [World.step, hp] at hstep
      cases hstep
      exact h
    | some t =>
      simp only [World.step, hp] at hstep
      have ht := (h.proc p).layout t hp
      have hplug : Libspill.Stands s { t with os := w.os } := ⟨ht.shared, ht.wf, ht.al, ht.rows, ht.plain⟩
      have hcs : ∀ j, ((w.proc p).thread j).Stands s { t with os := w.os } := fun j =>
        ((h.proc p).caller hp j).of_arr rfl
      cases hstep' : ((w.proc p).thread i).step (E p) { t with os := w.os } with
      | none =>
        rw [hstep'] at hstep
        cases hstep
      | some q =>
        obtain ⟨c', t'⟩ := q
        rw [hstep'] at hstep
        cases hstep
        obtain ⟨h1, h2, h3, h4⟩ := caller_step hc hplug (hcs i) hlen hstep'
        have hall : ∀ j, (Function.update (w.proc p).thread i c' j).Stands s t' := by
          intro j
          by_cases hj : j = i
          · subst hj
            rw [Function.update_self]
            exact h2
          · rw [Function.update_of_ne hj]
            exact (hcs j).of_arr h3
        refine h.put p h4 ⟨fun u hu => ?_, fun j a key x hx => ?_, fun j => (hall j).made,
          fun j => (hall j).args⟩
        · cases hu
          exact h1
        · obtain ⟨h5, h6⟩ := (hall j).going a key x hx
          exact ⟨h5, t', rfl, h6⟩
  | closes p keep =>
    cases hp : (w.proc p).store with
    | none =>
      simp only [World.step, hp] at hstep
      cases hstep
      exact h
    | some t =>
      simp only [World.step, hp] at hstep
      by_cases hidle : ∀ i, ((w.proc p).thread i).cur.isNone
      swap
      · rw [if_neg hidle] at hstep
        cases hstep
        exact h
      have hsh : ({ t with os := w.os } : Store σ).o.parallel = .shared := ((h.proc p).layout t hp).shared
      rw [if_pos hidle, closeStore, if_pos hsh] at hstep
      cases hstep
      refine h.put p .refl ⟨fun u hu => (by cases hu), fun i a key x hx => ?_, (h.proc p).made,
        (h.proc p).args⟩
      have := hidle i
      rw [hx] at this
      cases this

omit [HonestOs σ] [Fintype ι] [DecidableEq ι] [DecidableEq π] in
/-- Every move of a run opens the file shared. -/
theorem along_shared [Os σ] [Fintype ι] [DecidableEq ι] [DecidableEq π] {ms : List (Event π ι)}
    (hms : ∀ m ∈ ms, m.Shared) (w : World σ π ι) :
    Along (World.step E) (fun m _ => m.Shared) (fun _ => True) ms w := by
  induction ms generalizing w with
  | nil => trivial
  | cons m ms ih =>
    exact ⟨hms m List.mem_cons_self, fun w' _ => ⟨trivial, ih (fun m' hm' => hms m' (List.mem_cons_of_mem _ hm')) w'⟩⟩

/-- **A shared layout stands still.** In every run of any processes that open a kept file shared and
make any calls, the file outside the extents is as it was left, every process has the layout that was
kept, and every call that needs a new key or a larger record is refused. -/
theorem shared_layout_stands {E₀ : Env} (hF₀ : 2 ^ 64 ≤ E₀.fuel) (hF : ∀ p, 2 ^ 64 ≤ (E p).fuel)
    {s₀ : Store σ} (hs : Reached E₀ s₀) (hsh : s₀.o.parallel ≠ .shared) (hfew : Few E₀ s₀) {os : σ}
    (hclose : closeStore E₀ s₀ true = some (.ok, os)) :
    ∃ s, lsSpillAll E₀ s₀ = some (.ok, s) ∧ ∀ (progs : π → ι → List Api)
      (_ : ∀ p i, ∀ a ∈ progs p i, a.Args64) (ms : List (Event π ι)) (_ : ∀ m ∈ ms, m.Shared)
      (w : World σ π ι), sched (World.step E) ms (World.start os progs) = some w →
        (file w.os).len = (file os).len ∧
        (∀ x, ¬ Covers s.live x → (file w.os).byte x = (file os).byte x) ∧
        (∀ p t, (w.proc p).store = some t → t.al = s.al ∧
          ∀ k, (t.find k).map t.row = (s.find k).map s.row) ∧
        ∀ p i, ∀ m ∈ ((w.proc p).thread i).made, m.1.Grows s → m.2.rc = .mode := by
  obtain ⟨rc, os', h1, -, h2⟩ := (hs.settled hF₀).kept hF₀ hsh hfew
  rw [hclose] at h1
  cases h1
  obtain ⟨s, h3, -, h4, h5, -⟩ := h2 rfl
  refine ⟨s, h3, fun progs hargs ms hms w hrun => ?_⟩
  have hstart : (World.start os progs : World σ π ι).Stands s (file os) :=
    ⟨.refl, fun p => ⟨fun _ ht => (by cases ht), fun _ _ _ _ hx => (by cases hx),
      fun _ _ hm => (by cases hm), fun i => hargs p i⟩⟩
  have hw : w.Stands s (file os) := inv_of_sched (fun w => w.Stands s (file os))
    (fun m w w' hw hm hstep => world_step hF h5 (h4.stored rfl) hw hm hstep) hstart
    (along_shared hms _) hrun
  exact ⟨hw.file.len, hw.file.byte, fun p t ht => ⟨((hw.proc p).layout t ht).al,
    ((hw.proc p).layout t ht).rows⟩, fun p i => (hw.proc p).made i⟩

/-- A record of one byte is kept. -/
def keptByte : List Op := [.write keyA 0 [1] 0]

/-- Two processes, one writes inside the record and the other would make it larger. -/
def twoProcs : Bool → Unit → List Api
  | false, _ => [.plain (.write keyA 0 [7] 0)]
  | true, _ => [.vectored keyA [⟨0, 2, some ⟨[8, 9], rfl⟩, 0⟩] true]

/-- Both open the file, and make their calls in turn. -/
def twoMoves : List (Event Bool Unit) :=
  [.opens false { parallel := .shared }, .steps false (), .opens true { parallel := .shared }, .steps false (),
    .steps true (), .steps false (), .closes true true, .steps false ()]

theorem shared_layout_stands_two : ∃ (s : Store Disk) (os : Disk) (w : World Disk Bool Unit),
    sched (World.step fun _ => Env.ample) twoMoves (World.start os twoProcs) = some w ∧
      (file w.os).len = (file os).len ∧
      (∀ x, ¬ Covers s.live x → (file w.os).byte x = (file os).byte x) ∧
      ∀ p i, ∀ m ∈ ((w.proc p).thread i).made, m.1.Grows s → m.2.rc = .mode := by
  have hrun : ((Disk.session {} keptByte Disk.blank).bind fun q =>
      (sched (World.step fun _ => Env.ample) twoMoves (World.start q.2 twoProcs)).map fun _ =>
        (q.1.o, fewExtents q.1)) = some ({}, true) := by decide +kernel
  obtain ⟨⟨t, d⟩, h1, hrun⟩ := Option.bind_eq_some_iff.mp hrun
  obtain ⟨w, h2, hrun⟩ := Option.map_eq_some_iff.mp hrun
  rw [Prod.mk.injEq] at hrun
  obtain ⟨s₀, outs₀, b1, b2, b3⟩ := session_eq_some h1
  have hF : 2 ^ 64 ≤ Env.ample.fuel := Nat.le_refl _
  have hs₀ : Reached Env.ample s₀ := .opened rfl b1
  have hfit : FitsRun Env.ample keptByte s₀ :=
    ⟨⟨by decide, by decide, fun _ => roomFits_of_le hF (hs₀.settled hF).sound (by decide)⟩,
      fun _ _ _ => trivial⟩
  have ht : Reached Env.ample t := hs₀.runOps hfit b2
  obtain ⟨s, -, h3⟩ := shared_layout_stands (π := Bool) (ι := Unit) (E := fun _ => Env.ample) hF
    (fun _ => hF) ht (by rw [hrun.1]; decide) (few_of_fewExtents (ht.settled hF) hrun.2) b3
  have hargs : ∀ p i, ∀ a ∈ twoProcs p i, a.Args64 := by
    intro p i a ha
    cases p <;> rw [List.mem_singleton.mp ha]
    · exact ⟨by decide, by decide⟩
    · intro g hg
      rw [List.mem_singleton.mp hg]
      exact ⟨by decide, by decide⟩
  have hshared : ∀ m ∈ twoMoves, m.Shared := by decide
  obtain ⟨h4, h5, -, h6⟩ := h3 twoProcs hargs twoMoves hshared w h2
  exact ⟨s, d, w, h2, h4, h5, h6⟩

/-- A record that reaches past the end of the 64-bit range is kept. -/
def wrapKept : List Op := [.reserve keyB 4096, .reserve keyA (2 ^ 64 - 4096), .erase keyB]

/-- One process writes a byte of it. -/
def wrapMoves : List (Event Unit Unit) :=
  .opens () { parallel := .shared } :: List.replicate 4 (.steps () ())

/-- **An extent that wraps**: the reservation is accepted though its extent ends past `2 ^ 64`, the
store is kept and opened shared without an error, and the write goes to byte 0 of the file. -/
theorem shared_layout_wraps : ∃ (s₀ s : Store Disk) (outs : List Out) (os : Disk) (w : World Disk Unit Unit),
    runOps Env.ample wrapKept (Disk.newStore {}) = some (outs, s₀) ∧ (∀ out ∈ outs, out.rc = .ok) ∧
    lsSpillAll Env.ample s₀ = some (.ok, s) ∧ closeStore Env.ample s₀ true = some (.ok, os) ∧
    sched (World.step fun _ => Env.ample) wrapMoves
      (World.start os fun _ _ => [.plain (.write keyA (2 ^ 64 - 8192) [7] 0)]) = some w ∧
    w.os.ok = true ∧ ¬ Covers s.live 0 ∧ (file w.os).byte 0 ≠ (file os).byte 0 := by
  have hrun : ((runOps Env.ample wrapKept (Disk.newStore {})).bind fun a =>
      (lsSpillAll Env.ample a.2).bind fun b => (closeStore Env.ample a.2 true).bind fun c =>
        (sched (World.step fun _ => Env.ample) wrapMoves
          (World.start c.2 fun _ _ => [.plain (.write keyA (2 ^ 64 - 8192) [7] 0)])).map fun w =>
            ((a.1.map Out.rc, b.1, c.1), (w.os.ok, b.2.live), ((file w.os).byte 0, (file c.2).byte 0))) =
      some (([.ok, .ok, .ok], .ok, .ok), (true, [⟨8192, 2 ^ 64 - 4096⟩]), (7, 76)) := by decide +kernel
  obtain ⟨⟨outs, s₀⟩, h1, hrun⟩ := Option.bind_eq_some_iff.mp hrun
  obtain ⟨⟨rc, s⟩, h2, hrun⟩ := Option.bind_eq_some_iff.mp hrun
  obtain ⟨⟨rc', os⟩, h3, hrun⟩ := Option.bind_eq_some_iff.mp hrun
  obtain ⟨w, h4, hrun⟩ := Option.map_eq_some_iff.mp hrun
  simp only [Prod.mk.injEq] at hrun
  obtain ⟨⟨e1, rfl, rfl⟩, ⟨e2, e3⟩, e4, e5⟩ := hrun
  refine ⟨s₀, s, outs, os, w, h1, fun out hout => ?_, h2, h3, h4, e2, ?_, ?_⟩
  · have := List.mem_map_of_mem (f := Out.rc) hout
    rw [e1] at this
    simpa using this
  · rw [e3]
    rintro ⟨e, he, hx⟩
    rw [List.mem_singleton.mp he] at hx
    exact absurd hx.1 (by decide)
  · rw [e4, e5]
    decide

end World

end Libspill
