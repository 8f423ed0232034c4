import Libspill.Vectored

set_option autoImplicit false

/-!
# Accumulation

`ls_accumulate` calls the reduction once on the whole range of a resident record, and piece by piece
on the extents of one that is not.

* `Elementwise`: reductions that combine element by element.
* `chunked`, `chunked_eq`: reducing piece by piece is reducing at once, if no element is cut.
* `Reduce.bump`, `chunked_bump_ne`: a reduction that shows where an element is cut.
* `accumulate_spec`: the call on the map.
-/

namespace Libspill

variable {σ : Type} [HonestOs σ] {E : Env}

open HonestOs (clean)

/-! ## Element by element -/

/-- The reduction combines the elements of `w` bytes of a buffer of `k * w` bytes one by one. -/
def Elementwise (w : ℕ) (op : Reduce) : Prop :=
  ∃ f : List UInt8 → List UInt8 → List UInt8,
    (∀ a b, a.length = w → b.length = w → (f a b).length = w) ∧
    ∀ k dst src, dst.length = k * w → src.length = k * w →
      op.run dst src = (List.range k).flatMap fun i =>
        f ((dst.drop (i * w)).take w) ((src.drop (i * w)).take w)

/-- What the loop of `ls_accumulate` makes of the bytes at `dst`. -/
def chunked (op : Reduce) : ℕ → List UInt8 → List UInt8 → List UInt8
  | 0, dst, _ => dst
  | fuel + 1, dst, src =>
    if dst = [] then []
    else op.run (dst.take CH) (src.take CH) ++ chunked op fuel (dst.drop CH) (src.drop CH)

section Chunked

variable {op : Reduce} {w fuel : ℕ} {dst src : List UInt8}

theorem length_chunked (op : Reduce) (fuel : ℕ) (dst src : List UInt8) :
    (chunked op fuel dst src).length = dst.length := by
  induction fuel generalizing dst src with
  | zero => rfl
  | succ fuel ih =>
    rw [chunked]
    split_ifs with h
    · rw [h]
    · rw [List.length_append, op.length_run, ih, ← List.length_append, List.take_append_drop]

/-- Whole elements may be reduced in two parts. -/
theorem Elementwise.append (h : Elementwise w op) {k l : ℕ} (hd : dst.length = (k + l) * w)
    (hs : src.length = (k + l) * w) : op.run dst src =
      op.run (dst.take (k * w)) (src.take (k * w)) ++
        op.run (dst.drop (k * w)) (src.drop (k * w)) := by
  obtain ⟨f, -, hf⟩ := h
  rw [Nat.add_mul] at hd hs
  rw [hf (k + l) dst src (by rw [hd, Nat.add_mul]) (by rw [hs, Nat.add_mul]),
    hf k _ _ (by rw [List.length_take]; omega) (by rw [List.length_take]; omega),
    hf l _ _ (by rw [List.length_drop]; omega) (by rw [List.length_drop]; omega),
    List.range_add, List.flatMap_append]
  congr 1
  · refine List.flatMap_congr fun i hi => ?_
    have hik : i * w + w ≤ k * w := by
      rw [← Nat.succ_mul]
      exact Nat.mul_le_mul_right w (List.mem_range.mp hi)
    have htake : ∀ b : List UInt8, ((b.take (k * w)).drop (i * w)).take w = (b.drop (i * w)).take w := by
      intro b
      rw [List.drop_take, List.take_take, Nat.min_eq_left (by omega)]
    rw [htake, htake]
  · rw [List.flatMap_map]
    refine List.flatMap_congr fun i _ => ?_
    rw [List.drop_drop, List.drop_drop, ← Nat.add_mul]

/-- **Reducing piece by piece is reducing at once**, if one piece is all or elements are not cut: by
induction on the pieces. -/
theorem chunked_eq (h : Elementwise w op) {m : ℕ} (hd : dst.length = m * w)
    (hs : src.length = m * w) (hcut : dst.length ≤ CH ∨ w ∣ CH) (hfuel : dst.length ≤ fuel) :
    chunked op fuel dst src = op.run dst src := by
  induction fuel generalizing dst src m with
  | zero =>
    have h0 : dst = [] := List.eq_nil_of_length_eq_zero (by omega)
    subst h0
    exact (List.eq_nil_of_length_eq_zero (by rw [op.length_run]; rfl)).symm
  | succ fuel ih =>
    rw [chunked]
    split_ifs with h0
    · subst h0
      exact (List.eq_nil_of_length_eq_zero (by rw [op.length_run]; rfl)).symm
    have hpos := List.length_pos_iff.mpr h0
    have hCH : 0 < CH := by decide
    by_cases hle : dst.length ≤ CH
    · have hnil : (chunked op fuel (dst.drop CH) (src.drop CH)) = [] := by
        refine List.eq_nil_of_length_eq_zero ?_
        rw [length_chunked, List.length_drop]
        omega
      rw [hnil, List.append_nil, List.take_of_length_le hle, List.take_of_length_le (by omega)]
    · obtain ⟨k, hk⟩ := hcut.resolve_left hle
      have hkm : k ≤ m := by
        by_contra hlt
        have := Nat.mul_le_mul_right w (Nat.le_of_lt (Nat.not_le.mp hlt))
        rw [← hd, Nat.mul_comm k, ← hk] at this
        omega
      obtain ⟨l, rfl⟩ := Nat.exists_eq_add_of_le hkm
      have hkw : CH = k * w := by rw [hk, Nat.mul_comm]
      have hd' := hd
      have hs' := hs
      rw [Nat.add_mul] at hd' hs'
      rw [ih (m := l) (by rw [List.length_drop]; omega) (by rw [List.length_drop]; omega)
        (Or.inr ⟨k, hk⟩) (by rw [List.length_drop]; omega), h.append hd hs, ← hkw]

end Chunked

/-- Add one to every byte of the whole elements of `w` bytes, and leave what remains. -/
def Reduce.bump (w : ℕ) : Reduce where
  run dst _ := (dst.take (dst.length / w * w)).map (· + 1) ++ dst.drop (dst.length / w * w)
  length_run dst _ := by
    rw [List.length_append, List.length_map, ← List.length_append, List.take_append_drop]

theorem elementwise_bump {w : ℕ} (hw : 0 < w) : Elementwise w (.bump w) := by
  refine ⟨fun a _ => a.map (· + 1), fun a b ha _ => by rw [List.length_map, ha],
    fun k dst src hd hs => ?_⟩
  rw [Reduce.bump]
  dsimp only
  rw [hd, Nat.mul_div_cancel _ hw, ← hd, List.take_length, List.drop_length, List.append_nil]
  clear hs src
  induction k generalizing dst with
  | zero => rw [List.eq_nil_of_length_eq_zero (by omega : dst.length = 0)]; rfl
  | succ k ih =>
    rw [Nat.succ_mul] at hd
    have h := ih (dst.drop w) (by rw [List.length_drop]; omega)
    rw [List.range_succ_eq_map, List.flatMap_cons, List.flatMap_map, Nat.zero_mul, List.drop_zero]
    conv_lhs => rw [← List.take_append_drop w dst, List.map_append, h]
    congr 1
    refine List.flatMap_congr fun i _ => ?_
    rw [List.drop_drop, Nat.succ_mul, Nat.add_comm w]

/-- **Where an element is cut**, its bytes before the cut are not combined. -/
theorem chunked_bump_ne {w fuel : ℕ} {dst src : List UInt8} (hd : w ∣ dst.length)
    (hlen : CH < dst.length) (hcut : ¬ w ∣ CH) (hfuel : dst.length ≤ fuel) :
    (chunked (.bump w) fuel dst src).getD (CH - 1) 0 ≠ ((Reduce.bump w).run dst src).getD (CH - 1) 0 := by
  obtain ⟨fuel, rfl⟩ := Nat.exists_eq_succ_of_ne_zero (by omega : fuel ≠ 0)
  have hCH : 0 < CH := by decide
  have hne : dst ≠ [] := fun h => by rw [h] at hlen; exact absurd hlen (Nat.not_lt_zero _)
  have htl : (dst.take CH).length = CH := by
    rw [List.length_take]
    omega
  have hmod : 0 < CH % w := Nat.pos_of_ne_zero fun h => hcut (Nat.dvd_of_mod_eq_zero h)
  have hdiv := Nat.div_add_mod CH w
  rw [Nat.mul_comm] at hdiv
  rw [chunked, if_neg hne, List.getD_append _ _ _ _ (by rw [Reduce.length_run, htl]; omega)]
  simp only [Reduce.bump]
  rw [htl, Nat.div_mul_cancel hd, List.take_length, List.drop_length, List.append_nil,
    List.getD_append_right _ _ _ _ (by
      rw [List.length_map, List.length_take, htl]
      omega), List.length_map, List.length_take, htl]
  rw [List.getD_eq_getElem _ _ (by rw [List.length_drop, htl]; omega),
    List.getD_eq_getElem _ _ (by rw [List.length_map]; omega), List.getElem_map, List.getElem_drop,
    List.getElem_take]
  have hidx : CH / w * w + (CH - 1 - min (CH / w * w) CH) = CH - 1 := by omega
  simp only [hidx]
  generalize dst[CH - 1] = x
  intro h
  have : x.toNat = (x + 1).toNat := congrArg _ h
  rw [UInt8.toNat_add, show (1 : UInt8).toNat = 1 from rfl] at this
  have hx := x.toNat_lt
  omega

/-! ## The transfers -/

section Exec

variable {s : Store σ} {key : CStr} {r : Rec} {off : ℕ} {buf : List UInt8}

/-- The loop of `ls_accumulate` over the pieces: by induction on its turns. -/
theorem exec_accumulateLoop (hF : 2 ^ 64 ≤ E.fuel) (h : Sound s) (hk : s.find key = some r)
    (hn : off + buf.length ≤ r.size) (hlt : off + buf.length < 2 ^ 64) (op : Reduce) (tmp fuel done : ℕ)
    (hdone : done ≤ buf.length) (hfuel : buf.length - done < fuel) : ∃ rc s',
      s.exec (accumulateLoop E s.direct (lsPlaceOf r) op tmp buf off buf.length fuel done) =
        some (rc, s') ∧
      Trail s.os s'.os ∧ Untouched (s.locs r) s s' ∧ (clean s'.os ∨ rc = .ok → rc = .ok ∧
        s'.content r = patch (s.content r) (off + done) (chunked op fuel
          (slice (s.content r) (off + done) (buf.length - done)) (buf.drop done))) := by
  induction fuel generalizing s done with
  | zero => omega
  | succ fuel ih =>
    rw [accumulateLoop]
    by_cases hd : done < buf.length
    swap
    · refine ⟨_, s, by rw [if_neg hd]; rfl, .refl _, .refl, fun _ => ⟨rfl, ?_⟩⟩
      rw [show buf.length - done = 0 by omega, slice_zero, chunked, if_pos rfl, patch_nil]
    have hCH : 0 < CH := by decide
    rw [if_pos hd, add64_eq (by omega)]
    dsimp only
    generalize hkd : (if buf.length - done < CH then buf.length - done else CH) = k
    have hk' : k = min CH (buf.length - done) := by
      split_ifs at hkd <;> omega
    obtain ⟨⟨rc₁, b⟩, s₁, h1, ht₁, h2, h3⟩ := exec_scatter_read hF h hk
      (show off + done + k ≤ r.size by omega) tmp
    rw [exec_bind, h1]
    dsimp only [Option.bind_some]
    by_cases hrc : rc₁ ≠ .ok
    · rw [if_pos hrc]
      exact ⟨_, s₁, rfl, ht₁, h2, fun hc => absurd (congrArg Prod.fst (h3 hc).1) hrc⟩
    rw [if_neg hrc]
    rw [not_not] at hrc
    obtain ⟨h4, h5⟩ := h3 (Or.inr hrc)
    obtain rfl : b = slice (s.content r) (off + done) k := congrArg Prod.snd h4
    have hs₁ := sound_untouched h (targets_locs hk) h2
    have hk₁ : s₁.find key = some r := by rw [h2.find]; exact hk
    have hd₁ : s₁.direct = s.direct := by rw [h2.rest]
    generalize hnew : op.run (slice (s.content r) (off + done) k) ((buf.drop done).take k) = new
    have hnl : new.length = k := by rw [← hnew, op.length_run, length_slice]
    obtain ⟨⟨rc₂, b₂⟩, s₂, g1, ht₂, g2, g3⟩ := exec_scatter_write hF hs₁ hk₁
      (show off + done + new.length ≤ r.size by omega) tmp
    rw [hnl, hd₁] at g1
    rw [exec_bind, g1]
    dsimp only [Option.bind_some]
    rw [h2.locs] at g2
    by_cases hrc₂ : rc₂ ≠ .ok
    · rw [if_pos hrc₂]
      exact ⟨_, s₂, rfl, ht₁.trans ht₂, h2.trans g2, fun hc => absurd (g3 hc).1 hrc₂⟩
    rw [if_neg hrc₂]
    rw [not_not] at hrc₂
    obtain ⟨-, g5⟩ := g3 (Or.inr hrc₂)
    have hu := h2.trans g2
    have hs₂ := sound_untouched h (targets_locs hk) hu
    obtain ⟨rc, s', e1, ht₃, e2, e3⟩ := ih hs₂ (by rw [hu.find]; exact hk) (done + k) (by omega) (by omega)
    rw [show s₂.direct = s.direct by rw [hu.rest]] at e1
    rw [hu.locs] at e2
    refine ⟨rc, s', e1, (ht₁.trans ht₂).trans ht₃, hu.trans e2, fun hc => ?_⟩
    obtain ⟨e4, e5⟩ := e3 hc
    refine ⟨e4, ?_⟩
    have hrest : slice (patch (s.content r) (off + done) new) (off + (done + k))
        (buf.length - (done + k)) = slice (s.content r) (off + (done + k))
        (buf.length - (done + k)) := slice_congr fun i _ => patch_of_ge (by omega)
    have hsplit : slice (s.content r) (off + done) (buf.length - done) =
        slice (s.content r) (off + done) k ++ slice (s.content r) (off + (done + k))
          (buf.length - (done + k)) := by
      rw [← Nat.add_assoc, ← slice_add]
      congr 1
      omega
    have hne : slice (s.content r) (off + done) (buf.length - done) ≠ [] := by
      rw [← List.length_pos_iff, length_slice]
      omega
    -- the piece ends at `CH`, or it is the last one
    have hpiece : k = CH ∨ k = buf.length - done ∧ k ≤ CH := by omega
    have hsrc : (buf.drop done).take CH = (buf.drop done).take k := by
      rcases hpiece with rfl | ⟨hl, hle⟩
      · rfl
      · rw [List.take_of_length_le (by rw [List.length_drop]; omega),
          List.take_of_length_le (by rw [List.length_drop]; omega)]
    have hsdrop : (buf.drop done).drop CH = buf.drop (done + k) := by
      rw [List.drop_drop]
      rcases hpiece with rfl | ⟨hl, hle⟩
      · rfl
      · rw [List.drop_of_length_le (by omega), List.drop_of_length_le (by omega)]
    have hddrop : (slice (s.content r) (off + done) (buf.length - done)).drop CH =
        slice (s.content r) (off + (done + k)) (buf.length - (done + k)) := by
      rw [hsplit]
      rcases hpiece with rfl | ⟨hl, hle⟩
      · exact List.drop_left' (length_slice ..)
      · rw [show buf.length - (done + k) = 0 by omega, slice_zero, List.append_nil]
        exact List.drop_of_length_le (by rw [length_slice]; exact hle)
    rw [e5, g5, h5, hrest, chunked, if_neg hne, take_slice, ← hk', hsrc, hnew, hddrop, hsdrop,
      ← patch_append, hnl, Nat.add_assoc]

/-- What `ls_accumulate` makes of the bytes at `dst`, on a resident record or on extents. -/
def reduced (resident : Bool) (fuel : ℕ) (op : Reduce) (dst src : List UInt8) : List UInt8 :=
  if resident then op.run dst src else chunked op fuel dst src

@[simp] theorem length_reduced (resident : Bool) (fuel : ℕ) (op : Reduce) (dst src : List UInt8) :
    (reduced resident fuel op dst src).length = dst.length := by
  unfold reduced
  split_ifs
  · exact op.length_run dst src
  · exact length_chunked op fuel dst src

/-- **The transfers of `ls_accumulate`**, on the content of the record. -/
theorem exec_accumulate (hF : 2 ^ 64 ≤ E.fuel) (h : Sound s) (hk : s.find key = some r)
    (hn : off + buf.length ≤ r.size) (hlt : off + buf.length < 2 ^ 64) (op : Reduce) (tmp : ℕ) : ∃ rc s',
      s.exec (accumulate E s.direct (lsPlaceOf r) op tmp buf off) = some (rc, s') ∧
      Trail s.os s'.os ∧ Untouched (s.locs r) s s' ∧ (clean s'.os ∨ rc = .ok → rc = .ok ∧
        s'.content r = patch (s.content r) off (reduced r.mem.isSome E.fuel op
          (slice (s.content r) off buf.length) buf)) := by
  unfold accumulate reduced
  cases hm : r.mem with
  | none =>
    have := exec_accumulateLoop hF h hk hn hlt op tmp E.fuel 0 (Nat.zero_le _) (by omega)
    rw [List.drop_zero, Nat.add_zero, Nat.sub_zero] at this
    simpa only [lsPlaceOf, hm, Option.isSome_none, Bool.false_eq_true, if_false] using this
  | some p =>
    have hloc : ∀ i, s.loc r i = some (.mem p i) := fun i => by simp only [Store.loc, locOf, hm]
    have hcon : s.content r = s.mem p := funext fun i => by
      rw [Store.content, hloc]
      rfl
    generalize hnew : op.run (slice (s.mem p) off buf.length) buf = new
    have hnl : new.length = buf.length := by rw [← hnew, op.length_run, length_slice]
    refine ⟨.ok, { s with mem := Function.update s.mem p (patch (s.mem p) off new) }, ?_,
      .refl _, ⟨rfl, fun l hl => ?_, Nat.le_refl _, id⟩, fun _ => ⟨rfl, funext fun i => ?_⟩⟩
    · rw [← hnew]
      simp only [lsPlaceOf, hm]
      rfl
    · cases l with
      | file x => rfl
      | mem q i =>
        simp only [Store.byteAt]
        by_cases hq : q = p
        · subst hq
          rw [Function.update_self]
          exact if_neg fun hi => hl ⟨i, by omega, hloc i⟩
        · rw [Function.update_of_ne hq]
    · have hl' : ({ s with mem := Function.update s.mem p (patch (s.mem p) off new) } : Store σ).loc r i
          = some (.mem p i) := hloc i
      rw [Store.content, hl', Option.isSome_some, if_pos rfl, hcon, hnew]
      exact congrFun (Function.update_self p _ _) i

end Exec

/-! ## The call -/

/-- The bytes of a range combined with `buf`. -/
def Entry.combine (e : Entry) (f : List UInt8 → List UInt8 → List UInt8) (off : ℕ)
    (buf : List UInt8) : Entry := e.write off (f (slice e.byte off buf.length) buf)

section Call

variable {s : Store σ} {key : CStr} {off : ℕ} {buf : List UInt8}

/-- **`ls_accumulate`** combines the range, in a way that depends on where the record is. -/
theorem accumulate_spec (hF : 2 ^ 64 ≤ E.fuel) (h : Settled s) (hkey : lsKeyOk key = true)
    (hmode : s.o.mode = .explicit) (hne : buf ≠ []) (hlt : off + buf.length < 2 ^ 64)
    (hfz : frozen s key (off + buf.length) = false) (hroom : RoomFits E s key (off + buf.length))
    (op : Reduce) (tmp : ℕ) : ∃ rc s₁, makeRoom E s key (off + buf.length) = some (rc, s₁) ∧
      ∃ rc' s', lsAccumulate E s key off buf (some op) tmp = some (rc', s') ∧ Next s s' ∧
        (rc = .ok → Trail s₁.os s'.os ∧ (s'.recAt key).mem = (s₁.recAt key).mem) ∧
        (clean s'.os ∨ rc' = .ok → rc' = .ok ∧ ∀ m, Abs Nowhere s m →
          Abs Nowhere s' (m.put key (some (((m.lookup key).getD {}).combine
            (reduced (s'.recAt key).mem.isSome E.fuel op) off buf)))) := by
  have hpos := List.length_pos_iff.mpr hne
  obtain ⟨rc, s₁, h1, h2⟩ := makeRoom_spec hF h.sound hlt hroom
  refine ⟨rc, s₁, h1, ?_⟩
  rw [lsAccumulate, if_neg (by simp [hkey]), if_neg (by simp [hmode]), add64_eq hlt,
    if_neg (by omega), if_neg (by omega), if_neg (by simp [hfz]), h1]
  dsimp only
  by_cases hrc : rc ≠ .ok
  · rw [if_pos hrc]
    exact ⟨_, _, rfl, h2.next h hkey, fun h => absurd h hrc,
      fun hc => absurd (hc.elim h2.clean id) hrc⟩
  rw [if_neg hrc]
  rw [not_not] at hrc
  subst hrc
  obtain ⟨r₁, hk₁, hbusy, hattr, -, hr, -, -⟩ := h2.record
  obtain ⟨hsize, -⟩ := hr rfl
  obtain ⟨p1, p2, p3, p4, -⟩ := pin_spec h2.sound hk₁
  obtain ⟨a, s₃, q1, qt, q2, q3⟩ := exec_accumulate hF p1 p3
    (show off + buf.length ≤ r₁.size by omega) hlt op tmp
  rw [show lsPlaceOf { r₁ with busy := r₁.busy + 1 } = (pin s₁ key).1 from p4.symm] at q1
  rw [q1]
  have hsl₂ := p2.slack (h2.stays.slack h.slack)
  have hs₃ := sound_untouched p1 (targets_locs p3) q2
  have hsl₃ := slack_untouched p1.laid (targets_locs p3) q2 hsl₂
  have hnext : Next s (unpin s₃ key) := next_unpin h hkey (h2.stays.trans p2) p1 p3 hbusy hattr q2
  have hclean : clean (unpin s₃ key).os → clean s₃.os := id
  have hk₃ : s₃.find key = some { r₁ with busy := r₁.busy + 1 } := (q2.find key).trans p3
  obtain ⟨-, -, u3, -⟩ := unpin_spec hs₃ hk₃
  have hmem : ((unpin s₃ key).recAt key).mem = r₁.mem := by rw [recAt_of_find u3]
  have hos : (pin s₁ key).2.os = s₁.os := by
    simp only [pin, lsLruTouch_eq]
    split_ifs <;> rfl
  refine ⟨a, _, rfl, hnext, fun _ => ⟨hos ▸ qt, by rw [hmem, recAt_of_find hk₁]⟩, fun hc => ?_⟩
  obtain ⟨q4, q5⟩ := q3 (hc.imp hclean id)
  refine ⟨q4, fun m ha => ?_⟩
  rw [hmem]
  have ha₂ := abs_resize h2 h.slack ha
  obtain ⟨e, he, hm⟩ := ha₂.some _ _ p3
  rw [RefMap.lookup_put, if_pos rfl] at he
  obtain rfl := Option.some.inj he
  have hbyte : (pin s₁ key).2.content { r₁ with busy := r₁.busy + 1 } =
      ((m.lookup key).getD {}).byte := funext fun i => by rw [hm.bytes i id, Entry.byte_resize]
  rw [hbyte] at q5
  have hlen : (reduced r₁.mem.isSome E.fuel op (slice ((m.lookup key).getD {}).byte off buf.length)
      buf).length = buf.length := by
    rw [length_reduced, length_slice]
  have ha₃ := abs_content p1 ha₂ p3 q2
    (e := ((m.lookup key).getD {}).combine (reduced r₁.mem.isSome E.fuel op) off buf)
    (by
      rw [Entry.combine, Entry.length_write, hlen, ← (ha.recAt key).size]
      exact hsize)
    (fun x hx => by
      rw [RefMap.lookup_put, if_pos rfl] at hx
      obtain rfl := Option.some.inj hx
      rfl)
    (by rw [q5, Entry.combine, Entry.byte_write])
  rw [RefMap.put_put] at ha₃
  exact abs_unpin hs₃ hsl₃ hk₃ ha₃

end Call

end Libspill
