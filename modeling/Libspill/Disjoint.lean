import Libspill.Distinct

set_option autoImplicit false

/-!
# Writers of one key

Threads that write and append to one key, each in its own byte range, while others use other keys.

* `Config.Apart`: the range of the call that begins meets no earlier range of the key.
* `Config.Gentle`: beside a transfer on the key that is under way, the call that begins does not move
  the record, and with direct I/O it shares no block with the transfer.
* `Config.Landed`: every write that has answered `LS_OK` is in the record. **`landed_step`**: in such
  a step it stays, whatever calls of the operating system fail.
* **`writes_land`**: in a run of such steps every write is there to be read in the end.
-/

namespace Libspill

variable {σ ι : Type} [HonestOs σ] [Fintype ι] [DecidableEq ι] {E : Env}

open HonestOs (clean)

/-- The threads only write to `key`, and share no other key. -/
structure WritersOf (key : CStr) (progs : ι → List Op) : Prop where
  writes : ∀ i, ∀ op ∈ progs i, op.key? = some key → op.writes = true
  apart : ∀ i j, i ≠ j → ∀ op ∈ progs i, ∀ op' ∈ progs j, op.key? = op'.key? →
    op.key? = some key ∨ op.key? = none

/-- Two transfers have a byte in common. -/
def Xfer.Meets (x y : Xfer) : Prop :=
  0 < x.n ∧ 0 < y.n ∧ x.off < y.off + y.n ∧ y.off < x.off + x.n

/-- Two transfers have a block of `LS_ALIGN` bytes in common. -/
def Xfer.SharesBlock (x y : Xfer) : Prop :=
  0 < x.n ∧ 0 < y.n ∧ x.off / LS_ALIGN ≤ (y.off + y.n - 1) / LS_ALIGN ∧
    y.off / LS_ALIGN ≤ (x.off + x.n - 1) / LS_ALIGN

/-- Where the call that begins asks for capacity, no tail wraps. -/
def Config.Fits (E : Env) (i : ι) (c : Config σ ι) : Prop := ∀ op ∈ c.next i, op.Fits E c.store

/-- The range of the call that begins meets no earlier range of the key. -/
def Config.Apart (key : CStr) (i : ι) (c : Config σ ι) : Prop :=
  ∀ op ∈ c.next i, ∀ y ∈ op.xfer c.store, y.key = key →
    ∀ l ∈ c.log, ∀ x ∈ l.x, x.key = key → ¬ x.Meets y

/-- Beside a transfer on the key that is under way, the call that begins does not move the record,
and with direct I/O it shares no block with the transfer. -/
def Config.Gentle (key : CStr) (i : ι) (c : Config σ ι) : Prop :=
  ∀ op ∈ c.next i, op.key? = some key → ∀ j, ∀ t ∈ (c.thread j).cur, t.1.key = key →
    op.InPlace c.store ∧
      (c.store.direct = true → ∀ y ∈ op.xfer c.store, ¬ t.1.SharesBlock y)

/-- The bytes `b` are in the record of `key`, from `off` on. -/
def Store.Lies (s : Store σ) (key : CStr) (off : ℕ) (b : List UInt8) : Prop :=
  ∃ r, s.find key = some r ∧ off + b.length ≤ r.size ∧
    ∀ n, n < b.length → s.content r (off + n) = b.getD n 0

/-- Every write to the key that has answered `LS_OK` is in the record, and no transfer that is under
way reaches it. -/
structure Config.Landed (key : CStr) (progs : ι → List Op) (g : ι → Option Pend) (c : Config σ ι) :
    Prop where
  keyOk : ∀ l ∈ c.log, ∀ x ∈ l.x, x.key = key → lsKeyOk key = true
  lies : ∀ j (n : ℕ) op out, (progs j)[n]? = some op → op.key? = some key →
    (c.thread j).outs[n]? = some out → out.rc = .ok →
    ∃ x, ⟨j, op, some x⟩ ∈ c.log ∧ x.key = key ∧ x.off = op.startsAt out ∧
      x.n = op.payload.length ∧ c.store.Lies key x.off op.payload ∧
      ∀ i pd, g i = some pd → pd.x.key = key → ¬ x.Meets pd.x

section

variable {o : Opts} {direct : Bool} {progs : ι → List Op} {g g' : ι → Option Pend}
  {c c' : Config σ ι} {i : ι} {key : CStr} {op : Op} {s s' : Store σ}

theorem Op.erases_of_writes (hw : op.writes = true) : op.erases = false := by
  cases op with
  | erase _ => cases hw
  | _ => rfl

/-- Ranges that share no byte, and with direct I/O no block, spare each other. -/
theorem spares_of_not_shares {x y : Xfer} (hb : ¬ x.Meets y)
    (hblock : direct = true → ¬ x.SharesBlock y) : x.Spares direct y ∧ y.Spares direct x := by
  have hA : LS_ALIGN = 4096 := rfl
  have key : ∀ a b, x.off ≤ a → a < x.off + x.n → y.off ≤ b → b < y.off + y.n →
      (a = b ∨ direct = true ∧ a / LS_ALIGN = b / LS_ALIGN) → False := by
    intro a b h1 h2 h3 h4 hab
    rcases hab with rfl | ⟨hd, hab⟩
    · exact hb ⟨by omega, by omega, by omega, by omega⟩
    · refine hblock hd ⟨by omega, by omega, ?_, ?_⟩
      · calc x.off / LS_ALIGN ≤ a / LS_ALIGN := Nat.div_le_div_right h1
          _ = b / LS_ALIGN := hab
          _ ≤ (y.off + y.n - 1) / LS_ALIGN := Nat.div_le_div_right (by omega)
      · calc y.off / LS_ALIGN ≤ b / LS_ALIGN := Nat.div_le_div_right h3
          _ = a / LS_ALIGN := hab.symm
          _ ≤ (x.off + x.n - 1) / LS_ALIGN := Nat.div_le_div_right (by omega)
  refine ⟨?_, ?_⟩
  · rintro - n ⟨b, h1, h2, h3⟩ ⟨h4, h5⟩
    exact key n b h4 h5 h1 h2 h3
  · rintro - n ⟨a, h1, h2, h3⟩ ⟨h4, h5⟩
    refine key a n h1 h2 h4 h5 (h3.imp Eq.symm fun h => ⟨h.1, h.2.symm⟩)

theorem Xfer.Spares.not_meets {x y : Xfer} (h : x.Spares direct y) (hw : x.write = true) :
    ¬ x.Meets y := by
  rintro ⟨h1, h2, h3, h4⟩
  have := h hw (max x.off y.off) (.of_mem (Nat.le_max_right _ _) (by omega))
  omega

/-- Gentle steps of such threads are calm. -/
theorem calm_of_gentle (hw : WritersOf key progs) (h : Steady o direct progs g c)
    (hf : c.Fits E i) (hd : c.Apart key i) (hg : c.Gentle key i) : c.Calm E i := by
  refine fun op hop => ⟨hf op hop, fun j x pl p hj hkey => ?_⟩
  have hne : i ≠ j := by
    rintro rfl
    rw [(Config.next_eq_some.mp hop).1] at hj
    cases hj
  rcases h.holding j with ⟨-, hn⟩ | ⟨pd, p', hgj, hcur, -⟩
  · rw [hj] at hn
    cases hn
  rw [hj] at hcur
  cases hcur
  obtain ⟨op', -, hof, hl⟩ := h.logged j pd hgj
  have hmem := mem_progs_of_next h hop
  rcases hw.apart i j hne op hmem op' (mem_progs_of_log h hl) (hkey.trans hof.key.symm) with hk | hk
  · rw [hkey] at hk
    have hxk : pd.x.key = key := Option.some.inj hk
    have hwr := hw.writes i op hmem (hkey.trans hk)
    obtain ⟨h1, h2⟩ := hg op hop (hkey.trans hk) j _ hj hxk
    refine ⟨Op.erases_of_writes hwr, h1, fun y hy => ?_⟩
    have hyk : y.key = key := by
      have := Op.key_of_xfer hy
      rw [hkey] at this
      rw [← hxk, Option.some.inj this]
    obtain ⟨h3, h4⟩ := spares_of_not_shares (hd op hop y hy hyk _ hl _ rfl hxk)
      fun hdir => h2 hdir y hy
    exact ⟨h4, h3⟩
  · rw [hkey] at hk
    cases hk

/-! ## What has landed -/

theorem Store.Lies.mono {off : ℕ} {b : List UInt8} (h : s.Lies key off b)
    (hr : ∀ r, s.find key = some r → ∃ r', s'.find key = some r' ∧ r.size ≤ r'.size ∧
      ∀ n, off ≤ n → n < off + b.length → s'.content r' n = s.content r n) : s'.Lies key off b := by
  obtain ⟨r, h1, h2, h3⟩ := h
  obtain ⟨r', h4, h5, h6⟩ := hr r h1
  exact ⟨r', h4, h2.trans h5, fun n hn => (h6 _ (Nat.le_add_right _ _)
    (Nat.add_lt_add_left hn _)).trans (h3 n hn)⟩

/-- A critical section that erases nothing keeps what is in the records. -/
theorem lies_enters {k : CStr} {ent : Entered} (he : Enters op k s ent s') (hs : Slack s)
    (hop : k = key → op.erases = false) {off : ℕ} {b : List UInt8} (h : s.Lies key off b) :
    s'.Lies key off b := by
  refine h.mono fun r hr => ?_
  by_cases hk : k = key
  · subst hk
    obtain ⟨r', h1, h2, h3⟩ := he.kept (hop rfl) r hr
    exact ⟨r', h1, h2, fun n _ _ => congrFun (h3.content hs) n⟩
  · obtain ⟨r', h1, h2⟩ := he.stays.some key r (Ne.symm hk) hr
    exact ⟨r', h1, h2.size.ge, fun n _ _ => congrFun (h2.content hs) n⟩

omit [Fintype ι] [DecidableEq ι] in
/-- What has landed stays through a step that answers no call on the key. -/
theorem Config.Landed.mono (h : c.Landed key progs g) (hlog : c.log ⊆ c'.log)
    (hnew : ∀ l ∈ c'.log, l ∈ c.log ∨ ∀ x ∈ l.x, x.key = key → lsKeyOk key = true)
    (houts : ∀ j (n : ℕ) op out, (progs j)[n]? = some op → op.key? = some key →
      (c'.thread j).outs[n]? = some out → out.rc = .ok → (c.thread j).outs[n]? = some out)
    (hlies : ∀ (x : Xfer) b, b.length = x.n → (∀ i pd, g i = some pd → pd.x.key = key → ¬ x.Meets pd.x) →
      c.store.Lies key x.off b → c'.store.Lies key x.off b)
    (hg : ∀ l ∈ c.log, ∀ x ∈ l.x, x.key = key →
      (∀ i pd, g i = some pd → pd.x.key = key → ¬ x.Meets pd.x) →
      ∀ i pd, g' i = some pd → pd.x.key = key → ¬ x.Meets pd.x) : c'.Landed key progs g' := by
  refine ⟨fun l hl x hx hk => (hnew l hl).elim (fun hl => h.keyOk l hl x hx hk) fun hn => hn x hx hk,
    fun j n op out h1 h2 h3 h4 => ?_⟩
  obtain ⟨x, g1, g2, g3, g4, g5, g6⟩ := h.lies j n op out h1 h2 (houts j n op out h1 h2 h3 h4) h4
  exact ⟨x, hlog g1, g2, g3, g4, hlies x _ g4.symm g6 g5, hg _ g1 x rfl g2 g6⟩

omit [Fintype ι] [DecidableEq ι] in
/-- The answers of a thread that has not answered a call on the key. -/
theorem outs_append {t : Thread} {n : ℕ} {a out : Out} (h : (t.outs ++ [a])[n]? = some out)
    (ha : n = t.outs.length → out ≠ a) : t.outs[n]? = some out := by
  by_cases hn : n < t.outs.length
  · rwa [List.getElem?_append_left hn] at h
  · rw [List.getElem?_append_right (by omega)] at h
    have hlt := (List.getElem?_eq_some_iff.mp h).1
    rw [List.length_singleton] at hlt
    have h0 : n - t.outs.length = 0 := by omega
    rw [h0] at h
    exact absurd (Option.some.inj h).symm (ha (by omega))

/-- A call on the key, or another, has entered and is over. -/
theorem landed_done (hl : c.Landed key progs g) (h : Steady o direct progs g c)
    {todo : List Op} (hcur : (c.thread i).cur = none) (ht : (c.thread i).todo = op :: todo) {out : Out}
    (hrc : op.key? = some key → out.rc ≠ .ok)
    (hlies : ∀ off b, c.store.Lies key off b → s'.Lies key off b) :
    Config.Landed key progs g ⟨s', Function.update c.thread i
      ((c.thread i).enter todo (.done out)), c.log ++ [⟨i, op, none⟩]⟩ := by
  refine hl.mono (List.subset_append_left _ _) (fun l hl => ?_) (fun j n op' out' h1 h2 h3 h4 => ?_)
    (fun x b _ _ hb => hlies _ _ hb) fun _ _ _ _ _ hx => hx
  · rcases List.mem_append.mp hl with hl | hl
    · exact Or.inl hl
    · rw [List.mem_singleton.mp hl]
      exact Or.inr fun x hx => (by cases hx)
  · dsimp only at h3
    by_cases hj : j = i
    · subst hj
      rw [Function.update_self] at h3
      refine outs_append h3 ?_
      rintro rfl rfl
      rw [next_of_progs h hcur ht] at h1
      cases h1
      exact hrc h2 h4
    · rwa [Function.update_of_ne hj] at h3

omit [Fintype ι] in
/-- A call has gone on to its transfer. -/
theorem landed_xfer (hl : c.Landed key progs g)
    (hd : c.Apart key i) {todo : List Op} (hcur : (c.thread i).cur = none)
    (ht : (c.thread i).todo = op :: todo) {x : Xfer} {pl : Place} {p : Io Out} {pd : Pend}
    (hpx : pd.x = x) (hxf : op.xfer c.store = some x) (hok : x.key = key → lsKeyOk key = true)
    (hlies : ∀ off b, c.store.Lies key off b → s'.Lies key off b) :
    Config.Landed key progs (Function.update g i (some pd)) ⟨s', Function.update c.thread i
      ((c.thread i).enter todo (.xfer x pl p)), c.log ++ [⟨i, op, some x⟩]⟩ := by
  refine hl.mono (List.subset_append_left _ _) (fun l hl => ?_) (fun j n op' out' h1 h2 h3 h4 => ?_)
    (fun x b _ _ hb => hlies _ _ hb) fun l hl x' hx' hxk hno i' pd' hi' hk' => ?_
  · rcases List.mem_append.mp hl with hl | hl
    · exact Or.inl hl
    · rw [List.mem_singleton.mp hl]
      refine Or.inr fun y hy hyk => hok ?_
      rwa [Option.some.inj hy]
  · dsimp only at h3
    by_cases hj : j = i
    · subst hj
      rwa [Function.update_self] at h3
    · rwa [Function.update_of_ne hj] at h3
  · by_cases hj : i' = i
    · subst hj
      rw [Function.update_self] at hi'
      cases hi'
      rw [hpx] at hk' ⊢
      exact hd op (Config.next_eq_some.mpr ⟨hcur, todo, ht⟩) x hxf hk' l hl x' hx' hxk
    · rw [Function.update_of_ne hj] at hi'
      exact hno i' pd' hi' hk'

/-- One call of a transfer. -/
theorem landed_call (hl : c.Landed key progs g) (h : Steady o direct progs g c) {pd : Pend}
    (hi : g i = some pd) {q : Call} {k : q.Ans → Io Out}
    (hcur : (c.thread i).cur = some (pd.x, pd.pl, .call q k)) :
    Config.Landed key progs g { c with
      store := (perform q c.store).2
      thread := Function.update c.thread i
        { c.thread i with cur := some (pd.x, pd.pl, k (perform q c.store).1) } } := by
  obtain ⟨p, hp1, hp⟩ := h.pending hi
  rw [hcur] at hp1
  cases hp1
  obtain ⟨-, hu⟩ := hp.call
  refine hl.mono (fun _ hl => hl) (fun l hl => Or.inl hl) (fun j n op' out' h1 h2 h3 h4 => ?_)
    (fun x b hn hno hb => ?_) fun _ _ _ _ _ hx => hx
  · dsimp only at h3
    by_cases hj : j = i
    · subst hj
      rwa [Function.update_self] at h3
    · rwa [Function.update_of_ne hj] at h3
  · refine hb.mono fun r hr => ⟨r, ?_, Nat.le_refl _, fun n h1 h2 => ?_⟩
    · show (perform q c.store).2.find key = some r
      rw [hu.rest]
      exact hr
    · refine content_untouched h.sound.laid hp.targets hu hr fun hk hin => hno i pd hi hk.symm ?_
      exact ⟨by omega, by omega, by omega, by omega⟩

/-- The critical section after a transfer. -/
theorem landed_return (hl : c.Landed key progs g) (h : Steady o direct progs g c)
    (hw : WritersOf key progs) {pd : Pend} (hi : g i = some pd) {out : Out}
    (hcur : (c.thread i).cur = some (pd.x, pd.pl, .ret out)) :
    Config.Landed key progs (Function.update g i none) { c with
      store := unpin c.store pd.x.key
      thread := Function.update c.thread i
        { c.thread i with cur := none, outs := (c.thread i).outs ++ [out] } } := by
  obtain ⟨p, hp1, hp⟩ := h.pending hi
  rw [hcur] at hp1
  cases hp1
  obtain ⟨r, hr⟩ := hp.snap
  obtain ⟨-, h2, h3, h4⟩ := unpin_spec h.sound hr.find
  have hg : ∀ i' pd', Function.update g i none i' = some pd' → i' ≠ i ∧ g i' = some pd' := by
    intro i' pd' hi'
    by_cases hj : i' = i
    · subst hj
      rw [Function.update_self] at hi'
      cases hi'
    · rw [Function.update_of_ne hj] at hi'
      exact ⟨hj, hi'⟩
  have hlies : ∀ off b, c.store.Lies key off b → (unpin c.store pd.x.key).Lies key off b := by
    refine fun off b hb => hb.mono fun q hq => ?_
    by_cases hk : key = pd.x.key
    · subst hk
      rw [hr.find] at hq
      cases hq
      exact ⟨_, h3, Nat.le_refl _, fun n _ _ => congrFun (h4.content h.slack) n⟩
    · obtain ⟨q', h5, h6⟩ := h2.some key q hk hq
      exact ⟨q', h5, h6.size.ge, fun n _ _ => congrFun (h6.content h.slack) n⟩
  refine ⟨hl.keyOk, fun j n op' out' g1 g2 g3 g4 => ?_⟩
  by_cases hnew : j = i ∧ n = (c.thread i).outs.length
  swap
  · -- an answer that was there before
    have hold : (c.thread j).outs[n]? = some out' := by
      dsimp only at g3
      by_cases hj : j = i
      · subst hj
        rw [Function.update_self] at g3
        exact outs_append g3 fun hn => absurd ⟨rfl, hn⟩ hnew
      · rwa [Function.update_of_ne hj] at g3
    obtain ⟨x, e1, e2, e3, e4, e5, e6⟩ := hl.lies j n op' out' g1 g2 hold g4
    exact ⟨x, e1, e2, e3, e4, hlies _ _ e5, fun i' pd' hi' => e6 i' pd' (hg i' pd' hi').2⟩
  -- the transfer that has just ended
  obtain ⟨rfl, rfl⟩ := hnew
  dsimp only at g3
  rw [Function.update_self, List.getElem?_append_right (Nat.le_refl _), Nat.sub_self] at g3
  cases g3
  obtain ⟨op, e1, hof, e3⟩ := h.logged j pd hi
  rw [g1] at e1
  cases e1
  have hk : pd.x.key = key := Option.some.inj (hof.key.symm.trans g2)
  have hwr : pd.x.write = true := hof.writes.symm.trans
    (hw.writes j op' (List.mem_of_getElem? g1) g2)
  obtain ⟨hout, hbyte⟩ := hp.settle (Or.inr g4)
  obtain ⟨hn, hpay⟩ := hof.payload hwr
  refine ⟨pd.x, e3, hk, ?_, hn, hlies _ _ ⟨r, hk ▸ hr.find, hn ▸ hr.size, fun n hlt => ?_⟩,
    fun i' pd' hi' hk' => ?_⟩
  · rw [hout, hof.startsAt]
  · rw [hbyte hwr r hr.find _ (Nat.le_add_right _ _) (by omega), hpay, Nat.add_sub_cancel_left]
  · obtain ⟨hne, hi'⟩ := hg i' pd' hi'
    exact (h.spares j i' pd pd' (Ne.symm hne) hi hi' (hk.trans hk'.symm)).not_meets hwr

/-- **What has landed stays, and what is under way lands**, whatever calls of the operating system
fail. -/
theorem landed_step (hF : 2 ^ 64 ≤ E.fuel) (hw : WritersOf key progs) (h : Steady o direct progs g c)
    (hl : c.Landed key progs g) (hf : c.Fits E i) (hd : c.Apart key i) (hg : c.Gentle key i) :
    ∃ c', c.step E i = some c' ∧ ∃ g', Steady o direct progs g' c' ∧ c'.Landed key progs g' := by
  have hcalm := calm_of_gentle hw h hf hd hg
  cases hcur : (c.thread i).cur with
  | some cur =>
    obtain ⟨x, pl, p⟩ := cur
    rcases h.holding i with ⟨-, hn⟩ | ⟨pd, p', hgi, hcur', hp⟩
    · rw [hcur] at hn
      cases hn
    rw [hcur] at hcur'
    cases hcur'
    cases p with
    | ret out =>
      exact ⟨_, Config.step_return hcur, _, steady_return h hgi hcur, landed_return hl h hw hgi hcur⟩
    | hang =>
      obtain ⟨v, hv, -⟩ := hp.view
      exact hv.elim
    | call q k =>
      exact ⟨_, Config.step_call hcur, g, steady_call h hgi hcur, landed_call hl h hgi hcur⟩
  | none =>
    cases ht : (c.thread i).todo with
    | nil => exact ⟨c, by simp only [Config.step, hcur, ht], g, h, hl⟩
    | cons op todo =>
      have hop := Config.next_eq_some.mpr ⟨hcur, todo, ht⟩
      cases hkey : op.key? with
      | none =>
        cases op with
        | keys =>
          exact ⟨_, Config.step_enter hcur ht rfl, g, steady_done h hcur ht h.sound h.slack ⟨rfl, rfl⟩
            (fun _ => rfl) (fun _ _ _ _ hp => hp), landed_done hl h hcur ht
            (fun hk => by rw [hkey] at hk; cases hk) fun _ _ hb => hb⟩
        | _ => cases hkey
      | some k =>
        obtain ⟨ent, s', h1, h2⟩ := enter_spec hF h.sound hkey (hcalm op hop).1
        have hbes := h.beside hcalm hop hkey
        have hwr : k = key → op.writes = true := fun hk =>
          hw.writes i op (mem_progs_of_next h hop) (hkey.trans (congrArg some hk))
        have hlies : ∀ off b, c.store.Lies key off b → s'.Lies key off b := fun off b =>
          lies_enters h2 h.slack fun hk => Op.erases_of_writes (hwr hk)
        have hcase : k = key → _ := fun hk => enter_writes (hwr hk) h1
        refine ⟨_, Config.step_enter hcur ht h1, ?_⟩
        cases ent with
        | done out =>
          refine ⟨g, steady_done h hcur ht h2.sound (h2.stays.slack h.slack) h2.stays.opts
            (busy_enters h h2 hbes) (fun j pd p hj => pending_enters h h2 hbes hj),
            landed_done hl h hcur ht (fun hk => ?_) hlies⟩
          rw [hkey] at hk
          exact (hcase (Option.some.inj hk)).1 out rfl
        | xfer x pl p =>
          obtain ⟨hxk, hxf, pd, r, hpx, hpl, hready, hpay, -⟩ := h2.going x pl p rfl
          have hof : pd.Of op := ⟨by rw [hpx, hxk, hkey], by rw [hpx]; exact (Op.write_of_xfer hxf).1,
            by rw [hpx]; exact hpay.1, by rw [hpx]; exact hpay.2⟩
          refine ⟨_, steady_xfer h hcur ht h2 hbes hpx hpl hready hof,
            landed_xfer hl hd hcur ht hpx hxf (fun hk => ?_) hlies⟩
          rw [← hk]
          exact (hcase (hxk.symm.trans hk)).2 x pl p rfl

/-! ## Runs -/

/-- Steps of writers that leave each other alone. -/
def Config.Kind (E : Env) (key : CStr) (i : ι) (c : Config σ ι) : Prop :=
  c.Fits E i ∧ c.Apart key i ∧ c.Gentle key i

omit [Fintype ι] [DecidableEq ι] in
theorem landed_start (s : Store σ) (progs : ι → List Op) (key : CStr) :
    Config.Landed key progs (fun _ => none) (Config.start s progs) := by
  refine ⟨fun l hl => (by cases hl), fun j n op out _ _ hout => ?_⟩
  simp [Config.start] at hout

theorem keeps_landed (hF : 2 ^ 64 ≤ E.fuel) (hw : WritersOf key progs) :
    Keeps (Config.step E) (Config.Kind E key) (fun _ => True) fun c : Config σ ι =>
      ∃ g, Steady o direct progs g c ∧ c.Landed key progs g := by
  rintro i c ⟨g, h1, h2⟩ ⟨hf, hd, hg⟩
  obtain ⟨c', h3, h4⟩ := landed_step hF hw h1 h2 hf hd hg
  exact ⟨c', h3, fun _ => h4⟩

/-- **Every write of such a run lands**: once all threads are done, a read of the range of a write
that answered `LS_OK` finds its bytes. -/
theorem writes_land (hF : 2 ^ 64 ≤ E.fuel) (hs : Sound s) (hsl : Slack s) (hi : Idle s)
    (hw : WritersOf key progs) (is : List ι)
    (h : Along (Config.step E) (Config.Kind E key) (fun _ => True) is (Config.start s progs)) :
    ∃ c, sched (Config.step E) is (Config.start s progs) = some c ∧
      ((∀ j, (c.thread j).Done) → ∀ j (n : ℕ) op out, (progs j)[n]? = some op →
        op.key? = some key → (c.thread j).outs[n]? = some out → out.rc = .ok → ∀ addr,
        ∃ ans s', (Op.read key (op.startsAt out) op.payload.length addr).call E c.store =
            some (ans, s') ∧
          (clean s'.os ∨ ans.rc = .ok → ans = { rc := .ok, data := op.payload })) := by
  obtain ⟨c, hc, g, h1, h2⟩ := sched_of_along (keeps_landed hF hw) is
    ⟨_, steady_start hs hsl hi progs, landed_start s progs key⟩ h
  refine ⟨c, hc, fun _ j n op out e1 e2 e3 e4 addr => ?_⟩
  obtain ⟨x, g1, g2, g3, g4, ⟨r, hr, hle, hb⟩, -⟩ := h2.lies j n op out e1 e2 e3 e4
  rw [g3] at hle hb
  obtain ⟨ans, s', h3, h4⟩ := read_call hF h1.sound h1.slack (h2.keyOk _ g1 x rfl g2) hr hle addr
  refine ⟨ans, s', h3, fun hok => ?_⟩
  rw [h4 hok, eq_slice hb]

end

end Libspill
