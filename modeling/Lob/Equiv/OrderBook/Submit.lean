import Lob.Equiv.OrderBook.PreWalk

/-!
# Correctness of `submit` and `modify`

A `submit` that passes the checks (`Passes`) is executed: it is filled from the levels `sources`
(`Good.aggress`), and a remainder of a limit order that may rest is inserted.  The other ones
return at once.  `Submits` lists all outcomes (`Good.submit`).

`modify` shrinks the order in place (`Good.modify_shrink`) or is a `cancel` followed by a `submit`
(`Good.modify_submit`).
-/

namespace Lob.OrderBook

open Queues

variable {M : Type} {b : OrderBook M} {A : Queues}

/-! ### The checks -/

variable {o : NewOrder}

/-- The checks that a `submit` fails with `Rejected`. -/
def Rejects (b : OrderBook M) (A : Queues) (o : NewOrder) : Prop :=
  o.qty = 0 ∨ o.id = kInvalidOrderId ∨ A.Rests o.id ∨
    (o.type ≠ .market ∧ b.inRange o.price ≠ true)

theorem inRange_of_not_rejects (h : ¬Rejects b A o) (ht : o.type ≠ .market) :
    b.inRange o.price = true := by
  by_contra hout
  exact h (Or.inr (Or.inr (Or.inr ⟨ht, hout⟩)))

theorem not_rests_of_not_rejects (h : ¬Rejects b A o) : ¬A.Rests o.id :=
  fun hr => h (Or.inr (Or.inr (Or.inl hr)))

/-- The order passes all checks and is executed. -/
structure Passes (b : OrderBook M) (A : Queues) (o : NewOrder) : Prop where
  not_rejects : ¬Rejects b A o
  not_killed : b.fokKills o.side o.type o.tif o.price o.qty = .ok false
  not_crossing : ¬(o.tif = .postOnly ∧ b.wouldCross o.side o.price = true)

theorem Passes.inRange (hp : Passes b A o) (ht : o.type ≠ .market) :
    b.inRange o.price = true :=
  inRange_of_not_rejects hp.not_rejects ht

/-! ### The aggressive phase -/

/-- `would_cross` compares the limit with the best level only. -/
theorem wouldCross_eq_true {side : Side} {price : Price} {k : ℕ}
    (hsize : toSize (price - b.cfg.basePrice) = k) :
    b.wouldCross side price = true ↔ b.bestIdx (opposite side) ≠ kNoBest ∧
      ¬Better (opposite side) k (b.bestIdx (opposite side)) := by
  cases side with
  | buy => simp [wouldCross, hsize, bestIdx, opposite, Better]
  | sell => simp [wouldCross, hsize, bestIdx, opposite, Better]

/-- `would_cross` asks whether there is a level to be filled from. -/
theorem wouldCross_iff (hindex : Index b) (ht : o.type ≠ .market)
    (hprice : b.inRange o.price = true) :
    b.wouldCross o.side o.price = true ↔ b.crossing o ≠ [] := by
  obtain ⟨id, side, type, tif, price, qty, ts⟩ := o
  obtain ⟨k, hk, -, -, hidx, hsize⟩ := inRange_spec hprice
  dsimp only at *
  have hcross : b.wouldCross side price = true ↔ b.bestIdx (opposite side) ≠ kNoBest ∧
      pastLimit side k (b.bestIdx (opposite side)) = false := by
    rw [wouldCross_eq_true hsize, ← Bool.not_eq_true, pastLimit_iff,
      and_iff_right (lt_kNoBest b.cfg hk)]
  unfold crossing limitOf
  dsimp only
  rw [hcross, if_neg ht, hidx]
  by_cases hne : b.bestIdx (opposite side) = kNoBest
  · rw [hindex.visible_nil hne]
    simp [hne, upTo]
  · have hpair := b.visible_pairwise (opposite side)
    rw [hindex.visible_cons hne 0] at hpair ⊢
    cases hpast : pastLimit side k (b.bestIdx (opposite side)) with
    | true =>
      rw [upTo_cons_of_past hpair hpast]
      simp
    | false =>
      rw [upTo_cons_of_within hpast]
      simp [hne]

variable [IdMap M] [IndexedBy M]

/-- The ids of the orders that the order fills in full. -/
def filledIds (b : OrderBook M) (A : Queues) (o : NewOrder) : List OrderId :=
  (Greedy.exhausted Resting.size (A.orders (opposite o.side) (b.sources o)) o.qty.toNat).map
    Resting.id

/-- **The aggressive phase** fills greedily from the sources. -/
theorem Good.aggress (h : Good b A) (hprice : o.type ≠ .market → b.inRange o.price = true)
    (trades : List Trade) (hok : ErasesOk b.idMap (b.filledIds A o)) :
    ∃ b' n' A', (b.aggress o.id o.side o.type o.tif o.price o.qty o.ts).run trades =
        .ok (b', n') (trades ++ o.trades (A.orders (opposite o.side) (b.sources o))) ∧
      n'.toNat = o.qty.toNat -
        Greedy.total Resting.size (A.orders (opposite o.side) (b.sources o)) ∧
      Matched b A (opposite o.side) (b.sources o) o.qty.toNat b' A' := by
  unfold OrderBook.aggress
  unfold filledIds at hok
  by_cases hgo : o.tif ≠ .postOnly ∧ (o.type = .market ∨ b.wouldCross o.side o.price = true)
  · rw [if_pos hgo]
    have hsrc : b.sources o = upTo o.side (b.limitOf o) (b.visible (opposite o.side)) :=
      if_neg hgo.1
    rw [hsrc] at hok ⊢
    exact h.match_ o.qty trades hok
  · rw [if_neg hgo]
    -- `match_` is not called, as there is nothing to be filled from
    have hsrc : b.sources o = [] := by
      unfold sources
      split_ifs with hpost
      · rfl
      · obtain ⟨ht, hcross⟩ := not_or.mp fun hor => hgo ⟨hpost, hor⟩
        by_contra hne
        exact hcross ((wouldCross_iff h.index ht (hprice ht)).mpr hne)
    rw [hsrc]
    exact ⟨b, o.qty, A, by simp [Queues.orders, NewOrder.trades, Greedy.fills], rfl,
      .refl h (Or.inr rfl)⟩

/-! ### Everything a `submit` can do -/

/-- The outcomes of a `submit`.  The last constructor is the failing assertion of
`insert_resting_`. -/
inductive Submits (b : OrderBook M) (A : Queues) (o : NewOrder) (trades : List Trade) :
    EStateM.Result Fault (List Trade) (OrderBook M × SubmitResult) → Prop where
  | rejected (h : Rejects b A o) : Submits b A o trades (.ok (b, ⟨.rejected, 0, 0⟩) trades)
  | killed (h : ¬Rejects b A o) (ht : o.tif = .fok)
    (hk : b.fokKills o.side o.type o.tif o.price o.qty = .ok true) :
    Submits b A o trades (.ok (b, ⟨.cancelled, 0, o.qty⟩) trades)
  | crossing (h : ¬Rejects b A o) (ht : o.tif = .postOnly)
    (hc : b.wouldCross o.side o.price = true) :
    Submits b A o trades (.ok (b, ⟨.cancelled, 0, o.qty⟩) trades)
  | filled {b' : OrderBook M} {A' : Queues} (h : Passes b A o)
    (hm : Matched b A (opposite o.side) (b.sources o) o.qty.toNat b' A')
    (hle : o.qty.toNat ≤
      Greedy.total Resting.size (A.orders (opposite o.side) (b.sources o))) :
    Submits b A o trades (.ok (b', ⟨.fullyFilled, o.qty, 0⟩)
      (trades ++ o.trades (A.orders (opposite o.side) (b.sources o))))
  | dropped {b' : OrderBook M} {A' : Queues} {n : Quantity} (h : Passes b A o)
    (hm : Matched b A (opposite o.side) (b.sources o) o.qty.toNat b' A')
    (hn : n.toNat + Greedy.total Resting.size (A.orders (opposite o.side) (b.sources o)) =
      o.qty.toNat) (hpos : n ≠ 0) (ht : o.tif = .ioc ∨ o.type = .market) :
    Submits b A o trades (.ok (b', ⟨if o.qty - n > 0 then .partiallyFilled else .cancelled,
      o.qty - n, n⟩) (trades ++ o.trades (A.orders (opposite o.side) (b.sources o))))
  | rested {b₁ b' : OrderBook M} {A₁ : Queues} {n : Quantity} {p : Ptr} (h : Passes b A o)
    (hm : Matched b A (opposite o.side) (b.sources o) o.qty.toNat b₁ A₁)
    (hn : n.toNat + Greedy.total Resting.size (A.orders (opposite o.side) (b.sources o)) =
      o.qty.toNat) (hpos : n ≠ 0) (ht : ¬(o.tif = .ioc ∨ o.type = .market))
    (hcfg : b'.cfg = b.cfg)
    (hbit : ∀ t j, b'.bit t j = true ↔ b₁.bit t j = true ∨
      (t = o.side ∧ j = (b.priceToIdx o.price).toNat ∧
        (A₁ o.side (b.priceToIdx o.price).toNat).length % 2 ^ 32 = 0))
    (hgood : Good b' (A₁.set o.side (b.priceToIdx o.price).toNat
      (A₁ o.side (b.priceToIdx o.price).toNat ++ [⟨p, o.id, o.price, n⟩]))) :
    Submits b A o trades (.ok (b', ⟨if o.qty = n then .accepted else .partiallyFilled,
      o.qty - n, n⟩) (trades ++ o.trades (A.orders (opposite o.side) (b.sources o))))
  | full {b₁ : OrderBook M} {A₁ : Queues} (h : Passes b A o)
    (hm : Matched b A (opposite o.side) (b.sources o) o.qty.toNat b₁ A₁)
    (hlt : Greedy.total Resting.size (A.orders (opposite o.side) (b.sources o)) < o.qty.toNat)
    (ht : ¬(o.tif = .ioc ∨ o.type = .market)) (hfull : b₁.openOrders = b₁.cfg.maxOrders) :
    Submits b A o trades (.error .slabExhausted
      (trades ++ o.trades (A.orders (opposite o.side) (b.sources o))))

/-- The order is filled in part or not at all, and a remainder `n` is left of it. -/
theorem remainder_add {n : Quantity} {total : ℕ} (hn : n.toNat = o.qty.toNat - total)
    (hpos : n ≠ 0) : n.toNat + total = o.qty.toNat := by
  have hne : n.toNat ≠ 0 := fun hz => hpos (UInt32.toNat_inj.mp hz)
  omega

/-- An order that passes the checks is executed. -/
theorem Good.execute (h : Good b A) (hp : Passes b A o) (trades : List Trade)
    (hok : ErasesOk b.idMap (b.filledIds A o)) :
    Submits b A o trades ((b.execute o.id o.side o.type o.tif o.price o.qty o.ts).run trades) := by
  obtain ⟨b₁, n, A₁, hrun, hn, hm⟩ := h.aggress hp.inRange trades hok
  unfold OrderBook.execute
  rw [sink_bind hrun]
  dsimp only
  by_cases hzero : n = 0
  · subst hzero
    rw [if_pos rfl]
    exact .filled hp hm (Nat.sub_eq_zero_iff_le.mp hn.symm)
  have hsum := remainder_add hn hzero
  rw [if_neg hzero]
  by_cases hdrop : o.tif = .ioc ∨ o.type = .market
  · rw [if_pos hdrop]
    exact .dropped hp hm hsum hzero hdrop
  have hlimit : o.type ≠ .market := fun ht => hdrop (Or.inr ht)
  have hid : o.id ≠ kInvalidOrderId := fun hid => hp.not_rejects (Or.inr (Or.inl hid))
  -- a fill makes no id rest that did not
  have hnew : ¬A₁.Rests o.id :=
    fun hr => not_rests_of_not_rejects hp.not_rejects (hm.rests h.core hr)
  have hn0 : 0 < n.toNat := Nat.pos_of_ne_zero fun hz => hzero (UInt32.toNat_inj.mp hz)
  have hidx := priceToIdx_congr hm.cfg_eq o.price
  have hprice₁ := (inRange_congr hm.cfg_eq o.price).trans (hp.inRange hlimit)
  rw [if_neg hdrop]
  rcases Nat.lt_or_ge b₁.openOrders b₁.cfg.maxOrders with hroom | hfull
  · obtain ⟨b', p, hins, hcfg, hbit, hgood⟩ :=
      hm.good.insertResting hroom hid hnew hprice₁ hn0 (congrArg UInt32.toNat hidx)
    rw [sink_bind (quiet_ok hins _)]
    exact .rested hp hm hsum hzero hdrop (hcfg.trans hm.cfg_eq) hbit hgood
  · have hfull' := Nat.le_antisymm hm.good.core.openOrders_le hfull
    rw [sink_bind_error (quiet_error (hm.good.core.insertResting_full hfull' _ _ _ _) _)]
    exact .full hp hm (by omega) hdrop hfull'

/-- An order that passes the checks is executed, and nothing else is done. -/
theorem Good.submitOrder_eq (h : Good b A) (hp : Passes b A o) (trades : List Trade) :
    (b.submitOrder o).run trades =
      (b.execute o.id o.side o.type o.tif o.price o.qty o.ts).run trades := by
  have hbad : ¬(o.qty = 0 ∨ o.id = kInvalidOrderId) :=
    fun hor => hp.not_rejects (hor.imp_right Or.inl)
  have hfind := h.find_none (IndexedBy.findOk_of_ne _ fun hid => hbad (Or.inr hid))
    (not_rests_of_not_rejects hp.not_rejects)
  have hprice : ¬(o.type ≠ .market ∧ ¬b.inRange o.price = true) :=
    fun hcon => hcon.2 (hp.inRange hcon.1)
  unfold submitOrder OrderBook.submit
  rw [if_neg hbad, sink_bind (quiet_ok hfind _)]
  dsimp only
  rw [if_neg hprice, sink_bind (quiet_ok hp.not_killed _), if_neg Bool.false_ne_true,
    if_neg hp.not_crossing]

/-- **Everything a `submit` can do.** -/
theorem Good.submit (h : Good b A) (o : NewOrder) (trades : List Trade)
    (hok : Passes b A o → ErasesOk b.idMap (b.filledIds A o)) :
    Submits b A o trades ((b.submitOrder o).run trades) := by
  unfold submitOrder OrderBook.submit
  by_cases hbad : o.qty = 0 ∨ o.id = kInvalidOrderId
  · rw [if_pos hbad]
    exact .rejected (hbad.imp_right Or.inl)
  rw [if_neg hbad]
  obtain ⟨hqty, hid⟩ := not_or.mp hbad
  by_cases hrests : A.Rests o.id
  · obtain ⟨p, hbinds⟩ := rests_iff.mp hrests
    have hfind := find_ok (h.indexed.find_some hbinds)
    rw [sink_bind (quiet_ok hfind _)]
    exact .rejected (Or.inr (Or.inr (Or.inl hrests)))
  rw [sink_bind (quiet_ok (h.find_none (IndexedBy.findOk_of_ne _ hid) hrests) _)]
  dsimp only
  by_cases hprice : o.type ≠ .market ∧ ¬b.inRange o.price = true
  · rw [if_pos hprice]
    exact .rejected (Or.inr (Or.inr (Or.inr hprice)))
  rw [if_neg hprice]
  have hnot : ¬Rejects b A o := by
    unfold Rejects
    tauto
  obtain ⟨k, hk, hkill⟩ := h.core.fokKills h.index o
  rw [sink_bind (quiet_ok hk _)]
  cases k with
  | true =>
    rw [if_pos rfl]
    exact .killed hnot (hkill.mp rfl).1 hk
  | false =>
    rw [if_neg Bool.false_ne_true]
    by_cases hpost : o.tif = .postOnly ∧ b.wouldCross o.side o.price = true
    · rw [if_pos hpost]
      exact .crossing hnot hpost.1 hpost.2
    · rw [if_neg hpost]
      have hp : Passes b A o := ⟨hnot, hk, hpost⟩
      exact h.execute hp trades (hok hp)

theorem Good.submit_rejects (h : Good b A) (hr : Rejects b A o) (trades : List Trade) :
    (b.submitOrder o).run trades = .ok (b, ⟨.rejected, 0, 0⟩) trades := by
  have hs := h.submit o trades fun hp => absurd hr hp.not_rejects
  -- the other outcomes need an order that is not rejected
  generalize (b.submitOrder o).run trades = x at hs ⊢
  cases hs with
  | rejected => rfl
  | killed hnot | crossing hnot => exact absurd hr hnot
  | filled hp | dropped hp | rested hp | full hp => exact absurd hr hp.not_rejects

omit [IndexedBy M] in
/-- An order that may rest and does not cross is inserted, and nothing else is done. -/
theorem submitOrder_passive {b' : OrderBook M} (hqty : o.qty ≠ 0) (hid : o.id ≠ kInvalidOrderId)
    (hfind : b.find o.id = .ok none) (ht : o.type = .limit) (hfok : o.tif ≠ .fok)
    (hioc : o.tif ≠ .ioc) (hprice : b.inRange o.price = true)
    (hcross : b.wouldCross o.side o.price = false)
    (hinsert : b.insertResting o.id o.side o.price o.qty = .ok b') (trades : List Trade) :
    (b.submitOrder o).run trades = .ok (b', ⟨.accepted, 0, o.qty⟩) trades := by
  have hlimit : o.type ≠ .market := by
    rw [ht]
    nofun
  have hkills : b.fokKills o.side o.type o.tif o.price o.qty = .ok false := if_neg hfok
  have haggress : (b.aggress o.id o.side o.type o.tif o.price o.qty o.ts).run trades =
      .ok (b, o.qty) trades := by
    unfold OrderBook.aggress
    rw [if_neg fun hgo => ?_]
    · rfl
    · rcases hgo.2 with hmarket | hcross'
      · exact hlimit hmarket
      · rw [hcross] at hcross'
        cases hcross'
  unfold submitOrder OrderBook.submit
  rw [if_neg (not_or.mpr ⟨hqty, hid⟩), sink_bind (quiet_ok hfind _)]
  dsimp only
  rw [if_neg fun hcon => hcon.2 hprice, sink_bind (quiet_ok hkills _), if_neg Bool.false_ne_true,
    hcross, if_neg fun hcon => Bool.false_ne_true hcon.2]
  unfold OrderBook.execute
  rw [sink_bind haggress]
  dsimp only
  rw [if_neg hqty, if_neg (not_or.mpr ⟨hioc, hlimit⟩), sink_bind (quiet_ok hinsert _),
    UInt32.sub_self, if_pos rfl]
  rfl

/-! ### `modify` -/

section Modify

variable {s : Side} {i : ℕ} {r : Resting} {xs ys : List Resting}
  {newQty : Quantity} {newPrice : Price}

theorem Good.modify_none (h : Good b A) {id : OrderId} (hok : IndexedBy.FindOk b.idMap id)
    (hr : ¬A.Rests id) (newQty : Quantity) (newPrice : Price) (ts : Timestamp)
    (trades : List Trade) :
    (b.modify id newQty newPrice ts).run trades = .ok (b, ⟨.rejected, 0, 0⟩) trades := by
  unfold OrderBook.modify
  rw [sink_bind (quiet_ok (h.find_none hok hr) _)]
  rfl

theorem Good.modify_shrink (h : Good b A) (hq : A s i = xs ++ r :: ys)
    (hin : r.InPlace newQty newPrice) {b' : OrderBook M}
    (hshrink : b.shrinkOrder r.slot (b.slab.storage r.slot).value newQty (r.qty - newQty) =
      .ok b') (ts : Timestamp) (trades : List Trade) :
    (b.modify r.id newQty newPrice ts).run trades = .ok (b', ⟨.accepted, 0, newQty⟩) trades := by
  have hr := h.core.placed s i r (by simp [hq])
  unfold Resting.InPlace at hin
  unfold OrderBook.modify
  rw [sink_bind (quiet_ok (h.find_some hq) _)]
  dsimp only
  rw [sink_bind (quiet_ok (h.read_eq hq) _), hr.price_eq, hr.quantity_eq, if_pos hin,
    sink_bind (quiet_ok hshrink _)]
  rfl

/-- A `modify` that cannot keep the order in its place cancels it and submits another one. -/
theorem Good.modify_submit (h : Good b A) (hq : A s i = xs ++ r :: ys)
    (hin : ¬r.InPlace newQty newPrice) {b' : OrderBook M}
    (hdrop : b.dropOrder r.id r.slot = .ok b') (ts : Timestamp) (trades : List Trade) :
    (b.modify r.id newQty newPrice ts).run trades =
      (b'.submitOrder (r.replacement s newQty newPrice ts)).run trades := by
  have hr := h.core.placed s i r (by simp [hq])
  unfold Resting.InPlace at hin
  unfold OrderBook.modify
  rw [sink_bind (quiet_ok (h.find_some hq) _)]
  dsimp only
  rw [sink_bind (quiet_ok (h.read_eq hq) _), hr.price_eq, hr.quantity_eq, if_neg hin,
    sink_bind (quiet_ok (h.cancel_eq hq hdrop) _), hr.side_eq]
  rfl

end Modify

end Lob.OrderBook
