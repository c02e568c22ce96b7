import Lob.Equiv.OrderBook.Priority
import Mathlib.Algebra.Order.BigOperators.Group.List

/-!
# What a `submit` reports

`Outcome` says what an order that is not fill-or-kill comes to, by its type and time-in-force: how
much of it is filled, which status is reported and what rests.  It holds if and only if the levels
whose bit is set have as much for the order as all levels have (`Reachable.outcome_iff`).

A `submit` that reports that nothing happened has left the book as it was
(`Reachable.noEffect_iff`).
-/

namespace Lob.OrderBook

open Queues

variable {M : Type} {b b' : OrderBook M} {A A' : Queues} {o : NewOrder} {s : Side}
  {trades trades' : List Trade} {res : SubmitResult}

/-! ### What there is for an order -/

/-- The exact quantity on the other side at or better than the limit. -/
def available (b : OrderBook M) (o : NewOrder) : ℕ := Greedy.total Resting.size (b.reference o)

/-- The part of it that is at levels whose bit is set. -/
def shown (b : OrderBook M) (o : NewOrder) : ℕ :=
  Greedy.total Resting.size ((b.reference o).filter fun r =>
    b.bit (opposite o.side) (b.priceToIdx r.price).toNat)

/-- The levels whose bit is set have as much for the order as all levels have. -/
def ShowsEnough (b : OrderBook M) (o : NewOrder) : Prop :=
  if o.tif = .postOnly then o.type = .limit → 0 < b.available o → 0 < b.shown o
  else min o.qty.toNat (b.shown o) = min o.qty.toNat (b.available o)

theorem total_filter_le (q : List Resting) (p : Resting → Bool) :
    Greedy.total Resting.size (q.filter p) ≤ Greedy.total Resting.size q := by
  induction q with
  | nil => exact Nat.le_refl 0
  | cons r q ih =>
    rw [Greedy.total_cons, List.filter_cons]
    split_ifs
    · rw [Greedy.total_cons]
      exact Nat.add_le_add_left ih _
    · exact Nat.le_add_left_of_le ih

theorem shown_le (b : OrderBook M) (o : NewOrder) : b.shown o ≤ b.available o :=
  total_filter_le _ _

/-- What is shown is what the levels that cross have. -/
theorem Core.shown_eq (h : Core b A none)
    (hprice : o.type ≠ .market → b.inRange o.price = true) :
    b.shown o = Greedy.total Resting.size (A.orders (opposite o.side) (b.crossing o)) := by
  unfold shown
  rw [h.reference_eq hprice, crossing_eq]
  refine congrArg (Greedy.total Resting.size) (filter_orders fun i r hr => ?_)
  rw [h.priceToIdx_eq hr]

section Good

variable [IdMap M] [IndexedBy M]

/-- Levels whose bit is set have orders. -/
theorem Good.shown_pos_iff (h : Good b A) (hprice : o.type ≠ .market → b.inRange o.price = true) :
    0 < b.shown o ↔ b.crossing o ≠ [] := by
  rw [h.core.shown_eq hprice]
  constructor
  · intro hpos hnil
    rw [hnil] at hpos
    exact absurd hpos (Nat.lt_irrefl 0)
  · intro hne
    obtain ⟨i, ls, hcross⟩ := List.exists_cons_of_ne_nil hne
    have hi : i ∈ b.crossing o := by rw [hcross]; exact List.mem_cons_self
    rw [crossing_eq] at hi
    obtain ⟨r, rest, hq⟩ := List.exists_cons_of_ne_nil
      (h.backed _ _ (List.mem_filter.mp hi).2)
    have hr := h.positive _ _ r (by rw [hq]; exact List.mem_cons_self)
    rw [hcross, orders_cons, hq, Greedy.total_append, Greedy.total_cons]
    omega

/-- What an order that passes the checks is filled from. -/
theorem Good.total_sources (h : Good b A)
    (hprice : o.type ≠ .market → b.inRange o.price = true) :
    Greedy.total Resting.size (A.orders (opposite o.side) (b.sources o)) =
      if o.tif = .postOnly then 0 else b.shown o := by
  unfold sources
  split_ifs with hpost
  · rfl
  · exact (h.core.shown_eq hprice).symm

/-- A fill adds no order to a level. -/
theorem Matched.length_le {ls : List ℕ} {n : ℕ} (hm : Matched b A s ls n b' A') (t : Side)
    (j : ℕ) : (A' t j).length ≤ (A t j).length := by
  by_cases htj : t = s ∧ j ∈ ls
  · obtain ⟨rfl, hj⟩ := htj
    obtain ⟨pre, post, hls⟩ := List.append_of_mem hj
    rw [hm.level_eq pre j post hls]
    exact Greedy.length_leftover_le _ _ _ _
  · rw [hm.other_eq t j htj]

/-- A fill takes no slot of the slab. -/
theorem Matched.openOrders_le {ls : List ℕ} {n : ℕ} (h : Good b A)
    (hm : Matched b A s ls n b' A') : b'.openOrders ≤ b.openOrders := by
  rw [hm.good.core.openOrders_eq_sum, h.core.openOrders_eq_sum, hm.cfg_eq]
  exact List.sum_le_sum fun i _ => Nat.add_le_add (hm.length_le _ i) (hm.length_le _ i)

end Good

/-! ### Market orders -/

section Market

variable [IdMap M]

/-- The price of a market order is not looked at once it is executed. -/
theorem execute_market (b : OrderBook M) (id : OrderId) (side : Side) (tif : TimeInForce)
    (price price' : Price) (qty : Quantity) (ts : Timestamp) :
    b.execute id side .market tif price qty ts = b.execute id side .market tif price' qty ts := by
  unfold execute aggress
  simp only [true_or, or_true, if_true, and_true]

/-- A post-only market order is executed without effect. -/
theorem execute_kept_out (b : OrderBook M) (id : OrderId) (side : Side) (price : Price)
    {qty : Quantity} (hqty : qty ≠ 0) (ts : Timestamp) :
    b.execute id side .market .postOnly price qty ts = pure (b, ⟨.cancelled, 0, qty⟩) := by
  unfold execute aggress
  rw [if_neg (by simp)]
  show (if qty = 0 then _ else _ : SinkM (OrderBook M × SubmitResult)) = _
  have hzero : ¬qty - qty > 0 := by rw [UInt32.sub_self]; exact UInt32.lt_irrefl 0
  rw [if_neg hqty, if_pos (Or.inr rfl)]
  dsimp only
  rw [if_neg hzero, UInt32.sub_self]

theorem submit_market (b : OrderBook M) (id : OrderId) (side : Side) (tif : TimeInForce)
    (price price' : Price) (qty : Quantity) (ts : Timestamp) :
    b.submit id side .market tif price qty ts = b.submit id side .market tif price' qty ts := by
  unfold submit
  by_cases hbad : qty = 0 ∨ id = kInvalidOrderId
  · rw [if_pos hbad, if_pos hbad]
  have hqty : qty ≠ 0 := fun hz => hbad (Or.inl hz)
  rw [if_neg hbad, if_neg hbad]
  congr 1
  funext found
  cases found with
  | some p => rfl
  | none =>
    have hmarket : ∀ p : Price, ¬(OrderType.market ≠ .market ∧ ¬b.inRange p = true) := by simp
    have hfok : b.fokKills side .market tif price qty =
        b.fokKills side .market tif price' qty := by
      unfold fokKills
      simp only [if_true]
    dsimp only
    rw [if_neg (hmarket price), if_neg (hmarket price'), hfok]
    congr 1
    funext killed
    cases killed with
    | true => rw [if_pos rfl, if_pos rfl]
    | false =>
      rw [if_neg Bool.false_ne_true, if_neg Bool.false_ne_true]
      by_cases hpost : tif = .postOnly
      · -- either check comes to the same
        subst hpost
        rw [execute_kept_out b id side price hqty ts, execute_kept_out b id side price' hqty ts]
        split_ifs <;> rfl
      · rw [if_neg fun h => hpost h.1, if_neg fun h => hpost h.1]
        exact execute_market b id side tif price price' qty ts
end Market

/-! ### The outcome -/

/-- **The outcome of a `submit`** that is not rejected, for every type and time-in-force but
fill-or-kill. -/
structure Outcome [IdMap M] (b : OrderBook M) (o : NewOrder) (b' : OrderBook M)
    (res : SubmitResult) : Prop where
  sum_eq : res.filledQty.toNat + res.remainingQty.toNat = o.qty.toNat
  filled_eq : res.filledQty.toNat =
    if o.tif = .postOnly then 0 else min o.qty.toNat (b.available o)
  fullyFilled_iff : res.status = .fullyFilled ↔ res.filledQty = o.qty
  drops : o.type = .market ∨ o.tif = .ioc → ¬b'.queue.Rests o.id ∧
    (res.status = .partiallyFilled ↔ 0 < res.filledQty ∧ res.filledQty < o.qty) ∧
    (res.status = .cancelled ↔ res.filledQty = 0)
  kept_out : o.type = .limit → o.tif = .postOnly → 0 < b.available o →
    res.status = .cancelled ∧ ¬b'.queue.Rests o.id
  filled : res.filledQty = o.qty → ¬b'.queue.Rests o.id
  rests : o.type = .limit → o.tif ≠ .ioc → (o.tif = .postOnly → b.available o = 0) →
    res.filledQty ≠ o.qty →
      (∃ p, b'.queue o.side (b.priceToIdx o.price).toNat =
        b.queue o.side (b.priceToIdx o.price).toNat ++ [⟨p, o.id, o.price, res.remainingQty⟩]) ∧
      (res.status = .accepted ↔ res.filledQty = 0) ∧
      (res.status = .partiallyFilled ↔ res.filledQty ≠ 0)
  price_ignored : o.type = .market → ∀ price trades,
    (b.submitOrder { o with price }).run trades = (b.submitOrder o).run trades

section Cases

theorem showsEnough_iff (hpost : o.tif ≠ .postOnly) : ShowsEnough b o ↔
    min o.qty.toNat (b.shown o) = min o.qty.toNat (b.available o) := by
  unfold ShowsEnough
  rw [if_neg hpost]

theorem qty_ne_zero (hr : ¬Rejects b A o) : o.qty ≠ 0 := fun hz => hr (Or.inl hz)

theorem qty_pos (hr : ¬Rejects b A o) : 0 < o.qty.toNat :=
  Nat.pos_of_ne_zero fun hz => qty_ne_zero hr (UInt32.toNat_inj.mp hz)

/-- What is filled of an order of which `n` is left. -/
theorem toNat_filled {n : Quantity} {total : ℕ} (hn : n.toNat + total = o.qty.toNat) :
    (o.qty - n).toNat = total := by
  rw [UInt32.toNat_sub_of_le _ _ (UInt32.le_iff_toNat_le.mpr (by omega))]
  omega

theorem filled_eq_zero_iff {n : Quantity} {total : ℕ} (hn : n.toNat + total = o.qty.toNat) :
    o.qty - n = 0 ↔ total = 0 := by
  rw [← UInt32.toNat_inj, toNat_filled hn]
  rfl

theorem filled_ne {n : Quantity} {total : ℕ} (hn : n.toNat + total = o.qty.toNat) (hpos : n ≠ 0) :
    o.qty - n ≠ o.qty := by
  intro heq
  have hz := congrArg UInt32.toNat heq
  rw [toNat_filled hn] at hz
  exact hpos (UInt32.toNat_inj.mp (show n.toNat = 0 by omega))

/-- Of an order that is not filled in full, everything that shows is filled. -/
theorem filled_eq_min {n : Quantity} (hpost : o.tif ≠ .postOnly)
    (hn : n.toNat + (if o.tif = .postOnly then 0 else b.shown o) = o.qty.toNat) :
    (o.qty - n).toNat = min o.qty.toNat (b.shown o) := by
  have hfilled := toNat_filled hn
  rw [if_neg hpost] at hn hfilled
  omega

/-- All that there is is filled if enough of it shows. -/
theorem filled_eq_available {n : Quantity} (henough : ShowsEnough b o)
    (hn : n.toNat + (if o.tif = .postOnly then 0 else b.shown o) = o.qty.toNat) :
    (o.qty - n).toNat = if o.tif = .postOnly then 0 else min o.qty.toNat (b.available o) := by
  split_ifs with hpost
  · rw [toNat_filled hn, if_pos hpost]
  · rw [filled_eq_min hpost hn]
    exact (showsEnough_iff hpost).mp henough

theorem showsEnough_of_filled_eq {n : Quantity} (hpost : o.tif ≠ .postOnly)
    (hn : n.toNat + (if o.tif = .postOnly then 0 else b.shown o) = o.qty.toNat)
    (heq : (o.qty - n).toNat =
      if o.tif = .postOnly then 0 else min o.qty.toNat (b.available o)) : ShowsEnough b o := by
  rw [if_neg hpost, filled_eq_min hpost hn] at heq
  exact (showsEnough_iff hpost).mpr heq

variable [IdMap M]

theorem submitOrder_price (ht : o.type = .market) (price : Price) (trades : List Trade) :
    (b.submitOrder { o with price }).run trades = (b.submitOrder o).run trades := by
  unfold submitOrder
  rw [ht, submit_market b o.id o.side o.tif price o.price o.qty o.ts]

variable [IndexedBy M]

/-- An order that is filled in full. -/
theorem Good.outcome_filled (h : Good b A) (hp : Passes b A o)
    (hm : Matched b A (opposite o.side) (b.sources o) o.qty.toNat b' A')
    (hle : o.qty.toNat ≤ Greedy.total Resting.size (A.orders (opposite o.side) (b.sources o))) :
    Outcome b o b' ⟨.fullyFilled, o.qty, 0⟩ ∧ ShowsEnough b o := by
  have hqty := qty_pos hp.not_rejects
  have hshown := shown_le b o
  have hgone : ¬b'.queue.Rests o.id := by
    rw [hm.good.core.queue_eq]
    exact fun hrests => not_rests_of_not_rejects hp.not_rejects (hm.rests h.core hrests)
  rw [h.total_sources hp.inRange] at hle
  -- a post-only order is filled from nothing
  have hpost : o.tif ≠ .postOnly := by
    intro hpost
    rw [if_pos hpost] at hle
    omega
  rw [if_neg hpost] at hle
  refine ⟨?_, ?_⟩
  · constructor
    · exact Nat.add_zero _
    · rw [if_neg hpost, min_eq_left (hle.trans hshown)]
    · exact iff_of_true rfl rfl
    · intro _
      refine ⟨hgone, iff_of_false nofun fun hlt => UInt32.lt_irrefl _ hlt.2, ?_⟩
      exact iff_of_false nofun (qty_ne_zero hp.not_rejects)
    · exact fun _ hcon => absurd hcon hpost
    · exact fun _ => hgone
    · exact fun _ _ _ hne => absurd rfl hne
    · exact fun ht price trades => submitOrder_price ht price trades
  · rw [showsEnough_iff hpost, min_eq_left hle, min_eq_left (hle.trans hshown)]

/-- An order whose remainder is dropped. -/
theorem Good.outcome_dropped (h : Good b A) (hp : Passes b A o) {n : Quantity}
    (hm : Matched b A (opposite o.side) (b.sources o) o.qty.toNat b' A')
    (hn : n.toNat + Greedy.total Resting.size (A.orders (opposite o.side) (b.sources o)) =
      o.qty.toNat) (hpos : n ≠ 0) (ht : o.tif = .ioc ∨ o.type = .market) :
    Outcome b o b' ⟨if o.qty - n > 0 then .partiallyFilled else .cancelled, o.qty - n, n⟩ ↔
      ShowsEnough b o := by
  have hgone : ¬b'.queue.Rests o.id := by
    rw [hm.good.core.queue_eq]
    exact fun hrests => not_rests_of_not_rejects hp.not_rejects (hm.rests h.core hrests)
  have hnpos : 0 < n.toNat := Nat.pos_of_ne_zero fun hz => hpos (UInt32.toNat_inj.mp hz)
  rw [h.total_sources hp.inRange] at hn
  have hfilled := toNat_filled hn
  have hne := filled_ne hn hpos
  have hlt : o.qty - n < o.qty := by
    rw [UInt32.lt_iff_toNat_lt, hfilled]
    omega
  -- the order is no post-only limit order
  have hkind : o.type = .limit → o.tif ≠ .postOnly := by
    intro hlimit hpost
    simp [hlimit, hpost] at ht
  constructor
  · intro hout
    by_cases hpost : o.tif = .postOnly
    · unfold ShowsEnough
      rw [if_pos hpost]
      exact fun hlimit => absurd hpost (hkind hlimit)
    · exact showsEnough_of_filled_eq hpost hn hout.filled_eq
  · intro henough
    constructor
    · show (o.qty - n).toNat + n.toNat = o.qty.toNat
      omega
    · exact filled_eq_available henough hn
    · refine iff_of_false (fun hfull => ?_) hne
      dsimp only at hfull
      split_ifs at hfull
    · intro _
      refine ⟨hgone, ?_, ?_⟩
      · dsimp only
        split_ifs with hzero
        · exact iff_of_true rfl ⟨hzero, hlt⟩
        · exact iff_of_false nofun fun hcon => hzero hcon.1
      · dsimp only
        split_ifs with hzero
        · exact iff_of_false nofun (UInt32.pos_iff_ne_zero.mp hzero)
        · refine iff_of_true rfl ?_
          by_contra hne'
          exact hzero (UInt32.pos_iff_ne_zero.mpr hne')
    · exact fun hlimit hpost => absurd hpost (hkind hlimit)
    · exact fun hcon => absurd hcon hne
    · intro hlimit hioc
      rcases ht with ht | ht
      · exact absurd ht hioc
      · rw [hlimit] at ht
        cases ht
    · exact fun ht price trades => submitOrder_price ht price trades

/-- An order whose remainder rests. -/
theorem Good.outcome_rested (h : Good b A) (hp : Passes b A o) {b₁ : OrderBook M} {A₁ : Queues}
    {n : Quantity} {p : Ptr}
    (hm : Matched b A (opposite o.side) (b.sources o) o.qty.toNat b₁ A₁)
    (hn : n.toNat + Greedy.total Resting.size (A.orders (opposite o.side) (b.sources o)) =
      o.qty.toNat) (hpos : n ≠ 0) (ht : ¬(o.tif = .ioc ∨ o.type = .market))
    (hgood : Good b' (A₁.set o.side (b.priceToIdx o.price).toNat
      (A₁ o.side (b.priceToIdx o.price).toNat ++ [⟨p, o.id, o.price, n⟩]))) :
    Outcome b o b' ⟨if o.qty = n then .accepted else .partiallyFilled, o.qty - n, n⟩ ↔
      ShowsEnough b o := by
  have hnpos : 0 < n.toNat := Nat.pos_of_ne_zero fun hz => hpos (UInt32.toNat_inj.mp hz)
  have hlimit : o.type = .limit := by
    cases htype : o.type with
    | limit => rfl
    | market => exact absurd (Or.inr htype) ht
  have hshows := h.shown_pos_iff hp.inRange
  rw [h.total_sources hp.inRange] at hn
  have hfilled := toNat_filled hn
  have hne := filled_ne hn hpos
  -- a post-only order rests only if no level is shown that it crosses
  have hcross : o.tif = .postOnly → b.shown o = 0 := by
    intro hpost
    by_contra hne'
    refine hp.not_crossing ⟨hpost, ?_⟩
    exact (wouldCross_iff h.index (by simp [hlimit]) (hp.inRange (by simp [hlimit]))).mpr
      (hshows.mp (Nat.pos_of_ne_zero hne'))
  have heq : o.qty = n ↔ o.qty - n = 0 := by
    rw [filled_eq_zero_iff hn, ← UInt32.toNat_inj]
    omega
  constructor
  · intro hout
    by_cases hpost : o.tif = .postOnly
    · unfold ShowsEnough
      rw [if_pos hpost]
      intro _ havail
      have hcancelled := (hout.kept_out hlimit hpost havail).1
      dsimp only at hcancelled
      split_ifs at hcancelled
    · exact showsEnough_of_filled_eq hpost hn hout.filled_eq
  · intro henough
    constructor
    · show (o.qty - n).toNat + n.toNat = o.qty.toNat
      omega
    · exact filled_eq_available henough hn
    · refine iff_of_false (fun hfull => ?_) hne
      dsimp only at hfull
      split_ifs at hfull
    · exact fun hor => absurd hor.symm ht
    · intro _ hpost havail
      unfold ShowsEnough at henough
      rw [if_pos hpost, hcross hpost] at henough
      exact absurd (henough hlimit havail) (Nat.lt_irrefl 0)
    · exact fun hcon => absurd hcon hne
    · intro _ _ _ _
      refine ⟨⟨p, ?_⟩, ?_, ?_⟩
      · -- the order's own side is not touched by the fill
        rw [hgood.core.queue_eq, set_self, h.core.queue_eq,
          hm.other_eq _ _ fun hcon => opposite_ne _ hcon.1.symm]
      · dsimp only
        split_ifs with hqn
        · exact iff_of_true rfl (heq.mp hqn)
        · exact iff_of_false nofun fun hz => hqn (heq.mpr hz)
      · dsimp only
        split_ifs with hqn
        · exact iff_of_false nofun fun hz => hz (heq.mp hqn)
        · exact iff_of_true rfl fun hz => hqn (heq.mpr hz)
    · intro hmarket
      rw [hlimit] at hmarket
      cases hmarket

/-- A post-only order that would cross. -/
theorem Good.outcome_crossing (h : Good b A) (hr : ¬Rejects b A o) (hpost : o.tif = .postOnly)
    (hc : b.wouldCross o.side o.price = true) :
    Outcome b o b ⟨.cancelled, 0, o.qty⟩ ∧ ShowsEnough b o := by
  have hgone : ¬b.queue.Rests o.id := by
    rw [h.core.queue_eq]
    exact not_rests_of_not_rejects hr
  have hshown : o.type = .limit → 0 < b.shown o := by
    intro hlimit
    have hprice := inRange_of_not_rejects hr (by simp [hlimit])
    refine (h.shown_pos_iff fun _ => hprice).mpr ?_
    exact (wouldCross_iff h.index (by simp [hlimit]) hprice).mp hc
  have hne : (0 : Quantity) ≠ o.qty := (qty_ne_zero hr).symm
  refine ⟨?_, ?_⟩
  · constructor
    · exact Nat.zero_add _
    · rw [if_pos hpost]
      rfl
    · exact iff_of_false nofun hne
    · exact fun _ => ⟨hgone, iff_of_false nofun fun hcon => UInt32.lt_irrefl _ hcon.1,
        iff_of_true rfl rfl⟩
    · exact fun _ _ _ => ⟨rfl, hgone⟩
    · exact fun hcon => absurd hcon hne
    · intro hlimit _ havail
      have hle := shown_le b o
      have hpos := hshown hlimit
      rw [havail hpost] at hle
      omega
    · exact fun ht price trades => submitOrder_price ht price trades
  · unfold ShowsEnough
    rw [if_pos hpost]
    exact fun hlimit _ => hshown hlimit

end Cases

/-- **An order that is not fill-or-kill**, submitted to a book that is not full, has the outcome of
its type and time-in-force if and only if the levels whose bit is set have enough for it. -/
theorem Reachable.outcome_iff {M : Type} [LawfulIdMap M] {cfg : Config} {b : OrderBook M}
    (h : Reachable cfg b) (hroom : b.openOrders < b.cfg.maxOrders) {o : NewOrder}
    (htif : o.tif ≠ .fok) (trades : List Trade) :
    ∃ b' res new, (b.submitOrder o).run trades = .ok (b', res) (trades ++ new) ∧
      (res.status ≠ .rejected → (Outcome b o b' res ↔ ShowsEnough b o)) := by
  obtain ⟨hgood, -⟩ := h.good
  have hs := hgood.submit o trades fun _ => erasesOk_of_lawful _ _
  generalize (b.submitOrder o).run trades = x at hs ⊢
  cases hs with
  | rejected => exact ⟨b, _, [], by rw [List.append_nil], fun hrej => absurd rfl hrej⟩
  | killed _ hfok => exact absurd hfok htif
  | crossing hr hpost hc =>
    obtain ⟨hout, henough⟩ := hgood.outcome_crossing hr hpost hc
    exact ⟨b, _, [], by rw [List.append_nil], fun _ => iff_of_true hout henough⟩
  | filled hp hm hle =>
    obtain ⟨hout, henough⟩ := hgood.outcome_filled hp hm hle
    exact ⟨_, _, _, rfl, fun _ => iff_of_true hout henough⟩
  | dropped hp hm hn hpos ht =>
    exact ⟨_, _, _, rfl, fun _ => hgood.outcome_dropped hp hm hn hpos ht⟩
  | rested hp hm hn hpos ht _ _ hgood' =>
    exact ⟨_, _, _, rfl, fun _ => hgood.outcome_rested hp hm hn hpos ht hgood'⟩
  | full _ hm _ _ hfull =>
    have hle := hm.openOrders_le hgood
    rw [hfull, hm.cfg_eq] at hle
    exact absurd hroom (not_lt.mpr hle)

theorem tradedBook_outcome_iff :
    ∃ b' res new,
      (tradedBook.submitOrder (gtcOrder 3 .buy 1 5)).run [] = .ok (b', res) ([] ++ new) ∧
      (res.status ≠ .rejected →
        (Outcome tradedBook (gtcOrder 3 .buy 1 5) b' res ↔
          ShowsEnough tradedBook (gtcOrder 3 .buy 1 5))) :=
  tradedBook_reachable.outcome_iff (by decide) (by decide) []

/-- A bid at the price of the hidden asks is not filled, although there is enough for it. -/
theorem hiddenAsks_not_filled :
    ¬∀ (cfg : Config) (b : OrderBook PlainIdMap) (o : NewOrder) (trades : List Trade),
      0 ≤ cfg.basePrice.toInt → Reachable cfg b → b.openOrders < b.cfg.maxOrders → o.tif ≠ .fok →
      ∃ b' res new, (b.submitOrder o).run trades = .ok (b', res) (trades ++ new) ∧
        (res.status ≠ .rejected → Outcome b o b' res) := by
  intro hall
  obtain ⟨b, h, hbits⟩ := hiddenAsks
  obtain ⟨hgood, hcfg⟩ := h.reachable.good
  obtain ⟨b', p, hrun, -⟩ :=
    h.submit_rests (by omega) (2 ^ 32 + 2) (by decide) .buy (fun i => hbits _ i) []
  have hroom : b.openOrders < b.cfg.maxOrders := by
    rw [h.openOrders_eq, hcfg]
    decide
  obtain ⟨b'', res, new, hrun', hout⟩ := hall _ b (gtcOrder (2 ^ 32 + 2) .buy 0 1) [] (by decide)
    h.reachable hroom (by decide)
  rw [hrun] at hrun'
  cases hrun'
  have hfilled := (hout (by decide)).filled_eq
  -- there is an ask that the bid accepts
  obtain ⟨r, hr⟩ := h.exists_reference (by decide) (2 ^ 32 + 2)
  have hpos := hgood.reference_pos hr
  have havail := Greedy.size_le_total Resting.size hr
  change 0 = min 1 (b.available _) at hfilled
  unfold available at hfilled
  omega

/-! ### No effect -/

section Effect

variable [IdMap M] [IndexedBy M]

/-- Without levels to be filled from, the aggressive phase does nothing. -/
theorem Good.aggress_nothing (h : Good b A) (hsrc : b.sources o = []) (trades : List Trade) :
    (b.aggress o.id o.side o.type o.tif o.price o.qty o.ts).run trades = .ok (b, o.qty) trades := by
  unfold OrderBook.aggress
  by_cases hgo : o.tif ≠ .postOnly ∧ (o.type = .market ∨ b.wouldCross o.side o.price = true)
  · rw [if_pos hgo]
    have hnil : upTo o.side (b.limitOf o) (b.visible (opposite o.side)) = [] := by
      unfold sources at hsrc
      rwa [if_neg hgo.1] at hsrc
    -- the loop stops at once, as there is no best level or it is past the limit
    have hpast : b.bestIdx (opposite o.side) ≠ kNoBest →
        pastLimit o.side (b.limitOf o) (b.bestIdx (opposite o.side)) = true := by
      intro hne
      by_contra hwithin
      rw [h.index.visible_cons hne 0, upTo_cons_of_within (Bool.not_eq_true _ ▸ hwithin)] at hnil
      cases hnil
    have hloop : (OrderBook.matchLoop o.side (b.limitOf o) o.id o.ts (b.cfg.numLevels + 1) b
        (b.bestIdx (opposite o.side)) o.qty).run trades = .ok (b, o.qty) trades := by
      rw [OrderBook.matchLoop]
      split_ifs with hne hlim
      · rfl
      · exact absurd (hpast hne.1) hlim
      · rfl
    obtain ⟨id, side, type, tif, price, qty, ts⟩ := o
    cases side with
    | buy => exact hloop
    | sell => exact hloop
  · rw [if_neg hgo]
    rfl

/-- An order that may not rest and finds nothing is executed without effect. -/
theorem Good.submit_nothing (h : Good b A) (hp : Passes b A o) (hsrc : b.sources o = [])
    (ht : o.tif = .ioc ∨ o.type = .market) (trades : List Trade) :
    (b.submitOrder o).run trades = .ok (b, ⟨.cancelled, 0, o.qty⟩) trades := by
  have hzero : ¬o.qty - o.qty > 0 := by
    rw [UInt32.sub_self]
    exact UInt32.lt_irrefl 0
  rw [h.submitOrder_eq hp]
  unfold OrderBook.execute
  rw [sink_bind (h.aggress_nothing hsrc trades)]
  dsimp only
  rw [if_neg (qty_ne_zero hp.not_rejects), if_pos ht, if_neg hzero, UInt32.sub_self]
  rfl

/-- An order that is filled with nothing had nothing to be filled from. -/
theorem Good.sources_eq_nil (h : Good b A) (hprice : o.type ≠ .market → b.inRange o.price = true)
    (hz : Greedy.total Resting.size (A.orders (opposite o.side) (b.sources o)) = 0) :
    b.sources o = [] := by
  rw [h.total_sources hprice] at hz
  unfold sources
  split_ifs at hz ⊢ with hpost
  · rfl
  · by_contra hne
    have hpos := (h.shown_pos_iff hprice).mpr hne
    omega

/-- **The status tells whether anything happened.** -/
structure ReportsEffect (b : OrderBook M) (o : NewOrder) (trades : List Trade) (b' : OrderBook M)
    (res : SubmitResult) (trades' : List Trade) : Prop where
  unchanged : res.status = .rejected ∨ res.status = .cancelled →
    trades' = trades ∧ res.filledQty = 0 ∧ b' = b
  changed : ¬(res.status = .rejected ∨ res.status = .cancelled) →
    (∃ t new, trades' = trades ++ t :: new) ∨ (¬b.queue.Rests o.id ∧ b'.queue.Rests o.id)

omit [IdMap M] [IndexedBy M] in
/-- A fill of something is a trade at least. -/
theorem trades_eq_cons {q : List Resting} (hqty : 0 < o.qty.toNat)
    (htotal : 0 < Greedy.total Resting.size q) : ∃ t new, o.trades q = t :: new := by
  have hsum := sum_trades o q
  cases htrades : o.trades q with
  | cons t new => exact ⟨t, new, rfl⟩
  | nil =>
    rw [htrades] at hsum
    change 0 = min _ _ at hsum
    omega

theorem Good.reports (h : Good b b.queue) (hok : ∀ ids, ErasesOk b.idMap ids)
    (hrun : (b.submitOrder o).run trades = .ok (b', res) trades') :
    ReportsEffect b o trades b' res trades' := by
  have hs := h.submit o trades fun _ => hok _
  have hnothing : (b.submitOrder o).run trades = .ok (b, ⟨.cancelled, 0, o.qty⟩) trades →
      ReportsEffect b o trades b' res trades' := by
    intro hrun'
    rw [hrun] at hrun'
    cases hrun'
    exact ⟨fun _ => ⟨rfl, rfl, rfl⟩, fun hne => absurd (Or.inr rfl) hne⟩
  rw [hrun] at hs
  cases hs with
  | rejected hr => exact ⟨fun _ => ⟨rfl, rfl, rfl⟩, fun hne => absurd (Or.inl rfl) hne⟩
  | killed | crossing => exact ⟨fun _ => ⟨rfl, rfl, rfl⟩, fun hne => absurd (Or.inr rfl) hne⟩
  | filled hp hm hle =>
    obtain ⟨t, new, htrades⟩ := trades_eq_cons (q := b.queue.orders (opposite o.side) (b.sources o))
      (qty_pos hp.not_rejects) ((qty_pos hp.not_rejects).trans_le hle)
    refine ⟨fun hcon => ?_, fun _ => Or.inl ⟨t, new, by rw [htrades]⟩⟩
    rcases hcon with hcon | hcon <;> cases hcon
  | dropped hp hm hn hpos ht =>
    rcases Nat.eq_zero_or_pos
      (Greedy.total Resting.size (b.queue.orders (opposite o.side) (b.sources o))) with hz | htotal
    · -- nothing was there to be filled from, so that the matching loop changed nothing
      exact hnothing (h.submit_nothing hp (h.sources_eq_nil hp.inRange hz) ht trades)
    · obtain ⟨t, new, htrades⟩ := trades_eq_cons (qty_pos hp.not_rejects) htotal
      refine ⟨fun hcon => ?_, fun _ => Or.inl ⟨t, new, by rw [htrades]⟩⟩
      have hfilled : o.qty - _ > 0 := UInt32.pos_iff_ne_zero.mpr fun hz =>
        htotal.ne' ((filled_eq_zero_iff hn).mp hz)
      dsimp only at hcon
      rw [if_pos hfilled] at hcon
      rcases hcon with hcon | hcon <;> cases hcon
  | @rested _ _ _ n p hp hm hn hpos ht _ _ hgood =>
    refine ⟨fun hcon => ?_, fun _ => Or.inr ⟨not_rests_of_not_rejects hp.not_rejects, ?_⟩⟩
    · dsimp only at hcon
      split_ifs at hcon <;> rcases hcon with hcon | hcon <;> cases hcon
    · rw [hgood.core.queue_eq]
      exact ⟨o.side, (b.priceToIdx o.price).toNat, ⟨p, o.id, o.price, n⟩,
        by rw [set_self]; exact List.mem_append_right _ (List.mem_singleton_self _), rfl⟩

end Effect

/-- **A `submit` that reports no effect has none**, and one that reports an effect has one. -/
theorem Reachable.reportsEffect {M : Type} [LawfulIdMap M] {cfg : Config} {b b' : OrderBook M}
    (h : Reachable cfg b) {o : NewOrder} {trades trades' : List Trade} {res : SubmitResult}
    (hrun : (b.submitOrder o).run trades = .ok (b', res) trades') :
    ReportsEffect b o trades b' res trades' :=
  h.good.1.reports (fun _ => erasesOk_of_lawful _ _) hrun

/-- An order that is not filled at all, since the best ask is above its limit. -/
theorem tradedBook_reportsEffect :
    ∃ b' trades', (tradedBook.submitOrder { gtcOrder 3 .buy 0 2 with tif := .ioc }).run [] =
        .ok (b', ⟨.cancelled, 0, 2⟩) trades' ∧
      ReportsEffect tradedBook { gtcOrder 3 .buy 0 2 with tif := .ioc } [] b' ⟨.cancelled, 0, 2⟩
        trades' := by
  have hresult : tradedBook.result { gtcOrder 3 .buy 0 2 with tif := .ioc } =
      some ⟨.cancelled, 0, 2⟩ := by decide
  obtain ⟨b', trades', hrun⟩ := result_eq_some hresult
  exact ⟨b', trades', hrun, tradedBook_reachable.reportsEffect hrun⟩

end Lob.OrderBook
