import Lob.Equiv.OrderBook.HiddenLevel

/-!
# Fill-or-kill orders

A fill-or-kill order is filled in full or not at all and never rests (`Reachable.allOrNothing`):
what the pre-walk finds is there, whatever its 32-bit sums have lost.  They may lose so much that
an order is killed although the book could fill it (`fok_killed_by_overflow`); it is filled if and
only if the sums that the pre-walk makes reach its quantity (`Reachable.fillsIfPossible_iff`).
-/

namespace Lob.OrderBook

open Queues

variable {M : Type} [IdMap M] {b b' : OrderBook M} {A : Queues} {o : NewOrder}
  {trades trades' : List Trade}

/-! ### The pre-walk and the fill -/

/-- The quantities of the trades add up to what is filled. -/
theorem sum_trades (o : NewOrder) (q : List Resting) :
    ((o.trades q).map fun t => t.quantity.toNat).sum =
      min o.qty.toNat (Greedy.total Resting.size q) := by
  have hqty := o.qty.toNat_lt
  unfold NewOrder.trades
  rw [List.map_map, ← Greedy.sum_fills]
  refine congrArg List.sum (List.map_congr_left fun f hf => ?_)
  -- no fill is larger than the order
  have hle := Greedy.fills_le _ hf
  show (UInt32.ofNat f.2).toNat = f.2
  rw [UInt32.toNat_ofNat']
  omega

section Good

variable [IndexedBy M]

/-- An order that is killed does not find its quantity on the visible levels. -/
theorem Good.fokKills_iff (h : Good b A) (hbase : 0 ≤ b.cfg.basePrice.toInt)
    (htif : o.tif = .fok) (hprice : o.type ≠ .market → b.inRange o.price = true) :
    ∃ k, b.fokKills o.side o.type o.tif o.price o.qty = .ok k ∧
      (k = false ↔ Reaches A (opposite o.side) (b.crossing o) 0 o.qty.toNat) := by
  obtain ⟨k, hk, hkill⟩ := h.core.fokKills h.index o
  rw [filter_walkLimit h.index hbase hprice, and_iff_right htif] at hkill
  refine ⟨k, hk, ?_⟩
  rw [← Bool.not_eq_true, hkill, not_not]

/-- A fill-or-kill order that is executed can be filled. -/
theorem Passes.le_total (h : Good b A) (hbase : 0 ≤ b.cfg.basePrice.toInt) (hp : Passes b A o)
    (htif : o.tif = .fok) :
    o.qty.toNat ≤ Greedy.total Resting.size (A.orders (opposite o.side) (b.sources o)) := by
  obtain ⟨k, hk, hreach⟩ := h.fokKills_iff hbase htif hp.inRange
  obtain rfl : k = false := Except.ok.inj (hk.symm.trans hp.not_killed)
  have hsrc : b.sources o = b.crossing o := if_neg (by simp [htif])
  rw [hsrc]
  exact (hreach.mp rfl).le_total

/-- With enough to fill from, nothing is left of the order. -/
theorem Passes.no_remainder (h : Good b A) (hbase : 0 ≤ b.cfg.basePrice.toInt)
    (hp : Passes b A o) (htif : o.tif = .fok) {n : Quantity} (hn : n.toNat +
      Greedy.total Resting.size (A.orders (opposite o.side) (b.sources o)) = o.qty.toNat) :
    n = 0 := by
  have hle := hp.le_total h hbase htif
  exact UInt32.toNat_inj.mp (show n.toNat = 0 by omega)

/-- **A pre-walk that succeeds** is followed by a complete fill. -/
theorem Good.match_of_canFullyFill (h : Good b A) (hbase : 0 ≤ b.cfg.basePrice.toInt)
    (hprice : o.type ≠ .market → b.inRange o.price = true) (trades : List Trade)
    (hok : ErasesOk b.idMap ((Greedy.exhausted Resting.size (A.orders (opposite o.side)
      (b.crossing o)) o.qty.toNat).map Resting.id))
    (hwalk : b.canFullyFill o.side (if o.type = .market then kInvalidPrice else o.price) o.qty =
      .ok true) :
    ∃ b' trades', (OrderBook.match_ o.side b (b.limitOf o) o.qty o.id o.ts).run trades =
      .ok (b', 0) trades' := by
  obtain ⟨r, hr, hreach⟩ := h.core.canFullyFill h.index o.side
    (if o.type = .market then kInvalidPrice else o.price) o.qty
  obtain rfl : r = true := Except.ok.inj (hr.symm.trans hwalk)
  rw [filter_walkLimit h.index hbase hprice] at hreach
  obtain ⟨b', n, A', hrun, hn, -⟩ := h.match_ o.qty trades hok
  have hle := (hreach.mp rfl).le_total
  have hzero : n = 0 := UInt32.toNat_inj.mp (hn.trans (Nat.sub_eq_zero_of_le hle))
  rw [hzero] at hrun
  exact ⟨b', _, hrun⟩

end Good

/-! ### All or nothing -/

/-- The order is rejected; or nothing is traded; or trades for exactly its quantity are made.  An
order that is not rejected does not rest. -/
def AllOrNothing (o : NewOrder) (b' : OrderBook M) (res : SubmitResult) (new : List Trade) :
    Prop :=
  res.status = .rejected ∨
    (((res.status = .cancelled ∧ res.filledQty = 0 ∧ new = []) ∨
      (res.status = .fullyFilled ∧ res.filledQty = o.qty ∧
        (new.map fun t => t.quantity.toNat).sum = o.qty.toNat)) ∧ ¬b'.queue.Rests o.id)

theorem Submits.fills_all_or_nothing [IndexedBy M] (h : Good b A)
    (hbase : 0 ≤ b.cfg.basePrice.toInt) (htif : o.tif = .fok)
    {x : EStateM.Result Fault (List Trade) (OrderBook M × SubmitResult)}
    (hs : Submits b A o trades x) :
    ∃ b' res new, x = .ok (b', res) (trades ++ new) ∧ AllOrNothing o b' res new := by
  cases hs with
  | rejected => exact ⟨b, _, [], by rw [List.append_nil], Or.inl rfl⟩
  | killed hr =>
    refine ⟨b, _, [], by rw [List.append_nil], Or.inr ⟨Or.inl ⟨rfl, rfl, rfl⟩, ?_⟩⟩
    rw [h.core.queue_eq]
    exact not_rests_of_not_rejects hr
  | crossing _ hpost => simp [htif] at hpost
  | filled hp hm hle =>
    refine ⟨_, _, _, rfl, Or.inr ⟨Or.inr ⟨rfl, rfl, ?_⟩, ?_⟩⟩
    · rw [sum_trades, min_eq_left hle]
    · rw [hm.good.core.queue_eq]
      exact fun hrests => not_rests_of_not_rejects hp.not_rejects (hm.rests h.core hrests)
  | dropped hp _ hn hpos => exact absurd (hp.no_remainder h hbase htif hn) hpos
  | rested hp _ hn hpos => exact absurd (hp.no_remainder h hbase htif hn) hpos
  | full hp _ hlt =>
    have hle := hp.le_total h hbase htif
    omega

/-- **Fill-or-kill is all or nothing**, for every reachable book. -/
theorem Reachable.allOrNothing {M : Type} [LawfulIdMap M] {cfg : Config} {b : OrderBook M}
    (hbase : 0 ≤ cfg.basePrice.toInt) (h : Reachable cfg b) {o : NewOrder} (htif : o.tif = .fok)
    (trades : List Trade) :
    (∃ b' res new, (b.submitOrder o).run trades = .ok (b', res) (trades ++ new) ∧
      AllOrNothing o b' res new) ∧
    ((o.type ≠ .market → b.inRange o.price = true) →
      b.canFullyFill o.side (if o.type = .market then kInvalidPrice else o.price) o.qty =
        .ok true →
      ∃ b' trades', (match_ o.side b (b.limitOf o) o.qty o.id o.ts).run trades =
        .ok (b', 0) trades') := by
  obtain ⟨hgood, hcfg⟩ := h.good
  rw [← hcfg] at hbase
  constructor
  · have hs := hgood.submit o trades fun _ => erasesOk_of_lawful _ _
    exact hs.fills_all_or_nothing hgood hbase htif
  · intro hprice hwalk
    exact hgood.match_of_canFullyFill hbase hprice trades (erasesOk_of_lawful _ _) hwalk

/-- A fill-or-kill bid for the two that are left of the ask. -/
def fokBid : NewOrder := { gtcOrder 3 .buy 1 2 with tif := .fok }

theorem tradedBook_allOrNothing :
    (∃ b' res new, (tradedBook.submitOrder fokBid).run [] = .ok (b', res) ([] ++ new) ∧
      AllOrNothing fokBid b' res new) ∧
    ((fokBid.type ≠ .market → tradedBook.inRange fokBid.price = true) →
      tradedBook.canFullyFill fokBid.side
        (if fokBid.type = .market then kInvalidPrice else fokBid.price) fokBid.qty = .ok true →
      ∃ b' trades', (match_ fokBid.side tradedBook (tradedBook.limitOf fokBid) fokBid.qty fokBid.id
        fokBid.ts).run [] = .ok (b', 0) trades') :=
  tradedBook_reachable.allOrNothing (by decide) rfl []

/-! ### Orders that are killed -/

/-- **The order is filled if the book can fill it**: the orders at or better than its limit have,
taken exactly, its quantity. -/
def FillsIfPossible (b : OrderBook M) (o : NewOrder) : Prop :=
  o.qty.toNat ≤ Greedy.total Resting.size (b.reference o) →
    ∀ trades, ∃ b' res trades', (b.submitOrder o).run trades = .ok (b', res) trades' ∧
      res.status = .fullyFilled

theorem Submits.fullyFilled_iff [IndexedBy M] (h : Good b A) (hbase : 0 ≤ b.cfg.basePrice.toInt)
    (htif : o.tif = .fok) (hr : ¬Rejects b A o)
    {x : EStateM.Result Fault (List Trade) (OrderBook M × SubmitResult)}
    (hs : Submits b A o trades x) :
    (∃ b' res trades', x = .ok (b', res) trades' ∧ res.status = .fullyFilled) ↔
      Reaches A (opposite o.side) (b.crossing o) 0 o.qty.toNat := by
  -- the outcome is decided by the pre-walk alone
  obtain ⟨k, hk, hreach⟩ := h.fokKills_iff hbase htif (inRange_of_not_rejects hr)
  rw [← hreach]
  cases hs with
  | rejected hrej => exact absurd hrej hr
  | killed _ _ hkill =>
    obtain rfl : k = true := Except.ok.inj (hk.symm.trans hkill)
    refine iff_of_false ?_ nofun
    rintro ⟨_, _, _, heq, hfull⟩
    cases heq
    cases hfull
  | crossing _ hpost => simp [htif] at hpost
  | filled hp =>
    exact iff_of_true ⟨_, _, _, rfl, rfl⟩ (Except.ok.inj (hk.symm.trans hp.not_killed))
  | dropped hp _ hn hpos => exact absurd (hp.no_remainder h hbase htif hn) hpos
  | rested hp _ hn hpos => exact absurd (hp.no_remainder h hbase htif hn) hpos
  | full hp _ hlt =>
    have hle := hp.le_total h hbase htif
    omega

/-- **A fill-or-kill order that passes the other checks is filled if possible** if and only if the
book cannot fill it, or the sum of the quantities on some of the first visible levels that it
crosses reaches its quantity in 32 bits. -/
theorem Reachable.fillsIfPossible_iff {M : Type} [LawfulIdMap M] {cfg : Config} {b : OrderBook M}
    (hbase : 0 ≤ cfg.basePrice.toInt) (h : Reachable cfg b) {o : NewOrder} (htif : o.tif = .fok)
    (hr : ¬Rejects b b.queue o) :
    FillsIfPossible b o ↔ Greedy.total Resting.size (b.reference o) < o.qty.toNat ∨
      Reaches b.queue (opposite o.side) (b.crossing o) 0 o.qty.toNat := by
  obtain ⟨hgood, hcfg⟩ := h.good
  rw [← hcfg] at hbase
  have hfilled := fun trades =>
    (hgood.submit o trades fun _ => erasesOk_of_lawful _ _).fullyFilled_iff hgood hbase htif hr
  unfold FillsIfPossible
  constructor
  · intro hfills
    refine or_iff_not_imp_left.mpr fun hlt => ?_
    exact (hfilled []).mp (hfills (not_lt.mp hlt) [])
  · rintro (hlt | hreach) hle trades
    · exact absurd hle (not_le.mpr hlt)
    · exact (hfilled trades).mpr hreach

theorem fokBid_not_rejects {b : OrderBook PlainIdMap} (h : Reachable smallConfig b)
    (hfind : b.find 3 = .ok none) : ¬Rejects b b.queue fokBid := by
  obtain ⟨hgood, hcfg⟩ := h.good
  have hrange : b.inRange 1 = true := by
    unfold OrderBook.inRange
    rw [hcfg]
    decide
  rintro (hqty | hid | hrests | ⟨-, hout⟩)
  · cases hqty
  · cases hid
  · exact (hgood.find_none_iff (by decide)).mp hfind hrests
  · exact hout hrange

theorem tradedBook_fillsIfPossible_iff :
    FillsIfPossible tradedBook fokBid ↔
      Greedy.total Resting.size (tradedBook.reference fokBid) < fokBid.qty.toNat ∨
        Reaches tradedBook.queue (opposite fokBid.side) (tradedBook.crossing fokBid) 0
          fokBid.qty.toNat :=
  tradedBook_reachable.fillsIfPossible_iff (by decide) rfl
    (fokBid_not_rejects tradedBook_reachable (by decide))

/-- Two asks at one price, for half of the range of a quantity each. -/
def halfAsks : OrderBook PlainIdMap :=
  ((new smallConfig).after (.submit (gtcOrder 1 .sell 1 0x80000000))).after
    (.submit (gtcOrder 2 .sell 1 0x80000000))

/-- The total of the level is zero in 32 bits, and a bid for two is killed. -/
theorem fok_killed_by_overflow :
    ¬∀ (cfg : Config) (b : OrderBook PlainIdMap) (o : NewOrder), 0 ≤ cfg.basePrice.toInt →
      Reachable cfg b → o.tif = .fok → ¬Rejects b b.queue o → FillsIfPossible b o := by
  intro hall
  have hrun : Reachable smallConfig halfAsks :=
    (Run.new.after trivial (by decide)).after trivial (by decide)
  have hle : fokBid.qty.toNat ≤ Greedy.total Resting.size (halfAsks.reference fokBid) := by decide
  have hfills := hall _ _ fokBid (by decide) hrun rfl (fokBid_not_rejects hrun (by decide))
  -- the book answers otherwise
  have hkilled : halfAsks.result fokBid = some ⟨.cancelled, 0, 2⟩ := by decide
  obtain ⟨b', trades', hsubmit⟩ := result_eq_some hkilled
  obtain ⟨b'', res, trades'', hsubmit', hfull⟩ := hfills hle []
  rw [hsubmit] at hsubmit'
  cases hsubmit'
  cases hfull

end Lob.OrderBook
