import Lob.Equiv.OrderBook.Market

/-!
# The engine is the market

Every call on the engine does what the same call does on its market (`Good.answer_market`), with the
same answer, the same trades and the same failure, and so does every run of calls
(`Faithful.answers_market`).  The levels with orders are to show, which they do in a book for fewer
than `2 ^ 32` orders, and the quantity that a fill-or-kill order finds is to fit into 32 bits.
-/

namespace Lob

/-! ### Calls on the market -/

namespace Market

open OrderBook (Answer)

def answer (cfg : Config) (m : Market) : Call → SinkM (Market × Answer)
  | .submit o => do
    let (m, res) ← m.submit cfg o
    return (m, .submitted res)
  | .cancel id => return (m.amend id fun _ => none, .found (m.Rests id))
  | .reduce id delta => return (m.amend id fun e => e.reduce delta, .found (m.Rests id))
  | .modify id newQty newPrice ts => do
    let (m, res) ← m.modify cfg id newQty newPrice ts
    return (m, .submitted res)

/-- The calls, one after the other. -/
def answers (cfg : Config) (m : Market) : List Call → SinkM (Market × List Answer)
  | [] => return (m, [])
  | c :: cs => do
    let (m, a) ← m.answer cfg c
    let (m, as) ← answers cfg m cs
    return (m, a :: as)

/-- The market after a call that returns. -/
def next (cfg : Config) (m : Market) (c : Call) : Option Market :=
  match (m.answer cfg c).run [] with
  | .ok (m', _) _ => some m'
  | .error _ _ => none

/-- The quantity that each fill-or-kill order of a run finds fits into 32 bits. -/
def countable (cfg : Config) : Market → List Call → Bool
  | _, [] => true
  | m, c :: cs => decide (m.Countable c) &&
    match m.next cfg c with
    | some m' => countable cfg m' cs
    | none => true

variable {m : Market} {o : NewOrder} {cfg : Config}

theorem amend_of_not_rests {id : OrderId} (h : ¬m.Rests id) (f : Entry → Option Entry) :
    m.amend id f = m := by
  funext s
  unfold amend
  rw [List.filterMap_congr (g := some), List.filterMap_some]
  intro e he
  refine if_neg fun hid => h ?_
  rw [← hid]
  exact mem_rests he

theorem remainder_of_add {n : Quantity} (h : n.toNat + m.available o = o.qty.toNat) :
    m.remainder o = n := by
  have hsub : o.qty.toNat - m.available o = n.toNat := by omega
  unfold remainder
  rw [hsub, UInt32.ofNat_toNat]

theorem remainder_of_le (h : o.qty.toNat ≤ m.available o) : m.remainder o = 0 := by
  unfold remainder
  rw [Nat.sub_eq_zero_of_le h]
  rfl

theorem remainder_ne_zero (h : m.available o < o.qty.toNat) : m.remainder o ≠ 0 := by
  have hqty := o.qty.toNat_lt
  have hlt : (UInt32.ofNat (o.qty.toNat - m.available o)).toNat = o.qty.toNat - m.available o := by
    rw [UInt32.toNat_ofNat']
    omega
  intro hz
  unfold remainder at hz
  rw [hz] at hlt
  have hzero : (0 : UInt32).toNat = 0 := rfl
  omega

theorem size_rest (m : Market) (o : NewOrder) (n : Quantity) : (m.rest o n).size = m.size + 1 := by
  unfold size rest
  cases o.side with
  | buy =>
    rw [Function.update_self, Function.update_of_ne (by decide), List.orderedInsert_length]
    omega
  | sell =>
    rw [Function.update_self, Function.update_of_ne (by decide), List.orderedInsert_length]
    omega

theorem submit_refused (h : m.Refuses o cfg) (ts : List Trade) :
    (m.submit cfg o).run ts = .ok (m, ⟨.rejected, 0, 0⟩) ts := by
  unfold submit
  rw [if_pos h]
  rfl

theorem submit_killed (h : ¬m.Refuses o cfg) (hk : m.Kills o) (ts : List Trade) :
    (m.submit cfg o).run ts = .ok (m, ⟨.cancelled, 0, o.qty⟩) ts := by
  unfold submit
  rw [if_neg h, if_pos hk]
  rfl

theorem submit_executed (h : ¬m.Refuses o cfg) (hk : ¬m.Kills o) (ts : List Trade) :
    (m.submit cfg o).run ts = (m.settle cfg o).run (ts ++ m.trades o) := by
  unfold submit
  rw [if_neg h, if_neg hk]
  rfl

variable {n : Quantity} (hn : m.remainder o = n) (ts : List Trade)

include hn

theorem settle_filled (hz : n = 0) :
    (m.settle cfg o).run ts = .ok (m.fill o, ⟨.fullyFilled, o.qty, 0⟩) ts := by
  unfold settle
  dsimp only
  rw [hn, if_pos hz]
  rfl

theorem settle_dropped (hz : n ≠ 0) (hd : o.tif = .ioc ∨ o.type = .market) :
    (m.settle cfg o).run ts = .ok (m.fill o,
      ⟨if n = o.qty then .cancelled else .partiallyFilled, o.qty - n, n⟩) ts := by
  unfold settle
  dsimp only
  rw [hn, if_neg hz, if_pos hd]
  rfl

theorem settle_full (hz : n ≠ 0) (hd : ¬(o.tif = .ioc ∨ o.type = .market))
    (hfull : (m.fill o).size = cfg.maxOrders) :
    (m.settle cfg o).run ts = .error .slabExhausted ts := by
  unfold settle
  dsimp only
  rw [hn, if_neg hz, if_neg hd, if_pos hfull]
  rfl

theorem settle_rested (hz : n ≠ 0) (hd : ¬(o.tif = .ioc ∨ o.type = .market))
    (hroom : (m.fill o).size ≠ cfg.maxOrders) :
    (m.settle cfg o).run ts = .ok ((m.fill o).rest o n,
      ⟨if n = o.qty then .accepted else .partiallyFilled, o.qty - n, n⟩) ts := by
  unfold settle
  dsimp only
  rw [hn, if_neg hz, if_neg hd, if_neg hroom]
  rfl

omit hn

/-! ### The trades made before -/

/-- A result with the trades `ts` before its own. -/
def after {α : Type} (ts : List Trade) : EStateM.Result Fault (List Trade) α →
    EStateM.Result Fault (List Trade) α
  | .ok a ts' => .ok a (ts ++ ts')
  | .error e ts' => .error e (ts ++ ts')

variable (cfg m o)

theorem settle_run (ts ts' : List Trade) :
    (m.settle cfg o).run (ts ++ ts') = after ts ((m.settle cfg o).run ts') := by
  unfold settle
  dsimp only
  split_ifs <;> rfl

theorem submit_run : (m.submit cfg o).run ts = after ts ((m.submit cfg o).run []) := by
  by_cases h : m.Refuses o cfg
  · rw [submit_refused h, submit_refused h, after, List.append_nil]
  by_cases hk : m.Kills o
  · rw [submit_killed h hk, submit_killed h hk, after, List.append_nil]
  · rw [submit_executed h hk, submit_executed h hk, settle_run]
    rfl

theorem modify_run (id : OrderId) (newQty : Quantity) (newPrice : Price) (t : Timestamp) :
    (m.modify cfg id newQty newPrice t).run ts =
      after ts ((m.modify cfg id newQty newPrice t).run []) := by
  have hpure : ∀ r : Market × SubmitResult,
      (.ok r ts : EStateM.Result Fault (List Trade) _) = after ts (.ok r []) := fun r => by
    rw [after, List.append_nil]
  unfold modify
  cases m.find id with
  | none => exact hpure _
  | some found =>
    dsimp only
    split_ifs
    · exact hpure _
    · exact submit_run ..

theorem after_map {α β : Type} {x : SinkM α} (h : x.run ts = after ts (x.run [])) (f : α → β) :
    (do let a ← x; return f a : SinkM β).run ts =
      after ts ((do let a ← x; return f a : SinkM β).run []) := by
  cases hx : x.run [] with
  | ok a ts' =>
    rw [hx] at h
    rw [OrderBook.sink_bind h, OrderBook.sink_bind hx]
    rfl
  | error e ts' =>
    rw [hx] at h
    rw [OrderBook.sink_bind_error h, OrderBook.sink_bind_error hx]
    rfl

/-- **A call does not see the trades made before.** -/
theorem answer_run (c : Call) :
    (m.answer cfg c).run ts = after ts ((m.answer cfg c).run []) := by
  cases c with
  | submit o => exact after_map ts (submit_run ..) _
  | cancel id =>
    show (.ok _ ts : EStateM.Result Fault (List Trade) _) = .ok _ (ts ++ [])
    rw [List.append_nil]
  | reduce id delta =>
    show (.ok _ ts : EStateM.Result Fault (List Trade) _) = .ok _ (ts ++ [])
    rw [List.append_nil]
  | modify id newQty newPrice t => exact after_map ts (modify_run ..) _

variable {cfg m ts}

theorem next_eq {c : Call} {m' : Market} {a : Answer} {ts' : List Trade}
    (h : (m.answer cfg c).run ts = .ok (m', a) ts') : m.next cfg c = some m' := by
  rw [answer_run] at h
  unfold next
  cases hx : (m.answer cfg c).run [] with
  | ok r ts₁ =>
    rw [hx] at h
    cases h
    rfl
  | error e ts₁ =>
    rw [hx] at h
    cases h

end Market

/-! ### The checks of `submit` -/

namespace OrderBook

open Queues

variable {M : Type} {b b' : OrderBook M} {A A' : Queues} {s : Side} {i : ℕ} {r : Resting}
  {xs ys : List Resting} {o : NewOrder} {id : OrderId} {c : Call}

theorem inRange_iff_lists (hbase : 0 ≤ b.cfg.basePrice.toInt) {p : Price} :
    b.inRange p = true ↔ b.cfg.Lists p := by
  constructor
  · intro hp
    obtain ⟨i, hi, -, hprice, -, -⟩ := inRange_spec hp
    exact ⟨by omega, by omega⟩
  · rintro ⟨hlow, hhigh⟩
    have hp := p.toInt_lt
    exact inRange_of_level (i := (p.toInt - b.cfg.basePrice.toInt).toNat) (by omega) (by omega)
      (by omega)

/-- The pre-walk finds a quantity that fits into 32 bits if it is there. -/
theorem reaches_iff_of_lt {ls : List ℕ} {qty : ℕ} (hqty : 0 < qty)
    (hlt : Greedy.total Resting.size (A.orders s ls) < 2 ^ 32) :
    Reaches A s ls 0 qty ↔ qty ≤ Greedy.total Resting.size (A.orders s ls) := by
  refine ⟨Reaches.le_total, fun hle => ⟨ls.length, ?_, le_rfl, ?_⟩⟩
  · refine List.length_pos_of_ne_nil ?_
    rintro rfl
    exact absurd (hqty.trans_le hle) (lt_irrefl 0)
  · rwa [List.take_length, Nat.zero_add, Nat.mod_eq_of_lt hlt]

section Good

variable [IdMap M] [IndexedBy M]

theorem Good.market_refuses_iff (h : Good b b.queue) (hbase : 0 ≤ b.cfg.basePrice.toInt) :
    b.market.Refuses o b.cfg ↔ Rejects b b.queue o := by
  unfold Market.Refuses Rejects
  rw [← inRange_iff_lists hbase]
  exact or_congr_right (or_congr_right (or_congr_left h.core.market_rests_iff))

theorem Good.fokKills_market (h : Good b b.queue) (hv : Visible b b.queue)
    (hbase : 0 ≤ b.cfg.basePrice.toInt) (hr : ¬Rejects b b.queue o) (htif : o.tif = .fok)
    (hcount : b.market.available o < 2 ^ 32) {k : Bool}
    (hk : b.fokKills o.side o.type o.tif o.price o.qty = .ok k) :
    k = true ↔ b.market.available o < o.qty.toNat := by
  have hprice := inRange_of_not_rejects hr
  obtain ⟨k', hk', hreach⟩ := h.fokKills_iff hbase htif hprice
  obtain rfl : k' = k := Except.ok.inj (hk'.symm.trans hk)
  rw [market_available, ← hv.orders_crossing h.core hprice] at hcount ⊢
  rw [← Bool.not_eq_false, hreach, reaches_iff_of_lt (qty_pos hr) hcount, not_le]

/-- An order that passes the checks of the engine is executed in the market, unless it is
post-only and a market order. -/
theorem Passes.market_not_kills (hp : Passes b b.queue o) (h : Good b b.queue)
    (hv : Visible b b.queue) (hbase : 0 ≤ b.cfg.basePrice.toInt)
    (hkind : o.tif = .postOnly → o.type ≠ .market) : ¬b.market.Kills o := by
  rintro (⟨htif, hlt⟩ | ⟨htif, hmarket | hne⟩)
  · -- what the pre-walk has found is there
    have hle := hp.le_total h hbase htif
    have hsrc : b.sources o = b.crossing o := if_neg (by simp [htif])
    rw [hsrc, hv.orders_crossing h.core hp.inRange, ← market_available] at hle
    omega
  · exact hkind htif hmarket
  · have ht := hkind htif
    refine hp.not_crossing ⟨htif, (wouldCross_iff h.index ht (hp.inRange ht)).mpr fun hnil => ?_⟩
    rw [market_matching, ← hv.orders_crossing h.core hp.inRange, hnil] at hne
    exact hne rfl

/-- The pre-walk kills the order only if the quantity is not there. -/
def KillsRightly (b : OrderBook M) (o : NewOrder) : Prop :=
  ¬Rejects b b.queue o → o.tif = .fok →
    b.fokKills o.side o.type o.tif o.price o.qty = .ok true →
      b.market.available o < o.qty.toNat

theorem Good.killsRightly (h : Good b b.queue) (hv : Visible b b.queue)
    (hbase : 0 ≤ b.cfg.basePrice.toInt) (hcount : b.market.Countable (.submit o)) :
    KillsRightly b o := fun hr htif hk =>
  (h.fokKills_market hv hbase hr htif (hcount htif) hk).mp rfl

/-- The levels that an order is filled from are those that it crosses. -/
theorem Passes.sources_eq (hp : Passes b b.queue o) (h : Good b b.queue)
    (hkind : o.tif = .postOnly → o.type ≠ .market) : b.sources o = b.crossing o := by
  unfold sources
  split_ifs with htif
  · have ht := hkind htif
    by_contra hne
    exact hp.not_crossing ⟨htif, (wouldCross_iff h.index ht (hp.inRange ht)).mpr (Ne.symm hne)⟩
  · rfl

/-- An order that would trade finds an order to trade with. -/
theorem Good.matching_ne_nil (h : Good b b.queue) (hv : Visible b b.queue)
    (hprice : o.type ≠ .market → b.inRange o.price = true) (hne : b.crossing o ≠ []) :
    b.market.matching o ≠ [] := by
  obtain ⟨i, hi⟩ := List.exists_mem_of_ne_nil _ hne
  rw [market_matching, ← hv.orders_crossing h.core hprice]
  rw [crossing_eq] at hi
  obtain ⟨r, hr⟩ := List.exists_mem_of_ne_nil _ (h.backed _ i (List.mem_filter.mp hi).2)
  refine List.ne_nil_of_mem (List.mem_map_of_mem (List.mem_flatMap.mpr ⟨i, ?_, hr⟩))
  rwa [crossing_eq]

theorem Good.market_eq (h : Good b A) : b.market = A.market b.cfg.numLevels := by
  unfold OrderBook.market
  rw [h.core.queue_eq]

theorem Good.market_size (h : Good b A) : b.market.size = b.openOrders := by
  rw [← h.core.restingCount_eq]
  unfold Market.size restingCount
  rw [market_apply, market_apply, List.length_map, List.length_map]

/-! ### `submit` -/

omit [IdMap M] [IndexedBy M] in
/-- The statuses of an order that does not rest. -/
theorem status_eq {qty n : Quantity} (h : n.toNat ≤ qty.toNat) :
    (if qty - n > 0 then OrderStatus.partiallyFilled else .cancelled) =
      if n = qty then .cancelled else .partiallyFilled := by
  have hsub := UInt32.toNat_sub_of_le _ _ (UInt32.le_iff_toNat_le.mpr h)
  by_cases hn : n = qty
  · rw [if_pos hn, hn, UInt32.sub_self]
    rfl
  · have hne : n.toNat ≠ qty.toNat := fun heq => hn (UInt32.toNat_inj.mp heq)
    rw [if_neg hn, if_pos]
    show 0 < qty - n
    rw [UInt32.lt_iff_toNat_lt, hsub]
    exact Nat.sub_pos_of_lt (Nat.lt_of_le_of_ne h hne)

/-- A result, the book seen as a market. -/
def asMarket {α : Type} : EStateM.Result Fault (List Trade) (OrderBook M × α) →
    EStateM.Result Fault (List Trade) (Market × α)
  | .ok (b, a) ts => .ok (b.market, a) ts
  | .error e ts => .error e ts

omit [IdMap M] [IndexedBy M] in
theorem asMarket_ok {α : Type} (b : OrderBook M) (a : α) (ts : List Trade) :
    asMarket (.ok (b, a) ts) = .ok (b.market, a) ts := rfl

/-- A fill leaves the market of the book as the trades of the market do. -/
theorem Matched.market_fill
    (hm : Matched b b.queue (opposite o.side) (b.sources o) o.qty.toNat b' A')
    (h : Good b b.queue) (hv : Visible b b.queue) (hp : Passes b b.queue o)
    (hkind : o.tif = .postOnly → o.type ≠ .market) :
    b'.market = b.market.fill o ∧
      Greedy.total Resting.size (b.queue.orders (opposite o.side) (b.sources o)) =
        b.market.available o ∧
      o.trades (b.queue.orders (opposite o.side) (b.sources o)) = b.market.trades o := by
  rw [hp.sources_eq h hkind] at hm ⊢
  rw [hm.good.market_eq, hm.cfg_eq, hm.market_eq h hv hp.inRange,
    hv.orders_crossing h.core hp.inRange, market_available, market_trades]
  exact ⟨rfl, rfl, rfl⟩

theorem Submits.market {x : EStateM.Result Fault (List Trade) (OrderBook M × SubmitResult)}
    {ts : List Trade} (hs : Submits b b.queue o ts x) (h : Good b b.queue)
    (hv : Visible b b.queue) (hbase : 0 ≤ b.cfg.basePrice.toInt)
    (hright : KillsRightly b o) :
    asMarket x = (b.market.submit b.cfg o).run ts := by
  have hrefuses : ¬Rejects b b.queue o → ¬b.market.Refuses o b.cfg :=
    fun hr => mt (h.market_refuses_iff hbase).mp hr
  cases hs with
  | rejected hr =>
    rw [Market.submit_refused ((h.market_refuses_iff hbase).mpr hr)]
    rfl
  | killed hr ht hk =>
    rw [Market.submit_killed (hrefuses hr) (Or.inl ⟨ht, hright hr ht hk⟩)]
    rfl
  | crossing hr ht hc =>
    have hprice := inRange_of_not_rejects hr
    have hkills : o.type = .market ∨ b.market.matching o ≠ [] := by
      refine or_iff_not_imp_left.mpr fun hlimit => h.matching_ne_nil hv hprice ?_
      exact (wouldCross_iff h.index hlimit (hprice hlimit)).mp hc
    rw [Market.submit_killed (hrefuses hr) (Or.inr ⟨ht, hkills⟩)]
    rfl
  | @filled b' A' hp hm hle =>
    -- a post-only order finds nothing, and its quantity is not zero
    have hkind : o.tif = .postOnly → o.type ≠ .market := by
      intro htif
      have hsrc : b.sources o = [] := if_pos htif
      rw [hsrc] at hle
      exact absurd (qty_pos hp.not_rejects) (Nat.not_lt.mpr hle)
    obtain ⟨hfill, htotal, htrades⟩ := hm.market_fill h hv hp hkind
    rw [htotal] at hle
    rw [Market.submit_executed (hrefuses hp.not_rejects)
      (hp.market_not_kills h hv hbase hkind),
      Market.settle_filled (Market.remainder_of_le hle) _ rfl, asMarket_ok, hfill, htrades]
  | @dropped b' A' n hp hm hn hpos ht =>
    by_cases hkind : o.tif = .postOnly → o.type ≠ .market
    · obtain ⟨hfill, htotal, htrades⟩ := hm.market_fill h hv hp hkind
      rw [htotal] at hn
      rw [Market.submit_executed (hrefuses hp.not_rejects)
        (hp.market_not_kills h hv hbase hkind),
        Market.settle_dropped (Market.remainder_of_add hn) _ hpos ht, asMarket_ok, hfill, htrades,
        status_eq (by omega)]
    · -- a market order that is post-only has found nothing
      obtain ⟨htif, hmarket⟩ := Classical.not_imp.mp hkind
      rw [not_not] at hmarket
      have hsrc : b.sources o = [] := if_pos htif
      rw [hsrc] at hm hn
      obtain rfl := hm.eq_of_nil
      obtain rfl : n = o.qty := UInt32.toNat_inj.mp hn
      rw [Market.submit_killed (hrefuses hp.not_rejects) (Or.inr ⟨htif, Or.inl hmarket⟩),
        asMarket_ok, hm.good.market_eq, hm.cfg_eq, hsrc, status_eq le_rfl, if_pos rfl,
        UInt32.sub_self]
      exact congrArg _ (List.append_nil ts)
  | @rested b₁ b' A₁ n p hp hm hn hpos ht hcfg hbit hgood =>
    have hlimit : o.type ≠ .market := fun hmarket => ht (Or.inr hmarket)
    obtain ⟨hfill, htotal, htrades⟩ := hm.market_fill h hv hp fun _ => hlimit
    obtain ⟨k, hk, -, hprice, hidx, -⟩ := inRange_spec (hp.inRange hlimit)
    rw [htotal] at hn
    -- the order goes to the end of its level
    have hrest : b'.market = (b.market.fill o).rest o n := by
      rw [hidx] at hgood
      rw [← hm.cfg_eq] at hk hprice
      rw [hgood.market_eq, hcfg, ← hm.cfg_eq, hm.good.core.market_rest hk hprice,
        ← hm.good.market_eq, hfill]
    have hroom : (b.market.fill o).size ≠ b.cfg.maxOrders := by
      have hle := hgood.core.openOrders_le
      rw [← hgood.market_size, hrest, Market.size_rest, hcfg] at hle
      omega
    rw [Market.submit_executed (hrefuses hp.not_rejects)
      (hp.market_not_kills h hv hbase fun _ => hlimit),
      Market.settle_rested (Market.remainder_of_add hn) _ hpos ht hroom, asMarket_ok, hrest,
      htrades, if_congr eq_comm rfl rfl]
  | @full b₁ A₁ hp hm hlt ht hfull =>
    have hlimit : o.type ≠ .market := fun hmarket => ht (Or.inr hmarket)
    obtain ⟨hfill, htotal, htrades⟩ := hm.market_fill h hv hp fun _ => hlimit
    rw [htotal] at hlt
    have hroom : (b.market.fill o).size = b.cfg.maxOrders := by
      rw [← hfill, hm.good.market_size, hfull, hm.cfg_eq]
    rw [Market.submit_executed (hrefuses hp.not_rejects)
      (hp.market_not_kills h hv hbase fun _ => hlimit),
      Market.settle_full rfl _ (Market.remainder_ne_zero hlt) ht hroom, htrades]
    rfl

/-! ### Calls -/

omit [IdMap M] [IndexedBy M] in
theorem asMarket_map {α β : Type} {x : SinkM (OrderBook M × α)} {y : SinkM (Market × α)}
    {ts : List Trade} (h : asMarket (x.run ts) = y.run ts) (f : α → β) :
    asMarket ((do let (b, a) ← x; return (b, f a) : SinkM (OrderBook M × β)).run ts) =
      (do let (m, a) ← y; return (m, f a) : SinkM (Market × β)).run ts := by
  cases hx : x.run ts with
  | ok r ts' =>
    rw [hx] at h
    rw [sink_bind hx, sink_bind h.symm]
    rfl
  | error e ts' =>
    rw [hx] at h
    rw [sink_bind_error hx, sink_bind_error h.symm]
    rfl

/-- The orders have other places, but no other ones are there. -/
theorem Dropped.market_eq (hd : Dropped b b.queue s i xs r ys b') (h : Good b b.queue) :
    b'.market = b.market.amend r.id fun _ => none := by
  rw [hd.good.market_eq, hd.cfg_eq, h.market_drop hd.queue_eq]
  rfl

theorem Shrunk.market_eq {qty : Quantity} (hs : Shrunk b b.queue s i xs r ys qty b')
    (h : Good b b.queue) : b'.market = b.market.amend r.id fun e => some { e with qty := qty } := by
  rw [hs.good.market_eq, hs.cfg_eq, h.market_shrink hs.queue_eq]
  rfl

theorem Good.market_rests_iff (h : Good b b.queue) : b.market.Rests id ↔ b.queue.Rests id :=
  h.core.market_rests_iff

theorem Good.cancel_market (h : Good b b.queue) (hsafe : Safe b b.queue (.cancel id))
    (ts : List Trade) :
    asMarket ((b.answer (.cancel id)).run ts) =
      .ok (b.market.amend id fun _ => none, .found (b.market.Rests id)) ts := by
  unfold OrderBook.answer
  by_cases hrests : b.queue.Rests id
  · have hfound := h.market_rests_iff.mpr hrests
    obtain ⟨s, i, r, hr, rfl⟩ := hrests
    obtain ⟨xs, ys, hq⟩ := List.append_of_mem hr
    obtain ⟨b', hdrop, hd, -⟩ := h.drop hq (hsafe.erases _ (.drop (.cancel hr) nofun)).1
    rw [sink_bind (quiet_ok (h.cancel_eq hq hdrop) ts), decide_eq_true hfound, ← hd.market_eq h]
    rfl
  · have hfound := mt h.market_rests_iff.mp hrests
    rw [sink_bind (quiet_ok (h.cancel_none (hsafe.finds id rfl hrests) hrests) ts),
      Market.amend_of_not_rests hfound, decide_eq_false hfound]
    rfl

theorem Good.reduce_market (h : Good b b.queue) {delta : Quantity}
    (hsafe : Safe b b.queue (.reduce id delta)) (ts : List Trade) :
    asMarket ((b.answer (.reduce id delta)).run ts) =
      .ok (b.market.amend id fun e => e.reduce delta, .found (b.market.Rests id)) ts := by
  unfold OrderBook.answer
  by_cases hrests : b.queue.Rests id
  · have hfound := h.market_rests_iff.mpr hrests
    obtain ⟨s, i, r, hr, rfl⟩ := hrests
    obtain ⟨xs, ys, hq⟩ := List.append_of_mem hr
    rw [decide_eq_true hfound]
    by_cases hdelta : r.qty ≤ delta
    · have hnone : (none : Option Resting).map Resting.entry = r.entry.reduce delta :=
        (if_neg (UInt32.not_lt.mpr hdelta)).symm
      obtain ⟨b', hdrop, hd, -⟩ := h.drop hq (hsafe.erases _ (.drop (.reduce hr hdelta) nofun)).1
      rw [sink_bind (quiet_ok (h.reduce_drop hq hdelta hdrop) ts), h.market_eq,
        ← h.market_set hq none (f := fun e => e.reduce delta) hnone, ← hd.cfg_eq]
      show asMarket (.ok (b', _) ts) = _
      rw [asMarket_ok, hd.good.market_eq]
      rfl
    · have hlt := UInt32.not_le.mp hdelta
      have hsome : (some { r with qty := r.qty - delta }).map Resting.entry =
          r.entry.reduce delta := (if_pos hlt).symm
      obtain ⟨b', hshrink, hs⟩ := h.shrink_by hq hlt
      rw [sink_bind (quiet_ok (h.reduce_shrink hq hlt hshrink) ts), h.market_eq,
        ← h.market_set hq _ (f := fun e => e.reduce delta) hsome, ← hs.cfg_eq]
      show asMarket (.ok (b', _) ts) = _
      rw [asMarket_ok, hs.good.market_eq]
      rfl
  · have hfound := mt h.market_rests_iff.mp hrests
    rw [sink_bind (quiet_ok (h.reduce_none (hsafe.finds id rfl hrests) hrests delta) ts),
      Market.amend_of_not_rests hfound, decide_eq_false hfound]
    rfl

/-- The order that `modify` takes off the book, and what becomes of the one that it submits. -/
theorem Good.drop_submit (h : Good b A) (hq : A s i = xs ++ r :: ys) {newQty : Quantity}
    {newPrice : Price} {t : Timestamp} (hin : ¬r.InPlace newQty newPrice)
    (hsafe : Safe b A (.modify r.id newQty newPrice t)) (ts : List Trade) :
    ∃ b₁, b.dropOrder r.id r.slot = .ok b₁ ∧ Dropped b A s i xs r ys b₁ ∧
      Submits b₁ (A.set s i (xs ++ ys)) (r.replacement s newQty newPrice t) ts
        ((b₁.submitOrder (r.replacement s newQty newPrice t)).run ts) := by
  have hd : Drops A (.modify r.id newQty newPrice t) s i r := .modify (by simp [hq]) hin
  have hok : IndexedBy.EraseOk b.idMap r.id := by
    by_cases he : ∃ o, Executes b A (.modify r.id newQty newPrice t) o
    · obtain ⟨o, ho⟩ := he
      exact (hsafe.erases _ (.replace hd ho)).1
    · exact (hsafe.erases _ (.drop hd (not_exists.mp he))).1
  obtain ⟨b₁, hdrop, hdr, herase⟩ := h.drop hq hok
  refine ⟨b₁, hdrop, hdr, hdr.good.submit _ ts fun hp => ?_⟩
  -- the levels that are filled from are those of the other side, which the drop left alone
  rw [hdr.filledIds_eq rfl]
  exact (hsafe.erases _ (.replace hd (hdr.executes hin hp))).2 _ herase

theorem Good.modify_market (h : Good b b.queue) (hv : Visible b b.queue)
    (hshort : ∀ s i, (b.queue s i).length < 2 ^ 32) (hbase : 0 ≤ b.cfg.basePrice.toInt)
    {newQty : Quantity} {newPrice : Price} {t : Timestamp}
    (hsafe : Safe b b.queue (.modify id newQty newPrice t)) (ts : List Trade) :
    asMarket ((b.modify id newQty newPrice t).run ts) =
      (b.market.modify b.cfg id newQty newPrice t).run ts := by
  unfold Market.modify
  by_cases hrests : b.queue.Rests id
  · obtain ⟨s, i, r, hr, rfl⟩ := hrests
    obtain ⟨xs, ys, hq⟩ := List.append_of_mem hr
    rw [h.market_eq, h.market_find hr]
    dsimp only
    by_cases hin : r.InPlace newQty newPrice
    · obtain ⟨b', hshrink, hs⟩ := h.shrink_to hq hin
      rw [if_pos (show r.entry.KeepsPlace newQty newPrice from hin), h.modify_shrink hq hin hshrink,
        asMarket_ok, hs.market_eq h]
      rfl
    · obtain ⟨b₁, hdrop, hd, hs⟩ := h.drop_submit hq hin hsafe ts
      have hbook : b₁.queue = b.queue.set s i (xs ++ ys) := hd.good.core.queue_eq
      have hv₁ : Visible b₁ b₁.queue := by
        rw [hbook]
        refine hd.visible hv fun hz => List.length_eq_zero_iff.mp ?_
        have hlen := hshort s i
        rw [hq, List.length_append, List.length_cons] at hlen
        rw [List.length_append] at hz ⊢
        omega
      have hgood := hd.good
      rw [← hbook] at hgood hs
      rw [if_neg (show ¬r.entry.KeepsPlace newQty newPrice from hin), h.modify_submit hq hin hdrop,
        hs.market hgood hv₁ (hd.cfg_eq ▸ hbase) (fun _ htif => nomatch htif), hd.market_eq h,
        hd.cfg_eq, h.market_eq]
      rfl
  · have hfound := mt h.market_rests_iff.mp hrests
    rw [h.modify_none (hsafe.finds id rfl hrests) hrests, asMarket_ok, Market.find_none hfound]
    rfl

/-- **One call on the engine is one on its market.** -/
theorem Good.answer_market (h : Good b b.queue) (hv : Visible b b.queue)
    (hshort : ∀ s i, (b.queue s i).length < 2 ^ 32) (hbase : 0 ≤ b.cfg.basePrice.toInt)
    (hsafe : Safe b b.queue c) (hright : ∀ o, c = .submit o → KillsRightly b o) (ts : List Trade) :
    asMarket ((b.answer c).run ts) = (b.market.answer b.cfg c).run ts := by
  cases c with
  | submit o =>
    have hs := h.submit o ts fun hp => hsafe.erases _ (.submit hp)
    exact asMarket_map (hs.market h hv hbase (hright o rfl)) Answer.submitted
  | cancel id => exact h.cancel_market hsafe ts
  | reduce id delta => exact h.reduce_market hsafe ts
  | modify id newQty newPrice t =>
    exact asMarket_map (h.modify_market hv hshort hbase hsafe ts) Answer.submitted

/-! ### Runs -/

/-- What a book is to have for its calls to be those of its market. -/
structure Faithful (b : OrderBook M) : Prop where
  good : Good b b.queue
  visible : Visible b b.queue
  short : b.cfg.maxOrders < 2 ^ 32
  base_nonneg : 0 ≤ b.cfg.basePrice.toInt

theorem Faithful.length_lt (h : Faithful b) (s : Side) (i : ℕ) : (b.queue s i).length < 2 ^ 32 := by
  refine (h.good.core.length_le s i).trans_lt ?_
  rw [h.good.core.capacity_eq]
  exact h.short

theorem faithful_new {cfg : Config} (hbase : 0 ≤ cfg.basePrice.toInt)
    (hmax : cfg.maxOrders < 2 ^ 32) : Faithful (new cfg : OrderBook M) where
  good := by
    have hgood : Good (new cfg : OrderBook M) Queues.empty := new_good cfg
    rwa [← hgood.core.queue_eq] at hgood
  visible := new_visible cfg
  short := hmax
  base_nonneg := hbase

theorem Faithful.exec (h : Faithful b) (hsafe : Safe b b.queue c) {ts ts' : List Trade}
    (hexec : (b.exec c).run ts = .ok b' ts') : Faithful b' ∧ b'.cfg = b.cfg := by
  have hs := h.good.exec hsafe ts
  rw [hexec] at hs
  obtain ⟨A', hgood, hcfg⟩ := hs.good h.good
  have hv := hs.visible h.good (keeps_of_short h.length_lt) h.visible
  rw [← hgood.core.queue_eq] at hgood
  exact ⟨⟨hgood, hv, hcfg ▸ h.short, hcfg ▸ h.base_nonneg⟩, hcfg⟩

theorem Faithful.step (h : Faithful b) (hsafe : Safe b b.queue c) {a : Answer} {ts ts' : List Trade}
    (hrun : (b.answer c).run ts = .ok (b', a) ts') : Faithful b' ∧ b'.cfg = b.cfg := by
  have hexec : (b.exec c).run ts = .ok b' ts' := by
    rw [exec_eq_answer, map_eq_pure_bind]
    exact sink_bind hrun _
  exact h.exec hsafe hexec

theorem Faithful.answer_market (h : Faithful b) (hsafe : Safe b b.queue c)
    (hcount : b.market.Countable c) (ts : List Trade) :
    asMarket ((b.answer c).run ts) = (b.market.answer b.cfg c).run ts :=
  h.good.answer_market h.visible h.length_lt h.base_nonneg hsafe
    (fun _ ho => h.good.killsRightly h.visible h.base_nonneg (ho ▸ hcount)) ts

/-- **A run of the engine is one of its market.** -/
theorem Faithful.answers_market {cs : List Call} (h : Faithful b)
    (hok : Throughout (fun b c => Safe b b.queue c) b cs)
    (hcount : b.market.countable b.cfg cs = true) (ts : List Trade) :
    asMarket ((b.answers cs).run ts) = (b.market.answers b.cfg cs).run ts := by
  induction cs generalizing b ts with
  | nil => rfl
  | cons c cs ih =>
    obtain ⟨hsafe, hrest⟩ := hok
    obtain ⟨hcount, hcounts⟩ := Bool.and_eq_true_iff.mp hcount
    have hcall := h.answer_market hsafe (of_decide_eq_true hcount) ts
    unfold OrderBook.answers Market.answers
    cases hrun : (b.answer c).run ts with
    | ok r ts₁ =>
      obtain ⟨b₁, a⟩ := r
      rw [hrun] at hcall
      obtain ⟨h₁, hcfg⟩ := h.step hsafe hrun
      rw [Market.next_eq hcall.symm, ← hcfg] at hcounts
      have hcalls := ih h₁ (hrest _ _ _ _ hrun) hcounts ts₁
      rw [hcfg] at hcalls
      rw [sink_bind hrun, sink_bind hcall.symm]
      exact asMarket_map hcalls (a :: ·)
    | error e ts₁ =>
      rw [hrun] at hcall
      rw [sink_bind_error hrun, sink_bind_error hcall.symm]
      rfl

end Good

end OrderBook

end Lob
