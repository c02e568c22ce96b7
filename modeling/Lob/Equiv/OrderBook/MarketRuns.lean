import Lob.Equiv.OrderBook.Conservation
import Lob.Equiv.OrderBook.Refinement
import Lob.Equiv.OrderBook.TopN

/-!
# Runs of the engine and of the market

What the queries of a book return is what its market shows (`Pictures`), so that a run of the engine
on a fresh book is one of the empty market in all that a client sees (`answers_eq_market`).
-/

namespace Lob.OrderBook

open Queues

variable {M : Type} {b b' : OrderBook M} {A : Queues} {s : Side} {i n : ℕ} {r : Resting}
  {p : Price}

/-- What the book shows is its market. -/
structure Pictures [IdMap M] (b : OrderBook M) (m : Market) : Prop where
  best_eq : ∀ s, b.best s = m.best s
  openOrders_eq : b.openOrders = m.size
  totalAt_eq : ∀ s p, b.totalAt s p = m.totalAt s p
  topN_eq : ∀ s n, b.topN s n = (m.depth s).take n
  find_eq : ∀ id ≠ kInvalidOrderId, (b.lookup id).map (fun order =>
    (order.side, (⟨order.orderId, order.price, order.quantity⟩ : Entry))) = m.find id

/-! ### One level -/

theorem market_ordersAt (b : OrderBook M) (s : Side) (p : Price) :
    b.market.ordersAt s p = ((b.resting s).filter fun r => r.price = p).map Resting.entry := by
  unfold Market.ordersAt
  rw [market_apply, List.filter_map]
  rfl

theorem total_entries (q : List Resting) :
    Greedy.total Entry.size (q.map Resting.entry) = Greedy.total Resting.size q :=
  Greedy.total_map (fun _ => rfl) q

theorem Core.mem_resting (h : Core b A none) : r ∈ b.resting s ↔ ∃ i, r ∈ A s i := by
  unfold resting
  rw [h.queue_eq]
  simp only [Queues.orders, List.mem_flatMap, mem_ladder]
  exact ⟨fun ⟨i, _, hr⟩ => ⟨i, hr⟩, fun ⟨i, hr⟩ => ⟨i, (h.placed s i r hr).inside, hr⟩⟩

/-- No order has a price out of range. -/
theorem Core.ordersAt_eq_nil (h : Core b A none) (hp : b.inRange p ≠ true) (s : Side) :
    b.market.ordersAt s p = [] := by
  rw [market_ordersAt, List.map_eq_nil_iff]
  refine List.filter_eq_nil_iff.mpr fun r hr hpr => hp ?_
  obtain ⟨i, hr⟩ := h.mem_resting.mp hr
  have hpl := h.placed s i r hr
  rw [← of_decide_eq_true hpr]
  exact inRange_of_level hpl.level_eq hpl.inside hpl.small

theorem Core.market_totalAt (h : Core b A none) (s : Side) (p : Price) :
    b.totalAt s p = b.market.totalAt s p := by
  unfold Market.totalAt
  by_cases hp : b.inRange p = true
  · rw [← UInt32.toNat_inj, h.totalAt_eq s hp, UInt32.toNat_ofNat', market_ordersAt, total_entries]
    rfl
  · rw [h.ordersAt_eq_nil hp]
    exact if_neg hp

/-- A level that shows is listed as the market has it. -/
theorem Core.market_levelAt (h : Core b A none) (hbacked : Backed b A) (hi : b.bit s i = true) :
    b.snapshot s i = b.market.levelAt s (b.idxToPrice i) := by
  obtain ⟨-, hin, hidx⟩ := h.price_of_bit hbacked hi
  obtain ⟨hcount, hat⟩ := h.snapshot_spec hbacked hi
  have hqty : (b.snapshot s i).qty = b.market.totalAt s (b.idxToPrice i) := by
    rw [← h.market_totalAt]
    unfold totalAt
    rw [if_pos hin, hidx]
    rfl
  have hlen : (b.snapshot s i).count =
      UInt32.ofNat (b.market.ordersAt s (b.idxToPrice i)).length := by
    rw [← UInt32.toNat_inj, hcount, UInt32.toNat_ofNat', market_ordersAt, List.length_map]
    have hat : (b.resting s).filter (fun r => r.price = b.idxToPrice i) = A s i := hat
    rw [hat]
  unfold Market.levelAt
  rw [← hqty, ← hlen]
  rfl

/-! ### All levels -/

theorem priceBefore_or {s : Side} {p q : Price} (hne : p ≠ q) (h : ¬PriceBefore s q p) :
    PriceBefore s p q := by
  have hint : p.toInt ≠ q.toInt := fun heq => hne (Int32.toInt_inj.mp heq)
  cases s with
  | buy =>
    have h : ¬p < q := h
    show q < p
    rw [Int32.lt_iff_toInt_lt] at h ⊢
    omega
  | sell =>
    have h : ¬q < p := h
    show p < q
    rw [Int32.lt_iff_toInt_lt] at h ⊢
    omega

theorem priceBefore_asymm {s : Side} {p q : Price} (h : PriceBefore s p q) :
    ¬PriceBefore s q p := by
  cases s with
  | buy => exact fun h' => Int32.lt_irrefl (Int32.lt_trans h h')
  | sell => exact fun h' => Int32.lt_irrefl (Int32.lt_trans h h')

/-- No order of the market has one behind it with a better price. -/
theorem Core.market_sorted (h : Core b b.queue none) (s : Side) :
    ((b.market s).map Entry.price).Pairwise fun p q => ¬PriceBefore s q p := by
  have hlevel : ∀ {i r}, r ∈ b.queue s i → r.price.toInt = b.cfg.basePrice.toInt + i :=
    fun hr => (h.placed _ _ _ hr).level_eq
  rw [market_apply, List.map_map, List.pairwise_map]
  unfold resting Queues.orders
  rw [List.pairwise_flatMap]
  refine ⟨fun i _ => List.pairwise_of_forall_mem_list fun r hr r' hr' hbefore => ?_,
    (ladder_pairwise s _).imp fun hij r hr r' hr' hbefore => ?_⟩
  · exact better_ne ((priceBefore_iff (hlevel hr') (hlevel hr)).mp hbefore) rfl
  · exact better_asymm hij ((priceBefore_iff (hlevel hr') (hlevel hr)).mp hbefore)

section Good

variable [IdMap M] [IndexedBy M]

/-- The orders of different levels have different ids. -/
theorem Good.orders_ids_nodup (h : Good b A) {ls : List ℕ} (hls : ls.Nodup) :
    ((A.orders s ls).map Resting.id).Nodup := by
  rw [List.Nodup, List.pairwise_map]
  unfold Queues.orders
  rw [List.pairwise_flatMap]
  refine ⟨fun i _ => ?_, hls.imp fun hij r hr r' hr' hid => ?_⟩
  · -- orders with one id are one order, in one slot
    refine (List.pairwise_map.mp (h.core.distinct.nodup s i)).imp_of_mem fun hr hr' hne hid => ?_
    exact hne (congrArg Resting.slot (h.unique hr hr' hid).2.2)
  · exact hij (h.unique hr hr' hid).2.1

theorem Good.market_ids_nodup (h : Good b b.queue) (s : Side) :
    ((b.market s).map Entry.id).Nodup := by
  rw [market_apply, List.map_map]
  exact h.orders_ids_nodup ((ladder_pairwise s _).imp better_ne)

theorem Good.market_prices_pairwise (h : Good b b.queue) (s : Side) :
    (b.market.prices s).Pairwise (PriceBefore s) := by
  have hsorted := (h.core.market_sorted s).sublist (List.dedup_sublist _)
  exact (hsorted.and (List.nodup_dedup _)).imp fun hpq => priceBefore_or hpq.2 hpq.1

/-- The prices of the levels that show, best first, are those of the market. -/
theorem Good.market_prices (h : Good b b.queue) (hv : Visible b b.queue) (s : Side) :
    (b.visible s).map b.idxToPrice = b.market.prices s := by
  have hbit : ∀ {i}, i ∈ b.visible s ↔ b.bit s i = true := mem_visible h.index
  have hprice : ∀ {i}, b.bit s i = true → (b.idxToPrice i).toInt = b.cfg.basePrice.toInt + i :=
    fun hi => (h.core.price_of_bit h.backed hi).1
  have hvisible : ((b.visible s).map b.idxToPrice).Pairwise (PriceBefore s) := by
    rw [List.pairwise_map]
    refine (b.visible_pairwise s).imp_of_mem fun hi hj hij => ?_
    exact (priceBefore_iff (hprice (hbit.mp hi)) (hprice (hbit.mp hj))).mpr hij
  have hmarket := h.market_prices_pairwise s
  have hne : ∀ {p q}, PriceBefore s p q → p ≠ q := by
    rintro p _ hpq rfl
    exact priceBefore_asymm hpq hpq
  refine List.Perm.eq_of_pairwise (fun p q _ _ hpq hqp => absurd hqp (priceBefore_asymm hpq))
    hvisible hmarket ?_
  rw [List.perm_ext_iff_of_nodup (hvisible.imp hne) (hmarket.imp hne)]
  intro p
  unfold Market.prices
  rw [List.mem_dedup, market_apply, List.map_map, List.mem_map, List.mem_map]
  constructor
  · -- a level that shows has an order
    rintro ⟨i, hi, rfl⟩
    obtain ⟨r, hr⟩ := List.exists_mem_of_ne_nil _ (h.backed s i (hbit.mp hi))
    exact ⟨r, h.core.mem_resting.mpr ⟨i, hr⟩,
      (idxToPrice_eq (h.core.placed s i r hr).level_eq).symm⟩
  · rintro ⟨r, hr, rfl⟩
    obtain ⟨i, hr⟩ := h.core.mem_resting.mp hr
    exact ⟨i, hbit.mpr (hv s i (List.ne_nil_of_mem hr)),
      idxToPrice_eq (h.core.placed s i r hr).level_eq⟩

theorem Good.market_topN (h : Good b b.queue) (hv : Visible b b.queue) (s : Side) (n : ℕ) :
    b.topN s n = (b.market.depth s).take n := by
  unfold Market.depth
  rw [h.index.topN_eq, ← h.market_prices hv, List.map_map, ← List.map_take]
  refine List.map_congr_left fun i hi => ?_
  exact h.core.market_levelAt h.backed ((mem_visible h.index).mp (List.mem_of_mem_take hi))

theorem Good.market_best (h : Good b b.queue) (hv : Visible b b.queue) (s : Side) :
    b.best s = b.market.best s := by
  have hprices := h.market_prices hv s
  have hmem : ∀ {p}, p ∈ b.market.prices s ↔ ∃ e ∈ b.market s, e.price = p := fun {p} => by
    unfold Market.prices
    rw [List.mem_dedup, List.mem_map]
  have hsorted := h.core.market_sorted s
  unfold Market.best
  by_cases hne : b.bestIdx s = kNoBest
  · -- without a level that shows there is no order
    rw [h.index.visible_nil hne, List.map_nil] at hprices
    rw [best_of_none hne]
    cases hm : b.market s with
    | nil => rfl
    | cons e es =>
      have he : e.price ∈ b.market.prices s := hmem.mpr ⟨e, by simp [hm], rfl⟩
      rw [← hprices] at he
      cases he
  · rw [h.index.visible_cons hne 0, List.map_cons, ← best_eq hne] at hprices
    have hbest : b.best s ∈ b.market.prices s := by rw [← hprices]; exact List.mem_cons_self
    obtain ⟨e', he', hprice⟩ := hmem.mp hbest
    cases hm : b.market s with
    | nil =>
      rw [hm] at he'
      cases he'
    | cons e es =>
      -- neither price comes before the other
      have hfirst : e.price ∈ b.market.prices s := hmem.mpr ⟨e, by simp [hm], rfl⟩
      rw [← hprices, List.mem_cons] at hfirst
      rcases hfirst with heq | hfirst
      · exact heq.symm
      · have hpair := h.market_prices_pairwise s
        rw [← hprices, List.pairwise_cons] at hpair
        rw [hm, List.map_cons, List.pairwise_cons] at hsorted
        rw [hm, List.mem_cons] at he'
        have hbefore := hpair.1 _ hfirst
        rcases he' with rfl | he'
        · exact hprice.symm
        · refine absurd hbefore ?_
          rw [← hprice]
          exact hsorted.1 _ (List.mem_map_of_mem he')

theorem Good.market_lookup (h : Good b b.queue) {id : OrderId} (hid : id ≠ kInvalidOrderId) :
    (b.lookup id).map (fun order =>
      (order.side, (⟨order.orderId, order.price, order.quantity⟩ : Entry))) = b.market.find id := by
  by_cases hrests : b.queue.Rests id
  · obtain ⟨s, i, r, hr, rfl⟩ := hrests
    have hpl := h.core.placed s i r hr
    obtain ⟨xs, ys, hq⟩ := List.append_of_mem hr
    rw [h.market_eq, h.market_find hr]
    unfold lookup
    rw [h.find_some hq, Option.map_some, hpl.side_eq, hpl.orderId_eq, hpl.price_eq, hpl.quantity_eq]
    rfl
  · rw [h.lookup_none (IndexedBy.findOk_of_ne _ hid) hrests,
      Market.find_none (mt h.market_rests_iff.mp hrests)]
    rfl

/-- **The queries return what the market shows.** -/
theorem Faithful.pictures (h : Faithful b) : Pictures b b.market where
  best_eq := h.good.market_best h.visible
  openOrders_eq := h.good.market_size.symm
  totalAt_eq := h.good.core.market_totalAt
  topN_eq := h.good.market_topN h.visible
  find_eq _ hid := h.good.market_lookup hid

end Good

/-! ### Runs from a fresh book -/

theorem market_new [IdMap M] [IndexedBy M] (cfg : Config) :
    (new cfg : OrderBook M).market = Market.empty := by
  have hgood : Good (new cfg : OrderBook M) Queues.empty := new_good cfg
  rw [hgood.market_eq]
  funext s
  unfold Queues.market Queues.orders Queues.empty Market.empty
  rw [List.flatMap_eq_nil_iff.mpr fun _ _ => rfl, List.map_nil]

theorem Faithful.answers [IdMap M] [IndexedBy M] (h : Faithful b) {cs : List Call}
    (hok : Throughout (fun b c => Safe b b.queue c) b cs) {as : List Answer} {ts ts' : List Trade}
    (hrun : (b.answers cs).run ts = .ok (b', as) ts') : Faithful b' ∧ b'.cfg = b.cfg := by
  induction cs generalizing b as ts with
  | nil =>
    cases hrun
    exact ⟨h, rfl⟩
  | cons c cs ih =>
    obtain ⟨⟨b₁, a⟩, ts₁, hrun₁, hrest⟩ := exists_of_sink_bind hrun
    obtain ⟨⟨b₂, as'⟩, ts₂, hrun₂, hpure⟩ := exists_of_sink_bind hrest
    cases hpure
    obtain ⟨h₁, hcfg⟩ := h.step hok.1 hrun₁
    obtain ⟨h₂, hcfg'⟩ := ih h₁ (hok.2 _ _ _ _ hrun₁) hrun₂
    exact ⟨h₂, hcfg'.trans hcfg⟩

theorem throughout_safe {M : Type} [LawfulIdMap M] (b : OrderBook M) (cs : List Call) :
    Throughout (fun b c => Safe b b.queue c) b cs := by
  induction cs generalizing b with
  | nil => trivial
  | cons c cs ih => exact ⟨safe_of_lawful b _ c, fun b' _ _ _ _ => ih b'⟩

/-- **The engine is the market.**  The calls have the same answers, trades and failures on a fresh
book as on the empty market, and the queries return what the market shows. -/
theorem answers_eq_market {M : Type} [LawfulIdMap M] {cfg : Config}
    (hbase : 0 ≤ cfg.basePrice.toInt) (hmax : cfg.maxOrders < 2 ^ 32) {cs : List Call}
    (hcount : Market.empty.countable cfg cs = true) :
    asMarket (((new cfg : OrderBook M).answers cs).run []) = (Market.empty.answers cfg cs).run [] ∧
      ∀ b as ts, ((new cfg : OrderBook M).answers cs).run [] = .ok (b, as) ts →
        Pictures b b.market := by
  have hnew : Faithful (new cfg : OrderBook M) := faithful_new hbase hmax
  have hsafe := throughout_safe (new cfg : OrderBook M) cs
  constructor
  · rw [← market_new (M := M) cfg] at hcount ⊢
    exact hnew.answers_market hsafe hcount []
  · exact fun b as ts hrun => (hnew.answers hsafe hrun).1.pictures

/-- An offer that is hit by a fill-or-kill bid, reduced, and moved to another price. -/
def hitOffer : List Call :=
  [.submit (gtcOrder 1 .sell 1 5), .submit { gtcOrder 2 .buy 2 2 with tif := .fok },
    .reduce 1 1, .modify 1 4 3 0, .submit (gtcOrder 3 .buy 3 5)]

theorem hitOffer_answers_eq_market :
    asMarket (((new smallConfig : OrderBook PlainIdMap).answers hitOffer).run []) =
        (Market.empty.answers smallConfig hitOffer).run [] ∧
      ∀ b as ts, ((new smallConfig : OrderBook PlainIdMap).answers hitOffer).run [] =
        .ok (b, as) ts → Pictures b b.market :=
  answers_eq_market (by decide) (by decide) (by decide)

end Lob.OrderBook
