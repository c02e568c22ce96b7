import Lob.Equiv.OrderBook.FillOrKill

/-!
# Price-time priority

An executed order is filled greedily from the orders that it accepts, best price first and then
oldest first (`PriceTimePriority`), if and only if each of them that it is to trade with is at a
level whose bit is set (`Reachable.priceTimePriority_iff`).  A hidden level is passed over
(`hiddenAsks_passed_over`).
-/

namespace Lob.OrderBook

open Queues

variable {M : Type} {b b' : OrderBook M} {A A' : Queues} {o : NewOrder} {i : ℕ} {r : Resting}
  {trades trades' : List Trade} {res : SubmitResult}

/-! ### The reference -/

/-- The trades and the other side of the book are those of a greedy fill. -/
structure PriceTimePriority (b : OrderBook M) (o : NewOrder) (trades : List Trade)
    (b' : OrderBook M) (trades' : List Trade) : Prop where
  trades_eq : trades' = trades ++ o.trades (b.reference o)
  quantity_pos : ∀ t ∈ o.trades (b.reference o), 0 < t.quantity
  resting_eq : b'.resting (opposite o.side) =
    Greedy.leftover Resting.size Resting.shrink (b.reference o) o.qty.toNat ++
      (b.resting (opposite o.side)).filter fun r => !o.accepts r

/-- Every order that the order is to trade with is at a level whose bit is set. -/
def FillsShown (b : OrderBook M) (o : NewOrder) : Prop :=
  ∀ f ∈ Greedy.fills Resting.size (b.reference o) o.qty.toNat,
    b.bit (opposite o.side) (b.priceToIdx f.1.price).toNat = true

/-- The levels at or better than the limit, whether or not their bits are set. -/
def reached (b : OrderBook M) (o : NewOrder) : List ℕ :=
  upTo o.side (b.limitOf o) (ladder (opposite o.side) b.cfg.numLevels)

theorem crossing_eq (b : OrderBook M) (o : NewOrder) :
    b.crossing o = (b.reached o).filter (b.bit (opposite o.side)) := by
  unfold crossing reached upTo visible
  exact List.filter_comm _ _ _

/-- The levels of the ladder at or better than the limit come before the others. -/
theorem filter_append_filter {R : ℕ → ℕ → Prop} {p : ℕ → Bool} {ls : List ℕ}
    (hls : ls.Pairwise R) (hp : ∀ i j, R i j → p i = true → p j = true) :
    ls = ls.filter (fun i => !p i) ++ ls.filter p := by
  induction ls with
  | nil => rfl
  | cons i ls ih =>
    rw [List.pairwise_cons] at hls
    cases hi : p i with
    | false =>
      rw [List.filter_cons_of_pos (by simp [hi]), List.filter_cons_of_neg (by simp [hi]),
        List.cons_append, ← ih hls.2]
    | true =>
      have hall : ∀ j ∈ i :: ls, p j = true := by
        intro j hj
        rcases List.mem_cons.mp hj with rfl | hj
        · exact hi
        · exact hp i j (hls.1 j hj) hi
      have hnil : (i :: ls).filter (fun j => !p j) = [] :=
        List.filter_eq_nil_iff.mpr fun j hj => by simp [hall j hj]
      rw [hnil, List.filter_eq_self.mpr hall, List.nil_append]

theorem ladder_eq (b : OrderBook M) (o : NewOrder) :
    ladder (opposite o.side) b.cfg.numLevels = b.reached o ++
      (ladder (opposite o.side) b.cfg.numLevels).filter (pastLimit o.side (b.limitOf o)) :=
  filter_append_filter (ladder_pairwise _ _) fun _ _ => pastLimit_of_better

/-- The order accepts the orders of the levels that it reaches. -/
theorem Core.accepts_eq (h : Core b A none) (hr : r ∈ A (opposite o.side) i)
    (hprice : o.type ≠ .market → b.inRange o.price = true) :
    o.accepts r = !pastLimit o.side (b.limitOf o) i := by
  have hlevel := (h.placed _ i r hr).level_eq
  obtain ⟨id, side, type, tif, price, qty, ts⟩ := o
  unfold NewOrder.accepts limitOf
  dsimp only at *
  by_cases ht : type = .market
  · rw [if_pos ht]
    rw [pastLimit_kNoBest]
    simp [ht]
  · -- prices compare as levels do, since both are in range
    obtain ⟨k, hk, -, hprice', hidx, -⟩ := inRange_spec (hprice ht)
    rw [if_neg ht, hidx, Bool.eq_iff_iff, Bool.not_eq_true', ← Bool.not_eq_true, pastLimit_iff,
      and_iff_right (lt_kNoBest b.cfg hk)]
    cases side with
    | buy =>
      simp only [ht, decide_false, Bool.false_or, decide_eq_true_eq, Int32.le_iff_toInt_le,
        opposite, Better]
      omega
    | sell =>
      simp only [ht, decide_false, Bool.false_or, decide_eq_true_eq, Int32.le_iff_toInt_le,
        opposite, Better]
      omega

/-- Filtering the orders is filtering their levels. -/
theorem filter_orders {s : Side} {ls : List ℕ} {p : Resting → Bool} {p' : ℕ → Bool}
    (h : ∀ i, ∀ r ∈ A s i, p r = p' i) : (A.orders s ls).filter p = A.orders s (ls.filter p') := by
  induction ls with
  | nil => rfl
  | cons i ls ih =>
    rw [orders_cons, List.filter_append, ih]
    cases hi : p' i with
    | true =>
      have hall : (A s i).filter p = A s i :=
        List.filter_eq_self.mpr fun r hr => by rw [h i r hr, hi]
      rw [List.filter_cons_of_pos hi, orders_cons, hall]
    | false =>
      have hnil : (A s i).filter p = [] :=
        List.filter_eq_nil_iff.mpr fun r hr => by rw [h i r hr, hi]; decide
      rw [List.filter_cons_of_neg (by simp [hi]), hnil, List.nil_append]

/-- The reference goes through the levels that the order reaches. -/
theorem Core.reference_eq (h : Core b A none)
    (hprice : o.type ≠ .market → b.inRange o.price = true) :
    b.reference o = A.orders (opposite o.side) (b.reached o) := by
  unfold reference resting
  rw [h.queue_eq]
  exact filter_orders fun i r hr => h.accepts_eq hr hprice

theorem Core.rest_eq (h : Core b A none)
    (hprice : o.type ≠ .market → b.inRange o.price = true) :
    (b.resting (opposite o.side)).filter (fun r => !o.accepts r) = A.orders (opposite o.side)
      ((ladder (opposite o.side) b.cfg.numLevels).filter (pastLimit o.side (b.limitOf o))) := by
  unfold resting
  rw [h.queue_eq]
  refine filter_orders fun i r hr => ?_
  rw [h.accepts_eq hr hprice, Bool.not_not]

/-- The price of an order tells its level. -/
theorem Core.priceToIdx_eq {s : Side} (h : Core b A none) (hr : r ∈ A s i) :
    (b.priceToIdx r.price).toNat = i := by
  have hpl := h.placed s i r hr
  have hrange := inRange_of_level (b := b) hpl.level_eq hpl.inside hpl.small
  obtain ⟨k, -, -, hk, hidx, -⟩ := inRange_spec hrange
  have hlevel := hpl.level_eq
  omega

/-! ### What the fill sees -/

theorem FillsShown.shown (hs : FillsShown b o) (h : Core b A none)
    (hprice : o.type ≠ .market → b.inRange o.price = true) :
    Greedy.Shown Resting.size (A (opposite o.side)) (b.bit (opposite o.side)) (b.reached o)
      o.qty.toNat := by
  intro pre i post hls hlt hne
  obtain ⟨r, rest, hq⟩ := List.exists_cons_of_ne_nil hne
  have hr : r ∈ A (opposite o.side) i := by simp [hq]
  have hn : o.qty.toNat - Greedy.total Resting.size (A.orders (opposite o.side) pre) ≠ 0 :=
    Nat.sub_ne_zero_of_lt hlt
  -- the first order of the level is to be traded with
  have hfill : (r, min (o.qty.toNat - Greedy.total Resting.size (A.orders (opposite o.side) pre))
      r.size) ∈ Greedy.fills Resting.size (b.reference o) o.qty.toNat := by
    rw [h.reference_eq hprice, hls, orders_append, orders_cons, hq, Greedy.fills_append,
      List.cons_append, Greedy.fills_cons _ hn]
    simp
  have hbit := hs _ hfill
  rwa [h.priceToIdx_eq hr] at hbit

section Good

variable [IdMap M] [IndexedBy M]

/-- Nothing is missed on the levels that the bitmap does not show. -/
theorem Matched.orders_reached {n : ℕ}
    (hm : Matched b A (opposite o.side) (b.crossing o) n b' A')
    (hs : Greedy.Shown Resting.size (A (opposite o.side)) (b.bit (opposite o.side)) (b.reached o)
      n) :
    A'.orders (opposite o.side) (b.reached o) = Greedy.leftover Resting.size Resting.shrink
      (A.orders (opposite o.side) (b.reached o)) n := by
  refine Greedy.leftover_flatMap _ _ _ fun pre i post hls => ?_
  have hcross : b.crossing o = (pre ++ i :: post).filter (b.bit (opposite o.side)) := by
    rw [crossing_eq, hls]
  by_cases hi : b.bit (opposite o.side) i = true
  · have hpre : Greedy.Shown Resting.size (A (opposite o.side)) (b.bit (opposite o.side)) pre n :=
      (hls ▸ hs).left
    rw [List.filter_append, List.filter_cons_of_pos hi] at hcross
    rw [hm.level_eq _ i _ hcross, ← hpre.sub_total_filter]
    rfl
  · have hnot : i ∉ b.crossing o := by
      rw [hcross]
      exact fun hmem => hi (List.mem_filter.mp hmem).2
    rw [hm.other_eq _ i fun hcon => hnot hcon.2]
    by_cases hnil : A (opposite o.side) i = []
    · rw [hnil]
      rfl
    · have hle : n ≤ Greedy.total Resting.size (pre.flatMap (A (opposite o.side))) :=
        not_lt.mp fun hlt => hi (hs pre i post hls hlt hnil)
      rw [Nat.sub_eq_zero_of_le hle, Greedy.leftover_zero]

/-- Orders are traded with by their own ids. -/
theorem Good.mem_of_mem_trades (h : Good b A) {s : Side} {ls ls' : List ℕ}
    (htrades : o.trades (A.orders s ls) = o.trades (A.orders s ls')) {f : Resting × ℕ}
    (hf : f ∈ Greedy.fills Resting.size (A.orders s ls) o.qty.toNat) :
    ∃ i ∈ ls', f.1 ∈ A s i := by
  have hmem : ∀ {ls : List ℕ} {f : Resting × ℕ},
      f ∈ Greedy.fills Resting.size (A.orders s ls) o.qty.toNat → ∃ i ∈ ls, f.1 ∈ A s i :=
    fun hf => List.mem_flatMap.mp (Greedy.mem_of_mem_fills _ hf)
  have htrade : f.1.trade o.id o.side o.ts f.2 ∈ o.trades (A.orders s ls') := by
    rw [← htrades]
    exact List.mem_map_of_mem hf
  obtain ⟨f', hf', heq⟩ := List.mem_map.mp htrade
  obtain ⟨j, -, hj⟩ := hmem hf
  obtain ⟨i, hi, hi'⟩ := hmem hf'
  have hid : f'.1.id = f.1.id := congrArg Trade.restingId heq
  -- the two trades name one order
  rw [← (h.unique hi' hj hid).2.2]
  exact ⟨i, hi, hi'⟩

theorem Good.quantity_pos (h : Good b A) {s : Side} {ls : List ℕ} {t : Trade}
    (ht : t ∈ o.trades (A.orders s ls)) : 0 < t.quantity := by
  obtain ⟨f, hf, rfl⟩ := List.mem_map.mp ht
  obtain ⟨-, hf0, -, hle⟩ := Greedy.fills_mem _ h.positive_orders hf
  have hqty := o.qty.toNat_lt
  show 0 < UInt32.ofNat f.2
  rw [UInt32.lt_iff_toNat_lt, UInt32.toNat_ofNat']
  have hzero : (0 : UInt32).toNat = 0 := rfl
  omega

theorem Good.reference_pos (h : Good b A) (hr : r ∈ b.reference o) : 0 < r.size := by
  have hmem := (List.mem_filter.mp hr).1
  unfold resting at hmem
  rw [h.core.queue_eq] at hmem
  exact h.positive_orders r hmem

/-- What an executed order does to the other side of the book. -/
theorem Submits.executed (hs : Submits b A o trades (.ok (b', res) trades'))
    (hrej : res.status ≠ .rejected) (hpost : o.tif ≠ .postOnly)
    (hfok : o.tif = .fok → res.status ≠ .cancelled) :
    ∃ b₁ A₁, Passes b A o ∧ Matched b A (opposite o.side) (b.crossing o) o.qty.toNat b₁ A₁ ∧
      trades' = trades ++ o.trades (A.orders (opposite o.side) (b.crossing o)) ∧
      b'.cfg = b.cfg ∧ b'.queue (opposite o.side) = A₁ (opposite o.side) := by
  have hsrc : b.sources o = b.crossing o := if_neg hpost
  rw [← hsrc]
  cases hs with
  | rejected => exact absurd rfl hrej
  | killed _ ht => exact absurd rfl (hfok ht)
  | crossing _ ht => exact absurd ht hpost
  | filled hp hm => exact ⟨_, _, hp, hm, rfl, hm.cfg_eq, by rw [hm.good.core.queue_eq]⟩
  | dropped hp hm => exact ⟨_, _, hp, hm, rfl, hm.cfg_eq, by rw [hm.good.core.queue_eq]⟩
  | rested hp hm _ _ _ hcfg _ hgood =>
    refine ⟨_, _, hp, hm, rfl, hcfg, ?_⟩
    rw [hgood.core.queue_eq, set_opposite rfl]

end Good

/-- **Matching is price-time priority** if and only if every order that is to be traded with is at
a level whose bit is set. -/
theorem Reachable.priceTimePriority_iff {M : Type} [LawfulIdMap M] {cfg : Config}
    {b b' : OrderBook M} (h : Reachable cfg b) {o : NewOrder} {trades trades' : List Trade}
    {res : SubmitResult} (hrun : (b.submitOrder o).run trades = .ok (b', res) trades')
    (hrej : res.status ≠ .rejected) (hpost : o.tif ≠ .postOnly)
    (hfok : o.tif = .fok → res.status ≠ .cancelled) :
    PriceTimePriority b o trades b' trades' ↔ FillsShown b o := by
  obtain ⟨hgood, -⟩ := h.good
  have hs := hgood.submit o trades fun _ => erasesOk_of_lawful _ _
  rw [hrun] at hs
  obtain ⟨b₁, A₁, hp, hm, rfl, hcfg, hqueue⟩ := hs.executed hrej hpost hfok
  have href := hgood.core.reference_eq hp.inRange
  constructor
  · -- a trade with the order is made, so that the levels which `match_` visits have it
    intro hprio f hf
    have htrades := List.append_cancel_left hprio.trades_eq
    rw [href] at hf htrades
    obtain ⟨i, hi, hfi⟩ := hgood.mem_of_mem_trades htrades.symm hf
    rw [hgood.core.priceToIdx_eq hfi]
    rw [crossing_eq] at hi
    exact (List.mem_filter.mp hi).2
  · intro hshown
    have hshown' := hshown.shown hgood.core hp.inRange
    have hfills := hshown'.fills_filter
    rw [← crossing_eq] at hfills
    constructor
    · rw [href]
      unfold NewOrder.trades Queues.orders
      rw [hfills]
    · intro t ht
      rw [href] at ht
      exact hgood.quantity_pos ht
    · -- the levels past the limit are not touched
      have hpast : A₁.orders (opposite o.side) ((ladder (opposite o.side) b.cfg.numLevels).filter
          (pastLimit o.side (b.limitOf o))) = b.queue.orders (opposite o.side)
            ((ladder (opposite o.side) b.cfg.numLevels).filter
              (pastLimit o.side (b.limitOf o))) := by
        refine List.flatMap_congr fun i hi => hm.other_eq _ i fun hcon => ?_
        have hpast := (List.mem_filter.mp hi).2
        have hwithin := (List.mem_filter.mp hcon.2).2
        rw [hpast] at hwithin
        cases hwithin
      rw [hgood.core.rest_eq hp.inRange, href, ← hm.orders_reached hshown', ← hpast,
        ← orders_append, ← ladder_eq]
      unfold resting Queues.orders
      rw [hqueue, hcfg]

/-- The bid trades with the three asks. -/
theorem layeredBook_priceTimePriority_iff :
    ∃ b' trades', (layeredBook.submitOrder (gtcOrder 5 .buy 2 7)).run [] =
        .ok (b', ⟨.fullyFilled, 7, 0⟩) trades' ∧
      (PriceTimePriority layeredBook (gtcOrder 5 .buy 2 7) [] b' trades' ↔
        FillsShown layeredBook (gtcOrder 5 .buy 2 7)) := by
  have hresult : layeredBook.result (gtcOrder 5 .buy 2 7) = some ⟨.fullyFilled, 7, 0⟩ := by
    decide +kernel
  obtain ⟨b', trades', hrun⟩ := result_eq_some hresult
  exact ⟨b', trades', hrun,
    layeredBook_reachable.priceTimePriority_iff hrun (by decide) (by decide) (by decide)⟩

/-- A bid at the price of the asks accepts them. -/
theorem Asks.exists_reference {k : ℕ} {b : OrderBook PlainIdMap} (h : Asks k b) (hk : 0 < k)
    (id : OrderId) : ∃ r, r ∈ b.reference (gtcOrder id .buy 0 1) := by
  obtain ⟨-, hcfg⟩ := h.reachable.good
  obtain ⟨r, hr⟩ := h.exists_mem hk
  refine ⟨r, List.mem_filter.mpr ⟨List.mem_flatMap.mpr ⟨0, ?_, hr⟩, ?_⟩⟩
  · rw [mem_ladder, hcfg]
    decide
  · show decide (r.price ≤ 0) = true
    rw [h.price_eq hr]
    decide

/-- A bid at the price of the hidden asks trades with none of them. -/
theorem hiddenAsks_passed_over :
    ¬∀ (cfg : Config) (b b' : OrderBook PlainIdMap) (o : NewOrder) (trades trades' : List Trade)
      (res : SubmitResult), 0 ≤ cfg.basePrice.toInt → Reachable cfg b →
      (b.submitOrder o).run trades = .ok (b', res) trades' → res.status ≠ .rejected →
      o.tif ≠ .postOnly → (o.tif = .fok → res.status ≠ .cancelled) →
      PriceTimePriority b o trades b' trades' := by
  intro hall
  obtain ⟨b, h, hbits⟩ := hiddenAsks
  obtain ⟨b', p, hrun, -⟩ :=
    h.submit_rests (by omega) (2 ^ 32 + 2) (by decide) .buy (fun i => hbits _ i) []
  have hprio := hall _ _ _ _ _ _ _ (by decide) h.reachable hrun (by decide) (by decide)
    fun htif => absurd htif (by decide)
  obtain ⟨r, hmem⟩ := h.exists_reference (by decide) (2 ^ 32 + 2)
  obtain ⟨r', rest, hcons⟩ := List.exists_cons_of_ne_nil (List.ne_nil_of_mem hmem)
  have htrades := hprio.trades_eq
  rw [hcons] at htrades
  cases htrades

end Lob.OrderBook
