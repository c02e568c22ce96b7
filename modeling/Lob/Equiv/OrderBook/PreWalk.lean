import Lob.Calls
import Lob.Equiv.OrderBook.Matching

/-!
# The pre-walk of fill-or-kill orders

`can_fully_fill` adds up the totals of the visible levels up to the limit, best first, in 32 bits,
and stops as soon as the sum is large enough.  `Reaches A s ls acc qty` says that it does so: the
exact sum of the quantities on the first levels of `ls`, taken modulo `2^32`, is at least `qty`
(`Core.canFullyFill`).
-/

namespace Lob.OrderBook

open Queues

variable {M : Type} {b : OrderBook M} {A : Queues} {s : Side} {i : ℕ} {ls : List ℕ}

/-! ### Running totals -/

/-- Some of the first levels of `ls` bring the running total from `acc` to a value that is at
least `qty` in 32 bits. -/
def Reaches (A : Queues) (s : Side) (ls : List ℕ) (acc qty : ℕ) : Prop :=
  ∃ k, 0 < k ∧ k ≤ ls.length ∧
    qty ≤ (acc + Greedy.total Resting.size (A.orders s (ls.take k))) % 2 ^ 32

theorem not_reaches_nil (acc qty : ℕ) : ¬Reaches A s [] acc qty := by
  rintro ⟨k, hk, hle, -⟩
  rw [List.length_nil] at hle
  omega

theorem reaches_cons {acc qty : ℕ} :
    Reaches A s (i :: ls) acc qty ↔
      qty ≤ (acc + Greedy.total Resting.size (A s i)) % 2 ^ 32 ∨
        Reaches A s ls (acc + Greedy.total Resting.size (A s i)) qty := by
  have hsum : ∀ k, Greedy.total Resting.size (A.orders s ((i :: ls).take (k + 1))) =
      Greedy.total Resting.size (A s i) + Greedy.total Resting.size (A.orders s (ls.take k)) :=
    fun k => Greedy.total_append ..
  constructor
  · rintro ⟨k, hk, hle, hqty⟩
    obtain ⟨k, rfl⟩ : ∃ k', k = k' + 1 := ⟨k - 1, by omega⟩
    rw [hsum, ← Nat.add_assoc] at hqty
    rw [List.length_cons] at hle
    rcases Nat.eq_zero_or_pos k with rfl | hpos
    · exact Or.inl hqty
    · exact Or.inr ⟨k, hpos, by omega, hqty⟩
  · rintro (hqty | ⟨k, hk, hle, hqty⟩)
    · refine ⟨1, Nat.one_pos, by simp, ?_⟩
      rw [hsum 0, ← Nat.add_assoc]
      exact hqty
    · refine ⟨k + 1, Nat.succ_pos k, by simpa using hle, ?_⟩
      rw [hsum, ← Nat.add_assoc]
      exact hqty

/-- Only the running total in 32 bits matters. -/
theorem reaches_mod {acc acc' qty : ℕ} (h : acc % 2 ^ 32 = acc' % 2 ^ 32) :
    Reaches A s ls acc qty ↔ Reaches A s ls acc' qty := by
  have hmod : ∀ n, (acc + n) % 2 ^ 32 = (acc' + n) % 2 ^ 32 := fun n => Nat.ModEq.add_right n h
  unfold Reaches
  simp only [hmod]

/-- What the pre-walk finds in the book is there. -/
theorem Reaches.le_total {qty : ℕ} (h : Reaches A s ls 0 qty) :
    qty ≤ Greedy.total Resting.size (A.orders s ls) := by
  obtain ⟨k, -, -, hqty⟩ := h
  have hsplit : A.orders s ls = A.orders s (ls.take k) ++ A.orders s (ls.drop k) := by
    unfold Queues.orders
    rw [← List.flatMap_append, List.take_append_drop]
  rw [hsplit, Greedy.total_append]
  have := Nat.mod_le (0 + Greedy.total Resting.size (A.orders s (ls.take k))) (2 ^ 32)
  omega

/-! ### The loops -/

/-- The test of the loops of `can_fully_fill`. -/
def withinLimit (aggressorSide : Side) (limit i : ℕ) : Bool :=
  match aggressorSide with
  | .buy => i ≤ limit
  | .sell => i ≥ limit

/-- The loop of `can_fully_fill` for either side. -/
def canFill (b : OrderBook M) (aggressorSide : Side) (limit : ℕ) (qty : Quantity) (fuel i : ℕ)
    (acc : Quantity) : Except Fault Bool :=
  match aggressorSide with
  | .buy => b.canFillAsks limit qty fuel i acc
  | .sell => b.canFillBids limit qty fuel i acc

theorem withinLimit_iff {side : Side} {limit : ℕ} :
    withinLimit side limit i = true ↔ ¬Better (opposite side) limit i := by
  cases side with
  | buy => exact decide_eq_true_iff.trans not_lt.symm
  | sell => exact decide_eq_true_iff.trans not_lt.symm

/-- A level past the limit has only such levels after it. -/
theorem withinLimit_of_better {side : Side} {limit j : ℕ} (h : Better (opposite side) i j)
    (hi : withinLimit side limit i = false) : withinLimit side limit j = false := by
  rw [← Bool.not_eq_true, withinLimit_iff, not_not] at hi ⊢
  exact better_trans hi h

theorem canFill_stop {side : Side} {limit : ℕ} (qty : Quantity) (fuel : ℕ) (acc : Quantity)
    (h : ¬(i ≠ kNoBest ∧ withinLimit side limit i = true)) :
    b.canFill side limit qty (fuel + 1) i acc = .ok false := by
  cases side with
  | buy =>
    simp only [withinLimit, decide_eq_true_eq] at h
    exact if_neg h
  | sell =>
    simp only [withinLimit, decide_eq_true_eq] at h
    exact if_neg h

/-- One level is added; the loop goes on at the next best one, if there is one. -/
theorem canFill_succ {side : Side} {limit : ℕ} (qty : Quantity) (fuel : ℕ) (acc : Quantity)
    (hi : i ≠ kNoBest) (hlim : withinLimit side limit i = true) :
    b.canFill side limit qty (fuel + 1) i acc =
      if acc + (b.level (opposite side) i).totalQty ≥ qty then .ok true
      else if nextBest (opposite side) (b.bitmap (opposite side)) i = kNoBest then .ok false
      else b.canFill side limit qty fuel
        (nextBest (opposite side) (b.bitmap (opposite side)) i)
        (acc + (b.level (opposite side) i).totalQty) := by
  cases side with
  | buy =>
    unfold canFill
    rw [canFillAsks, if_pos ⟨hi, of_decide_eq_true hlim⟩, opposite, nextBest_sell]
    rfl
  | sell =>
    unfold canFill
    rw [canFillBids, if_pos ⟨hi, of_decide_eq_true hlim⟩, opposite, nextBest_buy]
    by_cases h0 : i = 0
    · rw [if_pos h0, if_pos rfl]
      dsimp only
      rw [if_pos h0]
      rfl
    · rw [if_neg h0]
      dsimp only
      rw [if_neg h0]
      rfl

/-- **The loop** finds out whether the levels up to the limit reach the quantity. -/
theorem Core.canFill {loose : Option Ptr} {side : Side} {limit : ℕ} {qty : Quantity}
    (h : Core b A loose) (hindex : Index b) {pre : List ℕ} {fuel : ℕ} (acc : Quantity)
    (hv : b.visible (opposite side) = pre ++ ls) (hfuel : ls.length < fuel) :
    ∃ r, b.canFill side limit qty fuel (ls.head?.getD kNoBest) acc = .ok r ∧
      (r = true ↔
        Reaches A (opposite side) (ls.filter (withinLimit side limit)) acc.toNat qty.toNat) := by
  -- on the visible levels that the walk has still to come to
  induction ls generalizing pre fuel acc with
  | nil =>
    obtain ⟨fuel, rfl⟩ : ∃ k, fuel = k + 1 := ⟨fuel - 1, by simp at hfuel; omega⟩
    refine ⟨false, canFill_stop _ _ _ fun hcon => hcon.1 rfl, ?_⟩
    simp [not_reaches_nil]
  | cons i ls ih =>
    obtain ⟨fuel, rfl⟩ : ∃ k, fuel = k + 1 := ⟨fuel - 1, by simp at hfuel; omega⟩
    rw [List.head?_cons, Option.getD_some]
    have hbit : ∀ j ∈ i :: ls, j ≠ kNoBest := fun j hj =>
      lt_kNoBest b.cfg (hindex.bit_lt ((mem_visible hindex).mp (by rw [hv]; simp [hj])))
    have hne := hbit i List.mem_cons_self
    cases hlim : withinLimit side limit i with
    | false =>
      -- every later level is past the limit, too
      refine ⟨false, canFill_stop _ _ _ fun hcon => by simp [hlim] at hcon, ?_⟩
      have hpair := b.visible_pairwise (opposite side)
      rw [hv] at hpair
      have hls := (List.pairwise_append.mp hpair).2.1
      have hnil : (i :: ls).filter (withinLimit side limit) = [] := by
        refine List.filter_eq_nil_iff.mpr fun j hj => ?_
        rcases List.mem_cons.mp hj with rfl | hj
        · simp [hlim]
        · rw [withinLimit_of_better ((List.pairwise_cons.mp hls).1 j hj) hlim]
          decide
      rw [hnil]
      simp [not_reaches_nil]
    | true =>
      -- the total of the level is exact up to `2 ^ 32`, and so is the sum
      set acc' := acc + (b.level (opposite side) i).totalQty with hacc'
      have hsum : acc'.toNat =
          (acc.toNat + Greedy.total Resting.size (A (opposite side) i)) % 2 ^ 32 := by
        rw [hacc', UInt32.toNat_add, h.total_eq, Nat.add_mod_mod]
      rw [canFill_succ _ _ _ hne hlim, List.filter_cons_of_pos hlim, reaches_cons, ← hsum,
        ← hacc']
      by_cases hge : acc' ≥ qty
      · rw [if_pos hge]
        refine ⟨true, rfl, ?_⟩
        simp only [true_iff]
        exact Or.inl (UInt32.le_iff_toNat_le.mp hge)
      · have hlt : ¬qty.toNat ≤ acc'.toNat := fun hle => hge (UInt32.le_iff_toNat_le.mpr hle)
        have hmod : acc'.toNat % 2 ^ 32 =
            (acc.toNat + Greedy.total Resting.size (A (opposite side) i)) % 2 ^ 32 := by
          rw [hsum, Nat.mod_mod]
        rw [if_neg hge, hindex.nextBest_eq hv, or_iff_right hlt, ← reaches_mod hmod]
        -- the next level is the next of the list, if there is one
        cases ls with
        | nil =>
          rw [List.head?_nil, Option.getD_none, if_pos rfl]
          exact ⟨false, rfl, by simp [not_reaches_nil]⟩
        | cons j ls =>
          have hj : ((j :: ls).head?.getD kNoBest) ≠ kNoBest := hbit j (by simp)
          have hv' : b.visible (opposite side) = (pre ++ [i]) ++ j :: ls := by
            rw [hv, List.append_assoc, List.singleton_append]
          rw [if_neg hj]
          exact ih acc' hv' (Nat.lt_of_succ_lt_succ hfuel)

/-! ### `can_fully_fill` -/

/-- The limit index of the pre-walk. -/
def walkLimit (b : OrderBook M) (side : Side) (limitPrice : Price) : ℕ :=
  match side with
  | .buy =>
    if limitPrice = kInvalidPrice then (b.cfg.numLevels + sizeMax) % 2 ^ 64
    else (b.priceToIdx limitPrice).toNat
  | .sell => if limitPrice = kInvalidPrice then 0 else (b.priceToIdx limitPrice).toNat

theorem walkLimit_of_ne (side : Side) {price : Price} (h : price ≠ kInvalidPrice) :
    b.walkLimit side price = (b.priceToIdx price).toNat := by
  cases side with
  | buy => exact if_neg h
  | sell => exact if_neg h

/-- The limit of a market order is past no level. -/
theorem withinLimit_market (side : Side) (hi : i < b.cfg.numLevels) :
    withinLimit side (b.walkLimit side kInvalidPrice) i = true := by
  have hn := numLevels_lt b.cfg
  unfold withinLimit walkLimit
  cases side with
  | buy =>
    have hsize : sizeMax = 2 ^ 64 - 1 := rfl
    dsimp only
    rw [if_pos rfl, decide_eq_true_eq, hsize]
    omega
  | sell =>
    dsimp only
    rw [if_pos rfl, decide_eq_true_eq]
    exact Nat.zero_le i

theorem canFullyFill_eq (side : Side) (limitPrice : Price) (qty : Quantity) :
    b.canFullyFill side limitPrice qty = b.canFill side (b.walkLimit side limitPrice) qty
      (b.cfg.numLevels + 1) (b.bestIdx (opposite side)) 0 := by
  cases side <;> rfl

/-- The pre-walk returns. -/
theorem Core.canFullyFill {loose : Option Ptr} (h : Core b A loose) (hindex : Index b)
    (side : Side) (limitPrice : Price) (qty : Quantity) :
    ∃ r, b.canFullyFill side limitPrice qty = .ok r ∧
      (r = true ↔ Reaches A (opposite side) ((b.visible (opposite side)).filter
        (withinLimit side (b.walkLimit side limitPrice))) 0 qty.toNat) := by
  have hlen := b.length_visible_le (opposite side)
  have hv : b.visible (opposite side) = [] ++ b.visible (opposite side) := rfl
  rw [canFullyFill_eq, ← visible_head hindex]
  exact h.canFill hindex 0 hv (by omega)

/-- The fill-or-kill check kills an order that the pre-walk does not reach the quantity of. -/
theorem Core.fokKills {loose : Option Ptr} (h : Core b A loose) (hindex : Index b)
    (o : NewOrder) :
    ∃ k, b.fokKills o.side o.type o.tif o.price o.qty = .ok k ∧
      (k = true ↔ o.tif = .fok ∧ ¬Reaches A (opposite o.side)
        ((b.visible (opposite o.side)).filter (withinLimit o.side (b.walkLimit o.side
          (if o.type = .market then kInvalidPrice else o.price)))) 0 o.qty.toNat) := by
  unfold OrderBook.fokKills
  by_cases ht : o.tif = .fok
  · obtain ⟨r, hwalk, hr⟩ := h.canFullyFill hindex o.side
      (if o.type = .market then kInvalidPrice else o.price) o.qty
    rw [if_pos ht, bind_ok hwalk]
    refine ⟨!r, rfl, ?_⟩
    rw [← hr, Bool.not_eq_true, Bool.not_eq_true', and_iff_right ht]
  · rw [if_neg ht]
    exact ⟨false, rfl, by simp [ht]⟩

/-- The pre-walk and `match_` agree on the limit.  With a negative base price a limit order could
have the price `kInvalidPrice`, which the pre-walk takes for a market order. -/
theorem filter_walkLimit (hindex : Index b) {o : NewOrder}
    (hbase : 0 ≤ b.cfg.basePrice.toInt) (hprice : o.type ≠ .market → b.inRange o.price = true) :
    (b.visible (opposite o.side)).filter (withinLimit o.side
        (b.walkLimit o.side (if o.type = .market then kInvalidPrice else o.price))) =
      b.crossing o := by
  obtain ⟨id, side, type, tif, price, qty, ts⟩ := o
  dsimp only at hprice ⊢
  refine List.filter_congr fun j hj => ?_
  have hj' := hindex.bit_lt ((mem_visible hindex).mp hj)
  unfold limitOf
  dsimp only
  by_cases ht : type = .market
  · -- a market order has no limit in either
    rw [if_pos ht, if_pos ht, pastLimit_kNoBest, Bool.not_false]
    exact withinLimit_market side hj'
  · obtain ⟨k, hk, -, hprice', hidx, -⟩ := inRange_spec (hprice ht)
    -- a price in range is not negative, so that it is not `kInvalidPrice`
    have hne : price ≠ kInvalidPrice := by
      rintro rfl
      have : kInvalidPrice.toInt = -1 := rfl
      omega
    rw [if_neg ht, if_neg ht, walkLimit_of_ne side hne, hidx, Bool.eq_iff_iff, withinLimit_iff,
      Bool.not_eq_true', ← Bool.not_eq_true, pastLimit_iff, and_iff_right (lt_kNoBest b.cfg hk)]

end Lob.OrderBook
