import Lob.Equiv.OrderBook.Priority

/-!
# The depth that the book reports

`total_at` and `top_n` read the totals of the levels, which are kept in 32 bits.  `top_n` lists the
first visible levels (`Index.topN_eq`), and the reported quantities are those that rest in the book
if and only if these do not exceed 32 bits (`Reachable.depthExact_iff`).
-/

namespace Lob.OrderBook

open Queues

variable {M : Type} {b : OrderBook M} {A : Queues} {s : Side} {i : ℕ} {p : Price}

/-- The quantity that rests at the price. -/
def depth (b : OrderBook M) (s : Side) (p : Price) : ℕ :=
  Greedy.total Resting.size ((b.resting s).filter fun r => r.price = p)

/-- What the book reports for side `s` is what rests there. -/
structure DepthExact (b : OrderBook M) (s : Side) : Prop where
  totalAt_eq : ∀ p, b.inRange p = true → (b.totalAt s p).toNat = b.depth s p
  topN_eq : ∀ n, ∀ l ∈ b.topN s n, l.qty.toNat = b.depth s l.price

/-! ### `top_n` -/

/-- What `top_n` writes for level `i`. -/
def snapshot (b : OrderBook M) (s : Side) (i : ℕ) : LevelSnapshot :=
  ⟨b.idxToPrice i, (b.level s i).totalQty, (b.level s i).count⟩

/-- The loop of `top_n` for either side. -/
def topLoop (b : OrderBook M) (s : Side) (n i : ℕ) : List LevelSnapshot :=
  match s with
  | .buy => b.topBids n i
  | .sell => b.topAsks n i

theorem topLoop_zero : b.topLoop s 0 i = [] := by cases s <;> rfl

theorem topLoop_none (n : ℕ) : b.topLoop s n kNoBest = [] := by
  cases n with
  | zero => exact topLoop_zero
  | succ n =>
    have hne : ¬kNoBest ≠ kNoBest := not_not.mpr rfl
    cases s with
    | buy =>
      show b.topBids (n + 1) kNoBest = []
      rw [topBids, if_neg hne]
    | sell =>
      show b.topAsks (n + 1) kNoBest = []
      rw [topAsks, if_neg hne]

/-- One level is written; the loop goes on at the next best one. -/
theorem topLoop_succ (n : ℕ) (hi : i ≠ kNoBest) :
    b.topLoop s (n + 1) i = b.snapshot s i :: b.topLoop s n (nextBest s (b.bitmap s) i) := by
  -- leaving the loop is going on at `kNoBest`
  have hstop : ∀ next, (if next = Bitmap.kNotFound then [] else b.topLoop s n next) =
      b.topLoop s n next := by
    intro next
    split_ifs with h
    · rw [h]
      exact (topLoop_none n).symm
    · rfl
  cases s with
  | buy =>
    rw [nextBest_buy, ← hstop]
    exact if_pos hi
  | sell =>
    rw [nextBest_sell, ← hstop]
    exact if_pos hi

theorem Index.topLoop_eq (h : Index b) {pre ls : List ℕ} (hv : b.visible s = pre ++ ls) (n : ℕ) :
    b.topLoop s n (ls.head?.getD kNoBest) = (ls.take n).map (b.snapshot s) := by
  induction n generalizing pre ls with
  | zero => exact topLoop_zero
  | succ n ih =>
    cases ls with
    | nil => exact topLoop_none _
    | cons i ls =>
      have hi : i ≠ kNoBest :=
        lt_kNoBest b.cfg (h.bit_lt ((mem_visible h).mp (by rw [hv]; simp)))
      have hv' : b.visible s = (pre ++ [i]) ++ ls := by
        rw [hv, List.append_assoc, List.singleton_append]
      rw [List.head?_cons, Option.getD_some, topLoop_succ n hi, h.nextBest_eq hv, ih hv',
        List.take_succ_cons, List.map_cons]

theorem topN_eq_topLoop (s : Side) (n : ℕ) : b.topN s n = b.topLoop s n (b.bestIdx s) := by
  cases s <;> rfl

/-- **`top_n` lists the first visible levels.** -/
theorem Index.topN_eq (h : Index b) (s : Side) (n : ℕ) :
    b.topN s n = ((b.visible s).take n).map (b.snapshot s) := by
  rw [← h.topLoop_eq (List.nil_append _).symm n, visible_head h, topN_eq_topLoop]

/-! ### Totals -/

theorem ladder_filter_eq {k n : ℕ} (hk : k < n) : (ladder s n).filter (fun i => i = k) = [k] := by
  have hnodup : (ladder s n).Nodup := (ladder_pairwise s _).imp fun hb => better_ne hb
  rw [List.filter_eq, List.count_eq_one_of_mem hnodup (mem_ladder.mpr hk)]
  rfl

/-- The orders at a price are those of its level. -/
theorem Core.resting_at (h : Core b A none) (s : Side) (hp : b.inRange p = true) :
    (b.resting s).filter (fun r => r.price = p) = A s (b.priceToIdx p).toNat := by
  obtain ⟨k, hk, -, hprice, hidx, -⟩ := inRange_spec hp
  have hlevel : ∀ i, ∀ r ∈ A s i, decide (r.price = p) = decide (i = k) := by
    intro i r hr
    have hr := (h.placed s i r hr).level_eq
    refine decide_eq_decide.mpr (Int32.toInt_inj.symm.trans ?_)
    omega
  unfold resting
  rw [h.queue_eq, filter_orders hlevel, ladder_filter_eq hk, hidx, orders_cons]
  show A s k ++ [] = _
  rw [List.append_nil]

theorem Core.depth_eq (h : Core b A none) (s : Side) (hp : b.inRange p = true) :
    b.depth s p = Greedy.total Resting.size (A s (b.priceToIdx p).toNat) := by
  unfold depth
  rw [h.resting_at s hp]

theorem Core.totalAt_eq (h : Core b A none) (s : Side) (hp : b.inRange p = true) :
    (b.totalAt s p).toNat = b.depth s p % 2 ^ 32 := by
  unfold totalAt
  rw [if_pos hp, h.total_eq, h.depth_eq s hp]

/-- A level that `top_n` lists is that of its price. -/
theorem Core.mem_topN (h : Core b A none) (hindex : Index b) (hbacked : Backed b A) {n : ℕ}
    {l : LevelSnapshot} (hl : l ∈ b.topN s n) :
    b.inRange l.price = true ∧ l.qty = b.totalAt s l.price := by
  rw [hindex.topN_eq] at hl
  obtain ⟨i, hi, rfl⟩ := List.mem_map.mp hl
  have hbit := (mem_visible hindex).mp (List.mem_of_mem_take hi)
  -- the level has orders, so that it has a price
  obtain ⟨r, hr⟩ := List.exists_mem_of_ne_nil _ (hbacked s i hbit)
  have hplaced := h.placed s i r hr
  have hin := inRange_of_level hplaced.level_eq hplaced.inside hplaced.small
  have hprice : (b.snapshot s i).price = r.price := idxToPrice_eq hplaced.level_eq
  obtain ⟨k, -, -, hk, hidx, -⟩ := inRange_spec hin
  have hki : (b.priceToIdx r.price).toNat = i := by
    have := hplaced.level_eq
    omega
  rw [hprice]
  refine ⟨hin, ?_⟩
  unfold totalAt
  rw [if_pos hin, hki]
  rfl

/-- **The reported depth is exact** on a side if and only if no price has a quantity of `2 ^ 32` or
more. -/
theorem Reachable.depthExact_iff {M : Type} [LawfulIdMap M] {cfg : Config} {b : OrderBook M}
    (h : Reachable cfg b) (s : Side) :
    DepthExact b s ↔ ∀ p, b.inRange p = true → b.depth s p < 2 ^ 32 := by
  obtain ⟨hgood, -⟩ := h.good
  constructor
  · intro hexact p hp
    rw [← hexact.totalAt_eq p hp]
    exact (b.totalAt s p).toNat_lt
  · intro hlt
    have htotal : ∀ p, b.inRange p = true → (b.totalAt s p).toNat = b.depth s p := by
      intro p hp
      rw [hgood.core.totalAt_eq s hp, Nat.mod_eq_of_lt (hlt p hp)]
    refine ⟨htotal, fun n l hl => ?_⟩
    obtain ⟨hin, hqty⟩ := hgood.core.mem_topN hgood.index hgood.backed hl
    rw [hqty, htotal _ hin]

theorem tradedBook_depthExact_iff :
    DepthExact tradedBook .sell ↔
      ∀ p, tradedBook.inRange p = true → tradedBook.depth .sell p < 2 ^ 32 :=
  tradedBook_reachable.depthExact_iff .sell

/-- Two asks of `2 ^ 31` at one price are reported as a quantity of zero. -/
theorem halfAsks_total_wraps :
    ¬∀ (cfg : Config) (b : OrderBook PlainIdMap), Reachable cfg b → ∀ s, DepthExact b s := by
  intro hall
  have hrun : Reachable smallConfig halfAsks :=
    (Run.new.after trivial (by decide)).after trivial (by decide)
  have hexact := (hall _ _ hrun .sell).totalAt_eq 1 (by decide)
  have htotal : halfAsks.totalAt .sell 1 = 0 := by decide
  have hdepth : halfAsks.depth .sell 1 = 2 ^ 32 := by decide
  rw [htotal, hdepth] at hexact
  cases hexact

end Lob.OrderBook
