import Lob.Equiv.OrderBook.Outcome
import Lob.Equiv.OrderBook.Relabel

/-!
# The calls on books under other names

Two books that are the same under other names stay so: every function of the source that changes a
book, called on both with the same arguments under these names, returns the same values and hands
the same trades to the sink, or ends in the same fault.  The loops go on in lock step, by induction
on their fuel.

The one exception is the limit `kInvalidPrice` of the pre-walk, which stands for a market order
under any names.  A fill-or-kill order needs a limit that is `kInvalidPrice` in both books or in
neither.
-/

namespace Lob.OrderBook

open Lockstep

variable {cfg cfg' : Config} {ρ : Relabel cfg cfg'} {M : Type} {b b' : OrderBook M} {s : Side}
  {i : ℕ}

/-- The same books and the same answers. -/
structure SameAnswer {α : Type} (ρ : Relabel cfg cfg') (r r' : OrderBook M × α) : Prop where
  book : Relabels ρ r.1 r'.1
  answer_eq : r'.2 = r.2

/-- The same answers, which stand first here, and the same books. -/
structure SameFlag (ρ : Relabel cfg cfg') (r r' : Bool × OrderBook M) : Prop where
  flag_eq : r'.1 = r.1
  book : Relabels ρ r.2 r'.2

/-! ### Passive operations -/

theorem Relabels.deallocate (h : Relabels ρ b b') (p : Ptr) :
    Agree (Relabels ρ) (b.deallocate p) (b'.deallocate p) := by
  unfold OrderBook.deallocate
  apply Agree.bind (h.slab.deallocate p)
  exact fun mem mem' hmem => .ok (h.setSlab hmem)

theorem Relabels.removeFromBook (h : Relabels ρ b b') (p : Ptr) :
    Agree (Relabels ρ) (b.removeFromBook p) (b'.removeFromBook p) := by
  unfold OrderBook.removeFromBook
  apply Agree.bind (h.slab.read p)
  intro o o' ho
  have hi := ho.at_level.lt
  dsimp only
  rw [ho.side_eq, ho.levelIdx_eq, h.level_eq _ _ hi, ho.quantity_eq]
  set lvl := b.level o.side o.levelIdx.toNat with hlvl
  apply Agree.bind (lvl.orders.unlink_agree h.slab p)
  rintro ⟨orders, mem⟩ ⟨orders', mem'⟩ ⟨rfl, hmem⟩
  have hset := (h.setSlab hmem).setLevel hi o.side
    ⟨orders', lvl.totalQty - o.quantity, lvl.count - 1⟩
  dsimp only
  split_ifs with hempty
  · exact .ok (hset.vacate o.side hi)
  · exact .ok hset

/-- The level `i` is occupied if it was empty. -/
theorem Relabels.occupyIf (h : Relabels ρ b b') (side : Side) (hi : i < cfg.numLevels) (c : Bool) :
    Relabels ρ (if c then b.occupy side i else b)
      (if c then b'.occupy (ρ.side side) (ρ.level i) else b') := by
  cases c with
  | false => exact h
  | true => exact h.occupy side hi

theorem Relabels.shrinkOrder (h : Relabels ρ b b') {o o' : Order} (ho : SameOrder ρ o o')
    (p : Ptr) (qty delta : Quantity) :
    Agree (Relabels ρ) (b.shrinkOrder p o qty delta) (b'.shrinkOrder p o' qty delta) := by
  have hi := ho.at_level.lt
  unfold OrderBook.shrinkOrder
  apply Agree.bind (h.slab.setQuantity p qty)
  intro mem mem' hmem
  rw [ho.side_eq, ho.levelIdx_eq, h.level_eq _ _ hi]
  exact .ok ((h.setSlab hmem).setLevel hi o.side _)

variable [IdMap M]

theorem Relabels.find_eq (h : Relabels ρ b b') (id : OrderId) : b'.find id = b.find id := by
  unfold OrderBook.find
  rw [h.idMap_eq]

theorem Relabels.eraseId (h : Relabels ρ b b') (id : OrderId) :
    Agree (Relabels ρ) (b.eraseId id) (b'.eraseId id) := by
  unfold OrderBook.eraseId
  rw [h.idMap_eq]
  apply Agree.bind (Agree.of_eq rfl)
  rintro ⟨done, m⟩ _ rfl
  exact .ok (h.setIdMap m)

theorem Relabels.dropOrder (h : Relabels ρ b b') (id : OrderId) (p : Ptr) :
    Agree (Relabels ρ) (b.dropOrder id p) (b'.dropOrder id p) := by
  unfold OrderBook.dropOrder
  apply Agree.bind (h.removeFromBook p)
  intro b₁ b₁' h₁
  apply Agree.bind (h₁.eraseId id)
  exact fun b₂ b₂' h₂ => h₂.deallocate p

theorem Relabels.cancel (h : Relabels ρ b b') (id : OrderId) :
    Agree (SameFlag ρ) (b.cancel id) (b'.cancel id) := by
  unfold OrderBook.cancel
  rw [h.find_eq]
  apply Agree.bind (Agree.of_eq rfl)
  rintro p _ rfl
  cases p with
  | none => exact .ok ⟨rfl, h⟩
  | some p =>
    apply Agree.bind (h.dropOrder id p)
    exact fun b₁ b₁' h₁ => .ok ⟨rfl, h₁⟩

theorem Relabels.reduce (h : Relabels ρ b b') (id : OrderId) (delta : Quantity) :
    Agree (SameFlag ρ) (b.reduce id delta) (b'.reduce id delta) := by
  unfold OrderBook.reduce
  rw [h.find_eq]
  apply Agree.bind (Agree.of_eq rfl)
  rintro p _ rfl
  cases p with
  | none => exact .ok ⟨rfl, h⟩
  | some p =>
    apply Agree.bind (h.slab.read p)
    intro o o' ho
    apply Agree.ite
    · rw [ho.quantity_eq]
    · intro _
      apply Agree.bind (h.dropOrder id p)
      exact fun b₁ b₁' h₁ => .ok ⟨rfl, h₁⟩
    · intro _
      rw [ho.quantity_eq]
      apply Agree.bind (h.shrinkOrder ho p _ delta)
      exact fun b₁ b₁' h₁ => .ok ⟨rfl, h₁⟩

theorem Relabels.insertResting (h : Relabels ρ b b') (id : OrderId) (side : Side) {price : Price}
    (hprice : b.inRange price = true) (qty : Quantity) :
    Agree (Relabels ρ) (b.insertResting id side price qty)
      (b'.insertResting id (ρ.side side) (ρ.price price) qty) := by
  obtain ⟨i, hat, hidx, -, hidx', -⟩ := h.priceToIdx hprice
  have horder : SameOrder ρ ⟨none, none, id, qty, price, b.priceToIdx price, side⟩
      ⟨none, none, id, qty, ρ.price price, b'.priceToIdx (ρ.price price), ρ.side side⟩ :=
    ⟨rfl, rfl, rfl, rfl, rfl, rfl, hidx.symm ▸ hat, by rw [hidx', hidx]⟩
  obtain ⟨hfree, hwrite⟩ := h.slab.allocate_write horder
  unfold OrderBook.insertResting
  generalize b.slab.allocate = x at hfree hwrite
  generalize b'.slab.allocate = x' at hfree hwrite
  obtain ⟨p, mem⟩ := x
  obtain ⟨p', mem'⟩ := x'
  obtain rfl : p' = p := hfree
  cases p' with
  | none => exact .error _
  | some p =>
    apply Agree.bind (hwrite p rfl)
    intro mem₁ mem₁' h₁
    dsimp only
    rw [hidx, hidx', h.level_eq side i hat.lt]
    apply Agree.bind ((b.level side i).orders.pushBack_agree h₁ p)
    rintro ⟨orders, mem₂⟩ ⟨orders', mem₂'⟩ ⟨rfl, h₂⟩
    dsimp only
    set lvl := b.level side i with hlvl
    have hset := (h.setSlab h₂).setLevel hat.lt side ⟨orders', lvl.totalQty + qty, lvl.count + 1⟩
    have hocc := hset.occupyIf side hat.lt lvl.isEmpty
    rw [hocc.idMap_eq]
    apply Agree.bind (Agree.of_eq rfl)
    rintro ⟨done, m⟩ _ rfl
    exact .ok (hocc.setIdMap m)

/-! ### Matching -/

/-- A trade under other names. -/
def relabelTrade (ρ : Relabel cfg cfg') (t : Trade) : Trade :=
  { t with price := ρ.price t.price, aggressorSide := ρ.side t.aggressorSide }

/-- The sinks have got the same trades. -/
def SameTrades (ρ : Relabel cfg cfg') (ts ts' : List Trade) : Prop := ts' = ts.map (relabelTrade ρ)

omit [IdMap M] in
theorem agreeWith_quiet {α β : Type} {R : α → β → Prop} {x : Except Fault α}
    {y : Except Fault β} (h : Agree R x y) : AgreeWith (SameTrades ρ) R (quiet x) (quiet y) := by
  cases h with
  | ok h => exact .pure h
  | error e => exact .throw e

theorem agreeWith_onTrade (ρ : Relabel cfg cfg') (t : Trade) :
    AgreeWith (SameTrades ρ) Eq (onTrade t) (onTrade (relabelTrade ρ t)) := by
  apply AgreeWith.modify
  intro ts ts' hts
  show ts' ++ [relabelTrade ρ t] = (ts ++ [t]).map (relabelTrade ρ)
  rw [List.map_append, hts]
  rfl

theorem Relabels.takeFromHead (h : Relabels ρ b b') (side : Side) (hi : i < cfg.numLevels)
    (p : Ptr) {o o' : Order} (ho : SameOrder ρ o o') (fill : Quantity) :
    Agree (Relabels ρ) (b.takeFromHead side i p o fill)
      (b'.takeFromHead (ρ.side side) (ρ.level i) p o' fill) := by
  unfold OrderBook.takeFromHead
  rw [ho.quantity_eq, ho.orderId_eq]
  apply Agree.bind (h.slab.setQuantity p (o.quantity - fill))
  intro mem mem' hmem
  dsimp only
  rw [h.level_eq side i hi]
  set lvl := b.level side i with hlvl
  have hset := (h.setSlab hmem).setLevel hi side { lvl with totalQty := lvl.totalQty - fill }
  apply Agree.ite Iff.rfl
  · intro _
    apply Agree.bind (lvl.orders.unlink_agree hset.slab p)
    rintro ⟨orders, mem₁⟩ ⟨orders', mem₁'⟩ ⟨rfl, h₁⟩
    have hset₁ := (hset.setSlab h₁).setLevel hi side
      ⟨orders', lvl.totalQty - fill, lvl.count - 1⟩
    apply Agree.bind (hset₁.eraseId o.orderId)
    exact fun b₁ b₁' hb₁ => hb₁.deallocate p
  · exact fun _ => .ok hset

/-- **The inner loop.** -/
theorem Relabels.fillLevel (side : Side) (id : OrderId) (ts : Timestamp)
    (hi : i < cfg.numLevels) (fuel : ℕ) (h : Relabels ρ b b') (qty : Quantity) :
    AgreeWith (SameTrades ρ) (SameAnswer ρ) (OrderBook.fillLevel side id ts i fuel b qty)
      (OrderBook.fillLevel (ρ.side side) id ts (ρ.level i) fuel b' qty) := by
  induction fuel generalizing b b' qty with
  | zero => exact .throw _
  | succ fuel ih =>
    unfold OrderBook.fillLevel
    rw [← ρ.side_opposite, h.level_eq _ i hi]
    apply AgreeWith.ite Iff.rfl
    · intro _
      cases (b.level (opposite side) i).orders.head with
      | none => exact .pure ⟨h, rfl⟩
      | some p =>
        apply AgreeWith.bind (agreeWith_quiet (h.slab.read p))
        intro o o' ho
        dsimp only
        rw [ho.quantity_eq, ho.orderId_eq, h.idxToPrice hi]
        apply AgreeWith.bind (agreeWith_onTrade ρ _)
        intro _ _ _
        apply AgreeWith.bind (agreeWith_quiet (h.takeFromHead (opposite side) hi p ho _))
        exact fun b₁ b₁' h₁ => ih h₁ _
    · exact fun _ => .pure ⟨h, rfl⟩

/-- The limits are the same level, or there is none. -/
theorem pastLimit_eq {side : Side} {limit limit' : ℕ} (h : SameIdx ρ limit limit')
    (hi : i < cfg.numLevels) :
    pastLimit (ρ.side side) limit' (ρ.level i) = pastLimit side limit i := by
  cases h with
  | none => rw [pastLimit_kNoBest, pastLimit_kNoBest]
  | level hk =>
    rw [Bool.eq_iff_iff, pastLimit_iff, pastLimit_iff, ← ρ.side_opposite]
    exact and_congr (SameIdx.level hk).ne_iff (ρ.better_iff _ _ hk i hi)

/-- **The outer loop.** -/
theorem Relabels.matchLoop (side : Side) {limit limit' : ℕ} (hlimit : SameIdx ρ limit limit')
    (id : OrderId) (ts : Timestamp) (fuel : ℕ) (h : Relabels ρ b b') {j j' : ℕ}
    (hj : SameIdx ρ j j') (qty : Quantity) :
    AgreeWith (SameTrades ρ) (SameAnswer ρ) (OrderBook.matchLoop side limit id ts fuel b j qty)
      (OrderBook.matchLoop (ρ.side side) limit' id ts fuel b' j' qty) := by
  induction fuel generalizing b b' j j' qty with
  | zero => exact .throw _
  | succ fuel ih =>
    unfold OrderBook.matchLoop
    apply AgreeWith.ite (and_congr_left fun _ => hj.ne_iff)
    · rintro ⟨hne, -⟩
      cases hj with
      | none => exact absurd rfl hne
      | level hj =>
        apply AgreeWith.ite
        · rw [pastLimit_eq hlimit hj]
        · exact fun _ => .pure ⟨h, rfl⟩
        · intro _
          rw [h.slab.capacity_eq]
          apply AgreeWith.bind (h.fillLevel side id ts hj _ qty)
          rintro ⟨b₁, n⟩ ⟨b₁', n'⟩ ⟨h₁, hn⟩
          obtain rfl : n' = n := hn
          dsimp only at h₁ ⊢
          apply AgreeWith.ite
          · rw [← ρ.side_opposite, h₁.level_eq _ _ hj]
          · intro _
            obtain ⟨hnext, h₂⟩ := h₁.advance side hj
            exact ih h₂ hnext n'
          · exact fun _ => .pure ⟨h₁, rfl⟩
    · exact fun _ => .pure ⟨h, rfl⟩

theorem Relabels.match_ (h : Relabels ρ b b') (side : Side) {limit limit' : ℕ}
    (hlimit : SameIdx ρ limit limit') (qty : Quantity) (id : OrderId) (ts : Timestamp) :
    AgreeWith (SameTrades ρ) (SameAnswer ρ) (OrderBook.match_ side b limit qty id ts)
      (OrderBook.match_ (ρ.side side) b' limit' qty id ts) := by
  rw [match_eq_matchLoop, match_eq_matchLoop, h.cfg_eq, h.cfg_eq', ρ.numLevels_eq,
    ← ρ.side_opposite]
  exact h.matchLoop side hlimit id ts _ (h.best _) qty

/-! ### `submit` -/

section Crossing

variable {price : Price}

omit [IdMap M] in
theorem Relabels.wouldCross_eq (h : Relabels ρ b b') (side : Side)
    (hprice : b.inRange price = true) :
    b'.wouldCross (ρ.side side) (ρ.price price) = b.wouldCross side price := by
  obtain ⟨k, hat, -, hsize, -, hsize'⟩ := h.priceToIdx hprice
  rw [Bool.eq_iff_iff, wouldCross_eq_true hsize, wouldCross_eq_true hsize', ← ρ.side_opposite]
  have hbest := h.best (opposite side)
  generalize b.bestIdx (opposite side) = j at hbest
  generalize b'.bestIdx (ρ.side (opposite side)) = j' at hbest
  cases hbest with
  | none => exact iff_of_false (fun hcon => hcon.1 rfl) fun hcon => hcon.1 rfl
  | level hj =>
    refine and_congr (SameIdx.level hj).ne_iff (not_congr ?_)
    exact ρ.better_iff _ k hat.lt _ hj

theorem Relabels.aggress (h : Relabels ρ b b') (id : OrderId) (side : Side) {type : OrderType}
    (tif : TimeInForce) (hprice : type ≠ .market → b.inRange price = true) (qty : Quantity)
    (ts : Timestamp) :
    AgreeWith (SameTrades ρ) (SameAnswer ρ) (b.aggress id side type tif price qty ts)
      (b'.aggress id (ρ.side side) type tif (ρ.price price) qty ts) := by
  unfold OrderBook.aggress
  apply AgreeWith.ite
  · refine and_congr_right fun _ => ?_
    by_cases ht : type = .market
    · exact iff_of_true (Or.inl ht) (Or.inl ht)
    · rw [h.wouldCross_eq side (hprice ht)]
  · intro _
    apply h.match_
    by_cases ht : type = .market
    · rw [if_pos ht, if_pos ht]
      exact .none
    · obtain ⟨k, hat, hidx, -, hidx', -⟩ := h.priceToIdx (hprice ht)
      rw [if_neg ht, if_neg ht, hidx, hidx']
      exact .level hat.lt
  · exact fun _ => .pure ⟨h, rfl⟩

theorem Relabels.execute (h : Relabels ρ b b') (id : OrderId) (side : Side) {type : OrderType}
    (tif : TimeInForce) (hprice : type ≠ .market → b.inRange price = true) (qty : Quantity)
    (ts : Timestamp) :
    AgreeWith (SameTrades ρ) (SameAnswer ρ) (b.execute id side type tif price qty ts)
      (b'.execute id (ρ.side side) type tif (ρ.price price) qty ts) := by
  unfold OrderBook.execute
  apply AgreeWith.bind (h.aggress id side tif hprice qty ts)
  rintro ⟨b₁, n⟩ ⟨b₁', n'⟩ ⟨h₁, hn⟩
  obtain rfl : n' = n := hn
  dsimp only at h₁ ⊢
  apply AgreeWith.ite Iff.rfl
  · exact fun _ => .pure ⟨h₁, rfl⟩
  · intro _
    apply AgreeWith.ite Iff.rfl
    · exact fun _ => .pure ⟨h₁, rfl⟩
    · intro hrests
      have hlimit : type ≠ .market := fun ht => hrests (Or.inr ht)
      have hin : b₁.inRange price = true := by
        rw [inRange_congr (h₁.cfg_eq.trans h.cfg_eq.symm), hprice hlimit]
      apply AgreeWith.bind (agreeWith_quiet (h₁.insertResting id side hin n'))
      exact fun b₂ b₂' h₂ => .pure ⟨h₂, rfl⟩

end Crossing

/-! ### The pre-walk -/

section PreWalk

omit [IdMap M]

/-- The limits of the two pre-walks are past the same levels. -/
theorem Relabels.withinLimit_eq (h : Relabels ρ b b') (side : Side) {price price' : Price}
    (hsame : price = kInvalidPrice ∧ price' = kInvalidPrice ∨
      price ≠ kInvalidPrice ∧ price' ≠ kInvalidPrice ∧ price' = ρ.price price ∧
        b.inRange price = true) (hi : i < cfg.numLevels) :
    withinLimit (ρ.side side) (b'.walkLimit (ρ.side side) price') (ρ.level i) =
      withinLimit side (b.walkLimit side price) i := by
  rcases hsame with ⟨rfl, rfl⟩ | ⟨hne, hne', rfl, hprice⟩
  · rw [withinLimit_market side (h.cfg_eq ▸ hi), withinLimit_market]
    rw [h.cfg_eq', ρ.numLevels_eq]
    exact ρ.level_lt i hi
  · obtain ⟨k, hat, hidx, -, hidx', -⟩ := h.priceToIdx hprice
    rw [walkLimit_of_ne _ hne, walkLimit_of_ne _ hne', hidx, hidx', Bool.eq_iff_iff,
      withinLimit_iff, withinLimit_iff, ← ρ.side_opposite]
    exact not_congr (ρ.better_iff _ k hat.lt i hi)

/-- **The loop of the pre-walk.** -/
theorem Relabels.canFill_eq (h : Relabels ρ b b') (side : Side) {limit limit' : ℕ}
    (hlimit : ∀ i < cfg.numLevels,
      withinLimit (ρ.side side) limit' (ρ.level i) = withinLimit side limit i) (qty : Quantity)
    (fuel : ℕ) {j j' : ℕ} (hj : SameIdx ρ j j') (acc : Quantity) :
    b'.canFill (ρ.side side) limit' qty fuel j' acc = b.canFill side limit qty fuel j acc := by
  induction fuel generalizing j j' acc with
  | zero => cases side <;> cases ρ.side _ <;> rfl
  | succ fuel ih =>
    cases hj with
    | none =>
      rw [canFill_stop _ _ _ fun hcon => hcon.1 rfl,
        canFill_stop _ _ _ fun hcon => hcon.1 rfl]
    | level hj =>
      have hne := lt_kNoBest cfg hj
      have hne' := lt_kNoBest cfg (ρ.level_lt _ hj)
      by_cases hlim : withinLimit side limit j = true
      · rw [canFill_succ _ _ _ hne hlim, canFill_succ _ _ _ hne' ((hlimit j hj).trans hlim),
          ← ρ.side_opposite, h.level_eq _ _ hj]
        have hnext := (h.bits (opposite side)).nextBest (opposite side) hj
        have hnone : OrderBook.nextBest (ρ.side (opposite side))
            (b'.bitmap (ρ.side (opposite side))) (ρ.level j) = kNoBest ↔
              OrderBook.nextBest (opposite side) (b.bitmap (opposite side)) j = kNoBest :=
          not_iff_not.mp hnext.ne_iff
        simp only [ih hnext, hnone]
      · rw [canFill_stop _ _ _ fun hcon => hlim hcon.2,
          canFill_stop _ _ _ fun hcon => hlim ((hlimit j hj).symm.trans hcon.2)]

theorem Relabels.fokKills_eq (h : Relabels ρ b b') (side : Side) {type : OrderType}
    {tif : TimeInForce} {price : Price} (hprice : type ≠ .market → b.inRange price = true)
    (hok : tif = .fok → type ≠ .market → (ρ.price price = kInvalidPrice ↔ price = kInvalidPrice))
    (qty : Quantity) :
    b'.fokKills (ρ.side side) type tif (ρ.price price) qty =
      b.fokKills side type tif price qty := by
  unfold fokKills
  by_cases htif : tif = .fok
  · rw [if_pos htif, if_pos htif, canFullyFill_eq, canFullyFill_eq, h.cfg_eq, h.cfg_eq',
      ρ.numLevels_eq, ← ρ.side_opposite,
      h.canFill_eq side (fun i hi => h.withinLimit_eq side ?_ hi) qty _ (h.best _) 0]
    by_cases ht : type = .market
    · rw [if_pos ht, if_pos ht]
      exact Or.inl ⟨rfl, rfl⟩
    · have hsame := hok htif ht
      rw [if_neg ht, if_neg ht]
      by_cases hinvalid : price = kInvalidPrice
      · exact Or.inl ⟨hinvalid, hsame.mpr hinvalid⟩
      · exact Or.inr ⟨hinvalid, mt hsame.mp hinvalid, rfl, hprice ht⟩
  · rw [if_neg htif, if_neg htif]

end PreWalk

/-! ### `submit` and `modify` -/

/-- A limit order gets to the pre-walk of `submit`. -/
structure PreWalked (b : OrderBook M) (o : NewOrder) : Prop where
  type_eq : o.type ≠ .market
  tif_eq : o.tif = .fok
  qty_ne : o.qty ≠ 0
  id_ne : o.id ≠ kInvalidOrderId
  not_found : b.find o.id = .ok none
  in_range : b.inRange o.price = true

/-- An order under other names. -/
def relabelOrder (ρ : Relabel cfg cfg') (o : NewOrder) : NewOrder :=
  { o with side := ρ.side o.side, price := ρ.price o.price }

theorem Relabels.submitOrder (h : Relabels ρ b b') (o : NewOrder)
    (hok : PreWalked b o → (ρ.price o.price = kInvalidPrice ↔ o.price = kInvalidPrice)) :
    AgreeWith (SameTrades ρ) (SameAnswer ρ) (b.submitOrder o)
      (b'.submitOrder (relabelOrder ρ o)) := by
  unfold OrderBook.submitOrder OrderBook.submit relabelOrder
  dsimp only
  apply AgreeWith.ite Iff.rfl
  · exact fun _ => .pure ⟨h, rfl⟩
  intro hvalid
  obtain ⟨hqty, hid⟩ := not_or.mp hvalid
  rw [h.find_eq]
  -- the answer of the lookup is the same, and is needed below
  have hlookup : Agree (fun p p' => p' = p ∧ b.find o.id = .ok p) (b.find o.id) (b.find o.id) := by
    cases b.find o.id with
    | ok p => exact .ok ⟨rfl, rfl⟩
    | error e => exact .error e
  apply AgreeWith.bind (agreeWith_quiet hlookup)
  rintro _ p ⟨rfl, hfind⟩
  cases p with
  | some p => exact .pure ⟨h, rfl⟩
  | none =>
    apply AgreeWith.ite
    · rw [h.inRange_eq]
    · exact fun _ => .pure ⟨h, rfl⟩
    · intro hin
      have hprice : o.type ≠ .market → b.inRange o.price = true := fun ht => by
        by_contra hout
        exact hin ⟨ht, hout⟩
      have hwalk : o.tif = .fok → o.type ≠ .market →
          (ρ.price o.price = kInvalidPrice ↔ o.price = kInvalidPrice) := fun htif ht =>
        hok ⟨ht, htif, hqty, hid, hfind, hprice ht⟩
      rw [h.fokKills_eq o.side hprice hwalk]
      apply AgreeWith.bind (agreeWith_quiet (Agree.of_eq rfl))
      rintro killed _ rfl
      apply AgreeWith.ite Iff.rfl
      · exact fun _ => .pure ⟨h, rfl⟩
      · intro _
        by_cases ht : o.type = .market
        · by_cases hpost : o.tif = .postOnly
          · -- the price means nothing, and whether it crosses makes no difference
            rw [ht, hpost, execute_kept_out _ _ _ _ hqty, execute_kept_out _ _ _ _ hqty, ite_self,
              ite_self]
            exact .pure ⟨h, rfl⟩
          · rw [if_neg fun hcon => hpost hcon.1, if_neg fun hcon => hpost hcon.1]
            exact h.execute o.id o.side o.tif hprice o.qty o.ts
        · apply AgreeWith.ite
          · rw [h.wouldCross_eq o.side (hprice ht)]
          · exact fun _ => .pure ⟨h, rfl⟩
          · exact fun _ => h.execute o.id o.side o.tif hprice o.qty o.ts

theorem Relabels.modify (h : Relabels ρ b b') (id : OrderId) (newQty : Quantity)
    (newPrice : Price) (ts : Timestamp) :
    AgreeWith (SameTrades ρ) (SameAnswer ρ) (b.modify id newQty newPrice ts)
      (b'.modify id newQty (ρ.price newPrice) ts) := by
  unfold OrderBook.modify
  rw [h.find_eq]
  apply AgreeWith.bind (agreeWith_quiet (Agree.of_eq rfl))
  rintro p _ rfl
  cases p with
  | none => exact .pure ⟨h, rfl⟩
  | some p =>
    apply AgreeWith.bind (agreeWith_quiet (h.slab.read p))
    intro o o' ho
    rw [ho.price_eq, ho.quantity_eq, ho.side_eq]
    apply AgreeWith.ite
    · rw [ρ.price_inj ho.at_level]
    · intro _
      apply AgreeWith.bind (agreeWith_quiet (h.shrinkOrder ho p newQty _))
      exact fun b₁ b₁' h₁ => .pure ⟨h₁, rfl⟩
    · intro _
      apply AgreeWith.bind (agreeWith_quiet (h.cancel id))
      intro r r' hr
      -- the order is a limit order without a pre-walk
      exact hr.book.submitOrder ⟨id, o.side, .limit, .gtc, newPrice, newQty, ts⟩
        fun hwalk => absurd hwalk.tif_eq nofun

/-! ### Sequences of calls -/

/-- What a call returns. -/
inductive Answer where
  | submitted (res : SubmitResult)
  | found (ok : Bool)
  deriving DecidableEq, Repr

/-- The book after a call, and what the call returns. -/
def answer (b : OrderBook M) : Call → SinkM (OrderBook M × Answer)
  | .submit o => do
    let (b, res) ← b.submitOrder o
    return (b, .submitted res)
  | .cancel id => do
    let (ok, b) ← quiet (b.cancel id)
    return (b, .found ok)
  | .reduce id delta => do
    let (ok, b) ← quiet (b.reduce id delta)
    return (b, .found ok)
  | .modify id newQty newPrice ts => do
    let (b, res) ← b.modify id newQty newPrice ts
    return (b, .submitted res)

theorem exec_eq_answer (b : OrderBook M) (c : Call) : b.exec c = Prod.fst <$> b.answer c := by
  cases c with
  | submit o => simp [exec, answer]
  | cancel id => simp [exec, answer]
  | reduce id delta => simp [exec, answer]
  | modify id newQty newPrice ts => simp [exec, answer]

/-- The calls, one after the other. -/
def answers (b : OrderBook M) : List Call → SinkM (OrderBook M × List Answer)
  | [] => return (b, [])
  | c :: cs => do
    let (b, a) ← b.answer c
    let (b, as) ← answers b cs
    return (b, a :: as)

/-- What the calls return, if all of them do. -/
def answered (b : OrderBook M) (cs : List Call) : Option (List Answer) :=
  match (b.answers cs).run [] with
  | .ok (_, as) _ => some as
  | .error _ _ => none

theorem answered_of_run {cs : List Call} {b' : OrderBook M} {as : List Answer} {ts : List Trade}
    (h : (b.answers cs).run [] = .ok (b', as) ts) : b.answered cs = some as := by
  unfold answered
  rw [h]

theorem answered_eq_some {cs : List Call} {as : List Answer} (h : b.answered cs = some as) :
    ∃ b' ts, (b.answers cs).run [] = .ok (b', as) ts := by
  unfold answered at h
  cases hrun : (b.answers cs).run [] with
  | ok r ts =>
    rw [hrun] at h
    obtain rfl := Option.some.inj h
    exact ⟨r.1, ts, rfl⟩
  | error e ts =>
    rw [hrun] at h
    cases h

/-- Every call meets the condition in the book that it is made on. -/
def Throughout (ok : OrderBook M → Call → Prop) : OrderBook M → List Call → Prop
  | _, [] => True
  | b, c :: cs => ok b c ∧
    ∀ b' a ts ts', (b.answer c).run ts = .ok (b', a) ts' → Throughout ok b' cs

theorem Run.answer {ok : OrderBook M → Call → Prop} (h : Run ok cfg b) {c : Call} (hok : ok b c)
    {a : Answer} {ts ts' : List Trade} (hrun : (b.answer c).run ts = .ok (b', a) ts') :
    Run ok cfg b' := by
  have hexec : (b.exec c).run ts = .ok b' ts' := by
    rw [exec_eq_answer, map_eq_pure_bind]
    exact sink_bind hrun _
  exact .step h hok hexec

/-- The book after the calls is one that a run reaches. -/
theorem Run.answers {ok : OrderBook M → Call → Prop} (h : Run ok cfg b) {cs : List Call}
    (hok : Throughout ok b cs) {as : List Answer} {ts ts' : List Trade}
    (hrun : (b.answers cs).run ts = .ok (b', as) ts') : Run ok cfg b' := by
  induction cs generalizing b as ts with
  | nil =>
    cases hrun
    exact h
  | cons c cs ih =>
    obtain ⟨⟨b₁, a⟩, ts₁, hrun₁, hrest⟩ := exists_of_sink_bind hrun
    obtain ⟨⟨b₂, as'⟩, ts₂, hrun₂, hpure⟩ := exists_of_sink_bind hrest
    cases hpure
    exact ih (h.answer hok.1 hrun₁) (hok.2 _ _ _ _ hrun₁) hrun₂

/-- A call under other names. -/
def relabelCall (ρ : Relabel cfg cfg') : Call → Call
  | .submit o => .submit (relabelOrder ρ o)
  | .cancel id => .cancel id
  | .reduce id delta => .reduce id delta
  | .modify id newQty newPrice ts => .modify id newQty (ρ.price newPrice) ts

/-- A limit that gets to the pre-walk is `kInvalidPrice` under both names or under neither. -/
def SameLimitKind (ρ : Relabel cfg cfg') (b : OrderBook M) : Call → Prop
  | .submit o => PreWalked b o → (ρ.price o.price = kInvalidPrice ↔ o.price = kInvalidPrice)
  | _ => True

theorem Relabels.answer (h : Relabels ρ b b') {c : Call} (hok : SameLimitKind ρ b c) :
    AgreeWith (SameTrades ρ) (SameAnswer ρ) (b.answer c) (b'.answer (relabelCall ρ c)) := by
  cases c with
  | submit o =>
    apply AgreeWith.bind (h.submitOrder o hok)
    exact fun r r' hr => .pure ⟨hr.book, congrArg Answer.submitted hr.answer_eq⟩
  | cancel id =>
    apply AgreeWith.bind (agreeWith_quiet (h.cancel id))
    exact fun r r' hr => .pure ⟨hr.book, congrArg Answer.found hr.flag_eq⟩
  | reduce id delta =>
    apply AgreeWith.bind (agreeWith_quiet (h.reduce id delta))
    exact fun r r' hr => .pure ⟨hr.book, congrArg Answer.found hr.flag_eq⟩
  | modify id newQty newPrice ts =>
    apply AgreeWith.bind (h.modify id newQty newPrice ts)
    exact fun r r' hr => .pure ⟨hr.book, congrArg Answer.submitted hr.answer_eq⟩

/-- **Runs in lock step.** -/
theorem Relabels.answers (h : Relabels ρ b b') {cs : List Call}
    (hok : Throughout (SameLimitKind ρ) b cs) :
    AgreeWith (SameTrades ρ) (SameAnswer ρ) (b.answers cs)
      (b'.answers (cs.map (relabelCall ρ))) := by
  induction cs generalizing b b' with
  | nil => exact .pure ⟨h, rfl⟩
  | cons c cs ih =>
    apply AgreeWith.bind_of_returns (h.answer hok.1)
    intro r r' ts ts' hr hrun
    apply AgreeWith.bind (ih hr.book (hok.2 _ _ _ _ hrun))
    intro q q' hq
    refine .pure ⟨hq.book, ?_⟩
    dsimp only
    rw [hr.answer_eq, hq.answer_eq]

omit [IdMap M] in
theorem sameSlab_new (ρ : Relabel cfg cfg') :
    SameSlab ρ (.new cfg.maxOrders) (.new cfg'.maxOrders) := by
  rw [ρ.maxOrders_eq]
  refine ⟨rfl, rfl, rfl, fun p => ⟨rfl, rfl, fun hlive => ?_⟩⟩
  rw [SlabAllocator.new_live] at hlive
  cases hlive

theorem relabels_new (ρ : Relabel cfg cfg') :
    Relabels ρ (new cfg : OrderBook M) (new cfg') := by
  refine ⟨rfl, rfl, ?_, sameSlab_new ρ, fun s i _ => ?_, fun s => ?_, fun s => ?_⟩
  · show IdMap.new (nextPow2 (cfg'.maxOrders * 2)) = _
    rw [ρ.maxOrders_eq]
    rfl
  · cases s <;> cases ρ.side _ <;> rfl
  · cases s <;> cases ρ.side _ <;> exact .new ρ
  · cases s <;> cases ρ.side _ <;> exact .none

/-- A condition on the calls alone. -/
theorem Relabels.throughout (h : Relabels ρ b b') {cs : List Call}
    (hok : ∀ b : OrderBook M, b.cfg = cfg → ∀ c ∈ cs, SameLimitKind ρ b c) :
    Throughout (SameLimitKind ρ) b cs := by
  induction cs generalizing b b' with
  | nil => trivial
  | cons c cs ih =>
    have hc := hok b h.cfg_eq c List.mem_cons_self
    refine ⟨hc, fun b₁ a ts ts' hcall => ?_⟩
    -- the next book has the same configuration, as it is relabelled, too
    obtain ⟨r, -, -, -, hr⟩ := (h.answer hc).exists_of_ok (T := SameTrades ρ) rfl hcall
    exact ih hr.book fun b hcfg c hmem => hok b hcfg c (List.mem_cons_of_mem _ hmem)

/-- The calls that come first in a run make a run. -/
theorem answers_prefix {pre post : List Call} {r : OrderBook M × List Answer}
    {ts ts' : List Trade} (h : (b.answers (pre ++ post)).run ts = .ok r ts') :
    ∃ b₁ as ts₁, (b.answers pre).run ts = .ok (b₁, as) ts₁ := by
  induction pre generalizing b r ts ts' with
  | nil => exact ⟨b, [], ts, rfl⟩
  | cons c pre ih =>
    obtain ⟨⟨b₁, a⟩, ts₁, hcall, h⟩ := exists_of_sink_bind h
    obtain ⟨q, ts₂, hcalls, -⟩ := exists_of_sink_bind h
    obtain ⟨b₂, as, ts₃, hpre⟩ := ih hcalls
    refine ⟨b₂, a :: as, ts₃, ?_⟩
    unfold OrderBook.answers
    rw [sink_bind hcall]
    dsimp only
    rw [sink_bind hpre]
    rfl

theorem Throughout.of_append {ok : OrderBook M → Call → Prop} {pre post : List Call}
    (h : Throughout ok b (pre ++ post)) : Throughout ok b pre := by
  induction pre generalizing b with
  | nil => trivial
  | cons c pre ih => exact ⟨h.1, fun b' a ts ts' hcall => ih (h.2 b' a ts ts' hcall)⟩

/-- **A run under other names**, after each of its calls. -/
theorem answers_relabel (ρ : Relabel cfg cfg') {cs pre : List Call}
    (hok : Throughout (SameLimitKind ρ) (new cfg : OrderBook M) cs)
    {r : OrderBook M × List Answer} {ts : List Trade}
    (h : ((new cfg : OrderBook M).answers cs).run [] = .ok r ts) (hpre : pre <+: cs) :
    ∃ b as ts₁ b', ((new cfg : OrderBook M).answers pre).run [] = .ok (b, as) ts₁ ∧
      ((new cfg' : OrderBook M).answers (pre.map (relabelCall ρ))).run [] =
        .ok (b', as) (ts₁.map (relabelTrade ρ)) ∧ Relabels ρ b b' := by
  obtain ⟨post, rfl⟩ := hpre
  obtain ⟨b, as, ts₁, hrun⟩ := answers_prefix h
  obtain ⟨⟨b', as'⟩, ts', hrun', hts, hr⟩ :=
    ((relabels_new ρ).answers hok.of_append).exists_of_ok (T := SameTrades ρ) rfl hrun
  obtain rfl : as' = as := hr.answer_eq
  obtain rfl : ts' = ts₁.map (relabelTrade ρ) := hts
  exact ⟨b, as', ts₁, b', hrun, hrun', hr.book⟩

/-! ### Queries -/

/-- A level that `top_n` writes, under other names. -/
def relabelSnapshot (ρ : Relabel cfg cfg') (l : LevelSnapshot) : LevelSnapshot :=
  { l with price := ρ.price l.price }

section Queries

omit [IdMap M]

theorem Relabels.totalAt_eq (h : Relabels ρ b b') (s : Side) (p : Price) :
    b'.totalAt (ρ.side s) (ρ.price p) = b.totalAt s p := by
  unfold totalAt
  rw [h.inRange_eq]
  by_cases hp : b.inRange p = true
  · obtain ⟨i, hat, hidx, -, hidx', -⟩ := h.priceToIdx hp
    rw [if_pos hp, if_pos hp, hidx, hidx', h.level_eq s i hat.lt]
  · rw [if_neg hp, if_neg hp]

theorem Relabels.topLoop_eq (h : Relabels ρ b b') (s : Side) (n : ℕ) {j j' : ℕ}
    (hj : SameIdx ρ j j') :
    b'.topLoop (ρ.side s) n j' = (b.topLoop s n j).map (relabelSnapshot ρ) := by
  induction n generalizing j j' with
  | zero => rw [topLoop_zero, topLoop_zero, List.map_nil]
  | succ n ih =>
    cases hj with
    | none => rw [topLoop_none, topLoop_none, List.map_nil]
    | level hj =>
      rw [topLoop_succ n (lt_kNoBest cfg hj), topLoop_succ n (lt_kNoBest cfg (ρ.level_lt _ hj)),
        List.map_cons, ih ((h.bits s).nextBest s hj)]
      congr 1
      unfold snapshot relabelSnapshot
      rw [h.idxToPrice hj, h.level_eq s _ hj]

theorem Relabels.topN_eq (h : Relabels ρ b b') (s : Side) (n : ℕ) :
    b'.topN (ρ.side s) n = (b.topN s n).map (relabelSnapshot ρ) := by
  rw [topN_eq_topLoop, topN_eq_topLoop]
  exact h.topLoop_eq s n (h.best s)

/-- The best prices of a side are the same, or the side is empty in both books. -/
theorem Relabels.best_cases (h : Relabels ρ b b') (s : Side) :
    (b.bestIdx s = kNoBest ∧ b'.bestIdx (ρ.side s) = kNoBest) ∨
      ∃ i, AtLevel cfg (b.best s) i ∧ b.bestIdx s = i ∧ b'.bestIdx (ρ.side s) = ρ.level i ∧
        b'.best (ρ.side s) = ρ.price (b.best s) := by
  have hbest := h.best s
  by_cases hno : b.bestIdx s = kNoBest
  · exact Or.inl ⟨hno, not_not.mp (mt hbest.ne_iff.mp (not_not.mpr hno))⟩
  · have hprice := best_eq hno
    have hprice' := best_eq (hbest.ne_iff.mpr hno)
    generalize b.bestIdx s = i at *
    generalize b'.bestIdx (ρ.side s) = i' at *
    cases hbest with
    | none => exact absurd rfl hno
    | level hi =>
      obtain ⟨p, hp⟩ := ρ.priced i hi
      have hidx := idxToPrice_of_atLevel h.cfg_eq hp
      refine Or.inr ⟨i, ?_, rfl, rfl, ?_⟩
      · rwa [hprice, hidx]
      · rw [hprice, hprice', h.idxToPrice hi]

end Queries

end Lob.OrderBook
