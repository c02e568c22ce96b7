import Mathlib.Logic.Relation
import Lob.Equiv.OrderBook.Lifecycle

/-!
# The probes of the id table end

The calls change the id index by insertions and erasures only (`exec_updates`), and neither changes
the size of the table.  After a run whose calls are `Safe` the slots of the table that are in use
are as many as the orders that rest, and fewer than the slots that there are (`Run.probed`): every
probe finds its id or an empty slot.  An unsafe call leaves an entry behind that no later call
removes (`leakedBid_not_probed`).
-/

namespace Lob

/-! ### Changes of the id index -/

/-- One insertion or erasure. -/
inductive Updated {M : Type} [IdMap M] (m m' : M) : Prop where
  | insert {id : OrderId} {p : Ptr} {done : Bool} (h : IdMap.insert m id p = some (done, m'))
  | erase {id : OrderId} {done : Bool} (h : IdMap.erase m id = some (done, m'))

/-- Insertions and erasures, one after the other. -/
abbrev Updates {M : Type} [IdMap M] : M → M → Prop := Relation.ReflTransGen Updated

theorem exists_of_orHang {α : Type} {x : Option α} {a : α} (h : orHang x = .ok a) : x = some a := by
  unfold orHang at h
  split at h <;> cases h
  rfl

namespace OrderBook

variable {M : Type} {b b' : OrderBook M} {o : Ptr} {id : OrderId}

theorem idMap_occupy (s : Side) (i : ℕ) : (b.occupy s i).idMap = b.idMap := by cases s <;> rfl

theorem removeFromBook_idMap (h : b.removeFromBook o = .ok b') : b'.idMap = b.idMap := by
  unfold removeFromBook at h
  obtain ⟨order, -, h⟩ := exists_of_bind h
  obtain ⟨⟨orders, slab⟩, -, h⟩ := exists_of_bind h
  cases h
  split_ifs
  · rw [vacate_eq, idMap_setIndex, idMap_setLevel]
  · rw [idMap_setLevel]

theorem shrinkOrder_idMap {order : Order} {qty delta : Quantity}
    (h : b.shrinkOrder o order qty delta = .ok b') : b'.idMap = b.idMap := by
  unfold shrinkOrder at h
  obtain ⟨slab, -, h⟩ := exists_of_bind h
  cases h
  rw [idMap_setLevel]

theorem deallocate_idMap (h : b.deallocate o = .ok b') : b'.idMap = b.idMap := by
  unfold deallocate at h
  obtain ⟨slab, -, h⟩ := exists_of_bind h
  cases h
  rfl

theorem idMap_advance (side : Side) (i : ℕ) : (b.advance side i).2.idMap = b.idMap := by
  rw [advance_eq]
  exact idMap_setIndex

variable [IdMap M]

theorem eraseId_updates (h : b.eraseId id = .ok b') : Updates b.idMap b'.idMap := by
  unfold eraseId at h
  obtain ⟨⟨done, m⟩, herase, h⟩ := exists_of_bind h
  cases h
  exact .single (.erase (exists_of_orHang herase))

theorem dropOrder_updates (h : b.dropOrder id o = .ok b') : Updates b.idMap b'.idMap := by
  unfold dropOrder at h
  obtain ⟨b₁, hremove, h⟩ := exists_of_bind h
  obtain ⟨b₂, herase, h⟩ := exists_of_bind h
  have hupdates := eraseId_updates herase
  rwa [removeFromBook_idMap hremove, ← deallocate_idMap h] at hupdates

theorem cancel_updates {found : Bool} (h : b.cancel id = .ok (found, b')) :
    Updates b.idMap b'.idMap := by
  unfold cancel at h
  obtain ⟨p, -, h⟩ := exists_of_bind h
  cases p with
  | none =>
    cases h
    exact .refl
  | some o =>
    obtain ⟨b₁, hdrop, h⟩ := exists_of_bind h
    cases h
    exact dropOrder_updates hdrop

theorem reduce_updates {delta : Quantity} {found : Bool}
    (h : b.reduce id delta = .ok (found, b')) : Updates b.idMap b'.idMap := by
  unfold reduce at h
  obtain ⟨p, -, h⟩ := exists_of_bind h
  cases p with
  | none =>
    cases h
    exact .refl
  | some o =>
    obtain ⟨order, -, h⟩ := exists_of_bind h
    split_ifs at h
    · obtain ⟨b₁, hdrop, h⟩ := exists_of_bind h
      cases h
      exact dropOrder_updates hdrop
    · obtain ⟨b₁, hshrink, h⟩ := exists_of_bind h
      cases h
      rw [shrinkOrder_idMap hshrink]

theorem insertResting_updates {side : Side} {price : Price} {qty : Quantity}
    (h : b.insertResting id side price qty = .ok b') : Updates b.idMap b'.idMap := by
  unfold insertResting at h
  split at h
  · cases h
  · obtain ⟨slab₁, -, h⟩ := exists_of_bind h
    obtain ⟨⟨orders, slab₂⟩, -, h⟩ := exists_of_bind h
    obtain ⟨⟨done, m⟩, hinsert, h⟩ := exists_of_bind h
    cases h
    apply Relation.ReflTransGen.single
    have hmap := exists_of_orHang hinsert
    split_ifs at hmap
    · rw [idMap_occupy, idMap_setLevel] at hmap
      exact .insert hmap
    · rw [idMap_setLevel] at hmap
      exact .insert hmap

theorem takeFromHead_updates {side : Side} {i : ℕ} {order : Order} {fill : Quantity}
    (h : b.takeFromHead side i o order fill = .ok b') : Updates b.idMap b'.idMap := by
  unfold takeFromHead at h
  obtain ⟨slab, -, h⟩ := exists_of_bind h
  split_ifs at h
  · obtain ⟨⟨orders, slab'⟩, -, h⟩ := exists_of_bind h
    obtain ⟨b₁, herase, h⟩ := exists_of_bind h
    have hupdates := eraseId_updates herase
    rw [idMap_setLevel] at hupdates
    rw [deallocate_idMap h]
    simpa using hupdates
  · cases h
    rw [idMap_setLevel]

variable {side : Side} {ts : Timestamp} {i limit n : ℕ} {qty : Quantity} {price : Price}
  {type : OrderType} {tif : TimeInForce} {trades trades' : List Trade}

theorem fillLevel_updates {fuel : ℕ} {x : OrderBook M × Quantity}
    (h : (fillLevel side id ts i fuel b qty).run trades = .ok x trades') :
    Updates b.idMap x.1.idMap := by
  induction fuel generalizing b qty trades with
  | zero => cases h
  | succ fuel ih =>
    unfold fillLevel at h
    split_ifs at h
    · split at h
      · cases h
        exact .refl
      · obtain ⟨order, ts₁, -, h⟩ := exists_of_sink_bind h
        obtain ⟨-, ts₂, -, h⟩ := exists_of_sink_bind h
        obtain ⟨b₁, ts₃, htake, h⟩ := exists_of_sink_bind h
        exact (takeFromHead_updates (ok_of_quiet htake)).trans (ih h)
    · cases h
      exact .refl

theorem matchLoop_updates {fuel : ℕ} {x : OrderBook M × Quantity}
    (h : (matchLoop side limit id ts fuel b i qty).run trades = .ok x trades') :
    Updates b.idMap x.1.idMap := by
  induction fuel generalizing b i qty trades with
  | zero => cases h
  | succ fuel ih =>
    unfold matchLoop at h
    split_ifs at h
    · cases h
      exact .refl
    · obtain ⟨⟨b₁, remaining⟩, ts₁, hfill, h⟩ := exists_of_sink_bind h
      have hupdates := fillLevel_updates hfill
      dsimp only at h hupdates
      split_ifs at h
      · have hrest := ih h
        rw [idMap_advance] at hrest
        exact hupdates.trans hrest
      · cases h
        exact hupdates
    · cases h
      exact .refl

theorem aggress_updates {x : OrderBook M × Quantity}
    (h : (b.aggress id side type tif price qty ts).run trades = .ok x trades') :
    Updates b.idMap x.1.idMap := by
  unfold aggress at h
  split_ifs at h
  · exact matchLoop_updates h
  · exact matchLoop_updates h
  · cases h
    exact .refl

theorem execute_updates {x : OrderBook M × SubmitResult}
    (h : (b.execute id side type tif price qty ts).run trades = .ok x trades') :
    Updates b.idMap x.1.idMap := by
  unfold execute at h
  obtain ⟨⟨b₁, remaining⟩, ts₁, haggress, h⟩ := exists_of_sink_bind h
  have hupdates := aggress_updates haggress
  dsimp only at h hupdates
  by_cases hz : remaining = 0
  · rw [if_pos hz] at h
    cases h
    exact hupdates
  by_cases hkept : tif = .ioc ∨ type = .market
  · rw [if_neg hz, if_pos hkept] at h
    cases h
    exact hupdates
  · rw [if_neg hz, if_neg hkept] at h
    obtain ⟨b₂, ts₂, hinsert, h⟩ := exists_of_sink_bind h
    cases h
    exact hupdates.trans (insertResting_updates (ok_of_quiet hinsert))

theorem submit_updates {x : OrderBook M × SubmitResult}
    (h : (b.submit id side type tif price qty ts).run trades = .ok x trades') :
    Updates b.idMap x.1.idMap := by
  unfold submit at h
  by_cases hbad : qty = 0 ∨ id = kInvalidOrderId
  · rw [if_pos hbad] at h
    cases h
    exact .refl
  rw [if_neg hbad] at h
  obtain ⟨found, ts₁, -, h⟩ := exists_of_sink_bind h
  cases found with
  | some p =>
    cases h
    exact .refl
  | none =>
    dsimp only at h
    by_cases hprice : type ≠ .market ∧ ¬b.inRange price = true
    · rw [if_pos hprice] at h
      cases h
      exact .refl
    rw [if_neg hprice] at h
    obtain ⟨killed, ts₂, -, h⟩ := exists_of_sink_bind h
    split_ifs at h
    · cases h
      exact .refl
    · cases h
      exact .refl
    · exact execute_updates h

theorem modify_updates {newQty : Quantity} {newPrice : Price} {x : OrderBook M × SubmitResult}
    (h : (b.modify id newQty newPrice ts).run trades = .ok x trades') :
    Updates b.idMap x.1.idMap := by
  unfold OrderBook.modify at h
  obtain ⟨found, ts₁, -, h⟩ := exists_of_sink_bind h
  cases found with
  | none =>
    cases h
    exact .refl
  | some p =>
    obtain ⟨order, ts₂, -, h⟩ := exists_of_sink_bind h
    split_ifs at h
    · obtain ⟨b₁, ts₃, hshrink, h⟩ := exists_of_sink_bind h
      cases h
      rw [shrinkOrder_idMap (ok_of_quiet hshrink)]
    · obtain ⟨⟨found, b₁⟩, ts₃, hcancel, h⟩ := exists_of_sink_bind h
      exact (cancel_updates (ok_of_quiet hcancel)).trans (submit_updates h)

/-- **The id index changes by insertions and erasures only.** -/
theorem exec_updates {c : Call} (h : (b.exec c).run trades = .ok b' trades') :
    Updates b.idMap b'.idMap := by
  cases c with
  | submit o =>
    obtain ⟨x, ts₁, hsubmit, h⟩ := exists_of_sink_bind h
    cases h
    exact submit_updates hsubmit
  | cancel id =>
    obtain ⟨x, ts₁, hcancel, h⟩ := exists_of_sink_bind h
    cases h
    exact cancel_updates (ok_of_quiet hcancel)
  | reduce id delta =>
    obtain ⟨x, ts₁, hreduce, h⟩ := exists_of_sink_bind h
    cases h
    exact reduce_updates (ok_of_quiet hreduce)
  | modify id newQty newPrice ts =>
    obtain ⟨x, ts₁, hmodify, h⟩ := exists_of_sink_bind h
    cases h
    exact modify_updates hmodify

end OrderBook

/-! ### The size of the table -/

namespace OrderIdMap

variable {m m' : OrderIdMap Ptr}

theorem updated_mask (h : Updated m m') : m'.mask = m.mask := by
  cases h with
  | insert h => exact insert_mask h
  | erase h => exact erase_mask h

theorem updates_capacity (h : Updates m m') : m'.capacity = m.capacity := by
  induction h with
  | refl => rfl
  | tail _ hstep ih =>
    rw [← ih]
    unfold capacity
    rw [updated_mask hstep]

theorem nextPow2_eq (n : ℕ) : ∃ k, OrderBook.nextPow2 n = 2 ^ k := by
  have hloop : ∀ fuel k, ∃ j, OrderBook.nextPow2Loop n fuel (2 ^ k) = 2 ^ j := by
    intro fuel
    induction fuel with
    | zero => exact fun k => ⟨k, rfl⟩
    | succ fuel ih =>
      intro k
      rw [OrderBook.nextPow2Loop, Nat.shiftLeft_eq, pow_one, ← pow_succ]
      split_ifs
      · exact ih (k + 1)
      · exact ⟨k, rfl⟩
  exact hloop 64 0

/-- A power of two is rounded up to itself. -/
theorem roundUpPow2_two_pow {k : ℕ} (hpos : 0 < k) (hk : k < 64) : roundUpPow2 (2 ^ k) = 2 ^ k := by
  have htwo : 2 ≤ 2 ^ k := Nat.pow_le_pow_right Nat.zero_lt_two hpos
  have hlt : 2 ^ k < 2 ^ 64 := Nat.pow_lt_pow_right (by decide) hk
  set x := BitVec.ofNat 64 (2 ^ k - 1) with hx
  have hval : x.toNat = 2 ^ k - 1 := by
    rw [hx, BitVec.toNat_ofNat, Nat.mod_eq_of_lt (by omega)]
  have hne : x ≠ 0 := by
    intro hz
    rw [hz] at hval
    change 0 = _ at hval
    omega
  -- `k` is the number of bits of `2 ^ k - 1`
  have hge := BitVec.toNat_lt_two_pow_sub_clz (x := x)
  have hle := BitVec.two_pow_sub_clz_le_toNat_of_ne_zero (by decide) hne
  rw [hval] at hge hle
  have hk₁ : k ≤ 64 - x.clz.toNat :=
    (Nat.pow_le_pow_iff_right (a := 2) (by decide)).mp (by omega)
  have hk₂ : 64 - 1 - x.clz.toNat < k :=
    (Nat.pow_lt_pow_iff_right (a := 2) (by decide)).mp (by omega)
  unfold roundUpPow2
  rw [if_neg (by omega), ← hx, Nat.one_shiftLeft]
  congr 1
  omega

/-- The table of a book has `next_pow2(2 * max_orders)` slots, and two at least. -/
theorem new_capacity_eq {n : ℕ} (hn : n * 40 < 2 ^ 63) :
    (new (OrderBook.nextPow2 (n * 2)) : OrderIdMap Ptr).capacity =
      max 2 (OrderBook.nextPow2 (n * 2)) := by
  rw [new_capacity]
  obtain ⟨k, hk⟩ := nextPow2_eq (n * 2)
  rcases Nat.eq_zero_or_pos k with rfl | hpos
  · rw [hk]
    rfl
  · have hle : OrderBook.nextPow2 (n * 2) ≤ 2 * (n * 2) ∨ n = 0 := by
      rcases Nat.eq_zero_or_pos n with hz | hn'
      · exact Or.inr hz
      · exact Or.inl (nextPow2Loop_le _ 64 1 (by omega))
    have hlt : 2 ^ k < 2 ^ 64 := by
      rcases hle with hle | rfl
      · omega
      · rw [← hk]
        decide
    have hk64 := (Nat.pow_lt_pow_iff_right (a := 2) (by decide)).mp hlt
    have htwo : 2 ≤ 2 ^ k := Nat.pow_le_pow_right Nat.zero_lt_two hpos
    rw [hk, roundUpPow2_two_pow hpos hk64, max_eq_right htwo]

/-- The probe for an id stops at the id or at an empty slot. -/
theorem Represents.locate_stops {f : OrderId → Option (Option Ptr)} (h : m.Represents f)
    (id : OrderId) : ∃ i < m.capacity, m.locate id = some i ∧
      ((m.slots i).id = id ∨ (m.slots i).id = kInvalidOrderId) := by
  cases hf : f id with
  | none =>
    obtain ⟨d, -, hloc, hnone⟩ := h.locate_unbound hf
    exact ⟨_, Nat.mod_lt _ m.capacity_pos, hloc, Or.inr (entry_eq_none_iff.mp hnone)⟩
  | some v =>
    obtain ⟨i, hi, hloc, hslot⟩ := h.locate_bound hf
    exact ⟨i, hi, hloc, Or.inl (by rw [hslot])⟩

end OrderIdMap

namespace OrderBook

/-- **The probes end.**  As many slots of the table are in use as orders rest, which are fewer than
its slots, and the probe for any id stops. -/
structure Probed (b : OrderBook (OrderIdMap Ptr)) : Prop where
  occupied_eq : b.idMap.occupied.card = b.openOrders
  openOrders_le : b.openOrders ≤ b.cfg.maxOrders
  lt_capacity : b.cfg.maxOrders < b.idMap.capacity
  capacity_eq : b.idMap.capacity = max 2 (nextPow2 (b.cfg.maxOrders * 2))
  stops : ∀ id, ∃ i < b.idMap.capacity, b.idMap.locate id = some i ∧
    ((b.idMap.slots i).id = id ∨ (b.idMap.slots i).id = kInvalidOrderId)

theorem Good.occupied_eq {b : OrderBook (OrderIdMap Ptr)} {A : Queues} (h : Good b A) :
    b.idMap.occupied.card = b.openOrders := by
  obtain ⟨ids, hnodup, hmem, hlen⟩ := h.exists_ids
  obtain ⟨f, ⟨hrep, -⟩, hf⟩ := h.indexed
  rw [← hlen, ← List.toFinset_card_of_nodup hnodup]
  refine hrep.card_eq fun id => ?_
  -- the bound ids are those under which an order rests
  rw [List.mem_toFinset, hmem, Queues.rests_iff, ne_eq, Option.map_eq_none_iff, ← ne_eq,
    Option.ne_none_iff_exists']
  exact exists_congr fun p => (hf id p).symm

theorem Run.capacity_eq {ok : OrderBook (OrderIdMap Ptr) → Call → Prop} {cfg : Config}
    {b : OrderBook (OrderIdMap Ptr)} (h : Run ok cfg b) :
    b.idMap.capacity = max 2 (nextPow2 (cfg.maxOrders * 2)) := by
  induction h with
  | new => exact OrderIdMap.new_capacity_eq cfg.orders_fit
  | step _ _ hexec ih => rw [OrderIdMap.updates_capacity (exec_updates hexec), ih]

/-- **The probes end over runs.**  After every run whose calls are safe the probes end, and no
further safe call hangs. -/
theorem Run.probed {cfg : Config} {b : OrderBook (OrderIdMap Ptr)}
    (h : Run (fun b c => Safe b b.queue c) cfg b) :
    Probed b ∧ ∀ c trades trades', Safe b b.queue c →
      (b.exec c).run trades ≠ .error .hang trades' := by
  obtain ⟨hgood, hcfg⟩ := h.good fun _ _ hok => hok
  obtain ⟨f, ⟨hrep, hlt⟩, -⟩ := hgood.indexed
  constructor
  · refine ⟨hgood.occupied_eq, hgood.core.openOrders_le, hlt, ?_, hrep.locate_stops⟩
    rw [hcfg]
    exact h.capacity_eq
  · intro c trades trades' hsafe hexec
    have hs := hgood.exec hsafe trades
    rw [hexec] at hs
    cases hs.fault

theorem slotReused_probed :
    Probed slotReused ∧ ∀ c trades trades', Safe slotReused slotReused.queue c →
      (slotReused.exec c).run trades ≠ .error .hang trades' :=
  slotReused_run.probed

/-- The orders with the ids 10 and 8 are filled.  The id 8, which is not found, stays in the
table. -/
def leakedBid : OrderBook (OrderIdMap Ptr) :=
  strandedBid.after (.submit { gtcOrder 2 .sell 0 10 with tif := .ioc })

theorem leakedBid_not_probed :
    ¬∀ (cfg : Config) (b : OrderBook (OrderIdMap Ptr)), Reachable cfg b → Probed b := by
  intro hall
  have hrun : Reachable smallConfig leakedBid :=
    ((((oneBid_run.mono fun _ _ _ => trivial).after trivial (by decide)).after trivial
      (by decide)).after trivial (by decide)).after trivial (by decide +kernel)
  have heq := (hall _ _ hrun).occupied_eq
  have hmem : 1 ∈ leakedBid.idMap.occupied := by
    have hlt : 1 < leakedBid.idMap.capacity := by decide +kernel
    have hid : (leakedBid.idMap.slots 1).id = 8 := by decide +kernel
    refine Finset.mem_filter.mpr ⟨Finset.mem_range.mpr hlt, fun hnone => ?_⟩
    rw [OrderIdMap.entry_eq_none_iff, hid] at hnone
    cases hnone
  have hopen : leakedBid.openOrders = 0 := by decide +kernel
  rw [hopen] at heq
  exact Finset.ne_empty_of_mem hmem (Finset.card_eq_zero.mp heq)

end OrderBook

end Lob
