import Lob.Ledger
import Lob.Equiv.OrderBook.Outcome
import Mathlib.Algebra.BigOperators.Group.Finset.Basic

/-!
# No quantity is created or lost

`Queues.quantity` is the quantity that the queues hold under an id.  Dropping, shrinking and filling
orders and letting one rest change it by the amounts that these are about, so that a call takes from
an order what it trades and what the call itself is charged with (`Flow`).  The accounts of every
run are then balanced (`Reachable.conserved`).
-/

namespace Lob

namespace Queues

variable {A : Queues} {s : Side} {i n : ℕ} {q xs ys : List Resting} {r : Resting} {id : OrderId}

/-- The quantity that the orders of a queue have under the id. -/
def under (id : OrderId) (q : List Resting) : ℕ :=
  Greedy.total Resting.size (q.filter fun r => r.id = id)

/-- The quantity that the first `n` levels of a side hold under the id. -/
def sideQuantity (A : Queues) (s : Side) (n : ℕ) (id : OrderId) : ℕ :=
  ∑ i ∈ Finset.range n, under id (A s i)

/-- The quantity that the first `n` levels hold under the id. -/
def quantity (A : Queues) (n : ℕ) (id : OrderId) : ℕ :=
  A.sideQuantity .buy n id + A.sideQuantity .sell n id

theorem quantity_eq (A : Queues) (s : Side) (n : ℕ) (id : OrderId) :
    A.quantity n id = A.sideQuantity s n id + A.sideQuantity (opposite s) n id := by
  cases s with
  | buy => rfl
  | sell => exact Nat.add_comm _ _

@[simp] theorem under_append (id : OrderId) (q q' : List Resting) :
    under id (q ++ q') = under id q + under id q' := by
  unfold under
  rw [List.filter_append, Greedy.total_append]

theorem under_cons (id : OrderId) (r : Resting) (q : List Resting) :
    under id (r :: q) = (if r.id = id then r.size else 0) + under id q := by
  unfold under
  rw [List.filter_cons]
  by_cases hid : r.id = id
  · rw [if_pos (decide_eq_true hid), if_pos hid, Greedy.total_cons]
  · rw [if_neg (by simp [hid]), if_neg hid, Nat.zero_add]

theorem under_eq_zero (h : ∀ r ∈ q, r.id ≠ id) : under id q = 0 := by
  unfold under
  rw [List.filter_eq_nil_iff.mpr fun r hr => by simp [h r hr]]
  rfl

/-- One level changes. -/
theorem quantity_set (hi : i < n) (q : List Resting) (id : OrderId) :
    (A.set s i q).quantity n id + under id (A s i) = A.quantity n id + under id q := by
  have hopp : (A.set s i q).sideQuantity (opposite s) n id = A.sideQuantity (opposite s) n id :=
    Finset.sum_congr rfl fun j _ => by rw [set_of_ne fun ht => absurd ht (opposite_ne s)]
  have hrest : ∑ j ∈ (Finset.range n).erase i, under id (A.set s i q s j) =
      ∑ j ∈ (Finset.range n).erase i, under id (A s j) :=
    Finset.sum_congr rfl fun j hj => by rw [set_of_ne fun _ => Finset.ne_of_mem_erase hj]
  have hmem := Finset.mem_range.mpr hi
  have hnew := Finset.add_sum_erase _ (fun j => under id (A.set s i q s j)) hmem
  have hold := Finset.add_sum_erase _ (fun j => under id (A s j)) hmem
  rw [quantity_eq _ s, quantity_eq _ s, hopp]
  unfold sideQuantity
  rw [set_self] at hnew
  omega

theorem quantity_eq_zero (h : ¬A.Rests id) : A.quantity n id = 0 := by
  have hside : ∀ s, A.sideQuantity s n id = 0 := fun s =>
    Finset.sum_eq_zero fun i _ => under_eq_zero fun r hr hid => h ⟨s, i, r, hr, hid⟩
  rw [quantity, hside, hside]

theorem under_orders (A : Queues) (s : Side) (ls : List ℕ) (id : OrderId) :
    under id (A.orders s ls) = (ls.map fun i => under id (A s i)).sum := by
  induction ls with
  | nil => rfl
  | cons i ls ih =>
    show under id (A s i ++ A.orders s ls) = _
    rw [under_append, ih, List.map_cons, List.sum_cons]

end Queues

namespace OrderBook

open Queues

variable {M : Type} {b b' : OrderBook M} {A A' : Queues} {s : Side} {i : ℕ} {r : Resting}
  {xs ys : List Resting} {o : NewOrder} {c : Call} {trades trades' : List Trade}

/-! ### Fills -/

/-- Trades that name each order with what it gives. -/
theorem tradedBy_fills {α : Type} {size : α → ℕ} {l : List α} {n : ℕ} (hn : n < 2 ^ 32)
    (key : α → OrderId) {trade : α × ℕ → Trade} (hid : ∀ f, (trade f).restingId = key f.1)
    (hqty : ∀ f, (trade f).quantity = UInt32.ofNat f.2) (id : OrderId) :
    tradedBy id ((Greedy.fills size l n).map trade) =
      (((Greedy.fills size l n).filter fun f => key f.1 = id).map Prod.snd).sum := by
  have hfilter : ((fun t : Trade => decide (t.restingId = id)) ∘ trade) =
      fun f => decide (key f.1 = id) := funext fun f => by
    rw [Function.comp_apply, hid]
  unfold tradedBy
  rw [List.filter_map, List.map_map, hfilter]
  refine congrArg List.sum (List.map_congr_left fun f hf => ?_)
  have hle := Greedy.fills_le _ (List.mem_of_mem_filter hf)
  show (trade f).quantity.toNat = f.2
  rw [hqty, UInt32.toNat_ofNat']
  omega

theorem under_leftover (o : NewOrder) (q : List Resting) (id : OrderId) :
    under id (Greedy.leftover Resting.size Resting.shrink q o.qty.toNat) +
      tradedBy id (o.trades q) = under id q := by
  have hfilter := Greedy.sum_fills_filter Resting.size Resting.shrink (p := fun r => r.id = id)
    (fun _ _ => rfl) (fun _ _ => Resting.size_shrink) q o.qty.toNat
  have htraded : tradedBy id (o.trades q) = _ :=
    tradedBy_fills o.qty.toNat_lt Resting.id (fun _ => rfl) (fun _ => rfl) id
  rw [htraded, Nat.add_comm]
  exact hfilter

/-- The levels that an order is filled from are different ones, all of them in the book. -/
theorem sources_nodup (b : OrderBook M) (o : NewOrder) :
    (b.sources o).Nodup ∧ ∀ i ∈ b.sources o, i < b.cfg.numLevels := by
  unfold sources
  split_ifs with hpost
  · exact ⟨List.nodup_nil, nofun⟩
  · have hsub : List.Sublist (b.crossing o) (ladder (opposite o.side) b.cfg.numLevels) :=
      List.filter_sublist.trans List.filter_sublist
    refine ⟨?_, fun i hi => mem_ladder.mp (hsub.subset hi)⟩
    exact ((ladder_pairwise _ _).imp fun hb => better_ne hb).sublist hsub

variable [IdMap M] [IndexedBy M]

/-- A fill takes from each order what it trades. -/
theorem Matched.quantity
    (hm : Matched b A (opposite o.side) (b.sources o) o.qty.toNat b' A') (id : OrderId) :
    A'.quantity b.cfg.numLevels id +
      tradedBy id (o.trades (A.orders (opposite o.side) (b.sources o))) =
        A.quantity b.cfg.numLevels id := by
  obtain ⟨hnodup, hlt⟩ := b.sources_nodup o
  set ls := b.sources o
  set s := opposite o.side
  set N := b.cfg.numLevels
  have hopp : A'.sideQuantity (opposite s) N id = A.sideQuantity (opposite s) N id :=
    Finset.sum_congr rfl fun j _ => by
      rw [hm.other_eq _ _ fun hcon => opposite_ne s hcon.1]
  have hsub : ls.toFinset ⊆ Finset.range N := fun i hi =>
    Finset.mem_range.mpr (hlt i (List.mem_toFinset.mp hi))
  -- the levels that are not filled from are as they were
  have hrest : ∑ j ∈ Finset.range N \ ls.toFinset, under id (A' s j) =
      ∑ j ∈ Finset.range N \ ls.toFinset, under id (A s j) := by
    refine Finset.sum_congr rfl fun j hj => ?_
    have hnot : j ∉ ls := fun hmem => (Finset.mem_sdiff.mp hj).2 (List.mem_toFinset.mpr hmem)
    rw [hm.other_eq _ _ fun hcon => hnot hcon.2]
  have hsplit : ∀ B : Queues, B.sideQuantity s N id =
      (∑ j ∈ Finset.range N \ ls.toFinset, under id (B s j)) + under id (B.orders s ls) := by
    intro B
    rw [under_orders, ← List.sum_toFinset _ hnodup]
    exact (Finset.sum_sdiff hsub).symm
  have hfill := under_leftover o (A.orders s ls) id
  rw [← hm.leftover_eq] at hfill
  rw [quantity_eq _ s, quantity_eq _ s, hopp, hsplit A', hsplit A, hrest]
  omega

/-! ### Single orders -/

theorem Dropped.quantity (h : Good b A) (hd : Dropped b A s i xs r ys b') (id : OrderId) :
    (A.set s i (xs ++ ys)).quantity b.cfg.numLevels id + (if r.id = id then r.size else 0) =
      A.quantity b.cfg.numLevels id := by
  have hset := quantity_set (A := A) (s := s)
    (h.core.placed s i r (by simp [hd.queue_eq])).inside (xs ++ ys) id
  rw [hd.queue_eq, under_append, under_append, under_cons] at hset
  omega

theorem Shrunk.quantity {qty : Quantity} (h : Good b A) (hs : Shrunk b A s i xs r ys qty b')
    (id : OrderId) :
    (A.set s i (xs ++ { r with qty := qty } :: ys)).quantity b.cfg.numLevels id +
        (if r.id = id then r.size else 0) =
      A.quantity b.cfg.numLevels id + if r.id = id then qty.toNat else 0 := by
  have hset := quantity_set (A := A) (s := s)
    (h.core.placed s i r (by simp [hs.queue_eq])).inside (xs ++ { r with qty := qty } :: ys) id
  rw [hs.queue_eq, under_append, under_append, under_cons, under_cons] at hset
  change _ + _ = _ + (_ + ((if r.id = id then qty.toNat else 0) + _)) at hset
  omega

/-- The quantity under the id of an order is that of the order. -/
theorem Good.quantity_eq (h : Good b A) (hr : r ∈ A s i) :
    A.quantity b.cfg.numLevels r.id = r.size := by
  obtain ⟨xs, ys, hq⟩ := List.append_of_mem hr
  -- without the order, nothing rests under the id
  have hgone : ¬(A.set s i (xs ++ ys)).Rests r.id := by
    rintro ⟨t, j, r', hr', hid⟩
    have hbinds : (A.set s i (xs ++ ys)).Binds r'.id r'.slot := ⟨t, j, r', hr', rfl, rfl⟩
    obtain ⟨⟨t', j', r'', hr'', hid'', hslot⟩, hne⟩ := (h.core.distinct.binds_remove hq).mp hbinds
    obtain ⟨-, -, rfl⟩ := h.unique hr'' hr (hid''.trans hid)
    exact hne hslot.symm
  have hset := quantity_set (A := A) (s := s) (h.core.placed s i r hr).inside (xs ++ ys) r.id
  rw [quantity_eq_zero hgone, hq, under_append, under_append, under_cons, if_pos rfl] at hset
  omega

theorem Good.rests_iff_quantity (h : Good b A) (id : OrderId) :
    A.Rests id ↔ 0 < A.quantity b.cfg.numLevels id := by
  constructor
  · rintro ⟨s, i, r, hr, rfl⟩
    rw [h.quantity_eq hr]
    exact h.positive s i r hr
  · intro hpos
    by_contra hr
    rw [quantity_eq_zero hr] at hpos
    exact Nat.lt_irrefl 0 hpos

theorem Good.lookup_some (h : Good b A) (hr : r ∈ A s i) :
    ∃ order, b.lookup r.id = some order ∧ order.quantity = r.qty ∧ order.price = r.price := by
  obtain ⟨xs, ys, hq⟩ := List.append_of_mem hr
  have hplaced := h.core.placed s i r hr
  refine ⟨(b.slab.storage r.slot).value, ?_, hplaced.quantity_eq, hplaced.price_eq⟩
  unfold lookup
  rw [h.find_some hq]

theorem Good.lookup_none (h : Good b A) {id : OrderId} (hok : IndexedBy.FindOk b.idMap id)
    (hr : ¬A.Rests id) : b.lookup id = none := by
  unfold lookup
  rw [h.find_none hok hr]

/-! ### What a `submit` does to the quantities -/

/-- The trades take from the resting orders, and `k` of the incoming order comes to rest. -/
structure Settles (b : OrderBook M) (A : Queues) (o : NewOrder) (new : List Trade)
    (res : SubmitResult) (b' : OrderBook M) (A' : Queues) (k : ℕ) : Prop where
  good : Good b' A'
  cfg_eq : b'.cfg = b.cfg
  filled_eq : (new.map fun t => t.quantity.toNat).sum = res.filledQty.toNat
  rested : k = 0 ∨ k = res.remainingQty.toNat ∧ ¬A.Rests o.id
  own : tradedBy o.id new = 0
  quantity_eq : ∀ id, A'.quantity b.cfg.numLevels id + tradedBy id new =
    A.quantity b.cfg.numLevels id + if o.id = id then k else 0

/-- A `submit` without effect. -/
theorem Settles.refl (h : Good b A) (o : NewOrder) {res : SubmitResult}
    (hfilled : res.filledQty = 0) : Settles b A o [] res b A 0 where
  good := h
  cfg_eq := rfl
  filled_eq := by rw [hfilled]; rfl
  rested := Or.inl rfl
  own := rfl
  quantity_eq id := by rw [ite_self]; rfl

/-- An order that was not in the book trades nothing as the resting one. -/
theorem Matched.own (hm : Matched b A (opposite o.side) (b.sources o) o.qty.toNat b' A')
    (hr : ¬Rejects b A o) :
    tradedBy o.id (o.trades (A.orders (opposite o.side) (b.sources o))) = 0 := by
  have hquantity := hm.quantity o.id
  rw [quantity_eq_zero (not_rests_of_not_rejects hr)] at hquantity
  omega

theorem Submits.settles {res : SubmitResult} (h : Good b A)
    (hs : Submits b A o trades (.ok (b', res) trades')) :
    ∃ new A' k, trades' = trades ++ new ∧ Settles b A o new res b' A' k := by
  cases hs with
  | rejected | killed | crossing =>
    exact ⟨[], A, 0, (List.append_nil _).symm, .refl h o rfl⟩
  | @filled _ A' hp hm hle =>
    have hquantity := hm.quantity
    refine ⟨_, A', 0, rfl, hm.good, hm.cfg_eq, ?_, Or.inl rfl, hm.own hp.not_rejects,
      fun id => ?_⟩
    · rw [sum_trades, min_eq_left hle]
    · rw [hquantity, ite_self, Nat.add_zero]
  | @dropped _ A' n hp hm hn hpos ht =>
    have hquantity := hm.quantity
    refine ⟨_, A', 0, rfl, hm.good, hm.cfg_eq, ?_, Or.inl rfl, hm.own hp.not_rejects,
      fun id => ?_⟩
    · rw [sum_trades, toNat_filled hn]
      exact min_eq_right (by omega)
    · rw [hquantity, ite_self, Nat.add_zero]
  | @rested b₁ _ A₁ n p hp hm hn hpos ht hcfg _ hgood =>
    have hquantity := hm.quantity
    have hnew := not_rests_of_not_rejects hp.not_rejects
    refine ⟨_, _, n.toNat, rfl, hgood, hcfg, ?_, Or.inr ⟨rfl, hnew⟩, hm.own hp.not_rejects,
      fun id => ?_⟩
    · rw [sum_trades, toNat_filled hn]
      exact min_eq_right (by omega)
    · -- the remainder goes to the end of its level
      have hin := (inRange_spec (hp.inRange fun hmarket => ht (Or.inr hmarket)))
      obtain ⟨j, hj, -, -, hidx, -⟩ := hin
      have hset := quantity_set (A := A₁) (s := o.side) hj
        (A₁ o.side j ++ [⟨p, o.id, o.price, n⟩]) id
      rw [under_append, under_cons] at hset
      change _ = _ + (_ + ((if o.id = id then n.toNat else 0) + 0)) at hset
      rw [hidx, ← hquantity id]
      omega

/-! ### What a call does to the quantities -/

/-- What the call takes from the order that it names. -/
def charged (order : Order) : Call → ℕ
  | .submit _ => 0
  | .cancel _ => order.quantity.toNat
  | .reduce _ delta => min delta.toNat order.quantity.toNat
  | .modify _ newQty newPrice _ =>
    if order.keepsPlace newQty newPrice then order.quantity.toNat - newQty.toNat
    else order.quantity.toNat

/-- What the call takes from the order with the id. -/
def chargedTo (b : OrderBook M) (c : Call) (id : OrderId) : ℕ :=
  if c.target = some id then
    match b.lookup id with
    | some order => charged order c
    | none => 0
  else 0

omit [IndexedBy M] in
theorem chargedTo_none (h : ∀ id, c.target = some id → b.lookup id = none) (id : OrderId) :
    b.chargedTo c id = 0 := by
  unfold chargedTo
  split_ifs with ht
  · rw [h id ht]
  · rfl

omit [IndexedBy M] in
theorem chargedTo_some {id' : OrderId} {order : Order} (ht : c.target = some id')
    (hlookup : b.lookup id' = some order) (id : OrderId) :
    b.chargedTo c id = if id' = id then charged order c else 0 := by
  unfold chargedTo
  rw [ht]
  by_cases hid : id' = id
  · subst hid
    rw [if_pos rfl, if_pos rfl, hlookup]
  · rw [if_neg fun heq => hid (Option.some.inj heq), if_neg hid]

omit [IdMap M] [IndexedBy M] in
theorem keepsPlace_iff {order : Order} {newQty : Quantity} {newPrice : Price}
    (hqty : order.quantity = r.qty) (hprice : order.price = r.price) :
    order.keepsPlace newQty newPrice = true ↔ r.InPlace newQty newPrice := by
  unfold Order.keepsPlace Resting.InPlace
  rw [hqty, hprice]
  simp [and_assoc]

/-- A call takes from each order what the order trades and what the call itself is charged with.
If it may let another order rest under an id, all that was there is gone. -/
structure Flow (b : OrderBook M) (A : Queues) (c : Call) (new : List Trade) (b' : OrderBook M)
    (A' : Queues) : Prop where
  good : Good b' A'
  cfg_eq : b'.cfg = b.cfg
  kept : ∀ id, b.restsUnder c ≠ some id →
    A'.quantity b.cfg.numLevels id + tradedBy id new + b.chargedTo c id =
      A.quantity b.cfg.numLevels id
  moved : ∀ id, b.restsUnder c = some id →
    tradedBy id new = 0 ∧ b.chargedTo c id = A.quantity b.cfg.numLevels id

/-- A call that names no order of the book and lets none rest. -/
theorem Flow.refl (h : Good b A) (hrests : b.restsUnder c = none)
    (htarget : ∀ id, c.target = some id → b.lookup id = none) : Flow b A c [] b A where
  good := h
  cfg_eq := rfl
  kept id _ := by rw [chargedTo_none htarget]; rfl
  moved id hid := by rw [hrests] at hid; cases hid

/-- A call that takes an order off the book. -/
theorem Flow.drop (h : Good b A) (hd : Dropped b A s i xs r ys b') {order : Order}
    (hlookup : b.lookup r.id = some order) (htarget : c.target = some r.id)
    (hcharged : charged order c = r.size) (hrests : b.restsUnder c = none) :
    Flow b A c [] b' (A.set s i (xs ++ ys)) where
  good := hd.good
  cfg_eq := hd.cfg_eq
  kept id _ := by
    rw [chargedTo_some htarget hlookup, hcharged]
    exact hd.quantity h id
  moved id hid := by rw [hrests] at hid; cases hid

/-- A call that leaves `qty` of an order. -/
theorem Flow.shrink {qty : Quantity} (h : Good b A) (hs : Shrunk b A s i xs r ys qty b')
    {order : Order} (hlookup : b.lookup r.id = some order) (htarget : c.target = some r.id)
    (hcharged : qty.toNat + charged order c = r.size) (hrests : b.restsUnder c = none) :
    Flow b A c [] b' (A.set s i (xs ++ { r with qty := qty } :: ys)) where
  good := hs.good
  cfg_eq := hs.cfg_eq
  kept id _ := by
    rw [chargedTo_some htarget hlookup]
    have hquantity := hs.quantity h id
    change _ + 0 + _ = _
    split_ifs at hquantity ⊢ <;> omega
  moved id hid := by rw [hrests] at hid; cases hid

/-- A call that takes an order off the book and submits another one under its id. -/
theorem Flow.replace (h : Good b A) {b₁ : OrderBook M} (hd : Dropped b A s i xs r ys b₁)
    {new : List Trade} {res : SubmitResult} {A' : Queues} {k : ℕ} (hid : o.id = r.id)
    (hs : Settles b₁ (A.set s i (xs ++ ys)) o new res b' A' k) {order : Order}
    (hlookup : b.lookup r.id = some order) (htarget : c.target = some r.id)
    (hcharged : charged order c = r.size) (hrests : b.restsUnder c = some r.id) :
    Flow b A c new b' A' where
  good := hs.good
  cfg_eq := hs.cfg_eq.trans hd.cfg_eq
  kept id hne := by
    have hne : r.id ≠ id := fun heq => hne (heq ▸ hrests)
    have hset := hs.quantity_eq id
    have hquantity := hd.quantity h id
    rw [hd.cfg_eq, hid, if_neg hne] at hset
    rw [if_neg hne] at hquantity
    rw [chargedTo_some htarget hlookup, if_neg hne]
    omega
  moved id hsome := by
    rw [hrests] at hsome
    obtain rfl := Option.some.inj hsome
    have hr : r ∈ A s i := (mem_split hd.queue_eq).mpr (Or.inl rfl)
    rw [chargedTo_some htarget hlookup, if_pos rfl, hcharged, h.quantity_eq hr, ← hid]
    exact ⟨hs.own, rfl⟩

section Lawful

variable {M : Type} [LawfulIdMap M] {b b' : OrderBook M}

theorem Good.lookup_eq_none_iff (h : Good b A) (id : OrderId) :
    b.lookup id = none ↔ ¬A.Rests id := by
  constructor
  · rintro hnone ⟨s, i, r, hr, rfl⟩
    obtain ⟨order, hsome, -⟩ := h.lookup_some hr
    rw [hnone] at hsome
    cases hsome
  · exact h.lookup_none trivial

theorem Good.openQty_eq (h : Good b A) (id : OrderId) :
    b.openQty id = A.quantity b.cfg.numLevels id := by
  unfold openQty
  by_cases hr : A.Rests id
  · obtain ⟨s, i, r, hr, rfl⟩ := hr
    obtain ⟨order, hsome, hqty, -⟩ := h.lookup_some hr
    rw [hsome, h.quantity_eq hr]
    show order.quantity.toNat = _
    rw [hqty]
    rfl
  · rw [(h.lookup_eq_none_iff id).mpr hr, quantity_eq_zero hr]

theorem Good.submits (h : Good b A) (o : NewOrder) (trades : List Trade) :
    Submits b A o trades ((b.submitOrder o).run trades) :=
  h.submit o trades fun _ => erasesOk_of_lawful _ _

theorem Good.flow_submit (h : Good b A)
    (hexec : (b.exec (.submit o)).run trades = .ok b' trades') :
    ∃ new A', trades' = trades ++ new ∧ Flow b A (.submit o) new b' A' := by
  have hs := h.submits o trades
  unfold OrderBook.exec at hexec
  cases hx : (b.submitOrder o).run trades with
  | error e ts =>
    rw [sink_bind_error hx] at hexec
    cases hexec
  | ok x ts =>
    rw [hx] at hs
    rw [sink_bind hx] at hexec
    cases hexec
    obtain ⟨new, A', k, hnew, hsettles⟩ := hs.settles h
    have hcharged := chargedTo_none (b := b) (c := .submit o) nofun
    refine ⟨new, A', hnew, hsettles.good, hsettles.cfg_eq, fun id hid => ?_, fun id hid => ?_⟩
    · -- nothing comes to rest under another id, nor under that of an order that rests already
      have hk : (if o.id = id then k else 0) = 0 := by
        split_ifs with heq
        · subst heq
          refine hsettles.rested.resolve_right fun hk => hid ?_
          exact if_pos ((h.lookup_eq_none_iff _).mpr hk.2)
        · rfl
      rw [hcharged, hsettles.quantity_eq, hk]
      rfl
    · unfold restsUnder at hid
      dsimp only at hid
      split_ifs at hid with hnone
      obtain rfl := Option.some.inj hid
      rw [quantity_eq_zero ((h.lookup_eq_none_iff _).mp hnone)]
      exact ⟨hsettles.own, hcharged _⟩

theorem Good.flow_cancel (h : Good b A) {id : OrderId}
    (hexec : (b.exec (.cancel id)).run trades = .ok b' trades') :
    ∃ new A', trades' = trades ++ new ∧ Flow b A (.cancel id) new b' A' := by
  unfold OrderBook.exec at hexec
  by_cases hrests : A.Rests id
  · obtain ⟨s, i, r, hr, rfl⟩ := hrests
    obtain ⟨xs, ys, hq⟩ := List.append_of_mem hr
    obtain ⟨order, hlookup, hqty, -⟩ := h.lookup_some hr
    obtain ⟨b₁, hdrop, hdropped, -⟩ := h.drop hq trivial
    rw [sink_bind (quiet_ok (h.cancel_eq hq hdrop) trades)] at hexec
    cases hexec
    refine ⟨[], _, (List.append_nil _).symm, .drop h hdropped hlookup rfl ?_ rfl⟩
    exact congrArg UInt32.toNat hqty
  · rw [sink_bind (quiet_ok (h.cancel_none trivial hrests) trades)] at hexec
    cases hexec
    refine ⟨[], A, (List.append_nil _).symm, .refl h rfl ?_⟩
    rintro _ ⟨⟩
    exact h.lookup_none trivial hrests

theorem Good.flow_reduce (h : Good b A) {id : OrderId} {delta : Quantity}
    (hexec : (b.exec (.reduce id delta)).run trades = .ok b' trades') :
    ∃ new A', trades' = trades ++ new ∧ Flow b A (.reduce id delta) new b' A' := by
  unfold OrderBook.exec at hexec
  by_cases hrests : A.Rests id
  · obtain ⟨s, i, r, hr, rfl⟩ := hrests
    obtain ⟨xs, ys, hq⟩ := List.append_of_mem hr
    obtain ⟨order, hlookup, hqty, -⟩ := h.lookup_some hr
    have hcharged : charged order (.reduce r.id delta) = min delta.toNat r.size := by
      unfold charged
      rw [hqty]
      rfl
    by_cases hdelta : r.qty ≤ delta
    · obtain ⟨b₁, hdrop, hdropped, -⟩ := h.drop hq trivial
      rw [sink_bind (quiet_ok (h.reduce_drop hq hdelta hdrop) trades)] at hexec
      cases hexec
      refine ⟨[], _, (List.append_nil _).symm, .drop h hdropped hlookup rfl ?_ rfl⟩
      rw [hcharged]
      exact min_eq_right (UInt32.le_iff_toNat_le.mp hdelta)
    · have hlt : delta < r.qty := UInt32.not_le.mp hdelta
      obtain ⟨b₁, hshrink, hshrunk⟩ := h.shrink_by hq hlt
      rw [sink_bind (quiet_ok (h.reduce_shrink hq hlt hshrink) trades)] at hexec
      cases hexec
      refine ⟨[], _, (List.append_nil _).symm, .shrink h hshrunk hlookup rfl ?_ rfl⟩
      have hle : delta.toNat ≤ r.size := (UInt32.lt_iff_toNat_lt.mp hlt).le
      rw [hcharged, min_eq_left hle, UInt32.toNat_sub_of_le _ _ (UInt32.le_of_lt hlt)]
      exact Nat.sub_add_cancel hle
  · rw [sink_bind (quiet_ok (h.reduce_none trivial hrests delta) trades)] at hexec
    cases hexec
    refine ⟨[], A, (List.append_nil _).symm, .refl h rfl ?_⟩
    rintro _ ⟨⟩
    exact h.lookup_none trivial hrests

theorem Good.flow_modify (h : Good b A) {id : OrderId} {newQty : Quantity} {newPrice : Price}
    {ts : Timestamp}
    (hexec : (b.exec (.modify id newQty newPrice ts)).run trades = .ok b' trades') :
    ∃ new A', trades' = trades ++ new ∧ Flow b A (.modify id newQty newPrice ts) new b' A' := by
  unfold OrderBook.exec at hexec
  by_cases hrests : A.Rests id
  · obtain ⟨s, i, r, hr, rfl⟩ := hrests
    obtain ⟨xs, ys, hq⟩ := List.append_of_mem hr
    obtain ⟨order, hlookup, hqty, hprice⟩ := h.lookup_some hr
    have hkeeps : order.keepsPlace newQty newPrice = true ↔ r.InPlace newQty newPrice :=
      keepsPlace_iff hqty hprice
    have hunder : b.restsUnder (.modify r.id newQty newPrice ts) =
        if order.keepsPlace newQty newPrice then none else some r.id := by
      unfold restsUnder
      dsimp only
      rw [hlookup]
    by_cases hin : r.InPlace newQty newPrice
    · obtain ⟨b₁, hshrink, hshrunk⟩ := h.shrink_to hq hin
      rw [sink_bind (h.modify_shrink hq hin hshrink ts trades)] at hexec
      cases hexec
      rw [if_pos (hkeeps.mpr hin)] at hunder
      refine ⟨[], _, (List.append_nil _).symm, .shrink h hshrunk hlookup rfl ?_ hunder⟩
      unfold charged
      dsimp only
      rw [if_pos (hkeeps.mpr hin), hqty]
      exact Nat.add_sub_cancel' (UInt32.le_iff_toNat_le.mp hin.2.2)
    · obtain ⟨b₁, hdrop, hdropped, -⟩ := h.drop hq trivial
      have hrun := h.modify_submit hq hin hdrop ts trades
      have hs := hdropped.good.submits (r.replacement s newQty newPrice ts) trades
      rw [if_neg fun hk => hin (hkeeps.mp hk)] at hunder
      -- what the order that replaces it does, it does to the other orders
      cases hx : (b₁.submitOrder (r.replacement s newQty newPrice ts)).run trades with
      | error e ts' =>
        rw [hx] at hrun
        rw [sink_bind_error hrun] at hexec
        cases hexec
      | ok x ts' =>
        rw [hx] at hrun hs
        rw [sink_bind hrun] at hexec
        cases hexec
        obtain ⟨new, A', k, hnew, hsettles⟩ := hs.settles hdropped.good
        have hcharged : charged order (.modify r.id newQty newPrice ts) = r.size := by
          unfold charged
          dsimp only
          rw [if_neg fun hk => hin (hkeeps.mp hk), hqty]
          rfl
        exact ⟨new, A', hnew, .replace h hdropped rfl hsettles hlookup rfl hcharged hunder⟩
  · rw [sink_bind (h.modify_none trivial hrests newQty newPrice ts trades)] at hexec
    cases hexec
    have hnone := h.lookup_none trivial hrests
    refine ⟨[], A, (List.append_nil _).symm, .refl h ?_ ?_⟩
    · unfold restsUnder
      dsimp only
      rw [hnone]
    · rintro _ ⟨⟩
      exact hnone

/-- **Every call** that returns takes from each order what it trades and is charged with. -/
theorem Good.flow (h : Good b A) (hexec : (b.exec c).run trades = .ok b' trades') :
    ∃ new A', trades' = trades ++ new ∧ Flow b A c new b' A' := by
  cases c with
  | submit o => exact h.flow_submit hexec
  | cancel id => exact h.flow_cancel hexec
  | reduce id delta => exact h.flow_reduce hexec
  | modify id newQty newPrice ts => exact h.flow_modify hexec

/-! ### The accounts -/

omit [LawfulIdMap M] in
theorem spent_charge (a : Account) (order : Order) (c : Call) :
    (a.charge order c).spent = a.spent + charged order c := by
  cases c with
  | submit o => rfl
  | cancel id =>
    unfold Account.charge charged Account.spent
    dsimp only
    omega
  | reduce id delta =>
    unfold Account.charge charged Account.spent
    dsimp only
    omega
  | modify id newQty newPrice ts =>
    unfold Account.charge charged
    dsimp only
    split_ifs
    · unfold Account.spent
      dsimp only
      omega
    · unfold Account.spent
      dsimp only
      omega

omit [LawfulIdMap M] in
theorem charge_fields (a : Account) (order : Order) (c : Call) :
    (a.charge order c).id = a.id ∧ (a.charge order c).rested = a.rested := by
  cases c with
  | submit o | cancel id | reduce id delta => exact ⟨rfl, rfl⟩
  | modify id newQty newPrice ts =>
    unfold Account.charge
    dsimp only
    split_ifs <;> exact ⟨rfl, rfl⟩

omit [LawfulIdMap M] in
theorem enter_fields (a : Account) (order : Order) (c : Call) (new : List Trade) :
    (a.enter order c new).id = a.id ∧ (a.enter order c new).rested = a.rested := by
  unfold Account.enter
  dsimp only
  split_ifs
  · exact charge_fields _ order c
  · exact ⟨rfl, rfl⟩

/-- The entries of a call are what the order traded and was charged with. -/
theorem spent_enter (a : Account) {order : Order} (hlookup : b.lookup a.id = some order) (c : Call)
    (new : List Trade) :
    (a.enter order c new).spent = a.spent + tradedBy a.id new + b.chargedTo c a.id := by
  unfold Account.enter chargedTo
  dsimp only
  split_ifs
  · rw [spent_charge, hlookup]
    unfold Account.spent
    dsimp only
    omega
  · unfold Account.spent
    dsimp only
    omega

theorem recordIn_of_not_live {a : Account} (ha : a.live = false) (c : Call) (new : List Trade)
    (b' : OrderBook M) : b.recordIn c new b' a = a := by
  unfold recordIn
  rw [ha]
  rfl

theorem recordIn_of_live {a : Account} {order : Order} (ha : a.live = true)
    (hlookup : b.lookup a.id = some order) (c : Call) (new : List Trade) (b' : OrderBook M) :
    b.recordIn c new b' a = { a.enter order c new with
      live := (b'.lookup a.id).isSome && b.restsUnder c ≠ some a.id } := by
  unfold recordIn
  rw [ha, hlookup]
  rfl

theorem recordIn_id (a : Account) (c : Call) (new : List Trade) (b' : OrderBook M) :
    (b.recordIn c new b' a).id = a.id := by
  cases ha : a.live with
  | false => rw [recordIn_of_not_live ha]
  | true =>
    cases hlookup : b.lookup a.id with
    | none =>
      unfold recordIn
      rw [ha, hlookup]
      rfl
    | some order =>
      rw [recordIn_of_live ha hlookup]
      exact (enter_fields a order c new).1

section Record

variable {l : List Account} {a : Account} {new : List Trade}

/-- An account stays open as long as its order is in the book. -/
theorem Flow.recordIn_live (hflow : Flow b A c new b' A') {order : Order}
    (hlookup : b.lookup a.id = some order) (ha : a.live = true) :
    (b.recordIn c new b' a).live = true ↔ A'.Rests a.id ∧ b.restsUnder c ≠ some a.id := by
  have hrests := not_congr (hflow.good.lookup_eq_none_iff a.id)
  rw [not_not] at hrests
  rw [recordIn_of_live ha hlookup]
  simp only [Bool.and_eq_true, Option.isSome_iff_ne_none, decide_eq_true_eq, hrests]

/-- What an order loses in a call is entered in its account. -/
theorem Flow.recordIn_balanced (hflow : Flow b A c new b' A') (h : Good b A) {order : Order}
    (hlookup : b.lookup a.id = some order) (ha : a.live = true)
    (hbalanced : a.rested = a.spent + b.openQty a.id) :
    (b.recordIn c new b' a).rested = (b.recordIn c new b' a).spent +
      if (b.recordIn c new b' a).live then b'.openQty a.id else 0 := by
  have hlive := hflow.recordIn_live hlookup ha
  have hspent := spent_enter a hlookup c new
  have hopen := h.openQty_eq a.id
  have hopen' := hflow.good.openQty_eq a.id
  rw [hflow.cfg_eq] at hopen'
  have hrested : (b.recordIn c new b' a).rested = a.rested := by
    rw [recordIn_of_live ha hlookup]
    exact (enter_fields a order c new).2
  have hspent' : (b.recordIn c new b' a).spent = (a.enter order c new).spent := by
    rw [recordIn_of_live ha hlookup]
    rfl
  rw [hrested, hspent', hspent]
  by_cases hunder : b.restsUnder c = some a.id
  · -- the order has been cancelled, so that the call is charged with all of it
    obtain ⟨htraded, hcharged⟩ := hflow.moved _ hunder
    rw [if_neg fun hl => (hlive.mp hl).2 hunder]
    omega
  · have hkept := hflow.kept _ hunder
    by_cases hrests : A'.Rests a.id
    · rw [if_pos (hlive.mpr ⟨hrests, hunder⟩)]
      omega
    · rw [if_neg fun hl => hrests (hlive.mp hl).1]
      rw [quantity_eq_zero hrests] at hkept
      omega

omit [LawfulIdMap M] in
theorem mem_opened [IdMap M] {b b' : OrderBook M} : a ∈ b.opened c b' ↔
    b.restsUnder c = some a.id ∧ ∃ order, b'.lookup a.id = some order ∧
      a = { id := a.id, rested := order.quantity.toNat } := by
  unfold opened
  cases hunder : b.restsUnder c with
  | none => simp
  | some id =>
    dsimp only
    constructor
    · intro ha
      cases hlookup : b'.lookup id with
      | none =>
        rw [hlookup] at ha
        cases ha
      | some order =>
        rw [hlookup] at ha
        obtain rfl := List.mem_singleton.mp ha
        exact ⟨rfl, order, hlookup, rfl⟩
    · rintro ⟨hid, order, hlookup, ha⟩
      obtain rfl := Option.some.inj hid
      rw [hlookup]
      exact List.mem_singleton.mpr ha

omit [LawfulIdMap M] in
theorem opened_nodup [IdMap M] {b b' : OrderBook M} :
    (((b.opened c b').filter Account.live).map Account.id).Nodup := by
  unfold opened
  cases b.restsUnder c with
  | none => exact List.nodup_nil
  | some id =>
    dsimp only
    cases b'.lookup id with
    | none => exact List.nodup_nil
    | some order => exact List.nodup_singleton id

theorem live_of_recordIn (h : (b.recordIn c new b' a).live = true) : a.live = true := by
  by_contra hl
  rw [recordIn_of_not_live (Bool.not_eq_true _ ▸ hl)] at h
  exact hl h

/-- An order that is in the book after the call and did not come to rest in it was there before. -/
theorem Flow.rests (hflow : Flow b A c new b' A') (h : Good b A) {id : OrderId}
    (hunder : b.restsUnder c ≠ some id) (hr : A'.Rests id) : A.Rests id := by
  have hkept := hflow.kept id hunder
  have hpos := (hflow.good.rests_iff_quantity id).mp hr
  rw [hflow.cfg_eq] at hpos
  exact (h.rests_iff_quantity id).mpr (by omega)

theorem Conserved.lookup_live (h : Conserved b l) (hgood : Good b b.queue) {a : Account}
    (ha : a ∈ l) (hlive : a.live = true) : ∃ order, b.lookup a.id = some order := by
  refine Option.ne_none_iff_exists'.mp fun hnone => ?_
  exact (hgood.lookup_eq_none_iff _).mp hnone ((h.live_iff _).mp ⟨a, ha, hlive, rfl⟩)

/-- An account stays open as long as its order rests. -/
theorem Conserved.live_recordIn_iff (h : Conserved b l) (hgood : Good b b.queue)
    (hflow : Flow b b.queue c new b' b'.queue) {a : Account} (ha : a ∈ l) :
    (b.recordIn c new b' a).live = true ↔
      a.live = true ∧ b'.queue.Rests a.id ∧ b.restsUnder c ≠ some a.id := by
  cases hl : a.live with
  | false =>
    rw [recordIn_of_not_live hl, hl]
    exact iff_of_false Bool.false_ne_true fun hcon => Bool.false_ne_true hcon.1
  | true =>
    obtain ⟨order, hlookup⟩ := h.lookup_live hgood ha hl
    rw [hflow.recordIn_live hlookup hl, eq_self_iff_true, true_and]

theorem Conserved.record_balanced (h : Conserved b l) (hgood : Good b b.queue)
    (hflow : Flow b b.queue c new b' b'.queue) : ∀ a ∈ b.record c new b' l,
      a.rested = a.spent + if a.live then b'.openQty a.id else 0 := by
  intro a' ha'
  rcases List.mem_append.mp ha' with ha' | ha'
  · obtain ⟨a, ha, rfl⟩ := List.mem_map.mp ha'
    have hbalanced := h.balanced a ha
    rw [recordIn_id]
    cases hl : a.live with
    | false =>
      rw [hl] at hbalanced
      rw [recordIn_of_not_live hl, hl]
      exact hbalanced
    | true =>
      obtain ⟨order, hlookup⟩ := h.lookup_live hgood ha hl
      rw [hl, if_pos rfl] at hbalanced
      exact hflow.recordIn_balanced hgood hlookup hl hbalanced
  · -- an account that is opened has no entries
    obtain ⟨-, order, hlookup, heq⟩ := mem_opened.mp ha'
    have hopen : b'.openQty a'.id = order.quantity.toNat := by
      unfold openQty
      rw [hlookup]
    rw [hopen, heq]
    exact (Nat.zero_add _).symm

theorem Conserved.record_live_iff (h : Conserved b l) (hgood : Good b b.queue)
    (hflow : Flow b b.queue c new b' b'.queue) (id : OrderId) :
    (∃ a ∈ b.record c new b' l, a.live = true ∧ a.id = id) ↔ b'.queue.Rests id := by
  constructor
  · rintro ⟨a', ha', hl, rfl⟩
    rcases List.mem_append.mp ha' with ha' | ha'
    · obtain ⟨a, ha, rfl⟩ := List.mem_map.mp ha'
      rw [recordIn_id]
      exact ((h.live_recordIn_iff hgood hflow ha).mp hl).2.1
    · obtain ⟨-, order, hlookup, -⟩ := mem_opened.mp ha'
      by_contra hr
      rw [(hflow.good.lookup_eq_none_iff _).mpr hr] at hlookup
      cases hlookup
  · intro hr
    by_cases hunder : b.restsUnder c = some id
    · have hsome := (not_congr (hflow.good.lookup_eq_none_iff id)).mpr (not_not.mpr hr)
      obtain ⟨order, hlookup⟩ := Option.ne_none_iff_exists'.mp hsome
      exact ⟨{ id, rested := order.quantity.toNat },
        List.mem_append_right _ (mem_opened.mpr ⟨hunder, order, hlookup, rfl⟩), rfl, rfl⟩
    · obtain ⟨a, ha, hl, rfl⟩ := (h.live_iff id).mpr (hflow.rests hgood hunder hr)
      exact ⟨b.recordIn c new b' a, List.mem_append_left _ (List.mem_map_of_mem ha),
        (h.live_recordIn_iff hgood hflow ha).mpr ⟨hl, hr, hunder⟩, recordIn_id _ _ _ _⟩

theorem Conserved.record_live_nodup (h : Conserved b l) (hgood : Good b b.queue)
    (hflow : Flow b b.queue c new b' b'.queue) :
    (((b.record c new b' l).filter Account.live).map Account.id).Nodup := by
  unfold OrderBook.record
  rw [List.filter_append, List.map_append, List.nodup_append]
  refine ⟨h.live_nodup.sublist ?_, opened_nodup, ?_⟩
  · -- no account is opened again
    have hids : Account.id ∘ b.recordIn c new b' = Account.id :=
      funext fun a => recordIn_id a c new b'
    rw [List.filter_map, List.map_map, hids]
    exact (List.monotone_filter_right l fun a ha => live_of_recordIn ha).map _
  · intro id hid id' hid' heq
    obtain ⟨a', ha', rfl⟩ := List.mem_map.mp hid
    obtain ⟨a'', ha'', rfl⟩ := List.mem_map.mp hid'
    obtain ⟨ha', hl⟩ := List.mem_filter.mp ha'
    obtain ⟨a, ha, rfl⟩ := List.mem_map.mp ha'
    have hunder := (mem_opened.mp (List.mem_of_mem_filter ha'')).1
    rw [recordIn_id] at heq
    exact ((h.live_recordIn_iff hgood hflow ha).mp hl).2.2 (heq ▸ hunder)

/-- **The accounts stay balanced**, and open for the orders in the book. -/
theorem Conserved.record (h : Conserved b l) (hgood : Good b b.queue)
    (hflow : Flow b b.queue c new b' b'.queue) : Conserved b' (b.record c new b' l) where
  balanced := h.record_balanced hgood hflow
  live_iff := h.record_live_iff hgood hflow
  live_nodup := h.record_live_nodup hgood hflow

end Record

/-! ### Runs -/

theorem Ledgered.reachable {cfg : Config} {l : List Account} (h : Ledgered cfg b l) :
    Reachable cfg b := by
  induction h with
  | new => exact .new
  | step _ hexec ih => exact .step ih trivial hexec

theorem new_conserved (cfg : Config) : Conserved (new cfg : OrderBook M) [] where
  balanced := nofun
  live_iff id := by
    have hgood : Good (new cfg : OrderBook M) Queues.empty := new_good cfg
    rw [hgood.core.queue_eq]
    constructor
    · rintro ⟨a, ha, -⟩
      cases ha
    · rintro ⟨s, i, r, hr, -⟩
      cases hr
  live_nodup := List.nodup_nil

theorem Ledgered.balanced {cfg : Config} {l : List Account} (h : Ledgered cfg b l) :
    Conserved b l := by
  induction h with
  | new => exact new_conserved cfg
  | step h hexec ih =>
    obtain ⟨hgood, -⟩ := h.reachable.good
    obtain ⟨new, A', hnew, hflow⟩ := hgood.flow hexec
    obtain rfl := List.append_cancel_left hnew
    rw [← hflow.good.core.queue_eq] at hflow
    exact ih.record hgood hflow

/-- Every run has its accounts. -/
theorem Reachable.ledgered {cfg : Config} (h : Reachable cfg b) : ∃ l, Ledgered cfg b l := by
  induction h with
  | new => exact ⟨[], .new⟩
  | step h _ hexec ih =>
    obtain ⟨l, hl⟩ := ih
    obtain ⟨new, -, hnew, -⟩ := (Reachable.good h).1.flow hexec
    rw [hnew] at hexec
    exact ⟨_, hl.step hexec⟩

theorem Good.accounted (h : Good b A) {res : SubmitResult}
    (hrun : (b.submitOrder o).run trades = .ok (b', res) trades') :
    ∃ new, trades' = trades ++ new ∧ Accounted b o new b' res := by
  have hs := h.submits o trades
  rw [hrun] at hs
  obtain ⟨new, A', k, hnew, hsettles⟩ := hs.settles h
  have hopen := h.openQty_eq
  have hopen' := hsettles.good.openQty_eq
  rw [hsettles.cfg_eq] at hopen'
  have hquantity := hsettles.quantity_eq
  refine ⟨new, hnew, hsettles.filled_eq, ?_, fun id hid => ?_⟩
  · have hself := hquantity o.id
    rw [if_pos rfl, hsettles.own] at hself
    rw [hopen, hopen']
    rcases hsettles.rested with hk | ⟨hk, hr⟩
    · exact Or.inl (by omega)
    · have hzero := quantity_eq_zero (n := b.cfg.numLevels) hr
      exact Or.inr ⟨hzero, by omega⟩
  · have hother := hquantity id
    rw [if_neg hid.symm] at hother
    rw [hopen, hopen']
    omega

/-- **No quantity is created or lost**: the accounts of every run are balanced, and every `submit`
accounts for what it fills and lets rest. -/
theorem Reachable.conserved {cfg : Config} (h : Reachable cfg b) :
    (∃ l, Ledgered cfg b l) ∧ (∀ l, Ledgered cfg b l → Conserved b l) ∧
      ∀ o trades b' res trades', (b.submitOrder o).run trades = .ok (b', res) trades' →
        ∃ new, trades' = trades ++ new ∧ Accounted b o new b' res :=
  ⟨h.ledgered, fun _ hl => hl.balanced, fun _ _ _ _ _ hrun => h.good.1.accounted hrun⟩

end Lawful

theorem tradedBook_conserved :
    (∃ l, Ledgered smallConfig tradedBook l) ∧
      (∀ l, Ledgered smallConfig tradedBook l → Conserved tradedBook l) ∧
      ∀ o trades b' res trades', (tradedBook.submitOrder o).run trades = .ok (b', res) trades' →
        ∃ new, trades' = trades ++ new ∧ Accounted tradedBook o new b' res :=
  tradedBook_reachable.conserved

end OrderBook

end Lob
