import Lob.Equiv.OrderBook.Lifecycle

/-!
# When the slab runs out

The only way for a call to fail is that `allocate` returns `nullptr` in `insert_resting_`
(`Allocates`).  It does so exactly if, after the matching phase of the call, as many orders rest as
the slab has slots (`Reachable.exhaustion`).  A `modify` has given back a slot by then.
-/

namespace Lob.OrderBook

open Queues SlabAllocator

variable {M : Type} {b b' b₁ : OrderBook M} {A A' A₁ : Queues} {s : Side} {i : ℕ} {r : Resting}
  {xs ys : List Resting} {o : NewOrder} {trades : List Trade}

/-- The number of orders that rest. -/
def restingCount (b : OrderBook M) : ℕ := (b.resting .buy).length + (b.resting .sell).length

section Calls

variable [IdMap M]

/-- A `submit` of the order gets to `insert_resting_`, in the book `b₁` that the matching phase
leaves. -/
structure Inserts (b : OrderBook M) (o : NewOrder) (trades : List Trade) (b₁ : OrderBook M) :
    Prop where
  valid : ¬(o.qty = 0 ∨ o.id = kInvalidOrderId)
  not_found : b.find o.id = .ok none
  priced : ¬(o.type ≠ .market ∧ ¬b.inRange o.price = true)
  not_killed : b.fokKills o.side o.type o.tif o.price o.qty = .ok false
  not_crossing : ¬(o.tif = .postOnly ∧ b.wouldCross o.side o.price = true)
  matched : ∃ n trades', (b.aggress o.id o.side o.type o.tif o.price o.qty o.ts).run trades =
    .ok (b₁, n) trades' ∧ n ≠ 0
  rests : ¬(o.tif = .ioc ∨ o.type = .market)

/-- The call gets to `insert_resting_` in the book `b₁`. -/
inductive Allocates (b : OrderBook M) (trades : List Trade) : Call → OrderBook M → Prop where
  | submit {o : NewOrder} {b₁ : OrderBook M} (h : Inserts b o trades b₁) :
    Allocates b trades (.submit o) b₁
  | modify {id : OrderId} {newQty : Quantity} {newPrice : Price} {ts : Timestamp} {p : Ptr}
    {order : Order} {found : Bool} {b' b₁ : OrderBook M} (hfind : b.find id = .ok (some p))
    (hread : b.slab.read p = .ok order)
    (hin : ¬(newPrice = order.price ∧ newQty > 0 ∧ newQty ≤ order.quantity))
    (hcancel : b.cancel id = .ok (found, b'))
    (h : Inserts b' ⟨id, order.side, .limit, .gtc, newPrice, newQty, ts⟩ trades b₁) :
    Allocates b trades (.modify id newQty newPrice ts) b₁

/-- `allocate` would return `nullptr`. -/
def SlabEmpty (b : OrderBook M) : Prop := b.slab.allocate.1 = none

/-- **When the slab runs out.** -/
structure Exhaustion (b : OrderBook M) : Prop where
  empty_iff : ∀ trades c b₁, Allocates b trades c b₁ →
    (b₁.SlabEmpty ↔ b₁.restingCount = b.cfg.maxOrders)
  error_iff : ∀ trades c, (∃ e trades', (b.exec c).run trades = .error e trades') ↔
    ∃ b₁, Allocates b trades c b₁ ∧ b₁.SlabEmpty
  submit_of_room : ∀ trades o, b.restingCount < b.cfg.maxOrders →
    ∃ b' res trades', (b.submitOrder o).run trades = .ok (b', res) trades'
  submit_of_filled : ∀ trades o b₁, Inserts b o trades b₁ →
    (∃ id, b.queue.Rests id ∧ ¬b₁.queue.Rests id) → ¬b₁.SlabEmpty
  modify_returns : ∀ trades id newQty newPrice ts,
    ∃ b' res trades', (b.modify id newQty newPrice ts).run trades = .ok (b', res) trades'

end Calls

/-! ### Counting the orders -/

theorem Core.restingCount_eq (h : Core b A none) : b.restingCount = b.openOrders := by
  have hladder : ∀ s, (A.orders s (ladder s b.cfg.numLevels)).length =
      ((List.range b.cfg.numLevels).map fun i => (A s i).length).sum := by
    intro s
    unfold Queues.orders
    rw [List.length_flatMap]
    cases s with
    | buy =>
      unfold ladder
      rw [List.map_reverse, List.sum_reverse]
    | sell => rfl
  unfold restingCount resting
  rw [h.queue_eq, hladder, hladder, ← List.sum_map_add, h.openOrders_eq_sum]

/-- The slab has no slot left exactly if as many orders rest as it has slots. -/
theorem Core.slabEmpty_iff (h : Core b A none) :
    b.SlabEmpty ↔ b.restingCount = b.cfg.maxOrders := by
  rw [h.restingCount_eq]
  obtain ⟨fl, hfl⟩ := h.free
  have hlen := hfl.inUse_add
  rw [h.capacity_eq] at hlen
  unfold SlabEmpty openOrders
  cases fl with
  | nil =>
    rw [hfl.allocate_nil]
    simpa using hlen
  | cons p fl =>
    rw [hfl.allocate_cons.1]
    rw [List.length_cons] at hlen
    exact iff_of_false nofun (by omega)

/-- A book whose levels have no more orders, and one of them fewer. -/
theorem Core.openOrders_lt (h : Core b A none) (h' : Core b' A' none) (hcfg : b'.cfg = b.cfg)
    (hle : ∀ t j, (A' t j).length ≤ (A t j).length) (hlt : (A' s i).length < (A s i).length) :
    b'.openOrders < b.openOrders := by
  have hi : i < b.cfg.numLevels := by
    obtain ⟨r, hr⟩ := List.exists_mem_of_length_pos (Nat.zero_lt_of_lt hlt)
    exact (h.placed s i r hr).inside
  rw [h'.openOrders_eq_sum, h.openOrders_eq_sum, hcfg]
  apply List.sum_lt_sum
  · exact fun j _ => Nat.add_le_add (hle _ j) (hle _ j)
  · refine ⟨i, List.mem_range.mpr hi, ?_⟩
    cases s with
    | buy => exact Nat.add_lt_add_of_lt_of_le hlt (hle _ i)
    | sell => exact Nat.add_lt_add_of_le_of_lt (hle _ i) hlt

section Good

variable [IdMap M] [IndexedBy M]

theorem Dropped.openOrders_lt (h : Good b A) (hd : Dropped b A s i xs r ys b') :
    b'.openOrders < b.openOrders := by
  apply h.core.openOrders_lt hd.good.core hd.cfg_eq (s := s) (i := i)
  · apply set_forall (P := fun t j q => q.length ≤ (A t j).length)
    · simp [hd.queue_eq]
    · exact fun t j _ => le_rfl
  · rw [set_self]
    simp [hd.queue_eq]

/-- An id that rests no more has left its level. -/
theorem Matched.openOrders_lt {ls : List ℕ} {n : ℕ} (h : Good b A)
    (hm : Matched b A s ls n b' A') {id : OrderId} (hid : A.Rests id) (hgone : ¬A'.Rests id) :
    b'.openOrders < b.openOrders := by
  obtain ⟨t, j, r, hr, rfl⟩ := hid
  apply h.core.openOrders_lt hm.good.core hm.cfg_eq hm.length_le (s := t) (i := j)
  apply lt_of_le_of_ne (hm.length_le t j)
  intro hlen
  -- otherwise the ids of the level are the same
  have hids : (A' t j).map Resting.id = (A t j).map Resting.id := by
    by_cases htj : t = s ∧ j ∈ ls
    · obtain ⟨rfl, hj⟩ := htj
      obtain ⟨pre, post, hls⟩ := List.append_of_mem hj
      rw [hm.level_eq pre j post hls] at hlen ⊢
      exact Greedy.map_leftover_of_length _ Resting.shrink Resting.id (fun _ _ => rfl) hlen
    · rw [hm.other_eq t j htj]
  have hmem : r.id ∈ (A' t j).map Resting.id := by
    rw [hids]
    exact List.mem_map_of_mem hr
  obtain ⟨r', hr', hid'⟩ := List.mem_map.mp hmem
  exact hgone ⟨t, j, r', hr', hid'⟩

/-- A fill determines the queues, and with them the number of orders. -/
theorem Matched.openOrders_eq {ls : List ℕ} {n : ℕ} {b'' : OrderBook M} {A'' : Queues}
    (hm : Matched b A s ls n b' A') (hm' : Matched b A s ls n b'' A'') :
    b'.openOrders = b''.openOrders := by
  have hA : A' = A'' := by
    ext1 t
    ext1 j
    by_cases htj : t = s ∧ j ∈ ls
    · obtain ⟨rfl, hj⟩ := htj
      obtain ⟨pre, post, hls⟩ := List.append_of_mem hj
      rw [hm.level_eq pre j post hls, hm'.level_eq pre j post hls]
    · rw [hm.other_eq t j htj, hm'.other_eq t j htj]
  rw [hm.good.core.openOrders_eq_sum, hm'.good.core.openOrders_eq_sum, hm.cfg_eq, hm'.cfg_eq, hA]

/-! ### The calls -/

theorem Inserts.passes (h : Good b A) (hi : Inserts b o trades b₁) : Passes b A o where
  not_rejects := by
    have hid : o.id ≠ kInvalidOrderId := fun hid => hi.valid (Or.inr hid)
    have hrests : ¬A.Rests o.id := (h.find_none_iff hid).mp hi.not_found
    rintro (hqty | hinv | hr | hprice)
    · exact hi.valid (Or.inl hqty)
    · exact hid hinv
    · exact hrests hr
    · exact hi.priced hprice
  not_killed := hi.not_killed
  not_crossing := hi.not_crossing

/-- The matching phase of an order that is to rest. -/
theorem Inserts.fill (h : Good b A) (hi : Inserts b o trades b₁)
    (hok : ErasesOk b.idMap (b.filledIds A o)) :
    ∃ A₁, Matched b A (opposite o.side) (b.sources o) o.qty.toNat b₁ A₁ := by
  obtain ⟨b₂, n, A₁, hrun, -, hm⟩ := h.aggress (hi.passes h).inRange trades hok
  obtain ⟨n', trades', hrun', -⟩ := hi.matched
  rw [hrun] at hrun'
  cases hrun'
  exact ⟨A₁, hm⟩

/-- **A `submit` fails** exactly if it is to rest and the slab has no slot left. -/
theorem Good.submit_error_iff (h : Good b A) (hok : ErasesOk b.idMap (b.filledIds A o)) :
    (∃ e trades', (b.submitOrder o).run trades = .error e trades') ↔
      ∃ b₁, Inserts b o trades b₁ ∧ b₁.SlabEmpty := by
  constructor
  · rintro ⟨e, trades', herror⟩
    have hs := h.submit o trades fun _ => hok
    rw [herror] at hs
    cases hs with
    | full hp hm hlt ht hfull =>
      have hr := hp.not_rejects
      obtain ⟨b₁, n, A₁, hrun, hn, hm₁⟩ := h.aggress hp.inRange trades hok
      have hn0 : n ≠ 0 := fun hz => by
        rw [hz] at hn
        change 0 = _ at hn
        omega
      refine ⟨b₁, ⟨fun hbad => hr (hbad.imp_right Or.inl), ?_, fun hbad => hr ?_,
        hp.not_killed, hp.not_crossing, ⟨n, _, hrun, hn0⟩, ht⟩, ?_⟩
      · exact h.find_none (IndexedBy.findOk_of_ne _ fun hid => hr (Or.inr (Or.inl hid)))
          (not_rests_of_not_rejects hr)
      · exact Or.inr (Or.inr (Or.inr hbad))
      · rw [hm₁.good.core.slabEmpty_iff, hm₁.good.core.restingCount_eq,
          hm₁.openOrders_eq hm, hfull, hm₁.cfg_eq, hm.cfg_eq]
  · rintro ⟨b₁, hi, hempty⟩
    obtain ⟨A₁, hm⟩ := hi.fill h hok
    obtain ⟨n, trades', hrun, hn⟩ := hi.matched
    have hopen : b₁.openOrders = b₁.cfg.maxOrders := by
      rw [← hm.good.core.restingCount_eq]
      exact hm.good.core.slabEmpty_iff.mp hempty
    rw [h.submitOrder_eq (hi.passes h)]
    unfold OrderBook.execute
    rw [sink_bind hrun]
    dsimp only
    rw [if_neg hn, if_neg hi.rests,
      sink_bind_error (quiet_error (hm.good.core.insertResting_full hopen _ _ _ _) _)]
    exact ⟨_, _, rfl⟩

/-- A `submit` to a book with a free slot returns. -/
theorem Good.submit_of_room (h : Good b A) (hok : ErasesOk b.idMap (b.filledIds A o))
    (hroom : b.openOrders < b.cfg.maxOrders) (trades : List Trade) :
    ∃ b' res trades', (b.submitOrder o).run trades = .ok (b', res) trades' := by
  have hs := h.submit o trades fun _ => hok
  generalize (b.submitOrder o).run trades = x at hs ⊢
  cases hs with
  | rejected | killed | crossing | filled | dropped | rested => exact ⟨_, _, _, rfl⟩
  | full _ hm _ _ hfull =>
    have hle := hm.openOrders_le h
    rw [hfull, hm.cfg_eq] at hle
    exact absurd hroom (not_lt.mpr hle)

end Good

/-! ### Reachable books -/

section Reachable

variable {M : Type} [LawfulIdMap M] {b b₁ : OrderBook M}

theorem Good.modify_returns (h : Good b b.queue) (id : OrderId) (newQty : Quantity)
    (newPrice : Price) (ts : Timestamp) (trades : List Trade) :
    ∃ b' res trades', (b.modify id newQty newPrice ts).run trades = .ok (b', res) trades' := by
  by_cases hrests : b.queue.Rests id
  · obtain ⟨s, i, r, hr, rfl⟩ := hrests
    obtain ⟨xs, ys, hq⟩ := List.append_of_mem hr
    by_cases hin : r.InPlace newQty newPrice
    · obtain ⟨b', hshrink, -⟩ := h.shrink_to hq hin
      exact ⟨b', _, _, h.modify_shrink hq hin hshrink ts trades⟩
    · -- the cancelled order has given back its slot
      obtain ⟨b', hdrop, hd, -⟩ := h.drop hq trivial
      have hroom := (hd.openOrders_lt h).trans_le h.core.openOrders_le
      rw [h.modify_submit hq hin hdrop ts trades]
      exact hd.good.submit_of_room (erasesOk_of_lawful _ _) (by rwa [hd.cfg_eq]) trades
  · exact ⟨b, _, _, h.modify_none trivial hrests newQty newPrice ts trades⟩

/-- A `modify` that gets to `insert_resting_` does so in a book with a free slot. -/
theorem Allocates.inserts (h : Good b b.queue) {id : OrderId} {newQty : Quantity}
    {newPrice : Price} {ts : Timestamp}
    (ha : Allocates b trades (.modify id newQty newPrice ts) b₁) :
    ∃ b' A' o, Good b' A' ∧ b'.cfg = b.cfg ∧ b'.openOrders < b'.cfg.maxOrders ∧
      Inserts b' o trades b₁ := by
  cases ha with
  | modify hfind hread hin hcancel hi =>
    have hrests : b.queue.Rests id := by
      by_contra hr
      rw [h.find_none trivial hr] at hfind
      cases hfind
    obtain ⟨s, i, r, hr, rfl⟩ := hrests
    obtain ⟨xs, ys, hq⟩ := List.append_of_mem hr
    obtain ⟨b', hdrop, hd, -⟩ := h.drop hq trivial
    rw [h.cancel_eq hq hdrop] at hcancel
    cases hcancel
    have hroom := (hd.openOrders_lt h).trans_le h.core.openOrders_le
    exact ⟨_, _, _, hd.good, hd.cfg_eq, by rwa [hd.cfg_eq], hi⟩

theorem Inserts.slabEmpty_iff {A : Queues} (h : Good b A) (hi : Inserts b o trades b₁) :
    b₁.SlabEmpty ↔ b₁.restingCount = b.cfg.maxOrders := by
  obtain ⟨A₁, hm⟩ := hi.fill h (erasesOk_of_lawful _ _)
  rw [hm.good.core.slabEmpty_iff, hm.cfg_eq]

theorem exec_submit_error_iff :
    (∃ e trades', (b.exec (.submit o)).run trades = .error e trades') ↔
      ∃ e trades', (b.submitOrder o).run trades = .error e trades' := by
  unfold exec
  cases hx : (b.submitOrder o).run trades with
  | ok x trades' =>
    rw [sink_bind hx]
    exact iff_of_false nofun nofun
  | error e trades' =>
    rw [sink_bind_error hx]
    exact iff_of_true ⟨_, _, rfl⟩ ⟨_, _, rfl⟩

/-- **The slab runs out** exactly if as many orders rest after the matching phase of a call as it
has slots. -/
theorem Reachable.exhaustion {cfg : Config} (h : Reachable cfg b) : Exhaustion b := by
  obtain ⟨hgood, -⟩ := h.good
  have hok : ∀ (b : OrderBook M) A o, ErasesOk b.idMap (b.filledIds A o) :=
    fun b A o => erasesOk_of_lawful _ _
  constructor
  · intro trades c b₁ ha
    cases c with
    | submit o =>
      cases ha with
      | submit hi => exact hi.slabEmpty_iff hgood
    | cancel | reduce => cases ha
    | modify =>
      obtain ⟨b', A', o, hgood', hcfg, -, hi⟩ := ha.inserts hgood
      rw [← hcfg]
      exact hi.slabEmpty_iff hgood'
  · intro trades c
    cases c with
    | submit o =>
      rw [exec_submit_error_iff, hgood.submit_error_iff (hok b _ o)]
      constructor
      · rintro ⟨b₁, hi, hempty⟩
        exact ⟨b₁, .submit hi, hempty⟩
      · rintro ⟨b₁, ⟨hi⟩, hempty⟩
        exact ⟨b₁, hi, hempty⟩
    | cancel id =>
      obtain ⟨found, b', hcancel, -⟩ := hgood.cancel_without (safe_of_lawful b _ (.cancel id))
      unfold exec
      rw [sink_bind (quiet_ok hcancel trades)]
      exact iff_of_false nofun nofun
    | reduce id delta =>
      obtain ⟨found, b', hreduce, -⟩ :=
        hgood.reduce_lessen (safe_of_lawful b _ (.reduce id delta))
      unfold exec
      rw [sink_bind (quiet_ok hreduce trades)]
      exact iff_of_false nofun nofun
    | modify id newQty newPrice ts =>
      obtain ⟨b', res, trades', hrun⟩ := hgood.modify_returns id newQty newPrice ts trades
      unfold exec
      rw [sink_bind hrun]
      refine iff_of_false nofun ?_
      -- the submission of the new order would fail, which it cannot in a book with a free slot
      rintro ⟨b₁, ha, hempty⟩
      obtain ⟨b₀, A₀, o, hgood₀, -, hroom, hi⟩ := ha.inserts hgood
      obtain ⟨e, trades₁, herror⟩ := (hgood₀.submit_error_iff (hok b₀ _ o)).mpr ⟨b₁, hi, hempty⟩
      obtain ⟨b₂, res₂, trades₂, hok₂⟩ := hgood₀.submit_of_room (hok b₀ _ o) hroom trades
      rw [herror] at hok₂
      cases hok₂
  · intro trades o hroom
    rw [hgood.core.restingCount_eq] at hroom
    exact hgood.submit_of_room (hok b _ o) hroom trades
  · rintro trades o b₁ hi ⟨id, hid, hgone⟩ hempty
    obtain ⟨A₁, hm⟩ := hi.fill hgood (hok b _ o)
    have hlt := hm.openOrders_lt hgood hid (hm.good.core.queue_eq ▸ hgone)
    have hfull := hm.good.core.slabEmpty_iff.mp hempty
    have hle := hgood.core.openOrders_le
    rw [hm.good.core.restingCount_eq, hm.cfg_eq] at hfull
    omega
  · intro trades id newQty newPrice ts
    exact hgood.modify_returns id newQty newPrice ts trades

theorem tradedBook_exhaustion : Exhaustion tradedBook := tradedBook_reachable.exhaustion

end Reachable

end Lob.OrderBook
