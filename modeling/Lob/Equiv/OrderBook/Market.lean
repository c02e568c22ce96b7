import Lob.Market
import Lob.Equiv.OrderBook.Exhaustion
import Lob.Equiv.OrderBook.RelabelCalls

/-!
# The market of a book

`OrderBook.market` forgets the levels, the slots and the index.  This module says what becomes of
the market when the queues change: an order is amended in its place (`Good.market_set`), the orders
within a limit are filled (`Matched.market_eq`), and an order is put at the end of its level
(`Core.market_rest`).
-/

namespace Lob

def Resting.entry (r : Resting) : Entry := ⟨r.id, r.price, r.qty⟩

/-- The orders of the first `n` levels of each side. -/
def Queues.market (A : Queues) (n : ℕ) : Market :=
  fun s => (A.orders s (ladder s n)).map Resting.entry

def OrderBook.market {M : Type} (b : OrderBook M) : Market := b.queue.market b.cfg.numLevels

theorem OrderBook.market_apply {M : Type} (b : OrderBook M) (s : Side) :
    b.market s = (b.resting s).map Resting.entry := rfl

/-! ### Lists by priority -/

/-- An element goes between those that it does not come before and those that it comes before. -/
theorem orderedInsert_append {α : Type} {r : α → α → Prop} [DecidableRel r] {a : α}
    {l₁ l₂ : List α} (h₁ : ∀ b ∈ l₁, ¬r a b) (h₂ : ∀ b ∈ l₂, r a b) :
    (l₁ ++ l₂).orderedInsert r a = l₁ ++ a :: l₂ := by
  induction l₁ with
  | nil =>
    cases l₂ with
    | nil => rfl
    | cons b l₂ => exact List.orderedInsert_cons_of_le r l₂ (h₂ b List.mem_cons_self)
  | cons b l₁ ih =>
    rw [List.cons_append, List.orderedInsert_of_not_le r _ (h₁ b List.mem_cons_self),
      ih fun c hc => h₁ c (List.mem_cons_of_mem _ hc), List.cons_append]

namespace Market

variable {m : Market} {s : Side} {e : Entry} {id : OrderId}

theorem mem_rests (he : e ∈ m s) : m.Rests e.id := by
  refine ⟨e, ?_, rfl⟩
  cases s with
  | buy => exact List.mem_append_left _ he
  | sell => exact List.mem_append_right _ he

theorem rests_iff : m.Rests id ↔ ∃ s, ∃ e ∈ m s, e.id = id := by
  constructor
  · rintro ⟨e, he, hid⟩
    rcases List.mem_append.mp he with he | he
    · exact ⟨.buy, e, he, hid⟩
    · exact ⟨.sell, e, he, hid⟩
  · rintro ⟨s, e, he, rfl⟩
    exact mem_rests he

theorem find_none (h : ¬m.Rests id) : m.find id = none := by
  have hside : ∀ s, (m s).find? (fun e => e.id = id) = none := fun s =>
    List.find?_eq_none.mpr fun e he hid => h (of_decide_eq_true hid ▸ mem_rests he)
  unfold find
  rw [hside .buy, hside .sell]
  rfl

/-- An order whose id is no other one's is found. -/
theorem find_some (he : e ∈ m s) (huniq : ∀ s' e', e' ∈ m s' → e'.id = e.id → s' = s ∧ e' = e) :
    m.find e.id = some (s, e) := by
  have hself : (m s).find? (fun e' => e'.id = e.id) = some e := by
    cases hf : (m s).find? fun e' => e'.id = e.id with
    | none => exact absurd (decide_eq_true rfl) (List.find?_eq_none.mp hf e he)
    | some e' =>
      have hid : e'.id = e.id := by simpa using List.find?_some hf
      rw [(huniq s e' (List.mem_of_find?_eq_some hf) hid).2]
  unfold find
  cases s with
  | buy => rw [hself]
  | sell =>
    have hother : (m .buy).find? (fun e' => e'.id = e.id) = none :=
      List.find?_eq_none.mpr fun e' he' hid =>
        absurd (huniq .buy e' he' (of_decide_eq_true hid)).1 (by decide)
    rw [hother, hself]
    rfl

end Market

/-! ### The orders of the levels -/

namespace Queues

variable {A : Queues} {n : ℕ} {s : Side} {e : Entry}

theorem mem_market : e ∈ A.market n s ↔ ∃ i < n, ∃ r ∈ A s i, r.entry = e := by
  unfold market Queues.orders
  simp only [List.mem_map, List.mem_flatMap, OrderBook.mem_ladder]
  constructor
  · rintro ⟨r, ⟨i, hi, hr⟩, rfl⟩
    exact ⟨i, hi, r, hr, rfl⟩
  · rintro ⟨i, hi, r, hr, rfl⟩
    exact ⟨r, ⟨i, hi, hr⟩, rfl⟩

/-- Levels without orders do not matter. -/
theorem orders_filter {p : ℕ → Bool} {ls : List ℕ} (h : ∀ i ∈ ls, A s i ≠ [] → p i = true) :
    A.orders s (ls.filter p) = A.orders s ls := by
  induction ls with
  | nil => rfl
  | cons i ls ih =>
    have ih := ih fun j hj => h j (List.mem_cons_of_mem _ hj)
    by_cases hp : p i = true
    · rw [List.filter_cons_of_pos hp, OrderBook.orders_cons, OrderBook.orders_cons, ih]
    · have hnil : A s i = [] := not_not.mp fun hne => hp (h i List.mem_cons_self hne)
      rw [List.filter_cons_of_neg hp, OrderBook.orders_cons, hnil, ih, List.nil_append]

end Queues

/-! ### Amended orders -/

namespace OrderBook

open Queues

variable {M : Type} {b b' : OrderBook M} {A A' : Queues} {s : Side} {i : ℕ} {r : Resting}
  {xs ys : List Resting} {o : NewOrder} {id : OrderId}

/-- The ids of the market are those of the queues. -/
theorem Core.market_rests_iff (h : Core b A none) :
    (A.market b.cfg.numLevels).Rests id ↔ A.Rests id := by
  rw [Market.rests_iff]
  constructor
  · rintro ⟨s, e, he, rfl⟩
    obtain ⟨i, -, r, hr, rfl⟩ := mem_market.mp he
    exact ⟨s, i, r, hr, rfl⟩
  · rintro ⟨s, i, r, hr, rfl⟩
    exact ⟨s, r.entry, mem_market.mpr ⟨i, (h.placed s i r hr).inside, r, hr, rfl⟩, rfl⟩

section Good

variable [IdMap M] [IndexedBy M]

theorem Good.market_find (h : Good b A) (hr : r ∈ A s i) :
    (A.market b.cfg.numLevels).find r.id = some (s, r.entry) := by
  have he : r.entry ∈ A.market b.cfg.numLevels s :=
    mem_market.mpr ⟨i, (h.core.placed s i r hr).inside, r, hr, rfl⟩
  refine Market.find_some he fun s' e' he' hid => ?_
  obtain ⟨j, -, r', hr', rfl⟩ := mem_market.mp he'
  obtain ⟨ht, -, hrr⟩ := h.unique hr' hr hid
  exact ⟨ht, congrArg Resting.entry hrr⟩

/-- **An order is amended in its place.**  Its new state is `f` of the old one. -/
theorem Good.market_set (h : Good b A) (hq : A s i = xs ++ r :: ys) (r' : Option Resting)
    {f : Entry → Option Entry} (hf : r'.map Resting.entry = f r.entry) (n : ℕ) :
    (A.set s i (xs ++ (r'.toList ++ ys))).market n = (A.market n).amend r.id f := by
  obtain ⟨hself, hother⟩ := h.ne_id hq
  -- the other orders have other ids
  have hkeep : ∀ q : List Resting, (∀ x ∈ q, x.id ≠ r.id) →
      (q.map Resting.entry).filterMap (fun e => if e.id = r.id then f e else some e) =
        q.map Resting.entry := by
    intro q hne
    rw [List.filterMap_map, ← List.filterMap_eq_map]
    exact List.filterMap_congr fun x hx => if_neg (hne x hx)
  have hlevel : ∀ t j, (A.set s i (xs ++ (r'.toList ++ ys)) t j).map Resting.entry =
      ((A t j).map Resting.entry).filterMap fun e => if e.id = r.id then f e else some e := by
    apply set_forall (P := fun t j q => q.map Resting.entry =
      ((A t j).map Resting.entry).filterMap fun e => if e.id = r.id then f e else some e)
    · have hr : (if r.entry.id = r.id then f r.entry else some r.entry) = f r.entry := if_pos rfl
      rw [hq, List.map_append, List.map_append, List.map_append, List.map_cons,
        List.filterMap_append, List.filterMap_cons, hr,
        hkeep xs fun x hx => hself x (List.mem_append_left _ hx),
        hkeep ys fun x hx => hself x (List.mem_append_right _ hx), ← hf]
      cases r' <;> rfl
    · exact fun t j hne => (hkeep _ (hother t j hne)).symm
  funext t
  unfold Queues.market Market.amend Queues.orders
  dsimp only
  rw [List.map_flatMap, List.map_flatMap, List.filterMap_flatMap]
  exact List.flatMap_congr fun j _ => hlevel t j

theorem Good.market_drop (h : Good b A) (hq : A s i = xs ++ r :: ys) (n : ℕ) :
    (A.set s i (xs ++ ys)).market n = (A.market n).amend r.id fun _ => none :=
  h.market_set hq none rfl n

theorem Good.market_shrink (h : Good b A) (hq : A s i = xs ++ r :: ys) (qty : Quantity) (n : ℕ) :
    (A.set s i (xs ++ { r with qty := qty } :: ys)).market n =
      (A.market n).amend r.id fun e => some { e with qty := qty } :=
  h.market_set hq (some { r with qty := qty }) rfl n

end Good

/-! ### Orders that come in -/

theorem market_matching (b : OrderBook M) (o : NewOrder) :
    b.market.matching o = (b.reference o).map Resting.entry := by
  unfold Market.matching reference
  rw [market_apply, List.filter_map]
  rfl

theorem market_available (b : OrderBook M) (o : NewOrder) :
    b.market.available o = Greedy.total Resting.size (b.reference o) := by
  unfold Market.available
  rw [market_matching]
  exact Greedy.total_map (fun _ => rfl) _

theorem market_trades (b : OrderBook M) (o : NewOrder) :
    b.market.trades o = o.trades (b.reference o) := by
  unfold Market.trades NewOrder.trades
  have hfills : Greedy.fills Entry.size ((b.reference o).map Resting.entry) o.qty.toNat =
      (Greedy.fills Resting.size (b.reference o) o.qty.toNat).map fun f => (f.1.entry, f.2) :=
    Greedy.fills_map (fun _ => rfl) _ _
  rw [market_matching, hfills, List.map_map]
  rfl

/-- The levels within the limit that show have the orders within the limit. -/
theorem Visible.orders_crossing (hv : Visible b A) (h : Core b A none)
    (hprice : o.type ≠ .market → b.inRange o.price = true) :
    A.orders (opposite o.side) (b.crossing o) = b.reference o := by
  rw [h.reference_eq hprice, crossing_eq]
  exact orders_filter fun i _ hne => hv _ i hne

section Good

variable [IdMap M] [IndexedBy M]

/-- **The orders within the limit are filled**, and the other ones stay. -/
theorem Matched.market_eq (h : Good b b.queue) (hv : Visible b b.queue)
    (hprice : o.type ≠ .market → b.inRange o.price = true)
    (hm : Matched b b.queue (opposite o.side) (b.crossing o) o.qty.toNat b' A') :
    A'.market b.cfg.numLevels = b.market.fill o := by
  funext t
  unfold Market.fill
  by_cases ht : t = opposite o.side
  · subst ht
    -- the levels past the limit are not touched
    have hpast : A'.orders (opposite o.side) ((ladder (opposite o.side) b.cfg.numLevels).filter
        (pastLimit o.side (b.limitOf o))) =
          (b.resting (opposite o.side)).filter fun r => !o.accepts r := by
      rw [h.core.rest_eq hprice]
      refine List.flatMap_congr fun i hi => hm.other_eq _ i fun hcon => ?_
      have hwithin := (List.mem_filter.mp hcon.2).2
      rw [(List.mem_filter.mp hi).2] at hwithin
      cases hwithin
    have hleft : Greedy.leftover Entry.size Entry.shrink ((b.reference o).map Resting.entry)
        o.qty.toNat = (Greedy.leftover Resting.size Resting.shrink (b.reference o)
          o.qty.toNat).map Resting.entry :=
      Greedy.leftover_map (fun _ => rfl) (fun _ _ => rfl) _ _
    have hrest : (b.market (opposite o.side)).filter (fun e => !o.acceptsPrice e.price) =
        ((b.resting (opposite o.side)).filter fun r => !o.accepts r).map Resting.entry :=
      List.filter_map
    unfold Queues.market
    rw [Function.update_self, market_matching, hleft, hrest, ← List.map_append, ← hpast,
      h.core.reference_eq hprice, ← hm.orders_reached fun _ i _ _ _ hne => hv _ i hne,
      ← orders_append, ← ladder_eq]
  · rw [Function.update_of_ne ht]
    have hother : A' t = b.queue t := funext fun j => hm.other_eq t j fun hcon => ht hcon.1
    unfold OrderBook.market Queues.market Queues.orders
    rw [hother]

end Good

/-- Levels compare as prices do. -/
theorem priceBefore_iff {cfg : Config} {s : Side} {p q : Price} {i j : ℕ}
    (hp : p.toInt = cfg.basePrice.toInt + i) (hq : q.toInt = cfg.basePrice.toInt + j) :
    PriceBefore s p q ↔ Better s i j := by
  cases s with
  | buy =>
    show q < p ↔ j < i
    rw [Int32.lt_iff_toInt_lt]
    omega
  | sell =>
    show p < q ↔ i < j
    rw [Int32.lt_iff_toInt_lt]
    omega

/-- **An order that is put at the end of its level** goes behind the orders that come before it or
have its price. -/
theorem Core.market_rest (h : Core b A none) {k : ℕ} (hk : k < b.cfg.numLevels)
    (hprice : o.price.toInt = b.cfg.basePrice.toInt + k) (p : Ptr) (n : Quantity) :
    (A.set o.side k (A o.side k ++ [⟨p, o.id, o.price, n⟩])).market b.cfg.numLevels =
      (A.market b.cfg.numLevels).rest o n := by
  obtain ⟨pre, post, hls⟩ := List.append_of_mem (mem_ladder (s := o.side).mpr hk)
  have hpair := ladder_pairwise o.side b.cfg.numLevels
  rw [hls, List.pairwise_append, List.pairwise_cons] at hpair
  obtain ⟨-, ⟨hpost, -⟩, hpre⟩ := hpair
  have hnot : k ∉ pre ∧ k ∉ post :=
    ⟨fun hmem => better_ne (hpre k hmem k List.mem_cons_self) rfl,
      fun hmem => better_ne (hpost k hmem) rfl⟩
  have hlevel : ∀ {i r}, r ∈ A o.side i → r.price.toInt = b.cfg.basePrice.toInt + i :=
    fun hr => (h.placed _ _ _ hr).level_eq
  funext t
  unfold Market.rest
  by_cases ht : t = o.side
  · subst ht
    rw [Function.update_self]
    unfold Queues.market
    rw [hls, orders_append, orders_append, orders_cons, orders_cons, set_self,
      orders_set_of_notMem hnot.1, orders_set_of_notMem hnot.2, List.append_assoc,
      List.singleton_append, List.map_append, List.map_append, List.map_append, List.map_append,
      List.map_cons, ← List.append_assoc, ← List.append_assoc]
    refine (orderedInsert_append ?_ ?_).symm
    · -- the orders that come before the new one have better prices, or its own
      intro e he hbefore
      rw [← List.map_append] at he
      obtain ⟨r, hr, rfl⟩ := List.mem_map.mp he
      rcases List.mem_append.mp hr with hr | hr
      · obtain ⟨i, hi, hr⟩ := List.mem_flatMap.mp hr
        have := hpre i hi k List.mem_cons_self
        exact better_asymm this ((priceBefore_iff hprice (hlevel hr)).mp hbefore)
      · exact better_ne ((priceBefore_iff hprice (hlevel hr)).mp hbefore) rfl
    · intro e he
      obtain ⟨r, hr, rfl⟩ := List.mem_map.mp he
      obtain ⟨i, hi, hr⟩ := List.mem_flatMap.mp hr
      exact (priceBefore_iff hprice (hlevel hr)).mpr (hpost i hi)
  · rw [Function.update_of_ne ht]
    unfold Queues.market Queues.orders
    refine congrArg _ (List.flatMap_congr fun j _ => set_of_ne fun hcon => absurd hcon ht)

end OrderBook

end Lob
