import Lob.Equiv.OrderBook.SlotOwnership
import Lob.Equiv.OrderBook.Visible

/-!
# The representation of the book

A book for fewer than `2^32` orders keeps its views of the same data in step: the lists of the
levels, their counts and totals, the bitmaps, the cached best levels and the number of slots in
use (`Represented`, `Reachable.represented`).
-/

namespace Lob.OrderBook

open Queues SlabAllocator

variable {M : Type} {b : OrderBook M} {A : Queues} {s : Side} {i : ℕ}

/-- **The representation invariant.** -/
structure Represented (b : OrderBook M) : Prop where
  linked : ∀ s, ∀ i < b.cfg.numLevels, (b.level s i).orders.Linked b.slab (b.slots s i)
  count_eq : ∀ s, ∀ i < b.cfg.numLevels, (b.level s i).count.toNat = (b.slots s i).length
  total_eq : ∀ s, ∀ i < b.cfg.numLevels, (b.level s i).totalQty.toNat =
    ((b.slots s i).map fun p => (b.slab.storage p).value.quantity.toNat).sum % 2 ^ 32
  quantity_pos : ∀ s, ∀ i < b.cfg.numLevels, ∀ p ∈ b.slots s i,
    0 < (b.slab.storage p).value.quantity
  side_eq : ∀ s, ∀ i < b.cfg.numLevels, ∀ p ∈ b.slots s i, (b.slab.storage p).value.side = s
  price_eq : ∀ s, ∀ i < b.cfg.numLevels, ∀ p ∈ b.slots s i,
    (b.slab.storage p).value.price.toInt = b.cfg.basePrice.toInt + i
  levelIdx_eq : ∀ s, ∀ i < b.cfg.numLevels, ∀ p ∈ b.slots s i,
    (b.slab.storage p).value.levelIdx.toNat = i
  bit_iff : ∀ s, ∀ i < b.cfg.numLevels, (b.bitmap s).test i = true ↔ b.slots s i ≠ []
  bit_past : ∀ s, ∀ i ≥ b.cfg.numLevels, (b.bitmap s).test i = false
  no_bid_iff : b.bestBidIdx = kNoBest ↔ ∀ i < b.cfg.numLevels, b.slots .buy i = []
  best_bid : b.bestBidIdx ≠ kNoBest →
    IsGreatest {i | i < b.cfg.numLevels ∧ b.slots .buy i ≠ []} b.bestBidIdx
  no_ask_iff : b.bestAskIdx = kNoBest ↔ ∀ i < b.cfg.numLevels, b.slots .sell i = []
  best_ask : b.bestAskIdx ≠ kNoBest →
    IsLeast {i | i < b.cfg.numLevels ∧ b.slots .sell i ≠ []} b.bestAskIdx
  openOrders_eq : b.openOrders = ((List.range b.cfg.numLevels).map fun i =>
    (b.slots .buy i).length + (b.slots .sell i).length).sum

/-! ### The number of orders -/

/-- The slots of all orders. -/
def linkedSlots (b : OrderBook M) : List Ptr :=
  (List.range b.cfg.numLevels).flatMap fun i => b.slots .buy i ++ b.slots .sell i

theorem Core.mem_linkedSlots (h : Core b A none) {p : Ptr} :
    p ∈ b.linkedSlots ↔ (b.slab.storage p).live = true := by
  rw [h.live_iff]
  unfold linkedSlots
  simp only [List.mem_flatMap, List.mem_range, List.mem_append]
  constructor
  · rintro ⟨i, -, hp | hp⟩
    · exact ⟨.buy, i, hp⟩
    · exact ⟨.sell, i, hp⟩
  · rintro ⟨s, i, hp⟩
    obtain ⟨r, hr, rfl⟩ := h.mem_slots.mp hp
    refine ⟨i, (h.placed s i r hr).inside, ?_⟩
    cases s with
    | buy => exact Or.inl hp
    | sell => exact Or.inr hp

theorem Core.slots_disjoint (h : Core b A none) {s t : Side} {i j : ℕ} (hne : s = t → i ≠ j) :
    (b.slots s i).Disjoint (b.slots t j) := by
  intro p hp hp'
  obtain ⟨r, hr, rfl⟩ := h.mem_slots.mp hp
  obtain ⟨r', hr', hslot⟩ := h.mem_slots.mp hp'
  obtain ⟨hs, hi, -⟩ := h.distinct.unique hr hr' hslot.symm
  exact hne hs hi

theorem Core.slots_nodup (h : Core b A none) (s : Side) (i : ℕ) : (b.slots s i).Nodup := by
  rw [h.slots_eq]
  exact (h.linked s i).nodup

theorem Core.linkedSlots_nodup (h : Core b A none) : b.linkedSlots.Nodup := by
  -- no slot is on two levels, or on a bid and an ask level
  refine List.nodup_flatMap.mpr ⟨fun i _ => ?_, ?_⟩
  · exact (h.slots_nodup _ i).append (h.slots_nodup _ i) (h.slots_disjoint nofun)
  · refine List.nodup_range.imp fun {i j} hne => ?_
    have hdis := fun s t => h.slots_disjoint (s := s) (t := t) fun _ => hne
    simp only [Function.onFun, List.disjoint_append_left, List.disjoint_append_right]
    exact ⟨⟨hdis _ _, hdis _ _⟩, hdis _ _, hdis _ _⟩

/-- The slots that are not free are those of the orders. -/
theorem Core.openOrders_eq (h : Core b A none) : b.openOrders = b.linkedSlots.length := by
  obtain ⟨fl, hfl⟩ := h.free
  have hdis : fl.Disjoint b.linkedSlots := by
    intro p hp hp'
    have hfree := ((hfl.mem_iff p).mp hp).2
    rw [h.mem_linkedSlots.mp hp'] at hfree
    cases hfree
  -- every slot is free or linked
  have hmem : ∀ p, p ∈ fl ++ b.linkedSlots ↔ p ∈ List.range b.slab.capacity := by
    intro p
    rw [List.mem_append, hfl.mem_iff, h.mem_linkedSlots, List.mem_range]
    constructor
    · rintro (⟨hp, -⟩ | hp)
      · exact hp
      · exact hfl.live_lt p hp
    · intro hp
      cases (b.slab.storage p).live with
      | true => exact Or.inr rfl
      | false => exact Or.inl ⟨hp, rfl⟩
  have hperm := (List.perm_ext_iff_of_nodup (hfl.nodup.append h.linkedSlots_nodup hdis)
    List.nodup_range).mpr hmem
  have hlen := hperm.length_eq
  have hadd := hfl.inUse_add
  rw [List.length_append, List.length_range] at hlen
  unfold openOrders
  omega

theorem length_linkedSlots (b : OrderBook M) :
    b.linkedSlots.length = ((List.range b.cfg.numLevels).map fun i =>
      (b.slots .buy i).length + (b.slots .sell i).length).sum := by
  unfold linkedSlots
  simp [List.length_flatMap]

/-- The number of orders, by their queues. -/
theorem Core.openOrders_eq_sum (h : Core b A none) :
    b.openOrders = ((List.range b.cfg.numLevels).map fun i =>
      (A .buy i).length + (A .sell i).length).sum := by
  rw [h.openOrders_eq, length_linkedSlots]
  simp only [h.slots_eq, List.length_map]

/-! ### All views agree -/

theorem bit_iff_slots (hb : Core b A none) (hbacked : Backed b A) (hv : Visible b A) :
    b.bit s i = true ↔ b.slots s i ≠ [] := by
  rw [hb.slots_eq, Ne, List.map_eq_nil_iff]
  exact ⟨hbacked s i, hv s i⟩

theorem Good.views_agree [IdMap M] [IndexedBy M] (h : Good b A) (hv : Visible b A)
    (hshort : ∀ s i, (A s i).length < 2 ^ 32) : Represented b := by
  have hbit := fun s i => bit_iff_slots (s := s) (i := i) h.core h.backed hv
  have hplaced : ∀ s i, ∀ p ∈ b.slots s i, ∃ r, r ∈ A s i ∧
      Placed b.cfg (b.slab.storage p) s i r := by
    intro s i p hp
    obtain ⟨r, hr, rfl⟩ := h.core.mem_slots.mp hp
    exact ⟨r, hr, h.core.placed s i r hr⟩
  -- on either side the set bits are those of the levels with orders
  have hbest : ∀ s, (b.bestIdx s = kNoBest ↔ ∀ i < b.cfg.numLevels, b.slots s i = []) ∧
      (b.bestIdx s ≠ kNoBest → (b.bestIdx s < b.cfg.numLevels ∧ b.slots s (b.bestIdx s) ≠ []) ∧
        ∀ i, b.slots s i ≠ [] → ¬Better s i (b.bestIdx s)) := by
    intro s
    refine ⟨⟨fun hno i _ => ?_, fun hall => ?_⟩, fun hne => ⟨?_, fun i hi hlt => ?_⟩⟩
    · by_contra hne
      exact h.index.bestIdx_ne ((hbit s i).mpr hne) hno
    · by_contra hne
      have hset := h.index.bit_best hne
      exact (hbit s _).mp hset (hall _ (h.index.bit_lt hset))
    · have hset := h.index.bit_best hne
      exact ⟨h.index.bit_lt hset, (hbit s _).mp hset⟩
    · exact ((h.index.best s).resolve_left fun hn => hne hn.1).2 i ((hbit s i).mpr hi) hlt
  constructor
  · intro s i _
    rw [h.core.slots_eq]
    exact h.core.linked s i
  · intro s i _
    rw [h.core.count_eq, h.core.slots_eq, List.length_map, Nat.mod_eq_of_lt (hshort s i)]
  · intro s i _
    rw [h.core.total_eq, h.core.slots_eq, List.map_map]
    refine congrArg (fun l : List ℕ => l.sum % 2 ^ 32) (List.map_congr_left fun r hr => ?_)
    rw [Function.comp_apply, (h.core.placed s i r hr).quantity_eq]
    rfl
  · intro s i _ p hp
    obtain ⟨r, hr, hpl⟩ := hplaced s i p hp
    rw [hpl.quantity_eq]
    exact UInt32.lt_iff_toNat_lt.mpr (h.positive s i r hr)
  · intro s i _ p hp
    obtain ⟨r, -, hpl⟩ := hplaced s i p hp
    exact hpl.side_eq
  · intro s i _ p hp
    obtain ⟨r, -, hpl⟩ := hplaced s i p hp
    rw [hpl.price_eq]
    exact hpl.level_eq
  · intro s i _ p hp
    obtain ⟨r, -, hpl⟩ := hplaced s i p hp
    exact hpl.levelIdx_eq
  · intro s i _
    exact hbit s i
  · intro s i hi
    by_contra hne
    have hset : b.bit s i = true := Bool.not_eq_false _ ▸ hne
    exact absurd (h.index.bit_lt hset) (not_lt.mpr hi)
  · exact (hbest .buy).1
  · intro hne
    obtain ⟨hmem, hmax⟩ := (hbest .buy).2 hne
    exact ⟨hmem, fun i hi => not_lt.mp (hmax i hi.2)⟩
  · exact (hbest .sell).1
  · intro hne
    obtain ⟨hmem, hmin⟩ := (hbest .sell).2 hne
    exact ⟨hmem, fun i hi => not_lt.mp (hmin i hi.2)⟩
  · rw [h.core.openOrders_eq, length_linkedSlots]

theorem Good.short [IdMap M] [IndexedBy M] (h : Good b A) (hmax : b.cfg.maxOrders < 2 ^ 32)
    (s : Side) (i : ℕ) : (A s i).length < 2 ^ 32 := by
  have hle := h.core.length_le s i
  rw [h.core.capacity_eq] at hle
  omega

/-- In a book for fewer than `2^32` orders every call keeps the bits of the levels with orders. -/
theorem Reachable.run_keeps {M : Type} [LawfulIdMap M] {cfg : Config} {b : OrderBook M}
    (h : Reachable cfg b) (hmax : cfg.maxOrders < 2 ^ 32) :
    Run (fun b c => Keeps b b.queue c) cfg b := by
  unfold Reachable at h
  induction h with
  | new => exact .new
  | step hrun _ hexec ih =>
    obtain ⟨hgood, hcfg⟩ := Reachable.good hrun
    exact .step ih (keeps_of_short (hgood.short (hcfg ▸ hmax))) hexec

theorem Run.visible {M : Type} [LawfulIdMap M] {cfg : Config} {b : OrderBook M}
    (h : Run (fun b c => Keeps b b.queue c) cfg b) : Visible b b.queue :=
  (Run.induction (P := fun b => Visible b b.queue) (fun b c _ => safe_of_lawful b b.queue c)
    (new_visible cfg) (fun _ _ _ _ _ hgood _ hk hv hs => hs.visible hgood hk hv) h).2.2

/-- **The representation over runs.**  Every reachable book for fewer than `2^32` orders is well
represented, and every call on it returns or runs out of slots. -/
theorem Reachable.represented {M : Type} [LawfulIdMap M] {cfg : Config} {b : OrderBook M}
    (hmax : cfg.maxOrders < 2 ^ 32) (h : Reachable cfg b) :
    Represented b ∧ ∀ c trades, (∃ b' trades', (b.exec c).run trades = .ok b' trades') ∨
      ∃ trades', (b.exec c).run trades = .error .slabExhausted trades' := by
  obtain ⟨hgood, hcfg⟩ := h.good
  have hv := (h.run_keeps hmax).visible
  refine ⟨hgood.views_agree hv (hgood.short (hcfg ▸ hmax)), fun c trades => ?_⟩
  have hs := hgood.exec (safe_of_lawful b b.queue c) trades
  cases hx : (b.exec c).run trades with
  | ok b' trades' => exact Or.inl ⟨b', trades', rfl⟩
  | error e trades' =>
    rw [hx] at hs
    obtain rfl := hs.fault
    exact Or.inr ⟨trades', rfl⟩

/-- An ask of five, of which a bid takes three. -/
def tradedBook : OrderBook PlainIdMap :=
  ((new smallConfig).after (.submit (gtcOrder 1 .sell 1 5))).after (.submit (gtcOrder 2 .buy 1 3))

theorem tradedBook_reachable : Reachable smallConfig tradedBook :=
  (Run.new.after trivial (by decide)).after trivial (by decide)

theorem tradedBook_represented :
    Represented tradedBook ∧ ∀ c trades,
      (∃ b' trades', (tradedBook.exec c).run trades = .ok b' trades') ∨
        ∃ trades', (tradedBook.exec c).run trades = .error .slabExhausted trades' :=
  tradedBook_reachable.represented (by decide)

/-- Two asks at a price, a third one above it, and a bid below. -/
def layeredBook : OrderBook PlainIdMap :=
  ((((new smallConfig).after (.submit (gtcOrder 1 .sell 1 2))).after
    (.submit (gtcOrder 2 .sell 1 3))).after (.submit (gtcOrder 3 .sell 2 4))).after
      (.submit (gtcOrder 4 .buy 0 5))

theorem layeredBook_reachable : Reachable smallConfig layeredBook :=
  (((Run.new.after trivial (by decide)).after trivial (by decide)).after trivial
    (by decide)).after trivial (by decide +kernel)

end Lob.OrderBook
