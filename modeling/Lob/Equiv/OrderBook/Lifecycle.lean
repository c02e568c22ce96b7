import Lob.Equiv.OrderBook.Outcome
import Lob.Equiv.OrderBook.Representation

/-!
# The calls of a passive client

`cancel` and `reduce` on the queues, whether or not an order rests under the id
(`Good.cancel_without`, `Good.reduce_lessen`), and when a `submit` finds nothing to trade with
(`Good.sources_of_apart`).
-/

namespace Lob

/-- What a `reduce` leaves of an order. -/
def Resting.lessen (r : Resting) (id : OrderId) (delta : Quantity) : Option Resting :=
  if r.id = id then if delta < r.qty then some { r with qty := r.qty - delta } else none
  else some r

namespace Queues

def without (A : Queues) (id : OrderId) : Queues := fun s i => (A s i).filter fun r => r.id ≠ id

def lessen (A : Queues) (id : OrderId) (delta : Quantity) : Queues :=
  fun s i => (A s i).filterMap fun r => r.lessen id delta

variable {A : Queues} {id : OrderId} {delta : Quantity}

theorem without_of_not_rests (h : ¬A.Rests id) : A.without id = A := by
  ext1 s
  ext1 i
  refine List.filter_eq_self.mpr fun r hr => decide_eq_true fun hid => ?_
  exact h ⟨s, i, r, hr, hid⟩

theorem lessen_of_not_rests (h : ¬A.Rests id) : A.lessen id delta = A := by
  ext1 s
  ext1 i
  unfold lessen
  rw [List.filterMap_congr (g := some), List.filterMap_some]
  intro r hr
  exact if_neg fun hid => h ⟨s, i, r, hr, hid⟩

end Queues

namespace OrderBook

open Queues

variable {M : Type} [IdMap M] [IndexedBy M] {b b' : OrderBook M} {A A' : Queues} {s : Side} {i : ℕ}
  {r : Resting} {xs ys : List Resting} {o : NewOrder} {id : OrderId} {delta : Quantity}

/-! ### Calls by id -/

/-- No other order has the id of `r`. -/
theorem Good.ne_id (h : Good b A) (hq : A s i = xs ++ r :: ys) :
    (∀ r' ∈ xs ++ ys, r'.id ≠ r.id) ∧
      ∀ t j, (t = s → j ≠ i) → ∀ r' ∈ A t j, r'.id ≠ r.id := by
  have hr : r ∈ A s i := by simp [hq]
  constructor
  · intro r' hr' hid
    obtain ⟨hmem, hslot⟩ := (h.core.distinct.mem_removed hq).mp hr'
    exact hslot (congrArg Resting.slot (h.unique hmem hr hid).2.2)
  · intro t j hne r' hr' hid
    obtain ⟨ht, hj, -⟩ := h.unique hr' hr hid
    exact hne ht hj

/-- Taking an order off its queue is taking its id off the book. -/
theorem Good.set_removed (h : Good b A) (hq : A s i = xs ++ r :: ys) :
    A.set s i (xs ++ ys) = A.without r.id := by
  obtain ⟨hself, hother⟩ := h.ne_id hq
  ext1 t
  ext1 j
  apply set_forall (P := fun t j q => q = A.without r.id t j)
  · show xs ++ ys = (A s i).filter _
    have hkeep : ∀ q : List Resting, (∀ r' ∈ q, r'.id ≠ r.id) →
        q.filter (fun r' => r'.id ≠ r.id) = q := fun q hne =>
      List.filter_eq_self.mpr fun r' hr' => decide_eq_true (hne r' hr')
    rw [hq, List.filter_append, List.filter_cons_of_neg (by simp),
      hkeep xs fun r' hr' => hself r' (List.mem_append_left _ hr'),
      hkeep ys fun r' hr' => hself r' (List.mem_append_right _ hr')]
  · intro t j hne
    exact (List.filter_eq_self.mpr fun r' hr' => decide_eq_true (hother t j hne r' hr')).symm

/-- What `reduce` leaves of the queues with the order `r`. -/
theorem Good.lessen_eq (h : Good b A) (hq : A s i = xs ++ r :: ys) :
    A.lessen r.id delta = A.set s i (xs ++ ((r.lessen r.id delta).toList ++ ys)) := by
  obtain ⟨hself, hother⟩ := h.ne_id hq
  have hkeep : ∀ q : List Resting, (∀ r' ∈ q, r'.id ≠ r.id) →
      q.filterMap (fun r' => r'.lessen r.id delta) = q := by
    intro q hne
    rw [List.filterMap_congr (g := some), List.filterMap_some]
    intro r' hr'
    exact if_neg (hne r' hr')
  ext1 t
  ext1 j
  apply set_forall (P := fun t j q => A.lessen r.id delta t j = q)
  · show (A s i).filterMap _ = _
    rw [hq, List.filterMap_append, List.filterMap_cons,
      hkeep xs fun r' hr' => hself r' (List.mem_append_left _ hr'),
      hkeep ys fun r' hr' => hself r' (List.mem_append_right _ hr')]
    cases r.lessen r.id delta with
    | none => rfl
    | some r' => rfl
  · intro t j hne
    exact hkeep _ (hother t j hne)

/-- **`cancel`** on the queues.  It sets no bit. -/
theorem Good.cancel_without (h : Good b A) (hsafe : Safe b A (.cancel id)) :
    ∃ found b', b.cancel id = .ok (found, b') ∧ b'.cfg = b.cfg ∧
      (∀ s i, b'.bit s i = true → b.bit s i = true) ∧ Good b' (A.without id) := by
  by_cases hrests : A.Rests id
  · obtain ⟨s, i, r, hr, rfl⟩ := hrests
    obtain ⟨xs, ys, hq⟩ := List.append_of_mem hr
    obtain ⟨b', hdrop, hdropped, -⟩ := h.drop hq (hsafe.erases _ (.drop (.cancel hr) nofun)).1
    have hgood := hdropped.good
    rw [h.set_removed hq] at hgood
    exact ⟨true, b', h.cancel_eq hq hdrop, hdropped.cfg_eq,
      fun t j hb => ((hdropped.bit_iff t j).mp hb).1, hgood⟩
  · rw [without_of_not_rests hrests]
    exact ⟨false, b, h.cancel_none (hsafe.finds id rfl hrests) hrests, rfl, fun _ _ hb => hb, h⟩

/-- **`reduce`** on the queues. -/
theorem Good.reduce_lessen (h : Good b A) (hsafe : Safe b A (.reduce id delta)) :
    ∃ found b', b.reduce id delta = .ok (found, b') ∧ b'.cfg = b.cfg ∧
      Good b' (A.lessen id delta) := by
  by_cases hrests : A.Rests id
  · obtain ⟨s, i, r, hr, rfl⟩ := hrests
    obtain ⟨xs, ys, hq⟩ := List.append_of_mem hr
    rw [h.lessen_eq hq]
    by_cases hdelta : r.qty ≤ delta
    · have hnone : r.lessen r.id delta = none := by
        unfold Resting.lessen
        rw [if_pos rfl, if_neg (UInt32.not_lt.mpr hdelta)]
      obtain ⟨b', hdrop, hdropped, -⟩ :=
        h.drop hq (hsafe.erases _ (.drop (.reduce hr hdelta) nofun)).1
      rw [hnone]
      exact ⟨true, b', h.reduce_drop hq hdelta hdrop, hdropped.cfg_eq, hdropped.good⟩
    · have hlt := UInt32.not_le.mp hdelta
      have hsome : r.lessen r.id delta = some { r with qty := r.qty - delta } := by
        unfold Resting.lessen
        rw [if_pos rfl, if_pos hlt]
      obtain ⟨b', hshrink, hshrunk⟩ := h.shrink_by hq hlt
      rw [hsome]
      exact ⟨true, b', h.reduce_shrink hq hlt hshrink, hshrunk.cfg_eq, hshrunk.good⟩
  · rw [lessen_of_not_rests hrests]
    exact ⟨false, b, h.reduce_none (hsafe.finds id rfl hrests) hrests delta, rfl, h⟩

/-! ### A `submit` that finds nothing -/

/-- An order that accepts no order of a level that shows has nothing to be filled from. -/
theorem Good.sources_of_apart (h : Good b A) (hprice : o.type ≠ .market → b.inRange o.price = true)
    (hapart : ∀ i, b.bit (opposite o.side) i = true → ∀ r ∈ A (opposite o.side) i,
      o.accepts r = false) : b.sources o = [] := by
  unfold sources
  split_ifs with hpost
  · rfl
  · refine List.eq_nil_iff_forall_not_mem.mpr fun i hi => ?_
    rw [crossing_eq] at hi
    obtain ⟨hreached, hbit⟩ := List.mem_filter.mp hi
    -- the level has an order, which is within the limit
    obtain ⟨r, hr⟩ := List.exists_mem_of_ne_nil _ (h.backed _ i hbit)
    have haccepts := h.core.accepts_eq hr hprice
    rw [hapart i hbit r hr, (List.mem_filter.mp hreached).2] at haccepts
    cases haccepts

/-- The ids of the orders that rest, each once. -/
theorem Good.exists_ids (h : Good b A) :
    ∃ ids : List OrderId, ids.Nodup ∧ (∀ id, id ∈ ids ↔ A.Rests id) ∧
      ids.length = b.openOrders := by
  have hid : ∀ p ∈ b.linkedSlots, ∃ s i, ∃ r ∈ A s i,
      r.slot = p ∧ (b.slab.storage p).value.orderId = r.id := by
    intro p hp
    obtain ⟨s, i, hmem⟩ := h.core.live_iff.mp (h.core.mem_linkedSlots.mp hp)
    obtain ⟨r, hr, rfl⟩ := h.core.mem_slots.mp hmem
    exact ⟨s, i, r, hr, rfl, (h.core.placed s i r hr).orderId_eq⟩
  refine ⟨b.linkedSlots.map fun p => (b.slab.storage p).value.orderId, ?_, fun id => ?_, ?_⟩
  · -- different slots hold orders with different ids
    refine List.Nodup.map_on (fun p hp q hq heq => ?_) h.core.linkedSlots_nodup
    obtain ⟨s, i, r, hr, rfl, hrid⟩ := hid p hp
    obtain ⟨t, j, r', hr', rfl, hrid'⟩ := hid q hq
    rw [hrid, hrid'] at heq
    exact congrArg Resting.slot (h.unique hr hr' heq).2.2
  · rw [List.mem_map]
    constructor
    · rintro ⟨p, hp, rfl⟩
      obtain ⟨s, i, r, hr, -, hrid⟩ := hid p hp
      exact ⟨s, i, r, hr, hrid.symm⟩
    · rintro ⟨s, i, r, hr, rfl⟩
      have hplaced := h.core.placed s i r hr
      exact ⟨r.slot, h.core.mem_linkedSlots.mpr hplaced.live, hplaced.orderId_eq⟩
  · rw [List.length_map, h.core.openOrders_eq]

/-- No more orders rest than there are ids to rest under. -/
theorem Good.openOrders_le (h : Good b A) {ids : List OrderId}
    (hids : ∀ id, A.Rests id → id ∈ ids) : b.openOrders ≤ ids.length := by
  obtain ⟨rest, hnodup, hmem, hlen⟩ := h.exists_ids
  rw [← hlen]
  exact (hnodup.subperm fun id hid => hids id ((hmem id).mp hid)).length_le

end OrderBook

end Lob
