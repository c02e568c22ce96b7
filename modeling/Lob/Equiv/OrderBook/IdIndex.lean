import Lob.Equiv.OrderBook.Step

/-!
# The id index over runs

A book whose calls are all `Safe` finds every resting order by its id, and no other order under an
id that is not `kInvalidOrderId` (`Coherent`, `Run.coherent`).  The calls for an id under which no
order rests have no effect (`Inert`) unless the id is `kInvalidOrderId` and the table answers it
with the pointer that an erasure left behind (`Run.inert_iff`).

Both fail after an unsafe call (`strandedBid_not_coherent`, `cancel_invalid_hits_order`).
-/

namespace Lob.OrderBook

open Queues

variable {M : Type} [IdMap M] {b : OrderBook M} {A : Queues} {o : NewOrder}

/-- **The id index is coherent**: the lists of the levels are well linked, no id is on them
twice, and a lookup finds the order that is linked under the id.  Then the calls by id act on
that order. -/
structure Coherent (b : OrderBook M) : Prop where
  linked : ∀ s i, (b.level s i).orders.Linked b.slab (b.slots s i)
  unique : ∀ s i t j, ∀ r ∈ b.queue s i, ∀ r' ∈ b.queue t j, r.id = r'.id →
    s = t ∧ i = j ∧ r = r'
  find_some_iff : ∀ id ≠ kInvalidOrderId, ∀ p, b.find id = .ok (some p) ↔ b.queue.Binds id p
  find_none_iff : ∀ id ≠ kInvalidOrderId, b.find id = .ok none ↔ ¬b.queue.Rests id
  cancel_rests : ∀ id, b.queue.Rests id → ∃ b', b.cancel id = .ok (true, b')
  cancel_gone : ∀ id ≠ kInvalidOrderId, ¬b.queue.Rests id → b.cancel id = .ok (false, b)
  reduce_rests : ∀ id, b.queue.Rests id → ∀ delta, ∃ b', b.reduce id delta = .ok (true, b')
  modify_in_place : ∀ s i, ∀ r ∈ b.queue s i, ∀ newQty newPrice ts trades,
    r.InPlace newQty newPrice → ∃ b', (b.modify r.id newQty newPrice ts).run trades =
      .ok (b', ⟨.accepted, 0, newQty⟩) trades
  modify_moved : ∀ s i, ∀ r ∈ b.queue s i, ∀ newQty newPrice ts trades,
    ¬r.InPlace newQty newPrice → ∃ b', b.cancel r.id = .ok (true, b') ∧
      (b.modify r.id newQty newPrice ts).run trades =
        (b'.submitOrder (r.replacement s newQty newPrice ts)).run trades
  submit_rests : ∀ o, b.queue.Rests o.id → ∀ trades,
    (b.submitOrder o).run trades = .ok (b, ⟨.rejected, 0, 0⟩) trades

section Good

variable [IndexedBy M]

theorem Good.find_some_iff (h : Good b A) {id : OrderId} (hid : id ≠ kInvalidOrderId) {p : Ptr} :
    b.find id = .ok (some p) ↔ A.Binds id p := by
  constructor
  · intro hfind
    by_cases hr : A.Rests id
    · obtain ⟨s, i, r, hr, rfl⟩ := hr
      obtain ⟨xs, ys, hq⟩ := List.append_of_mem hr
      rw [h.find_some hq] at hfind
      -- the pointer is that of the one order with the id
      cases hfind
      exact binds_of_split hq
    · rw [h.find_none (IndexedBy.findOk_of_ne _ hid) hr] at hfind
      cases hfind
  · exact fun hbinds => find_ok (h.indexed.find_some hbinds)

theorem Good.find_none_iff (h : Good b A) {id : OrderId} (hid : id ≠ kInvalidOrderId) :
    b.find id = .ok none ↔ ¬A.Rests id := by
  constructor
  · intro hfind hr
    obtain ⟨p, hp⟩ := rests_iff.mp hr
    rw [(h.find_some_iff hid).mpr hp] at hfind
    cases hfind
  · exact h.find_none (IndexedBy.findOk_of_ne _ hid)

/-- Two orders with the same id are one order. -/
theorem Good.unique (h : Good b A) {s t : Side} {i j : ℕ} {r r' : Resting} (hr : r ∈ A s i)
    (hr' : r' ∈ A t j) (hid : r.id = r'.id) : s = t ∧ i = j ∧ r = r' := by
  have hbinds : A.Binds r.id r.slot := ⟨s, i, r, hr, rfl, rfl⟩
  have hbinds' : A.Binds r.id r'.slot := ⟨t, j, r', hr', hid.symm, rfl⟩
  exact h.core.distinct.unique hr hr' (h.indexed.slot_unique hbinds hbinds')

theorem Good.index_coherent (h : Good b b.queue) : Coherent b := by
  constructor
  · intro s i
    rw [h.core.slots_eq]
    exact h.core.linked s i
  · intro s i t j r hr r' hr' hid
    exact h.unique hr hr' hid
  · intro id hid p
    exact h.find_some_iff hid
  · intro id hid
    exact h.find_none_iff hid
  · intro id hr
    obtain ⟨s, i, r, hr, rfl⟩ := hr
    obtain ⟨xs, ys, hq⟩ := List.append_of_mem hr
    obtain ⟨b', hdrop, -⟩ := h.dropOrder hq
    exact ⟨b', h.cancel_eq hq hdrop⟩
  · intro id hid hr
    exact h.cancel_none (IndexedBy.findOk_of_ne _ hid) hr
  · intro id hr delta
    obtain ⟨s, i, r, hr, rfl⟩ := hr
    obtain ⟨xs, ys, hq⟩ := List.append_of_mem hr
    by_cases hdelta : r.qty ≤ delta
    · obtain ⟨b', hdrop, -⟩ := h.dropOrder hq
      exact ⟨b', h.reduce_drop hq hdelta hdrop⟩
    · obtain ⟨b', hshrink, -⟩ := h.shrink_by hq (UInt32.not_le.mp hdelta)
      exact ⟨b', h.reduce_shrink hq (UInt32.not_le.mp hdelta) hshrink⟩
  · intro s i r hr newQty newPrice ts trades hin
    obtain ⟨xs, ys, hq⟩ := List.append_of_mem hr
    obtain ⟨b', hshrink, -⟩ := h.shrink_to hq hin
    exact ⟨b', h.modify_shrink hq hin hshrink ts trades⟩
  · intro s i r hr newQty newPrice ts trades hin
    obtain ⟨xs, ys, hq⟩ := List.append_of_mem hr
    obtain ⟨b', hdrop, -⟩ := h.dropOrder hq
    exact ⟨b', h.cancel_eq hq hdrop, h.modify_submit hq hin hdrop ts trades⟩
  · intro o hr trades
    exact h.submit_rejects (Or.inr (Or.inr (Or.inl hr))) trades

end Good

/-! ### The index of the source -/

/-- **Coherence over runs.**  After every run whose calls strand no entry of the table and name
`kInvalidOrderId` only when the table answers it truthfully, the index is coherent. -/
theorem Run.coherent {cfg : Config} {b : OrderBook (OrderIdMap Ptr)}
    (h : Run (fun b c => Safe b b.queue c) cfg b) : Coherent b :=
  h.good_queue.index_coherent

/-- A book with one bid, under the id 3. -/
def oneBid : OrderBook (OrderIdMap Ptr) := (new smallConfig).after (.submit (gtcOrder 3 .buy 0 5))

/-- The bid is cancelled, and its slot goes to an order with the id 2. -/
def slotReused : OrderBook (OrderIdMap Ptr) :=
  (oneBid.after (.cancel 3)).after (.submit (gtcOrder 2 .buy 0 5))

theorem oneBid_run : Run (fun b c => Safe b b.queue c) smallConfig oneBid := by
  refine Run.new.after (safe_submit ?_) (by decide)
  -- nothing is filled, so that nothing is erased
  have hfilled : filledIds (new smallConfig : OrderBook (OrderIdMap Ptr))
    (new smallConfig : OrderBook (OrderIdMap Ptr)).queue (gtcOrder 3 .buy 0 5) = [] := by decide
  rw [hfilled]
  trivial

theorem slotReused_run : Run (fun b c => Safe b b.queue c) smallConfig slotReused := by
  have hspares : oneBid.idMap.Spares 3 := by decide
  have hcancelled := oneBid_run.after (safe_cancel (by decide) hspares) (by decide)
  refine hcancelled.after (safe_submit ?_) (by decide)
  have hfilled : (oneBid.after (.cancel 3)).filledIds (oneBid.after (.cancel 3)).queue
    (gtcOrder 2 .buy 0 5) = [] := by decide
  rw [hfilled]
  trivial

theorem slotReused_coherent : Coherent slotReused := slotReused_run.coherent

/-- The ids 3 and 8 hash to slot 0 of the table and 10 to slot 1, so that 8 comes to lie in slot
2, behind 10.  The erasure of 3 stops at 10. -/
def strandedBid : OrderBook (OrderIdMap Ptr) :=
  ((oneBid.after (.submit (gtcOrder 10 .buy 0 5))).after (.submit (gtcOrder 8 .buy 0 5))).after
    (.cancel 3)

/-- The order with the id 8 rests, but its id is not found. -/
theorem strandedBid_not_coherent :
    ¬∀ (cfg : Config) (b : OrderBook (OrderIdMap Ptr)), Reachable cfg b → Coherent b := by
  intro hall
  have hrun : Reachable smallConfig strandedBid :=
    (((oneBid_run.mono fun _ _ _ => trivial).after trivial (by decide)).after trivial
      (by decide)).after trivial (by decide)
  have hrests : strandedBid.queue.Rests 8 := ⟨.buy, 0, ⟨2, 8, 0, 5⟩, by decide, rfl⟩
  have hfind : strandedBid.find 8 = .ok none := by decide
  exact ((hall _ _ hrun).find_none_iff 8 (by decide)).mp hfind hrests

/-! ### Calls for an id under which no order rests -/

/-- The calls for the id find nothing and leave the book as it is. -/
structure Inert (b : OrderBook M) (id : OrderId) : Prop where
  find_eq : b.find id = .ok none
  cancel_eq : b.cancel id = .ok (false, b)
  reduce_eq : ∀ delta, b.reduce id delta = .ok (false, b)
  modify_eq : ∀ newQty newPrice ts trades,
    (b.modify id newQty newPrice ts).run trades = .ok (b, ⟨.rejected, 0, 0⟩) trades

theorem Good.inert [IndexedBy M] (h : Good b A) {id : OrderId}
    (hok : IndexedBy.FindOk b.idMap id) (hr : ¬A.Rests id) : Inert b id where
  find_eq := h.find_none hok hr
  cancel_eq := h.cancel_none hok hr
  reduce_eq := h.reduce_none hok hr
  modify_eq := h.modify_none hok hr

/-- **Calls that name no resting order**, after every run whose calls are safe, have no effect if
and only if the id is not `kInvalidOrderId` or the slot of the table at which the probe for
`kInvalidOrderId` stops has never been in use. -/
theorem Run.inert_iff {cfg : Config} {b : OrderBook (OrderIdMap Ptr)} {id : OrderId}
    (h : Run (fun b c => Safe b b.queue c) cfg b) (hr : ¬b.queue.Rests id) :
    Inert b id ↔ id ≠ kInvalidOrderId ∨ b.idMap.InvalidClean := by
  have hgood := h.good_queue
  constructor
  · intro hinert
    refine or_iff_not_imp_left.mpr fun hid => ?_
    obtain rfl := not_not.mp hid
    -- the lookup of `kInvalidOrderId` answers with the pointer of the first empty slot
    obtain ⟨f, ⟨hrep, -⟩, -⟩ := hgood.indexed
    refine hrep.find_invalid_iff.mp ?_
    have hfind := hinert.find_eq
    unfold OrderBook.find orHang at hfind
    split at hfind
    · next heq =>
      cases hfind
      exact heq
    · cases hfind
  · exact fun hok => hgood.inert hok hr

theorem slotReused_inert_iff :
    Inert slotReused 3 ↔ (3 : OrderId) ≠ kInvalidOrderId ∨ slotReused.idMap.InvalidClean :=
  slotReused_run.inert_iff <|
    (slotReused_run.good_queue.find_none_iff (by decide)).mp (by decide)

/-- The id `kInvalidOrderId` matches the slot that the id 3 has left, with the pointer in it, and
the order with the id 2, which is there now, is cancelled. -/
theorem cancel_invalid_hits_order :
    ¬∀ (cfg : Config) (b : OrderBook (OrderIdMap Ptr)), Reachable cfg b →
      ∀ id, ¬b.queue.Rests id → Inert b id := by
  intro hall
  have hgood := slotReused_run.good_queue
  have hr : ¬slotReused.queue.Rests kInvalidOrderId := fun hr => by
    obtain ⟨p, hp⟩ := rests_iff.mp hr
    exact hgood.indexed.ne_invalid hp rfl
  have hinert := hall _ _ (slotReused_run.mono fun _ _ _ => trivial) _ hr
  have hcancel : (slotReused.cancel kInvalidOrderId).map Prod.fst = .ok true := by decide
  rw [hinert.cancel_eq] at hcancel
  cases hcancel

end Lob.OrderBook
