import Lob.Equiv.OrderBook.IdIndex

/-!
# Who owns the slots of the slab

A slot of the slab is on the free list or linked on a level, once and never both, and the id index
holds pointers to linked slots only (`SlotsOwned`).  This is so after every run whose calls are
`Safe`, and none of these calls touches a slot that is free (`Run.slotsOwned`).  An unsafe call
does (`cancel_invalid_after_free`).
-/

namespace Lob.OrderBook

open Queues SlabAllocator Links

/-- **Slot ownership.** -/
structure SlotsOwned (b : OrderBook (OrderIdMap Ptr)) : Prop where
  /-- The free list, and what is not on it. -/
  free : ∃ fl, Chain (fun p => (b.slab.storage p).next) b.slab.freeHead fl ∧ fl.Nodup ∧
    ∀ p, p ∈ fl ↔ p < b.slab.capacity ∧ ¬∃ s i, p ∈ b.slots s i
  linked : ∀ s i, (b.level s i).orders.Linked b.slab (b.slots s i)
  once : ∀ s i t j p, p ∈ b.slots s i → p ∈ b.slots t j → s = t ∧ i = j
  within : ∀ s i, ∀ p ∈ b.slots s i, p < b.slab.capacity
  /-- The pointers in the slots of the table that are in use. -/
  indexed : ∀ k < b.idMap.capacity, (b.idMap.slots k).id ≠ kInvalidOrderId →
    ∃ p s i, (b.idMap.slots k).value = some p ∧ p ∈ b.slots s i

section Good

variable {M : Type} {b : OrderBook M} {A : Queues} {p : Ptr}

theorem Core.mem_slots {s : Side} {i : ℕ} (h : Core b A none) :
    p ∈ b.slots s i ↔ ∃ r ∈ A s i, r.slot = p := by
  rw [h.slots_eq, List.mem_map]

/-- A slot is handed out exactly if it is linked. -/
theorem Core.live_iff (h : Core b A none) :
    (b.slab.storage p).live = true ↔ ∃ s i, p ∈ b.slots s i := by
  constructor
  · intro hlive
    obtain ⟨id, s, i, r, hr, -, rfl⟩ := (h.owned p hlive).resolve_left nofun
    exact ⟨s, i, h.mem_slots.mpr ⟨r, hr, rfl⟩⟩
  · rintro ⟨s, i, hp⟩
    obtain ⟨r, hr, rfl⟩ := h.mem_slots.mp hp
    exact (h.placed s i r hr).live

end Good

theorem Good.owns_slots {b : OrderBook (OrderIdMap Ptr)} (h : Good b b.queue) : SlotsOwned b := by
  constructor
  · obtain ⟨fl, hfl⟩ := h.core.free
    refine ⟨fl, hfl.chain, hfl.nodup, fun p => ?_⟩
    rw [hfl.mem_iff, ← h.core.live_iff, Bool.not_eq_true]
  · exact h.index_coherent.linked
  · intro s i t j p hp hp'
    obtain ⟨r, hr, hslot⟩ := h.core.mem_slots.mp hp
    obtain ⟨r', hr', hslot'⟩ := h.core.mem_slots.mp hp'
    obtain ⟨hs, hi, -⟩ := h.core.distinct.unique hr hr' (hslot.trans hslot'.symm)
    exact ⟨hs, hi⟩
  · intro s i p hp
    obtain ⟨fl, hfl⟩ := h.core.free
    exact hfl.live_lt p (h.core.live_iff.mpr ⟨s, i, hp⟩)
  · intro k hk hid
    obtain ⟨f, ⟨hrep, -⟩, hf⟩ := h.indexed
    have hentry : b.idMap.entry k = some ((b.idMap.slots k).id, (b.idMap.slots k).value) :=
      OrderIdMap.entry_eq_some_iff.mpr ⟨hid, rfl⟩
    -- an entry of the table is a binding, and a binding is that of a linked order
    have hbound := (hrep.holds _ _).mp ⟨k, trivial, hk, hentry⟩
    obtain ⟨p, hp, hvalue⟩ := Option.map_eq_some_iff.mp hbound
    obtain ⟨s, i, r, hr, -, hslot⟩ := (hf _ p).mp hp
    exact ⟨p, s, i, hvalue.symm, h.core.mem_slots.mpr ⟨r, hr, hslot⟩⟩

/-- **Slot ownership over runs.**  After every run whose calls are safe the slots are owned, and
a safe call fails in no other way than by running out of slots. -/
theorem Run.slotsOwned {cfg : Config} {b : OrderBook (OrderIdMap Ptr)}
    (h : Run (fun b c => Safe b b.queue c) cfg b) :
    SlotsOwned b ∧ ∀ c trades e trades', Safe b b.queue c →
      (b.exec c).run trades = .error e trades' → e = .slabExhausted := by
  have hgood := h.good_queue
  refine ⟨hgood.owns_slots, fun c trades e trades' hsafe hexec => ?_⟩
  have hs := hgood.exec hsafe trades
  rw [hexec] at hs
  exact hs.fault

theorem slotReused_slotsOwned :
    SlotsOwned slotReused ∧ ∀ c trades e trades', Safe slotReused slotReused.queue c →
      (slotReused.exec c).run trades = .error e trades' → e = .slabExhausted :=
  slotReused_run.slotsOwned

/-- After the only order is cancelled, a `cancel` of `kInvalidOrderId` finds the pointer that the
order has left in the table, and reads the free slot. -/
theorem cancel_invalid_after_free :
    ¬∀ (cfg : Config) (b : OrderBook (OrderIdMap Ptr)), Reachable cfg b →
      SlotsOwned b ∧ ∀ c trades e trades', (b.exec c).run trades = .error e trades' →
        e = .slabExhausted := by
  intro hall
  have hrun : Reachable smallConfig (oneBid.after (.cancel 3)) :=
    (oneBid_run.mono fun _ _ _ => trivial).after trivial (by decide)
  have hexec : ((oneBid.after (.cancel 3)).exec (.cancel kInvalidOrderId)).run [] =
    .error .useAfterFree [] := by rfl
  cases (hall _ _ hrun).2 _ _ _ _ hexec

end Lob.OrderBook
