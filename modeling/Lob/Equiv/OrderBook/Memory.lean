import Lob.Equiv.OrderBook.Invariant

/-!
# The memory of the book

What the steps of the operations do to the queues: an order is given a slot (`Core.take`) and put
at the end of a queue (`Core.append`), leaves its queue (`Core.unlink`), changes its quantity
(`Core.resize`), and its slot is given back (`Core.deallocate`).  Between leaving its queue and
giving back its slot, and between getting the slot and joining the queue, the slot is loose.
-/

namespace Lob.OrderBook

open SlabAllocator Queues

variable {M : Type} {b : OrderBook M} {A : Queues} {loose : Option Ptr}

/-! ### Taking and giving back a slot -/

theorem Core.not_binds_of_free (h : Core b A loose) {p : Ptr}
    (hp : (b.slab.storage p).live = false) (id : OrderId) : ¬A.Binds id p := by
  rintro ⟨s, i, r, hr, -, rfl⟩
  rw [(h.placed s i r hr).live] at hp
  cases hp

/-- `allocate`, and the assignments to the new order. -/
theorem Core.take (h : Core b A none) {p : Ptr} {fl : List Ptr} (hfl : FreeList b.slab (p :: fl))
    (o : Order) :
    b.slab.allocate = (some p, b.slab.taken p) ∧
      (b.slab.taken p).write p (fun _ => o) = .ok ((b.slab.taken p).put p o) ∧
      (((b.slab.taken p).put p o).storage p).live = true ∧
      Core { b with slab := (b.slab.taken p).put p o } A (some p) := by
  obtain ⟨halloc, hfl', hfree⟩ := hfl.allocate_cons
  have hlive : ((b.slab.taken p).storage p).live = true := by rw [taken_storage_self]
  have hlive' : (((b.slab.taken p).put p o).storage p).live = true := by rw [live_put, hlive]
  refine ⟨halloc, write_eq hlive _, hlive', h.reslab rfl
    ⟨fl, hfl'.rewritten (put_rewritten hlive o)⟩ (h.not_binds_of_free hfree) ?_ ?_ ?_⟩
  · intro q hq
    rw [put_storage_of_ne o hq, taken_storage_of_ne hq]
  · intro q hq
    rcases eq_or_ne q p with rfl | hne
    · exact Or.inl rfl
    · rw [live_put, taken_storage_of_ne hne] at hq
      exact (h.owned q hq).imp_left fun hnone => absurd hnone (by simp)
  · intro q hq
    obtain rfl := Option.some.inj hq
    exact ⟨rfl, hlive'⟩

/-- `deallocate` of the loose slot. -/
theorem Core.deallocate {p : Ptr} (h : Core b A (some p)) :
    b.deallocate p = .ok { b with slab := b.slab.returned p } ∧
      Core { b with slab := b.slab.returned p } A none := by
  obtain ⟨fl, hfl⟩ := h.free
  obtain ⟨hdealloc, hfl'⟩ := hfl.deallocate (h.loose_live p rfl)
  refine ⟨?_, h.reslab rfl ⟨_, hfl'⟩ (h.loose_free p rfl) (fun q hq => returned_storage_of_ne hq)
    ?_ (by simp)⟩
  · unfold OrderBook.deallocate
    rw [hdealloc]
    rfl
  · -- the slot that is given back is handed out no more
    intro q hq
    rcases eq_or_ne q p with rfl | hne
    · simp at hq
    · rw [returned_storage_of_ne hne] at hq
      exact (h.owned q hq).imp_left fun heq => absurd (Option.some.inj heq).symm hne

/-! ### Changing the queue of a level -/

section Levels

variable {s : Side} {i : ℕ} {r : Resting} {xs ys : List Resting}

/-- The slots of the other queues are not those of this one. -/
theorem Core.other_slot (h : Core b A loose) {t : Side} {j : ℕ} (hne : t = s → j ≠ i)
    (hr : r ∈ A t j) : r.slot ∉ (A s i).map Resting.slot := by
  intro hmem
  obtain ⟨r', hr', hslot⟩ := List.mem_map.mp hmem
  obtain ⟨rfl, rfl, -⟩ := h.distinct.unique hr' hr hslot
  exact hne rfl rfl

theorem Core.live_of_mem_map (h : Core b A loose) {p : Ptr}
    (hp : p ∈ (A s i).map Resting.slot) : (b.slab.storage p).live = true := by
  obtain ⟨r, hr, rfl⟩ := List.mem_map.mp hp
  exact (h.placed s i r hr).live

theorem toNat_sub_of_add_mod {a c : UInt32} {m n : ℕ} (ha : a.toNat = (m + n) % 2 ^ 32)
    (hc : c.toNat = n) : (a - c).toNat = m % 2 ^ 32 := by
  rw [UInt32.toNat_sub, ha, hc]
  have := c.toNat_lt
  omega

theorem toNat_add_mod {a c : UInt32} {m n : ℕ} (ha : a.toNat = m % 2 ^ 32) (hc : c.toNat = n) :
    (a + c).toNat = (m + n) % 2 ^ 32 := by
  rw [UInt32.toNat_add, ha, hc]
  omega

/-- An order leaves its queue and its slot becomes loose. -/
theorem Core.unlink (h : Core b A none) (hq : A s i = xs ++ r :: ys) :
    ∃ orders slab, (b.level s i).orders.unlink b.slab r.slot = .ok (orders, slab) ∧
      Core ({ b with slab := slab }.setLevel s i
        { orders, totalQty := (b.level s i).totalQty - r.qty, count := (b.level s i).count - 1 })
        (A.set s i (xs ++ ys)) (some r.slot) := by
  have hmem : r ∈ A s i := by simp [hq]
  have hlinked := h.linked s i
  have hlive := fun p => h.live_of_mem_map (s := s) (i := i) (p := p)
  have hother := fun t j (hne : t = s → j ≠ i) r' (hr' : r' ∈ A t j) =>
    h.other_slot hne hr'
  have htotal := h.total_eq s i
  have hcount := h.count_eq s i
  have hplaced := h.placed s i
  rw [hq, List.map_append, List.map_cons] at hlinked hlive hother
  rw [hq, Greedy.total_append, Greedy.total_cons] at htotal
  rw [hq, List.length_append, List.length_cons] at hcount
  obtain ⟨l', slab, hunlink, hlinked', hr⟩ := IntrusiveList.unlink_linked hlinked hlive
  obtain ⟨fl, hfl⟩ := h.free
  refine ⟨l', slab, hunlink, ?_⟩
  apply h.setLevel hr.rewritten.capacity_eq ⟨fl, hfl.rewritten hr.rewritten⟩
  · rwa [List.map_append]
  · intro r' hr'
    exact (hplaced r' ((mem_split hq).mpr (Or.inr hr'))).relinked hr
  · rw [Greedy.total_append]
    rw [Nat.add_left_comm, Nat.add_comm r.size] at htotal
    exact toNat_sub_of_add_mod htotal rfl
  · rw [List.length_append]
    exact toNat_sub_of_add_mod hcount rfl
  · intro t j hne r' hr'
    exact hr.unlinked_eq _ (hother t j hne r' hr')
  · -- the slot is the only one that no queue uses any more
    intro p hp
    rw [hr.rewritten.live_eq] at hp
    rcases h.owned p hp with hnone | ⟨id, hbind⟩
    · cases hnone
    · rcases eq_or_ne p r.slot with rfl | hne
      · exact Or.inl rfl
      · exact Or.inr ⟨id, (h.distinct.binds_remove hq).mpr ⟨hbind, hne⟩⟩
  · intro p hp
    obtain rfl := Option.some.inj hp
    rw [hr.rewritten.live_eq]
    exact (hplaced r hmem).live
  · intro p hp id hbind
    obtain rfl := Option.some.inj hp
    exact ((h.distinct.binds_remove hq).mp hbind).2 rfl

/-- The loose order joins the queue of its level. -/
theorem Core.append (h : Core b A (some r.slot))
    (hr : Placed b.cfg (b.slab.storage r.slot) s i r) :
    ∃ orders slab, (b.level s i).orders.pushBack b.slab r.slot = .ok (orders, slab) ∧
      Core ({ b with slab := slab }.setLevel s i
        { orders, totalQty := (b.level s i).totalQty + r.qty, count := (b.level s i).count + 1 })
        (A.set s i (A s i ++ [r])) none := by
  have hnot : ∀ t j, ∀ r' ∈ A t j, r'.slot ≠ r.slot := fun t j r' hr' heq =>
    h.loose_free _ rfl r'.id ⟨t, j, r', hr', rfl, heq⟩
  have hnode : r.slot ∉ (A s i).map Resting.slot := by
    intro hmem
    obtain ⟨r', hr', heq⟩ := List.mem_map.mp hmem
    exact hnot s i r' hr' heq
  have hlive : ∀ p ∈ (A s i).map Resting.slot ++ [r.slot], (b.slab.storage p).live = true := by
    intro p hp
    rcases List.mem_append.mp hp with hp | hp
    · exact h.live_of_mem_map hp
    · rw [List.mem_singleton.mp hp]
      exact hr.live
  obtain ⟨l', slab, hpush, hlinked', hrel⟩ :=
    IntrusiveList.pushBack_linked (h.linked s i) hnode hlive
  obtain ⟨fl, hfl⟩ := h.free
  refine ⟨l', slab, hpush, ?_⟩
  apply h.setLevel hrel.rewritten.capacity_eq ⟨fl, hfl.rewritten hrel.rewritten⟩
  · rwa [List.map_append]
  · intro r' hr'
    rcases List.mem_append.mp hr' with hr' | hr'
    · exact (h.placed s i r' hr').relinked hrel
    · rw [List.mem_singleton.mp hr']
      exact hr.relinked hrel
  · rw [Greedy.total_append, Greedy.total_cons, Greedy.total_nil, Nat.add_zero]
    exact toNat_add_mod (h.total_eq s i) rfl
  · rw [List.length_append]
    exact toNat_add_mod (h.count_eq s i) rfl
  · intro t j hne r' hr'
    refine hrel.unlinked_eq _ fun hmem => ?_
    rcases List.mem_append.mp hmem with hmem | hmem
    · exact h.other_slot hne hr' hmem
    · exact hnot t j r' hr' (List.mem_singleton.mp hmem)
  · intro p hp
    rw [hrel.rewritten.live_eq] at hp
    -- the slot has found its queue
    right
    rcases h.owned p hp with heq | ⟨id, hbind⟩
    · exact ⟨r.id, binds_set_append.mpr (Or.inr ⟨rfl, Option.some.inj heq⟩)⟩
    · exact ⟨id, binds_set_append.mpr (Or.inl hbind)⟩
  · nofun
  · nofun

/-- An order changes its quantity from `qty + delta` to `qty`. -/
theorem Core.resize (h : Core b A none) (hq : A s i = xs ++ r :: ys) (qty delta : Quantity)
    (hqty : qty.toNat + delta.toNat = r.size) :
    ∃ slab, b.slab.write r.slot (fun o => { o with quantity := qty }) = .ok slab ∧
      Core ({ b with slab := slab }.setLevel s i
        { b.level s i with totalQty := (b.level s i).totalQty - delta })
        (A.set s i (xs ++ { r with qty := qty } :: ys)) none := by
  have hmem : r ∈ A s i := by simp [hq]
  have hr := h.placed s i r hmem
  obtain ⟨fl, hfl⟩ := h.free
  have hcount := h.count_eq s i
  have hlinked := h.linked s i
  have htotal : (b.level s i).totalQty.toNat =
      (Greedy.total Resting.size (xs ++ { r with qty := qty } :: ys) + delta.toNat) % 2 ^ 32 := by
    have hsize : ({ r with qty := qty } : Resting).size = qty.toNat := rfl
    rw [h.total_eq, hq, Greedy.total_append, Greedy.total_cons, Greedy.total_append,
      Greedy.total_cons, hsize, ← hqty]
    congr 1
    omega
  rw [hq, List.length_append, List.length_cons] at hcount
  rw [hq] at hlinked
  -- a write to the quantity leaves the links as they are
  have hlinked' : ∀ o : Order, o.prev = b.slab.prevOf r.slot → o.next = b.slab.nextOf r.slot →
      (b.level s i).orders.Linked (b.slab.put r.slot o)
        ((xs ++ { r with qty := qty } :: ys).map Resting.slot) := by
    intro o hprev hnext
    rw [IntrusiveList.Linked, prevOf_put hprev, nextOf_put hnext]
    simpa using hlinked
  have hset : ∀ id p, (A.set s i (xs ++ { r with qty := qty } :: ys)).Binds id p ↔
      A.Binds id p := fun id p => binds_replace { r with qty := qty } hq rfl rfl
  have hrew := put_rewritten hr.live { (b.slab.storage r.slot).value with quantity := qty }
  refine ⟨_, write_eq hr.live _, ?_⟩
  apply h.setLevel hrew.capacity_eq ⟨fl, hfl.rewritten hrew⟩
  · exact hlinked' _ rfl rfl
  · intro r' hr'
    rw [List.perm_middle.mem_iff, List.mem_cons, h.distinct.mem_removed hq] at hr'
    rcases hr' with rfl | ⟨hr', hne⟩
    · exact ⟨by rw [live_put]; exact hr.live, by rw [put_storage_self]; exact hr.orderId_eq,
        by rw [put_storage_self], by rw [put_storage_self]; exact hr.side_eq,
        by rw [put_storage_self]; exact hr.levelIdx_eq,
        by rw [put_storage_self]; exact hr.price_eq, hr.level_eq, hr.inside, hr.small⟩
    · rw [put_storage_of_ne _ hne]
      exact h.placed s i r' hr'
  · exact toNat_sub_of_add_mod htotal rfl
  · rw [List.length_append, List.length_cons]
    exact hcount
  · intro t j hne r' hr'
    rw [put_storage_of_ne]
    intro heq
    exact h.other_slot hne hr' (heq ▸ List.mem_map_of_mem hmem)
  · intro p hp
    rw [live_put] at hp
    rcases h.owned p hp with hnone | ⟨id, hbind⟩
    · cases hnone
    · exact Or.inr ⟨id, (hset id p).mpr hbind⟩
  · nofun
  · nofun

end Levels

end Lob.OrderBook
