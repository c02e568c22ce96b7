import Lob.Equiv.OrderBook.Memory

/-!
# Correctness of the passive operations

`insertResting` appends an order to the queue of its level (`Good.insertResting`) and
`dropOrder`, the common part of `cancel` and `reduce`, takes one out (`Good.dropOrder`); in
between, `removeFromBook` unlinks the order (`Core.removeFromBook`).  `Good.cancel`,
`Good.reduce_drop` and `Good.reduce_shrink` follow, and `Good.cancel_none`, `Good.reduce_none` say
that a call for an id that no order has changes nothing.

An operation that takes an order out keeps `Good` only if the erasure of its id is a good one.
-/

namespace Lob.OrderBook

open SlabAllocator Queues

variable {M : Type} {b : OrderBook M} {A : Queues} {s : Side} {i : ℕ} {r : Resting}
  {xs ys : List Resting}

/-! ### Binding computations -/

theorem bind_ok {α β : Type} {x : Except Fault α} {a : α} (h : x = .ok a)
    (f : α → Except Fault β) : (x >>= f) = f a := by
  rw [h]
  rfl

theorem exists_of_bind {α β : Type} {x : Except Fault α} {f : α → Except Fault β} {c : β}
    (h : x >>= f = .ok c) : ∃ a, x = .ok a ∧ f a = .ok c := by
  cases x with
  | ok a => exact ⟨a, rfl, h⟩
  | error e => cases h

/-! ### Lookups and erasures that return -/

section Returns

variable [IdMap M] {id : OrderId}

theorem find_ok {p : Option Ptr} (h : IdMap.find b.idMap id = some p) : b.find id = .ok p := by
  unfold OrderBook.find
  rw [h]
  rfl

theorem eraseId_ok {done : Bool} {m : M} (h : IdMap.erase b.idMap id = some (done, m)) :
    b.eraseId id = .ok { b with idMap := m } := by
  unfold eraseId
  rw [h]
  rfl

theorem cancel_ok {p : Ptr} {b' : OrderBook M} (hfind : b.find id = .ok (some p))
    (hdrop : b.dropOrder id p = .ok b') : b.cancel id = .ok (true, b') := by
  unfold cancel
  rw [bind_ok hfind]
  exact bind_ok hdrop _

end Returns

/-! ### Removal -/

/-- **`remove_from_book_`**: the order leaves its queue, and the bit of its level is cleared if
the count of the level, in 32 bits, becomes zero. -/
theorem Core.removeFromBook (h : Core b A none) (hi : Index b) (hq : A s i = xs ++ r :: ys) :
    ∃ b', b.removeFromBook r.slot = .ok b' ∧ Core b' (A.set s i (xs ++ ys)) (some r.slot) ∧
      Index b' ∧ b'.cfg = b.cfg ∧ b'.idMap = b.idMap ∧
      ∀ t j, b'.bit t j = true ↔
        b.bit t j = true ∧ ¬(t = s ∧ j = i ∧ (xs ++ ys).length % 2 ^ 32 = 0) := by
  have hr := h.placed s i r (by simp [hq])
  obtain ⟨orders, slab, hunlink, hcore⟩ := h.unlink hq
  set lvl : PriceLevel :=
    { orders, totalQty := (b.level s i).totalQty - r.qty, count := (b.level s i).count - 1 }
    with hlvl
  set b₁ := { b with slab := slab }.setLevel s i lvl with hb₁
  have heq : b.removeFromBook r.slot =
      .ok (if lvl.isEmpty then b₁.vacate s i else b₁) := by
    unfold OrderBook.removeFromBook
    rw [bind_ok (read_eq hr.live), hr.side_eq, hr.levelIdx_eq, hr.quantity_eq, bind_ok hunlink]
    rfl
  have hsame : SameIndex b b₁ := sameIndex_setLevel slab b.idMap s i lvl
  have hindex : Index b₁ := hsame.index hi
  have hempty := hcore.isEmpty_iff s i
  rw [hb₁, level_setLevel_self, set_self] at hempty
  refine ⟨_, heq, ?_⟩
  -- the source tests the count, which is the length up to `2 ^ 32`
  by_cases hz : (xs ++ ys).length % 2 ^ 32 = 0
  · rw [if_pos (hempty.mpr hz), vacate_eq]
    refine ⟨hcore.setIndex _ _ _, vacate_eq (b := b₁) s i ▸ hindex.vacate s i, ?_, ?_,
      fun t j => ?_⟩
    · rw [cfg_setIndex, hsame.cfg_eq]
    · rw [idMap_setIndex, hb₁, idMap_setLevel]
    · rw [hsame.bit_cleared, and_iff_left hz]
  · rw [if_neg fun he => hz (hempty.mp he)]
    refine ⟨hcore, hindex, hsame.cfg_eq, ?_, fun t j => ?_⟩
    · rw [hb₁, idMap_setLevel]
    · rw [hsame.bit_eq]
      exact ⟨fun hset => ⟨hset, fun hcon => hz hcon.2.2⟩, And.left⟩

/-- The quantities stay positive when the orders of one queue are kept or replaced by positive
ones. -/
theorem positive_set (h : ∀ s i, ∀ r ∈ A s i, 0 < r.size) {q : List Resting}
    (hq : ∀ r ∈ q, 0 < r.size) : ∀ t j, ∀ r ∈ A.set s i q t j, 0 < r.size := by
  apply set_forall (P := fun _ _ q => ∀ r ∈ q, 0 < r.size) hq
  exact fun t j _ => h t j

section Drops

variable [IdMap M] [IndexedBy M]

/-- **Dropping an order**, as `cancel` and `reduce` do. -/
theorem Good.dropOrder (h : Good b A) (hq : A s i = xs ++ r :: ys) :
    ∃ b', b.dropOrder r.id r.slot = .ok b' ∧ b'.cfg = b.cfg ∧
      IdMap.erase b.idMap r.id = some (true, b'.idMap) ∧
      (∀ t j, b'.bit t j = true ↔
        b.bit t j = true ∧ ¬(t = s ∧ j = i ∧ (xs ++ ys).length % 2 ^ 32 = 0)) ∧
      (IndexedBy.EraseOk b.idMap r.id → Good b' (A.set s i (xs ++ ys))) := by
  obtain ⟨b₁, hremove, hcore, hindex, hcfg, hmap, hbit⟩ := h.core.removeFromBook h.index hq
  obtain ⟨m', herase, hindexed⟩ := h.indexed.erase h.core.distinct hq
  -- the index is left alone by the removal
  have heraseId : b₁.eraseId r.id = .ok { b₁ with idMap := m' } := eraseId_ok (hmap ▸ herase)
  obtain ⟨hdealloc, hcore₂⟩ := (hcore.setIdMap m').deallocate
  set b₂ : OrderBook M := { b₁ with idMap := m', slab := b₁.slab.returned r.slot } with hb₂
  have hsame : SameIndex b₁ b₂ := sameIndex_remap (b₁.slab.returned r.slot) m'
  have hbit₂ : ∀ t j, b₂.bit t j = true ↔
      b.bit t j = true ∧ ¬(t = s ∧ j = i ∧ (xs ++ ys).length % 2 ^ 32 = 0) := fun t j => by
    rw [hsame.bit_eq, hbit]
  refine ⟨b₂, ?_, hcfg, herase, hbit₂, fun hok => ⟨hcore₂, ?_, hsame.index hindex, ?_, ?_⟩⟩
  · unfold OrderBook.dropOrder
    rw [bind_ok hremove, bind_ok heraseId]
    exact hdealloc
  · apply positive_set h.positive
    exact fun r' hr' => h.positive s i r' ((mem_split hq).mpr (Or.inr hr'))
  · apply h.backed.set
    · -- the bit of a level without orders has been cleared
      intro hb hnil
      exact ((hbit₂ s i).mp hb).2 ⟨rfl, rfl, by rw [hnil]; rfl⟩
    · exact fun t j _ hb => ((hbit₂ t j).mp hb).1
  · show Indexed b₁.cfg.maxOrders m' _
    rw [hcfg]
    exact hindexed hok

/-! ### `cancel` and `reduce` -/

theorem binds_of_split (hq : A s i = xs ++ r :: ys) : A.Binds r.id r.slot :=
  ⟨s, i, r, by simp [hq], rfl, rfl⟩

theorem Good.find_some (h : Good b A) (hq : A s i = xs ++ r :: ys) :
    b.find r.id = .ok (some r.slot) :=
  find_ok (h.indexed.find_some (binds_of_split hq))

theorem Good.find_none (h : Good b A) {id : OrderId} (hok : IndexedBy.FindOk b.idMap id)
    (hr : ¬A.Rests id) : b.find id = .ok none :=
  find_ok (h.indexed.find_none hok hr)

theorem Good.cancel_eq (h : Good b A) (hq : A s i = xs ++ r :: ys) {b' : OrderBook M}
    (hdrop : b.dropOrder r.id r.slot = .ok b') : b.cancel r.id = .ok (true, b') :=
  cancel_ok (h.find_some hq) hdrop

theorem Good.cancel_none (h : Good b A) {id : OrderId} (hok : IndexedBy.FindOk b.idMap id)
    (hr : ¬A.Rests id) : b.cancel id = .ok (false, b) := by
  unfold cancel
  rw [bind_ok (h.find_none hok hr)]
  rfl

theorem Good.read_eq (h : Good b A) (hq : A s i = xs ++ r :: ys) :
    b.slab.read r.slot = .ok (b.slab.storage r.slot).value :=
  SlabAllocator.read_eq (h.core.placed s i r (by simp [hq])).live

theorem Good.reduce_none (h : Good b A) {id : OrderId} (hok : IndexedBy.FindOk b.idMap id)
    (hr : ¬A.Rests id) (delta : Quantity) : b.reduce id delta = .ok (false, b) := by
  unfold reduce
  rw [bind_ok (h.find_none hok hr)]
  rfl

/-- A reduction by the whole quantity or more drops the order. -/
theorem Good.reduce_drop (h : Good b A) (hq : A s i = xs ++ r :: ys) {delta : Quantity}
    (hdelta : r.qty ≤ delta) {b' : OrderBook M} (hdrop : b.dropOrder r.id r.slot = .ok b') :
    b.reduce r.id delta = .ok (true, b') := by
  have hqty := (h.core.placed s i r (by simp [hq])).quantity_eq
  unfold reduce
  rw [bind_ok (h.find_some hq)]
  dsimp only
  rw [bind_ok (h.read_eq hq), if_pos (by rw [hqty]; exact hdelta)]
  exact bind_ok hdrop _

/-- **Shrinking an order in place**, as `reduce` and `modify` do. -/
theorem Good.shrinkOrder (h : Good b A) (hq : A s i = xs ++ r :: ys) {qty delta : Quantity}
    (hqty : qty.toNat + delta.toNat = r.size) (hpos : 0 < qty.toNat) :
    ∃ b', b.shrinkOrder r.slot (b.slab.storage r.slot).value qty delta = .ok b' ∧
      SameIndex b b' ∧ b'.idMap = b.idMap ∧
      Good b' (A.set s i (xs ++ { r with qty := qty } :: ys)) := by
  have hr := h.core.placed s i r (by simp [hq])
  obtain ⟨slab, hwrite, hcore⟩ := h.core.resize hq qty delta hqty
  set b' := { b with slab := slab }.setLevel s i
    { b.level s i with totalQty := (b.level s i).totalQty - delta } with hb'
  have hsame : SameIndex b b' := sameIndex_setLevel slab b.idMap s i _
  have hmap : b'.idMap = b.idMap := by rw [hb', idMap_setLevel]
  refine ⟨b', ?_, hsame, hmap, hcore, ?_, hsame.index h.index, ?_, ?_⟩
  · unfold OrderBook.shrinkOrder
    rw [bind_ok hwrite, hr.side_eq, hr.levelIdx_eq]
    rfl
  · apply positive_set h.positive
    intro r' hr'
    rcases List.mem_cons.mp (List.perm_middle.mem_iff.mp hr') with rfl | hr'
    · exact hpos
    · exact h.positive s i r' ((mem_split hq).mpr (Or.inr hr'))
  · apply h.backed.set
    · simp
    · exact fun t j _ hb => by rwa [hsame.bit_eq] at hb
  · rw [hsame.cfg_eq, hmap]
    exact h.indexed.congr fun id p => binds_replace { r with qty := qty } hq rfl rfl

/-- A smaller reduction shrinks the order. -/
theorem Good.reduce_shrink (h : Good b A) (hq : A s i = xs ++ r :: ys) {delta : Quantity}
    (hdelta : delta < r.qty) {b' : OrderBook M}
    (hshrink : b.shrinkOrder r.slot (b.slab.storage r.slot).value (r.qty - delta) delta =
      .ok b') : b.reduce r.id delta = .ok (true, b') := by
  have hqty := (h.core.placed s i r (by simp [hq])).quantity_eq
  unfold reduce
  rw [bind_ok (h.find_some hq)]
  dsimp only
  rw [bind_ok (h.read_eq hq), if_neg (by rw [hqty]; exact UInt32.not_le.mpr hdelta), hqty]
  exact bind_ok hshrink _

end Drops

/-! ### `insertResting` -/

theorem Core.openOrders_le (h : Core b A none) : b.openOrders ≤ b.cfg.maxOrders := by
  obtain ⟨fl, hfl⟩ := h.free
  have := hfl.inUse_add
  rw [h.capacity_eq] at this
  unfold openOrders
  omega

/-- The slab has a free slot exactly if fewer than `maxOrders` orders rest. -/
theorem Core.freeList_cons (h : Core b A none) (hroom : b.openOrders < b.cfg.maxOrders) :
    ∃ p fl, FreeList b.slab (p :: fl) := by
  obtain ⟨fl, hfl⟩ := h.free
  have hlen := hfl.inUse_add
  rw [h.capacity_eq] at hlen
  unfold openOrders at hroom
  cases fl with
  | nil =>
    rw [List.length_nil] at hlen
    omega
  | cons p fl => exact ⟨p, fl, hfl⟩

/-- A free slot leaves room in the index: the bound ids have slots of their own. -/
theorem Core.room (h : Core b A none) {p : Ptr} (hp : p < b.slab.capacity)
    (hfree : (b.slab.storage p).live = false) {ids : List OrderId} (hnd : ids.Nodup)
    (hids : ∀ id ∈ ids, A.Rests id) : ids.length < b.cfg.maxOrders := by
  have hslot : ∀ id, ∃ q, A.Rests id → A.Binds id q := fun id => by
    by_cases hr : A.Rests id
    · obtain ⟨q, hq⟩ := rests_iff.mp hr
      exact ⟨q, fun _ => hq⟩
    · exact ⟨0, fun h => absurd h hr⟩
  -- every bound id has a slot, and the free one is not among them
  choose g hg using hslot
  have hinj : ∀ id ∈ ids, ∀ id' ∈ ids, g id = g id' → id = id' := by
    intro id hid id' hid' heq
    obtain ⟨s, i, r, hr, hrid, hrp⟩ := hg id (hids id hid)
    obtain ⟨s', i', r', hr', hrid', hrp'⟩ := hg id' (hids id' hid')
    have hslot : r.slot = r'.slot := by rw [hrp, hrp', heq]
    rw [← hrid, ← hrid', (h.distinct.unique hr hr' hslot).2.2]
  have hnd' : (p :: ids.map g).Nodup := by
    refine List.nodup_cons.mpr ⟨fun hmem => ?_, List.Nodup.map_on hinj hnd⟩
    obtain ⟨id, hid, rfl⟩ := List.mem_map.mp hmem
    exact h.not_binds_of_free hfree id (hg id (hids id hid))
  have hsub : p :: ids.map g ⊆ List.range b.slab.capacity := by
    intro q hq
    rw [List.mem_range]
    rcases List.mem_cons.mp hq with rfl | hq
    · exact hp
    · obtain ⟨id, hid, rfl⟩ := List.mem_map.mp hq
      obtain ⟨s, i, r, hr, -, hrp⟩ := hg id (hids id hid)
      rw [← hrp]
      exact h.slot_lt hr
  have hle := (hnd'.subperm hsub).length_le
  rw [List.length_cons, List.length_map, List.length_range, h.capacity_eq] at hle
  omega

/-- The bit of a level is set if the condition `e` holds. -/
theorem Core.occupyIf (h : Core b A none) (hindex : Index b) (s : Side) (hi : i < b.cfg.numLevels)
    (e : Bool) :
    (if e then b.occupy s i else b).cfg = b.cfg ∧
      (if e then b.occupy s i else b).idMap = b.idMap ∧
      Core (if e then b.occupy s i else b) A none ∧ Index (if e then b.occupy s i else b) ∧
      ∀ t j, (if e then b.occupy s i else b).bit t j = true ↔
        b.bit t j = true ∨ (t = s ∧ j = i ∧ e = true) := by
  cases e with
  | true =>
    obtain ⟨best, hocc, -⟩ := b.occupy_eq s i
    refine ⟨?_, ?_, ?_, hindex.occupy s hi, fun t j => ?_⟩
    · rw [if_pos rfl, hocc, cfg_setIndex]
    · rw [if_pos rfl, hocc, idMap_setIndex]
    · rw [if_pos rfl, hocc]
      exact h.setIndex _ _ _
    · rw [if_pos rfl, bit_occupy, and_iff_left rfl]
  | false => exact ⟨rfl, rfl, h, hindex, fun t j => by simp⟩

variable [IdMap M]

/-- A full slab has no slot for another order. -/
theorem Core.insertResting_full (h : Core b A none) (hfull : b.openOrders = b.cfg.maxOrders)
    (id : OrderId) (side : Side) (price : Price) (qty : Quantity) :
    b.insertResting id side price qty = .error .slabExhausted := by
  obtain ⟨fl, hfl⟩ := h.free
  have hlen := hfl.inUse_add
  rw [h.capacity_eq, ← hfull, openOrders] at hlen
  obtain rfl : fl = [] := List.length_eq_zero_iff.mp (by omega)
  unfold OrderBook.insertResting
  rw [hfl.allocate_nil]
  rfl

/-- **`insert_resting_`**: the order goes to the end of the queue of its level.  The bit of the
level is set if its count, in 32 bits, was zero. -/
theorem Good.insertResting [IndexedBy M] (h : Good b A) (hroom : b.openOrders < b.cfg.maxOrders)
    {id : OrderId} {price : Price} {qty : Quantity} (hid : id ≠ kInvalidOrderId)
    (hnew : ¬A.Rests id) (hprice : b.inRange price = true) (hqty : 0 < qty.toNat)
    (hi : (b.priceToIdx price).toNat = i) :
    ∃ b' p, b.insertResting id s price qty = .ok b' ∧ b'.cfg = b.cfg ∧
      (∀ t j, b'.bit t j = true ↔
        b.bit t j = true ∨ (t = s ∧ j = i ∧ (A s i).length % 2 ^ 32 = 0)) ∧
      Good b' (A.set s i (A s i ++ [⟨p, id, price, qty⟩])) := by
  obtain ⟨p, fl, hfl⟩ := h.core.freeList_cons hroom
  obtain ⟨hplt, hpfree⟩ := (hfl.mem_iff p).mp (by simp)
  obtain ⟨k, hk, hsmall, hkprice, hkidx, -⟩ := inRange_spec hprice
  obtain rfl : k = i := hkidx.symm.trans hi
  set o : Order :=
    { prev := none, next := none, orderId := id, quantity := qty, price := price,
      levelIdx := b.priceToIdx price, side := s } with ho
  obtain ⟨halloc, hwrite, hlive, hcore⟩ := h.core.take hfl o
  set r : Resting := ⟨p, id, price, qty⟩ with hrdef
  set b₁ : OrderBook M := { b with slab := (b.slab.taken p).put p o } with hb₁
  have hplaced : Placed b₁.cfg (b₁.slab.storage r.slot) s k r := by
    refine ⟨hlive, ?_, ?_, ?_, ?_, ?_, hkprice, hk, hsmall⟩ <;> rw [hb₁, put_storage_self]
    exact hi
  obtain ⟨orders, slab, hpush, hcore₂⟩ := hcore.append hplaced
  set lvl : PriceLevel :=
    { orders, totalQty := (b₁.level s k).totalQty + r.qty, count := (b₁.level s k).count + 1 }
    with hlvl
  set b₂ := { b₁ with slab := slab }.setLevel s k lvl with hb₂
  -- a free slot means that the index has room
  obtain ⟨m', hins, hindexed⟩ := h.indexed.insert (s := s) (i := k) (r := r) hid hnew
    fun ids hnd hids => h.core.room hplt hpfree hnd hids
  have hempty := h.core.isEmpty_iff s k
  have hsame₂ : SameIndex b b₂ := sameIndex_setLevel slab b.idMap s k lvl
  set b₃ := if (b.level s k).isEmpty then b₂.occupy s k else b₂ with hb₃
  -- the bit is set when the level was empty
  obtain ⟨hcfg₃, hmap₃, hcore₃, hindex₃, hbit₃⟩ :=
    hcore₂.occupyIf (hsame₂.index h.index) s (hsame₂.cfg_eq ▸ hk) (b.level s k).isEmpty
  have hcfg : b₃.cfg = b.cfg := hcfg₃.trans hsame₂.cfg_eq
  have hmap : b₃.idMap = b.idMap := by rw [hmap₃, hb₂, idMap_setLevel]
  have hbit : ∀ t j, b₃.bit t j = true ↔
      b.bit t j = true ∨ (t = s ∧ j = k ∧ (A s k).length % 2 ^ 32 = 0) := fun t j => by
    rw [hbit₃, hsame₂.bit_eq, hempty]
  have hsame : SameIndex b₃ { b₃ with idMap := m' } := sameIndex_remap b₃.slab m'
  refine ⟨{ b₃ with idMap := m' }, p, ?_, hcfg, fun t j => ?_, hcore₃.setIdMap m', ?_,
    hsame.index hindex₃, ?_, ?_⟩
  · unfold OrderBook.insertResting
    rw [halloc]
    dsimp only
    rw [bind_ok hwrite, hi]
    refine (bind_ok hpush _).trans ?_
    show (orHang (IdMap.insert b₃.idMap id p) >>= _) = _
    rw [hmap, hins]
    rfl
  · rw [hsame.bit_eq, hbit]
  · apply positive_set h.positive
    intro r' hr'
    rcases List.mem_append.mp hr' with hr' | hr'
    · exact h.positive s k r' hr'
    · rw [List.mem_singleton.mp hr']
      exact hqty
  · apply h.backed.set
    · simp
    · intro t j hne hb
      rw [hsame.bit_eq, hbit] at hb
      exact hb.resolve_right fun hcon => hne hcon.1 hcon.2.1
  · show Indexed b₃.cfg.maxOrders m' _
    rw [hcfg]
    exact hindexed

end Lob.OrderBook
