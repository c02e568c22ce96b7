import Lob.Equiv.OrderBook.IdIndex
import Lob.Equiv.OrderBook.Representation

/-!
# `cancel` undoes a `submit`

A limit order that rests without a fill, and is cancelled at once, leaves no trace: the levels, the
bitmaps, the best levels, the ids of the table, its pointers in use and the free list are what they
were (`Intact.cancel_submit`).  The argument goes structure by structure, from
`IntrusiveList.unlink_pushBack`, `Index.vacate_occupy`, `OrderIdMap.Sized.erase_insert` and the
laws of the free list.

The slot of the order and the slot of the table keep what the order has left in them.
-/

namespace Lob.OrderBook

open SlabAllocator IntrusiveList Queues

/-! ### Books, orders and what is restored -/

/-- A book in memory: it is well represented, its orders are in slots that are handed out, and the
free list, the bitmaps and the table are well formed. -/
structure Intact (b : OrderBook (OrderIdMap Ptr)) : Prop where
  represented : Represented b
  live : ∀ s, ∀ i < b.cfg.numLevels, ∀ p ∈ b.slots s i, (b.slab.storage p).live = true
  free : ∃ fl, FreeList b.slab fl
  numWords_eq : ∀ s, (b.bitmap s).numWords = (b.cfg.numLevels + 63) / 64
  sized : b.idMap.Sized

/-- The order is for a new id and rests without a fill. -/
structure Passive (b : OrderBook (OrderIdMap Ptr)) (o : NewOrder) : Prop where
  type_eq : o.type = .limit
  tif_eq : o.tif = .gtc ∨ o.tif = .day ∨ o.tif = .postOnly
  qty_pos : 0 < o.qty
  id_ne : o.id ≠ kInvalidOrderId
  id_new : ∀ i < b.idMap.capacity, (b.idMap.slots i).id ≠ o.id
  in_range : b.inRange o.price = true
  not_crossing : b.wouldCross o.side o.price = false

/-- The book `b'` is `b`, up to what is in slots that are not in use. -/
structure Restored (b b' : OrderBook (OrderIdMap Ptr)) : Prop where
  cfg_eq : b'.cfg = b.cfg
  level_eq : ∀ s i, b'.level s i = b.level s i
  queue_eq : ∀ s, ∀ i < b.cfg.numLevels, b'.queue s i = b.queue s i
  bitmap_eq : ∀ s, b'.bitmap s = b.bitmap s
  bestIdx_eq : ∀ s, b'.bestIdx s = b.bestIdx s
  mask_eq : b'.idMap.mask = b.idMap.mask
  size_eq : b'.idMap.size = b.idMap.size
  id_eq : ∀ i, (b'.idMap.slots i).id = (b.idMap.slots i).id
  pointer_eq : ∀ i, (b.idMap.slots i).id ≠ kInvalidOrderId →
    b'.idMap.slots i = b.idMap.slots i
  live_eq : ∀ p, (b'.slab.storage p).live = (b.slab.storage p).live
  order_eq : ∀ p, (b.slab.storage p).live = true → b'.slab.storage p = b.slab.storage p
  free_eq : ∀ fl, FreeList b.slab fl → FreeList b'.slab fl
  openOrders_eq : b'.openOrders = b.openOrders

variable {b : OrderBook (OrderIdMap Ptr)} {A : Queues} {o : NewOrder}

theorem Intact.index (h : Intact b) : Index b := by
  have hrep := h.represented
  have hlt : ∀ s i, b.bit s i = true → i < b.cfg.numLevels := fun s i hi => by
    by_contra hge
    rw [bit, hrep.bit_past s i (not_lt.mp hge)] at hi
    cases hi
  have hslots : ∀ s i, b.bit s i = true ↔ i < b.cfg.numLevels ∧ b.slots s i ≠ [] :=
    fun s i => ⟨fun hi => ⟨hlt s i hi, (hrep.bit_iff s i (hlt s i hi)).mp hi⟩,
      fun hi => (hrep.bit_iff s i hi.1).mpr hi.2⟩
  refine ⟨fun s => ⟨h.numWords_eq s, hlt s⟩, fun s => ?_⟩
  simp only [hslots]
  cases s with
  | buy =>
    by_cases hno : b.bestBidIdx = kNoBest
    · exact Or.inl ⟨hno, fun i hi => hi.2 (hrep.no_bid_iff.mp hno i hi.1)⟩
    · obtain ⟨hmem, hmax⟩ := hrep.best_bid hno
      exact Or.inr ⟨hmem, fun i hi => not_lt.mpr (hmax hi)⟩
  | sell =>
    by_cases hno : b.bestAskIdx = kNoBest
    · exact Or.inl ⟨hno, fun i hi => hi.2 (hrep.no_ask_iff.mp hno i hi.1)⟩
    · obtain ⟨hmem, hmin⟩ := hrep.best_ask hno
      exact Or.inr ⟨hmem, fun i hi => not_lt.mpr (hmin hi)⟩

/-- The count of a level is zero exactly if its bit is clear. -/
theorem Intact.isEmpty_iff (h : Intact b) {s : Side} {i : ℕ} (hi : i < b.cfg.numLevels) :
    (b.level s i).isEmpty = true ↔ b.bit s i = false := by
  have hcount := h.represented.count_eq s i hi
  have hbit := h.represented.bit_iff s i hi
  rw [PriceLevel.isEmpty, beq_iff_eq, ← Bool.not_eq_true, bit, hbit, not_not,
    ← List.length_eq_zero_iff, ← hcount, ← UInt32.toNat_inj]
  rfl

/-! ### The two steps -/

section Steps

variable {M : Type} {b b' : OrderBook M} {s : Side} {i : ℕ} {slab : SlabAllocator}
  {l : PriceLevel}

/-- `b'` has another slab, and another level in the place of level `i`. -/
structure Relevelled (b : OrderBook M) (slab : SlabAllocator) (s : Side) (i : ℕ) (l : PriceLevel)
    (b' : OrderBook M) : Prop where
  slab_eq : b'.slab = slab
  level_eq : b'.level s i = l
  other_eq : ∀ t j, (t = s → j ≠ i) → b'.level t j = b.level t j

theorem relevelled_setLevel : Relevelled b slab s i l ({ b with slab }.setLevel s i l) :=
  ⟨slab_setLevel, level_setLevel_self, fun _ _ hne => level_setLevel_of_ne hne⟩

theorem Relevelled.setIndex (h : Relevelled b slab s i l b') (t : Side) (bits : Bitmap) (k : ℕ) :
    Relevelled b slab s i l (b'.setIndex t bits k) := by
  refine ⟨?_, ?_, fun t j hne => ?_⟩
  · rw [slab_setIndex, h.slab_eq]
  · rw [level_setIndex, h.level_eq]
  · rw [level_setIndex, h.other_eq t j hne]

theorem removeFromBook_eq {p : Ptr} {order : Order} {orders : IntrusiveList}
    (hread : b.slab.read p = .ok order)
    (hunlink : (b.level order.side order.levelIdx.toNat).orders.unlink b.slab p =
      .ok (orders, slab)) (hl : l = ⟨orders,
        (b.level order.side order.levelIdx.toNat).totalQty - order.quantity,
        (b.level order.side order.levelIdx.toNat).count - 1⟩) :
    ∃ b', b.removeFromBook p = .ok b' ∧ b'.idMap = b.idMap ∧
      Relevelled b slab order.side order.levelIdx.toNat l b' ∧
      SameIndex (if l.isEmpty then b.vacate order.side order.levelIdx.toNat else b) b' := by
  set b₁ := { b with slab }.setLevel order.side order.levelIdx.toNat l with hb₁
  have hsame : SameIndex b b₁ := sameIndex_setLevel slab b.idMap _ _ l
  refine ⟨if l.isEmpty then b₁.vacate order.side order.levelIdx.toNat else b₁, ?_, ?_⟩
  · unfold removeFromBook
    rw [bind_ok hread, bind_ok hunlink, hb₁, hl]
    rfl
  · by_cases hempty : l.isEmpty = true
    · rw [if_pos hempty, if_pos hempty]
      refine ⟨?_, ?_, hsame.vacate _ _⟩
      · rw [vacate_eq, idMap_setIndex, hb₁, idMap_setLevel]
      · rw [vacate_eq]
        exact relevelled_setLevel.setIndex _ _ _
    · rw [if_neg hempty, if_neg hempty]
      refine ⟨?_, relevelled_setLevel, hsame⟩
      rw [hb₁, idMap_setLevel]

variable [IdMap M]

theorem insertResting_eq {p : Ptr} {id : OrderId} {price : Price} {qty : Quantity} {m : M}
    {done : Bool} {slab₀ slab₁ : SlabAllocator} {orders : IntrusiveList}
    (halloc : b.slab.allocate = (some p, slab₀))
    (hwrite : slab₀.write p (fun _ => ⟨none, none, id, qty, price,
      b.priceToIdx price, s⟩) = .ok slab₁)
    (hpush : (b.level s (b.priceToIdx price).toNat).orders.pushBack slab₁ p = .ok (orders, slab))
    (hinsert : IdMap.insert b.idMap id p = some (done, m)) :
    ∃ b', b.insertResting id s price qty = .ok b' ∧ b'.idMap = m ∧
      Relevelled b slab s (b.priceToIdx price).toNat ⟨orders,
        (b.level s (b.priceToIdx price).toNat).totalQty + qty,
        (b.level s (b.priceToIdx price).toNat).count + 1⟩ b' ∧
      SameIndex (if (b.level s (b.priceToIdx price).toNat).isEmpty then
        b.occupy s (b.priceToIdx price).toNat else b) b' := by
  set i := (b.priceToIdx price).toNat with hi
  set l : PriceLevel := ⟨orders, (b.level s i).totalQty + qty, (b.level s i).count + 1⟩ with hl
  set b₁ := { b with slab }.setLevel s i l with hb₁
  have hsame : SameIndex b b₁ := sameIndex_setLevel slab b.idMap s i l
  set b₂ := if (b.level s i).isEmpty then b₁.occupy s i else b₁ with hb₂
  obtain ⟨hmap, hlevel, hindex⟩ : b₂.idMap = b.idMap ∧ Relevelled b slab s i l b₂ ∧
      SameIndex (if (b.level s i).isEmpty then b.occupy s i else b) b₂ := by
    by_cases hempty : (b.level s i).isEmpty = true
    · rw [hb₂, if_pos hempty, if_pos hempty]
      obtain ⟨k, hk, -⟩ := b₁.occupy_eq s i
      refine ⟨?_, ?_, hsame.occupy s i⟩
      · rw [hk, idMap_setIndex, hb₁, idMap_setLevel]
      · rw [hk]
        exact relevelled_setLevel.setIndex _ _ _
    · rw [hb₂, if_neg hempty, if_neg hempty]
      refine ⟨?_, relevelled_setLevel, hsame⟩
      rw [hb₁, idMap_setLevel]
  refine ⟨{ b₂ with idMap := m }, ?_, rfl, ⟨hlevel.slab_eq, ?_, fun t j hne => ?_⟩,
    hindex.trans (sameIndex_remap b₂.slab m)⟩
  · unfold insertResting
    rw [halloc]
    dsimp only
    rw [bind_ok hwrite]
    refine (bind_ok hpush _).trans ?_
    show (orHang (IdMap.insert b₂.idMap id p) >>= _) = _
    rw [hmap, hinsert]
    rfl
  · exact hlevel.level_eq
  · exact hlevel.other_eq t j hne

/-- The order leaves its level, the table and the slab. -/
theorem dropOrder_eq {id : OrderId} {p : Ptr} {done : Bool} {m : M}
    (hremove : b.removeFromBook p = .ok b') (hmap : b'.idMap = b.idMap)
    (herase : IdMap.erase b.idMap id = some (done, m))
    (hdealloc : b'.slab.deallocate p = .ok slab) :
    b.dropOrder id p = .ok { b' with idMap := m, slab } := by
  have heraseId : b'.eraseId id = .ok { b' with idMap := m } := eraseId_ok (hmap ▸ herase)
  unfold dropOrder OrderBook.deallocate
  rw [bind_ok hremove, bind_ok heraseId, hdealloc]
  rfl

end Steps

/-- The order only comes to rest. -/
theorem Passive.submitOrder (ho : Passive b o) (hfind : b.find o.id = .ok none)
    {b₁ : OrderBook (OrderIdMap Ptr)}
    (hins : b.insertResting o.id o.side o.price o.qty = .ok b₁) (trades : List Trade) :
    (b.submitOrder o).run trades = .ok (b₁, ⟨.accepted, 0, o.qty⟩) trades := by
  have htif : o.tif ≠ .fok ∧ o.tif ≠ .ioc := by
    rcases ho.tif_eq with ht | ht | ht <;> rw [ht] <;> exact ⟨nofun, nofun⟩
  exact submitOrder_passive (UInt32.pos_iff_ne_zero.mp ho.qty_pos) ho.id_ne hfind ho.type_eq
    htif.1 htif.2 ho.in_range ho.not_crossing hins trades

/-- A slot is free. -/
theorem Intact.exists_free (h : Intact b) (hroom : b.slab.freeHead ≠ none) :
    ∃ p fl, FreeList b.slab (p :: fl) := by
  obtain ⟨fl, hfl⟩ := h.free
  cases fl with
  | nil => exact absurd hfl.chain hroom
  | cons p fl => exact ⟨p, fl, hfl⟩

/-! ### Both together -/

/-- The queue of a level depends on its list and on the orders in it. -/
theorem queue_congr {M : Type} {b b' : OrderBook M} {s : Side} {i : ℕ}
    (h : (b.level s i).orders.Linked b.slab (b.slots s i)) (hlevel : b'.level s i = b.level s i)
    (hcap : b'.slab.capacity = b.slab.capacity)
    (hsame : ∀ p ∈ b.slots s i, b'.slab.storage p = b.slab.storage p) :
    b'.queue s i = b.queue s i := by
  have hlen : (b.slots s i).length ≤ b'.slab.capacity := by
    rw [hcap]
    exact Links.length_walk_le _ _ _
  have hslots : b'.slots s i = b.slots s i := by
    unfold slots
    rw [hlevel]
    exact (h.of_storage_eq hsame).walk_eq hlen
  unfold queue
  rw [hslots]
  exact List.map_congr_left fun p hp => by rw [hsame p hp]

/-- The level with an order more and then one fewer, in 32 bits. -/
theorem level_add_sub (l : PriceLevel) (qty : Quantity) :
    l = ⟨l.orders, l.totalQty + qty - qty, l.count + 1 - 1⟩ := by
  rw [UInt32.add_sub_cancel, UInt32.add_sub_cancel]

/-- **Cancelling an order that has just come to rest** restores the book.  The table needs an empty
slot, and no empty slot between the hash slot of an entry and its position. -/
theorem Intact.cancel_submit (h : Intact b) (hunbroken : b.idMap.Unbroken)
    (hempty : ∃ e < b.idMap.capacity, (b.idMap.slots e).id = kInvalidOrderId)
    (hroom : b.slab.freeHead ≠ none) (ho : Passive b o) (trades : List Trade) :
    ∃ b₁ b₂, (b.submitOrder o).run trades = .ok (b₁, ⟨.accepted, 0, o.qty⟩) trades ∧
      b₁.cancel o.id = .ok (true, b₂) ∧ Restored b b₂ := by
  obtain ⟨i, hi, -, -, rfl, -⟩ := inRange_spec ho.in_range
  set s := o.side with hs
  set i := (b.priceToIdx o.price).toNat with hidx
  -- the slot `p` that the order gets
  obtain ⟨p, fl, hfl⟩ := h.exists_free hroom
  obtain ⟨halloc, -, hfree⟩ := hfl.allocate_cons
  obtain ⟨mem₁, orders, mem₂, mem₃, hwrite, hpush, ⟨v, w, hread⟩, hunlink, hdealloc, hfl', hcap,
      huse, hlive, hstorage⟩ :=
    returned_unlink_pushBack hfl (h.represented.linked s i hi) (h.live s i hi)
      ⟨none, none, o.id, o.qty, o.price, b.priceToIdx o.price, s⟩
  obtain ⟨hfind, m₁, m₂, hinsert, hfind₁, herase, hmask, hsize, hids, hpointers⟩ :=
    h.sized.erase_insert hunbroken hempty ho.id_ne ho.id_new (some p)
  obtain ⟨b₁, hins, hmap₁, hlevel₁, hindex₁⟩ := insertResting_eq halloc hwrite hpush hinsert
  rw [← hlevel₁.slab_eq] at hread hunlink
  -- the level of the book gets back what it was
  have hlevel : (b₁.level s i).orders.unlink b₁.slab p = .ok ((b.level s i).orders, mem₃) := by
    rw [hlevel₁.level_eq]
    exact hunlink
  obtain ⟨b₂, hremove, hmap₂, hlevel₂, hindex₂⟩ := removeFromBook_eq (l := b.level s i) hread
    hlevel (by rw [← hidx, hlevel₁.level_eq]; exact level_add_sub _ _)
  set b₃ : OrderBook (OrderIdMap Ptr) := { b₂ with idMap := m₂, slab := mem₃.returned p } with hb₃
  have hsubmit := ho.submitOrder (find_ok hfind) hins trades
  have hcancel : b₁.cancel o.id = .ok (true, b₃) := by
    have hreturn : b₂.slab.deallocate p = .ok (mem₃.returned p) := by
      rw [hlevel₂.slab_eq, hdealloc]
    rw [← hmap₁] at hfind₁ herase
    exact cancel_ok (find_ok hfind₁) (dropOrder_eq hremove hmap₂ herase hreturn)
  -- the index, with a bit set and cleared if the level had no orders
  have hindex : SameIndex b b₃ := by
    refine SameIndex.trans ?_ (sameIndex_remap (mem₃.returned p) m₂)
    by_cases he : (b.level s i).isEmpty = true
    · rw [if_pos he] at hindex₁ hindex₂
      exact (h.index.vacate_occupy hi ((h.isEmpty_iff hi).mp he)).trans
        ((hindex₁.vacate s i).trans hindex₂)
    · rw [if_neg he] at hindex₁ hindex₂
      exact hindex₁.trans hindex₂
  have hlevels : ∀ t j, b₃.level t j = b.level t j := by
    intro t j
    have hb₂ : b₃.level t j = b₂.level t j := by cases t <;> rfl
    rw [hb₂]
    by_cases htj : t = s ∧ j = i
    · rw [htj.1, htj.2]
      exact hlevel₂.level_eq
    · have hne : t = s → j ≠ i := fun ht hj => htj ⟨ht, hj⟩
      exact (hlevel₂.other_eq t j hne).trans (hlevel₁.other_eq t j hne)
  have horder : ∀ q, (b.slab.storage q).live = true → b₃.slab.storage q = b.slab.storage q := by
    intro q hq
    apply hstorage
    rintro rfl
    rw [hfree] at hq
    cases hq
  refine ⟨b₁, b₃, hsubmit, hcancel, hindex.cfg_eq, hlevels, fun t j hj => ?_, hindex.bitmap_eq,
    hindex.bestIdx_eq, hmask, hsize, hids, hpointers, hlive, horder, fun fl' hfl₁ => ?_, huse⟩
  · apply queue_congr (h.represented.linked t j hj) (hlevels t j) hcap
    exact fun q hq => horder q (h.live t j hj q hq)
  · rwa [hfl₁.chain.unique hfl.chain]

/-! ### Books that calls lead to -/

theorem Good.intact (h : Good b A) (hv : Visible b A) (hshort : ∀ s i, (A s i).length < 2 ^ 32) :
    Intact b where
  represented := h.views_agree hv hshort
  live s i _ p hp := by
    obtain ⟨r, hr, rfl⟩ := h.core.mem_slots.mp hp
    exact (h.core.placed s i r hr).live
  free := h.core.free
  numWords_eq s := (h.index.within s).numWords_eq
  sized := by
    obtain ⟨f, ⟨hrep, -⟩, -⟩ := h.indexed
    exact hrep.sized

/-- After every run whose calls are safe, in a book for fewer than `2^32` orders, the table is as
the restoration needs it. -/
theorem Run.intact {cfg : Config} (hmax : cfg.maxOrders < 2 ^ 32)
    (h : Run (fun b c => Safe b b.queue c) cfg b) :
    Intact b ∧ b.idMap.Unbroken ∧
      ∃ e < b.idMap.capacity, (b.idMap.slots e).id = kInvalidOrderId := by
  obtain ⟨hgood, hcfg, hv⟩ := Run.induction (P := fun b => Visible b b.queue)
    (fun _ _ hok => hok) (new_visible cfg)
    (fun _ _ _ _ _ hgood hcfg _ hv hs =>
      hs.visible hgood (keeps_of_short (hgood.short (hcfg ▸ hmax))) hv) h
  obtain ⟨f, ⟨hrep, -⟩, -⟩ := hgood.indexed
  obtain ⟨e, he, hnone⟩ := hrep.vacant
  exact ⟨hgood.intact hv (hgood.short (hcfg ▸ hmax)), hrep.unbroken, e, he,
    OrderIdMap.entry_eq_none_iff.mp hnone⟩

/-- An ask is put next to the bid that `slotReused` holds, and cancelled. -/
theorem slotReused_cancel_submit :
    ∃ b₁ b₂, (slotReused.submitOrder (gtcOrder 3 .sell 1 5)).run [] =
        .ok (b₁, ⟨.accepted, 0, 5⟩) [] ∧
      b₁.cancel 3 = .ok (true, b₂) ∧ Restored slotReused b₂ := by
  obtain ⟨hintact, hunbroken, hempty⟩ := slotReused_run.intact (by decide)
  have hpassive : Passive slotReused (gtcOrder 3 .sell 1 5) :=
    ⟨by decide, by decide, by decide, by decide, by decide, by decide, by decide⟩
  exact hintact.cancel_submit hunbroken hempty (by decide) hpassive []

end Lob.OrderBook
