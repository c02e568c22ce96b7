import Lob.Equiv.IdMap
import Lob.Equiv.IntrusiveList
import Lob.Equiv.OrderBook.Index

/-!
# The invariants of the book

`Core b A loose` says that the memory of the book holds the queues `A`: every level is a linked
list of its queue, with its total and its count up to `2^32`; every order of a queue is in its
slot; and a slot of the slab is handed out exactly if an order of some queue is in it, or it is
the slot `loose`, which an operation has taken off a queue or not yet put on one.
`Indexed n m A` says that the id index `m` finds the orders of `A`.

`Good b A` is the invariant of the book between two calls.  It holds for every configuration; a
level with orders may have a clear bit.  `Visible b A` says that no level has, which needs that
no level has `2^32` orders or more.
-/

namespace Lob

/-! ### Queues -/

theorem Resting.size_shrink {r : Resting} {n : ℕ} (h : n < r.size) :
    (r.shrink n).size = r.size - n := by
  have hr := r.qty.toNat_lt
  unfold Resting.size at h
  have hn : (UInt32.ofNat n).toNat = n := by
    rw [UInt32.toNat_ofNat']
    omega
  have hle : UInt32.ofNat n ≤ r.qty := UInt32.le_iff_toNat_le.mpr (by rw [hn]; exact h.le)
  unfold Resting.size Resting.shrink
  rw [UInt32.toNat_sub_of_le _ _ hle, hn]

/-- What stays of positive orders is positive. -/
theorem Resting.size_leftover_pos {q : List Resting} {n : ℕ} (h : ∀ r ∈ q, 0 < r.size) :
    ∀ r ∈ Greedy.leftover Resting.size Resting.shrink q n, 0 < r.size := by
  intro r hr
  rcases Greedy.mem_leftover _ _ hr with hr | ⟨x, hx, k, hk, hlt, rfl⟩
  · exact h r hr
  · rw [size_shrink hlt]
    omega

namespace Queues

variable {A : Queues} {s t : Side} {i j : ℕ} {q xs ys : List Resting} {r : Resting}

@[simp] theorem set_self : A.set s i q s i = q := by simp [set]

theorem set_of_ne (h : t = s → j ≠ i) : A.set s i q t j = A t j := by
  rcases eq_or_ne t s with rfl | hne
  · simp [set, h rfl]
  · simp [set, hne]

/-- What holds of the changed level and of the other ones holds of every level. -/
theorem set_forall {P : Side → ℕ → List Resting → Prop} (hself : P s i q)
    (hother : ∀ t j, (t = s → j ≠ i) → P t j (A t j)) (t : Side) (j : ℕ) :
    P t j (A.set s i q t j) := by
  by_cases htj : t = s ∧ j = i
  · obtain ⟨rfl, rfl⟩ := htj
    rwa [set_self]
  · have hne : t = s → j ≠ i := fun ht hj => htj ⟨ht, hj⟩
    rw [set_of_ne hne]
    exact hother t j hne

theorem set_eq_self (h : A s i = q) : A.set s i q = A := by
  ext1 t
  ext1 j
  exact set_forall (P := fun t j q => q = A t j) h.symm (fun _ _ _ => rfl) t j

@[simp] theorem set_set (q' : List Resting) : (A.set s i q).set s i q' = A.set s i q' := by
  simp [set]

theorem mem_set : r ∈ A.set s i q t j ↔ if t = s ∧ j = i then r ∈ q else r ∈ A t j := by
  split_ifs with h
  · obtain ⟨rfl, rfl⟩ := h
    rw [set_self]
  · rw [set_of_ne fun ht hj => h ⟨ht, hj⟩]

/-- The orders of a level with the order `r` are `r` and the other ones. -/
theorem mem_split (hq : A s i = xs ++ r :: ys) {r' : Resting} :
    r' ∈ A s i ↔ r' = r ∨ r' ∈ xs ++ ys := by
  rw [hq, List.perm_middle.mem_iff, List.mem_cons]

/-- The id `id` belongs to the order in slot `p`. -/
def Binds (A : Queues) (id : OrderId) (p : Ptr) : Prop :=
  ∃ s i, ∃ r ∈ A s i, r.id = id ∧ r.slot = p

theorem rests_iff {id : OrderId} : A.Rests id ↔ ∃ p, A.Binds id p := by
  constructor
  · rintro ⟨s, i, r, hr, hid⟩
    exact ⟨r.slot, s, i, r, hr, hid, rfl⟩
  · rintro ⟨p, s, i, r, hr, hid, -⟩
    exact ⟨s, i, r, hr, hid⟩

/-- Every slot is in one place. -/
structure Distinct (A : Queues) : Prop where
  unique : ∀ {s i r t j r'}, r ∈ A s i → r' ∈ A t j → r.slot = r'.slot → s = t ∧ i = j ∧ r = r'
  nodup : ∀ s i, ((A s i).map Resting.slot).Nodup

/-- The slot tells the order `r` from the others of its level. -/
theorem Distinct.mem_removed (h : Distinct A) (hq : A s i = xs ++ r :: ys) {r' : Resting} :
    r' ∈ xs ++ ys ↔ r' ∈ A s i ∧ r'.slot ≠ r.slot := by
  have hnd := h.nodup s i
  rw [hq] at hnd
  have hnot : r ∉ xs ++ ys := (List.nodup_cons.mp (List.nodup_middle.mp hnd.of_map)).1
  have hmem : r ∈ A s i := (mem_split hq).mpr (Or.inl rfl)
  constructor
  · intro hr'
    have hmem' := (mem_split hq).mpr (Or.inr hr')
    refine ⟨hmem', fun heq => hnot ?_⟩
    rwa [(h.unique hmem' hmem heq).2.2] at hr'
  · rintro ⟨hmem', hne⟩
    apply ((mem_split hq).mp hmem').resolve_left
    rintro rfl
    exact hne rfl

theorem binds_set_append {id : OrderId} {p : Ptr} :
    (A.set s i (A s i ++ [r])).Binds id p ↔ A.Binds id p ∨ (r.id = id ∧ r.slot = p) := by
  constructor
  · rintro ⟨t, j, r', hr', hid, hp⟩
    rw [mem_set] at hr'
    split_ifs at hr' with h
    · rcases List.mem_append.mp hr' with hr' | hr'
      · exact Or.inl ⟨s, i, r', hr', hid, hp⟩
      · obtain rfl := List.mem_singleton.mp hr'
        exact Or.inr ⟨hid, hp⟩
    · exact Or.inl ⟨t, j, r', hr', hid, hp⟩
  · rintro (⟨t, j, r', hr', hid, hp⟩ | ⟨hid, hp⟩)
    · refine ⟨t, j, r', mem_set.mpr ?_, hid, hp⟩
      split_ifs with h
      · obtain ⟨rfl, rfl⟩ := h
        simp [hr']
      · exact hr'
    · exact ⟨s, i, r, by simp, hid, hp⟩

/-- Removing an order. -/
theorem Distinct.binds_remove (h : Distinct A) (hq : A s i = xs ++ r :: ys) {id : OrderId}
    {p : Ptr} : (A.set s i (xs ++ ys)).Binds id p ↔ A.Binds id p ∧ p ≠ r.slot := by
  constructor
  · rintro ⟨t, j, r', hr', hid, rfl⟩
    rw [mem_set] at hr'
    split_ifs at hr' with htj
    · obtain ⟨hmem, hne⟩ := (h.mem_removed hq).mp hr'
      exact ⟨⟨s, i, r', hmem, hid, rfl⟩, hne⟩
    · refine ⟨⟨t, j, r', hr', hid, rfl⟩, fun heq => htj ?_⟩
      obtain ⟨ht, hj, -⟩ := h.unique hr' ((mem_split hq).mpr (Or.inl rfl)) heq
      exact ⟨ht, hj⟩
  · rintro ⟨⟨t, j, r', hr', hid, rfl⟩, hne⟩
    refine ⟨t, j, r', mem_set.mpr ?_, hid, rfl⟩
    split_ifs with htj
    · obtain ⟨rfl, rfl⟩ := htj
      exact (h.mem_removed hq).mpr ⟨hr', hne⟩
    · exact hr'

/-- Replacing an order by one with the same id and slot. -/
theorem binds_replace (r' : Resting) (hq : A s i = xs ++ r :: ys) (hid : r'.id = r.id)
    (hslot : r'.slot = r.slot) {id : OrderId} {p : Ptr} :
    (A.set s i (xs ++ r' :: ys)).Binds id p ↔ A.Binds id p := by
  -- the statement is symmetric in the two orders
  have key : ∀ {A A' : Queues} {r r' : Resting}, A s i = xs ++ r :: ys →
      A' s i = xs ++ r' :: ys → (∀ t j, (t = s → j ≠ i) → A' t j = A t j) → r'.id = r.id →
      r'.slot = r.slot → A.Binds id p → A'.Binds id p := by
    rintro A A' r r' hq hq' hA hid hslot ⟨t, j, x, hx, hxid, hxp⟩
    by_cases htj : t = s ∧ j = i
    · obtain ⟨rfl, rfl⟩ := htj
      rcases (mem_split hq).mp hx with rfl | hx
      · exact ⟨t, j, r', (mem_split hq').mpr (Or.inl rfl), hid.trans hxid, hslot.trans hxp⟩
      · exact ⟨t, j, x, (mem_split hq').mpr (Or.inr hx), hxid, hxp⟩
    · exact ⟨t, j, x, by rwa [hA t j fun ht hj => htj ⟨ht, hj⟩], hxid, hxp⟩
  exact ⟨key set_self hq (fun t j h => (set_of_ne h).symm) hid.symm hslot.symm,
    key hq set_self (fun t j h => set_of_ne h) hid hslot⟩

end Queues

namespace OrderBook

open SlabAllocator Queues

variable {M : Type} {b : OrderBook M} {A : Queues} {loose : Option Ptr}

/-! ### The id index -/

/-- The index `m`, with room for `n` ids, finds the orders of `A` by their ids. -/
def Indexed [IdMap M] [IndexedBy M] (n : ℕ) (m : M) (A : Queues) : Prop :=
  ∃ f, IndexedBy.Rep n m f ∧ ∀ id p, f id = some p ↔ A.Binds id p

section Indexed

variable [IdMap M] [IndexedBy M] {n : ℕ} {m : M} {id : OrderId} {p : Ptr}

theorem Indexed.congr {A' : Queues} (h : Indexed n m A)
    (hA : ∀ id p, A'.Binds id p ↔ A.Binds id p) : Indexed n m A' := by
  obtain ⟨f, hrep, hf⟩ := h
  exact ⟨f, hrep, fun id p => (hf id p).trans (hA id p).symm⟩

theorem Indexed.slot_unique (h : Indexed n m A) {p' : Ptr} (hp : A.Binds id p)
    (hp' : A.Binds id p') : p = p' := by
  obtain ⟨f, -, hf⟩ := h
  rw [← hf] at hp hp'
  exact Option.some.inj (hp.symm.trans hp')

theorem Indexed.ne_invalid (h : Indexed n m A) (hp : A.Binds id p) : id ≠ kInvalidOrderId := by
  obtain ⟨f, hrep, hf⟩ := h
  rintro rfl
  rw [← hf, IndexedBy.rep_invalid hrep] at hp
  cases hp

theorem Indexed.find_some (h : Indexed n m A) (hp : A.Binds id p) :
    IdMap.find m id = some (some p) := by
  have hne := h.ne_invalid hp
  obtain ⟨f, hrep, hf⟩ := h
  rw [IndexedBy.find_eq hrep (IndexedBy.findOk_of_ne m hne), (hf id p).mpr hp]

theorem Indexed.find_none (h : Indexed n m A) (hok : IndexedBy.FindOk m id) (hr : ¬A.Rests id) :
    IdMap.find m id = some none := by
  obtain ⟨f, hrep, hf⟩ := h
  rw [IndexedBy.find_eq hrep hok, Option.some.injEq, Option.eq_none_iff_forall_ne_some]
  exact fun p hp => hr (rests_iff.mpr ⟨p, (hf id p).mp hp⟩)

theorem Indexed.insert (h : Indexed n m A) {s : Side} {i : ℕ} {r : Resting}
    (hid : r.id ≠ kInvalidOrderId) (hr : ¬A.Rests r.id)
    (hroom : ∀ ids : List OrderId, ids.Nodup → (∀ id ∈ ids, A.Rests id) → ids.length < n) :
    ∃ m', IdMap.insert m r.id r.slot = some (true, m') ∧
      Indexed n m' (A.set s i (A s i ++ [r])) := by
  obtain ⟨f, hrep, hf⟩ := h
  have hrests : ∀ id, f id ≠ none → A.Rests id := fun id hne => by
    obtain ⟨p, hp⟩ := Option.ne_none_iff_exists'.mp hne
    exact rests_iff.mpr ⟨p, (hf id p).mp hp⟩
  have hfree : f r.id = none := by
    by_contra hne
    exact hr (hrests _ hne)
  obtain ⟨m', hins, hrep'⟩ := IndexedBy.insert_eq r.slot hrep hid hfree
    fun ids hnd hids => hroom ids hnd fun id hmem => hrests id (hids id hmem)
  refine ⟨m', hins, _, hrep', fun id p => ?_⟩
  rw [binds_set_append, ← hf]
  rcases eq_or_ne id r.id with rfl | hne
  · simp [hfree]
  · simp [hne, hne.symm]

/-- Erasing an order that leaves its queue. -/
theorem Indexed.erase (h : Indexed n m A) (hA : A.Distinct) {s : Side} {i : ℕ} {r : Resting}
    {xs ys : List Resting} (hq : A s i = xs ++ r :: ys) :
    ∃ m', IdMap.erase m r.id = some (true, m') ∧
      (IndexedBy.EraseOk m r.id → Indexed n m' (A.set s i (xs ++ ys))) := by
  have hbind : A.Binds r.id r.slot := ⟨s, i, r, by simp [hq], rfl, rfl⟩
  obtain ⟨f, hrep, hf⟩ := h
  have hbound := (hf _ _).mpr hbind
  have hne : f r.id ≠ none := by simp [hbound]
  obtain ⟨m', herase, hrep'⟩ := IndexedBy.erase_eq hrep hne
  refine ⟨m', herase, fun hok => ⟨_, hrep' hok, fun id p => ?_⟩⟩
  rw [hA.binds_remove hq, ← hf]
  rcases eq_or_ne id r.id with rfl | hne
  · simp only [Function.update_self, hbound, Option.some.injEq]
    constructor
    · intro hnone
      cases hnone
    · rintro ⟨rfl, hp⟩
      exact absurd rfl hp
  · rw [Function.update_of_ne hne]
    refine ⟨fun hp => ⟨hp, fun hpr => hne ?_⟩, And.left⟩
    subst hpr
    -- an order is in one place, so that two ids in one slot are the same
    obtain ⟨t, j, r', hr', rfl, hslot⟩ := (hf _ _).mp hp
    obtain ⟨t', j', r'', hr'', hid'', hslot''⟩ := hbind
    rw [← hid'', (hA.unique hr' hr'' (hslot.trans hslot''.symm)).2.2]

end Indexed

/-! ### The memory of the book -/

/-- The order `r` of level `i` of side `s` is in the slot. -/
structure Placed (cfg : Config) (slot : Slot) (s : Side) (i : ℕ) (r : Resting) : Prop where
  live : slot.live = true
  orderId_eq : slot.value.orderId = r.id
  quantity_eq : slot.value.quantity = r.qty
  side_eq : slot.value.side = s
  levelIdx_eq : slot.value.levelIdx.toNat = i
  price_eq : slot.value.price = r.price
  level_eq : r.price.toInt = cfg.basePrice.toInt + i
  inside : i < cfg.numLevels
  small : i < 2 ^ 31

structure Core (b : OrderBook M) (A : Queues) (loose : Option Ptr) : Prop where
  capacity_eq : b.slab.capacity = b.cfg.maxOrders
  free : ∃ fl, FreeList b.slab fl
  linked : ∀ s i, (b.level s i).orders.Linked b.slab ((A s i).map Resting.slot)
  placed : ∀ s i, ∀ r ∈ A s i, Placed b.cfg (b.slab.storage r.slot) s i r
  total_eq : ∀ s i, (b.level s i).totalQty.toNat = Greedy.total Resting.size (A s i) % 2 ^ 32
  count_eq : ∀ s i, (b.level s i).count.toNat = (A s i).length % 2 ^ 32
  owned : ∀ p, (b.slab.storage p).live = true → loose = some p ∨ ∃ id, A.Binds id p
  loose_live : ∀ p, loose = some p → (b.slab.storage p).live = true
  loose_free : ∀ p, loose = some p → ∀ id, ¬A.Binds id p

variable {s t : Side} {i j : ℕ} {r : Resting} {xs ys : List Resting}

/-- Links are no part of what is placed in a slot. -/
theorem Placed.relinked {cfg : Config} {slab slab' : SlabAllocator} {ps : List Ptr} {p : Ptr}
    (h : Placed cfg (slab.storage p) s i r) (hr : IntrusiveList.Relinked slab slab' ps) :
    Placed cfg (slab'.storage p) s i r := by
  have hv := hr.value_eq p
  exact ⟨(hr.rewritten.live_eq p).trans h.live, hv ▸ h.orderId_eq, hv ▸ h.quantity_eq,
    hv ▸ h.side_eq, hv ▸ h.levelIdx_eq, hv ▸ h.price_eq, h.level_eq, h.inside,
    h.small⟩

theorem Core.distinct (h : Core b A loose) : A.Distinct where
  unique := by
    intro s i r t j r' hr hr' hslot
    have hp := h.placed s i r hr
    have hp' := h.placed t j r' hr'
    rw [← hslot] at hp'
    refine ⟨hp.side_eq.symm.trans hp'.side_eq, hp.levelIdx_eq.symm.trans hp'.levelIdx_eq, ?_⟩
    -- the slot holds all that there is to an order
    cases r
    cases r'
    simp only [Resting.mk.injEq]
    exact ⟨hslot, hp.orderId_eq.symm.trans hp'.orderId_eq, hp.price_eq.symm.trans hp'.price_eq,
      hp.quantity_eq.symm.trans hp'.quantity_eq⟩
  nodup s i := (h.linked s i).nodup

theorem Core.slot_lt (h : Core b A loose) (hr : r ∈ A s i) : r.slot < b.slab.capacity := by
  obtain ⟨fl, hfl⟩ := h.free
  exact hfl.live_lt _ (h.placed s i r hr).live

theorem Core.length_le (h : Core b A loose) (s : Side) (i : ℕ) :
    (A s i).length ≤ b.slab.capacity := by
  have hsub : (A s i).map Resting.slot ⊆ List.range b.slab.capacity := by
    intro p hp
    obtain ⟨r, hr, rfl⟩ := List.mem_map.mp hp
    exact List.mem_range.mpr (h.slot_lt hr)
  have hle := ((h.linked s i).nodup.subperm hsub).length_le
  rwa [List.length_map, List.length_range] at hle

theorem Core.slots_eq (h : Core b A loose) (s : Side) (i : ℕ) :
    b.slots s i = (A s i).map Resting.slot :=
  -- the queue is no longer than the slab, which bounds the walk
  (h.linked s i).walk_eq (by rw [List.length_map]; exact h.length_le s i)

/-- The queues are what the lists in memory say. -/
theorem Core.queue_eq (h : Core b A loose) : b.queue = A := by
  ext1 s
  ext1 i
  rw [queue, h.slots_eq, List.map_map]
  refine (List.map_congr_left fun r hr => ?_).trans (List.map_id _)
  have hp := h.placed s i r hr
  simp only [Function.comp_apply, hp.orderId_eq, hp.price_eq, hp.quantity_eq, id]

/-- One level and its queue change, and the slab with them. -/
theorem Core.setLevel {slab : SlabAllocator} {lvl : PriceLevel} {q : List Resting}
    {loose' : Option Ptr} (h : Core b A loose) (hcap : slab.capacity = b.slab.capacity)
    (hfree : ∃ fl, FreeList slab fl) (hlinked : lvl.orders.Linked slab (q.map Resting.slot))
    (hplaced : ∀ r ∈ q, Placed b.cfg (slab.storage r.slot) s i r)
    (htotal : lvl.totalQty.toNat = Greedy.total Resting.size q % 2 ^ 32)
    (hcount : lvl.count.toNat = q.length % 2 ^ 32)
    (hother : ∀ t j, (t = s → j ≠ i) → ∀ r ∈ A t j,
      slab.storage r.slot = b.slab.storage r.slot)
    (howned : ∀ p, (slab.storage p).live = true →
      loose' = some p ∨ ∃ id, (A.set s i q).Binds id p)
    (hlive : ∀ p, loose' = some p → (slab.storage p).live = true)
    (hloose : ∀ p, loose' = some p → ∀ id, ¬(A.set s i q).Binds id p) :
    Core ({ b with slab := slab }.setLevel s i lvl) (A.set s i q) loose' := by
  set b' := { b with slab := slab }.setLevel s i lvl with hb'
  have hslab : b'.slab = slab := by rw [hb', slab_setLevel]
  have hcfg : b'.cfg = b.cfg := by rw [hb', cfg_setLevel]
  have hself : b'.level s i = lvl := level_setLevel_self
  have hlevel : ∀ t j, (t = s → j ≠ i) → b'.level t j = b.level t j := fun t j hne =>
    (level_setLevel_of_ne hne).trans (by cases t <;> rfl)
  constructor
  · rw [hslab, hcfg, hcap, h.capacity_eq]
  · rwa [hslab]
  · rw [hslab]
    apply set_forall (P := fun t j q => (b'.level t j).orders.Linked slab (q.map Resting.slot))
    · rwa [hself]
    · intro t j hne
      rw [hlevel t j hne]
      refine (h.linked t j).of_storage_eq fun p hp => ?_
      obtain ⟨r, hr, rfl⟩ := List.mem_map.mp hp
      exact hother t j hne r hr
  · rw [hslab, hcfg]
    apply set_forall (P := fun t j q => ∀ r ∈ q, Placed b.cfg (slab.storage r.slot) t j r) hplaced
    intro t j hne r hr
    rw [hother t j hne r hr]
    exact h.placed t j r hr
  · apply set_forall (P := fun t j q =>
      (b'.level t j).totalQty.toNat = Greedy.total Resting.size q % 2 ^ 32)
    · rwa [hself]
    · intro t j hne
      rw [hlevel t j hne, h.total_eq]
  · apply set_forall (P := fun t j q => (b'.level t j).count.toNat = q.length % 2 ^ 32)
    · rwa [hself]
    · intro t j hne
      rw [hlevel t j hne, h.count_eq]
  · rwa [hslab]
  · rwa [hslab]
  · exact hloose

/-- The invariant depends on the slab and the levels alone. -/
theorem Core.of_eq {b' : OrderBook M} (h : Core b A loose) (hcfg : b'.cfg = b.cfg)
    (hslab : b'.slab = b.slab) (hlevels : ∀ t j, b'.level t j = b.level t j) :
    Core b' A loose where
  capacity_eq := by rw [hslab, hcfg, h.capacity_eq]
  free := hslab ▸ h.free
  linked s i := by rw [hslab, hlevels]; exact h.linked s i
  placed s i := by rw [hslab, hcfg]; exact h.placed s i
  total_eq s i := by rw [hlevels, h.total_eq]
  count_eq s i := by rw [hlevels, h.count_eq]
  owned := hslab ▸ h.owned
  loose_live := hslab ▸ h.loose_live
  loose_free := h.loose_free

theorem Core.setIdMap (h : Core b A loose) (m : M) : Core { b with idMap := m } A loose :=
  h.of_eq rfl rfl fun t _ => by cases t <;> rfl

/-- A slot that no queue uses is taken from or given back to the slab. -/
theorem Core.reslab {slab : SlabAllocator} {loose' : Option Ptr} {p : Ptr}
    (h : Core b A loose) (hcap : slab.capacity = b.slab.capacity) (hfree : ∃ fl, FreeList slab fl)
    (hp : ∀ id, ¬A.Binds id p)
    (hother : ∀ q, q ≠ p → slab.storage q = b.slab.storage q)
    (howned : ∀ q, (slab.storage q).live = true → loose' = some q ∨ ∃ id, A.Binds id q)
    (hlive : ∀ q, loose' = some q → q = p ∧ (slab.storage q).live = true) :
    Core { b with slab := slab } A loose' := by
  have hsame : ∀ s i, ∀ r ∈ A s i, slab.storage r.slot = b.slab.storage r.slot :=
    fun s i r hr => hother _ fun heq => hp r.id ⟨s, i, r, hr, rfl, heq⟩
  have hlevel : ∀ s i, ({ b with slab := slab } : OrderBook M).level s i = b.level s i := by
    intro s i
    cases s <;> rfl
  refine ⟨hcap.trans h.capacity_eq, hfree, fun s i => ?_, fun s i r hr => ?_, fun s i => ?_,
    fun s i => ?_, howned, fun q hq => (hlive q hq).2, fun q hq => ?_⟩
  · rw [hlevel]
    refine (h.linked s i).of_storage_eq fun q hq => ?_
    obtain ⟨r, hr, rfl⟩ := List.mem_map.mp hq
    exact hsame s i r hr
  · rw [hsame s i r hr]
    exact h.placed s i r hr
  · rw [hlevel, h.total_eq]
  · rw [hlevel, h.count_eq]
  · rw [(hlive q hq).1]
    exact hp

/-- `PriceLevel::empty` compares the count, kept in 32 bits, with zero. -/
theorem Core.isEmpty_iff (h : Core b A loose) (s : Side) (i : ℕ) :
    (b.level s i).isEmpty = true ↔ (A s i).length % 2 ^ 32 = 0 := by
  unfold PriceLevel.isEmpty
  rw [beq_iff_eq, ← h.count_eq, ← UInt32.toNat_inj]
  rfl

theorem Core.setIndex (h : Core b A loose) (s : Side) (bits : Bitmap) (k : ℕ) :
    Core (b.setIndex s bits k) A loose :=
  h.of_eq cfg_setIndex slab_setIndex fun _ _ => level_setIndex

/-! ### The invariant between two calls -/

/-- Every set bit belongs to a level with orders. -/
def Backed (b : OrderBook M) (A : Queues) : Prop := ∀ s i, b.bit s i = true → A s i ≠ []

/-- Every level with orders has its bit set. -/
def Visible (b : OrderBook M) (A : Queues) : Prop := ∀ s i, A s i ≠ [] → b.bit s i = true

/-- A level changes that has orders then or whose bit is clear, and no other bit is set. -/
theorem Backed.set {b' : OrderBook M} {q : List Resting} (h : Backed b A)
    (hself : b'.bit s i = true → q ≠ [])
    (hother : ∀ t j, (t = s → j ≠ i) → b'.bit t j = true → b.bit t j = true) :
    Backed b' (A.set s i q) :=
  set_forall (P := fun t j q => b'.bit t j = true → q ≠ []) hself
    fun t j hne hb => h t j (hother t j hne hb)

/-- A level changes whose bit is set if it has orders then, and no other bit is cleared. -/
theorem Visible.set {b' : OrderBook M} {q : List Resting} (h : Visible b A)
    (hself : q ≠ [] → b'.bit s i = true)
    (hother : ∀ t j, (t = s → j ≠ i) → b.bit t j = true → b'.bit t j = true) :
    Visible b' (A.set s i q) :=
  set_forall (P := fun t j q => q ≠ [] → b'.bit t j = true) hself
    fun t j hne hq => hother t j hne (h t j hq)

structure Good [IdMap M] [IndexedBy M] (b : OrderBook M) (A : Queues) : Prop where
  core : Core b A none
  positive : ∀ s i, ∀ r ∈ A s i, 0 < r.size
  index : Index b
  backed : Backed b A
  indexed : Indexed b.cfg.maxOrders b.idMap A

end OrderBook

end Lob
