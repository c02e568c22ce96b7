import Lob.General.Lockstep
import Lob.Equiv.OrderBook.TopN

/-!
# Books under other names

A `Relabel` gives other names to the sides, the levels and the prices of a book, such that which
level is the better one does not change.  `Relabels ρ b b'` says that the book `b'` is the book `b`
under the names of `ρ`: the same ids at the same addresses, in levels, bitmaps and best levels that
are named otherwise.

The operations of the source keep this relation, step by step and fault by fault.  Those of the
memory and of the index come first (`SameSlab`, `SameBits`), then the passive operations.
-/

namespace Lob

open Lockstep

/-- The price `p` is that of level `i`. -/
structure AtLevel (cfg : Config) (p : Price) (i : ℕ) : Prop where
  lt : i < cfg.numLevels
  toInt_eq : p.toInt = cfg.basePrice.toInt + i

/-- Other names for the sides, levels and prices of a book. -/
structure Relabel (cfg cfg' : Config) where
  side : Side → Side
  level : ℕ → ℕ
  price : Price → Price
  numLevels_eq : cfg'.numLevels = cfg.numLevels
  maxOrders_eq : cfg'.maxOrders = cfg.maxOrders
  small : cfg.numLevels ≤ 2 ^ 31
  priced : ∀ i < cfg.numLevels, ∃ p, AtLevel cfg p i
  side_opposite : ∀ s, side (opposite s) = opposite (side s)
  level_lt : ∀ i < cfg.numLevels, level i < cfg.numLevels
  level_onto : ∀ j < cfg.numLevels, ∃ i < cfg.numLevels, level i = j
  better_iff : ∀ s, ∀ i < cfg.numLevels, ∀ j < cfg.numLevels,
    Better (side s) (level i) (level j) ↔ Better s i j
  price_at : ∀ p i, AtLevel cfg p i → AtLevel cfg' (price p) (level i)
  at_price : ∀ p j, AtLevel cfg' (price p) j → ∃ i, AtLevel cfg p i

variable {cfg cfg' : Config} {ρ : Relabel cfg cfg'}

theorem AtLevel.unique {p : Price} {i j : ℕ} (h : AtLevel cfg p i) (h' : AtLevel cfg p j) :
    i = j := by
  have hi := h.toInt_eq
  have hj := h'.toInt_eq
  omega

theorem AtLevel.price_unique {p q : Price} {i : ℕ} (h : AtLevel cfg p i) (h' : AtLevel cfg q i) :
    p = q :=
  Int32.toInt_inj.mp (h.toInt_eq.trans h'.toInt_eq.symm)

namespace Relabel

theorem side_ne {s t : Side} (h : t ≠ s) : ρ.side t ≠ ρ.side s := by
  have ht : t = opposite s := by cases s <;> cases t <;> first | rfl | exact absurd rfl h
  rw [ht, ρ.side_opposite]
  exact opposite_ne _

theorem small' (ρ : Relabel cfg cfg') : cfg'.numLevels ≤ 2 ^ 31 := by
  rw [ρ.numLevels_eq]
  exact ρ.small

/-- Levels with the same name are the same. -/
theorem level_inj {i j : ℕ} (hi : i < cfg.numLevels) (hj : j < cfg.numLevels)
    (h : ρ.level i = ρ.level j) : i = j := by
  rcases OrderBook.better_or_eq_or_better .sell i j with hlt | heq | hgt
  · exact absurd h (OrderBook.better_ne ((ρ.better_iff .sell i hi j hj).mpr hlt))
  · exact heq
  · exact absurd h.symm (OrderBook.better_ne ((ρ.better_iff .sell j hj i hi).mpr hgt))

/-- Of two prices with the same name, if one is in range, so is the other, and they are the
same. -/
theorem price_inj {p q : Price} {i : ℕ} (hp : AtLevel cfg p i) :
    ρ.price q = ρ.price p ↔ q = p := by
  refine ⟨fun h => ?_, fun h => by rw [h]⟩
  have hname := ρ.price_at p i hp
  rw [← h] at hname
  obtain ⟨j, hq⟩ := ρ.at_price q _ hname
  have hlevel : ρ.level j = ρ.level i := (ρ.price_at q j hq).unique hname
  obtain rfl := ρ.level_inj hq.lt hp.lt hlevel
  exact hq.price_unique hp

end Relabel

/-! ### Orders -/

/-- The order `o'` is the order `o` under the names of `ρ`. -/
structure SameOrder (ρ : Relabel cfg cfg') (o o' : Order) : Prop where
  prev_eq : o'.prev = o.prev
  next_eq : o'.next = o.next
  orderId_eq : o'.orderId = o.orderId
  quantity_eq : o'.quantity = o.quantity
  side_eq : o'.side = ρ.side o.side
  price_eq : o'.price = ρ.price o.price
  at_level : AtLevel cfg o.price o.levelIdx.toNat
  levelIdx_eq : o'.levelIdx.toNat = ρ.level o.levelIdx.toNat

/-- Slots that hold the same order, or are linked alike in the free list. -/
structure SameSlot (ρ : Relabel cfg cfg') (x x' : Slot) : Prop where
  live_eq : x'.live = x.live
  prev_eq : x'.value.prev = x.value.prev
  order : x.live = true → SameOrder ρ x.value x'.value

structure SameSlab (ρ : Relabel cfg cfg') (mem mem' : SlabAllocator) : Prop where
  capacity_eq : mem'.capacity = mem.capacity
  freeHead_eq : mem'.freeHead = mem.freeHead
  inUse_eq : mem'.inUse = mem.inUse
  slot : ∀ p, SameSlot ρ (mem.storage p) (mem'.storage p)

namespace SameSlab

open SlabAllocator

variable {mem mem' : SlabAllocator} {p : Ptr} {f f' : Order → Order}

theorem update (h : SameSlab ρ mem mem') {x x' : Slot} (hx : SameSlot ρ x x') (q : Ptr) :
    SameSlot ρ (Function.update mem.storage p x q) (Function.update mem'.storage p x' q) := by
  rcases eq_or_ne q p with rfl | hne
  · rwa [Function.update_self, Function.update_self]
  · rw [Function.update_of_ne hne, Function.update_of_ne hne]
    exact h.slot q

theorem read (h : SameSlab ρ mem mem') (p : Ptr) :
    Agree (SameOrder ρ) (mem.read p) (mem'.read p) := by
  unfold SlabAllocator.read
  apply Agree.ite
  · rw [(h.slot p).live_eq]
  · exact fun hlive => .ok ((h.slot p).order hlive)
  · exact fun _ => .error _

theorem write (h : SameSlab ρ mem mem') (p : Ptr)
    (hf : ∀ o o', SameOrder ρ o o' → SameOrder ρ (f o) (f' o')) :
    Agree (SameSlab ρ) (mem.write p f) (mem'.write p f') := by
  unfold SlabAllocator.write
  apply Agree.ite
  · rw [(h.slot p).live_eq]
  · intro hlive
    have horder := hf _ _ ((h.slot p).order hlive)
    refine .ok ⟨h.capacity_eq, h.freeHead_eq, h.inUse_eq, h.update ⟨?_, ?_, fun _ => horder⟩⟩
    · exact (h.slot p).live_eq
    · exact horder.prev_eq
  · exact fun _ => .error _

/-- A slot that is handed out and filled at once. -/
theorem allocate_write (h : SameSlab ρ mem mem') {o o' : Order} (ho : SameOrder ρ o o') :
    mem'.allocate.1 = mem.allocate.1 ∧ ∀ p, mem.allocate.1 = some p →
      Agree (SameSlab ρ) (mem.allocate.2.write p fun _ => o)
        (mem'.allocate.2.write p fun _ => o') := by
  cases hhead : mem.freeHead with
  | none =>
    have halloc : mem.allocate = (none, mem) := by rw [allocate, hhead]
    have halloc' : mem'.allocate = (none, mem') := by rw [allocate, h.freeHead_eq, hhead]
    rw [halloc, halloc']
    exact ⟨rfl, fun p hp => absurd hp.symm (Option.some_ne_none p)⟩
  | some p =>
    have halloc : mem.allocate = (some p, mem.taken p) := by
      rw [allocate, hhead]
      rfl
    have halloc' : mem'.allocate = (some p, mem'.taken p) := by
      rw [allocate, h.freeHead_eq, hhead]
      rfl
    rw [halloc, halloc']
    refine ⟨rfl, fun q hq => ?_⟩
    obtain rfl := Option.some.inj hq
    have hlive : ((mem.taken p).storage p).live = true := by rw [taken_storage_self]
    have hlive' : ((mem'.taken p).storage p).live = true := by rw [taken_storage_self]
    rw [write_eq hlive, write_eq hlive']
    refine .ok ⟨h.capacity_eq, (h.slot p).prev_eq, congrArg (· + 1) h.inUse_eq, fun q => ?_⟩
    rcases eq_or_ne q p with rfl | hne
    · rw [put_storage_self, put_storage_self]
      exact ⟨hlive'.trans hlive.symm, ho.prev_eq, fun _ => ho⟩
    · rw [put_storage_of_ne _ hne, put_storage_of_ne _ hne, taken_storage_of_ne hne,
        taken_storage_of_ne hne]
      exact h.slot q

theorem deallocate (h : SameSlab ρ mem mem') (p : Ptr) :
    Agree (SameSlab ρ) (mem.deallocate p) (mem'.deallocate p) := by
  unfold SlabAllocator.deallocate
  apply Agree.ite
  · rw [(h.slot p).live_eq]
  · intro _
    refine .ok ⟨h.capacity_eq, rfl, congrArg (· - 1) h.inUse_eq, h.update ⟨rfl, ?_, nofun⟩⟩
    exact h.freeHead_eq
  · exact fun _ => .error _

theorem setQuantity (h : SameSlab ρ mem mem') (p : Ptr) (qty : Quantity) :
    Agree (SameSlab ρ) (mem.write p fun o => { o with quantity := qty })
      (mem'.write p fun o => { o with quantity := qty }) :=
  h.write p fun _ _ ho => { ho with quantity_eq := rfl }

theorem setLinks (h : SameSlab ρ mem mem') (p : Ptr) (v n : Option Ptr) :
    Agree (SameSlab ρ) (mem.write p fun o => { o with prev := v, next := n })
      (mem'.write p fun o => { o with prev := v, next := n }) :=
  h.write p fun _ _ ho => { ho with prev_eq := rfl, next_eq := rfl }

theorem setNext (h : SameSlab ρ mem mem') (p : Ptr) (n : Option Ptr) :
    Agree (SameSlab ρ) (mem.write p fun o => { o with next := n })
      (mem'.write p fun o => { o with next := n }) :=
  h.write p fun _ _ ho => { ho with next_eq := rfl }

theorem setPrev (h : SameSlab ρ mem mem') (p : Ptr) (v : Option Ptr) :
    Agree (SameSlab ρ) (mem.write p fun o => { o with prev := v })
      (mem'.write p fun o => { o with prev := v }) :=
  h.write p fun _ _ ho => { ho with prev_eq := rfl }

end SameSlab

/-! ### Lists -/

/-- The same list, in slabs with the same orders. -/
structure SameList (ρ : Relabel cfg cfg') (r r' : IntrusiveList × SlabAllocator) : Prop where
  list_eq : r'.1 = r.1
  slab : SameSlab ρ r.2 r'.2

namespace IntrusiveList

variable {mem mem' : SlabAllocator} (l : IntrusiveList)

theorem pushBack_agree (h : SameSlab ρ mem mem') (node : Ptr) :
    Agree (SameList ρ) (l.pushBack mem node) (l.pushBack mem' node) := by
  unfold pushBack
  apply Agree.bind (h.setLinks node l.tail none)
  intro mem₁ mem₁' h₁
  cases l.tail with
  | none => exact .ok ⟨rfl, h₁⟩
  | some t =>
    apply Agree.bind (h₁.setNext t (some node))
    exact fun mem₂ mem₂' h₂ => .ok ⟨rfl, h₂⟩

theorem linkNext_agree (h : SameSlab ρ mem mem') (p n : Option Ptr) :
    Agree (SameList ρ) (l.linkNext mem p n) (l.linkNext mem' p n) := by
  cases p with
  | none => exact .ok ⟨rfl, h⟩
  | some p =>
    apply Agree.bind (h.setNext p n)
    exact fun mem₁ mem₁' h₁ => .ok ⟨rfl, h₁⟩

theorem linkPrev_agree (h : SameSlab ρ mem mem') (p n : Option Ptr) :
    Agree (SameList ρ) (l.linkPrev mem p n) (l.linkPrev mem' p n) := by
  cases n with
  | none => exact .ok ⟨rfl, h⟩
  | some n =>
    apply Agree.bind (h.setPrev n p)
    exact fun mem₁ mem₁' h₁ => .ok ⟨rfl, h₁⟩

theorem unlink_agree (h : SameSlab ρ mem mem') (node : Ptr) :
    Agree (SameList ρ) (l.unlink mem node) (l.unlink mem' node) := by
  unfold unlink
  apply Agree.bind (h.read node)
  intro o o' ho
  rw [ho.prev_eq, ho.next_eq]
  apply Agree.bind (l.linkNext_agree h o.prev o.next)
  intro r r' hr
  show Agree _ (r.1.linkPrev r.2 o.prev o.next) (r'.1.linkPrev r'.2 o.prev o.next)
  rw [hr.list_eq]
  exact r.1.linkPrev_agree hr.slab o.prev o.next

end IntrusiveList

/-! ### Bitmaps and best levels -/

namespace OrderBook

/-- The same levels have their bits set. -/
structure SameBits (ρ : Relabel cfg cfg') (bits bits' : Bitmap) : Prop where
  within : bits.Within cfg.numLevels
  within' : bits'.Within cfg.numLevels
  test_eq : ∀ i < cfg.numLevels, bits'.test (ρ.level i) = bits.test i

/-- The same level, or none. -/
inductive SameIdx (ρ : Relabel cfg cfg') : ℕ → ℕ → Prop where
  | none : SameIdx ρ kNoBest kNoBest
  | level {i : ℕ} (h : i < cfg.numLevels) : SameIdx ρ i (ρ.level i)

theorem SameIdx.ne_iff {i i' : ℕ} (h : SameIdx ρ i i') :
    i' ≠ kNoBest ↔ i ≠ kNoBest := by
  cases h with
  | none => exact Iff.rfl
  | level hi =>
    exact iff_of_true (lt_kNoBest cfg (ρ.level_lt _ hi)) (lt_kNoBest cfg hi)

theorem SameIdx.eq_iff {i i' j : ℕ} (h : SameIdx ρ i i') (hj : j < cfg.numLevels) :
    i' = ρ.level j ↔ i = j := by
  cases h with
  | none =>
    exact iff_of_false (lt_kNoBest cfg (ρ.level_lt j hj)).symm
      (lt_kNoBest cfg hj).symm
  | level hi => exact ⟨fun heq => ρ.level_inj hi hj heq, fun heq => by rw [heq]⟩

namespace SameBits

variable {bits bits' : Bitmap} {i : ℕ} {s : Side}

theorem new (ρ : Relabel cfg cfg') : SameBits ρ (.new cfg.numLevels) (.new cfg'.numLevels) := by
  have hfresh := Bitmap.new_within (numLevels_add_lt cfg)
  rw [ρ.numLevels_eq]
  refine ⟨hfresh, hfresh, fun i _ => ?_⟩
  rw [Bitmap.test_new, Bitmap.test_new]

theorem set (h : SameBits ρ bits bits') (hi : i < cfg.numLevels) :
    SameBits ρ (bits.set i) (bits'.set (ρ.level i)) := by
  refine ⟨h.within.set hi, h.within'.set (ρ.level_lt i hi), fun j hj => ?_⟩
  have hname : ρ.level j = ρ.level i ↔ j = i := ⟨ρ.level_inj hj hi, fun heq => by rw [heq]⟩
  rw [Bitmap.test_set, Bitmap.test_set, h.test_eq j hj, decide_eq_decide.mpr hname]

theorem clear (h : SameBits ρ bits bits') (hi : i < cfg.numLevels) :
    SameBits ρ (bits.clear i) (bits'.clear (ρ.level i)) := by
  refine ⟨h.within.clear i, h.within'.clear (ρ.level i), fun j hj => ?_⟩
  have hname : ρ.level j ≠ ρ.level i ↔ j ≠ i :=
    not_congr ⟨ρ.level_inj hj hi, fun heq => by rw [heq]⟩
  rw [Bitmap.test_clear, Bitmap.test_clear, h.test_eq j hj, decide_eq_decide.mpr hname]

/-- **The next best level** is the same level, whichever way the bitmap is scanned. -/
theorem nextBest (h : SameBits ρ bits bits') (s : Side) (hi : i < cfg.numLevels) :
    SameIdx ρ (OrderBook.nextBest s bits i)
      (OrderBook.nextBest (ρ.side s) bits' (ρ.level i)) := by
  have hbest := nextBest_spec s h.within i
  have hbest' := nextBest_spec (ρ.side s) h.within' (ρ.level i)
  -- the set bits after the level are those under the other names
  have hset : ∀ j' , bits'.test j' = true ∧ Better (ρ.side s) (ρ.level i) j' ↔
      ∃ j < cfg.numLevels, ρ.level j = j' ∧ bits.test j = true ∧ Better s i j := by
    intro j'
    constructor
    · rintro ⟨hj', hbetter⟩
      obtain ⟨j, hj, rfl⟩ := ρ.level_onto j' (h.within'.lt j' hj')
      exact ⟨j, hj, rfl, h.test_eq j hj ▸ hj', (ρ.better_iff s i hi j hj).mp hbetter⟩
    · rintro ⟨j, hj, rfl, hbit, hbetter⟩
      exact ⟨(h.test_eq j hj).trans hbit, (ρ.better_iff s i hi j hj).mpr hbetter⟩
  simp only [hset] at hbest'
  rcases hbest with ⟨hnone, hall⟩ | ⟨hmem, hmax⟩
  · rw [hnone]
    rcases hbest' with ⟨hnone', -⟩ | ⟨⟨j, -, -, hj⟩, -⟩
    · rw [hnone']
      exact .none
    · exact absurd hj (hall j)
  · have hlt := h.within.lt _ hmem.1
    have hname : OrderBook.nextBest (ρ.side s) bits' (ρ.level i) =
        ρ.level (OrderBook.nextBest s bits i) := by
      apply BestOf.unique hbest'
      refine Or.inr ⟨⟨_, hlt, rfl, hmem⟩, ?_⟩
      rintro _ ⟨j, hj, rfl, hbit⟩ hbetter
      exact hmax j hbit ((ρ.better_iff s j hj _ hlt).mp hbetter)
    rw [hname]
    exact .level hlt

end SameBits

/-! ### Books -/

/-- **The book `b'` is the book `b` under the names of `ρ`.** -/
structure Relabels {M : Type} (ρ : Relabel cfg cfg') (b b' : OrderBook M) : Prop where
  cfg_eq : b.cfg = cfg
  cfg_eq' : b'.cfg = cfg'
  idMap_eq : b'.idMap = b.idMap
  slab : SameSlab ρ b.slab b'.slab
  level_eq : ∀ s, ∀ i < cfg.numLevels, b'.level (ρ.side s) (ρ.level i) = b.level s i
  bits : ∀ s, SameBits ρ (b.bitmap s) (b'.bitmap (ρ.side s))
  best : ∀ s, SameIdx ρ (b.bestIdx s) (b'.bestIdx (ρ.side s))

variable {M : Type} {b b' : OrderBook M} {s : Side} {i : ℕ}

theorem Relabels.setLevel (h : Relabels ρ b b') (hi : i < cfg.numLevels) (s : Side)
    (l : PriceLevel) :
    Relabels ρ (b.setLevel s i l) (b'.setLevel (ρ.side s) (ρ.level i) l) := by
  constructor
  · rw [cfg_setLevel, h.cfg_eq]
  · rw [cfg_setLevel, h.cfg_eq']
  · rw [idMap_setLevel, idMap_setLevel, h.idMap_eq]
  · rw [slab_setLevel, slab_setLevel]
    exact h.slab
  · intro t j hj
    by_cases htj : t = s ∧ j = i
    · rw [htj.1, htj.2, level_setLevel_self, level_setLevel_self]
    · have hne : t = s → j ≠ i := fun ht hji => htj ⟨ht, hji⟩
      have hne' : ρ.side t = ρ.side s → ρ.level j ≠ ρ.level i := by
        intro ht hji
        refine hne ?_ (ρ.level_inj hj hi hji)
        by_contra hts
        exact ρ.side_ne hts ht
      rw [level_setLevel_of_ne hne, level_setLevel_of_ne hne',
        h.level_eq t j hj]
  · intro t
    rw [bitmap_setLevel, bitmap_setLevel]
    exact h.bits t
  · intro t
    rw [bestIdx_setLevel, bestIdx_setLevel]
    exact h.best t

theorem Relabels.setIndex (h : Relabels ρ b b') (s : Side) {bits bits' : Bitmap} {k k' : ℕ}
    (hbits : SameBits ρ bits bits') (hk : SameIdx ρ k k') :
    Relabels ρ (b.setIndex s bits k) (b'.setIndex (ρ.side s) bits' k') := by
  constructor
  · rw [cfg_setIndex, h.cfg_eq]
  · rw [cfg_setIndex, h.cfg_eq']
  · rw [idMap_setIndex, idMap_setIndex, h.idMap_eq]
  · rw [slab_setIndex, slab_setIndex]
    exact h.slab
  · intro t j hj
    rw [level_setIndex, level_setIndex, h.level_eq t j hj]
  · intro t
    rcases eq_or_ne t s with rfl | hne
    · rwa [bitmap_setIndex_self, bitmap_setIndex_self]
    · rw [bitmap_setIndex_of_ne hne, bitmap_setIndex_of_ne (ρ.side_ne hne)]
      exact h.bits t
  · intro t
    rcases eq_or_ne t s with rfl | hne
    · rwa [bestIdx_setIndex_self, bestIdx_setIndex_self]
    · rw [bestIdx_setIndex_of_ne hne, bestIdx_setIndex_of_ne (ρ.side_ne hne)]
      exact h.best t

theorem Relabels.setSlab (h : Relabels ρ b b') {mem mem' : SlabAllocator}
    (hmem : SameSlab ρ mem mem') :
    Relabels ρ { b with slab := mem } { b' with slab := mem' } :=
  ⟨h.cfg_eq, h.cfg_eq', h.idMap_eq, hmem, h.level_eq, h.bits, h.best⟩

theorem Relabels.setIdMap (h : Relabels ρ b b') (m : M) :
    Relabels ρ { b with idMap := m } { b' with idMap := m } :=
  ⟨h.cfg_eq, h.cfg_eq', rfl, h.slab, h.level_eq, h.bits, h.best⟩

/-! ### Prices -/

section Levels

variable {p : Price} (hcfg : b.cfg = cfg)

include hcfg

theorem idxToPrice_of_atLevel (h : AtLevel cfg p i) : b.idxToPrice i = p := by
  subst hcfg
  exact idxToPrice_eq h.toInt_eq

theorem inRange_iff (hsmall : cfg.numLevels ≤ 2 ^ 31) :
    b.inRange p = true ↔ ∃ i, AtLevel cfg p i := by
  subst hcfg
  constructor
  · intro hp
    obtain ⟨i, hi, -, hprice, -⟩ := inRange_spec hp
    exact ⟨i, hi, hprice⟩
  · rintro ⟨i, hi, hprice⟩
    exact inRange_of_level hprice hi (by omega)

/-- The index of a price in range. -/
theorem priceToIdx_of_atLevel (hsmall : cfg.numLevels ≤ 2 ^ 31) (h : AtLevel cfg p i) :
    (b.priceToIdx p).toNat = i ∧ toSize (p - b.cfg.basePrice) = i := by
  have hp := (inRange_iff hcfg hsmall).mpr ⟨i, h⟩
  obtain ⟨j, hj, -, hprice, hidx, hsize⟩ := inRange_spec hp
  subst hcfg
  obtain rfl := h.unique ⟨hj, hprice⟩
  exact ⟨hidx, hsize⟩

end Levels

section Prices

variable {p : Price}

theorem Relabels.inRange_eq (h : Relabels ρ b b') (p : Price) :
    b'.inRange (ρ.price p) = b.inRange p := by
  rw [Bool.eq_iff_iff, inRange_iff h.cfg_eq ρ.small, inRange_iff h.cfg_eq' ρ.small']
  constructor
  · rintro ⟨j, hj⟩
    exact ρ.at_price p j hj
  · rintro ⟨i, hi⟩
    exact ⟨_, ρ.price_at p i hi⟩

/-- A price in range has a level, and the same level under the other names. -/
theorem Relabels.priceToIdx (h : Relabels ρ b b') (hp : b.inRange p = true) :
    ∃ i, AtLevel cfg p i ∧ (b.priceToIdx p).toNat = i ∧ toSize (p - b.cfg.basePrice) = i ∧
      (b'.priceToIdx (ρ.price p)).toNat = ρ.level i ∧
      toSize (ρ.price p - b'.cfg.basePrice) = ρ.level i := by
  obtain ⟨i, hi⟩ := (inRange_iff h.cfg_eq ρ.small).mp hp
  have hidx := priceToIdx_of_atLevel h.cfg_eq ρ.small hi
  have hidx' := priceToIdx_of_atLevel h.cfg_eq' ρ.small' (ρ.price_at p i hi)
  exact ⟨i, hi, hidx.1, hidx.2, hidx'.1, hidx'.2⟩

theorem Relabels.idxToPrice (h : Relabels ρ b b') (hi : i < cfg.numLevels) :
    b'.idxToPrice (ρ.level i) = ρ.price (b.idxToPrice i) := by
  obtain ⟨p, hp⟩ := ρ.priced i hi
  rw [idxToPrice_of_atLevel h.cfg_eq hp, idxToPrice_of_atLevel h.cfg_eq' (ρ.price_at p i hp)]

end Prices

/-! ### Updates of the index -/

theorem Relabels.occupy (h : Relabels ρ b b') (s : Side) (hi : i < cfg.numLevels) :
    Relabels ρ (b.occupy s i) (b'.occupy (ρ.side s) (ρ.level i)) := by
  obtain ⟨k, hk, hnew, hold⟩ := b.occupy_eq s i
  obtain ⟨k', hk', hnew', hold'⟩ := b'.occupy_eq (ρ.side s) (ρ.level i)
  rw [hk, hk']
  refine h.setIndex s ((h.bits s).set hi) ?_
  have hbest := h.best s
  generalize b.bestIdx s = j at hbest hnew hold
  generalize b'.bestIdx (ρ.side s) = j' at hbest hnew' hold'
  cases hbest with
  | none =>
    rw [hnew (Or.inl rfl), hnew' (Or.inl rfl)]
    exact .level hi
  | level hj =>
    have hne := lt_kNoBest cfg hj
    have hne' := lt_kNoBest cfg (ρ.level_lt j hj)
    by_cases hbetter : Better s i j
    · rw [hnew (Or.inr hbetter), hnew' (Or.inr ((ρ.better_iff s i hi j hj).mpr hbetter))]
      exact .level hi
    · rw [hold hne hbetter, hold' hne' (mt (ρ.better_iff s i hi j hj).mp hbetter)]
      exact .level hj

theorem Relabels.vacate (h : Relabels ρ b b') (s : Side) (hi : i < cfg.numLevels) :
    Relabels ρ (b.vacate s i) (b'.vacate (ρ.side s) (ρ.level i)) := by
  have hclear := (h.bits s).clear hi
  rw [vacate_eq, vacate_eq]
  apply h.setIndex s hclear
  by_cases hbest : b.bestIdx s = i
  · rw [if_pos hbest, if_pos (((h.best s).eq_iff hi).mpr hbest)]
    exact hclear.nextBest s hi
  · rw [if_neg hbest, if_neg (mt ((h.best s).eq_iff hi).mp hbest)]
    exact h.best s

theorem Relabels.advance (h : Relabels ρ b b') (side : Side) (hi : i < cfg.numLevels) :
    SameIdx ρ (b.advance side i).1 (b'.advance (ρ.side side) (ρ.level i)).1 ∧
      Relabels ρ (b.advance side i).2 (b'.advance (ρ.side side) (ρ.level i)).2 := by
  have hclear := (h.bits (opposite side)).clear hi
  have hnext := hclear.nextBest (opposite side) hi
  rw [advance_eq, advance_eq, ← ρ.side_opposite]
  exact ⟨hnext, h.setIndex _ hclear hnext⟩

end OrderBook

end Lob
