import Mathlib.Data.List.Pairwise
import Mathlib.Algebra.Order.Group.Int
import Lob.Queues
import Lob.Equiv.Bitmap

/-!
# Prices, levels and the best level

Prices that pass `inRange` are the levels `0, 1, …, numLevels - 1` (`inRange_spec`,
`idxToPrice_eq`).  The two sides of the book mirror each other: `level`, `bitmap` and `bestIdx`
read one side, `setLevel` and `setIndex` change one.

`Index b` says that the cached best level of each side is the best one whose bit is set.  Then the
visible levels are the best level followed by those that are visible after its bit is cleared
(`Index.visible_cons`), and `nextBest`, which both sides of the source spell out, restores the
cached best level when a bit is cleared (`Index.clear`).
-/

namespace Lob.OrderBook

variable {M : Type} {b : OrderBook M}

/-! ### Prices -/

theorem numLevels_lt (cfg : Config) : cfg.numLevels < 2 ^ 59 := by
  have := cfg.levels_fit
  omega

/-- The number of words of a bitmap is computed without a wrap. -/
theorem numLevels_add_lt (cfg : Config) : cfg.numLevels + 63 < 2 ^ 64 := by
  have := numLevels_lt cfg
  omega

theorem inRange_spec {p : Price} (h : b.inRange p = true) :
    ∃ i < b.cfg.numLevels, i < 2 ^ 31 ∧ p.toInt = b.cfg.basePrice.toInt + i ∧
      (b.priceToIdx p).toNat = i ∧ toSize (p - b.cfg.basePrice) = i := by
  rw [inRange, Bool.and_eq_true, decide_eq_true_eq, decide_eq_true_eq, Int32.le_iff_toInt_le,
    toSize] at h
  obtain ⟨hle, hlt⟩ := h
  have hn := numLevels_lt b.cfg
  have hp := p.toInt_lt
  have hb := b.cfg.basePrice.le_toInt
  -- a difference that wraps around is negative, and its cast is past every level
  have hsub : (p - b.cfg.basePrice).toInt = p.toInt - b.cfg.basePrice.toInt := by
    rw [Int32.toInt_sub, Int.bmod_eq_emod] at hlt ⊢
    split_ifs at hlt ⊢ <;> omega
  rw [hsub] at hlt
  have hlt' := (p - b.cfg.basePrice).toInt_lt
  refine ⟨(p.toInt - b.cfg.basePrice.toInt).toNat, by omega, by omega, by omega, ?_, ?_⟩
  · rw [priceToIdx, Int32.toNat_toUInt32_of_le]
    · exact congrArg Int.toNat hsub
    · rw [Int32.le_iff_toInt_le, hsub]
      exact Int.sub_nonneg_of_le hle
  · rw [toSize, hsub]
    omega

/-- The price of a level is in range.  Levels from `2^31` on have no price. -/
theorem inRange_of_level {p : Price} {i : ℕ} (h : p.toInt = b.cfg.basePrice.toInt + i)
    (hi : i < b.cfg.numLevels) (hsmall : i < 2 ^ 31) : b.inRange p = true := by
  have hsub : (p - b.cfg.basePrice).toInt = i := by
    rw [Int32.toInt_sub, h, Int.bmod_eq_emod]
    -- the difference does not wrap around, as the level is below `2 ^ 31`
    split_ifs <;> omega
  rw [inRange, Bool.and_eq_true, decide_eq_true_eq, decide_eq_true_eq, Int32.le_iff_toInt_le,
    toSize, hsub]
  omega

theorem idxToPrice_eq {p : Price} {i : ℕ} (h : p.toInt = b.cfg.basePrice.toInt + i) :
    b.idxToPrice i = p := by
  have hp := p.toInt_lt
  have hb := p.le_toInt
  rw [← Int32.toInt_inj, idxToPrice, Int32.toInt_add, Int32.toInt_ofNat', Int.add_bmod_bmod,
    ← h, Int.bmod_eq_emod, show Int32.size = 2 ^ 32 from rfl]
  split_ifs <;> omega

/-- The range is read off the configuration. -/
theorem inRange_congr {b' : OrderBook M} (hcfg : b'.cfg = b.cfg) (p : Price) :
    b'.inRange p = b.inRange p := by
  unfold inRange
  rw [hcfg]

theorem priceToIdx_congr {b' : OrderBook M} (hcfg : b'.cfg = b.cfg) (p : Price) :
    b'.priceToIdx p = b.priceToIdx p := by
  unfold priceToIdx
  rw [hcfg]

/-! ### One side of the book -/

/-- The bit of level `i`. -/
def bit (b : OrderBook M) (s : Side) (i : ℕ) : Bool := (b.bitmap s).test i

/-- Another bitmap and another cached best level for side `s`. -/
def setIndex (b : OrderBook M) (s : Side) (bits : Bitmap) (best : ℕ) : OrderBook M :=
  match s with
  | .buy => { b with bidBitmap := bits, bestBidIdx := best }
  | .sell => { b with askBitmap := bits, bestAskIdx := best }

section Sides

variable {s t : Side} {i j k : ℕ} {l : PriceLevel} {bits : Bitmap}

@[simp] theorem level_setLevel_self : (b.setLevel s i l).level s i = l := by
  cases s <;> simp [level, setLevel]

theorem level_setLevel_of_ne (h : t = s → j ≠ i) : (b.setLevel s i l).level t j = b.level t j := by
  cases s <;> cases t <;> simp_all [level, setLevel]

@[simp] theorem cfg_setLevel : (b.setLevel s i l).cfg = b.cfg := by cases s <;> rfl

@[simp] theorem slab_setLevel : (b.setLevel s i l).slab = b.slab := by cases s <;> rfl

@[simp] theorem idMap_setLevel : (b.setLevel s i l).idMap = b.idMap := by cases s <;> rfl

@[simp] theorem bitmap_setLevel : (b.setLevel s i l).bitmap t = b.bitmap t := by
  cases s <;> cases t <;> rfl

@[simp] theorem bestIdx_setLevel : (b.setLevel s i l).bestIdx t = b.bestIdx t := by
  cases s <;> cases t <;> rfl

@[simp] theorem level_setIndex : (b.setIndex s bits k).level t j = b.level t j := by
  cases s <;> cases t <;> rfl

@[simp] theorem cfg_setIndex : (b.setIndex s bits k).cfg = b.cfg := by cases s <;> rfl

@[simp] theorem slab_setIndex : (b.setIndex s bits k).slab = b.slab := by cases s <;> rfl

@[simp] theorem idMap_setIndex : (b.setIndex s bits k).idMap = b.idMap := by cases s <;> rfl

@[simp] theorem bitmap_setIndex_self : (b.setIndex s bits k).bitmap s = bits := by cases s <;> rfl

@[simp] theorem bestIdx_setIndex_self : (b.setIndex s bits k).bestIdx s = k := by cases s <;> rfl

theorem bitmap_setIndex_of_ne (h : t ≠ s) : (b.setIndex s bits k).bitmap t = b.bitmap t := by
  cases s <;> cases t <;> first | rfl | exact absurd rfl h

theorem bestIdx_setIndex_of_ne (h : t ≠ s) : (b.setIndex s bits k).bestIdx t = b.bestIdx t := by
  cases s <;> cases t <;> first | rfl | exact absurd rfl h

end Sides

/-! ### Books with the same index -/

/-- What a step at one level leaves alone. -/
structure SameIndex (b b' : OrderBook M) : Prop where
  cfg_eq : b'.cfg = b.cfg
  bitmap_eq : ∀ t, b'.bitmap t = b.bitmap t
  bestIdx_eq : ∀ t, b'.bestIdx t = b.bestIdx t

theorem SameIndex.refl (b : OrderBook M) : SameIndex b b := ⟨rfl, fun _ => rfl, fun _ => rfl⟩

theorem SameIndex.trans {b' b'' : OrderBook M} (h : SameIndex b b') (h' : SameIndex b' b'') :
    SameIndex b b'' :=
  ⟨h'.cfg_eq.trans h.cfg_eq, fun t => (h'.bitmap_eq t).trans (h.bitmap_eq t),
    fun t => (h'.bestIdx_eq t).trans (h.bestIdx_eq t)⟩

theorem SameIndex.bit_eq {b' : OrderBook M} (h : SameIndex b b') (t : Side) (j : ℕ) :
    b'.bit t j = b.bit t j := by
  unfold bit
  rw [h.bitmap_eq]

theorem sameIndex_remap (slab : SlabAllocator) (m : M) :
    SameIndex b { b with slab := slab, idMap := m } :=
  ⟨rfl, fun t => by cases t <;> rfl, fun t => by cases t <;> rfl⟩

theorem sameIndex_setLevel (slab : SlabAllocator) (m : M) (s : Side) (i : ℕ) (l : PriceLevel) :
    SameIndex b ({ b with slab := slab, idMap := m }.setLevel s i l) :=
  (sameIndex_remap slab m).trans
    ⟨cfg_setLevel, fun _ => bitmap_setLevel, fun _ => bestIdx_setLevel⟩

/-! ### The order of the levels -/

theorem better_ne {s : Side} {i j : ℕ} (h : Better s i j) : i ≠ j := by
  cases s with
  | buy => exact Nat.ne_of_gt h
  | sell => exact Nat.ne_of_lt h

theorem better_asymm {s : Side} {i j : ℕ} (h : Better s i j) : ¬Better s j i := by
  cases s <;> exact Nat.lt_asymm h

theorem better_trans {s : Side} {i j k : ℕ} (h : Better s i j) (h' : Better s j k) :
    Better s i k := by
  cases s with
  | buy => exact Nat.lt_trans h' h
  | sell => exact Nat.lt_trans h h'

theorem better_or_eq_or_better (s : Side) (i j : ℕ) : Better s i j ∨ i = j ∨ Better s j i := by
  cases s with
  | buy => exact (Nat.lt_trichotomy j i).imp_right fun h => h.imp_left Eq.symm
  | sell => exact Nat.lt_trichotomy i j

@[simp] theorem mem_ladder {s : Side} {n i : ℕ} : i ∈ ladder s n ↔ i < n := by
  cases s <;> simp [ladder]

theorem ladder_pairwise (s : Side) (n : ℕ) : (ladder s n).Pairwise (Better s) := by
  cases s with
  | buy => exact List.pairwise_reverse.mpr (List.pairwise_lt_range)
  | sell => exact List.pairwise_lt_range

theorem visible_pairwise (b : OrderBook M) (s : Side) : (b.visible s).Pairwise (Better s) :=
  (ladder_pairwise s _).filter _

theorem length_visible_le (b : OrderBook M) (s : Side) :
    (b.visible s).length ≤ b.cfg.numLevels := by
  refine (List.length_filter_le _ _).trans ?_
  cases s <;> simp [ladder]

theorem pastLimit_iff {side : Side} {limit i : ℕ} :
    pastLimit side limit i = true ↔ limit ≠ kNoBest ∧ Better (opposite side) limit i := by
  cases side with
  | buy => simp [pastLimit, opposite, Better]
  | sell => simp [pastLimit, opposite, Better]

/-- The limit of a market order. -/
theorem pastLimit_kNoBest (side : Side) (i : ℕ) : pastLimit side kNoBest i = false :=
  Bool.eq_false_iff.mpr fun hpast => (pastLimit_iff.mp hpast).1 rfl

/-- A level past the limit has only such levels after it. -/
theorem pastLimit_of_better {side : Side} {limit i j : ℕ} (h : Better (opposite side) i j)
    (hi : pastLimit side limit i = true) : pastLimit side limit j = true := by
  obtain ⟨hlimit, hpast⟩ := pastLimit_iff.mp hi
  exact pastLimit_iff.mpr ⟨hlimit, better_trans hpast h⟩

/-! ### The cached best level -/

/-- `k` is the best level with the property `P`, or `kNoBest` if there is none. -/
def BestOf (s : Side) (P : ℕ → Prop) (k : ℕ) : Prop :=
  (k = kNoBest ∧ ∀ i, ¬P i) ∨ (P k ∧ ∀ i, P i → ¬Better s i k)

theorem BestOf.unique {s : Side} {P : ℕ → Prop} {i j : ℕ} (h : BestOf s P i)
    (h' : BestOf s P j) : i = j := by
  rcases h with ⟨rfl, hnone⟩ | ⟨hi, hbest⟩
  · rcases h' with ⟨rfl, -⟩ | ⟨hj, -⟩
    · rfl
    · exact absurd hj (hnone j)
  · rcases h' with ⟨rfl, hnone⟩ | ⟨hj, hbest'⟩
    · exact absurd hi (hnone i)
    · rcases better_or_eq_or_better s i j with hlt | heq | hgt
      · exact absurd hlt (hbest' i hi)
      · exact heq
      · exact absurd hgt (hbest j hj)

structure Index (b : OrderBook M) : Prop where
  within : ∀ s, (b.bitmap s).Within b.cfg.numLevels
  best : ∀ s, BestOf s (fun i => b.bit s i = true) (b.bestIdx s)

theorem SameIndex.index {b' : OrderBook M} (hsame : SameIndex b b') (h : Index b) :
    Index b' := by
  constructor
  · intro s
    rw [hsame.bitmap_eq, hsame.cfg_eq]
    exact h.within s
  · intro s
    simp only [hsame.bit_eq, hsame.bestIdx_eq]
    exact h.best s

/-- The next best level after level `i`, as `remove_from_book_` and `match_` look it up. -/
def nextBest (s : Side) (bits : Bitmap) (i : ℕ) : ℕ :=
  match s with
  | .buy =>
    if i = 0 then kNoBest
    else
      let p := bits.findPrevSet (i - 1)
      if p = Bitmap.kNotFound then kNoBest else p
  | .sell =>
    let n := bits.findNextSet (i + 1)
    if n = Bitmap.kNotFound then kNoBest else n

theorem nextBest_sell (bits : Bitmap) (i : ℕ) :
    nextBest .sell bits i = bits.findNextSet (i + 1) := by
  unfold nextBest
  dsimp only
  split_ifs with h
  · exact h.symm
  · rfl

theorem nextBest_buy (bits : Bitmap) (i : ℕ) :
    nextBest .buy bits i = if i = 0 then kNoBest else bits.findPrevSet (i - 1) := by
  unfold nextBest
  dsimp only
  split_ifs with h0 h
  · rfl
  · exact h.symm
  · rfl

theorem kNoBest_gt (cfg : Config) : cfg.numLevels < kNoBest := by
  have := numLevels_lt cfg
  have : kNoBest = 2 ^ 64 - 1 := rfl
  omega

theorem lt_kNoBest (cfg : Config) {i : ℕ} (h : i < cfg.numLevels) : i ≠ kNoBest :=
  Nat.ne_of_lt (h.trans (kNoBest_gt cfg))

/-- The best set bit after level `i`. -/
theorem nextBest_spec (s : Side) {bits : Bitmap} {cfg : Config}
    (hb : bits.Within cfg.numLevels) (i : ℕ) :
    BestOf s (fun j => bits.test j = true ∧ Better s i j) (nextBest s bits i) := by
  cases s with
  | buy =>
    rw [nextBest]
    by_cases h0 : i = 0
    · rw [if_pos h0]
      exact Or.inl ⟨rfl, fun j hj => Nat.not_lt_zero j (h0 ▸ hj.2)⟩
    · rw [if_neg h0]
      rcases Bitmap.findPrevSet_spec hb (i - 1) with ⟨hnone, hall⟩ | hgr
      · refine Or.inl ⟨if_pos hnone, fun j hj => ?_⟩
        have hlt : j < i := hj.2
        exact absurd hj.1 (by rw [hall j (by omega)]; decide)
      · have hset := hgr.1.2
        have hlt : bits.findPrevSet (i - 1) < i := by
          have := hgr.1.1
          omega
        have hne : bits.findPrevSet (i - 1) ≠ Bitmap.kNotFound := lt_kNoBest cfg (hb.lt _ hset)
        dsimp only
        rw [if_neg hne]
        refine Or.inr ⟨⟨hset, hlt⟩, fun j hj hbetter => ?_⟩
        have hji : j < i := hj.2
        exact absurd (hgr.2 ⟨by omega, hj.1⟩) (not_le.mpr hbetter)
  | sell =>
    rw [nextBest]
    rcases Bitmap.findNextSet_spec hb (i + 1) with ⟨hnone, hall⟩ | hle
    · refine Or.inl ⟨if_pos hnone, fun j hj => ?_⟩
      exact absurd hj.1 (by rw [hall j hj.2]; decide)
    · have hset := hle.1.2
      have hne : bits.findNextSet (i + 1) ≠ Bitmap.kNotFound := lt_kNoBest cfg (hb.lt _ hset)
      rw [if_neg hne]
      exact Or.inr ⟨⟨hset, hle.1.1⟩,
        fun j hj hbetter => absurd (hle.2 ⟨hj.2, hj.1⟩) (not_le.mpr hbetter)⟩

theorem Index.bit_lt (h : Index b) {s : Side} {i : ℕ} (hi : b.bit s i = true) :
    i < b.cfg.numLevels := (h.within s).lt i hi

theorem Index.bit_best (h : Index b) {s : Side} (hne : b.bestIdx s ≠ kNoBest) :
    b.bit s (b.bestIdx s) = true := ((h.best s).resolve_left fun hn => hne hn.1).1

theorem Index.bestIdx_ne (h : Index b) {s : Side} {i : ℕ} (hi : b.bit s i = true) :
    b.bestIdx s ≠ kNoBest := by
  rcases h.best s with hnone | hbest
  · exact absurd hi (hnone.2 i)
  · exact lt_kNoBest b.cfg (h.bit_lt hbest.1)

/-- A set bit other than the best one is a worse level. -/
theorem Index.better_of_ne (h : Index b) {s : Side} {i : ℕ} (hi : b.bit s i = true)
    (hne : i ≠ b.bestIdx s) : Better s (b.bestIdx s) i := by
  have hbest := ((h.best s).resolve_left fun hn => h.bestIdx_ne hi hn.1).2 i hi
  rcases better_or_eq_or_better s (b.bestIdx s) i with hlt | heq | hgt
  · exact hlt
  · exact absurd heq.symm hne
  · exact absurd hgt hbest

/-- If another level shows (`c`) that is not the best one, the best level stays as it is. -/
theorem Index.bestIdx_eq {b' : OrderBook M} {s : Side} {i : ℕ} {c : Prop} (h : Index b)
    (h' : Index b')
    (hbit : ∀ j, b'.bit s j = true ↔ b.bit s j = true ∨ (c ∧ j = i))
    (hrank : c → b.bit s i = true ∨ ∃ j, Better s j i ∧ b.bit s j = true) :
    b'.bestIdx s = b.bestIdx s := by
  apply (h'.best s).unique
  rcases h.best s with ⟨hnone, hall⟩ | ⟨hbest, hmax⟩
  · refine Or.inl ⟨hnone, fun j hj => ?_⟩
    rcases (hbit j).mp hj with hj | ⟨hc, -⟩
    · exact hall j hj
    · rcases hrank hc with hi | ⟨k, -, hk⟩
      · exact hall i hi
      · exact hall k hk
  · refine Or.inr ⟨(hbit _).mpr (Or.inl hbest), fun k hk hbetter => ?_⟩
    rcases (hbit k).mp hk with hk | ⟨hc, rfl⟩
    · exact hmax k hk hbetter
    · rcases hrank hc with hi | ⟨j, hji, hj⟩
      · exact hmax _ hi hbetter
      · exact hmax j hj (better_trans hji hbetter)

/-- Changing one side of the index. -/
theorem Index.setIndex (h : Index b) {s : Side} {bits : Bitmap} {k : ℕ}
    (hw : bits.Within b.cfg.numLevels) (hk : BestOf s (fun i => bits.test i = true) k) :
    Index (b.setIndex s bits k) := by
  constructor
  · intro t
    rw [cfg_setIndex]
    rcases eq_or_ne t s with rfl | hne
    · rwa [bitmap_setIndex_self]
    · rw [bitmap_setIndex_of_ne hne]
      exact h.within t
  · intro t
    rcases eq_or_ne t s with rfl | hne
    · simpa only [bit, bitmap_setIndex_self, bestIdx_setIndex_self] using hk
    · simp only [bit, bitmap_setIndex_of_ne hne, bestIdx_setIndex_of_ne hne]
      exact h.best t

/-- Clearing the bit of the best level and looking up the next one. -/
theorem Index.clear (h : Index b) (s : Side) :
    Index (b.setIndex s ((b.bitmap s).clear (b.bestIdx s))
      (nextBest s ((b.bitmap s).clear (b.bestIdx s)) (b.bestIdx s))) := by
  have hw := (h.within s).clear (b.bestIdx s)
  -- what stays set comes after the best level, so that the scan from there misses nothing
  have hafter : ∀ j, ((b.bitmap s).clear (b.bestIdx s)).test j = true ↔
      ((b.bitmap s).clear (b.bestIdx s)).test j = true ∧ Better s (b.bestIdx s) j := by
    intro j
    refine (and_iff_left_of_imp fun hj => ?_).symm
    obtain ⟨hj, hne⟩ := Bitmap.test_clear_iff.mp hj
    exact h.better_of_ne hj hne
  have hbest := nextBest_spec s hw (b.bestIdx s)
  simp only [← hafter] at hbest
  exact h.setIndex hw hbest

/-! ### The visible levels -/

theorem mem_visible (h : Index b) {s : Side} {i : ℕ} : i ∈ b.visible s ↔ b.bit s i = true := by
  rw [visible, List.mem_filter, mem_ladder]
  exact and_iff_right_of_imp fun hi => h.bit_lt hi

theorem Index.visible_nil (h : Index b) {s : Side} (hs : b.bestIdx s = kNoBest) :
    b.visible s = [] := by
  refine List.eq_nil_iff_forall_not_mem.mpr fun i hi => ?_
  exact h.bestIdx_ne ((mem_visible h).mp hi) hs

/-- **The best level comes first**, followed by the levels that are visible without it. -/
theorem Index.visible_cons (h : Index b) {s : Side} (hs : b.bestIdx s ≠ kNoBest) (k : ℕ) :
    b.visible s = b.bestIdx s ::
      (b.setIndex s ((b.bitmap s).clear (b.bestIdx s)) k).visible s := by
  have hmem : b.bestIdx s ∈ b.visible s := (mem_visible h).mpr (h.bit_best hs)
  have hpair := b.visible_pairwise s
  cases hv : b.visible s with
  | nil => rw [hv] at hmem; cases hmem
  | cons i ls =>
    rw [hv, List.pairwise_cons] at hpair
    have hi : b.bit s i = true := (mem_visible h).mp (hv ▸ List.mem_cons_self)
    -- the best level is visible, and the first of the list is better than any other on it
    have hbest : i = b.bestIdx s := by
      by_contra hne
      have hlt := h.better_of_ne hi hne
      rw [hv] at hmem
      rcases List.mem_cons.mp hmem with heq | hmem
      · exact hne heq.symm
      · exact better_asymm hlt (hpair.1 _ hmem)
    subst hbest
    congr 1
    -- clearing the bit drops the first level and no other
    have hls : ls.filter (fun j => decide (j ≠ b.bestIdx s)) = ls :=
      List.filter_eq_self.mpr fun j hj => decide_eq_true (better_ne (hpair.1 j hj)).symm
    have hfilter : (b.visible s).filter (fun j => decide (j ≠ b.bestIdx s)) = ls := by
      rw [hv, List.filter_cons, if_neg (by simp), hls]
    rw [← hfilter, visible, visible, cfg_setIndex, bitmap_setIndex_self, List.filter_filter]
    refine List.filter_congr fun j _ => ?_
    rw [Bitmap.test_clear, Bool.and_comm]

/-- The first visible level is the best one. -/
theorem Index.bestIdx_of_visible (h : Index b) {s : Side} {i : ℕ} {ls : List ℕ}
    (hv : b.visible s = i :: ls) : b.bestIdx s ≠ kNoBest ∧ i = b.bestIdx s ∧
      ∀ k, (b.setIndex s ((b.bitmap s).clear i) k).visible s = ls := by
  have hbit : b.bit s i = true := (mem_visible h).mp (hv ▸ List.mem_cons_self)
  have hne := h.bestIdx_ne hbit
  have hcons := fun k => h.visible_cons hne k
  rw [hv] at hcons
  obtain rfl : i = b.bestIdx s := (List.cons.inj (hcons 0)).1
  exact ⟨hne, rfl, fun k => (List.cons.inj (hcons k)).2.symm⟩

theorem visible_head (hindex : Index b) (s : Side) :
    (b.visible s).head?.getD kNoBest = b.bestIdx s := by
  by_cases hne : b.bestIdx s = kNoBest
  · rw [hindex.visible_nil hne, hne]
    rfl
  · rw [hindex.visible_cons hne 0]
    rfl

/-- The level after level `i` on the list is the next best one. -/
theorem Index.nextBest_eq (h : Index b) {s : Side} {pre ls : List ℕ} {i : ℕ}
    (hv : b.visible s = pre ++ i :: ls) :
    nextBest s (b.bitmap s) i = ls.head?.getD kNoBest := by
  have hpair := b.visible_pairwise s
  have hmem := fun j => mem_visible h (s := s) (i := j)
  rw [hv] at hpair hmem
  obtain ⟨-, hi, hpre⟩ := List.pairwise_append.mp hpair
  -- the set bits after `i` are those of the rest of the list
  have hls : ∀ j, (b.bitmap s).test j = true ∧ Better s i j ↔ j ∈ ls := by
    intro j
    refine (and_congr_left fun hbetter => (hmem j).symm).trans ⟨fun hj => ?_, fun hj => ?_⟩
    · rcases List.mem_append.mp hj.1 with hj' | hj'
      · exact absurd hj.2 (better_asymm (hpre j hj' i List.mem_cons_self))
      · rcases List.mem_cons.mp hj' with rfl | hj'
        · exact absurd rfl (better_ne hj.2)
        · exact hj'
    · exact ⟨by simp [hj], (List.pairwise_cons.mp hi).1 j hj⟩
  have hbest := nextBest_spec s (h.within s) i
  simp only [hls] at hbest
  cases ls with
  | nil => exact (hbest.resolve_right fun hr => by cases hr.1).1
  | cons j ls =>
    obtain ⟨hk, hk'⟩ := hbest.resolve_left fun hl => hl.2 j List.mem_cons_self
    rcases List.mem_cons.mp hk with heq | hk
    · exact heq
    · have hj := (List.pairwise_cons.mp hi).2
      exact absurd ((List.pairwise_cons.mp hj).1 _ hk) (hk' j List.mem_cons_self)

/-! ### The updates of the source -/

theorem advance_eq (aggressorSide : Side) (i : ℕ) :
    b.advance aggressorSide i =
      (nextBest (opposite aggressorSide) ((b.bitmap (opposite aggressorSide)).clear i) i,
        b.setIndex (opposite aggressorSide) ((b.bitmap (opposite aggressorSide)).clear i)
          (nextBest (opposite aggressorSide)
            ((b.bitmap (opposite aggressorSide)).clear i) i)) := by
  cases aggressorSide with
  | buy => rfl
  | sell =>
    by_cases hi : i = 0
    · simp only [advance, opposite, nextBest, setIndex, bitmap, if_pos hi]
    · simp only [advance, opposite, nextBest, setIndex, bitmap, if_neg hi]
      rfl

theorem vacate_eq (s : Side) (i : ℕ) :
    b.vacate s i = b.setIndex s ((b.bitmap s).clear i)
      (if b.bestIdx s = i then nextBest s ((b.bitmap s).clear i) i else b.bestIdx s) := by
  cases s <;> rfl

theorem occupy_eq (s : Side) (i : ℕ) :
    ∃ k, b.occupy s i = b.setIndex s ((b.bitmap s).set i) k ∧
      (b.bestIdx s = kNoBest ∨ Better s i (b.bestIdx s) → k = i) ∧
      (b.bestIdx s ≠ kNoBest → ¬Better s i (b.bestIdx s) → k = b.bestIdx s) := by
  cases s with
  | buy => exact ⟨_, rfl, fun h => if_pos h, fun h h' => if_neg (not_or.mpr ⟨h, h'⟩)⟩
  | sell => exact ⟨_, rfl, fun h => if_pos h, fun h h' => if_neg (not_or.mpr ⟨h, h'⟩)⟩

theorem SameIndex.setIndex {b' : OrderBook M} (h : SameIndex b b') (s : Side) (bits : Bitmap)
    (k : ℕ) : SameIndex (b.setIndex s bits k) (b'.setIndex s bits k) := by
  refine ⟨?_, fun t => ?_, fun t => ?_⟩
  · rw [cfg_setIndex, cfg_setIndex, h.cfg_eq]
  · rcases eq_or_ne t s with rfl | hne
    · rw [bitmap_setIndex_self, bitmap_setIndex_self]
    · rw [bitmap_setIndex_of_ne hne, bitmap_setIndex_of_ne hne, h.bitmap_eq]
  · rcases eq_or_ne t s with rfl | hne
    · rw [bestIdx_setIndex_self, bestIdx_setIndex_self]
    · rw [bestIdx_setIndex_of_ne hne, bestIdx_setIndex_of_ne hne, h.bestIdx_eq]

theorem SameIndex.occupy {b' : OrderBook M} (h : SameIndex b b') (s : Side) (i : ℕ) :
    SameIndex (b.occupy s i) (b'.occupy s i) := by
  have hset := h.setIndex s ((b'.bitmap s).set i)
  have hbits := h.bitmap_eq s
  have hbest := h.bestIdx_eq s
  cases s with
  | buy =>
    specialize hset (if b'.bestBidIdx = kNoBest ∨ i > b'.bestBidIdx then i else b'.bestBidIdx)
    unfold OrderBook.occupy
    change b'.bidBitmap = b.bidBitmap at hbits
    change b'.bestBidIdx = b.bestBidIdx at hbest
    rw [← hbits, ← hbest]
    exact hset
  | sell =>
    specialize hset (if b'.bestAskIdx = kNoBest ∨ i < b'.bestAskIdx then i else b'.bestAskIdx)
    unfold OrderBook.occupy
    change b'.askBitmap = b.askBitmap at hbits
    change b'.bestAskIdx = b.bestAskIdx at hbest
    rw [← hbits, ← hbest]
    exact hset

theorem SameIndex.vacate {b' : OrderBook M} (h : SameIndex b b') (s : Side) (i : ℕ) :
    SameIndex (b.vacate s i) (b'.vacate s i) := by
  rw [vacate_eq, vacate_eq, h.bitmap_eq, h.bestIdx_eq]
  exact h.setIndex s _ _

theorem bit_setIndex_clear (s t : Side) (i j k : ℕ) :
    (b.setIndex s ((b.bitmap s).clear i) k).bit t j = true ↔
      b.bit t j = true ∧ ¬(t = s ∧ j = i) := by
  rcases eq_or_ne t s with rfl | hne
  · simp [bit, bitmap_setIndex_self, Bitmap.test_clear]
  · simp [bit, bitmap_setIndex_of_ne hne, hne]

theorem SameIndex.bit_cleared {b₁ : OrderBook M} (hsame : SameIndex b b₁) (s t : Side)
    (i j k : ℕ) : (b₁.setIndex s ((b₁.bitmap s).clear i) k).bit t j = true ↔
      b.bit t j = true ∧ ¬(t = s ∧ j = i) := by
  rw [bit_setIndex_clear, hsame.bit_eq]

theorem bit_occupy (s t : Side) (i j : ℕ) :
    (b.occupy s i).bit t j = true ↔ b.bit t j = true ∨ (t = s ∧ j = i) := by
  obtain ⟨k, hk, -⟩ := b.occupy_eq s i
  rw [hk]
  rcases eq_or_ne t s with rfl | hne
  · simp [bit, bitmap_setIndex_self, Bitmap.test_set]
  · simp [bit, bitmap_setIndex_of_ne hne, hne]

theorem Index.vacate (h : Index b) (s : Side) (i : ℕ) : Index (b.vacate s i) := by
  rw [vacate_eq]
  by_cases hi : b.bestIdx s = i
  · rw [if_pos hi, ← hi]
    exact h.clear s
  · -- the best level stays, and stays the best
    rw [if_neg hi]
    refine h.setIndex ((h.within s).clear i) ?_
    rcases h.best s with ⟨hno, hnone⟩ | ⟨hset, hbest⟩
    · exact Or.inl ⟨hno, fun j hj => hnone j (Bitmap.test_clear_iff.mp hj).1⟩
    · exact Or.inr ⟨Bitmap.test_clear_iff.mpr ⟨hset, hi⟩,
        fun j hj => hbest j (Bitmap.test_clear_iff.mp hj).1⟩

theorem Index.occupy (h : Index b) (s : Side) {i : ℕ} (hi : i < b.cfg.numLevels) :
    Index (b.occupy s i) := by
  obtain ⟨k, hk, hnew, hold⟩ := b.occupy_eq s i
  rw [hk]
  refine h.setIndex ((h.within s).set hi) (Or.inr ?_)
  simp only [Bitmap.test_set_iff]
  -- the new level becomes the best one, or it is no better than that
  by_cases hbest : b.bestIdx s = kNoBest ∨ Better s i (b.bestIdx s)
  · obtain rfl := hnew hbest
    refine ⟨Or.inr rfl, fun j hj hlt => ?_⟩
    rcases hj with hj | rfl
    · rcases hbest with hno | hbest
      · exact h.bestIdx_ne hj hno
      · have := better_trans hlt hbest
        exact ((h.best s).resolve_left fun hn => h.bestIdx_ne hj hn.1).2 j hj this
    · exact better_ne hlt rfl
  · obtain ⟨hno, hbest⟩ := not_or.mp hbest
    obtain rfl := hold hno hbest
    refine ⟨Or.inl (h.bit_best hno), fun j hj => ?_⟩
    rcases hj with hj | rfl
    · exact ((h.best s).resolve_left fun hn => hno hn.1).2 j hj
    · exact hbest

/-- **Vacating a level that was occupied just before** leaves the index as it was: the scan from
the level finds the best level that there was. -/
theorem Index.vacate_occupy (h : Index b) {s : Side} {i : ℕ} (hi : i < b.cfg.numLevels)
    (hbit : b.bit s i = false) : SameIndex b ((b.occupy s i).vacate s i) := by
  have hindex : Index ((b.occupy s i).vacate s i) := (h.occupy s hi).vacate s i
  obtain ⟨k, hk, -⟩ := b.occupy_eq s i
  have hbits : ∀ t, ((b.occupy s i).vacate s i).bitmap t = b.bitmap t := by
    intro t
    rw [vacate_eq, hk]
    rcases eq_or_ne t s with rfl | hne
    · rw [bitmap_setIndex_self, bitmap_setIndex_self, Bitmap.clear_set hbit]
    · rw [bitmap_setIndex_of_ne hne, bitmap_setIndex_of_ne hne]
  refine ⟨?_, hbits, fun t => (hindex.best t).unique ?_⟩
  · rw [vacate_eq, hk, cfg_setIndex, cfg_setIndex]
  · -- the best index is that of the set bits
    unfold bit
    rw [hbits]
    exact h.best t

end Lob.OrderBook
