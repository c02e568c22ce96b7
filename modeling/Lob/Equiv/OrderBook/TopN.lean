import Lob.Equiv.OrderBook.Depth
import Lob.Equiv.OrderBook.HiddenLevel

/-!
# What `top_n` lists

`top_n` is to list the levels with orders, best first, with the number of orders and the total of
each (`BestFirst`).  It does, for every number of levels that is asked for, if and only if each
level with orders shows and has fewer than `2^32` of them (`Reachable.bestFirst_iff`).
-/

namespace Lob.OrderBook

open Queues

variable {M : Type} {b : OrderBook M} {A : Queues} {s : Side} {i n : ℕ} {l : LevelSnapshot}

/-- The levels of side `s` with orders, best first. -/
def occupied (b : OrderBook M) (s : Side) : List ℕ :=
  (ladder s b.cfg.numLevels).filter fun i => b.queue s i ≠ []

/-- `best_bid` or `best_ask`. -/
def best (b : OrderBook M) (s : Side) : Price :=
  match s with
  | .buy => b.bestBid
  | .sell => b.bestAsk

/-- The price `p` is a better one than the price `q` for those who trade against side `s`. -/
def Ahead (s : Side) (p q : Price) : Prop :=
  match s with
  | .buy => q < p
  | .sell => p < q

/-- **The exact depth**, best first: `top_n` writes the first `n` levels with orders. -/
structure BestFirst (b : OrderBook M) (s : Side) (n : ℕ) : Prop where
  length_eq : (b.topN s n).length = min n (b.occupied s).length
  prices_eq : (b.topN s n).map LevelSnapshot.price = ((b.occupied s).take n).map b.idxToPrice
  ahead : (b.topN s n).Pairwise fun l l' => Ahead s l.price l'.price
  starts : ∀ l, (b.topN s n).head? = some l → l.price = b.best s
  count_eq : ∀ l ∈ b.topN s n,
    l.count.toNat = ((b.resting s).filter fun r => r.price = l.price).length
  qty_eq : ∀ l ∈ b.topN s n, l.qty = b.totalAt s l.price

theorem best_eq (hne : b.bestIdx s ≠ kNoBest) : b.best s = b.idxToPrice (b.bestIdx s) := by
  cases s with
  | buy => exact if_neg hne
  | sell => exact if_neg hne

theorem best_of_none (hno : b.bestIdx s = kNoBest) : b.best s = kInvalidPrice := by
  cases s with
  | buy => exact if_pos hno
  | sell => exact if_pos hno

theorem best_congr {b' : OrderBook M} (hcfg : b'.cfg = b.cfg) (hidx : b'.bestIdx s = b.bestIdx s) :
    b'.best s = b.best s := by
  have hprice : b'.idxToPrice (b.bestIdx s) = b.idxToPrice (b.bestIdx s) := by
    unfold idxToPrice
    rw [hcfg]
  by_cases hne : b.bestIdx s = kNoBest
  · rw [best_of_none hne, best_of_none (hidx.trans hne)]
  · rw [best_eq hne, best_eq (hidx ▸ hne), hidx, hprice]

/-- A level whose bit is set has orders, and its price is theirs. -/
theorem Core.price_of_bit (h : Core b A none) (hbacked : Backed b A) (hi : b.bit s i = true) :
    (b.idxToPrice i).toInt = b.cfg.basePrice.toInt + i ∧ b.inRange (b.idxToPrice i) = true ∧
      (b.priceToIdx (b.idxToPrice i)).toNat = i := by
  obtain ⟨r, hr⟩ := List.exists_mem_of_ne_nil _ (hbacked s i hi)
  have hpl := h.placed s i r hr
  rw [idxToPrice_eq hpl.level_eq]
  exact ⟨hpl.level_eq, inRange_of_level hpl.level_eq hpl.inside hpl.small, h.priceToIdx_eq hr⟩

theorem Core.visible_sublist (h : Core b A none) (hbacked : Backed b A) (s : Side) :
    (b.visible s).Sublist (b.occupied s) := by
  refine List.monotone_filter_right _ fun i hi => decide_eq_true ?_
  rw [h.queue_eq]
  exact hbacked s i hi

theorem Core.mem_occupied (h : Core b A none) : i ∈ b.occupied s ↔ A s i ≠ [] := by
  unfold occupied
  rw [List.mem_filter, mem_ladder, h.queue_eq, decide_eq_true_eq]
  refine and_iff_right_of_imp fun hne => ?_
  obtain ⟨r, hr⟩ := List.exists_mem_of_ne_nil _ hne
  exact (h.placed s i r hr).inside

/-- What `top_n` writes for a level that shows. -/
theorem Core.snapshot_spec (h : Core b A none) (hbacked : Backed b A) (hi : b.bit s i = true) :
    (b.snapshot s i).count.toNat = (A s i).length % 2 ^ 32 ∧
      (b.resting s).filter (fun r => r.price = (b.snapshot s i).price) = A s i := by
  obtain ⟨-, hin, hidx⟩ := h.price_of_bit hbacked hi
  refine ⟨h.count_eq s i, ?_⟩
  show (b.resting s).filter (fun r => r.price = b.idxToPrice i) = A s i
  rw [h.resting_at s hin, hidx]

section Good

variable [IdMap M] [IndexedBy M]

/-- The levels that show are written best first. -/
theorem Good.topN_ahead (h : Good b A) :
    (b.topN s n).Pairwise fun l l' => Ahead s l.price l'.price := by
  rw [h.index.topN_eq, List.pairwise_map]
  refine ((b.visible_pairwise s).sublist (List.take_sublist n _)).imp_of_mem ?_
  intro i j hi hj hij
  have hbit : ∀ {k}, k ∈ (b.visible s).take n → b.bit s k = true :=
    fun hk => (mem_visible h.index).mp (List.mem_of_mem_take hk)
  have hi := (h.core.price_of_bit h.backed (hbit hi)).1
  have hj := (h.core.price_of_bit h.backed (hbit hj)).1
  cases s with
  | buy =>
    have hij : j < i := hij
    show b.idxToPrice j < b.idxToPrice i
    rw [Int32.lt_iff_toInt_lt]
    omega
  | sell =>
    have hij : i < j := hij
    show b.idxToPrice i < b.idxToPrice j
    rw [Int32.lt_iff_toInt_lt]
    omega

theorem Good.topN_starts (h : Good b A) (hl : (b.topN s n).head? = some l) :
    l.price = b.best s := by
  rw [h.index.topN_eq] at hl
  have hne : b.bestIdx s ≠ kNoBest := by
    intro hno
    rw [h.index.visible_nil hno] at hl
    simp at hl
  rw [h.index.visible_cons hne 0] at hl
  cases n with
  | zero => cases hl
  | succ n =>
    obtain rfl := Option.some.inj hl
    exact (best_eq hne).symm

/-- **The depth is exact** when every level with orders shows and its count has not wrapped
around. -/
theorem Good.bestFirst (h : Good b A) (hv : ∀ i, A s i ≠ [] → b.bit s i = true)
    (hshort : ∀ i, (A s i).length < 2 ^ 32) (n : ℕ) : BestFirst b s n := by
  have hocc : b.visible s = b.occupied s := by
    refine List.filter_congr fun i _ => ?_
    rw [h.core.queue_eq, Bool.eq_iff_iff, decide_eq_true_eq]
    exact ⟨h.backed s i, hv i⟩
  refine ⟨?_, ?_, h.topN_ahead, fun l hl => h.topN_starts hl, fun l hl => ?_,
    fun l hl => (h.core.mem_topN h.index h.backed hl).2⟩
  · rw [h.index.topN_eq, List.length_map, List.length_take, hocc]
  · rw [h.index.topN_eq, List.map_map, hocc]
    rfl
  · rw [h.index.topN_eq] at hl
    obtain ⟨i, hi, rfl⟩ := List.mem_map.mp hl
    have hbit := (mem_visible h.index).mp (List.mem_of_mem_take hi)
    obtain ⟨hcount, hat⟩ := h.core.snapshot_spec h.backed hbit
    rw [hcount, hat, Nat.mod_eq_of_lt (hshort i)]

/-- What an exact depth of all levels says about them. -/
theorem Good.shows_of_bestFirst (h : Good b A) (hall : ∀ n, BestFirst b s n) (hi : A s i ≠ []) :
    b.bit s i = true ∧ (A s i).length < 2 ^ 32 := by
  have hn := hall b.cfg.numLevels
  have hsub := h.core.visible_sublist h.backed s
  -- no level is skipped, so that all of them show
  have hlen := hn.length_eq
  rw [h.index.topN_eq, List.length_map, List.length_take] at hlen
  have hle := hsub.length_le
  have hmax : (b.occupied s).length ≤ b.cfg.numLevels := by
    refine (List.length_filter_le _ _).trans ?_
    cases s <;> simp [ladder]
  have hocc : b.visible s = b.occupied s := hsub.eq_of_length (by omega)
  have hbit : b.bit s i = true := by
    rw [← mem_visible h.index, hocc]
    exact h.core.mem_occupied.mpr hi
  refine ⟨hbit, ?_⟩
  obtain ⟨-, hat⟩ := h.core.snapshot_spec h.backed hbit
  have hmem : b.snapshot s i ∈ b.topN s b.cfg.numLevels := by
    rw [h.index.topN_eq, List.take_of_length_le (b.length_visible_le s)]
    exact List.mem_map_of_mem ((mem_visible h.index).mpr hbit)
  have hcount := hn.count_eq _ hmem
  rw [hat] at hcount
  rw [← hcount]
  exact (b.snapshot s i).count.toNat_lt

end Good

/-- **`top_n` is the exact depth**, for every number of levels, if and only if the bit of each level
with orders is set and fewer than `2 ^ 32` orders rest there. -/
theorem Reachable.bestFirst_iff {M : Type} [LawfulIdMap M] {cfg : Config} {b : OrderBook M}
    (h : Reachable cfg b) (s : Side) :
    (∀ n, BestFirst b s n) ↔
      ∀ i, b.queue s i ≠ [] → b.bit s i = true ∧ (b.queue s i).length < 2 ^ 32 := by
  obtain ⟨hgood, -⟩ := h.good
  constructor
  · intro hall i hi
    exact hgood.shows_of_bestFirst hall hi
  · intro hlevels n
    refine hgood.bestFirst (fun i hi => (hlevels i hi).1) (fun i => ?_) n
    by_cases hi : b.queue s i = []
    · rw [hi]
      decide
    · exact (hlevels i hi).2

theorem layeredBook_bestFirst_iff :
    (∀ n, BestFirst layeredBook .sell n) ↔ ∀ i, layeredBook.queue .sell i ≠ [] →
      layeredBook.bit .sell i = true ∧ (layeredBook.queue .sell i).length < 2 ^ 32 :=
  layeredBook_reachable.bestFirst_iff .sell

/-- The hidden asks are not listed. -/
theorem hiddenAsks_not_listed :
    ¬∀ (cfg : Config) (b : OrderBook PlainIdMap), 0 ≤ cfg.basePrice.toInt → Reachable cfg b →
      ∀ s n, BestFirst b s n := by
  intro hall
  obtain ⟨b, h, hbits⟩ := hiddenAsks
  obtain ⟨hgood, -⟩ := h.reachable.good
  obtain ⟨r, hr⟩ := h.exists_mem (by decide)
  have hbit := (hgood.shows_of_bestFirst (hall _ b (by decide) h.reachable .sell)
    (List.ne_nil_of_mem hr)).1
  rw [hbits] at hbit
  cases hbit

end Lob.OrderBook
