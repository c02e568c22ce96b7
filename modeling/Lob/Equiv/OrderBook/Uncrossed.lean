import Lob.Equiv.OrderBook.HiddenLevel

/-!
# The book is never crossed

Bids and asks do not meet (`NotCrossed`) after every run whose calls keep the bits of the levels
with orders set (`Run.notCrossed`), as those of a book for fewer than `2^32` orders do
(`Reachable.run_keeps`).  An order that comes to rest has taken everything from the levels that it
crosses, provided that it sees them: behind a hidden level the book is locked
(`hiddenAsks_locked`).
-/

namespace Lob.OrderBook

open Queues

variable {M : Type} {b b' : OrderBook M} {A A' : Queues} {s : Side} {i j k : ℕ} {o : NewOrder}
  {c : Call} {trades trades' : List Trade}

/-- No bid is at the level of an ask or above it. -/
def Uncrossed (A : Queues) : Prop := ∀ i j, A .buy i ≠ [] → A .sell j ≠ [] → i < j

/-- **Bids and asks do not meet.** -/
structure NotCrossed (b : OrderBook M) : Prop where
  price_lt : ∀ i, ∀ r ∈ b.queue .buy i, ∀ j, ∀ r' ∈ b.queue .sell j, r.price < r'.price
  best_lt : (∃ i, b.queue .buy i ≠ []) → (∃ j, b.queue .sell j ≠ []) → b.bestBid < b.bestAsk

/-! ### Changes of the queues -/

theorem Uncrossed.mono (h : Uncrossed A) (hA : ∀ t j, A' t j ≠ [] → A t j ≠ []) :
    Uncrossed A' :=
  fun i j hi hj => h i j (hA _ _ hi) (hA _ _ hj)

/-- An order joins level `k`, and the orders of the other side are at worse levels. -/
theorem Uncrossed.set (h : Uncrossed A) (q : List Resting)
    (hk : ∀ j, A (opposite s) j ≠ [] → Better (opposite s) k j) : Uncrossed (A.set s k q) := by
  intro i j hi hj
  cases s with
  | buy =>
    rw [set_of_ne fun ht => absurd ht (by decide)] at hj
    by_cases hik : i = k
    · subst hik
      exact hk j hj
    · rw [set_of_ne fun _ => hik] at hi
      exact h i j hi hj
  | sell =>
    rw [set_of_ne fun ht => absurd ht (by decide)] at hi
    by_cases hjk : j = k
    · subst hjk
      exact hk i hi
    · rw [set_of_ne fun _ => hjk] at hj
      exact h i j hi hj

section Steps

variable [IdMap M] [IndexedBy M]

/-- A quantity that the levels cannot give empties them. -/
theorem Matched.cleared {ls : List ℕ} {n : ℕ} (h : Good b A) (hm : Matched b A s ls n b' A')
    (hle : Greedy.total Resting.size (A.orders s ls) ≤ n) (hj : j ∈ ls) : A' s j = [] := by
  have hnil := hm.leftover_eq
  rw [Greedy.leftover_eq_nil _ _ h.positive_orders hle] at hnil
  exact List.flatMap_eq_nil_iff.mp hnil j hj

/-- **An order that comes to rest** crosses no order of the other side. -/
theorem Matched.better_of_rests (h : Good b A) (hv : Visible b A) (hp : Passes b A o)
    (ht : o.type ≠ .market)
    (hm : Matched b A (opposite o.side) (b.sources o) o.qty.toNat b' A')
    (hle : Greedy.total Resting.size (A.orders (opposite o.side) (b.sources o)) ≤ o.qty.toNat)
    (hj : A' (opposite o.side) j ≠ []) :
    Better (opposite o.side) (b.priceToIdx o.price).toNat j := by
  have hbit := hv _ _ (hm.ne_nil h.core hj)
  have hlimit : b.limitOf o = (b.priceToIdx o.price).toNat := if_neg ht
  rw [← hlimit]
  refine (pastLimit_iff.mp ?_).2
  -- suppose that the level is within the limit; then the order sees it
  by_contra hpast
  have hcross : j ∈ b.crossing o :=
    List.mem_filter.mpr ⟨(mem_visible h.index).mpr hbit, by simp [hpast]⟩
  -- the order takes everything from the level, or else there is nothing to cross
  by_cases hpost : o.tif = .postOnly
  · have hwould := (wouldCross_iff h.index ht (hp.inRange ht)).mpr (List.ne_nil_of_mem hcross)
    exact hp.not_crossing ⟨hpost, hwould⟩
  · have hsrc : b.sources o = b.crossing o := if_neg hpost
    exact hj (hm.cleared h hle (hsrc ▸ hcross))

theorem Submits.uncrossed {res : SubmitResult} (h : Good b A) (hv : Visible b A)
    (hu : Uncrossed A) (hs : Submits b A o trades (.ok (b', res) trades')) :
    Uncrossed b'.queue := by
  cases hs with
  | rejected | killed | crossing =>
    rw [h.core.queue_eq]
    exact hu
  | filled _ hm | dropped _ hm =>
    rw [hm.good.core.queue_eq]
    exact hu.mono fun _ _ hne => hm.ne_nil h.core hne
  | rested hp hm hn _ hlimit _ _ hgood =>
    rw [hgood.core.queue_eq]
    refine (hu.mono fun _ _ hne => hm.ne_nil h.core hne).set _ fun j hj => ?_
    exact hm.better_of_rests h hv hp (fun ht => hlimit (Or.inr ht)) (by omega) hj

theorem Step.uncrossed (h : Good b A) (hk : Keeps b A c) (hv : Visible b A) (hu : Uncrossed A)
    (hs : Step b A trades c (.ok b' trades')) : Uncrossed b'.queue := by
  cases hs with
  | unchanged =>
    rw [h.core.queue_eq]
    exact hu
  | dropped _ hdr =>
    rw [hdr.good.core.queue_eq]
    exact hu.mono fun _ _ => hdr.ne_nil
  | @shrunk _ s i r xs ys qty _ hsh =>
    rw [hsh.good.core.queue_eq]
    apply hu.mono
    apply set_forall (P := fun t j q => q ≠ [] → A t j ≠ [])
    · simp [hsh.queue_eq]
    · exact fun t j _ => id
  | submitted hs => exact hs.uncrossed h hv hu
  | replaced hin hdr hs =>
    have hv₁ := hdr.visible hv fun hz =>
      hk _ (.drop (.modify (by simp [hdr.queue_eq]) hin) hdr.queue_eq) hz
    exact hs.uncrossed hdr.good hv₁ (hu.mono fun _ _ => hdr.ne_nil)

/-- The best prices are prices of orders. -/
theorem Good.prices_apart (h : Good b A) (hv : Visible b A) (hu : Uncrossed A) : NotCrossed b := by
  have hlt : ∀ i, ∀ r ∈ A .buy i, ∀ j, ∀ r' ∈ A .sell j, r.price < r'.price := by
    intro i r hr j r' hr'
    have hij := hu i j (List.ne_nil_of_mem hr) (List.ne_nil_of_mem hr')
    have hprice := (h.core.placed _ i r hr).level_eq
    have hprice' := (h.core.placed _ j r' hr').level_eq
    rw [Int32.lt_iff_toInt_lt]
    omega
  -- the cached best level has orders, and its price is theirs
  have hbest : ∀ s, (∃ i, A s i ≠ []) →
      b.bestIdx s ≠ kNoBest ∧ ∃ r ∈ A s (b.bestIdx s), b.idxToPrice (b.bestIdx s) = r.price := by
    rintro s ⟨i, hi⟩
    have hne := h.index.bestIdx_ne (hv s i hi)
    obtain ⟨r, hr⟩ := List.exists_mem_of_ne_nil _ (h.backed s _ (h.index.bit_best hne))
    exact ⟨hne, r, hr, idxToPrice_eq (h.core.placed s _ r hr).level_eq⟩
  constructor
  · rw [h.core.queue_eq]
    exact hlt
  · rw [h.core.queue_eq]
    intro hbids hasks
    obtain ⟨hbid, r, hr, hrp⟩ := hbest .buy hbids
    obtain ⟨hask, r', hr', hrp'⟩ := hbest .sell hasks
    have hbid' : b.bestBid = r.price := (if_neg hbid).trans hrp
    have hask' : b.bestAsk = r'.price := (if_neg hask).trans hrp'
    rw [hbid', hask']
    exact hlt _ r hr _ r' hr'

end Steps

/-! ### Runs -/

/-- **The book is never crossed or locked**, as long as no call leaves orders at a level that it
takes from while the count of the level, in 32 bits, becomes zero. -/
theorem Run.notCrossed {M : Type} [LawfulIdMap M] {cfg : Config} {b : OrderBook M}
    (h : Run (fun b c => Keeps b b.queue c) cfg b) : NotCrossed b := by
  obtain ⟨hgood, -, hv, hu⟩ := Run.induction
    (P := fun b => Visible b b.queue ∧ Uncrossed b.queue)
    (fun b c _ => safe_of_lawful b b.queue c)
    ⟨new_visible cfg, by rw [(new_good cfg).core.queue_eq]; exact fun _ _ hne => absurd rfl hne⟩
    (fun b c _ b' _ hgood _ hk hP hs =>
      ⟨hs.visible hgood hk hP.1, hs.uncrossed hgood hk hP.1 hP.2⟩) h
  exact hgood.prices_apart hv hu

theorem tradedBook_notCrossed : NotCrossed tradedBook :=
  (tradedBook_reachable.run_keeps (by decide)).notCrossed

/-- A bid at the price of the hidden asks rests beside them. -/
theorem hiddenAsks_locked :
    ¬∀ (cfg : Config) (b : OrderBook PlainIdMap), 0 ≤ cfg.basePrice.toInt →
      Reachable cfg b → NotCrossed b := by
  intro hall
  obtain ⟨b, h, hbits⟩ := hiddenAsks
  obtain ⟨b', p, hrun, hq⟩ :=
    h.submit_rests (by omega) (2 ^ 32 + 2) (by decide) .buy (fun i => hbits _ i) []
  have hreachable : Reachable hugeConfig b' := h.reachable.step trivial (exec_submit_ok hrun)
  have hbid : ⟨p, 2 ^ 32 + 2, 0, 1⟩ ∈ b'.queue .buy 0 := by
    rw [hq, set_self]
    simp
  obtain ⟨r, hr⟩ := h.exists_mem (by decide)
  have hask : r ∈ b'.queue .sell 0 := by
    rwa [hq, set_of_ne fun ht => absurd ht (by decide)]
  have hlt := (hall _ _ (by decide) hreachable).price_lt 0 _ hbid 0 r hask
  rw [h.price_eq hr] at hlt
  exact Int32.lt_irrefl hlt

end Lob.OrderBook
