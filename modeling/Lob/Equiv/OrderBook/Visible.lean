import Lob.Equiv.OrderBook.Step

/-!
# Which levels the bitmap shows

The count of a level is kept in 32 bits, and the bit of a level is cleared when its count becomes
zero.  A call that leaves a multiple of `2^32` orders at a level that it takes from (`Leaves`)
clears the bit of a level with orders.  Every other call keeps the bits of the levels with orders
set (`Step.visible`); in a book for fewer than `2^32` orders every call does (`keeps_of_short`).
-/

namespace Lob.OrderBook

open Queues

variable {M : Type} {b b' : OrderBook M} {A A' : Queues} {s : Side} {i : ℕ} {r : Resting}
  {xs ys : List Resting} {o : NewOrder} {c : Call} {trades trades' : List Trade}

/-- What the call leaves at a level from which it takes an order, or a part of one. -/
inductive Leaves [IdMap M] (b : OrderBook M) (A : Queues) : Call → List Resting → Prop where
  | drop {c : Call} {s : Side} {i : ℕ} {r : Resting} {xs ys : List Resting} (hd : Drops A c s i r)
    (hq : A s i = xs ++ r :: ys) : Leaves b A c (xs ++ ys)
  | fill {c : Call} {o : NewOrder} {pre post : List ℕ} {i : ℕ} (he : Executes b A c o)
    (hls : b.sources o = pre ++ i :: post)
    (hlt : Greedy.total Resting.size (A.orders (opposite o.side) pre) < o.qty.toNat) :
    Leaves b A c (Greedy.leftover Resting.size Resting.shrink (A (opposite o.side) i)
      (o.qty.toNat - Greedy.total Resting.size (A.orders (opposite o.side) pre)))

/-- The call leaves no orders at a level whose count, in 32 bits, is zero then. -/
def Keeps [IdMap M] (b : OrderBook M) (A : Queues) (c : Call) : Prop :=
  ∀ q, Leaves b A c q → q.length % 2 ^ 32 = 0 → q = []

/-- No queue of fewer than `2^32` orders becomes a longer one. -/
theorem keeps_of_short [IdMap M] (h : ∀ s i, (A s i).length < 2 ^ 32) : Keeps b A c := by
  intro q hl hz
  -- a level loses orders by the call and gains none
  have hlt : q.length < 2 ^ 32 := by
    cases hl with
    | @drop s i r xs ys _ hq =>
      have := h s i
      rw [hq, List.length_append, List.length_cons] at this
      rw [List.length_append]
      omega
    | fill _ _ _ => exact (Greedy.length_leftover_le _ _ _ _).trans_lt (h _ _)
  rw [Nat.mod_eq_of_lt hlt] at hz
  exact List.length_eq_zero_iff.mp hz

/-! ### The outcomes of a call -/

section Outcomes

variable [IdMap M] [IndexedBy M]

theorem Dropped.visible (h : Dropped b A s i xs r ys b') (hv : Visible b A)
    (hk : (xs ++ ys).length % 2 ^ 32 = 0 → xs ++ ys = []) :
    Visible b' (A.set s i (xs ++ ys)) := by
  apply hv.set
  · intro hne
    rw [h.bit_iff]
    exact ⟨hv s i (by simp [h.queue_eq]), fun hcon => hne (hk hcon.2.2)⟩
  · intro t j hne hb
    rw [h.bit_iff]
    exact ⟨hb, fun hcon => hne hcon.1 hcon.2.1⟩

theorem Shrunk.visible {qty : Quantity} (h : Shrunk b A s i xs r ys qty b') (hv : Visible b A) :
    Visible b' (A.set s i (xs ++ { r with qty := qty } :: ys)) := by
  apply hv.set
  · intro _
    rw [h.bit_eq]
    exact hv s i (by simp [h.queue_eq])
  · intro t j _ hb
    rwa [h.bit_eq]

theorem Matched.visible {ls : List ℕ} {n : ℕ} (hb : Core b A none)
    (hm : Matched b A s ls n b' A') (hv : Visible b A)
    (hk : ∀ pre i post, ls = pre ++ i :: post →
      Greedy.total Resting.size (A.orders s pre) < n → (A' s i).length % 2 ^ 32 = 0 →
        A' s i = []) : Visible b' A' := by
  intro t j hne
  -- a bit is cleared only where the count came out as zero
  rcases hm.bit_or t j (hv t j (hm.ne_nil hb hne)) with hbit | ⟨rfl, hz, pre, post, hls, hlt⟩
  · exact hbit
  · exact absurd (hk pre j post hls hlt hz) hne

theorem Submits.visible {res : SubmitResult} (h : Good b A)
    (hs : Submits b A o trades (.ok (b', res) trades')) (hv : Visible b A)
    (hk : Passes b A o → ∀ pre i post, b.sources o = pre ++ i :: post →
      Greedy.total Resting.size (A.orders (opposite o.side) pre) < o.qty.toNat →
        (Greedy.leftover Resting.size Resting.shrink (A (opposite o.side) i) (o.qty.toNat -
          Greedy.total Resting.size (A.orders (opposite o.side) pre))).length % 2 ^ 32 = 0 →
        Greedy.leftover Resting.size Resting.shrink (A (opposite o.side) i) (o.qty.toNat -
          Greedy.total Resting.size (A.orders (opposite o.side) pre)) = []) :
    Visible b' b'.queue := by
  have hmatch : ∀ {b₁ A₁}, Passes b A o →
      Matched b A (opposite o.side) (b.sources o) o.qty.toNat b₁ A₁ → Visible b₁ A₁ := by
    intro b₁ A₁ hp hm
    refine hm.visible h.core hv fun pre i post hls hlt hz => ?_
    rw [hm.level_eq pre i post hls] at hz ⊢
    exact hk hp pre i post hls hlt hz
  cases hs with
  | rejected | killed | crossing =>
    rw [h.core.queue_eq]
    exact hv
  | filled hp hm | dropped hp hm =>
    rw [hm.good.core.queue_eq]
    exact hmatch hp hm
  | @rested b₁ _ A₁ _ _ hp hm _ _ _ _ hbit hgood =>
    rw [hgood.core.queue_eq]
    have hv₁ := hmatch hp hm
    apply hv₁.set
    · intro _
      rw [hbit]
      -- the bit of a level without orders is set now
      by_cases hz : A₁ o.side (b.priceToIdx o.price).toNat = []
      · exact Or.inr ⟨rfl, rfl, by rw [hz]; rfl⟩
      · exact Or.inl (hv₁ _ _ hz)
    · intro t j _ hb
      rw [hbit]
      exact Or.inl hb

/-- **The bits of the levels with orders stay set.** -/
theorem Step.visible (h : Good b A) (hs : Step b A trades c (.ok b' trades')) (hk : Keeps b A c)
    (hv : Visible b A) : Visible b' b'.queue := by
  cases hs with
  | unchanged =>
    rw [h.core.queue_eq]
    exact hv
  | dropped hd hdr =>
    rw [hdr.good.core.queue_eq]
    exact hdr.visible hv fun hz => hk _ (.drop hd hdr.queue_eq) hz
  | shrunk hsh =>
    rw [hsh.good.core.queue_eq]
    exact hsh.visible hv
  | submitted hs =>
    refine hs.visible h hv fun hp pre i post hls hlt hz => ?_
    exact hk _ (.fill (.submit hp) hls hlt) hz
  | @replaced s k r xs ys newQty newPrice ts b₁ _ _ _ hin hdr hs =>
    have hd : Drops A (.modify r.id newQty newPrice ts) s k r :=
      .modify (by simp [hdr.queue_eq]) hin
    -- the other side is as it was before the drop
    have hopp : A.set s k (xs ++ ys) (opposite (r.replacement s newQty newPrice ts).side) =
        A (opposite (r.replacement s newQty newPrice ts).side) := set_opposite rfl
    have hv₁ := hdr.visible hv fun hz => hk _ (.drop hd hdr.queue_eq) hz
    refine hs.visible hdr.good hv₁ fun hp pre i post hls hlt hz => ?_
    unfold Queues.orders at hlt hz ⊢
    rw [hopp] at hlt hz ⊢
    rw [hdr.sources_eq rfl] at hls
    exact hk _ (.fill (hdr.executes hin hp) hls hlt) hz

theorem new_visible (cfg : Config) :
    Visible (new cfg : OrderBook M) (new cfg : OrderBook M).queue := by
  have hgood : Good (new cfg : OrderBook M) Queues.empty := new_good cfg
  rw [hgood.core.queue_eq]
  intro s i hne
  exact absurd rfl hne

end Outcomes

end Lob.OrderBook
