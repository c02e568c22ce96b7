import Lob.Equiv.OrderBook.Lifecycle
import Lob.Equiv.OrderBook.Modify
import Lob.Equiv.OrderBook.TopN

/-!
# Reductions and cancellations in any order

A list of `reduce` and `cancel` calls leaves of each order what its quantity exceeds the sum of its
reductions by, and nothing if a `cancel` named it (`Good.decrements`).  This does not depend on the
order of the calls, so that two orders of the same calls lead to books that cannot be told apart
(`Reachable.decrements_perm`).
-/

namespace Lob

inductive Decrement where
  | reduce (id : OrderId) (delta : Quantity)
  | cancel (id : OrderId)
  deriving DecidableEq, Repr

/-- What the call takes from the order with the id `id`. -/
def Decrement.takes (id : OrderId) : Decrement → ℕ
  | .reduce id' delta => if id' = id then delta.toNat else 0
  | .cancel _ => 0

/-- What the calls take from the order with the id `id`, as an exact sum. -/
def reducedBy (ds : List Decrement) (id : OrderId) : ℕ := (ds.map (Decrement.takes id)).sum

/-- What one call leaves of an order. -/
def Resting.decrease (r : Resting) : Decrement → Option Resting
  | .reduce id delta => r.lessen id delta
  | .cancel id => if r.id = id then none else some r

/-- What the calls leave of an order. -/
def Resting.outlast (ds : List Decrement) (r : Resting) : Option Resting :=
  if .cancel r.id ∈ ds ∨ r.size ≤ reducedBy ds r.id then none
  else some (r.shrink (reducedBy ds r.id))

section Outlast

variable {d : Decrement} {ds ds' : List Decrement} {r : Resting} {id : OrderId}

theorem reducedBy_cons : reducedBy (d :: ds) id = d.takes id + reducedBy ds id := by
  unfold reducedBy
  rw [List.map_cons, List.sum_cons]

theorem reducedBy_perm (h : ds.Perm ds') : reducedBy ds id = reducedBy ds' id := (h.map _).sum_eq

/-- **The order of the calls does not matter.** -/
theorem outlast_perm (h : ds.Perm ds') : Resting.outlast ds = Resting.outlast ds' := by
  funext r
  unfold Resting.outlast
  rw [reducedBy_perm h]
  simp only [h.mem_iff]

theorem outlast_nil (h : 0 < r.size) : r.outlast [] = some r := by
  have hnot : ¬(.cancel r.id ∈ ([] : List Decrement) ∨ r.size ≤ reducedBy [] r.id) :=
    not_or.mpr ⟨List.not_mem_nil, not_le.mpr h⟩
  unfold Resting.outlast
  rw [if_neg hnot]
  show some { r with qty := r.qty - 0 } = some r
  rw [UInt32.sub_zero]

/-- A call for another order. -/
theorem outlast_cons_of_ne (hd : d ≠ .cancel r.id) (htakes : d.takes r.id = 0) :
    r.outlast (d :: ds) = r.outlast ds := by
  unfold Resting.outlast
  rw [reducedBy_cons, htakes, Nat.zero_add]
  simp only [List.mem_cons, hd.symm, false_or]

/-- **The calls, one after the other.** -/
theorem outlast_cons : r.outlast (d :: ds) = (r.decrease d).bind (Resting.outlast ds) := by
  cases d with
  | cancel id =>
    show _ = Option.bind (if r.id = id then none else some r) _
    by_cases hid : r.id = id
    · rw [if_pos hid, ← hid]
      exact if_pos (Or.inl List.mem_cons_self)
    · rw [if_neg hid, Option.bind_some]
      exact outlast_cons_of_ne (by simpa using Ne.symm hid) rfl
  | reduce id delta =>
    show _ = Option.bind (r.lessen id delta) _
    unfold Resting.lessen
    by_cases hid : r.id = id
    · subst hid
      have htakes : (Decrement.reduce r.id delta).takes r.id = delta.toNat := if_pos rfl
      rw [if_pos rfl]
      by_cases hlt : delta < r.qty
      · rw [if_pos hlt, Option.bind_some]
        have hsize : Resting.size { r with qty := r.qty - delta } = r.size - delta.toNat :=
          UInt32.toNat_sub_of_le _ _ (UInt32.le_of_lt hlt)
        have hlt' : delta.toNat < r.size := UInt32.lt_iff_toNat_lt.mp hlt
        have hsub : ∀ n : Quantity, r.qty - (delta + n) = r.qty - delta - n := fun n => by grind
        -- the reductions add up
        unfold Resting.outlast
        rw [reducedBy_cons, htakes, hsize]
        simp only [List.mem_cons, reduceCtorEq, false_or, Nat.sub_le_iff_le_add']
        congr 1
        unfold Resting.shrink
        rw [UInt32.ofNat_add, UInt32.ofNat_toNat, hsub]
      · rw [if_neg hlt, Option.bind_none]
        have hle : r.size ≤ delta.toNat := UInt32.le_iff_toNat_le.mp (UInt32.not_lt.mp hlt)
        refine if_pos (Or.inr ?_)
        rw [reducedBy_cons, htakes]
        omega
    · rw [if_neg hid, Option.bind_some]
      exact outlast_cons_of_ne nofun (if_neg (Ne.symm hid))

end Outlast

namespace OrderBook

open Queues

variable {M : Type}

/-! ### The calls -/

section Calls

variable [IdMap M]

/-- The book after the call. -/
def decrement (b : OrderBook M) : Decrement → Except Fault (OrderBook M)
  | .reduce id delta => do
    let (_, b) ← b.reduce id delta
    return b
  | .cancel id => do
    let (_, b) ← b.cancel id
    return b

/-- The book after the calls. -/
def decrements : OrderBook M → List Decrement → Except Fault (OrderBook M)
  | b, [] => return b
  | b, d :: ds => do
    let b ← b.decrement d
    b.decrements ds

/-- **What the calls do to the orders.** -/
structure Decremented (b b' : OrderBook M) (ds : List Decrement) : Prop where
  gone_iff : ∀ s i, ∀ r ∈ b.queue s i,
    (¬b'.queue.Rests r.id ↔ .cancel r.id ∈ ds ∨ r.size ≤ reducedBy ds r.id)
  kept : ∀ s i, ∀ r ∈ b.queue s i, b'.queue.Rests r.id →
    ∃ qty : Quantity, qty.toNat = r.size - reducedBy ds r.id ∧ { r with qty } ∈ b'.queue s i
  /-- The orders that are left keep their places. -/
  sublist : ∀ s i, ((b'.queue s i).map Resting.id).Sublist ((b.queue s i).map Resting.id)

/-- The books cannot be told apart. -/
structure SameView (b b' : OrderBook M) : Prop extends SameBook b b' where
  totalQty_eq : ∀ s i, (b'.level s i).totalQty = (b.level s i).totalQty
  count_eq : ∀ s i, (b'.level s i).count = (b.level s i).count
  openOrders_eq : b'.openOrders = b.openOrders
  topN_eq : ∀ s n, b'.topN s n = b.topN s n

end Calls

/-! ### What a call does to the levels -/

section Thinned

variable [IdMap M] [IndexedBy M] {b b' b'' : OrderBook M} {A A' A'' : Queues} {s : Side} {i : ℕ}
  {r : Resting} {xs ys : List Resting}

/-- Orders have left the book.  A level has lost its bit if its count, in 32 bits, was zero in
between or is zero at the end. -/
structure Thinned (b : OrderBook M) (A : Queues) (b' : OrderBook M) (A' : Queues) : Prop where
  cfg_eq : b'.cfg = b.cfg
  length_le : ∀ t j, (A' t j).length ≤ (A t j).length
  bit_iff : ∀ t j, b'.bit t j = true ↔ b.bit t j = true ∧
    ∀ k, (A' t j).length ≤ k → k < (A t j).length → k % 2 ^ 32 ≠ 0
  good : Good b' A'

/-- No level has become shorter. -/
theorem Thinned.of_length (hcfg : b'.cfg = b.cfg) (hlen : ∀ t j, (A' t j).length = (A t j).length)
    (hbit : ∀ t j, b'.bit t j = b.bit t j) (hgood : Good b' A') : Thinned b A b' A' where
  cfg_eq := hcfg
  length_le t j := (hlen t j).le
  bit_iff t j := by
    rw [hbit, hlen]
    exact ⟨fun hb => ⟨hb, fun k hle hlt => absurd hlt (not_lt.mpr hle)⟩, And.left⟩
  good := hgood

theorem Thinned.trans (h : Thinned b A b' A') (h' : Thinned b' A' b'' A'') :
    Thinned b A b'' A'' where
  cfg_eq := h'.cfg_eq.trans h.cfg_eq
  length_le t j := (h'.length_le t j).trans (h.length_le t j)
  bit_iff t j := by
    have hle := h.length_le t j
    have hle' := h'.length_le t j
    rw [h'.bit_iff, h.bit_iff, and_assoc]
    refine and_congr_right fun _ => ⟨fun ⟨hk, hk'⟩ k hlow hhigh => ?_, fun hk => ⟨?_, ?_⟩⟩
    · rcases Nat.lt_or_ge k (A' t j).length with hlt | hge
      · exact hk' k hlow hlt
      · exact hk k hge hhigh
    · exact fun k hlow hhigh => hk k (hle'.trans hlow) hhigh
    · exact fun k hlow hhigh => hk k hlow (hhigh.trans_le hle)
  good := h'.good

theorem Dropped.thinned (hd : Dropped b A s i xs r ys b') :
    Thinned b A b' (A.set s i (xs ++ ys)) := by
  have hlen : (A s i).length = (xs ++ ys).length + 1 := by
    rw [hd.queue_eq]
    simp only [List.length_append, List.length_cons]
    omega
  refine ⟨hd.cfg_eq, ?_, fun t j => (hd.bit_iff t j).trans (and_congr_right fun _ => ?_), hd.good⟩
  · apply set_forall (P := fun t j q => q.length ≤ (A t j).length)
    · omega
    · exact fun t j _ => le_rfl
  · by_cases htj : t = s ∧ j = i
    · obtain ⟨rfl, rfl⟩ := htj
      rw [set_self, hlen]
      constructor
      · intro hz k hlow hhigh hk
        obtain rfl : k = (xs ++ ys).length := by omega
        exact hz ⟨rfl, rfl, hk⟩
      · rintro hall ⟨-, -, hz⟩
        exact hall _ le_rfl (Nat.lt_succ_self _) hz
    · rw [set_of_ne fun ht hj => htj ⟨ht, hj⟩]
      exact ⟨fun _ k hlow hhigh => absurd hhigh (not_lt.mpr hlow),
        fun _ hcon => htj ⟨hcon.1, hcon.2.1⟩⟩

theorem Shrunk.thinned {qty : Quantity} (hs : Shrunk b A s i xs r ys qty b') :
    Thinned b A b' (A.set s i (xs ++ { r with qty := qty } :: ys)) := by
  refine .of_length hs.cfg_eq ?_ hs.bit_eq hs.good
  apply set_forall (P := fun t j q => q.length = (A t j).length)
  · rw [hs.queue_eq]
    simp
  · exact fun t j _ => rfl

end Thinned

/-! ### The calls on the queues -/

section Runs

variable {M : Type} [LawfulIdMap M] {b b₁ b₂ : OrderBook M} {A A' : Queues}
  {ds ds' : List Decrement}

theorem decrease_cancel (A : Queues) (id : OrderId) :
    (fun s i => (A s i).filterMap fun r => r.decrease (.cancel id)) = A.without id := by
  ext1 s
  ext1 i
  show _ = (A s i).filter _
  rw [← List.filterMap_eq_filter]
  refine List.filterMap_congr fun r _ => ?_
  show (if r.id = id then none else some r) = _
  by_cases hid : r.id = id
  · simp [hid, Option.guard]
  · simp [hid, Option.guard]

theorem Good.decrement_cancel (h : Good b A) (id : OrderId) :
    ∃ b', b.decrement (.cancel id) = .ok b' ∧ Thinned b A b' (A.without id) := by
  by_cases hrests : A.Rests id
  · obtain ⟨s, i, r, hr, rfl⟩ := hrests
    obtain ⟨xs, ys, hq⟩ := List.append_of_mem hr
    obtain ⟨b', hdrop, hd, -⟩ := h.drop hq trivial
    rw [← h.set_removed hq]
    exact ⟨b', bind_ok (h.cancel_eq hq hdrop) _, hd.thinned⟩
  · rw [without_of_not_rests hrests]
    exact ⟨b, bind_ok (h.cancel_none trivial hrests) _,
      .of_length rfl (fun _ _ => rfl) (fun _ _ => rfl) h⟩

theorem Good.decrement_reduce (h : Good b A) (id : OrderId) (delta : Quantity) :
    ∃ b', b.decrement (.reduce id delta) = .ok b' ∧ Thinned b A b' (A.lessen id delta) := by
  by_cases hrests : A.Rests id
  · obtain ⟨s, i, r, hr, rfl⟩ := hrests
    obtain ⟨xs, ys, hq⟩ := List.append_of_mem hr
    rw [h.lessen_eq hq]
    unfold Resting.lessen
    rw [if_pos rfl]
    by_cases hlt : delta < r.qty
    · obtain ⟨b', hshrink, hs⟩ := h.shrink_by hq hlt
      rw [if_pos hlt]
      exact ⟨b', bind_ok (h.reduce_shrink hq hlt hshrink) _, hs.thinned⟩
    · obtain ⟨b', hdrop, hd, -⟩ := h.drop hq trivial
      rw [if_neg hlt]
      exact ⟨b', bind_ok (h.reduce_drop hq (UInt32.not_lt.mp hlt) hdrop) _, hd.thinned⟩
  · rw [lessen_of_not_rests hrests]
    exact ⟨b, bind_ok (h.reduce_none trivial hrests delta) _,
      .of_length rfl (fun _ _ => rfl) (fun _ _ => rfl) h⟩

/-- **One call.** -/
theorem Good.decrement (h : Good b A) (d : Decrement) :
    ∃ b', b.decrement d = .ok b' ∧
      Thinned b A b' fun s i => (A s i).filterMap fun r => r.decrease d := by
  cases d with
  | cancel id =>
    rw [decrease_cancel]
    exact h.decrement_cancel id
  | reduce id delta => exact h.decrement_reduce id delta

/-- **The calls**, one after the other. -/
theorem Good.decrements (h : Good b A) (ds : List Decrement) :
    ∃ b', b.decrements ds = .ok b' ∧
      Thinned b A b' fun s i => (A s i).filterMap (Resting.outlast ds) := by
  induction ds generalizing b A with
  | nil =>
    have hA : (fun s i => (A s i).filterMap (Resting.outlast [])) = A := by
      ext1 s
      ext1 i
      rw [List.filterMap_congr (g := some) fun r hr => outlast_nil (h.positive s i r hr),
        List.filterMap_some]
    rw [hA]
    exact ⟨b, rfl, .of_length rfl (fun _ _ => rfl) (fun _ _ => rfl) h⟩
  | cons d ds ih =>
    obtain ⟨b₁, hcall, hthin⟩ := h.decrement d
    obtain ⟨b₂, hcalls, hthin'⟩ := ih hthin.good
    refine ⟨b₂, (bind_ok hcall _).trans hcalls, ?_⟩
    simp only [List.filterMap_filterMap] at hthin'
    have hcons : Resting.outlast (d :: ds) = fun r => (r.decrease d).bind (Resting.outlast ds) :=
      funext fun r => outlast_cons
    rw [hcons]
    exact hthin.trans hthin'

/-- Two books with the same queues and the same bits. -/
theorem Thinned.sameView (h₁ : Thinned b A b₁ A') (h₂ : Thinned b A b₂ A') : SameView b₁ b₂ := by
  have hcfg : b₂.cfg = b₁.cfg := h₂.cfg_eq.trans h₁.cfg_eq.symm
  have hbit : ∀ t j, b₂.bit t j = b₁.bit t j := fun t j =>
    Bool.eq_iff_iff.mpr ((h₂.bit_iff t j).trans (h₁.bit_iff t j).symm)
  have hidx : ∀ t, b₂.bestIdx t = b₁.bestIdx t := fun t =>
    h₁.good.index.bestIdx_eq (c := False) (i := 0) h₂.good.index (fun j => by simp [hbit]) nofun
  have hbest : ∀ t, b₂.best t = b₁.best t := fun t => best_congr hcfg (hidx t)
  have htotal : ∀ t j, (b₂.level t j).totalQty = (b₁.level t j).totalQty := fun t j => by
    rw [← UInt32.toNat_inj, h₂.good.core.total_eq, h₁.good.core.total_eq]
  have hcount : ∀ t j, (b₂.level t j).count = (b₁.level t j).count := fun t j => by
    rw [← UInt32.toNat_inj, h₂.good.core.count_eq, h₁.good.core.count_eq]
  refine ⟨⟨?_, hbest .buy, hbest .sell, fun t p => ?_, fun id => ?_⟩, htotal, hcount, ?_,
    fun t n => ?_⟩
  · rw [h₂.good.core.queue_eq, h₁.good.core.queue_eq]
  · unfold totalAt
    rw [inRange_congr hcfg, priceToIdx_congr hcfg, htotal]
  · by_cases hrests : A'.Rests id
    · obtain ⟨t, j, r, hr, rfl⟩ := hrests
      obtain ⟨xs, ys, hq⟩ := List.append_of_mem hr
      rw [h₂.good.find_some hq, h₁.good.find_some hq]
    · rw [h₂.good.find_none trivial hrests, h₁.good.find_none trivial hrests]
  · rw [h₂.good.core.openOrders_eq_sum, h₁.good.core.openOrders_eq_sum, hcfg]
  · have hvisible : b₂.visible t = b₁.visible t := by
      unfold visible
      rw [hcfg]
      exact List.filter_congr fun j _ => hbit t j
    have hsnapshot : ∀ j, b₂.snapshot t j = b₁.snapshot t j := fun j => by
      unfold snapshot idxToPrice
      rw [hcfg, htotal, hcount]
    rw [h₂.good.index.topN_eq, h₁.good.index.topN_eq, hvisible]
    exact List.map_congr_left fun j _ => hsnapshot j

theorem map_filterMap_sublist {α β : Type} {f : α → Option α} {g : α → β}
    (hf : ∀ a a', f a = some a' → g a' = g a) (l : List α) :
    ((l.filterMap f).map g).Sublist (l.map g) := by
  induction l with
  | nil => exact .slnil
  | cons a l ih =>
    rw [List.map_cons]
    cases hfa : f a with
    | none =>
      rw [List.filterMap_cons_none hfa]
      exact ih.cons _
    | some a' =>
      rw [List.filterMap_cons_some hfa, List.map_cons, hf a a' hfa]
      exact ih.cons_cons _

/-- What the calls leave of the orders, read off the queues. -/
theorem Good.decremented (h : Good b A)
    (hthin : Thinned b A b₁ fun s i => (A s i).filterMap (Resting.outlast ds)) :
    Decremented b b₁ ds := by
  have hid : ∀ {r r' : Resting}, r.outlast ds = some r' →
      r' = r.shrink (reducedBy ds r.id) ∧ ¬(.cancel r.id ∈ ds ∨ r.size ≤ reducedBy ds r.id) := by
    intro r r' hr
    unfold Resting.outlast at hr
    split_ifs at hr with hgone
    exact ⟨(Option.some.inj hr).symm, hgone⟩
  have hrests : ∀ s i, ∀ r ∈ A s i, b₁.queue.Rests r.id →
      ¬(.cancel r.id ∈ ds ∨ r.size ≤ reducedBy ds r.id) := by
    rintro s i r hr ⟨t, j, r', hr', hrid⟩
    rw [hthin.good.core.queue_eq] at hr'
    obtain ⟨r'', hr'', hout⟩ := List.mem_filterMap.mp hr'
    obtain ⟨rfl, hstays⟩ := hid hout
    obtain ⟨-, -, rfl⟩ := h.unique hr'' hr hrid
    exact hstays
  have hstays : ∀ s i, ∀ r ∈ A s i, ¬(.cancel r.id ∈ ds ∨ r.size ≤ reducedBy ds r.id) →
      r.shrink (reducedBy ds r.id) ∈ b₁.queue s i := by
    intro s i r hr hnot
    rw [hthin.good.core.queue_eq]
    exact List.mem_filterMap.mpr ⟨r, hr, if_neg hnot⟩
  constructor
  · intro s i r hr
    rw [h.core.queue_eq] at hr
    constructor
    · intro hgone
      by_contra hnot
      exact hgone ⟨s, i, _, hstays s i r hr hnot, rfl⟩
    · exact fun hgone hr' => hrests s i r hr hr' hgone
  · intro s i r hr hr'
    rw [h.core.queue_eq] at hr
    have hnot := hrests s i r hr hr'
    exact ⟨_, Resting.size_shrink (not_le.mp (not_or.mp hnot).2), hstays s i r hr hnot⟩
  · intro s i
    rw [hthin.good.core.queue_eq, h.core.queue_eq]
    refine map_filterMap_sublist (fun r r' hr => ?_) _
    rw [(hid hr).1]
    rfl

/-- **The order of the calls cannot be told** from the book that they leave. -/
theorem Reachable.decrements_perm {cfg : Config} (h : Reachable cfg b) (hperm : ds.Perm ds') :
    ∃ b₁ b₂, b.decrements ds = .ok b₁ ∧ b.decrements ds' = .ok b₂ ∧ SameView b₁ b₂ ∧
      Decremented b b₁ ds := by
  obtain ⟨hgood, -⟩ := h.good
  obtain ⟨b₁, hrun₁, hthin₁⟩ := hgood.decrements ds
  obtain ⟨b₂, hrun₂, hthin₂⟩ := hgood.decrements ds'
  have hview := hthin₁
  rw [outlast_perm hperm] at hview
  exact ⟨b₁, b₂, hrun₁, hrun₂, hview.sameView hthin₂, hgood.decremented hthin₁⟩

theorem tradedBook_decrements_perm :
    ∃ b₁ b₂, tradedBook.decrements [.reduce 1 1, .cancel 1] = .ok b₁ ∧
      tradedBook.decrements [.cancel 1, .reduce 1 1] = .ok b₂ ∧ SameView b₁ b₂ ∧
      Decremented tradedBook b₁ [.reduce 1 1, .cancel 1] :=
  tradedBook_reachable.decrements_perm (.swap _ _ _)

end Runs

end OrderBook

end Lob
