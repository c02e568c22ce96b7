import Lob.Equiv.OrderBook.Representation

/-!
# A rejected `modify`

`modify` cancels an order that cannot stay in its place before it submits the new one, so that an
order with a new quantity of zero, or a new price out of range, is gone when the submission is
rejected.  Every other `modify` that is rejected changes nothing (`Reachable.rejectsCleanly_iff`).
-/

namespace Lob.OrderBook

open Queues

variable {M : Type} [IdMap M] {b b' : OrderBook M} {A : Queues} {s : Side} {i : ℕ} {r : Resting}
  {xs ys : List Resting} {o : NewOrder} {trades trades' : List Trade}

/-- The same orders with the same quantities in the same places, and the same answers. -/
structure SameBook (b b' : OrderBook M) : Prop where
  queue_eq : b'.queue = b.queue
  bestBid_eq : b'.bestBid = b.bestBid
  bestAsk_eq : b'.bestAsk = b.bestAsk
  totalAt_eq : ∀ s p, b'.totalAt s p = b.totalAt s p
  find_eq : ∀ id, b'.find id = b.find id

theorem SameBook.refl (b : OrderBook M) : SameBook b b :=
  ⟨rfl, rfl, rfl, fun _ _ => rfl, fun _ => rfl⟩

/-- **If the `modify` is rejected, nothing changes** and no trade is made. -/
def RejectsCleanly (b : OrderBook M) (id : OrderId) (newQty : Quantity) (newPrice : Price)
    (ts : Timestamp) : Prop :=
  ∀ trades b' res trades', (b.modify id newQty newPrice ts).run trades = .ok (b', res) trades' →
    res.status = .rejected → trades' = trades ∧ SameBook b b'

section Outcomes

variable [IndexedBy M]

/-- Only the checks at the beginning reject an order. -/
theorem Submits.rejects {res : SubmitResult} (hs : Submits b A o trades (.ok (b', res) trades'))
    (hres : res.status = .rejected) : Rejects b A o := by
  cases hs with
  | rejected h => exact h
  | killed | crossing | filled => cases hres
  | dropped =>
    dsimp only at hres
    split_ifs at hres
  | rested =>
    dsimp only at hres
    split_ifs at hres

/-- The id of an order that has been dropped is free. -/
theorem Dropped.not_rests (h : Good b A) (hd : Dropped b A s i xs r ys b') :
    ¬(A.set s i (xs ++ ys)).Rests r.id := by
  intro hr
  obtain ⟨p, hp⟩ := rests_iff.mp hr
  obtain ⟨hp, hne⟩ := (h.core.distinct.binds_remove hd.queue_eq).mp hp
  exact hne (h.indexed.slot_unique hp (binds_of_split hd.queue_eq))

/-- A change of an order that cannot stay in its place is rejected if the new quantity is zero or
the new price out of range. -/
theorem Dropped.rejects_iff (h : Good b A) (hd : Dropped b A s i xs r ys b') (newQty : Quantity)
    (newPrice : Price) (ts : Timestamp) :
    Rejects b' (A.set s i (xs ++ ys)) (r.replacement s newQty newPrice ts) ↔
      newQty = 0 ∨ ¬b.inRange newPrice = true := by
  have hrange := inRange_congr hd.cfg_eq newPrice
  have hid : r.id ≠ kInvalidOrderId := h.indexed.ne_invalid (binds_of_split hd.queue_eq)
  constructor
  · rintro (hqty | hinv | hrests | ⟨-, hout⟩)
    · exact Or.inl hqty
    · exact absurd hinv hid
    · exact absurd hrests (hd.not_rests h)
    · exact Or.inr (hrange ▸ hout)
  · rintro (hqty | hout)
    · exact Or.inl hqty
    · exact Or.inr (Or.inr (Or.inr ⟨nofun, hrange.symm ▸ hout⟩))

end Outcomes

/-- **A rejected `modify` changes nothing** if and only if no order rests under the id, or the new
quantity and the new price are valid ones. -/
theorem Reachable.rejectsCleanly_iff {M : Type} [LawfulIdMap M] {cfg : Config} {b : OrderBook M}
    (h : Reachable cfg b) (id : OrderId) (newQty : Quantity) (newPrice : Price)
    (ts : Timestamp) :
    RejectsCleanly b id newQty newPrice ts ↔
      ¬b.queue.Rests id ∨ (newQty ≠ 0 ∧ b.inRange newPrice = true) := by
  obtain ⟨hgood, -⟩ := h.good
  by_cases hrests : b.queue.Rests id
  · rw [or_iff_right (not_not.mpr hrests)]
    obtain ⟨s, i, r, hr, rfl⟩ := hrests
    obtain ⟨xs, ys, hq⟩ := List.append_of_mem hr
    by_cases hin : r.InPlace newQty newPrice
    · -- the order stays where it is, and the result is `Accepted`
      have hr' := hgood.core.placed s i r hr
      have hprice := inRange_of_level (b := b) hr'.level_eq hr'.inside hr'.small
      refine iff_of_true (fun trades b' res trades' hrun hres => ?_)
        ⟨(UInt32.pos_iff_ne_zero.mp hin.2.1), hin.1 ▸ hprice⟩
      obtain ⟨b₁, hshrink, -⟩ := hgood.shrink_to hq hin
      rw [hgood.modify_shrink hq hin hshrink ts trades] at hrun
      cases hrun
      cases hres
    · obtain ⟨b₁, hdrop, hd, -⟩ := hgood.drop hq trivial
      have hrun := hgood.modify_submit hq hin hdrop ts
      have hrej := hd.rejects_iff hgood newQty newPrice ts
      by_cases hbad : newQty = 0 ∨ ¬b.inRange newPrice = true
      · -- the order is gone, and the new one is rejected
        refine iff_of_false (fun hclean => ?_) (by tauto)
        have hrun' := (hrun []).trans (hd.good.submit_rejects (hrej.mpr hbad) [])
        have hsame := (hclean [] _ _ _ hrun' rfl).2.queue_eq
        -- the queue of the order is shorter by one
        have hlen := congrArg (fun A : Queues => (A s i).length) hsame
        simp [hd.good.core.queue_eq, hq] at hlen
      · refine iff_of_true (fun trades b' res trades' hrun' hres => ?_) (by tauto)
        have hs := hd.good.submit (r.replacement s newQty newPrice ts) trades
          fun _ => erasesOk_of_lawful _ _
        rw [← hrun trades, hrun'] at hs
        -- a result of `Rejected` means that a check has failed
        exact absurd (hrej.mp (hs.rejects hres)) hbad
  · refine iff_of_true (fun trades b' res trades' hrun _ => ?_) (Or.inl hrests)
    rw [hgood.modify_none trivial hrests newQty newPrice ts trades] at hrun
    cases hrun
    exact ⟨rfl, .refl b⟩

theorem tradedBook_rejectsCleanly_iff :
    RejectsCleanly tradedBook 1 0 1 0 ↔
      ¬tradedBook.queue.Rests 1 ∨ ((0 : Quantity) ≠ 0 ∧ tradedBook.inRange 1 = true) :=
  tradedBook_reachable.rejectsCleanly_iff 1 0 1 0

/-- The ask with the id 1 is changed to a quantity of zero. -/
theorem modify_zero_removes_order :
    ¬∀ (cfg : Config) (b : OrderBook PlainIdMap), Reachable cfg b →
      ∀ id newQty newPrice ts, RejectsCleanly b id newQty newPrice ts := by
  intro hall
  have hclean := hall _ _ tradedBook_reachable 1 0 1 0 []
  -- evaluated in one go, since a book cannot be compared
  have hgone : (match (tradedBook.modify 1 0 1 0).run [] with
      | .ok (b', res) _ => decide (res.status = .rejected ∧ b'.queue .sell 1 = [])
      | .error _ _ => false) = true := by decide
  have hthere : tradedBook.queue .sell 1 ≠ [] := by decide
  cases hrun : (tradedBook.modify 1 0 1 0).run [] with
  | ok x trades' =>
    rw [hrun] at hgone
    obtain ⟨hrej, hnil⟩ := of_decide_eq_true hgone
    have hsame := (hclean _ _ _ hrun hrej).2.queue_eq
    exact hthere (hsame ▸ hnil)
  | error e trades' =>
    rw [hrun] at hgone
    cases hgone

end Lob.OrderBook
