import Lob.Equiv.OrderBook.Conservation
import Lob.Equiv.OrderBook.Exhaustion
import Lob.Equiv.OrderBook.RelabelCalls

/-!
# The cost of matching

An order that trades takes every order away that it trades with, but for the last one.  So the
trades of a call, together with the orders that are open after it, are at most one more than the
orders that were open before it, and only a `submit` that takes effect adds the one
(`Submits.trades_le`).  Over a run, all trades and the orders that are still open are together no
more than the orders that have come in (`trades_add_openOrders_le`), however many trades a single
order makes.
-/

namespace Lob

open Queues

/-- How many orders the call may open.  That of a `modify` has the place of another one. -/
def Call.opens : Call → ℕ
  | .submit _ => 1
  | _ => 0

/-- The call is a `submit` that takes effect. -/
def Call.enters : Call → OrderBook.Answer → Bool
  | .submit _, .submitted res => res.status ≠ .rejected && res.status ≠ .cancelled
  | _, _ => false

namespace OrderBook

variable {M : Type} {b b' : OrderBook M} {A A' : Queues} {s : Side} {i n : ℕ} {r : Resting}
  {ls : List ℕ} {xs ys : List Resting} {o : NewOrder} {c : Call} {trades trades' : List Trade}

section Good

variable [IdMap M] [IndexedBy M]

/-! ### How many orders are open -/

/-- The ids of one book rest in the other one, but for those of the list. -/
theorem Good.openOrders_le_add (h : Good b A) (h' : Good b' A') (new : List OrderId)
    (hrests : ∀ id, A'.Rests id → id ∈ new ∨ A.Rests id) :
    b'.openOrders ≤ b.openOrders + new.length := by
  obtain ⟨ids, -, hmem, hlen⟩ := h.exists_ids
  rw [← hlen, Nat.add_comm, ← List.length_append]
  refine h'.openOrders_le fun id hid => List.mem_append.mpr ?_
  exact (hrests id hid).imp_right (hmem id).mpr

theorem openOrders_new (cfg : Config) : (new cfg : OrderBook M).openOrders = 0 := by
  have hgood : Good (new cfg : OrderBook M) Queues.empty := new_good cfg
  have hids : ∀ id, Queues.empty.Rests id → id ∈ ([] : List OrderId) := by
    rintro id ⟨s, i, r, hr, -⟩
    cases hr
  exact Nat.le_zero.mp (hgood.openOrders_le hids)

theorem Shrunk.openOrders_le {qty : Quantity} (h : Good b A)
    (hs : Shrunk b A s i xs r ys qty b') : b'.openOrders ≤ b.openOrders := by
  refine h.openOrders_le_add hs.good [] fun id hid => Or.inr ?_
  obtain ⟨t, j, r', hr', rfl⟩ := hid
  revert hr'
  apply set_forall (P := fun t j q => r' ∈ q → A.Rests r'.id)
  · intro hr'
    have hq := hs.queue_eq
    rcases List.mem_append.mp hr' with hmem | hmem
    · exact ⟨s, i, r', by simp [hq, hmem], rfl⟩
    · rcases List.mem_cons.mp hmem with rfl | hmem
      · exact ⟨s, i, r, by simp [hq], rfl⟩
      · exact ⟨s, i, r', by simp [hq, hmem], rfl⟩
  · exact fun t j _ hr' => ⟨t, j, r', hr', rfl⟩

/-- The orders of different levels, counted level by level. -/
theorem length_orders (B : Queues) (s : Side) (hnodup : ls.Nodup) (hlt : ∀ i ∈ ls, i < n) :
    (B.orders s ls).length = ∑ j ∈ Finset.range n, if j ∈ ls then (B s j).length else 0 := by
  have hsub : ls.toFinset ⊆ Finset.range n := fun i hi =>
    Finset.mem_range.mpr (hlt i (List.mem_toFinset.mp hi))
  unfold Queues.orders
  rw [List.length_flatMap, ← List.sum_toFinset _ hnodup, ← Finset.sum_filter]
  refine Finset.sum_congr ?_ fun _ _ => rfl
  ext j
  rw [Finset.mem_filter, List.mem_toFinset, Finset.mem_range]
  exact ⟨fun hj => ⟨hlt j hj, hj⟩, And.right⟩

/-- A fill takes those orders off the book that it takes off its levels. -/
theorem Matched.openOrders_add (h : Good b A) (hm : Matched b A s ls n b' A') (hnodup : ls.Nodup)
    (hlt : ∀ i ∈ ls, i < b.cfg.numLevels) :
    b'.openOrders + (A.orders s ls).length = b.openOrders +
      (Greedy.leftover Resting.size Resting.shrink (A.orders s ls) n).length := by
  rw [← hm.leftover_eq, hm.good.core.openOrders_eq_sum, h.core.openOrders_eq_sum, hm.cfg_eq,
    length_orders A s hnodup hlt, length_orders A' s hnodup hlt]
  show ∑ j ∈ Finset.range _, _ + _ = ∑ j ∈ Finset.range _, _ + _
  rw [← Finset.sum_add_distrib, ← Finset.sum_add_distrib]
  refine Finset.sum_congr rfl fun j _ => ?_
  have hother : A' (opposite s) j = A (opposite s) j :=
    hm.other_eq _ _ fun hcon => opposite_ne s hcon.1
  by_cases hj : j ∈ ls
  · rw [if_pos hj, if_pos hj]
    cases s <;> simp only [opposite] at hother <;> rw [hother] <;> omega
  · have hsame : A' s j = A s j := hm.other_eq _ _ fun hcon => hj hcon.2
    rw [if_neg hj, if_neg hj]
    cases s <;> simp only [opposite] at hother <;> rw [hother, hsame]

/-! ### The trades of a call -/

theorem length_trades (o : NewOrder) (q : List Resting) :
    (o.trades q).length = (Greedy.fills Resting.size q o.qty.toNat).length := List.length_map _

/-- All but one of the orders that are traded with leave the book. -/
theorem Matched.trades_le (h : Good b A)
    (hm : Matched b A (opposite o.side) (b.sources o) o.qty.toNat b' A') :
    (o.trades (A.orders (opposite o.side) (b.sources o))).length + b'.openOrders ≤
      b.openOrders + 1 := by
  obtain ⟨hnodup, hlt⟩ := b.sources_nodup o
  have hopen := hm.openOrders_add h hnodup hlt
  have hfills := Greedy.length_leftover_add_fills_le Resting.size Resting.shrink
    (A.orders (opposite o.side) (b.sources o)) o.qty.toNat
  rw [length_trades]
  omega

/-- All of them do if the order asks for more than they have. -/
theorem Matched.trades_eq (h : Good b A)
    (hm : Matched b A (opposite o.side) (b.sources o) o.qty.toNat b' A')
    (hle : Greedy.total Resting.size (A.orders (opposite o.side) (b.sources o)) ≤ o.qty.toNat) :
    (o.trades (A.orders (opposite o.side) (b.sources o))).length + b'.openOrders =
      b.openOrders := by
  obtain ⟨hnodup, hlt⟩ := b.sources_nodup o
  have hopen := hm.openOrders_add h hnodup hlt
  have hfills := Greedy.length_leftover_add_fills Resting.size Resting.shrink hle
  rw [length_trades]
  omega

/-- **The trades of a `submit`** and the orders that it leaves are no more than the orders it found,
and itself if it takes effect. -/
theorem Submits.trades_le {res : SubmitResult} (h : Good b A)
    (hs : Submits b A o trades (.ok (b', res) trades')) : ∃ new, trades' = trades ++ new ∧
      new.length + b'.openOrders ≤
        b.openOrders + ((Call.submit o).enters (.submitted res)).toNat := by
  cases hs with
  | rejected | killed | crossing => exact ⟨[], (List.append_nil _).symm, by simp⟩
  | filled _ hm => exact ⟨_, rfl, hm.trades_le h⟩
  | dropped _ hm hn =>
    exact ⟨_, rfl, (hm.trades_eq h (Nat.le.intro ((Nat.add_comm _ _).trans hn))).le.trans
      (Nat.le_add_right _ _)⟩
  | @rested b₁ _ A₁ n p _ hm hn _ _ _ _ hgood =>
    have htrades := hm.trades_eq h (Nat.le.intro ((Nat.add_comm _ _).trans hn))
    have hle := hm.good.openOrders_le_add hgood [o.id] fun id hid => by
      obtain ⟨t, j, r', hr', rfl⟩ := hid
      revert hr'
      apply set_forall (P := fun t j q => r' ∈ q → r'.id ∈ [o.id] ∨ A₁.Rests r'.id)
      · intro hr'
        rcases List.mem_append.mp hr' with hmem | hmem
        · exact Or.inr ⟨_, _, r', hmem, rfl⟩
        · obtain rfl := List.mem_singleton.mp hmem
          exact Or.inl (List.mem_singleton_self _)
      · exact fun t j _ hr' => Or.inr ⟨t, j, r', hr', rfl⟩
    have henters : (Call.submit o).enters
        (.submitted ⟨if o.qty = n then .accepted else .partiallyFilled, o.qty - n, n⟩) = true := by
      by_cases hqty : o.qty = n
      · rw [if_pos hqty]
        rfl
      · rw [if_neg hqty]
        rfl
    refine ⟨_, rfl, ?_⟩
    rw [henters, ← htrades, Nat.add_assoc]
    exact Nat.add_le_add_left hle _

/-- The order that comes in for another one has its place. -/
theorem Step.trades_le (h : Good b A) (hs : Step b A trades c (.ok b' trades')) :
    ∃ new, trades' = trades ++ new ∧ new.length + b'.openOrders ≤ b.openOrders + c.opens := by
  cases hs with
  | unchanged => exact ⟨[], (List.append_nil _).symm, by simp⟩
  | dropped _ hd =>
    refine ⟨[], (List.append_nil _).symm, ?_⟩
    have := hd.openOrders_lt h
    simp only [List.length_nil]
    omega
  | shrunk hs =>
    refine ⟨[], (List.append_nil _).symm, ?_⟩
    have := hs.openOrders_le h
    simp only [List.length_nil]
    omega
  | submitted hs =>
    obtain ⟨new, rfl, hle⟩ := hs.trades_le h
    exact ⟨new, rfl, hle.trans (Nat.add_le_add_left (Bool.toNat_le _) _)⟩
  | replaced _ hd hs =>
    obtain ⟨new, rfl, hle⟩ := hs.trades_le hd.good
    refine ⟨new, rfl, hle.trans ?_⟩
    exact (Nat.add_le_add_left (Bool.toNat_le _) _).trans (hd.openOrders_lt h)

theorem Step.openOrders_le (h : Good b A) (hs : Step b A trades c (.ok b' trades')) :
    b'.openOrders ≤ b.openOrders + c.opens := by
  obtain ⟨new, -, hle⟩ := hs.trades_le h
  exact (Nat.le_add_left _ _).trans hle

theorem Good.answer_trades_le (h : Good b A) (hsafe : Safe b A c) {a : Answer}
    (hrun : (b.answer c).run trades = .ok (b', a) trades') : ∃ new, trades' = trades ++ new ∧
      new.length + b'.openOrders ≤ b.openOrders + (c.enters a).toNat := by
  have hexec : (b.exec c).run trades = .ok b' trades' := by
    rw [exec_eq_answer, map_eq_pure_bind]
    exact sink_bind hrun _
  cases c with
  | submit o =>
    obtain ⟨⟨b₁, res⟩, trades₁, hsubmit, hreturn⟩ := exists_of_sink_bind hrun
    cases hreturn
    have hs := h.submit o trades fun hp => hsafe.erases _ (.submit hp)
    rw [hsubmit] at hs
    exact hs.trades_le h
  | cancel | reduce | modify =>
    have hs := h.exec hsafe trades
    rw [hexec] at hs
    obtain ⟨new, rfl, hle⟩ := hs.trades_le h
    exact ⟨new, rfl, hle.trans (Nat.add_le_add_left (Nat.zero_le _) _)⟩

end Good

/-! ### Runs -/

theorem Reachable.trades_le [LawfulIdMap M] {cfg : Config} (h : Reachable cfg b) {cs : List Call}
    {as : List Answer} (hrun : (b.answers cs).run trades = .ok (b', as) trades') :
    trades'.length + b'.openOrders ≤ trades.length + b.openOrders +
      (cs.zip as).countP fun x => x.1.enters x.2 := by
  induction cs generalizing b as trades with
  | nil =>
    cases hrun
    exact Nat.le_add_right _ _
  | cons c cs ih =>
    obtain ⟨⟨b₁, a⟩, trades₁, hanswer, hrest⟩ := exists_of_sink_bind hrun
    obtain ⟨⟨b₂, as'⟩, trades₂, hanswers, hreturn⟩ := exists_of_sink_bind hrest
    cases hreturn
    obtain ⟨new, rfl, hle⟩ := h.good.1.answer_trades_le (safe_of_lawful b _ c) hanswer
    have hrest := ih (Run.answer h trivial hanswer) hanswers
    rw [List.zip_cons_cons, List.countP_cons]
    rw [List.length_append] at hrest
    have hone : (c.enters a).toNat = if c.enters a = true then 1 else 0 := by
      cases c.enters a <;> rfl
    dsimp only
    omega

/-- **The trades of a run** and the orders that are open at its end are no more than the orders
that came in and were neither rejected nor cancelled at once. -/
theorem trades_add_openOrders_le [LawfulIdMap M] {cfg : Config} {cs : List Call} {as : List Answer}
    (hrun : ((new cfg : OrderBook M).answers cs).run [] = .ok (b, as) trades) :
    trades.length + b.openOrders ≤ (cs.zip as).countP fun x => x.1.enters x.2 := by
  have hle := Reachable.trades_le (Run.new : Reachable cfg (new cfg)) hrun
  rw [openOrders_new] at hle
  simpa using hle

/-- Two bids are swept by one offer, which rests with what is left of it. -/
def sweep : List Call :=
  [.submit (gtcOrder 1 .buy 1 2), .submit (gtcOrder 2 .buy 2 3), .submit (gtcOrder 3 .sell 1 9)]

theorem sweep_trades_add_openOrders_le : ∃ (b : OrderBook PlainIdMap) (trades : List Trade),
    ((new smallConfig : OrderBook PlainIdMap).answers sweep).run [] =
        .ok (b, [.submitted ⟨.accepted, 0, 2⟩, .submitted ⟨.accepted, 0, 3⟩,
          .submitted ⟨.partiallyFilled, 5, 4⟩]) trades ∧
      trades.length + b.openOrders ≤ 3 := by
  have hanswered : (new smallConfig : OrderBook PlainIdMap).answered sweep =
      some [.submitted ⟨.accepted, 0, 2⟩, .submitted ⟨.accepted, 0, 3⟩,
        .submitted ⟨.partiallyFilled, 5, 4⟩] := by decide +kernel
  obtain ⟨b, trades, hrun⟩ := answered_eq_some hanswered
  exact ⟨b, trades, hrun, trades_add_openOrders_le hrun⟩

end OrderBook

end Lob
