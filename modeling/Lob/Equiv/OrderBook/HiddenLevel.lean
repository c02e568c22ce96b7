import Lob.Equiv.OrderBook.Representation

/-!
# A level that the bitmap does not show

A book for more than `2^32` orders reaches a state in which a level has orders but a clear bit
(`hiddenAsks`): `2^32 + 1` asks rest at one price, and the last one is cancelled, so that the count
of the level wraps to zero.
-/

namespace Lob.OrderBook

open Queues

variable {M : Type} {b : OrderBook M} {A : Queues} {o : NewOrder}

/-! ### Orders that rest without a trade -/

/-- Without a bit that is set there is nothing to trade with. -/
theorem sources_eq_nil (h : ∀ i, b.bit (opposite o.side) i = false) : b.sources o = [] := by
  have hvis : b.visible (opposite o.side) = [] := List.filter_eq_nil_iff.mpr fun i _ hi => by
    rw [← bit, h i] at hi
    cases hi
  unfold sources crossing upTo
  rw [hvis]
  split_ifs <;> rfl

theorem Backed.bit_eq_false (h : Backed b A) {s : Side} {i : ℕ} (hnil : A s i = []) :
    b.bit s i = false := by
  by_contra hne
  exact h s i (Bool.not_eq_false _ ▸ hne) hnil

variable [IdMap M]

theorem exec_submit_ok {b' : OrderBook M} {res : SubmitResult} {trades trades' : List Trade}
    (h : (b.submitOrder o).run trades = .ok (b', res) trades') :
    (b.exec (.submit o)).run trades = .ok b' trades' := by
  unfold exec
  rw [sink_bind h]
  rfl

/-- Without levels to be filled from, nothing is filled. -/
theorem Matched.eq_of_nil [IndexedBy M] {b' : OrderBook M} {A' : Queues} {s : Side} {n : ℕ}
    (hm : Matched b A s [] n b' A') : A' = A := by
  ext1 t
  ext1 j
  exact hm.other_eq t j fun hcon => by cases hcon.2

/-- **A limit order that finds nothing to trade with** goes to the end of its level, if the slab has
a slot for it. -/
theorem Good.submit_appends [IndexedBy M] (h : Good b A) (ht : o.type = .limit)
    (htif : o.tif = .gtc) (hr : ¬Rejects b A o) (hsrc : b.sources o = []) (trades : List Trade) :
    (b.openOrders = b.cfg.maxOrders ∧
      (b.submitOrder o).run trades = .error .slabExhausted trades) ∨
    ∃ b' p, (b.submitOrder o).run trades = .ok (b', ⟨.accepted, 0, o.qty⟩) trades ∧
      b'.cfg = b.cfg ∧
      Good b' (A.set o.side (b.priceToIdx o.price).toNat
        (A o.side (b.priceToIdx o.price).toNat ++ [⟨p, o.id, o.price, o.qty⟩])) := by
  have hs := h.submit o trades fun _ => by
    unfold filledIds
    rw [hsrc]
    trivial
  have horders : A.orders (opposite o.side) (b.sources o) = [] := by
    rw [hsrc]
    rfl
  have htrades : trades ++ o.trades (A.orders (opposite o.side) (b.sources o)) = trades := by
    rw [horders]
    exact List.append_nil _
  have hqty : o.qty.toNat ≠ 0 := fun hz => hr (Or.inl (UInt32.toNat_inj.mp hz))
  generalize (b.submitOrder o).run trades = x at hs ⊢
  cases hs with
  | rejected hrej => exact absurd hrej hr
  | killed _ hfok => rw [htif] at hfok; cases hfok
  | crossing _ hpost => rw [htif] at hpost; cases hpost
  | filled _ _ hle =>
    rw [horders] at hle
    exact absurd (Nat.le_zero.mp hle) hqty
  | dropped _ _ _ _ hdrop =>
    rw [ht, htif] at hdrop
    rcases hdrop with hdrop | hdrop <;> cases hdrop
  | @rested b₁ _ A₁ n p hp hm hn hpos _ hcfg _ hgood =>
    rw [hsrc] at hm
    rw [horders] at hn
    obtain rfl := hm.eq_of_nil
    obtain rfl : n = o.qty := UInt32.toNat_inj.mp hn
    refine Or.inr ⟨_, p, ?_, hcfg, hgood⟩
    rw [htrades, if_pos rfl, UInt32.sub_self]
  | @full b₁ A₁ _ hm _ _ hfull =>
    rw [hsrc] at hm
    obtain rfl := hm.eq_of_nil
    rw [hm.good.core.openOrders_eq_sum, hm.cfg_eq, ← h.core.openOrders_eq_sum] at hfull
    rw [htrades]
    exact Or.inl ⟨hfull, rfl⟩

theorem Good.submit_rests [IndexedBy M] (h : Good b A) (ht : o.type = .limit) (htif : o.tif = .gtc)
    (hr : ¬Rejects b A o) (hsrc : b.sources o = []) (hroom : b.openOrders < b.cfg.maxOrders)
    (trades : List Trade) :
    ∃ b' p, (b.submitOrder o).run trades = .ok (b', ⟨.accepted, 0, o.qty⟩) trades ∧
      b'.queue = A.set o.side (b.priceToIdx o.price).toNat
        (A o.side (b.priceToIdx o.price).toNat ++ [⟨p, o.id, o.price, o.qty⟩]) := by
  rcases h.submit_appends ht htif hr hsrc trades with ⟨hfull, -⟩ | ⟨b', p, hrun, -, hgood⟩
  · exact absurd hfull hroom.ne
  · exact ⟨b', p, hrun, hgood.core.queue_eq⟩

/-! ### Asks at one price -/

/-- One level, at price 0, and room for more than `2^32` orders. -/
def hugeConfig : Config := ⟨0, 1, 2 ^ 32 + 2, by decide, by decide⟩

/-- `k` asks rest, and nothing else. -/
structure Asks (k : ℕ) (b : OrderBook PlainIdMap) : Prop where
  reachable : Reachable hugeConfig b
  bids_eq : ∀ i, b.queue .buy i = []
  others_eq : ∀ i ≠ 0, b.queue .sell i = []
  ids_eq : (b.queue .sell 0).map (fun r => r.id.toNat) = List.range' 1 k

theorem Asks.length_eq {k : ℕ} {b : OrderBook PlainIdMap} (h : Asks k b) :
    (b.queue .sell 0).length = k := by
  have hlen := congrArg List.length h.ids_eq
  rwa [List.length_map, List.length_range'] at hlen

theorem Asks.id_le {k : ℕ} {b : OrderBook PlainIdMap} (h : Asks k b) {r : Resting}
    (hr : r ∈ b.queue .sell 0) : r.id.toNat ≤ k := by
  have hmem := List.mem_map_of_mem (f := fun r : Resting => r.id.toNat) hr
  rw [h.ids_eq, List.mem_range'_1] at hmem
  omega

theorem Asks.exists_mem {k : ℕ} {b : OrderBook PlainIdMap} (h : Asks k b) (hk : 0 < k) :
    ∃ r, r ∈ b.queue .sell 0 := by
  apply List.exists_mem_of_length_pos
  rwa [h.length_eq]

theorem Asks.price_eq {k : ℕ} {b : OrderBook PlainIdMap} (h : Asks k b) {r : Resting}
    (hr : r ∈ b.queue .sell 0) : r.price = 0 := by
  obtain ⟨hgood, hcfg⟩ := h.reachable.good
  have hlevel := (hgood.core.placed _ _ _ hr).level_eq
  rw [hcfg] at hlevel
  exact Int32.toInt_inj.mp hlevel

theorem Asks.openOrders_eq {k : ℕ} {b : OrderBook PlainIdMap} (h : Asks k b) :
    b.openOrders = k := by
  obtain ⟨hgood, hcfg⟩ := h.reachable.good
  have hlevels : b.cfg.numLevels = 1 := by rw [hcfg]; rfl
  rw [hgood.core.openOrders_eq_sum, hlevels]
  simp [h.bids_eq, h.length_eq]

theorem Asks.not_rests {k : ℕ} {b : OrderBook PlainIdMap} (h : Asks k b) {id : OrderId}
    (hid : k < id.toNat) : ¬b.queue.Rests id := by
  rintro ⟨s, i, r, hr, rfl⟩
  cases s with
  | buy => simp [h.bids_eq] at hr
  | sell =>
    by_cases hi : i = 0
    · subst hi
      exact absurd (h.id_le hr) (not_le.mpr hid)
    · simp [h.others_eq i hi] at hr

theorem hugeConfig_priceToIdx {b : OrderBook PlainIdMap} (hcfg : b.cfg = hugeConfig) :
    b.inRange 0 = true ∧ (b.priceToIdx 0).toNat = 0 := by
  unfold inRange priceToIdx
  rw [hcfg]
  decide

/-- A limit order for a quantity of one at price 0 that finds nothing to trade with. -/
theorem Asks.submit_rests {k : ℕ} {b : OrderBook PlainIdMap} (h : Asks k b)
    (hroom : k < 2 ^ 32 + 2) (id : OrderId) (hid : k < id.toNat) (s : Side)
    (hbits : ∀ i, b.bit (opposite s) i = false) (trades : List Trade) :
    ∃ b' p, (b.submitOrder (gtcOrder id s 0 1)).run trades = .ok (b', ⟨.accepted, 0, 1⟩) trades ∧
      b'.queue = b.queue.set s 0 (b.queue s 0 ++ [⟨p, id, 0, 1⟩]) := by
  obtain ⟨hgood, hcfg⟩ := h.reachable.good
  obtain ⟨hprice, hidx⟩ := hugeConfig_priceToIdx hcfg
  have hne : id ≠ kInvalidOrderId := by
    rintro rfl
    exact absurd hid (Nat.not_lt_zero k)
  have hr : ¬Rejects b b.queue (gtcOrder id s 0 1) := by
    rintro (hqty | hzero | hrests | hout)
    · cases hqty
    · exact hne hzero
    · exact h.not_rests hid hrests
    · exact hout.2 hprice
  have hopen : b.openOrders < b.cfg.maxOrders := by
    rw [h.openOrders_eq, hcfg]
    exact hroom
  obtain ⟨b', p, hrun, hq⟩ := hgood.submit_rests rfl rfl hr (sources_eq_nil hbits) hopen trades
  change b'.queue = b.queue.set s (b.priceToIdx 0).toNat
    (b.queue s (b.priceToIdx 0).toNat ++ [⟨p, id, 0, 1⟩]) at hq
  rw [hidx] at hq
  exact ⟨b', p, hrun, hq⟩

/-- One ask more. -/
theorem Asks.succ {k : ℕ} {b : OrderBook PlainIdMap} (h : Asks k b) (hk : k < 2 ^ 32 + 2) :
    ∃ b', Asks (k + 1) b' := by
  -- the ids count up from 1 and stay below `2 ^ 64`
  have hid : (UInt64.ofNat (k + 1)).toNat = k + 1 := by
    rw [UInt64.toNat_ofNat']
    omega
  obtain ⟨b', p, hrun, hq⟩ := h.submit_rests hk (UInt64.ofNat (k + 1)) (by omega) .sell
    (fun i => h.reachable.good.1.backed.bit_eq_false (h.bids_eq i)) []
  have hreachable : Reachable hugeConfig b' := h.reachable.step trivial (exec_submit_ok hrun)
  refine ⟨b', hreachable, ?_, ?_, ?_⟩
  · intro i
    rw [hq, set_of_ne fun ht => absurd ht (by decide), h.bids_eq]
  · intro i hi
    rw [hq, set_of_ne fun _ => hi, h.others_eq i hi]
  · rw [hq, set_self, List.map_append, h.ids_eq, List.range'_1_concat, List.map_singleton, hid,
      Nat.add_comm k 1]

theorem asks_exist (k : ℕ) (hk : k ≤ 2 ^ 32 + 2) : ∃ b, Asks k b := by
  induction k with
  | zero =>
    have hgood : Good (OrderBook.new hugeConfig : OrderBook PlainIdMap) Queues.empty := new_good _
    have hq := hgood.core.queue_eq
    refine ⟨OrderBook.new hugeConfig, .new, ?_, ?_, ?_⟩
    · exact fun i => by rw [hq]; rfl
    · exact fun i _ => by rw [hq]; rfl
    · rw [hq]
      rfl
  | succ k ih =>
    obtain ⟨b, hb⟩ := ih (Nat.le_of_succ_le hk)
    exact hb.succ hk

/-- **A hidden level.**  There are asks, but no bit is set. -/
theorem hiddenAsks : ∃ b, Asks (2 ^ 32) b ∧ ∀ s i, b.bit s i = false := by
  obtain ⟨b, h⟩ := asks_exist (2 ^ 32 + 1) (by omega)
  obtain ⟨hgood, hcfg⟩ := h.reachable.good
  -- the last ask is cancelled
  rcases List.eq_nil_or_concat (b.queue .sell 0) with hnil | ⟨xs, r, hq⟩
  · have hlen := h.length_eq
    rw [hnil, List.length_nil] at hlen
    omega
  rw [List.concat_eq_append] at hq
  obtain ⟨b', hdrop, hdr, -⟩ := hgood.drop hq trivial
  have hids := h.ids_eq
  rw [hq, List.map_append, List.range'_1_concat] at hids
  have hxs := (List.append_inj' hids rfl).1
  have hlen : xs.length = 2 ^ 32 := by
    have hlen := congrArg List.length hxs
    rwa [List.length_map, List.length_range'] at hlen
  have hexec : (b.exec (.cancel r.id)).run [] = .ok b' [] := by
    unfold exec
    rw [sink_bind (quiet_ok (hgood.cancel_eq hq hdrop) [])]
    rfl
  have hq' : b'.queue = b.queue.set .sell 0 (xs ++ []) := hdr.good.core.queue_eq
  have hbid : ∀ i, b'.queue .buy i = [] := fun i => by
    rw [hq', set_of_ne fun ht => absurd ht (by decide), h.bids_eq]
  have hask : ∀ i ≠ 0, b'.queue .sell i = [] := fun i hi => by
    rw [hq', set_of_ne fun _ => hi, h.others_eq i hi]
  have hreachable : Reachable hugeConfig b' := h.reachable.step trivial hexec
  have hbacked := hreachable.good.1.backed
  refine ⟨b', ⟨hreachable, hbid, hask, ?_⟩, fun s i => ?_⟩
  · rw [hq', set_self, List.append_nil, hxs]
  · cases s with
    | buy => exact hbacked.bit_eq_false (hbid i)
    | sell =>
      by_cases hi : i = 0
      · by_contra hne
        have hset : b'.bit .sell i = true := Bool.not_eq_false _ ▸ hne
        -- the count has wrapped to zero, which clears the bit
        refine ((hdr.bit_iff _ _).mp hset).2 ⟨rfl, hi, ?_⟩
        rw [List.append_nil, hlen, Nat.mod_self]
      · exact hbacked.bit_eq_false (hask i hi)

end Lob.OrderBook
