import Lob.Equiv.OrderBook.OneMarket
import Lob.Equiv.OrderBook.Uncrossed

/-!
# A book is its resting orders

The resting orders of a book that is reached, entered one after the other into a fresh book, make no
trade and make a book that no further calls can tell from the first one (`Reachable.rebuilt`): the
two have one market.
-/

namespace Lob

open OrderBook (Answer)

/-- The limit order that rests as the order `e` of side `s`. -/
def Entry.order (s : Side) (e : Entry) : NewOrder :=
  { id := e.id, side := s, type := .limit, tif := .gtc, price := e.price, qty := e.qty, ts := 0 }

namespace Market

/-- The orders of one side, as they are entered again. -/
def entries (m : Market) (s : Side) : List Call := (m s).map fun e => .submit (e.order s)

def accepted (e : Entry) : Answer := .submitted ⟨.accepted, 0, e.qty⟩

/-- What the orders of the market of a book have in common. -/
structure Sound (cfg : Config) (m : Market) : Prop where
  ids_nodup : ∀ s, ((m s).map Entry.id).Nodup
  ids_apart : ∀ s, ∀ e ∈ m s, ∀ e' ∈ m (opposite s), e'.id ≠ e.id
  id_ne : ∀ s, ∀ e ∈ m s, e.id ≠ kInvalidOrderId
  qty_ne : ∀ s, ∀ e ∈ m s, e.qty ≠ 0
  listed : ∀ s, ∀ e ∈ m s, cfg.Lists e.price
  sorted : ∀ s, ((m s).map Entry.price).Pairwise fun p q => ¬PriceBefore s q p
  uncrossed : ∀ s, ∀ e ∈ m s, ∀ e' ∈ m (opposite s), (e.order s).acceptsPrice e'.price = false
  room : m.size ≤ cfg.maxOrders

variable {cfg : Config} {m : Market} {s : Side} {e : Entry} {pre post : List Entry}
  {ts : List Trade}

/-! ### An order that is entered -/

theorem fill_of_nil {o : NewOrder} (h : m.matching o = []) : m.fill o = m := by
  have hall : (m (opposite o.side)).filter (fun e => !o.acceptsPrice e.price) =
      m (opposite o.side) := List.filter_eq_self.mpr fun e he => by
    have := List.filter_eq_nil_iff.mp h e he
    simpa using this
  unfold fill
  rw [h, hall]
  exact Function.update_eq_self _ _

/-- A limit order that finds nothing to trade with rests. -/
theorem submit_enters {o : NewOrder} (hr : ¬m.Refuses o cfg) (ht : o.type = .limit)
    (htif : o.tif = .gtc) (hnone : m.matching o = []) (hroom : m.size < cfg.maxOrders) :
    (m.submit cfg o).run ts = .ok (m.rest o o.qty, ⟨.accepted, 0, o.qty⟩) ts := by
  have havail : m.available o = 0 := by
    unfold available
    rw [hnone]
    rfl
  have hk : ¬m.Kills o := by
    rintro (⟨hfok, -⟩ | ⟨hpost, -⟩)
    · rw [htif] at hfok
      cases hfok
    · rw [htif] at hpost
      cases hpost
  have htrades : m.trades o = [] := by
    unfold trades
    rw [hnone]
    rfl
  have hrest : ¬(o.tif = .ioc ∨ o.type = .market) := by
    rw [ht, htif]
    decide
  rw [submit_executed hr hk, htrades, List.append_nil,
    settle_rested (remainder_of_add (by rw [havail, Nat.add_zero])) _ (fun hz => hr (Or.inl hz))
      hrest, fill_of_nil hnone, if_pos rfl, UInt32.sub_self]
  rw [fill_of_nil hnone]
  exact hroom.ne

theorem rest_last (h : ∀ e' ∈ m s, ¬PriceBefore s e.price e'.price) :
    m.rest (e.order s) e.qty = Function.update m s (m s ++ [e]) := by
  unfold rest
  show Function.update m s _ = _
  have hlast : ((m s ++ []).orderedInsert (fun a b => PriceBefore s a.price b.price) e) =
      m s ++ [e] := orderedInsert_append h nofun
  rw [List.append_nil] at hlast
  exact congrArg _ hlast

theorem size_eq (m : Market) (s : Side) : m.size = (m s).length + (m (opposite s)).length := by
  unfold size
  cases s with
  | buy => rfl
  | sell => exact Nat.add_comm _ _

/-- The next order of a market goes to the end of its side. -/
theorem Sound.enter (h : Sound cfg (Function.update m s (pre ++ e :: post))) :
    (Market.submit cfg (Function.update m s pre) (e.order s)).run ts =
      .ok (Function.update m s (pre ++ [e]), ⟨.accepted, 0, e.qty⟩) ts := by
  have hself : Function.update m s (pre ++ e :: post) s = pre ++ e :: post :=
    Function.update_self ..
  have hother : ∀ q : List Entry, Function.update m s q (opposite s) = m (opposite s) :=
    fun q => Function.update_of_ne (opposite_ne s) ..
  have he : e ∈ Function.update m s (pre ++ e :: post) s := by rw [hself]; simp
  have hr : ¬Market.Refuses (Function.update m s pre) (e.order s) cfg := by
    rintro (hqty | hid | hrests | ⟨-, hprice⟩)
    · exact h.qty_ne s e he hqty
    · exact h.id_ne s e he hid
    · obtain ⟨t, e', he', hid⟩ := rests_iff.mp hrests
      change e'.id = e.id at hid
      by_cases ht : t = s
      · subst ht
        have hnodup := h.ids_nodup t
        rw [hself, List.map_append, List.map_cons] at hnodup
        rw [Function.update_self] at he'
        exact List.disjoint_of_nodup_append hnodup (List.mem_map_of_mem he')
          (hid ▸ List.mem_cons_self)
      · obtain rfl : t = opposite s := by cases t <;> cases s <;> trivial
        rw [hother] at he'
        exact h.ids_apart s e he e' (by rwa [hother]) hid
    · exact hprice (h.listed s e he)
  have hnone : Market.matching (Function.update m s pre) (e.order s) = [] := by
    refine List.filter_eq_nil_iff.mpr fun e' he' haccepts => ?_
    have he' : e' ∈ Function.update m s pre (opposite s) := he'
    rw [hother] at he'
    rw [h.uncrossed s e he e' (by rwa [hother])] at haccepts
    cases haccepts
  have hroom : Market.size (Function.update m s pre) < cfg.maxOrders := by
    have hsize := h.room
    rw [size_eq _ s, hself, hother, List.length_append, List.length_cons] at hsize
    rw [size_eq _ s, Function.update_self, hother]
    omega
  have hlast : ∀ e' ∈ Function.update m s pre s, ¬PriceBefore s e.price e'.price := by
    have hsorted := h.sorted s
    rw [hself, List.map_append, List.map_cons, List.pairwise_append] at hsorted
    rw [Function.update_self]
    exact fun e' he' => hsorted.2.2 _ (List.mem_map_of_mem he') _ List.mem_cons_self
  rw [submit_enters hr rfl rfl hnone hroom]
  have hrest := rest_last hlast
  rw [Function.update_self, Function.update_idem] at hrest
  exact congrArg (fun m' => EStateM.Result.ok (m', _) ts) hrest

/-- The orders of one side, one after the other. -/
theorem Sound.enters (h : Sound cfg (Function.update m s (pre ++ post))) :
    (Market.answers cfg (Function.update m s pre)
      (post.map fun e => .submit (e.order s))).run ts =
        .ok (Function.update m s (pre ++ post), post.map accepted) ts := by
  induction post generalizing pre with
  | nil =>
    rw [List.append_nil]
    rfl
  | cons e post ih =>
    have hcall : (Market.answer cfg (Function.update m s pre) (.submit (e.order s))).run ts =
        .ok (Function.update m s (pre ++ [e]), accepted e) ts := by
      unfold Market.answer
      rw [OrderBook.sink_bind h.enter]
      rfl
    rw [List.append_cons] at h ⊢
    rw [List.map_cons]
    unfold Market.answers
    rw [OrderBook.sink_bind hcall, OrderBook.sink_bind (ih h)]
    rfl

theorem answers_append {m' m'' : Market} {cs cs' : List Call} {as as' : List Answer}
    {ts' ts'' : List Trade} (h : (m.answers cfg cs).run ts = .ok (m', as) ts')
    (h' : (m'.answers cfg cs').run ts' = .ok (m'', as') ts'') :
    (m.answers cfg (cs ++ cs')).run ts = .ok (m'', as ++ as') ts'' := by
  induction cs generalizing m as ts with
  | nil =>
    cases h
    exact h'
  | cons c cs ih =>
    obtain ⟨⟨m₁, a⟩, ts₁, hcall, hrest⟩ := OrderBook.exists_of_sink_bind h
    obtain ⟨⟨m₂, as₁⟩, ts₂, hcalls, hpure⟩ := OrderBook.exists_of_sink_bind hrest
    cases hpure
    rw [List.cons_append]
    unfold Market.answers
    rw [OrderBook.sink_bind hcall, OrderBook.sink_bind (ih hcalls)]
    rfl

theorem Sound.of_sublist {m' : Market} (h : Sound cfg m) (hsub : ∀ s, (m' s).Sublist (m s)) :
    Sound cfg m' where
  ids_nodup s := (h.ids_nodup s).sublist ((hsub s).map _)
  ids_apart s e he e' he' := h.ids_apart s e ((hsub _).mem he) e' ((hsub _).mem he')
  id_ne s e he := h.id_ne s e ((hsub s).mem he)
  qty_ne s e he := h.qty_ne s e ((hsub s).mem he)
  listed s e he := h.listed s e ((hsub s).mem he)
  sorted s := (h.sorted s).sublist ((hsub s).map _)
  uncrossed s e he e' he' := h.uncrossed s e ((hsub _).mem he) e' ((hsub _).mem he')
  room := (Nat.add_le_add (hsub .buy).length_le (hsub .sell).length_le).trans h.room

/-- **A market is made of its orders.**  Entered best first, they rest without a trade. -/
theorem Sound.reenters (h : Sound cfg m) :
    (Market.empty.answers cfg (m.entries .buy ++ m.entries .sell)).run [] =
      .ok (m, (m .buy ++ m .sell).map accepted) [] := by
  have hbids : Function.update Market.empty .buy [] = Market.empty := by
    funext s
    cases s <;> rfl
  have hasks : Function.update (Function.update Market.empty .buy (m .buy)) .sell [] =
      Function.update Market.empty .buy (m .buy) := by
    funext s
    cases s <;> rfl
  have hboth :
      Function.update (Function.update Market.empty .buy (m .buy)) .sell (m .sell) = m := by
    funext s
    cases s <;> rfl
  have hhalf : Sound cfg (Function.update Market.empty .buy ([] ++ m .buy)) :=
    h.of_sublist fun s => by
      cases s with
      | buy => exact List.Sublist.refl _
      | sell => exact List.nil_sublist _
  have hsecond : Sound cfg (Function.update (Function.update Market.empty .buy (m .buy)) .sell
      ([] ++ m .sell)) := by
    rw [List.nil_append, hboth]
    exact h
  have hfirst : (Market.empty.answers cfg (m.entries .buy)).run [] =
      .ok (Function.update Market.empty .buy (m .buy), (m .buy).map accepted) [] := by
    have henters := @Sound.enters _ _ _ _ _ [] hhalf
    rwa [List.nil_append, hbids] at henters
  have hrest : (Market.answers cfg (Function.update Market.empty .buy (m .buy))
      (m.entries .sell)).run [] = .ok (m, (m .sell).map accepted) [] := by
    have henters := @Sound.enters _ _ _ _ _ [] hsecond
    rwa [List.nil_append, hasks, hboth] at henters
  rw [List.map_append]
  exact answers_append hfirst hrest

theorem countable_of_forall {cs : List Call} (h : ∀ c ∈ cs, ∀ m : Market, m.Countable c)
    (m : Market) : m.countable cfg cs = true := by
  induction cs generalizing m with
  | nil => rfl
  | cons c cs ih =>
    unfold countable
    rw [decide_eq_true (h c List.mem_cons_self m), Bool.true_and]
    split
    · exact ih (fun c hc => h c (List.mem_cons_of_mem _ hc)) _
    · rfl

end Market

/-! ### Books -/

namespace OrderBook

open Queues

variable {M : Type} {b : OrderBook M}

section Good

variable [IdMap M] [IndexedBy M]

theorem Faithful.sound (h : Faithful b) (hu : Uncrossed b.queue) : b.market.Sound b.cfg := by
  have hmem : ∀ {s e}, e ∈ b.market s → ∃ i, ∃ r ∈ b.queue s i, r.entry = e := fun he => by
    obtain ⟨i, -, r, hr, rfl⟩ := mem_market.mp he
    exact ⟨i, r, hr, rfl⟩
  have hplaced : ∀ {s i r}, r ∈ b.queue s i → r.price.toInt = b.cfg.basePrice.toInt + i ∧
      i < b.cfg.numLevels := fun hr => by
    have hpl := h.good.core.placed _ _ _ hr
    exact ⟨hpl.level_eq, hpl.inside⟩
  constructor
  · exact h.good.market_ids_nodup
  · intro s e he e' he' hid
    obtain ⟨i, r, hr, rfl⟩ := hmem he
    obtain ⟨j, r', hr', rfl⟩ := hmem he'
    exact opposite_ne s (h.good.unique hr' hr hid).1
  · intro s e he
    obtain ⟨i, r, hr, rfl⟩ := hmem he
    exact h.good.indexed.ne_invalid ⟨s, i, r, hr, rfl, rfl⟩
  · intro s e he hz
    obtain ⟨i, r, hr, rfl⟩ := hmem he
    exact absurd (congrArg UInt32.toNat hz) (h.good.positive s i r hr).ne'
  · intro s e he
    obtain ⟨i, r, hr, rfl⟩ := hmem he
    obtain ⟨hprice, hi⟩ := hplaced hr
    have hlists : b.cfg.Lists r.price := ⟨by omega, by omega⟩
    exact hlists
  · exact h.good.core.market_sorted
  · intro s e he e' he'
    obtain ⟨i, r, hr, rfl⟩ := hmem he
    obtain ⟨j, r', hr', rfl⟩ := hmem he'
    have hp := (hplaced hr).1
    have hp' := (hplaced hr').1
    cases s with
    | buy =>
      have hij := hu i j (List.ne_nil_of_mem hr) (List.ne_nil_of_mem hr')
      show decide (r'.price ≤ r.price) = false
      rw [decide_eq_false_iff_not, Int32.le_iff_toInt_le]
      omega
    | sell =>
      have hij := hu j i (List.ne_nil_of_mem hr') (List.ne_nil_of_mem hr)
      show decide (r.price ≤ r'.price) = false
      rw [decide_eq_false_iff_not, Int32.le_iff_toInt_le]
      omega
  · rw [h.good.market_size]
    exact h.good.core.openOrders_le

end Good

theorem Reachable.faithful {M : Type} [LawfulIdMap M] {cfg : Config} {b : OrderBook M}
    (hbase : 0 ≤ cfg.basePrice.toInt) (hmax : cfg.maxOrders < 2 ^ 32) (h : Reachable cfg b) :
    Faithful b ∧ Uncrossed b.queue ∧ b.cfg = cfg := by
  obtain ⟨hgood, hcfg, hv, hu⟩ := Run.induction
    (P := fun b => Visible b b.queue ∧ Uncrossed b.queue)
    (fun b c _ => safe_of_lawful b b.queue c)
    ⟨new_visible cfg, by rw [(new_good cfg).core.queue_eq]; exact fun _ _ hne => absurd rfl hne⟩
    (fun b c _ b' _ hgood hcfg _ hP hs => by
      have hk : Keeps b b.queue c := keeps_of_short fun s i => by
        refine (hgood.core.length_le s i).trans_lt ?_
        rwa [hgood.core.capacity_eq, hcfg]
      exact ⟨hs.visible hgood hk hP.1, hs.uncrossed hgood hk hP.1 hP.2⟩) h
  exact ⟨⟨hgood, hv, hcfg ▸ hmax, hcfg ▸ hbase⟩, hu, hcfg⟩

/-- A run of the market is one of every book that has it. -/
theorem Faithful.exists_answers {M : Type} [LawfulIdMap M] {b : OrderBook M} (h : Faithful b)
    {cs : List Call} {m : Market} {as : List Answer} {ts ts' : List Trade}
    (hcount : b.market.countable b.cfg cs = true)
    (hrun : (b.market.answers b.cfg cs).run ts = .ok (m, as) ts') :
    ∃ b', (b.answers cs).run ts = .ok (b', as) ts' ∧ Faithful b' ∧ b'.cfg = b.cfg ∧
      b'.market = m := by
  have hanswers := h.answers_market (OrderBook.throughout_safe b cs) hcount ts
  rw [hrun] at hanswers
  cases hx : (b.answers cs).run ts with
  | error e ts =>
    rw [hx] at hanswers
    cases hanswers
  | ok r ts =>
    obtain ⟨b', as⟩ := r
    rw [hx, asMarket_ok] at hanswers
    obtain ⟨hf, hcfg⟩ := h.answers (OrderBook.throughout_safe _ _) hx
    cases hanswers
    exact ⟨b', rfl, hf, hcfg, rfl⟩

/-- The calls that enter the orders of a book again: its bids, then its asks, best first. -/
def reentry (b : OrderBook M) : List Call := b.market.entries .buy ++ b.market.entries .sell

/-- **A book is its resting orders.**  Entered into a fresh book, they all rest, without a trade,
and no further calls tell the two books apart. -/
theorem Reachable.rebuilt {M : Type} [LawfulIdMap M] {cfg : Config} {b : OrderBook M}
    (hbase : 0 ≤ cfg.basePrice.toInt) (hmax : cfg.maxOrders < 2 ^ 32) (h : Reachable cfg b) :
    ∃ b', ((new cfg : OrderBook M).answers b.reentry).run [] =
        .ok (b', (b.market .buy ++ b.market .sell).map Market.accepted) [] ∧
      Pictures b' b.market ∧ Pictures b b.market ∧
      ∀ cs ts, asMarket ((b'.answers cs).run ts) = asMarket ((b.answers cs).run ts) := by
  obtain ⟨hf, hu, hcfg⟩ := h.faithful hbase hmax
  have hnew : Faithful (new cfg : OrderBook M) := faithful_new hbase hmax
  have hsound := hf.sound hu
  rw [hcfg] at hsound
  have hcount : (new cfg : OrderBook M).market.countable cfg b.reentry = true := by
    refine Market.countable_of_forall (fun c hc m => ?_) _
    unfold reentry Market.entries at hc
    rw [List.mem_append, List.mem_map, List.mem_map] at hc
    rcases hc with ⟨e, -, rfl⟩ | ⟨e, -, rfl⟩
    · exact nofun
    · exact nofun
  have hrebuilt := hsound.reenters
  rw [← market_new (M := M) cfg] at hrebuilt
  obtain ⟨b', hrun, hf', hcfg', hm⟩ := hnew.exists_answers hcount hrebuilt
  exact ⟨b', hrun, hm ▸ hf'.pictures, hf.pictures, fun cs ts =>
    hf.answers_congr hf' (hcfg'.trans hcfg.symm) hm (throughout_safe _ _) (throughout_safe _ _) ts⟩

theorem tradedBook_rebuilt :
    ∃ b', ((new smallConfig : OrderBook PlainIdMap).answers tradedBook.reentry).run [] =
        .ok (b', (tradedBook.market .buy ++ tradedBook.market .sell).map Market.accepted) [] ∧
      Pictures b' tradedBook.market ∧ Pictures tradedBook tradedBook.market ∧
      ∀ cs ts, asMarket ((b'.answers cs).run ts) = asMarket ((tradedBook.answers cs).run ts) :=
  tradedBook_reachable.rebuilt (by decide) (by decide)

end OrderBook

end Lob
