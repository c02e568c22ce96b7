import Lob.Equiv.OrderBook.Passive

/-!
# Correctness of `match_`

The inner loop fills an incoming quantity greedily from the queue of one level
(`Core.fillLevel`), and the outer loop from the queues of the visible levels up to the limit
(`Good.matchLoop`, `Good.match_`).  The trades are `Greedy.fills` of these queues, what stays of
them is `Greedy.leftover`, and the ids erased from the index are those of `Greedy.exhausted`.

Both loops keep the fuel they need: the inner one takes a step for each order of the queue, the
outer one for each visible level.
-/

namespace Lob.OrderBook

open SlabAllocator Queues

variable {M : Type} {b : OrderBook M} {A : Queues} {s : Side} {i : ℕ} {r : Resting}
  {rest : List Resting}

/-! ### Computations with a sink -/

theorem sink_bind {α β : Type} {x : SinkM α} {a : α} {ts ts' : List Trade}
    (h : x.run ts = .ok a ts') (f : α → SinkM β) : (x >>= f).run ts = (f a).run ts' := by
  show EStateM.bind x f ts = _
  rw [EStateM.bind, show x ts = .ok a ts' from h]
  rfl

theorem sink_bind_error {α β : Type} {x : SinkM α} {e : Fault} {ts ts' : List Trade}
    (h : x.run ts = .error e ts') (f : α → SinkM β) : (x >>= f).run ts = .error e ts' := by
  show EStateM.bind x f ts = _
  rw [EStateM.bind, show x ts = .error e ts' from h]

theorem exists_of_sink_bind {α β : Type} {x : SinkM α} {f : α → SinkM β} {c : β}
    {ts ts' : List Trade} (h : (x >>= f).run ts = .ok c ts') :
    ∃ a ts₁, x.run ts = .ok a ts₁ ∧ (f a).run ts₁ = .ok c ts' := by
  cases hx : x.run ts with
  | ok a ts₁ =>
    rw [sink_bind hx] at h
    exact ⟨a, ts₁, rfl, h⟩
  | error e ts₁ =>
    rw [sink_bind_error hx] at h
    cases h

theorem quiet_ok {α : Type} {x : Except Fault α} {a : α} (h : x = .ok a) (ts : List Trade) :
    (quiet x).run ts = .ok a ts := by
  rw [h]
  rfl

theorem quiet_error {α : Type} {x : Except Fault α} {e : Fault} (h : x = .error e)
    (ts : List Trade) : (quiet x).run ts = .error e ts := by
  rw [h]
  rfl

theorem quiet_trades {α : Type} {x : Except Fault α} {a : α} {ts ts' : List Trade}
    (h : (quiet x).run ts = .ok a ts') : ts = ts' := by
  cases x with
  | ok a' =>
    cases h
    rfl
  | error e => cases h

theorem ok_of_quiet {α : Type} {x : Except Fault α} {a : α} {ts ts' : List Trade}
    (h : (quiet x).run ts = .ok a ts') : x = .ok a := by
  cases x with
  | ok a' =>
    cases h
    rfl
  | error e => cases h

/-! ### The head of a level -/

variable [IdMap M]

/-- The head gives a part of its quantity. -/
theorem Core.takeFromHead_part (h : Core b A none) (hq : A s i = r :: rest) {fill : Quantity}
    (hlt : fill.toNat < r.size) :
    ∃ b', b.takeFromHead s i r.slot (b.slab.storage r.slot).value fill = .ok b' ∧
      SameIndex b b' ∧ b'.idMap = b.idMap ∧
      Core b' (A.set s i ({ r with qty := r.qty - fill } :: rest)) none := by
  have hr := h.placed s i r (by simp [hq])
  have hle : fill ≤ r.qty := UInt32.le_iff_toNat_le.mpr hlt.le
  have hsub : (r.qty - fill).toNat = r.size - fill.toNat := UInt32.toNat_sub_of_le _ _ hle
  -- the branch that unlinks the order is not taken
  have hne : r.qty - fill ≠ 0 := by
    intro hz
    rw [hz] at hsub
    change 0 = _ at hsub
    omega
  have hq' : A s i = [] ++ r :: rest := hq
  obtain ⟨slab, hwrite, hcore⟩ := h.resize hq' (r.qty - fill) fill (by omega)
  refine ⟨_, ?_, sameIndex_setLevel slab b.idMap s i _, idMap_setLevel, hcore⟩
  unfold takeFromHead
  rw [hr.quantity_eq, bind_ok hwrite, if_neg hne]
  rfl

/-- The head gives all of its quantity and leaves the book. -/
theorem Core.takeFromHead_all [IndexedBy M] {n : ℕ} (h : Core b A none)
    (hm : Indexed n b.idMap A) (hq : A s i = r :: rest) :
    ∃ b', b.takeFromHead s i r.slot (b.slab.storage r.slot).value r.qty = .ok b' ∧
      SameIndex b b' ∧ IdMap.erase b.idMap r.id = some (true, b'.idMap) ∧
      Core b' (A.set s i rest) none ∧
      (IndexedBy.EraseOk b.idMap r.id → Indexed n b'.idMap (A.set s i rest)) := by
  have hr := h.placed s i r (by simp [hq])
  have hq' : A s i = [] ++ r :: rest := hq
  have hzero : (0 : Quantity).toNat + r.qty.toNat = r.size := Nat.zero_add _
  obtain ⟨slab, hwrite, hcore⟩ := h.resize hq' 0 r.qty hzero
  set lvl : PriceLevel :=
    { b.level s i with totalQty := (b.level s i).totalQty - r.qty } with hlvl
  set b₁ := { b with slab := slab }.setLevel s i lvl with hb₁
  have hlevel : b₁.level s i = lvl := level_setLevel_self
  -- the head is linked with quantity zero, and then unlinked
  have hq₁ : A.set s i ([] ++ { r with qty := 0 } :: rest) s i =
      [] ++ { r with qty := 0 } :: rest := set_self
  obtain ⟨orders, slab₂, hunlink, hcore₂⟩ := hcore.unlink hq₁
  rw [set_set, List.nil_append, hlevel, UInt32.sub_zero] at hcore₂
  rw [hlevel] at hunlink
  set b₂ := { b₁ with slab := slab₂ }.setLevel s i
    { orders, totalQty := lvl.totalQty, count := lvl.count - 1 } with hb₂
  obtain ⟨m', herase, hindexed⟩ := hm.erase h.distinct hq'
  have hmap : b₂.idMap = b.idMap := by rw [hb₂, idMap_setLevel, hb₁, idMap_setLevel]
  have heraseId : b₂.eraseId r.id = .ok { b₂ with idMap := m' } := eraseId_ok (hmap ▸ herase)
  obtain ⟨hdealloc, hcore₃⟩ := (hcore₂.setIdMap m').deallocate
  refine ⟨_, ?_, ?_, herase, hcore₃, hindexed⟩
  · unfold takeFromHead
    rw [hr.quantity_eq, hr.orderId_eq, UInt32.sub_self, bind_ok hwrite, if_pos rfl]
    refine (bind_ok hunlink _).trans ?_
    refine (bind_ok heraseId _).trans ?_
    exact hdealloc
  · have h₁ : SameIndex b b₁ := sameIndex_setLevel slab b.idMap s i lvl
    have h₂ : SameIndex b₁ b₂ := sameIndex_setLevel slab₂ b₁.idMap s i _
    exact (h₁.trans h₂).trans (sameIndex_remap (b₂.slab.returned r.slot) m')

/-! ### The inner loop -/

theorem toNat_min (m n : UInt32) : (min m n).toNat = min m.toNat n.toNat := by
  show (if m ≤ n then m else n).toNat = _
  split_ifs with h
  · exact (min_eq_left (UInt32.le_iff_toNat_le.mp h)).symm
  · exact (min_eq_right (UInt32.le_iff_toNat_le.mp (UInt32.le_of_lt (UInt32.not_le.mp h)))).symm

theorem min_eq_ofNat (m n : UInt32) : min m n = UInt32.ofNat (min m.toNat n.toNat) := by
  rw [← toNat_min, UInt32.ofNat_toNat]

theorem toNat_sub_min (m n : UInt32) : (m - min m n).toNat = m.toNat - n.toNat := by
  have hle : min m n ≤ m := UInt32.le_iff_toNat_le.mpr (by rw [toNat_min]; exact min_le_left _ _)
  rw [UInt32.toNat_sub_of_le _ _ hle, toNat_min]
  omega

section Loops

variable {side : Side} {id : OrderId} {ts : Timestamp}

theorem fillLevel_zero (fuel : ℕ) (trades : List Trade) :
    (fillLevel side id ts i (fuel + 1) b 0).run trades = .ok (b, 0) trades := rfl

theorem fillLevel_nil (h : Core b A none) (hq : A (opposite side) i = []) (fuel : ℕ)
    (n : Quantity) (trades : List Trade) :
    (fillLevel side id ts i (fuel + 1) b n).run trades = .ok (b, n) trades := by
  have hhead := (h.linked (opposite side) i).head_eq
  rw [hq] at hhead
  rw [fillLevel]
  split_ifs
  · rw [hhead]
    rfl
  · rfl

/-- One trade with the head of the level. -/
theorem fillLevel_cons (h : Core b A none) (hq : A (opposite side) i = r :: rest) {fuel : ℕ}
    {n : Quantity} (hn : n ≠ 0) (trades : List Trade) {b' : OrderBook M}
    (htake : b.takeFromHead (opposite side) i r.slot (b.slab.storage r.slot).value
      (min n r.qty) = .ok b') :
    (fillLevel side id ts i (fuel + 1) b n).run trades =
      (fillLevel side id ts i fuel b' (n - min n r.qty)).run
        (trades ++ [r.trade id side ts (min n.toNat r.size)]) := by
  have hr := h.placed (opposite side) i r (by simp [hq])
  have hhead := (h.linked (opposite side) i).head_eq
  rw [hq] at hhead
  rw [fillLevel, if_pos (UInt32.pos_iff_ne_zero.mpr hn), hhead]
  refine (sink_bind (quiet_ok (read_eq hr.live) trades) _).trans ?_
  rw [hr.orderId_eq, hr.quantity_eq, idxToPrice_eq hr.level_eq, Resting.trade, Resting.size,
    ← min_eq_ofNat]
  exact sink_bind (quiet_ok htake _) _

/-- The loop over level `i` of side `s` has filled its queue with `n`. -/
structure LevelFilled [IndexedBy M] (cap : ℕ) (b : OrderBook M) (A : Queues) (s : Side) (i n : ℕ)
    (b' : OrderBook M) : Prop where
  sameIndex : SameIndex b b'
  erased : eraseAll b.idMap ((Greedy.exhausted Resting.size (A s i) n).map Resting.id) =
    some b'.idMap
  core : Core b' (A.set s i (Greedy.leftover Resting.size Resting.shrink (A s i) n)) none
  indexed : Indexed cap b'.idMap
    (A.set s i (Greedy.leftover Resting.size Resting.shrink (A s i) n))

/-- Nothing is left to fill, or no order to fill it from. -/
theorem LevelFilled.refl [IndexedBy M] {cap n : ℕ} (h : Core b A none)
    (hm : Indexed cap b.idMap A) (hn : n = 0 ∨ A s i = []) : LevelFilled cap b A s i n b := by
  have hset : A.set s i (Greedy.leftover Resting.size Resting.shrink (A s i) n) = A := by
    apply set_eq_self
    rcases hn with rfl | hq
    · rw [Greedy.leftover_zero]
    · rw [hq]
      rfl
  refine ⟨.refl b, ?_, hset.symm ▸ h, hset.symm ▸ hm⟩
  rcases hn with rfl | hq
  · rw [Greedy.exhausted_zero]
    rfl
  · rw [hq]
    rfl

/-- The head gives a part of its quantity, and the aggressor is filled. -/
theorem LevelFilled.part [IndexedBy M] {cap n : ℕ} {b' : OrderBook M} (hm : Indexed cap b.idMap A)
    (hq : A s i = r :: rest) (hn : n ≠ 0) (hlt : n < r.size) (hsame : SameIndex b b')
    (hmap : b'.idMap = b.idMap)
    (hcore : Core b' (A.set s i ({ r with qty := r.qty - UInt32.ofNat n } :: rest)) none) :
    LevelFilled cap b A s i n b' := by
  have hleft : Greedy.leftover Resting.size Resting.shrink (A s i) n =
      { r with qty := r.qty - UInt32.ofNat n } :: rest := by
    rw [hq, Greedy.leftover_of_lt _ hn hlt, Resting.shrink]
  have hq' : A s i = [] ++ r :: rest := hq
  refine ⟨hsame, ?_, hleft.symm ▸ hcore, ?_⟩
  · rw [hq, Greedy.exhausted_of_lt hlt, hmap]
    rfl
  · rw [hleft, hmap]
    exact hm.congr fun id p => binds_replace { r with qty := r.qty - UInt32.ofNat n } hq' rfl rfl

/-- The head gives all of its quantity and leaves the book, and the loop goes on. -/
theorem LevelFilled.cons [IndexedBy M] {cap n : ℕ} {b₁ b' : OrderBook M}
    (hq : A s i = r :: rest) (hn : n ≠ 0) (hge : r.size ≤ n) (hsame : SameIndex b b₁)
    (herase : IdMap.erase b.idMap r.id = some (true, b₁.idMap))
    (h : LevelFilled cap b₁ (A.set s i rest) s i (n - r.size) b') :
    LevelFilled cap b A s i n b' := by
  obtain ⟨hsame', herased, hcore, hindexed⟩ := h
  rw [set_self] at herased
  rw [set_set, set_self] at hcore hindexed
  refine ⟨hsame.trans hsame', ?_, ?_, ?_⟩
  · rw [hq, Greedy.exhausted_of_le hn hge, List.map_cons, eraseAll, herase]
    exact herased
  · rw [hq, Greedy.leftover_of_le _ hn hge]
    exact hcore
  · rw [hq, Greedy.leftover_of_le _ hn hge]
    exact hindexed

variable (id ts) in
/-- **The inner loop** fills greedily from the queue of the level. -/
theorem Core.fillLevel [IndexedBy M] {cap : ℕ} (hpos : ∀ r ∈ A (opposite side) i, 0 < r.size)
    (h : Core b A none) (hm : Indexed cap b.idMap A) {fuel : ℕ}
    (hfuel : (A (opposite side) i).length < fuel) (n : Quantity) (trades : List Trade)
    (hok : ErasesOk b.idMap
      ((Greedy.exhausted Resting.size (A (opposite side) i) n.toNat).map Resting.id)) :
    ∃ b' n', (OrderBook.fillLevel side id ts i fuel b n).run trades =
        .ok (b', n') (trades ++ (Greedy.fills Resting.size (A (opposite side) i) n.toNat).map
          fun f => f.1.trade id side ts f.2) ∧
      n'.toNat = n.toNat - Greedy.total Resting.size (A (opposite side) i) ∧
      LevelFilled cap b A (opposite side) i n.toNat b' := by
  generalize hq : A (opposite side) i = q at hpos hfuel hok ⊢
  -- on the queue: one round of the loop takes from its head
  induction q generalizing A b n fuel trades with
  | nil =>
    obtain ⟨fuel, rfl⟩ : ∃ k, fuel = k + 1 := ⟨fuel - 1, by simp at hfuel; omega⟩
    refine ⟨b, n, ?_, rfl, .refl h hm (Or.inr hq)⟩
    rw [fillLevel_nil h hq]
    simp [Greedy.fills]
  | cons r rest ih =>
    obtain ⟨fuel, rfl⟩ : ∃ k, fuel = k + 1 := ⟨fuel - 1, by simp at hfuel; omega⟩
    rw [List.length_cons] at hfuel
    have hr := hpos r (by simp)
    by_cases hn : n = 0
    · subst hn
      refine ⟨b, 0, ?_, ?_, .refl h hm (Or.inl rfl)⟩
      · rw [fillLevel_zero]
        simp
      · simp
    have hn0 : n.toNat ≠ 0 := fun hz => hn (UInt32.toNat_inj.mp hz)
    rcases Nat.lt_or_ge n.toNat r.size with hlt | hge
    · have hmin : min n.toNat r.size = n.toNat := min_eq_left hlt.le
      have hminq : min n r.qty = n := by
        rw [min_eq_ofNat, ← Resting.size, hmin, UInt32.ofNat_toNat]
      obtain ⟨b', htake, hsame, hmap, hcore⟩ := h.takeFromHead_part hq hlt
      obtain ⟨fuel, rfl⟩ : ∃ k, fuel = k + 1 := ⟨fuel - 1, by omega⟩
      refine ⟨b', 0, ?_, ?_, .part hm hq hn0 hlt hsame hmap (by rwa [UInt32.ofNat_toNat])⟩
      · rw [fillLevel_cons h hq hn trades (by rw [hminq]; exact htake), hminq, UInt32.sub_self,
          fillLevel_zero, Greedy.fills_of_lt hn0 hlt, hmin]
        rfl
      · rw [Greedy.total_cons]
        exact (Nat.sub_eq_zero_of_le (by omega)).symm
    · have hmin : min n.toNat r.size = r.size := min_eq_right hge
      have hminq : min n r.qty = r.qty := by
        rw [min_eq_ofNat, ← Resting.size, hmin, Resting.size, UInt32.ofNat_toNat]
      obtain ⟨b₁, htake, hsame₁, herase, hcore₁, hindexed₁⟩ := h.takeFromHead_all hm hq
      have hsub : (n - min n r.qty).toNat = n.toNat - r.size := toNat_sub_min n r.qty
      rw [Greedy.exhausted_of_le hn0 hge, List.map_cons] at hok
      obtain ⟨b', n', hrun, hn', hfilled⟩ :=
        ih hcore₁ (hindexed₁ hok.1) (n - min n r.qty)
          (trades ++ [r.trade id side ts (min n.toNat r.size)]) set_self
          (fun x hx => hpos x (by simp [hx])) (Nat.lt_of_succ_lt_succ hfuel)
          (by rw [hsub]; exact hok.2 _ herase)
      rw [hsub] at hrun hn' hfilled
      refine ⟨b', n', ?_, ?_, .cons hq hn0 hge hsame₁ herase hfilled⟩
      · rw [fillLevel_cons h hq hn trades (by rw [hminq]; exact htake), hrun,
          Greedy.fills_cons _ hn0, List.map_cons, List.append_assoc]
        rfl
      · rw [hn', Greedy.total_cons, Nat.sub_sub]

/-! ### The outer loop -/

theorem upTo_cons_of_past {side : Side} {limit : ℕ} {ls : List ℕ}
    (hpair : (i :: ls).Pairwise (Better (opposite side)))
    (hpast : pastLimit side limit i = true) : upTo side limit (i :: ls) = [] := by
  unfold upTo
  refine List.filter_eq_nil_iff.mpr fun j hj => ?_
  rcases List.mem_cons.mp hj with rfl | hj
  · simp [hpast]
  · simp [pastLimit_of_better ((List.pairwise_cons.mp hpair).1 j hj) hpast]

theorem upTo_cons_of_within {side : Side} {limit : ℕ} {ls : List ℕ}
    (hpast : pastLimit side limit i = false) :
    upTo side limit (i :: ls) = i :: upTo side limit ls := by
  unfold upTo
  exact List.filter_cons_of_pos (by simp [hpast])

/-- What `match_` does to the book: the orders of the levels `ls` of side `s` are filled with
`n`, so that a level sees what the levels before it left of `n`.  A bit that is cleared belongs to
a level that was reached and whose count, in 32 bits, is zero then. -/
structure Matched [IndexedBy M] (b : OrderBook M) (A : Queues) (s : Side) (ls : List ℕ) (n : ℕ)
    (b' : OrderBook M) (A' : Queues) : Prop where
  good : Good b' A'
  cfg_eq : b'.cfg = b.cfg
  erased : eraseAll b.idMap ((Greedy.exhausted Resting.size (A.orders s ls) n).map Resting.id) =
    some b'.idMap
  level_eq : ∀ pre i post, ls = pre ++ i :: post →
    A' s i = Greedy.leftover Resting.size Resting.shrink (A s i)
      (n - Greedy.total Resting.size (A.orders s pre))
  other_eq : ∀ t j, ¬(t = s ∧ j ∈ ls) → A' t j = A t j
  bit_of_bit : ∀ t j, b'.bit t j = true → b.bit t j = true
  bit_or : ∀ t j, b.bit t j = true → b'.bit t j = true ∨
    (t = s ∧ (A' s j).length % 2 ^ 32 = 0 ∧ ∃ pre post, ls = pre ++ j :: post ∧
      Greedy.total Resting.size (A.orders s pre) < n)

/-- Nothing is filled. -/
theorem Matched.refl [IndexedBy M] (h : Good b A) {ls : List ℕ} {n : ℕ}
    (hn : n = 0 ∨ ls = []) : Matched b A s ls n b A := by
  have hexh : Greedy.exhausted Resting.size (A.orders s ls) n = [] := by
    rcases hn with rfl | rfl
    · simp
    · rfl
  refine ⟨h, rfl, by rw [hexh]; rfl, fun pre i post hls => ?_, fun _ _ _ => rfl,
    fun _ _ hb => hb, fun _ _ hb => Or.inl hb⟩
  rcases hn with rfl | rfl
  · rw [Nat.zero_sub, Greedy.leftover_zero]
  · exact absurd hls (by simp)

theorem orders_cons (A : Queues) (s : Side) (i : ℕ) (ls : List ℕ) :
    A.orders s (i :: ls) = A s i ++ A.orders s ls := rfl

theorem orders_append (A : Queues) (s : Side) (ls ls' : List ℕ) :
    A.orders s (ls ++ ls') = A.orders s ls ++ A.orders s ls' := by
  unfold Queues.orders
  exact List.flatMap_append

theorem Good.positive_orders [IndexedBy M] (h : Good b A) {ls : List ℕ} :
    ∀ r ∈ A.orders s ls, 0 < r.size := by
  intro r hr
  obtain ⟨i, -, hr⟩ := List.mem_flatMap.mp hr
  exact h.positive s i r hr

/-- The orders of the other levels are not touched by a fill at level `i`. -/
theorem orders_set_of_notMem {ls : List ℕ} (hi : i ∉ ls) (q : List Resting) :
    (A.set s i q).orders s ls = A.orders s ls :=
  List.flatMap_congr fun _ hj => set_of_ne fun _ heq => hi (heq ▸ hj)

/-- The book after a fill that leaves orders at the level. -/
theorem Good.filled [IndexedBy M] {n : ℕ} {b₁ : OrderBook M} (h : Good b A)
    (hf : LevelFilled b.cfg.maxOrders b A s i n b₁)
    (hne : Greedy.leftover Resting.size Resting.shrink (A s i) n ≠ []) :
    Good b₁ (A.set s i (Greedy.leftover Resting.size Resting.shrink (A s i) n)) := by
  constructor
  · exact hf.core
  · exact positive_set h.positive (Resting.size_leftover_pos (h.positive s i))
  · exact hf.sameIndex.index h.index
  · exact h.backed.set (fun _ => hne) fun t j _ hb => by rwa [hf.sameIndex.bit_eq] at hb
  · rw [hf.sameIndex.cfg_eq]
    exact hf.indexed

/-- The book after a fill of the best level whose count comes out as zero, which moves the best
index to the next level. -/
theorem Good.advanced [IndexedBy M] {n : ℕ} {b₁ : OrderBook M} (h : Good b A)
    (hf : LevelFilled b.cfg.maxOrders b A s (b.bestIdx s) n b₁) :
    Good (b₁.setIndex s ((b₁.bitmap s).clear (b.bestIdx s))
      (nextBest s ((b₁.bitmap s).clear (b.bestIdx s)) (b.bestIdx s)))
      (A.set s (b.bestIdx s)
        (Greedy.leftover Resting.size Resting.shrink (A s (b.bestIdx s)) n)) := by
  have hsame := hf.sameIndex
  constructor
  · exact hf.core.setIndex _ _ _
  · exact positive_set h.positive (Resting.size_leftover_pos (h.positive s _))
  · have hclear := (hsame.index h.index).clear s
    rwa [hsame.bestIdx_eq] at hclear
  · apply h.backed.set
    · exact fun hb => absurd ⟨rfl, rfl⟩ ((hsame.bit_cleared s s _ _ _).mp hb).2
    · exact fun t j _ hb => ((hsame.bit_cleared s t _ j _).mp hb).1
  · rw [cfg_setIndex, hsame.cfg_eq, idMap_setIndex]
    exact hf.indexed

/-- A fill at level `i` that leaves orders there fills all that was asked for. -/
theorem Matched.last [IndexedBy M] {ls : List ℕ} {n : ℕ} {b' : OrderBook M} (h : Good b A)
    (hf : LevelFilled b.cfg.maxOrders b A s i n b') (hi : i ∉ ls)
    (hne : Greedy.leftover Resting.size Resting.shrink (A s i) n ≠ []) :
    Matched b A s (i :: ls) n b'
      (A.set s i (Greedy.leftover Resting.size Resting.shrink (A s i) n)) := by
  -- otherwise the level would give all that it has
  have hlt := Greedy.lt_total_of_leftover _ _ (h.positive s i) hne
  have hz : n - Greedy.total Resting.size (A s i) = 0 := Nat.sub_eq_zero_of_le hlt.le
  have hsame := hf.sameIndex
  constructor
  · exact h.filled hf hne
  · exact hsame.cfg_eq
  · rw [orders_cons, Greedy.exhausted_append, hz, Greedy.exhausted_zero, List.append_nil]
    exact hf.erased
  · intro pre k post hls
    cases pre with
    | nil =>
      obtain ⟨rfl, -⟩ := List.cons.inj hls
      rw [set_self]
      rfl
    | cons j pre =>
      obtain ⟨rfl, rfl⟩ := List.cons.inj hls
      have hk : k ≠ i := fun hk => hi (by simp [hk])
      rw [set_of_ne fun _ => hk, orders_cons, Greedy.total_append, ← Nat.sub_sub, hz,
        Nat.zero_sub, Greedy.leftover_zero]
  · intro t _ htj
    exact set_of_ne fun ht hj => htj ⟨ht, hj ▸ List.mem_cons_self⟩
  · intro t j hb
    rwa [hsame.bit_eq] at hb
  · intro t j hb
    rw [hsame.bit_eq]
    exact Or.inl hb

/-- A fill that empties level `i`, whose bit is cleared, followed by the fills at the levels after
it. -/
theorem Matched.cons [IndexedBy M] {ls : List ℕ} {cap n k : ℕ} {b₁ b' : OrderBook M}
    {A' : Queues} (hf : LevelFilled cap b A s i n b₁) (hi : i ∉ ls) (hn : n ≠ 0)
    (hlen : (Greedy.leftover Resting.size Resting.shrink (A s i) n).length % 2 ^ 32 = 0)
    (h : Matched (b₁.setIndex s ((b₁.bitmap s).clear i) k)
      (A.set s i (Greedy.leftover Resting.size Resting.shrink (A s i) n)) s ls
      (n - Greedy.total Resting.size (A s i)) b' A') :
    Matched b A s (i :: ls) n b' A' := by
  have hself : A' s i = Greedy.leftover Resting.size Resting.shrink (A s i) n := by
    rw [h.other_eq s i fun hcon => hi hcon.2, set_self]
  have hbit := fun t j => hf.sameIndex.bit_cleared s t i j k
  -- the levels before a level of `ls` are not level `i`
  have hpre : ∀ {pre k post}, ls = pre ++ k :: post → k ≠ i ∧ i ∉ pre := fun hls => by
    subst hls
    exact ⟨fun hk => hi (by simp [hk]), fun hmem => hi (by simp [hmem])⟩
  constructor
  · exact h.good
  · rw [h.cfg_eq, cfg_setIndex, hf.sameIndex.cfg_eq]
  · have herased := h.erased
    rw [orders_set_of_notMem hi, idMap_setIndex] at herased
    rw [orders_cons, Greedy.exhausted_append, List.map_append, eraseAll_append hf.erased]
    exact herased
  · intro pre k post hls
    cases pre with
    | nil =>
      obtain ⟨rfl, -⟩ := List.cons.inj hls
      rw [hself]
      rfl
    | cons j pre =>
      obtain ⟨rfl, hls'⟩ := List.cons.inj hls
      obtain ⟨hk, hnot⟩ := hpre hls'
      rw [h.level_eq pre k post hls', orders_set_of_notMem hnot, set_of_ne fun _ => hk,
        orders_cons, Greedy.total_append, Nat.sub_sub]
  · intro t j htj
    rw [h.other_eq t j fun hcon => htj ⟨hcon.1, List.mem_cons_of_mem _ hcon.2⟩]
    exact set_of_ne fun ht hj => htj ⟨ht, hj ▸ List.mem_cons_self⟩
  · intro t j hb
    exact ((hbit t j).mp (h.bit_of_bit t j hb)).1
  · intro t j hb
    by_cases htj : t = s ∧ j = i
    · obtain ⟨rfl, rfl⟩ := htj
      exact Or.inr ⟨rfl, by rw [hself, hlen], [], ls, rfl, Nat.pos_of_ne_zero hn⟩
    · -- the level was reached with what level `i` left of `n`
      rcases h.bit_or t j ((hbit t j).mpr ⟨hb, htj⟩) with hb' | ⟨ht, hz, pre, post, hls, hlt⟩
      · exact Or.inl hb'
      · refine Or.inr ⟨ht, hz, i :: pre, post, by rw [hls]; rfl, ?_⟩
        rw [orders_set_of_notMem (hpre hls).2] at hlt
        rw [orders_cons, Greedy.total_append]
        omega

/-- The orders of the levels, one after the other, after the fill. -/
theorem Matched.leftover_eq [IndexedBy M] {ls : List ℕ} {n : ℕ} {b' : OrderBook M} {A' : Queues}
    (h : Matched b A s ls n b' A') :
    A'.orders s ls = Greedy.leftover Resting.size Resting.shrink (A.orders s ls) n :=
  Greedy.leftover_flatMap _ _ _ h.level_eq

/-- No order is new after a fill. -/
theorem Matched.mem [IndexedBy M] {ls : List ℕ} {n : ℕ} {b' : OrderBook M} {A' : Queues}
    (hb : Core b A none) (h : Matched b A s ls n b' A') {t : Side} {j : ℕ} {r' : Resting}
    (hr' : r' ∈ A' t j) : ∃ r ∈ A t j, r'.id = r.id ∧ r'.price = r.price := by
  by_cases htj : t = s ∧ j ∈ ls
  · obtain ⟨rfl, hj⟩ := htj
    have hmem : r' ∈ A'.orders t ls := List.mem_flatMap.mpr ⟨j, hj, hr'⟩
    rw [h.leftover_eq] at hmem
    obtain ⟨r, hr, hid, hprice⟩ : ∃ r ∈ A.orders t ls, r'.id = r.id ∧ r'.price = r.price := by
      rcases Greedy.mem_leftover _ _ hmem with hmem | ⟨r, hr, k, -, -, rfl⟩
      · exact ⟨r', hmem, rfl, rfl⟩
      · exact ⟨r, hr, rfl, rfl⟩
    -- the price tells the level of an order
    obtain ⟨k, -, hr⟩ := List.mem_flatMap.mp hr
    have hlevel := (hb.placed t k r hr).level_eq
    have hlevel' := (h.good.core.placed t j r' hr').level_eq
    rw [hprice, h.cfg_eq] at hlevel'
    obtain rfl : k = j := by omega
    exact ⟨r, hr, hid, hprice⟩
  · rw [h.other_eq t j htj] at hr'
    exact ⟨r', hr', rfl, rfl⟩

theorem Matched.ne_nil [IndexedBy M] {ls : List ℕ} {n : ℕ} {b' : OrderBook M} {A' : Queues}
    (hb : Core b A none) (h : Matched b A s ls n b' A') {t : Side} {j : ℕ} (hne : A' t j ≠ []) :
    A t j ≠ [] := by
  obtain ⟨r', hr'⟩ := List.exists_mem_of_ne_nil _ hne
  obtain ⟨r, hr, -⟩ := h.mem hb hr'
  exact List.ne_nil_of_mem hr

theorem Matched.rests [IndexedBy M] {ls : List ℕ} {n : ℕ} {b' : OrderBook M} {A' : Queues}
    (hb : Core b A none) (h : Matched b A s ls n b' A') {id : OrderId} (hr : A'.Rests id) :
    A.Rests id := by
  obtain ⟨t, j, r', hr', rfl⟩ := hr
  obtain ⟨r, hr, hid, -⟩ := h.mem hb hr'
  exact ⟨t, j, r, hr, hid.symm⟩

/-- A round with no level, nothing left to fill, or a level past the limit. -/
theorem matchLoop_stop {limit : ℕ} {n : Quantity}
    (hstop : i = kNoBest ∨ n = 0 ∨ pastLimit side limit i = true) (fuel : ℕ)
    (trades : List Trade) :
    (OrderBook.matchLoop side limit id ts (fuel + 1) b i n).run trades = .ok (b, n) trades := by
  rw [OrderBook.matchLoop]
  split_ifs with hgo hpast
  · rfl
  · rcases hstop with hi | hn | hp
    · exact absurd hi hgo.1
    · rw [hn] at hgo
      exact absurd hgo.2 (by decide)
    · exact absurd hp hpast
  · rfl

/-- A round that fills level `i`. -/
theorem matchLoop_round {limit : ℕ} {n n₁ : Quantity} {b₁ : OrderBook M}
    {trades trades₁ : List Trade} (hi : i ≠ kNoBest) (hn : n ≠ 0)
    (hpast : pastLimit side limit i = false)
    (hrun : (fillLevel side id ts i (b.slab.capacity + 2) b n).run trades =
      .ok (b₁, n₁) trades₁) (fuel : ℕ) :
    (OrderBook.matchLoop side limit id ts (fuel + 1) b i n).run trades =
      if (b₁.level (opposite side) i).isEmpty then
        (OrderBook.matchLoop side limit id ts fuel
          (b₁.setIndex (opposite side) ((b₁.bitmap (opposite side)).clear i)
            (nextBest (opposite side) ((b₁.bitmap (opposite side)).clear i) i))
          (nextBest (opposite side) ((b₁.bitmap (opposite side)).clear i) i) n₁).run trades₁
      else .ok (b₁, n₁) trades₁ := by
  rw [OrderBook.matchLoop, if_pos ⟨hi, UInt32.pos_iff_ne_zero.mpr hn⟩,
    if_neg (Bool.eq_false_iff.mp hpast), sink_bind hrun]
  dsimp only
  split_ifs
  · rw [advance_eq]
  · rfl

/-- **The outer loop** fills greedily from the visible levels up to the limit. -/
theorem Good.matchLoop [IndexedBy M] {limit : ℕ} (h : Good b A) {fuel : ℕ}
    (hfuel : (b.visible (opposite side)).length < fuel) (n : Quantity) (trades : List Trade)
    (hok : ErasesOk b.idMap ((Greedy.exhausted Resting.size (A.orders (opposite side)
      (upTo side limit (b.visible (opposite side)))) n.toNat).map Resting.id)) :
    ∃ b' n' A', (OrderBook.matchLoop side limit id ts fuel b
        (b.bestIdx (opposite side)) n).run trades =
        .ok (b', n') (trades ++ (Greedy.fills Resting.size (A.orders (opposite side)
          (upTo side limit (b.visible (opposite side)))) n.toNat).map
            fun f => f.1.trade id side ts f.2) ∧
      n'.toNat = n.toNat - Greedy.total Resting.size (A.orders (opposite side)
        (upTo side limit (b.visible (opposite side)))) ∧
      Matched b A (opposite side) (upTo side limit (b.visible (opposite side))) n.toNat b' A' := by
  generalize hls : b.visible (opposite side) = ls at *
  -- on the visible levels: one round of the loop deals with the best of them
  induction ls generalizing A b n fuel trades with
  | nil =>
    obtain ⟨fuel, rfl⟩ : ∃ k, fuel = k + 1 := ⟨fuel - 1, by simp at hfuel; omega⟩
    have hbest : b.bestIdx (opposite side) = kNoBest := by
      rw [← visible_head h.index, hls]
      rfl
    refine ⟨b, n, A, ?_, rfl, .refl h (Or.inr rfl)⟩
    rw [matchLoop_stop (Or.inl hbest)]
    simp [upTo, Queues.orders, Greedy.fills]
  | cons i ls ih =>
    obtain ⟨fuel, rfl⟩ : ∃ k, fuel = k + 1 := ⟨fuel - 1, by simp at hfuel; omega⟩
    rw [List.length_cons] at hfuel
    have hpair := b.visible_pairwise (opposite side)
    rw [hls] at hpair
    obtain ⟨hne, rfl, hvis⟩ := h.index.bestIdx_of_visible hls
    set i := b.bestIdx (opposite side) with hi
    by_cases hn : n = 0
    · subst hn
      refine ⟨b, 0, A, ?_, ?_, .refl h (Or.inl rfl)⟩
      · rw [matchLoop_stop (Or.inr (Or.inl rfl))]
        simp
      · simp
    cases hpast : pastLimit side limit i with
    | true =>
      -- with the best level all others are past the limit
      rw [matchLoop_stop (Or.inr (Or.inr hpast)), upTo_cons_of_past hpair hpast]
      exact ⟨b, n, A, by simp [Queues.orders, Greedy.fills], rfl, .refl h (Or.inr rfl)⟩
    | false =>
      have hnot : i ∉ upTo side limit ls := fun hmem =>
        better_ne ((List.pairwise_cons.mp hpair).1 i (List.mem_of_mem_filter hmem)) rfl
      have hlen : (A (opposite side) i).length < b.slab.capacity + 2 :=
        Nat.lt_add_right 1 (Nat.lt_succ_of_le (h.core.length_le (opposite side) i))
      rw [upTo_cons_of_within hpast] at hok ⊢
      rw [orders_cons, Greedy.exhausted_append, List.map_append] at hok
      obtain ⟨b₁, n₁, hrun, hn₁, hfilled⟩ :=
        h.core.fillLevel id ts (h.positive (opposite side) i) h.indexed hlen n trades hok.left
      have hok₁ := hok.of_append hfilled.erased
      rw [matchLoop_round hne hn hpast hrun]
      set q := A (opposite side) i with hq
      have hempty := hfilled.core.isEmpty_iff (opposite side) i
      rw [set_self] at hempty
      by_cases hz : (Greedy.leftover Resting.size Resting.shrink q n.toNat).length % 2 ^ 32 = 0
      · -- the level is taken for empty and the loop goes on
        rw [if_pos (hempty.mpr hz)]
        set k := nextBest (opposite side) ((b₁.bitmap (opposite side)).clear i) i with hk
        set b₂ := b₁.setIndex (opposite side) ((b₁.bitmap (opposite side)).clear i) k with hb₂
        have hgood₂ : Good b₂ (A.set (opposite side) i
            (Greedy.leftover Resting.size Resting.shrink q n.toNat)) := h.advanced hfilled
        -- the next round sees the rest of the levels
        have hvis₂ : b₂.visible (opposite side) = ls := by
          rw [← hvis k]
          unfold visible
          rw [hb₂, cfg_setIndex, cfg_setIndex, bitmap_setIndex_self, bitmap_setIndex_self,
            hfilled.sameIndex.bitmap_eq, hfilled.sameIndex.cfg_eq]
        have hrest := orders_set_of_notMem (A := A) (s := opposite side) hnot
          (Greedy.leftover Resting.size Resting.shrink q n.toNat)
        obtain ⟨b', n', A', hrun', hn', hmatch⟩ := ih hgood₂ n₁ (trades ++
          (Greedy.fills Resting.size q n.toNat).map fun f => f.1.trade id side ts f.2) hvis₂
          (Nat.lt_of_succ_lt_succ hfuel) (by
            rw [hrest, hn₁, hb₂, idMap_setIndex]
            exact hok₁)
        rw [hb₂, bestIdx_setIndex_self, ← hb₂, hrest, hn₁, List.append_assoc, ← List.map_append,
          ← Greedy.fills_append] at hrun'
        rw [hn₁] at hmatch
        refine ⟨b', n', A', hrun', ?_, .cons hfilled hnot
          (fun hz => hn (UInt32.toNat_inj.mp hz)) hz hmatch⟩
        rw [hn', hn₁, hrest, orders_cons, Greedy.total_append, Nat.sub_sub]
      · -- orders stay at the level, so that everything is filled
        have hleft : Greedy.leftover Resting.size Resting.shrink q n.toNat ≠ [] := by
          intro hnil
          rw [hnil] at hz
          exact hz rfl
        have hlt := Greedy.lt_total_of_leftover _ _ (h.positive (opposite side) i) hleft
        have hzero : n.toNat - Greedy.total Resting.size q = 0 := Nat.sub_eq_zero_of_le hlt.le
        rw [if_neg fun he => hz (hempty.mp he)]
        refine ⟨b₁, n₁, _, ?_, ?_, .last h hfilled hnot hleft⟩
        · rw [orders_cons, Greedy.fills_append, hzero, Greedy.fills_zero, List.append_nil]
        · rw [hn₁, orders_cons, Greedy.total_append, ← Nat.sub_sub, hzero, Nat.zero_sub]

/-- `match_` starts at the best level of the other side. -/
theorem match_eq_matchLoop (limit : ℕ) (n : Quantity) :
    OrderBook.match_ side b limit n id ts =
      OrderBook.matchLoop side limit id ts (b.cfg.numLevels + 1) b (b.bestIdx (opposite side))
        n := by
  cases side <;> rfl

/-- **`match_`** fills greedily from the visible levels up to the limit. -/
theorem Good.match_ [IndexedBy M] {limit : ℕ} (h : Good b A) (n : Quantity) (trades : List Trade)
    (hok : ErasesOk b.idMap ((Greedy.exhausted Resting.size (A.orders (opposite side)
      (upTo side limit (b.visible (opposite side)))) n.toNat).map Resting.id)) :
    ∃ b' n' A', (OrderBook.match_ side b limit n id ts).run trades =
        .ok (b', n') (trades ++ (Greedy.fills Resting.size (A.orders (opposite side)
          (upTo side limit (b.visible (opposite side)))) n.toNat).map
            fun f => f.1.trade id side ts f.2) ∧
      n'.toNat = n.toNat - Greedy.total Resting.size (A.orders (opposite side)
        (upTo side limit (b.visible (opposite side)))) ∧
      Matched b A (opposite side) (upTo side limit (b.visible (opposite side))) n.toNat b' A' := by
  have hfuel := b.length_visible_le (opposite side)
  rw [match_eq_matchLoop]
  exact h.matchLoop (by omega) n trades hok

end Loops

end Lob.OrderBook
