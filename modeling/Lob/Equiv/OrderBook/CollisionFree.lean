import Lob.Equiv.OrderBook.MarketRuns

/-!
# The table of the source without collisions

`OrderIdMap` is the index that a book relies on as long as no erasure strands an entry.  A table
whose keys have different home slots has every entry at home (`Probing.ProbedOn.at_home`), so that
no erasure strands one (`OrderIdMap.Represents.not_strands`).  The engine with the table of the
source therefore is the market in every run in which no two resting orders have one home slot
(`OrderBook.table_answers_eq_market`).
-/

namespace Lob

namespace OrderIdMap

variable {α : Type} {m : OrderIdMap α} {f : OrderId → Option (Option α)}

/-- No two ids that are bound have the same home slot. -/
def Apart (home : OrderId → ℕ) (f : OrderId → Option (Option α)) : Prop :=
  ∀ id id', f id ≠ none → f id' ≠ none → home id = home id' → id = id'

theorem Represents.distance_eq_zero (h : m.Represents f) (hapart : Apart m.homeSlot f) {i : ℕ}
    (hi : i < m.capacity) (hocc : (m.slots i).id ≠ kInvalidOrderId) : m.distance i = 0 := by
  obtain ⟨e, he, hte⟩ := h.vacant
  have hbound : ∀ {k v}, Probing.Holds m.capacity m.entry Set.univ k v → f k ≠ none :=
    fun hk => by simp [(h.holds _ _).mp hk]
  refine distance_unique h.sized m.capacity_pos ?_
  rw [Nat.add_zero]
  refine h.probed.at_home he hte (fun hk hk' heq => hapart _ _ (hbound hk) (hbound hk') ?_) hi
    (entry_eq_some_iff.mpr ⟨hocc, rfl⟩)
  rwa [Nat.mod_eq_of_lt (h.sized.homeSlot_lt _), Nat.mod_eq_of_lt (h.sized.homeSlot_lt _)] at heq

/-- Entries that are at home are not stranded. -/
theorem Represents.not_strands (h : m.Represents f) (hapart : Apart m.homeSlot f) (i : ℕ) :
    ¬m.Strands i := by
  rintro ⟨b, -, n, hn, -, hocc, hle⟩
  rw [h.distance_eq_zero hapart (Nat.mod_lt _ m.capacity_pos) hocc] at hle
  omega

end OrderIdMap

/-! ### The table of a book -/

/-- The table of a book keeps the slots that it is made with. -/
def BookTable : Type := OrderIdMap Ptr

namespace BookTable

open OrderIdMap (Indexes Spares)

/-- The table that a book for `n` orders is made with. -/
def made (n : ℕ) : OrderIdMap Ptr := OrderIdMap.new (OrderBook.nextPow2 (n * 2))

/-- The slot in which the probe for an id starts. -/
def home (n : ℕ) (id : OrderId) : ℕ := (made n).homeSlot id

/-- The table binds what `f` binds, and has the slots of the one it was made as. -/
def Keeps (n : ℕ) (m : OrderIdMap Ptr) (f : OrderId → Option Ptr) : Prop :=
  Indexes n m f ∧ m.mask = (made n).mask

instance : IdMap BookTable := inferInstanceAs (IdMap (OrderIdMap Ptr))

instance : IndexedBy BookTable where
  Rep := Keeps
  FindOk m id := id ≠ kInvalidOrderId ∨ OrderIdMap.InvalidClean m
  EraseOk := Spares
  rep_new n hn := ⟨IndexedBy.rep_new (M := OrderIdMap Ptr) n hn, rfl⟩
  rep_invalid h := IndexedBy.rep_invalid (M := OrderIdMap Ptr) h.1
  findOk_of_ne m _ hid := IndexedBy.findOk_of_ne (M := OrderIdMap Ptr) m hid
  find_eq h hok := IndexedBy.find_eq (M := OrderIdMap Ptr) h.1 hok
  insert_eq p h hid hf hroom := by
    obtain ⟨m', hins, hrep⟩ := IndexedBy.insert_eq (M := OrderIdMap Ptr) p h.1 hid hf hroom
    exact ⟨m', hins, hrep, (OrderIdMap.insert_mask hins).trans h.2⟩
  erase_eq h hf := by
    obtain ⟨m', herase, hrep⟩ := IndexedBy.erase_eq (M := OrderIdMap Ptr) h.1 hf
    exact ⟨m', herase, fun hok => ⟨hrep hok, (OrderIdMap.erase_mask herase).trans h.2⟩⟩

theorem Keeps.homeSlot_eq {n : ℕ} {m : OrderIdMap Ptr} {f : OrderId → Option Ptr}
    (h : Keeps n m f) : m.homeSlot = home n := by
  funext id
  unfold home OrderIdMap.homeSlot
  rw [h.2]

/-- **Without collisions every erasure is a good one.** -/
theorem Keeps.erasesOk {n : ℕ} {m : BookTable} {f : OrderId → Option Ptr} {ids : List OrderId}
    (h : Keeps n m f)
    (hapart : ∀ id id', f id ≠ none → f id' ≠ none → home n id = home n id' → id = id')
    (hnodup : ids.Nodup) (hbound : ∀ id ∈ ids, f id ≠ none) : ErasesOk m ids := by
  induction ids generalizing m f with
  | nil => trivial
  | cons id ids ih =>
    obtain ⟨hnot, hnodup⟩ := List.nodup_cons.mp hnodup
    have hspares : IndexedBy.EraseOk m id := fun i _ _ => by
      refine h.1.1.not_strands (fun id id' hid hid' heq => ?_) i
      rw [h.homeSlot_eq] at heq
      exact hapart id id' (mt Option.map_eq_none_iff.mpr hid) (mt Option.map_eq_none_iff.mpr hid')
        heq
    have hrep : IndexedBy.Rep n m f := h
    obtain ⟨m', herase, hkeeps⟩ := IndexedBy.erase_eq hrep (hbound id List.mem_cons_self)
    have hne : ∀ {id'}, Function.update f id none id' ≠ none → f id' ≠ none := fun {id'} hid' => by
      by_cases heq : id' = id
      · rw [heq, Function.update_self] at hid'
        exact absurd rfl hid'
      · rwa [Function.update_of_ne heq] at hid'
    refine ⟨hspares, fun r hr => ?_⟩
    obtain rfl := Option.some.inj (herase.symm.trans hr)
    refine ih (hkeeps hspares) (fun id id' hid hid' => hapart id id' (hne hid) (hne hid')) hnodup
      fun id' hid' => ?_
    rw [Function.update_of_ne (ne_of_mem_of_not_mem hid' hnot)]
    exact hbound id' (List.mem_cons_of_mem _ hid')

end BookTable

/-! ### Runs of the market without collisions -/

namespace Market

/-- No two orders have the same home slot, and the call does not name `kInvalidOrderId`. -/
def Collisionless (cfg : Config) (m : Market) (c : Call) : Prop :=
  (∀ e ∈ m .buy ++ m .sell, ∀ e' ∈ m .buy ++ m .sell,
    BookTable.home cfg.maxOrders e.id = BookTable.home cfg.maxOrders e'.id → e.id = e'.id) ∧
  c.target ≠ some kInvalidOrderId

instance (cfg : Config) (m : Market) (c : Call) : Decidable (m.Collisionless cfg c) := by
  unfold Collisionless; infer_instance

/-- No call of a run meets a collision. -/
def collisionless (cfg : Config) : Market → List Call → Bool
  | _, [] => true
  | m, c :: cs => decide (m.Collisionless cfg c) &&
    match m.next cfg c with
    | some m' => collisionless cfg m' cs
    | none => true

theorem mem_sides {m : Market} {s : Side} {e : Entry} (h : e ∈ m s) : e ∈ m .buy ++ m .sell := by
  cases s with
  | buy => exact List.mem_append_left _ h
  | sell => exact List.mem_append_right _ h

end Market

namespace OrderBook

open Queues

variable {M : Type} {c : Call} {o : NewOrder}

section Good

variable [IdMap M] [IndexedBy M] {b : OrderBook M} {A : Queues} {s : Side}

theorem Good.filledIds_nodup (h : Good b A) (o : NewOrder) : (b.filledIds A o).Nodup := by
  refine List.Nodup.sublist ?_ (h.orders_ids_nodup (s := opposite o.side) (b.sources_nodup o).1)
  exact (Greedy.exhausted_sublist Resting.size _ _).map _

omit [IdMap M] [IndexedBy M] in
theorem mem_filledIds {id : OrderId} (h : id ∈ b.filledIds A o) :
    ∃ i, ∃ r ∈ A (opposite o.side) i, r.id = id := by
  obtain ⟨r, hr, rfl⟩ := List.mem_map.mp h
  obtain ⟨i, -, hr⟩ := List.mem_flatMap.mp ((Greedy.exhausted_sublist Resting.size _ _).mem hr)
  exact ⟨i, r, hr, rfl⟩

/-- The order that replaces another one is on its side. -/
theorem Good.replaced_side (h : Good b A) {i : ℕ} {r : Resting} (hd : Drops A c s i r)
    (ho : Executes b A c o) : o.side = s := by
  cases ho with
  | submit => cases hd
  | @modify t j r' newQty newPrice ts hr' =>
    generalize hc : Call.modify r'.id newQty newPrice ts = c at hd
    cases hd with
    | modify hr =>
      injection hc with hid
      exact (h.unique hr' hr hid).1
    | cancel | reduce => cases hc

/-- A call erases ids of resting orders, each of them once. -/
theorem Good.erases_rest (h : Good b A) {ids : List OrderId} (he : Erases b A c ids) :
    ids.Nodup ∧ ∀ id ∈ ids, A.Rests id := by
  have hfilled : ∀ o, ∀ id ∈ b.filledIds A o, A.Rests id := fun o id hid => by
    obtain ⟨i, r, hr, rfl⟩ := mem_filledIds hid
    exact ⟨_, i, r, hr, rfl⟩
  have hdrops : ∀ {s i r}, Drops A c s i r → r ∈ A s i := fun hd => by
    cases hd <;> assumption
  cases he with
  | submit => exact ⟨h.filledIds_nodup _, hfilled _⟩
  | drop hd =>
    refine ⟨List.nodup_singleton _, fun id hid => ?_⟩
    obtain rfl := List.mem_singleton.mp hid
    exact ⟨_, _, _, hdrops hd, rfl⟩
  | @replace _ s i r o hd ho =>
    refine ⟨List.nodup_cons.mpr ⟨fun hmem => ?_, h.filledIds_nodup _⟩, fun id hid => ?_⟩
    · -- an order is filled from the other side
      obtain ⟨j, r', hr', hid⟩ := mem_filledIds hmem
      have hside := (h.unique hr' (hdrops hd) hid).1
      rw [h.replaced_side hd ho] at hside
      exact opposite_ne s hside
    · rcases List.mem_cons.mp hid with rfl | hid
      · exact ⟨_, _, _, hdrops hd, rfl⟩
      · exact hfilled _ _ hid

end Good

/-! ### Runs of the engine -/

section Table

variable {b : OrderBook BookTable}

theorem Good.safe_of_collisionless (h : Good b b.queue)
    (hc : b.market.Collisionless b.cfg c) : Safe b b.queue c where
  erases ids he := by
    obtain ⟨hnodup, hrests⟩ := h.erases_rest he
    obtain ⟨f, hrep, hf⟩ := h.indexed
    have hkeeps : BookTable.Keeps b.cfg.maxOrders b.idMap f := hrep
    have hbinds : ∀ {id}, f id ≠ none ↔ b.queue.Rests id := fun {id} => by
      rw [rests_iff, Option.ne_none_iff_exists']
      exact exists_congr fun p => hf id p
    have hmem : ∀ {id}, f id ≠ none → ∃ e ∈ b.market .buy ++ b.market .sell, e.id = id :=
      fun hid => by
        obtain ⟨s, e, he, hid⟩ := Market.rests_iff.mp (h.market_rests_iff.mpr (hbinds.mp hid))
        exact ⟨e, Market.mem_sides he, hid⟩
    refine hkeeps.erasesOk (fun id id' hid hid' heq => ?_) hnodup
      fun id hid => hbinds.mpr (hrests id hid)
    obtain ⟨e, he, rfl⟩ := hmem hid
    obtain ⟨e', he', rfl⟩ := hmem hid'
    exact hc.1 e he e' he' heq
  finds id ht _ := IndexedBy.findOk_of_ne _ fun hid => hc.2 (hid ▸ ht)

/-- A run of the market without collisions is safe on the table. -/
theorem Faithful.throughout_safe {cs : List Call} (h : Faithful b)
    (hcount : b.market.countable b.cfg cs = true)
    (hfree : b.market.collisionless b.cfg cs = true) :
    Throughout (fun b c => Safe b b.queue c) b cs := by
  induction cs generalizing b with
  | nil => trivial
  | cons c cs ih =>
    obtain ⟨hcount, hcounts⟩ := Bool.and_eq_true_iff.mp hcount
    obtain ⟨hfree, hfrees⟩ := Bool.and_eq_true_iff.mp hfree
    have hsafe := h.good.safe_of_collisionless (of_decide_eq_true hfree)
    refine ⟨hsafe, fun b₁ a ts ts' hrun => ?_⟩
    have hcall := h.answer_market hsafe (of_decide_eq_true hcount) ts
    obtain ⟨h₁, hcfg⟩ := h.step hsafe hrun
    rw [hrun, asMarket_ok] at hcall
    rw [Market.next_eq hcall.symm, ← hcfg] at hcounts hfrees
    exact ih h₁ hcounts hfrees

end Table

/-- **The engine with the table of the source is the market** in every run in which no two resting
orders have one home slot, and `kInvalidOrderId` is not cancelled, reduced or modified. -/
theorem table_answers_eq_market {cfg : Config} (hbase : 0 ≤ cfg.basePrice.toInt)
    (hmax : cfg.maxOrders < 2 ^ 32) {cs : List Call}
    (hcount : Market.empty.countable cfg cs = true)
    (hfree : Market.empty.collisionless cfg cs = true) :
    asMarket (((new cfg : OrderBook (OrderIdMap Ptr)).answers cs).run []) =
        (Market.empty.answers cfg cs).run [] ∧
      ∀ b as ts, ((new cfg : OrderBook (OrderIdMap Ptr)).answers cs).run [] = .ok (b, as) ts →
        Pictures b b.market := by
  have hnew : Faithful (new cfg : OrderBook BookTable) := faithful_new hbase hmax
  have hsafe : Throughout (fun b c => Safe b b.queue c) (new cfg : OrderBook BookTable) cs := by
    refine hnew.throughout_safe ?_ ?_
    · rwa [market_new]
    · rwa [market_new]
  constructor
  · rw [← market_new (M := BookTable) cfg] at hcount ⊢
    exact hnew.answers_market hsafe hcount []
  · intro b as ts hrun
    exact (hnew.answers hsafe hrun).1.pictures

theorem hitOffer_table_answers_eq_market :
    asMarket (((new smallConfig : OrderBook (OrderIdMap Ptr)).answers hitOffer).run []) =
        (Market.empty.answers smallConfig hitOffer).run [] ∧
      ∀ b as ts, ((new smallConfig : OrderBook (OrderIdMap Ptr)).answers hitOffer).run [] =
        .ok (b, as) ts → Pictures b b.market :=
  table_answers_eq_market (by decide) (by decide) (by decide) (by decide)

end OrderBook

end Lob
