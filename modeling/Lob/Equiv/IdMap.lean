import Lob.OrderBook
import Lob.Equiv.OrderIdMap
import Lob.Equiv.SlabAllocator

/-!
# What the book relies on in its id index

`LawfulIdMap` is the contract of the index: a finite map from ids to orders in which
`kInvalidOrderId` is never bound.  `OrderIdMap` meets it only under conditions, so the results
about the book are proved from the weaker `IndexedBy`: `Rep n m f` says that `m` holds the
bindings `f` and has room for `n` of them, `FindOk m id` that a lookup of `id` is answered
truthfully, and `EraseOk m id` that erasing `id` keeps the other bindings.  For a lawful map the
two conditions are always met; for an `OrderIdMap`

* `FindOk` fails for `kInvalidOrderId` alone, when the first empty slot on its probe path has been
  in use (`OrderIdMap.InvalidClean`);
* `EraseOk` fails when the erasure strands an entry (`OrderIdMap.Strands`).
-/

namespace Lob

/-- The contract of an id map. -/
class LawfulIdMap (M : Type) extends IdMap M where
  lookup : M → OrderId → Option Ptr
  lookup_new : ∀ n id, lookup (new n) id = none
  lookup_invalid : ∀ m, lookup m kInvalidOrderId = none
  find_eq : ∀ m id, find m id = some (lookup m id)
  insert_bound : ∀ m id p, lookup m id ≠ none → insert m id p = some (false, m)
  insert_unbound : ∀ m id p, id ≠ kInvalidOrderId → lookup m id = none →
    ∃ m', insert m id p = some (true, m') ∧ lookup m' = Function.update (lookup m) id (some p)
  erase_unbound : ∀ m id, lookup m id = none → erase m id = some (false, m)
  erase_bound : ∀ m id, lookup m id ≠ none →
    ∃ m', erase m id = some (true, m') ∧ lookup m' = Function.update (lookup m) id none

/-- A map that binds at most `n` ids has fewer than `n` of them in any list without repeats. -/
def Room (n : ℕ) (f : OrderId → Option Ptr) : Prop :=
  ∀ ids : List OrderId, ids.Nodup → (∀ id ∈ ids, f id ≠ none) → ids.length < n

/-- An index that keeps its bindings as long as no bad erasure happens. -/
class IndexedBy (M : Type) [IdMap M] where
  Rep : ℕ → M → (OrderId → Option Ptr) → Prop
  FindOk : M → OrderId → Prop
  EraseOk : M → OrderId → Prop
  rep_new : ∀ n, n * 40 < 2 ^ 63 → Rep n (IdMap.new (OrderBook.nextPow2 (n * 2))) fun _ => none
  rep_invalid : ∀ {n m f}, Rep n m f → f kInvalidOrderId = none
  findOk_of_ne : ∀ m {id}, id ≠ kInvalidOrderId → FindOk m id
  find_eq : ∀ {n m f id}, Rep n m f → FindOk m id → IdMap.find m id = some (f id)
  insert_eq : ∀ {n m f id} p, Rep n m f → id ≠ kInvalidOrderId → f id = none → Room n f →
    ∃ m', IdMap.insert m id p = some (true, m') ∧ Rep n m' (Function.update f id (some p))
  erase_eq : ∀ {n m f id}, Rep n m f → f id ≠ none → ∃ m', IdMap.erase m id = some (true, m') ∧
    (EraseOk m id → Rep n m' (Function.update f id none))

/-- The erasures of `ids`, one after the other, are all good. -/
def ErasesOk {M : Type} [IdMap M] [IndexedBy M] : M → List OrderId → Prop
  | _, [] => True
  | m, id :: ids =>
    IndexedBy.EraseOk m id ∧ ∀ r, IdMap.erase m id = some r → ErasesOk r.2 ids

/-- The map after the erasures of `ids`. -/
def eraseAll {M : Type} [IdMap M] : M → List OrderId → Option M
  | m, [] => some m
  | m, id :: ids => (IdMap.erase m id).bind fun r => eraseAll r.2 ids

theorem eraseAll_append {M : Type} [IdMap M] {m m' : M} {ids : List OrderId}
    (h : eraseAll m ids = some m') (ids' : List OrderId) :
    eraseAll m (ids ++ ids') = eraseAll m' ids' := by
  induction ids generalizing m with
  | nil =>
    obtain rfl := Option.some.inj h
    rfl
  | cons id ids ih =>
    rw [eraseAll, Option.bind_eq_some_iff] at h
    obtain ⟨r, hr, h⟩ := h
    rw [List.cons_append, eraseAll, hr, Option.bind_some]
    exact ih h

theorem ErasesOk.left {M : Type} [IdMap M] [IndexedBy M] {m : M} {ids ids' : List OrderId}
    (h : ErasesOk m (ids ++ ids')) : ErasesOk m ids := by
  induction ids generalizing m with
  | nil => trivial
  | cons id ids ih => exact ⟨h.1, fun r hr => ih (h.2 r hr)⟩

/-- The erasures that come after the first ones are good as well. -/
theorem ErasesOk.of_append {M : Type} [IdMap M] [IndexedBy M] {m m' : M}
    {ids ids' : List OrderId} (h : ErasesOk m (ids ++ ids')) (hm : eraseAll m ids = some m') :
    ErasesOk m' ids' := by
  induction ids generalizing m with
  | nil =>
    obtain rfl := Option.some.inj hm
    exact h
  | cons id ids ih =>
    rw [eraseAll, Option.bind_eq_some_iff] at hm
    obtain ⟨r, hr, hm⟩ := hm
    exact ih (h.2 r hr) hm

/-! ### The contract -/

instance {M : Type} [LawfulIdMap M] : IndexedBy M where
  Rep _ m f := LawfulIdMap.lookup m = f
  FindOk _ _ := True
  EraseOk _ _ := True
  rep_new n _ := funext fun id => LawfulIdMap.lookup_new _ id
  rep_invalid := by
    rintro n m f rfl
    exact LawfulIdMap.lookup_invalid m
  findOk_of_ne _ _ _ := trivial
  find_eq := by
    rintro n m f id rfl -
    exact LawfulIdMap.find_eq m id
  insert_eq := by
    rintro n m f id p rfl hid hf -
    exact LawfulIdMap.insert_unbound m id p hid hf
  erase_eq := by
    rintro n m f id rfl hf
    obtain ⟨m', herase, hm'⟩ := LawfulIdMap.erase_bound m id hf
    exact ⟨m', herase, fun _ => hm'⟩

theorem erasesOk_of_lawful {M : Type} [LawfulIdMap M] (m : M) (ids : List OrderId) :
    ErasesOk m ids := by
  induction ids generalizing m with
  | nil => trivial
  | cons id ids ih => exact ⟨trivial, fun r _ => ih r.2⟩

/-- The plainest lawful map: the function itself. -/
structure PlainIdMap where
  lookup : OrderId → Option Ptr
  lookup_invalid : lookup kInvalidOrderId = none

namespace PlainIdMap

def bind (m : PlainIdMap) (id : OrderId) (p : Option Ptr) (hid : id ≠ kInvalidOrderId) :
    PlainIdMap where
  lookup := Function.update m.lookup id p
  lookup_invalid := by rw [Function.update_of_ne hid.symm, m.lookup_invalid]

instance : IdMap PlainIdMap where
  new _ := ⟨fun _ => none, rfl⟩
  insert m id p :=
    if hid : id ≠ kInvalidOrderId ∧ m.lookup id = none then
      some (true, m.bind id (some p) hid.1)
    else some (false, m)
  find m id := some (m.lookup id)
  erase m id :=
    if hid : id ≠ kInvalidOrderId ∧ m.lookup id ≠ none then some (true, m.bind id none hid.1)
    else some (false, m)

instance : LawfulIdMap PlainIdMap where
  lookup := PlainIdMap.lookup
  lookup_new _ _ := rfl
  lookup_invalid := PlainIdMap.lookup_invalid
  find_eq _ _ := rfl
  insert_bound _ _ _ h := dif_neg fun hid => h hid.2
  insert_unbound _ _ _ hid h := ⟨_, dif_pos ⟨hid, h⟩, rfl⟩
  erase_unbound _ _ h := dif_neg fun hid => hid.2 h
  erase_bound m id h := by
    have hid : id ≠ kInvalidOrderId := by
      rintro rfl
      exact h m.lookup_invalid
    exact ⟨_, dif_pos ⟨hid, h⟩, rfl⟩

end PlainIdMap

/-! ### `OrderIdMap` -/

namespace OrderIdMap

/-- The table binds an id to a pointer that is never null. -/
def Indexes (n : ℕ) (m : OrderIdMap Ptr) (f : OrderId → Option Ptr) : Prop :=
  m.Represents (fun id => (f id).map some) ∧ n < m.capacity

/-- No slot that holds `id` strands an entry when it is erased. -/
def Spares (m : OrderIdMap Ptr) (id : OrderId) : Prop :=
  ∀ i < m.capacity, (m.slots i).id = id → ¬m.Strands i

instance (m : OrderIdMap Ptr) (id : OrderId) : Decidable (m.Spares id) := by
  unfold Spares; infer_instance

theorem nextPow2Loop_ge (n : ℕ) : ∀ fuel p, n ≤ p * 2 ^ fuel → n ≤ OrderBook.nextPow2Loop n fuel p
  | 0, p, h => by simpa [OrderBook.nextPow2Loop] using h
  | fuel + 1, p, h => by
    rw [OrderBook.nextPow2Loop]
    split_ifs with hlt
    · refine nextPow2Loop_ge n fuel _ ?_
      rw [Nat.shiftLeft_eq, pow_one]
      rwa [pow_succ', ← mul_assoc] at h
    · exact not_lt.mp hlt

theorem nextPow2Loop_le (n : ℕ) : ∀ fuel p, p ≤ 2 * n → OrderBook.nextPow2Loop n fuel p ≤ 2 * n
  | 0, _, h => h
  | fuel + 1, p, h => by
    rw [OrderBook.nextPow2Loop]
    split_ifs with hlt
    · refine nextPow2Loop_le n fuel _ ?_
      rw [Nat.shiftLeft_eq, pow_one]
      omega
    · exact h

/-- The bound on `n` keeps the loop of `nextPow2` far below `2 ^ 64`. -/
theorem nextPow2_le {n : ℕ} (hn : n * 40 < 2 ^ 63) : OrderBook.nextPow2 (n * 2) ≤ 2 ^ 63 := by
  rcases Nat.eq_zero_or_pos n with rfl | hpos
  · decide
  · have hle : OrderBook.nextPow2 (n * 2) ≤ 2 * (n * 2) := nextPow2Loop_le _ 64 1 (by omega)
    omega

/-- The table of a book has more slots than the book has orders. -/
theorem lt_capacity {n : ℕ} (hn : n * 40 < 2 ^ 63) :
    n < (new (OrderBook.nextPow2 (n * 2)) : OrderIdMap Ptr).capacity := by
  have hle := nextPow2_le hn
  obtain ⟨hcap, htwo⟩ := le_roundUpPow2 (n := OrderBook.nextPow2 (n * 2)) (by omega)
  have hge : n * 2 ≤ OrderBook.nextPow2 (n * 2) := nextPow2Loop_ge _ 64 1 (by omega)
  -- for no orders the table has the two slots that it has at least
  rw [new_capacity]
  omega

variable {m : OrderIdMap Ptr} {n : ℕ} {f : OrderId → Option Ptr}

/-- Fewer slots are in use than the index has room for. -/
theorem Represents.occupied_card_lt (h : m.Represents fun id => (f id).map some)
    (hroom : Room n f) : m.occupied.card < n := by
  have hbound : ∀ j ∈ m.occupied, f (m.slots j).id ≠ none := fun j hj => by
    obtain ⟨hlt, hne⟩ := Finset.mem_filter.mp hj
    obtain ⟨⟨k, v⟩, hkv⟩ := Option.ne_none_iff_exists'.mp hne
    have hf := (h.holds k v).mp ⟨j, trivial, Finset.mem_range.mp hlt, hkv⟩
    rw [(entry_eq_some_iff.mp hkv).2]
    intro hnone
    simp [hnone] at hf
  -- the ids in the slots in use are bound, and no two are the same
  have := hroom (m.occupied.toList.map fun j => (m.slots j).id)
    ((List.nodup_map_iff_inj_on m.occupied.nodup_toList).mpr fun i hi j hj heq =>
      h.ids_injOn i (Finset.mem_toList.mp hi) j (Finset.mem_toList.mp hj) heq) ?_
  · rwa [List.length_map, Finset.length_toList] at this
  · intro id hid
    obtain ⟨j, hj, rfl⟩ := List.mem_map.mp hid
    exact hbound j (Finset.mem_toList.mp hj)

instance : IndexedBy (OrderIdMap Ptr) where
  Rep := Indexes
  FindOk m id := id ≠ kInvalidOrderId ∨ m.InvalidClean
  EraseOk := Spares
  rep_new n hn := ⟨new_represents _, lt_capacity hn⟩
  rep_invalid h := by
    have := h.1.lookup_invalid
    simpa using this
  findOk_of_ne _ _ hid := Or.inl hid
  find_eq := by
    rintro n m f id ⟨h, -⟩ hok
    by_cases hid : id = kInvalidOrderId
    · subst hid
      have hf : f kInvalidOrderId = none := by simpa using h.lookup_invalid
      rw [hf]
      exact h.find_invalid_iff.mpr (hok.resolve_left (not_not.mpr rfl))
    · refine (h.find_eq hid).trans ?_
      cases f id <;> rfl
  insert_eq := by
    rintro n m f id p ⟨h, hcap⟩ hid hf hroom
    have hnone : (f id).map some = none := by rw [hf, Option.map_none]
    obtain ⟨m', hins, hcap', hrep⟩ := h.insert_unbound hnone hid (some p)
    have hlt := h.occupied_card_lt hroom
    refine ⟨m', hins, (hrep (by omega)).congr fun id' => ?_, by omega⟩
    rcases eq_or_ne id' id with rfl | hne
    · simp
    · simp [hne]
  erase_eq := by
    rintro n m f id ⟨h, hcap⟩ hf
    obtain ⟨p, hp⟩ := Option.ne_none_iff_exists'.mp hf
    have hsome : (f id).map some = some (some p) := by rw [hp, Option.map_some]
    obtain ⟨m', herase, hcap', hrep⟩ := h.erase_represents hsome
    refine ⟨m', herase, fun hok => ⟨(hrep hok).congr fun id' => ?_, by omega⟩⟩
    rcases eq_or_ne id' id with rfl | hne
    · simp
    · simp [hne]

end OrderIdMap

/-- **The slab and the table of a book** can be constructed, whatever the configuration. -/
theorem OrderBook.new_constructs (cfg : Config) :
    SlabAllocator.construct cfg.maxOrders = .ok (new cfg : OrderBook (OrderIdMap Ptr)).slab ∧
      OrderIdMap.construct (nextPow2 (cfg.maxOrders * 2)) =
        .ok (new cfg : OrderBook (OrderIdMap Ptr)).idMap :=
  ⟨SlabAllocator.construct_eq cfg.slab_fits, if_pos (OrderIdMap.nextPow2_le cfg.orders_fit)⟩

end Lob
