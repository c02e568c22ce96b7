import Lob.OrderIdMap
import Lob.General.Probing
import Mathlib.Data.Finset.Card
import Mathlib.Data.Finset.Image
import Mathlib.Data.Nat.Bitwise

/-!
# `OrderIdMap` against a finite map

The table is read as a partial function from slots to entries (`entry`), to which the theory of
linear probing applies.  `Represents m f` says that the table `m` is well formed and binds
exactly what the finite map `f` binds.  `new_represents`, `find_eq`, `insert_represents` and
`erase_represents` are the specifications of the operations.

The backshift loop of `erase` stops at an entry that sits in its own hash slot, although an entry
further on may have been probed past the hole.  `Strands m i` says that erasing slot `i` leaves
such an entry behind; `erase_represents` needs that it does not happen, and
`erase_strands` shows that otherwise a bound id is lost.
-/

namespace Lob.OrderIdMap

variable {α : Type}

/-! ### The mask -/

/-- The capacity is a power of two of at most 64 bits. -/
def Sized (m : OrderIdMap α) : Prop := ∃ k ≤ 64, m.mask + 1 = 2 ^ k

theorem Sized.and_mask {m : OrderIdMap α} (h : m.Sized) (x : ℕ) :
    x &&& m.mask = x % m.capacity := by
  obtain ⟨k, -, hk⟩ := h
  rw [capacity, hk, ← Nat.and_two_pow_sub_one_eq_mod, show m.mask = 2 ^ k - 1 by omega]

theorem capacity_pos (m : OrderIdMap α) : 0 < m.capacity := Nat.succ_pos _

theorem Sized.capacity_dvd {m : OrderIdMap α} (h : m.Sized) : m.capacity ∣ 2 ^ 64 := by
  obtain ⟨k, hk, hm⟩ := h
  rw [capacity, hm]
  exact Nat.pow_dvd_pow 2 hk

theorem Sized.capacity_le {m : OrderIdMap α} (h : m.Sized) : m.capacity ≤ 2 ^ 64 :=
  Nat.le_of_dvd (Nat.two_pow_pos 64) h.capacity_dvd

theorem Sized.nextSlot_eq {m : OrderIdMap α} (h : m.Sized) (i : ℕ) :
    m.nextSlot i = (i + 1) % m.capacity :=
  h.and_mask _

theorem Sized.homeSlot_lt {m : OrderIdMap α} (h : m.Sized) (id : OrderId) :
    m.homeSlot id < m.capacity := by
  rw [homeSlot, h.and_mask]
  exact Nat.mod_lt _ m.capacity_pos

/-- The distance that `erase` computes is zero exactly for an entry in its own hash slot. -/
theorem Sized.dist_eq_zero_iff {m : OrderIdMap α} (h : m.Sized) {next ideal : ℕ}
    (hn : next < m.capacity) (hi : ideal < m.capacity) :
    (next + 2 ^ 64 - ideal) % 2 ^ 64 &&& m.mask = 0 ↔ ideal = next := by
  rw [h.and_mask, Nat.mod_mod_of_dvd _ h.capacity_dvd]
  obtain ⟨q, hq⟩ := h.capacity_dvd
  have hle := h.capacity_le
  rcases le_or_gt ideal next with hle' | hgt
  · rw [show next + 2 ^ 64 - ideal = next - ideal + m.capacity * q by omega,
      Nat.add_mul_mod_self_left, Nat.mod_eq_of_lt (by omega)]
    omega
  · -- the difference wraps around modulo `2 ^ 64`, a multiple of the capacity
    have hq0 : q ≠ 0 := by rintro rfl; simp at hq
    obtain ⟨q, rfl⟩ : ∃ q', q = q' + 1 := ⟨q - 1, by omega⟩
    rw [Nat.mul_succ] at hq
    rw [show next + 2 ^ 64 - ideal = next + m.capacity - ideal + m.capacity * q by omega,
      Nat.add_mul_mod_self_left, Nat.mod_eq_of_lt (by omega)]
    omega

theorem roundUpPow2_eq (n : ℕ) : ∃ k ≤ 64, roundUpPow2 n = 2 ^ k := by
  unfold roundUpPow2
  split_ifs with h
  · exact ⟨1, by omega, rfl⟩
  · exact ⟨_, Nat.sub_le _ _, Nat.one_shiftLeft _⟩

theorem le_roundUpPow2 {n : ℕ} (hn : n < 2 ^ 64) : n ≤ roundUpPow2 n ∧ 2 ≤ roundUpPow2 n := by
  unfold roundUpPow2
  split_ifs with h
  · omega
  · have hlt := BitVec.toNat_lt_two_pow_sub_clz (x := BitVec.ofNat 64 (n - 1))
    rw [BitVec.toNat_ofNat, Nat.mod_eq_of_lt (by omega)] at hlt
    rw [Nat.one_shiftLeft]
    omega

theorem new_sized (n : ℕ) : (new n : OrderIdMap α).Sized := by
  obtain ⟨k, hk, h⟩ := roundUpPow2_eq n
  have hpos := Nat.two_pow_pos k
  exact ⟨k, hk, by simp only [new]; omega⟩

theorem new_capacity (n : ℕ) : (new n : OrderIdMap α).capacity = roundUpPow2 n := by
  obtain ⟨k, -, h⟩ := roundUpPow2_eq n
  have hpos := Nat.two_pow_pos k
  simp only [new, capacity]
  omega

/-- The constructor makes a table as long as the shift for its capacity is defined. -/
theorem construct_eq_ok_iff {n : ℕ} {m : OrderIdMap α} :
    construct n = .ok m ↔ n ≤ 2 ^ 63 ∧ m = new n := by
  unfold construct
  split_ifs with h
  · rw [Except.ok.injEq, eq_comm, and_iff_right h]
  · exact iff_of_false nofun fun h' => h h'.1

/-- What the constructor makes has a property if and only if there is a table, and that has it. -/
theorem exists_construct_iff {n : ℕ} {p : OrderIdMap α → Prop} :
    (∃ m, construct n = .ok m ∧ p m) ↔ n ≤ 2 ^ 63 ∧ p (new n) := by
  simp only [construct_eq_ok_iff, and_assoc, exists_and_left, exists_eq_left]

/-! ### The table as a partial function -/

/-- The entry of a slot; a slot whose id is `kInvalidOrderId` is empty whatever its pointer. -/
def entryOf (s : Slot α) : Option (OrderId × Option α) :=
  if s.id = kInvalidOrderId then none else some (s.id, s.value)

def entry (m : OrderIdMap α) : ℕ → Option (OrderId × Option α) := entryOf ∘ m.slots

theorem entry_eq_none_iff {m : OrderIdMap α} {i : ℕ} :
    m.entry i = none ↔ (m.slots i).id = kInvalidOrderId := by
  simp [entry, entryOf]

theorem entry_eq_some_iff {m : OrderIdMap α} {i : ℕ} {id : OrderId} {v : Option α} :
    m.entry i = some (id, v) ↔ id ≠ kInvalidOrderId ∧ m.slots i = ⟨id, v⟩ := by
  simp only [entry, entryOf, Function.comp_apply]
  split_ifs with h
  · constructor
    · intro hf; exact absurd hf (by simp)
    · rintro ⟨hne, heq⟩
      rw [heq] at h
      exact absurd h hne
  · constructor
    · intro hs
      obtain ⟨rfl, rfl⟩ := Prod.mk.injEq .. ▸ Option.some.inj hs
      exact ⟨h, rfl⟩
    · rintro ⟨-, heq⟩
      rw [heq]

theorem entry_update (m : OrderIdMap α) (i : ℕ) (s : Slot α) (n : UInt64) :
    entry { m with slots := Function.update m.slots i s, size := n } =
      Function.update m.entry i (entryOf s) :=
  Function.comp_update ..

/-- The slots in use. -/
def occupied (m : OrderIdMap α) : Finset ℕ := {i ∈ Finset.range m.capacity | m.entry i ≠ none}

/-- The table `m` is well formed and binds what `f` binds. -/
structure Represents (m : OrderIdMap α) (f : OrderId → Option (Option α)) : Prop where
  sized : m.Sized
  probed : Probing.ProbedOn m.capacity m.homeSlot m.entry Set.univ
  holds : ∀ id v, Probing.Holds m.capacity m.entry Set.univ id v ↔ f id = some v
  vacant : ∃ e < m.capacity, m.entry e = none
  size_eq : m.size = UInt64.ofNat m.occupied.card

theorem Represents.lookup_invalid {m : OrderIdMap α} {f : OrderId → Option (Option α)}
    (h : m.Represents f) : f kInvalidOrderId = none := by
  rw [Option.eq_none_iff_forall_ne_some]
  intro v hv
  obtain ⟨j, -, -, hj⟩ := (h.holds _ v).mpr hv
  exact (entry_eq_some_iff.mp hj).1 rfl

theorem Represents.ne_invalid {m : OrderIdMap α} {f : OrderId → Option (Option α)}
    (h : m.Represents f) {id : OrderId} {v : Option α} (hf : f id = some v) :
    id ≠ kInvalidOrderId := by
  rintro rfl
  rw [h.lookup_invalid] at hf
  cases hf

theorem Represents.absent {m : OrderIdMap α} {f : OrderId → Option (Option α)}
    (h : m.Represents f) {id : OrderId} (hf : f id = none) (v : Option α) :
    ¬Probing.Holds m.capacity m.entry Set.univ id v := by
  rw [h.holds, hf]
  simp

theorem Represents.congr {m : OrderIdMap α} {f g : OrderId → Option (Option α)}
    (h : m.Represents f) (heq : ∀ id, f id = g id) : m.Represents g := (funext heq) ▸ h

/-- No two slots in use hold the same id. -/
theorem Represents.ids_injOn {m : OrderIdMap α} {f : OrderId → Option (Option α)}
    (h : m.Represents f) (i : ℕ) (hi : i ∈ m.occupied) (j : ℕ) (hj : j ∈ m.occupied)
    (heq : (m.slots i).id = (m.slots j).id) : i = j := by
  obtain ⟨hilt, hine⟩ := Finset.mem_filter.mp hi
  obtain ⟨hjlt, -⟩ := Finset.mem_filter.mp hj
  have hid := mt entry_eq_none_iff.mpr hine
  have hj' : m.entry j = some ((m.slots i).id, (m.slots j).value) :=
    entry_eq_some_iff.mpr ⟨hid, by simp only [heq]⟩
  exact h.probed.unique i trivial j trivial (Finset.mem_range.mp hilt) (Finset.mem_range.mp hjlt)
    _ _ _ (entry_eq_some_iff.mpr ⟨hid, rfl⟩) hj'

/-- The slots in use and the bound ids are equally many. -/
theorem Represents.card_eq {m : OrderIdMap α} {f : OrderId → Option (Option α)}
    (h : m.Represents f) {ids : Finset OrderId} (hids : ∀ id, id ∈ ids ↔ f id ≠ none) :
    m.occupied.card = ids.card := by
  -- a slot in use is told by its id
  refine Finset.card_bij (fun j _ => (m.slots j).id) ?_ h.ids_injOn ?_
  · intro j hj
    obtain ⟨hlt, hne⟩ := Finset.mem_filter.mp hj
    obtain ⟨⟨k, v⟩, hkv⟩ := Option.ne_none_iff_exists'.mp hne
    have hf := (h.holds k v).mp ⟨j, trivial, Finset.mem_range.mp hlt, hkv⟩
    rw [(entry_eq_some_iff.mp hkv).2, hids, hf]
    exact Option.some_ne_none v
  · intro id hid
    obtain ⟨v, hv⟩ := Option.ne_none_iff_exists'.mp ((hids id).mp hid)
    obtain ⟨j, -, hj, hjv⟩ := (h.holds id v).mpr hv
    refine ⟨j, Finset.mem_filter.mpr ⟨Finset.mem_range.mpr hj, by simp [hjv]⟩, ?_⟩
    rw [(entry_eq_some_iff.mp hjv).2]

theorem new_represents (n : ℕ) : (new n : OrderIdMap α).Represents fun _ => none where
  sized := new_sized n
  probed := ⟨fun _ _ _ _ _ h => by simp [entry, entryOf, new] at h,
    fun _ _ _ _ _ _ _ _ _ h => by simp [entry, entryOf, new] at h⟩
  holds id v := by simp [Probing.Holds, entry, entryOf, new]
  vacant := ⟨0, capacity_pos _, by simp [entry, entryOf, new]⟩
  size_eq := by simp [occupied, entry, entryOf, new]

/-! ### The probe loop -/

theorem Sized.probe_eq {m : OrderIdMap α} (h : m.Sized) {id : OrderId} {d : ℕ} :
    ∀ {fuel s : ℕ}, d < fuel →
      (∀ c < d, (m.slots ((s + c) % m.capacity)).id ≠ id ∧
        (m.slots ((s + c) % m.capacity)).id ≠ kInvalidOrderId) →
      ((m.slots ((s + d) % m.capacity)).id = id ∨
        (m.slots ((s + d) % m.capacity)).id = kInvalidOrderId) →
      m.probe id fuel (s % m.capacity) = some ((s + d) % m.capacity) := by
  -- on the number of slots that the loop passes
  induction d with
  | zero =>
    intro fuel s hfuel _ hstop
    obtain ⟨fuel, rfl⟩ : ∃ f, fuel = f + 1 := ⟨fuel - 1, by omega⟩
    rw [probe, if_pos (by simpa using hstop), Nat.add_zero]
  | succ d ih =>
    intro fuel s hfuel hbefore hstop
    obtain ⟨fuel, rfl⟩ : ∃ f, fuel = f + 1 := ⟨fuel - 1, by omega⟩
    have h0 := hbefore 0 (by omega)
    rw [Nat.add_zero] at h0
    have hstep : ∀ c, s + 1 + c = s + (c + 1) := fun c => by omega
    rw [probe, if_neg (by simpa using h0), h.nextSlot_eq, Nat.mod_add_mod,
      ih (by omega) (fun c hc => by rw [hstep]; exact hbefore (c + 1) (by omega))
        (by rw [hstep]; exact hstop), hstep]

/-- Where the probe theory says the probe stops is where the loop stops. -/
theorem Sized.locate_eq {m : OrderIdMap α} (h : m.Sized) {id : OrderId} {d : ℕ}
    (hs : Probing.Stops m.capacity m.homeSlot m.entry id d) :
    m.locate id = some ((m.homeSlot id + d) % m.capacity) := by
  have hhome : m.homeSlot id = m.homeSlot id % m.capacity :=
    (Nat.mod_eq_of_lt (h.homeSlot_lt id)).symm
  rw [locate]
  conv_lhs => rw [hhome]
  refine h.probe_eq hs.lt (fun c hc => ?_) ?_
  · obtain ⟨k, v, hkv, hne⟩ := hs.before c hc
    obtain ⟨hk0, hslot⟩ := entry_eq_some_iff.mp hkv
    rw [hslot]
    exact ⟨hne, hk0⟩
  · by_cases hnone : m.entry ((m.homeSlot id + d) % m.capacity) = none
    · exact Or.inr (entry_eq_none_iff.mp hnone)
    · obtain ⟨⟨k, v⟩, hkv⟩ := Option.ne_none_iff_exists'.mp hnone
      obtain rfl := hs.stop k v hkv
      rw [(entry_eq_some_iff.mp hkv).2]
      exact Or.inl rfl

section Operations

variable {m : OrderIdMap α} {f : OrderId → Option (Option α)}

theorem Represents.locate_bound (h : m.Represents f) {id : OrderId} {v : Option α}
    (hf : f id = some v) : ∃ i < m.capacity, m.locate id = some i ∧ m.slots i = ⟨id, v⟩ := by
  obtain ⟨j, -, hj, hjv⟩ := (h.holds id v).mpr hf
  obtain ⟨d, hs, hdj⟩ := Probing.stops_of_entry h.probed hj hjv
  exact ⟨j, hj, by rw [h.sized.locate_eq hs, hdj], (entry_eq_some_iff.mp hjv).2⟩

theorem Represents.locate_unbound (h : m.Represents f) {id : OrderId} (hf : f id = none) :
    ∃ d, Probing.Stops m.capacity m.homeSlot m.entry id d ∧
      m.locate id = some ((m.homeSlot id + d) % m.capacity) ∧
      m.entry ((m.homeSlot id + d) % m.capacity) = none := by
  obtain ⟨e, he, hte⟩ := h.vacant
  obtain ⟨d, hs, hnone⟩ := Probing.stops_of_absent (h.absent hf) he hte
  exact ⟨d, hs, h.sized.locate_eq hs, hnone⟩

/-! ### `find` -/

theorem find_of_locate {id : OrderId} {i : ℕ} {v : Option α} (hloc : m.locate id = some i)
    (hslot : m.slots i = ⟨id, v⟩) : m.find id = some v := by
  simp [find, hloc, hslot]

theorem Represents.find_eq (h : m.Represents f) {id : OrderId} (hid : id ≠ kInvalidOrderId) :
    m.find id = some (f id).join := by
  rcases hf : f id with _ | v
  · obtain ⟨d, -, hloc, hnone⟩ := h.locate_unbound hf
    have hslot := entry_eq_none_iff.mp hnone
    simp [find, hloc, hslot, Ne.symm hid]
  · obtain ⟨i, -, hloc, hslot⟩ := h.locate_bound hf
    exact find_of_locate hloc hslot

/-- The first empty slot that the probe for `kInvalidOrderId` meets holds a null pointer: it has
not been in use since the table was built. -/
def InvalidClean (m : OrderIdMap α) : Prop :=
  ∃ d < m.capacity, (m.slots ((m.homeSlot kInvalidOrderId + d) % m.capacity)).id = kInvalidOrderId ∧
    (m.slots ((m.homeSlot kInvalidOrderId + d) % m.capacity)).value = none ∧
    ∀ c < d, (m.slots ((m.homeSlot kInvalidOrderId + c) % m.capacity)).id ≠ kInvalidOrderId

theorem new_invalidClean (n : ℕ) : (new n : OrderIdMap α).InvalidClean :=
  ⟨0, Nat.succ_pos _, rfl, rfl, nofun⟩

/-- The id `kInvalidOrderId` matches the first empty slot, whose pointer may be stale. -/
theorem Represents.find_invalid_iff (h : m.Represents f) :
    m.find kInvalidOrderId = some none ↔ m.InvalidClean := by
  obtain ⟨d, hs, hloc, hnone⟩ := h.locate_unbound h.lookup_invalid
  have hslot := entry_eq_none_iff.mp hnone
  have hbefore : ∀ c < d, (m.slots ((m.homeSlot kInvalidOrderId + c) % m.capacity)).id ≠
      kInvalidOrderId := fun c hc => by
    obtain ⟨k, v, hkv, hne⟩ := hs.before c hc
    rw [(entry_eq_some_iff.mp hkv).2]
    exact hne
  have hfind : m.find kInvalidOrderId =
      some (m.slots ((m.homeSlot kInvalidOrderId + d) % m.capacity)).value := by
    simp [find, hloc, hslot]
  rw [hfind, Option.some.injEq]
  constructor
  · exact fun hv => ⟨d, hs.lt, hslot, hv, hbefore⟩
  · rintro ⟨d', -, hslot', hv, hbefore'⟩
    -- both are the first empty slot on the way
    rcases Nat.lt_trichotomy d d' with hlt | rfl | hgt
    · exact absurd hslot (hbefore' d hlt)
    · exact hv
    · exact absurd hslot' (hbefore d' hgt)

/-! ### `insert` -/

theorem Represents.insert_bound (h : m.Represents f) {id : OrderId} {v : Option α}
    (hf : f id = some v) (w : Option α) : m.insert id w = some (false, m) := by
  obtain ⟨i, -, hloc, hslot⟩ := h.locate_bound hf
  have hne : id ≠ kInvalidOrderId := h.ne_invalid hf
  simp [insert, hloc, hslot, hne]

theorem occupied_update {i : ℕ} (hi : i < m.capacity) (hnone : m.entry i = none) {id : OrderId}
    (hid : id ≠ kInvalidOrderId) (v : Option α) (n : UInt64) :
    occupied { m with slots := Function.update m.slots i ⟨id, v⟩, size := n } =
      Insert.insert i m.occupied := by
  ext j
  simp only [occupied, entry_update, Finset.mem_filter, Finset.mem_range, Finset.mem_insert,
    capacity]
  by_cases hji : j = i
  · subst hji
    simp only [Function.update_self, entryOf, hid, if_false, ne_eq, reduceCtorEq,
      not_false_eq_true, and_true, true_or, iff_true]
    exact hi
  · simp [hji]

/-- Inserting an absent id binds it, as long as a slot stays empty. -/
theorem Represents.insert_unbound (h : m.Represents f) {id : OrderId} (hf : f id = none)
    (hid : id ≠ kInvalidOrderId) (v : Option α) :
    ∃ m', m.insert id v = some (true, m') ∧ m'.capacity = m.capacity ∧
      (m.occupied.card + 1 < m.capacity → m'.Represents (Function.update f id (some v))) := by
  obtain ⟨d, hs, hloc, hnone⟩ := h.locate_unbound hf
  set i := (m.homeSlot id + d) % m.capacity with hidef
  have hi : i < m.capacity := Nat.mod_lt _ m.capacity_pos
  have hslot := entry_eq_none_iff.mp hnone
  have hent : entryOf (⟨id, v⟩ : Slot α) = some (id, v) := by simp [entryOf, hid]
  refine ⟨{ m with slots := Function.update m.slots i ⟨id, v⟩, size := m.size + 1 },
    by simp [insert, hloc, hslot], rfl, fun hroom => ?_⟩
  have hcard : occupied { m with slots := Function.update m.slots i ⟨id, v⟩, size := m.size + 1 } =
      Insert.insert i m.occupied := occupied_update hi hnone hid v _
  have hnot : i ∉ m.occupied := by simp [occupied, hnone]
  refine ⟨h.sized, ?_, ?_, ?_, ?_⟩
  · rw [entry_update, hent]
    exact h.probed.insert hs (h.absent hf) v
  · intro id' v'
    rw [entry_update, hent]
    refine (Probing.holds_insert hi hnone v).trans ?_
    rw [h.holds]
    by_cases hid' : id' = id
    · subst hid'
      simp [hf, eq_comm]
    · simp [hid']
  · -- with no empty slot left, all slots would be in use
    by_contra hfull
    push Not at hfull
    have hsub : Finset.range m.capacity ⊆ Insert.insert i m.occupied := by
      intro j hj
      rw [← hcard, occupied, Finset.mem_filter]
      exact ⟨hj, hfull j (Finset.mem_range.mp hj)⟩
    have hle := Finset.card_le_card hsub
    rw [Finset.card_range, Finset.card_insert_of_notMem hnot] at hle
    omega
  · rw [hcard, Finset.card_insert_of_notMem hnot]
    simp [h.size_eq]

/-! ### `erase` -/

/-- The slot holds an entry that is not in its own hash slot. -/
def Displaced (m : OrderIdMap α) (x : ℕ) : Prop :=
  (m.slots x).id ≠ kInvalidOrderId ∧ m.homeSlot (m.slots x).id ≠ x

/-- How far the entry in slot `x` is from its hash slot. -/
def distance (m : OrderIdMap α) (x : ℕ) : ℕ :=
  (x + m.capacity - m.homeSlot (m.slots x).id) % m.capacity

/-- Erasing slot `i` moves exactly the `n` entries after it: the loop stops at the first slot
that is empty or holds an entry in its own hash slot. -/
def Shifts (m : OrderIdMap α) (i n : ℕ) : Prop :=
  (∀ c < n, m.Displaced ((i + (c + 1)) % m.capacity)) ∧ ¬m.Displaced ((i + (n + 1)) % m.capacity)

/-- Erasing slot `i` strands an entry: `b` slots on, past the `n` entries that move, there is one
whose probe path, from its hash slot on, runs through the slot that is vacated. -/
def Strands (m : OrderIdMap α) (i : ℕ) : Prop :=
  ∃ b < m.capacity, ∃ n < b, m.Shifts i n ∧
    (m.slots ((i + b) % m.capacity)).id ≠ kInvalidOrderId ∧
    b - n ≤ m.distance ((i + b) % m.capacity)

instance (m : OrderIdMap α) (x : ℕ) : Decidable (m.Displaced x) := by
  unfold Displaced; infer_instance

instance (m : OrderIdMap α) (i n : ℕ) : Decidable (m.Shifts i n) := by
  unfold Shifts; infer_instance

instance (m : OrderIdMap α) (i : ℕ) : Decidable (m.Strands i) := by
  unfold Strands; infer_instance

/-- The table after `n` moves. -/
def moved (m : OrderIdMap α) (i : ℕ) : ℕ → OrderIdMap α
  | 0 => m
  | n + 1 =>
    { m.moved i n with
      slots := Function.update (m.moved i n).slots ((i + n) % m.capacity)
        ((m.moved i n).slots ((i + n + 1) % m.capacity)) }

@[simp] theorem moved_mask (i n : ℕ) : (m.moved i n).mask = m.mask := by
  induction n with
  | zero => rfl
  | succ n ih => rw [← ih]; rfl

@[simp] theorem moved_size (i n : ℕ) : (m.moved i n).size = m.size := by
  induction n with
  | zero => rfl
  | succ n ih => rw [← ih]; rfl

@[simp] theorem moved_capacity (i n : ℕ) : (m.moved i n).capacity = m.capacity := by
  simp [capacity]

theorem moved_homeSlot (i n : ℕ) : (m.moved i n).homeSlot = m.homeSlot := by
  funext id
  simp [homeSlot]

theorem entry_moved (i n : ℕ) :
    (m.moved i n).entry = Probing.shifted m.capacity m.entry i n := by
  induction n with
  | zero => rfl
  | succ n ih =>
    rw [moved, entry_update, ih, Probing.shifted, ← ih]
    rfl

theorem moved_slots_of_ge {i n b : ℕ} (hb : n ≤ b) (hbc : b < m.capacity) :
    (m.moved i n).slots ((i + b) % m.capacity) = m.slots ((i + b) % m.capacity) := by
  induction n with
  | zero => rfl
  | succ n ih =>
    rw [moved]
    dsimp only
    rw [Function.update_of_ne, ih (by omega)]
    intro heq
    have := Probing.offset_inj heq hbc (by omega)
    omega

theorem Displaced.movable {x : ℕ} (h : m.Displaced x) (hs : m.Sized) :
    Probing.Movable m.capacity m.homeSlot m.entry x :=
  ⟨_, _, entry_eq_some_iff.mpr ⟨h.1, rfl⟩, by rw [Nat.mod_eq_of_lt (hs.homeSlot_lt _)]; exact h.2⟩

theorem Sized.distance_spec (hs : m.Sized) {i : ℕ} (hi : i < m.capacity) :
    m.distance i < m.capacity ∧
      (m.homeSlot (m.slots i).id + m.distance i) % m.capacity = i := by
  have hlt := hs.homeSlot_lt (m.slots i).id
  refine ⟨Nat.mod_lt _ m.capacity_pos, ?_⟩
  rw [distance, Nat.add_mod_mod,
    show m.homeSlot (m.slots i).id + (i + m.capacity - m.homeSlot (m.slots i).id) =
      i + m.capacity by omega, Nat.add_mod_right, Nat.mod_eq_of_lt hi]

theorem distance_unique (hs : m.Sized) {x d : ℕ} (hd : d < m.capacity)
    (h : (m.homeSlot (m.slots x).id + d) % m.capacity = x) : m.distance x = d := by
  have hx : x < m.capacity := h ▸ Nat.mod_lt _ m.capacity_pos
  -- the distance leads from the hash slot to `x`, as `d` does
  obtain ⟨hlt, hmod⟩ := hs.distance_spec hx
  exact Probing.offset_inj (hmod.trans h.symm) hlt hd

theorem erase_of_locate {id : OrderId} {i : ℕ} (hloc : m.locate id = some i)
    (hslot : (m.slots i).id = id) :
    m.erase id = m.backshift ((m.mask + 1) * (m.mask + 1)) i := by
  unfold erase
  rw [hloc]
  exact if_pos hslot

/-- The backshift loop stops at once if the next entry is in its own hash slot. -/
theorem Sized.backshift_stop (hs : m.Sized) {e fuel : ℕ} (h : ¬m.Displaced (m.nextSlot e))
    (hfuel : 0 < fuel) : m.backshift fuel e = some (true, m.vacate e) := by
  obtain ⟨fuel, rfl⟩ : ∃ f, fuel = f + 1 := ⟨fuel - 1, by omega⟩
  have hlt : m.nextSlot e < m.capacity := by
    rw [hs.nextSlot_eq]
    exact Nat.mod_lt _ m.capacity_pos
  rw [backshift]
  dsimp only
  by_cases hid : (m.slots (m.nextSlot e)).id = kInvalidOrderId
  · rw [if_pos hid]
  · have hhome : m.homeSlot (m.slots (m.nextSlot e)).id = m.nextSlot e := by
      by_contra hne
      exact h ⟨hid, hne⟩
    rw [if_neg hid, if_pos ((hs.dist_eq_zero_iff hlt (hs.homeSlot_lt _)).mpr hhome)]

/-- The backshift loop makes the moves of `Shifts` and vacates the slot it ends at. -/
theorem Sized.backshift_eq (hs : m.Sized) {i n : ℕ} (hsh : m.Shifts i n) (hn : n + 1 < m.capacity) :
    ∀ {fuel j : ℕ}, j ≤ n → n - j < fuel →
      (m.moved i j).backshift fuel ((i + j) % m.capacity) =
        some (true, (m.moved i n).vacate ((i + n) % m.capacity)) := by
  intro fuel
  induction fuel with
  | zero => intro j _ h; omega
  | succ fuel ih =>
    intro j hj hfuel
    have hs' : (m.moved i j).Sized := by rw [Sized, moved_mask]; exact hs
    have hnext : (m.moved i j).nextSlot ((i + j) % m.capacity) = (i + (j + 1)) % m.capacity := by
      rw [hs'.nextSlot_eq, moved_capacity, Nat.mod_add_mod, Nat.add_assoc]
    have hslot : (m.moved i j).slots ((i + (j + 1)) % m.capacity) =
        m.slots ((i + (j + 1)) % m.capacity) := moved_slots_of_ge (by omega) (by omega)
    have hlt : (i + (j + 1)) % m.capacity < m.capacity := Nat.mod_lt _ m.capacity_pos
    have hdist : ∀ ideal < m.capacity,
        (((i + (j + 1)) % m.capacity + 2 ^ 64 - ideal) % 2 ^ 64 &&& (m.moved i j).mask = 0 ↔
          ideal = (i + (j + 1)) % m.capacity) := fun ideal hideal =>
      hs'.dist_eq_zero_iff (by simpa using hlt) (by simpa using hideal)
    rw [backshift]
    simp only [hnext, hslot, moved_homeSlot, hdist _ (hs.homeSlot_lt _)]
    -- at `n` the loop stops, and before `n` it moves the next entry and goes on
    rcases Nat.lt_or_eq_of_le hj with hlt' | rfl
    · have hd := hsh.1 j hlt'
      rw [if_neg hd.1, if_neg hd.2, ← ih (j := j + 1) (by omega) (by omega), ← hslot]
      rfl
    · by_cases hd : (m.slots ((i + (j + 1)) % m.capacity)).id = kInvalidOrderId
      · rw [if_pos hd]
      · rw [if_neg hd, if_pos (by_contra fun hne => hsh.2 ⟨hd, hne⟩)]

theorem Represents.exists_shifts (h : m.Represents f) {i : ℕ} {id : OrderId} {v : Option α}
    (hi : i < m.capacity) (hid : id ≠ kInvalidOrderId) (hslot : m.slots i = ⟨id, v⟩) :
    ∃ n, n + 1 < m.capacity ∧ m.Shifts i n := by
  obtain ⟨e, he, hte⟩ := h.vacant
  obtain ⟨b, hb, hbe⟩ := Probing.exists_offset i he
  -- the empty slot is not the one that is erased
  have hb0 : b ≠ 0 := by
    rintro rfl
    rw [Nat.add_zero, Nat.mod_eq_of_lt hi] at hbe
    rw [← hbe, entry_eq_none_iff, hslot] at hte
    exact hid hte
  have hex : ∃ n, ¬m.Displaced ((i + (n + 1)) % m.capacity) :=
    ⟨b - 1, by
      rw [Nat.sub_add_cancel (by omega), hbe]
      exact fun hd => hd.1 (entry_eq_none_iff.mp hte)⟩
  refine ⟨Nat.find hex, ?_, fun c hc => not_not.mp (Nat.find_min hex hc), Nat.find_spec hex⟩
  have : Nat.find hex ≤ b - 1 := Nat.find_min' hex (by
    rw [Nat.sub_add_cancel (by omega), hbe]
    exact fun hd => hd.1 (entry_eq_none_iff.mp hte))
  omega

theorem entry_vacate (h : ℕ) : (m.vacate h).entry = Function.update m.entry h none :=
  (entry_update ..).trans (by simp [entryOf])

theorem Represents.erase_unbound (h : m.Represents f) {id : OrderId} (hid : id ≠ kInvalidOrderId)
    (hf : f id = none) : m.erase id = some (false, m) := by
  obtain ⟨d, -, hloc, hnone⟩ := h.locate_unbound hf
  have hslot := entry_eq_none_iff.mp hnone
  simp [erase, hloc, hslot, Ne.symm hid]

/-! ### The table keeps its size -/

theorem insert_mask {m' : OrderIdMap α} {id : OrderId} {v : Option α} {done : Bool}
    (h : m.insert id v = some (done, m')) : m'.mask = m.mask := by
  obtain ⟨i, -, h⟩ := Option.bind_eq_some_iff.mp h
  split_ifs at h <;> cases h <;> rfl

theorem backshift_mask {m' : OrderIdMap α} {fuel hole : ℕ} {done : Bool}
    (h : m.backshift fuel hole = some (done, m')) : m'.mask = m.mask := by
  induction fuel generalizing m hole with
  | zero => cases h
  | succ fuel ih =>
    unfold backshift at h
    dsimp only at h
    split_ifs at h
    · cases h
      rfl
    · cases h
      rfl
    · have hmask := ih h
      exact hmask

theorem erase_mask {m' : OrderIdMap α} {id : OrderId} {done : Bool}
    (h : m.erase id = some (done, m')) : m'.mask = m.mask := by
  obtain ⟨i, -, h⟩ := Option.bind_eq_some_iff.mp h
  split_ifs at h
  · exact backshift_mask h
  · cases h
    rfl

/-! ### Erasing a bound id -/

/-- The outcome of erasing a bound id, and what linear probing says about it. -/
theorem Represents.erase_bound (h : m.Represents f) {id : OrderId} {v : Option α}
    (hf : f id = some v) :
    ∃ i n, i < m.capacity ∧ n + 1 < m.capacity ∧ m.slots i = ⟨id, v⟩ ∧ m.Shifts i n ∧
      m.erase id = some (true, (m.moved i n).vacate ((i + n) % m.capacity)) := by
  have hid : id ≠ kInvalidOrderId := h.ne_invalid hf
  obtain ⟨i, hi, hloc, hslot⟩ := h.locate_bound hf
  obtain ⟨n, hn, hsh⟩ := h.exists_shifts hi hid hslot
  refine ⟨i, n, hi, hn, hslot, hsh, ?_⟩
  -- the loop does not go round the table
  have hfuel : n - 0 < (m.mask + 1) * (m.mask + 1) := by
    have : m.capacity ≤ m.capacity * m.capacity := Nat.le_mul_self _
    simp only [capacity] at this hn
    omega
  have := h.sized.backshift_eq hsh hn (Nat.zero_le n) hfuel
  simp only [moved, Nat.add_zero, Nat.mod_eq_of_lt hi] at this
  simp only [erase, hloc, hslot, Option.bind_eq_bind, Option.bind_some, if_true]
  exact this

theorem Shifts.unique {i n n' : ℕ} (h : m.Shifts i n) (h' : m.Shifts i n') : n = n' := by
  rcases Nat.lt_trichotomy n n' with hlt | heq | hgt
  · exact absurd (h'.1 n hlt) h.2
  · exact heq
  · exact absurd (h.1 n' hgt) h'.2

theorem Shifts.movable {i n : ℕ} (h : m.Shifts i n) (hs : m.Sized) (c : ℕ) (hc : 0 < c)
    (hcn : c ≤ n) : Probing.Movable m.capacity m.homeSlot m.entry ((i + c) % m.capacity) := by
  have := h.1 (c - 1) (by omega)
  rw [Nat.sub_add_cancel hc] at this
  exact this.movable hs

/-- `Strands` is the condition of the probing theory, read off the table before the moves. -/
theorem Represents.crosses_iff (h : m.Represents f) {i n : ℕ} (hi : i < m.capacity)
    (hocc : m.entry i ≠ none) (hn : n + 1 < m.capacity) (hsh : m.Shifts i n) :
    Probing.Crosses m.capacity m.homeSlot (Probing.shifted m.capacity m.entry i n)
      ((i + n) % m.capacity) ↔ m.Strands i := by
  obtain ⟨e, he, hte⟩ := h.vacant
  rw [Probing.crosses_shifted_iff h.probed (by omega) (by rwa [Nat.mod_eq_of_lt hi])
    (hsh.movable h.sized) he hte]
  constructor
  · rintro ⟨b, hnb, hb, k, v, d, hd, ht, hdb, hle⟩
    obtain ⟨hk, hslot⟩ := entry_eq_some_iff.mp ht
    refine ⟨b, hb, n, hnb, hsh, by rw [hslot]; exact hk, ?_⟩
    rwa [distance_unique h.sized hd (by rw [hslot]; exact hdb)]
  · rintro ⟨b, hb, n', hnb, hsh', hocc', hle⟩
    obtain rfl := hsh'.unique hsh
    obtain ⟨d, hd, hdb, -⟩ := h.probed.reach _ trivial (Nat.mod_lt _ m.capacity_pos) _ _
      (entry_eq_some_iff.mpr ⟨hocc', rfl⟩)
    refine ⟨b, hnb, hb, _, _, d, hd, entry_eq_some_iff.mpr ⟨hocc', rfl⟩, hdb, ?_⟩
    rwa [distance_unique h.sized hd hdb] at hle

theorem occupied_erased {i n : ℕ} (hs : m.Sized) (hi : i < m.capacity) (hocc : m.entry i ≠ none)
    (hn : n + 1 < m.capacity) (hsh : m.Shifts i n) :
    ((m.moved i n).vacate ((i + n) % m.capacity)).occupied =
      m.occupied.erase ((i + n) % m.capacity) := by
  ext j
  simp only [occupied, entry_vacate, entry_moved, Finset.mem_filter, Finset.mem_range,
    Finset.mem_erase]
  by_cases hj : j = (i + n) % m.capacity
  · subst hj
    simp
  · rw [Function.update_of_ne hj]
    have hcap : ((m.moved i n).vacate ((i + n) % m.capacity)).capacity = m.capacity :=
      moved_capacity i n
    rw [hcap]
    constructor
    · rintro ⟨hlt, hne⟩
      exact ⟨hj, hlt, (Probing.shifted_ne_none_iff (by omega) (by rwa [Nat.mod_eq_of_lt hi])
        (hsh.movable hs) j hlt).mp hne⟩
    · rintro ⟨-, hlt, hne⟩
      exact ⟨hlt, (Probing.shifted_ne_none_iff (by omega) (by rwa [Nat.mod_eq_of_lt hi])
        (hsh.movable hs) j hlt).mpr hne⟩

/-- An erasure that strands no entry unbinds its id and nothing else. -/
theorem Represents.erased (h : m.Represents f) {i n : ℕ} {id : OrderId} {v : Option α}
    (hi : i < m.capacity) (hid : id ≠ kInvalidOrderId) (hslot : m.slots i = ⟨id, v⟩)
    (hn : n + 1 < m.capacity) (hsh : m.Shifts i n) (hstr : ¬m.Strands i) :
    ((m.moved i n).vacate ((i + n) % m.capacity)).Represents (Function.update f id none) := by
  have hent : m.entry i = some (id, v) := entry_eq_some_iff.mpr ⟨hid, hslot⟩
  have hocc : m.entry i ≠ none := by simp [hent]
  set hole := (i + n) % m.capacity with hholedef
  have hhole : hole < m.capacity := Nat.mod_lt _ m.capacity_pos
  have hcap : ((m.moved i n).vacate hole).capacity = m.capacity := moved_capacity i n
  have hhome : ((m.moved i n).vacate hole).homeSlot = m.homeSlot := moved_homeSlot i n
  have hentry : ((m.moved i n).vacate hole).entry =
      Function.update (Probing.shifted m.capacity m.entry i n) hole none := by
    rw [entry_vacate, entry_moved]
  have hmod : i % m.capacity = i := Nat.mod_eq_of_lt hi
  have h0 : m.entry (i % m.capacity) ≠ none := by rwa [hmod]
  refine ⟨?_, ?_, ?_, ⟨hole, by rwa [hcap], by rw [hentry, Function.update_self]⟩, ?_⟩
  · have := h.sized
    rw [Sized] at this ⊢
    simpa [vacate] using this
  · -- the one step that may fail is vacating the last slot
    rw [hcap, hhome, hentry]
    exact (Probing.probedOn_shifted h.probed (by omega) h0
      (hsh.movable h.sized)).vacate (by rwa [h.crosses_iff hi hocc hn hsh])
  · intro id' v'
    rw [hcap, hentry, Probing.holds_vacate, Probing.holds_shifted (by omega), hmod,
      Probing.holds_delete h.probed hi hent, h.holds]
    by_cases hid' : id' = id
    · subst hid'
      simp
    · simp [hid']
  · have hmem : hole ∈ m.occupied := by
      rw [occupied, Finset.mem_filter, Finset.mem_range]
      exact ⟨hhole, Probing.ne_none_of_movable h0 (hsh.movable h.sized) le_rfl⟩
    rw [occupied_erased h.sized hi hocc hn hsh, Finset.card_erase_of_mem hmem]
    have hpos := Finset.card_pos.mpr ⟨hole, hmem⟩
    have hsize : ((m.moved i n).vacate hole).size = m.size - 1 := by
      simp [vacate]
    rw [hsize, h.size_eq]
    obtain ⟨c, hc⟩ : ∃ c, m.occupied.card = c + 1 := ⟨_, (Nat.sub_add_cancel hpos).symm⟩
    rw [hc, UInt64.ofNat_add, Nat.add_sub_cancel]
    exact UInt64.add_sub_cancel _ _

theorem Represents.erase_represents (h : m.Represents f) {id : OrderId} {v : Option α}
    (hf : f id = some v) :
    ∃ m', m.erase id = some (true, m') ∧ m'.capacity = m.capacity ∧
      ((∀ i < m.capacity, (m.slots i).id = id → ¬m.Strands i) →
        m'.Represents (Function.update f id none)) := by
  have hid : id ≠ kInvalidOrderId := h.ne_invalid hf
  obtain ⟨i, n, hi, hn, hslot, hsh, herase⟩ := h.erase_bound hf
  exact ⟨_, herase, moved_capacity i n, fun hstr =>
    h.erased hi hid hslot hn hsh (hstr i hi (by rw [hslot]))⟩

/-- An erasure that strands an entry loses a bound id: afterwards the table takes it for
absent. -/
theorem Represents.erase_strands (h : m.Represents f) {id : OrderId} {v : Option α}
    (hf : f id = some v) {i : ℕ} (hi : i < m.capacity) (hslot : (m.slots i).id = id)
    (hstr : m.Strands i) :
    ∃ m' id' w, m.erase id = some (true, m') ∧ id' ≠ id ∧ f id' = some w ∧
      m'.erase id' = some (false, m') := by
  obtain ⟨i', n, hi', hn, hslot', hsh, herase⟩ := h.erase_bound hf
  have hid : id ≠ kInvalidOrderId := h.ne_invalid hf
  have hent : m.entry i' = some (id, v) := entry_eq_some_iff.mpr ⟨hid, hslot'⟩
  obtain rfl : i = i' := h.probed.unique i trivial i' trivial hi hi' id _ v
    (entry_eq_some_iff.mpr ⟨hid, by rw [← hslot]⟩) hent
  have hocc : m.entry i ≠ none := by simp [hent]
  have hmod : i % m.capacity = i := Nat.mod_eq_of_lt hi
  set hole := (i + n) % m.capacity with hholedef
  have hcap : ((m.moved i n).vacate hole).capacity = m.capacity := moved_capacity i n
  have hhome : ((m.moved i n).vacate hole).homeSlot = m.homeSlot := moved_homeSlot i n
  have hsized : ((m.moved i n).vacate hole).Sized := by
    have := h.sized
    rw [Sized] at this ⊢
    simpa [vacate] using this
  -- the probe for the stranded entry's id now stops at the hole
  have hcross := (h.crosses_iff hi hocc hn hsh).mpr hstr
  obtain ⟨k, w, d, hholds, hstops, hd⟩ := hcross.stops
    (Probing.probedOn_shifted h.probed (by omega) (by rwa [hmod]) (hsh.movable h.sized))
  rw [Probing.holds_shifted (by omega), hmod, Probing.holds_delete h.probed hi hent,
    h.holds] at hholds
  -- the id is bound before the erasure, so that it is not `kInvalidOrderId`
  have hk : k ≠ kInvalidOrderId := h.ne_invalid hholds.1
  refine ⟨_, k, w, herase, hholds.2, hholds.1, ?_⟩
  have hstops' : Probing.Stops ((m.moved i n).vacate hole).capacity
      ((m.moved i n).vacate hole).homeSlot ((m.moved i n).vacate hole).entry k d := by
    rw [hcap, hhome, entry_vacate, entry_moved]
    exact hstops
  have hloc := hsized.locate_eq hstops'
  rw [hcap, hhome, hd, ← hholedef] at hloc
  have hempty : (((m.moved i n).vacate hole).slots hole).id = kInvalidOrderId := by
    simp [vacate]
  simp [erase, hloc, hempty, Ne.symm hk]

/-! ### Erasing what was inserted last -/

/-- No slot on the way from the hash slot of an entry to its position is empty. -/
def Unbroken (m : OrderIdMap α) : Prop :=
  ∀ i < m.capacity, (m.slots i).id ≠ kInvalidOrderId → ∀ c < m.distance i,
    (m.slots ((m.homeSlot (m.slots i).id + c) % m.capacity)).id ≠ kInvalidOrderId

theorem Represents.unbroken {f : OrderId → Option (Option α)} (h : m.Represents f) :
    m.Unbroken := by
  intro i hi hocc c hc
  have hentry : m.entry i = some ((m.slots i).id, (m.slots i).value) :=
    entry_eq_some_iff.mpr ⟨hocc, rfl⟩
  obtain ⟨d, hd, hdi, hpath⟩ := h.probed.reach i trivial hi _ _ hentry
  rw [distance_unique h.sized hd hdi] at hc
  exact fun he => hpath c hc (entry_eq_none_iff.mpr he)

/-- An entry behind an empty slot is in its own hash slot. -/
theorem Unbroken.home_of_vacant (h : m.Unbroken) (hs : m.Sized) {e : ℕ}
    (he : (m.slots (e % m.capacity)).id = kInvalidOrderId)
    (hocc : (m.slots ((e + 1) % m.capacity)).id ≠ kInvalidOrderId) :
    m.homeSlot (m.slots ((e + 1) % m.capacity)).id = (e + 1) % m.capacity := by
  set i := (e + 1) % m.capacity with hi
  have hlt : i < m.capacity := Nat.mod_lt _ m.capacity_pos
  obtain ⟨-, hdist⟩ := hs.distance_spec hlt
  rcases Nat.eq_zero_or_pos (m.distance i) with hz | hpos
  · rw [hz, Nat.add_zero, Nat.mod_eq_of_lt (hs.homeSlot_lt _)] at hdist
    exact hdist
  · -- the path to the entry would go through the empty slot
    obtain ⟨d, hd⟩ : ∃ d, m.distance i = d + 1 := ⟨_, (Nat.sub_add_cancel hpos).symm⟩
    rw [hd, ← Nat.add_assoc] at hdist
    have hbefore := Probing.mod_eq_of_succ (hdist.trans hi)
    have hfull := h i hlt hocc d (by omega)
    rw [hbefore] at hfull
    exact absurd he hfull

/-- The table with one more entry, in slot `e`. -/
def put (m : OrderIdMap α) (e : ℕ) (id : OrderId) (v : Option α) : OrderIdMap α :=
  { m with slots := Function.update m.slots e ⟨id, v⟩, size := m.size + 1 }

theorem put_slots_self (e : ℕ) (id : OrderId) (v : Option α) :
    (m.put e id v).slots e = ⟨id, v⟩ :=
  Function.update_self ..

theorem put_slots_of_ne {e i : ℕ} (hne : i ≠ e) (id : OrderId) (v : Option α) :
    (m.put e id v).slots i = m.slots i :=
  Function.update_of_ne hne ..

/-- The probe for the new id comes to the slot that the id has been put into. -/
theorem Sized.locate_put (hs : m.Sized) {id : OrderId} (hid : id ≠ kInvalidOrderId) {d : ℕ}
    (hstops : Probing.Stops m.capacity m.homeSlot m.entry id d) (v : Option α) :
    (m.put ((m.homeSlot id + d) % m.capacity) id v).locate id =
      some ((m.homeSlot id + d) % m.capacity) := by
  have hent : entryOf (⟨id, v⟩ : Slot α) = some (id, v) := by simp [entryOf, hid]
  have hput : (m.put ((m.homeSlot id + d) % m.capacity) id v).entry =
      Function.update m.entry ((m.homeSlot id + d) % m.capacity) (some (id, v)) := by
    rw [put, entry_update, hent]
  refine Sized.locate_eq (m := m.put ((m.homeSlot id + d) % m.capacity) id v) hs ?_
  rw [hput]
  exact hstops.update v

/-- The entry behind a slot that was empty stays where it is. -/
theorem Unbroken.not_displaced (h : m.Unbroken) (hs : m.Sized) {e : ℕ} (he : e < m.capacity)
    (hvacant : (m.slots e).id = kInvalidOrderId) (id : OrderId) (v : Option α) :
    ¬(m.put e id v).Displaced (m.nextSlot e) := by
  rw [hs.nextSlot_eq]
  rintro ⟨hocc, hhome⟩
  rcases eq_or_ne ((e + 1) % m.capacity) e with heq | hne
  · -- the table has a single slot
    have hcap : m.capacity = 1 := by
      by_contra hcap
      rcases Nat.lt_or_ge (e + 1) m.capacity with hlt | hge
      · rw [Nat.mod_eq_of_lt hlt] at heq
        omega
      · rw [show e + 1 = m.capacity by omega, Nat.mod_self] at heq
        omega
    have hlt := hs.homeSlot_lt ((m.put e id v).slots ((e + 1) % m.capacity)).id
    change m.homeSlot _ ≠ _ at hhome
    omega
  · rw [put_slots_of_ne hne] at hocc hhome
    rw [← Nat.mod_eq_of_lt he] at hvacant
    exact hhome (h.home_of_vacant hs hvacant hocc)

theorem vacate_put_id {e : ℕ} (hvacant : (m.slots e).id = kInvalidOrderId) (id : OrderId)
    (v : Option α) (i : ℕ) : (((m.put e id v).vacate e).slots i).id = (m.slots i).id := by
  rw [vacate]
  rcases eq_or_ne i e with heq | hne
  · rw [heq, hvacant]
    simp only [Function.update_self]
  · simp only [Function.update_of_ne hne, put_slots_of_ne hne]

theorem vacate_put_slots {e i : ℕ} (hne : i ≠ e) (id : OrderId) (v : Option α) :
    ((m.put e id v).vacate e).slots i = m.slots i := by
  rw [vacate]
  simp only [Function.update_of_ne hne, put_slots_of_ne hne]

/-- **An insertion and the erasure of the same id** leave the ids of all slots and the pointers of
the slots in use as they were. -/
theorem Sized.erase_insert (hs : m.Sized) (hunbroken : m.Unbroken)
    (hempty : ∃ e < m.capacity, (m.slots e).id = kInvalidOrderId) {id : OrderId}
    (hid : id ≠ kInvalidOrderId) (hnew : ∀ i < m.capacity, (m.slots i).id ≠ id) (v : Option α) :
    m.find id = some none ∧ ∃ m₁ m₂, m.insert id v = some (true, m₁) ∧ m₁.find id = some v ∧
      m₁.erase id = some (true, m₂) ∧ m₂.mask = m.mask ∧ m₂.size = m.size ∧
      (∀ i, (m₂.slots i).id = (m.slots i).id) ∧
      ∀ i, (m.slots i).id ≠ kInvalidOrderId → m₂.slots i = m.slots i := by
  obtain ⟨e₀, he₀, hempty⟩ := hempty
  have habs : ∀ v, ¬Probing.Holds m.capacity m.entry Set.univ id v := by
    rintro v ⟨j, -, hj, hjv⟩
    exact hnew j hj (by rw [(entry_eq_some_iff.mp hjv).2])
  obtain ⟨d, hstops, hnone⟩ :=
    Probing.stops_of_absent habs he₀ (entry_eq_none_iff.mpr hempty)
  have hlocate := hs.locate_eq hstops
  have hlocate₁ := hs.locate_put hid hstops v
  have hlt := Nat.mod_lt (m.homeSlot id + d) m.capacity_pos
  -- the probes for the id come to slot `e`, before and after the insertion
  generalize (m.homeSlot id + d) % m.capacity = e at *
  have hvacant : (m.slots e).id = kInvalidOrderId := entry_eq_none_iff.mp hnone
  have hslot : (m.put e id v).slots e = ⟨id, v⟩ := put_slots_self e id v
  have herase : (m.put e id v).erase id = some (true, (m.put e id v).vacate e) := by
    refine (erase_of_locate hlocate₁ (by rw [hslot])).trans ?_
    exact Sized.backshift_stop (m := m.put e id v) hs (hunbroken.not_displaced hs hlt hvacant id v)
      (Nat.mul_pos (m.put e id v).capacity_pos (m.put e id v).capacity_pos)
  refine ⟨?_, m.put e id v, (m.put e id v).vacate e, ?_, ?_, herase, rfl, ?_,
    vacate_put_id hvacant id v, fun i hi => ?_⟩
  · simp [find, hlocate, hvacant, Ne.symm hid]
  · simp [insert, hlocate, hvacant, put]
  · exact find_of_locate hlocate₁ hslot
  · rw [vacate, put]
    exact UInt64.add_sub_cancel m.size 1
  · have hne : i ≠ e := fun heq => hi (heq ▸ hvacant)
    exact vacate_put_slots hne id v

end Operations

end Lob.OrderIdMap
