import Lob.Equiv.OrderIdMap
import Mathlib.Data.Finmap

/-!
# Runs of `OrderIdMap` calls

A run of calls on a fresh table against the same run on an abstract finite map.  The two answer
alike after every prefix of the run exactly when there is a table and no erasure of the run strands
an entry (`run_agrees_iff_keeping`).
-/

namespace Lob.OrderIdMap

variable {α : Type}

/-- A call of the public interface. -/
inductive Call (α : Type) where
  | insert (id : OrderId) (value : Option α)
  | find (id : OrderId)
  | erase (id : OrderId)
  | size
  deriving DecidableEq, Repr

inductive Answer (α : Type) where
  | done (b : Bool)
  | pointer (p : Option α)
  | number (n : ℕ)
  deriving DecidableEq, Repr

/-- The call names no id, or one that is not `kInvalidOrderId`. -/
def Call.Proper : Call α → Prop
  | .insert id _ | .find id | .erase id => id ≠ kInvalidOrderId
  | .size => True

instance (c : Call α) : Decidable c.Proper := by
  cases c <;> simp only [Call.Proper] <;> infer_instance

def call (m : OrderIdMap α) : Call α → Option (Answer α × OrderIdMap α)
  | .insert id v => (m.insert id v).map fun r => (.done r.1, r.2)
  | .find id => (m.find id).map fun p => (.pointer p, m)
  | .erase id => (m.erase id).map fun r => (.done r.1, r.2)
  | .size => some (.number m.size.toNat, m)

/-- The answers of a run; `none` if a call does not return. -/
def run (m : OrderIdMap α) : List (Call α) → Option (List (Answer α))
  | [] => some []
  | c :: cs => (m.call c).bind fun r => (run r.2 cs).map (r.1 :: ·)

/-- The call is not an erasure that strands an entry. -/
def Keeps (m : OrderIdMap α) : Call α → Prop
  | .erase id => ∀ i < m.capacity, (m.slots i).id = id → ¬m.Strands i
  | _ => True

/-- No call of the run strands an entry. -/
def Keeping (m : OrderIdMap α) : List (Call α) → Prop
  | [] => True
  | c :: cs => m.Keeps c ∧ ∀ r, m.call c = some r → Keeping r.2 cs

end Lob.OrderIdMap

namespace Lob

/-- The abstract map: finitely many ids, each bound to a nullable pointer. -/
abbrev FiniteMap (α : Type) := Finmap fun _ : OrderId => Option α

namespace FiniteMap

variable {α : Type}

open OrderIdMap (Call Answer)

/-- The answer of the map and the map after the call. -/
def call (f : FiniteMap α) : Call α → Answer α × FiniteMap α
  | .insert id v =>
    if (f.lookup id).isNone then (.done true, f.insert id v) else (.done false, f)
  | .find id => (.pointer (f.lookup id).join, f)
  | .erase id => (.done (f.lookup id).isSome, f.erase id)
  | .size => (.number f.keys.card, f)

def run (f : FiniteMap α) : List (Call α) → List (Answer α)
  | [] => []
  | c :: cs => (call f c).1 :: run (call f c).2 cs

/-- The number of bound ids is below `cap` before and after every call. -/
def StaysBelow (cap : ℕ) (f : FiniteMap α) : List (Call α) → Prop
  | [] => f.keys.card < cap
  | c :: cs => f.keys.card < cap ∧ StaysBelow cap (call f c).2 cs

instance StaysBelow.decidable (cap : ℕ) :
    (f : FiniteMap α) → (cs : List (Call α)) → Decidable (StaysBelow cap f cs)
  | f, [] => inferInstanceAs (Decidable (f.keys.card < cap))
  | f, c :: cs => @instDecidableAnd _ _ _ (StaysBelow.decidable cap (call f c).2 cs)

theorem StaysBelow.card_lt {cap : ℕ} {f : FiniteMap α} {cs : List (Call α)}
    (h : StaysBelow cap f cs) : f.keys.card < cap := by
  cases cs with
  | nil => exact h
  | cons c cs => exact h.1

end FiniteMap

namespace OrderIdMap

variable {α : Type} {m : OrderIdMap α} {f : FiniteMap α}

/-- The slots in use and the bound ids are equally many. -/
theorem Represents.occupied_card (h : m.Represents fun id => f.lookup id) :
    m.occupied.card = f.keys.card := by
  refine h.card_eq fun id => ?_
  rw [Finmap.mem_keys, Finmap.mem_iff, Option.ne_none_iff_exists']

/-- One call: the answer is the finite map's, and a call that strands no entry keeps the
representation as long as a slot stays empty. -/
theorem Represents.call_eq (h : m.Represents fun id => f.lookup id) {c : Call α}
    (hc : c.Proper) :
    ∃ m', m.call c = some ((FiniteMap.call f c).1, m') ∧ m'.capacity = m.capacity ∧
      (m.Keeps c → (FiniteMap.call f c).2.keys.card < m.capacity →
        m'.Represents fun id => (FiniteMap.call f c).2.lookup id) := by
  cases c with
  | insert id v =>
    rcases hf : f.lookup id with _ | w
    · obtain ⟨m', hm', hcap, hrep⟩ := h.insert_unbound hf hc v
      refine ⟨m', by simp [call, FiniteMap.call, hm', hf], hcap, fun _ hroom => ?_⟩
      simp only [FiniteMap.call, hf, Option.isNone_none, if_true] at hroom ⊢
      refine (hrep ?_).congr fun id' => ?_
      · -- one more id is bound, and there is room for it in the table
        have hkeys : (f.insert id v).keys = Insert.insert id f.keys := by
          ext k
          simp [Finmap.mem_keys]
        have hnot : id ∉ f.keys := fun hk => Finmap.lookup_eq_none.mp hf (Finmap.mem_keys.mp hk)
        rw [hkeys, Finset.card_insert_of_notMem hnot] at hroom
        rwa [h.occupied_card]
      · by_cases hid : id' = id
        · rw [hid, Function.update_self, Finmap.lookup_insert]
        · rw [Function.update_of_ne hid, Finmap.lookup_insert_of_ne _ hid]
    · refine ⟨m, by simp [call, FiniteMap.call, h.insert_bound hf, hf], rfl, fun _ _ => ?_⟩
      simpa [FiniteMap.call, hf] using h
  | find id => exact ⟨m, by simp [call, FiniteMap.call, h.find_eq hc], rfl, fun _ _ => h⟩
  | erase id =>
    rcases hf : f.lookup id with _ | w
    · refine ⟨m, by simp [call, FiniteMap.call, h.erase_unbound hc hf, hf], rfl,
        fun _ _ => h.congr fun id' => ?_⟩
      simp only [FiniteMap.call]
      by_cases hid : id' = id
      · rw [hid, hf, Finmap.lookup_erase]
      · rw [Finmap.lookup_erase_ne hid]
    · obtain ⟨m', hm', hcap, hrep⟩ := h.erase_represents hf
      refine ⟨m', by simp [call, FiniteMap.call, hm', hf], hcap,
        fun hk _ => (hrep hk).congr fun id' => ?_⟩
      simp only [FiniteMap.call]
      by_cases hid : id' = id
      · rw [hid, Function.update_self, Finmap.lookup_erase]
      · rw [Function.update_of_ne hid, Finmap.lookup_erase_ne hid]
  | size =>
    refine ⟨m, ?_, rfl, fun _ _ => h⟩
    -- the counter does not wrap around: a slot is empty, and there are at most `2 ^ 64` of them
    have hle := h.sized.capacity_le
    have hlt : m.occupied.card < m.capacity := by
      obtain ⟨e, he, hte⟩ := h.vacant
      have hss : m.occupied ⊂ Finset.range m.capacity := by
        refine (Finset.ssubset_iff_of_subset (Finset.filter_subset _ _)).mpr
          ⟨e, Finset.mem_range.mpr he, ?_⟩
        simp [hte]
      simpa using Finset.card_lt_card hss
    simp only [call, FiniteMap.call, h.size_eq, ← h.occupied_card]
    rw [UInt64.toNat_ofNat_of_lt' (by rw [UInt64.size]; omega)]

/-- After every prefix of the run the next call, whatever it is, is answered as by the finite
map. -/
def Agrees (m : OrderIdMap α) (f : FiniteMap α) (cs : List (Call α)) : Prop :=
  ∀ n ≤ cs.length, ∀ c : Call α, c.Proper →
    m.run (cs.take n ++ [c]) = some (FiniteMap.run f (cs.take n ++ [c]))

/-- The erasure that strands an entry is found out by a later call. -/
theorem Represents.keeps_of_agrees (h : m.Represents fun id => f.lookup id) {c : Call α}
    (hc : c.Proper) {cs : List (Call α)} (ha : Agrees m f (c :: cs)) : m.Keeps c := by
  cases c with
  | insert | find | size => trivial
  | erase id =>
    intro i hi hslot hstr
    have hbound : f.lookup id = some (m.slots i).value := by
      refine (h.holds _ _).mp ⟨i, trivial, hi, entry_eq_some_iff.mpr ⟨hc, ?_⟩⟩
      rw [← hslot]
    obtain ⟨m', id', w, hm', hne, hw, hlost⟩ := h.erase_strands hbound hi hslot hstr
    have hid' : id' ≠ kInvalidOrderId := by
      rintro rfl
      rw [h.lookup_invalid] at hw
      exact absurd hw (by simp)
    -- the table takes the stranded id for absent, the map does not
    have := ha 1 (by simp) (.erase id') hid'
    simp [run, call, hm', hlost, FiniteMap.run, FiniteMap.call, hw, hbound,
      Finmap.lookup_erase_ne hne] at this

theorem Represents.agrees_iff (h : m.Represents fun id => f.lookup id) (cs : List (Call α))
    (hcs : ∀ c ∈ cs, c.Proper) (hbelow : FiniteMap.StaysBelow m.capacity f cs) :
    Agrees m f cs ↔ m.Keeping cs := by
  -- the first answer agrees in any case: an erasure only goes wrong for the calls after it
  have hfirst : ∀ c : Call α, c.Proper → m.run [c] = some (FiniteMap.run f [c]) := fun c hc => by
    obtain ⟨m', hm', -⟩ := h.call_eq hc
    simp [run, hm', FiniteMap.run]
  induction cs generalizing m f with
  | nil =>
    refine iff_of_true (fun n hn c hc => ?_) trivial
    obtain rfl : n = 0 := by simpa using hn
    exact hfirst c hc
  | cons c cs ih =>
    obtain ⟨m', hm', hcap, hrep⟩ := h.call_eq (hcs c (by simp))
    have hnext : m.Keeps c → (Agrees m' (FiniteMap.call f c).2 cs ↔ m'.Keeping cs) := fun hk => by
      have hrep' := hrep hk hbelow.2.card_lt
      refine ih hrep' (fun c' hc' => hcs c' (by simp [hc'])) (by rw [hcap]; exact hbelow.2) ?_
      intro c' hc'
      obtain ⟨m'', hm'', -⟩ := hrep'.call_eq hc'
      simp [run, hm'', FiniteMap.run]
    have hrun : ∀ cs', m.run (c :: cs') = (m'.run cs').map ((FiniteMap.call f c).1 :: ·) :=
      fun cs' => by rw [run, hm', Option.bind_some]
    have hkeeping : m.Keeping (c :: cs) ↔ m.Keeps c ∧ m'.Keeping cs := by
      simp [Keeping, hm']
    rw [hkeeping]
    constructor
    · intro ha
      have hk := h.keeps_of_agrees (hcs c (by simp)) ha
      refine ⟨hk, (hnext hk).mp fun n hn c' hc' => ?_⟩
      -- the prefix of the tail, with the first call put back in front
      have := ha (n + 1) (by simpa using hn) c' hc'
      rw [List.take_succ_cons, List.cons_append, hrun, FiniteMap.run] at this
      obtain ⟨as, has, hcons⟩ := Option.map_eq_some_iff.mp this
      rw [has, (List.cons.inj hcons).2]
    · rintro ⟨hk, hkeep⟩ n hn c' hc'
      cases n with
      | zero => exact hfirst c' hc'
      | succ n =>
        have := (hnext hk).mpr hkeep n (by simpa using hn) c' hc'
        rw [List.take_succ_cons, List.cons_append, hrun, this, FiniteMap.run, Option.map_some]

/-- **`OrderIdMap` as a finite map.**  Take any run of calls on a fresh table, with arbitrary ids
other than `kInvalidOrderId`, in which the number of bound ids stays below the capacity.  There is a
table and it answers like the finite map after every prefix of the run if and only if the initial
capacity is at most `2 ^ 63` and no erasure of the run strands an entry. -/
theorem run_agrees_iff_keeping (initialCapacity : ℕ) (cs : List (Call α))
    (hcs : ∀ c ∈ cs, c.Proper)
    (hbelow : FiniteMap.StaysBelow (new initialCapacity : OrderIdMap α).capacity ∅ cs) :
    (∃ m, construct initialCapacity = .ok m ∧ Agrees m ∅ cs) ↔
      initialCapacity ≤ 2 ^ 63 ∧ (new initialCapacity : OrderIdMap α).Keeping cs := by
  have hnew : (new initialCapacity : OrderIdMap α).Represents
      fun id => (∅ : FiniteMap α).lookup id :=
    (new_represents initialCapacity).congr fun _ => by rw [Finmap.lookup_empty]
  rw [exists_construct_iff, hnew.agrees_iff cs hcs hbelow]

/-- In a table of four slots the ids 3 and 8 hash to slot 0 and 10 to slot 1, so that 8 comes to
lie in slot 2, behind 10. -/
def strandingRun : List (Call ℕ) :=
  [.insert 3 (some 0), .insert 10 (some 1), .insert 8 (some 2), .erase 3, .find 8]

/-- Erasing 3 stops at 10, which is in its own hash slot, and 8 is not found any more. -/
theorem strandingRun_disagrees :
    construct 4 = .ok (new 4 : OrderIdMap ℕ) ∧ (∀ c ∈ strandingRun, c.Proper) ∧
      FiniteMap.StaysBelow (new 4 : OrderIdMap ℕ).capacity ∅ strandingRun ∧
      (new 4).run strandingRun ≠ some (FiniteMap.run ∅ strandingRun) := by
  refine ⟨if_pos (by decide), ?_⟩
  decide

/-- Erasing 8 first is harmless. -/
theorem run_agrees_iff_keeping_of_erase_last :
    (∃ m, construct 4 = .ok m ∧ Agrees m ∅
        [Call.insert 3 (some 0), .insert 10 (some 1), .insert 8 (some 2), .erase 8]) ↔
      4 ≤ 2 ^ 63 ∧ (new 4 : OrderIdMap ℕ).Keeping
        [.insert 3 (some 0), .insert 10 (some 1), .insert 8 (some 2), .erase 8] :=
  run_agrees_iff_keeping 4 _ (by decide) (by decide)

end OrderIdMap

end Lob
