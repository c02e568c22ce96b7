import Mathlib.Algebra.Order.BigOperators.Group.Finset
import Lob.Equiv.OrderIdMapRuns

/-!
# `OrderIdMap` under load

The table does not grow.  A probe goes on for ever exactly if every slot is in use by another id
(`Sized.locate_cases`); the backshift loop of `erase` ends in any case, as every move brings an
entry one slot closer to its hash slot (`Sized.backshift_returns`).  A run therefore returns
exactly if no call of it is blocked, and the insertions of absent ids return true exactly if they
meet no entry for the id (`run_neverHangs_iff_fitting`).  With fewer insertions than slots no call
is blocked (`run_returns_of_few`).
-/

namespace Lob.OrderIdMap

variable {α : Type} {m m' : OrderIdMap α} {id : OrderId} {f : FiniteMap α}

/-- Every slot is in use, and none holds `id`. -/
def Blocked (m : OrderIdMap α) (id : OrderId) : Prop :=
  ∀ i < m.capacity, (m.slots i).id ≠ kInvalidOrderId ∧ (m.slots i).id ≠ id

/-- From the hash slot of `id` on one comes to an entry for `id` before an empty slot. -/
def Meets (m : OrderIdMap α) (id : OrderId) : Prop :=
  ∃ d < m.capacity, (m.slots ((m.homeSlot id + d) % m.capacity)).id = id ∧
    ∀ c < d, (m.slots ((m.homeSlot id + c) % m.capacity)).id ≠ kInvalidOrderId

theorem Meets.not_blocked (h : m.Meets id) : ¬m.Blocked id := by
  obtain ⟨d, -, hd, -⟩ := h
  exact fun hb => (hb _ (Nat.mod_lt _ m.capacity_pos)).2 hd

/-! ### The probe loop -/

/-- The first slot from the hash slot on that holds `id` or is empty. -/
structure FirstStop (m : OrderIdMap α) (id : OrderId) (d : ℕ) : Prop where
  lt : d < m.capacity
  stop : (m.slots ((m.homeSlot id + d) % m.capacity)).id = id ∨
    (m.slots ((m.homeSlot id + d) % m.capacity)).id = kInvalidOrderId
  before : ∀ c < d, (m.slots ((m.homeSlot id + c) % m.capacity)).id ≠ id ∧
    (m.slots ((m.homeSlot id + c) % m.capacity)).id ≠ kInvalidOrderId

theorem exists_firstStop (h : ¬m.Blocked id) : ∃ d, m.FirstStop id d := by
  classical
  unfold Blocked at h
  push Not at h
  obtain ⟨i, hi, hslot⟩ := h
  obtain ⟨d₀, hd₀, hd₀i⟩ := Probing.exists_offset (m.homeSlot id) hi
  have hex : ∃ d, (m.slots ((m.homeSlot id + d) % m.capacity)).id = id ∨
      (m.slots ((m.homeSlot id + d) % m.capacity)).id = kInvalidOrderId := by
    refine ⟨d₀, ?_⟩
    rw [hd₀i]
    exact (em _).symm.imp_left hslot
  have hle : Nat.find hex ≤ d₀ := by
    refine Nat.find_min' hex ?_
    rw [hd₀i]
    exact (em _).symm.imp_left hslot
  exact ⟨Nat.find hex, by omega, Nat.find_spec hex, fun c hc => not_or.mp (Nat.find_min hex hc)⟩

theorem Sized.locate_firstStop (hs : m.Sized) {d : ℕ} (h : m.FirstStop id d) :
    m.locate id = some ((m.homeSlot id + d) % m.capacity) := by
  have hhome : m.homeSlot id = m.homeSlot id % m.capacity :=
    (Nat.mod_eq_of_lt (hs.homeSlot_lt id)).symm
  rw [locate]
  conv_lhs => rw [hhome]
  exact hs.probe_eq h.lt h.before h.stop

theorem probe_some {fuel i j : ℕ} (h : m.probe id fuel i = some j) :
    (m.slots j).id = id ∨ (m.slots j).id = kInvalidOrderId := by
  induction fuel generalizing i with
  | zero => cases h
  | succ fuel ih =>
    rw [probe] at h
    split_ifs at h with hstop
    · obtain rfl := Option.some.inj h
      exact hstop
    · exact ih h

theorem Sized.probe_lt (hs : m.Sized) {fuel i j : ℕ} (hi : i < m.capacity)
    (h : m.probe id fuel i = some j) : j < m.capacity := by
  induction fuel generalizing i with
  | zero => cases h
  | succ fuel ih =>
    rw [probe] at h
    split_ifs at h with hstop
    · obtain rfl := Option.some.inj h
      exact hi
    · refine ih ?_ h
      rw [hs.nextSlot_eq]
      exact Nat.mod_lt _ m.capacity_pos

theorem Sized.locate_blocked (hs : m.Sized) (h : m.Blocked id) : m.locate id = none := by
  cases hloc : m.locate id with
  | none => rfl
  | some i =>
    obtain ⟨hused, hother⟩ := h i (hs.probe_lt (hs.homeSlot_lt id) hloc)
    rcases probe_some hloc with hid | hempty
    · exact absurd hid hother
    · exact absurd hempty hused

/-- **The probe** of a call ends at an entry for the id that it meets, or else at an empty slot if
there is one, or else never. -/
theorem Sized.locate_cases (hs : m.Sized) (id : OrderId) :
    (m.Blocked id ∧ m.locate id = none) ∨
      (m.Meets id ∧ ∃ i < m.capacity, m.locate id = some i ∧ (m.slots i).id = id) ∨
      (¬m.Blocked id ∧ ¬m.Meets id ∧
        ∃ i < m.capacity, m.locate id = some i ∧ (m.slots i).id = kInvalidOrderId) := by
  by_cases hb : m.Blocked id
  · exact Or.inl ⟨hb, hs.locate_blocked hb⟩
  obtain ⟨d, hd⟩ := exists_firstStop hb
  have hloc := hs.locate_firstStop hd
  have hlt := Nat.mod_lt (m.homeSlot id + d) m.capacity_pos
  refine Or.inr ?_
  by_cases heq : (m.slots ((m.homeSlot id + d) % m.capacity)).id = id
  · exact Or.inl ⟨⟨d, hd.lt, heq, fun c hc => (hd.before c hc).2⟩, _, hlt, hloc, heq⟩
  · have hempty := hd.stop.resolve_left heq
    refine Or.inr ⟨hb, ?_, _, hlt, hloc, hempty⟩
    rintro ⟨d', -, heq', hused⟩
    -- the entry would lie before the empty slot, or behind it
    rcases Nat.lt_trichotomy d' d with hlt' | rfl | hlt'
    · exact (hd.before d' hlt').1 heq'
    · exact heq heq'
    · exact hused d hlt' hempty

/-! ### The backshift loop -/

/-- The table with a copy of the entry of slot `x` in slot `hole`. -/
def copied (m : OrderIdMap α) (hole x : ℕ) : OrderIdMap α :=
  { m with slots := Function.update m.slots hole (m.slots x) }

theorem copied_distance_of_ne {hole x y : ℕ} (hne : y ≠ hole) :
    (m.copied hole x).distance y = m.distance y := by
  have hslot : (m.copied hole x).slots y = m.slots y := Function.update_of_ne hne ..
  unfold distance
  rw [hslot]
  rfl

/-- A move brings an entry one slot closer to its hash slot. -/
theorem Sized.copied_distance (hs : m.Sized) {hole : ℕ} (hhole : hole < m.capacity)
    (hd : m.Displaced (m.nextSlot hole)) :
    (m.copied hole (m.nextSlot hole)).distance hole + 1 = m.distance (m.nextSlot hole) := by
  have hnext : m.nextSlot hole < m.capacity := by
    rw [hs.nextSlot_eq]
    exact Nat.mod_lt _ m.capacity_pos
  obtain ⟨hlt, hdist⟩ := hs.distance_spec hnext
  have hpos : m.distance (m.nextSlot hole) ≠ 0 := by
    intro hz
    rw [hz, Nat.add_zero, Nat.mod_eq_of_lt (hs.homeSlot_lt _)] at hdist
    exact hd.2 hdist
  obtain ⟨d, hd'⟩ := Nat.exists_eq_succ_of_ne_zero hpos
  rw [hd'] at hdist hlt ⊢
  have hself : (m.copied hole (m.nextSlot hole)).slots hole = m.slots (m.nextSlot hole) :=
    Function.update_self ..
  have hs' : (m.copied hole (m.nextSlot hole)).Sized := hs
  refine congrArg (· + 1) (distance_unique hs' (Nat.lt_of_succ_lt hlt) ?_)
  rw [hself]
  show (m.homeSlot (m.slots (m.nextSlot hole)).id + d) % m.capacity = hole
  have hstep : (m.homeSlot (m.slots (m.nextSlot hole)).id + d + 1) % m.capacity =
      (hole + 1) % m.capacity := hdist.trans (hs.nextSlot_eq hole)
  rw [Probing.mod_eq_of_succ hstep, Nat.mod_eq_of_lt hhole]

/-- How far all entries outside of slot `hole` are from their hash slots, together. -/
def slack (m : OrderIdMap α) (hole : ℕ) : ℕ :=
  ∑ c ∈ Finset.range (m.capacity - 1), m.distance ((hole + (c + 1)) % m.capacity)

theorem Sized.slack_lt (hs : m.Sized) (hole : ℕ) : m.slack hole < m.capacity * m.capacity := by
  have hpos := m.capacity_pos
  have hle : m.slack hole ≤ (m.capacity - 1) * m.capacity := by
    have hsum := Finset.sum_le_card_nsmul (Finset.range (m.capacity - 1))
      (fun c => m.distance ((hole + (c + 1)) % m.capacity)) m.capacity fun c _ =>
        (hs.distance_spec (Nat.mod_lt _ hpos)).1.le
    rwa [Finset.card_range, nsmul_eq_mul, Nat.cast_id] at hsum
  exact hle.trans_lt (Nat.mul_lt_mul_of_pos_right (Nat.sub_lt hpos Nat.one_pos) hpos)

/-- The moved entry has come one slot closer, and the hole is one slot further on. -/
theorem Sized.copied_slack (hs : m.Sized) {hole : ℕ} (hhole : hole < m.capacity)
    (hd : m.Displaced (m.nextSlot hole)) :
    (m.copied hole (m.nextSlot hole)).slack (m.nextSlot hole) + 1 = m.slack hole := by
  have hcopied := hs.copied_distance hhole hd
  have hhome := hs.homeSlot_lt (m.slots (m.nextSlot hole)).id
  rw [hs.nextSlot_eq] at *
  -- a table with a single slot has no displaced entry
  have hcap : m.capacity ≠ 1 := by
    intro hone
    have hlt := Nat.mod_lt (hole + 1) m.capacity_pos
    exact hd.2 (by omega)
  obtain ⟨k, hk⟩ : ∃ k, m.capacity = k + 2 := ⟨m.capacity - 2, by have := m.capacity_pos; omega⟩
  have hlast : ((hole + 1) % m.capacity + (k + 1)) % m.capacity = hole := by
    rw [Nat.mod_add_mod, show hole + 1 + (k + 1) = hole + m.capacity by omega, Nat.add_mod_right,
      Nat.mod_eq_of_lt hhole]
  have hrest : ∀ c < k, (m.copied hole ((hole + 1) % m.capacity)).distance
      (((hole + 1) % m.capacity + (c + 1)) % m.capacity) =
        m.distance ((hole + (c + 1 + 1)) % m.capacity) := fun c hc => by
    rw [Nat.mod_add_mod, show hole + 1 + (c + 1) = hole + (c + 1 + 1) by omega]
    refine copied_distance_of_ne fun heq => ?_
    have hsame : (hole + (c + 1 + 1)) % m.capacity = (hole + 0) % m.capacity :=
      heq.trans (Nat.mod_eq_of_lt hhole).symm
    have := Probing.offset_inj hsame (by omega) (by omega)
    omega
  show ∑ c ∈ Finset.range (m.capacity - 1), _ + 1 = ∑ c ∈ Finset.range (m.capacity - 1), _
  rw [show m.capacity - 1 = k + 1 by omega, Finset.sum_range_succ, Finset.sum_range_succ']
  have hsum := Finset.sum_congr rfl fun c hc => hrest c (Finset.mem_range.mp hc)
  change ∑ c ∈ Finset.range k, (m.copied hole ((hole + 1) % m.capacity)).distance
    (((hole + 1) % m.capacity + (c + 1)) % m.capacity) + _ + 1 = _
  rw [hsum]
  change _ + (m.copied hole ((hole + 1) % m.capacity)).distance
    (((hole + 1) % m.capacity + (k + 1)) % m.capacity) + 1 = _
  rw [hlast, Nat.add_assoc, hcopied]

/-- **The backshift loop ends.** -/
theorem Sized.backshift_returns (hs : m.Sized) {fuel hole : ℕ} (hhole : hole < m.capacity)
    (hfuel : m.slack hole < fuel) : ∃ m', m.backshift fuel hole = some (true, m') := by
  induction fuel generalizing m hole with
  | zero => exact absurd hfuel (Nat.not_lt_zero _)
  | succ fuel ih =>
    by_cases hd : m.Displaced (m.nextSlot hole)
    · have hslack := hs.copied_slack hhole hd
      have hnext : m.nextSlot hole < m.capacity := by
        rw [hs.nextSlot_eq]
        exact Nat.mod_lt _ m.capacity_pos
      have hdist := (hs.dist_eq_zero_iff hnext (hs.homeSlot_lt _)).not.mpr hd.2
      rw [backshift]
      dsimp only
      rw [if_neg hd.1, if_neg hdist]
      have hs' : (m.copied hole (m.nextSlot hole)).Sized := hs
      exact ih hs' hnext (by omega)
    · exact ⟨_, hs.backshift_stop hd (Nat.succ_pos fuel)⟩

/-! ### Calls -/

/-- The call is for an id that is in no slot, and no slot is empty. -/
def Blocks (m : OrderIdMap α) : Call α → Prop
  | .insert id _ | .find id | .erase id => m.Blocked id
  | .size => False

theorem Sized.insert_cases (hs : m.Sized) (hid : id ≠ kInvalidOrderId) (v : Option α) :
    (m.Blocked id ∧ m.insert id v = none) ∨
      (¬m.Blocked id ∧ ∃ done m', m.insert id v = some (done, m') ∧
        (done = true ↔ ¬m.Meets id)) := by
  rcases hs.locate_cases id with ⟨hb, hloc⟩ | ⟨hmeets, i, -, hloc, hslot⟩ |
    ⟨hb, hmeets, i, -, hloc, hslot⟩
  · exact Or.inl ⟨hb, by simp [insert, hloc]⟩
  · refine Or.inr ⟨hmeets.not_blocked, false, m, ?_, by simp [hmeets]⟩
    simp [insert, hloc, hslot, hid]
  · refine Or.inr ⟨hb, true, m.put i id v, ?_, by simp [hmeets]⟩
    rw [insert, hloc]
    exact if_pos hslot

theorem Sized.find_eq_none_iff (hs : m.Sized) : m.find id = none ↔ m.Blocked id := by
  rcases hs.locate_cases id with ⟨hb, hloc⟩ | ⟨hmeets, i, -, hloc, hslot⟩ |
    ⟨hb, -, i, -, hloc, hslot⟩
  · exact iff_of_true (by simp [find, hloc]) hb
  · exact iff_of_false (by simp [find, hloc, hslot]) hmeets.not_blocked
  · refine iff_of_false ?_ hb
    rw [find, hloc]
    show (if (m.slots i).id = id then some (m.slots i).value else some none) ≠ none
    split_ifs <;> exact Option.some_ne_none _

theorem Sized.erase_eq_none_iff (hs : m.Sized) : m.erase id = none ↔ m.Blocked id := by
  have hreturns : ∀ i < m.capacity, m.locate id = some i → m.erase id ≠ none := by
    intro i hi hloc
    by_cases hslot : (m.slots i).id = id
    · obtain ⟨m', hm'⟩ := hs.backshift_returns hi (hs.slack_lt i)
      rw [erase_of_locate hloc hslot]
      exact fun hnone => Option.some_ne_none _ (hm'.symm.trans hnone)
    · rw [erase, hloc]
      show (if (m.slots i).id = id then _ else some (false, m)) ≠ none
      rw [if_neg hslot]
      exact Option.some_ne_none _
  rcases hs.locate_cases id with ⟨hb, hloc⟩ | ⟨hmeets, i, hi, hloc, -⟩ | ⟨hb, -, i, hi, hloc, -⟩
  · exact iff_of_true (by simp [erase, hloc]) hb
  · exact iff_of_false (hreturns i hi hloc) hmeets.not_blocked
  · exact iff_of_false (hreturns i hi hloc) hb

/-- **A call does not return** exactly if no slot is empty and none holds its id. -/
theorem Sized.call_eq_none_iff (hs : m.Sized) {c : Call α} (hc : c.Proper) :
    m.call c = none ↔ m.Blocks c := by
  cases c with
  | insert id v =>
    rw [call, Option.map_eq_none_iff]
    rcases hs.insert_cases hc v with ⟨hb, hnone⟩ | ⟨hb, done, m', hins, -⟩
    · exact iff_of_true hnone hb
    · exact iff_of_false (by simp [hins]) hb
  | find id => exact Option.map_eq_none_iff.trans hs.find_eq_none_iff
  | erase id => exact Option.map_eq_none_iff.trans hs.erase_eq_none_iff
  | size => exact iff_of_false (Option.some_ne_none _) not_false

theorem call_mask {c : Call α} {a : Answer α} (h : m.call c = some (a, m')) :
    m'.mask = m.mask := by
  cases c with
  | insert id v =>
    obtain ⟨r, hr, h⟩ := Option.map_eq_some_iff.mp h
    cases h
    exact insert_mask hr
  | find id =>
    obtain ⟨p, -, h⟩ := Option.map_eq_some_iff.mp h
    cases h
    rfl
  | erase id =>
    obtain ⟨r, hr, h⟩ := Option.map_eq_some_iff.mp h
    cases h
    exact erase_mask hr
  | size =>
    cases h
    rfl

theorem Sized.call (hs : m.Sized) {c : Call α} {a : Answer α} (h : m.call c = some (a, m')) :
    m'.Sized := by
  unfold Sized
  rw [call_mask h]
  exact hs

end Lob.OrderIdMap

namespace Lob.FiniteMap

variable {α : Type}

open OrderIdMap (Call)

/-- The map after the calls. -/
def after (f : FiniteMap α) : List (Call α) → FiniteMap α
  | [] => f
  | c :: cs => after (call f c).2 cs

end Lob.FiniteMap

namespace Lob.OrderIdMap

variable {α : Type} {m m' : OrderIdMap α} {f : FiniteMap α} {c : Call α} {cs : List (Call α)}

/-! ### Runs -/

/-- **The map never hangs**: all calls of the run return, and insertions of absent ids, as the
abstract map has it, return true. -/
def NeverHangs (m : OrderIdMap α) (f : FiniteMap α) (cs : List (Call α)) : Prop :=
  ∃ as, m.run cs = some as ∧ ∀ n id v, cs[n]? = some (.insert id v) →
    (FiniteMap.after f (cs.take n)).lookup id = none → as[n]? = some (.done true)

/-- A slot is empty or holds the id of the call, and the insertion of an absent id meets no entry
that an erasure has left behind. -/
def Fits (m : OrderIdMap α) (f : FiniteMap α) (c : Call α) : Prop :=
  ¬m.Blocks c ∧ ∀ id v, c = .insert id v → f.lookup id = none → ¬m.Meets id

/-- Every call of the run fits. -/
def Fitting (m : OrderIdMap α) (f : FiniteMap α) : List (Call α) → Prop
  | [] => True
  | c :: cs => m.Fits f c ∧ ∀ r, m.call c = some r → Fitting r.2 (FiniteMap.call f c).2 cs

theorem neverHangs_cons {a : Answer α} (h : m.call c = some (a, m')) :
    m.NeverHangs f (c :: cs) ↔
      (∀ id v, c = .insert id v → f.lookup id = none → a = .done true) ∧
        m'.NeverHangs (FiniteMap.call f c).2 cs := by
  have hrun : m.run (c :: cs) = (m'.run cs).map (a :: ·) := by
    rw [run, h, Option.bind_some]
  unfold NeverHangs
  rw [hrun]
  constructor
  · rintro ⟨as, has, hins⟩
    obtain ⟨as', has', rfl⟩ := Option.map_eq_some_iff.mp has
    refine ⟨fun id v hc hf => ?_, as', has', fun n id v hn hf => ?_⟩
    · exact Option.some.inj (hins 0 id v (congrArg some hc) hf)
    · exact hins (n + 1) id v hn hf
  · rintro ⟨hfirst, as, has, hins⟩
    refine ⟨a :: as, by rw [has]; rfl, fun n id v hn hf => ?_⟩
    cases n with
    | zero => exact congrArg some (hfirst id v (Option.some.inj hn) hf)
    | succ n => exact hins n id v hn hf

theorem Sized.insert_done_iff (hs : m.Sized) {id : OrderId} (hid : id ≠ kInvalidOrderId)
    {v : Option α} {a : Answer α} (h : m.call (.insert id v) = some (a, m')) :
    a = .done true ↔ ¬m.Meets id := by
  obtain ⟨r, hr, h⟩ := Option.map_eq_some_iff.mp h
  cases h
  rcases hs.insert_cases hid v with ⟨-, hnone⟩ | ⟨-, done, m₁, hins, hdone⟩
  · rw [hnone] at hr
    cases hr
  · rw [hins] at hr
    cases hr
    rw [Answer.done.injEq]
    exact hdone

/-- What a call that fits does. -/
theorem Sized.fits_iff (hs : m.Sized) (hc : c.Proper) :
    m.Fits f c ↔ ∃ a m', m.call c = some (a, m') ∧
      ∀ id v, c = .insert id v → f.lookup id = none → a = .done true := by
  have hnone := hs.call_eq_none_iff hc
  constructor
  · rintro ⟨hb, hins⟩
    obtain ⟨⟨a, m'⟩, h⟩ := Option.ne_none_iff_exists'.mp (hnone.not.mpr hb)
    refine ⟨a, m', h, fun id v heq hf => ?_⟩
    subst heq
    exact (hs.insert_done_iff hc h).mpr (hins id v rfl hf)
  · rintro ⟨a, m', h, hins⟩
    refine ⟨hnone.not.mp (h ▸ Option.some_ne_none _), fun id v heq hf => ?_⟩
    subst heq
    exact (hs.insert_done_iff hc h).mp (hins id v rfl hf)

theorem Sized.neverHangs_iff (hs : m.Sized) (hcs : ∀ c ∈ cs, c.Proper) :
    m.NeverHangs f cs ↔ m.Fitting f cs := by
  induction cs generalizing m f with
  | nil => exact iff_of_true ⟨[], rfl, nofun⟩ trivial
  | cons c cs ih =>
    have hfits := hs.fits_iff (f := f) (hcs c (by simp))
    cases h : m.call c with
    | none =>
      -- the run stops here
      refine iff_of_false ?_ fun hfit => ?_
      · rintro ⟨as, has, -⟩
        rw [run, h] at has
        cases has
      · obtain ⟨a, m', h', -⟩ := hfits.mp hfit.1
        rw [h] at h'
        cases h'
    | some r =>
      obtain ⟨a, m'⟩ := r
      have hrest := ih (f := (FiniteMap.call f c).2) (hs.call h)
        fun c' hc' => hcs c' (by simp [hc'])
      rw [neverHangs_cons h, hrest]
      constructor
      · rintro ⟨hins, hfit⟩
        refine ⟨hfits.mpr ⟨a, m', h, hins⟩, fun r hr => ?_⟩
        obtain rfl := Option.some.inj (h.symm.trans hr)
        exact hfit
      · rintro ⟨hfit, hrest⟩
        obtain ⟨a', m₁, h', hins⟩ := hfits.mp hfit
        obtain ⟨rfl, -⟩ := Prod.mk.inj (Option.some.inj (h.symm.trans h'))
        exact ⟨hins, hrest _ h⟩

/-! ### Few insertions -/

theorem mem_occupied {i : ℕ} :
    i ∈ m.occupied ↔ i < m.capacity ∧ (m.slots i).id ≠ kInvalidOrderId := by
  rw [occupied, Finset.mem_filter, Finset.mem_range, ne_eq, entry_eq_none_iff]

theorem Blocked.card_occupied {id : OrderId} (h : m.Blocked id) :
    m.occupied.card = m.capacity := by
  have hall : m.occupied = Finset.range m.capacity :=
    Finset.filter_true_of_mem fun i hi =>
      entry_eq_none_iff.not.mpr (h i (Finset.mem_range.mp hi)).1
  rw [hall, Finset.card_range]

theorem vacate_occupied (m : OrderIdMap α) (hole : ℕ) : (m.vacate hole).occupied ⊆ m.occupied := by
  intro i hi
  rw [mem_occupied] at hi ⊢
  refine ⟨hi.1, ?_⟩
  have hused := hi.2
  unfold vacate at hused
  dsimp only at hused
  rcases eq_or_ne i hole with rfl | hne
  · rw [Function.update_self] at hused
    exact absurd rfl hused
  · rwa [Function.update_of_ne hne] at hused

/-- The moves of the backshift loop stay among the slots in use. -/
theorem Sized.backshift_occupied (hs : m.Sized) {fuel hole : ℕ} {done : Bool}
    (hhole : hole ∈ m.occupied) (h : m.backshift fuel hole = some (done, m')) :
    m'.occupied ⊆ m.occupied := by
  induction fuel generalizing m hole with
  | zero => cases h
  | succ fuel ih =>
    rw [backshift] at h
    dsimp only at h
    split_ifs at h with hempty hhome
    · cases h
      exact m.vacate_occupied hole
    · cases h
      exact m.vacate_occupied hole
    · -- a copy of an entry goes where an entry has been
      have hcopied : (m.copied hole (m.nextSlot hole)).occupied ⊆ m.occupied := by
        intro i hi
        rw [mem_occupied] at hi ⊢
        refine ⟨hi.1, ?_⟩
        rcases eq_or_ne i hole with rfl | hne
        · exact (mem_occupied.mp hhole).2
        · rw [copied] at hi
          dsimp only at hi
          rw [Function.update_of_ne hne] at hi
          exact hi.2
      have hself : (m.copied hole (m.nextSlot hole)).slots (m.nextSlot hole) =
          m.slots (m.nextSlot hole) := by
        rcases eq_or_ne (m.nextSlot hole) hole with heq | hne
        · rw [copied, heq]
          exact Function.update_self ..
        · exact Function.update_of_ne hne ..
      have hs' : (m.copied hole (m.nextSlot hole)).Sized := hs
      refine (ih hs' (mem_occupied.mpr ⟨?_, ?_⟩) h).trans hcopied
      · rw [hs.nextSlot_eq]
        exact Nat.mod_lt _ m.capacity_pos
      · rw [hself]
        exact hempty

def Call.isInsert : Call α → Bool
  | .insert _ _ => true
  | _ => false

/-- Only an insertion takes a slot. -/
theorem Sized.call_occupied (hs : m.Sized) (hc : c.Proper) {a : Answer α}
    (h : m.call c = some (a, m')) :
    m'.occupied.card ≤ m.occupied.card + if c.isInsert then 1 else 0 := by
  cases c with
  | insert id v =>
    obtain ⟨r, hr, h⟩ := Option.map_eq_some_iff.mp h
    cases h
    obtain ⟨i, -, hr⟩ := Option.bind_eq_some_iff.mp hr
    split_ifs at hr with hempty
    · cases hr
      refine (Finset.card_le_card fun j hj => ?_).trans (Finset.card_insert_le i m.occupied)
      rw [Finset.mem_insert, mem_occupied]
      refine or_iff_not_imp_left.mpr fun hne => ?_
      obtain ⟨hlt, hused⟩ := mem_occupied.mp hj
      dsimp only at hused
      rw [Function.update_of_ne hne] at hused
      exact ⟨hlt, hused⟩
    · cases hr
      exact Nat.le_succ _
  | find id =>
    obtain ⟨p, -, h⟩ := Option.map_eq_some_iff.mp h
    cases h
    exact le_rfl
  | erase id =>
    obtain ⟨r, hr, h⟩ := Option.map_eq_some_iff.mp h
    cases h
    obtain ⟨i, hloc, hr⟩ := Option.bind_eq_some_iff.mp hr
    split_ifs at hr with hslot
    · have hmem : i ∈ m.occupied :=
        mem_occupied.mpr ⟨hs.probe_lt (hs.homeSlot_lt id) hloc, hslot ▸ hc⟩
      exact Finset.card_le_card (hs.backshift_occupied hmem hr)
    · cases hr
      exact le_rfl
  | size =>
    cases h
    exact le_rfl

theorem Sized.run_returns (hs : m.Sized) (hcs : ∀ c ∈ cs, c.Proper)
    (hfew : m.occupied.card + cs.countP Call.isInsert < m.capacity) :
    ∃ as, m.run cs = some as := by
  induction cs generalizing m with
  | nil => exact ⟨[], rfl⟩
  | cons c cs ih =>
    have hc := hcs c (by simp)
    rw [List.countP_cons] at hfew
    -- a slot is empty, so that the call returns
    have hreturns : m.call c ≠ none := fun hnone => by
      have hb := (hs.call_eq_none_iff hc).mp hnone
      cases c with
      | insert id v => have := Blocked.card_occupied hb; omega
      | find id => have := Blocked.card_occupied hb; omega
      | erase id => have := Blocked.card_occupied hb; omega
      | size => exact hb
    obtain ⟨⟨a, m'⟩, h⟩ := Option.ne_none_iff_exists'.mp hreturns
    have hocc := hs.call_occupied hc h
    have hcap : m'.capacity = m.capacity := congrArg (· + 1) (call_mask h)
    obtain ⟨as, has⟩ := ih (hs.call h) (fun c' hc' => hcs c' (by simp [hc'])) (by omega)
    exact ⟨a :: as, by rw [run, h, Option.bind_some, has]; rfl⟩

/-- **With fewer insertions than slots** no call hangs, whatever is erased in between. -/
theorem run_returns_of_few {initialCapacity : ℕ} (hm : construct initialCapacity = .ok m)
    (hcs : ∀ c ∈ cs, c.Proper) (hfew : cs.countP Call.isInsert < m.capacity) :
    ∃ as, m.run cs = some as := by
  obtain ⟨-, rfl⟩ := construct_eq_ok_iff.mp hm
  refine (new_sized initialCapacity).run_returns hcs ?_
  have hnone : (new initialCapacity : OrderIdMap α).occupied = ∅ := by
    simp [occupied, entry, entryOf, new]
  rwa [hnone, Finset.card_empty, Nat.zero_add]

/-! ### Any load -/

/-- **`OrderIdMap` under any load.**  A run of calls on a fresh table, with arbitrary ids other
than `kInvalidOrderId`, returns from every call, and with true from the insertions of absent ids,
if and only if the initial capacity is at most `2 ^ 63` and every call fits into the table. -/
theorem run_neverHangs_iff_fitting (initialCapacity : ℕ) (cs : List (Call α))
    (hcs : ∀ c ∈ cs, c.Proper) :
    (∃ m, construct initialCapacity = .ok m ∧ NeverHangs m ∅ cs) ↔
      initialCapacity ≤ 2 ^ 63 ∧ (new initialCapacity : OrderIdMap α).Fitting ∅ cs := by
  rw [exists_construct_iff, (new_sized initialCapacity).neverHangs_iff hcs]

/-- One id, in a table with two slots. -/
theorem oneId_neverHangs_iff_fitting :
    (∃ m, construct 2 = .ok m ∧
        NeverHangs m ∅ [Call.insert 1 (some 0), .erase 1, .find 1]) ↔
      2 ≤ 2 ^ 63 ∧
        (new 2 : OrderIdMap ℕ).Fitting ∅ [.insert 1 (some 0), .erase 1, .find 1] :=
  run_neverHangs_iff_fitting 2 _ (by decide)

/-- Three ids, for a table with two slots. -/
def fullRun : List (Call ℕ) := [.insert 1 (some 0), .insert 2 (some 1), .insert 3 (some 2)]

/-- The third insertion does not return. -/
theorem fullRun_hangs :
    ¬∀ (initialCapacity : ℕ) (m : OrderIdMap ℕ) (cs : List (Call ℕ)),
      construct initialCapacity = .ok m → (∀ c ∈ cs, c.Proper) → m.NeverHangs ∅ cs := by
  intro hall
  obtain ⟨as, has, -⟩ := hall 2 (new 2) fullRun (if_pos (by decide)) (by decide)
  have hnone : (new 2 : OrderIdMap ℕ).run fullRun = none := by decide
  rw [hnone] at has
  cases has

end Lob.OrderIdMap
