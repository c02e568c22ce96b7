import Lob.Equiv.SlabAllocator
import Mathlib.Data.Finset.Card
import Mathlib.Data.Finset.Range

/-!
# Runs of `SlabAllocator`

Whatever a client writes into the slots that it holds, the slab hands out only others
(`Reaches.accounts`), as long as the size of its block does not wrap around and there is a slab at
all (`neverTwice_iff`).  The invariant `Holding` has the held slots handed out and the rest on the
free list; a write to a held slot is off the free list, and so is the link that `deallocate`
writes, until the slot is on it.
-/

namespace Lob.SlabAllocator

open Links

variable {s s' : SlabAllocator} {A : Finset Ptr} {p : Ptr} {fl : List Ptr} {capacity : ℕ}

/-- The client holds the slots `A` of `capacity`, and the slab knows it. -/
structure Accounts (capacity : ℕ) (s : SlabAllocator) (A : Finset Ptr) : Prop where
  lt : ∀ p ∈ A, p < capacity
  allocate_none_iff : s.allocate.1 = none ↔ A.card = capacity
  allocate_some : ∀ p, s.allocate.1 = some p → p < capacity ∧ p ∉ A
  inUse_eq : s.inUse = A.card
  /-- Without repeats, and so without a cycle. -/
  freeList : ∃ fl, Chain (fun p => (s.storage p).next) s.freeHead fl ∧ fl.Nodup ∧
    ∀ p, p ∈ fl ↔ p < capacity ∧ p ∉ A
  allocate_value : ∀ p ∈ A, (s.allocate.2.storage p).value = (s.storage p).value
  deallocate_value : ∀ p ∈ A, ∃ s', s.deallocate p = .ok s' ∧
    ∀ q ∈ A.erase p, (s'.storage q).value = (s.storage q).value
  overwrite_ok : ∀ p ∈ A, ∀ o, ∃ s', s.write p (fun _ => o) = .ok s'

/-- The invariant. -/
structure Holding (capacity : ℕ) (s : SlabAllocator) (A : Finset Ptr) : Prop where
  capacity_eq : s.capacity = capacity
  freeList : ∃ fl, FreeList s fl
  live_iff : ∀ p, (s.storage p).live = true ↔ p ∈ A

theorem Holding.not_live_iff (h : Holding capacity s A) (p : Ptr) :
    (s.storage p).live = false ↔ p ∉ A := by
  rw [← h.live_iff, Bool.not_eq_true]

/-- The slots held and the free list make up the slab. -/
theorem Holding.card_add (h : Holding capacity s A) (hfl : FreeList s fl) :
    A.card + fl.length = capacity := by
  have hdisj : Disjoint A fl.toFinset := by
    rw [Finset.disjoint_left]
    intro p hp hmem
    have hfree := (hfl.mem_iff p).mp (List.mem_toFinset.mp hmem)
    exact (h.not_live_iff p).mp hfree.2 hp
  have hunion : A ∪ fl.toFinset = Finset.range capacity := by
    ext p
    rw [Finset.mem_union, List.mem_toFinset, hfl.mem_iff, h.not_live_iff, h.capacity_eq,
      Finset.mem_range]
    constructor
    · rintro (hp | ⟨hlt, -⟩)
      · exact h.capacity_eq ▸ hfl.live_lt p ((h.live_iff p).mpr hp)
      · exact hlt
    · intro hlt
      by_cases hp : p ∈ A
      · exact Or.inl hp
      · exact Or.inr ⟨hlt, hp⟩
  have hcard := congrArg Finset.card hunion
  rw [Finset.card_union_of_disjoint hdisj, List.toFinset_card_of_nodup hfl.nodup,
    Finset.card_range] at hcard
  exact hcard

/-! ### The invariant is kept -/

theorem holding_new (capacity : ℕ) : Holding capacity (new capacity) ∅ where
  capacity_eq := capacity_new capacity
  freeList := ⟨_, new_freeList capacity⟩
  live_iff p := by
    rw [new_live]
    exact iff_of_false nofun (Finset.notMem_empty p)

theorem Holding.taken (h : Holding capacity s A) (hfl : FreeList s (p :: fl)) :
    Holding capacity (s.taken p) (insert p A) where
  capacity_eq := h.capacity_eq
  freeList := ⟨fl, hfl.allocate_cons.2.1⟩
  live_iff q := by
    rw [Finset.mem_insert]
    rcases eq_or_ne q p with rfl | hq
    · rw [taken_storage_self]
      exact iff_of_true rfl (Or.inl rfl)
    · rw [taken_storage_of_ne hq, h.live_iff, or_iff_right hq]

theorem Holding.returned (h : Holding capacity s A) (hp : p ∈ A) :
    s.deallocate p = .ok (s.returned p) ∧ Holding capacity (s.returned p) (A.erase p) := by
  obtain ⟨fl, hfl⟩ := h.freeList
  obtain ⟨hdealloc, hback⟩ := hfl.deallocate ((h.live_iff p).mpr hp)
  refine ⟨hdealloc, h.capacity_eq, ⟨_, hback⟩, fun q => ?_⟩
  rw [Finset.mem_erase]
  rcases eq_or_ne q p with rfl | hq
  · rw [returned_storage_self]
    exact iff_of_false nofun fun hq => hq.1 rfl
  · rw [returned_storage_of_ne hq, h.live_iff, and_iff_right hq]

theorem Holding.put (h : Holding capacity s A) (hp : p ∈ A) (o : Order) :
    Holding capacity (s.put p o) A where
  capacity_eq := h.capacity_eq
  freeList := by
    obtain ⟨fl, hfl⟩ := h.freeList
    exact ⟨fl, hfl.rewritten (put_rewritten ((h.live_iff p).mpr hp) o)⟩
  live_iff q := by rw [live_put, h.live_iff]

/-- **`allocate`** fails when all slots are held, and else hands out another one. -/
theorem Holding.allocate_cases (h : Holding capacity s A) :
    (s.allocate = (none, s) ∧ A.card = capacity) ∨
      ∃ p, s.allocate = (some p, s.taken p) ∧ p < capacity ∧ p ∉ A ∧ A.card < capacity ∧
        Holding capacity (s.taken p) (insert p A) := by
  obtain ⟨fl, hfl⟩ := h.freeList
  have hcard := h.card_add hfl
  cases fl with
  | nil => exact Or.inl ⟨hfl.allocate_nil, hcard⟩
  | cons p fl =>
    obtain ⟨hlt, hfree⟩ := (hfl.mem_iff p).mp List.mem_cons_self
    rw [List.length_cons] at hcard
    exact Or.inr ⟨p, hfl.allocate_cons.1, h.capacity_eq ▸ hlt, (h.not_live_iff p).mp hfree,
      by omega, h.taken hfl⟩

/-- **Every run** keeps the invariant. -/
theorem Reaches.holding (h : Reaches capacity s A) : Holding capacity s A := by
  induction h with
  | new hs =>
    obtain ⟨-, rfl⟩ := construct_eq_ok_iff.mp hs
    exact holding_new capacity
  | exhausted _ ha ih =>
    rcases ih.allocate_cases with ⟨heq, -⟩ | ⟨p, heq, -⟩
    · obtain ⟨-, rfl⟩ := Prod.mk.inj (heq.symm.trans ha)
      exact ih
    · nomatch (Prod.mk.inj (heq.symm.trans ha)).1
  | allocate _ ha ih =>
    rcases ih.allocate_cases with ⟨heq, -⟩ | ⟨p, heq, -, -, -, htaken⟩
    · nomatch (Prod.mk.inj (heq.symm.trans ha)).1
    · obtain ⟨hp, rfl⟩ := Prod.mk.inj (heq.symm.trans ha)
      obtain rfl := Option.some.inj hp
      exact htaken
  | deallocate _ hp hd ih =>
    obtain ⟨hdealloc, hback⟩ := ih.returned hp
    rw [hdealloc] at hd
    exact Except.ok.inj hd ▸ hback
  | overwrite _ hp o hw ih =>
    rw [write_eq ((ih.live_iff _).mpr hp)] at hw
    exact Except.ok.inj hw ▸ ih.put hp o

/-! ### What the invariant says -/

/-- Handing out a slot writes to none. -/
theorem taken_value (s : SlabAllocator) (p q : Ptr) :
    ((s.taken p).storage q).value = (s.storage q).value := by
  rcases eq_or_ne q p with rfl | hq
  · rw [taken_storage_self]
  · rw [taken_storage_of_ne hq]

theorem Holding.toAccounts (h : Holding capacity s A) : Accounts capacity s A := by
  obtain ⟨fl, hfl⟩ := h.freeList
  have hcard := h.card_add hfl
  have hadd := hfl.inUse_add
  have hlt := hfl.live_lt
  have hmem := hfl.mem_iff
  rw [h.capacity_eq] at hadd hlt hmem
  refine ⟨fun p hp => hlt p ((h.live_iff p).mpr hp), ?_, ?_, by omega,
    ⟨fl, hfl.chain, hfl.nodup, fun p => by rw [hmem, h.not_live_iff]⟩, ?_, ?_, ?_⟩
  · rcases h.allocate_cases with ⟨heq, hfull⟩ | ⟨p, heq, -, -, hroom, -⟩
    · rw [heq]
      exact iff_of_true rfl hfull
    · rw [heq]
      exact iff_of_false nofun hroom.ne
  · intro q hq
    rcases h.allocate_cases with ⟨heq, -⟩ | ⟨p, heq, hp, hnot, -, -⟩
    · rw [heq] at hq
      nomatch hq
    · rw [heq] at hq
      obtain rfl := Option.some.inj hq
      exact ⟨hp, hnot⟩
  · intro q _
    rcases h.allocate_cases with ⟨heq, -⟩ | ⟨p, heq, -⟩
    · rw [heq]
    · rw [heq]
      exact taken_value s p q
  · intro p hp
    refine ⟨_, (h.returned hp).1, fun q hq => ?_⟩
    rw [returned_storage_of_ne (Finset.ne_of_mem_erase hq)]
  · exact fun p hp o => ⟨_, write_eq ((h.live_iff p).mpr hp) _⟩

theorem Reaches.accounts (h : Reaches capacity s A) : Accounts capacity s A :=
  h.holding.toAccounts

/-- The constructor makes a slab, and every run of a client on it is as it is to be. -/
structure NeverTwice (capacity : ℕ) : Prop where
  constructed : ∃ s, construct capacity = .ok s
  accounts : ∀ s A, Reaches capacity s A → Accounts capacity s A

/-- **No slot is handed out twice**, in any run, as long as the size of the block does not wrap
around. -/
theorem neverTwice_iff (capacity : ℕ) :
    NeverTwice capacity ↔ capacity * slotBytes < 2 ^ 64 := by
  constructor
  · rintro ⟨⟨s, hs⟩, -⟩
    exact (construct_eq_ok_iff.mp hs).1
  · exact fun hfits => ⟨⟨_, construct_eq hfits⟩, fun _ _ => Reaches.accounts⟩

/-- The block for `2 ^ 61` slots has no byte. -/
theorem wrapped_not_neverTwice :
    blockBytes (2 ^ 61) = 0 ∧ ¬∀ capacity < 2 ^ 64, NeverTwice capacity := by
  refine ⟨by decide, fun hall => ?_⟩
  obtain ⟨s, hs⟩ := (hall (2 ^ 61) (by decide)).constructed
  exact absurd (construct_eq_ok_iff.mp hs).1 (by decide)

/-- Two slots are taken, one is overwritten, and the other is given back. -/
example : ∃ s, Reaches 2 s {0} ∧ (s.storage 0).value.prev = some 1 := by
  have hnew : Reaches 2 _ ∅ := .new rfl
  have h₀ := hnew.allocate (p := 0) rfl
  have h₁ := h₀.allocate (p := 1) rfl
  have h₂ := h₁.overwrite (p := 0) (by decide) { prev := some 1 } rfl
  have h₃ := h₂.deallocate (p := 1) (by decide) rfl
  exact ⟨_, h₃, rfl⟩

end Lob.SlabAllocator
