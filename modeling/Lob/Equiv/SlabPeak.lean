import Lob.Equiv.SlabRuns
import Mathlib.Logic.Relation

/-!
# The slots of a slab that are used

The free list is last in, first out, over the slots in ascending order, so that a new slot is
handed out only when none is left of those that were handed out before.  As long as no more than
`n` slots are in use, they are among the first `n`, and the memory from there on is as the
constructor left it (`Warm`).
-/

namespace Lob.SlabAllocator

variable {s s' : SlabAllocator} {A : Finset Ptr} {p : Ptr} {capacity n : ℕ}

/-! ### What a client does -/

/-- A slot that is handed out is written to. -/
inductive Written (s s' : SlabAllocator) : Prop where
  | write {p : Ptr} {f : Order → Order} (h : s.write p f = .ok s')

/-- A slot that is handed out is written to, or given back. -/
inductive Drained (s s' : SlabAllocator) : Prop where
  | write (h : Written s s')
  | deallocate {p : Ptr} (h : s.deallocate p = .ok s')

abbrev Writes : SlabAllocator → SlabAllocator → Prop := Relation.ReflTransGen Written

abbrev Drains : SlabAllocator → SlabAllocator → Prop := Relation.ReflTransGen Drained

theorem Writes.drains (h : Writes s s') : Drains s s' :=
  Relation.ReflTransGen.mono (fun _ _ => Drained.write) _ _ h

theorem Written.eq_put (h : Written s s') : ∃ p o, (s.storage p).live = true ∧ s' = s.put p o := by
  obtain ⟨h⟩ := h
  unfold SlabAllocator.write at h
  split_ifs at h with hlive
  cases h
  exact ⟨_, _, hlive, rfl⟩

theorem deallocate_eq (h : s.deallocate p = .ok s') :
    (s.storage p).live = true ∧ s' = s.returned p := by
  unfold deallocate at h
  split_ifs at h with hlive
  cases h
  exact ⟨hlive, rfl⟩

theorem Writes.inUse (h : Writes s s') : s'.inUse = s.inUse := by
  induction h with
  | refl => rfl
  | tail _ hw ih =>
    obtain ⟨p, o, -, rfl⟩ := hw.eq_put
    exact ih

/-- **A client that writes and gives back** only what it holds is one of `Reaches`. -/
theorem Drains.reaches (h : Drains s s') (hs : Reaches capacity s A) :
    ∃ A', Reaches capacity s' A' := by
  induction h with
  | refl => exact ⟨A, hs⟩
  | tail _ hd ih =>
    obtain ⟨A', hs'⟩ := ih
    cases hd with
    | write hw =>
      obtain ⟨p, o, hlive, rfl⟩ := hw.eq_put
      exact ⟨A', hs'.overwrite ((hs'.holding.live_iff p).mp hlive) o (write_eq hlive _)⟩
    | deallocate hd =>
      exact ⟨_, hs'.deallocate ((hs'.holding.live_iff _).mp (deallocate_eq hd).1) hd⟩

/-! ### The slots from `n` on -/

/-- The slots from `n` on are as the constructor left them, at the end of the free list. -/
structure Warm (capacity n : ℕ) (s : SlabAllocator) : Prop where
  capacity_eq : s.capacity = capacity
  freeList : ∃ fl, FreeList s (fl ++ List.range' n (capacity - n)) ∧ ∀ p ∈ fl, p < n
  cold : ∀ p, n ≤ p → s.storage p = (new capacity).storage p

theorem Warm.lt_of_live (h : Warm capacity n s) (hp : (s.storage p).live = true) : p < n := by
  by_contra hge
  rw [h.cold p (not_lt.mp hge), new_live] at hp
  cases hp

theorem warm_new (capacity n : ℕ) : Warm capacity n (new capacity) where
  capacity_eq := capacity_new capacity
  freeList := by
    refine ⟨List.range (min n capacity), ?_, fun p hp => ?_⟩
    · have hsplit : List.range (min n capacity) ++ List.range' n (capacity - n) =
          List.range capacity := by
        rw [List.range_eq_range', List.range_eq_range']
        rcases Nat.le_total n capacity with hle | hle
        · rw [min_eq_left hle]
          have happend := @List.range'_append_1 0 n (capacity - n)
          rwa [Nat.zero_add, Nat.add_sub_cancel' hle] at happend
        · rw [Nat.sub_eq_zero_of_le hle, min_eq_right hle, List.range'_zero, List.append_nil]
      rw [hsplit]
      exact new_freeList capacity
    · exact (List.mem_range.mp hp).trans_le (min_le_left _ _)
  cold _ _ := rfl

theorem Warm.put (h : Warm capacity n s) (hp : (s.storage p).live = true) (o : Order) :
    Warm capacity n (s.put p o) where
  capacity_eq := h.capacity_eq
  freeList := by
    obtain ⟨fl, hfl, hlt⟩ := h.freeList
    exact ⟨fl, hfl.rewritten (put_rewritten hp o), hlt⟩
  cold q hq := by
    rw [put_storage_of_ne o ((h.lt_of_live hp).trans_le hq).ne', h.cold q hq]

theorem Warm.returned (h : Warm capacity n s) (hp : (s.storage p).live = true) :
    Warm capacity n (s.returned p) where
  capacity_eq := h.capacity_eq
  freeList := by
    obtain ⟨fl, hfl, hlt⟩ := h.freeList
    refine ⟨p :: fl, (hfl.deallocate hp).2, fun q hq => ?_⟩
    rcases List.mem_cons.mp hq with rfl | hq
    · exact h.lt_of_live hp
    · exact hlt q hq
  cold q hq := by
    rw [returned_storage_of_ne ((h.lt_of_live hp).trans_le hq).ne', h.cold q hq]

theorem Warm.drains (h : Warm capacity n s) (hd : Drains s s') : Warm capacity n s' := by
  induction hd with
  | refl => exact h
  | tail _ hd ih =>
    cases hd with
    | write hw =>
      obtain ⟨p, o, hlive, rfl⟩ := hw.eq_put
      exact ih.put hlive o
    | deallocate hd =>
      obtain ⟨hlive, rfl⟩ := deallocate_eq hd
      exact ih.returned hlive

/-- **A slot that is taken is one of the first `n`**, if no more than `n` are then in use. -/
theorem Warm.allocate (h : Warm capacity n s) (ha : s.allocate = (some p, s'))
    (hn : s'.inUse ≤ n) : Warm capacity n s' := by
  obtain ⟨fl, hfl, hlt⟩ := h.freeList
  have hadd := hfl.inUse_add
  rw [List.length_append, List.length_range', h.capacity_eq] at hadd
  cases fl with
  | nil =>
    -- all of the first `n` slots are in use, or all slots
    rw [List.nil_append] at hfl
    cases hcold : List.range' n (capacity - n) with
    | nil =>
      rw [hcold] at hfl
      rw [hfl.allocate_nil] at ha
      cases ha
    | cons q fl =>
      rw [hcold] at hfl
      rw [hfl.allocate_cons.1] at ha
      cases ha
      have hpos := congrArg List.length hcold
      rw [List.length_range', List.length_cons] at hpos
      have hn : s.inUse + 1 ≤ n := hn
      rw [List.length_nil] at hadd
      omega
  | cons q fl =>
    obtain ⟨hallocate, htaken, -⟩ := hfl.allocate_cons
    rw [hallocate] at ha
    cases ha
    refine ⟨h.capacity_eq, ⟨fl, htaken, fun r hr => hlt r (List.mem_cons_of_mem _ hr)⟩,
      fun r hr => ?_⟩
    rw [taken_storage_of_ne ((hlt _ List.mem_cons_self).trans_le hr).ne', h.cold r hr]

/-- At its peak a slab has its first slots in use, without a gap. -/
theorem Warm.live_iff (h : Warm capacity n s) (hn : s.inUse = n) (p : Ptr) :
    (s.storage p).live = true ↔ p < n := by
  refine ⟨h.lt_of_live, fun hp => ?_⟩
  obtain ⟨fl, hfl, -⟩ := h.freeList
  have hadd := hfl.inUse_add
  rw [List.length_append, List.length_range', h.capacity_eq] at hadd
  have hle : n ≤ capacity := by omega
  obtain rfl : fl = [] := List.length_eq_zero_iff.mp (by omega)
  by_contra hnot
  have hmem := (hfl.mem_iff p).mpr
    ⟨h.capacity_eq ▸ lt_of_lt_of_le hp hle, Bool.not_eq_true _ ▸ hnot⟩
  rw [List.nil_append, List.mem_range'_1] at hmem
  exact absurd hp (not_lt.mpr hmem.1)

end Lob.SlabAllocator
