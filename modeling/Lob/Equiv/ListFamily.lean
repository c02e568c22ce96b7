import Lob.Equiv.IntrusiveList

/-!
# A family of intrusive lists

Lists over one memory behave as independent sequences (`run_represents`).  The invariant `Holds`
has each list linked through its own nodes, and no node on two lists.  A call relinks nodes of its
own list only, so that the other lists stay as they are (`Holds.update`).  The links left behind in
a node that has been removed are read by no list.
-/

namespace Lob.IntrusiveList

open Links SlabAllocator

variable {ι : Type} {f f' : Family ι} {mem mem' : SlabAllocator} {ps : ι → List Ptr}
  {c : Call ι} {cs : List (Call ι)} {i : ι} {node : Ptr}

/-- The list `i` of the family is the sequence `ps i`, read forward and backward. -/
structure Represents (f : Family ι) (ps : ι → List Ptr) : Prop where
  forward : ∀ i, Chain f.mem.nextOf (f.lists i).head (ps i)
  backward : ∀ i, Chain f.mem.prevOf (f.lists i).tail (ps i).reverse
  nodup : ∀ i, (ps i).Nodup
  disjoint : ∀ i j, i ≠ j → ∀ p ∈ ps i, p ∉ ps j
  isEmpty_iff : ∀ i, (f.lists i).isEmpty = true ↔ ps i = []

/-- The invariant of a run in the memory `mem`. -/
structure Holds (mem : SlabAllocator) (f : Family ι) (ps : ι → List Ptr) : Prop where
  linked : ∀ i, (f.lists i).Linked f.mem (ps i)
  disjoint : ∀ i j, i ≠ j → ∀ p ∈ ps i, p ∉ ps j
  live : ∀ i, ∀ p ∈ ps i, (f.mem.storage p).live = true
  live_eq : ∀ p, (f.mem.storage p).live = (mem.storage p).live

theorem holds_nil (mem : SlabAllocator) :
    Holds mem { lists := fun _ => {}, mem } (fun _ : ι => []) where
  linked _ := linked_nil
  disjoint _ _ _ _ hp := nomatch hp
  live _ _ hp := nomatch hp
  live_eq _ := rfl

theorem Holds.represents (h : Holds mem f ps) : Represents f ps where
  forward i := (h.linked i).chain_next
  backward i := (h.linked i).chain_prev
  nodup i := (h.linked i).nodup
  disjoint := h.disjoint
  isEmpty_iff i := by
    unfold isEmpty
    rw [(h.linked i).head_eq, Option.isNone_iff_eq_none, List.head?_eq_none_iff]

variable [DecidableEq ι]

/-- The nodes `qs`, which are on no other list, are relinked, and the list `i` is left with those
in `qs'`. -/
theorem Holds.update (h : Holds mem f ps) {l : IntrusiveList} {qs qs' : List Ptr}
    (hl : l.Linked mem' qs') (hrel : Relinked f.mem mem' qs) (hsub : qs' ⊆ qs)
    (hqs : ∀ p ∈ qs, (f.mem.storage p).live = true ∧ ∀ j, j ≠ i → p ∉ ps j) :
    Holds mem { lists := Function.update f.lists i l, mem := mem' }
      (Function.update ps i qs') where
  linked j := by
    show (Function.update f.lists i l j).Linked mem' (Function.update ps i qs' j)
    rcases eq_or_ne j i with rfl | hj
    · rw [Function.update_self, Function.update_self]
      exact hl
    · rw [Function.update_of_ne hj, Function.update_of_ne hj]
      exact (h.linked j).of_storage_eq fun p hp =>
        hrel.unlinked_eq p fun hmem => (hqs p hmem).2 j hj hp
  disjoint j k hjk p hp hp' := by
    rcases eq_or_ne j i with rfl | hj
    · rw [Function.update_self] at hp
      rw [Function.update_of_ne hjk.symm] at hp'
      exact (hqs p (hsub hp)).2 k hjk.symm hp'
    · rw [Function.update_of_ne hj] at hp
      rcases eq_or_ne k i with rfl | hk
      · rw [Function.update_self] at hp'
        exact (hqs p (hsub hp')).2 j hj hp
      · rw [Function.update_of_ne hk] at hp'
        exact h.disjoint j k hjk p hp hp'
  live j p hp := by
    rw [hrel.rewritten.live_eq]
    rcases eq_or_ne j i with rfl | hj
    · rw [Function.update_self] at hp
      exact (hqs p (hsub hp)).1
    · rw [Function.update_of_ne hj] at hp
      exact h.live j p hp
  live_eq p := (hrel.rewritten.live_eq p).trans (h.live_eq p)

theorem Holds.pushBack (h : Holds mem f ps) (hlive : (mem.storage node).live = true)
    (hnode : ∀ j, node ∉ ps j) :
    ∃ f', f.call (.pushBack i node) = .ok f' ∧
      Holds mem f' (Function.update ps i (ps i ++ [node])) := by
  have hqs : ∀ p ∈ ps i ++ [node], (f.mem.storage p).live = true ∧ ∀ j, j ≠ i → p ∉ ps j := by
    intro p hp
    rcases List.mem_append.mp hp with hp | hp
    · exact ⟨h.live i p hp, fun j hj => h.disjoint i j hj.symm p hp⟩
    · obtain rfl := List.mem_singleton.mp hp
      exact ⟨(h.live_eq p).trans hlive, fun j _ => hnode j⟩
  obtain ⟨l, mem', heq, hl, hrel⟩ := pushBack_linked (h.linked i) (hnode i) fun p hp => (hqs p hp).1
  refine ⟨_, ?_, h.update hl hrel (List.Subset.refl _) hqs⟩
  show ((f.lists i).pushBack f.mem node >>= _) = _
  rw [heq]
  rfl

theorem Holds.unlink (h : Holds mem f ps) (hnode : node ∈ ps i) :
    ∃ f', f.call (.unlink i node) = .ok f' ∧
      Holds mem f' (Function.update ps i ((ps i).erase node)) := by
  have hqs : ∀ p ∈ ps i, (f.mem.storage p).live = true ∧ ∀ j, j ≠ i → p ∉ ps j :=
    fun p hp => ⟨h.live i p hp, fun j hj => h.disjoint i j hj.symm p hp⟩
  have hlinked := h.linked i
  have hnodup := hlinked.nodup
  obtain ⟨xs, ys, hxs⟩ := List.append_of_mem hnode
  rw [hxs] at hlinked hnodup
  -- the node is on the list once
  have herase : (ps i).erase node = xs ++ ys := by
    have hnot : node ∉ xs := fun hmem =>
      (List.nodup_append.mp hnodup).2.2 node hmem node (List.mem_cons_self ..) rfl
    rw [hxs, List.erase_append_right _ hnot, List.erase_cons_head]
  obtain ⟨l, mem', heq, hl, hrel⟩ := unlink_linked hlinked fun p hp => h.live i p (hxs ▸ hp)
  rw [← herase] at hl
  rw [← hxs] at hrel
  refine ⟨_, ?_, h.update hl hrel (List.erase_subset ..) hqs⟩
  show ((f.lists i).unlink f.mem node >>= _) = _
  rw [heq]
  rfl

/-- **A call** does to the sequences what it says. -/
theorem Holds.call (h : Holds mem f ps) (hc : c.Proper mem ps) :
    ∃ f', f.call c = .ok f' ∧ Holds mem f' (c.apply ps) := by
  cases c with
  | pushBack i node => exact h.pushBack hc.1 hc.2
  | unlink i node => exact h.unlink hc

theorem Holds.run (h : Holds mem f ps) (hcs : AllProper mem ps cs) :
    ∃ f', f.run cs = .ok f' ∧ Holds mem f' (applyAll ps cs) := by
  induction cs generalizing f ps with
  | nil => exact ⟨f, rfl, h⟩
  | cons c cs ih =>
    obtain ⟨f₁, hcall, h₁⟩ := h.call hcs.1
    obtain ⟨f', hrun, h'⟩ := ih h₁ hcs.2
    refine ⟨f', ?_, h'⟩
    show (f.call c >>= _) = _
    rw [hcall]
    exact hrun

/-- **Independent sequences.**  From empty lists in any memory, whatever its links, every run
represents the sequences that its calls make. -/
theorem run_represents (mem : SlabAllocator) {cs : List (Call ι)}
    (hcs : AllProper mem (fun _ => []) cs) :
    ∃ f, ({ lists := fun _ => {}, mem } : Family ι).run cs = .ok f ∧
      Represents f (applyAll (fun _ => []) cs) := by
  obtain ⟨f, hrun, h⟩ := (holds_nil mem).run hcs
  exact ⟨f, hrun, h.represents⟩

/-- A memory in which three nodes are handed out, linked to themselves. -/
def selfLinked : SlabAllocator where
  capacity := 3
  storage p := { value := { prev := some p, next := some p }, live := decide (p < 3) }
  freeHead := none
  inUse := 3

/-- A node moves from one list to the other. -/
theorem moved_run_represents :
    AllProper selfLinked (fun _ : Bool => []) [.pushBack false 0, .pushBack false 1,
      .pushBack true 2, .unlink false 0, .pushBack true 0] ∧
    ∃ f, ({ lists := fun _ => {}, mem := selfLinked } : Family Bool).run [.pushBack false 0,
        .pushBack false 1, .pushBack true 2, .unlink false 0, .pushBack true 0] = .ok f ∧
      Represents f (applyAll (fun _ => []) [.pushBack false 0, .pushBack false 1,
        .pushBack true 2, .unlink false 0, .pushBack true 0]) := by
  have hproper : AllProper selfLinked (fun _ : Bool => []) [.pushBack false 0, .pushBack false 1,
      .pushBack true 2, .unlink false 0, .pushBack true 0] :=
    ⟨⟨rfl, by decide⟩, ⟨rfl, by decide⟩, ⟨rfl, by decide⟩, List.mem_cons_self, ⟨rfl, by decide⟩,
      trivial⟩
  exact ⟨hproper, run_represents selfLinked hproper⟩

end Lob.IntrusiveList
