import Lob.IntrusiveList
import Lob.Equiv.SlabAllocator

/-!
# Correctness of `IntrusiveList`

When the nodes that an operation touches are handed out, `pushBack` and `unlink` return, and the
slab they leave behind is the old one with other links (`pushBack_eq`, `unlink_eq`).  On a linked
list, `pushBack_linked` and `unlink_linked` say what sequence the new links make.
-/

namespace Lob.IntrusiveList

open Links SlabAllocator

variable {l : IntrusiveList} {mem : SlabAllocator} {node : Ptr}

/-! ### The operations as changes of links -/

theorem put_eq_relink (mem : SlabAllocator) (p : Ptr) (v w : Option Ptr) :
    mem.put p { (mem.storage p).value with prev := v, next := w } =
      mem.relink (Function.update mem.prevOf p v) (Function.update mem.nextOf p w) := by
  simp only [put, relink, SlabAllocator.mk.injEq, true_and, and_true]
  funext q
  rcases eq_or_ne q p with rfl | h
  · simp
  · simp only [Function.update_of_ne h]
    rfl

theorem put_next_eq_relink (p : Ptr) (w : Option Ptr) :
    mem.put p { (mem.storage p).value with next := w } =
      mem.relink mem.prevOf (Function.update mem.nextOf p w) := by
  have h := put_eq_relink mem p (mem.prevOf p) w
  rw [Function.update_eq_self] at h
  exact h

theorem put_prev_eq_relink (p : Ptr) (v : Option Ptr) :
    mem.put p { (mem.storage p).value with prev := v } =
      mem.relink (Function.update mem.prevOf p v) mem.nextOf := by
  have h := put_eq_relink mem p v (mem.nextOf p)
  rw [Function.update_eq_self] at h
  exact h

theorem pushBack_eq (hnode : (mem.storage node).live = true)
    (htail : ∀ t, l.tail = some t → (mem.storage t).live = true) :
    l.pushBack mem node =
      .ok ({ head := if l.tail.isSome then l.head else some node, tail := some node },
        mem.relink (Function.update mem.prevOf node l.tail)
          (setAt (Function.update mem.nextOf node none) l.tail (some node))) := by
  rw [pushBack, write_eq hnode, put_eq_relink]
  cases ht : l.tail with
  | none => rfl
  | some t =>
    show (SlabAllocator.write _ t _ >>= _) = _
    rw [write_eq (by simpa using htail t ht), put_next_eq_relink]
    rfl

theorem linkNext_eq {p : Option Ptr} (hp : ∀ q, p = some q → (mem.storage q).live = true)
    (n : Option Ptr) :
    l.linkNext mem p n =
      .ok ({ l with head := if p.isSome then l.head else n },
        mem.relink mem.prevOf (setAt mem.nextOf p n)) := by
  cases p with
  | none => rfl
  | some p =>
    rw [linkNext, write_eq (hp p rfl), put_next_eq_relink]
    rfl

theorem linkPrev_eq {n : Option Ptr} (hn : ∀ q, n = some q → (mem.storage q).live = true)
    (p : Option Ptr) :
    l.linkPrev mem p n =
      .ok ({ l with tail := if n.isSome then l.tail else p },
        mem.relink (setAt mem.prevOf n p) mem.nextOf) := by
  cases n with
  | none => rfl
  | some n =>
    rw [linkPrev, write_eq (hn n rfl), put_prev_eq_relink]
    rfl

theorem unlink_eq (hnode : (mem.storage node).live = true)
    (hnear : ∀ q, mem.prevOf node = some q ∨ mem.nextOf node = some q →
      (mem.storage q).live = true) :
    l.unlink mem node =
      .ok ({ head := if (mem.prevOf node).isSome then l.head else mem.nextOf node
             tail := if (mem.nextOf node).isSome then l.tail else mem.prevOf node },
        mem.relink (setAt mem.prevOf (mem.nextOf node) (mem.prevOf node))
          (setAt mem.nextOf (mem.prevOf node) (mem.nextOf node))) := by
  rw [unlink, read_eq hnode]
  show (l.linkNext mem (mem.prevOf node) (mem.nextOf node) >>= fun r =>
    r.1.linkPrev r.2 (mem.prevOf node) (mem.nextOf node)) = _
  -- the first of the two writes leaves every slot handed out
  rw [linkNext_eq fun q hq => hnear q (Or.inl hq)]
  exact linkPrev_eq (fun q hq => (live_relink _ _).trans (hnear q (Or.inr hq))) _

/-! ### The operations on a linked list -/

/-- The list `l` in the slab `mem` consists of the nodes `ps`. -/
abbrev Linked (l : IntrusiveList) (mem : SlabAllocator) (ps : List Ptr) : Prop :=
  Links.Linked mem.prevOf mem.nextOf l.head l.tail ps

/-- A list depends on the slots of its own nodes only. -/
theorem Linked.of_storage_eq {mem' : SlabAllocator} {ps : List Ptr} (h : l.Linked mem ps)
    (hsame : ∀ p ∈ ps, mem'.storage p = mem.storage p) : l.Linked mem' ps := by
  refine h.congr (fun p hp => ?_) fun p hp => ?_
  · rw [prevOf, hsame p hp]
    rfl
  · rw [nextOf, hsame p hp]
    rfl

/-- `s'` holds the same orders as `s`, up to the links of the nodes in `ps`. -/
structure Relinked (s s' : SlabAllocator) (ps : List Ptr) : Prop where
  rewritten : Rewritten s s'
  unlinked_eq : ∀ p, p ∉ ps → s'.storage p = s.storage p
  value_eq : ∀ p, (s'.storage p).value =
    { (s.storage p).value with prev := s'.prevOf p, next := s'.nextOf p }

theorem relink_relinked {ps : List Ptr} {f g : Ptr → Option Ptr}
    (hlive : ∀ p ∈ ps, (mem.storage p).live = true) (hf : ∀ p, p ∉ ps → f p = mem.prevOf p)
    (hg : ∀ p, p ∉ ps → g p = mem.nextOf p) : Relinked mem (mem.relink f g) ps where
  rewritten := by
    have hnot : ∀ p, (mem.storage p).live = false → p ∉ ps := fun p hp hmem => by
      rw [hlive p hmem] at hp
      cases hp
    exact relink_rewritten (fun p hp => hf p (hnot p hp)) fun p hp => hg p (hnot p hp)
  unlinked_eq p hp := by
    simp only [relink, hf p hp, hg p hp]
    rfl
  value_eq _ := rfl

theorem Relinked.trans {s s' s'' : SlabAllocator} {ps : List Ptr} (h : Relinked s s' ps)
    (h' : Relinked s' s'' ps) : Relinked s s'' ps where
  rewritten := h.rewritten.trans h'.rewritten
  unlinked_eq p hp := (h'.unlinked_eq p hp).trans (h.unlinked_eq p hp)
  value_eq p := by rw [h'.value_eq p, h.value_eq p]

/-- A node with the links that it had is as it was. -/
theorem Relinked.storage_eq {s s' : SlabAllocator} {ps : List Ptr} {p : Ptr}
    (h : Relinked s s' ps) (hprev : s'.prevOf p = s.prevOf p) (hnext : s'.nextOf p = s.nextOf p) :
    s'.storage p = s.storage p := by
  have hvalue := h.value_eq p
  rw [hprev, hnext] at hvalue
  have hlive := h.rewritten.live_eq p
  cases hs : s'.storage p
  rw [hs] at hvalue hlive
  dsimp only at hvalue hlive
  rw [hvalue, hlive]
  rfl

/-- `push_back` appends the node. -/
theorem pushBack_linked {ps : List Ptr} (h : l.Linked mem ps) (hnode : node ∉ ps)
    (hlive : ∀ p ∈ ps ++ [node], (mem.storage p).live = true) :
    ∃ l' mem', l.pushBack mem node = .ok (l', mem') ∧ l'.Linked mem' (ps ++ [node]) ∧
      Relinked mem mem' (ps ++ [node]) := by
  -- the one other node that is written to is the tail
  have htail : ∀ t, l.tail = some t → t ∈ ps := fun t ht =>
    List.mem_of_getLast? (h.tail_eq ▸ ht)
  refine ⟨_, _, pushBack_eq (hlive node (by simp)) fun t ht =>
    hlive t (by simp [htail t ht]), h.pushBack hnode, relink_relinked hlive ?_ ?_⟩
  · intro p hp
    rw [Function.update_of_ne]
    rintro rfl
    exact hp (by simp)
  · intro p hp
    rw [setAt_of_ne fun ht => hp (by simp [htail p ht]), Function.update_of_ne]
    rintro rfl
    exact hp (by simp)

/-- `unlink` removes the node. -/
theorem unlink_linked {xs ys : List Ptr} (h : l.Linked mem (xs ++ node :: ys))
    (hlive : ∀ p ∈ xs ++ node :: ys, (mem.storage p).live = true) :
    ∃ l' mem', l.unlink mem node = .ok (l', mem') ∧ l'.Linked mem' (xs ++ ys) ∧
      Relinked mem mem' (xs ++ node :: ys) := by
  have hmem : node ∈ xs ++ node :: ys := by simp
  -- the other nodes that are written to are the neighbours
  have hnear := fun q => h.neighbours_mem (q := q) hmem
  refine ⟨_, _, unlink_eq (hlive node hmem) fun q hq => hlive q (hnear q hq), h.unlink,
    relink_relinked hlive ?_ ?_⟩
  · exact fun p hp => setAt_of_ne fun heq => hp (hnear p (Or.inr heq))
  · exact fun p hp => setAt_of_ne fun heq => hp (hnear p (Or.inl heq))

/-- **`push_back` and the `unlink` of the same node** leave the list and the other nodes as they
were. -/
theorem unlink_pushBack {ps : List Ptr} (h : l.Linked mem ps) (hnode : node ∉ ps)
    (hlive : ∀ p ∈ ps ++ [node], (mem.storage p).live = true) :
    ∃ l₁ mem₁ mem₂, l.pushBack mem node = .ok (l₁, mem₁) ∧
      l₁.unlink mem₁ node = .ok (l, mem₂) ∧ Relinked mem mem₁ (ps ++ [node]) ∧
      Relinked mem₁ mem₂ (ps ++ [node]) ∧ ∀ p, p ≠ node → mem₂.storage p = mem.storage p := by
  obtain ⟨l₁, mem₁, hpush, hlinked, hrel⟩ := pushBack_linked h hnode hlive
  obtain ⟨l₂, mem₂, hunlink, hlinked₂, hrel₂⟩ := unlink_linked hlinked fun p hp =>
    (hrel.rewritten.live_eq p).trans (hlive p hp)
  rw [List.append_nil] at hlinked₂
  -- the ends and the links of a list are those of its nodes
  have hl : l₂ = l := by
    cases l
    cases l₂
    rw [IntrusiveList.mk.injEq]
    exact ⟨hlinked₂.head_eq.trans h.head_eq.symm, hlinked₂.tail_eq.trans h.tail_eq.symm⟩
  rw [hl] at hunlink
  refine ⟨l₁, mem₁, mem₂, hpush, hunlink, hrel, hrel₂, fun p hne => ?_⟩
  by_cases hp : p ∈ ps
  · obtain ⟨xs, ys, hps⟩ := List.append_of_mem hp
    rw [hps] at h hlinked₂
    obtain ⟨hprev, hnext⟩ := h.prev_next
    obtain ⟨hprev₂, hnext₂⟩ := hlinked₂.prev_next
    exact (hrel.trans hrel₂).storage_eq (hprev₂.trans hprev.symm) (hnext₂.trans hnext.symm)
  · have hnot : p ∉ ps ++ [node] := by simp [hp, hne]
    rw [hrel₂.unlinked_eq p hnot, hrel.unlinked_eq p hnot]

/-- **A round trip of a slot**: it is taken, filled with the order `o`, put at the end of the list
`l`, unlinked and given back.  The list, the free list and the other slots are as before. -/
theorem returned_unlink_pushBack {ps fl : List Ptr} (hfl : FreeList mem (node :: fl))
    (h : l.Linked mem ps) (hlive : ∀ p ∈ ps, (mem.storage p).live = true) (o : Order) :
    ∃ mem₁ l₂ mem₂ mem₃, (mem.taken node).write node (fun _ => o) = .ok mem₁ ∧
      l.pushBack mem₁ node = .ok (l₂, mem₂) ∧
      (∃ v w, mem₂.read node = .ok { o with prev := v, next := w }) ∧
      l₂.unlink mem₂ node = .ok (l, mem₃) ∧ mem₃.deallocate node = .ok (mem₃.returned node) ∧
      FreeList (mem₃.returned node) (node :: fl) ∧
      (mem₃.returned node).capacity = mem.capacity ∧ (mem₃.returned node).inUse = mem.inUse ∧
      (∀ p, ((mem₃.returned node).storage p).live = (mem.storage p).live) ∧
      ∀ p, p ≠ node → (mem₃.returned node).storage p = mem.storage p := by
  have hfree := hfl.allocate_cons.2.2
  have hne : ∀ p ∈ ps, p ≠ node := fun p hp heq => by
    have hp := hlive p hp
    rw [heq, hfree] at hp
    cases hp
  have htaken : ((mem.taken node).storage node).live = true := by rw [taken_storage_self]
  have hother : ∀ p, p ≠ node → ((mem.taken node).put node o).storage p = mem.storage p :=
    fun p hp => (put_storage_of_ne o hp).trans (taken_storage_of_ne hp)
  have hlinked := h.of_storage_eq fun p hp => hother p (hne p hp)
  have hnode : (((mem.taken node).put node o).storage node).live = true := by
    rw [live_put, htaken]
  have hlives : ∀ p ∈ ps ++ [node], (((mem.taken node).put node o).storage p).live = true := by
    intro p hp
    rcases List.mem_append.mp hp with hp | hp
    · rw [hother p (hne p hp)]
      exact hlive p hp
    · rw [List.mem_singleton.mp hp, hnode]
  obtain ⟨l₂, mem₂, mem₃, hpush, hunlink, hrel, hrel₂, hback⟩ :=
    unlink_pushBack hlinked (fun hp => hne node hp rfl) hlives
  have hread : mem₂.read node = .ok (mem₂.storage node).value :=
    read_eq ((hrel.rewritten.live_eq node).trans hnode)
  rw [hrel.value_eq node, put_storage_self] at hread
  obtain ⟨hdealloc, hfl', huse, hlive'⟩ := hfl.returned_taken
    ((put_rewritten htaken o).trans (hrel.trans hrel₂).rewritten)
  refine ⟨_, l₂, mem₂, mem₃, write_eq htaken _, hpush, ⟨_, _, hread⟩, hunlink, hdealloc, hfl', ?_,
    huse, hlive', fun p hp => ?_⟩
  · exact (hrel.trans hrel₂).rewritten.capacity_eq
  · rw [returned_storage_of_ne hp, hback p hp, hother p hp]

end Lob.IntrusiveList
