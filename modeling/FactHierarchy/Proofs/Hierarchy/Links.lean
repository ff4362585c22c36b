import FactHierarchy.Proofs.Hierarchy.Reach

/-!
# The links that a descent meets

A descent enters a node once, but it meets a node once from each entered node above it. So the
meetings of a descent that ends show every link below an entered node
(`Hierarchy.exists_visit_iff`), those to nodes that were entered from elsewhere too.

This follows from one more invariant of the small steps (`Descent.Linked`): a node below an entered
one is still unread in the frame of the entered one, or it has been met from there.
-/

set_option autoImplicit false

namespace FactHierarchy

namespace Descent

variable {h : Hierarchy} {closed : Node → Bool} {d d' : Descent h} {c n : Node}
  {above : List Node}

/-- The node `n`, entered below the given chain, is being looked below, and `c` has not been met
from it yet. -/
def Unread (d : Descent h) (n : Node) (above : List Node) (c : Node) : Prop :=
  ∃ f ∈ d.frames, f.node = n ∧ f.above = above ∧ c ∈ f.unread

/-- **The nodes below an entered node** are unread, or they have been met from it. A `pending` node
is one that is about to be met at the end of a chain. -/
def Linked (pending : Option (Node × List Node)) (d : Descent h) : Prop :=
  ∀ n above, ⟨n, above, true⟩ ∈ d.visits → ∀ c ∈ h.below n,
    d.Unread n above c ∨ pending = some (c, n :: above) ∨
      ∃ entered, ⟨c, n :: above, entered⟩ ∈ d.visits

/-- Meeting the pending node keeps the invariant. -/
theorem Linked.meet (hd : d.Linked (some (n, above))) : (meet closed d n above).Linked none := by
  by_cases hknown : (closed n || d.hasEntered n) = true
  · rw [meet_of_known hknown]
    intro m above' hm c hc
    have hm : ⟨m, above', true⟩ ∈ d.visits := by
      refine (List.mem_cons.1 hm).resolve_left fun heq => ?_
      cases congrArg Visit.entered heq
    rcases hd m above' hm c hc with hunread | hpending | ⟨entered, hmet⟩
    · exact .inl hunread
    · obtain ⟨rfl, rfl⟩ := Prod.mk.inj (Option.some.inj hpending)
      exact .inr (.inr ⟨false, List.mem_cons_self ..⟩)
    · exact .inr (.inr ⟨entered, List.mem_cons_of_mem _ hmet⟩)
  · rw [meet_of_new hknown]
    intro m above' hm c hc
    rcases List.mem_cons.1 hm with heq | hm
    · -- everything below the new node is unread in its frame
      cases heq
      exact .inl ⟨_, List.mem_cons_self .., rfl, rfl, hc⟩
    · rcases hd m above' hm c hc with ⟨f, hf, hunread⟩ | hpending | ⟨entered, hmet⟩
      · exact .inl ⟨f, List.mem_cons_of_mem _ hf, hunread⟩
      · obtain ⟨rfl, rfl⟩ := Prod.mk.inj (Option.some.inj hpending)
        exact .inr (.inr ⟨true, List.mem_cons_self ..⟩)
      · exact .inr (.inr ⟨entered, List.mem_cons_of_mem _ hmet⟩)

/-- **Every step keeps the invariant.** -/
theorem Linked.step (hd : d.Linked none) (hs : d.step closed = .ok (some d')) :
    d'.Linked none := by
  obtain ⟨root, waiting, -, hframes, rfl⟩ | ⟨f, frames, hframes, hread, rfl⟩ |
    ⟨f, rest, frames, child, hframes, hunread, hnode, habove, -, rfl⟩ := step_cases hs
  · refine Linked.meet fun n above hn c hc => ?_
    rcases hd n above hn c hc with ⟨f, hf, -⟩ | hpending | hmet
    · rw [hframes] at hf
      cases hf
    · cases hpending
    · exact .inr (.inr hmet)
  · -- nothing is unread in the frame that is left
    intro n above hn c hc
    refine (hd n above hn c hc).imp_left ?_
    rintro ⟨f', hf', hnode', habove', hc'⟩
    rw [hframes] at hf'
    rcases List.mem_cons.1 hf' with rfl | hf'
    · rw [hread] at hc'
      cases hc'
    · exact ⟨f', hf', hnode', habove', hc'⟩
  · refine Linked.meet fun n above hn c hc => ?_
    rcases hd n above hn c hc with ⟨f', hf', rfl, rfl, hc'⟩ | hpending | hmet
    · rw [hframes] at hf'
      rcases List.mem_cons.1 hf' with rfl | hf'
      · rw [hunread] at hc'
        rcases List.mem_cons.1 hc' with rfl | hc'
        · exact .inr (.inl rfl)
        · exact .inl ⟨rest, List.mem_cons_self .., hnode, habove, hc'⟩
      · exact .inl ⟨f', List.mem_cons_of_mem _ hf', rfl, rfl, hc'⟩
    · cases hpending
    · exact .inr (.inr hmet)

theorem Linked.leadsTo (hd : d.Linked none) (hlead : d.LeadsTo closed d') : d'.Linked none := by
  induction hlead with
  | refl => exact hd
  | tail _ hs ih => exact ih.step hs

end Descent

namespace Hierarchy

variable {h : Hierarchy} {closed : Node → Bool} {roots : List Node} {visits : List Visit}
  {c n : Node} {above : List Node}

/-- **All nodes below an entered node are met from it**, in a descent that ends. -/
theorem exists_visit_of_entered (hd : h.descend closed roots = .ok visits)
    (hn : ⟨n, above, true⟩ ∈ visits) (hc : c ∈ h.below n) :
    ∃ entered, ⟨c, n :: above, entered⟩ ∈ visits := by
  obtain ⟨last, hlead, hend, rfl⟩ := Descent.exists_of_finish_eq_ok hd
  obtain ⟨-, hframes⟩ := Descent.eq_nil_of_step_eq_none hend
  have hstart : ({ waiting := roots } : Descent h).Linked none := fun _ _ hv => by cases hv
  rcases hstart.leadsTo hlead n above (List.mem_reverse.1 hn) c hc with ⟨f, hf, -⟩ | hp | hmet
  · rw [hframes] at hf
    cases hf
  · cases hp
  · exact hmet.imp fun _ => List.mem_reverse.2

/-- **The meetings of a descent show the links below the nodes that are reached**, and no others. -/
theorem exists_visit_iff (hd : h.descend closed roots = .ok visits) :
    (∃ visit ∈ visits, visit.node = c ∧ visit.above.head? = some n) ↔
      h.Reached closed roots n ∧ c ∈ h.below n := by
  have hexplored := explored_of_descend_eq_ok hd
  constructor
  · rintro ⟨⟨m, above, entered⟩, hvisit, rfl, habove⟩
    have horigin := hexplored.origin _ hvisit
    cases above with
    | nil => cases habove
    | cons p above =>
        obtain rfl : p = n := Option.some.inj habove
        exact ⟨hexplored.entered_iff.1 ⟨above, horigin.1⟩, horigin.2⟩
  · rintro ⟨hn, hc⟩
    obtain ⟨above, hvisit⟩ := hexplored.entered_iff.2 hn
    obtain ⟨entered, hmet⟩ := exists_visit_of_entered hd hvisit hc
    exact ⟨_, hmet, rfl, rfl⟩

end Hierarchy

end FactHierarchy
