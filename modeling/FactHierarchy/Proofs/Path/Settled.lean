import FactHierarchy.Proofs.Path.Pass

/-!
# Candidates for which nothing is left to be done

Candidates are *settled* in a graph when the roots among them have a path and none that has no path
stands below a loop (`Graph.Settled`). A path pass that succeeds settles its candidates, and later
passes keep them settled.

A pass for settled candidates succeeds and writes nothing (`Graph.Settled.writePaths_eq`): it
starts from roots that have a path already, and so it enters no node at all.
-/

set_option autoImplicit false

namespace FactHierarchy.Graph

variable {g g' : Graph} {v : Vocabulary} {base : String} {candidates others : List Node}
  {visits : List Visit}

/-- **A path pass for the candidates has nothing to write and nothing to report.** -/
structure Settled (v : Vocabulary) (candidates : List Node) (g : Graph) : Prop where
  roots : ∀ n ∈ g.roots v candidates, g.hasPath v n = true
  ascends : ∀ n ∈ candidates, g.hasPath v n = true ∨ Acc (g.hierarchy v).FirstParent n

/-- A path pass settles its candidates. -/
theorem PathPass.settled (hv : v.Distinct) (hpass : PathPass v base candidates visits g g') :
    g'.Settled v candidates := by
  have hp := hv.isAside_objectPath
  constructor
  · intro n hn
    rw [hpass.sameOff.roots_eq hp] at hn
    exact hpass.hasPath_iff.2 (hpass.explored.roots_met n hn)
  · intro n hn
    rw [hpass.sameOff.firstParent_eq hp]
    rcases hpass.ascends n hn with hentered | hpath | hacc
    · exact .inl (hpass.hasPath_iff.2 (.inr hentered))
    · exact .inl (hpass.hasPath_iff.2 (.inl hpath))
    · exact .inr hacc

namespace Settled

/-- What a path pass for other candidates does leaves candidates settled. -/
theorem pass (h : g.Settled v candidates) (hv : v.Distinct)
    (hpass : PathPass v base others visits g g') : g'.Settled v candidates := by
  have hp := hv.isAside_objectPath
  constructor
  · intro n hn
    rw [hpass.sameOff.roots_eq hp] at hn
    exact hpass.hasPath_iff.2 (.inl (h.roots n hn))
  · intro n hn
    rw [hpass.sameOff.firstParent_eq hp]
    exact (h.ascends n hn).imp_left fun hpath => hpass.hasPath_iff.2 (.inl hpath)

/-- So does a change under a predicate that has nothing to do with hierarchies and paths. -/
theorem sameOff {p : Node} (h : g.Settled v candidates) (hsame : SameOff p g g')
    (hp : v.IsAside p) (hpath : v.objectPath ≠ p) : g'.Settled v candidates := by
  constructor
  · intro n hn
    rw [hsame.roots_eq hp] at hn
    rw [hsame.hasPath_eq hpath]
    exact h.roots n hn
  · intro n hn
    rw [hsame.hasPath_eq hpath, hsame.firstParent_eq hp]
    exact h.ascends n hn

/-- **A path pass for settled candidates succeeds and leaves the graph as it is.** -/
theorem writePaths_eq (h : g.Settled v candidates) (rule base : String) :
    ∃ kept, g.writePaths v rule base candidates =
      .ok (⟨rule, g.roots v candidates, 0, kept⟩, g) := by
  cases hpaths : g.writePaths v rule base candidates with
  | error cause =>
      obtain ⟨chain, -, hchain | ⟨-, n, hn, hopen, hacc⟩⟩ := writePaths_eq_error hpaths
      · -- the chain starts from a root without a path
        obtain ⟨way, last, rfl, hlast, -, hway⟩ := hchain.returns
        obtain ⟨r, hr, hhead⟩ := hchain.head
        have hrway : r ∈ way := by
          cases way with
          | nil => cases hlast
          | cons m way =>
              obtain rfl : m = r := Option.some.inj hhead
              exact List.mem_cons_self ..
        have hpath := h.roots r hr
        rw [hway r hrway] at hpath
        cases hpath
      · rcases h.ascends n hn with hpath | hloopless
        · rw [hopen] at hpath
          cases hpath
        · exact absurd hloopless hacc
  | ok result =>
      obtain ⟨report, g'⟩ := result
      obtain ⟨visits, hpass, rfl⟩ := pathPass_of_writePaths hpaths
      -- all roots are closed, so there is no way in
      have hnone : enteredNodes visits = [] := by
        rw [List.eq_nil_iff_forall_not_mem]
        intro n hn
        exact hpass.explored.not_entered_of_closed h.roots (mem_enteredNodes.1 hn)
      have hvisits : visits.filter Visit.entered = [] := List.map_eq_nil_iff.1 hnone
      have hsame : g' = g := by
        rw [hpass.eq_extend, hvisits]
        rfl
      rw [hnone, hsame]
      exact ⟨_, rfl⟩

end Settled

end FactHierarchy.Graph
