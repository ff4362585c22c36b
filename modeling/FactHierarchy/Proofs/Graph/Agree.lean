import FactHierarchy.Proofs.Graph.Membership

/-!
# Graphs that agree about some facts

Two graphs *agree* about the facts of a kind when they hold the same ones in the same order
(`Graph.Agree`). A question about facts of this kind has one answer in both (`Agree.filter_eq`).

Writing the same into two graphs keeps them in agreement, whatever it is (`Agree.put`,
`Agree.discard`), and so does writing facts of other kinds into one of them (`Graph.agree_put`,
`Graph.agree_discard`).
-/

set_option autoImplicit false

namespace FactHierarchy.Graph

/-- **The graphs have the same facts of a kind**, in the same order. -/
def Agree (P : Fact → Bool) (g g' : Graph) : Prop := g.toList.filter P = g'.toList.filter P

variable {P : Fact → Bool} {g g' g'' : Graph}

namespace Agree

theorem refl (P : Fact → Bool) (g : Graph) : Agree P g g := rfl

theorem symm (h : Agree P g g') : Agree P g' g := Eq.symm h

theorem trans (h : Agree P g g') (h' : Agree P g' g'') : Agree P g g'' := Eq.trans h h'

variable (h : Agree P g g')
include h

theorem mem_iff {f : Fact} (hf : P f = true) : f ∈ g.toList ↔ f ∈ g'.toList := by
  have hmem : f ∈ g.toList.filter P ↔ f ∈ g'.toList.filter P := by rw [h]
  simpa only [List.mem_filter, hf, and_true] using hmem

/-! ## Questions -/

/-- **Where all matching facts are of the kind, a query has one answer.** -/
theorem filter_eq {p : Pattern} (hg : ∀ f ∈ g.toList, p.fits f = true → P f = true)
    (hg' : ∀ f ∈ g'.toList, p.fits f = true → P f = true) : g.filter p = g'.filter p := by
  have hscan : ∀ l : List Fact, (∀ f ∈ l, p.fits f = true → P f = true) →
      l.filter p.fits = (l.filter P).filter p.fits := by
    intro l hl
    rw [List.filter_filter]
    refine List.filter_congr fun f hmem => ?_
    by_cases hf : p.fits f = true
    · simp [hf, hl f hmem hf]
    · simp [hf]
  rw [Graph.filter_eq, Graph.filter_eq, hscan g.toList hg, hscan g'.toList hg']
  exact congrArg _ h

theorem objects_eq {s q : Node} (hP : ∀ t, P ⟨s, q, t⟩ = true) :
    g.objects s q = g'.objects s q := by
  have hfits : ∀ f : Fact, (Pattern.about s q).fits f = true → P f = true := by
    intro f hf
    obtain ⟨rfl, rfl⟩ := Pattern.fits_about.1 hf
    exact hP f.object
  rw [objects, objects, h.filter_eq (fun f _ => hfits f) (fun f _ => hfits f)]

theorem any_about_eq {s q : Node} (hP : ∀ t, P ⟨s, q, t⟩ = true) :
    g.any (.about s q) = g'.any (.about s q) := by
  rw [Bool.eq_iff_iff, any_about_iff, any_about_iff, h.objects_eq hP]

/-! ## The same written into both -/

theorem put (f : Fact) : Agree P (g.put f) (g'.put f) := by
  have hend : ∀ k : Graph, (k.put f).toList.filter P =
      if P f = true ∧ f ∉ k.toList.filter P then k.toList.filter P ++ [f]
      else k.toList.filter P := by
    intro k
    rw [toList_put]
    by_cases hmem : f ∈ k.toList <;> by_cases hf : P f = true <;> simp [hmem, hf]
  rw [Agree, hend, hend, h]

theorem discard (p : Pattern) : Agree P (g.discard p).2 (g'.discard p).2 := by
  have hswap : ∀ k : Graph, (k.discard p).2.toList.filter P =
      (k.toList.filter P).filter fun f => !p.fits f := by
    intro k
    rw [toList_discard, List.filter_filter, List.filter_filter]
    exact List.filter_congr fun f _ => Bool.and_comm ..
  rw [Agree, hswap, hswap, h]

theorem extend (facts : List Fact) : Agree P (g.extend facts) (g'.extend facts) := by
  induction facts generalizing g g' with
  | nil => exact h
  | cons f facts ih => exact ih (h.put f)

end Agree

/-! ## Facts of other kinds -/

theorem agree_put {f : Fact} (hf : P f = false) : Agree P (g.put f) g := by
  rw [Agree, toList_put]
  split
  · rfl
  · simp [hf]

theorem agree_discard {p : Pattern} (hp : ∀ f, p.fits f = true → P f = false) :
    Agree P (g.discard p).2 g := by
  rw [Agree, toList_discard, List.filter_filter]
  refine List.filter_congr fun f _ => ?_
  by_cases hf : p.fits f = true
  · rw [hp f hf, Bool.false_and]
  · rw [Bool.not_eq_true] at hf
    rw [hf, Bool.not_false, Bool.and_true]

theorem agree_extend {facts : List Fact} (hfacts : ∀ f ∈ facts, P f = false) :
    Agree P (g.extend facts) g := by
  induction facts generalizing g with
  | nil => exact .refl P g
  | cons f facts ih =>
      obtain ⟨hf, hfacts⟩ := List.forall_mem_cons.1 hfacts
      exact (ih hfacts).trans (agree_put hf)

/-- A graph agrees about facts of a kind with the graph of these facts alone. -/
theorem agree_ofList_filter (P : Fact → Bool) (g : Graph) :
    (ofList (g.toList.filter P)).Agree P g := by
  rw [Agree, toList_ofList (g.nodup_toList.filter _), List.filter_filter]
  simp only [Bool.and_self]

end FactHierarchy.Graph
