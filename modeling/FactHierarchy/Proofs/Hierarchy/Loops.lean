import FactHierarchy.Hierarchy.Ascent
import FactHierarchy.Proofs.Hierarchy.Exploration

/-!
# Loops

A relation is well-founded at a node only if no chain leads from the node back to it
(`not_transGen_self_of_acc`). The two ways in which a hierarchy is searched report loops as
chains: a descent that fails (`Hierarchy.RunsIntoItself.exists_loop`), and the way up from a node
(`Hierarchy.loopAbove?`), which finds a loop exactly when the way up does not end
(`Hierarchy.loopAbove?_eq_none_iff`), that is when it comes to a node on a loop
(`Hierarchy.not_acc_firstParent_iff`).
-/

set_option autoImplicit false

namespace FactHierarchy

theorem not_transGen_self_of_acc {α : Type} {r : α → α → Prop} {a : α} (h : Acc r a) :
    ¬Relation.TransGen r a a := by
  have hacc : Acc (Relation.TransGen r) a := h.transGen
  clear h
  induction hacc with
  | intro a _ ih => exact fun hloop => ih a hloop hloop

/-- A chain of at least two members leads from its first to its last member. -/
theorem transGen_of_isChain {α : Type} {r : α → α → Prop} {a b : α} {way : List α}
    (h : (a :: (way ++ [b])).IsChain r) : Relation.TransGen r a b := by
  induction way generalizing a with
  | nil => exact .single (List.isChain_pair.1 h)
  | cons c way ih =>
      rw [List.cons_append, List.isChain_cons_cons] at h
      exact .head h.1 (ih h.2)

/-- A list begins with what stands before the first occurrence of a member, and that member. -/
theorem takeWhile_append_prefix {α : Type} [DecidableEq α] {l : List α} {a : α} (h : a ∈ l) :
    l.takeWhile (· ≠ a) ++ [a] <+: l := by
  induction l with
  | nil => cases h
  | cons b l ih =>
      by_cases hb : b = a
      · subst hb
        simp
      · have hl := ih ((List.mem_cons.1 h).resolve_left (Ne.symm hb))
        rw [List.takeWhile_cons_of_pos (by simpa using hb), List.cons_append]
        exact List.cons_prefix_cons.2 ⟨rfl, hl⟩

namespace Hierarchy

variable {h : Hierarchy}

/-! ## Loops found on the way down -/

/-- A chain that runs into itself contains a loop. -/
theorem RunsIntoItself.exists_loop {closed : Node → Bool} {roots chain : List Node}
    (hc : h.RunsIntoItself closed roots chain) :
    ∃ n, Relation.TransGen (fun c p => c ∈ h.below p) n n := by
  obtain ⟨way, n, rfl, hn, -, -⟩ := hc.returns
  obtain ⟨before, after, rfl⟩ := List.append_of_mem hn
  have hloop : (n :: (after ++ [n])).IsChain fun p c => c ∈ h.below p := by
    have hdown := hc.descends
    rw [List.append_assoc, List.cons_append] at hdown
    exact hdown.right_of_append
  exact ⟨n, Relation.transGen_swap.1 (transGen_of_isChain hloop)⟩

/-! ## Loops found on the way up -/

/-- The second node is the parent that the first one names first. -/
def FirstParent (h : Hierarchy) (p n : Node) : Prop := h.parent? n = some p

/-- A loop of first parents, given once round from a node back to that node. -/
structure IsLoop (h : Hierarchy) (loop : List Node) : Prop where
  climbs : loop.IsChain fun n p => h.parent? n = some p
  closes : ∃ n way, loop = n :: way ++ [n] ∧ (n :: way).Nodup

/-- What a climb returns is a loop, when the nodes behind are the way that led up to it. -/
theorem isLoop_of_climb {n : Node} {behind loop : List Node}
    (hway : (n :: behind).IsChain fun p c => h.parent? c = some p) (hnodup : (n :: behind).Nodup)
    (hc : h.climb n behind = some loop) : h.IsLoop loop := by
  fun_induction climb h n behind with
  | case1 n behind hp => cases hc
  | case2 n behind p hp hmem =>
      obtain rfl := Option.some.inj hc
      -- the loop is the way back from `n` to the first time that `p` was met
      have hprefix := takeWhile_append_prefix hmem
      set way := (n :: behind).takeWhile (· ≠ p)
      have hreverse : p :: way.reverse = (way ++ [p]).reverse := by
        rw [List.reverse_append, List.reverse_singleton, List.singleton_append]
      refine ⟨?_, p, way.reverse, rfl, ?_⟩
      · have hup : (p :: (way ++ [p])).IsChain fun p c => h.parent? c = some p := by
          refine List.isChain_cons.2 ⟨fun m hm => ?_, hway.prefix hprefix⟩
          have hhead : (n :: behind).head? = some m := by
            obtain ⟨rest, hrest⟩ := hprefix
            rw [← hrest, List.head?_append, hm, Option.some_or]
          obtain rfl : n = m := Option.some.inj hhead
          exact hp
        rw [hreverse, ← List.reverse_cons, List.isChain_reverse]
        exact hup
      · rw [hreverse, List.nodup_reverse]
        exact hnodup.sublist hprefix.sublist
  | case3 n behind p hp hnew ih =>
      exact ih (.cons_cons hp hway) (List.nodup_cons.2 ⟨hnew, hnodup⟩) hc

theorem isLoop_of_loopAbove? {n : Node} {loop : List Node} (hl : h.loopAbove? n = some loop) :
    h.IsLoop loop :=
  isLoop_of_climb (.singleton n) (List.nodup_singleton n) hl

/-- A loop leads from the node that it is given from back to that node. -/
theorem IsLoop.transGen {n : Node} {rest : List Node} (hl : h.IsLoop (n :: rest)) :
    Relation.TransGen h.FirstParent n n := by
  obtain ⟨m, way, heq, -⟩ := hl.closes
  obtain ⟨rfl, rfl⟩ := List.cons.inj heq
  exact Relation.transGen_swap.1 (transGen_of_isChain hl.climbs)

theorem IsLoop.exists_loop {loop : List Node} (hl : h.IsLoop loop) :
    ∃ n, Relation.TransGen h.FirstParent n n := by
  obtain ⟨n, way, rfl, -⟩ := hl.closes
  exact ⟨n, hl.transGen⟩

theorem acc_of_climb_eq_none {n : Node} {behind : List Node} (hc : h.climb n behind = none) :
    Acc h.FirstParent n := by
  fun_induction climb h n behind with
  | case1 n behind hp =>
      refine .intro n fun p hpn => ?_
      rw [FirstParent, hp] at hpn
      cases hpn
  | case2 n behind p hp hmem => cases hc
  | case3 n behind p hp hnew ih =>
      refine .intro n fun p' hpn => ?_
      obtain rfl : p = p' := Option.some.inj (hp.symm.trans hpn)
      exact ih hc

theorem not_acc_of_climb_eq_some {n : Node} {behind loop : List Node}
    (hway : (n :: behind).IsChain fun p c => h.parent? c = some p) (hnodup : (n :: behind).Nodup)
    (hc : h.climb n behind = some loop) : ¬Acc h.FirstParent n := by
  have hloop : h.IsLoop loop := isLoop_of_climb hway hnodup hc
  fun_induction climb h n behind with
  | case1 n behind hp => cases hc
  | case2 n behind p hp hmem =>
      obtain rfl := Option.some.inj hc
      exact fun hacc => not_transGen_self_of_acc (hacc.inv hp) hloop.transGen
  | case3 n behind p hp hnew ih =>
      have hnot := ih (.cons_cons hp hway) (List.nodup_cons.2 ⟨hnew, hnodup⟩) hc
      exact fun hacc => hnot (hacc.inv hp)

/-- **No loop is found above a node exactly when the way up from it ends.** -/
theorem loopAbove?_eq_none_iff {n : Node} : h.loopAbove? n = none ↔ Acc h.FirstParent n := by
  refine ⟨acc_of_climb_eq_none, fun hacc => ?_⟩
  cases hl : h.loopAbove? n with
  | none => rfl
  | some loop =>
      exact absurd hacc (not_acc_of_climb_eq_some (.singleton n) (List.nodup_singleton n) hl)

/-- The loop that a climb returns is entered from the way that leads up to it. -/
theorem exists_head_of_climb_eq_some {n : Node} {behind loop : List Node}
    (hc : h.climb n behind = some loop) :
    ∃ m, loop.head? = some m ∧
      (m ∈ n :: behind ∨ Relation.ReflTransGen h.FirstParent m n) := by
  fun_induction climb h n behind with
  | case1 n behind hp => cases hc
  | case2 n behind p hp hmem =>
      obtain rfl := Option.some.inj hc
      exact ⟨p, rfl, .inl hmem⟩
  | case3 n behind p hp hnew ih =>
      have hstep : h.FirstParent p n := hp
      obtain ⟨m, hm, hmem | habove⟩ := ih hc
      · rcases List.mem_cons.1 hmem with rfl | hmem
        · exact ⟨m, hm, .inr (.single hstep)⟩
        · exact ⟨m, hm, .inl hmem⟩
      · exact ⟨m, hm, .inr (habove.tail hstep)⟩

/-- **The way up from a node goes on for ever exactly when it comes to a node above which the same
node stands again.** -/
theorem not_acc_firstParent_iff {n : Node} :
    ¬Acc h.FirstParent n ↔
      ∃ m, Relation.ReflTransGen h.FirstParent m n ∧ Relation.TransGen h.FirstParent m m := by
  constructor
  · intro hacc
    cases hl : h.loopAbove? n with
    | none => exact absurd (loopAbove?_eq_none_iff.1 hl) hacc
    | some loop =>
        obtain ⟨m, hm, hway⟩ := exists_head_of_climb_eq_some hl
        obtain ⟨rest, rfl⟩ := List.head?_eq_some_iff.1 hm
        refine ⟨m, hway.elim (fun hmem => ?_) id, (isLoop_of_loopAbove? hl).transGen⟩
        rw [List.mem_singleton.1 hmem]
  · rintro ⟨m, hway, hloop⟩ hacc
    have hm : Acc h.FirstParent m := by
      clear hloop
      induction hway using Relation.ReflTransGen.head_induction_on with
      | refl => exact hacc
      | head hstep _ ih => exact ih.inv hstep
    exact not_transGen_self_of_acc hm hloop

end Hierarchy

end FactHierarchy
