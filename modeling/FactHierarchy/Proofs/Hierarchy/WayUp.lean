import FactHierarchy.Proofs.Graph.ListModel
import FactHierarchy.Proofs.Hierarchy.Alike

/-!
# The way up from a node

`Hierarchy.ancestor?` goes up from a node by first parents, any number of steps. A climb goes the
same way and keeps the nodes that it has come to (`Hierarchy.WayUp`), all of them different. It
stops where there is no parent, or where the parent is on the way already
(`Hierarchy.exists_wayUp_end`).

In the second case the ancestors go round for ever, and **the climb returns the loop in which they
do so**, from the first node on the way up that is come to twice
(`Graph.first_loop_found_exactly`).
-/

set_option autoImplicit false

namespace FactHierarchy

namespace Hierarchy

variable {h : Hierarchy} {start n p : Node} {behind way loop loop' : List Node}

/-! ## Ancestors -/

/-- The node to which some steps lead up from a node, each of them to the parent named first. -/
def ancestor? (h : Hierarchy) (n : Node) : Nat → Option Node
  | 0 => some n
  | k + 1 => (h.ancestor? n k).bind h.parent?

/-- The first step leads to the first parent, and the others lead up from there. -/
theorem ancestor?_succ (h : Hierarchy) (n : Node) (k : Nat) :
    h.ancestor? n (k + 1) = (h.parent? n).bind fun p => h.ancestor? p k := by
  induction k with
  | zero =>
      show h.parent? n = _
      cases h.parent? n <;> rfl
  | succ k ih =>
      show (h.ancestor? n (k + 1)).bind h.parent? = _
      rw [ih, Option.bind_assoc]
      rfl

/-- **The way up from a node ends** when some number of steps leads nowhere. -/
theorem acc_firstParent_iff : Acc h.FirstParent n ↔ ∃ k, h.ancestor? n k = none := by
  constructor
  · intro hacc
    induction hacc with
    | intro n _ ih =>
        cases hp : h.parent? n with
        | none => exact ⟨1, hp⟩
        | some p =>
            obtain ⟨k, hk⟩ := ih p hp
            refine ⟨k + 1, ?_⟩
            rw [ancestor?_succ, hp, Option.bind_some, hk]
  · rintro ⟨k, hk⟩
    induction k generalizing n with
    | zero => cases hk
    | succ k ih =>
        refine .intro n fun p hp => ih ?_
        rw [ancestor?_succ, show h.parent? n = some p from hp, Option.bind_some] at hk
        exact hk

/-- From equal ancestors the same steps lead to equal ancestors. -/
theorem ancestor?_add_eq {i j : Nat} (hij : h.ancestor? n i = h.ancestor? n j) (k : Nat) :
    h.ancestor? n (i + k) = h.ancestor? n (j + k) := by
  induction k with
  | zero => exact hij
  | succ k ih =>
      show (h.ancestor? n (i + k)).bind h.parent? = (h.ancestor? n (j + k)).bind h.parent?
      rw [ih]

/-- Once an ancestor comes again, all that follow are among those in between. -/
theorem exists_ancestor?_eq {i j k : Nat} (hij : i < j)
    (hagain : h.ancestor? n j = h.ancestor? n i) (hk : i ≤ k) :
    ∃ m, i ≤ m ∧ m < j ∧ h.ancestor? n k = h.ancestor? n m := by
  induction k using Nat.strong_induction_on with
  | h k ih =>
      by_cases hlt : k < j
      · exact ⟨k, hk, hlt, rfl⟩
      · -- go back once round the loop
        have hback : h.ancestor? n k = h.ancestor? n (i + (k - j)) := by
          rw [← ancestor?_add_eq hagain, Nat.add_sub_cancel' (Nat.le_of_not_lt hlt)]
        obtain ⟨m, him, hmj, hm⟩ := ih (i + (k - j)) (by omega) (Nat.le_add_right ..)
        exact ⟨m, him, hmj, hback.trans hm⟩

theorem reflTransGen_of_ancestor? {m : Node} {k : Nat} (hm : h.ancestor? n k = some m) :
    Relation.ReflTransGen h.FirstParent m n := by
  induction k generalizing m with
  | zero =>
      obtain rfl := Option.some.inj hm
      exact .refl
  | succ k ih =>
      obtain ⟨c, hc, hm⟩ := Option.bind_eq_some_iff.1 hm
      exact .head hm (ih hc)

/-! ## The nodes that a climb keeps -/

/-- **A way up from a node**, with the node that it has come to in front. A step goes to the first
parent, if that is not on the way yet. -/
inductive WayUp (h : Hierarchy) (start : Node) : List Node → Prop where
  | start : WayUp h start [start]
  | up {n p : Node} {behind : List Node} (way : WayUp h start (n :: behind))
      (parent : h.parent? n = some p) (fresh : p ∉ n :: behind) : WayUp h start (p :: n :: behind)

namespace WayUp

theorem nodup (hway : h.WayUp start way) : way.Nodup := by
  induction hway with
  | start => exact List.nodup_singleton start
  | up _ _ hnew ih => exact List.nodup_cons.2 ⟨hnew, ih⟩

/-- Before the start, a way up has first parents only. -/
theorem exists_parents (hway : h.WayUp start way) :
    ∃ parents, way = parents ++ [start] ∧ ∀ m ∈ parents, ∃ n, h.parent? n = some m := by
  induction hway with
  | start => exact ⟨[], rfl, fun _ hm => absurd hm List.not_mem_nil⟩
  | @up n p _ _ hp _ ih =>
      obtain ⟨parents, hway, hparents⟩ := ih
      exact ⟨p :: parents, congrArg (p :: ·) hway, List.forall_mem_cons.2 ⟨⟨n, hp⟩, hparents⟩⟩

/-- **The ancestors stand on the way up in their order.** -/
theorem getElem?_reverse (hway : h.WayUp start way) {k : Nat} (hk : k < way.length) :
    way.reverse[k]? = h.ancestor? start k := by
  induction hway generalizing k with
  | start =>
      obtain rfl : k = 0 := by simpa using hk
      rfl
  | @up n p behind _ hp _ ih =>
      rw [List.reverse_cons]
      by_cases hlast : k < (n :: behind).length
      · rw [List.getElem?_append_left (by simpa using hlast), ih hlast]
      · -- the last node is the first parent of the one before
        obtain rfl : k = behind.length + 1 := by
          simp only [List.length_cons] at hk hlast
          omega
        have hn : h.ancestor? start behind.length = some n := by
          rw [← ih (by simp), List.reverse_cons]
          simp
        rw [ancestor?, hn, Option.bind_some, hp]
        simp

/-- The ancestors on a way up are different. -/
theorem ancestor?_inj (hway : h.WayUp start way) {i j : Nat} (hi : i < way.length)
    (hj : j < way.length) (hij : h.ancestor? start i = h.ancestor? start j) : i = j := by
  rw [← hway.getElem?_reverse hi, ← hway.getElem?_reverse hj] at hij
  have hlt : i < way.reverse.length := by simpa using hi
  exact (List.getElem?_inj hlt (List.nodup_reverse.2 hway.nodup)).1 hij

/-- What the way up comes to next. -/
theorem ancestor?_length (hway : h.WayUp start (n :: behind)) :
    h.ancestor? start (n :: behind).length = h.parent? n := by
  have hn : h.ancestor? start behind.length = some n := by
    rw [← hway.getElem?_reverse (by simp), List.reverse_cons]
    simp
  rw [List.length_cons, ancestor?, hn, Option.bind_some]

theorem loopAbove?_eq (hway : h.WayUp start (n :: behind)) :
    h.loopAbove? start = h.climb n behind := by
  generalize hnodes : n :: behind = nodes at hway
  induction hway generalizing n behind with
  | start =>
      obtain ⟨rfl, rfl⟩ := List.cons.inj hnodes
      rfl
  | up _ hp hnew ih =>
      obtain ⟨rfl, rfl⟩ := List.cons.inj hnodes
      rw [ih rfl, climb_of_some hp, if_neg hnew]

end WayUp

/-- **Every climb ends**: where there is no parent, or where the parent is on the way. -/
theorem exists_wayUp_end (h : Hierarchy) (start : Node) :
    ∃ n behind, h.WayUp start (n :: behind) ∧
      ((h.parent? n = none ∧ h.loopAbove? start = none) ∨
        ∃ p ∈ n :: behind, h.parent? n = some p ∧ h.loopAbove? start =
          some (p :: ((n :: behind).takeWhile (· ≠ p)).reverse ++ [p])) := by
  suffices hgoes_on : ∀ n behind, h.WayUp start (n :: behind) → ∃ n behind,
      h.WayUp start (n :: behind) ∧
        ((h.parent? n = none ∧ h.loopAbove? start = none) ∨
          ∃ p ∈ n :: behind, h.parent? n = some p ∧ h.loopAbove? start =
            some (p :: ((n :: behind).takeWhile (· ≠ p)).reverse ++ [p])) from
    hgoes_on start [] .start
  intro n behind hway
  fun_induction climb h n behind with
  | case1 n behind hp =>
      exact ⟨n, behind, hway, .inl ⟨hp, hway.loopAbove?_eq.trans (climb_of_none hp)⟩⟩
  | case2 n behind p hp hmem =>
      refine ⟨n, behind, hway, .inr ⟨p, hmem, hp, ?_⟩⟩
      rw [hway.loopAbove?_eq, climb_of_some hp, if_pos hmem]
  | case3 n behind p hp hnew ih => exact ih (hway.up hp hnew)

/-! ## The loop that a climb returns -/

/-- **The loop that the way up from a node enters**: it is a loop of first parents, and it is given
from the first ancestor that comes more than once. -/
structure EntersLoop (h : Hierarchy) (start : Node) (loop : List Node) : Prop where
  isLoop : h.IsLoop loop
  entered : ∃ i, h.ancestor? start i = loop.head? ∧
    (∃ j > i, h.ancestor? start j = h.ancestor? start i) ∧
    ∀ i' < i, ∀ j ≠ i', h.ancestor? start j ≠ h.ancestor? start i'

/-- **What a climb returns is the loop that the way up enters.** -/
theorem entersLoop_of_loopAbove? (hl : h.loopAbove? start = some loop) :
    h.EntersLoop start loop := by
  obtain ⟨n, behind, hway, ⟨-, hnone⟩ | ⟨p, hmem, hp, hsome⟩⟩ := h.exists_wayUp_end start
  · rw [hl] at hnone
    cases hnone
  · have hhead : loop.head? = some p := by
      obtain rfl := Option.some.inj (hl.symm.trans hsome)
      rfl
    -- `p` comes first at `i`, and again behind the whole way
    obtain ⟨i, hi, hpi⟩ : ∃ i < (n :: behind).length, h.ancestor? start i = some p := by
      obtain ⟨i, hi, hpi⟩ := List.getElem_of_mem (List.mem_reverse.2 hmem)
      rw [List.length_reverse] at hi
      refine ⟨i, hi, ?_⟩
      rw [← hway.getElem?_reverse hi, List.getElem?_eq_getElem (by simpa using hi), hpi]
    have hagain : h.ancestor? start (n :: behind).length = h.ancestor? start i := by
      rw [hway.ancestor?_length, hp, hpi]
    refine ⟨isLoop_of_loopAbove? hl, i, hpi.trans hhead.symm, ⟨_, hi, hagain⟩, ?_⟩
    intro i' hi' j hj heq
    have hi'lt : i' < (n :: behind).length := Nat.lt_trans hi' hi
    by_cases hlt : j < (n :: behind).length
    · exact hj (hway.ancestor?_inj hlt hi'lt heq)
    · -- the way has been gone to its end, so `j` is in the loop
      obtain ⟨m, him, hm, hjm⟩ := exists_ancestor?_eq hi hagain (k := j) (by omega)
      have : m = i' := hway.ancestor?_inj hm hi'lt (hjm.symm.trans heq)
      omega

/-- First parents lead from one node to another in one way only, when the other comes at the end. -/
theorem eq_of_isChain_parent {m : Node} {way way' : List Node} (hnot : n ∉ way) (hnot' : n ∉ way')
    (hchain : (m :: (way ++ [n])).IsChain fun n p => h.parent? n = some p)
    (hchain' : (m :: (way' ++ [n])).IsChain fun n p => h.parent? n = some p) : way = way' := by
  -- by induction on the one way, as each node determines the next one
  induction way generalizing m way' with
  | nil =>
      cases way' with
      | nil => rfl
      | cons c way' =>
          have hn := (List.isChain_cons_cons.1 hchain).1
          have hc := (List.isChain_cons_cons.1 hchain').1
          obtain rfl : n = c := Option.some.inj (hn.symm.trans hc)
          exact absurd (List.mem_cons_self ..) hnot'
  | cons b way ih =>
      obtain ⟨hb, hrest⟩ := List.isChain_cons_cons.1 hchain
      cases way' with
      | nil =>
          have hn := (List.isChain_cons_cons.1 hchain').1
          obtain rfl : n = b := Option.some.inj (hn.symm.trans hb)
          exact absurd (List.mem_cons_self ..) hnot
      | cons c way' =>
          obtain ⟨hc, hrest'⟩ := List.isChain_cons_cons.1 hchain'
          obtain rfl : b = c := Option.some.inj (hb.symm.trans hc)
          rw [ih (fun hmem => hnot (List.mem_cons_of_mem _ hmem))
            (fun hmem => hnot' (List.mem_cons_of_mem _ hmem)) hrest hrest']

/-- From a node on, a loop of first parents can be given in one way only. -/
theorem IsLoop.unique (hl : h.IsLoop loop) (hl' : h.IsLoop loop')
    (hhead : loop.head? = loop'.head?) : loop = loop' := by
  obtain ⟨n, way, rfl, hnodup⟩ := hl.closes
  obtain ⟨n', way', rfl, hnodup'⟩ := hl'.closes
  obtain rfl : n = n' := Option.some.inj hhead
  have hway : way = way' := eq_of_isChain_parent (List.nodup_cons.1 hnodup).1
    (List.nodup_cons.1 hnodup').1 hl.climbs hl'.climbs
  rw [hway]

/-- A way up enters one loop at most. -/
theorem EntersLoop.unique (hl : h.EntersLoop start loop) (hl' : h.EntersLoop start loop') :
    loop = loop' := by
  obtain ⟨i, hhead, ⟨j, hj, hij⟩, hfirst⟩ := hl.entered
  obtain ⟨i', hhead', ⟨j', hj', hij'⟩, hfirst'⟩ := hl'.entered
  have hi : i = i' := by
    rcases Nat.lt_trichotomy i i' with hlt | heq | hlt
    · exact absurd hij (hfirst' i hlt j (Nat.ne_of_gt hj))
    · exact heq
    · exact absurd hij' (hfirst i' hlt j' (Nat.ne_of_gt hj'))
  exact hl.isLoop.unique hl'.isLoop (by rw [← hhead, ← hhead', hi])

/-- A way up that enters a loop does not end. -/
theorem EntersLoop.not_acc (hl : h.EntersLoop start loop) : ¬Acc h.FirstParent start := by
  obtain ⟨i, hhead, -, -⟩ := hl.entered
  obtain ⟨n, way, rfl, -⟩ := hl.isLoop.closes
  exact not_acc_firstParent_iff.2 ⟨n, reflTransGen_of_ancestor? hhead, hl.isLoop.transGen⟩

theorem loopAbove?_eq_some_iff : h.loopAbove? start = some loop ↔ h.EntersLoop start loop := by
  refine ⟨entersLoop_of_loopAbove?, fun hl => ?_⟩
  cases hfound : h.loopAbove? start with
  | none => exact absurd (loopAbove?_eq_none_iff.1 hfound) hl.not_acc
  | some loop' => rw [(entersLoop_of_loopAbove? hfound).unique hl]

end Hierarchy

/-- **The loop above a node is found exactly.** Go up from a node to the object of its first parent
fact, from there again, and so on, as long as the object is a node. No loop is found when this comes
to an end. Otherwise the loop is found that it comes to: from the first node that is come to twice,
once round by first parents over different nodes, back to that node. The way that leads to the loop
is no part of it. -/
theorem Graph.first_loop_found_exactly (g : Graph) (v : Vocabulary) (start : Node) :
    let h := g.hierarchy v
    (∀ n, h.parent? n = ListModel.objectNode? g.toList n v.parentRef) ∧
    (h.loopAbove? start = none ↔ ∃ k, h.ancestor? start k = none) ∧
    ∀ loop, h.loopAbove? start = some loop ↔ h.EntersLoop start loop :=
  ⟨fun n => g.answersAs_toList.objectNode? n v.parentRef,
    Hierarchy.loopAbove?_eq_none_iff.trans Hierarchy.acc_firstParent_iff,
    fun _ => Hierarchy.loopAbove?_eq_some_iff⟩

end FactHierarchy
