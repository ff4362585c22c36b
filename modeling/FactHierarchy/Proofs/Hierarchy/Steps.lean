import FactHierarchy.Proofs.Hierarchy.WayUp
import FactHierarchy.Reversion
import Mathlib.Data.List.Perm.Subperm

/-!
# How long walks through a hierarchy are

Every descent ends (`Descent.exists_leadsIn_finish`), whatever the hierarchy looks like. Two
balances say after how many steps. Each step meets a node or goes back up from one, so the steps are
counted by the nodes met and the nodes left. Each node that was met is a root or comes from what
stands below a node that was entered, and the rest of both is still to come (`Descent.Accounted`).

A node is entered once at most, and what stands below it is read from the front, each entry once
(`Descent.InOrder`). In a graph these entries are parent facts, each of them below one node only. So
**a descent takes at most two steps for each root and for each parent fact**, and a climb at most
one for each parent fact (`Graph.walks_end`).
-/

set_option autoImplicit false

namespace FactHierarchy

/-! ## What was met from a node -/

/-- The nodes that were met from a node, in the order in which they were met. The visits have the
latest first. -/
def metFrom (visits : List Visit) (n : Node) : List Node :=
  ((visits.filter fun visit => visit.above.head? = some n).map Visit.node).reverse

theorem metFrom_cons_of_eq {visits : List Visit} {n c : Node} {above : List Node} {entered : Bool}
    (h : above.head? = some n) :
    metFrom (⟨c, above, entered⟩ :: visits) n = metFrom visits n ++ [c] := by
  simp [metFrom, h]

theorem metFrom_cons_of_ne {visits : List Visit} {n c : Node} {above : List Node} {entered : Bool}
    (h : above.head? ≠ some n) :
    metFrom (⟨c, above, entered⟩ :: visits) n = metFrom visits n := by
  simp [metFrom, h]

theorem enteredNodes_cons_false {visits : List Visit} {n : Node} {above : List Node} :
    enteredNodes (⟨n, above, false⟩ :: visits) = enteredNodes visits := rfl

theorem enteredNodes_cons_true {visits : List Visit} {n : Node} {above : List Node} :
    enteredNodes (⟨n, above, true⟩ :: visits) = n :: enteredNodes visits := rfl

/-- The number of entries below some nodes. -/
def Hierarchy.entryCount (h : Hierarchy) (nodes : List Node) : Nat :=
  (nodes.flatMap h.below).length

namespace Descent

variable {h : Hierarchy} {closed : Node → Bool} {roots : List Node} {d d' : Descent h} {k : Nat}

/-! ## Runs of steps -/

/-- Some number of steps leads from one state to another. -/
inductive LeadsIn (closed : Node → Bool) (d : Descent h) : Nat → Descent h → Prop where
  | refl : LeadsIn closed d 0 d
  | tail {k : Nat} {d' d'' : Descent h} (run : LeadsIn closed d k d')
      (step : d'.step closed = .ok (some d'')) : LeadsIn closed d (k + 1) d''

/-- No step is left, and the descent has this outcome. -/
def EndsWith (closed : Node → Bool) (d : Descent h) : Except (List Node) (List Visit) → Prop
  | .ok visits => d.step closed = .ok none ∧ visits = d.visits.reverse
  | .error chain => d.step closed = .error chain

theorem LeadsIn.leadsTo (hlead : d.LeadsIn closed k d') : d.LeadsTo closed d' := by
  induction hlead with
  | refl => exact .refl
  | tail _ hs ih => exact .tail ih hs

theorem LeadsTo.exists_leadsIn (hlead : d.LeadsTo closed d') : ∃ k, d.LeadsIn closed k d' := by
  induction hlead with
  | refl => exact ⟨0, .refl⟩
  | tail _ hs ih =>
      obtain ⟨k, hk⟩ := ih
      exact ⟨k + 1, hk.tail hs⟩

/-- **A descent comes to its outcome** after some number of steps. -/
theorem exists_leadsIn_finish (closed : Node → Bool) (d : Descent h) :
    ∃ k last, d.LeadsIn closed k last ∧ last.EndsWith closed (d.finish closed) := by
  cases hf : d.finish closed with
  | ok visits =>
      obtain ⟨last, hlead, hend, hvisits⟩ := exists_of_finish_eq_ok hf
      obtain ⟨k, hk⟩ := hlead.exists_leadsIn
      exact ⟨k, last, hk, hend, hvisits⟩
  | error chain =>
      obtain ⟨last, hlead, hend⟩ := exists_of_finish_eq_error hf
      obtain ⟨k, hk⟩ := hlead.exists_leadsIn
      exact ⟨k, last, hk, hend⟩

/-- **Everything a meeting can do**: pass over the node, or enter it for the first time. -/
theorem meet_cases (closed : Node → Bool) (d : Descent h) (n : Node) (above : List Node) :
    meet closed d n above = { d with visits := ⟨n, above, false⟩ :: d.visits } ∨
    (¬Entered d.visits n ∧ meet closed d n above =
      { d with
        frames := ⟨n, above, h.below n, h.mem_of_mem_below⟩ :: d.frames
        visits := ⟨n, above, true⟩ :: d.visits }) := by
  by_cases hknown : (closed n || d.hasEntered n) = true
  · exact .inl (meet_of_known hknown)
  · refine .inr ⟨fun hn => hknown ?_, meet_of_new hknown⟩
    rw [Bool.or_eq_true, hasEntered_iff]
    exact .inr hn

/-- The nodes being looked below, the innermost first. -/
def stack (d : Descent h) : List Node := d.frames.map Frame.node

/-- **A step pushes a node exactly when it enters it.** Otherwise the stack stays as it is, or its
innermost nodes are left. -/
def StepPushes (d d' : Descent h) : Prop :=
  (d'.stack <:+ d.stack ∧ enteredNodes d'.visits = enteredNodes d.visits) ∨
    ∃ n, d'.stack = n :: d.stack ∧ enteredNodes d'.visits = n :: enteredNodes d.visits

theorem stepPushes_meet {e : Descent h} (hstack : e.stack = d.stack) (hvisits : e.visits = d.visits)
    (n : Node) (above : List Node) : d.StepPushes (meet closed e n above) := by
  rw [StepPushes, ← hstack, ← hvisits]
  rcases meet_cases closed e n above with hmeet | ⟨-, hmeet⟩
  · rw [hmeet]
    exact .inl ⟨List.suffix_rfl, enteredNodes_cons_false⟩
  · rw [hmeet]
    exact .inr ⟨n, rfl, enteredNodes_cons_true⟩

theorem stepPushes_of_step (hs : d.step closed = .ok (some d')) : d.StepPushes d' := by
  obtain ⟨root, waiting, -, hframes, rfl⟩ | ⟨f, frames, hframes, -, rfl⟩ |
    ⟨f, rest, frames, child, hframes, -, hnode, -, -, rfl⟩ := step_cases hs
  · refine stepPushes_meet ?_ ?_ root []
    · rw [stack, stack, hframes]
    · rfl
  · refine .inl ⟨?_, rfl⟩
    rw [stack, stack, hframes, List.map_cons]
    exact List.suffix_cons ..
  · refine stepPushes_meet ?_ ?_ child (f.node :: f.above)
    · rw [stack, stack, hframes, List.map_cons, List.map_cons, hnode]
    · rfl

/-! ## Two balances -/

/-- The number of entries below the nodes being looked below that were not read yet. -/
def unreadCount (d : Descent h) : Nat := (d.frames.flatMap Frame.unread).length

/-- **The balances after some number of steps.** Nodes are met and left. What was met and what is
still to come are the roots and the entries below the nodes that were entered. -/
structure Accounted (roots : List Node) (k : Nat) (d : Descent h) : Prop where
  steps : k + d.frames.length = d.visits.length + (enteredNodes d.visits).length
  visits : d.visits.length + d.waiting.length + d.unreadCount =
    roots.length + h.entryCount (enteredNodes d.visits)

theorem accounted_start (roots : List Node) :
    ({ waiting := roots } : Descent h).Accounted roots 0 where
  steps := rfl
  visits := by simp [unreadCount, enteredNodes, Hierarchy.entryCount]

/-- The two balances for a node that was taken from somewhere and is about to be met. -/
theorem accounted_meet {n : Node} {above : List Node}
    (hsteps : k + d.frames.length = d.visits.length + (enteredNodes d.visits).length)
    (hvisits : d.visits.length + 1 + d.waiting.length + d.unreadCount =
      roots.length + h.entryCount (enteredNodes d.visits)) :
    (meet closed d n above).Accounted roots (k + 1) := by
  rcases meet_cases closed d n above with hmeet | ⟨-, hmeet⟩
  · rw [hmeet]
    refine ⟨?_, hvisits⟩
    simp only [enteredNodes_cons_false, List.length_cons]
    omega
  · rw [hmeet]
    refine ⟨?_, ?_⟩
    · simp only [enteredNodes_cons_true, List.length_cons]
      omega
    · simp only [enteredNodes_cons_true, List.length_cons, unreadCount, Hierarchy.entryCount,
        List.flatMap_cons, List.length_append] at hvisits ⊢
      omega

/-- **Every step keeps the balances.** -/
theorem Accounted.step (ha : d.Accounted roots k) (hs : d.step closed = .ok (some d')) :
    d'.Accounted roots (k + 1) := by
  obtain ⟨hsteps, hvisits⟩ := ha
  obtain ⟨root, waiting, hwaiting, hframes, rfl⟩ | ⟨f, frames, hframes, hread, rfl⟩ |
    ⟨f, rest, frames, child, hframes, hunread, -, -, -, rfl⟩ := step_cases hs
  · simp only [unreadCount, hwaiting, hframes, List.length_cons] at hsteps hvisits
    exact accounted_meet hsteps (by simp only [unreadCount]; omega)
  · simp only [unreadCount, hframes, hread, List.length_cons, List.flatMap_cons, List.nil_append]
      at hsteps hvisits
    exact ⟨by simp only; omega, by simp only [unreadCount]; omega⟩
  · simp only [unreadCount, hframes, hunread, List.length_cons, List.flatMap_cons,
      List.length_append] at hsteps hvisits
    refine accounted_meet (by simpa using hsteps) ?_
    simp only [unreadCount, List.flatMap_cons, List.length_append]
    omega

theorem LeadsIn.accounted (hlead : ({ waiting := roots } : Descent h).LeadsIn closed k d) :
    d.Accounted roots k := by
  induction hlead with
  | refl => exact accounted_start roots
  | tail _ hs ih => exact ih.step hs

/-- **A descent takes at most two steps** for each root and each entry below a node that it
enters. -/
theorem Accounted.le_two_mul (ha : d.Accounted roots k) :
    k ≤ 2 * (roots.length + h.entryCount (enteredNodes d.visits)) := by
  have hsteps := ha.steps
  have hvisits := ha.visits
  have hentered : (enteredNodes d.visits).length ≤ d.visits.length := by
    rw [enteredNodes, List.length_map]
    exact List.length_filter_le ..
  omega

/-! ## What is read below a node -/

/-- **The entries below a node are read from the front.** Those that were read and those that are
unread make up the entries below a node being looked below, and nothing is read below a node that is
not entered. -/
structure InOrder (d : Descent h) : Prop where
  read : ∀ f ∈ d.frames, metFrom d.visits f.node ++ f.unread = h.below f.node
  fresh : ∀ n, ¬Entered d.visits n → metFrom d.visits n = []
  from_front : ∀ n, metFrom d.visits n <+: h.below n

theorem inOrder_start (roots : List Node) : ({ waiting := roots } : Descent h).InOrder where
  read _ hf := absurd hf List.not_mem_nil
  fresh _ _ := rfl
  from_front _ := List.nil_prefix

/-- Entering a node instead of passing over it keeps the order: nothing was read below it. -/
theorem InOrder.meet {n : Node} {above : List Node}
    (ho : ({ d with visits := ⟨n, above, false⟩ :: d.visits } : Descent h).InOrder) :
    (meet closed d n above).InOrder := by
  have hflag : ∀ m, metFrom (⟨n, above, true⟩ :: d.visits) m =
      metFrom (⟨n, above, false⟩ :: d.visits) m := by
    intro m
    by_cases hm : above.head? = some m
    · rw [metFrom_cons_of_eq hm, metFrom_cons_of_eq hm]
    · rw [metFrom_cons_of_ne hm, metFrom_cons_of_ne hm]
  rcases meet_cases closed d n above with hmeet | ⟨hnew, hmeet⟩
  · rw [hmeet]
    exact ho
  · rw [hmeet]
    refine ⟨fun f hf => ?_, fun m hm => ?_, fun m => ?_⟩
    · rw [hflag]
      rcases List.mem_cons.1 hf with rfl | hf
      · rw [ho.fresh n (entered_cons_false_iff.not.2 hnew), List.nil_append]
      · exact ho.read f hf
    · rw [hflag]
      refine ho.fresh m fun hentered => hm ?_
      exact (entered_cons_false_iff.1 hentered).cons _
    · rw [hflag]
      exact ho.from_front m

/-- Passing over a root reads nothing. -/
theorem InOrder.passRoot (ho : d.InOrder) (root : Node) (waiting : List Node) :
    (⟨waiting, [], ⟨root, [], false⟩ :: d.visits⟩ : Descent h).InOrder := by
  have hmet : ∀ n, metFrom (⟨root, [], false⟩ :: d.visits) n = metFrom d.visits n :=
    fun n => metFrom_cons_of_ne (by simp)
  refine ⟨fun _ hf => absurd hf List.not_mem_nil, fun n hn => ?_, fun n => ?_⟩
  · rw [hmet]
    exact ho.fresh n fun hentered => hn (hentered.cons _)
  · rw [hmet]
    exact ho.from_front n

/-- Passing over the next unread node of the innermost frame reads one entry, below the node of this
frame only. -/
theorem InOrder.passUnread (ho : d.InOrder) (ht : Tidy closed roots none d) {f rest : Frame h}
    {frames : List (Frame h)} {child : Node} (hframes : d.frames = f :: frames)
    (hunread : f.unread = child :: rest.unread) (hnode : rest.node = f.node) :
    (⟨d.waiting, rest :: frames, ⟨child, f.node :: f.above, false⟩ :: d.visits⟩ :
      Descent h).InOrder := by
  have hf : f ∈ d.frames := by simp [hframes]
  have hread : metFrom (⟨child, f.node :: f.above, false⟩ :: d.visits) f.node ++ rest.unread =
      h.below f.node := by
    rw [metFrom_cons_of_eq rfl, List.append_assoc, List.singleton_append, ← hunread]
    exact ho.read f hf
  have hother : ∀ n ≠ f.node, metFrom (⟨child, f.node :: f.above, false⟩ :: d.visits) n =
      metFrom d.visits n := by
    intro n hn
    exact metFrom_cons_of_ne fun heq => hn (Option.some.inj heq).symm
  refine ⟨fun f' hf' => ?_, fun n hn => ?_, fun n => ?_⟩
  · rcases List.mem_cons.1 hf' with rfl | hf'
    · rw [hnode]
      exact hread
    · -- the node of a frame further out is another one
      have hne : f'.node ≠ f.node := by
        have hnodup := ht.frames_nodup
        rw [hframes, List.map_cons, List.nodup_cons] at hnodup
        exact fun heq => hnodup.1 (heq ▸ List.mem_map_of_mem hf')
      rw [hother _ hne]
      exact ho.read f' (by simp [hframes, hf'])
  · have hnot : ¬Entered d.visits n := fun hentered => hn (hentered.cons _)
    have hne : n ≠ f.node := by
      rintro rfl
      exact hnot ⟨f.above, ht.frames_entered f hf⟩
    rw [hother n hne]
    exact ho.fresh n hnot
  · by_cases hn : n = f.node
    · rw [hn]
      exact ⟨_, hread⟩
    · rw [hother n hn]
      exact ho.from_front n

/-- **Every step reads in order.** -/
theorem InOrder.step (ho : d.InOrder) (ht : Tidy closed roots none d)
    (hs : d.step closed = .ok (some d')) : d'.InOrder := by
  obtain ⟨root, waiting, -, -, rfl⟩ | ⟨f, frames, hframes, -, rfl⟩ |
    ⟨f, rest, frames, child, hframes, hunread, hnode, -, -, rfl⟩ := step_cases hs
  · exact (ho.passRoot root waiting).meet
  · refine ⟨fun f' hf' => ho.read f' ?_, ho.fresh, ho.from_front⟩
    rw [hframes]
    exact List.mem_cons_of_mem f hf'
  · exact (ho.passUnread ht hframes hunread hnode).meet

theorem LeadsIn.inOrder (hlead : ({ waiting := roots } : Descent h).LeadsIn closed k d) :
    d.InOrder := by
  induction hlead with
  | refl => exact inOrder_start roots
  | tail run hs ih => exact ih.step ((Tidy.start closed roots).leadsTo run.leadsTo) hs

end Descent

/-! ## Walks -/

/-- **A walk down from some roots**, as a sequence of steps. It comes to its outcome, and takes no
more steps than a bound says. On the way no node is entered twice, and the nodes that are entered
are those that are pushed. The entries below each node are read from the front, each of them
once. -/
structure Hierarchy.WalksDown (h : Hierarchy) (closed : Node → Bool) (roots : List Node)
    (bound : Nat) (outcome : Except (List Node) (List Visit)) : Prop where
  ends : ∃ k last, ({ waiting := roots } : Descent h).LeadsIn closed k last ∧
    last.EndsWith closed outcome
  bounded : ∀ k d, ({ waiting := roots } : Descent h).LeadsIn closed k d → k ≤ bound
  entered_once : ∀ k d, ({ waiting := roots } : Descent h).LeadsIn closed k d →
    (enteredNodes d.visits).Nodup
  pushed : ∀ k d d', ({ waiting := roots } : Descent h).LeadsIn closed k d →
    d.step closed = .ok (some d') → d.StepPushes d'
  read_once : ∀ k d, ({ waiting := roots } : Descent h).LeadsIn closed k d →
    (∀ n, metFrom d.visits n <+: h.below n) ∧
      ∀ f ∈ d.frames, metFrom d.visits f.node ++ f.unread = h.below f.node

/-- **A walk up from a node.** It ends where there is no parent, or where the parent is on the way:
then its outcome is the part of the way from there on. Every way leads to this outcome. No node is
on it twice, and all nodes but the first are among some that can be parents. -/
structure Hierarchy.WalksUp (h : Hierarchy) (start : Node) (parents : List Node)
    (outcome : Option (List Node)) : Prop where
  ends : ∃ n behind, h.WayUp start (n :: behind) ∧
    ((h.parent? n = none ∧ outcome = none) ∨
      ∃ p ∈ n :: behind, h.parent? n = some p ∧
        outcome = some (p :: ((n :: behind).takeWhile (· ≠ p)).reverse ++ [p]))
  follows : ∀ n behind, h.WayUp start (n :: behind) → h.climb n behind = outcome
  bounded : ∀ way, h.WayUp start way → way.length ≤ parents.length + 1
  once : ∀ way, h.WayUp start way → way.Nodup
  within : ∀ way, h.WayUp start way → ∀ n ∈ way, n = start ∨ n ∈ parents

namespace Hierarchy

variable {h : Hierarchy}

/-- **Every descent is a walk down.** It takes at most two steps for each root and for each entry,
where no different nodes have more entries than `entries` below them. -/
theorem walksDown_descend {entries : Nat}
    (hentries : ∀ nodes : List Node, nodes.Nodup → h.entryCount nodes ≤ entries)
    (closed : Node → Bool) (roots : List Node) :
    h.WalksDown closed roots (2 * (roots.length + entries)) (h.descend closed roots) := by
  have hnodup : ∀ k d, ({ waiting := roots } : Descent h).LeadsIn closed k d →
      (enteredNodes d.visits).Nodup :=
    fun _ _ hlead => ((Descent.Tidy.start closed roots).leadsTo hlead.leadsTo).once
  refine
    { ends := Descent.exists_leadsIn_finish closed { waiting := roots }
      bounded := fun k d hlead => ?_
      entered_once := hnodup
      pushed := fun _ _ _ _ hs => Descent.stepPushes_of_step hs
      read_once := fun _ _ hlead => ⟨hlead.inOrder.from_front, hlead.inOrder.read⟩ }
  calc k ≤ 2 * (roots.length + h.entryCount (enteredNodes d.visits)) :=
        hlead.accounted.le_two_mul
    _ ≤ 2 * (roots.length + entries) := by
        have := hentries _ (hnodup k d hlead)
        omega

/-- **Every climb is a walk up.** It comes to each parent once at most. -/
theorem walksUp_loopAbove? {parents : List Node}
    (hparents : ∀ n p, h.parent? n = some p → p ∈ parents) (start : Node) :
    h.WalksUp start parents (h.loopAbove? start) where
  ends := h.exists_wayUp_end start
  follows _ _ hway := hway.loopAbove?_eq.symm
  once _ hway := hway.nodup
  within way hway n hn := by
    obtain ⟨before, rfl, hbefore⟩ := hway.exists_parents
    rcases List.mem_append.1 hn with hn | hn
    · obtain ⟨c, hc⟩ := hbefore n hn
      exact .inr (hparents c n hc)
    · exact .inl (List.mem_singleton.1 hn)
  bounded way hway := by
    obtain ⟨before, rfl, hbefore⟩ := hway.exists_parents
    have hsub : before ⊆ parents := fun p hp => by
      obtain ⟨c, hc⟩ := hbefore p hp
      exact hparents c p hc
    have hle := (List.subperm_of_subset hway.nodup.of_append_left hsub).length_le
    rw [List.length_append, List.length_singleton]
    omega

end Hierarchy

/-! ## Walks through graphs -/

namespace Graph

variable {g : Graph} {v : Vocabulary}

/-- The parent facts of all nodes. -/
def parentFacts (g : Graph) (v : Vocabulary) : List Fact :=
  g.filter { predicate := some v.parentRef }

/-- The nodes that others are put below. -/
def parentNodes (g : Graph) (v : Vocabulary) : List Node :=
  (g.parentFacts v).filterMap fun f => f.object.node?

theorem mem_parentFacts {f : Fact} :
    f ∈ g.parentFacts v ↔ f ∈ g.toList ∧ f.predicate = v.parentRef := by
  rw [parentFacts, mem_filter, eq_comm (a := f.predicate)]
  simp [Pattern.fits]

/-- **The entries below different nodes are different parent facts.** -/
theorem entryCount_le {nodes : List Node} (hnodup : nodes.Nodup) :
    (g.hierarchy v).entryCount nodes ≤ (g.parentFacts v).length := by
  have hfacts : (nodes.flatMap fun n : Node => g.filter (.having v.parentRef n)).Nodup := by
    refine List.nodup_flatMap.2 ⟨fun n _ => ?_, hnodup.imp fun {n m} hne f hn hm => hne ?_⟩
    · rw [filter_eq]
      exact g.nodup_toList.filter _
    · -- the fact has one object
      have hn := (Pattern.fits_having.1 (mem_filter.1 hn).2).2
      have hm := (Pattern.fits_having.1 (mem_filter.1 hm).2).2
      exact Term.node.inj (hn.symm.trans hm)
  have hsub :
      (nodes.flatMap fun n : Node => g.filter (.having v.parentRef n)) ⊆ g.parentFacts v := by
    intro f hf
    obtain ⟨n, -, hf⟩ := List.mem_flatMap.1 hf
    obtain ⟨hf, hfits⟩ := mem_filter.1 hf
    exact mem_parentFacts.2 ⟨hf, (Pattern.fits_having.1 hfits).1⟩
  calc (g.hierarchy v).entryCount nodes
      = (nodes.flatMap fun n : Node => g.filter (.having v.parentRef n)).length := by
        rw [← List.length_map Fact.subject, List.map_flatMap]
        rfl
    _ ≤ (g.parentFacts v).length := (List.subperm_of_subset hfacts hsub).length_le

theorem mem_parentNodes_of_parent? {n p : Node} (hp : (g.hierarchy v).parent? n = some p) :
    p ∈ g.parentNodes v :=
  List.mem_filterMap.2 ⟨_, mem_parentFacts.2 ⟨mem_of_objectNode? hp, rfl⟩, rfl⟩

/-- **All walks through a graph end**, whatever its parent facts are. The search for paths goes
down, and so does the reversion of a rule that links parents to children. Both take at most two
steps for each root and each parent fact: no node is entered twice, and no entry below a node is
read twice. The search for a loop above a node goes up, over different nodes. All of them but the
first are objects of parent facts. -/
theorem walks_end (g : Graph) (v : Vocabulary) :
    let h := g.hierarchy v
    let steps := fun roots : List Node => 2 * (roots.length + (g.parentFacts v).length)
    (∀ roots, h.WalksDown (g.hasPath v) roots (steps roots) (g.pathVisits v roots)) ∧
    (∀ rule roots, h.WalksDown (fun _ => false) roots (steps roots)
        (h.descend (fun _ => false) roots) ∧
      ∀ link, rule.linkPredicate = some link → g.reversionFacts v rule roots =
        (h.descend (fun _ => false) roots).map fun visits =>
          (visits.flatMap (g.visitFacts v rule link), visits.countP Visit.entered)) ∧
    ∀ start, h.WalksUp start (g.parentNodes v) (h.loopAbove? start) := by
  intro h steps
  have hdown : ∀ closed roots, h.WalksDown closed roots (steps roots) (h.descend closed roots) :=
    Hierarchy.walksDown_descend fun _ => entryCount_le
  refine ⟨hdown (g.hasPath v), fun rule roots => ⟨hdown _ roots, fun link hlink => ?_⟩, ?_⟩
  · rw [reversionFacts, hlink]
    dsimp only
    cases h.descend (fun _ => false) roots <;> rfl
  · exact Hierarchy.walksUp_loopAbove? fun _ _ => mem_parentNodes_of_parent?

/-- A pump and a valve are parts of each other. The reversion from the pump fails after it has gone
round once, and the climb from there returns the loop. -/
theorem walks_round_pump_and_valve_end :
    let v := Vocabulary.ofBase Vocabulary.defaultBase
    let pump : Node := .iri "urn:plant#pump"
    let valve : Node := .iri "urn:plant#valve"
    let g := ofList [v.parentFact pump valve, v.parentFact valve pump]
    let rule : Rule :=
      { id := "pumps", selector := ⟨v.rdfType, v.hierarchyObject⟩,
        defaultChildPredicate := some (.iri "urn:plant#has") }
    g.reversionFacts v rule [pump] = .error [pump, valve, pump] ∧
    (g.hierarchy v).WalksDown (fun _ => false) [pump] 6 (.error [pump, valve, pump]) ∧
    (g.hierarchy v).WalksUp pump [valve, pump] (some [pump, valve, pump]) := by
  intro v pump valve g rule
  obtain ⟨-, hdown, hup⟩ := walks_end g v
  obtain ⟨hwalks, hrevert⟩ := hdown rule [pump]
  have hdescend : (g.hierarchy v).descend (fun _ => false) [pump] =
      .error [pump, valve, pump] := by decide +kernel
  have hclimb : (g.hierarchy v).loopAbove? pump = some [pump, valve, pump] := by decide +kernel
  have hparents : g.parentNodes v = [valve, pump] := by decide +kernel
  have hfacts : (g.parentFacts v).length = 2 := by decide +kernel
  rw [hdescend] at hwalks hrevert
  rw [hfacts] at hwalks
  have hclimbs := hup pump
  rw [hclimb, hparents] at hclimbs
  exact ⟨hrevert _ rfl, hwalks, hclimbs⟩

end Graph

end FactHierarchy
