import FactHierarchy.Hierarchy.Basic

/-!
# Going down a hierarchy

`Hierarchy.descend` starts from a list of roots and meets the nodes below them depth first, each
root with all that is below it before the next root. A node is *entered* when it is met for the
first time, unless the descent is told that it is closed. Only an entered node is looked below.
Every meeting is recorded as a `Visit`, together with the chain of nodes above it.

The descent fails when it comes to a node that stands on the chain above it. The reason it gives
is that chain, from the root down, with the node at the end.

A descent is a sequence of small steps (`Descent.step`). It ends, because a node is entered at
most once and each entry of the list of nodes below it is read at most once: `Descent.stepsLeft`
counts what can still be entered and read, and every step makes it smaller (`stepsLeft_step_lt`).
-/

set_option autoImplicit false

namespace FactHierarchy

/-- A meeting with a node. The chain of nodes above it has the nearest first; it is empty for a
root. The flag tells whether the node is entered. -/
structure Visit where
  node : Node
  above : List Node
  entered : Bool
  deriving DecidableEq, Repr

/-- A node that is being looked below: the chain above it, the nearest first, and the nodes below
it that have not been met from it yet. -/
structure Frame (h : Hierarchy) where
  node : Node
  above : List Node
  unread : List Node
  mem_of_mem_unread : ∀ {c : Node}, c ∈ unread → c ∈ h.nodes

/-- A descent on its way: the roots still to come, the nodes being looked below with the innermost
first, and the visits made with the latest first. -/
structure Descent (h : Hierarchy) where
  waiting : List Node
  frames : List (Frame h) := []
  visits : List Visit := []

namespace Descent

variable {h : Hierarchy}

/-- The node has been entered. -/
def hasEntered (d : Descent h) (n : Node) : Bool := d.visits.any fun v => v.entered && v.node == n

/-- Meet a node, and enter it if it is neither closed nor entered yet. -/
def meet (closed : Node → Bool) (d : Descent h) (n : Node) (above : List Node) : Descent h :=
  if closed n || d.hasEntered n then { d with visits := ⟨n, above, false⟩ :: d.visits }
  else
    { d with
      frames := ⟨n, above, h.below n, h.mem_of_mem_below⟩ :: d.frames
      visits := ⟨n, above, true⟩ :: d.visits }

/-- One step. There is none left when all nodes below all roots have been met. -/
def step (closed : Node → Bool) (d : Descent h) : Except (List Node) (Option (Descent h)) :=
  match d with
  | ⟨[], [], _⟩ => .ok none
  -- All below the last root is done: go to the next one.
  | ⟨root :: waiting, [], visits⟩ => .ok (some (meet closed ⟨waiting, [], visits⟩ root []))
  -- All directly below the innermost node is done: go back up.
  | ⟨waiting, ⟨_, _, [], _⟩ :: frames, visits⟩ => .ok (some ⟨waiting, frames, visits⟩)
  -- Meet the next node below the innermost one.
  | ⟨waiting, ⟨n, above, child :: unread, mem⟩ :: frames, visits⟩ =>
    if child ∈ n :: above then .error ((n :: above).reverse ++ [child])
    else
      let rest : Frame h := ⟨n, above, unread, fun hc => mem (List.mem_cons_of_mem child hc)⟩
      .ok (some (meet closed ⟨waiting, rest :: frames, visits⟩ child (n :: above)))

/-! ## Every descent ends -/

/-- The steps that entering each of the nodes can still cause, as far as they have not been
entered. -/
def load (d : Descent h) (nodes : List Node) : Nat :=
  (nodes.map fun n => if d.hasEntered n then 0 else (h.below n).length + 1).foldr (· + ·) 0

/-- A bound on the number of steps that are left. -/
def stepsLeft (d : Descent h) : Nat :=
  d.load h.nodes + (d.waiting.map fun n => (h.below n).length + 2).foldr (· + ·) 0 +
    (d.frames.map fun f => f.unread.length + 1).foldr (· + ·) 0

theorem load_le_of_imp {d d' : Descent h} {nodes : List Node}
    (hd : ∀ n, d.hasEntered n = true → d'.hasEntered n = true) :
    d'.load nodes ≤ d.load nodes := by
  induction nodes with
  | nil => simp [load]
  | cons n nodes ih =>
    simp only [load, List.map_cons, List.foldr_cons] at ih ⊢
    have hn := hd n
    split <;> split <;> simp_all
    omega

theorem load_add_le_of_imp {d d' : Descent h} {nodes : List Node} {n : Node}
    (hd : ∀ n, d.hasEntered n = true → d'.hasEntered n = true) (hn : n ∈ nodes)
    (hnew : d.hasEntered n = false) (hold : d'.hasEntered n = true) :
    d'.load nodes + ((h.below n).length + 1) ≤ d.load nodes := by
  induction nodes with
  | nil => simp at hn
  | cons m nodes ih =>
    have htail : d'.load nodes ≤ d.load nodes := load_le_of_imp hd
    rcases List.mem_cons.1 hn with rfl | hn
    · simp only [load, List.map_cons, List.foldr_cons] at htail ⊢
      simp only [hnew, hold]
      simp
      omega
    · replace ih := ih hn
      have hm := hd m
      simp only [load, List.map_cons, List.foldr_cons] at ih ⊢
      split <;> split <;> simp_all <;> omega

theorem meet_of_known {closed : Node → Bool} {d : Descent h} {n : Node} {above : List Node}
    (hc : (closed n || d.hasEntered n) = true) :
    meet closed d n above = { d with visits := ⟨n, above, false⟩ :: d.visits } :=
  if_pos hc

theorem meet_of_new {closed : Node → Bool} {d : Descent h} {n : Node} {above : List Node}
    (hc : ¬(closed n || d.hasEntered n) = true) :
    meet closed d n above =
      { d with
        frames := ⟨n, above, h.below n, h.mem_of_mem_below⟩ :: d.frames
        visits := ⟨n, above, true⟩ :: d.visits } :=
  if_neg hc

/-- Meeting a node never undoes an entry. -/
theorem hasEntered_meet {closed : Node → Bool} {d : Descent h} {n : Node} {above : List Node}
    (m : Node) (hm : d.hasEntered m = true) : (meet closed d n above).hasEntered m = true := by
  by_cases hc : (closed n || d.hasEntered n) = true
  · rw [meet_of_known hc]
    simpa [hasEntered] using hm
  · rw [meet_of_new hc]
    rw [hasEntered] at hm ⊢
    rw [List.any_cons, hm, Bool.or_true]

/-- Meeting a root costs less than a waiting root is counted with. -/
theorem stepsLeft_meet_lt (closed : Node → Bool) (d : Descent h) (n : Node) (above : List Node) :
    (meet closed d n above).stepsLeft < d.stepsLeft + ((h.below n).length + 2) := by
  have hload : (meet closed d n above).load h.nodes ≤ d.load h.nodes :=
    load_le_of_imp hasEntered_meet
  by_cases hc : (closed n || d.hasEntered n) = true
  · rw [meet_of_known hc] at hload ⊢
    simp only [stepsLeft]
    omega
  · rw [meet_of_new hc] at hload ⊢
    simp only [stepsLeft, List.map_cons, List.foldr_cons]
    omega

/-- Meeting a node of the hierarchy costs nothing on balance. -/
theorem stepsLeft_meet_le (closed : Node → Bool) (d : Descent h) {n : Node} (above : List Node)
    (hn : n ∈ h.nodes) : (meet closed d n above).stepsLeft ≤ d.stepsLeft := by
  by_cases hc : (closed n || d.hasEntered n) = true
  · have hload : (meet closed d n above).load h.nodes ≤ d.load h.nodes :=
      load_le_of_imp hasEntered_meet
    rw [meet_of_known hc] at hload ⊢
    simp only [stepsLeft]
    omega
  · have hnew : d.hasEntered n = false := by simp_all
    have hold : (meet closed d n above).hasEntered n = true := by
      rw [meet_of_new hc]
      simp [hasEntered]
    have hload := load_add_le_of_imp hasEntered_meet hn hnew hold
    rw [meet_of_new hc] at hload ⊢
    simp only [stepsLeft, List.map_cons, List.foldr_cons]
    omega

/-- Every step brings the end nearer. -/
theorem stepsLeft_step_lt {closed : Node → Bool} {d d' : Descent h}
    (hs : d.step closed = .ok (some d')) : d'.stepsLeft < d.stepsLeft := by
  unfold step at hs
  split at hs
  · simp at hs
  · next root waiting visits =>
    cases hs
    refine Nat.lt_of_lt_of_le (stepsLeft_meet_lt closed _ root []) ?_
    simp [stepsLeft, load, hasEntered]
    omega
  · next waiting n above mem frames visits =>
    cases hs
    simp [stepsLeft, load, hasEntered]
  · next waiting n above child unread mem frames visits =>
    split at hs
    · simp at hs
    · cases hs
      refine Nat.lt_of_le_of_lt (stepsLeft_meet_le closed _ _ (mem (by simp))) ?_
      simp [stepsLeft, load, hasEntered]

/-! ## The whole descent -/

/-- All visits from here to the end, in the order in which they are made. -/
def finish (closed : Node → Bool) (d : Descent h) : Except (List Node) (List Visit) :=
  match _ : d.step closed with
  | .error chain => .error chain
  | .ok none => .ok d.visits.reverse
  | .ok (some d') => finish closed d'
termination_by d.stepsLeft
decreasing_by exact stepsLeft_step_lt ‹_›

end Descent

namespace Hierarchy

/-- Go down from the roots, and enter no node that is closed. -/
def descend (h : Hierarchy) (closed : Node → Bool) (roots : List Node) :
    Except (List Node) (List Visit) :=
  Descent.finish closed ({ waiting := roots } : Descent h)

end Hierarchy

end FactHierarchy
