import FactHierarchy.Proofs.Hierarchy.Loops

/-!
# What a search in a hierarchy depends on

A search sees the nodes that it comes to, and what is directly below and above them. So two
hierarchies that look alike on a set of nodes which no step down or up leaves (`Hierarchy.Alike`)
are searched with the same outcome from there, be it the visits that are made or the loop that is
found (`Hierarchy.Alike.descend_eq`, `Hierarchy.Alike.loopAbove?_eq`).

The two descents keep step: their states differ in nothing but the hierarchies that they are about
(`Descent.Alike`).
-/

set_option autoImplicit false

namespace FactHierarchy

/-- **The hierarchies look alike on a set of nodes**, and no step down or up leads out of it. -/
structure Hierarchy.Alike (T : Node → Prop) (h h' : Hierarchy) : Prop where
  below_eq : ∀ n, T n → h.below n = h'.below n
  parent?_eq : ∀ n, T n → h.parent? n = h'.parent? n
  of_mem_below : ∀ n, T n → ∀ c ∈ h.below n, T c
  of_parent? : ∀ n, T n → ∀ p, h.parent? n = some p → T p

variable {T : Node → Prop} {h h' : Hierarchy} {closed closed' : Node → Bool}

/-! ## Going down -/

/-- The same node is looked below, and the same nodes have not been met from it yet. -/
structure Frame.Alike (T : Node → Prop) (f : Frame h) (f' : Frame h') : Prop where
  node_eq : f.node = f'.node
  above_eq : f.above = f'.above
  unread_eq : f.unread = f'.unread
  of_mem_unread : ∀ c ∈ f.unread, T c

namespace Descent

/-- The descents are at the same place, and what they have still to read is in the set. -/
structure Alike (T : Node → Prop) (d : Descent h) (d' : Descent h') : Prop where
  waiting_eq : d.waiting = d'.waiting
  frames : List.Forall₂ (Frame.Alike T) d.frames d'.frames
  visits_eq : d.visits = d'.visits
  of_mem_waiting : ∀ n ∈ d.waiting, T n

variable {d : Descent h} {d' : Descent h'}

section Meet

variable (halike : h.Alike T h') (hclosed : ∀ n, T n → closed n = closed' n)
include halike hclosed

theorem Alike.meet {n : Node} (hd : d.Alike T d') (hn : T n) (above : List Node) :
    (d.meet closed n above).Alike T (d'.meet closed' n above) := by
  have hknown : (closed n || d.hasEntered n) = (closed' n || d'.hasEntered n) := by
    rw [hasEntered, hasEntered, hclosed n hn, hd.visits_eq]
  have hvisits : ∀ visit, visit :: d.visits = visit :: d'.visits :=
    fun visit => congrArg (visit :: ·) hd.visits_eq
  by_cases hc : (closed n || d.hasEntered n) = true
  · rw [meet_of_known hc, meet_of_known (hknown ▸ hc)]
    exact ⟨hd.waiting_eq, hd.frames, hvisits _, hd.of_mem_waiting⟩
  · rw [meet_of_new hc, meet_of_new (hknown ▸ hc)]
    have hframe : Frame.Alike T (⟨n, above, h.below n, h.mem_of_mem_below⟩ : Frame h)
        (⟨n, above, h'.below n, h'.mem_of_mem_below⟩ : Frame h') :=
      ⟨rfl, rfl, halike.below_eq n hn, halike.of_mem_below n hn⟩
    exact ⟨hd.waiting_eq, .cons hframe hd.frames, hvisits _, hd.of_mem_waiting⟩

/-- **The descents fail together, end together or take a step together.** -/
theorem Alike.step (hd : d.Alike T d') :
    (∃ chain, d.step closed = .error chain ∧ d'.step closed' = .error chain) ∨
      (d.step closed = .ok none ∧ d'.step closed' = .ok none) ∨
      ∃ next next', d.step closed = .ok (some next) ∧ d'.step closed' = .ok (some next') ∧
        next.Alike T next' := by
  obtain ⟨waiting, frames, visits⟩ := d
  obtain ⟨waiting', frames', visits'⟩ := d'
  obtain ⟨hwaiting, hframes, hvisits, hmem⟩ := hd
  dsimp only at hwaiting hframes hvisits hmem
  subst hwaiting hvisits
  cases hframes with
  | nil =>
      cases waiting with
      | nil => exact .inr (.inl ⟨rfl, rfl⟩)
      | cons root waiting =>
          obtain ⟨hroot, hmem⟩ := List.forall_mem_cons.1 hmem
          have hrest : Alike T (⟨waiting, [], visits⟩ : Descent h)
              (⟨waiting, [], visits⟩ : Descent h') := ⟨rfl, .nil, rfl, hmem⟩
          exact .inr (.inr ⟨_, _, rfl, rfl, hrest.meet halike hclosed hroot []⟩)
  | @cons f f' frames frames' hf hframes =>
      obtain ⟨n, above, unread, mem⟩ := f
      obtain ⟨n', above', unread', mem'⟩ := f'
      obtain ⟨hnode, habove, hunread, hT⟩ := hf
      dsimp only at hnode habove hunread hT
      subst hnode habove hunread
      cases unread with
      | nil =>
          have hup : Alike T (⟨waiting, frames, visits⟩ : Descent h)
              (⟨waiting, frames', visits⟩ : Descent h') := ⟨rfl, hframes, rfl, hmem⟩
          refine .inr (.inr ⟨_, _, ?_, ?_, hup⟩)
          · rw [Descent.step]
          · rw [Descent.step]
      | cons child unread =>
          obtain ⟨hchild, hT⟩ := List.forall_mem_cons.1 hT
          by_cases hloop : child ∈ n :: above
          · refine .inl ⟨(n :: above).reverse ++ [child], ?_, ?_⟩
            · rw [Descent.step, if_pos hloop]
            · rw [Descent.step, if_pos hloop]
          · have hrest : Alike T
                (⟨waiting, ⟨n, above, unread, fun hc => mem (List.mem_cons_of_mem child hc)⟩ ::
                  frames, visits⟩ : Descent h)
                (⟨waiting, ⟨n, above, unread, fun hc => mem' (List.mem_cons_of_mem child hc)⟩ ::
                  frames', visits⟩ : Descent h') :=
              ⟨rfl, .cons ⟨rfl, rfl, rfl, hT⟩ hframes, rfl, hmem⟩
            refine .inr (.inr ⟨_, _, ?_, ?_, hrest.meet halike hclosed hchild (n :: above)⟩)
            · rw [Descent.step, if_neg hloop]
            · rw [Descent.step, if_neg hloop]

end Meet

/-- What is left of a descent, after its next step. -/
theorem finish_eq (d : Descent h) :
    d.finish closed =
      match d.step closed with
      | .error chain => .error chain
      | .ok none => .ok d.visits.reverse
      | .ok (some next) => next.finish closed := by
  rw [finish]
  split
  · next hs => rw [hs]
  · next hs => rw [hs]
  · next hs => rw [hs]

/-- **Descents that are at the same place have the same outcome.** -/
theorem Alike.finish_eq (halike : h.Alike T h') (hclosed : ∀ n, T n → closed n = closed' n)
    (hd : d.Alike T d') : d.finish closed = d'.finish closed' := by
  -- by induction on what is left of the first descent
  induction hleft : d.stepsLeft using Nat.strong_induction_on generalizing d d' with
  | h left ih =>
      subst hleft
      rw [Descent.finish_eq d, Descent.finish_eq d']
      obtain ⟨chain, hs, hs'⟩ | ⟨hs, hs'⟩ | ⟨next, next', hs, hs', hnext⟩ :=
        hd.step halike hclosed
      · rw [hs, hs']
      · rw [hs, hs', hd.visits_eq]
      · rw [hs, hs']
        exact ih _ (stepsLeft_step_lt hs) hnext rfl

end Descent

/-- The way up ends where there is no parent. -/
theorem Hierarchy.climb_of_none {n : Node} {behind : List Node} (hp : h.parent? n = none) :
    h.climb n behind = none := by
  rw [climb]
  split
  · rfl
  · next hp' =>
    rw [hp] at hp'
    cases hp'

/-- The way up comes back to a node that is on it, or goes on from the parent. -/
theorem Hierarchy.climb_of_some {n p : Node} {behind : List Node} (hp : h.parent? n = some p) :
    h.climb n behind =
      if p ∈ n :: behind then some (p :: ((n :: behind).takeWhile (· ≠ p)).reverse ++ [p])
      else h.climb p (n :: behind) := by
  rw [climb]
  split
  · next hp' =>
    rw [hp] at hp'
    cases hp'
  · next p' hp' =>
    obtain rfl : p = p' := Option.some.inj (hp.symm.trans hp')
    split
    · rfl
    · rfl

namespace Hierarchy.Alike

variable (halike : h.Alike T h')
include halike

/-- **Descents from roots in the set have the same outcome.** -/
theorem descend_eq {roots : List Node} (hclosed : ∀ n, T n → closed n = closed' n)
    (hroots : ∀ n ∈ roots, T n) : h.descend closed roots = h'.descend closed' roots :=
  Descent.Alike.finish_eq halike hclosed ⟨rfl, .nil, rfl, hroots⟩

/-- A descent from roots in the set does not leave it: what is entered is in the set, with all
nodes above. -/
theorem of_mem_chain {roots above : List Node} {visits : List Visit} {n : Node}
    (hroots : ∀ n ∈ roots, T n) (hexplored : h.Explored closed roots visits)
    (hn : ⟨n, above, true⟩ ∈ visits) : ∀ m ∈ n :: above, T m := by
  induction above generalizing n with
  | nil =>
      intro m hm
      rw [List.mem_singleton.1 hm]
      exact hroots n (hexplored.origin _ hn)
  | cons p above ih =>
      obtain ⟨hp, hbelow⟩ := hexplored.origin _ hn
      have habove : ∀ m ∈ p :: above, T m := ih hp
      exact List.forall_mem_cons.2
        ⟨halike.of_mem_below p (habove p (List.mem_cons_self ..)) n hbelow, habove⟩

/-! ## Going up -/

theorem climb_eq {n : Node} {behind : List Node} (hn : T n) :
    h.climb n behind = h'.climb n behind := by
  fun_induction climb h n behind with
  | case1 n behind hp =>
      have hp' : h'.parent? n = none := (halike.parent?_eq n hn).symm.trans hp
      rw [climb_of_none hp']
  | case2 n behind p hp hmem =>
      have hp' : h'.parent? n = some p := (halike.parent?_eq n hn).symm.trans hp
      rw [climb_of_some hp', if_pos hmem]
  | case3 n behind p hp hnew ih =>
      have hp' : h'.parent? n = some p := (halike.parent?_eq n hn).symm.trans hp
      rw [climb_of_some hp', if_neg hnew]
      exact ih (halike.of_parent? n hn p hp)

/-- **The way up from a node in the set runs into the same loop**, or into none. -/
theorem loopAbove?_eq {n : Node} (hn : T n) : h.loopAbove? n = h'.loopAbove? n :=
  halike.climb_eq hn

end Hierarchy.Alike

end FactHierarchy
