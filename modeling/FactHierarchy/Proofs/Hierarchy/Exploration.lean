import FactHierarchy.Hierarchy.Descent
import Mathlib.Data.List.Chain
import Mathlib.Data.List.Nodup
import Mathlib.Logic.Relation

/-!
# What a descent explores

A descent that comes to its end has explored everything that is open (`Hierarchy.Explored`): each
open root and each open node below an entered one is entered, exactly once and from where the
record says, and **no way down through open nodes goes on for ever** from an entered node. A
descent that fails has found a chain from a root that runs into itself (`Hierarchy.RunsIntoItself`).

Both follow from an invariant of the small steps of a descent (`Descent.Tidy`). Its core is that
a node below which everything has been met has only finished open nodes below it, so that
finished nodes are well-founded: a node that is still being looked below would be on the chain,
and meeting it would have been an error.
-/

set_option autoImplicit false

namespace FactHierarchy

/-- The node is entered in one of the visits. -/
def Entered (visits : List Visit) (n : Node) : Prop := ∃ above, ⟨n, above, true⟩ ∈ visits

theorem Entered.cons {visits : List Visit} {n : Node} (h : Entered visits n) (visit : Visit) :
    Entered (visit :: visits) n :=
  h.imp fun _ => List.mem_cons_of_mem visit

theorem entered_cons_iff {visits : List Visit} {m n : Node} {above : List Node} :
    Entered (⟨m, above, true⟩ :: visits) n ↔ n = m ∨ Entered visits n := by
  constructor
  · rintro ⟨above', hn⟩
    rcases List.mem_cons.1 hn with heq | hn
    · exact .inl (congrArg Visit.node heq)
    · exact .inr ⟨above', hn⟩
  · rintro (rfl | hn)
    · exact ⟨above, List.mem_cons_self ..⟩
    · exact hn.cons _

theorem entered_cons_false_iff {visits : List Visit} {m n : Node} {above : List Node} :
    Entered (⟨m, above, false⟩ :: visits) n ↔ Entered visits n := by
  constructor
  · rintro ⟨above', hn⟩
    rcases List.mem_cons.1 hn with heq | hn
    · exact absurd (congrArg Visit.entered heq) (by simp)
    · exact ⟨above', hn⟩
  · exact fun hn => hn.cons _

/-- The nodes that are entered, in the order of the visits. -/
def enteredNodes (visits : List Visit) : List Node := (visits.filter Visit.entered).map Visit.node

theorem mem_enteredNodes {visits : List Visit} {n : Node} :
    n ∈ enteredNodes visits ↔ Entered visits n := by
  rw [enteredNodes, List.mem_map]
  constructor
  · rintro ⟨⟨m, above, entered⟩, hm, rfl⟩
    obtain ⟨hm, rfl⟩ := List.mem_filter.1 hm
    exact ⟨above, hm⟩
  · rintro ⟨above, hn⟩
    exact ⟨_, List.mem_filter.2 ⟨hn, rfl⟩, rfl⟩

namespace Hierarchy

/-- A node that is open and stands directly below another one. -/
def OpenBelow (h : Hierarchy) (closed : Node → Bool) (c n : Node) : Prop :=
  c ∈ h.below n ∧ closed c = false

/-- The node and the chain above it come from a root, or from an entered node above. -/
def HasOrigin (h : Hierarchy) (roots : List Node) (visits : List Visit) (n : Node) :
    List Node → Prop
  | [] => n ∈ roots
  | p :: above => ⟨p, above, true⟩ ∈ visits ∧ n ∈ h.below p

/-- **What a descent has done** when it ends. -/
structure Explored (h : Hierarchy) (closed : Node → Bool) (roots : List Node)
    (visits : List Visit) : Prop where
  origin : ∀ visit ∈ visits, h.HasOrigin roots visits visit.node visit.above
  opened : ∀ n, Entered visits n → closed n = false
  passed : ∀ visit ∈ visits, visit.entered = false →
    closed visit.node = true ∨ Entered visits visit.node
  once : (enteredNodes visits).Nodup
  roots_met : ∀ r ∈ roots, closed r = true ∨ Entered visits r
  below_met : ∀ n, Entered visits n → ∀ c ∈ h.below n, closed c = true ∨ Entered visits c
  acc : ∀ n, Entered visits n → Acc (h.OpenBelow closed) n

/-- Nothing is entered from roots that are closed. -/
theorem Explored.not_entered_of_closed {h : Hierarchy} {closed : Node → Bool} {roots : List Node}
    {visits : List Visit} (hexplored : h.Explored closed roots visits)
    (hroots : ∀ r ∈ roots, closed r = true) {n : Node} : ¬Entered visits n := by
  rintro ⟨above, hn⟩
  induction above generalizing n with
  | nil =>
      have hopen := hexplored.opened n ⟨_, hn⟩
      rw [hroots n (hexplored.origin _ hn)] at hopen
      cases hopen
  | cons p above ih => exact ih (hexplored.origin _ hn).1

/-- A chain that starts from a root, goes down through open nodes, each once, and ends with a node
that is on it already. -/
structure RunsIntoItself (h : Hierarchy) (closed : Node → Bool) (roots chain : List Node) :
    Prop where
  descends : chain.IsChain fun n c => c ∈ h.below n
  head : ∃ r ∈ roots, chain.head? = some r
  returns : ∃ way last, chain = way ++ [last] ∧ last ∈ way ∧ way.Nodup ∧ ∀ n ∈ way, closed n = false

end Hierarchy

namespace Descent

variable {h : Hierarchy} {closed : Node → Bool} {roots : List Node}

/-! ## Small steps -/

theorem hasEntered_iff {d : Descent h} {n : Node} :
    d.hasEntered n = true ↔ Entered d.visits n := by
  simp only [hasEntered, List.any_eq_true, Bool.and_eq_true, beq_iff_eq]
  constructor
  · rintro ⟨⟨m, above, entered⟩, hm, rfl, rfl⟩
    exact ⟨above, hm⟩
  · rintro ⟨above, hn⟩
    exact ⟨_, hn, rfl, rfl⟩

/-- **Everything a step can do**: go on to the next root, go back up from a node below which
everything is met, or meet the next node below the innermost one, which is not on the chain. -/
theorem step_cases {d d' : Descent h} (hs : d.step closed = .ok (some d')) :
    (∃ root waiting, d.waiting = root :: waiting ∧ d.frames = [] ∧
      d' = meet closed ⟨waiting, [], d.visits⟩ root []) ∨
    (∃ f frames, d.frames = f :: frames ∧ f.unread = [] ∧ d' = ⟨d.waiting, frames, d.visits⟩) ∨
    (∃ f rest : Frame h, ∃ frames child, d.frames = f :: frames ∧
      f.unread = child :: rest.unread ∧ rest.node = f.node ∧ rest.above = f.above ∧
      child ∉ f.node :: f.above ∧
      d' = meet closed ⟨d.waiting, rest :: frames, d.visits⟩ child (f.node :: f.above)) := by
  unfold step at hs
  split at hs
  · cases hs
  · cases hs
    exact .inl ⟨_, _, rfl, rfl, rfl⟩
  · cases hs
    exact .inr (.inl ⟨_, _, rfl, rfl, rfl⟩)
  · split at hs
    · cases hs
    · next hchild =>
      cases hs
      exact .inr (.inr ⟨_, ⟨_, _, _, _⟩, _, _, rfl, rfl, rfl, rfl, hchild, rfl⟩)

theorem eq_nil_of_step_eq_none {d : Descent h} (hs : d.step closed = .ok none) :
    d.waiting = [] ∧ d.frames = [] := by
  unfold step at hs
  split at hs
  · exact ⟨rfl, rfl⟩
  · cases hs
  · cases hs
  · split at hs <;> cases hs

theorem step_error {d : Descent h} {chain : List Node} (hs : d.step closed = .error chain) :
    ∃ f frames child, d.frames = f :: frames ∧ child ∈ f.unread ∧ child ∈ f.node :: f.above ∧
      chain = (f.node :: f.above).reverse ++ [child] := by
  unfold step at hs
  split at hs
  · cases hs
  · cases hs
  · cases hs
  · split at hs
    · next hchild =>
      cases hs
      exact ⟨_, _, _, rfl, List.mem_cons_self .., hchild, rfl⟩
    · cases hs

/-- Some steps lead from one state to another. -/
def LeadsTo (closed : Node → Bool) : Descent h → Descent h → Prop :=
  Relation.ReflTransGen fun d d' => d.step closed = .ok (some d')

theorem exists_of_finish_eq_ok {d : Descent h} {visits : List Visit}
    (hf : d.finish closed = .ok visits) :
    ∃ last, d.LeadsTo closed last ∧ last.step closed = .ok none ∧ visits = last.visits.reverse := by
  fun_induction finish closed d with
  | case1 d chain hs => cases hf
  | case2 d hs =>
      cases hf
      exact ⟨d, .refl, hs, rfl⟩
  | case3 d d' hs ih =>
      obtain ⟨last, hlast, hend⟩ := ih hf
      exact ⟨last, .head hs hlast, hend⟩

theorem exists_of_finish_eq_error {d : Descent h} {chain : List Node}
    (hf : d.finish closed = .error chain) :
    ∃ last, d.LeadsTo closed last ∧ last.step closed = .error chain := by
  fun_induction finish closed d with
  | case1 d chain hs =>
      cases hf
      exact ⟨d, .refl, hs⟩
  | case2 d hs => cases hf
  | case3 d d' hs ih =>
      obtain ⟨last, hlast, hend⟩ := ih hf
      exact ⟨last, .head hs hlast, hend⟩

/-! ## The invariant -/

/-- The chain above each frame is made of the frames further out. -/
def Stacked : List (Frame h) → Prop
  | [] => True
  | f :: frames => f.above = frames.map Frame.node ∧ Stacked frames

/-- **The invariant of a descent.** A `pending` node is one that has been taken from the roots or
from the innermost frame and is about to be met. -/
structure Tidy (closed : Node → Bool) (roots : List Node) (pending : Option Node)
    (d : Descent h) : Prop where
  origin : ∀ visit ∈ d.visits, h.HasOrigin roots d.visits visit.node visit.above
  opened : ∀ n, Entered d.visits n → closed n = false
  passed : ∀ visit ∈ d.visits, visit.entered = false →
    closed visit.node = true ∨ Entered d.visits visit.node
  once : (enteredNodes d.visits).Nodup
  stacked : Stacked d.frames
  frames_nodup : (d.frames.map Frame.node).Nodup
  frames_entered : ∀ f ∈ d.frames, ⟨f.node, f.above, true⟩ ∈ d.visits
  unread_below : ∀ f ∈ d.frames, ∀ c ∈ f.unread, c ∈ h.below f.node
  read : ∀ f ∈ d.frames, ∀ c ∈ h.below f.node, c ∈ f.unread ∨ closed c = true ∨
    (c ∉ f.node :: f.above ∧ (pending = some c ∨ Entered d.visits c))
  finished : ∀ n, Entered d.visits n → n ∉ d.frames.map Frame.node →
    Acc (h.OpenBelow closed) n ∧ ∀ c ∈ h.below n, closed c = true ∨ Entered d.visits c
  waiting_sub : ∀ r ∈ d.waiting, r ∈ roots
  roots_met : ∀ r ∈ roots, r ∈ d.waiting ∨ closed r = true ∨ pending = some r ∨ Entered d.visits r

theorem Tidy.start (closed : Node → Bool) (roots : List Node) :
    Tidy closed roots none ({ waiting := roots } : Descent h) where
  origin _ hv := absurd hv List.not_mem_nil
  opened _ hn := absurd hn.choose_spec List.not_mem_nil
  passed _ hv := absurd hv List.not_mem_nil
  once := .nil
  stacked := trivial
  frames_nodup := .nil
  frames_entered _ hf := absurd hf List.not_mem_nil
  unread_below _ hf := absurd hf List.not_mem_nil
  read _ hf := absurd hf List.not_mem_nil
  finished _ hn := absurd hn.choose_spec List.not_mem_nil
  waiting_sub _ hr := hr
  roots_met _ hr := .inl hr

theorem hasOrigin_cons {visits : List Visit} {n : Node} {above : List Node}
    (ho : h.HasOrigin roots visits n above) (visit : Visit) :
    h.HasOrigin roots (visit :: visits) n above := by
  cases above with
  | nil => exact ho
  | cons p above => exact ⟨List.mem_cons_of_mem visit ho.1, ho.2⟩

/-- Passing over a node that is closed or entered keeps the invariant. -/
theorem Tidy.pass {d : Descent h} {n : Node} {above : List Node}
    (ht : Tidy closed roots (some n) d) (hn : closed n = true ∨ Entered d.visits n)
    (ho : h.HasOrigin roots d.visits n above) :
    Tidy closed roots none { d with visits := ⟨n, above, false⟩ :: d.visits } where
  origin visit hv := by
    rcases List.mem_cons.1 hv with rfl | hv
    · exact hasOrigin_cons ho _
    · exact hasOrigin_cons (ht.origin visit hv) _
  opened m hm := ht.opened m (entered_cons_false_iff.1 hm)
  passed visit hv he := by
    rcases List.mem_cons.1 hv with rfl | hv
    · exact hn.imp_right fun hm => hm.cons _
    · exact (ht.passed visit hv he).imp_right fun hm => hm.cons _
  once := ht.once
  stacked := ht.stacked
  frames_nodup := ht.frames_nodup
  frames_entered f hf := List.mem_cons_of_mem _ (ht.frames_entered f hf)
  unread_below := ht.unread_below
  read f hf c hc := by
    rcases ht.read f hf c hc with hc | hc | ⟨hnew, hc | hc⟩
    · exact .inl hc
    · exact .inr (.inl hc)
    · -- the pending node is closed or entered, whichever it was passed over for
      obtain rfl : n = c := Option.some.inj hc
      exact .inr (hn.imp_right fun hm => ⟨hnew, .inr (hm.cons _)⟩)
    · exact .inr (.inr ⟨hnew, .inr (hc.cons _)⟩)
  finished m hm hout := by
    obtain ⟨hacc, hbelow⟩ := ht.finished m (entered_cons_false_iff.1 hm) hout
    exact ⟨hacc, fun c hc => (hbelow c hc).imp_right fun hm => hm.cons _⟩
  waiting_sub := ht.waiting_sub
  roots_met r hr := by
    rcases ht.roots_met r hr with hr | hr | hr | hr
    · exact .inl hr
    · exact .inr (.inl hr)
    · obtain rfl : n = r := Option.some.inj hr
      exact .inr (hn.imp_right fun hm => .inr (hm.cons _))
    · exact .inr (.inr (.inr (hr.cons _)))

/-- Entering an open node that is not entered yet keeps the invariant. -/
theorem Tidy.enter {d : Descent h} {n : Node} (ht : Tidy closed roots (some n) d)
    (hopen : closed n = false) (hnew : ¬Entered d.visits n)
    (ho : h.HasOrigin roots d.visits n (d.frames.map Frame.node)) :
    Tidy closed roots none
      { d with
        frames := ⟨n, d.frames.map Frame.node, h.below n, h.mem_of_mem_below⟩ :: d.frames
        visits := ⟨n, d.frames.map Frame.node, true⟩ :: d.visits } where
  origin visit hv := by
    rcases List.mem_cons.1 hv with rfl | hv
    · exact hasOrigin_cons ho _
    · exact hasOrigin_cons (ht.origin visit hv) _
  opened m hm := by
    rcases entered_cons_iff.1 hm with rfl | hm
    · exact hopen
    · exact ht.opened m hm
  passed visit hv he := by
    rcases List.mem_cons.1 hv with rfl | hv
    · cases he
    · exact (ht.passed visit hv he).imp_right fun hm => hm.cons _
  once := List.nodup_cons.2 ⟨fun hm => hnew (mem_enteredNodes.1 hm), ht.once⟩
  stacked := ⟨rfl, ht.stacked⟩
  frames_nodup := by
    refine List.nodup_cons.2 ⟨fun hm => ?_, ht.frames_nodup⟩
    obtain ⟨f, hf, rfl⟩ := List.mem_map.1 hm
    exact hnew ⟨f.above, ht.frames_entered f hf⟩
  frames_entered f hf := by
    rcases List.mem_cons.1 hf with rfl | hf
    · exact List.mem_cons_self ..
    · exact List.mem_cons_of_mem _ (ht.frames_entered f hf)
  unread_below f hf := by
    rcases List.mem_cons.1 hf with rfl | hf
    · exact fun c hc => hc
    · exact ht.unread_below f hf
  read f hf c hc := by
    rcases List.mem_cons.1 hf with rfl | hf
    · exact .inl hc
    · rcases ht.read f hf c hc with hc | hc | ⟨hout, hc | hc⟩
      · exact .inl hc
      · exact .inr (.inl hc)
      · obtain rfl : n = c := Option.some.inj hc
        exact .inr (.inr ⟨hout, .inr (entered_cons_iff.2 (.inl rfl))⟩)
      · exact .inr (.inr ⟨hout, .inr (hc.cons _)⟩)
  finished m hm hout := by
    -- the new node stands on the chain, so no node becomes finished
    rw [List.map_cons, List.mem_cons, not_or] at hout
    have hm : Entered d.visits m := (entered_cons_iff.1 hm).resolve_left hout.1
    obtain ⟨hacc, hbelow⟩ := ht.finished m hm hout.2
    exact ⟨hacc, fun c hc => (hbelow c hc).imp_right fun hm => hm.cons _⟩
  waiting_sub := ht.waiting_sub
  roots_met r hr := by
    rcases ht.roots_met r hr with hr | hr | hr | hr
    · exact .inl hr
    · exact .inr (.inl hr)
    · obtain rfl : n = r := Option.some.inj hr
      exact .inr (.inr (.inr (entered_cons_iff.2 (.inl rfl))))
    · exact .inr (.inr (.inr (hr.cons _)))

/-- Meeting the pending node keeps the invariant. -/
theorem Tidy.meet {d : Descent h} {n : Node} (ht : Tidy closed roots (some n) d)
    (ho : h.HasOrigin roots d.visits n (d.frames.map Frame.node)) :
    Tidy closed roots none (Descent.meet closed d n (d.frames.map Frame.node)) := by
  by_cases hc : (closed n || d.hasEntered n) = true
  · rw [meet_of_known hc]
    rw [Bool.or_eq_true, hasEntered_iff] at hc
    exact ht.pass hc ho
  · rw [meet_of_new hc]
    rw [Bool.or_eq_true, hasEntered_iff, not_or, Bool.not_eq_true] at hc
    exact ht.enter hc.1 hc.2 ho

/-- Going back up from a node below which everything is met makes it a finished node. -/
theorem Tidy.goUp {d : Descent h} {f : Frame h} {frames : List (Frame h)}
    (ht : Tidy closed roots none d) (hf : d.frames = f :: frames) (hread : f.unread = []) :
    Tidy closed roots none ⟨d.waiting, frames, d.visits⟩ := by
  obtain ⟨waiting, _, visits⟩ := d
  cases hf
  have hsub : ∀ {f' : Frame h}, f' ∈ frames → f' ∈ f :: frames := List.mem_cons_of_mem f
  have hmet : ∀ c ∈ h.below f.node,
      closed c = true ∨ (c ∉ f.node :: frames.map Frame.node ∧ Entered visits c) := by
    intro c hc
    rcases ht.read f (List.mem_cons_self ..) c hc with hc | hc | ⟨hout, hc | hc⟩
    · rw [hread] at hc
      cases hc
    · exact .inl hc
    · cases hc
    · rw [ht.stacked.1] at hout
      exact .inr ⟨hout, hc⟩
  refine
    { ht with
      stacked := ht.stacked.2
      frames_nodup := (List.nodup_cons.1 ht.frames_nodup).2
      frames_entered := fun f' hf' => ht.frames_entered f' (hsub hf')
      unread_below := fun f' hf' => ht.unread_below f' (hsub hf')
      read := fun f' hf' => ht.read f' (hsub hf')
      finished := fun m hm hout => ?_ }
  by_cases hmf : m = f.node
  · subst hmf
    refine ⟨.intro _ fun c hc => ?_, fun c hc => (hmet c hc).imp_right And.right⟩
    -- an open node below is entered and not on the chain, so it is finished already
    rcases hmet c hc.1 with hclosed | ⟨hcout, hce⟩
    · rw [hc.2] at hclosed
      cases hclosed
    · exact (ht.finished c hce hcout).1
  · exact ht.finished m hm fun hmem => (List.mem_cons.1 hmem).elim hmf hout

/-- Taking the next root makes it the pending node. -/
theorem Tidy.takeRoot {d : Descent h} {root : Node} {waiting : List Node}
    (ht : Tidy closed roots none d) (hwaiting : d.waiting = root :: waiting)
    (hframes : d.frames = []) :
    Tidy closed roots (some root) (⟨waiting, [], d.visits⟩ : Descent h) := by
  obtain ⟨_, _, visits⟩ := d
  cases hwaiting
  cases hframes
  exact
    { ht with
      read := fun _ hf => absurd hf List.not_mem_nil
      waiting_sub := fun r hr => ht.waiting_sub r (List.mem_cons_of_mem root hr)
      roots_met := fun r hr => by
        rcases ht.roots_met r hr with hr | hr | hr | hr
        · rcases List.mem_cons.1 hr with rfl | hr
          · exact .inr (.inr (.inl rfl))
          · exact .inl hr
        · exact .inr (.inl hr)
        · cases hr
        · exact .inr (.inr (.inr hr)) }

/-- Taking the next unread node from the innermost frame makes it the pending node. It is not on
the chain, or the step would have failed. -/
theorem Tidy.takeUnread {d : Descent h} {f rest : Frame h} {frames : List (Frame h)}
    {child : Node} (ht : Tidy closed roots none d) (hframes : d.frames = f :: frames)
    (hunread : f.unread = child :: rest.unread) (hnode : rest.node = f.node)
    (habove : rest.above = f.above) (hchild : child ∉ f.node :: f.above) :
    Tidy closed roots (some child) (⟨d.waiting, rest :: frames, d.visits⟩ : Descent h) := by
  obtain ⟨waiting, _, visits⟩ := d
  cases hframes
  have hfmem : f ∈ f :: frames := List.mem_cons_self ..
  have hmap : (rest :: frames).map Frame.node = f.node :: frames.map Frame.node := by
    rw [List.map_cons, hnode]
  exact
    { ht with
      stacked := ⟨habove.trans ht.stacked.1, ht.stacked.2⟩
      frames_nodup := by
        rw [hmap]
        exact ht.frames_nodup
      frames_entered := fun f' hf' => by
        rcases List.mem_cons.1 hf' with rfl | hf'
        · rw [hnode, habove]
          exact ht.frames_entered f hfmem
        · exact ht.frames_entered f' (List.mem_cons_of_mem f hf')
      unread_below := fun f' hf' c hc => by
        rcases List.mem_cons.1 hf' with rfl | hf'
        · rw [hnode]
          exact ht.unread_below f hfmem c (by rw [hunread]; exact List.mem_cons_of_mem child hc)
        · exact ht.unread_below f' (List.mem_cons_of_mem f hf') c hc
      read := fun f' hf' c hc => by
        rcases List.mem_cons.1 hf' with rfl | hf'
        · rw [hnode] at hc ⊢
          rw [habove]
          rcases ht.read f hfmem c hc with hc | hc | ⟨hout, hc | hc⟩
          · -- of the nodes that were unread, only the first one is read now
            rw [hunread] at hc
            rcases List.mem_cons.1 hc with rfl | hc
            · exact .inr (.inr ⟨hchild, .inl rfl⟩)
            · exact .inl hc
          · exact .inr (.inl hc)
          · cases hc
          · exact .inr (.inr ⟨hout, .inr hc⟩)
        · rcases ht.read f' (List.mem_cons_of_mem f hf') c hc with hc | hc | ⟨hout, hc | hc⟩
          · exact .inl hc
          · exact .inr (.inl hc)
          · cases hc
          · exact .inr (.inr ⟨hout, .inr hc⟩)
      finished := fun m hm hout => by
        rw [hmap] at hout
        exact ht.finished m hm hout
      roots_met := fun r hr => by
        rcases ht.roots_met r hr with hr | hr | hr | hr
        · exact .inl hr
        · exact .inr (.inl hr)
        · cases hr
        · exact .inr (.inr (.inr hr)) }

/-- **Every step keeps the invariant.** -/
theorem Tidy.step {d d' : Descent h} (ht : Tidy closed roots none d)
    (hs : d.step closed = .ok (some d')) : Tidy closed roots none d' := by
  obtain ⟨root, waiting, hwaiting, hframes, rfl⟩ | ⟨f, frames, hframes, hread, rfl⟩ |
    ⟨f, rest, frames, child, hframes, hunread, hnode, habove, hchild, rfl⟩ := step_cases hs
  · have hroot : root ∈ roots := by
      refine ht.waiting_sub root ?_
      rw [hwaiting]
      exact List.mem_cons_self ..
    exact (ht.takeRoot hwaiting hframes).meet hroot
  · exact ht.goUp hframes hread
  · have hpending := ht.takeUnread hframes hunread hnode habove hchild
    have hf : f ∈ d.frames := by
      rw [hframes]
      exact List.mem_cons_self ..
    -- the frames further out make the chain above the child
    have hchain : (rest :: frames).map Frame.node = f.node :: f.above := by
      have hstacked := ht.stacked
      rw [hframes] at hstacked
      rw [List.map_cons, hnode, hstacked.1]
    have horigin : h.HasOrigin roots d.visits child (f.node :: f.above) := by
      refine ⟨ht.frames_entered f hf, ht.unread_below f hf child ?_⟩
      rw [hunread]
      exact List.mem_cons_self ..
    rw [← hchain] at horigin ⊢
    exact hpending.meet horigin

theorem Tidy.leadsTo {d d' : Descent h} (ht : Tidy closed roots none d)
    (hd : d.LeadsTo closed d') : Tidy closed roots none d' := by
  induction hd with
  | refl => exact ht
  | tail _ hs ih => exact ih.step hs

/-- A chain that is recorded above an entered node starts from a root and goes down. -/
theorem Tidy.chain {d : Descent h} (ht : Tidy closed roots none d) {n : Node} {above : List Node}
    (hn : ⟨n, above, true⟩ ∈ d.visits) :
    (n :: above).IsChain (fun c p => c ∈ h.below p) ∧
      (∃ r ∈ roots, (n :: above).getLast? = some r) ∧ ∀ m ∈ n :: above, closed m = false := by
  induction above generalizing n with
  | nil =>
      refine ⟨.singleton n, ⟨n, ht.origin _ hn, rfl⟩, fun m hm => ?_⟩
      rw [List.mem_singleton.1 hm]
      exact ht.opened n ⟨[], hn⟩
  | cons p above ih =>
      obtain ⟨hp, hbelow⟩ := ht.origin _ hn
      obtain ⟨hchain, ⟨r, hr, hlast⟩, hopen⟩ := ih hp
      refine ⟨.cons_cons hbelow hchain, ⟨r, hr, ?_⟩, fun m hm => ?_⟩
      · rw [List.getLast?_cons_cons]
        exact hlast
      · rcases List.mem_cons.1 hm with rfl | hm
        · exact ht.opened _ ⟨_, hn⟩
        · exact hopen m hm

end Descent

namespace Hierarchy

variable {h : Hierarchy} {closed : Node → Bool} {roots : List Node}

/-! ## The whole descent -/

/-- **A descent that ends has explored all that is open below its roots.** -/
theorem explored_of_descend_eq_ok {visits : List Visit}
    (hd : h.descend closed roots = .ok visits) : h.Explored closed roots visits := by
  obtain ⟨last, hlead, hend, rfl⟩ := Descent.exists_of_finish_eq_ok hd
  have ht : last.Tidy closed roots none := (Descent.Tidy.start closed roots).leadsTo hlead
  obtain ⟨hwaiting, hframes⟩ := Descent.eq_nil_of_step_eq_none hend
  have hentered : ∀ n, Entered last.visits.reverse n ↔ Entered last.visits n := by
    intro n
    simp only [Entered, List.mem_reverse]
  have hfinished : ∀ n, Entered last.visits n → Acc (h.OpenBelow closed) n ∧
      ∀ c ∈ h.below n, closed c = true ∨ Entered last.visits c := by
    intro n hn
    refine ht.finished n hn ?_
    rw [hframes]
    exact List.not_mem_nil
  refine
    { origin := fun visit hv => ?_
      opened := fun n hn => ht.opened n ((hentered n).1 hn)
      passed := fun visit hv he => ?_
      once := ?_
      roots_met := fun r hr => ?_
      below_met := fun n hn c hc => ?_
      acc := fun n hn => (hfinished n ((hentered n).1 hn)).1 }
  · have ho := ht.origin visit (List.mem_reverse.1 hv)
    cases hab : visit.above with
    | nil =>
        rw [hab] at ho
        exact ho
    | cons p above =>
        rw [hab] at ho
        exact ⟨List.mem_reverse.2 ho.1, ho.2⟩
  · rw [hentered]
    exact ht.passed visit (List.mem_reverse.1 hv) he
  · rw [enteredNodes, List.filter_reverse, List.map_reverse, List.nodup_reverse]
    exact ht.once
  · rw [hentered]
    rcases ht.roots_met r hr with hr | hr | hr | hr
    · rw [hwaiting] at hr
      cases hr
    · exact .inl hr
    · cases hr
    · exact .inr hr
  · rw [hentered]
    exact (hfinished n ((hentered n).1 hn)).2 c hc

/-- **A descent that fails has found a chain that runs into itself.** -/
theorem runsIntoItself_of_descend_eq_error {chain : List Node}
    (hd : h.descend closed roots = .error chain) : h.RunsIntoItself closed roots chain := by
  obtain ⟨last, hlead, hend⟩ := Descent.exists_of_finish_eq_error hd
  have ht : last.Tidy closed roots none := (Descent.Tidy.start closed roots).leadsTo hlead
  obtain ⟨f, frames, child, hframes, hunread, hchild, rfl⟩ := Descent.step_error hend
  have hf : f ∈ last.frames := by
    rw [hframes]
    exact List.mem_cons_self ..
  obtain ⟨hdown, ⟨r, hr, hlast⟩, hopen⟩ := ht.chain (ht.frames_entered f hf)
  have hnodup : (f.node :: f.above).Nodup := by
    have hst := ht.stacked
    have hnd := ht.frames_nodup
    rw [hframes] at hst hnd
    rw [hst.1]
    exact hnd
  refine ⟨?_, ⟨r, hr, ?_⟩, (f.node :: f.above).reverse, child, rfl, List.mem_reverse.2 hchild,
    List.nodup_reverse.2 hnodup, fun n hn => hopen n (List.mem_reverse.1 hn)⟩
  · have hbelow : child ∈ h.below f.node := ht.unread_below f hf child hunread
    have hup : (child :: f.node :: f.above).IsChain (fun c p => c ∈ h.below p) :=
      .cons_cons hbelow hdown
    rw [← List.reverse_cons, List.isChain_reverse]
    exact hup
  · rw [List.head?_append, List.head?_reverse, hlast]
    rfl

end Hierarchy

end FactHierarchy
