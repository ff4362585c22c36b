import FactHierarchy.Proofs.Hierarchy.Loops

/-!
# What can be reached from the roots

A node is *reached* when a way leads down to it from an open root, through open nodes alone
(`Hierarchy.Reached`). These are the nodes that a descent enters (`Hierarchy.Explored.entered_iff`),
whatever the order of its roots and of the nodes below each node. So two descents enter the same
nodes when the hierarchies, the roots and the closed nodes agree as far as ways are concerned
(`Hierarchy.Reached.mono`). A descent fails exactly when a loop of open nodes is reached
(`Hierarchy.descend_eq_error_iff`).
-/

set_option autoImplicit false

namespace FactHierarchy.Hierarchy

variable {h h' : Hierarchy} {closed closed' : Node → Bool} {roots roots' : List Node}
  {visits : List Visit} {c n r : Node}

/-- **The node is reached**: a way leads up from it, through open nodes, to an open root. -/
def Reached (h : Hierarchy) (closed : Node → Bool) (roots : List Node) (n : Node) : Prop :=
  ∃ r ∈ roots, closed r = false ∧ Relation.ReflTransGen (h.OpenBelow closed) n r

theorem reached_root (hr : r ∈ roots) (hopen : closed r = false) : h.Reached closed roots r :=
  ⟨r, hr, hopen, .refl⟩

theorem Reached.below (hn : h.Reached closed roots n) (hc : h.OpenBelow closed c n) :
    h.Reached closed roots c := by
  obtain ⟨r, hr, hopen, hway⟩ := hn
  exact ⟨r, hr, hopen, .head hc hway⟩

/-- What holds of open roots, and of an open node when it holds of a node above, holds of all
nodes that are reached. -/
@[elab_as_elim]
theorem Reached.invariant {P : Node → Prop} (hn : h.Reached closed roots n)
    (hroot : ∀ r ∈ roots, closed r = false → P r)
    (hbelow : ∀ c n, h.Reached closed roots n → P n → h.OpenBelow closed c n → P c) : P n := by
  obtain ⟨r, hr, hopen, hway⟩ := hn
  induction hway using Relation.ReflTransGen.head_induction_on with
  | refl => exact hroot r hr hopen
  | head hc hway ih => exact hbelow _ _ ⟨r, hr, hopen, hway⟩ ih hc

theorem Reached.isOpen (hn : h.Reached closed roots n) : closed n = false :=
  hn.invariant (fun _ _ hopen => hopen) fun _ _ _ _ hc => hc.2

/-- Where all open roots stay open roots and all steps down stay steps down, what was reached
stays reached. -/
theorem Reached.mono (hn : h.Reached closed roots n)
    (hroots : ∀ r ∈ roots, closed r = false → r ∈ roots' ∧ closed' r = false)
    (hbelow : ∀ c n, h.OpenBelow closed c n → h'.OpenBelow closed' c n) :
    h'.Reached closed' roots' n := by
  obtain ⟨r, hr, hopen, hway⟩ := hn
  obtain ⟨hr', hopen'⟩ := hroots r hr hopen
  exact ⟨r, hr', hopen', Relation.ReflTransGen.mono hbelow n r hway⟩

/-- **A descent enters exactly the nodes that are reached.** -/
theorem Explored.entered_iff (hexplored : h.Explored closed roots visits) :
    Entered visits n ↔ h.Reached closed roots n := by
  constructor
  · rintro ⟨above, hn⟩
    -- by induction on the chain that is recorded above the node
    induction above generalizing n with
    | nil => exact reached_root (hexplored.origin _ hn) (hexplored.opened n ⟨[], hn⟩)
    | cons p above ih =>
        obtain ⟨hp, hbelow⟩ := hexplored.origin _ hn
        exact (ih hp).below ⟨hbelow, hexplored.opened n ⟨_, hn⟩⟩
  · intro hn
    refine hn.invariant (fun r hr hopen => ?_) fun c m _ hm hc => ?_
    · refine (hexplored.roots_met r hr).resolve_left fun hclosed => ?_
      rw [hopen] at hclosed
      cases hclosed
    · refine (hexplored.below_met m hm c hc.1).resolve_left fun hclosed => ?_
      rw [hc.2] at hclosed
      cases hclosed

/-- A way down goes on through open nodes, or comes to a closed one. So **it ends** if the ways
through open nodes end and those from closed nodes do. -/
theorem acc_of_openBelow {R : Node → Node → Prop} (hbelow : ∀ c n, R c n → c ∈ h.below n)
    (hclosed : ∀ c n, R c n → closed c = true → Acc R c) (hn : Acc (h.OpenBelow closed) n) :
    Acc R n := by
  induction hn with
  | intro n _ ih =>
      refine ⟨n, fun c hc => ?_⟩
      cases hopen : closed c with
      | true => exact hclosed c n hc hopen
      | false => exact ih c ⟨hbelow c n hc, hopen⟩

/-- No way through open nodes leads round in a loop below the roots of a descent that ends. -/
theorem Explored.acc_of_reached (hexplored : h.Explored closed roots visits)
    (hn : h.Reached closed roots n) : Acc (h.OpenBelow closed) n :=
  hexplored.acc n (hexplored.entered_iff.2 hn)

/-! ## When a descent fails -/

/-- **A chain that runs into itself contains a loop of open nodes that are reached.** -/
theorem RunsIntoItself.exists_reached_loop {chain : List Node}
    (hc : h.RunsIntoItself closed roots chain) :
    ∃ n, h.Reached closed roots n ∧ Relation.TransGen (h.OpenBelow closed) n n := by
  obtain ⟨r, hr, hhead⟩ := hc.head
  obtain ⟨way, last, rfl, hlast, -, hopen⟩ := hc.returns
  have hall : ∀ n ∈ way ++ [last], closed n = false := by
    intro n hn
    rcases List.mem_append.1 hn with hn | hn
    · exact hopen n hn
    · rw [List.mem_singleton.1 hn]
      exact hopen last hlast
  have hdown : (way ++ [last]).IsChain fun n c => h.OpenBelow closed c n :=
    hc.descends.imp_of_mem_imp fun n c _ hc hbelow => ⟨hbelow, hall c hc⟩
  have hreached : ∀ n ∈ way ++ [last], h.Reached closed roots n := by
    refine hdown.induction _ _ (fun n c hc hn => hn.below hc) fun hne => ?_
    obtain rfl : (way ++ [last]).head hne = r := by
      rw [List.head?_eq_some_head hne] at hhead
      exact Option.some.inj hhead
    exact reached_root hr (hall _ (List.head_mem hne))
  obtain ⟨before, after, rfl⟩ := List.append_of_mem hlast
  rw [List.append_assoc, List.cons_append] at hdown
  exact ⟨last, hreached last (by simp),
    Relation.transGen_swap.1 (transGen_of_isChain hdown.right_of_append)⟩

/-- **A descent fails exactly when an open loop is reached.** -/
theorem descend_eq_error_iff :
    (∃ chain, h.descend closed roots = .error chain) ↔
      ∃ n, h.Reached closed roots n ∧ Relation.TransGen (h.OpenBelow closed) n n := by
  constructor
  · rintro ⟨chain, hd⟩
    exact (runsIntoItself_of_descend_eq_error hd).exists_reached_loop
  · rintro ⟨n, hn, hloop⟩
    cases hd : h.descend closed roots with
    | error chain => exact ⟨chain, rfl⟩
    | ok visits =>
        have hexplored := explored_of_descend_eq_ok hd
        exact absurd hloop (not_transGen_self_of_acc (hexplored.acc_of_reached hn))

end FactHierarchy.Hierarchy
