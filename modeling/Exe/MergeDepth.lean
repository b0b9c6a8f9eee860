/-
How deep `IntrusiveTimerLeftistHeap::Merge` calls itself.

Each nested call of `Merge` passes one node of one of the two `next` spines, so it is their
lengths that the stack has to hold. `depth` is the length of the spine, in every node of the
heap: `Merge` writes it again along its way, and the swap of the children keeps the longer
spine at `prev`. So the timers below a node at least double from one node of the spine to
the next, whatever the deadlines are, and the spine is logarithmic.

# Conventions

* `Spine` and `Subtree` follow the pointers of the memory; the tree of `LeftistHeap` is only
  in the proofs.
* `Merge bound` is `none` when it would have to make more than `bound` nested calls.
-/
import Exe.IntrusiveHeap

set_option autoImplicit false

namespace Exe.Detail.IntrusiveHeap

variable {τ : Type*}

/-! ## Following the pointers -/

/-- Following `next` from `p` passes `length` nodes. -/
inductive Spine (mem : Memory τ) : Option τ → ℕ → Prop
  | nullptr : Spine mem none 0
  | node {x : τ} {length : ℕ} (hnext : Spine mem (mem x).next length) :
      Spine mem (some x) (length + 1)

/-- `nodes` are the node at `p` and those below it. -/
inductive Subtree (mem : Memory τ) : Option τ → Multiset τ → Prop
  | nullptr : Subtree mem none 0
  | node {x : τ} {below below' : Multiset τ} (hprev : Subtree mem (mem x).prev below)
      (hnext : Subtree mem (mem x).next below') : Subtree mem (some x) ({x} + (below + below'))

theorem Subtree.unique {mem : Memory τ} {p : Option τ} {nodes nodes' : Multiset τ}
    (h : Subtree mem p nodes) (h' : Subtree mem p nodes') : nodes = nodes' := by
  induction h generalizing nodes' with
  | nullptr =>
    cases h'
    rfl
  | node _ _ ihp ihn =>
    cases h' with
    | node hprev hnext => rw [ihp hprev, ihn hnext]

theorem Linked.spine {mem : Memory τ} {t : Heap τ} (h : Linked mem t) :
    Spine mem (root t) t.spine := by
  induction t with
  | nullptr => exact .nullptr
  | node timer deadline depth prev next _ ihn =>
    obtain ⟨hnode, -, hnext⟩ := h
    refine .node ?_
    rw [hnode]
    exact ihn hnext

theorem Linked.subtree {mem : Memory τ} {t : Heap τ} (h : Linked mem t) :
    Subtree mem (root t) t.timers := by
  induction t with
  | nullptr => exact .nullptr
  | node timer deadline depth prev next ihp ihn =>
    obtain ⟨hnode, hprev, hnext⟩ := h
    refine .node ?_ ?_
    · rw [hnode]
      exact ihp hprev
    · rw [hnode]
      exact ihn hnext

/-- Below each node of a leftist heap there is one. -/
theorem Linked.below {mem : Memory τ} {t : Heap τ} (h : Linked mem t) (hl : t.Leftist) :
    ∀ x ∈ t.timers, ∃ u : Heap τ, root u = some x ∧ Linked mem u ∧ u.Leftist ∧
      u.timers ≤ t.timers := by
  induction t with
  | nullptr =>
    intro x hx
    exact (Multiset.notMem_zero x hx).elim
  | node timer deadline depth prev next ihp ihn =>
    intro x hx
    simp only [Heap.timers, Multiset.mem_add, Multiset.mem_singleton] at hx
    rcases hx with rfl | hx | hx
    · exact ⟨_, rfl, h, hl, le_refl _⟩
    · obtain ⟨u, hroot, hlinked, hleft, hle⟩ := ihp h.2.1 hl.2.2.1 x hx
      refine ⟨u, hroot, hlinked, hleft, hle.trans ?_⟩
      exact (Multiset.le_add_right _ _).trans (Multiset.le_add_left _ _)
    · obtain ⟨u, hroot, hlinked, hleft, hle⟩ := ihn h.2.2 hl.2.2.2 x hx
      refine ⟨u, hroot, hlinked, hleft, hle.trans ?_⟩
      exact (Multiset.le_add_left _ _).trans (Multiset.le_add_left _ _)

/-! ## The depth of the recursion -/

variable [DecidableEq τ]

/-- `p` points to `nodes` in `mem`, and what is there is the heap of `s`, or the part of it
below one of its nodes. -/
structure PartOf (s : State τ) (mem : Memory τ) (p : Option τ) (nodes : Multiset τ) : Prop where
  within : ∀ x, p = some x → x ∈ s.inside
  subtree : Subtree s.mem p nodes
  same : ∀ x ∈ nodes, mem x = s.mem x

theorem PartOf.exists_tree {s : State τ} {mem : Memory τ} {p : Option τ} {nodes : Multiset τ}
    (h : PartOf s mem p nodes) (hs : (machine τ).Reachable s) :
    ∃ u : Heap τ, root u = p ∧ Linked mem u ∧ u.Leftist ∧ u.timers = nodes ∧ nodes.Nodup := by
  obtain ⟨t, ht⟩ := isHeap_of_reachable hs
  have hin := h.within
  have hsub := h.subtree
  cases p with
  | none =>
    have hnil : (0 : Multiset τ) = nodes := Subtree.nullptr.unique hsub
    refine ⟨.nullptr, rfl, trivial, trivial, hnil, ?_⟩
    rw [← hnil]
    exact Multiset.nodup_zero
  | some x =>
    have hx : x ∈ t.timers := by
      rw [← ht.inside]
      exact hin x rfl
    obtain ⟨u, hroot, hlinked, hleft, hle⟩ := ht.linked.below ht.leftist x hx
    have hnodes : u.timers = nodes := by
      refine Subtree.unique ?_ hsub
      rw [← hroot]
      exact hlinked.subtree
    refine ⟨u, hroot, hlinked.congr fun y hy => h.same y ?_, hleft, hnodes, ?_⟩
    · rwa [hnodes] at hy
    · rw [← hnodes]
      exact Multiset.nodup_of_le hle ht.nodup

/-- `Merge` makes no more nested calls than the logarithms of the two sizes say. -/
theorem merge_isSome {s s' : State τ} (hs : (machine τ).Reachable s)
    (hs' : (machine τ).Reachable s') {mem : Memory τ} {lhs rhs : Option τ}
    {nodes nodes' : Multiset τ} (hl : PartOf s mem lhs nodes) (hr : PartOf s' mem rhs nodes')
    (hdisj : ∀ x ∈ nodes, x ∉ nodes') :
    (Merge (Nat.log 2 (nodes.card + 1) + Nat.log 2 (nodes'.card + 1)) mem lhs rhs).isSome =
      true := by
  obtain ⟨u, rfl, hlinked, hleft, rfl, hnd⟩ := hl.exists_tree hs
  obtain ⟨u', rfl, hlinked', hleft', rfl, hnd'⟩ := hr.exists_tree hs'
  have hlog := hleft.spine_le_log
  have hlog' := hleft'.spine_le_log
  have hboth : (u.timers + u'.timers).Nodup := by
    rw [Multiset.nodup_add]
    refine ⟨hnd, hnd', Multiset.disjoint_left.mpr ?_⟩
    intro x hx
    exact hdisj x hx
  obtain ⟨mem', hmerge, -⟩ := Merge_linked u u' mem _ hlinked hlinked' hboth
    (Nat.add_le_add hlog hlog')
  rw [hmerge]
  rfl

/-- The call of `Merge` that `Push` makes. -/
theorem push_isSome {s : State τ} (hs : (machine τ).Reachable s) {item : τ}
    (hitem : item ∉ s.inside) (deadline : ℤ) :
    (Merge (Nat.log 2 (s.inside.card + 1) + 1)
      (Function.update s.mem item ⟨none, none, 1, deadline⟩) s.top_ (some item)).isSome = true := by
  obtain ⟨t, ht⟩ := isHeap_of_reachable hs
  have hnot : item ∉ t.timers := by rwa [← ht.inside]
  have hlog := ht.leftist.spine_le_log
  have hnode : Linked (Function.update s.mem item ⟨none, none, 1, deadline⟩)
      (.node item deadline 1 .nullptr .nullptr) :=
    ⟨Function.update_self _ _ _, trivial, trivial⟩
  have hnd : (t.timers + (Heap.node item deadline 1 .nullptr .nullptr).timers).Nodup := by
    simp only [Heap.timers, add_zero]
    rw [add_comm, Multiset.singleton_add, Multiset.nodup_cons]
    exact ⟨hnot, ht.nodup⟩
  -- the spine of a single node is one
  obtain ⟨mem', hmerge, -⟩ := Merge_linked t _ _ (Nat.log 2 (t.timers.card + 1) + 1)
    (ht.linked.update hnot _) hnode hnd (by simp only [Heap.spine]; omega)
  rw [root_node, ← ht.top, ← ht.inside] at hmerge
  rw [hmerge]
  rfl

/-- The call of `Merge` that `Pop` makes: the timers below the one it takes are divided
between the two arguments. -/
theorem pop_isSome {s : State τ} (hs : (machine τ).Reachable s) {ret : τ}
    (htop : s.top_ = some ret) :
    ∃ n m, s.inside.card = n + m + 1 ∧
      (Merge (Nat.log 2 (n + 1) + Nat.log 2 (m + 1)) s.mem (s.mem ret).prev
        (s.mem ret).next).isSome = true := by
  obtain ⟨t, ht⟩ := isHeap_of_reachable hs
  cases t with
  | nullptr =>
    rw [ht.top] at htop
    cases htop
  | node x d k prev next =>
    have hx : x = ret := Option.some.inj (ht.top.symm.trans htop)
    subst hx
    obtain ⟨hnode, hprev, hnext⟩ := ht.linked
    obtain ⟨-, -, hlp, hln⟩ := ht.leftist
    have hnd := ht.nodup
    rw [Heap.timers, Multiset.singleton_add, Multiset.nodup_cons] at hnd
    refine ⟨prev.timers.card, next.timers.card, ?_, ?_⟩
    · rw [ht.inside, Heap.timers, Multiset.card_add, Multiset.card_add, Multiset.card_singleton]
      omega
    · obtain ⟨mem', hmerge, -⟩ := Merge_linked prev next s.mem _ hprev hnext hnd.2
        (Nat.add_le_add hlp.spine_le_log hln.spine_le_log)
      rw [hnode, hmerge]
      rfl

/-- **The spine of the heap is logarithmic.** `depth` is the length of the spine in every node
of the heap, and a node of depth `k` has at least `2 ^ k - 1` timers below it and in it. So
`Merge` of two heaps, and of parts of heaps (as in `Pop`), in whatever memory they have come
to lie next to each other, returns with no more nested calls than the logarithms of their
sizes add up to. -/
theorem spine_logarithmic {s : State τ} (hs : (machine τ).Reachable s) :
    Subtree s.mem s.top_ s.inside ∧
    (∀ x ∈ s.inside, Spine s.mem (some x) (s.mem x).depth ∧
      ∃ nodes, Subtree s.mem (some x) nodes ∧ nodes.Nodup ∧
        2 ^ (s.mem x).depth - 1 ≤ nodes.card) ∧
    ∀ (s' : State τ) (mem : Memory τ) (lhs rhs : Option τ) (nodes nodes' : Multiset τ),
      (machine τ).Reachable s' → PartOf s mem lhs nodes → PartOf s' mem rhs nodes' →
      (∀ x ∈ nodes, x ∉ nodes') →
      (Merge (Nat.log 2 (nodes.card + 1) + Nat.log 2 (nodes'.card + 1)) mem lhs rhs).isSome =
        true := by
  obtain ⟨t, ht⟩ := isHeap_of_reachable hs
  refine ⟨?_, ?_, ?_⟩
  · rw [ht.top, ht.inside]
    exact ht.linked.subtree
  · intro x hx
    rw [ht.inside] at hx
    obtain ⟨u, hroot, hlinked, hleft, hle⟩ := ht.linked.below ht.leftist x hx
    have hdepth : (s.mem x).depth = u.spine := by
      have hd := hlinked.depth
      rw [hroot, hleft.depth_eq_spine] at hd
      exact hd
    have hpow := hleft.two_pow_spine_le
    rw [hdepth, ← hroot]
    refine ⟨hlinked.spine, u.timers, hlinked.subtree, Multiset.nodup_of_le hle ht.nodup, ?_⟩
    omega
  · intro s' mem lhs rhs nodes nodes' hs' hl hr hdisj
    exact merge_isSome hs hs' hl hr hdisj

/-- Three timers, pushed so that the root has two children. -/
theorem spine_logarithmic_three : ∃ s : State ℕ, (machine ℕ).Reachable s ∧
    (s.mem 2).depth = 2 ∧ Spine s.mem (some 2) 2 ∧
    ∃ nodes, Subtree s.mem (some 2) nodes ∧ 3 ≤ nodes.card := by
  obtain ⟨s, hs, hp⟩ := Machine.Reachable.exec_any (M := machine ℕ)
    (s := ⟨fun _ => ⟨some 0, some 0, 0, 0⟩, none, [], []⟩) (.init ⟨rfl, rfl, rfl⟩)
    [.push 1 ⟨some 2, some 1, 9, 5⟩, .push 2 ⟨none, some 1, 0, 3⟩, .push 3 ⟨none, none, 0, 5⟩]
    (fun s => decide (2 ∈ s.inside ∧ (s.mem 2).depth = 2)) (by decide)
  obtain ⟨hin, hdepth⟩ := of_decide_eq_true hp
  obtain ⟨hspine, nodes, hsub, -, hcard⟩ := (spine_logarithmic hs).2.1 2 hin
  rw [hdepth] at hspine hcard
  exact ⟨s, hs, hdepth, hspine, nodes, hsub, hcard⟩

end Exe.Detail.IntrusiveHeap
