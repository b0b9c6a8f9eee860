/-
`detail::IntrusiveTimerLeftistHeap` in memory.

The nodes of the heap are the timers, and `Merge` relinks them in place. The heap of
`LeftistHeap` is the picture of such a memory: `Linked` says that the fields of the
nodes are those of the tree. `Merge` in memory computes the picture of `Heap.Merge`
(`Merge_linked`), writes to no node outside the two heaps, and returns.

# Conventions

* A node is an address of type `τ`; `nullptr` is `none`.
* `Merge` takes the number of nested calls it may make. The heap gives it one for each
  timer ever pushed and one more, which is always enough.
* What a node that is not in the heap holds is up to its owner: `Push` gets it with
  fields of any value.
* `pushed` and `popped` are history.
-/
import Exe.Machine
import Exe.LeftistHeap
import Mathlib.Data.Multiset.AddSub

set_option autoImplicit false

namespace Exe.Detail.IntrusiveHeap

open Function (update)

/-! ## The model -/

/-- The fields of `TimerBase` the heap uses. -/
structure TimerBase (τ : Type*) where
  prev : Option τ
  next : Option τ
  depth : ℕ
  deadline : ℤ

variable {τ : Type*}

abbrev Memory (τ : Type*) := τ → TimerBase τ

def Depth (mem : Memory τ) : Option τ → ℕ
  | none => 0
  | some node => (mem node).depth

section Model

variable [DecidableEq τ]

/-- The end of `Merge`, once `lhs->next` has been assigned: the deeper child becomes `prev`,
and `depth` follows. -/
def relink (mem : Memory τ) (lhs : τ) : Memory τ :=
  let mem :=
    if Depth mem (mem lhs).prev < Depth mem (mem lhs).next then
      update mem lhs { mem lhs with prev := (mem lhs).next, next := (mem lhs).prev }
    else mem
  update mem lhs { mem lhs with depth := Depth mem (mem lhs).next + 1 }

/-- `Merge`, with at most `bound` nested calls. -/
def Merge : ℕ → Memory τ → Option τ → Option τ → Option (Memory τ × Option τ)
  | _, mem, none, rhs => some (mem, rhs)
  | _, mem, some lhs, none => some (mem, some lhs)
  | 0, _, some _, some _ => none
  | bound + 1, mem, some lhs, some rhs =>
    if (mem lhs).deadline > (mem rhs).deadline then
      match Merge bound mem (mem rhs).next (some lhs) with
      | none => none
      | some (mem, next) => some (relink (update mem rhs { mem rhs with next }) rhs, some rhs)
    else
      match Merge bound mem (mem lhs).next (some rhs) with
      | none => none
      | some (mem, next) => some (relink (update mem lhs { mem lhs with next }) lhs, some lhs)

structure State (τ : Type*) where
  mem : Memory τ
  top_ : Option τ
  pushed : List τ
  popped : List τ

/-- The timers that were pushed and not popped. -/
def State.inside (s : State τ) : Multiset τ := (s.pushed : Multiset τ) - (s.popped : Multiset τ)

def Push (item : τ) (s : State τ) : Option (State τ) :=
  let mem := update s.mem item { s.mem item with prev := none, next := none, depth := 1 }
  match Merge (s.pushed.length + 1) mem s.top_ (some item) with
  | none => none
  | some (mem, top_) => some { s with mem, top_, pushed := s.pushed ++ [item] }

def Pop (s : State τ) : Option (State τ) :=
  match s.top_ with
  | none => none
  | some ret =>
    match Merge (s.pushed.length + 1) s.mem (s.mem ret).prev (s.mem ret).next with
    | none => none
    | some (mem, top_) =>
      some { s with
        mem := update mem ret { mem ret with prev := none, next := none }
        top_
        popped := s.popped ++ [ret] }

/-- Whoever pushes a timer leaves `stale` in its fields, with the deadline set. -/
inductive Action (τ : Type*)
  | push (item : τ) (stale : TimerBase τ)
  | pop

def step (a : Action τ) (s : State τ) : Option (State τ) :=
  match a with
  | .push item stale =>
    if item ∈ s.inside then none else Push item { s with mem := update s.mem item stale }
  | .pop => Pop s

/-- The memory holds anything, the heap is empty. -/
def machine (τ : Type*) [DecidableEq τ] : Machine (State τ) (Action τ) where
  init s := s.top_ = none ∧ s.pushed = [] ∧ s.popped = []
  step := step

end Model

/-! ## The tree in memory -/

/-- A pointer to the root. -/
def root : Heap τ → Option τ
  | .nullptr => none
  | .node timer _ _ _ _ => some timer

@[simp] theorem root_nullptr : root (.nullptr : Heap τ) = none := rfl

@[simp] theorem root_node (t : τ) (d : ℤ) (k : ℕ) (prev next : Heap τ) :
    root (.node t d k prev next) = some t := rfl

@[simp] theorem root_relink (t : τ) (d : ℤ) (prev next : Heap τ) :
    root (Heap.relink t d prev next) = some t := by
  unfold Heap.relink
  split <;> rfl

/-- The fields in memory are those of the tree. -/
def Linked (mem : Memory τ) : Heap τ → Prop
  | .nullptr => True
  | .node timer deadline depth prev next =>
    mem timer = ⟨root prev, root next, depth, deadline⟩ ∧ Linked mem prev ∧ Linked mem next

theorem Linked.depth {mem : Memory τ} {t : Heap τ} (h : Linked mem t) :
    Depth mem (root t) = t.Depth := by
  cases t with
  | nullptr => rfl
  | node timer deadline depth prev next =>
    change (mem timer).depth = depth
    rw [h.1]

/-- Only the memory of its own nodes matters to a tree. -/
theorem Linked.congr {mem mem' : Memory τ} {t : Heap τ} (h : Linked mem t)
    (hmem : ∀ x ∈ t.timers, mem' x = mem x) : Linked mem' t := by
  induction t with
  | nullptr => trivial
  | node timer deadline depth prev next ihp ihn =>
    obtain ⟨hnode, hprev, hnext⟩ := h
    refine ⟨?_, ihp hprev fun x hx => hmem x ?_, ihn hnext fun x hx => hmem x ?_⟩
    · rw [hmem timer (by simp [Heap.timers]), hnode]
    · simp [Heap.timers, hx]
    · simp [Heap.timers, hx]

variable [DecidableEq τ]

theorem Linked.update {mem : Memory τ} {t : Heap τ} (h : Linked mem t) {x : τ}
    (hx : x ∉ t.timers) (node : TimerBase τ) : Linked (update mem x node) t := by
  refine h.congr fun y hy => Function.update_of_ne ?_ _ _
  rintro rfl
  exact hx hy

/-- `relink` at a node whose children are `prev` and `next`. -/
theorem relink_linked {mem : Memory τ} {lhs : τ} {deadline : ℤ} {depth : ℕ} {prev next : Heap τ}
    (hnode : mem lhs = ⟨root prev, root next, depth, deadline⟩) (hprev : Linked mem prev)
    (hnext : Linked mem next) (hp : lhs ∉ prev.timers) (hn : lhs ∉ next.timers) :
    Linked (relink mem lhs) (Heap.relink lhs deadline prev next) ∧
      (∀ x, x ≠ lhs → relink mem lhs x = mem x) := by
  have hdp : Depth mem (mem lhs).prev = prev.Depth := by rw [hnode, hprev.depth]
  have hdn : Depth mem (mem lhs).next = next.Depth := by rw [hnode, hnext.depth]
  unfold relink Heap.relink
  dsimp only
  rw [hdp, hdn]
  by_cases hlt : prev.Depth < next.Depth
  · rw [if_pos hlt, if_pos hlt]
    have hdp' := (hprev.update hp ⟨root next, root prev, depth, deadline⟩).depth
    simp only [hnode, Function.update_self, hdp', Function.update_idem]
    refine ⟨⟨Function.update_self _ _ _, hnext.update hn _, hprev.update hp _⟩, fun x hx => ?_⟩
    exact Function.update_of_ne hx _ _
  · rw [if_neg hlt, if_neg hlt]
    simp only [hnode, hnext.depth]
    refine ⟨⟨Function.update_self _ _ _, hprev.update hp _, hnext.update hn _⟩, fun x hx => ?_⟩
    exact Function.update_of_ne hx _ _

omit [DecidableEq τ] in
/-- The timers of a node with another heap beside it are all different: what that says of
each part. -/
theorem nodup_node {t : τ} {d : ℤ} {k : ℕ} {prev next other : Heap τ}
    (h : ((Heap.node t d k prev next).timers + other.timers).Nodup) :
    t ∉ prev.timers ∧ t ∉ next.timers ∧ t ∉ other.timers ∧
      (∀ x ∈ prev.timers, x ∉ next.timers ∧ x ∉ other.timers) ∧
      (next.timers + other.timers).Nodup := by
  simp only [Heap.timers, Multiset.singleton_add, Multiset.cons_add, Multiset.nodup_cons,
    Multiset.mem_add, not_or] at h
  obtain ⟨⟨⟨htp, htn⟩, hto⟩, hnd⟩ := h
  rw [add_assoc, Multiset.nodup_add] at hnd
  obtain ⟨-, hno, hdisj⟩ := hnd
  refine ⟨htp, htn, hto, fun x hx => ?_, hno⟩
  have hnot := Multiset.disjoint_left.mp hdisj hx
  rwa [Multiset.mem_add, not_or] at hnot

/-- The part of `Merge` after the comparison, for the heap whose root comes first: what
the nested call has made of its `next` and of the other heap is hung below it. -/
theorem merge_below {mem mem' : Memory τ} {t : τ} {d : ℤ} {k : ℕ} {prev next other merged : Heap τ}
    (hl : Linked mem (.node t d k prev next))
    (hnd : ((Heap.node t d k prev next).timers + other.timers).Nodup)
    (hmerged : merged.timers = next.timers + other.timers) (hm : Linked mem' merged)
    (hframe : ∀ x, x ∉ next.timers + other.timers → mem' x = mem x) :
    Linked (relink (update mem' t { mem' t with next := root merged }) t)
        (Heap.relink t d prev merged) ∧
      ∀ x, x ∉ (Heap.node t d k prev next).timers + other.timers →
        relink (update mem' t { mem' t with next := root merged }) t x = mem x := by
  obtain ⟨htp, htn, hto, hprev, -⟩ := nodup_node hnd
  have htm : t ∉ merged.timers := by
    rw [hmerged, Multiset.mem_add]
    exact not_or.mpr ⟨htn, hto⟩
  -- the nested call has touched neither the root nor what is below `prev`
  have hkeep : ∀ x, x ∉ next.timers → x ∉ other.timers → mem' x = mem x := fun x hn ho =>
    hframe x fun hx => (Multiset.mem_add.mp hx).elim hn ho
  have hlprev : Linked mem' prev :=
    hl.2.1.congr fun x hx => hkeep x (hprev x hx).1 (hprev x hx).2
  have hnode : update mem' t { mem' t with next := root merged } t =
      ⟨root prev, root merged, k, d⟩ := by
    rw [Function.update_self, hkeep t htn hto, hl.1]
  obtain ⟨hlinked, hoff⟩ := relink_linked hnode (hlprev.update htp _) (hm.update htm _) htp htm
  refine ⟨hlinked, fun x hx => ?_⟩
  simp only [Heap.timers, Multiset.mem_add, Multiset.mem_singleton, not_or] at hx
  obtain ⟨⟨hxt, hxp, hxn⟩, hxo⟩ := hx
  rw [hoff x hxt, Function.update_of_ne hxt, hkeep x hxn hxo]

/-- **`Merge` in memory is `Heap.Merge`.** It returns the root of the merged heap, whose
nodes it has relinked, and no other node has changed. -/
theorem Merge_linked (lhs rhs : Heap τ) : ∀ (mem : Memory τ) (bound : ℕ), Linked mem lhs →
    Linked mem rhs → (lhs.timers + rhs.timers).Nodup → lhs.spine + rhs.spine ≤ bound →
    ∃ mem', Merge bound mem (root lhs) (root rhs) = some (mem', root (Heap.Merge lhs rhs)) ∧
      Linked mem' (Heap.Merge lhs rhs) ∧
      ∀ x, x ∉ lhs.timers + rhs.timers → mem' x = mem x := by
  induction lhs, rhs using Heap.Merge_induction with
  | left r =>
    intro mem bound _ hr _ _
    rw [Heap.Merge_nullptr_left]
    exact ⟨mem, by cases bound <;> rfl, hr, fun _ _ => rfl⟩
  | right l =>
    intro mem bound hl _ _ _
    rw [Heap.Merge_nullptr_right]
    exact ⟨mem, by cases l <;> cases bound <;> rfl, hl, fun _ _ => rfl⟩
  -- the root of `rhs` comes first: the roles are exchanged
  | swap t d k prev next t' d' k' prev' next' hd ih =>
    intro mem bound hl hr hnd hb
    rw [add_comm] at hnd
    cases bound with
    | zero => simp [Heap.spine] at hb
    | succ bound =>
      simp only [Heap.spine] at hb
      obtain ⟨mem', hmerge, hm, hframe⟩ := ih mem bound hr.2.2 hl (nodup_node hnd).2.2.2.2
        (by simp only [Heap.spine]; omega)
      -- what is merged is hung below that root
      obtain ⟨hlinked, hoff⟩ := merge_below hr hnd (Heap.Merge_timers _ _) hm hframe
      rw [Heap.Merge_eq, if_pos hd]
      refine ⟨_, ?_, hlinked, fun x hx => hoff x (by rwa [add_comm])⟩
      have hcmp : (mem t).deadline > (mem t').deadline := by
        rw [hl.1, hr.1]
        exact hd
      have hnext : (mem t').next = root next' := by rw [hr.1]
      rw [root_node] at hmerge
      rw [root_node, root_node, root_relink, Merge, if_pos hcmp, hnext, hmerge]
  | keep t d k prev next t' d' k' prev' next' hd ih =>
    intro mem bound hl hr hnd hb
    cases bound with
    | zero => simp [Heap.spine] at hb
    | succ bound =>
      simp only [Heap.spine] at hb
      obtain ⟨mem', hmerge, hm, hframe⟩ := ih mem bound hl.2.2 hr (nodup_node hnd).2.2.2.2
        (by simp only [Heap.spine]; omega)
      obtain ⟨hlinked, hoff⟩ := merge_below hl hnd (Heap.Merge_timers _ _) hm hframe
      rw [Heap.Merge_eq, if_neg hd]
      refine ⟨_, ?_, hlinked, hoff⟩
      have hcmp : ¬(mem t).deadline > (mem t').deadline := by
        rw [hl.1, hr.1]
        exact hd
      have hnext : (mem t).next = root next := by rw [hl.1]
      rw [root_node] at hmerge
      rw [root_node, root_node, root_relink, Merge, if_neg hcmp, hnext, hmerge]

theorem relink_deadline (mem : Memory τ) (lhs x : τ) :
    (relink mem lhs x).deadline = (mem x).deadline := by
  unfold relink
  dsimp only
  by_cases hx : x = lhs
  · subst hx
    split <;> simp only [Function.update_self]
  · split
    · rw [Function.update_of_ne hx, Function.update_of_ne hx]
    · rw [Function.update_of_ne hx]

theorem link_deadline (mem : Memory τ) (lhs x : τ) (next : Option τ) :
    (relink (update mem lhs { mem lhs with next }) lhs x).deadline = (mem x).deadline := by
  rw [relink_deadline]
  by_cases hx : x = lhs
  · subst hx
    rw [Function.update_self]
  · rw [Function.update_of_ne hx]

/-- `Merge` writes no deadline. -/
theorem Merge_deadline {bound : ℕ} {mem mem' : Memory τ} {lhs rhs top : Option τ}
    (h : Merge bound mem lhs rhs = some (mem', top)) (x : τ) :
    (mem' x).deadline = (mem x).deadline := by
  induction bound generalizing mem mem' lhs rhs top with
  | zero =>
    cases lhs with
    | none =>
      cases h
      rfl
    | some lhs =>
      cases rhs with
      | none =>
        cases h
        rfl
      | some rhs => cases h
  | succ bound ih =>
    cases lhs with
    | none =>
      cases h
      rfl
    | some lhs =>
      cases rhs with
      | none =>
        cases h
        rfl
      | some rhs =>
        rw [Merge] at h
        split at h
        · split at h
          · cases h
          · rename_i mem₁ next hm
            cases h
            rw [link_deadline, ih hm]
        · split at h
          · cases h
          · rename_i mem₁ next hm
            cases h
            rw [link_deadline, ih hm]

/-! ## What the order of the tree says of the memory -/

omit [DecidableEq τ] in
theorem Linked.atLeast {mem : Memory τ} {t : Heap τ} {d : ℤ} (h : Linked mem t)
    (hd : t.AtLeast d) : ∀ x ∈ t.timers, d ≤ (mem x).deadline := by
  induction t with
  | nullptr =>
    intro x hx
    cases hx
  | node timer deadline depth prev next ihp ihn =>
    intro x hx
    simp only [Heap.timers, Multiset.mem_add, Multiset.mem_singleton] at hx
    rcases hx with rfl | hx | hx
    · rw [h.1]
      exact hd.1
    · exact ihp h.2.1 hd.2.1 x hx
    · exact ihn h.2.2 hd.2.2 x hx

omit [DecidableEq τ] in
theorem mem_of_root {t : Heap τ} {x : τ} (h : root t = some x) : x ∈ t.timers := by
  cases t with
  | nullptr => cases h
  | node timer deadline depth prev next =>
    cases h
    simp [Heap.timers]

omit [DecidableEq τ] in
/-- A timer is due no later than its children. -/
theorem Linked.ordered {mem : Memory τ} {t : Heap τ} (h : Linked mem t) (ho : t.Ordered) :
    ∀ x ∈ t.timers, ∀ c, (mem x).prev = some c ∨ (mem x).next = some c →
      (mem x).deadline ≤ (mem c).deadline := by
  induction t with
  | nullptr =>
    intro x hx
    cases hx
  | node timer deadline depth prev next ihp ihn =>
    obtain ⟨hnode, hprev, hnext⟩ := h
    intro x hx c hc
    simp only [Heap.timers, Multiset.mem_add, Multiset.mem_singleton] at hx
    rcases hx with rfl | hx | hx
    · rw [hnode] at hc ⊢
      rcases hc with hc | hc
      · exact hprev.atLeast ho.1 c (mem_of_root hc)
      · exact hnext.atLeast ho.2.1 c (mem_of_root hc)
    · exact ihp hprev ho.2.2.1 x hx c hc
    · exact ihn hnext ho.2.2.2 x hx c hc

omit [DecidableEq τ] in
theorem Linked.leftist {mem : Memory τ} {t : Heap τ} (h : Linked mem t) (hl : t.Leftist) :
    ∀ x ∈ t.timers, Depth mem (mem x).next ≤ Depth mem (mem x).prev ∧
      (mem x).depth = Depth mem (mem x).next + 1 := by
  induction t with
  | nullptr =>
    intro x hx
    cases hx
  | node timer deadline depth prev next ihp ihn =>
    obtain ⟨hnode, hprev, hnext⟩ := h
    intro x hx
    simp only [Heap.timers, Multiset.mem_add, Multiset.mem_singleton] at hx
    rcases hx with rfl | hx | hx
    · rw [hnode, hprev.depth, hnext.depth]
      exact ⟨hl.1, hl.2.1⟩
    · exact ihp hprev hl.2.2.1 x hx
    · exact ihn hnext hl.2.2.2 x hx

/-! ## The invariant -/

omit [DecidableEq τ] in
theorem spine_le (t : Heap τ) : t.spine ≤ t.timers.card := by
  induction t with
  | nullptr => exact Nat.le_refl 0
  | node timer deadline depth prev next ihp ihn =>
    simp only [Heap.spine, Heap.timers, Multiset.card_add, Multiset.card_singleton]
    omega

/-- The heap is the tree `t`, which holds what was pushed and not popped. -/
structure IsHeap (s : State τ) (t : Heap τ) : Prop where
  top : s.top_ = root t
  linked : Linked s.mem t
  ordered : t.Ordered
  leftist : t.Leftist
  nodup : t.timers.Nodup
  history : (s.pushed : Multiset τ) = s.popped + t.timers

theorem IsHeap.inside {s : State τ} {t : Heap τ} (h : IsHeap s t) : s.inside = t.timers := by
  rw [State.inside, h.history, add_tsub_cancel_left]

omit [DecidableEq τ] in
theorem IsHeap.card_le {s : State τ} {t : Heap τ} (h : IsHeap s t) :
    t.timers.card ≤ s.pushed.length := by
  have hcard := congrArg Multiset.card h.history
  rw [Multiset.coe_card, Multiset.card_add] at hcard
  omega

theorem IsHeap.push {s : State τ} {t : Heap τ} (h : IsHeap s t) {item : τ}
    (stale : TimerBase τ) (hitem : item ∉ s.inside) :
    ∃ s', step (.push item stale) s = some s' ∧ IsHeap s' (t.Push item stale.deadline) ∧
      s'.popped = s.popped := by
  have hnot : item ∉ t.timers := by rwa [← h.inside]
  -- whatever was in the fields of the timer, `Push` writes all of them
  have hmem : update (update s.mem item stale) item
      { update s.mem item stale item with prev := none, next := none, depth := 1 } =
        update s.mem item ⟨none, none, 1, stale.deadline⟩ := by
    rw [Function.update_idem, Function.update_self]
  have hnode : Linked (update s.mem item ⟨none, none, 1, stale.deadline⟩)
      (.node item stale.deadline 1 .nullptr .nullptr) :=
    ⟨Function.update_self _ _ _, trivial, trivial⟩
  have hnd : (t.timers +
      (Heap.node item stale.deadline 1 .nullptr .nullptr).timers).Nodup := by
    simp only [Heap.timers, add_zero]
    rw [add_comm, Multiset.singleton_add, Multiset.nodup_cons]
    exact ⟨hnot, h.nodup⟩
  -- the bound of the nested calls is above the two spines
  have hcard := h.card_le
  have hspine := spine_le t
  obtain ⟨mem', hmerge, hlinked, -⟩ := Merge_linked t _ _ (s.pushed.length + 1)
    (h.linked.update hnot _) hnode hnd (by simp only [Heap.spine]; omega)
  rw [root_node, ← h.top] at hmerge
  have hpush : step (.push item stale) s = some { s with
      mem := mem'
      top_ := root (t.Push item stale.deadline)
      pushed := s.pushed ++ [item] } := by
    rw [step, if_neg hitem, Push]
    simp only [hmem, hmerge]
    rfl
  refine ⟨_, hpush, ⟨rfl, hlinked, ?_, ?_, ?_, ?_⟩, rfl⟩
  · exact h.ordered.Push _ _
  · exact h.leftist.Push _ _
  · rw [Heap.Push, Heap.Merge_timers]
    exact hnd
  · rw [← Multiset.coe_add, h.history, Heap.Push_timers, add_assoc, add_comm t.timers]
    rfl

theorem IsHeap.pop {s : State τ} {x : τ} {d : ℤ} {k : ℕ} {prev next : Heap τ}
    (h : IsHeap s (.node x d k prev next)) :
    ∃ s', Pop s = some s' ∧ IsHeap s' (prev.Merge next) ∧ s'.popped = s.popped ++ [x] ∧
      (s'.mem x).prev = none ∧ (s'.mem x).next = none ∧
      ∀ y, (s'.mem y).deadline = (s.mem y).deadline := by
  obtain ⟨hnode, hprev, hnext⟩ := h.linked
  have hnd := h.nodup
  rw [Heap.timers, Multiset.singleton_add, Multiset.nodup_cons] at hnd
  have hcard := h.card_le
  rw [Heap.timers, Multiset.card_add, Multiset.card_add] at hcard
  have hsp := spine_le prev
  have hsn := spine_le next
  obtain ⟨mem', hmerge, hlinked, -⟩ := Merge_linked prev next s.mem (s.pushed.length + 1)
    hprev hnext hnd.2 (by omega)
  have hpop : Pop s = some { s with
      mem := update mem' x { mem' x with prev := none, next := none }
      top_ := root (prev.Merge next)
      popped := s.popped ++ [x] } := by
    rw [Pop, h.top, root_node]
    simp only [hnode, hmerge]
  -- the timer that is taken is not below itself
  have hx : x ∉ (prev.Merge next).timers := by
    rw [Heap.Merge_timers]
    exact hnd.1
  refine ⟨_, hpop, ⟨rfl, hlinked.update hx _, h.ordered.2.2.1.Merge h.ordered.2.2.2,
    h.leftist.2.2.1.Merge h.leftist.2.2.2, ?_, ?_⟩, rfl, ?_, ?_, fun y => ?_⟩
  · rw [Heap.Merge_timers]
    exact hnd.2
  · dsimp only
    rw [← Multiset.coe_add, h.history, Heap.Merge_timers, Heap.timers, ← add_assoc]
    rfl
  · simp only [Function.update_self]
  · simp only [Function.update_self]
  · rw [← Merge_deadline hmerge y]
    by_cases hy : y = x
    · subst hy
      simp only [Function.update_self]
    · simp only [Function.update_of_ne hy]

theorem isHeap_of_reachable {s : State τ} (hs : (machine τ).Reachable s) :
    ∃ t, IsHeap s t := by
  refine hs.invariant (I := fun s => ∃ t, IsHeap s t) (fun s hinit => ?_)
    fun a s s' ⟨t, h⟩ _ hst => ?_
  · obtain ⟨htop, hpushed, hpopped⟩ := hinit
    exact ⟨.nullptr, htop, trivial, trivial, trivial, Multiset.nodup_zero, by
      rw [hpushed, hpopped]; rfl⟩
  · cases a with
    | push item stale =>
      by_cases hitem : item ∈ s.inside
      · simp only [machine, step, if_pos hitem] at hst
        cases hst
      · obtain ⟨s₁, hstep, h₁, -⟩ := h.push stale hitem
        have heq : s₁ = s' := Option.some.inj (hstep.symm.trans hst)
        exact ⟨_, heq ▸ h₁⟩
    | pop =>
      cases t with
      | nullptr =>
        have hnone : Pop s = none := by rw [Pop, h.top]; rfl
        have hst' : Pop s = some s' := hst
        rw [hnone] at hst'
        cases hst'
      | node x d k prev next =>
        obtain ⟨s₁, hstep, h₁, -⟩ := h.pop
        have heq : s₁ = s' := Option.some.inj (hstep.symm.trans hst)
        exact ⟨_, heq ▸ h₁⟩

omit [DecidableEq τ] in
/-- The root comes first. -/
theorem IsHeap.root_le {s : State τ} {x : τ} {d : ℤ} {k : ℕ} {prev next : Heap τ}
    (h : IsHeap s (.node x d k prev next)) :
    ∀ y ∈ (Heap.node x d k prev next).timers, (s.mem x).deadline ≤ (s.mem y).deadline := by
  have hd : (s.mem x).deadline = d := by rw [h.linked.1]
  rw [hd]
  exact h.linked.atLeast ⟨le_refl d, h.ordered.1, h.ordered.2.1⟩

/-- Popping until the heap is empty gives the timers by deadline. -/
theorem IsHeap.drain {s : State τ} {t : Heap τ} (h : IsHeap s t) :
    ∃ s' l, (machine τ).exec (List.replicate t.timers.card .pop) s = some s' ∧
      s'.popped = s.popped ++ l ∧ (l : Multiset τ) = t.timers ∧
      l.Pairwise fun x y => (s.mem x).deadline ≤ (s.mem y).deadline := by
  generalize hn : t.timers.card = n
  induction n generalizing s t with
  | zero =>
    rw [Multiset.card_eq_zero] at hn
    exact ⟨s, [], rfl, (List.append_nil _).symm, hn.symm, List.Pairwise.nil⟩
  | succ n ih =>
    cases t with
    | nullptr => cases hn
    | node x d k prev next =>
      obtain ⟨s₁, hpop, h₁, hpopped, -, -, hdl⟩ := h.pop
      have hn₁ : (prev.Merge next).timers.card = n := by
        rw [Heap.Merge_timers]
        simp only [Heap.timers, Multiset.card_add, Multiset.card_singleton] at hn ⊢
        omega
      obtain ⟨s', l, hexec, hl, htimers, hsorted⟩ := ih h₁ hn₁
      rw [Heap.Merge_timers] at htimers
      refine ⟨s', x :: l, ?_, ?_, ?_, List.pairwise_cons.mpr ⟨fun y hy => ?_, ?_⟩⟩
      · rw [List.replicate_succ, Machine.exec_cons]
        exact (congrArg (fun o => Option.bind o _) hpop).trans hexec
      · rw [hl, hpopped, List.append_assoc]
        rfl
      · rw [Heap.timers, ← htimers]
        rfl
      -- the root comes before all that is popped later
      · refine h.root_le y ?_
        rw [Heap.timers, ← htimers]
        exact Multiset.mem_add.mpr (.inr (Multiset.mem_coe.mpr hy))
      · simpa only [hdl] using hsorted

/-- **The intrusive heap is a priority queue.** Through `prev` and `next` it reaches what was
pushed and not popped, each timer once; it is in heap order and leftist; `Push` and `Pop`
return; `Pop` takes a timer with the least deadline, unlinked; and popping as often as
there are timers gives all of them, by deadline. -/
theorem priority_queue {s : State τ} (hs : (machine τ).Reachable s) :
    (∃ t, s.top_ = root t ∧ Linked s.mem t ∧ t.timers = s.inside ∧ t.timers.Nodup ∧
      (s.pushed : Multiset τ) = s.popped + s.inside) ∧
    (∀ x ∈ s.inside, ∀ c, (s.mem x).prev = some c ∨ (s.mem x).next = some c →
      (s.mem x).deadline ≤ (s.mem c).deadline) ∧
    (∀ x ∈ s.inside, Depth s.mem (s.mem x).next ≤ Depth s.mem (s.mem x).prev ∧
      (s.mem x).depth = Depth s.mem (s.mem x).next + 1) ∧
    (∀ item stale, item ∉ s.inside → ∃ s', step (.push item stale) s = some s' ∧
      s'.inside = {item} + s.inside) ∧
    (s.inside ≠ 0 → ∃ s' x, step .pop s = some s' ∧ s.inside = {x} + s'.inside ∧
      s'.popped = s.popped ++ [x] ∧
      (∀ y ∈ s.inside, (s.mem x).deadline ≤ (s.mem y).deadline) ∧
      (s'.mem x).prev = none ∧ (s'.mem x).next = none) ∧
    ∃ s' l, (machine τ).exec (List.replicate s.inside.card .pop) s = some s' ∧
      s'.popped = s.popped ++ l ∧ (l : Multiset τ) = s.inside ∧
      l.Pairwise fun x y => (s.mem x).deadline ≤ (s.mem y).deadline := by
  obtain ⟨t, h⟩ := isHeap_of_reachable hs
  rw [h.inside]
  refine ⟨⟨t, h.top, h.linked, rfl, h.nodup, h.history⟩, h.linked.ordered h.ordered,
    h.linked.leftist h.leftist, fun item stale hitem => ?_, fun hne => ?_, h.drain⟩
  · rw [← h.inside] at hitem
    obtain ⟨s', hstep, h', -⟩ := h.push stale hitem
    exact ⟨s', hstep, by rw [h'.inside, Heap.Push_timers]⟩
  · cases t with
    | nullptr => exact absurd rfl hne
    | node x d k prev next =>
      obtain ⟨s', hstep, h', hpopped, hprev, hnext, -⟩ := h.pop
      exact ⟨s', x, hstep, by rw [h'.inside, Heap.Merge_timers, Heap.timers], hpopped, h.root_le,
        hprev, hnext⟩

/-- Timer 2 is popped and pushed again, with links of its own in its fields. -/
def pushAgain : List (Action ℕ) :=
  [.push 1 ⟨some 2, some 1, 9, 5⟩, .push 2 ⟨none, some 1, 0, 3⟩, .push 3 ⟨none, none, 0, 5⟩, .pop,
    .push 2 ⟨some 2, some 2, 4, 7⟩]

theorem priority_queue_pushAgain : ∃ s s' l, (machine ℕ).Reachable s ∧
    (machine ℕ).exec (List.replicate 3 .pop) s = some s' ∧ s'.popped = 2 :: l ∧
    (l : Multiset ℕ) = {1, 3, 2} := by
  obtain ⟨s, hs, hp⟩ := Machine.Reachable.exec_any (M := machine ℕ)
    (s := ⟨fun _ => ⟨some 0, some 0, 0, 0⟩, none, [], []⟩) (.init ⟨rfl, rfl, rfl⟩) pushAgain
    (fun s => decide (s.popped = [2] ∧ s.inside = {1, 3, 2})) (by decide)
  obtain ⟨hpopped, hinside⟩ := of_decide_eq_true hp
  obtain ⟨s', l, hexec, hl, hall, -⟩ := (priority_queue hs).2.2.2.2.2
  rw [hinside] at hexec hall
  rw [hpopped] at hl
  exact ⟨s, s', l, hs, hexec, hl, hall⟩

end Exe.Detail.IntrusiveHeap
