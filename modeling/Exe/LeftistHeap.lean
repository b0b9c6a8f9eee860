/-
`detail::IntrusiveTimerLeftistHeap`: the timers by deadline.

The nodes are the timers themselves, linked through `prev` and `next`; a timer
is in at most one heap and once, so a heap is a tree. `Merge` calls itself on
one `next` pointer at a time. Here the recursion is on the lengths of the two
`next` spines it walks (`MergeWithin`), and `Merge_eq` is the equation of the
source.
-/
import Mathlib.Algebra.Order.Group.Multiset
import Mathlib.Algebra.Order.Group.Int
import Mathlib.Data.Nat.Log

set_option autoImplicit false

namespace Exe.Detail

/-! ## The heap -/

/-- A pointer to a `TimerBase` and what hangs below it. -/
inductive Heap (τ : Type*)
  | nullptr
  | node (timer : τ) (deadline : ℤ) (depth : ℕ) (prev next : Heap τ)

namespace Heap

variable {τ : Type*}

def Depth : Heap τ → ℕ
  | nullptr => 0
  | node _ _ depth _ _ => depth

def IsEmpty : Heap τ → Bool
  | nullptr => true
  | node .. => false

/-- The number of nodes reached by following `next`. -/
def spine : Heap τ → ℕ
  | nullptr => 0
  | node _ _ _ _ next => next.spine + 1

/-- The end of `Merge`: `lhs` gets its new `next`, the deeper child becomes
`prev`, and `depth` follows. -/
def relink (timer : τ) (deadline : ℤ) (prev next : Heap τ) : Heap τ :=
  if prev.Depth < next.Depth then node timer deadline (prev.Depth + 1) next prev
  else node timer deadline (next.Depth + 1) prev next

/-- `Merge`, with at most `bound` nested calls. -/
def MergeWithin : ℕ → Heap τ → Heap τ → Heap τ
  | _, nullptr, rhs => rhs
  | _, lhs, nullptr => lhs
  | 0, lhs, _ => lhs
  | bound + 1, node t d k prev next, node t' d' k' prev' next' =>
    if d > d' then relink t' d' prev' (MergeWithin bound next' (node t d k prev next))
    else relink t d prev (MergeWithin bound next (node t' d' k' prev' next'))

def Merge (lhs rhs : Heap τ) : Heap τ := MergeWithin (lhs.spine + rhs.spine) lhs rhs

def Push (heap : Heap τ) (item : τ) (deadline : ℤ) : Heap τ :=
  Merge heap (node item deadline 1 nullptr nullptr)

/-- The deadline `Top` shows. -/
def Top : Heap τ → Option ℤ
  | nullptr => none
  | node _ deadline _ _ _ => some deadline

def Pop : Heap τ → Option (τ × Heap τ)
  | nullptr => none
  | node timer _ _ prev next => some (timer, Merge prev next)

/-- The timers in the heap. -/
def timers : Heap τ → Multiset τ
  | nullptr => 0
  | node timer _ _ prev next => {timer} + (prev.timers + next.timers)

/-! ## `Merge` -/

/-- More nested calls than the two spines are long change nothing. -/
theorem MergeWithin_eq {lhs rhs : Heap τ} {bound : ℕ} (h : lhs.spine + rhs.spine ≤ bound) :
    MergeWithin bound lhs rhs = Merge lhs rhs := by
  have key : ∀ (b c : ℕ) (l r : Heap τ), l.spine + r.spine ≤ b → l.spine + r.spine ≤ c →
      MergeWithin b l r = MergeWithin c l r := by
    intro b
    induction b with
    | zero =>
      intro c l r hb _
      cases l with
      | nullptr => cases c <;> rfl
      | node t d k prev next => simp [spine] at hb
    | succ b ih =>
      intro c l r hb hc
      cases l with
      | nullptr => cases c <;> rfl
      | node t d k prev next =>
        cases r with
        | nullptr => cases c <;> rfl
        | node t' d' k' prev' next' =>
          cases c with
          | zero => simp [spine] at hc
          | succ c =>
            simp only [spine] at hb hc
            rw [MergeWithin, MergeWithin, ih c next' _ (by simp only [spine]; omega)
                (by simp only [spine]; omega),
              ih c next _ (by simp only [spine]; omega) (by simp only [spine]; omega)]
  exact key _ _ _ _ h (Nat.le_refl _)

@[simp] theorem Merge_nullptr_left (rhs : Heap τ) : Merge nullptr rhs = rhs := by
  unfold Merge
  cases rhs <;> rfl

@[simp] theorem Merge_nullptr_right (lhs : Heap τ) : Merge lhs nullptr = lhs := by
  unfold Merge
  cases lhs <;> rfl

/-- The recursion of the source. -/
theorem Merge_eq (t t' : τ) (d d' : ℤ) (k k' : ℕ) (prev prev' next next' : Heap τ) :
    Merge (node t d k prev next) (node t' d' k' prev' next') =
      if d > d' then relink t' d' prev' (Merge next' (node t d k prev next))
      else relink t d prev (Merge next (node t' d' k' prev' next')) := by
  rw [Merge, spine, spine, show next.spine + 1 + (next'.spine + 1) =
    (next.spine + next'.spine + 1) + 1 by omega, MergeWithin,
    MergeWithin_eq (by simp only [spine]; omega), MergeWithin_eq (by simp only [spine]; omega)]

theorem relink_timers (t : τ) (d : ℤ) (prev next : Heap τ) :
    (relink t d prev next).timers = {t} + (prev.timers + next.timers) := by
  unfold relink
  split
  · rw [timers, add_comm next.timers]
  · rw [timers]

/-- What follows the two `next` spines: the induction every proof about `Merge` is by. -/
theorem Merge_induction {motive : Heap τ → Heap τ → Prop}
    (left : ∀ r, motive nullptr r) (right : ∀ l, motive l nullptr)
    (swap : ∀ t d k prev next t' d' k' prev' next', d > d' →
      motive next' (node t d k prev next) →
      motive (node t d k prev next) (node t' d' k' prev' next'))
    (keep : ∀ t d k prev next t' d' k' prev' next', ¬d > d' →
      motive next (node t' d' k' prev' next') →
      motive (node t d k prev next) (node t' d' k' prev' next')) (lhs rhs : Heap τ) :
    motive lhs rhs := by
  have key : ∀ (b : ℕ) (l r : Heap τ), l.spine + r.spine ≤ b → motive l r := by
    intro b
    induction b with
    | zero =>
      intro l r h
      cases l with
      | nullptr => exact left r
      | node t d k prev next => simp [spine] at h
    | succ b ih =>
      intro l r h
      cases l with
      | nullptr => exact left r
      | node t d k prev next =>
        cases r with
        | nullptr => exact right _
        | node t' d' k' prev' next' =>
          simp only [spine] at h
          by_cases hd : d > d'
          · exact swap _ _ _ _ _ _ _ _ _ _ hd (ih next' _ (by simp only [spine]; omega))
          · exact keep _ _ _ _ _ _ _ _ _ _ hd (ih next _ (by simp only [spine]; omega))
  exact key _ lhs rhs (Nat.le_refl _)

/-- `Merge` keeps every timer of both heaps. -/
theorem Merge_timers (lhs rhs : Heap τ) : (Merge lhs rhs).timers = lhs.timers + rhs.timers := by
  induction lhs, rhs using Merge_induction with
  | left r => rw [Merge_nullptr_left, timers, zero_add]
  | right l => rw [Merge_nullptr_right, timers, add_zero]
  | swap t d k prev next t' d' k' prev' next' hd ih =>
    rw [Merge_eq, if_pos hd, relink_timers, ih]
    simp only [timers]
    ac_rfl
  | keep t d k prev next t' d' k' prev' next' hd ih =>
    rw [Merge_eq, if_neg hd, relink_timers, ih]
    simp only [timers]
    ac_rfl

theorem Push_timers (heap : Heap τ) (item : τ) (deadline : ℤ) :
    (heap.Push item deadline).timers = {item} + heap.timers := by
  rw [Push, Merge_timers, timers, timers, add_zero, add_zero, add_comm]

theorem IsEmpty_iff (heap : Heap τ) : heap.IsEmpty = true ↔ heap.timers = 0 := by
  cases heap with
  | nullptr => exact ⟨fun _ => rfl, fun _ => rfl⟩
  | node t d k prev next =>
    refine ⟨(fun h => by cases h), fun h => ?_⟩
    exact absurd h (by simp [timers])

theorem IsEmpty_Push (heap : Heap τ) (item : τ) (deadline : ℤ) :
    (heap.Push item deadline).IsEmpty = false := by
  rw [Bool.eq_false_iff, Ne, IsEmpty_iff, Push_timers]
  simp

theorem Pop_timers {heap rest : Heap τ} {timer : τ} (h : heap.Pop = some (timer, rest)) :
    heap.timers = {timer} + rest.timers := by
  cases heap with
  | nullptr => cases h
  | node t d k prev next =>
    cases h
    rw [timers, Merge_timers]

/-! ## Heap order and ranks -/

/-- No deadline in the heap is before `d`. -/
def AtLeast (d : ℤ) : Heap τ → Prop
  | nullptr => True
  | node _ d' _ prev next => d ≤ d' ∧ prev.AtLeast d ∧ next.AtLeast d

/-- No timer is due before the one above it. -/
def Ordered : Heap τ → Prop
  | nullptr => True
  | node _ d _ prev next => prev.AtLeast d ∧ next.AtLeast d ∧ prev.Ordered ∧ next.Ordered

/-- `prev` is at least as deep as `next`, and `depth` is one more than that of `next`. -/
def Leftist : Heap τ → Prop
  | nullptr => True
  | node _ _ k prev next =>
    next.Depth ≤ prev.Depth ∧ k = next.Depth + 1 ∧ prev.Leftist ∧ next.Leftist

theorem AtLeast.mono {d d' : ℤ} (hd : d' ≤ d) {heap : Heap τ} (h : heap.AtLeast d) :
    heap.AtLeast d' := by
  induction heap with
  | nullptr => trivial
  | node t e k prev next ihp ihn =>
    obtain ⟨he, hp, hn⟩ := h
    exact ⟨hd.trans he, ihp hp, ihn hn⟩

theorem AtLeast.relink {d e : ℤ} {t : τ} {prev next : Heap τ} (hd : d ≤ e)
    (hp : prev.AtLeast d) (hn : next.AtLeast d) : (relink t e prev next).AtLeast d := by
  unfold Heap.relink
  split
  · exact ⟨hd, hn, hp⟩
  · exact ⟨hd, hp, hn⟩

theorem Ordered.relink {d : ℤ} {t : τ} {prev next : Heap τ} (hp : prev.AtLeast d)
    (hn : next.AtLeast d) (hpo : prev.Ordered) (hno : next.Ordered) :
    (relink t d prev next).Ordered := by
  unfold Heap.relink
  split
  · exact ⟨hn, hp, hno, hpo⟩
  · exact ⟨hp, hn, hpo, hno⟩

theorem Leftist.relink {d : ℤ} {t : τ} {prev next : Heap τ} (hp : prev.Leftist)
    (hn : next.Leftist) : (relink t d prev next).Leftist := by
  unfold Heap.relink
  split
  · rename_i hlt
    exact ⟨Nat.le_of_lt hlt, rfl, hn, hp⟩
  · rename_i hlt
    exact ⟨Nat.le_of_not_lt hlt, rfl, hp, hn⟩

theorem AtLeast.Merge {d : ℤ} {lhs rhs : Heap τ} (hl : lhs.AtLeast d) (hr : rhs.AtLeast d) :
    (Merge lhs rhs).AtLeast d := by
  induction lhs, rhs using Merge_induction with
  | left r => rwa [Merge_nullptr_left]
  | right l => rwa [Merge_nullptr_right]
  | swap t e k prev next t' e' k' prev' next' he ih =>
    rw [Merge_eq, if_pos he]
    exact hr.2.1.relink hr.1 (ih hr.2.2 hl)
  | keep t e k prev next t' e' k' prev' next' he ih =>
    rw [Merge_eq, if_neg he]
    exact hl.2.1.relink hl.1 (ih hl.2.2 hr)

theorem Ordered.Merge {lhs rhs : Heap τ} (hl : lhs.Ordered) (hr : rhs.Ordered) :
    (Merge lhs rhs).Ordered := by
  induction lhs, rhs using Merge_induction with
  | left r => rwa [Merge_nullptr_left]
  | right l => rwa [Merge_nullptr_right]
  | swap t d k prev next t' d' k' prev' next' hd ih =>
    -- everything on the left is due after `d`, so after `d'`
    obtain ⟨hp, hn, hpo, hno⟩ := hl
    have hbelow : (node t d k prev next).AtLeast d' :=
      ⟨hd.le, hp.mono hd.le, hn.mono hd.le⟩
    rw [Merge_eq, if_pos hd]
    exact Ordered.relink hr.1 (hr.2.1.Merge hbelow) hr.2.2.1 (ih hr.2.2.2 ⟨hp, hn, hpo, hno⟩)
  | keep t d k prev next t' d' k' prev' next' hd ih =>
    obtain ⟨hp, hn, hpo, hno⟩ := hr
    have hle : d ≤ d' := not_lt.mp hd
    have hbelow : (node t' d' k' prev' next').AtLeast d :=
      ⟨hle, hp.mono hle, hn.mono hle⟩
    rw [Merge_eq, if_neg hd]
    exact Ordered.relink hl.1 (hl.2.1.Merge hbelow) hl.2.2.1 (ih hl.2.2.2 ⟨hp, hn, hpo, hno⟩)

theorem Leftist.Merge {lhs rhs : Heap τ} (hl : lhs.Leftist) (hr : rhs.Leftist) :
    (Merge lhs rhs).Leftist := by
  induction lhs, rhs using Merge_induction with
  | left r => rwa [Merge_nullptr_left]
  | right l => rwa [Merge_nullptr_right]
  | swap t d k prev next t' d' k' prev' next' hd ih =>
    rw [Merge_eq, if_pos hd]
    exact hr.2.2.1.relink (ih hr.2.2.2 hl)
  | keep t d k prev next t' d' k' prev' next' hd ih =>
    rw [Merge_eq, if_neg hd]
    exact hl.2.2.1.relink (ih hl.2.2.2 hr)

/-! ## The length of the spine -/

/-- What `depth` stores is the length of the `next` spine. -/
theorem Leftist.depth_eq_spine {heap : Heap τ} (h : heap.Leftist) : heap.Depth = heap.spine := by
  induction heap with
  | nullptr => rfl
  | node t d k prev next _ ihn =>
    obtain ⟨-, hk, -, hn⟩ := h
    rw [Depth, spine, hk, ihn hn]

/-- The child at `prev` has a spine that is as long, so each node of the spine doubles the
number of timers. -/
theorem Leftist.two_pow_spine_le {heap : Heap τ} (h : heap.Leftist) :
    2 ^ heap.spine ≤ heap.timers.card + 1 := by
  induction heap with
  | nullptr => exact Nat.le_refl 1
  | node t d k prev next ihp ihn =>
    obtain ⟨hdepth, -, hp, hn⟩ := h
    rw [hn.depth_eq_spine, hp.depth_eq_spine] at hdepth
    have hprev := ihp hp
    have hnext := ihn hn
    have hmono : 2 ^ next.spine ≤ 2 ^ prev.spine := Nat.pow_le_pow_right Nat.two_pos hdepth
    rw [spine, timers, Multiset.card_add, Multiset.card_add, Multiset.card_singleton, Nat.pow_succ]
    omega

theorem Leftist.spine_le_log {heap : Heap τ} (h : heap.Leftist) :
    heap.spine ≤ Nat.log 2 (heap.timers.card + 1) :=
  Nat.le_log_of_pow_le Nat.one_lt_two h.two_pow_spine_le

/-! ## The timers with their deadlines -/

def entries : Heap τ → Multiset (τ × ℤ)
  | nullptr => 0
  | node timer deadline _ prev next => {(timer, deadline)} + (prev.entries + next.entries)

theorem relink_entries (t : τ) (d : ℤ) (prev next : Heap τ) :
    (relink t d prev next).entries = {(t, d)} + (prev.entries + next.entries) := by
  unfold relink
  split
  · rw [entries, add_comm next.entries]
  · rw [entries]

theorem Merge_entries (lhs rhs : Heap τ) :
    (Merge lhs rhs).entries = lhs.entries + rhs.entries := by
  induction lhs, rhs using Merge_induction with
  | left r => rw [Merge_nullptr_left, entries, zero_add]
  | right l => rw [Merge_nullptr_right, entries, add_zero]
  | swap t d k prev next t' d' k' prev' next' hd ih =>
    rw [Merge_eq, if_pos hd, relink_entries, ih]
    simp only [entries]
    ac_rfl
  | keep t d k prev next t' d' k' prev' next' hd ih =>
    rw [Merge_eq, if_neg hd, relink_entries, ih]
    simp only [entries]
    ac_rfl

theorem Push_entries (heap : Heap τ) (item : τ) (deadline : ℤ) :
    (heap.Push item deadline).entries = {(item, deadline)} + heap.entries := by
  rw [Push, Merge_entries, entries, entries, add_zero, add_zero, add_comm]

theorem atLeast_iff {heap : Heap τ} {d : ℤ} :
    heap.AtLeast d ↔ ∀ e ∈ heap.entries, d ≤ e.2 := by
  induction heap with
  | nullptr => exact ⟨fun _ _ he => (Multiset.notMem_zero _ he).elim, fun _ => trivial⟩
  | node t d' k prev next ihp ihn =>
    simp only [AtLeast, entries, Multiset.mem_add, Multiset.mem_singleton, ihp, ihn]
    constructor
    · rintro ⟨h, hp, hn⟩ e (rfl | he | he)
      · exact h
      · exact hp e he
      · exact hn e he
    · intro h
      exact ⟨h _ (.inl rfl), fun e he => h e (.inr (.inl he)), fun e he => h e (.inr (.inr he))⟩

theorem Ordered.Push {heap : Heap τ} (h : heap.Ordered) (item : τ) (deadline : ℤ) :
    (heap.Push item deadline).Ordered :=
  h.Merge ⟨trivial, trivial, trivial, trivial⟩

theorem Leftist.Push {heap : Heap τ} (h : heap.Leftist) (item : τ) (deadline : ℤ) :
    (heap.Push item deadline).Leftist :=
  h.Merge ⟨Nat.le_refl 0, rfl, trivial, trivial⟩

/-! ## The timer at the top -/

theorem Top_eq_none {heap : Heap τ} : heap.Top = none ↔ heap = nullptr := by
  cases heap with
  | nullptr => exact ⟨fun _ => rfl, fun _ => rfl⟩
  | node t d k prev next => exact ⟨(fun h => by cases h), fun h => by cases h⟩

theorem exists_of_Top {heap : Heap τ} {d : ℤ} (h : heap.Top = some d) :
    ∃ e ∈ heap.entries, e.2 = d := by
  cases heap with
  | nullptr => cases h
  | node t d' k prev next =>
    cases h
    exact ⟨(t, d), Multiset.mem_add.mpr (.inl (Multiset.mem_singleton_self _)), rfl⟩

/-- Nothing in an ordered heap is due before the top. -/
theorem Ordered.Top_le {heap : Heap τ} (ho : heap.Ordered) {d : ℤ} (h : heap.Top = some d) :
    ∀ e ∈ heap.entries, d ≤ e.2 := by
  cases heap with
  | nullptr => cases h
  | node t d' k prev next =>
    cases h
    exact atLeast_iff.mp ⟨le_refl _, ho.1, ho.2.1⟩

theorem Pop_entries {heap rest : Heap τ} {timer : τ} {d : ℤ} (htop : heap.Top = some d)
    (hpop : heap.Pop = some (timer, rest)) : heap.entries = {(timer, d)} + rest.entries := by
  cases heap with
  | nullptr => cases hpop
  | node t d' k prev next =>
    cases htop
    cases hpop
    rw [entries, Merge_entries]

theorem Ordered.Pop {heap rest : Heap τ} {timer : τ} (ho : heap.Ordered)
    (h : heap.Pop = some (timer, rest)) : rest.Ordered := by
  cases heap with
  | nullptr => cases h
  | node t d k prev next =>
    cases h
    exact ho.2.2.1.Merge ho.2.2.2

/-- A heap with something in it has a top to look at and to take. -/
theorem exists_Top_Pop {heap : Heap τ} (h : heap ≠ nullptr) :
    ∃ d timer rest, heap.Top = some d ∧ heap.Pop = some (timer, rest) := by
  cases heap with
  | nullptr => exact absurd rfl h
  | node t d k prev next => exact ⟨d, t, Heap.Merge prev next, rfl, rfl⟩

end Heap

end Exe.Detail
