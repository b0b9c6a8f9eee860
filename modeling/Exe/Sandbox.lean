/-
`sandbox::Runtime`: tasks and timers in virtual time.

The clock stands still until somebody advances it. An advance moves the clock and then
drains the timer heap: every timer that is due goes to the end of the task queue. So a
pending deadline is never in the past, and `AdvanceClockToNextDeadline` never has to
move the clock back.

# Conventions

* Instants and durations are microseconds, all within `int64_t`.
* The runtime has one thread. `RunAtMostTasks` is made of the steps of its loop, and
  the body of a task may call the runtime, which includes advancing the clock.
* A timer is not set while its node is in the heap (`IntrusiveHeap`).
* `set` and `moved` are history: the timers that were set, with their deadlines, and
  those that were moved to the task queue. `result` is what the last call returned.
-/
import Exe.Machine
import Exe.LeftistHeap
import Mathlib.Data.Multiset.Filter

set_option autoImplicit false

namespace Exe.Sandbox

open Detail

/-! ## The model -/

variable {τ : Type*}

/-- The loop of `PopReadyTimers`, at most `bound` times around. -/
def PopReadyWithin (now : ℤ) : ℕ → Heap τ → List (τ × ℤ) × Heap τ
  | 0, timers => ([], timers)
  | bound + 1, timers =>
    match timers.Top, timers.Pop with
    | some deadline, some (timer, rest) =>
      if deadline > now then ([], timers)
      else
        let (ready, rest) := PopReadyWithin now bound rest
        ((timer, deadline) :: ready, rest)
    | _, _ => ([], timers)

/-- `PopReadyTimers`: the timers that are due, each with the deadline in its node, and the
heap they leave behind. -/
def PopReadyTimers (now : ℤ) (timers : Heap τ) : List (τ × ℤ) × Heap τ :=
  PopReadyWithin now timers.entries.card timers

/-- Where `RunAtMostTasks` is: not called, before its loop test, or in the body of a task. -/
inductive LoopPc
  | idle
  | test (count limit : ℕ)
  | body (count limit : ℕ)
  deriving DecidableEq

/-- Whose turn it is to call the runtime: the user's, or the body's. -/
def LoopPc.mayCall : LoopPc → Bool
  | test _ _ => false
  | _ => true

structure State (τ : Type*) where
  now_ : ℤ
  timers_ : Heap τ
  task_queue_ : List τ
  loopPc : LoopPc
  assertFailed : Bool
  result : ℕ
  set : Multiset (τ × ℤ)
  moved : Multiset (τ × ℤ)

def State.new : State τ where
  now_ := 0
  timers_ := .nullptr
  task_queue_ := []
  loopPc := .idle
  assertFailed := false
  result := 0
  set := 0
  moved := 0

/-- `Clock::AdvanceTo`. -/
def AdvanceTo (future : ℤ) (s : State τ) : State τ :=
  if future ≥ s.now_ then { s with now_ := future } else { s with assertFailed := true }

/-- `TimerQueue::Set`. -/
def Set (delay : ℤ) (timer : τ) (s : State τ) : State τ :=
  { s with
    timers_ := s.timers_.Push timer (delay + s.now_)
    set := {(timer, delay + s.now_)} + s.set }

def MoveReadyToQueue (s : State τ) : State τ :=
  let (ready, rest) := PopReadyTimers s.now_ s.timers_
  { s with
    timers_ := rest
    task_queue_ := s.task_queue_ ++ ready.map Prod.fst
    result := ready.length
    moved := (ready : Multiset (τ × ℤ)) + s.moved }

def AdvanceClockBy (delta : ℤ) (s : State τ) : State τ :=
  MoveReadyToQueue { s with now_ := s.now_ + delta }

def AdvanceClockToNextDeadline (s : State τ) : State τ :=
  match s.timers_.Top with
  | some deadline => MoveReadyToQueue (AdvanceTo deadline s)
  | none => MoveReadyToQueue s

/-- The loop test of `RunAtMostTasks`. What it runs is the next action's business. -/
def testSection (count limit : ℕ) (s : State τ) : State τ :=
  if count < limit then
    match s.task_queue_ with
    | _ :: rest => { s with task_queue_ := rest, loopPc := .body (count + 1) limit }
    | [] => { s with loopPc := .idle, result := count }
  else { s with loopPc := .idle, result := count }

/-- `static_cast<size_t>(-1)`, the limit of `RunTasks`. -/
def noLimit : ℕ := 2 ^ 64 - 1

inductive Action (τ : Type*)
  | set (delay : ℤ) (timer : τ)
  | submit (task : τ)
  | advanceBy (delta : ℤ)
  | advanceToNext
  | runAtMost (limit : ℕ)
  | runTasks
  | loop
  | bodyDone

def step (a : Action τ) (s : State τ) : Option (State τ) :=
  match a with
  | .set delay timer => if s.loopPc.mayCall then some (Set delay timer s) else none
  | .submit task =>
    if s.loopPc.mayCall then some { s with task_queue_ := s.task_queue_ ++ [task] } else none
  | .advanceBy delta => if s.loopPc.mayCall then some (AdvanceClockBy delta s) else none
  | .advanceToNext => if s.loopPc.mayCall then some (AdvanceClockToNextDeadline s) else none
  | .runAtMost limit =>
    match s.loopPc with
    | .idle => some { s with loopPc := .test 0 limit }
    | _ => none
  | .runTasks =>
    match s.loopPc with
    | .idle => some { s with loopPc := .test 0 noLimit }
    | _ => none
  | .loop =>
    match s.loopPc with
    | .test count limit => some (testSection count limit s)
    | _ => none
  | .bodyDone =>
    match s.loopPc with
    | .body count limit => some { s with loopPc := .test count limit }
    | _ => none

def machine (τ : Type*) : Machine (State τ) (Action τ) where
  init s := s = .new
  step := step

/-- No delay and no delta is negative. -/
def NonNegative (a : Action τ) (_ : State τ) : Prop :=
  match a with
  | .set delay _ => 0 ≤ delay
  | .advanceBy delta => 0 ≤ delta
  | _ => True

instance (a : Action τ) (s : State τ) : Decidable (NonNegative a s) :=
  match a with
  | .set delay _ => inferInstanceAs (Decidable (0 ≤ delay))
  | .advanceBy delta => inferInstanceAs (Decidable (0 ≤ delta))
  | .submit _ | .advanceToNext | .runAtMost _ | .runTasks | .loop | .bodyDone => .isTrue trivial

def Action.isAdvance : Action τ → Bool
  | .advanceBy _ => true
  | .advanceToNext => true
  | _ => false

/-- What the action sets, with its deadline. -/
def Action.sets (a : Action τ) (s : State τ) : Multiset (τ × ℤ) :=
  match a with
  | .set delay timer => {(timer, delay + s.now_)}
  | _ => 0

/-- What the action puts into the task queue as a task. -/
def Action.submits : Action τ → List τ
  | .submit task => [task]
  | _ => []

/-! ## The drain -/

/-- What the loop of `PopReadyTimers` leaves and takes, if it may go around often enough. -/
theorem popReadyWithin_spec (now : ℤ) : ∀ (bound : ℕ) (timers : Heap τ),
    timers.entries.card ≤ bound → timers.Ordered →
    ∃ ready rest, PopReadyWithin now bound timers = (ready, rest) ∧
      timers.entries = (ready : Multiset (τ × ℤ)) + rest.entries ∧ rest.Ordered ∧
      (∀ e ∈ ready, e.2 ≤ now) ∧ (∀ e ∈ rest.entries, now < e.2) ∧
      ready.Pairwise fun e e' => e.2 ≤ e'.2 := by
  intro bound
  induction bound with
  | zero =>
    intro timers hcard ho
    have h0 : timers.entries = 0 := Multiset.card_eq_zero.mp (Nat.le_zero.mp hcard)
    refine ⟨[], timers, rfl, (zero_add _).symm, ho, (fun e he => by cases he), fun e he => ?_,
      List.Pairwise.nil⟩
    rw [h0] at he
    exact (Multiset.notMem_zero e he).elim
  | succ bound ih =>
    intro timers hcard ho
    cases timers with
    | nullptr =>
      exact ⟨[], .nullptr, rfl, rfl, trivial, (fun e he => by cases he),
        (fun e he => (Multiset.notMem_zero e he).elim), List.Pairwise.nil⟩
    | node t d k prev next =>
      by_cases hd : d > now
      · refine ⟨[], .node t d k prev next, ?_, (zero_add _).symm, ho, (fun e he => by cases he),
          ?_, List.Pairwise.nil⟩
        · simp only [PopReadyWithin, Heap.Top, Heap.Pop]
          rw [if_pos hd]
        · have hat : (Heap.node t d k prev next).AtLeast d := ⟨le_refl d, ho.1, ho.2.1⟩
          exact fun e he => lt_of_lt_of_le hd (Heap.atLeast_iff.mp hat e he)
      · have hentries : (prev.Merge next).entries = prev.entries + next.entries :=
          Heap.Merge_entries prev next
        have hcard' : (prev.Merge next).entries.card ≤ bound := by
          rw [hentries]
          simp only [Heap.entries, Multiset.card_add, Multiset.card_singleton] at hcard ⊢
          omega
        obtain ⟨ready, rest, hpop, hsplit, hrest, hdue, hlater, hsorted⟩ :=
          ih (prev.Merge next) hcard' (ho.2.2.1.Merge ho.2.2.2)
        refine ⟨(t, d) :: ready, rest, ?_, ?_, hrest, ?_, hlater, ?_⟩
        · simp only [PopReadyWithin, Heap.Top, Heap.Pop]
          rw [if_neg hd, hpop]
        · rw [Heap.entries, ← hentries, hsplit, ← Multiset.cons_coe, ← Multiset.singleton_add,
            add_assoc]
        · exact List.forall_mem_cons.mpr ⟨not_lt.mp hd, hdue⟩
        · refine List.pairwise_cons.mpr ⟨fun e he => ?_, hsorted⟩
          -- what comes later was below the root
          have hat : (prev.Merge next).AtLeast d := ho.1.Merge ho.2.1
          refine Heap.atLeast_iff.mp hat e ?_
          rw [hsplit]
          exact Multiset.mem_add.mpr (.inl (Multiset.mem_coe.mpr he))

theorem filter_due {now : ℤ} {ready : List (τ × ℤ)} {rest : Multiset (τ × ℤ)}
    (hdue : ∀ e ∈ ready, e.2 ≤ now) (hlater : ∀ e ∈ rest, now < e.2) :
    ((ready : Multiset (τ × ℤ)) + rest).filter (fun e => e.2 ≤ now) = ready ∧
      ((ready : Multiset (τ × ℤ)) + rest).filter (fun e => now < e.2) = rest := by
  rw [Multiset.filter_add, Multiset.filter_add]
  constructor
  · rw [Multiset.filter_eq_self.mpr hdue,
      Multiset.filter_eq_nil.mpr fun e he => not_le.mpr (hlater e he), add_zero]
  · rw [Multiset.filter_eq_nil.mpr fun e he => not_lt.mpr (hdue e he),
      Multiset.filter_eq_self.mpr hlater, zero_add]

/-- The batch of an advance that has brought the clock to where it is in `s'`: the timers
that are due there, by deadline, behind the tasks that were queued. -/
structure Batch (s s' : State τ) (ready : List (τ × ℤ)) : Prop where
  queue : s'.task_queue_ = s.task_queue_ ++ ready.map Prod.fst
  sorted : ready.Pairwise fun e e' => e.2 ≤ e'.2
  due : (ready : Multiset (τ × ℤ)) = s.timers_.entries.filter fun e => e.2 ≤ s'.now_
  left : s'.timers_.entries = s.timers_.entries.filter fun e => s'.now_ < e.2
  moved : s'.moved = ready + s.moved
  result : s'.result = ready.length

theorem moveReadyToQueue_batch {s : State τ} (ho : s.timers_.Ordered) :
    (∃ ready, Batch s (MoveReadyToQueue s) ready) ∧ (MoveReadyToQueue s).timers_.Ordered := by
  obtain ⟨ready, rest, hpop, hsplit, hrest, hdue, hlater, hsorted⟩ :=
    popReadyWithin_spec s.now_ _ s.timers_ (Nat.le_refl _) ho
  obtain ⟨hfd, hfl⟩ := filter_due hdue hlater
  rw [← hsplit] at hfd hfl
  unfold MoveReadyToQueue PopReadyTimers
  rw [hpop]
  exact ⟨⟨ready, rfl, hsorted, hfd.symm, hfl.symm, rfl, rfl⟩, hrest⟩

/-! ## Virtual time -/

/-- The clock has not passed a pending deadline. -/
structure Inv (s : State τ) : Prop where
  pending : s.timers_.AtLeast s.now_
  ordered : s.timers_.Ordered
  asserted : s.assertFailed = false
  history : s.set = s.timers_.entries + s.moved

/-- What is left behind a batch is later than the clock. -/
theorem Batch.later {s s' : State τ} {ready : List (τ × ℤ)} (h : Batch s s' ready) :
    ∀ e ∈ s'.timers_.entries, s'.now_ < e.2 := by
  intro e he
  rw [h.left] at he
  exact (Multiset.mem_filter.mp he).2

theorem Batch.history {s s' : State τ} {ready : List (τ × ℤ)} (h : Batch s s' ready) :
    s'.timers_.entries + s'.moved = s.timers_.entries + s.moved := by
  have hsplit : (ready : Multiset (τ × ℤ)) + s'.timers_.entries = s.timers_.entries := by
    rw [h.due, h.left]
    have hnot := Multiset.filter_add_not (fun e : τ × ℤ => e.2 ≤ s'.now_) s.timers_.entries
    simpa only [not_le] using hnot
  rw [h.moved, ← hsplit, ← add_assoc, add_comm s'.timers_.entries]

/-- An advance: the clock has been brought to `now`, which is not in the past. -/
theorem Inv.advance {s : State τ} (h : Inv s) {now : ℤ} (hnow : s.now_ ≤ now) :
    Inv (MoveReadyToQueue { s with now_ := now }) ∧
      s.now_ ≤ (MoveReadyToQueue { s with now_ := now }).now_ ∧
      (MoveReadyToQueue { s with now_ := now }).now_ = now ∧
      (MoveReadyToQueue { s with now_ := now }).set = s.set ∧
      ∃ ready, Batch s (MoveReadyToQueue { s with now_ := now }) ready := by
  have ho : ({ s with now_ := now } : State τ).timers_.Ordered := h.ordered
  obtain ⟨⟨ready, hb⟩, hrest⟩ := moveReadyToQueue_batch ho
  have hb' : Batch s (MoveReadyToQueue { s with now_ := now }) ready :=
    ⟨hb.queue, hb.sorted, hb.due, hb.left, hb.moved, hb.result⟩
  refine ⟨⟨?_, hrest, h.asserted, ?_⟩, hnow, rfl, rfl, ready, hb'⟩
  · exact Heap.atLeast_iff.mpr fun e he => (hb'.later e he).le
  · exact h.history.trans hb'.history.symm

/-- Where `AdvanceClockToNextDeadline` brings the clock: to the smallest deadline, and nowhere
when there is none. -/
def Nearest (s : State τ) (now : ℤ) : Prop :=
  s.timers_.entries = 0 ∧ now = s.now_ ∨
    (∃ e ∈ s.timers_.entries, e.2 = now) ∧ ∀ e ∈ s.timers_.entries, now ≤ e.2

/-- `AdvanceTo` the next deadline does not go back. -/
theorem Inv.advanceToNext {s : State τ} (h : Inv s) : ∃ now, s.now_ ≤ now ∧
    AdvanceClockToNextDeadline s = MoveReadyToQueue { s with now_ := now } ∧ Nearest s now := by
  unfold AdvanceClockToNextDeadline Nearest
  have ho := h.ordered
  cases ht : s.timers_ with
  | nullptr =>
    refine ⟨s.now_, le_refl _, ?_, .inl ⟨rfl, rfl⟩⟩
    simp only [Heap.Top]
    rw [← ht]
  | node t d k prev next =>
    have hat := h.pending
    rw [ht] at hat ho
    refine ⟨d, hat.1, ?_, .inr ⟨⟨(t, d), by simp [Heap.entries], rfl⟩, ho.Top_le rfl⟩⟩
    simp only [Heap.Top, AdvanceTo]
    rw [if_pos hat.1, ← ht]

/-- What one step does to the clock, the timers and the task queue. -/
structure StepSpec (a : Action τ) (s s' : State τ) : Prop where
  clock : s.now_ ≤ s'.now_
  set : s'.set = a.sets s + s.set
  advance : a.isAdvance = true → ∃ ready, Batch s s' ready
  advanceBy : ∀ delta, a = .advanceBy delta → s'.now_ = s.now_ + delta
  advanceToNext : a = .advanceToNext → Nearest s s'.now_
  next : a = .advanceToNext → s.timers_.entries ≠ 0 → 0 < s'.result
  other : a.isAdvance = false → s'.now_ = s.now_ ∧ s'.moved = s.moved ∧
    s'.timers_.entries = a.sets s + s.timers_.entries ∧
    (s'.task_queue_ = s.task_queue_ ++ a.submits ∨
      a = .loop ∧ ∃ task, s.task_queue_ = task :: s'.task_queue_)

/-- A step that does not touch the clock or the timers. -/
theorem Inv.keep {s s' : State τ} {a : Action τ} (h : Inv s) (hnow : s'.now_ = s.now_)
    (htimers : s'.timers_ = s.timers_) (hset : s'.set = s.set) (hmoved : s'.moved = s.moved)
    (hassert : s'.assertFailed = s.assertFailed) (ha : a.isAdvance = false) (hno : a.sets s = 0)
    (hqueue : s'.task_queue_ = s.task_queue_ ++ a.submits ∨
      a = .loop ∧ ∃ task, s.task_queue_ = task :: s'.task_queue_) : Inv s' ∧ StepSpec a s s' := by
  refine ⟨⟨?_, ?_, ?_, ?_⟩, hnow.ge, ?_, fun hadv => ?_, fun _ hadv => ?_, fun hadv => ?_,
    fun hadv => ?_, fun _ => ?_⟩
  · rw [htimers, hnow]
    exact h.pending
  · rw [htimers]
    exact h.ordered
  · rw [hassert]
    exact h.asserted
  · rw [hset, htimers, hmoved]
    exact h.history
  · rw [hset, hno, zero_add]
  · rw [ha] at hadv
    cases hadv
  · subst hadv
    cases ha
  · subst hadv
    cases ha
  · subst hadv
    cases ha
  · rw [htimers, hno, zero_add]
    exact ⟨hnow, hmoved, rfl, hqueue⟩

theorem Inv.set {s : State τ} (h : Inv s) {delay : ℤ} (timer : τ) (hd : 0 ≤ delay) :
    Inv (Set delay timer s) ∧ StepSpec (.set delay timer) s (Set delay timer s) := by
  have hentries : (Set delay timer s).timers_.entries =
      {(timer, delay + s.now_)} + s.timers_.entries := Heap.Push_entries _ _ _
  refine ⟨⟨?_, h.ordered.Push _ _, h.asserted, ?_⟩, le_refl _, rfl, (fun hadv => by cases hadv),
    (fun _ hadv => by cases hadv), (fun hadv => by cases hadv), (fun hadv => by cases hadv),
    fun _ => ⟨rfl, rfl, hentries, .inl (List.append_nil _).symm⟩⟩
  · refine Heap.atLeast_iff.mpr fun e he => ?_
    rw [hentries] at he
    rcases Multiset.mem_add.mp he with he | he
    · rw [Multiset.mem_singleton.mp he]
      change s.now_ ≤ delay + s.now_
      omega
    · exact Heap.atLeast_iff.mp h.pending e he
  · rw [hentries]
    change {(timer, delay + s.now_)} + s.set =
      {(timer, delay + s.now_)} + s.timers_.entries + s.moved
    rw [h.history, add_assoc]

theorem Inv.step {s s' : State τ} {a : Action τ} (h : Inv s) (hc : NonNegative a s)
    (hs : step a s = some s') : Inv s' ∧ StepSpec a s s' := by
  have hsame : ∀ {queue}, queue = s.task_queue_ → queue = s.task_queue_ ++ [] := by
    rintro _ rfl
    exact (List.append_nil _).symm
  cases a with
  | set delay timer =>
    simp only [Sandbox.step] at hs
    split at hs
    · cases hs
      exact h.set timer hc
    · cases hs
  | submit task =>
    simp only [Sandbox.step] at hs
    split at hs
    · cases hs
      exact h.keep rfl rfl rfl rfl rfl rfl rfl (.inl rfl)
    · cases hs
  | advanceBy delta =>
    simp only [Sandbox.step] at hs
    split at hs
    · cases hs
      have hd : s.now_ ≤ s.now_ + delta := Int.le_add_of_nonneg_right hc
      obtain ⟨hinv, hclock, hto, hset, hbatch⟩ := h.advance hd
      refine ⟨hinv, hclock, hset.trans (zero_add _).symm, (fun _ => hbatch), fun delta' ha => ?_,
        (fun ha => by cases ha), (fun ha => by cases ha), fun ha => by cases ha⟩
      cases ha
      exact hto
    · cases hs
  | advanceToNext =>
    simp only [Sandbox.step] at hs
    split at hs
    · cases hs
      obtain ⟨now, hnow, heq, hnearest⟩ := h.advanceToNext
      obtain ⟨hinv, hclock, hto, hset, ready, hbatch⟩ := h.advance hnow
      rw [← heq] at hinv hclock hto hset hbatch
      rw [← hto] at hnearest
      refine ⟨hinv, hclock, hset.trans (zero_add _).symm, (fun _ => ⟨ready, hbatch⟩),
        (fun _ ha => by cases ha), (fun _ => hnearest), (fun _ hne => ?_), fun ha => by cases ha⟩
      obtain ⟨hnone, -⟩ | ⟨⟨e, he, heq⟩, -⟩ := hnearest
      · exact absurd hnone hne
      have hready : e ∈ (ready : Multiset (τ × ℤ)) := by
        rw [hbatch.due]
        exact Multiset.mem_filter.mpr ⟨he, heq.le⟩
      rw [hbatch.result]
      exact List.length_pos_of_mem (Multiset.mem_coe.mp hready)
    · cases hs
  | runAtMost limit =>
    simp only [Sandbox.step] at hs
    split at hs
    · cases hs
      exact h.keep rfl rfl rfl rfl rfl rfl rfl (.inl (hsame rfl))
    · cases hs
  | runTasks =>
    simp only [Sandbox.step] at hs
    split at hs
    · cases hs
      exact h.keep rfl rfl rfl rfl rfl rfl rfl (.inl (hsame rfl))
    · cases hs
  | loop =>
    simp only [Sandbox.step] at hs
    split at hs
    · rename_i count limit _
      cases hs
      unfold testSection
      split
      · split
        · rename_i task rest hcons
          exact h.keep rfl rfl rfl rfl rfl rfl rfl (.inr ⟨rfl, task, hcons⟩)
        · exact h.keep rfl rfl rfl rfl rfl rfl rfl (.inl (hsame rfl))
      · exact h.keep rfl rfl rfl rfl rfl rfl rfl (.inl (hsame rfl))
    · cases hs
  | bodyDone =>
    simp only [Sandbox.step] at hs
    split at hs
    · cases hs
      exact h.keep rfl rfl rfl rfl rfl rfl rfl (.inl (hsame rfl))
    · cases hs

theorem inv_of_reachable {s : State τ} (hs : (machine τ).ReachableVia NonNegative s) : Inv s := by
  refine hs.invariant (fun s hinit => ?_) fun _ _ _ h hc hst => (h.step hc hst).1
  subst hinit
  exact ⟨trivial, trivial, rfl, rfl⟩

/-- **Virtual time.** The assertion in `AdvanceTo` does not fail; every timer that was set is
pending or has been moved, once; and each step does what `StepSpec` says: the clock does not
go back and comes to where the advance sends it, and an advance moves exactly the timers that
are due there, by deadline, behind the tasks that were queued, returns their number, and
leaves none of them in the heap. -/
theorem virtual_time {s : State τ} (hs : (machine τ).ReachableVia NonNegative s) :
    s.assertFailed = false ∧ s.set = s.timers_.entries + s.moved ∧
    ∀ a s', NonNegative a s → step a s = some s' → StepSpec a s s' :=
  ⟨(inv_of_reachable hs).asserted, (inv_of_reachable hs).history,
    fun _ _ hc hst => ((inv_of_reachable hs).step hc hst).2⟩

/-- Two timers are due at 5 and one at 9. -/
def threeTimers : List (Action ℕ) :=
  [.set 9 1, .submit 7, .set 5 2, .advanceBy 4, .set 1 3, .runTasks, .loop, .bodyDone, .loop]

theorem virtual_time_threeTimers : ∃ s s' : State ℕ, (machine ℕ).ReachableVia NonNegative s ∧
    s.now_ = 4 ∧ step .advanceToNext s = some s' ∧ s'.timers_.entries = {(1, 9)} ∧
    s'.now_ = 5 ∧ 0 < s'.result := by
  obtain ⟨s, hs, hp⟩ := Machine.ReachableVia.exec_any (M := machine ℕ) (C := NonNegative)
    (s := State.new) (.init rfl) threeTimers
    (fun s => decide (s.now_ = 4 ∧ s.timers_.entries = {(1, 9), (2, 5), (3, 5)}) &&
      (step .advanceToNext s).any fun s' : State ℕ => decide (s'.timers_.entries = {(1, 9)}))
    (by decide)
  rw [Bool.and_eq_true, Option.any_eq_true] at hp
  obtain ⟨hnow, s', hst, hleft⟩ := hp
  obtain ⟨hnow, hentries⟩ := of_decide_eq_true hnow
  have hspec := (virtual_time hs).2.2 .advanceToNext s' trivial hst
  have hne : s.timers_.entries ≠ 0 := by
    rw [hentries]
    decide
  have hclock : s'.now_ = 5 := by
    obtain ⟨hnone, -⟩ | ⟨⟨e, he, heq⟩, hle⟩ := hspec.advanceToNext rfl
    · exact absurd hnone hne
    · rw [hentries] at he hle
      have hnearest := hle (2, 5) (by decide)
      have hlater : ∀ e ∈ ({(1, 9), (2, 5), (3, 5)} : Multiset (ℕ × ℤ)), 5 ≤ e.2 := by decide
      have hleast := hlater e he
      omega
  exact ⟨s, s', hs, hnow, hst, of_decide_eq_true hleft, hclock, hspec.next rfl hne⟩

end Exe.Sandbox
