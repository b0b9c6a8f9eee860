/-
`run_loop::Runtime`: one thread that runs tasks and timers.

`GetTask` looks at the nearest deadline without waiting, and then waits for a task. The
two queues have a condition variable each, and `Set` notifies only that of the timer
queue, on which the loop never sleeps while its heap has something in it. A timer that
is not due when `GetTask` looks, or that is set later, is not looked at again before a
task is submitted.

# Conventions

* The loop is run by one thread. `Submit` and `Set` may be called by anybody at any time,
  the body of the task that the loop is running included.
* The clock and the delay are part of the action.
-/
import Exe.Machine
import Exe.BlockingQueue
import Exe.LeftistHeap

set_option autoImplicit false

namespace Exe.RunLoop

open Detail

/-! ## The model -/

/-- Where the loop is: at the start of `GetTask`, before the clock is read, in
`GetClosestTimer`, in `tasks_.Pop`, before `is_closed_` is loaded, in the body of what
`GetTask` returned, or past `Run`. -/
inductive LoopPc (τ : Type*)
  | getTask
  | clock (deadline : ℤ)
  | closest (pc : WaitPc)
  | pop (pc : WaitPc)
  | checkClosed
  | running (task : τ)
  | exited

namespace LoopPc

variable {τ : Type*}

/-- Asleep inside `tasks_.Pop()`. -/
def inPop : LoopPc τ → Bool
  | pop .asleep => true
  | _ => false

/-- The loop after a notification of `tasks_`. -/
def taskPushed : LoopPc τ → LoopPc τ
  | pop pc => pop pc.woken
  | pc => pc

/-- The loop after a notification of `timers_`. -/
def timerPushed : LoopPc τ → LoopPc τ
  | closest pc => closest pc.woken
  | pc => pc

end LoopPc

/-- Where `Stop` is. -/
inductive StopPc
  | notStarted
  | closeTasks
  | flag
  | returned
  deriving DecidableEq

structure State (τ : Type*) where
  timers_ : BlockingQueue (Heap τ)
  tasks_ : BlockingQueue (List τ)
  is_closed_ : Bool
  loopPc : LoopPc τ
  stopPc : StopPc

variable {τ : Type*}

/-- A new runtime, before the first `GetTask` of `Run`. -/
def State.new : State τ where
  timers_ := .new .nullptr
  tasks_ := .new []
  is_closed_ := false
  loopPc := .getTask
  stopPc := .notStarted

/-- `TryNearestDeadLine`. An empty `deadline` goes on to `tasks_.Pop()`. -/
def TryNearestDeadLine (s : State τ) : State τ :=
  match s.timers_.buffer_.Top with
  | none => { s with loopPc := .pop .enter }
  | some deadline => { s with loopPc := .clock deadline }

/-- A section of `GetClosestTimer`. `Run` leaves its loop at a `nullptr`. -/
def closestSection (pc : WaitPc) (s : State τ) : State τ :=
  let q := s.timers_.enter pc
  if q.mustWait Heap.IsEmpty then { s with timers_ := q, loopPc := .closest .asleep }
  else
    match q.leave.buffer_.Pop with
    | none => { s with timers_ := q.leave, loopPc := .exited }
    | some (timer, rest) =>
      { s with timers_ := { q.leave with buffer_ := rest }, loopPc := .running timer }

/-- A section of `tasks_.Pop()`. -/
def popSection (pc : WaitPc) (s : State τ) : State τ :=
  let q := s.tasks_.enter pc
  if q.mustWait List.isEmpty then { s with tasks_ := q, loopPc := .pop .asleep }
  else
    match q.leave.buffer_ with
    | [] => { s with tasks_ := q.leave, loopPc := .checkClosed }
    | task :: rest =>
      { s with tasks_ := { q.leave with buffer_ := rest }, loopPc := .running task }

/-- A step of `Run`, with `now` on the clock. -/
def Run (now : ℤ) (s : State τ) : Option (State τ) :=
  match s.loopPc with
  | .getTask => some (TryNearestDeadLine s)
  | .clock deadline =>
    some { s with loopPc := if now ≥ deadline then .closest .enter else .pop .enter }
  | .closest .asleep => none
  | .closest pc => some (closestSection pc s)
  | .pop .asleep => none
  | .pop pc => some (popSection pc s)
  | .checkClosed => some { s with loopPc := if s.is_closed_ then .exited else .getTask }
  | .running _ => some { s with loopPc := .getTask }
  | .exited => none

/-- `Set(delay, timer)` with `now` on the clock. -/
def Set (now delay : ℤ) (timer : τ) (s : State τ) : State τ :=
  { s with
    timers_ := { s.timers_ with buffer_ := s.timers_.buffer_.Push timer (now + delay) }
    loopPc := if 0 < s.timers_.waiting_ then s.loopPc.timerPushed else s.loopPc }

def Submit (task : τ) (s : State τ) : State τ :=
  { s with
    tasks_ := { s.tasks_ with buffer_ := s.tasks_.buffer_ ++ [task] }
    loopPc := if 0 < s.tasks_.waiting_ then s.loopPc.taskPushed else s.loopPc }

/-- `Stop`: `timers_.Close()`, `tasks_.Close()`, `is_closed_.store(true)`. -/
def Stop (s : State τ) : Option (State τ) :=
  match s.stopPc with
  | .notStarted =>
    some { s with
      timers_ := { s.timers_ with is_closed_ := true }
      loopPc := if 0 < s.timers_.waiting_ then s.loopPc.timerPushed else s.loopPc
      stopPc := .closeTasks }
  | .closeTasks =>
    some { s with
      tasks_ := { s.tasks_ with is_closed_ := true }
      loopPc := if 0 < s.tasks_.waiting_ then s.loopPc.taskPushed else s.loopPc
      stopPc := .flag }
  | .flag => some { s with is_closed_ := true, stopPc := .returned }
  | .returned => none

inductive Action (τ : Type*)
  | loop (now : ℤ)
  | spurious
  | set (now delay : ℤ) (timer : τ)
  | submit (task : τ)
  | stop

def step (a : Action τ) (s : State τ) : Option (State τ) :=
  match a with
  | .loop now => Run now s
  | .spurious =>
    match s.loopPc with
    | .closest .asleep => some { s with loopPc := .closest .awake }
    | .pop .asleep => some { s with loopPc := .pop .awake }
    | _ => none
  | .set now delay timer => some (Set now delay timer s)
  | .submit task => some (Submit task s)
  | .stop => Stop s

def machine (τ : Type*) : Machine (State τ) (Action τ) where
  init s := s = .new
  step := step

/-! ## Blocked past a timer -/

/-- The loop sleeps in `tasks_.Pop()`, the task queue is empty and a timer is pending. -/
def Blocked (s : State τ) : Prop :=
  s.loopPc.inPop = true ∧ s.tasks_.buffer_ = [] ∧ s.timers_.buffer_.IsEmpty = false

/-- The two ways in, by the state before the step: the loop runs a section of
`tasks_.Pop()` on an empty queue while a timer is pending, or a timer is set while the
loop sleeps there on an empty queue. -/
def NoTimerPassed (a : Action τ) (s : State τ) : Prop :=
  match a with
  | .loop _ => (∃ pc, s.loopPc = .pop pc) → s.tasks_.buffer_ = [] →
      s.timers_.buffer_.IsEmpty = true
  | .set _ _ _ => s.loopPc.inPop = true → s.tasks_.buffer_ ≠ []
  | _ => True

theorem closestSection_frame (pc : WaitPc) (s : State τ) :
    (closestSection pc s).stopPc = s.stopPc ∧ (closestSection pc s).tasks_ = s.tasks_ := by
  unfold closestSection
  dsimp only
  split
  · exact ⟨rfl, rfl⟩
  · split <;> exact ⟨rfl, rfl⟩

theorem popSection_frame (pc : WaitPc) (s : State τ) :
    (popSection pc s).stopPc = s.stopPc ∧
      (popSection pc s).tasks_.is_closed_ = s.tasks_.is_closed_ := by
  have hclosed := (s.tasks_.enter_eq pc).2
  unfold popSection
  dsimp only
  split
  · exact ⟨rfl, hclosed⟩
  · split <;> exact ⟨rfl, hclosed⟩

/-- Only `Stop` closes the task queue, and not with its first step. -/
theorem step_open {s s' : State τ} {a : Action τ} (h : step a s = some s')
    (hstop : s'.stopPc = .notStarted) :
    s.stopPc = .notStarted ∧ s'.tasks_.is_closed_ = s.tasks_.is_closed_ := by
  cases a with
  | loop now =>
    simp only [step, Run] at h
    split at h
    · cases h
      unfold TryNearestDeadLine at hstop ⊢
      split at hstop <;> exact ⟨hstop, rfl⟩
    · cases h
      exact ⟨hstop, rfl⟩
    · cases h
    · rename_i pc _ _
      cases h
      obtain ⟨hpc, htasks⟩ := closestSection_frame pc s
      exact ⟨hpc.symm.trans hstop, by rw [htasks]⟩
    · cases h
    · rename_i pc _ _
      cases h
      obtain ⟨hpc, hclosed⟩ := popSection_frame pc s
      exact ⟨hpc.symm.trans hstop, hclosed⟩
    · cases h
      exact ⟨hstop, rfl⟩
    · cases h
      exact ⟨hstop, rfl⟩
    · cases h
  | spurious =>
    simp only [step] at h
    split at h
    · cases h
      exact ⟨hstop, rfl⟩
    · cases h
      exact ⟨hstop, rfl⟩
    · cases h
  | set now delay timer =>
    cases h
    exact ⟨hstop, rfl⟩
  | submit task =>
    cases h
    exact ⟨hstop, rfl⟩
  | stop =>
    simp only [step, Stop] at h
    split at h <;> cases h <;> cases hstop

/-- Until `Stop` begins, the task queue is open. -/
theorem open_of_reachable {s : State τ} (hs : (machine τ).Reachable s)
    (hstop : s.stopPc = .notStarted) : s.tasks_.is_closed_ = false := by
  refine hs.invariant (I := fun s => s.stopPc = .notStarted → s.tasks_.is_closed_ = false)
    (fun s hinit _ => by subst hinit; rfl) (fun a s s' ih _ hst hstop' => ?_) hstop
  obtain ⟨hnot, hclosed⟩ := step_open hst hstop'
  rw [hclosed]
  exact ih hnot

theorem not_blocked_of_pc {s : State τ} (h : s.loopPc.inPop = false) : ¬Blocked s := by
  rintro ⟨hpc, -⟩
  rw [h] at hpc
  cases hpc

theorem inPop_timerPushed (pc : LoopPc τ) : pc.timerPushed.inPop = pc.inPop := by
  cases pc with
  | closest pc => cases pc <;> rfl
  | _ => rfl

/-- In an open queue, a section of `tasks_.Pop()` falls asleep beside a timer if and only
if it finds no task and there is one. -/
theorem blocked_popSection {s : State τ} {pc : WaitPc} (hopen : s.tasks_.is_closed_ = false) :
    Blocked (popSection pc s) ↔ s.tasks_.buffer_ = [] ∧ s.timers_.buffer_.IsEmpty = false := by
  obtain ⟨hbuf, hclosed⟩ := s.tasks_.enter_eq pc
  have hleave : (s.tasks_.enter pc).leave.buffer_ = s.tasks_.buffer_ := hbuf
  unfold popSection
  dsimp only
  split
  · rename_i hwait
    simp only [BlockingQueue.mustWait, Bool.and_eq_true, List.isEmpty_iff, hbuf] at hwait
    constructor
    · rintro ⟨-, -, htimer⟩
      exact ⟨hwait.2, htimer⟩
    · rintro ⟨hnil, htimer⟩
      exact ⟨rfl, hbuf.trans hnil, htimer⟩
  · rename_i hwait
    -- an open queue with nothing in it would have waited
    have hne : s.tasks_.buffer_ ≠ [] := by
      intro hnil
      simp [BlockingQueue.mustWait, hbuf, hclosed, hopen, hnil] at hwait
    refine ⟨fun hb => ?_, fun h => absurd h.1 hne⟩
    split at hb
    · exact absurd hb (not_blocked_of_pc rfl)
    · exact absurd hb (not_blocked_of_pc rfl)

/-- Before `Stop`, one step blocks the loop past a timer if and only if it is of one of
the two kinds. -/
theorem blocked_iff {s s' : State τ} {a : Action τ} (hopen : s.tasks_.is_closed_ = false)
    (hstop : s'.stopPc = .notStarted) (hs : step a s = some s') :
    Blocked s' ↔ ¬NoTimerPassed a s := by
  -- outside `tasks_.Pop()` nothing is blocked
  have hno : s'.loopPc.inPop = false → NoTimerPassed a s → (Blocked s' ↔ ¬NoTimerPassed a s) :=
    fun hpc hc => ⟨fun hbl => absurd hbl (not_blocked_of_pc hpc), fun hnc => absurd hc hnc⟩
  cases a with
  | loop now =>
    simp only [step, Run] at hs
    split at hs
    · rename_i hpc
      cases hs
      refine hno ?_ fun ⟨pc, hpop⟩ => by rw [hpc] at hpop; cases hpop
      unfold TryNearestDeadLine
      split <;> rfl
    · rename_i deadline hpc
      cases hs
      refine hno ?_ fun ⟨pc, hpop⟩ => by rw [hpc] at hpop; cases hpop
      dsimp only
      split <;> rfl
    · cases hs
    · rename_i pc _ hpc
      cases hs
      refine hno ?_ fun ⟨pc, hpop⟩ => by rw [hpc] at hpop; cases hpop
      unfold closestSection
      dsimp only
      split
      · rfl
      · split <;> rfl
    · cases hs
    · rename_i pc _ hpc
      cases hs
      -- the section of `tasks_.Pop()` itself
      rw [blocked_popSection hopen]
      constructor
      · rintro ⟨hnil, htimer⟩ hc
        rw [hc ⟨pc, hpc⟩ hnil] at htimer
        cases htimer
      · intro hc
        by_contra hn
        refine hc fun _ hnil => ?_
        by_contra htimer
        exact hn ⟨hnil, Bool.eq_false_iff.mpr htimer⟩
    · rename_i hpc
      cases hs
      refine hno ?_ fun ⟨pc, hpop⟩ => by rw [hpc] at hpop; cases hpop
      dsimp only
      split <;> rfl
    · rename_i hpc
      cases hs
      exact hno rfl fun ⟨pc, hpop⟩ => by rw [hpc] at hpop; cases hpop
    · cases hs
  | spurious =>
    simp only [step] at hs
    split at hs
    · cases hs
      exact hno rfl trivial
    · cases hs
      exact hno rfl trivial
    · cases hs
  | set now delay timer =>
    cases hs
    have hpc : (Set now delay timer s).loopPc.inPop = s.loopPc.inPop := by
      unfold Set
      dsimp only
      split
      · exact inPop_timerPushed _
      · rfl
    -- with the timer pushed there is one
    have htimer : (Set now delay timer s).timers_.buffer_.IsEmpty = false :=
      Heap.IsEmpty_Push _ _ _
    constructor
    · rintro ⟨hin, hnil, -⟩ hc
      rw [hpc] at hin
      exact hc hin hnil
    · intro hc
      by_contra hn
      refine hc fun hin hnil => hn ⟨?_, hnil, htimer⟩
      rw [hpc]
      exact hin
  | submit task =>
    cases hs
    refine ⟨fun ⟨_, hnil, _⟩ => ?_, fun hc => absurd trivial hc⟩
    exact absurd hnil (List.append_ne_nil_of_right_ne_nil _ (List.cons_ne_nil _ _))
  | stop =>
    simp only [step, Stop] at hs
    split at hs <;> cases hs <;> cases hstop

/-- **When the loop does not block past a timer.** Before `Stop`, no state of a run has
the loop asleep in `tasks_.Pop()` beside an empty task queue and a pending timer, if and
only if all steps of the run meet `NoTimerPassed`. -/
theorem never_blocked_iff {h : List (Transition (State τ) (Action τ))} {s : State τ}
    (hr : (machine τ).Run h s) (hstop : s.stopPc = .notStarted) :
    (¬Blocked s ∧ ∀ t ∈ h, ¬Blocked t.pre) ↔ ∀ t ∈ h, NoTimerPassed t.act t.pre := by
  induction hr with
  | init hinit =>
    subst hinit
    refine ⟨(fun _ t ht => by cases ht), fun _ => ⟨not_blocked_of_pc rfl, fun t ht => by cases ht⟩⟩
  | @step h s s' a hr hst ih =>
    have hnot := (step_open hst hstop).1
    have hopen := open_of_reachable hr.reachable hnot
    rw [List.forall_mem_cons, List.forall_mem_cons, ← ih hnot]
    constructor
    · rintro ⟨hb', hb, hall⟩
      refine ⟨?_, hb, hall⟩
      by_contra hc
      exact hb' ((blocked_iff hopen hstop hst).mpr hc)
    · rintro ⟨hc, hb, hall⟩
      exact ⟨fun hb' => (blocked_iff hopen hstop hst).mp hb' hc, hb, hall⟩

/-- A timer is set, and the next task comes in while the loop looks at its deadline. -/
theorem never_blocked_iff_taskInTime : ∃ h s, (machine ℕ).Run h s ∧
    s.loopPc.inPop = false ∧ s.timers_.buffer_.IsEmpty = false ∧
    ((¬Blocked s ∧ ∀ t ∈ h, ¬Blocked t.pre) ↔ ∀ t ∈ h, NoTimerPassed t.act t.pre) := by
  obtain ⟨h, s, hr, hp⟩ := (Machine.Run.init (M := machine ℕ) rfl).exec_any
    [.set 0 10 7, .loop 0, .submit 8, .loop 0, .loop 0]
    (fun s => decide (s.stopPc = .notStarted ∧ s.loopPc.inPop = false ∧
      s.timers_.buffer_.IsEmpty = false)) (by decide)
  obtain ⟨hstop, hpc, htimer⟩ := of_decide_eq_true hp
  exact ⟨h, s, hr, hpc, htimer, never_blocked_iff hr hstop⟩

/-- A timer that is due at 10 is set on an idle loop, which looks at it at 0 and goes to
sleep until a task comes. -/
theorem blocked_past_timer :
    ¬∀ s : State ℕ, (machine ℕ).Reachable s → s.stopPc = .notStarted → ¬Blocked s := by
  intro hclaim
  obtain ⟨s, hs, hp⟩ := Machine.Reachable.exec_any (M := machine ℕ) (s := State.new) (.init rfl)
    [.set 0 10 7, .loop 0, .loop 0, .loop 0]
    (fun s => decide (s.stopPc = .notStarted ∧ s.loopPc.inPop = true ∧ s.tasks_.buffer_ = [] ∧
      s.timers_.buffer_.IsEmpty = false)) (by decide)
  obtain ⟨hstop, hb⟩ := of_decide_eq_true hp
  exact hclaim s hs hstop hb

end Exe.RunLoop
