/-
`multi_thread::Runtime`: a thread pool and a timer thread.

`v1::Runtime` and `v2::Runtime` are the same class over two pools, so the
runtime is modelled once, over a `TaskPool`: a machine with the steps the
runtime makes on behalf of the timer thread and of `Stop` picked out. The timer
thread is `v1::TimerThread` in both.

`Runtime::Stop` stops and joins the pool **first** and closes the timer queue
afterwards. The timer thread goes on until its queue is closed and empty, so it
hands every timer to the pool, whether or not a worker is left to run it.

# Conventions

* `Set` may be called by anybody before `Stop`, and by running tasks at any time.
  The clock and the delay are part of the action.
* How long the timer thread sleeps is not modelled: it may always be scheduled
  late.
* `accepted`, `set` and `handed` are history: the tasks users and running tasks
  have submitted, the timers passed to `Set`, and the timers the timer thread has
  submitted.
-/
import Exe.Machine
import Exe.BlockingQueue
import Exe.LeftistHeap

set_option autoImplicit false

namespace Exe.Runtime

open Detail

/-! ## What the runtime needs of a pool -/

/-- A thread pool, as the runtime sees it.

`submit k timer` is the timer thread's call of `Submit(timer)`, with `k` for what
the call leaves open; `busy` says that this call has not returned. `isStop` picks
out the steps of the pool's own `Stop`, and `isOwn` those of the workers, of the
users, and the rest of the timer thread's `Submit`. A user enters `Submit` by a
step with `isUser`, and `usersIdle` says that no user is inside it. -/
structure TaskPool (σ α κ τ : Type*) where
  machine : Machine σ α
  submit : κ → τ → α
  isStop : α → Bool
  isOwn : α → Bool
  isUser : α → Bool
  busy : σ → Bool
  usersIdle : σ → Bool
  started : σ → Bool
  stopped : σ → Bool
  running : σ → Bool
  accepted : α → Multiset τ
  submitted : σ → Multiset τ
  ran : σ → Multiset τ
  submitted_init : ∀ s, machine.init s → submitted s = 0
  submitted_step : ∀ a s s', machine.Reachable s → machine.step a s = some s' →
    submitted s' = accepted a + submitted s
  stop_not_user : ∀ a, isStop a = true → isUser a = false
  accepted_submit : ∀ k t, accepted (submit k t) = {t}
  accepted_stop : ∀ a, isStop a = true → accepted a = 0
  busy_init : ∀ s, machine.init s → busy s = false
  busy_step : ∀ a s s', isOwn a = true ∨ isStop a = true → machine.Reachable s →
    machine.step a s = some s' → busy s' = true → busy s = true
  usersIdle_step : ∀ a s s', isUser a = false ∨ (∃ k t, a = submit k t) → machine.Reachable s →
    machine.step a s = some s' → usersIdle s = true → usersIdle s' = true
  started_init : ∀ s, machine.init s → started s = false
  started_step : ∀ a s s', isOwn a = true ∨ (∃ k t, a = submit k t) → machine.Reachable s →
    machine.step a s = some s' → started s' = true → started s = true
  stopped_step : ∀ a s s', machine.Reachable s → machine.step a s = some s' →
    stopped s = true → stopped s' = true
  not_running : ∀ s, machine.Reachable s → stopped s = true → running s = false

/-! ## The runtime -/

/-- Where `TimerThread::Run` is: in `NearestDeadLine`, before the clock is read,
in `sleep_for`, in `GetClosestTimer`, before `Submit`, inside it, or past the
loop. `GetClosestTimer` may return `nullptr`. -/
inductive TimerPc (τ : Type*)
  | nearest (pc : WaitPc)
  | clock (deadline : ℤ)
  | sleeping
  | closest (pc : WaitPc)
  | submit (timer : Option τ)
  | submitting
  | exited

/-- A sleeper that was notified. -/
def TimerPc.woken {τ : Type*} : TimerPc τ → TimerPc τ
  | .nearest pc => .nearest pc.woken
  | .closest pc => .closest pc.woken
  | pc => pc

/-- Where `Runtime::Stop` is. -/
inductive StopPc
  | notStarted
  | tasks
  | closeTimers
  | joinTimers
  | returned
  deriving DecidableEq

structure State (σ τ : Type*) where
  tasks_ : σ
  timers_ : BlockingQueue (Heap τ)
  timerPc : TimerPc τ
  stopPc : StopPc
  accepted : Multiset τ
  set : Multiset τ
  handed : Multiset τ

/-- The runtime right after `Start`. -/
def State.start {σ τ : Type*} (tasks : σ) : State σ τ where
  tasks_ := tasks
  timers_ := .new .nullptr
  timerPc := .nearest .enter
  stopPc := .notStarted
  accepted := 0
  set := 0
  handed := 0

variable {σ α κ τ : Type*}

/-- A section of `NearestDeadLine`. -/
def nearestSection (pc : WaitPc) (s : State σ τ) : State σ τ :=
  let q := s.timers_.enter pc
  if q.mustWait Heap.IsEmpty then { s with timers_ := q, timerPc := .nearest .asleep }
  else
    match q.leave.buffer_.Top with
    | none => { s with timers_ := q.leave, timerPc := .exited }
    | some deadline => { s with timers_ := q.leave, timerPc := .clock deadline }

/-- A section of `GetClosestTimer`. -/
def closestSection (pc : WaitPc) (s : State σ τ) : State σ τ :=
  let q := s.timers_.enter pc
  if q.mustWait Heap.IsEmpty then { s with timers_ := q, timerPc := .closest .asleep }
  else
    match q.leave.buffer_.Pop with
    | none => { s with timers_ := q.leave, timerPc := .submit none }
    | some (timer, rest) =>
      { s with timers_ := { q.leave with buffer_ := rest }, timerPc := .submit (some timer) }

/-- A step of the timer thread outside `Submit`, with `now` on the clock. -/
def timerStep (P : TaskPool σ α κ τ) (now : ℤ) (s : State σ τ) : Option (State σ τ) :=
  match s.timerPc with
  | .nearest .asleep => none
  | .nearest pc => some (nearestSection pc s)
  | .clock deadline =>
    some { s with timerPc := if now < deadline then .sleeping else .closest .enter }
  | .sleeping => some { s with timerPc := .closest .enter }
  | .closest .asleep => none
  | .closest pc => some (closestSection pc s)
  | .submit _ => none
  | .submitting => if P.busy s.tasks_ then none else some { s with timerPc := .nearest .enter }
  | .exited => none

/-- `TimerThread::Set(delay, timer)` with `now` on the clock. The only thread that
can be asleep on the queue is the timer thread. -/
def Set (now delay : ℤ) (timer : τ) (s : State σ τ) : State σ τ :=
  { s with
    timers_ := { s.timers_ with buffer_ := s.timers_.buffer_.Push timer (now + delay) }
    timerPc := if 0 < s.timers_.waiting_ then s.timerPc.woken else s.timerPc
    set := {timer} + s.set }

/-- Who moves, and how. -/
inductive Action (α κ τ : Type*)
  | pool (a : α)
  | set (now delay : ℤ) (timer : τ)
  | timer (now : ℤ)
  | spurious
  | submit (k : κ)
  | stop
  | stopPool (a : α)

/-- `Runtime::Stop`, outside the pool's own `Stop`. -/
def stopStep (P : TaskPool σ α κ τ) (s : State σ τ) : Option (State σ τ) :=
  match s.stopPc with
  | .notStarted => some { s with stopPc := .tasks }
  | .tasks => if P.stopped s.tasks_ then some { s with stopPc := .closeTimers } else none
  | .closeTimers =>
    some { s with
      timers_ := { s.timers_ with is_closed_ := true }
      timerPc := if 0 < s.timers_.waiting_ then s.timerPc.woken else s.timerPc
      stopPc := .joinTimers }
  | .joinTimers =>
    match s.timerPc with
    | .exited => some { s with stopPc := .returned }
    | _ => none
  | .returned => none

def step (P : TaskPool σ α κ τ) (a : Action α κ τ) (s : State σ τ) : Option (State σ τ) :=
  match a with
  | .pool a =>
    if P.isOwn a then
      (P.machine.step a s.tasks_).map fun tasks =>
        { s with tasks_ := tasks, accepted := P.accepted a + s.accepted }
    else none
  | .set now delay timer =>
    if s.stopPc = .notStarted ∨ P.running s.tasks_ = true then some (Set now delay timer s)
    else none
  | .timer now => timerStep P now s
  | .spurious =>
    match s.timerPc with
    | .nearest .asleep => some { s with timerPc := .nearest .awake }
    | .closest .asleep => some { s with timerPc := .closest .awake }
    | _ => none
  | .submit k =>
    match s.timerPc with
    | .submit (some timer) =>
      (P.machine.step (P.submit k timer) s.tasks_).map fun tasks =>
        { s with tasks_ := tasks, timerPc := .submitting, handed := {timer} + s.handed }
    | _ => none
  | .stop => stopStep P s
  | .stopPool a =>
    if s.stopPc = .tasks ∧ P.isStop a = true then
      (P.machine.step a s.tasks_).map fun tasks => { s with tasks_ := tasks }
    else none

def machine (P : TaskPool σ α κ τ) : Machine (State σ τ) (Action α κ τ) where
  init s := ∃ tasks, P.machine.init tasks ∧ s = .start tasks
  step := step P

/-! ## The invariant -/

/-- The timer `Run` holds between `GetClosestTimer` and `Submit`. -/
def TimerPc.held : TimerPc τ → Multiset τ
  | .submit (some timer) => {timer}
  | _ => 0

/-- Where the timers are, and in which order things begin and end. -/
structure Inv (P : TaskPool σ α κ τ) (s : State σ τ) : Prop where
  timers : s.set = s.timers_.buffer_.timers + s.timerPc.held + s.handed
  submitted : P.submitted s.tasks_ = s.accepted + s.handed
  busy : P.busy s.tasks_ = true → s.timerPc = .submitting
  closed : s.timers_.is_closed_ = true ↔ s.stopPc = .joinTimers ∨ s.stopPc = .returned
  notStarted : s.stopPc = .notStarted → P.started s.tasks_ = false
  stopped : s.stopPc ≠ .notStarted → s.stopPc ≠ .tasks → P.stopped s.tasks_ = true
  exited : s.timerPc = .exited → s.timers_.is_closed_ = true ∧ s.timers_.buffer_ = .nullptr
  returned : s.stopPc = .returned → s.timerPc = .exited

section Inv

variable {P : TaskPool σ α κ τ} {s : State σ τ}

theorem woken_held (pc : TimerPc τ) : pc.woken.held = pc.held := by
  cases pc <;> rfl

theorem woken_eq_exited {pc : TimerPc τ} : pc.woken = .exited ↔ pc = .exited := by
  cases pc <;> simp [TimerPc.woken]

theorem woken_eq_submitting {pc : TimerPc τ} : pc.woken = .submitting ↔ pc = .submitting := by
  cases pc <;> simp [TimerPc.woken]

/-- The timer thread moves between its program counters; the timers it takes out
of the heap it holds. -/
theorem Inv.timer {t : State σ τ} (h : Inv P s) (htasks : t.tasks_ = s.tasks_)
    (hstop : t.stopPc = s.stopPc) (hset : t.set = s.set) (hacc : t.accepted = s.accepted)
    (hhanded : t.handed = s.handed) (hclosed : t.timers_.is_closed_ = s.timers_.is_closed_)
    (htimers : t.timers_.buffer_.timers + t.timerPc.held =
      s.timers_.buffer_.timers + s.timerPc.held)
    (hbusy : P.busy s.tasks_ = false) (hne : s.timerPc ≠ .exited)
    (hexit : t.timerPc = .exited → t.timers_.is_closed_ = true ∧ t.timers_.buffer_ = .nullptr) :
    Inv P t := by
  refine ⟨?_, ?_, fun hb => ?_, ?_, ?_, ?_, hexit, fun hret => ?_⟩
  · rw [hset, htimers, hhanded]
    exact h.timers
  · rw [htasks, hacc, hhanded]
    exact h.submitted
  · rw [htasks, hbusy] at hb
    cases hb
  · rw [hclosed, hstop]
    exact h.closed
  · rw [hstop, htasks]
    exact h.notStarted
  · rw [hstop, htasks]
    exact h.stopped
  · rw [hstop] at hret
    exact absurd (h.returned hret) hne

/-- Unless the timer thread is inside `Submit`, the pool is not busy with it. -/
theorem Inv.not_busy (h : Inv P s) (hpc : s.timerPc ≠ .submitting) : P.busy s.tasks_ = false :=
  Bool.eq_false_iff.mpr fun hb => hpc (h.busy hb)

theorem Inv.nearestSection {pc : WaitPc} (h : Inv P s) (hpc : s.timerPc = .nearest pc) :
    Inv P (nearestSection pc s) := by
  have hbusy := h.not_busy (by rw [hpc]; simp)
  have hne : s.timerPc ≠ .exited := by rw [hpc]; simp
  have hheld : s.timerPc.held = 0 := by rw [hpc]; rfl
  obtain ⟨hbuf, hclosed⟩ := s.timers_.enter_eq pc
  have hleave : (s.timers_.enter pc).leave.buffer_ = s.timers_.buffer_ := hbuf
  simp only [Runtime.nearestSection]
  split
  · refine h.timer rfl rfl rfl rfl rfl hclosed ?_ hbusy hne fun he => by cases he
    rw [hheld, hbuf]
    rfl
  · rename_i hwait
    split
    · rename_i htop
      have hnil : s.timers_.buffer_ = .nullptr := by
        rw [hleave] at htop
        cases hb : s.timers_.buffer_ with
        | nullptr => rfl
        | node => rw [hb] at htop; cases htop
      refine h.timer rfl rfl rfl rfl rfl hclosed ?_ hbusy hne fun _ => ⟨?_, ?_⟩
      · rw [hheld, hleave]
        rfl
      · have hempty : Heap.IsEmpty (s.timers_.enter pc).buffer_ = true := by
          rw [hbuf, hnil]
          rfl
        exact BlockingQueue.closed_of_empty hwait hempty
      · exact hleave.trans hnil
    · refine h.timer rfl rfl rfl rfl rfl hclosed ?_ hbusy hne fun he => by cases he
      rw [hheld, hleave]
      rfl

theorem Inv.closestSection {pc : WaitPc} (h : Inv P s) (hpc : s.timerPc = .closest pc) :
    Inv P (closestSection pc s) := by
  have hbusy := h.not_busy (by rw [hpc]; simp)
  have hne : s.timerPc ≠ .exited := by rw [hpc]; simp
  have hheld : s.timerPc.held = 0 := by rw [hpc]; rfl
  obtain ⟨hbuf, hclosed⟩ := s.timers_.enter_eq pc
  have hleave : (s.timers_.enter pc).leave.buffer_ = s.timers_.buffer_ := hbuf
  simp only [Runtime.closestSection]
  split
  · refine h.timer rfl rfl rfl rfl rfl hclosed ?_ hbusy hne fun he => by cases he
    rw [hheld, hbuf]
    rfl
  · split
    · refine h.timer rfl rfl rfl rfl rfl hclosed ?_ hbusy hne fun he => by cases he
      rw [hheld, hleave]
      rfl
    · rename_i timer rest hpop
      refine h.timer rfl rfl rfl rfl rfl hclosed ?_ hbusy hne fun he => by cases he
      rw [hleave] at hpop
      rw [hheld, Heap.Pop_timers hpop, add_zero]
      exact add_comm _ _

theorem Inv.timerStep {s' : State σ τ} {now : ℤ} (h : Inv P s)
    (hs : timerStep P now s = some s') : Inv P s' := by
  unfold Runtime.timerStep at hs
  split at hs
  · cases hs
  · rename_i pc _ hpc
    cases hs
    exact h.nearestSection hpc
  · rename_i deadline hpc
    cases hs
    refine h.timer rfl rfl rfl rfl rfl rfl ?_ (h.not_busy (by rw [hpc]; simp))
      (by rw [hpc]; simp) fun he => ?_
    · rw [hpc]
      dsimp only
      split <;> rfl
    · dsimp only at he
      split at he <;> cases he
  · rename_i hpc
    cases hs
    exact h.timer rfl rfl rfl rfl rfl rfl (by rw [hpc]; rfl) (h.not_busy (by rw [hpc]; simp))
      (by rw [hpc]; simp) fun he => by cases he
  · cases hs
  · rename_i pc _ hpc
    cases hs
    exact h.closestSection hpc
  · cases hs
  · rename_i hpc
    split at hs
    · cases hs
    · rename_i hbusy
      cases hs
      exact h.timer rfl rfl rfl rfl rfl rfl (by rw [hpc]; rfl) (Bool.eq_false_iff.mpr hbusy)
        (by rw [hpc]; simp) fun he => by cases he
  · cases hs

/-- `Set`, while the timer thread still looks at the queue. -/
theorem Inv.set (h : Inv P s) (hreach : P.machine.Reachable s.tasks_)
    (hwho : s.stopPc = .notStarted ∨ P.running s.tasks_ = true) (now delay : ℤ) (timer : τ) :
    Inv P (Set now delay timer s) := by
  have hopen : s.timerPc ≠ .exited := by
    intro hex
    -- a closed queue means that the pool has stopped, and then no task runs
    have hstop := h.closed.mp (h.exited hex).1
    rcases hwho with hns | hrun
    · rw [hns] at hstop
      simp at hstop
    · have hst := h.stopped (by rintro he; rw [he] at hstop; simp at hstop)
        (by rintro he; rw [he] at hstop; simp at hstop)
      rw [P.not_running _ hreach hst] at hrun
      cases hrun
  have hheld : (Set now delay timer s).timerPc.held = s.timerPc.held := by
    dsimp only [Set]
    split
    · exact woken_held _
    · rfl
  refine ⟨?_, h.submitted, fun hb => ?_, h.closed, h.notStarted, h.stopped, fun he => ?_,
    fun hret => absurd (h.returned hret) hopen⟩
  · have hpush := Heap.Push_timers s.timers_.buffer_ timer (now + delay)
    change {timer} + s.set = (s.timers_.buffer_.Push timer (now + delay)).timers +
      (Set now delay timer s).timerPc.held + s.handed
    rw [hheld, hpush, h.timers]
    ac_rfl
  · have hsub := h.busy hb
    dsimp only [Set]
    split
    · exact woken_eq_submitting.mpr hsub
    · exact hsub
  · dsimp only [Set] at he
    split at he
    · exact absurd (woken_eq_exited.mp he) hopen
    · exact absurd he hopen

/-- A step of the pool that is neither its `Stop` nor the timer thread's call. -/
theorem Inv.pool {a : α} {tasks : σ} (h : Inv P s) (hreach : P.machine.Reachable s.tasks_)
    (hown : P.isOwn a = true) (hs : P.machine.step a s.tasks_ = some tasks) :
    Inv P { s with tasks_ := tasks, accepted := P.accepted a + s.accepted } := by
  refine ⟨h.timers, ?_, fun hb => ?_, h.closed, fun hns => ?_, fun h₁ h₂ => ?_, h.exited,
    h.returned⟩
  · dsimp only
    rw [P.submitted_step a _ _ hreach hs, h.submitted, add_assoc]
  · exact h.busy (P.busy_step a _ _ (.inl hown) hreach hs hb)
  · have hnot := h.notStarted hns
    by_contra hstart
    have := P.started_step a _ _ (.inl hown) hreach hs (by simpa using hstart)
    rw [hnot] at this
    cases this
  · exact P.stopped_step a _ _ hreach hs (h.stopped h₁ h₂)

/-- The timer thread calls `Submit` with the timer it holds. -/
theorem Inv.submit {k : κ} {timer : τ} {tasks : σ} (h : Inv P s)
    (hreach : P.machine.Reachable s.tasks_) (hpc : s.timerPc = .submit (some timer))
    (hs : P.machine.step (P.submit k timer) s.tasks_ = some tasks) :
    Inv P { s with tasks_ := tasks, timerPc := .submitting, handed := {timer} + s.handed } := by
  have hne : s.stopPc ≠ .returned := fun hret => by
    have := h.returned hret
    rw [hpc] at this
    cases this
  refine ⟨?_, ?_, fun _ => rfl, h.closed, fun hns => ?_, fun h₁ h₂ => ?_,
    (fun he => by cases he), fun hret => absurd hret hne⟩
  · have ht := h.timers
    rw [hpc] at ht
    dsimp only [TimerPc.held] at ht ⊢
    rw [ht, add_zero, add_assoc]
  · dsimp only
    rw [P.submitted_step _ _ _ hreach hs, P.accepted_submit, h.submitted]
    ac_rfl
  · have hnot := h.notStarted hns
    by_contra hstart
    have := P.started_step _ _ _ (.inr ⟨k, timer, rfl⟩) hreach hs (by simpa using hstart)
    rw [hnot] at this
    cases this
  · exact P.stopped_step _ _ _ hreach hs (h.stopped h₁ h₂)

/-- A step of the pool's own `Stop`. -/
theorem Inv.stopPool {a : α} {tasks : σ} (h : Inv P s) (hreach : P.machine.Reachable s.tasks_)
    (hpc : s.stopPc = .tasks) (hstop : P.isStop a = true)
    (hs : P.machine.step a s.tasks_ = some tasks) : Inv P { s with tasks_ := tasks } := by
  refine ⟨h.timers, ?_, fun hb => ?_, h.closed, fun hns => ?_, fun h₁ h₂ => ?_, h.exited,
    h.returned⟩
  · dsimp only
    rw [P.submitted_step a _ _ hreach hs, P.accepted_stop a hstop, zero_add, h.submitted]
  · exact h.busy (P.busy_step a _ _ (.inr hstop) hreach hs hb)
  · rw [show s.stopPc = .notStarted from hns] at hpc
    cases hpc
  · exact absurd hpc h₂

/-- `timers_.Close()` reaches a timer thread that is still there. -/
theorem Inv.closeTimers (h : Inv P s) (hpc : s.stopPc = .closeTimers) :
    Inv P { s with
      timers_ := { s.timers_ with is_closed_ := true }
      timerPc := if 0 < s.timers_.waiting_ then s.timerPc.woken else s.timerPc
      stopPc := .joinTimers } := by
  have hopen : s.timerPc ≠ .exited := by
    intro hex
    have hclosed := h.closed.mp (h.exited hex).1
    rw [hpc] at hclosed
    simp at hclosed
  refine ⟨?_, h.submitted, fun hb => ?_, by simp, (fun hns => by cases hns), fun _ _ => ?_,
    fun he => ?_, fun hret => by cases hret⟩
  · rw [h.timers]
    dsimp only
    split
    · rw [woken_held]
    · rfl
  · have hsub := h.busy hb
    dsimp only
    split
    · exact woken_eq_submitting.mpr hsub
    · exact hsub
  · exact h.stopped (by rw [hpc]; simp) (by rw [hpc]; simp)
  · dsimp only at he
    split at he
    · exact absurd (woken_eq_exited.mp he) hopen
    · exact absurd he hopen

theorem Inv.stopStep {s' : State σ τ} (h : Inv P s) (hs : stopStep P s = some s') : Inv P s' := by
  unfold Runtime.stopStep at hs
  split at hs
  · rename_i hpc
    cases hs
    have hc := h.closed
    rw [hpc] at hc
    exact ⟨h.timers, h.submitted, h.busy, by simpa using hc, (fun hns => by cases hns),
      fun _ h₂ => absurd rfl h₂, h.exited, fun hret => by cases hret⟩
  · rename_i hpc
    split at hs
    · rename_i hstopped
      cases hs
      have hc := h.closed
      rw [hpc] at hc
      exact ⟨h.timers, h.submitted, h.busy, by simpa using hc, (fun hns => by cases hns),
        fun _ _ => hstopped, h.exited, fun hret => by cases hret⟩
    · cases hs
  · rename_i hpc
    cases hs
    exact h.closeTimers hpc
  · rename_i hpc
    split at hs
    · rename_i hex
      cases hs
      have hc := h.closed
      rw [hpc] at hc
      exact ⟨h.timers, h.submitted, h.busy, by simpa using hc, (fun hns => by cases hns),
        fun _ _ => h.stopped (by rw [hpc]; simp) (by rw [hpc]; simp), h.exited, fun _ => hex⟩
    · cases hs
  · cases hs

/-- A sleeping timer thread wakes without a reason. -/
theorem Inv.spurious {pc : TimerPc τ} (h : Inv P s) (hpc : pc = s.timerPc.woken)
    (hne : s.timerPc ≠ .exited) (hsub : s.timerPc ≠ .submitting) :
    Inv P { s with timerPc := pc } := by
  subst hpc
  refine h.timer rfl rfl rfl rfl rfl rfl ?_ (h.not_busy hsub) hne fun he => ?_
  · dsimp only
    rw [woken_held]
  · exact absurd (woken_eq_exited.mp he) hne

theorem Inv.step {s' : State σ τ} {a : Action α κ τ} (h : Inv P s)
    (hreach : P.machine.Reachable s.tasks_) (hs : step P a s = some s') : Inv P s' := by
  cases a with
  | pool a =>
    simp only [Runtime.step] at hs
    split at hs
    · rename_i hown
      obtain ⟨tasks, ht, rfl⟩ := Option.map_eq_some_iff.mp hs
      exact h.pool hreach hown ht
    · cases hs
  | set now delay timer =>
    simp only [Runtime.step] at hs
    split at hs
    · rename_i hwho
      cases hs
      exact h.set hreach hwho now delay timer
    · cases hs
  | timer now => exact h.timerStep hs
  | spurious =>
    simp only [Runtime.step] at hs
    split at hs
    · rename_i hpc
      cases hs
      exact h.spurious (by rw [hpc]; rfl) (by rw [hpc]; simp) (by rw [hpc]; simp)
    · rename_i hpc
      cases hs
      exact h.spurious (by rw [hpc]; rfl) (by rw [hpc]; simp) (by rw [hpc]; simp)
    · cases hs
  | submit k =>
    simp only [Runtime.step] at hs
    split at hs
    · rename_i timer hpc
      obtain ⟨tasks, ht, rfl⟩ := Option.map_eq_some_iff.mp hs
      exact h.submit hreach hpc ht
    · cases hs
  | stop => exact h.stopStep hs
  | stopPool a =>
    simp only [Runtime.step] at hs
    split at hs
    · rename_i hpc
      obtain ⟨tasks, ht, rfl⟩ := Option.map_eq_some_iff.mp hs
      exact h.stopPool hreach hpc.1 hpc.2 ht
    · cases hs

end Inv

/-! ## Runs -/

section Runs

variable {P : TaskPool σ α κ τ} {s : State σ τ}

/-- The pool's part of the step meets `D`. -/
def Within (P : TaskPool σ α κ τ) (D : α → σ → Prop) (a : Action α κ τ) (s : State σ τ) : Prop :=
  match a with
  | .pool a => P.isOwn a = true → D a s.tasks_
  | .submit k => ∀ timer, s.timerPc = .submit (some timer) → D (P.submit k timer) s.tasks_
  | .stopPool a => P.isStop a = true → D a s.tasks_
  | _ => True

/-- No user's `Submit` overlaps or follows `Stop`. `Set` is restricted by the
machine already. -/
def UsersFirst (P : TaskPool σ α κ τ) (a : Action α κ τ) (s : State σ τ) : Prop :=
  match a with
  | .pool a => P.isUser a = true → s.stopPc = .notStarted
  | .stop => s.stopPc = .notStarted → P.usersIdle s.tasks_ = true
  | _ => True

instance (a : Action α κ τ) (s : State σ τ) : Decidable (UsersFirst P a s) :=
  match a with
  | .pool _ => inferInstanceAs (Decidable (_ → _))
  | .stop => inferInstanceAs (Decidable (_ → _))
  | .set _ _ _ => .isTrue trivial
  | .timer _ => .isTrue trivial
  | .spurious => .isTrue trivial
  | .submit _ => .isTrue trivial
  | .stopPool _ => .isTrue trivial

/-- The clocks, `Set` and the timer thread leave the pool alone. -/
theorem timerStep_tasks_ {s' : State σ τ} {now : ℤ} (hs : timerStep P now s = some s') :
    s'.tasks_ = s.tasks_ ∧ s'.stopPc = s.stopPc := by
  unfold timerStep at hs
  split at hs
  case h_2 =>
    cases hs
    simp only [nearestSection]
    split
    · exact ⟨rfl, rfl⟩
    · split <;> exact ⟨rfl, rfl⟩
  case h_6 =>
    cases hs
    simp only [closestSection]
    split
    · exact ⟨rfl, rfl⟩
    · split <;> exact ⟨rfl, rfl⟩
  case h_8 =>
    split at hs
    · cases hs
    · cases hs
      exact ⟨rfl, rfl⟩
  all_goals
    cases hs
    try exact ⟨rfl, rfl⟩

theorem stopStep_tasks_ {s' : State σ τ} (hs : stopStep P s = some s') : s'.tasks_ = s.tasks_ := by
  unfold stopStep at hs
  split at hs
  case h_2 =>
    split at hs
    · cases hs
      rfl
    · cases hs
  case h_4 =>
    split at hs
    · cases hs
      rfl
    · cases hs
  all_goals
    cases hs
    try rfl

/-- The pool of a runtime makes a run of its own. -/
theorem tasks_reachable {C : Action α κ τ → State σ τ → Prop} {D : α → σ → Prop}
    (hC : ∀ a s, (machine P).ReachableVia C s → C a s → Within P D a s)
    (hs : (machine P).ReachableVia C s) : P.machine.ReachableVia D s.tasks_ := by
  induction hs with
  | init hinit =>
    obtain ⟨tasks, ht, rfl⟩ := hinit
    exact .init ht
  | @step s s' a hs hc hst ih =>
    have hw := hC a s hs hc
    cases a with
    | pool a =>
      simp only [machine, step] at hst
      split at hst
      · rename_i hown
        obtain ⟨tasks, ht, rfl⟩ := Option.map_eq_some_iff.mp hst
        exact .step a ih (hw hown) ht
      · cases hst
    | set now delay timer =>
      simp only [machine, step] at hst
      split at hst
      · cases hst
        exact ih
      · cases hst
    | timer now =>
      rw [(timerStep_tasks_ hst).1]
      exact ih
    | spurious =>
      simp only [machine, step] at hst
      split at hst
      · cases hst
        exact ih
      · cases hst
        exact ih
      · cases hst
    | submit k =>
      simp only [machine, step] at hst
      split at hst
      · rename_i timer hpc
        obtain ⟨tasks, ht, rfl⟩ := Option.map_eq_some_iff.mp hst
        exact .step _ ih (hw timer hpc) ht
      · cases hst
    | stop =>
      rw [stopStep_tasks_ hst]
      exact ih
    | stopPool a =>
      simp only [machine, step] at hst
      split at hst
      · rename_i hpc
        obtain ⟨tasks, ht, rfl⟩ := Option.map_eq_some_iff.mp hst
        exact .step a ih (hw hpc.2) ht
      · cases hst

theorem within_true (a : Action α κ τ) (s : State σ τ) : Within P (fun _ _ => True) a s := by
  cases a with
  | pool a => exact fun _ => trivial
  | submit k => exact fun _ _ => trivial
  | stopPool a => exact fun _ => trivial
  | _ => trivial

theorem inv_of_reachable {C : Action α κ τ → State σ τ → Prop}
    (hs : (machine P).ReachableVia C s) : Inv P s := by
  refine hs.invariant_of (I := Inv P) (B := fun s => P.machine.Reachable s.tasks_)
    (tasks_reachable fun a s _ _ => within_true a s) ?_ fun a s s' hB _ h _ hst => h.step hB hst
  rintro s ⟨tasks, ht, rfl⟩
  refine ⟨rfl, P.submitted_init _ ht, fun hb => ?_, by simp [State.start, BlockingQueue.new],
    fun _ => P.started_init _ ht, fun h₁ _ => absurd rfl h₁, (fun he => by cases he),
    fun hret => by cases hret⟩
  have hbusy := P.busy_init _ ht
  rw [show P.busy tasks = true from hb] at hbusy
  cases hbusy

/-- Once `Stop` has begun, no user is inside `Submit`. -/
theorem usersIdle_of_reachable {C : Action α κ τ → State σ τ → Prop}
    (hC : ∀ a s, C a s → UsersFirst P a s) (hs : (machine P).ReachableVia C s)
    (hstop : s.stopPc ≠ .notStarted) : P.usersIdle s.tasks_ = true := by
  revert hstop
  refine hs.invariant_of (I := fun s : State σ τ => s.stopPc ≠ .notStarted → P.usersIdle s.tasks_)
    (B := fun s => P.machine.Reachable s.tasks_) (tasks_reachable fun a s _ _ => within_true a s)
    (fun s hinit => ?_) fun a s s' hreach _ h hc hst hstop => ?_
  · obtain ⟨tasks, -, rfl⟩ := hinit
    exact fun hne => absurd rfl hne
  · have hfirst := hC _ _ hc
    cases a with
    | pool a =>
      simp only [machine, step] at hst
      split at hst
      · obtain ⟨tasks, ht, rfl⟩ := Option.map_eq_some_iff.mp hst
        have huser : P.isUser a = false := Bool.eq_false_iff.mpr fun hu => hstop (hfirst hu)
        exact P.usersIdle_step a _ _ (.inl huser) hreach ht (h hstop)
      · cases hst
    | set now delay timer =>
      simp only [machine, step] at hst
      split at hst
      · cases hst
        exact h hstop
      · cases hst
    | timer now =>
      obtain ⟨htasks, hpc⟩ := timerStep_tasks_ hst
      rw [htasks]
      exact h (hpc ▸ hstop)
    | spurious =>
      simp only [machine, step] at hst
      split at hst
      · cases hst
        exact h hstop
      · cases hst
        exact h hstop
      · cases hst
    | submit k =>
      simp only [machine, step] at hst
      split at hst
      · rename_i timer hpc
        obtain ⟨tasks, ht, rfl⟩ := Option.map_eq_some_iff.mp hst
        exact P.usersIdle_step _ _ _ (.inr ⟨k, timer, rfl⟩) hreach ht (h hstop)
      · cases hst
    | stop =>
      rw [stopStep_tasks_ hst]
      by_cases hns : s.stopPc = .notStarted
      · exact hfirst hns
      · exact h hns
    | stopPool a =>
      simp only [machine, step] at hst
      split at hst
      · rename_i hpc
        obtain ⟨tasks, ht, rfl⟩ := Option.map_eq_some_iff.mp hst
        exact P.usersIdle_step a _ _ (.inl (P.stop_not_user a hpc.2)) hreach ht (h hstop)
      · cases hst

/-- **When `Stop` has returned**, everything submitted and every timer has been
run, if the pool runs everything it was handed before it stopped. -/
theorem ran_eq {C : Action α κ τ → State σ τ → Prop} (hC : ∀ a s, C a s → UsersFirst P a s)
    (hs : (machine P).ReachableVia C s) (hret : s.stopPc = .returned)
    (hpool : P.stopped s.tasks_ = true → P.busy s.tasks_ = false → P.usersIdle s.tasks_ = true →
      P.ran s.tasks_ = P.submitted s.tasks_) : P.ran s.tasks_ = s.accepted + s.set := by
  have h := inv_of_reachable hs
  have hex := h.returned hret
  have hstopped := h.stopped (by rw [hret]; simp) (by rw [hret]; simp)
  have hbusy := h.not_busy (by rw [hex]; simp)
  have husers := usersIdle_of_reachable hC hs (by rw [hret]; simp)
  -- the timer thread has left, so nothing is in its heap or in its hands
  have hset : s.set = s.handed := by
    rw [h.timers, hex, (h.exited hex).2]
    exact zero_add _
  rw [hpool hstopped hbusy husers, h.submitted, hset]

end Runs

end Exe.Runtime
