/-
`v1::TimerThread`: one thread that sleeps until the nearest deadline.

`Run` reads the nearest deadline, sleeps, and takes whichever timer is nearest by then.
The two looks at the heap are critical sections of their own with an unlocked sleep in
between, during which timers may be pushed. As `Run` is the only consumer, the timer it
looked at is still there, and what it takes is due no later than that one: never early.
But a sleep is not cut short, and a timer that is pushed meanwhile and is due before its
end is late. And a deadline that is out of the range of the clock comes out as another time
point, at which its timer is submitted.

# Conventions

* Readings of the clock and time points are nanoseconds, deadlines and delays are
  microseconds, all in 64 bits (`Deadline`). Time passes by an action of its own, so a sleep
  may last longer than asked for; the instant at which it ends is an integer.
* The heap compares deadlines as integers, which `Int64` does.
* `Set` may be called by anybody at any time. It reads the clock and pushes in two steps;
  `setting` holds the request in between.
* A section under the mutex of the queue is one step.
* `pushed`, `early` and `submitted` are history: what was pushed, what of it was pushed
  before `Close`, and the timers that were passed to the scheduler, with the deadlines in
  their nodes and the reading of the clock at that moment.
-/
import Exe.Machine
import Exe.BlockingQueue
import Exe.Deadline
import Exe.LeftistHeap

set_option autoImplicit false

namespace Exe.TimerThread

open Detail
open Function (update)

/-! ## The model -/

/-- A call of `Set`, with its reading of the clock. -/
structure Request (τ : Type*) where
  timer : τ
  delay : Timer.Duration
  now : Timer.TimePoint
  deriving DecidableEq

/-- What `Set` writes to `timer->deadline`. -/
def Request.deadline {τ : Type*} (r : Request τ) : Timer.Instant :=
  Timer.deadline r.now r.delay

/-- Where `Run` is: in `NearestDeadLine`, before the clock is read, past its test and
before `sleep_for`, inside `sleep_for` until an instant, in `GetClosestTimer`, before
`Submit`, or past the loop. What it has read of the nearest deadline is a time point. -/
inductive RunPc (τ : Type*)
  | nearest (pc : WaitPc)
  | clock (nearest : Timer.TimePoint)
  | sleepFor (nearest now : Timer.TimePoint)
  | sleeping (nearest : Timer.TimePoint) (until_ : ℤ)
  | closest (pc : WaitPc)
  | submit (timer : Option (τ × ℤ))
  | exited
  deriving DecidableEq

/-- `Run` after a notification. -/
def RunPc.woken {τ : Type*} : RunPc τ → RunPc τ
  | nearest pc => nearest pc.woken
  | closest pc => closest pc.woken
  | pc => pc

/-- `TimerThread::Stop`. -/
inductive StopPc
  | notStarted
  | join
  | returned
  deriving DecidableEq

structure State (ι τ : Type*) where
  timers_ : BlockingQueue (Heap τ)
  clock : Timer.TimePoint
  runPc : RunPc τ
  stopPc : StopPc
  setting : ι → Option (Request τ)
  pushed : Multiset (Request τ)
  early : Multiset (Request τ)
  submitted : List ((τ × ℤ) × Timer.TimePoint)

variable {ι τ : Type*}

/-- Right after `Start`, at any reading of the clock. -/
def State.start (now : Timer.TimePoint) : State ι τ where
  timers_ := .new .nullptr
  clock := now
  runPc := .nearest .enter
  stopPc := .notStarted
  setting _ := none
  pushed := 0
  early := 0
  submitted := []

/-- `timers_.Push(timer)`. -/
def Push (r : Request τ) (s : State ι τ) : State ι τ :=
  { s with
    timers_ := { s.timers_ with buffer_ := s.timers_.buffer_.Push r.timer r.deadline.toInt }
    -- `notify_one` is called only when somebody waits
    runPc := if 0 < s.timers_.waiting_ then s.runPc.woken else s.runPc }

/-- A section of `NearestDeadLine`. -/
def NearestDeadLine (pc : WaitPc) (s : State ι τ) : State ι τ :=
  let q := s.timers_.enter pc
  if q.mustWait Heap.IsEmpty then { s with timers_ := q, runPc := .nearest .asleep }
  else
    match q.leave.buffer_.Top with
    -- closed and empty: `std::nullopt` ends the loop
    | none => { s with timers_ := q.leave, runPc := .exited }
    | some deadline =>
      { s with timers_ := q.leave, runPc := .clock (Timer.time_point (.ofInt deadline)) }

/-- A section of `GetClosestTimer`. The timer is taken with the deadline in its node. -/
def GetClosestTimer (pc : WaitPc) (s : State ι τ) : State ι τ :=
  let q := s.timers_.enter pc
  if q.mustWait Heap.IsEmpty then { s with timers_ := q, runPc := .closest .asleep }
  else
    match q.leave.buffer_.Top, q.leave.buffer_.Pop with
    -- `Top` and `Pop` look at the same root
    | some deadline, some (timer, rest) =>
      { s with
        timers_ := { q.leave with buffer_ := rest }
        runPc := .submit (some (timer, deadline)) }
    | _, _ => { s with timers_ := q.leave, runPc := .submit none }

/-- `sheduler_->Submit`. -/
def Submit (timer : Option (τ × ℤ)) (s : State ι τ) : State ι τ :=
  { s with
    runPc := .nearest .enter
    submitted := (timer.map fun t => (t, s.clock)).toList ++ s.submitted }

/-- A step of `Run`. -/
def Run (s : State ι τ) : Option (State ι τ) :=
  match s.runPc with
  | .nearest .asleep => none
  | .nearest pc => some (NearestDeadLine pc s)
  | .clock nearest =>
    some { s with
      runPc := if s.clock < nearest then .sleepFor nearest s.clock else .closest .enter }
  -- `sleep_for(nearest - now)`, counted from the call
  | .sleepFor nearest now =>
    some { s with runPc := .sleeping nearest (s.clock.toInt + (nearest - now).toInt) }
  | .sleeping _ until_ =>
    if until_ ≤ s.clock.toInt then some { s with runPc := .closest .enter } else none
  | .closest .asleep => none
  | .closest pc => some (GetClosestTimer pc s)
  | .submit timer => some (Submit timer s)
  | .exited => none

def Stop (s : State ι τ) : Option (State ι τ) :=
  match s.stopPc with
  | .notStarted =>
    some { s with
      timers_ := { s.timers_ with is_closed_ := true }
      runPc := if 0 < s.timers_.waiting_ then s.runPc.woken else s.runPc
      stopPc := .join }
  | .join =>
    match s.runPc with
    | .exited => some { s with stopPc := .returned }
    | _ => none
  | .returned => none

/-- Who moves: a caller of `Set` that reads the clock, one that pushes, `Run`, its sleep on
the condition variable, a caller of `Stop`, or the clock. -/
inductive Action (ι τ : Type*)
  | set (i : ι) (delay : Timer.Duration) (timer : τ)
  | push (i : ι)
  | run
  | spurious
  | stop
  | tick (now : Timer.TimePoint)

/-- What was pushed, and whether it was before `Close`. -/
def State.record (r : Request τ) (s : State ι τ) : State ι τ :=
  { s with
    pushed := {r} + s.pushed
    early := if s.timers_.is_closed_ then s.early else {r} + s.early }

def step [DecidableEq ι] (a : Action ι τ) (s : State ι τ) : Option (State ι τ) :=
  match a with
  | .set i delay timer =>
    match s.setting i with
    | none => some { s with setting := update s.setting i (some ⟨timer, delay, s.clock⟩) }
    | some _ => none
  | .push i =>
    match s.setting i with
    | some r => some { (Push r s).record r with setting := update s.setting i none }
    | none => none
  | .run => Run s
  | .spurious =>
    match s.runPc with
    | .nearest .asleep => some { s with runPc := .nearest .awake }
    | .closest .asleep => some { s with runPc := .closest .awake }
    | _ => none
  | .stop => Stop s
  -- the clock is steady
  | .tick now => if s.clock ≤ now then some { s with clock := now } else none

def machine (ι τ : Type*) [DecidableEq ι] : Machine (State ι τ) (Action ι τ) where
  init s := ∃ now, s = .start now
  step := step

/-! ## Ranges -/

/-- The deadline that a request asks for, in microseconds. -/
def Request.due (r : Request τ) : ℤ := r.now.toInt.tdiv 1000 + r.delay.toInt

/-- A deadline is in the range of the clock, in nanoseconds. -/
def InRange (deadline : ℤ) : Prop := -2 ^ 63 ≤ 1000 * deadline ∧ 1000 * deadline < 2 ^ 63

instance (deadline : ℤ) : Decidable (InRange deadline) :=
  inferInstanceAs (Decidable (_ ∧ _))

/-- Nothing overflows: the deadline of every timer is in the range of the clock, and so is the
length of every sleep. -/
def inRange (a : Action ι τ) (s : State ι τ) : Bool :=
  match a with
  | .set _ delay timer => decide (InRange (Request.due ⟨timer, delay, s.clock⟩))
  | .run =>
    match s.runPc with
    | .sleepFor nearest now => decide (nearest.toInt - now.toInt < 2 ^ 63)
    | _ => true
  | _ => true

/-- A timer with the deadline that was asked for. -/
def Request.entry (r : Request τ) : τ × ℤ := (r.timer, r.due)

/-- In range the deadline in the node is the one that was asked for. -/
theorem Request.deadline_of_inRange {r : Request τ} (hr : InRange r.due) :
    r.deadline.toInt = r.due := by
  refine Timer.toInt_deadline_of_range ?_ ?_
  · have h := hr.1
    unfold Request.due at h
    omega
  · have h := hr.2
    unfold Request.due at h
    omega

/-- In range a deadline is the same instant as a time point. -/
theorem InRange.toInt_time_point {deadline : ℤ} (h : InRange deadline) :
    (Timer.time_point (.ofInt deadline)).toInt = 1000 * deadline := by
  obtain ⟨hlow, hhigh⟩ := h
  have hof : (Int64.ofInt deadline).toInt = deadline :=
    Int64.toInt_ofInt_of_le (by omega) (by omega)
  rw [Timer.toInt_time_point_of_range (by omega) (by omega), hof]

/-! ## The invariant -/

/-- The nearest deadline that `Run` has read and acts on. -/
def RunPc.target : RunPc τ → Option Timer.TimePoint
  | .clock n | .sleepFor n _ | .sleeping n _ => some n
  | _ => none

/-- The timer `Run` holds between `GetClosestTimer` and `Submit`. -/
def RunPc.held : RunPc τ → Multiset (τ × ℤ)
  | .submit (some e) => {e}
  | _ => 0

/-- A timer in the heap is due at a time point. -/
def State.DueAt (s : State ι τ) (n : Timer.TimePoint) : Prop :=
  ∃ e ∈ s.timers_.buffer_.entries, 1000 * e.2 = n.toInt

/-- The timers that were passed to the scheduler, without the readings of the clock. -/
def State.handed (s : State ι τ) : Multiset (τ × ℤ) := (s.submitted.map Prod.fst : List _)

/-- What `Run` relies on where it is. -/
def RunOk (s : State ι τ) : Prop :=
  match s.runPc with
  | .nearest _ => True
  | .clock n => s.DueAt n
  | .sleepFor n now => s.DueAt n ∧ now ≤ s.clock ∧ now < n
  | .sleeping n until_ => s.DueAt n ∧ n.toInt ≤ until_
  | .closest pc =>
    pc = .enter ∧ ∃ e ∈ s.timers_.buffer_.entries, 1000 * e.2 ≤ s.clock.toInt
  | .submit timer => ∃ e, timer = some e ∧ 1000 * e.2 ≤ s.clock.toInt
  | .exited => s.timers_.is_closed_ = true ∧ s.early.map Request.entry ≤ s.handed

/-- No timer has been passed on before its deadline. -/
def Timely (s : State ι τ) : Prop := ∀ e ∈ s.submitted, 1000 * e.1.2 ≤ e.2.toInt

structure Inv (s : State ι τ) : Prop where
  ordered : s.timers_.buffer_.Ordered
  setting : ∀ i r, s.setting i = some r → InRange r.due
  range : ∀ e ∈ s.timers_.buffer_.entries, InRange e.2
  balance : s.pushed.map Request.entry =
    s.timers_.buffer_.entries + s.runPc.held + s.handed
  early : s.early ≤ s.pushed
  timely : Timely s
  run : RunOk s

section Inv

variable {s s' : State ι τ}

theorem held_woken (pc : RunPc τ) : pc.woken.held = pc.held := by
  cases pc <;> rfl

theorem target_woken (pc : RunPc τ) : pc.woken.target = pc.target := by
  cases pc <;> rfl

/-- `Run` goes on relying on what it did while timers are pushed, time passes and the queue
is closed, and a notification changes nothing for it. -/
theorem RunOk.grow (h : RunOk s) (hpc : s'.runPc = s.runPc ∨ s'.runPc = s.runPc.woken)
    (hsub : ∀ e ∈ s.timers_.buffer_.entries, e ∈ s'.timers_.buffer_.entries)
    (hclock : s.clock ≤ s'.clock)
    (hexit : s.timers_.is_closed_ = true → s.early.map Request.entry ≤ s.handed →
      s'.timers_.is_closed_ = true ∧ s'.early.map Request.entry ≤ s'.handed) : RunOk s' := by
  have hmem : ∀ {n}, s.DueAt n → s'.DueAt n := by
    rintro n ⟨e, he, hn⟩
    exact ⟨e, hsub e he, hn⟩
  have hclock' := Int64.le_iff_toInt_le.mp hclock
  unfold RunOk at h ⊢
  cases hold : s.runPc with
  | nearest pc =>
    -- a notification may move it within its loop
    have hpc' : ∃ pc', s'.runPc = .nearest pc' := by
      rw [hold] at hpc
      rcases hpc with hpc | hpc
      · exact ⟨pc, hpc⟩
      · cases pc with
        | asleep => exact ⟨.awake, hpc⟩
        | enter => exact ⟨.enter, hpc⟩
        | awake => exact ⟨.awake, hpc⟩
    obtain ⟨pc', hpc'⟩ := hpc'
    rw [hpc']
    trivial
  | clock n =>
    rw [hold] at h hpc
    rw [or_self_iff.mp hpc]
    exact hmem h
  | sleepFor n now =>
    rw [hold] at h hpc
    rw [or_self_iff.mp hpc]
    exact ⟨hmem h.1, Int64.le_trans h.2.1 hclock, h.2.2⟩
  | sleeping n until_ =>
    rw [hold] at h hpc
    rw [or_self_iff.mp hpc]
    exact ⟨hmem h.1, h.2⟩
  | closest pc =>
    rw [hold] at h hpc
    obtain ⟨rfl, e, he, hdue⟩ := h
    rw [or_self_iff.mp hpc]
    exact ⟨rfl, e, hsub e he, hdue.trans hclock'⟩
  | submit timer =>
    rw [hold] at h hpc
    obtain ⟨e, he, hdue⟩ := h
    rw [or_self_iff.mp hpc]
    exact ⟨e, he, hdue.trans hclock'⟩
  | exited =>
    rw [hold] at h hpc
    rw [or_self_iff.mp hpc]
    exact hexit h.1 h.2

/-- In range, what gets into the heap is what was asked for. -/
theorem push_entries (s : State ι τ) {r : Request τ} (hr : InRange r.due) :
    (Push r s).timers_.buffer_.entries = {r.entry} + s.timers_.buffer_.entries := by
  rw [Request.entry, ← Request.deadline_of_inRange hr]
  exact Heap.Push_entries _ _ _

theorem Inv.push (h : Inv s) {r : Request τ} (hr : InRange r.due) :
    Inv ((Push r s).record r) := by
  have hentries := push_entries s hr
  have hpc : (Push r s).runPc = s.runPc ∨ (Push r s).runPc = s.runPc.woken := by
    unfold TimerThread.Push
    dsimp only
    split
    · exact .inr rfl
    · exact .inl rfl
  have hheld : (Push r s).runPc.held = s.runPc.held := by
    rcases hpc with hpc | hpc
    · rw [hpc]
    · rw [hpc, held_woken]
  refine ⟨h.ordered.Push r.timer r.deadline.toInt, h.setting, fun e he => ?_, ?_, ?_, h.timely,
    ?_⟩
  · change e ∈ (Push r s).timers_.buffer_.entries at he
    rw [hentries] at he
    rcases Multiset.mem_add.mp he with he | he
    · rw [Multiset.mem_singleton.mp he]
      exact hr
    · exact h.range e he
  · show ({r} + s.pushed).map Request.entry =
      (Push r s).timers_.buffer_.entries + (Push r s).runPc.held + s.handed
    rw [hentries, hheld, Multiset.map_add, Multiset.map_singleton, h.balance, add_assoc,
      add_assoc, add_assoc]
  · show (if s.timers_.is_closed_ then s.early else {r} + s.early) ≤ {r} + s.pushed
    -- what is pushed after `Close` is not counted as early
    split
    · exact h.early.trans (Multiset.le_add_left _ _)
    · exact Multiset.add_le_add_left h.early
  · refine h.run.grow hpc (fun e he => ?_) (Int64.le_refl _) fun hclosed hearly => ⟨hclosed, ?_⟩
    · show e ∈ (Push r s).timers_.buffer_.entries
      rw [hentries]
      exact Multiset.mem_add.mpr (.inr he)
    · show (if s.timers_.is_closed_ then s.early else {r} + s.early).map Request.entry ≤ s.handed
      rw [hclosed, if_pos rfl]
      exact hearly

/-- `Run` moves on without taking or handing over a timer. -/
theorem Inv.move (h : Inv s) (hbuffer : s'.timers_.buffer_ = s.timers_.buffer_)
    (hsetting : s'.setting = s.setting) (hheld : s'.runPc.held = s.runPc.held)
    (hpushed : s'.pushed = s.pushed) (hearly : s'.early = s.early)
    (hsubmitted : s'.submitted = s.submitted) (hrun : RunOk s') : Inv s' := by
  refine ⟨by rw [hbuffer]; exact h.ordered, by rw [hsetting]; exact h.setting,
    by rw [hbuffer]; exact h.range, ?_, ?_, ?_, hrun⟩
  · rw [hpushed, hbuffer, hheld, State.handed, hsubmitted]
    exact h.balance
  · rw [hearly, hpushed]
    exact h.early
  · rw [Timely, hsubmitted]
    exact h.timely

theorem Inv.nearestDeadLine (h : Inv s) {pc : WaitPc} (hpc : s.runPc = .nearest pc) :
    Inv (NearestDeadLine pc s) := by
  have hheld : s.runPc.held = 0 := by rw [hpc]; rfl
  obtain ⟨hbuffer, hclosed⟩ := s.timers_.enter_eq pc
  simp only [TimerThread.NearestDeadLine]
  split
  · exact h.move hbuffer rfl hheld.symm rfl rfl rfl trivial
  · rename_i hwait
    split
    · -- open and empty would have waited, so the queue is closed and everything was passed on
      rename_i htop
      have hnil : s.timers_.buffer_ = .nullptr := by
        rw [← hbuffer]
        exact Heap.Top_eq_none.mp htop
      have hclosed' : (s.timers_.enter pc).is_closed_ = true := by
        refine BlockingQueue.closed_of_empty hwait ?_
        rw [hbuffer, hnil]
        rfl
      have hall : s.pushed.map Request.entry = s.handed := by
        have hb := h.balance
        rw [hnil, hheld] at hb
        simpa [Heap.entries] using hb
      refine h.move hbuffer rfl hheld.symm rfl rfl rfl ⟨hclosed', ?_⟩
      show s.early.map Request.entry ≤ s.handed
      rw [← hall]
      exact Multiset.map_le_map h.early
    · rename_i d htop
      obtain ⟨e, he, hd⟩ := Heap.exists_of_Top htop
      have hrange : InRange d := by
        rw [← hd]
        refine h.range e ?_
        rw [← hbuffer]
        exact he
      exact h.move hbuffer rfl hheld.symm rfl rfl rfl
        ⟨e, he, by rw [hrange.toInt_time_point, hd]⟩

theorem Inv.getClosestTimer (h : Inv s) {pc : WaitPc} (hpc : s.runPc = .closest pc) :
    Inv (GetClosestTimer pc s) := by
  have hheld : s.runPc.held = 0 := by rw [hpc]; rfl
  have hrun := h.run
  rw [RunOk, hpc] at hrun
  obtain ⟨rfl, e, he, hdue⟩ := hrun
  -- the timer `Run` has looked at is still there, so the section does not wait
  have hne : s.timers_.buffer_ ≠ .nullptr := by
    intro hnil
    rw [hnil] at he
    exact Multiset.notMem_zero _ he
  obtain ⟨d, timer, rest, htop, hpop⟩ := Heap.exists_Top_Pop hne
  have hwait : (s.timers_.enter .enter).mustWait Heap.IsEmpty = false := by
    cases hb : s.timers_.buffer_ with
    | nullptr => exact absurd hb hne
    | node => simp [BlockingQueue.mustWait, BlockingQueue.enter, hb, Heap.IsEmpty]
  have htop' : (s.timers_.enter .enter).leave.buffer_.Top = some d := htop
  have hpop' : (s.timers_.enter .enter).leave.buffer_.Pop = some (timer, rest) := hpop
  have hentries := Heap.Pop_entries htop hpop
  simp only [TimerThread.GetClosestTimer, hwait, htop', hpop', Bool.false_eq_true, if_false]
  refine ⟨h.ordered.Pop hpop, h.setting, fun e he => ?_, ?_, h.early, h.timely, (timer, d),
    rfl, ?_⟩
  · refine h.range e ?_
    rw [hentries]
    exact Multiset.mem_add.mpr (.inr he)
  · show s.pushed.map Request.entry = rest.entries + {(timer, d)} + s.handed
    rw [h.balance, hheld, hentries, add_zero, add_comm rest.entries]
  · -- what was looked at is still there, and the top is due no later
    have hle := h.ordered.Top_le htop e he
    show 1000 * d ≤ s.clock.toInt
    omega

/-- In range a sleep is as long as it is to be. -/
theorem toInt_sleep {n now : Timer.TimePoint} (hlt : now < n)
    (hrange : n.toInt - now.toInt < 2 ^ 63) : (n - now).toInt = n.toInt - now.toInt := by
  have hlt' := Int64.lt_iff_toInt_lt.mp hlt
  rw [Int64.toInt_sub]
  exact Int.bmod_eq_of_le (by omega) (by omega)

theorem Inv.submit (h : Inv s) {timer : Option (τ × ℤ)} (hpc : s.runPc = .submit timer) :
    Inv (Submit timer s) := by
  have hrun := h.run
  rw [RunOk, hpc] at hrun
  obtain ⟨e, rfl, hdue⟩ := hrun
  have hhanded : (Submit (some e) s).handed = {e} + s.handed := rfl
  refine ⟨h.ordered, h.setting, h.range, ?_, h.early, fun e' he' => ?_, trivial⟩
  · rw [hhanded]
    show s.pushed.map Request.entry = s.timers_.buffer_.entries + 0 + _
    have hb := h.balance
    rw [hpc] at hb
    rw [hb, add_zero, add_assoc]
    rfl
  · rcases List.mem_cons.mp he' with rfl | he'
    · exact hdue
    · exact h.timely e' he'

theorem Inv.runStep (h : Inv s)
    (hc : inRange (.run : Action ι τ) s = true) (hs : Run s = some s') : Inv s' := by
  have hrun := h.run
  unfold TimerThread.Run at hs
  unfold RunOk at hrun
  cases hpc : s.runPc with
  | nearest pc =>
    rw [hpc] at hs
    cases pc with
    | asleep => cases hs
    | enter =>
      cases hs
      exact h.nearestDeadLine hpc
    | awake =>
      cases hs
      exact h.nearestDeadLine hpc
  | clock n =>
    rw [hpc] at hs hrun
    cases hs
    by_cases hlt : s.clock < n
    · refine h.move rfl rfl ?_ rfl rfl rfl ?_
      · simp only [hlt, if_true, hpc, RunPc.held]
      · simp only [RunOk, hlt, if_true]
        exact ⟨hrun, Int64.le_refl _, trivial⟩
    -- the deadline has come already, and there is nothing to sleep for
    · refine h.move rfl rfl ?_ rfl rfl rfl ?_
      · simp only [hlt, if_false, hpc, RunPc.held]
      · obtain ⟨e, he, hn⟩ := hrun
        rw [Int64.lt_iff_toInt_lt] at hlt
        simp only [RunOk, Int64.lt_iff_toInt_lt, hlt, if_false]
        exact ⟨trivial, e, he, by omega⟩
  | sleepFor n now =>
    rw [hpc] at hs hrun
    cases hs
    obtain ⟨hdue, hle, hlt⟩ := hrun
    rw [inRange, hpc] at hc
    refine h.move rfl rfl (by rw [hpc]; rfl) rfl rfl rfl ⟨hdue, ?_⟩
    rw [toInt_sleep hlt (of_decide_eq_true hc)]
    have hle' := Int64.le_iff_toInt_le.mp hle
    omega
  | sleeping n until_ =>
    rw [hpc] at hs hrun
    simp only [Option.ite_none_right_eq_some, Option.some.injEq] at hs
    obtain ⟨hover, rfl⟩ := hs
    obtain ⟨⟨e, he, hn⟩, hle⟩ := hrun
    exact h.move rfl rfl (by rw [hpc]; rfl) rfl rfl rfl
      ⟨rfl, e, he, (hn.le.trans hle).trans hover⟩
  | closest pc =>
    rw [hpc] at hs
    cases pc with
    | asleep => cases hs
    | enter =>
      cases hs
      exact h.getClosestTimer hpc
    | awake =>
      cases hs
      exact h.getClosestTimer hpc
  | submit timer =>
    rw [hpc] at hs
    cases hs
    exact h.submit hpc
  | exited =>
    rw [hpc] at hs
    cases hs

theorem Inv.stop (h : Inv s) (hs : Stop s = some s') : Inv s' := by
  unfold TimerThread.Stop at hs
  split at hs
  · cases hs
    have hpc : ∀ pc : RunPc τ, pc = (if 0 < s.timers_.waiting_ then s.runPc.woken else s.runPc) →
        pc = s.runPc ∨ pc = s.runPc.woken := by
      intro pc heq
      split at heq
      · exact .inr heq
      · exact .inl heq
    refine h.move rfl rfl ?_ rfl rfl rfl ?_
    · dsimp only
      split
      · exact held_woken _
      · rfl
    · exact h.run.grow (hpc _ rfl) (fun _ he => he) (Int64.le_refl _) fun _ hearly => ⟨rfl, hearly⟩
  · split at hs
    · cases hs
      exact h.move rfl rfl rfl rfl rfl rfl
        (h.run.grow (.inl rfl) (fun _ he => he) (Int64.le_refl _) fun hc he => ⟨hc, he⟩)
    · cases hs
  · cases hs

/-- The requests under way change, and stay in range. -/
theorem Inv.resetting (h : Inv s) {setting : ι → Option (Request τ)}
    (hset : ∀ i r, setting i = some r → InRange r.due) : Inv { s with setting } :=
  ⟨h.ordered, hset, h.range, h.balance, h.early, h.timely, h.run⟩

theorem Inv.step [DecidableEq ι] {a : Action ι τ} (h : Inv s) (hc : inRange a s = true)
    (hs : step a s = some s') : Inv s' := by
  cases a with
  | set i delay timer =>
    simp only [TimerThread.step] at hs
    split at hs
    · cases hs
      refine h.resetting fun j r hj => ?_
      by_cases hji : j = i
      · rw [hji, Function.update_self] at hj
        cases hj
        exact of_decide_eq_true hc
      · rw [Function.update_of_ne hji] at hj
        exact h.setting j r hj
    · cases hs
  | push i =>
    simp only [TimerThread.step] at hs
    split at hs
    · rename_i r hset
      cases hs
      refine (h.push (h.setting i r hset)).resetting fun j r' hj => ?_
      by_cases hji : j = i
      · rw [hji, Function.update_self] at hj
        cases hj
      · rw [Function.update_of_ne hji] at hj
        exact h.setting j r' hj
    · cases hs
  | run => exact h.runStep hc hs
  | spurious =>
    simp only [TimerThread.step] at hs
    split at hs
    · rename_i hpc
      cases hs
      exact h.move rfl rfl (by rw [hpc]; rfl) rfl rfl rfl trivial
    · rename_i hpc
      have hrun := h.run
      rw [RunOk, hpc] at hrun
      -- `GetClosestTimer` never sleeps
      cases hrun.1
    · cases hs
  | stop => exact h.stop hs
  | tick now =>
    simp only [TimerThread.step, Option.ite_none_right_eq_some, Option.some.injEq] at hs
    obtain ⟨hle, rfl⟩ := hs
    exact h.move rfl rfl rfl rfl rfl rfl
      (h.run.grow (.inl rfl) (fun _ he => he) hle fun hc he => ⟨hc, he⟩)

end Inv

theorem inv_of_reachable [DecidableEq ι] {s : State ι τ}
    (hs : (machine ι τ).ReachableVia (fun a s => inRange a s = true) s) : Inv s := by
  refine hs.invariant (fun s hinit => ?_) fun _ _ _ h hc hst => h.step hc hst
  obtain ⟨now, rfl⟩ := hinit
  exact ⟨trivial, (fun i r hr => by cases hr), (fun e he => absurd he (Multiset.notMem_zero e)),
    rfl, le_refl _, (fun e he => by cases he), trivial⟩

/-- **Every timer once, and never early.** In every run in which nothing overflows, whatever
is pushed while `Run` sleeps, it passes a timer to the scheduler only when the timer's
deadline has come. `GetClosestTimer` neither waits nor returns `nullptr`. No timer is
submitted more often than it was pushed, with the deadline that was asked for, and when `Run`
is past its loop the queue is closed and everything that was pushed before `Close` has been
submitted. -/
theorem never_early_and_once [DecidableEq ι] {s : State ι τ}
    (hs : (machine ι τ).ReachableVia (fun a s => inRange a s = true) s) :
    Timely s ∧
    (∀ pc, s.runPc = .closest pc → pc = .enter ∧ s.timers_.buffer_.IsEmpty = false) ∧
    s.runPc ≠ .submit none ∧
    s.handed ≤ s.pushed.map Request.entry ∧
    (s.runPc = .exited → s.timers_.is_closed_ = true ∧
      s.early.map Request.entry ≤ s.handed) := by
  have h := inv_of_reachable hs
  have hrun := h.run
  unfold RunOk at hrun
  refine ⟨h.timely, fun pc hpc => ?_, fun hpc => ?_, ?_, fun hpc => ?_⟩
  · rw [hpc] at hrun
    obtain ⟨hpc', e, he, -⟩ := hrun
    refine ⟨hpc', ?_⟩
    cases hb : s.timers_.buffer_ with
    | nullptr =>
      rw [hb] at he
      exact absurd he (Multiset.notMem_zero _)
    | node => rfl
  · rw [hpc] at hrun
    obtain ⟨e, heq, -⟩ := hrun
    cases heq
  -- what was submitted is a part of the balance
  · rw [h.balance]
    exact Multiset.le_add_left _ _
  · rw [hpc] at hrun
    exact hrun

/-- A timer that is pushed during the sleep for another one is passed on first, and `Run`
leaves its loop with both submitted. -/
theorem never_early_and_once_pushed : ∃ s : State (Fin 1) ℕ,
    (machine (Fin 1) ℕ).ReachableVia (fun a s => inRange a s = true) s ∧
    s.submitted = [((7, 5), 5200), ((8, 3), 5100)] ∧ s.runPc = .exited ∧ Timely s ∧
    s.timers_.is_closed_ = true ∧ s.early.map Request.entry ≤ s.handed := by
  obtain ⟨s, hs, hp⟩ := Machine.ReachableVia.exec_any (M := machine (Fin 1) ℕ)
    (C := fun a s => inRange a s = true) (s := .start 10) (.init ⟨10, rfl⟩)
    [.set 0 5 7, .push 0, .run, .run, .run, .set 0 3 8, .push 0, .stop, .tick 5100, .run, .run,
      .run, .run, .tick 5200, .run, .run, .run, .run]
    (fun s => decide (s.submitted = [((7, 5), 5200), ((8, 3), 5100)] ∧ s.runPc = .exited))
    (by decide)
  obtain ⟨hsub, hpc⟩ := of_decide_eq_true hp
  have h := never_early_and_once hs
  exact ⟨s, hs, hsub, hpc, h.1, h.2.2.2.2 hpc⟩

/-- A delay of 2^62 microseconds from the reading 5000: in nanoseconds the deadline wraps
around to 5000, and the timer is submitted at once. -/
theorem early_of_overflow : ∃ s : State (Fin 1) ℕ, (machine (Fin 1) ℕ).Reachable s ∧
    s.pushed = {⟨7, 4611686018427387904, 5000⟩} ∧
    s.submitted = [((7, 4611686018427387909), 5000)] ∧ ¬Timely s := by
  obtain ⟨s, hs, hp⟩ := Machine.Reachable.exec_any (M := machine (Fin 1) ℕ) (s := .start 5000)
    (.init ⟨5000, rfl⟩) [.set 0 4611686018427387904 7, .push 0, .run, .run, .run, .run]
    (fun s => decide (s.pushed = {⟨7, 4611686018427387904, 5000⟩} ∧
      s.submitted = [((7, 4611686018427387909), 5000)])) (by decide)
  obtain ⟨hpushed, hsub⟩ := of_decide_eq_true hp
  refine ⟨s, hs, hpushed, hsub, fun htimely => ?_⟩
  rw [Timely, hsub] at htimely
  exact absurd (htimely _ (List.mem_singleton_self _)) (by decide)

/-! ## Sleeping past a deadline -/

/-- `Run` acts on a nearest deadline that it has read. -/
def State.aiming (s : State ι τ) : Bool := s.runPc.target.isSome

/-- While `Run` acts on a nearest deadline, no timer is pushed whose deadline is before it, and
no time passes between the reading of the clock and the call of `sleep_for`. -/
def onTime (a : Action ι τ) (s : State ι τ) : Bool :=
  match a with
  | .push i =>
    match s.runPc.target, s.setting i with
    | some n, some r => decide (n.toInt ≤ 1000 * r.due)
    | _, _ => true
  | .tick now =>
    match s.runPc with
    | .sleepFor _ _ => decide (now = s.clock)
    | _ => true
  | _ => true

/-- Inside `sleep_for`, with no `Set` under way, `Run` sleeps until no later than the
smallest deadline in the heap. -/
def InTime (s : State ι τ) : Prop :=
  ∀ n until_, s.runPc = .sleeping n until_ → (∀ i, s.setting i = none) →
    ∀ e ∈ s.timers_.buffer_.entries, until_ ≤ 1000 * e.2

/-- The nearest deadline is still the nearest one. -/
def StillNearest (n : Timer.TimePoint) (s : State ι τ) : Prop :=
  ∀ e ∈ s.timers_.buffer_.entries, n.toInt ≤ 1000 * e.2

/-- The sleep ends when the deadline that was read comes. -/
def NoSlack (s : State ι τ) : Prop :=
  match s.runPc with
  | .sleepFor _ now => s.clock = now
  | .sleeping n until_ => until_ = n.toInt
  | _ => True

section InTime

variable [DecidableEq ι] {s s' : State ι τ}

omit [DecidableEq ι] in
/-- A notification is nothing to a `Run` that is not asleep on the queue. -/
theorem woken_of_target {pc : RunPc τ} {n : Timer.TimePoint} (h : pc.target = some n) :
    pc.woken = pc := by
  cases pc with
  | nearest _ => cases h
  | closest _ => cases h
  | _ => rfl

omit [DecidableEq ι] in
theorem aim_run {n : Timer.TimePoint} (hrun : RunOk s)
    (hc : inRange (.run : Action ι τ) s = true) (hs : Run s = some s')
    (hn : s'.runPc.target = some n) (haim : s.aiming = true) : s.runPc.target = some n ∧
      (StillNearest n s' ∧ NoSlack s' ↔ StillNearest n s ∧ NoSlack s) := by
  unfold TimerThread.Run at hs
  unfold RunOk at hrun
  cases hpc : s.runPc with
  | clock m =>
    rw [hpc] at hs
    cases hs
    by_cases hlt : s.clock < m
    · simp only [hlt, if_true, RunPc.target, Option.some.injEq] at hn
      subst hn
      refine ⟨rfl, and_congr Iff.rfl ?_⟩
      simp only [NoSlack, hlt, if_true, hpc]
    · simp only [hlt, if_false, RunPc.target] at hn
      cases hn
  -- the sleep ends at `clock + (m - now)`, which is `m` if the clock stood still
  | sleepFor m now =>
    rw [hpc] at hs hrun
    cases hs
    simp only [RunPc.target, Option.some.injEq] at hn
    subst hn
    rw [inRange, hpc] at hc
    refine ⟨rfl, and_congr Iff.rfl ?_⟩
    simp only [NoSlack, hpc, toInt_sleep hrun.2.2 (of_decide_eq_true hc), ← Int64.toInt_inj]
    omega
  | sleeping m until_ =>
    rw [hpc] at hs
    simp only [Option.ite_none_right_eq_some, Option.some.injEq] at hs
    obtain ⟨-, rfl⟩ := hs
    cases hn
  | _ =>
    rw [State.aiming, hpc] at haim
    cases haim

omit [DecidableEq ι] in
theorem aim_push {n : Timer.TimePoint} (hn : s.runPc.target = some n) {r : Request τ}
    (hr : InRange r.due) :
    (Push r s).runPc = s.runPc ∧
      (StillNearest n (Push r s) ↔ n.toInt ≤ 1000 * r.due ∧ StillNearest n s) := by
  constructor
  · unfold TimerThread.Push
    dsimp only
    rw [woken_of_target hn, ite_self]
  · have hentries := push_entries s hr
    unfold StillNearest
    simp only [hentries, Multiset.mem_add, Multiset.mem_singleton, or_imp, forall_and, forall_eq,
      Request.entry]

/-- What one step does to a `Run` that acts on a nearest deadline before and after it. -/
theorem aim_step {a : Action ι τ} {n : Timer.TimePoint} (hinv : Inv s)
    (hc : inRange a s = true) (hs : step a s = some s')
    (hn : s'.runPc.target = some n) (haim : s.aiming = true) :
    s.runPc.target = some n ∧
      (StillNearest n s' ∧ NoSlack s' ↔ onTime a s = true ∧ StillNearest n s ∧ NoSlack s) := by
  obtain ⟨m, hm⟩ := Option.isSome_iff_exists.mp haim
  cases a with
  | set i delay timer =>
    simp only [step] at hs
    split at hs
    · cases hs
      exact ⟨hn, (and_iff_right rfl).symm⟩
    · cases hs
  | push i =>
    simp only [step] at hs
    split at hs
    · rename_i r hset
      cases hs
      obtain ⟨hpc, hstill⟩ := aim_push hm (hinv.setting i r hset)
      change (Push r s).runPc.target = some n at hn
      rw [hpc] at hn
      refine ⟨hn, ?_⟩
      rw [hm, Option.some.injEq] at hn
      subst hn
      -- a push does not touch the clock
      have hslack : NoSlack { (Push r s).record r with setting := update s.setting i none } ↔
          NoSlack s := by
        simp only [NoSlack, State.record, hpc]
        exact Iff.rfl
      simp only [onTime, hm, hset, decide_eq_true_eq]
      rw [hslack, ← and_assoc]
      exact and_congr hstill Iff.rfl
    · cases hs
  | run =>
    obtain ⟨htarget, hiff⟩ := aim_run hinv.run hc hs hn haim
    exact ⟨htarget, hiff.trans (and_iff_right rfl).symm⟩
  | spurious =>
    simp only [step] at hs
    split at hs
    · rename_i hpc
      rw [hpc] at hm
      cases hm
    · rename_i hpc
      rw [hpc] at hm
      cases hm
    · cases hs
  | stop =>
    simp only [step, Stop] at hs
    split at hs
    · cases hs
      dsimp only at hn
      rw [woken_of_target hm, ite_self] at hn
      refine ⟨hn, ?_⟩
      simp only [NoSlack, woken_of_target hm, ite_self, onTime, true_and]
      exact Iff.rfl
    · split at hs
      · cases hs
        exact ⟨hn, (and_iff_right rfl).symm⟩
      · cases hs
    · cases hs
  | tick now =>
    simp only [step, Option.ite_none_right_eq_some, Option.some.injEq] at hs
    obtain ⟨hlater, rfl⟩ := hs
    refine ⟨hn, ?_⟩
    have hrun := hinv.run
    unfold RunOk at hrun
    cases hpc : s.runPc with
    -- the reading is never ahead of the clock, so a tick can only add slack
    | sleepFor k start =>
      rw [hpc] at hrun
      have hle := Int64.le_iff_toInt_le.mp hrun.2.1
      have hle' := Int64.le_iff_toInt_le.mp hlater
      simp only [NoSlack, onTime, hpc, decide_eq_true_eq, ← Int64.toInt_inj]
      constructor
      · rintro ⟨hstill, hslack⟩
        exact ⟨by omega, hstill, by omega⟩
      · rintro ⟨hnow, hstill, hslack⟩
        exact ⟨hstill, by omega⟩
    | _ =>
      simp only [NoSlack, onTime, hpc, true_and]
      exact Iff.rfl

/-- Only `Run` itself begins to act on a deadline. -/
theorem target_step {a : Action ι τ} (ha : a ≠ .run) (hs : step a s = some s') :
    s'.runPc.target = s.runPc.target := by
  cases a with
  | set i delay timer =>
    simp only [step] at hs
    split at hs
    · cases hs
      rfl
    · cases hs
  | push i =>
    simp only [step] at hs
    split at hs
    · cases hs
      simp only [Push]
      split
      · exact target_woken _
      · rfl
    · cases hs
  | run => exact absurd rfl ha
  | spurious =>
    simp only [step] at hs
    split at hs
    · rename_i hpc
      cases hs
      rw [hpc]
      rfl
    · rename_i hpc
      cases hs
      rw [hpc]
      rfl
    · cases hs
  | stop =>
    simp only [step, Stop] at hs
    split at hs
    · cases hs
      dsimp only
      split
      · exact target_woken _
      · rfl
    · split at hs
      · cases hs
        rfl
      · cases hs
    · cases hs
  | tick now =>
    simp only [step, Option.ite_none_right_eq_some, Option.some.injEq] at hs
    rw [← hs.2]

omit [DecidableEq ι] in
/-- What `NearestDeadLine` returns is the smallest deadline in the heap. -/
theorem nearest_begin {n : Timer.TimePoint} {pc : WaitPc} (hinv : Inv s)
    (hn : (NearestDeadLine pc s).runPc.target = some n) :
    StillNearest n (NearestDeadLine pc s) ∧ NoSlack (NearestDeadLine pc s) := by
  have hbuffer := (s.timers_.enter_eq pc).1
  have hbuffer' : (s.timers_.enter pc).leave.buffer_ = s.timers_.buffer_ := hbuffer
  simp only [NearestDeadLine] at hn ⊢
  split at hn
  · cases hn
  · rename_i hwait
    split at hn
    · cases hn
    · rename_i d htop
      simp only [RunPc.target, Option.some.injEq] at hn
      subst hn
      simp only [hwait, Bool.false_eq_true, if_false]
      refine ⟨fun e he => ?_, trivial⟩
      rw [hbuffer'] at he htop
      have hle := hinv.ordered.Top_le htop e he
      obtain ⟨e', he', rfl⟩ := Heap.exists_of_Top htop
      rw [(hinv.range e' he').toInt_time_point]
      omega

/-- `Run` begins to act on a nearest deadline when it has just read it. -/
theorem aim_begin {a : Action ι τ} {n : Timer.TimePoint} (hinv : Inv s)
    (hs : step a s = some s') (hn : s'.runPc.target = some n) (haim : s.aiming = false) :
    onTime a s = true ∧ StillNearest n s' ∧ NoSlack s' := by
  have htarget : s.runPc.target = none := Option.not_isSome_iff_eq_none.mp (by
    rw [← State.aiming, haim]
    decide)
  by_cases ha : a = .run
  · subst ha
    refine ⟨rfl, ?_⟩
    simp only [step, Run] at hs
    cases hpc : s.runPc with
    | nearest pc =>
      rw [hpc] at hs
      cases pc with
      | asleep => cases hs
      | enter =>
        cases hs
        exact nearest_begin hinv hn
      | awake =>
        cases hs
        exact nearest_begin hinv hn
    | closest pc =>
      rw [hpc] at hs
      have hnone : (GetClosestTimer pc s).runPc.target = none := by
        simp only [GetClosestTimer]
        split
        · rfl
        · split <;> rfl
      cases pc with
      | asleep => cases hs
      | enter =>
        cases hs
        rw [hnone] at hn
        cases hn
      | awake =>
        cases hs
        rw [hnone] at hn
        cases hn
    | submit timer =>
      rw [hpc] at hs
      cases hs
      cases hn
    | exited =>
      rw [hpc] at hs
      cases hs
    | _ =>
      rw [hpc] at htarget
      cases htarget
  · rw [target_step ha hs, htarget] at hn
    cases hn

/-- As long as `Run` acts on a nearest deadline, and nothing overflows, this is the nearest one
and nothing delays the sleep if and only if every step since it was read was on time. -/
theorem aiming_iff {h : List (Transition (State ι τ) (Action ι τ))}
    (hr : (machine ι τ).Run h s) (hC : ∀ t ∈ h, inRange t.act t.pre = true)
    {n : Timer.TimePoint} (hn : s.runPc.target = some n) :
    StillNearest n s ∧ NoSlack s ↔
      ∀ t ∈ Machine.since State.aiming h, onTime t.act t.pre = true := by
  induction hr generalizing n with
  | init hinit =>
    obtain ⟨now, rfl⟩ := hinit
    cases hn
  | @step h s s' a hr hs ih =>
    rw [List.forall_mem_cons] at hC
    have hinv := inv_of_reachable (hr.reachableVia hC.2)
    have haim' : s'.aiming = true := by
      rw [State.aiming, hn]
      rfl
    rw [Machine.since_cons_of_pos haim', List.forall_mem_cons]
    cases haim : s.aiming with
    -- the reading has just been made: the window begins here
    | false =>
      obtain ⟨htime, hmin⟩ := aim_begin hinv hs hn haim
      rw [hr.since_eq_nil haim]
      exact ⟨fun _ => ⟨htime, fun t ht => by cases ht⟩, fun _ => hmin⟩
    -- the window goes on, and one more step is judged
    | true =>
      obtain ⟨hn', hiff⟩ := aim_step hinv hC.1 hs hn haim
      rw [hiff, ih hC.2 hn']

/-- **Exactly when a sleep is in time.** In a run in which nothing overflows and that is inside
`sleep_for`, the sleep ends no later than the smallest deadline in the heap if and only if
every step since `Run` read the nearest deadline was on time. -/
theorem sleeping_inTime_iff {h : List (Transition (State ι τ) (Action ι τ))}
    (hr : (machine ι τ).Run h s) (hC : ∀ t ∈ h, inRange t.act t.pre = true)
    {n : Timer.TimePoint} {until_ : ℤ} (hpc : s.runPc = .sleeping n until_) :
    (∀ e ∈ s.timers_.buffer_.entries, until_ ≤ 1000 * e.2) ↔
      ∀ t ∈ Machine.since State.aiming h, onTime t.act t.pre = true := by
  have hrun := (inv_of_reachable (hr.reachableVia hC)).run
  rw [RunOk, hpc] at hrun
  obtain ⟨⟨e, he, hn⟩, hle⟩ := hrun
  rw [← aiming_iff hr hC (n := n) (by rw [hpc]; rfl), StillNearest, NoSlack, hpc]
  constructor
  · intro hall
    -- the timer that was read is in the heap, and no sleep ends before it
    have heq : until_ = n.toInt := by
      have := hall e he
      omega
    exact ⟨fun e' he' => by have := hall e' he'; omega, heq⟩
  · rintro ⟨hall, rfl⟩
    exact hall

/-- **When `TimerThread` does not sleep past a deadline.** In every run in which nothing
overflows and, while `Run` acts on the nearest deadline it has read, no timer is pushed whose
deadline is before it and no time passes before the call of `sleep_for`, a sleep ends no later
than the smallest deadline in the heap; and the deadlines in the heap are those that were
asked for. -/
theorem inTime_of_onTime
    (hs : (machine ι τ).ReachableVia (fun a s => inRange a s = true ∧ onTime a s = true) s) :
    InTime s ∧ s.timers_.buffer_.entries ≤ s.pushed.map Request.entry := by
  obtain ⟨h, hr, hC⟩ := hs.exists_run
  have hinv := inv_of_reachable (hr.reachableVia fun t ht => (hC t ht).1)
  refine ⟨fun n until_ hpc _ => ?_, ?_⟩
  · refine (sleeping_inTime_iff hr (fun t ht => (hC t ht).1) hpc).mpr fun t ht => (hC t ?_).2
    exact (List.takeWhile_sublist _).subset ht
  · rw [hinv.balance, add_assoc]
    exact Multiset.le_add_right _ _

omit [DecidableEq ι] in
/-- How a sleep past a deadline is tested on a state. -/
theorem not_inTime {n : Timer.TimePoint} {until_ : ℤ} (hpc : s.runPc = .sleeping n until_)
    (hidle : ∀ i, s.setting i = none) {e : τ × ℤ} (he : e ∈ s.timers_.buffer_.entries)
    (hlt : 1000 * e.2 < until_) : ¬InTime s := by
  intro h
  have hle := h n until_ hpc hidle e he
  omega

/-- `Run` sleeps for a timer that is due in an hour, and a timer that is due in a
microsecond is pushed. -/
theorem sleeps_past_deadline : ∃ s : State (Fin 1) ℕ, (machine (Fin 1) ℕ).Reachable s ∧
    ¬InTime s := by
  obtain ⟨s, hs, hp⟩ := Machine.Reachable.exec_any (M := machine (Fin 1) ℕ) (s := .start 0)
    (.init ⟨0, rfl⟩)
    [.set 0 3600000000 7, .push 0, .run, .run, .run, .set 0 1 8, .push 0]
    (fun s => decide (s.runPc = .sleeping 3600000000000 3600000000000 ∧
      (∀ i, s.setting i = none) ∧ (8, 1) ∈ s.timers_.buffer_.entries)) (by decide)
  obtain ⟨hpc, hidle, he⟩ := of_decide_eq_true hp
  exact ⟨s, hs, not_inTime hpc hidle he (by decide)⟩

/-- With the timers the other way round the sleep is in time. -/
theorem inTime_of_onTime_later : ∃ s : State (Fin 1) ℕ,
    (machine (Fin 1) ℕ).ReachableVia (fun a s => inRange a s = true ∧ onTime a s = true) s ∧
    s.runPc = .sleeping 1000 1000 ∧ (8, 3600000000) ∈ s.timers_.buffer_.entries ∧ InTime s := by
  obtain ⟨s, hs, hp⟩ := Machine.ReachableVia.exec_any (M := machine (Fin 1) ℕ)
    (C := fun a s => inRange a s = true ∧ onTime a s = true) (s := .start 0) (.init ⟨0, rfl⟩)
    [.set 0 1 7, .push 0, .run, .run, .run, .set 0 3600000000 8, .push 0]
    (fun s => decide (s.runPc = .sleeping 1000 1000 ∧
      (8, 3600000000) ∈ s.timers_.buffer_.entries)) (by decide)
  obtain ⟨hpc, he⟩ := of_decide_eq_true hp
  exact ⟨s, hs, hpc, he, (inTime_of_onTime hs).1⟩

end InTime

end Exe.TimerThread
