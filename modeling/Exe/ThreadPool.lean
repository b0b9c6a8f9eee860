/-
`multi_thread::v1::ThreadPool`: workers around one blocking queue.

`Submit` is `tasks_.Push`, one section under the queue's mutex, whoever calls
it. A worker pops until the queue says that it is closed and empty. `Stop`
closes the queue and joins the workers, so what is in the queue when it is
closed is still run, and so is everything running tasks add to it.

# Conventions

* There are `n` workers; a task is a pointer of type `τ`. `Push` from outside the
  pool is one action, and so is `Push` from the body of a running task.
* `notify_one` wakes an arbitrary sleeper, named by the action, if there is one;
  a sleeper may also wake without a reason.
* `pushed` and `taken` are history: the tasks in the order in which they entered
  the queue, and in the order in which they left it to be run.
-/
import Exe.Machine
import Exe.BlockingQueue
import Mathlib.Data.List.FinRange
import Mathlib.Data.Multiset.Basic
import Mathlib.Data.Fintype.Basic

set_option autoImplicit false

namespace Exe.ThreadPool

open Function (update)
open Detail

/-! ## The model -/

/-- Where a worker is: inside `tasks_.Pop()`, in the body of a task, or past its
loop. -/
inductive Worker (τ : Type*)
  | popping (pc : WaitPc)
  | running (cur : τ)
  | exited

def Worker.isAsleep {τ : Type*} : Worker τ → Bool
  | .popping .asleep => true
  | _ => false

def Worker.isExited {τ : Type*} : Worker τ → Bool
  | .exited => true
  | _ => false

def Worker.isRunning {τ : Type*} : Worker τ → Bool
  | .running _ => true
  | _ => false

/-- A sleeper that was notified. -/
def Worker.woken {τ : Type*} : Worker τ → Worker τ
  | .popping pc => .popping pc.woken
  | w => w

/-- Where `Stop` is. -/
inductive StopPc
  | notStarted
  | flag
  | join
  | returned
  deriving DecidableEq

variable {n : ℕ} {τ : Type*}

structure State (n : ℕ) (τ : Type*) where
  tasks_ : BlockingQueue (List τ)
  worker : Fin n → Worker τ
  has_stopped_ : Bool
  stopPc : StopPc
  pushed : List τ
  taken : List τ

/-- The pool right after `Start`. -/
def State.start : State n τ where
  tasks_ := .new []
  worker _ := .popping .enter
  has_stopped_ := false
  stopPc := .notStarted
  pushed := []
  taken := []

/-- `empty_buffer_.notify_one()`: it wakes `choice`. -/
def State.notifyOne (s : State n τ) : Option (Fin n) → Option (State n τ)
  | some w =>
    if (s.worker w).isAsleep then some { s with worker := update s.worker w (s.worker w).woken }
    else none
  | none => if ∃ w, (s.worker w).isAsleep = true then none else some s

/-- `tasks_.Push(task)`. -/
def Submit (task : τ) (choice : Option (Fin n)) (s : State n τ) : Option (State n τ) :=
  let s := { s with
    tasks_ := { s.tasks_ with buffer_ := s.tasks_.buffer_ ++ [task] }
    pushed := s.pushed ++ [task] }
  if 0 < s.tasks_.waiting_ then s.notifyOne choice else some s

/-- A section of `tasks_.Pop()`, and `Run` of what it returns. -/
def popSection (w : Fin n) (pc : WaitPc) (s : State n τ) : State n τ :=
  let q := s.tasks_.enter pc
  if q.mustWait List.isEmpty then
    { s with tasks_ := q, worker := update s.worker w (.popping .asleep) }
  else
    match q.leave.buffer_ with
    | [] => { s with tasks_ := q.leave, worker := update s.worker w .exited }
    | task :: rest =>
      { s with
        tasks_ := { q.leave with buffer_ := rest }
        worker := update s.worker w (.running task)
        taken := s.taken ++ [task] }

/-- `Stop`: `tasks_.Close()`, `has_stopped_ = true`, the joins. -/
def Stop (s : State n τ) : Option (State n τ) :=
  match s.stopPc with
  | .notStarted =>
    some { s with
      tasks_ := { s.tasks_ with is_closed_ := true }
      worker := if 0 < s.tasks_.waiting_ then fun w => (s.worker w).woken else s.worker
      stopPc := .flag }
  | .flag => some { s with has_stopped_ := true, stopPc := .join }
  | .join =>
    if ∀ w, (s.worker w).isExited = true then some { s with stopPc := .returned } else none
  | .returned => none

/-- Who moves, and how. -/
inductive Action (n : ℕ) (τ : Type*)
  | work (w : Fin n)
  | spurious (w : Fin n)
  | bodySubmit (w : Fin n) (task : τ) (choice : Option (Fin n))
  | bodyDone (w : Fin n)
  | submit (task : τ) (choice : Option (Fin n))
  | stop

def step (a : Action n τ) (s : State n τ) : Option (State n τ) :=
  match a with
  | .work w =>
    match s.worker w with
    | .popping .asleep => none
    | .popping pc => some (popSection w pc s)
    | _ => none
  | .spurious w =>
    if (s.worker w).isAsleep then some { s with worker := update s.worker w (.popping .awake) }
    else none
  | .bodySubmit w task choice => if (s.worker w).isRunning then Submit task choice s else none
  | .bodyDone w =>
    if (s.worker w).isRunning then some { s with worker := update s.worker w (.popping .enter) }
    else none
  | .submit task choice => Submit task choice s
  | .stop => Stop s

def machine (n : ℕ) (τ : Type*) : Machine (State n τ) (Action n τ) where
  init s := s = .start
  step := step

/-- The task the action hands to `Submit`. -/
def Action.accepted : Action n τ → List τ
  | .bodySubmit _ task _ => [task]
  | .submit task _ => [task]
  | _ => []

/-! ## What a step can do -/

/-- A sleeper may have been woken, and nothing else happened to the workers. -/
def Notified (s s' : State n τ) : Prop :=
  ∀ w, s'.worker w = s.worker w ∨ s'.worker w = (s.worker w).woken

/-- `Push`, whichever sleeper it wakes. -/
theorem submit_cases {s s' : State n τ} {task : τ} {choice : Option (Fin n)}
    (h : Submit task choice s = some s') :
    Notified s s' ∧ ∃ worker, s' = { s with
      tasks_ := { s.tasks_ with buffer_ := s.tasks_.buffer_ ++ [task] }
      pushed := s.pushed ++ [task]
      worker } := by
  simp only [Submit] at h
  split at h
  · cases choice with
    | some w =>
      simp only [State.notifyOne] at h
      split at h
      · cases h
        refine ⟨fun v => ?_, _, rfl⟩
        by_cases hv : v = w
        · right
          simp [hv]
        · left
          simp [hv]
      · cases h
    | none =>
      simp only [State.notifyOne] at h
      split at h
      · cases h
      · cases h
        exact ⟨fun v => .inl rfl, _, rfl⟩
  · cases h
    exact ⟨fun v => .inl rfl, _, rfl⟩

theorem woken_isExited (w : Worker τ) : w.woken.isExited = w.isExited := by
  cases w <;> rfl

theorem Notified.isExited {s s' : State n τ} (h : Notified s s') (w : Fin n) :
    (s'.worker w).isExited = (s.worker w).isExited := by
  rcases h w with he | he
  · rw [he]
  · rw [he, woken_isExited]

/-- Only `Stop` moves `Stop`, and only `Submit` adds to the tasks. -/
theorem step_frame {s s' : State n τ} {a : Action n τ} (h : step a s = some s') :
    (a = .stop ∨ s'.stopPc = s.stopPc) ∧ s'.pushed = s.pushed ++ a.accepted := by
  have hsubmit : ∀ {task choice}, Submit task choice s = some s' →
      s'.stopPc = s.stopPc ∧ s'.pushed = s.pushed ++ [task] := by
    intro task choice h
    obtain ⟨-, worker, rfl⟩ := submit_cases h
    exact ⟨rfl, rfl⟩
  cases a with
  | work w =>
    simp only [step] at h
    split at h
    · cases h
    · cases h
      simp only [popSection]
      split
      · exact ⟨.inr rfl, (List.append_nil _).symm⟩
      · split <;> exact ⟨.inr rfl, (List.append_nil _).symm⟩
    · cases h
  | spurious w =>
    simp only [step] at h
    split at h
    · cases h
      exact ⟨.inr rfl, (List.append_nil _).symm⟩
    · cases h
  | bodySubmit w task choice =>
    simp only [step] at h
    split at h
    · exact ⟨.inr (hsubmit h).1, (hsubmit h).2⟩
    · cases h
  | bodyDone w =>
    simp only [step] at h
    split at h
    · cases h
      exact ⟨.inr rfl, (List.append_nil _).symm⟩
    · cases h
  | submit task choice => exact ⟨.inr (hsubmit h).1, (hsubmit h).2⟩
  | stop =>
    refine ⟨.inl rfl, ?_⟩
    simp only [step, Stop] at h
    split at h
    · cases h
      exact (List.append_nil _).symm
    · cases h
      exact (List.append_nil _).symm
    · split at h
      · cases h
        exact (List.append_nil _).symm
      · cases h
    · cases h

theorem isExited_of_isAsleep {w : Worker τ} (h : w.isAsleep = true) : w.isExited = false := by
  cases w with
  | popping pc => rfl
  | _ => cases h

theorem isExited_of_isRunning {w : Worker τ} (h : w.isRunning = true) : w.isExited = false := by
  cases w with
  | running cur => rfl
  | _ => cases h

/-! ## Workers leave a closed queue -/

/-- A worker leaves only after `Stop` has closed the queue, and `Stop` returns
after all workers have left. -/
structure Leaving (s : State n τ) : Prop where
  exited : ∀ w, (s.worker w).isExited = true → s.tasks_.is_closed_ = true
  closed : s.tasks_.is_closed_ = true → s.stopPc ≠ .notStarted
  returned : s.stopPc = .returned → ∀ w, (s.worker w).isExited = true

theorem Leaving.submit {s s' : State n τ} {task : τ} {choice : Option (Fin n)} (h : Leaving s)
    (hs : Submit task choice s = some s') : Leaving s' := by
  obtain ⟨hnot, worker, rfl⟩ := submit_cases hs
  refine ⟨fun w hw => ?_, h.closed, fun hret w => ?_⟩
  · rw [hnot.isExited w] at hw
    exact h.exited w hw
  · rw [hnot.isExited w]
    exact h.returned hret w

/-- A worker that is in its loop moves. It leaves only a closed queue. -/
theorem Leaving.setWorker {s t : State n τ} (h : Leaving s) {w : Fin n} {next : Worker τ}
    (hw : (s.worker w).isExited = false) (ht : t.worker = update s.worker w next)
    (hclosed : t.tasks_.is_closed_ = s.tasks_.is_closed_) (hstop : t.stopPc = s.stopPc)
    (hnext : next.isExited = true → s.tasks_.is_closed_ = true) : Leaving t := by
  refine ⟨fun v hv => ?_, fun hc => ?_, fun hret => ?_⟩
  · rw [hclosed]
    rw [ht] at hv
    by_cases hvw : v = w
    · subst hvw
      rw [Function.update_self] at hv
      exact hnext hv
    · rw [Function.update_of_ne hvw] at hv
      exact h.exited v hv
  · rw [hclosed] at hc
    rw [hstop]
    exact h.closed hc
  · rw [hstop] at hret
    have hex := h.returned hret w
    rw [hw] at hex
    cases hex

theorem Leaving.popSection {s : State n τ} {w : Fin n} {pc : WaitPc} (h : Leaving s)
    (hw : s.worker w = .popping pc) : Leaving (popSection w pc s) := by
  have hex : (s.worker w).isExited = false := by rw [hw]; rfl
  obtain ⟨hbuf, hclosed⟩ := s.tasks_.enter_eq pc
  have hleave : (s.tasks_.enter pc).leave.buffer_ = s.tasks_.buffer_ := hbuf
  simp only [ThreadPool.popSection]
  split
  · exact h.setWorker hex rfl hclosed rfl fun he => by cases he
  · rename_i hwait
    split
    · rename_i hnil
      rw [hleave] at hnil
      refine h.setWorker hex rfl hclosed rfl fun _ => ?_
      rw [← hclosed]
      refine BlockingQueue.closed_of_empty hwait ?_
      rw [hbuf, hnil]
      rfl
    · exact h.setWorker hex rfl hclosed rfl fun he => by cases he

theorem Leaving.stop {s s' : State n τ} (h : Leaving s) (hs : Stop s = some s') : Leaving s' := by
  simp only [Stop] at hs
  split at hs
  · cases hs
    exact ⟨fun _ _ => rfl, (fun _ hns => by cases hns), fun hret => by cases hret⟩
  · rename_i hstop
    cases hs
    exact ⟨h.exited, (fun _ hns => by cases hns), fun hret => by cases hret⟩
  · split at hs
    · rename_i hall
      cases hs
      exact ⟨h.exited, (fun _ hns => by cases hns), fun _ => hall⟩
    · cases hs
  · cases hs

theorem Leaving.step {s s' : State n τ} {a : Action n τ} (h : Leaving s)
    (hs : step a s = some s') : Leaving s' := by
  cases a with
  | work w =>
    simp only [ThreadPool.step] at hs
    split at hs
    · cases hs
    · rename_i pc _ hw
      cases hs
      exact h.popSection hw
    · cases hs
  | spurious w =>
    simp only [ThreadPool.step] at hs
    split at hs
    · rename_i hw
      cases hs
      exact h.setWorker (isExited_of_isAsleep hw) rfl rfl rfl fun he => by cases he
    · cases hs
  | bodySubmit w task choice =>
    simp only [ThreadPool.step] at hs
    split at hs
    · exact h.submit hs
    · cases hs
  | bodyDone w =>
    simp only [ThreadPool.step] at hs
    split at hs
    · rename_i hw
      cases hs
      exact h.setWorker (isExited_of_isRunning hw) rfl rfl rfl fun he => by cases he
    · cases hs
  | submit task choice => exact h.submit hs
  | stop => exact h.stop hs

theorem leaving_of_reachable {C : Action n τ → State n τ → Prop} {s : State n τ}
    (hs : (machine n τ).ReachableVia C s) : Leaving s := by
  refine hs.invariant (fun s hinit => ?_) fun _ _ _ h _ hst => h.step hst
  subst hinit
  exact ⟨(fun _ he => by cases he), (fun hc => by cases hc), fun hret => by cases hret⟩

/-! ## The queue is a FIFO, and somebody empties it -/

/-- The invariant: what was pushed and not taken is in the queue, in order, and a
worker is left while there is something in it. -/
structure Inv (s : State n τ) : Prop where
  fifo : s.pushed = s.taken ++ s.tasks_.buffer_
  manned : s.tasks_.buffer_ = [] ∨ ∃ w, (s.worker w).isExited = false

/-- Nobody pushes into the queue after the last worker has left. -/
def InTime (a : Action n τ) (s : State n τ) : Prop :=
  match a with
  | .submit _ _ => ∃ w, (s.worker w).isExited = false
  | _ => True

theorem Inv.submit {s s' : State n τ} {task : τ} {choice : Option (Fin n)} (h : Inv s)
    (hman : ∃ w, (s.worker w).isExited = false) (hs : Submit task choice s = some s') :
    Inv s' := by
  obtain ⟨hnot, worker, rfl⟩ := submit_cases hs
  refine ⟨?_, .inr ?_⟩
  · dsimp only
    rw [h.fifo, List.append_assoc]
  · obtain ⟨w, hw⟩ := hman
    exact ⟨w, (hnot.isExited w).trans hw⟩

/-- A worker moves and stays in its loop. -/
theorem Inv.setWorker {s t : State n τ} {w : Fin n} {next : Worker τ}
    (hnext : next.isExited = false) (ht : t.worker = update s.worker w next)
    (hfifo : t.pushed = t.taken ++ t.tasks_.buffer_) : Inv t :=
  ⟨hfifo, .inr ⟨w, by rw [ht, Function.update_self, hnext]⟩⟩

theorem Inv.popSection {s : State n τ} {w : Fin n} {pc : WaitPc} (h : Inv s) :
    Inv (popSection w pc s) := by
  obtain ⟨hbuf, -⟩ := s.tasks_.enter_eq pc
  have hleave : (s.tasks_.enter pc).leave.buffer_ = s.tasks_.buffer_ := hbuf
  simp only [ThreadPool.popSection]
  split
  · refine Inv.setWorker rfl rfl ?_
    dsimp only
    rw [hbuf]
    exact h.fifo
  · split
    · rename_i hnil
      -- the queue is empty, and this may have been the last worker
      rw [hleave] at hnil
      refine ⟨?_, .inl ?_⟩
      · dsimp only
        rw [hleave]
        exact h.fifo
      · dsimp only
        rw [hleave, hnil]
    · rename_i task rest hcons
      rw [hleave] at hcons
      refine Inv.setWorker rfl rfl ?_
      dsimp only
      rw [h.fifo, hcons, List.append_assoc]
      rfl

theorem Inv.step {s s' : State n τ} {a : Action n τ} (h : Inv s) (hc : InTime a s)
    (hs : step a s = some s') : Inv s' := by
  cases a with
  | work w =>
    simp only [ThreadPool.step] at hs
    split at hs
    · cases hs
    · cases hs
      exact h.popSection
    · cases hs
  | spurious w =>
    simp only [ThreadPool.step] at hs
    split at hs
    · cases hs
      exact Inv.setWorker rfl rfl h.fifo
    · cases hs
  | bodySubmit w task choice =>
    simp only [ThreadPool.step] at hs
    split at hs
    · rename_i hw
      exact h.submit ⟨w, isExited_of_isRunning hw⟩ hs
    · cases hs
  | bodyDone w =>
    simp only [ThreadPool.step] at hs
    split at hs
    · cases hs
      exact Inv.setWorker rfl rfl h.fifo
    · cases hs
  | submit task choice => exact h.submit hc hs
  | stop =>
    simp only [ThreadPool.step, Stop] at hs
    split at hs
    · cases hs
      have hex : ∀ w, ((if 0 < s.tasks_.waiting_ then fun w => (s.worker w).woken
          else s.worker) w).isExited = (s.worker w).isExited := by
        intro w
        split
        · exact woken_isExited _
        · rfl
      refine ⟨h.fifo, h.manned.imp id ?_⟩
      rintro ⟨w, hw⟩
      exact ⟨w, (hex w).trans hw⟩
    · cases hs
      exact ⟨h.fifo, h.manned⟩
    · split at hs
      · cases hs
        exact ⟨h.fifo, h.manned⟩
      · cases hs
    · cases hs

theorem inv_of_reachable {C : Action n τ → State n τ → Prop} {s : State n τ}
    (hC : ∀ a s, C a s → InTime a s) (hs : (machine n τ).ReachableVia C s) : Inv s :=
  hs.invariant (fun _ hinit => by subst hinit; exact ⟨rfl, .inl rfl⟩)
    fun _ _ _ h hc hst => h.step (hC _ _ hc) hst

/-- When `Stop` has returned, everything pushed in time has been taken, in
order. -/
theorem drained {C : Action n τ → State n τ → Prop} {s : State n τ}
    (hC : ∀ a s, C a s → InTime a s) (hs : (machine n τ).ReachableVia C s)
    (hret : s.stopPc = .returned) : s.taken = s.pushed := by
  have h := inv_of_reachable hC hs
  have hnil : s.tasks_.buffer_ = [] := by
    refine h.manned.resolve_right ?_
    rintro ⟨w, hw⟩
    rw [(leaving_of_reachable hs).returned hret w] at hw
    cases hw
  rw [h.fifo, hnil, List.append_nil]

end Exe.ThreadPool
