/-
`GlobalTaskQueue`: the queue the workers of the pool share, access by access.

Each operation is a loop over single accesses to the intrusive list, between `lock` and
`unlock` of the spin lock. `Pool` takes a whole operation as one step; here it is shown that
it may. The sections, each run by itself, are those of a FIFO queue (`implements_fifo`), and
under the spin lock nothing more can be seen of them, however the threads take turns.

# Conventions

* The list is a `List` of tasks. That a task which is pushed is not linked anywhere is what
  the callers promise.
* Callers use `lock_guard` only; a `TryLock` is allowed for here as well.
-/
import Exe.PoolSteps
import Exe.SpinLock

set_option autoImplicit false

namespace Exe.Pool.GlobalTaskQueue

open Thread (Event)
open Thread.SpinLock (Accesses)

variable {τ : Type*} {n : ℕ}

/-! ## The code -/

/-- `size` is that of the span `out_buffer`. -/
inductive Op (τ : Type*)
  | PushOne (task : τ)
  | PushMany (buffer : List τ)
  | TryPopOne
  | Grab (size : ℕ)
  deriving DecidableEq

/-- What an operation has left to do, and for `Grab` what it has got. -/
inductive Section (τ : Type*)
  | pushBack (task : τ)
  | pushMany (buffer : List τ)
  | tryPopFront
  | grab (left : ℕ) (got : List τ)

inductive Answer (τ : Type*)
  | pushed
  | popped (task : Option τ)
  | grabbed (got : List τ)
  deriving DecidableEq

def Op.enter : Op τ → Section τ
  | .PushOne task => .pushBack task
  | .PushMany buffer => .pushMany buffer
  | .TryPopOne => .tryPopFront
  | .Grab size => .grab size []

def Section.access (tasks_ : List τ) : Section τ → List τ × (Section τ ⊕ Answer τ)
  | .pushBack task => (tasks_ ++ [task], .inr .pushed)
  | .pushMany [] => (tasks_, .inr .pushed)
  | .pushMany (task :: rest) => (tasks_ ++ [task], .inl (.pushMany rest))
  | .tryPopFront => (tasks_.tail, .inr (.popped tasks_.head?))
  | .grab 0 got => (tasks_, .inr (.grabbed got))
  | .grab (left + 1) got =>
    match tasks_ with
    | [] => ([], .inr (.grabbed got))
    | item :: rest => (rest, .inl (.grab left (got ++ [item])))

def sections (τ : Type*) : Sections (List τ) (Op τ) (Section τ) (Answer τ) where
  enter := Op.enter
  access k tasks_ := k.access tasks_

/-! ## The queue -/

/-- What the operations of a FIFO queue do. -/
def fifo : Op τ → List τ → List τ × Answer τ
  | .PushOne task, q => (q ++ [task], .pushed)
  | .PushMany buffer, q => (q ++ buffer, .pushed)
  | .TryPopOne, q => (q.tail, .popped q.head?)
  | .Grab size, q => (q.drop size, .grabbed (q.take size))

theorem ends_pushMany (buffer q : List τ) :
    (sections τ).Ends (.pushMany buffer) q (q ++ buffer, .pushed) := by
  induction buffer generalizing q with
  | nil =>
    rw [List.append_nil]
    exact .stop rfl
  | cons task rest ih =>
    have h := ih (q ++ [task])
    rw [List.append_assoc, List.singleton_append] at h
    exact .go rfl h

theorem ends_grab (left : ℕ) (got q : List τ) :
    (sections τ).Ends (.grab left got) q (q.drop left, .grabbed (got ++ q.take left)) := by
  induction left generalizing got q with
  | zero =>
    rw [List.take_zero, List.append_nil]
    exact .stop rfl
  | succ left ih =>
    cases q with
    | nil =>
      rw [List.take_nil, List.append_nil, List.drop_nil]
      exact .stop rfl
    | cons item rest =>
      have h := ih (got ++ [item]) rest
      rw [List.append_assoc, List.singleton_append] at h
      exact .go rfl h

/-- Alone, each section is the operation of the queue. -/
theorem implements_fifo : (sections τ).Implements fifo := by
  intro op q
  cases op with
  | PushOne task => exact .stop rfl
  | PushMany buffer => exact ends_pushMany buffer q
  | TryPopOne => exact .stop rfl
  | Grab size => exact ends_grab size [] q

abbrev State (n : ℕ) (τ : Type*) := Thread.SpinLock.State n (List τ) (Op τ) (Section τ) (Answer τ)

abbrev Action (n : ℕ) (τ : Type*) := Thread.SpinLock.Action n (Op τ)

abbrev machine (n : ℕ) (τ : Type*) : Machine (State n τ) (Action n τ) :=
  Thread.SpinLock.machine n (sections τ) []

/-- The queue whose operations take effect at once. -/
abbrev atomic (n : ℕ) (τ : Type*) :
    Machine (Thread.Atomic.State n (List τ) (Op τ) (Answer τ)) (Thread.Atomic.Action n (Op τ)) :=
  Thread.Atomic.machine n fifo []

/-- **The queue is linearizable.** In every run of any number of threads, access by access, the
calls and their answers are those of a FIFO queue whose operations take effect at one moment
inside each call; with the lock free its contents are those of the list. Two threads are never
inside at a time, and from every state each call that has begun can be brought to its end by
accesses alone. -/
theorem linearizes_to_fifo {h : List (Transition (State n τ) (Action n τ))} {s : State n τ}
    (hr : (machine n τ).Run h s) :
    (∃ h' q, (atomic n τ).Run h' q ∧
      Machine.trace Thread.Atomic.vis h' = Machine.trace Thread.SpinLock.vis h ∧
      (s.locked_ = 0 → q.data = s.data)) ∧
    (∀ t u, (s.pc t).Inside → (s.pc u).Inside → t = u) ∧
    ∀ t, s.pc t ≠ .idle → ∃ as s' op r, Accesses as ∧ (machine n τ).exec as s = some s' ∧
      s'.pc t = .done op r := by
  obtain ⟨h', q, hr', -, htrace, hq⟩ := (Thread.SpinLock.covers implements_fifo []).trace hr
    fun _ _ => trivial
  exact ⟨⟨h', q, hr', htrace, hq.free⟩, hq.lock.one,
    Thread.SpinLock.returns implements_fifo hr.reachable⟩

/-- Thread 1 finds the lock taken, spins, and then grabs what thread 0 has pushed meanwhile. -/
theorem linearizes_to_fifo_spinning : ∃ h q, (atomic 2 ℕ).Run h q ∧
    Machine.trace Thread.Atomic.vis h = [.ret 1 (.Grab 3) (some (.grabbed [5, 6])),
      .ret 0 (.PushMany [5, 6]) (some .pushed), .call 1 (.Grab 3), .call 0 (.PushMany [5, 6])] := by
  obtain ⟨h, s, hr, hp⟩ := Machine.Run.record_any (M := machine 2 ℕ) (.init rfl)
    ([.call 0 (.PushMany [5, 6]) false, .call 1 (.Grab 3) false, .step 0, .step 1, .step 0,
      .step 1, .step 0, .step 0, .step 0, .ret 0] ++ List.replicate 6 (.step 1) ++ [.ret 1])
    (fun h _ => decide (Machine.trace Thread.SpinLock.vis h =
      [.ret 1 (.Grab 3) (some (.grabbed [5, 6])), .ret 0 (.PushMany [5, 6]) (some .pushed),
        .call 1 (.Grab 3), .call 0 (.PushMany [5, 6])]))
    (by decide +kernel)
  obtain ⟨⟨h', q, hr', htrace, -⟩, -, -⟩ := linearizes_to_fifo hr
  exact ⟨h', q, hr', htrace.trans (of_decide_eq_true hp)⟩

/-! ## The steps of the pool -/

section Pool

variable {k capacity : ℕ} {s s' : Pool.State n k τ}

theorem workerStep_global {w : Fin n} (hw : WorkerStep capacity w s s') :
    s'.global_queue_ = s.global_queue_ ∨ ∃ op, s'.global_queue_ = (fifo op s.global_queue_).1 := by
  cases hw with
  | @grabSome scan task rest g hpc hg =>
    refine .inr ⟨.Grab (rest.length + 1), ?_⟩
    rw [hg]
    exact (@List.drop_left _ (task :: rest) g).symm
  | @pushMany caller buffer hpc => exact .inr ⟨.PushMany buffer, rfl⟩
  | @pushGlobal cur task hpc => exact .inr ⟨.PushOne task, rfl⟩
  | shouldWakeNo hpc hsize =>
    rw [notified_eq]
    exact .inl rfl
  | wakeWorker hpc =>
    rw [notified_eq, wakeWorker_frame]
    exact .inl rfl
  | addStopped hpc =>
    left
    unfold Pool.State.addStoppedWorker
    split <;> rfl
  | _ => exact .inl rfl

/-- A step of the pool leaves the global queue alone, or is one operation of it. -/
theorem pool_step {a : Pool.Action n k τ} (hq : Queues capacity s)
    (hst : Pool.step capacity a s = some s') :
    s'.global_queue_ = s.global_queue_ ∨ ∃ op, s'.global_queue_ = (fifo op s.global_queue_).1 := by
  cases step_cases hq hst with
  | work hw => exact workerStep_global hw
  | outsidePush hi => exact .inr ⟨.PushOne _, rfl⟩
  | outsideWake hi =>
    rw [wakeWorker_frame]
    exact .inl rfl
  | stopWake hs =>
    rw [wakeOne_eq]
    exact .inl rfl
  | _ => exact .inl rfl

end Pool

end Exe.Pool.GlobalTaskQueue
