/-
`multi_thread::v2`: the work-stealing thread pool, its workers and its
coordinator, one atomic access at a time.

The model covers `ThreadPool::Submit` and `ThreadPool::Stop`, the whole of
`Worker` and the whole of `Coordinator`. A worker is a program counter into the
code of `PickTask`, `Push` and `Work`; the data a function keeps on its stack
while it calls another is kept in the program counter (`Scan`, `Caller`,
`AfterNotify`). The local queues run the methods of `WorkStealingQueue`, access
by access. A section under a spin lock (the global queue's and the
coordinator's methods) is one step.

# Conventions

* There are `n` workers and `m` threads outside the pool. A task is a pointer of
  type `τ`; a running task may submit further tasks and end, and nothing else
  of it is visible here.
* `futex::Wait` compares and sleeps in one step and may return without a reason
  (`Action.spurious`); `WakeOne` wakes the only thread that can be asleep on the
  word, if it is.
* `wakeups_` is a `uint32_t` and `approximate_size_` a `uint64_t`: both wrap.
* `spinning_`, `twister_`, `index_` and `num_threads_` are written and never
  read, and are left out.
* `submitted`, `ran` and `parks` are history: the tasks handed to `Submit`, the
  tasks whose `Run` has begun, and the number of calls of `AddStoppedWorker`.
-/
import Exe.WorkStealingQueue
import Mathlib.Data.List.FinRange
import Mathlib.Data.Multiset.Basic

set_option autoImplicit false

namespace Exe.Pool

open WorkStealingQueue
open Function (update)

/-! ## Constants -/

/-- `task::SchedulingHint`. -/
inductive SchedulingHint
  | UpToYou
  | Next
  | Yield

def kFILOMaxChain : ℕ := 16

/-- `std::max(1ul, kLocalQueueCapacity / 2)`. -/
def kGrabAmount (capacity : ℕ) : ℕ := max 1 (capacity / 2)

/-- `2^32`, the range of `wakeups_`. -/
abbrev u32Mod : ℕ := 2 ^ 32

/-- `2^64`, the range of `approximate_size_`. -/
abbrev u64Mod : ℕ := 2 ^ 64

/-! ## Program counters -/

variable {n m : ℕ} {τ : Type*}

/-- Which search for work `PickTask` is in: the poll of the global queue that
prevents starvation, the `TryGetWork` before the worker links itself into
`stopped_`, or the one after it. -/
inductive Scan
  | starvation
  | first
  | second (expected_wu : ℕ)

/-- Who called `PushToLocalQueue`. `GetFromBuffer` still has to push `rest` and
to return `task`; `Push` was called by the running task `cur`. -/
inductive Caller (τ : Type*)
  | getFromBuffer (scan : Scan) (task : τ) (rest : List τ)
  | push (cur : τ)

/-- Who called `NotifyOnSubmit`. -/
inductive AfterNotify (τ : Type*)
  | offload (k : Caller τ)
  | push (cur : τ)
  | work (next : τ)

/-- Where a worker is: the next atomic access it makes. -/
inductive Pc (n : ℕ) (τ : Type*)
  | pickTask
  | lifo (scan : Scan)
  | pop (scan : Scan) (pc : PopPc τ)
  | grab (scan : Scan)
  | steal (scan : Scan) (victim : Fin n) (rest : List (Fin n)) (pc : GrabPc τ)
  | pushLocal (k : Caller τ) (task : τ) (pc : PushPc)
  | offload (k : Caller τ) (overflow : τ) (pc : GrabPc τ)
  | pushMany (k : Caller τ) (buffer : List τ)
  | shouldWake (k : AfterNotify τ)
  | wakeWorker (k : AfterNotify τ)
  | loadWakeups
  | addStopped (expected_wu : ℕ)
  | unlinkFound (task : τ)
  | checkStop (expected_wu : ℕ)
  | unlinkStopped
  | wait (expected_wu : ℕ)
  | asleep (expected_wu : ℕ)
  | unlinkWoken
  | running (cur : τ)
  | pushGlobal (cur task : τ)
  | returned

/-- The worker's thread has left `Work`. -/
def Pc.isReturned {n : ℕ} {τ : Type*} : Pc n τ → Bool
  | .returned => true
  | _ => false

/-- A thread outside the pool, in or out of `Submit`. -/
inductive Outside (τ : Type*)
  | idle
  | pushOne (task : τ)
  | shouldWake
  | wakeWorker

/-- `ThreadPool::Stop`: it stops `worker`, then the workers of `rest`, then
joins. -/
inductive StopPc (n : ℕ)
  | notStarted
  | flag (worker : Fin n) (rest : List (Fin n))
  | fetchAdd (worker : Fin n) (rest : List (Fin n))
  | wakeOne (worker : Fin n) (rest : List (Fin n))
  | join
  | returned

/-- The pool and everybody around it. -/
structure State (n m : ℕ) (τ : Type*) where
  local_queue_ : Fin n → Queue τ
  lifo_slot_ : Fin n → Option τ
  filo_chain_ : Fin n → ℕ
  iter_ : Fin n → ℕ
  wakeups_ : Fin n → ℕ
  has_stopped_ : Fin n → Bool
  pc : Fin n → Pc n τ
  global_queue_ : List τ
  stopped_ : List (Fin n)
  approximate_size_ : ℕ
  outside : Fin m → Outside τ
  stopPc : StopPc n
  submitted : Multiset τ
  ran : Multiset τ
  parks : ℕ

/-- The pool right after `Start`. -/
def State.start (null : τ) : State n m τ where
  local_queue_ _ := .new null
  lifo_slot_ _ := none
  filo_chain_ _ := 0
  iter_ _ := 0
  wakeups_ _ := 0
  has_stopped_ _ := false
  pc _ := .pickTask
  global_queue_ := []
  stopped_ := []
  approximate_size_ := 0
  outside _ := .idle
  stopPc := .notStarted
  submitted := 0
  ran := 0
  parks := 0

/-! ## Where a function returns to -/

/-- `TryGetWork` (or the poll of the global queue) returns `task`. -/
def found (scan : Scan) (task : τ) : Pc n τ :=
  match scan with
  | .starvation => .shouldWake (.work task)
  | .first => .shouldWake (.work task)
  | .second _ => .unlinkFound task

/-- `TryGetWork` (or the poll of the global queue) returns `nullptr`. -/
def notFound : Scan → Pc n τ
  | .starvation => .lifo .first
  | .first => .loadWakeups
  | .second expected_wu => .checkStop expected_wu

/-- `GetFromBuffer` on a buffer that starts with `task`. -/
def getFromBuffer (scan : Scan) (task : τ) : List τ → Pc n τ
  | [] => found scan task
  | next :: rest => .pushLocal (.getFromBuffer scan task rest) next .loadTail

/-- `PushToLocalQueue` returns. -/
def Caller.resume : Caller τ → Pc n τ
  | .getFromBuffer scan task rest => Pool.getFromBuffer scan task rest
  | .push cur => .shouldWake (.push cur)

/-- `TryStealTasks` goes on to the next victim. -/
def stealFrom (scan : Scan) : List (Fin n) → Pc n τ
  | [] => notFound scan
  | victim :: rest => .steal scan victim rest .loadHead

/-- The other workers, in the order of `workers_`. -/
def victims (w : Fin n) : List (Fin n) := (List.finRange n).filter (· ≠ w)

/-- The poll of the global queue came back empty. -/
def afterGrab (w : Fin n) : Scan → Pc n τ
  | .starvation => notFound .starvation
  | scan => stealFrom scan (victims w)

def State.setPc (s : State n m τ) (w : Fin n) (pc : Pc n τ) : State n m τ :=
  { s with pc := update s.pc w pc }

def State.setQueue (s : State n m τ) (w : Fin n) (q : Queue τ) : State n m τ :=
  { s with local_queue_ := update s.local_queue_ w q }

/-- `NotifyOnSubmit` returns. `Work` goes on to `next->Run()`. -/
def State.notified (s : State n m τ) (w : Fin n) : AfterNotify τ → State n m τ
  | .offload k => s.setPc w k.resume
  | .push cur => s.setPc w (.running cur)
  | .work next => { s with ran := next ::ₘ s.ran }.setPc w (.running next)

/-! ## `Coordinator` -/

/-- The first half of `Worker::Wake`. -/
def State.fetchAddWakeups (s : State n m τ) (w : Fin n) : State n m τ :=
  { s with wakeups_ := update s.wakeups_ w ((s.wakeups_ w + 1) % u32Mod) }

/-- The second half of `Worker::Wake`. -/
def State.wakeOne (s : State n m τ) (w : Fin n) : State n m τ :=
  match s.pc w with
  -- `futex::WakeOne` on a word that nobody sleeps on does nothing
  | .asleep _ => s.setPc w .unlinkWoken
  | _ => s

/-- `WakeWorker`, under the coordinator's lock. -/
def State.wakeWorker (s : State n m τ) : State n m τ :=
  match s.stopped_ with
  | [] => s
  | w :: rest =>
    { s with
      stopped_ := rest
      approximate_size_ := (s.approximate_size_ + (u64Mod - 1)) % u64Mod
      -- `w->Wake()`
      }.fetchAddWakeups w |>.wakeOne w

/-- `AddStoppedWorker`, under the coordinator's lock. -/
def State.addStoppedWorker (s : State n m τ) (w : Fin n) : State n m τ :=
  -- `IsLinked()`
  if w ∈ s.stopped_ then { s with parks := s.parks + 1 }
  else
    { s with
      approximate_size_ := (s.approximate_size_ + 1) % u64Mod
      stopped_ := s.stopped_ ++ [w]
      parks := s.parks + 1 }

/-- `Unlink`, under the coordinator's lock. -/
def State.unlink (s : State n m τ) (w : Fin n) : State n m τ :=
  { s with stopped_ := s.stopped_.erase w }

/-! ## `Worker` -/

/-- The next access of worker `w` outside the body of a task. `weak` makes a
`compare_exchange_weak` fail spuriously. -/
def workerStep (capacity : ℕ) (w : Fin n) (weak : Bool) (s : State n m τ) :
    Option (State n m τ) :=
  match s.pc w with
  | .pickTask =>
    let iter := (s.iter_ w + 1) % sizeMod
    some ({ s with iter_ := update s.iter_ w iter }.setPc w
      (if iter % 61 = 0 then .grab .starvation else .lifo .first))
  -- `TryGetWork`: at the limit of the chain the slot is not looked at
  | .lifo scan =>
    match (if s.filo_chain_ w < kFILOMaxChain then s.lifo_slot_ w else none) with
    | some task =>
      some ({ s with
        lifo_slot_ := update s.lifo_slot_ w none
        filo_chain_ := update s.filo_chain_ w (s.filo_chain_ w + 1) }.setPc w (found scan task))
    | none =>
      some ({ s with filo_chain_ := update s.filo_chain_ w 0 }.setPc w (.pop scan .loadHead))
  | .pop scan pc =>
    match TryPop capacity weak (s.local_queue_ w) pc with
    | (q, .goto pc') => some ((s.setQueue w q).setPc w (.pop scan pc'))
    | (q, .ret (some task)) => some ((s.setQueue w q).setPc w (found scan task))
    | (q, .ret none) => some ((s.setQueue w q).setPc w (.grab scan))
  | .grab scan =>
    match s.global_queue_.take (kGrabAmount capacity) with
    | [] => some (s.setPc w (afterGrab w scan))
    | task :: rest =>
      some ({ s with global_queue_ := s.global_queue_.drop (kGrabAmount capacity) }.setPc w
        (getFromBuffer scan task rest))
  -- the first victim that has something ends the stealing
  | .steal scan victim rest pc =>
    match Grab capacity (kGrabAmount capacity) weak (s.local_queue_ victim) pc with
    | (q, .goto pc') => some ((s.setQueue victim q).setPc w (.steal scan victim rest pc'))
    | (q, .ret []) => some ((s.setQueue victim q).setPc w (stealFrom scan rest))
    | (q, .ret (task :: buf)) =>
      some ((s.setQueue victim q).setPc w (getFromBuffer scan task buf))
  | .pushLocal k task pc =>
    match TryPush capacity task (s.local_queue_ w) pc with
    | (q, .goto pc') => some ((s.setQueue w q).setPc w (.pushLocal k task pc'))
    | (q, .ret true) => some ((s.setQueue w q).setPc w k.resume)
    -- the queue is full
    | (q, .ret false) => some ((s.setQueue w q).setPc w (.offload k task .loadHead))
  | .offload k overflow pc =>
    match Grab capacity (kGrabAmount capacity - 1) weak (s.local_queue_ w) pc with
    | (q, .goto pc') => some ((s.setQueue w q).setPc w (.offload k overflow pc'))
    | (q, .ret buf) => some ((s.setQueue w q).setPc w (.pushMany k (buf ++ [overflow])))
  | .pushMany k buffer =>
    some ({ s with global_queue_ := s.global_queue_ ++ buffer }.setPc w
      (.shouldWake (.offload k)))
  | .shouldWake k =>
    if 0 < s.approximate_size_ then some (s.setPc w (.wakeWorker k))
    else some (s.notified w k)
  | .wakeWorker k => some (s.wakeWorker.notified w k)
  | .loadWakeups => some (s.setPc w (.addStopped (s.wakeups_ w)))
  -- linked, with the key of its sleep in hand, the worker searches again
  | .addStopped e => some ((s.addStoppedWorker w).setPc w (.lifo (.second e)))
  | .unlinkFound task => some ((s.unlink w).setPc w (.shouldWake (.work task)))
  | .checkStop e =>
    if s.has_stopped_ w then some (s.setPc w .unlinkStopped) else some (s.setPc w (.wait e))
  | .unlinkStopped => some ((s.unlink w).setPc w .returned)
  | .wait e =>
    if s.wakeups_ w = e then some (s.setPc w (.asleep e)) else some (s.setPc w .unlinkWoken)
  | .asleep _ => none
  | .unlinkWoken => some ((s.unlink w).setPc w (.lifo .first))
  | .running _ => none
  | .pushGlobal cur task =>
    some ({ s with global_queue_ := s.global_queue_ ++ [task] }.setPc w
      (.shouldWake (.push cur)))
  | .returned => none

/-- The task running on `w` calls `Submit`, which is `Worker::Push`. -/
def bodySubmit (w : Fin n) (task : τ) (hint : SchedulingHint) (s : State n m τ) :
    Option (State n m τ) :=
  match s.pc w with
  | .running cur =>
    let s := { s with submitted := task ::ₘ s.submitted }
    match hint with
    | .UpToYou => some (s.setPc w (.pushLocal (.push cur) task .loadTail))
    | .Next =>
      let s' := { s with lifo_slot_ := update s.lifo_slot_ w (some task) }
      match s.lifo_slot_ w with
      | none => some (s'.setPc w (.shouldWake (.push cur)))
      -- the task that was in the slot goes to the local queue
      | some old => some (s'.setPc w (.pushLocal (.push cur) old .loadTail))
    | .Yield => some (s.setPc w (.pushGlobal cur task))
  | _ => none

/-- The task running on `w` ends. -/
def bodyDone (w : Fin n) (s : State n m τ) : Option (State n m τ) :=
  match s.pc w with
  | .running _ => some (s.setPc w .pickTask)
  | _ => none

/-- `futex::Wait` of worker `w` returns without a reason. -/
def spurious (w : Fin n) (s : State n m τ) : Option (State n m τ) :=
  match s.pc w with
  | .asleep _ => some (s.setPc w .unlinkWoken)
  | _ => none

/-! ## `ThreadPool` -/

/-- Outside thread `i` calls `Submit`. -/
def submit (i : Fin m) (task : τ) (s : State n m τ) : Option (State n m τ) :=
  match s.outside i with
  | .idle =>
    some { s with
      submitted := task ::ₘ s.submitted
      outside := update s.outside i (.pushOne task) }
  | _ => none

/-- The next access of outside thread `i`, inside `Submit`. -/
def outsideStep (i : Fin m) (s : State n m τ) : Option (State n m τ) :=
  match s.outside i with
  | .idle => none
  | .pushOne task =>
    some { s with
      global_queue_ := s.global_queue_ ++ [task]
      outside := update s.outside i .shouldWake }
  | .shouldWake =>
    some { s with
      outside := update s.outside i (if 0 < s.approximate_size_ then .wakeWorker else .idle) }
  | .wakeWorker =>
    some { s.wakeWorker with outside := update s.outside i .idle }

/-- The loop of `Stop` over the workers. -/
def stopNext : List (Fin n) → StopPc n
  | [] => .join
  | w :: rest => .flag w rest

/-- The next access of `Stop`. -/
def stopStep (s : State n m τ) : Option (State n m τ) :=
  match s.stopPc with
  | .notStarted => some { s with stopPc := stopNext (List.finRange n) }
  | .flag w rest =>
    some { s with has_stopped_ := update s.has_stopped_ w true, stopPc := .fetchAdd w rest }
  -- `Wake`, without unlinking the worker
  | .fetchAdd w rest => some { s.fetchAddWakeups w with stopPc := .wakeOne w rest }
  | .wakeOne w rest => some { s.wakeOne w with stopPc := stopNext rest }
  | .join =>
    if ∀ w, (s.pc w).isReturned = true then some { s with stopPc := .returned } else none
  | .returned => none

/-- Who moves, and how. -/
inductive Action (n m : ℕ) (τ : Type*)
  | work (w : Fin n) (weak : Bool)
  | spurious (w : Fin n)
  | bodySubmit (w : Fin n) (task : τ) (hint : SchedulingHint)
  | bodyDone (w : Fin n)
  | submit (i : Fin m) (task : τ)
  | outside (i : Fin m)
  | stop

def step (capacity : ℕ) : Action n m τ → State n m τ → Option (State n m τ)
  | .work w weak => workerStep capacity w weak
  | .spurious w => spurious w
  | .bodySubmit w task hint => bodySubmit w task hint
  | .bodyDone w => bodyDone w
  | .submit i task => submit i task
  | .outside i => outsideStep i
  | .stop => stopStep

/-- A pool of `n` workers with local queues of `capacity` cells, started, and `m`
threads outside it. -/
def machine (n m : ℕ) (τ : Type*) (capacity : ℕ) : Machine (State n m τ) (Action n m τ) where
  init s := ∃ null, s = .start null
  step := step capacity

end Exe.Pool
