/-
The fiber core: who holds a fiber, from `Spawn` to its end.

A fiber that suspends switches back to `Fiber::Resume` on the worker that ran it, which
then calls the suspend callback with the fiber's handle. The callback passes the handle
on: to the scheduler (`Yield`), to a timer (`SleepFor`), or to the wait list of a
primitive. From there whoever wakes the fiber takes the handle, releases it and submits
the fiber as a task.

Between the switch and its resumption a fiber runs no code, but its callback, the node in
the wait list and the timer live on its stack. Here a node and a timer are named by the
fiber on whose stack they are.

# Conventions

* There are `n` workers and `m` primitives. A fiber is the number of its `new`.
* What the scheduler and the timer service do is left open, but for that they run what
  they were given once: `tasks` and `timers` are bags.
* What a fiber does between two calls is any sequence of the calls. The values that go
  through a channel are left out (they are in `BufferedChannel` and
  `RendezvousChannel`); how many there are is not.
* `pc` is the top of a fiber's stack: what it does next when it runs.
* `fault` is set by a failed assertion (`Release` of an invalid handle, a call of an empty
  callback) and by a null dereference, and nothing happens afterwards.
-/
import Exe.Machine
import Exe.FiniteSums
import Exe.BufferedChannel
import Mathlib.Data.Multiset.Count

set_option autoImplicit false

namespace Exe.Fiber.Core

open Function (update)
open BufferedChannel (States Role)

/-! ## The primitives -/

/-- What a primitive keeps besides its spin lock and its wait list. -/
inductive Data
  | mutex (is_locked_ : Bool)
  | waitGroup (count_ : ℕ)
  | buffered (capacity size : ℕ) (state_ : States)
  | rendezvous (state_ : States)
  deriving DecidableEq

/-- The calls that work under the spin lock. -/
inductive Call
  | Lock
  | TryLock
  | Unlock
  | Add (count : ℕ)
  | Done
  | Wait
  | Send
  | Receive
  deriving DecidableEq

/-- How a section goes on: it returns, switches away to park (behind the waiters of its
role, in a channel), wakes one or all, or serves the front waiter of a channel. -/
inductive Verdict
  | leave
  | park (role : Option Role)
  | wakeOne
  | wakeAll
  | serve
  deriving DecidableEq

/-- `size_t` counts modulo this. -/
def sizeMod : ℕ := 2 ^ 64

/-- The body of a section. It is `none` if the primitive has no such call. -/
def Data.enter : Data → Call → Option (Data × Verdict)
  | .mutex is_locked_, .Lock => some (.mutex true, if is_locked_ then .park none else .leave)
  | .mutex _, .TryLock => some (.mutex true, .leave)
  | .mutex _, .Unlock => some (.mutex false, .wakeOne)
  | .waitGroup count_, .Add count => some (.waitGroup ((count_ + count) % sizeMod), .leave)
  | .waitGroup count_, .Done =>
    let count_ := (count_ + (sizeMod - 1)) % sizeMod
    some (.waitGroup count_, if count_ = 0 then .wakeAll else .leave)
  | .waitGroup count_, .Wait =>
    some (.waitGroup count_, if count_ ≠ 0 then .park none else .leave)
  | .buffered capacity size state_, .Send =>
    match state_ with
    | .Receivers => some (.buffered capacity size state_, .serve)
    | _ =>
      if size = capacity then some (.buffered capacity size state_, .park (some .sender))
      else some (.buffered capacity (size + 1) state_, .leave)
  | .buffered capacity size state_, .Receive =>
    if size = 0 then some (.buffered capacity size state_, .park (some .receiver))
    else
      match state_ with
      | .Senders => some (.buffered capacity size state_, .serve)
      | _ => some (.buffered capacity (size - 1) state_, .leave)
  | .rendezvous state_, .Send =>
    match state_ with
    | .Receivers => some (.rendezvous state_, .serve)
    | _ => some (.rendezvous state_, .park (some .sender))
  | .rendezvous state_, .Receive =>
    match state_ with
    | .Senders => some (.rendezvous state_, .serve)
    | _ => some (.rendezvous state_, .park (some .receiver))
  | _, _ => none

/-- `state_`, of a channel. -/
def Data.state_ : Data → Option States
  | .buffered _ _ state_ => some state_
  | .rendezvous state_ => some state_
  | _ => none

def Data.setState : Data → States → Data
  | .buffered capacity size _, state_ => .buffered capacity size state_
  | .rendezvous _, state_ => .rendezvous state_
  | data, _ => data

structure Primitive where
  data : Data
  spin_ : Bool
  waiters : List ℕ

/-- A node is linked behind the others. -/
def Primitive.push (p : Primitive) (node : ℕ) (role : Option Role) : Primitive :=
  { p with
    data := match role with
      | some role => p.data.setState role.states
      | none => p.data
    waiters := p.waiters ++ [node] }

/-- The front node has been popped, and `if (waiters_.IsEmpty()) { state_ = Nobody; }`. The
wait lists of `WaitQueue` have no `state_`. -/
def Primitive.popped (p : Primitive) (rest : List ℕ) : Primitive :=
  { p with
    data := if rest.isEmpty then p.data.setState .Nobody else p.data
    waiters := rest }

/-! ## Fibers and workers -/

/-- What a fiber does next: user code; `Submit` of a fiber that it has just released; the
lock, the body and the wake-ups of a section; the lock after `Suspend`; the unlock. -/
inductive Pc (m : ℕ)
  | user
  | submit (fiber : ℕ) (next : Pc m)
  | lock (p : Fin m) (call : Call)
  | body (p : Fin m) (call : Call)
  | wakeAll (p : Fin m)
  | relock (p : Fin m) (call : Call)
  | unlock (p : Fin m)
  deriving DecidableEq

/-- The suspend callbacks: of `Yield`, `SleepFor`, and `Park` and the channels. -/
inductive Callback (m : ℕ)
  | yield
  | sleepFor
  | park (p : Fin m) (role : Option Role)
  deriving DecidableEq

/-- What a worker is doing: running a fiber; back in `Fiber::Resume` after the fiber has
returned, or after it has suspended; inside the callback with the handle; about to submit
the fiber, or to set its timer; at the end of a parking callback. -/
inductive Worker (m : ℕ)
  | idle
  | running (fiber : ℕ)
  | returned (fiber : ℕ)
  | suspended (fiber : ℕ)
  | callback (fiber : ℕ) (cb : Callback m)
  | submit (fiber : ℕ)
  | set (timer : ℕ)
  | unlock (p : Fin m)
  deriving DecidableEq

/-- What the scheduler runs: a fiber, or the timer on a fiber's stack. -/
inductive Task
  | fiber (fiber : ℕ)
  | timer (timer : ℕ)
  deriving DecidableEq

variable {n m : ℕ}

structure State (n m : ℕ) where
  size : ℕ
  live : ℕ → Bool
  pc : ℕ → Pc m
  cb_ : ℕ → Option (Callback m)
  /-- `handle_` of the node on the fiber's stack. -/
  node : ℕ → Option ℕ
  /-- `task` of the timer on the fiber's stack. -/
  timer : ℕ → Option ℕ
  worker : Fin n → Worker m
  primitive : Fin m → Primitive
  tasks : Multiset Task
  timers : Multiset ℕ
  /-- Fibers that somebody outside is about to submit for the first time. -/
  spawned : Multiset ℕ
  fault : Bool

/-- No fiber yet, and the primitives as they are constructed. -/
def State.new (data : Fin m → Data) : State n m where
  size := 0
  live _ := false
  pc _ := .user
  cb_ _ := none
  node _ := none
  timer _ := none
  worker _ := .idle
  primitive p := ⟨data p, false, []⟩
  tasks := 0
  timers := 0
  spawned := 0
  fault := false

/-- The values the constructors give. -/
def Data.IsNew : Data → Prop
  | .mutex is_locked_ => is_locked_ = false
  | .waitGroup count_ => count_ = 0
  | .buffered _ size state_ => size = 0 ∧ state_ = .Nobody
  | .rendezvous state_ => state_ = .Nobody

def State.crash (s : State n m) : State n m := { s with fault := true }

def State.setPc (s : State n m) (f : ℕ) (pc : Pc m) : State n m :=
  { s with pc := update s.pc f pc }

def State.setWorker (s : State n m) (w : Fin n) (worker : Worker m) : State n m :=
  { s with worker := update s.worker w worker }

def State.setPrimitive (s : State n m) (p : Fin m) (x : Primitive) : State n m :=
  { s with primitive := update s.primitive p x }

/-- `new Fiber`. -/
def State.newFiber (s : State n m) : State n m :=
  { s with
    size := s.size + 1
    live := update s.live s.size true
    pc := update s.pc s.size .user
    cb_ := update s.cb_ s.size none }

/-- `Suspend(cb)`: the switch back to `Fiber::Resume`. -/
def State.suspend (s : State n m) (w : Fin n) (f : ℕ) (cb : Callback m) (next : Pc m) :
    State n m :=
  ({ s with cb_ := update s.cb_ f (some cb) }.setPc f next).setWorker w (.suspended f)

/-- `PopFrontNonEmpty()->GetHandle().Schedule()` up to `Submit`, which follows: the node is
unlinked and its handle released. -/
def State.popFront (s : State n m) (f : ℕ) (p : Fin m) (next : Pc m) : State n m :=
  match (s.primitive p).waiters with
  | [] => s.crash
  | x :: rest =>
    match s.node x with
    | none => s.crash
    | some g =>
      ({ s with node := update s.node x none }.setPrimitive p
        ((s.primitive p).popped rest)).setPc f (.submit g next)

/-- A call from user code. -/
inductive UserCall (m : ℕ)
  | go
  | yield
  | sleepFor
  | call (p : Fin m) (call : Call)
  | finish

/-- A primitive is called for what it has. -/
def UserCall.isTyped (s : State n m) : UserCall m → Bool
  | call p c => ((s.primitive p).data.enter c).isSome
  | _ => true

def userStep (w : Fin n) (f : ℕ) (s : State n m) : UserCall m → State n m
  | .go => s.newFiber.setPc f (.submit s.size .user)
  | .yield => s.suspend w f .yield .user
  | .sleepFor => { s with timer := update s.timer f none }.suspend w f .sleepFor .user
  | .call p call => s.setPc f (.lock p call)
  | .finish => s.setWorker w (.returned f)

/-- The body of the section of fiber `f`, which runs on `w`. -/
def bodyStep (w : Fin n) (f : ℕ) (p : Fin m) (call : Call) (s : State n m) : Option (State n m) :=
  match (s.primitive p).data.enter call with
  | none => none
  | some (data, verdict) =>
    let s := s.setPrimitive p { s.primitive p with data }
    match verdict with
    | .leave => some (s.setPc f (.unlock p))
    | .park role => some (s.suspend w f (.park p role) (.relock p call))
    | .wakeOne =>
      if (s.primitive p).waiters.isEmpty then some (s.setPc f (.unlock p))
      else some (s.popFront f p (.unlock p))
    | .wakeAll => some (s.setPc f (.wakeAll p))
    | .serve => some (s.popFront f p (.unlock p))

/-- A step of fiber `f`, which runs on `w`, inside a call. -/
def fiberStep (w : Fin n) (f : ℕ) (s : State n m) : Option (State n m) :=
  match s.pc f with
  | .user => none
  | .submit g next => some ({ s with tasks := {Task.fiber g} + s.tasks }.setPc f next)
  | .lock p call =>
    if (s.primitive p).spin_ then none
    else some ((s.setPrimitive p { s.primitive p with spin_ := true }).setPc f (.body p call))
  | .body p call => bodyStep w f p call s
  | .wakeAll p =>
    if (s.primitive p).waiters.isEmpty then some (s.setPc f (.unlock p))
    else some (s.popFront f p (.wakeAll p))
  | .relock p call =>
    if (s.primitive p).spin_ then none
    else
      -- only `Mutex::Lock` has a loop
      some ((s.setPrimitive p { s.primitive p with spin_ := true }).setPc f
        (if call = .Lock then .body p call else .unlock p))
  | .unlock p => some ((s.setPrimitive p { s.primitive p with spin_ := false }).setPc f .user)

/-- A step of the callback. -/
def callbackStep (w : Fin n) (f : ℕ) (s : State n m) : Callback m → State n m
  | .yield => s.setWorker w (.submit f)
  | .sleepFor => { s with timer := update s.timer f (some f) }.setWorker w (.set f)
  | .park p role =>
    ({ s with node := update s.node f (some f) }.setPrimitive p
      ((s.primitive p).push f role)).setWorker w (.unlock p)

/-- A step of worker `w` that leaves nothing open. -/
def workerStep (w : Fin n) (s : State n m) : Option (State n m) :=
  match s.worker w with
  | .idle => none
  | .running f => fiberStep w f s
  | .returned f => some ({ s with live := update s.live f false }.setWorker w .idle)
  | .suspended f =>
    match s.cb_ f with
    | none => some s.crash
    | some cb => some (s.setWorker w (.callback f cb))
  | .callback f cb => some (callbackStep w f s cb)
  | .submit f => some ({ s with tasks := {Task.fiber f} + s.tasks }.setWorker w .idle)
  | .set f => some ({ s with timers := {f} + s.timers }.setWorker w .idle)
  | .unlock p =>
    some ((s.setPrimitive p { s.primitive p with spin_ := false }).setWorker w .idle)

/-- An idle worker runs a task. -/
def runTask (w : Fin n) (s : State n m) : Task → State n m
  | .fiber f => s.setWorker w (.running f)
  | .timer x =>
    match s.timer x with
    | none => s.crash
    | some f => { s with timer := update s.timer x none }.setWorker w (.running f)

/-- Who moves, and how. -/
inductive Action (n m : ℕ)
  | spawn
  | submit (f : ℕ)
  | run (w : Fin n) (task : Task)
  | fire (timer : ℕ)
  | user (w : Fin n) (call : UserCall m)
  | work (w : Fin n)

def step (a : Action n m) (s : State n m) : Option (State n m) :=
  if s.fault then none
  else
    match a with
    | .spawn => some { s.newFiber with spawned := {s.size} + s.spawned }
    | .submit f =>
      if f ∈ s.spawned then
        some { s with spawned := s.spawned.erase f, tasks := {.fiber f} + s.tasks }
      else none
    | .run w task =>
      if s.worker w = .idle ∧ task ∈ s.tasks then
        some (runTask w { s with tasks := s.tasks.erase task } task)
      else none
    | .fire timer =>
      if timer ∈ s.timers then
        some { s with timers := s.timers.erase timer, tasks := {.timer timer} + s.tasks }
      else none
    | .user w call =>
      match s.worker w with
      | .running f =>
        if s.pc f = .user ∧ call.isTyped s = true then some (userStep w f s call) else none
      | _ => none
    | .work w => workerStep w s

def machine (n m : ℕ) : Machine (State n m) (Action n m) where
  init s := ∃ data, (∀ p, (data p).IsNew) ∧ s = .new data
  step := step

end Exe.Fiber.Core
