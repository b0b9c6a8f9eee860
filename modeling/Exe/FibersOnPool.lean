/-
Fibers on the work-stealing pool.

`Fibers` leaves open which of the queued fibers a worker runs, and `Pool` what a running task
does. Here the two are put together. The worker that begins the `Run` of a task begins it
on the fiber the task is, or on the one whose timer it is; a fiber, or a suspend callback,
that submits calls `Worker::Push`; the thread of the timers and the threads that spawn
fibers call `ThreadPool::Submit` from outside; and `Run` returns when the worker is back
from `Fiber::Resume`.

Each half assumes something of the other. The pool assumes that a task that is still queued
is not submitted again: the list of a queue is intrusive. The fibers assume that what is
submitted is run, once, and not while the worker is inside another task. Both are proved
here, of every run: `components` says that the two halves go through states of their own
runs, and that what is queued for the fibers is what lies in the pool.

# Conventions

* There are `n` workers, `k` threads outside the pool and `m` primitives. The pool runs
  nothing but fibers and their timers.
* A submission carries any hint.
-/
import Exe.Composition
import Exe.FiberWaiting
import Exe.PoolBodies

set_option autoImplicit false

namespace Exe.FibersOnPool

open Function (update)
open Fiber.Core (Task UserCall Worker)
open Pool (begun isRunning current Begins)

variable {n k m : ℕ} {capacity : ℕ}

structure State (n k m : ℕ) where
  fibers : Fiber.Core.State n m
  pool : Pool.State n k Task

/-- Who moves, and how. -/
inductive Action (n k m : ℕ)
  | work (w : Fin n) (weak : Bool)
  | spurious (w : Fin n)
  | user (w : Fin n) (call : UserCall m)
  | body (w : Fin n) (hint : Pool.SchedulingHint)
  | done (w : Fin n)
  | spawn
  | submit (i : Fin k) (f : ℕ)
  | fire (i : Fin k) (timer : ℕ)
  | outside (i : Fin k)
  | stop

/-- What the fiber on worker `w`, or its callback, is about to hand to `Submit`. -/
def submits (fibers : Fiber.Core.State n m) (w : Fin n) : Option Task :=
  match fibers.worker w with
  | .submit f => some (.fiber f)
  | .running f =>
    match fibers.pc f with
    | .submit g _ => some (.fiber g)
    | _ => none
  | _ => none

/-- What the pool does in a step. -/
def Action.onPool (s : State n k m) : Action n k m → Option (Pool.Action n k Task)
  | .work w weak => some (.work w weak)
  | .spurious w => some (.spurious w)
  | .user _ _ => none
  | .body w hint => (submits s.fibers w).map fun task => .bodySubmit w task hint
  | .done w => some (.bodyDone w)
  | .spawn => none
  | .submit i f => some (.submit i (.fiber f))
  | .fire i timer => some (.submit i (.timer timer))
  | .outside i => some (.outside i)
  | .stop => some .stop

def poolStep (capacity : ℕ) (a : Action n k m) (s : State n k m) :
    Option (Pool.State n k Task) :=
  match a.onPool s with
  | some b => Pool.step capacity b s.pool
  | none => some s.pool

/-- `next->Run()`. The pool does not ask whether the fibers know of the task. -/
def start (w : Fin n) (task : Task) (fibers : Fiber.Core.State n m) : Fiber.Core.State n m :=
  Fiber.Core.runTask w { fibers with tasks := fibers.tasks.erase task } task

/-- What the fibers do in a step, in which worker `w` has gone on to `pool.pc w`. -/
def fiberStep (a : Action n k m) (s : State n k m) (pool : Pool.State n k Task) :
    Option (Fiber.Core.State n m) :=
  match a with
  | .work w _ =>
    match begun (s.pool.pc w) (pool.pc w) with
    | some task => some (start w task s.fibers)
    | none => some s.fibers
  | .user w call =>
    if isRunning (s.pool.pc w) then Fiber.Core.step (.user w call) s.fibers else none
  | .body w _ => if isRunning (s.pool.pc w) then Fiber.Core.step (.work w) s.fibers else none
  | .done w => if s.fibers.worker w = .idle then some s.fibers else none
  | .spawn => Fiber.Core.step .spawn s.fibers
  | .submit _ f => Fiber.Core.step (.submit f) s.fibers
  | .fire _ timer => Fiber.Core.step (.fire timer) s.fibers
  | .spurious _ => some s.fibers
  | .outside _ => some s.fibers
  | .stop => some s.fibers

def step (capacity : ℕ) (a : Action n k m) (s : State n k m) : Option (State n k m) :=
  match poolStep capacity a s with
  | none => none
  | some pool =>
    match fiberStep a s pool with
    | none => none
    | some fibers => some ⟨fibers, pool⟩

def machine (n k m capacity : ℕ) : Machine (State n k m) (Action n k m) where
  init s := (Fiber.Core.machine n m).init s.fibers ∧
    (Pool.machine n k Task capacity).init s.pool
  step := step capacity

theorem step_eq_some {a : Action n k m} {s s' : State n k m} :
    step capacity a s = some s' ↔
      poolStep capacity a s = some s'.pool ∧ fiberStep a s s'.pool = some s'.fibers := by
  unfold step
  constructor
  · intro h
    split at h
    · cases h
    · split at h
      · cases h
      · obtain rfl := Option.some.inj h
        exact ⟨‹_›, ‹_›⟩
  · rintro ⟨hp, hf⟩
    simp only [hp, hf]

/-! ## The fibers: what a step submits -/

/-- A step of worker `w` submits `task`, or nothing, and leaves the other workers alone. -/
structure Submits (w : Fin n) (s s' : Fiber.Core.State n m) (task : Option Task) : Prop where
  tasks : s'.tasks = ↑task.toList + s.tasks
  worker : ∀ v, v ≠ w → s'.worker v = s.worker v

section Fibers

open Fiber.Core

variable {s s' t : Fiber.Core.State n m} {w : Fin n} {f : ℕ}

theorem Submits.none (htasks : t.tasks = s.tasks) (hworker : ∀ v, v ≠ w → t.worker v = s.worker v) :
    Submits w s t Option.none :=
  ⟨by rw [htasks, Option.toList_none, Multiset.coe_nil, zero_add], hworker⟩

theorem Submits.setWorker {next : Worker m} (htasks : t.tasks = s.tasks)
    (hworker : t.worker = update s.worker w next) : Submits w s t Option.none := by
  refine .none htasks fun v hv => ?_
  rw [hworker]
  exact Function.update_of_ne hv _ _

theorem popFront_frame (s : Fiber.Core.State n m) (f : ℕ) (p : Fin m) (next : Pc m) :
    (s.popFront f p next).tasks = s.tasks ∧ (s.popFront f p next).worker = s.worker := by
  rw [State.popFront]
  split
  · exact ⟨rfl, rfl⟩
  · split
    · exact ⟨rfl, rfl⟩
    · exact ⟨rfl, rfl⟩

theorem submits_bodyStep {p : Fin m} {call : Call} (h : bodyStep w f p call s = some s') :
    Submits w s s' Option.none := by
  rw [bodyStep] at h
  split at h
  · cases h
  · rename_i verdict _
    cases verdict with
    | leave =>
      obtain rfl := Option.some.inj h
      exact .none rfl fun _ _ => rfl
    | park role =>
      obtain rfl := Option.some.inj h
      exact .setWorker rfl rfl
    | wakeOne =>
      dsimp only at h
      split at h
      · obtain rfl := Option.some.inj h
        exact .none rfl fun _ _ => rfl
      · obtain rfl := Option.some.inj h
        exact .none (popFront_frame _ f p _).1 fun v _ => congrFun (popFront_frame _ f p _).2 v
    | wakeAll =>
      obtain rfl := Option.some.inj h
      exact .none rfl fun _ _ => rfl
    | serve =>
      obtain rfl := Option.some.inj h
      exact .none (popFront_frame _ f p _).1 fun v _ => congrFun (popFront_frame _ f p _).2 v

theorem submits_fiberStep (hw : s.worker w = .running f)
    (h : Fiber.Core.fiberStep w f s = some s') : Submits w s s' (submits s w) := by
  rw [Fiber.Core.fiberStep] at h
  rw [submits, hw]
  dsimp only
  cases hpc : s.pc f with
  | user =>
    rw [hpc] at h
    cases h
  | submit g next =>
    rw [hpc] at h
    obtain rfl := Option.some.inj h
    exact ⟨rfl, fun _ _ => rfl⟩
  | lock p call =>
    rw [hpc] at h
    dsimp only at h
    split at h <;> cases h
    exact .none rfl fun _ _ => rfl
  | body p call =>
    rw [hpc] at h
    exact submits_bodyStep h
  | wakeAll p =>
    rw [hpc] at h
    dsimp only at h
    split at h <;> cases h
    · exact .none rfl fun _ _ => rfl
    · exact .none (popFront_frame _ f p _).1 fun v _ => congrFun (popFront_frame _ f p _).2 v
  | relock p call =>
    rw [hpc] at h
    dsimp only at h
    split at h <;> cases h
    exact .none rfl fun _ _ => rfl
  | unlock p =>
    rw [hpc] at h
    obtain rfl := Option.some.inj h
    exact .none rfl fun _ _ => rfl

theorem submits_workerStep (h : workerStep w s = some s') : Submits w s s' (submits s w) := by
  rw [workerStep] at h
  cases hw : s.worker w with
  | running f =>
    rw [hw] at h
    exact submits_fiberStep hw h
  | submit f =>
    rw [hw] at h
    obtain rfl := Option.some.inj h
    rw [submits, hw]
    exact ⟨rfl, fun v hv => Function.update_of_ne hv _ _⟩
  | idle =>
    rw [hw] at h
    cases h
  | suspended f =>
    rw [submits, hw]
    rw [hw] at h
    dsimp only at h
    split at h <;> obtain rfl := Option.some.inj h
    · exact .none rfl fun _ _ => rfl
    · exact .setWorker rfl rfl
  | callback f cb =>
    rw [submits, hw]
    rw [hw] at h
    obtain rfl := Option.some.inj h
    cases cb <;> exact .setWorker rfl rfl
  | _ =>
    rw [submits, hw]
    rw [hw] at h
    obtain rfl := Option.some.inj h
    exact .setWorker rfl rfl

theorem submits_userStep (call : UserCall m) : Submits w s (userStep w f s call) Option.none := by
  cases call with
  | go => exact .none rfl fun _ _ => rfl
  | yield => exact .setWorker rfl rfl
  | sleepFor => exact .setWorker rfl rfl
  | call p c => exact .none rfl fun _ _ => rfl
  | finish => exact .setWorker rfl rfl

/-- Beginning a task changes no other worker either, and takes nothing else out of the bag. -/
theorem submits_start (task : Task) :
    (start w task s).tasks = s.tasks.erase task ∧
      ∀ v, v ≠ w → (start w task s).worker v = s.worker v := by
  cases task with
  | fiber f => exact ⟨rfl, fun v hv => Function.update_of_ne hv _ _⟩
  | timer x =>
    rw [start, runTask]
    split
    · exact ⟨rfl, fun _ _ => rfl⟩
    · exact ⟨rfl, fun v hv => Function.update_of_ne hv _ _⟩

end Fibers

/-! ## The two halves -/

/-- What is queued for the fibers lies in the pool, and a worker that is not inside a task
has nothing to do with a fiber. -/
structure Coupled (capacity : ℕ) (s : State n k m) : Prop where
  tasks : s.fibers.tasks = s.pool.placed capacity
  idle : ∀ w, current (s.pool.pc w) = none → s.fibers.worker w = .idle

theorem tasks_nodup {fibers : Fiber.Core.State n m} {moving : Multiset ℕ}
    (h : Fiber.Core.Owned fibers moving) : fibers.tasks.Nodup := by
  refine Multiset.nodup_iff_count_le_one.mpr fun task => ?_
  cases task with
  | fiber f =>
    have hle := h.places_le f
    omega
  | timer f =>
    have hle := h.places_le f
    omega

section Steps

variable {s s' : State n k m} {w : Fin n}

/-- A step of the pool that begins no task, together with a step of the fibers that hands the
pool what it accepts. -/
theorem Coupled.accept {b : Pool.Action n k Task} (hJ : Coupled capacity s)
    (hF : (Fiber.Core.machine n m).Reachable s'.fibers)
    (hq : Pool.Queues capacity s.pool) (hpool : Pool.step capacity b s.pool = some s'.pool)
    (hran : s'.pool.ran = s.pool.ran)
    (htasks : s'.fibers.tasks = b.accepted + s.fibers.tasks) :
    Pool.NoResubmit capacity b s.pool ∧ s'.fibers.tasks = s'.pool.placed capacity := by
  obtain ⟨started, hran', -, hplaced⟩ := Pool.accounting hq (Pool.step_cases hq hpool)
  have hnone : started = 0 := by
    rw [hran] at hran'
    exact right_eq_add.mp hran'
  rw [hnone, add_zero] at hplaced
  refine ⟨fun task ht hmem => ?_, by rw [htasks, hJ.tasks, hplaced]⟩
  -- it would be queued twice
  have hnd := tasks_nodup (Fiber.Core.owned_of_reachable hF)
  rw [htasks, hJ.tasks] at hnd
  exact Multiset.disjoint_left.mp (Multiset.nodup_add.mp hnd).2.2 ht hmem

/-- `next->Run()` begins a task that is queued for the fibers, on a worker that is done with
the one before. -/
theorem Coupled.start {weak : Bool} {task : Task} (hJ : Coupled capacity s)
    (hF : (Fiber.Core.machine n m).Reachable s.fibers) (hq : Pool.Queues capacity s.pool)
    (hpool : Pool.step capacity (.work w weak) s.pool = some s'.pool)
    (hb : Begins w s.pool s'.pool (some task)) (hf : s'.fibers = start w task s.fibers) :
    Fiber.Core.step (.run w task) s.fibers = some s'.fibers ∧
      s'.fibers.tasks = s'.pool.placed capacity := by
  obtain ⟨started, hran, -, hplaced⟩ := Pool.accounting hq (Pool.step_cases hq hpool)
  have hstarted : started = {task} := by
    have hran' := hb.ran
    rw [hran] at hran'
    exact add_right_cancel hran'
  have hplaced' : s'.pool.placed capacity + {task} = s.pool.placed capacity := by
    rw [← hstarted, hplaced]
    exact zero_add _
  have hmem : task ∈ s.fibers.tasks := by
    rw [hJ.tasks, ← hplaced']
    exact Multiset.mem_add.mpr (.inr (Multiset.mem_singleton_self task))
  have hidle : s.fibers.worker w = .idle := hJ.idle w (hb.free (Option.some_ne_none task))
  have hfault := (Fiber.Core.owned_of_reachable hF).fault
  constructor
  · rw [Fiber.Core.step, if_neg (by rw [hfault]; exact Bool.false_ne_true), hf]
    exact if_pos ⟨hidle, hmem⟩
  · rw [hf, (submits_start task).1, hJ.tasks, ← hplaced', add_comm, Multiset.singleton_add,
      Multiset.erase_cons_head]

/-- The pool makes a step that is none of a worker's own, and the fibers hand it what it
accepts. -/
theorem Coupled.other {b : Pool.Action n k Task} (hJ : Coupled capacity s)
    (hF : (Fiber.Core.machine n m).Reachable s'.fibers)
    (hq : Pool.Queues capacity s.pool) (hpool : Pool.step capacity b s.pool = some s'.pool)
    (hb : ∀ v weak, b ≠ .work v weak)
    (htasks : s'.fibers.tasks = b.accepted + s.fibers.tasks)
    (hidle : ∀ v, current (s.pool.pc v) = none ∨ b = .bodyDone v →
      s'.fibers.worker v = .idle) :
    (Pool.machine n k Task capacity).Follows (Pool.NoResubmit capacity) s.pool s'.pool ∧
      Coupled capacity s' := by
  have hkeeps := Pool.keeps_effect (Pool.step_cases hq hpool) hb
  obtain ⟨hno, htasks'⟩ := hJ.accept hF hq hpool hkeeps.ran htasks
  refine ⟨.inr ⟨b, hno, hpool⟩, htasks', fun v hv => ?_⟩
  obtain hin | ⟨hdone, -⟩ := hkeeps.current v
  · exact hidle v (.inl (by rw [← hin, hv]))
  · exact hidle v (.inr hdone)

/-- The fibers make a step on a worker that is inside a task, and hand nothing over. -/
theorem Coupled.alone (hJ : Coupled capacity s) (hpool : s'.pool = s.pool)
    (hsub : Submits w s.fibers s'.fibers none) (hw : current (s.pool.pc w) ≠ none) :
    Coupled capacity s' := by
  refine ⟨by rw [hpool, ← hJ.tasks, hsub.tasks]; exact zero_add _, fun v hv => ?_⟩
  rw [hpool] at hv
  have hvw : v ≠ w := by
    rintro rfl
    exact hw hv
  rw [hsub.worker v hvw]
  exact hJ.idle v hv

end Steps

/-- A fiber makes a step of its own only where the whole lets the body of a task go on. -/
def OfBody (a : Action n k m) (c : Fiber.Core.Action n m) : Prop :=
  ∀ w, c = .work w → ∃ hint, a = .body w hint

/-- What a step of the whole does: to the fibers a step or nothing, to the pool a step that
resubmits nothing or nothing, and the two stay coupled. -/
structure Advances (capacity : ℕ) (a : Action n k m) (s s' : State n k m) : Prop where
  fibers : (Fiber.Core.machine n m).Follows (fun c _ => OfBody a c) s.fibers s'.fibers
  pool : (Pool.machine n k Task capacity).Follows (Pool.NoResubmit capacity) s.pool s'.pool
  coupled : Coupled capacity s'

theorem onPool_ne_work {a : Action n k m} {s : State n k m} {b : Pool.Action n k Task}
    (hb : a.onPool s = some b) (ha : ∀ w weak, a ≠ .work w weak) (v : Fin n) (weak : Bool) :
    b ≠ .work v weak := by
  rintro rfl
  cases a with
  | work w weak' => exact ha w weak' rfl
  | body w hint =>
    obtain ⟨task, -, he⟩ := Option.map_eq_some_iff.mp hb
    cases he
  | _ => cases hb

section Cases

variable {s s' : State n k m} {w : Fin n}

/-- A worker's own step: it begins a task, or the fibers do not notice. -/
theorem coupled_work {weak : Bool}
    (hF : (Fiber.Core.machine n m).Reachable s.fibers) (hq : Pool.Queues capacity s.pool)
    (hJ : Coupled capacity s) (hpool : Pool.step capacity (.work w weak) s.pool = some s'.pool)
    (hfib : fiberStep (.work w weak) s s'.pool = some s'.fibers) :
    Advances capacity (.work w weak) s s' := by
  have hfollows : (Pool.machine n k Task capacity).Follows (Pool.NoResubmit capacity) s.pool
      s'.pool := .inr ⟨.work w weak, fun _ ht => absurd ht (Multiset.notMem_zero _), hpool⟩
  obtain ⟨task, hb⟩ : ∃ task, Begins w s.pool s'.pool task := by
    cases Pool.step_cases hq hpool with
    | work hw => exact Pool.begins_workerStep hw
  simp only [fiberStep, hb.begun] at hfib
  cases task with
  | none =>
    have hf : s'.fibers = s.fibers := (Option.some.inj hfib).symm
    have hran : s'.pool.ran = s.pool.ran := by
      rw [hb.ran]
      exact zero_add _
    have hF' : (Fiber.Core.machine n m).Reachable s'.fibers := by rwa [hf]
    obtain ⟨-, htasks⟩ := hJ.accept hF' hq hpool hran (by rw [hf]; exact (zero_add _).symm)
    refine ⟨.inl hf, hfollows, htasks, fun v hv => ?_⟩
    rw [hf]
    refine hJ.idle v ?_
    by_cases hvw : v = w
    · subst hvw
      rw [← hv, hb.self]
      exact Option.none_or.symm
    · rw [← hb.other v hvw, hv]
  | some task =>
    have hf : s'.fibers = start w task s.fibers := (Option.some.inj hfib).symm
    obtain ⟨hst, htasks⟩ := hJ.start hF hq hpool hb hf
    refine ⟨.inr ⟨.run w task, (fun v hv => by cases hv), hst⟩, hfollows, htasks, fun v hv => ?_⟩
    have hvw : v ≠ w := by
      rintro rfl
      rw [hb.self, Option.some_or] at hv
      cases hv
    rw [hf, (submits_start task).2 v hvw]
    exact hJ.idle v (by rw [← hb.other v hvw, hv])

/-- A step of the fiber on worker `w`, or of its callback. -/
theorem coupled_body {hint : Pool.SchedulingHint}
    (hF : (Fiber.Core.machine n m).Reachable s.fibers) (hq : Pool.Queues capacity s.pool)
    (hJ : Coupled capacity s) (hpool : poolStep capacity (.body w hint) s = some s'.pool)
    (hw : isRunning (s.pool.pc w) = true)
    (hfib : Fiber.Core.step (.work w) s.fibers = some s'.fibers) :
    Advances capacity (.body w hint) s s' := by
  have hF' : (Fiber.Core.machine n m).Reachable s'.fibers := hF.next (.work w) hfib
  have hfol : (Fiber.Core.machine n m).Follows (fun c _ => OfBody (.body w hint : Action n k m) c)
      s.fibers s'.fibers := .inr ⟨.work w, (fun v hv => ⟨hint, by cases hv; rfl⟩), hfib⟩
  have hsub : Submits w s.fibers s'.fibers (submits s.fibers w) := by
    rw [Fiber.Core.step] at hfib
    split at hfib
    · cases hfib
    · exact submits_workerStep hfib
  have hin := Pool.current_of_isRunning hw
  cases htask : submits s.fibers w with
  | none =>
    rw [htask] at hsub
    simp only [poolStep, Action.onPool, htask, Option.map_none, Option.some.injEq] at hpool
    exact ⟨hfol, .inl hpool.symm, hJ.alone hpool.symm hsub hin⟩
  | some task =>
    rw [htask] at hsub
    simp only [poolStep, Action.onPool, htask, Option.map_some] at hpool
    have hpart := hJ.other hF' hq hpool (fun v weak he => by cases he) hsub.tasks fun v hv => by
      obtain hv | hv := hv
      · have hvw : v ≠ w := by
          rintro rfl
          exact hin hv
        rw [hsub.worker v hvw]
        exact hJ.idle v hv
      · cases hv
    exact ⟨hfol, hpart.1, hpart.2⟩

end Cases

/-- **The steps of the whole advance both halves.** -/
theorem advances {a : Action n k m} {s s' : State n k m}
    (hF : (Fiber.Core.machine n m).Reachable s.fibers) (hq : Pool.Queues capacity s.pool)
    (hJ : Coupled capacity s) (hstep : step capacity a s = some s') :
    Advances capacity a s s' := by
  obtain ⟨hpool, hfib⟩ := step_eq_some.mp hstep
  -- the fibers make the step `c`, or none, in which no worker's place changes
  have hother : ∀ {b : Pool.Action n k Task}, a.onPool s = some b → (∀ w weak, a ≠ .work w weak) →
      (Fiber.Core.machine n m).Follows (fun c _ => OfBody a c) s.fibers s'.fibers →
      s'.fibers.tasks = b.accepted + s.fibers.tasks → s'.fibers.worker = s.fibers.worker →
      (∀ v, b = .bodyDone v → s.fibers.worker v = .idle) →
      Advances capacity a s s' := by
    intro b hb hwork hfol htasks hworker hdone
    simp only [poolStep, hb] at hpool
    have hF' := (hfol.mono fun _ _ => trivial).reachableVia hF
    have hpart := hJ.other hF' hq hpool (onPool_ne_work hb hwork) htasks fun v hv => by
      rw [hworker]
      exact hv.elim (hJ.idle v) (hdone v)
    exact ⟨hfol, hpart.1, hpart.2⟩
  have hsame : ∀ {b : Pool.Action n k Task}, a.onPool s = some b → (∀ w weak, a ≠ .work w weak) →
      s'.fibers = s.fibers → b.accepted = 0 → (∀ v, b = .bodyDone v → s.fibers.worker v = .idle) →
      Advances capacity a s s' := fun hb hwork hf hacc hdone =>
    hother hb hwork (.inl hf) (by rw [hf, hacc, zero_add]) (by rw [hf]) hdone
  cases a with
  | work w weak => exact coupled_work hF hq hJ hpool hfib
  | spurious w =>
    exact hsame rfl (fun _ _ => by simp) (Option.some.inj hfib).symm rfl fun v hv => by cases hv
  | user w call =>
    simp only [fiberStep] at hfib
    split at hfib
    · rename_i hw
      have hpool' : s'.pool = s.pool := (Option.some.inj hpool).symm
      refine ⟨.inr ⟨.user w call, (fun v hv => by cases hv), hfib⟩, .inl hpool', ?_⟩
      have hsub : Submits w s.fibers s'.fibers none := by
        simp only [Fiber.Core.step] at hfib
        split at hfib
        · cases hfib
        · split at hfib
          · split at hfib
            · rw [← Option.some.inj hfib]
              exact submits_userStep call
            · cases hfib
          · cases hfib
      exact hJ.alone hpool' hsub (Pool.current_of_isRunning hw)
    · cases hfib
  | body w hint =>
    simp only [fiberStep] at hfib
    split at hfib
    · exact coupled_body hF hq hJ hpool ‹_› hfib
    · cases hfib
  | done w =>
    simp only [fiberStep] at hfib
    split at hfib
    · refine hsame rfl (fun _ _ => by simp) (Option.some.inj hfib).symm rfl fun v hv => ?_
      cases hv
      assumption
    · cases hfib
  | spawn =>
    simp only [fiberStep] at hfib
    have hpool' : s'.pool = s.pool := (Option.some.inj hpool).symm
    refine ⟨.inr ⟨.spawn, (fun v hv => by cases hv), hfib⟩, .inl hpool', ?_⟩
    simp only [Fiber.Core.step] at hfib
    split at hfib
    · cases hfib
    · have hf := Option.some.inj hfib
      refine ⟨?_, ?_⟩
      · rw [hpool', ← hJ.tasks, ← hf]
        rfl
      · rw [hpool', ← hf]
        exact hJ.idle
  | submit i f =>
    simp only [fiberStep] at hfib
    have hfol : (Fiber.Core.machine n m).Follows (fun c _ => OfBody (.submit i f) c)
        s.fibers s'.fibers := .inr ⟨.submit f, (fun v hv => by cases hv), hfib⟩
    simp only [Fiber.Core.step] at hfib
    split at hfib
    · cases hfib
    · split at hfib
      · have hf := Option.some.inj hfib
        exact hother rfl (fun _ _ => by simp) hfol (by rw [← hf]; rfl) (by rw [← hf])
          fun v hv => by cases hv
      · cases hfib
  | fire i timer =>
    simp only [fiberStep] at hfib
    have hfol : (Fiber.Core.machine n m).Follows (fun c _ => OfBody (.fire i timer) c)
        s.fibers s'.fibers := .inr ⟨.fire timer, (fun v hv => by cases hv), hfib⟩
    simp only [Fiber.Core.step] at hfib
    split at hfib
    · cases hfib
    · split at hfib
      · have hf := Option.some.inj hfib
        exact hother rfl (fun _ _ => by simp) hfol (by rw [← hf]; rfl) (by rw [← hf])
          fun v hv => by cases hv
      · cases hfib
  | outside i =>
    exact hsame rfl (fun _ _ => by simp) (Option.some.inj hfib).symm rfl fun v hv => by cases hv
  | stop =>
    exact hsame rfl (fun _ _ => by simp) (Option.some.inj hfib).symm rfl fun v hv => by cases hv

/-! ## Every run -/

/-- What the pool does in a step meets `C`. -/
def OnPool (C : Pool.Action n k Task → Pool.State n k Task → Prop) (a : Action n k m)
    (s : State n k m) : Prop :=
  ∀ b, a.onPool s = some b → C b s.pool

/-- **The circle closes.** -/
theorem components {C : Action n k m → State n k m → Prop} {s : State n k m}
    (hs : (machine n k m capacity).ReachableVia C s) :
    (Fiber.Core.machine n m).Reachable s.fibers ∧
    (Pool.machine n k Task capacity).ReachableVia (Pool.NoResubmit capacity) s.pool ∧
    Coupled capacity s := by
  refine hs.components (f := State.fibers) (g := State.pool) (J := Coupled capacity) ?_ ?_
  · rintro s ⟨hfibers, hpool⟩
    refine ⟨hfibers, hpool, ?_, ?_⟩
    · obtain ⟨data, -, he⟩ := hfibers
      obtain ⟨null, he'⟩ := hpool
      rw [he, he', Pool.placed_start]
      rfl
    · obtain ⟨data, -, he⟩ := hfibers
      rw [he]
      exact fun _ _ => rfl
  · intro a s s' hF hP hJ _ hstep
    have h := advances hF (Pool.queues_of_reachable hP) hJ hstep
    exact ⟨h.fibers.mono fun _ _ => trivial, h.pool, h.coupled⟩

/-- The runs in which the pool's steps meet `C`, as runs of the pool. -/
theorem pool_reachableVia {C : Pool.Action n k Task → Pool.State n k Task → Prop}
    {s : State n k m} (hs : (machine n k m capacity).ReachableVia (OnPool C) s) :
    (Pool.machine n k Task capacity).ReachableVia C s.pool := by
  induction hs with
  | init h => exact .init h.2
  | @step s s' a hs hc hst ih =>
    obtain ⟨hpool, -⟩ := step_eq_some.mp hst
    unfold poolStep at hpool
    split at hpool
    · exact .step _ ih (hc _ ‹_›) hpool
    · obtain he := Option.some.inj hpool
      rwa [← he]

/-- **Fibers and pool keep their promises to each other.** In every run the pool is never handed
a task that is still queued, and begins only tasks that are queued for the fibers, on workers
that are inside no other. So no assertion of a handle fails, nothing is queued twice, a live
fiber is in one place, where the queues are now those of the pool, and it is begun as often as
it has been submitted, but for the one time it is queued. -/
theorem fibers_served_once {s : State n k m} (hs : (machine n k m capacity).Reachable s) :
    (Pool.machine n k Task capacity).ReachableVia (Pool.NoResubmit capacity) s.pool ∧
    (Fiber.Core.machine n m).Reachable s.fibers ∧ s.fibers.fault = false ∧
    (s.pool.placed capacity).Nodup ∧
    (∀ f, s.fibers.executing f + s.fibers.inCallback f + s.fibers.parked f + s.fibers.inHands f +
      s.fibers.timers.count f + (s.pool.placed capacity).count (.timer f) +
      (s.pool.placed capacity).count (.fiber f) = (s.fibers.live f).toNat) ∧
    (∀ task, s.pool.ran.count task + (s.pool.placed capacity).count task =
      s.pool.submitted.count task) ∧
    ∀ w, s.fibers.worker w ≠ .idle → current (s.pool.pc w) ≠ none := by
  obtain ⟨hF, hP, hJ⟩ := components hs
  have howned := Fiber.Core.owned_of_reachable hF
  refine ⟨hP, hF, howned.fault, ?_, fun f => ?_, fun task => ?_, fun w hw => ?_⟩
  · rw [← hJ.tasks]
    exact tasks_nodup howned
  · rw [← hJ.tasks]
    have hcount := howned.count f
    simp only [Fiber.Core.State.places, Fiber.Core.State.byTimer, Fiber.Core.State.queued,
      Multiset.count_zero, add_zero] at hcount
    omega
  · rw [Pool.submitted_eq hP, Multiset.count_add, add_comm]
  · exact fun hin => hw (hJ.idle w hin)

/-- One worker: a fiber spawned from outside is begun, starts another one, and goes on while
that one waits in the LIFO slot. -/
theorem fibers_served_once_go : ∃ s : State 1 1 1, (machine 1 1 1 4).Reachable s ∧
    s.fibers.worker 0 = .running 0 ∧ s.pool.lifo_slot_ 0 = some (.fiber 1) ∧
    current (s.pool.pc 0) ≠ none ∧ (s.pool.placed 4).Nodup := by
  obtain ⟨s, hs, hp⟩ := Machine.Reachable.exec_any (M := machine 1 1 1 4)
    (s := ⟨.new fun _ => .mutex false, .start (.fiber 0)⟩)
    (.init ⟨⟨fun _ => .mutex false, fun _ => rfl, rfl⟩, ⟨.fiber 0, rfl⟩⟩)
    ([.spawn, .submit 0 0, .outside 0, .outside 0] ++ List.replicate 6 (.work 0 false) ++
      [.user 0 .go, .body 0 .Next, .work 0 false])
    (fun s => decide (s.fibers.worker 0 = .running 0 ∧ s.pool.lifo_slot_ 0 = some (.fiber 1)))
    (by decide +kernel)
  obtain ⟨hw, hslot⟩ := of_decide_eq_true hp
  obtain ⟨-, -, -, hnd, -, -, hin⟩ := fibers_served_once hs
  exact ⟨s, hs, hw, hslot, hin 0 (by rw [hw]; simp), hnd⟩

/-! ## When nothing runs -/

/-- Nothing is queued, and no worker has anything to do with a fiber. -/
structure Still (s : State n k m) : Prop where
  tasks : s.fibers.tasks = 0
  idle : ∀ w, s.fibers.worker w = .idle

/-- Then a live fiber is parked, or its timer is set, or it has yet to be submitted for the
first time. -/
theorem Still.place {s : State n k m} (h : Still s)
    (hF : (Fiber.Core.machine n m).Reachable s.fibers)
    {f : ℕ} (hf : s.fibers.live f = true) :
    (∃ p, f ∈ (s.fibers.primitive p).waiters) ∨ f ∈ s.fibers.timers ∨ f ∈ s.fibers.spawned := by
  have hcount := (Fiber.Core.owned_of_reachable hF).count f
  rw [Fiber.Core.State.places_eq, hf, Bool.toNat_true, Multiset.count_zero, h.tasks] at hcount
  have hworkers : s.fibers.byWorkers f = 0 := by
    refine Finset.sum_eq_zero fun w _ => ?_
    rw [h.idle w]
    rfl
  rw [hworkers] at hcount
  simp only [Multiset.count_zero] at hcount
  by_cases hparked : s.fibers.parked f = 0
  · by_cases htimer : f ∈ s.fibers.timers
    · exact .inr (.inl htimer)
    · rw [hparked, Multiset.count_eq_zero.mpr htimer] at hcount
      exact .inr (.inr (Multiset.count_pos.mp (by omega)))
  · obtain ⟨p, -, hp⟩ := Finset.exists_ne_zero_of_sum_ne_zero hparked
    exact .inl ⟨p, List.count_pos_iff.mp (Nat.pos_of_ne_zero hp)⟩

/-- After a timely `Stop` the pool is at rest. -/
theorem atRest_of_returned {s : State n k m} (hs : (machine n k m capacity).ReachableVia
      (OnPool fun b pool => Pool.OutsideFirst b pool ∧ Pool.StopsInTime b pool) s)
    (hret : ∀ w, s.pool.pc w = .returned) : Pool.AtRest capacity s.pool :=
  .stopped (pool_reachableVia hs) hret

theorem still_of_atRest {s : State n k m} (hs : (machine n k m capacity).Reachable s) (hn : 0 < n)
    (hrest : Pool.AtRest capacity s.pool) : Still s := by
  obtain ⟨-, hP, hJ⟩ := components hs
  exact ⟨by rw [hJ.tasks, hrest.placed hP hn], fun w => hJ.idle w (hrest.current w)⟩

/-- No `Add` of a fiber carries a count past its range. -/
def NoWrap : Action n k m → State n k m → Prop
  | .body w _, s => Fiber.Core.NoWrap (.work w) s.fibers
  | _, _ => True

instance : (a : Action n k m) → (s : State n k m) → Decidable (NoWrap a s)
  | .body w _, s => inferInstanceAs (Decidable (Fiber.Core.NoWrap (.work w) s.fibers))
  | .work _ _, _ => .isTrue trivial
  | .spurious _, _ => .isTrue trivial
  | .user _ _, _ => .isTrue trivial
  | .done _, _ => .isTrue trivial
  | .spawn, _ => .isTrue trivial
  | .submit _ _, _ => .isTrue trivial
  | .fire _ _, _ => .isTrue trivial
  | .outside _, _ => .isTrue trivial
  | .stop, _ => .isTrue trivial

/-- In such runs the fibers' own steps are of that kind too. -/
theorem fibers_reachableVia {s : State n k m}
    (hs : (machine n k m capacity).ReachableVia NoWrap s) :
    (Fiber.Core.machine n m).ReachableVia Fiber.Core.NoWrap s.fibers := by
  induction hs with
  | init h => exact .init h.1
  | @step s s' a hs hno hst ih =>
    obtain ⟨hF, hP, hJ⟩ := components hs
    have h := advances hF (Pool.queues_of_reachable hP) hJ hst
    refine (h.fibers.mono fun c hc => ?_).reachableVia ih
    cases c with
    | work w =>
      obtain ⟨hint, rfl⟩ := hc w rfl
      exact hno
    | _ => rfl

/-- **The runtime rests only when the program does.** When all workers sleep, before `Stop` and
before the `2 ^ 64`-th park, or have returned after a timely `Stop`, no fiber is queued,
executed or in anybody's hands, and no spin lock is held. A live fiber then waits for its timer,
or has yet to be submitted for the first time, or is parked by a call that would park it again
if it was made now. So a program that hangs hangs by itself: no wake-up is lost anywhere between
the primitives and the pool. -/
theorem rests_only_when_blocked {s : State n k m}
    (hs : (machine n k m capacity).ReachableVia NoWrap s) (hn : 0 < n)
    (hrest : Pool.AtRest capacity s.pool) :
    (∀ p, (s.fibers.primitive p).spin_ = false) ∧
    ∀ f, s.fibers.live f = true → f ∈ s.fibers.timers ∨ f ∈ s.fibers.spawned ∨
      ∃ p c, f ∈ (s.fibers.primitive p).waiters ∧ s.fibers.pc f = .relock p c ∧
        ((s.fibers.data p).Sound →
          ∃ role, (s.fibers.data p).enter c = some (s.fibers.data p, .park role)) := by
  have hF := fibers_reachableVia hs
  have hstill := still_of_atRest hs.reachable hn hrest
  have hst := Fiber.Core.standing_of_reachable hF
  have howned := Fiber.Core.owned_of_reachable hF.reachable
  refine ⟨fun p => ?_, fun f hf => ?_⟩
  · by_contra hspin
    obtain ⟨w, hw⟩ := (hst.lock p).someone (Bool.eq_true_of_not_eq_false hspin)
    rw [hstill.idle w] at hw
    exact hw
  · obtain ⟨p, hp⟩ | htimer | hspawned := hstill.place hF.reachable hf
    · obtain ⟨c, hc⟩ := hst.waiters p f hp
      refine .inr (.inr ⟨p, c, hp, hc, fun hsound => ?_⟩)
      have hreason := Fiber.Core.reasons_of_reachable hF p hsound f hp c hc
      exact (hreason.of_idle hst howned hstill.tasks hstill.idle).parks
    · exact .inl htimer
    · exact .inr (.inl hspawned)

/-- The worker sleeps, before `Stop`, with nobody in `Submit`. -/
def restsOnOne (s : State 1 1 1) : Bool :=
  match s.pool.stopPc, s.pool.outside 0, s.pool.pc 0 with
  | .notStarted, .idle, .asleep e =>
    decide (s.pool.parks < Pool.u64Mod ∧ s.pool.wakeups_ 0 = e ∧ s.fibers.live 1 = true)
  | _, _, _ => false

/-- Two fibers are spawned; each begins with `Lock`, and fiber 0 does not unlock. -/
def lockTwice : List (Action 1 1 1) :=
  [.spawn, .submit 0 0, .outside 0, .outside 0, .spawn, .submit 0 1, .outside 0, .outside 0] ++
  List.replicate 10 (.work 0 false) ++
  [.user 0 (.call 0 .Lock)] ++ List.replicate 3 (.body 0 .UpToYou) ++
  [.user 0 .finish, .body 0 .UpToYou, .done 0] ++ List.replicate 7 (.work 0 false) ++
  [.user 0 (.call 0 .Lock)] ++ List.replicate 5 (.body 0 .UpToYou) ++
  [.done 0] ++ List.replicate 13 (.work 0 false)

/-- One worker, one mutex: fiber 0 locks it and finishes; fiber 1 waits for it for ever, and the
worker sleeps. -/
theorem rests_only_when_blocked_deadlock : ∃ s : State 1 1 1,
    (machine 1 1 1 4).ReachableVia NoWrap s ∧ (∀ w, Pool.Sleeping s.pool w) ∧
    s.fibers.live 1 = true ∧ (s.fibers.primitive 0).spin_ = false := by
  obtain ⟨s, hs, hp⟩ := Machine.ReachableVia.exec_any (M := machine 1 1 1 4) (C := NoWrap)
    (s := ⟨.new fun _ => .mutex false, .start (.fiber 0)⟩)
    (.init ⟨⟨fun _ => .mutex false, fun _ => rfl, rfl⟩, ⟨.fiber 0, rfl⟩⟩)
    lockTwice restsOnOne (by decide +kernel)
  unfold restsOnOne at hp
  split at hp
  · rename_i e hstop hout hpc
    obtain ⟨hparks, hwakeups, hlive⟩ := of_decide_eq_true hp
    have hsleep : ∀ w, Pool.Sleeping s.pool w := fun w => by
      obtain rfl := Subsingleton.elim w 0
      exact ⟨e, hpc, hwakeups⟩
    have hidle : ∀ i, s.pool.outside i = .idle := fun i => by
      obtain rfl := Subsingleton.elim i 0
      exact hout
    exact ⟨s, hs, hsleep, hlive,
      (rests_only_when_blocked hs one_pos (.asleep hstop hparks hidle hsleep)).1 0⟩
  · cases hp

end Exe.FibersOnPool
