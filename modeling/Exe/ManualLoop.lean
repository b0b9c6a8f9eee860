/-
`sandbox::ManualLoop`: a queue of tasks, and the loop that runs some of them.

`RunAtMostTasks` counts in its loop test, so the count is one too high when the loop is left,
whichever half of the test has failed, and `count - 1` is the number of tasks. The count
passes the limit by one at most: for the largest limit, which is that of `RunTasks`, it wraps
to zero, and the subtraction takes it back.

# Conventions

* What the `Run` of a task does is up to the user (`Body`): given the task, the queue it finds
  and the state of the world, it submits some tasks, in order, and leaves another world.
* `size_t` is `UInt64`.
* A task is not submitted while its node is in the queue.
* `ran` and `submitted` are history, the oldest task first. `submitted` is what was submitted
  by `Submit`, and not what was in the queue before.
-/
import Exe.Machine
import Exe.Sandbox

set_option autoImplicit false

namespace Exe.ManualLoop

/-! ## The model -/

/-- What a task submits, and the world it leaves behind. -/
abbrev Body (σ τ : Type*) := τ → List τ → σ → List τ × σ

structure Loop (σ τ : Type*) where
  task_queue_ : List τ
  world : σ
  ran : List τ
  submitted : List τ

variable {σ τ : Type*}

def Loop.IsEmpty (s : Loop σ τ) : Bool := s.task_queue_.isEmpty

def Loop.Submit (s : Loop σ τ) (task : τ) : Loop σ τ :=
  { s with task_queue_ := s.task_queue_ ++ [task], submitted := s.submitted ++ [task] }

/-- `task->Run()`, once it has been taken out of the queue. -/
def Loop.run (body : Body σ τ) (task : τ) (s : Loop σ τ) : Loop σ τ :=
  let (tasks, world) := body task s.task_queue_ s.world
  tasks.foldl Loop.Submit { s with world, ran := s.ran ++ [task] }

/-- The loop of `RunAtMostTasks`, with at most `bound` loop tests. -/
def RunWithin (body : Body σ τ) (limit : UInt64) :
    ℕ → UInt64 → Loop σ τ → Option (Loop σ τ × UInt64)
  | 0, _, _ => none
  | bound + 1, count, s =>
    -- `count++ < limit`
    if count < limit then
      match s.task_queue_ with
      | [] => some (s, count + 1)
      | task :: rest =>
        RunWithin body limit bound (count + 1) (Loop.run body task { s with task_queue_ := rest })
    else some (s, count + 1)

def RunAtMostTasks (body : Body σ τ) (limit : UInt64) (s : Loop σ τ) :
    Option (Loop σ τ × UInt64) :=
  -- one test for each task, and the one that fails
  (RunWithin body limit (limit.toNat + 1) 0 s).map fun x => (x.1, x.2 - 1)

theorem foldl_Submit (tasks : List τ) (s : Loop σ τ) :
    tasks.foldl Loop.Submit s = { s with
      task_queue_ := s.task_queue_ ++ tasks
      submitted := s.submitted ++ tasks } := by
  induction tasks generalizing s with
  | nil => simp only [List.foldl_nil, List.append_nil]
  | cons task tasks ih =>
    rw [List.foldl_cons, ih]
    simp only [Loop.Submit, List.append_assoc, List.singleton_append]

/-- The tasks `ran` are taken off the front of the queue and run, in this order. Each body finds
the rest of the queue and the world as they are then; what it submits goes behind the queue.
`submitted` is what all of them submit. -/
inductive Runs (body : Body σ τ) : List τ → σ → List τ → List τ → List τ → σ → Prop
  | nil (queue : List τ) (world : σ) : Runs body queue world [] [] queue world
  | cons {task : τ} {rest tasks ran submitted queue : List τ} {world next last : σ}
      (htask : body task rest world = (tasks, next))
      (hrest : Runs body (rest ++ tasks) next ran submitted queue last) :
      Runs body (task :: rest) world (task :: ran) (tasks ++ submitted) queue last

/-- The first tasks of the queue, one after the other, `k` of them if the queue lasts, with
their number. -/
def runUpTo (body : Body σ τ) : ℕ → Loop σ τ → Loop σ τ × ℕ
  | 0, s => (s, 0)
  | k + 1, s =>
    match s.task_queue_ with
    | [] => (s, 0)
    | task :: rest =>
      let x := runUpTo body k (Loop.run body task { s with task_queue_ := rest })
      (x.1, x.2 + 1)

section RunUpTo

variable (body : Body σ τ) {s : Loop σ τ}

theorem runUpTo_of_nil (k : ℕ) (h : s.task_queue_ = []) : runUpTo body k s = (s, 0) := by
  cases k with
  | zero => rfl
  | succ k => rw [runUpTo, h]

theorem runUpTo_of_cons (k : ℕ) {task : τ} {rest : List τ} (h : s.task_queue_ = task :: rest) :
    runUpTo body (k + 1) s =
      ((runUpTo body k (Loop.run body task { s with task_queue_ := rest })).1,
        (runUpTo body k (Loop.run body task { s with task_queue_ := rest })).2 + 1) := by
  rw [runUpTo, h]

theorem runUpTo_le (k : ℕ) (s : Loop σ τ) : (runUpTo body k s).2 ≤ k := by
  induction k generalizing s with
  | zero => exact Nat.le_refl 0
  | succ k ih =>
    cases hq : s.task_queue_ with
    | nil =>
      rw [runUpTo_of_nil body _ hq]
      exact Nat.zero_le _
    | cons task rest =>
      rw [runUpTo_of_cons body k hq]
      exact Nat.succ_le_succ (ih _)

end RunUpTo

/-! ## What the loop counts -/

section Count

variable (body : Body σ τ)

/-- The loop has run `runUpTo` when it is left, and its count is one too high. -/
theorem RunWithin_eq (limit : UInt64) {bound : ℕ} {count : UInt64} (s : Loop σ τ)
    (hcount : count.toNat ≤ limit.toNat) (hbound : limit.toNat - count.toNat < bound) :
    RunWithin body limit bound count s =
      some ((runUpTo body (limit.toNat - count.toNat) s).1,
        count + UInt64.ofNat (runUpTo body (limit.toNat - count.toNat) s).2 + 1) := by
  induction bound generalizing count s with
  | zero => exact absurd hbound (Nat.not_lt_zero _)
  | succ bound ih =>
    have hlimit := limit.toNat_lt
    by_cases hlt : count < limit
    · have hlt' : count.toNat < limit.toNat := UInt64.lt_iff_toNat_lt.mp hlt
      have hnext : (count + 1).toNat = count.toNat + 1 := by
        rw [UInt64.toNat_add, UInt64.toNat_one]
        exact Nat.mod_eq_of_lt (by omega)
      have hsub : limit.toNat - count.toNat = limit.toNat - (count + 1).toNat + 1 := by omega
      cases hq : s.task_queue_ with
      | nil =>
        rw [RunWithin, if_pos hlt, hq, runUpTo_of_nil body _ hq]
        dsimp only
        rw [show UInt64.ofNat 0 = 0 from rfl, UInt64.add_zero]
      | cons task rest =>
        rw [RunWithin, if_pos hlt, hq]
        dsimp only
        rw [ih _ (by omega) (by omega), hsub, runUpTo_of_cons body _ hq]
        dsimp only
        rw [UInt64.ofNat_add, UInt64.add_assoc count, UInt64.add_comm (UInt64.ofNat _)]
        rfl
    · have hge : limit.toNat ≤ count.toNat := by
        rw [UInt64.lt_iff_toNat_lt] at hlt
        omega
      rw [RunWithin, if_neg hlt, Nat.sub_eq_zero_of_le hge, runUpTo]
      dsimp only
      rw [show UInt64.ofNat 0 = 0 from rfl, UInt64.add_zero]

/-- `RunAtMostTasks` returns, and what it returns is the number of tasks. -/
theorem RunAtMostTasks_eq (limit : UInt64) (s : Loop σ τ) :
    RunAtMostTasks body limit s = some ((runUpTo body limit.toNat s).1,
      UInt64.ofNat (runUpTo body limit.toNat s).2) := by
  rw [RunAtMostTasks,
    RunWithin_eq body limit s (Nat.zero_le _) (Nat.lt_succ_of_le (Nat.sub_le _ _))]
  simp only [UInt64.toNat_zero, Nat.sub_zero, UInt64.zero_add, Option.map_some,
    UInt64.add_sub_cancel]

/-- The number is below `2 ^ 64`, as the limit is. -/
theorem toNat_ofNat_runUpTo (limit : UInt64) (s : Loop σ τ) :
    (UInt64.ofNat (runUpTo body limit.toNat s).2).toNat = (runUpTo body limit.toNat s).2 := by
  have hle := runUpTo_le body limit.toNat s
  have hlt := limit.toNat_lt
  exact UInt64.toNat_ofNat_of_lt' (Nat.lt_of_le_of_lt hle hlt)

end Count

/-! ## The runtime's loop -/

theorem exec_submits (tasks : List τ) (st : Sandbox.State τ) (h : st.loopPc.mayCall = true) :
    (Sandbox.machine τ).exec (tasks.map .submit) st =
      some { st with task_queue_ := st.task_queue_ ++ tasks } := by
  induction tasks generalizing st with
  | nil => rw [List.map_nil, Machine.exec_nil, List.append_nil]
  | cons task tasks ih =>
    have hstep : (Sandbox.machine τ).step (.submit task) st =
        some { st with task_queue_ := st.task_queue_ ++ [task] } := if_pos h
    rw [List.map_cons, Machine.exec_cons, hstep, Option.bind_some]
    refine (ih { st with task_queue_ := st.task_queue_ ++ [task] } h).trans ?_
    simp only [List.append_assoc, List.singleton_append]

/-- The steps of `Sandbox` while the tasks submit and do nothing else: from a loop test on, the
loop runs the tasks of `runUpTo` and leaves their number. -/
theorem exec_loop (body : Body σ τ) {k count limit : ℕ} (hk : limit - count = k)
    (st : Sandbox.State τ) (s : Loop σ τ) (hqueue : st.task_queue_ = s.task_queue_)
    (hpc : st.loopPc = .test count limit) :
    ∃ as, (Sandbox.machine τ).exec as st = some { st with
      task_queue_ := (runUpTo body k s).1.task_queue_
      loopPc := .idle
      result := count + (runUpTo body k s).2 } := by
  induction k generalizing count st s with
  | zero =>
    refine ⟨[.loop], ?_⟩
    simp only [Machine.exec_cons, Machine.exec_nil, Sandbox.machine, Sandbox.step, hpc,
      Sandbox.testSection, runUpTo]
    rw [if_neg (by omega), ← hqueue]
    rfl
  | succ k ih =>
    have hlt : count < limit := by omega
    cases hq : s.task_queue_ with
    | nil =>
      refine ⟨[.loop], ?_⟩
      rw [runUpTo_of_nil body _ hq]
      simp only [Machine.exec_cons, Machine.exec_nil, Sandbox.machine, Sandbox.step, hpc,
        Sandbox.testSection, hqueue, hq]
      rw [if_pos hlt]
      rfl
    | cons task rest =>
      have hrun : (Loop.run body task { s with task_queue_ := rest }).task_queue_ =
          rest ++ (body task rest s.world).1 := by
        simp only [Loop.run, foldl_Submit]
      have hk' : limit - (count + 1) = k := by omega
      obtain ⟨as, hexec⟩ := ih hk'
        { st with
          task_queue_ := rest ++ (body task rest s.world).1
          loopPc := .test (count + 1) limit }
        (Loop.run body task { s with task_queue_ := rest }) hrun.symm rfl
      -- the loop test takes the task, the task submits, and its body ends
      refine ⟨.loop :: ((body task rest s.world).1.map .submit ++ .bodyDone :: as), ?_⟩
      have hloop : (Sandbox.machine τ).step .loop st = some { st with
          task_queue_ := rest
          loopPc := .body (count + 1) limit } := by
        simp only [Sandbox.machine, Sandbox.step, hpc, Sandbox.testSection, hqueue, hq]
        rw [if_pos hlt]
      rw [Machine.exec_cons, hloop, Option.bind_some, Machine.exec_append, exec_submits _ _ rfl,
        Option.bind_some, Machine.exec_cons, runUpTo_of_cons body k hq]
      refine hexec.trans ?_
      dsimp only
      rw [Nat.add_right_comm]
      rfl

/-- A call of `RunAtMostTasks` is a run of the runtime's loop, task by task. -/
theorem sandbox_runs (body : Body σ τ) (limit : UInt64) (st : Sandbox.State τ) (s : Loop σ τ)
    (hqueue : st.task_queue_ = s.task_queue_) (hidle : st.loopPc = .idle) :
    ∃ s' count as, RunAtMostTasks body limit s = some (s', count) ∧
      (Sandbox.machine τ).exec (.runAtMost limit.toNat :: as) st = some { st with
        task_queue_ := s'.task_queue_
        result := count.toNat } := by
  have hk : limit.toNat - 0 = limit.toNat := Nat.sub_zero _
  obtain ⟨as, hexec⟩ := exec_loop body hk { st with loopPc := .test 0 limit.toNat } s hqueue rfl
  refine ⟨_, _, as, RunAtMostTasks_eq body limit s, ?_⟩
  have hcall : (Sandbox.machine τ).step (.runAtMost limit.toNat) st =
      some { st with loopPc := .test 0 limit.toNat } := by
    simp only [Sandbox.machine, Sandbox.step, hidle]
  rw [Machine.exec_cons, hcall, Option.bind_some, hexec, toNat_ofNat_runUpTo]
  simp only [Nat.zero_add, ← hidle]

/-! ## The calls -/

/-- Task 3 submits 5 and 4; with the limit 3 only 5 of these is run. -/
example : RunAtMostTasks (fun task _ (_ : Unit) => (if task = 3 then [5, 4] else [], ())) 3
    ⟨[3, 7], (), [], []⟩ = some (⟨[4], (), [3, 7, 5], [5, 4]⟩, 3) := rfl

end Exe.ManualLoop
