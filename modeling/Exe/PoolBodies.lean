/-
When a worker of the pool is inside the body of a task.

`Run` of a task begins with one kind of step, on a worker that is inside no task, and ends
with another. In between the worker may be in `Push`, for what the task submits. The layers
above the pool say what goes on inside the bodies; here is what they need to know of it
(`begins_workerStep`, `keeps_effect`), and that nothing is left to begin where all workers
sleep, or have returned after a timely `Stop`.
-/
import Exe.PoolStop
import Exe.PoolWakeups

set_option autoImplicit false

namespace Exe.Pool

variable {n k : ℕ} {capacity : ℕ} {τ : Type*}

/-- The task whose `Run` begins when a worker goes from `pc` to `pc'`. -/
def begun (pc pc' : Pc n τ) : Option τ :=
  match pc, pc' with
  | .shouldWake (.work _), .running next => some next
  | .wakeWorker (.work _), .running next => some next
  | _, _ => none

/-- The worker is in the body of the task, and not in a `Submit` that it has called. -/
def isRunning : Pc n τ → Bool
  | .running _ => true
  | _ => false

/-! ## Inside a task -/

def callerTask : Caller τ → Option τ
  | .getFromBuffer _ _ _ => none
  | .push cur => some cur

def notifierTask : AfterNotify τ → Option τ
  | .offload c => callerTask c
  | .push cur => some cur
  | .work _ => none

/-- The task whose `Run` has begun and has not returned. -/
def current : Pc n τ → Option τ
  | .running cur => some cur
  | .pushLocal c _ _ => callerTask c
  | .offload c _ _ => callerTask c
  | .pushMany c _ => callerTask c
  | .shouldWake c => notifierTask c
  | .wakeWorker c => notifierTask c
  | .pushGlobal cur _ => some cur
  | _ => none

theorem current_of_isRunning {pc : Pc n τ} (h : isRunning pc = true) : current pc ≠ none := by
  cases pc with
  | running cur => exact Option.some_ne_none cur
  | _ => cases h

theorem current_found (scan : Scan) (task : τ) : current (found scan task : Pc n τ) = none := by
  cases scan <;> rfl

theorem current_notFound (scan : Scan) : current (notFound scan : Pc n τ) = none := by
  cases scan <;> rfl

theorem current_getFromBuffer (scan : Scan) (task : τ) (rest : List τ) :
    current (getFromBuffer scan task rest : Pc n τ) = none := by
  cases rest with
  | nil => exact current_found scan task
  | cons next rest => rfl

theorem current_stealFrom (scan : Scan) (l : List (Fin n)) :
    current (stealFrom scan l : Pc n τ) = none := by
  cases l with
  | nil => exact current_notFound scan
  | cons v l => rfl

theorem current_afterGrab (w : Fin n) (scan : Scan) :
    current (afterGrab w scan : Pc n τ) = none := by
  cases scan with
  | starvation => rfl
  | first => exact current_stealFrom _ _
  | second e => exact current_stealFrom _ _

theorem current_resume (c : Caller τ) : current (c.resume : Pc n τ) = callerTask c := by
  cases c with
  | getFromBuffer scan task rest => exact current_getFromBuffer scan task rest
  | push cur => rfl

theorem current_woken (pc : Pc n τ) : current pc.woken = current pc := by
  cases pc <;> rfl

theorem current_wakeWorker (s : State n k τ) (v : Fin n) :
    current (s.wakeWorker.pc v) = current (s.pc v) := by
  obtain he | ⟨⟨e, he⟩, he'⟩ := wakeWorker_pc s v
  · rw [he]
  · rw [he, he']
    rfl

/-- What a step of worker `w` does about the bodies of tasks: it begins `task`, or none. -/
structure Begins (w : Fin n) (s s' : State n k τ) (task : Option τ) : Prop where
  begun : begun (s.pc w) (s'.pc w) = task
  ran : s'.ran = ↑task.toList + s.ran
  self : current (s'.pc w) = task.or (current (s.pc w))
  free : task ≠ none → current (s.pc w) = none
  other : ∀ v, v ≠ w → current (s'.pc v) = current (s.pc v)

section Begins

variable {s t s' : State n k τ} {w : Fin n} {pc pc' : Pc n τ}

/-- The worker goes on, inside the same task or outside of any. -/
theorem Begins.move (hpc : s.pc w = pc)
    (hother : ∀ v, v ≠ w → current (t.pc v) = current (s.pc v)) (hran : t.ran = s.ran)
    (hbegun : Pool.begun pc pc' = none) (hself : current pc' = current pc) :
    ∃ task, Begins w s (t.setPc w pc') task := by
  refine ⟨none, ?_, ?_, ?_, fun h => absurd rfl h, fun v hv => ?_⟩
  · rw [setPc_pc_self, hpc, hbegun]
  · change t.ran = _
    rw [hran, Option.toList_none, Multiset.coe_nil, zero_add]
  · rw [setPc_pc_self, hself, hpc, Option.none_or]
  · rw [setPc_pc_of_ne _ _ hv, hother v hv]

theorem Begins.setPc (hpc : s.pc w = pc) (hbegun : Pool.begun pc pc' = none)
    (hself : current pc' = current pc) : ∃ task, Begins w s (s.setPc w pc') task :=
  Begins.move hpc (fun _ _ => rfl) rfl hbegun hself

/-- `NotifyOnSubmit` returns: only to `Work` it returns to begin a task. -/
theorem Begins.notified {c : AfterNotify τ}
    (hpc : s.pc w = .shouldWake c ∨ s.pc w = .wakeWorker c)
    (hother : ∀ v, v ≠ w → current (t.pc v) = current (s.pc v)) (hran : t.ran = s.ran) :
    ∃ task, Begins w s (t.notified w c) task := by
  rw [notified_eq]
  have hin : current (s.pc w) = notifierTask c := by
    obtain hpc | hpc := hpc <;> rw [hpc] <;> rfl
  cases c with
  | offload c =>
    refine Begins.move rfl hother ((zero_add _).trans hran) ?_ ?_
    · obtain hpc | hpc := hpc <;> rw [hpc] <;> rfl
    · rw [hin]
      exact current_resume c
  | push cur =>
    refine Begins.move rfl hother ((zero_add _).trans hran) ?_ ?_
    · obtain hpc | hpc := hpc <;> rw [hpc] <;> rfl
    · rw [hin]
      rfl
  | work next =>
    refine ⟨some next, ?_, ?_, ?_, fun _ => hin, fun v hv => ?_⟩
    · rw [setPc_pc_self]
      obtain hpc | hpc := hpc <;> rw [hpc] <;> rfl
    · rw [← hran]
      rfl
    · rw [setPc_pc_self]
      rfl
    · rw [setPc_pc_of_ne _ _ hv]
      exact hother v hv

theorem begins_workerStep (hw : WorkerStep capacity w s s') : ∃ task, Begins w s s' task := by
  have hsame : ∀ v, v ≠ w → current (s.pc v) = current (s.pc v) := fun _ _ => rfl
  cases hw with
  | pickTask hpc => exact Begins.move hpc hsame rfl rfl (by split <;> rfl)
  | lifoTake hpc hfilo hslot => exact Begins.move hpc hsame rfl rfl (current_found _ _)
  | lifoSkip hpc hslot => exact Begins.move hpc hsame rfl rfl rfl
  | popMove hpc hv => exact Begins.setPc hpc rfl rfl
  | popTake hpc hq => exact Begins.move hpc hsame rfl rfl (current_found _ _)
  | popEmpty hpc hempty => exact Begins.setPc hpc rfl rfl
  | grabNone hpc hempty => exact Begins.setPc hpc rfl (current_afterGrab _ _)
  | grabSome hpc hg => exact Begins.move hpc hsame rfl rfl (current_getFromBuffer _ _ _)
  | stealMove hpc hv hempty => exact Begins.setPc hpc rfl rfl
  | stealNone hpc => exact Begins.setPc hpc rfl (current_stealFrom _ _)
  | stealSome hpc hq => exact Begins.move hpc hsame rfl rfl (current_getFromBuffer _ _ _)
  | pushMove hpc hq hv => exact Begins.move hpc hsame rfl rfl rfl
  | pushDone hpc hq => exact Begins.move hpc hsame rfl rfl (current_resume _)
  | pushRefused hpc => exact Begins.setPc hpc rfl rfl
  | offloadMove hpc hv => exact Begins.setPc hpc rfl rfl
  | offloadTake hpc hq => exact Begins.move hpc hsame rfl rfl rfl
  | pushMany hpc => exact Begins.move hpc hsame rfl rfl rfl
  | @shouldWakeYes c hpc hsize => exact Begins.setPc hpc (by cases c <;> rfl) rfl
  | shouldWakeNo hpc hsize => exact Begins.notified (.inl hpc) hsame rfl
  | wakeWorker hpc =>
    exact Begins.notified (.inr hpc) (fun v _ => current_wakeWorker s v)
      (by rw [wakeWorker_frame])
  | loadWakeups hpc => exact Begins.setPc hpc rfl rfl
  | addStopped hpc =>
    refine Begins.move hpc (fun v _ => ?_) ?_ rfl rfl <;>
      unfold State.addStoppedWorker <;> split <;> rfl
  | unlinkFound hpc => exact Begins.move hpc hsame rfl rfl rfl
  | checkStopYes hpc hstop => exact Begins.setPc hpc rfl rfl
  | checkStopNo hpc hstop => exact Begins.setPc hpc rfl rfl
  | unlinkStopped hpc => exact Begins.move hpc hsame rfl rfl rfl
  | waitSleep hpc he => exact Begins.setPc hpc rfl rfl
  | waitPass hpc he => exact Begins.setPc hpc rfl rfl
  | unlinkWoken hpc => exact Begins.move hpc hsame rfl rfl rfl
  | pushGlobal hpc => exact Begins.move hpc hsame rfl rfl rfl

end Begins

/-- What the other steps of the pool do about the bodies of tasks. Only `bodySubmit` and
`bodyDone` are steps of a task, and only `bodyDone` leaves it. -/
structure Keeps (a : Action n k τ) (s s' : State n k τ) : Prop where
  ran : s'.ran = s.ran
  current : ∀ v, current (s'.pc v) = current (s.pc v) ∨
    a = .bodyDone v ∧ current (s'.pc v) = none

theorem keeps_effect {a : Action n k τ} {s s' : State n k τ}
    (he : Effect capacity s a s') (ha : ∀ w weak, a ≠ .work w weak) : Keeps a s s' := by
  have hset : ∀ (t : State n k τ) {w : Fin n} {pc pc' : Pc n τ},
      s.pc w = pc → t.pc = s.pc → Pool.current pc' = Pool.current pc → t.ran = s.ran →
      Keeps a s (t.setPc w pc') := by
    intro t w pc pc' hpc ht hin hran
    refine ⟨hran, fun v => .inl ?_⟩
    by_cases hv : v = w
    · subst hv
      rw [setPc_pc_self, hpc, hin]
    · rw [setPc_pc_of_ne _ _ hv, ht]
  cases he with
  | @work w weak _ h => exact absurd rfl (ha w weak)
  | spurious hpc => exact hset _ hpc rfl rfl rfl
  | bodyLocal hpc => exact hset _ hpc rfl rfl rfl
  | bodySlot hpc hslot => exact hset _ hpc rfl rfl rfl
  | bodyEvict hpc hslot => exact hset _ hpc rfl rfl rfl
  | bodyGlobal hpc => exact hset _ hpc rfl rfl rfl
  | @bodyDone w _ hpc =>
    refine ⟨rfl, fun v => ?_⟩
    by_cases hv : v = w
    · subst hv
      exact .inr ⟨rfl, by rw [setPc_pc_self]; rfl⟩
    · exact .inl (by rw [setPc_pc_of_ne _ _ hv])
  | outsideWake hi =>
    exact ⟨by rw [wakeWorker_frame], fun v => .inl (current_wakeWorker s v)⟩
  | @stopWake w _ hs =>
    rw [wakeOne_eq]
    have hwoken := hset s (w := w) rfl rfl (current_woken _) rfl
    exact ⟨hwoken.ran, hwoken.current⟩
  | _ => exact ⟨rfl, fun v => .inl rfl⟩

/-! ## The account of whole tasks -/

/-- The tasks the workers are inside of. -/
def State.bodies (s : State n k τ) : Multiset τ := ∑ w, ↑(current (s.pc w)).toList

theorem mem_bodies {s : State n k τ} {task : τ} :
    task ∈ s.bodies ↔ ∃ w, current (s.pc w) = some task := by
  rw [State.bodies, Multiset.mem_sum]
  simp only [Finset.mem_univ, true_and, Multiset.mem_coe, Option.mem_toList]

theorem bodies_add {s s' : State n k τ} {w : Fin n}
    (hother : ∀ v, v ≠ w → current (s'.pc v) = current (s.pc v)) :
    s'.bodies + ↑(current (s.pc w)).toList = s.bodies + ↑(current (s'.pc w)).toList :=
  sum_add_of_eq_off (f := fun v => (↑(current (s.pc v)).toList : Multiset τ))
    (g := fun v => ↑(current (s'.pc v)).toList) w fun v hv => by rw [hother v hv]

/-- What has been accepted is queued, then a worker is inside of it, and when the worker has
left it, it is gone. -/
theorem whole_account {a : Action n k τ} {s s' : State n k τ} (hqs : Queues capacity s)
    (he : Effect capacity s a s') : ∃ ended : Multiset τ,
      s'.placed capacity + s'.bodies + ended = a.accepted + s.placed capacity + s.bodies ∧
      (ended = 0 ∨ ∃ w cur, a = .bodyDone w ∧ s.pc w = .running cur ∧ ended = {cur}) := by
  obtain ⟨started, hran, -, hplaced⟩ := accounting hqs he
  by_cases hwork : ∃ w weak, a = .work w weak
  · obtain ⟨w, weak, rfl⟩ := hwork
    obtain ⟨task, hb⟩ : ∃ task, Begins w s s' task := by
      cases he with
      | work hw => exact begins_workerStep hw
    have hstarted : started = ↑task.toList := by
      have hran' := hb.ran
      rw [hran] at hran'
      exact add_right_cancel hran'
    have hbodies := bodies_add hb.other
    refine ⟨0, ?_, .inl rfl⟩
    rw [← hplaced, hstarted, add_zero]
    cases task with
    | none =>
      rw [hb.self, Option.none_or] at hbodies
      rw [add_right_cancel hbodies, Option.toList_none, Multiset.coe_nil, add_zero]
    | some task =>
      rw [hb.self, hb.free (Option.some_ne_none task), Option.toList_none, Multiset.coe_nil,
        add_zero, Option.some_or] at hbodies
      rw [hbodies]
      ac_rfl
  · have hkeeps := keeps_effect he fun w weak h => hwork ⟨w, weak, h⟩
    have hstarted : started = 0 := by
      have hran' := hkeeps.ran
      rw [hran] at hran'
      exact right_eq_add.mp hran'.symm
    rw [hstarted, add_zero] at hplaced
    by_cases hdone : ∃ w, a = .bodyDone w
    · obtain ⟨w, rfl⟩ := hdone
      cases he with
      | @bodyDone w cur hpc =>
        have hbodies : (s.setPc w .pickTask).bodies + ↑(current (s.pc w)).toList =
            s.bodies + ↑(current ((s.setPc w .pickTask).pc w)).toList :=
          bodies_add fun v hv => by rw [setPc_pc_of_ne _ _ hv]
        rw [hpc, setPc_pc_self] at hbodies
        refine ⟨{cur}, ?_, .inr ⟨w, cur, rfl, hpc, rfl⟩⟩
        rw [hplaced, ← add_zero s.bodies]
        exact (add_assoc _ _ _).trans (congrArg _ hbodies)
    · have hsame : s'.bodies = s.bodies := by
        refine Finset.sum_congr rfl fun v _ => ?_
        obtain hv | ⟨hv, -⟩ := hkeeps.current v
        · rw [hv]
        · exact absurd ⟨v, hv⟩ hdone
      exact ⟨0, by rw [hplaced, hsame, add_zero], .inl rfl⟩

/-! ## When nothing is left to begin -/

/-- Where all workers sleep, none of the pool's queues holds a task. -/
theorem placed_of_asleep {pool : State n k τ} {C}
    (hs : (machine n k τ capacity).ReachableVia C pool) (hn : 0 < n)
    (hstop : pool.stopPc = .notStarted) (hparks : pool.parks < u64Mod)
    (hout : ∀ i, pool.outside i = .idle) (hsleep : ∀ w, Sleeping pool w) :
    pool.placed capacity = 0 := by
  have hpark := parking_of_reachable hs
  have hquiet : Quiescent pool := ⟨hout, fun w => .inr (hsleep w)⟩
  have hne : pool.stopped_ ≠ [] := by
    obtain ⟨e, hpc, -⟩ := hsleep ⟨0, hn⟩
    obtain ⟨hl, -⟩ | ⟨rest, hr⟩ := hpark.asleep _ e hpc
    · exact List.ne_nil_of_mem hl
    · rw [hstop] at hr
      cases hr
  have hempty : ∀ L, pool.tasksAt capacity L = [] := by
    intro L
    by_contra hL
    exact hquiet.not_watches hpark hstop L (watched_of_reachable hs hstop hparks L hL hne)
  have howned : ∀ w, pool.owned capacity w = 0 := by
    intro w
    obtain ⟨e, hpc, -⟩ := hsleep w
    have hslot : pool.lifo_slot_ w = none := by
      have h := slots_of_reachable hs w
      rwa [hpc] at h
    have hlocal : (pool.local_queue_ w).contents capacity = [] := hempty (.local w)
    rw [State.owned, hslot, hlocal, hpc]
    rfl
  have hglobal : pool.global_queue_ = [] := hempty .global
  rw [State.placed, hglobal, Finset.sum_eq_zero fun w _ => howned w,
    Finset.sum_eq_zero fun i _ => by rw [hout i]; rfl]
  rfl

/-- After a timely `Stop` nothing is left either. -/
theorem placed_of_returned {pool : State n k τ} (hn : 0 < n)
    (hs : (machine n k τ capacity).ReachableVia
      (fun b pool => OutsideFirst b pool ∧ StopsInTime b pool) pool)
    (hret : ∀ w, pool.pc w = .returned) : pool.placed capacity = 0 := by
  have hempty := empty_of_returned (fun _ _ h => h) (drainSafe_of_inTime hn hs) hret
  have hstart : pool.stopPc.started = true := by
    have hflag := (parking_of_reachable hs).toFlag_eq_nil hret
    cases hstop : pool.stopPc with
    | notStarted =>
      rw [hstop] at hflag
      have hnil := List.finRange_eq_nil_iff.mp hflag
      omega
    | _ => rfl
  rw [hempty.placed_eq hret]
  refine Finset.sum_eq_zero fun i _ => ?_
  rw [outside_idle_of_reachable (fun _ _ h => h.1) hs hstart i]
  rfl

/-- The pool has nothing to do: before `Stop`, and with fewer than `2 ^ 64` parks so far, every
worker sleeps and nobody is in `Submit`, or every worker has returned, where no outside `Submit`
overlapped `Stop` and `Stop` stored its last flag in time. -/
inductive AtRest (capacity : ℕ) (s : State n k τ) : Prop
  | asleep (hstop : s.stopPc = .notStarted) (hparks : s.parks < u64Mod)
    (hout : ∀ i, s.outside i = .idle) (hsleep : ∀ w, Sleeping s w)
  | stopped (hvia : (machine n k τ capacity).ReachableVia
      (fun b pool => OutsideFirst b pool ∧ StopsInTime b pool) s)
    (hret : ∀ w, s.pc w = .returned)

theorem AtRest.placed {s : State n k τ} {C} (h : AtRest capacity s)
    (hs : (machine n k τ capacity).ReachableVia C s) (hn : 0 < n) : s.placed capacity = 0 := by
  cases h with
  | asleep hstop hparks hout hsleep => exact placed_of_asleep hs hn hstop hparks hout hsleep
  | stopped hvia hret => exact placed_of_returned hn hvia hret

theorem AtRest.current {s : State n k τ} (h : AtRest capacity s) (w : Fin n) :
    current (s.pc w) = none := by
  cases h with
  | asleep hstop hparks hout hsleep =>
    obtain ⟨e, hpc, -⟩ := hsleep w
    rw [hpc]
    rfl
  | stopped hvia hret =>
    rw [hret w]
    rfl

theorem AtRest.bodies {s : State n k τ} (h : AtRest capacity s) : s.bodies = 0 := by
  refine Finset.sum_eq_zero fun w _ => ?_
  rw [h.current w]
  rfl

end Exe.Pool
