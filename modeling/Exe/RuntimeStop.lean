/-
`Runtime::Stop` and the timers.

`v1::Runtime` and `v2::Runtime` as instances of the runtime. In both, everything
that was submitted, and every timer, has been run when `Stop` returns, if the
timer thread makes its submissions in time: while a worker of `v1` is still in
its loop, and while a worker of `v2` still has to poll the global queue. Nothing
in `Stop` sees to that. It joins the workers before it closes the timer queue, so
a timer that is pending then is submitted to a pool without workers, and it is
lost.
-/
import Exe.Runtime
import Exe.ThreadPool
import Exe.PoolStop

set_option autoImplicit false

/-! ## `v1::ThreadPool` -/

namespace Exe.Runtime

open Detail

variable {n : ℕ} {τ : Type*}

/-- The timer thread is one more thread that calls `Push`, and a `Push` is one
step. -/
def v1 (n : ℕ) (τ : Type*) :
    TaskPool (ThreadPool.State n τ) (ThreadPool.Action n τ) (Option (Fin n)) τ where
  machine := ThreadPool.machine n τ
  submit choice timer := .submit timer choice
  isStop
    | .stop => true
    | _ => false
  isOwn
    | .stop => false
    | _ => true
  isUser
    | .submit _ _ => true
    | _ => false
  busy _ := false
  usersIdle _ := true
  started s := decide (s.stopPc ≠ .notStarted)
  stopped s := decide (s.stopPc = .returned)
  running s := decide (∃ w, (s.worker w).isRunning = true)
  accepted a := a.accepted
  submitted s := s.pushed
  ran s := s.taken
  submitted_init s hinit := by
    subst hinit
    rfl
  submitted_step a s s' _ hst := by
    rw [(ThreadPool.step_frame hst).2, Multiset.coe_add]
    exact Multiset.coe_eq_coe.mpr List.perm_append_comm
  stop_not_user a ha := by cases a <;> first | rfl | cases ha
  accepted_submit _ _ := rfl
  accepted_stop a ha := by cases a <;> first | rfl | cases ha
  busy_init _ _ := rfl
  busy_step _ _ _ _ _ _ hb := by cases hb
  usersIdle_step _ _ _ _ _ _ _ := rfl
  started_init s hinit := by
    subst hinit
    rfl
  started_step a s s' ha _ hst hs' := by
    have hframe := (ThreadPool.step_frame hst).1.resolve_left (by
      rintro rfl
      rcases ha with ha | ⟨_, _, ha⟩ <;> cases ha)
    rwa [hframe] at hs'
  stopped_step a s s' _ hst hs := by
    rw [decide_eq_true_eq] at hs ⊢
    rcases (ThreadPool.step_frame hst).1 with rfl | hframe
    · change ThreadPool.Stop s = some s' at hst
      rw [ThreadPool.Stop, hs] at hst
      cases hst
    · rw [hframe, hs]
  not_running s hs hret := by
    rw [decide_eq_true_eq] at hret
    rw [decide_eq_false_iff_not]
    rintro ⟨w, hw⟩
    have hex := (ThreadPool.leaving_of_reachable hs).returned hret w
    rw [ThreadPool.isExited_of_isRunning hw] at hex
    cases hex

/-- The timer thread submits to `v1` while some worker has not left its loop. -/
def v1InTime (a : Action (ThreadPool.Action n τ) (Option (Fin n)) τ)
    (s : State (ThreadPool.State n τ) τ) : Prop :=
  match a with
  | .submit _ => ∃ w, (s.tasks_.worker w).isExited = false
  | _ => True

instance (a : Action (ThreadPool.Action n τ) (Option (Fin n)) τ)
    (s : State (ThreadPool.State n τ) τ) : Decidable (v1InTime a s) :=
  match a with
  | .submit _ => inferInstanceAs (Decidable (∃ _, _))
  | .pool _ => .isTrue trivial
  | .set _ _ _ => .isTrue trivial
  | .timer _ => .isTrue trivial
  | .spurious => .isTrue trivial
  | .stop => .isTrue trivial
  | .stopPool _ => .isTrue trivial

/-- Then everything is pushed in time: the users push before `Stop` has begun, and
no worker leaves before. -/
theorem v1_within (hn : 0 < n) {a : Action (ThreadPool.Action n τ) (Option (Fin n)) τ}
    {s : State (ThreadPool.State n τ) τ} (hs : (machine (v1 n τ)).Reachable s)
    (hfirst : UsersFirst (v1 n τ) a s) (htime : v1InTime a s) :
    Within (v1 n τ) ThreadPool.InTime a s := by
  cases a with
  | pool a =>
    intro _
    cases a with
    | submit task choice =>
      have hnot := (inv_of_reachable hs).notStarted (hfirst rfl)
      have hreach := tasks_reachable (fun a s _ _ => within_true a s) hs
      have hl := ThreadPool.leaving_of_reachable hreach
      refine ⟨⟨0, hn⟩, Bool.eq_false_iff.mpr fun hex => ?_⟩
      exact hl.closed (hl.exited _ hex) (by simpa [v1] using hnot)
    | _ => trivial
  | submit k => exact fun _ _ => htime
  | stopPool a =>
    intro hstop
    cases a with
    | stop => trivial
    | _ => cases hstop
  | _ => trivial

/-! ## `v2::ThreadPool` -/

end Exe.Runtime

namespace Exe.Pool

open Function (update)

variable {n m : ℕ} {τ : Type*} {capacity : ℕ}

/-- Only `Stop` moves `Stop`. -/
theorem Effect.stopPc {s s' : State n m τ} {a : Action n m τ} (h : Effect capacity s a s')
    (ha : a ≠ .stop) : s'.stopPc = s.stopPc := by
  cases h with
  | work hw => exact hw.frame.2
  | outsideWake hi => rw [wakeWorker_frame]
  | stopStart hs => exact absurd rfl ha
  | stopFlag hs => exact absurd rfl ha
  | stopFetchAdd hs => exact absurd rfl ha
  | stopWake hs => exact absurd rfl ha
  | stopJoin hs hret => exact absurd rfl ha
  | _ => rfl

/-- A thread outside the pool enters `Submit` only by its own call. -/
theorem Effect.outside_idle {s s' : State n m τ} {a : Action n m τ} {i : Fin m}
    (h : Effect capacity s a s') (ha : ∀ task, a ≠ .submit i task) (hi : s.outside i = .idle) :
    s'.outside i = .idle := by
  have hne : ∀ {j : Fin m} {o : Outside τ}, s.outside j = o → o ≠ .idle → i ≠ j := by
    rintro j o ho hidle rfl
    exact hidle (ho.symm.trans hi)
  cases h with
  | work hw => rw [hw.frame.1, hi]
  | @submit j task hj =>
    have hij : i ≠ j := by
      rintro rfl
      exact ha task rfl
    simp [hij, hi]
  | outsidePush hj => simp [hne hj, hi]
  | outsideYes hj hsize => simp [hne hj, hi]
  | outsideNo hj hsize => simp [hne hj, hi]
  | outsideWake hj =>
    rw [wakeWorker_frame]
    simp [hne hj, hi]
  | stopWake hs =>
    rw [wakeOne_eq]
    exact hi
  | _ => exact hi

theorem WorkerStep.returned {s s' : State n m τ} {v w : Fin n} (h : WorkerStep capacity v s s')
    (hw : s.pc w = .returned) : s'.pc w = .returned := by
  have hne : ∀ {pc : Pc n τ}, s.pc v = pc → pc ≠ .returned → w ≠ v := by
    rintro pc hpc hnr rfl
    exact hnr (hpc.symm.trans hw)
  have hset : ∀ {t : State n m τ} {pc pc' : Pc n τ}, t.pc = s.pc → s.pc v = pc →
      pc ≠ .returned → (t.setPc v pc').pc w = .returned := by
    intro t pc pc' ht hpc hnr
    rw [setPc_pc_of_ne _ _ (hne hpc hnr), ht, hw]
  cases h with
  | shouldWakeNo hpc hsize =>
    rw [notified_eq]
    exact hset rfl hpc (by simp)
  | wakeWorker hpc =>
    rw [notified_eq]
    have hwake : s.wakeWorker.pc w = .returned := by
      rcases wakeWorker_pc s w with he | ⟨⟨e, he⟩, -⟩
      · rw [he, hw]
      · rw [hw] at he
        cases he
    rw [setPc_pc_of_ne _ _ (hne hpc (by simp))]
    exact hwake
  | addStopped hpc =>
    unfold State.addStoppedWorker
    split <;> exact hset rfl hpc (by simp)
  | _ => exact hset rfl (by assumption) (by simp)

/-- A worker that has returned stays where it is. -/
theorem Effect.returned {s s' : State n m τ} {a : Action n m τ} {w : Fin n}
    (h : Effect capacity s a s') (hw : s.pc w = .returned) : s'.pc w = .returned := by
  have hset : ∀ {t : State n m τ} {v : Fin n} {pc pc' : Pc n τ}, t.pc = s.pc → s.pc v = pc →
      pc ≠ .returned → (t.setPc v pc').pc w = .returned := by
    intro t v pc pc' ht hpc hnr
    have hne : w ≠ v := by
      rintro rfl
      exact hnr (hpc.symm.trans hw)
    rw [setPc_pc_of_ne _ _ hne, ht, hw]
  have hwoken : ∀ {pc : Pc n τ}, pc = s.pc w ∨ ((∃ e, s.pc w = .asleep e) ∧ pc = .unlinkWoken) →
      pc = .returned := by
    rintro pc (he | ⟨⟨e, he⟩, -⟩)
    · rw [he, hw]
    · rw [hw] at he
      cases he
  cases h with
  | work h => exact h.returned hw
  | spurious hpc => exact hset rfl hpc (by simp)
  | bodyLocal hpc => exact hset rfl hpc (by simp)
  | bodySlot hpc hslot => exact hset rfl hpc (by simp)
  | bodyEvict hpc hslot => exact hset rfl hpc (by simp)
  | bodyGlobal hpc => exact hset rfl hpc (by simp)
  | bodyDone hpc => exact hset rfl hpc (by simp)
  | outsideWake hi => exact hwoken (wakeWorker_pc s w)
  | stopWake hs => exact hwoken (wakeOne_pc s _ w)
  | _ => exact hw

def Pc.isRunning : Pc n τ → Bool
  | .running _ => true
  | _ => false

def Outside.isPushing : Outside τ → Bool
  | .pushOne _ => true
  | _ => false

/-- `Stop` has stored all flags. -/
def StopPc.flagged (pc : StopPc n) : Bool := pc.toFlag.isEmpty

def StopPc.isReturned : StopPc n → Bool
  | .returned => true
  | _ => false

theorem stop_isReturned_iff {pc : StopPc n} : pc.isReturned = true ↔ pc = .returned := by
  cases pc <;> simp [StopPc.isReturned]

/-- `Stop` returns after all workers have, and stays so. -/
theorem returned_of_stop {C : Action n m τ → State n m τ → Prop} {s : State n m τ}
    (hs : (machine n m τ capacity).ReachableVia C s) (hstop : s.stopPc = .returned) (w : Fin n) :
    s.pc w = .returned := by
  revert hstop
  refine hs.invariant_of (I := fun s : State n m τ => s.stopPc = .returned → s.pc w = .returned)
    (fun h => queues_of_reachable h) (fun s hinit => ?_) fun a s s' hq _ h _ hst => ?_
  · obtain ⟨null, rfl⟩ := hinit
    exact fun he => by cases he
  · have he := step_cases hq hst
    by_cases ha : a = .stop
    · subst ha
      intro hstop
      cases he with
      | stopStart hs =>
        cases hl : List.finRange n <;> rw [hl] at hstop <;> cases hstop
      | stopFlag hs => cases hstop
      | stopFetchAdd hs => cases hstop
      | @stopWake v rest hs => cases rest <;> cases hstop
      | stopJoin hs hret => exact isReturned_iff.mp (hret w)
    · rw [he.stopPc ha]
      exact fun hstop => he.returned (h hstop)

end Exe.Pool

namespace Exe.Runtime

open Detail

variable {n k : ℕ} {τ : Type*} {capacity : ℕ}

/-- Outside thread `0` is the timer thread, and the `k` others are users. -/
def v2 (n k : ℕ) (τ : Type*) (capacity : ℕ) :
    TaskPool (Pool.State n (k + 1) τ) (Pool.Action n (k + 1) τ) Unit τ where
  machine := Pool.machine n (k + 1) τ capacity
  submit _ timer := .submit 0 timer
  isStop
    | .stop => true
    | _ => false
  isOwn
    | .stop => false
    | .submit i _ => decide (i ≠ 0)
    | _ => true
  isUser
    | .submit i _ => decide (i ≠ 0)
    | _ => false
  busy s := !(s.outside 0).isIdle
  usersIdle s := decide (∀ i, i ≠ 0 → (s.outside i).isIdle = true)
  started s := s.stopPc.started
  stopped s := s.stopPc.isReturned
  running s := decide (∃ w, (s.pc w).isRunning = true)
  accepted a := a.accepted
  submitted s := s.submitted
  ran s := s.ran
  submitted_init s hinit := by
    obtain ⟨null, rfl⟩ := hinit
    rfl
  submitted_step a s s' hs hst := by
    have hq := Pool.queues_of_reachable hs
    obtain ⟨-, -, hsub, -⟩ := Pool.accounting hq (Pool.step_cases hq hst)
    exact hsub
  stop_not_user a ha := by cases a <;> first | rfl | cases ha
  accepted_submit _ _ := rfl
  accepted_stop a ha := by cases a <;> first | rfl | cases ha
  busy_init s hinit := by
    obtain ⟨null, rfl⟩ := hinit
    rfl
  busy_step a s s' ha hs hst hb := by
    by_contra hidle
    have hi : s.outside 0 = .idle := Pool.isIdle_iff.mp (by simpa using hidle)
    have ha' : ∀ task, a ≠ .submit 0 task := by
      rintro task rfl
      rcases ha with ha | ha <;> cases ha
    have hi' := (Pool.step_cases (Pool.queues_of_reachable hs) hst).outside_idle ha' hi
    rw [hi'] at hb
    cases hb
  usersIdle_step a s s' ha hs hst hu := by
    rw [decide_eq_true_eq] at hu ⊢
    intro i hi
    have ha' : ∀ task, a ≠ .submit i task := by
      rintro task rfl
      rcases ha with ha | ⟨_, _, ha⟩
      · exact absurd hi (by simpa using ha)
      · cases ha
        exact hi rfl
    have hidle := Pool.isIdle_iff.mp (hu i hi)
    exact Pool.isIdle_iff.mpr
      ((Pool.step_cases (Pool.queues_of_reachable hs) hst).outside_idle ha' hidle)
  started_init s hinit := by
    obtain ⟨null, rfl⟩ := hinit
    rfl
  started_step a s s' ha hs hst hs' := by
    have hne : a ≠ .stop := by
      rintro rfl
      rcases ha with ha | ⟨_, _, ha⟩ <;> cases ha
    rwa [(Pool.step_cases (Pool.queues_of_reachable hs) hst).stopPc hne] at hs'
  stopped_step a s s' hs hst hret := by
    rw [Pool.stop_isReturned_iff] at hret ⊢
    by_cases ha : a = .stop
    · subst ha
      change Pool.stopStep s = some s' at hst
      rw [Pool.stopStep, hret] at hst
      cases hst
    · rw [(Pool.step_cases (Pool.queues_of_reachable hs) hst).stopPc ha, hret]
  not_running s hs hret := by
    rw [Pool.stop_isReturned_iff] at hret
    rw [decide_eq_false_iff_not]
    rintro ⟨w, hw⟩
    rw [Pool.returned_of_stop hs hret w] at hw
    cases hw

/-- `v2` stores its last stop flag in time, and after that the timer thread
pushes into the global queue while some worker has not made its last poll of
it. -/
def v2InTime (a : Action (Pool.Action n (k + 1) τ) Unit τ)
    (s : State (Pool.State n (k + 1) τ) τ) : Prop :=
  match a with
  | .stopPool a => Pool.StopsInTime a s.tasks_
  | .pool (.outside i) =>
    i = 0 → (s.tasks_.outside 0).isPushing = true → s.tasks_.stopPc.flagged = true →
      ∃ w, (s.tasks_.pc w).pastGlobal = false
  | _ => True

instance (a : Action (Pool.Action n (k + 1) τ) Unit τ)
    (s : State (Pool.State n (k + 1) τ) τ) : Decidable (v2InTime a s) :=
  match a with
  | .stopPool a => inferInstanceAs (Decidable (Pool.StopsInTime a s.tasks_))
  | .pool (.outside _) => inferInstanceAs (Decidable (_ → _ → _ → _))
  | .pool (.work _ _) => .isTrue trivial
  | .pool (.spurious _) => .isTrue trivial
  | .pool (.bodySubmit _ _ _) => .isTrue trivial
  | .pool (.bodyDone _) => .isTrue trivial
  | .pool (.submit _ _) => .isTrue trivial
  | .pool .stop => .isTrue trivial
  | .set _ _ _ => .isTrue trivial
  | .timer _ => .isTrue trivial
  | .spurious => .isTrue trivial
  | .submit _ => .isTrue trivial
  | .stop => .isTrue trivial

/-- Then somebody always looks at the global queue. -/
theorem v2_within (hn : 0 < n) {a : Action (Pool.Action n (k + 1) τ) Unit τ}
    {s : State (Pool.State n (k + 1) τ) τ}
    (hs : (machine (v2 n k τ capacity)).ReachableVia
      (fun a s => UsersFirst (v2 n k τ capacity) a s ∧ v2InTime a s) s)
    (htime : v2InTime a s) : Within (v2 n k τ capacity) Pool.DrainSafe a s := by
  cases a with
  | pool a =>
    refine fun hown => ⟨fun ha => ?_, ?_⟩
    · subst ha
      cases hown
    · rintro i task rfl hi hflag
      by_cases hi0 : i = 0
      · subst hi0
        exact htime rfl (by rw [hi]; rfl) (by rw [Pool.StopPc.flagged, hflag]; rfl)
      · -- a user is inside `Submit`, so `Stop` has not begun, and flags are to be stored
        exfalso
        have hstop : s.stopPc = .notStarted := by
          by_contra hne
          have hidle := usersIdle_of_reachable (fun _ _ h => h.1) hs hne
          have := of_decide_eq_true hidle i hi0
          rw [hi] at this
          cases this
        have hstart : s.tasks_.stopPc.started = false := (inv_of_reachable hs).notStarted hstop
        cases hpc : s.tasks_.stopPc with
        | notStarted =>
          rw [hpc] at hflag
          have := List.finRange_eq_nil_iff.mp hflag
          omega
        | _ =>
          rw [hpc] at hstart
          cases hstart
  | submit k => exact fun timer _ => ⟨(fun ha => by cases ha), fun i task ha => by cases ha⟩
  | stopPool a =>
    refine fun hstop => ⟨fun ha w hw => ?_, fun i task ha => ?_⟩
    · subst ha
      exact (show _ → _ from htime) (by rw [hw]; rfl)
    · subst ha
      cases hstop
  | _ => trivial

/-- **Stopping a runtime in time loses no timer.** When `Stop` returns, the tasks
that have been run are those that were submitted and the timers that were set,
each as often. -/
theorem ran_when_stopped (hn : 0 < n) :
    (∀ s : State (ThreadPool.State n τ) τ,
      (machine (v1 n τ)).ReachableVia (fun a s => UsersFirst (v1 n τ) a s ∧ v1InTime a s) s →
      s.stopPc = .returned → (s.tasks_.taken : Multiset τ) = s.accepted + s.set) ∧
    ∀ s : State (Pool.State n (k + 1) τ) τ,
      (machine (v2 n k τ capacity)).ReachableVia
        (fun a s => UsersFirst (v2 n k τ capacity) a s ∧ v2InTime a s) s →
      s.stopPc = .returned → s.tasks_.ran = s.accepted + s.set := by
  refine ⟨fun s hs hret => ?_, fun s hs hret => ?_⟩
  · refine ran_eq (fun _ _ h => h.1) hs hret fun hstop _ _ => ?_
    have htasks := tasks_reachable (D := ThreadPool.InTime)
      (fun a s hs hc => v1_within hn hs.reachable hc.1 hc.2) hs
    have hdrained := ThreadPool.drained (fun _ _ h => h) htasks (of_decide_eq_true hstop)
    exact congrArg _ hdrained
  · refine ran_eq (fun _ _ h => h.1) hs hret fun hstop hbusy husers => ?_
    have htasks := tasks_reachable (D := Pool.DrainSafe) (fun a s hs hc => v2_within hn hs hc.2) hs
    have hreturned := Pool.returned_of_stop htasks (Pool.stop_isReturned_iff.mp hstop)
    have hempty := Pool.empty_of_returned (fun _ _ h => h) htasks hreturned
    have hplaced : s.tasks_.placed capacity = 0 := by
      rw [hempty.placed_eq hreturned]
      refine Finset.sum_eq_zero fun i _ => ?_
      have hidle : s.tasks_.outside i = .idle := by
        refine Pool.isIdle_iff.mp ?_
        by_cases hi : i = 0
        · subst hi
          simpa [v2] using hbusy
        · exact of_decide_eq_true husers i hi
      rw [hidle]
      rfl
    change s.tasks_.ran = s.tasks_.submitted
    rw [Pool.submitted_eq htasks, hplaced, zero_add]

/-! ## Runs of one worker -/

/-- A task is submitted and a timer set, the timer thread submits the timer, and
both have been run when `Stop` begins. -/
def v1Early : List (Action (ThreadPool.Action 1 ℕ) (Option (Fin 1)) ℕ) :=
  [.pool (.submit 5 none), .set 0 3 7, .timer 4, .timer 4, .timer 4, .submit none, .timer 4,
    .pool (.work 0), .pool (.bodyDone 0), .pool (.work 0), .pool (.bodyDone 0), .stop,
    .stopPool .stop, .pool (.work 0), .stopPool .stop, .stopPool .stop, .stop, .stop, .timer 4,
    .stop]

/-- `Stop` joins the worker while the timer is pending. -/
def v1Late : List (Action (ThreadPool.Action 1 ℕ) (Option (Fin 1)) ℕ) :=
  [.set 0 3 7, .stop, .stopPool .stop, .pool (.work 0), .stopPool .stop, .stopPool .stop, .stop,
    .stop, .timer 4, .timer 4, .timer 4, .submit none, .timer 4, .timer 4, .stop]

/-- `v1Early` on the other pool. The user is thread `1`. -/
def v2Early : List (Action (Pool.Action 1 2 ℕ) Unit ℕ) :=
  [.pool (.submit 1 5), .pool (.outside 1), .pool (.outside 1), .set 0 3 7, .timer 4, .timer 4,
    .timer 4, .submit (), .pool (.outside 0), .pool (.outside 0), .timer 4] ++
    List.replicate 10 (.pool (.work 0 false)) ++ [.pool (.bodyDone 0)] ++
    List.replicate 7 (.pool (.work 0 false)) ++ [.pool (.bodyDone 0), .stop] ++
    List.replicate 4 (.stopPool .stop) ++ List.replicate 13 (.pool (.work 0 false)) ++
    [.stopPool .stop, .stop, .stop, .timer 4, .stop]

/-- `v1Late` on the other pool. -/
def v2Late : List (Action (Pool.Action 1 1 ℕ) Unit ℕ) :=
  [.set 0 3 7, .stop] ++ List.replicate 4 (.stopPool .stop) ++
    List.replicate 13 (.pool (.work 0 false)) ++
    [.stopPool .stop, .stop, .stop, .timer 4, .timer 4, .timer 4, .submit ()] ++
    List.replicate 3 (.pool (.outside 0)) ++ [.timer 4, .timer 4, .stop]

theorem ran_when_stopped_early :
    (∃ s : State (ThreadPool.State 1 ℕ) ℕ, s.stopPc = .returned ∧ s.tasks_.taken = [5, 7] ∧
      (s.tasks_.taken : Multiset ℕ) = s.accepted + s.set) ∧
    ∃ s : State (Pool.State 1 2 ℕ) ℕ, s.stopPc = .returned ∧ s.tasks_.ran = {5, 7} ∧
      s.tasks_.ran = s.accepted + s.set := by
  obtain ⟨s, hs, hp⟩ := Machine.ReachableVia.exec_any (M := machine (v1 1 ℕ))
    (C := fun a s => UsersFirst (v1 1 ℕ) a s ∧ v1InTime a s)
    (s := State.start .start) (.init ⟨_, rfl, rfl⟩) v1Early
    (fun s => decide (s.stopPc = .returned ∧ s.tasks_.taken = [5, 7])) (by decide)
  obtain ⟨t, ht, hq⟩ := Machine.ReachableVia.exec_any (M := machine (v2 1 1 ℕ 7))
    (C := fun a s => UsersFirst (v2 1 1 ℕ 7) a s ∧ v2InTime a s)
    (s := State.start (.start 0)) (.init ⟨_, ⟨0, rfl⟩, rfl⟩) v2Early
    (fun s => decide (s.stopPc = .returned ∧ s.tasks_.ran = {5, 7})) (by decide)
  obtain ⟨hret, htaken⟩ := of_decide_eq_true hp
  obtain ⟨hret', hran⟩ := of_decide_eq_true hq
  have h := @ran_when_stopped 1 1 ℕ 7 Nat.one_pos
  exact ⟨⟨s, hret, htaken, h.1 s hs hret⟩, t, hret', hran, h.2 t ht hret'⟩

/-- **A timer is lost.** In either runtime `Stop` returns, and the timer set
before it has not been run. -/
theorem timer_lost_on_stop :
    (¬ ∀ s : State (ThreadPool.State 1 ℕ) ℕ,
      (machine (v1 1 ℕ)).ReachableVia (UsersFirst (v1 1 ℕ)) s → s.stopPc = .returned →
      (s.tasks_.taken : Multiset ℕ) = s.accepted + s.set) ∧
    ¬ ∀ s : State (Pool.State 1 1 ℕ) ℕ,
      (machine (v2 1 0 ℕ 7)).ReachableVia (UsersFirst (v2 1 0 ℕ 7)) s → s.stopPc = .returned →
      s.tasks_.ran = s.accepted + s.set := by
  refine ⟨fun h => ?_, fun h => ?_⟩
  · obtain ⟨s, hs, hp⟩ := Machine.ReachableVia.exec_any (M := machine (v1 1 ℕ))
      (C := UsersFirst (v1 1 ℕ)) (s := State.start .start) (.init ⟨_, rfl, rfl⟩) v1Late
      (fun s => decide (s.stopPc = .returned ∧ s.tasks_.taken = [] ∧ s.set = {7})) (by decide)
    obtain ⟨hret, htaken, hset⟩ := of_decide_eq_true hp
    have hlost := congrArg Multiset.card (h s hs hret)
    rw [htaken, hset] at hlost
    simp at hlost
  · obtain ⟨s, hs, hp⟩ := Machine.ReachableVia.exec_any (M := machine (v2 1 0 ℕ 7))
      (C := UsersFirst (v2 1 0 ℕ 7)) (s := State.start (.start 0)) (.init ⟨_, ⟨0, rfl⟩, rfl⟩)
      v2Late (fun s => decide (s.stopPc = .returned ∧ s.tasks_.ran = 0 ∧ s.set = {7})) (by decide)
    obtain ⟨hret, hran, hset⟩ := of_decide_eq_true hp
    have hlost := congrArg Multiset.card (h s hs hret)
    rw [hran, hset] at hlost
    simp at hlost

end Exe.Runtime
