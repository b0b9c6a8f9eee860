/-
Stopping the pool.

`Stop` flags, bumps and wakes the workers one by one and joins them. A worker
looks at its flag only after its second search, so what it leaves behind is its
own: an empty slot and an empty local queue (`Emptied`). The global queue is
everybody's. It ends empty as long as somebody has not yet made the last poll of
it (`Manned`): whoever puts a task there polls it again, and the last one to
poll finds it empty.

What this needs at the moment of the last flag is that the global queue is
empty or manned, and this is not always so: a worker may have polled the global
queue, then an outside `Submit` puts a task there and wakes the worker, which
is not asleep, and then `Stop` flags it, and the worker leaves without a look at
the queue. `task_lost_on_stop` is that run.
-/
import Exe.PoolWakeups
import Exe.PoolTasks

set_option autoImplicit false

namespace Exe.Pool

open WorkStealingQueue
open Function (update)

variable {n m : ℕ} {τ : Type*} {capacity : ℕ}

/-! ## Nobody sleeps through `Stop` -/

/-- Once `Stop` has flagged, bumped and woken every worker, none is asleep. -/
theorem not_asleep_of_join {C : Action n m τ → State n m τ → Prop} {s : State n m τ}
    (hs : (machine n m τ capacity).ReachableVia C s)
    (hstop : s.stopPc = .join ∨ s.stopPc = .returned) (w : Fin n) (e : ℕ) :
    s.pc w ≠ .asleep e := by
  intro hpc
  have hb : s.stopPc.bumps w = 1 := by
    rcases hstop with h | h <;> simp [h, StopPc.bumps, StopPc.toBump]
  rcases (parking_of_reachable hs).asleep w e hpc with ⟨-, h0⟩ | ⟨rest, hr⟩
  · omega
  · rcases hstop with h | h <;> rw [h] at hr <;> cases hr

/-! ## What a worker leaves behind -/

/-- The second search of the worker has found its local queue empty. -/
def Pc.LocalDone : Pc n τ → Prop
  | .grab (.second _) => True
  | .steal (.second _) _ _ _ => True
  | .checkStop _ => True
  | .unlinkStopped => True
  | .returned => True
  | _ => False

/-- Nobody else puts tasks into a worker's local queue. -/
def Emptied (capacity : ℕ) (s : State n m τ) : Prop :=
  ∀ w, (s.pc w).LocalDone → (s.local_queue_ w).contents capacity = []

theorem found_not_localDone (scan : Scan) (task : τ) :
    ¬ (found scan task : Pc n τ).LocalDone := by
  cases scan <;> exact id

theorem getFromBuffer_not_localDone (scan : Scan) (task : τ) (rest : List τ) :
    ¬ (getFromBuffer scan task rest : Pc n τ).LocalDone := by
  cases rest with
  | nil => exact found_not_localDone scan task
  | cons next rest => exact id

theorem resume_not_localDone (k : Caller τ) : ¬ (k.resume : Pc n τ).LocalDone := by
  cases k with
  | getFromBuffer scan task rest => exact getFromBuffer_not_localDone scan task rest
  | push cur => exact id

theorem afterNotify_resume_not_localDone (k : AfterNotify τ) :
    ¬ (k.resume : Pc n τ).LocalDone := by
  cases k with
  | offload k => exact resume_not_localDone k
  | _ => exact id

theorem stealFrom_localDone {scan : Scan} {l : List (Fin n)}
    (h : (stealFrom scan l : Pc n τ).LocalDone) : ∃ e, scan = .second e := by
  cases scan with
  | second e => exact ⟨e, rfl⟩
  | _ => cases l <;> exact absurd h id

theorem afterGrab_localDone {w : Fin n} {scan : Scan}
    (h : (afterGrab w scan : Pc n τ).LocalDone) : ∃ e, scan = .second e := by
  cases scan with
  | starvation => exact absurd h id
  | first => exact stealFrom_localDone h
  | second e => exact ⟨e, rfl⟩

/-- A step of worker `w`: the other local queues have at most lost tasks. -/
theorem Emptied.setPc {s t : State n m τ} (h : Emptied capacity s) {w : Fin n} {pc : Pc n τ}
    (hpc : t.pc = s.pc)
    (hq : ∀ v, v ≠ w → (s.local_queue_ v).contents capacity = [] →
      (t.local_queue_ v).contents capacity = [])
    (hw : pc.LocalDone → (t.local_queue_ w).contents capacity = []) :
    Emptied capacity (t.setPc w pc) := by
  intro v hv
  by_cases hvw : v = w
  · subst hvw
    rw [setPc_pc_self] at hv
    exact hw hv
  · rw [setPc_pc_of_ne _ _ hvw, hpc] at hv
    exact hq v hvw (h v hv)

theorem Emptied.move {s t : State n m τ} (h : Emptied capacity s) {w : Fin n} {pc : Pc n τ}
    (hpc : t.pc = s.pc) (hq : t.local_queue_ = s.local_queue_)
    (hw : pc.LocalDone → (s.local_queue_ w).contents capacity = []) :
    Emptied capacity (t.setPc w pc) :=
  h.setPc hpc (fun v _ he => by rwa [hq]) (by rwa [hq])

/-- A worker goes on within its search. -/
theorem Emptied.of_localDone {s t : State n m τ} (h : Emptied capacity s) {w : Fin n}
    {pc : Pc n τ} (hpc : t.pc = s.pc) (hq : t.local_queue_ = s.local_queue_)
    (hw : pc.LocalDone → (s.pc w).LocalDone) : Emptied capacity (t.setPc w pc) :=
  h.move hpc hq fun hd => h w (hw hd)

/-- A worker that has just taken tasks has not given up. -/
theorem Emptied.claim {s : State n m τ} (h : Emptied capacity s) {w v : Fin n} {q : Queue τ}
    {buf : List τ} {pc : Pc n τ} (hq : (s.local_queue_ v).Claims capacity buf q)
    (hw : ¬ pc.LocalDone) : Emptied capacity ((s.setQueue v q).setPc w pc) := by
  refine h.setPc rfl (fun u _ he => ?_) fun hd => absurd hd hw
  by_cases hu : u = v
  · subst hu
    have hc := hq.contents_eq
    rw [he] at hc
    simpa [State.setQueue] using (List.append_eq_nil_iff.mp hc.symm).2
  · simpa [State.setQueue, hu] using he

/-- Only the owner pushes, and it has not given up then. -/
theorem Emptied.push {s : State n m τ} (h : Emptied capacity s) {w : Fin n} {q : Queue τ}
    {pc : Pc n τ} (hw : ¬ pc.LocalDone) : Emptied capacity ((s.setQueue w q).setPc w pc) :=
  h.setPc rfl (fun v hv he => by simpa [State.setQueue, hv] using he) fun hd => absurd hd hw

theorem woken_localDone {pc : Pc n τ} (h : pc.woken.LocalDone) : pc.LocalDone := by
  rcases woken_eq_or pc with he | ⟨-, he⟩
  · rwa [he] at h
  · rw [he] at h
    exact absurd h id

theorem Emptied.wakeWorker {s : State n m τ} (h : Emptied capacity s) :
    Emptied capacity s.wakeWorker := by
  cases hst : s.stopped_ with
  | nil => rwa [wakeWorker_of_nil hst]
  | cons w rest =>
    rw [wakeWorker_of_cons hst]
    intro v hv
    by_cases hvw : v = w
    · subst hvw
      simp only [Function.update_self] at hv
      exact h v (woken_localDone hv)
    · exact h v (by simpa [hvw] using hv)

theorem Emptied.workerStep {s s' : State n m τ} {w : Fin n} (h : Emptied capacity s)
    (hs : WorkerStep capacity w s s') : Emptied capacity s' := by
  cases hs with
  | pickTask hpc =>
    refine h.move rfl rfl fun hd => ?_
    split at hd <;> exact absurd hd id
  | lifoTake hpc hfilo hslot =>
    exact h.move rfl rfl fun hd => absurd hd (found_not_localDone _ _)
  | popTake hpc hq => exact h.claim hq (found_not_localDone _ _)
  | popEmpty hpc hempty => exact h.move rfl rfl fun _ => contents_eq_nil hempty
  | grabNone hpc hempty =>
    refine h.of_localDone rfl rfl fun hd => ?_
    obtain ⟨e, rfl⟩ := afterGrab_localDone hd
    rw [hpc]
    trivial
  | grabSome hpc hg =>
    exact h.move rfl rfl fun hd => absurd hd (getFromBuffer_not_localDone _ _ _)
  | @stealMove scan _ _ _ _ hpc hv hempty =>
    refine h.of_localDone rfl rfl fun hd => ?_
    rw [hpc]
    cases scan <;> exact hd
  | stealNone hpc =>
    refine h.of_localDone rfl rfl fun hd => ?_
    obtain ⟨e, rfl⟩ := stealFrom_localDone hd
    rw [hpc]
    trivial
  | stealSome hpc hq => exact h.claim hq (getFromBuffer_not_localDone _ _ _)
  | pushMove hpc hq hv => exact h.push id
  | pushDone hpc hq => exact h.push (resume_not_localDone _)
  | offloadTake hpc hq => exact h.claim hq id
  | shouldWakeNo hpc hsize =>
    rw [notified_eq]
    exact h.move rfl rfl fun hd => absurd hd (afterNotify_resume_not_localDone _)
  | wakeWorker hpc =>
    rw [notified_eq]
    exact h.wakeWorker.move rfl rfl fun hd => absurd hd (afterNotify_resume_not_localDone _)
  | addStopped hpc =>
    unfold State.addStoppedWorker
    split <;> exact h.move rfl rfl fun hd => absurd hd id
  | checkStopYes hpc hstop => exact h.of_localDone rfl rfl fun _ => by rw [hpc]; trivial
  | unlinkStopped hpc => exact h.of_localDone rfl rfl fun _ => by rw [hpc]; trivial
  | _ => exact h.move rfl rfl fun hd => absurd hd id

theorem Emptied.effect {s s' : State n m τ} {a : Action n m τ} (h : Emptied capacity s)
    (hs : Effect capacity s a s') : Emptied capacity s' := by
  cases hs with
  | work hw => exact h.workerStep hw
  | spurious hpc => exact h.move rfl rfl fun hd => absurd hd id
  | bodyLocal hpc => exact h.move rfl rfl fun hd => absurd hd id
  | bodySlot hpc hslot => exact h.move rfl rfl fun hd => absurd hd id
  | bodyEvict hpc hslot => exact h.move rfl rfl fun hd => absurd hd id
  | bodyGlobal hpc => exact h.move rfl rfl fun hd => absurd hd id
  | bodyDone hpc => exact h.move rfl rfl fun hd => absurd hd id
  | outsideWake hi => exact h.wakeWorker
  | stopWake hs =>
    rw [wakeOne_eq]
    exact h.of_localDone rfl rfl woken_localDone
  | _ => exact h

theorem emptied_of_reachable {C : Action n m τ → State n m τ → Prop} {s : State n m τ}
    (hs : (machine n m τ capacity).ReachableVia C s) : Emptied capacity s := by
  refine hs.invariant_of (fun h => queues_of_reachable h) (fun s hinit => ?_)
    fun _ _ _ hq _ h _ hst => h.effect (step_cases hq hst)
  obtain ⟨null, rfl⟩ := hinit
  exact fun _ hd => absurd hd id

/-! ## The last poll of the global queue -/

/-- The worker will not poll the global queue again, unless it finds a task
elsewhere or goes to sleep. -/
def Pc.pastGlobal : Pc n τ → Bool
  | .steal (.second _) _ _ _ => true
  | .checkStop _ => true
  | .unlinkStopped => true
  | .returned => true
  | _ => false

/-- Some worker still has to make its last poll of the global queue. -/
def Manned (s : State n m τ) : Prop := ∃ w, (s.pc w).pastGlobal = false

/-- Once every flag is set, the global queue is empty or manned. -/
def Drains (s : State n m τ) : Prop :=
  s.stopPc.toFlag = [] → s.global_queue_ = [] ∨ Manned s

/-- The steps after which somebody still looks at the global queue: `Stop` does
not store its last flag over an unmanned queue, and nobody outside the pool
pushes into one. -/
structure DrainSafe (a : Action n m τ) (s : State n m τ) : Prop where
  flag : a = .stop → ∀ w, s.stopPc = .flag w [] → s.global_queue_ = [] ∨ Manned s
  push : ∀ i task, a = .outside i → s.outside i = .pushOne task → s.stopPc.toFlag = [] → Manned s

theorem found_pastGlobal (scan : Scan) (task : τ) :
    (found scan task : Pc n τ).pastGlobal = false := by
  cases scan <;> rfl

theorem getFromBuffer_pastGlobal (scan : Scan) (task : τ) (rest : List τ) :
    (getFromBuffer scan task rest : Pc n τ).pastGlobal = false := by
  cases rest with
  | nil => exact found_pastGlobal scan task
  | cons next rest => rfl

theorem resume_pastGlobal (k : Caller τ) : (k.resume : Pc n τ).pastGlobal = false := by
  cases k with
  | getFromBuffer scan task rest => exact getFromBuffer_pastGlobal scan task rest
  | push cur => rfl

theorem afterNotify_resume_pastGlobal (k : AfterNotify τ) :
    (k.resume : Pc n τ).pastGlobal = false := by
  cases k with
  | offload k => exact resume_pastGlobal k
  | _ => rfl

theorem woken_pastGlobal (pc : Pc n τ) : pc.woken.pastGlobal = pc.pastGlobal := by
  cases pc <;> rfl

theorem stealFrom_pastGlobal {scan : Scan} {victim : Fin n} {rest : List (Fin n)}
    {pc : GrabPc τ} (h : (stealFrom scan rest : Pc n τ).pastGlobal = true) :
    (.steal scan victim rest pc : Pc n τ).pastGlobal = true := by
  cases scan with
  | second e => rfl
  | _ => cases rest <;> cases h

/-- A worker that is still before its last poll. -/
theorem Manned.self {s : State n m τ} {w : Fin n} {pc : Pc n τ} (h : pc.pastGlobal = false) :
    Manned (s.setPc w pc) := ⟨w, by rwa [setPc_pc_self]⟩

/-- A worker moves that was past its last poll: whoever was before it still is. -/
theorem Manned.move {s t : State n m τ} {w : Fin n} {pc : Pc n τ} (h : Manned s)
    (hpc : t.pc = s.pc) (hw : (s.pc w).pastGlobal = true) : Manned (t.setPc w pc) := by
  obtain ⟨v, hv⟩ := h
  have hne : v ≠ w := by
    rintro rfl
    rw [hw] at hv
    cases hv
  exact ⟨v, by rw [setPc_pc_of_ne _ _ hne, hpc]; exact hv⟩

theorem Manned.wakeWorker {s : State n m τ} (h : Manned s) : Manned s.wakeWorker := by
  obtain ⟨v, hv⟩ := h
  refine ⟨v, ?_⟩
  rcases wakeWorker_pc s v with he | ⟨-, he⟩
  · rwa [he]
  · rw [he]
    rfl

theorem Drains.workerStep {s s' : State n m τ} {w : Fin n} (h : Drains s)
    (hs : WorkerStep capacity w s s') : Drains s' := by
  have hgo : ∀ {t : State n m τ} {pc : Pc n τ}, t.stopPc = s.stopPc →
      t.global_queue_ = s.global_queue_ → t.pc = s.pc → (s.pc w).pastGlobal = true →
      Drains (t.setPc w pc) := by
    intro t pc hstop hg hpc hw hf
    change t.stopPc.toFlag = [] at hf
    rw [hstop] at hf
    exact (h hf).imp (fun he => by change t.global_queue_ = []; rwa [hg]) (·.move hpc hw)
  cases hs with
  | pickTask hpc =>
    refine fun _ => .inr (.self ?_)
    split <;> rfl
  | lifoTake hpc hfilo hslot => exact fun _ => .inr (.self (found_pastGlobal _ _))
  | popTake hpc hq => exact fun _ => .inr (.self (found_pastGlobal _ _))
  | grabNone hpc hempty => exact fun _ => .inl hempty
  | grabSome hpc hg => exact fun _ => .inr (.self (getFromBuffer_pastGlobal _ _ _))
  | @stealMove scan _ _ _ _ hpc hv hempty =>
    cases scan with
    | second e => exact hgo rfl rfl rfl (by rw [hpc]; rfl)
    | _ => exact fun _ => .inr (.self rfl)
  | stealNone hpc =>
    cases hpast : (stealFrom _ _ : Pc n τ).pastGlobal with
    | false => exact fun _ => .inr (.self hpast)
    | true => exact hgo rfl rfl rfl (by rw [hpc]; exact stealFrom_pastGlobal hpast)
  | stealSome hpc hq => exact fun _ => .inr (.self (getFromBuffer_pastGlobal _ _ _))
  | pushDone hpc hq => exact fun _ => .inr (.self (resume_pastGlobal _))
  | shouldWakeNo hpc hsize =>
    rw [notified_eq]
    exact fun _ => .inr (.self (afterNotify_resume_pastGlobal _))
  | wakeWorker hpc =>
    rw [notified_eq]
    exact fun _ => .inr (.self (afterNotify_resume_pastGlobal _))
  | checkStopYes hpc hstop => exact hgo rfl rfl rfl (by rw [hpc]; rfl)
  | unlinkStopped hpc => exact hgo rfl rfl rfl (by rw [hpc]; rfl)
  | _ => exact fun _ => .inr (.self rfl)

theorem Drains.effect {s s' : State n m τ} {a : Action n m τ} (h : Drains s)
    (hc : DrainSafe a s) (hs : Effect capacity s a s') : Drains s' := by
  cases hs with
  | work hw => exact h.workerStep hw
  | spurious hpc => exact fun _ => .inr (.self rfl)
  | bodyLocal hpc => exact fun _ => .inr (.self rfl)
  | bodySlot hpc hslot => exact fun _ => .inr (.self rfl)
  | bodyEvict hpc hslot => exact fun _ => .inr (.self rfl)
  | bodyGlobal hpc => exact fun _ => .inr (.self rfl)
  | bodyDone hpc => exact fun _ => .inr (.self rfl)
  | submit hi => exact h
  | outsidePush hi => exact fun hf => .inr (hc.push _ _ rfl hi hf)
  | outsideYes hi hsize => exact h
  | outsideNo hi hsize => exact h
  | outsideWake hi =>
    intro hf
    rw [wakeWorker_frame] at hf ⊢
    refine (h hf).imp id fun hm => ?_
    have hm' := hm.wakeWorker
    rw [wakeWorker_frame] at hm'
    exact hm'
  | stopStart hs =>
    intro hf
    rw [toFlag_stopNext] at hf
    exact h (by rwa [hs])
  | @stopFlag w rest hs =>
    intro hf
    change rest = [] at hf
    exact hc.flag rfl w (hf ▸ hs)
  | stopFetchAdd hs => exact fun hf => h (by rw [hs]; exact hf)
  | @stopWake w rest hs =>
    intro hf
    rw [wakeOne_eq]
    refine (h (by rw [hs]; rwa [toFlag_stopNext] at hf)).imp id ?_
    rintro ⟨v, hv⟩
    refine ⟨v, ?_⟩
    by_cases hvw : v = w
    · subst hvw
      simpa [State.setPc, woken_pastGlobal] using hv
    · simpa [State.setPc, hvw] using hv
  | stopJoin hs hret => exact fun _ => h (by rw [hs]; rfl)

theorem drains_of_reachable {C : Action n m τ → State n m τ → Prop} {s : State n m τ}
    (hC : ∀ a s, C a s → DrainSafe a s) (hs : (machine n m τ capacity).ReachableVia C s) :
    Drains s := by
  refine hs.invariant_of (fun h => queues_of_reachable h) (fun s hinit => ?_)
    fun _ _ _ hq _ h hc hst => h.effect (hC _ _ hc) (step_cases hq hst)
  obtain ⟨null, rfl⟩ := hinit
  exact fun _ => .inl rfl

/-! ## All workers have returned -/

/-- Nothing is left in any queue or slot. -/
structure Empty (capacity : ℕ) (s : State n m τ) : Prop where
  global_queue_ : s.global_queue_ = []
  local_queue_ : ∀ w, (s.local_queue_ w).contents capacity = []
  lifo_slot_ : ∀ w, s.lifo_slot_ w = none

theorem Parking.toFlag_eq_nil {s : State n m τ} (h : Parking s)
    (hret : ∀ w, s.pc w = .returned) : s.stopPc.toFlag = [] := by
  refine List.eq_nil_iff_forall_not_mem.mpr fun w => (h.flagged w).mp ?_
  have hp := h.parked w
  rw [Parked, hret w] at hp
  exact hp.2

/-- What the workers leave behind when they have all returned. -/
theorem empty_of_returned {C : Action n m τ → State n m τ → Prop} {s : State n m τ}
    (hC : ∀ a s, C a s → DrainSafe a s) (hs : (machine n m τ capacity).ReachableVia C s)
    (hret : ∀ w, s.pc w = .returned) : Empty capacity s := by
  refine ⟨?_, fun w => ?_, fun w => ?_⟩
  · have hdrains := drains_of_reachable hC hs ((parking_of_reachable hs).toFlag_eq_nil hret)
    refine hdrains.resolve_right ?_
    rintro ⟨w, hw⟩
    rw [hret w] at hw
    cases hw
  · exact emptied_of_reachable hs w (by rw [hret w]; trivial)
  · have hslot := slots_of_reachable hs w
    rw [hret w] at hslot
    exact hslot

/-- Then every task is where the threads outside the pool hold it. -/
theorem Empty.placed_eq {s : State n m τ} (h : Empty capacity s)
    (hret : ∀ w, s.pc w = .returned) : s.placed capacity = ∑ i, (s.outside i).held := by
  have howned : ∀ w, s.owned capacity w = 0 := by
    intro w
    rw [State.owned, h.lifo_slot_ w, h.local_queue_ w, hret w]
    rfl
  simp [State.placed, howned, h.global_queue_]

/-! ## The conditions on a run -/

def StopPc.started : StopPc n → Bool
  | .notStarted => false
  | _ => true

/-- `Stop` is about to store its last flag. -/
def StopPc.lastFlag : StopPc n → Bool
  | .flag _ [] => true
  | _ => false

def Outside.isIdle : Outside τ → Bool
  | .idle => true
  | _ => false

/-- No outside `Submit` overlaps or follows `Stop`. -/
def OutsideFirst (a : Action n m τ) (s : State n m τ) : Prop :=
  match a with
  | .submit _ _ => s.stopPc.started = false
  | .stop => s.stopPc.started = true ∨ ∀ i, (s.outside i).isIdle = true
  | _ => True

/-- `Stop` stores its last flag in time: not after every worker has made its
last poll of a global queue that holds tasks. -/
def StopsInTime (a : Action n m τ) (s : State n m τ) : Prop :=
  match a with
  | .stop => s.stopPc.lastFlag = true → s.global_queue_ = [] ∨ ∃ w, (s.pc w).pastGlobal = false
  | _ => True

instance (a : Action n m τ) (s : State n m τ) : Decidable (OutsideFirst a s) :=
  match a with
  | .submit _ _ => inferInstanceAs (Decidable (_ = _))
  | .stop => inferInstanceAs (Decidable (_ ∨ _))
  | .work _ _ => .isTrue trivial
  | .spurious _ => .isTrue trivial
  | .bodySubmit _ _ _ => .isTrue trivial
  | .bodyDone _ => .isTrue trivial
  | .outside _ => .isTrue trivial

instance (a : Action n m τ) (s : State n m τ) : Decidable (StopsInTime a s) :=
  match a with
  | .stop => inferInstanceAs (Decidable (_ → _ ∨ _))
  | .work _ _ => .isTrue trivial
  | .spurious _ => .isTrue trivial
  | .bodySubmit _ _ _ => .isTrue trivial
  | .bodyDone _ => .isTrue trivial
  | .submit _ _ => .isTrue trivial
  | .outside _ => .isTrue trivial

instance [DecidableEq τ] (capacity : ℕ) (a : Action n m τ) (s : State n m τ) :
    Decidable (NoResubmit capacity a s) :=
  inferInstanceAs (Decidable (∀ task ∈ a.accepted, task ∉ s.placed capacity))

theorem isIdle_iff {o : Outside τ} : o.isIdle = true ↔ o = .idle := by
  cases o <;> simp [Outside.isIdle]

/-- Once `Stop` has begun, nobody outside the pool is in `Submit`. -/
theorem outside_idle_of_reachable {C : Action n m τ → State n m τ → Prop} {s : State n m τ}
    (hC : ∀ a s, C a s → OutsideFirst a s) (hs : (machine n m τ capacity).ReachableVia C s)
    (hstop : s.stopPc.started = true) (i : Fin m) : s.outside i = .idle := by
  revert i
  refine hs.invariant_of
    (I := fun s : State n m τ => s.stopPc.started = true → ∀ i, s.outside i = .idle)
    (fun h => queues_of_reachable h) (fun s hinit => ?_) (fun a s s' hq _ h hc hst => ?_) hstop
  · obtain ⟨null, rfl⟩ := hinit
    exact fun _ i => rfl
  · have hfirst := hC _ _ hc
    cases step_cases hq hst with
    | work hw =>
      obtain ⟨houtside, hpc⟩ := hw.frame
      rw [hpc, houtside]
      exact h
    | submit hi =>
      intro hstop
      change s.stopPc.started = true at hstop
      rw [show s.stopPc.started = false from hfirst] at hstop
      cases hstop
    | outsidePush hi => exact fun hstop => absurd (h hstop _) (by rw [hi]; simp)
    | outsideYes hi hsize => exact fun hstop => absurd (h hstop _) (by rw [hi]; simp)
    | outsideNo hi hsize => exact fun hstop => absurd (h hstop _) (by rw [hi]; simp)
    | outsideWake hi =>
      intro hstop
      rw [wakeWorker_frame] at hstop
      exact absurd (h hstop _) (by rw [hi]; simp)
    | stopStart hs =>
      intro _ i
      rcases (show _ ∨ _ from hfirst) with hstart | hidle
      · rw [hs] at hstart
        cases hstart
      · exact isIdle_iff.mp (hidle i)
    | stopWake hs =>
      rw [wakeOne_eq]
      exact fun _ => h (by rw [hs]; rfl)
    | stopFlag hs => exact fun _ => h (by rw [hs]; rfl)
    | stopFetchAdd hs => exact fun _ => h (by rw [hs]; rfl)
    | stopJoin hs hret => exact fun _ => h (by rw [hs]; rfl)
    | _ => exact h

/-- In such runs somebody always looks at the global queue. -/
theorem drainSafe_of_inTime (hn : 0 < n) {s : State n m τ}
    (hs : (machine n m τ capacity).ReachableVia
      (fun a s => OutsideFirst a s ∧ StopsInTime a s) s) :
    (machine n m τ capacity).ReachableVia DrainSafe s := by
  refine hs.imp fun a s hs hc => ⟨?_, ?_⟩
  · rintro rfl w hw
    exact (show _ → _ from hc.2) (by rw [hw]; rfl)
  · rintro i task rfl hi hflag
    cases hstart : s.stopPc with
    | notStarted =>
      rw [hstart] at hflag
      have := List.finRange_eq_nil_iff.mp hflag
      omega
    | _ =>
      have hidle := outside_idle_of_reachable (fun _ _ h => h.1) hs (by rw [hstart]; rfl) i
      rw [hi] at hidle
      cases hidle

/-- **Exactly once, and drained.** In every run in which no task is resubmitted
while it is still queued, every submission is in exactly one place or has been
started, and no worker sleeps through `Stop`. In those runs in which moreover no
outside `Submit` overlaps or follows `Stop`, and `Stop` stores its last flag in
time, every task has been started when all workers have returned, and nothing is
left. -/
theorem exactly_once_and_drained {s : State n m τ}
    (hs : (machine n m τ capacity).ReachableVia (NoResubmit capacity) s) :
    s.submitted = s.placed capacity + s.ran ∧ (s.placed capacity).Nodup ∧
      (s.stopPc = .join ∨ s.stopPc = .returned → ∀ w e, s.pc w ≠ .asleep e) ∧
      (0 < n →
        (machine n m τ capacity).ReachableVia (fun a s => OutsideFirst a s ∧ StopsInTime a s) s →
        (∀ w, s.pc w = .returned) → s.ran = s.submitted ∧ Empty capacity s) := by
  refine ⟨submitted_eq hs, placed_nodup (fun _ _ h => h) hs, not_asleep_of_join hs, ?_⟩
  intro hn hvia hret
  have hempty := empty_of_returned (fun _ _ h => h) (drainSafe_of_inTime hn hvia) hret
  have hstart : s.stopPc.started = true := by
    have hflag := (parking_of_reachable hs).toFlag_eq_nil hret
    cases hstop : s.stopPc with
    | notStarted =>
      rw [hstop] at hflag
      have := List.finRange_eq_nil_iff.mp hflag
      omega
    | _ => rfl
  have hplaced : s.placed capacity = 0 := by
    rw [hempty.placed_eq hret]
    refine Finset.sum_eq_zero fun i _ => ?_
    rw [outside_idle_of_reachable (fun _ _ h => h.1) hvia hstart i]
    rfl
  exact ⟨by rw [submitted_eq hs, hplaced, zero_add], hempty⟩

/-! ## Two runs of one worker -/

theorem isReturned_iff {pc : Pc n τ} : pc.isReturned = true ↔ pc = .returned := by
  cases pc <;> simp [Pc.isReturned]

/-- The worker runs the submitted task, finds nothing more and sleeps; `Stop`
wakes it, and it searches again and leaves. -/
def stopAfterSleep : List (Action 1 1 ℕ) :=
  [.submit 0 5, .outside 0, .outside 0] ++ List.replicate 6 (.work 0 false) ++
    [.bodyDone 0] ++ List.replicate 13 (.work 0 false) ++ List.replicate 4 .stop ++
    List.replicate 13 (.work 0 false) ++ [.stop]

/-- The worker has made its last poll of the global queue when the task is
submitted and `Stop` flags it. -/
def stopAfterPoll : List (Action 1 1 ℕ) :=
  List.replicate 11 (.work 0 false) ++ [.submit 0 5, .outside 0, .outside 0, .outside 0] ++
    [.stop, .stop] ++ List.replicate 2 (.work 0 false)

/-- Both conditions of the drain hold along the first run. -/
theorem stopAfterSleep_reachable : ∃ s : State 1 1 ℕ,
    (machine 1 1 ℕ 7).ReachableVia
      (fun a s => NoResubmit 7 a s ∧ OutsideFirst a s ∧ StopsInTime a s) s ∧
    ((∀ w, (s.pc w).isReturned = true) ∧ s.ran = {5}) := by
  obtain ⟨s, hs, hp⟩ := Machine.ReachableVia.exec_any (M := machine 1 1 ℕ 7)
    (C := fun a s => NoResubmit 7 a s ∧ OutsideFirst a s ∧ StopsInTime a s)
    (s := State.start 0) (.init ⟨0, rfl⟩) stopAfterSleep
    (fun s => decide ((∀ w, (s.pc w).isReturned = true) ∧ s.ran = {5})) (by decide)
  exact ⟨s, hs, of_decide_eq_true hp⟩

theorem exactly_once_and_drained_stopAfterSleep : ∃ s : State 1 1 ℕ,
    (∀ w, s.pc w = .returned) ∧ s.ran = {5} ∧ s.ran = s.submitted ∧ Empty 7 s := by
  obtain ⟨s, hs, hret, hran⟩ := stopAfterSleep_reachable
  have hret' : ∀ w, s.pc w = .returned := fun w => isReturned_iff.mp (hret w)
  exact ⟨s, hret', hran, (exactly_once_and_drained (hs.mono fun _ _ h => h.1)).2.2.2
    Nat.one_pos (hs.mono fun _ _ h => h.2) hret'⟩

/-- **A task is lost.** No `Submit` overlaps or follows `Stop`, every worker has
returned, and the task is still in the global queue. -/
theorem task_lost_on_stop :
    ¬ ∀ s : State 1 1 ℕ,
      (machine 1 1 ℕ 7).ReachableVia (fun a s => NoResubmit 7 a s ∧ OutsideFirst a s) s →
      (∀ w, s.pc w = .returned) → s.ran = s.submitted ∧ Empty 7 s := by
  intro h
  obtain ⟨s, hs, hp⟩ := Machine.ReachableVia.exec_any (M := machine 1 1 ℕ 7)
    (C := fun a s => NoResubmit 7 a s ∧ OutsideFirst a s)
    (s := State.start 0) (.init ⟨0, rfl⟩) stopAfterPoll
    (fun s => decide ((∀ w, (s.pc w).isReturned = true) ∧ s.global_queue_ = [5])) (by decide)
  obtain ⟨hret, hg⟩ := of_decide_eq_true hp
  have hempty := (h s hs fun w => isReturned_iff.mp (hret w)).2.global_queue_
  rw [hg] at hempty
  cases hempty

end Exe.Pool
