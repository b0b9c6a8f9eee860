/-
No lost wake-up.

A task that lies in the global queue or in a local queue while somebody sleeps
is watched: some worker will still come across it, or will call
`NotifyOnSubmit`, before its own next task or sleep, or a thread outside the
pool is about to call it (`Watched`). The two steps that could break this are
the ones that give up a watch, and both are settled by `stopped_`:

* `NotifyOnSubmit` returns. Either `stopped_` was empty, and then nobody
  sleeps, or it has taken a worker out of it, and that one watches: whatever it
  has searched before, it will not pass `futex::Wait`.
* The second search goes past a queue, or ends. The queue was empty at that
  moment, and the worker was in `stopped_` before it looked.

The first needs `approximate_size_` to be at least the length of `stopped_`, so
it holds up to `2^64` calls of `AddStoppedWorker` and not beyond.
-/
import Exe.PoolParking

set_option autoImplicit false

namespace Exe.Pool

open WorkStealingQueue
open Function (update)

variable {n m : ℕ} {τ : Type*} {capacity : ℕ}

/-! ## Locations and watchers -/

/-- The queues every worker may take from. -/
inductive Location (n : ℕ)
  | global
  | local (w : Fin n)

/-- The tasks a location holds. -/
def State.tasksAt (capacity : ℕ) (s : State n m τ) : Location n → List τ
  | .global => s.global_queue_
  | .local w => (s.local_queue_ w).contents capacity

/-- The second search of `w` has gone past `L`. -/
def Pc.Overlooks (w : Fin n) (L : Location n) : Pc n τ → Prop
  | .grab (.second _) => L = .local w
  | .steal (.second _) victim rest pc =>
    match L with
    | .global => True
    | .local v => v ∉ rest ∧ (v = victim → ∃ head i, pc = .cas head i [])
  | .checkStop _ => True
  | .wait _ => True
  | .asleep _ => True
  | _ => False

/-- The worker is in the body of a task or on its way out. -/
def Pc.Away : Pc n τ → Prop
  | .running _ => True
  | .unlinkStopped => True
  | .returned => True
  | _ => False

/-- The worker will look at `L` or call `NotifyOnSubmit` before it runs a task's
body or sleeps. One that has been taken out of `stopped_` does not sleep. -/
def Pc.Watches (linked : Prop) (w : Fin n) (L : Location n) (pc : Pc n τ) : Prop :=
  ¬ pc.Away ∧ (linked → ¬ pc.Overlooks w L)

/-- A program counter that watches everything. -/
def Pc.Alert (pc : Pc n τ) : Prop := ¬ pc.Away ∧ ∀ w L, ¬ pc.Overlooks w L

/-- A thread outside the pool that is about to call `WakeWorker`. -/
def Outside.Notifies : Outside τ → Prop
  | .shouldWake => True
  | .wakeWorker => True
  | _ => False

/-- Somebody watches `L`. -/
def SomeoneWatches (s : State n m τ) (L : Location n) : Prop :=
  (∃ w, (s.pc w).Watches (w ∈ s.stopped_) w L) ∨ ∃ i, (s.outside i).Notifies

/-- **The watch.** As long as `stopped_` is not empty, every queue that is not
empty is watched. -/
def Watched (capacity : ℕ) (s : State n m τ) : Prop :=
  ∀ L, s.tasksAt capacity L ≠ [] → s.stopped_ ≠ [] → SomeoneWatches s L

/-! ## Alert program counters -/

theorem Pc.Alert.watches {pc : Pc n τ} (h : pc.Alert) (linked : Prop) (w : Fin n)
    (L : Location n) : pc.Watches linked w L := ⟨h.1, fun _ => h.2 w L⟩

theorem found_alert (scan : Scan) (task : τ) : (found scan task : Pc n τ).Alert := by
  cases scan <;> exact ⟨id, fun _ _ => id⟩

theorem getFromBuffer_alert (scan : Scan) (task : τ) (rest : List τ) :
    (getFromBuffer scan task rest : Pc n τ).Alert := by
  cases rest with
  | nil => exact found_alert scan task
  | cons next rest => exact ⟨id, fun _ _ => id⟩

theorem resume_alert (k : Caller τ) : (k.resume : Pc n τ).Alert := by
  cases k with
  | getFromBuffer scan task rest => exact getFromBuffer_alert scan task rest
  | push cur => exact ⟨id, fun _ _ => id⟩

/-! ## Frame lemmas -/

/-- A step of worker `w` that leaves `stopped_` alone: it watches what is not
empty now, or what was not empty before and it watched then. -/
theorem Watched.move {s t : State n m τ} (h : Watched capacity s) {w : Fin n} {pc : Pc n τ}
    (hpc : t.pc = s.pc) (hst : t.stopped_ = s.stopped_) (ho : t.outside = s.outside)
    (hL : ∀ L, t.tasksAt capacity L ≠ [] → pc.Watches (w ∈ s.stopped_) w L ∨
      s.tasksAt capacity L ≠ [] ∧
        ((s.pc w).Watches (w ∈ s.stopped_) w L → pc.Watches (w ∈ s.stopped_) w L)) :
    Watched capacity (t.setPc w pc) := by
  intro L hne hstop
  have hself : pc.Watches (w ∈ s.stopped_) w L → SomeoneWatches (t.setPc w pc) L := by
    intro hw
    refine .inl ⟨w, ?_⟩
    rw [setPc_pc_self]
    change pc.Watches (w ∈ t.stopped_) w L
    rwa [hst]
  change t.stopped_ ≠ [] at hstop
  rw [hst] at hstop
  rcases hL L hne with hw | ⟨hs, himp⟩
  · exact hself hw
  rcases h L hs hstop with ⟨v, hv⟩ | ⟨i, hi⟩
  -- whoever watched before the step still does
  · by_cases hvw : v = w
    · subst hvw
      exact hself (himp hv)
    · refine .inl ⟨v, ?_⟩
      rw [setPc_pc_of_ne _ _ hvw, hpc]
      change (s.pc v).Watches (v ∈ t.stopped_) v L
      rwa [hst]
  · exact .inr ⟨i, by change (t.outside i).Notifies; rwa [ho]⟩

/-- A worker that watches everything settles all locations at once, whatever it
did to `stopped_`. -/
theorem Watched.of_alert {t : State n m τ} {w : Fin n} {pc : Pc n τ} (hpc : pc.Alert) :
    Watched capacity (t.setPc w pc) :=
  fun L _ _ => .inl ⟨w, by rw [setPc_pc_self]; exact hpc.watches _ _ _⟩

/-- Where nobody is in `stopped_`, nothing has to be watched. -/
theorem Watched.of_stopped_nil {s : State n m τ} (h : s.stopped_ = []) : Watched capacity s :=
  fun _ _ hne => absurd h hne

/-- A thread outside the pool that will notify settles all locations at once. -/
theorem Watched.of_notifies {s : State n m τ} {i : Fin m} (h : (s.outside i).Notifies) :
    Watched capacity s :=
  fun _ _ _ => .inr ⟨i, h⟩

/-- A step of a thread outside the pool that leaves the workers and the queues
alone. -/
theorem Watched.setOutside {s t : State n m τ} (h : Watched capacity s) {i : Fin m}
    {o : Outside τ} (ht : t = { s with outside := update s.outside i o, submitted := t.submitted })
    (hi : ¬ (s.outside i).Notifies) : Watched capacity t := by
  intro L hne hstop
  rw [ht] at hne hstop ⊢
  have hne' : s.tasksAt capacity L ≠ [] := by cases L <;> exact hne
  rcases h L hne' hstop with hv | ⟨j, hj⟩
  · exact .inl hv
  · refine .inr ⟨j, ?_⟩
    have hji : j ≠ i := by
      rintro rfl
      exact hi hj
    simpa [hji] using hj

/-! ## `WakeWorker` -/

/-- A linked worker is not in a task's body, and before `Stop` not on its way
out. -/
theorem Parking.not_away {s : State n m τ} (h : Parking s) (hs : s.stopPc = .notStarted)
    {w : Fin n} (hw : w ∈ s.stopped_) : ¬ (s.pc w).Away := by
  have hp := h.parked w
  have hf := h.not_flagged hs w
  unfold Parked at hp
  cases hpc : s.pc w with
  | running cur =>
    rw [hpc] at hp
    exact absurd hw hp
  | unlinkStopped =>
    rw [hpc, Pc.stage, Stage.Holds, hf] at hp
    cases hp
  | returned =>
    rw [hpc] at hp
    exact absurd hw hp.1
  | _ => exact id

/-- The worker that `WakeWorker` has taken out of `stopped_` watches
everything. -/
theorem wakeWorker_watches {s : State n m τ} (h : Parking s) (hs : s.stopPc = .notStarted)
    {w : Fin n} {rest : List (Fin n)} (hst : s.stopped_ = w :: rest) (L : Location n) :
    w ∉ s.wakeWorker.stopped_ ∧ (s.wakeWorker.pc w).Watches (w ∈ s.wakeWorker.stopped_) w L := by
  have hnd := h.nodup
  rw [hst, List.nodup_cons] at hnd
  have haway := h.not_away hs (show w ∈ s.stopped_ by simp [hst])
  rw [wakeWorker_of_cons hst]
  refine ⟨hnd.1, ?_, fun hl => absurd hl hnd.1⟩
  simp only [Function.update_self]
  rcases woken_eq_or (s.pc w) with he | ⟨-, he⟩
  · rwa [he]
  · rw [he]
    exact id

theorem Watched.outsideWake {s : State n m τ} (h : Parking s) (hs : s.stopPc = .notStarted)
    (i : Fin m) : Watched capacity { s.wakeWorker with outside := update s.outside i .idle } := by
  cases hst : s.stopped_ with
  | nil => exact .of_stopped_nil (by rw [wakeWorker_of_nil hst]; exact hst)
  | cons v rest => exact fun L _ _ => .inl ⟨v, (wakeWorker_watches h hs hst L).2⟩

/-- `NotifyOnSubmit` returns after `WakeWorker`. When the worker has taken itself
out of `stopped_`, it is in the middle of `GetFromBuffer` and goes on there. -/
theorem Watched.notifyWake {s : State n m τ} (h : Parking s) (hs : s.stopPc = .notStarted)
    {w : Fin n} {k : AfterNotify τ} (hpc : s.pc w = .wakeWorker k) :
    Watched capacity (s.wakeWorker.notified w k) := by
  rw [notified_eq]
  cases hst : s.stopped_ with
  | nil => exact .of_stopped_nil (by rw [wakeWorker_of_nil hst]; exact hst)
  | cons v rest =>
    by_cases hv : v = w
    · subst hv
      have hp := h.parked v
      rw [Parked, hpc] at hp
      cases k with
      | offload k => exact .of_alert (resume_alert k)
      | push cur => exact absurd (by simp [hst]) hp
      | work next => exact absurd (by simp [hst]) hp
    · intro L _ _
      refine .inl ⟨v, ?_⟩
      rw [setPc_pc_of_ne _ _ hv]
      exact (wakeWorker_watches h hs hst L).2

/-! ## The second search -/

/-- The search goes from the global queue on to the first victim. -/
theorem afterGrab_watches {scan : Scan} {linked : Prop} {w : Fin n} {v : Fin n}
    (h : (.grab scan : Pc n τ).Watches linked w (.local v)) :
    (afterGrab w scan : Pc n τ).Watches linked w (.local v) := by
  cases scan with
  | starvation => exact ⟨id, fun _ => id⟩
  | first =>
    change (stealFrom Scan.first (victims w) : Pc n τ).Watches linked w (.local v)
    cases victims w <;> exact ⟨id, fun _ => id⟩
  | second e =>
    change (stealFrom (Scan.second e) (victims w) : Pc n τ).Watches linked w (.local v)
    -- the own queue has been looked at, any other is still to come
    have hmem : linked → v ∈ victims w := by
      intro hl
      have hne : v ≠ w := fun he => h.2 hl (congrArg Location.local he)
      simp [victims, hne]
    cases hvs : victims w with
    | nil =>
      refine ⟨id, fun hl => ?_⟩
      have := hmem hl
      rw [hvs] at this
      cases this
    | cons u rest =>
      rw [hvs] at hmem
      refine ⟨id, fun hl ho => ?_⟩
      obtain ⟨hrest, hcas⟩ := ho
      rcases List.mem_cons.mp (hmem hl) with he | hr
      · obtain ⟨_, _, hc⟩ := hcas he
        cases hc
      · exact hrest hr

/-- The search goes on to the next victim, having found nothing at this one. -/
theorem stealFrom_watches {scan : Scan} {linked : Prop} {w victim : Fin n}
    {rest : List (Fin n)} {head i : ℕ} {L : Location n}
    (h : (.steal scan victim rest (.cas head i []) : Pc n τ).Watches linked w L) :
    (stealFrom scan rest : Pc n τ).Watches linked w L := by
  cases scan with
  | second e =>
    -- what it still watches is one of the victims that are left
    have hrest : linked → ∃ v, L = .local v ∧ v ∈ rest := by
      intro hl
      cases L with
      | global => exact absurd trivial (h.2 hl)
      | «local» v =>
        by_contra hc
        exact h.2 hl ⟨fun hr => hc ⟨v, rfl, hr⟩, fun _ => ⟨head, i, rfl⟩⟩
    cases rest with
    | nil => exact ⟨id, fun hl => by obtain ⟨v, -, hv⟩ := hrest hl; cases hv⟩
    | cons u rest =>
      refine ⟨id, fun hl ho => ?_⟩
      obtain ⟨v, rfl, hv⟩ := hrest hl
      obtain ⟨hno, hcas⟩ := ho
      rcases List.mem_cons.mp hv with he | hr
      · obtain ⟨_, _, hc⟩ := hcas he
        cases hc
      · exact hno hr
  | _ => cases rest <;> exact ⟨id, fun _ => id⟩

/-- One access inside the search of a victim gives it up only if the victim's
queue is empty. -/
theorem steal_watches {scan : Scan} {linked : Prop} {w victim : Fin n}
    {rest : List (Fin n)} {pc pc' : GrabPc τ} {L : Location n}
    (hpc' : L = .local victim → ∀ head i, pc' ≠ .cas head i [])
    (h : (.steal scan victim rest pc : Pc n τ).Watches linked w L) :
    (.steal scan victim rest pc' : Pc n τ).Watches linked w L := by
  cases scan with
  | second e =>
    refine ⟨id, fun hl ho => ?_⟩
    cases L with
    | global => exact h.2 hl trivial
    | «local» v =>
      obtain ⟨hno, hcas⟩ := ho
      refine h.2 hl ⟨hno, fun he => ?_⟩
      obtain ⟨head, i, hc⟩ := hcas he
      exact absurd hc (hpc' (congrArg _ he) head i)
  | _ => exact ⟨id, fun _ => id⟩

/-! ## The steps keep the watch -/

/-- A step of a worker that ends in a program counter no search has been given up
at. -/
theorem Watched.workerStep {s s' : State n m τ} {w : Fin n} (h : Watched capacity s)
    (hpark : Parking s) (hsize : Sized s) (hs : s.stopPc = .notStarted)
    (hparks : s.parks < u64Mod) (hw : WorkerStep capacity w s s') : Watched capacity s' := by
  cases hw with
  | pickTask hpc =>
    refine .of_alert ?_
    split <;> exact ⟨id, fun _ _ => id⟩
  | lifoTake hpc hfilo hslot => exact .of_alert (found_alert _ _)
  | lifoSkip hpc hslot => exact .of_alert ⟨id, fun _ _ => id⟩
  | popMove hpc hv => exact .of_alert ⟨id, fun _ _ => id⟩
  | popTake hpc hq => exact .of_alert (found_alert _ _)
  | @popEmpty scan pc hpc hempty =>
    refine h.move rfl rfl rfl fun L hne => .inl ⟨id, fun _ ho => ?_⟩
    cases scan with
    | second e =>
      -- the queue it has given up is empty
      change L = .local w at ho
      rw [ho] at hne
      exact hne (contents_eq_nil hempty)
    | _ => exact ho
  | @grabNone scan hpc hempty =>
    refine h.move rfl rfl rfl fun L hne => .inr ⟨hne, ?_⟩
    rw [hpc]
    cases L with
    | global => exact absurd hempty hne
    | «local» v => exact afterGrab_watches
  | grabSome hpc hg => exact .of_alert (getFromBuffer_alert _ _ _)
  | @stealMove scan victim rest pc pc' hpc hv hempty =>
    refine h.move rfl rfl rfl fun L hne => .inr ⟨hne, ?_⟩
    rw [hpc]
    refine steal_watches fun hL head i hc => ?_
    rw [hL] at hne
    exact hne (contents_eq_nil (hempty head i hc))
  | stealNone hpc =>
    refine h.move rfl rfl rfl fun L hne => .inr ⟨hne, ?_⟩
    rw [hpc]
    exact stealFrom_watches
  | stealSome hpc hq => exact .of_alert (getFromBuffer_alert _ _ _)
  | pushMove hpc hq hv => exact .of_alert ⟨id, fun _ _ => id⟩
  | pushDone hpc hq => exact .of_alert (resume_alert _)
  | pushRefused hpc => exact .of_alert ⟨id, fun _ _ => id⟩
  | offloadMove hpc hv => exact .of_alert ⟨id, fun _ _ => id⟩
  | offloadTake hpc hq => exact .of_alert ⟨id, fun _ _ => id⟩
  | pushMany hpc => exact .of_alert ⟨id, fun _ _ => id⟩
  | shouldWakeYes hpc hsize => exact .of_alert ⟨id, fun _ _ => id⟩
  -- nobody is stopped, so there is nobody to be woken
  | shouldWakeNo hpc h0 =>
    rw [notified_eq]
    exact .of_stopped_nil (hsize.stopped_eq_nil hparks h0)
  | wakeWorker hpc => exact .notifyWake hpark hs hpc
  | loadWakeups hpc => exact .of_alert ⟨id, fun _ _ => id⟩
  | addStopped hpc => exact .of_alert ⟨id, fun _ _ => id⟩
  | unlinkFound hpc => exact .of_alert ⟨id, fun _ _ => id⟩
  -- before `Stop` no flag is set
  | checkStopYes hpc hstop =>
    rw [hpark.not_flagged hs w] at hstop
    cases hstop
  | checkStopNo hpc hstop =>
    refine h.move rfl rfl rfl fun L hne => .inr ⟨hne, fun hold => ?_⟩
    rw [hpc] at hold
    exact hold
  | unlinkStopped hpc =>
    have hp := hpark.parked w
    rw [Parked, hpc, Pc.stage, Stage.Holds, hpark.not_flagged hs w] at hp
    cases hp
  | waitSleep hpc he =>
    refine h.move rfl rfl rfl fun L hne => .inr ⟨hne, fun hold => ?_⟩
    rw [hpc] at hold
    exact hold
  | waitPass hpc he => exact .of_alert ⟨id, fun _ _ => id⟩
  | unlinkWoken hpc => exact .of_alert ⟨id, fun _ _ => id⟩
  | pushGlobal hpc => exact .of_alert ⟨id, fun _ _ => id⟩

/-- What the watch assumes of the run so far. -/
def WatchedSoFar (capacity : ℕ) (s : State n m τ) : Prop :=
  s.stopPc = .notStarted → s.parks < u64Mod → Watched capacity s

theorem WorkerStep.frame {s s' : State n m τ} {w : Fin n} (hw : WorkerStep capacity w s s') :
    s'.outside = s.outside ∧ s'.stopPc = s.stopPc := by
  cases hw with
  | shouldWakeNo hpc hsize => rw [notified_eq]; exact ⟨rfl, rfl⟩
  | wakeWorker hpc => rw [notified_eq, wakeWorker_frame]; exact ⟨rfl, rfl⟩
  | addStopped hpc => unfold State.addStoppedWorker; split <;> exact ⟨rfl, rfl⟩
  | _ => exact ⟨rfl, rfl⟩

theorem WorkerStep.parks_le {s s' : State n m τ} {w : Fin n} (hw : WorkerStep capacity w s s') :
    s.parks ≤ s'.parks := by
  cases hw with
  | shouldWakeNo hpc hsize => rw [notified_eq]; exact le_rfl
  | wakeWorker hpc => rw [notified_eq, wakeWorker_frame]; exact le_rfl
  | addStopped hpc => unfold State.addStoppedWorker; split <;> exact Nat.le_succ _
  | _ => exact le_rfl

/-- A step of the body of a task. -/
theorem WatchedSoFar.of_alert {t : State n m τ} {w : Fin n} {pc : Pc n τ} (hpc : pc.Alert) :
    WatchedSoFar capacity (t.setPc w pc) := fun _ _ => .of_alert hpc

theorem WatchedSoFar.effect {s s' : State n m τ} {a : Action n m τ}
    (h : WatchedSoFar capacity s) (hpark : Parking s) (hsize : Sized s)
    (hs : Effect capacity s a s') : WatchedSoFar capacity s' := by
  cases hs with
  | work hw =>
    intro hstop hparks
    rw [hw.frame.2] at hstop
    have hp := lt_of_le_of_lt hw.parks_le hparks
    exact (h hstop hp).workerStep hpark hsize hstop hp hw
  | spurious hpc => exact .of_alert ⟨id, fun _ _ => id⟩
  | bodyLocal hpc => exact .of_alert ⟨id, fun _ _ => id⟩
  | bodySlot hpc hslot => exact .of_alert ⟨id, fun _ _ => id⟩
  | bodyEvict hpc hslot => exact .of_alert ⟨id, fun _ _ => id⟩
  | bodyGlobal hpc => exact .of_alert ⟨id, fun _ _ => id⟩
  | bodyDone hpc => exact .of_alert ⟨id, fun _ _ => id⟩
  | submit hi =>
    exact fun hstop hparks => (h hstop hparks).setOutside rfl (by rw [hi]; exact id)
  | @outsidePush i task hi =>
    exact fun _ _ => .of_notifies (i := i) (by simp [Outside.Notifies])
  | @outsideYes i hi h0 =>
    exact fun _ _ => .of_notifies (i := i) (by simp [Outside.Notifies])
  | outsideNo hi h0 => exact fun _ hparks => .of_stopped_nil (hsize.stopped_eq_nil hparks h0)
  | outsideWake hi =>
    intro hstop _
    rw [wakeWorker_frame] at hstop
    exact .outsideWake hpark hstop _
  | stopStart hs => exact fun hstop => absurd hstop (stopNext_ne_notStarted _)
  | stopFlag hs => exact fun hstop => by cases hstop
  | stopFetchAdd hs => exact fun hstop => by cases hstop
  | stopWake hs => exact fun hstop => absurd hstop (stopNext_ne_notStarted _)
  | stopJoin hs hret => exact fun hstop => by cases hstop

theorem watched_of_reachable {C : Action n m τ → State n m τ → Prop} {s : State n m τ}
    (hs : (machine n m τ capacity).ReachableVia C s) : WatchedSoFar capacity s := by
  have hbase : ∀ {s : State n m τ}, (machine n m τ capacity).ReachableVia C s →
      Queues capacity s ∧ Parking s ∧ Sized s := fun hs =>
    ⟨queues_of_reachable hs, parking_of_reachable hs, sized_of_reachable hs⟩
  refine hs.invariant_of hbase (fun s hinit => ?_)
    fun _ _ _ hb _ h _ hst => h.effect hb.2.1 hb.2.2 (step_cases hb.1 hst)
  obtain ⟨null, rfl⟩ := hinit
  exact fun _ _ => .of_stopped_nil rfl

/-! ## The LIFO slot of a worker that has given up -/

/-- A search that has passed the LIFO slot: the first one has reset
`filo_chain_`, so that the second one looks into the slot. -/
def Scan.Slot (filo_chain : ℕ) (lifo_slot : Option τ) : Scan → Prop
  | .starvation => True
  | .first => filo_chain = 0
  | .second _ => lifo_slot = none

def Pc.Slot (filo_chain : ℕ) (lifo_slot : Option τ) : Pc n τ → Prop
  | .lifo (.second _) => filo_chain = 0
  | .pop scan _ => scan.Slot filo_chain lifo_slot
  | .grab scan => scan.Slot filo_chain lifo_slot
  | .steal scan _ _ _ => scan.Slot filo_chain lifo_slot
  | .loadWakeups => filo_chain = 0
  | .addStopped _ => filo_chain = 0
  | .checkStop _ => lifo_slot = none
  | .wait _ => lifo_slot = none
  | .asleep _ => lifo_slot = none
  | .unlinkStopped => lifo_slot = none
  | .returned => lifo_slot = none
  | _ => True

/-- Every worker knows what it has seen of its own slot. -/
def Slots (s : State n m τ) : Prop := ∀ w, (s.pc w).Slot (s.filo_chain_ w) (s.lifo_slot_ w)

theorem found_slot {scan : Scan} {task : τ} {filo : ℕ} {slot : Option τ} :
    (found scan task : Pc n τ).Slot filo slot := by
  cases scan <;> trivial

theorem notFound_slot {scan : Scan} {filo : ℕ} {slot : Option τ} (h : scan.Slot filo slot) :
    (notFound scan : Pc n τ).Slot filo slot := by
  cases scan <;> exact h

theorem stealFrom_slot {scan : Scan} {l : List (Fin n)} {filo : ℕ} {slot : Option τ}
    (h : scan.Slot filo slot) : (stealFrom scan l : Pc n τ).Slot filo slot := by
  cases l with
  | nil => exact notFound_slot h
  | cons v l => exact h

theorem afterGrab_slot {w : Fin n} {scan : Scan} {filo : ℕ} {slot : Option τ}
    (h : scan.Slot filo slot) : (afterGrab w scan : Pc n τ).Slot filo slot := by
  cases scan with
  | starvation => trivial
  | first => exact stealFrom_slot h
  | second e => exact stealFrom_slot h

theorem getFromBuffer_slot {scan : Scan} {task : τ} {rest : List τ} {filo : ℕ}
    {slot : Option τ} : (getFromBuffer scan task rest : Pc n τ).Slot filo slot := by
  cases rest with
  | nil => exact found_slot
  | cons next rest => trivial

theorem resume_slot {k : Caller τ} {filo : ℕ} {slot : Option τ} :
    (k.resume : Pc n τ).Slot filo slot := by
  cases k with
  | getFromBuffer scan task rest => exact getFromBuffer_slot
  | push cur => trivial

theorem afterNotify_resume_slot {k : AfterNotify τ} {filo : ℕ} {slot : Option τ} :
    (k.resume : Pc n τ).Slot filo slot := by
  cases k with
  | offload k => exact resume_slot
  | _ => trivial

/-- A step of worker `w` that may change its slot and its chain. -/
theorem Slots.setPc {s t : State n m τ} (h : Slots s) {w : Fin n} {pc : Pc n τ}
    (hpc : t.pc = s.pc) (hf : ∀ v, v ≠ w → t.filo_chain_ v = s.filo_chain_ v)
    (hl : ∀ v, v ≠ w → t.lifo_slot_ v = s.lifo_slot_ v)
    (hw : pc.Slot (t.filo_chain_ w) (t.lifo_slot_ w)) : Slots (t.setPc w pc) := by
  intro v
  by_cases hv : v = w
  · subst hv
    rw [setPc_pc_self]
    exact hw
  · rw [setPc_pc_of_ne _ _ hv, hpc]
    change (s.pc v).Slot (t.filo_chain_ v) (t.lifo_slot_ v)
    rw [hf v hv, hl v hv]
    exact h v

theorem Slots.move {s t : State n m τ} (h : Slots s) {w : Fin n} {pc : Pc n τ}
    (hpc : t.pc = s.pc) (hf : t.filo_chain_ = s.filo_chain_) (hl : t.lifo_slot_ = s.lifo_slot_)
    (hw : pc.Slot (s.filo_chain_ w) (s.lifo_slot_ w)) : Slots (t.setPc w pc) :=
  h.setPc hpc (fun v _ => by rw [hf]) (fun v _ => by rw [hl]) (by rwa [hf, hl])

theorem woken_slot {pc : Pc n τ} {filo : ℕ} {slot : Option τ} (h : pc.Slot filo slot) :
    pc.woken.Slot filo slot := by
  rcases woken_eq_or pc with he | ⟨-, he⟩
  · rwa [he]
  · rw [he]
    trivial

theorem Slots.wakeWorker {s : State n m τ} (h : Slots s) : Slots s.wakeWorker := by
  cases hst : s.stopped_ with
  | nil => rwa [wakeWorker_of_nil hst]
  | cons w rest =>
    rw [wakeWorker_of_cons hst]
    intro v
    by_cases hv : v = w
    · subst hv
      simpa using woken_slot (h v)
    · simpa [hv] using h v

theorem Slots.workerStep {s s' : State n m τ} {w : Fin n} (h : Slots s)
    (hw : WorkerStep capacity w s s') : Slots s' := by
  have hp := h w
  cases hw with
  | pickTask hpc =>
    refine h.move rfl rfl rfl ?_
    split <;> trivial
  | lifoTake hpc hfilo hslot =>
    exact h.setPc rfl (fun v hv => by simp [hv]) (fun v hv => by simp [hv]) found_slot
  | @lifoSkip scan hpc hslot =>
    refine h.setPc rfl (fun v hv => by simp [hv]) (fun v hv => rfl) ?_
    rw [hpc] at hp
    cases scan with
    | starvation => trivial
    | first => simp [Pc.Slot, Scan.Slot]
    | second e =>
      change s.filo_chain_ w = 0 at hp
      exact hslot (by rw [hp]; decide)
  | popMove hpc hv => exact h.move rfl rfl rfl (by rwa [hpc] at hp)
  | popTake hpc hq => exact h.move rfl rfl rfl found_slot
  | popEmpty hpc hempty => exact h.move rfl rfl rfl (by rwa [hpc] at hp)
  | grabNone hpc hempty =>
    rw [hpc] at hp
    exact h.move rfl rfl rfl (afterGrab_slot hp)
  | grabSome hpc hg => exact h.move rfl rfl rfl getFromBuffer_slot
  | stealMove hpc hv hempty => exact h.move rfl rfl rfl (by rwa [hpc] at hp)
  | stealNone hpc =>
    rw [hpc] at hp
    exact h.move rfl rfl rfl (stealFrom_slot hp)
  | stealSome hpc hq => exact h.move rfl rfl rfl getFromBuffer_slot
  | pushDone hpc hq => exact h.move rfl rfl rfl resume_slot
  | shouldWakeNo hpc hsize =>
    rw [notified_eq]
    exact h.move rfl rfl rfl afterNotify_resume_slot
  | wakeWorker hpc =>
    rw [notified_eq]
    exact h.wakeWorker.move rfl rfl rfl afterNotify_resume_slot
  | loadWakeups hpc => exact h.move rfl rfl rfl (by rwa [hpc] at hp)
  | addStopped hpc =>
    rw [hpc] at hp
    unfold State.addStoppedWorker
    split <;> exact h.move rfl rfl rfl hp
  | checkStopYes hpc hstop => exact h.move rfl rfl rfl (by rwa [hpc] at hp)
  | checkStopNo hpc hstop => exact h.move rfl rfl rfl (by rwa [hpc] at hp)
  | unlinkStopped hpc => exact h.move rfl rfl rfl (by rwa [hpc] at hp)
  | waitSleep hpc he => exact h.move rfl rfl rfl (by rwa [hpc] at hp)
  | _ => exact h.move rfl rfl rfl trivial

theorem Slots.effect {s s' : State n m τ} {a : Action n m τ} (h : Slots s)
    (hs : Effect capacity s a s') : Slots s' := by
  cases hs with
  | work hw => exact h.workerStep hw
  | spurious hpc => exact h.move rfl rfl rfl trivial
  | bodyLocal hpc => exact h.move rfl rfl rfl trivial
  | bodySlot hpc hslot =>
    exact h.setPc rfl (fun _ _ => rfl) (fun v hv => by simp [hv]) trivial
  | bodyEvict hpc hslot =>
    exact h.setPc rfl (fun _ _ => rfl) (fun v hv => by simp [hv]) trivial
  | bodyGlobal hpc => exact h.move rfl rfl rfl trivial
  | bodyDone hpc => exact h.move rfl rfl rfl trivial
  | outsideWake hi => exact h.wakeWorker
  | @stopWake w rest hs =>
    rw [wakeOne_eq]
    exact h.move rfl rfl rfl (woken_slot (h w))
  | _ => exact h

theorem slots_of_reachable {C : Action n m τ → State n m τ → Prop} {s : State n m τ}
    (hs : (machine n m τ capacity).ReachableVia C s) : Slots s := by
  refine hs.invariant_of (fun h => queues_of_reachable h) (fun s hinit => ?_)
    fun _ _ _ hq _ h _ hst => h.effect (step_cases hq hst)
  obtain ⟨null, rfl⟩ := hinit
  exact fun _ => trivial

/-! ## No lost wake-up -/

/-- Worker `w` is in `futex::Wait` and nobody has woken it. -/
def Sleeping (s : State n m τ) (w : Fin n) : Prop :=
  ∃ expected_wu, s.pc w = .asleep expected_wu ∧ s.wakeups_ w = expected_wu

/-- No `Submit` or `Push` is in progress, and every worker is in the body of a
task or sleeps. -/
structure Quiescent (s : State n m τ) : Prop where
  outside : ∀ i, s.outside i = .idle
  workers : ∀ w, (∃ cur, s.pc w = .running cur) ∨ Sleeping s w

/-- In a quiescent state nobody watches anything. -/
theorem Quiescent.not_watches {s : State n m τ} (hq : Quiescent s) (hpark : Parking s)
    (hs : s.stopPc = .notStarted) (L : Location n) : ¬ SomeoneWatches s L := by
  rintro (⟨w, haway, hlook⟩ | ⟨i, hi⟩)
  · rcases hq.workers w with ⟨cur, hpc⟩ | ⟨e, hpc, -⟩
    · rw [hpc] at haway
      exact haway trivial
    · rw [hpc] at hlook
      refine hlook ?_ trivial
      rcases hpark.asleep w e hpc with ⟨hl, -⟩ | ⟨rest, hr⟩
      · exact hl
      · rw [hs] at hr
        cases hr
  · rw [hq.outside i] at hi
    exact hi

/-- **No lost wake-up.** When the pool is quiescent before `Stop` and a worker
sleeps, there is nothing left that could be given to it. -/
theorem no_lost_wakeup {s : State n m τ} (hs : (machine n m τ capacity).Reachable s)
    (hstop : s.stopPc = .notStarted) (hparks : s.parks < u64Mod) (hq : Quiescent s)
    {u : Fin n} (hu : Sleeping s u) :
    s.global_queue_ = [] ∧ (∀ w, (s.local_queue_ w).contents capacity = []) ∧
      ∀ w, Sleeping s w → s.lifo_slot_ w = none := by
  have hpark := parking_of_reachable hs
  have hwatch := watched_of_reachable hs hstop hparks
  have hne : s.stopped_ ≠ [] := by
    obtain ⟨e, hpc, -⟩ := hu
    rcases hpark.asleep u e hpc with ⟨hl, -⟩ | ⟨rest, hr⟩
    · exact List.ne_nil_of_mem hl
    · rw [hstop] at hr
      cases hr
  have hempty : ∀ L, s.tasksAt capacity L = [] := by
    intro L
    by_contra hL
    exact hq.not_watches hpark hstop L (hwatch L hL hne)
  refine ⟨hempty .global, fun w => hempty (.local w), ?_⟩
  rintro w ⟨e, hpc, -⟩
  have hslot := slots_of_reachable hs w
  rw [hpc] at hslot
  exact hslot

/-! ## Past `2^64` parkings

A pool of one worker that is only ever woken spuriously. Each round trip
through `stopped_` adds one to `approximate_size_` and takes nothing off. -/

/-- The only worker sleeps, for the `k`-th time. -/
def asleepAgain (k : ℕ) : State 1 1 ℕ :=
  { State.start 0 with
    iter_ := fun _ => 1
    pc := fun _ => .asleep 0
    stopped_ := [0]
    approximate_size_ := k % u64Mod
    parks := k }

theorem update_fin_one {β : Type*} (f : Fin 1 → β) (i : Fin 1) (y : β) :
    update f i y = fun _ => y := by
  funext j
  rw [Subsingleton.elim j i, Function.update_self]

/-- Nobody is in `stopped_`, and the worker begins its first search. -/
def searchAgain (k : ℕ) : State 1 1 ℕ :=
  { asleepAgain k with
    pc := fun _ => .lifo .first
    stopped_ := [] }

/-- A search that finds nothing ends in `futex::Wait`. -/
theorem sleepAgain (k : ℕ) :
    (machine 1 1 ℕ 7).exec (List.replicate 12 (.work 0 false)) (searchAgain k) =
      some (asleepAgain (k + 1)) := by
  simp [List.replicate, machine, step, workerStep, searchAgain, asleepAgain, State.start,
    State.setPc, State.setQueue, update_fin_one, TryPop, Queue.new, kFILOMaxChain, afterGrab,
    stealFrom, victims, notFound, State.addStoppedWorker, kGrabAmount, List.finRange]

theorem searchAgain_reachable (k : ℕ) : (machine 1 1 ℕ 7).Reachable (searchAgain k) := by
  induction k with
  | zero =>
    have hstart : (machine 1 1 ℕ 7).step (.work 0 false) (State.start 0) =
        some (searchAgain 0) := by
      simp [machine, step, workerStep, State.start, State.setPc, update_fin_one, searchAgain,
        asleepAgain]
    exact .next (.init ⟨0, rfl⟩) _ hstart
  | succ k ih =>
    -- asleep once more, woken without a reason, and out of `stopped_`
    have hasleep := ih.exec _ (sleepAgain k)
    have hwake : (machine 1 1 ℕ 7).exec [.spurious 0, .work 0 false] (asleepAgain (k + 1)) =
        some (searchAgain (k + 1)) := by
      simp [machine, step, workerStep, spurious, State.start, State.setPc, update_fin_one,
        searchAgain, asleepAgain, State.unlink]
    exact hasleep.exec _ hwake

theorem asleepAgain_reachable (k : ℕ) : (machine 1 1 ℕ 7).Reachable (asleepAgain (k + 1)) :=
  (searchAgain_reachable k).exec _ (sleepAgain k)

/-- The first time the worker sleeps, there is nothing to be found. -/
theorem no_lost_wakeup_asleepAgain :
    (asleepAgain 1).global_queue_ = [] ∧
      (∀ w, ((asleepAgain 1).local_queue_ w).contents 7 = []) ∧
      ∀ w, Sleeping (asleepAgain 1) w → (asleepAgain 1).lifo_slot_ w = none :=
  no_lost_wakeup (asleepAgain_reachable 0) rfl (by decide)
    ⟨fun _ => rfl, fun _ => .inr ⟨0, rfl, rfl⟩⟩ (u := 0) ⟨0, rfl, rfl⟩

/-- After `2^64` parkings `approximate_size_` is `0` while the worker is in
`stopped_`, and a `Submit` from outside wakes nobody. -/
theorem lost_wakeup_after_wrap :
    ¬ ∀ s : State 1 1 ℕ, (machine 1 1 ℕ 7).Reachable s → s.stopPc = .notStarted →
      Quiescent s → (∃ u, Sleeping s u) →
      s.global_queue_ = [] ∧ (∀ w, (s.local_queue_ w).contents 7 = []) ∧
        ∀ w, Sleeping s w → s.lifo_slot_ w = none := by
  intro h
  let s : State 1 1 ℕ :=
    { asleepAgain u64Mod with
      submitted := {5}
      global_queue_ := [5]
      outside := fun _ => .idle }
  have hs : (machine 1 1 ℕ 7).Reachable s :=
    (asleepAgain_reachable (u64Mod - 1)).exec [.submit 0 5, .outside 0, .outside 0]
      (by simp [machine, step, submit, outsideStep, asleepAgain, State.start, update_fin_one, s,
        u64Mod])
  have hidle := (h _ hs rfl ⟨fun _ => rfl, fun _ => .inr ⟨0, rfl, rfl⟩⟩ ⟨0, 0, rfl, rfl⟩).1
  cases hidle

end Exe.Pool
