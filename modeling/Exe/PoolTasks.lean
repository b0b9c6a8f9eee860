/-
Where the tasks of the pool are.

Every task handed to `Submit` lies in exactly one place until its `Run` begins:
in a LIFO slot, in the window of a local queue, in the global queue, in the
hands of a worker (the claimed part of a `Grab` buffer, a task on its way from
one queue to another, a task about to be run) or in the hands of a thread that
is inside `Submit`. The places are summed up as multisets (`State.placed`), and
a step moves tasks between them, takes in the one submitted, or starts one
(`accounting`).

Tasks that a thief has copied out of a local queue count as held only from the
successful `compare_exchange` on: before it, the copy is worth nothing.
-/
import Exe.PoolSteps
import Exe.FiniteSums

set_option autoImplicit false

namespace Exe.Pool

open WorkStealingQueue
open Function (update)

variable {n m : ℕ} {τ : Type*} {capacity : ℕ}

/-! ## Hands -/

/-- The tasks `GetFromBuffer` still has to push, with the one it will return. A
running task has been counted when it was started. -/
def Caller.held : Caller τ → Multiset τ
  | .getFromBuffer _ task rest => {task} + ↑rest
  | .push _ => 0

def AfterNotify.held : AfterNotify τ → Multiset τ
  | .offload k => k.held
  | .push _ => 0
  | .work next => {next}

/-- The tasks a worker has taken out of one queue and not put anywhere yet. -/
def Pc.held : Pc n τ → Multiset τ
  | .pushLocal k task _ => {task} + k.held
  | .offload k overflow _ => {overflow} + k.held
  | .pushMany k buffer => ↑buffer + k.held
  | .shouldWake k => k.held
  | .wakeWorker k => k.held
  | .unlinkFound task => {task}
  | .pushGlobal _ task => {task}
  | _ => 0

def Outside.held : Outside τ → Multiset τ
  | .pushOne task => {task}
  | _ => 0

/-- The program counters a task hands its own submissions to. -/
theorem pushLocal_held (cur task : τ) (pc : PushPc) :
    (.pushLocal (.push cur) task pc : Pc n τ).held = {task} := add_zero _

theorem shouldWake_push_held (cur : τ) : (.shouldWake (.push cur) : Pc n τ).held = 0 := rfl

theorem pushGlobal_held (cur task : τ) : (.pushGlobal cur task : Pc n τ).held = {task} := rfl

theorem found_held (scan : Scan) (task : τ) : (found scan task : Pc n τ).held = {task} := by
  cases scan <;> rfl

theorem notFound_held (scan : Scan) : (notFound scan : Pc n τ).held = 0 := by
  cases scan <;> rfl

theorem getFromBuffer_held (scan : Scan) (task : τ) (rest : List τ) :
    (getFromBuffer scan task rest : Pc n τ).held = {task} + ↑rest := by
  cases rest with
  | nil => simp [getFromBuffer, found_held]
  | cons next rest =>
    simp only [getFromBuffer, Pc.held, Caller.held, ← Multiset.cons_coe, ← Multiset.singleton_add]
    exact add_left_comm _ _ _

theorem resume_held (k : Caller τ) : (k.resume : Pc n τ).held = k.held := by
  cases k with
  | getFromBuffer scan task rest => exact getFromBuffer_held scan task rest
  | push cur => rfl

theorem stealFrom_held (scan : Scan) (l : List (Fin n)) :
    (stealFrom scan l : Pc n τ).held = 0 := by
  cases l with
  | nil => exact notFound_held scan
  | cons v l => rfl

theorem afterGrab_held (w : Fin n) (scan : Scan) : (afterGrab w scan : Pc n τ).held = 0 := by
  cases scan with
  | starvation => rfl
  | first => exact stealFrom_held _ _
  | second e => exact stealFrom_held _ _

/-- When `NotifyOnSubmit` returns, the task it was called for is still held or
has been started. -/
theorem afterNotify_resume_held (k : AfterNotify τ) :
    (k.resume : Pc n τ).held + k.starts = k.held := by
  cases k with
  | offload k => simp [AfterNotify.resume, AfterNotify.starts, AfterNotify.held, resume_held]
  | push cur => rfl
  | work next => rfl

theorem woken_held (pc : Pc n τ) : pc.woken.held = pc.held := by
  cases pc <;> rfl

/-! ## The account -/

/-- The tasks worker `w` answers for. -/
def State.owned (capacity : ℕ) (s : State n m τ) (w : Fin n) : Multiset τ :=
  ↑(s.lifo_slot_ w).toList + ↑((s.local_queue_ w).contents capacity) + (s.pc w).held

/-- All tasks that have been submitted and not been started. -/
def State.placed (capacity : ℕ) (s : State n m τ) : Multiset τ :=
  ∑ w, s.owned capacity w + ↑s.global_queue_ + ∑ i, (s.outside i).held

/-- The task a step hands to `Submit`. -/
def Action.accepted : Action n m τ → Multiset τ
  | .bodySubmit _ task _ => {task}
  | .submit _ task => {task}
  | _ => 0

/-- What a step does to the account: it takes in `accepted` and starts
`started`. -/
def Accounts (capacity : ℕ) (accepted : Multiset τ) (s s' : State n m τ) : Prop :=
  ∃ started, s'.ran = started + s.ran ∧ s'.submitted = accepted + s.submitted ∧
    s'.placed capacity + started = accepted + s.placed capacity

/-- A step that changes the belongings of worker `w` and the global queue. -/
theorem Accounts.of_worker {s s' : State n m τ} {accepted : Multiset τ} (w : Fin n)
    (started : Multiset τ) (hran : s'.ran = started + s.ran)
    (hsub : s'.submitted = accepted + s.submitted) (hout : s'.outside = s.outside)
    (hother : ∀ v, v ≠ w → s'.owned capacity v = s.owned capacity v)
    (hself : s'.owned capacity w + ↑s'.global_queue_ + started =
      accepted + (s.owned capacity w + ↑s.global_queue_)) : Accounts capacity accepted s s' := by
  refine ⟨started, hran, hsub, ?_⟩
  have hsum := sum_add_of_eq_off w hother
  refine add_right_cancel (b := s.owned capacity w) ?_
  unfold State.placed
  rw [hout]
  calc
    _ = (∑ v, s'.owned capacity v + s.owned capacity w) + ↑s'.global_queue_ +
        ∑ i, (s.outside i).held + started := by ac_rfl
    _ = (s'.owned capacity w + ↑s'.global_queue_ + started) +
        (∑ v, s.owned capacity v + ∑ i, (s.outside i).held) := by rw [hsum]; ac_rfl
    _ = _ := by rw [hself]; ac_rfl

theorem Accounts.refl (s : State n m τ) : Accounts capacity 0 s s := ⟨0, by simp, by simp, by simp⟩

/-- Two steps in a row. -/
theorem Accounts.trans {s t u : State n m τ} {a b : Multiset τ} (h : Accounts capacity a s t)
    (h' : Accounts capacity b t u) : Accounts capacity (b + a) s u := by
  obtain ⟨x, hrx, hsx, hpx⟩ := h
  obtain ⟨y, hry, hsy, hpy⟩ := h'
  refine ⟨y + x, by rw [hry, hrx, add_assoc], by rw [hsy, hsx, add_assoc], ?_⟩
  rw [← add_assoc, hpy, add_assoc, hpx, add_assoc]

/-- A step that neither the account nor the history notices. -/
theorem Accounts.of_eq {s t : State n m τ} (hran : t.ran = s.ran)
    (hsub : t.submitted = s.submitted) (hg : t.global_queue_ = s.global_queue_)
    (hout : t.outside = s.outside) (ho : ∀ w, t.owned capacity w = s.owned capacity w) :
    Accounts capacity 0 s t := by
  refine ⟨0, by simp [hran], by simp [hsub], ?_⟩
  simp only [State.placed, hg, hout, ho, add_zero, zero_add]

/-- A worker moves its program counter, keeps what it holds and starts
nothing. -/
theorem Accounts.setPc (s : State n m τ) (w : Fin n) {pc : Pc n τ}
    (h : pc.held = (s.pc w).held) : Accounts capacity 0 s (s.setPc w pc) := by
  refine .of_eq rfl rfl rfl rfl fun v => ?_
  by_cases hv : v = w
  · subst hv
    simp [State.owned, h, State.setPc]
  · simp [State.owned, State.setPc, hv]

/-- A worker moves tasks between its slot, its local queue, its hands and the
global queue. -/
theorem Accounts.move {s t : State n m τ} {accepted : Multiset τ} (w : Fin n) {pc : Pc n τ}
    (hran : t.ran = s.ran) (hsub : t.submitted = accepted + s.submitted)
    (hout : t.outside = s.outside) (hpc : t.pc = s.pc)
    (hl : ∀ v, v ≠ w → t.lifo_slot_ v = s.lifo_slot_ v)
    (hq : ∀ v, v ≠ w → t.local_queue_ v = s.local_queue_ v)
    (hself : ↑(t.lifo_slot_ w).toList + ↑((t.local_queue_ w).contents capacity) + pc.held +
        ↑t.global_queue_ = accepted + (s.owned capacity w + ↑s.global_queue_)) :
    Accounts capacity accepted s (t.setPc w pc) := by
  refine .of_worker w 0 (by simp [State.setPc, hran]) hsub hout (fun v hv => ?_) ?_
  · simp [State.owned, State.setPc, hv, hl v hv, hq v hv, hpc]
  · rw [← hself, add_zero, State.owned, setPc_pc_self]
    rfl

/-- A worker takes `buf` out of its own local queue. -/
theorem Accounts.claimOwn {s : State n m τ} {w : Fin n} {q : Queue τ} {pc : Pc n τ}
    {buf : List τ} (hq : (s.local_queue_ w).Claims capacity buf q)
    (h : pc.held = ↑buf + (s.pc w).held) :
    Accounts capacity 0 s ((s.setQueue w q).setPc w pc) := by
  refine .of_worker w 0 (by simp [State.setPc, State.setQueue])
    (by simp [State.setPc, State.setQueue]) rfl (fun v hv => ?_) ?_
  · simp [State.owned, State.setPc, State.setQueue, hv]
  · simp only [State.owned, State.setPc, State.setQueue, Function.update_self, h, hq.contents_eq,
      ← Multiset.coe_add]
    simp only [zero_add, add_zero]
    ac_rfl

/-- A thief takes `buf` out of the local queue of `v`: in the account this is a
step of `v` that lays `buf` into the global queue, and one of the thief that
takes it from there. -/
theorem Accounts.claim {s : State n m τ} {w v : Fin n} {q : Queue τ} {pc : Pc n τ}
    {buf : List τ} (hq : (s.local_queue_ v).Claims capacity buf q)
    (h : pc.held = ↑buf + (s.pc w).held) :
    Accounts capacity 0 s ((s.setQueue v q).setPc w pc) := by
  let t : State n m τ := { s.setQueue v q with global_queue_ := buf ++ s.global_queue_ }
  have h₁ : Accounts capacity 0 s t := by
    refine .of_worker v 0 (by simp [t, State.setQueue]) (by simp [t, State.setQueue]) rfl
      (fun u hu => ?_) ?_
    · simp [t, State.owned, State.setQueue, hu]
    · simp only [t, State.owned, State.setQueue, Function.update_self, hq.contents_eq,
        ← Multiset.coe_add]
      simp only [zero_add, add_zero]
      ac_rfl
  have h₂ : Accounts capacity 0 t ((s.setQueue v q).setPc w pc) := by
    refine .of_worker w 0 (by simp [t, State.setPc, State.setQueue])
      (by simp [t, State.setPc, State.setQueue]) rfl (fun u hu => ?_) ?_
    · simp [t, State.owned, State.setPc, State.setQueue, hu]
    · simp only [t, State.owned, State.setPc, State.setQueue, Function.update_self, h,
        ← Multiset.coe_add]
      simp only [zero_add, add_zero]
      ac_rfl
  exact h₁.trans h₂

/-- `WakeWorker` moves no task. -/
theorem Accounts.wakeWorker (s : State n m τ) : Accounts capacity 0 s s.wakeWorker := by
  cases hst : s.stopped_ with
  | nil => rw [wakeWorker_of_nil hst]; exact .refl s
  | cons w rest =>
    rw [wakeWorker_of_cons hst]
    refine .of_eq rfl rfl rfl rfl fun v => ?_
    by_cases hv : v = w
    · subst hv
      simp [State.owned, woken_held]
    · simp [State.owned, hv]

/-- `NotifyOnSubmit` returns. -/
theorem Accounts.notified {s : State n m τ} {w : Fin n} {k : AfterNotify τ}
    (h : (s.pc w).held = k.held) : Accounts capacity 0 s (s.notified w k) := by
  rw [notified_eq]
  refine .of_worker w k.starts rfl (by simp [State.setPc]) rfl (fun v hv => ?_) ?_
  · simp [State.owned, State.setPc, hv]
  · simp only [State.owned, State.setPc, Function.update_self, h, zero_add]
    rw [← afterNotify_resume_held (n := n) k]
    ac_rfl

/-! ## The steps -/

theorem Accounts.workerStep {s s' : State n m τ} {w : Fin n} (hqs : Queues capacity s)
    (hs : WorkerStep capacity w s s') : Accounts capacity 0 s s' := by
  cases hs with
  | pickTask hpc =>
    refine .trans (.of_eq rfl rfl rfl rfl fun _ => rfl) (.setPc _ w ?_)
    change _ = (s.pc w).held
    rw [hpc]
    split <;> rfl
  | lifoTake hpc hfilo hslot =>
    refine .move w rfl (zero_add _).symm rfl rfl (fun v hv => by simp [hv]) (fun _ _ => rfl) ?_
    have hheld : (s.pc w).held = 0 := by rw [hpc]; rfl
    simp only [State.owned, hslot, hheld, found_held, Function.update_self, Option.toList_none,
      Option.toList_some, Multiset.coe_nil, Multiset.coe_singleton, zero_add, add_zero]
    ac_rfl
  | lifoSkip hpc hslot =>
    refine .trans (.of_eq rfl rfl rfl rfl fun _ => rfl) (.setPc _ w ?_)
    change _ = (s.pc w).held
    rw [hpc]
    rfl
  | popMove hpc hv => exact .setPc s w (by rw [hpc]; rfl)
  | popTake hpc hq => exact .claimOwn hq (by rw [hpc, found_held]; rfl)
  | popEmpty hpc hempty => exact .setPc s w (by rw [hpc]; rfl)
  | grabNone hpc hempty => exact .setPc s w (by rw [hpc, afterGrab_held]; rfl)
  | grabSome hpc hg =>
    refine .move w rfl (zero_add _).symm rfl rfl (fun _ _ => rfl) (fun _ _ => rfl) ?_
    have hheld : (s.pc w).held = 0 := by rw [hpc]; rfl
    simp only [State.owned, hheld, hg, getFromBuffer_held, List.cons_append, ← Multiset.cons_coe,
      ← Multiset.coe_add, ← Multiset.singleton_add, zero_add, add_zero]
    ac_rfl
  | stealMove hpc hv hempty => exact .setPc s w (by rw [hpc]; rfl)
  | stealNone hpc => exact .setPc s w (by rw [hpc, stealFrom_held]; rfl)
  | stealSome hpc hq =>
    refine .claim hq ?_
    rw [hpc, getFromBuffer_held, ← Multiset.cons_coe, ← Multiset.singleton_add]
    exact (add_zero _).symm
  | pushMove hpc hq hv =>
    refine .move w rfl (zero_add _).symm rfl rfl (fun _ _ => rfl)
      (fun v hv => by simp [State.setQueue, hv]) ?_
    simp only [State.setQueue, State.owned, hpc, Function.update_self,
      hq.contents_eq (hqs.inv w), Pc.held, zero_add]
  | @pushDone k task _ _ hpc hq =>
    refine .move w rfl (zero_add _).symm rfl rfl (fun _ _ => rfl)
      (fun v hv => by simp [State.setQueue, hv]) ?_
    have hheld : (s.pc w).held = {task} + k.held := by rw [hpc]; rfl
    simp only [State.setQueue, State.owned, hheld, Function.update_self, resume_held,
      hq.contents_eq (hqs.inv w), zero_add, ← Multiset.coe_add, Multiset.coe_singleton]
    ac_rfl
  | pushRefused hpc => exact .setPc s w (by rw [hpc]; rfl)
  | offloadMove hpc hv => exact .setPc s w (by rw [hpc]; rfl)
  | offloadTake hpc hq =>
    refine .claimOwn hq ?_
    simp only [hpc, Pc.held, ← Multiset.coe_add, Multiset.coe_singleton]
    exact add_assoc _ _ _
  | pushMany hpc =>
    refine .move w rfl (zero_add _).symm rfl rfl (fun _ _ => rfl) (fun _ _ => rfl) ?_
    simp only [State.owned, hpc, Pc.held, AfterNotify.held, zero_add, ← Multiset.coe_add]
    ac_rfl
  | shouldWakeYes hpc hsize => exact .setPc s w (by rw [hpc]; rfl)
  | shouldWakeNo hpc hsize => exact .notified (by rw [hpc]; rfl)
  | wakeWorker hpc =>
    refine .trans (.wakeWorker s) (.notified ?_)
    rcases wakeWorker_pc s w with he | ⟨⟨e, he⟩, -⟩
    · rw [he, hpc]
      rfl
    · rw [hpc] at he
      cases he
  | loadWakeups hpc => exact .setPc s w (by rw [hpc]; rfl)
  | addStopped hpc =>
    unfold State.addStoppedWorker
    split
    all_goals
      refine .trans (.of_eq rfl rfl rfl rfl fun _ => rfl) (.setPc _ w ?_)
      change _ = (s.pc w).held
      rw [hpc]
      rfl
  | unlinkFound hpc =>
    refine .trans (.of_eq rfl rfl rfl rfl fun _ => rfl) (.setPc (s.unlink w) w ?_)
    change _ = (s.pc w).held
    rw [hpc]
    rfl
  | checkStopYes hpc hstop => exact .setPc s w (by rw [hpc]; rfl)
  | checkStopNo hpc hstop => exact .setPc s w (by rw [hpc]; rfl)
  | unlinkStopped hpc =>
    refine .trans (.of_eq rfl rfl rfl rfl fun _ => rfl) (.setPc (s.unlink w) w ?_)
    change _ = (s.pc w).held
    rw [hpc]
    rfl
  | waitSleep hpc he => exact .setPc s w (by rw [hpc]; rfl)
  | waitPass hpc he => exact .setPc s w (by rw [hpc]; rfl)
  | unlinkWoken hpc =>
    refine .trans (.of_eq rfl rfl rfl rfl fun _ => rfl) (.setPc (s.unlink w) w ?_)
    change _ = (s.pc w).held
    rw [hpc]
    rfl
  | pushGlobal hpc =>
    refine .move w rfl (zero_add _).symm rfl rfl (fun _ _ => rfl) (fun _ _ => rfl) ?_
    simp only [State.owned, hpc, Pc.held, AfterNotify.held, zero_add, add_zero,
      ← Multiset.coe_add, Multiset.coe_singleton]
    ac_rfl

/-- A thread outside the pool moves on. -/
theorem Accounts.of_outside {s t : State n m τ} {accepted : Multiset τ} (i : Fin m)
    (hran : t.ran = s.ran) (hsub : t.submitted = accepted + s.submitted)
    (howned : ∀ w, t.owned capacity w = s.owned capacity w)
    (hother : ∀ j, j ≠ i → t.outside j = s.outside j)
    (hself : (t.outside i).held + ↑t.global_queue_ =
      accepted + ((s.outside i).held + ↑s.global_queue_)) :
    Accounts capacity accepted s t := by
  refine ⟨0, by simp [hran], hsub, ?_⟩
  have hsum := sum_add_of_eq_off (f := fun j => (s.outside j).held)
    (g := fun j => (t.outside j).held) i fun j hj => by rw [hother j hj]
  refine add_right_cancel (b := (s.outside i).held) ?_
  simp only [State.placed, howned, add_zero]
  calc
    _ = ∑ w, s.owned capacity w + ↑t.global_queue_ +
        (∑ j, (t.outside j).held + (s.outside i).held) := by ac_rfl
    _ = ((t.outside i).held + ↑t.global_queue_) +
        (∑ w, s.owned capacity w + ∑ j, (s.outside j).held) := by rw [hsum]; ac_rfl
    _ = _ := by rw [hself]; ac_rfl

/-- **Every step keeps the account**: it takes in the task it submits, starts the
task it runs, and moves the rest. -/
theorem accounting {s s' : State n m τ} {a : Action n m τ} (hqs : Queues capacity s)
    (hs : Effect capacity s a s') : Accounts capacity a.accepted s s' := by
  cases hs with
  | work hw => exact .workerStep hqs hw
  | spurious hpc => exact .setPc s _ (by rw [hpc]; rfl)
  | @bodyLocal w cur task hpc =>
    have hheld : (s.pc w).held = 0 := by rw [hpc]; rfl
    refine .move w rfl (Multiset.singleton_add _ _).symm rfl rfl (fun _ _ => rfl)
      (fun _ _ => rfl) ?_
    simp only [State.owned, hheld, pushLocal_held, Action.accepted, add_zero]
    ac_rfl
  | @bodySlot w cur task hpc hslot =>
    have hheld : (s.pc w).held = 0 := by rw [hpc]; rfl
    refine .move w rfl (Multiset.singleton_add _ _).symm rfl rfl (fun v hv => by simp [hv])
      (fun _ _ => rfl) ?_
    simp only [State.owned, hheld, hslot, shouldWake_push_held, Action.accepted, add_zero,
      Function.update_self, Option.toList_none, Option.toList_some, Multiset.coe_nil,
      Multiset.coe_singleton, zero_add]
    ac_rfl
  | @bodyEvict w cur task old hpc hslot =>
    have hheld : (s.pc w).held = 0 := by rw [hpc]; rfl
    refine .move w rfl (Multiset.singleton_add _ _).symm rfl rfl (fun v hv => by simp [hv])
      (fun _ _ => rfl) ?_
    simp only [State.owned, hheld, hslot, pushLocal_held, Action.accepted, add_zero,
      Function.update_self, Option.toList_some, Multiset.coe_singleton]
    ac_rfl
  | @bodyGlobal w cur task hpc =>
    have hheld : (s.pc w).held = 0 := by rw [hpc]; rfl
    refine .move w rfl (Multiset.singleton_add _ _).symm rfl rfl (fun _ _ => rfl)
      (fun _ _ => rfl) ?_
    simp only [State.owned, hheld, pushGlobal_held, Action.accepted, add_zero]
    ac_rfl
  | bodyDone hpc => exact .setPc s _ (by rw [hpc]; rfl)
  | @submit i task hi =>
    refine .of_outside i rfl (Multiset.singleton_add _ _).symm (fun _ => rfl)
      (fun j hj => by simp [hj]) ?_
    simp only [hi, Function.update_self, Outside.held, Action.accepted, zero_add]
  | @outsidePush i task hi =>
    refine .of_outside i rfl (zero_add _).symm (fun _ => rfl) (fun j hj => by simp [hj]) ?_
    simp only [hi, Function.update_self, Outside.held, ← Multiset.coe_add,
      Multiset.coe_singleton, Action.accepted, zero_add]
    ac_rfl
  | @outsideYes i hi hsize =>
    refine .of_outside i rfl (zero_add _).symm (fun _ => rfl) (fun j hj => by simp [hj]) ?_
    simp [hi, Outside.held, Action.accepted]
  | @outsideNo i hi hsize =>
    refine .of_outside i rfl (zero_add _).symm (fun _ => rfl) (fun j hj => by simp [hj]) ?_
    simp [hi, Outside.held, Action.accepted]
  | @outsideWake i hi =>
    have hout : s.wakeWorker.outside = s.outside := by rw [wakeWorker_frame]
    have hidle : Accounts capacity 0 s.wakeWorker
        { s.wakeWorker with outside := update s.outside i .idle } := by
      refine .of_outside i rfl (zero_add _).symm (fun _ => rfl) (fun j hj => ?_) ?_
      · simp [hj, hout]
      · simp [hout, hi, Outside.held]
    exact (Accounts.wakeWorker s).trans hidle
  | stopStart hs => exact .of_eq rfl rfl rfl rfl fun _ => rfl
  | stopFlag hs => exact .of_eq rfl rfl rfl rfl fun _ => rfl
  | stopFetchAdd hs => exact .of_eq rfl rfl rfl rfl fun _ => rfl
  | stopWake hs =>
    rw [wakeOne_eq]
    exact .trans (.setPc s _ (woken_held _)) (.of_eq rfl rfl rfl rfl fun _ => rfl)
  | stopJoin hs hret => exact .of_eq rfl rfl rfl rfl fun _ => rfl

/-! ## The account along a run -/

/-- A task that is still in the pool is not handed to `Submit` again. -/
def NoResubmit (capacity : ℕ) (a : Action n m τ) (s : State n m τ) : Prop :=
  ∀ task ∈ a.accepted, task ∉ s.placed capacity

theorem placed_start (null : τ) : (State.start null : State n m τ).placed capacity = 0 := by
  simp [State.placed, State.owned, State.start, Queue.contents, Queue.new, Pc.held, Outside.held]

/-- What has been submitted is in the pool or has been started, submission by
submission. -/
theorem submitted_eq {C : Action n m τ → State n m τ → Prop} {s : State n m τ}
    (hs : (machine n m τ capacity).ReachableVia C s) :
    s.submitted = s.placed capacity + s.ran := by
  refine hs.invariant_of (I := fun s => s.submitted = s.placed capacity + s.ran)
    (fun h => queues_of_reachable h) (fun s hinit => ?_) fun a s s' hq _ h _ hst => ?_
  · obtain ⟨null, rfl⟩ := hinit
    rw [placed_start]
    rfl
  · obtain ⟨started, hran, hsub, hplaced⟩ := accounting hq (step_cases hq hst)
    rw [hsub, h, hran, ← add_assoc, ← hplaced, add_assoc]

/-- No task is in two places at once. -/
theorem placed_nodup {C : Action n m τ → State n m τ → Prop} {s : State n m τ}
    (hC : ∀ a s, C a s → NoResubmit capacity a s)
    (hs : (machine n m τ capacity).ReachableVia C s) : (s.placed capacity).Nodup := by
  refine hs.invariant_of (I := fun s => (s.placed capacity).Nodup)
    (fun h => queues_of_reachable h) (fun s hinit => ?_) fun a s s' hq _ h hc hst => ?_
  · obtain ⟨null, rfl⟩ := hinit
    rw [placed_start]
    exact Multiset.nodup_zero
  · obtain ⟨started, -, -, hplaced⟩ := accounting hq (step_cases hq hst)
    have hacc : a.accepted.Nodup := by cases a <;> simp [Action.accepted]
    have hnd : (a.accepted + s.placed capacity).Nodup :=
      (Multiset.nodup_add).mpr ⟨hacc, h, Multiset.disjoint_left.mpr fun {_} => hC a s hc _⟩
    rw [← hplaced] at hnd
    exact Multiset.nodup_of_le (Multiset.le_add_right _ _) hnd

end Exe.Pool
