/-
What one step of the pool can do, said once.

`Pool` gives the steps as functions. Here each of them is inverted: a step of a
worker is one of the cases of `WorkerStep`, and every case says what it read,
what it changed and what it knows afterwards, in the terms of the local queues'
contents and not of their cells. The invariants of the pool are proved by cases
on `WorkerStep` and never look at `workerStep` again.

The facts about the local queues come from `WorkStealingQueue`; what they need
is that every worker's program counter is valid for the queue it is working on
(`Queues`), and this is the one invariant proved here.
-/
import Exe.Pool
import Mathlib.Data.Multiset.AddSub

set_option autoImplicit false

namespace Exe.Pool

open WorkStealingQueue
open Function (update)

variable {n m : ℕ} {τ : Type*} {capacity : ℕ}

/-! ## Setters -/

@[simp] theorem setPc_pc_self (s : State n m τ) (w : Fin n) (pc : Pc n τ) :
    (s.setPc w pc).pc w = pc := by simp [State.setPc]

theorem setPc_pc_of_ne (s : State n m τ) {w v : Fin n} (pc : Pc n τ) (h : v ≠ w) :
    (s.setPc w pc).pc v = s.pc v := by simp [State.setPc, h]

theorem setQueue_self (s : State n m τ) (w : Fin n) :
    s.setQueue w (s.local_queue_ w) = s := by simp [State.setQueue]

/-! ## The cases of a worker's step -/

/-- What the program counter of worker `w` knows about the local queues. -/
def Pc.Valid (capacity : ℕ) (queues : Fin n → Queue τ) (w : Fin n) : Pc n τ → Prop
  | .pop _ pc => pc.Valid (queues w)
  | .steal _ victim _ pc => pc.Valid (kGrabAmount capacity) (queues victim)
  | .pushLocal _ task pc => pc.Valid capacity (queues w) task
  | .offload _ _ pc => pc.Valid (kGrabAmount capacity - 1) (queues w)
  | _ => True

/-- Everything a step of worker `w` outside the body of a task can do. -/
inductive WorkerStep (capacity : ℕ) (w : Fin n) (s : State n m τ) : State n m τ → Prop
  | pickTask (hpc : s.pc w = .pickTask) :
    WorkerStep capacity w s
      ({ s with iter_ := update s.iter_ w ((s.iter_ w + 1) % sizeMod) }.setPc w
        (if (s.iter_ w + 1) % sizeMod % 61 = 0 then .grab .starvation else .lifo .first))
  | lifoTake {scan : Scan} {task : τ} (hpc : s.pc w = .lifo scan)
    (hfilo : s.filo_chain_ w < kFILOMaxChain) (hslot : s.lifo_slot_ w = some task) :
    WorkerStep capacity w s
      ({ s with
        lifo_slot_ := update s.lifo_slot_ w none
        filo_chain_ := update s.filo_chain_ w (s.filo_chain_ w + 1) }.setPc w (found scan task))
  | lifoSkip {scan : Scan} (hpc : s.pc w = .lifo scan)
    (hslot : s.filo_chain_ w < kFILOMaxChain → s.lifo_slot_ w = none) :
    WorkerStep capacity w s
      ({ s with filo_chain_ := update s.filo_chain_ w 0 }.setPc w (.pop scan .loadHead))
  | popMove {scan : Scan} {pc pc' : PopPc τ} (hpc : s.pc w = .pop scan pc)
    (hv : pc'.Valid (s.local_queue_ w)) : WorkerStep capacity w s (s.setPc w (.pop scan pc'))
  | popTake {scan : Scan} {pc : PopPc τ} {task : τ} {q : Queue τ} (hpc : s.pc w = .pop scan pc)
    (hq : (s.local_queue_ w).Claims capacity [task] q) :
    WorkerStep capacity w s ((s.setQueue w q).setPc w (found scan task))
  | popEmpty {scan : Scan} {pc : PopPc τ} (hpc : s.pc w = .pop scan pc)
    (hempty : (s.local_queue_ w).head_ = (s.local_queue_ w).tail_) :
    WorkerStep capacity w s (s.setPc w (.grab scan))
  | grabNone {scan : Scan} (hpc : s.pc w = .grab scan) (hempty : s.global_queue_ = []) :
    WorkerStep capacity w s (s.setPc w (afterGrab w scan))
  | grabSome {scan : Scan} {task : τ} {rest g : List τ} (hpc : s.pc w = .grab scan)
    (hg : s.global_queue_ = task :: rest ++ g) :
    WorkerStep capacity w s
      ({ s with global_queue_ := g }.setPc w (getFromBuffer scan task rest))
  | stealMove {scan : Scan} {victim : Fin n} {rest : List (Fin n)} {pc pc' : GrabPc τ}
    (hpc : s.pc w = .steal scan victim rest pc)
    (hv : pc'.Valid (kGrabAmount capacity) (s.local_queue_ victim))
    (hempty : ∀ head i, pc' = .cas head i [] →
      (s.local_queue_ victim).head_ = (s.local_queue_ victim).tail_) :
    WorkerStep capacity w s (s.setPc w (.steal scan victim rest pc'))
  | stealNone {scan : Scan} {victim : Fin n} {rest : List (Fin n)} {head i : ℕ}
    (hpc : s.pc w = .steal scan victim rest (.cas head i [])) :
    WorkerStep capacity w s (s.setPc w (stealFrom scan rest))
  | stealSome {scan : Scan} {victim : Fin n} {rest : List (Fin n)} {pc : GrabPc τ} {task : τ}
    {buf : List τ} {q : Queue τ} (hpc : s.pc w = .steal scan victim rest pc)
    (hq : (s.local_queue_ victim).Claims capacity (task :: buf) q) :
    WorkerStep capacity w s ((s.setQueue victim q).setPc w (getFromBuffer scan task buf))
  | pushMove {k : Caller τ} {task : τ} {pc pc' : PushPc} {q : Queue τ}
    (hpc : s.pc w = .pushLocal k task pc) (hq : (s.local_queue_ w).Quiet capacity q)
    (hv : pc'.Valid capacity q task) :
    WorkerStep capacity w s ((s.setQueue w q).setPc w (.pushLocal k task pc'))
  | pushDone {k : Caller τ} {task : τ} {pc : PushPc} {q : Queue τ}
    (hpc : s.pc w = .pushLocal k task pc) (hq : (s.local_queue_ w).Stores capacity task q) :
    WorkerStep capacity w s ((s.setQueue w q).setPc w k.resume)
  | pushRefused {k : Caller τ} {task : τ} {pc : PushPc} (hpc : s.pc w = .pushLocal k task pc) :
    WorkerStep capacity w s (s.setPc w (.offload k task .loadHead))
  | offloadMove {k : Caller τ} {task : τ} {pc pc' : GrabPc τ}
    (hpc : s.pc w = .offload k task pc)
    (hv : pc'.Valid (kGrabAmount capacity - 1) (s.local_queue_ w)) :
    WorkerStep capacity w s (s.setPc w (.offload k task pc'))
  | offloadTake {k : Caller τ} {task : τ} {pc : GrabPc τ} {buf : List τ} {q : Queue τ}
    (hpc : s.pc w = .offload k task pc) (hq : (s.local_queue_ w).Claims capacity buf q) :
    WorkerStep capacity w s ((s.setQueue w q).setPc w (.pushMany k (buf ++ [task])))
  | pushMany {k : Caller τ} {buffer : List τ} (hpc : s.pc w = .pushMany k buffer) :
    WorkerStep capacity w s
      ({ s with global_queue_ := s.global_queue_ ++ buffer }.setPc w (.shouldWake (.offload k)))
  | shouldWakeYes {k : AfterNotify τ} (hpc : s.pc w = .shouldWake k)
    (hsize : 0 < s.approximate_size_) : WorkerStep capacity w s (s.setPc w (.wakeWorker k))
  | shouldWakeNo {k : AfterNotify τ} (hpc : s.pc w = .shouldWake k)
    (hsize : s.approximate_size_ = 0) : WorkerStep capacity w s (s.notified w k)
  | wakeWorker {k : AfterNotify τ} (hpc : s.pc w = .wakeWorker k) :
    WorkerStep capacity w s (s.wakeWorker.notified w k)
  | loadWakeups (hpc : s.pc w = .loadWakeups) :
    WorkerStep capacity w s (s.setPc w (.addStopped (s.wakeups_ w)))
  | addStopped {e : ℕ} (hpc : s.pc w = .addStopped e) :
    WorkerStep capacity w s ((s.addStoppedWorker w).setPc w (.lifo (.second e)))
  | unlinkFound {task : τ} (hpc : s.pc w = .unlinkFound task) :
    WorkerStep capacity w s ((s.unlink w).setPc w (.shouldWake (.work task)))
  | checkStopYes {e : ℕ} (hpc : s.pc w = .checkStop e) (hstop : s.has_stopped_ w = true) :
    WorkerStep capacity w s (s.setPc w .unlinkStopped)
  | checkStopNo {e : ℕ} (hpc : s.pc w = .checkStop e) (hstop : s.has_stopped_ w = false) :
    WorkerStep capacity w s (s.setPc w (.wait e))
  | unlinkStopped (hpc : s.pc w = .unlinkStopped) :
    WorkerStep capacity w s ((s.unlink w).setPc w .returned)
  | waitSleep {e : ℕ} (hpc : s.pc w = .wait e) (he : s.wakeups_ w = e) :
    WorkerStep capacity w s (s.setPc w (.asleep e))
  | waitPass {e : ℕ} (hpc : s.pc w = .wait e) (he : s.wakeups_ w ≠ e) :
    WorkerStep capacity w s (s.setPc w .unlinkWoken)
  | unlinkWoken (hpc : s.pc w = .unlinkWoken) :
    WorkerStep capacity w s ((s.unlink w).setPc w (.lifo .first))
  | pushGlobal {cur task : τ} (hpc : s.pc w = .pushGlobal cur task) :
    WorkerStep capacity w s
      ({ s with global_queue_ := s.global_queue_ ++ [task] }.setPc w (.shouldWake (.push cur)))

/-- The local queues are well formed, and every worker's program counter is
valid for the queue it is working on. -/
structure Queues (capacity : ℕ) (s : State n m τ) : Prop where
  inv : ∀ w, (s.local_queue_ w).Inv capacity
  valid : ∀ w, (s.pc w).Valid capacity s.local_queue_ w

theorem kGrabAmount_pos (capacity : ℕ) : 0 < kGrabAmount capacity := by
  unfold kGrabAmount
  omega

/-- **Inversion of a worker's step.** -/
theorem workerStep_cases {s s' : State n m τ} {w : Fin n} {weak : Bool}
    (h : Queues capacity s) (hs : workerStep capacity w weak s = some s') :
    WorkerStep capacity w s s' := by
  have hv := h.valid w
  unfold workerStep at hs
  cases hpc : s.pc w with
  | pickTask =>
    simp only [hpc, Option.some.injEq] at hs
    exact hs ▸ .pickTask hpc
  | lifo scan =>
    simp only [hpc] at hs
    by_cases hfilo : s.filo_chain_ w < kFILOMaxChain
    · cases hslot : s.lifo_slot_ w with
      | none =>
        simp only [hfilo, hslot, if_true, Option.some.injEq] at hs
        exact hs ▸ .lifoSkip hpc fun _ => hslot
      | some task =>
        simp only [hfilo, hslot, if_true, Option.some.injEq] at hs
        exact hs ▸ .lifoTake hpc hfilo hslot
    · simp only [hfilo, if_false, Option.some.injEq] at hs
      exact hs ▸ .lifoSkip hpc fun hlt => absurd hlt hfilo
  | pop scan pc =>
    rw [hpc] at hv
    rcases TryPop_cases weak (h.inv w) hv with
      ⟨pc', he, hv'⟩ | ⟨q, task, he, hq⟩ | ⟨he, hempty⟩
    · simp only [hpc, he, setQueue_self, Option.some.injEq] at hs
      exact hs ▸ .popMove hpc hv'
    · simp only [hpc, he, Option.some.injEq] at hs
      exact hs ▸ .popTake hpc hq
    · simp only [hpc, he, setQueue_self, Option.some.injEq] at hs
      exact hs ▸ .popEmpty hpc hempty
  | grab scan =>
    have hpos := kGrabAmount_pos capacity
    cases ht : s.global_queue_.take (kGrabAmount capacity) with
    | nil =>
      simp only [hpc, ht, Option.some.injEq] at hs
      refine hs ▸ .grabNone hpc ?_
      rcases List.take_eq_nil_iff.mp ht with h0 | h0
      · omega
      · exact h0
    | cons task rest =>
      simp only [hpc, ht, Option.some.injEq] at hs
      exact hs ▸ .grabSome hpc (by rw [← ht, List.take_append_drop])
  | steal scan victim rest pc =>
    rw [hpc] at hv
    rcases Grab_cases weak (h.inv victim) hv with
      ⟨pc', he, hv', hempty⟩ | ⟨q, buf, he, -, hq, head, i, rfl⟩
    · simp only [hpc, he, setQueue_self, Option.some.injEq] at hs
      have hpos := kGrabAmount_pos capacity
      exact hs ▸ .stealMove hpc hv' fun head i hc =>
        (hempty head i hc).resolve_left (by omega)
    · cases buf with
      | nil =>
        simp only [hpc, he, hq.eq_self, setQueue_self, Option.some.injEq] at hs
        exact hs ▸ .stealNone hpc
      | cons task buf =>
        simp only [hpc, he, Option.some.injEq] at hs
        exact hs ▸ .stealSome hpc hq
  | pushLocal k task pc =>
    rw [hpc] at hv
    rcases TryPush_cases (h.inv w) hv with ⟨q, pc', he, hq, hv'⟩ | ⟨q, he, hq⟩ | ⟨he, -⟩
    · simp only [hpc, he, Option.some.injEq] at hs
      exact hs ▸ .pushMove hpc hq hv'
    · simp only [hpc, he, Option.some.injEq] at hs
      exact hs ▸ .pushDone hpc hq
    · simp only [hpc, he, setQueue_self, Option.some.injEq] at hs
      exact hs ▸ .pushRefused hpc
  | offload k task pc =>
    rw [hpc] at hv
    rcases Grab_cases weak (h.inv w) hv with
      ⟨pc', he, hv', -⟩ | ⟨q, buf, he, -, hq, -⟩
    · simp only [hpc, he, setQueue_self, Option.some.injEq] at hs
      exact hs ▸ .offloadMove hpc hv'
    · simp only [hpc, he, Option.some.injEq] at hs
      exact hs ▸ .offloadTake hpc hq
  | pushMany k buffer =>
    simp only [hpc, Option.some.injEq] at hs
    exact hs ▸ .pushMany hpc
  | shouldWake k =>
    simp only [hpc] at hs
    split at hs
    · cases hs
      exact .shouldWakeYes hpc ‹_›
    · cases hs
      exact .shouldWakeNo hpc (by omega)
  | wakeWorker k =>
    simp only [hpc, Option.some.injEq] at hs
    exact hs ▸ .wakeWorker hpc
  | loadWakeups =>
    simp only [hpc, Option.some.injEq] at hs
    exact hs ▸ .loadWakeups hpc
  | addStopped e =>
    simp only [hpc, Option.some.injEq] at hs
    exact hs ▸ .addStopped hpc
  | unlinkFound task =>
    simp only [hpc, Option.some.injEq] at hs
    exact hs ▸ .unlinkFound hpc
  | checkStop e =>
    cases hstop : s.has_stopped_ w with
    | true =>
      simp only [hpc, hstop, if_true, Option.some.injEq] at hs
      exact hs ▸ .checkStopYes hpc hstop
    | false =>
      simp only [hpc, hstop, Bool.false_eq_true, if_false, Option.some.injEq] at hs
      exact hs ▸ .checkStopNo hpc hstop
  | unlinkStopped =>
    simp only [hpc, Option.some.injEq] at hs
    exact hs ▸ .unlinkStopped hpc
  | wait e =>
    simp only [hpc] at hs
    split at hs
    · cases hs
      exact .waitSleep hpc ‹_›
    · cases hs
      exact .waitPass hpc ‹_›
  | asleep e => simp [hpc] at hs
  | unlinkWoken =>
    simp only [hpc, Option.some.injEq] at hs
    exact hs ▸ .unlinkWoken hpc
  | running cur => simp [hpc] at hs
  | pushGlobal cur task =>
    simp only [hpc, Option.some.injEq] at hs
    exact hs ▸ .pushGlobal hpc
  | returned => simp [hpc] at hs

/-! ## The other steps -/

/-- Everything any step of the pool can do. -/
inductive Effect (capacity : ℕ) (s : State n m τ) : Action n m τ → State n m τ → Prop
  | work {w : Fin n} {weak : Bool} {s' : State n m τ} (h : WorkerStep capacity w s s') :
    Effect capacity s (.work w weak) s'
  | spurious {w : Fin n} {e : ℕ} (hpc : s.pc w = .asleep e) :
    Effect capacity s (.spurious w) (s.setPc w .unlinkWoken)
  | bodyLocal {w : Fin n} {cur task : τ} (hpc : s.pc w = .running cur) :
    Effect capacity s (.bodySubmit w task .UpToYou)
      ({ s with submitted := task ::ₘ s.submitted }.setPc w
        (.pushLocal (.push cur) task .loadTail))
  | bodySlot {w : Fin n} {cur task : τ} (hpc : s.pc w = .running cur)
    (hslot : s.lifo_slot_ w = none) :
    Effect capacity s (.bodySubmit w task .Next)
      ({ s with
        submitted := task ::ₘ s.submitted
        lifo_slot_ := update s.lifo_slot_ w (some task) }.setPc w (.shouldWake (.push cur)))
  | bodyEvict {w : Fin n} {cur task old : τ} (hpc : s.pc w = .running cur)
    (hslot : s.lifo_slot_ w = some old) :
    Effect capacity s (.bodySubmit w task .Next)
      ({ s with
        submitted := task ::ₘ s.submitted
        lifo_slot_ := update s.lifo_slot_ w (some task) }.setPc w
          (.pushLocal (.push cur) old .loadTail))
  | bodyGlobal {w : Fin n} {cur task : τ} (hpc : s.pc w = .running cur) :
    Effect capacity s (.bodySubmit w task .Yield)
      ({ s with submitted := task ::ₘ s.submitted }.setPc w (.pushGlobal cur task))
  | bodyDone {w : Fin n} {cur : τ} (hpc : s.pc w = .running cur) :
    Effect capacity s (.bodyDone w) (s.setPc w .pickTask)
  | submit {i : Fin m} {task : τ} (hi : s.outside i = .idle) :
    Effect capacity s (.submit i task)
      { s with
        submitted := task ::ₘ s.submitted
        outside := update s.outside i (.pushOne task) }
  | outsidePush {i : Fin m} {task : τ} (hi : s.outside i = .pushOne task) :
    Effect capacity s (.outside i)
      { s with
        global_queue_ := s.global_queue_ ++ [task]
        outside := update s.outside i .shouldWake }
  | outsideYes {i : Fin m} (hi : s.outside i = .shouldWake) (hsize : 0 < s.approximate_size_) :
    Effect capacity s (.outside i) { s with outside := update s.outside i .wakeWorker }
  | outsideNo {i : Fin m} (hi : s.outside i = .shouldWake) (hsize : s.approximate_size_ = 0) :
    Effect capacity s (.outside i) { s with outside := update s.outside i .idle }
  | outsideWake {i : Fin m} (hi : s.outside i = .wakeWorker) :
    Effect capacity s (.outside i) { s.wakeWorker with outside := update s.outside i .idle }
  | stopStart (hs : s.stopPc = .notStarted) :
    Effect capacity s .stop { s with stopPc := stopNext (List.finRange n) }
  | stopFlag {w : Fin n} {rest : List (Fin n)} (hs : s.stopPc = .flag w rest) :
    Effect capacity s .stop
      { s with has_stopped_ := update s.has_stopped_ w true, stopPc := .fetchAdd w rest }
  | stopFetchAdd {w : Fin n} {rest : List (Fin n)} (hs : s.stopPc = .fetchAdd w rest) :
    Effect capacity s .stop { s.fetchAddWakeups w with stopPc := .wakeOne w rest }
  | stopWake {w : Fin n} {rest : List (Fin n)} (hs : s.stopPc = .wakeOne w rest) :
    Effect capacity s .stop { s.wakeOne w with stopPc := stopNext rest }
  | stopJoin (hs : s.stopPc = .join) (hret : ∀ w, (s.pc w).isReturned = true) :
    Effect capacity s .stop { s with stopPc := .returned }

/-- **Inversion of a step.** -/
theorem step_cases {s s' : State n m τ} {a : Action n m τ} (h : Queues capacity s)
    (hs : step capacity a s = some s') : Effect capacity s a s' := by
  cases a with
  | work w weak => exact .work (workerStep_cases h hs)
  | spurious w =>
    simp only [step, Pool.spurious] at hs
    split at hs
    · cases hs
      exact .spurious ‹_›
    · cases hs
  | bodySubmit w task hint =>
    simp only [step, Pool.bodySubmit] at hs
    split at hs
    · rename_i cur hpc
      cases hint with
      | UpToYou =>
        cases hs
        exact .bodyLocal hpc
      | Next =>
        cases hslot : s.lifo_slot_ w with
        | none =>
          simp only [hslot, Option.some.injEq] at hs
          exact hs ▸ .bodySlot hpc hslot
        | some old =>
          simp only [hslot, Option.some.injEq] at hs
          exact hs ▸ .bodyEvict hpc hslot
      | Yield =>
        cases hs
        exact .bodyGlobal hpc
    · cases hs
  | bodyDone w =>
    simp only [step, Pool.bodyDone] at hs
    split at hs
    · cases hs
      exact .bodyDone ‹_›
    · cases hs
  | submit i task =>
    simp only [step, Pool.submit] at hs
    split at hs
    · cases hs
      exact .submit ‹_›
    · cases hs
  | outside i =>
    simp only [step, outsideStep] at hs
    split at hs
    · cases hs
    · cases hs
      exact .outsidePush ‹_›
    · cases hs
      rename_i hi
      split
      · exact .outsideYes hi ‹_›
      · exact .outsideNo hi (by omega)
    · cases hs
      exact .outsideWake ‹_›
  | stop =>
    simp only [step, stopStep] at hs
    split at hs
    · cases hs
      exact .stopStart ‹_›
    · cases hs
      exact .stopFlag ‹_›
    · cases hs
      exact .stopFetchAdd ‹_›
    · cases hs
      exact .stopWake ‹_›
    · split at hs
      · cases hs
        exact .stopJoin ‹_› ‹_›
      · cases hs
    · cases hs

/-! ## The local queues stay well formed -/

/-- A program counter that knows nothing about the local queues. -/
def Pc.Blank (pc : Pc n τ) : Prop :=
  ∀ (capacity : ℕ) (queues : Fin n → Queue τ) (w : Fin n), pc.Valid capacity queues w

theorem found_blank (scan : Scan) (task : τ) : (found scan task : Pc n τ).Blank := by
  intro _ _ _
  cases scan <;> trivial

theorem notFound_blank (scan : Scan) : (notFound scan : Pc n τ).Blank := by
  intro _ _ _
  cases scan <;> trivial

theorem getFromBuffer_blank (scan : Scan) (task : τ) (rest : List τ) :
    (getFromBuffer scan task rest : Pc n τ).Blank := by
  cases rest with
  | nil => exact found_blank scan task
  | cons next rest => exact fun _ _ _ => trivial

theorem resume_blank (k : Caller τ) : (k.resume : Pc n τ).Blank := by
  cases k with
  | getFromBuffer scan task rest => exact getFromBuffer_blank scan task rest
  | push cur => exact fun _ _ _ => trivial

theorem stealFrom_blank (scan : Scan) (l : List (Fin n)) :
    (stealFrom scan l : Pc n τ).Blank := by
  cases l with
  | nil => exact notFound_blank scan
  | cons v l => exact fun _ _ _ => trivial

theorem afterGrab_blank (w : Fin n) (scan : Scan) : (afterGrab w scan : Pc n τ).Blank := by
  cases scan with
  | starvation =>
    change (notFound Scan.starvation : Pc n τ).Blank
    exact notFound_blank _
  | first => exact stealFrom_blank _ _
  | second e => exact stealFrom_blank _ _

/-- Where a worker goes on when `NotifyOnSubmit` returns, and the task it starts
there. -/
def AfterNotify.resume : AfterNotify τ → Pc n τ
  | .offload k => k.resume
  | .push cur => .running cur
  | .work next => .running next

def AfterNotify.starts : AfterNotify τ → Multiset τ
  | .work next => {next}
  | _ => 0

theorem afterNotify_resume_blank (k : AfterNotify τ) : (k.resume : Pc n τ).Blank := by
  cases k with
  | offload k => exact resume_blank k
  | _ => exact fun _ _ _ => trivial

theorem notified_eq (s : State n m τ) (w : Fin n) (k : AfterNotify τ) :
    s.notified w k = { s with ran := k.starts + s.ran }.setPc w k.resume := by
  cases k <;> simp [State.notified, AfterNotify.starts, AfterNotify.resume]

/-- What a wake-up does to a program counter. -/
def Pc.woken : Pc n τ → Pc n τ
  | .asleep _ => .unlinkWoken
  | pc => pc

theorem woken_eq_or (pc : Pc n τ) :
    pc.woken = pc ∨ ((∃ e, pc = .asleep e) ∧ pc.woken = .unlinkWoken) := by
  cases pc with
  | asleep e => exact .inr ⟨⟨e, rfl⟩, rfl⟩
  | _ => exact .inl rfl

theorem woken_ne_asleep (pc : Pc n τ) (e : ℕ) : pc.woken ≠ .asleep e := by
  cases pc <;> simp [Pc.woken]

theorem wakeOne_eq (s : State n m τ) (w : Fin n) :
    s.wakeOne w = s.setPc w (s.pc w).woken := by
  unfold State.wakeOne
  cases hpc : s.pc w <;> simp [Pc.woken, State.setPc, ← hpc]

theorem wakeWorker_of_nil {s : State n m τ} (h : s.stopped_ = []) : s.wakeWorker = s := by
  simp [State.wakeWorker, h]

theorem wakeWorker_of_cons {s : State n m τ} {w : Fin n} {rest : List (Fin n)}
    (h : s.stopped_ = w :: rest) :
    s.wakeWorker = { s with
      stopped_ := rest
      approximate_size_ := (s.approximate_size_ + (u64Mod - 1)) % u64Mod
      wakeups_ := update s.wakeups_ w ((s.wakeups_ w + 1) % u32Mod)
      pc := update s.pc w (s.pc w).woken } := by
  simp [State.wakeWorker, h, wakeOne_eq, State.fetchAddWakeups, State.setPc]

/-- `WakeWorker` works on the parking lot only. -/
theorem wakeWorker_frame (s : State n m τ) :
    s.wakeWorker = { s with
      stopped_ := s.wakeWorker.stopped_
      approximate_size_ := s.wakeWorker.approximate_size_
      wakeups_ := s.wakeWorker.wakeups_
      pc := s.wakeWorker.pc } := by
  cases h : s.stopped_ with
  | nil => rw [wakeWorker_of_nil h]
  | cons w rest => rw [wakeWorker_of_cons h]

@[simp] theorem wakeWorker_local_queue (s : State n m τ) :
    s.wakeWorker.local_queue_ = s.local_queue_ := by rw [wakeWorker_frame]

theorem wakeWorker_pc (s : State n m τ) (v : Fin n) :
    s.wakeWorker.pc v = s.pc v ∨ ((∃ e, s.pc v = .asleep e) ∧
      s.wakeWorker.pc v = .unlinkWoken) := by
  cases h : s.stopped_ with
  | nil => exact .inl (by rw [wakeWorker_of_nil h])
  | cons w rest =>
    rw [wakeWorker_of_cons h]
    by_cases hv : v = w
    · subst hv
      simpa using woken_eq_or (s.pc v)
    · exact .inl (by simp [hv])

theorem wakeOne_pc (s : State n m τ) (w v : Fin n) :
    (s.wakeOne w).pc v = s.pc v ∨ ((∃ e, s.pc v = .asleep e) ∧
      (s.wakeOne w).pc v = .unlinkWoken) := by
  rw [wakeOne_eq]
  by_cases hv : v = w
  · subst hv
    simpa using woken_eq_or (s.pc v)
  · exact .inl (setPc_pc_of_ne _ _ hv)

/-- A step of `w` (or of nobody) that leaves the local queues alone. -/
theorem Queues.of_eq {s s' : State n m τ} (h : Queues capacity s)
    (hq : s'.local_queue_ = s.local_queue_)
    (hpc : ∀ v, s'.pc v = s.pc v ∨ (s'.pc v).Blank ∨
      (s'.pc v).Valid capacity s.local_queue_ v) : Queues capacity s' := by
  refine ⟨fun v => by rw [hq]; exact h.inv v, fun v => ?_⟩
  rw [hq]
  rcases hpc v with he | hb | hv
  · rw [he]
    exact h.valid v
  · exact hb _ _ _
  · exact hv

/-- A step of `w` that only moves its program counter. -/
theorem Queues.setPc {s : State n m τ} (h : Queues capacity s) {w : Fin n} {pc : Pc n τ}
    (hpc : pc.Valid capacity s.local_queue_ w) : Queues capacity (s.setPc w pc) := by
  refine h.of_eq rfl fun v => ?_
  by_cases hv : v = w
  · subst hv
    exact .inr (.inr (by simpa using hpc))
  · exact .inl (setPc_pc_of_ne s pc hv)

/-- The same for a step that also changes what no program counter speaks of. -/
theorem Queues.move {s t : State n m τ} (h : Queues capacity s) {w : Fin n} {pc : Pc n τ}
    (hq : t.local_queue_ = s.local_queue_) (ht : t.pc = s.pc) (hb : pc.Blank) :
    Queues capacity (t.setPc w pc) :=
  Queues.setPc (h.of_eq hq fun v => .inl (by rw [ht])) (hb _ _ _)

theorem Queues.wakeWorker {s : State n m τ} (h : Queues capacity s) :
    Queues capacity s.wakeWorker := by
  refine h.of_eq (wakeWorker_local_queue s) fun v => ?_
  rcases wakeWorker_pc s v with he | ⟨-, he⟩
  · exact .inl he
  · exact .inr (.inl (by rw [he]; exact fun _ _ _ => trivial))

/-- A step of `w` that changes one local queue. Only the owner changes it in a
way its own `TryPush` could notice. -/
theorem Queues.setQueue {s : State n m τ} (h : Queues capacity s) {w v : Fin n} {q : Queue τ}
    {pc : Pc n τ} (hq : q.Inv capacity) (hg : (s.local_queue_ v).Grown q)
    (ha : v = w ∨ (s.local_queue_ v).Advanced q)
    (hpc : pc.Valid capacity (update s.local_queue_ v q) w) :
    Queues capacity ((s.setQueue v q).setPc w pc) := by
  have hgrown : ∀ u, (s.local_queue_ u).Grown (update s.local_queue_ v q u) := by
    intro u
    by_cases hu : u = v
    · subst hu
      simpa using hg
    · simpa [hu] using Queue.Grown.refl _
  have hadv : ∀ u, u ≠ w → (s.local_queue_ u).Advanced (update s.local_queue_ v q u) := by
    intro u huw
    by_cases hu : u = v
    · subst hu
      simpa using ha.resolve_left huw
    · simpa [hu] using Queue.Advanced.refl _
  refine ⟨fun u => ?_, fun u => ?_⟩
  · by_cases hu : u = v
    · subst hu
      simpa [State.setQueue, State.setPc] using hq
    · simpa [State.setQueue, State.setPc, hu] using h.inv u
  · by_cases hu : u = w
    · subst hu
      rw [setPc_pc_self]
      change pc.Valid capacity (update s.local_queue_ v q) u
      exact hpc
    · rw [setPc_pc_of_ne _ _ hu]
      have hv := h.valid u
      change (s.pc u).Valid capacity (update s.local_queue_ v q) u
      cases hpc' : s.pc u with
      | pop scan pc => rw [hpc'] at hv; exact PopPc.Valid.mono (hgrown u) hv
      | steal scan victim rest pc => rw [hpc'] at hv; exact GrabPc.Valid.mono (hgrown victim) hv
      | pushLocal k task pc => rw [hpc'] at hv; exact PushPc.Valid.mono (hadv u hu) hv
      | offload k task pc => rw [hpc'] at hv; exact GrabPc.Valid.mono (hgrown u) hv
      | _ => trivial

/-- A worker's step keeps the local queues well formed. -/
theorem Queues.workerStep {s s' : State n m τ} {w : Fin n} (h : Queues capacity s)
    (hs : WorkerStep capacity w s s') : Queues capacity s' := by
  cases hs with
  | pickTask hpc =>
    refine h.move rfl rfl fun _ _ _ => ?_
    split <;> trivial
  | lifoTake hpc hfilo hslot => exact h.move rfl rfl (found_blank _ _)
  | lifoSkip hpc hslot => exact h.move rfl rfl fun _ _ _ => trivial
  | popMove hpc hv => exact h.setPc hv
  | popTake hpc hq => exact h.setQueue hq.inv hq.grown (.inl rfl) (found_blank _ _ _ _ _)
  | popEmpty hpc hempty => exact h.setPc trivial
  | grabNone hpc hempty => exact h.setPc (afterGrab_blank _ _ _ _ _)
  | grabSome hpc hg => exact h.move rfl rfl (getFromBuffer_blank _ _ _)
  | stealMove hpc hv hempty => exact h.setPc hv
  | stealNone hpc => exact h.setPc (stealFrom_blank _ _ _ _ _)
  | stealSome hpc hq =>
    exact h.setQueue hq.inv hq.grown (.inr hq.advanced) (getFromBuffer_blank _ _ _ _ _ _)
  | pushMove hpc hq hv =>
    exact h.setQueue hq.inv hq.grown (.inl rfl) (by simpa [Pc.Valid] using hv)
  | pushDone hpc hq => exact h.setQueue hq.inv hq.grown (.inl rfl) (resume_blank _ _ _ _)
  | pushRefused hpc => exact h.setPc trivial
  | offloadMove hpc hv => exact h.setPc hv
  | offloadTake hpc hq => exact h.setQueue hq.inv hq.grown (.inl rfl) trivial
  | pushMany hpc => exact h.move rfl rfl fun _ _ _ => trivial
  | shouldWakeYes hpc hsize => exact h.setPc trivial
  | shouldWakeNo hpc hsize =>
    rw [notified_eq]
    exact h.move rfl rfl (afterNotify_resume_blank _)
  | wakeWorker hpc =>
    rw [notified_eq]
    exact h.wakeWorker.move rfl rfl (afterNotify_resume_blank _)
  | loadWakeups hpc => exact h.setPc trivial
  | addStopped hpc =>
    refine h.move ?_ ?_ fun _ _ _ => trivial
    all_goals unfold State.addStoppedWorker; split <;> rfl
  | unlinkFound hpc => exact h.move rfl rfl fun _ _ _ => trivial
  | checkStopYes hpc hstop => exact h.setPc trivial
  | checkStopNo hpc hstop => exact h.setPc trivial
  | unlinkStopped hpc => exact h.move rfl rfl fun _ _ _ => trivial
  | waitSleep hpc he => exact h.setPc trivial
  | waitPass hpc he => exact h.setPc trivial
  | unlinkWoken hpc => exact h.move rfl rfl fun _ _ _ => trivial
  | pushGlobal hpc => exact h.move rfl rfl fun _ _ _ => trivial

/-- Every step keeps the local queues well formed. -/
theorem Queues.effect {s s' : State n m τ} {a : Action n m τ} (h : Queues capacity s)
    (hs : Effect capacity s a s') : Queues capacity s' := by
  have hsame : ∀ {t : State n m τ}, t.local_queue_ = s.local_queue_ → t.pc = s.pc →
      Queues capacity t := fun hq hpc => h.of_eq hq fun v => .inl (by rw [hpc])
  cases hs with
  | work hw => exact h.workerStep hw
  | spurious hpc => exact h.setPc trivial
  | bodyLocal hpc => exact h.move rfl rfl fun _ _ _ => trivial
  | bodySlot hpc hslot => exact h.move rfl rfl fun _ _ _ => trivial
  | bodyEvict hpc hslot => exact h.move rfl rfl fun _ _ _ => trivial
  | bodyGlobal hpc => exact h.move rfl rfl fun _ _ _ => trivial
  | bodyDone hpc => exact h.setPc trivial
  | outsideWake hi => exact h.wakeWorker.of_eq rfl fun v => .inl rfl
  | stopWake hs =>
    refine h.of_eq (by simp [wakeOne_eq, State.setPc]) fun v => ?_
    rcases wakeOne_pc s _ v with he | ⟨-, he⟩
    · exact .inl he
    · exact .inr (.inl fun _ _ _ => by dsimp only; rw [he]; trivial)
  | _ => exact hsame rfl rfl

theorem queues_of_reachable {C : Action n m τ → State n m τ → Prop} {s : State n m τ}
    (hs : (machine n m τ capacity).ReachableVia C s) : Queues capacity s :=
  hs.invariant
    (fun s ⟨null, h⟩ => by subst h; exact ⟨fun _ => .new capacity null, fun _ => trivial⟩)
    fun _ _ _ h _ hst => h.effect (step_cases h hst)

end Exe.Pool
