/-
`multi_thread::v1::ThreadPool` drains when it is stopped.

`Push` does not look at `is_closed_`, so a running task can still add to a closed
queue. Nothing is lost by that: the worker that runs it comes back to `Pop`, and it
leaves only when it finds the queue empty (`ThreadPool.drained`). Here this is put
together with the sleepers, which `Close` wakes all of, and with the bodies: what was
taken out of the queue has been run to its end, or a worker is running it.
-/
import Exe.FiniteSums
import Exe.ThreadPool

set_option autoImplicit false

namespace Exe.ThreadPool

open Function (update)
open Detail

variable {n : ℕ} {τ : Type*}

/-! ## Nobody sleeps beside a closed queue -/

/-- Counted in `waiting_`. -/
def Worker.isWaiting : Worker τ → Bool
  | .popping .asleep => true
  | .popping .awake => true
  | _ => false

/-- Sleepers are counted, and none is left once the queue is closed. -/
structure Awake (s : State n τ) : Prop where
  waiting : s.tasks_.waiting_ = countWhere Worker.isWaiting s.worker
  closed : s.tasks_.is_closed_ = true → ∀ w, (s.worker w).isAsleep = false

theorem isWaiting_woken (w : Worker τ) : w.woken.isWaiting = w.isWaiting := by
  cases w with
  | popping pc => cases pc <;> rfl
  | _ => rfl

theorem isAsleep_woken (w : Worker τ) : w.woken.isAsleep = false := by
  cases w with
  | popping pc => cases pc <;> rfl
  | _ => rfl

theorem isWaiting_of_isAsleep {w : Worker τ} (h : w.isAsleep = true) : w.isWaiting = true := by
  cases w with
  | popping pc =>
    cases pc with
    | asleep => rfl
    | _ => cases h
  | _ => cases h

/-- Worker `w` moves, and falls asleep only if the queue is open. -/
theorem Awake.move {s s' : State n τ} (h : Awake s) {w : Fin n} {next : Worker τ}
    (hworker : s'.worker = update s.worker w next)
    (hclosed : s'.tasks_.is_closed_ = s.tasks_.is_closed_)
    (hwait : s'.tasks_.waiting_ + (s.worker w).isWaiting.toNat =
      s.tasks_.waiting_ + next.isWaiting.toNat)
    (hopen : next.isAsleep = true → s.tasks_.is_closed_ = false) : Awake s' := by
  refine ⟨?_, fun hc v => ?_⟩
  · have hw := countWhere_update_add Worker.isWaiting s.worker w next
    rw [← h.waiting] at hw
    rw [hworker]
    omega
  · rw [hclosed] at hc
    rw [hworker]
    by_cases hv : v = w
    · subst hv
      rw [Function.update_self]
      by_contra hsl
      rw [Bool.not_eq_false] at hsl
      rw [hopen hsl] at hc
      cases hc
    · rw [Function.update_of_ne hv]
      exact h.closed hc v

theorem Awake.submit {s s' : State n τ} {task : τ} {choice : Option (Fin n)} (h : Awake s)
    (hs : Submit task choice s = some s') : Awake s' := by
  obtain ⟨hnot, worker, rfl⟩ := submit_cases hs
  refine ⟨?_, fun hc w => ?_⟩
  · rw [h.waiting]
    refine countWhere_congr fun w => ?_
    rcases hnot w with he | he
    · rw [he]
    · rw [he, isWaiting_woken]
  · rcases hnot w with he | he
    · rw [he]
      exact h.closed hc w
    · rw [he, isAsleep_woken]

theorem Awake.popSection {s : State n τ} {w : Fin n} {pc : WaitPc} (h : Awake s)
    (hw : s.worker w = .popping pc) (hpc : pc ≠ .asleep) : Awake (popSection w pc s) := by
  obtain ⟨hbuf, hclosed⟩ := s.tasks_.enter_eq pc
  have hcount : (s.tasks_.enter pc).waiting_ + (s.worker w).isWaiting.toNat =
      s.tasks_.waiting_ + 1 := by
    rw [hw]
    cases pc with
    | enter => rfl
    | asleep => exact absurd rfl hpc
    | awake => rfl
  have hleave : (s.tasks_.enter pc).leave.waiting_ + (s.worker w).isWaiting.toNat =
      s.tasks_.waiting_ := by
    have hpos : 0 < (s.tasks_.enter pc).waiting_ := by
      cases pc with
      | enter => exact Nat.succ_pos _
      | asleep => exact absurd rfl hpc
      | awake =>
        change 0 < s.tasks_.waiting_
        rw [h.waiting]
        exact countWhere_pos.mpr ⟨w, by rw [hw]; rfl⟩
    simp only [BlockingQueue.leave]
    omega
  simp only [ThreadPool.popSection]
  split
  · rename_i hwait
    simp only [BlockingQueue.mustWait, Bool.and_eq_true, Bool.not_eq_true', hclosed] at hwait
    exact h.move rfl hclosed hcount fun _ => hwait.1
  · split
    · exact h.move rfl hclosed hleave fun hsl => by cases hsl
    · exact h.move rfl hclosed hleave fun hsl => by cases hsl

theorem Awake.stop {s s' : State n τ} (h : Awake s) (hs : Stop s = some s') : Awake s' := by
  simp only [Stop] at hs
  split at hs
  · cases hs
    by_cases hpos : 0 < s.tasks_.waiting_
    · refine ⟨?_, fun _ w => ?_⟩
      · simp only [if_pos hpos]
        rw [h.waiting]
        exact countWhere_congr fun w => (isWaiting_woken _).symm
      · simp only [if_pos hpos]
        exact isAsleep_woken _
    · refine ⟨?_, fun _ w => ?_⟩
      · simp only [if_neg hpos]
        exact h.waiting
      · -- a sleeper would be counted
        simp only [if_neg hpos]
        by_contra hsl
        rw [Bool.not_eq_false] at hsl
        refine hpos ?_
        rw [h.waiting]
        exact countWhere_pos.mpr ⟨w, isWaiting_of_isAsleep hsl⟩
  · cases hs
    exact ⟨h.waiting, h.closed⟩
  · split at hs
    · cases hs
      exact ⟨h.waiting, h.closed⟩
    · cases hs
  · cases hs

theorem Awake.step {s s' : State n τ} {a : Action n τ} (h : Awake s)
    (hs : step a s = some s') : Awake s' := by
  cases a with
  | work w =>
    simp only [ThreadPool.step] at hs
    split at hs
    · cases hs
    · rename_i pc hpc hw
      cases hs
      exact h.popSection hw fun he => hpc (by rw [he])
    · cases hs
  | spurious w =>
    simp only [ThreadPool.step] at hs
    split at hs
    · rename_i hw
      cases hs
      refine h.move rfl rfl ?_ fun hsl => by cases hsl
      rw [isWaiting_of_isAsleep hw]
      rfl
    · cases hs
  | bodySubmit w task choice =>
    simp only [ThreadPool.step] at hs
    split at hs
    · exact h.submit hs
    · cases hs
  | bodyDone w =>
    simp only [ThreadPool.step] at hs
    split at hs
    · rename_i hw
      cases hs
      have hout : (s.worker w).isWaiting = false := by
        cases hc : s.worker w <;> rw [hc] at hw <;> first | rfl | cases hw
      refine h.move rfl rfl ?_ fun hsl => by cases hsl
      rw [hout]
      rfl
    · cases hs
  | submit task choice => exact h.submit hs
  | stop => exact h.stop hs

theorem awake_of_reachable {C : Action n τ → State n τ → Prop} {s : State n τ}
    (hs : (machine n τ).ReachableVia C s) : Awake s := by
  refine hs.invariant (fun s hinit => ?_) fun _ _ _ h _ hst => h.step hst
  subst hinit
  exact ⟨(Finset.sum_eq_zero fun _ _ => rfl).symm, fun hc => by cases hc⟩

/-! ## What was taken has been run -/

/-- The task whose body the transition ends. -/
def finishedBy (t : Transition (State n τ) (Action n τ)) : List τ :=
  match t.act with
  | .bodyDone w =>
    match t.pre.worker w with
    | .running cur => [cur]
    | _ => []
  | _ => []

/-- The tasks whose bodies the run has ended, newest first. -/
def finished (h : List (Transition (State n τ) (Action n τ))) : List τ := h.flatMap finishedBy

/-- The task a worker is running. -/
def Worker.current : Worker τ → Multiset τ
  | .running cur => {cur}
  | _ => 0

def State.current (s : State n τ) : Multiset τ := ∑ w, (s.worker w).current

theorem current_woken (w : Worker τ) : w.woken.current = w.current := by
  cases w <;> rfl

theorem current_update {s s' : State n τ} {w : Fin n} {next : Worker τ}
    (hworker : s'.worker = update s.worker w next) :
    s'.current + (s.worker w).current = s.current + next.current := by
  have h := sum_add_of_eq_off (f := fun v => (s.worker v).current)
    (g := fun v => (s'.worker v).current) w fun v hv => by rw [hworker, Function.update_of_ne hv]
  rw [hworker, Function.update_self] at h
  rw [State.current, hworker]
  exact h

theorem current_notified {s s' : State n τ} (h : Notified s s') : s'.current = s.current := by
  refine Finset.sum_congr rfl fun w _ => ?_
  rcases h w with he | he
  · rw [he]
  · rw [he, current_woken]

theorem current_eq_of_idle {s s' : State n τ} {w : Fin n} {next : Worker τ}
    (hworker : s'.worker = update s.worker w next) (h0 : (s.worker w).current = 0)
    (h1 : next.current = 0) : s'.current = s.current := by
  have hcur := current_update hworker
  rwa [h0, h1, add_zero, add_zero] at hcur

theorem popSection_balance {s : State n τ} {w : Fin n} {pc : WaitPc}
    (hw : s.worker w = .popping pc) :
    ((popSection w pc s).taken : Multiset τ) + s.current =
      (s.taken : Multiset τ) + (popSection w pc s).current := by
  have h0 : (s.worker w).current = 0 := by
    rw [hw]
    rfl
  unfold popSection
  dsimp only
  split
  · exact congrArg _ (current_eq_of_idle (w := w) rfl h0 rfl).symm
  · split
    · exact congrArg _ (current_eq_of_idle (w := w) rfl h0 rfl).symm
    · rename_i task rest _
      have hcur : State.current { s with
          tasks_ := { (s.tasks_.enter pc).leave with buffer_ := rest }
          worker := update s.worker w (.running task)
          taken := s.taken ++ [task] } + (s.worker w).current =
          s.current + (Worker.running task).current := current_update rfl
      rw [h0, add_zero] at hcur
      rw [hcur, ← Multiset.coe_add, add_assoc, add_comm s.current]
      rfl

/-- A step takes a task for a worker, or ends the body of one, or neither. -/
theorem step_balance {s s' : State n τ} {a : Action n τ} (h : step a s = some s') :
    (s'.taken : Multiset τ) + s.current =
      (s.taken : Multiset τ) + s'.current + (finishedBy ⟨s, a, s'⟩ : Multiset τ) := by
  have hsame : s'.taken = s.taken → s'.current = s.current → finishedBy ⟨s, a, s'⟩ = [] →
      (s'.taken : Multiset τ) + s.current =
        (s.taken : Multiset τ) + s'.current + (finishedBy ⟨s, a, s'⟩ : Multiset τ) := by
    intro ht hc hf
    rw [ht, hc, hf, Multiset.coe_nil, add_zero]
  have hsubmit : ∀ {task choice}, Submit task choice s = some s' →
      s'.taken = s.taken ∧ s'.current = s.current := by
    intro task choice hs
    obtain ⟨hnot, worker, rfl⟩ := submit_cases hs
    exact ⟨rfl, current_notified hnot⟩
  cases a with
  | work w =>
    simp only [step] at h
    split at h
    · cases h
    · rename_i pc _ hw
      cases h
      exact (popSection_balance hw).trans (add_zero _).symm
    · cases h
  | spurious w =>
    simp only [step] at h
    split at h
    · rename_i hw
      cases h
      refine hsame rfl (current_eq_of_idle rfl ?_ rfl) rfl
      cases hc : s.worker w <;> rw [hc] at hw <;> first | rfl | cases hw
    · cases h
  | bodySubmit w task choice =>
    simp only [step] at h
    split at h
    · exact hsame (hsubmit h).1 (hsubmit h).2 rfl
    · cases h
  | bodyDone w =>
    simp only [step] at h
    split at h
    · rename_i hw
      cases h
      cases hc : s.worker w with
      | running cur =>
        have hcur : State.current { s with worker := update s.worker w (.popping .enter) } +
            (s.worker w).current = s.current + (Worker.popping .enter).current :=
          current_update rfl
        have hfin : finishedBy (⟨s, .bodyDone w,
            { s with worker := update s.worker w (.popping .enter) }⟩ :
              Transition (State n τ) (Action n τ)) = [cur] := by
          simp only [finishedBy, hc]
        rw [hc] at hcur
        have hcur' : _ = s.current := hcur.trans (add_zero _)
        rw [hfin, Multiset.coe_singleton, add_assoc]
        exact congrArg _ hcur'.symm
      | _ =>
        rw [hc] at hw
        cases hw
    · cases h
  | submit task choice => exact hsame (hsubmit h).1 (hsubmit h).2 rfl
  | stop =>
    simp only [step, Stop] at h
    split at h
    · cases h
      refine hsame rfl (current_notified fun w => ?_) rfl
      dsimp only
      split
      · exact .inr rfl
      · exact .inl rfl
    · cases h
      exact hsame rfl rfl rfl
    · split at h
      · cases h
        exact hsame rfl rfl rfl
      · cases h
    · cases h

/-- What was taken has been run to its end, or is being run. -/
theorem taken_eq {h : List (Transition (State n τ) (Action n τ))} {s : State n τ}
    (hr : (machine n τ).Run h s) :
    (s.taken : Multiset τ) = (finished h : Multiset τ) + s.current := by
  induction hr with
  | init hinit =>
    subst hinit
    have h0 : (State.start : State n τ).current = 0 := Finset.sum_eq_zero fun _ _ => rfl
    rw [h0]
    rfl
  | @step h s s' a _ hst ih =>
    have hbal := step_balance hst
    rw [ih, add_right_comm (finished h : Multiset τ), add_right_comm _ s.current] at hbal
    have hcons : finished (⟨s, a, s'⟩ :: h) = finishedBy ⟨s, a, s'⟩ ++ finished h := rfl
    rw [add_right_cancel hbal, hcons, ← Multiset.coe_add, add_right_comm,
      add_comm (finished h : Multiset τ)]

/-! ## The drain -/

/-- A Submit from outside the pool is over before `Stop` begins. -/
def SubmitsBeforeStop (a : Action n τ) (s : State n τ) : Prop :=
  match a with
  | .submit _ _ => s.stopPc = .notStarted
  | _ => True

instance (a : Action n τ) (s : State n τ) : Decidable (SubmitsBeforeStop a s) :=
  match a with
  | .submit _ _ => inferInstanceAs (Decidable (s.stopPc = .notStarted))
  | .work _ | .spurious _ | .bodySubmit _ _ _ | .bodyDone _ | .stop => .isTrue trivial

/-- Before `Stop` begins, the queue is open and nobody has left. -/
theorem inTime_of_submitsBeforeStop {C : Action n τ → State n τ → Prop} (hn : 0 < n)
    {a : Action n τ} {s : State n τ} (hs : (machine n τ).ReachableVia C s)
    (hc : SubmitsBeforeStop a s) : InTime a s := by
  cases a with
  | submit task choice =>
    refine ⟨⟨0, hn⟩, ?_⟩
    by_contra hex
    rw [Bool.not_eq_false] at hex
    have h := leaving_of_reachable hs
    exact h.closed (h.exited _ hex) hc
  | _ => trivial

/-- **The pool drains on `Stop`.** The tasks leave the queue in the order in which they
entered it, each submission once; nobody sleeps once the queue is closed; and when `Stop`
has returned, the queue is empty and the bodies that were run to their end are those of
all submissions, each once. -/
theorem drained_on_stop (hn : 0 < n) {h : List (Transition (State n τ) (Action n τ))}
    {s : State n τ} (hr : (machine n τ).Run h s)
    (hC : ∀ t ∈ h, SubmitsBeforeStop t.act t.pre) :
    s.pushed = s.taken ++ s.tasks_.buffer_ ∧
    (s.tasks_.is_closed_ = true → ∀ w, (s.worker w).isAsleep = false) ∧
    (s.stopPc = .returned → s.tasks_.buffer_ = [] ∧ s.taken = s.pushed ∧
      (finished h).Perm s.pushed) := by
  have hvia := hr.reachableVia hC
  have hinTime : (machine n τ).ReachableVia InTime s :=
    hvia.imp fun a s hs hc => inTime_of_submitsBeforeStop hn hs hc
  have hfifo := (inv_of_reachable (fun _ _ hc => hc) hinTime).fifo
  refine ⟨hfifo, (awake_of_reachable hvia).closed, fun hret => ?_⟩
  have hall : s.taken = s.pushed := drained (fun _ _ hc => hc) hinTime hret
  have hidle : s.current = 0 := by
    refine Finset.sum_eq_zero fun w _ => ?_
    have hex := (leaving_of_reachable hvia).returned hret w
    cases hw : s.worker w <;> rw [hw] at hex <;> first | rfl | cases hex
  have htaken := taken_eq hr
  rw [hidle, add_zero, hall] at htaken
  refine ⟨?_, hall, (Multiset.coe_eq_coe.mp htaken).symm⟩
  rw [hall] at hfifo
  exact List.self_eq_append_right.mp hfifo

/-- A task adds another one to the closed queue, and its worker comes back for it. -/
def submitAfterClose : List (Action 1 ℕ) :=
  [.submit 7 none, .work 0, .stop, .bodySubmit 0 8 none, .bodyDone 0, .stop, .work 0, .bodyDone 0,
    .work 0, .stop]

theorem drained_on_stop_submitAfterClose : ∃ h s, (machine 1 ℕ).Run h s ∧
    s.stopPc = .returned ∧ (finished h).Perm [7, 8] := by
  obtain ⟨h, s, hr, hC, hp⟩ := (Machine.Run.init (M := machine 1 ℕ) rfl).execVia_any
    (C := SubmitsBeforeStop) (fun t ht => by cases ht) submitAfterClose
    (fun s => decide (s.stopPc = .returned ∧ s.pushed = [7, 8])) (by decide)
  obtain ⟨hret, hpushed⟩ := of_decide_eq_true hp
  have hperm := ((drained_on_stop Nat.one_pos hr hC).2.2 hret).2.2
  rw [hpushed] at hperm
  exact ⟨h, s, hr, hret, hperm⟩

end Exe.ThreadPool
