/-
`detail::UnboundedBlockingQueue`, access by access, over its mutex and `CondVar`.

`Exe.UnboundedBlockingQueue` takes a section under the mutex for one step, and a notification
for something that wakes a sleeper for good. Here the sections are their accesses, and the
condition variable is the repository's. Two refinements lead from one to the other: by
`Guarded.covers` the class is a monitor, and the monitor with these sections makes the steps of
`Exe.UnboundedBlockingQueue` (`covers`), so what holds in its states holds here.

# Conventions

* `waiting_` is a natural number, as there.
* `PopFrontNonEmpty` of an empty list is the answer `fault`.
-/
import Exe.Guarded
import Exe.UnboundedBlockingQueue

set_option autoImplicit false

namespace Exe.Detail.GuardedQueue

open Function (update)
open Primitives
open Monitor (Outcome)
open UnboundedBlockingQueue (Consumer)

variable {n : ℕ} {τ : Type*}

/-! ## The code -/

inductive Op (τ : Type*)
  | Push (value : τ)
  | Pop
  | TryPop
  | Close
  deriving DecidableEq

inductive Answer (τ : Type*)
  | pushed
  | popped (result : Option τ)
  | tried (result : Option τ)
  | closed
  | fault
  deriving DecidableEq

/-- What a section has left to do. -/
inductive Section (τ : Type*)
  | pushBack (value : τ)
  | notifyOne
  | enter
  | testClosed
  | testEmpty
  | leave
  | takeClosed
  | takeEmpty
  | tryEmpty
  | popFront (answer : τ → Answer τ)
  | close
  | notifyAll

/-- `buffer_.PopFrontNonEmpty()`, and the end of the section. -/
def popFront (answer : τ → Answer τ) (q : BlockingQueue (List τ)) :
    BlockingQueue (List τ) × Outcome Unit (Answer τ) :=
  match q.buffer_ with
  | [] => (q, ⟨.nobody, .ret .fault⟩)
  | value :: rest => ({ q with buffer_ := rest }, ⟨.nobody, .ret (answer value)⟩)

def code : Guarded.Code (BlockingQueue (List τ)) (Op τ) (Section τ) Unit (Answer τ) where
  enter
    | .inl (.Push value) => .pushBack value
    | .inl .Pop => .enter
    | .inl .TryPop => .tryEmpty
    | .inl .Close => .close
    | .inr () => .testClosed
  access
    | .pushBack value, q => ({ q with buffer_ := q.buffer_ ++ [value] }, .inl .notifyOne)
    | .notifyOne, q => (q, .inr ⟨if 0 < q.waiting_ then .one else .nobody, .ret .pushed⟩)
    | .enter, q => ({ q with waiting_ := q.waiting_ + 1 }, .inl .testClosed)
    | .testClosed, q => (q, .inl (if q.is_closed_ then .leave else .testEmpty))
    | .testEmpty, q =>
      (q, if q.buffer_.isEmpty then .inr ⟨.nobody, .wait ()⟩ else .inl .leave)
    | .leave, q => (q.leave, .inl .takeClosed)
    | .takeClosed, q =>
      (q, .inl (if q.is_closed_ then .takeEmpty else .popFront fun v => .popped (some v)))
    | .takeEmpty, q =>
      (q, if q.buffer_.isEmpty then .inr ⟨.nobody, .ret (.popped none)⟩
        else .inl (.popFront fun v => .popped (some v)))
    | .tryEmpty, q =>
      (q, if q.buffer_.isEmpty then .inr ⟨.nobody, .ret (.tried none)⟩
        else .inl (.popFront fun v => .tried (some v)))
    | .popFront answer, q => ((popFront answer q).1, .inr (popFront answer q).2)
    | .close, q => ({ q with is_closed_ := true }, .inl .notifyAll)
    | .notifyAll, q => (q, .inr ⟨if 0 < q.waiting_ then .all else .nobody, .ret .closed⟩)

def machine (n : ℕ) (τ : Type*) := Guarded.machine n (code (τ := τ)) (.new [])

/-! ## The sections, each at once -/

/-- What is left of `Pop` past its loop. -/
def take (q : BlockingQueue (List τ)) : BlockingQueue (List τ) × Outcome Unit (Answer τ) :=
  match q.buffer_ with
  | [] => (q, ⟨.nobody, .ret (.popped none)⟩)
  | value :: rest => ({ q with buffer_ := rest }, ⟨.nobody, .ret (.popped (some value))⟩)

/-- `Pop` with the caller counted. -/
def pop (q : BlockingQueue (List τ)) : BlockingQueue (List τ) × Outcome Unit (Answer τ) :=
  if q.mustWait List.isEmpty then (q, ⟨.nobody, .wait ()⟩) else take q.leave

def spec : Op τ ⊕ Unit → BlockingQueue (List τ) →
    BlockingQueue (List τ) × Outcome Unit (Answer τ)
  | .inl (.Push value), q =>
    ({ q with buffer_ := q.buffer_ ++ [value] },
      ⟨if 0 < q.waiting_ then .one else .nobody, .ret .pushed⟩)
  | .inl .Pop, q => pop (q.enter .enter)
  | .inl .TryPop, q =>
    match q.buffer_ with
    | [] => (q, ⟨.nobody, .ret (.tried none)⟩)
    | value :: rest => ({ q with buffer_ := rest }, ⟨.nobody, .ret (.tried (some value))⟩)
  | .inl .Close, q =>
    ({ q with is_closed_ := true }, ⟨if 0 < q.waiting_ then .all else .nobody, .ret .closed⟩)
  | .inr (), q => pop q

def atomic (n : ℕ) (τ : Type*) := Monitor.machine n (spec (τ := τ)) (.new [])

/-- Past the loop the queue is closed or there is something in it. -/
theorem ends_leave {q : BlockingQueue (List τ)} (h : q.mustWait List.isEmpty = false) :
    code.Ends .leave q (take q.leave) := by
  obtain ⟨buffer, waiting, closed⟩ := q
  refine .go rfl ?_
  cases buffer with
  | nil =>
    -- so it is closed
    cases closed with
    | false => cases h
    | true => exact .go rfl (.stop rfl)
  | cons value rest =>
    cases closed with
    | false => exact .go rfl (.stop rfl)
    | true => exact .go rfl (.go rfl (.stop rfl))

theorem ends_testClosed (q : BlockingQueue (List τ)) : code.Ends .testClosed q (pop q) := by
  have hpop : q.mustWait List.isEmpty = false → pop q = take q.leave := by
    intro h
    rw [pop, h, if_neg Bool.false_ne_true]
  obtain ⟨buffer, waiting, closed⟩ := q
  cases closed with
  | true =>
    rw [hpop rfl]
    exact .go rfl (ends_leave rfl)
  | false =>
    cases buffer with
    | nil => exact .go rfl (.stop rfl)
    | cons value rest =>
      rw [hpop rfl]
      exact .go rfl (.go rfl (ends_leave rfl))

theorem implements_spec : (code (τ := τ)).Implements spec := by
  intro e q
  match e with
  | .inl (.Push value) => exact .go rfl (.stop rfl)
  | .inl .Pop => exact .go rfl (ends_testClosed _)
  | .inl .TryPop =>
    obtain ⟨buffer, waiting, closed⟩ := q
    cases buffer with
    | nil => exact .stop rfl
    | cons value rest => exact .go rfl (.stop rfl)
  | .inl .Close => exact .go rfl (.stop rfl)
  | .inr () => exact ends_testClosed q

/-! ## The monitor makes the steps of the queue -/

/-- Where a thread is in the monitor, and where it is in the queue. Whoever was woken has been
notified, or woke without a reason. -/
inductive At : Monitor.Pc (Op τ) Unit (Answer τ) → Consumer τ → Prop
  | asleep {w : Unit} : At (.asleep w) .asleep
  | notified {w : Unit} : At (.woken w) .notified
  | spurious {w : Unit} : At (.woken w) .spurious
  | idle {c : Consumer τ} (hc : c.isWaiting = false) : At .idle c
  | pending {op : Op τ} {c : Consumer τ} (hc : c.isWaiting = false) : At (.pending op) c
  | done {r : Answer τ} {c : Consumer τ} (hc : c.isWaiting = false) (hr : r ≠ .fault) :
      At (.done r) c

structure Refines (q : Monitor.State n (BlockingQueue (List τ)) (Op τ) Unit (Answer τ))
    (u : UnboundedBlockingQueue.State n τ) : Prop where
  queue : u.queue = q.data
  consumer : ∀ t, At (q.pc t) (u.consumer t)

section Refines

variable {q : Monitor.State n (BlockingQueue (List τ)) (Op τ) Unit (Answer τ)}
  {u u' : UnboundedBlockingQueue.State n τ} {t : Fin n} {c : Consumer τ}
  {pc : Monitor.Pc (Op τ) Unit (Answer τ)}

theorem At.isAsleep (h : At pc c) : c.isAsleep = pc.isAsleep := by
  cases h with
  | asleep | notified | spurious => rfl
  | @idle c hc | @pending _ c hc | @done _ c hc _ =>
    cases c with
    | asleep => cases hc
    | _ => rfl

theorem At.woken (h : At pc c) : At pc.wake c.woken := by
  cases h with
  | asleep => exact .notified
  | notified => exact .notified
  | spurious => exact .spurious
  | @idle c hc =>
    cases c with
    | asleep => cases hc
    | _ => exact .idle hc
  | @pending op c hc =>
    cases c with
    | asleep => cases hc
    | _ => exact .pending hc
  | @done r c hc hr =>
    cases c with
    | asleep => cases hc
    | _ => exact .done hc hr

/-- Thread `t` goes on, and some of the others are woken. -/
theorem Refines.turn {pcs : Fin n → Monitor.Pc (Op τ) Unit (Answer τ)}
    {d : BlockingQueue (List τ)} (hqueue : u'.queue = d)
    (hother : ∀ v, v ≠ t → At (pcs v) (u'.consumer v)) (hself : At pc (u'.consumer t)) :
    Refines ⟨d, update pcs t pc⟩ u' := by
  refine ⟨hqueue, fun v => ?_⟩
  change At (update pcs t pc v) (u'.consumer v)
  by_cases hv : v = t
  · subst hv
    rwa [Function.update_self]
  · rw [Function.update_of_ne hv]
    exact hother v hv

/-- Thread `t` goes on, and nobody is woken. -/
theorem Refines.move (h : Refines q u) {d : BlockingQueue (List τ)} (hat : At pc c)
    {pushed popped : List τ} :
    Refines ⟨d, update q.pc t pc⟩ ⟨d, update u.consumer t c, pushed, popped⟩ := by
  refine .turn rfl (fun v hv => ?_) ?_
  · change At _ (update u.consumer t c v)
    rw [Function.update_of_ne hv]
    exact h.consumer v
  · change At _ (update u.consumer t c t)
    rwa [Function.update_self]

/-- A section that notifies one thread. -/
theorem Refines.push (h : Refines q u) {value : τ} {choice : Option (Fin n)}
    {pcs : Fin n → Monitor.Pc (Op τ) Unit (Answer τ)} (hpc : q.pc t = .pending (.Push value))
    (hnotified : Monitor.notified q.pc choice
      (if 0 < q.data.waiting_ then .one else .nobody) = some pcs) :
    ∃ u', UnboundedBlockingQueue.Push value choice u = some u' ∧
      Refines ⟨{ q.data with buffer_ := q.data.buffer_ ++ [value] }, update pcs t (.done .pushed)⟩
        u' := by
  have hout : (u.consumer t).isWaiting = false := by
    have hat := h.consumer t
    rw [hpc] at hat
    cases hat with
    | pending hc => exact hc
  have hsleeps : ∀ v, (u.consumer v).isAsleep = (q.pc v).isAsleep :=
    fun v => (h.consumer v).isAsleep
  simp only [UnboundedBlockingQueue.Push, h.queue]
  split at hnotified
  · rename_i hw
    rw [if_pos hw]
    cases choice with
    | some v =>
      simp only [Monitor.notified, Option.ite_none_right_eq_some, Option.some.injEq] at hnotified
      obtain ⟨hasleep, rfl⟩ := hnotified
      have hv : (u.consumer v).isAsleep = true := by rw [hsleeps, hasleep]
      have hvt : t ≠ v := by
        rintro rfl
        rw [hpc] at hasleep
        cases hasleep
      refine ⟨_, if_pos hv, .turn rfl (fun v' hv' => ?_) ?_⟩
      · change At (update q.pc v (q.pc v).wake v') (update u.consumer v (u.consumer v).woken v')
        by_cases he : v' = v
        · subst he
          rw [Function.update_self, Function.update_self]
          exact (h.consumer v').woken
        · rw [Function.update_of_ne he, Function.update_of_ne he]
          exact h.consumer v'
      · change At _ (update u.consumer v (u.consumer v).woken t)
        rw [Function.update_of_ne hvt]
        exact .done hout (by simp)
    | none =>
      simp only [Monitor.notified, Option.ite_none_right_eq_some, Option.some.injEq] at hnotified
      obtain ⟨hno, rfl⟩ := hnotified
      have hnone : ¬∃ v, (u.consumer v).isAsleep = true := by
        rintro ⟨v, hv⟩
        rw [hsleeps, hno v] at hv
        cases hv
      exact ⟨_, if_neg hnone, .turn rfl (fun v _ => h.consumer v) (.done hout (by simp))⟩
  · rename_i hw
    rw [if_neg hw]
    have hsame := fun v => (Monitor.notified_spec hnotified v).2.2 rfl
    refine ⟨_, rfl, .turn rfl (fun v _ => ?_) (.done hout (by simp))⟩
    rw [hsame v]
    exact h.consumer v

/-- A section that notifies everybody. -/
theorem Refines.close (h : Refines q u) {choice : Option (Fin n)}
    {pcs : Fin n → Monitor.Pc (Op τ) Unit (Answer τ)} (hpc : q.pc t = .pending .Close)
    (hnotified : Monitor.notified q.pc choice
      (if 0 < q.data.waiting_ then .all else .nobody) = some pcs) :
    Refines ⟨{ q.data with is_closed_ := true }, update pcs t (.done .closed)⟩
      (UnboundedBlockingQueue.Close u) := by
  have hout : (u.consumer t).isWaiting = false ∧ (u.consumer t).woken.isWaiting = false := by
    have hat := h.consumer t
    rw [hpc] at hat
    generalize u.consumer t = c at hat
    cases hat with
    | pending hc =>
      cases c with
      | asleep => cases hc
      | _ => exact ⟨hc, hc⟩
  have hqueue : (UnboundedBlockingQueue.Close u).queue = { q.data with is_closed_ := true } := by
    rw [← h.queue]
    rfl
  have hconsumer : (UnboundedBlockingQueue.Close u).consumer =
      if 0 < q.data.waiting_ then fun v => (u.consumer v).woken else u.consumer := by
    rw [← h.queue]
    rfl
  refine .turn hqueue (fun v _ => ?_) ?_
  · rw [hconsumer]
    split at hnotified
    · rename_i hw
      rw [if_pos hw, (Monitor.notified_spec hnotified v).2.1 rfl]
      exact (h.consumer v).woken
    · rename_i hw
      rw [if_neg hw, (Monitor.notified_spec hnotified v).2.2 rfl]
      exact h.consumer v
  · rw [hconsumer]
    split
    · exact .done hout.2 (by simp)
    · exact .done hout.1 (by simp)

/-- A section of `Pop`, the first one or one after a wait, notifies nobody. -/
theorem Refines.pop (h : Refines q u) {choice : Option (Fin n)} {w : WaitPc}
    {pcs : Fin n → Monitor.Pc (Op τ) Unit (Answer τ)}
    (hnotified : Monitor.notified q.pc choice (pop (q.data.enter w)).2.notify = some pcs) :
    Refines ⟨(GuardedQueue.pop (q.data.enter w)).1,
        update pcs t (GuardedQueue.pop (q.data.enter w)).2.next.pc⟩
      (UnboundedBlockingQueue.Pop t w u) := by
  have hnobody : ∀ d : BlockingQueue (List τ), (GuardedQueue.pop d).2.notify = .nobody := by
    intro d
    unfold GuardedQueue.pop
    split
    · rfl
    · unfold take
      split <;> rfl
  rw [hnobody] at hnotified
  have hpcs : pcs = q.pc := by
    funext v
    exact (Monitor.notified_spec hnotified v).2.2 rfl
  subst hpcs
  unfold GuardedQueue.pop
  simp only [UnboundedBlockingQueue.Pop, h.queue]
  split
  · exact h.move .asleep
  · rcases hbuf : (q.data.enter w).leave.buffer_ with _ | ⟨value, rest⟩
    · simp only [take, hbuf]
      exact h.move (.done rfl (by simp))
    · simp only [take, hbuf]
      exact h.move (.done rfl (by simp))

/-- `TryPop` notifies nobody either. -/
theorem Refines.tryPop (h : Refines q u) {choice : Option (Fin n)}
    {pcs : Fin n → Monitor.Pc (Op τ) Unit (Answer τ)}
    (hnotified : Monitor.notified q.pc choice (spec (.inl .TryPop) q.data).2.notify = some pcs) :
    Refines ⟨(spec (.inl .TryPop) q.data).1,
        update pcs t (spec (.inl .TryPop) q.data).2.next.pc⟩
      (UnboundedBlockingQueue.TryPop t u) := by
  have hnobody : (spec (.inl .TryPop) q.data).2.notify = .nobody := by
    simp only [spec]
    split <;> rfl
  rw [hnobody] at hnotified
  have hpcs : pcs = q.pc := by
    funext v
    exact (Monitor.notified_spec hnotified v).2.2 rfl
  subst hpcs
  simp only [UnboundedBlockingQueue.TryPop, h.queue]
  rcases hbuf : q.data.buffer_ with _ | ⟨value, rest⟩
  · simp only [spec, hbuf]
    exact h.move (.done rfl (by simp))
  · simp only [spec, hbuf]
    exact h.move (.done rfl (by simp))

/-- A thread that has a section to run is in no wait of the queue's, or awake in one. -/
theorem At.isWaiting (h : At pc c) (hasleep : pc.isAsleep = false) :
    c.isWaiting = pc.isWaiting := by
  cases h with
  | asleep => cases hasleep
  | notified | spurious => rfl
  | idle hc | pending hc | done hc _ => exact hc

theorem step_pop (hw : (u.consumer t).isWaiting = false) :
    UnboundedBlockingQueue.step (.pop t) u = some (UnboundedBlockingQueue.Pop t .enter u) := by
  simp only [UnboundedBlockingQueue.step, hw, if_neg Bool.false_ne_true]

theorem step_tryPop (hw : (u.consumer t).isWaiting = false) :
    UnboundedBlockingQueue.step (.tryPop t) u = some (UnboundedBlockingQueue.TryPop t u) := by
  simp only [UnboundedBlockingQueue.step, hw, if_neg Bool.false_ne_true]

/-- **A run of the monitor is one of the queue.** -/
theorem covers : Machine.Covers (atomic n τ) (UnboundedBlockingQueue.machine n τ)
    (fun _ _ => True) (fun _ _ => True) (fun _ => (none : Option Unit)) (fun _ => none)
    Refines := by
  have hstay : ∀ {q' : Monitor.State n (BlockingQueue (List τ)) (Op τ) Unit (Answer τ)}
      {u : UnboundedBlockingQueue.State n τ}, Refines q' u →
      ∃ l u', (UnboundedBlockingQueue.machine n τ).Steps u l u' ∧ (∀ x ∈ l, True) ∧
        Machine.trace (fun _ => (none : Option Unit)) l = [] ∧ Refines q' u' :=
    fun h => ⟨[], _, .nil, fun _ _ => trivial, rfl, h⟩
  have hone : ∀ {q' : Monitor.State n (BlockingQueue (List τ)) (Op τ) Unit (Answer τ)}
      {u u' : UnboundedBlockingQueue.State n τ} (a : UnboundedBlockingQueue.Action n τ),
      UnboundedBlockingQueue.step a u = some u' → Refines q' u' →
      ∃ l u', (UnboundedBlockingQueue.machine n τ).Steps u l u' ∧ (∀ x ∈ l, True) ∧
        Machine.trace (fun _ => (none : Option Unit)) l = [] ∧ Refines q' u' :=
    fun a hst h => ⟨_, _, .one (a := a) hst, fun _ _ => trivial, rfl, h⟩
  constructor
  · rintro q rfl
    exact ⟨.new, rfl, rfl, fun _ => .idle rfl⟩
  · intro a q q' u h _ hst
    cases Monitor.moves_of_step hst with
    | @call t op hpc =>
      refine hstay (.turn h.queue (fun v _ => h.consumer v) ?_)
      have hat := h.consumer t
      rw [hpc] at hat
      cases hat with
      | idle hc => exact .pending hc
    | @spurious t w hpc =>
      have hat := h.consumer t
      rw [hpc] at hat
      generalize hc : u.consumer t = c at hat
      cases hat with
      | asleep =>
        have hnew : Refines ⟨q.data, update q.pc t (.woken w)⟩
            ⟨q.data, update u.consumer t .spurious, u.pushed, u.popped⟩ := h.move .spurious
        exact hone (.spurious t) (if_pos (by rw [hc]; rfl)) ⟨h.queue, hnew.consumer⟩
    | @ret t r hpc =>
      refine hstay (.turn h.queue (fun v _ => h.consumer v) ?_)
      have hat := h.consumer t
      rw [hpc] at hat
      cases hat with
      | done hc _ => exact .idle hc
    | @run t choice e pc he hnotified =>
      have hat := h.consumer t
      cases hpc : q.pc t with
      | pending op =>
        rw [hpc] at he hat
        obtain rfl := Option.some.inj he
        have hw : (u.consumer t).isWaiting = false := hat.isWaiting rfl
        cases op with
        | Push value =>
          obtain ⟨u', hst', h'⟩ := h.push hpc hnotified
          exact hone (.push value choice) hst' h'
        | Pop => exact hone (.pop t) (step_pop hw) (h.pop (w := .enter) hnotified)
        | TryPop => exact hone (.tryPop t) (step_tryPop hw) (h.tryPop hnotified)
        | Close => exact hone .close rfl (h.close hpc hnotified)
      | woken w =>
        rw [hpc] at he hat
        obtain rfl := Option.some.inj he
        refine hone (.resume t) ?_ (h.pop (w := .awake) hnotified)
        generalize hc : u.consumer t = c at hat
        cases hat with
        | notified => simp only [UnboundedBlockingQueue.step, hc]
        | spurious => simp only [UnboundedBlockingQueue.step, hc]
      | _ =>
        rw [hpc] at he
        cases he

end Refines

/-! ## The class with its mutex and its condition variable -/

/-- Inside `Wait`, and not asleep in the futex. -/
def awake (s : Guarded.State n (BlockingQueue (List τ)) (Op τ) (Section τ) Unit (Answer τ))
    (t : Fin n) : Bool := (s.pc t).isWaiting && !(s.cond.pc t).isAsleep

/-- Whoever was notified is awake in `Wait`. -/
theorem awake_of_notified
    {s : Guarded.State n (BlockingQueue (List τ)) (Op τ) (Section τ) Unit (Answer τ)}
    {q : Monitor.State n (BlockingQueue (List τ)) (Op τ) Unit (Answer τ)}
    {u : UnboundedBlockingQueue.State n τ} {P : Op τ ⊕ Unit → BlockingQueue (List τ) → Prop}
    (hq : Guarded.Refines code spec P s q) (hqu : Refines q u) (hfree : s.cond.mutex = none)
    {t : Fin n} (ht : (u.consumer t).isNotified = true) : awake s (id t) = true := by
  have hwoken : (q.pc t).isWaiting = true ∧ (q.pc t).isAsleep = false := by
    have hat := hqu.consumer t
    generalize u.consumer t = c, q.pc t = pq at hat ht
    cases hat with
    | notified => exact ⟨rfl, rfl⟩
    | asleep | spurious => cases ht
    | @idle c hc | @pending _ c hc | @done _ c hc _ =>
      cases c with
      | notified => cases hc
      | _ => cases ht
  change ((s.pc t).isWaiting && !(s.cond.pc t).isAsleep) = true
  rw [← hq.isWaiting hfree t, hwoken.1, Bool.true_and, Bool.not_eq_true']
  refine Bool.eq_false_iff.mpr fun hasleep => ?_
  obtain ⟨w, -, hw⟩ := hq.asleep hasleep
  rw [hw] at hwoken
  cases hwoken.2

/-- **No consumer sleeps in the futex beside available work.** The calls and returns are those of
sections done at once; nothing is popped from an empty list; with the mutex free and a consumer
asleep in the futex the queue is open and every element in it has a consumer that is awake in
`Wait`; and unless all threads rest, with the mutex free, one can go on. -/
theorem no_sleeper_beside_work
    {h : List (Transition (Guarded.State n (BlockingQueue (List τ)) (Op τ) (Section τ) Unit
      (Answer τ)) (Guarded.Action n (Op τ)))}
    {s : Guarded.State n (BlockingQueue (List τ)) (Op τ) (Section τ) Unit (Answer τ)}
    (hr : (machine n τ).Run h s) (hwrap : ∀ x ∈ h, Guarded.NoWrap x.act x.pre) :
    (∃ h' q, (atomic n τ).Run h' q ∧
      Machine.trace Monitor.vis h' = Machine.trace Guarded.vis h ∧
      (s.cond.mutex = none → q.data = s.data)) ∧
    (∀ t, s.pc t ≠ .unlock .fault ∧ s.pc t ≠ .done .fault) ∧
    (s.cond.mutex = none → (∃ t, (s.cond.pc t).isAsleep = true) →
      s.data.is_closed_ = false ∧ s.data.buffer_.length ≤ countWhere (awake s) id) ∧
    ((∀ t, s.Rests t) ∧ s.cond.mutex = none ∨
      ∃ a s', a.isOwn = true ∧ (machine n τ).step a s = some s') := by
  obtain ⟨h', q, hr', -, htrace, hq⟩ :=
    (Guarded.covers (P := fun _ _ => True) implements_spec (.new [])).trace hr
      fun x hx => ⟨hwrap x hx, fun _ _ => trivial⟩
  obtain ⟨u, hu, hqu⟩ := covers.reachable (hr'.reachableVia fun _ _ => trivial)
  have hinv := UnboundedBlockingQueue.inv_of_reachable hu.reachable
  refine ⟨⟨h', q, hr', htrace, fun hfree => hq.data_eq hfree⟩, fun t => ?_,
    fun hfree ⟨t, ht⟩ => ?_, ?_⟩
  · have hat := hq.pc t
    have hqt := hqu.consumer t
    constructor
    · intro hpc
      rw [hpc] at hat
      generalize s.cond.pc t = cp, q.pc t = pq at hat hqt
      cases hat with
      | unlock =>
        cases hqt with
        | done _ hr => exact hr rfl
    · intro hpc
      rw [hpc] at hat
      generalize s.cond.pc t = cp, q.pc t = pq at hat hqt
      cases hat with
      | done =>
        cases hqt with
        | done _ hr => exact hr rfl
  · have hasleep : (u.consumer t).isAsleep = true := by
      obtain ⟨w, -, hw⟩ := hq.asleep ht
      rw [(hqu.consumer t).isAsleep, hw]
      rfl
    obtain ⟨hopen, hle⟩ := hinv.notStranded ⟨t, hasleep⟩
    rw [hqu.queue, hq.data_eq hfree] at hopen hle
    refine ⟨hopen, hle.trans ?_⟩
    -- whoever is notified there is awake in `Wait` here
    refine Finset.sum_le_sum fun v _ => ?_
    cases hnotified : (u.consumer v).isNotified with
    | false => exact Nat.zero_le _
    | true => rw [awake_of_notified hq hqu hfree hnotified]
  · by_cases hrest : ∀ t, s.Rests t
    · exact .inl ⟨hrest, hq.free_of_rest hrest⟩
    · obtain ⟨t, ht⟩ := not_forall.mp hrest
      exact .inr (hq.goes_on ht)

/-- Thread `t` calls `Pop` on the empty queue and falls asleep. -/
def popsAndSleeps (t : Fin n) : List (Guarded.Action n (Op τ)) :=
  [.call t .Pop, .cond (.lock t), .access t, .access t, .access t, .cond (.read t),
    .cond (.release t), .cond (.test t), .cond (.wait t)]

/-- Two consumers sleep, and a push has woken one of them. -/
theorem no_sleeper_beside_work_woken : ∃ h s, (machine 3 ℕ).Run h s ∧ s.data.buffer_ = [7] ∧
    (s.cond.pc 2).isAsleep = true ∧ 1 ≤ countWhere (awake s) id := by
  obtain ⟨h, s, hr, hC, hp⟩ := Machine.Run.execVia_any (M := machine 3 ℕ) (C := Guarded.NoWrap)
    (.init rfl) (fun t ht => absurd ht List.not_mem_nil)
    (popsAndSleeps 1 ++ popsAndSleeps 2 ++
      [.call 0 (.Push 7), .cond (.lock 0), .access 0, .access 0, .cond (.notify 0 false),
        .cond (.bump 0), .cond (.wakeOne 0 (some 1)), .cond (.unlock 0)])
    (fun s => decide (s.cond.mutex = none ∧ s.data.buffer_ = [7] ∧
      (s.cond.pc 2).isAsleep = true))
    (by decide +kernel)
  obtain ⟨hfree, hbuffer, hasleep⟩ := of_decide_eq_true hp
  obtain ⟨-, -, hwork, -⟩ := no_sleeper_beside_work hr hC
  have hle := (hwork hfree ⟨2, hasleep⟩).2
  rw [hbuffer] at hle
  exact ⟨h, s, hr, hbuffer, hasleep, hle⟩

end Exe.Detail.GuardedQueue
