/-
`detail::UnboundedBlockingQueue` by itself: any number of threads that `Push`,
`Pop`, `TryPop` and `Close` in any order.

A push notifies one sleeper, and only if somebody is counted in `waiting_`. What
keeps the sleepers from being left beside an item is a count: there are never more
items than consumers on their way to them, as long as anybody sleeps.

# Conventions

* There are `n` threads; an element is a pointer of type `τ`. `Push` and `Close` are
  one section under the mutex each, whoever calls them.
* A thread that has left the wait list of the condition variable was `notified`, or
  it woke without a reason (`spurious`). In both cases it has yet to get the mutex
  back.
* `pushed` and `popped` are history: the elements in the order in which they entered
  the queue, and in the order in which they left it.
-/
import Exe.Machine
import Exe.FiniteSums
import Exe.BlockingQueue
import Mathlib.Data.List.FinRange

set_option autoImplicit false

namespace Exe.Detail.UnboundedBlockingQueue

open Function (update)

/-! ## The model -/

/-- Where a thread is in its calls of `Pop` and `TryPop`. -/
inductive Consumer (τ : Type*)
  | outside
  | asleep
  | notified
  | spurious
  | popped (result : Option τ)
  | tried (result : Option τ)

variable {n : ℕ} {τ : Type*}

namespace Consumer

def isAsleep : Consumer τ → Bool
  | asleep => true
  | _ => false

def isNotified : Consumer τ → Bool
  | notified => true
  | _ => false

/-- Inside `Pop`, counted in `waiting_`. -/
def isWaiting : Consumer τ → Bool
  | asleep => true
  | notified => true
  | spurious => true
  | _ => false

/-- What a notification makes of a thread. -/
def woken : Consumer τ → Consumer τ
  | asleep => notified
  | c => c

end Consumer

structure State (n : ℕ) (τ : Type*) where
  queue : BlockingQueue (List τ)
  consumer : Fin n → Consumer τ
  pushed : List τ
  popped : List τ

def State.new : State n τ where
  queue := .new []
  consumer _ := .outside
  pushed := []
  popped := []

/-- `empty_buffer_.notify_one()`: it wakes `choice`. -/
def State.notifyOne (s : State n τ) : Option (Fin n) → Option (State n τ)
  | some t =>
    if (s.consumer t).isAsleep then
      some { s with consumer := update s.consumer t (s.consumer t).woken }
    else none
  | none => if ∃ t, (s.consumer t).isAsleep = true then none else some s

def Push (value : τ) (choice : Option (Fin n)) (s : State n τ) : Option (State n τ) :=
  let s := { s with
    queue := { s.queue with buffer_ := s.queue.buffer_ ++ [value] }
    pushed := s.pushed ++ [value] }
  if 0 < s.queue.waiting_ then s.notifyOne choice else some s

/-- A section of `Pop`: the first one, or one after a wait. -/
def Pop (t : Fin n) (pc : WaitPc) (s : State n τ) : State n τ :=
  let q := s.queue.enter pc
  if q.mustWait List.isEmpty then
    { s with queue := q, consumer := update s.consumer t .asleep }
  else
    match q.leave.buffer_ with
    | [] => { s with queue := q.leave, consumer := update s.consumer t (.popped none) }
    | value :: rest =>
      { s with
        queue := { q.leave with buffer_ := rest }
        consumer := update s.consumer t (.popped (some value))
        popped := s.popped ++ [value] }

def TryPop (t : Fin n) (s : State n τ) : State n τ :=
  match s.queue.buffer_ with
  | [] => { s with consumer := update s.consumer t (.tried none) }
  | value :: rest =>
    { s with
      queue := { s.queue with buffer_ := rest }
      consumer := update s.consumer t (.tried (some value))
      popped := s.popped ++ [value] }

def Close (s : State n τ) : State n τ :=
  { s with
    queue := { s.queue with is_closed_ := true }
    consumer := if 0 < s.queue.waiting_ then fun t => (s.consumer t).woken else s.consumer }

inductive Action (n : ℕ) (τ : Type*)
  | push (value : τ) (choice : Option (Fin n))
  | pop (t : Fin n)
  | resume (t : Fin n)
  | spurious (t : Fin n)
  | tryPop (t : Fin n)
  | close

def step (a : Action n τ) (s : State n τ) : Option (State n τ) :=
  match a with
  | .push value choice => Push value choice s
  | .pop t => if (s.consumer t).isWaiting then none else some (Pop t .enter s)
  | .resume t =>
    match s.consumer t with
    | .notified => some (Pop t .awake s)
    | .spurious => some (Pop t .awake s)
    | _ => none
  | .spurious t =>
    if (s.consumer t).isAsleep then some { s with consumer := update s.consumer t .spurious }
    else none
  | .tryPop t => if (s.consumer t).isWaiting then none else some (TryPop t s)
  | .close => some (Close s)

def machine (n : ℕ) (τ : Type*) : Machine (State n τ) (Action n τ) where
  init s := s = .new
  step := step

/-- The thread that runs a section of `Pop` or `TryPop`. -/
def Action.consumer : Action n τ → Option (Fin n)
  | .pop t => some t
  | .resume t => some t
  | .tryPop t => some t
  | _ => none

/-! ## What a step can do -/

/-- `Push`, whichever sleeper it wakes: nobody is moved, or a sleeper was woken; and if
nobody was moved though somebody is counted as waiting, nobody sleeps. -/
theorem push_cases {s s' : State n τ} {value : τ} {choice : Option (Fin n)}
    (h : Push value choice s = some s') : ∃ consumer, s' = { s with
        queue := { s.queue with buffer_ := s.queue.buffer_ ++ [value] }
        pushed := s.pushed ++ [value]
        consumer } ∧
      ((∃ t, (s.consumer t).isAsleep = true ∧ consumer = update s.consumer t .notified) ∨
        consumer = s.consumer ∧
          (s.queue.waiting_ = 0 ∨ ∀ t, (s.consumer t).isAsleep = false)) := by
  simp only [Push] at h
  split at h
  · cases choice with
    | some t =>
      simp only [State.notifyOne] at h
      split at h
      · rename_i ht
        cases h
        refine ⟨_, rfl, .inl ⟨t, ht, ?_⟩⟩
        cases hc : s.consumer t <;> rw [hc] at ht <;> first | rfl | cases ht
      · cases h
    | none =>
      simp only [State.notifyOne] at h
      split at h
      · cases h
      · rename_i hno
        cases h
        refine ⟨_, rfl, .inr ⟨rfl, .inr fun t => ?_⟩⟩
        exact Bool.eq_false_iff.mpr fun ht => hno ⟨t, ht⟩
  · rename_i hw
    cases h
    exact ⟨_, rfl, .inr ⟨rfl, .inl (Nat.eq_zero_of_not_pos hw)⟩⟩

/-! ## The invariant -/

/-- As long as anybody sleeps, the queue is open and there are no more elements than
consumers on their way to them. -/
def NotStranded (s : State n τ) : Prop :=
  (∃ t, (s.consumer t).isAsleep = true) →
    s.queue.is_closed_ = false ∧
      s.queue.buffer_.length ≤ countWhere Consumer.isNotified s.consumer

structure Inv (s : State n τ) : Prop where
  fifo : s.pushed = s.popped ++ s.queue.buffer_
  waiting : s.queue.waiting_ = countWhere Consumer.isWaiting s.consumer
  notStranded : NotStranded s

/-- Consumer `t` moves from a place to another one. -/
theorem Inv.move {s s' : State n τ} (h : Inv s) {t : Fin n} {next : Consumer τ}
    (hcons : s'.consumer = update s.consumer t next)
    (hclosed : s'.queue.is_closed_ = s.queue.is_closed_)
    (hfifo : s'.pushed = s'.popped ++ s'.queue.buffer_)
    (hwait : s'.queue.waiting_ + (s.consumer t).isWaiting.toNat =
      s.queue.waiting_ + next.isWaiting.toNat)
    (hlen : s'.queue.buffer_ = [] ∨ next.isAsleep = false ∧
      s'.queue.buffer_.length + (s.consumer t).isNotified.toNat ≤
        s.queue.buffer_.length + next.isNotified.toNat)
    (hopen : next.isAsleep = true → s.queue.is_closed_ = false) : Inv s' := by
  have hnot := countWhere_update_add Consumer.isNotified s.consumer t next
  refine ⟨hfifo, ?_, ?_⟩
  · have hw := countWhere_update_add Consumer.isWaiting s.consumer t next
    rw [← h.waiting] at hw
    rw [hcons]
    omega
  · rintro ⟨v, hv⟩
    rw [hcons] at hv
    rw [hclosed, hcons]
    by_cases hvt : v = t
    · subst hvt
      rw [Function.update_self] at hv
      refine ⟨hopen hv, ?_⟩
      rcases hlen with hnil | ⟨hsleep, -⟩
      · rw [hnil]
        exact Nat.zero_le _
      · rw [hsleep] at hv
        cases hv
    · rw [Function.update_of_ne hvt] at hv
      obtain ⟨hop, hle⟩ := h.notStranded ⟨v, hv⟩
      refine ⟨hop, ?_⟩
      rcases hlen with hnil | ⟨-, hlen⟩
      · rw [hnil]
        exact Nat.zero_le _
      · omega

theorem Inv.push {s s' : State n τ} {value : τ} {choice : Option (Fin n)} (h : Inv s)
    (hs : Push value choice s = some s') : Inv s' := by
  obtain ⟨consumer, rfl, ⟨t, ht, rfl⟩ | ⟨rfl, hno⟩⟩ := push_cases hs
  · have hw : (s.consumer t).isWaiting = true ∧ (s.consumer t).isNotified = false := by
      cases hc : s.consumer t <;> rw [hc] at ht <;> first | exact ⟨rfl, rfl⟩ | cases ht
    refine h.move rfl rfl ?_ ?_ (.inr ⟨rfl, ?_⟩) fun hsl => by cases hsl
    · dsimp only
      rw [h.fifo, List.append_assoc]
    · rw [hw.1]
      rfl
    · rw [hw.2]
      exact Nat.le_of_eq List.length_append
  · -- nobody is left to be woken
    have hnone : ∀ t, (s.consumer t).isAsleep = false := by
      rcases hno with h0 | hno
      · intro t
        by_contra hsl
        rw [Bool.not_eq_false] at hsl
        have hpos : 0 < countWhere Consumer.isWaiting s.consumer := by
          refine countWhere_pos.mpr ⟨t, ?_⟩
          cases hc : s.consumer t <;> rw [hc] at hsl <;> first | rfl | cases hsl
        rw [← h.waiting, h0] at hpos
        exact Nat.lt_irrefl 0 hpos
      · exact hno
    refine ⟨?_, h.waiting, ?_⟩
    · dsimp only
      rw [h.fifo, List.append_assoc]
    · rintro ⟨t, ht⟩
      rw [hnone t] at ht
      cases ht

/-- A section of `Pop`: `pc` says whether it is
counted in `waiting_` already. -/
theorem Inv.pop {s : State n τ} (h : Inv s) {t : Fin n} {pc : WaitPc}
    (hpc : (s.queue.enter pc).waiting_ = s.queue.waiting_ + 1 ∧
        (s.consumer t).isWaiting = false ∧ (s.consumer t).isNotified = false ∨
      (s.queue.enter pc).waiting_ = s.queue.waiting_ ∧ (s.consumer t).isWaiting = true) :
    Inv (Pop t pc s) := by
  obtain ⟨hbuf, hclosed⟩ := s.queue.enter_eq pc
  have hleave : (s.queue.enter pc).leave.buffer_ = s.queue.buffer_ := hbuf
  have hcount : (s.queue.enter pc).waiting_ + (s.consumer t).isWaiting.toNat =
      s.queue.waiting_ + 1 := by
    rcases hpc with ⟨hw, hc, -⟩ | ⟨hw, hc⟩ <;> rw [hw, hc] <;> rfl
  have hnot : (s.consumer t).isNotified.toNat ≤ 1 := Bool.toNat_le _
  have hout : (s.queue.enter pc).leave.waiting_ + (s.consumer t).isWaiting.toNat =
      s.queue.waiting_ := by
    have hpos : 0 < (s.queue.enter pc).waiting_ := by
      rcases hpc with ⟨hw, -⟩ | ⟨hw, hc⟩
      · omega
      · rw [hw, h.waiting]
        exact countWhere_pos.mpr ⟨t, hc⟩
    simp only [BlockingQueue.leave]
    omega
  simp only [UnboundedBlockingQueue.Pop]
  split
  · rename_i hwait
    simp only [BlockingQueue.mustWait, Bool.and_eq_true, Bool.not_eq_true', hbuf, hclosed,
      List.isEmpty_iff] at hwait
    refine h.move rfl hclosed ?_ hcount (.inl (hbuf.trans hwait.2)) fun _ => hwait.1
    dsimp only
    rw [hbuf]
    exact h.fifo
  · split
    · rename_i hnil
      rw [hleave] at hnil
      refine h.move rfl hclosed ?_ hout (.inl (hleave.trans hnil)) fun hsl => by cases hsl
      dsimp only
      rw [hleave]
      exact h.fifo
    · rename_i value rest hcons
      rw [hleave] at hcons
      refine h.move rfl hclosed ?_ hout (.inr ⟨rfl, ?_⟩) fun hsl => by cases hsl
      · dsimp only
        rw [h.fifo, hcons, List.append_assoc]
        rfl
      · rw [hcons, List.length_cons]
        exact Nat.add_le_add_left hnot _

theorem Inv.tryPop {s : State n τ} (h : Inv s) {t : Fin n}
    (hw : (s.consumer t).isWaiting = false) : Inv (TryPop t s) := by
  have hnot : (s.consumer t).isNotified = false := by
    cases hc : s.consumer t <;> rw [hc] at hw <;> first | rfl | cases hw
  simp only [UnboundedBlockingQueue.TryPop]
  split
  · rename_i hnil
    refine h.move rfl rfl h.fifo ?_ (.inl hnil) fun hsl => by cases hsl
    rw [hw]
    rfl
  · rename_i value rest hcons
    refine h.move rfl rfl ?_ ?_ (.inr ⟨rfl, ?_⟩) fun hsl => by cases hsl
    · dsimp only
      rw [h.fifo, hcons, List.append_assoc]
      rfl
    · rw [hw]
      rfl
    · rw [hnot, hcons, List.length_cons]
      exact Nat.le_succ _

theorem isWaiting_woken (c : Consumer τ) : c.woken.isWaiting = c.isWaiting := by
  cases c <;> rfl

theorem isAsleep_woken (c : Consumer τ) : c.woken.isAsleep = false := by
  cases c <;> rfl

/-- Whoever sleeps is counted, so `Close` wakes everybody. -/
theorem Inv.close {s : State n τ} (h : Inv s) : Inv (Close s) := by
  by_cases hpos : 0 < s.queue.waiting_
  · refine ⟨h.fifo, ?_, ?_⟩
    · simp only [Close, if_pos hpos]
      rw [h.waiting]
      exact countWhere_congr fun t => (isWaiting_woken _).symm
    · rintro ⟨t, ht⟩
      simp only [Close, if_pos hpos] at ht
      rw [isAsleep_woken] at ht
      cases ht
  · refine ⟨h.fifo, ?_, ?_⟩
    · simp only [Close, if_neg hpos]
      exact h.waiting
    · rintro ⟨t, ht⟩
      simp only [Close, if_neg hpos] at ht
      refine absurd ?_ hpos
      rw [h.waiting]
      refine countWhere_pos.mpr ⟨t, ?_⟩
      cases hc : s.consumer t <;> rw [hc] at ht <;> first | rfl | cases ht

theorem Inv.step {s s' : State n τ} {a : Action n τ} (h : Inv s)
    (hs : step a s = some s') : Inv s' := by
  cases a with
  | push value choice => exact h.push hs
  | pop t =>
    simp only [UnboundedBlockingQueue.step] at hs
    split at hs
    · cases hs
    · rename_i hw
      cases hs
      rw [Bool.not_eq_true] at hw
      have hc : (s.consumer t).isNotified = false := by
        cases hc : s.consumer t <;> rw [hc] at hw <;> first | rfl | cases hw
      exact h.pop (.inl ⟨rfl, hw, hc⟩)
  | resume t =>
    simp only [UnboundedBlockingQueue.step] at hs
    split at hs
    · rename_i hc
      cases hs
      exact h.pop (.inr ⟨rfl, by rw [hc]; rfl⟩)
    · rename_i hc
      cases hs
      exact h.pop (.inr ⟨rfl, by rw [hc]; rfl⟩)
    · cases hs
  | spurious t =>
    simp only [UnboundedBlockingQueue.step] at hs
    split at hs
    · rename_i ht
      cases hs
      have hw : (s.consumer t).isWaiting = true ∧ (s.consumer t).isNotified = false := by
        cases hc : s.consumer t <;> rw [hc] at ht <;> first | exact ⟨rfl, rfl⟩ | cases ht
      refine h.move rfl rfl h.fifo ?_ (.inr ⟨rfl, ?_⟩) fun hsl => by cases hsl
      · rw [hw.1]
        rfl
      · rw [hw.2]
        exact Nat.le_refl _
    · cases hs
  | tryPop t =>
    simp only [UnboundedBlockingQueue.step] at hs
    split at hs
    · cases hs
    · rename_i hw
      cases hs
      exact h.tryPop (Bool.eq_false_iff.mpr hw)
  | close =>
    cases hs
    exact h.close

theorem inv_of_reachable {s : State n τ} (hs : (machine n τ).Reachable s) : Inv s := by
  refine hs.invariant (fun s hinit => ?_) fun _ _ _ h _ hst => h.step hst
  subst hinit
  refine ⟨rfl, (Finset.sum_eq_zero fun _ _ => rfl).symm, ?_⟩
  rintro ⟨t, ht⟩
  cases ht

/-! ## What the calls return -/

/-- What a section of a consumer did to the queue, by what it left the consumer with: it
took the first element and returns that, or it found the queue empty, and closed if the
call is `Pop`. -/
def Answers (s s' : State n τ) : Consumer τ → Prop
  | .popped (some value) | .tried (some value) =>
    s.queue.buffer_ = value :: s'.queue.buffer_ ∧ s'.popped = s.popped ++ [value]
  | .popped none => s.queue.buffer_ = [] ∧ s.queue.is_closed_ = true ∧ s'.popped = s.popped
  | .tried none => s.queue.buffer_ = [] ∧ s'.popped = s.popped
  | _ => s'.queue.buffer_ = s.queue.buffer_ ∧ s'.popped = s.popped

theorem pop_answers (s : State n τ) (t : Fin n) (pc : WaitPc) :
    Answers s (Pop t pc s) ((Pop t pc s).consumer t) := by
  obtain ⟨hbuf, hclosed⟩ := s.queue.enter_eq pc
  have hleave : (s.queue.enter pc).leave.buffer_ = s.queue.buffer_ := hbuf
  simp only [Pop]
  split
  · simp only [Function.update_self]
    exact ⟨hbuf, rfl⟩
  · rename_i hwait
    split
    · rename_i hnil
      rw [hleave] at hnil
      simp only [Function.update_self]
      simp only [BlockingQueue.mustWait, hbuf, hclosed, hnil, List.isEmpty_nil, Bool.and_true,
        Bool.not_eq_true', Bool.not_eq_false] at hwait
      exact ⟨hnil, hwait, rfl⟩
    · rename_i value rest hcons
      rw [hleave] at hcons
      simp only [Function.update_self]
      exact ⟨hcons, rfl⟩

theorem tryPop_answers (s : State n τ) (t : Fin n) :
    Answers s (TryPop t s) ((TryPop t s).consumer t) := by
  simp only [TryPop]
  split
  · rename_i hnil
    simp only [Function.update_self]
    exact ⟨hnil, rfl⟩
  · rename_i value rest hcons
    simp only [Function.update_self]
    exact ⟨hcons, rfl⟩

theorem step_answers {s s' : State n τ} {a : Action n τ} {t : Fin n}
    (h : step a s = some s') (ha : a.consumer = some t) : Answers s s' (s'.consumer t) := by
  cases a with
  | pop v =>
    cases ha
    simp only [step] at h
    split at h
    · cases h
    · cases h
      exact pop_answers s t .enter
  | resume v =>
    cases ha
    simp only [step] at h
    split at h
    · cases h
      exact pop_answers s t .awake
    · cases h
      exact pop_answers s t .awake
    · cases h
  | tryPop v =>
    cases ha
    simp only [step] at h
    split at h
    · cases h
    · cases h
      exact tryPop_answers s t
  | _ => cases ha

/-- **No consumer is left asleep beside available work.** The elements leave in the order
in which they entered, each once; `Pop` gives up only at a closed and empty queue; and
while a consumer sleeps, the queue is open and every element in it has a consumer that
was notified and has yet to get the mutex. -/
theorem no_stranded_consumer {s : State n τ} (hs : (machine n τ).Reachable s) :
    s.pushed = s.popped ++ s.queue.buffer_ ∧
    (∀ a s' t, step a s = some s' → a.consumer = some t → Answers s s' (s'.consumer t)) ∧
    ((∃ t, (s.consumer t).isAsleep = true) →
      s.queue.is_closed_ = false ∧
        s.queue.buffer_.length ≤ countWhere Consumer.isNotified s.consumer) :=
  ⟨(inv_of_reachable hs).fifo, (fun _ _ _ h ha => step_answers h ha),
    (inv_of_reachable hs).notStranded⟩

/-- Two consumers sleep, and a push has notified one of them. -/
theorem no_stranded_consumer_notified : ∃ s : State 2 ℕ, (machine 2 ℕ).Reachable s ∧
    s.queue.buffer_ = [7] ∧ (s.consumer 1).isAsleep = true ∧
    1 ≤ countWhere Consumer.isNotified s.consumer := by
  obtain ⟨s, hs, hp⟩ := Machine.Reachable.exec_any (M := machine 2 ℕ) (s := State.new) (.init rfl)
    [.pop 0, .pop 1, .push 7 (some 0)]
    (fun s => decide (s.queue.buffer_ = [7] ∧ (s.consumer 1).isAsleep = true)) (by decide)
  obtain ⟨hbuf, hsl⟩ := of_decide_eq_true hp
  have hle := ((no_stranded_consumer hs).2.2 ⟨1, hsl⟩).2
  rw [hbuf] at hle
  exact ⟨s, hs, hbuf, hsl, hle⟩

end Exe.Detail.UnboundedBlockingQueue
