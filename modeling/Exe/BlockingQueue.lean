/-
The two blocking queues: `detail::UnboundedBlockingQueue` and
`detail::TimerBlockingQueue`.

They are one monitor around two containers. A consumer counts itself in
`waiting_`, waits on the condition variable while the queue is open and empty,
counts itself out, and takes. Every section under the mutex is one step; a
consumer that has to wait releases the mutex and sleeps in the same step, and
runs its loop test again, in a section of its own, after it was notified or woke
without a reason.
-/
import Mathlib.Tactic.Common

set_option autoImplicit false

namespace Exe.Detail

/-! ## The monitor -/

/-- The queue around a container of type `β`. -/
structure BlockingQueue (β : Type*) where
  buffer_ : β
  waiting_ : ℕ
  is_closed_ : Bool

/-- Where a consumer is inside a blocking call: before it, asleep on the
condition variable, or awake again and before its next loop test. -/
inductive WaitPc
  | enter
  | asleep
  | awake
  deriving DecidableEq

/-- A consumer after a notification. -/
def WaitPc.woken : WaitPc → WaitPc
  | .asleep => .awake
  | pc => pc

namespace BlockingQueue

variable {β : Type*}

def new (empty : β) : BlockingQueue β where
  buffer_ := empty
  waiting_ := 0
  is_closed_ := false

/-- `++waiting_`, which only the first section of a call does. -/
def enter (q : BlockingQueue β) : WaitPc → BlockingQueue β
  | .enter => { q with waiting_ := q.waiting_ + 1 }
  | _ => q

/-- `--waiting_`. -/
def leave (q : BlockingQueue β) : BlockingQueue β := { q with waiting_ := q.waiting_ - 1 }

/-- The loop test `!is_closed_ && buffer_.IsEmpty()`. Past the loop an empty
queue is a closed one, so the second test of the source is that of emptiness. -/
def mustWait (isEmpty : β → Bool) (q : BlockingQueue β) : Bool :=
  !q.is_closed_ && isEmpty q.buffer_

theorem enter_eq (q : BlockingQueue β) (pc : WaitPc) :
    (q.enter pc).buffer_ = q.buffer_ ∧ (q.enter pc).is_closed_ = q.is_closed_ := by
  cases pc <;> exact ⟨rfl, rfl⟩

/-- Past the loop of a blocking call an empty queue is closed. -/
theorem closed_of_empty {isEmpty : β → Bool} {q : BlockingQueue β}
    (h : q.mustWait isEmpty ≠ true) (hempty : isEmpty q.buffer_ = true) : q.is_closed_ = true := by
  simpa [mustWait, hempty] using h

end BlockingQueue

end Exe.Detail
