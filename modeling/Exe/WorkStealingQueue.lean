/-
`WorkStealingTaskQueue<Capacity>`: the lock-free ring every worker of the
work-stealing pool keeps its tasks in.

One thread pushes, any number of threads take. `head_` and `tail_` only grow and
are reduced modulo `Capacity` when a cell is addressed; a consumer copies the
cells first and claims them afterwards with one `compare_exchange_weak` on
`head_`, so what it has copied may be stale by the time it claims.

# The argument

Everything rests on `head_` being monotone. A consumer remembers the `head` it
loaded; if the claim succeeds, `head_` had that value during the whole call, so
the cells it copied were inside the window `[head_, tail_)` all along, and the
producer never writes there. The validity predicates of this file
(`PopPc.Valid`, `GrabPc.Valid`) therefore say nothing about a copy whose `head`
is out of date, and are kept by every step of every other thread
(`PopPc.Valid.mono`).

`size_t` is not idealised: `head + Capacity`, `tail + 1` and `head + 1` are taken
modulo `2^64`. The first of these sums can wrap, and then `TryPush` refuses; the
others never do, because a push that would have to wrap is refused before.
-/
import Exe.Machine
import Mathlib.Logic.Function.Basic
import Mathlib.Data.List.Infix
import Mathlib.Tactic.Common

set_option autoImplicit false

namespace Exe.WorkStealingQueue

/-! ## The object -/

/-- `SIZE_MAX + 1`. -/
abbrev sizeMod : ℕ := 2 ^ 64

/-- The queue. `pushed` and `taken` are history: the tasks stored so far and the
tasks claimed so far, each in order. No method reads them. -/
structure Queue (τ : Type*) where
  buffer_ : ℕ → τ
  head_ : ℕ
  tail_ : ℕ
  pushed : List τ
  taken : List τ

/-- A new queue. Its cells hold `nullptr`. -/
def Queue.new {τ : Type*} (null : τ) : Queue τ :=
  { buffer_ := fun _ => null, head_ := 0, tail_ := 0, pushed := [], taken := [] }

/-- The cell an index is stored in: a mask when `Capacity` is a power of two and
a remainder otherwise. -/
def Mod (capacity num : ℕ) : ℕ :=
  if capacity &&& (capacity - 1) = 0 then num &&& (capacity - 1) else num % capacity

/-- How a method step ends: it is at its next atomic access, or it returns. -/
inductive Outcome (π ρ : Type*)
  | goto (pc : π)
  | ret (r : ρ)

variable {τ : Type*}

/-- Where `TryPush` is. -/
inductive PushPc
  | loadTail
  | loadHead (tail : ℕ)
  | storeSlot (tail : ℕ)
  | storeTail (tail : ℕ)

/-- One atomic access of `TryPush(task)`. -/
def TryPush (capacity : ℕ) (task : τ) (q : Queue τ) : PushPc → Queue τ × Outcome PushPc Bool
  | .loadTail => (q, .goto (.loadHead q.tail_))
  | .loadHead tail =>
    let head := q.head_
    if (head + capacity) % sizeMod ≤ tail then (q, .ret false)
    else (q, .goto (.storeSlot tail))
  | .storeSlot tail =>
    ({ q with buffer_ := Function.update q.buffer_ (Mod capacity tail) task },
      .goto (.storeTail tail))
  | .storeTail tail =>
    ({ q with tail_ := (tail + 1) % sizeMod, pushed := q.pushed ++ [task] }, .ret true)

/-- Where `TryPop` is. -/
inductive PopPc (τ : Type*)
  | loadHead
  | loadTail (head : ℕ)
  | loadSlot (head : ℕ)
  | cas (head : ℕ) (task : τ)

/-- One atomic access of `TryPop()`. `weak` makes the `compare_exchange_weak`
fail spuriously. -/
def TryPop (capacity : ℕ) (weak : Bool) (q : Queue τ) :
    PopPc τ → Queue τ × Outcome (PopPc τ) (Option τ)
  | .loadHead => (q, .goto (.loadTail q.head_))
  | .loadTail head => if head = q.tail_ then (q, .ret none) else (q, .goto (.loadSlot head))
  | .loadSlot head => (q, .goto (.cas head (q.buffer_ (Mod capacity head))))
  | .cas head task =>
    if q.head_ = head ∧ weak = false then
      ({ q with head_ := (head + 1) % sizeMod, taken := q.taken ++ [task] }, .ret (some task))
    else (q, .goto .loadHead)

/-- Where `Grab` is. `buf` is the part of `out_buffer` filled so far. -/
inductive GrabPc (τ : Type*)
  | loadHead
  | loadTail (head : ℕ)
  | loadSlot (head tail i : ℕ) (buf : List τ)
  | cas (head i : ℕ) (buf : List τ)

/-- The loop test of `Grab`: copy cell `i`, or go on to the claim. -/
def GrabPc.loop (size head tail i : ℕ) (buf : List τ) : GrabPc τ :=
  if i < tail ∧ i - head < size then .loadSlot head tail i buf else .cas head i buf

/-- One atomic access of `Grab(out_buffer)`, `size = out_buffer.size()`. -/
def Grab (capacity size : ℕ) (weak : Bool) (q : Queue τ) :
    GrabPc τ → Queue τ × Outcome (GrabPc τ) (List τ)
  | .loadHead => (q, .goto (.loadTail q.head_))
  | .loadTail head => (q, .goto (.loop size head q.tail_ head []))
  | .loadSlot head tail i buf =>
    (q, .goto (.loop size head tail ((i + 1) % sizeMod) (buf ++ [q.buffer_ (Mod capacity i)])))
  | .cas head i buf =>
    if q.head_ = head ∧ weak = false then
      ({ q with head_ := i, taken := q.taken ++ buf }, .ret buf)
    else (q, .goto .loadHead)

/-- What the queue holds: the cells of the window `[head_, tail_)`, in order. -/
def Queue.contents (capacity : ℕ) (q : Queue τ) : List τ :=
  (List.range (q.tail_ - q.head_)).map fun k => q.buffer_ (Mod capacity (q.head_ + k))

theorem contents_eq_nil {capacity : ℕ} {q : Queue τ} (h : q.head_ = q.tail_) :
    q.contents capacity = [] := by
  simp [Queue.contents, h]

/-! ## Cell addresses -/

/-- Both branches of `Mod` compute the remainder. -/
theorem Mod_eq {capacity : ℕ} (hc : 0 < capacity) (num : ℕ) :
    Mod capacity num = num % capacity := by
  unfold Mod
  split
  · rename_i h
    obtain ⟨k, rfl⟩ := (Nat.and_sub_one_eq_zero_iff_isPowerOfTwo hc.ne').mp h
    exact Nat.and_two_pow_sub_one_eq_mod num k
  · rfl

/-- Two indices less than a window apart have different cells. -/
theorem Mod_ne {capacity i j : ℕ} (hij : i < j) (hw : j < i + capacity) :
    Mod capacity i ≠ Mod capacity j := by
  have hc : 0 < capacity := by omega
  rw [Mod_eq hc, Mod_eq hc]
  intro he
  have hdvd : capacity ∣ j - i :=
    Nat.dvd_of_mod_eq_zero (Nat.sub_mod_eq_zero_of_mod_eq he.symm)
  exact absurd (Nat.le_of_dvd (by omega) hdvd) (by omega)

/-! ## The invariant of the object -/

/-- The representation invariant: the indices are ordered, a window spans at
most `Capacity` cells, and the cells of the window hold the tasks pushed under
their indices. -/
structure Queue.Inv (capacity : ℕ) (q : Queue τ) : Prop where
  head_le : q.head_ ≤ q.tail_
  tail_le : q.tail_ ≤ q.head_ + capacity
  tail_lt : q.tail_ < sizeMod
  length_pushed : q.pushed.length = q.tail_
  taken_eq : q.taken = q.pushed.take q.head_
  cell : ∀ i, q.head_ ≤ i → i < q.tail_ → q.pushed[i]? = some (q.buffer_ (Mod capacity i))

theorem Queue.Inv.new (capacity : ℕ) (null : τ) : (Queue.new null).Inv capacity := by
  constructor <;> simp [Queue.new]

/-- The window holds exactly the pushed tasks that nobody has claimed yet. -/
theorem Queue.Inv.contents_eq {capacity : ℕ} {q : Queue τ} (h : q.Inv capacity) :
    q.contents capacity = q.pushed.drop q.head_ := by
  apply List.ext_getElem?
  intro k
  rw [Queue.contents, List.getElem?_map, List.getElem?_drop]
  by_cases hk : k < q.tail_ - q.head_
  · rw [List.getElem?_range hk, Option.map_some, h.cell _ (by omega) (by omega)]
  · rw [List.getElem?_eq_none (by simpa using hk),
      List.getElem?_eq_none (by rw [h.length_pushed]; omega)]
    rfl

theorem Queue.Inv.pushed_eq {capacity : ℕ} {q : Queue τ} (h : q.Inv capacity) :
    q.pushed = q.taken ++ q.contents capacity := by
  rw [h.taken_eq, h.contents_eq, List.take_append_drop]

/-- What a step of a consumer can have done to the queue, as the producer sees
it: `head_` may have moved on. -/
structure Queue.Advanced (q q' : Queue τ) : Prop where
  head_le : q.head_ ≤ q'.head_
  tail_eq : q'.tail_ = q.tail_
  buffer_eq : q'.buffer_ = q.buffer_

theorem Queue.Advanced.refl (q : Queue τ) : q.Advanced q := ⟨le_rfl, rfl, rfl⟩

/-- What any step can have done to the queue, as a consumer sees it. -/
structure Queue.Grown (q q' : Queue τ) : Prop where
  head_le : q.head_ ≤ q'.head_
  tail_le : q.tail_ ≤ q'.tail_
  prefix_pushed : q.pushed <+: q'.pushed

theorem Queue.Grown.refl (q : Queue τ) : q.Grown q := ⟨le_rfl, le_rfl, List.prefix_rfl⟩

/-! ## What each program point knows -/

/-- The producer owns `tail_`: the value it loaded stays current, and the cell
it writes is outside the window. -/
def PushPc.Valid (capacity : ℕ) (q : Queue τ) (task : τ) : PushPc → Prop
  | .loadTail => True
  | .loadHead tail => tail = q.tail_
  | .storeSlot tail => tail = q.tail_ ∧ tail < q.head_ + capacity ∧ tail + 1 < sizeMod
  | .storeTail tail => tail = q.tail_ ∧ tail < q.head_ + capacity ∧ tail + 1 < sizeMod ∧
      q.buffer_ (Mod capacity tail) = task

/-- A consumer's `head` is not ahead of `head_`, and what it copied is right as
long as `head_` has not moved. -/
def PopPc.Valid (q : Queue τ) : PopPc τ → Prop
  | .loadHead => True
  | .loadTail head => head ≤ q.head_
  | .loadSlot head => head ≤ q.head_ ∧ head < q.tail_
  | .cas head task => head ≤ q.head_ ∧ head < q.tail_ ∧
      (q.head_ = head → q.pushed[head]? = some task)

/-- The same for a batch: `buf` holds the first tasks of the window. -/
def GrabPc.Valid (size : ℕ) (q : Queue τ) : GrabPc τ → Prop
  | .loadHead => True
  | .loadTail head => head ≤ q.head_
  | .loadSlot head tail i buf => head ≤ q.head_ ∧ i = head + buf.length ∧ i < tail ∧
      tail ≤ q.tail_ ∧ buf.length < size ∧
      (q.head_ = head → buf <+: q.pushed.drop head)
  | .cas head i buf => head ≤ q.head_ ∧ i = head + buf.length ∧
      (buf = [] ∨ i ≤ q.tail_) ∧ buf.length ≤ size ∧
      (q.head_ = head → buf <+: q.pushed.drop head)

theorem PushPc.Valid.mono {capacity : ℕ} {q q' : Queue τ} {task : τ} {pc : PushPc}
    (hq : q.Advanced q') (h : pc.Valid capacity q task) : pc.Valid capacity q' task := by
  have hh := hq.head_le
  cases pc with
  | loadTail => trivial
  | loadHead tail => exact h.trans hq.tail_eq.symm
  | storeSlot tail =>
    obtain ⟨h₁, h₂, h₃⟩ := h
    exact ⟨h₁.trans hq.tail_eq.symm, by omega, h₃⟩
  | storeTail tail =>
    obtain ⟨h₁, h₂, h₃, h₄⟩ := h
    exact ⟨h₁.trans hq.tail_eq.symm, by omega, h₃, by rw [hq.buffer_eq]; exact h₄⟩

theorem PopPc.Valid.mono {q q' : Queue τ} {pc : PopPc τ} (hq : q.Grown q')
    (h : pc.Valid q) : pc.Valid q' := by
  have hh := hq.head_le
  have ht := hq.tail_le
  cases pc with
  | loadHead => trivial
  | loadTail head => exact le_trans h hh
  | loadSlot head => exact ⟨le_trans h.1 hh, lt_of_lt_of_le h.2 ht⟩
  | cas head task =>
    obtain ⟨h₁, h₂, h₃⟩ := h
    refine ⟨by omega, by omega, fun he => ?_⟩
    have hq₁ := h₃ (by omega)
    obtain ⟨l, hl⟩ := hq.prefix_pushed
    rw [← hl, List.getElem?_append_left (List.getElem?_eq_some_iff.mp hq₁).1]
    exact hq₁

/-- A prefix of what was pushed from `n` on stays one when more is pushed. -/
theorem prefix_drop_mono {l l' buf : List τ} {n : ℕ} (hl : l <+: l')
    (h : buf <+: l.drop n) : buf <+: l'.drop n :=
  h.trans (hl.drop n)

theorem GrabPc.Valid.mono {size : ℕ} {q q' : Queue τ} {pc : GrabPc τ} (hq : q.Grown q')
    (h : pc.Valid size q) : pc.Valid size q' := by
  have hh := hq.head_le
  have ht := hq.tail_le
  cases pc with
  | loadHead => trivial
  | loadTail head => exact le_trans h hh
  | loadSlot head tail i buf =>
    obtain ⟨h₁, h₂, h₃, h₄, h₅, h₆⟩ := h
    exact ⟨by omega, h₂, h₃, by omega, h₅, fun he =>
      prefix_drop_mono hq.prefix_pushed (h₆ (by omega))⟩
  | cas head i buf =>
    obtain ⟨h₁, h₂, h₃, h₄, h₅⟩ := h
    exact ⟨by omega, h₂, h₃.imp_right fun h => by omega, h₄, fun he =>
      prefix_drop_mono hq.prefix_pushed (h₅ (by omega))⟩

/-! ## What one step can do

One lemma per method. Each says everything a step of the method can do to the
queue and where it leaves the method, so no later proof unfolds a method. -/

/-- Writing a cell outside the window keeps the invariant. -/
theorem Queue.Inv.store {capacity : ℕ} {q : Queue τ} (h : q.Inv capacity) (task : τ)
    (hfree : q.tail_ < q.head_ + capacity) :
    Queue.Inv capacity
      { q with buffer_ := Function.update q.buffer_ (Mod capacity q.tail_) task } := by
  refine ⟨h.head_le, h.tail_le, h.tail_lt, h.length_pushed, h.taken_eq, fun i hi hi' => ?_⟩
  have hne : Mod capacity i ≠ Mod capacity q.tail_ := Mod_ne hi' (by dsimp only at hi; omega)
  simp only [Function.update_of_ne hne]
  exact h.cell i hi hi'

/-- Publishing the written cell extends the window by one task. -/
theorem Queue.Inv.publish {capacity : ℕ} {q : Queue τ} (h : q.Inv capacity) {task : τ}
    (hfree : q.tail_ < q.head_ + capacity) (hlt : q.tail_ + 1 < sizeMod)
    (hcell : q.buffer_ (Mod capacity q.tail_) = task) :
    Queue.Inv capacity { q with tail_ := q.tail_ + 1, pushed := q.pushed ++ [task] } := by
  have hlen := h.length_pushed
  have hle := h.head_le
  refine ⟨by dsimp only; omega, by dsimp only; omega, hlt, by simp [hlen], ?_, ?_⟩
  · dsimp only
    rw [List.take_append_of_le_length (by omega)]
    exact h.taken_eq
  · intro i hi hi'
    dsimp only at hi hi' ⊢
    rcases Nat.lt_or_ge i q.tail_ with hlt' | hge
    · rw [List.getElem?_append_left (by omega)]
      exact h.cell i hi hlt'
    · obtain rfl : i = q.pushed.length := by omega
      rw [List.getElem?_concat_length, hlen, hcell]

/-- Claiming a prefix of the window hands out exactly these tasks. -/
theorem Queue.Inv.claim {capacity : ℕ} {q : Queue τ} (h : q.Inv capacity) {buf : List τ}
    (hbuf : buf <+: q.pushed.drop q.head_) :
    Queue.Inv capacity { q with head_ := q.head_ + buf.length, taken := q.taken ++ buf } := by
  have hlen : buf.length ≤ q.tail_ - q.head_ := by
    have := hbuf.length_le
    rwa [List.length_drop, h.length_pushed] at this
  have hle := h.head_le
  have htl := h.tail_le
  refine ⟨by dsimp only; omega, by dsimp only; omega, h.tail_lt, h.length_pushed, ?_, ?_⟩
  · dsimp only
    rw [List.take_add, ← h.taken_eq, List.prefix_iff_eq_take.mp hbuf]
    simp
  · intro i hi hi'
    exact h.cell i (by dsimp only at hi; omega) hi'

/-- ... and leaves the rest of the window in the queue. -/
theorem Queue.Inv.contents_claim {capacity : ℕ} {q : Queue τ} (h : q.Inv capacity)
    {buf : List τ} (hbuf : buf <+: q.pushed.drop q.head_) :
    q.contents capacity = buf ++ Queue.contents capacity
      { q with head_ := q.head_ + buf.length, taken := q.taken ++ buf } := by
  rw [h.contents_eq, (h.claim hbuf).contents_eq]
  obtain ⟨l, hl⟩ := hbuf
  dsimp only
  rw [← List.drop_drop, ← hl, List.drop_left]

/-- An access that leaves the window as it is. -/
structure Queue.Quiet (capacity : ℕ) (q q' : Queue τ) : Prop where
  inv : q'.Inv capacity
  head_eq : q'.head_ = q.head_
  tail_eq : q'.tail_ = q.tail_
  pushed_eq : q'.pushed = q.pushed

/-- The access that puts `task` at the end of the window. -/
structure Queue.Stores (capacity : ℕ) (q : Queue τ) (task : τ) (q' : Queue τ) : Prop where
  inv : q'.Inv capacity
  head_eq : q'.head_ = q.head_
  tail_eq : q'.tail_ = q.tail_ + 1
  pushed_eq : q'.pushed = q.pushed ++ [task]

/-- The access that claims `buf` from the front of the window. -/
structure Queue.Claims (capacity : ℕ) (q : Queue τ) (buf : List τ) (q' : Queue τ) : Prop where
  inv : q'.Inv capacity
  eq : q' = { q with head_ := q.head_ + buf.length, taken := q.taken ++ buf }
  contents_eq : q.contents capacity = buf ++ q'.contents capacity

section Effects

variable {capacity : ℕ} {q q' : Queue τ} {task : τ} {buf : List τ}

theorem Queue.Quiet.grown (h : q.Quiet capacity q') : q.Grown q' :=
  ⟨h.head_eq.ge, h.tail_eq.ge, by rw [h.pushed_eq]⟩

theorem Queue.Stores.grown (h : q.Stores capacity task q') : q.Grown q' :=
  ⟨h.head_eq.ge, h.tail_eq ▸ Nat.le_succ _, by rw [h.pushed_eq]; exact List.prefix_append _ _⟩

theorem Queue.Claims.grown (h : q.Claims capacity buf q') : q.Grown q' := by
  rw [h.eq]
  exact ⟨Nat.le_add_right _ _, le_rfl, List.prefix_rfl⟩

theorem Queue.Claims.advanced (h : q.Claims capacity buf q') : q.Advanced q' := by
  rw [h.eq]
  exact ⟨Nat.le_add_right _ _, rfl, rfl⟩

theorem Queue.Quiet.contents_eq (h : q.Quiet capacity q') (hq : q.Inv capacity) :
    q'.contents capacity = q.contents capacity := by
  rw [h.inv.contents_eq, hq.contents_eq, h.pushed_eq, h.head_eq]

theorem Queue.Stores.contents_eq (h : q.Stores capacity task q') (hq : q.Inv capacity) :
    q'.contents capacity = q.contents capacity ++ [task] := by
  rw [h.inv.contents_eq, hq.contents_eq, h.pushed_eq, h.head_eq, List.drop_append_of_le_length]
  rw [hq.length_pushed]
  exact hq.head_le

/-- Claiming an empty batch changes nothing. -/
theorem Queue.Claims.eq_self (h : q.Claims capacity [] q') : q' = q := by
  rw [h.eq]
  simp

end Effects

/-- `TryPush`: one more access, or the task is in the queue, or it is refused.
A refusal means that the window is full, or that `head + Capacity` wrapped. -/
theorem TryPush_cases {capacity : ℕ} {task : τ} {q : Queue τ} {pc : PushPc}
    (h : q.Inv capacity) (hv : pc.Valid capacity q task) :
    (∃ q' pc', TryPush capacity task q pc = (q', .goto pc') ∧ q.Quiet capacity q' ∧
        pc'.Valid capacity q' task) ∨
    (∃ q', TryPush capacity task q pc = (q', .ret true) ∧ q.Stores capacity task q') ∨
    (TryPush capacity task q pc = (q, .ret false) ∧
      (q.tail_ = q.head_ + capacity ∨ sizeMod ≤ q.head_ + capacity)) := by
  cases pc with
  | loadTail => exact .inl ⟨_, _, rfl, ⟨h, rfl, rfl, rfl⟩, rfl⟩
  | loadHead tail =>
    obtain rfl : tail = q.tail_ := hv
    have htl := h.tail_le
    simp only [TryPush]
    split
    · rename_i hfull
      refine .inr (.inr ⟨rfl, ?_⟩)
      rcases Nat.lt_or_ge (q.head_ + capacity) sizeMod with hlt | hge
      · rw [Nat.mod_eq_of_lt hlt] at hfull
        exact .inl (by omega)
      · exact .inr hge
    · rename_i hroom
      have hmod := Nat.mod_le (q.head_ + capacity) sizeMod
      have hlt := Nat.mod_lt (q.head_ + capacity) (show 0 < sizeMod by decide)
      exact .inl ⟨_, _, rfl, ⟨h, rfl, rfl, rfl⟩, rfl, by omega, by omega⟩
  | storeSlot tail =>
    obtain ⟨rfl, hfree, hlt⟩ := hv
    exact .inl ⟨_, _, rfl, ⟨h.store task hfree, rfl, rfl, rfl⟩, rfl, hfree, hlt, by simp⟩
  | storeTail tail =>
    obtain ⟨rfl, hfree, hlt, hcell⟩ := hv
    simp only [TryPush, Nat.mod_eq_of_lt hlt]
    exact .inr (.inl ⟨_, rfl, h.publish hfree hlt hcell, rfl, rfl, rfl⟩)

/-- `TryPop`: one more access, or the front task is claimed, or the queue is
empty at this very moment. -/
theorem TryPop_cases {capacity : ℕ} (weak : Bool) {q : Queue τ} {pc : PopPc τ}
    (h : q.Inv capacity) (hv : pc.Valid q) :
    (∃ pc', TryPop capacity weak q pc = (q, .goto pc') ∧ pc'.Valid q) ∨
    (∃ q' task, TryPop capacity weak q pc = (q', .ret (some task)) ∧
        q.Claims capacity [task] q') ∨
    (TryPop capacity weak q pc = (q, .ret none) ∧ q.head_ = q.tail_) := by
  have hle := h.head_le
  cases pc with
  | loadHead => exact .inl ⟨_, rfl, le_refl q.head_⟩
  | loadTail head =>
    have hh : head ≤ q.head_ := hv
    simp only [TryPop]
    split
    · exact .inr (.inr ⟨rfl, by omega⟩)
    · exact .inl ⟨_, rfl, hh, by omega⟩
  | loadSlot head =>
    obtain ⟨hh, ht⟩ := hv
    exact .inl ⟨_, rfl, hh, ht, fun he => h.cell head (by omega) ht⟩
  | cas head task =>
    obtain ⟨hh, ht, hcopy⟩ := hv
    have htl := h.tail_lt
    simp only [TryPop]
    split
    · rename_i hcas
      obtain ⟨rfl, -⟩ := hcas
      have hpref : [task] <+: q.pushed.drop q.head_ := by
        obtain ⟨hlt, hget⟩ := List.getElem?_eq_some_iff.mp (hcopy rfl)
        rw [List.drop_eq_getElem_cons hlt, hget]
        exact ⟨_, rfl⟩
      rw [Nat.mod_eq_of_lt (by omega)]
      exact .inr (.inl ⟨_, _, rfl, h.claim hpref, rfl, h.contents_claim hpref⟩)
    · exact .inl ⟨_, rfl, trivial⟩

/-- `Grab`: one more access, or a prefix of the window is claimed. The claim of
an empty batch is prepared only when the queue is empty or the buffer is. -/
theorem Grab_cases {capacity size : ℕ} (weak : Bool) {q : Queue τ} {pc : GrabPc τ}
    (h : q.Inv capacity) (hv : pc.Valid size q) :
    (∃ pc', Grab capacity size weak q pc = (q, .goto pc') ∧ pc'.Valid size q ∧
        (∀ head i, pc' = .cas head i [] → size = 0 ∨ q.head_ = q.tail_)) ∨
    (∃ q' buf, Grab capacity size weak q pc = (q', .ret buf) ∧ buf.length ≤ size ∧
        q.Claims capacity buf q' ∧ ∃ head i, pc = .cas head i buf) := by
  have hle := h.head_le
  cases pc with
  | loadHead => exact .inl ⟨_, rfl, le_refl q.head_, fun _ _ he => by cases he⟩
  | loadTail head =>
    have hh : head ≤ q.head_ := hv
    refine .inl ⟨_, rfl, ?_, ?_⟩
    · unfold GrabPc.loop
      split
      · rename_i hlt
        exact ⟨hh, rfl, hlt.1, le_rfl, by simpa using hlt.2, fun _ => List.nil_prefix⟩
      · exact ⟨hh, rfl, .inl rfl, Nat.zero_le _, fun _ => List.nil_prefix⟩
    · intro head' i he
      unfold GrabPc.loop at he
      split at he
      · cases he
      · rename_i hstop
        simp only [Nat.sub_self, not_and, Nat.not_lt] at hstop
        rcases Nat.lt_or_ge head q.tail_ with hlt | hge
        · exact .inl (by have := hstop hlt; omega)
        · exact .inr (by omega)
  | loadSlot head tail i buf =>
    obtain ⟨hh, rfl, hit, ht, hsize, hcopy⟩ := hv
    have htl := h.tail_lt
    have hcopy' : q.head_ = head → buf ++ [q.buffer_ (Mod capacity (head + buf.length))] <+:
        q.pushed.drop head := by
      intro he
      have hcell := h.cell (head + buf.length) (by omega) (by omega)
      obtain ⟨l, hl⟩ := hcopy he
      rw [← List.getElem?_drop, ← hl, List.getElem?_append_right le_rfl, Nat.sub_self] at hcell
      cases l with
      | nil => cases hcell
      | cons x l =>
        cases hcell
        exact ⟨l, by rw [← hl]; simp⟩
    refine .inl ⟨_, rfl, ?_, ?_⟩
    · rw [Nat.mod_eq_of_lt (by omega)]
      unfold GrabPc.loop
      split
      · rename_i hlt
        refine ⟨hh, by simp [Nat.add_assoc], hlt.1, ht, ?_, hcopy'⟩
        have := hlt.2
        simp only [List.length_append, List.length_singleton]
        omega
      · exact ⟨hh, by simp [Nat.add_assoc], .inr (by omega), by simp; omega, hcopy'⟩
    · intro head' i he
      unfold GrabPc.loop at he
      split at he
      · cases he
      · simp at he
  | cas head i buf =>
    obtain ⟨hh, rfl, -, hsize, hcopy⟩ := hv
    simp only [Grab]
    split
    · rename_i hcas
      obtain ⟨rfl, -⟩ := hcas
      exact .inr ⟨_, _, rfl, hsize,
        ⟨h.claim (hcopy rfl), rfl, h.contents_claim (hcopy rfl)⟩, _, _, rfl⟩
    · exact .inl ⟨_, rfl, trivial, fun _ _ he => by cases he⟩

end Exe.WorkStealingQueue
