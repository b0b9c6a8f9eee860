/-
The elements of a `CircularBuffer<T>`: who constructs them, and who destroys them.

The buffer is a bounded queue (`boundedQueue`), of which the ring is an implementation: every
run of `Emplace`s, `Pop`s and the destructor is a run of the queue. `Emplace` constructs in
the cell at `tail_`, `Pop` destroys the one at `head_`, and the destructor walks from `head_`
to `tail_` around the ring and destroys what is left. As the elements leave in the order they
came in, the history of the destructions is that of the constructions, cell by cell.

# Conventions

* `Emplace` is called only when the buffer is not full and `Pop` only when it is not empty,
  as their assertions say, and nothing is called after the destructor.
* `fault` is set by what must not happen: constructing over a live element, destroying or
  reading a raw cell, a cell outside the allocation, a division by zero.
* `constructed` and `destroyed` are history, the oldest event first: the cell and the element.
* `sizeofT` is at least one, as in the language.
-/
import Exe.Machine
import Exe.CircularBuffer

set_option autoImplicit false

namespace Exe.Fiber.CircularBuffer

open Function (update)

variable {T : Type*}

/-! ## The destructor -/

/-- The loop of the destructor from cell `i`, at most `bound` times around: the elements it
destroys, each with its cell, and the buffer it leaves behind. -/
def destroyWithin (sizeofT : ℕ) : ℕ → ℕ → CircularBuffer T →
    Option (List (ℕ × T) × CircularBuffer T)
  | 0, i, b => if i = b.tail_ then some ([], b) else none
  | bound + 1, i, b =>
    if i = b.tail_ then some ([], b)
    else if b.InBounds sizeofT i then
      (b.data_ i).bind fun value =>
        -- `i = PreIncrement(i)`
        (b.increment i).bind fun next =>
          (destroyWithin sizeofT bound next { b with data_ := update b.data_ i none }).map
            fun x => ((i, value) :: x.1, x.2)
    else none

/-- `~CircularBuffer`. -/
def destructor (sizeofT : ℕ) (b : CircularBuffer T) : Option (List (ℕ × T) × CircularBuffer T) :=
  destroyWithin sizeofT b.capacity_ b.head_ b

/-- The cells of a list that starts at cell `i` of the ring. -/
def cells (capacity_ : ℕ) : ℕ → List T → List (ℕ × T)
  | _, [] => []
  | i, value :: l => (i, value) :: cells capacity_ ((i + 1) % capacity_) l

theorem cells_append {capacity_ i : ℕ} (hi : i < capacity_) (l : List T) (value : T) :
    cells capacity_ i (l ++ [value]) =
      cells capacity_ i l ++ [((i + l.length) % capacity_, value)] := by
  induction l generalizing i with
  | nil =>
    simp only [List.nil_append, cells, List.length_nil, Nat.add_zero]
    rw [Nat.mod_eq_of_lt hi]
  | cons v l ih =>
    have hnext : (i + 1) % capacity_ < capacity_ := Nat.mod_lt _ (by omega)
    simp only [List.cons_append, cells, List.length_cons]
    rw [ih hnext, Nat.mod_add_mod]
    congr 5
    omega

section Holds

variable {sizeofT capacity : ℕ} {b : CircularBuffer T} {l : List T}

theorem Holds.head_eq_tail_iff (h : b.Holds sizeofT capacity l) : b.head_ = b.tail_ ↔ l = [] := by
  have hcap := h.capacity_eq
  have hhead := h.head_lt
  have hlen := h.length_le
  have htail := h.tail_eq
  rw [← List.length_eq_zero_iff]
  constructor
  · intro he
    refine cell_inj hhead (by omega) (by omega : 0 < b.capacity_) ?_
    rw [← htail, ← he, Nat.add_zero, Nat.mod_eq_of_lt hhead]
  · intro hl
    rw [htail, hl, Nat.add_zero, Nat.mod_eq_of_lt hhead]

/-- The loop destroys what the ring holds from its cell on, and nothing is alive after it.
It does not move `head_`: the list is that of the buffer whose head were `i`. -/
theorem destroyWithin_spec {bound i : ℕ}
    (h : ({ b with head_ := i } : CircularBuffer T).Holds sizeofT capacity l)
    (hbound : l.length ≤ bound) :
    ∃ b', destroyWithin sizeofT bound i b = some (cells b.capacity_ i l, b') ∧
      ∀ pos < b.capacity_, b'.data_ pos = none := by
  induction l generalizing bound i b with
  | nil =>
    have hend : i = b.tail_ := h.head_eq_tail_iff.mpr rfl
    refine ⟨b, ?_, ?_⟩
    · cases bound with
      | zero => rw [destroyWithin, if_pos hend, cells]
      | succ bound => rw [destroyWithin, if_pos hend, cells]
    · intro pos hpos
      have hi : i < b.capacity_ := h.head_lt
      -- every cell is some steps ahead of `i`
      have hraw := h.raw ((pos + (b.capacity_ - i)) % b.capacity_) (Nat.zero_le _)
        (Nat.mod_lt _ (by omega))
      have hcell : (i + (pos + (b.capacity_ - i)) % b.capacity_) % b.capacity_ = pos := by
        rw [Nat.add_mod_mod, show i + (pos + (b.capacity_ - i)) = pos + b.capacity_ by omega,
          Nat.add_mod_right, Nat.mod_eq_of_lt hpos]
      dsimp only at hraw
      rwa [hcell] at hraw
  | cons value l ih =>
    rw [List.length_cons] at hbound
    obtain ⟨bound, rfl⟩ : ∃ k, bound = k + 1 := ⟨bound - 1, by omega⟩
    have hne : i ≠ b.tail_ := by
      intro he
      exact absurd (h.head_eq_tail_iff.mp he) (List.cons_ne_nil _ _)
    have hin : b.InBounds sizeofT i := h.inBounds h.head_lt
    have hfront : b.data_ i = some value := h.front
    have hnext : b.increment i = some ((i + 1) % b.capacity_) := h.increment_eq h.head_lt
    have hlen : l.length ≤ bound := by omega
    obtain ⟨b', hrest, hraw⟩ := ih (b := { b with data_ := update b.data_ i none }) h.tail hlen
    refine ⟨b', ?_, hraw⟩
    rw [destroyWithin, if_neg hne, if_pos hin, hfront, Option.bind_some, hnext, Option.bind_some,
      hrest]
    rfl

theorem Holds.destructor (h : b.Holds sizeofT capacity l) :
    ∃ b', b.destructor sizeofT = some (cells b.capacity_ b.head_ l, b') ∧
      ∀ pos < b.capacity_, b'.data_ pos = none := by
  have hcap := h.capacity_eq
  have hlen := h.length_le
  exact destroyWithin_spec h (by omega)

end Holds

/-! ## The bounded queue -/

inductive Op (T : Type*)
  | emplace (value : T)
  | pop
  | destroy

/-- A queue of at most `capacity` elements, with what it has given back. -/
structure BoundedQueue (T : Type*) where
  contents : List T
  returned : List T
  alive : Bool

/-- What the buffer is for. -/
def boundedQueue (T : Type*) (capacity : ℕ) : Machine (BoundedQueue T) (Op T) where
  init q := q = ⟨[], [], true⟩
  step a q :=
    if q.alive then
      match a, q.contents with
      | .emplace value, contents =>
        if contents.length < capacity then some { q with contents := contents ++ [value] }
        else none
      | .pop, [] => none
      | .pop, value :: rest =>
        some { q with contents := rest, returned := q.returned ++ [value] }
      | .destroy, _ => some { q with contents := [], alive := false }
    else none

/-! ## The life of a buffer -/

/-- A buffer and what has become of its elements. -/
structure Life (T : Type*) where
  buffer : CircularBuffer T
  alive : Bool
  fault : Bool
  constructed : List (ℕ × T)
  destroyed : List (ℕ × T)
  returned : List T

def Life.new (T : Type*) (sizeofT capacity : ℕ) : Life T where
  buffer := .new sizeofT capacity
  alive := true
  fault := false
  constructed := []
  destroyed := []
  returned := []

/-- `Emplace`, if the buffer is not full. -/
def Life.emplace (sizeofT : ℕ) (value : T) (s : Life T) : Option (Life T) :=
  if s.buffer.IsFull then none
  else if (s.buffer.data_ s.buffer.tail_).isSome then some { s with fault := true }
  else
    match s.buffer.Emplace sizeofT value with
    | none => some { s with fault := true }
    | some buffer =>
      some { s with
        buffer
        constructed := s.constructed ++ [(s.buffer.tail_, value)] }

/-- `Pop`, if the buffer is not empty. -/
def Life.pop (sizeofT : ℕ) (s : Life T) : Option (Life T) :=
  if s.buffer.IsEmpty then none
  else
    match s.buffer.Pop sizeofT with
    | none => some { s with fault := true }
    | some (ret, buffer) =>
      some { s with
        buffer
        destroyed := s.destroyed ++ [(s.buffer.head_, ret)]
        returned := s.returned ++ [ret] }

def Life.destroy (sizeofT : ℕ) (s : Life T) : Option (Life T) :=
  match s.buffer.destructor sizeofT with
  | none => some { s with fault := true }
  | some (dead, buffer) =>
    some { s with buffer, alive := false, destroyed := s.destroyed ++ dead }

def Life.step (sizeofT : ℕ) (a : Op T) (s : Life T) : Option (Life T) :=
  if s.alive then
    match a with
    | .emplace value => s.emplace sizeofT value
    | .pop => s.pop sizeofT
    | .destroy => s.destroy sizeofT
  else none

/-- A buffer from its constructor on. -/
def life (T : Type*) (sizeofT capacity : ℕ) : Machine (Life T) (Op T) where
  init s := s = .new T sizeofT capacity
  step := Life.step sizeofT

/-! ## The ring implements the queue -/

variable {sizeofT capacity : ℕ}

/-- The ring holds what is in the queue, and what was constructed and not destroyed is that,
each in its cell. -/
structure Simulates (sizeofT capacity : ℕ) (s : Life T) (q : BoundedQueue T) : Prop where
  safe : s.fault = false
  alive : s.alive = q.alive
  returned : s.returned = q.returned
  holds : s.alive = true → s.buffer.Holds sizeofT capacity q.contents
  balance : s.alive = true → s.constructed =
    s.destroyed ++ cells s.buffer.capacity_ s.buffer.head_ q.contents
  gone : s.alive = false → s.destroyed = s.constructed

theorem Simulates.emplace {s s' : Life T} {q : BoundedQueue T} {value : T}
    (h : Simulates sizeofT capacity s q) (halive : s.alive = true)
    (hst : s.emplace sizeofT value = some s') :
    q.contents.length < capacity ∧
      Simulates sizeofT capacity s' { q with contents := q.contents ++ [value] } := by
  have hb := h.holds halive
  have hroom : q.contents.length < capacity := by
    refine Nat.lt_of_le_of_ne hb.length_le ?_
    intro hfull
    rw [Life.emplace, if_pos (hb.isFull_iff.mpr hfull)] at hst
    cases hst
  have hfull : s.buffer.IsFull ≠ true := by
    rw [Ne, hb.isFull_iff]
    omega
  rw [Life.emplace, if_neg hfull, hb.tail_raw hroom, Option.isSome_none,
    if_neg Bool.false_ne_true, hb.emplace_eq hroom] at hst
  cases hst
  refine ⟨hroom, h.safe, h.alive, h.returned, fun _ => hb.snoc hroom value, fun _ => ?_,
    fun hdead => ?_⟩
  · dsimp only
    rw [cells_append hb.head_lt, ← hb.tail_eq, h.balance halive, List.append_assoc]
  · exact absurd (halive.symm.trans hdead) (by decide)

theorem Simulates.pop {s s' : Life T} {q : BoundedQueue T}
    (h : Simulates sizeofT capacity s q) (halive : s.alive = true)
    (hst : s.pop sizeofT = some s') :
    ∃ value rest, q.contents = value :: rest ∧ Simulates sizeofT capacity s'
      { q with contents := rest, returned := q.returned ++ [value] } := by
  have hb := h.holds halive
  cases hcontents : q.contents with
  | nil =>
    rw [Life.pop, if_pos (hb.isEmpty_iff.mpr hcontents)] at hst
    cases hst
  | cons value rest =>
    have hbalance := h.balance halive
    rw [hcontents] at hb hbalance
    have hempty : s.buffer.IsEmpty ≠ true := by
      rw [Ne, hb.isEmpty_iff]
      exact List.cons_ne_nil _ _
    rw [Life.pop, if_neg hempty, hb.pop_eq] at hst
    cases hst
    refine ⟨value, rest, rfl, h.safe, h.alive, ?_, fun _ => hb.tail, fun _ => ?_, fun hdead => ?_⟩
    · dsimp only
      rw [h.returned]
    · dsimp only
      rw [hbalance, cells, List.append_assoc]
      rfl
    · exact absurd (halive.symm.trans hdead) (by decide)

theorem Simulates.destroy {s s' : Life T} {q : BoundedQueue T}
    (h : Simulates sizeofT capacity s q) (halive : s.alive = true)
    (hst : s.destroy sizeofT = some s') :
    Simulates sizeofT capacity s' { q with contents := [], alive := false } := by
  obtain ⟨b', hdestroy, -⟩ := (h.holds halive).destructor
  rw [Life.destroy, hdestroy] at hst
  cases hst
  refine ⟨h.safe, rfl, h.returned, fun hdead => ?_, fun hdead => ?_, fun _ => ?_⟩
  · cases hdead
  · cases hdead
  · exact (h.balance halive).symm

/-- The step rule: what the buffer does, the queue does. -/
theorem Simulates.step {s s' : Life T} {q : BoundedQueue T} {a : Op T}
    (h : Simulates sizeofT capacity s q) (hst : (life T sizeofT capacity).step a s = some s') :
    ∃ q', (boundedQueue T capacity).step a q = some q' ∧ Simulates sizeofT capacity s' q' := by
  simp only [life, Life.step] at hst
  by_cases halive : s.alive = true
  · have hopen : q.alive = true := by rw [← h.alive, halive]
    rw [if_pos halive] at hst
    simp only [boundedQueue]
    rw [if_pos hopen]
    cases a with
    | emplace value =>
      obtain ⟨hroom, h'⟩ := h.emplace halive hst
      refine ⟨_, ?_, h'⟩
      dsimp only
      rw [if_pos hroom]
    | pop =>
      obtain ⟨value, rest, hcontents, h'⟩ := h.pop halive hst
      refine ⟨_, ?_, h'⟩
      rw [hcontents]
    | destroy => exact ⟨_, rfl, h.destroy halive hst⟩
  · rw [if_neg halive] at hst
    cases hst

theorem Simulates.new (hT : 0 < sizeofT) (hfit : (capacity + 1) * sizeofT < sizeMod) :
    Simulates sizeofT capacity (.new T sizeofT capacity) ⟨[], [], true⟩ := by
  refine ⟨rfl, rfl, rfl, fun _ => .new hT hfit, fun _ => rfl, fun hdead => ?_⟩
  cases hdead

/-- What the buffer says of itself is what it would say if it were the list. -/
structure Agrees (capacity : ℕ) (b : CircularBuffer T) (l : List T) : Prop where
  size : b.Size = l.length
  full : b.IsFull = true ↔ l.length = capacity
  empty : b.IsEmpty = true ↔ l = []
  contents : b.contents = l.map some

theorem Holds.agrees {b : CircularBuffer T} {l : List T} (h : b.Holds sizeofT capacity l) :
    Agrees capacity b l :=
  ⟨h.size_eq, h.isFull_iff, h.isEmpty_iff, h.contents_eq⟩

/-- **The ring is a bounded queue.** Every sequence of operations the buffer accepts is one of
the queue, which gives back the same elements; meanwhile the buffer agrees with the queue,
and nothing happens to a cell that must not. After the destructor the elements have been
destroyed as they were constructed: each once, and in its cell. -/
theorem refines_bounded_fifo (hT : 0 < sizeofT) (hfit : (capacity + 1) * sizeofT < sizeMod)
    {h : List (Transition (Life T) (Op T))} {s : Life T}
    (hr : (life T sizeofT capacity).Run h s) :
    s.fault = false ∧
    (∃ h' q, (boundedQueue T capacity).Run h' q ∧
      h'.map Transition.act = h.map Transition.act ∧ s.returned = q.returned ∧
      (s.alive = true → Agrees capacity s.buffer q.contents)) ∧
    (s.alive = false → s.destroyed = s.constructed) := by
  obtain ⟨h', q, hrun, hacts, hsim⟩ := hr.simulate (N := boundedQueue T capacity)
    (R := Simulates sizeofT capacity)
    (fun s hinit => ⟨⟨[], [], true⟩, rfl, by rw [hinit]; exact .new hT hfit⟩)
    fun a s s' q hR hst => hR.step hst
  refine ⟨hsim.safe, ⟨h', q, hrun, hacts, hsim.returned, ?_⟩, hsim.gone⟩
  intro halive
  exact (hsim.holds halive).agrees

/-- Two cells, of which one is spare: the third element comes around the ring, and the
destructor finds it there. -/
theorem refines_bounded_fifo_around : ∃ (h : List (Transition (Life ℕ) (Op ℕ))) (s : Life ℕ),
    (life ℕ 8 1).Run h s ∧ s.constructed = [(0, 5), (1, 6), (0, 7)] ∧ s.returned = [5, 6] ∧
    s.fault = false ∧ s.destroyed = s.constructed := by
  obtain ⟨h, s, hr, hp⟩ := Machine.Run.exec_any (M := life ℕ 8 1) (s := .new ℕ 8 1) (.init rfl)
    [.emplace 5, .pop, .emplace 6, .pop, .emplace 7, .destroy]
    (fun s => decide (s.constructed = [(0, 5), (1, 6), (0, 7)] ∧ s.returned = [5, 6] ∧
      s.alive = false)) (by decide)
  obtain ⟨hcons, hret, hgone⟩ := of_decide_eq_true hp
  have hmain := refines_bounded_fifo (by decide) (by decide) hr
  exact ⟨h, s, hr, hcons, hret, hmain.1, hmain.2.2 hgone⟩

/-- `capacity + 1` cells of eight bytes are `2 ^ 64` bytes, so that none is allocated, and the
first `Emplace` writes outside. -/
theorem emplace_outside_allocation : 2 ^ 61 - 1 + 1 < sizeMod ∧
    ∃ s : Life ℕ, (life ℕ 8 (2 ^ 61 - 1)).Reachable s ∧ s.fault = true := by
  refine ⟨by decide, ?_⟩
  exact Machine.Reachable.exec_any (M := life ℕ 8 (2 ^ 61 - 1)) (s := .new ℕ 8 (2 ^ 61 - 1))
    (.init rfl) [.emplace 5] Life.fault (by decide)

end Exe.Fiber.CircularBuffer
