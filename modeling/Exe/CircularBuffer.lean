/-
`fiber::detail::CircularBuffer<T>`: a ring of `capacity + 1` raw cells.

`tail_` is the cell the next element is constructed in and `head_` the cell of
the oldest one; both stay below `capacity_`, and one cell is always free, so
that `head_ = tail_` means empty. A cell is `none` while no element lives in it.

# Where it is undefined

`size_t` is not idealised here. The constructor computes `capacity + 1` and
`capacity_ * sizeof(T)`, and neither is checked: the first wraps to zero for the
largest capacity, and then `% capacity_` divides by zero; the second wraps for
capacities well below that, and then the cells lie outside the allocation. A
step that would do either, fail an assertion or read a raw cell is `none` here.
-/
import Mathlib.Algebra.Order.Ring.Nat
import Mathlib.Logic.Function.Basic
import Mathlib.Tactic.Common

set_option autoImplicit false

namespace Exe.Fiber

/-! ## The object -/

/-- `SIZE_MAX + 1`. -/
abbrev sizeMod : ℕ := 2 ^ 64

/-- The buffer. `allocated` is the number of bytes behind `data_`. -/
structure CircularBuffer (T : Type*) where
  capacity_ : ℕ
  tail_ : ℕ
  head_ : ℕ
  data_ : ℕ → Option T
  allocated : ℕ

namespace CircularBuffer

variable {T : Type*}

/-- The constructor. -/
def new (sizeofT capacity : ℕ) : CircularBuffer T :=
  let capacity_ := (capacity + 1) % sizeMod
  { capacity_, tail_ := 0, head_ := 0, data_ := fun _ => none,
    allocated := capacity_ * sizeofT % sizeMod }

/-- `(val + 1) % capacity_`. -/
def increment (b : CircularBuffer T) (val : ℕ) : Option ℕ :=
  if b.capacity_ = 0 then none else some ((val + 1) % sizeMod % b.capacity_)

def Size (b : CircularBuffer T) : ℕ :=
  if b.tail_ < b.head_ then (b.tail_ + b.capacity_ + (sizeMod - b.head_)) % sizeMod
  else (b.tail_ + (sizeMod - b.head_)) % sizeMod

def Capacity (b : CircularBuffer T) : ℕ := (b.capacity_ + (sizeMod - 1)) % sizeMod

def IsFull (b : CircularBuffer T) : Bool := b.Size == b.Capacity

def IsEmpty (b : CircularBuffer T) : Bool := b.Size == 0

/-- The cell `pos` lies inside the allocation. -/
def InBounds (sizeofT : ℕ) (b : CircularBuffer T) (pos : ℕ) : Prop :=
  (pos + 1) * sizeofT ≤ b.allocated

instance (sizeofT : ℕ) (b : CircularBuffer T) (pos : ℕ) : Decidable (b.InBounds sizeofT pos) :=
  inferInstanceAs (Decidable (_ ≤ _))

def Emplace (sizeofT : ℕ) (b : CircularBuffer T) (value : T) : Option (CircularBuffer T) :=
  if b.IsFull then none
  else
    let pos := b.tail_
    (b.increment b.tail_).bind fun tail =>
      if b.InBounds sizeofT pos then
        some { b with tail_ := tail, data_ := Function.update b.data_ pos (some value) }
      else none

def Pop (sizeofT : ℕ) (b : CircularBuffer T) : Option (T × CircularBuffer T) :=
  if b.IsEmpty then none
  else
    let pos := b.head_
    if b.InBounds sizeofT pos then
      (b.data_ pos).bind fun ret =>
        (b.increment b.head_).map fun head =>
          (ret, { b with head_ := head, data_ := Function.update b.data_ pos none })
    else none

/-- The cells from `head_` to `tail_`, front to back. -/
def contents (b : CircularBuffer T) : List (Option T) :=
  (List.range b.Size).map fun k => b.data_ ((b.head_ + k) % b.capacity_)

/-! ## The list it stands for -/

/-- `b` holds exactly the elements of `l`, front to back, and no other cell is
alive. -/
structure Holds (sizeofT capacity : ℕ) (b : CircularBuffer T) (l : List T) : Prop where
  capacity_eq : b.capacity_ = capacity + 1
  capacity_lt : capacity + 1 < sizeMod
  allocated_eq : b.allocated = b.capacity_ * sizeofT
  head_lt : b.head_ < b.capacity_
  length_le : l.length ≤ capacity
  tail_eq : b.tail_ = (b.head_ + l.length) % b.capacity_
  cell : ∀ k, k < l.length → b.data_ ((b.head_ + k) % b.capacity_) = l[k]?
  raw : ∀ k, l.length ≤ k → k < b.capacity_ → b.data_ ((b.head_ + k) % b.capacity_) = none

section Holds

variable {sizeofT capacity : ℕ} {b : CircularBuffer T} {l : List T}

/-- The sum wraps around at most once. -/
theorem wrap_eq {i n : ℕ} (h : i < 2 * n) : i % n = if i < n then i else i - n := by
  split
  · rename_i hlt
    exact Nat.mod_eq_of_lt hlt
  · rename_i hge
    rw [Nat.mod_eq_sub_mod (by omega), Nat.mod_eq_of_lt (by omega)]

/-- Two offsets below `capacity_` name different cells. -/
theorem cell_inj {h n i j : ℕ} (hh : h < n) (hi : i < n) (hj : j < n)
    (he : (h + i) % n = (h + j) % n) : i = j := by
  rw [wrap_eq (by omega), wrap_eq (by omega)] at he
  split at he <;> split at he <;> omega

theorem Holds.size_eq (h : b.Holds sizeofT capacity l) : b.Size = l.length := by
  have hcap := h.capacity_eq
  have hlt := h.capacity_lt
  have hhead := h.head_lt
  have hlen := h.length_le
  have htail := h.tail_eq
  rw [wrap_eq (by omega)] at htail
  unfold Size
  unfold sizeMod at hlt ⊢
  split at htail <;> split <;> omega

theorem Holds.capacity_fun_eq (h : b.Holds sizeofT capacity l) : b.Capacity = capacity := by
  have hcap := h.capacity_eq
  have hlt := h.capacity_lt
  unfold Capacity
  unfold sizeMod at hlt ⊢
  omega

theorem Holds.isFull_iff (h : b.Holds sizeofT capacity l) :
    b.IsFull = true ↔ l.length = capacity := by
  rw [IsFull, h.size_eq, h.capacity_fun_eq, beq_iff_eq]

theorem Holds.isEmpty_iff (h : b.Holds sizeofT capacity l) : b.IsEmpty = true ↔ l = [] := by
  rw [IsEmpty, h.size_eq, beq_iff_eq, List.length_eq_zero_iff]

theorem Holds.contents_eq (h : b.Holds sizeofT capacity l) : b.contents = l.map some := by
  apply List.ext_getElem?
  intro k
  rw [contents, h.size_eq, List.getElem?_map, List.getElem?_map]
  by_cases hk : k < l.length
  · rw [List.getElem?_range hk, Option.map_some, h.cell k hk, List.getElem?_eq_getElem hk]
    rfl
  · rw [List.getElem?_eq_none (by simpa using hk), List.getElem?_eq_none (by omega)]
    rfl

/-- Every cell lies inside the allocation. -/
theorem Holds.inBounds (h : b.Holds sizeofT capacity l) {pos : ℕ} (hpos : pos < b.capacity_) :
    b.InBounds sizeofT pos := by
  unfold InBounds
  rw [h.allocated_eq]
  exact Nat.mul_le_mul_right _ hpos

theorem Holds.increment_eq (h : b.Holds sizeofT capacity l) {val : ℕ} (hval : val < b.capacity_) :
    b.increment val = some ((val + 1) % b.capacity_) := by
  have hcap := h.capacity_eq
  have hlt := h.capacity_lt
  rw [increment, if_neg (by omega), Nat.mod_eq_of_lt (a := val + 1) (by omega)]

theorem Holds.tail_lt (h : b.Holds sizeofT capacity l) : b.tail_ < b.capacity_ := by
  rw [h.tail_eq]
  exact Nat.mod_lt _ (by rw [h.capacity_eq]; omega)

/-- The constructor, when the cells fit into `size_t` bytes. -/
theorem Holds.new (hT : 0 < sizeofT) (hfit : (capacity + 1) * sizeofT < sizeMod) :
    (CircularBuffer.new sizeofT capacity : CircularBuffer T).Holds sizeofT capacity [] := by
  have hlt : capacity + 1 < sizeMod := Nat.lt_of_le_of_lt (Nat.le_mul_of_pos_right _ hT) hfit
  have hcap : (capacity + 1) % sizeMod = capacity + 1 := Nat.mod_eq_of_lt hlt
  refine ⟨hcap, hlt, ?_, ?_, Nat.zero_le _, ?_, fun k hk => ?_, fun k _ _ => rfl⟩
  · change (capacity + 1) % sizeMod * sizeofT % sizeMod = (capacity + 1) % sizeMod * sizeofT
    rw [hcap, Nat.mod_eq_of_lt hfit]
  · change 0 < (capacity + 1) % sizeMod
    omega
  · change 0 = (0 + 0) % _
    rw [Nat.zero_mod]
  · exact absurd hk (Nat.not_lt_zero k)

theorem Holds.tail_raw (h : b.Holds sizeofT capacity l) (hlen : l.length < capacity) :
    b.data_ b.tail_ = none := by
  have hcap := h.capacity_eq
  rw [h.tail_eq]
  exact h.raw l.length (Nat.le_refl _) (by omega)

theorem Holds.emplace_eq (h : b.Holds sizeofT capacity l) (hlen : l.length < capacity)
    (value : T) : b.Emplace sizeofT value = some { b with
      tail_ := (b.tail_ + 1) % b.capacity_
      data_ := Function.update b.data_ b.tail_ (some value) } := by
  have hfull : b.IsFull ≠ true := by
    rw [Ne, h.isFull_iff]
    omega
  rw [Emplace, if_neg hfull, h.increment_eq h.tail_lt, Option.bind_some,
    if_pos (h.inBounds h.tail_lt)]

/-- With an element in the free cell at `tail_`, and `tail_` moved on, the buffer holds one
more. -/
theorem Holds.snoc (h : b.Holds sizeofT capacity l) (hlen : l.length < capacity) (value : T) :
    ({ b with
      tail_ := (b.tail_ + 1) % b.capacity_
      data_ := Function.update b.data_ b.tail_ (some value) } : CircularBuffer T).Holds
        sizeofT capacity (l ++ [value]) := by
  have hcap := h.capacity_eq
  have hhead := h.head_lt
  refine ⟨hcap, h.capacity_lt, h.allocated_eq, hhead, ?_, ?_, fun k hk => ?_, fun k hk hk' => ?_⟩
  · rw [List.length_append, List.length_singleton]
    omega
  · dsimp only
    rw [h.tail_eq, Nat.mod_add_mod, List.length_append, List.length_singleton, Nat.add_assoc]
  · rw [List.length_append, List.length_singleton] at hk
    dsimp only
    by_cases hlast : k = l.length
    · -- the new element
      rw [hlast, ← h.tail_eq, Function.update_self, List.getElem?_append_right (Nat.le_refl _)]
      simp
    · have hne : (b.head_ + k) % b.capacity_ ≠ b.tail_ := by
        rw [h.tail_eq]
        intro he
        exact hlast (cell_inj hhead (by omega) (by omega) he)
      rw [Function.update_of_ne hne, h.cell k (by omega), List.getElem?_append_left (by omega)]
  · rw [List.length_append, List.length_singleton] at hk
    dsimp only at hk' ⊢
    have hne : (b.head_ + k) % b.capacity_ ≠ b.tail_ := by
      rw [h.tail_eq]
      intro he
      have := cell_inj hhead hk' (by omega) he
      omega
    rw [Function.update_of_ne hne]
    exact h.raw k (by omega) hk'

/-- `Emplace` on a buffer that is not full constructs in a raw cell and appends. -/
theorem Holds.emplace (h : b.Holds sizeofT capacity l) (hlen : l.length < capacity) (value : T) :
    b.data_ b.tail_ = none ∧
      ∃ b', b.Emplace sizeofT value = some b' ∧ b'.Holds sizeofT capacity (l ++ [value]) :=
  ⟨h.tail_raw hlen, _, h.emplace_eq hlen value, h.snoc hlen value⟩

theorem Holds.front {value : T} (h : b.Holds sizeofT capacity (value :: l)) :
    b.data_ b.head_ = some value := by
  have hcell := h.cell 0 (by simp)
  rwa [Nat.add_zero, Nat.mod_eq_of_lt h.head_lt, List.getElem?_cons_zero] at hcell

/-- With its front cell freed and `head_` moved on, the buffer holds the rest. -/
theorem Holds.tail {value : T} (h : b.Holds sizeofT capacity (value :: l)) :
    ({ b with
      head_ := (b.head_ + 1) % b.capacity_
      data_ := Function.update b.data_ b.head_ none } : CircularBuffer T).Holds
        sizeofT capacity l := by
  have hcap := h.capacity_eq
  have hhead := h.head_lt
  have hlen := h.length_le
  rw [List.length_cons] at hlen
  -- the new head sees every other cell one place nearer
  have hshift : ∀ k, ((b.head_ + 1) % b.capacity_ + k) % b.capacity_ =
      (b.head_ + (k + 1)) % b.capacity_ := by
    intro k
    rw [Nat.mod_add_mod]
    congr 1
    omega
  have hne : ∀ k, k + 1 < b.capacity_ → (b.head_ + (k + 1)) % b.capacity_ ≠ b.head_ := by
    intro k hk he
    have := cell_inj hhead hk (by omega : 0 < b.capacity_) (by
      rw [he, Nat.add_zero, Nat.mod_eq_of_lt hhead])
    omega
  refine ⟨hcap, h.capacity_lt, h.allocated_eq, Nat.mod_lt _ (by omega), by omega, ?_,
    fun k hk => ?_, fun k hk hk' => ?_⟩
  · dsimp only
    rw [hshift, h.tail_eq, List.length_cons]
  · dsimp only
    rw [hshift, Function.update_of_ne (hne k (by omega)), h.cell (k + 1) (by simpa using hk),
      List.getElem?_cons_succ]
  · dsimp only at hk' ⊢
    rw [hshift]
    by_cases hlast : k + 1 = b.capacity_
    · -- the cell that was freed
      rw [hlast, Nat.add_mod_right, Nat.mod_eq_of_lt hhead, Function.update_self]
    · rw [Function.update_of_ne (hne k (by omega))]
      exact h.raw (k + 1) (by simpa using hk) (by omega)

theorem Holds.pop_eq {value : T} (h : b.Holds sizeofT capacity (value :: l)) :
    b.Pop sizeofT = some (value, { b with
      head_ := (b.head_ + 1) % b.capacity_
      data_ := Function.update b.data_ b.head_ none }) := by
  have hempty : b.IsEmpty ≠ true := by
    rw [Ne, h.isEmpty_iff]
    exact List.cons_ne_nil _ _
  rw [Pop, if_neg hempty, if_pos (h.inBounds h.head_lt), h.front, Option.bind_some,
    h.increment_eq h.head_lt, Option.map_some]

/-- `Pop` on a buffer that is not empty destroys a live cell and takes the front. -/
theorem Holds.pop {value : T} (h : b.Holds sizeofT capacity (value :: l)) :
    b.data_ b.head_ = some value ∧
      ∃ b', b.Pop sizeofT = some (value, b') ∧ b'.Holds sizeofT capacity l :=
  ⟨h.front, _, h.pop_eq, h.tail⟩

end Holds

end CircularBuffer

end Exe.Fiber
