/-
When a call takes effect at one of its steps.

A run is looked at through `obs`: the part of the state the calls operate on. An
operation is a function from what is there to what is there afterwards and the
answer. A call that has made the steps `l` of the run, mixed with the steps of
others, **takes effect** if one of its own steps is the operation, with the answer
the call returns, and no other of its steps changes what is observed. Where every
call does, the order of these steps is a sequential history with the same
answers, and each call's place in it is inside the call.

Nothing here is about this repository.
-/
import Exe.Machine

set_option autoImplicit false

namespace Exe.Machine

variable {σ α P R : Type*} (obs : σ → P) (mine : α → Prop)

/-- The caller's steps among `l` do not change what is observed. -/
def Silent (l : List (Transition σ α)) : Prop :=
  ∀ w ∈ l, mine w.act → obs w.post = obs w.pre

/-- One of the caller's steps among `l` is the operation `op` with the answer `r`,
and its other steps are silent. -/
def TakesEffect (op : P → P × R) (r : R) (l : List (Transition σ α)) : Prop :=
  ∃ l₁ v l₂, l = l₁ ++ v :: l₂ ∧ mine v.act ∧ op (obs v.pre) = (obs v.post, r) ∧
    Silent obs mine (l₁ ++ l₂)

variable {obs mine} {u : Transition σ α} {l : List (Transition σ α)}

theorem Silent.nil : Silent obs mine [] := fun _ hw => by cases hw

theorem Silent.cons (hu : mine u.act → obs u.post = obs u.pre) (hl : Silent obs mine l) :
    Silent obs mine (u :: l) := by
  intro w hw
  rcases List.mem_cons.mp hw with rfl | hw
  · exact hu
  · exact hl w hw

/-- A call that has taken effect goes on silently. -/
theorem TakesEffect.cons {op : P → P × R} {r : R} (hu : mine u.act → obs u.post = obs u.pre)
    (hl : TakesEffect obs mine op r l) : TakesEffect obs mine op r (u :: l) := by
  obtain ⟨l₁, v, l₂, rfl, hv, hop, hsilent⟩ := hl
  exact ⟨u :: l₁, v, l₂, rfl, hv, hop, hsilent.cons hu⟩

/-- The newest step is the operation. -/
theorem TakesEffect.head {op : P → P × R} {r : R} (hu : mine u.act)
    (hop : op (obs u.pre) = (obs u.post, r)) (hl : Silent obs mine l) :
    TakesEffect obs mine op r (u :: l) :=
  ⟨[], u, l, rfl, hu, hop, hl⟩

/-- An operation that changes nothing may be found among the steps afterwards. -/
theorem TakesEffect.of_mem {op : P → P × R} {r : R} {v : Transition σ α} (hv : v ∈ l)
    (hmine : mine v.act) (hop : op (obs v.pre) = (obs v.pre, r)) (hl : Silent obs mine l) :
    TakesEffect obs mine op r l := by
  obtain ⟨l₁, l₂, rfl⟩ := List.append_of_mem hv
  refine ⟨l₁, v, l₂, rfl, hmine, ?_, fun w hw => ?_⟩
  · rw [hop, hl v hv hmine]
  · rcases List.mem_append.mp hw with hw | hw
    · exact hl w (List.mem_append_left _ hw)
    · exact hl w (List.mem_append_right _ (List.mem_cons_of_mem _ hw))

end Exe.Machine
