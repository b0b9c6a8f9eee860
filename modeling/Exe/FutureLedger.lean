/-
Who holds what in the machine of futures.

Every instruction, every callback stored in a contract state and every shared
promise holds **resources** (`Res`): the promise of a contract, the number of the
expression the program consumes, a side of a concurrent combinator, or the part of
`Produce`, `Consume` or the rendezvous of a contract state that is under way. The
`Ledger` says of each of them that it is in one place, or has been spent: a promise by
`Set`, a side by its arrival, the root by its callback. From this it follows that a
callback is called once, that a promise is set once, and that whoever acts on a
contract state comes before its deletion.

The ledger is kept by every step. What a shared promise is set with, and whether it is
set once, is not in it: that depends on the combinator (`FutureNodes`).
-/
import Exe.Future
import Mathlib.Algebra.BigOperators.Group.Finset.Basic
import Mathlib.Algebra.BigOperators.Intervals
import Mathlib.Data.Multiset.Count
import Mathlib.Tactic.Abel

set_option autoImplicit false

namespace Exe.Future

open Function (update)
open Finset (range)

universe u v

variable {V : Type u} {ρ : Type v}

/-! ## Resources -/

inductive Res
  | promise (cs : ℕ)
  | root (r : ℕ)
  | side (n : ℕ) (s : Side)
  | arriving (n : ℕ) (s : Side)
  | consume (cs : ℕ)
  | produced (cs : ℕ)
  | consumed (cs : ℕ)
  | rendezvous (cs : ℕ)
  | delete (cs : ℕ)
  | setting (n : ℕ)
  deriving DecidableEq

/-- What a callback carries. -/
def Callback.res : Callback V ρ → Res
  | .root r => .root r
  | .pipe _ _ promise => .promise promise
  | .forward promise => .promise promise
  | .concur n s => .side n s

/-- Whom the value of an expression is for. -/
def Cont.res : Cont V ρ → Res
  | .set promise => .promise promise
  | .setOk promise => .promise promise
  | .consume cb => cb.res
  | .ready k => k.res
  | .pipe _ k => k.res
  | .concurFst _ _ k => k.res
  | .concurSnd _ _ k => k.res

def Instr.res : Instr V ρ → Multiset Res
  | .eval _ k => {k.res}
  | .ret _ k => {k.res}
  | .task _ _ k => {k.res}
  | .leaf promise => {.promise promise}
  | .produce cs _ => {.promise cs}
  | .produced cs => {.produced cs}
  | .consume cs cb => {.consume cs} + {cb.res}
  | .consumed cs => {.consumed cs}
  | .rendezvous cs => {.rendezvous cs}
  | .delete cs => {.delete cs}
  | .call n s _ => {.side n s}
  | .store n s _ => {.side n s}
  | .arrive n s _ => {.arriving n s}
  | .setTuple n => {.setting n}
  | .setNode n _ => {.setting n}
  | .fail _ => 0

def resources (l : List (Instr V ρ)) : Multiset Res := (l.map Instr.res).sum

@[simp] theorem resources_nil : resources ([] : List (Instr V ρ)) = 0 := rfl

@[simp] theorem resources_cons (i : Instr V ρ) (l : List (Instr V ρ)) :
    resources (i :: l) = i.res + resources l := by
  simp [resources]

@[simp] theorem resources_append (l l' : List (Instr V ρ)) :
    resources (l ++ l') = resources l + resources l' := by
  simp [resources]

/-- What is carried from place to place. A side that is arriving is carried still; the other
resources are parts of a call under way. -/
def Res.carrier : Res → Option Res
  | .promise cs => some (.promise cs)
  | .root r => some (.root r)
  | .side n s => some (.side n s)
  | .arriving n s => some (.side n s)
  | _ => none

/-- The contract state in whose call a resource is a part. -/
def Res.state : Res → Option ℕ
  | .consume cs => some cs
  | .produced cs => some cs
  | .consumed cs => some cs
  | .rendezvous cs => some cs
  | .delete cs => some cs
  | _ => none

theorem Callback.carrier_res (cb : Callback V ρ) : cb.res.carrier = some cb.res := by
  cases cb <;> rfl

theorem Callback.state_res (cb : Callback V ρ) : cb.res.state = none := by
  cases cb <;> rfl

def carried (m : Multiset Res) : Multiset Res := m.filterMap Res.carrier

@[simp] theorem carried_zero : carried 0 = 0 := rfl

@[simp] theorem carried_add (m m' : Multiset Res) : carried (m + m') = carried m + carried m' :=
  Multiset.filterMap_add Res.carrier m m'

@[simp] theorem carried_singleton (r : Res) :
    carried {r} = match r.carrier with
      | some r' => {r'}
      | none => 0 := by
  rw [carried, ← Multiset.cons_zero]
  cases hr : r.carrier with
  | none => rw [Multiset.filterMap_cons_none _ _ hr, Multiset.filterMap_zero]
  | some r' =>
    rw [Multiset.filterMap_cons_some _ _ _ hr, Multiset.filterMap_zero, Multiset.cons_zero]

theorem carried_cons (r : Res) (m : Multiset Res) :
    carried (r ::ₘ m) = carried {r} + carried m := by
  rw [← Multiset.singleton_add, carried_add]

theorem count_carried_promise (m : Multiset Res) (cs : ℕ) :
    (carried m).count (.promise cs) = m.count (.promise cs) := by
  induction m using Multiset.induction_on with
  | empty => rfl
  | cons x m ih =>
    rw [carried_cons, Multiset.count_add, ih, Multiset.count_cons]
    cases x <;> simp [Res.carrier, Multiset.count_singleton, add_comm]

theorem count_carried_side (m : Multiset Res) (n : ℕ) (s : Side) :
    (carried m).count (.side n s) = m.count (.side n s) + m.count (.arriving n s) := by
  induction m using Multiset.induction_on with
  | empty => rfl
  | cons x m ih =>
    rw [carried_cons, Multiset.count_add, ih, Multiset.count_cons, Multiset.count_cons]
    cases x <;> simp [Res.carrier, Multiset.count_singleton] <;> omega

/-! ## What the heap holds -/

/-- The callback of a state, until it is called. -/
def ContractState.stored (st : ContractState V ρ) (r : Res) : ℕ :=
  if st.calls.length = 0 ∧ st.callback_.map Callback.res = some r then 1 else 0

theorem stored_of_none {st : ContractState V ρ} {r : Res} (hcb : st.callback_ = none) :
    st.stored r = 0 := by
  rw [ContractState.stored, hcb]
  exact if_neg fun hand => Option.some_ne_none r hand.2.symm

theorem stored_of_uncalled {st : ContractState V ρ} {cb : Callback V ρ} {r : Res}
    (hcalls : st.calls = []) (hcb : st.callback_ = some cb) :
    st.stored r = if r = cb.res then 1 else 0 := by
  simp only [ContractState.stored, hcalls, hcb, List.length_nil, true_and, Option.map_some,
    Option.some.injEq, eq_comm]

theorem stored_of_called {st : ContractState V ρ} {r : Res} (hcalls : st.calls ≠ []) :
    st.stored r = 0 :=
  if_neg fun hand => hcalls (List.eq_nil_of_length_eq_zero hand.1)

def ProtectedPromise.stored (node : ProtectedPromise V) (r : Res) : ℕ :=
  if node.promise.map Res.promise = some r then 1 else 0

def Heap.stored (h : Heap V ρ) (r : Res) : ℕ :=
  ∑ cs ∈ range h.size, (h.states cs).stored r + ∑ n ∈ range h.nodeCount, (h.nodes n).stored r

/-- The two bits of `state_`. -/
def ContractState.producer (st : ContractState V ρ) : ℕ := st.state_ % 2
def ContractState.consumer (st : ContractState V ρ) : ℕ := st.state_ / 2

/-- Which callbacks of the combinator have arrived. -/
def ProtectedPromise.arrived (node : ProtectedPromise V) (s : Side) : ℕ :=
  (node.arrivals.map Prod.fst).count s

/-- How often a resource has been spent. -/
def Heap.spent (h : Heap V ρ) : Res → ℕ
  | .promise cs => (h.states cs).sets
  | .root r => (h.ran.map Prod.fst).count r
  | .side n s => (h.nodes n).arrived s
  | _ => 0

/-- How often there has been one. -/
def Heap.issued (h : Heap V ρ) : Res → ℕ
  | .promise cs => if cs < h.size then 1 else 0
  | .root r => if r < h.roots.length then 1 else 0
  | .side n _ => if n < h.nodeCount then 1 else 0
  | _ => 0

/-- Where the two calls of contract state `cs` are. -/
structure ContractState.Balanced (st : ContractState V ρ) (held : Bool) (issued : ℕ)
    (m : Multiset Res) (cs : ℕ) : Prop where
  consumed : held.toNat + m.count (.consume cs) + m.count (.consumed cs) + st.consumer = issued
  produced : m.count (.produced cs) + st.producer = st.sets
  rendezvous : m.count (.rendezvous cs) + st.calls.length = if st.state_ = 3 then 1 else 0
  delete : m.count (.delete cs) + st.deleted.toNat = st.calls.length
  state_lt : st.state_ < 4
  result : st.result_ = none ↔ st.sets = 0
  callback : st.callback_ = none ↔ m.count (.consumed cs) + st.consumer = 0

theorem ContractState.Balanced.congr {st : ContractState V ρ} {held : Bool} {issued cs : ℕ}
    {m m' : Multiset Res} (hst : st.Balanced held issued m cs)
    (h : ∀ r, r.state = some cs → m'.count r = m.count r) : st.Balanced held issued m' cs := by
  constructor
  · rw [h (.consume cs) rfl, h (.consumed cs) rfl]
    exact hst.consumed
  · rw [h (.produced cs) rfl]
    exact hst.produced
  · rw [h (.rendezvous cs) rfl]
    exact hst.rendezvous
  · rw [h (.delete cs) rfl]
    exact hst.delete
  · exact hst.state_lt
  · exact hst.result
  · rw [h (.consumed cs) rfl]
    exact hst.callback

/-- Everything is in one place, or has been spent. -/
structure Ledger (h : Heap V ρ) (m : Multiset Res) : Prop where
  balance : ∀ r, (carried m).count r + h.stored r + h.spent r = h.issued r
  state : ∀ cs, (h.states cs).Balanced (h.held cs) (h.issued (.promise cs)) m cs
  slot : ∀ n s, (h.nodes n).slot s ≠ none → m.count (.side n s) + h.stored (.side n s) = 0
  fresh : ∀ n, h.nodeCount ≤ n → (h.nodes n).promise = none

/-! ## One entry changes -/

theorem states_setState (h : Heap V ρ) (cs : ℕ) (st : ContractState V ρ) :
    (h.setState cs st).states cs = st :=
  Function.update_self _ _ _

theorem states_setState_of_ne {cs cs' : ℕ} (hne : cs' ≠ cs) (h : Heap V ρ)
    (st : ContractState V ρ) : (h.setState cs st).states cs' = h.states cs' :=
  Function.update_of_ne hne _ _

theorem nodes_setNode (h : Heap V ρ) (n : ℕ) (node : ProtectedPromise V) :
    (h.setNode n node).nodes n = node :=
  Function.update_self _ _ _

theorem nodes_setNode_of_ne {n n' : ℕ} (hne : n' ≠ n) (h : Heap V ρ)
    (node : ProtectedPromise V) : (h.setNode n node).nodes n' = h.nodes n' :=
  Function.update_of_ne hne _ _


theorem sum_range_update {f : ℕ → ℕ} {k i : ℕ} (hi : i < k) (x : ℕ) :
    ∑ j ∈ range k, update f i x j + f i = ∑ j ∈ range k, f j + x := by
  have hmem := Finset.mem_range.mpr hi
  have hrest : ∑ j ∈ (range k).erase i, update f i x j = ∑ j ∈ (range k).erase i, f j :=
    Finset.sum_congr rfl fun j hj => Function.update_of_ne (Finset.ne_of_mem_erase hj) x f
  rw [← Finset.add_sum_erase _ _ hmem, ← Finset.add_sum_erase _ f hmem, hrest,
    Function.update_self]
  omega

/-- The same for a sum of what the entries of a family are worth. -/
theorem sum_range_update_apply {β : Type*} {f : ℕ → β} {k i : ℕ} (hi : i < k) (x : β)
    (g : β → ℕ) : ∑ j ∈ range k, g (update f i x j) + g (f i) = ∑ j ∈ range k, g (f j) + g x := by
  have hcomp : ∀ j, g (update f i x j) = update (fun j => g (f j)) i (g x) j := by
    intro j
    by_cases hj : j = i
    · rw [hj, Function.update_self, Function.update_self]
    · rw [Function.update_of_ne hj, Function.update_of_ne hj]
  simp only [hcomp]
  exact sum_range_update hi (g x)

section Moves

variable {h : Heap V ρ} {m m' : Multiset Res} {cs n : ℕ}

/-- Nothing the ledger is about has changed. -/
theorem Ledger.of_eq {h' : Heap V ρ} (hl : Ledger h m) (hsize : h'.size = h.size)
    (hstates : h'.states = h.states) (hheld : h'.held = h.held)
    (hcount : h'.nodeCount = h.nodeCount) (hnodes : h'.nodes = h.nodes)
    (hroots : h'.roots = h.roots) (hran : h'.ran = h.ran) : Ledger h' m := by
  have hstored : ∀ r, h'.stored r = h.stored r := by
    intro r
    rw [Heap.stored, Heap.stored, hsize, hstates, hcount, hnodes]
  have hissued : ∀ r, h'.issued r = h.issued r := by
    intro r
    cases r <;> simp only [Heap.issued, hsize, hcount, hroots]
  refine ⟨fun r => ?_, fun cs => ?_, fun n s hslot => ?_, ?_⟩
  · have hspent : h'.spent r = h.spent r := by
      cases r <;> simp only [Heap.spent, hstates, hnodes, hran]
    rw [hstored, hspent, hissued]
    exact hl.balance r
  · rw [hstates, hheld, hissued]
    exact hl.state cs
  · rw [hnodes] at hslot
    rw [hstored]
    exact hl.slot n s hslot
  · rw [hcount, hnodes]
    exact hl.fresh

theorem Ledger.touch (hl : Ledger h m) (cs : ℕ) : Ledger (h.touch cs) m :=
  hl.of_eq rfl rfl rfl rfl rfl rfl rfl

theorem Ledger.crash (hl : Ledger h m) : Ledger h.crash m :=
  hl.of_eq rfl rfl rfl rfl rfl rfl rfl

/-- What a state has spent: the promise it is the state of. -/
def ContractState.spent (st : ContractState V ρ) (cs : ℕ) (r : Res) : ℕ :=
  if r = .promise cs then st.sets else 0

theorem spent_setState (h : Heap V ρ) (cs : ℕ) (st : ContractState V ρ) (r : Res) :
    (h.setState cs st).spent r + (h.states cs).spent cs r = h.spent r + st.spent cs r := by
  cases r with
  | promise cs' =>
    simp only [Heap.spent, Heap.setState, ContractState.spent, Res.promise.injEq]
    by_cases hc : cs' = cs
    · subst hc
      rw [Function.update_self, if_pos rfl, if_pos rfl]
      omega
    · rw [Function.update_of_ne hc, if_neg hc, if_neg hc]
  | _ => rfl

/-- A state changes, and with it what is under way at it and what is carried. -/
theorem Ledger.setState (hl : Ledger h m) (hcs : cs < h.size) {st : ContractState V ρ}
    (hbalance : ∀ r, (carried m').count r + st.stored r + st.spent cs r =
      (carried m).count r + (h.states cs).stored r + (h.states cs).spent cs r)
    (hother : ∀ r, r.carrier ≠ some r → r.state ≠ some cs → m'.count r = m.count r)
    (hst : st.Balanced (h.held cs) (h.issued (.promise cs)) m' cs) :
    Ledger (h.setState cs st) m' := by
  -- only the summand of `cs` changes
  have hstored : ∀ r, (h.setState cs st).stored r + (h.states cs).stored r =
      h.stored r + st.stored r := by
    intro r
    have hsum := sum_range_update_apply (f := h.states) hcs st fun st => st.stored r
    simp only [Heap.stored, Heap.setState]
    omega
  refine ⟨fun r => ?_, fun cs' => ?_, fun n s hslot => ?_, hl.fresh⟩
  · have hold := hl.balance r
    have hnew := hbalance r
    have hspent := spent_setState h cs st r
    have hsum := hstored r
    change _ = h.issued r
    omega
  · change (update h.states cs st cs').Balanced (h.held cs') (h.issued (.promise cs')) m' cs'
    by_cases hc : cs' = cs
    · rw [hc, Function.update_self]
      exact hst
    · rw [Function.update_of_ne hc]
      refine (hl.state cs').congr fun r hr => hother r ?_ ?_
      · cases r <;> simp [Res.carrier, Res.state] at hr ⊢
      · rw [hr]
        exact fun he => hc (Option.some.inj he)
  · have hold := hl.slot n s hslot
    have hnew := hbalance (.side n s)
    have hsum := hstored (.side n s)
    have harriving := hother (.arriving n s) (by simp [Res.carrier]) (by simp [Res.state])
    rw [count_carried_side, count_carried_side, harriving] at hnew
    simp only [ContractState.spent, reduceCtorEq, if_false] at hnew
    omega

/-! ### Produce, Consume and the rendezvous -/

/-- Whatever is under way at a state, the state has been allocated. -/
theorem Ledger.lt_size (hl : Ledger h m) {r : Res} (hr : r ∈ m) (hs : r.state = some cs) :
    cs < h.size := by
  have hpos := Multiset.count_pos.mpr hr
  have hst := hl.state cs
  have hbalance := hl.balance (.promise cs)
  simp only [Heap.spent, Heap.issued] at hbalance
  by_contra hlt
  rw [if_neg hlt] at hbalance
  -- it has never been issued, so none of its words has been written
  have hconsumed := hst.consumed
  have hproduced := hst.produced
  have hrendezvous := hst.rendezvous
  have hdelete := hst.delete
  simp only [Heap.issued, if_neg hlt] at hconsumed
  have hstate : (h.states cs).state_ ≠ 3 := by
    intro h3
    rw [ContractState.consumer, h3] at hconsumed
    omega
  rw [if_neg hstate] at hrendezvous
  cases r <;> simp only [Res.state, Option.some.injEq, reduceCtorEq] at hs <;> subst hs <;> omega

theorem Ledger.promise_lt_size (hl : Ledger h m) (hr : .promise cs ∈ m) : cs < h.size := by
  have hpos := Multiset.count_pos.mpr hr
  have hbalance := hl.balance (.promise cs)
  rw [count_carried_promise] at hbalance
  simp only [Heap.issued] at hbalance
  by_contra hlt
  rw [if_neg hlt] at hbalance
  omega

/-- `SetRuntime`. -/
theorem Ledger.setRuntime (hl : Ledger h m) (hcs : cs < h.size) (rt : Runtime ρ) :
    Ledger (h.setState cs { h.states cs with runtime_ := rt }) m :=
  hl.setState hcs (fun _ => rfl) (fun _ _ _ => rfl) <| by
    have hst := hl.state cs
    exact ⟨hst.consumed, hst.produced, hst.rendezvous, hst.delete, hst.state_lt, hst.result,
      hst.callback⟩

theorem count_add_of_ne {r x : Res} (h : r ≠ x) (m : Multiset Res) :
    ({x} + m).count r = m.count r := by
  rw [Multiset.count_add, Multiset.count_singleton, if_neg h, zero_add]

theorem count_add_self (x : Res) (m : Multiset Res) : ({x} + m).count x = 1 + m.count x := by
  rw [Multiset.count_add, Multiset.count_singleton_self]

/-- What is only carried is no part of a call. -/
theorem ContractState.Balanced.drop {st : ContractState V ρ} {held : Bool} {issued : ℕ} {x : Res}
    (hst : st.Balanced held issued ({x} + m) cs) (hx : x.state ≠ some cs) :
    st.Balanced held issued m cs :=
  hst.congr fun r hr => (count_add_of_ne (fun he : r = x => hx (he ▸ hr)) m).symm

theorem ContractState.Balanced.add {st : ContractState V ρ} {held : Bool} {issued : ℕ} {x : Res}
    (hst : st.Balanced held issued m cs) (hx : x.state ≠ some cs) :
    st.Balanced held issued ({x} + m) cs :=
  hst.congr fun r hr => count_add_of_ne (fun he : r = x => hx (he ▸ hr)) m

/-- `result_.Emplace(std::move(res))`. -/
theorem Ledger.produce (hl : Ledger h ({.promise cs} + m)) (res : Val V) :
    Ledger (h.setState cs { h.states cs with
      result_ := some res, sets := (h.states cs).sets + 1 }) ({.produced cs} + m) := by
  have hcs : cs < h.size := hl.promise_lt_size (by simp)
  have hst := (hl.state cs).drop (by simp [Res.state])
  refine hl.setState hcs (fun r => ?_) (fun r hr hs => ?_) ?_
  · simp only [carried_add, carried_singleton, Res.carrier, Multiset.count_add,
      Multiset.count_singleton, ContractState.stored, ContractState.spent, Multiset.count_zero]
    split_ifs <;> omega
  · rw [count_add_of_ne (fun he => hs (by rw [he, Res.state])),
      count_add_of_ne (fun he => hr (by rw [he, Res.carrier]))]
  · have hproduced := hst.produced
    constructor
    · rw [count_add_of_ne (by simp), count_add_of_ne (by simp)]
      exact hst.consumed
    · rw [count_add_self]
      change 1 + m.count (.produced cs) + (h.states cs).producer = (h.states cs).sets + 1
      omega
    · rw [count_add_of_ne (by simp)]
      exact hst.rendezvous
    · rw [count_add_of_ne (by simp)]
      exact hst.delete
    · exact hst.state_lt
    · simp
    · rw [count_add_of_ne (by simp)]
      exact hst.callback

theorem Ledger.sets_le (hl : Ledger h m) (cs : ℕ) : (h.states cs).sets ≤ 1 := by
  have hbalance := hl.balance (.promise cs)
  simp only [Heap.spent, Heap.issued] at hbalance
  split at hbalance <;> omega

/-- `fetch_or` of a bit that is not set. -/
theorem fetch_or_procuder {x : ℕ} (hlt : x < 4) (hbit : x % 2 = 0) :
    (x ||| States.Procuder) % 2 = 1 ∧ (x ||| States.Procuder) / 2 = x / 2 ∧
      (x ||| States.Procuder) < 4 ∧ (x ||| States.Procuder = 3 ↔ x = States.Consumer) := by
  obtain rfl | rfl : x = 0 ∨ x = 2 := by omega
  all_goals decide

theorem fetch_or_consumer {x : ℕ} (hlt : x < 4) (hbit : x / 2 = 0) :
    (x ||| States.Consumer) % 2 = x % 2 ∧ (x ||| States.Consumer) / 2 = 1 ∧
      (x ||| States.Consumer) < 4 ∧ (x ||| States.Consumer = 3 ↔ x = States.Procuder) := by
  obtain rfl | rfl : x = 0 ∨ x = 1 := by omega
  all_goals decide

/-- Who has set the second bit is about to call the callback. -/
theorem count_rendezvous {x : ℕ} {p : Prop} [Decidable p] (hx : x ≠ 3)
    (hbalance : m.count (.rendezvous cs) + n = if x = 3 then 1 else 0) :
    ((if p then {Res.rendezvous cs} else 0) + m).count (.rendezvous cs) + n =
      if p then 1 else 0 := by
  rw [if_neg hx] at hbalance
  split
  · rw [count_add_self]
    omega
  · rw [zero_add]
    omega

theorem count_if_add_of_ne {r x : Res} {p : Prop} [Decidable p] (hr : r ≠ x) (m : Multiset Res) :
    ((if p then {x} else 0) + m).count r = m.count r := by
  split
  · exact count_add_of_ne hr m
  · rw [zero_add]

theorem carried_if_rendezvous {p : Prop} [Decidable p] :
    carried (if p then {Res.rendezvous cs} else 0) = 0 := by
  split
  · exact carried_singleton _
  · rfl

/-- `state_processor_.Produce()`. -/
theorem Ledger.produced (hl : Ledger h ({.produced cs} + m)) :
    Ledger (h.setState cs { h.states cs with
        state_ := (h.states cs).state_ ||| States.Procuder })
      ((if (h.states cs).state_ = States.Consumer then {.rendezvous cs} else 0) + m) := by
  have hcs : cs < h.size := hl.lt_size (r := .produced cs) (by simp) rfl
  have hst := hl.state cs
  have hproduced := hst.produced
  have hsets := hl.sets_le cs
  rw [count_add_self] at hproduced
  -- the producer comes here once, so its bit is not set yet
  have hzero : (h.states cs).producer = 0 := by omega
  obtain ⟨hproducer, hconsumer, hlt, hthree⟩ := fetch_or_procuder hst.state_lt hzero
  refine hl.setState hcs (fun r => ?_) (fun r hr hs => ?_) ?_
  · rw [carried_add, carried_add, carried_if_rendezvous, carried_singleton]
    rfl
  · have hne : r ≠ .produced cs := fun he => hs (by rw [he, Res.state])
    have hne' : r ≠ .rendezvous cs := fun he => hs (by rw [he, Res.state])
    rw [count_add_of_ne hne, count_if_add_of_ne hne']
  · constructor
    · rw [count_if_add_of_ne (by simp), count_if_add_of_ne (by simp)]
      have hconsumed := hst.consumed
      rw [count_add_of_ne (by simp), count_add_of_ne (by simp)] at hconsumed
      rw [← hconsumed]
      exact congrArg _ hconsumer
    · rw [count_if_add_of_ne (by simp)]
      change m.count (.produced cs) + ((h.states cs).state_ ||| States.Procuder) % 2 =
        (h.states cs).sets
      omega
    · have hrendezvous := hst.rendezvous
      rw [count_add_of_ne (by simp)] at hrendezvous
      simp only [hthree]
      refine count_rendezvous (fun h3 => ?_) hrendezvous
      rw [ContractState.producer, h3] at hzero
      cases hzero
    · rw [count_if_add_of_ne (by simp)]
      have hdelete := hst.delete
      rwa [count_add_of_ne (by simp)] at hdelete
    · exact hlt
    · exact hst.result
    · rw [count_if_add_of_ne (by simp)]
      have hcallback := hst.callback
      rw [count_add_of_ne (by simp)] at hcallback
      simp only [ContractState.consumer, hconsumer]
      exact hcallback

theorem carried_res (cb : Callback V ρ) : carried {cb.res} = {cb.res} := by
  rw [carried_singleton, cb.carrier_res]

theorem Ledger.issued_le (h : Heap V ρ) (r : Res) : h.issued r ≤ 1 := by
  cases r <;> simp only [Heap.issued] <;> (try split) <;> omega

/-- Nobody has consumed the future as long as somebody is to. -/
theorem Ledger.not_consumed (hl : Ledger h m)
    (hr : 1 ≤ m.count (.consume cs) + m.count (.consumed cs)) : (h.states cs).consumer = 0 ∧
      m.count (.consume cs) + m.count (.consumed cs) = 1 := by
  have hconsumed := (hl.state cs).consumed
  have hissued := Ledger.issued_le h (.promise cs)
  omega

theorem state_ne_three {st : ContractState V ρ} (hst : st.consumer = 0) : st.state_ ≠ 3 := by
  intro h3
  rw [ContractState.consumer, h3] at hst
  cases hst

/-- `callback_.Emplace(std::move(cb))`. -/
theorem Ledger.consume {cb : Callback V ρ} (hl : Ledger h ({.consume cs} + ({cb.res} + m))) :
    Ledger (h.setState cs { h.states cs with callback_ := some cb }) ({.consumed cs} + m) := by
  have hcs : cs < h.size := hl.lt_size (r := .consume cs) (by simp) rfl
  have hst : (h.states cs).Balanced (h.held cs) (h.issued (.promise cs))
      ({.consume cs} + m) cs := by
    refine (hl.state cs).congr fun r hr => ?_
    have hne : r ≠ cb.res := by
      intro he
      rw [he, cb.state_res] at hr
      cases hr
    rw [Multiset.count_add, Multiset.count_add, count_add_of_ne hne]
  have hheld := hst.consumed
  rw [count_add_self, count_add_of_ne (by simp)] at hheld
  have hnone : (h.states cs).consumer = 0 ∧ _ :=
    hl.not_consumed (by rw [count_add_self]; omega)
  have hzero := Ledger.issued_le h (.promise cs)
  have hconsumed : m.count (.consumed cs) = 0 := by omega
  -- nothing was stored before, and it has not been called
  have hcallback : (h.states cs).callback_ = none := by
    rw [hst.callback, count_add_of_ne (by simp), hnone.1, hconsumed]
  have hcalls : (h.states cs).calls = [] := by
    have hrendezvous := hst.rendezvous
    rw [if_neg (state_ne_three hnone.1)] at hrendezvous
    exact List.eq_nil_of_length_eq_zero (by omega)
  refine hl.setState hcs (fun r => ?_) (fun r hr hs => ?_) ?_
  · have hzeroes : carried {Res.consume cs} = 0 ∧ carried {Res.consumed cs} = 0 :=
      ⟨carried_singleton _, carried_singleton _⟩
    rw [carried_add, carried_add, carried_add, carried_res, hzeroes.1, hzeroes.2]
    have hnew : ContractState.stored { h.states cs with callback_ := some cb } r =
        if r = cb.res then 1 else 0 := stored_of_uncalled hcalls rfl
    rw [stored_of_none hcallback, hnew]
    simp only [Multiset.count_add, Multiset.count_zero, Multiset.count_singleton]
    change _ + (h.states cs).spent cs r = _
    omega
  · have hne : r ≠ .consumed cs := fun he => hs (by rw [he, Res.state])
    have hne' : r ≠ .consume cs := fun he => hs (by rw [he, Res.state])
    have hne'' : r ≠ cb.res := fun he => hr (by rw [he, cb.carrier_res])
    rw [count_add_of_ne hne, count_add_of_ne hne', count_add_of_ne hne'']
  · constructor
    · rw [count_add_of_ne (by simp), count_add_self]
      change _ + _ + _ + (h.states cs).consumer = _
      omega
    · have hproduced := hst.produced
      rw [count_add_of_ne (by simp)] at hproduced
      rw [count_add_of_ne (by simp)]
      exact hproduced
    · have hrendezvous := hst.rendezvous
      rw [count_add_of_ne (by simp)] at hrendezvous
      rw [count_add_of_ne (by simp)]
      exact hrendezvous
    · have hdelete := hst.delete
      rw [count_add_of_ne (by simp)] at hdelete
      rw [count_add_of_ne (by simp)]
      exact hdelete
    · exact hst.state_lt
    · exact hst.result
    · rw [count_add_self]
      simp

/-- `state_processor_.Consume()`. -/
theorem Ledger.consumed (hl : Ledger h ({.consumed cs} + m)) :
    Ledger (h.setState cs { h.states cs with
        state_ := (h.states cs).state_ ||| States.Consumer })
      ((if (h.states cs).state_ = States.Procuder then {.rendezvous cs} else 0) + m) := by
  have hcs : cs < h.size := hl.lt_size (r := .consumed cs) (by simp) rfl
  have hst := hl.state cs
  have hnone : (h.states cs).consumer = 0 ∧ _ :=
    hl.not_consumed (by rw [count_add_self]; omega)
  -- the consumer comes here once too, so its bit is not set either
  obtain ⟨hproducer, hconsumer, hlt, hthree⟩ := fetch_or_consumer hst.state_lt hnone.1
  refine hl.setState hcs (fun r => ?_) (fun r hr hs => ?_) ?_
  · rw [carried_add, carried_add, carried_if_rendezvous, carried_singleton]
    rfl
  · have hne : r ≠ .consumed cs := fun he => hs (by rw [he, Res.state])
    have hne' : r ≠ .rendezvous cs := fun he => hs (by rw [he, Res.state])
    rw [count_add_of_ne hne, count_if_add_of_ne hne']
  · constructor
    · have hconsumed := hst.consumed
      rw [count_add_of_ne (by simp), count_add_self] at hconsumed
      rw [count_if_add_of_ne (by simp), count_if_add_of_ne (by simp)]
      change _ + _ + _ + ((h.states cs).state_ ||| States.Consumer) / 2 = _
      omega
    · have hproduced := hst.produced
      rw [count_add_of_ne (by simp)] at hproduced
      rw [count_if_add_of_ne (by simp), ← hproduced]
      exact congrArg _ hproducer
    · have hrendezvous := hst.rendezvous
      rw [count_add_of_ne (by simp)] at hrendezvous
      simp only [hthree]
      exact count_rendezvous (state_ne_three hnone.1) hrendezvous
    · have hdelete := hst.delete
      rw [count_add_of_ne (by simp)] at hdelete
      rw [count_if_add_of_ne (by simp)]
      exact hdelete
    · exact hlt
    · exact hst.result
    · have hcallback := hst.callback
      rw [count_add_self] at hcallback
      simp only [ContractState.consumer, hconsumer]
      constructor
      · intro he
        have hpos := hcallback.mp he
        omega
      · intro he
        omega

/-- Who is about to call the callback finds it and the result. -/
theorem Ledger.rendezvous_ready (hl : Ledger h ({.rendezvous cs} + m)) :
    (∃ cb, (h.states cs).callback_ = some cb) ∧ (∃ v, (h.states cs).result_ = some v) ∧
      (h.states cs).calls = [] ∧ (h.states cs).state_ = 3 := by
  have hst := hl.state cs
  have hrendezvous := hst.rendezvous
  rw [count_add_self] at hrendezvous
  have h3 : (h.states cs).state_ = 3 := by
    by_contra hne
    rw [if_neg hne] at hrendezvous
    omega
  rw [if_pos h3] at hrendezvous
  refine ⟨Option.ne_none_iff_exists'.mp fun hnone => ?_,
    Option.ne_none_iff_exists'.mp fun hnone => ?_, List.eq_nil_of_length_eq_zero (by omega), h3⟩
  · have hzero := hst.callback.mp hnone
    rw [ContractState.consumer, h3] at hzero
    omega
  · have hsets := hst.result.mp hnone
    have hproduced := hst.produced
    rw [ContractState.producer, h3, hsets] at hproduced
    omega

/-- `(*callback_)(std::move(*result_))` begins. -/
theorem Ledger.call {cb : Callback V ρ} (hl : Ledger h ({.rendezvous cs} + m))
    (hcb : (h.states cs).callback_ = some cb) (v : Val V) :
    Ledger (h.setState cs { h.states cs with calls := (h.states cs).calls ++ [v] })
      ({cb.res} + ({.delete cs} + m)) := by
  have hcs : cs < h.size := hl.lt_size (r := .rendezvous cs) (by simp) rfl
  have hst := hl.state cs
  obtain ⟨-, -, hcalls, h3⟩ := hl.rendezvous_ready
  have hrendezvous := hst.rendezvous
  rw [count_add_self, hcalls, if_pos h3, List.length_nil] at hrendezvous
  refine hl.setState hcs (fun r => ?_) (fun r hr hs => ?_) ?_
  -- what the callback holds goes from the state to whoever runs it
  · have hzeroes : carried {Res.rendezvous cs} = 0 ∧ carried {Res.delete cs} = 0 :=
      ⟨carried_singleton _, carried_singleton _⟩
    rw [carried_add, carried_add, carried_add, carried_res, hzeroes.1, hzeroes.2]
    have hnew : ContractState.stored
        { h.states cs with calls := (h.states cs).calls ++ [v] } r = 0 :=
      stored_of_called (List.append_ne_nil_of_right_ne_nil _ (List.cons_ne_nil v []))
    rw [stored_of_uncalled hcalls hcb, hnew]
    simp only [Multiset.count_add, Multiset.count_zero, Multiset.count_singleton]
    change _ + (h.states cs).spent cs r = _
    omega
  · have hne : r ≠ .delete cs := fun he => hs (by rw [he, Res.state])
    have hne' : r ≠ .rendezvous cs := fun he => hs (by rw [he, Res.state])
    have hne'' : r ≠ cb.res := fun he => hr (by rw [he, cb.carrier_res])
    rw [count_add_of_ne hne'', count_add_of_ne hne, count_add_of_ne hne']
  · refine ContractState.Balanced.add ?_ (by rw [cb.state_res]; simp)
    constructor
    · have hconsumed := hst.consumed
      rw [count_add_of_ne (by simp), count_add_of_ne (by simp)] at hconsumed
      rw [count_add_of_ne (by simp), count_add_of_ne (by simp)]
      exact hconsumed
    · have hproduced := hst.produced
      rw [count_add_of_ne (by simp)] at hproduced
      rw [count_add_of_ne (by simp)]
      exact hproduced
    · rw [count_add_of_ne (by simp), hcalls]
      change _ + 1 = if (h.states cs).state_ = 3 then 1 else 0
      rw [if_pos h3]
      omega
    · have hdelete := hst.delete
      rw [count_add_of_ne (by simp), hcalls, List.length_nil] at hdelete
      rw [count_add_self, hcalls]
      change 1 + _ + (h.states cs).deleted.toNat = 1
      omega
    · exact hst.state_lt
    · exact hst.result
    · have hcallback := hst.callback
      rw [count_add_of_ne (by simp)] at hcallback
      rw [count_add_of_ne (by simp)]
      exact hcallback

/-- `delete this`. -/
theorem Ledger.delete_ (hl : Ledger h ({.delete cs} + m)) :
    Ledger (h.setState cs { h.states cs with deleted := true }) m := by
  have hcs : cs < h.size := hl.lt_size (r := .delete cs) (by simp) rfl
  have hst := hl.state cs
  refine hl.setState hcs (fun r => ?_) (fun r hr hs => ?_) ?_
  · rw [carried_add, carried_singleton]
    change _ = (0 + carried m).count r + _ + _
    rw [zero_add]
    rfl
  · have hne : r ≠ .delete cs := fun he => hs (by rw [he, Res.state])
    rw [count_add_of_ne hne]
  · constructor
    · have hconsumed := hst.consumed
      rwa [count_add_of_ne (by simp), count_add_of_ne (by simp)] at hconsumed
    · have hproduced := hst.produced
      rwa [count_add_of_ne (by simp)] at hproduced
    · have hrendezvous := hst.rendezvous
      rwa [count_add_of_ne (by simp)] at hrendezvous
    · have hdelete := hst.delete
      have hrendezvous := hst.rendezvous
      -- the callback has been called, and it is called once
      have hle : (if (h.states cs).state_ = 3 then 1 else 0) ≤ 1 := by split <;> omega
      rw [count_add_self] at hdelete
      change _ + 1 = (h.states cs).calls.length
      omega
    · exact hst.state_lt
    · exact hst.result
    · have hcallback := hst.callback
      rwa [count_add_of_ne (by simp)] at hcallback

/-- Whoever has anything to do with a state comes before its deletion. -/
theorem Ledger.not_deleted (hl : Ledger h m) {r : Res} (hr : r ∈ m)
    (hs : r = .promise cs ∨ r.state = some cs) : (h.states cs).deleted = false := by
  have hpos := Multiset.count_pos.mpr hr
  have hst := hl.state cs
  have hconsumed := hst.consumed
  have hproduced := hst.produced
  have hrendezvous := hst.rendezvous
  have hdelete := hst.delete
  have hissued := Ledger.issued_le h (.promise cs)
  have hbalance := hl.balance (.promise cs)
  rw [count_carried_promise] at hbalance
  simp only [Heap.spent] at hbalance
  by_contra hdel
  rw [Bool.not_eq_false] at hdel
  rw [hdel, Bool.toNat_true] at hdelete
  -- a deleted state has met both sides
  have h3 : (h.states cs).state_ = 3 := by
    by_contra hne
    rw [if_neg hne] at hrendezvous
    omega
  rw [if_pos h3] at hrendezvous
  rw [ContractState.consumer, h3] at hconsumed
  rw [ContractState.producer, h3] at hproduced
  -- then all its shares are spent, and nothing is left for `r`
  obtain rfl | hs := hs
  · omega
  · cases r <;> simp only [Res.state, Option.some.injEq, reduceCtorEq] at hs <;> subst hs <;> omega

/-- Nobody has deleted what can still be consumed. -/
theorem Ledger.not_deleted_of_held (hl : Ledger h m) (hheld : h.held cs = true) :
    cs < h.size ∧ (h.states cs).deleted = false := by
  have hst := hl.state cs
  have hconsumed := hst.consumed
  have hrendezvous := hst.rendezvous
  have hdelete := hst.delete
  have hissued := Ledger.issued_le h (.promise cs)
  rw [hheld, Bool.toNat_true] at hconsumed
  have hzero : (h.states cs).consumer = 0 := by omega
  rw [if_neg (state_ne_three hzero)] at hrendezvous
  refine ⟨?_, ?_⟩
  · by_contra hlt
    rw [Heap.issued, if_neg hlt] at hconsumed
    omega
  · by_contra hdel
    rw [Bool.not_eq_false] at hdel
    rw [hdel, Bool.toNat_true] at hdelete
    omega

/-! ### Contracts, futures and roots -/

theorem contract_stored (h : Heap V ρ) (rt : Runtime ρ) (origin : Origin V ρ) (r : Res) :
    (h.contract rt origin).stored r = h.stored r := by
  simp only [Heap.stored, Heap.contract, Heap.setState]
  rw [Finset.sum_range_succ, Function.update_self, stored_of_none rfl, Nat.add_zero]
  refine congrArg (· + _) (Finset.sum_congr rfl fun cs hcs => ?_)
  rw [Function.update_of_ne (Nat.ne_of_lt (Finset.mem_range.mp hcs))]

/-- `Contract()`: there is one more promise. -/
theorem Ledger.contract (hl : Ledger h m) (rt : Runtime ρ) (origin : Origin V ρ) :
    Ledger (h.contract rt origin) ({.promise h.size} + m) := by
  have hnot : ¬h.size < h.size := Nat.lt_irrefl _
  have hissued : h.issued (.promise h.size) = 0 := if_neg hnot
  have hold := hl.balance (.promise h.size)
  rw [hissued, Heap.spent] at hold
  refine ⟨fun r => ?_, fun cs => ?_, fun n s hslot => ?_, hl.fresh⟩
  · have hr := hl.balance r
    rw [carried_add, Multiset.count_add, contract_stored, carried_singleton]
    -- the new promise is issued and carried, all the rest is as before
    by_cases he : r = .promise h.size
    · subst he
      simp only [Res.carrier, Multiset.count_singleton_self, Heap.spent, Heap.issued, Heap.contract,
        Heap.setState, Function.update_self, Nat.lt_succ_self, if_true]
      omega
    · simp only [Res.carrier]
      rw [Multiset.count_singleton, if_neg he, Nat.zero_add]
      cases r with
      | promise cs =>
        have hne : cs ≠ h.size := fun hc => he (hc ▸ rfl)
        have hiff : cs < h.size + 1 ↔ cs < h.size := by omega
        simp only [Heap.spent, Heap.issued, Heap.contract, Heap.setState,
          Function.update_of_ne hne, hiff] at hr ⊢
        exact hr
      | _ => exact hr
  · have hst := hl.state cs
    change (update h.states h.size ⟨0, none, none, rt, false, [], 0, some origin⟩ cs).Balanced
      (update h.held h.size true cs) (if cs < h.size + 1 then 1 else 0) _ cs
    refine ContractState.Balanced.add ?_ (by simp [Res.state])
    by_cases hc : cs = h.size
    · -- so far nothing has happened at this address
      subst hc
      have hconsumed := hst.consumed
      have hproduced := hst.produced
      have hrendezvous := hst.rendezvous
      have hdelete := hst.delete
      rw [hissued] at hconsumed
      have hzero : (h.states h.size).consumer = 0 := by omega
      rw [if_neg (state_ne_three hzero)] at hrendezvous
      rw [Function.update_self, Function.update_self, if_pos (Nat.lt_succ_self _)]
      constructor <;> simp only [ContractState.producer, ContractState.consumer, Bool.toNat_true,
        Bool.toNat_false, List.length_nil, Nat.zero_mod, Nat.zero_div, true_iff,
        OfNat.zero_ne_ofNat, if_false] <;> omega
    · have hiff : cs < h.size + 1 ↔ cs < h.size := by omega
      rw [Function.update_of_ne hc, Function.update_of_ne hc]
      simp only [hiff]
      exact hst
  · rw [contract_stored, count_add_of_ne (by simp)]
    exact hl.slot n s hslot

/-- A future is moved from: somebody is about to consume it. -/
theorem Ledger.release (hl : Ledger h m) (hheld : h.held cs = true) :
    Ledger (h.release cs) ({.consume cs} + m) := by
  refine ⟨fun r => ?_, fun cs' => ?_, fun n s hslot => ?_, hl.fresh⟩
  · rw [carried_add, carried_singleton]
    change (0 + carried m).count r + h.stored r + h.spent r = h.issued r
    rw [zero_add]
    exact hl.balance r
  · have hst := hl.state cs'
    change (h.states cs').Balanced (update h.held cs false cs') (h.issued (.promise cs')) _ cs'
    by_cases hc : cs' = cs
    · subst hc
      rw [Function.update_self]
      have hconsumed := hst.consumed
      -- the share of the consumer goes from the future to the instruction
      rw [hheld, Bool.toNat_true] at hconsumed
      constructor
      · rw [count_add_self, count_add_of_ne (by simp), Bool.toNat_false]
        omega
      · rw [count_add_of_ne (by simp)]
        exact hst.produced
      · rw [count_add_of_ne (by simp)]
        exact hst.rendezvous
      · rw [count_add_of_ne (by simp)]
        exact hst.delete
      · exact hst.state_lt
      · exact hst.result
      · rw [count_add_of_ne (by simp)]
        exact hst.callback
    · rw [Function.update_of_ne hc]
      refine hst.add ?_
      rw [Res.state]
      exact fun he => hc (Option.some.inj he).symm
  · rw [count_add_of_ne (by simp)]
    exact hl.slot n s hslot

/-- The callback of a root runs. -/
theorem Ledger.run {r : ℕ} (hl : Ledger h ({.root r} + m)) (v : Val V) :
    Ledger { h with ran := h.ran ++ [(r, v)] } m := by
  refine ⟨fun x => ?_, fun cs => (hl.state cs).drop (by simp [Res.state]),
    fun n s hslot => ?_, hl.fresh⟩
  · have hx := hl.balance x
    rw [carried_add, carried_singleton, Multiset.count_add] at hx
    simp only [Res.carrier, Multiset.count_singleton] at hx
    change (carried m).count x + h.stored x + _ = h.issued x
    cases x with
    | root x =>
      simp only [Heap.spent, List.map_append, List.map_cons, List.map_nil, List.count_append,
        List.count_singleton, Res.root.injEq, beq_iff_eq] at hx ⊢
      by_cases he : x = r
      · subst he
        simp only [if_true] at hx ⊢
        omega
      · rw [if_neg he] at hx
        rw [if_neg (Ne.symm he)]
        omega
    | _ =>
      rw [if_neg (by simp), Nat.zero_add] at hx
      exact hx
  · have hside := hl.slot n s hslot
    rwa [count_add_of_ne (by simp)] at hside

/-- The program begins to evaluate an expression. -/
theorem Ledger.start (hl : Ledger h m) (e : Expr V ρ) :
    Ledger { h with roots := h.roots ++ [e] } ({.root h.roots.length} + m) := by
  refine ⟨fun x => ?_, fun cs => (hl.state cs).add (by simp [Res.state]),
    fun n s hslot => ?_, hl.fresh⟩
  · have hx := hl.balance x
    rw [carried_add, carried_singleton, Multiset.count_add]
    simp only [Res.carrier, Multiset.count_singleton]
    change _ + h.stored x + h.spent x = _
    cases x with
    | root x =>
      simp only [Heap.issued, List.length_append, List.length_singleton, Res.root.injEq] at hx ⊢
      by_cases he : x = h.roots.length
      · subst he
        rw [if_neg (Nat.lt_irrefl _)] at hx
        rw [if_pos rfl, if_pos (Nat.lt_succ_self _)]
        omega
      · have hiff : x < h.roots.length + 1 ↔ x < h.roots.length := by omega
        simp only [hiff, if_neg he, Nat.zero_add]
        exact hx
    | _ =>
      rw [if_neg (by simp), Nat.zero_add]
      exact hx
  · rw [count_add_of_ne (by simp)]
    exact hl.slot n s hslot

/-! ### Shared promises -/

/-- The sides of a node that have been spent. -/
def ProtectedPromise.spent (node : ProtectedPromise V) (n : ℕ) : Res → ℕ
  | .side n' s => if n' = n then node.arrived s else 0
  | _ => 0

theorem spent_setNode (h : Heap V ρ) (n : ℕ) (node : ProtectedPromise V) (r : Res) :
    (h.setNode n node).spent r + (h.nodes n).spent n r = h.spent r + node.spent n r := by
  cases r with
  | side n' s =>
    simp only [Heap.spent, Heap.setNode, ProtectedPromise.spent]
    by_cases hn : n' = n
    · subst hn
      rw [Function.update_self, if_pos rfl, if_pos rfl]
      omega
    · rw [Function.update_of_ne hn, if_neg hn, if_neg hn]
  | _ => rfl

theorem stored_node_side (node : ProtectedPromise V) (n : ℕ) (s : Side) :
    node.stored (.side n s) = 0 := by
  refine if_neg fun he => ?_
  cases hp : node.promise <;> rw [hp] at he <;> cases he

theorem stored_setNode (h : Heap V ρ) {n : ℕ} (hn : n < h.nodeCount) (node : ProtectedPromise V)
    (r : Res) :
    (h.setNode n node).stored r + (h.nodes n).stored r = h.stored r + node.stored r := by
  have hsum := sum_range_update_apply (f := h.nodes) hn node fun node => node.stored r
  simp only [Heap.stored, Heap.setNode]
  omega

/-- Whoever has a side of a node, the node has been made. -/
theorem Ledger.lt_nodeCount (hl : Ledger h m) {s : Side}
    (hs : .side n s ∈ m ∨ .arriving n s ∈ m) : n < h.nodeCount := by
  have hbalance := hl.balance (.side n s)
  rw [count_carried_side] at hbalance
  simp only [Heap.issued] at hbalance
  by_contra hlt
  rw [if_neg hlt] at hbalance
  obtain hs | hs := hs <;> have hpos := Multiset.count_pos.mpr hs <;> omega

/-- A node changes, and with it what is carried. -/
theorem Ledger.setNode (hl : Ledger h m) (hn : n < h.nodeCount) {node : ProtectedPromise V}
    (hbalance : ∀ r, (carried m').count r + node.stored r + node.spent n r =
      (carried m).count r + (h.nodes n).stored r + (h.nodes n).spent n r)
    (hother : ∀ r, r.state ≠ none → m'.count r = m.count r)
    (hside : ∀ n' s, n' ≠ n ∨ (h.nodes n).slot s = node.slot s →
      m'.count (.side n' s) ≤ m.count (.side n' s))
    (hslot : ∀ s, (h.nodes n).slot s = node.slot s ∨
      m'.count (.side n s) + h.stored (.side n s) = 0) :
    Ledger (h.setNode n node) m' := by
  refine ⟨fun r => ?_, fun cs => ?_, fun n' s hs => ?_, fun n' hn' => ?_⟩
  · have hold := hl.balance r
    have hnew := hbalance r
    have hspent := spent_setNode h n node r
    have hsum := stored_setNode h hn node r
    change _ = h.issued r
    omega
  · refine (hl.state cs).congr fun r hr => hother r ?_
    rw [hr]
    exact Option.some_ne_none cs
  · have hsum := stored_setNode h hn node (.side n' s)
    rw [stored_node_side, stored_node_side] at hsum
    change (update h.nodes n node n').slot s ≠ none at hs
    by_cases hc : n' = n
    · subst hc
      rw [Function.update_self] at hs
      -- a slot is as it was, or its side is used up
      obtain hsame | hzero := hslot s
      · have hle := hside n' s (.inr hsame)
        have hold := hl.slot n' s (by rw [hsame]; exact hs)
        omega
      · omega
    · rw [Function.update_of_ne hc] at hs
      have hle := hside n' s (.inl hc)
      have hold := hl.slot n' s hs
      omega
  · have hne : n' ≠ n := Nat.ne_of_gt (Nat.lt_of_lt_of_le hn hn')
    change (update h.nodes n node n').promise = none
    rw [Function.update_of_ne hne]
    exact hl.fresh n' hn'

/-- `make_shared<ProtectedPromise>(std::move(promise))`, and the two callbacks. -/
theorem Ledger.share (hl : Ledger h ({.promise cs} + m)) (op : Concur) :
    Ledger (h.share op cs)
      ({.side h.nodeCount .first} + ({.side h.nodeCount .second} + m)) := by
  have hnot : ¬h.nodeCount < h.nodeCount := Nat.lt_irrefl _
  -- nobody has a side of a node that has not been made
  have hold : ∀ s,
      (carried m).count (.side h.nodeCount s) + h.stored (.side h.nodeCount s) = 0 := by
    intro s
    have hbalance := hl.balance (.side h.nodeCount s)
    rw [Heap.issued, if_neg hnot, carried_add, carried_singleton, Multiset.count_add] at hbalance
    omega
  have hstored : ∀ r, (h.share op cs).stored r =
      h.stored r + if r = .promise cs then 1 else 0 := by
    intro r
    have hsum : ∑ n ∈ range h.nodeCount, ((h.share op cs).nodes n).stored r =
        ∑ n ∈ range h.nodeCount, (h.nodes n).stored r := by
      refine Finset.sum_congr rfl fun n hn => ?_
      rw [Heap.share, Heap.setNode]
      exact congrArg (fun node : ProtectedPromise V => node.stored r)
        (Function.update_of_ne (Nat.ne_of_lt (Finset.mem_range.mp hn)) _ _)
    have hnew : ((h.share op cs).nodes h.nodeCount).stored r =
        if r = .promise cs then 1 else 0 := by
      simp only [Heap.share, Heap.setNode, Function.update_self, ProtectedPromise.stored,
        Option.map_some, Option.some.injEq, eq_comm]
    change _ + ∑ n ∈ range (h.nodeCount + 1), ((h.share op cs).nodes n).stored r = _
    rw [Finset.sum_range_succ, hsum, hnew, Heap.stored, ← Nat.add_assoc]
    rfl
  refine ⟨fun r => ?_, fun cs' => ?_, fun n s hslot => ?_, fun n hn => ?_⟩
  · have hr := hl.balance r
    rw [carried_add, carried_singleton, Multiset.count_add] at hr
    rw [hstored, carried_add, carried_add, carried_singleton, carried_singleton,
      Multiset.count_add, Multiset.count_add]
    simp only [Res.carrier, Multiset.count_singleton] at hr ⊢
    -- the two sides are new, and the promise moves into the node
    by_cases hnew : ∃ s, r = .side h.nodeCount s
    · obtain ⟨s, rfl⟩ := hnew
      have hs := hold s
      have hissued : (h.share op cs).issued (.side h.nodeCount s) = 1 := if_pos (Nat.lt_succ_self _)
      have hspent : (h.share op cs).spent (.side h.nodeCount s) = 0 := by
        simp only [Heap.spent, Heap.share, Heap.setNode, Function.update_self]
        rfl
      rw [hissued, hspent]
      cases s <;> simp <;> omega
    · have hne : ∀ s, r ≠ .side h.nodeCount s := fun s he => hnew ⟨s, he⟩
      have hsame : (h.share op cs).issued r = h.issued r ∧ (h.share op cs).spent r = h.spent r := by
        cases r with
        | side n s =>
          have hn : n ≠ h.nodeCount := fun he => hne s (he ▸ rfl)
          refine ⟨if_congr ?_ rfl rfl, ?_⟩
          · change n < h.nodeCount + 1 ↔ _
            omega
          · simp only [Heap.spent, Heap.share, Heap.setNode, Function.update_of_ne hn]
        | _ => exact ⟨rfl, rfl⟩
      rw [hsame.1, hsame.2, if_neg (hne _), if_neg (hne _)]
      omega
  · refine (hl.state cs').congr fun r hr => ?_
    rw [count_add_of_ne (by rintro rfl; cases hr), count_add_of_ne (by rintro rfl; cases hr),
      count_add_of_ne (by rintro rfl; cases hr)]
  · simp only [Heap.share, Heap.setNode] at hslot
    rw [hstored]
    by_cases hn : n = h.nodeCount
    · subst hn
      rw [Function.update_self] at hslot
      exact absurd rfl hslot
    · rw [Function.update_of_ne hn] at hslot
      have hs := hl.slot n s hslot
      rw [count_add_of_ne (by simp)] at hs
      rw [count_add_of_ne (by simp [hn]), count_add_of_ne (by simp [hn]), if_neg (by simp)]
      exact hs
  · have hlt : h.nodeCount < n := hn
    simp only [Heap.share, Heap.setNode, Function.update_of_ne (Nat.ne_of_gt hlt)]
    exact hl.fresh n (Nat.le_of_lt hlt)

/-- The side of who begins to arrive: its value has been stored, if it is stored at all. -/
theorem Ledger.beginArrive {s : Side} (hl : Ledger h ({.side n s} + m))
    {slot : Side → Option (Val V)} (hother : ∀ s', s' ≠ s → slot s' = (h.nodes n).slot s') :
    Ledger (h.setNode n { h.nodes n with slot }) ({.arriving n s} + m) := by
  have hn : n < h.nodeCount := hl.lt_nodeCount (s := s) (.inl (by simp))
  have hle : ∀ n' s', ({.arriving n s} + m).count (.side n' s') ≤
      ({.side n s} + m).count (.side n' s') := by
    intro n' s'
    rw [count_add_of_ne (by simp), Multiset.count_add]
    omega
  refine hl.setNode hn (fun r => ?_) (fun r hr => ?_) (fun n' s' _ => hle n' s') (fun s' => ?_)
  · rw [carried_add, carried_add, carried_singleton, carried_singleton]
    rfl
  · rw [count_add_of_ne (by rintro rfl; exact hr rfl),
      count_add_of_ne (by rintro rfl; exact hr rfl)]
  · by_cases hs : s' = s
    · subst hs
      -- the side that stores holds the only share of its own slot
      right
      have hbalance := hl.balance (.side n s')
      have hissued := Ledger.issued_le h (.side n s')
      rw [count_carried_side, count_add_self] at hbalance
      rw [count_add_of_ne (by simp)]
      omega
    · exact .inl (hother s' hs).symm

theorem setNode_self (h : Heap V ρ) (n : ℕ) : h.setNode n (h.nodes n) = h := by
  rw [Heap.setNode, Function.update_eq_self]

/-- The same where nothing is stored. -/
theorem Ledger.skipStore {s : Side} (hl : Ledger h ({.side n s} + m)) :
    Ledger h ({.arriving n s} + m) := by
  have hskip := hl.beginArrive (fun _ _ => rfl : ∀ s', s' ≠ s → (h.nodes n).slot s' = _)
  exact (setNode_self h n) ▸ hskip

/-- A callback has arrived, and is to set the promise if `p`. -/
theorem Ledger.arrive {s : Side} {x : Res} {v : Val V} {state : ℕ} {p : Prop} [Decidable p]
    (hl : Ledger h ({x} + m)) (hx : x = .side n s ∨ x = .arriving n s) :
    Ledger (h.setNode n { h.nodes n with
        state, arrivals := (h.nodes n).arrivals ++ [(s, v)] })
      ((if p then {.setting n} else 0) + m) := by
  have hn : n < h.nodeCount := by
    refine hl.lt_nodeCount (s := s) ?_
    obtain rfl | rfl := hx
    · exact .inl (by simp)
    · exact .inr (by simp)
  have hcarrier : x.carrier = some (.side n s) := by
    obtain rfl | rfl := hx <;> rfl
  have hxs : x.state = none := by
    obtain rfl | rfl := hx <;> rfl
  refine hl.setNode hn (fun r => ?_) (fun r hr => ?_) (fun n' s' _ => ?_) fun s' => .inl rfl
  · have hzero : carried (if p then {Res.setting n} else 0) = 0 := by
      split
      · exact carried_singleton _
      · rfl
    rw [carried_add, carried_add, hzero, carried_singleton, hcarrier]
    change (0 + carried m).count r + (h.nodes n).stored r + _ =
      ({Res.side n s} + carried m).count r + (h.nodes n).stored r + _
    rw [zero_add, Multiset.count_add, Multiset.count_singleton]
    cases r with
    -- the side is spent by its arrival
    | side n' s' =>
      simp only [ProtectedPromise.spent, ProtectedPromise.arrived, List.map_append, List.map_cons,
        List.map_nil, List.count_append, List.count_singleton, beq_iff_eq, Res.side.injEq]
      by_cases hn' : n' = n
      · by_cases hs : s' = s
        · simp only [hn', hs, and_self, if_true]
          omega
        · simp only [hn', hs, and_false, if_true, if_false, Ne.symm hs]
          omega
      · simp only [hn', false_and, if_false]
        omega
    | _ =>
      rw [if_neg (by simp)]
      simp only [ProtectedPromise.spent]
      omega
  · rw [count_if_add_of_ne (by rintro rfl; exact hr rfl), count_add_of_ne]
    rintro rfl
    exact hr hxs
  · rw [count_if_add_of_ne (by simp), Multiset.count_add]
    omega

/-- `std::move(state->promise)`. -/
theorem Ledger.take (hl : Ledger h ({.setting n} + m)) (hp : (h.nodes n).promise = some cs) :
    Ledger (h.setNode n { h.nodes n with promise := none }) ({.promise cs} + m) := by
  have hn : n < h.nodeCount := by
    by_contra hle
    rw [hl.fresh n (Nat.le_of_not_lt hle)] at hp
    cases hp
  refine hl.setNode hn (fun r => ?_) (fun r hr => ?_) (fun n' s' _ => ?_) fun s' => .inl rfl
  · have hzero : carried {Res.setting n} = 0 := carried_singleton _
    have hnew : ProtectedPromise.stored { h.nodes n with promise := none } r = 0 :=
      if_neg (by simp)
    -- the promise moves from the node to whoever sets it
    have hold : (h.nodes n).stored r = if r = .promise cs then 1 else 0 := by
      simp only [ProtectedPromise.stored, hp, Option.map_some, Option.some.injEq, eq_comm]
    rw [carried_add, carried_add, hzero, hnew, hold, carried_singleton]
    simp only [Res.carrier, Multiset.count_add, Multiset.count_singleton, Multiset.count_zero]
    change _ + (h.nodes n).spent n r = _
    omega
  · rw [count_add_of_ne (by rintro rfl; exact hr rfl),
      count_add_of_ne (by rintro rfl; exact hr rfl)]
  · rw [count_add_of_ne (by simp), count_add_of_ne (by simp)]

/-- The ledger does not count who is about to set the promise of a node. -/
theorem Ledger.drop (hl : Ledger h ({.setting n} + m)) : Ledger h m := by
  refine ⟨fun r => ?_, fun cs => (hl.state cs).drop (by simp [Res.state]), fun n s hslot => ?_,
    hl.fresh⟩
  · have hzero : carried {Res.setting n} = 0 := carried_singleton _
    have hr := hl.balance r
    rwa [carried_add, hzero, zero_add] at hr
  · have hs := hl.slot n s hslot
    rwa [count_add_of_ne (by simp)] at hs

/-- The words of a node that the ledger is not about. -/
theorem Ledger.setNodeState (hl : Ledger h m) (state : ℕ) :
    Ledger (h.setNode n { h.nodes n with state }) m := by
  have hsame : ∀ n', ((h.setNode n { h.nodes n with state }).nodes n').promise =
      (h.nodes n').promise ∧ ((h.setNode n { h.nodes n with state }).nodes n').slot =
      (h.nodes n').slot ∧ ((h.setNode n { h.nodes n with state }).nodes n').arrivals =
      (h.nodes n').arrivals := by
    intro n'
    simp only [Heap.setNode]
    by_cases hc : n' = n
    · subst hc
      rw [Function.update_self]
      exact ⟨rfl, rfl, rfl⟩
    · rw [Function.update_of_ne hc]
      exact ⟨rfl, rfl, rfl⟩
  -- the promises are where they were
  have hstored : ∀ r, (h.setNode n { h.nodes n with state }).stored r = h.stored r := by
    intro r
    refine congrArg (_ + ·) (Finset.sum_congr rfl fun n' _ => ?_)
    rw [ProtectedPromise.stored, (hsame n').1, ProtectedPromise.stored]
  refine ⟨fun r => ?_, hl.state, fun n' s hslot => ?_, fun n' hn' => ?_⟩
  · have hspent : (h.setNode n { h.nodes n with state }).spent r = h.spent r := by
      cases r with
      | side n' s => rw [Heap.spent, ProtectedPromise.arrived, (hsame n').2.2]; rfl
      | _ => rfl
    rw [hstored, hspent]
    exact hl.balance r
  · rw [hstored]
    rw [(hsame n').2.1] at hslot
    exact hl.slot n' s hslot
  · rw [(hsame n').1]
    exact hl.fresh n' hn'

end Moves

/-! ## The ledger is kept -/

/-- What the thread has after a step, and those it has left something to. -/
def Out.res (out : Out V ρ) : Multiset Res := resources out.now + resources out.later

section Steps

variable {h : Heap V ρ} {R : Multiset Res} {out : Out V ρ}

/-- The order in which the resources are listed is of no interest. -/
theorem Ledger.perm {m m' : Multiset Res} (hl : Ledger h m) (hm : m = m') : Ledger h m' := hm ▸ hl

@[simp] theorem submit_heap (h : Heap V ρ) (rt : Runtime ρ) (i : Instr V ρ) :
    (submit h rt i).heap = h := by
  cases rt <;> rfl

@[simp] theorem submit_res (h : Heap V ρ) (rt : Runtime ρ) (i : Instr V ρ) :
    resources (submit h rt i).now + resources (submit h rt i).later = i.res := by
  cases rt <;> simp [submit]

theorem Ledger.evalStep {k : Cont V ρ} (hl : Ledger h ({k.res} + R)) (e : Expr V ρ) :
    Ledger (evalStep h k e).heap ((evalStep h k e).res + R) := by
  cases e with
  | value v => exact hl.perm (by simp [Future.evalStep, Out.res, Instr.res])
  | contract =>
    refine (hl.contract .inline .contract).perm ?_
    simp only [Future.evalStep, Out.res, resources_cons, resources_nil, Instr.res, add_zero]
    abel
  | ready e => exact hl.perm (by simp [Future.evalStep, Out.res, Instr.res, Cont.res])
  | spawn rt user =>
    simp only [Future.evalStep, submit_heap]
    refine (hl.contract rt (.spawn rt user)).perm ?_
    have hsubmit := submit_res (h.contract rt (.spawn rt user)) rt
      (.task ⟨h.size, rt, none⟩ user (.set h.size))
    rw [Instr.res, Cont.res] at hsubmit
    rw [Out.res, resources_append, resources_cons, resources_nil, ← hsubmit]
    simp only [Instr.res]
    abel
  | pipe op e => exact hl.perm (by simp [Future.evalStep, Out.res, Instr.res, Cont.res])
  | concur op e₁ e₂ => exact hl.perm (by simp [Future.evalStep, Out.res, Instr.res, Cont.res])

theorem Ledger.pipeStep {k : Cont V ρ} {cs : ℕ} (hl : Ledger h ({k.res} + R))
    (hheld : h.held cs = true) (op : Pipe ρ (Val V → Expr V ρ)) :
    Ledger (pipeStep h op k cs).heap ((pipeStep h op k cs).res + R) := by
  have hlt := (hl.not_deleted_of_held hheld).1
  have hcontract : ∀ rt, Ledger (((h.touch cs).contract rt (.pipe op cs)).release cs)
      ({.consume cs} + ({.promise h.size} + ({k.res} + R))) := by
    intro rt
    refine ((hl.touch cs).contract rt (.pipe op cs)).release ?_
    change update h.held h.size true cs = true
    rw [Function.update_of_ne (Nat.ne_of_lt hlt)]
    exact hheld
  cases op with
  | via rt =>
    refine ((hl.touch cs).setRuntime hlt rt).perm ?_
    simp [Future.pipeStep, Out.res, Instr.res]
  | _ =>
    refine (hcontract _).perm ?_
    simp only [Future.pipeStep, Out.res, resources_cons, resources_nil, Instr.res, Callback.res,
      add_zero]
    abel

theorem Ledger.concurStep {k : Cont V ρ} {cs₁ cs₂ : ℕ} (hl : Ledger h ({k.res} + R))
    (h₁ : h.held cs₁ = true) (h₂ : h.held cs₂ = true) (hne : cs₁ ≠ cs₂) (op : Concur) :
    Ledger (concurStep h op k cs₁ cs₂).heap ((concurStep h op k cs₁ cs₂).res + R) := by
  have hlt₁ := (hl.not_deleted_of_held h₁).1
  have hlt₂ := (hl.not_deleted_of_held h₂).1
  have hshare := (hl.contract .inline (.concur op cs₁ cs₂)).share op
  have hfirst : ((h.contract .inline (.concur op cs₁ cs₂)).share op h.size).held cs₁ = true := by
    change update h.held h.size true cs₁ = true
    rw [Function.update_of_ne (Nat.ne_of_lt hlt₁)]
    exact h₁
  have hsecond : (((h.contract .inline (.concur op cs₁ cs₂)).share op h.size).release cs₁).held
      cs₂ = true := by
    change update (update h.held h.size true) cs₁ false cs₂ = true
    rw [Function.update_of_ne (Ne.symm hne), Function.update_of_ne (Nat.ne_of_lt hlt₂)]
    exact h₂
  refine ((hshare.release hfirst).release hsecond).perm ?_
  simp only [Future.concurStep, Out.res, resources_cons, resources_nil, Instr.res, Callback.res,
    add_zero, Heap.contract, Heap.setState]
  abel

/-- What becomes of a value, unless the thread is stuck. -/
inductive RetMoves (h : Heap V ρ) : Val V → Cont V ρ → Out V ρ → Prop
  | set (v : Val V) (p : ℕ) : RetMoves h v (.set p) ⟨h, [.produce p v], []⟩
  | setOk (v : Val V) (p : ℕ) : RetMoves h v (.setOk p) ⟨h, [.produce p (.ok v)], []⟩
  | consume {cs : ℕ} (hheld : h.held cs = true) (cb : Callback V ρ) :
      RetMoves h (.future cs) (.consume cb) ⟨h.release cs, [.consume cs cb], []⟩
  | ready (v : Val V) (k : Cont V ρ) : RetMoves h v (.ready k)
      ⟨h.contract .inline (.ready v), [.produce h.size v, .ret (.future h.size) k], []⟩
  | pipe {cs : ℕ} (hheld : h.held cs = true) (op : Pipe ρ (Val V → Expr V ρ)) (k : Cont V ρ) :
      RetMoves h (.future cs) (.pipe op k) (pipeStep h op k cs)
  | concurFst (v : Val V) (op : Concur) (e₂ : Expr V ρ) (k : Cont V ρ) :
      RetMoves h v (.concurFst op e₂ k) ⟨h, [.eval e₂ (.concurSnd op v k)], []⟩
  | concurSnd {c₁ c₂ : ℕ} (h₁ : h.held c₁ = true) (h₂ : h.held c₂ = true) (hne : c₁ ≠ c₂)
      (op : Concur) (k : Cont V ρ) :
      RetMoves h (.future c₂) (.concurSnd op (.future c₁) k) (concurStep h op k c₁ c₂)

theorem retMoves_of_step {k : Cont V ρ} {v : Val V} (hstep : retStep h v k = some out) :
    RetMoves h v k out := by
  cases k with
  | consume cb =>
    simp only [Future.retStep] at hstep
    split at hstep
    · split at hstep
      · rename_i hheld
        obtain rfl := Option.some.inj hstep
        exact .consume hheld cb
      · cases hstep
    · cases hstep
  | pipe op k =>
    simp only [Future.retStep] at hstep
    split at hstep
    · split at hstep
      · rename_i hheld
        obtain rfl := Option.some.inj hstep
        exact .pipe hheld op k
      · cases hstep
    · cases hstep
  | concurSnd op v₁ k =>
    simp only [Future.retStep] at hstep
    split at hstep
    · split at hstep
      · rename_i hheld
        obtain rfl := Option.some.inj hstep
        exact .concurSnd hheld.1 hheld.2.1 hheld.2.2 op k
      · cases hstep
    · cases hstep
  | set p =>
    obtain rfl := Option.some.inj hstep
    exact .set v p
  | setOk p =>
    obtain rfl := Option.some.inj hstep
    exact .setOk v p
  | ready k =>
    obtain rfl := Option.some.inj hstep
    exact .ready v k
  | concurFst op e₂ k =>
    obtain rfl := Option.some.inj hstep
    exact .concurFst v op e₂ k

/-- The rendezvous calls the callback with the result and then deletes the contract state. -/
inductive RendezvousMoves (h : Heap V ρ) (cs : ℕ) : Out V ρ → Prop
  | call {cb : Callback V ρ} {v : Val V} {o : Out V ρ} (hcb : (h.states cs).callback_ = some cb)
      (hv : (h.states cs).result_ = some v)
      (ho : callback ((h.touch cs).setState cs
        { h.states cs with calls := (h.states cs).calls ++ [v] }) cb v = some o) :
      RendezvousMoves h cs { o with now := o.now ++ [.delete cs] }
  | crash (hnone : (h.states cs).callback_ = none ∨ (h.states cs).result_ = none) :
      RendezvousMoves h cs ⟨h.crash, [], []⟩

theorem rendezvousMoves_of_step {cs : ℕ} (hstep : rendezvousStep h cs = some out) :
    RendezvousMoves h cs out := by
  unfold Future.rendezvousStep at hstep
  dsimp only at hstep
  split at hstep
  · rename_i cb v hcb hv
    obtain ⟨o, ho, rfl⟩ := Option.map_eq_some_iff.mp hstep
    exact .call hcb hv ho
  · rename_i hno
    obtain rfl := Option.some.inj hstep
    refine .crash (or_iff_not_imp_left.mpr fun hcb => ?_)
    obtain ⟨cb, hcb⟩ := Option.ne_none_iff_exists'.mp hcb
    by_contra hv
    obtain ⟨v, hv⟩ := Option.ne_none_iff_exists'.mp hv
    exact hno cb v hcb hv

theorem Ledger.retStep {k : Cont V ρ} {v : Val V} (hl : Ledger h ({k.res} + R))
    (hstep : retStep h v k = some out) : Ledger out.heap (out.res + R) := by
  cases retMoves_of_step hstep with
  | set | setOk | concurFst => exact hl.perm (by simp [Out.res, Instr.res, Cont.res])
  | consume hheld cb =>
    refine (hl.release hheld).perm ?_
    simp only [Out.res, resources_cons, resources_nil, Instr.res, Cont.res, add_zero]
    abel
  | ready v k =>
    refine (hl.contract .inline (.ready v)).perm ?_
    simp only [Out.res, resources_cons, resources_nil, Instr.res, Cont.res, add_zero]
    abel
  | pipe hheld op k => exact Ledger.pipeStep (k := k) hl hheld op
  | concurSnd h₁ h₂ hne op k => exact Ledger.concurStep (k := k) hl h₁ h₂ hne op

theorem Ledger.pipeCallback {rt : Runtime ρ} {promise : ℕ} {v : Val V}
    {op : Pipe ρ (Val V → Expr V ρ)} (hl : Ledger h ({.promise promise} + R))
    (hstep : pipeCallback h rt promise v op = some out) : Ledger out.heap (out.res + R) := by
  -- a task takes the promise along, wherever it is submitted
  have hsubmit : ∀ i : Instr V ρ, i.res = {.promise promise} →
      Ledger (submit h rt i).heap ((submit h rt i).res + R) := by
    intro i hi
    rw [submit_heap, Out.res, submit_res, hi]
    exact hl
  have hproduce : ∀ w : Val V, Ledger h (resources [Instr.produce (ρ := ρ) promise w] + R) := by
    intro w
    exact hl.perm (by simp [Instr.res])
  cases op with
  | via rt => cases hstep
  | map user =>
    obtain rfl := Option.some.inj hstep
    exact hsubmit _ rfl
  | flatten =>
    simp only [Future.pipeCallback] at hstep
    split at hstep
    · split at hstep
      · rename_i hheld
        obtain rfl := Option.some.inj hstep
        refine (hl.release hheld).perm ?_
        simp only [Out.res, resources_cons, resources_nil, Instr.res, Callback.res, add_zero]
        abel
      · cases hstep
    · cases hstep
  | after delay =>
    obtain rfl := Option.some.inj hstep
    -- the handler takes the promise along
    have harmed : Ledger (setTimer h rt delay promise (.produce promise v)).heap _ :=
      (hproduce v).of_eq rfl rfl rfl rfl rfl rfl rfl
    exact harmed.perm (by simp [setTimer, Out.res])
  | mapOk user =>
    simp only [Future.pipeCallback] at hstep
    split at hstep <;> obtain rfl := Option.some.inj hstep
    · exact hsubmit _ rfl
    · exact (hproduce v).perm (by simp [Out.res])
  | andThen user =>
    simp only [Future.pipeCallback] at hstep
    split at hstep <;> obtain rfl := Option.some.inj hstep
    · exact hsubmit _ rfl
    · exact (hproduce v).perm (by simp [Out.res])
  | orElse user =>
    simp only [Future.pipeCallback] at hstep
    split at hstep <;> obtain rfl := Option.some.inj hstep
    · exact (hproduce v).perm (by simp [Out.res])
    · exact hsubmit _ rfl

theorem Ledger.callback {cb : Callback V ρ} {v : Val V} (hl : Ledger h ({cb.res} + R))
    (hstep : callback h cb v = some out) : Ledger out.heap (out.res + R) := by
  cases cb with
  | root r =>
    obtain rfl := Option.some.inj hstep
    exact (hl.run v).perm (by simp [Out.res])
  | pipe op rt promise => exact Ledger.pipeCallback hl hstep
  | forward promise =>
    obtain rfl := Option.some.inj hstep
    exact hl.perm (by simp [Out.res, Instr.res, Callback.res])
  | concur n side =>
    obtain rfl := Option.some.inj hstep
    exact hl.perm (by simp [Out.res, Instr.res, Callback.res])

theorem Ledger.rendezvousStep {cs : ℕ} (hl : Ledger h ({.rendezvous cs} + R))
    (hstep : rendezvousStep h cs = some out) : Ledger out.heap (out.res + R) := by
  obtain ⟨⟨cb, hcb⟩, ⟨v, hv⟩, -, -⟩ := hl.rendezvous_ready
  cases rendezvousMoves_of_step hstep with
  | @call cb v o hcb _ ho =>
    have hcall := (hl.touch cs).call hcb v
    refine (Ledger.callback hcall ho).perm ?_
    simp only [Out.res, resources_append, resources_cons, resources_nil, Instr.res, add_zero]
    abel
  | crash hnone =>
    rw [hcb, hv] at hnone
    simp at hnone

theorem Ledger.arriveStep {n : ℕ} {side : Side} (hl : Ledger h ({.arriving n side} + R))
    (v : Val V) : Ledger (arriveStep (ρ := ρ) h n side v).heap
      ((arriveStep (ρ := ρ) h n side v).res + R) := by
  unfold Future.arriveStep
  dsimp only
  split
  · refine (hl.arrive (p := (h.nodes n).state = side.other.bit) (.inr rfl)).perm ?_
    split <;> simp [Out.res, Instr.res]
  · refine (hl.arrive (p := (h.nodes n).state = 0) (.inr rfl)).perm ?_
    split <;> simp [Out.res, Instr.res]
  · split
    · refine (hl.arrive (p := (h.nodes n).state ≠ satisfied) (.inr rfl)).perm ?_
      split <;> simp [Out.res, Instr.res]
    · refine (hl.arrive (p := (h.nodes n).state = reportError) (.inr rfl)).perm ?_
      split <;> simp [Out.res, Instr.res]
  · refine (hl.arrive (p := (h.nodes n).state = side.other.bit) (.inr rfl)).perm ?_
    split <;> simp [Out.res, Instr.res]

theorem Ledger.setTupleStep {n : ℕ} (hl : Ledger h ({.setting n} + R)) :
    Ledger (setTupleStep (ρ := ρ) h n).heap ((setTupleStep (ρ := ρ) h n).res + R) := by
  unfold Future.setTupleStep
  dsimp only
  split
  · rename_i hp _ _
    exact (hl.take hp).perm (by simp [Out.res, Instr.res])
  · exact hl.crash.drop.perm (by simp [Out.res])

theorem Ledger.setNodeStep {n : ℕ} (hl : Ledger h ({.setting n} + R)) (v : Val V) :
    Ledger (setNodeStep (ρ := ρ) h n v).heap ((setNodeStep (ρ := ρ) h n v).res + R) := by
  unfold Future.setNodeStep
  split
  · rename_i hp
    exact (hl.take hp).perm (by simp [Out.res, Instr.res])
  · exact hl.crash.drop.perm (by simp [Out.res])

theorem Ledger.callStep {n : ℕ} {side : Side} (hl : Ledger h ({.side n side} + R)) (v : Val V) :
    Ledger (callStep (ρ := ρ) h n side v).heap ((callStep (ρ := ρ) h n side v).res + R) := by
  have hsame : ∀ w : Val V, Ledger h (resources [Instr.store (ρ := ρ) n side w] + 0 + R) := by
    intro w
    exact hl.perm (by simp [Instr.res])
  have harrive : Ledger h (resources [Instr.arrive (ρ := ρ) n side v] + 0 + R) :=
    hl.skipStore.perm (by simp [Instr.res])
  unfold Future.callStep
  cases hop : (h.nodes n).op with
  | both => exact hsame v
  | first => exact harrive
  | firstOk => exact harrive
  | bothOk =>
    dsimp only
    split
    · exact hsame v.value
    · refine (hl.arrive (v := v) (p := True) (.inl rfl)).perm ?_
      simp [Out.res, Instr.res]

/-- **The step lemma.** Whatever the other threads hold, an instruction keeps the ledger. -/
theorem Ledger.exec {i : Instr V ρ} {code : Expr V ρ} (hl : Ledger h (i.res + R))
    (hstep : exec code h i = some out) : Ledger out.heap (out.res + R) := by
  cases i with
  | eval e k =>
    obtain rfl := Option.some.inj hstep
    exact Ledger.evalStep hl e
  | ret v k => exact Ledger.retStep hl hstep
  | task i code k =>
    obtain rfl := Option.some.inj hstep
    refine Ledger.of_eq (hl.perm ?_) rfl rfl rfl rfl rfl rfl rfl
    simp [Out.res, Instr.res]
  | leaf promise =>
    obtain rfl := Option.some.inj hstep
    refine Ledger.of_eq (hl.perm ?_) rfl rfl rfl rfl rfl rfl rfl
    simp [Out.res, Instr.res, Cont.res]
  | produce cs res =>
    obtain rfl := Option.some.inj hstep
    exact ((hl.touch cs).produce res).perm (by simp [Out.res, Instr.res])
  | produced cs =>
    obtain rfl := Option.some.inj hstep
    refine (hl.touch cs).produced.perm ?_
    change (if (h.states cs).state_ = _ then _ else 0) + R = _
    simp only [Out.res]
    split <;> simp [Instr.res]
  | consume cs cb =>
    obtain rfl := Option.some.inj hstep
    have hconsume : Ledger (h.touch cs) ({.consume cs} + ({cb.res} + R)) := by
      refine (hl.touch cs).perm ?_
      rw [Instr.res, add_assoc]
    exact hconsume.consume.perm (by simp [Out.res, Instr.res])
  | consumed cs =>
    obtain rfl := Option.some.inj hstep
    refine (hl.touch cs).consumed.perm ?_
    change (if (h.states cs).state_ = _ then _ else 0) + R = _
    simp only [Out.res]
    split <;> simp [Instr.res]
  | rendezvous cs => exact Ledger.rendezvousStep hl hstep
  | delete cs =>
    obtain rfl := Option.some.inj hstep
    exact (hl.touch cs).delete_.perm (by simp [Out.res])
  | call n side v =>
    obtain rfl := Option.some.inj hstep
    exact Ledger.callStep hl v
  | store n side v =>
    obtain rfl := Option.some.inj hstep
    refine (hl.beginArrive fun s' hs => ?_).perm (by simp [Out.res, Instr.res])
    exact Function.update_of_ne hs _ _
  | arrive n side v =>
    obtain rfl := Option.some.inj hstep
    exact Ledger.arriveStep hl v
  | setTuple n =>
    obtain rfl := Option.some.inj hstep
    exact Ledger.setTupleStep hl
  | setNode n v =>
    obtain rfl := Option.some.inj hstep
    exact Ledger.setNodeStep hl v
  | fail n =>
    obtain rfl := Option.some.inj hstep
    exact (hl.setNodeState _).perm (by simp [Out.res, Instr.res])

end Steps

/-! ## Every reachable state -/

/-- What a step leaves to be done. -/
abbrev Out.instrs (out : Out V ρ) : Multiset (Instr V ρ) :=
  (out.now : Multiset (Instr V ρ)) + (out.later : Multiset (Instr V ρ))

def instrsOf (threads : List (List (Instr V ρ))) : Multiset (Instr V ρ) :=
  (threads.map Multiset.ofList).sum

@[simp] theorem instrsOf_nil : instrsOf ([] : List (List (Instr V ρ))) = 0 := rfl

@[simp] theorem instrsOf_cons (l : List (Instr V ρ)) (threads : List (List (Instr V ρ))) :
    instrsOf (l :: threads) = l + instrsOf threads := by
  rw [instrsOf, List.map_cons, List.sum_cons, instrsOf]

@[simp] theorem instrsOf_append (threads threads' : List (List (Instr V ρ))) :
    instrsOf (threads ++ threads') = instrsOf threads + instrsOf threads' := by
  rw [instrsOf, List.map_append, List.sum_append, instrsOf, instrsOf]

/-- What all the threads still have to do. -/
def State.instrs (s : State V ρ) : Multiset (Instr V ρ) := instrsOf s.threads

/-- When no thread has anything to do, there is nothing to be done. -/
theorem instrs_of_idle {s : State V ρ} (hidle : s.threads.all List.isEmpty = true) :
    s.instrs = 0 := by
  have hall : ∀ threads : List (List (Instr V ρ)), threads.all List.isEmpty = true →
      instrsOf threads = 0 := by
    intro threads h
    induction threads with
    | nil => rfl
    | cons l threads ih =>
      rw [List.all_cons, Bool.and_eq_true, List.isEmpty_iff] at h
      rw [instrsOf_cons, h.1, ih h.2]
      rfl
  exact hall s.threads hidle

/-- What several instructions hold. -/
def holdings (is : Multiset (Instr V ρ)) : Multiset Res := (is.map Instr.res).sum

@[simp] theorem holdings_zero : holdings (0 : Multiset (Instr V ρ)) = 0 := rfl

@[simp] theorem holdings_add (is is' : Multiset (Instr V ρ)) :
    holdings (is + is') = holdings is + holdings is' := by
  rw [holdings, Multiset.map_add, Multiset.sum_add, holdings, holdings]

@[simp] theorem holdings_singleton (i : Instr V ρ) : holdings {i} = i.res := by
  rw [holdings, Multiset.map_singleton, Multiset.sum_singleton]

@[simp] theorem holdings_coe (l : List (Instr V ρ)) : holdings (l : Multiset (Instr V ρ)) =
    resources l := by
  rw [holdings, Multiset.map_coe, Multiset.sum_coe, resources]

theorem res_le_holdings {i : Instr V ρ} {is : Multiset (Instr V ρ)} (hi : i ∈ is) :
    i.res ≤ holdings is := by
  obtain ⟨is, rfl⟩ := Multiset.exists_cons_of_mem hi
  rw [← Multiset.singleton_add, holdings_add, holdings_singleton]
  exact Multiset.le_add_right _ _

/-- The instructions of the threads other than thread `t`. -/
theorem exists_others {threads : List (List (Instr V ρ))} {t : ℕ} {x : List (Instr V ρ)}
    (hx : threads[t]? = some x) : ∃ O, instrsOf threads = x + O ∧
      ∀ y : List (Instr V ρ), instrsOf (threads.set t y) = y + O := by
  induction threads generalizing t with
  | nil => cases hx
  | cons z threads ih =>
    cases t with
    | zero =>
      obtain rfl := Option.some.inj hx
      exact ⟨instrsOf threads, instrsOf_cons _ _, fun y => instrsOf_cons y _⟩
    | succ t =>
      obtain ⟨O, hsum, hset⟩ := ih hx
      refine ⟨z + O, ?_, fun y => ?_⟩
      · rw [instrsOf_cons, hsum]
        abel
      · rw [List.set_cons_succ, instrsOf_cons, hset]
        abel

theorem instrsOf_later (later : List (Instr V ρ)) :
    instrsOf (later.map fun i => [i]) = (later : Multiset (Instr V ρ)) := by
  induction later with
  | nil => rfl
  | cons i later ih =>
    rw [List.map_cons, instrsOf_cons, ih, Multiset.coe_add, List.singleton_append]

variable {s s' : State V ρ}

/-- What a step does: a new expression is begun, or an instruction is run, beside the others. -/
theorem step_cases {a : Action V ρ} (hstep : step a s = some s') :
    (∃ e, a = .start e ∧ s'.heap = { s.heap with roots := s.heap.roots ++ [e] } ∧
      s'.instrs = {.eval e (.consume (.root s.heap.roots.length))} + s.instrs) ∨
    ∃ t code i rest out, a = .step t code ∧ s.threads[t]? = some (i :: rest) ∧
      exec code s.heap i = some out ∧ s'.heap = out.heap ∧
      ∃ O, s.instrs = {i} + O ∧ s'.instrs = out.instrs + O := by
  cases a with
  | start e =>
    obtain rfl := Option.some.inj hstep
    refine .inl ⟨e, rfl, rfl, ?_⟩
    rw [State.instrs, instrsOf_append, instrsOf_cons, instrsOf_nil, add_zero,
      Multiset.coe_singleton, add_comm, State.instrs]
  | step t code =>
    simp only [step] at hstep
    split at hstep
    · rename_i i rest ht
      obtain ⟨out, hout, rfl⟩ := Option.map_eq_some_iff.mp hstep
      obtain ⟨O, hsum, hset⟩ := exists_others ht
      refine .inr ⟨t, code, i, rest, out, rfl, ht, hout, rfl, rest + O, ?_, ?_⟩
      · rw [State.instrs, hsum, ← Multiset.cons_coe, ← Multiset.singleton_add, add_assoc]
      · rw [State.instrs, instrsOf_append, hset, instrsOf_later, ← Multiset.coe_add, Out.instrs]
        abel
    · cases hstep

theorem ledger_of_reachable (hs : (machine V ρ).Reachable s) :
    Ledger s.heap (holdings s.instrs) := by
  refine hs.invariant (I := fun s => Ledger s.heap (holdings s.instrs)) (fun s hinit => ?_)
    fun a s s' hl _ hstep => ?_
  · obtain rfl := hinit
    refine ⟨fun r => ?_, fun cs => ?_, fun n s hslot => absurd rfl hslot, fun n _ => rfl⟩
    · cases r <;> rfl
    · constructor <;> simp [State.instrs, Heap.empty, ContractState.none_, ContractState.consumer,
        ContractState.producer, Heap.issued]
  · obtain ⟨e, -, hheap, hnew⟩ | ⟨t, code, i, rest, out, -, -, hout, hheap, O, hold, hnew⟩ :=
      step_cases hstep
    · rw [hheap, hnew, holdings_add, holdings_singleton]
      exact hl.start e
    · rw [hold, holdings_add, holdings_singleton] at hl
      rw [hheap, hnew, holdings_add, Out.instrs, holdings_add, holdings_coe, holdings_coe]
      exact Ledger.exec hl hout

end Exe.Future
