/-
One party at a time behind a flag.

A lock is a flag together with the parties that are between taking it and giving it back.
`Exclusion held holder` says that the flag is up exactly while one of them is there, and
that there is never a second. A step of one party keeps it where it is, or lets it in while
the flag is down, or lets it out and takes the flag down (`Turns`). `Owned` is the same of a
lock that knows who has it.

Nothing here is about this repository.
-/
import Mathlib.Logic.Basic

set_option autoImplicit false

namespace Exe

/-- The flag is up exactly while somebody is inside, who then is alone. -/
structure Exclusion {φ : Type*} (held : Bool) (holder : φ → Prop) : Prop where
  free : held = false → ∀ t, ¬holder t
  one : ∀ t u, holder t → holder u → t = u
  someone : held = true → ∃ t, holder t

namespace Exclusion

variable {φ : Type*} {held : Bool} {holder holder' : φ → Prop} {t : φ}

theorem held_of (h : Exclusion held holder) (ht : holder t) : held = true := by
  cases held with
  | false => exact absurd ht (h.free rfl t)
  | true => rfl

theorem keep (h : Exclusion held holder) (hiff : ∀ u, holder' u ↔ holder u) :
    Exclusion held holder' :=
  ⟨fun hfree u hu => h.free hfree u ((hiff u).mp hu),
    fun u v hu hv => h.one u v ((hiff u).mp hu) ((hiff v).mp hv),
    fun hheld => (h.someone hheld).imp fun u => (hiff u).mpr⟩

/-- What a step of a party may do to the flag: nothing, take it, or give it back. -/
inductive Turns (held held' : Bool) (inside inside' : Prop) : Prop
  | stay (hheld : held' = held) (hinside : inside' ↔ inside)
  | enter (hfree : held = false) (hheld : held' = true) (hinside : inside')
  | leave (hinside : inside) (hheld : held' = false) (houtside : ¬inside')

theorem Turns.refl {inside : Prop} : Turns held held inside inside := .stay rfl Iff.rfl

/-- One party makes its step, and the others stay where they are. -/
theorem turn {held' : Bool} (h : Exclusion held holder)
    (hturn : Turns held held' (holder t) (holder' t))
    (hiff : ∀ u, u ≠ t → (holder' u ↔ holder u)) : Exclusion held' holder' := by
  cases hturn with
  | stay hheld hinside =>
    subst hheld
    refine h.keep fun u => ?_
    by_cases hu : u = t
    · exact hu ▸ hinside
    · exact hiff u hu
  | enter hfree hheld hinside =>
    subst hfree hheld
    have honly : ∀ u, holder' u → u = t := by
      intro u hu
      by_cases hne : u = t
      · exact hne
      · exact absurd ((hiff u hne).mp hu) (h.free rfl u)
    exact ⟨fun hfree => Bool.noConfusion hfree, fun u v hu hv => by rw [honly u hu, honly v hv],
      fun _ => ⟨t, hinside⟩⟩
  | leave hinside hheld houtside =>
    subst hheld
    have hnobody : ∀ u, ¬holder' u := by
      intro u hu
      by_cases hne : u = t
      · exact houtside (hne ▸ hu)
      · exact hne (h.one u t ((hiff u hne).mp hu) hinside)
    exact ⟨fun _ => hnobody, fun u _ hu => absurd hu (hnobody u),
      fun hheld => Bool.noConfusion hheld⟩

end Exclusion

/-! ## A lock that knows who has it -/

/-- The party that is inside, if there is one, is the owner. -/
def Owned {φ : Type*} (owner : Option φ) (holder : φ → Prop) : Prop :=
  ∀ t, owner = some t ↔ holder t

namespace Owned

variable {φ : Type*} {owner owner' : Option φ} {holder holder' : φ → Prop} {t u : φ}

theorem one (h : Owned owner holder) (ht : holder t) (hu : holder u) : t = u :=
  Option.some.inj (((h t).mpr ht).symm.trans ((h u).mpr hu))

theorem free (h : Owned owner holder) (hfree : owner = none) : ¬holder t := by
  intro ht
  rw [(h t).mpr ht] at hfree
  cases hfree

theorem keep (h : Owned owner holder) (hiff : ∀ u, holder' u ↔ holder u) : Owned owner holder' :=
  fun u => (h u).trans (hiff u).symm

/-- What a step of party `t` may do: nothing to the lock, take it, or give it back. -/
inductive Turns (t : φ) (owner owner' : Option φ) (inside inside' : Prop) : Prop
  | stay (howner : owner' = owner) (hinside : inside' ↔ inside)
  | enter (hfree : owner = none) (howner : owner' = some t) (hinside : inside')
  | leave (hinside : inside) (howner : owner' = none) (houtside : ¬inside')

/-- One party makes its step, and the others stay where they are. -/
theorem turn (h : Owned owner holder) (hturn : Turns t owner owner' (holder t) (holder' t))
    (hiff : ∀ u, u ≠ t → (holder' u ↔ holder u)) : Owned owner' holder' := by
  intro u
  cases hturn with
  | stay howner hinside =>
    rw [howner, h u]
    by_cases hu : u = t
    · exact hu ▸ hinside.symm
    · exact (hiff u hu).symm
  | enter hfree howner hinside =>
    rw [howner]
    by_cases hu : u = t
    · subst hu
      exact iff_of_true rfl hinside
    · rw [hiff u hu]
      exact iff_of_false (fun he => hu (Option.some.inj he).symm) (h.free hfree)
  | leave hinside howner houtside =>
    rw [howner]
    refine iff_of_false (fun he => by cases he) fun hu => ?_
    by_cases hut : u = t
    · exact houtside (hut ▸ hu)
    · exact hut (h.one ((hiff u hut).mp hu) hinside)

end Owned

end Exe
