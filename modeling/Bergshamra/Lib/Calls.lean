import Mathlib.Logic.Relation
import Mathlib.Order.WellFounded

/-!
# Functions that call each other

A system of mutually recursive functions, seen from one call: what a call computes
once its own calls have answered, and which calls these are. Running a call takes
fuel; a call ends when some fuel is enough. It does so exactly when no endless chain
of calls starts there (`ends_iff_acc`).
-/

/-- A system of calls `C` with answers `O`. -/
structure CallSystem (C O : Type) where
  /-- One call, with the answers to the calls it makes. -/
  step : (C → Option O) → C → Option O
  /-- The calls that a call makes. -/
  callees : C → List C
  /-- It asks for nothing else. -/
  step_congr : ∀ f g c, (∀ d ∈ callees c, f d = g d) → step f c = step g c
  /-- It waits for all of them. -/
  step_isSome : ∀ f c, (step f c).isSome = true ↔ ∀ d ∈ callees c, (f d).isSome = true

namespace CallSystem

variable {C O : Type} (sys : CallSystem C O)

/-- A call with some fuel: every level of the recursion takes one. -/
def run : Nat → C → Option O
  | 0, _ => none
  | fuel + 1, c => sys.step (run fuel) c

/-- `c` calls `d`. -/
def Calls (c d : C) : Prop := d ∈ sys.callees c

/-- The answer does not change with more fuel. -/
theorem run_mono {fuel : Nat} {c : C} {o : O} (h : sys.run fuel c = some o) (more : Nat) :
    sys.run (fuel + more) c = some o := by
  induction fuel generalizing c o with
  | zero => cases h
  | succ fuel ih =>
      have hcallees : ∀ d ∈ sys.callees c, (sys.run fuel d).isSome = true := by
        apply (sys.step_isSome _ c).mp
        rw [← run, h]
        rfl
      rw [Nat.succ_add, run, ← h, run]
      refine sys.step_congr _ _ c fun d hd => ?_
      obtain ⟨o', ho'⟩ := Option.isSome_iff_exists.mp (hcallees d hd)
      rw [ih ho', ho']

/-- One fuel is enough for all the calls of a list that end. -/
theorem fuel_for_all {cs : List C} (h : ∀ c ∈ cs, ∃ fuel, (sys.run fuel c).isSome = true) :
    ∃ fuel, ∀ c ∈ cs, (sys.run fuel c).isSome = true := by
  induction cs with
  | nil => exact ⟨0, fun c hc => absurd hc List.not_mem_nil⟩
  | cons c cs ih =>
      obtain ⟨fuel₁, h₁⟩ := h c List.mem_cons_self
      obtain ⟨fuel₂, h₂⟩ := ih fun d hd => h d (List.mem_cons_of_mem c hd)
      refine ⟨fuel₁ + fuel₂, fun d hd => ?_⟩
      rcases List.mem_cons.mp hd with hd | hd
      · obtain ⟨o, ho⟩ := Option.isSome_iff_exists.mp h₁
        rw [hd, sys.run_mono ho]
        rfl
      · obtain ⟨o, ho⟩ := Option.isSome_iff_exists.mp (h₂ d hd)
        rw [Nat.add_comm, sys.run_mono ho]
        rfl

/-- **A call ends if and only if no endless chain of calls starts with it.** -/
theorem ends_iff_acc (c : C) :
    (∃ fuel, (sys.run fuel c).isSome = true) ↔ Acc (fun d c => sys.Calls c d) c := by
  constructor
  · rintro ⟨fuel, h⟩
    induction fuel generalizing c with
    | zero => cases h
    | succ fuel ih =>
        have hcallees := (sys.step_isSome _ c).mp h
        exact Acc.intro c fun d hd => ih d (hcallees d hd)
  · intro h
    induction h with
    | intro c _ ih =>
        obtain ⟨fuel, hfuel⟩ := sys.fuel_for_all ih
        exact ⟨fuel + 1, (sys.step_isSome _ c).mpr hfuel⟩

/-- What answers every call rightly from its own answers is what the calls answer. -/
theorem run_eq_of_fixed {value : C → O} (hfixed : ∀ c, sys.step (some ∘ value) c = some (value c))
    {fuel : Nat} {c : C} {o : O} (h : sys.run fuel c = some o) : o = value c := by
  induction fuel generalizing c o with
  | zero => cases h
  | succ fuel ih =>
      have hcallees : ∀ d ∈ sys.callees c, (sys.run fuel d).isSome = true := by
        apply (sys.step_isSome _ c).mp
        rw [← run, h]
        rfl
      have hsame : sys.step (sys.run fuel) c = sys.step (some ∘ value) c := by
        refine sys.step_congr _ _ c fun d hd => ?_
        obtain ⟨o', ho'⟩ := Option.isSome_iff_exists.mp (hcallees d hd)
        rw [ho', ih ho', Function.comp_apply]
      rw [run, hsame, hfixed c] at h
      exact (Option.some.inj h).symm

/-- Where every chain of calls ends, every call has its value, from some fuel on. -/
theorem run_total {value : C → O} (hfixed : ∀ c, sys.step (some ∘ value) c = some (value c))
    {c : C} (h : Acc (fun d c => sys.Calls c d) c) :
    ∃ fuel, ∀ more, sys.run (fuel + more) c = some (value c) := by
  obtain ⟨fuel, hfuel⟩ := (sys.ends_iff_acc c).mpr h
  obtain ⟨o, ho⟩ := Option.isSome_iff_exists.mp hfuel
  refine ⟨fuel, fun more => ?_⟩
  rw [sys.run_mono ho, sys.run_eq_of_fixed hfixed ho]

end CallSystem
