import Mathlib

/-!
# Interleaved components

A step function on labels, its runs, and the two rules for them: what every step
preserves holds along a run, and a measure that some step lowers leads to the goal.
A system of finitely many components is a function from their names; a total over the
components changes with one of them.
-/

namespace OurChain

namespace Interleaving

section Runs
variable {σ α : Type} {step : α → σ → Option σ}

def run (step : α → σ → Option σ) : List α → σ → Option σ
  | [], s => some s
  | a :: rest, s => (step a s).bind (run step rest)

/-- What every step hands on to the labels that remain. -/
theorem run_induct {I : List α → σ → Prop}
    (hstep : ∀ {a rest s s'}, I (a :: rest) s → step a s = some s' → I rest s')
    (hs : I labels s) (h : run step labels s = some s') : I [] s' := by
  induction labels generalizing s with
  | nil =>
    cases h
    exact hs
  | cons a rest ih =>
    obtain ⟨s₁, hfirst, hrest⟩ := Option.bind_eq_some_iff.mp h
    exact ih (hstep hs hfirst) hrest

theorem run_preserves {I : σ → Prop} (hstep : ∀ {a s s'}, I s → step a s = some s' → I s')
    (hs : I s) (h : run step labels s = some s') : I s' :=
  run_induct (I := fun _ => I) hstep hs h

theorem run_reaches {I goal : σ → Prop} (measure : σ → Nat)
    (hprogress : ∀ s, I s → goal s ∨ ∃ a s', step a s = some s' ∧ I s' ∧ measure s' < measure s)
    (s : σ) (hs : I s) : ∃ labels s', run step labels s = some s' ∧ goal s' := by
  induction hn : measure s using Nat.strong_induction_on generalizing s with
  | _ n ih =>
    rcases hprogress s hs with hgoal | ⟨a, s₁, hfirst, hs₁, hlt⟩
    · exact ⟨[], s, rfl, hgoal⟩
    · obtain ⟨labels, s', hrun, hgoal⟩ := ih _ (hn ▸ hlt) s₁ hs₁ rfl
      refine ⟨a :: labels, s', ?_, hgoal⟩
      rw [run, hfirst]
      exact hrun

end Runs

section Totals
variable {ι σ M : Type} [Fintype ι] [AddCommMonoid M]

def total (f : σ → M) (x : ι → σ) : M := ∑ i, f (x i)

theorem total_congr {f : σ → M} {x y : ι → σ} (h : ∀ i, f (x i) = f (y i)) : total f x = total f y :=
  Finset.sum_congr rfl fun i _ => h i

theorem total_update [DecidableEq ι] (f : σ → M) (x : ι → σ) (i : ι) (y : σ) :
    total f (Function.update x i y) + f (x i) = total f x + f y := by
  have hrest : ∑ j ∈ Finset.univ.erase i, f (Function.update x i y j) =
      ∑ j ∈ Finset.univ.erase i, f (x j) :=
    Finset.sum_congr rfl fun j hj => by rw [Function.update_of_ne (Finset.ne_of_mem_erase hj)]
  have hnew : total f (Function.update x i y) = f y + ∑ j ∈ Finset.univ.erase i, f (x j) := by
    rw [total, ← Finset.add_sum_erase _ _ (Finset.mem_univ i), hrest, Function.update_self]
  have hold : total f x = f (x i) + ∑ j ∈ Finset.univ.erase i, f (x j) :=
    (Finset.add_sum_erase _ _ (Finset.mem_univ i)).symm
  rw [hnew, hold, add_right_comm, add_comm (f y), add_right_comm]

theorem le_total (f : σ → Nat) (x : ι → σ) (i : ι) : f (x i) ≤ total f x :=
  Finset.single_le_sum (f := fun j => f (x j)) (fun _ _ => Nat.zero_le _) (Finset.mem_univ i)

theorem total_eq_zero (f : σ → Nat) (x : ι → σ) : total f x = 0 ↔ ∀ i, f (x i) = 0 := by
  simp [total]

end Totals

end Interleaving

end OurChain
