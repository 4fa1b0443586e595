import Mathlib

/-!
# Sums over ancestors

In a finite acyclic relation, a node with all that it depends on, and sums of weights over what
is left of these when some are taken away.
-/

namespace OurChain

open Relation

namespace Ancestry

variable {α : Type} (R : α → α → Prop) (V : Finset α)

open Classical in
noncomputable def above (x : α) : Finset α := V.filter (ReflTransGen R x)

variable {R V} in
theorem mem_above : a ∈ above R V x ↔ a ∈ V ∧ ReflTransGen R x a := by
  simp [above]

variable {R V} in
theorem card_above_lt (hacyclic : ∀ x, ¬ TransGen R x x) (hx : x ∈ V) (h : TransGen R x a) :
    (above R V a).card < (above R V x).card := by
  apply Finset.card_lt_card
  refine Finset.ssubset_iff_subset_ne.mpr ⟨?_, ?_⟩
  · intro b hb
    obtain ⟨hbV, hab⟩ := mem_above.mp hb
    exact mem_above.mpr ⟨hbV, h.to_reflTransGen.trans hab⟩
  · intro heq
    have hxa : x ∈ above R V a := heq ▸ mem_above.mpr ⟨hx, .refl⟩
    exact hacyclic x (h.trans_left (mem_above.mp hxa).2)

variable [DecidableEq α]

noncomputable def rest (B : List α) (x : α) : Finset α := (above R V x).filter (· ∉ B)

variable {R V}

theorem mem_rest {B : List α} : a ∈ rest R V B x ↔ (a ∈ V ∧ ReflTransGen R x a) ∧ a ∉ B := by
  rw [rest, Finset.mem_filter, mem_above]

theorem rest_eq_above {B : List α} (h : ∀ a ∈ B, ¬ ReflTransGen R x a) :
    rest R V B x = above R V x := by
  refine Finset.filter_true_of_mem fun a ha hB => ?_
  exact h a hB (mem_above.mp ha).2

section
open Classical

theorem sum_rest_append (w : α → ℤ) {B P : List α} (hP : P.Nodup) (hnew : ∀ a ∈ P, a ∉ B)
    (hin : ∀ a ∈ P, a ∈ V) :
    ∑ a ∈ rest R V (B ++ P) x, w a =
      ∑ a ∈ rest R V B x, w a - ((P.filter fun a => ReflTransGen R x a).map w).sum := by
  have hpart : ((P.filter fun a => ReflTransGen R x a).map w).sum =
      ∑ a ∈ (rest R V B x).filter (· ∈ P), w a := by
    rw [← List.sum_toFinset w (hP.filter _)]
    refine Finset.sum_congr ?_ fun _ _ => rfl
    ext a
    simp only [List.mem_toFinset, List.mem_filter, decide_eq_true_eq, Finset.mem_filter, mem_rest]
    constructor
    · rintro ⟨haP, ha⟩
      exact ⟨⟨⟨hin a haP, ha⟩, hnew a haP⟩, haP⟩
    · rintro ⟨⟨⟨-, ha⟩, -⟩, haP⟩
      exact ⟨haP, ha⟩
  have hleft : rest R V (B ++ P) x = (rest R V B x).filter (· ∉ P) := by
    ext a
    simp only [mem_rest, Finset.mem_filter, List.mem_append, not_or, and_assoc]
  rw [hpart, hleft, ← Finset.sum_filter_add_sum_filter_not (rest R V B x) (· ∈ P) w]
  ring

end

theorem sum_rest_le {w : α → ℤ} (hw : ∀ a, 0 ≤ w a) (B : List α) (x : α) :
    ∑ a ∈ rest R V B x, w a ≤ ∑ a ∈ above R V x, w a :=
  Finset.sum_le_sum_of_subset_of_nonneg (Finset.filter_subset _ _) fun a _ _ => hw a

theorem sum_map_eq_sum_rest (w : α → ℤ) {B P : List α} (hP : P.Nodup)
    (h : ∀ a, a ∈ P ↔ a ∈ rest R V B x) :
    (P.map w).sum = ∑ a ∈ rest R V B x, w a := by
  rw [← List.sum_toFinset w hP]
  refine Finset.sum_congr ?_ fun _ _ => rfl
  ext a
  rw [List.mem_toFinset, h]

end Ancestry

end OurChain
