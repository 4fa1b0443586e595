import Mathlib

/-!
# Order statistics

An element of a sorted list is at least `m` if no more elements are below `m` than
stand before it, so bounds on order statistics are bounds on counts.
-/

namespace OurChain

namespace OrderStatistic

variable {α : Type} [LinearOrder α]

theorem le_getElem_iff_countP {l : List α} (hl : l.Pairwise (· ≤ ·)) (hj : j < l.length) (m : α) :
    m ≤ l[j] ↔ l.countP (· < m) ≤ j := by
  induction l generalizing j with
  | nil => cases hj
  | cons a l ih =>
    obtain ⟨ha, hl⟩ := List.pairwise_cons.mp hl
    by_cases ham : a < m
    · cases j with
      | zero => simp [ham]
      | succ j => simp [ham, ih hl (Nat.lt_of_succ_lt_succ hj)]
    · have hle : ∀ x ∈ a :: l, m ≤ x := by
        simpa [not_lt.mp ham] using fun x hx => (not_lt.mp ham).trans (ha x hx)
      have hnone : (a :: l).countP (· < m) = 0 := by
        simpa [List.countP_eq_zero] using hle
      simp [hnone, hle _ (List.getElem_mem hj)]

theorem le_sorted_iff_countP {l : List α} (hj : j < l.length) (m d : α) :
    m ≤ (l.insertionSort (· ≤ ·)).getD j d ↔ l.countP (· < m) ≤ j := by
  have hj' : j < (l.insertionSort (· ≤ ·)).length := by rwa [List.length_insertionSort]
  rw [List.getD_eq_getElem _ _ hj', le_getElem_iff_countP (List.pairwise_insertionSort _ l),
    (List.perm_insertionSort _ l).countP_eq]

def median (d : α) (l : List α) : α := (l.insertionSort (· ≤ ·)).getD (l.length / 2) d

/-- A list that loses elements, none of them replaced by a smaller one than its median, and
gains others, keeps its median or raises it. -/
theorem median_le_median {l l' : List α} (hne : l ≠ []) (hlength : l.length ≤ l'.length)
    (hcount : l'.countP (· < median d l) ≤ l.countP (· < median d l)) : median d l ≤ median d l' := by
  have hpos := List.length_pos_of_ne_nil hne
  have hself : l.countP (· < median d l) ≤ l.length / 2 :=
    (le_sorted_iff_countP (by omega) _ d).mp le_rfl
  exact (le_sorted_iff_countP (by omega) _ d).mpr
    (hcount.trans (hself.trans (Nat.div_le_div_right hlength)))

end OrderStatistic

end OurChain
