import Mathlib

/-!
# The sum over a finite map

The sum of an amount of the values of a finite map, and what inserting and erasing a
key do to it.
-/

namespace OurChain

open Finmap

namespace MapSum

variable {α β : Type} [DecidableEq α] (f : β → Int)

def total (m : Finmap fun _ : α => β) : Int := (m.entries.map fun e => f e.2).sum

variable {f} {m : Finmap fun _ : α => β}

omit [DecidableEq α] in
@[simp] theorem total_empty : total f (∅ : Finmap fun _ : α => β) = 0 := rfl

theorem total_of_notMem (h : a ∉ m) (b : β) : total f (m.insert a b) = f b + total f m := by
  rw [total, entries_insert_of_notMem h, Multiset.map_cons, Multiset.sum_cons, total]

theorem insert_erase (h : m.lookup a = some b) : (m.erase a).insert a b = m := by
  refine ext_lookup fun x => ?_
  by_cases hx : x = a
  · subst hx
    rw [lookup_insert, h]
  · rw [lookup_insert_of_ne _ hx, lookup_erase_ne hx]

theorem insert_of_erase (a : α) (b : β) : (m.erase a).insert a b = m.insert a b := by
  refine ext_lookup fun x => ?_
  by_cases hx : x = a
  · subst hx
    rw [lookup_insert, lookup_insert]
  · rw [lookup_insert_of_ne _ hx, lookup_insert_of_ne _ hx, lookup_erase_ne hx]

theorem total_erase (h : m.lookup a = some b) : total f m = f b + total f (m.erase a) := by
  conv_lhs => rw [← insert_erase h]
  exact total_of_notMem notMem_erase_self b

theorem total_insert (a : α) (b : β) : total f (m.insert a b) = f b + total f (m.erase a) := by
  rw [← insert_of_erase]
  exact total_of_notMem notMem_erase_self b

def Nonneg (f : β → Int) (m : Finmap fun _ : α => β) : Prop := ∀ a b, m.lookup a = some b → 0 ≤ f b

theorem Nonneg.erase (h : Nonneg f m) (a : α) : Nonneg f (m.erase a) := by
  intro x b hx
  by_cases hxa : x = a
  · subst hxa
    rw [lookup_erase] at hx
    cases hx
  · rw [lookup_erase_ne hxa] at hx
    exact h x b hx

theorem Nonneg.total (h : Nonneg f m) : 0 ≤ total f m := by
  refine Multiset.sum_nonneg fun x hx => ?_
  obtain ⟨⟨a, b⟩, he, rfl⟩ := Multiset.mem_map.mp hx
  exact h a b (mem_lookup_iff.mpr he)

theorem Nonneg.total_erase_le (h : Nonneg f m) (a : α) :
    MapSum.total f (m.erase a) ≤ MapSum.total f m := by
  cases hlookup : m.lookup a with
  | none =>
    have hsame : m.erase a = m := by
      refine ext_lookup fun x => ?_
      by_cases hx : x = a
      · subst hx
        rw [lookup_erase, hlookup]
      · rw [lookup_erase_ne hx]
    rw [hsame]
  | some b =>
    have hb := h a b hlookup
    rw [total_erase hlookup]
    exact le_add_of_nonneg_left hb

theorem Nonneg.total_insert_le (h : Nonneg f m) (a : α) (b : β) :
    MapSum.total f (m.insert a b) ≤ MapSum.total f m + f b := by
  rw [total_insert, add_comm]
  exact Int.add_le_add_right (h.total_erase_le a) _

theorem Nonneg.sum_le (h : Nonneg f m) {l : List α} (hnodup : l.Nodup) {g : α → Int}
    (hg : ∀ a ∈ l, ∃ b, m.lookup a = some b ∧ g a = f b) : (l.map g).sum ≤ MapSum.total f m := by
  induction l generalizing m with
  | nil => exact h.total
  | cons a l ih =>
    obtain ⟨ha, hnodup⟩ := List.nodup_cons.mp hnodup
    obtain ⟨b, hb, hga⟩ := hg a List.mem_cons_self
    have hrest : ∀ x ∈ l, ∃ b, (m.erase a).lookup x = some b ∧ g x = f b := by
      intro x hx
      have hne : x ≠ a := fun heq => ha (heq ▸ hx)
      rw [lookup_erase_ne hne]
      exact hg x (List.mem_cons_of_mem _ hx)
    rw [List.map_cons, List.sum_cons, hga, total_erase hb]
    exact Int.add_le_add_left (ih (h.erase a) hnodup hrest) _

end MapSum

end OurChain
