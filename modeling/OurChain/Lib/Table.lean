import Mathlib

/-!
# Tables of keyed records

A list of records that are looked up by a key each record carries, as an index
of heap objects is: rows are added, changed in place and removed.
-/

namespace OurChain

namespace Table

variable {α κ : Type} [DecidableEq κ] (key : α → κ)

def find (t : List α) (k : κ) : Option α := t.find? fun a => key a = k

def add (a : α) (t : List α) : List α := if (find key t (key a)).isSome then t else t ++ [a]

def modify (k : κ) (f : α → α) (t : List α) : List α := t.map fun a => if key a = k then f a else a

def erase (k : κ) (t : List α) : List α := t.filter fun a => key a ≠ k

variable {key} {t : List α}

theorem find_key (h : find key t k = some a) : key a = k := by
  simpa using List.find?_some h

theorem find_mem (h : find key t k = some a) : a ∈ t := List.mem_of_find?_eq_some h

theorem find_of_mem (hnodup : (t.map key).Nodup) (ha : a ∈ t) : find key t (key a) = some a := by
  induction t with
  | nil => cases ha
  | cons b t ih =>
    obtain ⟨hb, hnodup⟩ := List.nodup_cons.mp hnodup
    rcases List.mem_cons.mp ha with rfl | ha
    · simp [find]
    · have hne : key b ≠ key a := fun h => hb (h ▸ List.mem_map_of_mem ha)
      rw [find, List.find?_cons_of_neg (by simpa using hne)]
      exact ih hnodup ha

theorem find_isSome_iff : (find key t k).isSome ↔ ∃ a ∈ t, key a = k := by
  simp [find]

theorem find_add (a : α) (k : κ) : find key (add key a t) k =
    if k = key a ∧ find key t k = none then some a else find key t k := by
  unfold add
  split
  · rename_i hsome
    rw [if_neg]
    rintro ⟨rfl, hnone⟩
    simp [hnone] at hsome
  · rename_i hnone
    simp only [Option.not_isSome_iff_eq_none] at hnone
    by_cases hk : k = key a
    · subst hk
      rw [if_pos ⟨rfl, hnone⟩]
      rw [find] at hnone
      simp [find, List.find?_append, hnone]
    · rw [if_neg (fun h => hk h.1)]
      simp [find, List.find?_append, Ne.symm hk]

theorem find_modify {f : α → α} (hf : ∀ a, key (f a) = key a) (k k' : κ) :
    find key (modify key k f t) k' =
      if k' = k then (find key t k').map f else find key t k' := by
  induction t with
  | nil => simp [find, modify]
  | cons b t ih =>
    have hkey : key (if key b = k then f b else b) = key b := by
      split
      · exact hf b
      · rfl
    by_cases hb : key b = k'
    · subst hb
      by_cases hk : key b = k <;> simp [find, modify, hk, hf]
    · simp only [find, modify, List.map_cons, List.find?_cons, hkey, hb, decide_false] at ih ⊢
      exact ih

theorem map_key_modify {f : α → α} (hf : ∀ a, key (f a) = key a) (k : κ) :
    (modify key k f t).map key = t.map key := by
  rw [modify, List.map_map]
  apply List.map_congr_left
  intro a _
  simp only [Function.comp]
  split
  · exact hf a
  · rfl

theorem nodup_add (a : α) (h : (t.map key).Nodup) : ((add key a t).map key).Nodup := by
  unfold add
  split
  · exact h
  · rename_i hnone
    have hfresh : key a ∉ t.map key := by
      intro hmem
      obtain ⟨b, hb, hkey⟩ := List.mem_map.mp hmem
      exact hnone (find_isSome_iff.mpr ⟨b, hb, hkey⟩)
    simpa [List.nodup_append, h] using hfresh

theorem find_erase (k k' : κ) : find key (erase key k t) k' = if k' =
    k then none else find key t k' := by
  induction t with
  | nil => simp [find, erase]
  | cons b t ih =>
    simp only [find, erase, List.filter_cons] at ih ⊢
    by_cases hb : key b = k <;> by_cases hb' : key b = k' <;> grind

theorem nodup_erase (k : κ) (h : (t.map key).Nodup) : ((erase key k t).map key).Nodup :=
  h.sublist (List.filter_sublist.map key)

end Table

end OurChain
