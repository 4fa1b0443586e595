import Mathlib

/-!
# Journals

A map is changed by a run of writes, each noted with the value it replaced. Taking the
writes back restores every key they touched, and doing them again sets every such key,
whatever the map holds there in between: only the first value and the last write of a
key count. So a map that was caught between two branches of writes can be led to the
end of either.
-/

namespace OurChain

open Function List

namespace Journal

/-- A key with the value before the write and the value after it, `none` for no value. -/
structure Write (K V : Type) where
  key : K
  before : Option V
  after : Option V

variable {K V : Type} [DecidableEq K]

def redo (m : K → Option V) : List (Write K V) → K → Option V
  | [] => m
  | w :: ws => redo (update m w.key w.after) ws

def undo (m : K → Option V) : List (Write K V) → K → Option V
  | [] => m
  | w :: ws => update (undo m ws) w.key w.before

/-- The values before the writes are those of `m`. -/
def Kept (m : K → Option V) : List (Write K V) → Prop
  | [] => True
  | w :: ws => m w.key = w.before ∧ Kept (update m w.key w.after) ws

variable {m m' : K → Option V} {w : Write K V} {ws ws' : List (Write K V)} {k : K}

theorem redo_append : redo m (ws ++ ws') = redo (redo m ws) ws' := by
  induction ws generalizing m with
  | nil => rfl
  | cons w ws ih => exact ih

theorem undo_append : undo m (ws ++ ws') = undo (undo m ws') ws := by
  induction ws with
  | nil => rfl
  | cons w ws ih => rw [cons_append, undo, ih, undo]

theorem kept_append : Kept m (ws ++ ws') ↔ Kept m ws ∧ Kept (redo m ws) ws' := by
  induction ws generalizing m with
  | nil => simp [Kept, redo]
  | cons w ws ih => simp only [cons_append, Kept, ih, redo, and_assoc]

theorem redo_of_notMem (h : k ∉ ws.map Write.key) : redo m ws k = m k := by
  induction ws generalizing m with
  | nil => rfl
  | cons w ws ih =>
    rw [map_cons, mem_cons, not_or] at h
    rw [redo, ih h.2, update_of_ne h.1]

theorem redo_of_mem (h : k ∈ ws.map Write.key) : redo m ws k = redo m' ws k := by
  induction ws generalizing m m' with
  | nil => cases h
  | cons w ws ih =>
    by_cases hlater : k ∈ ws.map Write.key
    · exact ih hlater
    · have hk : k = w.key := (mem_cons.mp h).resolve_right hlater
      rw [redo, redo, redo_of_notMem hlater, redo_of_notMem hlater, hk, update_self,
        update_self]

theorem redo_of_nodup (hnodup : (ws.map Write.key).Nodup) (h : w ∈ ws) :
    redo m ws w.key = w.after := by
  induction ws generalizing m with
  | nil => cases h
  | cons w₁ ws ih =>
    rw [map_cons, nodup_cons] at hnodup
    rcases mem_cons.mp h with rfl | h
    · rw [redo, redo_of_notMem hnodup.1, update_self]
    · exact ih hnodup.2 h

theorem undo_apply (h : Kept m ws) (m' : K → Option V) (k : K) :
    undo m' ws k = if k ∈ ws.map Write.key then m k else m' k := by
  induction ws generalizing m with
  | nil => rfl
  | cons w ws ih =>
    rw [undo, map_cons]
    by_cases hk : k = w.key
    · subst hk
      rw [update_self, if_pos mem_cons_self, h.1]
    · rw [update_of_ne hk, ih h.2, update_of_ne hk]
      simp only [mem_cons, hk, false_or]

theorem undo_redo (h : Kept m ws) : undo (redo m ws) ws = m := by
  funext k
  rw [undo_apply h]
  split
  · rfl
  · rename_i hk
    exact redo_of_notMem hk

/-- A map that holds for every key what the one branch or the other leaves there is led
to the end of the second one. -/
theorem redo_undo_mix {old new : List (Write K V)} (hold : Kept m old)
    (hmix : ∀ k, m' k = redo m old k ∨ m' k = redo m new k) :
    redo (undo m' old) new = redo m new := by
  funext k
  by_cases hnew : k ∈ new.map Write.key
  · exact redo_of_mem hnew
  · rw [redo_of_notMem hnew, redo_of_notMem hnew, undo_apply hold]
    split
    · rfl
    · rename_i hk
      rcases hmix k with hm | hm
      · rw [hm, redo_of_notMem hk]
      · rw [hm, redo_of_notMem hnew]

/-- What holds of the values of `m` and of those that are written holds of those that are
replaced, and of those that are left. -/
theorem Kept.forall_value {P : K → V → Prop} (hkept : Kept m ws) (hm : ∀ k v, m k = some v → P k v)
    (hafter : ∀ w ∈ ws, ∀ v, w.after = some v → P w.key v) :
    (∀ w ∈ ws, ∀ v, w.before = some v → P w.key v) ∧ ∀ k v, redo m ws k = some v → P k v := by
  induction ws generalizing m with
  | nil => exact ⟨forall_mem_nil _, hm⟩
  | cons w ws ih =>
    have hm' : ∀ k v, update m w.key w.after k = some v → P k v := by
      intro k v hv
      by_cases hk : k = w.key
      · subst hk
        rw [update_self] at hv
        exact hafter w mem_cons_self v hv
      · rw [update_of_ne hk] at hv
        exact hm k v hv
    obtain ⟨hbefore, hleft⟩ := ih hkept.2 hm' fun w hw => hafter w (mem_cons_of_mem _ hw)
    refine ⟨forall_mem_cons.mpr ⟨fun v hv => hm w.key v (hkept.1.trans hv), hbefore⟩, hleft⟩

def Adds (ws : List (Write K V)) : Prop := ∀ w ∈ ws, w.before = none ∧ w.after ≠ none

omit [DecidableEq K] in
theorem Adds.tail (h : Adds (w :: ws)) : Adds ws := fun w hw => h w (mem_cons_of_mem _ hw)

theorem undo_of_adds (h : Adds ws) : undo m ws k = if k ∈ ws.map Write.key then none else m k := by
  induction ws with
  | nil => rfl
  | cons w ws ih =>
    rw [undo, map_cons]
    by_cases hk : k = w.key
    · subst hk
      rw [update_self, if_pos mem_cons_self]
      exact (h w mem_cons_self).1
    · rw [update_of_ne hk, ih h.tail]
      simp only [mem_cons, hk, false_or]

theorem Kept.nodup (hkept : Kept m ws) (h : Adds ws) : (ws.map Write.key).Nodup := by
  induction ws generalizing m with
  | nil => exact nodup_nil
  | cons w ws ih =>
    refine nodup_cons.mpr ⟨fun hmem => ?_, ih hkept.2 h.tail⟩
    have hlater := undo_apply hkept.2 m w.key
    rw [undo_of_adds h.tail, if_pos hmem, if_pos hmem, update_self] at hlater
    exact (h w mem_cons_self).2 hlater.symm

theorem lookup_insert_update (m : Finmap fun _ : K => V) (k : K) (v : V) :
    (fun x => (m.insert k v).lookup x) = update (fun x => m.lookup x) k (some v) := by
  funext x
  by_cases hx : x = k
  · subst hx
    rw [update_self]
    exact Finmap.lookup_insert m
  · rw [update_of_ne hx]
    exact Finmap.lookup_insert_of_ne m hx

theorem lookup_erase_update (m : Finmap fun _ : K => V) (k : K) :
    (fun x => (m.erase k).lookup x) = update (fun x => m.lookup x) k none := by
  funext x
  by_cases hx : x = k
  · subst hx
    rw [update_self]
    exact Finmap.lookup_erase x m
  · rw [update_of_ne hx]
    exact Finmap.lookup_erase_ne hx

end Journal

end OurChain
