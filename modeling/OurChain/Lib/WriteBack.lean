import Mathlib

/-!
# Write-back caches

One key of a cache in front of another store. A line holds the value the cache has for
the key, none if it was deleted; `dirty` says that the store below may differ, `fresh`
that the store below has nothing for the key, so that a deletion need not be told.
-/

namespace OurChain

namespace WriteBack

structure Line (V : Type) where
  value : Option V
  dirty : Bool
  fresh : Bool

variable {V : Type} {below : Option V} {line child : Line V}

def view (below : Option V) : Option (Line V) → Option V
  | none => below
  | some line => line.value

structure Sound (below : Option V) (line : Line V) : Prop where
  clean : line.dirty = false → line.value = below
  fresh : line.fresh = true → below = none

theorem Sound.fetched (below : Option V) : Sound below ⟨below, false, below.isNone⟩ where
  clean _ := rfl
  fresh := Option.isNone_iff_eq_none.mp

theorem Sound.write (h : Sound below line) (value : Option V) :
    Sound below ⟨value, true, line.fresh⟩ where
  clean hdirty := nomatch hdirty
  fresh := h.fresh

theorem Sound.add (h : Sound below line) (habsent : line.value = none) (value : Option V) :
    Sound below ⟨value, true, line.fresh || !line.dirty⟩ where
  clean hdirty := nomatch hdirty
  fresh hfresh := by
    rcases Bool.or_eq_true_iff.mp hfresh with hfresh | hclean
    · exact h.fresh hfresh
    · rw [← h.clean (by simpa using hclean), habsent]

/-- A dirty line of the cache above is written to this one; none if the line above
claims to be fresh over a value. -/
def merge (child : Line V) : Option (Line V) → Option (Option (Line V))
  | none =>
    if child.fresh && child.value.isNone then some none
    else some (some ⟨child.value, true, child.fresh⟩)
  | some line =>
    if child.fresh && line.value.isSome then none
    else if line.fresh && child.value.isNone then some none
    else some (some ⟨child.value, true, line.fresh⟩)

theorem merge_spec {line : Option (Line V)} (hline : ∀ l ∈ line, Sound below l)
    (hchild : Sound (view below line) child) :
    ∃ merged, merge child line = some merged ∧ view below merged = child.value ∧
      ∀ l ∈ merged, Sound below l := by
  cases line with
  | none =>
    simp only [merge]
    split
    · rename_i hgone
      obtain ⟨hfresh, hnone⟩ := Bool.and_eq_true_iff.mp hgone
      refine ⟨none, rfl, ?_, nofun⟩
      rw [Option.isNone_iff_eq_none.mp hnone]
      exact hchild.fresh hfresh
    · refine ⟨_, rfl, rfl, ?_⟩
      rintro l ⟨⟩
      exact hchild.write child.value
  | some line =>
    have hmisapplied : ¬(child.fresh && line.value.isSome) = true := by
      intro h
      obtain ⟨hfresh, hsome⟩ := Bool.and_eq_true_iff.mp h
      rw [show line.value = none from hchild.fresh hfresh] at hsome
      cases hsome
    rw [merge, if_neg hmisapplied]
    split
    · rename_i hgone
      obtain ⟨hfresh, hnone⟩ := Bool.and_eq_true_iff.mp hgone
      refine ⟨none, rfl, ?_, nofun⟩
      rw [Option.isNone_iff_eq_none.mp hnone]
      exact (hline line rfl).fresh hfresh
    · refine ⟨_, rfl, rfl, ?_⟩
      rintro l ⟨⟩
      exact (hline line rfl).write child.value

end WriteBack

section
variable {K E L ε : Type} [DecidableEq K]
    {f : (AList fun _ : K => L) → (Σ _ : K, E) → Except ε (AList fun _ : K => L)}

/-- Each entry of `l` changes its own key only, so what the loop leaves at a key is what
the entry of the key leaves, whatever the order. -/
theorem foldlM_keys {Q : K → E → Option L → Prop} {l : List (Σ _ : K, E)} (hnodup : l.NodupKeys)
    {m : AList fun _ : K => L}
    (hstep : ∀ e ∈ l, ∀ m', m'.lookup e.1 = m.lookup e.1 → ∃ m'', f m' e = .ok m'' ∧
      (∀ k ≠ e.1, m''.lookup k = m'.lookup k) ∧ Q e.1 e.2 (m''.lookup e.1)) :
    ∃ m', l.foldlM f m = .ok m' ∧ (∀ e ∈ l, Q e.1 e.2 (m'.lookup e.1)) ∧
      ∀ k, k ∉ l.keys → m'.lookup k = m.lookup k := by
  induction l generalizing m with
  | nil => exact ⟨m, rfl, by simp, fun _ _ => rfl⟩
  | cons e l ih =>
    obtain ⟨hfresh, hnodup⟩ := List.nodupKeys_cons.mp hnodup
    obtain ⟨m₁, hm₁, hother, hown⟩ := hstep e List.mem_cons_self m rfl
    have hrest : ∀ e' ∈ l, ∀ m', m'.lookup e'.1 = m₁.lookup e'.1 → ∃ m'', f m' e' = .ok m'' ∧
        (∀ k ≠ e'.1, m''.lookup k = m'.lookup k) ∧ Q e'.1 e'.2 (m''.lookup e'.1) := by
      intro e' he' m' hm'
      refine hstep e' (List.mem_cons_of_mem _ he') m' (hm'.trans (hother _ ?_))
      intro heq
      exact hfresh (heq ▸ List.mem_keys_of_mem he')
    obtain ⟨m₂, hm₂, hall, hsame⟩ := ih hnodup hrest
    refine ⟨m₂, ?_, ?_, ?_⟩
    · rw [List.foldlM_cons, hm₁]
      exact hm₂
    · intro e' he'
      rcases List.mem_cons.mp he' with rfl | he'
      · rw [hsame _ hfresh]
        exact hown
      · exact hall e' he'
    · intro k hk
      obtain ⟨hne, hk⟩ := List.ne_and_not_mem_of_not_mem_cons hk
      rw [hsame k hk, hother k hne]

theorem foldlM_entries (Q : K → E → Option L → Prop) {child : AList fun _ : K => E}
    {m : AList fun _ : K => L} (hstep : ∀ k e, child.lookup k = some e → ∀ m',
    m'.lookup k = m.lookup k → ∃ m'', f m' ⟨k, e⟩ = .ok m'' ∧
      (∀ k' ≠ k, m''.lookup k' = m'.lookup k') ∧ Q k e (m''.lookup k)) :
    ∃ m', child.entries.foldlM f m = .ok m' ∧ (∀ k e, child.lookup k = some e → Q k e (m'.lookup k)) ∧
      ∀ k, child.lookup k = none → m'.lookup k = m.lookup k := by
  obtain ⟨m', hfold, hall, hsame⟩ := foldlM_keys child.nodupKeys fun e he =>
    hstep e.1 e.2 (AList.mem_lookup_iff.mpr he)
  refine ⟨m', hfold, fun k e hk => hall ⟨k, e⟩ (AList.mem_lookup_iff.mp hk), fun k hk => hsame k ?_⟩
  exact AList.lookup_eq_none.mp hk

end

end OurChain
