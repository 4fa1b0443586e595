import Mathlib

/-!
# Worklists

The set of what can be reached from some nodes, collected by a worklist: a node is taken
from the stage, and its successors that were not met yet are staged. Below some nodes
the set may be known already, up to nodes that do not matter; then it is added as a
whole and the node is not entered.
-/

namespace OurChain

open List Relation

namespace Worklist

variable {α : Type} [DecidableEq α] (next : α → List α) (known : α → Option (List α))

/-- What a successor adds to the stage and to the nodes that were met. -/
def schedule (q : List α × List α) (c : α) : List α × List α :=
  match known c with
  | some below => (q.1, below ∪ q.2)
  | none => if c ∈ q.2 then q else (q.1.insert c, q.2)

def walk : Nat → List α → List α → List α
  | 0, _, visited => visited
  | _ + 1, [], visited => visited
  | fuel + 1, a :: stage, visited =>
    let q := (next a).foldl (schedule known) (stage, visited.insert a)
    walk fuel q.1 q.2

abbrev Step (a b : α) : Prop := b ∈ next a

/-- What is known below a node is all that is there, except for the nodes of `Ex`. Such
a node is in `Ex` itself. -/
structure Known (Ex : α → Prop) : Prop where
  excluded : ∀ {c ds}, known c = some ds → Ex c
  sound : ∀ {c ds x}, known c = some ds → x ∈ ds → TransGen (Step next) c x
  complete : ∀ {c ds x}, known c = some ds → ¬ Ex x → TransGen (Step next) c x → x ∈ ds

def Closed (Ex : α → Prop) (visited : List α) (v : α) : Prop :=
  ∀ x, ¬ Ex x → TransGen (Step next) v x → x ∈ visited

def Covered (Ex : α → Prop) (stage visited : List α) (c : α) : Prop :=
  c ∈ visited ∨ c ∈ stage ∨ Ex c ∧ Closed next Ex visited c

variable {next known} {Ex : α → Prop} {stage visited : List α}

omit [DecidableEq α] in
theorem Closed.mono (h : Closed next Ex visited v) (hsub : visited ⊆ visited') :
    Closed next Ex visited' v := fun x hx hvx => hsub (h x hx hvx)

omit [DecidableEq α] in
theorem Closed.below (h : Closed next Ex visited v) (hvx : TransGen (Step next) v x) :
    Closed next Ex visited x := fun y hy hxy => h y hy (hvx.trans hxy)

omit [DecidableEq α] in
theorem Covered.mono (h : Covered next Ex stage visited c) (hstage : stage ⊆ stage')
    (hsub : visited ⊆ visited') : Covered next Ex stage' visited' c := by
  rcases h with hvisited | hstaged | ⟨hex, hclosed⟩
  · exact .inl (hsub hvisited)
  · exact .inr (.inl (hstage hstaged))
  · exact .inr (.inr ⟨hex, hclosed.mono hsub⟩)

structure Scheduled (next : α → List α) (Ex : α → Prop) (cs : List α) (q q' : List α × List α) :
    Prop where
  stage : q.1 ⊆ q'.1
  visited : q.2 ⊆ q'.2
  covered : ∀ c ∈ cs, Covered next Ex q'.1 q'.2 c
  staged : ∀ b ∈ q'.1, b ∈ q.1 ∨ b ∈ cs ∧ b ∉ q.2
  met : ∀ v ∈ q'.2, v ∈ q.2 ∨ Closed next Ex q'.2 v ∧ ∃ c ∈ cs, TransGen (Step next) c v
  stageNodup : q.1.Nodup → q'.1.Nodup
  visitedNodup : q.2.Nodup → q'.2.Nodup

omit [DecidableEq α] in
theorem Scheduled.refl (q : List α × List α) : Scheduled next Ex [] q q :=
  ⟨fun _ => id, fun _ => id, nofun, fun _ => .inl, fun _ => .inl, id, id⟩

theorem schedule_scheduled (hknown : Known next known Ex) (q : List α × List α) (c : α) :
    Scheduled next Ex [c] q (schedule known q c) := by
  unfold schedule
  split
  · rename_i below hbelow
    have hsub : q.2 ⊆ below ∪ q.2 := fun v hv => mem_union_iff.mpr (.inr hv)
    have hclosed : Closed next Ex (below ∪ q.2) c := fun x hx hcx =>
      mem_union_iff.mpr (.inl (hknown.complete hbelow hx hcx))
    refine ⟨fun _ => id, hsub, ?_, fun _ => .inl, ?_, id, fun h => h.union below⟩
    · rintro b hb
      obtain rfl := mem_singleton.mp hb
      exact .inr (.inr ⟨hknown.excluded hbelow, hclosed⟩)
    · intro v hv
      rcases mem_union_iff.mp hv with hv | hv
      · have hcv := hknown.sound hbelow hv
        exact .inr ⟨hclosed.below hcv, c, mem_singleton_self c, hcv⟩
      · exact .inl hv
  · split
    · rename_i hc
      refine ⟨fun _ => id, fun _ => id, ?_, fun _ => .inl, fun _ => .inl, id, id⟩
      intro b hb
      obtain rfl := mem_singleton.mp hb
      exact .inl hc
    · rename_i hc
      refine ⟨fun b hb => mem_insert_of_mem hb, fun _ => id, ?_, ?_, fun _ => .inl,
        fun h => h.insert, id⟩
      · intro b hb
        obtain rfl := mem_singleton.mp hb
        exact .inr (.inl mem_insert_self)
      · intro b hb
        rcases mem_insert_iff.mp hb with rfl | hb
        · exact .inr ⟨mem_singleton_self b, hc⟩
        · exact .inl hb

omit [DecidableEq α] in
theorem Scheduled.trans {q q' q'' : List α × List α} (h : Scheduled next Ex cs q q')
    (h' : Scheduled next Ex cs' q' q'') : Scheduled next Ex (cs ++ cs') q q'' where
  stage := fun _ ha => h'.stage (h.stage ha)
  visited := fun _ ha => h'.visited (h.visited ha)
  covered c hc := by
    rcases mem_append.mp hc with hc | hc
    · exact (h.covered c hc).mono h'.stage h'.visited
    · exact h'.covered c hc
  staged b hb := by
    rcases h'.staged b hb with hb | ⟨hb, hnew⟩
    · exact (h.staged b hb).imp_right fun hnew => ⟨mem_append_left _ hnew.1, hnew.2⟩
    · exact .inr ⟨mem_append_right _ hb, fun hq => hnew (h.visited hq)⟩
  met v hv := by
    rcases h'.met v hv with hv | ⟨hclosed, c, hc, hcv⟩
    · refine (h.met v hv).imp_right ?_
      rintro ⟨hclosed, c, hc, hcv⟩
      exact ⟨hclosed.mono h'.visited, c, mem_append_left _ hc, hcv⟩
    · exact .inr ⟨hclosed, c, mem_append_right _ hc, hcv⟩
  stageNodup := h'.stageNodup ∘ h.stageNodup
  visitedNodup := h'.visitedNodup ∘ h.visitedNodup

theorem foldl_scheduled (hknown : Known next known Ex) (cs : List α) (q : List α × List α) :
    Scheduled next Ex cs q (cs.foldl (schedule known) q) := by
  induction cs generalizing q with
  | nil => exact .refl q
  | cons c cs ih => exact (schedule_scheduled hknown q c).trans (ih _)

/-- Between two turns: `taken` are the nodes that were taken from the stage. -/
structure Inv (next : α → List α) (Ex : α → Prop) (U taken : Finset α) (stage visited : List α) :
    Prop where
  met : ∀ a ∈ taken, a ∈ visited
  fresh : ∀ a ∈ stage, a ∉ taken
  inside : ∀ a ∈ stage, a ∈ U
  nodup : stage.Nodup
  covered : ∀ v ∈ visited, Closed next Ex visited v ∨ ∀ c ∈ next v, Covered next Ex stage visited c

theorem Inv.turn {U taken : Finset α} (h : Inv next Ex U taken (a :: stage) visited)
    (hknown : Known next known Ex) (hU : ∀ a ∈ U, ∀ c ∈ next a, c ∈ U) :
    Inv next Ex U (insert a taken) ((next a).foldl (schedule known) (stage, visited.insert a)).1
      ((next a).foldl (schedule known) (stage, visited.insert a)).2 := by
  have hs := foldl_scheduled hknown (next a) (stage, visited.insert a)
  obtain ⟨ha, hnodup⟩ := nodup_cons.mp h.nodup
  have haU := h.inside a mem_cons_self
  have hold : visited ⊆ ((next a).foldl (schedule known) (stage, visited.insert a)).2 :=
    fun v hv => hs.visited (mem_insert_of_mem hv)
  have hhere := hs.visited (mem_insert_self (l := visited) (a := a))
  refine ⟨?_, ?_, ?_, hs.stageNodup hnodup, ?_⟩
  · intro b hb
    rcases Finset.mem_insert.mp hb with rfl | hb
    · exact hhere
    · exact hold (h.met b hb)
  · intro b hb htaken
    rcases hs.staged b hb with hb | ⟨-, hnew⟩
    · rcases Finset.mem_insert.mp htaken with rfl | htaken
      · exact ha hb
      · exact h.fresh b (mem_cons_of_mem _ hb) htaken
    · rcases Finset.mem_insert.mp htaken with rfl | htaken
      · exact hnew mem_insert_self
      · exact hnew (mem_insert_of_mem (h.met b htaken))
  · intro b hb
    rcases hs.staged b hb with hb | ⟨hb, -⟩
    · exact h.inside b (mem_cons_of_mem _ hb)
    · exact hU a haU b hb
  · intro v hv
    rcases hs.met v hv with hv | ⟨hclosed, -⟩
    · rcases mem_insert_iff.mp hv with rfl | hv
      · exact .inr hs.covered
      · refine (h.covered v hv).imp (fun hclosed => hclosed.mono hold) fun hcovered c hc => ?_
        -- The node that was taken is met now.
        rcases hcovered c hc with hvisited | hstaged | hknown
        · exact .inl (hold hvisited)
        · rcases mem_cons.mp hstaged with rfl | hstaged
          · exact .inl hhere
          · exact .inr (.inl (hs.stage hstaged))
        · exact .inr (.inr ⟨hknown.1, hknown.2.mono hold⟩)
    · exact .inl hclosed

omit [DecidableEq α] in
theorem Inv.closed {U taken : Finset α} (h : Inv next Ex U taken [] visited) (hv : v ∈ visited)
    (hx : ¬ Ex x) (hvx : ReflTransGen (Step next) v x) : x ∈ visited := by
  induction hvx using ReflTransGen.head_induction_on with
  | refl => exact hv
  | head hstep hrest ih =>
    rcases h.covered _ hv with hclosed | hcovered
    · exact hclosed x hx (.head' hstep hrest)
    · rcases hcovered _ hstep with hvisited | hstaged | ⟨hex, hclosed⟩
      · exact ih hvisited
      · cases hstaged
      · rcases reflTransGen_iff_eq_or_transGen.mp hrest with rfl | hrest
        · exact absurd hex hx
        · exact hclosed x hx hrest

section
variable (hknown : Known next known Ex)
include hknown

theorem subset_walk (fuel : Nat) (stage visited : List α) :
    visited ⊆ walk next known fuel stage visited := by
  induction fuel generalizing stage visited with
  | zero => exact fun _ => id
  | succ fuel ih =>
    cases stage with
    | nil => exact fun _ => id
    | cons a stage =>
      intro v hv
      exact ih _ _ ((foldl_scheduled hknown _ _).visited (mem_insert_of_mem hv))

theorem nodup_walk (fuel : Nat) (stage : List α) (hvisited : visited.Nodup) :
    (walk next known fuel stage visited).Nodup := by
  induction fuel generalizing stage visited with
  | zero => exact hvisited
  | succ fuel ih =>
    cases stage with
    | nil => exact hvisited
    | cons a stage => exact ih _ ((foldl_scheduled hknown _ _).visitedNodup hvisited.insert)

theorem of_mem_walk {fuel : Nat} (h : x ∈ walk next known fuel stage visited) :
    x ∈ visited ∨ ∃ a ∈ stage, ReflTransGen (Step next) a x := by
  induction fuel generalizing stage visited with
  | zero => exact .inl h
  | succ fuel ih =>
    cases stage with
    | nil => exact .inl h
    | cons a stage =>
      have hs := foldl_scheduled hknown (next a) (stage, visited.insert a)
      rcases ih h with hmet | ⟨b, hb, hbx⟩
      · rcases hs.met x hmet with hmet | ⟨-, c, hc, hcx⟩
        · rcases mem_insert_iff.mp hmet with rfl | hmet
          · exact .inr ⟨x, mem_cons_self, .refl⟩
          · exact .inl hmet
        · exact .inr ⟨a, mem_cons_self, .head hc hcx.to_reflTransGen⟩
      · rcases hs.staged b hb with hb | ⟨hb, -⟩
        · exact .inr ⟨b, mem_cons_of_mem _ hb, hbx⟩
        · exact .inr ⟨a, mem_cons_self, .head hb hbx⟩

theorem Inv.reached {U taken : Finset α} (h : Inv next Ex U taken stage visited)
    (hU : ∀ a ∈ U, ∀ c ∈ next a, c ∈ U) {fuel : Nat} (hfuel : (U \ taken).card ≤ fuel) (hx : ¬ Ex x)
    (ha : a ∈ visited ∨ a ∈ stage) (hax : ReflTransGen (Step next) a x) :
    x ∈ walk next known fuel stage visited := by
  induction fuel generalizing stage visited taken with
  | zero =>
    have hempty : stage = [] := by
      rw [eq_nil_iff_forall_not_mem]
      intro b hb
      have hmem := Finset.mem_sdiff.mpr ⟨h.inside b hb, h.fresh b hb⟩
      rw [Finset.card_eq_zero.mp (Nat.le_zero.mp hfuel)] at hmem
      exact absurd hmem (Finset.notMem_empty b)
    subst hempty
    exact h.closed (ha.resolve_right not_mem_nil) hx hax
  | succ fuel ih =>
    cases stage with
    | nil => exact h.closed (ha.resolve_right not_mem_nil) hx hax
    | cons b stage =>
      have hs := foldl_scheduled hknown (next b) (stage, visited.insert b)
      have hleft : b ∈ U \ taken :=
        Finset.mem_sdiff.mpr ⟨h.inside b mem_cons_self, h.fresh b mem_cons_self⟩
      refine ih (h.turn hknown hU) ?_ ?_
      · rw [Finset.sdiff_insert, Finset.card_erase_of_mem hleft]
        omega
      · rcases ha with ha | ha
        · exact .inl (hs.visited (mem_insert_of_mem ha))
        · rcases mem_cons.mp ha with rfl | ha
          · exact .inl (hs.visited mem_insert_self)
          · exact .inr (hs.stage ha)

theorem mem_walk {U : Finset α} (hU : ∀ a ∈ U, ∀ c ∈ next a, c ∈ U)
    (hinside : ∀ a ∈ stage, a ∈ U) (hnodup : stage.Nodup)
    (hvisited : ∀ v ∈ visited, Closed next Ex visited v) {fuel : Nat} (hfuel : U.card ≤ fuel)
    (hx : ¬ Ex x) : x ∈ walk next known fuel stage visited ↔
      x ∈ visited ∨ ∃ a ∈ stage, ReflTransGen (Step next) a x := by
  refine ⟨of_mem_walk hknown, fun h => ?_⟩
  rcases h with h | ⟨a, ha, hax⟩
  · exact subset_walk hknown _ _ _ h
  · have hinv : Inv next Ex U ∅ stage visited :=
      ⟨nofun, fun a _ => Finset.notMem_empty a, hinside, hnodup, fun v hv => .inl (hvisited v hv)⟩
    refine hinv.reached hknown hU ?_ hx (.inr ha) hax
    rwa [Finset.sdiff_empty]

end

omit [DecidableEq α] in
theorem known_none : Known next (fun _ => none) fun _ : α => False :=
  ⟨nofun, nofun, nofun⟩

end Worklist

end OurChain
