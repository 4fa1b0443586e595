import Mathlib

/-!
# Ordered sets over a comparator

A set kept as the list of its elements in the order of a comparator, the way a
search tree iterates over it. The comparator is any Boolean relation; that it is
a strict total order on the elements in use is a hypothesis of the laws, since
it is what a program may get wrong.
-/

namespace OurChain

open List

/-- `lt` orders the elements of `X` strictly and totally. -/
structure StrictTotalOn (lt : α → α → Bool) (X : Set α) : Prop where
  irrefl : ∀ a ∈ X, lt a a = false
  trans : ∀ a ∈ X, ∀ b ∈ X, ∀ c ∈ X, lt a b = true → lt b c = true → lt a c = true
  total : ∀ a ∈ X, ∀ b ∈ X, a ≠ b → lt a b = true ∨ lt b a = true

theorem StrictTotalOn.asymm (h : StrictTotalOn lt X) (ha : a ∈ X) (hb : b ∈ X)
    (hab : lt a b = true) : lt b a = false := by
  by_contra hba
  have haa := h.trans a ha b hb a ha hab (by simpa using hba)
  simp [h.irrefl a ha] at haa

namespace OrdSet

variable {α : Type} (lt : α → α → Bool)

/-- Inserts `x` before the first element above it, unless an equivalent one is met. -/
def insert (x : α) : List α → List α
  | [] => [x]
  | y :: s => if lt x y then x :: y :: s else if lt y x then y :: insert x s else y :: s

def insertAll (xs : List α) : List α := xs.foldl (fun s x => insert lt x s) []

def Sorted (s : List α) : Prop := s.Pairwise fun a b => lt a b = true

/-- `m` is the one element of `s` that every other element is below. -/
def IsMax (s : List α) (m : α) : Prop := m ∈ s ∧ ∀ a ∈ s, a ≠ m → lt a m = true

variable {lt} {X : Set α} {s xs : List α}

theorem isMax_getLast? (hsorted : Sorted lt s)
    (hlast : s.getLast? = some m) : IsMax lt s m := by
  obtain ⟨front, rfl⟩ := getLast?_eq_some_iff.mp hlast
  refine ⟨by simp, ?_⟩
  intro a ha hne
  rcases mem_append.mp ha with ha | ha
  · exact (pairwise_append.mp hsorted).2.2 a ha m (by simp)
  · exact absurd (mem_singleton.mp ha) hne

theorem sorted_eq_singleton (hirrefl : lt m m = false) (hsorted : Sorted lt s) (hm : m ∈ s)
    (hall : ∀ a ∈ s, a = m) : s = [m] := by
  cases s with
  | nil => cases hm
  | cons a s =>
    obtain ⟨rfl, hs⟩ := forall_mem_cons.mp hall
    cases s with
    | nil => rfl
    | cons b s =>
      have hab := (pairwise_cons.mp hsorted).1 b (by simp)
      rw [hs b (by simp), hirrefl] at hab
      cases hab

section
variable (h : StrictTotalOn lt X)
include h

theorem mem_insert (hx : x ∈ X) (hs : ∀ a ∈ s, a ∈ X) : a ∈ insert lt x s ↔ a = x ∨ a ∈ s := by
  induction s with
  | nil => simp [insert]
  | cons y s ih =>
    obtain ⟨hy, hs⟩ := forall_mem_cons.mp hs
    simp only [insert]
    split
    · simp
    · split
      · rw [mem_cons, ih hs, mem_cons]
        tauto
      · have heq : x = y := by
          by_contra hne
          rcases h.total x hx y hy hne with hlt | hlt <;> contradiction
        subst heq
        simp

theorem insert_sorted (hx : x ∈ X) (hs : ∀ a ∈ s, a ∈ X)
    (hsorted : Sorted lt s) :
    Sorted lt (insert lt x s) := by
  induction s with
  | nil => simp [insert, Sorted]
  | cons y s ih =>
    obtain ⟨hy, hs⟩ := forall_mem_cons.mp hs
    obtain ⟨hbelow, htail⟩ := pairwise_cons.mp hsorted
    simp only [insert]
    split
    · rename_i hxy
      refine pairwise_cons.mpr ⟨?_, hsorted⟩
      refine forall_mem_cons.mpr ⟨hxy, fun b hb => ?_⟩
      exact h.trans x hx y hy b (hs b hb) hxy (hbelow b hb)
    · split
      · rename_i hyx
        refine pairwise_cons.mpr ⟨?_, ih hs htail⟩
        intro b hb
        rcases (mem_insert h hx hs).mp hb with rfl | hb
        · exact hyx
        · exact hbelow b hb
      · exact hsorted

theorem isMax_unique (hs : ∀ a ∈ s, a ∈ X)
    (hm : IsMax lt s m) (hn : IsMax lt s n) : m = n := by
  by_contra hne
  have hmn := hn.2 m hm.1 hne
  have hnm := hm.2 n hn.1 (Ne.symm hne)
  simp [h.asymm (hs m hm.1) (hs n hn.1) hmn] at hnm

theorem mem_dropWhile (hs : ∀ a ∈ s, a ∈ X) (hsorted : Sorted lt s)
    (ht : t ∈ X) : a ∈ s.dropWhile (lt · t) ↔ a ∈ s ∧ lt a t = false := by
  induction s with
  | nil => simp
  | cons y s ih =>
    obtain ⟨hy, hs⟩ := forall_mem_cons.mp hs
    obtain ⟨hbelow, htail⟩ := pairwise_cons.mp hsorted
    cases hyt : lt y t with
    | true =>
      rw [dropWhile_cons_of_pos (p := (lt · t)) hyt, ih hs htail, mem_cons]
      constructor
      · rintro ⟨ha, hat⟩
        exact ⟨.inr ha, hat⟩
      · rintro ⟨rfl | ha, hat⟩
        · simp [hyt] at hat
        · exact ⟨ha, hat⟩
    | false =>
      rw [dropWhile_cons_of_neg (p := (lt · t)) (by simp [hyt])]
      refine ⟨fun ha => ⟨ha, ?_⟩, And.left⟩
      rcases mem_cons.mp ha with rfl | ha
      · exact hyt
      · by_contra hat
        have hlt := h.trans y hy a (hs a ha) t ht (hbelow a ha) (by simpa using hat)
        simp [hyt] at hlt

theorem foldl_insert (hxs : ∀ a ∈ xs, a ∈ X) (hs : ∀ a ∈ s, a ∈ X)
    (hsorted : Sorted lt s) :
    Sorted lt (xs.foldl (fun s x => insert lt x s) s) ∧
      ∀ a, a ∈ xs.foldl (fun s x => insert lt x s) s ↔ a ∈ xs ∨ a ∈ s := by
  induction xs generalizing s with
  | nil => simpa using hsorted
  | cons x xs ih =>
    obtain ⟨hx, hxs⟩ := forall_mem_cons.mp hxs
    have hmem (a : α) : a ∈ insert lt x s ↔ a = x ∨ a ∈ s := mem_insert h hx hs
    have hs' : ∀ a ∈ insert lt x s, a ∈ X := by
      intro a ha
      rcases (hmem a).mp ha with rfl | ha
      · exact hx
      · exact hs a ha
    obtain ⟨hsorted', hmem'⟩ := ih hxs hs' (insert_sorted h hx hs hsorted)
    refine ⟨hsorted', fun a => ?_⟩
    rw [foldl_cons, hmem', hmem, mem_cons]
    tauto

/-- Whatever the order of insertion, the elements are the inserted ones and the
last of them is their maximum. -/
theorem insertAll_last (hxs : ∀ a ∈ xs, a ∈ X) (hne : xs ≠ []) :
    ∃ m, (insertAll lt xs).getLast? = some m ∧ IsMax lt xs m := by
  obtain ⟨hsorted, hmem⟩ := foldl_insert h hxs (s := []) (by simp) List.Pairwise.nil
  have hmem (a : α) : a ∈ insertAll lt xs ↔ a ∈ xs := by
    simpa [insertAll] using hmem a
  obtain ⟨x, hx⟩ := exists_mem_of_ne_nil xs hne
  obtain ⟨m, hm⟩ : ∃ m, (insertAll lt xs).getLast? = some m :=
    Option.ne_none_iff_exists'.mp fun hnone => by
      rw [getLast?_eq_none_iff.mp hnone] at hmem
      exact absurd ((hmem x).mpr hx) (by simp)
  have hmax := isMax_getLast? hsorted hm
  exact ⟨m, hm, (hmem m).mp hmax.1, fun a ha => hmax.2 a ((hmem a).mpr ha)⟩

end

end OrdSet

end OurChain
