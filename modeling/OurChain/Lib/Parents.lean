import Mathlib

/-!
# Forests given by parents

A forest is a partial function to the parent, with a height that each step to the parent lowers
by one and that is zero where there is no parent. What stands above an element is then
determined by its height.
-/

namespace OurChain

namespace Forest

variable {α : Type} {parent : α → Option α} {height : α → Nat} {a b c d : α}

/-- The element that `n` steps to the parent lead to. -/
def up (parent : α → Option α) : Nat → α → Option α
  | 0, a => some a
  | n + 1, a => (parent a).bind (up parent n)

/-- The steps to the parent lead from `a` to `b`. -/
def Leads (parent : α → Option α) (a b : α) : Prop := ∃ n, up parent n a = some b

structure Ranked (parent : α → Option α) (height : α → Nat) : Prop where
  step : ∀ {a b}, parent a = some b → height a = height b + 1
  root : ∀ {a}, parent a = none → height a = 0

theorem up_add (m n : Nat) (a : α) : up parent (m + n) a = (up parent m a).bind (up parent n) := by
  induction m generalizing a with
  | zero => simp [up]
  | succ m ih =>
    rw [Nat.add_right_comm]
    cases hp : parent a with
    | none => simp [up, hp]
    | some p => simp [up, hp, ih]

theorem up_mono {parent' : α → Option α} (hmono : ∀ a b, parent a = some b → parent' a = some b)
    (h : up parent n a = some b) : up parent' n a = some b := by
  induction n generalizing a with
  | zero => exact h
  | succ n ih =>
    obtain ⟨p, hp, hn⟩ := Option.bind_eq_some_iff.mp h
    rw [up, hmono a p hp, Option.bind_some, ih hn]

theorem Leads.refl (a : α) : Leads parent a a := ⟨0, rfl⟩

theorem Leads.trans (hab : Leads parent a b) (hbc : Leads parent b c) : Leads parent a c := by
  obtain ⟨m, hm⟩ := hab
  obtain ⟨n, hn⟩ := hbc
  exact ⟨m + n, by rw [up_add, hm, Option.bind_some, hn]⟩

theorem Leads.of_parent (h : parent a = some b) : Leads parent a b := ⟨1, by simp [up, h]⟩

theorem leads_iff : Leads parent a b ↔ a = b ∨ ∃ p, parent a = some p ∧ Leads parent p b := by
  constructor
  · rintro ⟨n, hn⟩
    cases n with
    | zero => exact .inl (by simpa [up] using hn)
    | succ n =>
      obtain ⟨p, hp, hn⟩ := Option.bind_eq_some_iff.mp hn
      exact .inr ⟨p, hp, n, hn⟩
  · rintro (rfl | ⟨p, hp, hleads⟩)
    · exact .refl a
    · exact (Leads.of_parent hp).trans hleads

namespace Ranked

variable (hr : Ranked parent height)
include hr

theorem height_up (h : up parent n a = some b) : height a = height b + n := by
  induction n generalizing a with
  | zero =>
    obtain rfl : a = b := by simpa [up] using h
    rfl
  | succ n ih =>
    obtain ⟨p, hp, hn⟩ := Option.bind_eq_some_iff.mp h
    rw [hr.step hp, ih hn]
    rfl

theorem up_exists (h : n ≤ height a) : ∃ b, up parent n a = some b := by
  induction n generalizing a with
  | zero => exact ⟨a, rfl⟩
  | succ n ih =>
    cases hp : parent a with
    | none => simp [hr.root hp] at h
    | some p =>
      rw [hr.step hp] at h
      obtain ⟨b, hb⟩ := ih (Nat.le_of_succ_le_succ h)
      exact ⟨b, by simp [up, hp, hb]⟩

theorem height_le (h : Leads parent a b) : height b ≤ height a := by
  obtain ⟨n, hn⟩ := h
  rw [hr.height_up hn]
  exact Nat.le_add_right _ _

theorem up_of_leads (h : Leads parent a b) : up parent (height a - height b) a = some b := by
  obtain ⟨n, hn⟩ := h
  rw [hr.height_up hn, Nat.add_sub_cancel_left, hn]

theorem leads_inj (hb : Leads parent a b) (hc : Leads parent a c) (h : height b = height c) :
    b = c := by
  have hup := hr.up_of_leads hb
  rw [h, hr.up_of_leads hc] at hup
  exact (Option.some.inj hup).symm

theorem leads_of_height_le (hb : Leads parent a b) (hc : Leads parent a c) (h : height c ≤ height b) :
    Leads parent b c := by
  obtain ⟨d, hd⟩ := hr.up_exists (Nat.sub_le (height b) (height c))
  have hheight := hr.height_up hd
  have hsame : d = c := hr.leads_inj (hb.trans ⟨_, hd⟩) hc (by omega)
  exact hsame ▸ ⟨_, hd⟩

end Ranked

/-- The answer is the highest element with the property `P` among those that `a` leads to, or
there is none. -/
def Highest (parent : α → Option α) (height : α → Nat) (a : α) (P : α → Prop) : Option α → Prop
  | none => ∀ d, Leads parent a d → ¬P d
  | some c => Leads parent a c ∧ P c ∧ ∀ d, Leads parent a d → P d → height d ≤ height c

namespace Highest

variable {P Q : α → Prop} {r : Option α}

theorem of_leads (hab : Leads parent a b) (hall : ∀ d, Leads parent a d → P d → Leads parent b d)
    (h : Highest parent height b P r) : Highest parent height a P r := by
  cases r with
  | none => exact fun d hd hP => h d (hall d hd hP) hP
  | some c =>
    obtain ⟨hc, hP, hmax⟩ := h
    exact ⟨hab.trans hc, hP, fun d hd hPd => hmax d (hall d hd hPd) hPd⟩

theorem of_parent (hp : parent a = some b) (hnot : ¬P a) (h : Highest parent height b P r) :
    Highest parent height a P r := by
  refine of_leads (Leads.of_parent hp) ?_ h
  intro d hd hP
  obtain rfl | ⟨p, hp', hpd⟩ := leads_iff.mp hd
  · exact absurd hP hnot
  · rw [hp] at hp'
    exact Option.some.inj hp' ▸ hpd

theorem of_root (hp : parent a = none) (hnot : ¬P a) : Highest parent height a P none := by
  intro d hd
  obtain rfl | ⟨p, hp', -⟩ := leads_iff.mp hd
  · exact hnot
  · simp [hp] at hp'

theorem self (hr : Ranked parent height) (hP : P a) : Highest parent height a P (some a) :=
  ⟨.refl a, hP, fun _ hd _ => hr.height_le hd⟩

theorem congr (hiff : ∀ d, Leads parent a d → (P d ↔ Q d)) (h : Highest parent height a P r) :
    Highest parent height a Q r := by
  cases r with
  | none => exact fun d hd hQ => h d hd ((hiff d hd).mpr hQ)
  | some c =>
    obtain ⟨hc, hP, hmax⟩ := h
    exact ⟨hc, (hiff c hc).mp hP, fun d hd hQ => hmax d hd ((hiff d hd).mpr hQ)⟩

end Highest

end Forest

end OurChain
