import Mathlib

/-!
# Stricter computations

One computation is stricter than another if the other one succeeds, with the same
result, wherever it does. The rules follow the way checks are chained: a failing check
is stricter than anything, and a sequence is as strict as its parts.
-/

namespace OurChain

variable {ε α β γ : Type}

def require (c : Bool) (e : ε) : Except ε Unit := if c then .ok () else .error e

def Stricter (x y : Except ε α) : Prop := ∀ a, x = .ok a → y = .ok a

namespace Stricter

theorem refl (x : Except ε α) : Stricter x x := fun _ => id

theorem of_error (e : ε) (y : Except ε α) : Stricter (.error e) y := nofun

theorem bind {x y : Except ε α} {f g : α → Except ε β} (h : Stricter x y)
    (hrest : ∀ a, Stricter (f a) (g a)) : Stricter (x >>= f) (y >>= g) := by
  cases x with
  | error e => exact of_error e _
  | ok a =>
    rw [h a rfl]
    exact hrest a

theorem bind_left {x y : Except ε α} (h : Stricter x y) (f : α → Except ε β) :
    Stricter (x >>= f) (y >>= f) := h.bind fun a => refl (f a)

theorem require_of_imp {c c' : Bool} (h : c = true → c' = true) (e : ε) :
    Stricter (require c e) (require c' e) := by
  intro a hok
  cases c with
  | false => cases hok
  | true => rwa [h rfl]

theorem skip {x : Except ε α} {f : α → Except ε β} {y : Except ε β} (h : ∀ a, Stricter (f a) y) :
    Stricter (x >>= f) y := by
  cases x with
  | error e => exact of_error e _
  | ok a => exact h a

theorem ite {c : Prop} [Decidable c] {x x' y y' : Except ε α} (hthen : Stricter x x')
    (helse : Stricter y y') : Stricter (if c then x else y) (if c then x' else y') := by
  by_cases hc : c
  · rwa [if_pos hc, if_pos hc]
  · rwa [if_neg hc, if_neg hc]

end Stricter

/-- The second computation succeeds wherever the first one does, with any result. -/
def Allows (x : Except ε α) (y : Except ε β) : Prop := ∀ a, x = .ok a → ∃ b, y = .ok b

namespace Allows

theorem ok (x : Except ε α) (b : β) : Allows x (.ok b : Except ε β) := fun _ _ => ⟨b, rfl⟩

theorem bind {x y : Except ε α} {f : α → Except ε β} {g : α → Except ε γ} (h : Stricter x y)
    (hrest : ∀ a, Allows (f a) (g a)) : Allows (x >>= f) (y >>= g) := by
  cases x with
  | error e => nofun
  | ok a =>
    rw [h a rfl]
    exact hrest a

theorem bind_unit {x : Except ε α} {y : Except ε β} (h : Allows x y) {f : α → Except ε Unit}
    {g : β → Except ε Unit} (hrest : ∀ b, g b = .ok ()) : Stricter (x >>= f) (y >>= g) := by
  cases x with
  | error e => exact .of_error e _
  | ok a =>
    obtain ⟨b, hb⟩ := h a rfl
    rw [hb]
    exact fun _ _ => hrest b

end Allows

def Ensures (x : Except ε α) (P : α → Prop) : Prop := ∀ a, x = .ok a → P a

namespace Ensures

variable {P : β → Prop}

theorem ok {b : β} (h : P b) : Ensures (.ok b : Except ε β) P := fun _ hok => Except.ok.inj hok ▸ h

theorem of_error (e : ε) : Ensures (.error e) P := nofun

theorem bind {Q : α → Prop} {x : Except ε α} {f : α → Except ε β} (hx : Ensures x Q)
    (hrest : ∀ a, Q a → Ensures (f a) P) : Ensures (x >>= f) P := by
  cases x with
  | error e => exact of_error e
  | ok a => exact hrest a (hx a rfl)

theorem bind_rest {x : Except ε α} {f : α → Except ε β} (hrest : ∀ a, Ensures (f a) P) :
    Ensures (x >>= f) P :=
  bind (fun _ => id) fun a _ => hrest a

end Ensures

end OurChain
