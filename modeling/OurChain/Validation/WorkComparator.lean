import OurChain.Serialize
import OurChain.Lib.OrdSet

/-!
# The order of chain tips

`CBlockIndexWorkComparator` of the GPoW build compares work, then the time in
seconds, then the time in microseconds with a tolerance of `TIME_ERROR`, then
`hashGPoW`, then the address of the entry. Nearness within a tolerance is not
transitive, so the comparator is an order only on sets without three entries
that are near each other in turn and far apart end to end.
-/

namespace OurChain

structure WorkKey where
  nChainWork : Uint256
  nTime : BitVec 32
  nPrecisionTime : BitVec 32
  hashGPoW : Uint256
  addr : Nat
  deriving DecidableEq

def TIME_ERROR : BitVec 32 := 100000

/-- `CBlockIndexWorkComparator`: `pa` is a worse tip than `pb`. -/
def workLess (pa pb : WorkKey) : Bool :=
  if pb.nChainWork < pa.nChainWork then false
  else if pa.nChainWork < pb.nChainWork then true
  else if pa.nTime < pb.nTime then false
  else if pb.nTime < pa.nTime then true
  else if pa.nPrecisionTime < pb.nPrecisionTime ∧
      TIME_ERROR < pb.nPrecisionTime - pa.nPrecisionTime then false
  else if pb.nPrecisionTime < pa.nPrecisionTime ∧
      TIME_ERROR < pa.nPrecisionTime - pb.nPrecisionTime then true
  else if pa.hashGPoW < pb.hashGPoW then false
  else if pb.hashGPoW < pa.hashGPoW then true
  else if pa.addr < pb.addr then false
  else if pb.addr < pa.addr then true
  else false

section
variable (a b : WorkKey)

/-- Same work and same second: only the last three criteria decide. -/
def SameTime : Prop := a.nChainWork = b.nChainWork ∧ a.nTime = b.nTime

/-- `a` is later than `b` by more than the tolerance. -/
def FarLater : Prop :=
  b.nPrecisionTime.toNat + TIME_ERROR.toNat < a.nPrecisionTime.toNat

def Loses : Prop :=
  b.hashGPoW.toNat < a.hashGPoW.toNat ∨ (b.hashGPoW.toNat = a.hashGPoW.toNat ∧ b.addr < a.addr)

def WorseInSecond : Prop := FarLater a b ∨ (¬ FarLater b a ∧ Loses a b)

theorem farLater_iff : FarLater a b ↔
    b.nPrecisionTime < a.nPrecisionTime ∧ TIME_ERROR < a.nPrecisionTime - b.nPrecisionTime := by
  simp only [FarLater, BitVec.lt_def, BitVec.toNat_sub]
  omega

end

theorem FarLater.not_symm (h : FarLater a b) : ¬ FarLater b a := by
  unfold FarLater at *
  omega

theorem Loses.not_symm (h : Loses a b) : ¬ Loses b a := by
  unfold Loses at *
  omega

theorem loses_total (hne : a.addr ≠ b.addr) : Loses a b ∨ Loses b a := by
  unfold Loses
  omega

theorem criterion_iff (x y : BitVec w) (rest : Bool) :
    (if y < x then false else if x < y then true else rest) = true ↔
      x.toNat < y.toNat ∨ (x = y ∧ rest = true) := by
  simp only [BitVec.lt_def, ← BitVec.toNat_inj]
  rcases Nat.lt_trichotomy x.toNat y.toNat with h | h | h
  · simp [h, Nat.lt_asymm h]
  · simp [h]
  · simp [h, Nat.lt_asymm h, h.ne']

theorem workLess_iff (a b : WorkKey) : workLess a b = true ↔
    a.nChainWork.toNat < b.nChainWork.toNat ∨
    (a.nChainWork = b.nChainWork ∧ b.nTime.toNat < a.nTime.toNat) ∨
    (SameTime a b ∧ WorseInSecond a b) := by
  unfold workLess
  rw [criterion_iff, criterion_iff, and_or_left, ← and_assoc]
  refine or_congr Iff.rfl (or_congr Iff.rfl (and_congr (and_congr Iff.rfl eq_comm) ?_))
  by_cases hba : FarLater b a
  · rw [if_pos ((farLater_iff b a).mp hba)]
    exact iff_of_false Bool.false_ne_true fun h => h.elim hba.not_symm fun h => h.1 hba
  · rw [if_neg (mt (farLater_iff b a).mpr hba)]
    by_cases hab : FarLater a b
    · rw [if_pos ((farLater_iff a b).mp hab)]
      exact iff_of_true rfl (.inl hab)
    · have haddr : (if a.addr < b.addr then false else if b.addr < a.addr then true else false) =
        true ↔
          b.addr < a.addr := by
        rcases Nat.lt_trichotomy a.addr b.addr with h | h | h <;> simp [h, Nat.le_of_lt]
      rw [if_neg (mt (farLater_iff a b).mpr hab), criterion_iff, haddr]
      simp only [WorseInSecond, Loses, hab, hba, false_or, not_false_eq_true, true_and,
        BitVec.toNat_inj]

theorem workLess_irrefl (a : WorkKey) : workLess a a = false := by
  simp [workLess]

theorem WorseInSecond.not_symm (h : WorseInSecond a b) : ¬ WorseInSecond b a := by
  rintro (hfar' | ⟨hnear', hlose'⟩) <;> rcases h with hfar | ⟨hnear, hlose⟩
  · exact hfar.not_symm hfar'
  · exact hnear hfar'
  · exact hnear' hfar
  · exact hlose.not_symm hlose'

theorem worseInSecond_total (hne : a.addr ≠ b.addr) : WorseInSecond a b ∨ WorseInSecond b a := by
  by_cases hab : FarLater a b
  · exact .inl (.inl hab)
  · by_cases hba : FarLater b a
    · exact .inr (.inl hba)
    · rcases loses_total hne with hlose | hlose
      · exact .inl (.inr ⟨hba, hlose⟩)
      · exact .inr (.inr ⟨hab, hlose⟩)

theorem workLess_asymm (h : workLess a b = true) : workLess b a = false := by
  rw [Bool.eq_false_iff]
  intro h'
  rw [workLess_iff] at h h'
  rcases h with hw | ⟨hw, ht⟩ | ⟨hst, hab⟩ <;> rcases h' with hw' | ⟨hw', ht'⟩ | ⟨hst', hba⟩
  · exact Nat.lt_asymm hw hw'
  · exact Nat.lt_irrefl _ (hw' ▸ hw)
  · exact Nat.lt_irrefl _ (hst'.1 ▸ hw)
  · exact Nat.lt_irrefl _ (hw ▸ hw')
  · exact Nat.lt_asymm ht ht'
  · exact Nat.lt_irrefl _ (hst'.2 ▸ ht)
  · exact Nat.lt_irrefl _ (hst.1 ▸ hw')
  · exact Nat.lt_irrefl _ (hst.2 ▸ ht')
  · exact hab.not_symm hba

theorem workLess_total (a b : WorkKey) (hne : a.addr ≠ b.addr) :
    workLess a b = true ∨ workLess b a = true := by
  rw [workLess_iff, workLess_iff]
  rcases Nat.lt_trichotomy a.nChainWork.toNat b.nChainWork.toNat with hw | hw | hw
  · exact .inl (.inl hw)
  · replace hw := BitVec.eq_of_toNat_eq hw
    rcases Nat.lt_trichotomy a.nTime.toNat b.nTime.toNat with ht | ht | ht
    · exact .inr (.inr (.inl ⟨hw.symm, ht⟩))
    · replace ht := BitVec.eq_of_toNat_eq ht
      rcases worseInSecond_total hne with hab | hba
      · exact .inl (.inr (.inr ⟨⟨hw, ht⟩, hab⟩))
      · exact .inr (.inr (.inr ⟨⟨hw.symm, ht.symm⟩, hba⟩))
    · exact .inl (.inr (.inl ⟨hw, ht⟩))
  · exact .inr (.inl hw)

theorem workLess_readdress (hsep : SameTime a b → FarLater a b ∨ FarLater b a ∨
    a.hashGPoW ≠ b.hashGPoW) (x y : Nat) : workLess { a with addr := x } { b with addr :=
  y } = workLess a b := by
  rw [Bool.eq_iff_iff, workLess_iff, workLess_iff]
  refine or_congr Iff.rfl (or_congr Iff.rfl (and_congr_right fun hst => ?_))
  rcases hsep hst with hfar | hfar | hne
  · exact iff_of_true (.inl hfar) (.inl hfar)
  · exact iff_of_false (WorseInSecond.not_symm (.inl hfar)) (WorseInSecond.not_symm (.inl hfar))
  · have hloses : Loses { a with addr := x } { b with addr := y } ↔ Loses a b := by
      rw [ne_eq, ← BitVec.toNat_inj] at hne
      simp only [Loses]
      omega
    exact or_congr Iff.rfl (and_congr_right fun _ => hloses)

/-- Three entries of one second, each within the tolerance of the one before but
the last beyond the tolerance of the first, where every earlier one loses. -/
def Tangled (a b c : WorkKey) : Prop :=
  SameTime a b ∧ SameTime b c ∧ ¬ FarLater b a ∧ ¬ FarLater c b ∧ FarLater c a ∧
    Loses a b ∧ Loses b c

def TangleFree (X : Set WorkKey) : Prop := ∀ a ∈ X, ∀ b ∈ X, ∀ c ∈ X, ¬ Tangled a b c

theorem Tangled.cycle (h : Tangled a b c) :
    workLess a b = true ∧ workLess b c = true ∧ workLess c a = true := by
  obtain ⟨hab, hbc, hnear, hnear', hfar, hlose, hlose'⟩ := h
  have hca : SameTime c a := ⟨(hab.1.trans hbc.1).symm, (hab.2.trans hbc.2).symm⟩
  simp only [workLess_iff]
  exact ⟨.inr (.inr ⟨hab, .inr ⟨hnear, hlose⟩⟩), .inr (.inr ⟨hbc, .inr ⟨hnear', hlose'⟩⟩),
    .inr (.inr ⟨hca, .inl hfar⟩)⟩

theorem Loses.trans (hab : Loses a b) (hbc : Loses b c) : Loses a c := by
  unfold Loses at *
  omega

/-- Within one second a chain of two comparisons either carries over or is a
tangle, seen from one of its three members. -/
theorem worseInSecond_trans_or_tangled (htab : SameTime a b) (htbc : SameTime b c)
    (hab : WorseInSecond a b) (hbc : WorseInSecond b c) (hne : a.addr ≠ c.addr) :
    WorseInSecond a c ∨ Tangled a b c ∨ Tangled b c a ∨ Tangled c a b := by
  have htca : SameTime c a := ⟨(htab.1.trans htbc.1).symm, (htab.2.trans htbc.2).symm⟩
  by_cases hac : FarLater a c
  · exact .inl (.inl hac)
  · rcases hab with hfar | ⟨hnear, hlose⟩ <;> rcases hbc with hfar' | ⟨hnear', hlose'⟩
    · exact absurd (by unfold FarLater at *; omega) hac
    · rcases loses_total hne with hl | hl
      · exact .inl (.inr ⟨by unfold FarLater at *; omega, hl⟩)
      · exact .inr (.inr (.inl ⟨htbc, htca, hnear', hac, hfar, hlose', hl⟩))
    · rcases loses_total hne with hl | hl
      · exact .inl (.inr ⟨by unfold FarLater at *; omega, hl⟩)
      · exact .inr (.inr (.inr ⟨htca, htab, hac, hnear, hfar', hl, hlose⟩))
    · by_cases hca : FarLater c a
      · exact .inr (.inl ⟨htab, htbc, hnear, hnear', hca, hlose, hlose'⟩)
      · exact .inl (.inr ⟨hca, hlose.trans hlose'⟩)

theorem workLess_trans_or_tangled (hab : workLess a b = true) (hbc : workLess b c = true)
    (hne : a.addr ≠ c.addr) :
    workLess a c = true ∨ Tangled a b c ∨ Tangled b c a ∨ Tangled c a b := by
  rw [workLess_iff] at hab hbc ⊢
  rcases hab with hw | ⟨hw, ht⟩ | ⟨hst, hab⟩ <;> rcases hbc with hw' | ⟨hw', ht'⟩ | ⟨hst', hbc⟩
  · exact .inl (.inl (hw.trans hw'))
  · exact .inl (.inl (hw' ▸ hw))
  · exact .inl (.inl (hst'.1 ▸ hw))
  · exact .inl (.inl (hw ▸ hw'))
  · exact .inl (.inr (.inl ⟨hw.trans hw', ht'.trans ht⟩))
  · exact .inl (.inr (.inl ⟨hw.trans hst'.1, hst'.2 ▸ ht⟩))
  · exact .inl (.inl (hst.1 ▸ hw'))
  · exact .inl (.inr (.inl ⟨hst.1.trans hw', hst.2 ▸ ht'⟩))
  · rcases worseInSecond_trans_or_tangled hst hst' hab hbc hne with h | h
    · exact .inl (.inr (.inr ⟨⟨hst.1.trans hst'.1, hst.2.trans hst'.2⟩, h⟩))
    · exact .inr h

theorem workLess_trans (hX : TangleFree X) (hinj : Set.InjOn WorkKey.addr X)
    (ha : a ∈ X) (hb : b ∈ X) (hc : c ∈ X)
    (hab : workLess a b = true) (hbc : workLess b c = true) : workLess a c = true := by
  by_cases hne : a.addr = c.addr
  · cases hinj ha hc hne
    simp [workLess_asymm hab] at hbc
  · rcases workLess_trans_or_tangled hab hbc hne with h | h | h | h
    · exact h
    · exact absurd h (hX a ha b hb c hc)
    · exact absurd h (hX b hb c hc a ha)
    · exact absurd h (hX c hc a ha b hb)

theorem workLess_strictTotalOn (hX : TangleFree X) (hinj : Set.InjOn WorkKey.addr X) :
    StrictTotalOn workLess X where
  irrefl a _ := workLess_irrefl a
  trans _ ha _ hb _ hc := workLess_trans hX hinj ha hb hc
  total a ha b hb hne := workLess_total a b fun heq => hne (hinj ha hb heq)

/-- The comparator is a strict weak order with one maximum, whatever the order of
insertion, exactly on the sets of entries without a tangle. -/
theorem workLess_strictWeak_iff (X : Set WorkKey) (hinj : Set.InjOn WorkKey.addr X) :
    ((∀ a ∈ X, workLess a a = false) ∧
      (∀ a ∈ X, ∀ b ∈ X, workLess a b = true → workLess b a = false) ∧
      (∀ a ∈ X, ∀ b ∈ X, ∀ c ∈ X,
        workLess a b = true → workLess b c = true → workLess a c = true) ∧
      ∀ xs : List WorkKey, xs ≠ [] → (∀ a ∈ xs, a ∈ X) → ∃ m, OrdSet.IsMax workLess xs m ∧
        ∀ ys, ys.Perm xs → (OrdSet.insertAll workLess ys).getLast? = some m) ↔
    TangleFree X := by
  constructor
  · rintro ⟨-, hasymm, htrans, -⟩ a ha b hb c hc htangle
    obtain ⟨hab, hbc, hca⟩ := htangle.cycle
    have hac := htrans a ha b hb c hc hab hbc
    simp [hasymm a ha c hc hac] at hca
  · intro hX
    have horder := workLess_strictTotalOn hX hinj
    refine ⟨horder.irrefl, fun a _ b _ => workLess_asymm, horder.trans, ?_⟩
    intro xs hne hxs
    obtain ⟨m, -, hmax⟩ := OrdSet.insertAll_last horder hxs hne
    refine ⟨m, hmax, fun ys hperm => ?_⟩
    have hys : ∀ a ∈ ys, a ∈ X := fun a ha => hxs a (hperm.mem_iff.mp ha)
    have hne' : ys ≠ [] := fun hnil => hne (by simpa [hnil] using hperm)
    obtain ⟨n, hlast, hmax'⟩ := OrdSet.insertAll_last horder hys hne'
    have hmax'' : OrdSet.IsMax workLess xs n :=
      ⟨hperm.mem_iff.mp hmax'.1, fun a ha => hmax'.2 a (hperm.mem_iff.mpr ha)⟩
    rw [hlast, OrdSet.isMax_unique horder hxs hmax hmax'']

-- Precision times 0, 0.06 s and 0.12 s within one second, each later block with a
-- smaller hashGPoW.
def tangleKey (nPrecisionTime : BitVec 32) (hashGPoW : Uint256) (addr : Nat) : WorkKey :=
  { nChainWork := 1, nTime := 0, nPrecisionTime, hashGPoW, addr }

theorem workLess_cycle :
    workLess (tangleKey 0 3 0) (tangleKey 60000 2 1) = true ∧
    workLess (tangleKey 60000 2 1) (tangleKey 120000 1 2) = true ∧
    workLess (tangleKey 0 3 0) (tangleKey 120000 1 2) = false ∧
    (OrdSet.insertAll workLess
      [tangleKey 0 3 0, tangleKey 60000 2 1, tangleKey 120000 1 2]).getLast? =
        some (tangleKey 60000 2 1) ∧
    (OrdSet.insertAll workLess
      [tangleKey 60000 2 1, tangleKey 120000 1 2, tangleKey 0 3 0]).getLast? =
        some (tangleKey 120000 1 2) := by decide

theorem workLess_strictWeak_pair :
    ∃ m, OrdSet.IsMax workLess [tangleKey 0 3 0, tangleKey 60000 2 1] m ∧
      ∀ ys, ys.Perm [tangleKey 0 3 0, tangleKey 60000 2 1] →
        (OrdSet.insertAll workLess ys).getLast? = some m := by
  have hfree : TangleFree {tangleKey 0 3 0, tangleKey 60000 2 1} := by
    rintro a ha b hb c hc ⟨-, -, -, -, hfar, -, -⟩
    unfold FarLater at hfar
    rcases ha with rfl | rfl <;> rcases hc with rfl | rfl <;> exact absurd hfar (by decide)
  have hinj : Set.InjOn WorkKey.addr {tangleKey 0 3 0, tangleKey 60000 2 1} := by
    rintro a (rfl | rfl) b (rfl | rfl) h <;> first | rfl | exact absurd h (by decide)
  exact ((workLess_strictWeak_iff _ hinj).mpr hfree).2.2.2 _ (by simp) (by simp)

end OurChain
