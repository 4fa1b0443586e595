import OurChain.Consensus.TxVerify
import OurChain.Script.Script

/-!
# Coins

The UTXO set a block is connected to: one map from outpoints to unspent coins,
with the hash of the block it belongs to. A coin that is absent reads as the empty
coin, which counts as spent.
-/

namespace OurChain

/-- How a check ends that does not return true: with an invalid state, an exception,
or a failed assertion. -/
inductive CheckFailure
  | invalid (reject : Reject)
  | exception (what : String)
  | assertion
  deriving DecidableEq

def CheckFailure.lift : Except Reject α → Except CheckFailure α
  | .ok a => .ok a
  | .error reject => .error (.invalid reject)

theorem CheckFailure.lift_eq_ok {x : Except Reject α} {a : α} :
    CheckFailure.lift x = .ok a ↔ x = .ok a := by
  cases x <;> simp [CheckFailure.lift]

theorem bind_ok_iff {x : Except ε α} {f : α → Except ε β} {b : β} :
    (x >>= f) = .ok b ↔ ∃ a, x = .ok a ∧ f a = .ok b := by
  cases x <;> simp [bind, Except.bind]

theorem ite_error_eq_ok {c : Prop} [Decidable c] {e : ε} {x : Except ε α} :
    (if c then .error e else x) = .ok a ↔ ¬ c ∧ x = .ok a := by
  split <;> simp_all

theorem foldlM_ok_induction {f : σ → α → Except ε σ} {P : σ → Prop} {as : List α} (hs : P s)
    (hstep : ∀ a ∈ as, ∀ s s', P s → f s a = .ok s' → P s') (h : as.foldlM f s = .ok s') : P s' := by
  induction as generalizing s with
  | nil =>
    cases h
    exact hs
  | cons a as ih =>
    rw [List.foldlM_cons] at h
    obtain ⟨s₁, hfirst, hrest⟩ := bind_ok_iff.mp h
    exact ih (hstep a List.mem_cons_self s s₁ hs hfirst)
      (fun a ha => hstep a (List.mem_cons_of_mem _ ha)) hrest

structure Coin where
  out : CTxOut
  fCoinBase : Bool
  nHeight : BitVec 31
  deriving DecidableEq

def Coin.isSpent (coin : Coin) : Bool := coin.out.value = -1

structure CCoinsView where
  coins : Finmap fun _ : COutPoint => Coin
  hashBlock : Uint256

def CTransaction.getHash (H : Bytes → Uint256) (tx : CTransaction) : Uint256 :=
  H (serializeTransaction false tx)

def CTransaction.getWitnessHash (H : Bytes → Uint256) (tx : CTransaction) : Uint256 :=
  if !tx.hasWitness then tx.getHash H else H (serializeTransaction true tx)

namespace CCoinsView

def empty : CCoinsView where
  coins := ∅
  hashBlock := 0

section
variable (view : CCoinsView)

def setBestBlock (hashBlock : Uint256) : CCoinsView := { view with hashBlock }

def haveCoin (outpoint : COutPoint) : Bool := (view.coins.lookup outpoint).isSome

/-- `AccessCoin` where the caller asserts that the coin is not spent. -/
def unspentCoin (outpoint : COutPoint) : Except CheckFailure Coin :=
  match view.coins.lookup outpoint with
  | none => .error .assertion
  | some coin => .ok coin

def haveInputs (tx : CTransaction) : Bool :=
  tx.isCoinBase || tx.vin.all fun txin => view.haveCoin txin.prevout

def getValueIn (tx : CTransaction) : Int :=
  if tx.isCoinBase then 0
  else (tx.vin.map fun txin => ((view.coins.lookup txin.prevout).map fun coin => coin.out.value).getD
    (-1)).sum

def addCoin (outpoint : COutPoint) (coin : Coin) (possible_overwrite : Bool) :
    Except CheckFailure CCoinsView :=
  if coin.isSpent then .error .assertion
  else if isUnspendable coin.out.scriptPubKey then .ok view
  else if !possible_overwrite && view.haveCoin outpoint then
    .error (.exception "Adding new coin that replaces non-pruned entry")
  else .ok { view with coins := view.coins.insert outpoint coin }

end

def addCoins (H : Bytes → Uint256) (view : CCoinsView) (tx : CTransaction) (nHeight : Nat) :
    Except CheckFailure CCoinsView :=
  let fCoinbase := tx.isCoinBase
  let txid := tx.getHash H
  tx.vout.zipIdx.foldlM (fun view (out, i) =>
    view.addCoin ⟨txid, BitVec.ofNat 32 i⟩ ⟨out, fCoinbase, BitVec.ofNat 31 nHeight⟩ fCoinbase) view

/-- The coin that was spent and the view without it; none if there was none. -/
def spendCoin (view : CCoinsView) (outpoint : COutPoint) : Option (Coin × CCoinsView) :=
  (view.coins.lookup outpoint).map fun coin =>
    (coin, { view with coins := view.coins.erase outpoint })

def spendInputs (view : CCoinsView) : List CTxIn → Except CheckFailure (List Coin × CCoinsView)
  | [] => .ok ([], view)
  | txin :: vin =>
    match view.spendCoin txin.prevout with
    | none => .error .assertion
    | some (coin, view) => do
      let (vprevout, view) ← view.spendInputs vin
      return (coin :: vprevout, view)

def updateCoins (H : Bytes → Uint256) (tx : CTransaction) (view : CCoinsView) (nHeight : Nat) :
    Except CheckFailure (List Coin × CCoinsView) := do
  let (vprevout, view) ← if tx.isCoinBase then pure ([], view) else view.spendInputs tx.vin
  let view ← view.addCoins H tx nHeight
  return (vprevout, view)

theorem spendCoin_eq {view view' : CCoinsView} (h : view.spendCoin outpoint = some (coin, view')) :
    view.coins.lookup outpoint = some coin ∧
      view' = { view with coins := view.coins.erase outpoint } := by
  obtain ⟨_, hcoin, heq⟩ := Option.map_eq_some_iff.mp h
  cases heq
  exact ⟨hcoin, rfl⟩

theorem unspentCoin_eq {view : CCoinsView} (h : view.unspentCoin outpoint = .ok coin) :
    view.coins.lookup outpoint = some coin := by
  unfold unspentCoin at h
  split at h <;> simp_all

theorem spendInputs_cons {view view' : CCoinsView} {vprevout : List Coin}
    (h : view.spendInputs (txin :: vin) = .ok (vprevout, view')) :
    ∃ coin rest, vprevout = coin :: rest ∧ view.coins.lookup txin.prevout = some coin ∧
      spendInputs { view with coins := view.coins.erase txin.prevout } vin = .ok (rest, view') := by
  rw [spendInputs] at h
  split at h
  · cases h
  · rename_i coin _ hspend
    obtain ⟨hcoin, rfl⟩ := spendCoin_eq hspend
    obtain ⟨⟨rest, _⟩, hrest, hpure⟩ := bind_ok_iff.mp h
    cases hpure
    exact ⟨coin, rest, rfl, hcoin, hrest⟩

theorem addCoin_ok {view view' : CCoinsView} (h : view.addCoin outpoint coin overwrite = .ok view') :
    (isUnspendable coin.out.scriptPubKey = true ∧ view' = view) ∨
      isUnspendable coin.out.scriptPubKey = false ∧
      (overwrite = false → view.coins.lookup outpoint = none) ∧
        view' = { view with coins := view.coins.insert outpoint coin } := by
  unfold addCoin at h
  cases hscript : isUnspendable coin.out.scriptPubKey with
  | true => simp_all [ite_error_eq_ok]
  | false => cases overwrite <;> simp_all [ite_error_eq_ok, haveCoin]

theorem updateCoins_ok_iff {view view' : CCoinsView} {vprevout : List Coin} :
    view.updateCoins H tx nHeight = .ok (vprevout, view') ↔
      ∃ spent, (if tx.isCoinBase then vprevout = [] ∧ spent = view
          else view.spendInputs tx.vin = .ok (vprevout, spent)) ∧
        spent.addCoins H tx nHeight = .ok view' := by
  have hrest : ∀ r : List Coin × CCoinsView, (do
      let view ← r.2.addCoins H tx nHeight
      pure (r.1, view)) = Except.ok (vprevout, view') ↔
        r.1 = vprevout ∧ r.2.addCoins H tx nHeight = .ok view' := by
    intro r
    cases r.2.addCoins H tx nHeight <;> simp
  cases hcoinbase : tx.isCoinBase with
  | true =>
    simp only [updateCoins, hcoinbase, if_true, pure_bind]
    refine (hrest ([], view)).trans ?_
    simp [eq_comm]
  | false =>
    simp only [updateCoins, hcoinbase, Bool.false_eq_true, if_false]
    rw [bind_ok_iff]
    refine (exists_congr fun r => and_congr_right fun _ => hrest r).trans ?_
    simp

end CCoinsView

end OurChain
