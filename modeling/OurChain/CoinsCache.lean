import OurChain.Coins
import OurChain.Lib.Journal
import OurChain.Lib.WriteBack

/-!
# The stack of coin caches

`CCoinsViewCache` over another cache or over a backing view. Reads fill the caches on
their way, changes stay in the top cache until it is flushed into the one below. To
its user the stack is one map from outpoints to unspent coins.
-/

namespace OurChain

open Function

def OP_CONTRACT : Byte := 0xb3

/-- The constructor of `Coin`, and what `Clear` leaves. -/
def coinEmpty : Coin where
  out := ⟨-1, []⟩
  fCoinBase := false
  nHeight := 0

def Coin.unspent (coin : Coin) : Option Coin := if coin.isSpent then none else some coin

/-- An entry with its flags `DIRTY` and `FRESH`. -/
structure CCoinsCacheEntry where
  coin : Coin
  dirty : Bool
  fresh : Bool
  deriving DecidableEq

structure ContState where
  coins : List COutPoint
  state : Bytes
  deriving DecidableEq

abbrev CCoinsMap := AList fun _ : COutPoint => CCoinsCacheEntry
abbrev CContStateMap := AList fun _ : Uint256 => ContState

structure CCoinsViewCache where
  hashBlock : Uint256
  cacheCoins : CCoinsMap
  cacheContState : CContStateMap

/-- The view under the stack, with states in `β`. It may return a coin that is spent. -/
structure BackingView (β : Type) where
  getCoin : β → COutPoint → Option Coin
  getContState : β → Uint256 → Option ContState
  batchWrite : β → CCoinsMap → CContStateMap → Uint256 → Bool × β

structure CoinsStack (β : Type) where
  caches : List CCoinsViewCache
  base : β

namespace CCoinsViewCache

def empty : CCoinsViewCache := ⟨0, ∅, ∅⟩

/-- `fetched` is what `GetCoin` of the base returns, and the caches it leaves. -/
def fetchCoin (outpoint : COutPoint) (fetched : Option Coin × List CCoinsViewCache)
    (cache : CCoinsViewCache) (below : List CCoinsViewCache) :
    Option CCoinsCacheEntry × CCoinsViewCache × List CCoinsViewCache :=
  match cache.cacheCoins.lookup outpoint with
  | some entry => (some entry, cache, below)
  | none =>
    match fetched with
    | (none, below) => (none, cache, below)
    | (some tmp, below) =>
      let entry : CCoinsCacheEntry := ⟨tmp, false, tmp.isSpent⟩
      (some entry, { cache with cacheCoins := cache.cacheCoins.insert outpoint entry }, below)

def fetchContState (ctid : Uint256) (fetched : Option ContState × List CCoinsViewCache)
    (cache : CCoinsViewCache) (below : List CCoinsViewCache) :
    Option ContState × CCoinsViewCache × List CCoinsViewCache :=
  match cache.cacheContState.lookup ctid with
  | some cs => (some cs, cache, below)
  | none =>
    match fetched with
    | (none, below) => (none, cache, below)
    | (some tmp, below) =>
      (some tmp, { cache with cacheContState := cache.cacheContState.insert ctid tmp }, below)

def addContState (ctid : Uint256) (cs : ContState) (cache : CCoinsViewCache) : CCoinsViewCache :=
  { cache with cacheContState := cache.cacheContState.insert ctid cs }

end CCoinsViewCache

namespace CoinsStack

section
variable {β : Type} (base : BackingView β) (b : β)

def getCoin (outpoint : COutPoint) : List CCoinsViewCache → Option Coin × List CCoinsViewCache
  | [] => (base.getCoin b outpoint, [])
  | cache :: below =>
    let (it, cache, below) := cache.fetchCoin outpoint (getCoin outpoint below) below
    (it.bind fun entry => entry.coin.unspent, cache :: below)

def getContState (ctid : Uint256) : List CCoinsViewCache → Option ContState × List CCoinsViewCache
  | [] => (base.getContState b ctid, [])
  | cache :: below =>
    let (it, cache, below) := cache.fetchContState ctid (getContState ctid below) below
    (it, cache :: below)

section
variable (outpoint : COutPoint)

def accessCoin (cache : CCoinsViewCache) (below : List CCoinsViewCache) :
    Coin × List CCoinsViewCache :=
  let (it, cache, below) := cache.fetchCoin outpoint (getCoin base b outpoint below) below
  ((it.map CCoinsCacheEntry.coin).getD coinEmpty, cache :: below)

def haveCoin (cache : CCoinsViewCache) (below : List CCoinsViewCache) :
    Bool × List CCoinsViewCache :=
  let (it, cache, below) := cache.fetchCoin outpoint (getCoin base b outpoint below) below
  (it.any fun entry => !entry.coin.isSpent, cache :: below)

/-- The contract that the script of a new coin names gets the outpoint. -/
def sendToContract (script : Bytes) (cache : CCoinsViewCache)
    (below : List CCoinsViewCache) : List CCoinsViewCache :=
  match getOpData script with
  | some (op, _, pc) =>
    if op ≠ OP_CONTRACT then cache :: below
    else match getOpData pc with
      | some (_, raw_ctid, _) =>
        if raw_ctid.length ≠ 32 then cache :: below
        else
          let ctid : Uint256 := BitVec.ofNat 256 (ofLeBytes raw_ctid)
          match cache.fetchContState ctid (getContState base b ctid below) below with
          | (none, cache, below) => cache :: below
          | (some cs, cache, below) =>
            cache.addContState ctid { cs with coins := cs.coins ++ [outpoint] } :: below
      | none => cache :: below
  | none => cache :: below

def addCoin (coin : Coin) (possible_overwrite : Bool) (cache : CCoinsViewCache)
    (below : List CCoinsViewCache) : Except CheckFailure (List CCoinsViewCache) :=
  if coin.isSpent then .error .assertion
  else if isUnspendable coin.out.scriptPubKey then .ok (cache :: below)
  else
    let it := (cache.cacheCoins.lookup outpoint).getD ⟨coinEmpty, false, false⟩
    if !possible_overwrite && !it.coin.isSpent then
      .error (.exception "Adding new coin that replaces non-pruned entry")
    else
      let fresh := !possible_overwrite && !it.dirty
      let entry : CCoinsCacheEntry := ⟨coin, true, it.fresh || fresh⟩
      let cache := { cache with cacheCoins := cache.cacheCoins.insert outpoint entry }
      .ok (sendToContract base b outpoint coin.out.scriptPubKey cache below)

/-- What is moved out; none if `SpendCoin` returns false. -/
def spendCoin (cache : CCoinsViewCache) (below : List CCoinsViewCache) :
    Option Coin × List CCoinsViewCache :=
  match cache.fetchCoin outpoint (getCoin base b outpoint below) below with
  | (none, cache, below) => (none, cache :: below)
  | (some entry, cache, below) =>
    let cacheCoins := if entry.fresh then cache.cacheCoins.erase outpoint
      else cache.cacheCoins.insert outpoint ⟨coinEmpty, true, entry.fresh⟩
    (some entry.coin, { cache with cacheCoins } :: below)

end

end

end CoinsStack

def writeEntry (cacheCoins : CCoinsMap) (it : Σ _ : COutPoint, CCoinsCacheEntry) :
    Except CheckFailure CCoinsMap :=
  if !it.2.dirty then .ok cacheCoins
  else match cacheCoins.lookup it.1 with
    | none =>
      if it.2.fresh && it.2.coin.isSpent then .ok cacheCoins
      else .ok (cacheCoins.insert it.1 ⟨it.2.coin, true, it.2.fresh⟩)
    | some itUs =>
      if it.2.fresh && !itUs.coin.isSpent then
        .error (.exception
          "FRESH flag misapplied to cache entry for base transaction with spendable outputs")
      else if itUs.fresh && it.2.coin.isSpent then .ok (cacheCoins.erase it.1)
      else .ok (cacheCoins.insert it.1 ⟨it.2.coin, true, itUs.fresh⟩)

namespace CCoinsViewCache

def batchWrite (mapCoins : CCoinsMap) (mapContState : CContStateMap) (hashBlockIn : Uint256)
    (cache : CCoinsViewCache) : Except CheckFailure CCoinsViewCache := do
  let cacheCoins ← mapCoins.entries.foldlM writeEntry cache.cacheCoins
  let cacheContState := mapContState.entries.foldl (fun m it =>
    m.insert it.1 it.2) cache.cacheContState
  return ⟨hashBlockIn, cacheCoins, cacheContState⟩

def clear (cache : CCoinsViewCache) : CCoinsViewCache :=
  { cache with cacheCoins := ∅, cacheContState := ∅ }

def uncache (outpoint : COutPoint) (cache : CCoinsViewCache) : CCoinsViewCache :=
  match cache.cacheCoins.lookup outpoint with
  | none => cache
  | some it =>
    if !it.dirty && !it.fresh then { cache with cacheCoins := cache.cacheCoins.erase outpoint }
    else cache

end CCoinsViewCache

namespace CoinsStack

variable {β : Type} (base : BackingView β)

def flush (cache : CCoinsViewCache) (below : List CCoinsViewCache) (b : β) :
    Except CheckFailure (Bool × CoinsStack β) :=
  match below with
  | [] =>
    let (fOk, b) := base.batchWrite b cache.cacheCoins cache.cacheContState cache.hashBlock
    .ok (fOk, ⟨[cache.clear], b⟩)
  | parent :: below => do
    let parent ← parent.batchWrite cache.cacheCoins cache.cacheContState cache.hashBlock
    return (true, ⟨cache.clear :: parent :: below, b⟩)

/-- `Flush` of the cache at a depth of the stack. -/
def flushAt : Nat → List CCoinsViewCache → β → Except CheckFailure (Bool × CoinsStack β)
  | _, [], b => .ok (true, ⟨[], b⟩)
  | 0, cache :: below, b => flush base cache below b
  | depth + 1, cache :: below, b => do
    let (fOk, s) ← flushAt depth below b
    return (fOk, { s with caches := cache :: s.caches })

end CoinsStack

inductive CoinsOp
  | addCoin (outpoint : COutPoint) (coin : Coin) (possible_overwrite : Bool)
  | spendCoin (outpoint : COutPoint)
  | getCoin (outpoint : COutPoint)
  | accessCoin (outpoint : COutPoint)
  | haveCoin (outpoint : COutPoint)
  | uncache (depth : Nat) (outpoint : COutPoint)
  | flush (depth : Nat)
  | push
  | pop
  deriving DecidableEq

inductive CoinsResult
  | done
  | coin (coin : Option Coin)
  | found (haveCoin : Bool)
  | flushed (fOk : Bool)
  deriving DecidableEq

namespace CoinsStack

variable {β : Type} (base : BackingView β)

/-- All but `Uncache` and `Flush` act on the top cache. -/
def step (op : CoinsOp) (s : CoinsStack β) : Except CheckFailure (CoinsResult × CoinsStack β) :=
  match s.caches with
  | [] => .ok (.done, if op = .push then { s with caches := [.empty] } else s)
  | cache :: below =>
    match op with
    | .addCoin outpoint coin possible_overwrite => do
      let caches ← CoinsStack.addCoin base s.base outpoint coin possible_overwrite cache below
      return (.done, { s with caches })
    | .spendCoin outpoint =>
      let (moveout, caches) := CoinsStack.spendCoin base s.base outpoint cache below
      .ok (.coin moveout, { s with caches })
    | .getCoin outpoint =>
      let (coin, caches) := CoinsStack.getCoin base s.base outpoint (cache :: below)
      .ok (.coin coin, { s with caches })
    | .accessCoin outpoint =>
      let (coin, caches) := CoinsStack.accessCoin base s.base outpoint cache below
      .ok (.coin (some coin), { s with caches })
    | .haveCoin outpoint =>
      let (found, caches) := CoinsStack.haveCoin base s.base outpoint cache below
      .ok (.found found, { s with caches })
    | .uncache depth outpoint =>
      .ok (.done, { s with caches := s.caches.modify depth (·.uncache outpoint) })
    | .flush depth => do
      let (fOk, s) ← flushAt base depth s.caches s.base
      return (.flushed fOk, s)
    | .push => .ok (.done, { s with caches := .empty :: s.caches })
    | .pop => do
      let (fOk, s) ← CoinsStack.flush base cache below s.base
      return (.flushed fOk, { s with caches := s.caches.tail })

/-- A run ends with a `Flush` that returns false: it leaves the view undefined. -/
def run : List CoinsOp → CoinsStack β → Except CheckFailure (List CoinsResult × CoinsStack β)
  | [], s => .ok ([], s)
  | op :: ops, s => do
    let (result, s) ← s.step base op
    if result = .flushed false then return ([result], s)
    let (results, s) ← run ops s
    return (result :: results, s)

end CoinsStack

def CCoinsCacheEntry.line (entry : CCoinsCacheEntry) : WriteBack.Line Coin :=
  ⟨entry.coin.unspent, entry.dirty, entry.fresh⟩

/-- `BatchWrite`, where it returns true, stores the dirty entries. -/
def BackingView.Lawful (base : BackingView β) : Prop :=
  ∀ b coins states hash, (base.batchWrite b coins states hash).1 = true → ∀ outpoint,
    (base.getCoin (base.batchWrite b coins states hash).2 outpoint).bind Coin.unspent =
      match (coins.lookup outpoint).filter CCoinsCacheEntry.dirty with
      | some entry => entry.coin.unspent
      | none => (base.getCoin b outpoint).bind Coin.unspent

def CCoinsMap.seen (below : COutPoint → Option Coin) (coins : CCoinsMap) (outpoint : COutPoint) :
    Option Coin :=
  WriteBack.view (below outpoint) ((coins.lookup outpoint).map CCoinsCacheEntry.line)

def CCoinsMap.Sound (below : COutPoint → Option Coin) (coins : CCoinsMap) : Prop :=
  ∀ outpoint entry, coins.lookup outpoint = some entry → WriteBack.Sound (below outpoint) entry.line

namespace CoinsStack

variable {β : Type} (base : BackingView β) (b : β)

def view : List CCoinsViewCache → COutPoint → Option Coin
  | [] => fun outpoint => (base.getCoin b outpoint).bind Coin.unspent
  | cache :: below => cache.cacheCoins.seen (view below)

def Sound : List CCoinsViewCache → Prop
  | [] => True
  | cache :: below => cache.cacheCoins.Sound (view base b below) ∧ Sound below

end CoinsStack

def CoinsOp.onMap (coins : COutPoint → Option Coin) :
    CoinsOp → CoinsResult × (COutPoint → Option Coin)
  | .addCoin outpoint coin _ =>
    (.done, if isUnspendable coin.out.scriptPubKey then coins
      else update coins outpoint (some coin))
  | .spendCoin outpoint => (.coin (coins outpoint), update coins outpoint none)
  | .getCoin outpoint => (.coin (coins outpoint), coins)
  | .accessCoin outpoint => (.coin (coins outpoint), coins)
  | .haveCoin outpoint => (.found (coins outpoint).isSome, coins)
  | .uncache _ _ => (.done, coins)
  | .flush _ => (.flushed true, coins)
  | .push => (.done, coins)
  | .pop => (.flushed true, coins)

def CoinsResult.observed : CoinsResult → CoinsResult
  | .coin read => .coin (read.bind Coin.unspent)
  | result => result

/-- The caller's part, on a stack of some height that stands for `coins`. -/
def CoinsOp.Allowed (height : Nat) (coins : COutPoint → Option Coin) : CoinsOp → Prop
  | .addCoin outpoint coin possible_overwrite => 0 < height ∧ coin.isSpent = false ∧
      (possible_overwrite = false → coins outpoint = none)
  | .uncache depth _ => depth < height
  | .flush depth => depth < height
  | .push => True
  | _ => 0 < height

def CoinsOp.heightAfter (height : Nat) : CoinsOp → Nat
  | .push => height + 1
  | .pop => height - 1
  | _ => height

def runOnMap (coins : COutPoint → Option Coin) :
    List CoinsOp → List CoinsResult × (COutPoint → Option Coin)
  | [] => ([], coins)
  | op :: ops =>
    let (results, coins') := runOnMap (op.onMap coins).2 ops
    ((op.onMap coins).1 :: results, coins')

def AllowedRun : Nat → (COutPoint → Option Coin) → List CoinsOp → Prop
  | _, _, [] => True
  | height, coins, op :: ops =>
    op.Allowed height coins ∧ AllowedRun (op.heightAfter height) (op.onMap coins).2 ops

namespace CCoinsMap

variable {below : COutPoint → Option Coin} {coins : CCoinsMap}

section
variable (below : COutPoint → Option Coin) (coins : CCoinsMap) (outpoint : COutPoint)

theorem seen_insert (entry : CCoinsCacheEntry) :
    seen below (coins.insert outpoint entry) =
      update (seen below coins) outpoint entry.coin.unspent := by
  funext o
  by_cases ho : o = outpoint
  · subst ho
    simp [seen, WriteBack.view, CCoinsCacheEntry.line]
  · simp [seen, AList.lookup_insert_ne ho, ho]

theorem seen_erase :
    seen below (coins.erase outpoint) =
      update (seen below coins) outpoint (below outpoint) := by
  funext o
  by_cases ho : o = outpoint
  · subst ho
    simp [seen, WriteBack.view]
  · simp [seen, AList.lookup_erase_ne ho, ho]

end

theorem Sound.insert (h : Sound below coins) (hentry : WriteBack.Sound (below outpoint) entry.line) :
    Sound below (coins.insert outpoint entry) := by
  intro o e ho
  by_cases heq : o = outpoint
  · subst heq
    rw [AList.lookup_insert] at ho
    cases ho
    exact hentry
  · rw [AList.lookup_insert_ne heq] at ho
    exact h o e ho

theorem Sound.erase (h : Sound below coins) (outpoint : COutPoint) :
    Sound below (coins.erase outpoint) := by
  intro o e ho
  by_cases heq : o = outpoint
  · subst heq
    rw [AList.lookup_erase] at ho
    cases ho
  · rw [AList.lookup_erase_ne heq] at ho
    exact h o e ho

theorem seen_of_lookup (h : coins.lookup outpoint = some entry) :
    seen below coins outpoint = entry.coin.unspent := by
  simp [seen, h, WriteBack.view, CCoinsCacheEntry.line]

theorem seen_of_lookup_none (h : coins.lookup outpoint = none) :
    seen below coins outpoint = below outpoint := by
  simp [seen, h, WriteBack.view]

end CCoinsMap

namespace CoinsStack

variable {β : Type} {base : BackingView β} {b b' : β} {cache : CCoinsViewCache}
  {below caches caches' : List CCoinsViewCache}

theorem unspent_isSome (coin : Coin) : coin.unspent.isSome = !coin.isSpent := by
  unfold Coin.unspent
  cases coin.isSpent <;> rfl

theorem unspent_isNone (coin : Coin) : coin.unspent.isNone = coin.isSpent := by
  unfold Coin.unspent
  cases coin.isSpent <;> rfl

theorem unspent_getD (coin : Option Coin) :
    (coin.getD coinEmpty).unspent = coin.bind Coin.unspent := by
  cases coin <;> rfl

theorem any_unspent (entry : Option CCoinsCacheEntry) : (entry.any fun entry => !entry.coin.isSpent) =
    ((entry.map CCoinsCacheEntry.coin).bind Coin.unspent).isSome := by
  cases entry with
  | none => rfl
  | some entry => exact (unspent_isSome entry.coin).symm

theorem line_fetched (coin : Coin) :
    CCoinsCacheEntry.line ⟨coin, false, coin.isSpent⟩ = ⟨coin.unspent, false,
    coin.unspent.isNone⟩ := by
  rw [unspent_isNone]
  rfl

theorem unspent_bind_unspent (coin : Option Coin) :
    (coin.bind Coin.unspent).bind Coin.unspent = coin.bind Coin.unspent := by
  cases coin with
  | none => rfl
  | some coin => cases hspent : coin.isSpent <;> simp [Coin.unspent, hspent]

structure Same (base : BackingView β) (b : β) (caches : List CCoinsViewCache) (b' : β)
    (caches' : List CCoinsViewCache) : Prop where
  sound : Sound base b' caches'
  coins : view base b' caches' = view base b caches
  height : caches'.length = caches.length

theorem Same.refl (h : Sound base b caches) : Same base b caches b caches := ⟨h, rfl, rfl⟩

theorem Same.cons (h : Same base b below b' below')
    (hcache : cache.cacheCoins.Sound (view base b below))
    (hcoins : cache'.cacheCoins = cache.cacheCoins) :
    Same base b (cache :: below) b' (cache' :: below') where
  sound := ⟨by rwa [h.coins, hcoins], h.sound⟩
  coins := by rw [view, view, h.coins, hcoins]
  height := by rw [List.length_cons, h.height, List.length_cons]

theorem fetchCoin_spec (hs : Sound base b (cache :: below))
    {fetched : Option Coin × List CCoinsViewCache}
    (hfetched : Same base b below b fetched.2 ∧ fetched.1.bind Coin.unspent =
    view base b below outpoint) :
    let r := cache.fetchCoin outpoint fetched below
    Same base b (cache :: below) b (r.2.1 :: r.2.2) ∧ r.2.1.cacheCoins.lookup outpoint = r.1 ∧
      (r.1.map CCoinsCacheEntry.coin).bind Coin.unspent = view base b (cache :: below) outpoint := by
  obtain ⟨hcache, hbelow⟩ := hs
  obtain ⟨hsame, hcoin⟩ := hfetched
  unfold CCoinsViewCache.fetchCoin
  cases hlookup : cache.cacheCoins.lookup outpoint with
  | some entry => exact ⟨.refl ⟨hcache, hbelow⟩, hlookup, (CCoinsMap.seen_of_lookup hlookup).symm⟩
  | none =>
    have hread : view base b (cache :: below) outpoint = view base b below outpoint :=
      CCoinsMap.seen_of_lookup_none hlookup
    obtain ⟨tmp, below'⟩ := fetched
    cases tmp with
    | none =>
      exact ⟨hsame.cons hcache rfl, hlookup, hcoin.trans hread.symm⟩
    | some tmp =>
      have htmp : tmp.unspent = view base b below outpoint := hcoin
      have hline : WriteBack.Sound (view base b below outpoint)
          (CCoinsCacheEntry.line ⟨tmp, false, tmp.isSpent⟩) := by
        rw [line_fetched, htmp]
        exact .fetched _
      refine ⟨⟨⟨?_, hsame.sound⟩, ?_, ?_⟩, AList.lookup_insert _, hcoin.trans hread.symm⟩
      · rw [hsame.coins]
        exact hcache.insert hline
      · rw [view, hsame.coins, CCoinsMap.seen_insert, htmp, ← hread]
        exact update_eq_self outpoint _
      · exact congrArg Nat.succ hsame.height

theorem getCoin_spec (hs : Sound base b caches) (outpoint : COutPoint) :
    Same base b caches b (getCoin base b outpoint caches).2 ∧
      (getCoin base b outpoint caches).1.bind Coin.unspent = view base b caches outpoint := by
  induction caches with
  | nil => exact ⟨.refl hs, rfl⟩
  | cons cache below ih =>
    obtain ⟨hfetch, -, hread⟩ := fetchCoin_spec hs (ih hs.2)
    refine ⟨hfetch, ?_⟩
    have hresult : (getCoin base b outpoint (cache :: below)).1 = ((cache.fetchCoin outpoint
        (getCoin base b outpoint below) below).1.map CCoinsCacheEntry.coin).bind Coin.unspent := by
      rw [Option.bind_map]
      rfl
    rw [hresult, unspent_bind_unspent, hread]

theorem fetchContState_same (hs : Sound base b (cache :: below))
    {fetched : Option ContState × List CCoinsViewCache} (hsame : Same base b below b fetched.2)
    (ctid : Uint256) :
    let r := cache.fetchContState ctid fetched below
    Same base b (cache :: below) b (r.2.1 :: r.2.2) := by
  unfold CCoinsViewCache.fetchContState
  cases cache.cacheContState.lookup ctid with
  | some cs => exact .refl hs
  | none =>
    obtain ⟨tmp, below'⟩ := fetched
    cases tmp with
    | none => exact hsame.cons hs.1 rfl
    | some tmp => exact hsame.cons hs.1 rfl

theorem getContState_same (hs : Sound base b caches) (ctid : Uint256) :
    Same base b caches b (getContState base b ctid caches).2 := by
  induction caches with
  | nil => exact .refl hs
  | cons cache below ih => exact fetchContState_same hs (ih hs.2) ctid

section
variable (hs : Sound base b (cache :: below))
include hs

theorem sendToContract_same (outpoint : COutPoint) (script : Bytes) :
    Same base b (cache :: below) b (sendToContract base b outpoint script cache below) := by
  unfold sendToContract
  split
  · split
    · exact .refl hs
    · split
      · split
        · exact .refl hs
        · rename_i raw_ctid _ _ _
          have hfetch := fetchContState_same hs (getContState_same hs.2
            (BitVec.ofNat 256 (ofLeBytes raw_ctid))) (BitVec.ofNat 256 (ofLeBytes raw_ctid))
          dsimp only at hfetch ⊢
          split
          · rename_i hresult
            rwa [hresult] at hfetch
          · rename_i hresult
            rw [hresult] at hfetch
            exact ⟨hfetch.sound, hfetch.coins, hfetch.height⟩
      · exact .refl hs
  · exact .refl hs

theorem insert_spec (entry : CCoinsCacheEntry)
    (hline : WriteBack.Sound (view base b below outpoint) entry.line) :
    let coins := cache.cacheCoins.insert outpoint entry
    Sound base b ({ cache with cacheCoins := coins } :: below) ∧
      view base b ({ cache with cacheCoins := coins } :: below) =
        update (view base b (cache :: below)) outpoint entry.coin.unspent :=
  ⟨⟨hs.1.insert hline, hs.2⟩, CCoinsMap.seen_insert ..⟩

theorem addCoin_line (hit : (cache.cacheCoins.lookup outpoint).getD ⟨coinEmpty, false, false⟩ = it)
    (hoverwrite : possible_overwrite = false → view base b (cache :: below) outpoint = none) :
    (possible_overwrite = false → it.coin.unspent = none) ∧ ∀ value,
      WriteBack.Sound (view base b below outpoint)
        ⟨value, true, it.fresh || !possible_overwrite && !it.dirty⟩ := by
  cases hlookup : cache.cacheCoins.lookup outpoint with
  | none =>
    rw [hlookup] at hit
    cases hit
    have hread : view base b (cache :: below) outpoint = view base b below outpoint :=
      CCoinsMap.seen_of_lookup_none hlookup
    refine ⟨fun _ => rfl, fun value => ⟨nofun, fun hfresh => ?_⟩⟩
    exact hread.symm.trans (hoverwrite (by simpa using hfresh))
  | some entry =>
    rw [hlookup] at hit
    cases hit
    have hline := hs.1 outpoint entry hlookup
    have hread : possible_overwrite = false → entry.coin.unspent = none := fun hno =>
      (CCoinsMap.seen_of_lookup hlookup).symm.trans (hoverwrite hno)
    refine ⟨hread, fun value => ?_⟩
    cases possible_overwrite with
    | true =>
      rw [Bool.not_true, Bool.false_and, Bool.or_false]
      exact hline.write value
    | false => exact hline.add (hread rfl) value

theorem addCoin_spec (hcoin : coin.isSpent = false)
    (hoverwrite : possible_overwrite = false → view base b (cache :: below) outpoint = none) :
    ∃ caches', addCoin base b outpoint coin possible_overwrite cache below = .ok caches' ∧
      Sound base b caches' ∧ caches'.length = (cache :: below).length ∧
      view base b caches' = if isUnspendable coin.out.scriptPubKey then view base b (cache :: below)
        else update (view base b (cache :: below)) outpoint (some coin) := by
  unfold addCoin
  rw [hcoin]
  by_cases hscript : isUnspendable coin.out.scriptPubKey = true
  · simp only [hscript, Bool.false_eq_true, if_false, if_true]
    exact ⟨_, rfl, hs, rfl, rfl⟩
  · generalize hit : (cache.cacheCoins.lookup outpoint).getD ⟨coinEmpty, false, false⟩ = it
    obtain ⟨hread, hline⟩ := addCoin_line hs hit hoverwrite
    have hnothrow : ¬(!possible_overwrite && !it.coin.isSpent) = true := by
      rw [← unspent_isSome]
      intro hthrow
      obtain ⟨hno, hsome⟩ := Bool.and_eq_true_iff.mp hthrow
      rw [hread (by simpa using hno)] at hsome
      cases hsome
    simp only [hscript, hnothrow, Bool.false_eq_true, if_false]
    obtain ⟨hsound, hview⟩ := insert_spec hs
      ⟨coin, true, it.fresh || !possible_overwrite && !it.dirty⟩ (hline coin.unspent)
    have hsend := sendToContract_same hsound outpoint coin.out.scriptPubKey
    have hunspent : coin.unspent = some coin := by simp [Coin.unspent, hcoin]
    exact ⟨_, rfl, hsend.sound, hsend.height, hunspent ▸ hsend.coins.trans hview⟩

theorem spendCoin_spec (outpoint : COutPoint) :
    let r := spendCoin base b outpoint cache below
    Sound base b r.2 ∧ r.2.length = (cache :: below).length ∧
      view base b r.2 = update (view base b (cache :: below)) outpoint none ∧
      r.1.bind Coin.unspent = view base b (cache :: below) outpoint := by
  obtain ⟨hsame, hlookup, hread⟩ := fetchCoin_spec hs (getCoin_spec hs.2 outpoint)
  unfold spendCoin
  split
  · rename_i hfetch
    rw [hfetch] at hsame hread
    refine ⟨hsame.sound, hsame.height, ?_, hread⟩
    rw [hsame.coins, show none = _ from hread]
    exact (update_eq_self outpoint _).symm
  · rename_i entry cache' below' hfetch
    rw [hfetch] at hsame hlookup hread
    have hline := hsame.sound.1 outpoint entry hlookup
    rw [← hsame.coins] at hread ⊢
    cases hfresh : entry.fresh with
    | true =>
      refine ⟨⟨hsame.sound.1.erase outpoint, hsame.sound.2⟩, hsame.height, ?_, hread⟩
      refine (CCoinsMap.seen_erase ..).trans ?_
      rw [hline.fresh hfresh]
      rfl
    | false =>
      have hcleared := hline.write none
      rw [show entry.line.fresh = false from hfresh] at hcleared
      obtain ⟨hsound, hview⟩ := insert_spec hsame.sound ⟨coinEmpty, true, false⟩ hcleared
      exact ⟨hsound, hsame.height, hview, hread⟩

end

theorem writeEntry_merge (coins : CCoinsMap) (it : Σ _ : COutPoint, CCoinsCacheEntry)
    (hdirty : it.2.dirty = true)
    (hmerge : WriteBack.merge it.2.line ((coins.lookup it.1).map CCoinsCacheEntry.line) =
    some merged) :
    ∃ coins', writeEntry coins it = .ok coins' ∧ (∀ o ≠ it.1, coins'.lookup o = coins.lookup o) ∧
      (coins'.lookup it.1).map CCoinsCacheEntry.line = merged := by
  have hinsert : ∀ entry : CCoinsCacheEntry, some (some entry.line) = some merged →
      ∃ coins', Except.ok (coins.insert it.1 entry) = Except.ok (ε := CheckFailure) coins' ∧
        (∀ o ≠ it.1, coins'.lookup o = coins.lookup o) ∧
        (coins'.lookup it.1).map CCoinsCacheEntry.line = merged := by
    rintro entry ⟨⟩
    exact ⟨_, rfl, fun o ho => AList.lookup_insert_ne ho, by rw [AList.lookup_insert]; rfl⟩
  cases hlookup : coins.lookup it.1 with
  | none =>
    simp only [writeEntry, hdirty, hlookup, Bool.not_true, Bool.false_eq_true, if_false]
    simp only [hlookup, WriteBack.merge, CCoinsCacheEntry.line, Option.map_none,
      unspent_isNone] at hmerge
    split at hmerge <;> rename_i hgone <;> simp only [hgone, if_true]
    · exact ⟨coins, rfl, fun _ _ => rfl, by rw [hlookup]; exact Option.some.inj hmerge⟩
    · exact hinsert _ hmerge
  | some itUs =>
    simp only [writeEntry, hdirty, hlookup, Bool.not_true, Bool.false_eq_true, if_false]
    simp only [hlookup, WriteBack.merge, CCoinsCacheEntry.line, Option.map_some, unspent_isNone,
      unspent_isSome] at hmerge
    split_ifs at hmerge ⊢
    · refine ⟨_, rfl, fun o ho => AList.lookup_erase_ne ho, ?_⟩
      rw [AList.lookup_erase]
      exact Option.some.inj hmerge
    · exact hinsert _ hmerge

/-- The entries of a sound map of the cache above are written: the coins are those of the
cache above, and the flags are right again. -/
theorem foldlM_writeEntry {coins child : CCoinsMap} {below : COutPoint → Option Coin}
    (hcoins : coins.Sound below) (hchild : child.Sound (coins.seen below)) :
    ∃ coins', child.entries.foldlM writeEntry coins = .ok coins' ∧ coins'.Sound below ∧
      coins'.seen below = child.seen (coins.seen below) := by
  let Written (o : COutPoint) (e : CCoinsCacheEntry) (us : Option CCoinsCacheEntry) : Prop :=
    WriteBack.view (below o) (us.map CCoinsCacheEntry.line) = e.coin.unspent ∧
      ∀ entry, us = some entry → WriteBack.Sound (below o) entry.line
  have hstep : ∀ o e, child.lookup o = some e → ∀ m : CCoinsMap, m.lookup o = coins.lookup o →
      ∃ m', writeEntry m ⟨o, e⟩ = .ok m' ∧ (∀ o' ≠ o, m'.lookup o' = m.lookup o') ∧
        Written o e (m'.lookup o) := by
    intro o e he m hm
    have hline : WriteBack.Sound (coins.seen below o) e.line := hchild o e he
    have hown : ∀ l ∈ (m.lookup o).map CCoinsCacheEntry.line, WriteBack.Sound (below o) l := by
      rw [hm]
      intro l hl
      obtain ⟨entry, hentry, rfl⟩ := Option.map_eq_some_iff.mp hl
      exact hcoins o entry hentry
    cases hdirty : e.dirty with
    | false =>
      refine ⟨m, by simp [writeEntry, hdirty], fun _ _ => rfl, ?_, fun entry hentry => ?_⟩
      · rw [hm]
        exact (hline.clean hdirty).symm
      · exact hown _ (by rw [hentry]; rfl)
    | true =>
      rw [CCoinsMap.seen, ← hm] at hline
      obtain ⟨merged, hmerge, hview, hsound⟩ := WriteBack.merge_spec hown hline
      obtain ⟨m', hm', hother, hmerged⟩ := writeEntry_merge m ⟨o, e⟩ hdirty hmerge
      refine ⟨m', hm', hother, hmerged ▸ hview, fun entry hentry => hsound _ ?_⟩
      rw [← hmerged, hentry]
      rfl
  obtain ⟨coins', hfold, hall, hsame⟩ := foldlM_entries Written hstep
  refine ⟨coins', hfold, fun o entry hentry => ?_, funext fun o => ?_⟩
  · cases hlookup : child.lookup o with
    | none => exact hcoins o entry (hsame o hlookup ▸ hentry)
    | some e => exact (hall o e hlookup).2 entry hentry
  · cases hlookup : child.lookup o with
    | none =>
      rw [CCoinsMap.seen_of_lookup_none hlookup, CCoinsMap.seen, hsame o hlookup]
      rfl
    | some e => exact (hall o e hlookup).1.trans (CCoinsMap.seen_of_lookup hlookup).symm

theorem batchWrite_spec {parent : CCoinsViewCache} {below : COutPoint → Option Coin}
    (hparent : parent.cacheCoins.Sound below)
    (hcache : cache.cacheCoins.Sound (parent.cacheCoins.seen below)) :
    ∃ parent', parent.batchWrite cache.cacheCoins cache.cacheContState cache.hashBlock = .ok parent' ∧
      parent'.cacheCoins.Sound below ∧
      parent'.cacheCoins.seen below = cache.cacheCoins.seen (parent.cacheCoins.seen below) := by
  obtain ⟨coins', hfold, hsound, hseen⟩ := foldlM_writeEntry hparent hcache
  refine ⟨⟨cache.hashBlock, coins', cache.cacheContState.entries.foldl (fun m it =>
    m.insert it.1 it.2) parent.cacheContState⟩, ?_, hsound, hseen⟩
  rw [CCoinsViewCache.batchWrite, hfold]
  rfl

theorem sound_clear (hs : Sound base b below) (cache : CCoinsViewCache) :
    Sound base b (cache.clear :: below) := by
  refine ⟨fun o entry hentry => ?_, hs⟩
  rw [show cache.clear.cacheCoins = ∅ from rfl, AList.lookup_empty] at hentry
  cases hentry

theorem flush_spec (hbase : base.Lawful) (hs : Sound base b (cache :: below)) :
    ∃ fOk below' b', flush base cache below b = .ok (fOk, ⟨cache.clear :: below', b'⟩) ∧
      below'.length = below.length ∧
      (fOk = true → Sound base b' below' ∧ view base b' below' = view base b (cache :: below)) := by
  obtain ⟨hcache, hbelow⟩ := hs
  cases below with
  | nil =>
    refine ⟨_, [], _, rfl, rfl, fun hok => ⟨trivial, funext fun o => ?_⟩⟩
    refine (hbase _ _ _ _ hok o).trans ?_
    rw [view]
    cases hlookup : cache.cacheCoins.lookup o with
    | none =>
      rw [CCoinsMap.seen_of_lookup_none hlookup]
      rfl
    | some entry =>
      rw [CCoinsMap.seen_of_lookup hlookup]
      cases hdirty : entry.dirty with
      | true => simp only [Option.filter, hdirty, if_true]
      | false =>
        simp only [Option.filter, hdirty, Bool.false_eq_true, if_false]
        exact ((hcache o entry hlookup).clean hdirty).symm
  | cons parent below =>
    obtain ⟨parent', hwrite, hsound, hseen⟩ := batchWrite_spec hbelow.1 hcache
    refine ⟨true, parent' :: below, b, ?_, rfl, fun _ => ⟨⟨hsound, hbelow.2⟩, hseen⟩⟩
    rw [flush, hwrite]
    rfl

theorem view_clear (cache : CCoinsViewCache) :
    view base b (cache.clear :: below) = view base b below :=
  funext fun _ => rfl

theorem flushAt_spec (hbase : base.Lawful) (hs : Sound base b caches) (depth : Nat) :
    ∃ fOk s, flushAt base depth caches b = .ok (fOk, s) ∧
      (fOk = true → Same base b caches s.base s.caches) := by
  induction caches generalizing depth with
  | nil => exact ⟨true, ⟨[], b⟩, by simp [flushAt], fun _ => .refl trivial⟩
  | cons cache below ih =>
    cases depth with
    | zero =>
      obtain ⟨fOk, below', b', hflush, hheight, hok⟩ := flush_spec hbase hs
      refine ⟨fOk, _, hflush, fun h => ?_⟩
      obtain ⟨hsound, hview⟩ := hok h
      exact ⟨sound_clear hsound cache, (view_clear cache).trans hview, congrArg Nat.succ hheight⟩
    | succ depth =>
      obtain ⟨fOk, s, hflush, hok⟩ := ih hs.2 depth
      refine ⟨fOk, ⟨cache :: s.caches, s.base⟩, ?_, fun h => (hok h).cons hs.1 rfl⟩
      rw [flushAt, hflush]
      rfl

theorem uncache_same (hs : Sound base b caches) (depth : Nat) (outpoint : COutPoint) :
    Same base b caches b (caches.modify depth (·.uncache outpoint)) := by
  induction caches generalizing depth with
  | nil => simpa using Same.refl hs
  | cons cache below ih =>
    cases depth with
    | succ depth => exact (ih hs.2 depth).cons hs.1 rfl
    | zero =>
      rw [List.modify_zero_cons]
      unfold CCoinsViewCache.uncache
      split
      · exact .refl hs
      · rename_i it hlookup
        split
        · rename_i hflags
          have hclean : it.dirty = false := by simpa using (Bool.and_eq_true_iff.mp hflags).1
          have hread : view base b below outpoint = view base b (cache :: below) outpoint :=
            ((hs.1 outpoint it hlookup).clean hclean).symm.trans
              (CCoinsMap.seen_of_lookup hlookup).symm
          refine ⟨⟨hs.1.erase outpoint, hs.2⟩, ?_, rfl⟩
          refine (CCoinsMap.seen_erase ..).trans ?_
          rw [hread]
          exact update_eq_self outpoint _
        · exact .refl hs

/-- What a step does to a stack whose flags are right, if it is not a failed `Flush`. -/
structure Refines (base : BackingView β) (op : CoinsOp) (s : CoinsStack β) (result : CoinsResult)
    (s' : CoinsStack β) : Prop where
  sound : Sound base s'.base s'.caches
  result : result.observed = (op.onMap (view base s.base s.caches)).1
  coins : view base s'.base s'.caches = (op.onMap (view base s.base s.caches)).2
  height : s'.caches.length = op.heightAfter s.caches.length

theorem step_refines (hbase : base.Lawful) {s : CoinsStack β} (hs : Sound base s.base s.caches)
    (hallowed : op.Allowed s.caches.length (view base s.base s.caches)) :
    ∃ result s', s.step base op = .ok (result, s') ∧
      (result = .flushed false ∨ Refines base op s result s') := by
  obtain ⟨caches, b⟩ := s
  cases caches with
  | nil =>
    cases op with
    | push => exact ⟨.done, ⟨[.empty], b⟩, rfl, .inr ⟨sound_clear hs .empty, rfl, rfl, rfl⟩⟩
    | addCoin => exact absurd hallowed.1 (Nat.lt_irrefl 0)
    | _ => exact absurd hallowed (Nat.not_lt_zero _)
  | cons cache below =>
    cases op with
    | addCoin outpoint coin possible_overwrite =>
      obtain ⟨-, hcoin, hoverwrite⟩ := hallowed
      obtain ⟨caches', hadd, hsound, hheight, hview⟩ := addCoin_spec hs hcoin hoverwrite
      exact ⟨.done, ⟨caches', b⟩, bind_ok_iff.mpr ⟨caches', hadd, rfl⟩,
        .inr ⟨hsound, rfl, hview, hheight⟩⟩
    | spendCoin outpoint =>
      obtain ⟨hsound, hheight, hview, hread⟩ := spendCoin_spec hs outpoint
      exact ⟨_, _, rfl, .inr ⟨hsound, congrArg CoinsResult.coin hread, hview, hheight⟩⟩
    | getCoin outpoint =>
      obtain ⟨hsame, hread⟩ := getCoin_spec hs outpoint
      exact ⟨_, _, rfl, .inr ⟨hsame.sound, congrArg CoinsResult.coin hread, hsame.coins,
        hsame.height⟩⟩
    | accessCoin outpoint =>
      obtain ⟨hsame, -, hread⟩ := fetchCoin_spec hs (getCoin_spec hs.2 outpoint)
      refine ⟨_, _, rfl, .inr ⟨hsame.sound, congrArg CoinsResult.coin ?_, hsame.coins, hsame.height⟩⟩
      exact (unspent_getD _).trans hread
    | haveCoin outpoint =>
      obtain ⟨hsame, -, hread⟩ := fetchCoin_spec hs (getCoin_spec hs.2 outpoint)
      refine ⟨_, _, rfl, .inr ⟨hsame.sound, congrArg CoinsResult.found ?_, hsame.coins, hsame.height⟩⟩
      exact (any_unspent _).trans (congrArg Option.isSome hread)
    | uncache depth outpoint =>
      have hsame := uncache_same hs depth outpoint
      exact ⟨_, _, rfl, .inr ⟨hsame.sound, rfl, hsame.coins, hsame.height⟩⟩
    | flush depth =>
      obtain ⟨fOk, s', hflush, hok⟩ := flushAt_spec hbase hs depth
      refine ⟨.flushed fOk, s', bind_ok_iff.mpr ⟨(fOk, s'), hflush, rfl⟩, ?_⟩
      cases fOk with
      | false => exact .inl rfl
      | true => exact .inr ⟨(hok rfl).sound, rfl, (hok rfl).coins, (hok rfl).height⟩
    | push =>
      exact ⟨.done, ⟨.empty :: cache :: below, b⟩, rfl, .inr ⟨sound_clear hs .empty, rfl, rfl, rfl⟩⟩
    | pop =>
      obtain ⟨fOk, below', b', hflush, hheight, hok⟩ := flush_spec hbase hs
      refine ⟨.flushed fOk, ⟨below', b'⟩, bind_ok_iff.mpr ⟨_, hflush, rfl⟩, ?_⟩
      cases fOk with
      | false => exact .inl rfl
      | true => exact .inr ⟨(hok rfl).1, rfl, (hok rfl).2, hheight⟩

theorem run_refines (hbase : base.Lawful) (ops : List CoinsOp) {s : CoinsStack β}
    (hs : Sound base s.base s.caches)
    (hallowed : AllowedRun s.caches.length (view base s.base s.caches) ops) :
    ∃ results s', s.run base ops = .ok (results, s') ∧
      (results.map CoinsResult.observed = (runOnMap (view base s.base s.caches) ops).1 ∧
        view base s'.base s'.caches = (runOnMap (view base s.base s.caches) ops).2 ∨
      ∃ before, results = before ++ [.flushed false] ∧
        before.map CoinsResult.observed <+: (runOnMap (view base s.base s.caches) ops).1) := by
  induction ops generalizing s with
  | nil => exact ⟨[], s, rfl, .inl ⟨rfl, rfl⟩⟩
  | cons op ops ih =>
    obtain ⟨hop, hops⟩ := hallowed
    obtain ⟨result, s₁, hstep, hresult⟩ := step_refines hbase hs hop
    by_cases hfailed : result = .flushed false
    · refine ⟨[result], s₁, ?_, .inr ⟨[], by rw [hfailed]; rfl, List.nil_prefix⟩⟩
      exact bind_ok_iff.mpr ⟨(result, s₁), hstep, if_pos hfailed⟩
    · have hrefines := hresult.resolve_left hfailed
      rw [← hrefines.coins, ← hrefines.height] at hops
      obtain ⟨results, s', hrun, hresults⟩ := ih hrefines.sound hops
      refine ⟨result :: results, s', ?_, ?_⟩
      · refine bind_ok_iff.mpr ⟨(result, s₁), hstep, (if_neg hfailed).trans ?_⟩
        exact bind_ok_iff.mpr ⟨(results, s'), hrun, rfl⟩
      · rw [hrefines.coins] at hresults
        simp only [runOnMap, List.map_cons, ← hrefines.result]
        rcases hresults with ⟨hresults, hview⟩ | ⟨before, hresults, hprefix⟩
        · exact .inl ⟨by rw [hresults], hview⟩
        · refine .inr ⟨result :: before, by rw [hresults]; rfl, ?_⟩
          exact List.cons_prefix_cons.mpr ⟨rfl, hprefix⟩

theorem replicate_empty (base : BackingView β) (b : β) (height : Nat) :
    Sound base b (List.replicate height .empty) ∧
      view base b (List.replicate height .empty) = view base b [] := by
  induction height with
  | zero => exact ⟨trivial, rfl⟩
  | succ height ih => exact ⟨sound_clear ih.1 .empty, (view_clear .empty).trans ih.2⟩

/-- A stack of caches is one map: a run returns what the run on the map of the base
returns, no exception is thrown, and the stack stands for the same map as the run on
the map leaves, unless the base refuses a write, which ends the run. -/
theorem coins_stack_is_map (base : BackingView β) (hbase : base.Lawful) (b : β) (height : Nat)
    (ops : List CoinsOp) (hallowed : AllowedRun height (view base b []) ops) :
    ∃ results s', run base ops ⟨List.replicate height .empty, b⟩ = .ok (results, s') ∧
      (results.map CoinsResult.observed = (runOnMap (view base b []) ops).1 ∧
        view base s'.base s'.caches = (runOnMap (view base b []) ops).2 ∨
      ∃ before, results = before ++ [.flushed false] ∧
        before.map CoinsResult.observed <+: (runOnMap (view base b []) ops).1) := by
  obtain ⟨hsound, hview⟩ := replicate_empty base b height
  rw [← hview] at hallowed ⊢
  refine run_refines hbase ops (s := ⟨List.replicate height .empty, b⟩) hsound ?_
  rwa [List.length_replicate]

end CoinsStack

-- The one map that blocks are connected to is the map of the stack.
theorem CCoinsView.addCoin_onMap {view view' : CCoinsView}
    (h : view.addCoin outpoint coin possible_overwrite = .ok view') :
    (fun o => view'.coins.lookup o) =
      ((CoinsOp.addCoin outpoint coin possible_overwrite).onMap fun o => view.coins.lookup o).2 := by
  obtain ⟨hscript, rfl⟩ | ⟨hscript, -, rfl⟩ := addCoin_ok h
  · simp [CoinsOp.onMap, hscript]
  · simp [CoinsOp.onMap, hscript, Journal.lookup_insert_update]

theorem CCoinsView.spendCoin_onMap {view view' : CCoinsView}
    (h : view.spendCoin outpoint = some (coin, view')) :
    (CoinsOp.spendCoin outpoint).onMap (fun o => view.coins.lookup o) =
      (.coin (some coin), fun o => view'.coins.lookup o) := by
  obtain ⟨hcoin, rfl⟩ := spendCoin_eq h
  rw [CoinsOp.onMap, hcoin, Journal.lookup_erase_update]

-- A base that is a map itself, and returns what it was given.
def mapView : BackingView (COutPoint → Option Coin) where
  getCoin b outpoint := b outpoint
  getContState _ _ := none
  batchWrite b coins _ _ := (true, fun outpoint =>
    match (coins.lookup outpoint).filter CCoinsCacheEntry.dirty with
    | some entry => some entry.coin
    | none => b outpoint)

theorem mapView_lawful : mapView.Lawful := by
  intro b coins states hash _ outpoint
  simp only [mapView]
  split <;> rfl

def sampleOutpoint : COutPoint := ⟨1, 0⟩

def sampleCoin : Coin := ⟨⟨50, []⟩, true, 1⟩

def sampleOps : List CoinsOp :=
  [.addCoin sampleOutpoint sampleCoin false, .push, .spendCoin sampleOutpoint,
    .haveCoin sampleOutpoint, .pop, .addCoin sampleOutpoint sampleCoin false, .flush 0,
    .uncache 0 sampleOutpoint, .accessCoin sampleOutpoint]

theorem sampleOps_allowed : AllowedRun 1 (CoinsStack.view mapView (fun _ => none) []) sampleOps := by
  simp [sampleOps, AllowedRun, CoinsOp.Allowed, CoinsOp.onMap, CoinsOp.heightAfter,
    CoinsStack.view, mapView, show sampleCoin.isSpent = false by decide,
    show isUnspendable sampleCoin.out.scriptPubKey = false by decide]

theorem sampleOps_is_map : ∃ results s',
    CoinsStack.run mapView sampleOps ⟨List.replicate 1 .empty, fun _ => none⟩ = .ok (results, s') ∧
      (results.map CoinsResult.observed =
          (runOnMap (CoinsStack.view mapView (fun _ => none) []) sampleOps).1 ∧
        CoinsStack.view mapView s'.base s'.caches =
          (runOnMap (CoinsStack.view mapView (fun _ => none) []) sampleOps).2 ∨
      ∃ before, results = before ++ [.flushed false] ∧ before.map CoinsResult.observed <+:
        (runOnMap (CoinsStack.view mapView (fun _ => none) []) sampleOps).1) :=
  CoinsStack.coins_stack_is_map mapView mapView_lawful _ 1 sampleOps sampleOps_allowed

end OurChain
