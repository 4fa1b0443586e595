import OurChain.GPoW.Arith
import OurChain.GPoW.Target

/-!
# The mining loop

`NextGPoW` tries one nonce after the other. A conservative miner stops at the `m`-th hash
below the target; any other goes on and keeps the `m` smallest hashes in a priority queue.
The flag `fAllowedMining` belongs to another thread: the environment says what each
evaluation of the loop condition reads.
-/

namespace OurChain

open List Option

abbrev TP := BitVec 32 × Uint256

abbrev PQ := List TP

def PQ.push (e : TP) : PQ → PQ
  | [] => [e]
  | top :: pq => if compareTo top.2 e.2 = .lt then e :: top :: pq else top :: PQ.push e pq

structure GNonces where
  nonce : BitVec 32
  n : BitVec 32
  q : List TP
  pq : PQ
  deriving DecidableEq

def GNonces.fresh : GNonces := ⟨0, 0, [], []⟩

/-- The nonce of the block, the globals that the loop writes, and the sum. -/
structure MinerState where
  nNonce : GNonces
  nMaxTries : BitVec 32
  CurrentTries : BitVec 32
  LastSuccess : BitVec 32
  FirstSuccess : BitVec 32
  arith : ArithState
  deriving DecidableEq

structure Miner where
  size : GPoWSize
  conservative : Bool
  bnTarget : Uint256
  nInnerLoopCount : BitVec 32
  MaxTries : BitVec 32
  /-- The hash of the header with a nonce; the mean is not part of the header that is hashed. -/
  getHash : BitVec 32 → Uint256
  /-- The flag at each evaluation of the loop condition. -/
  fAllowedMining : Nat → Bool

namespace Miner

variable (env : Miner)

def checkProofOfWork (hash : Uint256) : Bool := compareTo hash env.bnTarget == .lt

def arith : GPoWArith := setArith env.size.m 1

def ismDone (theNonce : GNonces) : Bool :=
  if theNonce.nonce = env.nInnerLoopCount then true
  else if theNonce.q.length < env.size.m.toNat then false
  else if env.conservative then true
  else theNonce.n != 0 && theNonce.n.ule theNonce.nonce

/-- What is done for a hash below the target, and whether the loop is left. -/
def succeed (hash : Uint256) (s : MinerState) : MinerState × Bool :=
  let nonce := s.nNonce.nonce
  let s := { s with CurrentTries := s.CurrentTries + 1 }
  if s.nNonce.q.length < env.size.m.toNat then
    let q := s.nNonce.q ++ [(nonce, hash)]
    let s := { s with
      LastSuccess := nonce
      nNonce := { s.nNonce with q }
      arith := env.arith.addHash hash s.arith }
    if q.length = env.size.m.toNat then
      let s := { s with FirstSuccess := nonce }
      if env.conservative then (s, true)
      else
        ({ s with nNonce := { s.nNonce with pq := q.foldl (fun pq e => PQ.push e pq) s.nNonce.pq } },
          false)
    else (s, false)
  else
    match s.nNonce.pq with
    | [] => (s, false)
    | top :: pq =>
      if compareTo hash top.2 = .lt then
        ({ s with
          LastSuccess := nonce
          nNonce := { s.nNonce with pq := PQ.push (nonce, hash) pq }
          arith := env.arith.addHash hash (env.arith.minusHash top.2 s.arith) }, false)
      else (s, false)

/-- The end of the body: the next nonce, and whether the loop is left. `continue` skips the
count of the tries. -/
def advance (s : MinerState) : MinerState × Bool :=
  let s := { s with nNonce := { s.nNonce with nonce := s.nNonce.nonce + 1 } }
  if env.ismDone s.nNonce then (s, decide (env.size.m.toNat ≤ s.nNonce.q.length))
  else ({ s with nMaxTries := s.nMaxTries - 1 }, false)

def turn (s : MinerState) : MinerState × Bool :=
  let hash := env.getHash s.nNonce.nonce
  let r := if env.checkProofOfWork hash then env.succeed hash s else (s, false)
  if r.2 then r else env.advance r.1

/-- The loop: the nonces that were tried and the state behind it; none if the fuel is used
up. The evaluations of the loop condition are numbered. -/
def mine : Nat → Nat → MinerState → Option (List (BitVec 32) × MinerState)
  | 0, _, _ => none
  | fuel + 1, i, s =>
    if s.nMaxTries = 0 ∨ env.fAllowedMining i = false then some ([], s)
    else if (env.turn s).2 then some ([s.nNonce.nonce], (env.turn s).1)
    else (mine fuel (i + 1) (env.turn s).1).map fun r => (s.nNonce.nonce :: r.1, r.2)

def start (s : MinerState) : MinerState :=
  let s :=
    if env.ismDone s.nNonce then
      { s with nNonce := { s.nNonce with nonce := s.nNonce.nonce + 1 } }
    else { s with nMaxTries := env.MaxTries, CurrentTries := 0, FirstSuccess := 0 }
  { s with arith := env.arith.initArith s.arith }

def nextGPoW (s : MinerState) : Option (List (BitVec 32) × MinerState) := do
  if env.ismDone s.nNonce && env.conservative then return ([], s)
  -- a turn that does not count is followed by one that does
  let (tried, s) ← env.mine ((env.start s).nMaxTries.toNat + 2) 0 (env.start s)
  let arith ← env.arith.avgHash s.arith
  return (tried, { s with nNonce := { s.nNonce with n := s.LastSuccess }, arith })

end Miner

def PQ.Ordered (pq : PQ) : Prop := List.Pairwise (fun a b : TP => b.2.toNat ≤ a.2.toNat) pq

theorem PQ.push_perm (e : TP) (pq : PQ) : List.Perm (PQ.push e pq) (e :: pq) := by
  induction pq with
  | nil => exact .refl _
  | cons top pq ih =>
    rw [PQ.push]
    split
    · exact .refl _
    · exact (ih.cons top).trans (.swap e top pq)

theorem PQ.Ordered.push {pq : PQ} (h : pq.Ordered) (e : TP) : PQ.Ordered (PQ.push e pq) := by
  induction pq with
  | nil => exact pairwise_singleton _ _
  | cons top pq ih =>
    obtain ⟨htop, hpq⟩ := pairwise_cons.mp h
    rw [PQ.push]
    split
    · rename_i hlt
      rw [compareTo_lt_iff] at hlt
      refine pairwise_cons.mpr ⟨?_, h⟩
      intro b hb
      rcases mem_cons.mp hb with rfl | hb
      · exact hlt.le
      · exact (htop b hb).trans hlt.le
    · rename_i hge
      rw [compareTo_lt_iff, not_lt] at hge
      refine pairwise_cons.mpr ⟨?_, ih hpq⟩
      intro b hb
      rcases mem_cons.mp ((PQ.push_perm e pq).mem_iff.mp hb) with rfl | hb
      · exact hge
      · exact htop b hb

theorem PQ.foldl_push (q : List TP) (pq : PQ) (h : pq.Ordered) :
    PQ.Ordered (q.foldl (fun pq e => PQ.push e pq) pq) ∧
      List.Perm (q.foldl (fun pq e => PQ.push e pq) pq) (q ++ pq) := by
  induction q generalizing pq with
  | nil => exact ⟨h, .refl _⟩
  | cons e q ih =>
    obtain ⟨hord, hperm⟩ := ih _ (h.push e)
    exact ⟨hord, hperm.trans (((PQ.push_perm e pq).append_left q).trans perm_middle)⟩

/-- As many of `all` as there are in `kept`, and none of the others is smaller. -/
def SmallestOf (kept all : List Uint256) : Prop :=
  ∃ rest, List.Perm (kept ++ rest) all ∧ ∀ x ∈ kept, ∀ y ∈ rest, x.toNat ≤ y.toNat

theorem SmallestOf.add_rest {kept all : List Uint256} (h : SmallestOf kept all) {hash : Uint256}
    (hge : ∀ x ∈ kept, x.toNat ≤ hash.toNat) : SmallestOf kept (all ++ [hash]) := by
  obtain ⟨rest, hperm, hle⟩ := h
  refine ⟨rest ++ [hash], ?_, ?_⟩
  · rw [← append_assoc]
    exact hperm.append_right [hash]
  · intro x hx y hy
    rcases mem_append.mp hy with hy | hy
    · exact hle x hx y hy
    · rw [mem_singleton.mp hy]
      exact hge x hx

theorem SmallestOf.replace {top : Uint256} {kept all : List Uint256}
    (h : SmallestOf (top :: kept) all) (htop : ∀ x ∈ kept, x.toNat ≤ top.toNat) {hash : Uint256}
    (hlt : hash.toNat < top.toNat) : SmallestOf (hash :: kept) (all ++ [hash]) := by
  obtain ⟨rest, hperm, hle⟩ := h
  refine ⟨top :: rest, ?_, ?_⟩
  · have hmove : List.Perm (hash :: kept ++ top :: rest) (top :: kept ++ rest ++ [hash]) := by
      refine (List.Perm.cons hash perm_middle).trans ?_
      exact (perm_append_singleton hash _).symm
    exact hmove.trans (hperm.append_right [hash])
  · intro x hx y hy
    have hxtop : x.toNat ≤ top.toNat := by
      rcases mem_cons.mp hx with rfl | hx
      · exact hlt.le
      · exact htop x hx
    rcases mem_cons.mp hy with rfl | hy
    · exact hxtop
    · exact hxtop.trans (hle top mem_cons_self y hy)

theorem SmallestOf.perm {kept kept' all : List Uint256} (h : SmallestOf kept all)
    (hperm : List.Perm kept' kept) : SmallestOf kept' all := by
  obtain ⟨rest, hall, hle⟩ := h
  exact ⟨rest, (hperm.append_right rest).trans hall, fun x hx => hle x (hperm.mem_iff.mp hx)⟩

namespace Miner

variable (env : Miner)

def hits (tried : List (BitVec 32)) : List TP :=
  (tried.map fun nonce => (nonce, env.getHash nonce)).filter fun e => env.checkProofOfWork e.2

theorem hits_append (a b : List (BitVec 32)) : env.hits (a ++ b) = env.hits a ++ env.hits b := by
  simp [hits]

variable {tried : List (BitVec 32)}

theorem mem_hits {e : TP} : e ∈ env.hits tried ↔
    e.1 ∈ tried ∧ e.2 = env.getHash e.1 ∧ e.2.toNat < env.bnTarget.toNat := by
  rw [hits, mem_filter, List.mem_map, checkProofOfWork, beq_iff_eq, compareTo_lt_iff]
  constructor
  · rintro ⟨⟨nonce, hmem, rfl⟩, hlt⟩
    exact ⟨hmem, rfl, hlt⟩
  · rintro ⟨hmem, hhash, hlt⟩
    exact ⟨⟨e.1, hmem, Prod.ext rfl hhash.symm⟩, hlt⟩

def Summed (s₀ : ArithState) (hashes : List Uint256) (arith : ArithState) : Prop :=
  ∃ ops, arith = env.arith.after s₀ ops ∧ Performed env.size.m.toNat ops ∧
    List.Perm (queueOf ops) hashes

variable {env}

variable {s₀ : ArithState} {hashes : List Uint256}

theorem Summed.add {arith : ArithState} (h : env.Summed s₀ hashes arith)
    (hlen : hashes.length < env.size.m.toNat) (hash : Uint256) :
    env.Summed s₀ (hash :: hashes) (env.arith.addHash hash arith) := by
  obtain ⟨ops, rfl, hops, hperm⟩ := h
  exact ⟨.add hash :: ops, rfl, ⟨hops, hperm.length_eq.trans_lt hlen⟩, hperm.cons hash⟩

theorem Summed.evict {arith : ArithState} {hash : Uint256}
    (h : env.Summed s₀ (hash :: hashes) arith) :
    env.Summed s₀ hashes (env.arith.minusHash hash arith) := by
  obtain ⟨ops, rfl, hops, hperm⟩ := h
  have herase := hperm.erase hash
  rw [erase_cons_head] at herase
  exact ⟨.evict hash :: ops, rfl, ⟨hops, hperm.mem_iff.mpr mem_cons_self⟩, herase⟩

theorem Summed.perm {arith : ArithState} {hashes' : List Uint256}
    (h : env.Summed s₀ hashes arith) (hperm : List.Perm hashes hashes') :
    env.Summed s₀ hashes' arith := by
  obtain ⟨ops, harith, hops, hqueue⟩ := h
  exact ⟨ops, harith, hops, hqueue.trans hperm⟩

theorem Summed.avgHash {arith : ArithState}
    (h : env.Summed s₀ hashes arith) : ∃ arith', env.arith.avgHash arith = some arith' ∧
      arith'.hashGPoW.toNat = hashSum hashes / env.size.m.toNat := by
  obtain ⟨ops, rfl, hops, hperm⟩ := h
  obtain ⟨mean, hmean, hvalue⟩ := mean_setArith_one env.size s₀ hops
  obtain ⟨arith', havg, rfl⟩ := map_eq_some_iff.mp hmean
  refine ⟨arith', havg, ?_⟩
  rw [hvalue, hashSum, hashSum, (hperm.map BitVec.toNat).sum_eq]

variable (env)

/-- The loop goes on: `q` is still filling up, or the miner is not conservative and keeps
the smallest hashes so far. -/
inductive Mined (s₀ : ArithState) (tried : List (BitVec 32)) (s : MinerState) : Prop
  | filling (few : (env.hits tried).length < env.size.m.toNat) (q : s.nNonce.q = env.hits tried)
      (pq : s.nNonce.pq = []) (sum : env.Summed s₀ ((env.hits tried).map Prod.snd) s.arith)
  | full (aggressive : env.conservative = false) (many : env.size.m.toNat ≤ (env.hits tried).length)
      (q : s.nNonce.q.length = env.size.m.toNat) (pq : s.nNonce.pq.length = env.size.m.toNat)
      (ordered : s.nNonce.pq.Ordered)
      (smallest : SmallestOf (s.nNonce.pq.map Prod.snd) ((env.hits tried).map Prod.snd))
      (sum : env.Summed s₀ (s.nNonce.pq.map Prod.snd) s.arith)

structure Complete (s₀ : ArithState) (tried : List (BitVec 32)) (s : MinerState) : Prop where
  conservative : env.conservative = true
  length : (env.hits tried).length = env.size.m.toNat
  q : s.nNonce.q = env.hits tried
  last : (env.hits tried).getLast?.map Prod.fst = some s.nNonce.nonce
  sum : env.Summed s₀ ((env.hits tried).map Prod.snd) s.arith

variable {env}

variable {nonce : BitVec 32}

theorem hits_success (tried : List (BitVec 32))
    (h : env.checkProofOfWork (env.getHash nonce) = true) :
    env.hits (tried ++ [nonce]) = env.hits tried ++ [(nonce, env.getHash nonce)] := by
  simp [hits, h]

theorem hits_failure (tried : List (BitVec 32))
    (h : ¬ env.checkProofOfWork (env.getHash nonce) = true) :
    env.hits (tried ++ [nonce]) = env.hits tried := by
  simp [hits, h]

/-- A hash below the target keeps the loop going, or completes a conservative miner. -/
def Succeeds (env : Miner) (s₀ : ArithState) (tried : List (BitVec 32)) (s : MinerState)
    (r : MinerState × Bool) : Prop :=
  r.1.nNonce.nonce = s.nNonce.nonce ∧ r.1.nMaxTries = s.nMaxTries ∧
    if r.2 then env.Complete s₀ (tried ++ [s.nNonce.nonce]) r.1
    else env.Mined s₀ (tried ++ [s.nNonce.nonce]) r.1

section
variable {s₀ : ArithState} {tried : List (BitVec 32)} {s : MinerState}

section
variable {hash : Uint256}
  (hhits : env.hits (tried ++ [s.nNonce.nonce]) = env.hits tried ++ [(s.nNonce.nonce, hash)])
include hhits

/-- The next of the first `m` hashes. With the last of them a conservative miner is done
and the other one moves them to the queue. -/
theorem succeed_filling (few : (env.hits tried).length < env.size.m.toNat)
    (q : s.nNonce.q = env.hits tried) (pq : s.nNonce.pq = [])
    (sum : env.Summed s₀ ((env.hits tried).map Prod.snd) s.arith) :
    env.Succeeds s₀ tried s (env.succeed hash s) := by
  have hsum : env.Summed s₀ ((env.hits (tried ++ [s.nNonce.nonce])).map Prod.snd)
      (env.arith.addHash hash s.arith) := by
    rw [hhits, map_append]
    exact (sum.add (by simpa using few) hash).perm (perm_append_singleton _ _).symm
  have hlen : (env.hits (tried ++ [s.nNonce.nonce])).length = (env.hits tried).length + 1 := by
    rw [hhits, length_append]
    rfl
  have hlast : (env.hits (tried ++ [s.nNonce.nonce])).getLast?.map Prod.fst =
      some s.nNonce.nonce := by
    rw [hhits, getLast?_concat]
    rfl
  rw [← q] at hhits
  simp only [Succeeds, succeed, q, few, if_true]
  rw [← q, ← hhits]
  by_cases hm : (env.hits (tried ++ [s.nNonce.nonce])).length = env.size.m.toNat
  · by_cases hcons : env.conservative = true
    · simp only [hm, hcons, if_true]
      exact ⟨trivial, trivial, hcons, hm, rfl, hlast, hsum⟩
    · have hpush := PQ.foldl_push (env.hits (tried ++ [s.nNonce.nonce])) [] .nil
      rw [append_nil] at hpush
      simp only [hm, hcons, Bool.false_eq_true, if_true, if_false, pq]
      refine ⟨trivial, trivial, .full (by simpa using hcons) hm.ge hm
        (hpush.2.length_eq.trans hm) hpush.1 ⟨[], ?_, by simp⟩
        (hsum.perm (hpush.2.map Prod.snd).symm)⟩
      rw [append_nil]
      exact hpush.2.map _
  · simp only [hm, if_false]
    exact ⟨trivial, trivial, .filling (by omega) rfl pq hsum⟩

theorem succeed_full (aggressive : env.conservative = false)
    (many : env.size.m.toNat ≤ (env.hits tried).length) (q : s.nNonce.q.length = env.size.m.toNat)
    (pq : s.nNonce.pq.length = env.size.m.toNat) (ordered : PQ.Ordered s.nNonce.pq)
    (smallest : SmallestOf (s.nNonce.pq.map Prod.snd) ((env.hits tried).map Prod.snd))
    (sum : env.Summed s₀ (s.nNonce.pq.map Prod.snd) s.arith) :
    env.Succeeds s₀ tried s (env.succeed hash s) := by
  have hmany : env.size.m.toNat ≤ (env.hits (tried ++ [s.nNonce.nonce])).length := by
    rw [hhits, length_append]
    omega
  simp only [Succeeds, succeed, q, Nat.lt_irrefl, if_false]
  cases hpq : s.nNonce.pq with
  | nil =>
    rw [hpq] at pq
    exact absurd pq (Nat.ne_of_lt env.size.toNat_pos)
  | cons top rest =>
    rw [hpq] at pq ordered smallest sum
    obtain ⟨htop, hrest⟩ := pairwise_cons.mp ordered
    have hrest' : ∀ x ∈ rest.map Prod.snd, x.toNat ≤ top.2.toNat := by
      intro x hx
      obtain ⟨e, he, rfl⟩ := List.mem_map.mp hx
      exact htop e he
    have hpush := PQ.push_perm (s.nNonce.nonce, hash) rest
    by_cases hlt : compareTo hash top.2 = .lt
    · simp only [hlt, if_true]
      rw [compareTo_lt_iff] at hlt
      have hevict : env.Summed s₀ (rest.map Prod.snd) (env.arith.minusHash top.2 s.arith) :=
        sum.evict
      have hlen : (rest.map Prod.snd).length < env.size.m.toNat := by
        rw [length_map, ← pq]
        exact Nat.lt_succ_self _
      refine ⟨trivial, trivial, .full aggressive hmany q (hpush.length_eq.trans pq)
        (PQ.Ordered.push hrest _) ?_ ((hevict.add hlen hash).perm (hpush.map Prod.snd).symm)⟩
      rw [hhits, map_append]
      exact (smallest.replace hrest' hlt).perm (hpush.map Prod.snd)
    · simp only [hlt, if_false]
      rw [compareTo_lt_iff, not_lt] at hlt
      refine ⟨trivial, trivial, .full aggressive hmany q ?_ ?_ ?_ ?_⟩
      · exact (congrArg List.length hpq).trans pq
      · exact hpq ▸ ordered
      · rw [hhits, map_append]
        refine SmallestOf.add_rest ?_ ?_
        · exact hpq ▸ smallest
        · intro x hx
          rw [show s.nNonce.pq = top :: rest from hpq] at hx
          rcases mem_cons.mp hx with rfl | hx
          · exact hlt
          · exact (hrest' x hx).trans hlt
      · exact hpq ▸ sum

end

theorem succeed_spec (h : env.Mined s₀ tried s)
    (hcheck : env.checkProofOfWork (env.getHash s.nNonce.nonce) = true) :
    env.Succeeds s₀ tried s (env.succeed (env.getHash s.nNonce.nonce) s) := by
  have hhits := hits_success tried hcheck
  cases h with
  | filling few q pq sum => exact succeed_filling hhits few q pq sum
  | full aggressive many q pq ordered smallest sum =>
    exact succeed_full hhits aggressive many q pq ordered smallest sum

theorem Mined.of_failure (h : env.Mined s₀ tried s)
    (hcheck : ¬ env.checkProofOfWork (env.getHash s.nNonce.nonce) = true) :
    env.Mined s₀ (tried ++ [s.nNonce.nonce]) s := by
  have hhits := hits_failure tried hcheck
  cases h with
  | filling few q pq sum => exact .filling (by rwa [hhits]) (by rw [hhits, q]) pq (by rwa [hhits])
  | full aggressive many q pq ordered smallest sum =>
    exact .full aggressive (by rwa [hhits]) q pq ordered (by rwa [hhits]) sum

end

variable {s : MinerState}

theorem Mined.congr {s' : MinerState}
    (h : env.Mined s₀ tried s) (hq : s'.nNonce.q = s.nNonce.q) (hpq : s'.nNonce.pq = s.nNonce.pq)
    (harith : s'.arith = s.arith) : env.Mined s₀ tried s' := by
  cases h with
  | filling few q pq sum => exact .filling few (hq.trans q) (hpq.trans pq) (harith ▸ sum)
  | full aggressive many q pq ordered smallest sum =>
    rw [← hq] at q
    rw [← hpq] at pq ordered smallest sum
    rw [← harith] at sum
    exact .full aggressive many q pq ordered smallest sum

variable (env)

def noncesFrom (first : BitVec 32) (i : Nat) : List (BitVec 32) :=
  (List.range i).map fun j => first + BitVec.ofNat 32 j

theorem noncesFrom_succ (first : BitVec 32) (i : Nat) :
    noncesFrom first (i + 1) = noncesFrom first i ++ [first + BitVec.ofNat 32 i] := by
  simp [noncesFrom, range_succ]

/-- The turn that ends with the nonce `nInnerLoopCount`. -/
def crossing (first : BitVec 32) : Nat := (env.nInnerLoopCount - first - 1).toNat

variable {i : Nat}

theorem crossing_iff (first : BitVec 32) (hi : i < 2 ^ 32) :
    first + BitVec.ofNat 32 i + 1 = env.nInnerLoopCount ↔ i = env.crossing first := by
  have hsub : first + BitVec.ofNat 32 i + 1 = env.nInnerLoopCount ↔
      BitVec.ofNat 32 i = env.nInnerLoopCount - first - 1 := by
    constructor
    · intro h
      rw [← h]
      ring
    · intro h
      rw [h]
      ring
  rw [hsub, crossing, ← BitVec.toNat_inj, BitVec.toNat_ofNat, Nat.mod_eq_of_lt hi]

/-- The loop condition is evaluated after `i` turns, of which at most one did not count. -/
structure Reached (first tries : BitVec 32) (s₀ : ArithState) (i : Nat) (s : MinerState) : Prop where
  mined : env.Mined s₀ (noncesFrom first i) s
  nonce : s.nNonce.nonce = first + BitVec.ofNat 32 i
  crossed : env.crossing first < i → env.crossing first < tries.toNat
  tries : s.nMaxTries.toNat + i = tries.toNat + if env.crossing first < i then 1 else 0

/-- The loop is left after turn `i`. -/
inductive Left (first : BitVec 32) (s₀ : ArithState) (i : Nat) (s : MinerState) : Prop
  | complete (lt : i < 2 ^ 32) (nonce : s.nNonce.nonce = first + BitVec.ofNat 32 i)
      (complete : env.Complete s₀ (noncesFrom first (i + 1)) s)
  | done (lt : i < 2 ^ 32) (aggressive : env.conservative = false)
      (mined : env.Mined s₀ (noncesFrom first (i + 1)) s)

variable {env}

theorem Mined.length_q (h : env.Mined s₀ tried s) : s.nNonce.q.length < env.size.m.toNat ↔
      (env.hits tried).length < env.size.m.toNat := by
  cases h with
  | filling few q pq sum => rw [q]
  | full aggressive many q pq ordered smallest sum => rw [q]; omega

theorem Mined.aggressive (h : env.Mined s₀ tried s) (hmany : env.size.m.toNat ≤ s.nNonce.q.length) :
    env.conservative = false := by
  cases h with
  | filling few q pq sum =>
    rw [q] at hmany
    omega
  | full aggressive many q pq ordered smallest sum => exact aggressive

variable {first tries : BitVec 32}

theorem advance_spec (hi : i < 2 ^ 32) (hmined : env.Mined s₀ (noncesFrom first (i + 1)) s)
    (hnonce : s.nNonce.nonce = first + BitVec.ofNat 32 i) (hpos : 1 ≤ s.nMaxTries.toNat)
    (htries : s.nMaxTries.toNat + i = tries.toNat + if env.crossing first < i then 1 else 0)
    (hcrossed : env.crossing first < i → env.crossing first < tries.toNat) :
    if (env.advance s).2 then env.Left first s₀ i (env.advance s).1
    else env.Reached first tries s₀ (i + 1) (env.advance s).1 := by
  have hstep : s.nNonce.nonce + 1 = first + BitVec.ofNat 32 (i + 1) := by
    rw [hnonce, BitVec.ofNat_add, BitVec.add_assoc]
    rfl
  have hcross := env.crossing_iff first hi
  rw [← hnonce] at hcross
  by_cases hdone : env.ismDone { s.nNonce with nonce := s.nNonce.nonce + 1 } = true
  · simp only [advance, hdone, if_true, decide_eq_true_eq]
    split
    · rename_i hmany
      exact .done hi (hmined.aggressive hmany) (hmined.congr rfl rfl rfl)
    · rename_i hfew
      -- too few hashes: the nonce is `nInnerLoopCount`, and the try does not count
      have heq : s.nNonce.nonce + 1 = env.nInnerLoopCount := by
        by_contra hne
        simp only [ismDone, hne, if_false, Nat.lt_of_not_le hfew, if_true] at hdone
        exact Bool.false_ne_true hdone
      have hic := hcross.mp heq
      rw [if_neg (by omega)] at htries
      refine ⟨hmined.congr rfl rfl rfl, hstep, fun _ => by omega, ?_⟩
      rw [if_pos (by omega)]
      show s.nMaxTries.toNat + (i + 1) = _
      omega
  · simp only [advance, hdone, Bool.false_eq_true, if_false]
    have hic : i ≠ env.crossing first := by
      intro hic
      simp only [ismDone, hcross.mpr hic, if_true] at hdone
      exact hdone trivial
    refine ⟨hmined.congr rfl rfl rfl, hstep, fun h => hcrossed (by omega), ?_⟩
    have hsub : (s.nMaxTries - 1).toNat = s.nMaxTries.toNat - 1 := BitVec.toNat_sub_of_le hpos
    rw [hsub]
    split at htries
    · rw [if_pos (by omega)]
      omega
    · rw [if_neg (by omega)]
      omega

theorem turn_spec (h : env.Reached first tries s₀ i s) (hpos : s.nMaxTries ≠ 0) :
    if (env.turn s).2 then env.Left first s₀ i (env.turn s).1
    else env.Reached first tries s₀ (i + 1) (env.turn s).1 := by
  have hone : 1 ≤ s.nMaxTries.toNat :=
    Nat.pos_of_ne_zero fun h => hpos (BitVec.eq_of_toNat_eq h)
  have hi : i < 2 ^ 32 := by
    have htries := h.tries
    split at htries <;> omega
  have hnonces := noncesFrom_succ first i
  rw [← h.nonce] at hnonces
  by_cases hcheck : env.checkProofOfWork (env.getHash s.nNonce.nonce) = true
  · obtain ⟨hnonce, htries, hspec⟩ := succeed_spec h.mined hcheck
    rw [← hnonces] at hspec
    simp only [turn, hcheck, if_true]
    by_cases hleft : (env.succeed (env.getHash s.nNonce.nonce) s).2 = true
    · rw [if_pos hleft] at hspec ⊢
      rw [if_pos hleft]
      exact .complete hi (hnonce.trans h.nonce) hspec
    · rw [if_neg hleft] at hspec ⊢
      exact advance_spec hi hspec (hnonce.trans h.nonce) (by rwa [htries])
        (by rw [htries]; exact h.tries) h.crossed
  · simp only [turn, hcheck, Bool.false_eq_true, if_false]
    refine advance_spec hi ?_ h.nonce hone h.tries h.crossed
    rw [hnonces]
    exact h.mined.of_failure hcheck

variable (env)

/-- The loop ended before turn `i`, or with turn `i`. -/
inductive Ended (first tries : BitVec 32) (s₀ : ArithState) (i : Nat) (s : MinerState) : Prop
  | stopped (reached : env.Reached first tries s₀ i s)
      (stop : s.nMaxTries = 0 ∨ env.fAllowedMining i = false)
  | left (j : Nat) (eq : i = j + 1) (left : env.Left first s₀ j s)

variable {env}

theorem mine_spec (fuel : Nat)
    (h : env.Reached first tries s₀ i s) (hfuel : tries.toNat + 2 ≤ fuel + i) :
    ∃ tried s' j, env.mine fuel i s = some (tried, s') ∧ i ≤ j ∧
      noncesFrom first i ++ tried = noncesFrom first j ∧
      (∀ k, i ≤ k → k < j → env.fAllowedMining k = true) ∧ env.Ended first tries s₀ j s' := by
  induction fuel generalizing i s with
  | zero =>
    have htries := h.tries
    split at htries <;> omega
  | succ fuel ih =>
    rw [mine]
    by_cases hstop : s.nMaxTries = 0 ∨ env.fAllowedMining i = false
    · rw [if_pos hstop]
      exact ⟨[], s, i, rfl, Nat.le_refl i, append_nil _, fun k hle hlt => by omega,
        .stopped h hstop⟩
    · rw [if_neg hstop]
      obtain ⟨hpos, hallowed⟩ := not_or.mp hstop
      rw [Bool.not_eq_false] at hallowed
      have hturn := turn_spec h hpos
      have hnonces := noncesFrom_succ first i
      rw [← h.nonce] at hnonces
      by_cases hleft : (env.turn s).2 = true
      · rw [if_pos hleft] at hturn ⊢
        refine ⟨_, _, i + 1, rfl, Nat.le_succ i, hnonces.symm, ?_, .left i rfl hturn⟩
        intro k hle hlt
        rwa [show k = i by omega]
      · rw [if_neg hleft] at hturn ⊢
        obtain ⟨tried, s', j, hmine, hle, htried, hall, hend⟩ := ih hturn (by omega)
        refine ⟨s.nNonce.nonce :: tried, s', j, ?_, by omega, ?_, ?_, hend⟩
        · rw [hmine]
          rfl
        · rw [← htried, hnonces, append_assoc]
          rfl
        · intro k hk hkj
          rcases Nat.eq_or_lt_of_le hk with rfl | hk
          · exact hallowed
          · exact hall k hk hkj

theorem Reached.le (h : env.Reached first tries s₀ i s) : i ≤ 2 ^ 32 := by
  have htries := h.tries
  split at htries <;> omega

theorem Ended.le (h : env.Ended first tries s₀ i s) : i ≤ 2 ^ 32 := by
  cases h with
  | stopped reached stop => exact reached.le
  | left j eq left =>
    rw [eq]
    cases left with
    | complete lt nonce complete => exact lt
    | done lt aggressive mined => exact lt

theorem Mined.summed (h : env.Mined s₀ tried s) : ∃ hashes, env.Summed s₀ hashes s.arith := by
  cases h with
  | filling few q pq sum => exact ⟨_, sum⟩
  | full aggressive many q pq ordered smallest sum => exact ⟨_, sum⟩

theorem Ended.summed
    (h : env.Ended first tries s₀ i s) : ∃ hashes, env.Summed s₀ hashes s.arith := by
  cases h with
  | stopped reached stop => exact reached.mined.summed
  | left j eq left =>
    cases left with
    | complete lt nonce complete => exact ⟨_, complete.sum⟩
    | done lt aggressive mined => exact mined.summed

theorem start_reached (hfresh : s.nNonce = .fresh) :
    env.Reached (env.start s).nNonce.nonce (env.start s).nMaxTries s.arith 0 (env.start s) := by
  have hnonce : (env.start s).nNonce.q = [] ∧ (env.start s).nNonce.pq = [] ∧
      (env.start s).arith = env.arith.initArith s.arith := by
    rw [start]
    split <;> simp [hfresh, GNonces.fresh]
  refine ⟨.filling env.size.toNat_pos hnonce.1 hnonce.2.1 ⟨[], hnonce.2.2, trivial, .refl _⟩, ?_,
    fun h => absurd h (Nat.not_lt_zero _), ?_⟩
  · exact (BitVec.add_zero _).symm
  · rw [if_neg (by omega)]

theorem nextGPoW_spec (env : Miner) (hfresh : s.nNonce = .fresh)
    (hloop : (env.ismDone s.nNonce && env.conservative) = false) :
    ∃ i r arith, env.nextGPoW s = some (noncesFrom (env.start s).nNonce.nonce i,
        { r with nNonce := { r.nNonce with n := r.LastSuccess }, arith }) ∧
      env.arith.avgHash r.arith = some arith ∧ (∀ k < i, env.fAllowedMining k = true) ∧
      env.Ended (env.start s).nNonce.nonce (env.start s).nMaxTries s.arith i r := by
  obtain ⟨tried, r, i, hmine, -, htried, hall, hend⟩ :=
    mine_spec ((env.start s).nMaxTries.toNat + 2) (start_reached hfresh) (Nat.le_refl _)
  obtain ⟨hashes, hsum⟩ := hend.summed
  obtain ⟨arith, havg, -⟩ := hsum.avgHash
  refine ⟨i, r, arith, ?_, havg, fun k hk => hall k (Nat.zero_le k) hk, hend⟩
  rw [← htried, nextGPoW, hloop]
  simp only [Bool.false_eq_true, if_false, hmine, bind_eq_bind, bind_some, havg]
  rfl

theorem noncesFrom_nodup (first : BitVec 32) (hi : i ≤ 2 ^ 32) : (noncesFrom first i).Nodup := by
  refine Nodup.map_on ?_ nodup_range
  intro j hj k hk heq
  have hofNat := congrArg BitVec.toNat ((BitVec.add_right_inj first).mp heq)
  rw [mem_range] at hj hk
  rwa [BitVec.toNat_ofNat, BitVec.toNat_ofNat, Nat.mod_eq_of_lt (by omega),
    Nat.mod_eq_of_lt (by omega)] at hofNat

theorem noncesFrom_zero_increasing (hi : i ≤ 2 ^ 32) : (noncesFrom 0 i).Pairwise (· < ·) := by
  rw [noncesFrom, pairwise_map]
  refine Pairwise.imp_of_mem ?_ pairwise_lt_range
  intro j k hj hk hlt
  rw [mem_range] at hj hk
  rw [zero_add, zero_add, BitVec.lt_def, BitVec.toNat_ofNat, BitVec.toNat_ofNat,
    Nat.mod_eq_of_lt (by omega), Nat.mod_eq_of_lt (by omega)]
  exact hlt

theorem hits_sublist (tried : List (BitVec 32)) : ((env.hits tried).map Prod.fst).Sublist tried := by
  have h := (filter_sublist (p := fun e : TP => env.checkProofOfWork e.2)
    (l := tried.map fun nonce => (nonce, env.getHash nonce))).map Prod.fst
  rwa [List.map_map, Function.comp_def, List.map_id'] at h

theorem hits_noncesFrom_le (env : Miner) (first : BitVec 32) {j : Nat} (h : i ≤ j) :
    (env.hits (noncesFrom first i)).length ≤ (env.hits (noncesFrom first j)).length := by
  induction h with
  | refl => exact Nat.le_refl _
  | step _ ih =>
    rw [noncesFrom_succ, hits_append, length_append]
    omega

theorem mean_lt {m target : Nat} (hlen : hashes.length = m) (hm : 0 < m)
    (h : ∀ hash ∈ hashes, hash.toNat < target) : hashSum hashes / m < target := by
  have hsum : hashSum hashes + hashes.length ≤ hashes.length * target := by
    clear hlen
    induction hashes with
    | nil => simp [hashSum]
    | cons hash hashes ih =>
      have hhash := h hash mem_cons_self
      have hrest := ih fun hash hmem => h hash (mem_cons_of_mem _ hmem)
      simp only [hashSum, map_cons, sum_cons, length_cons, Nat.succ_mul] at hrest ⊢
      omega
  rw [hlen] at hsum
  rw [Nat.div_lt_iff_lt_mul hm, Nat.mul_comm]
  omega

variable (env)

structure Sound (s : MinerState) : Prop where
  length : s.nNonce.q.length = env.size.m.toNat
  increasing : (s.nNonce.q.map Prod.fst).Pairwise (· < ·)
  hashes : ∀ e ∈ s.nNonce.q, e.2 = env.getHash e.1 ∧ e.2.toNat < env.bnTarget.toNat
  last : s.nNonce.q.getLast?.map Prod.fst = some s.nNonce.nonce
  mean : s.arith.hashGPoW.toNat = hashSum (s.nNonce.q.map Prod.snd) / env.size.m.toNat
  lt : s.arith.hashGPoW.toNat < env.bnTarget.toNat

/-- Mining is forbidden just when the nonce has become `nInnerLoopCount`, and so far too few
hashes are below the target. -/
structure InterruptedAtCount : Prop where
  tries : env.nInnerLoopCount.toNat ≤ env.MaxTries.toNat
  before : ∀ k < env.nInnerLoopCount.toNat, env.fAllowedMining k = true
  forbidden : env.fAllowedMining env.nInnerLoopCount.toNat = false
  few : (env.hits (noncesFrom 0 env.nInnerLoopCount.toNat)).length < env.size.m.toNat

variable {env}

theorem ismDone_conservative (hcons : env.conservative = true) (theNonce : GNonces) :
    env.ismDone theNonce = true ↔
      theNonce.nonce = env.nInnerLoopCount ∨ env.size.m.toNat ≤ theNonce.q.length := by
  by_cases heq : theNonce.nonce = env.nInnerLoopCount
  · simp [ismDone, heq]
  · simp [ismDone, heq, hcons]

theorem Complete.sound {arith : ArithState} (hi : i ≤ 2 ^ 32)
    (h : env.Complete s₀ (noncesFrom 0 i) s) (havg : env.arith.avgHash s.arith = some arith) :
    env.Sound { s with nNonce := { s.nNonce with n := s.LastSuccess }, arith } := by
  obtain ⟨arith', havg', hmean⟩ := h.sum.avgHash
  obtain rfl : arith' = arith := some.inj (havg'.symm.trans havg)
  have hlt : ∀ hash ∈ (env.hits (noncesFrom 0 i)).map Prod.snd, hash.toNat < env.bnTarget.toNat := by
    intro hash hmem
    obtain ⟨e, he, rfl⟩ := List.mem_map.mp hmem
    exact (env.mem_hits.mp he).2.2
  have hq : s.nNonce.q = env.hits (noncesFrom 0 i) := h.q
  refine ⟨?_, ?_, ?_, ?_, ?_, ?_⟩
  · exact (congrArg List.length hq).trans h.length
  · rw [hq]
    exact (noncesFrom_zero_increasing hi).sublist (hits_sublist _)
  · intro e he
    exact (env.mem_hits.mp (hq ▸ he)).2
  · rw [hq]
    exact h.last
  · rw [hq]
    exact hmean
  · rw [hmean]
    exact mean_lt (by rw [length_map, h.length]) env.size.toNat_pos hlt

theorem Mined.few (h : env.Mined s₀ tried s) (hcons : env.conservative = true) :
    (env.hits tried).length < env.size.m.toNat := by
  cases h with
  | filling few q pq sum => exact few
  | full aggressive => exact absurd (aggressive.symm.trans hcons) Bool.false_ne_true

theorem Reached.interrupted_iff
    (h : env.Reached 0 env.MaxTries s₀ i s) (hzero : env.nInnerLoopCount ≠ 0)
    (hcons : env.conservative = true) (hstop : s.nMaxTries = 0 ∨ env.fAllowedMining i = false)
    (hall : ∀ k < i, env.fAllowedMining k = true) :
    s.nNonce.nonce = env.nInnerLoopCount ↔ env.InterruptedAtCount := by
  have hpos : 0 < env.nInnerLoopCount.toNat :=
    Nat.pos_of_ne_zero fun h => hzero (BitVec.eq_of_toNat_eq h)
  have hcross : env.crossing 0 = env.nInnerLoopCount.toNat - 1 := by
    have hsub : (env.nInnerLoopCount - 1).toNat = env.nInnerLoopCount.toNat - 1 :=
      BitVec.toNat_sub_of_le hpos
    rw [crossing, sub_zero, hsub]
  have hle := h.le
  have hnonce : s.nNonce.nonce = env.nInnerLoopCount ↔ i = env.nInnerLoopCount.toNat := by
    rw [h.nonce, zero_add, ← BitVec.toNat_inj, BitVec.toNat_ofNat]
    omega
  have htries := h.tries
  have hcrossed := h.crossed
  have hzero_iff : s.nMaxTries = 0 ↔ s.nMaxTries.toNat = 0 := by rw [← BitVec.toNat_inj]; rfl
  rw [hnonce]
  constructor
  · rintro rfl
    rw [if_pos (by omega)] at htries
    refine ⟨by omega, hall, ?_, h.mined.few hcons⟩
    rcases hstop with hstop | hstop
    · rw [hzero_iff] at hstop
      omega
    · exact hstop
  · intro hint
    rcases Nat.lt_trichotomy i env.nInnerLoopCount.toNat with hlt | heq | hgt
    · rcases hstop with hstop | hstop
      · rw [hzero_iff] at hstop
        have := hint.tries
        omega
      · exact absurd (hstop.symm.trans (hint.before i hlt)) Bool.false_ne_true
    · exact heq
    · exact absurd (hint.forbidden.symm.trans (hall _ hgt)) Bool.false_ne_true

/-- A conservative miner that is done has what it should have, unless it was interrupted
at `nInnerLoopCount`, where `ismDone` does not look at the hashes. -/
theorem nextGPoW_sound_iff (env : Miner) (hcons : env.conservative = true) (s : MinerState)
    (hfresh : s.nNonce = .fresh) :
    (∃ tried s', env.nextGPoW s = some (tried, s') ∧
        (env.ismDone s'.nNonce = true → env.Sound s')) ↔
      env.nInnerLoopCount ≠ 0 ∧ ¬ env.InterruptedAtCount := by
  by_cases hzero : env.nInnerLoopCount = 0
  · refine iff_of_false ?_ fun h => h.1 hzero
    have hdone : env.ismDone s.nNonce = true := by
      rw [ismDone_conservative hcons, hfresh, hzero]
      exact .inl rfl
    rintro ⟨tried, s', hnext, hsound⟩
    simp only [nextGPoW, hdone, hcons, Bool.and_self, if_true] at hnext
    obtain ⟨-, rfl⟩ := Prod.mk.inj (some.inj hnext)
    have hlen := (hsound hdone).length
    rw [hfresh] at hlen
    exact Nat.ne_of_lt env.size.toNat_pos hlen
  · have hdone : ¬ env.ismDone s.nNonce = true := by
      rw [ismDone_conservative hcons, hfresh, not_or]
      exact ⟨fun h => hzero h.symm, Nat.not_le.mpr env.size.toNat_pos⟩
    have hstart : (env.start s).nNonce = s.nNonce ∧ (env.start s).nMaxTries = env.MaxTries := by
      rw [start, if_neg hdone]
      exact ⟨rfl, rfl⟩
    obtain ⟨i, r, arith, hnext, havg, hall, hend⟩ :=
      nextGPoW_spec env hfresh (by simp [hdone])
    rw [hstart.1, hstart.2, hfresh] at hend
    have hsound : (∃ tried s', env.nextGPoW s = some (tried, s') ∧
        (env.ismDone s'.nNonce = true → env.Sound s')) ↔
        (r.nNonce.nonce = env.nInnerLoopCount ∨ env.size.m.toNat ≤ r.nNonce.q.length →
          env.Sound { r with nNonce := { r.nNonce with n := r.LastSuccess }, arith }) := by
      simp [hnext, ismDone_conservative hcons]
    rw [hsound]
    cases hend with
    | stopped reached stop =>
      -- the nonce alone makes the miner done
      have hfew := reached.mined.few hcons
      have hunsound : ¬ env.Sound { r with nNonce := { r.nNonce with n := r.LastSuccess }, arith } :=
        fun h => Nat.ne_of_lt (reached.mined.length_q.mpr hfew) h.length
      have hiff := reached.interrupted_iff hzero hcons stop hall
      have hge : ¬ env.size.m.toNat ≤ r.nNonce.q.length :=
        Nat.not_le.mpr (reached.mined.length_q.mpr hfew)
      simp only [hunsound, hge, hiff, or_false, imp_false, ne_eq, hzero, not_false_eq_true, true_and]
    | left j eq left =>
      cases left with
      | complete lt nonce complete =>
        refine iff_of_true (fun _ => ?_) ⟨hzero, fun hint => ?_⟩
        · exact Complete.sound (Nat.succ_le_of_lt lt) complete havg
        · rcases Nat.lt_or_ge env.nInnerLoopCount.toNat i with hlt | hge
          · exact Bool.false_ne_true (hint.forbidden.symm.trans (hall _ hlt))
          · have hle := hits_noncesFrom_le env 0 (eq ▸ hge)
            exact Nat.not_lt_of_le (complete.length ▸ hle) hint.few
      | done lt aggressive mined => exact absurd (aggressive.symm.trans hcons) Bool.false_ne_true

def counting (conservative : Bool) (bnTarget : Uint256) (fAllowedMining : Nat → Bool) : Miner where
  size := ⟨2, by decide⟩
  conservative
  bnTarget
  nInnerLoopCount := 4
  MaxTries := 9
  getHash := fun nonce => nonce.setWidth 256
  fAllowedMining

def idle : MinerState := ⟨.fresh, 0, 0, 0, 0, ⟨.zero 9, 0⟩⟩

theorem nextGPoW_sound_counting :
    ∃ tried s', (counting true 3 fun _ => true).nextGPoW idle = some (tried, s') ∧
      ((counting true 3 fun _ => true).ismDone s'.nNonce = true →
        (counting true 3 fun _ => true).Sound s') :=
  (nextGPoW_sound_iff (counting true 3 fun _ => true) rfl idle rfl).mpr
    ⟨by decide, fun h => Bool.false_ne_true h.forbidden.symm⟩

/-- Mining is forbidden after the fourth nonce, and one hash is missing. -/
theorem nextGPoW_unsound :
    (counting true 1 fun k => decide (k < 4)).nextGPoW idle =
        some ([0, 1, 2, 3], ⟨⟨4, 0, [(0, 0)], []⟩, 6, 1, 0, 0, ⟨.zero 9, 0⟩⟩) ∧
      (counting true 1 fun k => decide (k < 4)).ismDone ⟨4, 0, [(0, 0)], []⟩ = true ∧
      ¬ (counting true 1 fun k => decide (k < 4)).Sound
        ⟨⟨4, 0, [(0, 0)], []⟩, 6, 1, 0, 0, ⟨.zero 9, 0⟩⟩ := by
  refine ⟨by decide +kernel, by decide, fun h => ?_⟩
  exact absurd h.length (by decide)

theorem Ended.mined (h : env.Ended first tries s₀ i s) (haggressive : env.conservative = false) :
    env.Mined s₀ (noncesFrom first i) s := by
  cases h with
  | stopped reached stop => exact reached.mined
  | left j eq left =>
    cases left with
    | complete lt nonce complete =>
      exact absurd (haggressive.symm.trans complete.conservative) Bool.false_ne_true
    | done lt aggressive mined => exact eq ▸ mined

/-- A miner that is not conservative keeps the `m` smallest hashes below the target of the
nonces it tried, and leaves their mean in the block. -/
theorem nextGPoW_smallest (env : Miner) (haggressive : env.conservative = false) (s : MinerState)
    (hfresh : s.nNonce = .fresh) : ∃ tried s', env.nextGPoW s = some (tried, s') ∧ tried.Nodup ∧
      (env.size.m.toNat ≤ s'.nNonce.q.length ↔ env.size.m.toNat ≤ (env.hits tried).length) ∧
      (env.size.m.toNat ≤ s'.nNonce.q.length →
        s'.nNonce.pq.length = env.size.m.toNat ∧
        SmallestOf (s'.nNonce.pq.map Prod.snd) ((env.hits tried).map Prod.snd) ∧
        s'.arith.hashGPoW.toNat =
          hashSum (s'.nNonce.pq.map Prod.snd) / env.size.m.toNat) := by
  obtain ⟨i, r, arith, hnext, havg, -, hend⟩ :=
    nextGPoW_spec env hfresh (by rw [haggressive, Bool.and_false])
  have hmined := hend.mined haggressive
  have hlen := not_congr hmined.length_q
  simp only [Nat.not_lt] at hlen
  refine ⟨_, _, hnext, noncesFrom_nodup _ hend.le, hlen, fun hmany => ?_⟩
  cases hmined with
  | filling few => exact absurd few (Nat.not_lt_of_le (hlen.mp hmany))
  | full aggressive many q pq ordered smallest sum =>
    obtain ⟨arith', havg', hmean⟩ := sum.avgHash
    obtain rfl : arith' = arith := some.inj (havg'.symm.trans havg)
    exact ⟨pq, smallest, hmean⟩

theorem nextGPoW_smallest_counting :
    ∃ tried s', (counting false 9 fun _ => true).nextGPoW idle = some (tried, s') ∧ tried.Nodup ∧
      (2 ≤ s'.nNonce.q.length ↔ 2 ≤ ((counting false 9 fun _ => true).hits tried).length) ∧
      (2 ≤ s'.nNonce.q.length → s'.nNonce.pq.length = 2 ∧
        SmallestOf (s'.nNonce.pq.map Prod.snd)
          (((counting false 9 fun _ => true).hits tried).map Prod.snd) ∧
        s'.arith.hashGPoW.toNat = hashSum (s'.nNonce.pq.map Prod.snd) / 2) :=
  nextGPoW_smallest (counting false 9 fun _ => true) rfl idle rfl

end Miner

end OurChain
