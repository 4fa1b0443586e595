import OurChain.Coins

/-!
# Merkle roots

`MerkleComputation`, which folds the leaves into an array of subtree hashes, one
for each bit of the number of leaves read so far, and then sweeps up the rightmost
branch.
-/

namespace OurChain

section
variable (H : Bytes → Uint256)

def hashPair (left right : Uint256) : Uint256 := H (Codec.u256.write left ++ Codec.u256.write right)

/-- The variables of the computation. `inner` is undefined at the levels that no leaf
has reached; `matchlevel` is none for -1. -/
structure MerkleVars where
  inner : Nat → Uint256
  mutated : Bool
  matchlevel : Option Nat
  branch : List Uint256

/-- The hash on its way up, its level, and whether it depends on the matching leaf. -/
structure Climber where
  h : Uint256
  level : Nat
  matchh : Bool

/-- The hash that the branch takes when `c` meets the subtree at its level. -/
def MerkleVars.meet (v : MerkleVars) (c : Climber) : MerkleVars × Bool :=
  if c.matchh then ({ v with branch := v.branch ++ [v.inner c.level] }, true)
  else if v.matchlevel = some c.level then ({ v with branch := v.branch ++ [c.h] }, true)
  else (v, false)

/-- The steps at the levels whose bit in `count` is zero. A `uint32_t` has 32 bits. -/
def climb (count : Nat) : Nat → Climber → MerkleVars → Climber × MerkleVars
  | 0, c, v => (c, v)
  | fuel + 1, c, v =>
    if count.testBit c.level then (c, v)
    else
      let (v, matchh) := v.meet c
      climb count fuel ⟨hashPair H (v.inner c.level) c.h, c.level + 1, matchh⟩
        { v with mutated := v.mutated || v.inner c.level = c.h }

def addLeaf (branchpos count : Nat) (leaf : Uint256) (v : MerkleVars) : MerkleVars :=
  let (c, v) := climb H (count + 1) 32 ⟨leaf, 0, count = branchpos⟩ v
  { v with
    inner := Function.update v.inner c.level c.h
    matchlevel := if c.matchh then some c.level else v.matchlevel }

/-- The lowest bit of `count` that is set. -/
def lowestBit (count : Nat) : Nat → Nat → Nat
  | 0, level => level
  | fuel + 1, level => if count.testBit level then level else lowestBit count fuel (level + 1)

/-- The sweep over the rightmost branch: an odd hash is combined with itself. -/
def sweep : Nat → Nat → Climber → MerkleVars → Climber × MerkleVars
  | 0, _, c, v => (c, v)
  | fuel + 1, count, c, v =>
    if count = 2 ^ c.level then (c, v)
    else
      let v := if c.matchh then { v with branch := v.branch ++ [c.h] } else v
      let count := count + 2 ^ c.level
      let (c, v') := climb H count 32 ⟨hashPair H c.h c.h, c.level + 1, c.matchh⟩ v
      -- equal hashes are noted for leaves only
      sweep fuel count c { v' with mutated := v.mutated }

/-- The root, the mutation flag and the branch of the leaf at `branchpos`. -/
def merkleComputation (leaves : List Uint256) (branchpos : Nat) : Uint256 × Bool × List Uint256 :=
  if leaves.isEmpty then (0, false, [])
  else
    let count := leaves.length
    let v := leaves.zipIdx.foldl (fun v (leaf, i) => addLeaf H branchpos i leaf v)
      ⟨fun _ => 0, false, none, []⟩
    let level := lowestBit count 32 0
    let (c, v) := sweep H 32 count ⟨v.inner level, level, v.matchlevel = some level⟩ v
    (c.h, v.mutated, v.branch)

def computeMerkleRoot (leaves : List Uint256) : Uint256 × Bool :=
  -- -1 as a position
  let (hash, mutated, _) := merkleComputation H leaves (2 ^ 32 - 1)
  (hash, mutated)

def blockMerkleRoot (block : CBlock) : Uint256 × Bool :=
  computeMerkleRoot H (block.vtx.map (CTransaction.getHash H))

def blockWitnessMerkleRoot (block : CBlock) : Uint256 × Bool :=
  computeMerkleRoot H (0 :: block.vtx.tail.map (CTransaction.getWitnessHash H))

theorem computeMerkleRoot_singleton (leaf : Uint256) :
    computeMerkleRoot H [leaf] = (leaf, false) := by
  simp [computeMerkleRoot, merkleComputation, addLeaf, climb, lowestBit, sweep]

end

end OurChain
