import OurChain.Consensus.MerkleMutation

/-!
# Partial merkle trees

`CPartialMerkleTree`: the part of a block's merkle tree above its matched transactions,
stored depth first as one flag for each node that is visited and one hash for each node
that is not descended from, and the extraction that walks the same way through data
from a peer.
-/

namespace OurChain

open List MerkleTree
open MerkleTree (width height)

/-- 60 is the lower bound for the size of a valid serialized transaction. -/
def MIN_TRANSACTION_WEIGHT : Nat := WITNESS_SCALE_FACTOR * 60

structure CPartialMerkleTree where
  nTransactions : BitVec 32
  vBits : List Bool
  vHash : List Uint256
  fBad : Bool

structure Extraction where
  nBitsUsed : Nat
  nHashUsed : Nat
  vMatch : List Uint256
  vnIndex : List Nat
  fBad : Bool

namespace CPartialMerkleTree

-- The sum is a 32-bit one.
def calcTreeWidth (nTransactions : BitVec 32) (height : Nat) : Nat :=
  (nTransactions.toNat + 2 ^ height - 1) % 2 ^ 32 / 2 ^ height

def calcHeight (nTransactions : BitVec 32) : Nat → Nat → Nat
  | 0, nHeight => nHeight
  | fuel + 1, nHeight =>
    if calcTreeWidth nTransactions nHeight > 1 then calcHeight nTransactions fuel (nHeight + 1)
    else nHeight

-- The loop ends before the width is shifted by as many bits as it has.
def treeHeight (nTransactions : BitVec 32) : Nat := calcHeight nTransactions 32 0

def leavesBelow (nTransactions : BitVec 32) (height pos : Nat) : List Nat :=
  List.range' (pos * 2 ^ height) (min ((pos + 1) * 2 ^ height) nTransactions.toNat - pos * 2 ^ height)

section
variable (H : Bytes → Uint256)

def calcHash (nTransactions : BitVec 32) (vTxid : List Uint256) : Nat → Nat → Uint256
  | 0, pos => vTxid.getD pos 0
  | height + 1, pos =>
    let left := calcHash nTransactions vTxid height (2 * pos)
    let right := if 2 * pos + 1 < calcTreeWidth nTransactions height then
      calcHash nTransactions vTxid height (2 * pos + 1) else left
    hashPair H left right

def traverseAndBuild (vTxid : List Uint256) (vMatch : List Bool) :
    Nat → Nat → CPartialMerkleTree → CPartialMerkleTree
  | height, pos, t =>
    let fParentOfMatch := (leavesBelow t.nTransactions height pos).any fun p => vMatch.getD p false
    let t := { t with vBits := t.vBits ++ [fParentOfMatch] }
    match height, fParentOfMatch with
    | height + 1, true =>
      let t := traverseAndBuild vTxid vMatch height (2 * pos) t
      if 2 * pos + 1 < calcTreeWidth t.nTransactions height then
        traverseAndBuild vTxid vMatch height (2 * pos + 1) t
      else t
    | height, _ => { t with vHash := t.vHash ++ [calcHash H t.nTransactions vTxid height pos] }

def build (vTxid : List Uint256) (vMatch : List Bool) : CPartialMerkleTree :=
  let nTransactions := BitVec.ofNat 32 vTxid.length
  traverseAndBuild H vTxid vMatch (treeHeight nTransactions) 0 ⟨nTransactions, [], [], false⟩

def traverseAndExtract (t : CPartialMerkleTree) : Nat → Nat → Extraction → Uint256 × Extraction
  | height, pos, s =>
    match t.vBits[s.nBitsUsed]? with
    | none => (0, { s with fBad := true })
    | some fParentOfMatch =>
      let s := { s with nBitsUsed := s.nBitsUsed + 1 }
      match height, fParentOfMatch with
      | height + 1, true =>
        let (left, s) := traverseAndExtract t height (2 * pos) s
        if 2 * pos + 1 < calcTreeWidth t.nTransactions height then
          let (right, s) := traverseAndExtract t height (2 * pos + 1) s
          -- The txids below the two are different, so their hashes have to be.
          (hashPair H left right, if right = left then { s with fBad := true } else s)
        else (hashPair H left left, s)
      | height, fParentOfMatch =>
        match t.vHash[s.nHashUsed]? with
        | none => (0, { s with fBad := true })
        | some hash =>
          let s := { s with nHashUsed := s.nHashUsed + 1 }
          if height = 0 ∧ fParentOfMatch then
            (hash, { s with vMatch := s.vMatch ++ [hash], vnIndex := s.vnIndex ++ [pos] })
          else (hash, s)

-- `vMatch` is cleared first, `vnIndex` is not.
def extractMatches (t : CPartialMerkleTree) (vnIndex : List Nat) : Uint256 × Extraction :=
  let s : Extraction := ⟨0, 0, [], vnIndex, t.fBad⟩
  if t.nTransactions = 0 then (0, s)
  else if t.nTransactions.toNat > MAX_BLOCK_WEIGHT / MIN_TRANSACTION_WEIGHT then (0, s)
  else if t.vHash.length > t.nTransactions.toNat then (0, s)
  else if t.vBits.length < t.vHash.length then (0, s)
  else
    let (hashMerkleRoot, s) := traverseAndExtract H t (treeHeight t.nTransactions) 0 s
    if s.fBad then (0, s)
    else if (s.nBitsUsed + 7) / 8 ≠ (t.vBits.length + 7) / 8 then (0, s)
    else if s.nHashUsed ≠ t.vHash.length then (0, s)
    else (hashMerkleRoot, s)

end

def packBits (vBits : List Bool) : Bytes :=
  vBits.zipIdx.foldl (fun vBytes (bit, p) =>
    vBytes.modify (p / 8) fun byte => byte ||| (BitVec.ofBool bit).zeroExtend 8 <<< (p % 8))
    (List.replicate ((vBits.length + 7) / 8) 0)

def unpackBits (vBytes : Bytes) : List Bool :=
  (List.range (vBytes.length * 8)).map fun p => vBytes.getD (p / 8) 0 &&& 1#8 <<< (p % 8) != 0

def codec : Codec (BitVec 32 × List Uint256 × Bytes) :=
  Codec.u32.seq ((vector Codec.u256).seq byteVector)

def serialize (t : CPartialMerkleTree) : Bytes :=
  codec.write (t.nTransactions, t.vHash, packBits t.vBits)

def deserialize (bs : Bytes) : Option (CPartialMerkleTree × Bytes) :=
  (codec.read bs).map fun ((nTransactions, vHash, vBytes), rest) =>
    (⟨nTransactions, unpackBits vBytes, vHash, false⟩, rest)

def bitAt (vBytes : Bytes) (p : Nat) : Bool := (vBytes.getD (p / 8) 0).getLsbD (p % 8)

theorem bitAt_eq (vBytes : Bytes) (p : Nat) :
    (vBytes.getD (p / 8) 0 &&& 1#8 <<< (p % 8) != 0) = bitAt vBytes p := by
  have hlt : p % 8 < 8 := Nat.mod_lt _ (by norm_num)
  rw [bitAt]
  generalize vBytes.getD (p / 8) 0 = byte
  generalize p % 8 = j at hlt ⊢
  interval_cases j <;> revert byte <;> decide

theorem bitAt_modify (vBytes : Bytes) (bit : Bool) (hq : q / 8 < vBytes.length) (p : Nat) :
    bitAt (vBytes.modify (q / 8) fun byte =>
    byte ||| (BitVec.ofBool bit).zeroExtend 8 <<< (q % 8)) p =
      (bitAt vBytes p || (decide (p = q) && bit)) := by
  have hlt : p % 8 < 8 := Nat.mod_lt _ (by norm_num)
  have hlt' : q % 8 < 8 := Nat.mod_lt _ (by norm_num)
  by_cases hbyte : p / 8 = q / 8
  · have hget : (vBytes.modify (q / 8) fun byte => byte ||| (BitVec.ofBool bit).zeroExtend 8 <<<
      (q % 8)).getD (p / 8) 0 =
        vBytes.getD (p / 8) 0 ||| (BitVec.ofBool bit).zeroExtend 8 <<< (q % 8) := by
      simp [getD_eq_getElem?_getD, hbyte, hq]
    have heq : decide (p = q) = decide (p % 8 = q % 8) := decide_eq_decide.mpr (by omega)
    rw [bitAt, hget, BitVec.getLsbD_or, bitAt, heq]
    congr 1
    generalize p % 8 = i at hlt ⊢
    generalize q % 8 = j at hlt' ⊢
    interval_cases i <;> interval_cases j <;> cases bit <;> rfl
  · have hne : p ≠ q := by
      rintro rfl
      exact hbyte rfl
    simp [bitAt, getD_eq_getElem?_getD, Ne.symm hbyte, hne]

variable (vBits : List Bool)

theorem bitAt_foldl (hm : vBits.length ≤ 8 * m) :
    let vBytes := vBits.zipIdx.foldl (fun vBytes (bit, p) =>
      vBytes.modify (p / 8) fun byte => byte ||| (BitVec.ofBool bit).zeroExtend 8 <<< (p % 8))
      (List.replicate m 0)
    vBytes.length = m ∧ ∀ p, bitAt vBytes p = vBits.getD p false := by
  induction vBits using List.reverseRecOn with
  | nil =>
    refine ⟨by simp, fun p => ?_⟩
    simp [bitAt]
  | append_singleton vBits bit ih =>
    rw [length_append, length_singleton] at hm
    obtain ⟨hlen, hbits⟩ := ih (by omega)
    simp only [zipIdx_append, foldl_append, zipIdx_singleton, foldl_cons, foldl_nil,
      Nat.zero_add]
    refine ⟨by rw [length_modify, hlen], fun p => ?_⟩
    rw [bitAt_modify _ _ (by rw [hlen]; omega), hbits]
    rcases lt_trichotomy p vBits.length with hp | rfl | hp
    · simp [getD_eq_getElem?_getD, getElem?_append_left hp, hp.ne]
    · simp [getD_eq_getElem?_getD]
    · rw [getD_eq_default _ _ hp.le, getD_eq_default _ _ (by simpa using hp)]
      simp [hp.ne']

theorem unpackBits_packBits : vBits <+: unpackBits (packBits vBits) ∧
    (unpackBits (packBits vBits)).length = (vBits.length + 7) / 8 * 8 := by
  obtain ⟨hlen, hbits⟩ := bitAt_foldl vBits (m := (vBits.length + 7) / 8) (by omega)
  have hlength : (unpackBits (packBits vBits)).length = (vBits.length + 7) / 8 * 8 := by
    rw [unpackBits, length_map, length_range, packBits, hlen]
  refine ⟨prefix_iff_getElem?.mpr fun p hp => ?_, hlength⟩
  have hp' : p < (packBits vBits).length * 8 := by
    rw [packBits, hlen]
    omega
  rw [unpackBits, getElem?_map, getElem?_range hp', Option.map_some, bitAt_eq, packBits, hbits,
    getD_eq_getElem _ _ hp]

def padded (t : CPartialMerkleTree) : CPartialMerkleTree :=
  { t with vBits := unpackBits (packBits t.vBits), fBad := false }

theorem length_packBits : (packBits vBits).length = (vBits.length + 7) / 8 :=
  (bitAt_foldl vBits (by omega)).1

theorem deserialize_serialize (t : CPartialMerkleTree) (rest : Bytes)
    (hhash : t.vHash.length ≤ MAX_SIZE) (hbits : (t.vBits.length + 7) / 8 ≤ MAX_SIZE) :
    deserialize (serialize t ++ rest) = some (t.padded, rest) := by
  have hok : codec.Ok (t.nTransactions, t.vHash, packBits t.vBits) := by
    refine ⟨trivial, ⟨hhash, fun _ _ => trivial⟩, ?_, fun _ _ => trivial⟩
    rwa [length_packBits]
  rw [deserialize, serialize, codec.read_write _ _ hok]
  rfl

section
variable {nTransactions : BitVec 32}

theorem calcTreeWidth_eq (hn : nTransactions.toNat ≤ 2 ^ 30) (hl : l ≤ 30) :
    calcTreeWidth nTransactions l = width nTransactions.toNat l := by
  have hpow := Nat.pow_le_pow_right two_pos hl
  rw [calcTreeWidth, width, Nat.mod_eq_of_lt (by omega)]

theorem height_le (hn : n ≤ 2 ^ 30) : height n ≤ 30 := (Nat.clog_le_iff_le_pow one_lt_two).mpr hn

theorem calcHeight_eq (hpos : 0 < nTransactions.toNat)
    (hn : nTransactions.toNat ≤ 2 ^ 30) (fuel : Nat) (hl : l ≤ height nTransactions.toNat)
    (hfuel : height nTransactions.toNat < l + fuel) :
    calcHeight nTransactions fuel l = height nTransactions.toNat := by
  have htop := height_le hn
  induction fuel generalizing l with
  | zero => omega
  | succ fuel ih =>
    rw [calcHeight, calcTreeWidth_eq hn (by omega)]
    rcases Nat.eq_or_lt_of_le hl with rfl | hlt
    · rw [width_height hpos, if_neg (by omega)]
    · rw [if_pos (one_lt_width hlt)]
      exact ih (by omega) (by omega)

theorem treeHeight_eq (hpos : 0 < nTransactions.toNat) (hn : nTransactions.toNat ≤ 2 ^ 30) :
    treeHeight nTransactions = height nTransactions.toNat := by
  have htop := height_le hn
  exact calcHeight_eq hpos hn 32 (Nat.zero_le _) (by omega)

theorem calcHash_eq {vTxid : List Uint256} (hn : nTransactions.toNat = vTxid.length)
    (hle : nTransactions.toNat ≤ 2 ^ 30) (hl : l ≤ 31) (pos : Nat) :
    calcHash H nTransactions vTxid l pos = merkleNode H vTxid l pos := by
  induction l generalizing pos with
  | zero => rfl
  | succ l ih =>
    have ih := ih (by omega)
    simp only [calcHash, ih, calcTreeWidth_eq hle (show l ≤ 30 by omega), hn]
    rfl

theorem leavesBelow_zero (hpos : pos < nTransactions.toNat) :
    leavesBelow nTransactions 0 pos = [pos] := by
  have hone : min ((pos + 1) * 2 ^ 0) nTransactions.toNat - pos * 2 ^ 0 = 1 := by omega
  rw [leavesBelow, hone]
  simp

theorem leavesBelow_beyond (hpos : nTransactions.toNat ≤ pos * 2 ^ l) :
    leavesBelow nTransactions l pos = [] := by
  rw [leavesBelow, Nat.sub_eq_zero_of_le (le_trans (min_le_right _ _) hpos)]
  rfl

theorem leavesBelow_succ (l pos : Nat) : leavesBelow nTransactions (l + 1) pos =
    leavesBelow nTransactions l (2 * pos) ++ leavesBelow nTransactions l (2 * pos + 1) := by
  have hstart : pos * 2 ^ (l + 1) = 2 * pos * 2 ^ l := by ring
  have hend : (pos + 1) * 2 ^ (l + 1) = (2 * pos + 1) * 2 ^ l + 2 ^ l := by ring
  have hmid : (2 * pos + 1) * 2 ^ l = 2 * pos * 2 ^ l + 2 ^ l := by ring
  have hlast : (2 * pos + 1 + 1) * 2 ^ l = (2 * pos + 1) * 2 ^ l + 2 ^ l := by ring
  simp only [leavesBelow, hstart, hend, hlast, hmid]
  generalize 2 * pos * 2 ^ l = a
  generalize 2 ^ l = b
  by_cases hfull : a + b ≤ nTransactions.toNat
  · have hleft : min (a + b) nTransactions.toNat - a = b := by omega
    rw [hleft, range'_append_1]
    congr 1
    omega
  · have hright : min (a + b + b) nTransactions.toNat - (a + b) = 0 := by omega
    rw [hright, range'_zero, append_nil]
    congr 1
    omega

theorem length_leavesBelow_pos (hpos : pos * 2 ^ l < nTransactions.toNat) :
    0 < (leavesBelow nTransactions l pos).length := by
  have hpow := Nat.two_pow_pos l
  rw [leavesBelow, length_range', Nat.succ_mul]
  exact Nat.sub_pos_of_lt (lt_min (by omega) hpos)

theorem leavesBelow_root (nTransactions : BitVec 32) :
    leavesBelow nTransactions (height nTransactions.toNat) 0 = List.range nTransactions.toNat := by
  have hall := Nat.le_pow_clog one_lt_two nTransactions.toNat
  rw [leavesBelow, Nat.zero_mul, Nat.zero_add, Nat.one_mul, height, min_eq_right hall, Nat.sub_zero,
    range_eq_range']

end

section
variable {H : Bytes → Uint256} {vTxid : List Uint256} {vMatch : List Bool}

section
variable (nTransactions : BitVec 32) (vMatch : List Bool)

def matchedBelow (height pos : Nat) : List Nat :=
  (leavesBelow nTransactions height pos).filter fun p => vMatch.getD p false

theorem any_leavesBelow (l pos : Nat) :
    ((leavesBelow nTransactions l pos).any fun p => vMatch.getD p false) =
      !(matchedBelow nTransactions vMatch l pos).isEmpty := by
  rw [matchedBelow, Bool.eq_iff_iff]
  simp [filter_eq_nil_iff]

theorem matchedBelow_succ (l pos : Nat) :
    matchedBelow nTransactions vMatch (l + 1) pos =
      matchedBelow nTransactions vMatch l (2 * pos) ++ matchedBelow nTransactions vMatch
      l (2 * pos + 1) := by
  rw [matchedBelow, leavesBelow_succ, filter_append]
  rfl

end

theorem traverseAndBuild_stop (hstop : l = 0 ∨ matchedBelow t.nTransactions vMatch l pos = []) :
    traverseAndBuild H vTxid vMatch l pos t =
      { t with
        vBits := t.vBits ++ [!(matchedBelow t.nTransactions vMatch l pos).isEmpty]
        vHash := t.vHash ++ [calcHash H t.nTransactions vTxid l pos] } := by
  rw [traverseAndBuild, any_leavesBelow]
  rintro l rfl hany
  rw [any_leavesBelow, hstop.resolve_left (Nat.succ_ne_zero l)] at hany
  cases hany

theorem traverseAndBuild_descend (hmatched : matchedBelow t.nTransactions vMatch (l + 1) pos ≠ []) :
    traverseAndBuild H vTxid vMatch (l + 1) pos t =
      let t := traverseAndBuild H vTxid vMatch l (2 * pos) { t with vBits := t.vBits ++ [true] }
      if 2 * pos + 1 < calcTreeWidth t.nTransactions l then
        traverseAndBuild H vTxid vMatch l (2 * pos + 1) t
      else t := by
  have hany : ((leavesBelow t.nTransactions (l + 1) pos).any fun p =>
    vMatch.getD p false) = true := by
    rw [any_leavesBelow, isEmpty_eq_false_iff.mpr hmatched]
    rfl
  rw [traverseAndBuild, hany]
  exact hany

structure Grown (l : Nat) (leaves : List Nat) (t t' : CPartialMerkleTree) : Prop where
  nTransactions : t'.nTransactions = t.nTransactions
  vBits : t.vBits <+: t'.vBits
  vHash : t.vHash <+: t'.vHash
  hashes : t'.vHash.length ≤ t.vHash.length + leaves.length
  bits : t'.vHash.length + t.vBits.length ≤ t'.vBits.length + t.vHash.length
  most : t'.vBits.length < t.vBits.length + 2 ^ (l + 1)

theorem Grown.stored {hash : Uint256} (hleaves : 0 < leaves.length) :
    Grown l leaves t { t with vBits := t.vBits ++ [bit], vHash := t.vHash ++ [hash] } where
  nTransactions := rfl
  vBits := prefix_append _ _
  vHash := prefix_append _ _
  hashes := by
    rw [length_append]
    exact Nat.add_le_add_left hleaves _
  bits := by
    simp only [length_append, length_singleton]
    omega
  most := by
    rw [length_append]
    exact Nat.add_lt_add_left (Nat.one_lt_two_pow (Nat.succ_ne_zero l)) _

theorem Grown.left {t₁ t₂ : CPartialMerkleTree}
    (h : Grown l leaves { t₁ with vBits := t₁.vBits ++ [true] } t₂) :
    Grown (l + 1) leaves t₁ t₂ where
  nTransactions := h.nTransactions
  vBits := (prefix_append _ _).trans h.vBits
  vHash := h.vHash
  hashes := h.hashes
  bits := by
    have := h.bits
    simp only [length_append, length_singleton] at this
    omega
  most := by
    have := h.most
    have := Nat.two_pow_pos (l + 1)
    simp only [length_append, length_singleton] at *
    rw [pow_succ 2 (l + 1)]
    omega

theorem Grown.both {t₁ t₂ t₃ : CPartialMerkleTree}
    (h : Grown l leaves { t₁ with vBits := t₁.vBits ++ [true] } t₂) (h' : Grown l leaves' t₂ t₃) :
    Grown (l + 1) (leaves ++ leaves') t₁ t₃ where
  nTransactions := h'.nTransactions.trans h.nTransactions
  vBits := ((prefix_append _ _).trans h.vBits).trans h'.vBits
  vHash := h.vHash.trans h'.vHash
  hashes := by
    have := h.hashes
    have := h'.hashes
    rw [length_append]
    dsimp only at *
    omega
  bits := by
    have := h.bits
    have := h'.bits
    simp only [length_append, length_singleton] at *
    omega
  most := by
    have := h.most
    have := h'.most
    simp only [length_append, length_singleton] at *
    rw [pow_succ 2 (l + 1)]
    omega

variable (H vTxid vMatch) in
theorem traverseAndBuild_grown (pos : Nat) (hn : t.nTransactions.toNat ≤ 2 ^ 30) (hl : l ≤ 30)
    (hpos : pos * 2 ^ l < t.nTransactions.toNat) :
    Grown l (leavesBelow t.nTransactions l pos) t (traverseAndBuild H vTxid vMatch l pos t) := by
  induction l generalizing pos t with
  | zero =>
    rw [traverseAndBuild_stop (.inl rfl)]
    exact .stored (length_leavesBelow_pos hpos)
  | succ l ih =>
    have hleft : 2 * pos * 2 ^ l < t.nTransactions.toNat := by
      rw [pow_succ] at hpos
      linarith
    by_cases hmatched : matchedBelow t.nTransactions vMatch (l + 1) pos = []
    · rw [traverseAndBuild_stop (.inr hmatched)]
      exact .stored (length_leavesBelow_pos hpos)
    · rw [traverseAndBuild_descend hmatched, leavesBelow_succ]
      have hfirst := ih (t := { t with vBits := t.vBits ++ [true] }) (2 * pos) hn (by omega) hleft
      have hsame := hfirst.nTransactions
      simp only [hsame, calcTreeWidth_eq hn (show l ≤ 30 by omega), lt_width_iff]
      split
      · rename_i hright
        have hsecond := ih (2 * pos + 1) (by rwa [hsame]) (by omega) (by rwa [hsame])
        rw [hsame] at hsecond
        exact hfirst.both hsecond
      · rename_i hright
        rw [leavesBelow_beyond (Nat.le_of_not_lt hright), append_nil]
        exact hfirst.left

theorem traverseAndExtract_stop {hash : Uint256} (hbit : r.vBits[s.nBitsUsed]? = some bit)
    (hstop : l = 0 ∨ bit = false) (hhash : r.vHash[s.nHashUsed]? = some hash) :
    traverseAndExtract H r l pos s =
      let s := { s with nBitsUsed := s.nBitsUsed + 1, nHashUsed := s.nHashUsed + 1 }
      if l = 0 ∧ bit = true then
        (hash, { s with vMatch := s.vMatch ++ [hash], vnIndex := s.vnIndex ++ [pos] })
      else (hash, s) := by
  unfold traverseAndExtract
  rcases hstop with rfl | rfl <;> simp [hbit, hhash]

theorem traverseAndExtract_descend (hbit : r.vBits[s.nBitsUsed]? = some true) :
    traverseAndExtract H r (l + 1) pos s =
      let (left, s) := traverseAndExtract H r l (2 * pos) { s with nBitsUsed := s.nBitsUsed + 1 }
      if 2 * pos + 1 < calcTreeWidth r.nTransactions l then
        let (right, s) := traverseAndExtract H r l (2 * pos + 1) s
        (hashPair H left right, if right = left then { s with fBad := true } else s)
      else (hashPair H left left, s) := by
  rw [traverseAndExtract, hbit]

def found (vTxid : List Uint256) (t : CPartialMerkleTree) (positions : List Nat) (s : Extraction) :
    Extraction :=
  { s with
    nBitsUsed := t.vBits.length
    nHashUsed := t.vHash.length
    vMatch := s.vMatch ++ positions.map fun p => vTxid.getD p 0
    vnIndex := s.vnIndex ++ positions }

theorem found_found (vTxid : List Uint256) (t t' : CPartialMerkleTree) (ps ps' : List Nat)
    (s : Extraction) :
    found vTxid t' ps' (found vTxid t ps s) = found vTxid t' (ps ++ ps') s := by
  simp [found]

theorem found_bit (vTxid : List Uint256) (t : CPartialMerkleTree) (ps : List Nat)
    (s : Extraction) (k : Nat) :
    found vTxid t ps { s with nBitsUsed := k } = found vTxid t ps s := rfl

theorem getElem?_end_of_prefixed {l l' : List α} (h : l ++ [a] <+: l') : l'[l.length]? = some a := by
  obtain ⟨rest, rfl⟩ := h
  simp

def Distinct (H : Bytes → Uint256) (vTxid : List Uint256) : Prop :=
  ∀ l i, l < height vTxid.length → (2 * i + 1) * 2 ^ l < vTxid.length →
    merkleNode H vTxid l (2 * i + 1) ≠ merkleNode H vTxid l (2 * i)

theorem traverseAndExtract_stored (hmax : vTxid.length ≤ 2 ^ 30)
    (hn : t.nTransactions.toNat = vTxid.length) (hl : l ≤ 30) (hpos : pos * 2 ^ l < vTxid.length)
    (hstop : l = 0 ∨ matchedBelow t.nTransactions vMatch l pos = [])
    (hbits : (traverseAndBuild H vTxid vMatch l pos t).vBits <+: r.vBits)
    (hhashes : (traverseAndBuild H vTxid vMatch l pos t).vHash <+: r.vHash)
    (hb : s.nBitsUsed = t.vBits.length) (hh : s.nHashUsed = t.vHash.length) :
    traverseAndExtract H r l pos s = (merkleNode H vTxid l pos,
      found vTxid (traverseAndBuild H vTxid vMatch l pos t)
      (matchedBelow t.nTransactions vMatch l pos) s) := by
  rw [traverseAndBuild_stop hstop, calcHash_eq hn (hn ▸ hmax) (by omega)] at hbits hhashes ⊢
  have hbit : r.vBits[s.nBitsUsed]? = some
    (!(matchedBelow t.nTransactions vMatch l pos).isEmpty) := by
    rw [hb]
    exact getElem?_end_of_prefixed hbits
  have hhash : r.vHash[s.nHashUsed]? = some (merkleNode H vTxid l pos) := by
    rw [hh]
    exact getElem?_end_of_prefixed hhashes
  by_cases hmatched : matchedBelow t.nTransactions vMatch l pos = []
  · rw [hmatched] at hbit ⊢
    rw [traverseAndExtract_stop hbit (.inr rfl) hhash]
    simp [found, hb, hh]
  · obtain rfl := hstop.resolve_right hmatched
    have hone : matchedBelow t.nTransactions vMatch 0 pos = [pos] := by
      have hleaf : leavesBelow t.nTransactions 0 pos = [pos] :=
        leavesBelow_zero (by simpa [hn] using hpos)
      rw [matchedBelow, hleaf] at hmatched ⊢
      rw [filter_eq_nil_iff] at hmatched
      simpa using hmatched
    rw [hone] at hbit ⊢
    rw [traverseAndExtract_stop hbit (.inl rfl) hhash]
    simp [found, hb, hh, merkleNode, MerkleTree.nodeAt]

theorem traverseAndExtract_build (hdistinct : Distinct H vTxid)
    (hmax : vTxid.length ≤ 2 ^ 30) (pos : Nat) (hn : t.nTransactions.toNat = vTxid.length)
    (hl : l ≤ height vTxid.length) (hpos : pos * 2 ^ l < vTxid.length)
    (hsame : r.nTransactions = t.nTransactions)
    (hbits : (traverseAndBuild H vTxid vMatch l pos t).vBits <+: r.vBits)
    (hhashes : (traverseAndBuild H vTxid vMatch l pos t).vHash <+: r.vHash)
    (hb : s.nBitsUsed = t.vBits.length) (hh : s.nHashUsed = t.vHash.length) :
    traverseAndExtract H r l pos s = (merkleNode H vTxid l pos,
      found vTxid (traverseAndBuild H vTxid vMatch l pos t)
      (matchedBelow t.nTransactions vMatch l pos) s) := by
  have htop := height_le hmax
  induction l generalizing pos t s with
  | zero => exact traverseAndExtract_stored hmax hn (by omega) hpos (.inl rfl) hbits hhashes hb hh
  | succ l ih =>
    by_cases hmatched : matchedBelow t.nTransactions vMatch (l + 1) pos = []
    · exact traverseAndExtract_stored hmax hn (by omega) hpos (.inr hmatched) hbits hhashes hb hh
    have hle : t.nTransactions.toNat ≤ 2 ^ 30 := hn ▸ hmax
    have hleft : 2 * pos * 2 ^ l < vTxid.length := by
      rw [pow_succ] at hpos
      linarith
    rw [traverseAndBuild_descend hmatched] at hbits hhashes ⊢
    have hfirst := traverseAndBuild_grown H vTxid vMatch
      (t := { t with vBits := t.vBits ++ [true] }) (2 * pos) hle (show l ≤ 30 by omega)
      (by rwa [← hn] at hleft)
    have hstep := fun hbits hhashes =>
      ih (t := { t with vBits := t.vBits ++ [true] }) (s := { s with nBitsUsed := s.nBitsUsed + 1 })
        (2 * pos) hn (by omega) hleft hsame hbits hhashes (by simp [hb]) hh
    simp only [found_bit] at hstep
    generalize traverseAndBuild H vTxid vMatch l (2 * pos) { t with vBits := t.vBits ++ [true] } = t₁
      at hbits hhashes hfirst hstep ⊢
    have hbit : t₁.vBits <+: r.vBits → r.vBits[s.nBitsUsed]? = some true := by
      rw [hb]
      exact fun hread => getElem?_end_of_prefixed (hfirst.vBits.trans hread)
    have hsame₁ : t₁.nTransactions = t.nTransactions := hfirst.nTransactions
    have hwidth : 2 * pos + 1 < calcTreeWidth t.nTransactions l ↔
      (2 * pos + 1) * 2 ^ l < vTxid.length := by
      rw [calcTreeWidth_eq hle (by omega), lt_width_iff, hn]
    simp only [hsame₁, hwidth] at hbits hhashes ⊢
    rw [matchedBelow_succ]
    by_cases hright : (2 * pos + 1) * 2 ^ l < vTxid.length
    · rw [if_pos hright] at hbits hhashes ⊢
      have hsecond := traverseAndBuild_grown H vTxid vMatch (t := t₁) (2 * pos + 1)
        (by rwa [hsame₁]) (show l ≤ 30 by omega) (by rwa [hsame₁, hn])
      have hread := hsecond.vBits.trans hbits
      have hrest := ih (t := t₁) (s := found vTxid t₁
        (matchedBelow t.nTransactions vMatch l (2 * pos)) s) (2 * pos + 1) (by rw [hsame₁, hn])
        (by omega) hright (by rw [hsame₁, hsame]) hbits hhashes rfl rfl
      rw [traverseAndExtract_descend (hbit hread), hstep hread (hsecond.vHash.trans hhashes)]
      simp only [hsame, hwidth, if_pos hright, hrest, hsame₁, found_found,
        if_neg (hdistinct l pos (by omega) hright)]
      exact congrArg (·, _) (nodeAt_pair hright).symm
    · rw [if_neg hright] at hbits hhashes ⊢
      have hnone : matchedBelow t.nTransactions vMatch l (2 * pos + 1) = [] := by
        rw [matchedBelow, leavesBelow_beyond (by rw [hn]; omega)]
        rfl
      rw [traverseAndExtract_descend (hbit hbits), hstep hbits hhashes, hnone, append_nil]
      simp only [hsame, hwidth, if_neg hright]
      exact congrArg (·, _) (nodeAt_odd (Nat.le_of_not_lt hright)).symm

theorem distinct_of_inj
    (hinj : ∀ p ∈ merklePairs H vTxid, ∀ p' ∈ merklePairs H vTxid,
      hashPair H p.1 p.2 = hashPair H p'.1 p'.2 → p = p') (hnodup : vTxid.Nodup) :
      Distinct H vTxid := by
  intro l i hl hin heq
  have hleaf : ∀ i < vTxid.length, ∀ j < vTxid.length, vTxid.getD i 0 = vTxid.getD j 0 → i = j := by
    intro i hi j hj hij
    rw [getD_eq_getElem _ _ hi, getD_eq_getElem _ _ hj] at hij
    exact (Nodup.getElem_inj_iff hnodup).mp hij
  have hin' : 2 * i * 2 ^ l < vTxid.length := by nlinarith [Nat.two_pow_pos l]
  have hsame := nodeAt_inj hinj hleaf hl.le (lt_width_iff.mpr hin)
    (lt_width_iff.mpr hin') heq
  omega

theorem extractMatches_ok {hashMerkleRoot : Uint256} (hpos : t.nTransactions ≠ 0)
    (hmost : t.nTransactions.toNat ≤ MAX_BLOCK_WEIGHT / MIN_TRANSACTION_WEIGHT)
    (hhashes : t.vHash.length ≤ t.nTransactions.toNat) (hbits : t.vHash.length ≤ t.vBits.length)
    (hroot : traverseAndExtract H t (treeHeight t.nTransactions) 0 ⟨0, 0, [], vnIndex, t.fBad⟩ =
    (hashMerkleRoot, s)) (hgood : s.fBad = false) (hused :
    (s.nBitsUsed + 7) / 8 = (t.vBits.length + 7) / 8) (hall : s.nHashUsed = t.vHash.length) :
    extractMatches H t vnIndex = (hashMerkleRoot, s) := by
  rw [extractMatches]
  simp only [if_neg hpos, if_neg (Nat.not_lt.mpr hmost), if_neg (Nat.not_lt.mpr hhashes),
    if_neg (Nat.not_lt.mpr hbits), hroot, hgood, hused, hall, ne_eq, not_true_eq_false, if_false,
    Bool.false_eq_true]

section
variable (hmax : vTxid.length ≤ 2 ^ 30)
include hmax

theorem toNat_size : (BitVec.ofNat 32 vTxid.length).toNat = vTxid.length := by
  rw [BitVec.toNat_ofNat]
  omega

theorem leavesBelow_size :
    leavesBelow (BitVec.ofNat 32 vTxid.length) (height vTxid.length) 0 = List.range vTxid.length := by
  have hroot := leavesBelow_root (BitVec.ofNat 32 vTxid.length)
  rwa [toNat_size hmax] at hroot

variable (hne : vTxid ≠ [])
include hne

theorem treeHeight_size : treeHeight (BitVec.ofNat 32 vTxid.length) = height vTxid.length := by
  have hpos := length_pos_of_ne_nil hne
  have hn := toNat_size hmax
  rw [treeHeight_eq (by omega) (by omega), hn]

variable (H vMatch) in
theorem build_grown :
    Grown (height vTxid.length) (List.range vTxid.length) ⟨BitVec.ofNat 32 vTxid.length,
    [], [], false⟩
      (build H vTxid vMatch) := by
  have hpos := length_pos_of_ne_nil hne
  rw [build, treeHeight_size hmax hne, ← leavesBelow_size hmax]
  refine traverseAndBuild_grown H vTxid vMatch (t := ⟨BitVec.ofNat 32 vTxid.length, [],
    [], false⟩) 0 ?_ (height_le hmax) ?_
  · exact (toNat_size hmax).trans_le hmax
  · rw [Nat.zero_mul]
    exact hpos.trans_eq (toNat_size hmax).symm

variable (H vMatch) in
theorem length_vBits_build : (build H vTxid vMatch).vBits.length < 4 * vTxid.length := by
  have hmost := (build_grown H vMatch hmax hne).most
  have hpow := two_pow_height_lt (length_pos_of_ne_nil hne)
  rw [length_nil, Nat.zero_add, pow_succ] at hmost
  omega

theorem traverseAndExtract_root (hdistinct : Distinct H vTxid)
    (hsame : r.nTransactions = BitVec.ofNat 32 vTxid.length)
    (hbits : (build H vTxid vMatch).vBits <+: r.vBits)
    (hhashes : (build H vTxid vMatch).vHash <+: r.vHash) (vnIndex : List Nat) :
    traverseAndExtract H r (treeHeight r.nTransactions) 0 ⟨0, 0, [], vnIndex, false⟩ =
      (MerkleTree.root (hashPair H) (fun i => vTxid.getD i 0) vTxid.length,
        found vTxid (build H vTxid vMatch) ((List.range vTxid.length).filter fun p =>
        vMatch.getD p false)
          ⟨0, 0, [], vnIndex, false⟩) := by
  have hpos := length_pos_of_ne_nil hne
  rw [hsame, treeHeight_size hmax hne]
  rw [build, treeHeight_size hmax hne] at hbits hhashes ⊢
  rw [traverseAndExtract_build hdistinct hmax 0 (toNat_size hmax) le_rfl
    (by omega) hsame hbits hhashes rfl rfl, matchedBelow, leavesBelow_size hmax]
  rfl

end

/-- What is built, written, read and extracted again. -/
theorem extractMatches_deserialize (H : Bytes → Uint256) (vTxid : List Uint256) (vMatch : List Bool)
    (vnIndex : List Nat) (rest : Bytes) (hne : vTxid ≠ [])
    (hsize : vTxid.length ≤ MAX_BLOCK_WEIGHT / MIN_TRANSACTION_WEIGHT) (hnodup : vTxid.Nodup)
    (hinj : ∀ p ∈ merklePairs H vTxid, ∀ p' ∈ merklePairs H vTxid,
      hashPair H p.1 p.2 = hashPair H p'.1 p'.2 → p = p') :
    ∃ t, deserialize (serialize (build H vTxid vMatch) ++ rest) = some (t, rest) ∧
      let positions := (List.range vTxid.length).filter fun p => vMatch.getD p false
      (extractMatches H t vnIndex).1 = (computeMerkleRoot H vTxid).1 ∧
        (extractMatches H t vnIndex).2.vMatch = positions.map (fun p => vTxid.getD p 0) ∧
        (extractMatches H t vnIndex).2.vnIndex = vnIndex ++ positions := by
  have hmost : MAX_BLOCK_WEIGHT / MIN_TRANSACTION_WEIGHT = 16666 := by decide
  have hmax : vTxid.length ≤ 2 ^ 30 := by omega
  have hgrown := build_grown H vMatch hmax hne
  have hflags := length_vBits_build H vMatch hmax hne
  have hsame : (build H vTxid vMatch).nTransactions = BitVec.ofNat 32 vTxid.length :=
    hgrown.nTransactions
  have hhashes : (build H vTxid vMatch).vHash.length ≤ vTxid.length := by simpa using hgrown.hashes
  have henough : (build H vTxid vMatch).vHash.length ≤ (build H vTxid vMatch).vBits.length := by
    simpa using hgrown.bits
  obtain ⟨hleading, hpadded⟩ := unpackBits_packBits (build H vTxid vMatch).vBits
  have hread := deserialize_serialize (build H vTxid vMatch) rest (by rw [MAX_SIZE]; omega)
    (by rw [MAX_SIZE]; omega)
  refine ⟨(build H vTxid vMatch).padded, hread, ?_⟩
  have hroot := traverseAndExtract_root hmax hne (distinct_of_inj hinj hnodup)
    (r := (build H vTxid vMatch).padded) hsame hleading prefix_rfl vnIndex
  have hcount : (build H vTxid vMatch).padded.nTransactions.toNat = vTxid.length :=
    (congrArg BitVec.toNat hsame).trans (toNat_size hmax)
  have hpos : (build H vTxid vMatch).padded.nTransactions ≠ 0 := by
    intro hzero
    rw [hzero] at hcount
    exact hne (length_eq_zero_iff.mp hcount.symm)
  have hextract := extractMatches_ok hpos (hcount.trans_le hsize) (hhashes.trans_eq hcount.symm)
    (henough.trans hleading.length_le) hroot rfl
    (show _ = ((unpackBits (packBits (build H vTxid vMatch).vBits)).length + 7) / 8 by
      rw [hpadded]
      change ((build H vTxid vMatch).vBits.length + 7) / 8 = _
      omega) rfl
  rw [hextract, (computeMerkleRoot_spec hne (by omega)).1]
  exact ⟨rfl, nil_append _, rfl⟩

theorem extractMatches_deserialize_three :
    ∃ t, deserialize (serialize (build smallHash [1, 2, 3] [true, false, true])) = some (t, []) ∧
      (extractMatches smallHash t [7]).1 = (computeMerkleRoot smallHash [1, 2, 3]).1 ∧
        (extractMatches smallHash t [7]).2.vMatch = [1, 3] ∧
        (extractMatches smallHash t [7]).2.vnIndex = [7, 0, 2] := by
  obtain ⟨hleft, hright, htop⟩ := hashPair_small
  have hinj : ∀ p ∈ merklePairs smallHash [1, 2, 3], ∀ p' ∈ merklePairs smallHash [1, 2, 3],
      hashPair smallHash p.1 p.2 = hashPair smallHash p'.1 p'.2 → p = p' := by
    simp only [merklePairs_small.1, forall_mem_cons, hleft, hright, htop]
    simp
  obtain ⟨t, hread, hroot, hmatch, hindex⟩ := extractMatches_deserialize smallHash [1, 2, 3]
    [true, false, true] [7] [] (by simp) (by decide) (by decide) hinj
  rw [append_nil] at hread
  exact ⟨t, hread, hroot, hmatch.trans (by decide), hindex.trans (by decide)⟩

end

end CPartialMerkleTree

end OurChain
