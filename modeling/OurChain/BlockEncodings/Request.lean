import OurChain.BlockEncodings

/-!
# Differential index lists

A request lists the indices it asks for by their distances. The reader adds them up in a counter
of 16 bits, which wraps behind the index 65535.
-/

namespace OurChain

open List Option

namespace IndexList

open BlockTransactionsRequest (unserialize)

variable {bs rest : Bytes} {blockhash : Uint256} {distances indexes : List (BitVec 16)}
    {d index offset : BitVec 16}

def writeDistances (distances : List (BitVec 16)) :
    Bytes := distances.flatMap fun d => writeCompactSize d.toNat

def distanceBytes (blockhash : Uint256) (distances : List (BitVec 16)) : Bytes :=
  Codec.u256.write blockhash ++ (writeCompactSize distances.length ++ writeDistances distances)

theorem readIndexes_write (distances : List (BitVec 16)) (rest : Bytes) :
    readIndexes distances.length (writeDistances distances ++ rest) = some (distances, rest) := by
  induction distances with
  | nil => rfl
  | cons d distances ih =>
    have hd : d.toNat ≤ 0xffff := by omega
    have hmax : d.toNat ≤ MAX_SIZE := hd.trans (by decide)
    simp only [writeDistances, flatMap_cons, append_assoc, length_cons, readIndexes] at ih ⊢
    rw [readCompactSize_write hmax]
    simp [ih, Nat.not_lt.mpr hd]

theorem readIndexes_eq_some (h : readIndexes n bs = some (distances, rest)) :
    distances.length = n ∧ bs = writeDistances distances ++ rest := by
  induction n generalizing bs distances with
  | zero =>
    obtain ⟨rfl, rfl⟩ : [] = distances ∧ bs = rest := by simpa [readIndexes] using h
    exact ⟨rfl, rfl⟩
  | succ n ih =>
    simp only [readIndexes, bind_eq_bind, bind_eq_some_iff] at h
    obtain ⟨⟨index, bs₁⟩, hindex, h⟩ := h
    obtain ⟨-, rfl⟩ := writeCompactSize_read hindex
    split at h
    · cases h
    · rename_i hfits
      obtain ⟨⟨indexes, bs₂⟩, hindexes, heq⟩ := bind_eq_some_iff.mp h
      obtain ⟨rfl, rfl⟩ : BitVec.ofNat 16 index :: indexes = distances ∧ bs₂ = rest := by
        simpa using heq
      obtain ⟨hlength, rfl⟩ := ih hindexes
      have hindex : (BitVec.ofNat 16 index).toNat = index := by
        rw [BitVec.toNat_ofNat]
        omega
      refine ⟨by simp [hlength], ?_⟩
      simp only [writeDistances, flatMap_cons, hindex, append_assoc]

theorem unserialize_eq_some (h : unserialize bs = some (req, rest)) :
    ∃ distances, distances.length ≤ MAX_SIZE ∧ bs = distanceBytes req.blockhash distances ++ rest ∧
      addOffsets 0 distances = some req.indexes := by
  simp only [unserialize, bind_eq_bind, bind_eq_some_iff] at h
  obtain ⟨⟨blockhash, bs₁⟩, hhash, ⟨n, bs₂⟩, hsize, ⟨distances, bs₃⟩, hread, indexes, hadd, heq⟩ := h
  obtain ⟨rfl, rfl⟩ : BlockTransactionsRequest.mk blockhash indexes = req ∧ bs₃ = rest := by
    simpa using heq
  obtain ⟨-, rfl⟩ := Codec.u256.write_read _ _ _ hhash
  obtain ⟨hmax, rfl⟩ := writeCompactSize_read hsize
  obtain ⟨rfl, rfl⟩ := readIndexes_eq_some hread
  exact ⟨distances, hmax, by simp [distanceBytes], hadd⟩

theorem unserialize_distanceBytes (blockhash : Uint256) (hlength : distances.length ≤ MAX_SIZE)
    (hadd : addOffsets 0 distances = some indexes) (rest : Bytes) :
    unserialize (distanceBytes blockhash distances ++ rest) =
      some (⟨blockhash, indexes⟩, rest) := by
  simp only [unserialize, distanceBytes, append_assoc]
  rw [Codec.u256.read_write _ _ trivial]
  simp only [bind_eq_bind, bind_some, readCompactSize_write hlength, readIndexes_write, hadd]

theorem distanceBytes_inj (hlength : distances.length ≤ MAX_SIZE)
    (hlength' : distances'.length ≤ MAX_SIZE)
    (h : distanceBytes blockhash distances ++ rest = distanceBytes blockhash' distances' ++ rest') :
    blockhash = blockhash' ∧ distances = distances' := by
  simp only [distanceBytes, append_assoc] at h
  obtain ⟨rfl, hcount⟩ := Codec.u256.prefixFree trivial trivial h
  have hsize : ∀ {n}, n ≤ MAX_SIZE → n < 2 ^ 64 := fun hn => hn.trans_lt (by decide)
  obtain ⟨heq, hlist⟩ := prefixFree_writeCompactSize (hsize hlength) (hsize hlength') hcount
  have hread := readIndexes_write distances rest
  rw [hlist, heq, readIndexes_write] at hread
  obtain ⟨rfl, -⟩ : distances' = distances ∧ rest' = rest := by simpa using hread
  exact ⟨rfl, rfl⟩

/-- All distances but the last one, each counted with the index it leads to. -/
def reach (distances : List (BitVec 16)) : Nat := (distances.dropLast.map fun d => d.toNat + 1).sum

@[simp] theorem reach_nil : reach [] = 0 := rfl

@[simp] theorem reach_singleton (d : BitVec 16) : reach [d] = 0 := rfl

@[simp] theorem reach_cons_cons (d d' : BitVec 16) (distances : List (BitVec 16)) :
    reach (d :: d' :: distances) = d.toNat + 1 + reach (d' :: distances) := by
  simp [reach]

def start : Option (BitVec 16) → Nat
  | none => 0
  | some last => last.toNat + 1

theorem difference_eq (last : Option (BitVec 16)) (index : BitVec 16) (h : start last ≤ index.toNat) :
    (difference last index).toNat = index.toNat - start last := by
  have hofNat : difference last index = BitVec.ofNat 64 (index.toNat - start last) := by
    cases last with
    | none => simp [difference, start]
    | some last =>
      rw [difference, ← BitVec.ofInt_natCast, Nat.cast_sub h]
      simp [start]
  rw [hofNat, BitVec.toNat_ofNat]
  omega

theorem addOffsets_cons (h : addOffsets offset (d :: distances) = some indexes) :
    ∃ index rest, indexes = index :: rest ∧ index.toNat = d.toNat + offset.toNat ∧
      addOffsets (index + 1) distances = some rest := by
  rw [addOffsets] at h
  split at h
  · cases h
  · rename_i hfits
    obtain ⟨rest, hrest, rfl⟩ := map_eq_some_iff.mp h
    refine ⟨_, _, rfl, ?_, hrest⟩
    rw [BitVec.toNat_add]
    omega

theorem toNat_next (hindex : index.toNat = d.toNat + offset.toNat)
    (hreach : offset.toNat + reach (d :: d' :: distances) < 2 ^ 16) :
    (index + 1).toNat = index.toNat + 1 ∧ (index + 1).toNat + reach (d' :: distances) < 2 ^ 16 := by
  rw [reach_cons_cons] at hreach
  have hnext : (index + 1).toNat = index.toNat + 1 := toNat_succ (by omega)
  exact ⟨hnext, by omega⟩

section
variable (h : addOffsets offset distances = some indexes)
include h

theorem addOffsets_increasing (hreach : offset.toNat + reach distances < 2 ^ 16) :
    indexes.Pairwise (· < ·) ∧ ∀ index ∈ indexes, offset ≤ index := by
  induction distances generalizing offset indexes with
  | nil =>
    obtain rfl : [] = indexes := by simpa [addOffsets] using h
    simp
  | cons d distances ih =>
    obtain ⟨index, rest, rfl, hindex, hrest⟩ := addOffsets_cons h
    have hle : offset ≤ index := by
      rw [BitVec.le_def]
      omega
    cases distances with
    | nil =>
      obtain rfl : [] = rest := by simpa [addOffsets] using hrest
      simp [hle]
    | cons d' distances =>
      obtain ⟨hnext, hreach'⟩ := toNat_next hindex hreach
      obtain ⟨hincreasing, hbelow⟩ := ih hrest hreach'
      have habove : ∀ later ∈ rest, index < later := by
        intro later hlater
        have hafter := hbelow later hlater
        rw [BitVec.le_def, hnext] at hafter
        rw [BitVec.lt_def]
        omega
      refine ⟨pairwise_cons.mpr ⟨habove, hincreasing⟩, ?_⟩
      rintro later (_ | ⟨_, hlater⟩)
      · exact hle
      · exact BitVec.le_trans hle (BitVec.le_of_lt (habove later hlater))

theorem writeIndexes_addOffsets (hreach : offset.toNat + reach distances < 2 ^ 16)
    (hstart : start last = offset.toNat) :
    writeIndexes last indexes = writeDistances distances := by
  induction distances generalizing offset indexes last with
  | nil =>
    obtain rfl : [] = indexes := by simpa [addOffsets] using h
    rfl
  | cons d distances ih =>
    obtain ⟨index, rest, rfl, hindex, hrest⟩ := addOffsets_cons h
    have hd : (difference last index).toNat = d.toNat := by
      rw [difference_eq last index (by omega)]
      omega
    rw [writeIndexes, hd, writeDistances, flatMap_cons]
    congr 1
    cases distances with
    | nil =>
      obtain rfl : [] = rest := by simpa [addOffsets] using hrest
      rfl
    | cons d' distances =>
      obtain ⟨hnext, hreach'⟩ := toNat_next hindex hreach
      exact ih hrest hreach' hnext.symm

theorem reach_of_increasing (hincreasing : indexes.Pairwise (· < ·)) :
    offset.toNat + reach distances < 2 ^ 16 := by
  induction distances generalizing offset indexes with
  | nil => simp [offset.isLt]
  | cons d distances ih =>
    obtain ⟨index, rest, rfl, hindex, hrest⟩ := addOffsets_cons h
    obtain ⟨habove, hincreasing⟩ := pairwise_cons.mp hincreasing
    cases distances with
    | nil => simp [offset.isLt]
    | cons d' distances =>
      obtain ⟨index', rest', rfl, -, -⟩ := addOffsets_cons hrest
      -- an index above this one leaves room for the offset
      have hroom : index.toNat < index'.toNat := habove index' (mem_cons_self ..)
      have hnext : (index + 1).toNat = index.toNat + 1 := toNat_succ (by omega)
      have hreach := ih hrest hincreasing
      rw [reach_cons_cons]
      omega

theorem length_addOffsets : indexes.length = distances.length := by
  induction distances generalizing offset indexes with
  | nil =>
    obtain rfl : [] = indexes := by simpa [addOffsets] using h
    rfl
  | cons d distances ih =>
    obtain ⟨index, rest, rfl, -, hrest⟩ := addOffsets_cons h
    simp [ih hrest]

end

/-- What is read is an increasing list that is written as it was read, exactly when the indices
add up to less than `2 ^ 16` before the last distance. -/
theorem unserialize_increasing_iff (h : unserialize bs = some (req, rest)) :
    (∃! distances, distances.length ≤ MAX_SIZE ∧ bs = distanceBytes req.blockhash distances ++ rest) ∧
    ∀ distances, distances.length ≤ MAX_SIZE → bs = distanceBytes req.blockhash distances ++ rest →
      (req.indexes.Pairwise (· < ·) ∧ bs = req.serialize ++ rest ↔ reach distances < 2 ^ 16) := by
  obtain ⟨distances, hmax, rfl, hadd⟩ := unserialize_eq_some h
  refine ⟨⟨distances, ⟨hmax, rfl⟩, ?_⟩, ?_⟩
  · rintro distances' ⟨hmax', heq⟩
    exact (distanceBytes_inj hmax hmax' heq).2.symm
  · intro distances' hmax' heq
    obtain ⟨-, rfl⟩ := distanceBytes_inj hmax hmax' heq
    constructor
    · rintro ⟨hincreasing, -⟩
      simpa using reach_of_increasing hadd hincreasing
    · intro hreach
      have hreach' : (0 : BitVec 16).toNat + reach distances < 2 ^ 16 := by simpa using hreach
      have hwrite : writeIndexes none req.indexes = writeDistances distances :=
        writeIndexes_addOffsets hadd hreach' rfl
      refine ⟨(addOffsets_increasing hadd hreach').1, ?_⟩
      rw [BlockTransactionsRequest.serialize, hwrite, length_addOffsets hadd, distanceBytes]

theorem unserialize_increasing_iff_two :
    ∃ req, unserialize (distanceBytes 7 [3, 4]) = some (req, []) ∧
      req.indexes.Pairwise (· < ·) ∧ distanceBytes 7 [3, 4] = req.serialize ++ [] := by
  have h : unserialize (distanceBytes 7 [3, 4]) = some (⟨7, [3, 8]⟩, []) := by decide
  have hbytes : distanceBytes 7 [3, 4] = distanceBytes 7 [3, 4] ++ [] := by simp
  exact ⟨_, h, ((unserialize_increasing_iff h).2 [3, 4] (by decide) hbytes).mpr (by decide)⟩

/-- Behind the index 65535 the offset is 0 again: the same index is read a second time, and the
distance back to it is written as a number of 64 bits. -/
theorem unserialize_wraps :
    unserialize (distanceBytes 7 [65535, 0]) = some (⟨7, [65535, 0]⟩, []) ∧
    ¬[(65535 : BitVec 16), 0].Pairwise (· < ·) ∧
    BlockTransactionsRequest.serialize ⟨7, [65535, 0]⟩ ≠ distanceBytes 7 [65535, 0] := by
  decide

theorem exists_distances (hincreasing : indexes.Pairwise (· < ·))
    (hstart : ∀ index ∈ indexes, start last ≤ index.toNat)
    (hoffset : indexes ≠ [] → start last = offset.toNat) :
    ∃ distances, distances.length = indexes.length ∧ addOffsets offset distances = some indexes ∧
      writeIndexes last indexes = writeDistances distances := by
  induction indexes generalizing last offset with
  | nil => exact ⟨[], rfl, rfl, rfl⟩
  | cons index indexes ih =>
    obtain ⟨habove, hincreasing⟩ := pairwise_cons.mp hincreasing
    have hle : start last ≤ index.toNat := hstart index (mem_cons_self ..)
    have hlast : start last = offset.toNat := hoffset (cons_ne_nil _ _)
    have hnext : indexes ≠ [] → start (some index) = (index + 1).toNat := by
      intro hne
      obtain ⟨later, hlater⟩ := exists_mem_of_ne_nil indexes hne
      have hroom : index.toNat < later.toNat := habove later hlater
      exact (toNat_succ (by omega)).symm
    have hafter : ∀ later ∈ indexes, start (some index) ≤ later.toNat := habove
    obtain ⟨distances, hlength, hadd, hwrite⟩ := ih hincreasing hafter hnext
    have hsum : index - offset + offset = index := BitVec.sub_add_cancel index offset
    have hd : (index - offset).toNat = index.toNat - offset.toNat :=
      BitVec.toNat_sub_of_le (BitVec.le_def.mpr (hlast ▸ hle))
    refine ⟨(index - offset) :: distances, by simp [hlength], ?_, ?_⟩
    · have hfits : ¬(index - offset).toNat + offset.toNat > 0xffff := by omega
      rw [addOffsets, if_neg hfits, hsum, hadd]
      rfl
    · rw [writeIndexes, difference_eq last index hle, hwrite, writeDistances, writeDistances,
        flatMap_cons, hd, hlast]

theorem unserialize_serialize (req : BlockTransactionsRequest)
    (hincreasing : req.indexes.Pairwise (· < ·)) (hlength : req.indexes.length ≤ MAX_SIZE)
    (rest : Bytes) :
    unserialize (req.serialize ++ rest) = some (req, rest) := by
  obtain ⟨distances, hsame, hadd, hwrite⟩ :=
    @exists_distances req.indexes 0 none hincreasing (by simp [start]) (by simp [start])
  have hbytes : req.serialize = distanceBytes req.blockhash distances := by
    rw [BlockTransactionsRequest.serialize, hwrite, ← hsame, distanceBytes]
  rw [hbytes, unserialize_distanceBytes req.blockhash (hsame ▸ hlength) hadd]

end IndexList

end OurChain
