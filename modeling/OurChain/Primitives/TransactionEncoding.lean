import OurChain.Primitives.Transaction

/-!
# What a transaction's bytes determine

Both encodings of a transaction are read back, and the encoding without witnesses,
which the transaction id is the hash of, fixes every field outside the witnesses.
-/

namespace OurChain

def CTransaction.strip (tx : CTransaction) : CTransaction := { tx with vin := tx.vin.map CTxIn.strip }

/-- Every vector of the transaction has a length that fits `size_t`. -/
structure CTransaction.LengthsFit (tx : CTransaction) : Prop where
  vin : tx.vin.length < 2 ^ 64
  scriptSig : ∀ i ∈ tx.vin, i.scriptSig.length < 2 ^ 64
  vout : tx.vout.length < 2 ^ 64
  scriptPubKey : ∀ o ∈ tx.vout, o.scriptPubKey.length < 2 ^ 64
  code : tx.contract.code.length < 2 ^ 64
  args : tx.contract.args.length < 2 ^ 64 ∧ ∀ arg ∈ tx.contract.args, arg.length < 2 ^ 64

theorem CTransaction.hasWitness_strip (tx : CTransaction) : tx.strip.hasWitness = false := by
  rw [CTransaction.hasWitness_eq_false]
  intro i hi
  obtain ⟨j, -, rfl⟩ := List.mem_map.mp hi
  rfl

theorem serialize_noWitness (tx : CTransaction) :
    serializeTransaction false tx = serializeTransaction true tx.strip := by
  have hvin : (vector txInCodec).write tx.strip.vin = (vector txInCodec).write tx.vin :=
    write_strip tx.vin
  simp only [serializeTransaction, CTransaction.hasWitness_strip, Bool.and_false, Bool.false_and,
    Bool.false_eq_true, if_false, hvin]
  rfl

theorem CTransaction.SizesOk.strip {tx : CTransaction} (h : tx.SizesOk) : tx.strip.SizesOk := by
  refine .of_parts ?_ ?_ h.outputs h.payload
  · have hstrip : tx.strip.vin.map CTxIn.strip = tx.vin.map CTxIn.strip := by
      simp [CTransaction.strip, Function.comp_def, CTxIn.strip]
    rw [hstrip]
    exact h.inputs
  · intro i hi
    obtain ⟨j, -, rfl⟩ := List.mem_map.mp hi
    simp [CTxIn.strip]

theorem unserialize_noWitness {tx : CTransaction} (h : tx.SizesOk) (rest : Bytes) :
    unserializeTransaction false (serializeTransaction false tx ++ rest) = some (tx.strip, rest) := by
  have hins := readInsOuts_plain (fun hwitness => Bool.false_ne_true hwitness.2) h.inputs h.outputs
  have hcontract : ∀ rest, contractCodec.read (contractCodec.write tx.contract ++ rest) =
      some (tx.contract, rest) := fun rest => contractCodec.read_write _ _ h.payload
  simp only [write_strip] at hins
  simp [unserializeTransaction, serializeTransaction, Codec.u32.read_write _ _ trivial, hins,
    readFlagged, hcontract, CTransaction.strip]

theorem prefixFree_vector {c : Codec α} (h : PrefixFree c.write P) :
    PrefixFree (vector c).write fun as => as.length < 2 ^ 64 ∧ ∀ a ∈ as, P a :=
  prefixFree_writeCompactSize.counted h

theorem prefixFree_byteVector : PrefixFree byteVector.write (·.length < 2 ^ 64) := by
  intro a b r r' ha hb heq
  exact prefixFree_vector Codec.u8.prefixFree ⟨ha, fun _ _ => trivial⟩ ⟨hb, fun _ _ => trivial⟩ heq

theorem prefixFree_txIn : PrefixFree txInCodec.write
    fun i => i.scriptSig.length < 2 ^ 64 ∧ i.scriptWitness = [] := by
  have hwitness : PrefixFree (Codec.absent ([] : List Bytes)).write (· = []) :=
    (Codec.absent []).prefixFree
  have h := outPointCodec.prefixFree.append
    (prefixFree_byteVector.append (Codec.u32.prefixFree.append hwitness))
  refine h.comap (g := fun i : CTxIn => (i.prevout, i.scriptSig, i.nSequence, i.scriptWitness)) ?_ ?_
  · rintro i ⟨hlen, hwitness⟩
    exact ⟨⟨trivial, trivial⟩, hlen, trivial, hwitness⟩
  · rintro ⟨⟩ ⟨⟩ - - heq
    cases heq
    rfl

theorem prefixFree_txOut : PrefixFree txOutCodec.write (·.scriptPubKey.length < 2 ^ 64) := by
  have h := Codec.u64.prefixFree.append prefixFree_byteVector
  refine h.comap (g := fun o : CTxOut => (o.nValue, o.scriptPubKey)) ?_ ?_
  · intro o hlen
    exact ⟨trivial, hlen⟩
  · rintro ⟨⟩ ⟨⟩ - - heq
    cases heq
    rfl

theorem prefixFree_contract : PrefixFree contractCodec.write fun c =>
    c.code.length < 2 ^ 64 ∧ c.args.length < 2 ^ 64 ∧ ∀ arg ∈ c.args, arg.length < 2 ^ 64 := by
  have h := Codec.u8.prefixFree.append (prefixFree_byteVector.append
    (Codec.u256.prefixFree.append (prefixFree_vector prefixFree_byteVector)))
  refine h.comap (g := fun c : Contract => (c.action, c.code, c.address, c.args)) ?_ ?_
  · rintro c ⟨hcode, hargs⟩
    exact ⟨trivial, hcode, trivial, hargs⟩
  · rintro ⟨⟩ ⟨⟩ - - heq
    cases heq
    rfl

theorem strip_eq_of_serialize_eq {tx tx' : CTransaction} (h : tx.LengthsFit) (h' : tx'.LengthsFit)
    (heq : serializeTransaction false tx = serializeTransaction false tx') :
    tx.strip = tx'.strip := by
  have hinputs : ∀ {tx : CTransaction}, tx.LengthsFit → (tx.vin.map CTxIn.strip).length < 2 ^ 64 ∧
      ∀ i ∈ tx.vin.map CTxIn.strip, i.scriptSig.length < 2 ^ 64 ∧ i.scriptWitness = [] := by
    intro tx h
    simp only [List.length_map, List.forall_mem_map]
    exact ⟨h.vin, fun i hi => ⟨h.scriptSig i hi, rfl⟩⟩
  simp only [serializeTransaction, Bool.false_and, Bool.false_eq_true, if_false,
    List.nil_append] at heq
  obtain ⟨hversion, heq⟩ := Codec.u32.prefixFree trivial trivial heq
  rw [← write_strip tx.vin, ← write_strip tx'.vin] at heq
  obtain ⟨hvin, heq⟩ := prefixFree_vector prefixFree_txIn (hinputs h) (hinputs h') heq
  obtain ⟨hvout, heq⟩ := prefixFree_vector prefixFree_txOut ⟨h.vout, h.scriptPubKey⟩
    ⟨h'.vout, h'.scriptPubKey⟩ heq
  obtain ⟨hcontract, heq⟩ := prefixFree_contract ⟨h.code, h.args⟩ ⟨h'.code, h'.args⟩ heq
  have hlock := Codec.u32.write_inj trivial trivial heq
  rw [CTransaction.strip, CTransaction.strip, hversion, hvin, hvout, hcontract, hlock]

/-- Both encodings are read back from exactly their own bytes, and transactions that
differ outside the witnesses have different encodings without witnesses. -/
theorem transaction_encoding :
    (∀ tx : CTransaction, tx.SizesOk → (tx.vin ≠ [] ∨ tx.vout = []) → ∀ rest,
      unserializeTransaction true (serializeTransaction true tx ++ rest) = some (tx, rest) ∧
      ∀ fAllowWitness, unserializeTransaction fAllowWitness (serializeTransaction false tx ++ rest) =
        some (tx.strip, rest)) ∧
    ∀ tx tx' : CTransaction, tx.LengthsFit → tx'.LengthsFit → tx.strip ≠ tx'.strip →
      serializeTransaction false tx ≠ serializeTransaction false tx' := by
  constructor
  · intro tx hsizes hinputs rest
    have hdec : tx.vin = [] → tx.vout = [] := fun hnil => hinputs.resolve_left (not_not_intro hnil)
    refine ⟨unserialize_serialize hsizes hdec rest, ?_⟩
    intro fAllowWitness
    cases fAllowWitness with
    | false => exact unserialize_noWitness hsizes rest
    | true =>
      rw [serialize_noWitness]
      apply unserialize_serialize hsizes.strip
      intro hnil
      exact hdec (List.map_eq_nil_iff.mp hnil)
  · intro tx tx' h h' hne heq
    exact hne (strip_eq_of_serialize_eq h h' heq)

def sampleCall : CTransaction where
  nVersion := 2
  contract := { action := ACTION_CALL, code := [], address := 7, args := [[1, 2], []] }
  vin := [{ prevout := ⟨5, 0⟩, scriptSig := [0x51], nSequence := 0xffffffff, scriptWitness := [[3],
    []] }]
  vout := [{ nValue := 1, scriptPubKey := [] }]
  nLockTime := 9

theorem sampleCall_sizesOk : sampleCall.SizesOk := by
  constructor <;> decide

theorem sampleCall_encoding :
    unserializeTransaction true (serializeTransaction true sampleCall) = some (sampleCall, []) ∧
    unserializeTransaction false (serializeTransaction false sampleCall) =
    some (sampleCall.strip, []) ∧ serializeTransaction false sampleCall ≠ serializeTransaction false
    { sampleCall with nLockTime := 8 } := by
  have hsizes := sampleCall_sizesOk
  obtain ⟨hread, hnoWitness⟩ := transaction_encoding.1 sampleCall hsizes (.inl (by decide)) []
  rw [List.append_nil] at hread
  refine ⟨hread, by simpa using hnoWitness false, ?_⟩
  apply transaction_encoding.2
  · constructor <;> decide
  · constructor <;> decide
  · decide

end OurChain
