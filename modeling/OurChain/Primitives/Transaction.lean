import OurChain.Serialize

/-!
# Transactions

`CTransaction` with the contract payload the fork adds to it, and its wire
format. The witness flag makes the format ambiguous: a transaction without
inputs but with outputs is written as bytes that the reader takes for a flag,
so only the others are read back.
-/

namespace OurChain

open Codec List Option

def ACTION_NONE : BitVec 8 := 0
def ACTION_NEW : BitVec 8 := 1
def ACTION_CALL : BitVec 8 := 2

structure Contract where
  action : BitVec 8
  code : Bytes
  address : Uint256
  args : List Bytes
  deriving DecidableEq

structure COutPoint where
  hash : Uint256
  n : BitVec 32
  deriving DecidableEq

structure CTxIn where
  prevout : COutPoint
  scriptSig : Bytes
  nSequence : BitVec 32
  scriptWitness : List Bytes
  deriving DecidableEq

structure CTxOut where
  nValue : BitVec 64
  scriptPubKey : Bytes
  deriving DecidableEq

structure CTransaction where
  nVersion : BitVec 32
  contract : Contract
  vin : List CTxIn
  vout : List CTxOut
  nLockTime : BitVec 32
  deriving DecidableEq

def contractCodec : Codec Contract :=
  (u8.seq (byteVector.seq (u256.seq (vector byteVector)))).iso
    (fun (action, code, address, args) => { action, code, address, args })
    (fun c => (c.action, c.code, c.address, c.args)) (fun _ => rfl) (fun _ => rfl)

def outPointCodec : Codec COutPoint :=
  (u256.seq u32).iso (fun (hash, n) => { hash, n }) (fun o => (o.hash, o.n))
    (fun _ => rfl) (fun _ => rfl)

-- The witness is only serialized through `CTransaction`: a `CTxIn` leaves it out.
def txInCodec : Codec CTxIn :=
  (outPointCodec.seq (byteVector.seq (u32.seq (Codec.absent [])))).iso
    (fun (prevout, scriptSig, nSequence, scriptWitness) =>
      { prevout, scriptSig, nSequence, scriptWitness })
    (fun i => (i.prevout, i.scriptSig, i.nSequence, i.scriptWitness)) (fun _ => rfl) (fun _ => rfl)

def txOutCodec : Codec CTxOut :=
  (u64.seq byteVector).iso (fun (nValue, scriptPubKey) => { nValue, scriptPubKey })
    (fun o => (o.nValue, o.scriptPubKey)) (fun _ => rfl) (fun _ => rfl)

def witnessCodec : Codec (List Bytes) := vector byteVector

def CTransaction.hasWitness (tx : CTransaction) : Bool := tx.vin.any fun i => i.scriptWitness ≠ []

def writeWitnesses (vin : List CTxIn) : Bytes :=
  vin.flatMap fun i => witnessCodec.write i.scriptWitness

def serializeTransaction (fAllowWitness : Bool) (tx : CTransaction) : Bytes :=
  let flags := fAllowWitness && tx.hasWitness
  u32.write tx.nVersion ++
    ((if flags then (vector txInCodec).write [] ++ u8.write 1#8 else []) ++
    ((vector txInCodec).write tx.vin ++ ((vector txOutCodec).write tx.vout ++
    ((if flags then writeWitnesses tx.vin else []) ++
    (contractCodec.write tx.contract ++ u32.write tx.nLockTime)))))

/-- The flags with the inputs and outputs. An empty input list is a dummy that
announces the flags when witnesses are allowed. -/
def readInsOuts (fAllowWitness : Bool) (bs : Bytes) :
    Option ((BitVec 8 × List CTxIn × List CTxOut) × Bytes) := do
  let (vin, bs) ← (vector txInCodec).read bs
  if vin = [] ∧ fAllowWitness then
    let (flags, bs) ← u8.read bs
    if flags = 0#8 then return ((flags, [], []), bs)
    else
      let (vin, bs) ← (vector txInCodec).read bs
      let (vout, bs) ← (vector txOutCodec).read bs
      return ((flags, vin, vout), bs)
  else
    let (vout, bs) ← (vector txOutCodec).read bs
    return ((0#8, vin, vout), bs)

def readWitnesses : List CTxIn → Bytes → Option (List CTxIn × Bytes)
  | [], bs => some ([], bs)
  | i :: vin, bs => do
    let (scriptWitness, bs) ← witnessCodec.read bs
    let (vin, bs) ← readWitnesses vin bs
    return ({ i with scriptWitness } :: vin, bs)

/-- Reads what the flags announce and throws when one of them is unknown. -/
def readFlagged (fAllowWitness : Bool) (flags : BitVec 8) (vin : List CTxIn) (bs : Bytes) :
    Option (List CTxIn × Bytes) :=
  if flags &&& 1#8 ≠ 0#8 ∧ fAllowWitness then
    (readWitnesses vin bs).filter fun _ => flags ^^^ 1#8 = 0#8
  else if flags ≠ 0#8 then none else some (vin, bs)

def unserializeTransaction (fAllowWitness : Bool) (bs : Bytes) : Option (CTransaction × Bytes) := do
  let (nVersion, bs) ← u32.read bs
  let ((flags, vin, vout), bs) ← readInsOuts fAllowWitness bs
  let (vin, bs) ← readFlagged fAllowWitness flags vin bs
  let (contract, bs) ← contractCodec.read bs
  let (nLockTime, bs) ← u32.read bs
  return ({ nVersion, contract, vin, vout, nLockTime }, bs)

/-- Every vector of the transaction has a length that the reader accepts. -/
structure CTransaction.SizesOk (tx : CTransaction) : Prop where
  vin : tx.vin.length ≤ MAX_SIZE
  scriptSig : ∀ i ∈ tx.vin, i.scriptSig.length ≤ MAX_SIZE
  witness : ∀ i ∈ tx.vin, i.scriptWitness.length ≤ MAX_SIZE ∧
    ∀ item ∈ i.scriptWitness, item.length ≤ MAX_SIZE
  vout : tx.vout.length ≤ MAX_SIZE
  scriptPubKey : ∀ o ∈ tx.vout, o.scriptPubKey.length ≤ MAX_SIZE
  code : tx.contract.code.length ≤ MAX_SIZE
  args : tx.contract.args.length ≤ MAX_SIZE ∧ ∀ arg ∈ tx.contract.args, arg.length ≤ MAX_SIZE

@[simp] theorem vector_ok (c : Codec α) (as : List α) :
    (vector c).Ok as ↔ as.length ≤ MAX_SIZE ∧ ∀ a ∈ as, c.Ok a := Iff.rfl

@[simp] theorem byteVector_ok (bs : Bytes) : byteVector.Ok bs ↔ bs.length ≤ MAX_SIZE :=
  ⟨And.left, fun h => ⟨h, fun _ _ => trivial⟩⟩

@[simp] theorem witnessCodec_ok (stack : List Bytes) : witnessCodec.Ok stack ↔
    stack.length ≤ MAX_SIZE ∧ ∀ item ∈ stack, item.length ≤ MAX_SIZE := by
  simp [witnessCodec]

@[simp] theorem contractCodec_ok (c : Contract) : contractCodec.Ok c ↔
    c.code.length ≤ MAX_SIZE ∧ c.args.length ≤ MAX_SIZE ∧ ∀ arg ∈ c.args, arg.length ≤ MAX_SIZE := by
  simp [contractCodec, Codec.iso, Codec.seq, Codec.bind, u8, u256, Codec.uint]

@[simp] theorem txInCodec_ok (i : CTxIn) :
    txInCodec.Ok i ↔ i.scriptSig.length ≤ MAX_SIZE ∧ i.scriptWitness = [] := by
  simp [txInCodec, outPointCodec, Codec.iso, Codec.seq, Codec.bind, u32, u256,
    Codec.uint, Codec.absent]

@[simp] theorem txOutCodec_ok (o : CTxOut) :
    txOutCodec.Ok o ↔ o.scriptPubKey.length ≤ MAX_SIZE := by
  simp [txOutCodec, Codec.iso, Codec.seq, Codec.bind, u64, Codec.uint]

def CTxIn.strip (i : CTxIn) : CTxIn := { i with scriptWitness := [] }

theorem write_strip (vin : List CTxIn) :
    (vector txInCodec).write (vin.map CTxIn.strip) = (vector txInCodec).write vin := by
  have hone (i : CTxIn) : txInCodec.write i.strip = txInCodec.write i := rfl
  simp [vector, Codec.counted, writeMany, flatMap_map, hone]

theorem map_strip_of_no_witness {vin : List CTxIn} (h : ∀ i ∈ vin, i.scriptWitness = []) :
    vin.map CTxIn.strip = vin := by
  have hid : ∀ i ∈ vin, i.strip = id i := by
    rintro ⟨prevout, scriptSig, nSequence, scriptWitness⟩ hi
    cases h _ hi
    rfl
  rw [map_congr_left hid, List.map_id]

theorem CTransaction.hasWitness_eq_false (tx : CTransaction) :
    tx.hasWitness = false ↔ ∀ i ∈ tx.vin, i.scriptWitness = [] := by
  simp [CTransaction.hasWitness]

theorem readWitnesses_write (vin : List CTxIn) (rest : Bytes)
    (h : ∀ i ∈ vin, witnessCodec.Ok i.scriptWitness) :
    readWitnesses (vin.map CTxIn.strip) (writeWitnesses vin ++ rest) = some (vin, rest) := by
  induction vin with
  | nil => rfl
  | cons i vin ih =>
    have hi := witnessCodec.read_write i.scriptWitness (writeWitnesses vin ++ rest)
      (h i mem_cons_self)
    have ih := ih fun j hj => h j (mem_cons_of_mem _ hj)
    simp only [writeWitnesses, flatMap_cons, append_assoc] at hi ih ⊢
    simp [readWitnesses, hi, ih, CTxIn.strip]

theorem readWitnesses_eq_some (h : readWitnesses vin bs = some (vin', rest)) :
    vin'.map CTxIn.strip = vin.map CTxIn.strip ∧ (∀ i ∈ vin', witnessCodec.Ok i.scriptWitness) ∧
      bs = writeWitnesses vin' ++ rest := by
  induction vin generalizing bs vin' with
  | nil => cases h; simp [writeWitnesses]
  | cons i vin ih =>
    simp only [readWitnesses, bind_eq_bind, bind_eq_some_iff, Option.pure_def] at h
    obtain ⟨⟨stack, bs₁⟩, hstack, ⟨vin₁, bs₂⟩, hvin, heq⟩ := h
    cases heq
    obtain ⟨hok, rfl⟩ := witnessCodec.write_read _ _ _ hstack
    obtain ⟨hstrip, hall, rfl⟩ := ih hvin
    refine ⟨by simp [hstrip, CTxIn.strip], ?_, by simp [writeWitnesses]⟩
    exact forall_mem_cons.mpr ⟨hok, hall⟩

theorem readInsOuts_eq_some (h : readInsOuts true bs = some ((flags, vin, vout), rest)) :
    (vector txInCodec).Ok vin ∧ (vector txOutCodec).Ok vout ∧
    ((flags = 0#8 ∧ vin = [] ∧ vout = [] ∧
        bs = (vector txInCodec).write [] ++ (u8.write 0#8 ++ rest)) ∨
      (flags = 0#8 ∧ vin ≠ [] ∧
        bs = (vector txInCodec).write vin ++ ((vector txOutCodec).write vout ++ rest)) ∨
      (flags ≠ 0#8 ∧ bs = (vector txInCodec).write [] ++ (u8.write flags ++
        ((vector txInCodec).write vin ++ ((vector txOutCodec).write vout ++ rest))))) := by
  simp only [readInsOuts, bind_eq_bind, bind_eq_some_iff] at h
  obtain ⟨⟨vin₁, bs₁⟩, hvin₁, h⟩ := h
  obtain ⟨hok₁, rfl⟩ := (vector txInCodec).write_read _ _ _ hvin₁
  simp only at h
  split at h
  · rename_i hdummy
    obtain ⟨rfl, -⟩ := hdummy
    simp only [bind_eq_some_iff] at h
    obtain ⟨⟨flags₁, bs₂⟩, hflags, h⟩ := h
    obtain ⟨-, rfl⟩ := u8.write_read _ _ _ hflags
    simp only at h
    split at h
    · rename_i hzero
      cases h
      cases hzero
      exact ⟨hok₁, by simp, .inl ⟨rfl, rfl, rfl, rfl⟩⟩
    · rename_i hflag
      simp only [bind_eq_some_iff, Option.pure_def] at h
      obtain ⟨⟨vin₂, bs₃⟩, hvin₂, ⟨vout₁, bs₄⟩, hvout, heq⟩ := h
      cases heq
      obtain ⟨hok₂, rfl⟩ := (vector txInCodec).write_read _ _ _ hvin₂
      obtain ⟨hok₃, rfl⟩ := (vector txOutCodec).write_read _ _ _ hvout
      exact ⟨hok₂, hok₃, .inr (.inr ⟨hflag, rfl⟩)⟩
  · rename_i hdummy
    simp only [bind_eq_some_iff, Option.pure_def] at h
    obtain ⟨⟨vout₁, bs₂⟩, hvout, heq⟩ := h
    cases heq
    obtain ⟨hok₂, rfl⟩ := (vector txOutCodec).write_read _ _ _ hvout
    exact ⟨hok₁, hok₂, .inr (.inl ⟨rfl, by simpa using hdummy, rfl⟩)⟩

theorem readInsOuts_flagged (flags : BitVec 8) (hflags : flags ≠ 0#8)
    (hvin : (vector txInCodec).Ok vin) (hvout : (vector txOutCodec).Ok vout) (rest : Bytes) :
    readInsOuts true ((vector txInCodec).write [] ++ (u8.write flags ++
      ((vector txInCodec).write vin ++ ((vector txOutCodec).write vout ++ rest)))) =
        some ((flags, vin, vout), rest) := by
  have hdummy : (vector txInCodec).Ok [] := by simp
  simp [readInsOuts, (vector txInCodec).read_write _ _ hdummy, u8.read_write _ _ trivial,
    hflags, (vector txInCodec).read_write _ _ hvin, (vector txOutCodec).read_write _ _ hvout]

theorem readInsOuts_plain (hplain : ¬(vin = [] ∧ fAllowWitness = true))
    (hvin : (vector txInCodec).Ok vin) (hvout : (vector txOutCodec).Ok vout) (rest : Bytes) :
    readInsOuts fAllowWitness
      ((vector txInCodec).write vin ++ ((vector txOutCodec).write vout ++ rest)) =
      some ((0#8, vin, vout), rest) := by
  simp [readInsOuts, (vector txInCodec).read_write _ _ hvin, hplain,
    (vector txOutCodec).read_write _ _ hvout]

-- Two empty vectors read as a dummy followed by empty flags.
theorem readInsOuts_empty (rest : Bytes) :
    readInsOuts true ((vector txInCodec).write [] ++ ((vector txOutCodec).write [] ++ rest)) =
      some ((0#8, [], []), rest) := by
  have hdummy : (vector txInCodec).Ok [] := by simp
  have hzero : (vector txOutCodec).write [] = u8.write 0#8 := rfl
  simp [readInsOuts, (vector txInCodec).read_write _ _ hdummy, hzero,
    u8.read_write _ _ trivial]

section
variable {tx : CTransaction} (h : tx.SizesOk)
include h

theorem CTransaction.SizesOk.inputs : (vector txInCodec).Ok (tx.vin.map CTxIn.strip) := by
  simp only [vector_ok, length_map, List.forall_mem_map, txInCodec_ok]
  exact ⟨h.vin, fun i hi => ⟨h.scriptSig i hi, rfl⟩⟩

theorem CTransaction.SizesOk.outputs : (vector txOutCodec).Ok tx.vout := by
  simp only [vector_ok, txOutCodec_ok]
  exact ⟨h.vout, h.scriptPubKey⟩

theorem CTransaction.SizesOk.payload :
    contractCodec.Ok tx.contract := (contractCodec_ok _).mpr ⟨h.code, h.args⟩

theorem unserialize_serialize (hdec : tx.vin = [] → tx.vout = [])
    (rest : Bytes) :
    unserializeTransaction true (serializeTransaction true tx ++ rest) = some (tx, rest) := by
  have htail : ∀ rest, contractCodec.read (contractCodec.write tx.contract ++ rest) =
      some (tx.contract, rest) := fun rest => contractCodec.read_write _ _ h.payload
  cases hw : tx.hasWitness with
  | true =>
    have hins := readInsOuts_flagged 1#8 (by decide) h.inputs h.outputs
    have hwit := fun rest => readWitnesses_write tx.vin rest
      fun i hi => (witnessCodec_ok _).mpr (h.witness i hi)
    simp only [write_strip] at hins
    simp [unserializeTransaction, serializeTransaction, hw, append_assoc,
      u32.read_write _ _ trivial, hins, readFlagged, hwit,
      filter_some, htail]
  | false =>
    have hstrip := map_strip_of_no_witness (tx.hasWitness_eq_false.mp hw)
    have hins : ∀ rest, readInsOuts true
        ((vector txInCodec).write tx.vin ++ ((vector txOutCodec).write tx.vout ++ rest)) =
        some ((0#8, tx.vin, tx.vout), rest) := by
      by_cases hne : tx.vin = []
      · rw [hne, hdec hne]
        exact readInsOuts_empty
      · exact readInsOuts_plain (fun h => hne h.1) (hstrip ▸ h.inputs) h.outputs
    simp [unserializeTransaction, serializeTransaction, hw, append_assoc,
      u32.read_write _ _ trivial, hins, readFlagged, htail]

end

theorem readFlagged_eq_some (h : readFlagged true flags vin₀ bs = some (vin, rest)) :
    (flags = 0#8 ∧ vin = vin₀ ∧ bs = rest) ∨
      (flags = 1#8 ∧ readWitnesses vin₀ bs = some (vin, rest)) := by
  unfold readFlagged at h
  split at h
  · obtain ⟨hread, hflag⟩ := filter_eq_some_iff.mp h
    have hone : flags = 1#8 := by simpa using hflag
    exact .inr ⟨hone, hread⟩
  · split at h
    · cases h
    · rename_i hzero
      cases h
      exact .inl ⟨by simpa using hzero, rfl, rfl⟩

theorem CTransaction.SizesOk.of_parts {tx : CTransaction}
    (hvin : (vector txInCodec).Ok (tx.vin.map CTxIn.strip))
    (hwit : ∀ i ∈ tx.vin, witnessCodec.Ok i.scriptWitness)
    (hvout : (vector txOutCodec).Ok tx.vout) (hcontract : contractCodec.Ok tx.contract) :
    tx.SizesOk := by
  simp only [vector_ok, length_map, List.forall_mem_map, txInCodec_ok, txOutCodec_ok,
    witnessCodec_ok, contractCodec_ok] at hvin hwit hvout hcontract
  exact {
    vin := hvin.1, scriptSig := fun i hi => (hvin.2 i hi).1, witness := hwit
    vout := hvout.1, scriptPubKey := hvout.2, code := hcontract.1, args := hcontract.2 }

theorem unserialize_eq_some (h : unserializeTransaction true bs = some (tx, rest)) :
    tx.SizesOk ∧ ((serializeTransaction true tx).length + rest.length < bs.length ∨
      (tx.vin = [] → tx.vout = []) ∧
        (serializeTransaction true tx).length + rest.length ≤ bs.length) := by
  simp only [unserializeTransaction, bind_eq_bind, bind_eq_some_iff,
    Option.pure_def] at h
  obtain ⟨⟨nVersion, bs₁⟩, hversion, ⟨⟨flags, vin₀, vout⟩, bs₂⟩, hins, ⟨vin, bs₃⟩, hflagged,
    ⟨contract, bs₄⟩, hcontract, ⟨nLockTime, bs₅⟩, hlock, heq⟩ := h
  cases heq
  obtain ⟨-, rfl⟩ := u32.write_read _ _ _ hversion
  obtain ⟨hokc, rfl⟩ := contractCodec.write_read _ _ _ hcontract
  obtain ⟨-, rfl⟩ := u32.write_read _ _ _ hlock
  obtain ⟨hoki, hoko, hwire⟩ := readInsOuts_eq_some hins
  have hbare : ∀ i ∈ vin₀, i.scriptWitness = [] := fun i hi => ((txInCodec_ok i).mp (hoki.2 i hi)).2
  rcases readFlagged_eq_some hflagged with ⟨rfl, rfl, rfl⟩ | ⟨rfl, hwit⟩
  · have hnone : CTransaction.hasWitness { nVersion, contract, vin, vout, nLockTime } = false :=
      (CTransaction.hasWitness_eq_false _).mpr hbare
    have hsizes : CTransaction.SizesOk { nVersion, contract, vin, vout, nLockTime } := by
      refine .of_parts ?_ ?_ hoko hokc
      · simpa [map_strip_of_no_witness hbare] using hoki
      · intro i hi
        simp [hbare i hi]
    refine ⟨hsizes, .inr ?_⟩
    rcases hwire with ⟨-, rfl, rfl, rfl⟩ | ⟨-, hne, rfl⟩ | ⟨hflag, -⟩
    · have hzero : (vector txOutCodec).write [] = u8.write 0#8 := rfl
      exact ⟨fun _ => rfl, by simp [serializeTransaction, hnone, hzero]; omega⟩
    · exact ⟨fun hnil => absurd hnil hne, by simp [serializeTransaction, hnone]; omega⟩
    · exact absurd rfl hflag
  · obtain ⟨hstrip, hall, rfl⟩ := readWitnesses_eq_some hwit
    rw [map_strip_of_no_witness hbare] at hstrip
    subst hstrip
    simp only [write_strip] at hwire
    refine ⟨.of_parts hoki hall hoko hokc, ?_⟩
    rcases hwire with ⟨hflag, -⟩ | ⟨hflag, -⟩ | ⟨-, rfl⟩
    · exact absurd hflag (by decide)
    · exact absurd hflag (by decide)
    · cases hw : CTransaction.hasWitness { nVersion, contract, vin, vout, nLockTime } with
      | true =>
        refine .inr ⟨?_, by simp [serializeTransaction, hw]; omega⟩
        rintro rfl
        cases hw
      -- The flag was set although no input has a witness; the writer leaves it out.
      | false =>
        have hpos : 0 < (u8.write 1#8).length := by decide
        exact .inl (by simp [serializeTransaction, hw]; omega)

def txFormat : Format CTransaction where
  write := serializeTransaction true
  read := unserializeTransaction true
  Ok tx := tx.SizesOk ∧ (tx.vin = [] → tx.vout = [])
  read_write _ rest h := unserialize_serialize h.1 h.2 rest
  read_length _ _ _ h := by
    obtain ⟨hsizes, hlt | ⟨hdec, hle⟩⟩ := unserialize_eq_some h
    · exact .inl hlt
    · exact .inr ⟨⟨hsizes, hdec⟩, hle⟩

end OurChain
