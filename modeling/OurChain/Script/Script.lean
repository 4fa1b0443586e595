import OurChain.Script.SignatureHash

/-!
# Scripts

What the checks of transactions and blocks ask of a script: its signature
operations, the forms pay-to-script-hash and witness program, whether an output
with it can ever be spent, and the pushes the node writes itself.
-/

namespace OurChain

def OP_0 : Byte := 0x00
def OP_1 : Byte := 0x51
def OP_16 : Byte := 0x60
def OP_RETURN : Byte := 0x6a
def OP_DUP : Byte := 0x76
def OP_EQUAL : Byte := 0x87
def OP_EQUALVERIFY : Byte := 0x88
def OP_HASH160 : Byte := 0xa9
def OP_CHECKSIG : Byte := 0xac
def OP_CHECKSIGVERIFY : Byte := 0xad
def OP_CHECKMULTISIG : Byte := 0xae
def OP_CHECKMULTISIGVERIFY : Byte := 0xaf
def OP_INVALIDOPCODE : Byte := 0xff

def MAX_PUBKEYS_PER_MULTISIG : Nat := 20
def MAX_SCRIPT_SIZE : Nat := 10000

def SCRIPT_VERIFY_P2SH : BitVec 32 := 1 <<< 0
def SCRIPT_VERIFY_STRICTENC : BitVec 32 := 1 <<< 1
def SCRIPT_VERIFY_DERSIG : BitVec 32 := 1 <<< 2
def SCRIPT_VERIFY_LOW_S : BitVec 32 := 1 <<< 3
def SCRIPT_VERIFY_NULLDUMMY : BitVec 32 := 1 <<< 4
def SCRIPT_VERIFY_SIGPUSHONLY : BitVec 32 := 1 <<< 5
def SCRIPT_VERIFY_MINIMALDATA : BitVec 32 := 1 <<< 6
def SCRIPT_VERIFY_DISCOURAGE_UPGRADABLE_NOPS : BitVec 32 := 1 <<< 7
def SCRIPT_VERIFY_CLEANSTACK : BitVec 32 := 1 <<< 8
def SCRIPT_VERIFY_CHECKLOCKTIMEVERIFY : BitVec 32 := 1 <<< 9
def SCRIPT_VERIFY_CHECKSEQUENCEVERIFY : BitVec 32 := 1 <<< 10
def SCRIPT_VERIFY_WITNESS : BitVec 32 := 1 <<< 11
def SCRIPT_VERIFY_DISCOURAGE_UPGRADABLE_WITNESS_PROGRAM : BitVec 32 := 1 <<< 12
def SCRIPT_VERIFY_MINIMALIF : BitVec 32 := 1 <<< 13
def SCRIPT_VERIFY_NULLFAIL : BitVec 32 := 1 <<< 14
def SCRIPT_VERIFY_WITNESS_PUBKEYTYPE : BitVec 32 := 1 <<< 15

def decodeOP_N (opcode : Byte) : Nat := if opcode = OP_0 then 0 else opcode.toNat - (OP_1.toNat - 1)

/-- `GetOp` with the operand: the opcode, `vchRet` and the script behind the operation. -/
def getOpData : Bytes → Option (Byte × Bytes × Bytes)
  | [] => none
  | opcode :: pc =>
    if opcode ≤ OP_PUSHDATA4 then
      match pushSize opcode pc with
      | none => none
      | some (nSize, pc) =>
        if pc.length < nSize then none else some (opcode, pc.take nSize, pc.drop nSize)
    else some (opcode, [], pc)

def isPayToScriptHash (script : Bytes) : Bool :=
  script.length = 23 && script[0]? = some OP_HASH160 && script[1]? = some 0x14 &&
    script[22]? = some OP_EQUAL

def isWitnessProgram (script : Bytes) : Option (Nat × Bytes) :=
  if script.length < 4 ∨ script.length > 42 then none
  else match script with
    | opcode :: size :: program =>
      if opcode ≠ OP_0 ∧ (opcode < OP_1 ∨ opcode > OP_16) then none
      else if size.toNat + 2 = script.length then some (decodeOP_N opcode, program)
      else none
    | _ => none

def isUnspendable (script : Bytes) : Bool :=
  (script.head? = some OP_RETURN) || decide (MAX_SCRIPT_SIZE < script.length)

def sigOpsOf (fAccurate : Bool) (lastOpcode opcode : Byte) : Nat :=
  if opcode = OP_CHECKSIG ∨ opcode = OP_CHECKSIGVERIFY then 1
  else if opcode = OP_CHECKMULTISIG ∨ opcode = OP_CHECKMULTISIGVERIFY then
    if fAccurate ∧ OP_1 ≤ lastOpcode ∧ lastOpcode ≤ OP_16 then decodeOP_N lastOpcode
    else MAX_PUBKEYS_PER_MULTISIG
  else 0

def sigOpsFrom (fAccurate : Bool) : Nat → Byte → Bytes → Nat
  | 0, _, _ => 0
  | fuel + 1, lastOpcode, pc =>
    match getOp pc with
    | (none, _) => 0
    | (some opcode, pc) => sigOpsOf fAccurate lastOpcode opcode + sigOpsFrom fAccurate fuel opcode pc

def getSigOpCount (fAccurate : Bool) (script : Bytes) : Nat :=
  sigOpsFrom fAccurate script.length OP_INVALIDOPCODE script

/-- What a script of pushes leaves on top, none if the script does anything else. -/
def lastPushFrom : Nat → Bytes → Bytes → Option Bytes
  | _, vData, [] => some vData
  | 0, _, _ :: _ => none
  | fuel + 1, _, pc@(_ :: _) =>
    match getOpData pc with
    | none => none
    | some (opcode, vData, pc) => if opcode > OP_16 then none else lastPushFrom fuel vData pc

def lastPush (scriptSig : Bytes) : Option Bytes := lastPushFrom scriptSig.length [] scriptSig

/-- The overload of `GetSigOpCount` that takes the `scriptSig`. -/
def getSigOpCountSpent (scriptPubKey scriptSig : Bytes) : Nat :=
  if !isPayToScriptHash scriptPubKey then getSigOpCount true scriptPubKey
  else match lastPush scriptSig with
    | none => 0
    | some subscript => getSigOpCount true subscript

def witnessSigOps (witversion : Nat) (witprogram : Bytes) (witness : List Bytes) : Nat :=
  if witversion = 0 then
    if witprogram.length = 20 then 1
    else if witprogram.length = 32 then
      match witness.getLast? with
      | none => 0
      | some subscript => getSigOpCount true subscript
    else 0
  else 0

/-- The bytes of `absvalue`, least significant first, without leading zeros. An
int64 has eight. -/
def absBytes : Nat → Nat → Bytes
  | 0, _ => []
  | fuel + 1, absvalue =>
    if absvalue = 0 then [] else BitVec.ofNat 8 absvalue :: absBytes fuel (absvalue / 256)

def scriptNumBytes (value : Int) : Bytes :=
  let result := absBytes 8 value.natAbs
  match result.getLast? with
  | none => []
  | some back =>
    if back &&& 0x80 ≠ 0 then result ++ [if value < 0 then 0x80 else 0]
    else if value < 0 then result.dropLast ++ [back ||| 0x80]
    else result

def pushData (b : Bytes) : Bytes :=
  (if b.length < OP_PUSHDATA1.toNat then [BitVec.ofNat 8 b.length]
    else if b.length ≤ 0xff then OP_PUSHDATA1 :: leBytes 1 b.length
    else if b.length ≤ 0xffff then OP_PUSHDATA2 :: leBytes 2 b.length
    else OP_PUSHDATA4 :: leBytes 4 b.length) ++ b

def pushInt64 (n : Int) : Bytes :=
  if n = -1 ∨ (1 ≤ n ∧ n ≤ 16) then [BitVec.ofInt 8 (n + (OP_1.toNat - 1))]
  else if n = 0 then [OP_0]
  else pushData (scriptNumBytes n)

end OurChain
