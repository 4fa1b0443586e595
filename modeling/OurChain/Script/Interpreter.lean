import OurChain.Script.Script
import OurChain.Lib.Stricter

/-!
# The script interpreter

`EvalScript` and `VerifyScript`. Stacks are lists with the top in front. The hash
functions and the test for a low S are parameters, and so is the signature checker that
knows the transaction. A number that cannot be read throws in the source, which the
interpreter turns into an unknown error.

`OP_CONTRACT` took the place of a NOP and always fails.
-/

namespace OurChain

def MAX_SCRIPT_ELEMENT_SIZE : Nat := 520
def MAX_OPS_PER_SCRIPT : Nat := 201
def MAX_STACK_SIZE : Nat := 1000

def OP_IF : Byte := 0x63
def OP_ENDIF : Byte := 0x68

inductive ScriptError
  | unknownError | evalFalse | opReturn
  | scriptSize | pushSize | opCount | stackSize | sigCount | pubkeyCount
  | verify | equalVerify | checkMultisigVerify | checkSigVerify | numEqualVerify
  | badOpcode | disabledOpcode | invalidStackOperation | invalidAltstackOperation
  | unbalancedConditional
  | negativeLocktime | unsatisfiedLocktime
  | sigHashtype | sigDer | minimalData | sigPushOnly | sigHighS | sigNullDummy | pubkeyType
  | cleanStack | minimalIf | sigNullFail
  | discourageUpgradableNops | discourageUpgradableWitnessProgram
  | witnessProgramWrongLength | witnessProgramWitnessEmpty | witnessProgramMismatch
  | witnessMalleated | witnessMalleatedP2SH | witnessUnexpected | witnessPubkeyType
  | contract
  deriving DecidableEq

inductive ScriptFailure
  | serror (error : ScriptError)
  | assertion
  deriving DecidableEq

abbrev ScriptM := Except ScriptFailure

def fail (error : ScriptError) : ScriptM α := .error (.serror error)

def check (c : Bool) (error : ScriptError) : ScriptM Unit := require c (.serror error)

def hasFlag (flags flag : BitVec 32) : Bool := flags &&& flag != 0#32

def whenFlag (flags flag : BitVec 32) (x : ScriptM Unit) : ScriptM Unit :=
  if hasFlag flags flag then x else .ok ()

structure ScriptCrypto where
  ripemd160 : Bytes → Bytes
  sha1 : Bytes → Bytes
  sha256 : Bytes → Bytes
  checkLowS : Bytes → Bool

structure BaseSignatureChecker where
  checkSig : Bytes → Bytes → Bytes → SigVersion → Bool
  checkLockTime : Int → Bool
  checkSequence : Int → Bool

structure ScriptContext where
  crypto : ScriptCrypto
  checker : BaseSignatureChecker
  sigversion : SigVersion

def castToBool : Bytes → Bool
  | [] => false
  | [b] => b != 0 && b != 0x80
  | b :: rest => b != 0 || castToBool rest

def ofBool (b : Bool) : Bytes := if b then [1] else []

def scriptNumValue (vch : Bytes) : Int :=
  match vch.getLast? with
  | none => 0
  | some back =>
    let result := ofLeBytes vch
    if back &&& 0x80 ≠ 0 then -((result - 0x80 * 256 ^ (vch.length - 1) : Nat) : Int) else result

def isMinimalNum (vch : Bytes) : Bool :=
  match vch.reverse with
  | [] => true
  | [back] => back &&& 0x7f != 0
  | back :: next :: _ => back &&& 0x7f != 0 || next &&& 0x80 != 0

def scriptNum (fRequireMinimal : Bool) (nMaxNumSize : Nat) (vch : Bytes) : ScriptM Int := do
  check (vch.length ≤ nMaxNumSize) .unknownError
  check (!fRequireMinimal || isMinimalNum vch) .unknownError
  return scriptNumValue vch

def nDefaultMaxNumSize : Nat := 4

def getint (n : Int) : Int := max (-2 ^ 31) (min n (2 ^ 31 - 1))

def isCompressedOrUncompressedPubKey (vchPubKey : Bytes) : Bool :=
  match vchPubKey with
  | [] => false
  | b :: _ =>
    if vchPubKey.length < 33 then false
    else if b = 0x04 then vchPubKey.length = 65
    else if b = 0x02 ∨ b = 0x03 then vchPubKey.length = 33
    else false

def isCompressedPubKey (vchPubKey : Bytes) : Bool :=
  match vchPubKey with
  | [] => false
  | b :: _ => vchPubKey.length = 33 && (b = 0x02 || b = 0x03)

/-- One of the two integers of a signature, `len` bytes from `pos` on. -/
def isValidInteger (sig : Bytes) (pos len : Nat) : Bool :=
  len != 0 && sig.getD pos 0 &&& 0x80 == 0 &&
    !(decide (1 < len) && sig.getD pos 0 == 0 && sig.getD (pos + 1) 0 &&& 0x80 == 0)

def isValidSignatureEncoding (sig : Bytes) : Bool :=
  let lenR := (sig.getD 3 0).toNat
  let lenS := (sig.getD (5 + lenR) 0).toNat
  decide (9 ≤ sig.length) && decide (sig.length ≤ 73) && sig.getD 0 0 == 0x30 &&
    (sig.getD 1 0).toNat == sig.length - 3 && decide (5 + lenR < sig.length) &&
    lenR + lenS + 7 == sig.length && sig.getD 2 0 == 0x02 && isValidInteger sig 4 lenR &&
    sig.getD (lenR + 4) 0 == 0x02 && isValidInteger sig (lenR + 6) lenS

def isLowDERSignature (crypto : ScriptCrypto) (vchSig : Bytes) : ScriptM Unit := do
  check (isValidSignatureEncoding vchSig) .sigDer
  check (crypto.checkLowS vchSig.dropLast) .sigHighS

def isDefinedHashtypeSignature (vchSig : Bytes) : Bool :=
  match vchSig.getLast? with
  | none => false
  | some back => decide (1 ≤ back &&& ~~~0x80) && decide (back &&& ~~~0x80 ≤ 3)

def checkSignatureEncoding (crypto : ScriptCrypto) (flags : BitVec 32) (vchSig : Bytes) :
    ScriptM Unit :=
  if vchSig.isEmpty then .ok ()
  else do
    whenFlag flags (SCRIPT_VERIFY_DERSIG ||| SCRIPT_VERIFY_LOW_S ||| SCRIPT_VERIFY_STRICTENC)
      (check (isValidSignatureEncoding vchSig) .sigDer)
    whenFlag flags SCRIPT_VERIFY_LOW_S (isLowDERSignature crypto vchSig)
    whenFlag flags SCRIPT_VERIFY_STRICTENC (check (isDefinedHashtypeSignature vchSig) .sigHashtype)

def checkPubKeyEncoding (sigversion : SigVersion) (flags : BitVec 32) (vchPubKey : Bytes) :
    ScriptM Unit := do
  whenFlag flags SCRIPT_VERIFY_STRICTENC
    (check (isCompressedOrUncompressedPubKey vchPubKey) .pubkeyType)
  whenFlag flags SCRIPT_VERIFY_WITNESS_PUBKEYTYPE
    (check (sigversion != .witnessV0 || isCompressedPubKey vchPubKey) .witnessPubkeyType)

def checkMinimalPush (data : Bytes) (opcode : Byte) : Bool :=
  match data with
  | [] => opcode == OP_0
  | [b] =>
    if 1 ≤ b ∧ b ≤ 16 then opcode == OP_1 + (b - 1)
    else if b = 0x81 then opcode == 0x4f
    else opcode == 1
  | _ =>
    if data.length ≤ 75 then opcode.toNat == data.length
    else if data.length ≤ 255 then opcode == OP_PUSHDATA1
    else if data.length ≤ 65535 then opcode == OP_PUSHDATA2
    else true

inductive StackOp
  | OP_2DROP | OP_2DUP | OP_3DUP | OP_2OVER | OP_2ROT | OP_2SWAP | OP_IFDUP | OP_DEPTH
  | OP_DROP | OP_DUP | OP_NIP | OP_OVER | OP_ROT | OP_SWAP | OP_TUCK | OP_SIZE

inductive UnaryOp
  | OP_1ADD | OP_1SUB | OP_NEGATE | OP_ABS | OP_NOT | OP_0NOTEQUAL

inductive BinaryOp
  | OP_ADD | OP_SUB | OP_BOOLAND | OP_BOOLOR | OP_NUMEQUAL | OP_NUMNOTEQUAL | OP_LESSTHAN
  | OP_GREATERTHAN | OP_LESSTHANOREQUAL | OP_GREATERTHANOREQUAL | OP_MIN | OP_MAX

inductive HashOp
  | OP_RIPEMD160 | OP_SHA1 | OP_SHA256 | OP_HASH160 | OP_HASH256

/-- The cases of the switch. Operations that differ in one step share a case. -/
inductive Opcode
  | OP_N (n : Int)
  | OP_NOP
  | OP_CHECKLOCKTIMEVERIFY
  | OP_CHECKSEQUENCEVERIFY
  | upgradableNop
  | OP_IF (negated : Bool)
  | OP_ELSE
  | OP_ENDIF
  | OP_VERIFY
  | OP_RETURN
  | OP_TOALTSTACK
  | OP_FROMALTSTACK
  | stack (op : StackOp)
  | OP_PICK (roll : Bool)
  | OP_EQUAL (fVerify : Bool)
  | unary (op : UnaryOp)
  | binary (op : BinaryOp)
  | OP_NUMEQUALVERIFY
  | OP_WITHIN
  | hash (op : HashOp)
  | OP_CODESEPARATOR
  | OP_CHECKSIG (fVerify : Bool)
  | OP_CHECKMULTISIG (fVerify : Bool)
  | OP_CONTRACT
  | invalid

def Opcode.ofByte (opcode : Byte) : Opcode :=
  if opcode = 0x4f then .OP_N (-1)
  else if OP_1 ≤ opcode ∧ opcode ≤ OP_16 then .OP_N (decodeOP_N opcode)
  else match opcode.toNat with
    | 0x61 => .OP_NOP
    | 0x63 => .OP_IF false
    | 0x64 => .OP_IF true
    | 0x67 => .OP_ELSE
    | 0x68 => .OP_ENDIF
    | 0x69 => .OP_VERIFY
    | 0x6a => .OP_RETURN
    | 0x6b => .OP_TOALTSTACK
    | 0x6c => .OP_FROMALTSTACK
    | 0x6d => .stack .OP_2DROP
    | 0x6e => .stack .OP_2DUP
    | 0x6f => .stack .OP_3DUP
    | 0x70 => .stack .OP_2OVER
    | 0x71 => .stack .OP_2ROT
    | 0x72 => .stack .OP_2SWAP
    | 0x73 => .stack .OP_IFDUP
    | 0x74 => .stack .OP_DEPTH
    | 0x75 => .stack .OP_DROP
    | 0x76 => .stack .OP_DUP
    | 0x77 => .stack .OP_NIP
    | 0x78 => .stack .OP_OVER
    | 0x79 => .OP_PICK false
    | 0x7a => .OP_PICK true
    | 0x7b => .stack .OP_ROT
    | 0x7c => .stack .OP_SWAP
    | 0x7d => .stack .OP_TUCK
    | 0x82 => .stack .OP_SIZE
    | 0x87 => .OP_EQUAL false
    | 0x88 => .OP_EQUAL true
    | 0x8b => .unary .OP_1ADD
    | 0x8c => .unary .OP_1SUB
    | 0x8f => .unary .OP_NEGATE
    | 0x90 => .unary .OP_ABS
    | 0x91 => .unary .OP_NOT
    | 0x92 => .unary .OP_0NOTEQUAL
    | 0x93 => .binary .OP_ADD
    | 0x94 => .binary .OP_SUB
    | 0x9a => .binary .OP_BOOLAND
    | 0x9b => .binary .OP_BOOLOR
    | 0x9c => .binary .OP_NUMEQUAL
    | 0x9d => .OP_NUMEQUALVERIFY
    | 0x9e => .binary .OP_NUMNOTEQUAL
    | 0x9f => .binary .OP_LESSTHAN
    | 0xa0 => .binary .OP_GREATERTHAN
    | 0xa1 => .binary .OP_LESSTHANOREQUAL
    | 0xa2 => .binary .OP_GREATERTHANOREQUAL
    | 0xa3 => .binary .OP_MIN
    | 0xa4 => .binary .OP_MAX
    | 0xa5 => .OP_WITHIN
    | 0xa6 => .hash .OP_RIPEMD160
    | 0xa7 => .hash .OP_SHA1
    | 0xa8 => .hash .OP_SHA256
    | 0xa9 => .hash .OP_HASH160
    | 0xaa => .hash .OP_HASH256
    | 0xab => .OP_CODESEPARATOR
    | 0xac => .OP_CHECKSIG false
    | 0xad => .OP_CHECKSIG true
    | 0xae => .OP_CHECKMULTISIG false
    | 0xaf => .OP_CHECKMULTISIG true
    | 0xb0 => .upgradableNop
    | 0xb1 => .OP_CHECKLOCKTIMEVERIFY
    | 0xb2 => .OP_CHECKSEQUENCEVERIFY
    | 0xb3 => .OP_CONTRACT
    | 0xb4 | 0xb5 | 0xb6 | 0xb7 | 0xb8 | 0xb9 => .upgradableNop
    | _ => .invalid

/-- `OP_CAT`, `OP_SUBSTR`, `OP_LEFT`, `OP_RIGHT`, `OP_INVERT`, `OP_AND`, `OP_OR`, `OP_XOR`,
`OP_2MUL`, `OP_2DIV`, `OP_MUL`, `OP_DIV`, `OP_MOD`, `OP_LSHIFT`, `OP_RSHIFT`. -/
def isDisabled (opcode : Byte) : Bool :=
  opcode ∈ [0x7e, 0x7f, 0x80, 0x81, 0x83, 0x84, 0x85, 0x86, 0x8d, 0x8e, 0x95, 0x96, 0x97, 0x98, 0x99]

def StackOp.apply : StackOp → List Bytes → Option (List Bytes)
  | .OP_2DROP, _ :: _ :: stack => some stack
  | .OP_2DUP, x2 :: x1 :: stack => some (x2 :: x1 :: x2 :: x1 :: stack)
  | .OP_3DUP, x3 :: x2 :: x1 :: stack => some (x3 :: x2 :: x1 :: x3 :: x2 :: x1 :: stack)
  | .OP_2OVER, x4 :: x3 :: x2 :: x1 :: stack => some (x2 :: x1 :: x4 :: x3 :: x2 :: x1 :: stack)
  | .OP_2ROT, x6 :: x5 :: x4 :: x3 :: x2 :: x1 :: stack =>
    some (x2 :: x1 :: x6 :: x5 :: x4 :: x3 :: stack)
  | .OP_2SWAP, x4 :: x3 :: x2 :: x1 :: stack => some (x2 :: x1 :: x4 :: x3 :: stack)
  | .OP_IFDUP, x :: stack => some (if castToBool x then x :: x :: stack else x :: stack)
  | .OP_DEPTH, stack => some (scriptNumBytes stack.length :: stack)
  | .OP_DROP, _ :: stack => some stack
  | .OP_DUP, x :: stack => some (x :: x :: stack)
  | .OP_NIP, x2 :: _ :: stack => some (x2 :: stack)
  | .OP_OVER, x2 :: x1 :: stack => some (x1 :: x2 :: x1 :: stack)
  | .OP_ROT, x3 :: x2 :: x1 :: stack => some (x1 :: x3 :: x2 :: stack)
  | .OP_SWAP, x2 :: x1 :: stack => some (x1 :: x2 :: stack)
  | .OP_TUCK, x2 :: x1 :: stack => some (x2 :: x1 :: x2 :: stack)
  | .OP_SIZE, x :: stack => some (scriptNumBytes x.length :: x :: stack)
  | _, _ => none

def UnaryOp.apply (bn : Int) : UnaryOp → Int
  | .OP_1ADD => bn + 1
  | .OP_1SUB => bn - 1
  | .OP_NEGATE => -bn
  | .OP_ABS => if bn < 0 then -bn else bn
  | .OP_NOT => if bn = 0 then 1 else 0
  | .OP_0NOTEQUAL => if bn ≠ 0 then 1 else 0

def BinaryOp.apply (bn1 bn2 : Int) : BinaryOp → Int
  | .OP_ADD => bn1 + bn2
  | .OP_SUB => bn1 - bn2
  | .OP_BOOLAND => if bn1 ≠ 0 ∧ bn2 ≠ 0 then 1 else 0
  | .OP_BOOLOR => if bn1 ≠ 0 ∨ bn2 ≠ 0 then 1 else 0
  | .OP_NUMEQUAL => if bn1 = bn2 then 1 else 0
  | .OP_NUMNOTEQUAL => if bn1 ≠ bn2 then 1 else 0
  | .OP_LESSTHAN => if bn1 < bn2 then 1 else 0
  | .OP_GREATERTHAN => if bn1 > bn2 then 1 else 0
  | .OP_LESSTHANOREQUAL => if bn1 ≤ bn2 then 1 else 0
  | .OP_GREATERTHANOREQUAL => if bn1 ≥ bn2 then 1 else 0
  | .OP_MIN => if bn1 < bn2 then bn1 else bn2
  | .OP_MAX => if bn1 > bn2 then bn1 else bn2

def HashOp.apply (crypto : ScriptCrypto) (vch : Bytes) : HashOp → Bytes
  | .OP_RIPEMD160 => crypto.ripemd160 vch
  | .OP_SHA1 => crypto.sha1 vch
  | .OP_SHA256 => crypto.sha256 vch
  | .OP_HASH160 => crypto.ripemd160 (crypto.sha256 vch)
  | .OP_HASH256 => crypto.sha256 (crypto.sha256 vch)

def dropMatches (b : Bytes) : Nat → Bytes → Bytes
  | 0, pc => pc
  | fuel + 1, pc => if b.isPrefixOf pc then dropMatches b fuel (pc.drop b.length) else pc

def findAndDeleteFrom (b : Bytes) : Nat → Bytes → Bytes
  | 0, pc => pc
  | fuel + 1, pc =>
    let pc2 := dropMatches b pc.length pc
    match getOp pc2 with
    | (none, _) => pc2
    | (some _, pc) => pc2.take (pc2.length - pc.length) ++ findAndDeleteFrom b fuel pc

/-- `FindAndDelete`: `b` is removed where an operation begins. -/
def findAndDelete (b script : Bytes) : Bytes :=
  if b.isEmpty then script else findAndDeleteFrom b (script.length + 1) script

def isPushOnlyFrom : Nat → Bytes → Bool
  | _, [] => true
  | 0, _ :: _ => false
  | fuel + 1, pc@(_ :: _) =>
    match getOp pc with
    | (none, _) => false
    | (some opcode, pc) => if opcode > OP_16 then false else isPushOnlyFrom fuel pc

def isPushOnly (script : Bytes) : Bool := isPushOnlyFrom script.length script

structure EvalState where
  stack : List Bytes
  altstack : List Bytes
  /-- The branches that are open, the innermost one in front. -/
  vfExec : List Bool
  nOpCount : Nat
  pbegincodehash : Bytes
  pc : Bytes
  deriving DecidableEq

variable (ctx : ScriptContext) (flags : BitVec 32)

def fRequireMinimal : Bool := hasFlag flags SCRIPT_VERIFY_MINIMALDATA

def upgradableNop (st : EvalState) : ScriptM EvalState := do
  whenFlag flags SCRIPT_VERIFY_DISCOURAGE_UPGRADABLE_NOPS (fail .discourageUpgradableNops)
  return st

def checkLockTimeVerify (st : EvalState) : ScriptM EvalState :=
  if !hasFlag flags SCRIPT_VERIFY_CHECKLOCKTIMEVERIFY then upgradableNop flags st
  else match st.stack with
    | [] => fail .invalidStackOperation
    | top :: _ => do
      let nLockTime ← scriptNum (fRequireMinimal flags) 5 top
      check (0 ≤ nLockTime) .negativeLocktime
      check (ctx.checker.checkLockTime nLockTime) .unsatisfiedLocktime
      return st

def checkSequenceVerify (st : EvalState) : ScriptM EvalState :=
  if !hasFlag flags SCRIPT_VERIFY_CHECKSEQUENCEVERIFY then upgradableNop flags st
  else match st.stack with
    | [] => fail .invalidStackOperation
    | top :: _ => do
      let nSequence ← scriptNum (fRequireMinimal flags) 5 top
      check (0 ≤ nSequence) .negativeLocktime
      check (nSequence.toNat.testBit 31 || ctx.checker.checkSequence nSequence) .unsatisfiedLocktime
      return st

/-- `OP_IF` and `OP_NOTIF`, also in a branch that is not executed. -/
def opIf (fExec negated : Bool) (st : EvalState) : ScriptM EvalState :=
  if fExec then
    match st.stack with
    | [] => fail .unbalancedConditional
    | vch :: stack => do
      whenFlag flags SCRIPT_VERIFY_MINIMALIF
        (check (ctx.sigversion != .witnessV0 || vch == [] || vch == [1]) .minimalIf)
      return { st with stack, vfExec := (castToBool vch != negated) :: st.vfExec }
  else return { st with vfExec := false :: st.vfExec }

/-- `OP_PICK`, and `OP_ROLL` that takes the element out. -/
def opPick (roll : Bool) (st : EvalState) : ScriptM EvalState :=
  match st.stack with
  | top :: x :: stack => do
    let n := getint (← scriptNum (fRequireMinimal flags) nDefaultMaxNumSize top)
    if n < 0 then fail .invalidStackOperation
    else match (x :: stack)[n.toNat]? with
      | none => fail .invalidStackOperation
      | some vch =>
        return { st with stack := vch :: if roll then (x :: stack).eraseIdx n.toNat else x :: stack }
  | _ => fail .invalidStackOperation

def opUnary (op : UnaryOp) (st : EvalState) : ScriptM EvalState :=
  match st.stack with
  | [] => fail .invalidStackOperation
  | top :: stack => do
    let bn ← scriptNum (fRequireMinimal flags) nDefaultMaxNumSize top
    return { st with stack := scriptNumBytes (op.apply bn) :: stack }

def binaryOperands (st : EvalState) : ScriptM (Int × Int × List Bytes) :=
  match st.stack with
  | x2 :: x1 :: stack => do
    let bn1 ← scriptNum (fRequireMinimal flags) nDefaultMaxNumSize x1
    let bn2 ← scriptNum (fRequireMinimal flags) nDefaultMaxNumSize x2
    return (bn1, bn2, stack)
  | _ => fail .invalidStackOperation

def opBinary (op : BinaryOp) (st : EvalState) : ScriptM EvalState := do
  let (bn1, bn2, stack) ← binaryOperands flags st
  return { st with stack := scriptNumBytes (op.apply bn1 bn2) :: stack }

def opNumEqualVerify (st : EvalState) : ScriptM EvalState := do
  let (bn1, bn2, stack) ← binaryOperands flags st
  check (castToBool (scriptNumBytes (BinaryOp.OP_NUMEQUAL.apply bn1 bn2))) .numEqualVerify
  return { st with stack }

def opWithin (st : EvalState) : ScriptM EvalState :=
  match st.stack with
  | x3 :: x2 :: x1 :: stack => do
    let bn1 ← scriptNum (fRequireMinimal flags) nDefaultMaxNumSize x1
    let bn2 ← scriptNum (fRequireMinimal flags) nDefaultMaxNumSize x2
    let bn3 ← scriptNum (fRequireMinimal flags) nDefaultMaxNumSize x3
    return { st with stack := ofBool (bn2 ≤ bn1 ∧ bn1 < bn3) :: stack }
  | _ => fail .invalidStackOperation

/-- The result of a check of signatures on the stack, or its verification. -/
def pushResult (fVerify fSuccess : Bool) (error : ScriptError) (stack : List Bytes) (st : EvalState) :
    ScriptM EvalState :=
  if fVerify then do
    check fSuccess error
    return { st with stack }
  else return { st with stack := ofBool fSuccess :: stack }

/-- The script code without the signature, except in a witness. -/
def dropSignature (vchSig scriptCode : Bytes) : Bytes :=
  if ctx.sigversion = .base then findAndDelete (pushData vchSig) scriptCode else scriptCode

def opCheckSig (fVerify : Bool) (st : EvalState) : ScriptM EvalState :=
  match st.stack with
  | vchPubKey :: vchSig :: stack => do
    let scriptCode := dropSignature ctx vchSig st.pbegincodehash
    checkSignatureEncoding ctx.crypto flags vchSig
    checkPubKeyEncoding ctx.sigversion flags vchPubKey
    let fSuccess := ctx.checker.checkSig vchSig vchPubKey scriptCode ctx.sigversion
    whenFlag flags SCRIPT_VERIFY_NULLFAIL (check (fSuccess || vchSig.isEmpty) .sigNullFail)
    pushResult fVerify fSuccess .checkSigVerify stack st
  | _ => fail .invalidStackOperation

/-- The loop over the signatures: each is tried with the keys from where the last one
matched. Without enough keys it ends. -/
def checkMultiSig (scriptCode : Bytes) : List Bytes → List Bytes → ScriptM Bool
  | _, [] => .ok true
  | [], _ :: _ => .ok false
  | vchPubKey :: keys, vchSig :: sigs => do
    checkSignatureEncoding ctx.crypto flags vchSig
    checkPubKeyEncoding ctx.sigversion flags vchPubKey
    let sigs :=
      if ctx.checker.checkSig vchSig vchPubKey scriptCode ctx.sigversion then sigs else vchSig :: sigs
    if keys.length < sigs.length then .ok false else checkMultiSig scriptCode keys sigs

/-- The loop that pops the arguments; behind the first `ikey2` of them are the signatures. -/
def popArguments (fSuccess : Bool) : Nat → Nat → List Bytes → ScriptM (List Bytes)
  | 0, _, stack => .ok stack
  | _ + 1, _, [] => fail .unknownError
  | i + 1, ikey2, top :: stack => do
    whenFlag flags SCRIPT_VERIFY_NULLFAIL (check (fSuccess || ikey2 != 0 || top.isEmpty) .sigNullFail)
    popArguments fSuccess i (ikey2 - 1) stack

def readCount (max : Nat) (error : ScriptError) (vch : Bytes) : ScriptM Nat := do
  let n := getint (← scriptNum (fRequireMinimal flags) nDefaultMaxNumSize vch)
  check (0 ≤ n ∧ n ≤ max) error
  return n.toNat

def opCheckMultiSig (fVerify : Bool) (st : EvalState) : ScriptM EvalState :=
  match st.stack with
  | [] => fail .invalidStackOperation
  | top :: _ => do
    let nKeysCount ← readCount flags MAX_PUBKEYS_PER_MULTISIG .pubkeyCount top
    let nOpCount := st.nOpCount + nKeysCount
    check (nOpCount ≤ MAX_OPS_PER_SCRIPT) .opCount
    match st.stack[nKeysCount + 1]? with
    | none => fail .invalidStackOperation
    | some vch =>
      let nSigsCount ← readCount flags nKeysCount .sigCount vch
      check (nKeysCount + 3 + nSigsCount ≤ st.stack.length) .invalidStackOperation
      let keys := (st.stack.drop 1).take nKeysCount
      let sigs := (st.stack.drop (nKeysCount + 2)).take nSigsCount
      let scriptCode := sigs.foldl (fun scriptCode vchSig => dropSignature ctx vchSig scriptCode)
        st.pbegincodehash
      let fSuccess ← checkMultiSig ctx flags scriptCode keys sigs
      let stack ← popArguments flags fSuccess (nKeysCount + nSigsCount + 2) (nKeysCount + 2) st.stack
      match stack with
      | [] => fail .invalidStackOperation
      | dummy :: stack =>
        whenFlag flags SCRIPT_VERIFY_NULLDUMMY (check dummy.isEmpty .sigNullDummy)
        pushResult fVerify fSuccess .checkMultisigVerify stack { st with nOpCount }

def evalOp (fExec : Bool) (st : EvalState) : Opcode → ScriptM EvalState
  | .OP_N n => return { st with stack := scriptNumBytes n :: st.stack }
  | .OP_NOP => return st
  | .OP_CHECKLOCKTIMEVERIFY => checkLockTimeVerify ctx flags st
  | .OP_CHECKSEQUENCEVERIFY => checkSequenceVerify ctx flags st
  | .upgradableNop => upgradableNop flags st
  | .OP_IF negated => opIf ctx flags fExec negated st
  | .OP_ELSE =>
    match st.vfExec with
    | [] => fail .unbalancedConditional
    | back :: vfExec => return { st with vfExec := (!back) :: vfExec }
  | .OP_ENDIF =>
    match st.vfExec with
    | [] => fail .unbalancedConditional
    | _ :: vfExec => return { st with vfExec }
  | .OP_VERIFY =>
    match st.stack with
    | [] => fail .invalidStackOperation
    | top :: stack => if castToBool top then return { st with stack } else fail .verify
  | .OP_RETURN => fail .opReturn
  | .OP_TOALTSTACK =>
    match st.stack with
    | [] => fail .invalidStackOperation
    | top :: stack => return { st with stack, altstack := top :: st.altstack }
  | .OP_FROMALTSTACK =>
    match st.altstack with
    | [] => fail .invalidAltstackOperation
    | top :: altstack => return { st with stack := top :: st.stack, altstack }
  | .stack op =>
    match op.apply st.stack with
    | none => fail .invalidStackOperation
    | some stack => return { st with stack }
  | .OP_PICK roll => opPick flags roll st
  | .OP_EQUAL fVerify =>
    match st.stack with
    | x2 :: x1 :: stack => pushResult fVerify (x1 == x2) .equalVerify stack st
    | _ => fail .invalidStackOperation
  | .unary op => opUnary flags op st
  | .binary op => opBinary flags op st
  | .OP_NUMEQUALVERIFY => opNumEqualVerify flags st
  | .OP_WITHIN => opWithin flags st
  | .hash op =>
    match st.stack with
    | [] => fail .invalidStackOperation
    | top :: stack => return { st with stack := op.apply ctx.crypto top :: stack }
  | .OP_CODESEPARATOR => return { st with pbegincodehash := st.pc }
  | .OP_CHECKSIG fVerify => opCheckSig ctx flags fVerify st
  | .OP_CHECKMULTISIG fVerify => opCheckMultiSig ctx flags fVerify st
  | .OP_CONTRACT => fail .contract
  | .invalid => fail .badOpcode

def executeOp (opcode : Byte) (vchPushValue : Bytes) (st : EvalState) : ScriptM EvalState :=
  let fExec := st.vfExec.all id
  if fExec && decide (opcode ≤ OP_PUSHDATA4) then do
    whenFlag flags SCRIPT_VERIFY_MINIMALDATA
      (check (checkMinimalPush vchPushValue opcode) .minimalData)
    return { st with stack := vchPushValue :: st.stack }
  else if fExec || decide (OP_IF ≤ opcode ∧ opcode ≤ OP_ENDIF) then
    evalOp ctx flags fExec st (Opcode.ofByte opcode)
  else return st

def evalStep (st : EvalState) : ScriptM EvalState :=
  match getOpData st.pc with
  | none => fail .badOpcode
  | some (opcode, vchPushValue, pc) => do
    check (vchPushValue.length ≤ MAX_SCRIPT_ELEMENT_SIZE) .pushSize
    let nOpCount := if opcode > OP_16 then st.nOpCount + 1 else st.nOpCount
    check (opcode ≤ OP_16 ∨ nOpCount ≤ MAX_OPS_PER_SCRIPT) .opCount
    check (!isDisabled opcode) .disabledOpcode
    let st ← executeOp ctx flags opcode vchPushValue { st with nOpCount, pc }
    check (st.stack.length + st.altstack.length ≤ MAX_STACK_SIZE) .stackSize
    return st

/-- Every operation takes a byte, so the length of the script bounds the loop. -/
def evalFrom : Nat → EvalState → ScriptM EvalState
  | 0, st => return st
  | fuel + 1, st =>
    if st.pc.isEmpty then return st
    else do
      let st ← evalStep ctx flags st
      evalFrom fuel st

def evalScript (script : Bytes) (stack : List Bytes) : ScriptM (List Bytes) := do
  check (script.length ≤ MAX_SCRIPT_SIZE) .scriptSize
  let st ← evalFrom ctx flags script.length
    { stack, altstack := [], vfExec := [], nOpCount := 0, pbegincodehash := script, pc := script }
  check st.vfExec.isEmpty .unbalancedConditional
  return st.stack

variable (crypto : ScriptCrypto) (checker : BaseSignatureChecker)

/-- The script and the stack that a witness of version 0 is evaluated with. -/
def witnessScript (program : Bytes) (witness : List Bytes) : ScriptM (Bytes × List Bytes) :=
  if program.length = 32 then
    match witness.reverse with
    | [] => fail .witnessProgramWitnessEmpty
    | scriptPubKey :: stack =>
      if crypto.sha256 scriptPubKey = program then return (scriptPubKey, stack)
      else fail .witnessProgramMismatch
  else if program.length = 20 then
    if witness.length = 2 then
      return ([OP_DUP, OP_HASH160] ++ pushData program ++ [OP_EQUALVERIFY, OP_CHECKSIG],
        witness.reverse)
    else fail .witnessProgramMismatch
  else fail .witnessProgramWrongLength

def verifyWitnessProgram (witness : List Bytes) (witversion : Nat) (program : Bytes) : ScriptM Unit :=
  if witversion = 0 then do
    let (scriptPubKey, stack) ← witnessScript crypto program witness
    check (stack.all (·.length ≤ MAX_SCRIPT_ELEMENT_SIZE)) .pushSize
    let stack ← evalScript ⟨crypto, checker, .witnessV0⟩ flags scriptPubKey stack
    match stack with
    | [top] => check (castToBool top) .evalFalse
    | _ => fail .evalFalse
  else
    whenFlag flags SCRIPT_VERIFY_DISCOURAGE_UPGRADABLE_WITNESS_PROGRAM
      (fail .discourageUpgradableWitnessProgram)

def evalTrue (script : Bytes) (stack : List Bytes) : ScriptM (List Bytes) := do
  let stack ← evalScript ⟨crypto, checker, .base⟩ flags script stack
  match stack with
  | [] => fail .evalFalse
  | top :: _ =>
    check (castToBool top) .evalFalse
    return stack

/-- The witness program in `script`, if it is one: whether there was a witness, and the
stack, cut to one element in that case. `clean` says that the `scriptSig` holds nothing
else. -/
def runWitness (script : Bytes) (witness : List Bytes) (clean : Bool) (malleated : ScriptError)
    (stack : List Bytes) : ScriptM (Bool × List Bytes) :=
  if hasFlag flags SCRIPT_VERIFY_WITNESS then
    match isWitnessProgram script with
    | none => return (false, stack)
    | some (witversion, program) => do
      check clean malleated
      verifyWitnessProgram flags crypto checker witness witversion program
      return (true, [stack.getLastD []])
  else return (false, stack)

/-- The script that is the last push of the `scriptSig`, if the output asks for one. -/
def runScriptHash (scriptSig scriptPubKey : Bytes) (witness stackCopy : List Bytes)
    (before : Bool × List Bytes) : ScriptM (Bool × List Bytes) :=
  if hasFlag flags SCRIPT_VERIFY_P2SH && isPayToScriptHash scriptPubKey then do
    check (isPushOnly scriptSig) .sigPushOnly
    match stackCopy with
    | [] => .error .assertion
    | pubKey2 :: stack =>
      let stack ← evalTrue flags crypto checker pubKey2 stack
      let (hadWitness, stack) ← runWitness flags crypto checker pubKey2 witness
        (scriptSig == pushData pubKey2) .witnessMalleatedP2SH stack
      return (before.1 || hadWitness, stack)
  else return before

/-- The checks at the end, with their assertions on the flags. -/
def checkEnd (witness : List Bytes) (hadWitness : Bool) (stack : List Bytes) : ScriptM Unit := do
  whenFlag flags SCRIPT_VERIFY_CLEANSTACK do
    require (hasFlag flags SCRIPT_VERIFY_P2SH) .assertion
    require (hasFlag flags SCRIPT_VERIFY_WITNESS) .assertion
    check (stack.length = 1) .cleanStack
  whenFlag flags SCRIPT_VERIFY_WITNESS do
    require (hasFlag flags SCRIPT_VERIFY_P2SH) .assertion
    check (hadWitness || witness.isEmpty) .witnessUnexpected

def verifyScript (scriptSig scriptPubKey : Bytes) (witness : List Bytes) : ScriptM Unit := do
  whenFlag flags SCRIPT_VERIFY_SIGPUSHONLY (check (isPushOnly scriptSig) .sigPushOnly)
  let stackCopy ← evalScript ⟨crypto, checker, .base⟩ flags scriptSig []
  let stack ← evalTrue flags crypto checker scriptPubKey stackCopy
  let bare ← runWitness flags crypto checker scriptPubKey witness scriptSig.isEmpty
    .witnessMalleated stack
  let final ← runScriptHash flags crypto checker scriptSig scriptPubKey witness stackCopy bare
  checkEnd flags witness final.1 final.2

section Ends

theorem pushSize_suffix {opcode : Byte} {pc pc' : Bytes} {nSize : Nat}
    (h : pushSize opcode pc = some (nSize, pc')) : pc' <:+ pc := by
  unfold pushSize at h
  split at h
  · cases h
    exact List.suffix_rfl
  · obtain ⟨⟨a, rest⟩, htake, hpair⟩ := Option.map_eq_some_iff.mp h
    cases hpair
    exact ⟨a, (Codec.takeBytes_eq_some htake).2.symm⟩

theorem length_getOpData_lt {script pc vch : Bytes} {opcode : Byte}
    (h : getOpData script = some (opcode, vch, pc)) : pc.length < script.length := by
  cases script with
  | nil => cases h
  | cons first rest =>
    refine Nat.lt_succ_of_le (List.IsSuffix.length_le ?_)
    rw [getOpData] at h
    split at h
    · split at h
      · cases h
      · split at h <;> cases h
        exact (List.drop_suffix _ _).trans (pushSize_suffix ‹_›)
    · cases h
      exact List.suffix_rfl

variable {ctx : ScriptContext} {flags : BitVec 32}

variable (fExec : Bool) (st : EvalState)

theorem evalOp_keepsPc (opcode : Opcode) :
    Ensures (evalOp ctx flags fExec st opcode) fun st' => st'.pc = st.pc := by
  -- every branch of an operation fails, or returns the state with other fields changed
  cases opcode <;>
    simp only [evalOp, checkLockTimeVerify, checkSequenceVerify, upgradableNop, opIf, opPick,
    opUnary, opBinary,
      opNumEqualVerify, opWithin, opCheckSig, opCheckMultiSig, pushResult] <;>
    repeat' first | exact .ok rfl | exact .of_error _ | refine .bind_rest fun _ => ?_ | split

theorem executeOp_keepsPc (opcode : Byte) (vchPushValue : Bytes) :
    Ensures (executeOp ctx flags opcode vchPushValue st) fun st' => st'.pc = st.pc := by
  unfold executeOp
  dsimp only
  split
  · exact .bind_rest fun _ => .ok rfl
  · split
    · exact evalOp_keepsPc _ _ _
    · exact .ok rfl

theorem evalStep_shortens :
    Ensures (evalStep ctx flags st) fun st' => st'.pc.length < st.pc.length := by
  unfold evalStep
  split
  · exact .of_error _
  · rename_i opcode vchPushValue pc hop
    refine .bind_rest fun _ => .bind_rest fun _ => .bind_rest fun _ => ?_
    refine (executeOp_keepsPc _ _ _).bind fun st' hpc => .bind_rest fun _ => .ok ?_
    rw [hpc]
    exact length_getOpData_lt hop

/-- With a turn for each byte, or more, the loop returns only at the end of the script. -/
theorem evalFrom_ends (n : Nat) (st : EvalState) :
    Ensures (evalFrom ctx flags (st.pc.length + n) st) fun st' => st'.pc = [] := by
  generalize hfuel : st.pc.length + n = fuel
  induction fuel generalizing n st with
  | zero => exact .ok (List.eq_nil_of_length_eq_zero (by omega))
  | succ fuel ih =>
    unfold evalFrom
    split
    · exact .ok (List.isEmpty_iff.mp ‹_›)
    · exact (evalStep_shortens st).bind fun st' hlt => ih (fuel - st'.pc.length) st' (by omega)

end Ends

end OurChain
