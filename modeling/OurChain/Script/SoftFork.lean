import OurChain.Script.Interpreter

/-!
# Script flags are soft forks

A flag only adds checks: whatever passes under a set of flags passes under a part of it.
The rules of `Stricter` carry this through the interpreter, one lemma for each operation
that reads the flags. `OP_CHECKLOCKTIMEVERIFY` and `OP_CHECKSEQUENCEVERIFY` are the
exception: without their flag they are NOPs, and another flag discourages those.
-/

namespace OurChain

/-- What the assertions of `VerifyScript` ask of the flags. -/
structure CoherentFlags (flags : BitVec 32) : Prop where
  cleanStack : hasFlag flags SCRIPT_VERIFY_CLEANSTACK = true →
    hasFlag flags SCRIPT_VERIFY_P2SH = true ∧ hasFlag flags SCRIPT_VERIFY_WITNESS = true
  witness : hasFlag flags SCRIPT_VERIFY_WITNESS = true → hasFlag flags SCRIPT_VERIFY_P2SH = true

/-- `F'` is a part of `F`, and a NOP that it discourages is no NOP under `F` alone. -/
structure PartOf (F' F : BitVec 32) : Prop where
  subset : F' &&& F = F'
  lockTime : hasFlag F' SCRIPT_VERIFY_DISCOURAGE_UPGRADABLE_NOPS = true →
    hasFlag F SCRIPT_VERIFY_CHECKLOCKTIMEVERIFY = true →
    hasFlag F' SCRIPT_VERIFY_CHECKLOCKTIMEVERIFY = true
  sequence : hasFlag F' SCRIPT_VERIFY_DISCOURAGE_UPGRADABLE_NOPS = true →
    hasFlag F SCRIPT_VERIFY_CHECKSEQUENCEVERIFY = true →
    hasFlag F' SCRIPT_VERIFY_CHECKSEQUENCEVERIFY = true

variable {F F' : BitVec 32} {ctx : ScriptContext} {st : EvalState}

theorem upgradableNop_ok (h : hasFlag F' SCRIPT_VERIFY_DISCOURAGE_UPGRADABLE_NOPS = false) :
    upgradableNop F' st = .ok st := by
  simp only [upgradableNop, whenFlag, h]
  rfl

section
variable (h : PartOf F' F)
include h

theorem PartOf.hasFlag {flag : BitVec 32} (hflag : hasFlag F' flag = true) :
    hasFlag F flag = true := by
  simp only [OurChain.hasFlag, bne_iff_ne] at hflag ⊢
  intro hzero
  apply hflag
  rw [← h.subset, BitVec.and_assoc, hzero, BitVec.and_zero]

theorem PartOf.whenFlag (flag : BitVec 32) {x x' : ScriptM Unit} (hx : Stricter x x') :
    Stricter (whenFlag F flag x) (whenFlag F' flag x') := by
  unfold OurChain.whenFlag
  by_cases hflag' : OurChain.hasFlag F' flag = true
  · rwa [if_pos hflag', if_pos (h.hasFlag hflag')]
  · rw [if_neg hflag']
    by_cases hflag : OurChain.hasFlag F flag = true
    · rw [if_pos hflag]
      rintro ⟨⟩ -
      rfl
    · rw [if_neg hflag]
      exact .refl _

theorem scriptNum_stricter (nMaxNumSize : Nat) (vch : Bytes) :
    Stricter (scriptNum (fRequireMinimal F) nMaxNumSize vch)
      (scriptNum (fRequireMinimal F') nMaxNumSize vch) := by
  refine .bind (.refl _) fun _ => .bind_left (.require_of_imp ?_ _) _
  rw [Bool.or_eq_true, Bool.or_eq_true, Bool.not_eq_true', Bool.not_eq_true']
  refine Or.imp_left fun hoff => ?_
  rw [Bool.eq_false_iff] at hoff ⊢
  exact fun hon => hoff (h.hasFlag hon)

theorem checkSignatureEncoding_stricter (crypto : ScriptCrypto) (vchSig : Bytes) :
    Stricter (checkSignatureEncoding crypto F vchSig) (checkSignatureEncoding crypto F' vchSig) := by
  refine .ite (.refl _) ?_
  exact (h.whenFlag _ (.refl _)).bind fun _ => (h.whenFlag _ (.refl _)).bind fun _ =>
    h.whenFlag _ (.refl _)

theorem checkPubKeyEncoding_stricter (sigversion : SigVersion) (vchPubKey : Bytes) :
    Stricter (checkPubKeyEncoding sigversion F vchPubKey)
    (checkPubKeyEncoding sigversion F' vchPubKey) :=
  (h.whenFlag _ (.refl _)).bind fun _ => h.whenFlag _ (.refl _)

theorem upgradableNop_stricter : Stricter (upgradableNop F st) (upgradableNop F' st) :=
  (h.whenFlag _ (.refl _)).bind_left _

theorem nop_stricter (flag : BitVec 32)
    (hkept : hasFlag F' SCRIPT_VERIFY_DISCOURAGE_UPGRADABLE_NOPS = true → hasFlag F flag = true →
      hasFlag F' flag = true) {x x' : ScriptM EvalState} (hx : Stricter x x')
    (hsame : Ensures x (· = st)) :
    Stricter (if !hasFlag F flag then upgradableNop F st else x)
      (if !hasFlag F' flag then upgradableNop F' st else x') := by
  cases hflag : hasFlag F flag with
  | false =>
    have hflag' : hasFlag F' flag = false := by
      rw [Bool.eq_false_iff] at hflag ⊢
      exact fun hon => hflag (h.hasFlag hon)
    rw [hflag']
    exact upgradableNop_stricter h
  | true =>
    cases hflag' : hasFlag F' flag with
    | true => exact hx
    | false =>
      intro st' hok
      obtain rfl := hsame st' hok
      refine upgradableNop_ok ?_
      rw [Bool.eq_false_iff]
      intro hnops
      rw [hkept hnops hflag] at hflag'
      cases hflag'

theorem checkLockTimeVerify_stricter :
    Stricter (checkLockTimeVerify ctx F st) (checkLockTimeVerify ctx F' st) := by
  unfold checkLockTimeVerify
  cases st.stack with
  | nil => exact nop_stricter h _ h.lockTime (.refl _) (.of_error _)
  | cons top _ =>
    refine nop_stricter h _ h.lockTime ((scriptNum_stricter h 5 top).bind_left _) ?_
    exact .bind_rest fun _ => .bind_rest fun _ => .bind_rest fun _ => .ok rfl

theorem checkSequenceVerify_stricter :
    Stricter (checkSequenceVerify ctx F st) (checkSequenceVerify ctx F' st) := by
  unfold checkSequenceVerify
  cases st.stack with
  | nil => exact nop_stricter h _ h.sequence (.refl _) (.of_error _)
  | cons top _ =>
    refine nop_stricter h _ h.sequence ((scriptNum_stricter h 5 top).bind_left _) ?_
    exact .bind_rest fun _ => .bind_rest fun _ => .bind_rest fun _ => .ok rfl

theorem binaryOperands_stricter : Stricter (binaryOperands F st) (binaryOperands F' st) := by
  unfold binaryOperands
  split
  · exact (scriptNum_stricter h _ _).bind fun _ => (scriptNum_stricter h _ _).bind_left _
  · exact .refl _

theorem checkMultiSig_stricter (scriptCode : Bytes) (keys sigs : List Bytes) :
    Stricter (checkMultiSig ctx F scriptCode keys sigs)
    (checkMultiSig ctx F' scriptCode keys sigs) := by
  induction keys generalizing sigs with
  | nil => cases sigs <;> exact .refl _
  | cons vchPubKey keys ih =>
    cases sigs with
    | nil => exact .refl _
    | cons vchSig sigs =>
      exact (checkSignatureEncoding_stricter h _ _).bind fun _ =>
        (checkPubKeyEncoding_stricter h _ _).bind fun _ => .ite (.refl _) (ih _)

theorem popArguments_stricter (fSuccess : Bool) (i ikey2 : Nat) (stack : List Bytes) :
    Stricter (popArguments F fSuccess i ikey2 stack) (popArguments F' fSuccess i ikey2 stack) := by
  induction i generalizing ikey2 stack with
  | zero => exact .refl _
  | succ i ih =>
    cases stack with
    | nil => exact .refl _
    | cons top stack => exact (h.whenFlag _ (.refl _)).bind fun _ => ih _ _

theorem readCount_stricter (max : Nat) (error : ScriptError) (vch : Bytes) :
    Stricter (readCount F max error vch) (readCount F' max error vch) :=
  (scriptNum_stricter h _ _).bind_left _

theorem evalOp_stricter (fExec : Bool) (opcode : Opcode) :
    Stricter (evalOp ctx F fExec st opcode) (evalOp ctx F' fExec st opcode) := by
  cases opcode with
  | OP_CHECKLOCKTIMEVERIFY => exact checkLockTimeVerify_stricter h
  | OP_CHECKSEQUENCEVERIFY => exact checkSequenceVerify_stricter h
  | upgradableNop => exact upgradableNop_stricter h
  | _ =>
    -- the other operations are sequences of parts that are stricter, or do not read the flags
    simp only [evalOp, opIf, opPick, opUnary, opBinary, opNumEqualVerify, opWithin, opCheckSig,
      opCheckMultiSig]
    repeat' first
      | exact .refl _
      | refine (scriptNum_stricter h _ _).bind fun _ => ?_
      | refine (binaryOperands_stricter h).bind fun _ => ?_
      | refine (h.whenFlag _ (.refl _)).bind fun _ => ?_
      | refine (checkSignatureEncoding_stricter h _ _).bind fun _ => ?_
      | refine (checkPubKeyEncoding_stricter h _ _).bind fun _ => ?_
      | refine (readCount_stricter h _ _ _).bind fun _ => ?_
      | refine (checkMultiSig_stricter h _ _ _).bind fun _ => ?_
      | refine (popArguments_stricter h _ _ _ _).bind fun _ => ?_
      | refine .bind (.refl _) fun _ => ?_
      | split

theorem executeOp_stricter (opcode : Byte) (vchPushValue : Bytes) :
    Stricter (executeOp ctx F opcode vchPushValue st) (executeOp ctx F' opcode vchPushValue st) :=
  .ite ((h.whenFlag _ (.refl _)).bind_left _) (.ite (evalOp_stricter h _ _) (.refl _))

theorem evalStep_stricter : Stricter (evalStep ctx F st) (evalStep ctx F' st) := by
  unfold evalStep
  split
  · exact .refl _
  · exact .bind (.refl _) fun _ => .bind (.refl _) fun _ => .bind (.refl _) fun _ =>
      (executeOp_stricter h _ _).bind_left _

theorem evalFrom_stricter (fuel : Nat) (st : EvalState) :
    Stricter (evalFrom ctx F fuel st) (evalFrom ctx F' fuel st) := by
  induction fuel generalizing st with
  | zero => exact .refl _
  | succ fuel ih => exact .ite (.refl _) ((evalStep_stricter h).bind ih)

theorem evalScript_stricter (script : Bytes) (stack : List Bytes) :
    Stricter (evalScript ctx F script stack) (evalScript ctx F' script stack) :=
  .bind (.refl _) fun _ => (evalFrom_stricter h _ _).bind_left _

variable {crypto : ScriptCrypto} {checker : BaseSignatureChecker}

theorem verifyWitnessProgram_stricter (witness : List Bytes) (witversion : Nat)
    (program : Bytes) :
    Stricter (verifyWitnessProgram F crypto checker witness witversion program)
      (verifyWitnessProgram F' crypto checker witness witversion program) :=
  .ite (.bind (.refl _) fun _ => .bind (.refl _) fun _ => (evalScript_stricter h _ _).bind_left _)
    (h.whenFlag _ (.refl _))

theorem evalTrue_stricter (script : Bytes) (stack : List Bytes) :
    Stricter (evalTrue F crypto checker script stack) (evalTrue F' crypto checker script stack) :=
  (evalScript_stricter h _ _).bind_left _

section WithWitness

variable (hwitness : hasFlag F' SCRIPT_VERIFY_WITNESS = true)
include hwitness

theorem runWitness_stricter (script : Bytes) (witness : List Bytes) (clean : Bool)
    (malleated : ScriptError) (stack : List Bytes) :
    Stricter (runWitness F crypto checker script witness clean malleated stack)
      (runWitness F' crypto checker script witness clean malleated stack) := by
  simp only [runWitness, if_pos hwitness, if_pos (h.hasFlag hwitness)]
  cases isWitnessProgram script with
  | none => exact .refl _
  | some versioned =>
    exact .bind (.refl _) fun _ => (verifyWitnessProgram_stricter h _ _ _).bind_left _

variable (hp2sh : hasFlag F' SCRIPT_VERIFY_P2SH = true)
include hp2sh

theorem runScriptHash_stricter (scriptSig scriptPubKey : Bytes) (witness stackCopy : List Bytes)
    (before : Bool × List Bytes) :
    Stricter (runScriptHash F crypto checker scriptSig scriptPubKey witness stackCopy before)
      (runScriptHash F' crypto checker scriptSig scriptPubKey witness stackCopy before) := by
  simp only [runScriptHash, hp2sh, h.hasFlag hp2sh]
  refine .ite (.bind (.refl _) fun _ => ?_) (.refl _)
  cases stackCopy with
  | nil => exact .refl _
  | cons pubKey2 stack =>
    exact (evalTrue_stricter h _ _).bind fun _ =>
      (runWitness_stricter h hwitness _ _ _ _ _).bind_left _

theorem checkEnd_stricter (witness : List Bytes) (hadWitness : Bool) (stack : List Bytes) :
    Stricter (checkEnd F witness hadWitness stack) (checkEnd F' witness hadWitness stack) := by
  have hp2shs := Stricter.require_of_imp (c := hasFlag F SCRIPT_VERIFY_P2SH) (fun _ => hp2sh)
    ScriptFailure.assertion
  refine (h.whenFlag _ (hp2shs.bind fun _ => ?_)).bind fun _ => h.whenFlag _ (hp2shs.bind_left _)
  exact (Stricter.require_of_imp (fun _ => hwitness) _).bind_left _

end WithWitness

end

section WithoutWitness

variable (hwitness : hasFlag F' SCRIPT_VERIFY_WITNESS = false)
include hwitness

theorem runWitness_off (script : Bytes) (witness : List Bytes) (clean : Bool)
    (malleated : ScriptError) (stack : List Bytes) :
    runWitness F' crypto checker script witness clean malleated stack = .ok (false, stack) := by
  rw [runWitness, hwitness]
  rfl

theorem runScriptHash_allows (h : PartOf F' F) (scriptSig scriptPubKey : Bytes)
    (witness stackCopy : List Bytes) (before before' : Bool × List Bytes) :
    Allows (runScriptHash F crypto checker scriptSig scriptPubKey witness stackCopy before)
      (runScriptHash F' crypto checker scriptSig scriptPubKey witness stackCopy before') := by
  cases hp2sh : hasFlag F' SCRIPT_VERIFY_P2SH && isPayToScriptHash scriptPubKey with
  | false =>
    rw [runScriptHash.eq_def F', hp2sh]
    exact .ok _ _
  | true =>
    obtain ⟨hflag, hform⟩ := (Bool.and_eq_true _ _).mp hp2sh
    simp only [runScriptHash, hflag, h.hasFlag hflag, hform, runWitness_off hwitness]
    refine .bind (.refl _) fun _ => ?_
    cases stackCopy with
    | nil => exact fun _ => nofun
    | cons pubKey2 stack => exact .bind (evalTrue_stricter h _ _) fun _ => .ok _ _

theorem checkEnd_off (hcoherent : CoherentFlags F') (witness : List Bytes) (hadWitness : Bool)
    (stack : List Bytes) : checkEnd F' witness hadWitness stack = .ok () := by
  have hclean : hasFlag F' SCRIPT_VERIFY_CLEANSTACK = false := by
    rw [Bool.eq_false_iff]
    intro hclean
    rw [(hcoherent.cleanStack hclean).2] at hwitness
    cases hwitness
  rw [checkEnd, whenFlag, hclean, whenFlag, hwitness]
  rfl

end WithoutWitness

/-- Flags are soft forks: what is accepted under `F` is accepted under a part of it. -/
theorem verifyScript_softFork (h : PartOf F' F) (hcoherent : CoherentFlags F')
    (scriptSig scriptPubKey : Bytes) (witness : List Bytes)
    (hok : verifyScript F crypto checker scriptSig scriptPubKey witness = .ok ()) :
    verifyScript F' crypto checker scriptSig scriptPubKey witness = .ok () := by
  refine (h.whenFlag _ (.refl _)).bind (fun _ => ?_) () hok
  refine (evalScript_stricter h _ _).bind fun stackCopy => ?_
  refine (evalTrue_stricter h _ _).bind fun stack => ?_
  cases hwitness : hasFlag F' SCRIPT_VERIFY_WITNESS with
  | true =>
    have hp2sh := hcoherent.witness hwitness
    refine (runWitness_stricter h hwitness _ _ _ _ _).bind fun bare => ?_
    refine (runScriptHash_stricter h hwitness hp2sh _ _ _ _ _).bind fun final => ?_
    exact checkEnd_stricter h hwitness hp2sh _ _ _
  | false =>
    -- Without witnesses only the inner script of a script hash can still fail.
    rw [runWitness_off hwitness]
    refine .skip fun bare => ?_
    refine (runScriptHash_allows hwitness h _ _ _ _ _ _).bind_unit fun final => ?_
    exact checkEnd_off hwitness hcoherent _ _ _

/-- `OP_1` spends `OP_CHECKLOCKTIMEVERIFY`, which is a NOP before its soft fork. -/
theorem verifyScript_softFork_lockTime :
    let crypto : ScriptCrypto := ⟨id, id, id, fun _ => true⟩
    let checker : BaseSignatureChecker := ⟨fun _ _ _ _ => false, fun n => n == 1, fun _ => false⟩
    verifyScript SCRIPT_VERIFY_CHECKLOCKTIMEVERIFY crypto checker [OP_1] [0xb1] [] = .ok () ∧
      verifyScript 0 crypto checker [OP_1] [0xb1] [] = .ok () := by
  have hpart : PartOf 0 SCRIPT_VERIFY_CHECKLOCKTIMEVERIFY := ⟨by decide, nofun, nofun⟩
  have hcoherent : CoherentFlags 0 := ⟨nofun, nofun⟩
  intro crypto checker
  have hok : verifyScript SCRIPT_VERIFY_CHECKLOCKTIMEVERIFY crypto checker [OP_1] [0xb1]
    [] = .ok () := rfl
  exact ⟨hok, verifyScript_softFork hpart hcoherent _ _ _ hok⟩

end OurChain
