import OurChain.Script.SignatureHash

/-!
# The script code of a signature

The legacy serializer counts the separators in one pass and copies what stands between them in a
second one. Both follow `GetOp`, which stops inside an operation that the script cuts off.
-/

namespace OurChain

open List hiding tail

/-- How many bytes after the opcode give the size of the operand. -/
def sizeBytes (opcode : Byte) : Nat :=
  if opcode = OP_PUSHDATA1 then 1 else if opcode = OP_PUSHDATA2 then 2
  else if opcode = OP_PUSHDATA4 then 4
  else 0

def operandSize (opcode : Byte) (size : Bytes) : Nat :=
  if opcode < OP_PUSHDATA1 then opcode.toNat else ofLeBytes size

def IsInstruction (op : Bytes) : Prop :=
  ∃ opcode size data, op = opcode :: (size ++ data) ∧ size.length = sizeBytes opcode ∧
    data.length = operandSize opcode size

/-- The script is the instructions `ops`, and a tail in which no instruction is complete. -/
structure Splits (script : Bytes) (ops : List Bytes) (tail : Bytes) : Prop where
  whole : script = ops.flatten ++ tail
  complete : ∀ op ∈ ops, IsInstruction op
  ends : ∀ op rest, tail = op ++ rest → ¬IsInstruction op

theorem getOp_cons (opcode : Byte) (pc : Bytes) :
    getOp (opcode :: pc) =
      match Codec.takeBytes (sizeBytes opcode) pc with
      | none => (none, pc)
      | some (size, pc) =>
        if pc.length < operandSize opcode size then (none, pc)
        else (some opcode, pc.drop (operandSize opcode size)) := by
  unfold getOp pushSize sizeBytes operandSize
  by_cases hdirect : opcode < OP_PUSHDATA1
  · have hpush : opcode ≤ OP_PUSHDATA4 := by
      unfold OP_PUSHDATA1 OP_PUSHDATA4 at *
      bv_omega
    have hnone : opcode ≠ OP_PUSHDATA1 ∧ opcode ≠ OP_PUSHDATA2 ∧ opcode ≠ OP_PUSHDATA4 := by
      unfold OP_PUSHDATA1 OP_PUSHDATA2 OP_PUSHDATA4 at *
      bv_omega
    simp [hdirect, hpush, hnone, Codec.takeBytes]
  · by_cases hpush : opcode ≤ OP_PUSHDATA4
    · have hlast : opcode ≠ OP_PUSHDATA1 → opcode ≠ OP_PUSHDATA2 → opcode = OP_PUSHDATA4 := by
        unfold OP_PUSHDATA1 OP_PUSHDATA2 OP_PUSHDATA4 at *
        bv_omega
      have hbytes : (if opcode = OP_PUSHDATA1 then 1 else if opcode = OP_PUSHDATA2 then 2
          else if opcode = OP_PUSHDATA4 then 4 else 0) =
          (if opcode = OP_PUSHDATA1 then 1 else if opcode = OP_PUSHDATA2 then 2 else 4) := by
        grind
      rw [hbytes]
      simp only [hpush, hdirect, if_true, if_false]
      cases Codec.takeBytes _ pc <;> rfl
    · have hnone : opcode ≠ OP_PUSHDATA1 ∧ opcode ≠ OP_PUSHDATA2 ∧ opcode ≠ OP_PUSHDATA4 := by
        unfold OP_PUSHDATA1 OP_PUSHDATA2 OP_PUSHDATA4 at *
        bv_omega
      simp [hdirect, hpush, hnone, Codec.takeBytes, ofLeBytes]

theorem getOp_instruction {opcode : Byte} {size data : Bytes} (hsize : size.length = sizeBytes opcode)
    (hdata : data.length = operandSize opcode size) (rest : Bytes) :
    getOp (opcode :: (size ++ data) ++ rest) = (some opcode, rest) := by
  rw [cons_append, append_assoc, getOp_cons, Codec.takeBytes_append hsize]
  simp [← hdata]

theorem instruction_of_getOp (h : getOp pc = (some opcode, rest)) :
    ∃ size data, pc = opcode :: (size ++ data) ++ rest ∧ size.length = sizeBytes opcode ∧
      data.length = operandSize opcode size := by
  cases pc with
  | nil => simp [getOp] at h
  | cons first pc =>
    rw [getOp_cons] at h
    split at h
    · simp at h
    · rename_i size pc' htake
      split at h
      · simp at h
      · rename_i hlength
        obtain ⟨hsize, rfl⟩ := Codec.takeBytes_eq_some htake
        obtain ⟨rfl, rfl⟩ : first = opcode ∧ pc'.drop (operandSize first size) = rest := by
          simpa using h
        refine ⟨size, pc'.take (operandSize first size), ?_, hsize, ?_⟩
        · simp
        · rw [length_take]
          omega

theorem Splits.getOp_tail (h : Splits script ops tail) : (getOp tail).1 = none := by
  cases hop : (getOp tail).1 with
  | none => rfl
  | some opcode =>
    obtain ⟨size, data, hwhole, hsize, hdata⟩ := instruction_of_getOp (Prod.ext hop rfl)
    exact absurd ⟨opcode, size, data, rfl, hsize, hdata⟩ (h.ends _ _ hwhole)

theorem not_instruction_of_getOp (h : (getOp tail).1 = none) :
    ∀ op rest, tail = op ++ rest → ¬IsInstruction op := by
  rintro _ rest rfl ⟨opcode, size, data, rfl, hsize, hdata⟩
  rw [getOp_instruction hsize hdata] at h
  simp at h

theorem splits_exists (script : Bytes) : ∃ ops tail, Splits script ops tail := by
  induction hn : script.length using Nat.strong_induction_on generalizing script with
  | _ n ih =>
    cases hop : getOp script with
    | mk read rest =>
      cases read with
      | none => exact ⟨[], script, rfl, by simp, not_instruction_of_getOp (by rw [hop])⟩
      | some opcode =>
        obtain ⟨size, data, rfl, hsize, hdata⟩ := instruction_of_getOp hop
        obtain ⟨ops, tail, hsplit⟩ := ih rest.length (by simp [← hn]; omega) rest rfl
        refine ⟨(opcode :: (size ++ data)) :: ops, tail, ?_, ?_, hsplit.ends⟩
        · rw [flatten_cons, append_assoc, ← hsplit.whole]
        · rintro op (_ | ⟨_, hop⟩)
          · exact ⟨opcode, size, data, rfl, hsize, hdata⟩
          · exact hsplit.complete op hop

theorem IsInstruction.getOp (h : IsInstruction op) :
    ∃ opcode, (∀ rest, getOp (op ++ rest) = (some opcode, rest)) ∧
      (opcode = OP_CODESEPARATOR ↔ op = [OP_CODESEPARATOR]) := by
  obtain ⟨opcode, size, data, rfl, hsize, hdata⟩ := h
  refine ⟨opcode, getOp_instruction hsize hdata, ?_⟩
  constructor
  · rintro rfl
    have hempty : size = [] := length_eq_zero_iff.mp hsize
    subst hempty
    have hnone : data = [] := length_eq_zero_iff.mp hdata
    rw [hnone, append_nil]
  · intro h
    exact (cons.inj h).1

theorem Splits.step (h : Splits script (op :: ops) tail) :
    ∃ opcode rest, script = op ++ rest ∧ rest.length < script.length ∧
    getOp script = (some opcode, rest) ∧
      (opcode = OP_CODESEPARATOR ↔ op = [OP_CODESEPARATOR]) ∧ Splits rest ops tail := by
  have hop := h.complete op (mem_cons_self ..)
  obtain ⟨opcode, hget, hsep⟩ := hop.getOp
  obtain rfl : script = op ++ (ops.flatten ++ tail) := by simpa using h.whole
  refine ⟨opcode, _, rfl, ?_, hget _, hsep, ⟨rfl, ?_, h.ends⟩⟩
  · obtain ⟨first, size, data, rfl, -⟩ := hop
    simp
    omega
  · intro op' hop'
    exact h.complete op' (mem_cons_of_mem _ hop')

theorem Splits.unique (h : Splits script ops tail) (h' : Splits script ops' tail') :
    ops = ops' ∧ tail = tail' := by
  induction ops generalizing script ops' with
  | nil =>
    cases ops' with
    | nil => exact ⟨rfl, by simpa using h.whole.symm.trans h'.whole⟩
    | cons op' ops' =>
      have hstarts : tail = op' ++ (ops'.flatten ++ tail') := by
        simpa using h.whole.symm.trans h'.whole
      exact absurd (h'.complete op' (mem_cons_self ..)) (h.ends _ _ hstarts)
  | cons op ops ih =>
    obtain ⟨opcode, rest, hscript, -, hget, -, hsplit⟩ := h.step
    cases ops' with
    | nil =>
      have hstarts : tail' = op ++ rest := by simpa [hscript] using h'.whole.symm
      exact absurd (h.complete op (mem_cons_self ..)) (h'.ends _ _ hstarts)
    | cons op' ops' =>
      obtain ⟨opcode', rest', hscript', -, hget', -, hsplit'⟩ := h'.step
      obtain ⟨-, rfl⟩ := Prod.mk.inj (hget.symm.trans hget')
      obtain rfl := append_cancel_right (hscript.symm.trans hscript')
      obtain ⟨rfl, rfl⟩ := ih hsplit hsplit'
      exact ⟨rfl, rfl⟩

def stripped (ops : List Bytes) (tail : Bytes) : Bytes :=
  (ops.filter (· ≠ [OP_CODESEPARATOR])).flatten ++ tail

section
variable (h : Splits script ops tail)
include h

theorem countSeparators_eq (hfuel : script.length < fuel) :
    countSeparators fuel script = ops.count [OP_CODESEPARATOR] := by
  induction ops generalizing script fuel with
  | nil =>
    obtain rfl : script = tail := h.whole
    obtain ⟨fuel, rfl⟩ := Nat.exists_eq_add_one.mpr (Nat.zero_lt_of_lt hfuel)
    rw [countSeparators, show getOp script = (none, (getOp script).2) from Prod.ext h.getOp_tail rfl]
    rfl
  | cons op ops ih =>
    obtain ⟨fuel, rfl⟩ := Nat.exists_eq_add_one.mpr (Nat.zero_lt_of_lt hfuel)
    obtain ⟨opcode, rest, -, hshorter, hget, hsep, hsplit⟩ := h.step
    have hfuel' : rest.length < fuel := by omega
    rw [countSeparators, hget]
    simp only [ih hsplit hfuel', hsep, count_cons, beq_iff_eq, Nat.add_comm]

theorem withoutSeparators_eq (hfuel : script.length < fuel) (pending : Bytes) :
    withoutSeparators fuel pending script =
      pending ++ stripped ops (tail.take (tail.length - (getOp tail).2.length)) := by
  induction ops generalizing script fuel pending with
  | nil =>
    obtain rfl : script = tail := h.whole
    obtain ⟨fuel, rfl⟩ := Nat.exists_eq_add_one.mpr (Nat.zero_lt_of_lt hfuel)
    rw [withoutSeparators,
      show getOp script = (none, (getOp script).2) from Prod.ext h.getOp_tail rfl]
    simp [stripped]
  | cons op ops ih =>
    obtain ⟨fuel, rfl⟩ := Nat.exists_eq_add_one.mpr (Nat.zero_lt_of_lt hfuel)
    obtain ⟨opcode, rest, rfl, hshorter, hget, hsep, hsplit⟩ := h.step
    have hread : (op ++ rest).take ((op ++ rest).length - rest.length) = op := by simp
    have hfuel' : rest.length < fuel := by omega
    rw [withoutSeparators, hget]
    simp only [hread, ih hsplit hfuel']
    by_cases hop : op = [OP_CODESEPARATOR]
    · simp [hsep.mpr hop, hop, stripped]
    · simp [mt hsep.mp hop, hop, stripped]

theorem length_stripped :
    (stripped ops tail).length + ops.count [OP_CODESEPARATOR] = script.length := by
  induction ops generalizing script with
  | nil => simp [h.whole, stripped]
  | cons op ops ih =>
    obtain ⟨opcode, rest, rfl, -, -, -, hsplit⟩ := h.step
    have hrest := ih hsplit
    by_cases hop : op = [OP_CODESEPARATOR]
    · simp [hop, stripped] at hrest ⊢
      omega
    · simp [hop, stripped] at hrest ⊢
      omega

end

/-- The tail is cut off directly behind an opcode, or behind the bytes that give the size of its
operand. -/
def EndsBeforeOperand : Bytes → Prop
  | [] => True
  | opcode :: rest => rest.length = 0 ∨ rest.length = sizeBytes opcode

theorem getOp_reaches_end (h : (getOp tail).1 = none) :
    (getOp tail).2 = [] ↔ EndsBeforeOperand tail := by
  cases tail with
  | nil => simp [getOp, EndsBeforeOperand]
  | cons opcode pc =>
    rw [getOp_cons] at h ⊢
    cases htake : Codec.takeBytes (sizeBytes opcode) pc with
    | none =>
      have hshort : pc.length < sizeBytes opcode := by
        simpa [Codec.takeBytes] using htake
      simp [EndsBeforeOperand]
      omega
    | some read =>
      obtain ⟨size, rest⟩ := read
      obtain ⟨hsize, rfl⟩ := Codec.takeBytes_eq_some htake
      rw [htake] at h
      have hcut : rest.length < operandSize opcode size := by
        by_contra hall
        simp [hall] at h
      simp [EndsBeforeOperand, hcut, ← hsize]

/-- What is written is announced by its size, and is the script without its separators, exactly
when the script is not cut off inside an operand or inside the bytes that give the operand's
size. -/
theorem serializeScriptCode_iff (script : Bytes) :
    (∃! split : List Bytes × Bytes, Splits script split.1 split.2) ∧
    ∀ ops tail, Splits script ops tail →
      ((∃ n written, serializeScriptCode script = writeCompactSize n ++ written ∧ written.length = n ∧
          written = stripped ops tail) ↔
        EndsBeforeOperand tail) := by
  refine ⟨?_, ?_⟩
  · obtain ⟨ops, tail, h⟩ := splits_exists script
    refine ⟨(ops, tail), h, ?_⟩
    rintro ⟨ops', tail'⟩ h'
    obtain ⟨rfl, rfl⟩ := h'.unique h
    rfl
  · intro ops tail h
    have hsize : script.length - countSeparators (script.length + 1) script =
      (stripped ops tail).length := by
      rw [countSeparators_eq h (Nat.lt_succ_self _), ← length_stripped h, Nat.add_sub_cancel]
    rw [← getOp_reaches_end h.getOp_tail, serializeScriptCode, hsize,
      withoutSeparators_eq h (Nat.lt_succ_self _), nil_append]
    constructor
    · rintro ⟨_, _, hwrites, rfl, rfl⟩
      have htake : tail.take (tail.length - (getOp tail).2.length) = tail :=
        append_cancel_left (append_cancel_left hwrites)
      cases htail : tail with
      | nil => rfl
      | cons =>
        have hall : tail.length ≤ tail.length - (getOp tail).2.length :=
          take_eq_self_iff tail |>.mp htake
        have hpos : 0 < tail.length := by simp [htail]
        rw [← htail, ← length_eq_zero_iff]
        omega
    · intro hend
      refine ⟨_, stripped ops tail, ?_, rfl, rfl⟩
      simp [hend]

theorem serializeScriptCode_iff_separator :
    ∃ n written, serializeScriptCode [0x51, 0xab, 0x4c] = writeCompactSize n ++ written ∧
    written.length = n ∧
      written = stripped [[0x51], [0xab]] [0x4c] := by
  have hops : ∀ op ∈ [[(0x51 : Byte)], [0xab]], IsInstruction op := by
    rintro op (_ | ⟨_, _ | ⟨_, ⟨⟩⟩⟩)
    · exact ⟨0x51, [], [], rfl, rfl, rfl⟩
    · exact ⟨0xab, [], [], rfl, rfl, rfl⟩
  have hsplit : Splits [0x51, 0xab, 0x4c] [[0x51], [0xab]] [0x4c] :=
    ⟨rfl, hops, not_instruction_of_getOp (by decide)⟩
  exact ((serializeScriptCode_iff _).2 _ _ hsplit).mpr (.inl rfl)

/-- A signature check followed by a push of five bytes of which one is there: three bytes are
announced and two are written. -/
theorem serializeScriptCode_cut_operand :
    serializeScriptCode [0xac, 0x05, 0x01] = writeCompactSize 3 ++ [0xac, 0x05] ∧
    ¬∃ n written, serializeScriptCode [0xac, 0x05, 0x01] = writeCompactSize n ++ written ∧
    written.length = n := by
  have hwrites : serializeScriptCode [0xac, 0x05, 0x01] = writeCompactSize 3 ++ [0xac, 0x05] := by
    decide
  refine ⟨hwrites, ?_⟩
  rintro ⟨n, written, heq, hlength⟩
  have htotal : (writeCompactSize n ++ written).length = 3 := by rw [← heq, hwrites]; rfl
  rw [length_append, hlength] at htotal
  obtain ⟨rfl, rfl⟩ := prefixFree_writeCompactSize (by decide) (by omega) (hwrites.symm.trans heq)
  simp at hlength

end OurChain
