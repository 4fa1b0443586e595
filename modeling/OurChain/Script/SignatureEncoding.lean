import OurChain.Script.Interpreter

/-!
# Strict DER signatures

`IsValidSignatureEncoding` reads a signature at positions that it takes from the length bytes. The
reads stay within it, and what passes is the one encoding of two integers and a hash type.
-/

namespace OurChain

/-- `sig[i]`, with nothing for a read outside of the signature. -/
def readByte (sig : Bytes) (i : Nat) (next : Byte → Option Bool) : Option Bool := sig[i]?.bind next

def isNegative (b : Byte) : Bool := b &&& 0x80 != 0

/-- The three checks of an integer of `len` bytes from `pos` on, before the `next` ones. -/
def readInteger (sig : Bytes) (pos len : Nat) (next : Option Bool) : Option Bool :=
  if len = 0 then some false
  else readByte sig pos fun first =>
    if isNegative first then some false
    else if 1 < len ∧ first = 0 then
      readByte sig (pos + 1) fun second => if !isNegative second then some false else next
    else next

def readSignatureEncoding (sig : Bytes) : Option Bool :=
  if sig.length < 9 then some false
  else if sig.length > 73 then some false
  else readByte sig 0 fun compound =>
  if compound ≠ 0x30 then some false
  else readByte sig 1 fun total =>
  if total.toNat ≠ sig.length - 3 then some false
  else readByte sig 3 fun lenR =>
  if 5 + lenR.toNat ≥ sig.length then some false
  else readByte sig (5 + lenR.toNat) fun lenS =>
  if lenR.toNat + lenS.toNat + 7 ≠ sig.length then some false
  else readByte sig 2 fun typeR =>
  if typeR ≠ 0x02 then some false
  else readInteger sig 4 lenR.toNat <| readByte sig (lenR.toNat + 4) fun typeS =>
  if typeS ≠ 0x02 then some false
  else readInteger sig (lenR.toNat + 6) lenS.toNat (some true)

theorem readByte_of_lt (h : i < sig.length) (next : Byte → Option Bool) :
    readByte sig i next = next (sig.getD i 0) := by
  rw [readByte, List.getD_eq_getElem?_getD, List.getElem?_eq_getElem h]
  rfl

theorem readInteger_eq (h : pos + len < sig.length) (next : Option Bool) :
    readInteger sig pos len next = if isValidInteger sig pos len then next else some false := by
  unfold readInteger isValidInteger isNegative
  by_cases hlen : len = 0
  · simp [hlen]
  rw [if_neg hlen, readByte_of_lt (by omega)]
  generalize sig.getD pos 0 = first
  by_cases hmore : 1 < len ∧ first = 0
  · rw [if_pos hmore, readByte_of_lt (by omega)]
    generalize sig.getD (pos + 1) 0 = second
    rw [hmore.2]
    by_cases hsecond : second &&& 0x80#8 = 0 <;> simp [hlen, hmore.1, hsecond]
  · rw [if_neg hmore]
    by_cases hfirst : first &&& 0x80#8 = 0#8
    · by_cases hone : 1 < len
      · simp [hlen, hfirst, show first ≠ 0#8 from fun hzero => hmore ⟨hone, hzero⟩]
      · simp [hlen, hfirst, hone]
    · simp [hlen, hfirst]

theorem readSignatureEncoding_eq (sig : Bytes) :
    readSignatureEncoding sig = some (isValidSignatureEncoding sig) := by
  unfold readSignatureEncoding isValidSignatureEncoding
  by_cases hmin : sig.length < 9
  · simp only [if_pos hmin, decide_eq_false (Nat.not_le.mpr hmin), Bool.false_and]
  by_cases hmax : sig.length > 73
  · simp only [if_neg hmin, if_pos hmax, decide_eq_false (Nat.not_le.mpr hmax), Bool.and_false,
      Bool.false_and]
  rw [if_neg hmin, if_neg hmax, readByte_of_lt (by omega)]
  by_cases hcompound : sig.getD 0 0 = 0x30
  swap
  · simp only [if_pos hcompound, beq_eq_false_iff_ne.mpr hcompound, Bool.and_false, Bool.false_and]
  rw [if_neg (not_not.mpr hcompound), readByte_of_lt (by omega)]
  by_cases htotal : (sig.getD 1 0).toNat = sig.length - 3
  swap
  · simp only [if_pos htotal, beq_eq_false_iff_ne.mpr htotal, Bool.and_false, Bool.false_and]
  rw [if_neg (not_not.mpr htotal), readByte_of_lt (by omega)]
  by_cases hinside : 5 + (sig.getD 3 0).toNat ≥ sig.length
  · simp only [if_pos hinside, decide_eq_false (Nat.not_lt.mpr hinside), Bool.and_false,
      Bool.false_and]
  rw [if_neg hinside, readByte_of_lt (by omega)]
  by_cases hsum :
      (sig.getD 3 0).toNat + (sig.getD (5 + (sig.getD 3 0).toNat) 0).toNat + 7 = sig.length
  swap
  · simp only [if_pos hsum, beq_eq_false_iff_ne.mpr hsum, Bool.and_false, Bool.false_and]
  rw [if_neg (not_not.mpr hsum), readByte_of_lt (by omega)]
  by_cases htype : sig.getD 2 0 = 0x02
  swap
  · simp only [if_pos htype, beq_eq_false_iff_ne.mpr htype, Bool.and_false, Bool.false_and]
  rw [if_neg (not_not.mpr htype), readInteger_eq (by omega), readByte_of_lt (by omega),
    readInteger_eq (by omega)]
  -- what is left is the conjunction of the last three checks
  simp only [hcompound, htotal, hsum, htype, Nat.not_lt.mp hmin, Nat.not_lt.mp hmax,
    Nat.lt_of_not_ge hinside, decide_true, beq_self_eq_true, Bool.true_and]
  generalize isValidInteger sig 4 _ = okR
  generalize isValidInteger sig _ _ = okS
  generalize sig.getD _ 0 = typeS
  by_cases htypeS : typeS = 2#8 <;> cases okR <;> cases okS <;> simp [htypeS]

/-- A big-endian integer in its shortest form and not negative: a leading zero byte only in
front of a byte that would make it negative. -/
def StrictInteger : Bytes → Prop
  | [] => False
  | [first] => isNegative first = false
  | first :: second :: _ => isNegative first = false ∧ (first = 0 → isNegative second = true)

theorem StrictInteger.length_pos (h : StrictInteger r) : 0 < r.length := by
  cases r with
  | nil => exact h.elim
  | cons => simp

/-- The one encoding of the integers `r` and `s`, and a hash type. -/
def StrictDER (sig : Bytes) : Prop :=
  ∃ total lenR r lenS s hashType,
    sig = 0x30 :: total :: 0x02 :: lenR :: (r ++ 0x02 :: lenS :: (s ++ [hashType])) ∧
    total.toNat = 2 + r.length + (2 + s.length) ∧ lenR.toNat = r.length ∧ lenS.toNat = s.length ∧
    StrictInteger r ∧ StrictInteger s ∧ 9 ≤ sig.length ∧ sig.length ≤ 73

theorem isValidInteger_append (before r after : Bytes) :
    isValidInteger (before ++ (r ++ after)) before.length r.length = true ↔ StrictInteger r := by
  match r with
  | [] => simp [isValidInteger, StrictInteger]
  | [first] => simp [isValidInteger, StrictInteger, isNegative]
  | first :: second :: rest =>
    have hpadded : (first = 0#8 → ¬second &&& 128#8 = 0#8) ↔
      (¬first = 0#8 ∨ ¬second &&& 128#8 = 0#8) :=
      imp_iff_not_or
    simp [isValidInteger, StrictInteger, isNegative, hpadded]

theorem isValidSignatureEncoding_split {compound total typeR lenR typeS lenS hashType : Byte}
    {r s : Bytes} (hR : lenR.toNat = r.length) (hS : lenS.toNat = s.length) :
    isValidSignatureEncoding (compound :: total :: typeR :: lenR ::
    (r ++ typeS :: lenS :: (s ++ [hashType]))) =
        true ↔
      (compound = 0x30 ∧ typeR = 0x02 ∧ typeS = 0x02) ∧ total.toNat = 2 + r.length + (2 + s.length) ∧
        StrictInteger r ∧ StrictInteger s ∧ r.length + s.length ≤ 66 := by
  generalize hsig : compound :: total :: typeR :: lenR ::
    (r ++ typeS :: lenS :: (s ++ [hashType])) = sig
  have hlength : sig.length = r.length + s.length + 7 := by
    simp [← hsig]
    omega
  have hcompound : sig.getD 0 0 = compound := by simp [← hsig]
  have htotal : sig.getD 1 0 = total := by simp [← hsig]
  have htypeR : sig.getD 2 0 = typeR := by simp [← hsig]
  have hlenR : sig.getD 3 0 = lenR := by simp [← hsig]
  have htypeS : sig.getD (r.length + 4) 0 = typeS := by simp [← hsig]
  have hlenS : sig.getD (5 + r.length) 0 = lenS := by
    rw [← hsig, show 5 + r.length = r.length + 1 + 4 by omega]
    simp
  have hstartR : isValidInteger sig 4 r.length = true ↔ StrictInteger r := by
    rw [← hsig]
    exact isValidInteger_append [compound, total, typeR, lenR] r _
  have hstartS : isValidInteger sig (r.length + 6) s.length = true ↔ StrictInteger s := by
    have hstart := isValidInteger_append ([compound, total, typeR, lenR] ++ r ++ [typeS,
      lenS]) s [hashType]
    simpa [← hsig] using hstart
  simp only [isValidSignatureEncoding, hlength, hcompound, htotal, htypeR, hlenR, hR,
    htypeS, hlenS, hS, Bool.and_eq_true, decide_eq_true_eq, beq_iff_eq, hstartR, hstartS]
  constructor
  · rintro ⟨⟨⟨⟨⟨⟨⟨⟨⟨-, hmax⟩, h30⟩, htotal⟩, -⟩, -⟩, h2⟩, hr⟩, h2'⟩, hs⟩
    exact ⟨⟨h30, h2, h2'⟩, by omega, hr, hs, by omega⟩
  · rintro ⟨⟨h30, h2, h2'⟩, htotal, hr, hs, hmax⟩
    have hr' := hr.length_pos
    have hs' := hs.length_pos
    exact ⟨⟨⟨⟨⟨⟨⟨⟨⟨by omega, by omega⟩, h30⟩, by omega⟩, by omega⟩, trivial⟩, h2⟩, hr⟩, h2'⟩, hs⟩

theorem exists_cons_cons {l : Bytes} (h : 2 ≤ l.length) : ∃ a b rest, l = a :: b :: rest := by
  match l with
  | [] | [_] => simp at h
  | a :: b :: rest => exact ⟨a, b, rest, rfl⟩

theorem exists_split (h : isValidSignatureEncoding sig = true) :
    ∃ compound total typeR lenR r typeS lenS s hashType,
      sig = compound :: total :: typeR :: lenR :: (r ++ typeS :: lenS :: (s ++ [hashType])) ∧
      lenR.toNat = r.length ∧ lenS.toNat = s.length := by
  simp only [isValidSignatureEncoding, Bool.and_eq_true, decide_eq_true_eq, beq_iff_eq] at h
  obtain ⟨⟨⟨⟨⟨⟨⟨⟨⟨hmin, -⟩, -⟩, -⟩, hinside⟩, hsum⟩, -⟩, -⟩, -⟩, -⟩ := h
  obtain ⟨compound, total, before, rfl⟩ := exists_cons_cons (show 2 ≤ sig.length by omega)
  rw [List.length_cons, List.length_cons] at hmin
  obtain ⟨typeR, lenR, rest, rfl⟩ := exists_cons_cons (show 2 ≤ before.length by omega)
  simp only [List.getD_cons_succ, List.getD_cons_zero, List.length_cons] at hinside hsum
  -- the rest after `R` starts with the type and the length of `S`
  obtain ⟨typeS, lenS, tail, htail⟩ := exists_cons_cons
    (show 2 ≤ (rest.drop lenR.toNat).length by simp; omega)
  have hrest : rest = rest.take lenR.toNat ++ typeS :: lenS :: tail := by
    rw [← htail, List.take_append_drop]
  have hlenR : (rest.take lenR.toNat).length = lenR.toNat := by
    rw [List.length_take]
    omega
  generalize rest.take lenR.toNat = r at hrest hlenR
  subst hrest
  have hlenS : (compound :: total :: typeR :: lenR :: (r ++ typeS :: lenS :: tail)).getD
    (5 + lenR.toNat) 0 = lenS := by
    rw [← hlenR, show 5 + r.length = r.length + 1 + 4 by omega]
    simp
  rw [hlenS, List.length_append, List.length_cons, List.length_cons] at hsum
  -- and the hash type is what `S` leaves of the tail
  have hne : tail ≠ [] := by
    rintro rfl
    simp at hsum
    omega
  refine ⟨compound, total, typeR, lenR, r, typeS, lenS, tail.dropLast, tail.getLast hne, ?_,
    hlenR.symm, ?_⟩
  · rw [List.dropLast_append_getLast]
  · rw [List.length_dropLast]
    omega

/-- The check never reads outside of the signature, and accepts strict DER and nothing else. -/
theorem isValidSignatureEncoding_iff_strictDER (sig : Bytes) :
    readSignatureEncoding sig = some (isValidSignatureEncoding sig) ∧
    (isValidSignatureEncoding sig = true ↔ StrictDER sig) := by
  refine ⟨readSignatureEncoding_eq sig, ?_⟩
  constructor
  · intro h
    obtain ⟨compound, total, typeR, lenR, r, typeS, lenS, s, hashType, rfl, hR, hS⟩ := exists_split h
    obtain ⟨⟨rfl, rfl, rfl⟩, htotal, hr, hs, hsize⟩ := (isValidSignatureEncoding_split hR hS).mp h
    refine ⟨total, lenR, r, lenS, s, hashType, rfl, htotal, hR, hS, hr, hs, ?_, ?_⟩
    · have hr' := hr.length_pos
      have hs' := hs.length_pos
      simp
      omega
    · simp
      omega
  · rintro ⟨total, lenR, r, lenS, s, hashType, rfl, htotal, hR, hS, hr, hs, -, hmax⟩
    refine (isValidSignatureEncoding_split hR hS).mpr ⟨⟨rfl, rfl, rfl⟩, htotal, hr, hs, ?_⟩
    simp at hmax
    omega

end OurChain
