import Mathlib

/-!
# Byte codecs

A codec is a writer and a reader over byte strings together with the two laws
that make them a format: what is written is read back whatever follows it, and
what is read was written, byte for byte. `Ok` is the set of values the reader
can return; a value outside it is written but never read back.

The combinators follow the way hand-written serializers are built: fixed-width
little-endian integers, fields in sequence, a field whose format depends on an
earlier one, a field that is left out, and a counted list.
-/

namespace OurChain

open List Option

abbrev Byte := BitVec 8
abbrev Bytes := List Byte

structure Codec (α : Type) where
  write : α → Bytes
  read : Bytes → Option (α × Bytes)
  Ok : α → Prop
  read_write : ∀ a rest, Ok a → read (write a ++ rest) = some (a, rest)
  write_read : ∀ bs a rest, read bs = some (a, rest) → Ok a ∧ bs = write a ++ rest

/-- The `n` low bytes of a number, least significant first. -/
def leBytes : Nat → Nat → Bytes
  | 0, _ => []
  | n + 1, x => BitVec.ofNat 8 x :: leBytes n (x / 256)

def ofLeBytes : Bytes → Nat
  | [] => 0
  | b :: bs => b.toNat + 256 * ofLeBytes bs

@[simp] theorem length_leBytes (n x : Nat) : (leBytes n x).length = n := by
  induction n generalizing x with
  | zero => rfl
  | succ n ih => simp [leBytes, ih]

theorem ofLeBytes_leBytes (n x : Nat) : ofLeBytes (leBytes n x) = x % 256 ^ n := by
  induction n generalizing x with
  | zero => simp [leBytes, ofLeBytes, Nat.mod_one]
  | succ n ih =>
    have hsplit : x % 256 ^ (n + 1) = x % 256 + 256 * (x / 256 % 256 ^ n) := by
      rw [Nat.pow_succ, Nat.mul_comm, Nat.mod_mul]
    simp only [leBytes, ofLeBytes, BitVec.toNat_ofNat, ih, hsplit]

theorem leBytes_ofLeBytes (bs : Bytes) : leBytes bs.length (ofLeBytes bs) = bs := by
  induction bs with
  | nil => rfl
  | cons b bs ih =>
    have hdiv : (b.toNat + 256 * ofLeBytes bs) / 256 = ofLeBytes bs := by
      omega
    have hhead : BitVec.ofNat 8 (b.toNat + 256 * ofLeBytes bs) = b := by
      apply BitVec.eq_of_toNat_eq
      simp only [BitVec.toNat_ofNat]
      omega
    simp only [length_cons, ofLeBytes, leBytes, hdiv, hhead, ih]

theorem ofLeBytes_lt (bs : Bytes) : ofLeBytes bs < 256 ^ bs.length := by
  induction bs with
  | nil => simp [ofLeBytes]
  | cons b bs ih =>
    simp only [ofLeBytes, length_cons, Nat.pow_succ]
    omega

namespace Codec

def takeBytes (n : Nat) (bs : Bytes) : Option (Bytes × Bytes) :=
  if bs.length < n then none else some (bs.take n, bs.drop n)

theorem takeBytes_append (h : a.length = n) : takeBytes n (a ++ rest) = some (a, rest) := by
  subst h
  simp [takeBytes]

theorem takeBytes_eq_some (h : takeBytes n bs = some (a, rest)) :
    a.length = n ∧ bs = a ++ rest := by
  unfold takeBytes at h
  split at h
  · cases h
  · cases h
    refine ⟨?_, (take_append_drop n bs).symm⟩
    rw [length_take]
    omega

def uint (w n : Nat) (hw : 2 ^ w = 256 ^ n) : Codec (BitVec w) where
  write x := leBytes n x.toNat
  read bs := (takeBytes n bs).map fun (a, rest) => (BitVec.ofNat w (ofLeBytes a), rest)
  Ok _ := True
  read_write x rest _ := by
    rw [takeBytes_append (length_leBytes n _)]
    simp only [map_some, ofLeBytes_leBytes, ← hw, Nat.mod_eq_of_lt x.isLt,
      BitVec.ofNat_toNat, BitVec.setWidth_eq]
  write_read bs x rest h := by
    obtain ⟨⟨a, rest'⟩, ha, heq⟩ := map_eq_some_iff.mp h
    cases heq
    obtain ⟨hlen, rfl⟩ := takeBytes_eq_some ha
    refine ⟨trivial, ?_⟩
    have hlt : ofLeBytes a < 2 ^ w := by
      rw [hw, ← hlen]
      exact ofLeBytes_lt a
    rw [BitVec.toNat_ofNat, Nat.mod_eq_of_lt hlt, ← hlen, leBytes_ofLeBytes]

def u8 : Codec (BitVec 8) := uint 8 1 (by norm_num)
def u32 : Codec (BitVec 32) := uint 32 4 (by norm_num)
def u64 : Codec (BitVec 64) := uint 64 8 (by norm_num)
def u256 : Codec (BitVec 256) := uint 256 32 (by norm_num)

/-- A field that is not on the wire: nothing is written and the reader supplies `a`. -/
def absent (a : α) : Codec α where
  write _ := []
  read bs := some (a, bs)
  Ok x := x = a
  read_write x rest h := by rw [h]; rfl
  write_read bs x rest h := by cases h; exact ⟨rfl, rfl⟩

/-- Two fields in sequence, the format of the second chosen by the first. -/
def bind (c : Codec α) (d : α → Codec β) : Codec (α × β) where
  write x := c.write x.1 ++ (d x.1).write x.2
  read bs := do
    let (a, bs) ← c.read bs
    let (b, bs) ← (d a).read bs
    return ((a, b), bs)
  Ok x := c.Ok x.1 ∧ (d x.1).Ok x.2
  read_write x rest h := by
    simp [append_assoc, c.read_write x.1 _ h.1, (d x.1).read_write x.2 _ h.2]
  write_read bs x rest h := by
    simp only [bind_eq_bind, bind_eq_some_iff, Option.pure_def] at h
    obtain ⟨⟨a, bs₁⟩, ha, ⟨b, bs₂⟩, hb, heq⟩ := h
    cases heq
    obtain ⟨hoka, rfl⟩ := c.write_read _ _ _ ha
    obtain ⟨hokb, rfl⟩ := (d a).write_read _ _ _ hb
    exact ⟨⟨hoka, hokb⟩, by simp⟩

def seq (c : Codec α) (d : Codec β) : Codec (α × β) := c.bind fun _ => d

def iso (c : Codec α) (f : α → β) (g : β → α) (hfg : ∀ b, f (g b) = b) (hgf : ∀ a, g (f a) = a) :
    Codec β where
  write b := c.write (g b)
  read bs := (c.read bs).map fun (a, rest) => (f a, rest)
  Ok b := c.Ok (g b)
  read_write b rest h := by rw [c.read_write _ _ h]; simp [hfg]
  write_read bs b rest h := by
    obtain ⟨⟨a, rest'⟩, ha, heq⟩ := map_eq_some_iff.mp h
    cases heq
    rw [hgf]
    exact c.write_read _ _ _ ha

def writeMany (write : α → Bytes) (as : List α) : Bytes := as.flatMap write

def readMany (read : Bytes → Option (α × Bytes)) : Nat → Bytes → Option (List α × Bytes)
  | 0, bs => some ([], bs)
  | n + 1, bs => do
    let (a, bs) ← read bs
    let (as, bs) ← readMany read n bs
    return (a :: as, bs)

variable {read : Bytes → Option (α × Bytes)}

theorem readMany_succ_eq_some (h : readMany read (n + 1) bs = some (as, rest)) :
    ∃ a bs₁ as', read bs = some (a, bs₁) ∧ readMany read n bs₁ = some (as', rest) ∧
      as = a :: as' := by
  simp only [readMany, bind_eq_bind, bind_eq_some_iff, Option.pure_def] at h
  obtain ⟨⟨a, bs₁⟩, ha, ⟨as', bs₂⟩, has, heq⟩ := h
  cases heq
  exact ⟨a, bs₁, as', ha, has, rfl⟩

variable {write : α → Bytes}

theorem readMany_writeMany
    (as : List α) (rest : Bytes) (h : ∀ a ∈ as, ∀ rest, read (write a ++ rest) = some (a, rest)) :
    readMany read as.length (writeMany write as ++ rest) = some (as, rest) := by
  induction as with
  | nil => rfl
  | cons a as ih =>
    have ha := h a mem_cons_self (writeMany write as ++ rest)
    have ih := ih fun x hx => h x (mem_cons_of_mem _ hx)
    simp only [writeMany, flatMap_cons, append_assoc] at ha ih ⊢
    simp [readMany, ha, ih]

theorem mul_length_le_writeMany (as : List α) (h : ∀ a ∈ as, n ≤ (write a).length) :
    n * as.length ≤ (writeMany write as).length := by
  induction as with
  | nil => exact Nat.zero_le _
  | cons a as ih =>
    obtain ⟨ha, has⟩ := forall_mem_cons.mp h
    rw [writeMany, flatMap_cons, length_append, length_cons, Nat.mul_succ, Nat.add_comm]
    exact Nat.add_le_add ha (ih has)

variable (c : Codec α)

theorem writeMany_readMany (h : readMany c.read n bs = some (as, rest)) :
    as.length = n ∧ (∀ a ∈ as, c.Ok a) ∧ bs = writeMany c.write as ++ rest := by
  induction n generalizing bs as with
  | zero => cases h; simp [writeMany]
  | succ n ih =>
    obtain ⟨a, bs₁, as', ha, has, rfl⟩ := readMany_succ_eq_some h
    obtain ⟨hok, rfl⟩ := c.write_read _ _ _ ha
    obtain ⟨hlen, hall, rfl⟩ := ih has
    refine ⟨by simp [hlen], ?_, by simp [writeMany]⟩
    intro x hx
    rcases mem_cons.mp hx with rfl | hx
    · exact hok
    · exact hall x hx

def counted (size : Codec Nat) (c : Codec α) : Codec (List α) where
  write as := size.write as.length ++ writeMany c.write as
  read bs := do
    let (n, bs) ← size.read bs
    readMany c.read n bs
  Ok as := size.Ok as.length ∧ ∀ a ∈ as, c.Ok a
  read_write as rest h := by
    have hmany := readMany_writeMany as rest fun a ha rest => c.read_write a rest (h.2 a ha)
    simp [append_assoc, size.read_write _ _ h.1, hmany]
  write_read bs as rest h := by
    simp only [bind_eq_bind, bind_eq_some_iff] at h
    obtain ⟨⟨n, bs₁⟩, hn, has⟩ := h
    obtain ⟨hok, rfl⟩ := size.write_read _ _ _ hn
    obtain ⟨rfl, hall, rfl⟩ := c.writeMany_readMany has
    exact ⟨⟨hok, hall⟩, by simp⟩

def bits (c : Codec Nat) (w : Nat) (hw : ∀ n, c.Ok n ↔ n < 2 ^ w) : Codec (BitVec w) where
  write x := c.write x.toNat
  read bs := (c.read bs).map fun (n, rest) => (BitVec.ofNat w n, rest)
  Ok _ := True
  read_write x rest _ := by
    rw [c.read_write _ _ ((hw _).mpr x.isLt)]
    simp
  write_read bs x rest h := by
    obtain ⟨⟨n, rest'⟩, hn, heq⟩ := map_eq_some_iff.mp h
    cases heq
    obtain ⟨hok, rfl⟩ := c.write_read _ _ _ hn
    refine ⟨trivial, ?_⟩
    rw [BitVec.toNat_ofNat, Nat.mod_eq_of_lt ((hw n).mp hok)]

theorem write_append_inj (ha : c.Ok a) (hb : c.Ok b)
    (h : c.write a ++ r = c.write b ++ r') : a = b ∧ r = r' := by
  have heq : some (a, r) = some (b, r') := by
    rw [← c.read_write a r ha, ← c.read_write b r' hb, h]
  cases heq
  exact ⟨rfl, rfl⟩

theorem write_inj (ha : c.Ok a) (hb : c.Ok b) (h : c.write a = c.write b) : a = b := by
  have happend : c.write a ++ [] = c.write b ++ [] := by rw [h]
  exact (c.write_append_inj ha hb happend).1

end Codec

/-- On the values in `P`, no output of the writer is a proper beginning of another one. -/
def PrefixFree (write : α → Bytes) (P : α → Prop) : Prop :=
  ∀ ⦃a b r r'⦄, P a → P b → write a ++ r = write b ++ r' → a = b ∧ r = r'

theorem Codec.prefixFree (c : Codec α) : PrefixFree c.write c.Ok :=
  fun _ _ _ _ ha hb h => c.write_append_inj ha hb h

namespace PrefixFree

variable {write : α → Bytes}

theorem append {write' : β → Bytes} (h : PrefixFree write P) (h' : PrefixFree write' Q) :
    PrefixFree (fun x : α × β => write x.1 ++ write' x.2) fun x => P x.1 ∧ Q x.2 := by
  rintro ⟨a, b⟩ ⟨a', b'⟩ r r' ⟨ha, hb⟩ ⟨ha', hb'⟩ heq
  simp only [append_assoc] at heq
  obtain ⟨haa, hrest⟩ := h ha ha' heq
  obtain ⟨hbb, hr⟩ := h' hb hb' hrest
  exact ⟨Prod.ext haa hbb, hr⟩

theorem comap (h : PrefixFree write P) {g : β → α} {Q : β → Prop}
    (hQ : ∀ b, Q b → P (g b)) (hg : ∀ a b, Q a → Q b → g a = g b → a = b) :
    PrefixFree (fun b => write (g b)) Q := by
  intro a b r r' ha hb heq
  obtain ⟨hab, hr⟩ := h (hQ a ha) (hQ b hb) heq
  exact ⟨hg a b ha hb hab, hr⟩

theorem writeMany (h : PrefixFree write P) {as bs : List α}
    (hlen : as.length = bs.length) (has : ∀ a ∈ as, P a) (hbs : ∀ b ∈ bs, P b)
    (heq : Codec.writeMany write as ++ r = Codec.writeMany write bs ++ r') : as = bs ∧ r = r' := by
  induction as generalizing bs with
  | nil =>
    cases length_eq_zero_iff.mp hlen.symm
    exact ⟨rfl, heq⟩
  | cons a as ih =>
    cases bs with
    | nil => cases hlen
    | cons b bs =>
      obtain ⟨ha, has⟩ := forall_mem_cons.mp has
      obtain ⟨hb, hbs'⟩ := forall_mem_cons.mp hbs
      simp only [Codec.writeMany, flatMap_cons, append_assoc] at heq ih
      obtain ⟨hab, hrest⟩ := h ha hb heq
      obtain ⟨htail, hr⟩ := ih (Nat.succ.inj hlen) has hbs' hrest
      exact ⟨by rw [hab, htail], hr⟩

theorem counted {size : Nat → Bytes} (hsize : PrefixFree size S) (h : PrefixFree write P) :
    PrefixFree (fun as => size as.length ++ Codec.writeMany write as)
      fun as => S as.length ∧ ∀ a ∈ as, P a := by
  rintro as bs r r' ⟨hsa, has⟩ ⟨hsb, hbs⟩ heq
  simp only [append_assoc] at heq
  obtain ⟨hlen, heq⟩ := hsize hsa hsb heq
  exact h.writeMany hlen has hbs heq

end PrefixFree

/-- A reader that also accepts byte strings its writer never produces. They are
never shorter than the writer's output, and strictly longer for a value that the
writer cannot express. -/
structure Format (α : Type) where
  write : α → Bytes
  read : Bytes → Option (α × Bytes)
  Ok : α → Prop
  read_write : ∀ a rest, Ok a → read (write a ++ rest) = some (a, rest)
  read_length : ∀ bs a rest, read bs = some (a, rest) →
    (write a).length + rest.length < bs.length ∨
      Ok a ∧ (write a).length + rest.length ≤ bs.length

def Codec.toFormat (c : Codec α) : Format α where
  write := c.write
  read := c.read
  Ok := c.Ok
  read_write := c.read_write
  read_length bs a rest h := by
    obtain ⟨hok, rfl⟩ := c.write_read _ _ _ h
    exact .inr ⟨hok, by simp⟩

namespace Format

def seq (c : Format α) (d : Format β) : Format (α × β) where
  write x := c.write x.1 ++ d.write x.2
  read bs := do
    let (a, bs) ← c.read bs
    let (b, bs) ← d.read bs
    return ((a, b), bs)
  Ok x := c.Ok x.1 ∧ d.Ok x.2
  read_write x rest h := by
    simp [append_assoc, c.read_write x.1 _ h.1, d.read_write x.2 _ h.2]
  read_length bs x rest h := by
    simp only [bind_eq_bind, bind_eq_some_iff, Option.pure_def] at h
    obtain ⟨⟨a, bs₁⟩, ha, ⟨b, bs₂⟩, hb, heq⟩ := h
    cases heq
    simp only at hb
    simp only [length_append]
    rcases c.read_length _ _ _ ha with hlt | ⟨hoka, hle⟩ <;>
      rcases d.read_length _ _ _ hb with hlt' | ⟨hokb, hle'⟩
    · exact .inl (by omega)
    · exact .inl (by omega)
    · exact .inl (by omega)
    · exact .inr ⟨⟨hoka, hokb⟩, by omega⟩

theorem readMany_length (c : Format α) (h : Codec.readMany c.read n bs = some (as, rest)) :
    as.length = n ∧ ((Codec.writeMany c.write as).length + rest.length < bs.length ∨
      (∀ a ∈ as, c.Ok a) ∧ (Codec.writeMany c.write as).length + rest.length ≤ bs.length) := by
  induction n generalizing bs as with
  | zero => cases h; simp [Codec.writeMany]
  | succ n ih =>
    obtain ⟨a, bs₁, as', ha, has, rfl⟩ := Codec.readMany_succ_eq_some h
    obtain ⟨hlen, hrest⟩ := ih has
    refine ⟨by simp [hlen], ?_⟩
    have hsum : (Codec.writeMany c.write (a :: as')).length =
        (c.write a).length + (Codec.writeMany c.write as').length := by
      simp [Codec.writeMany]
    rcases c.read_length _ _ _ ha with hlt | ⟨hok, hle⟩ <;> rcases hrest with hlt' | ⟨hall, hle'⟩
    · exact .inl (by omega)
    · exact .inl (by omega)
    · exact .inl (by omega)
    · exact .inr ⟨forall_mem_cons.mpr ⟨hok, hall⟩, by omega⟩

def counted (size : Codec Nat) (c : Format α) : Format (List α) where
  write as := size.write as.length ++ Codec.writeMany c.write as
  read bs := do
    let (n, bs) ← size.read bs
    Codec.readMany c.read n bs
  Ok as := size.Ok as.length ∧ ∀ a ∈ as, c.Ok a
  read_write as rest h := by
    have hmany := Codec.readMany_writeMany as rest fun a ha rest => c.read_write a rest (h.2 a ha)
    simp [append_assoc, size.read_write _ _ h.1, hmany]
  read_length bs as rest h := by
    simp only [bind_eq_bind, bind_eq_some_iff] at h
    obtain ⟨⟨n, bs₁⟩, hn, has⟩ := h
    obtain ⟨hok, rfl⟩ := size.write_read _ _ _ hn
    obtain ⟨rfl, hrest⟩ := c.readMany_length has
    simp only [length_append] at hrest ⊢
    rcases hrest with hlt | ⟨hall, hle⟩
    · exact .inl (by omega)
    · exact .inr ⟨⟨hok, hall⟩, by omega⟩

def iso (c : Format α) (f : α → β) (g : β → α) (hfg : ∀ b, f (g b) = b) (hgf : ∀ a, g (f a) = a) :
    Format β where
  write b := c.write (g b)
  read bs := (c.read bs).map fun (a, rest) => (f a, rest)
  Ok b := c.Ok (g b)
  read_write b rest h := by rw [c.read_write _ _ h]; simp [hfg]
  read_length bs b rest h := by
    obtain ⟨⟨a, rest'⟩, ha, heq⟩ := map_eq_some_iff.mp h
    cases heq
    rw [hgf]
    exact c.read_length _ _ _ ha

end Format

end OurChain
