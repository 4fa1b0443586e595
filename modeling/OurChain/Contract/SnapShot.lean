import OurChain.Serialize

/-!
# The contract snapshot

`SnapShot` keeps the state of every contract as JSON text in a RocksDB store, under
the hexadecimal text of the contract's address. The JSON library is a parameter: what
is used of it is that `parse` reads back what `dump` wrote.
-/

namespace OurChain

/-- The low `n` hexadecimal digits of a number, most significant first. -/
def hexDigits : Nat → Nat → List Nat
  | 0, _ => []
  | n + 1, x => hexDigits n (x / 16) ++ [x % 16]

def hexChar (d : Nat) : Byte := if d < 10 then BitVec.ofNat 8 (48 + d) else BitVec.ofNat 8 (87 + d)

@[irreducible] def getHex (x : Uint256) : Bytes := (hexDigits 64 x.toNat).map hexChar

/-- `HexDigit`, with none for -1. -/
def hexDigit (c : Byte) : Option Nat :=
  if 48 ≤ c.toNat ∧ c.toNat ≤ 57 then some (c.toNat - 48)
  else if 97 ≤ c.toNat ∧ c.toNat ≤ 102 then some (c.toNat - 87)
  else if 65 ≤ c.toNat ∧ c.toNat ≤ 70 then some (c.toNat - 55)
  else none

def isSpace (c : Byte) : Bool := c.toNat = 32 || (9 ≤ c.toNat && c.toNat ≤ 13)

def skip0x : Bytes → Bytes
  | 48#8 :: 120#8 :: psz => psz
  | 48#8 :: 88#8 :: psz => psz
  | psz => psz

/-- The digits up to the first other character; of more than 64 the last ones count. -/
def hexValue (psz : Bytes) (value : Nat) : Nat :=
  match psz with
  | [] => value
  | c :: psz =>
    match hexDigit c with
    | none => value
    | some d => hexValue psz (16 * value + d)

def setHex (psz : Bytes) : Uint256 := BitVec.ofNat 256 (hexValue (skip0x (psz.dropWhile isSpace)) 0)

theorem hexDigit_hexChar (hd : d < 16) : hexDigit (hexChar d) = some d := by
  revert d
  decide

theorem hexValue_map {ds : List Nat} (h : ∀ d ∈ ds, d < 16) (value : Nat) :
    hexValue (ds.map hexChar) value = ds.foldl (fun value d => 16 * value + d) value := by
  induction ds generalizing value with
  | nil => rfl
  | cons d ds ih =>
    obtain ⟨hd, hds⟩ := List.forall_mem_cons.mp h
    simp only [List.map_cons, hexValue, hexDigit_hexChar hd, List.foldl_cons]
    exact ih hds _

theorem lt_of_mem_hexDigits (h : d ∈ hexDigits n x) : d < 16 := by
  induction n generalizing x with
  | zero => cases h
  | succ n ih =>
    rcases List.mem_append.mp h with h | h
    · exact ih h
    · rw [List.mem_singleton.mp h]
      exact Nat.mod_lt _ (by decide)

theorem foldl_hexDigits (n x : Nat) :
    (hexDigits n x).foldl (fun value d => 16 * value + d) 0 = x % 16 ^ n := by
  induction n generalizing x with
  | zero => simp [hexDigits, Nat.mod_one]
  | succ n ih =>
    rw [hexDigits, List.foldl_append, ih, Nat.pow_succ, Nat.mul_comm _ 16, Nat.mod_mul]
    simp only [List.foldl_cons, List.foldl_nil]
    omega

@[simp] theorem length_hexDigits (n x : Nat) : (hexDigits n x).length = n := by
  induction n generalizing x with
  | zero => rfl
  | succ n ih => simp [hexDigits, ih]

@[simp] theorem length_getHex (x : Uint256) : (getHex x).length = 64 := by
  simp [getHex]

theorem zero_notMem_getHex (x : Uint256) : (0 : Byte) ∉ getHex x := by
  have hchar : ∀ d < 16, hexChar d ≠ 0 := by decide
  simp only [getHex, List.mem_map, not_exists, not_and]
  exact fun d hd => hchar d (lt_of_mem_hexDigits hd)

theorem hexChar_plain (hd : d < 16) :
    isSpace (hexChar d) = false ∧ hexChar d ≠ 120#8 ∧ hexChar d ≠ 88#8 := by
  revert d
  decide

theorem skip0x_map {ds : List Nat} (h : ∀ d ∈ ds, d < 16) :
    skip0x ((ds.map hexChar).dropWhile isSpace) = ds.map hexChar := by
  cases ds with
  | nil => rfl
  | cons d ds =>
    obtain ⟨hd, hds⟩ := List.forall_mem_cons.mp h
    rw [List.map_cons, List.dropWhile_cons_of_neg (by simp [(hexChar_plain hd).1])]
    cases ds with
    | nil =>
      unfold skip0x
      split <;> simp_all
    | cons e es =>
      have he := hexChar_plain (hds e (by simp))
      unfold skip0x
      split <;> simp_all

theorem setHex_getHex (x : Uint256) : setHex (getHex x) = x := by
  have hlt : ∀ d ∈ hexDigits 64 x.toNat, d < 16 := fun d hd => lt_of_mem_hexDigits hd
  have hx : x.toNat % 16 ^ 64 = x.toNat := Nat.mod_eq_of_lt x.isLt
  rw [setHex, getHex.eq_def, skip0x_map hlt, hexValue_map hlt, foldl_hexDigits, hx]
  simp

theorem getHex_inj {x y : Uint256} (h : getHex x = getHex y) : x = y := by
  rw [← setHex_getHex x, h, setHex_getHex]

/-- The JSON library over the values that have a text: those with a string that is not
UTF-8, on which `dump` throws, or with a `NaN`, which it writes as `null`, are not in
`J`. `parse` is none where the library throws, and the length of a text is an `int`. -/
structure Json (J : Type) where
  null : J
  isNull : J → Bool
  parse : Bytes → Option J
  dump : J → Bytes
  isNull_iff : ∀ j, isNull j = true ↔ j = null
  parse_dump : ∀ j, parse (dump j) = some j
  parse_nil : parse [] = none
  length_dump : ∀ j, (dump j).length < 2 ^ 31

abbrev ContractDB := Bytes → Option Bytes

namespace ContractDB

def getState (db : ContractDB) (key : Bytes) : Bytes := (db key).getD []

def isOk (db : ContractDB) (key : Bytes) : Bool := (db key).isSome

def setState (db : ContractDB) (key value : Bytes) : ContractDB := Function.update db key (some value)

theorem setState_eq (db : ContractDB) (key value key' : Bytes) :
    db.setState key value key' = if key' = key then some value else db key' :=
  Function.update_apply ..

end ContractDB

/-- A store that only `setContractState` has written to. -/
@[ext] structure SnapShot {J : Type} (js : Json J) where
  db : ContractDB
  stored : ∀ key text, db key = some text → ∃ address j, key = getHex address ∧ text = js.dump j

variable {J : Type} {js : Json J}

theorem Json.dump_ne_nil (js : Json J) (j : J) : js.dump j ≠ [] := by
  intro h
  have hparse := js.parse_dump j
  rw [h, js.parse_nil] at hparse
  cases hparse

namespace SnapShot

def empty : SnapShot js where
  db _ := none
  stored _ _ h := by cases h

def setContractState (s : SnapShot js) (address : Uint256) (state : J) : SnapShot js where
  db := s.db.setState (getHex address) (js.dump state)
  stored key text h := by
    rw [ContractDB.setState_eq] at h
    split at h
    · rename_i hkey
      exact ⟨address, state, hkey, (Option.some.inj h).symm⟩
    · exact s.stored key text h

def getContractState (s : SnapShot js) (address : Uint256) : Option J :=
  let state := s.db.getState (getHex address)
  if s.db.isOk (getHex address) then js.parse state else some js.null

theorem db_setContractState (s : SnapShot js) (address other : Uint256) (state : J) :
    (s.setContractState address state).db (getHex other) =
      if other = address then some (js.dump state) else s.db (getHex other) := by
  have hiff : getHex other = getHex address ↔ other = address := ⟨getHex_inj, congrArg getHex⟩
  simp only [setContractState, ContractDB.setState_eq, hiff]

def lookup (s : SnapShot js) (address : Uint256) : Option J := (s.db (getHex address)).bind js.parse

section
variable (s : SnapShot js) (address : Uint256)
include s address

theorem db_eq_lookup : s.db (getHex address) = (s.lookup address).map js.dump := by
  cases h : s.db (getHex address) with
  | none => simp [lookup, h]
  | some text =>
    obtain ⟨-, j, -, rfl⟩ := s.stored _ _ h
    simp [lookup, h, js.parse_dump]

@[simp] theorem lookup_setContractState (state : J) :
    (s.setContractState address state).lookup address = some state := by
  rw [lookup, db_setContractState, if_pos rfl, Option.bind_some, js.parse_dump]

theorem db_setContractState_of_ne (state : J)
    (hkey : key ≠ getHex address) : (s.setContractState address state).db key = s.db key := by
  simp only [setContractState, ContractDB.setState_eq, if_neg hkey]

theorem setContractState_eq_self_iff (state : J) :
    s.setContractState address state = s ↔ s.lookup address = some state := by
  constructor
  · intro h
    rw [← h, lookup_setContractState]
  · intro h
    ext1
    funext key
    by_cases hkey : key = getHex address
    · rw [hkey, db_setContractState, if_pos rfl, db_eq_lookup, h]
      rfl
    · exact db_setContractState_of_ne s address state hkey

theorem getContractState_eq :
    s.getContractState address = some ((s.lookup address).getD js.null) := by
  rw [getContractState, ContractDB.getState, ContractDB.isOk, s.db_eq_lookup]
  cases s.lookup address with
  | none => rfl
  | some j => simp [js.parse_dump]

end

end SnapShot

end OurChain
