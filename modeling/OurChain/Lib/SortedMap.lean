import OurChain.Lib.Codec

/-!
# Ordered stores

A finite map kept as its entries in the order of a key comparator, which is how
an ordered key-value store presents itself to a cursor. Keys of a byte store are
compared byte by byte; on big-endian numbers of one width that is the order of
the numbers.
-/

namespace OurChain

open List

namespace SortedMap

variable {κ ν : Type} (lt : κ → κ → Bool)

def put (k : κ) (v : ν) : List (κ × ν) → List (κ × ν)
  | [] => [(k, v)]
  | (k', v') :: m =>
    if lt k k' then (k, v) :: (k', v') :: m
    else if lt k' k then (k', v') :: put k v m
    else (k, v) :: m

def get [DecidableEq κ] (m : List (κ × ν)) (k : κ) : Option ν :=
  (m.find? fun e => e.1 = k).map Prod.snd

def delete [DecidableEq κ] (k : κ) (m : List (κ × ν)) : List (κ × ν) := m.filter fun e => e.1 ≠ k

/-- Removes the keys from `b` up to, but not including, `e`. -/
def deleteRange (b e : κ) (m : List (κ × ν)) : List (κ × ν) :=
  m.filter fun entry => lt entry.1 b || !lt entry.1 e

def last? (m : List (κ × ν)) : Option (κ × ν) := m.getLast?

variable {lt} {m : List (κ × ν)}

theorem put_above (k : κ) (v : ν) (h : ∀ e ∈ m, lt e.1 k = true ∧ lt k e.1 = false) :
    put lt k v m = m ++ [(k, v)] := by
  induction m with
  | nil => rfl
  | cons e m ih =>
    obtain ⟨he, hm⟩ := forall_mem_cons.mp h
    simp [put, he, ih hm]

theorem delete_last [DecidableEq κ] (k : κ) (v : ν) (h : ∀ e ∈ m, e.1 ≠ k) :
    delete k (m ++ [(k, v)]) = m := by
  have hm : m.filter (fun e => e.1 ≠ k) = m := filter_eq_self.mpr (by simpa using h)
  simp only [delete, filter_append, hm]
  simp

structure KeyOrder (lt : κ → κ → Bool) : Prop where
  irrefl (a : κ) : lt a a = false
  trans {a b c : κ} : lt a b = true → lt b c = true → lt a c = true
  total {a b : κ} : lt a b = false → lt b a = false → a = b

def Sorted (lt : κ → κ → Bool) (m : List (κ × ν)) : Prop := m.Pairwise fun a b => lt a.1 b.1 = true

theorem KeyOrder.ne (ho : KeyOrder lt) {a b : κ} (h : lt a b = true) : a ≠ b := by
  rintro rfl
  exact absurd (ho.irrefl a) (by simp [h])

theorem mem_put {k : κ} {v : ν} {e : κ × ν} (h : e ∈ put lt k v m) : e = (k, v) ∨ e ∈ m := by
  induction m with
  | nil => exact .inl (mem_singleton.mp h)
  | cons e' m ih =>
    rw [put] at h
    split at h
    · exact mem_cons.mp h
    · split at h
      · rcases mem_cons.mp h with rfl | h
        · exact .inr mem_cons_self
        · exact (ih h).imp_right (mem_cons_of_mem _)
      · exact (mem_cons.mp h).imp_right (mem_cons_of_mem _)

theorem Sorted.put (ho : KeyOrder lt) (hm : Sorted lt m) (k : κ) (v : ν) :
    Sorted lt (put lt k v m) := by
  induction m with
  | nil => exact pairwise_singleton _ _
  | cons e m ih =>
    obtain ⟨he, htail⟩ := pairwise_cons.mp hm
    rw [SortedMap.put]
    split
    · rename_i hke
      refine pairwise_cons.mpr ⟨fun e' he' => ?_, hm⟩
      rcases mem_cons.mp he' with rfl | he'
      · exact hke
      · exact ho.trans hke (he e' he')
    · rename_i hke
      split
      · rename_i hek
        refine pairwise_cons.mpr ⟨fun e' he' => ?_, ih htail⟩
        rcases mem_put he' with rfl | he'
        · exact hek
        · exact he e' he'
      · rename_i hek
        have hk := ho.total (Bool.eq_false_iff.mpr hke) (Bool.eq_false_iff.mpr hek)
        exact pairwise_cons.mpr ⟨fun e' he' => hk ▸ he e' he', htail⟩

theorem Sorted.last (hm : Sorted lt m) (hlast : last? m = some e) :
    e ∈ m ∧ ∀ e' ∈ m, e' = e ∨ lt e'.1 e.1 = true := by
  obtain ⟨front, rfl⟩ := getLast?_eq_some_iff.mp hlast
  refine ⟨by simp, fun e' he' => ?_⟩
  rcases mem_append.mp he' with he' | he'
  · exact .inr ((pairwise_append.mp hm).2.2 e' he' e (by simp))
  · exact .inl (mem_singleton.mp he')

section
variable [DecidableEq κ] (ho : KeyOrder lt)

@[simp] theorem get_nil (k : κ) : get ([] : List (κ × ν)) k = none := rfl

theorem get_cons (e : κ × ν) (m : List (κ × ν)) (k : κ) :
    get (e :: m) k = if e.1 = k then some e.2 else get m k := by
  rw [get, find?_cons]
  by_cases h : e.1 = k
  · simp [h]
  · simp [h, get]

theorem get_append (m m' : List (κ × ν)) (k : κ) : get (m ++ m') k = (get m k).or (get m' k) := by
  induction m with
  | nil => simp
  | cons e m ih =>
    rw [cons_append, get_cons, get_cons, ih]
    split <;> simp

theorem get_delete (k k' : κ) : get (delete k m) k' = if k = k' then none else get m k' := by
  induction m with
  | nil => simp [delete]
  | cons e m ih =>
    by_cases hk : e.1 = k
    · have hdrop : delete k (e :: m) = delete k m := by simp [delete, hk]
      rw [hdrop, ih, get_cons, hk]
      split <;> rfl
    · have hkeep : delete k (e :: m) = e :: delete k m := by simp [delete, hk]
      rw [hkeep, get_cons, get_cons, ih]
      by_cases hk' : e.1 = k'
      · rw [if_pos hk', if_pos hk', if_neg fun h => hk (hk'.trans h.symm)]
      · rw [if_neg hk', if_neg hk']

include ho

theorem get_eq_some_iff (hm : Sorted lt m) {k : κ} {v : ν} : get m k = some v ↔ (k, v) ∈ m := by
  induction m with
  | nil => simp
  | cons e m ih =>
    obtain ⟨he, hm⟩ := pairwise_cons.mp hm
    rw [get_cons, mem_cons]
    split
    · rename_i hk
      refine ⟨fun h => .inl (Prod.ext hk.symm (Option.some.inj h).symm), ?_⟩
      rintro (rfl | hmem)
      · rfl
      · exact absurd hk (ho.ne (he _ hmem))
    · rename_i hk
      rw [ih hm]
      refine ⟨.inr, ?_⟩
      rintro (rfl | hmem)
      · exact absurd rfl hk
      · exact hmem

theorem ext {m' : List (κ × ν)} (hm : Sorted lt m) (hm' : Sorted lt m')
    (h : ∀ k, get m k = get m' k) : m = m' := by
  have hmem : ∀ e, e ∈ m ↔ e ∈ m' := fun e => by
    rw [← get_eq_some_iff ho hm, ← get_eq_some_iff ho hm', h]
  have hnodup : ∀ {l : List (κ × ν)}, Sorted lt l → l.Nodup := fun hl =>
    Pairwise.imp (fun hab heq => ho.ne hab (congrArg Prod.fst heq)) hl
  refine Perm.eq_of_pairwise (fun a b _ _ hab hba => ?_) hm hm'
    ((perm_ext_iff_of_nodup (hnodup hm) (hnodup hm')).mpr hmem)
  exact absurd (ho.trans hab hba) (by simp [ho.irrefl])

theorem get_put (hm : Sorted lt m) (k : κ) (v : ν) (k' : κ) :
    get (put lt k v m) k' = if k = k' then some v else get m k' := by
  induction m with
  | nil => rw [put, get_cons]
  | cons e m ih =>
    obtain ⟨he, hm⟩ := pairwise_cons.mp hm
    rw [put]
    split
    · rw [get_cons]
    · rename_i hke
      split
      · rename_i hek
        rw [get_cons, ih hm, get_cons]
        have hne := ho.ne hek
        by_cases h : e.1 = k'
        · rw [if_pos h, if_pos h, if_neg (fun hk => hne (h.trans hk.symm))]
        · rw [if_neg h, if_neg h]
      · rename_i hek
        have hk := ho.total (Bool.eq_false_iff.mpr hke) (Bool.eq_false_iff.mpr hek)
        rw [get_cons, get_cons, ← hk]
        split <;> rfl

end

end SortedMap

def bytesLt : Bytes → Bytes → Bool
  | [], [] => false
  | [], _ :: _ => true
  | _ :: _, [] => false
  | a :: as, b :: bs => if a < b then true else if b < a then false else bytesLt as bs

/-- The number of `n` bytes, most significant first. -/
def ofBeBytes : Bytes → Nat
  | [] => 0
  | b :: bs => b.toNat * 256 ^ bs.length + ofBeBytes bs

theorem ofBeBytes_lt (bs : Bytes) : ofBeBytes bs < 256 ^ bs.length := by
  induction bs with
  | nil => simp [ofBeBytes]
  | cons b bs ih =>
    have hb : b.toNat + 1 ≤ 256 := b.isLt
    calc ofBeBytes (b :: bs) < b.toNat * 256 ^ bs.length + 256 ^ bs.length := by
          simp only [ofBeBytes]; omega
      _ = (b.toNat + 1) * 256 ^ bs.length := by ring
      _ ≤ 256 * 256 ^ bs.length := Nat.mul_le_mul_right _ hb
      _ = 256 ^ (b :: bs).length := by rw [length_cons, Nat.pow_succ']

theorem ofBeBytes_append (as bs : Bytes) :
    ofBeBytes (as ++ bs) = ofBeBytes as * 256 ^ bs.length + ofBeBytes bs := by
  induction as with
  | nil => simp [ofBeBytes]
  | cons a as ih =>
    simp only [cons_append, ofBeBytes, ih, length_append, Nat.pow_add]
    ring

theorem ofBeBytes_reverse (bs : Bytes) : ofBeBytes bs.reverse = ofLeBytes bs := by
  induction bs with
  | nil => rfl
  | cons b bs ih =>
    simp only [reverse_cons, ofBeBytes_append, ih, ofBeBytes, ofLeBytes, length_singleton,
      length_nil]
    ring

theorem bytesLt_iff (hlen : as.length = bs.length) :
    bytesLt as bs = true ↔ ofBeBytes as < ofBeBytes bs := by
  induction as generalizing bs with
  | nil =>
    cases length_eq_zero_iff.mp hlen.symm
    simp [bytesLt, ofBeBytes]
  | cons a as ih =>
    cases bs with
    | nil => cases hlen
    | cons b bs =>
      have hlen : as.length = bs.length := Nat.succ.inj hlen
      have ha := ofBeBytes_lt as
      have hb := ofBeBytes_lt bs
      rw [hlen] at ha
      simp only [bytesLt, ofBeBytes, hlen, BitVec.lt_def]
      rcases Nat.lt_trichotomy a.toNat b.toNat with hab | hab | hab
      · have hstep : (a.toNat + 1) * 256 ^ bs.length ≤ b.toNat * 256 ^ bs.length :=
          Nat.mul_le_mul_right _ hab
        rw [Nat.add_mul, Nat.one_mul] at hstep
        simp only [hab, if_true, true_iff]
        omega
      · simp only [hab, Nat.lt_irrefl, if_false, ih hlen]
        omega
      · have hstep : (b.toNat + 1) * 256 ^ bs.length ≤ a.toNat * 256 ^ bs.length :=
          Nat.mul_le_mul_right _ hab
        rw [Nat.add_mul, Nat.one_mul] at hstep
        simp only [Nat.lt_asymm hab, hab, if_false, if_true, Bool.false_eq_true, false_iff]
        omega

theorem bytesLt_keyOrder : SortedMap.KeyOrder bytesLt where
  irrefl a := by
    induction a with
    | nil => rfl
    | cons a as ih => simp [bytesLt, ih]
  trans {a b c} hab hbc := by
    induction a generalizing b c with
    | nil =>
      cases c with
      | nil => cases b <;> simp [bytesLt] at hbc
      | cons c cs => rfl
    | cons a as ih =>
      cases b with
      | nil => simp [bytesLt] at hab
      | cons b bs =>
        cases c with
        | nil => simp [bytesLt] at hbc
        | cons c cs =>
          simp only [bytesLt, BitVec.lt_def] at hab hbc ⊢
          split at hab <;> split at hbc <;> grind
  total {a b} hab hba := by
    induction a generalizing b with
    | nil =>
      cases b with
      | nil => rfl
      | cons b bs => simp [bytesLt] at hab
    | cons a as ih =>
      cases b with
      | nil => simp [bytesLt] at hba
      | cons b bs =>
        simp only [bytesLt, BitVec.lt_def] at hab hba
        rcases Nat.lt_trichotomy a.toNat b.toNat with hlt | heq | hgt
        · simp [hlt] at hab
        · simp only [heq, Nat.lt_irrefl, if_false] at hab hba
          rw [BitVec.eq_of_toNat_eq heq, ih hab hba]
        · simp [hgt] at hba

end OurChain
