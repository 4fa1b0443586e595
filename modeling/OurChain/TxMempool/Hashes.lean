import OurChain.TxMempool.Entries

/-!
# The list of witness hashes

`vTxHashes` has the witness hash and the iterator of each entry, and each entry the position of
its element in the list (`vTxHashesIdx`). A new element goes to the end; the last one takes the
place of one that is removed.
-/

namespace OurChain

open List hiding beq_eq_decide

structure HashedMempool where
  pool : CTxMemPool
  vTxHashes : List (Uint256 × Uint256)
  vTxHashesIdx : Uint256 → Nat

namespace HashedMempool

section
variable (env : MempoolEnv) (s : HashedMempool)

/-- `newit` is the entry that has the hash already, if there is one. -/
def addUnchecked (hash : Uint256) (entry : CTxMemPoolEntry) (setAncestors : List Uint256) :
    HashedMempool where
  pool := s.pool.addUnchecked env hash entry setAncestors
  vTxHashes := s.vTxHashes ++
    [(((s.pool.find env (entry.getHash env)).getD entry).tx.getWitnessHash env.H, entry.getHash env)]
  vTxHashesIdx := Function.update s.vTxHashesIdx (entry.getHash env) s.vTxHashes.length

def removeUnchecked (it : Uint256) : HashedMempool :=
  let pool := s.pool.removeUnchecked env it
  if 1 < s.vTxHashes.length then
    let back := s.vTxHashes.getLastD (0, 0)
    { pool
      vTxHashes := (s.vTxHashes.set (s.vTxHashesIdx it) back).dropLast
      vTxHashesIdx := Function.update s.vTxHashesIdx back.2 (s.vTxHashesIdx it) }
  else { s with pool, vTxHashes := [] }

/-- `_clear` does not mention `vTxHashes`. -/
def clear : HashedMempool :=
  { s with pool := { s.pool with mapTx := [], mapLinks := fun _ => ⟨[], []⟩, mapNextTx := [] } }

inductive Op
  | addUnchecked (hash : Uint256) (entry : CTxMemPoolEntry) (setAncestors : List Uint256)
  | removeUnchecked (it : Uint256)
  | clear

def apply : Op → HashedMempool
  | .addUnchecked hash entry setAncestors => s.addUnchecked env hash entry setAncestors
  | .removeUnchecked it => s.removeUnchecked env it
  | .clear => s.clear

def run (ops : List Op) : HashedMempool := ops.foldl (apply env) s

/-- What the callers see to: an entry is added under its hash, which is new, and an iterator
points at an entry. -/
def Allowed : Op → Prop
  | .addUnchecked hash entry _ => hash = entry.getHash env ∧ hash ∉ s.pool.keys env
  | .removeUnchecked it => it ∈ s.pool.keys env
  | .clear => True

def elements : List (Uint256 × Uint256) :=
  s.pool.mapTx.map fun e => (e.tx.getWitnessHash env.H, e.getHash env)

structure Mirrored : Prop where
  perm : s.vTxHashes.Perm (s.elements env)
  position : ∀ x ∈ s.elements env, s.vTxHashes[s.vTxHashesIdx x.2]? = some x

end

section
variable {α κ : Type} {slots items : List (α × κ)} {idx : κ → Nat}

theorem perm_of_position (hnodup : (items.map Prod.snd).Nodup) (hlen : slots.length ≤ items.length)
    (hposition : ∀ x ∈ items, slots[idx x.2]? = some x) : slots.Perm items := by
  have hsubset : items ⊆ slots := fun x hx => mem_of_getElem? (hposition x hx)
  exact ((subperm_of_subset hnodup.of_map hsubset).perm_of_length_le hlen).symm

variable [DecidableEq κ]

theorem length_filter_ne (hnodup : (items.map Prod.snd).Nodup) (hx : x ∈ items) :
    (items.filter fun y => y.2 ≠ x.2).length + 1 = items.length := by
  have hfilter : ((items.filter fun y => y.2 ≠ x.2).map Prod.snd) =
    (items.map Prod.snd).erase x.2 := by
    rw [hnodup.erase_eq_filter, List.filter_map]
    congr 1
    apply filter_congr
    intro y _
    simp [Function.comp, bne, beq_eq_decide]
  have hlen := congrArg List.length hfilter
  have hmem : x.2 ∈ items.map Prod.snd := List.mem_map_of_mem hx
  have hpos := length_pos_of_mem hx
  rw [length_erase_of_mem hmem, length_map, length_map] at hlen
  omega

theorem position_swapRemove (hperm : slots.Perm items)
    (hposition : ∀ x ∈ items, slots[idx x.2]? = some x) (hx : x ∈ items) (d : α × κ) :
    ∀ y ∈ items.filter fun y => y.2 ≠ x.2, (slots.set (idx x.2) (slots.getLastD d)).dropLast[
      Function.update idx (slots.getLastD d).2 (idx x.2) y.2]? = some y := by
  intro y hy
  obtain ⟨hy, hne⟩ := mem_filter.mp hy
  have hne : y.2 ≠ x.2 := by simpa using hne
  obtain ⟨back, hback⟩ : ∃ back, slots.getLast? = some back := by
    cases hlast : slots.getLast? with
    | none =>
      rw [getLast?_eq_none_iff.mp hlast] at hperm
      rw [nil_perm.mp hperm] at hx
      cases hx
    | some back => exact ⟨back, rfl⟩
  have hgetLast : slots.getLastD d = back := by
    rw [getLastD_eq_getLast?, hback, Option.getD_some]
  have hlast : slots[slots.length - 1]? = some back := by rw [← getLast?_eq_getElem?, hback]
  have hmem : back ∈ items := hperm.subset (mem_of_getElem? hlast)
  have hat := hposition y hy
  have hi := (List.getElem?_eq_some_iff.mp (hposition x hx)).1
  have hj := (List.getElem?_eq_some_iff.mp hat).1
  rw [hgetLast, getElem?_dropLast, length_set]
  by_cases hsame : y.2 = back.2
  · -- the last element is the one of `y`, so that it is not the one that is removed
    have hyback : y = back := by
      have hatBack := hposition back hmem
      rw [← hsame, hat] at hatBack
      exact Option.some.inj hatBack
    subst hyback
    have hlt : idx x.2 < slots.length - 1 := by
      have hdiffer : idx x.2 ≠ slots.length - 1 := by
        intro heq
        have hx' := hposition x hx
        rw [heq, hlast] at hx'
        exact hne (congrArg Prod.snd (Option.some.inj hx'))
      omega
    rw [Function.update_self, if_pos hlt, getElem?_set_self hi]
  · have hlt : idx y.2 < slots.length - 1 := by
      have hdiffer : idx y.2 ≠ slots.length - 1 := by
        intro heq
        rw [heq, hlast] at hat
        exact hsame (congrArg Prod.snd (Option.some.inj hat)).symm
      omega
    have hother : idx x.2 ≠ idx y.2 := by
      intro heq
      have hx' := hposition x hx
      rw [heq, hat] at hx'
      exact hne (congrArg Prod.snd (Option.some.inj hx'))
    rw [Function.update_of_ne hsame, if_pos hlt, getElem?_set_ne hother, hat]

end

variable {env : MempoolEnv} {s : HashedMempool}

theorem map_snd_elements (s : HashedMempool) : (s.elements env).map Prod.snd = s.pool.keys env := by
  rw [elements, List.map_map]
  rfl

theorem elements_eq_cores (s : HashedMempool) :
    s.elements env = s.pool.cores.map fun e => (e.tx.getWitnessHash env.H, e.getHash env) := by
  rw [CTxMemPool.cores, List.map_map]
  rfl

structure Kept (env : MempoolEnv) (s : HashedMempool) : Prop extends s.Mirrored env where
  nodup : (s.pool.keys env).Nodup

theorem Kept.length (h : s.Kept env) : s.vTxHashes.length = s.pool.mapTx.length := by
  rw [h.perm.length_eq, elements, length_map]

theorem Kept.removeUnchecked (h : s.Kept env) (hit : it ∈ s.pool.keys env) :
    (s.removeUnchecked env it).Kept env := by
  obtain ⟨e, he, rfl⟩ := List.mem_map.mp hit
  have hx : (e.tx.getWitnessHash env.H, e.getHash env) ∈ s.elements env := List.mem_map_of_mem he
  have hnodup : ((s.elements env).map Prod.snd).Nodup := by rw [map_snd_elements]; exact h.nodup
  have helements : (s.removeUnchecked env (e.getHash env)).elements env =
      (s.elements env).filter fun y => y.2 ≠ e.getHash env := by
    have hpool : (s.removeUnchecked env (e.getHash env)).pool = s.pool.removeUnchecked env
      (e.getHash env) := by
      unfold HashedMempool.removeUnchecked
      split <;> rfl
    rw [elements, hpool, CTxMemPool.removeUnchecked, Table.erase, elements, List.filter_map]
    rfl
  have hkeys : ((s.removeUnchecked env (e.getHash env)).pool.keys env).Nodup := by
    rw [← map_snd_elements, helements]
    exact hnodup.sublist (List.filter_sublist.map _)
  have hshorter : ((s.elements env).filter fun y => y.2 ≠ e.getHash env).length + 1 =
    (s.elements env).length :=
    length_filter_ne hnodup hx
  have hlength := h.perm.length_eq
  have hposition : ∀ y ∈ (s.removeUnchecked env (e.getHash env)).elements env,
      (s.removeUnchecked env (e.getHash env)).vTxHashes[
        (s.removeUnchecked env (e.getHash env)).vTxHashesIdx y.2]? = some y := by
    rw [helements]
    unfold HashedMempool.removeUnchecked
    split
    · exact position_swapRemove h.perm h.position hx _
    · intro y hy
      have hpos := length_pos_of_mem hy
      omega
  refine ⟨⟨perm_of_position ?_ ?_ hposition, hposition⟩, hkeys⟩
  · rwa [map_snd_elements]
  · rw [helements]
    unfold HashedMempool.removeUnchecked
    split
    · simp only [length_dropLast, length_set]
      omega
    · exact Nat.zero_le _

theorem Kept.addUnchecked (h : s.Kept env) (setAncestors : List Uint256)
    (hnew : entry.getHash env ∉ s.pool.keys env) :
    (s.addUnchecked env (entry.getHash env) entry setAncestors).Kept env := by
  have helements : (s.addUnchecked env (entry.getHash env) entry setAncestors).elements env =
      s.elements env ++ [(entry.tx.getWitnessHash env.H, entry.getHash env)] := by
    obtain ⟨feeDelta, hcores, -⟩ := CTxMemPool.exists_cores_addUnchecked entry setAncestors hnew
    rw [elements_eq_cores, HashedMempool.addUnchecked, hcores, map_append, ← elements_eq_cores]
    rfl
  have hpushed : (s.addUnchecked env (entry.getHash env) entry setAncestors).vTxHashes =
      s.vTxHashes ++ [(entry.tx.getWitnessHash env.H, entry.getHash env)] := by
    have hnone : s.pool.find env (entry.getHash env) = none := by
      rwa [← Option.not_isSome_iff_eq_none, ← CTxMemPool.existsTx, CTxMemPool.existsTx_iff]
    rw [HashedMempool.addUnchecked, hnone]
    rfl
  refine ⟨⟨?_, ?_⟩, ?_⟩
  · rw [helements, hpushed]
    exact h.perm.append_right _
  · rw [helements, hpushed]
    intro x hx
    simp only [HashedMempool.addUnchecked]
    rcases mem_append.mp hx with hx | hx
    · have hne : x.2 ≠ entry.getHash env := by
        rintro heq
        apply hnew
        rw [← map_snd_elements, ← heq]
        exact List.mem_map_of_mem hx
      have hat := h.position x hx
      rw [Function.update_of_ne hne, getElem?_append_left (List.getElem?_eq_some_iff.mp hat).1, hat]
    · obtain rfl := mem_singleton.mp hx
      simp
  · rw [← map_snd_elements, helements, map_append, map_snd_elements]
    exact nodup_append_comm.mp (nodup_cons.mpr ⟨hnew, h.nodup⟩)

/-- The pool has no entry when `_clear` is called. -/
def ClearsEmpty (s : HashedMempool) : Op → Prop
  | .clear => s.pool.mapTx = []
  | _ => True

/-- A property of each operation and the pool it is called on. -/
def Along (env : MempoolEnv) (P : HashedMempool → Op → Prop) : HashedMempool → List Op → Prop
  | _, [] => True
  | s, op :: ops => P s op ∧ Along env P (s.apply env op) ops

theorem Kept.apply (h : s.Kept env) (hallowed : s.Allowed env op) (hclears : s.ClearsEmpty op) :
    (s.apply env op).Kept env := by
  cases op with
  | addUnchecked hash entry setAncestors =>
    obtain ⟨rfl, hnew⟩ := hallowed
    exact h.addUnchecked setAncestors hnew
  | removeUnchecked it => exact h.removeUnchecked hallowed
  | clear =>
    have hnil : s.vTxHashes = [] := eq_nil_of_length_eq_zero (by rw [h.length, hclears]; rfl)
    exact ⟨⟨by simp [HashedMempool.apply, clear, elements, hnil], nofun⟩, nodup_nil⟩

theorem Kept.clearsEmpty (h : s.Kept env) (hmirrored : (s.apply env op).Mirrored env) :
    s.ClearsEmpty op := by
  cases op with
  | addUnchecked hash entry setAncestors => trivial
  | removeUnchecked it => trivial
  | clear => exact eq_nil_of_length_eq_zero (h.length.symm.trans hmirrored.perm.length_eq)

theorem run_mirrored_iff (h : s.Kept env) (hallowed : Along env (Allowed env) s ops) :
    (∀ done, done <+: ops → (s.run env done).Mirrored env) ↔ Along env ClearsEmpty s ops := by
  induction ops generalizing s with
  | nil =>
    refine iff_of_true ?_ trivial
    intro done hdone
    obtain rfl := prefix_nil.mp hdone
    exact h.toMirrored
  | cons op ops ih =>
    obtain ⟨hop, hallowed⟩ := hallowed
    constructor
    · intro hall
      have hclears := h.clearsEmpty (hall [op] (by simp))
      refine ⟨hclears, (ih (h.apply hop hclears) hallowed).mp ?_⟩
      intro done hdone
      exact hall (op :: done) (cons_prefix_cons.mpr ⟨rfl, hdone⟩)
    · rintro ⟨hclears, hrest⟩ done hdone
      rcases prefix_cons_iff.mp hdone with rfl | ⟨later, rfl, hlater⟩
      · exact h.toMirrored
      · exact (ih (h.apply hop hclears) hallowed).mpr hrest later hlater

def empty (mapDeltas : Uint256 → Option Int) : HashedMempool where
  pool := ⟨[], fun _ => ⟨[], []⟩, [], mapDeltas⟩
  vTxHashes := []
  vTxHashesIdx _ := 0

theorem kept_empty (env : MempoolEnv) (mapDeltas : Uint256 → Option Int) :
    (empty mapDeltas).Kept env :=
  ⟨⟨.nil, nofun⟩, nodup_nil⟩

/-- The list mirrors the pool all along a run if and only if `_clear` is only called on a pool
without entries. -/
theorem vTxHashes_mirrors_iff (mapDeltas : Uint256 → Option Int)
    (hallowed : Along env (Allowed env) (empty mapDeltas) ops) :
    (∀ done, done <+: ops → ((empty mapDeltas).run env done).Mirrored env) ↔
    Along env ClearsEmpty (empty mapDeltas) ops :=
  run_mirrored_iff (kept_empty env mapDeltas) hallowed

def plainEnv : MempoolEnv := ⟨fun bytes => BitVec.ofNat 256 bytes.length, 20⟩

def plainEntry (vout : List CTxOut) : CTxMemPoolEntry :=
  .new plainEnv ⟨2, ⟨0, [], 0, []⟩, [], vout, 0⟩ 0 0 0 false 0 ⟨0, 0, none⟩

/-- When the first of two entries is removed, the second one moves to its place. -/
theorem vTxHashes_mirrors_emptied :
    let first := plainEntry []
    let second := plainEntry [⟨0, []⟩]
    let ops : List Op := [.addUnchecked (first.getHash plainEnv) first [],
      .addUnchecked (second.getHash plainEnv) second [],
      .removeUnchecked (first.getHash plainEnv), .removeUnchecked (second.getHash plainEnv), .clear]
    ∀ done, done <+: ops → ((empty fun _ => none).run plainEnv done).Mirrored plainEnv := by
  intro first second ops
  have hallowed : Along plainEnv (Allowed plainEnv) (empty fun _ => none) ops :=
    ⟨⟨rfl, nofun⟩, ⟨rfl, by decide +kernel⟩, show _ ∈ CTxMemPool.keys _ _ by decide +kernel,
      show _ ∈ CTxMemPool.keys _ _ by decide +kernel, trivial, trivial⟩
  exact (vTxHashes_mirrors_iff _ hallowed).mpr ⟨trivial, trivial, trivial, trivial,
    show CTxMemPool.mapTx _ = [] by decide +kernel, trivial⟩

theorem vTxHashes_stale :
    let ops : List Op := [.addUnchecked ((plainEntry []).getHash plainEnv) (plainEntry []) [], .clear]
    Along plainEnv (Allowed plainEnv) (empty fun _ => none) ops ∧
      ¬((empty fun _ => none).run plainEnv ops).Mirrored plainEnv :=
  ⟨⟨⟨rfl, nofun⟩, trivial, trivial⟩, fun h => absurd h.perm.length_eq (by decide)⟩

end HashedMempool

end OurChain
