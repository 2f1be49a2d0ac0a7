import Mathlib.Data.List.Basic
import Mathlib.Logic.Function.Basic

/-!
# The Merkle root of a block

The digests of the transactions are hashed in pairs, level by level, and a last digest
without a partner goes up as it is. Run on trees in place of digests, the same passes build
a tree that has the transactions as its leaves.
-/

namespace Freezone.Protocol

open Function List

/-- The hashes that `calculate_merkle_root` computes, and the `checksum_type` of no block. -/
structure MerkleHashes (T D C : Type) where
  merkleDigest : T → D
  hashPair : D → D → D
  hash : D → C
  zero : C

section Passes

variable {D E : Type} (f : D → D → D)

/-- A pass over the hashes of a level. -/
def hashPairs : List D → List D
  | [] => []
  | [a] => [a]
  | a :: b :: ids => f a b :: hashPairs ids

theorem length_hashPairs_le (ids : List D) : (hashPairs f ids).length ≤ ids.length := by
  induction ids using hashPairs.induct with
  | case1 => exact Nat.le_refl _
  | case2 a => exact Nat.le_refl _
  | case3 a b ids ih =>
    simp only [hashPairs, length_cons]
    omega

/-- The passes until one hash is left. -/
def hashLevels : List D → Option D
  | [] => none
  | [a] => some a
  | a :: b :: ids => hashLevels (hashPairs f (a :: b :: ids))
termination_by ids => ids.length
decreasing_by
  have := length_hashPairs_le f ids
  simp only [hashPairs, length_cons]
  omega

variable {f} {g : E → E → E} {φ : D → E}

/-- A map that commutes with hashing commutes with a level of the tree. -/
theorem hashPairs_map (h : ∀ a b, φ (f a b) = g (φ a) (φ b)) (ids : List D) :
    hashPairs g (ids.map φ) = (hashPairs f ids).map φ := by
  induction ids using hashPairs.induct with
  | case1 => rfl
  | case2 a => rfl
  | case3 a b ids ih => simp [hashPairs, h, ih]

/-- Two ways to hash that correspond on pairs correspond on levels. -/
theorem hashLevels_map (h : ∀ a b, φ (f a b) = g (φ a) (φ b)) (ids : List D) :
    hashLevels g (ids.map φ) = (hashLevels f ids).map φ := by
  induction ids using hashLevels.induct f with
  | case1 => simp [hashLevels]
  | case2 a => simp [hashLevels]
  | case3 a b ids ih =>
    rw [hashLevels, ← ih, ← hashPairs_map h, map_cons, map_cons, hashLevels]

end Passes

def MerkleHashes.calculateMerkleRoot {T D C : Type} (H : MerkleHashes T D C)
    (transactions : List T) : C :=
  match hashLevels H.hashPair (transactions.map H.merkleDigest) with
  | none => H.zero
  | some id => H.hash id

/-- What was hashed. -/
inductive MerkleTree (T : Type)
  | leaf (transaction : T)
  | node (left right : MerkleTree T)

namespace MerkleTree

variable {T D C : Type} {H : MerkleHashes T D C}

def leaves : MerkleTree T → List T
  | leaf transaction => [transaction]
  | node left right => left.leaves ++ right.leaves

def digest (H : MerkleHashes T D C) : MerkleTree T → D
  | leaf transaction => H.merkleDigest transaction
  | node left right => H.hashPair (left.digest H) (right.digest H)

/-- Collision-free hashes give collision-free digests. -/
theorem digest_injective (hleaf : Injective H.merkleDigest) (hnode : Injective2 H.hashPair)
    (hne : ∀ t a b, H.merkleDigest t ≠ H.hashPair a b) : Injective (digest H) := by
  intro t
  induction t with
  | leaf transaction =>
    rintro (other | ⟨l, r⟩) h
    · exact congrArg leaf (hleaf h)
    · exact (hne _ _ _ h).elim
  | node left right ihl ihr =>
    rintro (other | ⟨l, r⟩) h
    · exact (hne _ _ _ h.symm).elim
    · obtain ⟨hl, hr⟩ := hnode h
      rw [ihl hl, ihr hr]

/-- A level of the tree keeps the leaves. -/
theorem leaves_hashPairs (trees : List (MerkleTree T)) :
    (hashPairs node trees).flatMap leaves = trees.flatMap leaves := by
  induction trees using hashPairs.induct with
  | case1 => rfl
  | case2 t => rfl
  | case3 a b trees ih => simp [hashPairs, leaves, ih]

/-- No level loses, repeats or moves a leaf. -/
theorem leaves_hashLevels (trees : List (MerkleTree T)) :
    (hashLevels node trees).elim [] leaves = trees.flatMap leaves := by
  induction trees using hashLevels.induct node with
  | case1 => simp [hashLevels]
  | case2 t => simp [hashLevels]
  | case3 a b trees ih => rw [hashLevels, ih, leaves_hashPairs]

end MerkleTree

open MerkleTree

/-- The root determines the transactions. -/
theorem calculateMerkleRoot_injective {T D C : Type} {H : MerkleHashes T D C}
    (hdigest : Injective H.merkleDigest) (hpair : Injective2 H.hashPair) (hhash : Injective H.hash)
    (hne : ∀ t a b, H.merkleDigest t ≠ H.hashPair a b) (hzero : ∀ d, H.hash d ≠ H.zero) :
    Injective H.calculateMerkleRoot := by
  have hroot : ∀ l : List T, hashLevels H.hashPair (l.map H.merkleDigest) =
      (hashLevels node (l.map leaf)).map (digest H) := by
    intro l
    rw [← hashLevels_map (fun _ _ => rfl), map_map]
    rfl
  have hleaves : ∀ l : List T, (hashLevels node (l.map leaf)).elim [] leaves = l := by
    intro l
    rw [leaves_hashLevels, flatMap_map]
    exact flatMap_singleton' l
  intro l m h
  rw [MerkleHashes.calculateMerkleRoot, MerkleHashes.calculateMerkleRoot, hroot, hroot] at h
  rw [← hleaves l, ← hleaves m]
  cases hl : hashLevels node (l.map leaf) <;> cases hm : hashLevels node (m.map leaf) <;>
    simp only [hl, hm, Option.map_none, Option.map_some] at h
  · rfl
  · exact (hzero _ h.symm).elim
  · exact (hzero _ h).elim
  · rw [digest_injective hdigest hpair hne (hhash h)]

/-- Hashes without collisions: the trees themselves. -/
def treeHashes : MerkleHashes Nat (MerkleTree Nat) (Option (MerkleTree Nat)) :=
  ⟨leaf, node, some, none⟩

theorem calculateMerkleRoot_treeHashes : Injective treeHashes.calculateMerkleRoot :=
  calculateMerkleRoot_injective (fun _ _ h => MerkleTree.leaf.inj h)
    (fun _ _ _ _ h => MerkleTree.node.inj h) (fun _ _ h => Option.some.inj h)
    (fun _ _ _ h => nomatch h) (fun _ h => nomatch h)

end Freezone.Protocol
