import PolarCloud.Base.LittleEndian
import PolarCloud.Model.Utils

/-! # The Merkle root of the transactions of a block -/

namespace PolarCloud.Mining

/-- `binary.BigEndian.PutUint64` -/
def putUint64 (n : UInt64) : Bytes := (LittleEndian.put 8 n.toNat).reverse

/-- Hash the nodes of a level in pairs, an odd last one with the first; a single node is returned behind its level.
Nothing is returned when the fuel runs out. -/
def merkleroot (rt : Runtime) : ℕ → UInt64 → List Bytes → Option (List Bytes)
  | 0, _, _ => none
  | fuel + 1, level, tx =>
      let b := putUint64 level
      if tx.length = 1 then some [b ++ tx.headD []]
      else
        let newtx := (List.range (tx.length / 2)).map fun i =>
          rt.sha3 (b ++ (tx.getD (i * 2) [] ++ tx.getD ((i + 1) * 2 - 1) []))
        let newtx := if tx.length % 2 ≠ 0 then newtx ++ [rt.sha3 (b ++ (tx.headD [] ++ tx.getLastD []))] else newtx
        merkleroot rt fuel (level + 1) newtx

def buildMerkleRoot (rt : Runtime) (fuel : ℕ) (tx : List Bytes) : Option Bytes :=
  if tx.length = 0 then some []
  else if tx.length = 1 then
    let b := putUint64 1
    some (rt.sha3 (b ++ (tx.headD [] ++ tx.headD [])))
  else do
    let txbs ← merkleroot rt fuel 0 tx
    txbs.head?

end PolarCloud.Mining
