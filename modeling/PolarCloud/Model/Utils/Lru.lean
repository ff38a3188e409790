import Mathlib.Algebra.Order.Ring.Int
import PolarCloud.Base.SyncMap

/-! # A cache of the entries that were used last

The elements of a list know their entries, a map knows the element of each key, and the elements are moved about in
the list while the map keeps pointing at them. Whoever is in front was used last, and what is at the back is removed
when there are too many.
-/

namespace PolarCloud.Lru

universe u v

structure Entry (κ : Type u) (α : Type v) where
  key : κ
  value : α
deriving DecidableEq, Repr

/-- Elements are known by their positions in `elements`, where they stay; `ll` has those that are in the list, from the
front to the back. The map and the list are nil together. -/
structure Cache (κ : Type u) (α : Type v) where
  maxEntries : ℤ
  elements : List (Entry κ α) := []
  ll : List ℕ := []
  cache : Option (SyncMap κ ℕ)

def newCache {κ : Type u} {α : Type v} (maxEntries : ℤ) : Cache κ α := { maxEntries, cache := some .empty }

def moveToFront (ll : List ℕ) (ele : ℕ) : List ℕ := ele :: ll.erase ele

namespace Cache

variable {κ : Type u} {α : Type v} [DecidableEq κ]

def removeElement (this : Cache κ α) (ele : ℕ) : Cache κ α :=
  match this.elements[ele]? with
  | none => this
  | some kv => { this with ll := this.ll.erase ele, cache := this.cache.map fun cache => cache.delete kv.key }

def removeOldest (this : Cache κ α) : Cache κ α :=
  match this.cache with
  | none => this
  | some _ =>
      match this.ll.getLast? with
      | none => this
      | some ele => this.removeElement ele

/-- `Add`, where the map is there. -/
def addIn (this : Cache κ α) (cache : SyncMap κ ℕ) (key : κ) (value : α) : Cache κ α :=
  match cache.load key with
  | some ee =>
      { this with
        cache := some cache
        ll := moveToFront this.ll ee
        elements := this.elements.modify ee fun one => { one with value } }
  | none =>
      let ele := this.elements.length
      let added : Cache κ α :=
        { this with
          elements := this.elements ++ [{ key, value }]
          ll := ele :: this.ll
          cache := some (cache.store key ele) }
      if this.maxEntries ≠ 0 ∧ this.maxEntries < added.ll.length then added.removeOldest else added

def add (this : Cache κ α) (key : κ) (value : α) : Cache κ α :=
  match this.cache with
  | none => addIn { this with ll := [] } .empty key value
  | some cache => this.addIn cache key value

def get (this : Cache κ α) (key : κ) : Cache κ α × Option α :=
  match this.cache with
  | none => (this, none)
  | some cache =>
      match cache.load key with
      | some ele => ({ this with ll := moveToFront this.ll ele }, this.elements[ele]?.map Entry.value)
      | none => (this, none)

def remove (this : Cache κ α) (key : κ) : Cache κ α :=
  match this.cache with
  | none => this
  | some cache =>
      match cache.load key with
      | some ele => this.removeElement ele
      | none => this

omit [DecidableEq κ] in
def len (this : Cache κ α) : ℕ :=
  match this.cache with
  | none => 0
  | some _ => this.ll.length

omit [DecidableEq κ] in
def clear (this : Cache κ α) : Cache κ α := { this with ll := [], cache := none }

end Cache

inductive Call (κ : Type u) (α : Type v) where
  | add (key : κ) (value : α)
  | get (key : κ)
  | remove (key : κ)
  | removeOldest
  | len
  | clear
deriving DecidableEq, Repr

/-- What a call returns. -/
inductive Answer (α : Type v) where
  | done
  | value (found : Option α)
  | count (n : ℕ)
deriving DecidableEq, Repr

def Cache.step {κ : Type u} {α : Type v} [DecidableEq κ] (this : Cache κ α) : Call κ α → Cache κ α × Answer α
  | .add key value => (this.add key value, .done)
  | .get key => ((this.get key).1, .value (this.get key).2)
  | .remove key => (this.remove key, .done)
  | .removeOldest => (this.removeOldest, .done)
  | .len => (this, .count this.len)
  | .clear => (this.clear, .done)

end PolarCloud.Lru
