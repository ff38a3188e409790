import PolarCloud.Base.SyncMap
import PolarCloud.Model.NodeStore.NodeManager

/-! # The shared cache

Every node keeps records by the hash of their keys and sends them to the nodes that answer for the hash: after a
change, and again and again from the nodes that lead the team of the key. A deletion travels as a record that is
marked. Records are kept as text, which stands for the record itself here. Messages stay in the network: they may
be delivered any number of times, or never.
-/

namespace PolarCloud.Cache

open NodeStore

structure CacheData where
  kbyte : Bytes
  key : Multihash
  value : Option Bytes
  ownid : List Multihash := []
  time : ℕ
  del : Bool := false
deriving DecidableEq, Repr

/-- The records by the hashes of their keys, and when the last one was received. -/
structure CacheStore where
  data : SyncMap Multihash CacheData := .empty
  time : ℕ := 0

section Store

variable (buildHash : Bytes → Multihash)

def newCacheData (key : Bytes) (value : Option Bytes) (now : ℕ) : CacheData :=
  { kbyte := key, key := buildHash key, value, time := now }

namespace CacheStore

def save (this : CacheStore) (d : CacheData) : CacheStore := { this with data := this.data.store d.key d }

/-- The value of a key; nil when there is no record, or a record without a value. -/
def get (this : CacheStore) (key : Bytes) : Option Bytes := (this.data.load (buildHash key)).bind (·.value)

def del (this : CacheStore) (key : Bytes) : CacheStore := { this with data := this.data.delete (buildHash key) }

def upTime (this : CacheStore) (now : ℕ) : CacheStore := { this with time := now }

/-- A record is received. One that is marked deletes its key, and is saved nevertheless. -/
def syncData (this : CacheStore) (self : Multihash) (now : ℕ) (cachedata : CacheData) : CacheStore :=
  let store := if cachedata.del then this.del buildHash cachedata.kbyte else this
  let cachedata := if self ∈ cachedata.ownid then { cachedata with time := now } else cachedata
  (store.save cachedata).upTime now

def timeIntervalClearCache : ℕ := 30

/-- A node that has not received a record for long forgets all of them. -/
def taskClearCache (this : CacheStore) (now : ℕ) : CacheStore :=
  if timeIntervalClearCache < now - this.time then { time := now } else this

end CacheStore

end Store

/-- The stores of all nodes, and all records that were ever sent. -/
structure Network where
  store : Multihash → CacheStore := fun _ => {}
  messages : List CacheData := []

/-- What can happen at a node: a key is added, updated or deleted, a record is sent, as it is done after a change
and by leaders all the time, one of the records that were sent is received, or the cache is cleared. -/
inductive Event where
  | add (self : Multihash) (key : Bytes) (value : Option Bytes) (now : ℕ)
  | update (self : Multihash) (key : Bytes) (value : Option Bytes) (now : ℕ)
  | del (self : Multihash) (key : Bytes)
  | sync (self khash : Multihash)
  | syncData (self : Multihash) (message now : ℕ)
  | clear (self : Multihash) (now : ℕ)
deriving DecidableEq, Repr

namespace Network

variable (buildHash : Bytes → Multihash)

def setStore (this : Network) (self : Multihash) (store : CacheStore) : Network :=
  { this with store := fun other => if other = self then store else this.store other }

/-- Mark the record of a key for deletion, send it, and delete it here; nothing when there is none. -/
def del (this : Network) (self : Multihash) (key : Bytes) : Network :=
  match (this.store self).data.load (buildHash key) with
  | none => this
  | some cachedata =>
      { this.setStore self ((this.store self).del buildHash key) with
        messages := this.messages ++ [{ cachedata with del := true }] }

def syncDataToQuarterLogicIds (this : Network) (self khash : Multihash) : Network :=
  match (this.store self).data.load khash with
  | none => this
  | some cachedata => { this with messages := this.messages ++ [cachedata] }

def step (this : Network) : Event → Network
  | .add self key value now => this.setStore self ((this.store self).save (newCacheData buildHash key value now))
  | .update self key value now => this.setStore self ((this.store self).save (newCacheData buildHash key value now))
  | .del self key => this.del buildHash self key
  | .sync self khash => this.syncDataToQuarterLogicIds self khash
  | .syncData self message now =>
      match this.messages[message]? with
      | none => this
      | some cachedata => this.setStore self ((this.store self).syncData buildHash self now cachedata)
  | .clear self now => this.setStore self ((this.store self).taskClearCache now)

def run (events : List Event) : Network := events.foldl (step buildHash) {}

end Network

end PolarCloud.Cache
