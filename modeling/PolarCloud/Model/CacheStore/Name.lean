import PolarCloud.Base.SyncMap
import PolarCloud.Model.NodeStore.NodeManager

/-! # Names and their addresses

A name has the addresses under which it can be reached. Its lock is an object of its own, which a name made without
the constructor does not have; taking a lock that is not there is a panic. Names that are being registered are kept
in a table of their own, from which they are made permanent.
-/

namespace PolarCloud.CacheStore

/-- The address of a peer at a super peer. -/
structure TempId where
  superPeerId : Multihash
  peerId : Multihash
  updateTime : ℤ
deriving DecidableEq, Repr

namespace TempId

def newTempId (superId peerId : Multihash) (now : ℤ) : TempId := { superPeerId := superId, peerId, updateTime := now }

def pair (this : TempId) : Multihash × Multihash := (this.superPeerId, this.peerId)

end TempId

structure Name where
  name : String
  lock : Bool := false
  ids : List TempId := []
  publicKey : Bytes := []
  exist : Bool := false
deriving DecidableEq, Repr

namespace Name

def newName (name : String) (ids : List TempId) (publicKey : Bytes) : Name := { name, lock := true, ids, publicKey }

/-- As many items as there is room for replace those of a slice. -/
def copy {α : Type} (dst src : List α) : List α := src.take dst.length ++ dst.drop src.length

/-- An address that is new is added; none is a panic. -/
def addId (this : Name) (sid pid : Multihash) (now : ℤ) : Option (Bool × Name) :=
  if this.lock then
    if this.ids.any fun one => one.pair = (sid, pid) then some (false, this)
    else some (true, { this with ids := this.ids ++ [TempId.newTempId sid pid now] })
  else none

/-- Delete an address; none is a panic. -/
def delId (this : Name) (sid pid : Multihash) : Option Name :=
  if this.lock then
    match this.ids.findIdx? fun one => one.pair = (sid, pid) with
    -- the slice that is copied to has no room
    | some i => some { this with ids := copy [] (this.ids.take i) ++ this.ids.drop (i + 1) }
    | none => some this
  else none

inductive Call where
  | addId (sid pid : Multihash) (now : ℤ)
  | delId (sid pid : Multihash)
deriving DecidableEq, Repr

def call (this : Name) : Call → Option Name
  | .addId sid pid now => (this.addId sid pid now).map Prod.snd
  | .delId sid pid => this.delId sid pid

/-- Nothing is called after a panic. -/
def step (state : Option Name) (call : Call) : Option Name := state.bind fun this => this.call call

end Name

/-- The names that are being registered and the permanent ones. Names are known by their positions, as objects are
by their addresses. -/
structure Names where
  objects : List Name := []
  tempName : SyncMap String ℕ := .empty
  foreverName : SyncMap String ℕ := .empty

/-- A caller makes a name in any way, a name is registered, the registration ends, or it is made permanent; a name is
made permanent by a caller. -/
inductive Event where
  | makeName (name : Name)
  | addBuildName (name : String)
  | removeTempName (name : String)
  | switchNameForForever (name : String)
  | addForeverName (ref : ℕ)
deriving DecidableEq, Repr

namespace Names

def findNameInForever (this : Names) (name : String) : Option Name :=
  (this.foreverName.load name).bind fun ref => this.objects[ref]?

def makeName (this : Names) (name : Name) : Names := { this with objects := this.objects ++ [name] }

/-- A name that is not registered yet is made, but not with the constructor. -/
def addBuildName (this : Names) (name : String) : Bool × Names :=
  match this.tempName.load name with
  | some _ => (false, this)
  | none => (true, { this.makeName { name } with tempName := this.tempName.store name this.objects.length })

def removeTempName (this : Names) (name : String) : Names := { this with tempName := this.tempName.delete name }

def switchNameForForever (this : Names) (name : String) : Names :=
  match this.tempName.load name with
  | some nameOne => { this with foreverName := this.foreverName.store name nameOne }
  | none => this

/-- The name gets a new lock. -/
def addForeverName (this : Names) (ref : ℕ) : Names :=
  match this.objects[ref]? with
  | some name =>
      { this with
        objects := this.objects.set ref { name with lock := true }
        foreverName := this.foreverName.store name.name ref }
  | none => this

def step (this : Names) : Event → Names
  | .makeName name => this.makeName name
  | .addBuildName name => (this.addBuildName name).2
  | .removeTempName name => this.removeTempName name
  | .switchNameForForever name => this.switchNameForForever name
  | .addForeverName ref => this.addForeverName ref

end Names

end PolarCloud.CacheStore
