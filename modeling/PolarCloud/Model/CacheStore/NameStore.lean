import PolarCloud.Model.CacheStore.Name

/-! # Waiting for names

Whoever asks for a name that is not in the cache waits at a channel that is kept under the name, and shared by all who
ask while it is there. The channel is taken out of the map before anything is sent to it: one address when the name is
found, and nothing again and again until the channel is closed, when it does not exist.

The look-up of a name in the cache and that of its channel are one step here, as they are under one lock; so are the
changes of both when a name is added. A notice locks the map alone, and does not read the cache.
-/

namespace PolarCloud.CacheStore

/-- A channel with room for one. -/
structure Channel where
  buffer : Option (Option TempId) := none
  closed : Bool := false
deriving DecidableEq, Repr

/-- Take what a channel holds; from one that is closed there is nothing to take, and nothing to wait for. -/
def Channel.receive (this : Channel) : Option (Option TempId × Channel) :=
  match this.buffer with
  | some out => some (out, { this with buffer := none })
  | none => if this.closed then some (none, this) else none

/-- A call waits at a channel, or has returned; from the cache, if there was no channel. -/
inductive Stage where
  | waiting (channel : ℕ)
  | returned (channel : Option ℕ) (out : Option TempId)
deriving DecidableEq, Repr

structure Caller where
  name : String
  stage : Stage
deriving DecidableEq, Repr

/-- What is told of a name: that it does not exist, or its addresses, of which one is drawn. -/
inductive Answer where
  | notExist
  | found (ids : List TempId) (n : ℕ)
deriving DecidableEq, Repr

/-- An address, drawn with a random number when there is a choice. -/
def oneOf (ids : List TempId) (n : ℕ) : Option TempId :=
  match ids with
  | [] => none
  | [id] => some id
  | _ => ids[n % ids.length]?

def Answer.id : Answer → Option TempId
  | .notExist => none
  | .found ids n => oneOf ids n

/-- Who has taken a channel out of the map, and sends to it until it is done. -/
structure Sender where
  name : String
  channel : ℕ
  answer : Answer
  done : Bool := false
deriving DecidableEq, Repr

/-- One turn of a sender's loop: an address is sent if there is room, and that is all; nothing is sent as long as there
is room, and then the channel is closed. -/
def Sender.turn (this : Sender) (channel : Channel) : Sender × Channel :=
  match this.answer with
  | .found ids n =>
      ({ this with done := true },
        if channel.buffer.isNone then { channel with buffer := some (oneOf ids n) } else channel)
  | .notExist =>
      if channel.buffer.isNone then (this, { channel with buffer := some none })
      else ({ this with done := true }, { channel with closed := true })

/-- Channels are known by their positions. -/
structure NameStore where
  nameCache : SyncMap String (List TempId) := .empty
  nameCacheMap : SyncMap String ℕ := .empty
  channels : List Channel := []
  callers : List Caller := []
  senders : List Sender := []

/-- A call begins, the cache drops a name for others, a sender takes a turn, or a caller takes what its channel has. -/
inductive StoreEvent where
  | getAddressInName (name : String) (n : ℕ)
  | noticeNameNotExist (name : String)
  | addAddressInName (name : String) (ids : List TempId) (n : ℕ)
  | removeOldest (name : String)
  | send (sender : ℕ)
  | receive (caller : ℕ)
deriving DecidableEq, Repr

namespace NameStore

def getAddressInName (this : NameStore) (name : String) (n : ℕ) : NameStore :=
  match this.nameCache.load name with
  | some ids => { this with callers := this.callers ++ [{ name, stage := .returned none (oneOf ids n) }] }
  | none =>
      match this.nameCacheMap.load name with
      | some channel => { this with callers := this.callers ++ [{ name, stage := .waiting channel }] }
      | none =>
          { this with
            nameCacheMap := this.nameCacheMap.store name this.channels.length
            channels := this.channels ++ [{}]
            callers := this.callers ++ [{ name, stage := .waiting this.channels.length }] }

/-- The channel of a name, if anyone waits there, is taken to send an answer to it. -/
def take (this : NameStore) (name : String) (answer : Answer) : NameStore :=
  match this.nameCacheMap.load name with
  | some channel =>
      { this with
        nameCacheMap := this.nameCacheMap.delete name
        senders := this.senders ++ [{ name, channel, answer }] }
  | none => this

def noticeNameNotExist (this : NameStore) (name : String) : NameStore := this.take name .notExist

/-- A name without addresses is not kept in the cache. -/
def addAddressInName (this : NameStore) (name : String) (ids : List TempId) (n : ℕ) : NameStore :=
  if ids.length ≠ 0 then { this with nameCache := this.nameCache.store name ids }.take name (.found ids n)
  else this.take name (.found ids n)

def removeOldest (this : NameStore) (name : String) : NameStore :=
  { this with nameCache := this.nameCache.delete name }

def send (this : NameStore) (place : ℕ) : NameStore :=
  match this.senders[place]? with
  | none => this
  | some sender =>
      if sender.done then this
      else
        match this.channels[sender.channel]? with
        | none => this
        | some channel =>
            let (sender', channel) := sender.turn channel
            { this with
              channels := this.channels.set sender.channel channel
              senders := this.senders.set place sender' }

def receive (this : NameStore) (place : ℕ) : NameStore :=
  match this.callers[place]? with
  | some { name, stage := .waiting channel } =>
      match this.channels[channel]?.bind Channel.receive with
      | none => this
      | some (out, left) =>
          { this with
            channels := this.channels.set channel left
            callers := this.callers.set place { name, stage := .returned channel out } }
  | _ => this

def step (this : NameStore) : StoreEvent → NameStore
  | .getAddressInName name n => this.getAddressInName name n
  | .noticeNameNotExist name => this.noticeNameNotExist name
  | .addAddressInName name ids n => this.addAddressInName name ids n
  | .removeOldest name => this.removeOldest name
  | .send sender => this.send sender
  | .receive caller => this.receive caller

end NameStore

end PolarCloud.CacheStore
