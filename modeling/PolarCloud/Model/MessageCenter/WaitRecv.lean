import PolarCloud.Base.Base64
import PolarCloud.Base.SyncMap

/-! # Waiting for replies

A request is sent first, and its sender registers afterwards: under its class there is a table, and in the table a
channel under the request's tag. The look-ups and the stores on the way are single operations of concurrent maps,
and other senders and replies come between them. A channel holds one reply; a reply that finds no class, no tag or
no room is dropped. A sender that waits takes what comes first, a reply or the end of its time.
-/

namespace PolarCloud.WaitRecv

/-- How far a sender is: it has sent, has found no table for its class, has found one, has found no channel there,
waits on a channel, and has returned with a reply or without. -/
inductive Stage where
  | sent
  | unclassed
  | classed (table : ℕ)
  | untagged (table : ℕ)
  | waiting (table channel : ℕ)
  | returned (bs : Option Bytes)
  | expired
deriving DecidableEq, Repr

structure Request where
  class_ : String
  tag : Bytes
  stage : Stage := .sent
deriving DecidableEq, Repr

/-- How far a reply is: it has arrived, has found the table of its class, has found a channel, and is done. -/
inductive Phase where
  | arrived
  | classed (table : ℕ)
  | tagged (channel : ℕ)
  | done
deriving DecidableEq, Repr

/-- A reply to a request. -/
structure Response where
  request : ℕ
  bs : Option Bytes
  phase : Phase := .arrived
deriving DecidableEq, Repr

/-- Tables and channels are known by their positions, as objects are by their addresses. -/
structure Center where
  waitRequest : SyncMap String ℕ := .empty
  tagMaps : List (SyncMap Bytes ℕ) := []
  channels : List (Option (Option Bytes)) := []
  requests : List Request := []
  responses : List Response := []

/-- One operation of a sender or of the receiver of a reply. -/
inductive Event where
  | send (class_ : String) (tag : Bytes)
  | loadClass (request : ℕ)
  | storeClass (request : ℕ)
  | loadTag (request : ℕ)
  | storeTag (request : ℕ)
  | receive (request : ℕ)
  | timeout (request : ℕ)
  | reply (request : ℕ) (bs : Option Bytes)
  | findClass (response : ℕ)
  | findTag (response : ℕ)
  | put (response : ℕ)
deriving DecidableEq, Repr

namespace Center

def tagMap (this : Center) (table : ℕ) : SyncMap Bytes ℕ := this.tagMaps[table]?.getD .empty

/-- What a channel holds. -/
def buffer (this : Center) (channel : ℕ) : Option (Option Bytes) := (this.channels[channel]?).join

def setStage (this : Center) (request : ℕ) (stage : Stage) : Center :=
  { this with requests := this.requests.modify request fun one => { one with stage } }

def setPhase (this : Center) (response : ℕ) (phase : Phase) : Center :=
  { this with responses := this.responses.modify response fun one => { one with phase } }

/-- The operations of `WaitRequest`, each where it stands in the function. -/
def waitStep (this : Center) (request : ℕ) (one : Request) : Event → Center
  | .loadClass _ =>
      if one.stage ≠ .sent then this
      else
        match this.waitRequest.load one.class_ with
        | none => this.setStage request .unclassed
        | some table => this.setStage request (.classed table)
  | .storeClass _ =>
      if one.stage ≠ .unclassed then this
      else
        { this.setStage request (.waiting this.tagMaps.length this.channels.length) with
          waitRequest := this.waitRequest.store one.class_ this.tagMaps.length,
          tagMaps := this.tagMaps ++ [SyncMap.empty.store one.tag this.channels.length],
          channels := this.channels ++ [none] }
  | .loadTag _ =>
      match one.stage with
      | .classed table =>
          match (this.tagMap table).load one.tag with
          | none => this.setStage request (.untagged table)
          | some channel => this.setStage request (.waiting table channel)
      | _ => this
  | .storeTag _ =>
      match one.stage with
      | .untagged table =>
          { this.setStage request (.waiting table this.channels.length) with
            tagMaps := this.tagMaps.modify table fun map => map.store one.tag this.channels.length,
            channels := this.channels ++ [none] }
      | _ => this
  | .receive _ =>
      match one.stage with
      | .waiting _ channel =>
          match this.buffer channel with
          | none => this
          | some bs => { this.setStage request (.returned bs) with channels := this.channels.set channel none }
      | _ => this
  | .timeout _ =>
      match one.stage with
      | .waiting table channel =>
          match this.buffer channel with
          | some _ => this
          | none =>
              { this.setStage request .expired with
                tagMaps := this.tagMaps.modify table fun map => map.delete one.tag }
      | _ => this
  | _ => this

/-- The operations of `ResponseWait`. -/
def responseStep (this : Center) (response : ℕ) (one : Response) (request : Request) : Event → Center
  | .findClass _ =>
      if one.phase ≠ .arrived then this
      else
        match this.waitRequest.load request.class_ with
        | none => this.setPhase response .done
        | some table => this.setPhase response (.classed table)
  | .findTag _ =>
      match one.phase with
      | .classed table =>
          match (this.tagMap table).load request.tag with
          | none => this.setPhase response .done
          | some channel => this.setPhase response (.tagged channel)
      | _ => this
  | .put _ =>
      match one.phase with
      | .tagged channel =>
          match this.buffer channel with
          | some _ => this.setPhase response .done
          | none => { this.setPhase response .done with channels := this.channels.set channel (some one.bs) }
      | _ => this
  | _ => this

/-- The sender that an event is an operation of. -/
def sender (this : Center) (request : ℕ) (event : Event) : Center :=
  match this.requests[request]? with
  | none => this
  | some one => this.waitStep request one event

/-- The receiver of a reply that an event is an operation of. -/
def receiver (this : Center) (response : ℕ) (event : Event) : Center :=
  match this.responses[response]? with
  | none => this
  | some one =>
      match this.requests[one.request]? with
      | none => this
      | some request => this.responseStep response one request event

/-- Replies are to requests that were sent. -/
def step (this : Center) (event : Event) : Center :=
  match event with
  | .send class_ tag => { this with requests := this.requests ++ [{ class_, tag }] }
  | .reply request bs =>
      if request < this.requests.length then { this with responses := this.responses ++ [{ request, bs }] } else this
  | .loadClass request | .storeClass request | .loadTag request | .storeTag request | .receive request
  | .timeout request =>
      this.sender request event
  | .findClass response | .findTag response | .put response => this.receiver response event

def run (events : List Event) : Center := events.foldl step {}

end Center

end PolarCloud.WaitRecv
