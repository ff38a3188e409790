import Mathlib.Data.Finset.Insert
import Mathlib.Data.Finset.Card
import PolarCloud.Base.SyncMap
import PolarCloud.Model.Utils.TimeTask

/-! # Votes

A `PollManager` keeps, for each class and each parameter, the hashes of the replies that voted for it. A pair that is
voted for the first time is scheduled for its removal.
-/

namespace PolarCloud.Polls

/-- The keys of `replyHash`; all its values are zero. -/
structure Vote where
  replyHash : Finset String
deriving DecidableEq

structure Poll where
  votes : SyncMap String Vote

structure PollManager where
  data : SyncMap String Poll := .empty
  timetask : TimeTask.Task := {}

namespace PollManager

/-- `Vote`, where the class is there. -/
def voteIn (this : PollManager) (one : Poll) (class_ params replyHash : String) : Bool × PollManager :=
  match one.votes.load params with
  | some vOne =>
      let vOne : Vote := { replyHash := insert replyHash vOne.replyHash }
      (8 ≤ vOne.replyHash.card, { this with data := this.data.store class_ { votes := one.votes.store params vOne } })
  | none =>
      (false, { data := this.data.store class_ { votes := one.votes.store params { replyHash := {replyHash} } }
                timetask := this.timetask.add (this.timetask.unix + 3) class_ params })

/-- A class that is not there is stored, and `Vote` calls itself; what that call returns is thrown away. -/
def vote (this : PollManager) (class_ params replyHash : String) : Bool × PollManager :=
  match this.data.load class_ with
  | some one => this.voteIn one class_ params replyHash
  | none =>
      let p : Poll := { votes := .empty }
      (false, (voteIn { this with data := this.data.store class_ p } p class_ params replyHash).2)

def removePross (this : PollManager) (class_ param : String) : PollManager :=
  match this.data.load class_ with
  | some pOne => { this with data := this.data.store class_ { votes := pOne.votes.delete param } }
  | none => this

end PollManager

/-- A call. -/
inductive Event
  | vote (class_ params replyHash : String)
  | removePross (class_ param : String)
deriving DecidableEq

def PollManager.step (this : PollManager) : Event → PollManager
  | .vote class_ params replyHash => (this.vote class_ params replyHash).2
  | .removePross class_ param => this.removePross class_ param

/-- `NewPollManager` after a run of calls. -/
def run (events : List Event) : PollManager := events.foldl PollManager.step {}

end PolarCloud.Polls
