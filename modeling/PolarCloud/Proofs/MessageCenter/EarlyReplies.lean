import Mathlib.Order.Nat
import PolarCloud.Proofs.MessageCenter.Replies

/-! # Replies that came too early

A reply that stays in a channel is there for whoever comes next. A request that begins while there is none for its pair,
and none on the way, returns with one that arrived later.
-/

namespace PolarCloud.WaitRecv

open Center

variable {center : Center} {w : ℕ} {one : Request}

theorem lt_of_buffer {channel : ℕ} {bs : Option Bytes} (full : center.buffer channel = some bs) :
    channel < center.channels.length := by
  by_contra beyond
  rw [buffer, List.getElem?_eq_none (Nat.not_lt.mp beyond)] at full
  cases full

/-- A center, and for each request how many replies had arrived when it began. -/
structure Watched where
  center : Center := {}
  begun : ℕ → ℕ := fun _ => 0

namespace Watched

def step (this : Watched) (event : Event) : Watched where
  center := this.center.step event
  begun :=
    match event with
    | .loadClass w =>
        if this.center.requests[w]?.map Request.stage = some .sent then
          Function.update this.begun w this.center.responses.length
        else this.begun
    | _ => this.begun

/-- A reply for the class and the tag of a request that arrived after it began. -/
def Came (this : Watched) (w : ℕ) (one : Request) (bs : Option Bytes) : Prop :=
  ∃ (r : ℕ) (response : Response) (two : Request), this.begun w ≤ r ∧ this.center.responses[r]? = some response ∧
    response.bs = bs ∧ this.center.requests[response.request]? = some two ∧ two.class_ = one.class_ ∧ two.tag = one.tag

/-- What requests return arrived after they began. -/
def OwnReplies (this : Watched) : Prop :=
  ∀ (w : ℕ) one bs, this.center.requests[w]? = some one → one.stage = .returned bs → this.Came w one bs

/-- A request begins while no reply for its class and tag is on the way, and none lies in the channel under which the
pair is registered. -/
def BeginsAlone (this : Watched) : Event → Prop
  | .loadClass w => ∀ one, this.center.requests[w]? = some one → one.stage = .sent →
      (∀ (r : ℕ) response two, this.center.responses[r]? = some response →
        this.center.requests[response.request]? = some two → two.class_ = one.class_ → two.tag = one.tag →
          response.phase = .done) ∧
      ∀ table channel, this.center.waitRequest.load one.class_ = some table →
        (this.center.tagMap table).load one.tag = some channel → this.center.buffer channel = none
  | _ => True

/-- A channel that a request waits on, or will find in the table that it has found. -/
def Reaches (center : Center) (one : Request) (channel : ℕ) : Prop :=
  (∃ table, one.stage = .waiting table channel) ∨
    ∃ table, one.stage = .classed table ∧ (center.tagMap table).load one.tag = some channel

/-- Whatever a request may still take arrived after it began. -/
structure Fresh (this : Watched) : Prop where
  sound : Sound this.center
  bounded : ∀ w, this.begun w ≤ this.center.responses.length
  inflight : ∀ (w : ℕ) one, this.center.requests[w]? = some one → one.stage ≠ .sent →
    ∀ (r : ℕ) response two, this.center.responses[r]? = some response → response.phase ≠ .done →
      this.center.requests[response.request]? = some two → two.class_ = one.class_ → two.tag = one.tag →
        this.begun w ≤ r
  reached : ∀ (w : ℕ) one, this.center.requests[w]? = some one → ∀ channel bs, Reaches this.center one channel →
    this.center.buffer channel = some bs → this.Came w one bs
  returned : this.OwnReplies

variable {this : Watched} {after : Center} {stage : Stage} {begun : ℕ → ℕ}

theorem Came.keep {two : Request} {bs : Option Bytes} (came : this.Came w one bs) (keeps : Keeps this.center after)
    (begun_eq : begun w = this.begun w) (class_ : two.class_ = one.class_) (tag : two.tag = one.tag) :
    Came { center := after, begun } w two bs := by
  obtain ⟨r, response, three, late, sent, rfl, request, sameClass, sameTag⟩ := came
  obtain ⟨response', sent', sameRequest, sameBs⟩ := keeps.responses r response sent
  obtain ⟨four, request', class', tag'⟩ := keeps.requests _ three request
  refine ⟨r, response', four, begun_eq.le.trans late, sent', sameBs, ?_, ?_, ?_⟩
  · rw [sameRequest]
    exact request'
  · rw [class', sameClass, class_]
  · rw [tag', sameTag, tag]

/-- A request moves on, and finds nothing that it could not have taken before. -/
theorem Fresh.move (fresh : this.Fresh) (sound : Sound after) (found : this.center.requests[w]? = some one)
    (started : one.stage ≠ .sent) (requests : after.requests = (this.center.setStage w stage).requests)
    (responses : after.responses = this.center.responses)
    (buffers : ∀ channel bs, after.buffer channel = some bs → this.center.buffer channel = some bs)
    (maps : ∀ table tag channel bs, (after.tagMap table).load tag = some channel → after.buffer channel = some bs →
      (this.center.tagMap table).load tag = some channel)
    (own : ∀ channel bs, Reaches after { one with stage } channel → after.buffer channel = some bs → this.Came w one bs)
    (result : ∀ bs, stage = .returned bs → this.Came w one bs) : Fresh { center := after, begun := this.begun } := by
  have keeps : Keeps this.center after := by
    obtain ⟨kept, -⟩ := @keeps_setStage this.center w one stage found
    refine ⟨fun v two found' => ?_, fun r response sent => ⟨response, responses ▸ sent, rfl, rfl⟩⟩
    rw [requests]
    exact kept v two found'
  -- a request afterwards is the one that moved, or as it was
  have back {v : ℕ} {two : Request} (found' : after.requests[v]? = some two) :
      v = w ∧ two = { one with stage } ∨ v ≠ w ∧ this.center.requests[v]? = some two := by
    rw [requests] at found'
    exact (Replay.getElem?_modify_iff found).mp found'
  have labels {v : ℕ} {two : Request} (found' : after.requests[v]? = some two) : ∃ before,
      this.center.requests[v]? = some before ∧ before.class_ = two.class_ ∧ before.tag = two.tag ∧
        (two.stage ≠ .sent → before.stage ≠ .sent) := by
    rcases back found' with ⟨rfl, rfl⟩ | ⟨-, found'⟩
    · exact ⟨one, found, rfl, rfl, fun _ => started⟩
    · exact ⟨two, found', rfl, rfl, fun stage => stage⟩
  refine ⟨sound, fun v => ?_, fun v two found' begun r response three sent unfinished request sameClass sameTag => ?_,
    fun v two found' channel bs reaches full => ?_, fun v two bs found' stage' => ?_⟩
  · dsimp only
    rw [responses]
    exact fresh.bounded v
  · dsimp only at sent request
    rw [responses] at sent
    obtain ⟨before, found'', class_, tag, started'⟩ := labels found'
    obtain ⟨before', request', class', tag', -⟩ := labels request
    exact fresh.inflight v before found'' (started' begun) r response before' sent unfinished request'
      (class'.trans (sameClass.trans class_.symm)) (tag'.trans (sameTag.trans tag.symm))
  · rcases back found' with ⟨rfl, rfl⟩ | ⟨apart, found''⟩
    · exact (own channel bs reaches full).keep keeps rfl rfl rfl
    · refine (fresh.reached v two found'' channel bs ?_ (buffers channel bs full)).keep keeps rfl rfl rfl
      exact reaches.imp_right fun ⟨table, stage, known⟩ => ⟨table, stage, maps table _ channel bs known full⟩
  · rcases back found' with ⟨rfl, rfl⟩ | ⟨apart, found''⟩
    · exact (result bs stage').keep keeps rfl rfl rfl
    · exact (fresh.returned v two bs found'' stage').keep keeps rfl rfl rfl

/-- A request begins, and finds the table of its class or none. -/
theorem Fresh.begins (fresh : this.Fresh) (sound : Sound (this.center.setStage w stage))
    (found : this.center.requests[w]? = some one) (sent : one.stage = .sent)
    (alone : this.BeginsAlone (.loadClass w)) (look : stage = .unclassed ∨ ∃ table, stage = .classed table ∧
      this.center.waitRequest.load one.class_ = some table) :
    Fresh { center := this.center.setStage w stage
            begun := Function.update this.begun w this.center.responses.length } := by
  obtain ⟨quiet, empty⟩ := alone one found sent
  have keeps : Keeps this.center (this.center.setStage w stage) := keeps_setStage found
  have other {v : ℕ} (apart : v ≠ w) :
      Function.update this.begun w this.center.responses.length v = this.begun v := Function.update_of_ne apart _ _
  have back {v : ℕ} {two : Request} (found' : (this.center.setStage w stage).requests[v]? = some two) :
      v = w ∧ two = { one with stage } ∨ v ≠ w ∧ this.center.requests[v]? = some two :=
    (Replay.getElem?_modify_iff found).mp found'
  have labels {v : ℕ} {two : Request} (found' : (this.center.setStage w stage).requests[v]? = some two) : ∃ before,
      this.center.requests[v]? = some before ∧ before.class_ = two.class_ ∧ before.tag = two.tag := by
    rcases back found' with ⟨rfl, rfl⟩ | ⟨-, found'⟩
    · exact ⟨one, found, rfl, rfl⟩
    · exact ⟨two, found', rfl, rfl⟩
  refine ⟨sound, fun v => ?_, fun v two found' begun r response three sent' unfinished request sameClass sameTag => ?_,
    fun v two found' channel bs reaches full => ?_, fun v two bs found' stage' => ?_⟩
  · dsimp only
    rw [Function.update_apply]
    split
    · exact le_rfl
    · exact fresh.bounded v
  · obtain ⟨before, request', class', tag'⟩ := labels request
    rcases back found' with ⟨rfl, rfl⟩ | ⟨apart, found''⟩
    · exact absurd (quiet r response before sent' request' (class'.trans sameClass) (tag'.trans sameTag)) unfinished
    · dsimp only
      rw [other apart]
      exact fresh.inflight v two found'' begun r response before sent' unfinished request' (class'.trans sameClass)
        (tag'.trans sameTag)
  · rcases back found' with ⟨rfl, rfl⟩ | ⟨apart, found''⟩
    · -- the channel of the pair is empty now
      rcases look with rfl | ⟨table, rfl, current⟩
      · rcases reaches with ⟨table, waiting⟩ | ⟨table, classed, -⟩
        · cases waiting
        · cases classed
      · rcases reaches with ⟨table', waiting⟩ | ⟨table', classed, known⟩
        · cases waiting
        · cases classed
          have none := empty table channel current known
          exact absurd (none.symm.trans full) nofun
    · exact (fresh.reached v two found'' channel bs reaches full).keep keeps (other apart) rfl rfl
  · rcases back found' with ⟨rfl, rfl⟩ | ⟨apart, found''⟩
    · rcases look with rfl | ⟨table, rfl, -⟩
      · cases stage'
      · cases stage'
    · exact (fresh.returned v two bs found'' stage').keep keeps (other apart) rfl rfl

theorem Fresh.send {class_ : String} {tag : Bytes} (fresh : this.Fresh)
    (sound : Sound { this.center with requests := this.center.requests ++ [{ class_, tag }] }) :
    Fresh { this with center := { this.center with requests := this.center.requests ++ [{ class_, tag }] } } := by
  have keeps : Keeps this.center { this.center with requests := this.center.requests ++ [{ class_, tag }] } :=
    ⟨fun _ one found => ⟨one, getElem?_append_some found, rfl, rfl⟩, fun _ response sent => ⟨response, sent, rfl, rfl⟩⟩
  have back {v : ℕ} {two : Request} (found : (this.center.requests ++ [({ class_, tag } : Request)])[v]? = some two) :
      this.center.requests[v]? = some two ∨ two.stage = .sent := by
    rw [List.getElem?_append] at found
    split at found
    · exact .inl found
    · rw [List.mem_singleton.mp (List.mem_of_getElem? found)]
      exact .inr rfl
  refine ⟨sound, fresh.bounded, fun v two found begun r response three sent unfinished request sameClass sameTag => ?_,
    fun v two found channel bs reaches full => ?_, fun v two bs found stage => ?_⟩
  · obtain ⟨four, known⟩ := fresh.sound.sentTo sent
    have same : four = three := Option.some.inj ((getElem?_append_some known).symm.trans request)
    rw [same] at known
    exact fresh.inflight v two ((back found).resolve_right begun) begun r response three sent unfinished known sameClass
      sameTag
  · rcases back found with found | stage
    · exact (fresh.reached v two found channel bs reaches full).keep keeps rfl rfl rfl
    · rcases reaches with ⟨table, waiting⟩ | ⟨table, classed, -⟩
      · cases stage.symm.trans waiting
      · cases stage.symm.trans classed
  · rcases back found with found | sent
    · exact (fresh.returned v two bs found stage).keep keeps rfl rfl rfl
    · cases stage.symm.trans sent

theorem Fresh.reply {request : ℕ} {bs : Option Bytes} (fresh : this.Fresh)
    (sound : Sound { this.center with responses := this.center.responses ++ [{ request, bs }] }) :
    Fresh { this with center := { this.center with responses := this.center.responses ++ [{ request, bs }] } } := by
  have keeps : Keeps this.center { this.center with responses := this.center.responses ++ [{ request, bs }] } :=
    ⟨fun _ one found => ⟨one, found, rfl, rfl⟩, fun _ response sent => ⟨response, getElem?_append_some sent, rfl, rfl⟩⟩
  refine ⟨sound, fun v => ?_, fun v two found begun r response three sent unfinished request sameClass sameTag => ?_,
    fun v two found channel bs reaches full => ?_, fun v two bs found stage => ?_⟩
  · dsimp only
    rw [List.length_append]
    exact (fresh.bounded v).trans (Nat.le_add_right _ _)
  · dsimp only at sent
    rw [List.getElem?_append] at sent
    split at sent
    · exact fresh.inflight v two found begun r response three sent unfinished request sameClass sameTag
    · next beyond => exact (fresh.bounded v).trans (Nat.not_lt.mp beyond)
  · exact (fresh.reached v two found channel bs reaches full).keep keeps rfl rfl rfl
  · exact (fresh.returned v two bs found stage).keep keeps rfl rfl rfl

/-- A reply goes on, or it is put into a channel, which those reach that wait for its class and tag. -/
theorem Fresh.deliver {r : ℕ} {response : Response} {phase : Phase} (fresh : this.Fresh) (sound : Sound after)
    (found : this.center.responses[r]? = some response) (unfinished : response.phase ≠ .done)
    (responses : after.responses = (this.center.setPhase r phase).responses)
    (requests : after.requests = this.center.requests) (tagMaps : after.tagMaps = this.center.tagMaps)
    (buffers : ∀ channel bs, after.buffer channel = some bs → this.center.buffer channel = some bs ∨
      response.phase = .tagged channel ∧ bs = response.bs) : Fresh { this with center := after } := by
  have keeps : Keeps this.center after := by
    obtain ⟨-, kept⟩ := @keeps_setPhase this.center r response phase found
    refine ⟨fun v two found' => ⟨two, requests ▸ found', rfl, rfl⟩, fun i two sent => ?_⟩
    rw [responses]
    exact kept i two sent
  refine ⟨sound, fun v => ?_, fun v two found' begun i other three sent unfinished' request sameClass sameTag => ?_,
    fun v two found' channel bs reaches full => ?_, fun v two bs found' stage' => ?_⟩
  · dsimp only
    rw [responses, setPhase, List.length_modify]
    exact fresh.bounded v
  · dsimp only at sent found' request
    rw [responses] at sent
    rw [requests] at found' request
    rcases (Replay.getElem?_modify_iff found).mp sent with ⟨rfl, rfl⟩ | ⟨-, sent⟩
    · exact fresh.inflight v two found' begun i response three found unfinished request sameClass sameTag
    · exact fresh.inflight v two found' begun i other three sent unfinished' request sameClass sameTag
  · dsimp only at found' reaches
    rw [requests] at found'
    have reached : Reaches this.center two channel := by
      simpa only [Reaches, tagMap, tagMaps] using reaches
    rcases buffers channel bs full with old | ⟨tagged, rfl⟩
    · exact (fresh.reached v two found' channel bs reached old).keep keeps rfl rfl rfl
    · -- the channel belongs to one class and one tag
      obtain ⟨classes, labels, coherent⟩ := fresh.sound
      obtain ⟨three, request, fits⟩ := coherent.responses r response found
      rw [tagged] at fits
      have known := coherent.requests v two found'
      rw [Request.Fits] at known
      have label : labels[channel]? = some (two.class_, two.tag) := by
        rcases reached with ⟨table, waiting⟩ | ⟨table, classed, held⟩
        · rw [waiting] at known
          exact known
        · rw [classed] at known
          obtain ⟨class_, same, label⟩ := coherent.tagged table two.tag channel held
          cases known.symm.trans same
          exact label
      have pair := Option.some.inj (fits.symm.trans label)
      rw [Prod.mk.injEq] at pair
      have begun : two.stage ≠ .sent := by
        rcases reached with ⟨table, waiting⟩ | ⟨table, classed, -⟩
        · rw [waiting]
          exact Stage.noConfusion
        · rw [classed]
          exact Stage.noConfusion
      have late := fresh.inflight v two found' begun r response three found unfinished request pair.1 pair.2
      exact Came.keep ⟨r, response, three, late, found, rfl, request, pair.1, pair.2⟩ keeps rfl rfl rfl
  · dsimp only at found'
    rw [requests] at found'
    exact (fresh.returned v two bs found' stage').keep keeps rfl rfl rfl

/-- A request registers in a table of its own, and its channel is new. -/
theorem Fresh.register (fresh : this.Fresh) (found : this.center.requests[w]? = some one) (stage : one.stage = .unclassed)
    (registered : after = { this.center.setStage w (.waiting this.center.tagMaps.length this.center.channels.length) with
      waitRequest := this.center.waitRequest.store one.class_ this.center.tagMaps.length,
      tagMaps := this.center.tagMaps ++ [SyncMap.empty.store one.tag this.center.channels.length],
      channels := this.center.channels ++ [none] }) (sound : Sound after) :
    Fresh { center := after, begun := this.begun } := by
  subst registered
  refine fresh.move sound found (by simp [stage]) rfl rfl (fun place bs full => buffer_push rfl full)
    (fun place tag' channel bs known full => ?_) (fun channel bs reaches full => ?_) (by simp)
  · have old := lt_of_buffer (buffer_push rfl full)
    rw [tagMap, List.getElem?_append] at known
    split at known
    · exact known
    · rw [List.getElem?_singleton] at known
      split at known
      · rw [Option.getD_some, SyncMap.load_store] at known
        split at known
        · cases known
          exact absurd old (lt_irrefl _)
        · cases known
      · cases known
  · have old := lt_of_buffer (buffer_push rfl full)
    rcases reaches with ⟨place, ⟨⟩⟩ | ⟨place, classed, -⟩
    · exact absurd old (lt_irrefl _)
    · cases classed

/-- A request registers in the table it has found, and its channel is new. -/
theorem Fresh.enter {table : ℕ} (fresh : this.Fresh) (found : this.center.requests[w]? = some one)
    (stage : one.stage = .untagged table)
    (registered : after = { this.center.setStage w (.waiting table this.center.channels.length) with
      tagMaps := this.center.tagMaps.modify table fun map => map.store one.tag this.center.channels.length,
      channels := this.center.channels ++ [none] }) (sound : Sound after) :
    Fresh { center := after, begun := this.begun } := by
  subst registered
  refine fresh.move sound found (by simp [stage]) rfl rfl (fun place bs full => buffer_push rfl full)
    (fun place tag' channel bs known full => ?_) (fun channel bs reaches full => ?_) (by simp)
  · have old := lt_of_buffer (buffer_push rfl full)
    rcases tagMap_modify known with ⟨rfl, known⟩ | known
    · rw [SyncMap.load_store] at known
      split at known
      · cases known
        exact absurd old (lt_irrefl _)
      · exact known
    · exact known
  · have old := lt_of_buffer (buffer_push rfl full)
    rcases reaches with ⟨place, ⟨⟩⟩ | ⟨place, classed, -⟩
    · exact absurd old (lt_irrefl _)
    · cases classed

/-- A request that only looks finds a channel that it could reach before, or none. -/
theorem Fresh.look {table : ℕ} (fresh : this.Fresh) (found : this.center.requests[w]? = some one)
    (classed : one.stage = .classed table) (looks : stage = .untagged table ∨ ∃ channel, stage = .waiting table channel ∧
      (this.center.tagMap table).load one.tag = some channel) (sound : Sound (this.center.setStage w stage)) :
    Fresh { center := this.center.setStage w stage, begun := this.begun } := by
  refine fresh.move sound found (by simp [classed]) rfl rfl (fun _ _ full => full) (fun _ _ _ _ known _ => known)
    (fun channel bs reaches full => ?_) (fun bs returned => ?_)
  · rcases looks with rfl | ⟨place, rfl, tagged⟩
    · rcases reaches with ⟨table, waiting⟩ | ⟨table, classed, -⟩
      · cases waiting
      · cases classed
    · rcases reaches with ⟨table, ⟨⟩⟩ | ⟨table, classed, -⟩
      · exact fresh.reached _ _ found _ bs (.inr ⟨_, classed, tagged⟩) full
      · cases classed
  · rcases looks with rfl | ⟨place, rfl, -⟩
    · cases returned
    · cases returned

/-- A request takes what lies in its channel, which came after it began. -/
theorem Fresh.take {table channel : ℕ} {bs : Option Bytes} (fresh : this.Fresh)
    (found : this.center.requests[w]? = some one) (stage : one.stage = .waiting table channel)
    (full : this.center.buffer channel = some bs)
    (taken : after = { this.center.setStage w (.returned bs) with channels := this.center.channels.set channel none })
    (sound : Sound after) : Fresh { center := after, begun := this.begun } := by
  subst taken
  refine fresh.move sound found (by simp [stage]) rfl rfl (fun place bs held => ?_)
    (fun _ _ _ _ known _ => known) (fun channel bs reaches held => ?_) ?_
  · rw [buffer_set rfl] at held
    split at held
    · cases held
    · exact held
  · rcases reaches with ⟨place, waiting⟩ | ⟨place, classed, -⟩
    · cases waiting
    · cases classed
  · rintro bs ⟨⟩
    exact fresh.reached _ _ found _ _ (.inl ⟨_, stage⟩) full

/-- The time of a request ends, and its tag leaves the table. -/
theorem Fresh.expire {table channel : ℕ} (fresh : this.Fresh) (found : this.center.requests[w]? = some one)
    (stage : one.stage = .waiting table channel)
    (expired : after = { this.center.setStage w .expired with
      tagMaps := this.center.tagMaps.modify table fun map => map.delete one.tag }) (sound : Sound after) :
    Fresh { center := after, begun := this.begun } := by
  subst expired
  refine fresh.move sound found (by simp [stage]) rfl rfl (fun _ _ full => full)
    (fun place tag' channel bs known full => ?_) (fun channel bs reaches full => ?_) (by simp)
  · rcases tagMap_modify known with ⟨rfl, known⟩ | known
    · rw [SyncMap.load_delete] at known
      split at known
      · cases known
      · exact known
    · exact known
  · rcases reaches with ⟨place, waiting⟩ | ⟨place, classed, -⟩
    · cases waiting
    · cases classed

/-- A reply is put into the channel that it has found. -/
theorem Fresh.put {r channel : ℕ} {response : Response} (fresh : this.Fresh)
    (found : this.center.responses[r]? = some response) (tagged : response.phase = .tagged channel)
    (put : after = { this.center.setPhase r .done with
      channels := this.center.channels.set channel (some response.bs) }) (sound : Sound after) :
    Fresh { this with center := after } := by
  subst put
  refine fresh.deliver sound found (fun done => ?_) rfl rfl rfl fun place bs full => ?_
  · cases tagged.symm.trans done
  · rw [buffer_set rfl] at full
    split at full
    · next same =>
      obtain ⟨rfl, -⟩ := same
      cases full
      exact .inr ⟨tagged, rfl⟩
    · exact .inl full

theorem begun_of_disabled {event : Event} (disabled : Disabled this.center event) :
    (this.step event).begun = this.begun := by
  cases event with
  | loadClass w =>
    apply if_neg
    intro sent
    obtain ⟨one, found, stage⟩ := Option.map_eq_some_iff.mp sent
    exact disabled one found stage
  | send | storeClass | loadTag | storeTag | receive | timeout | reply | findClass | findTag | put => rfl

theorem begun_of_sent (found : this.center.requests[w]? = some one) (sent : one.stage = .sent) :
    (this.step (.loadClass w)).begun = Function.update this.begun w this.center.responses.length := by
  apply if_pos
  rw [found, Option.map_some, sent]

/-- What a request may take stays fresh as long as requests begin alone. -/
theorem Fresh.step (fresh : this.Fresh) {event : Event} (alone : this.BeginsAlone event) : (this.step event).Fresh := by
  have sound : Sound (this.center.step event) := step_sound fresh.sound
  have begun := @begun_of_disabled this event
  have effect := step_effect this.center event
  have split : this.step event = { center := this.center.step event, begun := (this.step event).begun } := rfl
  rw [split]
  generalize this.center.step event = after at effect sound ⊢
  cases effect with
  | idle disabled =>
    rw [begun disabled]
    exact fresh
  | pass names found unfinished =>
    rw [begun (disabled_of_names names)]
    exact fresh.deliver sound found unfinished rfl rfl rfl fun channel bs full => .inl full
  | send => exact fresh.send sound
  | reply => exact fresh.reply sound
  | put found tagged => exact fresh.put found tagged rfl sound
  | noClass found sent =>
    rw [begun_of_sent found sent]
    exact fresh.begins sound found sent alone (.inl rfl)
  | classed found sent classed =>
    rw [begun_of_sent found sent]
    exact fresh.begins sound found sent alone (.inr ⟨_, rfl, classed⟩)
  | register found stage => exact fresh.register found stage rfl sound
  | noTag found stage => exact fresh.look found stage (.inl rfl) sound
  | join found stage tagged => exact fresh.look found stage (.inr ⟨_, rfl, tagged⟩) sound
  | enter found stage => exact fresh.enter found stage rfl sound
  | take found stage full => exact fresh.take found stage full rfl sound
  | expire found stage => exact fresh.expire found stage rfl sound

theorem start_fresh : Fresh {} := by
  refine ⟨start_sound, fun _ => le_rfl, fun w one found => ?_, fun w one found => ?_, fun w one bs found => ?_⟩
  · cases found
  · cases found
  · cases found

/-- The center of a run that is watched is the center of the run. -/
theorem center_foldl (this : Watched) (events : List Event) :
    (events.foldl step this).center = events.foldl Center.step this.center := by
  induction events generalizing this with
  | nil => rfl
  | cons event events ih => exact ih (this.step event)

/-- What requests return arrived after they began when they begin alone. -/
theorem returned_of_alone {events : List Event} (alone : Replay.Each step {} BeginsAlone events) :
    Replay.Always step {} OwnReplies events := by
  have fresh : Replay.Always step {} Fresh events :=
    Replay.always_of_each start_fresh (fun _ _ alone fresh => fresh.step alone) alone
  exact fun front back split => (fresh front back split).returned

end Watched

end PolarCloud.WaitRecv
