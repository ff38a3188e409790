import PolarCloud.Model.MessageCenter.WaitRecv

/-! # What an operation does

A sender looks up its class and its tag, registers where it finds nothing, and waits; a reply looks up both and is put
into the channel that it finds, if that is empty. Everything else changes nothing.
-/

namespace PolarCloud.WaitRecv

open Center

variable {center : Center} {w : ℕ} {one : Request}

/-- An operation of a sender that has not got so far, or that finds its channel empty or full. -/
def Disabled (center : Center) : Event → Prop
  | .loadClass w => ∀ one, center.requests[w]? = some one → one.stage ≠ .sent
  | .storeClass w => ∀ one, center.requests[w]? = some one → one.stage ≠ .unclassed
  | .loadTag w => ∀ one, center.requests[w]? = some one → ∀ table, one.stage ≠ .classed table
  | .storeTag w => ∀ one, center.requests[w]? = some one → ∀ table, one.stage ≠ .untagged table
  | .receive w => ∀ one, center.requests[w]? = some one → ∀ table channel, one.stage = .waiting table channel →
      center.buffer channel = none
  | .timeout w => ∀ one, center.requests[w]? = some one → ∀ table channel, one.stage = .waiting table channel →
      center.buffer channel ≠ none
  | _ => True

/-- How far a reply gets with what it finds. -/
def Finds (center : Center) (response : Response) : Phase → Prop
  | .arrived => False
  | .classed table => ∃ one, center.requests[response.request]? = some one ∧
      center.waitRequest.load one.class_ = some table
  | .tagged channel => ∃ one table, center.requests[response.request]? = some one ∧
      response.phase = .classed table ∧ (center.tagMap table).load one.tag = some channel
  | .done => True

/-- What an event does. -/
inductive Effect (center : Center) : Event → Center → Prop
  | idle {event : Event} (disabled : Disabled center event) : Effect center event center
  | send (class_ : String) (tag : Bytes) :
      Effect center (.send class_ tag) { center with requests := center.requests ++ [{ class_, tag }] }
  | reply {request : ℕ} (known : request < center.requests.length) (bs : Option Bytes) :
      Effect center (.reply request bs) { center with responses := center.responses ++ [{ request, bs }] }
  | noClass {w : ℕ} {one : Request} (found : center.requests[w]? = some one) (stage : one.stage = .sent)
      (unclassed : center.waitRequest.load one.class_ = none) :
      Effect center (.loadClass w) (center.setStage w .unclassed)
  | classed {w : ℕ} {one : Request} {table : ℕ} (found : center.requests[w]? = some one) (stage : one.stage = .sent)
      (classed : center.waitRequest.load one.class_ = some table) :
      Effect center (.loadClass w) (center.setStage w (.classed table))
  | register {w : ℕ} {one : Request} (found : center.requests[w]? = some one) (stage : one.stage = .unclassed) :
      Effect center (.storeClass w)
        { center.setStage w (.waiting center.tagMaps.length center.channels.length) with
          waitRequest := center.waitRequest.store one.class_ center.tagMaps.length,
          tagMaps := center.tagMaps ++ [SyncMap.empty.store one.tag center.channels.length],
          channels := center.channels ++ [none] }
  | noTag {w : ℕ} {one : Request} {table : ℕ} (found : center.requests[w]? = some one)
      (stage : one.stage = .classed table) (untagged : (center.tagMap table).load one.tag = none) :
      Effect center (.loadTag w) (center.setStage w (.untagged table))
  | join {w : ℕ} {one : Request} {table channel : ℕ} (found : center.requests[w]? = some one)
      (stage : one.stage = .classed table) (tagged : (center.tagMap table).load one.tag = some channel) :
      Effect center (.loadTag w) (center.setStage w (.waiting table channel))
  | enter {w : ℕ} {one : Request} {table : ℕ} (found : center.requests[w]? = some one)
      (stage : one.stage = .untagged table) :
      Effect center (.storeTag w)
        { center.setStage w (.waiting table center.channels.length) with
          tagMaps := center.tagMaps.modify table fun map => map.store one.tag center.channels.length,
          channels := center.channels ++ [none] }
  | take {w : ℕ} {one : Request} {table channel : ℕ} {bs : Option Bytes} (found : center.requests[w]? = some one)
      (stage : one.stage = .waiting table channel) (full : center.buffer channel = some bs) :
      Effect center (.receive w)
        { center.setStage w (.returned bs) with channels := center.channels.set channel none }
  | expire {w : ℕ} {one : Request} {table channel : ℕ} (found : center.requests[w]? = some one)
      (stage : one.stage = .waiting table channel) (empty : center.buffer channel = none) :
      Effect center (.timeout w)
        { center.setStage w .expired with tagMaps := center.tagMaps.modify table fun map => map.delete one.tag }
  | pass {r : ℕ} {response : Response} {event : Event}
      (names : event = .findClass r ∨ event = .findTag r ∨ event = .put r)
      (found : center.responses[r]? = some response) (unfinished : response.phase ≠ .done) {phase : Phase}
      (finds : Finds center response phase) : Effect center event (center.setPhase r phase)
  | put {r : ℕ} {response : Response} {channel : ℕ} (found : center.responses[r]? = some response)
      (phase : response.phase = .tagged channel) (empty : center.buffer channel = none) :
      Effect center (.put r)
        { center.setPhase r .done with channels := center.channels.set channel (some response.bs) }

theorem sender_effect (center : Center) {event : Event} {w : ℕ}
    (names : event = .loadClass w ∨ event = .storeClass w ∨ event = .loadTag w ∨ event = .storeTag w ∨
      event = .receive w ∨ event = .timeout w) :
    Effect center event (center.sender w event) := by
  rw [sender]
  cases found : center.requests[w]? with
  | none =>
    apply Effect.idle
    rcases names with rfl | rfl | rfl | rfl | rfl | rfl
    all_goals exact fun one found' => by cases found.symm.trans found'
  | some one =>
    have only {P : Request → Prop} (here : P one) : ∀ two, center.requests[w]? = some two → P two := fun two found' =>
      Option.some.inj (found.symm.trans found') ▸ here
    rcases names with rfl | rfl | rfl | rfl | rfl | rfl
    all_goals dsimp only [waitStep]
    · split_ifs with stage
      · exact .idle (only stage)
      · split
        · next unclassed => exact .noClass found (not_not.mp stage) unclassed
        · next table classed => exact .classed found (not_not.mp stage) classed
    · split_ifs with stage
      · exact .idle (only stage)
      · exact .register found (not_not.mp stage)
    · split
      · next table stage =>
        split
        · next untagged => exact .noTag found stage untagged
        · next channel tagged => exact .join found stage tagged
      · next other => exact .idle (only other)
    · split
      · next table stage => exact .enter found stage
      · next other => exact .idle (only other)
    · split
      · next table channel stage =>
        split
        · next empty =>
          refine .idle (only fun table' channel' waiting => ?_)
          cases stage.symm.trans waiting
          exact empty
        · next bs full => exact .take found stage full
      · next other => exact .idle (only fun table channel waiting => absurd waiting (other table channel))
    · split
      · next table channel stage =>
        split
        · next bs full =>
          refine .idle (only fun table' channel' waiting => ?_)
          cases stage.symm.trans waiting
          rw [full]
          exact Option.some_ne_none bs
        · next empty => exact .expire found stage empty
      · next other => exact .idle (only fun table channel waiting => absurd waiting (other table channel))

/-- No sender does anything where a reply is delivered. -/
theorem disabled_of_names {event : Event} {r : ℕ} (names : event = .findClass r ∨ event = .findTag r ∨
    event = .put r) : Disabled center event := by
  rcases names with rfl | rfl | rfl
  all_goals trivial

theorem receiver_effect (center : Center) {event : Event} {r : ℕ} (names : event = .findClass r ∨ event = .findTag r ∨
    event = .put r) : Effect center event (center.receiver r event) := by
  have disabled : Disabled center event := disabled_of_names names
  rw [receiver]
  cases found : center.responses[r]? with
  | none => exact .idle disabled
  | some response =>
    dsimp only
    split
    · exact .idle disabled
    · next one request =>
      have passed := @Effect.pass center r response event names found
      rcases names with rfl | rfl | rfl
      all_goals dsimp only [responseStep]
      · split_ifs with late
        · exact .idle disabled
        · have unfinished : response.phase ≠ .done := by
            rw [not_not.mp late]
            exact Phase.noConfusion
          split
          · exact passed unfinished (show Finds center response .done from trivial)
          · next table known => exact passed unfinished ⟨one, request, known⟩
      · split
        · next table classed =>
          have unfinished : response.phase ≠ .done := by
            rw [classed]
            exact Phase.noConfusion
          split
          · exact passed unfinished (show Finds center response .done from trivial)
          · next channel known => exact passed unfinished ⟨one, table, request, classed, known⟩
        · exact .idle disabled
      · split
        · next channel tagged =>
          have unfinished : response.phase ≠ .done := by
            rw [tagged]
            exact Phase.noConfusion
          split
          · exact passed unfinished (show Finds center response .done from trivial)
          · next empty => exact .put found tagged empty
        · exact .idle disabled

/-- Every event has one of these effects. -/
theorem step_effect (center : Center) (event : Event) : Effect center event (center.step event) := by
  cases event with
  | send class_ tag => exact .send class_ tag
  | reply request bs =>
    rw [step]
    split_ifs with known
    · exact .reply known bs
    · exact .idle trivial
  | loadClass w => exact sender_effect center (.inl rfl)
  | storeClass w => exact sender_effect center (.inr (.inl rfl))
  | loadTag w => exact sender_effect center (.inr (.inr (.inl rfl)))
  | storeTag w => exact sender_effect center (.inr (.inr (.inr (.inl rfl))))
  | receive w => exact sender_effect center (.inr (.inr (.inr (.inr (.inl rfl)))))
  | timeout w => exact sender_effect center (.inr (.inr (.inr (.inr (.inr rfl)))))
  | findClass r => exact receiver_effect center (.inl rfl)
  | findTag r => exact receiver_effect center (.inr (.inl rfl))
  | put r => exact receiver_effect center (.inr (.inr rfl))

end PolarCloud.WaitRecv
