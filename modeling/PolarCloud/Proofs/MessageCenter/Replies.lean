import PolarCloud.Base.Replay
import PolarCloud.Proofs.MessageCenter.Effects

/-! # Whether a reply is lost

A reply is lost when its look-ups miss the channel its sender waits on, or will wait on: the sender has not
registered yet, or the table it registered in has been replaced by that of another sender of the class. All replies
are kept exactly as long as none of them misses.
-/

namespace PolarCloud.WaitRecv

open Center

variable {center other : Center} {w r : ℕ} {one : Request} {response : Response}

/-- The sender has returned, or will return with what its channel holds. -/
def Stage.Answered (center : Center) : Stage → Prop
  | waiting _ channel => center.buffer channel ≠ none
  | returned _ => True
  | expired => True
  | _ => False

/-- A request that was answered, or whose time is over. -/
def Answered (center : Center) (w : ℕ) : Prop := ∃ one, center.requests[w]? = some one ∧ one.stage.Answered center

/-- Every reply that was delivered before the end of its sender's time has reached the sender. -/
def NeverLost (center : Center) : Prop :=
  ∀ (r : ℕ) response, center.responses[r]? = some response → response.phase = .done → Answered center response.request

/-- An answered sender stays so while the channel it waits on does. -/
theorem Stage.Answered.keep {stage : Stage} (answered : stage.Answered center)
    (kept : ∀ table channel, stage = .waiting table channel → center.buffer channel ≠ none →
    other.buffer channel ≠ none) :
    stage.Answered other := by
  cases stage with
  | waiting table channel => exact kept table channel rfl answered
  | returned => trivial
  | expired => trivial
  | sent => exact answered
  | unclassed => exact answered
  | classed => exact answered
  | untagged => exact answered

theorem Stage.Answered.mono {stage : Stage}
    (kept : ∀ channel, center.buffer channel ≠ none → other.buffer channel ≠ none)
    (answered : stage.Answered center) : stage.Answered other :=
  answered.keep fun _ channel _ => kept channel

/-- What channels hold stays there when others are added. -/
theorem buffer_append {channel : ℕ} {added : List (Option (Option Bytes))}
    (channels : other.channels = center.channels ++ added)
    (full : center.buffer channel ≠ none) : other.buffer channel ≠ none := by
  have within : channel < center.channels.length := by
    by_contra beyond
    rw [buffer, List.getElem?_eq_none (Nat.not_lt.mp beyond)] at full
    exact full rfl
  rwa [buffer, channels, List.getElem?_append_left within]

theorem getElem?_append_some {α : Type*} {items more : List α} {i : ℕ} {item : α} (found : items[i]? = some item) :
    (items ++ more)[i]? = some item :=
  (List.getElem?_append_left (List.getElem?_eq_some_iff.mp found).1).trans found

/-! ## Senders -/

/-- A sender that is not answered yet goes on, and channels are added at most. -/
theorem neverLost_advance {stage : Stage} {added : List (Option (Option Bytes))}
    (found : center.requests[w]? = some one)
    (waits : ¬ one.stage.Answered center) (requests : other.requests = (center.setStage w stage).requests)
    (channels : other.channels = center.channels ++ added) (responses : other.responses = center.responses)
    (kept : NeverLost center) : NeverLost other := by
  intro r response known done
  obtain ⟨two, found', answered⟩ := kept r response (responses ▸ known) done
  have apart : response.request ≠ w := by
    intro same
    rw [same] at found'
    cases found.symm.trans found'
    exact waits answered
  refine ⟨two, ?_, answered.mono fun channel => buffer_append channels⟩
  rw [requests, setStage]
  exact (Replay.getElem?_modify_iff found).mpr (.inr ⟨apart, found'⟩)

/-- When an event loses no reply: a reply does not miss, and a sender leaves none to another one of its tag. -/
def Safe (center : Center) : Event → Prop
  | .findClass r => ∀ response, center.responses[r]? = some response → response.phase = .arrived →
      ∀ one, center.requests[response.request]? = some one → center.waitRequest.load one.class_ = none →
        one.stage.Answered center
  | .findTag r => ∀ response, center.responses[r]? = some response → ∀ table, response.phase = .classed table →
      ∀ one, center.requests[response.request]? = some one → (center.tagMap table).load one.tag = none →
        one.stage.Answered center
  | .put r => ∀ response, center.responses[r]? = some response → ∀ channel, response.phase = .tagged channel →
      ∀ one, center.requests[response.request]? = some one →
        one.stage.Answered center ∨ ∃ table, one.stage = .waiting table channel
  | .receive w => ∀ one, center.requests[w]? = some one → ∀ table channel, one.stage = .waiting table channel →
      center.buffer channel ≠ none → ∀ (r : ℕ) response, center.responses[r]? = some response → response.phase = .done →
        response.request ≠ w → ∀ two, center.requests[response.request]? = some two →
          ∀ table, two.stage ≠ .waiting table channel
  | _ => True

theorem send_neverLost {one : Request} (kept : NeverLost center) :
    NeverLost { center with requests := center.requests ++ [one] } := by
  intro r response sent done
  obtain ⟨two, request, answered⟩ := kept r response sent done
  exact ⟨two, getElem?_append_some request, answered.mono fun _ full => full⟩

theorem reply_neverLost {bs : Option Bytes} (kept : NeverLost center) :
    NeverLost { center with responses := center.responses ++ [{ request := w, bs }] } := by
  intro r response sent done
  rw [List.getElem?_append] at sent
  split at sent
  · obtain ⟨one, request, answered⟩ := kept r response sent done
    exact ⟨one, request, answered.mono fun _ full => full⟩
  · have is := List.mem_singleton.mp (List.mem_of_getElem? sent)
    rw [is] at done
    cases done

/-- Unless a reply is taken or delivered, none is lost. -/
theorem advance_neverLost (kept : NeverLost center) {event : Event}
    (apart : ∀ i, event ≠ .receive i ∧ event ≠ .findClass i ∧ event ≠ .findTag i ∧ event ≠ .put i) :
    NeverLost (center.step event) := by
  have effect := step_effect center event
  generalize center.step event = after at effect ⊢
  cases effect with
  | idle => exact kept
  | send => exact send_neverLost kept
  | reply => exact reply_neverLost kept
  | noClass found stage =>
    exact neverLost_advance found (by rw [stage]; exact id) rfl (List.append_nil _).symm rfl kept
  | classed found stage =>
    exact neverLost_advance found (by rw [stage]; exact id) rfl (List.append_nil _).symm rfl kept
  | register found stage => exact neverLost_advance found (by rw [stage]; exact id) rfl rfl rfl kept
  | noTag found stage =>
    exact neverLost_advance found (by rw [stage]; exact id) rfl (List.append_nil _).symm rfl kept
  | join found stage =>
    exact neverLost_advance found (by rw [stage]; exact id) rfl (List.append_nil _).symm rfl kept
  | enter found stage => exact neverLost_advance found (by rw [stage]; exact id) rfl rfl rfl kept
  | expire found stage empty =>
    refine neverLost_advance found ?_ rfl (List.append_nil _).symm rfl kept
    rw [stage]
    exact fun full => full empty
  | @take w => exact absurd rfl (apart w).1
  | @pass r _ _ names =>
    rcases names with same | same | same
    · exact absurd same (apart r).2.1
    · exact absurd same (apart r).2.2.1
    · exact absurd same (apart r).2.2.2
  | @put r => exact absurd rfl (apart r).2.2.2

theorem buffer_set {place channel : ℕ} {value : Option (Option Bytes)}
    (channels : other.channels = center.channels.set place value) :
    other.buffer channel = if channel = place ∧ place < center.channels.length then value else
      center.buffer channel := by
  rw [buffer, channels, List.getElem?_set, buffer]
  by_cases same : place = channel
  · subst same
    by_cases within : place < center.channels.length
    · simp [within]
    · simp [within]
  · simp [same, Ne.symm same]

/-- A sender takes the reply out of its channel. -/
theorem receive_neverLost_iff (kept : NeverLost center) :
    NeverLost (center.step (.receive w)) ↔ Safe center (.receive w) := by
  show NeverLost (center.sender w (.receive w)) ↔ _
  rw [sender]
  cases found : center.requests[w]? with
  | none => exact iff_of_true kept fun one found' => by cases found.symm.trans found'
  | some one =>
    dsimp only [waitStep]
    split
    · next table channel waiting =>
      split
      · next empty =>
        refine iff_of_true kept fun two found' table channel waiting' full => ?_
        cases found.symm.trans found'
        cases waiting.symm.trans waiting'
        exact absurd empty full
      · next bs full =>
        have within : channel < center.channels.length := by
          by_contra beyond
          rw [buffer, List.getElem?_eq_none (Nat.not_lt.mp beyond)] at full
          cases full
        have known {v : ℕ} {two : Request} :
            (center.requests.modify w fun one => { one with stage := .returned bs })[v]? = some two ↔
            v = w ∧ two = { one with stage := .returned bs } ∨ v ≠ w ∧ center.requests[v]? = some two :=
              Replay.getElem?_modify_iff found
        constructor
        · intro after three found' table' channel' waiting' _ r response sent done elsewhere two found'' table'' same
          cases found.symm.trans found'
          cases waiting.symm.trans waiting'
          obtain ⟨two', found''', answered⟩ := after r response sent done
          cases (known.mpr (.inr ⟨elsewhere, found''⟩)).symm.trans found'''
          rw [same] at answered
          exact answered ((buffer_set rfl).trans (if_pos ⟨rfl, within⟩))
        · intro safe r response sent done
          by_cases here : response.request = w
          · exact ⟨_, known.mpr (.inl ⟨here, rfl⟩), trivial⟩
          · obtain ⟨two, found', answered⟩ := kept r response sent done
            refine ⟨two, known.mpr (.inr ⟨here, found'⟩), ?_⟩
            have elsewhere :=
              safe one found table channel waiting (full ▸ Option.some_ne_none _) r response sent done here two found'
            refine answered.keep fun table' channel' stage full' empty => ?_
            have apart : ¬ (channel' = channel ∧ channel < center.channels.length) := by
              rintro ⟨rfl, _⟩
              exact elsewhere table' stage
            exact full' (((buffer_set rfl).trans (if_neg apart)).symm.trans empty)
    · next idle =>
      refine iff_of_true kept fun two found' table channel waiting => ?_
      cases found.symm.trans found'
      exact absurd waiting (idle table channel)

/-! ## Replies -/

/-- A reply is done, in its channel or not: its sender has to be answered now. -/
theorem neverLost_finish {channels : List (Option (Option Bytes))} (found : center.responses[r]? = some response)
    (request : center.requests[response.request]? = some one)
    (buffers : ∀ channel, center.buffer channel ≠ none → { center with channels }.buffer channel ≠ none)
    (kept : NeverLost center) :
    NeverLost { center.setPhase r .done with channels } ↔ one.stage.Answered { center with channels } := by
  constructor
  · intro after
    obtain ⟨two, found', answered⟩ := after r _ ((Replay.getElem?_modify_iff found).mpr (.inl ⟨rfl, rfl⟩)) rfl
    cases request.symm.trans found'
    exact answered.mono fun _ full => full
  · intro answered i two sent done
    rcases (Replay.getElem?_modify_iff found).mp sent with ⟨_, rfl⟩ | ⟨_, sent⟩
    · exact ⟨one, request, answered.mono fun _ full => full⟩
    · obtain ⟨three, found', answered'⟩ := kept i two sent done
      exact ⟨three, found', answered'.mono buffers⟩

/-- A reply goes on looking. -/
theorem neverLost_pass {phase : Phase} (found : center.responses[r]? = some response) (unfinished : phase ≠ .done)
    (kept : NeverLost center) : NeverLost (center.setPhase r phase) := by
  intro i two sent done
  rcases (Replay.getElem?_modify_iff found).mp sent with ⟨_, rfl⟩ | ⟨_, sent⟩
  · exact absurd done unfinished
  · exact kept i two sent done

theorem findClass_neverLost_iff (kept : NeverLost center)
    (sentTo : ∀ (r : ℕ) response, center.responses[r]? = some response →
      ∃ one, center.requests[response.request]? = some one) :
    NeverLost (center.step (.findClass r)) ↔ Safe center (.findClass r) := by
  show NeverLost (center.receiver r (.findClass r)) ↔ _
  rw [receiver]
  cases found : center.responses[r]? with
  | none => exact iff_of_true kept fun response found' => by cases found.symm.trans found'
  | some response =>
    obtain ⟨one, request⟩ := sentTo r response found
    simp only [request, responseStep]
    split_ifs with late
    · refine iff_of_true kept fun two found' arrived => ?_
      cases found.symm.trans found'
      exact absurd arrived late
    · split
      · next unclassed =>
        refine (neverLost_finish found request (fun _ full => full) kept).trans ?_
        constructor
        · intro answered two found' _ three request' _
          cases found.symm.trans found'
          cases request.symm.trans request'
          exact answered
        · intro safe
          exact safe response found (not_not.mp late) one request unclassed
      · next table classed =>
        refine iff_of_true (neverLost_pass found Phase.noConfusion kept) fun two found' _ three request' unclassed => ?_
        cases found.symm.trans found'
        cases request.symm.trans request'
        cases classed.symm.trans unclassed

theorem findTag_neverLost_iff (kept : NeverLost center)
    (sentTo : ∀ (r : ℕ) response, center.responses[r]? = some response →
      ∃ one, center.requests[response.request]? = some one) :
    NeverLost (center.step (.findTag r)) ↔ Safe center (.findTag r) := by
  show NeverLost (center.receiver r (.findTag r)) ↔ _
  rw [receiver]
  cases found : center.responses[r]? with
  | none => exact iff_of_true kept fun response found' => by cases found.symm.trans found'
  | some response =>
    obtain ⟨one, request⟩ := sentTo r response found
    simp only [request, responseStep]
    split
    · next table classed =>
      split
      · next untagged =>
        refine (neverLost_finish found request (fun _ full => full) kept).trans ?_
        constructor
        · intro answered two found' table' classed' three request' _
          cases found.symm.trans found'
          cases request.symm.trans request'
          exact answered
        · intro safe
          exact safe response found table classed one request untagged
      · next channel tagged =>
        refine iff_of_true (neverLost_pass found Phase.noConfusion kept)
          fun two found' table' classed' three request' untagged => ?_
        cases found.symm.trans found'
        cases request.symm.trans request'
        cases classed.symm.trans classed'
        cases tagged.symm.trans untagged
    · next other =>
      refine iff_of_true kept fun two found' table classed => ?_
      cases found.symm.trans found'
      exact absurd classed (other table)

/-- A reply is put into a channel when there is room. -/
theorem put_neverLost_iff (kept : NeverLost center) (sentTo : ∀ (r : ℕ) response, center.responses[r]? = some response →
      ∃ one, center.requests[response.request]? = some one)
    (within : ∀ (w : ℕ) one, center.requests[w]? = some one → ∀ table channel, one.stage = .waiting table channel →
      channel < center.channels.length) :
    NeverLost (center.step (.put r)) ↔ Safe center (.put r) := by
  show NeverLost (center.receiver r (.put r)) ↔ _
  rw [receiver]
  cases found : center.responses[r]? with
  | none => exact iff_of_true kept fun response found' => by cases found.symm.trans found'
  | some response =>
    obtain ⟨one, request⟩ := sentTo r response found
    simp only [request, responseStep]
    split
    · next channel tagged =>
      split
      · next bs full =>
        refine (neverLost_finish found request (fun _ full => full) kept).trans ?_
        constructor
        · intro answered two found' channel' tagged' three request'
          cases found.symm.trans found'
          cases request.symm.trans request'
          exact .inl answered
        · intro safe
          rcases safe response found channel tagged one request with answered | ⟨table, waiting⟩
          · exact answered
          · rw [waiting]
            exact fun empty => Option.some_ne_none bs (full.symm.trans empty)
      · next empty =>
        have buffers (place : ℕ) :
            { center with channels := center.channels.set channel (some response.bs) }.buffer place =
            if place = channel ∧ channel < center.channels.length then some response.bs else center.buffer place :=
              buffer_set rfl
        have filled (place : ℕ) (full : center.buffer place ≠ none) :
            { center with channels := center.channels.set channel (some response.bs) }.buffer place ≠ none := by
          rw [buffers]
          split
          · exact Option.some_ne_none _
          · exact full
        refine (neverLost_finish found request filled kept).trans ?_
        constructor
        · intro answered two found' channel' tagged' three request'
          cases found.symm.trans found'
          cases request.symm.trans request'
          cases tagged.symm.trans tagged'
          by_cases waits : ∃ table, one.stage = .waiting table channel
          · exact .inr waits
          · refine .inl (answered.keep fun table place stage full => ?_)
            have apart : place ≠ channel := by
              rintro rfl
              exact waits ⟨table, stage⟩
            rwa [buffers, if_neg fun is => apart is.1] at full
        · intro safe
          rcases safe response found channel tagged one request with answered | ⟨table, waiting⟩
          · exact answered.mono filled
          · rw [waiting]
            show _ ≠ none
            rw [buffers, if_pos ⟨rfl, within _ one request table channel waiting⟩]
            exact Option.some_ne_none _
    · next other =>
      refine iff_of_true kept fun two found' channel tagged => ?_
      cases found.symm.trans found'
      exact absurd tagged (other channel)

/-! ## Whose reply it is -/

/-- A reply has arrived for a class and a tag. -/
def Replied (center : Center) (class_ : String) (tag : Bytes) (bs : Option Bytes) : Prop :=
  ∃ (r : ℕ) (response : Response) (one : Request), center.responses[r]? = some response ∧
    center.requests[response.request]? = some one ∧ one.class_ = class_ ∧ one.tag = tag ∧ response.bs = bs

/-- Where a sender has got to is a table of its class, and a channel of its class and tag. -/
def Request.Fits (center : Center) (classes : List String) (labels : List (String × Bytes)) (one : Request) : Prop :=
  match one.stage with
  | .classed table => classes[table]? = some one.class_
  | .untagged table => classes[table]? = some one.class_
  | .waiting _ channel => labels[channel]? = some (one.class_, one.tag)
  | .returned bs => Replied center one.class_ one.tag bs
  | _ => True

/-- The same for a reply, whose request is known. -/
def Response.Fits (center : Center) (classes : List String) (labels : List (String × Bytes)) (response : Response) :
    Prop :=
  ∃ one, center.requests[response.request]? = some one ∧
    match response.phase with
    | .classed table => classes[table]? = some one.class_
    | .tagged channel => labels[channel]? = some (one.class_, one.tag)
    | _ => True

/-- Tables belong to classes, and channels to tags of classes. -/
structure Coherent (center : Center) (classes : List String) (labels : List (String × Bytes)) : Prop where
  tables : classes.length = center.tagMaps.length
  channels : labels.length = center.channels.length
  classed : ∀ class_ table, center.waitRequest.load class_ = some table → classes[table]? = some class_
  tagged : ∀ table tag channel, (center.tagMap table).load tag = some channel →
    ∃ class_, classes[table]? = some class_ ∧ labels[channel]? = some (class_, tag)
  requests : ∀ (w : ℕ) one, center.requests[w]? = some one → one.Fits center classes labels
  responses : ∀ (r : ℕ) response, center.responses[r]? = some response → response.Fits center classes labels
  buffers : ∀ channel bs, center.buffer channel = some bs →
    ∃ class_ tag, labels[channel]? = some (class_, tag) ∧ Replied center class_ tag bs

variable {classes : List String} {labels : List (String × Bytes)}

/-- Requests and replies stay what they are, but for how far they are. -/
structure Keeps (center other : Center) : Prop where
  requests : ∀ (w : ℕ) one, center.requests[w]? = some one →
    ∃ two, other.requests[w]? = some two ∧ two.class_ = one.class_ ∧ two.tag = one.tag
  responses : ∀ (r : ℕ) response, center.responses[r]? = some response →
    ∃ two, other.responses[r]? = some two ∧ two.request = response.request ∧ two.bs = response.bs

theorem Replied.keep {class_ : String} {tag : Bytes} {bs : Option Bytes} (replied : Replied center class_ tag bs)
    (keeps : Keeps center other) : Replied other class_ tag bs := by
  obtain ⟨r, response, one, sent, request, rfl, rfl, rfl⟩ := replied
  obtain ⟨two, sent', same, bs⟩ := keeps.responses r response sent
  obtain ⟨three, request', class_, tag⟩ := keeps.requests _ one request
  exact ⟨r, two, three, sent', same ▸ request', class_, tag, bs⟩

theorem Request.Fits.mono {moreClasses : List String} {moreLabels : List (String × Bytes)}
    (fits : one.Fits center classes labels)
    (keeps : Keeps center other) : one.Fits other (classes ++ moreClasses) (labels ++ moreLabels) := by
  rw [Request.Fits] at fits ⊢
  split at fits
  · exact getElem?_append_some fits
  · exact getElem?_append_some fits
  · exact getElem?_append_some fits
  · exact Replied.keep fits keeps
  · exact fits

theorem Response.Fits.mono {moreClasses : List String} {moreLabels : List (String × Bytes)}
    (fits : response.Fits center classes labels) (keeps : Keeps center other) :
    response.Fits other (classes ++ moreClasses) (labels ++ moreLabels) := by
  obtain ⟨one, request, fits⟩ := fits
  obtain ⟨two, request', class_, tag⟩ := keeps.requests _ one request
  refine ⟨two, request', ?_⟩
  split at fits
  · exact class_ ▸ getElem?_append_some fits
  · exact class_ ▸ tag ▸ getElem?_append_some fits
  · exact fits

theorem keeps_setStage {stage : Stage} (found : center.requests[w]? = some one) :
    Keeps center (center.setStage w stage) := by
  refine ⟨fun v two found' => ?_, fun r response sent => ⟨response, sent, rfl, rfl⟩⟩
  by_cases same : v = w
  · subst same
    cases found.symm.trans found'
    exact ⟨_, (Replay.getElem?_modify_iff found).mpr (.inl ⟨rfl, rfl⟩), rfl, rfl⟩
  · exact ⟨two, (Replay.getElem?_modify_iff found).mpr (.inr ⟨same, found'⟩), rfl, rfl⟩

theorem keeps_setPhase {phase : Phase} (found : center.responses[r]? = some response) :
    Keeps center (center.setPhase r phase) := by
  refine ⟨fun v two found' => ⟨two, found', rfl, rfl⟩, fun i two sent => ?_⟩
  by_cases same : i = r
  · subst same
    cases found.symm.trans sent
    exact ⟨_, (Replay.getElem?_modify_iff found).mpr (.inl ⟨rfl, rfl⟩), rfl, rfl⟩
  · exact ⟨two, (Replay.getElem?_modify_iff found).mpr (.inr ⟨same, sent⟩), rfl, rfl⟩

theorem Coherent.setStage {stage : Stage} (coherent : Coherent center classes labels)
    (found : center.requests[w]? = some one)
    (fits : ({ one with stage } : Request).Fits center classes labels) :
    Coherent (center.setStage w stage) classes labels := by
  have keeps : Keeps center (center.setStage w stage) := keeps_setStage found
  refine ⟨coherent.tables, coherent.channels, coherent.classed, coherent.tagged, fun v two found' => ?_,
    fun r response sent => ?_, fun channel bs full => ?_⟩
  · rw [← List.append_nil classes, ← List.append_nil labels]
    rcases (Replay.getElem?_modify_iff found).mp found' with ⟨_, rfl⟩ | ⟨_, found'⟩
    · exact fits.mono keeps
    · exact (coherent.requests v two found').mono keeps
  · rw [← List.append_nil classes, ← List.append_nil labels]
    exact (coherent.responses r response sent).mono keeps
  · obtain ⟨class_, tag, label, replied⟩ := coherent.buffers channel bs full
    exact ⟨class_, tag, label, replied.keep keeps⟩

theorem Coherent.setPhase {phase : Phase} (coherent : Coherent center classes labels)
    (found : center.responses[r]? = some response)
    (fits : ({ response with phase } : Response).Fits center classes labels) :
    Coherent (center.setPhase r phase) classes labels := by
  have keeps : Keeps center (center.setPhase r phase) := keeps_setPhase found
  refine ⟨coherent.tables, coherent.channels, coherent.classed, coherent.tagged, fun v two found' => ?_,
    fun i two sent => ?_, fun channel bs full => ?_⟩
  · rw [← List.append_nil classes, ← List.append_nil labels]
    exact (coherent.requests v two found').mono keeps
  · rw [← List.append_nil classes, ← List.append_nil labels]
    rcases (Replay.getElem?_modify_iff found).mp sent with ⟨_, rfl⟩ | ⟨_, sent⟩
    · exact fits.mono keeps
    · exact (coherent.responses i two sent).mono keeps
  · obtain ⟨class_, tag, label, replied⟩ := coherent.buffers channel bs full
    exact ⟨class_, tag, label, replied.keep keeps⟩

theorem keeps_of_eq (requests : other.requests = center.requests) (responses : other.responses = center.responses) :
    Keeps center other :=
  ⟨fun _ one found => ⟨one, requests ▸ found, rfl, rfl⟩, fun _ response sent => ⟨response, responses ▸ sent, rfl, rfl⟩⟩

/-- What changes of tables and channels have to keep. -/
theorem Coherent.change {moreClasses : List String} {moreLabels : List (String × Bytes)}
    (coherent : Coherent center classes labels)
    (keeps : Keeps center other) (requests : other.requests = center.requests)
    (responses : other.responses = center.responses)
    (tables : (classes ++ moreClasses).length = other.tagMaps.length)
    (channels : (labels ++ moreLabels).length = other.channels.length)
    (classed : ∀ class_ table, other.waitRequest.load class_ = some table →
    (classes ++ moreClasses)[table]? = some class_)
    (tagged : ∀ table tag channel, (other.tagMap table).load tag = some channel →
      ∃ class_, (classes ++ moreClasses)[table]? = some class_ ∧ (labels ++ moreLabels)[channel]? = some (class_, tag))
    (buffers : ∀ channel bs, other.buffer channel = some bs →
      ∃ class_ tag, (labels ++ moreLabels)[channel]? = some (class_, tag) ∧ Replied other class_ tag bs) :
    Coherent other (classes ++ moreClasses) (labels ++ moreLabels) :=
  ⟨tables, channels, classed, tagged, fun w one found => (coherent.requests w one (requests ▸ found)).mono keeps,
    fun r response sent => (coherent.responses r response (responses ▸ sent)).mono keeps, buffers⟩

theorem tagMap_modify {table : ℕ} {change : SyncMap Bytes ℕ → SyncMap Bytes ℕ} {place : ℕ} {tag : Bytes} {channel : ℕ}
    (found : ({ center with tagMaps := center.tagMaps.modify table change }.tagMap place).load tag = some channel) :
    place = table ∧ (change (center.tagMap table)).load tag = some channel ∨ (center.tagMap place).load tag =
      some channel := by
  rw [tagMap] at found
  dsimp only at found
  rw [List.getElem?_modify] at found
  by_cases same : place = table
  · subst same
    cases known : center.tagMaps[place]? with
    | none =>
      rw [known] at found
      cases found
    | some map =>
      rw [known] at found
      simp only [if_true] at found
      rw [tagMap, known]
      exact .inl ⟨rfl, found⟩
  · simp only [if_neg (Ne.symm same), id_map'] at found
    exact .inr found

/-- A channel that was just made holds nothing. -/
theorem buffer_push {channel : ℕ} {bs : Option Bytes} (channels : other.channels = center.channels ++ [none])
    (full : other.buffer channel = some bs) : center.buffer channel = some bs := by
  rw [buffer, channels, List.getElem?_append] at full
  split at full
  · exact full
  · rw [List.getElem?_singleton] at full
    split at full
    · cases full
    · cases full

/-- A table with one channel is put under a class. -/
theorem Coherent.storeClass {class_ : String} {tag : Bytes} (coherent : Coherent center classes labels) :
    Coherent { center with
      waitRequest := center.waitRequest.store class_ center.tagMaps.length,
      tagMaps := center.tagMaps ++ [SyncMap.empty.store tag center.channels.length],
      channels := center.channels ++ [none] } (classes ++ [class_]) (labels ++ [(class_, tag)]) := by
  have newClass : (classes ++ [class_])[center.tagMaps.length]? = some class_ := by
    rw [← coherent.tables, List.getElem?_concat_length]
  have newLabel : (labels ++ [(class_, tag)])[center.channels.length]? = some (class_, tag) := by
    rw [← coherent.channels, List.getElem?_concat_length]
  have keeps : Keeps center { center with
      waitRequest := center.waitRequest.store class_ center.tagMaps.length,
      tagMaps := center.tagMaps ++ [SyncMap.empty.store tag center.channels.length],
      channels := center.channels ++ [none] } := keeps_of_eq rfl rfl
  refine coherent.change keeps rfl rfl (by simp [coherent.tables]) (by simp [coherent.channels])
    (fun k table found => ?_) (fun table tag' channel found => ?_) (fun channel bs full => ?_)
  · rw [SyncMap.load_store] at found
    split at found
    · next same =>
      cases found
      exact same ▸ newClass
    · exact getElem?_append_some (coherent.classed k table found)
  · rw [tagMap, List.getElem?_append] at found
    split at found
    · obtain ⟨k, known, label⟩ := coherent.tagged table tag' channel found
      exact ⟨k, getElem?_append_some known, getElem?_append_some label⟩
    · next beyond =>
      rw [List.getElem?_singleton] at found
      split at found
      · next last =>
        have is : table = center.tagMaps.length := by omega
        subst is
        rw [Option.getD_some, SyncMap.load_store] at found
        split at found
        · next same =>
          cases found
          exact ⟨class_, newClass, same ▸ newLabel⟩
        · cases found
      · cases found
  · obtain ⟨k, tag', label, replied⟩ := coherent.buffers channel bs (buffer_push rfl full)
    exact ⟨k, tag', getElem?_append_some label, replied.keep keeps⟩

/-- A channel is put under a tag of a class. -/
theorem Coherent.storeTag {class_ : String} {tag : Bytes} {table : ℕ} (coherent : Coherent center classes labels)
    (known : classes[table]? = some class_) :
    Coherent { center with
      tagMaps := center.tagMaps.modify table fun map => map.store tag center.channels.length,
      channels := center.channels ++ [none] } classes (labels ++ [(class_, tag)]) := by
  have newLabel : (labels ++ [(class_, tag)])[center.channels.length]? = some (class_, tag) := by
    rw [← coherent.channels, List.getElem?_concat_length]
  have keeps : Keeps center { center with
      tagMaps := center.tagMaps.modify table fun map => map.store tag center.channels.length,
      channels := center.channels ++ [none] } := keeps_of_eq rfl rfl
  have changed := @Coherent.change center _ classes labels [] [(class_, tag)] coherent keeps rfl rfl
  rw [List.append_nil] at changed
  refine changed (by simp [coherent.tables])
    (by simp [coherent.channels]) coherent.classed (fun place tag' channel found => ?_) (fun channel bs full => ?_)
  · rcases @tagMap_modify { center with channels := center.channels ++ [none] }
      _ _ _ _ _ found with ⟨rfl, found⟩ | found
    · rw [SyncMap.load_store] at found
      split at found
      · next same =>
        cases found
        exact ⟨class_, known, same ▸ newLabel⟩
      · obtain ⟨k, known', label⟩ := coherent.tagged place tag' channel found
        exact ⟨k, known', getElem?_append_some label⟩
    · obtain ⟨k, known', label⟩ := coherent.tagged place tag' channel found
      exact ⟨k, known', getElem?_append_some label⟩
  · obtain ⟨k, tag', label, replied⟩ := coherent.buffers channel bs (buffer_push rfl full)
    exact ⟨k, tag', getElem?_append_some label, replied.keep keeps⟩

/-- A channel is taken out of a table. -/
theorem Coherent.deleteTag {tag : Bytes} {table : ℕ} (coherent : Coherent center classes labels) :
    Coherent { center with tagMaps := center.tagMaps.modify table fun map => map.delete tag } classes labels := by
  refine ⟨by simp [coherent.tables], coherent.channels, coherent.classed, fun place tag' channel found => ?_,
    coherent.requests, coherent.responses, coherent.buffers⟩
  rcases tagMap_modify found with ⟨rfl, found⟩ | found
  · rw [SyncMap.load_delete] at found
    split at found
    · cases found
    · exact coherent.tagged place tag' channel found
  · exact coherent.tagged place tag' channel found

/-- A channel is emptied, or holds a reply for its own class and tag. -/
theorem Coherent.setBuffer {channel : ℕ} {value : Option (Option Bytes)} (coherent : Coherent center classes labels)
    (own : ∀ bs, value = some bs → ∃ class_ tag, labels[channel]? = some (class_, tag) ∧ Replied center class_ tag bs) :
    Coherent { center with channels := center.channels.set channel value } classes labels := by
  refine ⟨coherent.tables, by simp [coherent.channels], coherent.classed, coherent.tagged,
    coherent.requests, coherent.responses,
    fun place bs full => ?_⟩
  have known :=
    (@buffer_set center { center with channels := center.channels.set channel value } _ _ _ rfl).symm.trans full
  split at known
  · next same => exact same.1 ▸ own bs known
  · exact coherent.buffers place bs known

theorem Coherent.send {class_ : String} {tag : Bytes} (coherent : Coherent center classes labels) :
    Coherent (center.step (.send class_ tag)) classes labels := by
  have keeps : Keeps center (center.step (.send class_ tag)) :=
    ⟨fun _ one found => ⟨one, getElem?_append_some found, rfl, rfl⟩, fun _ response sent => ⟨response, sent, rfl, rfl⟩⟩
  have mono {one : Request} (fits : one.Fits center classes labels) :
      one.Fits (center.step (.send class_ tag)) classes labels := by
    rw [← List.append_nil classes, ← List.append_nil labels]
    exact fits.mono keeps
  refine ⟨coherent.tables, coherent.channels, coherent.classed, coherent.tagged, fun w one found => ?_,
    fun r response sent => ?_, fun channel bs full => ?_⟩
  · show one.Fits _ classes labels
    change (center.requests ++ [_])[w]? = some one at found
    rw [List.getElem?_append] at found
    split at found
    · exact mono (coherent.requests w one found)
    · have is := List.mem_singleton.mp (List.mem_of_getElem? found)
      rw [is]
      trivial
  · rw [← List.append_nil classes, ← List.append_nil labels]
    exact (coherent.responses r response sent).mono keeps
  · obtain ⟨k, tag', label, replied⟩ := coherent.buffers channel bs full
    exact ⟨k, tag', label, replied.keep keeps⟩

theorem Coherent.reply {bs : Option Bytes} (coherent : Coherent center classes labels)
    (known : w < center.requests.length) :
    Coherent { center with responses := center.responses ++ [{ request := w, bs }] } classes labels := by
  have keeps : Keeps center { center with responses := center.responses ++ [{ request := w, bs }] } :=
    ⟨fun _ one found => ⟨one, found, rfl, rfl⟩,
      fun _ response sent => ⟨response, getElem?_append_some sent, rfl, rfl⟩⟩
  refine ⟨coherent.tables, coherent.channels, coherent.classed, coherent.tagged, fun v one found => ?_,
    fun r response sent => ?_, fun channel bs full => ?_⟩
  · rw [← List.append_nil classes, ← List.append_nil labels]
    exact (coherent.requests v one found).mono keeps
  · change (center.responses ++ [_])[r]? = some response at sent
    rw [List.getElem?_append] at sent
    split at sent
    · rw [← List.append_nil classes, ← List.append_nil labels]
      exact (coherent.responses r response sent).mono keeps
    · have is := List.mem_singleton.mp (List.mem_of_getElem? sent)
      rw [is]
      exact ⟨_, List.getElem?_eq_getElem known, trivial⟩
  · obtain ⟨k, tag', label, replied⟩ := coherent.buffers channel bs full
    exact ⟨k, tag', label, replied.keep keeps⟩

/-- Some tables and channels fit. -/
def Sound (center : Center) : Prop := ∃ classes labels, Coherent center classes labels

/-- Those that fitted before do, with others behind them. -/
def SoundBy (center : Center) (classes : List String) (labels : List (String × Bytes)) : Prop :=
  ∃ moreClasses moreLabels, Coherent center (classes ++ moreClasses) (labels ++ moreLabels)

theorem Coherent.soundBy (coherent : Coherent center classes labels) : SoundBy center classes labels := by
  refine ⟨[], [], ?_⟩
  rw [List.append_nil, List.append_nil]
  exact coherent

theorem Coherent.step (coherent : Coherent center classes labels) (event : Event) :
    SoundBy (center.step event) classes labels := by
  have effect := step_effect center event
  generalize center.step event = after at effect ⊢
  -- where a label was added, the channel that was made has it
  have added (class_ : String) (tag : Bytes) :
      (labels ++ [(class_, tag)])[center.channels.length]? = some (class_, tag) := by
    rw [← coherent.channels, List.getElem?_concat_length]
  cases effect with
  | idle => exact coherent.soundBy
  | send => exact coherent.send.soundBy
  | reply known bs => exact (coherent.reply known).soundBy
  | noClass found =>
    apply Coherent.soundBy
    exact coherent.setStage found trivial
  | classed found stage known =>
    apply Coherent.soundBy
    exact coherent.setStage found (coherent.classed _ _ known)
  | @register _ one found =>
    have stored := @Coherent.storeClass center classes labels one.class_ one.tag coherent
    exact ⟨_, _, stored.setStage found (added _ _)⟩
  | noTag found stage =>
    have fits := coherent.requests _ _ found
    rw [Request.Fits, stage] at fits
    apply Coherent.soundBy
    exact coherent.setStage found fits
  | join found stage tagged =>
    have fits := coherent.requests _ _ found
    rw [Request.Fits, stage] at fits
    obtain ⟨class_, same, label⟩ := coherent.tagged _ _ _ tagged
    cases fits.symm.trans same
    apply Coherent.soundBy
    exact coherent.setStage found label
  | @enter _ one table found stage =>
    have fits := coherent.requests _ one found
    rw [Request.Fits, stage] at fits
    have stored := @Coherent.storeTag center classes labels one.class_ one.tag table coherent fits
    refine ⟨[], [(one.class_, one.tag)], ?_⟩
    rw [List.append_nil]
    exact stored.setStage found (added _ _)
  | take found stage full =>
    have fits := coherent.requests _ _ found
    rw [Request.Fits, stage] at fits
    obtain ⟨class_, tag, label, replied⟩ := coherent.buffers _ _ full
    cases fits.symm.trans label
    have returned := @Coherent.setStage center _ _ classes labels (.returned _) coherent found replied
    apply Coherent.soundBy
    exact returned.setBuffer nofun
  | expire found stage =>
    have expired := @Coherent.setStage center _ _ classes labels .expired coherent found trivial
    exact expired.deleteTag.soundBy
  | pass disabled found unfinished finds =>
    obtain ⟨one, request, fits⟩ := coherent.responses _ _ found
    apply Coherent.soundBy
    refine coherent.setPhase found ⟨one, request, ?_⟩
    dsimp only
    split
    · obtain ⟨two, request', known⟩ := finds
      cases request.symm.trans request'
      exact coherent.classed _ _ known
    · obtain ⟨two, table, request', phase, known⟩ := finds
      cases request.symm.trans request'
      rw [phase] at fits
      obtain ⟨class_, same, label⟩ := coherent.tagged _ _ _ known
      cases fits.symm.trans same
      exact label
    · trivial
  | put found phase empty =>
    obtain ⟨one, request, fits⟩ := coherent.responses _ _ found
    rw [phase] at fits
    have done := @Coherent.setPhase center _ _ classes labels .done coherent found ⟨one, request, trivial⟩
    apply Coherent.soundBy
    refine done.setBuffer fun bs is => ?_
    cases is
    have replied : Replied center one.class_ one.tag _ := ⟨_, _, one, found, request, rfl, rfl, rfl⟩
    exact ⟨one.class_, one.tag, fits, replied.keep (keeps_setPhase found)⟩

theorem step_sound {event : Event} (sound : Sound center) : Sound (center.step event) := by
  obtain ⟨classes, labels, coherent⟩ := sound
  obtain ⟨moreClasses, moreLabels, coherent⟩ := coherent.step event
  exact ⟨_, _, coherent⟩

/-! ## Every run -/

theorem Sound.sentTo (sound : Sound center) (known : center.responses[r]? = some response) :
    ∃ one, center.requests[response.request]? = some one := by
  obtain ⟨classes, labels, coherent⟩ := sound
  obtain ⟨one, request, _⟩ := coherent.responses r response known
  exact ⟨one, request⟩

theorem Sound.within (sound : Sound center) (known : center.requests[w]? = some one) {table channel : ℕ}
    (waiting : one.stage = .waiting table channel) : channel < center.channels.length := by
  obtain ⟨classes, labels, coherent⟩ := sound
  have fits := coherent.requests w one known
  rw [Request.Fits, waiting] at fits
  exact coherent.channels ▸ (List.getElem?_eq_some_iff.mp fits).1

/-- An event loses no reply exactly when it is safe. -/
theorem step_neverLost_iff (sound : Sound center) (kept : NeverLost center) (event : Event) :
    NeverLost (center.step event) ↔ Safe center event := by
  cases event with
  | send => exact iff_of_true (advance_neverLost kept (by simp)) trivial
  | reply => exact iff_of_true (advance_neverLost kept (by simp)) trivial
  | loadClass => exact iff_of_true (advance_neverLost kept (by simp)) trivial
  | storeClass => exact iff_of_true (advance_neverLost kept (by simp)) trivial
  | loadTag => exact iff_of_true (advance_neverLost kept (by simp)) trivial
  | storeTag => exact iff_of_true (advance_neverLost kept (by simp)) trivial
  | timeout => exact iff_of_true (advance_neverLost kept (by simp)) trivial
  | receive => exact receive_neverLost_iff kept
  | findClass => exact findClass_neverLost_iff kept fun _ _ => sound.sentTo
  | findTag => exact findTag_neverLost_iff kept fun _ _ => sound.sentTo
  | put => exact put_neverLost_iff kept (fun _ _ => sound.sentTo) fun _ _ known _ _ => sound.within known

/-- A sender to whom a reply was delivered in time returns with one of its class and tag at its next operation. -/
theorem NeverLost.receives (kept : NeverLost center) (sound : Sound center)
    (known : center.responses[r]? = some response)
    (done : response.phase = .done) (found : center.requests[response.request]? = some one) {table channel : ℕ}
    (waiting : one.stage = .waiting table channel) : ∃ bs, Replied center one.class_ one.tag bs ∧
      (center.step (.receive response.request)).requests[response.request]? =
        some { one with stage := .returned bs } := by
  obtain ⟨two, found', answered⟩ := kept r response known done
  cases found.symm.trans found'
  rw [waiting] at answered
  obtain ⟨bs, full⟩ := Option.ne_none_iff_exists'.mp answered
  obtain ⟨classes, labels, coherent⟩ := sound
  obtain ⟨class_, tag, label, replied⟩ := coherent.buffers channel bs full
  have fits := coherent.requests _ one found
  rw [Request.Fits, waiting] at fits
  cases fits.symm.trans label
  refine ⟨bs, replied, ?_⟩
  show (center.sender response.request (.receive response.request)).requests[response.request]? = _
  simp only [sender, found, waitStep, waiting, full]
  exact (Replay.getElem?_modify_iff found).mpr (.inl ⟨rfl, rfl⟩)

/-- Its time does not end first. -/
theorem NeverLost.timeout (kept : NeverLost center) (known : center.responses[r]? = some response)
    (done : response.phase = .done) : center.step (.timeout response.request) = center := by
  obtain ⟨one, found, answered⟩ := kept r response known done
  show center.sender response.request (.timeout response.request) = center
  simp only [sender, found, waitStep]
  split
  · next table channel waiting =>
    rw [waiting] at answered
    split
    · rfl
    · next empty => exact absurd empty answered
  · rfl

/-- No reply is lost in a run, and a sender that returns with one has one of its class and tag. -/
structure RepliesKept (events : List Event) : Prop where
  kept : Replay.Always step {} NeverLost events
  own : Replay.Always step {} (fun center => ∀ (w : ℕ) one bs,
    center.requests[w]? = some one → one.stage = .returned bs →
    Replied center one.class_ one.tag bs) events

theorem start_sound : Sound {} := by
  refine ⟨[], [], rfl, rfl, nofun, fun table tag channel found => ?_, fun w one found => ?_, fun r response found => ?_,
    fun channel bs full => ?_⟩
  · cases found
  · cases found
  · cases found
  · cases full

/-- No reply is lost in a run exactly when none misses its sender where it looks for it. -/
theorem replies_kept_iff (events : List Event) : RepliesKept events ↔ Replay.Each step {} Safe events := by
  have exact : Replay.Always step {} NeverLost events ↔ Replay.Each step {} Safe events :=
    Replay.always_iff_each (fun _ _ known => by cases known) start_sound (fun _ _ sound _ => step_sound sound)
      (fun _ event sound kept => step_neverLost_iff sound kept event) events
  refine ⟨fun right => exact.mp right.kept, fun safe => ⟨exact.mpr safe, ?_⟩⟩
  intro front back split w one bs found returned
  have sound : Sound (front.foldl step {}) :=
    @Replay.always_of_step Center Event step {} Sound start_sound (fun _ _ sound => step_sound sound)
      events front back split
  obtain ⟨classes, labels, coherent⟩ := sound
  have fits := coherent.requests w one found
  rwa [Request.Fits, returned] at fits

/-- The reply is there before its sender has registered. -/
def early : List Event :=
  [.send "class" [1], .reply 0 (some [9]), .findClass 0, .loadClass 0, .storeClass 0, .timeout 0]

/-- Two senders register for one class at once. -/
def together : List Event :=
  [.send "class" [1], .send "class" [2], .loadClass 0, .loadClass 1, .storeClass 0, .storeClass 1,
    .reply 0 (some [9]), .findClass 0, .findTag 0, .timeout 0]

/-- In both cases a reply is delivered before the sender's time is over, and the sender returns without it. -/
theorem early_and_together_lose : ¬ RepliesKept early ∧ ¬ RepliesKept together ∧
    (run (early.take 5)).responses = [{ request := 0, bs := some [9], phase := .done }] ∧
    (run early).requests = [{ class_ := "class", tag := [1], stage := .expired }] ∧
    (run (together.take 9)).responses = [{ request := 0, bs := some [9], phase := .done }] ∧
    (run together).requests[0]? = some { class_ := "class", tag := [1], stage := .expired } := by
  refine ⟨fun right => ?_, fun right => ?_, by decide, by decide, by decide, by decide⟩
  · have lost := @NeverLost.timeout _ 0 ⟨0, some [9], .done⟩ (right.kept (early.take 5) [.timeout 0] rfl)
      (by decide) rfl
    exact absurd (congrArg Center.requests lost) (by decide)
  · have lost := @NeverLost.timeout _ 0 ⟨0, some [9], .done⟩ (right.kept (together.take 9) [.timeout 0] rfl)
      (by decide) rfl
    exact absurd (congrArg Center.requests lost) (by decide)

end PolarCloud.WaitRecv
