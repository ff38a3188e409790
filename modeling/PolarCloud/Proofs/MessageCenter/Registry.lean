import PolarCloud.Proofs.MessageCenter.EarlyReplies

/-! # Which requests are registered

A pair of class and tag is registered by the first request that waits for it. It stays registered when that one
returns with its reply, and is taken out when the time of any of its waiters ends.
-/

namespace PolarCloud.WaitRecv

open Center

variable {center other : Center} {w : ℕ} {one : Request} {classes : List String} {labels : List (String × Bytes)}

/-! ## Registered pairs and requests that wait -/

/-- The table of the class has a channel for the tag. -/
def Registered (center : Center) (class_ : String) (tag : Bytes) : Prop :=
  ∃ table, center.waitRequest.load class_ = some table ∧ (center.tagMap table).load tag ≠ none

def Request.Waits (one : Request) (class_ : String) (tag : Bytes) : Prop :=
  one.class_ = class_ ∧ one.tag = tag ∧ ∃ table channel, one.stage = .waiting table channel

/-- Some request waits for the pair. -/
def Waited (center : Center) (class_ : String) (tag : Bytes) : Prop :=
  ∃ (w : ℕ) (one : Request), center.requests[w]? = some one ∧ one.Waits class_ tag

/-- One other than a given one does. -/
def WaitedBeside (center : Center) (w : ℕ) (class_ : String) (tag : Bytes) : Prop :=
  ∃ (v : ℕ) (one : Request), v ≠ w ∧ center.requests[v]? = some one ∧ one.Waits class_ tag

/-- The pairs that are registered are those for which a request waits. -/
def OnlyLive (center : Center) : Prop := ∀ class_ tag, Registered center class_ tag ↔ Waited center class_ tag

/-- When an event keeps the registry right. A new table for a class leaves out no other tag for which a request waits;
a request registers in the table of its class, or its pair is registered already; one that returns with a reply leaves
another one that waits for the pair; and one whose time ends is the last one for its pair, or it was in another table
than that of the class and leaves another one. -/
def KeepsLive (center : Center) : Event → Prop
  | .storeClass w => ∀ one, center.requests[w]? = some one → one.stage = .unclassed →
      ∀ tag, Waited center one.class_ tag → tag = one.tag
  | .loadTag w => ∀ one, center.requests[w]? = some one → ∀ table, one.stage = .classed table →
      (center.tagMap table).load one.tag ≠ none → Registered center one.class_ one.tag
  | .storeTag w => ∀ one, center.requests[w]? = some one → ∀ table, one.stage = .untagged table →
      center.waitRequest.load one.class_ = some table ∨ Registered center one.class_ one.tag
  | .receive w => ∀ one, center.requests[w]? = some one → ∀ table channel, one.stage = .waiting table channel →
      center.buffer channel ≠ none → WaitedBeside center w one.class_ one.tag
  | .timeout w => ∀ one, center.requests[w]? = some one → ∀ table channel, one.stage = .waiting table channel →
      center.buffer channel = none →
        (center.waitRequest.load one.class_ ≠ some table ↔ WaitedBeside center w one.class_ one.tag)
  | _ => True

section Waited

variable {class_ : String} {tag : Bytes} {stage : Stage}

/-- A request that goes on waiting or no longer. -/
theorem waited_setStage (found : center.requests[w]? = some one)
    (requests : other.requests = (center.setStage w stage).requests) : Waited other class_ tag ↔
      WaitedBeside center w class_ tag ∨ ({ one with stage } : Request).Waits class_ tag := by
  rw [Waited, requests, setStage]
  simp only [Replay.getElem?_modify_iff found]
  constructor
  · rintro ⟨v, two, ⟨-, rfl⟩ | ⟨apart, found'⟩, waits⟩
    · exact .inr waits
    · exact .inl ⟨v, two, apart, found', waits⟩
  · rintro (⟨v, two, apart, found', waits⟩ | waits)
    · exact ⟨v, two, .inr ⟨apart, found'⟩, waits⟩
    · exact ⟨w, _, .inl ⟨rfl, rfl⟩, waits⟩

theorem waited_iff_beside (found : center.requests[w]? = some one) : Waited center class_ tag ↔
    WaitedBeside center w class_ tag ∨ one.Waits class_ tag := by
  constructor
  · rintro ⟨v, two, found', waits⟩
    by_cases same : v = w
    · subst same
      cases found.symm.trans found'
      exact .inr waits
    · exact .inl ⟨v, two, same, found', waits⟩
  · rintro (⟨v, two, -, found', waits⟩ | waits)
    · exact ⟨v, two, found', waits⟩
    · exact ⟨w, one, found, waits⟩

theorem not_waits (idle : ∀ table channel, one.stage ≠ .waiting table channel) : ¬ one.Waits class_ tag :=
  fun ⟨_, _, table, channel, waiting⟩ => idle table channel waiting

theorem waits_waiting {table channel : ℕ} : ({ one with stage := .waiting table channel } : Request).Waits class_ tag ↔
    one.class_ = class_ ∧ one.tag = tag :=
  ⟨fun waits => ⟨waits.1, waits.2.1⟩, fun same => ⟨same.1, same.2, table, channel, rfl⟩⟩

/-- A request that was not waiting waits now. -/
theorem waited_enter {table channel : ℕ} (found : center.requests[w]? = some one)
    (idle : ∀ table channel, one.stage ≠ .waiting table channel)
    (requests : other.requests = (center.setStage w (.waiting table channel)).requests) :
    Waited other class_ tag ↔ Waited center class_ tag ∨ one.class_ = class_ ∧ one.tag = tag := by
  rw [waited_setStage found requests, waits_waiting, waited_iff_beside found, or_iff_left (not_waits idle)]

/-- A request goes on and does not wait yet. -/
theorem waited_advance (found : center.requests[w]? = some one)
    (idle : ∀ table channel, one.stage ≠ .waiting table channel)
    (idle' : ∀ table channel, stage ≠ .waiting table channel)
    (requests : other.requests = (center.setStage w stage).requests) :
    Waited other class_ tag ↔ Waited center class_ tag := by
  rw [waited_setStage found requests, waited_iff_beside found, or_iff_left (not_waits idle)]
  exact or_iff_left (not_waits idle')

/-- A request that waited has returned. -/
theorem waited_leave (found : center.requests[w]? = some one) (idle' : ∀ table channel, stage ≠ .waiting table channel)
    (requests : other.requests = (center.setStage w stage).requests) :
    Waited other class_ tag ↔ WaitedBeside center w class_ tag := by
  rw [waited_setStage found requests]
  exact or_iff_left (not_waits idle')

theorem registered_congr (waitRequest : other.waitRequest = center.waitRequest)
    (tagMaps : other.tagMaps = center.tagMaps) :
    Registered other class_ tag ↔ Registered center class_ tag := by
  rw [Registered, Registered, waitRequest]
  simp only [tagMap, tagMaps]

end Waited

/-! ## What a step keeps -/

/-- The tables that fit, with those in which requests wait. -/
structure Owned (center : Center) (classes : List String) (labels : List (String × Bytes)) : Prop where
  coherent : Coherent center classes labels
  waits : ∀ (w : ℕ) one, center.requests[w]? = some one → ∀ table channel, one.stage = .waiting table channel →
    classes[table]? = some one.class_

theorem start_owned : Owned {} [] [] := by
  refine ⟨⟨rfl, rfl, nofun, fun table tag channel found => ?_, fun w one found => ?_, fun r response found => ?_,
    fun channel bs full => ?_⟩, fun w one found => ?_⟩
  · cases found
  · cases found
  · cases found
  · cases full
  · cases found

/-- A table that fits in the old state and where a request waits now. -/
theorem Owned.setStage {moreClasses : List String} {moreLabels : List (String × Bytes)} {stage : Stage}
    (owned : Owned center classes labels) (found : center.requests[w]? = some one)
    (requests : other.requests = (center.setStage w stage).requests)
    (coherent : Coherent other (classes ++ moreClasses) (labels ++ moreLabels))
    (own : ∀ table channel, stage = .waiting table channel → (classes ++ moreClasses)[table]? = some one.class_) :
    Owned other (classes ++ moreClasses) (labels ++ moreLabels) := by
  refine ⟨coherent, fun v two found' table channel waiting => ?_⟩
  rw [requests] at found'
  rcases (Replay.getElem?_modify_iff found).mp found' with ⟨-, rfl⟩ | ⟨-, found'⟩
  · exact own table channel waiting
  · exact getElem?_append_some (owned.waits v two found' table channel waiting)

theorem Owned.step (owned : Owned center classes labels) (event : Event) : ∃ moreClasses moreLabels,
    Owned (center.step event) (classes ++ moreClasses) (labels ++ moreLabels) := by
  obtain ⟨moreClasses, moreLabels, coherent⟩ := owned.coherent.step event
  refine ⟨moreClasses, moreLabels, ?_⟩
  have unmoved (requests : (center.step event).requests = center.requests) :
      Owned (center.step event) (classes ++ moreClasses) (labels ++ moreLabels) := by
    refine ⟨coherent, fun v two found table channel waiting => ?_⟩
    rw [requests] at found
    exact getElem?_append_some (owned.waits v two found table channel waiting)
  have fits {v : ℕ} {two : Request} (found : center.requests[v]? = some two) := owned.coherent.requests v two found
  have effect := step_effect center event
  generalize center.step event = after at effect coherent unmoved ⊢
  cases effect with
  | idle => exact unmoved rfl
  | reply => exact unmoved rfl
  | pass => exact unmoved rfl
  | put => exact unmoved rfl
  | send =>
    refine ⟨coherent, fun v two found table channel waiting => ?_⟩
    dsimp only at found
    rw [List.getElem?_append] at found
    split at found
    · exact getElem?_append_some (owned.waits v two found table channel waiting)
    · rw [List.mem_singleton.mp (List.mem_of_getElem? found)] at waiting
      cases waiting
  | noClass found => exact owned.setStage found rfl coherent nofun
  | classed found => exact owned.setStage found rfl coherent nofun
  | noTag found => exact owned.setStage found rfl coherent nofun
  | take found => exact owned.setStage found rfl coherent nofun
  | expire found => exact owned.setStage found rfl coherent nofun
  | register found =>
    refine owned.setStage found rfl coherent ?_
    rintro table channel ⟨⟩
    apply coherent.classed
    exact SyncMap.load_store_self _ _ _
  | join found stage =>
    have known := fits found
    rw [Request.Fits, stage] at known
    refine owned.setStage found rfl coherent ?_
    rintro table channel ⟨⟩
    exact getElem?_append_some known
  | enter found stage =>
    have known := fits found
    rw [Request.Fits, stage] at known
    refine owned.setStage found rfl coherent ?_
    rintro table channel ⟨⟩
    exact getElem?_append_some known

/-! ## The registry -/

theorem keepsLive_of_disabled {event : Event} (disabled : Disabled center event) : KeepsLive center event := by
  cases event with
  | storeClass w => exact fun one found stage => absurd stage (disabled one found)
  | loadTag w => exact fun one found table stage => absurd stage (disabled one found table)
  | storeTag w => exact fun one found table stage => absurd stage (disabled one found table)
  | receive w => exact fun one found table channel stage full => absurd (disabled one found table channel stage) full
  | timeout w => exact fun one found table channel stage empty => absurd empty (disabled one found table channel stage)
  | send | reply | loadClass | findClass | findTag | put => trivial

/-- A new table replaces that of its class. -/
theorem registered_register {channel : ℕ} {class_ : String} {tag : Bytes}
    (within : ∀ class_ table, center.waitRequest.load class_ = some table → table < center.tagMaps.length)
    (waitRequest : other.waitRequest = center.waitRequest.store one.class_ center.tagMaps.length)
    (tagMaps : other.tagMaps = center.tagMaps ++ [SyncMap.empty.store one.tag channel]) :
    Registered other class_ tag ↔
      if class_ = one.class_ then tag = one.tag else Registered center class_ tag := by
  rw [Registered, waitRequest]
  simp only [SyncMap.load_store]
  split
  · simp only [Option.some.injEq, exists_eq_left']
    rw [tagMap, tagMaps, List.getElem?_concat_length, Option.getD_some, SyncMap.load_store]
    by_cases same : tag = one.tag
    · simp [same]
    · simp [same]
  · refine exists_congr fun table => and_congr_right fun known => ?_
    rw [tagMap, tagMaps, List.getElem?_append_left (within class_ table known), tagMap]

theorem register_live
    (within : ∀ class_ table, center.waitRequest.load class_ = some table → table < center.tagMaps.length)
    (live : OnlyLive center) (found : center.requests[w]? = some one) (stage : one.stage = .unclassed) {channel : ℕ}
    (waitRequest : other.waitRequest = center.waitRequest.store one.class_ center.tagMaps.length)
    (tagMaps : other.tagMaps = center.tagMaps ++ [SyncMap.empty.store one.tag channel])
    (requests : other.requests = (center.setStage w (.waiting center.tagMaps.length channel)).requests) :
    OnlyLive other ↔ KeepsLive center (.storeClass w) := by
  have idle : ∀ table channel, one.stage ≠ .waiting table channel := by
    rw [stage]
    nofun
  rw [OnlyLive]
  simp only [registered_register within waitRequest tagMaps, waited_enter found idle requests]
  constructor
  · intro live' two found' _ tag waited
    cases found.symm.trans found'
    have now := (live' one.class_ tag).mpr (.inl waited)
    rwa [if_pos rfl] at now
  · intro keeps class_ tag
    split
    · next same =>
      rw [same]
      constructor
      · exact fun own => .inr ⟨rfl, own.symm⟩
      · rintro (waited | ⟨-, own⟩)
        · exact keeps one found stage tag waited
        · exact own.symm
    · next apart =>
      rw [live class_ tag]
      exact (or_iff_left fun own => apart own.1.symm).symm

/-- A request joins others, or finds its pair in the table that it has found. -/
theorem join_live (live : OnlyLive center) (found : center.requests[w]? = some one) {table channel : ℕ}
    (stage : one.stage = .classed table) (tagged : (center.tagMap table).load one.tag = some channel)
    (waitRequest : other.waitRequest = center.waitRequest) (tagMaps : other.tagMaps = center.tagMaps)
    (requests : other.requests = (center.setStage w (.waiting table channel)).requests) :
    OnlyLive other ↔ KeepsLive center (.loadTag w) := by
  have idle : ∀ table channel, one.stage ≠ .waiting table channel := by
    rw [stage]
    nofun
  rw [OnlyLive]
  simp only [registered_congr waitRequest tagMaps, waited_enter found idle requests]
  constructor
  · intro live' two found' _ _ _
    cases found.symm.trans found'
    exact (live' one.class_ one.tag).mpr (.inr ⟨rfl, rfl⟩)
  · intro keeps class_ tag
    rw [live class_ tag]
    refine (or_iff_left_of_imp ?_).symm
    rintro ⟨rfl, rfl⟩
    rw [← live]
    exact keeps one found table stage (tagged ▸ Option.some_ne_none channel)

/-- A tag in a table is there for the class of the table, as long as that is the class's table. -/
theorem registered_change {table : ℕ} {change : SyncMap Bytes ℕ → SyncMap Bytes ℕ} {class_ : String} {tag : Bytes}
    (inside : table < center.tagMaps.length) (waitRequest : other.waitRequest = center.waitRequest)
    (tagMaps : other.tagMaps = center.tagMaps.modify table change) : Registered other class_ tag ↔
      if center.waitRequest.load class_ = some table then (change (center.tagMap table)).load tag ≠ none
      else Registered center class_ tag := by
  have maps (place : ℕ) : other.tagMap place =
      if place = table then change (center.tagMap table) else center.tagMap place := by
    rw [tagMap, tagMaps, List.getElem?_modify]
    by_cases same : place = table
    · subst same
      simp [tagMap, List.getElem?_eq_getElem inside]
    · simp [tagMap, same, Ne.symm same]
  rw [Registered, waitRequest]
  simp only [maps]
  split
  · next current =>
    simp [current]
  · next other =>
    refine exists_congr fun place => and_congr_right fun known => ?_
    rw [if_neg]
    rintro rfl
    exact other known

theorem enter_live (live : OnlyLive center) (found : center.requests[w]? = some one) {table channel : ℕ}
    (stage : one.stage = .untagged table) (inside : table < center.tagMaps.length)
    (own : ∀ class_, center.waitRequest.load class_ = some table → class_ = one.class_)
    (waitRequest : other.waitRequest = center.waitRequest)
    (tagMaps : other.tagMaps = center.tagMaps.modify table fun map => map.store one.tag channel)
    (requests : other.requests = (center.setStage w (.waiting table channel)).requests) :
    OnlyLive other ↔ KeepsLive center (.storeTag w) := by
  have idle : ∀ table channel, one.stage ≠ .waiting table channel := by
    rw [stage]
    nofun
  have stored (tag : Bytes) : ((center.tagMap table).store one.tag channel).load tag ≠ none ↔
      tag = one.tag ∨ (center.tagMap table).load tag ≠ none := by
    rw [SyncMap.load_store]
    by_cases same : tag = one.tag
    · simp [same]
    · simp [same]
  rw [OnlyLive]
  simp only [registered_change inside waitRequest tagMaps, waited_enter found idle requests, stored]
  constructor
  · intro live' two found' table' stage'
    cases found.symm.trans found'
    cases stage.symm.trans stage'
    have now := (live' one.class_ one.tag).mpr (.inr ⟨rfl, rfl⟩)
    split at now
    · next current => exact .inl current
    · exact .inr now
  · intro keeps class_ tag
    split
    · next current =>
      have here : Registered center class_ tag ↔ (center.tagMap table).load tag ≠ none := by
        simp [Registered, current]
      rw [← live class_ tag, here, own class_ current, or_comm, and_iff_right rfl, eq_comm]
    · next other =>
      rw [live class_ tag]
      refine (or_iff_left_of_imp ?_).symm
      rintro ⟨rfl, rfl⟩
      rw [← live]
      exact (keeps one found table stage).resolve_left other

/-- A request that returns with a reply leaves its pair registered. -/
theorem take_live (live : OnlyLive center) (found : center.requests[w]? = some one) {table channel : ℕ}
    {bs : Option Bytes} (stage : one.stage = .waiting table channel) (full : center.buffer channel = some bs)
    (waitRequest : other.waitRequest = center.waitRequest) (tagMaps : other.tagMaps = center.tagMaps)
    (requests : other.requests = (center.setStage w (.returned bs)).requests) :
    OnlyLive other ↔ KeepsLive center (.receive w) := by
  have waits : one.Waits one.class_ one.tag := ⟨rfl, rfl, table, channel, stage⟩
  rw [OnlyLive]
  simp only [registered_congr waitRequest tagMaps, waited_leave found (by nofun) requests]
  constructor
  · intro live' two found' _ _ _ _
    cases found.symm.trans found'
    exact (live' one.class_ one.tag).mp ((live one.class_ one.tag).mpr ⟨w, one, found, waits⟩)
  · intro keeps class_ tag
    rw [live class_ tag, waited_iff_beside found]
    refine or_iff_left_of_imp ?_
    rintro ⟨rfl, rfl, -⟩
    exact keeps one found table channel stage (full ▸ Option.some_ne_none bs)

/-- A request whose time ends takes its pair out of its table. -/
theorem expire_live (live : OnlyLive center) (found : center.requests[w]? = some one) {table channel : ℕ}
    (stage : one.stage = .waiting table channel) (empty : center.buffer channel = none)
    (inside : table < center.tagMaps.length)
    (own : ∀ class_, center.waitRequest.load class_ = some table → class_ = one.class_)
    (waitRequest : other.waitRequest = center.waitRequest)
    (tagMaps : other.tagMaps = center.tagMaps.modify table fun map => map.delete one.tag)
    (requests : other.requests = (center.setStage w .expired).requests) :
    OnlyLive other ↔ KeepsLive center (.timeout w) := by
  have waits : one.Waits one.class_ one.tag := ⟨rfl, rfl, table, channel, stage⟩
  have deleted (tag : Bytes) : ((center.tagMap table).delete one.tag).load tag ≠ none ↔
      tag ≠ one.tag ∧ (center.tagMap table).load tag ≠ none := by
    rw [SyncMap.load_delete]
    by_cases same : tag = one.tag
    · simp [same]
    · simp [same]
  have registered := (live one.class_ one.tag).mpr ⟨w, one, found, waits⟩
  rw [OnlyLive]
  simp only [registered_change inside waitRequest tagMaps, waited_leave found (by nofun) requests, deleted]
  constructor
  · intro live' two found' table' channel' stage' _
    cases found.symm.trans found'
    cases stage.symm.trans stage'
    rw [← live' one.class_ one.tag]
    split
    · next current => simp [current]
    · next other => exact iff_of_true other registered
  · intro keeps class_ tag
    have exact := keeps one found table channel stage empty
    have before := (live class_ tag).trans (waited_iff_beside found)
    by_cases pair : class_ = one.class_ ∧ tag = one.tag
    · obtain ⟨rfl, rfl⟩ := pair
      rw [← exact]
      split
      · next current => simp [current]
      · next other => exact iff_of_true registered other
    · have apart : ¬ one.Waits class_ tag := fun waits => pair ⟨waits.1.symm, waits.2.1.symm⟩
      rw [or_iff_left apart] at before
      split
      · next current =>
        have here : Registered center class_ tag ↔ (center.tagMap table).load tag ≠ none := by
          simp [Registered, current]
        rw [← before, here]
        exact and_iff_right fun same => pair ⟨own class_ current, same⟩
      · exact before

/-- An event keeps the registry right exactly when it meets its condition. -/
theorem step_live_iff (owned : Owned center classes labels) (live : OnlyLive center) (event : Event) :
    OnlyLive (center.step event) ↔ KeepsLive center event := by
  have inside {class_ : String} {table : ℕ} (known : classes[table]? = some class_) : table < center.tagMaps.length :=
    owned.coherent.tables ▸ (List.getElem?_eq_some_iff.mp known).1
  have within (class_ : String) (table : ℕ) (known : center.waitRequest.load class_ = some table) :
      table < center.tagMaps.length := inside (owned.coherent.classed class_ table known)
  have own {table : ℕ} {name : String} (known : classes[table]? = some name) (class_ : String)
      (current : center.waitRequest.load class_ = some table) : class_ = name :=
    Option.some.inj ((owned.coherent.classed class_ table current).symm.trans known)
  have unmoved {after : Center} (waitRequest : after.waitRequest = center.waitRequest)
      (tagMaps : after.tagMaps = center.tagMaps)
      (waited : ∀ class_ tag, Waited after class_ tag ↔ Waited center class_ tag) : OnlyLive after := by
    intro class_ tag
    rw [registered_congr waitRequest tagMaps, waited]
    exact live class_ tag
  have effect := step_effect center event
  generalize center.step event = after at effect ⊢
  cases effect with
  | idle disabled => exact iff_of_true live (keepsLive_of_disabled disabled)
  | pass names =>
    exact iff_of_true (unmoved rfl rfl fun _ _ => Iff.rfl) (keepsLive_of_disabled (disabled_of_names names))
  | reply => exact iff_of_true (unmoved rfl rfl fun _ _ => Iff.rfl) trivial
  | put => exact iff_of_true (unmoved rfl rfl fun _ _ => Iff.rfl) trivial
  | send =>
    refine iff_of_true (unmoved rfl rfl fun class_ tag => ?_) trivial
    constructor
    · rintro ⟨w, one, found, waits⟩
      dsimp only at found
      rw [List.getElem?_append] at found
      split at found
      · exact ⟨w, one, found, waits⟩
      · rw [List.mem_singleton.mp (List.mem_of_getElem? found)] at waits
        obtain ⟨-, -, table, channel, stage⟩ := waits
        cases stage
    · rintro ⟨w, one, found, waits⟩
      exact ⟨w, one, getElem?_append_some found, waits⟩
  | noClass found stage =>
    refine iff_of_true (unmoved rfl rfl fun _ _ => waited_advance found ?_ (by nofun) rfl) trivial
    rw [stage]
    nofun
  | classed found stage =>
    refine iff_of_true (unmoved rfl rfl fun _ _ => waited_advance found ?_ (by nofun) rfl) trivial
    rw [stage]
    nofun
  | noTag found stage untagged =>
    refine iff_of_true (unmoved rfl rfl fun _ _ => waited_advance found ?_ (by nofun) rfl) ?_
    · rw [stage]
      nofun
    · intro two found' table' stage' tagged
      cases found.symm.trans found'
      cases stage.symm.trans stage'
      exact absurd untagged tagged
  | register found stage => exact register_live within live found stage rfl rfl rfl
  | join found stage tagged => exact join_live live found stage tagged rfl rfl rfl
  | enter found stage =>
    have known := owned.coherent.requests _ _ found
    rw [Request.Fits, stage] at known
    exact enter_live live found stage (inside known) (own known) rfl rfl rfl
  | take found stage full => exact take_live live found stage full rfl rfl rfl
  | expire found stage empty =>
    have known := owned.waits _ _ found _ _ stage
    exact expire_live live found stage empty (inside known) (own known) rfl rfl rfl

/-! ## Every run -/

namespace Watched

/-- The registered pairs are those that are waited for in every state of a run exactly when each event keeps them so.
And what requests return arrived after they began when they begin alone. -/
theorem registry_live (events : List Event) :
    (Replay.Always Center.step {} OnlyLive events ↔ Replay.Each Center.step {} KeepsLive events) ∧
      (Replay.Each step {} BeginsAlone events → Replay.Always step {} OwnReplies events) := by
  constructor
  · have initial : OnlyLive {} := by
      intro class_ tag
      refine iff_of_false ?_ ?_
      · rintro ⟨table, known, -⟩
        cases known
      · rintro ⟨w, one, found, -⟩
        cases found
    refine @Replay.always_iff_each Center Event Center.step {} OnlyLive
      (fun center => ∃ classes labels, Owned center classes labels) KeepsLive initial ⟨[], [], start_owned⟩ ?_ ?_ events
    · rintro center event ⟨classes, labels, owned⟩ -
      obtain ⟨moreClasses, moreLabels, owned⟩ := owned.step event
      exact ⟨_, _, owned⟩
    · rintro center event ⟨classes, labels, owned⟩ live
      exact step_live_iff owned live event
  · exact returned_of_alone

/-- The class is registered, a request waits and gets its reply; the pair stays registered. -/
def answered : List Event :=
  [.send "class" [1], .loadClass 0, .storeClass 0, .reply 0 (some [9]), .findClass 0, .findTag 0, .put 0, .receive 0]

/-- The pair is asked for again once the request has returned, and gets a reply of its own. -/
def askedAgain : List Event :=
  answered ++ [.send "class" [1], .loadClass 1, .loadTag 1, .reply 1 (some [8]), .findClass 1, .findTag 1, .put 1,
    .receive 1]

theorem askedAgain_alone : Replay.Each step {} BeginsAlone askedAgain := by
  simp only [askedAgain, answered, List.cons_append, List.nil_append, Replay.each_cons, BeginsAlone, true_and,
    Replay.each_nil, and_true]
  refine ⟨fun one found _ => ⟨fun r response two sent => ?_, fun table channel known => ?_⟩,
    fun one found _ => ⟨fun r response two sent _ _ _ => ?_, fun table channel known registered => ?_⟩⟩
  · cases sent
  · cases known
  · -- the only reply so far is done
    cases r with
    | zero =>
      cases sent
      rfl
    | succ r => cases sent
  · cases found
    cases known
    cases registered
    rfl

/-- Both requests return, each with its own reply. -/
theorem registry_live_again : Replay.Always step {} OwnReplies askedAgain ∧
    (askedAgain.foldl step {}).center.requests.map Request.stage = [.returned (some [9]), .returned (some [8])] :=
  ⟨(registry_live askedAgain).2 askedAgain_alone, by decide⟩

/-- A second reply to it stays in the channel, and a new request for the pair takes it. -/
def duplicated : List Event :=
  answered ++ [.reply 0 (some [9]), .findClass 1, .findTag 1, .put 1, .send "class" [1], .loadClass 1, .loadTag 1,
    .receive 1]

/-- A request that has returned is still registered, and a later one returns with a reply that came before it began. -/
theorem registry_stale : ¬ Replay.Always Center.step {} OnlyLive answered ∧
    ¬ Replay.Always step {} OwnReplies duplicated := by
  constructor
  · intro live
    have registered : Registered (run answered) "class" [1] := ⟨0, rfl, nofun⟩
    obtain ⟨w, one, found, waits⟩ := (live.last "class" [1]).mp registered
    have requests : (answered.foldl Center.step {}).requests =
        [{ class_ := "class", tag := [1], stage := .returned (some [9]) }] := by decide
    rw [requests] at found
    obtain ⟨-, -, table, channel, stage⟩ := waits
    rw [List.mem_singleton.mp (List.mem_of_getElem? found)] at stage
    cases stage
  · intro own
    have found : (duplicated.foldl step {}).center.requests[1]? =
        some { class_ := "class", tag := [1], stage := .returned (some [9]) } := by decide
    have begun : (duplicated.foldl step {}).begun 1 = 2 := by decide
    have replies : (duplicated.foldl step {}).center.responses.length = 2 := by decide
    obtain ⟨r, response, -, late, sent, -⟩ := own.last 1 _ (some [9]) found rfl
    have inside := (List.getElem?_eq_some_iff.mp sent).1
    omega

end Watched

end PolarCloud.WaitRecv
