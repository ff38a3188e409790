import PolarCloud.Base.Replay
import PolarCloud.Model.Engine.Sessions

/-! # The session table names live sessions

The store is keyed by names, so a session that is closed takes with it whatever stands under its name. The table
stays right exactly as long as a session is closed only when no other open one has its name, is added only while
it is open, and is renamed only when it alone stands under its old name and nothing newer under its new one. The
nodes of a newer session that is still to be added are spared when none of its name is closed before.
-/

namespace PolarCloud.Sessions

open NodeStore Sessions.Engine

variable {engine : Engine} {name : Name} {s : ℕ} {one : Session}

/-- A session that is open, was added to the store, and has a name. -/
structure Stands (engine : Engine) (name : Name) (s : ℕ) (one : Session) : Prop where
  found : engine.sessions[s]? = some one
  isOpen : one.isOpen = true
  added : 0 < one.registered
  named : one.name = name

/-- The table names live sessions: what is found is open and has the name, and an open session is found or has
been superseded by a newer one. -/
structure Live (engine : Engine) : Prop where
  named : ∀ name s, engine.getSession name = some s →
    ∃ one, engine.sessions[s]? = some one ∧ one.isOpen = true ∧ one.name = name
  reachable : ∀ name s one, Stands engine name s one → engine.getSession name = some s ∨
    ∃ t newer, Stands engine name t newer ∧ one.registered < newer.registered

/-- Registrations are counted, and only sessions that were added are found. -/
structure Coherent (engine : Engine) : Prop where
  bounded : ∀ (s : ℕ) one, engine.sessions[s]? = some one → one.registered ≤ engine.registrations
  added : ∀ name s, engine.getSession name = some s → ∃ one, engine.sessions[s]? = some one ∧ 0 < one.registered

/-- A session that is not found has been superseded by the one that is. -/
theorem Live.superseded (live : Live engine) (coherent : Coherent engine) (stands : Stands engine name s one) :
    engine.getSession name = some s ∨
      ∃ t newest, engine.getSession name = some t ∧ Stands engine name t newest ∧
        one.registered < newest.registered := by
  induction left : engine.registrations - one.registered using Nat.strong_induction_on generalizing s one with
  | _ left ih =>
    subst left
    rcases live.reachable name s one stands with found | ⟨t, newer, stands', later⟩
    · exact .inl found
    · have bound := coherent.bounded t newer stands'.found
      rcases ih _ (by omega) stands' rfl with found | ⟨u, newest, found, stands'', latest⟩
      · exact .inr ⟨t, newer, found, stands', later⟩
      · exact .inr ⟨u, newest, found, stands'', later.trans latest⟩

theorem Live.found (live : Live engine) (coherent : Coherent engine) (stands : Stands engine name s one) :
    engine.getSession name ≠ none := by
  rcases live.superseded coherent stands with found | ⟨t, _, found, _⟩
  · exact found ▸ Option.some_ne_none _
  · exact found ▸ Option.some_ne_none _

/-- What is found stands. -/
theorem Live.stands (live : Live engine) (coherent : Coherent engine) (found : engine.getSession name = some s) :
    ∃ one, Stands engine name s one := by
  obtain ⟨one, known, isOpen, named⟩ := live.named name s found
  obtain ⟨same, known', added⟩ := coherent.added name s found
  cases known.symm.trans known'
  exact ⟨one, known, isOpen, added, named⟩

/-! ## Changing one session -/

/-- A pending session that joins changes nothing in the table. -/
theorem stands_push {pending : Session} {other : Engine} (unadded : pending.registered = 0)
    (sessions : other.sessions = engine.sessions ++ [pending]) :
    Stands other name s one ↔ Stands engine name s one := by
  have same (added : 0 < one.registered) : other.sessions[s]? = some one ↔ engine.sessions[s]? = some one := by
    rw [sessions, List.getElem?_append]
    split
    · exact Iff.rfl
    · next beyond =>
      rw [List.getElem?_eq_none (Nat.not_lt.mp beyond), List.getElem?_singleton]
      constructor
      · intro last
        obtain ⟨_, is⟩ := Option.ite_none_right_eq_some.mp last
        cases is
        omega
      · rintro ⟨⟩
  constructor
  · rintro ⟨found, isOpen, added, named⟩
    exact ⟨(same added).mp found, isOpen, added, named⟩
  · rintro ⟨found, isOpen, added, named⟩
    exact ⟨(same added).mpr found, isOpen, added, named⟩

/-- How the sessions of a name are changed by changing one session. -/
theorem stands_modify {change : Session → Session} {other : Engine} {t : ℕ} {two : Session}
    (known : engine.sessions[s]? = some one) (sessions : other.sessions = engine.sessions.modify s change) :
    Stands other name t two ↔
      t = s ∧ two = change one ∧ two.isOpen = true ∧ 0 < two.registered ∧ two.name = name ∨ t ≠ s ∧
        Stands engine name t two := by
  constructor
  · rintro ⟨found, isOpen, added, named⟩
    rw [sessions, Replay.getElem?_modify_iff known] at found
    rcases found with ⟨same, is⟩ | ⟨apart, found⟩
    · exact .inl ⟨same, is, isOpen, added, named⟩
    · exact .inr ⟨apart, found, isOpen, added, named⟩
  · rintro (⟨same, is, isOpen, added, named⟩ | ⟨apart, found, isOpen, added, named⟩)
    · exact ⟨by rw [sessions, Replay.getElem?_modify_iff known]; exact .inl ⟨same, is⟩, isOpen, added, named⟩
    · exact ⟨by rw [sessions, Replay.getElem?_modify_iff known]; exact .inr ⟨apart, found⟩, isOpen, added, named⟩

/-- What is found under a name is still right after another session was changed. -/
theorem Live.named_modify {change : Session → Session} {other : Engine} {t : ℕ} (live : Live engine)
    (coherent : Coherent engine)
    (known : engine.sessions[s]? = some one) (sessions : other.sessions = engine.sessions.modify s change)
    (found : engine.getSession name = some t) (apart : t ≠ s) :
    ∃ two, other.sessions[t]? = some two ∧ two.isOpen = true ∧ two.name = name := by
  obtain ⟨two, before⟩ := live.stands coherent found
  have after := (stands_modify known sessions).mpr (.inr ⟨apart, before⟩)
  exact ⟨two, after.found, after.isOpen, after.named⟩

/-- What is not found is superseded by the same session as before when another one was changed. -/
theorem Live.superseded_modify {change : Session → Session} {other : Engine} {t : ℕ} {two : Session}
    (live : Live engine)
    (coherent : Coherent engine) (known : engine.sessions[s]? = some one)
    (sessions : other.sessions = engine.sessions.modify s change)
    (before : Stands engine name t two) (apart : ∀ u, engine.getSession name = some u → u ≠ s) :
    engine.getSession name = some t ∨ ∃ u newest, Stands other name u newest ∧ two.registered < newest.registered := by
  rcases live.superseded coherent before with found | ⟨u, newest, found, before', later⟩
  · exact .inl found
  · exact .inr ⟨u, newest, (stands_modify known sessions).mpr (.inr ⟨apart u found, before'⟩), later⟩

/-- Registrations stay counted when a session is changed otherwise. -/
theorem Coherent.modify {change : Session → Session} {other : Engine} (coherent : Coherent engine)
    (known : engine.sessions[s]? = some one) (sessions : other.sessions = engine.sessions.modify s change)
    (same : (change one).registered = one.registered) (counted : other.registrations = engine.registrations)
    (found : ∀ name t, other.getSession name = some t → ∃ name, engine.getSession name = some t) : Coherent other := by
  refine ⟨fun t two found => ?_, fun name t found' => ?_⟩
  · rw [sessions, Replay.getElem?_modify_iff known] at found
    rw [counted]
    rcases found with ⟨rfl, rfl⟩ | ⟨_, found⟩
    · exact same ▸ coherent.bounded t one known
    · exact coherent.bounded t two found
  · obtain ⟨name, found⟩ := found name t found'
    obtain ⟨two, known', added⟩ := coherent.added name t found
    by_cases here : t = s
    · subst here
      cases known.symm.trans known'
      exact ⟨change one, by rw [sessions, Replay.getElem?_modify_iff known]; exact .inl ⟨rfl, rfl⟩, same ▸ added⟩
    · exact ⟨two, by rw [sessions, Replay.getElem?_modify_iff known]; exact .inr ⟨here, known'⟩, added⟩

/-! ## One event -/

/-- When an event leaves the names of the table right. -/
def Orderly (engine : Engine) : Event → Prop
  | .recvKey _ _ _ => True
  | .sendKey _ _ _ => True
  | .addSession s => ∀ one, engine.sessions[s]? = some one → one.registered = 0 →
      one.isOpen = true ∧ (one.server = true → one.name = one.remoteName)
  | .setName s name => ∀ one, engine.sessions[s]? = some one → engine.getSession one.name = none ∨
      engine.getSession one.name = some s ∧ name ≠ one.name ∧ ∀ t other, t ≠ s →
        ¬ Stands engine one.name t other ∧ (Stands engine name t other → other.registered < one.registered)
  | .closeConnCallback s => ∀ one, engine.sessions[s]? = some one →
      (∀ t other, t ≠ s → ¬ Stands engine (.b58 one.name.fromB58String) t other) ∧
        (engine.getSession one.name = some s → .b58 one.name.fromB58String = one.name)
  | .close s => ∀ one, engine.sessions[s]? = some one → one.isOpen = false → ∀ t other, ¬ Stands engine one.name t other

/-- A pending session joins. -/
theorem push_live {pending : Session} {other : Engine} (unadded : pending.registered = 0)
    (sessions : other.sessions = engine.sessions ++ [pending]) (store : other.nameStore = engine.nameStore)
    (counted : other.registrations = engine.registrations) (coherent : Coherent engine) (live : Live engine) :
    Coherent other ∧ Live other := by
  have known {t : ℕ} {two : Session} (found : engine.sessions[t]? = some two) : other.sessions[t]? = some two := by
    rw [sessions]
    exact (List.getElem?_append_left (List.getElem?_eq_some_iff.mp found).1).trans found
  have same (name : Name) : other.getSession name = engine.getSession name := by rw [getSession, getSession, store]
  refine ⟨⟨fun t two found => ?_, fun name t found => ?_⟩, ⟨fun name t found => ?_, fun name t two stands => ?_⟩⟩
  · rcases Nat.eq_zero_or_pos two.registered with none | added
    · exact none ▸ Nat.zero_le _
    · rw [sessions, List.getElem?_append] at found
      rw [counted]
      split at found
      · exact coherent.bounded t two found
      · have is := List.mem_singleton.mp (List.mem_of_getElem? found)
        exact (is ▸ unadded).le.trans (Nat.zero_le _)
  · obtain ⟨two, found, added⟩ := coherent.added name t (same name ▸ found)
    exact ⟨two, known found, added⟩
  · obtain ⟨two, found, isOpen, named⟩ := live.named name t (same name ▸ found)
    exact ⟨two, known found, isOpen, named⟩
  · rw [same]
    simp only [stands_push unadded sessions] at stands ⊢
    exact live.reachable name t two stands

/-! ### Adding a session -/

/-- The session that was added. -/
private def entered (engine : Engine) (one : Session) : Session :=
  { one with name := if one.server then one.name else one.remoteName, registered := engine.registrations + 1 }

private theorem addSession_eq (found : engine.sessions[s]? = some one) (fresh : one.registered = 0) :
    engine.addSession s = { engine with
      sessions := engine.sessions.modify s (entered engine),
      nameStore := engine.nameStore.store one.remoteName s,
      registrations := engine.registrations + 1 } := by
  rw [addSession, found]
  exact if_neg (not_not.mpr fresh)

theorem addSession_coherent (coherent : Coherent engine) : Coherent (engine.addSession s) := by
  cases found : engine.sessions[s]? with
  | none => rwa [addSession, found]
  | some one =>
    by_cases fresh : one.registered = 0
    · rw [addSession_eq found fresh]
      refine ⟨fun t two found' => ?_, fun name t found' => ?_⟩
      · rcases (Replay.getElem?_modify_iff found).mp found' with ⟨_, rfl⟩ | ⟨_, found'⟩
        · exact le_refl _
        · exact (coherent.bounded t two found').trans (Nat.le_succ _)
      · rw [getSession, SyncMap.load_store] at found'
        split at found'
        · cases found'
          exact ⟨_, (Replay.getElem?_modify_iff found).mpr (.inl ⟨rfl, rfl⟩), Nat.succ_pos _⟩
        · obtain ⟨two, known, added⟩ := coherent.added name t found'
          by_cases here : t = s
          · subst here
            exact ⟨_, (Replay.getElem?_modify_iff found).mpr (.inl ⟨rfl, rfl⟩), Nat.succ_pos _⟩
          · exact ⟨two, (Replay.getElem?_modify_iff found).mpr (.inr ⟨here, known⟩), added⟩
    · rw [addSession, found]
      dsimp only
      rwa [if_pos fresh]

theorem addSession_live_iff (coherent : Coherent engine) (live : Live engine) :
    Live (engine.addSession s) ↔ Orderly engine (.addSession s) := by
  cases found : engine.sessions[s]? with
  | none => simp [addSession, Orderly, found, live]
  | some one =>
    by_cases fresh : one.registered = 0
    · have sessions : (engine.addSession s).sessions = engine.sessions.modify s (entered engine) := by
        rw [addSession_eq found fresh]
      have stands {name : Name} {t : ℕ} {two : Session} :=
        @stands_modify engine name s one (entered engine) (engine.addSession s) t two found sessions
      have known (name : Name) : (engine.addSession s).getSession name =
          if name = one.remoteName then some s else engine.getSession name := by rw [addSession_eq found fresh]; rfl
      -- a session that is found before was added, so it is another one
      have apart {name : Name} {t : ℕ} (found' : engine.getSession name = some t) : t ≠ s := by
        rintro rfl
        obtain ⟨two, known, added⟩ := coherent.added name t found'
        cases found.symm.trans known
        exact added.ne' fresh
      constructor
      · intro live two found' _
        cases found.symm.trans found'
        obtain ⟨two, found', isOpen, named⟩ := live.named one.remoteName s (by rw [known, if_pos rfl])
        rw [addSession_eq found fresh, Replay.getElem?_modify_iff found] at found'
        rcases found' with ⟨_, rfl⟩ | ⟨apart, _⟩
        · refine ⟨isOpen, fun server => ?_⟩
          rwa [entered, if_pos server] at named
        · exact absurd rfl apart
      · intro safe
        obtain ⟨isOpen, same⟩ := safe one found fresh
        have named : (entered engine one).name = one.remoteName := by
          rw [entered]
          split
          · next server => exact same server
          · rfl
        have here : Stands (engine.addSession s) one.remoteName s (entered engine one) :=
          stands.mpr (.inl ⟨rfl, rfl, isOpen, Nat.succ_pos _, named⟩)
        refine ⟨fun name t found' => ?_, fun name t two stands' => ?_⟩
        · rw [known] at found'
          split at found'
          · next is =>
            cases found'
            exact ⟨_, here.found, isOpen, is ▸ named⟩
          · exact live.named_modify coherent found sessions found' (apart found')
        · rw [known]
          rcases stands.mp stands' with ⟨rfl, rfl, _, _, is⟩ | ⟨_, before⟩
          · exact .inl (if_pos (is.symm.trans named))
          · split
            · next is =>
              exact .inr ⟨s, _, is ▸ here, Nat.lt_succ_of_le (coherent.bounded t two before.found)⟩
            · exact live.superseded_modify coherent found sessions before fun _ => apart
    · have same : engine.addSession s = engine := by
        rw [addSession, found]
        exact if_pos fresh
      rw [same]
      refine ⟨fun _ two found' none => ?_, fun _ => live⟩
      cases found.symm.trans found'
      exact absurd none fresh

/-! ### Renaming a session -/

private theorem setName_sessions (found : engine.sessions[s]? = some one) :
    (engine.setName s name).sessions = engine.sessions.modify s fun one => { one with name } := by
  rw [setName, found]
  dsimp only [renameSession]
  split
  · rfl
  · rfl

private theorem setName_getSession (found : engine.sessions[s]? = some one) (other : Name) :
    (engine.setName s name).getSession other = match engine.getSession one.name with
      | none => engine.getSession other
      | some u => if other = one.name then none else if other = name then some u else engine.getSession other := by
  rw [setName, found]
  simp only [getSession, renameSession]
  cases engine.nameStore.load one.name with
  | none => rfl
  | some u => rfl

private theorem setName_registrations (found : engine.sessions[s]? = some one) :
    (engine.setName s name).registrations = engine.registrations := by
  rw [setName, found]
  dsimp only [renameSession]
  split
  · rfl
  · rfl

theorem setName_coherent (coherent : Coherent engine) : Coherent (engine.setName s name) := by
  cases found : engine.sessions[s]? with
  | none => rwa [setName, found]
  | some one =>
    refine coherent.modify found (setName_sessions found) rfl (setName_registrations found) fun other t found' => ?_
    rw [setName_getSession found] at found'
    cases held : engine.getSession one.name with
    | none =>
      rw [held] at found'
      exact ⟨other, found'⟩
    | some u =>
      rw [held] at found'
      dsimp only at found'
      split_ifs at found'
      · cases found'
        exact ⟨one.name, held⟩
      · exact ⟨other, found'⟩

/-- A session that is found under another name is another one. -/
private theorem ne_of_found (live : Live engine) (found : engine.sessions[s]? = some one) {other : Name} {t : ℕ}
    (differs : other ≠ one.name) (found' : engine.getSession other = some t) : t ≠ s := by
  rintro rfl
  obtain ⟨two, known, _, named⟩ := live.named other t found'
  cases found.symm.trans known
  exact differs named.symm

/-- Where nothing stands under its name, the store stays. -/
private theorem setName_live_of_none (coherent : Coherent engine) (live : Live engine)
    (found : engine.sessions[s]? = some one) (held : engine.getSession one.name = none) :
    Live (engine.setName s name) := by
  have sessions := @setName_sessions engine name s one found
  have known := @setName_getSession engine name s one found
  simp only [held] at known
  have apart {other : Name} {t : ℕ} (found' : engine.getSession other = some t) : t ≠ s := by
    refine ne_of_found live found ?_ found'
    rintro rfl
    rw [held] at found'
    cases found'
  refine ⟨fun other t found' => ?_, fun other t two stands' => ?_⟩
  · rw [known] at found'
    exact live.named_modify coherent found sessions found' (apart found')
  · rw [known]
    rcases (stands_modify found sessions).mp stands' with ⟨_, rfl, isOpen, added, _⟩ | ⟨_, before⟩
    · exact absurd held (live.found coherent ⟨found, isOpen, added, rfl⟩)
    · exact live.superseded_modify coherent found sessions before fun _ => apart

/-- If the table is right afterwards, the session stands alone under its name, and nothing newer under the new one. -/
private theorem safe_of_setName_live {u : ℕ} (coherent : Coherent engine) (live : Live engine)
    (found : engine.sessions[s]? = some one) (held : engine.getSession one.name = some u)
    (after : Live (engine.setName s name)) : Orderly engine (.setName s name) := by
  intro two found'
  cases found.symm.trans found'
  have sessions := @setName_sessions engine name s one found
  have stands {other : Name} {t : ℕ} {two : Session} :=
    @stands_modify engine other s one _ (engine.setName s name) t two found sessions
  have known := @setName_getSession engine name s one found
  simp only [held] at known
  have coherent' : Coherent (engine.setName s name) := setName_coherent coherent
  have gone : (engine.setName s name).getSession one.name = none := by rw [known, if_pos rfl]
  obtain ⟨two, before⟩ := live.stands coherent held
  have differs : name ≠ one.name := by
    intro same
    by_cases here : u = s
    · subst here
      cases found.symm.trans before.found
      exact after.found coherent' (stands.mpr (.inl ⟨rfl, rfl, before.isOpen, before.added, same⟩)) gone
    · exact after.found coherent' (stands.mpr (.inr ⟨here, before⟩)) gone
  have moved : (engine.setName s name).getSession name = some u := by rw [known, if_neg differs, if_pos rfl]
  have here : u = s := by
    by_contra other
    obtain ⟨three, found', _, named⟩ := after.named name u moved
    rw [sessions, Replay.getElem?_modify_iff found] at found'
    rcases found' with ⟨same, _⟩ | ⟨_, found'⟩
    · exact other same
    · cases before.found.symm.trans found'
      exact differs (named.symm.trans before.named)
  subst here
  refine .inr ⟨held, differs, fun t three elsewhere => ⟨fun stands' => ?_, fun stands' => ?_⟩⟩
  · exact after.found coherent' (stands.mpr (.inr ⟨elsewhere, stands'⟩)) gone
  · rcases after.superseded coherent' (stands.mpr (.inr ⟨elsewhere, stands'⟩)) with
      found' | ⟨v, newest, found', stands'', later⟩
    · exact absurd (Option.some.inj (found'.symm.trans moved)) elsewhere
    · cases found'.symm.trans moved
      rcases stands.mp stands'' with ⟨_, rfl, _⟩ | ⟨other, _⟩
      · exact later
      · exact absurd rfl other

/-- A session that stands alone under its name takes its place along. -/
private theorem setName_live_of_alone (coherent : Coherent engine) (live : Live engine)
    (found : engine.sessions[s]? = some one) (held : engine.getSession one.name = some s) (differs : name ≠ one.name)
    (alone : ∀ t other, t ≠ s → ¬ Stands engine one.name t other ∧
      (Stands engine name t other → other.registered < one.registered)) : Live (engine.setName s name) := by
  have sessions := @setName_sessions engine name s one found
  have known := @setName_getSession engine name s one found
  simp only [held] at known
  obtain ⟨two, before⟩ := live.stands coherent held
  cases found.symm.trans before.found
  have here : Stands (engine.setName s name) name s { one with name } :=
    (stands_modify found sessions).mpr (.inl ⟨rfl, rfl, before.isOpen, before.added, rfl⟩)
  refine ⟨fun other t found' => ?_, fun other t two stands' => ?_⟩
  · rw [known] at found'
    split_ifs at found' with old new
    · cases found'
      exact ⟨_, here.found, here.isOpen, new ▸ rfl⟩
    · exact live.named_modify coherent found sessions found' (ne_of_found live found old found')
  · rw [known]
    rcases (stands_modify found sessions).mp stands' with ⟨rfl, rfl, _, _, named⟩ | ⟨elsewhere, stands''⟩
    · have new : other = name := named.symm
      exact .inl (by rw [if_neg (new ▸ differs), if_pos new])
    · by_cases old : other = one.name
      · exact absurd (old ▸ stands'') (alone t two elsewhere).1
      · by_cases new : other = name
        · subst new
          exact .inr ⟨s, _, here, (alone t two elsewhere).2 stands''⟩
        · rw [if_neg old, if_neg new]
          exact live.superseded_modify coherent found sessions stands'' fun _ => ne_of_found live found old

theorem setName_live_iff (coherent : Coherent engine) (live : Live engine) :
    Live (engine.setName s name) ↔ Orderly engine (.setName s name) := by
  cases found : engine.sessions[s]? with
  | none => simp [setName, Orderly, found, live]
  | some one =>
    cases held : engine.getSession one.name with
    | none =>
      refine iff_of_true (setName_live_of_none coherent live found held) fun two found' => ?_
      cases found.symm.trans found'
      exact .inl held
    | some u =>
      refine ⟨safe_of_setName_live coherent live found held, fun safe => ?_⟩
      obtain ⟨held', differs, alone⟩ := (safe one found).resolve_left (held ▸ Option.some_ne_none _)
      exact setName_live_of_alone coherent live found held' differs alone

/-! ### Closing a session -/

private theorem callback_sessions (found : engine.sessions[s]? = some one) :
    (engine.closeConnCallback s).sessions = engine.sessions.modify s fun one => { one with isOpen := false } := by
  rw [closeConnCallback, found]
  rfl

private theorem callback_getSession (found : engine.sessions[s]? = some one) (other : Name) :
    (engine.closeConnCallback s).getSession other =
      if other = .b58 one.name.fromB58String then none else engine.getSession other := by
  rw [closeConnCallback, found]
  rfl

theorem callback_coherent (coherent : Coherent engine) : Coherent (engine.closeConnCallback s) := by
  cases found : engine.sessions[s]? with
  | none => rwa [closeConnCallback, found]
  | some one =>
    have counted : (engine.closeConnCallback s).registrations = engine.registrations := by
      rw [closeConnCallback, found]
      rfl
    refine coherent.modify found (callback_sessions found) rfl counted fun other t found' => ⟨other, ?_⟩
    rw [callback_getSession found] at found'
    split at found'
    · cases found'
    · exact found'

theorem callback_live_iff (coherent : Coherent engine) (live : Live engine) :
    Live (engine.closeConnCallback s) ↔ Orderly engine (.closeConnCallback s) := by
  cases found : engine.sessions[s]? with
  | none => simp [closeConnCallback, Orderly, found, live]
  | some one =>
    have stands {other : Name} {t : ℕ} {two : Session} :=
      @stands_modify engine other s one _ (engine.closeConnCallback s) t two found (callback_sessions found)
    have known := callback_getSession found
    constructor
    · intro after two found'
      cases found.symm.trans found'
      refine ⟨fun t other elsewhere stands' => ?_, fun held => ?_⟩
      · exact after.found (callback_coherent coherent) (stands.mpr (.inr ⟨elsewhere, stands'⟩))
          (by rw [known, if_pos rfl])
      · by_contra differs
        obtain ⟨two, found', isOpen, _⟩ := after.named one.name s (by rw [known, if_neg (Ne.symm differs), held])
        rw [callback_sessions found, Replay.getElem?_modify_iff found] at found'
        rcases found' with ⟨_, rfl⟩ | ⟨apart, _⟩
        · cases isOpen
        · exact apart rfl
    · intro safe
      obtain ⟨alone, same⟩ := safe one found
      -- the closed session is not found any more
      have apart {other : Name} {t : ℕ} (differs : other ≠ .b58 one.name.fromB58String)
          (found' : engine.getSession other = some t) : t ≠ s := by
        rintro rfl
        obtain ⟨two, known, _, rfl⟩ := live.named other t found'
        cases found.symm.trans known
        exact differs (same found').symm
      refine ⟨fun other t found' => ?_, fun other t two stands' => ?_⟩
      · rw [known] at found'
        split at found'
        · cases found'
        · next differs =>
          exact live.named_modify coherent found (callback_sessions found) found' (apart differs found')
      · rcases stands.mp stands' with ⟨_, rfl, isOpen, _⟩ | ⟨elsewhere, before⟩
        · cases isOpen
        · have differs : other ≠ .b58 one.name.fromB58String := by
            rintro rfl
            exact alone t two elsewhere before
          rw [known, if_neg differs]
          exact live.superseded_modify coherent found (callback_sessions found) before fun _ => apart differs

private theorem close_eq (found : engine.sessions[s]? = some one) (closed : one.isOpen = false) :
    engine.close s = engine.removeSession one.name := by
  rw [close, found]
  exact if_neg (by rw [closed]; exact Bool.false_ne_true)

private theorem close_open (open_ : ∀ one, engine.sessions[s]? = some one → one.isOpen = true) :
    engine.close s = engine := by
  rw [close]
  split
  · rfl
  · next found => exact if_pos (open_ _ found)

theorem removeSession_coherent (coherent : Coherent engine) : Coherent (engine.removeSession name) := by
  refine ⟨coherent.bounded, fun other t found => coherent.added other t ?_⟩
  rw [getSession, removeSession, SyncMap.load_delete] at found
  split at found
  · cases found
  · exact found

theorem close_coherent (coherent : Coherent engine) : Coherent (engine.close s) := by
  rw [close]
  split
  · exact coherent
  · split
    · exact coherent
    · exact removeSession_coherent coherent

theorem close_live_iff (coherent : Coherent engine) (live : Live engine) :
    Live (engine.close s) ↔ Orderly engine (.close s) := by
  by_cases closed : ∃ one, engine.sessions[s]? = some one ∧ one.isOpen = false
  · obtain ⟨one, found, closed⟩ := closed
    rw [close_eq found closed]
    have known (other : Name) : (engine.removeSession one.name).getSession other =
        if other = one.name then none else engine.getSession other := rfl
    constructor
    · intro after two found' _ t other stands
      cases found.symm.trans found'
      have stands' : Stands (engine.removeSession one.name) one.name t other :=
        ⟨stands.found, stands.isOpen, stands.added, stands.named⟩
      exact after.found (removeSession_coherent coherent) stands' (by rw [known, if_pos rfl])
    · intro safe
      refine ⟨fun other t found' => live.named other t ?_, fun other t two stands => ?_⟩
      · rw [known] at found'
        split at found'
        · cases found'
        · exact found'
      · have before : Stands engine other t two := ⟨stands.found, stands.isOpen, stands.added, stands.named⟩
        have differs : other ≠ one.name := by
          rintro rfl
          exact safe one found closed t two before
        rw [known, if_neg differs]
        rcases live.reachable other t two before with found' | ⟨u, newer, before', later⟩
        · exact .inl found'
        · exact .inr ⟨u, newer, ⟨before'.found, before'.isOpen, before'.added, before'.named⟩, later⟩
  · have open_ : ∀ one, engine.sessions[s]? = some one → one.isOpen = true := by
      intro one found
      by_contra shut
      exact closed ⟨one, found, Bool.not_eq_true _ ▸ shut⟩
    rw [close_open open_]
    refine iff_of_true live fun one found shut => ?_
    rw [open_ one found] at shut
    cases shut

/-! ## Every event -/

theorem recvKey_live {id : Multihash} {isSuper : Bool} {allNodes : List Multihash} (coherent : Coherent engine)
    (live : Live engine) : Coherent (engine.recvKey id isSuper allNodes) ∧
      Live (engine.recvKey id isSuper allNodes) := by
  rw [recvKey]
  split
  · exact ⟨coherent, live⟩
  · exact push_live rfl rfl rfl rfl coherent live

theorem sendKey_live {id : Multihash} {isSuper : Bool} {allNodes : List Multihash} (coherent : Coherent engine)
    (live : Live engine) : Coherent (engine.sendKey id isSuper allNodes) ∧
      Live (engine.sendKey id isSuper allNodes) := by
  rw [sendKey]
  split
  · exact ⟨coherent, live⟩
  · exact push_live rfl rfl rfl rfl coherent live

/-- An event leaves a right table right exactly when it is safe. -/
theorem step_live_iff (coherent : Coherent engine) (live : Live engine) (event : Event) :
    Live (engine.step event) ↔ Orderly engine event := by
  cases event with
  | recvKey => exact iff_of_true (recvKey_live coherent live).2 trivial
  | sendKey => exact iff_of_true (sendKey_live coherent live).2 trivial
  | addSession => exact addSession_live_iff coherent live
  | setName => exact setName_live_iff coherent live
  | closeConnCallback => exact callback_live_iff coherent live
  | close => exact close_live_iff coherent live

theorem step_coherent (coherent : Coherent engine) (live : Live engine) (event : Event) :
    Coherent (engine.step event) := by
  cases event with
  | recvKey => exact (recvKey_live coherent live).1
  | sendKey => exact (sendKey_live coherent live).1
  | addSession => exact addSession_coherent coherent
  | setName => exact setName_coherent coherent
  | closeConnCallback => exact callback_coherent coherent
  | close => exact close_coherent coherent

/-! ### What closing leaves alone -/

/-- The name under which a session is found, or will be once it is added. -/
def Session.key (one : Session) : Name := if one.registered = 0 then one.remoteName else one.name

/-- A session is newer than one that was added before it, and so is one that is still to be added; two of these are in
the order in which they were accepted. -/
def Newer (s : ℕ) (one : Session) (t : ℕ) (other : Session) : Prop :=
  one.registered < other.registered ∨ other.registered = 0 ∧ (0 < one.registered ∨ s < t)

/-- Closing an older session leaves the newer one of its name in the store, and the nodes of that name in their
tables. -/
def Spares (engine : Engine) (event : Event) : Prop :=
  ∀ s, event = .closeConnCallback s ∨ event = .close s → ∀ one, engine.sessions[s]? = some one →
    ∀ t newer, engine.sessions[t]? = some newer → newer.isOpen = true → newer.key = one.name → Newer s one t newer →
      (engine.getSession one.name = some t → (engine.step event).getSession one.name = some t) ∧
      ∀ id, one.name = .b58 id →
        (id ∈ engine.manager.nodes → id ∈ (engine.step event).manager.nodes) ∧
        (id ∈ engine.manager.proxys → id ∈ (engine.step event).manager.proxys)

/-- No session is closed while a newer one of its name, accepted but still to be added, has its node in a table. -/
def Unhurried (engine : Engine) : Event → Prop
  | .closeConnCallback s => ∀ one, engine.sessions[s]? = some one → ∀ t pending, engine.sessions[t]? = some pending →
      pending.isOpen = true → pending.registered = 0 → pending.remoteName = one.name → Newer s one t pending →
        ∀ id, one.name = .b58 id → one.name.fromB58String = id →
          id ∉ engine.manager.nodes ∧ id ∉ engine.manager.proxys
  | _ => True

/-- When an event leaves the table right, and the nodes of newer sessions where they are. -/
structure Safe (engine : Engine) (event : Event) : Prop where
  orderly : Orderly engine event
  unhurried : Unhurried engine event

/-- A session is not newer than itself. -/
theorem Newer.ne {t : ℕ} {other : Session} (newer : Newer s one t other) (found : engine.sessions[s]? = some one)
    (found' : engine.sessions[t]? = some other) : t ≠ s := by
  rintro rfl
  cases found.symm.trans found'
  rcases newer with later | ⟨pending, added | later⟩
  · exact lt_irrefl _ later
  · exact added.ne' pending
  · exact lt_irrefl _ later

/-- An open session of a name stands, or is still to be added. -/
theorem stands_or_pending {t : ℕ} {other : Session} (found : engine.sessions[t]? = some other)
    (isOpen : other.isOpen = true) (named : other.key = name) :
    Stands engine name t other ∨ other.registered = 0 ∧ other.remoteName = name := by
  rw [Session.key] at named
  split at named
  · next pending => exact .inr ⟨pending, named⟩
  · next added => exact .inl ⟨found, isOpen, Nat.pos_of_ne_zero added, named⟩

private theorem callback_manager (found : engine.sessions[s]? = some one) :
    (engine.closeConnCallback s).manager = engine.manager.delNode one.name.fromB58String := by
  rw [closeConnCallback, found]
  rfl

/-- Closing a session that leaves the names right hurts no newer one that was added. -/
theorem callback_elsewhere {t : ℕ} {newer : Session} (orderly : Orderly engine (.closeConnCallback s))
    (found : engine.sessions[s]? = some one) (apart : t ≠ s) (stands : Stands engine one.name t newer) :
    one.name ≠ .b58 one.name.fromB58String :=
  fun same => (orderly one found).1 t newer apart (same ▸ stands)

theorem callback_spares (coherent : Coherent engine) (safe : Safe engine (.closeConnCallback s)) :
    Spares engine (.closeConnCallback s) := by
  rintro s' (is | is)
  case inr => cases is
  cases is
  intro one found t newer found' isOpen named later
  have apart := later.ne found found'
  rw [step, callback_manager found]
  refine ⟨fun held => ?_, fun id is => ?_⟩
  · obtain ⟨two, known, added⟩ := coherent.added _ t held
    cases found'.symm.trans known
    rcases stands_or_pending found' isOpen named with stands | ⟨pending, _⟩
    · rw [callback_getSession found, if_neg (callback_elsewhere safe.orderly found apart stands), held]
    · exact absurd pending added.ne'
  · have kept : one.name.fromB58String ≠ id ∨ id ∉ engine.manager.nodes ∧ id ∉ engine.manager.proxys := by
      by_cases same : one.name.fromB58String = id
      · rcases stands_or_pending found' isOpen named with stands | ⟨pending, key⟩
        · exact absurd (is.trans (congrArg Name.b58 same.symm)) (callback_elsewhere safe.orderly found apart stands)
        · exact .inr (safe.unhurried one found t newer found' isOpen pending key later id is same)
      · exact .inl same
    rcases kept with other | ⟨noNode, noProxy⟩
    · exact ⟨fun member => List.mem_filter.mpr ⟨member, decide_eq_true other.symm⟩,
        fun member => List.mem_filter.mpr ⟨member, decide_eq_true other.symm⟩⟩
    · exact ⟨fun member => absurd member noNode, fun member => absurd member noProxy⟩

theorem close_spares (coherent : Coherent engine) (orderly : Orderly engine (.close s)) : Spares engine (.close s) := by
  rintro s' (is | is)
  case inl => cases is
  cases is
  intro one found t newer found' isOpen named later
  have tables : (engine.step (.close s)).manager = engine.manager := by
    rw [step, close, found]
    dsimp only
    split
    · rfl
    · rfl
  rw [tables]
  refine ⟨fun held => ?_, fun id _ => ⟨fun member => member, fun member => member⟩⟩
  obtain ⟨two, known, added⟩ := coherent.added _ t held
  cases found'.symm.trans known
  have open_ : ∀ two, engine.sessions[s]? = some two → two.isOpen = true := by
    intro two known'
    cases found.symm.trans known'
    by_contra shut
    rcases stands_or_pending found' isOpen named with stands | ⟨pending, _⟩
    · exact orderly one found (Bool.not_eq_true _ ▸ shut) t newer stands
    · exact absurd pending added.ne'
  rw [step, close_open open_, held]

theorem spares_of_other {event : Event} (callback : ∀ s, event ≠ .closeConnCallback s) (close : ∀ s, event ≠ .close s) :
    Spares engine event := by
  rintro s (is | is)
  · exact absurd is (callback s)
  · exact absurd is (close s)

/-- An event that leaves the names right spares the newer sessions exactly when it does not hurry. -/
theorem spares_iff (coherent : Coherent engine) {event : Event} (orderly : Orderly engine event) :
    Spares engine event ↔ Unhurried engine event := by
  cases event with
  | closeConnCallback s =>
    refine ⟨fun spares one found t pending found' isOpen unadded key later id is same => ?_,
      fun unhurried => callback_spares coherent ⟨orderly, unhurried⟩⟩
    have named : pending.key = one.name := by rw [Session.key, if_pos unadded, key]
    have kept := (spares s (.inl rfl) one found t pending found' isOpen named later).2 id is
    rw [step, callback_manager found] at kept
    have gone {table : List Multihash} : id ∉ table.filter fun two => two ≠ one.name.fromB58String := by
      rw [List.mem_filter, same]
      simp
    exact ⟨fun member => gone (kept.1 member), fun member => gone (kept.2 member)⟩
  | close s => exact iff_of_true (close_spares coherent orderly) trivial
  | recvKey => exact iff_of_true (spares_of_other nofun nofun) trivial
  | sendKey => exact iff_of_true (spares_of_other nofun nofun) trivial
  | addSession => exact iff_of_true (spares_of_other nofun nofun) trivial
  | setName => exact iff_of_true (spares_of_other nofun nofun) trivial

/-! ## Every run -/

/-- In every state of a run the table names live sessions, and closing an older session spares the newer one. -/
structure NamesLiveSessions (name : Name) (nodeSelf : Multihash) (events : List Event) : Prop where
  live : Replay.Always step (start name nodeSelf) Live events
  spares : Replay.Each step (start name nodeSelf) Spares events

theorem start_coherent {nodeSelf : Multihash} : Coherent (start name nodeSelf) := by
  refine ⟨fun s one found => ?_, fun name s found => ?_⟩
  · cases found
  · cases found

theorem start_live {nodeSelf : Multihash} : Live (start name nodeSelf) := by
  refine ⟨fun name s found => ?_, fun name s one stands => ?_⟩
  · cases found
  · cases stands.found

/-- The table names live sessions in all of a run exactly when every one of its events is safe where it happens. -/
theorem names_live_sessions_iff (name : Name) (nodeSelf : Multihash) (events : List Event) :
    NamesLiveSessions name nodeSelf events ↔ Replay.Each step (start name nodeSelf) Safe events := by
  obtain ⟨exact, coherent⟩ := @Replay.always_iff_each_of _ _ step (start name nodeSelf) Live Coherent Orderly
    (fun _ _ => True) start_live start_coherent
    (fun _ event _ coherent live => step_coherent coherent live event)
    (fun _ event _ coherent live => step_live_iff coherent live event) events fun _ _ _ _ => trivial
  constructor
  · intro right front event back split
    have orderly := exact.mp right.live front event back split
    have known := coherent right.live front (event :: back) split
    exact ⟨orderly, (spares_iff known orderly).mp (right.spares front event back split)⟩
  · intro safe
    have live := exact.mpr fun front event back split => (safe front event back split).orderly
    refine ⟨live, fun front event back split => ?_⟩
    have known := coherent live front (event :: back) split
    obtain ⟨orderly, unhurried⟩ := safe front event back split
    exact (spares_iff known orderly).mpr unhurried

/-- A peer connects twice, both sessions are added, and the older one is closed. -/
def connectedTwice : List Event :=
  [.recvKey [0, 1, 7] false [], .recvKey [0, 1, 7] false [], .addSession 0, .addSession 1, .closeConnCallback 0]

/-- Closing the older session takes the newer one out of the store, and the node out of its table. -/
theorem connectedTwice_forgets : ¬ NamesLiveSessions (.text "") [0, 1, 9] connectedTwice ∧
    (run (.text "") [0, 1, 9] (connectedTwice.take 4)).getSession (.b58 [0, 1, 7]) = some 1 ∧
    (run (.text "") [0, 1, 9] connectedTwice).getSession (.b58 [0, 1, 7]) = none ∧
    (run (.text "") [0, 1, 9] connectedTwice).manager.proxys = [] := by
  have gone : (run (.text "") [0, 1, 9] connectedTwice).getSession (.b58 [0, 1, 7]) = none := by decide
  refine ⟨fun right => ?_, by decide, gone, by decide⟩
  have kept := (right.spares (connectedTwice.take 4) (.closeConnCallback 0) [] rfl 0 (.inl rfl)
    { server := true, name := .b58 [0, 1, 7], remoteName := .b58 [0, 1, 7], registered := 1 } (by decide) 1
    { server := true, name := .b58 [0, 1, 7], remoteName := .b58 [0, 1, 7], registered := 2 } (by decide) rfl rfl
    (.inl (by decide))).1 (by decide)
  cases gone.symm.trans kept

end PolarCloud.Sessions
