import PolarCloud.Base.Replay
import PolarCloud.Model.CacheStore.Name

/-! # Locks of permanent names

A name that is being registered has no lock, and it gets none when it is made permanent. The other way into the
permanent table makes a lock first.
-/

namespace PolarCloud.CacheStore.Names

/-- Whatever name is found among the permanent ones has a lock, and can be given addresses and lose them. -/
def Usable (this : Names) : Prop :=
  ∀ name one, this.findNameInForever name = some one → one.lock = true ∧
    ∀ sid pid now, (one.addId sid pid now).isSome = true ∧ (one.delId sid pid).isSome = true

/-- No name without a lock is made permanent. -/
def SwitchesLocked (this : Names) : Event → Prop
  | .switchNameForForever name => ∀ ref one, this.tempName.load name = some ref → this.objects[ref]? = some one →
      one.lock = true
  | _ => True

/-- The tables refer to names. -/
structure Owned (this : Names) : Prop where
  temp : ∀ name ref, this.tempName.load name = some ref → ref < this.objects.length
  forever : ∀ name ref, this.foreverName.load name = some ref → ref < this.objects.length

variable {this : Names} {name : String} {ref : ℕ} {one : Name}

theorem usable_iff : this.Usable ↔
    ∀ name ref one, this.foreverName.load name = some ref → this.objects[ref]? = some one → one.lock = true := by
  constructor
  · intro usable name ref one known found
    exact (usable name one (by rw [findNameInForever, known]; exact found)).1
  · intro locks name one found
    obtain ⟨ref, known, found⟩ := Option.bind_eq_some_iff.mp found
    have locked := locks name ref one known found
    refine ⟨locked, fun sid pid now => ⟨?_, ?_⟩⟩
    · rw [Name.addId, if_pos locked]
      split
      · rfl
      · rfl
    · rw [Name.delId, if_pos locked]
      split
      · rfl
      · rfl

/-- A name that is made is in no table. -/
theorem usable_makeName (owned : this.Owned) (one : Name) : (this.makeName one).Usable ↔ this.Usable := by
  rw [usable_iff, usable_iff]
  refine forall_congr' fun name => forall_congr' fun ref => forall_congr' fun other => ?_
  refine forall_congr' fun known => ?_
  rw [makeName, List.getElem?_append_left (owned.forever name ref known)]

theorem Owned.makeName (owned : this.Owned) (one : Name) : (this.makeName one).Owned := by
  have longer : this.objects.length ≤ (this.makeName one).objects.length := by
    rw [Names.makeName, List.length_append]
    exact Nat.le_add_right _ _
  exact ⟨fun name ref known => (owned.temp name ref known).trans_le longer,
    fun name ref known => (owned.forever name ref known).trans_le longer⟩

theorem usable_switchNameForForever (usable : this.Usable) :
    (this.switchNameForForever name).Usable ↔ this.SwitchesLocked (.switchNameForForever name) := by
  rw [switchNameForForever, SwitchesLocked]
  cases building : this.tempName.load name with
  | none => exact iff_of_true usable nofun
  | some nameOne =>
    rw [usable_iff] at usable ⊢
    constructor
    · rintro locks ref one ⟨⟩ found
      exact locks name nameOne one (SyncMap.load_store_self _ _ _) found
    · intro locked other ref one known found
      rw [SyncMap.load_store] at known
      split at known
      · exact locked ref one known found
      · exact usable other ref one known found

theorem usable_addForeverName (usable : this.Usable) : (this.addForeverName ref).Usable := by
  rw [addForeverName]
  cases given : this.objects[ref]? with
  | none => exact usable
  | some one =>
    rw [usable_iff] at usable ⊢
    intro other ref' one' known found
    dsimp only at known found
    rw [List.getElem?_set] at found
    split at found
    · split at found
      · cases found
        rfl
      · cases found
    · next differs =>
      rw [SyncMap.load_store] at known
      split at known
      · exact absurd (Option.some.inj known) differs
      · exact usable other ref' one' known found

theorem Owned.step (owned : this.Owned) (event : Event) : (this.step event).Owned := by
  cases event with
  | makeName one => exact owned.makeName one
  | addBuildName name =>
    rw [Names.step, addBuildName]
    split
    · exact owned
    · refine ⟨fun other ref known => ?_, (owned.makeName _).forever⟩
      rw [SyncMap.load_store] at known
      split at known
      · cases known
        simp [Names.makeName]
      · exact (owned.makeName _).temp other ref known
  | removeTempName name =>
    refine ⟨fun other ref known => ?_, owned.forever⟩
    rw [Names.step, removeTempName, SyncMap.load_delete] at known
    split at known
    · cases known
    · exact owned.temp other ref known
  | switchNameForForever name =>
    rw [Names.step, switchNameForForever]
    split
    · next nameOne building =>
      refine ⟨owned.temp, fun other ref known => ?_⟩
      rw [SyncMap.load_store] at known
      split at known
      · cases known
        exact owned.temp name nameOne building
      · exact owned.forever other ref known
    · exact owned
  | addForeverName given =>
    rw [Names.step, addForeverName]
    split
    · next one found =>
      refine ⟨fun other ref known => ?_, fun other ref known => ?_⟩
      · rw [List.length_set]
        exact owned.temp other ref known
      · rw [List.length_set]
        rw [SyncMap.load_store] at known
        split at known
        · cases known
          exact (List.getElem?_eq_some_iff.mp found).1
        · exact owned.forever other ref known
    · exact owned

theorem usable_step_iff (owned : this.Owned) (usable : this.Usable) (event : Event) :
    (this.step event).Usable ↔ this.SwitchesLocked event := by
  cases event with
  | makeName one => exact iff_of_true ((usable_makeName owned one).mpr usable) trivial
  | addBuildName name =>
    refine iff_of_true ?_ trivial
    rw [step, addBuildName]
    split
    · exact usable
    · exact (usable_makeName owned _).mpr usable
  | removeTempName name => exact iff_of_true usable trivial
  | switchNameForForever name => exact usable_switchNameForForever usable
  | addForeverName ref => exact iff_of_true (usable_addForeverName usable) trivial

/-- Permanent names are usable in every state exactly when no name without a lock is switched. -/
theorem always_usable_iff (events : List Event) :
    Replay.Always step {} Usable events ↔ Replay.Each step {} SwitchesLocked events := by
  have initial : Usable {} := nofun
  have owned : Owned {} := ⟨nofun, nofun⟩
  apply Replay.always_iff_each initial owned
  · exact fun this event owned _ => owned.step event
  · exact fun this event owned usable => usable_step_iff owned usable event

/-- A name is registered and made permanent, and cannot be given an address. -/
theorem built_panics : ¬ Replay.Always step {} Usable [.addBuildName "name", .switchNameForForever "name"] := by
  intro always
  have found : ([.addBuildName "name", .switchNameForForever "name"].foldl step {}).findNameInForever "name" =
      some { name := "name" } := by decide
  exact absurd (always.last "name" _ found).1 (by decide)

end PolarCloud.CacheStore.Names
