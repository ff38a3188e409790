import Mathlib.Data.List.Perm.Basic
import PolarCloud.Base.SyncMap

/-! # Logs written in any order

Several parties each write a log, and the logs are replayed party by party. The order of the parties
does not matter exactly when any two of them leave the same at every key that both write.
-/

namespace PolarCloud

universe u v w x

section Logs

variable {τ : Type x} {κ : Type u} {β : Type v} [DecidableEq κ] (writes : τ → List (κ × β))

/-- Any two parties that write a key leave the same there. -/
def Agreeing (parties : List τ) : Prop :=
  ∀ first ∈ parties, ∀ second ∈ parties, ∀ key left right, lastWrite (writes first) key = some left →
    lastWrite (writes second) key = some right → left = right

variable {writes}

theorem Agreeing.perm {first second : List τ} (agreeing : Agreeing writes first) (perm : second.Perm first) :
    Agreeing writes second := fun left leftMember right rightMember =>
  agreeing left (perm.mem_iff.mp leftMember) right (perm.mem_iff.mp rightMember)

/-- What stands last at a key was left there by some party. -/
theorem exists_of_lastWrite_flatMap {parties : List τ} {key : κ} {value : β}
    (last : lastWrite (parties.flatMap writes) key = some value) :
    ∃ party ∈ parties, lastWrite (writes party) key = some value := by
  induction parties with
  | nil => cases last
  | cons party rest ih =>
    rw [List.flatMap_cons, lastWrite_append, Option.or_eq_some_iff] at last
    rcases last with later | ⟨-, here⟩
    · obtain ⟨other, member, left⟩ := ih later
      exact ⟨other, List.mem_cons_of_mem _ member, left⟩
    · exact ⟨party, List.mem_cons_self, here⟩

/-- Nothing was written at a key when no party wrote it. -/
theorem lastWrite_flatMap_eq_none_iff {parties : List τ} {key : κ} :
    lastWrite (parties.flatMap writes) key = none ↔ ∀ party ∈ parties, lastWrite (writes party) key = none := by
  induction parties with
  | nil => exact iff_of_true rfl fun _ member => by cases member
  | cons party rest ih =>
    rw [List.flatMap_cons, lastWrite_append, Option.or_eq_none_iff, ih, List.forall_mem_cons, and_comm]

/-- Among parties that agree, each leaves what stands last. -/
theorem Agreeing.lastWrite_eq {parties : List τ} (agreeing : Agreeing writes parties) {party : τ}
    (member : party ∈ parties) {key : κ} {value : β} (left : lastWrite (writes party) key = some value) :
    lastWrite (parties.flatMap writes) key = some value := by
  cases last : lastWrite (parties.flatMap writes) key with
  | none => rw [lastWrite_flatMap_eq_none_iff.mp last party member] at left; cases left
  | some other =>
    obtain ⟨writer, inside, written⟩ := exists_of_lastWrite_flatMap last
    rw [agreeing writer inside party member key other value written left]

/-- Parties that agree leave the same in any order. -/
theorem Agreeing.lastWrite_perm {parties order : List τ} (agreeing : Agreeing writes parties)
    (perm : order.Perm parties) (key : κ) :
    lastWrite (order.flatMap writes) key = lastWrite (parties.flatMap writes) key := by
  cases last : lastWrite (parties.flatMap writes) key with
  | none =>
    rw [lastWrite_flatMap_eq_none_iff] at last ⊢
    exact fun party member => last party (perm.mem_iff.mp member)
  | some value =>
    obtain ⟨party, member, left⟩ := exists_of_lastWrite_flatMap last
    exact (agreeing.perm perm).lastWrite_eq (perm.mem_iff.mpr member) left

/-- Any party can be the last one. -/
theorem exists_perm_last {parties : List τ} {party : τ} (member : party ∈ parties) {key : κ} {value : β}
    (left : lastWrite (writes party) key = some value) :
    ∃ order : List τ, order.Perm parties ∧ lastWrite (order.flatMap writes) key = some value := by
  obtain ⟨before, after, rfl⟩ := List.append_of_mem member
  refine ⟨(before ++ after) ++ [party], ?_, ?_⟩
  · exact (List.perm_append_singleton party _).trans List.perm_middle.symm
  · rw [List.flatMap_append, List.flatMap_singleton, lastWrite_append, left]
    rfl

end Logs

namespace SyncMap

variable {τ : Type x} {κ : Type u} {ι : Type w} {α : Type v} [DecidableEq κ] [DecidableEq ι]
  {writes : τ → List ((κ × ι) × Option α)}

theorem replayEntries_perm {parties order : List τ} (agreeing : Agreeing writes parties)
    (perm : order.Perm parties) (map : SyncMap κ (SyncMap ι α)) :
    map.replayEntries (order.flatMap writes) = map.replayEntries (parties.flatMap writes) := by
  apply ext_entry
  · intro outer
    rw [isSome_load_replayEntries, isSome_load_replayEntries]
    simp only [List.mem_flatMap, perm.mem_iff]
  · intro outer inner
    rw [entry_replayEntries map _ (outer, inner), entry_replayEntries map _ (outer, inner),
      agreeing.lastWrite_perm perm]

/-- The order of the parties does not matter exactly when they agree, whatever the map was. -/
theorem replayEntries_perm_iff (map : SyncMap κ (SyncMap ι α)) (parties : List τ) :
    (∀ order : List τ, order.Perm parties →
        map.replayEntries (order.flatMap writes) = map.replayEntries (parties.flatMap writes)) ↔
      Agreeing writes parties := by
  constructor
  · intro same first firstMember second secondMember key left right leaves leaves'
    have ends {party : τ} (member : party ∈ parties) {value : Option α}
        (left : lastWrite (writes party) key = some value) :
        (map.replayEntries (parties.flatMap writes)).entry key.1 key.2 = value := by
      obtain ⟨order, perm, last⟩ := exists_perm_last member left
      rw [← same order perm, entry_replayEntries, last, Option.getD_some]
    rw [← ends firstMember leaves, ← ends secondMember leaves']
  · intro agreeing order perm
    exact replayEntries_perm agreeing perm map

end SyncMap

end PolarCloud
