import Mathlib.Data.Finset.Card
import Mathlib.Logic.Relation

/-! # Walks without a record of what was visited

A visit of a key changes a state, logs the key and lists further keys, which are visited one after
the other before the walk goes on; it may also break the walk off. Nothing keeps a key from being
visited again. Over a finite set of keys such a walk finishes, and has visited each key at most
once, exactly when every visit lists keys only that are neither visited nor waiting, and none twice.
-/

namespace PolarCloud

universe u v

/-- A visit returns the keys it lists, or nothing when it breaks the walk off. -/
structure Walk (σ : Type u) (κ : Type v) where
  visit : σ → κ → σ × Option (List κ)
  /-- the keys visited so far -/
  log : σ → List κ
  log_visit : ∀ state key, log (visit state key).1 = log state ++ [key]

namespace Walk

variable {σ : Type u} {κ : Type v}

/-! ## The recursion and the stack -/

/-- Visit each of a list of keys with what they lead to; `false` when the walk was broken off. -/
def each (go : σ → κ → Option (σ × Bool)) : List κ → σ → Option (σ × Bool)
  | [], state => some (state, true)
  | key :: rest, state =>
      match go state key with
      | some (state, true) => each go rest state
      | stopped => stopped

variable (walk : Walk σ κ)

/-- Visit a key and what it leads to; nothing is returned when the fuel runs out. -/
def go : ℕ → σ → κ → Option (σ × Bool)
  | 0, _, _ => none
  | fuel + 1, state, key =>
      match walk.visit state key with
      | (state, none) => some (state, false)
      | (state, some keys) => each (go fuel) keys state

/-- The next of the waiting keys is visited, and what it lists waits in its place. -/
inductive Step : σ × List κ → σ × List κ → Prop
  | visit {state next : σ} {key : κ} {keys : List κ} (rest : List κ)
      (visited : walk.visit state key = (next, some keys)) : Step (state, key :: rest) (next, keys ++ rest)

/-- The next visit lists keys that are neither visited nor waiting, and none twice. -/
def Fresh (state : σ) (waiting : List κ) : Prop :=
  ∀ key rest, waiting = key :: rest → ∃ next keys, walk.visit state key = (next, some keys) ∧ keys.Nodup ∧
    ∀ other ∈ keys, other ∉ walk.log state ∧ other ∉ waiting

/-- A property of states under which all keys that are listed come from a set. -/
structure Confined (keys : Finset κ) (P : σ → Prop) : Prop where
  visit : ∀ state key next listed, P state → walk.visit state key = (next, some listed) →
    P next ∧ ∀ other ∈ listed, other ∈ keys

variable {walk}

theorem step_rightUnique : Relator.RightUnique walk.Step := by
  intro config first second one two
  cases one with
  | visit rest visited =>
    cases two with
    | visit rest visited' =>
      cases visited.symm.trans visited'
      rfl

theorem Step.log_eq {state next : σ} {key : κ} {keys : List κ} (visited : walk.visit state key = (next, some keys)) :
    walk.log next = walk.log state ++ [key] := by
  have logged := walk.log_visit state key
  rwa [visited] at logged

/-- A recursion that returns has gone through the keys it was given. -/
theorem reaches_of_each {fuel : ℕ} {keys : List κ} {state next : σ}
    (ran : each (walk.go fuel) keys state = some (next, true))
    (rest : List κ) : Relation.ReflTransGen walk.Step (state, keys ++ rest) (next, rest) := by
  induction fuel generalizing keys state next rest with
  | zero =>
    cases keys with
    | nil =>
      cases ran
      exact .refl
    | cons key keys => cases ran
  | succ fuel ih =>
    induction keys generalizing state with
    | nil =>
      cases ran
      exact .refl
    | cons key keys inner =>
      rw [each] at ran
      split at ran
      · next middle first =>
        rw [go] at first
        split at first
        · cases first
        · next after listed visited => exact .head (.visit _ visited) ((ih first _).trans (inner ran))
      · next other => exact absurd ran (other next)

/-! ## Keys that are visited once -/

theorem Step.nodup {state next : σ} {waiting waiting' : List κ} (step : walk.Step (state, waiting) (next, waiting'))
    (nodup : (walk.log next ++ waiting').Nodup) : (walk.log state ++ waiting).Nodup := by
  cases step with
  | @visit _ _ key keys rest visited =>
    rw [Step.log_eq visited] at nodup
    have shorter : (walk.log state ++ [key] ++ rest).Sublist (walk.log state ++ [key] ++ (keys ++ rest)) :=
      (List.sublist_append_right keys rest).append_left _
    simpa using nodup.sublist shorter

/-- In a walk that visits no key twice, no key that waits was visited or waits twice. -/
theorem nodup_of_reaches {state next : σ} {waiting : List κ}
    (run : Relation.ReflTransGen walk.Step (state, waiting) (next, [])) (nodup : (walk.log next).Nodup) :
    (walk.log state ++ waiting).Nodup := by
  suffices general : ∀ config : σ × List κ, Relation.ReflTransGen walk.Step config (next, []) →
      (walk.log config.1 ++ config.2).Nodup from general _ run
  intro config run
  induction run using Relation.ReflTransGen.head_induction_on with
  | refl => simpa using nodup
  | head step _ ih => exact step.nodup ih

/-- A step of a walk that visits no key twice lists fresh keys. -/
theorem fresh_of_reaches {state next : σ} {waiting : List κ}
    (run : Relation.ReflTransGen walk.Step (state, waiting) (next, [])) (nodup : (walk.log next).Nodup) :
    walk.Fresh state waiting := by
  rintro key rest rfl
  rcases Relation.ReflTransGen.cases_head run with ended | ⟨⟨after, waiting⟩, step, later⟩
  · cases ended
  · cases step with
    | @visit _ _ _ keys _ visited =>
      have whole := nodup_of_reaches later nodup
      rw [Step.log_eq visited] at whole
      obtain ⟨-, later, apart⟩ := List.nodup_append.mp whole
      obtain ⟨once, -, apartRest⟩ := List.nodup_append.mp later
      refine ⟨after, keys, visited, once, fun other member => ⟨fun seen => ?_, fun waits => ?_⟩⟩
      · exact apart other (List.mem_append_left _ seen) other (List.mem_append_left _ member) rfl
      · rcases List.mem_cons.mp waits with rfl | waits
        · exact apart other (by simp) other (List.mem_append_left _ member) rfl
        · exact apartRest other member other waits rfl

/-- Fresh keys keep the visited and the waiting ones apart. -/
theorem Fresh.nodup {state next : σ} {key : κ} {rest keys : List κ} (fresh : walk.Fresh state (key :: rest))
    (visited : walk.visit state key = (next, some keys)) (nodup : (walk.log state ++ key :: rest).Nodup) :
    (walk.log next ++ (keys ++ rest)).Nodup := by
  obtain ⟨next', keys', visited', once, new⟩ := fresh key rest rfl
  cases visited.symm.trans visited'
  have moved := List.perm_append_comm_assoc (walk.log state ++ [key]) keys rest
  rw [Step.log_eq visited, moved.nodup_iff, List.append_assoc, List.singleton_append, List.nodup_append]
  refine ⟨once, nodup, fun other member another before => ?_⟩
  rintro rfl
  rcases List.mem_append.mp before with seen | waits
  · exact (new other member).1 seen
  · exact (new other member).2 waits

theorem log_grows {config next : σ × List κ} (run : Relation.ReflTransGen walk.Step config next) :
    walk.log config.1 <+: walk.log next.1 := by
  induction run with
  | refl => exact List.prefix_refl _
  | tail _ step ih =>
    cases step with
    | visit rest visited =>
      rw [Step.log_eq visited]
      exact ih.trans (List.prefix_append _ _)

theorem nodup_along {config next : σ × List κ} (nodup : (walk.log config.1 ++ config.2).Nodup)
    (fresh : ∀ later, Relation.ReflTransGen walk.Step config later → walk.Fresh later.1 later.2)
    (run : Relation.ReflTransGen walk.Step config next) : (walk.log next.1 ++ next.2).Nodup := by
  induction run with
  | refl => exact nodup
  | tail before step ih =>
    have here := fresh _ before
    cases step with
    | visit rest visited => exact here.nodup visited ih

section Bounded

variable [DecidableEq κ] {keys : Finset κ} {P : σ → Prop}

/-- How many keys are not visited yet. -/
def left (walk : Walk σ κ) (keys : Finset κ) (state : σ) : ℕ := (keys \ (walk.log state).toFinset).card

theorem left_visit {state next : σ} {key : κ} {listed : List κ} (visited : walk.visit state key = (next, some listed))
    (inside : key ∈ keys) (new : key ∉ walk.log state) : left walk keys next < left walk keys state := by
  apply Finset.card_lt_card
  rw [Step.log_eq visited]
  refine Finset.ssubset_iff_subset_ne.mpr ⟨?_, fun same => ?_⟩
  · intro other member
    simp only [Finset.mem_sdiff, List.mem_toFinset, List.mem_append, not_or] at member ⊢
    exact ⟨member.1, member.2.1⟩
  · have waits : key ∈ keys \ (walk.log state).toFinset :=
      Finset.mem_sdiff.mpr ⟨inside, fun seen => new (List.mem_toFinset.mp seen)⟩
    rw [← same] at waits
    simp at waits

theorem left_mono {config next : σ × List κ} (run : Relation.ReflTransGen walk.Step config next) :
    left walk keys next.1 ≤ left walk keys config.1 := by
  apply Finset.card_le_card
  intro key member
  simp only [Finset.mem_sdiff, List.mem_toFinset] at member ⊢
  exact ⟨member.1, fun seen => member.2 ((log_grows run).subset seen)⟩

/-- While every visit lists fresh keys from a finite set, the recursion returns: each visit takes one
key from those not visited yet. -/
theorem each_of_fresh (confined : walk.Confined keys P) {fuel : ℕ} {waiting rest : List κ} {state : σ} (holds : P state)
    (inside : ∀ key ∈ waiting, key ∈ keys) (nodup : (walk.log state ++ (waiting ++ rest)).Nodup)
    (enough : left walk keys state ≤ fuel)
    (fresh : ∀ later, Relation.ReflTransGen walk.Step (state, waiting ++ rest) later → walk.Fresh later.1 later.2) :
    ∃ next, each (walk.go fuel) waiting state = some (next, true) ∧ P next ∧
      Relation.ReflTransGen walk.Step (state, waiting ++ rest) (next, rest) := by
  induction fuel generalizing waiting rest state with
  | zero =>
    cases waiting with
    | nil => exact ⟨state, rfl, holds, .refl⟩
    | cons key waiting =>
      obtain ⟨next, listed, visited, -⟩ := fresh _ .refl key (waiting ++ rest) rfl
      have new : key ∉ walk.log state := fun seen => (List.nodup_append.mp nodup).2.2 key seen key (by simp) rfl
      have fewer : left walk keys next < left walk keys state := left_visit visited (inside key List.mem_cons_self) new
      omega
  | succ fuel ih =>
    induction waiting generalizing state with
    | nil => exact ⟨state, rfl, holds, .refl⟩
    | cons key waiting inner =>
      obtain ⟨here, later⟩ := List.forall_mem_cons.mp inside
      obtain ⟨next, listed, visited, -⟩ := fresh _ .refl key (waiting ++ rest) rfl
      obtain ⟨holds', listedInside⟩ := confined.visit state key next listed holds visited
      have step : walk.Step (state, key :: waiting ++ rest) (next, listed ++ (waiting ++ rest)) := .visit _ visited
      have new : key ∉ walk.log state := fun seen => (List.nodup_append.mp nodup).2.2 key seen key (by simp) rfl
      have fewer : left walk keys next < left walk keys state := left_visit visited here new
      obtain ⟨after, first, holdsAfter, run⟩ := ih holds' listedInside
        (nodup_along nodup fresh (.single step)) (by omega) fun later reached => fresh later (.head step reached)
      have whole : Relation.ReflTransGen walk.Step (state, key :: waiting ++ rest) (after, waiting ++ rest) :=
        .head step run
      have noMore : left walk keys after ≤ left walk keys state := left_mono whole
      obtain ⟨final, second, holdsFinal, run'⟩ := inner holdsAfter later (nodup_along nodup fresh whole) (by omega)
        fun later reached => fresh later (whole.trans reached)
      refine ⟨final, ?_, holdsFinal, whole.trans run'⟩
      rw [each, go, visited]
      dsimp only
      rw [first]
      exact second

/-- A walk over a finite set of keys finishes, and has visited no key twice, exactly when it starts with
keys that are new and every visit lists fresh ones. -/
theorem each_finishes_once_iff (confined : walk.Confined keys P) {waiting : List κ} {state : σ} (holds : P state)
    (inside : ∀ key ∈ waiting, key ∈ keys) :
    (∃ fuel next, each (walk.go fuel) waiting state = some (next, true) ∧ (walk.log next).Nodup) ↔
      (walk.log state ++ waiting).Nodup ∧
        ∀ later, Relation.ReflTransGen walk.Step (state, waiting) later → walk.Fresh later.1 later.2 := by
  constructor
  · rintro ⟨fuel, next, ran, nodup⟩
    have run : Relation.ReflTransGen walk.Step (state, waiting) (next, []) := by
      simpa using reaches_of_each ran []
    refine ⟨nodup_of_reaches run nodup, fun later reached => fresh_of_reaches ?_ nodup⟩
    rcases Relation.ReflTransGen.total_of_right_unique step_rightUnique reached run with onwards | back
    · exact onwards
    · rcases Relation.ReflTransGen.cases_head back with same | ⟨config, step, -⟩
      · exact same ▸ .refl
      · cases step
  · rintro ⟨nodup, fresh⟩
    have none : waiting ++ [] = waiting := List.append_nil waiting
    obtain ⟨next, ran, -, run⟩ := @each_of_fresh _ _ walk _ keys P confined _ waiting [] state holds inside
      (none.symm ▸ nodup) le_rfl (none.symm ▸ fresh)
    rw [none] at run
    have whole := nodup_along nodup fresh run
    rw [List.append_nil] at whole
    exact ⟨_, next, ran, whole⟩

end Bounded

end Walk

end PolarCloud
