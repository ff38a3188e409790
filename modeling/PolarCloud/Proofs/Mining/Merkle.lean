import Mathlib.Data.Nat.Log
import Mathlib.Data.Set.Function
import PolarCloud.Base.Couples
import PolarCloud.Model.Mining.Merkle

/-! # What the Merkle root commits to

The root of several ids is the level of the last hash and the hash itself. Over hashes that are
different for all texts of two trees, equal roots come from trees of the same height, as the texts over
the ids are longer than those over hashes; then level after level the nodes are the same, unless one
level has its first node once more before its last one. In that case the first id recurs.
-/

namespace PolarCloud.Mining

open Couples

/-- The text that is hashed for a couple of nodes. -/
def nodeText (level : UInt64) (couple : Bytes × Bytes) : Bytes := putUint64 level ++ (couple.1 ++ couple.2)

def texts (level : UInt64) (tx : List Bytes) : List Bytes := (couples tx).map (nodeText level)

/-- All nodes of a row have the same length. -/
def Wide (width : ℕ) (tx : List Bytes) : Prop := ∀ node ∈ tx, node.length = width

section Levels

variable (rt : Runtime)

/-- The nodes of the next level. -/
def nextLevel (level : UInt64) (tx : List Bytes) : List Bytes := (texts level tx).map rt.sha3

/-- What stands above a row after some levels. -/
def top : ℕ → UInt64 → List Bytes → Bytes
  | 0, level, tx => putUint64 level ++ tx.headD []
  | height + 1, level, tx => top height (level + 1) (nextLevel rt level tx)

/-- The texts that are hashed on the way. -/
def hashed : ℕ → UInt64 → List Bytes → List Bytes
  | 0, _, _ => []
  | height + 1, level, tx => texts level tx ++ hashed height (level + 1) (nextLevel rt level tx)

/-- The texts that are hashed for a root. -/
def rootTexts (tx : List Bytes) : List Bytes :=
  if tx.length = 1 then [nodeText 1 (tx.headD [], tx.headD [])] else hashed rt (Nat.clog 2 tx.length) 0 tx

end Levels

variable {rt : Runtime} {level : UInt64} {tx : List Bytes}

@[simp] theorem length_putUint64 (n : UInt64) : (putUint64 n).length = 8 := by
  rw [putUint64, List.length_reverse, LittleEndian.length_put]

theorem length_nextLevel (rt : Runtime) (level : UInt64) (tx : List Bytes) :
    (nextLevel rt level tx).length = (tx.length + 1) / 2 := by
  rw [nextLevel, texts, List.length_map, List.length_map, length_couples]

theorem nextLevel_ne_nil (present : tx ≠ []) : nextLevel rt level tx ≠ [] := by
  have positive := List.length_pos_iff.mpr present
  rw [← List.length_pos_iff, length_nextLevel]
  omega

theorem clog_nextLevel (several : 2 ≤ tx.length) :
    Nat.clog 2 tx.length = Nat.clog 2 (nextLevel rt level tx).length + 1 := by
  rw [length_nextLevel, Nat.clog_of_two_le Nat.one_lt_two several]
  rfl

theorem several_of_clog {height : ℕ} (tall : Nat.clog 2 tx.length = height + 1) : 2 ≤ tx.length := by
  by_contra few
  rw [Nat.clog_of_right_le_one (by omega)] at tall
  cases tall

theorem clog_of_succ {height : ℕ} (rt : Runtime) (level : UInt64) (tall : Nat.clog 2 tx.length = height + 1) :
    Nat.clog 2 (nextLevel rt level tx).length = height := by
  rw [@clog_nextLevel rt level tx (several_of_clog tall), Nat.add_right_cancel_iff] at tall
  exact tall

theorem single_of_clog (present : tx ≠ []) (flat : Nat.clog 2 tx.length = 0) : ∃ node, tx = [node] := by
  apply List.length_eq_one_iff.mp
  have positive := List.length_pos_iff.mpr present
  by_contra several
  have tall : 0 < Nat.clog 2 tx.length := Nat.clog_pos Nat.one_lt_two (by omega)
  omega

/-- The loop of a level. -/
theorem nextLevel_eq (rt : Runtime) (level : UInt64) (tx : List Bytes) : nextLevel rt level tx =
    if tx.length % 2 ≠ 0 then
      ((List.range (tx.length / 2)).map fun i =>
        rt.sha3 (putUint64 level ++ (tx.getD (i * 2) [] ++ tx.getD ((i + 1) * 2 - 1) []))) ++
          [rt.sha3 (putUint64 level ++ (tx.headD [] ++ tx.getLastD []))]
    else (List.range (tx.length / 2)).map fun i =>
      rt.sha3 (putUint64 level ++ (tx.getD (i * 2) [] ++ tx.getD ((i + 1) * 2 - 1) [])) := by
  rw [nextLevel, texts, couples_eq [] tx]
  split
  · rw [List.map_append, List.map_append, List.map_map, List.map_map]
    rfl
  · rw [List.append_nil, List.map_map, List.map_map]
    rfl

/-- The recursion returns what stands above the row after its levels. -/
theorem merkleroot_eq (fuel : ℕ) (level : UInt64) (present : tx ≠ []) : merkleroot rt fuel level tx =
    if Nat.clog 2 tx.length < fuel then some [top rt (Nat.clog 2 tx.length) level tx] else none := by
  have positive := List.length_pos_iff.mpr present
  induction fuel generalizing level tx with
  | zero => rfl
  | succ fuel ih =>
    rw [merkleroot]
    dsimp only
    split
    · next single =>
      rw [single, Nat.clog_one_right, if_pos (Nat.succ_pos fuel)]
      rfl
    · next several =>
      have more : nextLevel rt level tx ≠ [] := nextLevel_ne_nil present
      rw [← nextLevel_eq, ih (level + 1) more (List.length_pos_iff.mpr more), @clog_nextLevel rt level tx (by omega)]
      simp only [Nat.succ_lt_succ_iff]
      rfl

theorem clog_lt_length (several : 2 ≤ tx.length) : Nat.clog 2 tx.length < tx.length := by
  have le := Nat.clog_le_of_le_pow (show tx.length ≤ 2 ^ (tx.length - 1) by
    have := Nat.lt_two_pow_self (n := tx.length - 1)
    omega)
  omega

/-- The root is the hash of a single id, and otherwise what stands above the ids. -/
theorem buildMerkleRoot_several (fuel : ℕ) (several : 2 ≤ tx.length) : buildMerkleRoot rt fuel tx =
    if Nat.clog 2 tx.length < fuel then some (top rt (Nat.clog 2 tx.length) 0 tx) else none := by
  have present : tx ≠ [] := by
    rintro rfl
    simp at several
  rw [buildMerkleRoot, if_neg (by omega), if_neg (by omega), merkleroot_eq fuel 0 present]
  split
  · rfl
  · rfl

/-- With enough fuel a root is returned for every list. -/
theorem buildMerkleRoot_total (rt : Runtime) (tx : List Bytes) :
    ∃ root, ∀ fuel, tx.length ≤ fuel → buildMerkleRoot rt fuel tx = some root := by
  rcases Nat.lt_or_ge tx.length 2 with few | several
  · refine ⟨if tx.length = 0 then [] else rt.sha3 (putUint64 1 ++ (tx.headD [] ++ tx.headD [])), fun fuel _ => ?_⟩
    rw [buildMerkleRoot]
    split
    · rfl
    · rw [if_pos (by omega)]
  · refine ⟨top rt (Nat.clog 2 tx.length) 0 tx, fun fuel enough => ?_⟩
    have height := clog_lt_length several
    rw [buildMerkleRoot_several fuel several, if_pos (by omega)]

/-! ## Nodes of one width -/

theorem nodeText_inj {width : ℕ} {level level' : UInt64} {couple couple' : Bytes × Bytes}
    (left : couple.1.length = width) (left' : couple'.1.length = width)
    (same : nodeText level couple = nodeText level' couple') : couple = couple' := by
  obtain ⟨-, nodes⟩ := List.append_inj same (by rw [length_putUint64, length_putUint64])
  obtain ⟨first, second⟩ := List.append_inj nodes (left.trans left'.symm)
  exact Prod.ext first second

theorem wide_nextLevel (size : ∀ text, (rt.sha3 text).length = 32) (level : UInt64) (tx : List Bytes) :
    Wide 32 (nextLevel rt level tx) := by
  intro node member
  obtain ⟨text, -, rfl⟩ := List.mem_map.mp member
  exact size text

section Trees

variable {width height : ℕ} {level' : UInt64} {tx' : List Bytes}

/-- Rows of one width whose next nodes are the same have the same couples. -/
theorem couples_eq_of_nextLevel (wide : Wide width tx) (wide' : Wide width tx')
    (apart : Set.InjOn rt.sha3 {text | text ∈ texts level tx ∨ text ∈ texts level' tx'})
    (same : nextLevel rt level tx = nextLevel rt level' tx') : couples tx = couples tx' := by
  have rows := eq_of_map_eq_map same fun text member text' member' => apart (.inl member) (.inr member')
  exact eq_of_map_eq_map rows fun couple member couple' member' =>
    nodeText_inj (wide _ (mem_of_mem_couples member).1) (wide' _ (mem_of_mem_couples member').1)

theorem recurs_of_nextLevel (wide : Wide width tx) (apart : Set.InjOn rt.sha3 {text | text ∈ texts level tx})
    (recurs : Recurs (nextLevel rt level tx)) : Recurs tx := by
  have rows := recurs.of_map fun text member text' member' => apart member member'
  exact recurs_of_couples (rows.of_map fun couple member couple' member' =>
    nodeText_inj (wide _ (mem_of_mem_couples member).1) (wide _ (mem_of_mem_couples member').1))

/-- The first text of a level. -/
theorem head?_texts (several : 2 ≤ tx.length) : ∃ left right, tx.head? = some left ∧ left ∈ tx ∧ right ∈ tx ∧
    (texts level tx).head? = some (nodeText level (left, right)) := by
  cases tx with
  | nil => simp at several
  | cons left rest =>
    cases rest with
    | nil => simp at several
    | cons right rest => exact ⟨left, right, rfl, by simp, by simp, rfl⟩

theorem head?_eq_of_nextLevel (several : 2 ≤ tx.length) (several' : 2 ≤ tx'.length)
    (wide : Wide width tx) (wide' : Wide width tx')
    (apart : Set.InjOn rt.sha3 {text | text ∈ texts level tx ∨ text ∈ texts level' tx'})
    (same : (nextLevel rt level tx).head? = (nextLevel rt level' tx').head?) : tx.head? = tx'.head? := by
  obtain ⟨left, right, isHead, member, -, first⟩ := @head?_texts level tx several
  obtain ⟨left', right', isHead', member', -, first'⟩ := @head?_texts level' tx' several'
  rw [nextLevel, nextLevel, List.head?_map, List.head?_map, first, first'] at same
  have text := apart (.inl (List.mem_of_mem_head? first)) (.inr (List.mem_of_mem_head? first')) (Option.some.inj same)
  have couple := nodeText_inj (wide left member) (wide' left' member') text
  rw [isHead, isHead', (Prod.mk.inj couple).1]

/-- Trees of the same height with the same top, over nodes of one width. -/
theorem rows_of_top (size : ∀ text, (rt.sha3 text).length = 32) (present : tx ≠ []) (present' : tx' ≠ [])
    (tall : Nat.clog 2 tx.length = height) (tall' : Nat.clog 2 tx'.length = height)
    (wide : Wide width tx) (wide' : Wide width tx')
    (apart : Set.InjOn rt.sha3 {text | text ∈ hashed rt height level tx ∨ text ∈ hashed rt height level' tx'})
    (same : (top rt height level tx).drop 8 = (top rt height level' tx').drop 8) :
    tx.head? = tx'.head? ∧
      (tx = tx' ∨ (tx.length < tx'.length ∧ Recurs tx') ∨ (tx'.length < tx.length ∧ Recurs tx)) := by
  induction height generalizing level level' tx tx' width with
  | zero =>
    obtain ⟨node, rfl⟩ := single_of_clog present tall
    obtain ⟨node', rfl⟩ := single_of_clog present' tall'
    rw [top, top, List.drop_left' (length_putUint64 _), List.drop_left' (length_putUint64 _)] at same
    cases same
    exact ⟨rfl, .inl rfl⟩
  | succ height ih =>
    have several := several_of_clog tall
    have several' := several_of_clog tall'
    have tall := clog_of_succ rt level tall
    have tall' := clog_of_succ rt level' tall'
    have later : Set.InjOn rt.sha3 {text | text ∈ hashed rt height (level + 1) (nextLevel rt level tx) ∨
        text ∈ hashed rt height (level' + 1) (nextLevel rt level' tx')} :=
      apart.mono fun text => Or.imp (List.mem_append_right _) (List.mem_append_right _)
    have here : Set.InjOn rt.sha3 {text | text ∈ texts level tx ∨ text ∈ texts level' tx'} :=
      apart.mono fun text => Or.imp (List.mem_append_left _) (List.mem_append_left _)
    obtain ⟨heads, rows⟩ := ih (nextLevel_ne_nil present) (nextLevel_ne_nil present') tall tall'
      (wide_nextLevel size level tx) (wide_nextLevel size level' tx') later same
    refine ⟨head?_eq_of_nextLevel several several' wide wide' here heads, ?_⟩
    rcases rows with equal | ⟨shorter, recurs⟩ | ⟨shorter, recurs⟩
    · exact couples_inj several several' (couples_eq_of_nextLevel wide wide' here equal)
    · rw [length_nextLevel, length_nextLevel] at shorter
      exact .inr (.inl ⟨by omega, recurs_of_nextLevel wide' (here.mono fun text => Or.inr) recurs⟩)
    · rw [length_nextLevel, length_nextLevel] at shorter
      exact .inr (.inr ⟨by omega, recurs_of_nextLevel wide (here.mono fun text => Or.inl) recurs⟩)

/-- The levels of a tree above its hashes, down to a given height. -/
theorem climb (size : ∀ text, (rt.sha3 text).length = 32) {d : ℕ} (present : tx ≠ []) (wide : Wide 32 tx)
    (tall : Nat.clog 2 tx.length = d + height) : ∃ level' row, row ≠ [] ∧ Wide 32 row ∧
      Nat.clog 2 row.length = height ∧ top rt (d + height) level tx = top rt height level' row ∧
      ∀ text ∈ hashed rt height level' row, text ∈ hashed rt (d + height) level tx := by
  induction d generalizing level tx with
  | zero =>
    rw [Nat.zero_add] at tall ⊢
    exact ⟨level, tx, present, wide, tall, rfl, fun text => id⟩
  | succ d ih =>
    rw [Nat.succ_add] at tall ⊢
    have tall := clog_of_succ rt level tall
    obtain ⟨level', row, isRow, rowWide, rowTall, above, among⟩ :=
      ih (nextLevel_ne_nil present) (wide_nextLevel size level tx) tall
    exact ⟨level', row, isRow, rowWide, rowTall, above, fun text member => List.mem_append_right _ (among text member)⟩

theorem length_nodeText {couple : Bytes × Bytes} (left : couple.1.length = width) (right : couple.2.length = width) :
    (nodeText level couple).length = 8 + (width + width) := by
  rw [nodeText, List.length_append, List.length_append, length_putUint64, left, right]

/-- A tree over ids has not the top of a higher one. -/
theorem not_higher (size : ∀ text, (rt.sha3 text).length = 32) {d : ℕ}
    (tall : Nat.clog 2 tx.length = d + 1 + (height + 1)) (tall' : Nat.clog 2 tx'.length = height + 1)
    (wide' : Wide 40 tx')
    (apart : Set.InjOn rt.sha3
      {text | text ∈ hashed rt (d + 1 + (height + 1)) level tx ∨ text ∈ hashed rt (height + 1) level' tx'}) :
    top rt (d + 1 + (height + 1)) level tx ≠ top rt (height + 1) level' tx' := by
  intro same
  have several' := several_of_clog tall'
  have present' : tx' ≠ [] := List.length_pos_iff.mp (by omega)
  rw [Nat.succ_add] at tall same apart
  have several := several_of_clog tall
  have present : tx ≠ [] := List.length_pos_iff.mp (by omega)
  have tall := clog_of_succ rt level tall
  have tall' := clog_of_succ rt level' tall'
  obtain ⟨level'', row, isRow, rowWide, rowTall, above, among⟩ :=
    @climb rt (level + 1) _ _ size _ (nextLevel_ne_nil present) (wide_nextLevel size level tx) tall
  have rowSeveral := several_of_clog rowTall
  have rowTall := clog_of_succ rt level'' rowTall
  -- both trees over their first hashes of this height
  have together : top rt height (level'' + 1) (nextLevel rt level'' row) =
      top rt height (level' + 1) (nextLevel rt level' tx') := above.symm.trans same
  have apart' : Set.InjOn rt.sha3 {text | text ∈ hashed rt (height + 1) level'' row ∨
      text ∈ hashed rt (height + 1) level' tx'} :=
    apart.mono fun text => Or.imp_left fun member => List.mem_append_right _ (among text member)
  obtain ⟨heads, -⟩ := rows_of_top size (nextLevel_ne_nil isRow) (nextLevel_ne_nil present') rowTall tall'
    (wide_nextLevel size level'' row) (wide_nextLevel size level' tx')
    (apart'.mono fun text => Or.imp (List.mem_append_right _) (List.mem_append_right _))
    (congrArg (List.drop 8) together)
  obtain ⟨left, right, -, isLeft, isRight, first⟩ := @head?_texts level'' row rowSeveral
  obtain ⟨left', right', -, isLeft', isRight', first'⟩ := @head?_texts level' tx' several'
  rw [nextLevel, nextLevel, List.head?_map, List.head?_map, first, first'] at heads
  have text := apart' (.inl (List.mem_append_left _ (List.mem_of_mem_head? first)))
    (.inr (List.mem_append_left _ (List.mem_of_mem_head? first'))) (Option.some.inj heads)
  have lengths := congrArg List.length text
  rw [length_nodeText (rowWide left isLeft) (rowWide right isRight),
    length_nodeText (wide' left' isLeft') (wide' right' isRight')] at lengths
  cases lengths

/-- Trees over ids with the same top have the same height. -/
theorem heights_eq (size : ∀ text, (rt.sha3 text).length = 32) (several : 2 ≤ tx.length) (several' : 2 ≤ tx'.length)
    (wide : Wide 40 tx) (wide' : Wide 40 tx')
    (apart : Set.InjOn rt.sha3 {text | text ∈ hashed rt (Nat.clog 2 tx.length) level tx ∨
      text ∈ hashed rt (Nat.clog 2 tx'.length) level' tx'})
    (same : top rt (Nat.clog 2 tx.length) level tx = top rt (Nat.clog 2 tx'.length) level' tx') :
    Nat.clog 2 tx.length = Nat.clog 2 tx'.length := by
  have positive := Nat.clog_pos Nat.one_lt_two several
  have positive' := Nat.clog_pos Nat.one_lt_two several'
  rcases Nat.lt_trichotomy (Nat.clog 2 tx.length) (Nat.clog 2 tx'.length) with lower | equal | higher
  · obtain ⟨d, isD⟩ := Nat.exists_eq_add_of_lt lower
    obtain ⟨height, isHeight⟩ := Nat.exists_eq_add_one_of_ne_zero positive.ne'
    have tall' : Nat.clog 2 tx'.length = d + 1 + (height + 1) := by omega
    rw [isHeight, tall'] at same apart
    exact absurd same.symm (not_higher size tall' isHeight wide (apart.mono fun text => Or.symm))
  · exact equal
  · obtain ⟨d, isD⟩ := Nat.exists_eq_add_of_lt higher
    obtain ⟨height, isHeight⟩ := Nat.exists_eq_add_one_of_ne_zero positive'.ne'
    have tall : Nat.clog 2 tx.length = d + 1 + (height + 1) := by omega
    rw [isHeight, tall] at same apart
    exact absurd same (not_higher size tall isHeight wide' apart)

theorem length_top (size : ∀ text, (rt.sha3 text).length = 32) (present : tx ≠ [])
    (tall : Nat.clog 2 tx.length = height + 1) : (top rt (height + 1) level tx).length = 40 := by
  have tall := clog_of_succ rt level tall
  obtain ⟨level', row, isRow, rowWide, rowTall, above, -⟩ :=
    @climb rt (level + 1) _ 0 size height (nextLevel_ne_nil present) (wide_nextLevel size level tx) tall
  obtain ⟨node, rfl⟩ := single_of_clog isRow rowTall
  rw [top, show top rt height (level + 1) (nextLevel rt level tx) = _ from above, top, List.length_append,
    length_putUint64, List.headD_cons, rowWide node List.mem_cons_self]

end Trees

/-! ## Roots -/

theorem rootTexts_several (several : 2 ≤ tx.length) : rootTexts rt tx = hashed rt (Nat.clog 2 tx.length) 0 tx := by
  rw [rootTexts, if_neg (by omega)]

theorem buildMerkleRoot_single (fuel : ℕ) (id : Bytes) :
    buildMerkleRoot rt fuel [id] = some (rt.sha3 (nodeText 1 (id, id))) := rfl

/-- The root of one id is shorter than that of several. -/
theorem single_ne_several (size : ∀ text, (rt.sha3 text).length = 32) {fuel : ℕ} (id : Bytes)
    (several : 2 ≤ tx.length) : buildMerkleRoot rt fuel [id] ≠ buildMerkleRoot rt fuel tx := by
  have positive := Nat.clog_pos Nat.one_lt_two several
  obtain ⟨height, tall⟩ := Nat.exists_eq_add_one_of_ne_zero positive.ne'
  rw [buildMerkleRoot_single, buildMerkleRoot_several fuel several]
  intro same
  split at same
  · have lengths := congrArg List.length (Option.some.inj same)
    rw [size, tall, length_top size (List.length_pos_iff.mp (by omega)) tall] at lengths
    cases lengths
  · cases same

/-- Ids of several transactions with the same root. -/
theorem several_of_root (size : ∀ text, (rt.sha3 text).length = 32) {fuel : ℕ} {xs ys : List Bytes}
    (several : 2 ≤ xs.length) (several' : 2 ≤ ys.length) (wide : Wide 40 xs) (wide' : Wide 40 ys)
    (apart : Set.InjOn rt.sha3 {text | text ∈ rootTexts rt xs ∨ text ∈ rootTexts rt ys})
    (enough : xs.length ≤ fuel) (enough' : ys.length ≤ fuel)
    (same : buildMerkleRoot rt fuel xs = buildMerkleRoot rt fuel ys) :
    xs = ys ∨ (xs.length < ys.length ∧ Recurs ys) ∨ (ys.length < xs.length ∧ Recurs xs) := by
  have height := clog_lt_length several
  have height' := clog_lt_length several'
  rw [rootTexts_several several, rootTexts_several several'] at apart
  rw [buildMerkleRoot_several fuel several, if_pos (by omega), buildMerkleRoot_several fuel several',
    if_pos (by omega), Option.some_inj] at same
  have tall := heights_eq size several several' wide wide' apart same
  rw [← tall] at apart same
  exact (rows_of_top size (List.length_pos_iff.mp (by omega)) (List.length_pos_iff.mp (by omega)) rfl tall.symm
    wide wide' apart (congrArg (List.drop 8) same)).2

/-- Every list has a root, and lists of ids with the same root are the same, unless one is longer than the other
and has its first id a second time. The hash is one of 32 bytes that is different for the texts of the two trees. -/
theorem root_commits (rt : Runtime) (size : ∀ text, (rt.sha3 text).length = 32) :
    (∀ tx, ∃ root, ∀ fuel, tx.length ≤ fuel → buildMerkleRoot rt fuel tx = some root) ∧
    ∀ xs ys : List Bytes, xs ≠ [] → ys ≠ [] → Wide 40 xs → Wide 40 ys →
      Set.InjOn rt.sha3 {text | text ∈ rootTexts rt xs ∨ text ∈ rootTexts rt ys} →
      ∀ fuel, xs.length ≤ fuel → ys.length ≤ fuel → buildMerkleRoot rt fuel xs = buildMerkleRoot rt fuel ys →
        xs = ys ∨ (xs.length < ys.length ∧ Recurs ys) ∨ (ys.length < xs.length ∧ Recurs xs) := by
  refine ⟨buildMerkleRoot_total rt, fun xs ys present present' wide wide' apart fuel enough enough' same => ?_⟩
  have positive := List.length_pos_iff.mpr present
  have positive' := List.length_pos_iff.mpr present'
  rcases Nat.lt_or_ge xs.length 2 with few | several
  · obtain ⟨id, rfl⟩ := List.length_eq_one_iff.mp (show xs.length = 1 by omega)
    rcases Nat.lt_or_ge ys.length 2 with few' | several'
    · obtain ⟨id', rfl⟩ := List.length_eq_one_iff.mp (show ys.length = 1 by omega)
      rw [buildMerkleRoot_single, buildMerkleRoot_single] at same
      have text := apart (.inl List.mem_cons_self) (.inr List.mem_cons_self) (Option.some.inj same)
      have couple := nodeText_inj (wide id List.mem_cons_self) (wide' id' List.mem_cons_self) text
      exact .inl (congrArg (fun couple => [couple.1]) couple)
    · exact absurd same (single_ne_several size id several')
  · rcases Nat.lt_or_ge ys.length 2 with few' | several'
    · obtain ⟨id', rfl⟩ := List.length_eq_one_iff.mp (show ys.length = 1 by omega)
      exact absurd same.symm (single_ne_several size id' several)
    · exact several_of_root size several several' wide wide' apart enough enough' same

/-- An id of 40 bytes. -/
def numbered (n : UInt8) : Bytes := List.replicate 39 0 ++ [n]

def fewIds : List Bytes := [numbered 0, numbered 1, numbered 2]

def moreIds : List Bytes := [numbered 0, numbered 1, numbered 0, numbered 2]

/-- No collision, with texts for their own hashes. -/
def unhashed : Runtime := { sha3 := id, hash160 := id, unmarshal := fun _ => none }

/-- The sum of the bytes in 32 bytes. -/
def summed : Runtime :=
  { sha3 := fun text => List.replicate 31 0 ++ [text.foldl (· + ·) 0], hash160 := id, unmarshal := fun _ => none }

/-- The last of three ids is coupled with the first one, so that the first one in front of it changes nothing. -/
theorem first_again_same_root : Function.Injective unhashed.sha3 ∧ Wide 40 fewIds ∧ Wide 40 moreIds ∧
    (buildMerkleRoot unhashed 4 fewIds).isSome ∧
    buildMerkleRoot unhashed 4 fewIds = buildMerkleRoot unhashed 4 moreIds ∧ fewIds ≠ moreIds := by
  refine ⟨Function.injective_id, ?_, ?_, rfl, rfl, ?_⟩
  · unfold Wide
    decide
  · unfold Wide
    decide
  · decide

/-- The hashes of the three texts of each list differ. -/
theorem few_or_more_ids : fewIds = moreIds ∨ (fewIds.length < moreIds.length ∧ Recurs moreIds) ∨
    (moreIds.length < fewIds.length ∧ Recurs fewIds) := by
  refine (root_commits summed fun text => by simp [summed]).2 fewIds moreIds (by decide) (by decide)
    (by unfold Wide; decide) (by unfold Wide; decide) ?_ 4 (by decide) (by decide) rfl
  have apart : ∀ text ∈ rootTexts summed fewIds ++ rootTexts summed moreIds,
      ∀ text' ∈ rootTexts summed fewIds ++ rootTexts summed moreIds,
        summed.sha3 text = summed.sha3 text' → text = text' := by
    decide +kernel
  exact fun text member text' member' =>
    apart text (List.mem_append.mpr member) text' (List.mem_append.mpr member')

end PolarCloud.Mining
