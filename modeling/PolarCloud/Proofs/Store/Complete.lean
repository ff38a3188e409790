import Mathlib.Data.List.Perm.Subperm
import PolarCloud.Proofs.Store.FileChunk

/-! # A file that is checked is complete

A file keeps of each number that is allowed the first chunk that was added. So it has as many chunks as it should have
exactly when every number was added, and sorted they stand in their places.
-/

namespace PolarCloud.Store

variable {given : List FileChunk} {fi : FileInfo} {one chunk : FileChunk} {no : ℕ}

/-- The first chunk of a number. -/
def firstOf (given : List FileChunk) (no : ℕ) : Option FileChunk := given.find? fun one => one.no = no

theorem no_of_firstOf (found : firstOf given no = some one) : one.no = no := by
  have holds := List.find?_some found
  exact of_decide_eq_true holds

theorem mem_of_firstOf (found : firstOf given no = some one) : one ∈ given := List.mem_of_find?_eq_some found

theorem firstOf_concat : firstOf (given ++ [chunk]) no =
    (firstOf given no).or (if chunk.no = no then some chunk else none) := by
  rw [firstOf, List.find?_append, List.find?_singleton, firstOf]
  simp only [decide_eq_true_eq]

theorem exists_firstOf (mem : one ∈ given) : ∃ first, firstOf given one.no = some first := by
  apply Option.isSome_iff_exists.mp
  rw [firstOf, List.find?_isSome]
  exact ⟨one, mem, decide_eq_true rfl⟩

/-- Whether a number is there, in chunks that are the first of theirs. -/
theorem any_no_iff {chunks : List FileChunk} {count no : ℕ}
    (firsts : ∀ one, one ∈ chunks ↔ one.no < count ∧ firstOf given one.no = some one) :
    (chunks.any fun one => one.no = no) = true ↔ no < count ∧ ∃ first, firstOf given no = some first := by
  simp only [List.any_eq_true, decide_eq_true_eq, firsts]
  constructor
  · rintro ⟨other, ⟨below, first⟩, rfl⟩
    exact ⟨below, other, first⟩
  · rintro ⟨below, first, found⟩
    have same := no_of_firstOf found
    subst same
    exact ⟨first, ⟨below, found⟩, rfl⟩

/-- What a file keeps: of every number below its count the first chunk that was added. -/
theorem mem_fileChunk_iff : one ∈ (given.foldl File.addFileChunk (newFile fi)).fileChunk ↔
    one.no < fi.chunkCount ∧ firstOf given one.no = some one := by
  induction given using List.reverseRecOn generalizing one with
  | nil => exact iff_of_false List.not_mem_nil fun found => by cases found.2
  | append_singleton given chunk ih =>
    have counted := (collected_foldl given fi).2.2.2
    have known := @any_no_iff given (given.foldl File.addFileChunk (newFile fi)).fileChunk fi.chunkCount chunk.no
      fun one => ih
    rw [List.foldl_append, List.foldl_cons, List.foldl_nil, File.addFileChunk, counted, firstOf_concat]
    rcases Nat.lt_or_ge chunk.no fi.chunkCount with small | large
    · rw [if_neg (Nat.not_le.mpr small)]
      cases found : firstOf given chunk.no with
      | some first =>
        rw [if_pos (known.mpr ⟨small, first, found⟩), ih]
        by_cases same : chunk.no = one.no
        · rw [← same, found, Option.some_or]
        · rw [if_neg same, Option.or_none]
      | none =>
        have fresh : ¬ ((given.foldl File.addFileChunk (newFile fi)).fileChunk.any fun one => one.no = chunk.no) =
            true := by
          rw [known, found]
          rintro ⟨-, _, is⟩
          cases is
        rw [if_neg fresh, List.mem_append, ih, List.mem_singleton]
        by_cases same : chunk.no = one.no
        · rw [if_pos same, ← same, found, Option.none_or]
          constructor
          · rintro (⟨-, is⟩ | rfl)
            · cases is
            · exact ⟨small, rfl⟩
          · rintro ⟨-, is⟩
            exact .inr (Option.some.inj is).symm
        · rw [if_neg same, Option.or_none, or_iff_left]
          rintro rfl
          exact same rfl
    · rw [if_pos large, ih]
      refine and_congr_right fun below => ?_
      rw [if_neg (by omega), Option.or_none]

/-- The numbers of what a file keeps are among those that are allowed. -/
theorem numbers_subperm (given : List FileChunk) (fi : FileInfo) :
    ((given.foldl File.addFileChunk (newFile fi)).fileChunk.map FileChunk.no).Subperm (List.range fi.chunkCount) := by
  refine (collected_foldl given fi).1.distinct.subperm fun no mem => ?_
  obtain ⟨one, kept, rfl⟩ := List.mem_map.mp mem
  exact List.mem_range.mpr (mem_fileChunk_iff.mp kept).1

theorem check_fst_iff (given : List FileChunk) (fi : FileInfo) :
    (given.foldl File.addFileChunk (newFile fi)).check.1 = true ↔
      ((given.foldl File.addFileChunk (newFile fi)).fileChunk.map FileChunk.no).Perm (List.range fi.chunkCount) := by
  have counted := (collected_foldl given fi).2.2.2
  rw [File.check, decide_eq_true_iff, File.sort, List.length_insertionSort, counted]
  constructor
  · intro length
    refine (numbers_subperm given fi).perm_of_length_le ?_
    rw [List.length_map, List.length_range, length]
  · intro perm
    have length := perm.length_eq
    rwa [List.length_map, List.length_range] at length

/-- A file is checked with success exactly when every number below its count was added, and then it has the first chunk
of each of them, in order. -/
theorem check_iff_complete (given : List FileChunk) (fi : FileInfo) :
    ((given.foldl File.addFileChunk (newFile fi)).check.1 = true ↔
      ∀ no < fi.chunkCount, ∃ chunk ∈ given, chunk.no = no) ∧
    ((given.foldl File.addFileChunk (newFile fi)).check.1 = true →
      (given.foldl File.addFileChunk (newFile fi)).check.2.fileChunk.map some =
        (List.range fi.chunkCount).map fun no => given.find? fun chunk => chunk.no = no) := by
  constructor
  · rw [check_fst_iff]
    constructor
    · intro perm no below
      obtain ⟨one, kept, rfl⟩ := List.mem_map.mp (perm.mem_iff.mpr (List.mem_range.mpr below))
      exact ⟨one, mem_of_firstOf (mem_fileChunk_iff.mp kept).2, rfl⟩
    · intro all
      have every : List.range fi.chunkCount ⊆
          (given.foldl File.addFileChunk (newFile fi)).fileChunk.map FileChunk.no := by
        intro no below
        obtain ⟨chunk, mem, rfl⟩ := all no (List.mem_range.mp below)
        obtain ⟨first, found⟩ := exists_firstOf mem
        have same := no_of_firstOf found
        refine List.mem_map.mpr ⟨first, mem_fileChunk_iff.mpr ?_, same⟩
        rw [same]
        exact ⟨List.mem_range.mp below, found⟩
      exact (numbers_subperm given fi).antisymm (List.nodup_range.subperm every)
  · intro complete
    have perm := (check_fst_iff given fi).mp complete
    have sorted : (given.foldl File.addFileChunk (newFile fi)).check.2.fileChunk.map FileChunk.no =
        List.range fi.chunkCount := by
      have numbers := List.map_insertionSort (fun left right : FileChunk => left.no ≤ right.no) (· ≤ ·) FileChunk.no
        (given.foldl File.addFileChunk (newFile fi)).fileChunk fun _ _ _ _ => Iff.rfl
      refine numbers.trans (((List.perm_insertionSort _ _).trans perm).eq_of_pairwise (fun _ _ _ _ => le_antisymm)
        (List.pairwise_insertionSort _ _) ?_)
      exact List.pairwise_lt_range.imp fun before => before.le
    rw [← sorted, List.map_map]
    apply List.map_congr_left
    intro one mem
    have kept : one ∈ (given.foldl File.addFileChunk (newFile fi)).fileChunk := (List.mem_insertionSort _).mp mem
    exact (mem_fileChunk_iff.mp kept).2.symm

end PolarCloud.Store
