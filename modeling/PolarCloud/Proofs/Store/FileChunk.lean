import PolarCloud.Model.Store.FileChunk

/-! # Cutting a file and putting it together

The chunks of a file are its slices, whatever is left of it. Every file is written from its beginning on and none is
cut off, so what is written is what is there afterwards exactly when nothing longer lay under the name.
-/

namespace PolarCloud.Store

open Slices

variable {sha1 : Bytes → Bytes} {disk : Disk} {content : Bytes} {fi : FileInfo} {name : FileName} {now : ℤ}

theorem chunkSize_pos : 0 < chunkSize := by decide

/-- What lay under a name. -/
def Disk.old (disk : Disk) (hash : Bytes) : Bytes := (disk.dir.load (.b58 hash)).getD []

def chunkAt (sha1 : Bytes → Bytes) (content : Bytes) (i : ℕ) : FileChunk :=
  { no := i, hash := sha1 (slice chunkSize content i) }

/-- The hash of a whole file. -/
def fileHash (sha1 : Bytes → Bytes) (content : Bytes) : Bytes := (Utils.encode (sha1 content) Config.hashCode).getD []

theorem encode_eq : Utils.encode (sha1 content) Config.hashCode = some (fileHash sha1 content) := by
  rw [fileHash, Utils.encode, if_pos (by decide), Option.getD_some]

/-- Different chunks have different hashes. -/
def CollisionFree (sha1 : Bytes → Bytes) (content : Bytes) : Prop :=
  ∀ i < count chunkSize content, ∀ j < count chunkSize content,
    sha1 (slice chunkSize content i) = sha1 (slice chunkSize content j) →
      slice chunkSize content i = slice chunkSize content j

/-! ## Cutting -/

/-- After some chunks have been cut. -/
structure Diced (sha1 : Bytes → Bytes) (content : Bytes) (disk : Disk) (fi : FileInfo) (cut : ℕ)
    (state : Disk × FileInfo) : Prop where
  info : state.2 = { fi with fileChunk := (List.range cut).map (chunkAt sha1 content) }
  temp : state.1.temp = disk.temp
  written : ∀ i < cut, state.1.dir.load (.b58 (sha1 (slice chunkSize content i))) =
    some (writeAt (disk.old (sha1 (slice chunkSize content i))) 0 (slice chunkSize content i))
  others : ∀ name, (∀ i < cut, name ≠ .b58 (sha1 (slice chunkSize content i))) →
    state.1.dir.load name = disk.dir.load name

theorem Diced.next {cut : ℕ} {state : Disk × FileInfo} (diced : Diced sha1 content disk fi cut state)
    (free : CollisionFree sha1 content) (counted : fi.chunkCount = count chunkSize content)
    (more : cut < count chunkSize content) :
    Diced sha1 content disk fi (cut + 1) (diceOne sha1 content state cut) := by
  obtain ⟨info, temp, written, others⟩ := diced
  have before : (state.1.dir.load (.b58 (sha1 (slice chunkSize content cut)))).getD [] =
        disk.old (sha1 (slice chunkSize content cut)) ∨
      (state.1.dir.load (.b58 (sha1 (slice chunkSize content cut)))).getD [] =
        writeAt (disk.old (sha1 (slice chunkSize content cut))) 0 (slice chunkSize content cut) := by
    by_cases earlier : ∃ i < cut, sha1 (slice chunkSize content i) = sha1 (slice chunkSize content cut)
    · obtain ⟨i, below, same⟩ := earlier
      have equal := free i (below.trans more) cut more same
      right
      rw [← same, written i below, Option.getD_some, equal]
    · left
      rw [others _ fun i below same => earlier ⟨i, below, (FileName.b58.inj same).symm⟩, Disk.old]
  have stored :
      writeAt ((state.1.dir.load (.b58 (sha1 (slice chunkSize content cut)))).getD []) 0 (slice chunkSize content cut) =
      writeAt (disk.old (sha1 (slice chunkSize content cut))) 0 (slice chunkSize content cut) := by
    rcases before with is | is
    · rw [is]
    · rw [is, writeAt_zero_again]
  have load (name : FileName) : (diceOne sha1 content state cut).1.dir.load name =
      if name = .b58 (sha1 (slice chunkSize content cut)) then
        some (writeAt (disk.old (sha1 (slice chunkSize content cut))) 0 (slice chunkSize content cut))
      else state.1.dir.load name := by
    rw [← stored]
    rfl
  refine ⟨?_, temp, fun i below => ?_, fun name apart => ?_⟩
  · have fresh : (state.2.fileChunk.any fun one => one.no = cut) = false := by
      rw [info, List.any_eq_false]
      intro one member is
      obtain ⟨i, below, rfl⟩ := List.mem_map.mp member
      exact absurd (of_decide_eq_true is) (List.mem_range.mp below).ne
    show state.2.addChunk (chunkAt sha1 content cut) = _
    rw [FileInfo.addChunk, if_neg (by rw [info]; exact (counted ▸ more).not_ge),
      if_neg (by rw [show (chunkAt sha1 content cut).no = cut from rfl, fresh]; exact Bool.false_ne_true),
      info, List.range_succ, List.map_append, List.map_singleton]
  · rw [load]
    split_ifs with same
    · have equal : slice chunkSize content i = slice chunkSize content cut := by
        exact free i (by omega) cut more (FileName.b58.inj same)
      rw [equal]
    · have apart : i ≠ cut := by
        rintro rfl
        exact same rfl
      exact written i (by omega)
  · rw [load, if_neg (apart cut (Nat.lt_succ_self _))]
    exact others name fun i below => apart i (below.trans (Nat.lt_succ_self _))

theorem diced_foldl (free : CollisionFree sha1 content) (counted : fi.chunkCount = count chunkSize content)
    (none : fi.fileChunk = []) {cut : ℕ} (enough : cut ≤ count chunkSize content) :
    Diced sha1 content disk fi cut ((List.range cut).foldl (diceOne sha1 content) (disk, fi)) := by
  induction cut with
  | zero => exact ⟨by rw [List.range_zero, List.map_nil, ← none]; rfl, rfl, nofun, fun _ _ => rfl⟩
  | succ cut ih =>
    rw [List.range_succ, List.foldl_append]
    exact (ih (by omega)).next free counted (by omega)

/-- Cutting a file cuts all of its slices. -/
theorem diced_spec (found : disk.temp.load name = some content) (free : CollisionFree sha1 content) :
    ∃ fi after, diced sha1 now disk name = (.ok fi, after) ∧
      fi = { hash := fileHash sha1 content, name, size := content.length, time := now,
             fileChunk := (List.range (count chunkSize content)).map (chunkAt sha1 content),
             chunkCount := count chunkSize content } ∧
      after.temp = disk.temp ∧
      ∀ i < count chunkSize content, after.dir.load (.b58 (sha1 (slice chunkSize content i))) =
        some (writeAt (disk.old (sha1 (slice chunkSize content i))) 0 (slice chunkSize content i)) := by
  let start : FileInfo := { hash := fileHash sha1 content, name, size := content.length, time := now, fileChunk := [],
                            chunkCount := count chunkSize content }
  have all : Diced sha1 content disk start (count chunkSize content)
      ((List.range (count chunkSize content)).foldl (diceOne sha1 content) (disk, start)) :=
        diced_foldl free rfl rfl le_rfl
  have cuts : diced sha1 now disk name =
      (.ok ((List.range (count chunkSize content)).foldl (diceOne sha1 content) (disk, start)).2,
        ((List.range (count chunkSize content)).foldl (diceOne sha1 content) (disk, start)).1) := by
    rw [diced, found]
    dsimp only
    rw [encode_eq]
    dsimp only
    have last : (if 0 < content.length % chunkSize then
        diceOne sha1 content ((List.range (content.length / chunkSize)).foldl (diceOne sha1 content) (disk, start))
          (content.length / chunkSize)
        else (List.range (content.length / chunkSize)).foldl (diceOne sha1 content) (disk, start)) =
        (List.range (count chunkSize content)).foldl (diceOne sha1 content) (disk, start) := by
      rw [count]
      split
      · rw [List.range_succ, List.foldl_append]
        rfl
      · rfl
    rw [← last]
    rfl
  exact ⟨_, _, cuts, all.info, all.temp, all.written⟩

/-! ## Collecting -/

/-- Only chunks that were given are there, each number once, and every number that was given and is allowed. -/
structure Collected (given : List FileChunk) (file : File) : Prop where
  distinct : (file.fileChunk.map FileChunk.no).Nodup
  own : ∀ one ∈ file.fileChunk, one ∈ given
  all : ∀ one ∈ given, one.no < file.chunkCount → one.no ∈ file.fileChunk.map FileChunk.no

theorem Collected.add {given : List FileChunk} {file : File} (collected : Collected given file) (chunk : FileChunk) :
    Collected (given ++ [chunk]) (file.addFileChunk chunk) := by
  obtain ⟨distinct, own, all⟩ := collected
  have known : (file.fileChunk.any fun one => one.no = chunk.no) = true ↔
    chunk.no ∈ file.fileChunk.map FileChunk.no := by
    simp only [List.any_eq_true, decide_eq_true_eq, List.mem_map]
  rw [File.addFileChunk]
  split_ifs with large there
  · refine ⟨distinct, fun one member => List.mem_append_left _ (own one member), fun one member below => ?_⟩
    rcases List.mem_append.mp member with member | is
    · exact all one member below
    · rw [List.mem_singleton.mp is] at below
      omega
  · refine ⟨distinct, fun one member => List.mem_append_left _ (own one member), fun one member below => ?_⟩
    rcases List.mem_append.mp member with member | is
    · exact all one member below
    · rw [List.mem_singleton.mp is]
      exact known.mp there
  · have fresh := mt known.mpr there
    refine ⟨?_, fun one member => ?_, fun one member below => ?_⟩
    · rw [List.map_append, List.map_singleton]
      exact List.nodup_append.mpr ⟨distinct, List.nodup_singleton _, fun no member other is same =>
        fresh ((List.mem_singleton.mp is) ▸ same ▸ member)⟩
    · exact (List.mem_append.mp member).elim (fun member => List.mem_append_left _ (own one member))
        (List.mem_append_right _)
    · rw [List.map_append, List.map_singleton, List.mem_append]
      rcases List.mem_append.mp member with member | is
      · exact .inl (all one member below)
      · exact .inr (List.mem_singleton.mpr (congrArg _ (List.mem_singleton.mp is)))

/-- What does not change while chunks are added. -/
theorem addFileChunk_frame (file : File) (chunk : FileChunk) : (file.addFileChunk chunk).name = file.name ∧
    (file.addFileChunk chunk).hash = file.hash ∧ (file.addFileChunk chunk).chunkCount = file.chunkCount := by
  rw [File.addFileChunk]
  split_ifs <;> exact ⟨rfl, rfl, rfl⟩

theorem collected_foldl (given : List FileChunk) (fi : FileInfo) :
    Collected given (given.foldl File.addFileChunk (newFile fi)) ∧
      (given.foldl File.addFileChunk (newFile fi)).name = fi.name ∧
      (given.foldl File.addFileChunk (newFile fi)).hash = fi.hash ∧
      (given.foldl File.addFileChunk (newFile fi)).chunkCount = fi.chunkCount := by
  induction given using List.reverseRecOn with
  | nil => exact ⟨⟨.nil, nofun, nofun⟩, rfl, rfl, rfl⟩
  | append_singleton given chunk ih =>
    obtain ⟨collected, name, hash, counted⟩ := ih
    rw [List.foldl_append, List.foldl_cons, List.foldl_nil]
    obtain ⟨name', hash', counted'⟩ := addFileChunk_frame (given.foldl File.addFileChunk (newFile fi)) chunk
    exact ⟨collected.add chunk, name'.trans name, hash'.trans hash, counted'.trans counted⟩

/-- Given the chunks of a file in any order, and again and again, a `File` has them all in their order. -/
theorem sort_given {given : List FileChunk} (counted : fi.chunkCount = count chunkSize content)
    (chunks : fi.fileChunk = (List.range (count chunkSize content)).map (chunkAt sha1 content))
    (same : ∀ chunk, chunk ∈ given ↔ chunk ∈ fi.fileChunk) :
    (given.foldl File.addFileChunk (newFile fi)).sort.fileChunk =
      (List.range (count chunkSize content)).map (chunkAt sha1 content) := by
  obtain ⟨⟨distinct, own, all⟩, -, -, total⟩ := collected_foldl given fi
  have numbered (one : FileChunk) (member : one ∈ given) : one.no < count chunkSize content ∧
    chunkAt sha1 content one.no = one := by
    rw [same, chunks, List.mem_map] at member
    obtain ⟨i, below, rfl⟩ := member
    exact ⟨List.mem_range.mp below, rfl⟩
  refine insertionSort_numbered (fun _ => rfl) (List.Nodup.of_map _ distinct) fun one => ⟨fun member => ?_, ?_⟩
  · obtain ⟨below, is⟩ := numbered one (own one member)
    exact ⟨one.no, below, is⟩
  · rintro ⟨i, below, rfl⟩
    have member : chunkAt sha1 content i ∈ given := by
      rw [same, chunks]
      exact List.mem_map_of_mem (List.mem_range.mpr below)
    obtain ⟨one, there, no⟩ := List.mem_map.mp (all _ member (by rw [total, counted]; exact below))
    obtain ⟨-, is⟩ := numbered one (own one there)
    rw [no] at is
    exact is ▸ there

/-! ## Putting together -/

/-- What is written goes on where the last chunk ended. -/
theorem assembleFrom_eq {piece : FileChunk → Bytes} (file before : Bytes) {chunks : List FileChunk}
    (stored : ∀ one ∈ chunks, disk.dir.load (.b58 one.hash) = some (piece one)) :
    File.assembleFrom disk (before ++ file.drop before.length) before.length chunks =
      (true, (before ++ (chunks.map piece).flatten) ++ file.drop (before ++ (chunks.map piece).flatten).length) := by
  induction chunks generalizing before with
  | nil => rw [File.assembleFrom, List.map_nil, List.flatten_nil, List.append_nil]
  | cons one rest ih =>
    obtain ⟨first, others⟩ := List.forall_mem_cons.mp stored
    have length : before.length + (piece one).length = (before ++ piece one).length := List.length_append.symm
    rw [File.assembleFrom, first]
    dsimp only
    rw [writeAt_next, length, ih (before ++ piece one) others, List.map_cons, List.flatten_cons, ← List.append_assoc]

/-- Nothing longer lies under the names that are written. -/
structure NothingLonger (sha1 : Bytes → Bytes) (disk : Disk) (content : Bytes) : Prop where
  dir : ∀ i < count chunkSize content, ∀ old, disk.dir.load (.b58 (sha1 (slice chunkSize content i))) = some old →
    old.length ≤ (slice chunkSize content i).length
  temp : ∀ old, disk.temp.load (.b58 (fileHash sha1 content)) = some old → old.length ≤ content.length

/-- A file is cut into as many chunks as it has room for, with the numbers from 0 on, and any `File` that is given
them all, in any order and as often as one likes, is complete and is put together to what was cut. -/
def RoundTrip (sha1 : Bytes → Bytes) (now : ℤ) (disk : Disk) (name : FileName) (content : Bytes) : Prop :=
  ∃ fi after, diced sha1 now disk name = (.ok fi, after) ∧ fi.chunkCount = content.length ⌈/⌉ chunkSize ∧
    fi.fileChunk.map FileChunk.no = List.range fi.chunkCount ∧
    ∀ given : List FileChunk, (∀ chunk, chunk ∈ given ↔ chunk ∈ fi.fileChunk) →
      (given.foldl File.addFileChunk (newFile fi)).check.1 = true ∧
      ((given.foldl File.addFileChunk (newFile fi)).check.2.assemble after).1 = true ∧
      ((given.foldl File.addFileChunk (newFile fi)).check.2.assemble after).2.temp.load fi.name = some content

theorem getD_le_iff {old : Option Bytes} {size : ℕ} :
    (old.getD []).length ≤ size ↔ ∀ bs, old = some bs → bs.length ≤ size := by
  cases old with
  | none => simp
  | some bs => simp

/-- What is put together, over what lay under the hash. -/
def assembled (sha1 : Bytes → Bytes) (disk : Disk) (content : Bytes) : Bytes :=
  writeAt ((disk.temp.load (.b58 (fileHash sha1 content))).getD []) 0
    ((List.range (count chunkSize content)).map fun i =>
      writeAt (disk.old (sha1 (slice chunkSize content i))) 0 (slice chunkSize content i)).flatten

theorem assembled_eq_iff : assembled sha1 disk content = content ↔ NothingLonger sha1 disk content := by
  have cut : ((List.range (count chunkSize content)).map (slice chunkSize content)).flatten = content :=
    flatten_all chunkSize_pos
  rw [assembled, writeAt_zero]
  conv_lhs => rhs; rw [← cut]
  rw [flatten_append_eq_iff fun i _ => prefix_writeAt_zero _ _]
  have whole (same : ∀ i ∈ List.range (count chunkSize content),
      writeAt (disk.old (sha1 (slice chunkSize content i))) 0 (slice chunkSize content i) = slice chunkSize content i) :
      ((List.range (count chunkSize content)).map fun i =>
        writeAt (disk.old (sha1 (slice chunkSize content i))) 0 (slice chunkSize content i)).flatten = content := by
    rw [List.map_congr_left same, cut]
  constructor
  · rintro ⟨same, none⟩
    rw [whole same, List.drop_eq_nil_iff] at none
    refine ⟨fun i below => getD_le_iff.mp ?_, getD_le_iff.mp none⟩
    exact (writeAt_zero_eq_iff _ _).mp (same i (List.mem_range.mpr below))
  · rintro ⟨dir, temp⟩
    have same : ∀ i ∈ List.range (count chunkSize content),
        writeAt (disk.old (sha1 (slice chunkSize content i))) 0 (slice chunkSize content i) =
          slice chunkSize content i :=
      fun i member => (writeAt_zero_eq_iff _ _).mpr (getD_le_iff.mpr (dir i (List.mem_range.mp member)))
    refine ⟨same, ?_⟩
    rw [whole same, List.drop_eq_nil_iff]
    exact getD_le_iff.mpr temp

/-- Whatever the order, the pieces of the store follow one another over what lay under the hash. -/
theorem assemble_given {given : List FileChunk} {piece : ℕ → Bytes} (counted : fi.chunkCount = count chunkSize content)
    (chunks : fi.fileChunk = (List.range (count chunkSize content)).map (chunkAt sha1 content))
    (hash : fi.hash = fileHash sha1 content)
    (stored : ∀ i < count chunkSize content, disk.dir.load (.b58 (sha1 (slice chunkSize content i))) = some (piece i))
    (same : ∀ chunk, chunk ∈ given ↔ chunk ∈ fi.fileChunk) :
    (given.foldl File.addFileChunk (newFile fi)).check.1 = true ∧
      ((given.foldl File.addFileChunk (newFile fi)).check.2.assemble disk).1 = true ∧
      ((given.foldl File.addFileChunk (newFile fi)).check.2.assemble disk).2.temp.load fi.name =
        some (writeAt ((disk.temp.load (.b58 (fileHash sha1 content))).getD []) 0
          ((List.range (count chunkSize content)).map piece).flatten) := by
  have sorted := sort_given counted chunks same
  obtain ⟨-, named, hashed, total⟩ := collected_foldl given fi
  generalize given.foldl File.addFileChunk (newFile fi) = file at *
  have totally : Std.Total fun left right : FileChunk => left.no ≤ right.no := ⟨fun left right => le_total _ _⟩
  have transitive : IsTrans FileChunk fun left right => left.no ≤ right.no := ⟨fun _ _ _ => le_trans⟩
  have again : file.sort.sort.fileChunk = (List.range (count chunkSize content)).map (chunkAt sha1 content) :=
    (List.pairwise_insertionSort _ file.fileChunk).insertionSort_eq.trans sorted
  have stored : ∀ one ∈ file.sort.sort.fileChunk, disk.dir.load (.b58 one.hash) = some (piece one.no) := by
    intro one member
    rw [again] at member
    obtain ⟨i, below, rfl⟩ := List.mem_map.mp member
    exact stored i (List.mem_range.mp below)
  have goes :
      File.assembleFrom disk ((disk.temp.load (.b58 (fileHash sha1 content))).getD []) 0 file.sort.sort.fileChunk =
      (true, writeAt ((disk.temp.load (.b58 (fileHash sha1 content))).getD []) 0
        ((List.range (count chunkSize content)).map piece).flatten) := by
    have ends := assembleFrom_eq ((disk.temp.load (.b58 (fileHash sha1 content))).getD []) [] stored
    rw [List.nil_append, List.length_nil, List.drop_zero, List.nil_append] at ends
    rw [ends, again, List.map_map, writeAt_zero]
    rfl
  have ends : file.check.2.assemble disk =
      (true,
        { disk with
          temp := (disk.temp.delete (.b58 (fileHash sha1 content))).store fi.name
            (writeAt ((disk.temp.load (.b58 (fileHash sha1 content))).getD []) 0
              ((List.range (count chunkSize content)).map piece).flatten) }) := by
    show file.sort.assemble disk = _
    rw [File.assemble, show file.sort.hash = fileHash sha1 content from hashed.trans hash, goes, ← named]
    rfl
  refine ⟨?_, by rw [ends], ?_⟩
  · show decide (file.sort.fileChunk.length = file.chunkCount) = true
    rw [sorted, total, counted, List.length_map, List.length_range]
    exact decide_eq_true rfl
  · rw [ends]
    exact SyncMap.load_store_self _ _ _

/-- All that can go wrong is what is put together. -/
theorem round_trip_iff_assembled (now : ℤ) (found : disk.temp.load name = some content)
    (free : CollisionFree sha1 content) :
    RoundTrip sha1 now disk name content ↔ assembled sha1 disk content = content := by
  obtain ⟨fi, after, cuts, is, temp, written⟩ := @diced_spec sha1 disk content name now found free
  have chunks : fi.fileChunk = (List.range (count chunkSize content)).map (chunkAt sha1 content) := by rw [is]
  have counted : fi.chunkCount = count chunkSize content := by rw [is]
  have hash : fi.hash = fileHash sha1 content := by rw [is]
  constructor
  · rintro ⟨fi', after', cuts', -, -, restored⟩
    cases cuts.symm.trans cuts'
    obtain ⟨-, -, ends⟩ := assemble_given counted chunks hash written fun _ => Iff.rfl
    rw [temp] at ends
    exact Option.some.inj (ends.symm.trans (restored fi.fileChunk fun _ => Iff.rfl).2.2)
  · intro same
    refine ⟨fi, after, cuts, counted.trans (count_eq_ceilDiv chunkSize_pos), ?_, fun given every => ?_⟩
    · rw [chunks, counted, List.map_map]
      exact List.map_id _
    · obtain ⟨complete, ends, holds⟩ := assemble_given counted chunks hash written every
      rw [temp] at holds
      exact ⟨complete, ends, holds.trans (congrArg some same)⟩

/-- Cutting and putting together are inverse exactly when nothing longer lies under the names that are written. -/
theorem round_trip_iff (sha1 : Bytes → Bytes) (now : ℤ) (disk : Disk) (name : FileName) (content : Bytes)
    (found : disk.temp.load name = some content) (free : CollisionFree sha1 content) :
    RoundTrip sha1 now disk name content ↔ NothingLonger sha1 disk content :=
  (round_trip_iff_assembled now found free).trans assembled_eq_iff

theorem collisionFree_of_injective (injective : Function.Injective sha1) : CollisionFree sha1 content :=
  fun _ _ _ _ same => injective same

/-- A file of two bytes, and what a peer gave for its chunk. -/
def leftover : Disk where
  dir := SyncMap.empty.store (.b58 [1, 2]) [1, 2, 9]
  temp := SyncMap.empty.store (.text "a") [1, 2]

/-- What is put together ends with the last byte of what the peer gave. -/
theorem leftover_not_round_trip : leftover.temp.load (.text "a") = some [1, 2] ∧ CollisionFree id [1, 2] ∧
    ¬ RoundTrip id 0 leftover (.text "a") [1, 2] ∧ assembled id leftover [1, 2] = [1, 2, 9] := by
  have found : leftover.temp.load (.text "a") = some [1, 2] := by decide
  have free : CollisionFree id [1, 2] := collisionFree_of_injective Function.injective_id
  refine ⟨found, free, ?_, by decide⟩
  rw [round_trip_iff_assembled 0 found free]
  decide

/-- Without it the file comes back. -/
theorem nothing_left_round_trip :
    RoundTrip id 0 { dir := .empty, temp := SyncMap.empty.store (.text "a") [1, 2] } (.text "a") [1, 2] ↔
      NothingLonger id { dir := .empty, temp := SyncMap.empty.store (.text "a") [1, 2] } [1, 2] :=
  round_trip_iff _ _ _ _ _ (by decide) (collisionFree_of_injective Function.injective_id)

end PolarCloud.Store
