import Mathlib.Data.Finset.SDiff
import PolarCloud.Base.JsonText
import PolarCloud.Model.Store.Sync

/-! # What a record brings to another node

The text of a record says nothing of the users who share the chunk, so the node that reads it learns of one user: the
sender. Its own users stay. Hence a message brings over all users of a record exactly when the others were known
before, and two nodes that send each other their records come to agree exactly when they agreed before.
-/

namespace PolarCloud.Store

open NodeStore MessageCenter Json Auth

/-! ## Texts -/

/-- A record is read back without its users. -/
theorem ChunkInfoData.decode_members (cid : ChunkInfoData) :
    decodeMembers setMember {} (.obj cid.members) = some { cid with shares := ∅ } := by
  simp [members, decodeMembers, setMember, named, foldChar, getBool, getTime]

theorem SyncData.decode_members (sd : SyncData) : decodeMembers setMember {} (.obj sd.members) = some sd := by
  have bound : (sd.type.toNat : ℤ) < 2 ^ 8 := by exact_mod_cast sd.type.toNat_lt
  have type : getUint8 0 (.num sd.type.toNat) = some sd.type := by
    rw [getUint8, if_pos ⟨Int.natCast_nonneg _, bound⟩, Int.toNat_natCast, UInt8.ofNat_toNat]
  simp [members, decodeMembers, setMember, named, foldChar, getBool, type]

section Texts

variable {rt : Runtime} (reads : ∀ value : Json, rt.unmarshal value.bytes = some value)

include reads

theorem ChunkInfoData.parse_json (cid : ChunkInfoData) : parse rt cid.json = some { cid with shares := ∅ } := by
  rw [parse, json, reads, Option.bind_some, decode_members]

theorem SyncData.parse_json (sd : SyncData) : parse rt sd.json = some sd := by
  rw [parse, json, reads, Option.bind_some, decode_members]

end Texts

/-! ## Records -/

namespace FileData

variable {fd : FileData} {cid : ChunkInfoData} {hash : Multihash}

theorem shareUsers_updateFileChunk (own : cid.cHash = some hash) (other : Multihash) :
    (fd.updateFileChunk cid hash own).shareUsers other = if other = hash then cid.shares else fd.shareUsers other := by
  simp only [shareUsers, updateFileChunk, SyncMap.load_store]
  split <;> rfl

/-- A record adds its users to those of its own chunk. -/
theorem shareUsers_join (now : Time) (own : cid.cHash = some hash) (other : Multihash) :
    (fd.join now cid hash own).shareUsers other =
      if other = hash then fd.shareUsers hash ∪ cid.shares else fd.shareUsers other := by
  unfold join
  split
  · next missing =>
    have none : fd.shareUsers hash = ∅ := by
      rw [shareUsers, missing]
      rfl
    rw [shareUsers_updateFileChunk, none, Finset.empty_union]
  · next chunkinfodata stored =>
    have listed : fd.shareUsers hash = chunkinfodata.shares := by
      rw [shareUsers, stored]
      rfl
    rw [shareUsers_updateFileChunk, listed]

theorem exists_record_of_mem {user : Multihash} (listed : user ∈ fd.shareUsers hash) :
    ∃ cid, fd.fileChunkInfo.load hash = some cid := by
  cases stored : fd.fileChunkInfo.load hash with
  | none => simp [shareUsers, stored] at listed
  | some cid => exact ⟨cid, rfl⟩

theorem addFileChunk_eq_join (now : Time) (own : cid.cHash = some hash) :
    fd.addFileChunk now cid = some (fd.join now cid hash own) := by
  unfold addFileChunk
  split
  · next missing =>
    rw [missing] at own
    cases own
  · next found present =>
    cases present.symm.trans own
    rfl

theorem shareUsers_delShareUser (id chunkid other : Multihash) :
    (fd.delShareUser id chunkid).shareUsers other =
      if other = chunkid then (fd.shareUsers chunkid).erase id else fd.shareUsers other := by
  unfold delShareUser
  split
  · next missing =>
    have none : fd.shareUsers chunkid = ∅ := by
      rw [shareUsers, missing]
      rfl
    split
    · next same => rw [same, none, Finset.erase_empty]
    · rfl
  · next cid stored =>
    have listed : fd.shareUsers chunkid = cid.shares := by
      rw [shareUsers, stored]
      rfl
    rw [listed]
    exact @shareUsers_updateFileChunk fd (cid.delShareUser id) chunkid (fd.keyed chunkid cid stored) other

end FileData

/-! ## Messages -/

namespace StoreNode

variable {rt : Runtime} {source target : StoreNode} {cid : ChunkInfoData} {sends : List (Multihash × SyncData)}
  {id : Multihash} {sd : SyncData} {stamp : Stamp} {message : Message}

theorem eq_of_mem_sends (made : source.sendChunkInfoToPeer cid = some sends) (sent : (id, sd) ∈ sends) :
    ∃ hash, cid.cHash = some hash ∧ sd = { type := fileChunkType, data := cid.json } := by
  obtain ⟨hash, own, rfl⟩ := Option.map_eq_some_iff.mp made
  obtain ⟨receiveid, -, same⟩ := List.mem_map.mp sent
  exact ⟨hash, own, (Prod.mk.inj same).2.symm⟩

theorem eq_of_sendData (built : source.sendData id sd stamp = some message) :
    message.head.sender = some source.peer.nodeSelf ∧ message.body.content = some sd.json := by
  unfold sendData at built
  split at built
  · cases built
  · cases built
    exact ⟨rfl, rfl⟩

/-- Who receives a record lists the sender besides the users listed before, and changes no other record. -/
theorem syncFileInfo_spec (reads : ∀ value : Json, rt.unmarshal value.bytes = some value)
    (made : source.sendChunkInfoToPeer cid = some sends) (sent : (id, sd) ∈ sends)
    (built : source.sendData id sd stamp = some message) {form : Option Multihash}
    (handled : target.peer.isSendToOtherSuperToo message.head.toMessageHead form = .handled) (now : Time) (back : Stamp)
    {hash : Multihash} (own : cid.cHash = some hash) :
    ∃ fd reply, target.syncFileInfo rt form now back message.head.json message.body.json = .chunk fd reply ∧
      ∀ other, fd.shareUsers other =
        if other = hash then insert source.peer.nodeSelf (target.fd.shareUsers hash) else
          target.fd.shareUsers other := by
  obtain ⟨-, -, rfl⟩ := eq_of_mem_sends made sent
  obtain ⟨sender, content⟩ := eq_of_sendData built
  -- the record that is joined has one user
  have added :
      target.fd.addFileChunk now (({ cid with shares := ∅ } : ChunkInfoData).addShareUser source.peer.nodeSelf) =
      some (target.fd.join now { cid with shares := {source.peer.nodeSelf} } hash own) := by
    rw [ChunkInfoData.addShareUser, insert_empty_eq]
    exact @FileData.addFileChunk_eq_join target.fd { cid with shares := {source.peer.nodeSelf} } hash now own
  refine ⟨target.fd.join now { cid with shares := {source.peer.nodeSelf} } hash own,
    target.reply message.head message.body (some cid.json) back, ?_, fun other => ?_⟩
  · simp only [syncFileInfo, parserMessage_json reads, handled, receive, parserContent_json reads, content,
      SyncData.parse_json reads, if_true, receiveChunk, ChunkInfoData.parse_json reads, sender, added]
    rfl
  · rw [FileData.shareUsers_join, Finset.union_comm]
    rfl

/-- A node that does not answer is no longer listed for the chunk at the sender; nothing else changes there. -/
theorem shareUsers_unanswered (reads : ∀ value : Json, rt.unmarshal value.bytes = some value)
    (made : source.sendChunkInfoToPeer cid = some sends) (sent : (id, sd) ∈ sends) {hash : Multihash}
    (own : cid.cHash = some hash) (other : Multihash) :
    (source.unanswered rt id sd).fd.shareUsers other =
      if other = hash then (source.fd.shareUsers hash).erase id else source.fd.shareUsers other := by
  obtain ⟨-, -, rfl⟩ := eq_of_mem_sends made sent
  simp only [unanswered, if_true, ChunkInfoData.parse_json reads, Option.bind_some, own]
  exact FileData.shareUsers_delShareUser id hash other

/-- A message with a record of the source is handled by the target, which then has these records. -/
def Received (rt : Runtime) (source : StoreNode) (cid : ChunkInfoData) (target : StoreNode) (fd : FileData) : Prop :=
  ∃ sends id sd stamp message form now back reply, source.sendChunkInfoToPeer cid = some sends ∧ (id, sd) ∈ sends ∧
    source.sendData id sd stamp = some message ∧
    target.syncFileInfo rt form now back message.head.json message.body.json = .chunk fd reply

theorem Received.shareUsers_eq (reads : ∀ value : Json, rt.unmarshal value.bytes = some value) {fd : FileData}
    (received : Received rt source cid target fd) {hash : Multihash} (own : cid.cHash = some hash) :
    fd.shareUsers hash = insert source.peer.nodeSelf (target.fd.shareUsers hash) := by
  obtain ⟨sends, id, sd, stamp, message, form, now, back, reply, made, sent, built, result⟩ := received
  have handled : target.peer.isSendToOtherSuperToo message.head.toMessageHead form = .handled := by
    rw [syncFileInfo, parserMessage_json reads] at result
    cases outcome : target.peer.isSendToOtherSuperToo message.head.toMessageHead form with
    | handled => rfl
    | kept => simp [outcome] at result
    | sent name => simp [outcome] at result
    | panicked => simp [outcome] at result
  obtain ⟨fd', reply', again, users⟩ := syncFileInfo_spec reads made sent built handled now back own
  cases result.symm.trans again
  rw [users, if_pos rfl]

/-- Nothing is lost on the way: the users listed before, those of the record, and the sender. -/
def UsersKept (source target : StoreNode) (cid : ChunkInfoData) (hash : Multihash) (fd : FileData) : Prop :=
  target.fd.shareUsers hash ⊆ fd.shareUsers hash ∧ cid.shares ⊆ fd.shareUsers hash ∧
    source.peer.nodeSelf ∈ fd.shareUsers hash

/-- Two nodes list the same users for a chunk, but for themselves. -/
def SameUsers (left right : StoreNode) (hash : Multihash) : Prop :=
  left.fd.shareUsers hash \ {left.peer.nodeSelf, right.peer.nodeSelf} =
    right.fd.shareUsers hash \ {left.peer.nodeSelf, right.peer.nodeSelf}

/-- A message of a record brings over everything exactly when all users of the record but the sender were listed at
the receiver before. After two nodes have each received the other's record they list the same users, but for
themselves, exactly when they did before. -/
theorem share_users_kept_iff (reads : ∀ value : Json, rt.unmarshal value.bytes = some value) :
    (∀ (source target : StoreNode) (cid : ChunkInfoData) (sends : List (Multihash × SyncData)) (id : Multihash)
      (sd : SyncData) (stamp : Stamp) (message : Message) (form : Option Multihash) (now : Time) (back : Stamp),
      source.sendChunkInfoToPeer cid = some sends → (id, sd) ∈ sends → source.sendData id sd stamp = some message →
      target.peer.isSendToOtherSuperToo message.head.toMessageHead form = .handled →
      ∃ hash fd reply, cid.cHash = some hash ∧
        target.syncFileInfo rt form now back message.head.json message.body.json = .chunk fd reply ∧
        (UsersKept source target cid hash fd ↔
          cid.shares ⊆ insert source.peer.nodeSelf (target.fd.shareUsers hash))) ∧
    (∀ (left right : StoreNode) (hash : Multihash) (cidLeft cidRight : ChunkInfoData) (fdLeft fdRight : FileData),
      left.fd.fileChunkInfo.load hash = some cidLeft → Received rt left cidLeft right fdRight →
      fdRight.fileChunkInfo.load hash = some cidRight → Received rt { right with fd := fdRight } cidRight left fdLeft →
      (SameUsers { left with fd := fdLeft } { right with fd := fdRight } hash ↔ SameUsers left right hash)) := by
  constructor
  · intro source target cid sends id sd stamp message form now back made sent built handled
    obtain ⟨hash, own, -⟩ := eq_of_mem_sends made sent
    obtain ⟨fd, reply, result, users⟩ := syncFileInfo_spec reads made sent built handled now back own
    refine ⟨hash, fd, reply, own, result, ?_⟩
    rw [UsersKept, users, if_pos rfl]
    constructor
    · rintro ⟨-, kept, -⟩
      exact kept
    · intro known
      exact ⟨Finset.subset_insert _ _, known, Finset.mem_insert_self _ _⟩
  · intro left right hash cidLeft cidRight fdLeft fdRight storedLeft there storedRight back
    have atRight := there.shareUsers_eq reads (left.fd.keyed hash cidLeft storedLeft)
    have atLeft := back.shareUsers_eq reads (fdRight.keyed hash cidRight storedRight)
    rw [SameUsers, atRight, atLeft, Finset.insert_sdiff_of_mem _ (by simp), Finset.insert_sdiff_of_mem _ (by simp),
      SameUsers]

/-! ## Two nodes and a third user -/

/-- What the decoder reads is what the encoder wrote. -/
noncomputable def canonical : Runtime where
  sha3 bytes := bytes
  hash160 bytes := bytes
  unmarshal := Function.partialInv Json.bytes

theorem canonical_reads (value : Json) : canonical.unmarshal value.bytes = some value :=
  Function.partialInv_left Json.bytes_injective value

/-- A super node that knows one other. -/
def pairNode (own other : ℕ) (fd : FileData) : StoreNode where
  peer := { nodeSelf := .ofNumber own, nodes := [.ofNumber other] }
  fd := fd

/-- The first node and a third user share the chunk. -/
def shared : ChunkInfoData := { cHash := some (.ofNumber 3), shares := {.ofNumber 1, .ofNumber 9} }

def plainStamp : Stamp := { hash := [], rand := 0, time := "" }

/-- The first node, which has the record. -/
def holder : StoreNode := pairNode 1 2 (FileData.empty.updateFileChunk shared (.ofNumber 3) rfl)

/-- The second node, which has none. -/
def newcomer : StoreNode := pairNode 2 1 .empty

def sharedData : SyncData := { type := fileChunkType, data := shared.json }

/-- What the first node sends to the second. -/
def sharedMessage : Message where
  head := holder.peer.newMessageHead (some (.ofNumber 2)) (some (.ofNumber 2)) false
  body := (MessageBody.new (some sharedData.json) "" none 0).buildHash plainStamp

private theorem holder_sends : holder.sendChunkInfoToPeer shared = some [(.ofNumber 2, sharedData)] := rfl

private theorem holder_sendData : holder.sendData (.ofNumber 2) sharedData plainStamp = some sharedMessage := rfl

private theorem newcomer_handles :
    newcomer.peer.isSendToOtherSuperToo sharedMessage.head.toMessageHead (some (.ofNumber 1)) = .handled := rfl

private theorem shared_cHash : shared.cHash = some (.ofNumber 3) := rfl

private theorem newcomer_lists_none : newcomer.fd.shareUsers (.ofNumber 3) = ∅ := rfl

/-- The third user is not listed by the second node after it has received the record. -/
theorem third_user_lost :
    ∃ fd reply, newcomer.syncFileInfo canonical (some (.ofNumber 1)) .zero plainStamp sharedMessage.head.json
        sharedMessage.body.json = .chunk fd reply ∧
      holder.sendChunkInfoToPeer shared = some [(.ofNumber 2, sharedData)] ∧
      holder.sendData (.ofNumber 2) sharedData plainStamp = some sharedMessage ∧
      fd.shareUsers (.ofNumber 3) = {.ofNumber 1} ∧ ¬ UsersKept holder newcomer shared (.ofNumber 3) fd := by
  obtain ⟨fd, reply, result, users⟩ := syncFileInfo_spec canonical_reads holder_sends (List.mem_singleton_self _)
    holder_sendData newcomer_handles .zero plainStamp shared_cHash
  have first : fd.shareUsers (.ofNumber 3) = {.ofNumber 1} := by
    rw [users, if_pos rfl, newcomer_lists_none]
    rfl
  refine ⟨fd, reply, result, holder_sends, holder_sendData, first, ?_⟩
  rintro ⟨-, kept, -⟩
  rw [first] at kept
  have listed : Multihash.ofNumber 9 ∈ ({.ofNumber 1} : Finset Multihash) := kept (by decide)
  exact absurd listed (by decide)

/-- The second node, with any records, sends its record of the chunk to the first, which has its own. -/
private theorem newcomer_answers (fd : FileData) {cid : ChunkInfoData} (own : cid.cHash = some (.ofNumber 3)) :
    ∃ fdLeft, Received canonical { newcomer with fd := fd } cid holder fdLeft := by
  have made : ({ newcomer with fd := fd } : StoreNode).sendChunkInfoToPeer cid =
      some [(.ofNumber 1, { type := fileChunkType, data := cid.json })] := by
    rw [sendChunkInfoToPeer, own]
    rfl
  have built : ({ newcomer with fd := fd } : StoreNode).sendData (.ofNumber 1)
      { type := fileChunkType, data := cid.json } plainStamp = some _ := rfl
  obtain ⟨fdLeft, reply, result, -⟩ := @syncFileInfo_spec canonical _ holder cid _ _ _ _ _ canonical_reads made
    (List.mem_singleton_self _) built (some (.ofNumber 2)) rfl .zero plainStamp _ own
  exact ⟨fdLeft, _, _, _, _, _, _, _, _, _, made, List.mem_singleton_self _, built, result⟩

/-- After both have received the other's record, the third user is still with the first node alone. -/
theorem holder_newcomer_share_users_kept_iff :
    (∃ hash fd reply, shared.cHash = some hash ∧
      newcomer.syncFileInfo canonical (some (.ofNumber 1)) .zero plainStamp sharedMessage.head.json
        sharedMessage.body.json = .chunk fd reply ∧ ¬ UsersKept holder newcomer shared hash fd) ∧
    ∃ fdRight cidRight fdLeft, Received canonical holder shared newcomer fdRight ∧
      fdRight.fileChunkInfo.load (.ofNumber 3) = some cidRight ∧
      Received canonical { newcomer with fd := fdRight } cidRight holder fdLeft ∧
      ¬ SameUsers { holder with fd := fdLeft } { newcomer with fd := fdRight } (.ofNumber 3) := by
  obtain ⟨oneWay, bothWays⟩ := share_users_kept_iff canonical_reads
  obtain ⟨hash, fd, reply, own, result, kept⟩ := oneWay holder newcomer shared _ _ _ _ _ (some (.ofNumber 1)) .zero
    plainStamp holder_sends (List.mem_singleton_self _) holder_sendData newcomer_handles
  cases shared_cHash.symm.trans own
  refine ⟨⟨_, fd, reply, shared_cHash, result, fun all => ?_⟩, ?_⟩
  · have known : Multihash.ofNumber 9 ∈ insert holder.peer.nodeSelf (newcomer.fd.shareUsers (.ofNumber 3)) :=
      kept.mp all (by decide)
    exact absurd known (by decide)
  · have there : Received canonical holder shared newcomer fd :=
      ⟨_, _, _, _, _, _, _, _, _, holder_sends, List.mem_singleton_self _, holder_sendData, result⟩
    have listed : holder.peer.nodeSelf ∈ fd.shareUsers (.ofNumber 3) := by
      rw [there.shareUsers_eq canonical_reads shared_cHash]
      exact Finset.mem_insert_self _ _
    obtain ⟨cidRight, stored⟩ := FileData.exists_record_of_mem listed
    obtain ⟨fdLeft, back⟩ := newcomer_answers fd (fd.keyed _ _ stored)
    refine ⟨fd, cidRight, fdLeft, there, stored, back, fun same => ?_⟩
    have before := (bothWays holder newcomer _ shared cidRight fdLeft fd rfl there stored back).mp same
    revert before
    unfold SameUsers
    decide

end StoreNode

end PolarCloud.Store
