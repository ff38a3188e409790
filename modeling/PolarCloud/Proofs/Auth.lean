import PolarCloud.Model.Auth

/-! # Who owns a name

The name of a session is the id that the peer sends, and the check of it is the check of a signature over it with
the public key that the peer sends as well. That the id belongs to the key is checked by neither side, and the peer
stands in a table before the last thing that may refuse it: a handshake is lawful, whatever else happens, exactly with
the bytes in which no peer signs an id that its key does not have.
-/

namespace PolarCloud.Auth

open NodeStore

variable {rt : Runtime} {scheme : Scheme} {netid : ℕ} {peers : Peers} {input rest : Bytes} {node : Node}
  {id name : Multihash}

/-- A node's own information passes the check. -/
theorem checkIdInfo_buildIdinfo {key : scheme.Key} {signText : Bytes → String} {info : IdInfo}
    (signs : ∀ message, scheme.Signs key message (signText message))
    (built : buildIdinfo rt scheme key signText = some info) :
    checkIdInfo scheme info = some true ∧ info.id = idOfPuk rt info.puk := by
  simp only [buildIdinfo, bind, Option.bind_eq_some_iff] at built
  obtain ⟨id, derived, made⟩ := built
  cases made
  exact ⟨congrArg some ((scheme.verify_iff _ _ _).mpr ⟨key, rfl, signs id⟩), derived.symm⟩

/-- What a peer has sent: a node that is read, has an id, and whose id is signed with the key it sends. -/
structure Presents (rt : Runtime) (scheme : Scheme) (input : Bytes) (node : Node) (name : Multihash) (rest : Bytes) :
    Prop where
  sent : ∃ sizebs nodeBs, readFull 2 input = .ok (sizebs, nodeBs ++ rest) ∧ nodeBs.length = BigEndian.number sizebs ∧
    parseNode rt nodeBs = some node
  id : node.idInfo.id = some name
  signed : ∃ key, scheme.pukBytes key = node.idInfo.puk ∧ scheme.Signs key name node.idInfo.sign

theorem readFull_ok_iff {count : ℕ} {front : Bytes} :
    readFull count input = .ok (front, rest) ↔ input = front ++ rest ∧ front.length = count := by
  rw [readFull]
  constructor
  · intro read
    split at read
    · next enough =>
      cases read
      exact ⟨(List.take_append_drop _ _).symm, List.length_take_of_le enough⟩
    · cases read
  · rintro ⟨rfl, rfl⟩
    rw [if_pos (by simp), List.take_left, List.drop_left]

/-- Nothing else is checked of the node that a peer sends. -/
theorem readNode_ok_iff : readNode rt scheme input = .ok (node, name, rest) ↔
    Presents rt scheme input node name rest := by
  constructor
  · intro read
    rw [readNode] at read
    cases size : readFull 2 input with
    | error => simp [size, bind, Except.bind] at read
    | ok sized =>
      obtain ⟨sizebs, after⟩ := sized
      cases whole : readFull (BigEndian.number sizebs) after with
      | error => simp [size, whole, bind, Except.bind] at read
      | ok wholly =>
        obtain ⟨nodeBs, left⟩ := wholly
        obtain ⟨rfl, exact⟩ := readFull_ok_iff.mp whole
        simp only [size, whole, bind, Except.bind] at read
        split at read
        · cases read
        · next parsed =>
          split at read
          · cases read
          · cases read
          · next checked =>
            cases read
            obtain ⟨id, present, verified⟩ := Option.map_eq_some_iff.mp checked
            refine ⟨⟨sizebs, nodeBs, size, exact, parsed⟩, by rw [present]; rfl, ?_⟩
            rw [present]
            exact (scheme.verify_iff _ _ _).mp verified
  · rintro ⟨⟨sizebs, nodeBs, size, exact, parsed⟩, id, signed⟩
    have whole : readFull (BigEndian.number sizebs) (nodeBs ++ rest) = .ok (nodeBs, rest) :=
      readFull_ok_iff.mpr ⟨rfl, exact⟩
    have checked : checkIdInfo scheme node.idInfo = some true := by
      rw [checkIdInfo, id]
      exact congrArg some ((scheme.verify_iff _ _ _).mpr signed)
    simp only [readNode, size, whole, bind, Except.bind, parsed, checked, id]
    rfl

/-- One input has one node. -/
theorem Presents.unique {other : Node} {name' : Multihash} {rest' : Bytes}
    (presents : Presents rt scheme input node name rest) (presents' : Presents rt scheme input other name' rest') :
    other = node ∧ name' = name := by
  cases (readNode_ok_iff.mpr presents).symm.trans (readNode_ok_iff.mpr presents')
  exact ⟨rfl, rfl⟩

/-! ## What stands in the tables -/

/-- A node owns an id: it has sent the id, which is made of the public key it has sent, and has the key. -/
structure Owns (rt : Runtime) (scheme : Scheme) (node : Node) (id : Multihash) : Prop where
  sent : node.idInfo.id = some id
  derived : idOfPuk rt node.idInfo.puk = some id
  signed : ∃ key, scheme.pukBytes key = node.idInfo.puk ∧ scheme.Signs key id node.idInfo.sign

/-- What a handshake may do: its name belongs to the node that the peer has sent, and what stands in the tables stood
there before or owns the id under which it stands. -/
structure Lawful (rt : Runtime) (scheme : Scheme) (sent : Bytes) (before : Peers)
    (result : Except AuthError Multihash × Peers) : Prop where
  named : ∀ name, result.1 = .ok name → ∃ node rest, Presents rt scheme sent node name rest ∧ Owns rt scheme node name
  nodes : ∀ id node, result.2.nodes.load id = some node → before.nodes.load id = some node ∨ Owns rt scheme node id
  proxys : ∀ id node, result.2.proxys.load id = some node → before.proxys.load id = some node ∨ Owns rt scheme node id

/-- A peer that is refused before the tables. -/
theorem lawful_refused (err : AuthError) : Lawful rt scheme input peers (.error err, peers) :=
  ⟨nofun, fun _ _ stands => .inl stands, fun _ _ stands => .inl stands⟩

theorem load_deleted {table : SyncMap Multihash Node} (ids : List Multihash)
    (stands : (ids.foldl SyncMap.delete table).load id = some node) : table.load id = some node := by
  induction ids generalizing table with
  | nil => exact stands
  | cons one ids ih =>
    have earlier := ih stands
    rw [SyncMap.load_delete] at earlier
    split at earlier
    · cases earlier
    · exact earlier

/-- Adding a node puts nothing else into the tables. -/
theorem Peers.addNode_load {other : Multihash} {stored : Node} {allNodes : List Multihash}
    (stands : (peers.addNode allNodes id node).nodes.load other = some stored) :
    peers.nodes.load other = some stored ∨ other = id ∧ stored = node := by
  rw [addNode] at stands
  split at stands
  · exact .inl stands
  · dsimp only at stands
    split at stands
    · have written := load_deleted _ stands
      rw [SyncMap.load_store] at written
      split at written
      · next same =>
        cases written
        exact .inr ⟨same, rfl⟩
      · exact .inl written
    · exact .inl stands

theorem Peers.addNode_proxys {allNodes : List Multihash} : (peers.addNode allNodes id node).proxys = peers.proxys := by
  rw [addNode]
  split
  · rfl
  · dsimp only
    split
    · rfl
    · rfl

theorem Peers.addProxyNode_load {other : Multihash} {stored : Node}
    (stands : (peers.addProxyNode id node).proxys.load other = some stored) :
    peers.proxys.load other = some stored ∨ other = id ∧ stored = node := by
  rw [addProxyNode, SyncMap.load_store] at stands
  split at stands
  · next same =>
    cases stands
    exact .inr ⟨same, rfl⟩
  · exact .inl stands

/-- The first node of a table is stored, whichever it is. -/
theorem Peers.addNode_first (other : id ≠ peers.manager.nodeSelf) :
    (peers.addNode [] id node).nodes.load id = some node := by
  rw [addNode, if_neg other]
  exact SyncMap.load_store_self _ _ _

/-- A node that owns its id may be put into a table. -/
theorem lawful_addNode {result : Except AuthError Multihash} {after : Peers} {allNodes : List Multihash}
    (owns : Owns rt scheme node id) (tables : after.nodes = (peers.addNode allNodes id node).nodes)
    (proxys : after.proxys = (peers.addNode allNodes id node).proxys)
    (named : ∀ name, result = .ok name → ∃ node rest, Presents rt scheme input node name rest ∧
      Owns rt scheme node name) : Lawful rt scheme input peers (result, after) := by
  refine ⟨named, fun other stored stands => ?_, fun other stored stands => ?_⟩
  · rcases Peers.addNode_load (tables ▸ stands) with before | ⟨rfl, rfl⟩
    · exact .inl before
    · exact .inr owns
  · rw [proxys, Peers.addNode_proxys] at stands
    exact .inl stands

theorem lawful_addProxyNode {result : Except AuthError Multihash} (owns : Owns rt scheme node id)
    (named : ∀ name, result = .ok name → ∃ node rest, Presents rt scheme input node name rest ∧
      Owns rt scheme node name) : Lawful rt scheme input peers (result, peers.addProxyNode id node) := by
  refine ⟨named, fun other stored stands => .inl stands, fun other stored stands => ?_⟩
  rcases Peers.addProxyNode_load stands with before | ⟨rfl, rfl⟩
  · exact .inl before
  · exact .inr owns

/-! ## Forged nodes -/

/-- A peer sends a node whose id it has signed, and which is not the id of the key that it sends. -/
def Forged (rt : Runtime) (scheme : Scheme) (sent : Bytes) (node : Node) : Prop :=
  ∃ name rest, Presents rt scheme sent node name rest ∧ idOfPuk rt node.idInfo.puk ≠ some name

theorem owns_of_unforged (presents : Presents rt scheme input node name rest) (unforged : ¬ Forged rt scheme input node)
    (host : String) (isSuper : Bool) : Owns rt scheme { node with addr := host, isSuper } name where
  sent := presents.id
  derived := by
    by_contra other
    exact unforged ⟨name, rest, presents, other⟩
  signed := presents.signed

/-- The name that is returned belongs to the node that was sent. -/
theorem named_of_unforged (presents : Presents rt scheme input node name rest)
    (unforged : ¬ Forged rt scheme input node) (other : Multihash)
    (named : (.ok name : Except AuthError Multihash) = .ok other) :
    ∃ node rest, Presents rt scheme input node other rest ∧ Owns rt scheme node other := by
  cases named
  exact ⟨node, rest, presents, owns_of_unforged presents unforged node.addr node.isSuper⟩

/-- The network id in front of what a peer sends. -/
def InNet (netid : ℕ) (input : Bytes) : Prop := 4 ≤ input.length ∧ BigEndian.number (input.take 4) = netid

/-- The side that was connected to is lawful with a peer that sends no forged node, or says that it is a super node. -/
theorem recvKey_lawful {host : String} {wrote : Bool × Bool} {isSuper : Bool} {allNodes : List Multihash}
    (honest : InNet netid input → ∀ node, Forged rt scheme (input.drop 4) node → node.isSuper = true) :
    Lawful rt scheme (input.drop 4) peers (recvKey rt scheme netid peers input host wrote isSuper allNodes) := by
  rw [recvKey]
  split
  · exact lawful_refused _
  · next netIdBs sent first =>
    obtain ⟨rfl, four⟩ := readFull_ok_iff.mp first
    rw [← four, List.drop_left]
    rw [← four, List.drop_left] at honest
    split
    · exact lawful_refused _
    · next net =>
      split
      · exact lawful_refused _
      · next node name rest read =>
        have presents := readNode_ok_iff.mp read
        split
        · exact lawful_refused _
        · split
          · exact lawful_refused _
          · split
            · exact lawful_refused _
            · next plain =>
              have inNet : InNet netid (netIdBs ++ sent) :=
                ⟨by rw [List.length_append, four]; omega, by rw [← four, List.take_left]; exact not_not.mp net⟩
              have unforged : ¬ Forged rt scheme sent node := fun forged => plain (honest inNet node forged)
              have owns := owns_of_unforged presents unforged host isSuper
              have named := named_of_unforged presents unforged
              dsimp only
              cases isSuper with
              | true =>
                split
                · exact lawful_addNode owns rfl rfl nofun
                · exact lawful_addNode owns rfl rfl named
              | false =>
                split
                · exact lawful_addProxyNode owns nofun
                · exact lawful_addProxyNode owns named

/-- The side that connects is lawful with a peer that sends no forged node. -/
theorem sendKey_lawful {linked : Multihash → Bool} {host : String} {wrote : Bool} {allNodes : List Multihash}
    (honest : ∀ node, ¬ Forged rt scheme input node) :
    Lawful rt scheme input peers (sendKey rt scheme linked peers input host wrote allNodes) := by
  rw [sendKey]
  split
  · exact lawful_refused _
  · split
    · exact lawful_refused _
    · next node name after read =>
      have presents := readNode_ok_iff.mp read
      split
      · exact lawful_refused _
      · have owns := owns_of_unforged presents (honest node) host true
        dsimp only
        split
        · exact lawful_addNode owns rfl rfl nofun
        · exact lawful_addNode owns rfl rfl (named_of_unforged presents (honest node))

/-- A node without peers that has another id. -/
def stranger (name : Multihash) : Peers := { manager := { nodeSelf := name ++ [0] } }

theorem ne_stranger : name ≠ (stranger name).manager.nodeSelf := by
  intro same
  have longer := congrArg List.length same
  simp [stranger] at longer

/-- A forged node that does not say it is a super node is accepted by a node without peers. -/
theorem recvKey_forged (inNet : InNet netid input) (presents : Presents rt scheme (input.drop 4) node name rest)
    (plain : node.isSuper = false) (host : String) :
    (recvKey rt scheme netid (stranger name) input host (true, true) false []).1 = .ok name := by
  have first : readFull 4 input = .ok (input.take 4, input.drop 4) := by rw [readFull, if_pos inNet.1]
  simp [recvKey, first, inNet.2, readNode_ok_iff.mpr presents, ne_stranger, plain]

/-- A forged node is stored by a node without peers that connects to it, also when nothing else is sent. -/
theorem sendKey_forged (presents : Presents rt scheme input node name rest) (host : String) :
    (sendKey rt scheme (fun _ => false) (stranger name) input host true []).2.nodes.load name =
      some { node with addr := host, isSuper := true } := by
  rw [sendKey, if_neg (by decide), readNode_ok_iff.mpr presents]
  dsimp only
  rw [if_neg Bool.false_ne_true]
  split
  · exact Peers.addNode_first ne_stranger
  · exact Peers.addNode_first ne_stranger

/-- Whatever the tables, the writes and the reach of the peer, both sides are lawful exactly with the bytes that hold
no forged node; the side that was connected to refuses those of another network, and those that say they come from a
super node. -/
theorem names_owned_iff (rt : Runtime) (scheme : Scheme) (netid : ℕ) (input : Bytes) :
    ((∀ peers host wrote isSuper allNodes, Lawful rt scheme (input.drop 4) peers
        (recvKey rt scheme netid peers input host wrote isSuper allNodes)) ↔
      (InNet netid input → ∀ node, Forged rt scheme (input.drop 4) node → node.isSuper = true)) ∧
    ((∀ linked peers host wrote allNodes, Lawful rt scheme input peers
        (sendKey rt scheme linked peers input host wrote allNodes)) ↔ ∀ node, ¬ Forged rt scheme input node) := by
  refine ⟨⟨?_, fun honest _ _ _ _ _ => recvKey_lawful honest⟩, ⟨?_, fun honest _ _ _ _ _ => sendKey_lawful honest⟩⟩
  · rintro lawful inNet node ⟨name, rest, presents, other⟩
    by_contra plain
    have accepted := recvKey_forged inNet presents (Bool.not_eq_true _ ▸ plain) ""
    obtain ⟨again, rest', presents', owns⟩ := (lawful _ _ _ _ _).named name accepted
    cases (presents.unique presents').1
    exact other owns.derived
  · rintro lawful node ⟨name, rest, presents, other⟩
    have stored := sendKey_forged presents ""
    rcases (lawful _ _ _ _ _).nodes name _ stored with before | owns
    · cases before
    · exact other owns.derived

/-! ## Another node's id -/

/-- The signature of a key over a message, written out. -/
def signatureText (key message : Bytes) : String := String.ofList (Base64.encode (key ++ message))

/-- A scheme in which the signature of a key over a message is their text. -/
def textScheme : Scheme where
  Key := Bytes
  pukBytes key := key
  Signs key message sign := sign = signatureText key message
  verifyS256 message puk sign := sign = signatureText puk message
  verify_iff message puk sign := by simp

/-- The id of the key `[1, 2, 3]`, when hashes are left out. -/
def victim : Multihash := [0x16, 4, 0x41, 0x51, 0x49, 0x44]

/-- What the holder of the key `[4, 5, 6]` sends: the id of the other key with its own signature. -/
def forged : Json :=
  .obj [("idinfo", .obj [("id", Json.ofBytes? (some victim)), ("puk", Json.ofBytes [4, 5, 6]),
    ("sign", .str (signatureText [4, 5, 6] victim)), ("ctype", .str "")]), ("issuper", .bool false)]

/-- A runtime that reads the text of `forged`. -/
def forgedRuntime : Runtime where
  sha3 bytes := bytes
  hash160 bytes := bytes
  unmarshal bytes := if bytes = forged.bytes then some forged else none

/-- The node that is read from it. -/
def forgedNode : Node where
  idInfo := { id := some victim, puk := [4, 5, 6], sign := signatureText [4, 5, 6] victim }

theorem parseNode_forged : parseNode forgedRuntime forged.bytes = some forgedNode := by
  have read : forgedRuntime.unmarshal forged.bytes = some forged := by simp [forgedRuntime]
  rw [parseNode, read]
  simp [forged, forgedNode, Json.decodeMembers, Node.setMember, IdInfo.setMember, Json.named, Json.foldChar, getString,
    getBool]

/-- The handshake of that peer with a node of another id. -/
def forgedHandshake : Except AuthError Multihash × Peers :=
  recvKey forgedRuntime textScheme 2 { manager := { nodeSelf := [0x16, 1, 9] } }
    ([0, 0, 0, 2] ++ ([0, 90] ++ forged.bytes)) "" (true, true) false []

theorem forgedHandshake_eq : forgedHandshake =
    (.ok victim, Peers.addProxyNode { manager := { nodeSelf := [0x16, 1, 9] } } victim forgedNode) := by
  have length : forged.bytes.length = 90 := by decide +kernel
  have first : readFull 4 ([0, 0, 0, 2] ++ ([0, 90] ++ forged.bytes)) = .ok ([0, 0, 0, 2], [0, 90] ++ forged.bytes) :=
    readFull_ok_iff.mpr ⟨rfl, rfl⟩
  have size : readFull 2 ([0, 90] ++ forged.bytes) = .ok ([0, 90], forged.bytes ++ []) :=
    readFull_ok_iff.mpr ⟨by rw [List.append_nil], rfl⟩
  have read : readNode forgedRuntime textScheme ([0, 90] ++ forged.bytes) = .ok (forgedNode, victim, []) :=
    readNode_ok_iff.mpr ⟨⟨[0, 90], forged.bytes, size, length, parseNode_forged⟩, rfl, [4, 5, 6], rfl, rfl⟩
  have net : BigEndian.number [0, 0, 0, 2] = 2 := by decide
  have other : victim ≠ [0x16, 1, 9] := by decide
  rw [forgedHandshake, recvKey, first]
  dsimp only
  rw [if_neg (not_not.mpr net), read]
  dsimp only
  rw [if_neg other]
  rfl

/-- The peer is accepted under the id of the other key, and put into the table of nodes under it. -/
theorem forged_accepted : parseNode forgedRuntime forged.bytes = some forgedNode ∧ forgedHandshake.1 = .ok victim ∧
    forgedHandshake.2.proxys.load victim = some forgedNode ∧ idOfPuk forgedRuntime [1, 2, 3] = some victim ∧
    idOfPuk forgedRuntime forgedNode.idInfo.puk ≠ some victim := by
  rw [forgedHandshake_eq]
  exact ⟨parseNode_forged, rfl, rfl, by decide, by decide⟩

end PolarCloud.Auth
