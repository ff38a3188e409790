import PolarCloud.Model.Engine.Package

/-! # Frames of a stream

What a call of `recvPackage` does is said in terms of the bytes that are still to come: those in `temp`
and those on the connection. How they are cut into pieces shows only in how far the array of `temp`
reaches.
-/

namespace PolarCloud.Engine

/-! ## The frame at the front of a stream -/

def frameSize (stream : Bytes) : UInt64 := uint64 (stream.take 8)

def frameDataSize (stream : Bytes) : UInt64 := uint64 ((stream.drop 8).take 8)

def frameNet (stream : Bytes) : ℕ := LittleEndian.get ((stream.drop 16).take 4)

/-- What a packet brings. -/
structure Content where
  msgID : UInt64
  data : Bytes
  dataplus : Bytes
deriving DecidableEq, Repr

def Packet.content (packet : Packet) : Content := ⟨packet.msgID, packet.data, packet.dataplus⟩

def frameContent (stream : Bytes) : Content where
  msgID := uint64 ((stream.drop 20).take 8)
  data := (stream.drop 28).take ((frameDataSize stream).toNat - 12)
  dataplus := (stream.take (frameSize stream).toNat).drop (16 + (frameDataSize stream).toNat)

/-- The front of the stream is a whole frame of a length that is accepted. -/
structure Complete (stream : Bytes) : Prop where
  least : 28 ≤ (frameSize stream).toNat
  most : (frameSize stream).toNat ≤ maxSize
  whole : (frameSize stream).toNat ≤ stream.length

/-- The length of the inner part fits into the frame. -/
structure Fits (stream : Bytes) : Prop where
  least : 12 ≤ (frameDataSize stream).toNat
  most : 16 + (frameDataSize stream).toNat ≤ (frameSize stream).toNat

instance (stream : Bytes) : Decidable (Complete stream) :=
  decidable_of_iff (28 ≤ (frameSize stream).toNat ∧ (frameSize stream).toNat ≤ maxSize ∧
    (frameSize stream).toNat ≤ stream.length) ⟨fun ⟨least, most, whole⟩ => ⟨least, most, whole⟩,
      fun ⟨least, most, whole⟩ => ⟨least, most, whole⟩⟩

instance (stream : Bytes) : Decidable (Fits stream) :=
  decidable_of_iff (12 ≤ (frameDataSize stream).toNat ∧ 16 + (frameDataSize stream).toNat ≤ (frameSize stream).toNat)
    ⟨fun ⟨least, most⟩ => ⟨least, most⟩, fun ⟨least, most⟩ => ⟨least, most⟩⟩

/-- The bytes that are still to come. -/
def stream (packet : Packet) (conn : Conn) : Bytes := packet.temp ++ conn.flatten

section Front

variable {front rest : Bytes}

theorem frameSize_append (long : 8 ≤ front.length) : frameSize (front ++ rest) = frameSize front := by
  rw [frameSize, List.take_append_of_le_length long, frameSize]

theorem frameDataSize_append (long : 16 ≤ front.length) : frameDataSize (front ++ rest) = frameDataSize front := by
  rw [frameDataSize, List.drop_append_of_le_length (by omega), List.take_append_of_le_length, frameDataSize]
  rw [List.length_drop]
  omega

theorem frameNet_append (long : 20 ≤ front.length) : frameNet (front ++ rest) = frameNet front := by
  rw [frameNet, List.drop_append_of_le_length (by omega), List.take_append_of_le_length, frameNet]
  rw [List.length_drop]
  omega

/-- A frame that fits is read from its own bytes alone. -/
theorem frameContent_append (long : 28 ≤ front.length) (fits : Fits front)
    (whole : (frameSize front).toNat ≤ front.length) : frameContent (front ++ rest) = frameContent front := by
  obtain ⟨least, most⟩ := fits
  rw [frameContent, frameContent, frameSize_append (by omega), frameDataSize_append (by omega)]
  congr 1
  · rw [List.drop_append_of_le_length (by omega), List.take_append_of_le_length]
    rw [List.length_drop]
    omega
  · rw [List.drop_append_of_le_length (by omega), List.take_append_of_le_length]
    rw [List.length_drop]
    omega
  · rw [List.take_append_of_le_length whole]

end Front

/-! ## Reading a frame -/

section Read

variable {spare : Bytes} {packet : Packet} {conn : Conn}

theorem slice?_of_le {array : Bytes} {low high : ℕ} (ordered : low ≤ high) (inside : high ≤ array.length) :
    slice? array low high = some ((array.take high).drop low) := if_pos ⟨ordered, inside⟩

theorem slice?_eq_none {array : Bytes} {low high : ℕ} (outside : high < low ∨ array.length < high) :
    slice? array low high = none := if_neg (by omega)

/-- All of a frame is in `temp`. -/
structure Loaded (packet : Packet) : Prop where
  size : packet.size = frameSize packet.temp
  least : 28 ≤ packet.size.toNat
  whole : packet.size.toNat ≤ packet.temp.length

/-- The end of the inner part as the program computes it, in 64 bits. -/
def innerEnd (stream : Bytes) : ℕ := (frameDataSize stream + 16).toNat

theorem innerEnd_eq (stream : Bytes) :
    innerEnd stream = 16 + (frameDataSize stream).toNat ∨ innerEnd stream < 16 := by
  rw [innerEnd, UInt64.toNat_add, show (16 : UInt64).toNat = 16 from rfl]
  have bound := (frameDataSize stream).toNat_lt
  omega

theorem Loaded.inner (loaded : Loaded packet) :
    slice? ((packet.temp ++ spare).drop 16) 0 4 = some ((packet.temp.drop 16).take 4) ∧
      slice? ((packet.temp ++ spare).drop 16) 4 12 = some ((packet.temp.drop 20).take 8) := by
  have least := loaded.least
  have whole := loaded.whole
  rw [List.drop_append_of_le_length (by omega)]
  have long : 12 ≤ (packet.temp.drop 16).length := by
    rw [List.length_drop]
    omega
  rw [slice?_of_le (by omega) (by rw [List.length_append]; omega),
    slice?_of_le (by omega) (by rw [List.length_append]; omega),
    List.take_append_of_le_length (by omega), List.take_append_of_le_length long, List.drop_zero, List.drop_take,
    List.drop_drop]
  exact ⟨rfl, rfl⟩

/-- A frame that fits: its content and its end, unless it is of another network. -/
theorem readFrame_fits (loaded : Loaded packet) (fits : Fits packet.temp) :
    readFrame spare packet =
      if frameNet packet.temp = netid then
        (none, { packet with
          msgID := (frameContent packet.temp).msgID, data := (frameContent packet.temp).data
          dataplus := (frameContent packet.temp).dataplus, temp := packet.temp.drop packet.size.toNat })
      else (some .otherNet, packet) := by
  obtain ⟨size, small, whole⟩ := loaded
  obtain ⟨least, most⟩ := fits
  obtain ⟨net, msgID⟩ := @Loaded.inner spare packet ⟨size, small, whole⟩
  rw [← size] at most
  have high : innerEnd packet.temp = 16 + (frameDataSize packet.temp).toNat := by
    rw [innerEnd, UInt64.toNat_add, show (16 : UInt64).toNat = 16 from rfl]
    have bound := packet.size.toNat_lt
    omega
  have array : (packet.temp ++ spare).length = packet.temp.length + spare.length := List.length_append
  have inner : slice? (packet.temp ++ spare) 16 (innerEnd packet.temp) =
      some ((packet.temp.drop 16).take (frameDataSize packet.temp).toNat) := by
    rw [slice?_of_le (by omega) (by omega), List.take_append_of_le_length (by omega), List.drop_take, high,
      Nat.add_sub_cancel_left]
  have length : ((packet.temp.drop 16).take (frameDataSize packet.temp).toNat).length =
      (frameDataSize packet.temp).toNat := by
    rw [List.length_take, List.length_drop]
    omega
  have content : slice? ((packet.temp ++ spare).drop 16) 12 (frameDataSize packet.temp).toNat =
      some (frameContent packet.temp).data := by
    rw [List.drop_append_of_le_length (by omega),
      slice?_of_le least (by rw [List.length_append, List.length_drop]; omega),
      List.take_append_of_le_length (by rw [List.length_drop]; omega), List.drop_take, List.drop_drop]
    rfl
  have plus : slice? (packet.temp ++ spare) (innerEnd packet.temp) packet.size.toNat =
      some (frameContent packet.temp).dataplus := by
    rw [slice?_of_le (by omega) (by omega), List.take_append_of_le_length whole, high, frameContent, ← size]
  simp only [readFrame, ← frameDataSize.eq_1, ← innerEnd.eq_1, inner, net, msgID, length, content, plus]
  rw [← frameNet.eq_1]
  by_cases same : frameNet packet.temp = netid
  · rw [if_neg (not_not.mpr same), if_pos same]
    rfl
  · rw [if_pos same, if_neg same]

/-- A frame whose inner length is too small panics once its network id is accepted. -/
theorem readFrame_small (loaded : Loaded packet) (small : (frameDataSize packet.temp).toNat < 12) :
    (readFrame spare packet).1 = if frameNet packet.temp = netid then none else some .otherNet := by
  obtain ⟨net, msgID⟩ := @Loaded.inner spare packet loaded
  obtain ⟨size, least, whole⟩ := loaded
  have high : innerEnd packet.temp = 16 + (frameDataSize packet.temp).toNat := by
    rw [innerEnd, UInt64.toNat_add, show (16 : UInt64).toNat = 16 from rfl]
    omega
  have inner : slice? (packet.temp ++ spare) 16 (innerEnd packet.temp) =
      some (((packet.temp ++ spare).take (innerEnd packet.temp)).drop 16) :=
    slice?_of_le (by omega) (by rw [List.length_append]; omega)
  have length : (((packet.temp ++ spare).take (innerEnd packet.temp)).drop 16).length < 12 := by
    rw [List.length_drop, List.length_take]
    omega
  simp only [readFrame, ← frameDataSize.eq_1, ← innerEnd.eq_1, inner, net, msgID, slice?_eq_none (.inl length)]
  rw [← frameNet.eq_1]
  by_cases same : frameNet packet.temp = netid
  · rw [if_neg (not_not.mpr same), if_pos same]
  · rw [if_pos same, if_neg same]

/-- A frame whose inner length is too large panics when the array ends with the frame. -/
theorem readFrame_large (large : packet.size.toNat < 16 + (frameDataSize packet.temp).toNat)
    (ends : (packet.temp ++ spare).length ≤ packet.size.toNat) : readFrame spare packet = (none, packet) := by
  have outside : slice? (packet.temp ++ spare) 16 (innerEnd packet.temp) = none := by
    apply slice?_eq_none
    rcases innerEnd_eq packet.temp with high | wrapped
    · right
      omega
    · exact .inl wrapped
  simp only [readFrame, ← frameDataSize.eq_1, ← innerEnd.eq_1, outside]

/-! ## One call -/

/-- A call fails before the second part, or all of a frame is in `temp`. -/
inductive Call (spare : Bytes) (packet : Packet) (conn : Conn) : Prop where
  | failed (incomplete : ¬ Complete (stream packet conn)) (err : (recvPackage spare packet conn).1 ≠ none)
  | framed (temp : Bytes) (rest : Conn) (complete : Complete (stream packet conn))
      (split : temp ++ rest.flatten = stream packet conn) (whole : (frameSize (stream packet conn)).toNat ≤ temp.length)
      (filled : Pieces.fill ((frameSize (stream packet conn)).toNat - 16) (frameSize (stream packet conn)).toNat
        (Pieces.fill 16 16 packet.temp conn).1 (Pieces.fill 16 16 packet.temp conn).2 = (temp, rest))
      (call : recvPackage spare packet conn =
        ((readFrame spare { packet with size := frameSize (stream packet conn), temp }).1,
          (readFrame spare { packet with size := frameSize (stream packet conn), temp }).2, rest))

theorem call_cases (spare : Bytes) (packet : Packet) (conn : Conn) : Call spare packet conn := by
  have header := @Pieces.fill_flatten _ 16 16 packet.temp conn
  have enough := @Pieces.fill_enough_iff _ 16 16 (by omega) packet.temp conn
  rcases first : Pieces.fill 16 16 packet.temp conn with ⟨temp, rest⟩
  rw [first, ← stream.eq_1] at header enough
  have header : temp ++ rest.flatten = stream packet conn := header
  have enough : 16 ≤ temp.length ↔ 16 ≤ (stream packet conn).length := enough
  by_cases short : temp.length < 16
  · refine .failed (fun complete => ?_) (by simp [recvPackage, first, short])
    have := complete.least
    have := complete.whole
    omega
  · have size : uint64 (temp.take 8) = frameSize (stream packet conn) := by
      rw [← header, frameSize_append (by omega), frameSize]
    by_cases tooLarge : maxSize < (frameSize (stream packet conn)).toNat
    · refine .failed (fun complete => ?_) (by simp [recvPackage, first, short, size, tooLarge])
      exact absurd complete.most (not_le.mpr tooLarge)
    · by_cases tooSmall : frameSize (stream packet conn) < 28
      · refine .failed (fun complete => ?_) (by simp [recvPackage, first, short, size, tooLarge, tooSmall])
        have least := complete.least
        rw [UInt64.lt_iff_toNat_lt] at tooSmall
        exact absurd tooSmall (not_lt.mpr least)
      · have least : 28 ≤ (frameSize (stream packet conn)).toNat := by
          rw [UInt64.lt_iff_toNat_lt] at tooSmall
          exact not_lt.mp tooSmall
        have body := @Pieces.fill_flatten _ ((frameSize (stream packet conn)).toNat - 16)
          (frameSize (stream packet conn)).toNat temp rest
        have enough := @Pieces.fill_enough_iff _ ((frameSize (stream packet conn)).toNat - 16)
          (frameSize (stream packet conn)).toNat (by omega) temp rest
        rcases second : Pieces.fill ((frameSize (stream packet conn)).toNat - 16) (frameSize (stream packet conn)).toNat
          temp rest with ⟨temp', rest'⟩
        rw [second, header] at body enough
        by_cases missing : temp'.length < (frameSize (stream packet conn)).toNat
        · refine .failed (fun complete => ?_) ?_
          · have whole := complete.whole
            have enough : (frameSize (stream packet conn)).toNat ≤ temp'.length := enough.mpr whole
            omega
          · simp [recvPackage, first, short, size, tooLarge, tooSmall, second, missing]
        · refine .framed temp' rest' ⟨least, not_lt.mp tooLarge, enough.mp (not_lt.mp missing)⟩ body
            (not_lt.mp missing) (by rw [first, second]) ?_
          simp [recvPackage, first, short, size, tooLarge, tooSmall, second, missing]

/-- What is read of the frame at the front is read of the bytes in `temp`. -/
theorem Complete.front {temp : Bytes} {rest : Conn} (complete : Complete (stream packet conn))
    (split : temp ++ rest.flatten = stream packet conn) (whole : (frameSize (stream packet conn)).toNat ≤ temp.length) :
    Loaded { packet with size := frameSize (stream packet conn), temp } ∧
      frameDataSize temp = frameDataSize (stream packet conn) ∧ frameNet temp = frameNet (stream packet conn) := by
  have least := complete.least
  have size : frameSize temp = frameSize (stream packet conn) := by
    rw [← split, frameSize_append (by omega)]
  refine ⟨⟨size.symm, least, whole⟩, ?_, ?_⟩
  · rw [← split, frameDataSize_append (by omega)]
  · rw [← split, frameNet_append (by omega)]

/-- A whole frame of this network that fits is taken off the stream, and its content is set. -/
theorem recvPackage_fits (spare : Bytes) (complete : Complete (stream packet conn)) (fits : Fits (stream packet conn))
    (net : frameNet (stream packet conn) = netid) :
    ∃ packet' conn', recvPackage spare packet conn = (none, packet', conn') ∧
      packet'.content = frameContent (stream packet conn) ∧ packet'.size = frameSize (stream packet conn) ∧
      stream packet' conn' = (stream packet conn).drop (frameSize (stream packet conn)).toNat := by
  cases call_cases spare packet conn with
  | failed incomplete => exact absurd complete incomplete
  | framed temp rest _ split whole _ call =>
    obtain ⟨loaded, inner, front⟩ := complete.front split whole
    have least := complete.least
    have size : frameSize temp = frameSize (stream packet conn) := loaded.size.symm
    have fits : Fits temp := ⟨inner ▸ fits.least, by rw [inner, size]; exact fits.most⟩
    have content : frameContent temp = frameContent (stream packet conn) := by
      rw [← split, frameContent_append (by omega) fits (size ▸ whole)]
    rw [readFrame_fits loaded fits, if_pos (front.trans net)] at call
    refine ⟨_, rest, call, ?_, rfl, ?_⟩
    · rw [← content]
      rfl
    · rw [stream, ← List.drop_append_of_le_length whole, split]

/-- A whole frame that does not belong to this network is refused when its inner part ends inside it. -/
theorem recvPackage_otherNet (complete : Complete (stream packet conn))
    (inside : 16 + (frameDataSize (stream packet conn)).toNat ≤ (frameSize (stream packet conn)).toNat)
    (net : frameNet (stream packet conn) ≠ netid) : (recvPackage spare packet conn).1 = some .otherNet := by
  cases call_cases spare packet conn with
  | failed incomplete => exact absurd complete incomplete
  | framed temp rest _ split whole _ call =>
    obtain ⟨loaded, inner, front⟩ := complete.front split whole
    have other : frameNet temp ≠ netid := front ▸ net
    rw [call]
    by_cases fits : 12 ≤ (frameDataSize temp).toNat
    · have most : 16 + (frameDataSize temp).toNat ≤ (frameSize temp).toNat := by
        rw [inner, ← loaded.size]
        exact inside
      rw [readFrame_fits loaded ⟨fits, most⟩, if_neg other]
    · rw [readFrame_small loaded (not_le.mp fits), if_neg other]

/-- A whole frame of this network whose inner part is too short is taken for a packet. -/
theorem recvPackage_small (complete : Complete (stream packet conn))
    (small : (frameDataSize (stream packet conn)).toNat < 12) (net : frameNet (stream packet conn) = netid) :
    (recvPackage spare packet conn).1 = none := by
  cases call_cases spare packet conn with
  | failed incomplete => exact absurd complete incomplete
  | framed temp rest _ split whole _ call =>
    obtain ⟨loaded, inner, front⟩ := complete.front split whole
    rw [call, readFrame_small loaded (inner ▸ small), if_pos (front.trans net)]

end Read

end PolarCloud.Engine
