import Mathlib.Tactic.Common
import PolarCloud.Model.Keystore.Aes

/-! # What comes back from the cipher

Padding fills up whole blocks, and is taken off again unless it is all there is: the empty text does not come back. A
key of sixteen bytes at most is padded to sixteen; longer ones are refused, or accepted by the cipher and then too long
for a first vector.
-/

namespace PolarCloud.Keystore

/-! ## Padding -/

theorem length_pkcs7Padding (text : Bytes) :
    (pkcs7Padding text).length = text.length + (blockSize - text.length % blockSize) := by
  rw [pkcs7Padding, List.length_append, List.length_replicate]

theorem length_pkcs7Padding_mod (text : Bytes) : (pkcs7Padding text).length % blockSize = 0 := by
  rw [length_pkcs7Padding, blockSize]
  omega

/-- The last byte counts the bytes that were filled in. -/
theorem getLast?_pkcs7Padding (text : Bytes) :
    (pkcs7Padding text).getLast? = some (UInt8.ofNat (blockSize - text.length % blockSize)) := by
  have some : blockSize - text.length % blockSize ≠ 0 := by
    rw [blockSize]
    omega
  rw [pkcs7Padding, List.getLast?_append, List.getLast?_replicate, if_neg some]
  rfl

/-- A text comes back when there is one. -/
theorem pkcs7UnPadding_pkcs7Padding (text : Bytes) :
    pkcs7UnPadding (pkcs7Padding text) = some (if text = [] then pkcs7Padding [] else text) := by
  have byte : (UInt8.ofNat (blockSize - text.length % blockSize)).toNat = blockSize - text.length % blockSize := by
    rw [UInt8.toNat_ofNat', blockSize]
    omega
  rw [pkcs7UnPadding, getLast?_pkcs7Padding]
  simp only [Option.bind_eq_bind, Option.bind_some, byte, length_pkcs7Padding]
  by_cases empty : text = []
  · rw [empty]
    rfl
  · have positive : 0 < text.length := List.length_pos_iff.mpr empty
    rw [if_pos (by omega), if_neg empty, Nat.add_sub_cancel, pkcs7Padding, List.take_left]

theorem pkcs7UnPadding_eq_none_iff {text : Bytes} : pkcs7UnPadding text = none ↔ text = [] := by
  rw [pkcs7UnPadding]
  cases ends : text.getLast? with
  | none => exact iff_of_true rfl (List.getLast?_eq_none_iff.mp ends)
  | some last =>
    refine iff_of_false nofun ?_
    rintro rfl
    cases ends

/-! ## Keys -/

/-- The library refuses a key of this length. -/
def Refused (key : Bytes) : Prop := 16 < key.length ∧ key.length ≠ 24 ∧ key.length ≠ 32

section Key

variable {aes : Aes} {key : Bytes}

theorem length_keyPadding (short : key.length ≤ 16) : (keyPadding key).length = 16 := by
  rw [keyPadding, if_neg (by omega), List.length_append, List.length_replicate]
  omega

theorem newCipher_short (short : key.length ≤ 16) : newCipher (keyPadding key) = .ok () :=
  if_pos (.inl (length_keyPadding short))

theorem newCipher_refused (refused : Refused key) :
    newCipher (keyPadding key) = .error (invalidKeySize key.length) := by
  obtain ⟨long, other, other'⟩ := refused
  rw [keyPadding, if_pos long, newCipher, if_neg (by omega)]

/-- A longer key of the cipher is too long for a first vector. -/
theorem cryptBlocks_long (crypt : Bytes → Bytes) (long : 16 < key.length) (text : Bytes) :
    cryptBlocks crypt (keyPadding key) text = none := by
  rw [keyPadding, if_pos long, cryptBlocks, if_pos (by rw [blockSize]; omega)]

theorem newCipher_long (long : 16 < key.length) (accepted : ¬ Refused key) :
    newCipher (keyPadding key) = .ok () := by
  have valid : key.length = 24 ∨ key.length = 32 := by
    by_contra other
    rw [not_or] at other
    exact accepted ⟨long, other⟩
  rw [keyPadding, if_pos long]
  exact if_pos (.inr valid)

/-! ## Both directions -/

theorem encrypt_short (short : key.length ≤ 16) (plantText : Bytes) : encrypt aes plantText key =
    some (.ok (aes.encryptBlocks (keyPadding key) (keyPadding key) (pkcs7Padding plantText))) := by
  have vector : (keyPadding key).length = blockSize := length_keyPadding short
  simp only [encrypt, newCipher_short short, cryptBlocks, vector, ne_eq, not_true_eq_false, if_false,
    length_pkcs7Padding_mod, Option.map_some]

theorem decrypt_short (short : key.length ≤ 16) (ciphertext : Bytes) : decrypt aes ciphertext key =
    if ciphertext.length % blockSize ≠ 0 then none
    else (pkcs7UnPadding (aes.decryptBlocks (keyPadding key) (keyPadding key) ciphertext)).map .ok := by
  have vector : (keyPadding key).length = blockSize := length_keyPadding short
  simp only [decrypt, newCipher_short short, cryptBlocks, vector, ne_eq, not_true_eq_false, if_false]
  split
  · rfl
  · rw [Option.bind_eq_bind, Option.bind_some, Option.map_eq_bind]
    rfl

theorem decrypt_short_eq_none_iff (short : key.length ≤ 16) {ciphertext : Bytes} :
    decrypt aes ciphertext key = none ↔ ciphertext = [] ∨ ciphertext.length % blockSize ≠ 0 := by
  rw [decrypt_short short]
  split
  · next broken => exact iff_of_true rfl (.inr broken)
  · next whole =>
    rw [Option.map_eq_none_iff, pkcs7UnPadding_eq_none_iff, ← List.length_eq_zero_iff, aes.length_decryptBlocks,
      List.length_eq_zero_iff, or_iff_left whole]

/-- What was encrypted is decrypted, unless it was the empty text. -/
theorem decrypt_encryptBlocks (short : key.length ≤ 16) (plantText : Bytes) :
    decrypt aes (aes.encryptBlocks (keyPadding key) (keyPadding key) (pkcs7Padding plantText)) key =
      some (.ok (if plantText = [] then pkcs7Padding [] else plantText)) := by
  rw [decrypt_short short, aes.length_encryptBlocks, if_neg (not_not.mpr (length_pkcs7Padding_mod plantText)),
    aes.decryptBlocks_encryptBlocks _ _ _ (length_keyPadding short) (length_pkcs7Padding_mod plantText),
    pkcs7UnPadding_pkcs7Padding, Option.map_some]

theorem encrypt_refused (refused : Refused key) (plantText : Bytes) :
    encrypt aes plantText key = some (.error (invalidKeySize key.length)) := by
  simp only [encrypt, newCipher_refused refused]

theorem decrypt_refused (refused : Refused key) (ciphertext : Bytes) :
    decrypt aes ciphertext key = some (.error (invalidKeySize key.length)) := by
  simp only [decrypt, newCipher_refused refused]

theorem encrypt_long (long : 16 < key.length) (accepted : ¬ Refused key) (plantText : Bytes) :
    encrypt aes plantText key = none := by
  simp only [encrypt, newCipher_long long accepted, cryptBlocks_long _ long, Option.map_none]

end Key

/-! ## The round trip -/

/-- For a text and a key, what was encrypted is decrypted again, and neither this nor a ciphertext is a panic. -/
structure RoundTrip (aes : Aes) (plantText key ciphertext : Bytes) : Prop where
  back : ∀ encrypted, encrypt aes plantText key = some (.ok encrypted) →
    decrypt aes encrypted key = some (.ok plantText)
  encrypts : encrypt aes plantText key ≠ none
  decrypts : decrypt aes ciphertext key ≠ none

/-- The round trip succeeds for a key that is refused, and otherwise for a key of sixteen bytes at most, a text that is
not empty and a ciphertext of one or more whole blocks. -/
theorem encrypt_round_trip_iff (aes : Aes) (plantText key ciphertext : Bytes) :
    RoundTrip aes plantText key ciphertext ↔ Refused key ∨
      (key.length ≤ 16 ∧ plantText ≠ [] ∧ ciphertext ≠ [] ∧ ciphertext.length % blockSize = 0) := by
  by_cases refused : Refused key
  · refine iff_of_true ⟨fun encrypted done => ?_, ?_, ?_⟩ (.inl refused)
    · rw [encrypt_refused refused] at done
      cases done
    · rw [encrypt_refused refused]
      exact Option.some_ne_none _
    · rw [decrypt_refused refused]
      exact Option.some_ne_none _
  rw [or_iff_right refused]
  by_cases short : key.length ≤ 16
  · rw [and_iff_right short]
    constructor
    · rintro ⟨back, -, decrypts⟩
      have whole := mt (decrypt_short_eq_none_iff short).mpr decrypts
      rw [not_or, not_not] at whole
      refine ⟨?_, whole⟩
      rintro rfl
      have padding := back _ (encrypt_short short [])
      rw [decrypt_encryptBlocks short, if_pos rfl] at padding
      exact absurd padding (by decide)
    · rintro ⟨nonempty, some, whole⟩
      refine ⟨fun encrypted done => ?_, ?_, ?_⟩
      · rw [encrypt_short short] at done
        cases done
        rw [decrypt_encryptBlocks short, if_neg nonempty]
      · rw [encrypt_short short]
        exact Option.some_ne_none _
      · rw [Ne, decrypt_short_eq_none_iff short, not_or, not_not]
        exact ⟨some, whole⟩
  · have long : 16 < key.length := Nat.lt_of_not_le short
    exact iff_of_false (fun trip => trip.encrypts (encrypt_long long refused plantText)) fun all => short all.1

/-- A cipher that leaves every block as it is. -/
def plainAes : Aes where
  encryptBlocks _ _ text := text
  decryptBlocks _ _ text := text
  length_encryptBlocks _ _ _ := rfl
  length_decryptBlocks _ _ _ := rfl
  decryptBlocks_encryptBlocks _ _ _ _ _ := rfl

/-- The empty text comes back as a block of padding; a key of 24 bytes and a ciphertext without a block are panics. -/
theorem empty_text_padded : (∃ encrypted, encrypt plainAes [] [1] = some (.ok encrypted) ∧
      decrypt plainAes encrypted [1] = some (.ok (List.replicate 16 16))) ∧
    encrypt plainAes [1] (List.replicate 24 1) = none ∧ decrypt plainAes [] [1] = none ∧
    ¬ ∀ plantText key ciphertext, RoundTrip plainAes plantText key ciphertext := by
  refine ⟨⟨_, rfl, by decide⟩, by decide, by decide, fun all => ?_⟩
  exact (all [1] [1] []).decrypts (by decide)

end PolarCloud.Keystore
