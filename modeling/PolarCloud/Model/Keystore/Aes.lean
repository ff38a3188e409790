import Mathlib.Data.Nat.Notation
import PolarCloud.Base.Base64

/-! # The cipher of the key store

AES in CBC mode belongs to the library: it transforms whole blocks, and only these. The key is padded to sixteen
bytes, and serves as the first vector too. Results are nothing after a panic, or an error with its text.
-/

namespace PolarCloud.Keystore

def blockSize : ℕ := 16

/-- `CryptBlocks` of the encrypter and of the decrypter, for a key, a first vector and whole blocks. -/
structure Aes where
  encryptBlocks : Bytes → Bytes → Bytes → Bytes
  decryptBlocks : Bytes → Bytes → Bytes → Bytes
  length_encryptBlocks : ∀ key iv text, (encryptBlocks key iv text).length = text.length
  length_decryptBlocks : ∀ key iv text, (decryptBlocks key iv text).length = text.length
  decryptBlocks_encryptBlocks : ∀ key iv text, iv.length = blockSize → text.length % blockSize = 0 →
    decryptBlocks key iv (encryptBlocks key iv text) = text

/-- The library's error about a key of this many bytes. -/
def invalidKeySize (length : ℕ) : String := "crypto/aes: invalid key size " ++ toString length

/-- `aes.NewCipher` -/
def newCipher (key : Bytes) : Except String Unit :=
  if key.length = 16 ∨ key.length = 24 ∨ key.length = 32 then .ok () else .error (invalidKeySize key.length)

/-- A CBC mode over blocks: the vector must be as long as a block, and the text must consist of whole blocks. -/
def cryptBlocks (crypt : Bytes → Bytes) (iv text : Bytes) : Option Bytes :=
  if iv.length ≠ blockSize then none
  else if text.length % blockSize ≠ 0 then none
  else some (crypt text)

def keyPadding (key : Bytes) : Bytes :=
  if 16 < key.length then key else key ++ List.replicate (16 - key.length) 0

def pkcs7Padding (text : Bytes) : Bytes :=
  let padding := blockSize - text.length % blockSize
  text ++ List.replicate padding (UInt8.ofNat padding)

/-- Cut off as many bytes as the last one says, if there are more of them; an empty text is a panic. -/
def pkcs7UnPadding (text : Bytes) : Option Bytes := do
  let last ← text.getLast?
  let unpadding := last.toNat
  some (text.take (if unpadding < text.length then text.length - unpadding else text.length))

section Cipher

variable (aes : Aes)

def encrypt (plantText key : Bytes) : Option (Except String Bytes) :=
  let key := keyPadding key
  match newCipher key with
  | .error text => some (.error text)
  | .ok _ => (cryptBlocks (aes.encryptBlocks key key) key (pkcs7Padding plantText)).map .ok

def decrypt (ciphertext key : Bytes) : Option (Except String Bytes) :=
  let key := keyPadding key
  match newCipher key with
  | .error text => some (.error text)
  | .ok _ => do
      let plantText ← cryptBlocks (aes.decryptBlocks key key) key ciphertext
      let plantText ← pkcs7UnPadding plantText
      some (.ok plantText)

end Cipher

end PolarCloud.Keystore
