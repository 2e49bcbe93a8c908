import PropertyGraph.Digest.Sha256

namespace PropertyGraph.Hmac

/-- The length in bytes of the blocks that the digest works on. -/
def blockSize : Nat := 64

/-- The secret as one block: digested if it is too long, then filled up with zeros. -/
def blockKey (secret : List UInt8) : List UInt8 :=
  let key := if blockSize < secret.length then Sha256.digest secret else secret
  key ++ List.replicate (blockSize - key.length) 0

/-- The keyed digest of a message. -/
def tag (secret message : List UInt8) : List UInt8 :=
  let key := blockKey secret
  let inner := Sha256.digest (key.map (· ^^^ 0x36) ++ message)
  Sha256.digest (key.map (· ^^^ 0x5c) ++ inner)

end PropertyGraph.Hmac
