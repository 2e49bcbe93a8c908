import PropertyGraph.Digest.Hmac
import PropertyGraph.Error
import PropertyGraph.Query.Json
import PropertyGraph.Text.Hex

namespace PropertyGraph.Json

/-- The bytes that a token is computed over. -/
def canonicalBytes (body : Json) : List UInt8 := body.canonical.toUTF8.toList

def token (secret : List UInt8) (body : Json) : String :=
  Hex.encode (Hmac.tag secret body.canonicalBytes)

/-- Whether a text is the token of a document, in either letter case. -/
def verifies (secret : List UInt8) (body : Json) (token : String) : Bool :=
  Hex.decode? token == some (Hmac.tag secret body.canonicalBytes)

end PropertyGraph.Json

namespace PropertyGraph

def Query.sign (secret : List UInt8) (q : Query) : SignedQuery := ⟨q.toJson.token secret, q⟩

def SignedQuery.isGenuine (secret : List UInt8) (q : SignedQuery) : Bool :=
  q.query.toJson.verifies secret q.token

def SignedQuery.verify (secret : List UInt8) (q : SignedQuery) : Except Error Unit :=
  if q.isGenuine secret then .ok () else .error .badToken

end PropertyGraph
