/-
  Access tokens.

  A token has three segments in base 64 with points between them: a header that names the way of
  signing, the claims, and the signature of the two.  Tokens are signed with a keyed hash.  A token
  is valid at a time if its signature is right, it is from the right issuer, and the time lies
  between its bounds.
-/
import JavaToCpp.Hash.Sha2
import JavaToCpp.Number.Word
import JavaToCpp.Json.Fields
import JavaToCpp.Text.Base64Url
import JavaToCpp.Text.Literal
import JavaToCpp.Time.Timestamp

namespace JavaToCpp.Access

def issuer : Text := "transpiler"

def grammarAdmin : Text := "grammar:admin"

/-- What a token says.  Times are in seconds from the beginning of 1970. -/
structure Claims where
  scopes : List Text := []
  issuer : Text := []
  subject : Text := []
  expires : Option Int := none
  notBefore : Option Int := none
  issuedAt : Option Int := none
deriving DecidableEq, Repr, Inhabited

namespace Claims

def hasScope (c : Claims) (scope : Text) : Bool := c.scopes.contains scope

/-- For how many seconds the token is valid from its issue on, up to the longest duration. -/
def lifetime (c : Claims) : Option Int := do
  let span := (← c.expires) - (← c.issuedAt)
  return max (-Duration.maxSeconds) (min Duration.maxSeconds span)

/-! ## Reading -/

/-- The seconds from the beginning of the year 1 to that of 1970. -/
def beforeEpoch : Int := 62135596800

/-- A point in time in whole seconds.  Times that do not have 64 bits, counted from the beginning
    of the year 1, count as the least one. -/
def secondsOf (x : Binary64) : Int :=
  let (numerator, denominator) := x.ratio
  let magnitude : Int := Int.ofNat (numerator / denominator)
  let nanos := numerator % denominator * 1000000000 / denominator
  let seconds := if x.negative then (if nanos = 0 then -magnitude else -magnitude - 1) else magnitude
  if Text.fitsWord seconds && Text.fitsWord (seconds + beforeEpoch) then seconds else -Text.wordBound

/-- A time: a number, or a text that is one; a null is no time. -/
def readTime : Json → Option (Option Int)
  | .null => some none
  | .number literal => (Json.toBinary64? literal).map fun x => some (secondsOf x)
  | .string t =>
    match Json.read t with
    | .ok (.number literal) =>
      if literal = t then (Json.toBinary64? literal).map fun x => some (secondsOf x) else none
    | _ => none
  | _ => none

/-- Claims while they are read.  Members that give scopes again write over those given before, and
    what they do not reach stays behind. -/
structure Draft where
  claims : Claims := {}
  /-- the texts behind the scopes, left by earlier and longer members -/
  behind : List Text := []

/-- Texts written over others, of which a null leaves its own. -/
def readTexts (before : List Text) : List Json → Option (List Text)
  | [] => some []
  | v :: vs => do
    let t ← Json.readText (before.head?.getD []) v
    return t :: (← readTexts before.tail vs)

/-- Scopes; a null and an empty list leave nothing behind. -/
def readScopes (d : Draft) : Json → Option Draft
  | .null | .array [] => some ⟨{ d.claims with scopes := [] }, []⟩
  | .array items =>
    let before := d.claims.scopes ++ d.behind
    (readTexts before items).map fun scopes =>
      ⟨{ d.claims with scopes }, before.drop items.length⟩
  | _ => none

/-- Whether a value is right for the audience: a text, texts, or nothing. -/
def isAudience : Json → Bool
  | .null => true
  | .string _ => true
  | .array items => items.all fun
    | .string _ => true
    | _ => false
  | _ => false

def fields : List Text := ["scopes", "iss", "sub", "aud", "exp", "nbf", "iat", "jti"]

def readPlainField (c : Claims) (field : Text) (v : Json) : Option Claims :=
  if field = Text.ofString "iss" then
    (Json.readText c.issuer v).map fun issuer => { c with issuer }
  else if field = Text.ofString "sub" then
    (Json.readText c.subject v).map fun subject => { c with subject }
  else if field = Text.ofString "aud" then if isAudience v then some c else none
  else if field = Text.ofString "exp" then (readTime v).map fun expires => { c with expires }
  else if field = Text.ofString "nbf" then (readTime v).map fun notBefore => { c with notBefore }
  else if field = Text.ofString "iat" then (readTime v).map fun issuedAt => { c with issuedAt }
  else (Json.readText [] v).map fun _ => c

def readField (d : Draft) (field : Text) (v : Json) : Option Draft :=
  if field = Text.ofString "scopes" then readScopes d v
  else (readPlainField d.claims field v).map fun claims => { d with claims }

def read? (t : Text) : Option Claims :=
  match Json.read t with
  | .ok v => (Json.readFields fields {} readField v).map Draft.claims
  | .error _ => none

/-! ## Writing -/

/-- A member for a time, none without it. -/
def writeTime (name : String) (t : Option Int) : List (Text × Json) :=
  (t.map fun t => (Text.ofString name, Json.int t)).toList

/-- A member for a text, none for an empty one. -/
def writeText (name : String) (t : Text) : List (Text × Json) :=
  if t.isEmpty then [] else [(Text.ofString name, .string t)]

def toJson (c : Claims) : Json :=
  .object ((Text.ofString "scopes", .array (c.scopes.map .string)) :: writeText "iss" c.issuer ++
    writeText "sub" c.subject ++ writeTime "exp" c.expires ++ writeTime "nbf" c.notBefore ++
    writeTime "iat" c.issuedAt)

end Claims

inductive Fault where
  | malformed
  | unverifiable
  | badSignature
  | expired
  | tooEarly
  | wrongIssuer
  | noIssuer
deriving DecidableEq, Repr

def Fault.name : Fault → Text
  | malformed => "malformed"
  | unverifiable => "unverifiable"
  | badSignature => "signature_invalid"
  | expired => "expired"
  | tooEarly => "not_valid_yet"
  | wrongIssuer => "invalid_issuer"
  | noIssuer => "claim_missing"

def methods : List String := [
  "HS256", "HS384", "HS512", "RS256", "RS384", "RS512", "PS256", "PS384", "PS512", "ES256",
  "ES384", "ES512", "EdDSA", "none"]

def keyedMethods : List (String × (Text → Text → Text)) := [
  ("HS256", Hash.Sha2.sha256.keyed), ("HS384", Hash.Sha2.sha384.keyed),
  ("HS512", Hash.Sha2.sha512.keyed)]

def keyedMethod? (name : Text) : Option (Text → Text → Text) :=
  (keyedMethods.find? fun m => Text.ofString m.1 == name).map Prod.snd

namespace Token

def message (header claims : Text) : Text :=
  Text.toBase64Url header ++ "." ++ Text.toBase64Url claims

def assemble (secret header claims : Text) : Text :=
  let m := message header claims
  m ++ "." ++ Text.toBase64Url (Hash.Sha2.sha256.keyed secret m)

def header : Text := Json.write (.object [("alg", .string "HS256"), ("typ", .string "JWT")])

def sign (secret : Text) (c : Claims) : Text := assemble secret header c.toJson.write

def issue (secret : Text) (span : Int) (now : Timestamp) (subject : Text) (scopes : List Text) :
    Text :=
  sign secret
    { scopes, issuer, subject
      expires := some ((now + toWord span).fdiv Duration.second)
      issuedAt := some (now.fdiv Duration.second) }

def methodOf (header : Text) : Except Fault Text :=
  match Json.read header with
  | .error _ => .error .malformed
  | .ok v =>
    match v.settle with
    | some (.object members) =>
      match Json.findIn? "alg" members with
      | some (.string name) => if methods.any (fun m => Text.ofString m == name) then .ok name else .error .unverifiable
      | _ => .error .unverifiable
    | some .null => .error .unverifiable
    | _ => .error .malformed

def segment (t : Text) : Except Fault Text :=
  match Text.ofBase64Url? t with
  | some s => .ok s
  | none => .error .malformed

/-- What is wrong with claims at a time, the most important fault first. -/
def faultsAt (c : Claims) (now : Timestamp) : List Fault :=
  (if c.expires.any fun t => t * Duration.second ≤ now then [.expired] else []) ++
    (if c.notBefore.any fun t => now < t * Duration.second then [.tooEarly] else []) ++
    (if c.issuer.isEmpty then [.noIssuer]
      else if c.issuer = issuer then [] else [.wrongIssuer])

def verify (secret : Text) (now : Timestamp) (token : Text) : Except Fault Claims :=
  match token.splitOnP (· == Text.byte '.') with
  | [h, c, s] => do
    let header ← segment h
    let text ← segment c
    let claims ← match Claims.read? text with
      | some claims => pure claims
      | none => throw .malformed
    let method ← methodOf header
    let signature ← segment s
    match keyedMethod? method with
    | none => throw .unverifiable
    | some code => if signature != code secret (h ++ "." ++ c) then throw .badSignature
    match faultsAt claims now with
    | [] => return claims
    | f :: _ => throw f
  | _ => .error .malformed

end Token

inductive Denial where
  | invalid (f : Fault)
  | noScope (scope : Text)
deriving DecidableEq, Repr

def missingScope (scope : Text) : Text := "token missing scope: " ++ scope

def authorize (secret : Text) (now : Timestamp) (token scope : Text) : Except Denial Claims := do
  let c ← (Token.verify secret now token).mapError .invalid
  if c.hasScope scope then return c else throw (.noScope scope)

end JavaToCpp.Access
