import Mathlib.Data.Char
import Mathlib.Data.List.Lex
import Mathlib.Data.List.Sort
import RolodexDns.CertificateRequests
import RolodexDns.RecordDatabase
import RolodexDns.RelyGuarantee
import RolodexDns.TextFields

/-! The certificate issuer. An account is created for a key, with a binding that may be used once; an order
is created with an authorization and a challenge for each of its names, all as rows of their own; answering
a challenge validates an authorization and may make the order ready, and a ready order is finalized by
signing the request of its account. Every call of the database is one operation. -/
namespace RolodexDns.AcmeServer
open StoredRecords RecordDatabase ProgramTrees SharedStores RelyGuarantee CertificateRequests TextFields

inductive AcmeStatus where
  | pending
  | ready
  | valid
  | invalid
deriving DecidableEq

def AcmeStatus.asStr : AcmeStatus → Text
  | .pending => "pending"
  | .ready => "ready"
  | .valid => "valid"
  | .invalid => "invalid"

structure AcmeAccount where
  accountId : Text
  jwk : Text
  thumbprint : Text
  contacts : Option Text
  status : AcmeStatus
  eabKid : Option Text
  zone : Option Text
deriving DecidableEq

/-- A credential that one account may be bound with. -/
structure AcmeEab where
  kid : Text
  hmacKey : List UInt8
  zone : Option Text
  used : Bool
deriving DecidableEq

structure AcmeOrder where
  id : Text
  accountId : Text
  status : AcmeStatus
  identifiers : List Text
  authorizations : List Text
  certId : Option Nat
  expiresAt : Int
deriving DecidableEq

structure AcmeAuthorization where
  id : Text
  orderId : Text
  accountId : Text
  identifier : Text
  status : AcmeStatus
  expiresAt : Int
deriving DecidableEq

structure AcmeChallenge where
  id : Text
  authzId : Text
  challengeType : Text
  token : Text
  status : AcmeStatus
  validatedAt : Option Int
deriving DecidableEq

structure AcmeCertificate where
  id : Nat
  domain : Text
  certPem : Text
  chainPem : Text
  expiresAt : Int
deriving DecidableEq

structure Nonce where
  nonce : Text
  createdAt : Int
deriving DecidableEq

/-- The tables of the issuer, the global records, the time, and the random texts yet to be drawn. -/
structure AcmeStore where
  clock : Int
  entropy : Nat → Option Text
  accounts : List AcmeAccount
  eabs : List AcmeEab
  nonces : List Nonce
  orders : List AcmeOrder
  authorizations : List AcmeAuthorization
  challenges : List AcmeChallenge
  certificates : List AcmeCertificate
  rootCa : Option CaPair
  zoneCas : List (Text × CaPair)
  records : List DnsRecord

section

inductive AcmeOp where
  | now
  | randomToken (bytes : Nat)
  | generateKey
  | storeNonce (nonce : Text)
  | consumeNonce (nonce : Text)
  | createAcmeAccount (account : AcmeAccount)
  | getAcmeAccount (accountId : Text)
  | getAcmeAccountByThumbprint (thumbprint : Text)
  | getEab (kid : Text)
  | markEabUsed (kid : Text)
  | getRootCa
  | getZoneCa (zone : Text)
  | listZoneCas
  | storeZoneCa (zone : Text) (ca : CaPair)
  | issueLeaf (zone csrPem : Text) (validityDays : Int) (allowedNames : List Text)
  | storeAcmeCertificate (domain certPem chainPem : Text) (expiresAt : Int)
  | createOrder (order : AcmeOrder)
  | getOrder (id : Text)
  | updateOrder (id : Text) (status : AcmeStatus) (certId : Option Nat)
  | createAuthorization (authz : AcmeAuthorization)
  | getAuthorization (id : Text)
  | updateAuthorizationStatus (id : Text) (status : AcmeStatus)
  | createChallenge (challenge : AcmeChallenge)
  | getChallenge (id : Text)
  | updateChallengeStatus (id : Text) (status : AcmeStatus) (validatedAt : Option Int)
  | lookup (name : Text) (kind : Option RecordKind)
  | addRecord (record : DnsRecord)
  | removeRecords (name : Text) (kind : Option RecordKind) (value : Text)
  /-- Time passes; no program of the server does this. -/
  | passTime (seconds : Nat)

/-- Creating a row tells whether its key was free. -/
abbrev AcmeRes : AcmeOp → Type
  | .now => Int
  | .randomToken _ | .generateKey => Option Text
  | .consumeNonce _ => Bool
  | .createAcmeAccount _ | .createOrder _ | .createAuthorization _ | .createChallenge _ => Bool
  | .getAcmeAccount _ | .getAcmeAccountByThumbprint _ => Option AcmeAccount
  | .getEab _ => Option AcmeEab
  | .getRootCa | .getZoneCa _ => Option CaPair
  | .listZoneCas => List Text
  | .issueLeaf _ _ _ _ => Except Text IssuedLeaf
  | .storeAcmeCertificate _ _ _ _ => Nat
  | .getOrder _ => Option AcmeOrder
  | .getAuthorization _ => Option AcmeAuthorization
  | .getChallenge _ => Option AcmeChallenge
  | .lookup _ _ => List DnsRecord
  | _ => Unit

def nonceTtlSecs : Int := 3600

def maxOutstandingNonces : Nat := 1024

def insertRow {α : Type} (key : α → Text) (rows : List α) (row : α) : Bool × List α :=
  if rows.any (key · = key row) then (false,rows) else (true,rows++[row])

def updateRows {α : Type} (key : α → Text) (id : Text) (change : α → α) (rows : List α) : List α :=
  rows.map fun row => if key row=id then change row else row

/-- The rows are in the order they were inserted in. -/
def storeNonce (now : Int) (nonce : Text) (nonces : List Nonce) : List Nonce :=
  let inserted := if nonces.any (·.nonce=nonce) then nonces else nonces++[⟨nonce,now⟩]
  let unexpired := inserted.filter fun n => now - nonceTtlSecs ≤ n.createdAt
  let excess := (unexpired.reverse.insertionSort fun a b => b.createdAt ≤ a.createdAt).drop maxOutstandingNonces
  unexpired.filter fun n => n.nonce∉excess.map (·.nonce)

/-- Certificates, digests and encodings; the issuer builds most of them over its libraries. -/
structure AcmeLibrary where
  toLowercase : Text → Text
  rcgen : Rcgen
  /-- The digest of a key authorization as it stands in a record. -/
  dns01TxtValue : Text → Text
  jwkThumbprint : Text → Except Text Text
  decodeBase64Url : Text → Except Text (List UInt8)
  derToPem : Text → List UInt8 → Text
  /-- A new intermediate for the zone with the given key, signed by the root. -/
  signIntermediate : CaPair → Text → Text → Except Text CaPair
  generateTlsaRecord : Text → Except Text Text

variable (lib : AcmeLibrary)

def AcmeStore.exec (s : AcmeStore) : (o : AcmeOp) → AcmeRes o × AcmeStore
  | .now => (s.clock,s)
  | .randomToken _ => (s.entropy 0,{ s with entropy := fun n => s.entropy (n+1) })
  | .generateKey => (s.entropy 0,{ s with entropy := fun n => s.entropy (n+1) })
  | .storeNonce nonce => ((),{ s with nonces := storeNonce s.clock nonce s.nonces })
  | .consumeNonce nonce =>
    let spent := fun n : Nonce => n.nonce=nonce && s.clock - nonceTtlSecs ≤ n.createdAt
    (s.nonces.any spent,{ s with nonces := s.nonces.filter fun n => !spent n })
  | .createAcmeAccount account =>
    let r := insertRow AcmeAccount.accountId s.accounts account
    (r.1,{ s with accounts := r.2 })
  | .getAcmeAccount accountId => (s.accounts.find? (·.accountId=accountId),s)
  | .getAcmeAccountByThumbprint thumbprint => (s.accounts.find? (·.thumbprint=thumbprint),s)
  | .getEab kid => (s.eabs.find? (·.kid=kid),s)
  | .markEabUsed kid => ((),{ s with eabs := updateRows AcmeEab.kid kid (fun e => { e with used := true }) s.eabs })
  | .getRootCa => (s.rootCa,s)
  | .getZoneCa zone => (s.zoneCas.lookup (normalizeName lib.toLowercase zone),s)
  | .listZoneCas => ((s.zoneCas.map Prod.fst).insertionSort (· ≤ ·),s)
  | .storeZoneCa zone ca =>
    let normalized := normalizeName lib.toLowercase zone
    ((),{ s with zoneCas := s.zoneCas.filter (·.1≠normalized)++[(normalized,ca)] })
  | .issueLeaf zone csrPem validityDays allowedNames =>
    (issueLeaf lib.rcgen lib.toLowercase (s.zoneCas.lookup (normalizeName lib.toLowercase zone))
      s.clock zone csrPem validityDays allowedNames,s)
  | .storeAcmeCertificate domain certPem chainPem expiresAt =>
    let id := s.certificates.length+1
    (id,{ s with certificates := s.certificates++[⟨id,domain,certPem,chainPem,expiresAt⟩] })
  | .createOrder order =>
    let r := insertRow AcmeOrder.id s.orders order
    (r.1,{ s with orders := r.2 })
  | .getOrder id => (s.orders.find? (·.id=id),s)
  | .updateOrder id status certId =>
    ((),{ s with
      orders := updateRows AcmeOrder.id id (fun o => { o with status := status, certId := certId }) s.orders })
  | .createAuthorization authz =>
    let r := insertRow AcmeAuthorization.id s.authorizations authz
    (r.1,{ s with authorizations := r.2 })
  | .getAuthorization id => (s.authorizations.find? (·.id=id),s)
  | .updateAuthorizationStatus id status =>
    ((),{ s with
      authorizations := updateRows AcmeAuthorization.id id (fun a => { a with status := status }) s.authorizations })
  | .createChallenge challenge =>
    let r := insertRow AcmeChallenge.id s.challenges challenge
    (r.1,{ s with challenges := r.2 })
  | .getChallenge id => (s.challenges.find? (·.id=id),s)
  | .updateChallengeStatus id status validatedAt =>
    ((),{ s with
      challenges := updateRows AcmeChallenge.id id
        (fun c => { c with status := status, validatedAt := validatedAt }) s.challenges })
  | .lookup name kind => (lookup lib.toLowercase s.records name kind,s)
  | .addRecord record =>
    ((),{ s with records := s.records++[{ record with name := normalizeName lib.toLowercase record.name }] })
  | .removeRecords name kind value =>
    ((),{ s with records := s.records.filter fun r =>
      !(r.name=normalizeName lib.toLowercase name && kind.all (r.recordType = ·) && (value.isEmpty || r.value=value)) })
  | .passTime seconds => ((),{ s with clock := s.clock+seconds })

def acmeStore : Store AcmeStore AcmeOp AcmeRes where
  enabled _ _ := true
  exec := AcmeStore.exec lib

end

section

structure AcmeError where
  status : Nat
  typ : Text
  detail : Text
deriving DecidableEq

namespace AcmeError

variable (detail : Text)

def malformed : AcmeError := ⟨400,"urn:ietf:params:acme:error:malformed",detail⟩

def unauthorized : AcmeError := ⟨401,"urn:ietf:params:acme:error:unauthorized",detail⟩

def badNonce : AcmeError := ⟨400,"urn:ietf:params:acme:error:badNonce",detail⟩

def badCsr : AcmeError := ⟨400,"urn:ietf:params:acme:error:badCSR",detail⟩

def notOwner : AcmeError :=
  ⟨403,"urn:ietf:params:acme:error:unauthorized","the object does not belong to this account"⟩

def serverInternal : AcmeError := ⟨500,"urn:ietf:params:acme:error:serverInternal",detail⟩

def accountDoesNotExist : AcmeError :=
  ⟨400,"urn:ietf:params:acme:error:accountDoesNotExist","unknown account"⟩

def noAccountForKey : AcmeError :=
  ⟨400,"urn:ietf:params:acme:error:accountDoesNotExist","no account exists for this key"⟩

def externalAccountRequired : AcmeError :=
  ⟨400,"urn:ietf:params:acme:error:externalAccountRequired","this ACME server requires External Account Binding"⟩

def rejectedIdentifier : AcmeError := ⟨403,"urn:ietf:params:acme:error:rejectedIdentifier",detail⟩

def orderNotReady (status : AcmeStatus) : AcmeError :=
  ⟨403,"urn:ietf:params:acme:error:orderNotReady","order is "++status.asStr ++ ", not ready"⟩

end AcmeError

abbrev AcmeProg := Prog AcmeOp AcmeRes

abbrev AcmeProg.perform (o : AcmeOp) : AcmeProg (AcmeRes o) := Prog.perform o

abbrev AcmeAttempt := Attempt AcmeError AcmeOp AcmeRes

abbrev AcmeAttempt.perform (o : AcmeOp) : AcmeAttempt (AcmeRes o) := Attempt.perform o

/-- An identifier of a new order, as far as its members are texts. -/
structure Identifier where
  typ : Option Text
  value : Option Text
deriving DecidableEq

/-- A binding: the key it names, and whether that key's secret signs the account key given. -/
structure Eab where
  kid : Except Text Text
  verify : Text → List UInt8 → Except Text Unit

/-- The members of a payload that are read. -/
structure Payload where
  identifiers : Option (List Identifier) := none
  csr : Option Text := none
  onlyReturnExisting : Option Bool := none
  externalAccountBinding : Option Eab := none
  contact : Option Text := none

/-- A signed request: the protected header, whether a key verifies the signature, and the payload. -/
structure Jws where
  url : Option Text
  nonce : Option Text
  jwk : Option Text
  kid : Option Text
  verify : Text → Except Text Unit
  payload : Except Text Payload

/-- A request as it is read, or why it cannot be. -/
abbrev Body := Except Text Jws

structure AcmeConfig where
  directoryUrl : Text
  requireEab : Bool
  issuanceAny : Bool
  leafValidityDays : Int
  tlsaEndpoints : List (UInt16 × Text)

def AcmeConfig.url (config : AcmeConfig) (suffix : Text) : Text :=
  config.directoryUrl.rdropWhile (· = '/') ++ '/' :: suffix

structure Verified where
  payload : Payload
  account : Option AcmeAccount
  jwk : Text
  thumbprint : Text

variable (lib : AcmeLibrary) (body : Body)

/-- The key that has to verify the request, and the account if it is an account's. -/
def verificationKey (jws : Jws) : AcmeAttempt (Text × Option AcmeAccount) :=
  match jws.jwk, jws.kid with
  | some jwk, none => pure (jwk,none)
  | none, some kid => do
    let accountId := kid.rtakeWhile (· ≠ '/')
    let account ← AcmeAttempt.perform (.getAcmeAccount accountId)
    let account ← Attempt.ofExcept (okOr .accountDoesNotExist account)
    return (account.jwk,some account)
  | _, _ => throw (.malformed "JWS must contain exactly one of jwk or kid")

def verifyRequest (expectedUrl : Text) : AcmeAttempt Verified := do
  let jws ← Attempt.ofExcept (body.mapError AcmeError.malformed)
  let url ← Attempt.ofExcept (okOr (.malformed "JWS protected header is missing url") jws.url)
  Attempt.require (url=expectedUrl)
    (.malformed ("JWS url "++url ++ " does not match request "++expectedUrl))
  let nonce ← Attempt.ofExcept (okOr (.badNonce "missing nonce") jws.nonce)
  let fresh ← AcmeAttempt.perform (.consumeNonce nonce)
  Attempt.require (fresh=true) (.badNonce "unrecognized or reused nonce")
  let (jwk,account) ← verificationKey jws
  Attempt.ofExcept ((jws.verify jwk).mapError AcmeError.unauthorized)
  let payload ← Attempt.ofExcept (jws.payload.mapError AcmeError.malformed)
  let thumbprint ← Attempt.ofExcept ((lib.jwkThumbprint jwk).mapError AcmeError.malformed)
  return ⟨payload,account,jwk,thumbprint⟩

def accountRequest (expectedUrl missing : Text) : AcmeAttempt (Payload × AcmeAccount) := do
  let verified ← verifyRequest lib body expectedUrl
  let account ← Attempt.ofExcept (okOr (.malformed missing) verified.account)
  return (verified.payload,account)

def randomToken (bytes : Nat) : AcmeAttempt Text := do
  let token ← AcmeAttempt.perform (.randomToken bytes)
  Attempt.ofExcept (okOr (.serverInternal "secure RNG failure") token)

end

section
variable (lib : AcmeLibrary)

def caTxtChunk : Nat := 180

def beginCertificate : Text := "-----BEGIN CERTIFICATE-----"

def endCertificate : Text := "-----END CERTIFICATE-----"

def pemBody (pem : Text) : Except Text Text :=
  let lines := (pem.splitOn '\n').dropWhile fun line => !beginCertificate.isPrefixOf line &&
    !endCertificate.isPrefixOf line
  let body := (lines.takeWhile fun line => !endCertificate.isPrefixOf line).filter fun line =>
    !beginCertificate.isPrefixOf line
  if (body.flatMap trim).isEmpty then throw "no CERTIFICATE block found in PEM".toList else pure (body.flatMap trim)

def caRecords (zone kind b64 : Text) : List DnsRecord :=
  let chunks := b64.toChunks caTxtChunk
  ⟨"_ca."++trimEndDots zone++['.'],.CERT,"1 0 0 "++b64,3600,0⟩ ::
    chunks.zipIdx.map fun (chunk,i) =>
      ⟨"_rolodex-ca."++trimEndDots zone++['.'],.TXT,"rolodex-ca:v1:"++kind ++ ':' :: decimal (i+1) ++ '/' ::
        decimal chunks.length ++ ':' :: chunk,3600,0⟩

def addRecords : List DnsRecord → AcmeAttempt Unit
  | [] => pure ()
  | record::records => do
    AcmeAttempt.perform (.addRecord record)
    addRecords records

def publishCaDnsRecords (zone : Text) : AcmeAttempt Unit := do
  let zone := normalizeName lib.toLowercase zone
  let root ← AcmeAttempt.perform .getRootCa
  let root ← Attempt.ofExcept (okOr (.serverInternal "root CA not initialized") root)
  let intermediate ← AcmeAttempt.perform (.getZoneCa zone)
  let intermediate ← Attempt.ofExcept (okOr (.serverInternal ("no intermediate CA for zone "++zone)) intermediate)
  AcmeAttempt.perform (.removeRecords ("_ca."++trimEndDots zone++['.']) (some .CERT) [])
  AcmeAttempt.perform (.removeRecords ("_rolodex-ca."++trimEndDots zone++['.']) (some .TXT) [])
  let rootBody ← Attempt.ofExcept ((pemBody root.certPem).mapError AcmeError.serverInternal)
  addRecords (caRecords zone "root" rootBody)
  let intermediateBody ← Attempt.ofExcept ((pemBody intermediate.certPem).mapError AcmeError.serverInternal)
  addRecords (caRecords zone "intermediate" intermediateBody)

def ensureZoneIntermediate (zone : Text) : AcmeAttempt Unit := do
  let zone := normalizeName lib.toLowercase zone
  match ← AcmeAttempt.perform (.getZoneCa zone) with
  | some _ => publishCaDnsRecords lib zone
  | none =>
    let root ← AcmeAttempt.perform .getRootCa
    let root ← Attempt.ofExcept (okOr (.serverInternal "root CA not initialized") root)
    Attempt.ofExcept ((lib.rcgen.materializeIssuer root).mapError AcmeError.serverInternal)
    let key ← AcmeAttempt.perform .generateKey
    let key ← Attempt.ofExcept (okOr (.serverInternal "failed to generate Ed25519 key pair") key)
    let ca ← Attempt.ofExcept ((lib.signIntermediate root zone key).mapError AcmeError.serverInternal)
    AcmeAttempt.perform (.storeZoneCa zone ca)
    publishCaDnsRecords lib zone

/-- The name is the zone or ends with a dot and the zone; both are in the form they are stored in. -/
def withinZone (name zone : Text) : Bool := name=zone || ('.' :: zone).isSuffixOf name

/-- Of the zones around the name the first with the most dots. -/
def responsibleZone (name : Text) (zones : List Text) : Option Text :=
  zones.foldl (fun best zone =>
    let z := normalizeName lib.toLowercase zone
    if withinZone (normalizeName lib.toLowercase name) z && best.all (fun b => b.count '.' < z.count '.') then
      some z else best) none

def deriveZone (normalized : Text) : Text :=
  match (labelsOf normalized).reverse with
  | last::second::_ => second ++ '.' :: last++['.']
  | _ => normalized

variable (config : AcmeConfig)

/-- The zone that a name is issued from for the account. -/
def checkIssuable (account : AcmeAccount) (name : Text) : AcmeAttempt Text :=
  let normalized := normalizeName lib.toLowercase name
  match account.zone with
  | some zone => do
    let z := normalizeName lib.toLowercase zone
    Attempt.require (withinZone normalized z=true)
      (.rejectedIdentifier (name ++ " is not within the account's zone "++zone))
    return z
  | none => do
    let zones ← AcmeAttempt.perform .listZoneCas
    match responsibleZone lib name zones with
    | some z => pure z
    | none =>
      if config.issuanceAny then do
        ensureZoneIntermediate lib (deriveZone normalized)
        return deriveZone normalized
      else throw (.rejectedIdentifier ("no CA configured for "++name))

def daneRecords (tlsa : Text) (names : List Text) : List DnsRecord :=
  names.flatMap fun name => config.tlsaEndpoints.map fun (port,proto) =>
    ⟨'_' :: decimal port.toNat ++ '.' :: '_' :: proto ++ '.' :: trimEndDots name++['.'],.TLSA,tlsa,3600,0⟩

def publishDane (zone : Text) (names : List Text) : AcmeAttempt Unit := do
  let ca ← AcmeAttempt.perform (.getZoneCa zone)
  let ca ← Attempt.ofExcept (okOr (.serverInternal ("no intermediate CA for zone "++zone)) ca)
  let tlsa ← Attempt.ofExcept ((lib.generateTlsaRecord ca.certPem).mapError AcmeError.serverInternal)
  addRecords (daneRecords config tlsa names)

end

section
variable (lib : AcmeLibrary) (config : AcmeConfig) (id : Text) (body : Body)

def orderTtlSecs : Int := 7*24*3600

structure OrderJson where
  status : AcmeStatus
  expires : Int
  identifiers : List Text
  authorizations : List Text
  finalize : Text
  certificate : Option Text
deriving DecidableEq

def orderJson (order : AcmeOrder) : OrderJson :=
  ⟨order.status,order.expiresAt,order.identifiers,order.authorizations.map fun a => config.url ("authz/"++a),
    config.url ("finalize/"++order.id),order.certId.map fun id => config.url ("cert/"++decimal id)⟩

inductive Response where
  | account (status : Nat) (location : Text) (accountStatus : AcmeStatus)
  | order (status : Nat) (location : Text) (body : OrderJson)
  | challenge (challengeType url token : Text) (status : AcmeStatus)
deriving DecidableEq

/-- The zone of the binding and its key; a key is spent here. -/
def bindAccount (verified : Verified) : AcmeAttempt (Option Text × Option Text) :=
  match verified.payload.externalAccountBinding with
  | some eab => do
    let kid ← Attempt.ofExcept (eab.kid.mapError AcmeError.malformed)
    let cred ← AcmeAttempt.perform (.getEab kid)
    let cred ← Attempt.ofExcept (okOr (.unauthorized "unknown External Account Binding key") cred)
    Attempt.require (cred.used=false)
      (.unauthorized "this External Account Binding credential has already been used")
    Attempt.ofExcept ((eab.verify verified.jwk cred.hmacKey).mapError AcmeError.unauthorized)
    AcmeAttempt.perform (.markEabUsed kid)
    cred.zone.elim (pure ()) (ensureZoneIntermediate lib)
    return (cred.zone,some kid)
  | none => do
    Attempt.require (config.requireEab=false) .externalAccountRequired
    return (none,none)

def newAccountInner : AcmeAttempt Response := do
  let verified ← verifyRequest lib body (config.url "new-account")
  match ← AcmeAttempt.perform (.getAcmeAccountByThumbprint verified.thumbprint) with
  | some existing => return .account 200 (config.url ("account/"++existing.accountId)) existing.status
  | none =>
    Attempt.require (verified.payload.onlyReturnExisting≠some true) .noAccountForKey
    let (zone,eabKid) ← bindAccount lib config verified
    let accountId ← randomToken 16
    let account : AcmeAccount :=
      ⟨accountId,verified.jwk,verified.thumbprint,verified.payload.contact,.valid,eabKid,zone⟩
    let created ← AcmeAttempt.perform (.createAcmeAccount account)
    Attempt.require (created=true) (.serverInternal "failed to create ACME account")
    return .account 201 (config.url ("account/"++accountId)) account.status

def identifierName (id : Identifier) : Except AcmeError Text :=
  if id.typ.getD [] ≠ "dns" then throw (.malformed "only dns identifiers are supported")
  else okOr (.malformed "identifier missing value") id.value

def issuableNames (account : AcmeAccount) : List Identifier → AcmeAttempt (List Text)
  | [] => pure []
  | id::ids => do
    let name ← Attempt.ofExcept (identifierName id)
    let _ ← checkIssuable lib config account name
    let names ← issuableNames account ids
    return name::names

def createAuthorizations (orderId accountId : Text) (expires : Int) : List Text → AcmeAttempt (List Text)
  | [] => pure []
  | name::names => do
    let authzId ← randomToken 16
    let created ← AcmeAttempt.perform (.createAuthorization ⟨authzId,orderId,accountId,name,.pending,expires⟩)
    Attempt.require (created=true) (.serverInternal "failed to create authorization")
    let challengeId ← randomToken 16
    let token ← randomToken 32
    let created ← AcmeAttempt.perform (.createChallenge ⟨challengeId,authzId,"dns-01",token,.pending,none⟩)
    Attempt.require (created=true) (.serverInternal "failed to create challenge")
    let authzIds ← createAuthorizations orderId accountId expires names
    return authzId::authzIds

def newOrderInner : AcmeAttempt Response := do
  let (payload,account) ← accountRequest lib body (config.url "new-order") "newOrder requires an account (kid)"
  let identifiers ← Attempt.ofExcept (okOr (.malformed "missing identifiers") payload.identifiers)
  Attempt.require (identifiers≠[]) (.malformed "no identifiers")
  let names ← issuableNames lib config account identifiers
  let now ← AcmeAttempt.perform .now
  let orderId ← randomToken 16
  let authzIds ← createAuthorizations orderId account.accountId (now+orderTtlSecs) names
  let order : AcmeOrder := ⟨orderId,account.accountId,.pending,names,authzIds,none,now+orderTtlSecs⟩
  let created ← AcmeAttempt.perform (.createOrder order)
  Attempt.require (created=true) (.serverInternal "failed to create ACME order")
  return .order 201 (config.url ("order/"++orderId)) (orderJson config order)

def allValid : List Text → AcmeAttempt Bool
  | [] => pure true
  | id::ids => do
    let authz ← AcmeAttempt.perform (.getAuthorization id)
    if authz.any (·.status=.valid) then allValid ids else pure false

def maybeAdvanceOrder (orderId : Text) : AcmeAttempt Unit := do
  match ← AcmeAttempt.perform (.getOrder orderId) with
  | none => pure ()
  | some order =>
    let all ← allValid order.authorizations
    if all=true ∧ order.status=.pending then AcmeAttempt.perform (.updateOrder orderId .ready none) else pure ()

def keyAuthorization (token thumbprint : Text) : Text := token ++ '.' :: thumbprint

def trimQuotes (s : Text) : Text := (s.dropWhile (· = '"')).rdropWhile (· = '"')

def challengeMet (challenge : AcmeChallenge) (account : AcmeAccount) (records : List DnsRecord) : Bool :=
  records.any fun r => trimQuotes r.value=lib.dns01TxtValue (keyAuthorization challenge.token account.thumbprint)

def challengeRecordName (authz : AcmeAuthorization) : Text := "_acme-challenge."++trimEndDots authz.identifier++['.']

def respondChallengeInner : AcmeAttempt Response := do
  let url := config.url ("challenge/"++id)
  let (_,account) ← accountRequest lib body url "challenge requires an account (kid)"
  let challenge ← AcmeAttempt.perform (.getChallenge id)
  let challenge ← Attempt.ofExcept (okOr (.malformed "unknown challenge") challenge)
  let authz ← AcmeAttempt.perform (.getAuthorization challenge.authzId)
  let authz ← Attempt.ofExcept (okOr (.malformed "orphan challenge") authz)
  Attempt.require (authz.accountId=account.accountId) .notOwner
  let now ← AcmeAttempt.perform .now
  Attempt.require (now<authz.expiresAt) (.malformed "authorization has expired")
  let records ← AcmeAttempt.perform (.lookup (challengeRecordName authz) (some .TXT))
  let now ← AcmeAttempt.perform .now
  if challengeMet lib challenge account records then do
    AcmeAttempt.perform (.updateChallengeStatus challenge.id .valid (some now))
    AcmeAttempt.perform (.updateAuthorizationStatus authz.id .valid)
    maybeAdvanceOrder authz.orderId
  else do
    AcmeAttempt.perform (.updateChallengeStatus challenge.id .invalid none)
    AcmeAttempt.perform (.updateAuthorizationStatus authz.id .invalid)
  let updated ← AcmeAttempt.perform (.getChallenge id)
  let updated ← Attempt.ofExcept (okOr (.serverInternal "challenge vanished") updated)
  return .challenge updated.challengeType url updated.token updated.status

def issuingZones (account : AcmeAccount) : List Text → AcmeAttempt (List Text)
  | [] => pure []
  | name::names => do
    let zone ← checkIssuable lib config account name
    let zones ← issuingZones account names
    return zone::zones

def finalizeInner : AcmeAttempt Response := do
  let (payload,account) ←
    accountRequest lib body (config.url ("finalize/"++id)) "finalize requires an account (kid)"
  let order ← AcmeAttempt.perform (.getOrder id)
  let order ← Attempt.ofExcept (okOr (.malformed "unknown order") order)
  Attempt.require (order.accountId=account.accountId) .notOwner
  Attempt.require (order.status=.ready) (.orderNotReady order.status)
  let now ← AcmeAttempt.perform .now
  Attempt.require (now<order.expiresAt) (.malformed "order has expired")
  let csr ← Attempt.ofExcept (okOr (.malformed "missing csr") payload.csr)
  let csrDer ← Attempt.ofExcept
    ((lib.decodeBase64Url csr).mapError fun e => .malformed ("csr is not base64url: "++e))
  let csrPem := lib.derToPem "CERTIFICATE REQUEST" csrDer
  let primary ← Attempt.ofExcept (okOr (.malformed "order has no identifiers") order.identifiers.head?)
  let zones ← issuingZones lib config account order.identifiers
  -- the first name decides which intermediate signs
  let zone := zones.headD []
  let issued ← AcmeAttempt.perform (.issueLeaf zone csrPem config.leafValidityDays order.identifiers)
  let issued ← Attempt.ofExcept (issued.mapError AcmeError.badCsr)
  let certId ← AcmeAttempt.perform (.storeAcmeCertificate primary issued.leafPem issued.chainPem issued.expiresAt)
  publishDane lib config zone order.identifiers
  AcmeAttempt.perform (.updateOrder order.id .valid (some certId))
  let order ← AcmeAttempt.perform (.getOrder id)
  let order ← Attempt.ofExcept (okOr (.serverInternal "order vanished") order)
  return .order 200 (config.url ("order/"++order.id)) (orderJson config order)

/-- What a client gets: the answer to its request, and a new nonce. -/
abbrev Answer := Except AcmeError Response × Option Text

def attachNonce (answer : Except AcmeError Response) : AcmeProg Answer := do
  match ← AcmeProg.perform (.randomToken 16) with
  | none => return (answer,none)
  | some nonce =>
    AcmeProg.perform (.storeNonce nonce)
    return (answer,some nonce)

inductive Request where
  | newAccount (body : Body)
  | newOrder (body : Body)
  | respondChallenge (id : Text) (body : Body)
  | finalize (id : Text) (body : Body)

def respond : Request → AcmeAttempt Response
  | .newAccount body => newAccountInner lib config body
  | .newOrder body => newOrderInner lib config body
  | .respondChallenge id body => respondChallengeInner lib config id body
  | .finalize id body => finalizeInner lib config id body

def handle (request : Request) : AcmeProg Answer := do
  let answer ← (respond lib config request).run
  attachNonce answer

end

section
variable {lib : AcmeLibrary} {config : AcmeConfig} (account : AcmeAccount) (body : Body) (zone : Text)
  (names : List Text)

/-- Reads, or writes nothing but records, nonces, and authorities that a root has signed. -/
def quiet (lib : AcmeLibrary) : AcmeOp → Prop
  | .createAcmeAccount _ | .markEabUsed _ | .issueLeaf _ _ _ _ | .storeAcmeCertificate _ _ _ _ => False
  | .createOrder _ | .updateOrder _ _ _ | .createAuthorization _ | .updateAuthorizationStatus _ _ => False
  | .createChallenge _ | .updateChallengeStatus _ _ _ => False
  | .storeZoneCa _ ca => ∃ root zone key,lib.signIntermediate root zone key=.ok ca
  | _ => True

abbrev Quiet (lib : AcmeLibrary) {α : Type} (m : AcmeAttempt α) : Prop := m.Only (quiet lib)

theorem mapError_eq_ok {ε ε' α : Type} {x : Except ε α} {f : ε → ε'} {a : α} (h : x.mapError f=.ok a) : x=.ok a := by
  cases x with
  | error e => cases h
  | ok b =>
    cases h
    rfl

theorem quiet_verificationKey (jws : Jws) : Quiet lib (verificationKey jws) := by
  unfold verificationKey
  split
  · exact only_pure
  · exact only_step trivial fun _ => only_check fun _ => only_pure
  · exact only_throw

theorem quiet_verifyRequest (url : Text) : Quiet lib (verifyRequest lib body url) := by
  refine only_check fun jws => only_check fun _ => only_bind only_require fun _ => ?_
  refine only_check fun _ => only_step trivial fun _ => only_bind only_require fun _ => ?_
  refine only_bind (quiet_verificationKey jws) fun _ => only_check fun _ => ?_
  exact only_check fun _ => only_check fun _ => only_pure

theorem quiet_accountRequest (url missing : Text) : Quiet lib (accountRequest lib body url missing) :=
  only_bind (quiet_verifyRequest _ _) fun _ => only_check fun _ => only_pure

theorem quiet_randomToken (bytes : Nat) : Quiet lib (randomToken bytes) :=
  only_step trivial fun _ => only_ofExcept

theorem quiet_addRecords (records : List DnsRecord) : Quiet lib (addRecords records) := by
  induction records with
  | nil => exact only_pure
  | cons record records ih => exact only_step trivial fun _ => ih

theorem quiet_publishCaDnsRecords : Quiet lib (publishCaDnsRecords lib zone) := by
  refine only_step trivial fun _ => only_check fun _ => ?_
  refine only_step trivial fun _ => only_check fun _ => ?_
  refine only_step trivial fun _ => only_step trivial fun _ => ?_
  refine only_check fun _ => only_bind (quiet_addRecords _) fun _ => ?_
  exact only_check fun _ => quiet_addRecords _

theorem quiet_ensureZoneIntermediate : Quiet lib (ensureZoneIntermediate lib zone) := by
  refine only_step trivial fun ca => ?_
  cases ca with
  | some _ => exact quiet_publishCaDnsRecords _
  | none =>
    refine only_step trivial fun _ => only_check fun _ => only_check fun _ => ?_
    refine only_step trivial fun _ => only_check fun _ => only_ofExcept_bind fun ca hca => ?_
    exact only_bind (only_perform ⟨_,_,_,mapError_eq_ok hca⟩) fun _ => quiet_publishCaDnsRecords _

theorem quiet_checkIssuable (name : Text) : Quiet lib (checkIssuable lib config account name) := by
  unfold checkIssuable
  split
  · exact only_bind only_require fun _ => only_pure
  · refine only_step trivial fun zones => ?_
    split
    · exact only_pure
    · split
      · exact only_bind (quiet_ensureZoneIntermediate _) fun _ => only_pure
      · exact only_throw

theorem quiet_issuableNames (ids : List Identifier) : Quiet lib (issuableNames lib config account ids) := by
  induction ids with
  | nil => exact only_pure
  | cons id ids ih =>
    exact only_check fun _ => only_bind (quiet_checkIssuable _ _) fun _ => only_bind ih fun _ => only_pure

theorem quiet_issuingZones : Quiet lib (issuingZones lib config account names) := by
  induction names with
  | nil => exact only_pure
  | cons name names ih => exact only_bind (quiet_checkIssuable _ _) fun _ => only_bind ih fun _ => only_pure

theorem quiet_bindZone (zone : Option Text) : Quiet lib (zone.elim (pure ()) (ensureZoneIntermediate lib)) := by
  cases zone with
  | none => exact only_pure
  | some zone => exact quiet_ensureZoneIntermediate zone

theorem quiet_showChallenge (id url : Text) : Quiet lib (do
    let updated ← AcmeAttempt.perform (.getChallenge id)
    let updated ← Attempt.ofExcept (okOr (.serverInternal "challenge vanished") updated)
    return Response.challenge updated.challengeType url updated.token updated.status) :=
  only_step trivial fun _ => only_check fun _ => only_pure

theorem quiet_attachNonce (lib : AcmeLibrary) (answer : Except AcmeError Response) :
    (attachNonce answer).Only (quiet lib) := by
  refine ⟨trivial,fun nonce _ => ?_⟩
  cases nonce with
  | none => exact trivial
  | some nonce => exact ⟨trivial,fun _ _ => trivial⟩

theorem quiet_publishDane : Quiet lib (publishDane lib config zone names) := by
  refine only_step trivial fun _ => only_check fun _ => ?_
  exact only_check fun _ => quiet_addRecords _

/-- Neither writes orders, authorizations and challenges nor signs. -/
def mild : AcmeOp → Prop
  | .issueLeaf _ _ _ _ | .createOrder _ | .updateOrder _ _ _ | .createAuthorization _ => False
  | .updateAuthorizationStatus _ _ | .createChallenge _ | .updateChallengeStatus _ _ _ => False
  | _ => True

theorem mild_of_quiet (o : AcmeOp) (h : quiet lib o) : mild o := by
  cases o <;> first | exact trivial | exact h.elim

theorem mild_bindAccount (verified : Verified) : (bindAccount lib config verified).Only mild := by
  unfold bindAccount
  split
  · refine only_check fun _ => only_step trivial fun _ => only_check fun cred => ?_
    refine only_bind only_require fun _ => only_check fun _ => only_step trivial fun _ => ?_
    exact only_bind ((quiet_bindZone cred.zone).mono mild_of_quiet) fun _ => only_pure
  · exact only_bind only_require fun _ => only_pure

theorem mild_newAccountInner : (newAccountInner lib config body).Only mild := by
  refine only_bind ((quiet_verifyRequest _ _).mono mild_of_quiet) fun verified => only_step trivial fun existing => ?_
  cases existing with
  | some _ => exact only_pure
  | none =>
    have ht : Quiet lib (randomToken 16) := quiet_randomToken 16
    refine only_bind only_require fun _ => only_bind (mild_bindAccount verified) fun _ => ?_
    refine only_bind (ht.mono mild_of_quiet) fun _ => only_step trivial fun _ => ?_
    exact only_bind only_require fun _ => only_pure

end

end RolodexDns.AcmeServer
