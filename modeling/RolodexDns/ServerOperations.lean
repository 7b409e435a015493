import RolodexDns.IterativeResolver
import RolodexDns.ProgramTraces
import RolodexDns.WireMessages

/-! The operations a query is handled with: what the server holds itself (database, blocklists,
answer cache) and what takes it off the box (the resolver, forwarders and the peers of a TLD). -/
namespace RolodexDns.ServerOperations
open DomainNames DnsRecords ValidationVerdicts ResponseReading ProgramTrees ProgramTraces
open StoredRecords WireMessages

structure SocketAddr where
  ip : IpAddr
  port : UInt16
deriving DecidableEq

inductive ResolutionMode where
  | recursive
  | forward
  | auto
deriving DecidableEq

inductive Transport where
  | do53Udp
  | do53Tcp
  | dot
  | doh
  | doq
deriving DecidableEq

/-- An upstream to forward to. What only the encrypted client reads of it is not kept. -/
structure Forwarder where
  transport : Transport
  addr : SocketAddr
  label : Text
deriving DecidableEq

/-- Reads and writes of the server's own data. A read that can fail returns an option. -/
inductive LocalOp where
  | scopeForIngressIp (ip : IpAddr)
  | getScopeForIp (ip : Text)
  | hasScopes
  | findTldOwner (name : Text)
  | getTldIngress (tld : Text)
  | getTldForwarders (scope tld : Text)
  | lookupScoped (scope name : Text) (kind : Option RecordKind)
  | getScopedManagedZones (scope : Text)
  | scopedNameOccupied (scope name : Text)
  | scopedWildcardOwnerFor (scope name : Text)
  | closestScopedSoa (scope name : Text)
  | isAuthoritativeZone (name : Text)
  | lookupWithFallbacks (name : Text) (kind : RecordKind)
  | lookup (name : Text) (kind : Option RecordKind)
  | lookupNoWildcard (name : Text) (kind : Option RecordKind)
  | findManagedZone (name : Text)
  | findAuthoritativeZone (name : Text)
  | findSignedZone (name : Text)
  | zoneSignaturesStale (name : Text)
  | rrsigsCovering (name : Text) (kind : RecordKind)
  | closestSoa (name : Text)
  | zoneNsecRecords (zone : Text)
  | nameOccupied (name : Text)
  | wildcardOwnerFor (name : Text)
  | isDnsblAllowlisted (name : Text)
  | isDnsblAllowlistedExact (entry : Text)
  | lookupLocalBlocklist (entry : Text)
  | isNameListed (name : Text)
  | cacheLookup (name : Text) (kind : Option RecordKind)
  | cacheLookupLocalOnly (name : Text) (kind : Option RecordKind)
  | cacheLookupNegative (name : Text) (kind : Option RecordKind)
  | cacheInsert (name : Text) (kind : Option RecordKind) (records : List DnsRecord) (ttl : Nat)
  | cacheInsertLocal (name : Text) (kind : Option RecordKind) (records : List DnsRecord)
  | cacheInsertNegative (name : Text) (kind : Option RecordKind) (negative : NegativeKind) (ttl : Nat)
  | cacheInvalidateNegative (name : Text)

abbrev LocalRes : LocalOp → Type
  | .scopeForIngressIp _ | .getScopeForIp _ => Option Text
  | .hasScopes => Bool
  | .findTldOwner _ => Option (Text × Text)
  | .getTldIngress _ => Option IpAddr
  | .getTldForwarders _ _ => List SocketAddr
  | .lookupScoped _ _ _ | .closestScopedSoa _ _ => List DnsRecord
  | .getScopedManagedZones _ => Option (List Text)
  | .scopedNameOccupied _ _ => Bool
  | .scopedWildcardOwnerFor _ _ => Option Text
  | .isAuthoritativeZone _ => Bool
  | .lookupWithFallbacks _ _ => Option LookupResult
  | .lookup _ _ | .lookupNoWildcard _ _ | .rrsigsCovering _ _ | .closestSoa _ | .zoneNsecRecords _ =>
    Option (List DnsRecord)
  | .findManagedZone _ | .findAuthoritativeZone _ | .findSignedZone _ => Option Text
  | .zoneSignaturesStale _ => Bool
  | .nameOccupied _ => Option Bool
  | .wildcardOwnerFor _ => Option (Option Text)
  | .isDnsblAllowlisted _ | .isDnsblAllowlistedExact _ | .lookupLocalBlocklist _ | .isNameListed _ => Bool
  | .cacheLookup _ _ | .cacheLookupLocalOnly _ _ => List DnsRecord
  | .cacheLookupNegative _ _ => Option NegativeKind
  | .cacheInsert .. | .cacheInsertLocal .. | .cacheInsertNegative .. | .cacheInvalidateNegative _ => Unit

def holdsNothing : (o : LocalOp) → LocalRes o
  | .scopeForIngressIp _ | .getScopeForIp _ => none
  | .hasScopes => false
  | .findTldOwner _ => none
  | .getTldIngress _ => none
  | .getTldForwarders _ _ => []
  | .lookupScoped _ _ _ | .closestScopedSoa _ _ => []
  | .getScopedManagedZones _ => some []
  | .scopedNameOccupied _ _ => false
  | .scopedWildcardOwnerFor _ _ => none
  | .isAuthoritativeZone _ => false
  | .lookupWithFallbacks _ _ => some ⟨[],[],[],[]⟩
  | .lookup _ _ | .lookupNoWildcard _ _ | .rrsigsCovering _ _ | .closestSoa _ | .zoneNsecRecords _ => some []
  | .findManagedZone _ | .findAuthoritativeZone _ | .findSignedZone _ => none
  | .zoneSignaturesStale _ => false
  | .nameOccupied _ => some false
  | .wildcardOwnerFor _ => some none
  | .isDnsblAllowlisted _ | .isDnsblAllowlistedExact _ | .lookupLocalBlocklist _ | .isNameListed _ => false
  | .cacheLookup _ _ | .cacheLookupLocalOnly _ _ => []
  | .cacheLookupNegative _ _ => none
  | .cacheInsert .. | .cacheInsertLocal .. | .cacheInsertNegative .. | .cacheInvalidateNegative _ => ()

abbrev LocalProg := Prog LocalOp LocalRes

def LocalProg.perform (o : LocalOp) : LocalProg (LocalRes o) := Prog.perform o

inductive Upstream where
  | peer (addr : SocketAddr)
  | forwarder (f : Forwarder)
deriving DecidableEq

def Upstream.addr : Upstream → SocketAddr
  | peer addr => addr
  | forwarder f => f.addr

/-- The operations of a query. A datagram exchange sends a query in the spelling chosen for it and
gives what arrives before the deadline; the other exchanges give the body of the reply, over QUIC
the whole stream. -/
inductive ServerOp where
  | held (o : LocalOp)
  | resolve (name : Name) (qtype : RecordType) (qclass : DnsClass)
  | resolveWithin (name : Name) (qtype : RecordType) (qclass : DnsClass)
  | activeTier
  | noteAutoWinner (winner : Nat)
  | isUsable (f : Forwarder)
  | recordSuccess (f : Forwarder)
  | recordFailure (f : Forwarder)
  | randomizeQnameCase (queryData : Bytes)
  | exchangeUdp (upstream : Upstream) (queryData sent : Bytes)
  | exchangeProxied (upstream : Upstream) (queryData : Bytes)
  | exchangeTcp (f : Forwarder) (queryData : Bytes)
  | exchangeSecure (f : Forwarder) (queryData : Bytes)

abbrev ServerRes : ServerOp → Type
  | .held o => LocalRes o
  | .resolve .. => Except ResolveError Resolution
  | .resolveWithin .. => Option (Except ResolveError Resolution)
  | .activeTier => Nat
  | .isUsable _ => Bool
  | .noteAutoWinner _ | .recordSuccess _ | .recordFailure _ => Unit
  | .randomizeQnameCase _ => Option Bytes
  | .exchangeUdp .. => Option (List (SocketAddr × Bytes))
  | .exchangeProxied .. | .exchangeTcp .. | .exchangeSecure .. => Option Bytes

abbrev ServerProg := Prog ServerOp ServerRes

def ServerProg.perform (o : ServerOp) : ServerProg (ServerRes o) := Prog.perform o

def ServerProg.held {α : Type} (p : LocalProg α) : ServerProg α := lift .held (fun _ r => r) p

abbrev ServerLog := List ((o : ServerOp) × ServerRes o)

/-- Mixing the case of a name is done by coins. -/
def MixesCase : (o : ServerOp) → ServerRes o → Prop
  | .randomizeQnameCase queryData, mixed => ∃ coins,mixed=randomizeQnameCase queryData coins
  | _, _ => True

/-- Forwarders that all give this reply over an encrypted transport, and nothing else within reach. -/
def repliesBy (held : (o : LocalOp) → LocalRes o) (reply : Option Bytes) : (o : ServerOp) → ServerRes o
  | .held o => held o
  | .resolve name _ _ => .error (.nameserversUnreachable name)
  | .resolveWithin .. => none
  | .activeTier => (0 : Nat)
  | .isUsable _ => true
  | .noteAutoWinner _ | .recordSuccess _ | .recordFailure _ => ()
  | .randomizeQnameCase queryData => randomizeQnameCase queryData fun _ => false
  | .exchangeUdp .. => none
  | .exchangeProxied .. | .exchangeTcp .. => none
  | .exchangeSecure .. => reply

structure ServerConfig where
  lib : ServerLibrary
  mode : ResolutionMode
  forwarders : List Forwarder
  forwarderTiers : List (List Forwarder)
  cacheEnabled : Bool
  dns64Enabled : Bool
  dns64Prefix : BitVec 128
  qnameRandomization : Bool
  proxied : Bool
  answerV4 : Bool
  answerV6 : Bool
  overlayCidrs : List IpCidr
  recursionCidrs : List IpCidr
  defaultTtl : Nat

abbrev ServerConfig.lower (cfg : ServerConfig) : Text → Text := cfg.lib.toLowercase

variable (cfg : ServerConfig) (ip : IpAddr)

def ServerConfig.isOverlayPeer : Bool := cfg.overlayCidrs.any (·.contains ip)

def ServerConfig.mayRecurse : Bool := cfg.recursionCidrs.any (·.contains ip)

structure Asked where
  queryData : Bytes
  message : Packet
  ctx : Option EdnsContext
  question : Query
  qname : Text
  sourceIp : Option IpAddr
  localIp : Option IpAddr

def Asked.recordKind (ask : Asked) : Option RecordKind := mapQueryTypeToKind ask.question.queryType

structure Reply where
  rcode : ResponseCode
  answers : List Record
  authority : List Record
  authoritative : Bool
  /-- Whether the client's OPT record is answered; a DNAME answer does not. -/
  withEdns : Bool

def Reply.edns (rcode : ResponseCode) (answers : List Record) (authoritative : Bool) : Reply :=
  ⟨rcode,answers,[],authoritative,true⟩

def Reply.bytes (lib : ServerLibrary) (ask : Asked) (reply : Reply) : Bytes :=
  if reply.withEdns then
    buildResponseEdnsAuth lib ask.message reply.rcode reply.answers reply.authority reply.authoritative ask.ctx
  else buildResponseEx lib ask.message reply.rcode reply.answers reply.authoritative

theorem Reply.adBit_bytes {lib : ServerLibrary} (hl : lib.Lawful) (ask : Asked) (reply : Reply) :
    adBit (reply.bytes lib ask)=false := by
  unfold Reply.bytes
  split
  · exact adBit_buildResponseEdnsAuth hl
  · exact adBit_buildResponseEx hl

def firstSome {α : Type} : List (LocalProg (Option α)) → LocalProg (Option α)
  | [] => pure none
  | step::steps => do
    match ← step with
    | some a => pure (some a)
    | none => firstSome steps

end RolodexDns.ServerOperations
