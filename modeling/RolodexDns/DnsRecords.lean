import RolodexDns.DomainNames

/-! Resource records and messages, with the record data the resolver inspects. -/
namespace RolodexDns.DnsRecords
open DomainNames

structure RecordType where
  code : UInt16
deriving DecidableEq

namespace RecordType
def A : RecordType := ⟨1⟩
def NS : RecordType := ⟨2⟩
def CNAME : RecordType := ⟨5⟩
def SOA : RecordType := ⟨6⟩
def PTR : RecordType := ⟨12⟩
def MX : RecordType := ⟨15⟩
def TXT : RecordType := ⟨16⟩
def AAAA : RecordType := ⟨28⟩
def DNAME : RecordType := ⟨39⟩
def DS : RecordType := ⟨43⟩
def RRSIG : RecordType := ⟨46⟩
def NSEC : RecordType := ⟨47⟩
def DNSKEY : RecordType := ⟨48⟩
def NSEC3 : RecordType := ⟨50⟩
def ANY : RecordType := ⟨255⟩
end RecordType

structure DnsClass where
  code : UInt16
deriving DecidableEq

def DnsClass.IN : DnsClass := ⟨1⟩

structure ResponseCode where
  code : UInt16
deriving DecidableEq

namespace ResponseCode
def NoError : ResponseCode := ⟨0⟩
def FormErr : ResponseCode := ⟨1⟩
def ServFail : ResponseCode := ⟨2⟩
def NXDomain : ResponseCode := ⟨3⟩
def NotImp : ResponseCode := ⟨4⟩
def Refused : ResponseCode := ⟨5⟩
end ResponseCode

inductive IpAddr where
  | v4 (addr : BitVec 32)
  | v6 (addr : BitVec 128)
deriving DecidableEq

def IpAddr.isV4 : IpAddr → Bool
  | .v4 _ => true
  | .v6 _ => false

structure Soa where
  mname : Name
  rname : Name
  serial : UInt32
  refresh : Nat
  retry : Nat
  expire : Nat
  minimum : Nat
deriving DecidableEq

structure Dnskey where
  zoneKey : Bool
  secureEntryPoint : Bool
  revoke : Bool
  algorithm : UInt8
  publicKey : List UInt8
deriving DecidableEq

structure Ds where
  keyTag : UInt16
  algorithm : UInt8
  digestType : UInt8
  digest : List UInt8
deriving DecidableEq

structure Rrsig where
  typeCovered : RecordType
  algorithm : UInt8
  numLabels : Nat
  originalTtl : Nat
  sigExpiration : UInt32
  sigInception : UInt32
  keyTag : UInt16
  signerName : Name
  sig : List UInt8
deriving DecidableEq

structure Nsec where
  nextDomainName : Name
  typeBitMaps : List RecordType
deriving DecidableEq

structure Nsec3 where
  hashAlgorithm : UInt8
  optOut : Bool
  iterations : Nat
  salt : List UInt8
  nextHashedOwnerName : List UInt8
  typeBitMaps : List RecordType
deriving DecidableEq

/-- Record data. `other` stands for every format that is not looked into, the empty RDATA of a known
type included, so it carries its own type. -/
inductive RData where
  | a (addr : BitVec 32)
  | aaaa (addr : BitVec 128)
  | ns (target : Name)
  | cname (target : Name)
  | ptr (target : Name)
  | mx (preference : UInt16) (exchange : Name)
  | txt (strings : List (List UInt8))
  | soa (soa : Soa)
  | ds (ds : Ds)
  | rrsig (sig : Rrsig)
  | nsec (nsec : Nsec)
  | dnskey (key : Dnskey)
  | nsec3 (nsec3 : Nsec3)
  | other (recordType : RecordType) (bytes : List UInt8)
deriving DecidableEq

namespace RData

def recordType : RData → RecordType
  | a _ => .A
  | aaaa _ => .AAAA
  | ns _ => .NS
  | cname _ => .CNAME
  | ptr _ => .PTR
  | mx _ _ => .MX
  | txt _ => .TXT
  | soa _ => .SOA
  | ds _ => .DS
  | rrsig _ => .RRSIG
  | nsec _ => .NSEC
  | dnskey _ => .DNSKEY
  | nsec3 _ => .NSEC3
  | other t _ => t

def asRrsig : RData → Option Rrsig
  | rrsig s => some s
  | _ => none

def asDnskey : RData → Option Dnskey
  | dnskey k => some k
  | _ => none

def asDs : RData → Option Ds
  | ds d => some d
  | _ => none

def asNsec : RData → Option Nsec
  | nsec n => some n
  | _ => none

def asNsec3 : RData → Option Nsec3
  | nsec3 n => some n
  | _ => none

def asNs : RData → Option Name
  | ns t => some t
  | _ => none

def asCname : RData → Option Name
  | cname t => some t
  | _ => none

def asAddress : RData → Option IpAddr
  | a ip => some (.v4 ip)
  | aaaa ip => some (.v6 ip)
  | _ => none

end RData

structure Record where
  name : Name
  dnsClass : DnsClass
  ttl : Nat
  data : RData
deriving DecidableEq

def Record.recordType (r : Record) : RecordType := r.data.recordType

def Record.setTtl (r : Record) (ttl : Nat) : Record := { r with ttl := ttl }

structure Query where
  name : Name
  queryType : RecordType
  queryClass : DnsClass
deriving DecidableEq

/-- A parsed message. The header bits the resolver never reads are not kept. -/
structure Message where
  id : UInt16
  responseCode : ResponseCode
  authoritative : Bool
  truncated : Bool
  authenticData : Bool
  queries : List Query
  answers : List Record
  nameServers : List Record
  additionals : List Record
deriving DecidableEq

/-- What is taken from the protocol and standard libraries unopened: the signature and digest
primitives, the NSEC3 hash, the upper-casing of text that is not ASCII, how a record type is
printed, and whether the printed form of a name can be parsed back. -/
structure Library where
  algorithmSupported : UInt8 → Bool
  calculateKeyTag : Dnskey → Option UInt16
  verifyRrsig : Dnskey → Name → DnsClass → Rrsig → List Record → Bool
  dsCovers : Ds → Name → Dnskey → Bool
  nsec3Hash : List UInt8 → Name → Nat → Option (List UInt8)
  lossyUpper : List UInt8 → List UInt8
  typeText : RecordType → List UInt8
  textParses : Name → Bool

end RolodexDns.DnsRecords
