import RolodexDns.DnsRecords

/-! The outcomes of validation and of a resolution, with the reasons they carry. Each reason
stands for one message of the source and keeps the values the message is formatted from. -/
namespace RolodexDns.ValidationVerdicts
open DomainNames DnsRecords

inductive DenialKind where
  | nsec
  | nsec3
deriving DecidableEq

/-- Why the validator rejected an RRset or a denial. `unset` is the empty text a loop starts from. -/
inductive ValidationError where
  | nothingToVerify (owner : Name) (rtype : RecordType)
  | noDnskeys (zone : Name)
  | noRrsigCovers (owner : Name) (rtype : RecordType)
  | unset
  | noRrsigValidated (owner : Name) (rtype : RecordType) (last : ValidationError)
  | signerNotZone (owner : Name) (rtype : RecordType) (signer zone : Name)
  | notYetValid (owner : Name) (rtype : RecordType) (inception : UInt32)
  | expired (owner : Name) (rtype : RecordType) (expiration : UInt32)
  | tooManyLabels (owner : Name) (rtype : RecordType) (claimed actual : Nat)
  | unsupportedAlgorithm (owner : Name) (rtype : RecordType) (algorithm : UInt8)
  | noKeyMatched
  | keyTagFailed
  | signatureFailed
  | keyNotInRrset (owner : Name) (rtype : RecordType) (keyTag : UInt16) (algorithm : UInt8) (zone : Name)
  | noUsableDnskeys (zone : Name)
  | noAnchoredDnskey (zone : Name) (offered : Nat)
  | noCoveredDnskey (zone : Name) (dsCount : Nat)
  | dnskeyNotSelfSigned (zone : Name) (cause : ValidationError)
  | neitherDsNorDenial (child : Name)
  | assertsDs (kind : DenialKind) (child : Name)
  | childApex (kind : DenialKind) (child : Name)
  | assertsNoDelegation (kind : DenialKind) (child : Name)
  | notOptOut (nextCloser encloser child : Name)
  | noProofOfNoDs (child : Name)
  | assertsName (qname : Name)
  | notCovered (name : Name)
  | wildcardNotRuledOut (kind : DenialKind) (wildcard qname : Name)
  | noClosestEncloser (qname : Name)
  | nextCloserNotCovered (nextCloser : Name)
  | noDenialForNxdomain (qname : Name)
  | assertsType (kind : DenialKind) (qname : Name) (qtype : RecordType)
  | assertsCname (kind : DenialKind) (qname : Name)
  | wildcardAssertsType (kind : DenialKind) (wildcard : Name) (qtype : RecordType)
  | wildcardWithoutCover (wildcard : Name) (qtype : RecordType) (qname : Name)
  | neitherMatchedNorEnclosed (qname : Name)
  | typeNotDenied (kind : DenialKind) (qname : Name) (qtype : RecordType)
  | noDenialForNodata (qname : Name)
  | wildcardWithoutDenial (qname encloser : Name)
  | wildcardNotCovered (qname encloser : Name)
  | notEnclosed (encloser qname : Name)
  | wildcardNextCloserNotCovered (nextCloser qname : Name)
  | tooManyIterations (iterations : Nat)
  | unsupportedHash (algorithm : UInt8)
  | hashingFailed (name : Name)
deriving DecidableEq

inductive ResolveError where
  | nameserversUnreachable (name : Name)
  | budgetExhausted (name : Name)
  | depthExceeded (name : Name)
  | cnameLoop (target : Name)
  | cnameChainTooLong (name : Name)
  | outOfBailiwick (current zone name : Name)
  | delegationLoop (zone name : Name)
  | noNameservers (zone : Name)
  | tooManyReferrals (name : Name)
  | clock
deriving DecidableEq

/-- Why a DNSKEY RRset was not obtained: the servers are at fault, or what they said is. -/
inductive DnskeyError where
  | unreachable (cause : ResolveError)
  | invalid (server : IpAddr) (reason : ValidationError)
deriving DecidableEq

inductive Reason where
  | clock
  | rootDnskeyInvalid (cause : ValidationError)
  | dsNotValidated (child parent : Name) (cause : ValidationError)
  | dnskeyNotValidated (child parent : Name) (cause : DnskeyError)
  | notShownUnsigned (parent child : Name) (cause : ValidationError)
  | tooManyCuts (target : Name) (count : Nat) (origin : Name)
  | dsUnreachable (cut : Name) (cause : ResolveError)
  | answerBogus (qname : Name) (qtype : RecordType) (cause : ValidationError)
  | wildcardUnsubstantiated (qname : Name) (qtype : RecordType) (cause : ValidationError)
  | negativeWithoutProof (rcode : ResponseCode) (qname : Name) (qtype : RecordType) (zone : Name)
  | negativeUnproven (rcode : ResponseCode) (qname : Name) (qtype : RecordType) (cause : ValidationError)
deriving DecidableEq

inductive Verdict where
  | secure
  | insecure
  | bogus (reason : Reason)
  | indeterminate (reason : Reason)
deriving DecidableEq

namespace Verdict

def withholdsAnswer : Verdict → Bool
  | bogus _ => true
  | indeterminate _ => true
  | _ => false

def rank : Verdict → Nat
  | secure => 0
  | insecure => 1
  | indeterminate _ => 2
  | bogus _ => 3

def merge (v other : Verdict) : Verdict := if v.rank<other.rank then other else v

theorem merge_eq_secure {v w : Verdict} : v.merge w=secure ↔ v=secure ∧ w=secure := by
  cases v <;> cases w <;> simp [merge,rank]

theorem merge_eq_insecure {v w : Verdict} (h : v.merge w=insecure) : v=insecure ∨ w=insecure := by
  unfold merge at h
  split at h
  · exact Or.inr h
  · exact Or.inl h

end Verdict

end RolodexDns.ValidationVerdicts
