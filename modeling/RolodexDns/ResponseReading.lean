import RolodexDns.ResolverCaches
import RolodexDns.VerifiedDenial

/-! What the resolver reads off a response: its kind, the glue it carries, and the verdict on its
answer section or on its denial. -/
namespace RolodexDns.ResponseReading
open DomainNames DnsRecords ValidationVerdicts SignatureValidation DenialProofs VerifiedDenial

structure Resolution where
  rcode : ResponseCode
  answers : List Record
  soa : Option Record
  verdict : Verdict
deriving DecidableEq

def Resolution.answer (rcode : ResponseCode) (answers : List Record) : Resolution :=
  ⟨rcode,answers,none,.insecure⟩

def Resolution.withVerdict (r : Resolution) (v : Verdict) : Resolution := { r with verdict := v }

/-- The empty SERVFAIL that stands in for a withheld answer. -/
def Resolution.withheld (v : Verdict) : Resolution := (Resolution.answer .ServFail []).withVerdict v

/-- A response relative to the question. -/
inductive Step where
  | answer (records : List Record)
  | cname (target : Name) (records : List Record)
  | referral (zone : Name) (glueRecords : List Record) (nsTargets : List Name) (ttl : Nat)
  | negative (rcode : ResponseCode) (soa : Option Record)
deriving DecidableEq

variable (response : Message)

def findSoa : Option Record :=
  response.nameServers.find? fun r => match r.data with
    | .soa _ => true
    | _ => false

def collectGlueRecords (nsTargets : List Name) : List Record :=
  (response.additionals.filter fun r => nsTargets.any (· = r.name)).filter
    fun r => r.data.asAddress.isSome

/-- Glue as addresses, IPv4 before IPv6. -/
def glueAddresses (glueRecords : List Record) : List IpAddr :=
  let addrs := glueRecords.filterMap fun r => r.data.asAddress
  addrs.filter IpAddr.isV4++addrs.filter fun a => !a.isV4

def v4Addresses (records : List Record) : List IpAddr :=
  (records.filterMap fun r => r.data.asAddress).filter IpAddr.isV4

def classify (qtype : RecordType) : Step :=
  let answers := response.answers
  if !answers.isEmpty then
    if answers.any (·.recordType=qtype) || qtype=.CNAME || qtype=.ANY then .answer answers
    else match answers.findSome? fun r => r.data.asCname with
      | some target => .cname target answers
      | none => .answer answers
  else if response.responseCode=.NXDomain then .negative .NXDomain (findSoa response)
  else
    match response.nameServers.filter fun r => r.data.asNs.isSome with
    | [] => .negative response.responseCode (findSoa response)
    | first::rest =>
      let nsTargets := (first::rest).filterMap fun r => r.data.asNs
      let glueRecords := collectGlueRecords response nsTargets
      let nsTtl := minTtl (first::rest) 0
      let ttl := match (glueRecords.map Record.ttl).min? with
        | some g => min nsTtl g
        | none => nsTtl
      .referral first.name glueRecords nsTargets ttl

/-- Where the records of what a response is read as come from. -/
theorem classify_spec {m : Message} {qtype : RecordType} {step : Step} : classify m qtype=step →
    match step with
    | .answer records => records=m.answers
    | .cname target records => records=m.answers ∧ ∃ r∈records,r.data=.cname target
    | .negative .. => True
    | .referral _ glue targets _ => glue=collectGlueRecords m targets := by
  rintro rfl
  unfold classify
  dsimp only
  split_ifs
  · rfl
  · cases hf : m.answers.findSome? fun r => r.data.asCname with
    | none => rfl
    | some target =>
      obtain ⟨r,hr,hda⟩ := List.exists_of_findSome?_eq_some hf
      refine ⟨rfl,r,hr,?_⟩
      cases hd : r.data <;> rw [hd] at hda <;> cases hda
      rfl
  · trivial
  · cases m.nameServers.filter fun r => r.data.asNs.isSome with
    | nil => trivial
    | cons => rfl

/-- A referral may only move strictly down, towards the name. -/
def referralInBailiwick (current zone qname : Name) : Bool :=
  current.zoneOf zone && zone≠current && zone.zoneOf qname

def isArpaSubtree (name : Name) : Bool :=
  (name.labels.getLast?.map Label.bytes)=some [97,114,112,97]

def validateQuestion (query : Query) : Bool := response.queries.head?=some query

section
variable (lib : Library) (qname : Name) (qtype : RecordType)

/-- Verifies every RRset of a section; the result lists the owners found to be expanded from a
wildcard, each with the encloser of that wildcard. -/
def verifySets (sigs : List Record) (keys : List Dnskey) (zone : Name) (now : UInt32) :
    List Rrset → Except ValidationError (List (Name × Name))
  | [] => .ok []
  | g::gs =>
    match verifyRrset lib g.owner g.rtype g.records sigs keys zone now with
    | .error e => .error e
    | .ok facts =>
      match verifySets sigs keys zone now gs with
      | .error e => .error e
      | .ok wildcards => .ok ((facts.wildcardClosestEncloser.map (g.owner,·)).toList++wildcards)

/-- Every expansion must be substantiated by the denial; an opted-out one ends the check. -/
def proveExpansions (denial : Denial) : List (Name × Name) → Except ValidationError Denied
  | [] => .ok .proven
  | (owner,encloser)::wildcards =>
    match proveWildcardExpansion lib owner encloser denial with
    | .ok .proven => proveExpansions denial wildcards
    | .ok .optedOut => .ok .optedOut
    | .error e => .error e

/-- The verdict on an answer section, once the zone's keys are known. -/
def answerVerdict (records authority : List Record) (zone : Name)
    (keys : List Dnskey) (now : UInt32) : Verdict :=
  let (sets,sigs) := groupRrsets records
  if sets.isEmpty then .secure
  else match verifySets lib sigs keys zone now sets with
    | .error e => .bogus (.answerBogus qname qtype e)
    | .ok [] => .secure
    | .ok wildcards =>
      match proveExpansions lib (verifiedDenial lib authority zone keys now) wildcards with
      | .ok .proven => .secure
      | .ok .optedOut => .insecure
      | .error e => .bogus (.wildcardUnsubstantiated qname qtype e)

/-- The verdict on a negative response, once the zone's keys are known. -/
def negativeVerdict (rcode : ResponseCode) (authority : List Record)
    (zone : Name) (keys : List Dnskey) (now : UInt32) : Verdict :=
  let denial := verifiedDenial lib authority zone keys now
  if denial.isEmpty then .bogus (.negativeWithoutProof rcode qname qtype zone)
  else
    match (if rcode=.NXDomain then proveNxdomain lib qname zone denial
      else proveNodata lib qname qtype zone denial) with
    | .ok .proven => .secure
    | .ok .optedOut => .insecure
    | .error e => .bogus (.negativeUnproven rcode qname qtype e)

end

end RolodexDns.ResponseReading
