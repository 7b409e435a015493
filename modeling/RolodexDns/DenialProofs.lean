import RolodexDns.Base32Hex
import RolodexDns.SignatureValidation

/-! The denial-of-existence proofs the validator accepts, from NSEC and from NSEC3 records. -/
namespace RolodexDns.DenialProofs
open DomainNames DnsRecords ValidationVerdicts CyclicIntervals Base32Hex

/-- The NSEC and NSEC3 records of an authority section, each with its owner. -/
structure Denial where
  nsec : List (Name × Nsec)
  nsec3 : List (Name × Nsec3)
deriving DecidableEq

def Denial.fromRecords (records : List Record) : Denial where
  nsec := records.filterMap fun r => r.data.asNsec.map (r.name,·)
  nsec3 := records.filterMap fun r => r.data.asNsec3.map (r.name,·)

def Denial.isEmpty (d : Denial) : Bool := d.nsec.isEmpty && d.nsec3.isEmpty

/-- A proof, or the opt-out span that stands in for one. -/
inductive Denied where
  | proven
  | optedOut
deriving DecidableEq

def maxNsec3Iterations : Nat := 100

/-- Whether the range of one NSEC covers `name`; the last NSEC of a zone wraps to the apex. -/
def nsecCovers (name : Name) (entry : Name × Nsec) : Bool := Between entry.1 name entry.2.nextDomainName

def nsecCoversName (denial : Denial) (name : Name) : Bool := denial.nsec.any (nsecCovers name)

/-- `*.name`, or the name itself when that would be too long. -/
def prependWildcard (name : Name) : Name := (name.prependLabel star).getD name

/-- `*` at the parent of `qname`, clamped to the apex. -/
def wildcardOf (qname zone : Name) : Name :=
  prependWildcard (if zone.zoneOf qname.baseName then qname.baseName else zone)

/-- The ancestor of `qname` one label longer than `encloser`. -/
def nextCloserName (qname encloser : Name) : Option Name :=
  if qname.numLabels ≤ encloser.numLabels then none else some (qname.trimTo (encloser.numLabels+1))

def asciiUpper (b : UInt8) : UInt8 := if 97 ≤ b ∧ b ≤ 122 then b - 32 else b

section
variable (lib : Library) (qname : Name) (qtype : RecordType) (kind : DenialKind) (child zone : Name)

/-- The text of a label in upper case. Only text outside ASCII is left to the library. -/
def upperText (l : Label) : List UInt8 :=
  if l.bytes.all (· < 128) then l.bytes.map asciiUpper else lib.lossyUpper l.bytes

/-- The owner label of an NSEC3 record, as hash text. -/
def ownerHash (owner : Name) : Option (List UInt8) := owner.labels.head?.map (upperText lib)

def hashed (nsec3 : Nsec3) (name : Name) : Except ValidationError (List UInt8) :=
  if maxNsec3Iterations<nsec3.iterations then .error (.tooManyIterations nsec3.iterations)
  else if nsec3.hashAlgorithm≠1 then .error (.unsupportedHash nsec3.hashAlgorithm)
  else match lib.nsec3Hash nsec3.salt name nsec3.iterations with
    | none => .error (.hashingFailed name)
    | some digest => .ok (base32hex digest)

/-- The first entry that `accepts` the hash of `name`, given the entry's owner text. -/
def findNsec3 (accepts : List UInt8 → Nsec3 → List UInt8 → Bool) (name : Name) :
    List (Name × Nsec3) → Except ValidationError (Option (Name × Nsec3))
  | [] => .ok none
  | entry::rest =>
    match ownerHash lib entry.1 with
    | none => findNsec3 accepts name rest
    | some owner =>
      match hashed lib entry.2 name with
      | .error e => .error e
      | .ok target => if accepts owner entry.2 target then .ok (some entry) else findNsec3 accepts name rest

def nsec3Matching (denial : Denial) (name : Name) : Except ValidationError (Option (Name × Nsec3)) :=
  findNsec3 lib (fun owner _ target => target=owner) name denial.nsec3

/-- The NSEC3 record whose range covers the hash of `name`, both ends excluded. -/
def nsec3Covering (denial : Denial) (name : Name) : Except ValidationError (Option (Name × Nsec3)) :=
  findNsec3 lib (fun owner nsec3 target => Between owner target (base32hex nsec3.nextHashedOwnerName))
    name denial.nsec3

/-- One step of the walk of `closestEncloser`: the ancestor with `take` labels, if it matches. -/
def encloserAt (denial : Denial) (qname : Name) (take : Nat) :
    Except ValidationError (Option (Name × Name)) :=
  match nsec3Matching lib denial (qname.trimTo take) with
  | .error e => .error e
  | .ok none => .ok none
  | .ok (some _) =>
    .ok (some (qname.trimTo take,(nextCloserName qname (qname.trimTo take)).getD (qname.trimTo take)))

def closestEncloserFrom (denial : Denial) (qname : Name) :
    Nat → Except ValidationError (Option (Name × Name))
  | 0 => encloserAt lib denial qname 0
  | take+1 =>
    match encloserAt lib denial qname (take+1) with
    | .error e => .error e
    | .ok (some found) => .ok (some found)
    | .ok none => closestEncloserFrom denial qname take

/-- The longest ancestor with an NSEC3 record of its own, and the name one label below it. -/
def closestEncloser (denial : Denial) : Except ValidationError (Option (Name × Name)) :=
  closestEncloserFrom lib denial qname qname.numLabels

def checkNoDs (types : List RecordType) :
    Except ValidationError Denied :=
  if .DS∈types then .error (.assertsDs kind child)
  else if .SOA∈types then .error (.childApex kind child)
  else if .NS∉types then .error (.assertsNoDelegation kind child)
  else .ok .proven

def proveNoDs (denial : Denial) : Except ValidationError Denied :=
  if denial.isEmpty then .error (.neitherDsNorDenial child)
  else match denial.nsec.find? (·.1=child) with
  | some entry => checkNoDs .nsec child entry.2.typeBitMaps
  | none =>
    match nsec3Matching lib denial child with
    | .error e => .error e
    | .ok (some entry) => checkNoDs .nsec3 child entry.2.typeBitMaps
    | .ok none =>
      match closestEncloser lib child denial with
      | .error e => .error e
      | .ok none => .error (.noProofOfNoDs child)
      | .ok (some (ce,nextCloser)) =>
        match nsec3Covering lib denial nextCloser with
        | .error e => .error e
        | .ok none => .error (.noProofOfNoDs child)
        | .ok (some entry) =>
          if entry.2.optOut then .ok .optedOut else .error (.notOptOut nextCloser ce child)

/-- The NSEC half of `proveNxdomain`: the name and the wildcard at its parent are ruled out. -/
def proveNxdomainNsec (qname zone : Name) (denial : Denial) : Except ValidationError Denied :=
  if denial.nsec.any (·.1=qname) then .error (.assertsName qname)
  else if nsecCoversName denial qname=false then .error (.notCovered qname)
  else if nsecCoversName denial (wildcardOf qname zone)=false ∧
      denial.nsec.any (·.1=wildcardOf qname zone)=false then
    .error (.wildcardNotRuledOut .nsec (wildcardOf qname zone) qname)
  else .ok .proven

/-- The NSEC3 half: closest encloser, next closer name and the encloser's wildcard. -/
def proveNxdomainNsec3 (denial : Denial) : Except ValidationError Denied :=
  match closestEncloser lib qname denial with
  | .error e => .error e
  | .ok none => .error (.noClosestEncloser qname)
  | .ok (some (ce,nextCloser)) =>
    match nsec3Covering lib denial nextCloser with
    | .error e => .error e
    | .ok none => .error (.nextCloserNotCovered nextCloser)
    | .ok (some covering) =>
      match nsec3Covering lib denial (prependWildcard ce) with
      | .error e => .error e
      | .ok (some _) => .ok (if covering.2.optOut then .optedOut else .proven)
      | .ok none =>
        match nsec3Matching lib denial (prependWildcard ce) with
        | .error e => .error e
        | .ok none => .error (.wildcardNotRuledOut .nsec3 (prependWildcard ce) qname)
        | .ok (some _) => .ok (if covering.2.optOut then .optedOut else .proven)

def proveNxdomain (qname zone : Name) (denial : Denial) : Except ValidationError Denied :=
  if denial.nsec≠[] then proveNxdomainNsec qname zone denial
  else if denial.nsec3≠[] then proveNxdomainNsec3 lib qname denial
  else .error (.noDenialForNxdomain qname)

def checkNodata (qname : Name) (qtype : RecordType) (types : List RecordType) :
    Except ValidationError Denied :=
  if qtype∈types then .error (.assertsType kind qname qtype)
  else if .CNAME∈types then .error (.assertsCname kind qname)
  else .ok .proven

def proveNodataNsec (denial : Denial) :
    Except ValidationError Denied :=
  match denial.nsec.find? (·.1=qname) with
  | some entry => checkNodata .nsec qname qtype entry.2.typeBitMaps
  | none =>
    match denial.nsec.find? (·.1=wildcardOf qname zone) with
    | none => .error (.typeNotDenied .nsec qname qtype)
    | some entry =>
      -- a CNAME in the wildcard's bitmap is not looked at here
      if qtype∈entry.2.typeBitMaps then
        .error (.wildcardAssertsType .nsec (wildcardOf qname zone) qtype)
      else if nsecCoversName denial qname=false then
        .error (.wildcardWithoutCover (wildcardOf qname zone) qtype qname)
      else .ok .proven

def proveNodataNsec3 (denial : Denial) :
    Except ValidationError Denied :=
  match nsec3Matching lib denial qname with
  | .error e => .error e
  | .ok (some entry) => checkNodata .nsec3 qname qtype entry.2.typeBitMaps
  | .ok none =>
    match closestEncloser lib qname denial with
    | .error e => .error e
    | .ok none => .error (.neitherMatchedNorEnclosed qname)
    | .ok (some (ce,nextCloser)) =>
      match nsec3Matching lib denial (prependWildcard ce) with
      | .error e => .error e
      | .ok (some entry) =>
        if qtype∈entry.2.typeBitMaps then .error (.wildcardAssertsType .nsec3 (prependWildcard ce) qtype)
        else .ok .proven
      | .ok none =>
        match nsec3Covering lib denial nextCloser with
        | .error e => .error e
        | .ok none => .error (.typeNotDenied .nsec3 qname qtype)
        | .ok (some covering) =>
          if covering.2.optOut then .ok .optedOut else .error (.typeNotDenied .nsec3 qname qtype)

def proveNodata (denial : Denial) :
    Except ValidationError Denied :=
  if denial.nsec≠[] then proveNodataNsec qname qtype zone denial
  else if denial.nsec3≠[] then proveNodataNsec3 lib qname qtype denial
  else .error (.noDenialForNodata qname)

/-- Proves that a name answered from the wildcard below `encloser` does not exist itself. -/
def proveWildcardExpansion (qname encloser : Name) (denial : Denial) : Except ValidationError Denied :=
  if denial.isEmpty then .error (.wildcardWithoutDenial qname encloser)
  else if denial.nsec≠[] then
    if nsecCoversName denial qname then .ok .proven else .error (.wildcardNotCovered qname encloser)
  else match nextCloserName qname encloser with
    | none => .error (.notEnclosed encloser qname)
    | some nextCloser =>
      match nsec3Covering lib denial nextCloser with
      | .error e => .error e
      | .ok none => .error (.wildcardNextCloserNotCovered nextCloser qname)
      | .ok (some entry) => .ok (if entry.2.optOut then .optedOut else .proven)

end

end RolodexDns.DenialProofs
