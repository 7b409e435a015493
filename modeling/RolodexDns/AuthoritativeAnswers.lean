import RolodexDns.ServerOperations

/-! Negative answers from the server's own data: which of the two negatives a name is owed, the SOA,
and the NSEC records that prove it to a client that set DO. -/
namespace RolodexDns.AuthoritativeAnswers
open DnsRecords StoredRecords WireMessages ServerOperations

/-- Which data an answer is decided from: the global records, one scope's, or for a local client
under an owned TLD both. -/
inductive Namespace where
  | global
  | scope (name : Text)
  | lanFallback (owner : Text)

inductive Presence where
  | real
  | wildcard (owner : Text)
  | absent

def Presence.exists : Presence → Bool
  | absent => false
  | _ => true

section
variable (lib : ServerLibrary) (qname : Text)

/-- The signatures that go with an RRset, for a client that set DO and a zone whose signatures are
current. -/
def answerSignatures (ctx : Option EdnsContext) (qname : Text) (kind : RecordKind) : LocalProg (List Record) := do
  if !dnssecOk ctx then return []
  else
    match ← LocalProg.perform (.findSignedZone qname) with
    | none => return []
    | some _ =>
      if ← LocalProg.perform (.zoneSignaturesStale qname) then return []
      else
        match ← LocalProg.perform (.rrsigsCovering qname kind) with
        | some sigs => return sigs.filterMap lib.dbRecordToDnsRecord
        | none => return []

def negativeSoa : Namespace → LocalProg (List Record)
  | .global => do
    let found ← LocalProg.perform (.closestSoa qname)
    return (found.getD []).filterMap lib.dbRecordToDnsRecord
  | .scope scope => do
    let found ← LocalProg.perform (.closestScopedSoa scope qname)
    return found.filterMap lib.dbRecordToDnsRecord
  | .lanFallback scope => do
    let own ← LocalProg.perform (.closestScopedSoa scope qname)
    if !own.isEmpty then return own.filterMap lib.dbRecordToDnsRecord
    else
      let found ← LocalProg.perform (.closestSoa qname)
      return (found.getD []).filterMap lib.dbRecordToDnsRecord

/-- Walks up from the labels of the name to the first ancestor that exists, down to the apex. -/
def closestEncloser (apex : Text) : List Text → LocalProg Text
  | [] => return apex
  | [_] => return apex
  | _::parent => do
    if (joinLabels parent).isEmpty then return apex
    else
      let candidate := joinLabels parent++['.']
      if !nameInZone lib.toLowercase candidate apex then return apex
      else
        match ← LocalProg.perform (.nameOccupied candidate) with
        | some true => return candidate
        | some false => closestEncloser apex parent
        | none => return candidate

/-- The owners whose NSEC records make up a proof; `none` when it cannot be completed. -/
def proofOwners (chain : List DnsRecord) (qname zone : Text) : Presence → LocalProg (Option (List Text))
  | .real =>
    if chain.any (·.name=normalized) then return some [normalized]
    else return (covering normalized).map fun c => [c]
  | .wildcard owner => return (covering normalized).map fun closer => [owner,closer]
  | .absent => do
    let encloser ← closestEncloser lib (normalizeName lib.toLowercase zone) (labelsOf normalized)
    let wildcard := ['*','.']++encloser
    if chain.any (·.name=wildcard) then return none
    else
      match covering normalized, covering wildcard with
      | some a, some b => return some [a,b]
      | _, _ => return none
where
  normalized : Text := normalizeName lib.toLowercase qname
  covering (name : Text) : Option Text :=
    (chain.find? fun r => (lib.nsecNextOwner r.value).any fun next => lib.nsecCovers r.name next name).map
      DnsRecord.name

/-- The NSEC records at the owners with their signatures: all of them or none. -/
def proofRecords (ctx : Option EdnsContext) : List Text → LocalProg (Option (List Record))
  | [] => return some []
  | owner::owners => do
    match ← LocalProg.perform (.lookupNoWildcard owner (some .NSEC)) with
    | none => return none
    | some nsec =>
      let sigs ← answerSignatures lib ctx owner .NSEC
      if nsec.isEmpty || sigs.isEmpty then return none
      else
        match ← proofRecords ctx owners with
        | none => return none
        | some rest => return some (nsec.filterMap lib.dbRecordToDnsRecord++sigs++rest)

def denialProof (ctx : Option EdnsContext) (qname : Text) (presence : Presence) : LocalProg (List Record) := do
  if !dnssecOk ctx then return []
  else
    match ← LocalProg.perform (.findSignedZone qname) with
    | none => return []
    | some zone =>
      if ← LocalProg.perform (.zoneSignaturesStale qname) then return []
      else
        match ← LocalProg.perform (.zoneNsecRecords zone) with
        | none => return []
        | some chain =>
          match ← proofOwners lib chain qname zone presence with
          | none => return []
          | some owners => return (← proofRecords lib ctx owners.eraseDups).getD []

/-- Whether the name exists, by record or by synthesis. A failed check counts as absent. -/
def presenceOf : Namespace → LocalProg Presence
  | .global => do
    if ← globalOccupied then return .real
    else return ((← globalWildcard).map Presence.wildcard).getD .absent
  | .scope scope => do
    if ← LocalProg.perform (.scopedNameOccupied scope qname) then return .real
    else
      let owner ← LocalProg.perform (.scopedWildcardOwnerFor scope qname)
      return (owner.map Presence.wildcard).getD .absent
  | .lanFallback scope => do
    if ← LocalProg.perform (.scopedNameOccupied scope qname) then return .real
    else if ← globalOccupied then return .real
    else
      match ← LocalProg.perform (.scopedWildcardOwnerFor scope qname) with
      | some owner => return .wildcard owner
      | none => return ((← globalWildcard).map Presence.wildcard).getD .absent
where
  globalOccupied : LocalProg Bool := do
    let occupied ← LocalProg.perform (.nameOccupied qname)
    return occupied.getD false
  globalWildcard : LocalProg (Option Text) := do
    let owner ← LocalProg.perform (.wildcardOwnerFor qname)
    return owner.join

def authoritativeNegative (ask : Asked) (ns : Namespace) : LocalProg Reply := do
  let presence ← presenceOf ask.qname ns
  let rcode : ResponseCode := if presence.exists then .NoError else .NXDomain
  let soa ← negativeSoa lib ask.qname ns
  match ns with
  | .global =>
    match ← LocalProg.perform (.findSignedZone ask.qname) with
    | none => return ⟨rcode,[],soa,true,true⟩
    | some apex =>
      let owner := (soa.head?.map fun r => lib.nameText r.name).getD apex
      let sigs ← answerSignatures lib ask.ctx owner .SOA
      let proof ← denialProof lib ask.ctx ask.qname presence
      return ⟨rcode,[],soa++sigs++proof,true,true⟩
  | _ => return ⟨rcode,[],soa,true,true⟩

end

end RolodexDns.AuthoritativeAnswers
