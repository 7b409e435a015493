import RolodexDns.LikePatterns
import RolodexDns.RecordDatabase
import RolodexDns.SharedStores

/-! The global records and what is kept beside them: the zones they make the server authoritative for, and which
signed zones await or undergo a signing pass. Adding or removing records writes the table and then marks the
zone. -/
namespace RolodexDns.RecordStores
open StoredRecords RecordDatabase ProgramTrees SharedStores LikePatterns

structure RecordStore where
  rows : List DnsRecord
  managedZones : List Text
  signedZones : List Text
  resignPending : List Text
  resignActive : List Text

section
variable (toLowercase : Text → Text)

def reverseSuffixes : List Text := ["in-addr.arpa.","ip6.arpa."]

/-- The zone that a name stands for: its last two labels, and none for reverse names. -/
def extractZoneFromName (name : Text) : Option Text :=
  let normalized := normalizeName toLowercase name
  if reverseSuffixes.any (nameInZone toLowercase normalized) then none
  else zoneOf normalized

def zoneHasRecords (rows : List DnsRecord) (zone : Text) : Bool :=
  rows.any fun r => r.name=zone || like (some '\\') ('%' :: '.' :: likeEscape zone) r.name

def isZoneContent : RecordKind → Bool
  | .DNSKEY | .NSEC | .RRSIG => false
  | _ => true

def findSignedZone (signedZones : List Text) (name : Text) : Option Text :=
  let normalized := normalizeName toLowercase name
  if normalized∈signedZones then some normalized
  else (ancestorNames normalized).find? (· ∈ signedZones)

def insertZone (zones : List Text) (zone : Text) : List Text := if zone∈zones then zones else zones++[zone]

theorem mem_insertZone {zones : List Text} {zone z : Text} : z∈insertZone zones zone ↔ z∈zones ∨ z=zone := by
  unfold insertZone
  split_ifs with h
  · refine ⟨.inl,?_⟩
    rintro (hz | rfl)
    · exact hz
    · exact h
  · simp

end

inductive RecordOp where
  | insertRow (record : DnsRecord)
  | deleteRows (name : Text) (kind : Option RecordKind) (value : Text)
  | markZoneResignPending (name : Text)
  | forceZoneResignPending (zone : Text)
  | clearZoneResignPending (zone : Text)
  | beginZoneResign (zone : Text)
  | endZoneResign (zone : Text)
  | listRecordsBelow (zone : Text)

abbrev RecordRes : RecordOp → Type
  | .deleteRows _ _ _ => Nat
  | .listRecordsBelow _ => List DnsRecord
  | _ => Unit

abbrev RecordProg := Prog RecordOp RecordRes

abbrev RecordProg.perform (o : RecordOp) : RecordProg (RecordRes o) := Prog.perform o

section
variable (toLowercase : Text → Text) (s : RecordStore) (name : Text)

def isDeleted (normalized : Text) (kind : Option RecordKind) (value : Text) (r : DnsRecord) : Bool :=
  r.name=normalized && kind.all (r.recordType = ·) && (value.isEmpty || r.value=value)

def RecordStore.exec : (o : RecordOp) → RecordRes o × RecordStore
  -- the connection is held while the zones are brought in line
  | .insertRow record =>
    let normalized := normalizeName toLowercase record.name
    ((),{ s with
      rows := s.rows++[{ record with name := normalized }]
      managedZones := ((extractZoneFromName toLowercase normalized).map (insertZone s.managedZones)).getD
        s.managedZones })
  | .deleteRows name kind value =>
    let normalized := normalizeName toLowercase name
    let rows := s.rows.filter fun r => !isDeleted normalized kind value r
    let count := s.rows.countP (isDeleted normalized kind value)
    (count,{ s with
      rows := rows
      managedZones :=
        match extractZoneFromName toLowercase normalized with
        | none => s.managedZones
        | some zone => if 0<count ∧ zoneHasRecords rows zone=false then s.managedZones.filter (· ≠ zone) else
            s.managedZones })
  | .markZoneResignPending name =>
    ((),{ s with
      resignPending := ((findSignedZone toLowercase s.signedZones name).map (insertZone s.resignPending)).getD
        s.resignPending })
  | .forceZoneResignPending zone =>
    ((),{ s with resignPending := insertZone s.resignPending (normalizeName toLowercase zone) })
  | .clearZoneResignPending zone =>
    ((),{ s with resignPending := s.resignPending.filter (· ≠ normalizeName toLowercase zone) })
  | .beginZoneResign zone => ((),{ s with resignActive := insertZone s.resignActive (normalizeName toLowercase zone) })
  | .endZoneResign zone => ((),{ s with resignActive := s.resignActive.filter (· ≠ normalizeName toLowercase zone) })
  -- the names that end like the zone; the pattern is not escaped
  | .listRecordsBelow zone => (s.rows.filter fun r => like none ('%' :: normalizeName toLowercase zone) r.name,s)

def recordStore : Store RecordStore RecordOp RecordRes where
  enabled _ _ := true
  exec := RecordStore.exec toLowercase

/-- Signatures are being replaced, or a mutation has not been signed yet. -/
def RecordStore.zoneSignaturesStale : Bool :=
  (findSignedZone toLowercase s.signedZones name).any fun zone => zone∈s.resignPending || zone∈s.resignActive

/-- The server starts anew: the zones are derived from the rows, and every signed zone is to be signed again. -/
def RecordStore.restart : RecordStore :=
  { s with
    managedZones := s.rows.foldl (fun zones r =>
      ((extractZoneFromName toLowercase r.name).map (insertZone zones)).getD zones) []
    resignPending := s.signedZones
    resignActive := [] }

def addRecord (record : DnsRecord) : RecordProg Unit := do
  RecordProg.perform (.insertRow record)
  if isZoneContent record.recordType then
    RecordProg.perform (.markZoneResignPending (normalizeName toLowercase record.name))

def removeRecords (kind : Option RecordKind) (value : Text) : RecordProg Nat := do
  let count ← RecordProg.perform (.deleteRows name kind value)
  if 0<count ∧ (kind.map isZoneContent).getD true=true then
    RecordProg.perform (.markZoneResignPending (normalizeName toLowercase name))
    return count
  else return count

end

end RolodexDns.RecordStores
