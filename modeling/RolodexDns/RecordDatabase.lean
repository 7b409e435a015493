import RolodexDns.ServerOperations

/-! The records of the database as lookups find them: the global ones by rows, those of the network
scopes by the text keys of the map that holds them. A lookup that finds nothing at a name tries the
wildcard one label up. -/
namespace RolodexDns.RecordDatabase
open ProgramTrees ProgramTraces StoredRecords ServerOperations

section

/-- The first label replaced by `*`; a single label has no wildcard. -/
def makeWildcardName (normalized : Text) : Option Text :=
  match (trimEndDots normalized).dropWhile (· ≠ '.') with
  | [] => none
  | _::parent => some (['*','.']++parent++['.'])

def renamed (name : Text) (records : List DnsRecord) : List DnsRecord := records.map fun r => { r with name := name }

variable (find : Text → List DnsRecord)

/-- What is found at the name, or else at its wildcard, under the name that was asked for. -/
def orWildcard (normalized : Text) : List DnsRecord :=
  let records := find normalized
  if !records.isEmpty then records
  else match makeWildcardName normalized with
    | none => records
    | some wildcard => renamed normalized (find wildcard)

/-- The name and each of its ancestors but the root. -/
def ancestorNames (normalized : Text) : List Text :=
  (labelsOf normalized).tails.filterMap fun labels =>
    if (joinLabels labels).isEmpty then none else some (joinLabels labels++['.'])

def closest (names : List Text) : List DnsRecord :=
  ((names.map find).find? fun found => !found.isEmpty).getD []

end

section
variable (toLowercase : Text → Text) (rows : List DnsRecord) (name : Text) (kind : Option RecordKind)

def lookupExact (normalized : Text) (kind : Option RecordKind) : List DnsRecord :=
  rows.filter fun r => r.name=normalized && kind.all (· = r.recordType)

def lookup : List DnsRecord :=
  orWildcard (lookupExact rows · kind) (normalizeName toLowercase name)

def lookupNoWildcard : List DnsRecord :=
  lookupExact rows (normalizeName toLowercase name) kind

/-- All four lookups of a type in one; a name without a wildcard is looked up under the empty one. -/
def lookupWithFallbacks (kind : RecordKind) : LookupResult :=
  let normalized := normalizeName toLowercase name
  let wildcardName := (makeWildcardName normalized).getD []
  ⟨lookupExact rows normalized (some kind),renamed normalized (lookupExact rows wildcardName (some kind)),
    lookupExact rows normalized (some .CNAME),lookupExact rows normalized (some .ANAME)⟩

def wildcardOwnerFor : Option Text :=
  (makeWildcardName (normalizeName toLowercase name)).filter fun wildcard => !(lookupExact rows wildcard none).isEmpty

def nameOccupied : Bool :=
  let normalized := normalizeName toLowercase name
  rows.any fun r => r.name=normalized || ('.' :: normalized).isSuffixOf r.name

def closestSoa : List DnsRecord :=
  closest (lookupExact rows · (some .SOA)) (ancestorNames (normalizeName toLowercase name))

end

/-- The records of all scopes, under keys of scope, name and type. -/
abbrev ScopedCache := List (Text × List DnsRecord)

section

def scopedRecordCacheKey (scope normalized : Text) : Option RecordKind → Text
  | some kind => scope ++ ':' :: normalized ++ ':' :: kind.asStr
  | none => scope ++ ':' :: normalized++[':','*']

def beforeLastColon (s : Text) : Option Text :=
  let upTo := s.rdropWhile (· ≠ ':')
  if upTo.isEmpty then none else some upTo.dropLast

variable (toLowercase : Text → Text) (cache : ScopedCache) (scope name : Text) (kind : Option RecordKind)

def lookupScopedExact (normalized : Text) : Option RecordKind → List DnsRecord
  | some kind => (cache.lookup (scopedRecordCacheKey scope normalized (some kind))).getD []
  | none => (cache.filter fun e => (scope ++ ':' :: normalized++[':']).isPrefixOf e.1).flatMap Prod.snd

def lookupScoped : List DnsRecord :=
  orWildcard (lookupScopedExact cache scope · kind) (normalizeName toLowercase name)

def lookupScopedNoWildcard : List DnsRecord :=
  lookupScopedExact cache scope (normalizeName toLowercase name) kind

def scopedWildcardOwnerFor : Option Text :=
  (makeWildcardName (normalizeName toLowercase name)).filter fun wildcard =>
    !(lookupScopedNoWildcard toLowercase cache scope wildcard none).isEmpty

def scopedNameOccupied : Bool :=
  let normalized := normalizeName toLowercase name
  cache.any fun e =>
    if (scope ++ ':' :: normalized++[':']).isPrefixOf e.1 then true
    else match List.dropPrefix? e.1 (scope++[':']) with
      | none => false
      | some rest => (beforeLastColon rest).any fun recordName => ('.' :: normalized).isSuffixOf recordName

def closestScopedSoa : List DnsRecord :=
  closest (lookupScopedNoWildcard toLowercase cache scope · (some .SOA))
    (ancestorNames (normalizeName toLowercase name))

/-- The zone of a stored name: its last two labels, or the only one. -/
def zoneOf : Option Text :=
  let parts := labelsOf name
  if 2 ≤ parts.length then some (joinLabels (parts.drop (parts.length - 2))++['.'])
  else match parts with
    | [part] => if part.isEmpty then none else some (part++['.'])
    | _ => none

end

/-- The records of the server, and whatever else its reads are answered from. -/
structure Database where
  rows : List DnsRecord
  scopedRows : List (Text × DnsRecord)
  scopedCache : ScopedCache
  other : (o : LocalOp) → LocalRes o
  /-- Names are stored with their final dot. -/
  normalized : ∀ r∈rows,r.name.getLast?=some '.'

def Database.read (toLowercase : Text → Text) (db : Database) : (o : LocalOp) → LocalRes o
  | .lookup name kind => some (lookup toLowercase db.rows name kind)
  | .lookupNoWildcard name kind => some (lookupNoWildcard toLowercase db.rows name kind)
  | .lookupWithFallbacks name kind => some (lookupWithFallbacks toLowercase db.rows name kind)
  | .nameOccupied name => some (nameOccupied toLowercase db.rows name)
  | .wildcardOwnerFor name => some (wildcardOwnerFor toLowercase db.rows name)
  | .closestSoa name => some (closestSoa toLowercase db.rows name)
  | .lookupScoped scope name kind => lookupScoped toLowercase db.scopedCache scope name kind
  | .scopedNameOccupied scope name => scopedNameOccupied toLowercase db.scopedCache scope name
  | .scopedWildcardOwnerFor scope name => scopedWildcardOwnerFor toLowercase db.scopedCache scope name
  | .closestScopedSoa scope name => closestScopedSoa toLowercase db.scopedCache scope name
  | .getScopedManagedZones scope =>
    some ((db.scopedRows.filter (·.1=scope)).filterMap fun e => zoneOf e.2.name).eraseDups
  | o => db.other o

section
variable {α : Type} {reply : (o : LocalOp) → LocalRes o}

def answering (reply : (o : LocalOp) → LocalRes o) : Contract LocalOp LocalRes := ⟨fun _ => True,fun o r => r=reply o⟩

theorem eval_of_sat {p : LocalProg α} {Q : α → Prop} (h : p.Sat (answering reply) Q) : Q (eval reply p) := by
  induction p with
  | pure a => exact h
  | op o next ih => exact ih _ (h.2 _ rfl)

theorem eval_read (o : LocalOp) (f : LocalRes o → LocalProg α) :
    eval reply (LocalProg.perform o >>= f)=eval reply (f (reply o)) := rfl

theorem eval_firstSome (steps : List (LocalProg (Option α))) :
    eval reply (firstSome steps)=steps.findSome? (eval reply) := by
  induction steps with
  | nil => rfl
  | cons step steps ih =>
    rw [firstSome,eval_bind,List.findSome?_cons]
    cases eval reply step with
    | none => exact ih
    | some a => rfl

end

end RolodexDns.RecordDatabase
