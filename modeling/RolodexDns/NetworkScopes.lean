import Mathlib.Logic.Function.Basic
import RolodexDns.GroupedCaches
import RolodexDns.RecordDatabase
import RolodexDns.SharedStores

/-! The network scopes: their tables, the caches beside them, and the calls that change both. A call checks the
caches, writes the tables while it holds the connection, and then brings the caches in line; every such step
is an operation of its own. -/
namespace RolodexDns.NetworkScopes
open DnsRecords StoredRecords ServerOperations RecordDatabase ProgramTrees SharedStores

structure ScopeFormats where
  toLowercase : Text → Text
  parseSocketAddr : Text → Option SocketAddr
  parseIp : Text → Option IpAddr
  formatIp : IpAddr → Text

/-- A normalized name is left as it is, and an address is read back. -/
structure ScopeFormats.Lawful (fmt : ScopeFormats) : Prop where
  normalizeName_normalizeName : ∀ s,normalizeName fmt.toLowercase (normalizeName fmt.toLowercase s) =
    normalizeName fmt.toLowercase s
  parseIp_formatIp : ∀ ip,fmt.parseIp (fmt.formatIp ip)=some ip

/-- A scope is being deleted: its rows are gone, the connection is still held, and these caches are done. -/
structure Deletion where
  scope : Text
  ownersDone : Bool
  forwardersDone : Bool

structure ScopeStore where
  /-- Scopes and their home domains. -/
  networkScopes : List (Text × Text)
  scopedRows : List (Text × DnsRecord)
  /-- Scopes and their additional TLDs. -/
  scopeTlds : List (Text × Text)
  /-- Scopes, TLDs and peers. -/
  scopeTldForwarders : List (Text × Text × Text)
  /-- Scopes, TLDs and addresses. -/
  tldListeners : List (Text × Text × Text)
  scopeCount : Nat
  scopedCache : ScopedCache
  tldOwners : Text → Option Text
  tldForwarders : Text → Option (List SocketAddr)
  tldIngress : Text → Option IpAddr
  held : Option Deletion

def tldFwdKey (scope tld : Text) : Text := scope++Char.ofNat 0::tld

inductive ScopeError where
  | tldConflict (tld owner : Text)
  | createFailed
  | addFailed
  | listenerFailed
  | forwardersFailed
  | emptyTld
  | noScope (scope : Text)
  | homeDomain (tld scope : Text)
  | ownedByOther (tld owner scope : Text)
  | notOwned (tld scope : Text)
  | invalidForwarder (addr : Text)
deriving DecidableEq

/-- The steps of the calls. A step on the tables takes the connection and gives it back, but for the deletion
of a scope, which keeps it while it cleans the caches. -/
inductive StoreOp where
  | tldOwner (tld : Text)
  | networkScope (name : Text)
  | insertScope (name home : Text)
  | addScopeCount
  | setOwner (tld scope : Text)
  | removeOwner (tld : Text)
  | deleteScope (name : Text)
  | evictScoped
  | evictOwners
  | evictForwarders
  | subScopeCount
  | release
  | insertScopeTld (scope tld : Text)
  | deleteScopeTld (scope tld : Text)
  | replaceForwarders (scope tld : Text) (addrs : List Text)
  | setForwarders (scope tld : Text) (peers : List SocketAddr)
  | removeForwarders (scope tld : Text)
  | upsertListener (scope tld : Text) (ip : IpAddr)
  | deleteListener (scope tld : Text)
  | setIngress (tld : Text) (ip : IpAddr)
  | removeIngress (tld : Text)

/-- An insertion can violate a constraint; deletions say whether there was a row. -/
abbrev StoreRes : StoreOp → Type
  | .tldOwner _ => Option Text
  | .networkScope _ => Option Text
  | .insertScope _ _ => Bool
  | .deleteScope _ => Bool
  | .insertScopeTld _ _ => Bool
  | .deleteScopeTld _ _ => Bool
  | .replaceForwarders _ _ _ => Bool
  | .upsertListener _ _ _ => Bool
  | .deleteListener _ _ => Bool
  | _ => Unit

abbrev ScopeProg := Prog StoreOp StoreRes

abbrev ScopeProg.perform (o : StoreOp) : ScopeProg (StoreRes o) := Prog.perform o

section
variable (fmt : ScopeFormats) (scope tld : Text)

/-- What a call returns: whether rows were removed, for the calls that say so. -/
abbrev Outcome := Except ScopeError (Option Bool)

def createNetworkScope (name homeDomain : Text) : ScopeProg Outcome := do
  let home := normalizeName fmt.toLowercase homeDomain
  let found ← ScopeProg.perform (.tldOwner home)
  match found.filter (· ≠ name) with
  | some owner => return .error (.tldConflict home owner)
  | none =>
    if ← ScopeProg.perform (.insertScope name home) then
      ScopeProg.perform .addScopeCount
      ScopeProg.perform (.setOwner home name)
      return .ok none
    else return .error .createFailed

def deleteNetworkScope (name : Text) : ScopeProg Outcome := do
  let deleted ← ScopeProg.perform (.deleteScope name)
  ScopeProg.perform .evictScoped
  ScopeProg.perform .evictOwners
  ScopeProg.perform .evictForwarders
  if deleted then
    ScopeProg.perform .subScopeCount
    ScopeProg.perform .release
    return .ok (some true)
  else
    ScopeProg.perform .release
    return .ok (some false)

def addScopeTld : ScopeProg Outcome := do
  let tld := normalizeName fmt.toLowercase tld
  if tld=[] ∨ tld=['.'] then return .error .emptyTld
  else do
    let found ← ScopeProg.perform (.tldOwner tld)
    match found.filter (· ≠ scope) with
    | some owner => return .error (.tldConflict tld owner)
    | none =>
      match ← ScopeProg.perform (.networkScope scope) with
      | none => return .error (.noScope scope)
      | some _ =>
        if ← ScopeProg.perform (.insertScopeTld scope tld) then
          ScopeProg.perform (.setOwner tld scope)
          return .ok none
        else return .error .addFailed

def removeScopeTld : ScopeProg Outcome := do
  let tld := normalizeName fmt.toLowercase tld
  let home ← ScopeProg.perform (.networkScope scope)
  if home.any (normalizeName fmt.toLowercase · = tld) then return .error (.homeDomain tld scope)
  else do
    if ← ScopeProg.perform (.deleteScopeTld scope tld) then
      ScopeProg.perform (.removeOwner tld)
      ScopeProg.perform (.removeForwarders scope tld)
      ScopeProg.perform (.removeIngress tld)
      return .ok (some true)
    else return .ok (some false)

def setTldListener (ip : IpAddr) : ScopeProg Outcome := do
  let tld := normalizeName fmt.toLowercase tld
  match ← ScopeProg.perform (.tldOwner tld) with
  | none => return .error (.notOwned tld scope)
  | some owner =>
    if owner=scope then
      if ← ScopeProg.perform (.upsertListener scope tld ip) then
        ScopeProg.perform (.setIngress tld ip)
        return .ok none
      else return .error .listenerFailed
    else return .error (.ownedByOther tld owner scope)

def removeTldListener : ScopeProg Outcome := do
  let tld := normalizeName fmt.toLowercase tld
  if ← ScopeProg.perform (.deleteListener scope tld) then
    ScopeProg.perform (.removeIngress tld)
    return .ok (some true)
  else return .ok (some false)

def parseForwarders : List Text → Except Text (List SocketAddr)
  | [] => .ok []
  | addr::addrs =>
    match fmt.parseSocketAddr addr with
    | none => .error addr
    | some peer => (parseForwarders addrs).map (peer :: ·)

def setScopeTldForwarders (forwarders : List Text) : ScopeProg Outcome :=
  let tld := normalizeName fmt.toLowercase tld
  match parseForwarders fmt forwarders with
  | .error addr => return .error (.invalidForwarder addr)
  | .ok peers => do
    let found ← ScopeProg.perform (.tldOwner tld)
    match found.filter (· ≠ scope) with
    | some owner => return .error (.tldConflict tld owner)
    | none =>
      if ← ScopeProg.perform (.replaceForwarders scope tld forwarders) then
        if peers.isEmpty then
          ScopeProg.perform (.removeForwarders scope tld)
          return .ok none
        else
          ScopeProg.perform (.setForwarders scope tld peers)
          return .ok none
      else return .error .forwardersFailed

end

section
variable (fmt : ScopeFormats) (rows : List (Text × Text × Text)) (s : ScopeStore)

/-- Whether a step needs the connection. -/
def StoreOp.usesTables : StoreOp → Bool
  | networkScope _ | insertScope _ _ | deleteScope _ | insertScopeTld _ _ | deleteScopeTld _ _
  | replaceForwarders _ _ _ | upsertListener _ _ _ | deleteListener _ _ => true
  | _ => false

/-- A scope's peers of a TLD are replaced; an address that is given twice is stored once. -/
def replacePeers (scope tld : Text) (addrs : List Text) : List (Text × Text × Text) :=
  addrs.foldl (fun rows addr => if (scope,tld,addr)∈rows then rows else rows++[(scope,tld,addr)])
    (rows.filter fun e => ¬ (e.1=scope ∧ e.2.1=tld))

/-- The address of a listener is set in its row, or in a new one. -/
def upsert (scope tld ip : Text) : List (Text × Text × Text) :=
  if rows.any fun e => e.1=scope ∧ e.2.1=tld then
    rows.map fun e => if e.1=scope ∧ e.2.1=tld then (scope,tld,ip) else e
  else rows++[(scope,tld,ip)]

def evictPrefix (start : Text) (cache : ScopedCache) : ScopedCache :=
  GroupedCaches.retain (fun key => !start.isPrefixOf key) cache

/-- While a scope is being deleted, its other steps come first, and nothing else gets the connection. -/
def ScopeStore.enabled : StoreOp → Bool
  | .evictScoped | .evictOwners | .evictForwarders | .subScopeCount => s.held.isSome
  | .release => s.held.any fun d => d.ownersDone && d.forwardersDone
  | o => !o.usesTables || s.held.isNone

def ScopeStore.hasScope (name : Text) : Bool := s.networkScopes.any (·.1=name)

/-- The tables of a scope refer to it: no row is inserted for a scope that there is not, and the rows of a scope
go with it. -/
def ScopeStore.exec : (o : StoreOp) → StoreRes o × ScopeStore
  | .tldOwner tld => (s.tldOwners tld,s)
  | .networkScope name => ((s.networkScopes.find? (·.1=name)).map Prod.snd,s)
  | .insertScope name home =>
    -- the name is the primary key, the home domain is unique
    if s.networkScopes.any fun e => e.1=name || e.2=home then (false,s)
    else (true,{ s with networkScopes := s.networkScopes++[(name,home)] })
  | .addScopeCount => ((),{ s with scopeCount := s.scopeCount+1 })
  | .setOwner tld scope => ((),{ s with tldOwners := Function.update s.tldOwners tld (some scope) })
  | .removeOwner tld => ((),{ s with tldOwners := Function.update s.tldOwners tld none })
  | .deleteScope name =>
    (s.hasScope name,
      { s with
        scopedRows := s.scopedRows.filter (·.1≠name)
        scopeTldForwarders := s.scopeTldForwarders.filter (·.1≠name)
        scopeTlds := s.scopeTlds.filter (·.1≠name)
        -- the call leaves the listeners to the foreign key
        tldListeners := if s.hasScope name then s.tldListeners.filter (·.1≠name) else s.tldListeners
        networkScopes := s.networkScopes.filter (·.1≠name)
        held := some ⟨name,false,false⟩ })
  | .evictScoped =>
    ((),{ s with scopedCache := s.held.elim s.scopedCache fun d => evictPrefix (d.scope++[':']) s.scopedCache })
  | .evictOwners =>
    ((),{ s with
      tldOwners := fun tld => (s.tldOwners tld).filter fun owner => s.held.all (owner ≠ ·.scope)
      held := s.held.map ({ · with ownersDone := true }) })
  | .evictForwarders =>
    ((),{ s with
      tldForwarders := fun key => (s.tldForwarders key).filter fun _ => s.held.all fun d =>
        !(d.scope++[Char.ofNat 0]).isPrefixOf key
      held := s.held.map ({ · with forwardersDone := true }) })
  | .subScopeCount => ((),{ s with scopeCount := s.scopeCount - 1 })
  | .release => ((),{ s with held := none })
  | .insertScopeTld scope tld =>
    -- the TLD is unique, and a conflict is ignored
    if s.scopeTlds.any (·.2=tld) then (true,s)
    else if s.hasScope scope then (true,{ s with scopeTlds := s.scopeTlds++[(scope,tld)] })
    else (false,s)
  | .deleteScopeTld scope tld =>
    (s.scopeTlds.any fun e => e.1=scope ∧ e.2=tld,
      { s with
        scopeTlds := s.scopeTlds.filter fun e => ¬ (e.1=scope ∧ e.2=tld)
        scopeTldForwarders := s.scopeTldForwarders.filter fun e => ¬ (e.1=scope ∧ e.2.1=tld)
        tldListeners := s.tldListeners.filter fun e => ¬ (e.1=scope ∧ e.2.1=tld) })
  | .replaceForwarders scope tld addrs =>
    -- the old peers are gone even if the first new one fails
    let known := addrs.isEmpty || s.hasScope scope
    (known,{ s with scopeTldForwarders := replacePeers s.scopeTldForwarders scope tld (if known then addrs else []) })
  | .setForwarders scope tld peers =>
    ((),{ s with tldForwarders := Function.update s.tldForwarders (tldFwdKey scope tld) (some peers) })
  | .removeForwarders scope tld =>
      ((),{ s with tldForwarders := Function.update s.tldForwarders (tldFwdKey scope tld) none })
  | .upsertListener scope tld ip =>
    if s.hasScope scope then (true,{ s with tldListeners := upsert s.tldListeners scope tld (fmt.formatIp ip) })
    else (false,s)
  | .deleteListener scope tld =>
    (s.tldListeners.any fun e => e.1=scope ∧ e.2.1=tld,
      { s with tldListeners := s.tldListeners.filter fun e => ¬ (e.1=scope ∧ e.2.1=tld) })
  | .setIngress tld ip => ((),{ s with tldIngress := Function.update s.tldIngress tld (some ip) })
  | .removeIngress tld => ((),{ s with tldIngress := Function.update s.tldIngress tld none })

def scopeStore : Store ScopeStore StoreOp StoreRes where
  enabled := ScopeStore.enabled
  exec := ScopeStore.exec fmt

end

section
variable (fmt : ScopeFormats) (s : ScopeStore)

/-- A map that entries are put into one after the other. -/
def ofPairs {α : Type} (pairs : List (Text × α)) : Text → Option α :=
  pairs.foldl (fun m e => Function.update m e.1 (some e.2)) fun _ => none

def ScopeStore.loadOwners : Text → Option Text :=
  ofPairs ((s.networkScopes++s.scopeTlds).map fun e => (normalizeName fmt.toLowercase e.2,e.1))

def ScopeStore.loadForwarders : Text → Option (List SocketAddr) :=
  s.scopeTldForwarders.foldl (fun m e =>
    match fmt.parseSocketAddr e.2.2 with
    | none => m
    | some peer =>
      let key := tldFwdKey e.1 (normalizeName fmt.toLowercase e.2.1)
      Function.update m key (some ((m key).getD []++[peer]))) fun _ => none

def ScopeStore.loadIngress : Text → Option IpAddr :=
  ofPairs (s.tldListeners.filterMap fun e => (fmt.parseIp e.2.2).map fun ip => (normalizeName fmt.toLowercase e.2.1,ip))

def recordKey (row : Text × DnsRecord) : Text := scopedRecordCacheKey row.1 row.2.name (some row.2.recordType)

def loadScopedRecords (rows : List (Text × DnsRecord)) : ScopedCache := GroupedCaches.load recordKey Prod.snd rows

def ScopeStore.restart : ScopeStore :=
  { s with
    scopeCount := s.networkScopes.length
    scopedCache := loadScopedRecords s.scopedRows
    tldOwners := s.loadOwners fmt
    tldForwarders := s.loadForwarders fmt
    tldIngress := s.loadIngress fmt
    held := none }

def emptyStore : ScopeStore where
  networkScopes := []
  scopedRows := []
  scopeTlds := []
  scopeTldForwarders := []
  tldListeners := []
  scopeCount := 0
  scopedCache := []
  tldOwners _ := none
  tldForwarders _ := none
  tldIngress _ := none
  held := none

/-- Texts in lower case, with addresses as so many strokes. -/
def plainFormats : ScopeFormats where
  toLowercase := id
  parseSocketAddr strokes := some ⟨.v4 (BitVec.ofNat 32 strokes.length),53⟩
  parseIp
    | ':' :: strokes => some (.v6 (BitVec.ofNat 128 strokes.length))
    | strokes => some (.v4 (BitVec.ofNat 32 strokes.length))
  formatIp
    | .v4 a => List.replicate a.toNat '|'
    | .v6 a => ':' :: List.replicate a.toNat '|'

theorem plainFormats_lawful : plainFormats.Lawful where
  normalizeName_normalizeName s := by
    by_cases h : s.getLast?=some '.' <;> simp [normalizeName,plainFormats,h]
  parseIp_formatIp ip := by
    cases ip with
    | v4 a =>
      have hr (n : Nat) : plainFormats.parseIp (List.replicate n '|')=some (.v4 (BitVec.ofNat 32 n)) := by
        cases n <;> simp [plainFormats,List.replicate_succ]
      exact (hr a.toNat).trans (by rw [BitVec.ofNat_toNat,BitVec.setWidth_eq])
    | v6 a => simp [plainFormats]

end

end RolodexDns.NetworkScopes
