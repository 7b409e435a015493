import RolodexDns.AuthoritativeAnswers

/-! Everything that is decided before a query leaves the box, in the order it is tried: the records
of the client's network scope, the global records, the TLDs other scopes own, DNAMEs, the zones the
server is authoritative for, the gates in front of recursion, and the answer cache. -/
namespace RolodexDns.LocalAnswers
open DnsRecords ResponseReading StoredRecords WireMessages ServerOperations AuthoritativeAnswers

/-- What the server's own data decides: a response, or to ask the peers of an owned TLD and to deny
the name if none of them answers. -/
inductive LocalStep where
  | answer (reply : Reply)
  | askPeers (peers : List SocketAddr) (ns : Namespace)

abbrev LocalDecision := LocalProg (Option LocalStep)

section
variable (lib : ServerLibrary) (qname : Text) (ask : Asked)

def localListsName : LocalProg Bool := do
  if ← LocalProg.perform (.lookupLocalBlocklist qname) then return true
  else
    let normalized := normalizeBlocklistName qname
    if normalized.isEmpty || normalized=qname then return false
    else LocalProg.perform (.lookupLocalBlocklist normalized)

/-- The allowlist exempts the name, or the address a reverse name stands for. -/
def blocklistExempt (ip : Option IpAddr) : LocalProg Bool := do
  if ← LocalProg.perform (.isDnsblAllowlisted qname) then return true
  else
    match ip with
    | some ip => LocalProg.perform (.isDnsblAllowlistedExact (lib.ipText ip))
    | none => return false

def ipBlocked (ip : IpAddr) : LocalProg Bool := do
  if ← blocklistExempt lib qname (some ip) then return false
  else if ← LocalProg.perform (.lookupLocalBlocklist (lib.ipText ip)) then return true
  else localListsName qname

def reverseBlocklist (authoritative : Bool) : LocalDecision := do
  match lib.extractIpFromName ask.qname with
  | none => return none
  | some ip =>
    if ← ipBlocked lib ask.qname ip then return some (.answer (.edns .NXDomain [] authoritative))
    else return none

def domainBlocklist : LocalDecision := do
  if (lib.extractIpFromName ask.qname).isSome then return none
  else if ← blocklistExempt lib ask.qname none then return none
  else
    let byLocal ← localListsName ask.qname
    let listed ← if byLocal then pure true else LocalProg.perform (.isNameListed ask.qname)
    if listed then return some (.answer (.edns .NXDomain [] false))
    else return none

end

section
variable (cfg : ServerConfig) (ask : Asked)

/-- The ingress address, when the name is under the TLD whose listener the query came in on. -/
def ingressTarget : LocalProg (Option (Text × IpAddr)) := do
  match ask.localIp with
  | none => return none
  | some ip =>
    match ← LocalProg.perform (.findTldOwner ask.qname) with
    | none => return none
    | some (owner,tld) =>
      match ← LocalProg.perform (.getTldIngress tld) with
      | none => return none
      | some ingress => return if ingress=ip then some (owner,ingress) else none

/-- The scope of the client; an overlay peer outside every scope is refused. -/
def scopeOf : LocalProg (Except Reply (Option Text)) := do
  let ofListener ← match ask.localIp with
    | some ip => LocalProg.perform (.scopeForIngressIp ip)
    | none => pure none
  match ofListener, ask.sourceIp with
  | some scope, _ => return .ok (some scope)
  | none, none => return .ok none
  | none, some ip =>
    match ← LocalProg.perform (.getScopeForIp (cfg.lib.ipText ip)) with
    | some scope => return .ok (some scope)
    | none =>
      if ← LocalProg.perform .hasScopes then
        if cfg.isOverlayPeer ip then return .error (.edns .Refused [] false) else return .ok none
      else return .ok none

end

section
variable (lib : ServerLibrary) (qname : Text)

/-- The records of a scoped lookup, with addresses of the ingress family replaced by it. -/
def buildScopedAnswers (records : List DnsRecord) (overrideIp : Option IpAddr) : List Record :=
  records.filterMap fun r =>
    match overrideIp with
    | some (.v4 addr) => lib.dbRecordToDnsRecord (if r.recordType=.A then
        { r with value := lib.ipText (.v4 addr) } else r)
    | some (.v6 addr) =>
      lib.dbRecordToDnsRecord (if r.recordType=.AAAA then { r with value := lib.ipText (.v6 addr) } else r)
    | none => lib.dbRecordToDnsRecord r

/-- The records of an ANAME's target, under the name that was asked for. -/
def renameTo (records : List Record) : List Record :=
  records.filterMap fun r => (lib.nameFromAscii qname).map fun name => { r with name := name }

/-- The DNAME and the CNAME it makes of the labels before its owner. -/
def dnameReply (normalized : Text) (before : List Text) (dname : DnsRecord) : Reply :=
  let target := joinLabels before++['.']++trimEndDots dname.value
  let cname : DnsRecord := ⟨normalized,.CNAME,normalizeName lib.toLowercase target,dname.ttl,0⟩
  ⟨.NoError,[dname,cname].filterMap lib.dbRecordToDnsRecord,[],true,false⟩

def dnameAbove (find : Text → LocalProg (List DnsRecord)) (normalized : Text) :
    List Text → List Text → LocalProg (Option Reply)
  | _, [] => return none
  | before, label::rest => do
    match ← find (joinLabels (label::rest)++['.']) with
    | dname::_ => return some (dnameReply lib normalized before dname)
    | [] => dnameAbove find normalized (before++[label]) rest

def checkDname (find : Text → LocalProg (List DnsRecord)) (qname : Text) : LocalDecision := do
  let normalized := normalizeName lib.toLowercase qname
  match labelsOf normalized with
  | [] => return none
  | label::rest => return (← dnameAbove lib find normalized [label] rest).map .answer

def checkDnameGlobal : LocalDecision :=
  checkDname lib (fun name => do return (← LocalProg.perform (.lookup name (some .DNAME))).getD []) qname

def checkDnameScoped (scope qname : Text) : LocalDecision :=
  checkDname lib (fun name => LocalProg.perform (.lookupScoped scope name (some .DNAME))) qname

end

section
variable (cfg : ServerConfig) (ask : Asked) (scope : Text) (overrideIp : Option IpAddr)

def scopedCacheName : Text := '@' :: scope ++ '/' :: ask.qname

/-- Records of the kind in the scope: the cache, the database, then an ANAME. -/
def scopedOfKind (kind : RecordKind) : LocalDecision := do
  let cached ← if cfg.cacheEnabled then LocalProg.perform (.cacheLookup (scopedCacheName ask scope) (some kind)) else
    pure []
  if !cached.isEmpty then return some (.answer (.edns .NoError (buildScopedAnswers cfg.lib cached overrideIp) true))
  else
    let records ← LocalProg.perform (.lookupScoped scope ask.qname (some kind))
    if !records.isEmpty then
      if cfg.cacheEnabled then
        LocalProg.perform (.cacheInvalidateNegative (scopedCacheName ask scope))
        LocalProg.perform (.cacheInvalidateNegative ask.qname)
        LocalProg.perform (.cacheInsertLocal (scopedCacheName ask scope) (some kind) records)
      return some (.answer (.edns .NoError (buildScopedAnswers cfg.lib records overrideIp) true))
    else if kind=.A || kind=.AAAA then
      match ← LocalProg.perform (.lookupScoped scope ask.qname (some .ANAME)) with
      | [] => return none
      | aname::_ =>
        let targets ← LocalProg.perform (.lookupScoped scope aname.value (some kind))
        if targets.isEmpty then return none
        else
          let answers := renameTo cfg.lib ask.qname (buildScopedAnswers cfg.lib targets overrideIp)
          return some (.answer (.edns .NoError answers true))
    else return none

def scopedCname : LocalDecision := do
  let records ← LocalProg.perform (.lookupScoped scope ask.qname (some .CNAME))
  if records.isEmpty then return none
  else return some (.answer (.edns .NoError (records.filterMap cfg.lib.dbRecordToDnsRecord) true))

/-- A TLD some scope owns is answered inside that scope only. -/
def scopedTld : LocalDecision := do
  match ← LocalProg.perform (.findTldOwner ask.qname) with
  | none => return none
  | some (owner,tld) =>
    if owner=scope then
      let peers ← LocalProg.perform (.getTldForwarders scope tld)
      return some (.askPeers peers (.scope scope))
    else return some (.answer (.edns .NXDomain [] true))

/-- A zone of the scope that has records denies the names in it. -/
def scopedZone : List Text → LocalDecision
  | [] => return none
  | zone::zones => do
    if nameInZone cfg.lower ask.qname zone then
      let records ← LocalProg.perform (.lookupScoped scope zone none)
      if records.isEmpty then scopedZone zones
      else return some (.answer (← authoritativeNegative cfg.lib ask (.scope scope)))
    else scopedZone zones

def scopedZones : LocalDecision := do
  let zones ← LocalProg.perform (.getScopedManagedZones scope)
  scopedZone cfg ask scope (zones.getD [])

def scopedAnswer : LocalDecision :=
  firstSome [reverseBlocklist cfg.lib ask true,
    match ask.recordKind with
    | some kind => scopedOfKind cfg ask scope overrideIp kind
    | none => pure none,
    scopedCname cfg ask scope,checkDnameScoped cfg.lib scope ask.qname,scopedTld ask scope,scopedZones cfg ask scope]

end

section
variable (cfg : ServerConfig) (ask : Asked) (authoritative : Bool) (kind : RecordKind)

def signedAnswer (records : List DnsRecord) : LocalDecision := do
  let sigs ← answerSignatures cfg.lib ask.ctx ask.qname kind
  return some (.answer (.edns .NoError (records.filterMap cfg.lib.dbRecordToDnsRecord++sigs) authoritative))

/-- Global records of the kind: the local half of the cache, the name, its wildcard, an ANAME, a CNAME. -/
def globalOfKind : LocalDecision := do
  let cached ← if cfg.cacheEnabled then LocalProg.perform (.cacheLookupLocalOnly ask.qname (some kind)) else pure []
  if !cached.isEmpty then signedAnswer cfg ask authoritative kind cached
  else
    match ← LocalProg.perform (.lookupWithFallbacks ask.qname kind) with
    | none => return none
    | some result =>
      let records := if !result.exact.isEmpty then result.exact else result.wildcard
      if !records.isEmpty then
        if cfg.cacheEnabled then
          LocalProg.perform (.cacheInvalidateNegative ask.qname)
          LocalProg.perform (.cacheInsertLocal ask.qname (some kind) records)
        signedAnswer cfg ask authoritative kind records
      else firstSome [ofAname result.aname,
        if result.cname.isEmpty then pure none else signedAnswer cfg ask authoritative .CNAME result.cname]
where
  ofAname (aname : List DnsRecord) : LocalDecision := do
    match aname with
    | [] => return none
    | aname::_ =>
      if kind=.A || kind=.AAAA then
        let targets ← LocalProg.perform (.lookup aname.value (some kind))
        if (targets.getD []).isEmpty then return none
        else
          let answers := renameTo cfg.lib ask.qname ((targets.getD []).filterMap cfg.lib.dbRecordToDnsRecord)
          return some (.answer (.edns .NoError answers authoritative))
      else return none

/-- A type that cannot be stored still gets the alias. -/
def globalAlias : LocalDecision := do
  let records ← LocalProg.perform (.lookup ask.qname (some .CNAME))
  if (records.getD []).isEmpty then return none
  else signedAnswer cfg ask authoritative .CNAME (records.getD [])

def globalRecords : LocalDecision := do
  let authoritative ← LocalProg.perform (.isAuthoritativeZone ask.qname)
  match ask.recordKind with
  | some kind => globalOfKind cfg ask authoritative kind
  | none => globalAlias cfg ask authoritative

/-- What a local client gets from the scope that owns the TLD. -/
def lanRecords (overrideIp : Option IpAddr) (owner : Text) : LocalDecision :=
  match ask.recordKind with
  | none => pure none
  | some kind => do
    let records ← LocalProg.perform (.lookupScoped owner ask.qname (some kind))
    if !records.isEmpty then
      return some (.answer (.edns .NoError (buildScopedAnswers cfg.lib records overrideIp) true))
    else scopedCname cfg ask owner

/-- A local client sees the records of every scope under the TLDs they own. -/
def lanFallback (overrideIp : Option IpAddr) : LocalDecision := do
  match ← LocalProg.perform (.findTldOwner ask.qname) with
  | none => return none
  | some (owner,tld) =>
    match ← lanRecords cfg ask overrideIp owner with
    | some step => return some step
    | none =>
      let peers ← LocalProg.perform (.getTldForwarders owner tld)
      return some (.askPeers peers (.lanFallback owner))

/-- A name in a zone of the server's own that was not found is denied. -/
def ownZone (find : LocalOp) (zone : LocalRes find → Bool) : LocalDecision := do
  if zone (← LocalProg.perform find) then return some (.answer (← authoritativeNegative cfg.lib ask .global))
  else return none

def managedZone : LocalDecision := ownZone cfg ask (.findManagedZone ask.qname) Option.isSome

def authoritativeZone : LocalDecision := ownZone cfg ask (.findAuthoritativeZone ask.qname) Option.isSome

/-- Recursion is for the configured sources, and never for `arpa.` names. -/
def recursionGate : LocalDecision :=
  if ask.sourceIp.any fun ip => !cfg.mayRecurse ip then pure (some (.answer (.edns .Refused [] false)))
  else if isArpaSubtree ask.question.name then pure (some (.answer (.edns .Refused [] false)))
  else pure none

def cachedAnswer : LocalDecision := do
  if !cfg.cacheEnabled then return none
  else
    let cached ← LocalProg.perform (.cacheLookup ask.qname ask.recordKind)
    if !cached.isEmpty then
      return some (.answer (.edns .NoError (cached.filterMap cfg.lib.dbRecordToDnsRecord) false))
    else
      match ← LocalProg.perform (.cacheLookupNegative ask.qname ask.recordKind) with
      | some .nxDomain => return some (.answer (.edns .NXDomain [] false))
      | some .noData => return some (.answer (.edns .NoError [] false))
      | none => return none

/-- All of it; `none` sends the query upstream. -/
def localAnswer : LocalDecision := do
  let ingress ← ingressTarget ask
  let overrideIp := ingress.map Prod.snd
  match ← scopeOf cfg ask with
  | .error reply => return some (.answer reply)
  | .ok none => firstSome ([reverseBlocklist cfg.lib ask false,globalRecords cfg ask,
      lanFallback cfg ask overrideIp]++rest)
  | .ok (some scope) => firstSome ([scopedAnswer cfg ask scope overrideIp,globalRecords cfg ask]++rest)
where
  rest : List LocalDecision :=
    [checkDnameGlobal cfg.lib ask.qname,managedZone cfg ask,authoritativeZone cfg ask,recursionGate cfg ask,
      domainBlocklist cfg.lib ask,cachedAnswer cfg ask]

end

end RolodexDns.LocalAnswers
