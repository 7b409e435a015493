import RolodexDns.ResolverWorld
import RolodexDns.ResponseReading

/-! The iterative resolver: from the deepest cached delegation, or from the roots, down the referrals
to an answer, extending the chain of trust across each zone cut on the way. -/
namespace RolodexDns.IterativeResolver
open DomainNames DnsRecords ValidationVerdicts SignatureValidation DenialProofs VerifiedDenial
open ResolverCaches ResolverWorld ResponseReading ProgramTrees

def maxReferrals : Nat := 30
def maxCnameChain : Nat := 16
def maxHiddenCuts : Nat := 4
def maxResolutionDepth : Nat := 16
def maxGluelessNs : Nat := 4
def maxQueriesPerResolution : Nat := 64
def validationQueryBudget : Nat := 32

section

variable (name : Name) (rtype : RecordType)

def recordGet : Lookup (Option (List Record × Bool)) :=
  Lookup.perform (.recordGet name rtype)

def recordInsert (records : List Record) (secure : Bool) : Lookup Unit :=
  Lookup.perform (.recordInsert name rtype records secure)

variable (zone : Name) (servers : List IpAddr)

def keyGet : Lookup (Option TrustState) := Lookup.perform (.keyGet zone)

def keyInsert (state : TrustState) (ttl : Nat) : Lookup Unit :=
  Lookup.perform (.keyInsert zone state ttl)

def delegationMatch : Lookup (Option (Name × List IpAddr)) :=
  Lookup.perform (.delegationMatch name)

def delegationInsert (ttl : Nat) : Lookup Unit :=
  Lookup.perform (.delegationInsert zone servers ttl)

def delegationInvalidate : Lookup Unit := Lookup.perform (.delegationInvalidate zone)

def usableRoots : Lookup (List IpAddr) := Lookup.perform (.usableRoots servers)

def orderServers : Lookup (List IpAddr) := Lookup.perform (.orderServers servers)

def randomId : Lookup UInt16 := Lookup.perform .randomId

variable (server : IpAddr) (query : OutQuery)

def sendUdp : Lookup (Option Message) :=
  Lookup.perform (.sendUdp server query)

def sendTcp : Lookup (Option Message) :=
  Lookup.perform (.sendTcp server query)

def noteSuccess : Lookup Unit := Lookup.perform (.noteSuccess server)

def noteFailure : Lookup Unit := Lookup.perform (.noteFailure server)

def blameRoot : Lookup Unit := Lookup.perform (.blameRoot server)

def clearBlame : Lookup Unit := Lookup.perform (.clearBlame server)

def swapPrimed : Lookup Bool := Lookup.perform .swapPrimed

def nowSecs : Lookup (Option UInt32) := Lookup.perform .nowSecs

def claim : Lookup Bool := fun budget => .pure (.ok (decide (0<budget)),budget - 1)

end

structure Answered where
  message : Message
  server : IpAddr

structure ValidatedKeys where
  keys : List Dnskey
  ttl : Nat
  server : IpAddr

inductive TrustOutcome where
  | trust (state : Option TrustState)
  | failed (verdict : Verdict)

inductive RootTrust where
  | trust (state : TrustState)
  | failed (verdict : Verdict)

section

variable (server : IpAddr)

def queryTcp (query : OutQuery) : Lookup (Option Message) := do
  match ← sendTcp server query with
  | none => return none
  | some msg =>
    if msg.id≠query.id then return none
    else if validateQuestion msg ⟨query.name,query.qtype,query.qclass⟩ then return some msg
    else return none

/-- One exchange with one server, over TCP when the first reply is truncated. -/
def queryOne (query : OutQuery) : Lookup (Option Message) := do
  match ← sendUdp server query with
  | none => return none
  | some msg =>
    if msg.id≠query.id then return none
    else if msg.truncated then queryTcp server query
    else if validateQuestion msg ⟨query.name,query.qtype,query.qclass⟩ then return some msg
    else return none

section
variable (server : IpAddr) (query : OutQuery)

/-- A message with the id and the question of the query. -/
def matching (msg : Option Message) : Option Message :=
  msg.filter fun msg => msg.id=query.id && validateQuestion msg ⟨query.name,query.qtype,query.qclass⟩

variable {query} in
theorem matching_eq_some {msg : Option Message} {m : Message} : matching query msg=some m ↔
    msg=some m ∧ m.id=query.id ∧ validateQuestion m ⟨query.name,query.qtype,query.qclass⟩=true := by
  rw [matching,Option.filter_eq_some_iff,Bool.and_eq_true,decide_eq_true_eq]

theorem queryTcp_eq : queryTcp server query=(do return matching query (← sendTcp server query)) := by
  refine bind_congr fun r => ?_
  cases r with
  | none => rfl
  | some msg =>
    by_cases hid : msg.id=query.id <;> cases hq : validateQuestion msg ⟨query.name,query.qtype,query.qclass⟩ <;>
      simp [hid,hq,matching,Option.filter_some]

theorem queryOne_eq : queryOne server query=(do
    let reply ← sendUdp server query
    if reply.any (fun msg => msg.id=query.id && msg.truncated) then queryTcp server query else
      return matching query reply) := by
  refine bind_congr fun r => ?_
  cases r with
  | none => rfl
  | some msg =>
    by_cases hid : msg.id=query.id <;> cases ht : msg.truncated <;>
      cases hq : validateQuestion msg ⟨query.name,query.qtype,query.qclass⟩ <;>
        simp [hid,ht,hq,matching,Option.filter_some]

end

def tryServers (query : OutQuery) : List IpAddr → Lookup Answered
  | [] => throw (.nameserversUnreachable query.name)
  | server::rest => do
    let claimed ← claim
    if claimed then
      match ← queryOne server query with
      | some msg =>
        noteSuccess server
        return ⟨msg,server⟩
      | none =>
        noteFailure server
        tryServers query rest
    else throw (.budgetExhausted query.name)

/-- The first valid response among the servers. -/
def queryServers (cfg : Config) (servers : List IpAddr) (name : Name) (qtype : RecordType)
    (qclass : DnsClass) : Lookup Answered := do
  let id ← randomId
  let ordered ← orderServers servers
  tryServers ⟨id,name,qtype,qclass,cfg.validating⟩ ordered

end

section
variable (cfg : Config) (qclass : DnsClass) (origin target : Name) (trust : Option TrustState)
  (parent child qname : Name)
  (qtype : RecordType)

/-- Fetches a zone's DNSKEY RRset and validates it against its source of trust. -/
def fetchDnskeys (zone : Name) (servers : List IpAddr) (source : KeySource) :
    Lookup (Except DnskeyError ValidatedKeys) := do
  match ← Routine.attempt (queryServers cfg servers zone .DNSKEY qclass) with
  | .error e => return .error (.unreachable e)
  | .ok answered =>
    let answers := answered.message.answers
    match ← nowSecs with
    | none => return .error (.unreachable .clock)
    | some now =>
      match validateDnskeyRrset cfg.lib zone answers answers source now with
      | .error e => return .error (.invalid answered.server e)
      | .ok keys => return .ok ⟨keys,minTtl answers cfg.defaultTtl,answered.server⟩

def rootTrust (anchors : List Anchor) : Lookup RootTrust := do
  match ← keyGet .root with
  | some state => return .trust state
  | none =>
    let cached ← delegationMatch .root
    let known := match cached with
      | some (_,servers) => if servers.isEmpty then cfg.rootHints else servers
      | none => cfg.rootHints
    let servers ← usableRoots known
    match ← fetchDnskeys cfg qclass .root servers (.anchors anchors) with
    | .ok validated =>
      clearBlame validated.server
      keyInsert .root (.secure validated.keys) validated.ttl
      return .trust (.secure validated.keys)
    | .error (.invalid server reason) =>
      blameRoot server
      return .failed (.bogus (.rootDnskeyInvalid reason))
    | .error (.unreachable e) => throw e

/-- Crosses one zone cut below a signed parent. The DS RRset is looked for in one section and its
denial in another: a referral has both in its authority section. -/
def crossCut (parentKeys : List Dnskey) (dsSection denialSection : List Record)
    (servers : List IpAddr) (now : UInt32) : Lookup (Except Verdict TrustState) := do
  let dsRrset := recordsAt dsSection child .DS
  if dsRrset.isEmpty then
    match proveNoDs cfg.lib child (verifiedDenial cfg.lib denialSection parent parentKeys now) with
    | .ok _ =>
      keyInsert child .insecure (minTtl denialSection cfg.defaultTtl)
      return .ok .insecure
    | .error e => return .error (.bogus (.notShownUnsigned parent child e))
  else
    match verifyRrset cfg.lib child .DS dsRrset dsSection parentKeys parent now with
    | .error e => return .error (.bogus (.dsNotValidated child parent e))
    | .ok _ =>
      let ds := dsRecords dsRrset child
      if !dsAlgorithmsSupported cfg.lib ds then
        keyInsert child .insecure (minTtl dsRrset cfg.defaultTtl)
        return .ok .insecure
      else
        match ← fetchDnskeys cfg qclass child servers (.ds ds) with
        | .ok validated =>
          keyInsert child (.secure validated.keys) validated.ttl
          return .ok (.secure validated.keys)
        | .error e => return .error (.bogus (.dnskeyNotValidated child parent e))

/-- Extends the chain of trust across a referral. -/
def extendTrust (parentTrust : Option TrustState) (authority : List Record)
    (childServers : List IpAddr) : Lookup TrustOutcome := do
  match parentTrust with
  | none => return .trust none
  | some .insecure =>
    keyInsert child .insecure cfg.defaultTtl
    return .trust (some .insecure)
  | some (.secure parentKeys) =>
    match ← keyGet child with
    | some state => return .trust (some state)
    | none =>
      match ← nowSecs with
      | none => return .failed (.indeterminate .clock)
      | some now =>
        match ← crossCut cfg qclass parent child parentKeys authority authority childServers now with
        | .ok state => return .trust (some state)
        | .error v => return .failed v

/-- The names from just below `origin` down to `target`, outermost first. -/
def cutsBetween : List Name :=
  (List.range (target.labels.length - origin.labels.length)).map
    fun i => target.trimTo (origin.labels.length+1+i)

/-- The loop of `descendTo` over the cuts still to cross. -/
def descendFrom (servers : List IpAddr) : List Name → Name → TrustState → Lookup TrustOutcome
  | [], _, state => return .trust (some state)
  | cut::cuts, parent, state => do
    match ← keyGet cut with
    | some cached => descendFrom servers cuts cut cached
    | none =>
      match state with
      | .insecure =>
        keyInsert cut .insecure cfg.defaultTtl
        descendFrom servers cuts cut .insecure
      | .secure parentKeys =>
        match ← nowSecs with
        | none => return .failed (.indeterminate .clock)
        | some now =>
          match ← Routine.attempt (queryServers cfg servers cut .DS qclass) with
          | .error e => return .failed (.indeterminate (.dsUnreachable cut e))
          | .ok answered =>
            match ← crossCut cfg qclass parent cut parentKeys answered.message.answers
              answered.message.nameServers servers now with
            | .ok next => descendFrom servers cuts cut next
            | .error v => return .failed v

/-- Extends the chain of trust to a zone below, across cuts no referral announced. -/
def descendTo (servers : List IpAddr) :
    Lookup TrustOutcome :=
  match trust with
  | none => return .trust none
  | some .insecure => return .trust (some .insecure)
  | some (.secure keys) =>
    if origin=target || !origin.zoneOf target then return .trust trust
    else
      let cuts := cutsBetween origin target
      if maxHiddenCuts<cuts.length then
        return .failed (.indeterminate (.tooManyCuts target cuts.length origin))
      else descendFrom cfg qclass servers cuts origin (.secure keys)

/-- The zone whose keys must validate the records, with its trust. -/
def keysFor (currentZone : Name) (records : List Record) (trust : Option TrustState)
    (servers : List IpAddr) : Lookup (Except Verdict (Name × Option TrustState)) := do
  if trust.isNone then return .ok (currentZone,none)
  else
    match signerBelow records currentZone with
    | none => return .ok (currentZone,trust)
    | some signer =>
      match ← descendTo cfg qclass currentZone signer trust servers with
      | .trust state => return .ok (signer,state)
      | .failed v => return .error v

/-- The verdict of `check` under the zone's keys; without keys nothing is claimed. -/
def validateWith (check : List Dnskey → UInt32 → Verdict) : Lookup Verdict := do
  match trust.bind TrustState.keys with
  | none => return .insecure
  | some keys =>
    match ← nowSecs with
    | none => return .indeterminate .clock
    | some now => return check keys now

def validateAnswer (records : List Record) (response : Message)
    (zone : Name) (trust : Option TrustState) : Lookup Verdict :=
  validateWith trust (answerVerdict cfg.lib qname qtype records response.nameServers zone)

def validateNegative (rcode : ResponseCode) (response : Message)
    (zone : Name) (trust : Option TrustState) : Lookup Verdict :=
  validateWith trust (negativeVerdict cfg.lib qname qtype rcode response.nameServers zone)

end

section
variable (cfg : Config) (qclass : DnsClass) (name : Name) (qtype : RecordType) (response : Message)

def answerStep (records : List Record)
    (servers : List IpAddr) (currentZone : Name) (trust : Option TrustState) : Lookup Resolution := do
  match ← keysFor cfg qclass currentZone records trust servers with
  | .error v => return .withheld v
  | .ok (zone,zoneTrust) =>
    let verdict ← validateAnswer cfg name qtype records response zone zoneTrust
    if verdict.withholdsAnswer then return .withheld verdict
    else
      if response.responseCode=.NoError then recordInsert name qtype records (verdict=.secure)
      return (Resolution.answer response.responseCode records).withVerdict verdict

/-- The lookup of another name, one level deeper, after the names seen so far. -/
abbrev Inner := Name → RecordType → List Name → Lookup (Resolution × List Name)

/-- The end of a walk at a CNAME: `inner` resolves the target, one level deeper. -/
def cnameStep (inner : Inner) (name : Name)
    (qtype : RecordType) (cnameSeen : List Name) (response : Message) (target : Name)
    (records : List Record) (servers : List IpAddr) (currentZone : Name) (trust : Option TrustState) :
    Lookup (Resolution × List Name) := do
  if cnameSeen.any (· = target) then throw (.cnameLoop target)
  else if maxCnameChain ≤ cnameSeen.length then throw (.cnameChainTooLong name)
  else
    match ← keysFor cfg qclass currentZone records trust servers with
    | .error v => return (.withheld v,cnameSeen)
    | .ok (zone,zoneTrust) =>
      let hopVerdict ← validateAnswer cfg name .CNAME records response zone zoneTrust
      if hopVerdict.withholdsAnswer then return (.withheld hopVerdict,cnameSeen)
      else
        let (sub,seen) ← inner target qtype (cnameSeen++[target])
        let verdict := hopVerdict.merge sub.verdict
        if verdict.withholdsAnswer then return (.withheld verdict,seen)
        else return ((Resolution.answer sub.rcode (records++sub.answers)).withVerdict verdict,seen)

def negativeStep (rcode : ResponseCode)
    (soa : Option Record) (servers : List IpAddr) (currentZone : Name) (trust : Option TrustState) :
    Lookup Resolution := do
  match ← keysFor cfg qclass currentZone response.nameServers trust servers with
  | .error v => return .withheld v
  | .ok (zone,zoneTrust) =>
    let verdict ← validateNegative cfg name qtype rcode response zone zoneTrust
    if verdict.withholdsAnswer then return .withheld verdict
    else return ⟨rcode,[],soa,verdict⟩

def insertGroups : List Rrset → Lookup Unit
  | [] => return
  | g::gs => do
    recordInsert g.owner g.rtype g.records false
    insertGroups gs

/-- Caches glue, unvalidated, by owner and type. -/
def cacheGlue (glueRecords : List Record) : Lookup Unit :=
  insertGroups (glueRecords.foldl (fun groups r => addToGroup r groups) [])

/-- The addresses in a cache entry and in the outcome of a lookup, if there is one. -/
def cachedAddresses (cached : Option (List Record × Bool)) : List IpAddr :=
  v4Addresses ((cached.map Prod.fst).getD [])

def foundAddresses : Except ResolveError (Resolution × List Name) → List IpAddr
  | .ok (res,_) => v4Addresses res.answers
  | .error _ => []

/-- The loop of `resolveNsAddresses`: the first nameserver with an address is enough. -/
def nsAddressesFrom (inner : Inner) :
    List Name → Lookup (List IpAddr)
  | [] => return []
  | ns::rest => do
    let cached ← recordGet ns .A
    if !(cachedAddresses cached).isEmpty then return cachedAddresses cached
    else
      let found ← Routine.attempt (inner ns .A [])
      if !(foundAddresses found).isEmpty then return foundAddresses found
      else nsAddressesFrom inner rest

def resolveNsAddresses (inner : Inner)
    (nsTargets : List Name) : Lookup (List IpAddr) :=
  nsAddressesFrom inner (nsTargets.take maxGluelessNs)

/-- The servers of a delegation: its glue, or the addresses of its nameservers. -/
def delegationServers (inner : Inner)
    (glue : List IpAddr) (nsTargets : List Name) : Lookup (List IpAddr) :=
  if !glue.isEmpty then return glue else resolveNsAddresses inner nsTargets

/-- Follows a referral: the child's servers and trust, or the verdict that ends the walk. -/
def referralStep (inner : Inner) (name : Name)
    (response : Message) (zone : Name) (glueRecords : List Record) (nsTargets : List Name) (ttl : Nat)
    (currentZone : Name) (trust : Option TrustState) (visited : List Name) :
    Lookup (Except Verdict (List IpAddr × Option TrustState)) := do
  if !referralInBailiwick currentZone zone name then throw (.outOfBailiwick currentZone zone name)
  else if visited.any (· = zone) then throw (.delegationLoop zone name)
  else
    let inBailiwick := glueRecords.filter fun r => currentZone.zoneOf r.name
    let servers ← delegationServers inner (glueAddresses inBailiwick) nsTargets
    if servers.isEmpty then throw (.noNameservers zone)
    else
      match ← extendTrust cfg qclass currentZone zone trust response.nameServers servers with
      | .failed v => return .error v
      | .trust state =>
        delegationInsert zone servers ttl
        cacheGlue inBailiwick
        return .ok (servers,state)

/-- The walk down the delegation chain; `hops` referrals are left. -/
def walk (inner : Inner) (name : Name)
    (qtype : RecordType) (cnameSeen : List Name) :
    Nat → List IpAddr → Name → Option TrustState → List Name → Lookup (Resolution × List Name)
  | 0, _, _, _, _ => throw (.tooManyReferrals name)
  | hops+1, servers, currentZone, trust, visited => do
    let answered ← queryServers cfg servers name qtype qclass
    let response := answered.message
    match classify response qtype with
    | .answer records =>
      let res ← answerStep cfg qclass name qtype response records servers currentZone trust
      return (res,cnameSeen)
    | .cname target records =>
      cnameStep cfg qclass inner name qtype cnameSeen response target records servers currentZone trust
    | .negative rcode soa =>
      let res ← negativeStep cfg qclass name qtype response rcode soa servers currentZone trust
      return (res,cnameSeen)
    | .referral zone glueRecords nsTargets ttl =>
      match ← referralStep cfg qclass inner name response zone glueRecords nsTargets ttl currentZone
        trust visited with
      | .error v => return (.withheld v,cnameSeen)
      | .ok (next,state) =>
        walk inner name qtype cnameSeen hops next zone state (zone::visited)

/-- The deepest cached delegation covering the name that the walk may start from. -/
def warmStart : Lookup (Option (Name × List IpAddr × Option TrustState)) := do
  match ← delegationMatch name with
  | none => return none
  | some (zone,servers) =>
    if !cfg.validating then return some (zone,servers,none)
    else if !cfg.lib.textParses zone then return none
    else
      match ← keyGet zone with
      | none => return none
      | some trust => return some (zone,servers,some trust)

/-- The servers a warm walk starts with; blamed roots are left out. -/
def startServers (startZone : Name) (servers : List IpAddr) : Lookup (List IpAddr) :=
  if startZone.isRoot then usableRoots servers else return servers

def walkFromRoots (inner : Inner) (name : Name)
    (qtype : RecordType) (cnameSeen : List Name) : Lookup (Resolution × List Name) := do
  match cfg.anchors with
  | none =>
    let servers ← usableRoots cfg.rootHints
    walk cfg qclass inner name qtype cnameSeen maxReferrals servers .root none []
  | some anchors =>
    match ← rootTrust cfg qclass anchors with
    | .failed v => return (.withheld v,cnameSeen)
    | .trust state =>
      let servers ← usableRoots cfg.rootHints
      walk cfg qclass inner name qtype cnameSeen maxReferrals servers .root (some state) []

/-- The body of `resolveInner`, with `inner` for the calls one level deeper. -/
def resolveStep (inner : Inner) (name : Name)
    (qtype : RecordType) (cnameSeen : List Name) : Lookup (Resolution × List Name) := do
  if isArpaSubtree name then return (Resolution.answer .Refused [],cnameSeen)
  else
    match ← recordGet name qtype with
    | some (records,secure) =>
      let verdict := if secure then Verdict.secure else Verdict.insecure
      return ((Resolution.answer .NoError records).withVerdict verdict,cnameSeen)
    | none =>
      match ← warmStart cfg name with
      | none => walkFromRoots cfg qclass inner name qtype cnameSeen
      | some (zone,servers,trust) =>
        let startZone := if cfg.lib.textParses zone then zone else Name.root
        let start ← startServers startZone servers
        match ← Routine.attempt
          (walk cfg qclass inner name qtype cnameSeen maxReferrals start startZone trust []) with
        | .ok res => return res
        | .error (.nameserversUnreachable _) =>
          delegationInvalidate zone
          walkFromRoots cfg qclass inner name qtype cnameSeen
        | .error e => throw e

/-- Resolves a name with `levels` of recursion left, CNAMEs and glueless nameservers included. -/
def resolveInner : Nat → Inner
  | 0, name, _, _ => throw (.depthExceeded name)
  | levels+1, name, qtype, cnameSeen => resolveStep cfg qclass (resolveInner levels) name qtype cnameSeen

end

variable (cfg : Config)

def queryBudget : Nat :=
  if cfg.validating then maxQueriesPerResolution+validationQueryBudget else maxQueriesPerResolution

def resolve (name : Name) (qtype : RecordType) (qclass : DnsClass) :
    Prog Op Res (Except ResolveError Resolution) :=
  (resolveInner cfg qclass (maxResolutionDepth+1) name qtype [] (queryBudget cfg)).bind
    fun result => .pure (result.1.map Prod.fst)

/-- Asks the roots who the roots are and caches the answer. -/
def primeRoots (qclass : DnsClass) : Lookup Unit := do
  match ← delegationMatch .root with
  | some _ => return
  | none =>
    let attempted ← swapPrimed
    if attempted then return
    else
      let hints ← usableRoots cfg.rootHints
      match ← Routine.attempt (queryServers cfg hints .root .NS qclass) with
      | .error _ => return
      | .ok answered =>
        let response := answered.message
        let nsNames := response.answers.filterMap fun r => r.data.asNs
        let glueRecords := collectGlueRecords response nsNames
        let addrs := glueAddresses glueRecords
        if nsNames.isEmpty || addrs.isEmpty then return
        else
          cacheGlue glueRecords
          delegationInsert .root addrs (minTtl response.answers cfg.defaultTtl)

/-- What the resolver is asked to do; the root hints may be replaced between requests. -/
inductive Job where
  | resolve (rootHints : List IpAddr) (name : Name) (qtype : RecordType) (qclass : DnsClass)
  | primeRoots (rootHints : List IpAddr) (qclass : DnsClass)
deriving DecidableEq

/-- What a lookup ends with; priming the roots has no result. -/
abbrev JobResult := Option (Except ResolveError Resolution)

abbrev ResolverEvent := TaskPools.Event Op Res Job JobResult

abbrev ResolverPool := TaskPools.Pool World Op Res Job JobResult

def Job.program : Job → Prog Op Res JobResult
  | .resolve hints name qtype qclass =>
    (IterativeResolver.resolve { cfg with rootHints := hints } name qtype qclass).bind fun r => .pure (some r)
  | .primeRoots hints qclass =>
    (IterativeResolver.primeRoots { cfg with rootHints := hints } qclass maxQueriesPerResolution).bind
      fun _ => .pure none

def resolver : TaskPools.System World Op Res Job JobResult where
  acts := acts cfg
  drifts := Drifts
  program := Job.program cfg

end RolodexDns.IterativeResolver
