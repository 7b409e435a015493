import RolodexDns.ServerOperations

/-! Resolution off the box: forwarders and the peers of a TLD, whose replies are passed on as they
came, the server's own resolver, and the chain of tiers over both. -/
namespace RolodexDns.UpstreamResolution
open DnsRecords ResponseReading ProgramTrees StoredRecords WireMessages ServerOperations

section
variable (cfg : ServerConfig) (f : Forwarder) (lib : ServerLibrary) (target : SocketAddr) (upstream : Upstream)
  (question : Query)
  (sent : Bytes)

/-- A datagram that answers what was sent: from the address that was asked, with the same id and the
same question, spelt the same way. -/
def acceptable (datagram : SocketAddr × Bytes) : Bool :=
  datagram.1=target && 2 ≤ datagram.2.length && datagram.2.take 2=sent.take 2 &&
    match lib.fromBytes datagram.2 with
    | none => false
    | some msg =>
      match (lib.fromBytes sent).bind (·.queries.head?) with
      | none => true
      | some asked => msg.queries.head?.any fun got =>
        got.queryType=asked.queryType && got.queryClass=asked.queryClass &&
          lib.spelling datagram.2=lib.spelling sent

def pickDatagram
    (datagrams : Option (List (SocketAddr × Bytes))) : Option Bytes :=
  ((datagrams.getD []).find? (acceptable lib target sent)).map Prod.snd

/-- The query as it is put on the wire, with the case of its name mixed if that is switched on. -/
def spellQuery (queryData : Bytes) : ServerProg Bytes :=
  if cfg.qnameRandomization then do
    let randomized ← ServerProg.perform (.randomizeQnameCase queryData)
    return randomized.getD queryData
  else return queryData

def forwardUdp (queryData : Bytes) : ServerProg (Option Bytes) := do
  let sent ← spellQuery cfg queryData
  if sent.length<12 then return none
  else
    let datagrams ← ServerProg.perform (.exchangeUdp upstream queryData sent)
    return pickDatagram cfg.lib upstream.addr sent datagrams

def forwardOne (queryData : Bytes) : ServerProg (Option Bytes) :=
  if cfg.proxied then ServerProg.perform (.exchangeProxied upstream queryData)
  else forwardUdp cfg upstream queryData

def framedReply (reply : Option Bytes) : Option Bytes := reply.filter fun body => !body.isEmpty

def forwardTcp (queryData : Bytes) : ServerProg (Option Bytes) := do
  if 65535<queryData.length then return none
  else return framedReply (← ServerProg.perform (.exchangeTcp f queryData))

/-- The message on a QUIC stream, with the id of the query put back. -/
def doqMessage (queryData stream : Bytes) : Option Bytes :=
  if stream.length<4 then none
  else
    let declared := (stream.getD 0 0).toNat*256+(stream.getD 1 0).toNat
    if (stream.drop 2).length<declared then none
    else
      let message := (stream.drop 2).take declared
      if message.length<2 then none else some (queryData.take 2++message.drop 2)

def secureReply (queryData : Bytes) (received : Option Bytes) : Option Bytes :=
  if f.transport=.doq then received.bind (doqMessage queryData) else framedReply received

/-- The encrypted transports. All but DoH frame a query by its length. -/
def querySecure (queryData : Bytes) : ServerProg (Option Bytes) := do
  if f.transport ≠ .doh && 65535<queryData.length then return none
  else if f.transport=.doq && queryData.length<2 then return none
  else return secureReply f queryData (← ServerProg.perform (.exchangeSecure f queryData))

def queryForwarder (queryData : Bytes) : ServerProg (Option Bytes) :=
  match f.transport with
  | .do53Udp => forwardOne cfg (.forwarder f) queryData
  | .do53Tcp => forwardTcp f queryData
  | .dot | .doh | .doq => querySecure f queryData

/-- Keeps the answers under the question that they answer. -/
def cacheAnswers (answers : List Record) : LocalProg Unit := do
  if cfg.cacheEnabled then
    let records := answers.filterMap cfg.lib.dnsRecordToDbRecord
    if !records.isEmpty then
      LocalProg.perform (.cacheInsert (cfg.lib.nameText question.name) (mapQueryTypeToKind question.queryType) records
        ((answers.map Record.ttl).min?.getD 300))

def cacheNegative (rcode : ResponseCode) (ttl : Nat) : LocalProg Unit := do
  if cfg.cacheEnabled then
    let name := cfg.lib.nameText question.name
    let kind := mapQueryTypeToKind question.queryType
    if rcode=.NXDomain then LocalProg.perform (.cacheInsertNegative name kind .nxDomain ttl)
    else if rcode=.NoError then LocalProg.perform (.cacheInsertNegative name kind .noData ttl)

def cacheFromWire (response : Bytes) : LocalProg Unit := do
  match cfg.lib.fromBytes response with
  | none => return
  | some msg =>
    if msg.responseCode=.NoError && !msg.answers.isEmpty then
      match msg.queries.head? with
      | some question => cacheAnswers cfg question msg.answers
      | none => return

/-- Forward mode: the first forwarder that replies, whatever it replies. -/
def forwardQuery (queryData : Bytes) : List Forwarder → ServerProg Bytes
  | [] => return makeErrorResponse cfg.lib queryData .ServFail
  | f::fs => do
    match ← queryForwarder cfg f queryData with
    | some response =>
      ServerProg.perform (.recordSuccess f)
      ServerProg.held (cacheFromWire cfg response)
      return response
    | none =>
      ServerProg.perform (.recordFailure f)
      forwardQuery queryData fs

/-- The first definitive reply of a TLD's peers. -/
def forwardToTldPeers (queryData : Bytes) : List SocketAddr → ServerProg (Option Bytes)
  | [] => return none
  | target::targets => do
    match ← forwardOne cfg (.peer target) queryData with
    | some response =>
      if responseIsDefinitive cfg.lib response then return some response else forwardToTldPeers queryData targets
    | none => forwardToTldPeers queryData targets

/-- The first definitive reply of a tier's forwarders. -/
def tierForward (queryData : Bytes) : List Forwarder → ServerProg (Option Bytes)
  | [] => return none
  | f::fs => do
    if ← ServerProg.perform (.isUsable f) then
      match ← queryForwarder cfg f queryData with
      | some response =>
        ServerProg.perform (.recordSuccess f)
        if responseIsDefinitive cfg.lib response then return some response else tierForward queryData fs
      | none =>
        ServerProg.perform (.recordFailure f)
        tierForward queryData fs
    else tierForward queryData fs

end

section
variable (cfg : ServerConfig) (res : Resolution) (message : Packet) (ctx : Option EdnsContext)

def negativeTtl (defaultTtl : Nat) : Option Nat :=
  if !res.answers.isEmpty then none
  else match res.soa with
    | none => some defaultTtl
    | some soa => match soa.data with
      | .soa data => some (min data.minimum soa.ttl)
      | _ => some defaultTtl

/-- The response to a result; a withheld one is SERVFAIL. -/
def resolvedResponse (res : Resolution) : Bytes :=
  if res.verdict.withholdsAnswer then buildResponseValidated cfg.lib message .ServFail [] ctx res.verdict
  else buildResponseValidated cfg.lib message res.rcode res.answers ctx res.verdict

/-- A result the roots tier answers with; any other fails the tier. -/
def answersTier : Bool := res.verdict.withholdsAnswer || isDefinitive res.rcode

def tierRoots : ServerProg (Option Bytes) := do
  match message.queries.head? with
  | none => return none
  | some question =>
    match ← ServerProg.perform (.resolveWithin question.name question.queryType question.queryClass) with
    | some (.ok res) => return if answersTier res then some (resolvedResponse cfg message ctx res) else none
    | some (.error _) => return none
    | none => return none

def tryTier (tier : Nat) (queryData : Bytes) (message : Packet) (ctx : Option EdnsContext) :
    ServerProg (Option Bytes) :=
  match tier with
  | 0 => tierRoots cfg message ctx
  | n+1 => tierForward cfg queryData ((cfg.forwarderTiers[n]?).getD [])

def tryTiers (queryData : Bytes) (message : Packet) (ctx : Option EdnsContext) : List Nat → ServerProg Bytes
  | [] => return makeErrorResponse cfg.lib queryData .ServFail
  | tier::tiers => do
    match ← tryTier cfg tier queryData message ctx with
    | some response =>
      ServerProg.perform (.noteAutoWinner tier)
      ServerProg.held (cacheFromWire cfg response)
      return response
    | none => tryTiers queryData message ctx tiers

def tierCount : Nat := 4

/-- The chain of tiers from the one that is committed to. -/
def autoResolve (queryData : Bytes) (ctx : Option EdnsContext) : ServerProg Bytes := do
  match cfg.lib.fromBytes queryData with
  | none => return makeErrorResponse cfg.lib queryData .FormErr
  | some message =>
    if message.queries.isEmpty then return makeErrorResponse cfg.lib queryData .FormErr
    else
      let start ← ServerProg.perform .activeTier
      tryTiers cfg queryData message ctx (List.range' start (tierCount - start))

def cacheResolution (question : Query) (res : Resolution) : LocalProg Unit := do
  if res.rcode=.NoError && !res.answers.isEmpty then cacheAnswers cfg question res.answers
  else
    match negativeTtl res cfg.defaultTtl with
    | some ttl => cacheNegative cfg question res.rcode ttl
    | none => return

def iterativeQuery (queryData : Bytes) (ctx : Option EdnsContext) : ServerProg Bytes := do
  match cfg.lib.fromBytes queryData with
  | none => return makeErrorResponse cfg.lib queryData .FormErr
  | some message =>
    match message.queries.head? with
    | none => return makeErrorResponse cfg.lib queryData .FormErr
    | some question =>
      match ← ServerProg.perform (.resolve question.name question.queryType question.queryClass) with
      | .ok res =>
        if res.verdict.withholdsAnswer then return resolvedResponse cfg message ctx res
        else
          ServerProg.held (cacheResolution cfg question res)
          return resolvedResponse cfg message ctx res
      | .error _ => return makeErrorResponse cfg.lib queryData .ServFail

def upstreamResolve (queryData : Bytes) (ctx : Option EdnsContext) : ServerProg Bytes :=
  if wireQuestionIsArpa queryData then pure (makeErrorResponse cfg.lib queryData .Refused)
  else match cfg.mode with
    | .forward => forwardQuery cfg queryData cfg.forwarders
    | .recursive => iterativeQuery cfg queryData ctx
    | .auto => autoResolve cfg queryData ctx

end

section
variable {cfg : ServerConfig} {queryData : Bytes} (sender : Upstream)

def Exchange : ServerOp → Prop
  | .randomizeQnameCase _ => True
  | .exchangeUdp upstream _ _ | .exchangeProxied upstream _ => upstream=sender
  | .exchangeTcp f _ | .exchangeSecure f _ => .forwarder f=sender
  | _ => False

theorem forwardOne_exchanges : (forwardOne cfg sender queryData).Only (Exchange sender) := by
  have hs : (spellQuery cfg queryData).Only (Exchange sender) := by
    unfold spellQuery
    split
    · exact ⟨trivial,fun _ _ => trivial⟩
    · trivial
  unfold forwardOne
  split
  · exact ⟨rfl,fun _ _ => trivial⟩
  · refine hs.bind fun sent _ => ?_
    split
    · trivial
    · exact ⟨rfl,fun _ _ => trivial⟩

theorem queryForwarder_exchanges (f : Forwarder) : (queryForwarder cfg f queryData).Only (Exchange (.forwarder f)) := by
  have hs : (querySecure f queryData).Only (Exchange (.forwarder f)) := by
    unfold querySecure
    split_ifs
    · trivial
    · trivial
    · exact ⟨rfl,fun _ _ => trivial⟩
  unfold queryForwarder
  split
  · exact forwardOne_exchanges (.forwarder f)
  · unfold forwardTcp
    split
    · trivial
    · exact ⟨rfl,fun _ _ => trivial⟩
  all_goals exact hs

theorem forwardToTldPeers_exchanges {peers targets : List SocketAddr} (h : targets⊆peers) :
    (forwardToTldPeers cfg queryData targets).Only
    (fun o => ∃ peer∈peers,Exchange (.peer peer) o) := by
  induction targets with
  | nil => trivial
  | cons target targets ih =>
    obtain ⟨hpe,hp⟩ := List.cons_subset.mp h
    refine Prog.Sat.bind ((forwardOne_exchanges (.peer target)).weaken (fun _ ho => ?_) fun _ _ _ => trivial)
      fun reply _ => ?_
    · exact ⟨target,hpe,ho⟩
    cases reply with
    | none => exact ih hp
    | some response =>
      dsimp only
      split
      · trivial
      · exact ih hp

end

end RolodexDns.UpstreamResolution
