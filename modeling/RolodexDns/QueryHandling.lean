import RolodexDns.LocalAnswers
import RolodexDns.UpstreamResolution

/-! One query from its bytes to the bytes of the response. -/
namespace RolodexDns.QueryHandling
open DnsRecords StoredRecords WireMessages ServerOperations AuthoritativeAnswers LocalAnswers
open UpstreamResolution

section
variable (cfg : ServerConfig)

def dns64Records (answers : List Record) : List Record :=
  answers.filterMap fun r =>
    match r.data with
    | .a ipv4 => some ⟨r.name,.IN,r.ttl,.aaaa (synthesizeDns64Address cfg.dns64Prefix ipv4)⟩
    | _ => none

/-- DNS64: an AAAA query without AAAA answers is asked again for A. -/
def dns64 (ask : Asked) (response : Bytes) : ServerProg (Option Reply) := do
  if ask.question.queryType=.AAAA && cfg.dns64Enabled then
    match cfg.lib.fromBytes response with
    | none => return none
    | some forwarded =>
      if forwarded.answers.any fun r => r.recordType=.AAAA then return none
      else
        let aResponse ← upstreamResolve cfg (buildQueryForType cfg.lib ask.qname .A ask.message.id) ask.ctx
        match cfg.lib.fromBytes aResponse with
        | none => return none
        | some aMsg =>
          let synthesized := dns64Records cfg aMsg.answers
          return if synthesized.isEmpty then none else some (.edns .NoError synthesized false)
  else return none

/-- Upstream resolution. The response is rebuilt from the cache for a client that did not set DO, if
there is anything in it, and passed on as it is otherwise. -/
def answerUpstream (ask : Asked) : ServerProg Bytes := do
  let response ← upstreamResolve cfg ask.queryData ask.ctx
  match ← dns64 cfg ask response with
  | some reply => return reply.bytes cfg.lib ask
  | none =>
    if !dnssecOk ask.ctx && cfg.cacheEnabled then
      let cached ← ServerProg.perform (.held (.cacheLookup ask.qname ask.recordKind))
      if cached.isEmpty then return response
      else return (Reply.edns .NoError (cached.filterMap cfg.lib.dbRecordToDnsRecord) false).bytes cfg.lib ask
    else return response

def answerAsked (ask : Asked) : ServerProg Bytes := do
  match ← ServerProg.held (localAnswer cfg ask) with
  | some (.answer reply) => return reply.bytes cfg.lib ask
  | some (.askPeers peers ns) =>
    match ← forwardToTldPeers cfg ask.queryData peers with
    | some response => return response
    | none => return (← ServerProg.held (authoritativeNegative cfg.lib ask ns)).bytes cfg.lib ask
  | none => answerUpstream cfg ask

/-- A query that can be answered at all, or the error it gets. -/
def readQuery (queryData : Bytes) (sourceIp localIp : Option IpAddr) : Except Bytes Asked :=
  match cfg.lib.fromBytes queryData with
  | none => .error (makeErrorResponse cfg.lib queryData .FormErr)
  | some message =>
    let ctx := EdnsContext.fromMessage message
    if ctx.any EdnsContext.isUnsupportedVersion then
      .error (buildResponseEdns cfg.lib message (cfg.lib.responseCodeFrom 0 16) [] false ctx)
    else if message.messageType ≠ .query then .error (makeErrorResponse cfg.lib queryData .NotImp)
    else if message.opCode≠0 then .error (makeErrorResponse cfg.lib queryData .NotImp)
    else match message.queries.head? with
      | none => .error (makeErrorResponse cfg.lib queryData .FormErr)
      | some question => .ok ⟨queryData,message,ctx,question,cfg.lib.nameText question.name,sourceIp,localIp⟩

def resolveQuery (queryData : Bytes) (sourceIp localIp : Option IpAddr) : ServerProg Bytes :=
  match readQuery cfg queryData sourceIp localIp with
  | .error response => pure response
  | .ok ask => answerAsked cfg ask

inductive Proto where
  | udp
  | tcp
  | dot
  | doh
  | doq
deriving DecidableEq

/-- What is done to a response before it is sent. -/
def sendable (proto : Proto) (queryData response : Bytes) : Bytes :=
  let filtered := applyFamilyFilter cfg.lib cfg.answerV4 cfg.answerV6 response
  if proto=.udp then truncateForUdp cfg.lib filtered queryData else filtered

def handleQueryProto (queryData : Bytes) (sourceIp localIp : Option IpAddr) (proto : Proto) : ServerProg Bytes := do
  let response ← resolveQuery cfg queryData (sourceIp.map toCanonical) (localIp.map toCanonical)
  return sendable cfg proto queryData response

end

variable {cfg : ServerConfig}

variable {queryData response : Bytes} {sourceIp localIp : Option IpAddr}

theorem readQuery_ok {ask : Asked} (h : readQuery cfg queryData sourceIp localIp=.ok ask) :
    cfg.lib.fromBytes queryData=some ask.message ∧ ask.message.queries.head?=some ask.question ∧
      ask=⟨queryData,ask.message,EdnsContext.fromMessage ask.message,ask.question,cfg.lib.nameText ask.question.name,
        sourceIp,localIp⟩ := by
  unfold readQuery at h
  split at h
  · cases h
  · rename_i message hm
    dsimp only at h
    split_ifs at h
    split at h
    · cases h
    · rename_i question hq
      cases h
      exact ⟨hm,hq,rfl⟩

theorem sendable_induction {P : Bytes → Prop} (h : P response)
    (hk : ∀ {a b},Rewrites cfg.lib cfg.answerV4 cfg.answerV6 a b → P a → P b) (proto : Proto) (queryData : Bytes) :
    P (sendable cfg proto queryData response) := by
  have hf := hk (rewrites_applyFamilyFilter cfg.lib cfg.answerV4 cfg.answerV6 response) h
  unfold sendable
  split
  · exact hk (rewrites_truncateForUdp ..) hf
  · exact hf

theorem adBit_sendable (hl : cfg.lib.Lawful) (proto : Proto) (queryData response : Bytes) :
    adBit (sendable cfg proto queryData response)=adBit response :=
  sendable_induction (P := fun b => adBit b=adBit response) rfl (fun hr h => (hr.adBit_eq hl).trans h) _ _

theorem adBit_readQuery (hl : cfg.lib.Lawful) (h : readQuery cfg queryData sourceIp localIp=.error response) :
    adBit response=false := by
  unfold readQuery at h
  split at h
  · cases h
    exact adBit_makeErrorResponse hl _
  · dsimp only at h
    split_ifs at h
    · cases h
      exact adBit_buildResponseEdns hl
    · cases h
      exact adBit_makeErrorResponse hl _
    · cases h
      exact adBit_makeErrorResponse hl _
    · split at h
      · cases h
        exact adBit_makeErrorResponse hl _
      · cases h

end RolodexDns.QueryHandling
