import RolodexDns.UpstreamTraces

/-! Where the AD bit of a response comes from. A response the server builds has it set only on a
Secure result of its own resolver. A reply of a forwarder, a tier or a peer is passed on with the
bit as it came, unless the answer is rebuilt from the cache or by DNS64. -/
namespace RolodexDns.AuthenticData
open DomainNames DnsRecords ResponseReading ProgramTraces StoredRecords WireMessages List
open ServerOperations UpstreamResolution QueryHandling UpstreamTraces

/-- The response upstream resolution makes of what comes in. -/
def incomingBytes (cfg : ServerConfig) (queryData : Bytes) (ctx : Option EdnsContext) : Incoming → Bytes
  | .reply _ _ bytes => bytes
  | .result _ res => resolvedResponse cfg ((cfg.lib.fromBytes queryData).getD Packet.new) ctx res

variable {cfg : ServerConfig} {ask : Asked}

theorem eq_incomingBytes {queryData : Bytes} {ctx : Option EdnsContext} {inc : Incoming}
    {bytes : Bytes} (h : Becomes cfg queryData ctx inc bytes) : bytes=incomingBytes cfg queryData ctx inc := by
  cases h with
  | relayed => rfl
  | resolved res hm => rw [incomingBytes,hm,Option.getD_some]

section
variable (cfg : ServerConfig) (ask : Asked) (response : Bytes) (log : ServerLog)

def dns64Query : Bytes := buildQueryForType cfg.lib ask.qname .A ask.message.id

/-- DNS64 looks for A records after this response. -/
def dns64Asks : Bool :=
  ask.question.queryType=.AAAA && cfg.dns64Enabled &&
    (cfg.lib.fromBytes response).any fun msg => !msg.answers.any fun r => r.recordType=.AAAA

def hasDns64Records : Bool :=
  (cfg.lib.fromBytes response).any fun msg => !(dns64Records cfg msg.answers).isEmpty

/-- After this reply came in, the answer is built anew: by DNS64 from what is accepted next, or from
the answer cache. -/
def Rebuilt (reply : Bytes) (rest : ServerLog) : Prop :=
  (dns64Asks cfg ask reply=true ∧ ∃ inc after,firstOf (accepted cfg) rest=some (inc,after) ∧
    hasDns64Records cfg (incomingBytes cfg (dns64Query cfg ask) ask.ctx inc)=true) ∨ ¬ Silent cacheHit rest

/-- The first reply that is accepted for the client's query has AD clear, or the answer is rebuilt. -/
def RelaysNoAd : Prop :=
  ∀ sender reply rest,firstOf (accepted cfg) log=some (.reply ask.queryData sender reply,rest) →
    adBit reply=false ∨ Rebuilt cfg ask reply rest

/-- The response states what the server's own resolver found Secure for this question. -/
def StatesSecure (response : Bytes) : Prop :=
  ∃ e∈log,∃ res,accepted cfg e=some (.result ask.question res) ∧ res.verdict=.secure ∧
    response=resolvedResponse cfg ask.message ask.ctx res

end

section
variable {log : ServerLog} {response : Bytes} {reply : Option Reply}

/-- DNS64 does nothing, or it asks for A and answers if there is something to synthesize from. -/
theorem dns64_trace (h : Yields (dns64 cfg ask response) log reply) :
    (dns64Asks cfg ask response=false ∧ log=[] ∧ reply=none) ∨
      (dns64Asks cfg ask response=true ∧ ∃ aResponse rcode,PassesOn cfg (dns64Query cfg ask) ask.ctx log aResponse ∧
        (reply.isSome=hasDns64Records cfg
          (aResponse.getD (makeErrorResponse cfg.lib (dns64Query cfg ask) rcode)))) := by
  unfold dns64 at h
  split_ifs at h with has
  · cases hf : cfg.lib.fromBytes response with
    | none =>
      rw [hf] at h
      cases h
      exact .inl ⟨by simp [dns64Asks,hf],rfl,rfl⟩
    | some forwarded =>
      rw [hf] at h
      dsimp only at h
      split_ifs at h with han
      · cases h
        exact .inl ⟨by simp only [dns64Asks,hf,Option.any_some,han,Bool.not_true,Bool.and_false],rfl,rfl⟩
      · obtain ⟨aBytes,first,rest,hfi,hr,rfl⟩ := h.bind_inv
        obtain ⟨aResponse,rcode,hp,rfl⟩ := upstreamResolve_passesOn hfi
        refine .inr ⟨by simp only [dns64Asks,hf,has,Option.any_some,han,Bool.not_false,Bool.and_self],
          aResponse,rcode,?_⟩
        have hq : buildQueryForType cfg.lib ask.qname .A ask.message.id=dns64Query cfg ask := rfl
        rw [hq] at hr
        unfold hasDns64Records
        cases ha : cfg.lib.fromBytes (aResponse.getD (makeErrorResponse cfg.lib (dns64Query cfg ask) rcode)) with
        | none =>
          rw [ha] at hr
          cases hr
          rw [append_nil]
          exact ⟨hp,rfl⟩
        | some aMsg =>
          rw [ha] at hr
          cases hr
          rw [append_nil]
          refine ⟨hp,?_⟩
          by_cases he : (dns64Records cfg aMsg.answers).isEmpty=true
          · simp [he]
          · simp [he]
  · cases h
    exact .inl ⟨by simp only [dns64Asks,has,Bool.false_and],rfl,rfl⟩

def AnswersAsk (ask : Asked) : Incoming → Prop
  | .reply queryData _ _ => queryData=ask.queryData
  | .result question _ => question=ask.question

/-- The parts of a query that was read belong together. -/
def WellRead (lib : ServerLibrary) (ask : Asked) : Prop :=
  lib.fromBytes ask.queryData=some ask.message ∧ ask.message.queries.head?=some ask.question

theorem readQuery_wellRead {queryData : Bytes} {sourceIp localIp : Option IpAddr}
    (h : readQuery cfg queryData sourceIp localIp=.ok ask) : WellRead cfg.lib ask ∧ ask.queryData=queryData := by
  obtain ⟨hm,hq,heq⟩ := readQuery_ok h
  have hd : ask.queryData=queryData := by rw [heq]
  exact ⟨⟨hd ▸ hm,hq⟩,hd⟩

theorem not_answersAsk_of_becomes (hlib : cfg.lib.Lawful) (hread : WellRead cfg.lib ask)
    (hty : ask.question.queryType=.AAAA) {inc : Incoming} {bytes : Bytes}
    (h : Becomes cfg (dns64Query cfg ask) ask.ctx inc bytes) : ¬ AnswersAsk ask inc := by
  -- The A question is never the one whose type is AAAA.
  have ht {message : Packet} {question : Query} (hm : cfg.lib.fromBytes (dns64Query cfg ask)=some message)
      (hq : message.queries.head?=some question) : question≠ask.question := by
    rintro rfl
    have ha := queries_buildQueryForType hlib hm hq
    rw [hty] at ha
    cases ha
  cases h with
  | relayed sender =>
    intro heq
    have hm : cfg.lib.fromBytes (dns64Query cfg ask)=some ask.message := by
      rw [show dns64Query cfg ask=ask.queryData from heq]
      exact hread.1
    exact ht hm hread.2 rfl
  | resolved res hm hq => exact ht hm hq

theorem dns64_not_answersAsk (hlib : cfg.lib.Lawful) (hread : WellRead cfg.lib ask)
    (h : Yields (dns64 cfg ask response) log reply) {e : (o : ServerOp) × ServerRes o} (he : e∈log) {inc : Incoming}
    (hi : accepted cfg e=some inc) : ¬ AnswersAsk ask inc := by
  rcases dns64_trace h with ⟨-,rfl,-⟩ | ⟨ha,aResponse,rcode,⟨inc',hg,hr⟩,-⟩
  · cases he
  · obtain rfl := hg.eq_of_accepted he hi
    have ht : ask.question.queryType=.AAAA := by
      simp only [dns64Asks,Bool.and_eq_true,decide_eq_true_eq] at ha
      exact ha.1.1
    cases hr with
    | some hb => exact not_answersAsk_of_becomes hlib hread ht hb

theorem dns64_silent_cacheHit (h : Yields (dns64 cfg ask response) log reply) : Silent cacheHit log := by
  rcases dns64_trace h with ⟨-,rfl,-⟩ | ⟨-,aResponse,rcode,⟨inc,hg,-⟩,-⟩
  · exact forall_mem_nil _
  · exact hg.silent_cacheHit

theorem hasDns64Records_makeErrorResponse (hlib : cfg.lib.Lawful) (queryData : Bytes) (rcode : ResponseCode) :
    hasDns64Records cfg (makeErrorResponse cfg.lib queryData rcode)=false := by
  unfold hasDns64Records
  cases hp : cfg.lib.fromBytes (makeErrorResponse cfg.lib queryData rcode) with
  | none => rfl
  | some p => simp [answers_makeErrorResponse hlib hp,dns64Records]

/-- After a reply, the answer is rebuilt exactly if DNS64 has one or the cache is hit. -/
theorem rebuilt_iff (hlib : cfg.lib.Lawful) {after rest : ServerLog} (haf : ∀ x∈after,NotesDown x.1)
    (h : Yields (dns64 cfg ask response) log reply) (hre : Silent (accepted cfg) rest) :
    Rebuilt cfg ask response (after++(log++rest)) ↔ reply.isSome=true ∨ ¬ Silent cacheHit rest := by
  have hq : Quiet cfg after := quiet_of_notesDown haf
  have hc : Silent cacheHit (after++(log++rest)) ↔ Silent cacheHit rest :=
    ⟨fun hs x hx => hs x (by simp [hx]),fun hs => hq.2.append ((dns64_silent_cacheHit h).append hs)⟩
  unfold Rebuilt
  rw [hc,hq.1.firstOf_append]
  refine or_congr_left ?_
  rcases dns64_trace h with ⟨ha,-,rfl⟩ | ⟨ha,aResponse,rcode,⟨inc,hg,hrl⟩,hr⟩
  · simp [ha]
  · rw [hr]
    cases hrl with
    | none =>
      have hn : firstOf (accepted cfg) (log++rest)=none := (hg.1.append hre).firstOf_eq_none
      simp [hn,hasDns64Records_makeErrorResponse hlib]
    | some hb =>
      obtain ⟨after',hf,-⟩ := hg.firstOf_append
      simp [hf,ha,← eq_incomingBytes hb]

end

section
variable {log first : ServerLog} {bytes : Bytes} {res : Resolution}

variable (hlib : cfg.lib.Lawful)
include hlib

/-- Upstream resolution, DNS64 and the look into the cache, one after the other. -/
theorem answerUpstream_trace (h : Yields (answerUpstream cfg ask) log bytes) :
    ∃ first second rest response reply,log=first++(second++rest) ∧
      Yields (upstreamResolve cfg ask.queryData ask.ctx) first response ∧
      Yields (dns64 cfg ask response) second reply ∧ Silent (accepted cfg) rest ∧
      ((reply.isSome=true ∨ ¬ Silent cacheHit rest) ∧ adBit bytes=false ∨
        ¬ (reply.isSome=true ∨ ¬ Silent cacheHit rest) ∧ bytes=response) := by
  obtain ⟨response,first,others,hf,ho,rfl⟩ := h.bind_inv
  obtain ⟨reply,second,rest,hs,hr,rfl⟩ := ho.bind_inv
  refine ⟨first,second,rest,response,reply,rfl,hf,hs,?_⟩
  cases reply with
  | some reply =>
    cases hr
    exact ⟨forall_mem_nil _,.inl ⟨.inl rfl,Reply.adBit_bytes hlib ask reply⟩⟩
  | none =>
    split_ifs at hr
    · obtain ⟨cached,last,hl,rfl⟩ := hr.perform_bind_inv
      have hh : Silent (accepted cfg) [⟨.held (.cacheLookup ask.qname ask.recordKind),cached⟩] :=
        forall_mem_singleton.mpr rfl
      split_ifs at hl with he
      · cases hl
        have hm : Silent cacheHit [⟨.held (.cacheLookup ask.qname ask.recordKind),cached⟩] :=
          forall_mem_singleton.mpr (by simp [cacheHit,he])
        exact ⟨hh,.inr ⟨not_or.mpr ⟨by simp,not_not.mpr hm⟩,rfl⟩⟩
      · cases hl
        refine ⟨hh,.inl ⟨.inr fun hsi => ?_,Reply.adBit_bytes hlib ask _⟩⟩
        have hhi := hsi _ mem_cons_self
        simp [cacheHit,he] at hhi
    · cases hr
      exact ⟨forall_mem_nil _,.inr ⟨not_or.mpr ⟨by simp,not_not.mpr (forall_mem_nil _)⟩,rfl⟩⟩

/-- A reply was passed on and nothing of the server's own stands behind it, or AD is the server's own
statement. -/
def Outcome (cfg : ServerConfig) (ask : Asked) (log : ServerLog) (bytes : Bytes) : Prop :=
  (∃ sender rest,firstOf (accepted cfg) log=some (.reply ask.queryData sender bytes,rest) ∧
    ¬ Rebuilt cfg ask bytes rest ∧ ∀ e∈log,∀ res,accepted cfg e≠some (.result ask.question res)) ∨
  (RelaysNoAd cfg ask log ∧ (adBit bytes=true → StatesSecure cfg ask log bytes))

omit hlib in
theorem Outcome.after_silent (hf : Silent (accepted cfg) first) (h : Outcome cfg ask log bytes) :
    Outcome cfg ask (first++log) bytes := by
  rcases h with ⟨sender,rest,hfirstOf,hr,hn⟩ | ⟨hrl,hs⟩
  · refine .inl ⟨sender,rest,(hf.firstOf_append log).trans hfirstOf,hr,fun e he res hre => ?_⟩
    rcases mem_append.mp he with he | he
    · rw [hf e he] at hre
      cases hre
    · exact hn e he res hre
  · refine .inr ⟨fun sender reply rest hfirstOf => hrl sender reply rest ?_,fun had => ?_⟩
    · rwa [hf.firstOf_append] at hfirstOf
    · obtain ⟨e,he,hre⟩ := hs had
      exact ⟨e,mem_append_right _ he,hre⟩

variable {message : Packet} {question : Query}

theorem secure_of_adBit_resolvedResponse {ctx : Option EdnsContext}
    (h : adBit (resolvedResponse cfg message ctx res)=true) : res.verdict=.secure := by
  unfold resolvedResponse at h
  split_ifs at h
  · exact secure_of_adBit hlib h
  · exact secure_of_adBit hlib h

omit hlib in
/-- A response without AD says nothing; it is enough that no reply with AD was passed over. -/
theorem Outcome.of_clear (hr : RelaysNoAd cfg ask log) (had : adBit bytes=false) : Outcome cfg ask log bytes :=
  .inr ⟨hr,fun ht => absurd (had.symm.trans ht) (by decide)⟩

omit hlib in
theorem relaysNoAd_of_silent (h : Silent (accepted cfg) log) : RelaysNoAd cfg ask log := by
  intro sender reply rest hf
  rw [h.firstOf_eq_none] at hf
  cases hf

omit hlib in
theorem relaysNoAd_of_result
    (h : Gets cfg first (some (.result question res))) (rest : ServerLog) : RelaysNoAd cfg ask (first++rest) := by
  intro sender got after hg
  obtain ⟨after,hfirstOf,-⟩ := h.firstOf_append
  rw [hfirstOf] at hg
  cases hg

variable (hread : WellRead cfg.lib ask)
include hread

theorem Outcome.of_result (hm : cfg.lib.fromBytes ask.queryData=some message)
    (hq : message.queries.head?=some question) (h : Gets cfg first (some (.result question res)))
    (rest : ServerLog) : Outcome cfg ask (first++rest) (resolvedResponse cfg message ask.ctx res) := by
  obtain rfl : ask.message=message := Option.some.inj (hread.1.symm.trans hm)
  obtain rfl : ask.question=question := Option.some.inj (hread.2.symm.trans hq)
  refine .inr ⟨relaysNoAd_of_result h rest,fun had => ?_⟩
  obtain ⟨e,he,hi⟩ := h.exists_accepted
  exact ⟨e,mem_append_left _ he,res,hi,secure_of_adBit_resolvedResponse hlib had,rfl⟩

theorem answerUpstream_outcome (h : Yields (answerUpstream cfg ask) log bytes) : Outcome cfg ask log bytes := by
  obtain ⟨first,second,rest,response,reply,rfl,hf,hs,hrs,hb⟩ := answerUpstream_trace hlib h
  obtain ⟨upstream,rcode,⟨inc,hg,hrl⟩,rfl⟩ := upstreamResolve_passesOn hf
  cases hrl with
  | none =>
    -- Nothing was accepted for the client's question, so the response is an error.
    have hre : RelaysNoAd cfg ask (first++(second++rest)) := by
      intro sender got after hgo
      rw [hg.1.firstOf_append] at hgo
      obtain ⟨e,he,hi⟩ := exists_of_firstOf hgo
      rcases mem_append.mp he with he | he
      · exact absurd rfl (dns64_not_answersAsk hlib hread hs he hi)
      · rw [hrs e he] at hi
        cases hi
    rcases hb with ⟨-,had⟩ | ⟨-,rfl⟩
    · exact .of_clear hre had
    · exact .of_clear hre (adBit_makeErrorResponse hlib _)
  | some hbe =>
    obtain ⟨after,hfirstOf,ha⟩ := hg.firstOf_append
    cases hbe with
    | relayed sender relayed =>
      have hr := rebuilt_iff hlib ha hs hrs
      rcases hb with ⟨hn,had⟩ | ⟨ho,rfl⟩
      · refine .of_clear (fun sender got after hgo => .inr ?_) had
        rw [hfirstOf] at hgo
        cases hgo
        exact hr.mpr hn
      · refine .inl ⟨sender,_,hfirstOf _,fun hn => ho (hr.mp hn),fun e he res hi => ?_⟩
        rcases mem_append.mp he with he | he
        · cases hg.eq_of_accepted he hi
        · rcases mem_append.mp he with he | he
          · exact dns64_not_answersAsk hlib hread hs he hi rfl
          · rw [hrs e he] at hi
            cases hi
    | resolved res hm hq =>
      rcases hb with ⟨-,had⟩ | ⟨-,rfl⟩
      · exact .of_clear (relaysNoAd_of_result hg _) had
      · exact .of_result hlib hread hm hq hg _

theorem peers_outcome {peers : List SocketAddr}
    (h : Yields (forwardToTldPeers cfg ask.queryData peers) log (some bytes)) : Outcome cfg ask log bytes := by
  obtain ⟨inc,hg,hr⟩ : PassesOn cfg ask.queryData ask.ctx log (some bytes) := forwardToTldPeers_passesOn h
  rw [← append_nil log]
  cases hr with
  | some hb =>
    cases hb with
    | relayed sender =>
      obtain ⟨after,hfirstOf,ha⟩ := hg.firstOf_append
      refine .inl ⟨sender,after++[],hfirstOf [],?_,fun e he res hi => ?_⟩
      · have hqu : Quiet cfg (after++[]) := (quiet_of_notesDown ha).append quiet_nil
        rintro (⟨-,inc,rest,hi,-⟩ | hh)
        · rw [hqu.1.firstOf_eq_none] at hi
          cases hi
        · exact hh hqu.2
      · rw [append_nil] at he
        cases hg.eq_of_accepted he hi
    | resolved res hm hq => exact .of_result hlib hread hm hq hg []

theorem answerAsked_outcome (h : Yields (answerAsked cfg ask) log bytes) : Outcome cfg ask log bytes := by
  obtain ⟨step,first,rest,hfi,hr,rfl⟩ := h.bind_inv
  refine Outcome.after_silent (silent_held hfi) ?_
  match step with
  | none => exact answerUpstream_outcome hlib hread hr
  | some (.answer reply) =>
    cases hr
    exact .of_clear (relaysNoAd_of_silent (forall_mem_nil _)) (Reply.adBit_bytes hlib ask reply)
  | some (.askPeers peers ns) =>
    obtain ⟨response,second,third,hs,ht,rfl⟩ := hr.bind_inv
    cases response with
    | some response =>
      cases ht
      rw [append_nil]
      exact peers_outcome hlib hread hs
    | none =>
      obtain ⟨reply,fourth,last,hf,hl,rfl⟩ := ht.bind_inv
      cases hl
      have hp : PassesOn cfg ask.queryData ask.ctx second none := forwardToTldPeers_passesOn hs
      rw [append_nil]
      refine .of_clear (relaysNoAd_of_silent ?_) (Reply.adBit_bytes hlib ask reply)
      exact (passesOn_none_iff.mp hp).1.append (silent_held hf)

end

/-- AD is the server's own statement exactly if no reply that it relays has the bit set. -/
theorem ad_only_own_iff (hlib : cfg.lib.Lawful) {query : Bytes} {sourceIp localIp : Option IpAddr}
    {proto : Proto} {log : ServerLog} {bytes : Bytes}
    (h : Yields (handleQueryProto cfg query sourceIp localIp proto) log bytes) :
    (adBit bytes=true → ∃ ask response,readQuery cfg query (sourceIp.map toCanonical)
      (localIp.map toCanonical)=.ok ask ∧
        StatesSecure cfg ask log response ∧ bytes=sendable cfg proto query response) ↔
      ∀ ask,readQuery cfg query (sourceIp.map toCanonical) (localIp.map toCanonical)=.ok ask →
        RelaysNoAd cfg ask log := by
  obtain ⟨response,first,rest,hf,hrs,rfl⟩ := h.bind_inv
  cases hrs
  rw [append_nil,adBit_sendable hlib]
  unfold resolveQuery at hf
  cases ha : readQuery cfg query (sourceIp.map toCanonical) (localIp.map toCanonical) with
  | error error =>
    rw [ha] at hf
    cases hf
    simp [adBit_readQuery hlib ha]
  | ok ask =>
    rw [ha] at hf
    rcases answerAsked_outcome hlib (readQuery_wellRead ha).1 hf with
      ⟨sender,rest,hfirstOf,hre,hn⟩ | ⟨hr,hs⟩
    · constructor
      · intro ho ask' ha' sender' reply rest' hg
        cases ha'
        rw [hfirstOf] at hg
        cases hg
        refine .inl (Bool.eq_false_iff.mpr fun had => ?_)
        obtain ⟨ask',-,ha',⟨e,he,res,hres,-⟩,-⟩ := ho had
        cases ha'
        exact hn e he res hres
      · intro hr had
        rcases hr ask rfl sender response rest hfirstOf with hc | hne
        · exact absurd (hc.symm.trans had) (by decide)
        · exact absurd hne hre
    · constructor
      · intro _ ask' ha'
        cases ha'
        exact hr
      · intro _ had
        exact ⟨ask,response,rfl,hs had,rfl⟩

def nameA : Name := ⟨[⟨[97],by decide,by decide,by decide⟩],by decide⟩

def queryA : Packet :=
  { Packet.new with id := 1, recursionDesired := true, queries := [⟨nameA,.A,.IN⟩], edns := some ⟨0,1232,true⟩ }

def queryABytes : Bytes :=
  [0,1,1,0,0,1,0,0,0,0,0,1,1,97,0,0,1,0,1,0,0,41,4,208,0,0,128,0,0,0]

def vouchedA : Packet :=
  { queryA with
    messageType := .response, recursionAvailable := true, authenticData := true,
    answers := [⟨nameA,.IN,60,.a 0xc0000201⟩] }

def vouchedABytes : Bytes :=
  [0,1,129,160,0,1,0,1,0,0,0,1,1,97,0,0,1,0,1,192,12,0,1,0,1,0,0,0,60,0,4,192,0,2,1,
    0,0,41,4,208,0,0,128,0,0,0]

def forwardingConfig : ServerConfig where
  lib := tableLibrary [(queryA,queryABytes),(vouchedA,vouchedABytes)]
  mode := .forward
  forwarders := [⟨.dot,⟨.v4 0x09090909,853⟩,[]⟩]
  forwarderTiers := []
  cacheEnabled := true
  dns64Enabled := false
  dns64Prefix := 0
  qnameRandomization := true
  proxied := false
  answerV4 := true
  answerV6 := true
  overlayCidrs := []
  recursionCidrs := [⟨.v4 0x7f000000,8⟩]
  defaultTtl := 86400

theorem forwardingConfig_lawful : forwardingConfig.lib.Lawful := tableLibrary_lawful (by decide) (by decide)

def forwardedQuery : ServerProg Bytes := handleQueryProto forwardingConfig queryABytes (some (.v4 0x7f000001)) none .tcp

def forwardingRun : ServerLog × Bytes := answeredBy (repliesBy holdsNothing (some vouchedABytes)) forwardedQuery

/-- The condition is decided by the trace of this query. -/
theorem ad_only_own_iff_forwarded :
    forwardingConfig.lib.Lawful ∧ Yields forwardedQuery forwardingRun.1 forwardingRun.2 ∧
      ((adBit forwardingRun.2=true → ∃ ask response,
          readQuery forwardingConfig queryABytes (some (.v4 0x7f000001)) none=.ok ask ∧
          StatesSecure forwardingConfig ask forwardingRun.1 response ∧
          forwardingRun.2=sendable forwardingConfig .tcp queryABytes response) ↔
        ∀ ask,readQuery forwardingConfig queryABytes (some (.v4 0x7f000001)) none=.ok ask →
          RelaysNoAd forwardingConfig ask forwardingRun.1) :=
  ⟨forwardingConfig_lawful,yields_answeredBy _ _,ad_only_own_iff forwardingConfig_lawful (yields_answeredBy _ _)⟩

/-- The forwarder's AD bit reaches the client, and the resolver was never asked. -/
theorem forwarded_ad_relayed :
    forwardingConfig.lib.Lawful ∧ Yields forwardedQuery forwardingRun.1 forwardingRun.2 ∧
      adBit forwardingRun.2=true ∧ forwardingRun.2=vouchedABytes ∧
      ¬ ∃ ask response,readQuery forwardingConfig queryABytes (some (.v4 0x7f000001)) none=.ok ask ∧
        StatesSecure forwardingConfig ask forwardingRun.1 response ∧
        forwardingRun.2=sendable forwardingConfig .tcp queryABytes response := by
  have hn : forwardingRun.1.all (fun e => !(accepted forwardingConfig e).any Incoming.isResult)=true := by
    decide +kernel
  refine ⟨forwardingConfig_lawful,yields_answeredBy _ _,by decide +kernel,by decide +kernel,?_⟩
  rintro ⟨ask,response,-,⟨e,he,res,hr,-⟩,-⟩
  have hno := all_eq_true.mp hn e he
  rw [hr] at hno
  cases hno

end RolodexDns.AuthenticData
