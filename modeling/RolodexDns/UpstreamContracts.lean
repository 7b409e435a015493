import RolodexDns.OwnedTlds

/-! What upstream resolution of a query does, as a contract: it sends the query on in a spelling of it,
and keeps answers under the questions of the replies it accepts and under its own. -/
namespace RolodexDns.UpstreamContracts
open DnsRecords ValidationVerdicts ResponseReading ProgramTrees ProgramTraces StoredRecords WireMessages
  ServerOperations
open UpstreamResolution QueryHandling UpstreamTraces LocalTraces OwnedTlds

variable {cfg : ServerConfig}

/-- Spellings of a query, replies to it, and what answers are kept under. -/
structure Bounds where
  spells : Bytes → Prop
  good : Bytes → Prop
  keeps : Text → Option RecordKind → Prop

/-- Nothing goes to the peers of a TLD, and nothing is read that the server holds. -/
def resolving (cfg : ServerConfig) (queryData : Bytes) (B : Bounds) : Contract ServerOp ServerRes where
  demands
    | .exchangeUdp (.forwarder _) asked sent => asked=queryData ∧ B.spells sent
    | .exchangeProxied (.forwarder _) asked | .exchangeTcp _ asked | .exchangeSecure _ asked => asked=queryData
    | .exchangeUdp (.peer _) _ _ | .exchangeProxied (.peer _) _ => False
    | .held (.cacheInsert name kind _ _) | .held (.cacheInsertNegative name kind _ _) => B.keeps name kind
    | .held _ => False
    | _ => True
  promises o r :=
    (∀ sent,(⟨o,r⟩ : (o : ServerOp) × ServerRes o)=⟨.randomizeQnameCase queryData,some sent⟩ → B.spells sent) ∧
      ∀ f bytes,accepted cfg ⟨o,r⟩=some (.reply queryData (.forwarder f) bytes) → B.good bytes

/-- The query is a spelling of itself, and the keys are those of its question and of good replies. -/
structure Bounds.Fit (cfg : ServerConfig) (queryData : Bytes) (B : Bounds) : Prop where
  spells : B.spells queryData
  good : ∀ {bytes p question},B.good bytes → cfg.lib.fromBytes bytes=some p → p.queries.head?=some question →
    B.keeps (cfg.lib.nameText question.name) (mapQueryTypeToKind question.queryType)
  own : ∀ {p question},cfg.lib.fromBytes queryData=some p → p.queries.head?=some question →
    B.keeps (cfg.lib.nameText question.name) (mapQueryTypeToKind question.queryType)

section
variable {ctx : Option EdnsContext} {lib : ServerLibrary}

variable {query p : Packet} {rcode : ResponseCode} {answers : List Record}

theorem queries_buildResponseEdnsAuth (hl : lib.Lawful) {authority : List Record} {authoritative : Bool}
    (h : lib.fromBytes (buildResponseEdnsAuth lib query rcode answers authority authoritative ctx)=some p) :
    p.queries=query.queries := by
  unfold buildResponseEdnsAuth at h
  dsimp only at h
  cases hb : lib.toBytes _ with
  | none =>
    rw [hb] at h
    cases hl.fromBytes_nil.symm.trans h
  | some bytes =>
    rw [hb] at h
    exact (hl.toBytes_queries hb h).trans rfl

theorem queries_buildResponseValidated (hl : lib.Lawful) {verdict : Verdict}
    (h : lib.fromBytes (buildResponseValidated lib query rcode answers ctx verdict)=some p) :
    p.queries=query.queries := by
  unfold buildResponseValidated at h
  dsimp only at h
  split at h
  · exact queries_buildResponseEdnsAuth hl h
  · split at h
    · rename_i response hr
      have hq := queries_buildResponseEdnsAuth hl hr
      cases hb : lib.toBytes { response with authenticData := true } with
      | none =>
        rw [hb] at h
        exact queries_buildResponseEdnsAuth hl h
      | some bytes =>
        rw [hb] at h
        exact (hl.toBytes_queries hb h).trans hq
    · exact queries_buildResponseEdnsAuth hl h

theorem queries_resolvedResponse (hl : cfg.lib.Lawful) {message : Packet} {res : Resolution}
    (h : cfg.lib.fromBytes (resolvedResponse cfg message ctx res)=some p) : p.queries=message.queries := by
  unfold resolvedResponse at h
  split at h
  · exact queries_buildResponseValidated hl h
  · exact queries_buildResponseValidated hl h

end

section
variable {queryData : Bytes} {B : Bounds} {ctx : Option EdnsContext} {question : Query}

theorem held_resolving {α : Type} {p : LocalProg α}
    (hp : p.Only (fun o => (resolving cfg queryData B).demands (.held o))) :
    (ServerProg.held p).Sat (resolving cfg queryData B) fun _ => True := by
  induction p with
  | pure a => trivial
  | op o next ih => exact ⟨hp.1,fun r _ => ih r (hp.2 r trivial)⟩

theorem cacheAnswers_resolving {answers : List Record}
    (hk : B.keeps (cfg.lib.nameText question.name) (mapQueryTypeToKind question.queryType)) :
    (cacheAnswers cfg question answers).Only (fun o => (resolving cfg queryData B).demands (.held o)) := by
  unfold cacheAnswers
  dsimp only
  split_ifs
  · exact ⟨hk,fun _ _ => trivial⟩
  all_goals trivial

theorem cacheFromWire_resolving {bytes : Bytes}
    (hk : ∀ p question,cfg.lib.fromBytes bytes=some p → p.queries.head?=some question →
      B.keeps (cfg.lib.nameText question.name) (mapQueryTypeToKind question.queryType)) :
    (ServerProg.held (cacheFromWire cfg bytes)).Sat (resolving cfg queryData B) fun _ => True := by
  refine held_resolving ?_
  unfold cacheFromWire
  split
  · trivial
  · rename_i p hp
    split
    · split
      · rename_i question hq
        exact cacheAnswers_resolving (hk p question hp hq)
      · trivial
    · trivial

theorem cacheResolution_resolving {res : Resolution}
    (hk : B.keeps (cfg.lib.nameText question.name) (mapQueryTypeToKind question.queryType)) :
    (ServerProg.held (cacheResolution cfg question res)).Sat (resolving cfg queryData B) fun _ => True := by
  refine held_resolving ?_
  unfold cacheResolution
  split
  · exact cacheAnswers_resolving hk
  · split
    · unfold cacheNegative
      split_ifs
      · exact ⟨hk,fun _ _ => trivial⟩
      · exact ⟨hk,fun _ _ => trivial⟩
      all_goals trivial
    · trivial

variable (hfit : B.Fit cfg queryData)
include hfit

theorem spellQuery_resolving : (spellQuery cfg queryData).Sat (resolving cfg queryData B) B.spells := by
  unfold spellQuery
  split
  · refine ⟨trivial,fun spelt hs => ?_⟩
    cases spelt with
    | none => exact hfit.spells
    | some sent => exact hs.1 sent rfl
  · exact hfit.spells

def TakesGood (cfg : ServerConfig) (queryData : Bytes) (B : Bounds) (f : Forwarder) (response : Option Bytes) : Prop :=
  ∀ bytes,response=some bytes → takes cfg (.reply queryData (.forwarder f) bytes)=true → B.good bytes

omit hfit in
theorem takesGood_of_incoming {f : Forwarder} {o : ServerOp} {r : ServerRes o} {response : Option Bytes}
    (hr : (resolving cfg queryData B).promises o r)
    (hi : incoming cfg ⟨o,r⟩=response.map (.reply queryData (.forwarder f))) :
    TakesGood cfg queryData B f response := by
  intro bytes hb ht
  refine hr.2 f bytes ?_
  rw [accepted,hi,hb]
  exact Option.filter_some_pos ht

theorem queryForwarder_resolving (f : Forwarder) :
    (queryForwarder cfg f queryData).Sat (resolving cfg queryData B) (TakesGood cfg queryData B f) := by
  have ho : (forwardOne cfg (.forwarder f) queryData).Sat (resolving cfg queryData B)
    (TakesGood cfg queryData B f) := by
    unfold forwardOne
    split
    · exact ⟨rfl,fun r hr => takesGood_of_incoming hr rfl⟩
    · refine (spellQuery_resolving hfit).bind fun sent hse => ?_
      split
      · exact nofun
      · exact ⟨⟨rfl,hse⟩,fun r hr => takesGood_of_incoming hr rfl⟩
  have hs : (querySecure f queryData).Sat (resolving cfg queryData B) (TakesGood cfg queryData B f) := by
    unfold querySecure
    split
    · exact nofun
    · split
      · exact nofun
      · exact ⟨rfl,fun r hr => takesGood_of_incoming hr rfl⟩
  unfold queryForwarder
  split
  · exact ho
  · unfold forwardTcp
    split
    · exact nofun
    · exact ⟨rfl,fun r hr => takesGood_of_incoming hr rfl⟩
  all_goals exact hs

theorem forwardQuery_resolving (hm : cfg.mode=.forward) (fs : List Forwarder) :
    (forwardQuery cfg queryData fs).Sat (resolving cfg queryData B) fun _ => True := by
  induction fs with
  | nil => trivial
  | cons f fs ih =>
    refine (queryForwarder_resolving hfit f).bind fun reply hr => ?_
    cases reply with
    | none => exact ⟨trivial,fun _ _ => ih⟩
    | some response =>
      have hg := hr response rfl (takes_forwarder hm f response)
      exact ⟨trivial,fun _ _ => (cacheFromWire_resolving fun _ _ => hfit.good hg).bind fun _ _ => trivial⟩

theorem tierForward_resolving (hm : cfg.mode ≠ .forward) (fs : List Forwarder) :
    (tierForward cfg queryData fs).Sat (resolving cfg queryData B) fun reply => ∀ bytes,reply=some bytes →
      B.good bytes := by
  induction fs with
  | nil => exact nofun
  | cons f fs ih =>
    refine ⟨trivial,fun usable _ => ?_⟩
    cases usable with
    | false => exact ih
    | true =>
      refine (queryForwarder_resolving hfit f).bind fun reply hr => ?_
      cases reply with
      | none => exact ⟨trivial,fun _ _ => ih⟩
      | some response =>
        refine ⟨trivial,fun _ _ => ?_⟩
        split_ifs with hd
        · intro bytes hb
          cases hb
          exact hr response rfl ((takes_tier hm f response).trans hd)
        · exact ih

theorem tryTier_resolving (hl : cfg.lib.Lawful) (hmo : cfg.mode ≠ .forward) {message : Packet}
    (hm : cfg.lib.fromBytes queryData=some message) (tier : Nat) :
    (tryTier cfg tier queryData message ctx).Sat (resolving cfg queryData B) fun reply => ∀ bytes,reply=some bytes →
      ∀ p question,cfg.lib.fromBytes bytes=some p → p.queries.head?=some question →
        B.keeps (cfg.lib.nameText question.name) (mapQueryTypeToKind question.queryType) := by
  cases tier with
  | succ n =>
    exact (tierForward_resolving hfit hmo _).mono fun reply hr bytes hb p question hp hq =>
      hfit.good (hr bytes hb) hp hq
  | zero =>
    change (tierRoots cfg message ctx).Sat _ _
    unfold tierRoots
    split
    · exact nofun
    · refine ⟨trivial,fun result _ => ?_⟩
      match result with
      | none | some (.error _) => exact nofun
      | some (.ok res) =>
        intro bytes hb p question hp hq
        split_ifs at hb
        cases hb
        rw [queries_resolvedResponse hl hp] at hq
        exact hfit.own hm hq

theorem tryTiers_resolving (hl : cfg.lib.Lawful) (hmo : cfg.mode ≠ .forward) {message : Packet}
    (hm : cfg.lib.fromBytes queryData=some message) (tiers : List Nat) :
    (tryTiers cfg queryData message ctx tiers).Sat (resolving cfg queryData B) fun _ => True := by
  induction tiers with
  | nil => trivial
  | cons tier tiers ih =>
    refine (tryTier_resolving hfit hl hmo hm tier).bind fun reply hr => ?_
    cases reply with
    | none => exact ih
    | some response => exact ⟨trivial,fun _ _ => (cacheFromWire_resolving (hr response rfl)).bind fun _ _ => trivial⟩

theorem iterativeQuery_resolving :
    (iterativeQuery cfg queryData ctx).Sat (resolving cfg queryData B) fun _ => True := by
  unfold iterativeQuery
  split
  · trivial
  · rename_i message hm
    split
    · trivial
    · rename_i question hq
      refine ⟨trivial,fun result _ => ?_⟩
      cases result with
      | error e => trivial
      | ok res =>
        change Prog.Sat _ (if _ then _ else _) _
        split
        · trivial
        · exact (cacheResolution_resolving (hfit.own hm hq)).bind fun _ _ => trivial

end

variable {ask : Asked} {C : Contract ServerOp ServerRes}

/-- Upstream resolution keeps to its bounds, once the check on the wire has let the query through. -/
theorem upstreamResolve_resolving (hl : cfg.lib.Lawful) {queryData : Bytes} {B : Bounds}
    {ctx : Option EdnsContext} (hfit : wireQuestionIsArpa queryData=false → B.Fit cfg queryData) :
    (upstreamResolve cfg queryData ctx).Sat (resolving cfg queryData B) fun _ => True := by
  unfold upstreamResolve
  split_ifs with hw
  · trivial
  · have hfit := hfit (Bool.eq_false_iff.mpr hw)
    split
    · rename_i hm
      exact forwardQuery_resolving hfit hm _
    · exact iterativeQuery_resolving hfit
    · rename_i hm
      unfold autoResolve
      split
      · trivial
      · rename_i message hme
        split
        · trivial
        · exact ⟨trivial,fun start _ => tryTiers_resolving hfit hl (by simp [hm]) hme _⟩

/-- What both queries of an answer keep to, the client's and that of DNS64, the answer keeps to. -/
theorem answerUpstream_sat
    (hc : (upstreamResolve cfg ask.queryData ask.ctx).Sat C fun _ => True)
    (hd : (upstreamResolve cfg (buildQueryForType cfg.lib ask.qname .A ask.message.id) ask.ctx).Sat C fun _ => True)
    (hca : C.demands (.held (.cacheLookup ask.qname ask.recordKind))) :
    (answerUpstream cfg ask).Sat C fun _ => True := by
  have hs (response : Bytes) : (dns64 cfg ask response).Sat C fun _ => True := by
    unfold dns64
    split
    · split
      · trivial
      · split
        · trivial
        · refine hd.bind fun aResponse _ => ?_
          split
          · trivial
          · trivial
    · trivial
  refine hc.bind fun response _ => ?_
  refine (hs response).bind fun reply _ => ?_
  cases reply with
  | some reply => trivial
  | none =>
    dsimp only
    split
    · refine ⟨hca,fun cached _ => ?_⟩
      change Prog.Sat _ (if _ then _ else _) _
      split
      · trivial
      · trivial
    · trivial

/-- A query keeps to a contract that binds only what upstream resolution does. -/
theorem answerAsked_demands {log : ServerLog}
    {response : Bytes} (h : Yields (answerAsked cfg ask) log response) (ho : ∀ o,KeepsOwn o → C.demands (.held o))
    (hpe : ∀ peers o,AsksPeers peers o → C.demands o)
    (hu : isArpaSubtree ask.question.name=false → (answerUpstream cfg ask).Sat C fun _ => True)
    (hp : ∀ e∈log,C.promises e.1 e.2) : ∀ e∈log,C.demands e.1 := by
  obtain ⟨own,step,rest,rfl,hl,hr⟩ := answerAsked_inv h
  have hh : ∀ e∈heldLog own,C.demands e.1 := by
    intro e he
    obtain ⟨e',he',rfl⟩ := List.mem_map.mp he
    exact ho e'.1 (localAnswer_keepsOwn hl e' he')
  refine List.forall_mem_append.mpr ⟨hh,?_⟩
  match step with
  | some (.answer reply) =>
    obtain ⟨rfl,-⟩ := hr
    exact List.forall_mem_nil _
  | some (.askPeers peers ns) => exact fun e he => hpe peers e.1 (peersThenDenial_asksPeers hr e he)
  | none =>
    have hle := (localAnswer_decided hl).1.2
    exact (Yields.sat hr (hu hle.2.2) (List.forall_mem_append.mp hp).2).1

end RolodexDns.UpstreamContracts
