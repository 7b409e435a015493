import RolodexDns.UpstreamContracts
import RolodexDns.WarmAnswers

/-! Which question a forwarder's reply answers. Over UDP it is compared with what was sent, over QUIC
the id is put back, and over the other transports nothing is compared. What is kept of a reply is
kept under the question that it names itself. -/
namespace RolodexDns.ResponseBinding
open DnsRecords ProgramTrees ProgramTraces StoredRecords WireMessages ServerOperations List
open UpstreamResolution QueryHandling UpstreamTraces LocalTraces AuthenticData UpstreamContracts WarmAnswers

/-- A message is at least a header and starts with its id, its first name is the one that is spelt,
and what was written can be read. -/
structure WireLaws (lib : ServerLibrary) : Prop where
  header : ∀ {bytes p},lib.fromBytes bytes=some p → 12 ≤ bytes.length
  id : ∀ {a b p p'},lib.fromBytes a=some p → lib.fromBytes b=some p' → a.take 2=b.take 2 → p.id=p'.id
  name : ∀ {a b p p' q q'},lib.fromBytes a=some p → lib.fromBytes b=some p' → lib.spelling a=lib.spelling b →
    p.queries.head?=some q → p'.queries.head?=some q' → q.name=q'.name
  reads : ∀ {p bytes},lib.toBytes p=some bytes →
    ∃ p',lib.fromBytes bytes=some p' ∧ p'.id=p.id ∧ p'.queries=p.queries

variable (lib : ServerLibrary) (queryData reply : Bytes) {cfg : ServerConfig} {log : ServerLog}

def AsksSame : Prop :=
  ∃ q m,lib.fromBytes queryData=some q ∧ lib.fromBytes reply=some m ∧ m.queries=q.queries

def Binds : Prop :=
  ∃ q m,lib.fromBytes queryData=some q ∧ lib.fromBytes reply=some m ∧ m.id=q.id ∧ m.queries=q.queries

/-- Something is kept under this name and type if the query asks for it. -/
def KeyOf (queryData : Bytes) (name : Text) (kind : Option RecordKind) : Prop :=
  ∃ q question,lib.fromBytes queryData=some q ∧ q.queries.head?=some question ∧
    name=lib.nameText question.name ∧ kind=mapQueryTypeToKind question.queryType

/-- The query that was sent asks first what the query asks first, and the reply asks further what it
asks further. -/
def AsksSameFurther (queryData sent reply : Bytes) : Prop :=
  ∃ s q m question,lib.fromBytes sent=some s ∧ lib.fromBytes queryData=some q ∧ lib.fromBytes reply=some m ∧
    s.queries.head?=some question ∧ q.queries.head?=some question ∧ m.queries.tail=q.queries.tail

/-- What is left to ask of a reply that was accepted. -/
def MeetsRest : ServerOp → Prop
  | .exchangeUdp _ _ sent => AsksSame lib queryData reply ∨ AsksSameFurther lib queryData sent reply
  | .exchangeSecure f _ => if f.transport=.doq then AsksSame lib queryData reply else Binds lib queryData reply
  | _ => Binds lib queryData reply

section
variable {lib : ServerLibrary} {queryData reply : Bytes}

theorem Binds.asksSame (h : Binds lib queryData reply) : AsksSame lib queryData reply := by
  obtain ⟨q,m,hq,hm,-,hqu⟩ := h
  exact ⟨q,m,hq,hm,hqu⟩

theorem Binds.meetsRest (h : Binds lib queryData reply) (o : ServerOp) : MeetsRest lib queryData reply o := by
  cases o with
  | exchangeUdp => exact .inl h.asksSame
  | exchangeSecure f asked =>
    dsimp only [MeetsRest]
    split_ifs
    · exact h.asksSame
    · exact h
  | _ => exact h

theorem AsksSame.binds (hw : WireLaws lib) (h : AsksSame lib queryData reply) (hid : reply.take 2=queryData.take 2) :
    Binds lib queryData reply := by
  obtain ⟨q,m,hq,hm,hqu⟩ := h
  exact ⟨q,m,hq,hm,hw.id hm hq hid,hqu⟩

variable {target : SocketAddr} {sent : Bytes} {datagram : SocketAddr × Bytes}

/-- A datagram is compared by its id, and by its first question if the query that was sent has one. -/
theorem acceptable_inv (h : acceptable lib target sent datagram=true) :
    datagram.2.take 2=sent.take 2 ∧ ∃ m,lib.fromBytes datagram.2=some m ∧
      ∀ s asked,lib.fromBytes sent=some s → s.queries.head?=some asked → ∃ got,m.queries.head?=some got ∧
        got.queryType=asked.queryType ∧ got.queryClass=asked.queryClass ∧
          lib.spelling datagram.2=lib.spelling sent := by
  obtain ⟨hb,hq⟩ := Bool.and_eq_true_iff.mp h
  obtain ⟨-,hid⟩ := Bool.and_eq_true_iff.mp hb
  refine ⟨of_decide_eq_true hid,?_⟩
  split at hq
  · cases hq
  · rename_i m hm
    refine ⟨m,hm,fun s asked hs ha => ?_⟩
    have hf : (lib.fromBytes sent).bind (·.queries.head?)=some asked := by rw [hs,Option.bind_some,ha]
    rw [hf] at hq
    obtain ⟨got,hg,hsa⟩ := (Option.any_eq_true _ _).mp hq
    simp only [Bool.and_eq_true,decide_eq_true_eq] at hsa
    exact ⟨got,hg,hsa.1.1,hsa.1.2,hsa.2⟩

/-- Over UDP only the further questions are open. -/
theorem binds_of_acceptable (hw : WireLaws lib)
    (h : acceptable lib target sent datagram=true) (hse : sent.take 12=queryData.take 12)
    (hr : AsksSame lib queryData datagram.2 ∨ AsksSameFurther lib queryData sent datagram.2) :
    Binds lib queryData datagram.2 := by
  obtain ⟨hid,m,hm,hf⟩ := acceptable_inv h
  have hid : datagram.2.take 2=queryData.take 2 := by
    have ht := congrArg (take 2) hse
    rw [take_take,take_take] at ht
    exact hid.trans ht
  refine AsksSame.binds hw ?_ hid
  rcases hr with hsa | ⟨s,q,m',question,hs,hq,hm',ha,hqu,hta⟩
  · exact hsa
  · obtain rfl : m=m' := Option.some.inj (hm.symm.trans hm')
    obtain ⟨got,hg,hty,hc,hsp⟩ := hf s question hs ha
    have hn := hw.name hm hs hsp hg ha
    have hgot_eq : got=question := by
      cases got
      cases question
      cases hn
      cases hty
      cases hc
      rfl
    refine ⟨q,m,hq,hm,?_⟩
    rw [eq_cons_of_mem_head? hg,eq_cons_of_mem_head? hqu,hgot_eq,hta]

theorem take_doqMessage {stream : Bytes} (hl : 2 ≤ queryData.length) (h : doqMessage queryData stream=some reply) :
    reply.take 2=queryData.take 2 := by
  unfold doqMessage at h
  dsimp only at h
  split_ifs at h
  cases h
  exact take_left' (by rw [length_take]; omega)

end

/-- A query is sent to a forwarder over UDP with the header it has. -/
def headers : Contract ServerOp ServerRes where
  demands
    | .exchangeUdp (.forwarder _) asked sent => sent.take 12=asked.take 12
    | _ => True
  promises := MixesCase

/-- Only what was asked is kept, as long as the replies are bound. -/
def keeping (cfg : ServerConfig) (ask : Asked) : Contract ServerOp ServerRes where
  demands
    | .held (.cacheInsert name kind _ _) | .held (.cacheInsertNegative name kind _ _) =>
      KeyOf cfg.lib ask.queryData name kind ∨ KeyOf cfg.lib (dns64Query cfg ask) name kind
    | _ => True
  promises o r := ∀ q f reply,accepted cfg ⟨o,r⟩=some (.reply q (.forwarder f) reply) → Binds cfg.lib q reply

variable {ctx : Option EdnsContext} {ask : Asked} {response : Bytes}

theorem upstreamResolve_headers (hl : cfg.lib.Lawful) {queryData : Bytes} :
    (upstreamResolve cfg queryData ctx).Sat headers fun _ => True := by
  let B : Bounds := ⟨fun sent => sent.take 12=queryData.take 12,fun _ => True,fun _ _ => True⟩
  have hf : B.Fit cfg queryData := ⟨rfl,fun _ _ _ => trivial,fun _ _ => trivial⟩
  refine (upstreamResolve_resolving hl fun _ => hf).weaken (fun o ho => ?_) fun o r hr => ?_
  · cases o with
    | exchangeUdp upstream asked sent =>
      cases upstream with
      | peer addr => trivial
      | forwarder f =>
        obtain ⟨rfl,hs⟩ := ho
        exact hs
    | _ => trivial
  · refine ⟨fun sent heq => ?_,fun _ _ _ => trivial⟩
    cases heq
    obtain ⟨coins,hm⟩ := hr
    exact take_randomizeQnameCase hm.symm

theorem upstreamResolve_keeping (hl : cfg.lib.Lawful) {queryData : Bytes}
    (hqr : ∀ name kind,KeyOf cfg.lib queryData name kind →
      KeyOf cfg.lib ask.queryData name kind ∨ KeyOf cfg.lib (dns64Query cfg ask) name kind) :
    (upstreamResolve cfg queryData ctx).Sat (keeping cfg ask) fun _ => True := by
  let B : Bounds := ⟨fun _ => True,Binds cfg.lib queryData,KeyOf cfg.lib queryData⟩
  have hf : B.Fit cfg queryData := by
    refine ⟨trivial,fun {bytes p question} hg hp hqu => ?_,fun {p question} hp hqu =>
      ⟨p,question,hp,hqu,rfl,rfl⟩⟩
    obtain ⟨q,m,hq,hm,-,hqe⟩ := hg
    obtain rfl : m=p := Option.some.inj (hm.symm.trans hp)
    exact ⟨q,question,hq,hqe ▸ hqu,rfl,rfl⟩
  refine (upstreamResolve_resolving hl fun _ => hf).weaken (fun o ho => ?_) fun o r hr => ?_
  · cases o with
    | held o =>
      cases o with
      | cacheInsert name kind records ttl | cacheInsertNegative name kind negative ttl => exact hqr name kind ho
      | _ => trivial
    | _ => trivial
  · exact ⟨fun _ _ => trivial,fun f bytes hb => hr queryData f bytes hb⟩

theorem answerAsked_headers (hl : cfg.lib.Lawful)
    (h : Yields (answerAsked cfg ask) log response) (hm : ∀ e∈log,MixesCase e.1 e.2) :
    ∀ e∈log,headers.demands e.1 := by
  refine answerAsked_demands h (fun _ _ => trivial) (fun peers o ho => ?_) (fun _ => ?_) hm
  · cases o with
    | exchangeUdp upstream asked sent =>
      cases upstream with
      | peer addr => trivial
      | forwarder f => exact ho.elim
    | _ => trivial
  · exact answerUpstream_sat (upstreamResolve_headers hl) (upstreamResolve_headers hl) trivial

theorem answerAsked_keeping (hl : cfg.lib.Lawful)
    (h : Yields (answerAsked cfg ask) log response) (hb : ∀ e∈log,(keeping cfg ask).promises e.1 e.2) :
    ∀ e∈log,(keeping cfg ask).demands e.1 := by
  refine answerAsked_demands h (fun o ho => ?_) (fun peers o ho => ?_) (fun _ => ?_) hb
  · cases o with
    | cacheInsert | cacheInsertNegative => exact ho.elim
    | _ => trivial
  · cases o with
    | held o =>
      cases o with
      | cacheInsert | cacheInsertNegative => exact ho.elim
      | _ => trivial
    | _ => trivial
  · exact answerUpstream_sat (upstreamResolve_keeping hl fun _ _ => .inl) (upstreamResolve_keeping hl fun _ _ => .inr)
      trivial

/-- An accepted reply is bound exactly if it meets what its transport did not look at. -/
theorem binds_iff_meetsRest (hw : WireLaws cfg.lib) {e : (o : ServerOp) × ServerRes o} (hs : headers.demands e.1)
    {queryData reply : Bytes} {f : Forwarder} (h : accepted cfg e=some (.reply queryData (.forwarder f) reply)) :
    Binds cfg.lib queryData reply ↔ MeetsRest cfg.lib queryData reply e.1 := by
  refine ⟨fun hb => hb.meetsRest e.1,fun hm => ?_⟩
  obtain ⟨hi,-⟩ := Option.filter_eq_some_iff.mp h
  obtain ⟨o,r⟩ := e
  cases o with
  | exchangeUdp upstream asked sent =>
    obtain ⟨reply',hp,heq⟩ := Option.map_eq_some_iff.mp hi
    cases heq
    obtain ⟨datagram,hf,rfl⟩ := Option.map_eq_some_iff.mp hp
    exact binds_of_acceptable hw (find?_some hf) hs hm
  | exchangeSecure f' asked =>
    obtain ⟨reply',hr,heq⟩ := Option.map_eq_some_iff.mp hi
    cases heq
    dsimp only [MeetsRest] at hm
    split_ifs at hm with hd
    · rw [secureReply,if_pos hd] at hr
      obtain ⟨stream,-,hme⟩ := Option.bind_eq_some_iff.mp hr
      have hl : 12 ≤ queryData.length := by
        obtain ⟨q,m,hq,-,-⟩ := hm
        exact hw.header hq
      exact AsksSame.binds hw hm (take_doqMessage (by omega) hme)
    · exact hm
  | _ => exact hm

/-- The replies that were accepted answer what was asked, nothing else is kept, and a reply that is
passed on reaches the client with the id and the questions of its query. -/
structure Bound (cfg : ServerConfig) (ask : Asked) (proto : Proto) (log : ServerLog) (bytes : Bytes) : Prop where
  accepted : ∀ e∈log,∀ q f reply,accepted cfg e=some (.reply q (.forwarder f) reply) → Binds cfg.lib q reply
  kept : ∀ e∈log,∀ name kind,((∃ records ttl,e.1=.held (.cacheInsert name kind records ttl)) ∨
      ∃ negative ttl,e.1=.held (.cacheInsertNegative name kind negative ttl)) →
    KeyOf cfg.lib ask.queryData name kind ∨ KeyOf cfg.lib (dns64Query cfg ask) name kind
  passed : ∀ e∈log,∀ f reply,UpstreamTraces.accepted cfg e=some (.reply ask.queryData (.forwarder f) reply) →
    bytes=sendable cfg proto ask.queryData reply → Binds cfg.lib ask.queryData bytes

/-- What is done to a response before it is sent leaves it bound. -/
theorem Binds.sendable (hw : WireLaws cfg.lib) {queryData reply : Bytes} (h : Binds cfg.lib queryData reply)
    (proto : Proto) : Binds cfg.lib queryData (sendable cfg proto queryData reply) := by
  refine sendable_induction h (fun hr hbi => ?_) proto queryData
  cases hr with
  | same => exact hbi
  | @written p hp =>
    cases hby : cfg.lib.toBytes _ with
    | none => exact hbi
    | some bytes =>
      obtain ⟨q,m,hq,hm,hid,hqu⟩ := hbi
      obtain rfl : m=p := Option.some.inj (hm.symm.trans hp)
      obtain ⟨back,hbc,hba,hb⟩ := hw.reads hby
      exact ⟨q,back,hq,hbc,hba.trans hid,hb.trans hqu⟩

/-- A query's replies are bound exactly if they meet what their transports did not look at. -/
theorem upstream_bound_iff (hlib : cfg.lib.Lawful) (hwire : WireLaws cfg.lib) {queryData bytes : Bytes}
    {sourceIp localIp : Option IpAddr} {proto : Proto} {ask : Asked}
    (hread : readQuery cfg queryData (sourceIp.map toCanonical) (localIp.map toCanonical)=.ok ask)
    (h : Yields (handleQueryProto cfg queryData sourceIp localIp proto) log bytes)
    (hmix : ∀ e∈log,MixesCase e.1 e.2) :
    Bound cfg ask proto log bytes ↔
      ∀ e∈log,∀ q f reply,accepted cfg e=some (.reply q (.forwarder f) reply) → MeetsRest cfg.lib q reply e.1 := by
  obtain ⟨response,ha⟩ : ∃ response,Yields (answerAsked cfg ask) log response := by
    rcases handleQueryProto_inv h with ⟨-,response,her,-⟩ | ⟨ask',response,hread',ha,-⟩
    · cases hread.symm.trans her
    · cases hread.symm.trans hread'
      exact ⟨response,ha⟩
  have hh := answerAsked_headers hlib ha hmix
  constructor
  · intro hbo e he q f reply hr
    exact (binds_iff_meetsRest hwire (hh e he) hr).mp (hbo.accepted e he q f reply hr)
  · intro hm
    have hb : ∀ e∈log,∀ q f reply,accepted cfg e=some (.reply q (.forwarder f) reply) → Binds cfg.lib q reply :=
      fun e he q f reply hr => (binds_iff_meetsRest hwire (hh e he) hr).mpr (hm e he q f reply hr)
    have hk := answerAsked_keeping hlib ha hb
    refine ⟨hb,fun e he name kind hi => ?_,fun e he f reply hr hby => ?_⟩
    · have hd := hk e he
      rcases hi with ⟨records,ttl,hi⟩ | ⟨negative,ttl,hi⟩
      · rw [hi] at hd
        exact hd
      · rw [hi] at hd
        exact hd
    · rw [hby]
      exact (hb e he _ f reply hr).sendable hwire proto

theorem tableLibrary_wire {table : List (Packet × Bytes)}
    (hr : ∀ e∈table,∀ e'∈table,e.2=e'.2 → e.1=e'.1) (hl : ∀ e∈table,12 ≤ e.2.length)
    (hid : ∀ e∈table,∀ e'∈table,e.2.take 2=e'.2.take 2 → e.1.id=e'.1.id)
    (hna : ∀ e∈table,∀ e'∈table,e.2.drop 12=e'.2.drop 12 →
      e.1.queries.head?.map Query.name=e'.1.queries.head?.map Query.name) : WireLaws (tableLibrary table) := by
  constructor
  case header => exact fun h => hl _ (mem_of_fromBytes h)
  case id => exact fun h h' => hid _ (mem_of_fromBytes h) _ (mem_of_fromBytes h')
  case name =>
    intro a b p p' q q' h h' hs hq hq'
    have hn := hna _ (mem_of_fromBytes h) _ (mem_of_fromBytes h') (Option.some.inj hs)
    rw [hq,hq'] at hn
    exact Option.some.inj hn
  case reads => exact fun h => ⟨_,fromBytes_of_toBytes hr h,rfl,rfl⟩

def askedA : Asked :=
  ⟨queryABytes,queryA,EdnsContext.fromMessage queryA,⟨nameA,.A,.IN⟩,forwardingConfig.lib.nameText nameA,
    some (.v4 0x7f000001),none⟩

/-- The one reply is accepted, to the query as the client has sent it. -/
def answersPlainly (e : (o : ServerOp) × ServerRes o) : Bool :=
  (match accepted forwardingConfig e with
    | some (.reply q _ reply) => q=queryABytes && reply=vouchedABytes
    | _ => true) &&
  match e.1 with
  | .randomizeQnameCase _ => false
  | _ => true

/-- An encrypted forwarder that answers what it was asked. -/
theorem upstream_bound_iff_answered :
    forwardingRun.2=vouchedABytes ∧ Bound forwardingConfig askedA .tcp forwardingRun.1 forwardingRun.2 := by
  have hp : forwardingRun.1.all answersPlainly=true := by decide +kernel
  refine ⟨by decide +kernel,(upstream_bound_iff forwardingConfig_lawful ?_ rfl
    (yields_answeredBy _ forwardedQuery) ?_).mpr ?_⟩
  · exact tableLibrary_wire (by decide) (by decide) (by decide) (by decide)
  · rintro ⟨o,r⟩ he
    cases o with
    | randomizeQnameCase queryData => cases (Bool.and_eq_true_iff.mp (all_eq_true.mp hp _ he)).2
    | _ => trivial
  · intro e he q f reply hre
    have hk := (Bool.and_eq_true_iff.mp (all_eq_true.mp hp e he)).1
    rw [hre] at hk
    obtain ⟨hq,hr⟩ := Bool.and_eq_true_iff.mp hk
    obtain rfl := of_decide_eq_true hq
    obtain rfl := of_decide_eq_true hr
    exact Binds.meetsRest ⟨queryA,vouchedA,rfl,rfl,rfl,rfl⟩ e.1

def strayB : Packet :=
  { Packet.new with
    id := 2, messageType := .response, recursionAvailable := true, queries := [⟨nameB,.A,.IN⟩],
    answers := [⟨nameB,.IN,60,.a 0xc0000201⟩] }

def strayBBytes : Bytes :=
  [0,2,128,128,0,1,0,1,0,0,0,0,1,98,0,0,1,0,1,192,12,0,1,0,1,0,0,0,60,0,4,192,0,2,1]

def strayConfig : ServerConfig :=
  { forwardingConfig with lib := tableLibrary [(queryA,queryABytes),(strayB,strayBBytes)] }

def strayRun : ServerLog × Bytes :=
  answeredBy (repliesBy holdsNothing (some strayBBytes))
    (handleQueryProto strayConfig queryABytes (some (.v4 0x7f000001)) none .tcp)

def keepsB (e : (o : ServerOp) × ServerRes o) : Bool :=
  match e.1 with
  | .held (.cacheInsert name kind _ _) => name=['b','.'] && kind=some .A
  | _ => false

/-- Asked for `a.`, the forwarder answers for `b.`: the client gets it under another id, and the cache
keeps it for whoever asks for `b.`. -/
theorem stray_reply_kept :
    strayConfig.lib.Lawful ∧ WireLaws strayConfig.lib ∧
      Yields (handleQueryProto strayConfig queryABytes (some (.v4 0x7f000001)) none .tcp) strayRun.1 strayRun.2 ∧
      strayRun.2=strayBBytes ∧ ¬ Binds strayConfig.lib queryABytes strayRun.2 ∧
      (∃ e∈strayRun.1,∃ records ttl,e.1=.held (.cacheInsert ['b','.'] (some .A) records ttl)) ∧
      ¬ KeyOf strayConfig.lib queryABytes ['b','.'] (some .A) := by
  have hs : strayRun.2=strayBBytes := by decide +kernel
  refine ⟨tableLibrary_lawful (by decide) (by decide),
    tableLibrary_wire (by decide) (by decide) (by decide) (by decide),yields_answeredBy _ _,hs,?_,?_,?_⟩
  · rintro ⟨q,m,hq,hm,hid,-⟩
    obtain rfl : queryA=q := Option.some.inj hq
    obtain rfl : strayB=m := Option.some.inj hm
    exact absurd hid (by decide)
  · have hk : strayRun.1.any keepsB=true := by decide +kernel
    obtain ⟨⟨o,r⟩,hme,hi⟩ := any_eq_true.mp hk
    refine ⟨_,hme,?_⟩
    unfold keepsB at hi
    split at hi
    · rename_i name kind records ttl heq
      obtain ⟨hn,hki⟩ := Bool.and_eq_true_iff.mp hi
      exact ⟨records,ttl,by rw [heq,of_decide_eq_true hn,of_decide_eq_true hki]⟩
    · cases hi
  · rintro ⟨q,question,hq,hqu,hn,-⟩
    obtain rfl : queryA=q := Option.some.inj hq
    obtain rfl : ⟨nameA,.A,.IN⟩=question := Option.some.inj hqu
    exact absurd hn (by decide)

end RolodexDns.ResponseBinding
