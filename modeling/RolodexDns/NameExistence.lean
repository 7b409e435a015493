import RolodexDns.ExistenceChecks

/-! Existence. A name at or beneath which the client can see a record is owed an answer or NODATA,
never NXDOMAIN. The checks behind the server's own denials are for existence, but not every denial
is decided by the data in which the name exists, and peers and upstream are taken at their word. -/
namespace RolodexDns.NameExistence
open DomainNames DnsRecords ResponseReading ProgramTrees ProgramTraces StoredRecords WireMessages ServerOperations List
open AuthoritativeAnswers LocalAnswers UpstreamResolution QueryHandling LocalTraces RecordDatabase WildcardSynthesis
open AuthenticData ExistenceChecks

variable {cfg : ServerConfig} {db : Database} {ask : Asked} {scope : Text}

section
variable (cfg : ServerConfig) (db : Database) (ask : Asked)

/-- The steps find nothing, with no records in the cache. -/
def FindNothing (steps : List LocalDecision) : Prop :=
  ∀ step∈steps,eval (bare cfg.lower db) step=none

/-- The address that replaces those of the ingress family. -/
def override : Option IpAddr := (eval (bare cfg.lower db) (ingressTarget ask)).map Prod.snd

def scopedLookups (scope : Text) : List LocalDecision :=
  [match ask.recordKind with
    | some kind => scopedOfKind cfg ask scope (override cfg db ask) kind
    | none => pure none,
    scopedCname cfg ask scope,checkDnameScoped cfg.lib scope ask.qname]

def lookupsInTld (owner : Text) : Option Text → List LocalDecision
  | none => [globalRecords cfg ask,lanRecords cfg ask (override cfg db ask) owner]
  | some scope => scopedLookups cfg db ask scope

def lookupsOutside (client : Option Text) : List LocalDecision :=
  client.elim [] (scopedLookups cfg db ask)++[globalRecords cfg ask,checkDnameGlobal cfg.lib ask.qname]

/-- A zone of the client's scope, with records at its apex, answers for the name. -/
def InScopedZone : Option Text → Prop
  | none => False
  | some scope => ∃ zone∈(db.read cfg.lower (.getScopedManagedZones scope)).getD [],
      nameInZone cfg.lower ask.qname zone=true ∧ db.read cfg.lower (.lookupScoped scope zone none)≠[]

def InOwnZone : Prop :=
  (db.read cfg.lower (.findManagedZone ask.qname)).isSome=true ∨
    (db.read cfg.lower (.findAuthoritativeZone ask.qname)).isSome=true

def MayResolve : Prop := ask.sourceIp.all cfg.mayRecurse=true ∧ isArpaSubtree ask.question.name=false

def tldOwner (name : Text) : Option (Text × Text) := db.read cfg.lower (.findTldOwner name)

/-- The client can see a record at the name or beneath it: one of its own scope, or a global one where
neither a TLD nor a zone of the scope hides those. A local client sees all global records, and the
records of a scope under the TLDs it owns. -/
def Sees : Option Text → Prop
  | none => (rowsView db.rows).Occupied (normalizeName cfg.lower ask.qname) ∨
      ∃ name owner tld kind,tldOwner cfg db name=some (owner,tld) ∧ scopeView db.scopedCache owner name kind≠[] ∧
        (name=normalizeName cfg.lower ask.qname ∨ '.' :: normalizeName cfg.lower ask.qname <:+ name)
  | some scope => (scopeView db.scopedCache scope).Occupied (normalizeName cfg.lower ask.qname) ∨
      (tldOwner cfg db ask.qname=none ∧ ¬ InScopedZone cfg db ask (some scope) ∧
        (rowsView db.rows).Occupied (normalizeName cfg.lower ask.qname))

structure Unblocked : Prop where
  reverse : ∀ authoritative,eval (bare cfg.lower db) (reverseBlocklist cfg.lib ask authoritative)=none
  domain : eval (bare cfg.lower db) (domainBlocklist cfg.lib ask)=none

/-- Somebody else is asked for a name that cannot be resolved here: the roots, or a forwarder if there are any. -/
def AsksUpstream : Prop := wireQuestionIsArpa ask.queryData=false ∧ (cfg.mode=.forward → cfg.forwarders≠[])

/-- Whatever is not found is denied by data in which the name exists, and by nobody else: its TLD is
not another scope's and has no peers, a zone of the server's own knows the name, and the query does
not leave. -/
structure Safe (client : Option Text) : Prop where
  tld : ∀ owner tld,tldOwner cfg db ask.qname=some (owner,tld) →
    FindNothing cfg db (lookupsInTld cfg db ask owner client) →
    (∀ scope,client=some scope → scope=owner) ∧ db.read cfg.lower (.getTldForwarders owner tld)=[] ∧
      (client=none → known cfg.lower db ask.qname (.lanFallback owner)=true)
  zone : tldOwner cfg db ask.qname=none → FindNothing cfg db (lookupsOutside cfg db ask client) →
    ¬ InScopedZone cfg db ask client → InOwnZone cfg db ask → known cfg.lower db ask.qname .global=true
  away : tldOwner cfg db ask.qname=none → FindNothing cfg db (lookupsOutside cfg db ask client) →
    ¬ InScopedZone cfg db ask client → ¬ InOwnZone cfg db ask → MayResolve cfg ask →
      cfg.cacheEnabled=false ∧ ¬ AsksUpstream cfg ask

end

section
variable {client : Option Text} {p : LocalDecision} {expected found : Option LocalStep}
  {steps : List LocalDecision}

/-- What is found is what is expected without records in the cache, or it is records; or the cache's denial is
expected. -/
def Follows (expected found : Option LocalStep) : Prop :=
  found=expected ∨ (∃ reply,found=some (.answer reply) ∧ reply.rcode=.NoError) ∨
    expected=some (.answer (.edns .NXDomain [] false))

/-- With its reads answered by the database, the program follows its run without a cache. -/
def Stable (cfg : ServerConfig) (db : Database) (p : LocalDecision) : Prop :=
  p.Sat (readingOf cfg db) (Follows (eval (cold cfg db) p))

theorem stable_of_fixed {Q : Option LocalStep → Prop} (hp : p.Sat fixed Q) : Stable cfg db p :=
  (sat_reading hp).mono fun _ h => .inl h.1

theorem stable_of_tells (hp : p.Sat (readingOf cfg db) (Tells cfg db p)) : Stable cfg db p := by
  refine Prog.Sat.mono hp fun found h => ?_
  cases found with
  | none => exact .inl (h.2 rfl).symm
  | some s =>
    obtain ⟨reply,rfl,hc⟩ := h.1 s rfl
    exact .inr (.inl ⟨reply,rfl,hc⟩)

theorem firstSome_stable (h : ∀ step∈steps,Stable cfg db step) : Stable cfg db (firstSome steps) := by
  induction steps with
  | nil => exact .inl rfl
  | cons step steps ih =>
    obtain ⟨hst,hr⟩ := forall_mem_cons.mp h
    rw [Stable,firstSome,eval_bind]
    refine Prog.Sat.bind hst fun found hf => ?_
    rcases hf with rfl | ⟨reply,rfl,hc⟩ | he
    · cases eval (cold cfg db) step with
      | some s => exact .inl rfl
      | none => exact ih hr
    · exact .inr (.inl ⟨reply,rfl,hc⟩)
    · rw [he]
      exact (reading_any _).mono fun _ _ => .inr (.inr rfl)

theorem reverseBlocklist_fixed (authoritative : Bool) :
    (reverseBlocklist cfg.lib ask authoritative).Sat fixed Settles :=
  fixed_of_uses (reverseBlocklist_sat cfg.lib authoritative)

theorem domainBlocklist_fixed : (domainBlocklist cfg.lib ask).Sat fixed fun _ => True := by
  unfold domainBlocklist
  split
  · trivial
  · refine (fixed_of_uses (blocklistExempt_sat cfg.lib ask.qname none)).bind fun exempt _ => ?_
    split
    · trivial
    · refine (fixed_of_uses (localListsName_sat ask.qname)).bind fun byLocal _ => ?_
      split
      · trivial
      · refine fixed_step id fun listed => ?_
        change Prog.Sat _ (if listed=true then _ else _) _
        split <;> trivial

theorem scopedTld_fixed : (scopedTld ask scope).Sat fixed fun _ => True := by
  refine fixed_step id fun found => ?_
  split
  · trivial
  · split
    · exact fixed_step id fun _ => trivial
    · trivial

theorem lanRecords_fixed (overrideIp : Option IpAddr) (owner : Text) :
    (lanRecords cfg ask overrideIp owner).Sat fixed Positive :=
  fixed_of_uses (lanRecords_sat cfg overrideIp trivial)

theorem lanFallback_fixed (overrideIp : Option IpAddr) : (lanFallback cfg ask overrideIp).Sat fixed fun _ => True := by
  refine fixed_step id fun found => ?_
  split
  · trivial
  · refine (lanRecords_fixed _ _).bind fun found _ => ?_
    split
    · trivial
    · exact fixed_step id fun _ => trivial

theorem cachedAnswer_stable : Stable cfg db (cachedAnswer cfg ask) := by
  unfold cachedAnswer
  split
  · exact .inl rfl
  · exact (reading_any _).mono fun _ _ => .inr (.inr rfl)

theorem scopedLookups_tell : ∀ step∈scopedLookups cfg db ask scope,step.Sat (readingOf cfg db) (Tells cfg db step) := by
  simp only [scopedLookups,forall_mem_cons]
  refine ⟨?_,tells_of_fixed (fixed_of_uses (scopedCname_sat cfg trivial)),
    tells_of_fixed (fixed_of_uses (checkDnameScoped_sat cfg.lib trivial ask.qname)),forall_mem_nil _⟩
  cases ask.recordKind with
  | some kind => exact scopedOfKind_tells scope _ kind
  | none => exact ⟨positive_none,fun _ => rfl⟩

theorem scopedAnswer_stable : Stable cfg db (scopedAnswer cfg ask scope (override cfg db ask)) := by
  refine firstSome_stable (forall_mem_cons.mpr ⟨stable_of_fixed (reverseBlocklist_fixed true),
    forall_mem_append.mpr ⟨fun step (hs : step∈scopedLookups cfg db ask scope) => ?_,?_⟩⟩)
  · exact stable_of_tells (scopedLookups_tell step hs)
  · simp only [forall_mem_cons]
    exact ⟨stable_of_fixed scopedTld_fixed,stable_of_fixed (fixed_of_uses (scopedZones_sat cfg trivial)),
      forall_mem_nil _⟩

theorem localAnswer_stable : Stable cfg db (localAnswer cfg ask) := by
  rw [Stable,localAnswer,eval_bind]
  refine (sat_reading (fixed_of_uses ingressTarget_sat)).bind fun ingress hi => ?_
  have ho : ingress.map Prod.snd=override cfg db ask := by rw [hi.1,override]
  rw [← hi.1,ho,eval_bind]
  refine (sat_reading (fixed_of_uses (scopeOf_sat cfg))).bind fun client hc => ?_
  rw [← hc.1]
  have hg : Stable cfg db (globalRecords cfg ask) := stable_of_tells globalRecords_tells
  have hr : ∀ step∈localAnswer.rest cfg ask,Stable cfg db step := by
    simp only [localAnswer.rest,forall_mem_cons]
    refine ⟨stable_of_fixed (fixed_of_uses (checkDnameGlobal_sat cfg.lib ask.qname)),
      stable_of_fixed (fixed_of_uses (managedZone_sat cfg)),
        stable_of_fixed (fixed_of_uses (authoritativeZone_sat cfg)),?_,
      stable_of_fixed domainBlocklist_fixed,cachedAnswer_stable,forall_mem_nil _⟩
    unfold recursionGate
    split_ifs <;> exact .inl rfl
  match client with
  | .error reply => exact .inl rfl
  | .ok none =>
    refine firstSome_stable (forall_mem_append.mpr ⟨?_,hr⟩)
    simp only [forall_mem_cons]
    exact ⟨stable_of_fixed (reverseBlocklist_fixed false),hg,stable_of_fixed (lanFallback_fixed _),forall_mem_nil _⟩
  | .ok (some scope) =>
    exact firstSome_stable (forall_mem_append.mpr
      ⟨forall_mem_cons.mpr ⟨scopedAnswer_stable,forall_mem_singleton.mpr hg⟩,hr⟩)

/-- The decision does not deny the name, and nobody is left who could. -/
def Spares (cfg : ServerConfig) (db : Database) (ask : Asked) : Option LocalStep → Prop
  | some (.answer reply) => ¬ Denies cfg.lib (reply.bytes cfg.lib ask)
  | some (.askPeers peers ns) => peers=[] ∧ known cfg.lower db ask.qname ns=true
  | none => ¬ AsksUpstream cfg ask

theorem spares_answer (hlib : CodeLaws cfg.lib) {reply : Reply} (h : reply.rcode ≠ .NXDomain) :
    Spares cfg db ask (some (.answer reply)) := fun hd => h (rcode_of_denies hlib hd)

theorem Follows.spares (hlib : CodeLaws cfg.lib) (h : Follows expected found) (hs : Spares cfg db ask expected) :
    Spares cfg db ask found := by
  rcases h with rfl | ⟨reply,rfl,hc⟩ | rfl
  · exact hs
  · exact spares_answer hlib (by rw [hc]; decide)
  · exact absurd (denies_bytes hlib ask [] false) hs

variable {response : Bytes} {log : ServerLog}

theorem dns64_answers : (dns64 cfg ask response).Sat ⟨fun _ => True,fun _ _ => True⟩
    fun r => ∀ reply,r=some reply → reply.rcode=.NoError := by
  have hq {β : Type} (p : ServerProg β) : p.Only fun _ => True := sat_of_forall (fun _ => trivial) p
  unfold dns64
  split_ifs
  · split
    · exact nofun
    · split_ifs
      · exact nofun
      · refine (hq _).bind fun aResponse _ => ?_
        split
        · exact nofun
        · rintro reply hr
          split_ifs at hr
          cases hr
          rfl
  · exact nofun

/-- Where nobody is asked, upstream resolution ends in an error of the server's own, or in records. -/
theorem answerUpstream_spared (hlib : CodeLaws cfg.lib) (ha : ¬ AsksUpstream cfg ask)
    (h : Yields (answerUpstream cfg ask) log response) : ¬ Denies cfg.lib response := by
  obtain ⟨first,own,others,ho,hot,rfl⟩ := h.bind_inv
  have he : ¬ Denies cfg.lib first := by
    unfold upstreamResolve at ho
    split_ifs at ho with har
    · obtain ⟨-,rfl⟩ := ho.pure_inv
      exact not_denies_error hlib _ (by decide)
    · have hf : cfg.mode=.forward ∧ cfg.forwarders=[] := by
        by_contra hno
        exact ha ⟨Bool.eq_false_iff.mpr har,fun hm hn => hno ⟨hm,hn⟩⟩
      rw [hf.1,hf.2] at ho
      obtain ⟨-,rfl⟩ := Yields.pure_inv ho
      exact not_denies_error hlib _ (by decide)
  have hr {reply : Reply} (hc : reply.rcode=.NoError) : ¬ Denies cfg.lib (reply.bytes cfg.lib ask) := by
    intro hd
    rw [rcode_of_denies hlib hd] at hc
    exact absurd hc (by decide)
  obtain ⟨reply,second,rest,hs,hre,rfl⟩ := hot.bind_inv
  cases reply with
  | some reply =>
    obtain ⟨-,rfl⟩ := hre.pure_inv
    exact hr ((hs.sat dns64_answers fun _ _ => trivial).2 reply rfl)
  | none =>
    split_ifs at hre
    · obtain ⟨cached,last,hl,-⟩ := hre.perform_bind_inv
      split_ifs at hl
      · obtain ⟨-,rfl⟩ := hl.pure_inv
        exact he
      · obtain ⟨-,rfl⟩ := hl.pure_inv
        exact hr rfl
    · obtain ⟨-,rfl⟩ := hre.pure_inv
      exact he

theorem answerAsked_spared (hlib : CodeLaws cfg.lib)
    (hsp : Spares cfg db ask (eval (cold cfg db) (localAnswer cfg ask)))
    (h : Yields (answerAsked cfg ask) log response) (hr : ∀ e∈log,Reads cfg db e) : ¬ Denies cfg.lib response := by
  obtain ⟨own,step,rest,rfl,ho,hre⟩ := answerAsked_inv h
  obtain ⟨hh,hr⟩ := forall_mem_append.mp hr
  obtain ⟨-,hf⟩ := ho.sat localAnswer_stable fun e he => hh ⟨.held e.1,e.2⟩ (mem_heldLog.mpr he)
  have hs := hf.spares hlib hsp
  match step with
  | none => exact answerUpstream_spared hlib hs hre
  | some (.answer reply) =>
    obtain ⟨-,rfl⟩ := hre
    exact hs
  | some (.askPeers peers ns) =>
    obtain ⟨rfl,hk⟩ := hs
    -- Without peers there is only the server's own denial.
    obtain ⟨reply,first,after,hf,ha,rfl⟩ := Yields.bind_inv
      (p := ServerProg.held (authoritativeNegative cfg.lib ask ns)) hre
    obtain ⟨-,rfl⟩ := ha.pure_inv
    obtain ⟨own',rfl,ho'⟩ := held_inv hf
    obtain ⟨-,authority,rfl⟩ := ho'.sat (authoritativeNegative_known cfg.lib ask ns)
      fun e he => hr ⟨.held e.1,e.2⟩ (mem_append_left _ (mem_heldLog.mpr he))
    intro hd
    have hc := rcode_of_denies hlib hd
    rw [hk,if_pos rfl] at hc
    change ResponseCode.NoError=.NXDomain at hc
    exact absurd hc (by decide)

end

section
variable {client : Option Text} {α : Type} {reply : Bytes}

theorem eval_of_reading {toLowercase : Text → Text} {p : LocalProg α} {Q : α → Prop}
    (h : p.Sat (reading toLowercase db) Q) : Q (eval (bare toLowercase db) p) :=
  eval_of_sat (h.weaken (fun _ h => h) fun _ _ hr _ => hr)

theorem eval_authoritativeNegative (cfg : ServerConfig) (db : Database) (ask : Asked) (ns : Namespace) :
    ∃ authority,eval (cold cfg db) (authoritativeNegative cfg.lib ask ns) =
      ⟨if known cfg.lower db ask.qname ns then .NoError else .NXDomain,[],authority,true,true⟩ :=
  eval_of_reading (authoritativeNegative_known cfg.lib ask ns)

def framed (message : Bytes) : Bytes := UInt8.ofNat (message.length/256)::UInt8.ofNat (message.length%256)::message

/-- Peers and forwarders that all give this reply to the query and none to another, a resolver that finds no
name, and a cache of denials. -/
def denying (cfg : ServerConfig) (db : Database) (ask : Asked) (reply : Bytes) : (o : ServerOp) → ServerRes o
  | .held o => bare cfg.lower db o
  | .exchangeUdp upstream queryData _ => if queryData=ask.queryData then some [(upstream.addr,reply)] else none
  | .exchangeProxied _ queryData | .exchangeTcp _ queryData => if queryData=ask.queryData then some reply else none
  | .exchangeSecure f queryData =>
    if queryData=ask.queryData then some (if f.transport=.doq then framed reply else reply) else none
  | .resolve .. => .ok (.answer .NXDomain [])
  | .resolveWithin .. => some (.ok (.answer .NXDomain []))
  | o => repliesBy (bare cfg.lower db) none o

/-- A denial that anybody asked can send in reply to the query. -/
structure PeerDenial (cfg : ServerConfig) (ask : Asked) (reply : Bytes) : Prop where
  denies : Denies cfg.lib reply
  answerless : Answerless cfg.lib reply
  fits : ∀ target,acceptable cfg.lib target ask.queryData (target,reply)=true
  long : 12 ≤ ask.queryData.length
  short : ask.queryData.length ≤ 65535
  replyShort : reply.length ≤ 65535

theorem eval_held (p : LocalProg α) :
    eval (denying cfg db ask reply) (ServerProg.held p)=eval (cold cfg db) p := eval_lift _ p

section
variable (h : PeerDenial cfg ask reply)
include h

theorem PeerDenial.header (target : SocketAddr) : 2 ≤ reply.length ∧ reply.take 2=ask.queryData.take 2 := by
  have hf := h.fits target
  simp only [acceptable,Bool.and_eq_true,decide_eq_true_eq] at hf
  exact ⟨hf.1.1.2,hf.1.2⟩

theorem eval_forwardOne (upstream : Upstream) :
    eval (denying cfg db ask reply) (forwardOne cfg upstream ask.queryData)=some reply := by
  have hs : eval (denying cfg db ask reply) (spellQuery cfg ask.queryData)=ask.queryData := by
    unfold spellQuery
    split
    · exact randomizeQnameCase_heads ask.queryData
    · rfl
  unfold forwardOne
  split
  · exact if_pos rfl
  · rw [forwardUdp,eval_bind,hs,if_neg (Nat.not_lt.mpr h.long),eval_bind]
    change pickDatagram cfg.lib upstream.addr ask.queryData (if ask.queryData=ask.queryData then _ else none)=some reply
    simp [pickDatagram,h.fits upstream.addr]

theorem secureReply_framed (f : Forwarder) :
    secureReply f ask.queryData (some (if f.transport=.doq then framed reply else reply))=some reply := by
  obtain ⟨hl,ht⟩ := h.header f.addr
  have hs := h.replyShort
  unfold secureReply
  split_ifs
  · have hd : (UInt8.ofNat (reply.length/256)).toNat*256+(UInt8.ofNat (reply.length%256)).toNat=reply.length := by
      rw [UInt8.toNat_ofNat',UInt8.toNat_ofNat']
      omega
    have hf : ¬ (framed reply).length<4 := by
      simp only [framed,length_cons]
      omega
    have hm : doqMessage ask.queryData (framed reply)=some (ask.queryData.take 2++reply.drop 2) := by
      unfold doqMessage
      rw [if_neg hf]
      simp only [framed,getD_cons_zero,getD_cons_succ,hd,drop_succ_cons,drop_zero,lt_irrefl,if_false,take_length]
      rw [if_neg (by omega)]
    rw [Option.bind_some,hm,← ht,take_append_drop]
  · have hne : reply≠[] := by
      rintro rfl
      simp at hl
    simp [framedReply,Option.filter_some,hne]

theorem eval_queryForwarder (f : Forwarder) :
    eval (denying cfg db ask reply) (queryForwarder cfg f ask.queryData)=some reply := by
  have hsh := h.short
  have hl := h.long
  have hs : eval (denying cfg db ask reply) (querySecure f ask.queryData)=some reply := by
    unfold querySecure
    rw [if_neg (by simp only [Bool.and_eq_true,decide_eq_true_eq]; omega),
      if_neg (by simp only [Bool.and_eq_true,decide_eq_true_eq]; omega),eval_bind]
    change secureReply f ask.queryData (if ask.queryData=ask.queryData then _ else none)=some reply
    rw [if_pos rfl]
    exact secureReply_framed h f
  unfold queryForwarder
  split
  · exact eval_forwardOne h (.forwarder f)
  · have hne : reply≠[] := by
      rintro rfl
      exact absurd (h.header f.addr).1 (by simp)
    unfold forwardTcp
    rw [if_neg (Nat.not_lt.mpr hsh),eval_bind]
    change framedReply (if ask.queryData=ask.queryData then some reply else none)=some reply
    simp [framedReply,Option.filter_some,hne]
  all_goals exact hs

theorem eval_forwardToTldPeers (target : SocketAddr) (targets : List SocketAddr) :
    eval (denying cfg db ask reply) (forwardToTldPeers cfg ask.queryData (target::targets))=some reply := by
  have hd : responseIsDefinitive cfg.lib reply=true := by
    obtain ⟨msg,hm,hc⟩ := h.denies
    simp [responseIsDefinitive,hm,isDefinitive,hc]
  rw [forwardToTldPeers,eval_bind,eval_forwardOne h]
  dsimp only
  rw [if_pos hd]
  rfl

theorem eval_forwardQuery {forwarders : List Forwarder} (hne : forwarders≠[]) :
    eval (denying cfg db ask reply) (forwardQuery cfg ask.queryData forwarders)=reply := by
  cases forwarders with
  | nil => exact absurd rfl hne
  | cons f fs =>
    rw [forwardQuery,eval_bind,eval_queryForwarder h,eval_bind,eval_bind]
    rfl

end

section

theorem eval_queryForwarder_other {queryData : Bytes} (h : queryData≠ask.queryData) (f : Forwarder) :
    eval (denying cfg db ask reply) (queryForwarder cfg f queryData)=none := by
  have hs : eval (denying cfg db ask reply) (querySecure f queryData)=none := by
    unfold querySecure
    split_ifs
    · rfl
    · rfl
    · rw [eval_bind]
      change secureReply f queryData (if queryData=ask.queryData then _ else none)=none
      rw [if_neg h,secureReply]
      split_ifs <;> rfl
  unfold queryForwarder
  split
  · unfold forwardOne
    split
    · exact if_neg h
    · rw [forwardUdp,eval_bind]
      split_ifs
      · rfl
      · rw [eval_bind]
        change pickDatagram _ _ _ (if queryData=ask.queryData then _ else none)=none
        rw [if_neg h]
        rfl
  · unfold forwardTcp
    split_ifs
    · rfl
    · rw [eval_bind]
      change framedReply (if queryData=ask.queryData then some reply else none)=none
      rw [if_neg h]
      rfl
  all_goals exact hs

theorem eval_forwardQuery_other {queryData : Bytes} (h : queryData≠ask.queryData) (forwarders : List Forwarder) :
    eval (denying cfg db ask reply) (forwardQuery cfg queryData forwarders) =
      makeErrorResponse cfg.lib queryData .ServFail := by
  induction forwarders with
  | nil => rfl
  | cons f fs ih =>
    rw [forwardQuery,eval_bind,eval_queryForwarder_other h,eval_bind]
    exact ih

/-- What the resolver's denial is made into, for a query that asks something. -/
def resolvedDenial (cfg : ServerConfig) (queryData : Bytes) (ctx : Option EdnsContext) : Bytes :=
  match cfg.lib.fromBytes queryData with
  | none => makeErrorResponse cfg.lib queryData .FormErr
  | some message =>
    match message.queries with
    | [] => makeErrorResponse cfg.lib queryData .FormErr
    | _::_ => buildResponseEdns cfg.lib message .NXDomain [] false ctx

theorem resolvedResponse_denial {message : Packet} {ctx : Option EdnsContext} :
    resolvedResponse cfg message ctx (.answer .NXDomain []) =
      buildResponseEdns cfg.lib message .NXDomain [] false ctx := by
  simp [resolvedResponse,Resolution.answer,ValidationVerdicts.Verdict.withholdsAnswer,buildResponseValidated]

theorem eval_iterativeQuery (queryData : Bytes) (ctx : Option EdnsContext) :
    eval (denying cfg db ask reply) (iterativeQuery cfg queryData ctx)=resolvedDenial cfg queryData ctx := by
  unfold iterativeQuery resolvedDenial
  cases cfg.lib.fromBytes queryData with
  | none => rfl
  | some message =>
    cases hq : message.queries with
    | nil => simp [hq]
    | cons question queries =>
      simp only [hq,head?_cons]
      rw [eval_bind]
      change eval _ (if (Resolution.answer .NXDomain []).verdict.withholdsAnswer then _ else _)=_
      rw [if_neg (by decide),eval_bind]
      exact resolvedResponse_denial

theorem eval_autoResolve (queryData : Bytes) (ctx : Option EdnsContext) :
    eval (denying cfg db ask reply) (autoResolve cfg queryData ctx)=resolvedDenial cfg queryData ctx := by
  unfold autoResolve resolvedDenial
  cases cfg.lib.fromBytes queryData with
  | none => rfl
  | some message =>
    cases hq : message.queries with
    | nil => simp [hq]
    | cons question queries =>
      have ht : eval (denying cfg db ask reply) (tryTier cfg 0 queryData message ctx) =
          some (buildResponseEdns cfg.lib message .NXDomain [] false ctx) := by
        rw [← resolvedResponse_denial]
        simp only [tryTier,tierRoots,hq,head?_cons]
        rw [eval_bind]
        rfl
      simp only [hq,isEmpty_cons,Bool.false_eq_true,if_false]
      rw [eval_bind]
      change eval _ (tryTiers cfg queryData message ctx [0,1,2,3])=_
      rw [tryTiers,eval_bind,ht,eval_bind,eval_bind]
      rfl

variable (hlib : CodeLaws cfg.lib)
include hlib

theorem answerless_upstreamResolve (h : PeerDenial cfg ask reply) (queryData : Bytes) (ctx : Option EdnsContext) :
    Answerless cfg.lib (eval (denying cfg db ask reply) (upstreamResolve cfg queryData ctx)) := by
  have hr : Answerless cfg.lib (resolvedDenial cfg queryData ctx) := by
    unfold resolvedDenial
    split
    · exact answerless_error hlib _ _
    · split
      · exact answerless_error hlib _ _
      · exact answerless_toBytes hlib rfl
  unfold upstreamResolve
  split_ifs
  · exact answerless_error hlib _ _
  · cases cfg.mode with
    | forward =>
      by_cases hd : queryData=ask.queryData
      · subst hd
        by_cases hn : cfg.forwarders=[]
        · rw [hn]
          exact answerless_error hlib _ _
        · dsimp only
          rw [eval_forwardQuery h hn]
          exact h.answerless
      · dsimp only
        rw [eval_forwardQuery_other hd]
        exact answerless_error hlib _ _
    | recursive =>
      dsimp only
      rw [eval_iterativeQuery]
      exact hr
    | auto =>
      dsimp only
      rw [eval_autoResolve]
      exact hr

theorem denies_upstreamResolve (h : PeerDenial cfg ask reply) (hre : WellRead cfg.lib ask) (ha : AsksUpstream cfg ask) :
    Denies cfg.lib (eval (denying cfg db ask reply) (upstreamResolve cfg ask.queryData ask.ctx)) := by
  have hr : Denies cfg.lib (resolvedDenial cfg ask.queryData ask.ctx) := by
    obtain ⟨queries,hq⟩ := head?_eq_some_iff.mp hre.2
    simp only [resolvedDenial,hre.1,hq]
    exact denies_negative hlib rfl rfl
  unfold upstreamResolve
  rw [if_neg (Bool.eq_false_iff.mp ha.1)]
  cases hm : cfg.mode with
  | forward =>
    dsimp only
    rw [eval_forwardQuery h (ha.2 hm)]
    exact h.denies
  | recursive =>
    dsimp only
    rw [eval_iterativeQuery]
    exact hr
  | auto =>
    dsimp only
    rw [eval_autoResolve]
    exact hr

theorem eval_dns64 (h : PeerDenial cfg ask reply) (response : Bytes) :
    eval (denying cfg db ask reply) (dns64 cfg ask response)=none := by
  unfold dns64
  split_ifs
  · split
    · rfl
    · split_ifs
      · rfl
      · rw [eval_bind]
        split
        · rfl
        · rename_i aMsg hm
          rw [answerless_upstreamResolve hlib h _ _ aMsg hm]
          rfl
  · rfl

/-- Upstream may deny the name whenever somebody is asked. -/
theorem denies_answerUpstream (h : PeerDenial cfg ask reply) (hr : WellRead cfg.lib ask) (ha : AsksUpstream cfg ask)
    (hc : cfg.cacheEnabled=false) : Denies cfg.lib (eval (denying cfg db ask reply) (answerUpstream cfg ask)) := by
  rw [answerUpstream,eval_bind,eval_bind,eval_dns64 hlib h]
  simp only [hc,Bool.and_false,Bool.false_eq_true,if_false]
  exact denies_upstreamResolve hlib h hr ha

end

theorem reads_denying {p : ServerProg α} {e : (o : ServerOp) × ServerRes o}
    (he : e∈(answeredBy (denying cfg db ask reply) p).1) : Reads cfg db e := by
  have heq := mem_answeredBy he
  obtain ⟨o,r⟩ := e
  cases o with
  | held o => exact fun _ => heq
  | _ => trivial

/-- The query is never answered with a denial, whatever the peers, upstream and the cache say. -/
def NeverDenied (cfg : ServerConfig) (db : Database) (ask : Asked) : Prop :=
  ∀ log response,Yields (answerAsked cfg ask) log response → (∀ e∈log,Reads cfg db e) → ¬ Denies cfg.lib response

theorem NeverDenied.answered (hnever : NeverDenied cfg db ask) (reply : Bytes) :
    ¬ Denies cfg.lib (eval (denying cfg db ask reply) (answerAsked cfg ask)) := by
  have hr := yields_answeredBy (denying cfg db ask reply) (answerAsked cfg ask)
  rw [← hr.eq_eval fun _ => mem_answeredBy]
  exact hnever _ _ hr fun _ => reads_denying

/-- A cache that is asked has denied the name. -/
theorem cacheEnabled_of_undecided (hc : eval (cold cfg db) (scopeOf cfg ask)=.ok client)
    (h : eval (cold cfg db) (localAnswer cfg ask)=none) : cfg.cacheEnabled=false := by
  rw [eval_localAnswer rfl hc] at h
  have hca := findSome?_eq_none_iff.mp h (cachedAnswer cfg ask) (mem_append_right _ (by simp [localAnswer.rest]))
  refine Bool.eq_false_iff.mpr fun he => ?_
  rw [cachedAnswer,he] at hca
  cases hca

section
variable (hlib : CodeLaws cfg.lib)
include hlib

/-- Data that would deny the name knows it. -/
theorem spares_negative {ns : Namespace} :
    Spares cfg db ask (some (.answer (eval (cold cfg db) (authoritativeNegative cfg.lib ask ns)))) ↔
    known cfg.lower db ask.qname ns=true := by
  obtain ⟨authority,hr⟩ := eval_authoritativeNegative cfg db ask ns
  rw [hr]
  constructor
  · intro hs
    by_contra hu
    rw [if_neg hu] at hs
    exact hs (denies_bytes hlib ask authority true)
  · intro hk
    rw [hk]
    exact spares_answer hlib (show ResponseCode.NoError≠.NXDomain by decide)

theorem neverDenied_iff_spares (hp : PeerDenial cfg ask reply) (hr : WellRead cfg.lib ask)
    (hc : eval (cold cfg db) (scopeOf cfg ask)=.ok client) :
    NeverDenied cfg db ask ↔ Spares cfg db ask (eval (cold cfg db) (localAnswer cfg ask)) := by
  refine ⟨fun hnever => ?_,fun hs _ _ => answerAsked_spared hlib hs⟩
  have he := hnever.answered reply
  rw [answerAsked,eval_bind,eval_held] at he
  match hl : eval (cold cfg db) (localAnswer cfg ask) with
  | none =>
    rw [hl] at he
    exact fun ha => he (denies_answerUpstream hlib hp hr ha (cacheEnabled_of_undecided hc hl))
  | some (.answer own) =>
    rw [hl] at he
    exact he
  | some (.askPeers (target::targets) ns) =>
    rw [hl,eval_bind,eval_forwardToTldPeers hp] at he
    exact absurd hp.denies he
  | some (.askPeers [] ns) =>
    refine ⟨rfl,(spares_negative hlib).mp fun hd => ?_⟩
    rw [hl] at he
    refine he (Eq.mpr ?_ hd)
    change Denies cfg.lib (eval (denying cfg db ask reply) (do
      return (← ServerProg.held (authoritativeNegative cfg.lib ask ns)).bytes cfg.lib ask))=_
    rw [eval_bind,eval_held]
    rfl

/-- Lookups answer with records, so what comes after them counts where they find nothing. -/
theorem spares_append {first rest : List LocalDecision}
    (hp : ∀ step∈first,Positive (eval (cold cfg db) step)) :
    Spares cfg db ask ((first++rest).findSome? (eval (cold cfg db))) ↔
      (FindNothing cfg db first → Spares cfg db ask (rest.findSome? (eval (cold cfg db)))) := by
  induction first with
  | nil => exact ⟨fun h _ => h,fun h => h (forall_mem_nil _)⟩
  | cons step first ih =>
    obtain ⟨hst,hf⟩ := forall_mem_cons.mp hp
    rw [cons_append,findSome?_cons,FindNothing,forall_mem_cons,and_imp]
    cases he : eval (cold cfg db) step with
    | none => exact (ih hf).trans ⟨fun h _ => h,fun h => h rfl⟩
    | some s =>
      obtain ⟨reply,rfl,hc⟩ := hst s he
      exact ⟨nofun,fun _ => spares_answer hlib (by rw [hc]; decide)⟩

omit hlib in
def zoneSteps (cfg : ServerConfig) (ask : Asked) : List LocalDecision :=
  [managedZone cfg ask,authoritativeZone cfg ask,recursionGate cfg ask,domainBlocklist cfg.lib ask,cachedAnswer cfg ask]

/-- The global zones, and whoever is asked for a name in none of them. -/
theorem spares_zones (hb : Unblocked cfg db ask) :
    Spares cfg db ask ((zoneSteps cfg ask).findSome? (eval (cold cfg db))) ↔
      (InOwnZone cfg db ask → known cfg.lower db ask.qname .global=true) ∧
        (¬ InOwnZone cfg db ask → MayResolve cfg ask → cfg.cacheEnabled=false ∧ ¬ AsksUpstream cfg ask) := by
  have hz {find : LocalOp} {zone : LocalRes find → Bool} : eval (cold cfg db) (ownZone cfg ask find zone) =
      if zone (cold cfg db find) then
        some (.answer (eval (cold cfg db) (authoritativeNegative cfg.lib ask .global))) else none := by
    rw [ownZone,eval_read]
    split
    · rw [eval_bind]
      rfl
    · rfl
  by_cases ho : InOwnZone cfg db ask
  · have he : (zoneSteps cfg ask).findSome? (eval (cold cfg db)) =
        some (.answer (eval (cold cfg db) (authoritativeNegative cfg.lib ask .global))) := by
      rw [zoneSteps,findSome?_cons,managedZone,hz]
      by_cases hm : (cold cfg db (.findManagedZone ask.qname)).isSome=true
      · rw [if_pos hm]
      · have ha : (cold cfg db (.findAuthoritativeZone ask.qname)).isSome=true := ho.resolve_left hm
        rw [if_neg hm,findSome?_cons,authoritativeZone,hz,if_pos ha]
    rw [he,spares_negative hlib]
    exact ⟨fun h => ⟨fun _ => h,fun hno => absurd ho hno⟩,fun h => h.1 ho⟩
  · obtain ⟨hm,ha⟩ := not_or.mp ho
    have hm : eval (cold cfg db) (managedZone cfg ask)=none := hz.trans (if_neg hm)
    have ha : eval (cold cfg db) (authoritativeZone cfg ask)=none := hz.trans (if_neg ha)
    simp only [zoneSteps,findSome?_cons,hm,ha,hb.domain,ho,false_implies,not_false_eq_true,true_implies,true_and]
    by_cases hma : MayResolve cfg ask
    · have hg : eval (cold cfg db) (recursionGate cfg ask)=none := by
        have han : (ask.sourceIp.any fun ip => !cfg.mayRecurse ip)=false := by
          cases hip : ask.sourceIp with
          | none => rfl
          | some ip => simpa [hip] using hma.1
        rw [recursionGate,han,hma.2]
        rfl
      simp only [hg,hma,true_implies,cachedAnswer]
      cases hc : cfg.cacheEnabled with
      | false => exact ⟨fun h => ⟨rfl,h⟩,And.right⟩
      | true => exact ⟨fun h => absurd (denies_bytes hlib ask [] false) h,fun h => absurd h.1 (by decide)⟩
    · have hg : eval (cold cfg db) (recursionGate cfg ask)=some (.answer (.edns .Refused [] false)) := by
        unfold recursionGate
        split_ifs with hs har
        · rfl
        · rfl
        · refine absurd ⟨?_,Bool.eq_false_iff.mpr har⟩ hma
          cases hip : ask.sourceIp with
          | none => rfl
          | some ip => simpa [hip] using hs
      simp only [hg,hma,false_implies,iff_true]
      exact spares_answer hlib (show ResponseCode.Refused≠.NXDomain by decide)

end

theorem findSome?_firstSteps (hb : Unblocked cfg db ask) :
    (firstSteps cfg ask (override cfg db ask) (some scope)++localAnswer.rest cfg ask).findSome? (eval (cold cfg db)) =
      (scopedLookups cfg db ask scope++[scopedTld ask scope,scopedZones cfg ask scope]++
        globalRecords cfg ask::localAnswer.rest cfg ask).findSome? (eval (cold cfg db)) := by
  have hs : eval (cold cfg db) (scopedAnswer cfg ask scope (override cfg db ask)) =
      (scopedLookups cfg db ask scope++[scopedTld ask scope,scopedZones cfg ask scope]).findSome?
        (eval (cold cfg db)) := by
    rw [scopedAnswer,eval_firstSome,findSome?_cons,hb.reverse]
    rfl
  rw [firstSteps,cons_append,findSome?_cons,hs]
  generalize scopedLookups cfg db ask scope++_=steps
  refine .trans ?_ findSome?_append.symm
  cases steps.findSome? (eval (cold cfg db)) <;> rfl

theorem eval_scopedZone (zones : List Text) : eval (cold cfg db) (scopedZone cfg ask scope zones) =
    if ∃ zone∈zones,nameInZone cfg.lower ask.qname zone=true ∧ db.read cfg.lower (.lookupScoped scope zone none)≠[] then
      some (.answer (eval (cold cfg db) (authoritativeNegative cfg.lib ask (.scope scope)))) else none := by
  induction zones with
  | nil => simp [scopedZone]
  | cons zone zones ih =>
    unfold scopedZone
    by_cases hin : nameInZone cfg.lower ask.qname zone=true
    · rw [if_pos hin,eval_read]
      change eval _ (if (db.read cfg.lower (.lookupScoped scope zone none)).isEmpty=true then _ else _)=_
      by_cases he : db.read cfg.lower (.lookupScoped scope zone none)=[]
      · simp [he,ih]
      · simp [hin,he]
    · simp [hin,ih]

/-- Under a TLD and in a zone of its scope, the client sees only what is in the scope. -/
theorem known_of_sees (hs : Sees cfg db ask (some scope))
    (h : tldOwner cfg db ask.qname≠none ∨ InScopedZone cfg db ask (some scope)) :
    known cfg.lower db ask.qname (.scope scope)=true := by
  have ho : (scopeView db.scopedCache scope).Occupied (normalizeName cfg.lower ask.qname) := by
    rcases hs with ho | ⟨ht,hz,-⟩
    · exact ho
    · exact absurd h (by simp [ht,hz])
  simp [known,scopedNameOccupied_of_occupied ho]

section
variable (hlib : CodeLaws cfg.lib) (hb : Unblocked cfg db ask)
include hlib hb

theorem spares_iff_of_unowned (hc : eval (cold cfg db) (scopeOf cfg ask)=.ok client) (hs : Sees cfg db ask client)
    (ht : tldOwner cfg db ask.qname=none) :
    Spares cfg db ask (eval (cold cfg db) (localAnswer cfg ask)) ↔ Safe cfg db ask client := by
  have hg : Positive (eval (cold cfg db) (globalRecords cfg ask)) := (eval_of_reading globalRecords_tells).1
  have hd : Positive (eval (cold cfg db) (checkDnameGlobal cfg.lib ask.qname)) :=
    (eval_of_reading (tells_of_fixed (fixed_of_uses (checkDnameGlobal_sat cfg.lib ask.qname)))).1
  have hsc (scope : Text) : ∀ step∈scopedLookups cfg db ask scope,Positive (eval (cold cfg db) step) :=
    fun step h => (eval_of_reading (scopedLookups_tell step h)).1
  have hsafe : Safe cfg db ask client ↔ (FindNothing cfg db (lookupsOutside cfg db ask client) →
    ¬ InScopedZone cfg db ask client →
      Spares cfg db ask ((zoneSteps cfg ask).findSome? (eval (cold cfg db)))) := by
    rw [spares_zones hlib hb]
    constructor
    · exact fun h hn hz => ⟨h.zone ht hn hz,h.away ht hn hz⟩
    · intro h
      refine ⟨fun _ _ hso => ?_,fun _ hn hz => (h hn hz).1,fun _ hn hz => (h hn hz).2⟩
      cases ht.symm.trans hso
  rw [hsafe,eval_localAnswer (show _=override cfg db ask from rfl) hc]
  cases client with
  | none =>
    have hl : eval (cold cfg db) (lanFallback cfg ask (override cfg db ask))=none := by
      rw [lanFallback,eval_read,show cold cfg db (.findTldOwner ask.qname)=none from ht]
      rfl
    refine (@spares_append _ _ _ hlib [reverseBlocklist cfg.lib ask false,globalRecords cfg ask,
      lanFallback cfg ask (override cfg db ask),checkDnameGlobal cfg.lib ask.qname] _ ?_).trans ?_
    · simp only [forall_mem_cons,hb.reverse,hl]
      exact ⟨positive_none,hg,positive_none,hd,forall_mem_nil _⟩
    · simp [FindNothing,lookupsOutside,InScopedZone,hb.reverse,hl,zoneSteps]
  | some scope =>
    have hl : eval (cold cfg db) (scopedTld ask scope)=none := by
      rw [scopedTld,eval_read,show cold cfg db (.findTldOwner ask.qname)=none from ht]
      rfl
    rw [findSome?_firstSteps hb]
    by_cases hz : InScopedZone cfg db ask (some scope)
    · refine iff_of_true ?_ fun _ hno => absurd hz hno
      rw [append_assoc]
      refine (spares_append hlib (hsc scope)).mpr fun _ => ?_
      have hsz : eval (cold cfg db) (scopedZones cfg ask scope)=_ := (eval_scopedZone _).trans (if_pos hz)
      simp only [cons_append,nil_append,findSome?_cons,hl,hsz]
      exact (spares_negative hlib).mpr (known_of_sees hs (.inr hz))
    · have hsz : eval (cold cfg db) (scopedZones cfg ask scope)=none := (eval_scopedZone _).trans (if_neg hz)
      have hne : FindNothing cfg db [scopedTld ask scope,scopedZones cfg ask scope] :=
        forall_mem_cons.mpr ⟨hl,forall_mem_singleton.mpr hsz⟩
      refine (spares_append hlib (forall_mem_append.mpr ⟨hsc scope,fun step h => hne step h ▸ positive_none⟩)).trans ?_
      refine (imp_congr Iff.rfl (@spares_append _ _ _ hlib [globalRecords cfg ask,checkDnameGlobal cfg.lib ask.qname]
        (zoneSteps cfg ask)
        (forall_mem_cons.mpr ⟨hg,forall_mem_singleton.mpr hd⟩))).trans ?_
      constructor
      · intro h hn _
        obtain ⟨hsn,hgn⟩ := forall_mem_append.mp hn
        exact h (forall_mem_append.mpr ⟨hsn,hne⟩) hgn
      · exact fun h hn hgn => h (forall_mem_append.mpr ⟨(forall_mem_append.mp hn).1,hgn⟩) hz

theorem spares_iff_of_owned (hc : eval (cold cfg db) (scopeOf cfg ask)=.ok client) (hs : Sees cfg db ask client)
    {owner tld : Text} (ht : tldOwner cfg db ask.qname=some (owner,tld)) :
    Spares cfg db ask (eval (cold cfg db) (localAnswer cfg ask)) ↔ Safe cfg db ask client := by
  have hsafe : Safe cfg db ask client ↔ (FindNothing cfg db (lookupsInTld cfg db ask owner client) →
      (∀ scope,client=some scope → scope=owner) ∧ db.read cfg.lower (.getTldForwarders owner tld)=[] ∧
        (client=none → known cfg.lower db ask.qname (.lanFallback owner)=true)) := by
    refine ⟨fun h => h.tld owner tld ht,fun h => ⟨fun _ _ hso => ?_,fun hn => ?_,fun hn => ?_⟩⟩
    · cases ht.symm.trans hso
      exact h
    · cases ht.symm.trans hn
    · cases ht.symm.trans hn
  rw [hsafe,eval_localAnswer (show _=override cfg db ask from rfl) hc]
  cases client with
  | none =>
    have hl : (firstSteps cfg ask (override cfg db ask) none++localAnswer.rest cfg ask).findSome? (eval (cold cfg db)) =
        (lookupsInTld cfg db ask owner none++[pure (some (LocalStep.askPeers
          (db.read cfg.lower (.getTldForwarders owner tld)) (.lanFallback owner)))]).findSome?
            (eval (cold cfg db)) := by
      simp only [firstSteps,lookupsInTld,cons_append,nil_append,findSome?_cons,hb.reverse]
      rw [lanFallback,eval_read,show cold cfg db (.findTldOwner ask.qname)=some (owner,tld) from ht,eval_bind]
      cases eval (cold cfg db) (lanRecords cfg ask (override cfg db ask) owner) <;> rfl
    rw [hl]
    refine (spares_append hlib ?_).trans (imp_congr Iff.rfl ⟨fun h => ⟨fun _ he => (by cases he),h.1,fun _ => h.2⟩,
      fun h => ⟨h.2.1,h.2.2 rfl⟩⟩)
    exact forall_mem_cons.mpr ⟨(eval_of_reading globalRecords_tells).1,
      forall_mem_singleton.mpr (eval_of_reading (tells_of_fixed (lanRecords_fixed _ owner))).1⟩
  | some scope =>
    rw [findSome?_firstSteps hb,append_assoc]
    refine (spares_append hlib fun step hst => (eval_of_reading (scopedLookups_tell step hst)).1).trans
      (imp_congr Iff.rfl ?_)
    rw [cons_append,findSome?_cons,scopedTld,eval_read,show cold cfg db (.findTldOwner ask.qname) =
      some (owner,tld) from ht]
    by_cases ho : owner=scope
    · subst ho
      simp only [if_pos]
      have hk := known_of_sees hs (.inl (ht ▸ Option.some_ne_none _))
      exact ⟨fun h => ⟨fun _ he => (Option.some.inj he).symm,h.1,fun he => (by cases he)⟩,fun h => ⟨h.2.1,hk⟩⟩
    · simp only [if_neg ho]
      exact iff_of_false (fun h => h (denies_bytes hlib ask [] true)) fun h => ho (h.1 scope rfl).symm

theorem spares_iff_safe (hc : eval (cold cfg db) (scopeOf cfg ask)=.ok client) (hs : Sees cfg db ask client) :
    Spares cfg db ask (eval (cold cfg db) (localAnswer cfg ask)) ↔ Safe cfg db ask client := by
  cases ht : tldOwner cfg db ask.qname with
  | none => exact spares_iff_of_unowned hlib hb hc hs ht
  | some owner => exact spares_iff_of_owned hlib hb hc hs ht

end

end

/-- No query for a name that its client can see is answered NXDOMAIN, whatever the peers, upstream and the
cache say, exactly if what is not found is denied by nobody who does not know the name. -/
theorem existing_never_denied_iff {cfg : ServerConfig} (hlib : CodeLaws cfg.lib) {db : Database} {ask : Asked}
    {queryData : Bytes} {sourceIp localIp : Option IpAddr} {proto : Proto} {client : Option Text} {reply : Bytes}
    (hread : readQuery cfg queryData (sourceIp.map toCanonical) (localIp.map toCanonical)=.ok ask)
    (hpeer : PeerDenial cfg ask reply) (hblock : Unblocked cfg db ask)
    (hclient : eval (bare cfg.lower db) (scopeOf cfg ask)=.ok client) (hsees : Sees cfg db ask client) :
    (∀ log bytes,Yields (handleQueryProto cfg queryData sourceIp localIp proto) log bytes → (∀ e∈log,Reads cfg db e) →
      ¬ Denies cfg.lib bytes) ↔ Safe cfg db ask client := by
  rw [← spares_iff_safe hlib hblock hclient hsees,← neverDenied_iff_spares hlib hpeer
    (readQuery_wellRead hread).1 hclient]
  constructor
  · intro h log response hru hr hd
    have hq : Yields (resolveQuery cfg queryData (sourceIp.map toCanonical) (localIp.map toCanonical)) log
      response := by
      rw [resolveQuery,hread]
      exact hru
    have hw : Yields (handleQueryProto cfg queryData sourceIp localIp proto) (log++[])
      (sendable cfg proto queryData response) :=
      hq.bind (.pure _)
    rw [append_nil] at hw
    exact h log _ hw hr ((denies_sendable hlib proto queryData response).mpr hd)
  · intro hnever log bytes hru hr hd
    rcases handleQueryProto_inv hru with ⟨-,response,he,-⟩ | ⟨ask',response,hread',ha,rfl⟩
    · rw [hread] at he
      cases he
    · obtain rfl : ask=ask' := Except.ok.inj (hread.symm.trans hread')
      exact hnever log response ha hr ((denies_sendable hlib proto queryData response).mp hd)

/-- A wire format that keeps the response code and nothing else. -/
def codeLibrary (query : Packet) (queryBytes : Bytes) : ServerLibrary :=
  { tableLibrary [(query,queryBytes)] with
    fromBytes := fun bytes =>
      if bytes=queryBytes then some query
      else match bytes with
        | _::_::rest => some { query with messageType := .response, responseCode := ⟨UInt16.ofNat rest.length⟩ }
        | _ => none
    toBytes := fun p => some (0::1::replicate p.responseCode.code.toNat 0)
    spelling := fun _ => none }

theorem codeLibrary_laws {query : Packet} {queryBytes : Bytes} (h : queryBytes.getD 2 0≠0) (ha : query.answers=[]) :
    CodeLaws (codeLibrary query queryBytes) := by
  have ho {bytes : Bytes} (hz : bytes.getD 2 0=0) : bytes≠queryBytes := by
    rintro rfl
    exact h hz
  constructor
  case fromBytes_nil => exact if_neg (ho rfl)
  case toBytes_negative => exact fun _ => rfl
  case toBytes_answers =>
    rintro bytes p p' ⟨⟩ hr -
    have hz : (0::1::replicate p.responseCode.code.toNat 0 : Bytes).getD 2 0=0 := by
      cases p.responseCode.code.toNat <;> rfl
    obtain rfl := Option.some.inj ((if_neg (ho hz)).symm.trans hr)
    exact ha
  case toBytes_code =>
    rintro bytes p ⟨⟩
    refine ⟨_,if_neg (ho ?_),?_⟩
    · cases p.responseCode.code.toNat <;> rfl
    · simp

def nameXAB : Name := (Name.fromLabels [[120],[97],[98]]).getD .root

def queryXAB : Packet := { Packet.new with id := 1, recursionDesired := true, queries := [⟨nameXAB,.AAAA,.IN⟩] }

def queryXABBytes : Bytes := [0,1,1,0,0,1,0,0,0,0,0,0,1,120,1,97,1,98,0,0,28,0,1]

def existenceConfig : ServerConfig := { forwardingConfig with lib := codeLibrary queryXAB queryXABBytes }

def askXAB : Asked := ⟨queryXABBytes,queryXAB,none,⟨nameXAB,.AAAA,.IN⟩,"x.a.b.",some (.v4 0x7f000001),none⟩

theorem askXAB_denial : PeerDenial existenceConfig askXAB [0,1,0,0,0] := by
  refine ⟨⟨_,rfl,rfl⟩,?_,fun target => ?_,by decide,by decide,by decide⟩
  · rintro _ ⟨⟩
    rfl
  simp only [acceptable,decide_true,Bool.true_and]
  rfl

theorem existenceConfig_laws : CodeLaws existenceConfig.lib := codeLibrary_laws (by decide) rfl

def globalDb : Database where
  rows := [address "x.a.b."]
  scopedRows := []
  scopedCache := []
  other
    | .findManagedZone _ => some "a.b."
    | o => holdsNothing o
  normalized := by decide

theorem askXAB_read : readQuery existenceConfig queryXABBytes ((some (.v4 0x7f000001)).map toCanonical)
      (Option.map toCanonical none) =
    .ok askXAB := by
  rfl

/-- For `x.a.b.`, which has an IPv4 address in a zone of the server's own, IPv6 addresses are never denied with
the name. -/
theorem existing_never_denied_iff_global :
    Sees existenceConfig globalDb askXAB none ∧
      ∀ log bytes,Yields (handleQueryProto existenceConfig queryXABBytes (some (.v4 0x7f000001)) none .udp) log bytes →
        (∀ e∈log,Reads existenceConfig globalDb e) → ¬ Denies existenceConfig.lib bytes := by
  have hs : Sees existenceConfig globalDb askXAB none := .inl ⟨"x.a.b.",.A,by decide,.inl rfl⟩
  refine ⟨hs,(existing_never_denied_iff existenceConfig_laws askXAB_read askXAB_denial ⟨fun _ => rfl,rfl⟩ rfl hs).mpr
    ?_⟩
  constructor
  case tld => exact nofun
  case zone => exact fun _ _ _ _ => by decide
  case away => exact fun _ _ _ ho => absurd (Or.inl rfl) ho

/-- The client's scope `s` has an address at `x.a.b.`, and there is a global one at `y.a.b.`. -/
def scopedDb (owner : Option (Text × Text)) (peers : List SocketAddr) : Database where
  rows := [address "y.a.b."]
  scopedRows := [("s",address "x.a.b.")]
  scopedCache := [("s:x.a.b.:A",[address "x.a.b."])]
  other
    | .getScopeForIp _ => some "s"
    | .findTldOwner _ => owner
    | .getTldForwarders _ _ => peers
    | .findManagedZone _ => some "a.b."
    | o => holdsNothing o
  normalized := by decide

/-- A name that its client can see in its scope and no blocklist holds is answered NXDOMAIN. -/
def DeniedIn (db : Database) : Prop :=
  Unblocked existenceConfig db askXAB ∧
    eval (bare existenceConfig.lower db) (scopeOf existenceConfig askXAB)=.ok (some "s") ∧
    Sees existenceConfig db askXAB (some "s") ∧
    ∃ log bytes,Yields (handleQueryProto existenceConfig queryXABBytes (some (.v4 0x7f000001)) none .udp) log bytes ∧
      (∀ e∈log,Reads existenceConfig db e) ∧ Denies existenceConfig.lib bytes

theorem deniedIn_scopedDb {owner : Option (Text × Text)} {peers : List SocketAddr}
    (h : (answeredBy (denying existenceConfig (scopedDb owner peers) askXAB [0,1,0,0,0])
      (handleQueryProto existenceConfig queryXABBytes (some (.v4 0x7f000001)) none .udp)).2=[0,1,0,0,0]) :
    DeniedIn (scopedDb owner peers) := by
  refine ⟨⟨fun _ => rfl,rfl⟩,rfl,.inl ⟨"x.a.b.",.A,?_,.inl rfl⟩,_,_,
    yields_answeredBy (denying existenceConfig (scopedDb owner peers) askXAB [0,1,0,0,0]) _,fun _ => reads_denying,?_⟩
  · have hr : scopeView [("s:x.a.b.:A",[address "x.a.b."])] "s" "x.a.b." .A≠[] := by decide
    exact hr
  · rw [h]
    exact askXAB_denial.denies

/-- The client's scope has no record at the apex of `a.b.`, so its zone is passed over and the global one denies
`x.a.b.`; and where the scope owns the TLD, a peer may deny it. -/
theorem existing_name_denied :
    DeniedIn (scopedDb none []) ∧ DeniedIn (scopedDb (some ("s", "b.")) [⟨.v4 0x0a400002,53⟩]) :=
  ⟨deniedIn_scopedDb (by decide +kernel),deniedIn_scopedDb (by decide +kernel)⟩

end RolodexDns.NameExistence
