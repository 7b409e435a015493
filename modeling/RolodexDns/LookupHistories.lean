import RolodexDns.HistoryContracts
import RolodexDns.LookupContracts

/-! What a lookup has done by the time it does something. Every operation may give whatever it gives
in any world, so that nothing is assumed of the caches, the clocks or the network. -/
namespace RolodexDns.LookupHistories
open DomainNames DnsRecords ValidationVerdicts SignatureValidation ResolverCaches ResolverWorld ResponseReading List
open IterativeResolver HistoryContracts ProgramTraces

abbrev LookupLog := List ((o : Op) × Res o)

/-- A query that goes out, however it is answered and whether or not it is repeated over TCP. -/
def isAttempt : ((o : Op) × Res o) → Bool
  | ⟨.sendUdp _ _,_⟩ => true
  | _ => false

variable (start : Name → Name) (cfg : Config) (log : LookupLog) (zone name : Name)

def attempts : Nat := log.countP isAttempt

/-- A reply that was accepted from the server for this question; a truncated one is not. -/
def Heard (server : IpAddr) (name : Name) (qtype : RecordType) (m : Message) : Prop :=
  ∃ id qclass dnssecOk,(⟨.sendTcp server ⟨id,name,qtype,qclass,dnssecOk⟩,some m⟩∈log ∨
      ⟨.sendUdp server ⟨id,name,qtype,qclass,dnssecOk⟩,some m⟩∈log ∧ m.truncated=false) ∧
    m.id=id ∧ validateQuestion m ⟨name,qtype,qclass⟩=true

/-- The keys of the root in a reply of the server were checked against the anchors, with this outcome. -/
def RootKeysChecked (server : IpAddr) (outcome : Except ValidationError (List Dnskey)) : Prop :=
  ∃ anchors m now,cfg.anchors=some anchors ∧ Heard log server .root .DNSKEY m ∧ ⟨.nowSecs,some now⟩∈log ∧
    validateDnskeyRrset cfg.lib .root m.answers m.answers (.anchors anchors) now=outcome

def TrustKnown : Prop :=
  ∃ state,(∃ ttl,⟨.keyInsert zone state ttl,()⟩∈log) ∨ ⟨.keyGet zone,some state⟩∈log

/-- A server in use for `zone` referred the question to `child`, which lies strictly between the zone
and the name. -/
structure Refers (log : LookupLog) (name : Name) (qtype : RecordType) (zone : Name) (servers : List IpAddr)
    (child : Name) (glue : List Record) (targets : List Name) (ttl : Nat) : Prop where
  heard : ∃ server∈servers,∃ m,Heard log server name qtype m ∧ classify m qtype=.referral child glue targets ttl
  inBailiwick : referralInBailiwick zone child name=true

def ownGlue (glue : List Record) : List Record := glue.filter fun r => zone.zoneOf r.name

/-- The zone a cached delegation is for, as the walk reads it. -/
def startZone (zone : Name) : Name := if cfg.lib.textParses zone then zone else Name.root

/-- A walk for a question: it stands in `zone` with these servers, having come down through `visited`,
the last zone first. It starts at the root hints, or at a cached delegation, whose zone is taken
to be what `start` makes of it. -/
inductive Walks (start : Name → Name) (cfg : Config) (log : LookupLog) (name : Name) (qtype : RecordType) :
    Name → List IpAddr → List Name → Prop where
  | roots {servers : List IpAddr} (hsub : servers⊆cfg.rootHints) : Walks start cfg log name qtype .root servers []
  | cached {zone : Name} {known servers : List IpAddr} (hmatch : ⟨.delegationMatch name,some (zone,known)⟩∈log)
      (hread : cfg.validating=true → cfg.lib.textParses zone=true) (hsub : servers⊆known) :
      Walks start cfg log name qtype (start zone) servers []
  | referred {zone child : Name} {servers next : List IpAddr} {visited : List Name} {glue : List Record}
      {targets : List Name} {ttl : Nat} (hwalks : Walks start cfg log name qtype zone servers visited)
      (hrefers : Refers log name qtype zone servers child glue targets ttl)
      (hinsert : ⟨.delegationInsert child next ttl,()⟩∈log) :
      Walks start cfg log name qtype child next (zone::visited)

/-- The delegation comes at the end of a walk: the next zone down, with the addresses that its glue
gives, if it gives any. -/
def Learned (child : Name) (next : List IpAddr) (ttl : Nat) : Prop :=
  ∃ name qtype zone servers visited glue targets,Walks start cfg log name qtype zone servers visited ∧
    Refers log name qtype zone servers child glue targets ttl ∧
    (glueAddresses (ownGlue zone glue)≠[] → next=glueAddresses (ownGlue zone glue)) ∧
    (cfg.validating=true → TrustKnown log child)

/-- The records are the answer section of a reply to exactly this question. -/
def IsAnswer (qtype : RecordType) (records : List Record) : Prop :=
  ∃ server m,Heard log server name qtype m ∧ classify m qtype=.answer records

/-- The records are glue that a walk was given with a referral: their owner is inside the zone that
answered and one of the nameservers listed. -/
def IsGlue (owner : Name) (rtype : RecordType) (records : List Record) : Prop :=
  ∃ name qtype zone servers visited child glue targets ttl,Walks start cfg log name qtype zone servers visited ∧
    Refers log name qtype zone servers child glue targets ttl ∧ zone.zoneOf owner=true ∧ owner∈targets ∧
    ∀ r∈records,r∈glue ∧ r.name=owner ∧ r.recordType=rtype

/-- A zone between the one that answered and the one that signed, whose DS and keys are asked for. -/
def HiddenCut (cut : Name) : Prop :=
  ∃ server name qtype m zone signer,Heard log server name qtype m ∧
    (signerBelow m.answers zone=some signer ∨ signerBelow m.nameServers zone=some signer) ∧
    cut∈cutsBetween zone signer

section
variable {cfg : Config} {log now : LookupLog} (hsub : log⊆now) {qtype : RecordType} {name : Name}
include hsub

theorem Heard.mono {server : IpAddr} {m : Message} (h : Heard log server name qtype m) :
    Heard now server name qtype m := by
  obtain ⟨id,qclass,dnssecOk,hs,hr⟩ := h
  exact ⟨id,qclass,dnssecOk,hs.imp (fun h => hsub h) (fun h => ⟨hsub h.1,h.2⟩),hr⟩

theorem Refers.mono {zone child : Name} {servers : List IpAddr} {glue : List Record}
    {targets : List Name} {ttl : Nat} (h : Refers log name qtype zone servers child glue targets ttl) :
    Refers now name qtype zone servers child glue targets ttl := by
  obtain ⟨⟨server,hs,m,hh,hc⟩,hb⟩ := h
  exact ⟨⟨server,hs,m,hh.mono hsub,hc⟩,hb⟩

theorem Walks.mono {start : Name → Name} {zone : Name} {servers : List IpAddr} {visited : List Name}
    (h : Walks start cfg log name qtype zone servers visited) :
    Walks start cfg now name qtype zone servers visited := by
  induction h with
  | roots hr => exact .roots hr
  | cached hmatch hread hk => exact .cached (hsub hmatch) hread hk
  | referred _ hrefers hinsert ih => exact .referred ih (hrefers.mono hsub) (hsub hinsert)

theorem HiddenCut.mono {cut : Name} (h : HiddenCut log cut) : HiddenCut now cut := by
  obtain ⟨server,name,qtype,m,zone,signer,hh,hr⟩ := h
  exact ⟨server,name,qtype,m,zone,signer,hh.mono hsub,hr⟩

end

/-- A name that may be asked for: one outside `arpa.`, or a hidden cut. -/
def Askable : Prop := isArpaSubtree name=false ∨ HiddenCut log name

theorem Askable.mono {log now : LookupLog} (hsub : log⊆now) {name : Name} (h : Askable log name) : Askable now name :=
  h.imp_right fun h => h.mono hsub

/-- What may be put in the delegation cache and in the record cache. -/
structure Inserts where
  delegates : LookupLog → Name → List IpAddr → Nat → Prop
  caches : LookupLog → Name → RecordType → List Record → Prop

/-- What a routine with `limit` queries may do. -/
def discipline (limit : Nat) (I : Inserts) : Discipline Nat Op Res where
  allows
    | past, .sendUdp _ query => attempts past<limit ∧ Askable past query.name
    | past, .sendTcp server query => ∃ m,past.getLast?=some ⟨.sendUdp server query,some m⟩ ∧ m.truncated=true
    | past, .delegationInsert zone servers ttl => I.delegates past zone servers ttl
    | past, .recordInsert name rtype records _ => I.caches past name rtype records
    | past, .blameRoot server => ∃ e,RootKeysChecked cfg past server (.error e)
    | past, .clearBlame server => ∃ keys,RootKeysChecked cfg past server (.ok keys)
    | _, _ => True
  promises o r := ∃ w w',acts cfg w o r w'
  inv past budget := attempts past+budget ≤ limit

section
variable {cfg : Config} {limit : Nat} {I : Inserts} {past : LookupLog} {query : OutQuery} {server : IpAddr}
  {servers : List IpAddr}

theorem attempts_append (first rest : LookupLog) : attempts (first++rest)=attempts first+attempts rest :=
  countP_append

variable {o : Op} {m : Message} {qtype : RecordType} {budget left : Nat}
  {r : Except ResolveError (Option Message)} {qclass : DnsClass}

/-- Everything but a UDP query leaves the budget alone. -/
theorem admits (ha : (discipline cfg limit I).allows past o) (hq : ∀ r,isAttempt ⟨o,r⟩=false) :
    (discipline cfg limit I).Admits past o := by
  refine ⟨ha,fun budget r hi => ?_⟩
  have hn : attempts [⟨o,r⟩]=0 := by simp [attempts,hq r]
  change attempts (past++[⟨o,r⟩])+budget ≤ limit
  rw [attempts_append,hn]
  exact hi

theorem step_obeys {α : Type} {f : Res o → Lookup α} {Q : LookupLog → α → Prop}
    (ha : (discipline cfg limit I).allows past o) (hq : ∀ r,isAttempt ⟨o,r⟩=false)
    (hf : ∀ r,(∃ w w',acts cfg w o r w') → Obeys (discipline cfg limit I) (past++[⟨o,r⟩]) (f r) Q) :
    Obeys (discipline cfg limit I) past (Lookup.perform o >>= f) Q := by
  refine Obeys.bind (P := fun now r => now=past++[⟨o,r⟩] ∧ ∃ w w',acts cfg w o r w')
    (obeys_perform (admits ha hq) fun r hr => ⟨rfl,hr⟩) fun now r _ hr => ?_
  rw [hr.1]
  exact hf r hr.2

theorem heard_of_sent
    (hs : ⟨.sendTcp server query,some m⟩∈past ∨ ⟨.sendUdp server query,some m⟩∈past ∧ m.truncated=false)
    (hid : m.id=query.id) (hq : validateQuestion m ⟨query.name,query.qtype,query.qclass⟩=true) :
    Heard past server query.name query.qtype m :=
  ⟨query.id,query.qclass,query.dnssecOk,hs,hid,hq⟩

/-- The log holds this one answer to the question, or none, and no other. -/
def HearsOnly (log : LookupLog) (name : Name) (qtype : RecordType) (answered : Option Answered) : Prop :=
  ∀ server name' qtype' m,Heard log server name' qtype' m ↔ name'=name ∧ qtype'=qtype ∧ answered=some ⟨m,server⟩

def isSend : Op → Bool
  | .sendUdp _ _ | .sendTcp _ _ => true
  | _ => false

theorem heard_append_iff {name : Name} {first rest : LookupLog} :
    Heard (first++rest) server name qtype m ↔ Heard first server name qtype m ∨ Heard rest server name qtype m := by
  constructor
  · rintro ⟨id,qclass,dnssecOk,hs,hr⟩
    rcases hs with hs | ⟨hs,ht⟩
    · exact (mem_append.mp hs).imp (fun h => ⟨id,qclass,dnssecOk,.inl h,hr⟩) fun h => ⟨id,qclass,dnssecOk,.inl h,hr⟩
    · exact (mem_append.mp hs).imp (fun h => ⟨id,qclass,dnssecOk,.inr ⟨h,ht⟩,hr⟩)
        fun h => ⟨id,qclass,dnssecOk,.inr ⟨h,ht⟩,hr⟩
  · rintro (h | h)
    · exact h.mono (subset_append_left _ _)
    · exact h.mono (subset_append_right _ _)

theorem not_heard_of_quiet {name : Name} {log : LookupLog}
    (h : ∀ e∈log,isSend e.1=false) : ¬ Heard log server name qtype m := by
  rintro ⟨id,qclass,dnssecOk,hs | ⟨hs,-⟩,-⟩
  · cases h _ hs
  · cases h _ hs

section
variable {log first rest : LookupLog} {name : Name} {qtype : RecordType} {answered : Option Answered}

theorem hearsOnly_none : HearsOnly log name qtype none ↔ ∀ server name qtype m,¬ Heard log server name qtype m := by
  simp [HearsOnly]

theorem hearsOnly_of_quiet (h : ∀ e∈log,isSend e.1=false) : HearsOnly log name qtype none :=
  hearsOnly_none.mpr fun _ _ _ _ => not_heard_of_quiet h

theorem HearsOnly.append_left (h : HearsOnly rest name qtype answered) (hf : HearsOnly first name qtype none) :
    HearsOnly (first++rest) name qtype answered := fun server name' qtype' m => by
  rw [heard_append_iff,h,or_iff_right (hearsOnly_none.mp hf server name' qtype' m)]

theorem HearsOnly.append_right (h : HearsOnly first name qtype answered) (hr : HearsOnly rest name qtype none) :
    HearsOnly (first++rest) name qtype answered := fun server name' qtype' m => by
  rw [heard_append_iff,h,or_iff_left (hearsOnly_none.mp hr server name' qtype' m)]

theorem HearsOnly.cons {e : (o : Op) × Res o} (h : HearsOnly log name qtype answered) (he : isSend e.1=false) :
    HearsOnly (e::log) name qtype answered := by
  have hn : HearsOnly [e] name qtype none := hearsOnly_of_quiet (forall_mem_singleton.mpr he)
  exact h.append_left hn

end

/-- An exchange is one query over UDP, and one over TCP if the reply to that is truncated. -/
theorem yields_queryOne {log : LookupLog}
    (h : Yields (queryOne server query budget) log (r,left)) : ∃ reply,r=.ok (matching query reply) ∧
      ((log=[⟨.sendUdp server query,reply⟩] ∧ ¬ reply.any (fun msg => msg.id=query.id && msg.truncated)=true) ∨
        ∃ first,log=[⟨.sendUdp server query,some first⟩,⟨.sendTcp server query,reply⟩] ∧ first.truncated=true) := by
  rw [queryOne_eq] at h
  obtain ⟨reply,rest,hr,rfl⟩ := yields_step h
  split_ifs at hr with ht
  · obtain ⟨msg,rfl,hm⟩ := (Option.any_eq_true _ _).mp ht
    rw [queryTcp_eq] at hr
    obtain ⟨reply,rest,he,rfl⟩ := yields_step hr
    obtain ⟨rfl,heq⟩ := yields_pure_iff.mp he
    cases heq
    exact ⟨reply,rfl,.inr ⟨msg,rfl,(Bool.and_eq_true_iff.mp hm).2⟩⟩
  · obtain ⟨rfl,heq⟩ := yields_pure_iff.mp hr
    cases heq
    exact ⟨reply,rfl,.inl ⟨rfl,ht⟩⟩

/-- What comes of an exchange is all that is heard in it. -/
theorem hears_queryOne {log : LookupLog} (h : Yields (queryOne server query budget) log (r,left)) :
    ∃ reply,r=.ok reply ∧ HearsOnly log query.name query.qtype (reply.map (⟨·,server⟩)) := by
  obtain ⟨reply,rfl,hl⟩ := yields_queryOne h
  have hso {server' : IpAddr} {m : Message} : (matching query reply).map (Answered.mk · server)=some ⟨m,server'⟩ ↔
      server'=server ∧ reply=some m ∧ m.id=query.id ∧
        validateQuestion m ⟨query.name,query.qtype,query.qclass⟩=true := by
    rw [← matching_eq_some,Option.map_eq_some_iff]
    constructor
    · rintro ⟨m',hm',heq⟩
      cases heq
      exact ⟨rfl,hm'⟩
    · rintro ⟨rfl,hm⟩
      exact ⟨m,hm,rfl⟩
  refine ⟨_,rfl,fun server' name qtype m => ?_⟩
  rw [hso]
  constructor
  · rintro ⟨id,qclass,dnssecOk,hs,hid,hq⟩
    rcases hl with ⟨rfl,-⟩ | ⟨first,rfl,ht⟩
    · rcases hs with hs | ⟨hs,-⟩ <;> cases mem_singleton.mp hs
      exact ⟨rfl,rfl,rfl,rfl,hid,hq⟩
    · rcases hs with hs | ⟨hs,hw⟩
      · obtain heq | heq := mem_pair.mp hs <;> cases heq
        exact ⟨rfl,rfl,rfl,rfl,hid,hq⟩
      · obtain heq | heq := mem_pair.mp hs <;> cases heq
        rw [hw] at ht
        cases ht
  · rintro ⟨rfl,rfl,rfl,rfl,hid,hq⟩
    rcases hl with ⟨rfl,hw⟩ | ⟨first,rfl,-⟩
    · exact heard_of_sent (.inr ⟨mem_cons_self,by simpa [hid] using hw⟩) hid hq
    · exact heard_of_sent (.inl (by simp)) hid hq

theorem hears_tryServers {log : LookupLog} {r : Except ResolveError Answered}
    (h : Yields (tryServers query servers budget) log (r,left)) : HearsOnly log query.name query.qtype r.toOption := by
  induction servers generalizing budget log with
  | nil =>
    obtain ⟨rfl,heq⟩ := yields_throw_iff.mp h
    cases heq
    exact hearsOnly_of_quiet (forall_mem_nil _)
  | cons server servers ih =>
    have hc : tryServers query (server::servers) budget =
      (if decide (0<budget) then _ else _ : Lookup Answered) (budget - 1) := rfl
    rw [hc] at h
    split_ifs at h
    · rcases yields_bind_iff.mp h with ⟨reply,s,asking,rest,ho,hr,rfl⟩ | ⟨e,s,ho,-⟩
      · obtain ⟨_,⟨⟩,hh⟩ := hears_queryOne ho
        cases reply with
        | some msg =>
          obtain ⟨_,rest,he,rfl⟩ := yields_step hr
          obtain ⟨rfl,heq⟩ := yields_pure_iff.mp he
          cases heq
          exact hh.append_right (hearsOnly_of_quiet (by simp [isSend]))
        | none =>
          obtain ⟨_,rest,hm,rfl⟩ := yields_step hr
          exact ((ih hm).cons rfl).append_left hh
      · obtain ⟨_,heq,-⟩ := hears_queryOne ho
        cases heq
    · obtain ⟨rfl,heq⟩ := yields_throw_iff.mp h
      cases heq
      exact hearsOnly_of_quiet (forall_mem_nil _)

theorem hears_queryServers {log : LookupLog} {name : Name}
    {r : Except ResolveError Answered} (h : Yields (queryServers cfg servers name qtype qclass budget) log (r,left)) :
    HearsOnly log name qtype r.toOption := by
  obtain ⟨id,rest,hr,rfl⟩ := yields_step h
  obtain ⟨ordered,rest,ht,rfl⟩ := yields_step hr
  exact ((hears_tryServers ht).cons rfl).cons rfl

theorem queryTcp_obeys
    (hl : ∃ m,past.getLast?=some ⟨.sendUdp server query,some m⟩ ∧ m.truncated=true) :
    Obeys (discipline cfg limit I) past (queryTcp server query)
      fun now r => ∀ m,r=some m → Heard now server query.name query.qtype m := by
  rw [queryTcp_eq]
  refine step_obeys hl (fun _ => rfl) fun r _ => obeys_pure fun m hm => ?_
  obtain ⟨rfl,hid,hq⟩ := matching_eq_some.mp hm
  exact heard_of_sent (.inl (by simp)) hid hq

theorem queryOne_keeps (ha : Askable past query.name) (hb : attempts past+budget<limit) :
    Keeps (discipline cfg limit I) past (queryOne server query budget) fun now p =>
      (discipline cfg limit I).inv now p.2 ∧
      ∀ a,p.1=.ok a → ∀ m,a=some m → Heard now server query.name query.qtype m := by
  rw [queryOne_eq]
  refine ⟨⟨by omega,ha⟩,fun (reply : Option Message) _ => ?_⟩
  have hi : attempts (past++[⟨.sendUdp server query,reply⟩])+budget ≤ limit := by
    have ho : attempts [⟨.sendUdp server query,reply⟩]=1 := rfl
    rw [attempts_append,ho]
    omega
  -- What follows the first reply is a routine of its own, started with what is left of the budget.
  suffices h : Obeys (discipline cfg limit I) (past++[⟨.sendUdp server query,reply⟩])
      (if reply.any (fun msg => msg.id=query.id && msg.truncated) then queryTcp server query else
        return matching query reply)
      fun now r => ∀ m,r=some m → Heard now server query.name query.qtype m from h budget hi
  split_ifs with ht
  · obtain ⟨msg,rfl,hms⟩ := (Option.any_eq_true _ _).mp ht
    exact queryTcp_obeys ⟨msg,by simp,(Bool.and_eq_true_iff.mp hms).2⟩
  · refine obeys_pure fun m hm => ?_
    obtain ⟨rfl,hid,hq⟩ := matching_eq_some.mp hm
    exact heard_of_sent (.inr ⟨by simp,by simpa [hid] using ht⟩) hid hq

theorem tryServers_obeys (has : Askable past query.name) :
    Obeys (discipline cfg limit I) past (tryServers query servers)
      fun now a => a.server∈servers ∧ Heard now a.server query.name query.qtype a.message := by
  induction servers generalizing past with
  | nil => exact obeys_throw
  | cons server rest ih =>
    intro budget hi
    change attempts past+budget ≤ limit at hi
    rcases Nat.eq_zero_or_pos budget with rfl | hpo
    · refine ⟨hi,?_⟩
      rintro _ ⟨⟩
    · have hd : decide (0<budget)=true := decide_eq_true hpo
      have hc : tryServers query (server::rest) budget=(queryOne server query >>= _ : Lookup Answered) (budget - 1) :=
        congrFun (if_pos hd) _
      rw [hc]
      refine Keeps.bind (queryOne_keeps has (by omega)) fun now p hsub hp => ?_
      obtain ⟨r,left⟩ := p
      cases r with
      | error e =>
        refine ⟨hp.1,?_⟩
        rintro _ ⟨⟩
      | ok r =>
        have hn := hp.2 r rfl
        cases r with
        | none =>
          suffices h : Obeys (discipline cfg limit I) now (do noteFailure server; tryServers query rest)
            _ from h left hp.1
          refine step_obeys trivial (fun _ => rfl) fun _ _ => ?_
          refine (ih ((has.mono hsub).mono (subset_append_left _ _))).mono fun _ a _ ha => ?_
          exact ⟨mem_cons_of_mem server ha.1,ha.2⟩
        | some msg =>
          suffices h : Obeys (discipline cfg limit I) now (do noteSuccess server; return (⟨msg,server⟩ : Answered))
            _ from h left hp.1
          refine step_obeys trivial (fun _ => rfl) fun _ _ => ?_
          exact obeys_pure ⟨mem_cons_self,(hn msg rfl).mono (subset_append_left _ _)⟩

theorem queryServers_obeys {name : Name}
    (has : Askable past name) : Obeys (discipline cfg limit I) past (queryServers cfg servers name qtype qclass)
      fun now a => a.server∈servers ∧ Heard now a.server name qtype a.message := by
  refine step_obeys trivial (fun _ => rfl) fun id _ => ?_
  refine step_obeys trivial (fun _ => rfl) fun ordered ho => ?_
  obtain ⟨w,w',hac,-⟩ := ho
  rw [append_assoc]
  refine (tryServers_obeys (has.mono (subset_append_left _ _))).mono fun _ a _ ha => ?_
  exact ⟨ResolverContracts.isOrdering_subset hac ha.1,ha.2⟩

end

section
variable {cfg : Config} {limit : Nat} {I : Inserts} {past : LookupLog} {qclass : DnsClass} {servers : List IpAddr}
  {parent zone child : Name}

theorem Askable.root : Askable past .root := .inl rfl

theorem Askable.append {name : Name} (h : Askable past name) (rest : LookupLog) : Askable (past++rest) name :=
  h.mono (subset_append_left _ _)

theorem fetchDnskeys_obeys {source : KeySource} (ha : Askable past zone) :
    Obeys (discipline cfg limit I) past (fetchDnskeys cfg qclass zone servers source) fun now r =>
      ∀ server outcome,(∃ e,r=.error (.invalid server e) ∧ outcome=.error e) ∨
        (∃ validated,r=.ok validated ∧ validated.server=server ∧ outcome=.ok validated.keys) →
        ∃ m clock,Heard now server zone .DNSKEY m ∧ ⟨.nowSecs,some clock⟩∈now ∧
          validateDnskeyRrset cfg.lib zone m.answers m.answers source clock=outcome := by
  refine Obeys.bind ((queryServers_obeys ha).attempt
    (Q := fun now r => ∀ a,r=.ok a → Heard now a.server zone .DNSKEY a.message) ?_ nofun) fun now r _ hr => ?_
  · rintro now a _ ⟨-,hh⟩ _ ⟨⟩
    exact hh
  cases r with
  | error e => exact obeys_pure (by simp)
  | ok answered =>
    refine step_obeys trivial (fun _ => rfl) fun clock _ => ?_
    cases clock with
    | none => exact obeys_pure (by simp)
    | some clock =>
      have hh := (hr answered rfl).mono (subset_append_left now [⟨.nowSecs,some clock⟩])
      dsimp only
      split
      · rename_i e hc
        refine obeys_pure fun server outcome h => ?_
        rcases h with ⟨_,heq,rfl⟩ | ⟨_,heq,-⟩
        · cases heq
          exact ⟨_,clock,hh,mem_concat_self,hc⟩
        · cases heq
      · rename_i keys hc
        refine obeys_pure fun server outcome h => ?_
        rcases h with ⟨_,heq,-⟩ | ⟨_,heq,rfl,rfl⟩
        · cases heq
        · cases heq
          exact ⟨_,clock,hh,mem_concat_self,hc⟩

theorem rootTrust_obeys {anchors : List Anchor} (ha : cfg.anchors=some anchors) :
    Obeys (discipline cfg limit I) past (rootTrust cfg qclass anchors) fun _ _ => True := by
  refine step_obeys trivial (fun _ => rfl) fun known _ => ?_
  cases known with
  | some state => exact obeys_pure trivial
  | none =>
    refine step_obeys trivial (fun _ => rfl) fun cached _ => ?_
    refine step_obeys trivial (fun _ => rfl) fun usable _ => ?_
    refine Obeys.bind (fetchDnskeys_obeys .root) fun now r _ hr => ?_
    match r with
    | .ok validated =>
      obtain ⟨m,clock,hh,hc,hch⟩ := hr _ _ (.inr ⟨validated,rfl,rfl,rfl⟩)
      refine step_obeys ⟨_,anchors,m,clock,ha,hh,hc,hch⟩ (fun _ => rfl) fun _ _ => ?_
      refine step_obeys trivial (fun _ => rfl) fun _ _ => ?_
      exact obeys_pure trivial
    | .error (.invalid server reason) =>
      obtain ⟨m,clock,hh,hc,hch⟩ := hr server _ (.inl ⟨reason,rfl,rfl⟩)
      refine step_obeys ⟨_,anchors,m,clock,ha,hh,hc,hch⟩ (fun _ => rfl) fun _ _ => ?_
      exact obeys_pure trivial
    | .error (.unreachable e) => exact obeys_throw

variable {state : TrustState} {trust : Option TrustState}

theorem keyInsert_obeys {ttl : Nat} :
    Obeys (discipline cfg limit I) past
      (do keyInsert zone state ttl; return Except.ok state : Lookup (Except Verdict TrustState))
      fun now r => ∀ state,r=.ok state → TrustKnown now zone := by
  refine step_obeys trivial (fun _ => rfl) fun _ _ => ?_
  exact obeys_pure fun _ _ => ⟨state,.inl ⟨ttl,mem_concat_self⟩⟩

theorem crossCut_obeys {parentKeys : List Dnskey} {dsSection denialSection : List Record}
    {now : UInt32} (ha : Askable past child) :
    Obeys (discipline cfg limit I) past
      (crossCut cfg qclass parent child parentKeys dsSection denialSection servers now)
      fun now r => ∀ state,r=.ok state → TrustKnown now child := by
  unfold crossCut
  dsimp only
  split
  · split
    · exact keyInsert_obeys
    · exact obeys_pure nofun
  · split
    · exact obeys_pure nofun
    · split
      · exact keyInsert_obeys
      · refine Obeys.bind (fetchDnskeys_obeys ha) fun later r _ _ => ?_
        cases r with
        | ok validated => exact keyInsert_obeys
        | error e => exact obeys_pure nofun

theorem extendTrust_obeys {parentTrust : Option TrustState} {authority : List Record}
    (ha : Askable past child) :
    Obeys (discipline cfg limit I) past (extendTrust cfg qclass parent child parentTrust authority servers)
      fun now outcome => ∀ state,outcome=.trust state → parentTrust.isSome=true →
        state.isSome=true ∧ TrustKnown now child := by
  match parentTrust with
  | none => exact obeys_pure fun _ _ hso => by cases hso
  | some .insecure =>
    refine step_obeys trivial (fun _ => rfl) fun _ _ => ?_
    refine obeys_pure fun state hs _ => ?_
    cases hs
    exact ⟨rfl,.insecure,.inl ⟨_,mem_concat_self⟩⟩
  | some (.secure parentKeys) =>
    refine step_obeys trivial (fun _ => rfl) fun known _ => ?_
    cases known with
    | some known =>
      refine obeys_pure fun state hs _ => ?_
      cases hs
      exact ⟨rfl,known,.inr (by simp)⟩
    | none =>
      refine step_obeys trivial (fun _ => rfl) fun clock _ => ?_
      cases clock with
      | none => exact obeys_pure nofun
      | some now =>
        refine Obeys.bind (crossCut_obeys ((ha.append _).append _)) fun later r _ hr => ?_
        cases r with
        | error v => exact obeys_pure nofun
        | ok established =>
          refine obeys_pure fun state hs _ => ?_
          cases hs
          exact ⟨rfl,hr established rfl⟩

theorem descendFrom_obeys {cuts : List Name} (has : ∀ cut∈cuts,Askable past cut) :
    Obeys (discipline cfg limit I) past (descendFrom cfg qclass servers cuts parent state) fun _ _ => True := by
  induction cuts generalizing past parent state with
  | nil => exact obeys_pure trivial
  | cons cut cuts ih =>
    obtain ⟨hct,hcu⟩ := forall_mem_cons.mp has
    refine step_obeys trivial (fun _ => rfl) fun known _ => ?_
    cases known with
    | some known => exact ih fun c hc => (hcu c hc).append _
    | none =>
      cases state with
      | insecure =>
        refine step_obeys trivial (fun _ => rfl) fun _ _ => ?_
        exact ih fun c hc => ((hcu c hc).append _).append _
      | secure parentKeys =>
        refine step_obeys trivial (fun _ => rfl) fun clock _ => ?_
        cases clock with
        | none => exact obeys_pure trivial
        | some now =>
          have hct' := (hct.append [⟨.keyGet cut,none⟩]).append [⟨.nowSecs,some now⟩]
          have hcu' := fun c hc => ((hcu c hc).append [⟨.keyGet cut,none⟩]).append [⟨.nowSecs,some now⟩]
          refine Obeys.bind ((queryServers_obeys hct').attempt (Q := fun _ _ => True) (by simp) (by simp))
            fun asked r ha _ => ?_
          cases r with
          | error e => exact obeys_pure trivial
          | ok answered =>
            refine Obeys.bind (crossCut_obeys (hct'.mono ha)) fun crossed r hcr _ => ?_
            cases r with
            | error v => exact obeys_pure trivial
            | ok next => exact ih fun c hc => ((hcu' c hc).mono ha).mono hcr

theorem keysFor_obeys {records : List Record}
    (ha : ∀ signer,signerBelow records zone=some signer → ∀ cut∈cutsBetween zone signer,Askable past cut) :
    Obeys (discipline cfg limit I) past (keysFor cfg qclass zone records trust servers) fun _ _ => True := by
  unfold keysFor
  split
  · exact obeys_pure trivial
  · split
    · exact obeys_pure trivial
    · rename_i signer hs
      have hd : Obeys (discipline cfg limit I) past (descendTo cfg qclass zone signer trust servers)
        fun _ _ => True := by
        unfold descendTo
        split
        · exact obeys_pure trivial
        · exact obeys_pure trivial
        · split
          · exact obeys_pure trivial
          · dsimp only
            split
            · exact obeys_pure trivial
            · exact descendFrom_obeys (ha signer hs)
      refine Obeys.bind hd fun now outcome _ _ => ?_
      cases outcome with
      | trust state | failed v => exact obeys_pure trivial

theorem validateWith_obeys {check : List Dnskey → UInt32 → Verdict} :
    Obeys (discipline cfg limit I) past (validateWith trust check) fun _ _ => True := by
  unfold validateWith
  split
  · exact obeys_pure trivial
  · refine step_obeys trivial (fun _ => rfl) fun clock _ => ?_
    cases clock with
    | none | some now => exact obeys_pure trivial

end

end RolodexDns.LookupHistories
