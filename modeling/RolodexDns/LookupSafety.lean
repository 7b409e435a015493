import RolodexDns.InsecureAnswers
import RolodexDns.WalkHistories

/-! What no reply can make a lookup do: remember a delegation or glue that was not its sender's to
give, or send more queries than it is allowed. -/
namespace RolodexDns.LookupSafety
open DomainNames DnsRecords ValidationVerdicts ResolverWorld ResponseReading IterativeResolver List
open TrustContracts ProgramTrees ProgramTraces HistoryContracts LookupHistories WalkHistories ResolverExecution
open InsecureAnswers DenialChains

/-- The operation can give this in some world. -/
def Possible (cfg : Config) (e : (o : Op) × Res o) : Prop := ∃ w w',acts cfg w e.1 e.2 w'

section
variable {start : Name → Name} {cfg : Config} {log : LookupLog} {name : Name} {qtype : RecordType} {zone : Name}
  {servers : List IpAddr} {visited : List Name}

theorem below_of_refers {child : Name} {glue : List Record} {targets : List Name} {ttl : Nat}
    (h : Refers log name qtype zone servers child glue targets ttl) : Below zone child ∧ child.zoneOf name=true := by
  have hb := h.inBailiwick
  simp only [referralInBailiwick,Bool.and_eq_true,decide_eq_true_eq] at hb
  exact ⟨⟨hb.1.1,hb.1.2⟩,hb.2⟩

theorem below_trans {a b c : Name} (hab : Below a b) (hbc : Below b c) : Below a c := by
  refine ⟨Name.zoneOf_trans hab.1 hbc.1,?_⟩
  rintro rfl
  exact hab.2 (Name.zoneOf_antisymm hbc.1 hab.1)

/-- Every zone of a walk lies strictly below all those it came through. -/
theorem walks_descending (h : Walks start cfg log name qtype zone servers visited) :
    (zone::visited).Pairwise fun inner outer => Below outer inner := by
  induction h with
  | roots | cached => exact pairwise_singleton _ _
  | referred _ hr _ ih =>
    have hb := (below_of_refers hr).1
    refine pairwise_cons.mpr ⟨fun outer ho => ?_,ih⟩
    rcases mem_cons.mp ho with rfl | ho
    · exact hb
    · exact below_trans ((pairwise_cons.mp ih).1 outer ho) hb

/-- When validating, or where every cached zone that was matched reads back from its text, a walk starts in
that zone. -/
theorem walks_of_startZone (h : Walks (startZone cfg) cfg log name qtype zone servers visited)
    (hre : cfg.validating=true ∨ ∀ name zone known,⟨.delegationMatch name,some (zone,known)⟩∈log →
      cfg.lib.textParses zone=true) :
    Walks id cfg log name qtype zone servers visited := by
  induction h with
  | roots hs => exact .roots hs
  | @cached zone known servers hm hv hs =>
    have ht : cfg.lib.textParses zone=true := hre.elim hv fun h => h _ _ _ hm
    rw [startZone,if_pos ht]
    exact @Walks.cached id cfg log name qtype zone known servers hm hv hs
  | referred _ hr hi ih => exact .referred ih hr hi

end

/-- Every delegation in the log was learned at the end of a walk for a name below it, from a server in
use for a zone above it, where a cached server is in use for the zone it is cached for, and when validating
after the trust in it was known; every record in it answers the question it is kept under or is glue. -/
structure KeepsBailiwick (cfg : Config) (log : LookupLog) : Prop where
  delegations : ∀ {before child next ttl after},log=before++⟨.delegationInsert child next ttl,()⟩::after →
    ∃ name qtype zone servers visited glue targets,Walks id cfg before name qtype zone servers visited ∧
      Refers before name qtype zone servers child glue targets ttl ∧ Below zone child ∧ child.zoneOf name=true ∧
      (child::zone::visited).Pairwise (fun inner outer => Below outer inner) ∧
      (glueAddresses (ownGlue zone glue)≠[] → next=glueAddresses (ownGlue zone glue)) ∧
      (cfg.validating=true → TrustKnown before child)
  records : ∀ {before owner rtype records secure after},
    log=before++⟨.recordInsert owner rtype records secure,()⟩::after →
    IsAnswer before owner rtype records ∨ IsGlue id cfg before owner rtype records

/-- Priming remembers nothing but the root's own nameservers and their addresses. -/
structure KeepsRoot (log : LookupLog) : Prop where
  delegations : ∀ {before child next ttl after},log=before++⟨.delegationInsert child next ttl,()⟩::after →
    child=.root
  records : ∀ {before owner rtype records secure after},
    log=before++⟨.recordInsert owner rtype records secure,()⟩::after → IsRootGlue before owner rtype records

variable {cfg : Config}

variable {qclass : DnsClass} {log : LookupLog} {e : (o : Op) × Res o}

theorem resolve_keepsBailiwick {name : Name} {qtype : RecordType}
    {r : Except ResolveError Resolution} (h : Yields (resolve cfg name qtype qclass) log r)
    (hl : ∀ e∈log,Possible cfg e) (hre : cfg.validating=true ∨ ∀ name zone known,
      ⟨.delegationMatch name,some (zone,known)⟩∈log → cfg.lib.textParses zone=true) : KeepsBailiwick cfg log := by
  have ha := ((resolve_keeps cfg name qtype qclass).of_yields h hl).1
  have hbe {before after : LookupLog} (hs : log=before++after) : cfg.validating=true ∨ ∀ name zone known,
      ⟨.delegationMatch name,some (zone,known)⟩∈before → cfg.lib.textParses zone=true :=
    hre.imp_right fun h name zone known hm => h name zone known (hs ▸ mem_append_left _ hm)
  constructor
  case delegations =>
    intro before child next ttl after hs
    obtain ⟨name,qtype,zone,servers,visited,glue,targets,hst,hr,hn,ht⟩ := ha before _ after hs
    have hw := walks_of_startZone hst (hbe hs)
    obtain ⟨hb,hna⟩ := below_of_refers hr
    refine ⟨name,qtype,zone,servers,visited,glue,targets,hw,hr,hb,hna,?_,hn,ht⟩
    refine pairwise_cons.mpr ⟨fun outer ho => ?_,walks_descending hw⟩
    rcases mem_cons.mp ho with rfl | ho
    · exact hb
    · exact below_trans ((pairwise_cons.mp (walks_descending hw)).1 outer ho) hb
  case records =>
    intro before owner rtype records secure after hs
    refine (ha before _ after hs).imp_right fun ⟨name,qtype,zone,servers,visited,child,glue,targets,ttl,hst,hrs⟩ => ?_
    exact ⟨name,qtype,zone,servers,visited,child,glue,targets,ttl,walks_of_startZone hst (hbe hs),hrs⟩

theorem primeRoots_keepsRoot {budget : Nat}
    {r : Except ResolveError Unit × Nat} (h : Yields (primeRoots cfg qclass budget) log r)
    (hl : ∀ e∈log,Possible cfg e) : KeepsRoot log := by
  have hk : Keeps (discipline cfg budget primingInserts) [] (primeRoots cfg qclass budget) _ :=
    primeRoots_obeys budget (Nat.zero_add _).le
  have ha := (hk.of_yields h hl).1
  exact ⟨fun hs => ha _ _ _ hs,fun hs => ha _ _ _ hs⟩

theorem possible_rootHints {hints : List IpAddr} (h : Possible cfg e) :
    Possible { cfg with rootHints := hints } e := by
  obtain ⟨o,r⟩ := e
  obtain ⟨w,w',ha⟩ := h
  exact ⟨w,w',by cases o <;> exact ha⟩

theorem possible_of_respond {net : Network} {now : UInt32} {α : Type} {p : Prog Op Res α} {w : World}
    (he : e∈(answeredIn (respond cfg net now) p w).1) : Possible cfg e := by
  obtain ⟨w,hw⟩ := mem_answeredIn _ he
  refine ⟨w,(respond cfg net now w e.1).2,?_⟩
  rw [hw]
  exact respond_acts cfg net now w e.1

/-- Whatever the network and the caches give, what a job leaves in the caches is in bailiwick, if it validates or reads
every zone of the cache that it comes upon. -/
theorem job_bailiwick {job : Job} {log : LookupLog} {r : JobResult}
    (h : Yields (job.program cfg) log r) (hlog : ∀ e∈log,Possible cfg e) (hread : cfg.validating=true ∨
      ∀ name zone known,⟨.delegationMatch name,some (zone,known)⟩∈log → cfg.lib.textParses zone=true) :
    (∀ hints name qtype qclass,job=.resolve hints name qtype qclass →
      KeepsBailiwick { cfg with rootHints := hints } log) ∧
      ∀ hints qclass,job=.primeRoots hints qclass → KeepsRoot log := by
  constructor
  · rintro hints name qtype qclass rfl
    obtain ⟨res,first,rest,hf,hr,rfl⟩ := Yields.bind_inv h
    obtain ⟨rfl,rfl⟩ := Yields.pure_inv hr
    rw [append_nil] at hlog hread ⊢
    exact resolve_keepsBailiwick hf (fun e he => possible_rootHints (hlog e he)) hread
  · rintro hints qclass rfl
    obtain ⟨res,first,rest,hf,hr,rfl⟩ := Yields.bind_inv h
    obtain ⟨rfl,rfl⟩ := Yields.pure_inv hr
    rw [append_nil] at hlog ⊢
    exact primeRoots_keepsRoot hf fun e he => possible_rootHints (hlog e he)

def unsignedLookup : Prog Op Res JobResult :=
  Job.program toyConfig (.resolve [.v4 1] tldHost .A .IN)

def unsignedTrace : LookupLog × JobResult :=
  answeredIn (respond toyConfig unsignedNetwork 5) unsignedLookup (.fresh [] 0)

/-- It learns the domain's delegation, and that one is in bailiwick. -/
theorem job_bailiwick_unsigned :
    (unsignedTrace.1.any fun e => match e.1 with
      | .delegationInsert zone servers _ => zone=tld && servers=[.v4 2]
      | _ => false)=true ∧
      KeepsBailiwick toyConfig unsignedTrace.1 :=
  ⟨by decide +kernel,
    (job_bailiwick (yields_answeredIn _ unsignedLookup _) (fun _ => possible_of_respond) (.inl rfl)).1 _ _ _ _ rfl⟩

/-- `-x.evil.com.`, whose text does not read back. -/
def misreadZone : Name := toyName [[45,120],[101,118,105,108],[99,111,109]]

def misreadHost : Name := toyName [[122],[45,120],[101,118,105,108],[99,111,109]]

def dotCom : Name := toyName [[99,111,109]]

def misreadConfig : Config :=
  { toyConfig with anchors := none, lib := { toyLibrary with textParses := fun name => name≠misreadZone } }

/-- The server of the zone answers everything with a referral to `com.`. -/
def misreadNetwork : Network := fun server q =>
  if server=.v4 9 then
    some (toyReply q .NoError [] [toyRecord dotCom (.ns (toyName [[110],[99,111,109]]))]
      [toyRecord (toyName [[110],[99,111,109]]) (.a 66)])
  else none

def misreadTrace : LookupLog × JobResult :=
  answeredIn (respond misreadConfig misreadNetwork 5) (Job.program misreadConfig (.resolve [.v4 1] misreadHost .A .IN))
    (.fresh [(misreadZone,⟨[.v4 9],300⟩)] 0)

/-- What is heard comes from the server of the zone, and `com.` is all that is learned. -/
def misreadEvent : ((o : Op) × Res o) → Bool
  | ⟨.sendUdp server _,some _⟩ | ⟨.sendTcp server _,some _⟩ => server=.v4 9
  | ⟨.delegationMatch _,some (zone,_)⟩ => zone=misreadZone
  | ⟨.delegationInsert zone _ _,_⟩ => zone=dotCom
  | _ => true

/-- Without validation the servers of that zone are taken for the root's, and plant `com.`. -/
theorem job_bailiwick_misread :
    Yields (Job.program misreadConfig (.resolve [.v4 1] misreadHost .A .IN)) misreadTrace.1 misreadTrace.2 ∧
      (∀ e∈misreadTrace.1,Possible misreadConfig e) ∧ ⟨.delegationInsert dotCom [.v4 66] 300,()⟩∈misreadTrace.1 ∧
      ¬ KeepsBailiwick { misreadConfig with rootHints := [.v4 1] } misreadTrace.1 := by
  have hi : ⟨.delegationInsert dotCom [.v4 66] 300,()⟩∈misreadTrace.1 := by
    have ha : (misreadTrace.1.any fun e => match e.1 with
      | .delegationInsert zone servers ttl => zone=dotCom && servers=[.v4 66] && ttl=300
      | _ => false)=true := by decide +kernel
    obtain ⟨⟨o,r⟩,he,hm⟩ := any_eq_true.mp ha
    cases o <;> try cases hm
    simp only [Bool.and_eq_true,decide_eq_true_eq] at hm
    obtain ⟨⟨rfl,rfl⟩,rfl⟩ := hm
    exact he
  have hal : ∀ e∈misreadTrace.1,misreadEvent e=true := all_eq_true.mp (by decide +kernel)
  refine ⟨yields_answeredIn _ _ _,fun _ => possible_of_respond,hi,fun h => ?_⟩
  obtain ⟨before,after,hs⟩ := append_of_mem hi
  have hb (e : (o : Op) × Res o) (he : e∈before) : misreadEvent e=true := hal e (hs ▸ mem_append_left _ he)
  obtain ⟨name,qtype,zone,servers,visited,glue,targets,hw,hr,-⟩ := h.delegations hs
  obtain ⟨⟨server,hse,m,⟨id,qclass,dnssecOk,hsn,-⟩,-⟩,hba⟩ := hr
  have hn : server=.v4 9 := hsn.elim (fun h => of_decide_eq_true (hb _ h)) fun h => of_decide_eq_true (hb _ h.1)
  have hbe : zone.zoneOf dotCom=true ∧ dotCom≠zone := by
    simp only [referralInBailiwick,Bool.and_eq_true,decide_eq_true_eq] at hba
    exact hba.1
  cases hw with
  | roots hsu => exact absurd (hsu hse) (by rw [hn]; decide)
  | cached hm =>
    rw [of_decide_eq_true (hb _ hm)] at hbe
    exact absurd hbe.1 (by decide)
  | referred _ _ hl => exact hbe.2 (of_decide_eq_true (hb _ hl)).symm

section
variable {cfg : Config} {name : Name} {qtype : RecordType} {qclass : DnsClass} {log : LookupLog}
  {r : Except ResolveError Resolution}

/-- A log in which every query is within the limit has no more queries than the limit. -/
theorem attempts_le {limit : Nat} (h : ∀ before server query reply after,
      log=before++⟨.sendUdp server query,reply⟩::after → attempts before<limit) : attempts log ≤ limit := by
  induction log using reverseRecOn with
  | nil => exact Nat.zero_le _
  | append_singleton log e ih =>
    rw [attempts_append]
    obtain ⟨o,reply⟩ := e
    cases o with
    | sendUdp server query => exact h log server query reply [] rfl
    | _ =>
      refine ih fun before server query answer after hs => h before server query answer (after++[⟨_,reply⟩]) ?_
      rw [hs,append_assoc,cons_append]

/-- A lookup ends, whatever world it runs in, and sends at most 64 queries, or with validation 32
more; a query that is repeated over TCP was truncated just before. -/
theorem resolve_attempts_le :
    (∀ {W : Type} (answer : W → (o : Op) → Res o × W) (w : W),Yields (resolve cfg name qtype qclass)
        (answeredIn answer (resolve cfg name qtype qclass) w).1
          (answeredIn answer (resolve cfg name qtype qclass) w).2) ∧
      ∀ {log r},Yields (resolve cfg name qtype qclass) log r → (∀ e∈log,Possible cfg e) →
        attempts log ≤ 64+(if cfg.validating then validationQueryBudget else 0) ∧
        ∀ before server query reply after,log=before++⟨.sendTcp server query,reply⟩::after →
          ∃ m,before.getLast?=some ⟨.sendUdp server query,some m⟩ ∧ m.truncated=true := by
  refine ⟨fun answer w => yields_answeredIn answer _ w,fun h hl => ?_⟩
  have ha := ((resolve_keeps cfg name qtype qclass).of_yields h hl).1
  have hb : queryBudget cfg=64+(if cfg.validating then validationQueryBudget else 0) := by
    unfold queryBudget
    split <;> rfl
  rw [← hb]
  refine ⟨attempts_le fun before server query reply after hs => ?_,fun before server query reply after hs => ?_⟩
  · exact (ha before _ after hs).1
  · exact ha before _ after hs

/-- The lookup in the unsigned domain sends three queries. -/
theorem resolve_attempts_le_unsigned :
    let log := (answeredIn (respond toyConfig unsignedNetwork 5) (resolve toyConfig tldHost .A .IN) (.fresh [] 0)).1
    attempts log=3 ∧ attempts log ≤ 64+(if toyConfig.validating then validationQueryBudget else 0) := by
  refine ⟨by decide +kernel,(resolve_attempts_le.2 (yields_answeredIn _ _ _) fun e he => ?_).1⟩
  exact possible_of_respond he

end

end RolodexDns.LookupSafety
