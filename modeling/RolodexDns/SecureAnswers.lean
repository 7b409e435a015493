import RolodexDns.ChainOfTrust

/-! What a secure answer rests on. The verdict covers every record of the answer section, but nothing
compares the section with the question: an answer is the one that was asked for exactly as far as the
servers keep to the topic. -/
namespace RolodexDns.SecureAnswers
open DomainNames DnsRecords ValidationVerdicts SignatureValidation DenialChains List
open ResolverCaches ResolverWorld ResponseReading IterativeResolver ResolverExecution ResolverContracts
open TrustContracts LookupContracts ChainOfTrust TaskPools

variable (answers : List Record)

def Aliases (a b : Name) : Prop := ∃ r∈answers,r.name=a ∧ r.data=.cname b

/-- A record of type `t` is data for a question of type `qtype`. -/
def DataFor (qtype t : RecordType) : Prop := (t=qtype ∨ qtype=.ANY) ∧ t ≠ .RRSIG

/-- A chain of CNAMEs in the section leads from the name to data for the question. -/
def Leads (qtype : RecordType) (name : Name) : Prop :=
  ∃ e,Relation.ReflTransGen (Aliases answers) name e ∧
    ∃ r∈answers,r.name=e ∧ DataFor qtype r.recordType

variable (val : Validation) (log : ResolverLog) (name : Name)

/-- A record, up to its TTL, of an RRset signed by the validated keys of a zone around its owner. -/
def Authenticated (r : Record) : Prop :=
  ∃ zone keys,zone.zoneOf r.name=true ∧ Chained val log zone (.secure keys) ∧
    ∃ original rrset now facts sig key,original∈rrset ∧ original.setTtl r.ttl=r ∧ ClockRead log now ∧
      SignedBy val.lib r.name r.recordType rrset keys zone now facts sig key

/-- A response keeps to its question: its signers enclose what they sign, its answer leads from the
name to data of the type, and its alias is one of the name. -/
structure OnTopic (name : Name) (qtype : RecordType) (m : Message) : Prop where
  signers : ∀ r∈m.answers,∀ sig,r.data=.rrsig sig → sig.signerName.zoneOf r.name=true
  data : ∀ records,classify m qtype=.answer records → Leads records qtype name
  target : ∀ target records,classify m qtype=.cname target records →
    Relation.ReflTransGen (Aliases records) name target

/-- A type that lookups of the run are for; nameserver addresses are looked up as well. -/
def Asked (t : RecordType) : Prop :=
  t=.A ∨ ∃ hints name qclass,.started (.resolve hints name t qclass)∈log

def Denied (qtype : RecordType) : Prop :=
  ∃ m rcode soa,RepliedTo log name qtype m ∧ classify m qtype=.negative rcode soa

/-- Every response of the run keeps to its question, no alias leads to a denied name, and the types
asked for print differently. -/
structure Orderly (lib : Library) (log : ResolverLog) : Prop where
  onTopic : ∀ name qtype m,RepliedTo log name qtype m → OnTopic name qtype m
  aliases : ∀ name qtype m target records,RepliedTo log name qtype m →
    classify m qtype=.cname target records → ¬ Denied log target qtype
  types : ∀ t t' name m,Asked log t → RepliedTo log name t' m → lib.typeText t'=lib.typeText t → t'=t

section
variable {answers answers' : List Record} {qtype : RecordType} {name : Name}

private theorem aliases_mono (hs : answers⊆answers') : Aliases answers ≤ Aliases answers' := by
  rintro a b ⟨r,hr,hl⟩
  exact ⟨r,hs hr,hl⟩

private theorem not_aliases (h : ∀ r∈answers,r.data.asCname=none) (a b : Name) : ¬ Aliases answers a b := by
  rintro ⟨r,hr,-,hd⟩
  have hn := h r hr
  rw [hd] at hn
  cases hn

theorem Leads.setTtl (h : Leads answers qtype name) (ttl : Nat) :
    Leads (answers.map (·.setTtl ttl)) qtype name := by
  obtain ⟨e,hp,r,hr,hd⟩ := h
  have hl : ∀ a b,Aliases answers a b → Aliases (answers.map (·.setTtl ttl)) a b := by
    rintro a b ⟨x,hx,hl⟩
    exact ⟨x.setTtl ttl,mem_map_of_mem hx,hl⟩
  exact ⟨e,Relation.ReflTransGen.mono hl _ _ hp,r.setTtl ttl,mem_map_of_mem hr,hd⟩

theorem Leads.of_alias {target : Name} (hp : Relation.ReflTransGen (Aliases answers) name target)
    (h : Leads answers' qtype target) : Leads (answers++answers') qtype name := by
  obtain ⟨e,hre,r,hr,hd⟩ := h
  have hf : Relation.ReflTransGen (Aliases (answers++answers')) name target :=
    Relation.ReflTransGen.mono (aliases_mono (subset_append_left _ _)) _ _ hp
  have hs : Relation.ReflTransGen (Aliases (answers++answers')) target e :=
    Relation.ReflTransGen.mono (aliases_mono (subset_append_right _ _)) _ _ hre
  exact ⟨e,hf.trans hs,r,mem_append_right _ hr,hd⟩

theorem Authenticated.setTtl {val : Validation} {log : ResolverLog} {r : Record} (h : Authenticated val log r)
    (ttl : Nat) : Authenticated val log (r.setTtl ttl) := by
  obtain ⟨zone,keys,hz,hc,original,rrset,now,facts,sig,key,hm,heq,hcl,hby⟩ := h
  refine ⟨zone,keys,hz,hc,original,rrset,now,facts,sig,key,hm,?_,hcl,hby⟩
  rw [← heq]
  rfl

end

section
variable {lib : Library} {sigs records authority : List Record} {keys : List Dnskey} {zone qname : Name}
  {now : UInt32} {qtype : RecordType}

private theorem verifySets_ok {sets : List Rrset} {wildcards : List (Name × Name)}
    (h : verifySets lib sigs keys zone now sets=.ok wildcards) :
    ∀ g∈sets,∃ facts,verifyRrset lib g.owner g.rtype g.records sigs keys zone now=.ok facts := by
  induction sets generalizing wildcards with
  | nil => simp
  | cons g gs ih =>
    unfold verifySets at h
    split at h
    · cases h
    · rename_i facts hv
      split at h
      · cases h
      · rename_i rest hr
        intro x hx
        rcases mem_cons.mp hx with rfl | hx
        · exact ⟨facts,hv⟩
        · exact ih hr x hx

/-- Behind a secure verdict every RRset of the section is verified. -/
theorem answerVerdict_secure (h : answerVerdict lib qname qtype records authority zone keys now=.secure) :
    ∀ g∈(groupRrsets records).1,∃ facts,
      verifyRrset lib g.owner g.rtype g.records (groupRrsets records).2 keys zone now=.ok facts := by
  unfold answerVerdict at h
  simp only at h
  split_ifs at h with he
  · have hn : (groupRrsets records).1=[] := by simpa using he
    simp [hn]
  · split at h
    · cases h
    · rename_i hv
      exact verifySets_ok hv
    · rename_i hv
      exact verifySets_ok hv

/-- Each record behind it is signed in the name of the zone by a signature of the section. -/
theorem answerVerdict_signed (h : answerVerdict lib qname qtype records authority zone keys now=.secure)
    {r : Record} (hr : r∈records) (ht : r.recordType ≠ .RRSIG) :
    ∃ rrset facts sig key,r∈rrset ∧ SignedBy lib r.name r.recordType rrset keys zone now facts sig key ∧
      ∃ s∈records,s.name=r.name ∧ s.data=.rrsig sig := by
  have hgr := groupRrsets_groupsOf records
  obtain ⟨g,hg,hrg⟩ := hgr.complete r hr ht
  obtain ⟨-,hn,hrt⟩ := hgr.sound g hg r hrg
  obtain ⟨facts,hv⟩ := answerVerdict_secure h g hg
  obtain ⟨-,sig,hsi,key,hby⟩ := verifyRrset_ok hv
  obtain ⟨⟨s,hs,hsn,hsd⟩,-⟩ := mem_coveringRrsigs.mp hsi
  rw [groupRrsets_snd] at hs
  rw [hn,hrt]
  exact ⟨g.records,facts,sig,key,hrg,hby,s,(mem_filter.mp hs).1,hsn,hsd⟩

end

def AllAuthenticated (records : List Record) : Prop :=
  ∀ r∈records,r.recordType ≠ .RRSIG → Authenticated val log r

/-- A secure result is authenticated, and leads to data for the question or was denied. -/
def SecureResult (qtype : RecordType)
    (res : Resolution) : Prop :=
  res.verdict=.secure → AllAuthenticated val log res.answers ∧
    (Leads res.answers qtype name ∨ res.answers=[] ∧ Denied log name qtype)

/-- The facts of a run, with the secure entries of the record cache backed by the run. -/
def secureFacts : Facts where
  asked := Asked log
  trusted := Chained val log
  cached := fun name text records secure => secure=true → AllAuthenticated val log records ∧
    ∃ t m,val.lib.typeText t=text ∧ RepliedTo log name t m ∧ Leads records t name
  delegated := fun _ _ => True
  received := Received log
  clock := ClockRead log

section
variable {val : Validation} {log : ResolverLog}

private theorem authenticated_of_verdict {name qname current zone : Name} {qtype : RecordType} {m : Message}
    {trust state : Option TrustState} {records : List Record} (ht : OnTopic name qtype m)
    (hre : records=m.answers) (hj : JudgedBy (secureFacts val log) val current trust records zone state)
    {t : RecordType} {v : Verdict}
    (hve : VerdictOf (secureFacts val log) state
      (answerVerdict val.lib qname t records m.nameServers zone) v) (hv : v=.secure) :
    AllAuthenticated val log records := by
  intro r hr hty
  rcases hve with ⟨-,hi⟩ | ⟨keys,now,hst,hc,hch⟩
  · rw [hi] at hv
    cases hv
  · obtain ⟨rrset,facts,sig,key,hm,hby,s,hs,hn,hd⟩ :=
      answerVerdict_signed (hch.symm.trans hv) hr hty
    have hz := ht.signers s (hre ▸ hs) sig hd
    rw [hby.signer,hn] at hz
    exact ⟨zone,keys,hz,hj.trusted _ hst,r,rrset,now,facts,sig,key,hm,rfl,hc,hby⟩

private theorem secure_laws (ho : Orderly val.lib log) :
    Laws val (secureFacts val log) (SecureResult val log) := by
  constructor
  case toTrustLaws => exact chained_laws rfl rfl rfl
  case address => exact Or.inl rfl
  case refused => exact fun _ _ hv => by cases hv
  case hit =>
    intro name qtype stored secure ttl has hc hv
    cases secure with
    | false => cases hv
    | true =>
      obtain ⟨ha,t,m,hte,hrp,hl⟩ := hc rfl
      have ht : t=qtype := ho.types qtype t name m has hrp hte
      refine ⟨fun r hr hty => ?_,Or.inl (ht ▸ hl.setTtl ttl)⟩
      obtain ⟨x,hx,rfl⟩ := mem_map.mp hr
      exact (ha x hx hty).setTtl ttl
  case withheld =>
    intro name qtype v _ hw hv
    rw [show v=.secure from hv] at hw
    cases hw
  case answered =>
    intro name qtype qclass server m records current trust zone state v _ hrp hk _ hj hve _
    have hre : RepliedTo log name qtype m := Reply.repliedTo rfl hrp
    have hto := ho.onTopic name qtype m hre
    have ha := authenticated_of_verdict hto (classify_spec hk) hj hve
    have hl := hto.data records hk
    exact ⟨fun hv => ⟨ha hv,Or.inl hl⟩,fun _ hse =>
      ⟨ha (by simpa using hse),qtype,m,rfl,hre,hl⟩⟩
  case aliased =>
    intro name qtype qclass server m target records current trust zone state v sub _ hrp hk _ hj
      hve _ hsb _ hv
    have hre : RepliedTo log name qtype m := Reply.repliedTo rfl hrp
    have hto := ho.onTopic name qtype m hre
    obtain ⟨hh,hsu⟩ := Verdict.merge_eq_secure.mp hv
    have ha := authenticated_of_verdict hto (classify_spec hk).1 hj hve hh
    obtain ⟨hs,hl | ⟨-,hd⟩⟩ := hsb hsu
    · refine ⟨fun r hr hty => ?_,Or.inl (hl.of_alias (hto.target target records hk))⟩
      rcases mem_append.mp hr with hr | hr
      · exact ha r hr hty
      · exact hs r hr hty
    · exact absurd hd (ho.aliases name qtype m target records hre hk)
  case negative =>
    intro name qtype qclass server m rcode soa current trust zone state v _ hrp hk _ _ _ _ _
    exact ⟨by simp [AllAuthenticated],Or.inr ⟨rfl,m,rcode,soa,Reply.repliedTo rfl hrp,hk⟩⟩
  case referred => exact fun _ _ _ _ _ _ _ _ => ⟨trivial,fun _ _ => nofun⟩
  case primed => exact fun _ _ => ⟨trivial,fun _ _ => nofun⟩

end

/-- In a run whose responses keep to their questions, a secure answer is the one asked for: all of
it is authenticated, and it leads from the name to data of the type. -/
theorem secure_answer_leads {cfg : Config} {delegations : DelegationCache} {clock : Nat}
    {P : ResolverPool}
    (hrun : Run (resolver cfg) (.initial (.fresh delegations clock)) P) (hord : Orderly cfg.lib P.log)
    {hints : List IpAddr} {name : Name} {qtype : RecordType} {qclass : DnsClass} {res : Resolution}
    (hfin : .finished (.resolve hints name qtype qclass) (some (.ok res))∈P.log)
    (hsecure : res.verdict=.secure) (hanswers : res.answers≠[]) :
    Leads res.answers qtype name ∧ AllAuthenticated cfg.toValidation P.log res.answers := by
  have hh := run_holds (secure_laws hord) (Facts.hold_fresh fun _ _ => trivial) hrun (cover_of_log rfl rfl)
    fun hints name t qclass h =>
    ⟨Or.inr ⟨hints,name,qclass,h⟩,serving_delegated (Name.root_zoneOf .root) trivial⟩
  obtain ⟨ha,hl | ⟨he,-⟩⟩ := hh.2 hints name qtype qclass res hfin hsecure
  · exact ⟨hl,ha⟩
  · exact absurd he hanswers

def addressNetwork : Network := fun _ q =>
  if q.qtype=.A then some (toyReply q .NoError [toyRecord q.name (.a 7),toySig q.name .A .root [1]] [] [])
  else if q.name=.root ∧ q.qtype=.DNSKEY then some (toyReply q .NoError (toyDnskeys .root [1]) [] [])
  else none

def addressJobs : List (Network × Job) := [(addressNetwork,.resolve [.v4 1] (toyName [[97]]) .A .IN)]

def addressRun : World × ResolverLog := runJobs toyConfig 5 addressJobs (.fresh [] 0) []

private theorem addressRun_replies : ∀ x∈replies addressRun.2,classify x.2.2 x.2.1=.answer x.2.2.answers ∧
    (∀ r∈x.2.2.answers,∀ sig∈r.data.asRrsig,sig.signerName.zoneOf r.name=true) ∧
    (∃ r∈x.2.2.answers,r.name=x.1 ∧ r.recordType=x.2.1) ∧ (x.2.1=.A ∨ x.2.1=.DNSKEY) := by
  decide +kernel

private theorem addressRun_asked {t : RecordType} (h : Asked addressRun.2 t) : t=.A := by
  rcases h with rfl | ⟨hints,name,qclass,hs⟩
  · rfl
  · obtain hn | ⟨entry,hen,he⟩ := mem_runJobs hs
    · cases hn
    · rw [mem_singleton.mp hen] at he
      cases he
      rfl

private theorem addressRun_orderly : Orderly toyConfig.lib addressRun.2 := by
  refine ⟨fun name qtype m h => ?_,fun name qtype m target records h hk => ?_,
    fun t t' name m has h ht => ?_⟩ <;>
    obtain ⟨ha,hs,⟨r,hr,hn,hty⟩,hc⟩ := addressRun_replies _ h.mem_replies
  · refine ⟨fun r hr sig hd => hs r hr sig (by rw [hd]; rfl),fun records hk => ?_,fun target records hk => ?_⟩
    · cases ha.symm.trans hk
      refine ⟨name,.refl,r,hr,hn,Or.inl hty,fun hsi => ?_⟩
      rcases hc with h | h <;> cases (hty.trans h).symm.trans hsi
    · cases ha.symm.trans hk
  · cases ha.symm.trans hk
  · rw [addressRun_asked has] at ht ⊢
    rcases hc with rfl | rfl
    · rfl
    · cases ht

theorem secure_answer_leads_address :
    .finished (.resolve [.v4 1] (toyName [[97]]) .A .IN) (some (.ok ⟨.NoError,
        [toyRecord (toyName [[97]]) (.a 7),toySig (toyName [[97]]) .A .root [1]],none,.secure⟩))∈addressRun.2 ∧
      Leads [toyRecord (toyName [[97]]) (.a 7),toySig (toyName [[97]]) .A .root [1]] .A (toyName [[97]]) := by
  have hr : Run (resolver toyConfig) (.initial (.fresh [] 0)) ⟨addressRun.1,[],addressRun.2⟩ :=
    runJobs_run toyConfig 5 _ _ _
  have hf : .finished (.resolve [.v4 1] (toyName [[97]]) .A .IN) (some (.ok ⟨.NoError,
      [toyRecord (toyName [[97]]) (.a 7),toySig (toyName [[97]]) .A .root [1]],none,.secure⟩))∈addressRun.2 :=
    mem_results.mpr (by decide)
  exact ⟨hf,(secure_answer_leads hr addressRun_orderly hf rfl (by decide)).1⟩

/-- A root zone whose key verifies nothing but the two RRsets it publishes: its keys and one address. -/
def publishedLibrary : Library :=
  { toyLibrary with
    verifyRrsig := fun key owner _ sig records => sig.sig=key.publicKey &&
      ((owner=.root && records=[toyRecord .root (.dnskey (toyKey [1]))]) ||
        (owner=toyName [[98]] && records=[toyRecord (toyName [[98]]) (.a 7)])) }

def publishedConfig : Config := { toyConfig with lib := publishedLibrary }

def replayNetwork : Network := fun _ q =>
  if q.qtype=.DNSKEY then some (toyReply q .NoError (toyDnskeys .root [1]) [] [])
  else some (toyReply q .NoError [toyRecord (toyName [[98]]) (.a 7),toySig (toyName [[98]]) .A .root [1]] [] [])

def replayRun : World × ResolverLog :=
  runJobs publishedConfig 5 [(replayNetwork,.resolve [.v4 1] (toyName [[97]]) .A .IN)] (.fresh [] 0) []

/-- The genuine address of one name is a secure answer for another. -/
theorem secure_answer_offTopic : ∃ P res,Run (resolver publishedConfig) (.initial (.fresh [] 0)) P ∧
    .finished (.resolve [.v4 1] (toyName [[97]]) .A .IN) (some (.ok res))∈P.log ∧
    res.verdict=.secure ∧ res.answers≠[] ∧ ¬ Leads res.answers .A (toyName [[97]]) := by
  have hru : Run (resolver publishedConfig) (.initial (.fresh [] 0)) ⟨replayRun.1,[],replayRun.2⟩ :=
    runJobs_run publishedConfig 5 _ _ _
  refine ⟨_,⟨.NoError,[toyRecord (toyName [[98]]) (.a 7),toySig (toyName [[98]]) .A .root [1]],none,
    .secure⟩,hru,mem_results.mpr (by decide),rfl,by decide,?_⟩
  rintro ⟨e,hp,r,hr,hn,-⟩
  rcases Relation.ReflTransGen.cases_head hp with rfl | ⟨b,hl,-⟩
  · exact absurd hn (by revert r; decide)
  · exact not_aliases (by decide) _ _ hl

end RolodexDns.SecureAnswers
