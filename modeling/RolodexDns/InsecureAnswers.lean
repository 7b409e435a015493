import RolodexDns.SecureAnswers

/-! What an insecure answer rests on. The verdict should mean that a zone above the data is proven to
be unsigned; glue from the record cache, signers below the zone that do not enclose the name, and
opted-out denials carry it as well. -/
namespace RolodexDns.InsecureAnswers
open DomainNames DnsRecords ValidationVerdicts SignatureValidation DenialProofs VerifiedDenial DenialChains List
open ResolverCaches ResolverWorld ResponseReading IterativeResolver ResolverExecution ResolverContracts
open TrustContracts LookupContracts ChainOfTrust SecureAnswers TaskPools

variable (val : Validation) (log : ResolverLog) (qtype : RecordType) (answers : List Record) (name : Name)

/-- A zone at or above the name is established to be unsigned. -/
def UnsignedAbove : Prop :=
  ∃ zone,zone.zoneOf name=true ∧ Chained val log zone .insecure

/-- The lookup of one name was answered by an alias to the other, and the reply is part of the section. -/
def Followed (a b : Name) : Prop :=
  ∃ m records,RepliedTo log a qtype m ∧ classify m qtype=.cname b records ∧ records⊆answers

/-- The aliases that were followed lead from the name to one below an unsigned zone, or into the
subtree that is never resolved. -/
def Explained : Prop :=
  ∃ e,Relation.ReflTransGen (Followed log qtype answers) name e ∧
    (isArpaSubtree e=true ∨ UnsignedAbove val log e)

inductive Glued (lib : Library) (log : ResolverLog) : Name → List UInt8 → Prop where
  | referral {name qtype m child glue targets ttl r} (reply : RepliedTo log name qtype m)
      (kind : classify m qtype=.referral child glue targets ttl) (mem : r∈glue) :
    Glued lib log r.name (lib.typeText r.recordType)
  | priming {m r} (reply : RepliedTo log .root .NS m)
      (mem : r∈collectGlueRecords m (m.answers.filterMap fun r => r.data.asNs)) :
    Glued lib log r.name (lib.typeText r.recordType)

/-- A response denies what was asked, and the denial can be read as opted out. -/
def OptedOutDenial (lib : Library) (log : ResolverLog) (name : Name) (qtype : RecordType) : Prop :=
  ∃ m rcode soa zone kept,RepliedTo log name qtype m ∧ classify m qtype=.negative rcode soa ∧
    kept⊆m.nameServers ∧
    (if rcode=.NXDomain then proveNxdomain lib name zone (.fromRecords kept)
      else proveNodata lib name qtype zone (.fromRecords kept))=.ok .optedOut

/-- No response is signed by a zone aside from the name or expands a wildcard that is opted out, and
no name asked for, by a client or as the target of an alias, has its answer among the glue. -/
structure Forthright (lib : Library) (log : ResolverLog) : Prop where
  answers : ∀ name qtype m,RepliedTo log name qtype m → ∀ zone signer,
    signerBelow m.answers zone=some signer → signer.zoneOf name=true
  denials : ∀ name qtype m rcode soa,RepliedTo log name qtype m → classify m qtype=.negative rcode soa →
    ∀ zone signer,signerBelow m.nameServers zone=some signer → signer.zoneOf name=true
  expansions : ∀ name qtype m,RepliedTo log name qtype m → ∀ r∈m.answers,∀ encloser kept,
    kept⊆m.nameServers → proveWildcardExpansion lib r.name encloser (.fromRecords kept) ≠ .ok .optedOut
  clients : ∀ hints name qtype qclass,.started (.resolve hints name qtype qclass)∈log →
    ¬ Glued lib log name (lib.typeText qtype)
  aliases : ∀ name qtype m target records,RepliedTo log name qtype m →
    classify m qtype=.cname target records →
    ¬ Glued lib log target (lib.typeText qtype) ∧ ¬ OptedOutDenial lib log target qtype

section
variable {lib : Library} {records authority : List Record} {keys : List Dnskey} {zone qname : Name}
  {now : UInt32} {qtype : RecordType}

variable {wildcards : List (Name × Name)}

private theorem verifySets_owner {sigs : List Record} {sets : List Rrset}
    (h : verifySets lib sigs keys zone now sets=.ok wildcards) : ∀ w∈wildcards,∃ g∈sets,g.owner=w.1 := by
  induction sets generalizing wildcards with
  | nil =>
    cases h
    simp
  | cons g gs ih =>
    unfold verifySets at h
    split at h
    · cases h
    · rename_i facts _
      split at h
      · cases h
      · rename_i rest hr
        cases h
        intro w hw
        rcases mem_append.mp hw with hw | hw
        · obtain ⟨encloser,-,rfl⟩ := Option.map_eq_some_iff.mp (Option.mem_toList.mp hw)
          exact ⟨g,mem_cons_self,rfl⟩
        · obtain ⟨g',hg',ho⟩ := ih hr w hw
          exact ⟨g',mem_cons_of_mem g hg',ho⟩

private theorem proveExpansions_optedOut {denial : Denial}
    (h : proveExpansions lib denial wildcards=.ok .optedOut) :
    ∃ w∈wildcards,proveWildcardExpansion lib w.1 w.2 denial=.ok .optedOut := by
  induction wildcards with
  | nil => cases h
  | cons w wildcards ih =>
    unfold proveExpansions at h
    split at h
    · obtain ⟨w,hw,ho⟩ := ih h
      exact ⟨w,mem_cons_of_mem _ hw,ho⟩
    · rename_i ho
      exact ⟨_,mem_cons_self,ho⟩
    · cases h

private theorem verifiedDenial_subset : ∃ kept,kept⊆authority ∧
    verifiedDenial lib authority zone keys now=.fromRecords kept := by
  obtain ⟨kept,heq,hk⟩ := @verifiedDenial_verified lib authority zone keys now
  exact ⟨kept,fun r hr => (hk r hr).1,heq⟩

/-- Keys in hand, only an opted-out expansion makes an answer insecure. -/
theorem answerVerdict_insecure (h : answerVerdict lib qname qtype records authority zone keys now=.insecure) :
    ∃ r∈records,∃ encloser kept,kept⊆authority ∧
      proveWildcardExpansion lib r.name encloser (.fromRecords kept)=.ok .optedOut := by
  have hgr := groupRrsets_groupsOf records
  obtain ⟨kept,hk,hd⟩ := @verifiedDenial_subset lib authority keys zone now
  unfold answerVerdict at h
  simp only at h
  split_ifs at h
  split at h
  · cases h
  · cases h
  · rename_i wildcards _ hv
    split at h
    · cases h
    · rename_i ho
      obtain ⟨w,hw,he⟩ := proveExpansions_optedOut ho
      obtain ⟨g,hg,how⟩ := verifySets_owner hv w hw
      obtain ⟨r,hr⟩ := exists_mem_of_ne_nil _ (hgr.nonempty g hg)
      obtain ⟨hm,hn,-⟩ := hgr.sound g hg r hr
      rw [← how,← hn,hd] at he
      exact ⟨r,hm,_,kept,hk,he⟩
    · cases h

/-- Keys in hand, only an opted-out denial makes a negative insecure. -/
theorem negativeVerdict_insecure {rcode : ResponseCode}
    (h : negativeVerdict lib qname qtype rcode authority zone keys now=.insecure) :
    ∃ kept,kept⊆authority ∧
      (if rcode=.NXDomain then proveNxdomain lib qname zone (.fromRecords kept)
        else proveNodata lib qname qtype zone (.fromRecords kept))=.ok .optedOut := by
  obtain ⟨kept,hk,hd⟩ := @verifiedDenial_subset lib authority keys zone now
  refine ⟨kept,hk,?_⟩
  simp only [negativeVerdict,hd] at h
  generalize (if rcode=.NXDomain then proveNxdomain lib qname zone (.fromRecords kept)
    else proveNodata lib qname qtype zone (.fromRecords kept))=proof at h ⊢
  split at h
  · cases h
  · rcases proof with _ | _ | _
    · cases h
    · cases h
    · rfl

end

/-- An insecure result is explained by an unsigned zone, unless it comes from glue or an opted-out
denial. -/
def InsecureResult (qtype : RecordType)
    (res : Resolution) : Prop :=
  res.verdict=.insecure → Explained val log qtype res.answers name ∨
    Glued val.lib log name (val.lib.typeText qtype) ∨ res.answers=[] ∧ OptedOutDenial val.lib log name qtype

/-- The facts of a run, with the insecure entries of the record cache accounted for. -/
def insecureFacts : Facts where
  asked := fun _ => True
  trusted := Chained val log
  cached := fun name text _ secure => secure=false → UnsignedAbove val log name ∨ Glued val.lib log name text
  delegated := fun _ _ => True
  received := Received log
  clock := ClockRead log

section
variable {val : Validation} {log : ResolverLog} {records : List Record} {name : Name} {qtype : RecordType}

private theorem explained_self {answers : List Record}
    (h : UnsignedAbove val log name) : Explained val log qtype answers name :=
  ⟨name,.refl,Or.inr h⟩

variable {m : Message} {current zone : Name} {trust state : Option TrustState}

theorem Explained.of_alias {target : Name} {answers : List Record} (hr : RepliedTo log name qtype m)
    (hk : classify m qtype=.cname target records) (h : Explained val log qtype answers target) :
    Explained val log qtype (records++answers) name := by
  obtain ⟨e,hp,hc⟩ := h
  have hm : Followed log qtype answers ≤ Followed log qtype (records++answers) := by
    rintro a b ⟨m',rs,hr',hk',hs⟩
    exact ⟨m',rs,hr',hk',List.Subset.trans hs (subset_append_right _ _)⟩
  have hf : Followed log qtype (records++answers) name target :=
    ⟨m,records,hr,hk,subset_append_left _ _⟩
  exact ⟨e,.head hf (Relation.ReflTransGen.mono hm _ _ hp),hc⟩

variable (hval : val.validating=true)
include hval

/-- Without keys the zone a section is judged by is unsigned, and it is a zone of the name. -/
private theorem unsigned_of_keyless (hst : Standing (insecureFacts val log) val name current trust)
    (hj : JudgedBy (insecureFacts val log) val current trust records zone state)
    (hs : ∀ zone signer,signerBelow records zone=some signer → signer.zoneOf name=true)
    (hk : state.bind TrustState.keys=none) : UnsignedAbove val log name := by
  have hso : state.isSome=true := hj.validating.trans hval
  have hsa : state=some .insecure := by
    rcases state with _ | ⟨_ | _⟩ <;> simp_all [TrustState.keys]
  have he : zone.zoneOf name=true := by
    rcases hj.zone with ⟨rfl,-⟩ | hsi
    · exact hst.encloses
    · exact hs _ _ hsi
  exact ⟨zone,he,hj.trusted _ hsa⟩

private theorem answer_unsigned {qname : Name} {t : RecordType} {v : Verdict}
    (hf : Forthright val.lib log) (hre : RepliedTo log name qtype m) (hrc : records=m.answers)
    (hs : Standing (insecureFacts val log) val name current trust)
    (hj : JudgedBy (insecureFacts val log) val current trust records zone state)
    (hve : VerdictOf (insecureFacts val log) state
      (answerVerdict val.lib qname t records m.nameServers zone) v) (hv : v=.insecure) :
    UnsignedAbove val log name := by
  rcases hve with ⟨hk,-⟩ | ⟨keys,now,-,-,hc⟩
  · exact unsigned_of_keyless hval hs hj (hrc ▸ hf.answers name qtype m hre) hk
  · obtain ⟨r,hr,encloser,kept,hke,ho⟩ := answerVerdict_insecure (hc.symm.trans hv)
    exact absurd ho (hf.expansions name qtype m hre r (hrc ▸ hr) encloser kept hke)

private theorem insecure_laws (hf : Forthright val.lib log) :
    Laws val (insecureFacts val log) (InsecureResult val log) := by
  constructor
  case toTrustLaws => exact chained_laws rfl rfl rfl
  case address => trivial
  case refused => exact fun _ ha _ => Or.inl ⟨_,.refl,Or.inl ha⟩
  case hit =>
    intro name qtype stored secure ttl _ hc hv
    cases secure with
    | true => cases hv
    | false =>
      rcases hc rfl with hu | hgl
      · exact Or.inl (explained_self hu)
      · exact Or.inr (Or.inl hgl)
  case withheld =>
    intro name qtype v _ hw hv
    rw [show v=.insecure from hv] at hw
    cases hw
  case answered =>
    intro name qtype qclass server m records current trust zone state v _ hrp hk hs hj hve
      hse
    have hre : RepliedTo log name qtype m := Reply.repliedTo rfl hrp
    have hu := answer_unsigned hval hf hre (classify_spec hk) hs hj hve
    refine ⟨fun hv => Or.inl (explained_self (hu hv)),fun _ hsc => Or.inl (hu ?_)⟩
    cases v <;> simp_all [Verdict.withholdsAnswer]
  case aliased =>
    intro name qtype qclass server m target records current trust zone state v sub _ hrp hk hs hj
      hve _ hsu _ hv
    have hre : RepliedTo log name qtype m := Reply.repliedTo rfl hrp
    obtain ⟨hgu,ho⟩ := hf.aliases name qtype m target records hre hk
    rcases Verdict.merge_eq_insecure hv with hh | hrs
    · exact Or.inl (explained_self
        (answer_unsigned hval hf hre (classify_spec hk).1 hs hj hve hh))
    · rcases hsu hrs with he | hgl | ⟨-,hou⟩
      · exact Or.inl (he.of_alias hre hk)
      · exact absurd hgl hgu
      · exact absurd hou ho
  case negative =>
    intro name qtype qclass server m rcode soa current trust zone state v _ hrp hk hs hj hve
      _ hv
    have hre : RepliedTo log name qtype m := Reply.repliedTo rfl hrp
    rcases hve with ⟨hke,-⟩ | ⟨keys,now,-,-,hch⟩
    · exact Or.inl (explained_self (unsigned_of_keyless hval hs hj
        (hf.denials name qtype m rcode soa hre hk) hke))
    · obtain ⟨kept,hkp,hou⟩ := negativeVerdict_insecure (hch.symm.trans hv)
      exact Or.inr (Or.inr ⟨rfl,m,rcode,soa,zone,kept,hre,hk,hkp,hou⟩)
  case referred =>
    intro name qtype qclass server m child glue targets ttl current trust state servers hrp hk _ _ _ _ _ _
    refine ⟨trivial,fun g hg _ => Or.inr ?_⟩
    obtain ⟨r,hr,hn,ht⟩ := mem_glueGroups hg
    rw [← hn,← ht]
    exact .referral (Reply.repliedTo rfl hrp) hk (mem_filter.mp hr).1
  case primed =>
    intro qclass server m hrp _
    refine ⟨trivial,fun g hg _ => Or.inr ?_⟩
    obtain ⟨r,hr,hn,ht⟩ := mem_glueGroups hg
    rw [← hn,← ht]
    exact .priming (Reply.repliedTo rfl hrp) hr

end

/-- In a run of a validating resolver whose responses are forthright, an insecure answer has an
unsigned zone at or above the name or one its aliases lead to. -/
theorem insecure_answer_explained {cfg : Config} {delegations : DelegationCache} {clock : Nat}
    {P : ResolverPool} (hval : cfg.validating=true)
    (hrun : Run (resolver cfg) (.initial (.fresh delegations clock)) P) (hforth : Forthright cfg.lib P.log)
    {hints : List IpAddr} {name : Name} {qtype : RecordType} {qclass : DnsClass} {res : Resolution}
    (hfin : .finished (.resolve hints name qtype qclass) (some (.ok res))∈P.log)
    (hinsecure : res.verdict=.insecure) (hanswers : res.answers≠[]) :
    Explained cfg.toValidation P.log qtype res.answers name := by
  have hh := run_holds (insecure_laws hval hforth) (Facts.hold_fresh fun _ _ => trivial) hrun (cover_of_log rfl rfl)
    fun _ _ _ _ _ =>
    ⟨trivial,serving_delegated (Name.root_zoneOf .root) trivial⟩
  rcases hh.2 hints name qtype qclass res hfin hinsecure with hep | hg | ⟨he,-⟩
  · exact hep
  · exact absurd hg (hforth.clients hints name qtype qclass (Run.started hrun hfin))
  · exact absurd he hanswers

def tldNetwork (cut : List Record) (address : Name → List Record) : Network := fun server q =>
  if q.qtype=.DNSKEY then
    if q.name=.root then some (toyReply q .NoError (toyDnskeys .root [1]) [] [])
    else if q.name=tld then some (toyReply q .NoError (toyDnskeys tld [2]) [] [])
    else none
  else if q.qtype=.A then
    if server=.v4 1 then
      some (toyReply q .NoError [] cut [toyRecord tldServer (.a 2)])
    else some (toyReply q .NoError (address q.name) [] [])
  else none

def unsignedCut : List Record :=
  [toyRecord tld (.ns tldServer),toyRecord tld (.nsec ⟨.root,[.NS]⟩),toySig tld .NSEC .root [1]]

def unsignedNetwork : Network := tldNetwork unsignedCut fun name => [toyRecord name (.a 7)]

def unsignedJobs : List (Network × Job) := [(unsignedNetwork,.resolve [.v4 1] tldHost .A .IN)]

def unsignedRun : World × ResolverLog := runJobs toyConfig 5 unsignedJobs (.fresh [] 0) []

private theorem unsignedRun_replies : ∀ x∈replies unsignedRun.2,x.2.1 ≠ .NS ∧
    ((classify x.2.2 x.2.1=.answer x.2.2.answers ∧ x.2.2.nameServers=[] ∧
        (x.2.2.answers=toyDnskeys x.1 [1] ∨ x.2.2.answers=[toyRecord x.1 (.a 7)])) ∨
      (x.2.2.answers=[] ∧ classify x.2.2 x.2.1=.referral tld [toyRecord tldServer (.a 2)] [tldServer] 300)) := by
  decide +kernel

private theorem unsignedRun_glued {name : Name} {text : List UInt8}
    (h : Glued toyLibrary unsignedRun.2 name text) : name=tldServer := by
  cases h with
  | referral reply kind mem =>
    obtain ⟨-,⟨hk,-⟩ | ⟨-,hk⟩⟩ := unsignedRun_replies _ reply.mem_replies
    · cases hk.symm.trans kind
    · cases hk.symm.trans kind
      rw [mem_singleton.mp mem]
      rfl
  | priming reply mem => exact absurd rfl (unsignedRun_replies _ reply.mem_replies).1

private theorem unsignedRun_forthright : Forthright toyLibrary unsignedRun.2 := by
  constructor
  · intro name qtype m h zone signer hs
    obtain ⟨-,⟨-,-,ha | ha⟩ | ⟨ha,-⟩⟩ := unsignedRun_replies _ h.mem_replies <;> rw [ha] at hs
    · exact ((signerBelow_some hs).2.2 (toySig name .DNSKEY name [1]) (by simp [toyDnskeys]) _ rfl).2
    · cases hs
    · cases hs
  · intro name qtype m rcode soa h hk
    obtain ⟨-,⟨ho,-⟩ | ⟨-,ho⟩⟩ := unsignedRun_replies _ h.mem_replies <;> cases ho.symm.trans hk
  · intro name qtype m h r hr encloser kept hke
    obtain ⟨-,⟨-,hau,-⟩ | ⟨ha,-⟩⟩ := unsignedRun_replies _ h.mem_replies
    · rw [hau] at hke
      rw [subset_nil.mp hke]
      exact nofun
    · rw [ha] at hr
      cases hr
  · intro hints name qtype qclass hst hg
    obtain hn | ⟨entry,hen,he⟩ := mem_runJobs hst
    · cases hn
    · rw [mem_singleton.mp hen] at he
      cases he
      exact absurd (unsignedRun_glued hg) (by decide)
  · intro name qtype m target records h hk
    obtain ⟨-,⟨ho,-⟩ | ⟨-,ho⟩⟩ := unsignedRun_replies _ h.mem_replies <;> cases ho.symm.trans hk

theorem insecure_answer_explained_unsigned :
    .finished (.resolve [.v4 1] tldHost .A .IN)
        (some (.ok ⟨.NoError,[toyRecord tldHost (.a 7)],none,.insecure⟩))∈unsignedRun.2 ∧
      Explained toyConfig.toValidation unsignedRun.2 .A [toyRecord tldHost (.a 7)] tldHost := by
  have hr : Run (resolver toyConfig) (.initial (.fresh [] 0)) ⟨unsignedRun.1,[],unsignedRun.2⟩ :=
    runJobs_run toyConfig 5 _ _ _
  have hf : .finished (.resolve [.v4 1] tldHost .A .IN)
      (some (.ok ⟨.NoError,[toyRecord tldHost (.a 7)],none,.insecure⟩))∈unsignedRun.2 :=
    mem_results.mpr (by decide +kernel)
  exact ⟨hf,insecure_answer_explained rfl hr unsignedRun_forthright hf rfl (by decide)⟩

def signedCut : List Record := toyRecord tld (.ns tldServer)::tldDs

def signedNetwork : Network :=
  tldNetwork signedCut fun name => [toyRecord name (.a 7),toySig name .A tld [2]]

def glueJobs : List (Network × Job) :=
  [(signedNetwork,.resolve [.v4 1] tldHost .A .IN),(signedNetwork,.resolve [.v4 1] tldServer .A .IN)]

def glueRun : World × ResolverLog := runJobs toyConfig 5 glueJobs (.fresh [] 0) []

private theorem glueRun_denial {name : Name} {qtype : RecordType} {m : Message}
    (h : RepliedTo glueRun.2 name qtype m) {kept : List Record} (hk : ∀ r∈kept,r∈m.nameServers) :
    Denial.fromRecords kept=⟨[],[]⟩ := by
  have hre : ∀ x∈replies glueRun.2,∀ r∈x.2.2.nameServers,r.data.asNsec=none ∧ r.data.asNsec3=none := by decide +kernel
  have hn := hre _ h.mem_replies
  simp only [Denial.fromRecords,Denial.mk.injEq,filterMap_eq_nil_iff]
  exact ⟨fun r hr => by simp [(hn r (hk r hr)).1],fun r hr => by simp [(hn r (hk r hr)).2]⟩

private theorem glueRun_ds {parent child : Name} {keys : List Dnskey} {ds : List Ds}
    (h : DsFrom toyLibrary glueRun.2 parent child keys ds) : ∃ d∈ds,d.algorithm=8 := by
  obtain ⟨name,qtype,m,records,now,hrl,-,hre,rfl,sig,hs,-⟩ := h
  obtain ⟨⟨r,hr,rfl,hd⟩,ht⟩ := mem_coveringRrsigs.mp hs
  have hrp : ∀ x∈replies glueRun.2,∀ records∈[x.2.2.answers,x.2.2.nameServers],∀ r∈records,
      r.data.asRrsig.any (·.typeCovered=.DS) → ∃ d∈dsRecords (recordsAt records r.name .DS) r.name,d.algorithm=8 := by
    decide +kernel
  exact hrp _ hrl.mem_replies records (mem_pair.mpr hre) r hr (by rw [hd]; exact decide_eq_true ht)

private theorem glueRun_signed {zone : Name} {state : TrustState}
    (h : Chained toyConfig.toValidation glueRun.2 zone state) : state ≠ .insecure := by
  induction h with
  | anchored | delegated => exact nofun
  | noDs above below link =>
    obtain ⟨name,qtype,m,now,kept,hre,-,hk,denied,hp⟩ := link
    rw [glueRun_denial hre fun r hr => (hk r hr).1] at hp
    cases hp
  | unsupported above below link none_supported =>
    obtain ⟨d,hd,ha⟩ := glueRun_ds link
    have hu := none_supported d hd
    rw [ha] at hu
    cases hu
  | inherited above below ih => exact absurd rfl ih

/-- Glue of a signed domain is served as an insecure answer. -/
theorem insecure_answer_glue : ∃ P res,Run (resolver toyConfig) (.initial (.fresh [] 0)) P ∧
    .finished (.resolve [.v4 1] tldServer .A .IN) (some (.ok res))∈P.log ∧ res.verdict=.insecure ∧
    res.answers≠[] ∧ ¬ Explained toyConfig.toValidation P.log .A res.answers tldServer := by
  have hru : Run (resolver toyConfig) (.initial (.fresh [] 0)) ⟨glueRun.1,[],glueRun.2⟩ :=
    runJobs_run toyConfig 5 _ _ _
  refine ⟨_,⟨.NoError,[toyRecord tldServer (.a 2)],none,.insecure⟩,hru,
    mem_results.mpr (by decide +kernel),rfl,by decide,?_⟩
  rintro ⟨e,hp,hca⟩
  rcases Relation.ReflTransGen.cases_head hp with rfl | ⟨b,⟨m,records,-,hk,hs⟩,-⟩
  · rcases hca with ha | ⟨zone,-,hch⟩
    · cases ha
    · exact glueRun_signed hch rfl
  · obtain ⟨-,r,hr,hc⟩ := classify_spec hk
    rw [mem_singleton.mp (hs hr)] at hc
    cases hc

end RolodexDns.InsecureAnswers
