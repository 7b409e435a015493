import RolodexDns.ParentSideAnswers
import RolodexDns.SecureAnswers

/-! How far the keys of a zone vouch. A signature is compared with the zone whose keys are at hand, but the owner of
what it signs is not: the keys vouch for whatever they have signed, inside the zone or not. -/
namespace RolodexDns.ZoneBoundaries
open DomainNames DnsRecords ValidationVerdicts SignatureValidation ZoneContents DenialChains List
open ResolverCaches ResolverWorld ResponseReading IterativeResolver ResolverExecution ResolverContracts
open TrustContracts LookupContracts ChainOfTrust SecureAnswers ParentSideAnswers TaskPools

variable {lib : Library}

section
variable {z : Zone} {owner : Name} {rtype : RecordType} {rrset sigs : List Record} {keys : List Dnskey} {now : UInt32}

/-- In the name of the zone the keys sign its own data alone: RRsets it owns, and those of its wildcards for
the names below their parents. -/
def SignsOwnData (lib : Library) (z : Zone) (keys : List Dnskey) : Prop :=
  ∀ key∈keys,∀ owner sig rrset,sig.signerName=z.apex → lib.verifyRrsig key owner .IN sig rrset=true →
    z.owns owner sig.typeCovered ∨
      ∃ encloser w : Name,z.apex.zoneOf encloser=true ∧ w.labels=DomainNames.star::encloser.labels ∧
        z.owns w sig.typeCovered ∧ encloser.zoneOf owner=true

theorem SignsOwnData.inside (h : SignsOwnData lib z keys) {facts : SignatureFacts}
    (hv : verifyRrset lib owner rtype rrset sigs keys z.apex now=.ok facts) : z.apex.zoneOf owner=true := by
  obtain ⟨-,sig,-,key,hby⟩ := verifyRrset_ok hv
  rcases h key hby.mem_keys owner sig rrset hby.signer hby.verifies with ho | ⟨encloser,w,hz,-,-,hb⟩
  · exact Zone.owns_contained ho
  · exact Name.zoneOf_trans hz hb

end

section

/-- The signatures of an answer section keep to their zones: what a key has signed is at or below the name the signature
gives as its signer, and there is no signature at a name without data. -/
structure Bounded (lib : Library) (m : Message) : Prop where
  owners : ∀ g∈(groupRrsets m.answers).1,∀ sig∈coveringRrsigs g.owner g.rtype m.answers,∀ key,
    lib.verifyRrsig key g.owner .IN sig g.records=true → sig.signerName.zoneOf g.owner=true
  signatures : ∀ s∈m.answers,s.recordType=.RRSIG → ∃ r∈m.answers,r.recordType ≠ .RRSIG ∧ r.name=s.name

/-- What a secure answer is made of: answer sections, of any number of hops, each of which was received and found secure
under the chained keys of a zone that all of its records are in; from the cache they come with another TTL. -/
inductive Composed (val : Validation) (log : ResolverLog) : List Record → Prop where
  | nothing : Composed val log []
  | received {name qname : Name} {qtype rtype : RecordType} {m : Message} {zone : Name} {keys : List Dnskey}
      {now : UInt32}
      (reply : RepliedTo log name qtype m) (chained : Chained val log zone (.secure keys)) (clock : ClockRead log now)
      (verdict : answerVerdict val.lib qname rtype m.answers m.nameServers zone keys now=.secure)
      (inside : ∀ r∈m.answers,zone.zoneOf r.name=true) : Composed val log m.answers
  | cached {records : List Record} (ttl : Nat) (h : Composed val log records) : Composed val log
      (records.map (·.setTtl ttl))
  | followed {records rest : List Record} (h : Composed val log records) (hrest : Composed val log rest) :
      Composed val log (records++rest)

variable {m : Message} {zone qname : Name} {rtype : RecordType} {keys : List Dnskey} {now : UInt32}

/-- What is secure under the keys of a zone is in it, if the signatures keep to their zones. -/
theorem inside_of_bounded (h : Bounded lib m)
    (hse : answerVerdict lib qname rtype m.answers m.nameServers zone keys now=.secure) :
    ∀ r∈m.answers,zone.zoneOf r.name=true := by
  have hgr := groupRrsets_groupsOf m.answers
  have hd (r : Record) (hr : r∈m.answers) (ht : r.recordType ≠ .RRSIG) : zone.zoneOf r.name=true := by
    obtain ⟨g,hg,hrg⟩ := hgr.complete r hr ht
    obtain ⟨-,hn,-⟩ := hgr.sound g hg r hrg
    obtain ⟨facts,hv⟩ := answerVerdict_secure hse g hg
    obtain ⟨-,sig,hsi,key,hby⟩ := verifyRrset_ok hv
    have hc : sig∈coveringRrsigs g.owner g.rtype m.answers := by
      obtain ⟨⟨s,hs,hsa⟩,ht⟩ := mem_coveringRrsigs.mp hsi
      rw [groupRrsets_snd] at hs
      exact mem_coveringRrsigs.mpr ⟨⟨s,(mem_filter.mp hs).1,hsa⟩,ht⟩
    rw [hn,← hby.signer]
    exact h.owners g hg sig hc key hby.verifies
  intro r hr
  by_cases ht : r.recordType=.RRSIG
  · obtain ⟨x,hx,hxt,hn⟩ := h.signatures r hr ht
    rw [← hn]
    exact hd x hx hxt
  · exact hd r hr ht

end

section
variable {val : Validation} {log : ResolverLog}

/-- The facts of a run: the secure entries of the record cache are made of secure sections. -/
def boundedFacts (val : Validation) (log : ResolverLog) : Facts where
  asked := fun _ => True
  trusted := Chained val log
  cached := fun _ _ records secure => secure=true → Composed val log records
  delegated := fun _ _ => True
  received := Received log
  clock := ClockRead log

private theorem composed_of_verdict (hb : ∀ name qtype m,RepliedTo log name qtype m → Bounded val.lib m)
    {name qname current zone : Name} {qtype rtype : RecordType} {m : Message} {trust state : Option TrustState}
    {records : List Record} (hr : RepliedTo log name qtype m) (hre : records=m.answers)
    (hj : JudgedBy (boundedFacts val log) val current trust records zone state) {v : Verdict}
    (hve : VerdictOf (boundedFacts val log) state (answerVerdict val.lib qname rtype records m.nameServers zone) v)
    (hv : v=.secure) : Composed val log records := by
  subst hre
  rcases hve with ⟨-,hi⟩ | ⟨keys,now,hst,hc,hch⟩
  · rw [hi] at hv
    cases hv
  · have hs := hch.symm.trans hv
    exact .received hr (hj.trusted _ hst) hc hs (inside_of_bounded (hb name qtype m hr) hs)

private theorem bounded_laws (hb : ∀ name qtype m,RepliedTo log name qtype m → Bounded val.lib m) :
    Laws val (boundedFacts val log) fun _ _ res => res.verdict=.secure → Composed val log res.answers := by
  constructor
  case toTrustLaws => exact chained_laws rfl rfl rfl
  case address => trivial
  case refused => exact fun _ _ hv => by cases hv
  case hit =>
    intro name qtype stored secure ttl _ hca hv
    cases secure with
    | false => cases hv
    | true => exact .cached ttl (hca rfl)
  case withheld =>
    intro name qtype v _ hw hv
    rw [show v=.secure from hv] at hw
    cases hw
  case answered =>
    intro name qtype qclass server m records current trust zone state v _ hr hk _ hj hve _
    have hc := composed_of_verdict hb (Reply.repliedTo rfl hr) (classify_spec hk) hj hve
    exact ⟨hc,fun _ hse => hc (by simpa using hse)⟩
  case aliased =>
    intro name qtype qclass server m target records current trust zone state v sub _ hr hk _ hj hve _ hsu _ hv
    obtain ⟨hh,hs⟩ := Verdict.merge_eq_secure.mp hv
    exact .followed (composed_of_verdict hb (Reply.repliedTo rfl hr) (classify_spec hk).1 hj hve hh) (hsu hs)
  case negative => exact fun _ _ _ _ _ _ _ _ => .nothing
  case referred => exact fun _ _ _ _ _ _ _ _ => ⟨trivial,fun _ _ => nofun⟩
  case primed => exact fun _ _ => ⟨trivial,fun _ _ => nofun⟩

/-- Keys that sign the zone's own data alone vouch for nothing outside it. In every run whose responses carry no
signature in the name of a zone from outside it, a secure answer is made of sections that lie within the zones whose
keys they are secure by. -/
theorem zone_vouches_inside {cfg : Config} {delegations : DelegationCache} {clock : Nat}
    {P : ResolverPool}
    (hrun : Run (resolver cfg) (.initial (.fresh delegations clock)) P)
    (hbounded : ∀ name qtype m,RepliedTo P.log name qtype m → Bounded cfg.lib m) :
    (∀ z keys,SignsOwnData cfg.lib z keys → ∀ owner rtype rrset sigs now facts,
      verifyRrset cfg.lib owner rtype rrset sigs keys z.apex now=.ok facts → z.apex.zoneOf owner=true) ∧
    ∀ hints name qtype qclass res,.finished (.resolve hints name qtype qclass) (some (.ok res))∈P.log →
      res.verdict=.secure → Composed cfg.toValidation P.log res.answers := by
  refine ⟨fun z keys hk owner rtype rrset sigs now facts => hk.inside,?_⟩
  have hh := run_holds (bounded_laws hbounded) (Facts.hold_fresh fun _ _ => trivial) hrun (cover_of_log rfl rfl)
    fun hints name t qclass h => ⟨trivial,serving_delegated (Name.root_zoneOf .root) trivial⟩
  exact fun hints name qtype qclass res hf hs => hh.2 hints name qtype qclass res hf hs

end

def hostRun : World × ResolverLog :=
  runJobs toyConfig 5 [(tldTree.net,.resolve [.v4 1] tldHost .A .IN)] (.fresh [] 0) []

theorem hostRun_bounded (name : Name) (qtype : RecordType) (m : Message) (h : RepliedTo hostRun.2 name qtype m) :
    Bounded toyConfig.lib m := by
  have hr : ∀ x∈replies hostRun.2,(∀ g∈(groupRrsets x.2.2.answers).1,∀ sig∈coveringRrsigs g.owner g.rtype x.2.2.answers,
      sig.signerName.zoneOf g.owner=true) ∧ ∀ s∈x.2.2.answers,s.recordType=.RRSIG →
      ∃ r∈x.2.2.answers,r.recordType ≠ .RRSIG ∧ r.name=s.name := by decide +kernel
  obtain ⟨ho,hs⟩ := hr _ h.mem_replies
  exact ⟨fun g hg sig hsi _ _ => ho g hg sig hsi,hs⟩

theorem zone_vouches_inside_host :
    Composed toyConfig.toValidation hostRun.2 [toyRecord tldHost (.a 7),toySig tldHost .A tld [2]] := by
  have hr : Run (resolver toyConfig) (.initial (.fresh [] 0)) ⟨hostRun.1,[],hostRun.2⟩ := runJobs_run toyConfig 5 _ _ _
  have hf : .finished (.resolve [.v4 1] tldHost .A .IN) (some (.ok ⟨.NoError,
      [toyRecord tldHost (.a 7),toySig tldHost .A tld [2]],none,.secure⟩))∈hostRun.2 := mem_results.mpr (by decide)
  exact (zone_vouches_inside hr hostRun_bounded).2 _ _ _ _ _ hf rfl

/-- A domain whose server answers every question for addresses with the address of a name outside it. -/
def strangerNetwork : Network := fun server q =>
  if server=.v4 2 ∧ q.qtype=.A then
    some (toyReply q .NoError [toyRecord (toyName [[98]]) (.a 7),toySig (toyName [[98]]) .A tld [2]] [] [])
  else tldTree.net server q

def strangerRun : World × ResolverLog :=
  runJobs toyConfig 5 [(strangerNetwork,.resolve [.v4 1] tldHost .A .IN)] (.fresh [] 0) []

/-- The keys of `t.` vouch for `b.`, and what they vouch for is a secure answer. -/
theorem stranger_vouched :
    (verifyRrset toyConfig.lib (toyName [[98]]) .A [toyRecord (toyName [[98]]) (.a 7)]
      [toySig (toyName [[98]]) .A tld [2]]
      [toyKey [2]] tld 5=.ok ⟨none⟩ ∧ tld.zoneOf (toyName [[98]])=false) ∧
    ∃ P res,Run (resolver toyConfig) (.initial (.fresh [] 0)) P ∧
      .finished (.resolve [.v4 1] tldHost .A .IN) (some (.ok res))∈P.log ∧ res.verdict=.secure ∧
      ∃ r∈res.answers,r.recordType ≠ .RRSIG ∧
        ∀ s∈res.answers,∀ sig,s.data.asRrsig=some sig → sig.signerName.zoneOf r.name=false := by
  have hr : Run (resolver toyConfig) (.initial (.fresh [] 0)) ⟨strangerRun.1,[],strangerRun.2⟩ :=
    runJobs_run toyConfig 5 _ _ _
  refine ⟨by decide,_,⟨.NoError,[toyRecord (toyName [[98]]) (.a 7),toySig (toyName [[98]]) .A tld [2]],none,.secure⟩,hr,
    mem_results.mpr (by decide),rfl,_,mem_cons_self,by decide,fun s hs sig hsi => ?_⟩
  rcases mem_pair.mp hs with rfl | rfl
  · cases hsi
  · cases hsi
    decide

end RolodexDns.ZoneBoundaries
