import RolodexDns.LookupContracts
import RolodexDns.ResolverExecution

/-! The chain of trust. Whatever the servers send, and however lookups interleave, every entry of the
key cache is backed by a chain from a configured root anchor whose links were received in the run. -/
namespace RolodexDns.ChainOfTrust
open DomainNames DnsRecords ValidationVerdicts SignatureValidation DenialProofs VerifiedDenial DenialChains
open ResolverCaches ResolverWorld ResponseReading IterativeResolver ResolverExecution ResolverContracts
open TrustContracts LookupContracts TaskPools

variable (log : ResolverLog)

def Received (server : IpAddr) (query : OutQuery) (m : Message) : Prop :=
  .performed (.sendUdp server query) (some m)∈log ∨ .performed (.sendTcp server query) (some m)∈log

def ClockRead (now : UInt32) : Prop := .performed .nowSecs (some now)∈log

def RepliedTo (name : Name) (qtype : RecordType) (m : Message) : Prop :=
  ∃ server query,Received log server query m ∧ query.name=name ∧ query.qtype=qtype ∧ m.id=query.id ∧
    validateQuestion m ⟨query.name,query.qtype,query.qclass⟩=true

/-- The replies that a log holds, with the name and the type they were asked for. -/
def replies : List (Name × RecordType × Message) :=
  log.filterMap fun
    | .performed (.sendUdp _ q) (some m) => some (q.name,q.qtype,m)
    | .performed (.sendTcp _ q) (some m) => some (q.name,q.qtype,m)
    | _ => none

theorem RepliedTo.mem_replies {log : ResolverLog} {name : Name} {qtype : RecordType} {m : Message}
    (h : RepliedTo log name qtype m) :
    (name,qtype,m)∈replies log := by
  obtain ⟨server,q,hu | ht,rfl,rfl,-⟩ := h
  · exact List.mem_filterMap.mpr ⟨_,hu,rfl⟩
  · exact List.mem_filterMap.mpr ⟨_,ht,rfl⟩

section
variable (lib : Library) (log : ResolverLog) (parent child : Name) (parentKeys : List Dnskey) (zone : Name)

/-- The source of trust vouches for a key of the zone. -/
def VouchedBy (key : Dnskey) : KeySource → Prop
  | .anchors anchors => ⟨key.algorithm,key.publicKey⟩∈anchors
  | .ds ds => ∃ d∈ds,lib.algorithmSupported d.algorithm=true ∧ lib.dsCovers d zone key=true

/-- A received DNSKEY RRset of the zone that a key vouched for has signed. -/
def KeysFrom (source : KeySource) (keys : List Dnskey) : Prop :=
  ∃ m now,RepliedTo log zone .DNSKEY m ∧ ClockRead log now ∧ keys=zoneKeys m.answers zone ∧
    ∃ sig∈coveringRrsigs zone .DNSKEY m.answers,∃ facts,∃ key∈keys,VouchedBy lib zone key source ∧
      SignedBy lib zone .DNSKEY (recordsAt m.answers zone .DNSKEY) keys zone now facts sig key

/-- A received DS RRset of the child that the parent's keys have signed. -/
def DsFrom (ds : List Ds) : Prop :=
  ∃ name qtype m records now,RepliedTo log name qtype m ∧ ClockRead log now ∧
    (records=m.answers ∨ records=m.nameServers) ∧ ds=dsRecords (recordsAt records child .DS) child ∧
    ∃ sig∈coveringRrsigs child .DS records,∃ facts key,
      SignedBy lib child .DS (recordsAt records child .DS) parentKeys parent now facts sig key

/-- A proof that the child has no DS, read from received records that the parent's keys have signed. -/
def NoDsFrom : Prop :=
  ∃ name qtype m now kept,RepliedTo log name qtype m ∧ ClockRead log now ∧
    (∀ r∈kept,r∈m.nameServers ∧ VerifiedBy lib m.nameServers parent parentKeys now r) ∧
    ∃ denied,proveNoDs lib child (.fromRecords kept)=.ok denied

end

/-- The trust states a chain from the anchors leads to. -/
inductive Chained (val : Validation) (log : ResolverLog) : Name → TrustState → Prop where
  | anchored {anchors keys} (configured : val.anchors=some anchors)
      (link : KeysFrom val.lib log .root (.anchors anchors) keys) : Chained val log .root (.secure keys)
  | delegated {parent child parentKeys ds keys} (above : Chained val log parent (.secure parentKeys))
      (below : Below parent child) (ds_link : DsFrom val.lib log parent child parentKeys ds)
      (link : KeysFrom val.lib log child (.ds ds) keys) : Chained val log child (.secure keys)
  | noDs {parent child parentKeys} (above : Chained val log parent (.secure parentKeys))
      (below : Below parent child) (link : NoDsFrom val.lib log parent child parentKeys) :
    Chained val log child .insecure
  | unsupported {parent child parentKeys ds} (above : Chained val log parent (.secure parentKeys))
      (below : Below parent child) (link : DsFrom val.lib log parent child parentKeys ds)
      (none_supported : ∀ d∈ds,val.lib.algorithmSupported d.algorithm=false) :
    Chained val log child .insecure
  | inherited {parent child} (above : Chained val log parent .insecure) (below : Below parent child) :
    Chained val log child .insecure

/-- What a run's log supports, with nothing assumed of records and delegations. -/
def chainFacts (val : Validation) (log : ResolverLog) : Facts where
  asked := fun _ => True
  trusted := Chained val log
  cached := fun _ _ _ _ => True
  delegated := fun _ _ => True
  received := Received log
  clock := ClockRead log

section
variable {val : Validation} {log : ResolverLog} {F : Facts}

theorem cover_of_log (hr : F.received=Received log) (hc : F.clock=ClockRead log) :
    F.Cover {e | e∈log} := by
  refine ⟨fun server query m h => ?_,fun server query m h => ?_,fun now h => ?_⟩
  · rw [hr]
    exact Or.inl h
  · rw [hr]
    exact Or.inr h
  · rw [hc]
    exact h

variable {m : Message} {now : UInt32}

theorem Reply.repliedTo (hr : F.received=Received log) {name : Name} {qtype : RecordType}
    {qclass : DnsClass} {server : IpAddr} (h : Reply F val name qtype qclass server m) :
    RepliedTo log name qtype m :=
  ⟨server,⟨m.id,name,qtype,qclass,val.validating⟩,hr ▸ h.received,rfl,rfl,rfl,h.question⟩

private theorem keysFrom_of_validated {zone : Name} {source : KeySource}
    {keys : List Dnskey} (hr : RepliedTo log zone .DNSKEY m) (hc : ClockRead log now)
    (h : validateDnskeyRrset val.lib zone m.answers m.answers source now=.ok keys) :
    KeysFrom val.lib log zone source keys := by
  obtain ⟨hk,facts,hv⟩ := validateDnskeyRrset_ok h
  obtain ⟨-,sig,hs,key,hby⟩ := verifyRrset_ok hv
  have hm : key∈keys ∧ VouchedBy val.lib zone key source := by
    have ha := hby.mem_keys
    cases source with
    | anchors anchors | ds ds => simpa [anchoredKeys,VouchedBy] using ha
  exact ⟨m,now,hr,hc,hk,sig,hs,facts,key,hm.1,hm.2,hby.signer,hby.started,
    hby.live,hby.labels,hby.algorithm,hm.1,hby.verifies,hby.facts_eq⟩

private theorem dsFrom_of_verified (hr : F.received=Received log) {parent child : Name}
    {parentKeys : List Dnskey} {ds denial : List Record} {facts : SignatureFacts}
    (hcu : CutSections F val child ds denial) (hc : ClockRead log now)
    (h : verifyRrset val.lib child .DS (recordsAt ds child .DS) ds parentKeys parent now=.ok facts) :
    DsFrom val.lib log parent child parentKeys (dsRecords (recordsAt ds child .DS) child) := by
  obtain ⟨-,sig,hs,key,hby⟩ := verifyRrset_ok h
  cases hcu with
  | referral reply kind =>
    exact ⟨_,_,_,_,now,Reply.repliedTo hr reply,hc,Or.inr rfl,rfl,sig,hs,facts,key,hby⟩
  | probe reply =>
    exact ⟨_,_,_,_,now,Reply.repliedTo hr reply,hc,Or.inl rfl,rfl,sig,hs,facts,key,hby⟩

/-- The chain of trust is closed under what the resolver does at a cut. -/
theorem chained_laws (ht : F.trusted=Chained val log) (hr : F.received=Received log)
    (hc : F.clock=ClockRead log) : TrustLaws val F := by
  constructor
  · intro anchors qclass server m now keys ha hre hn hk
    rw [hc] at hn
    rw [ht]
    exact .anchored ha (keysFrom_of_validated (Reply.repliedTo hr hre) hn hk)
  · intro parent child hp hb
    rw [ht] at hp ⊢
    exact .inherited hp hb
  · intro parent child parentKeys ds denial now r hp hb hcu hn _ hpr
    rw [ht] at hp ⊢
    rw [hc] at hn
    obtain ⟨kept,heq,hke⟩ := @verifiedDenial_verified val.lib denial parent parentKeys now
    rw [heq] at hpr
    refine .noDs hp hb ?_
    cases hcu with
    | referral reply kind =>
      exact ⟨_,_,_,now,kept,Reply.repliedTo hr reply,hn,hke,r,hpr⟩
    | probe reply => exact ⟨_,_,_,now,kept,Reply.repliedTo hr reply,hn,hke,r,hpr⟩
  · intro parent child parentKeys ds denial now facts hp hb hcu hn hv hu
    rw [ht] at hp ⊢
    rw [hc] at hn
    refine .unsupported hp hb (dsFrom_of_verified hr hcu hn hv) fun d hd => ?_
    simpa using List.any_eq_false.mp hu d hd
  · intro parent child parentKeys ds denial now facts qclass server m now' keys hp hb hcu hn hv _
      hre hn' hk
    rw [ht] at hp ⊢
    rw [hc] at hn hn'
    exact .delegated hp hb (dsFrom_of_verified hr hcu hn hv)
      (keysFrom_of_validated (Reply.repliedTo hr hre) hn' hk)

end

/-- In every run, each entry of the key cache has a chain from a configured anchor. -/
theorem keyCache_chained {cfg : Config} {delegations : DelegationCache} {clock : Nat}
    {P : ResolverPool}
    (hrun : Run (resolver cfg) (.initial (.fresh delegations clock)) P) :
    ∀ e∈P.world.keys,Chained cfg.toValidation P.log e.1 e.2.value := by
  have hf := @chained_laws cfg.toValidation P.log (chainFacts cfg.toValidation P.log) rfl rfl rfl
  have laws : Laws cfg.toValidation (chainFacts cfg.toValidation P.log) fun _ _ _ => True :=
    { hf with
      address := trivial
      refused := fun _ _ => trivial
      hit := fun _ _ => trivial
      withheld := fun _ _ => trivial
      answered := fun _ _ _ _ _ _ _ => ⟨trivial,fun _ => trivial⟩
      aliased := fun _ _ _ _ _ _ _ _ _ => trivial
      negative := fun _ _ _ _ _ _ _ => trivial
      referred := fun _ _ _ _ _ _ _ _ => ⟨trivial,fun _ _ => trivial⟩
      primed := fun _ _ => ⟨trivial,fun _ _ => trivial⟩ }
  exact (run_holds laws (Facts.hold_fresh fun _ _ => trivial) hrun (cover_of_log rfl rfl) fun _ _ _ _ _ =>
    ⟨trivial,serving_delegated (Name.root_zoneOf .root) trivial⟩).1.keys

def rootNetwork : Network := fun _ q =>
  if q.qtype=.DNSKEY then some (toyReply q .NoError (toyDnskeys .root [1]) [] [])
  else some (toyReply q .NoError [toyRecord q.name (.a 7),toySig q.name q.qtype .root [1]] [] [])

def rootRun : World × ResolverLog :=
  runJobs toyConfig 5 [(rootNetwork,.resolve [.v4 1] (toyName [[101]]) .A .IN)] (.fresh [] 0) []

theorem keyCache_chained_root :
    (∃ e∈rootRun.1.keys,e.1=.root ∧ e.2.value=.secure [toyKey [1]]) ∧
      Chained toyConfig.toValidation rootRun.2 .root (.secure [toyKey [1]]) := by
  have hm : ∃ e∈rootRun.1.keys,e.1=.root ∧ e.2.value=.secure [toyKey [1]] := by decide
  have hr : Run (resolver toyConfig) (.initial (.fresh [] 0)) ⟨rootRun.1,[],rootRun.2⟩ :=
    runJobs_run toyConfig 5 _ _ _
  refine ⟨hm,?_⟩
  obtain ⟨e,he,hz,hs⟩ := hm
  rw [← hz,← hs]
  exact keyCache_chained hr e he

end RolodexDns.ChainOfTrust
