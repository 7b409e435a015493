import RolodexDns.LookupContracts
import RolodexDns.ResolverExecution

/-! Trees of zones with honest servers. A server refers to the first zone on the way to the name,
with addresses of that zone's servers, and the DS RRset of a zone is served by its parent and by
nobody else. Whatever lookups such a tree has answered, the caches hold what is true of it. -/
namespace RolodexDns.HonestHierarchies
open DomainNames DnsRecords ValidationVerdicts SignatureValidation DenialProofs VerifiedDenial List Name
open ResolverCaches ResolverWorld ResponseReading IterativeResolver ResolverExecution ResolverContracts
open TrustContracts LookupContracts ProgramTrees TaskPools

/-- A tree of zones: the servers and keys of each, the section its parent publishes its DS RRset in,
the network the servers make up, and the times its signatures are made for. -/
structure Hierarchy where
  isZone : Name → Bool
  servers : Name → List IpAddr
  keys : Name → List Dnskey
  ds : Name → List Record
  net : Network
  valid : UInt32 → Prop

namespace Hierarchy
variable (H : Hierarchy)

/-- The first zone on the way down from `zone` to `name`. -/
structure NextCut (zone c name : Name) : Prop where
  isZone : H.isZone c=true
  below : Below zone c
  encloses : c.zoneOf name=true
  first : ∀ d,H.isZone d=true → Below zone d → d.zoneOf name=true → c.zoneOf d=true

/-- The number of zones to be asked from `zone` down to the parent of `z`. -/
inductive Path (z : Name) : Name → Nat → Prop where
  | parent {zone} (h : H.NextCut zone z z) : Path z zone 1
  | cut {zone c n} (h : H.NextCut zone c z) (hne : c≠z) (rest : Path z c n) : Path z zone (n+1)

end Hierarchy

section
variable {H : Hierarchy} {zone z : Name}

theorem Below.length_lt {parent child : Name} (h : Below parent child) :
    parent.labels.length<child.labels.length := by
  by_contra hge
  have hb : child.zoneOf parent=true :=
    zoneOf_of_length_le (zoneOf_refl child) h.1 (by omega)
  exact h.2 (zoneOf_antisymm hb h.1)

theorem exists_nextCut (hz : H.isZone z=true) (hb : Below zone z) : ∃ c,H.NextCut zone c z := by
  classical
  have hex : ∃ k,zone.labels.length<k ∧ k ≤ z.labels.length ∧ H.isZone (z.trimTo k)=true :=
    ⟨z.labels.length,Below.length_lt hb,Nat.le_refl _,by
      rwa [trimTo_eq_of_zoneOf (zoneOf_refl z)]⟩
  let k := Nat.find hex
  obtain ⟨hlt,hle,hzo⟩ : zone.labels.length<k ∧ k ≤ z.labels.length ∧ H.isZone (z.trimTo k)=true :=
    Nat.find_spec hex
  have hl : (z.trimTo k).labels.length=k := by
    rw [trimTo_length]
    omega
  refine ⟨z.trimTo k,hzo,⟨?_,fun heq => ?_⟩,trimTo_zoneOf z _,fun d hd hdo hdz => ?_⟩
  · exact zoneOf_of_length_le hb.1 (trimTo_zoneOf z _) (by omega)
  · rw [heq] at hl
    omega
  · have hk : k ≤ d.labels.length := Nat.find_min' hex
      ⟨Below.length_lt hdo,length_le_of_zoneOf hdz,by rwa [trimTo_eq_of_zoneOf hdz]⟩
    exact zoneOf_of_length_le (trimTo_zoneOf z _) hdz (by omega)

/-- From every zone above `z` there is a way down to its parent. -/
theorem exists_path (hz : H.isZone z=true) (hb : Below zone z) : ∃ n,H.Path z zone n := by
  induction hk : z.labels.length - zone.labels.length using Nat.strong_induction_on generalizing zone with
  | h k ih =>
    obtain ⟨c,hcu⟩ := exists_nextCut hz hb
    by_cases hc : c=z
    · exact ⟨1,.parent (hc ▸ hcu)⟩
    · have hb' : Below c z := ⟨hcu.encloses,fun h => hc h.symm⟩
      have hlt := Below.length_lt hcu.below
      have hlt' := Below.length_lt hb'
      obtain ⟨n,hp⟩ := ih (z.labels.length - c.labels.length) (by omega) hb' rfl
      exact ⟨n+1,.cut hcu hc hp⟩

end

/-- A referral from a signed zone takes the chain of trust along: it proves the child unsigned, or has
a signed DS RRset for the keys the child's servers serve. -/
def Crosses (lib : Library) (H : Hierarchy) (zone c : Name) (m : Message) : Prop :=
  ∀ now,H.valid now →
    (recordsAt m.nameServers c .DS=[] ∧
        ∃ d,proveNoDs lib c (verifiedDenial lib m.nameServers zone (H.keys zone) now)=.ok d) ∨
      (recordsAt m.nameServers c .DS≠[] ∧
        (∃ facts,verifyRrset lib c .DS (recordsAt m.nameServers c .DS) m.nameServers (H.keys zone) zone now
          = .ok facts) ∧
        (dsAlgorithmsSupported lib (dsRecords (recordsAt m.nameServers c .DS) c)=false ∨
          ∀ s∈H.servers c,∀ q m',H.net s q=some m' → q.name=c → q.qtype=.DNSKEY →
            ∀ now',H.valid now' → validateDnskeyRrset lib c m'.answers m'.answers
              (.ds (dsRecords (recordsAt m.nameServers c .DS) c)) now'=.ok (H.keys c)))

/-- The servers of the tree answer every query, and tell the truth. -/
structure Honest (val : Validation) (H : Hierarchy) : Prop where
  root : H.isZone .root=true
  served : ∀ zone,H.isZone zone=true → H.servers zone≠[]
  replies : ∀ zone s q,H.isZone zone=true → s∈H.servers zone → ∃ m,H.net s q=some m
  question : ∀ s q m,H.net s q=some m →
    m.id=q.id ∧ m.truncated=false ∧ validateQuestion m ⟨q.name,q.qtype,q.qclass⟩=true
  -- keys are only served for the zone they belong to, and a DS RRset only as the parent has it
  dnskeys : ∀ s q m,H.net s q=some m → q.qtype=.DNSKEY →
    zoneKeys m.answers q.name=[] ∨ zoneKeys m.answers q.name=H.keys q.name
  dsRecords : ∀ s q m records,H.net s q=some m → q.qtype=.DS → classify m .DS=.answer records →
    records=H.ds q.name
  refers : ∀ zone s q m child glue targets ttl,H.isZone zone=true → s∈H.servers zone →
    H.net s q=some m → classify m q.qtype=.referral child glue targets ttl →
    H.isZone child=true ∧ glueAddresses (glue.filter fun r => zone.zoneOf r.name)≠[] ∧
      glueAddresses glue⊆H.servers child
  primes : ∀ s q m,H.net s q=some m → q.name=.root → q.qtype=.NS →
    glueAddresses (collectGlueRecords m (m.answers.filterMap fun r => r.data.asNs))⊆H.servers .root
  anchored : ∀ anchors s q m now,val.anchors=some anchors → s∈H.servers .root → H.net s q=some m →
    q.name=.root → q.qtype=.DNSKEY → H.valid now →
    validateDnskeyRrset val.lib .root m.answers m.answers (.anchors anchors) now=.ok (H.keys .root)
  -- a query for the DS RRset of a zone: refused by none, referred down, answered by the parent, and
  -- denied by the zone itself
  cut : ∀ zone c s q m,s∈H.servers zone → H.isZone zone=true → H.isZone q.name=true → q.qtype=.DS →
    H.net s q=some m → H.NextCut zone c q.name → c≠q.name →
    (∃ glue targets ttl,classify m .DS=.referral c glue targets ttl) ∧
      (H.keys zone≠[] → Crosses val.lib H zone c m)
  answers : ∀ zone s q m,s∈H.servers zone → H.isZone zone=true → q.qtype=.DS → H.net s q=some m →
    H.NextCut zone q.name q.name → H.ds q.name≠[] →
    classify m .DS=.answer (H.ds q.name) ∧ signerBelow (H.ds q.name) zone=none ∧
      (H.keys zone≠[] → ∀ now,H.valid now →
        (answerVerdict val.lib q.name .DS (H.ds q.name) m.nameServers zone (H.keys zone) now).withholdsAnswer=false)
  apex : ∀ zone s q m,s∈H.servers zone → H.isZone zone=true → q.name=zone → q.qtype=.DS →
    H.net s q=some m → ∃ rcode soa,classify m .DS=.negative rcode soa ∧ signerBelow m.nameServers zone=none

def Hierarchy.facts (H : Hierarchy) (lib : Library) : Facts where
  asked := fun _ => True
  trusted := fun zone state => ∀ keys,state=.secure keys → keys=H.keys zone ∧ keys≠[]
  cached := fun name text records _ => text=lib.typeText .DS → records=H.ds name
  delegated := fun zone servers => H.isZone zone=true ∧ servers≠[] ∧ servers⊆H.servers zone
  received := fun s q m => H.net s q=some m
  clock := fun _ => True

section
variable {val : Validation} {H : Hierarchy} {glue : List Record}

theorem mem_glueAddresses {a : IpAddr} :
    a∈glueAddresses glue ↔ ∃ r∈glue,r.data.asAddress=some a := by
  simp only [glueAddresses,mem_append,mem_filter,mem_filterMap]
  cases a.isV4 <;> simp

theorem glueAddresses_filter_subset {keep : Record → Bool} :
    glueAddresses (glue.filter keep)⊆glueAddresses glue := by
  intro a ha
  obtain ⟨r,hr,had⟩ := mem_glueAddresses.mp ha
  exact mem_glueAddresses.mpr ⟨r,(mem_filter.mp hr).1,had⟩

theorem glueAddresses_filter_ne_nil {current zone : Name} (hab : current.zoneOf zone=true)
    (h : glueAddresses (glue.filter fun r => zone.zoneOf r.name)≠[]) :
    glueAddresses (glue.filter fun r => current.zoneOf r.name)≠[] := by
  obtain ⟨a,ha⟩ := exists_mem_of_ne_nil _ h
  obtain ⟨r,hr,had⟩ := mem_glueAddresses.mp ha
  obtain ⟨hr,hin⟩ := mem_filter.mp hr
  exact ne_nil_of_mem (mem_glueAddresses.mpr ⟨r,mem_filter.mpr ⟨hr,zoneOf_trans hab hin⟩,had⟩)

theorem classify_referral_glue {m : Message} {qtype : RecordType} {child : Name}
    {targets : List Name} {ttl : Nat} (h : classify m qtype=.referral child glue targets ttl) :
    ∀ r∈glue,r.data.asAddress.isSome=true := by
  rw [show glue=_ from classify_spec h]
  exact fun r hr => (mem_filter.mp hr).2

private theorem recordType_of_address {r : Record} (h : r.data.asAddress.isSome=true) : r.recordType ≠ .DS := by
  unfold Record.recordType
  cases hd : r.data <;> rw [hd] at h <;> cases h
  · exact (by decide : RecordType.A ≠ .DS)
  · exact (by decide : RecordType.AAAA ≠ .DS)

theorem keys_of_validated (hH : Honest val H) {s : IpAddr} {q : OutQuery} {m : Message} {source : KeySource}
    {now : UInt32} {keys : List Dnskey} (hnt : H.net s q=some m) (hq : q.qtype=.DNSKEY)
    (h : validateDnskeyRrset val.lib q.name m.answers m.answers source now=.ok keys) :
    keys=H.keys q.name ∧ keys≠[] := by
  obtain ⟨hk,facts,hv⟩ := validateDnskeyRrset_ok h
  obtain ⟨-,sig,-,key,hby⟩ := verifyRrset_ok hv
  have hm : key∈keys := by
    have ha := hby.mem_keys
    cases source with
    | anchors anchors | ds ds => exact (mem_filter.mp ha).1
  have hne : keys≠[] := ne_nil_of_mem hm
  rcases hH.dnskeys s q m hnt hq with hn | ho
  · exact absurd (hk.trans hn) hne
  · exact ⟨hk.trans ho,hne⟩

theorem facts_glue (ht : ∀ t,val.lib.typeText t=val.lib.typeText .DS → t=.DS)
    (ha : ∀ r∈glue,r.data.asAddress.isSome=true) :
    ∀ g∈glueGroups glue,(H.facts val.lib).cached g.owner (val.lib.typeText g.rtype) g.records false := by
  intro g hg hds
  obtain ⟨r,hr,-,hty⟩ := mem_glueGroups hg
  exact absurd (hty.trans (ht _ hds)) (recordType_of_address (ha r hr))

theorem honest_laws (hH : Honest val H) (ht : ∀ t,val.lib.typeText t=val.lib.typeText .DS → t=.DS) :
    Laws val (H.facts val.lib) fun _ _ _ => True := by
  constructor
  case toTrustLaws =>
    constructor
    · intro anchors qclass server m now keys _ hre _ hke keys' heq
      cases heq
      exact keys_of_validated hH hre.received rfl hke
    · exact fun _ _ => nofun
    · exact fun _ _ _ _ _ _ => nofun
    · exact fun _ _ _ _ _ _ => nofun
    · intro parent child parentKeys ds denial now facts qclass server m now' keys _ _ _ _ _ _ hre _ hke keys' heq
      cases heq
      exact keys_of_validated hH hre.received rfl hke
  case address => trivial
  case refused => exact fun _ _ => trivial
  case hit => exact fun _ _ => trivial
  case withheld => exact fun _ _ => trivial
  case answered =>
    intro name qtype qclass server m records current trust zone state v _ hre hk _ _ _ _
    refine ⟨trivial,fun _ hds => ?_⟩
    have hq := ht qtype hds
    subst hq
    exact hH.dsRecords server _ m records hre.received rfl hk
  case aliased => exact fun _ _ _ _ _ _ _ _ _ => trivial
  case negative => exact fun _ _ _ _ _ _ _ => trivial
  case referred =>
    intro name qtype qclass server m child glue targets ttl current trust state servers hre hk hs _ _ _
      hne hso
    obtain ⟨zone,known,hab,⟨hz,-,hkn⟩,hm⟩ := hs server (by simp)
    obtain ⟨hc,hg,hsu⟩ :=
      hH.refers zone server _ m child glue targets ttl hz (hkn hm) hre.received hk
    rcases hso with rfl | ⟨he,-⟩
    · refine ⟨⟨hc,hne,fun a ha => hsu (glueAddresses_filter_subset ha)⟩,facts_glue ht fun r hr => ?_⟩
      exact classify_referral_glue hk r (mem_filter.mp hr).1
    · exact absurd he (glueAddresses_filter_ne_nil hab hg)
  case primed =>
    intro qclass server m hre hne
    exact ⟨⟨hH.root,hne,hH.primes server _ m hre.received rfl rfl⟩,
      facts_glue ht fun r hr => (mem_filter.mp hr).2⟩

end

theorem run_true {cfg : Config} {H : Hierarchy} (hH : Honest cfg.toValidation H)
    (ht : ∀ t,cfg.lib.typeText t=cfg.lib.typeText .DS → t=.DS) {delegations : DelegationCache} {clock : Nat}
    (hp : ∀ e∈delegations,(H.facts cfg.lib).delegated e.1 e.2.value)
    {P : ResolverPool}
    (hru : Run (resolver cfg) (.initial (.fresh delegations clock)) P)
    (hu : ∀ s q m,.performed (.sendUdp s q) (some m)∈P.log → H.net s q=some m)
    (htc : ∀ s q m,.performed (.sendTcp s q) (some m)∈P.log → H.net s q=some m)
    (hr : ∀ hints name qtype qclass,.started (.resolve hints name qtype qclass)∈P.log →
      hints⊆H.servers .root) : (H.facts cfg.lib).Hold P.world := by
  have hc : (H.facts cfg.lib).Cover {e | e∈P.log} := ⟨hu,htc,fun _ _ => trivial⟩
  refine (run_holds (honest_laws hH ht) (Facts.hold_fresh hp) hru hc fun hints name qtype qclass hst => ?_).1
  have hse := hH.served .root hH.root
  exact ⟨trivial,fun s hs => ⟨.root,H.servers .root,root_zoneOf _,⟨hH.root,hse,List.Subset.refl _⟩,
    hr hints name qtype qclass hst hs⟩⟩

section

variable (H : Hierarchy)

/-- The network answers as the tree does, at once, and the wall clock works. -/
def Hierarchy.Responds : (o : Op) → Res o → Prop
  | .sendUdp s q, r => r=H.net s q
  | .sendTcp s q, r => r=H.net s q
  | .nowSecs, r => ∃ now,r=some now ∧ H.valid now
  | _, _ => True

def Hierarchy.acts (cfg : Config) (w : World) (o : Op) (r : Res o) (w' : World) : Prop :=
  ResolverWorld.acts cfg w o r w' ∧ H.Responds o r

/-- What a lookup against the tree can rely on. -/
def Hierarchy.contract (lib : Library) : Contract Op Res where
  demands := ((H.facts lib).contract lib).demands
  promises := fun o r => ((H.facts lib).contract lib).promises o r ∧ H.Responds o r ∧
    match o, r with
    | .usableRoots servers, r => servers≠[] → r≠([] : List IpAddr)
    | .orderServers servers, r => servers≠[] → r≠([] : List IpAddr)
    | _, _ => True

private theorem usableRoots_ne_nil {m : HealthMap} {now : Nat} {servers : List IpAddr} (h : servers≠[]) :
    m.usableRoots now servers≠[] := by
  unfold HealthMap.usableRoots
  dsimp only
  split_ifs with hs
  · exact h
  · simpa using hs

theorem isOrdering_ne_nil {servers ordered : List IpAddr} (ho : IsOrdering servers ordered)
    (h : servers≠[]) : ordered≠[] := by
  obtain ⟨v4,v6,rfl,h4,h6⟩ := ho
  obtain ⟨s,hs⟩ := exists_mem_of_ne_nil servers h
  cases hv : s.isV4 with
  | true => exact ne_nil_of_mem (mem_append_left _ (h4.mem_iff.mpr (mem_filter.mpr ⟨hs,hv⟩)))
  | false =>
    exact ne_nil_of_mem (mem_append_right _ (h6.mem_iff.mpr (mem_filter.mpr ⟨hs,by simp [hv]⟩)))

/-- A lookup against the tree keeps to what is true of it. -/
theorem acts_upholds {cfg : Config} {H : Hierarchy} {w w' : World} {o : Op} {r : Res o}
    (hw : (H.facts cfg.lib).Hold w) (hd : (H.contract cfg.lib).demands o) (ha : H.acts cfg w o r w') :
    (H.facts cfg.lib).Hold w' ∧ (H.contract cfg.lib).promises o r := by
  have hc : (H.facts cfg.lib).Cover {e | ∀ o r,e=.performed o r → H.Responds o r} :=
    ⟨fun s q m he => (he _ _ rfl).symm,fun s q m he => (he _ _ rfl).symm,fun _ _ => trivial⟩
  obtain ⟨hh,hp⟩ := (upholds cfg hc).acts hw hd ha.1 (by
    rintro o' r' ⟨⟩
    exact ha.2)
  refine ⟨hh,hp,ha.2,?_⟩
  cases o with
  | usableRoots servers =>
    intro hne
    rw [show r=_ from ha.1.1]
    exact usableRoots_ne_nil hne
  | orderServers servers => exact isOrdering_ne_nil ha.1.1
  | _ => trivial

end

section
open Routine
variable {cfg : Config} {C : Contract Op Res} {net : Network} {servers : List IpAddr} {budget : Nat} {qclass : DnsClass}

/-- A contract under which these servers answer every query at once, as the network says. -/
structure Answering (C : Contract Op Res) (net : Network) (servers : List IpAddr) : Prop where
  allows : C.demands .randomId ∧ C.demands (.orderServers servers) ∧ (∀ s q,C.demands (.sendUdp s q)) ∧
    ∀ s,C.demands (.noteSuccess s)
  ordered : ∀ r : List IpAddr,C.promises (.orderServers servers) r → r⊆servers ∧ r≠[]
  sent : ∀ s q r,C.promises (.sendUdp s q) r → r=net s q
  replies : ∀ s∈servers,∀ q,∃ m,net s q=some m ∧ m.id=q.id ∧ m.truncated=false ∧
    validateQuestion m ⟨q.name,q.qtype,q.qclass⟩=true

variable (h : Answering C net servers)
include h

theorem Answering.queryOne {s : IpAddr} (hs : s∈servers) (q : OutQuery) :
    Returns C (queryOne s q) budget fun r b => b=budget ∧ ∃ m,r=some m ∧ net s q=some m := by
  obtain ⟨m,hm,hid,htc,hq⟩ := h.replies s hs q
  rw [queryOne_eq]
  refine returns_step (h.allows.2.2.1 s q) fun r b hr => ?_
  obtain ⟨hre,rfl⟩ := hr
  rw [show r=some m from (h.sent s q r hre).trans hm]
  rw [if_neg (by simp [htc])]
  exact returns_pure ⟨rfl,m,matching_eq_some.mpr ⟨rfl,hid,hq⟩,hm⟩

variable (hbudget : 0<budget)
include hbudget

theorem Answering.queryServers (name : Name) (qtype : RecordType) :
    Returns C (queryServers cfg servers name qtype qclass) budget
      fun a b => b=budget - 1 ∧ a.server∈servers ∧
        ∃ id,net a.server ⟨id,name,qtype,qclass,cfg.validating⟩=some a.message := by
  obtain ⟨hid,hor,-,hn⟩ := h.allows
  refine returns_step hid fun id b hb => ?_
  obtain ⟨-,rfl⟩ := hb
  refine returns_step hor fun (ordered : List IpAddr) b hod => ?_
  obtain ⟨ho,rfl⟩ := hod
  obtain ⟨hs,hne⟩ := h.ordered ordered ho
  obtain ⟨first,rest,rfl⟩ := exists_cons_of_ne_nil hne
  have hf : first∈servers := hs mem_cons_self
  have hcl : Returns C claim b fun claimed b' => claimed=true ∧ b'=b - 1 := ⟨_,rfl,by simpa using hbudget,rfl⟩
  refine hcl.andThen fun claimed b' hc => ?_
  obtain ⟨rfl,rfl⟩ := hc
  refine (h.queryOne hf _).andThen fun r b' hr => ?_
  obtain ⟨rfl,m,rfl,hm⟩ := hr
  refine returns_step (hn _) fun _ b' hb' => ?_
  obtain ⟨-,rfl⟩ := hb'
  exact returns_pure ⟨rfl,hf,id,hm⟩

theorem Answering.fetchDnskeys {times : UInt32 → Prop} {zone : Name} {source : KeySource} {P : List Dnskey → Prop}
    (hc : ∀ b,Returns C nowSecs b fun r b' => b'=b ∧ ∃ now,r=some now ∧ times now)
    (hv : ∀ s q m now,s∈servers → q.name=zone → q.qtype=.DNSKEY → net s q=some m → times now →
      ∃ keys,validateDnskeyRrset cfg.lib zone m.answers m.answers source now=.ok keys ∧ P keys) :
    Returns C (fetchDnskeys cfg qclass zone servers source) budget
      fun r b => b=budget - 1 ∧ ∃ validated,r=.ok validated ∧ P validated.keys := by
  refine (h.queryServers hbudget zone .DNSKEY).attempt.andThen fun r b hr => ?_
  obtain ⟨a,rfl,rfl,hme,id,hm⟩ := hr
  refine (hc _).andThen fun r b hr => ?_
  obtain ⟨rfl,now,rfl,hn⟩ := hr
  obtain ⟨keys,hk,hP⟩ := hv a.server _ a.message now hme rfl rfl hm hn
  dsimp only
  rw [hk]
  exact returns_pure ⟨rfl,_,rfl,hP⟩

end

end RolodexDns.HonestHierarchies
