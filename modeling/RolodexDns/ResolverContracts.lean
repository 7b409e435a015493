import RolodexDns.IterativeResolver

/-! What every routine of the resolver keeps. The predicates a result is about (which trust states
are believed, what the record cache holds, which delegations are known) are parameters; once they
are closed under what one step can establish, every lookup of every run keeps them. -/
namespace RolodexDns.ResolverContracts
open DomainNames DnsRecords ValidationVerdicts List
open ExpiringMaps ResolverCaches ResolverWorld ResponseReading IterativeResolver ProgramTrees Routine

/-- What may be relied on: about the types asked for, about zones, cached records and delegations,
and about what the network and the wall clock have said. -/
structure Facts where
  asked : RecordType → Prop
  trusted : Name → TrustState → Prop
  cached : Name → List UInt8 → List Record → Bool → Prop
  delegated : Name → List IpAddr → Prop
  received : IpAddr → OutQuery → Message → Prop
  clock : UInt32 → Prop

namespace Facts

def contract (F : Facts) (lib : Library) : Contract Op Res where
  demands
    | .keyInsert zone state _ => F.trusted zone state
    | .recordInsert name rtype records secure => F.cached name (lib.typeText rtype) records secure
    | .delegationInsert zone servers _ => F.delegated zone servers
    | _ => True
  promises
    | .keyGet zone, r => ∀ state,r=some state → F.trusted zone state
    | .recordGet name rtype, r => ∀ records secure,r=some (records,secure) →
        ∃ stored ttl,records=stored.map (·.setTtl ttl) ∧ F.cached name (lib.typeText rtype) stored secure
    | .delegationMatch name, r => ∀ zone servers,r=some (zone,servers) →
        zone.zoneOf name=true ∧ F.delegated zone servers
    | .usableRoots servers, r => List.Subset r servers
    | .orderServers servers, r => List.Subset r servers
    | .sendUdp server query, r => ∀ m,r=some m → F.received server query m
    | .sendTcp server query, r => ∀ m,r=some m → F.received server query m
    | .nowSecs, r => ∀ now,r=some now → F.clock now
    | _, _ => True

/-- The caches hold nothing but what the facts allow. -/
structure Hold (F : Facts) (w : World) : Prop where
  keys : ExpiringMap.All (fun zone e => F.trusted zone e.value) w.keys
  records : ExpiringMap.All (fun k e => F.cached k.1 k.2 e.value.records e.value.secure) w.records
  delegations : ExpiringMap.All (fun zone e => F.delegated zone e.value) w.delegations

/-- The events of a run that the facts must account for. -/
structure Cover (F : Facts) (events : Set ResolverEvent) : Prop where
  udp : ∀ server query m,.performed (.sendUdp server query) (some m)∈events → F.received server query m
  tcp : ∀ server query m,.performed (.sendTcp server query) (some m)∈events → F.received server query m
  clock : ∀ now,.performed .nowSecs (some now)∈events → F.clock now

theorem hold_fresh {F : Facts} {delegations : DelegationCache} {clock : Nat}
    (h : ∀ e∈delegations,F.delegated e.1 e.2.value) :
    F.Hold (.fresh delegations clock) :=
  ⟨by simp [ExpiringMap.All,World.fresh],by simp [ExpiringMap.All,World.fresh],h⟩

end Facts

theorem usableRoots_subset {m : HealthMap} {now : Nat} {servers : List IpAddr} :
    m.usableRoots now servers⊆servers := by
  unfold HealthMap.usableRoots
  simp only
  split
  · exact List.Subset.refl servers
  · exact filter_sublist.subset

theorem isOrdering_subset {servers ordered : List IpAddr} (h : IsOrdering servers ordered) :
    ordered⊆servers := by
  obtain ⟨v4,v6,rfl,h4,h6⟩ := h
  intro s hs
  rcases mem_append.mp hs with hs | hs
  · exact (mem_filter.mp (h4.mem_iff.mp hs)).1
  · exact (mem_filter.mp (h6.mem_iff.mp hs)).1

theorem upholds (cfg : Config) {F : Facts} {events : Set ResolverEvent} (hc : F.Cover events) :
    TaskPools.Upholds (resolver cfg) events (F.contract cfg.lib) F.Hold := by
  refine ⟨fun {w o r w'} hw hd ha hev => ?_,fun {w w'} hw hdr => ?_⟩
  · cases o with
    | recordGet name rtype =>
      obtain ⟨hg,hw'⟩ := ha
      have hs : (w.records.getWithProof cfg.lib w.clock name rtype).2⊆w.records :=
        RecordCache.getWithProof_subset
      rw [← hg] at hs
      rw [hw']
      refine ⟨⟨hw.keys,hw.records.subset hs,hw.delegations⟩,fun records secure hr => ?_⟩
      have hh : (w.records.getWithProof cfg.lib w.clock name rtype).1=some (records,secure) := by
        rw [← hg]
        exact hr
      obtain ⟨e,ttl,hme,hre,hse⟩ := RecordCache.getWithProof_some hh
      exact ⟨e.value.records,ttl,hre,hse ▸ hw.records _ hme⟩
    | recordInsert name rtype records secure =>
      rw [show w'=_ from ha]
      exact ⟨⟨hw.keys,RecordCache.all_insertWithProof hw.records fun _ _ => hd,hw.delegations⟩,trivial⟩
    | keyGet zone =>
      obtain ⟨e,hg,hr,hw'⟩ := ha
      have hs : (ExpiringMap.get w.keys w.clock zone).2⊆w.keys := ExpiringMap.get_subset
      rw [← hg] at hs
      rw [hw']
      refine ⟨⟨hw.keys.subset hs,hw.records,hw.delegations⟩,fun state hst => ?_⟩
      rw [hr] at hst
      obtain ⟨entry,he,hv⟩ := Option.map_eq_some_iff.mp hst
      have hl := ExpiringMap.get_some (m := w.keys) (e := entry) (by rw [← hg]; exact he)
      exact hv ▸ hw.keys _ hl.1
    | keyInsert zone state ttl =>
      rw [show w'=_ from ha]
      exact ⟨⟨ExpiringMap.All.insert hw.keys hd,hw.records,hw.delegations⟩,trivial⟩
    | delegationMatch name =>
      obtain ⟨hg,hw'⟩ := ha
      have hs : (w.delegations.bestMatch w.clock name).2⊆w.delegations :=
        DelegationCache.bestMatchFrom_subset _ _
      rw [← hg] at hs
      rw [hw']
      refine ⟨⟨hw.keys,hw.records,hw.delegations.subset hs⟩,fun zone servers hr => ?_⟩
      have hh : (w.delegations.bestMatch w.clock name).1=some (zone,servers) := by
        rw [← hg]
        exact hr
      obtain ⟨hz,e,hme,hv,-⟩ := DelegationCache.bestMatch_some hh
      exact ⟨hz,hv ▸ hw.delegations _ hme⟩
    | delegationInsert zone servers ttl =>
      rw [show w'=_ from ha]
      refine ⟨⟨hw.keys,hw.records,?_⟩,trivial⟩
      simp only [DelegationCache.insert]
      split
      · exact hw.delegations
      · exact ExpiringMap.All.insert hw.delegations hd
    | delegationInvalidate zone =>
      rw [show w'=_ from ha]
      exact ⟨⟨hw.keys,hw.records,hw.delegations.subset ExpiringMap.erase_subset⟩,trivial⟩
    | usableRoots servers =>
      obtain ⟨hr,rfl⟩ := ha
      exact ⟨hw,hr ▸ usableRoots_subset⟩
    | orderServers servers =>
      obtain ⟨hr,rfl⟩ := ha
      exact ⟨hw,isOrdering_subset hr⟩
    | sendUdp server query =>
      rw [show w'=w from ha]
      refine ⟨hw,fun m hm => hc.udp server query m ?_⟩
      exact hm ▸ hev
    | sendTcp server query =>
      rw [show w'=w from ha]
      refine ⟨hw,fun m hm => hc.tcp server query m ?_⟩
      exact hm ▸ hev
    | nowSecs =>
      rw [show w'=w from ha]
      refine ⟨hw,fun now hn => hc.clock now ?_⟩
      exact hn ▸ hev
    | swapPrimed =>
      rw [show w'=_ from ha.2]
      exact ⟨⟨hw.keys,hw.records,hw.delegations⟩,trivial⟩
    | _ =>
      rw [show w'=_ from ha]
      exact ⟨⟨hw.keys,hw.records,hw.delegations⟩,trivial⟩
  · exact ⟨hw.keys.subset hdr.keys,hw.records.subset hdr.records,
      hw.delegations.subset hdr.delegations⟩

structure Reply (F : Facts) (val : Validation) (name : Name) (qtype : RecordType) (qclass : DnsClass)
    (server : IpAddr) (m : Message) : Prop where
  received : F.received server ⟨m.id,name,qtype,qclass,val.validating⟩ m
  question : validateQuestion m ⟨name,qtype,qclass⟩=true

section
variable {F : Facts} {cfg : Config} {query : OutQuery} {server : IpAddr} {servers : List IpAddr}

private def Accepts (F : Facts) (server : IpAddr) (query : OutQuery) (m : Message) : Prop :=
  F.received server query m ∧ m.id=query.id ∧
    validateQuestion m ⟨query.name,query.qtype,query.qclass⟩=true

private theorem queryTcp_ensures : Ensures (F.contract cfg.lib) (queryTcp server query)
    fun r => ∀ m,r=some m → Accepts F server query m := by
  rw [queryTcp_eq]
  refine ensures_step trivial fun r hr => ensures_pure fun m hm => ?_
  obtain ⟨rfl,hid,hq⟩ := matching_eq_some.mp hm
  exact ⟨hr m rfl,hid,hq⟩

private theorem queryOne_ensures : Ensures (F.contract cfg.lib) (queryOne server query)
    fun r => ∀ m,r=some m → Accepts F server query m := by
  rw [queryOne_eq]
  refine ensures_step trivial fun r hr => ?_
  split
  · exact queryTcp_ensures
  · refine ensures_pure fun m hm => ?_
    obtain ⟨rfl,hid,hq⟩ := matching_eq_some.mp hm
    exact ⟨hr m rfl,hid,hq⟩

private theorem claim_ensures {C : Contract Op Res} : Ensures C claim fun _ => True :=
  fun _ => fun _ _ => trivial

private theorem tryServers_ensures : Ensures (F.contract cfg.lib) (tryServers query servers)
    fun a => a.server∈servers ∧ Accepts F a.server query a.message := by
  induction servers with
  | nil => exact ensures_throw
  | cons server rest ih =>
    apply Ensures.bind claim_ensures
    intro claimed _
    split
    · apply Ensures.bind queryOne_ensures
      intro r hr
      cases r with
      | none =>
        apply ensures_step trivial
        intro _ _
        exact ih.mono fun a ha => ⟨mem_cons_of_mem server ha.1,ha.2⟩
      | some m =>
        apply ensures_step trivial
        intro _ _
        exact ensures_pure ⟨mem_cons_self,hr m rfl⟩
    · exact ensures_throw

theorem queryServers_ensures {name : Name} {qtype : RecordType} {qclass : DnsClass} :
    Ensures (F.contract cfg.lib) (queryServers cfg servers name qtype qclass)
      fun a => a.server∈servers ∧ Reply F cfg.toValidation name qtype qclass a.server a.message := by
  apply ensures_step trivial
  intro id _
  apply ensures_step trivial
  intro ordered ho
  apply tryServers_ensures.mono
  rintro a ⟨hm,hr,hid,hq⟩
  exact ⟨ho hm,hid ▸ hr,hq⟩

end

end RolodexDns.ResolverContracts
