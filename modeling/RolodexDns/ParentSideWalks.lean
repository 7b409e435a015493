import RolodexDns.HonestHierarchies

/-! Walks for the DS RRset of a zone against an honest tree. A walk that starts above the zone ends
with what the parent publishes, within its referrals; one that starts at the zone itself asks the
zone's own servers, which deny it. -/
namespace RolodexDns.ParentSideWalks
open DomainNames DnsRecords ValidationVerdicts SignatureValidation
open ResolverCaches ResolverWorld ResponseReading IterativeResolver
open HonestHierarchies ProgramTrees Routine

variable {cfg : Config}

section
variable {H : Hierarchy} {zone : Name} {budget : Nat}

theorem answering (hH : Honest cfg.toValidation H) (hz : H.isZone zone=true) {servers : List IpAddr} (hne : servers≠[])
    (hsu : servers⊆H.servers zone) : Answering (H.contract cfg.lib) H.net servers where
  allows := ⟨trivial,trivial,fun _ _ => trivial,fun _ => trivial⟩
  ordered _ h := ⟨h.1,h.2.2 hne⟩
  sent _ _ _ h := h.2.1
  replies s hs q := by
    obtain ⟨m,hm⟩ := hH.replies zone s q hz (hsu hs)
    exact ⟨m,hm,hH.question s q m hm⟩

private theorem nowSecs_returns : Returns (H.contract cfg.lib) nowSecs budget
    fun r b => b=budget ∧ ∃ now,r=some now ∧ H.valid now := by
  refine (returns_perform trivial).mono fun r b hr => ?_
  obtain ⟨⟨-,⟨now,hn,hv⟩,-⟩,rfl⟩ := hr
  exact ⟨rfl,now,hn,hv⟩

private theorem fetchDnskeys_returns (hH : Honest cfg.toValidation H) (hz : H.isZone zone=true)
    {servers : List IpAddr} (hne : servers≠[]) (hsu : servers⊆H.servers zone) (hb : 0<budget)
    {source : KeySource} {qclass : DnsClass}
    (hv : ∀ s∈H.servers zone,∀ q m,H.net s q=some m → q.name=zone → q.qtype=.DNSKEY →
      ∀ now,H.valid now → validateDnskeyRrset cfg.lib zone m.answers m.answers source now=.ok (H.keys zone)) :
    Returns (H.contract cfg.lib) (fetchDnskeys cfg qclass zone servers source) budget
      fun r b => b=budget - 1 ∧ ∃ validated,r=.ok validated ∧
        (H.facts cfg.lib).trusted zone (.secure validated.keys) := by
  refine (answering hH hz hne hsu).fetchDnskeys hb (P := fun keys => (H.facts cfg.lib).trusted zone (.secure keys))
    (fun _ => nowSecs_returns) fun s q m now hs hn hq hm hno => ?_
  have hk := hv s (hsu hs) q m hm hn hq now hno
  refine ⟨_,hk,?_⟩
  rintro _ ⟨⟩
  subst hn
  exact keys_of_validated hH hm hq hk

end

section
variable {H : Hierarchy} {zone c : Name} {budget : Nat} {qclass : DnsClass} {servers : List IpAddr}

variable (hH : Honest cfg.toValidation H)
include hH

private theorem crossCut_returns (hc : H.isZone c=true) (hne : servers≠[])
    (hsu : servers⊆H.servers c) (hbu : 0<budget) {m : Message} (hcr : Crosses cfg.lib H zone c m)
    {now : UInt32} (hno : H.valid now) :
    Returns (H.contract cfg.lib)
      (crossCut cfg qclass zone c (H.keys zone) m.nameServers m.nameServers servers now) budget
      fun r b => budget - 1 ≤ b ∧ ∃ state,r=.ok state ∧ (H.facts cfg.lib).trusted c state := by
  unfold crossCut
  rcases hcr now hno with ⟨hn,d,hp⟩ | ⟨hso,⟨facts,hve⟩,hch⟩
  · rw [if_pos (by simp [hn]),hp]
    refine returns_step (by exact nofun) fun _ b hb => ?_
    exact returns_pure ⟨by omega,_,rfl,nofun⟩
  · rw [if_neg (by simpa using hso),hve]
    dsimp only
    split_ifs with hs
    · refine returns_step (by exact nofun) fun _ b hb => ?_
      exact returns_pure ⟨by omega,_,rfl,nofun⟩
    · have hv := hch.resolve_left (by simpa using hs)
      refine (fetchDnskeys_returns hH hc hne hsu hbu hv).andThen fun r b hr => ?_
      obtain ⟨rfl,validated,rfl,ht⟩ := hr
      refine returns_step ht fun _ b hb => ?_
      exact returns_pure ⟨by omega,_,rfl,ht⟩

private theorem extendTrust_returns (hc : H.isZone c=true) (hne : servers≠[])
    (hsu : servers⊆H.servers c) (hbu : 0<budget) {m : Message}
    (hcr : H.keys zone≠[] → Crosses cfg.lib H zone c m) {trust : Option TrustState}
    (htr : ∀ s,trust=some s → (H.facts cfg.lib).trusted zone s) :
    Returns (H.contract cfg.lib) (extendTrust cfg qclass zone c trust m.nameServers servers) budget
      fun r b => budget - 1 ≤ b ∧ ∃ state,r=.trust state ∧ state.isSome=trust.isSome ∧
        ∀ s,state=some s → (H.facts cfg.lib).trusted c s := by
  rcases trust with _ | ⟨keys | _⟩
  · exact returns_pure ⟨by omega,none,rfl,rfl,by rintro _ ⟨⟩⟩
  · obtain ⟨rfl,hke⟩ := htr _ rfl keys rfl
    refine returns_step trivial fun cached b hca => ?_
    obtain ⟨⟨hk,-⟩,rfl⟩ := hca
    cases cached with
    | some state =>
      exact returns_pure ⟨by omega,some state,rfl,rfl,fun s hs => Option.some.inj hs ▸ hk state rfl⟩
    | none =>
      refine nowSecs_returns.andThen fun r b hr => ?_
      obtain ⟨rfl,now,rfl,hn⟩ := hr
      refine (crossCut_returns hH hc hne hsu hbu (hcr hke) hn).andThen fun r b hr => ?_
      obtain ⟨hb,state,rfl,ht⟩ := hr
      exact returns_pure ⟨hb,some state,rfl,rfl,fun s hs => Option.some.inj hs ▸ ht⟩
  · refine returns_step (by exact nofun) fun _ b hb => ?_
    refine returns_pure ⟨by omega,some .insecure,rfl,rfl,?_⟩
    rintro s ⟨⟩
    exact nofun

private theorem rootTrust_returns {anchors : List Anchor}
    (ha : cfg.anchors=some anchors) (hne : cfg.rootHints≠[]) (hh : cfg.rootHints⊆H.servers .root)
    (hbu : 0<budget) :
    Returns (H.contract cfg.lib) (rootTrust cfg qclass anchors) budget
      fun r b => budget - 1 ≤ b ∧ ∃ state,r=.trust state ∧ (H.facts cfg.lib).trusted .root state := by
  refine returns_step trivial fun cached b hc => ?_
  obtain ⟨⟨hk,-⟩,rfl⟩ := hc
  cases cached with
  | some state => exact returns_pure ⟨by omega,state,rfl,hk state rfl⟩
  | none =>
    refine returns_step trivial fun found b hf => ?_
    obtain ⟨⟨hd,-⟩,rfl⟩ := hf
    refine returns_step trivial fun usable b hu => ?_
    obtain ⟨⟨hsu,-,hso⟩,rfl⟩ := hu
    -- cached or from the hints, the servers asked are the root's
    have hro : usable≠([] : List IpAddr) ∧ List.Subset usable (H.servers .root) := by
      rcases found with _ | ⟨zone,known⟩
      · exact ⟨hso hne,fun s hs => hh (hsu hs)⟩
      · obtain ⟨hab,-,hk,hse⟩ := hd zone known rfl
        have hrt : zone=.root := Name.zoneOf_antisymm hab (Name.root_zoneOf zone)
        dsimp only at hsu hso
        rw [if_neg (by simpa using hk)] at hsu hso
        exact ⟨hso hk,fun s hs => hrt ▸ hse (hsu hs)⟩
    refine (fetchDnskeys_returns hH hH.root hro.1 hro.2 hbu
      fun s hs q m hm hn hq now hno =>
        hH.anchored anchors s q m now ha hs hm hn hq hno).andThen fun r b hr => ?_
    obtain ⟨rfl,validated,rfl,ht⟩ := hr
    refine returns_step trivial fun _ b hb => ?_
    refine returns_step ht fun _ b' hb' => ?_
    exact returns_pure ⟨by omega,_,rfl,ht⟩

end

/-- The walk stands at a zone of the tree, with its servers. Only a walk that does not validate may
take itself to be further up. -/
structure At (H : Hierarchy) (lib : Library) (current zone : Name) (servers : List IpAddr)
    (trust : Option TrustState) : Prop where
  isZone : H.isZone zone=true
  above : current.zoneOf zone=true
  nonempty : servers≠[]
  served : servers⊆H.servers zone
  exact : trust.isSome=true → current=zone
  trusted : ∀ s,trust=some s → (H.facts lib).trusted zone s

section
variable {H : Hierarchy} {z zone c current : Name} {budget : Nat} {qclass : DnsClass} {servers : List IpAddr}
  {trust : Option TrustState}
  {m : Message} {inner : Inner} {visited seen : List Name}

private theorem insertGroups_returns {groups : List Rrset}
    (h : ∀ g∈groups,(H.facts cfg.lib).cached g.owner (cfg.lib.typeText g.rtype) g.records false) :
    Returns (H.contract cfg.lib) (insertGroups groups) budget fun _ b => b=budget := by
  induction groups with
  | nil => exact returns_pure rfl
  | cons g gs ih =>
    refine returns_step (h g List.mem_cons_self) fun _ b hb => ?_
    obtain ⟨-,rfl⟩ := hb
    exact ih fun g' hg' => h g' (List.mem_cons_of_mem g hg')

private theorem answerStep_returns {records : List Record} (hat : At H cfg.lib current zone servers trust)
    (hc : (H.facts cfg.lib).cached z (cfg.lib.typeText .DS) records false)
    (hs : signerBelow records zone=none)
    (hve : H.keys zone≠[] → ∀ now,H.valid now →
      (answerVerdict cfg.lib z .DS records m.nameServers zone (H.keys zone) now).withholdsAnswer=false) :
    Returns (H.contract cfg.lib) (answerStep cfg qclass z .DS m records servers current trust) budget
      fun res _ => res.answers=records := by
  have hk : Returns (H.contract cfg.lib) (keysFor cfg qclass current records trust servers) budget
      fun r _ => ∃ judge,r=.ok (judge,trust) ∧ (trust.isSome=true → judge=zone) := by
    unfold keysFor
    rcases trust with _ | state
    · exact returns_pure ⟨current,rfl,nofun⟩
    · rw [if_neg (by simp),hat.exact rfl,hs]
      exact returns_pure ⟨zone,rfl,fun _ => rfl⟩
  refine hk.andThen fun r b hr => ?_
  obtain ⟨judge,rfl,hj⟩ := hr
  have hch : Returns (H.contract cfg.lib) (validateAnswer cfg z .DS records m judge trust) b
      fun v _ => v.withholdsAnswer=false := by
    rcases trust with _ | ⟨keys | _⟩
    · exact returns_pure rfl
    · obtain ⟨rfl,hne⟩ := hat.trusted _ rfl keys rfl
      refine nowSecs_returns.andThen fun r b hr => ?_
      obtain ⟨-,now,rfl,hn⟩ := hr
      rw [hj rfl]
      exact returns_pure (hve hne now hn)
    · exact returns_pure rfl
  refine hch.andThen fun v b hv => ?_
  rw [if_neg (by simp [hv])]
  split
  · refine returns_step hc fun _ b _ => ?_
    exact returns_pure rfl
  · exact returns_pure rfl

variable (hH : Honest cfg.toValidation H) (htext : ∀ t,cfg.lib.typeText t=cfg.lib.typeText .DS → t=.DS) {start : Name}
include hH htext

private theorem referralStep_returns (hat : At H cfg.lib current zone servers trust) (hcu : H.NextCut zone c z)
    {s : IpAddr} {q : OutQuery} (hs : s∈servers) (hm : H.net s q=some m) (hq : q.qtype=.DS)
    {glue : List Record} {targets : List Name} {ttl : Nat}
    (hk : classify m .DS=.referral c glue targets ttl)
    (hcr : H.keys zone≠[] → Crosses cfg.lib H zone c m) (hvi : ∀ v∈visited,v.zoneOf zone=true)
    (hbu : 0<budget) :
    Returns (H.contract cfg.lib)
      (referralStep cfg qclass inner z m c glue targets ttl current trust visited) budget
      fun r b => budget - 1 ≤ b ∧ ∃ next state,r=.ok (next,state) ∧ At H cfg.lib c c next state := by
  obtain ⟨hc,hg,hsu⟩ := hH.refers zone s q m c glue targets ttl hat.isZone (hat.served hs) hm (hq ▸ hk)
  -- nothing at or above the zone is its own child
  have hn : ∀ v,v.zoneOf zone=true → v≠c := by
    rintro v hv rfl
    exact hcu.below.2 (Name.zoneOf_antisymm hv hcu.below.1)
  have hba : referralInBailiwick current c z=true := by
    simp only [referralInBailiwick,Bool.and_eq_true,decide_eq_true_eq]
    exact ⟨⟨Name.zoneOf_trans hat.above hcu.below.1,(hn current hat.above).symm⟩,hcu.encloses⟩
  have hso : glueAddresses (glue.filter fun r => current.zoneOf r.name)≠[] := glueAddresses_filter_ne_nil hat.above hg
  have hse : glueAddresses (glue.filter fun r => current.zoneOf r.name)⊆H.servers c :=
    fun a ha => hsu (glueAddresses_filter_subset ha)
  unfold referralStep
  rw [if_neg (by simp [hba]),if_neg (by simpa using fun h => hn c (hvi c h) rfl)]
  have hd : Returns (H.contract cfg.lib)
      (delegationServers inner (glueAddresses (glue.filter fun r => current.zoneOf r.name)) targets) budget
      fun r b => r=glueAddresses (glue.filter fun r => current.zoneOf r.name) ∧ b=budget := by
    unfold delegationServers
    rw [if_pos (by simpa using hso)]
    exact returns_pure ⟨rfl,rfl⟩
  refine hd.andThen fun next b hne => ?_
  obtain ⟨rfl,rfl⟩ := hne
  rw [if_neg (by simpa using hso)]
  -- a walk that validates knows where it stands
  have he : Returns (H.contract cfg.lib) (extendTrust cfg qclass current c trust m.nameServers
      (glueAddresses (glue.filter fun r => current.zoneOf r.name))) b
      fun r b' => b - 1 ≤ b' ∧ ∃ state,r=.trust state ∧ state.isSome=trust.isSome ∧
        ∀ s,state=some s → (H.facts cfg.lib).trusted c s := by
    rcases trust with _ | state
    · exact returns_pure ⟨by omega,none,rfl,rfl,by rintro _ ⟨⟩⟩
    · rw [hat.exact rfl]
      exact extendTrust_returns hH hc (hat.exact rfl ▸ hso) (hat.exact rfl ▸ hse) hbu hcr hat.trusted
  refine he.andThen fun r b' hr => ?_
  obtain ⟨hb,state,rfl,-,ht⟩ := hr
  have hkn : (H.facts cfg.lib).delegated c (glueAddresses (glue.filter fun r => current.zoneOf r.name)) :=
    ⟨hc,hso,hse⟩
  refine returns_step hkn fun _ b'' hb'' => ?_
  obtain ⟨-,rfl⟩ := hb''
  refine (insertGroups_returns (facts_glue htext fun r hr => ?_)).andThen fun _ b'' hb'' => ?_
  · exact classify_referral_glue hk r (List.mem_filter.mp hr).1
  · subst hb''
    exact returns_pure ⟨hb,_,state,rfl,hc,Name.zoneOf_refl c,hso,hse,fun _ => rfl,ht⟩

/-- The walk for the DS RRset of a zone ends with it when few enough zones are on the way. -/
theorem walk_ends (hz : H.isZone z=true)
    (hds : H.ds z≠[]) {n hops : Nat} (hp : H.Path z zone n) (hat : At H cfg.lib current zone servers trust)
    (hvi : ∀ v∈visited,v.zoneOf zone=true) (hbu : 2*hops ≤ budget) :
    Ends (H.contract cfg.lib) (walk cfg qclass inner z .DS seen hops servers current trust visited) budget
      fun r _ => (n ≤ hops → ∃ res,r=.ok (res,seen) ∧ res.answers=H.ds z) ∧
        (hops<n → r=.error (.tooManyReferrals z)) := by
  induction hops generalizing zone n servers current trust visited budget with
  | zero =>
    refine ends_throw ⟨fun hn => ?_,fun _ => rfl⟩
    cases hp <;> omega
  | succ hops ih =>
    refine ((answering hH hat.isZone hat.nonempty hat.served).queryServers (by omega) z .DS).andThen fun a b ha => ?_
    obtain ⟨rfl,hme,id,hm⟩ := ha
    dsimp only
    cases hp with
    | parent hc =>
      obtain ⟨hk,hs,hve⟩ :=
        hH.answers zone a.server _ a.message (hat.served hme) hat.isZone rfl hm hc hds
      rw [hk]
      refine (answerStep_returns hat (fun _ => rfl) hs hve).andThen fun res b hre => ?_
      exact ends_pure ⟨fun _ => ⟨res,rfl,hre⟩,fun hn => by omega⟩
    | @cut _ c n hc hne rest =>
      obtain ⟨⟨glue,targets,ttl,hk⟩,hcr⟩ :=
        hH.cut zone c a.server _ a.message (hat.served hme) hat.isZone hz rfl hm hc hne
      rw [hk]
      refine (referralStep_returns hH htext hat hc hme hm rfl hk hcr hvi (by omega)).andThen
        fun r b hr => ?_
      obtain ⟨hb,next,state,rfl,hnx⟩ := hr
      have hvi' : ∀ v∈c::visited,v.zoneOf c=true := by
        intro v hv
        rcases List.mem_cons.mp hv with rfl | hv
        · exact Name.zoneOf_refl v
        · exact Name.zoneOf_trans (hvi v hv) hc.below.1
      refine (ih rest hnx hvi' (by omega)).mono fun r _ hr => ⟨fun hn => hr.1 (by omega),fun hn => ?_⟩
      exact hr.2 (by omega)

omit htext in
theorem walk_own_returns (hops : Nat) (hat : At H cfg.lib current zone servers trust) (ho : zone=z)
    (hb : 0<budget) :
    Returns (H.contract cfg.lib)
      (walk cfg qclass inner z .DS seen (hops+1) servers current trust visited) budget
      fun r _ => r.1.answers=[] := by
  obtain rfl := ho.symm
  refine ((answering hH hat.isZone hat.nonempty hat.served).queryServers hb z .DS).andThen fun a b ha => ?_
  obtain ⟨-,hme,id,hm⟩ := ha
  obtain ⟨rcode,soa,hk,hs⟩ :=
    hH.apex z a.server _ a.message (hat.served hme) hat.isZone rfl rfl hm
  dsimp only
  rw [hk]
  have hn : Returns (H.contract cfg.lib)
      (negativeStep cfg qclass z .DS a.message rcode soa servers current trust) b fun res _ => res.answers=[] := by
    have hke : Returns (H.contract cfg.lib)
        (keysFor cfg qclass current a.message.nameServers trust servers) b
        fun r _ => ∃ judge,r=.ok (judge,trust) := by
      unfold keysFor
      rcases trust with _ | state
      · exact returns_pure ⟨current,rfl⟩
      · rw [if_neg (by simp),hat.exact rfl,hs]
        exact returns_pure ⟨z,rfl⟩
    refine hke.andThen fun r b hr => ?_
    obtain ⟨judge,rfl⟩ := hr
    have hc : Returns (H.contract cfg.lib)
        (validateNegative cfg z .DS rcode a.message judge trust) b fun _ _ => True := by
      unfold validateNegative validateWith
      split
      · exact returns_pure trivial
      · refine nowSecs_returns.andThen fun r b hr => ?_
        obtain ⟨-,now,rfl,-⟩ := hr
        exact returns_pure trivial
    refine hc.andThen fun v b _ => ?_
    split
    · exact returns_pure rfl
    · exact returns_pure rfl
  refine hn.andThen fun res b hre => ?_
  exact returns_pure hre

theorem walkFromRoots_ends (hz : H.isZone z=true)
    (hds : H.ds z≠[]) (hne : cfg.rootHints≠[]) (hh : cfg.rootHints⊆H.servers .root)
    {n : Nat} (hp : H.Path z .root n) (hbu : 2*maxReferrals<budget) :
    Ends (H.contract cfg.lib) (walkFromRoots cfg qclass inner z .DS seen) budget
      fun r _ => (n ≤ maxReferrals → ∃ res,r=.ok (res,seen) ∧ res.answers=H.ds z) ∧
        (maxReferrals<n → r=.error (.tooManyReferrals z)) := by
  have hro : ∀ b,Returns (H.contract cfg.lib) (usableRoots cfg.rootHints) b
      fun r b' => b'=b ∧ r≠[] ∧ r⊆H.servers .root := by
    refine fun b => (returns_perform trivial).mono fun r b' hr => ?_
    obtain ⟨⟨hsu,-,hso⟩,rfl⟩ := hr
    exact ⟨rfl,hso hne,fun s hs => hh (hsu hs)⟩
  unfold walkFromRoots
  split
  · refine (hro budget).andThen fun servers b hse => ?_
    obtain ⟨rfl,hso,hsu⟩ := hse
    have hat : At H cfg.lib .root .root servers none :=
      ⟨hH.root,Name.zoneOf_refl _,hso,hsu,fun _ => rfl,fun _ => nofun⟩
    exact walk_ends hH htext hz hds hp hat (by simp) (by omega)
  · rename_i anchors ha
    refine (rootTrust_returns hH ha hne hh (by omega)).andThen fun r b hr => ?_
    obtain ⟨hb,state,rfl,ht⟩ := hr
    refine (hro b).andThen fun servers b' hse => ?_
    obtain ⟨rfl,hso,hsu⟩ := hse
    have hat : At H cfg.lib .root .root servers (some state) :=
      ⟨hH.root,Name.zoneOf_refl _,hso,hsu,fun _ => rfl,fun s hs => Option.some.inj hs ▸ ht⟩
    exact walk_ends hH htext hz hds hp hat (by simp) (by omega)

omit htext hH in
private theorem startServers_returns (hne : servers≠[]) :
    Returns (H.contract cfg.lib) (startServers start servers) budget
      fun r b => b=budget ∧ r≠[] ∧ r⊆servers := by
  unfold startServers
  split
  · refine (returns_perform trivial).mono fun r b hr => ?_
    obtain ⟨⟨hsu,-,hs⟩,rfl⟩ := hr
    exact ⟨rfl,hs hne,hsu⟩
  · exact returns_pure ⟨rfl,hne,List.Subset.refl _⟩

omit htext hH in
/-- A warm walk that does not fail for want of replies is not done again from the roots. -/
theorem warmWalk_ends {Q : Except ResolveError (Resolution × List Name) → Prop}
    (hne : servers≠[]) (hQ : ∀ name,¬ Q (.error (.nameserversUnreachable name)))
    (hw : ∀ usable b,usable≠[] → usable⊆servers → b=budget →
      Ends (H.contract cfg.lib) (walk cfg qclass inner z .DS seen maxReferrals usable start trust []) b
        fun r _ => Q r) :
    Ends (H.contract cfg.lib) (do
        let usable ← startServers start servers
        match ← Routine.attempt (walk cfg qclass inner z .DS seen maxReferrals usable start trust []) with
        | .ok res => return res
        | .error (.nameserversUnreachable _) =>
          delegationInvalidate zone
          walkFromRoots cfg qclass inner z .DS seen
        | .error e => throw e) budget fun r _ => Q r := by
  refine (startServers_returns hne).andThen fun usable b hu => ?_
  obtain ⟨hb,hs,hsu⟩ := hu
  refine Ends.bind (Ends.attempt (hw usable b hs hsu hb) fun r b' hr => ?_)
    (R := fun r _ => Q r) (Q := fun r _ => ∃ x,r=.ok x ∧ Q x) ?_ fun r b' hr => ?_
  · exact ⟨r,rfl,hr⟩
  · rintro e b' ⟨x,hx,-⟩
    cases hx
  · obtain ⟨x,heq,hx⟩ := hr
    cases heq
    split
    · exact ends_pure hx
    · exact absurd hx (hQ _)
    · exact ends_throw hx

end

end RolodexDns.ParentSideWalks
