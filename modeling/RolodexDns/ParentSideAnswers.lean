import RolodexDns.ParentSideWalks

/-! Where the DS RRset of a zone comes from. It belongs to the parent, and a walk that starts above
the zone asks the parent for it; a warm start at the zone itself asks the zone's own servers, which
deny it. -/
namespace RolodexDns.ParentSideAnswers
open DomainNames DnsRecords ValidationVerdicts SignatureValidation DenialChains List
open ExpiringMaps ResolverCaches ResolverWorld ResponseReading IterativeResolver ResolverExecution
open TrustContracts HonestHierarchies ParentSideWalks ProgramTrees Routine TaskPools

/-- The zone a lookup starts from: that of the deepest live delegation, if it can be used. -/
def warmZone (cfg : Config) (w : World) (name : Name) : Name :=
  match (w.delegations.bestMatch w.clock name).1 with
  | none => .root
  | some (zone,_) =>
    if !cfg.validating then zone
    else if !cfg.lib.textParses zone then .root
    else if (ExpiringMap.get w.keys w.clock zone).1.isSome then zone else .root

/-- The DS RRset of the zone is in the record cache, or it is asked for from a zone further up, with
few enough zones on the way. -/
def FromAbove (H : Hierarchy) (cfg : Config) (w : World) (z : Name) : Prop :=
  isArpaSubtree z=false ∧ ((w.records.getWithProof cfg.lib w.clock z .DS).1.isSome=true ∨
    warmZone cfg w z≠z ∧ ∀ n,H.Path z (warmZone cfg w z) n → n ≤ maxReferrals)

/-- The records of a section, TTLs aside. -/
def SameRecords (a b : List Record) : Prop := a.map (·.setTtl 0)=b.map (·.setTtl 0)

section
variable {cfg : Config} {H : Hierarchy} {z : Name} {budget : Nat} {qclass : DnsClass} {w w' : World}

private theorem warmStart_executes (hw : (H.facts cfg.lib).Hold w) {x : Except ResolveError _ × Nat}
    (h : Executes (H.acts cfg) (warmStart cfg z budget) w x w') :
    (H.facts cfg.lib).Hold w' ∧ ((x=(.ok none,budget) ∧ warmZone cfg w z=.root) ∨
      ∃ servers trust,x=(.ok (some (warmZone cfg w z,servers,trust)),budget) ∧
        (warmZone cfg w z).zoneOf z=true ∧ (H.facts cfg.lib).delegated (warmZone cfg w z) servers ∧
        (trust.isSome=true → cfg.lib.textParses (warmZone cfg w z)=true) ∧
        ∀ s,trust=some s → (H.facts cfg.lib).trusted (warmZone cfg w z) s) := by
  obtain ⟨found,w₁,ha,hr⟩ := executes_perform_bind h
  obtain ⟨hw₁,hpr,-⟩ := acts_upholds (o := .delegationMatch z) hw trivial ha
  obtain ⟨⟨hm,hwo⟩,-⟩ := ha
  have hf : (w.delegations.bestMatch w.clock z).1=found := by rw [← hm]
  unfold warmZone
  rw [hf]
  cases found with
  | none =>
    obtain ⟨rfl,rfl⟩ := executes_pure hr
    exact ⟨hw₁,Or.inl ⟨rfl,rfl⟩⟩
  | some hit =>
    obtain ⟨zone,servers⟩ := hit
    obtain ⟨hz,hd⟩ := hpr zone servers rfl
    dsimp only at hr ⊢
    split_ifs at hr with ho hp
    · obtain ⟨rfl,rfl⟩ := executes_pure hr
      rw [if_pos ho]
      exact ⟨hw₁,Or.inr ⟨servers,none,rfl,hz,hd,nofun,nofun⟩⟩
    · obtain ⟨rfl,rfl⟩ := executes_pure hr
      rw [if_neg ho,if_pos hp]
      exact ⟨hw₁,Or.inl ⟨rfl,rfl⟩⟩
    · obtain ⟨state,w₂,hact₂,hrest₂⟩ := executes_perform_bind hr
      obtain ⟨hw₂,hk,-⟩ := acts_upholds (o := .keyGet zone) hw₁ trivial hact₂
      obtain ⟨⟨e,hg,hs,-⟩,-⟩ := hact₂
      have hl : (ExpiringMap.get w.keys w.clock zone).1=e := by
        rw [hwo] at hg
        rw [← hg]
      rw [if_neg ho,if_neg hp,hl]
      rcases e with _ | entry
      · rw [hs] at hrest₂
        obtain ⟨rfl,rfl⟩ := executes_pure hrest₂
        exact ⟨hw₂,Or.inl ⟨rfl,rfl⟩⟩
      · rw [hs] at hrest₂ hk
        obtain ⟨rfl,rfl⟩ := executes_pure hrest₂
        exact ⟨hw₂,Or.inr ⟨servers,some entry.value,rfl,hz,hd,fun _ => by simpa using hp,hk⟩⟩

private theorem answers_iff_path {zone : Name} {r : Except ResolveError (Resolution × List Name)} (hz : H.isZone z=true)
    (hbelow : Below zone z)
    (he : ∀ n,H.Path z zone n → (n ≤ maxReferrals → ∃ res,r=.ok (res,[]) ∧ res.answers=H.ds z) ∧
      (maxReferrals<n → r=.error (.tooManyReferrals z))) :
    (∃ res seen,r=.ok (res,seen) ∧ SameRecords res.answers (H.ds z)) ↔
      ∀ n,H.Path z zone n → n ≤ maxReferrals := by
  constructor
  · rintro ⟨res,seen,rfl,-⟩ n hp
    by_contra hn
    cases (he n hp).2 (by omega)
  · intro ha
    obtain ⟨n,hp⟩ := exists_path hz hbelow
    obtain ⟨res,rfl,hr⟩ := (he n hp).1 (ha n hp)
    exact ⟨res,[],rfl,congrArg _ hr⟩

private theorem not_sameRecords_nil (hds : H.ds z≠[]) : ¬ SameRecords [] (H.ds z) :=
  fun h => hds (map_eq_nil_iff.mp h.symm)

variable {inner : Inner}

theorem resolveStep_iff (hH : Honest cfg.toValidation H)
    (hte : ∀ t,cfg.lib.typeText t=cfg.lib.typeText .DS → t=.DS) (hz : H.isZone z=true) (hro : z ≠ .root)
    (hds : H.ds z≠[]) (hne : cfg.rootHints≠[]) (hh : cfg.rootHints⊆H.servers .root)
    (hb : 2*maxReferrals<budget) (hw : (H.facts cfg.lib).Hold w)
    {r : Except ResolveError (Resolution × List Name)} {b : Nat}
    (h : Executes (H.acts cfg) (resolveStep cfg qclass inner z .DS [] budget) w (r,b) w') :
    (∃ res seen,r=.ok (res,seen) ∧ SameRecords res.answers (H.ds z)) ↔ FromAbove H cfg w z := by
  have hup : ∀ ⦃w o r w'⦄,(H.facts cfg.lib).Hold w → (H.contract cfg.lib).demands o → H.acts cfg w o r w' →
      (H.facts cfg.lib).Hold w' ∧ (H.contract cfg.lib).promises o r := fun _ _ _ _ => acts_upholds
  have hbelow : ∀ zone : Name,zone.zoneOf z=true → zone≠z → Below zone z := fun zone h hne => ⟨h,hne.symm⟩
  unfold resolveStep at h
  split_ifs at h with ha
  · obtain ⟨heq,-⟩ := executes_pure h
    cases heq
    refine iff_of_false ?_ fun hf => absurd ha (by simp [hf.1])
    rintro ⟨res,seen,heq,hsa⟩
    cases heq
    exact not_sameRecords_nil hds hsa
  · obtain ⟨cached,w₁,hac,hre⟩ := executes_perform_bind h
    obtain ⟨hw₁,hpr,-⟩ := acts_upholds (o := .recordGet z .DS) hw trivial hac
    obtain ⟨⟨hg,hwo⟩,-⟩ := hac
    have hhi : (w.records.getWithProof cfg.lib w.clock z .DS).1=cached := by rw [← hg]
    have hwa : warmZone cfg w₁ z=warmZone cfg w z := by
      rw [hwo]
      rfl
    unfold FromAbove
    rw [hhi,← hwa,Bool.not_eq_true] at *
    cases cached with
    | some hit =>
      obtain ⟨heq,-⟩ := executes_pure hre
      cases heq
      refine iff_of_true ?_ ⟨ha,Or.inl rfl⟩
      obtain ⟨stored,ttl,hsr,hfa⟩ := hpr hit.1 hit.2 rfl
      refine ⟨_,_,rfl,?_⟩
      dsimp only [Resolution.answer,Resolution.withVerdict]
      rw [hsr,hfa rfl,SameRecords,map_map]
      rfl
    | none =>
      have hse : ∀ {zone : Name},warmZone cfg w₁ z=zone → Below zone z →
          (∀ n,H.Path z zone n → (n ≤ maxReferrals → ∃ res,r=.ok (res,[]) ∧ res.answers=H.ds z) ∧
            (maxReferrals<n → r=.error (.tooManyReferrals z))) →
          ((∃ res seen,r=.ok (res,seen) ∧ SameRecords res.answers (H.ds z)) ↔
            isArpaSubtree z=false ∧ ((none : Option (List Record × Bool)).isSome=true ∨
              warmZone cfg w₁ z≠z ∧ ∀ n,H.Path z (warmZone cfg w₁ z) n → n ≤ maxReferrals)) := by
        rintro zone rfl hbelow hen
        rw [answers_iff_path hz hbelow hen]
        simp [ha,hbelow.2.symm]
      rcases executes_bind hre with ⟨start,b₁,w₂,hst,hc⟩ | ⟨e,b₁,hst,-⟩
      · obtain ⟨hw₂,⟨heq,hzo⟩ | ⟨servers,trust,heq,hab,hd,hpa,ht⟩⟩ :=
          warmStart_executes hw₁ hst
        · cases heq
          refine hse hzo (hbelow .root (Name.root_zoneOf z) hro.symm) fun n hp => ?_
          exact (walkFromRoots_ends hH hte hz hds hne hh hp hb).executes hup hw₂ hc
        · cases heq
          have hat : ∀ usable,usable≠[] → usable⊆servers →
              At H cfg.lib (if cfg.lib.textParses (warmZone cfg w₁ z) then warmZone cfg w₁ z else .root)
                (warmZone cfg w₁ z) usable trust := by
            refine fun usable hso hsu => ⟨hd.1,?_,hso,fun s hs => hd.2.2 (hsu hs),fun h => ?_,ht⟩
            · split
              · exact Name.zoneOf_refl _
              · exact Name.root_zoneOf _
            · rw [if_pos (hpa h)]
          by_cases ho : warmZone cfg w₁ z=z
          · have he : ∃ res seen,r=.ok (res,seen) ∧ res.answers=[] := by
              refine (warmWalk_ends (Q := fun r => ∃ res seen,r=.ok (res,seen) ∧ res.answers=[])
                hd.2.1 (by rintro name ⟨res,seen,heq,-⟩; cases heq) ?_).executes hup hw₂ hc
              rintro usable b hso hsu rfl
              refine Ends.mono (walk_own_returns hH 29 (hat usable hso hsu) ho
                (Nat.zero_lt_of_lt hb)) fun r _ hr => ?_
              obtain ⟨⟨res,seen⟩,rfl,hrs⟩ := hr
              exact ⟨res,seen,rfl,hrs⟩
            obtain ⟨res,seen,rfl,hrs⟩ := he
            refine iff_of_false ?_ (by simp [ho])
            rintro ⟨res',seen',heq,hsa⟩
            cases heq
            exact not_sameRecords_nil hds (hrs ▸ hsa)
          · refine hse rfl (hbelow _ hab ho) fun n hp => ?_
            refine (warmWalk_ends
              (Q := fun r => (n ≤ maxReferrals → ∃ res,r=.ok (res,[]) ∧ res.answers=H.ds z) ∧
                (maxReferrals<n → r=.error (.tooManyReferrals z)))
              hd.2.1 (fun name hq => ?_) ?_).executes hup hw₂ hc
            · rcases Nat.lt_or_ge maxReferrals n with hn | hn
              · cases hq.2 hn
              · obtain ⟨res,heq,-⟩ := hq.1 hn
                cases heq
            · rintro usable b hso hsu rfl
              exact walk_ends hH hte hz hds hp (hat usable hso hsu) (by simp) (by omega)
      · obtain ⟨-,⟨heq,-⟩ | ⟨servers,trust,heq,-⟩⟩ := warmStart_executes hw₁ hst <;> cases heq

end

private theorem lt_queryBudget (cfg : Config) : 2*maxReferrals<queryBudget cfg := by
  unfold queryBudget
  split <;> decide

/-- After any run against an honest tree, a lookup of the DS RRset of a zone ends with what the parent
publishes if and only if the lookup starts above the zone. -/
theorem ds_answer_iff {cfg : Config} {H : Hierarchy} (hH : Honest cfg.toValidation H)
    (htext : ∀ t,cfg.lib.typeText t=cfg.lib.typeText .DS → t=.DS) {delegations : DelegationCache} {clock : Nat}
    (hpersisted : ∀ e∈delegations,(H.facts cfg.lib).delegated e.1 e.2.value)
    {P : ResolverPool}
    (hrun : Run (resolver cfg) (.initial (.fresh delegations clock)) P)
    (hudp : ∀ s q m,.performed (.sendUdp s q) (some m)∈P.log → H.net s q=some m)
    (htcp : ∀ s q m,.performed (.sendTcp s q) (some m)∈P.log → H.net s q=some m)
    (hroots : ∀ hints name qtype qclass,.started (.resolve hints name qtype qclass)∈P.log →
      hints⊆H.servers .root)
    {hints : List IpAddr} (hne : hints≠[]) (hhints : hints⊆H.servers .root) {z : Name}
    (hz : H.isZone z=true) (hroot : z ≠ .root) (hds : H.ds z≠[]) {qclass : DnsClass}
    {outcome : JobResult} {w' : World}
    (h : Executes (H.acts cfg) (Job.program cfg (.resolve hints z .DS qclass)) P.world outcome w') :
    (∃ res,outcome=some (.ok res) ∧ SameRecords res.answers (H.ds z)) ↔ FromAbove H cfg P.world z := by
  have ho := run_true hH htext hpersisted hrun hudp htcp hroots
  obtain ⟨result,w₁,hr,hp⟩ := Executes.bind_inv h
  cases hp
  obtain ⟨⟨r,b⟩,w₂,hi,hp⟩ := Executes.bind_inv hr
  cases hp
  have hif : (∃ res seen,r=.ok (res,seen) ∧ SameRecords res.answers (H.ds z)) ↔ FromAbove H cfg P.world z :=
    @resolveStep_iff { cfg with rootHints := hints } H z _ qclass _ _ _ hH htext hz hroot hds hne hhints
      (lt_queryBudget _) ho _ _ hi
  rw [← hif]
  constructor
  · rintro ⟨res,heq,hs⟩
    cases r with
    | error e => cases heq
    | ok p =>
      cases heq
      exact ⟨p.1,p.2,rfl,hs⟩
  · rintro ⟨res,seen,rfl,hs⟩
    exact ⟨res,rfl,hs⟩

/-- The root server: its own keys, the DS RRset of the domain, a referral to it. -/
def rootReply (q : OutQuery) : Message :=
  if q.name=.root ∧ q.qtype=.DNSKEY then toyReply q .NoError (toyDnskeys .root [1]) [] []
  else if q.name=tld ∧ q.qtype=.DS then toyReply q .NoError tldDs [] []
  else if tld.zoneOf q.name then
    toyReply q .NoError [] (toyRecord tld (.ns tldServer)::tldDs) [toyRecord tldServer (.a 2)]
  else toyReply q .NXDomain [] [] []

def tldApex : List Record :=
  [toyRecord tld (.nsec ⟨tldHost,[.NS,.SOA,.DNSKEY]⟩),toySig tld .NSEC tld [2]]

/-- The domain's server: its own keys, one host, and the denial of a DS RRset at its own apex. -/
def tldReply (q : OutQuery) : Message :=
  if q.name=tld ∧ q.qtype=.DNSKEY then toyReply q .NoError (toyDnskeys tld [2]) [] []
  else if q.name=tldHost ∧ q.qtype=.A then
    toyReply q .NoError [toyRecord tldHost (.a 7),toySig tldHost .A tld [2]] [] []
  else if q.name=tld then
    toyReply q .NoError [] tldApex []
  else toyReply q .NXDomain [] [] []

def tldTree : Hierarchy where
  isZone := fun n => n=.root || n=tld
  servers := fun n => if n=.root then [.v4 1] else if n=tld then [.v4 2] else []
  keys := fun n => if n=.root then [toyKey [1]] else if n=tld then [toyKey [2]] else []
  ds := fun n => if n=tld then tldDs else []
  net := fun server q =>
    if server=.v4 1 then some (rootReply q) else if server=.v4 2 then some (tldReply q) else none
  valid := fun now => now=5

private inductive TldSends (q : OutQuery) : IpAddr → Message → Prop
  | rootKeys (hname : q.name=.root) (hqtype : q.qtype=.DNSKEY) :
      TldSends q (.v4 1) (toyReply q .NoError (toyDnskeys .root [1]) [] [])
  | ds (hname : q.name=tld) (hqtype : q.qtype=.DS) : TldSends q (.v4 1) (toyReply q .NoError tldDs [] [])
  | referral (hds : q.name=tld → q.qtype ≠ .DS) (hbelow : tld.zoneOf q.name=true) :
      TldSends q (.v4 1)
        (toyReply q .NoError [] (toyRecord tld (.ns tldServer)::tldDs) [toyRecord tldServer (.a 2)])
  | elsewhere (hkeys : q.name=.root → q.qtype ≠ .DNSKEY) (hbelow : tld.zoneOf q.name=false) :
      TldSends q (.v4 1) (toyReply q .NXDomain [] [] [])
  | keys (hname : q.name=tld) (hqtype : q.qtype=.DNSKEY) :
      TldSends q (.v4 2) (toyReply q .NoError (toyDnskeys tld [2]) [] [])
  | host (hname : q.name=tldHost) (hqtype : q.qtype=.A) :
      TldSends q (.v4 2) (toyReply q .NoError [toyRecord tldHost (.a 7),toySig tldHost .A tld [2]] [] [])
  | apex (hname : q.name=tld) : TldSends q (.v4 2) (toyReply q .NoError [] tldApex [])
  | absent (hname : q.name≠tld) : TldSends q (.v4 2) (toyReply q .NXDomain [] [] [])

private theorem tldTree_sends {server : IpAddr} {q : OutQuery} {m : Message} (h : tldTree.net server q=some m) :
    TldSends q server m := by
  unfold tldTree rootReply tldReply at h
  dsimp only at h
  split_ifs at h with hs hkeys hds hbelow hs hkeys hh hname <;> cases h <;> subst hs
  · exact .rootKeys hkeys.1 hkeys.2
  · exact .ds hds.1 hds.2
  · exact .referral (fun hname hqtype => hds ⟨hname,hqtype⟩) hbelow
  · exact .elsewhere (fun hname hqtype => hkeys ⟨hname,hqtype⟩) (by simpa using hbelow)
  · exact .keys hkeys.1 hkeys.2
  · exact .host hh.1 hh.2
  · exact .apex hname
  · exact .absent hname

private theorem tldTree_isZone {n : Name} (h : tldTree.isZone n=true) : n=.root ∨ n=tld := by
  simpa [tldTree] using h

private theorem tldTree_server {n : Name} {s : IpAddr} (h : tldTree.isZone n=true) (hs : s∈tldTree.servers n) :
    (n=.root ∧ s=.v4 1) ∨ (n=tld ∧ s=.v4 2) := by
  rcases tldTree_isZone h with rfl | rfl
  · exact Or.inl ⟨rfl,by simpa [tldTree] using hs⟩
  · exact Or.inr ⟨rfl,by simpa [tldTree,show tld ≠ .root by decide] using hs⟩

private theorem tldTree_nextCut {zone c n : Name} (h : tldTree.NextCut zone c n) (hz : tldTree.isZone zone=true)
    (hn : tldTree.isZone n=true) : zone=.root ∧ c=tld ∧ n=tld := by
  have hbelow : ∀ n,¬ Below n .root := fun n hn => hn.2 (Name.zoneOf_antisymm (Name.root_zoneOf n) hn.1)
  have hc : c=tld := (tldTree_isZone h.isZone).resolve_left (by
    rintro rfl
    exact hbelow _ h.below)
  subst hc
  refine ⟨(tldTree_isZone hz).resolve_right ?_,rfl,(tldTree_isZone hn).resolve_left ?_⟩
  · rintro rfl
    exact h.below.2 rfl
  · rintro rfl
    exact absurd h.encloses (by decide)

private theorem tldTree_honest : Honest toyConfig.toValidation tldTree where
  root := by decide
  served := by
    intro zone hz
    rcases tldTree_isZone hz with rfl | rfl <;> decide
  replies := by
    intro zone s q hz hs
    rcases tldTree_server hz hs with ⟨-,rfl⟩ | ⟨-,rfl⟩ <;> exact ⟨_,rfl⟩
  question := by
    intro s q m h
    cases tldTree_sends h <;> exact ⟨rfl,rfl,by simp [validateQuestion,toyReply]⟩
  dnskeys := by
    intro s q m h hqtype
    cases tldTree_sends h with
    | rootKeys hname =>
      rw [hname]
      exact Or.inr (by decide : zoneKeys (toyDnskeys .root [1]) .root=tldTree.keys .root)
    | keys hname =>
      rw [hname]
      exact Or.inr (by decide : zoneKeys (toyDnskeys tld [2]) tld=tldTree.keys tld)
    | ds _ ho | host _ ho => exact absurd (hqtype.symm.trans ho) (by decide)
    | _ => exact Or.inl rfl
  dsRecords := by
    intro s q m records h hqtype hk
    cases tldTree_sends h with
    | ds hname =>
      cases hk
      rw [hname]
      rfl
    | rootKeys _ ho | keys _ ho | host _ ho => exact absurd (hqtype.symm.trans ho) (by decide)
    | _ => cases hk
  refers := by
    intro zone s q m child glue targets ttl hz hs h hk
    cases tldTree_sends h with
    | referral =>
      have hr : classify (toyReply q .NoError [] (toyRecord tld (.ns tldServer)::tldDs)
          [toyRecord tldServer (.a 2)]) q.qtype=.referral tld [toyRecord tldServer (.a 2)] [tldServer] 300 := rfl
      cases hr.symm.trans hk
      rcases tldTree_server hz hs with ⟨rfl,-⟩ | ⟨-,hv4⟩
      · decide +kernel
      · exact absurd hv4 (by decide)
    | rootKeys _ hqtype | ds _ hqtype | keys _ hqtype | host _ hqtype =>
      rw [hqtype] at hk
      cases hk
    | _ => cases hk
  primes := by
    intro s q m h hname hqtype
    cases tldTree_sends h with
    | elsewhere | absent => exact nil_subset _
    | rootKeys _ ho | keys _ ho | host _ ho => exact absurd (hqtype.symm.trans ho) (by decide)
    | ds how | apex how => exact absurd (hname.symm.trans how) (by decide)
    | referral _ hbelow => exact absurd hbelow (by rw [hname]; decide)
  anchored := by
    rintro anchors s q m now ha hs h hname hqtype rfl
    cases ha
    rcases tldTree_server (by decide) hs with ⟨-,rfl⟩ | ⟨hro,-⟩
    · cases tldTree_sends h with
      | rootKeys =>
        exact (by decide +kernel : validateDnskeyRrset toyLibrary .root (toyDnskeys .root [1]) (toyDnskeys .root [1])
          (.anchors [⟨8,[1]⟩]) 5=.ok (tldTree.keys .root))
      | ds how => exact absurd (hname.symm.trans how) (by decide)
      | referral _ hbelow => exact absurd hbelow (by rw [hname]; decide)
      | elsewhere hkeys => exact absurd hqtype (hkeys hname)
    · exact absurd hro (by decide)
  cut := by
    intro zone c s q m hs hz hname hqtype h hc hne
    obtain ⟨-,rfl,how⟩ := tldTree_nextCut hc hz hname
    exact absurd how.symm hne
  answers := by
    intro zone s q m hs hz hqtype h hc hds
    obtain ⟨rfl,how,-⟩ := tldTree_nextCut hc hz hc.isZone
    rcases tldTree_server hz hs with ⟨-,rfl⟩ | ⟨hro,-⟩
    · cases tldTree_sends h with
      | ds hname =>
        rw [hname]
        refine ⟨rfl,by decide,?_⟩
        rintro - now rfl
        exact (by decide +kernel : (answerVerdict toyLibrary tld .DS (tldTree.ds tld) [] .root (tldTree.keys .root)
          5).withholdsAnswer=false)
      | rootKeys _ hkeys => exact absurd (hqtype.symm.trans hkeys) (by decide)
      | referral hds => exact absurd hqtype (hds how)
      | elsewhere _ hbelow => exact absurd hbelow (by rw [how]; decide)
    · exact absurd hro (by decide)
  apex := by
    intro zone s q m hs hz hname hqtype h
    rcases tldTree_server hz hs with ⟨rfl,rfl⟩ | ⟨rfl,rfl⟩
    · cases tldTree_sends h with
      | elsewhere => exact ⟨_,_,rfl,rfl⟩
      | rootKeys _ hkeys => exact absurd (hqtype.symm.trans hkeys) (by decide)
      | ds how => exact absurd (hname.symm.trans how) (by decide)
      | referral _ hbelow => exact absurd hbelow (by rw [hname]; decide)
    · cases tldTree_sends h with
      | apex => exact ⟨_,_,rfl,(by decide : signerBelow tldApex tld=none)⟩
      | keys _ ho | host _ ho => exact absurd (hqtype.symm.trans ho) (by decide)
      | absent ho => exact absurd hname ho

private theorem tldTree_path {n : Nat} (h : tldTree.Path tld .root n) : n=1 := by
  cases h with
  | parent => rfl
  | cut hc hne => exact absurd (tldTree_nextCut hc (by decide) (by decide)).2.1 hne

private theorem toyLibrary_typeText {t : RecordType} (h : toyLibrary.typeText t=toyLibrary.typeText .DS) : t=.DS := by
  obtain ⟨code⟩ := t
  simp only [toyLibrary,RecordType.DS,cons.injEq,and_true] at h
  obtain ⟨hhi,hlo⟩ := h
  have hh := congrArg UInt8.toNat hhi
  have hl := congrArg UInt8.toNat hlo
  simp at hh hl
  have : code.toNat=43 := by
    have := code.toNat_lt
    omega
  rw [RecordType.DS,← UInt16.ofNat_toNat (x := code),this]
  rfl

private theorem tldTree_acts (w : World) (o : Op) :
    tldTree.acts toyConfig w o (respond toyConfig tldTree.net 5 w o).1 (respond toyConfig tldTree.net 5 w o).2 := by
  refine ⟨respond_acts _ _ _ _ _,?_⟩
  cases o <;> first | exact rfl | exact ⟨_,rfl,rfl⟩ | trivial

def tldLookup : Job := .resolve [.v4 1] tld .DS .IN

theorem ds_answer_iff_cold : ∃ res w',
    Executes (tldTree.acts toyConfig) (Job.program toyConfig tldLookup) (.fresh [] 0) (some (.ok res)) w' ∧
    SameRecords res.answers (tldTree.ds tld) := by
  have he := execute_executes (J := Job) tldTree_acts (Job.program toyConfig tldLookup) (.fresh [] 0)
  have hr : Run (resolver toyConfig) (.initial (.fresh [] 0)) (.initial (.fresh [] 0)) := Relation.ReflTransGen.refl
  have ha : FromAbove tldTree toyConfig (.fresh [] 0) tld := by
    refine ⟨by decide,Or.inr ⟨by decide,fun n hp => ?_⟩⟩
    rw [tldTree_path hp]
    decide
  obtain ⟨res,heq,hs⟩ := (ds_answer_iff tldTree_honest (fun _ => toyLibrary_typeText) (forall_mem_nil _)
    hr nofun nofun nofun (cons_ne_nil _ _) (by decide) (by decide) (by decide) (by decide) he).mpr ha
  exact ⟨res,_,heq ▸ he,hs⟩

def warmRun : World × ResolverLog :=
  runJobs toyConfig 5 [(tldTree.net,.resolve [.v4 1] tldHost .A .IN)] (.fresh [] 0) []

/-- Once the domain's delegation and keys are cached its own server is asked, and its denial is
returned as secure. -/
theorem ds_answer_warm : Honest toyConfig.toValidation tldTree ∧ ∃ P res w',
    Run (resolver toyConfig) (.initial (.fresh [] 0)) P ∧
    (∀ s q m,.performed (.sendUdp s q) (some m)∈P.log → tldTree.net s q=some m) ∧
    (∀ s q m,.performed (.sendTcp s q) (some m)∈P.log → tldTree.net s q=some m) ∧
    Executes (tldTree.acts toyConfig) (Job.program toyConfig tldLookup) P.world (some (.ok res)) w' ∧
    tldTree.isZone tld=true ∧ res.verdict=.secure ∧ res.answers=[] ∧ tldTree.ds tld≠[] := by
  have hr := runJobs_run toyConfig 5 [(tldTree.net,.resolve [.v4 1] tldHost .A .IN)] (.fresh [] 0) []
  have hee := execute_executes (J := Job) tldTree_acts (Job.program toyConfig tldLookup) warmRun.1
  have hev : ∀ e∈warmRun.2,EventOf toyConfig 5 tldTree.net (.resolve [.v4 1] tldHost .A .IN) e := by
    intro e he
    rcases mem_runJobs he with hn | ⟨entry,hm,hev⟩
    · cases hn
    · rw [mem_singleton.mp hm] at hev
      exact hev
  exact ⟨tldTree_honest,_,_,_,hr,fun s q m he => (hev _ he).udp,fun s q m he => (hev _ he).tcp,hee,
    by decide,rfl,rfl,by decide⟩

end RolodexDns.ParentSideAnswers
