import RolodexDns.TrustContracts

/-! What every lookup ends in. A predicate on results that holds of refused, cached and withheld ones
and is closed under what the end of one walk establishes holds of every result of every lookup. -/
namespace RolodexDns.LookupContracts
open DomainNames DnsRecords ValidationVerdicts SignatureValidation List
open ResolverCaches ResolverWorld ResponseReading IterativeResolver ProgramTrees Routine ResolverContracts
  TrustContracts

/-- Where a walk for a name stands: in a zone around the name, with the trust believed of it. -/
structure Standing (F : Facts) (val : Validation) (name zone : Name) (trust : Option TrustState) : Prop where
  encloses : zone.zoneOf name=true
  validating : trust.isSome=val.validating
  trusted : ∀ s,trust=some s → F.trusted zone s

variable (F : Facts)

/-- Every server is known as one of a zone at or below the given one. -/
def Serving (zone : Name) (servers : List IpAddr) : Prop :=
  ∀ s∈servers,∃ below known,zone.zoneOf below=true ∧ F.delegated below known ∧ s∈known

theorem Serving.subset {F : Facts} {zone : Name} {servers servers' : List IpAddr} (h : Serving F zone servers)
    (hsu : servers'⊆servers) : Serving F zone servers' := fun s hs => h s (hsu hs)

theorem serving_delegated {F : Facts} {zone below : Name} {servers : List IpAddr}
    (hz : zone.zoneOf below=true) (h : F.delegated below servers) : Serving F zone servers :=
  fun _ hs => ⟨below,servers,hz,h,hs⟩

/-- The verdict `check` gives under the keys of a zone, or none beyond `insecure` without keys. -/
def VerdictOf (state : Option TrustState) (check : List Dnskey → UInt32 → Verdict)
    (v : Verdict) : Prop :=
  (state.bind TrustState.keys=none ∧ v=.insecure) ∨
    ∃ keys now,state=some (.secure keys) ∧ F.clock now ∧ v=check keys now

def glueGroups (glueRecords : List Record) : List Rrset :=
  glueRecords.foldl (fun groups r => addToGroup r groups) []

theorem mem_glueGroups {rs : List Record} {g : Rrset} (h : g∈glueGroups rs) :
    ∃ r∈rs,r.name=g.owner ∧ r.recordType=g.rtype := by
  induction rs using reverseRecOn with
  | nil => cases h
  | append_singleton rs r ih =>
    rw [glueGroups,foldl_append] at h
    rcases mem_addToGroup h with ho | ⟨ht,hn,-⟩
    · obtain ⟨x,hx,hk⟩ := ih ho
      exact ⟨x,mem_append_left _ hx,hk⟩
    · exact ⟨r,by simp,hn.symm,ht.symm⟩

/-- The addresses found for a nameserver, in the cache or by a lookup of its own. -/
def AddressesOf (val : Validation) (Q : Name → RecordType → Resolution → Prop) (ns : Name)
    (servers : List IpAddr) : Prop :=
  (∃ stored ttl secure,F.cached ns (val.lib.typeText .A) stored secure ∧
      servers=v4Addresses (stored.map (·.setTtl ttl))) ∨
    ∃ res,Q ns .A res ∧ servers=v4Addresses res.answers

/-- The results `Q` allows are closed under what the end of a walk establishes, and what a walk
leaves in the caches is covered by the facts. -/
structure Laws (val : Validation) (F : Facts) (Q : Name → RecordType → Resolution → Prop) : Prop
    extends TrustLaws val F where
  address : F.asked .A
  refused : ∀ {name qtype},F.asked qtype → isArpaSubtree name=true → Q name qtype (.answer .Refused [])
  hit : ∀ {name qtype stored secure ttl},F.asked qtype → F.cached name (val.lib.typeText qtype) stored secure →
    Q name qtype ((Resolution.answer .NoError (stored.map (·.setTtl ttl))).withVerdict
      (if secure then .secure else .insecure))
  withheld : ∀ {name qtype v},F.asked qtype → v.withholdsAnswer=true → Q name qtype (.withheld v)
  answered : ∀ {name qtype qclass server m records current trust zone state v},
    F.asked qtype → Reply F val name qtype qclass server m → classify m qtype=.answer records →
    Standing F val name current trust → JudgedBy F val current trust records zone state →
    VerdictOf F state (answerVerdict val.lib name qtype records m.nameServers zone) v →
    v.withholdsAnswer=false →
    Q name qtype ((Resolution.answer m.responseCode records).withVerdict v) ∧
      (m.responseCode=.NoError → F.cached name (val.lib.typeText qtype) records (decide (v=.secure)))
  aliased : ∀ {name qtype qclass server m target records current trust zone state v sub},
    F.asked qtype → Reply F val name qtype qclass server m → classify m qtype=.cname target records →
    Standing F val name current trust → JudgedBy F val current trust records zone state →
    VerdictOf F state (answerVerdict val.lib name .CNAME records m.nameServers zone) v →
    v.withholdsAnswer=false → Q target qtype sub → (v.merge sub.verdict).withholdsAnswer=false →
    Q name qtype ((Resolution.answer sub.rcode (records++sub.answers)).withVerdict (v.merge sub.verdict))
  negative : ∀ {name qtype qclass server m rcode soa current trust zone state v},
    F.asked qtype → Reply F val name qtype qclass server m → classify m qtype=.negative rcode soa →
    Standing F val name current trust → JudgedBy F val current trust m.nameServers zone state →
    VerdictOf F state (negativeVerdict val.lib name qtype rcode m.nameServers zone) v →
    v.withholdsAnswer=false → Q name qtype ⟨rcode,[],soa,v⟩
  referred : ∀ {name qtype qclass server m child glue targets ttl current trust state servers},
    Reply F val name qtype qclass server m → classify m qtype=.referral child glue targets ttl →
    Serving F current [server] → Standing F val name current trust → Below current child →
    Standing F val name child state → servers≠[] →
    (servers=glueAddresses (glue.filter fun r => current.zoneOf r.name) ∨
      glueAddresses (glue.filter fun r => current.zoneOf r.name)=[] ∧
        ∃ ns∈targets,AddressesOf F val Q ns servers) →
    F.delegated child servers ∧ ∀ g∈glueGroups (glue.filter fun r => current.zoneOf r.name),
      F.cached g.owner (val.lib.typeText g.rtype) g.records false
  primed : ∀ {qclass server m},Reply F val .root .NS qclass server m →
    glueAddresses (collectGlueRecords m (m.answers.filterMap fun r => r.data.asNs))≠[] →
    F.delegated .root (glueAddresses (collectGlueRecords m (m.answers.filterMap fun r => r.data.asNs))) ∧
      ∀ g∈glueGroups (collectGlueRecords m (m.answers.filterMap fun r => r.data.asNs)),
        F.cached g.owner (val.lib.typeText g.rtype) g.records false

section
variable {F : Facts} {cfg : Config} {Q : Name → RecordType → Resolution → Prop} {qclass : DnsClass}
  {name : Name} {qtype : RecordType}
  {server : IpAddr} {m : Message} {servers : List IpAddr} {current : Name} {trust : Option TrustState}

private theorem validateWith_ensures {state : Option TrustState} {check : List Dnskey → UInt32 → Verdict} :
    Ensures (F.contract cfg.lib) (validateWith state check)
      fun v => v.withholdsAnswer=false → VerdictOf F state check v := by
  unfold validateWith
  split
  · rename_i hn
    exact ensures_pure fun _ => Or.inl ⟨hn,rfl⟩
  · rename_i keys hk
    apply ensures_step trivial
    intro clock hc
    cases clock with
    | none => exact ensures_pure nofun
    | some now =>
      have hs : state=some (.secure keys) := by
        rcases state with _ | ⟨_ | _⟩ <;> simp_all [TrustState.keys]
      exact ensures_pure fun _ => Or.inr ⟨keys,now,hs,hc now rfl,rfl⟩

private theorem insertGroups_ensures {groups : List Rrset}
    (h : ∀ g∈groups,F.cached g.owner (cfg.lib.typeText g.rtype) g.records false) :
    Ensures (F.contract cfg.lib) (insertGroups groups) fun _ => True := by
  induction groups with
  | nil => exact ensures_pure trivial
  | cons g gs ih =>
    apply ensures_step (h g mem_cons_self)
    intro _ _
    exact ih fun g' hg' => h g' (mem_cons_of_mem g hg')

private theorem warmStart_ensures : Ensures (F.contract cfg.lib) (warmStart cfg name)
    fun r => ∀ zone servers trust,r=some (zone,servers,trust) →
      Serving F (if cfg.lib.textParses zone then zone else .root) servers ∧
        Standing F cfg.toValidation name (if cfg.lib.textParses zone then zone else .root) trust := by
  apply ensures_step trivial
  intro found hf
  cases found with
  | none => exact ensures_pure nofun
  | some hit =>
    obtain ⟨hz,hd⟩ := hf hit.1 hit.2 rfl
    dsimp only
    split_ifs with ho hp
    · apply ensures_pure
      rintro zone servers trust ⟨⟩
      split
      · exact ⟨serving_delegated (Name.zoneOf_refl _) hd,hz,by simpa using ho,nofun⟩
      · exact ⟨serving_delegated (Name.root_zoneOf _) hd,Name.root_zoneOf name,by simpa using ho,nofun⟩
    · exact ensures_pure nofun
    · apply ensures_step trivial
      intro state hs
      cases state with
      | none => exact ensures_pure nofun
      | some trust =>
        apply ensures_pure
        rintro zone servers trust ⟨⟩
        rw [if_pos (by simpa using hp)]
        exact ⟨serving_delegated (Name.zoneOf_refl _) hd,hz,by simpa using ho,hs⟩

private theorem startServers_ensures {zone : Name} : Ensures (F.contract cfg.lib)
    (startServers zone servers) fun r => r⊆servers := by
  unfold startServers
  split
  · exact ensures_perform trivial
  · exact ensures_pure (List.Subset.refl servers)

variable (laws : Laws cfg.toValidation F Q)
include laws

private theorem answerStep_ensures (ha : F.asked qtype)
    (hre : Reply F cfg.toValidation name qtype qclass server m)
    {records : List Record} (hk : classify m qtype=.answer records)
    (hs : Standing F cfg.toValidation name current trust) :
    Ensures (F.contract cfg.lib)
      (answerStep cfg qclass name qtype m records servers current trust) (Q name qtype) := by
  apply Ensures.bind (keysFor_ensures laws.toTrustLaws hs.validating hs.trusted)
  intro r hr
  split
  · exact ensures_pure (laws.withheld ha hr)
  · apply Ensures.bind validateWith_ensures
    intro v hv
    split
    · rename_i hw
      exact ensures_pure (laws.withheld ha hw)
    · rename_i hw
      rw [Bool.not_eq_true] at hw
      obtain ⟨hq,hc⟩ := laws.answered ha hre hk hs hr (hv hw) hw
      split_ifs with hok
      · apply ensures_step (hc hok)
        intro _ _
        exact ensures_pure hq
      · exact ensures_pure hq

private theorem negativeStep_ensures (ha : F.asked qtype)
    (hre : Reply F cfg.toValidation name qtype qclass server m)
    {rcode : ResponseCode} {soa : Option Record} (hk : classify m qtype=.negative rcode soa)
    (hs : Standing F cfg.toValidation name current trust) :
    Ensures (F.contract cfg.lib)
      (negativeStep cfg qclass name qtype m rcode soa servers current trust) (Q name qtype) := by
  apply Ensures.bind (keysFor_ensures laws.toTrustLaws hs.validating hs.trusted)
  intro r hr
  split
  · exact ensures_pure (laws.withheld ha hr)
  · apply Ensures.bind validateWith_ensures
    intro v hv
    split_ifs with hw
    · exact ensures_pure (laws.withheld ha hw)
    · rw [Bool.not_eq_true] at hw
      exact ensures_pure (laws.negative ha hre hk hs hr (hv hw) hw)

section
variable {inner : Inner}
  (hinner : ∀ n t s,F.asked t → Ensures (F.contract cfg.lib) (inner n t s) fun r => Q n t r.1)
  {targets seen : List Name}
include hinner

private theorem cnameStep_ensures (ha : F.asked qtype)
    (hre : Reply F cfg.toValidation name qtype qclass server m)
    {target : Name} {records : List Record}
    (hk : classify m qtype=.cname target records) (hs : Standing F cfg.toValidation name current trust) :
    Ensures (F.contract cfg.lib)
      (cnameStep cfg qclass inner name qtype seen m target records servers current trust)
      fun r => Q name qtype r.1 := by
  unfold cnameStep
  split_ifs
  · exact ensures_throw
  · exact ensures_throw
  · apply Ensures.bind (keysFor_ensures laws.toTrustLaws hs.validating hs.trusted)
    intro r hr
    split
    · exact ensures_pure (laws.withheld ha hr)
    · apply Ensures.bind validateWith_ensures
      intro v hv
      split
      · rename_i hw
        exact ensures_pure (laws.withheld ha hw)
      · rename_i hh
        rw [Bool.not_eq_true] at hh
        apply Ensures.bind (hinner target qtype _ ha)
        intro sub hsu
        dsimp only
        split_ifs with hw
        · exact ensures_pure (laws.withheld ha hw)
        · rw [Bool.not_eq_true] at hw
          exact ensures_pure
            (laws.aliased ha hre hk hs hr (hv hh) hh hsu hw)

private theorem nsAddressesFrom_ensures :
    Ensures (F.contract cfg.lib) (nsAddressesFrom inner targets)
      fun servers => servers≠[] → ∃ ns∈targets,AddressesOf F cfg.toValidation Q ns servers := by
  induction targets with
  | nil => exact ensures_pure fun h => absurd rfl h
  | cons ns rest ih =>
    apply ensures_step trivial
    intro cached hc
    split_ifs with hk
    · cases cached with
      | none => simp [cachedAddresses,v4Addresses] at hk
      | some hit =>
        obtain ⟨stored,ttl,hst,hfa⟩ := hc hit.1 hit.2 rfl
        exact ensures_pure fun _ =>
          ⟨ns,mem_cons_self,Or.inl ⟨stored,ttl,hit.2,hfa,congrArg v4Addresses hst⟩⟩
    · apply Ensures.bind (hinner ns .A [] laws.address).attempt
      intro found hf
      split_ifs with ha
      · cases found with
        | error e => simp [foundAddresses] at ha
        | ok res => exact ensures_pure fun _ =>
            ⟨ns,mem_cons_self,Or.inr ⟨res.1,hf res rfl,rfl⟩⟩
      · apply ih.mono
        intro servers hs hne
        obtain ⟨ns',hns',hof⟩ := hs hne
        exact ⟨ns',mem_cons_of_mem ns hns',hof⟩

private theorem delegationServers_ensures {glue : List IpAddr} :
    Ensures (F.contract cfg.lib) (delegationServers inner glue targets)
      fun servers => servers≠[] → servers=glue ∨
        glue=[] ∧ ∃ ns∈targets,AddressesOf F cfg.toValidation Q ns servers := by
  unfold delegationServers
  split_ifs with hg
  · exact ensures_pure fun _ => Or.inl rfl
  · apply (nsAddressesFrom_ensures laws hinner).mono
    intro servers hs hne
    obtain ⟨ns,hns,hof⟩ := hs hne
    exact Or.inr ⟨by simpa using hg,ns,take_subset _ _ hns,hof⟩

private theorem referralStep_ensures (hr : Reply F cfg.toValidation name qtype qclass server m)
    {child : Name} {glue : List Record} {visited : List Name} {ttl : Nat}
    (hk : classify m qtype=.referral child glue targets ttl)
    (hse : Serving F current [server]) (hs : Standing F cfg.toValidation name current trust) :
    Ensures (F.contract cfg.lib)
      (referralStep cfg qclass inner name m child glue targets ttl current trust visited) fun
      | .ok (next,state) => Serving F child next ∧ Standing F cfg.toValidation name child state
      | .error v => v.withholdsAnswer=true := by
  unfold referralStep
  split_ifs with hb hv
  · exact ensures_throw
  · exact ensures_throw
  · simp only [referralInBailiwick,Bool.not_eq_true,Bool.not_eq_false',Bool.and_eq_true,
      decide_eq_true_eq] at hb
    obtain ⟨⟨hz,hne⟩,hco⟩ := hb
    apply Ensures.bind (delegationServers_ensures laws hinner)
    intro servers hsr
    split_ifs with he
    · exact ensures_throw
    · have hne' : servers≠[] := by simpa using he
      have hso := hsr hne'
      apply Ensures.bind (extendTrust_ensures laws.toTrustLaws hs.validating hs.trusted
        ⟨hz,hne⟩ hr hk)
      intro outcome ho
      cases outcome with
      | failed v => exact ensures_pure ho
      | trust state =>
        have hc : Standing F cfg.toValidation name child state := ⟨hco,ho.1,ho.2⟩
        obtain ⟨hd,hg⟩ := laws.referred hr hk hse hs ⟨hz,hne⟩ hc
          hne' hso
        apply ensures_step hd
        intro _ _
        apply Ensures.bind (insertGroups_ensures hg)
        intro _ _
        exact ensures_pure ⟨serving_delegated (Name.zoneOf_refl child) hd,hc⟩

private theorem walk_ensures (has : F.asked qtype) {visited : List Name} {hops : Nat}
    (hse : Serving F current servers) (hs : Standing F cfg.toValidation name current trust) :
    Ensures (F.contract cfg.lib)
      (walk cfg qclass inner name qtype seen hops servers current trust visited)
      fun r => Q name qtype r.1 := by
  induction hops generalizing servers current trust visited with
  | zero => exact ensures_throw
  | succ hops ih =>
    apply Ensures.bind queryServers_ensures
    intro answered ha
    have hr := ha.2
    have hsr : Serving F current [answered.server] := hse.subset (by simpa using ha.1)
    dsimp only
    split
    · rename_i records hk
      apply Ensures.bind (answerStep_ensures laws has hr hk hs)
      intro res hre
      exact ensures_pure hre
    · rename_i target records hk
      exact cnameStep_ensures laws hinner has hr hk hs
    · rename_i rcode soa hk
      apply Ensures.bind (negativeStep_ensures laws has hr hk hs)
      intro res hre
      exact ensures_pure hre
    · rename_i child glue targets ttl hk
      apply Ensures.bind (referralStep_ensures laws hinner hr hk hsr hs)
      intro next hn
      split
      · exact ensures_pure (laws.withheld has hn)
      · exact ih hn.1 hn.2

private theorem walkFromRoots_ensures (ha : F.asked qtype) (hro : Serving F .root cfg.rootHints) :
    Ensures (F.contract cfg.lib) (walkFromRoots cfg qclass inner name qtype seen)
      fun r => Q name qtype r.1 := by
  unfold walkFromRoots
  split
  · rename_i ho
    apply ensures_step trivial
    intro usable hu
    have hst : Standing F cfg.toValidation name .root none :=
      ⟨Name.root_zoneOf name,by simp [Validation.validating,ho],nofun⟩
    exact walk_ensures laws hinner ha (hro.subset hu) hst
  · rename_i anchors hon
    apply Ensures.bind (rootTrust_ensures laws.toTrustLaws hon)
    intro r hr
    cases r with
    | failed v => exact ensures_pure (laws.withheld ha hr)
    | trust state =>
      apply ensures_step trivial
      intro usable hu
      have hst : Standing F cfg.toValidation name .root (some state) :=
        ⟨Name.root_zoneOf name,by simp [Validation.validating,hon],fun s hs => Option.some.inj hs ▸ hr⟩
      exact walk_ensures laws hinner ha (hro.subset hu) hst

private theorem resolveStep_ensures (ha : F.asked qtype) (hr : Serving F .root cfg.rootHints) :
    Ensures (F.contract cfg.lib) (resolveStep cfg qclass inner name qtype seen)
      fun r => Q name qtype r.1 := by
  unfold resolveStep
  split_ifs with har
  · exact ensures_pure (laws.refused ha har)
  · apply ensures_step trivial
    intro cached hc
    cases cached with
    | some hit =>
      obtain ⟨stored,ttl,hst,hf⟩ := hc hit.1 hit.2 rfl
      apply ensures_pure
      rw [hst]
      exact laws.hit ha hf
    | none =>
      apply Ensures.bind warmStart_ensures
      intro start hsa
      split
      · exact walkFromRoots_ensures laws hinner ha hr
      · rename_i zone servers trust
        obtain ⟨hs,hsn⟩ := hsa zone servers trust rfl
        apply Ensures.bind startServers_ensures
        intro start hsu
        apply Ensures.bind (walk_ensures laws hinner ha (hs.subset hsu) hsn).attempt
        intro outcome ho
        split
        · rename_i res
          exact ensures_pure (ho res rfl)
        · apply ensures_step trivial
          intro _ _
          exact walkFromRoots_ensures laws hinner ha hr
        · exact ensures_throw

end

/-- Every lookup ends in `Q`, at every depth of the recursion. -/
theorem resolveInner_ensures (levels : Nat) (name : Name) (qtype : RecordType)
    (seen : List Name) (ha : F.asked qtype) (hr : Serving F .root cfg.rootHints) :
    Ensures (F.contract cfg.lib) (resolveInner cfg qclass levels name qtype seen)
      fun r => Q name qtype r.1 := by
  induction levels generalizing name qtype seen with
  | zero => exact ensures_throw
  | succ levels ih => exact resolveStep_ensures laws ih ha hr

theorem primeRoots_ensures : Ensures (F.contract cfg.lib) (primeRoots cfg qclass) fun _ => True := by
  apply ensures_step trivial
  intro cached _
  split
  · exact ensures_pure trivial
  · apply ensures_step trivial
    intro attempted _
    split
    · exact ensures_pure trivial
    · apply ensures_step trivial
      intro hints _
      apply Ensures.bind queryServers_ensures.attempt
      intro r hr
      cases r with
      | error e => exact ensures_pure trivial
      | ok answered =>
        dsimp only
        split_ifs with hs
        · exact ensures_pure trivial
        · simp only [Bool.or_eq_true,List.isEmpty_iff,not_or] at hs
          obtain ⟨hd,hg⟩ := laws.primed (hr answered rfl).2 hs.2
          apply Ensures.bind (insertGroups_ensures hg)
          intro _ _
          exact (ensures_perform hd).mono fun _ _ => trivial

end

section
variable {F : Facts} {cfg : Config} {Q : Name → RecordType → Resolution → Prop}

def JobDone (Q : Name → RecordType → Resolution → Prop) : Job → JobResult → Prop
  | .resolve _ name qtype _, some (.ok res) => Q name qtype res
  | _, _ => True

private theorem program_sat (laws : Laws cfg.toValidation F Q) (job : Job)
    (ha : ∀ hints name qtype qclass,job=.resolve hints name qtype qclass →
      F.asked qtype ∧ Serving F .root hints) :
    (Job.program cfg job).Sat (F.contract cfg.lib) (JobDone Q job) := by
  cases job with
  | resolve hints name qtype qclass =>
    -- the laws do not mention the root hints
    obtain ⟨ht,hro⟩ := ha hints name qtype qclass rfl
    have hinner := @resolveInner_ensures F { cfg with rootHints := hints } Q qclass laws
      (maxResolutionDepth+1) name qtype [] ht hro (queryBudget { cfg with rootHints := hints })
    refine Prog.Sat.bind (Prog.Sat.bind hinner fun p hp => (?_ : _)) fun r hr => hr
    obtain ⟨result,budget⟩ := p
    cases result with
    | error e => trivial
    | ok res => exact hp res rfl
  | primeRoots hints qclass =>
    exact Prog.Sat.bind (@primeRoots_ensures F { cfg with rootHints := hints } Q qclass laws
      maxQueriesPerResolution) fun _ _ => trivial

theorem run_holds (laws : Laws cfg.toValidation F Q) {w : World} (hw : F.Hold w) {P : TaskPools.Pool World Op Res Job _}
    (hr : TaskPools.Run (resolver cfg) (.initial w) P) (hc : F.Cover {e | e∈P.log})
    (ha : ∀ hints name qtype qclass,.started (.resolve hints name qtype qclass)∈P.log →
      F.asked qtype ∧ Serving F .root hints) :
    F.Hold P.world ∧ ∀ hints name qtype qclass res,
      .finished (.resolve hints name qtype qclass) (some (.ok res))∈P.log → Q name qtype res := by
  have hj : ∀ job,.started job∈{e | e∈P.log} →
      ((resolver cfg).program job).Sat (F.contract cfg.lib) (JobDone Q job) := fun job hst =>
    program_sat laws job fun hints name qtype qclass heq => ha hints name qtype qclass (heq ▸ hst)
  have hs := TaskPools.Run.safe (upholds cfg hc) hj hr (fun e he => he) (.initial hw)
  exact ⟨hs.world,fun hints name qtype qclass res hf => hs.results _ _ hf⟩

end

end RolodexDns.LookupContracts
