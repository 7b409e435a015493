import RolodexDns.LookupHistories

/-! The history of a walk: where its delegations and its glue came from. -/
namespace RolodexDns.WalkHistories
open DomainNames DnsRecords SignatureValidation ResolverCaches ResolverWorld ResponseReading List
open IterativeResolver LookupContracts HistoryContracts LookupHistories

def lookupInserts (cfg : Config) : Inserts where
  delegates := Learned (startZone cfg) cfg
  caches log name rtype records := IsAnswer log name rtype records ∨ IsGlue (startZone cfg) cfg log name rtype records

section
variable {cfg : Config} {limit ttl : Nat} {past : LookupLog} {qclass : DnsClass} {servers : List IpAddr}
  {name : Name} {qtype : RecordType}
  {server : IpAddr} {m : Message} {zone child : Name} {trust : Option TrustState}
  {targets visited trail seen : List Name}
  {records glue : List Record}

theorem mem_collectGlueRecords {r : Record} (h : r∈collectGlueRecords m targets) :
    r∈m.additionals ∧ r.name∈targets := by
  simp only [collectGlueRecords,mem_filter,any_eq_true,decide_eq_true_eq] at h
  obtain ⟨⟨hm,target,ht,rfl⟩,-⟩ := h
  exact ⟨hm,ht⟩

/-- Glue as it is cached: every group holds glue of one owner and type. -/
theorem glueGroups_sound {rs : List Record} {g : Rrset} (h : g∈glueGroups rs) :
    ∀ r∈g.records,r∈rs ∧ r.name=g.owner ∧ r.recordType=g.rtype := by
  induction rs using reverseRecOn generalizing g with
  | nil => cases h
  | append_singleton rs r ih =>
    rw [glueGroups,foldl_append] at h
    intro x hx
    rcases mem_addToGroup h with hol | ⟨hty,hna,hon | ⟨g',hg',ho,hr,hmo⟩⟩
    · obtain ⟨hm,hk⟩ := ih hol x hx
      exact ⟨mem_append_left _ hm,hk⟩
    · rw [hon,mem_singleton] at hx
      subst hx
      exact ⟨by simp,hna.symm,hty.symm⟩
    · rw [hmo,mem_append,mem_singleton] at hx
      rcases hx with hx | rfl
      · obtain ⟨hm,hn,ht⟩ := ih hg' x hx
        exact ⟨mem_append_left _ hm,hn.trans ho,ht.trans hr⟩
      · exact ⟨by simp,hna.symm,hty.symm⟩

/-- The cuts down to the signer of a section of a reply may be asked for. -/
theorem askable_cuts (hh : Heard past server name qtype m)
    (hr : records=m.answers ∨ records=m.nameServers) (signer : Name)
    (hs : signerBelow records zone=some signer) : ∀ cut∈cutsBetween zone signer,Askable past cut := by
  intro cut hc
  refine .inr ⟨server,name,qtype,m,zone,signer,hh,?_,hc⟩
  rcases hr with rfl | rfl
  · exact .inl hs
  · exact .inr hs

theorem answerStep_obeys (hh : Heard past server name qtype m)
    (hc : classify m qtype=.answer records) :
    Obeys (discipline cfg limit (lookupInserts cfg)) past
      (answerStep cfg qclass name qtype m records servers zone trust) fun _ _ => True := by
  refine Obeys.bind (keysFor_obeys (askable_cuts hh (.inl (classify_spec hc)))) fun now r hn _ => ?_
  split
  · exact obeys_pure trivial
  · refine Obeys.bind validateWith_obeys fun later v hl _ => ?_
    split
    · exact obeys_pure trivial
    · split
      · have ha : IsAnswer later name qtype records := ⟨server,m,(hh.mono hn).mono hl,hc⟩
        refine step_obeys (.inl ha) (fun _ => rfl) fun _ _ => ?_
        exact obeys_pure trivial
      · exact obeys_pure trivial

theorem negativeStep_obeys (hh : Heard past server name qtype m) {rcode : ResponseCode} {soa : Option Record} :
    Obeys (discipline cfg limit (lookupInserts cfg)) past
      (negativeStep cfg qclass name qtype m rcode soa servers zone trust)
      fun _ _ => True := by
  refine Obeys.bind (keysFor_obeys (askable_cuts hh (.inr rfl))) fun now r _ _ => ?_
  split
  · exact obeys_pure trivial
  · refine Obeys.bind validateWith_obeys fun later v _ _ => ?_
    split
    · exact obeys_pure trivial
    · exact obeys_pure trivial

theorem insertGroups_obeys {I : Inserts} {groups : List Rrset}
    (h : ∀ now,past⊆now → ∀ g∈groups,I.caches now g.owner g.rtype g.records) :
    Obeys (discipline cfg limit I) past (insertGroups groups) fun now _ => past⊆now := by
  induction groups generalizing past with
  | nil => exact obeys_pure (List.Subset.refl _)
  | cons g gs ih =>
    have hs : past⊆past++[⟨.recordInsert g.owner g.rtype g.records false,()⟩] := subset_append_left _ _
    refine step_obeys (h past (List.Subset.refl _) g mem_cons_self) (fun _ => rfl) fun _ _ => ?_
    refine (ih fun now hn g' hg' => h now (List.Subset.trans hs hn) g' (mem_cons_of_mem g hg')).mono ?_
    exact fun now _ _ hn => List.Subset.trans hs hn

/-- The glue of a referral that is cached is the sender's to give. -/
theorem isGlue_of_refers (hw : Walks (startZone cfg) cfg past name qtype zone servers visited)
    (hre : Refers past name qtype zone servers child glue targets ttl) {g : Rrset}
    (hg : g∈glueGroups (ownGlue zone glue)) :
    IsGlue (startZone cfg) cfg past g.owner g.rtype g.records := by
  obtain ⟨r,hr,ho,-⟩ := mem_glueGroups hg
  obtain ⟨hgl,hz⟩ := mem_filter.mp hr
  obtain ⟨server,-,m,-,hc⟩ := hre.heard
  refine ⟨name,qtype,zone,servers,visited,child,glue,targets,ttl,hw,hre,?_,?_,fun x hx => ?_⟩
  · rw [← ho]
    exact hz
  · rw [show glue=_ from classify_spec hc] at hgl
    rw [← ho]
    exact (mem_collectGlueRecords hgl).2
  · obtain ⟨hm,hk⟩ := glueGroups_sound hg x hx
    exact ⟨(mem_filter.mp hm).1,hk⟩

/-- A zone around a name outside `arpa.` is outside too. -/
theorem isArpaSubtree_of_zoneOf (hz : child.zoneOf name=true) (h : isArpaSubtree name=false) :
    isArpaSubtree child=false := by
  obtain ⟨front,hf⟩ := Name.zoneOf_iff_suffix.mp hz
  cases hl : child.labels with
  | nil => simp [isArpaSubtree,hl]
  | cons l ls =>
    rw [hl] at hf
    unfold isArpaSubtree at h ⊢
    rw [← hf,getLast?_append_of_ne_nil _ (by simp)] at h
    rw [hl]
    exact h

theorem warmStart_obeys : Obeys (discipline cfg limit (lookupInserts cfg)) past (warmStart cfg name) fun now r =>
    ∀ start known trust,r=some (start,known,trust) → ⟨.delegationMatch name,some (start,known)⟩∈now ∧
      (cfg.validating=true → trust.isSome=true ∧ cfg.lib.textParses start=true) := by
  refine step_obeys trivial (fun _ => rfl) fun found _ => ?_
  match found with
  | none => exact obeys_pure nofun
  | some (start,known) =>
    dsimp only
    split_ifs with hv ht
    · refine obeys_pure fun start' known' trust heq => ?_
      cases heq
      refine ⟨mem_concat_self,fun hv' => ?_⟩
      rw [hv'] at hv
      cases hv
    · exact obeys_pure nofun
    · refine step_obeys trivial (fun _ => rfl) fun state _ => ?_
      cases state with
      | none => exact obeys_pure nofun
      | some state =>
        refine obeys_pure fun start' known' trust heq => ?_
        cases heq
        exact ⟨by simp,fun _ => ⟨rfl,by simpa using ht⟩⟩

theorem startServers_obeys {start : Name} {known : List IpAddr} :
    Obeys (discipline cfg limit (lookupInserts cfg)) past (startServers start known)
      fun _ next => List.Subset next known := by
  unfold startServers
  split
  · refine obeys_perform (admits trivial fun _ => rfl) fun usable hu => ?_
    obtain ⟨w,-,hu,-⟩ := hu
    rw [hu]
    exact ResolverContracts.usableRoots_subset
  · exact obeys_pure (List.Subset.refl _)

variable {inner : Inner}
  (hinner : ∀ past n t seen,Obeys (discipline cfg limit (lookupInserts cfg)) past (inner n t seen) fun _ _ => True)
include hinner

theorem cnameStep_obeys (hh : Heard past server name qtype m) {target : Name}
    (hc : classify m qtype=.cname target records) :
    Obeys (discipline cfg limit (lookupInserts cfg)) past
      (cnameStep cfg qclass inner name qtype seen m target records servers zone trust)
      fun _ _ => True := by
  unfold cnameStep
  split_ifs
  · exact obeys_throw
  · exact obeys_throw
  · refine Obeys.bind (keysFor_obeys (askable_cuts hh (.inl (classify_spec hc).1))) fun now r _ _ => ?_
    split
    · exact obeys_pure trivial
    · refine Obeys.bind validateWith_obeys fun later v _ _ => ?_
      split
      · exact obeys_pure trivial
      · refine Obeys.bind (hinner later target qtype _) fun end_ sub _ _ => ?_
        dsimp only
        split
        · exact obeys_pure trivial
        · exact obeys_pure trivial

theorem delegationServers_obeys {glue : List IpAddr} :
    Obeys (discipline cfg limit (lookupInserts cfg)) past (delegationServers inner glue targets)
      fun _ next => glue≠[] → next=glue := by
  have hf : ∀ (past : LookupLog) (targets : List Name),
      Obeys (discipline cfg limit (lookupInserts cfg)) past (nsAddressesFrom inner targets) fun _ _ => True := by
    intro past targets
    induction targets generalizing past with
    | nil => exact obeys_pure trivial
    | cons ns rest ih =>
      refine step_obeys trivial (fun _ => rfl) fun cached _ => ?_
      split
      · exact obeys_pure trivial
      · refine Obeys.bind ((hinner _ ns .A []).attempt (Q := fun _ _ => True) (by simp) (by simp))
          fun now found _ _ => ?_
        split
        · exact obeys_pure trivial
        · exact ih now
  unfold delegationServers
  split_ifs with hg
  · exact obeys_pure fun _ => rfl
  · refine (hf past _).mono fun _ next _ _ hne => ?_
    exact absurd (by simpa using hg) hne

/-- A referral is followed after the trust in its zone is known, and then remembered. -/
theorem referralStep_obeys (hn : isArpaSubtree name=false)
    (hw : Walks (startZone cfg) cfg past name qtype zone servers visited)
    (hse : server∈servers) (hh : Heard past server name qtype m)
    (hc : classify m qtype=.referral child glue targets ttl) (ht : cfg.validating=true → trust.isSome=true) :
    Obeys (discipline cfg limit (lookupInserts cfg)) past
      (referralStep cfg qclass inner name m child glue targets ttl zone trust seen) fun now r =>
        ∀ next state,r=.ok (next,state) → Walks (startZone cfg) cfg now name qtype child next (zone::visited) ∧
          (cfg.validating=true → state.isSome=true) := by
  unfold referralStep
  split_ifs with hb hsn
  · exact obeys_throw
  · exact obeys_throw
  · rw [Bool.not_eq_true,Bool.not_eq_false'] at hb
    have hr : Refers past name qtype zone servers child glue targets ttl :=
      ⟨⟨server,hse,m,hh,hc⟩,hb⟩
    have hch : isArpaSubtree child=false := by
      simp only [referralInBailiwick,Bool.and_eq_true] at hb
      exact isArpaSubtree_of_zoneOf hb.2 hn
    refine Obeys.bind (delegationServers_obeys hinner) fun known next hk hne => ?_
    split
    · exact obeys_throw
    · refine Obeys.bind (extendTrust_obeys (.inl hch)) fun now outcome hno ho => ?_
      have hs : past⊆now := List.Subset.trans hk hno
      cases outcome with
      | failed v =>
        refine obeys_pure ?_
        rintro _ _ ⟨⟩
      | trust state =>
        have hle : Learned (startZone cfg) cfg now child next ttl :=
          ⟨name,qtype,zone,servers,visited,glue,targets,hw.mono hs,hr.mono hs,hne,
            fun hv => (ho state rfl (ht hv)).2⟩
        refine step_obeys hle (fun _ => rfl) fun _ _ => ?_
        have hs' : past⊆now++[⟨.delegationInsert child next ttl,()⟩] :=
          List.Subset.trans hs (subset_append_left _ _)
        refine Obeys.bind (insertGroups_obeys fun later hl g hg => ?_) fun later _ _ hl => ?_
        · have hp : past⊆later := List.Subset.trans hs' hl
          exact .inr (isGlue_of_refers (hw.mono hp) (hr.mono hp) hg)
        · refine obeys_pure fun next' state' heq => ?_
          cases heq
          have hp : past⊆later := List.Subset.trans hs' hl
          refine ⟨.referred (hw.mono hp) (hr.mono hp) (hl mem_concat_self),fun hv => ?_⟩
          exact (ho state rfl (ht hv)).1

theorem walk_obeys (hn : isArpaSubtree name=false) {hops : Nat}
    (hw : Walks (startZone cfg) cfg past name qtype zone servers visited)
    (ht : cfg.validating=true → trust.isSome=true) :
    Obeys (discipline cfg limit (lookupInserts cfg)) past
      (walk cfg qclass inner name qtype trail hops servers zone trust seen) fun _ _ => True := by
  induction hops generalizing past servers zone trust visited seen with
  | zero => exact obeys_throw
  | succ hops ih =>
    refine Obeys.bind (queryServers_obeys (.inl hn)) fun now answered hno ha => ?_
    dsimp only
    split
    · rename_i records hc
      refine Obeys.bind (answerStep_obeys ha.2 hc) fun _ _ _ _ => ?_
      exact obeys_pure trivial
    · rename_i target records hc
      exact cnameStep_obeys hinner ha.2 hc
    · refine Obeys.bind (negativeStep_obeys ha.2) fun _ _ _ _ => ?_
      exact obeys_pure trivial
    · rename_i child glue targets ttl hc
      refine Obeys.bind (referralStep_obeys hinner hn (hw.mono hno) ha.1 ha.2 hc ht)
        fun later r hl hr => ?_
      split
      · exact obeys_pure trivial
      · rename_i next state
        obtain ⟨hne,hs⟩ := hr next state rfl
        exact ih hne hs

theorem walkFromRoots_obeys (hn : isArpaSubtree name=false) :
    Obeys (discipline cfg limit (lookupInserts cfg)) past (walkFromRoots cfg qclass inner name qtype trail)
      fun _ _ => True := by
  unfold walkFromRoots
  split
  · rename_i ha
    refine step_obeys trivial (fun _ => rfl) fun usable hu => ?_
    obtain ⟨w,-,hu,-⟩ := hu
    refine walk_obeys hinner hn (.roots ?_) fun hv => ?_
    · rw [hu]
      exact ResolverContracts.usableRoots_subset
    · simp [Validation.validating,ha] at hv
  · rename_i anchors ha
    refine Obeys.bind (rootTrust_obeys ha) fun now r _ _ => ?_
    cases r with
    | failed v => exact obeys_pure trivial
    | trust state =>
      refine step_obeys trivial (fun _ => rfl) fun usable hu => ?_
      obtain ⟨w,-,hu,-⟩ := hu
      refine walk_obeys hinner hn (.roots ?_) fun _ => rfl
      rw [hu]
      exact ResolverContracts.usableRoots_subset

theorem resolveStep_obeys :
    Obeys (discipline cfg limit (lookupInserts cfg)) past (resolveStep cfg qclass inner name qtype trail)
      fun _ _ => True := by
  unfold resolveStep
  split_ifs with ha
  · exact obeys_pure trivial
  · rw [Bool.not_eq_true] at ha
    refine step_obeys trivial (fun _ => rfl) fun hit _ => ?_
    cases hit with
    | some hit => exact obeys_pure trivial
    | none =>
      refine Obeys.bind warmStart_obeys fun now r _ hr => ?_
      match r with
      | none => exact walkFromRoots_obeys hinner ha
      | some (start,known,trust) =>
        obtain ⟨hm,ht⟩ := hr start known trust rfl
        refine Obeys.bind startServers_obeys fun later servers hl hs => ?_
        have hw : Walks (startZone cfg) cfg later name qtype (startZone cfg start) servers [] :=
          .cached (hl hm) (fun hv => (ht hv).2) hs
        refine Obeys.bind ((walk_obeys hinner ha hw fun hv => (ht hv).1).attempt (Q := fun _ _ => True)
          (by simp) (by simp))
          fun ended r _ _ => ?_
        split
        · exact obeys_pure trivial
        · refine step_obeys trivial (fun _ => rfl) fun _ _ => ?_
          exact walkFromRoots_obeys hinner ha
        · exact obeys_throw

end

variable {cfg : Config} {limit : Nat} {qclass : DnsClass}

theorem resolveInner_obeys (levels : Nat) (past : LookupLog)
    (name : Name) (qtype : RecordType) (trail : List Name) :
    Obeys (discipline cfg limit (lookupInserts cfg)) past (resolveInner cfg qclass levels name qtype trail)
      fun _ _ => True := by
  induction levels generalizing past name qtype trail with
  | zero => exact obeys_throw
  | succ levels ih => exact resolveStep_obeys ih

theorem resolve_keeps (cfg : Config) (name : Name) (qtype : RecordType) (qclass : DnsClass) :
    Keeps (discipline cfg (queryBudget cfg) (lookupInserts cfg)) [] (resolve cfg name qtype qclass) fun _ _ =>
      True := by
  refine Keeps.bind (resolveInner_obeys _ [] name qtype [] (queryBudget cfg) ?_) fun _ _ _ _ => trivial
  exact (Nat.zero_add _).le

/-- The glue of a priming response: the addresses of the nameservers it lists for the root. -/
def IsRootGlue (log : LookupLog) (owner : Name) (rtype : RecordType) (records : List Record) : Prop :=
  ∃ server m,Heard log server .root .NS m ∧ owner∈m.answers.filterMap (fun r => r.data.asNs) ∧
    ∀ r∈records,r∈m.additionals ∧ r.name=owner ∧ r.recordType=rtype

def primingInserts : Inserts where
  delegates _ zone _ _ := zone=.root
  caches := IsRootGlue

theorem primeRoots_obeys {past : LookupLog} :
    Obeys (discipline cfg limit primingInserts) past (primeRoots cfg qclass) fun _ _ => True := by
  refine step_obeys trivial (fun _ => rfl) fun known _ => ?_
  cases known with
  | some known => exact obeys_pure trivial
  | none =>
    refine step_obeys trivial (fun _ => rfl) fun attempted _ => ?_
    split_ifs
    · exact obeys_pure trivial
    · refine step_obeys trivial (fun _ => rfl) fun hints _ => ?_
      refine Obeys.bind ((queryServers_obeys .root).attempt
        (Q := fun now r => ∀ a,r=.ok a → Heard now a.server .root .NS a.message) ?_ nofun) fun now r _ hr => ?_
      · intro now a _ ha a' heq
        cases heq
        exact ha.2
      · cases r with
        | error e => exact obeys_pure trivial
        | ok answered =>
          have hh := hr answered rfl
          dsimp only
          split
          · exact obeys_pure trivial
          · refine Obeys.bind (insertGroups_obeys fun later hl g hg => ?_) fun _ _ _ _ => ?_
            · obtain ⟨r,hm,ho,-⟩ := mem_glueGroups hg
              refine ⟨answered.server,answered.message,hh.mono hl,?_,fun x hx => ?_⟩
              · rw [← ho]
                exact (mem_collectGlueRecords hm).2
              · obtain ⟨hm,hk⟩ := glueGroups_sound hg x hx
                exact ⟨(mem_collectGlueRecords hm).1,hk⟩
            · refine obeys_perform (admits rfl fun _ => rfl) fun _ _ => trivial

end RolodexDns.WalkHistories
