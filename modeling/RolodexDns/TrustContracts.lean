import RolodexDns.ResolverContracts

/-! The chain of trust across zone cuts: every trust state a routine ends up with is believed, for any
notion of belief that is closed under what one cut establishes. -/
namespace RolodexDns.TrustContracts
open DomainNames DnsRecords ValidationVerdicts SignatureValidation DenialProofs VerifiedDenial List
open ResolverCaches ResolverWorld ResponseReading IterativeResolver ProgramTrees Routine ResolverContracts

def Below (parent child : Name) : Prop := parent.zoneOf child=true ∧ child≠parent

/-- Where the DS RRset of a cut and its denial are read: both in the authority section of a referral
to the child, or in the sections of a reply about its DS RRset. -/
inductive CutSections (F : Facts) (val : Validation) (child : Name) : List Record → List Record → Prop where
  | referral {name qtype qclass server m glue targets ttl} (reply : Reply F val name qtype qclass server m)
      (kind : classify m qtype=.referral child glue targets ttl) :
    CutSections F val child m.nameServers m.nameServers
  | probe {qclass server m} (reply : Reply F val child .DS qclass server m) :
    CutSections F val child m.answers m.nameServers

/-- The trust states that may be believed are closed under what one step of the chain of trust
establishes. -/
structure TrustLaws (val : Validation) (F : Facts) : Prop where
  anchored : ∀ {anchors qclass server m now keys},val.anchors=some anchors →
    Reply F val .root .DNSKEY qclass server m → F.clock now →
    validateDnskeyRrset val.lib .root m.answers m.answers (.anchors anchors) now=.ok keys →
    F.trusted .root (.secure keys)
  inherited : ∀ {parent child},F.trusted parent .insecure → Below parent child → F.trusted child .insecure
  unsigned : ∀ {parent child parentKeys ds denial now r},F.trusted parent (.secure parentKeys) →
    Below parent child → CutSections F val child ds denial → F.clock now → recordsAt ds child .DS=[] →
    proveNoDs val.lib child (verifiedDenial val.lib denial parent parentKeys now)=.ok r →
    F.trusted child .insecure
  unsupported : ∀ {parent child parentKeys ds denial now facts},F.trusted parent (.secure parentKeys) →
    Below parent child → CutSections F val child ds denial → F.clock now →
    verifyRrset val.lib child .DS (recordsAt ds child .DS) ds parentKeys parent now=.ok facts →
    dsAlgorithmsSupported val.lib (dsRecords (recordsAt ds child .DS) child)=false →
    F.trusted child .insecure
  delegated : ∀ {parent child parentKeys ds denial now facts qclass server m now' keys},
    F.trusted parent (.secure parentKeys) → Below parent child → CutSections F val child ds denial →
    F.clock now →
    verifyRrset val.lib child .DS (recordsAt ds child .DS) ds parentKeys parent now=.ok facts →
    dsAlgorithmsSupported val.lib (dsRecords (recordsAt ds child .DS) child)=true →
    Reply F val child .DNSKEY qclass server m → F.clock now' →
    validateDnskeyRrset val.lib child m.answers m.answers
      (.ds (dsRecords (recordsAt ds child .DS) child)) now'=.ok keys →
    F.trusted child (.secure keys)

section
variable {F : Facts} {cfg : Config} {qclass : DnsClass} {servers : List IpAddr} {parent : Name}
  {trust : Option TrustState} {zone : Name}

private theorem fetchDnskeys_ensures {source : KeySource} :
    Ensures (F.contract cfg.lib) (fetchDnskeys cfg qclass zone servers source) fun r =>
      ∀ validated,r=.ok validated → ∃ server m now,Reply F cfg.toValidation zone .DNSKEY qclass server m ∧
        F.clock now ∧
        validateDnskeyRrset cfg.lib zone m.answers m.answers source now=.ok validated.keys := by
  apply Ensures.bind queryServers_ensures.attempt
  intro r hr
  cases r with
  | error e => exact ensures_pure nofun
  | ok answered =>
    apply ensures_step trivial
    intro clock hc
    cases clock with
    | none => exact ensures_pure nofun
    | some now =>
      dsimp only
      split
      · exact ensures_pure nofun
      · rename_i keys hk
        apply ensures_pure
        rintro _ ⟨⟩
        exact ⟨answered.server,answered.message,now,(hr answered rfl).2,hc now rfl,hk⟩

/-- A believed trust state, or a verdict that withholds. -/
def Established (F : Facts) (zone : Name) : Except Verdict TrustState → Prop
  | .ok state => F.trusted zone state
  | .error v => v.withholdsAnswer=true

variable (laws : TrustLaws cfg.toValidation F) {origin target : Name}
include laws

theorem rootTrust_ensures {anchors : List Anchor} (ha : cfg.anchors=some anchors) :
    Ensures (F.contract cfg.lib) (rootTrust cfg qclass anchors) fun
      | .trust state => Established F .root (.ok state)
      | .failed v => Established F .root (.error v) := by
  apply ensures_step trivial
  intro cached hc
  cases cached with
  | some state => exact ensures_pure (hc state rfl)
  | none =>
    apply ensures_step trivial
    intro _ _
    apply ensures_step trivial
    intro usable _
    apply Ensures.bind fetchDnskeys_ensures
    intro r hr
    split
    · rename_i validated
      obtain ⟨server,m,now,hre,hcl,hk⟩ := hr validated rfl
      have ht := laws.anchored ha hre hcl hk
      apply ensures_step trivial
      intro _ _
      apply ensures_step ht
      intro _ _
      exact ensures_pure ht
    · apply ensures_step trivial
      intro _ _
      exact ensures_pure rfl
    · exact ensures_throw

variable {state : TrustState} {child : Name}

omit laws in
private theorem keyInsert_ensures {ttl : Nat} (h : F.trusted zone state) :
    Ensures (F.contract cfg.lib)
      (do keyInsert zone state ttl; return .ok state : Lookup (Except Verdict TrustState))
      (Established F zone) := by
  apply ensures_step h
  intro _ _
  exact ensures_pure h

/-- A cut is crossed to a believed trust state, or not at all. -/
private theorem crossCut_ensures {parentKeys : List Dnskey}
    {ds denial : List Record} {now : UInt32} (hp : F.trusted parent (.secure parentKeys))
    (hb : Below parent child) (hc : CutSections F cfg.toValidation child ds denial) (hn : F.clock now) :
    Ensures (F.contract cfg.lib) (crossCut cfg qclass parent child parentKeys ds denial servers now)
      (Established F child) := by
  unfold crossCut
  dsimp only
  split
  · rename_i he
    split
    · rename_i r hno
      exact keyInsert_ensures (laws.unsigned hp hb hc hn (by simpa using he) hno)
    · exact ensures_pure rfl
  · split
    · exact ensures_pure rfl
    · rename_i facts hv
      split
      · rename_i hu
        exact keyInsert_ensures (laws.unsupported hp hb hc hn hv (by simpa using hu))
      · rename_i hs
        apply Ensures.bind fetchDnskeys_ensures
        intro r hr
        split
        · rename_i validated
          obtain ⟨server,m,now',hre,hcl,hk⟩ := hr validated rfl
          exact keyInsert_ensures (laws.delegated hp hb hc hn hv (by simpa using hs) hre
            hcl hk)
        · exact ensures_pure rfl

/-- The trust a walk or a response is left with, or a verdict that withholds. -/
def Outcome (F : Facts) (val : Validation) (zone : Name) : TrustOutcome → Prop
  | .trust state => state.isSome=val.validating ∧ ∀ s,state=some s → F.trusted zone s
  | .failed v => v.withholdsAnswer=true

theorem extendTrust_ensures {name : Name} {qtype : RecordType}
    {server : IpAddr} {m : Message} {glue targets ttl}
    (hv : trust.isSome=cfg.validating) (hp : ∀ s,trust=some s → F.trusted parent s)
    (hb : Below parent child) (hre : Reply F cfg.toValidation name qtype qclass server m)
    (hk : classify m qtype=.referral child glue targets ttl) :
    Ensures (F.contract cfg.lib) (extendTrust cfg qclass parent child trust m.nameServers servers)
      (Outcome F cfg.toValidation child) := by
  unfold extendTrust
  split
  · exact ensures_pure ⟨hv,nofun⟩
  · have ht := laws.inherited (hp .insecure rfl) hb
    apply ensures_step ht
    intro _ _
    exact ensures_pure ⟨hv,fun s hs => Option.some.inj hs ▸ ht⟩
  · rename_i parentKeys
    apply ensures_step trivial
    intro cached hc
    cases cached with
    | some state => exact ensures_pure ⟨hv,hc⟩
    | none =>
      apply ensures_step trivial
      intro clock hcl
      cases clock with
      | none => exact ensures_pure rfl
      | some now =>
        apply Ensures.bind (crossCut_ensures laws (hp _ rfl) hb (.referral hre hk)
          (hcl now rfl))
        intro r hr
        cases r with
        | ok state => exact ensures_pure ⟨hv,fun s hs => Option.some.inj hs ▸ hr⟩
        | error v => exact ensures_pure hr

private def Descends : Name → List Name → Prop
  | _, [] => True
  | parent, cut::cuts => Below parent cut ∧ Descends cut cuts

omit laws in
private theorem descends_trimTo (target : Name) (d k : Nat) (h : k+d=target.labels.length) :
    Descends (target.trimTo k) ((range d).map fun i => target.trimTo (k+1+i)) ∧
      ((range d).map fun i => target.trimTo (k+1+i)).getLastD (target.trimTo k)=target := by
  induction d generalizing k with
  | zero =>
    refine ⟨trivial,?_⟩
    have hk := Name.trimTo_eq_of_zoneOf (Name.zoneOf_refl target)
    rw [← h] at hk
    simpa using hk
  | succ d ih =>
    have hst : Below (target.trimTo k) (target.trimTo (k+1)) := by
      have hl := Name.trimTo_length target k
      have hl' := Name.trimTo_length target (k+1)
      refine ⟨Name.zoneOf_of_length_le (Name.trimTo_zoneOf target k) (Name.trimTo_zoneOf target (k+1))
        (by omega),fun heq => ?_⟩
      rw [heq] at hl'
      omega
    obtain ⟨hd,hla⟩ := ih (k+1) (by omega)
    have hs : ((range (d+1)).map fun i => target.trimTo (k+1+i)) =
        target.trimTo (k+1)::(range d).map fun i => target.trimTo (k+1+1+i) := by
      rw [range_succ_eq_map,map_cons,map_map]
      congr 1
      apply map_congr_left
      intro i _
      simp only [Function.comp_apply]
      congr 1
      omega
    rw [hs]
    exact ⟨⟨hst,hd⟩,by rwa [getLastD_cons]⟩

omit laws in
/-- The cuts lead down from the origin and end at the target. -/
private theorem cutsBetween_descends (h : origin.zoneOf target=true) :
    Descends origin (cutsBetween origin target) ∧ (cutsBetween origin target).getLastD origin=target := by
  have hl := Name.length_le_of_zoneOf h
  have hd := descends_trimTo target (target.labels.length - origin.labels.length) origin.labels.length
    (by omega)
  rwa [Name.trimTo_eq_of_zoneOf h] at hd

private theorem descendFrom_ensures (hcf : cfg.validating=true) {cuts : List Name}
    (hd : Descends parent cuts) (hst : F.trusted parent state) :
    Ensures (F.contract cfg.lib) (descendFrom cfg qclass servers cuts parent state)
      (Outcome F cfg.toValidation (cuts.getLastD parent)) := by
  induction cuts generalizing parent state with
  | nil => exact ensures_pure ⟨hcf.symm,fun s hs => Option.some.inj hs ▸ hst⟩
  | cons cut cuts ih =>
    obtain ⟨hb,hd⟩ := hd
    have next : ∀ {s},F.trusted cut s → Ensures (F.contract cfg.lib)
        (descendFrom cfg qclass servers cuts cut s) (Outcome F cfg.toValidation ((cut::cuts).getLastD parent)) := by
      intro s hs
      rw [getLastD_cons]
      exact ih hd hs
    apply ensures_step trivial
    intro cached hca
    cases cached with
    | some s => exact next (hca s rfl)
    | none =>
      cases state with
      | insecure =>
        have ht := laws.inherited hst hb
        apply ensures_step ht
        intro _ _
        exact next ht
      | secure parentKeys =>
        apply ensures_step trivial
        intro clock hcl
        cases clock with
        | none => exact ensures_pure rfl
        | some now =>
          apply Ensures.bind queryServers_ensures.attempt
          intro r hr
          cases r with
          | error e => exact ensures_pure rfl
          | ok answered =>
            apply Ensures.bind (crossCut_ensures laws hst hb (.probe (hr answered rfl).2)
              (hcl now rfl))
            intro crossed hc
            cases crossed with
            | ok s => exact next hc
            | error v => exact ensures_pure hc

private theorem descendTo_ensures
    (hv : trust.isSome=cfg.validating) (ho : ∀ s,trust=some s → F.trusted origin s)
    (hb : Below origin target) :
    Ensures (F.contract cfg.lib) (descendTo cfg qclass origin target trust servers)
      (Outcome F cfg.toValidation target) := by
  unfold descendTo
  split
  · exact ensures_pure ⟨hv,nofun⟩
  · have ht := laws.inherited (ho .insecure rfl) hb
    exact ensures_pure ⟨hv,fun s hs => Option.some.inj hs ▸ ht⟩
  · rename_i keys
    obtain ⟨hd,hl⟩ := cutsBetween_descends hb.1
    dsimp only
    split_ifs with hsa hm
    · simp [hb.1,hb.2.symm] at hsa
    · exact ensures_pure rfl
    · have h : Ensures (F.contract cfg.lib)
          (descendFrom cfg qclass servers (cutsBetween origin target) origin (.secure keys)) _ :=
        descendFrom_ensures laws hv.symm hd (ho _ rfl)
      rwa [hl] at h

/-- The zone and trust a section is judged by: those of the walk, or those of the one zone below it
that signed the section. -/
structure JudgedBy (F : Facts) (val : Validation) (current : Name) (trust : Option TrustState)
    (records : List Record) (zone : Name) (state : Option TrustState) : Prop where
  validating : state.isSome=val.validating
  trusted : ∀ s,state=some s → F.trusted zone s
  zone : (zone=current ∧ state=trust ∧ (val.validating=true → signerBelow records current=none)) ∨
    signerBelow records current=some zone

theorem keysFor_ensures {current : Name} {records : List Record} (hv : trust.isSome=cfg.validating)
    (ht : ∀ s,trust=some s → F.trusted current s) :
    Ensures (F.contract cfg.lib) (keysFor cfg qclass current records trust servers) fun
      | .ok (zone,state) => JudgedBy F cfg.toValidation current trust records zone state
      | .error v => v.withholdsAnswer=true := by
  unfold keysFor
  split_ifs with hn
  · rw [Option.isNone_iff_eq_none] at hn
    subst hn
    have ho : cfg.validating=false := hv.symm
    exact ensures_pure ⟨hv,nofun,Or.inl ⟨rfl,rfl,by simp [ho]⟩⟩
  · split
    · rename_i hs
      exact ensures_pure ⟨hv,ht,Or.inl ⟨rfl,rfl,fun _ => hs⟩⟩
    · rename_i signer hs
      obtain ⟨hne,hz,-⟩ := signerBelow_some hs
      apply Ensures.bind (descendTo_ensures laws hv ht ⟨hz,hne⟩)
      intro r hr
      cases r with
      | trust state => exact ensures_pure ⟨hr.1,hr.2,Or.inr hs⟩
      | failed v => exact ensures_pure hr

end

end RolodexDns.TrustContracts
