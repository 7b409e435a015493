import RolodexDns.DenialChains

/-! The denial records an authority section is left with once the unsigned ones are dropped. A
signature made for a wildcard also verifies under every name below it, and that is let through
here: the records kept are those the zone published exactly when no kept one was expanded. -/
namespace RolodexDns.VerifiedDenial
open DomainNames DnsRecords ValidationVerdicts Base32Hex DenialProofs ZoneContents List
open DenialChains SignatureValidation

variable {lib : Library}

def admits (lib : Library) (sigs : List Record) (zone : Name) (keys : List Dnskey) (now : UInt32)
    (g : Rrset) : Bool :=
  (g.rtype=.NSEC || g.rtype=.NSEC3) &&
    (verifyRrset lib g.owner g.rtype g.records sigs keys zone now).isOk

/-- The NSEC and NSEC3 records of an authority section that the keys verify. -/
def verifiedDenial (lib : Library) (authority : List Record) (zone : Name) (keys : List Dnskey)
    (now : UInt32) : Denial :=
  .fromRecords (((groupRrsets authority).1.filter
    (admits lib (groupRrsets authority).2 zone keys now)).flatMap Rrset.records)

/-- The name a signature with the given label count was made for: the owner, or the wildcard the
owner was expanded from. -/
def signedOwner (owner : Name) (labels : Nat) : Option Name :=
  if labels=owner.numLabels then some owner
  else if labels<owner.numLabels then (owner.trimTo labels).prependLabel star
  else none

/-- The zone published this data at this owner; only denial records matter. -/
def Published {lib : Library} {z : Zone} (c : Nsec3Chain lib z) (owner : Name) : RData → Prop
  | .nsec n => NsecLink z (owner,n)
  | .nsec3 n => ∃ a b,Nsec3Link c (owner,n) a b
  | .other t _ => t ≠ .NSEC ∧ t ≠ .NSEC3
  | _ => True

/-- The keys only ever signed what the zone published: a signature that verifies over records of
the class was made for those records at the owner its label count gives. -/
structure HonestSigner {lib : Library} {z : Zone} (c : Nsec3Chain lib z) (keys : List Dnskey) : Prop where
  unforgeable : ∀ key∈keys,∀ owner sig rrset,lib.verifyRrsig key owner .IN sig rrset=true →
    ∃ signed,signedOwner owner sig.numLabels=some signed ∧
      ∀ r∈rrset,r.dnsClass=.IN → r.recordType=sig.typeCovered → r.name=owner →
        Published c signed r.data

section
variable {authority : List Record} {zone : Name} {keys : List Dnskey} {now : UInt32} {records : List Record}

private theorem mem_kept {r : Record} :
    r∈((groupRrsets authority).1.filter
      (admits lib (groupRrsets authority).2 zone keys now)).flatMap Rrset.records ↔
      ∃ g∈(groupRrsets authority).1,r∈g.records ∧ (g.rtype=.NSEC ∨ g.rtype=.NSEC3) ∧
        ∃ facts,verifyRrset lib g.owner g.rtype g.records (groupRrsets authority).2 keys zone now
          = .ok facts := by
  have hok : ∀ x : Except ValidationError SignatureFacts,x.isOk=true ↔ ∃ facts,x=.ok facts := by
    intro x
    cases x <;> simp [Except.isOk,Except.toBool]
  simp only [mem_flatMap,mem_filter,admits,Bool.and_eq_true,Bool.or_eq_true,
    decide_eq_true_eq,hok]
  constructor
  · rintro ⟨g,⟨hg,ht,hv⟩,hr⟩
    exact ⟨g,hg,hr,ht,hv⟩
  · rintro ⟨g,hg,hr,ht,hv⟩
    exact ⟨g,⟨hg,ht,hv⟩,hr⟩

/-- The record belongs to an RRset of the section that one of the keys signed in the zone's name. -/
def VerifiedBy (lib : Library) (authority : List Record) (zone : Name) (keys : List Dnskey) (now : UInt32)
    (r : Record) : Prop :=
  ∃ rrset facts sig key,r∈rrset ∧ rrset⊆authority ∧
    SignedBy lib r.name r.recordType rrset keys zone now facts sig key

theorem verifiedDenial_verified : ∃ kept,verifiedDenial lib authority zone keys now=.fromRecords kept ∧
    ∀ r∈kept,r∈authority ∧ VerifiedBy lib authority zone keys now r := by
  refine ⟨_,rfl,fun r hr => ?_⟩
  have hgr := groupRrsets_groupsOf authority
  obtain ⟨g,hg,hrg,-,facts,hv⟩ := mem_kept.mp hr
  obtain ⟨-,sig,-,key,hby⟩ := verifyRrset_ok hv
  obtain ⟨hm,hn,ht⟩ := hgr.sound g hg r hrg
  rw [← hn,← ht] at hby
  exact ⟨hm,g.records,facts,sig,key,hrg,fun x hx => (hgr.sound g hg x hx).1,hby⟩

theorem mem_owned {α : Type} {f : RData → Option α} {mk : α → RData} (hf : ∀ d n,f d=some n ↔ d=mk n)
    {e : Name × α} : e∈records.filterMap (fun r => (f r.data).map (r.name,·)) ↔ ∃ r∈records,r.name=e.1 ∧
      r.data=mk e.2 := by
  simp only [mem_filterMap,Option.map_eq_some_iff,hf]
  constructor
  · rintro ⟨r,hr,n,hn,rfl⟩
    exact ⟨r,hr,rfl,hn⟩
  · rintro ⟨r,hr,hna,hn⟩
    exact ⟨r,hr,e.2,hn,Prod.ext hna rfl⟩

theorem mem_fromRecords_nsec {e : Name × Nsec} :
    e∈(Denial.fromRecords records).nsec ↔ ∃ r∈records,r.name=e.1 ∧ r.data=.nsec e.2 :=
  mem_owned fun d n => by cases d <;> simp [RData.asNsec]

theorem mem_fromRecords_nsec3 {e : Name × Nsec3} :
    e∈(Denial.fromRecords records).nsec3 ↔ ∃ r∈records,r.name=e.1 ∧ r.data=.nsec3 e.2 :=
  mem_owned fun d n => by cases d <;> simp [RData.asNsec3]

end

section
variable {z : Zone} {c : Nsec3Chain lib z} {authority : List Record} {keys : List Dnskey} {zone : Name} {now : UInt32}
  {facts : SignatureFacts}

/-- A verified RRset was published at its owner, or at the wildcard the facts name. -/
theorem published_of_verified (hs : HonestSigner c keys) {owner : Name} {rtype : RecordType}
    {rrset sigs : List Record} (h : verifyRrset lib owner rtype rrset sigs keys zone now=.ok facts) :
    ∃ signed,(∀ r∈rrset,r.dnsClass=.IN → r.recordType=rtype → r.name=owner →
        Published c signed r.data) ∧
      ((facts.wildcardClosestEncloser=none ∧ signed=owner) ∨
        facts.wildcardClosestEncloser≠none ∧ signed≠owner ∧ ∃ ls,signed.labels=star::ls) := by
  obtain ⟨-,sig,hsg,key,hby⟩ := verifyRrset_ok h
  obtain ⟨signed,hsi,hp⟩ := hs.unforgeable key hby.mem_keys owner sig rrset hby.verifies
  refine ⟨signed,(mem_coveringRrsigs.mp hsg).2 ▸ hp,?_⟩
  unfold signedOwner at hsi
  split_ifs at hsi with heq hlt
  · refine Or.inl ⟨?_,(Option.some.inj hsi).symm⟩
    rw [hby.facts_eq,heq]
    simp
  · have hl := Name.prependLabel_labels hsi
    refine Or.inr ⟨?_,fun ho => ?_,_,hl⟩
    · rw [hby.facts_eq]
      simp [hlt]
    · -- an owner that is itself a wildcard is not counted with its first label
      have hc : owner.numLabels=(owner.trimTo sig.numLabels).labels.length := by
        conv_lhs => rw [← ho,Name.numLabels,hl]
        simp
      rw [Name.trimTo_length] at hc
      omega

private theorem not_published_nsec3_star {signed : Name} {ls : List Label} {n : Nsec3}
    (h : signed.labels=star::ls) : ¬ Published c signed (.nsec3 n) := by
  rintro ⟨a,b,hl⟩
  obtain ⟨l,hla,hb⟩ := hl.owner
  have hs : l=DomainNames.star := (cons.inj (hla.symm.trans h)).1
  have hno : ∀ d : Fin 32,asciiLower (alphabet d)≠42 := by decide
  have hm : (42 : UInt8)∈(base32hex (c.digest a)).map asciiLower := by
    rw [← hb,hs]
    decide
  obtain ⟨x,hx,heq⟩ := mem_map.mp hm
  obtain ⟨d,rfl⟩ := base32hex_alphabet x hx
  exact hno d heq

/-- What is kept is what the zone published, exactly if no kept RRset was expanded from a
wildcard. -/
theorem verifiedDenial_drawnFrom_iff (hs : HonestSigner c keys) (hin : ∀ r∈authority,r.dnsClass=.IN) :
    DrawnFrom c (verifiedDenial lib authority zone keys now) ↔
      ∀ g∈(groupRrsets authority).1,g.rtype=.NSEC ∨ g.rtype=.NSEC3 → ∀ facts,
        verifyRrset lib g.owner g.rtype g.records (groupRrsets authority).2 keys zone now=.ok facts →
        facts.wildcardClosestEncloser=none := by
  have hgr := groupRrsets_groupsOf authority
  have hp : ∀ {g facts},g∈(groupRrsets authority).1 →
      verifyRrset lib g.owner g.rtype g.records (groupRrsets authority).2 keys zone now=.ok facts →
      ∃ signed,(∀ r∈g.records,Published c signed r.data) ∧
        ((facts.wildcardClosestEncloser=none ∧ signed=g.owner) ∨
          facts.wildcardClosestEncloser≠none ∧ signed≠g.owner ∧ ∃ ls,signed.labels=star::ls) := by
    intro g facts hg hv
    obtain ⟨signed,hda,hc⟩ := published_of_verified hs hv
    refine ⟨signed,fun r hr => ?_,hc⟩
    obtain ⟨hm,hn,ht⟩ := hgr.sound g hg r hr
    exact hda r hr (hin r hm) ht hn
  constructor
  · -- an expanded NSEC would have two owners with one successor
    intro hD g hg ht facts hv
    obtain ⟨signed,hda,⟨hno,-⟩ | ⟨hso,hne,ls,hst⟩⟩ := hp hg hv
    · exact hno
    · exfalso
      obtain ⟨r,hr⟩ := exists_mem_of_ne_nil _ (hgr.nonempty g hg)
      obtain ⟨-,hn,hrt⟩ := hgr.sound g hg r hr
      have hke := mem_kept.mpr ⟨g,hg,hr,ht,facts,hv⟩
      have hr' := hda r hr
      cases hd : r.data with
      | nsec n =>
        have hl := hD.nsec (r.name,n) (mem_fromRecords_nsec.mpr ⟨r,hke,rfl,hd⟩)
        rw [hd] at hr'
        exact hne ((hr'.link.left_unique hl.link).trans hn)
      | nsec3 n =>
        rw [hd] at hr'
        exact not_published_nsec3_star hst hr'
      | other t bytes =>
        rw [hd] at hr'
        rw [Record.recordType,hd] at hrt
        rcases ht with h | h
        · exact hr'.1 (hrt.trans h)
        · exact hr'.2 (hrt.trans h)
      | _ =>
        rw [Record.recordType,hd] at hrt
        rcases ht with h | h <;> rw [h] at hrt <;> simp [RData.recordType] at hrt <;> revert hrt <;> decide
  · intro hco
    have hk : ∀ r,r∈((groupRrsets authority).1.filter
        (admits lib (groupRrsets authority).2 zone keys now)).flatMap Rrset.records →
        Published c r.name r.data := by
      intro r hr
      obtain ⟨g,hg,hrg,ht,facts,hv⟩ := mem_kept.mp hr
      obtain ⟨signed,hda,⟨-,ho⟩ | ⟨hso,-⟩⟩ := hp hg hv
      · rw [(hgr.sound g hg r hrg).2.1,← ho]
        exact hda r hrg
      · exact absurd (hco g hg ht facts hv) hso
    refine ⟨fun e he => ?_,fun e he => ?_⟩
    · obtain ⟨r,hr,hn,hd⟩ := mem_fromRecords_nsec.mp he
      have h := hk r hr
      rw [hd,hn] at h
      exact h
    · obtain ⟨r,hr,hn,hd⟩ := mem_fromRecords_nsec3.mp he
      have h := hk r hr
      rw [hd,hn] at h
      exact h

end

/-- A signer that has only signed the NSEC records of the zone. -/
def replayLibrary : Library where
  __ := toyLibrary
  verifyRrsig := fun _ owner _ sig rrset =>
    match signedOwner owner sig.numLabels with
    | none => false
    | some signed => rrset.all fun r =>
        match r.data with
        | .nsec n => NsecLink wildcardZone (signed,n)
        | _ => false

def replayChain : Nsec3Chain replayLibrary wildcardZone :=
  .full wildcardZone [] 0 toyDigest (fun _ => rfl) toyDigest_length

def replayKey : Dnskey := ⟨true,false,false,8,[1]⟩

def replayed (owner : Name) : List Record :=
  [⟨owner,.IN,300,.nsec ⟨toyName [[101]],[.A,.NSEC,.RRSIG]⟩⟩,
    ⟨owner,.IN,300,.rrsig ⟨.NSEC,8,1,300,10,0,0,toyName [[101]],[1]⟩⟩]

private theorem replay_honest : HonestSigner replayChain [replayKey] := by
  refine ⟨fun key _ owner sig rrset hv => ?_⟩
  rcases hs : signedOwner owner sig.numLabels with _ | signed
  · simp [replayLibrary,hs] at hv
  · refine ⟨signed,rfl,fun r hr _ _ _ => ?_⟩
    simp only [replayLibrary,hs,all_eq_true] at hv
    have h := hv r hr
    cases hd : r.data with
    | nsec n =>
      rw [hd] at h
      exact (of_decide_eq_true h : NsecLink wildcardZone (signed,n))
    | _ => simp [hd] at h

/-- The NSEC of `*.e.` is admitted as one of `x.e.`. -/
theorem verifiedDenial_admits_expanded :
    HonestSigner replayChain [replayKey] ∧ (∀ r∈replayed (toyName [[120],[101]]),r.dnsClass=.IN) ∧
      (toyName [[120],[101]],⟨toyName [[101]],[.A,.NSEC,.RRSIG]⟩) ∈
        (verifiedDenial replayLibrary (replayed (toyName [[120],[101]])) wildcardZone.apex [replayKey]
          5).nsec ∧
      ¬ NsecLink wildcardZone (toyName [[120],[101]],⟨toyName [[101]],[.A,.NSEC,.RRSIG]⟩) :=
  ⟨replay_honest,by decide,by decide,by decide⟩

theorem verifiedDenial_drawnFrom_iff_replay :
    DrawnFrom replayChain (verifiedDenial replayLibrary (replayed (toyName [[42],[101]]))
        wildcardZone.apex [replayKey] 5) ∧
      ¬ DrawnFrom replayChain (verifiedDenial replayLibrary (replayed (toyName [[120],[101]]))
        wildcardZone.apex [replayKey] 5) := by
  refine ⟨(verifiedDenial_drawnFrom_iff replay_honest (by decide)).mpr ?_,fun h => ?_⟩
  · have ha : ∀ g∈(groupRrsets (replayed (toyName [[42],[101]]))).1,
        verifyRrset replayLibrary g.owner g.rtype g.records
          (groupRrsets (replayed (toyName [[42],[101]]))).2 [replayKey] wildcardZone.apex 5
          = .ok ⟨none⟩ := by decide
    intro g hg _ facts hv
    rw [ha g hg] at hv
    exact (Except.ok.inj hv) ▸ rfl
  · have hc := (verifiedDenial_drawnFrom_iff replay_honest (by decide)).mp h
    have hn := hc ⟨toyName [[120],[101]],.NSEC,(replayed (toyName [[120],[101]])).take 1⟩
      (by decide) (by decide) ⟨some (toyName [[101]])⟩ (by decide)
    simp at hn

end RolodexDns.VerifiedDenial
