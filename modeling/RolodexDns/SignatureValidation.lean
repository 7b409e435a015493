import Mathlib.Data.List.Induction
import RolodexDns.ValidationVerdicts

/-! Verification of one RRset against a zone's keys, of a zone's key set against its source of
trust, and the grouping of a section into RRsets. -/
namespace RolodexDns.SignatureValidation
open DomainNames DnsRecords ValidationVerdicts List

structure Anchor where
  algorithm : UInt8
  publicKey : List UInt8
deriving DecidableEq

/-- Where the keys that anchor a DNSKEY RRset come from. -/
inductive KeySource where
  | anchors (anchors : List Anchor)
  | ds (ds : List Ds)

/-- What a validated signature reveals: the encloser of the wildcard it was made for, if any. -/
structure SignatureFacts where
  wildcardClosestEncloser : Option Name
deriving DecidableEq

variable (records rs : List Record) {zone s : Name}

def recordsAt (owner : Name) (rtype : RecordType) : List Record :=
  records.filter fun r => r.name=owner ∧ r.recordType=rtype

def zoneKeys (zone : Name) : List Dnskey :=
  ((recordsAt records zone .DNSKEY).filterMap fun r => r.data.asDnskey).filter
    fun k => k.zoneKey && !k.revoke

def dsRecords (child : Name) : List Ds :=
  (recordsAt records child .DS).filterMap fun r => r.data.asDs

def serialLt (a b : UInt32) : Bool := a≠b && b - a<0x80000000

def dsAlgorithmsSupported (lib : Library) (ds : List Ds) : Bool :=
  ds.any fun d => lib.algorithmSupported d.algorithm

def minTtl (fallback : Nat) : Nat :=
  ((records.map Record.ttl).min?).getD fallback

section
variable (lib : Library) (zone : Name)

/-- The key loop of `verifyOne`. `tried` says whether a candidate was found so far and `last` is
the latest failure, both of which only shape the error. -/
def tryKeys (owner : Name) (rtype : RecordType) (rrset : List Record) (sig : Rrsig) (zone : Name) :
    List Dnskey → Bool → ValidationError → Except ValidationError SignatureFacts
  | [], tried, last =>
    if tried then .error last
    else .error (.keyNotInRrset owner rtype sig.keyTag sig.algorithm zone)
  | key::keys, tried, last =>
    if key.algorithm≠sig.algorithm then tryKeys owner rtype rrset sig zone keys tried last
    else match lib.calculateKeyTag key with
      | none => tryKeys owner rtype rrset sig zone keys tried .keyTagFailed
      | some tag =>
        if tag≠sig.keyTag then tryKeys owner rtype rrset sig zone keys tried last
        else if lib.verifyRrsig key owner .IN sig rrset then
          .ok ⟨if sig.numLabels<owner.numLabels then some (owner.trimTo sig.numLabels) else none⟩
        else tryKeys owner rtype rrset sig zone keys true .signatureFailed

def verifyOne (owner : Name) (rtype : RecordType) (rrset : List Record) (sig : Rrsig)
    (keys : List Dnskey) (zone : Name) (now : UInt32) : Except ValidationError SignatureFacts :=
  if sig.signerName≠zone then .error (.signerNotZone owner rtype sig.signerName zone)
  else if serialLt now sig.sigInception then .error (.notYetValid owner rtype sig.sigInception)
  else if serialLt sig.sigExpiration now then .error (.expired owner rtype sig.sigExpiration)
  else if owner.numLabels<sig.numLabels then
    .error (.tooManyLabels owner rtype sig.numLabels owner.numLabels)
  else if !lib.algorithmSupported sig.algorithm then
    .error (.unsupportedAlgorithm owner rtype sig.algorithm)
  else tryKeys lib owner rtype rrset sig zone keys false .noKeyMatched

/-- The loop over the covering signatures: the first that verifies decides. -/
def tryRrsigs (owner : Name) (rtype : RecordType) (rrset : List Record) (keys : List Dnskey)
    (zone : Name) (now : UInt32) :
    List Rrsig → ValidationError → Except ValidationError SignatureFacts
  | [], last => .error (.noRrsigValidated owner rtype last)
  | sig::sigs, _ =>
    match verifyOne lib owner rtype rrset sig keys zone now with
    | .ok facts => .ok facts
    | .error reason => tryRrsigs owner rtype rrset keys zone now sigs reason

def coveringRrsigs (owner : Name) (rtype : RecordType) (sigs : List Record) : List Rrsig :=
  ((sigs.filter fun r => r.name=owner).filterMap fun r => r.data.asRrsig).filter
    fun s => s.typeCovered=rtype

def verifyRrset (owner : Name) (rtype : RecordType) (rrset sigs : List Record)
    (keys : List Dnskey) (zone : Name) (now : UInt32) : Except ValidationError SignatureFacts :=
  if rrset.isEmpty then .error (.nothingToVerify owner rtype)
  else if keys.isEmpty then .error (.noDnskeys zone)
  else if (coveringRrsigs owner rtype sigs).isEmpty then .error (.noRrsigCovers owner rtype)
  else tryRrsigs lib owner rtype rrset keys zone now (coveringRrsigs owner rtype sigs) .unset

/-- The keys of a set that its source of trust vouches for. -/
def anchoredKeys (keys : List Dnskey) : KeySource → List Dnskey
  | .anchors anchors => keys.filter fun k => ⟨k.algorithm,k.publicKey⟩∈anchors
  | .ds dsSet => keys.filter fun k =>
      dsSet.any fun ds => lib.algorithmSupported ds.algorithm && lib.dsCovers ds zone k

/-- Validates a zone's DNSKEY RRset and returns the keys that verify the rest of the zone. -/
def validateDnskeyRrset (records sigs : List Record) (source : KeySource)
    (now : UInt32) : Except ValidationError (List Dnskey) :=
  let keys := zoneKeys records zone
  if keys.isEmpty then .error (.noUsableDnskeys zone)
  else
    let anchored := anchoredKeys lib zone keys source
    if anchored.isEmpty then
      match source with
      | .anchors _ => .error (.noAnchoredDnskey zone keys.length)
      | .ds dsSet => .error (.noCoveredDnskey zone dsSet.length)
    else
      match verifyRrset lib zone .DNSKEY (recordsAt records zone .DNSKEY) sigs anchored zone now with
      | .ok _ => .ok keys
      | .error e => .error (.dnskeyNotSelfSigned zone e)

/-- What a successful verification rests on: a live signature over the RRset, made in the name
of the zone by one of the given keys. -/
structure SignedBy (owner : Name) (rtype : RecordType) (rrset : List Record) (keys : List Dnskey)
    (zone : Name) (now : UInt32) (facts : SignatureFacts) (sig : Rrsig) (key : Dnskey) : Prop where
  signer : sig.signerName=zone
  started : serialLt now sig.sigInception=false
  live : serialLt sig.sigExpiration now=false
  labels : sig.numLabels ≤ owner.numLabels
  algorithm : key.algorithm=sig.algorithm
  mem_keys : key∈keys
  verifies : lib.verifyRrsig key owner .IN sig rrset=true
  facts_eq : facts =
    ⟨if sig.numLabels<owner.numLabels then some (owner.trimTo sig.numLabels) else none⟩

variable {lib} {owner : Name} {rtype : RecordType} {rrset sigs records : List Record} {keys : List Dnskey}
  {zone : Name} {now : UInt32}
  {facts : SignatureFacts} {sig : Rrsig}

variable {last : ValidationError}

private theorem tryKeys_ok {tried : Bool}
    (h : tryKeys lib owner rtype rrset sig zone keys tried last=.ok facts) :
    ∃ key∈keys,key.algorithm=sig.algorithm ∧ lib.verifyRrsig key owner .IN sig rrset=true ∧
      facts=⟨if sig.numLabels<owner.numLabels then some (owner.trimTo sig.numLabels) else none⟩ := by
  induction keys generalizing tried last with
  | nil => cases tried <;> simp [tryKeys] at h
  | cons key keys ih =>
    have later : ∀ {tried last},tryKeys lib owner rtype rrset sig zone keys tried last=.ok facts →
        ∃ k∈key::keys,k.algorithm=sig.algorithm ∧
          lib.verifyRrsig k owner .IN sig rrset=true ∧
          facts=⟨if sig.numLabels<owner.numLabels then some (owner.trimTo sig.numLabels)
            else none⟩ := by
      intro tried last h'
      obtain ⟨k,hk,hr⟩ := ih h'
      exact ⟨k,mem_cons_of_mem key hk,hr⟩
    unfold tryKeys at h
    split at h
    · exact later h
    · rename_i ha
      split at h
      · exact later h
      · split at h
        · exact later h
        · split at h
          · rename_i hv
            exact ⟨key,mem_cons_self,not_not.mp ha,hv,(Except.ok.inj h).symm⟩
          · exact later h

theorem verifyOne_ok (h : verifyOne lib owner rtype rrset sig keys zone now=.ok facts) :
    ∃ key,SignedBy lib owner rtype rrset keys zone now facts sig key := by
  unfold verifyOne at h
  split_ifs at h with hs hst hli hl hal
  obtain ⟨key,hk,ha,hv,hf⟩ := tryKeys_ok h
  exact ⟨key,not_not.mp hs,by simpa using hst,by simpa using hli,not_lt.mp hl,
    ha,hk,hv,hf⟩

private theorem tryRrsigs_ok {rrsigs : List Rrsig}
    (h : tryRrsigs lib owner rtype rrset keys zone now rrsigs last=.ok facts) :
    ∃ sig∈rrsigs,verifyOne lib owner rtype rrset sig keys zone now=.ok facts := by
  induction rrsigs generalizing last with
  | nil => simp [tryRrsigs] at h
  | cons sig rest ih =>
    unfold tryRrsigs at h
    split at h
    · rename_i hv
      exact ⟨sig,mem_cons_self,hv.trans h⟩
    · obtain ⟨s,hs,hv⟩ := ih h
      exact ⟨s,mem_cons_of_mem sig hs,hv⟩

theorem mem_coveringRrsigs : sig∈coveringRrsigs owner rtype sigs ↔
    (∃ r∈sigs,r.name=owner ∧ r.data=.rrsig sig) ∧ sig.typeCovered=rtype := by
  have hd : ∀ d : RData,d.asRrsig=some sig ↔ d=.rrsig sig := by
    intro d
    cases d <;> simp [RData.asRrsig]
  simp [coveringRrsigs,hd,and_assoc]

theorem verifyRrset_ok (h : verifyRrset lib owner rtype rrset sigs keys zone now=.ok facts) :
    rrset≠[] ∧ ∃ sig∈coveringRrsigs owner rtype sigs,∃ key,
      SignedBy lib owner rtype rrset keys zone now facts sig key := by
  unfold verifyRrset at h
  split_ifs at h with he hk hc
  obtain ⟨sig,hs,hv⟩ := tryRrsigs_ok h
  exact ⟨by simpa using he,sig,hs,verifyOne_ok hv⟩

/-- A validated key set is the zone's, and one of its keys that the source of trust vouches for
signed it. -/
theorem validateDnskeyRrset_ok {source : KeySource} {validated : List Dnskey}
    (h : validateDnskeyRrset lib zone records sigs source now=.ok validated) :
    validated=zoneKeys records zone ∧ ∃ facts,verifyRrset lib zone .DNSKEY
      (recordsAt records zone .DNSKEY) sigs (anchoredKeys lib zone validated source) zone now
        = .ok facts := by
  unfold validateDnskeyRrset at h
  simp only at h
  split_ifs at h with hk ha
  · cases source <;> simp at h
  · split at h
    · rename_i facts hv
      cases h
      exact ⟨rfl,facts,hv⟩
    · cases h

end

structure Rrset where
  owner : Name
  rtype : RecordType
  records : List Record
deriving DecidableEq

def addToGroup (r : Record) : List Rrset → List Rrset
  | [] => [⟨r.name,r.recordType,[r]⟩]
  | g::gs =>
    if g.rtype=r.recordType ∧ g.owner=r.name then { g with records := g.records++[r] }::gs
    else g::addToGroup r gs

/-- Splits a section into RRsets, with the RRSIGs held aside. -/
def groupRrsets : List Rrset × List Record :=
  records.foldl (fun acc r =>
    if r.recordType=.RRSIG then (acc.1,acc.2++[r]) else (addToGroup r acc.1,acc.2)) ([],[])

private theorem groupRrsets_concat (r : Record) :
    groupRrsets (rs++[r]) =
      if r.recordType=.RRSIG then ((groupRrsets rs).1,(groupRrsets rs).2++[r])
      else (addToGroup r (groupRrsets rs).1,(groupRrsets rs).2) := by
  simp [groupRrsets,foldl_append]

theorem groupRrsets_snd :
    (groupRrsets rs).2=rs.filter fun r => r.recordType=.RRSIG := by
  induction rs using reverseRecOn with
  | nil => rfl
  | append_singleton rs r ih =>
    rw [groupRrsets_concat]
    by_cases h : r.recordType=.RRSIG <;> simp [h,ih]

/-- `gs` splits the records other than RRSIGs by owner and type. -/
structure GroupsOf (rs : List Record) (gs : List Rrset) : Prop where
  rtype_ne : ∀ g∈gs,g.rtype ≠ .RRSIG
  nonempty : ∀ g∈gs,g.records≠[]
  sound : ∀ g∈gs,∀ r∈g.records,r∈rs ∧ r.name=g.owner ∧ r.recordType=g.rtype
  complete : ∀ r∈rs,r.recordType ≠ .RRSIG → ∃ g∈gs,r∈g.records

theorem mem_addToGroup {r : Record} {gs : List Rrset} {g : Rrset} (h : g∈addToGroup r gs) :
    g∈gs ∨ (g.rtype=r.recordType ∧ g.owner=r.name ∧
      (g.records=[r] ∨ ∃ g'∈gs,g'.owner=g.owner ∧ g'.rtype=g.rtype ∧
        g.records=g'.records++[r])) := by
  induction gs with
  | nil =>
    simp only [addToGroup,mem_singleton] at h
    subst h
    simp
  | cons a gs ih =>
    unfold addToGroup at h
    split_ifs at h with hk
    · rcases mem_cons.mp h with rfl | hg
      · exact Or.inr ⟨hk.1,hk.2,Or.inr ⟨a,mem_cons_self,rfl,rfl,rfl⟩⟩
      · exact Or.inl (mem_cons_of_mem a hg)
    · rcases mem_cons.mp h with rfl | hg
      · exact Or.inl mem_cons_self
      · rcases ih hg with hm | ⟨ht,ho,hon | ⟨g',hg',hr⟩⟩
        · exact Or.inl (mem_cons_of_mem a hm)
        · exact Or.inr ⟨ht,ho,Or.inl hon⟩
        · exact Or.inr ⟨ht,ho,Or.inr ⟨g',mem_cons_of_mem a hg',hr⟩⟩

private theorem exists_mem_addToGroup (r : Record) (gs : List Rrset) :
    (∃ g∈addToGroup r gs,r∈g.records) ∧
      ∀ g∈gs,∃ g'∈addToGroup r gs,g.records⊆g'.records := by
  induction gs with
  | nil => simp [addToGroup]
  | cons a gs ih =>
    unfold addToGroup
    split
    · refine ⟨⟨_,mem_cons_self,by simp⟩,fun g hg => ?_⟩
      rcases mem_cons.mp hg with rfl | hg
      · exact ⟨_,mem_cons_self,by simp⟩
      · exact ⟨g,mem_cons_of_mem _ hg,List.Subset.refl _⟩
    · obtain ⟨⟨g₀,hg₀,hr⟩,hk⟩ := ih
      refine ⟨⟨g₀,mem_cons_of_mem a hg₀,hr⟩,fun g hg => ?_⟩
      rcases mem_cons.mp hg with rfl | hg
      · exact ⟨g,mem_cons_self,List.Subset.refl _⟩
      · obtain ⟨g',hg',hs⟩ := hk g hg
        exact ⟨g',mem_cons_of_mem a hg',hs⟩

theorem groupRrsets_groupsOf : GroupsOf rs (groupRrsets rs).1 := by
  induction rs using reverseRecOn with
  | nil => exact ⟨by simp [groupRrsets],by simp [groupRrsets],by simp [groupRrsets],by simp⟩
  | append_singleton rs r ih =>
    rw [groupRrsets_concat]
    by_cases hr : r.recordType=.RRSIG
    · rw [if_pos hr]
      refine ⟨ih.rtype_ne,ih.nonempty,fun g hg x hx => ?_,fun x hx hne => ?_⟩
      · obtain ⟨hm,hre⟩ := ih.sound g hg x hx
        exact ⟨mem_append_left _ hm,hre⟩
      · rcases mem_append.mp hx with hx | hx
        · exact ih.complete x hx hne
        · exact absurd (mem_singleton.mp hx ▸ hr) hne
    · rw [if_neg hr]
      obtain ⟨hnw,hk⟩ := exists_mem_addToGroup r (groupRrsets rs).1
      refine ⟨fun g hg => ?_,fun g hg => ?_,fun g hg x hx => ?_,fun x hx hne => ?_⟩
      · rcases mem_addToGroup hg with hm | ⟨ht,-,-⟩
        · exact ih.rtype_ne g hm
        · exact ht ▸ hr
      · rcases mem_addToGroup hg with hm | ⟨-,-,hon | ⟨g',-,-,-,heq⟩⟩
        · exact ih.nonempty g hm
        · simp [hon]
        · simp [heq]
      · have hs : x=r → g.rtype=r.recordType → g.owner=r.name →
            x∈rs++[r] ∧ x.name=g.owner ∧ x.recordType=g.rtype := by
          rintro rfl ht ho
          exact ⟨by simp,ho.symm,ht.symm⟩
        rcases mem_addToGroup hg with hm | ⟨ht,ho,hon | ⟨g',hg',ho',ht',heq⟩⟩
        · obtain ⟨hme,hre⟩ := ih.sound g hm x hx
          exact ⟨mem_append_left _ hme,hre⟩
        · exact hs (by simpa [hon] using hx) ht ho
        · rcases mem_append.mp (heq ▸ hx) with hx | hx
          · obtain ⟨hme,hn,hty⟩ := ih.sound g' hg' x hx
            exact ⟨mem_append_left _ hme,hn.trans ho',hty.trans ht'⟩
          · exact hs (mem_singleton.mp hx) ht ho
      · rcases mem_append.mp hx with hx | hx
        · obtain ⟨g,hg,hxg⟩ := ih.complete x hx hne
          obtain ⟨g',hg',hsu⟩ := hk g hg
          exact ⟨g',hg',hsu hxg⟩
        · exact mem_singleton.mp hx ▸ hnw

/-- The loop of `signerBelow`; `seen` is the signer found so far. -/
def signerBelowFrom (zone : Name) : List Record → Option Name → Option Name
  | [], seen => seen
  | r::rs, seen =>
    match r.data.asRrsig with
    | none => signerBelowFrom zone rs seen
    | some sig =>
      if sig.signerName=zone ∨ zone.zoneOf sig.signerName=false then none
      else if sig.signerName.zoneOf r.name=false then none
      else match seen with
        | some s => if s≠sig.signerName then none else signerBelowFrom zone rs seen
        | none => signerBelowFrom zone rs (some sig.signerName)

/-- The one zone strictly below `zone` that signed everything signed in `records`. -/
def signerBelow (zone : Name) : Option Name :=
  signerBelowFrom zone records none

private theorem signerBelowFrom_some {records : List Record} {seen : Option Name}
    (h : signerBelowFrom zone records seen=some s) (hse : ∀ n∈seen,n≠zone ∧ zone.zoneOf n=true) :
    (s≠zone ∧ zone.zoneOf s=true) ∧ (∀ n∈seen,n=s) ∧
      ∀ r∈records,∀ sig,r.data.asRrsig=some sig → sig.signerName=s ∧ s.zoneOf r.name=true := by
  induction records generalizing seen with
  | nil =>
    subst h
    simpa using hse
  | cons r rs ih =>
    unfold signerBelowFrom at h
    split at h
    · rename_i hno
      obtain ⟨hs,hsa,hr⟩ := ih h hse
      refine ⟨hs,hsa,fun x hx sig hsi => ?_⟩
      rcases mem_cons.mp hx with rfl | hx
      · simp [hno] at hsi
      · exact hr x hx sig hsi
    · rename_i sig hsi
      split_ifs at h with hb ho
      push Not at hb
      have how : sig.signerName.zoneOf r.name=true := by simpa using ho
      have hok : sig.signerName≠zone ∧ zone.zoneOf sig.signerName=true :=
        ⟨hb.1,by simpa using hb.2⟩
      have finish : ∀ seen',(∀ n∈seen',n≠zone ∧ zone.zoneOf n=true) →
          sig.signerName∈seen' → (∀ n∈seen,n∈seen') → signerBelowFrom zone rs seen'=some s →
          (s≠zone ∧ zone.zoneOf s=true) ∧ (∀ n∈seen,n=s) ∧ ∀ x∈r::rs,∀ sig',
            x.data.asRrsig=some sig' → sig'.signerName=s ∧ s.zoneOf x.name=true := by
        intro seen' hse' hm hsu h'
        obtain ⟨hs,hsa,hr⟩ := ih h' hse'
        refine ⟨hs,fun n hn => hsa n (hsu n hn),fun x hx sig' hsi' => ?_⟩
        rcases mem_cons.mp hx with rfl | hx
        · have : sig'=sig := Option.some.inj (hsi'.symm.trans hsi)
          subst this
          have heq := hsa _ hm
          exact ⟨heq,heq ▸ how⟩
        · exact hr x hx sig' hsi'
      cases seen with
      | none => exact finish (some sig.signerName) (by simpa using hok) (by simp) (by simp) h
      | some t =>
        simp only at h
        split_ifs at h with hne
        have heq : t=sig.signerName := not_not.mp hne
        exact finish (some t) hse (by simp [heq]) (fun n hn => hn) h

/-- The signer found lies strictly below the zone, made every signature and encloses its owner. -/
theorem signerBelow_some {records : List Record} (h : signerBelow records zone=some s) :
    s≠zone ∧ zone.zoneOf s=true ∧
      ∀ r∈records,∀ sig,r.data.asRrsig=some sig → sig.signerName=s ∧ s.zoneOf r.name=true := by
  obtain ⟨hs,-,hr⟩ := signerBelowFrom_some h (by simp)
  exact ⟨hs.1,hs.2,hr⟩

end RolodexDns.SignatureValidation
