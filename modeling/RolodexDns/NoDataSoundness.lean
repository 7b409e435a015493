import RolodexDns.NameErrorSoundness

/-! When an accepted NODATA proof tells the truth. Beyond what the proof checks, a record at the
name must come from the side of the cut that answers for the type, a wildcard must not hold a CNAME,
and a wildcard NSEC3 needs the next closer name denied. -/
namespace RolodexDns.NoDataSoundness
open DomainNames DnsRecords ValidationVerdicts CyclicIntervals DenialProofs ZoneContents DenialChains List Name
open NameErrorSoundness

/-- The record at `q` is from the zone that answers for `t`: the parent for DS, the child else. -/
def RightSide (types : List RecordType) (q : Name) (t : RecordType) : Prop :=
  (t=.DS → .SOA∈types → q.isRoot=true) ∧ (t ≠ .DS → .NS∈types → .SOA∈types)

instance (types : List RecordType) (q : Name) (t : RecordType) : Decidable (RightSide types q t) :=
  inferInstanceAs (Decidable (_ ∧ _))

section
variable {z : Zone} {q : Name} {t : RecordType} {types : List RecordType}

/-- For a name in the chain the answer is NODATA exactly if its bitmap lacks the type and a CNAME
and is the right side's. -/
theorem noData_iff_of_types (hty : ∀ t'∈[RecordType.NS,.SOA,.CNAME,t],z.answersFor q t' → t'∈types)
    (hso : ∀ t'∈[RecordType.NS,.SOA],t'∈types → z.answersFor q t') (hno : z.authNode q)
    (ht : t∉types) (hc : .CNAME∉types) : z.NoData q t ↔ RightSide types q t := by
  have hsa : .SOA∈types ↔ q=z.apex := by
    refine ⟨fun h => z.soa_apex _ (hso _ (by simp) h).1 rfl,?_⟩
    rintro rfl
    exact hty _ (by simp) ⟨z.soa_mem,fun hd => absurd rfl hd.1⟩
  have hns : .NS∈types ↔ z.owns q .NS :=
    ⟨fun h => (hso _ (by simp) h).1,fun h => hty _ (by simp) ⟨h,fun _ => Or.inl rfl⟩⟩
  constructor
  · intro h
    refine ⟨fun hds hs => h.notParental hds (hsa.mp hs),fun hds hn => ?_⟩
    by_contra hs
    exact hds (h.notReferred ⟨fun heq => hs (hsa.mpr heq),hns.mp hn⟩)
  · rintro ⟨hp,hch⟩
    refine ⟨Zone.not_occluded_iff.mp hno.not_occluded,fun hd => ?_,
      fun hds heq => hp hds (hsa.mpr heq),fun ha => ht (hty t (by simp) ha),
      fun ha => hc (hty _ (by simp) ha),Or.inl hno.node⟩
    by_contra hds
    exact hd.1 (hsa.mp (hch hds (hns.mpr hd.2)))

theorem NsecLink.noData_iff {e : Name × Nsec} (hl : NsecLink z e) (ht : t∉e.2.typeBitMaps)
    (hc : .CNAME∉e.2.typeBitMaps) : z.NoData e.1 t ↔ RightSide e.2.typeBitMaps e.1 t := by
  have hn := Zone.authNode_of_isOwner hl.link.left (Zone.isOwner_contained hl.link.left)
    (zoneOf_refl _)
  refine noData_iff_of_types (fun t' _ ha => (hl.types t').mpr (Or.inl ha)) (fun t' ht' hm => ?_) hn ht hc
  have hme : t' ≠ .NSEC ∧ t' ≠ .RRSIG := by
    clear hm
    revert t'
    decide
  exact ((hl.types t').mp hm).resolve_right (by simp [hme])

theorem Nsec3Link.noData_iff {lib : Library} {c : Nsec3Chain lib z} {e : Name × Nsec3} {n : Name}
    (hl : Nsec3Link c e q n) (ht : t∉e.2.typeBitMaps) (hc : .CNAME∉e.2.typeBitMaps) :
    z.NoData q t ↔ RightSide e.2.typeBitMaps q t := by
  refine noData_iff_of_types (fun t' _ ha => (hl.types t').mpr (Or.inl ha)) (fun t' ht' hm => ?_)
    (c.sound q hl.left) ht hc
  have hme : t' ≠ .RRSIG := by
    clear hm
    revert t'
    decide
  exact ((hl.types t').mp hm).resolve_right (by simp [hme])

end

section
variable {z : Zone} {q w : Name} {t : RecordType}

structure Synthesized (z : Zone) (q w : Name) : Prop where
  unowned : ∀ t,¬ z.owns q t
  visible : ∀ d,z.isCut d → d≠q → d.zoneOf q=false
  node : z.node w
  source : ¬ z.node q → z.IsSourceOfSynthesis q w

/-- Its answer is NODATA if it exists or the wildcard lacks the type and a CNAME. -/
theorem Synthesized.noData_iff (h : Synthesized z q w) (ht : ¬ z.answersFor w t) :
    z.NoData q t ↔ (z.answersFor w .CNAME → z.node q) := by
  constructor
  · intro hnd hcn
    rcases hnd.source with hq | ⟨w',hw',-,-,hc⟩
    · exact hq
    · by_contra hq
      exact hc (hw'.unique (h.source hq) ▸ hcn)
  · intro hcn
    refine ⟨h.visible,fun hd => absurd hd.2 (h.unowned _),fun _ heq => ?_,
      fun ha => h.unowned t ha.1,fun ha => h.unowned _ ha.1,?_⟩
    · exact absurd (heq ▸ z.soa_mem) (h.unowned .SOA)
    · by_cases hq : z.node q
      · exact Or.inl hq
      · exact Or.inr ⟨w,h.source hq,h.node,ht,fun hc => hq (hcn hc)⟩

end

section
variable {lib : Library} {z : Zone} {c : Nsec3Chain lib z} {D : Denial} {q : Name} {t : RecordType}

private theorem baseName_facts {q : Name} (hq : q.labels≠[]) :
    q.baseName≠q ∧ ∀ a : Name,a.zoneOf q=true → a≠q → a.zoneOf q.baseName=true := by
  have hl : q.baseName.labels.length+1=q.labels.length := by
    have hp := length_pos_of_ne_nil hq
    simp only [Name.baseName,length_tail]
    omega
  refine ⟨fun h => ?_,fun a ha hne => ?_⟩
  · rw [h] at hl
    omega
  · refine zoneOf_of_length_le ha (baseName_zoneOf q) ?_
    by_contra hgt
    exact hne (zoneOf_antisymm ha (zoneOf_of_length_le (zoneOf_refl q) ha (by omega)))

private theorem synthesized_of_nsec (hq : z.apex.zoneOf q=true) {e e' : Name × Nsec} (hl : NsecLink z e)
    (how : e.1=wildcardOf q z.apex) (hl' : NsecLink z e') (hc : nsecCovers q e'=true) :
    Synthesized z q e.1 ∧ (z.node q ↔ q.zoneOf e'.2.nextDomainName=true) := by
  have hb : Between e'.1 q e'.2.nextDomainName := by simpa [nsecCovers] using hc
  have hf : ¬ z.isOwner q := fun h => hl'.link.gap q h hb
  have hap : z.apex≠q := fun h => hf (h ▸ z.isOwner_apex)
  have hne : q.labels≠[] := fun h =>
    hap (zoneOf_antisymm hq (zoneOf_iff_suffix.mpr (h ▸ nil_suffix)))
  obtain ⟨hba,hao⟩ := baseName_facts hne
  have hz : z.apex.zoneOf q.baseName=true := hao _ hq hap
  have hla : e.1.labels=star::q.baseName.labels := by
    rw [how,wildcardOf,if_pos hz,prependWildcard_labels (baseName_zoneOf q) hba]
  have hbw : q.baseName.zoneOf e.1=true :=
    zoneOf_iff_suffix.mpr (hla ▸ suffix_cons _ _)
  have hn : z.node e.1 := (Zone.authNode_of_isOwner hl.link.left
    (Zone.isOwner_contained hl.link.left) (zoneOf_refl _)).node
  -- a cut above `q` is above its parent, hence above the wildcard
  have hv : ∀ d,z.isCut d → d≠q → d.zoneOf q=false := by
    intro d hd hdq
    by_contra hab
    have hdb := hao d (by simpa using hab) hdq
    have hdw : d≠e.1 := by
      rintro rfl
      have hle := length_le_of_zoneOf hdb
      rw [hla,length_cons] at hle
      omega
    have hfa := Zone.not_occluded_iff.mp hl.link.left.2 d hd hdw
    simp [zoneOf_trans hdb hbw] at hfa
  have hoc : ¬ z.occluded q := Zone.not_occluded_iff.mpr hv
  refine ⟨⟨fun t ho => hf (Zone.isOwner_of_owns ho hoc),hv,hn,fun hno => ?_⟩,?_⟩
  · refine ⟨q.baseName,⟨baseName_zoneOf q,hn.mono hz hbw,fun a ha hna => ?_⟩,hla⟩
    exact hao a ha (fun h => hno (h ▸ hna))
  · refine ⟨fun hno => ?_,fun hbe => ?_⟩
    · by_contra he
      obtain ⟨-,x,-,hx,hqx⟩ := hno.authNode hoc
      exact hl'.link.gap x.1 hx (between_of_zoneOf hb (by simpa using he) hqx)
    · exact (Zone.authNode_of_isOwner hl'.link.right hq hbe).node

private theorem synthesized_of_nsec3 {ce nc w : Name} (hab : NextCloserAbsent z q ce nc)
    (hw : w.labels=star::ce.labels) (hn : z.authNode w) : Synthesized z q w ∧ ¬ z.node q := by
  have hcw : ce.zoneOf w=true := zoneOf_iff_suffix.mpr (hw ▸ suffix_cons _ _)
  have hne : ce≠w := fun h => by simpa [h] using congrArg length hw
  have hc : ¬ z.isCut ce := by
    intro hce
    have hfa := Zone.not_occluded_iff.mp hn.not_occluded ce hce hne
    simp [hcw] at hfa
  have hcq := zoneOf_trans hab.ce_above hab.nc_above
  obtain ⟨has,hcu⟩ := hab.absent_iff.mpr hc
  have hf := hab.not_node hc
  have hz := zoneOf_trans hab.ce_node.1 hab.ce_above
  have hq : ¬ z.node q := fun h => hf (h.mono hz hab.nc_above)
  refine ⟨⟨fun t => has q t (zoneOf_refl q),fun d hd _ => hcu d hd,hn.node,fun _ => ?_⟩,hq⟩
  refine ⟨ce,⟨hcq,hab.ce_node.node,fun a ha hna => ?_⟩,hw⟩
  refine zoneOf_of_length_le ha hcq ?_
  by_contra hgt
  have hl := hab.nc_length
  exact hf (hna.mono hz (zoneOf_of_length_le hab.nc_above ha (by omega)))

/-- Some NSEC3 without opt-out covers the next closer name. -/
def NextCloserDenied (lib : Library) (D : Denial) (nc : Name) : Prop :=
  ∃ cov,nsec3Covering lib D nc=.ok (some cov) ∧ cov.2.optOut=false

/-- The evidence a wildcard NSEC3 needs beside it: without a record at `q`, the name below the
closest encloser is denied. -/
def WildcardSupported (lib : Library) (D : Denial) (q : Name) : Prop :=
  D.nsec=[] → nsec3Matching lib D q=.ok none →
    ∀ ce nc,closestEncloser lib q D=.ok (some (ce,nc)) → NextCloserDenied lib D nc

/-- Nothing the proof leaves unchecked speaks against it. -/
structure NodataConclusive (lib : Library) (apex : Name) (D : Denial) (q : Name) (t : RecordType) :
    Prop where
  exact : ∀ e∈D.nsec,e.1=q → t∉e.2.typeBitMaps → .CNAME∉e.2.typeBitMaps →
    RightSide e.2.typeBitMaps q t
  wildcard : (∀ e∈D.nsec,e.1≠q) → ∀ e∈D.nsec,e.1=wildcardOf q apex → t∉e.2.typeBitMaps →
    .CNAME∈e.2.typeBitMaps → ∀ e'∈D.nsec,nsecCovers q e'=true →
    q.zoneOf e'.2.nextDomainName=true
  exactNsec3 : D.nsec=[] → ∀ e,nsec3Matching lib D q=.ok (some e) → t∉e.2.typeBitMaps →
    .CNAME∉e.2.typeBitMaps → RightSide e.2.typeBitMaps q t
  wildcardNsec3 : D.nsec=[] → nsec3Matching lib D q=.ok none → ∀ ce nc e,
    closestEncloser lib q D=.ok (some (ce,nc)) →
    nsec3Matching lib D (prependWildcard ce)=.ok (some e) → t∉e.2.typeBitMaps →
    .CNAME∉e.2.typeBitMaps ∧ NextCloserDenied lib D nc

private theorem checkNodata_proven {kind : DenialKind} {types : List RecordType} :
    checkNodata kind q t types=.ok .proven ↔ t∉types ∧ .CNAME∉types := by
  unfold checkNodata
  split_ifs with ht hc <;> simp [*]

private theorem nsec_sound_iff (hq : z.apex.zoneOf q=true) (hD : DrawnFrom c D) :
    (proveNodataNsec q t z.apex D=.ok .proven → z.NoData q t) ↔
      (∀ e∈D.nsec,e.1=q → t∉e.2.typeBitMaps → .CNAME∉e.2.typeBitMaps →
        RightSide e.2.typeBitMaps q t) ∧
      ((∀ e∈D.nsec,e.1≠q) → ∀ e∈D.nsec,e.1=wildcardOf q z.apex → t∉e.2.typeBitMaps →
        .CNAME∈e.2.typeBitMaps → ∀ e'∈D.nsec,nsecCovers q e'=true →
        q.zoneOf e'.2.nextDomainName=true) := by
  -- links of one owner list the same types
  have same : ∀ {a b : Name × Nsec},a∈D.nsec → b∈D.nsec → a.1=b.1 →
      ∀ t',t'∈a.2.typeBitMaps ↔ t'∈b.2.typeBitMaps := by
    intro a b ha hb hab t'
    rw [(hD.nsec a ha).types,(hD.nsec b hb).types,hab]
  unfold proveNodataNsec
  cases hf : D.nsec.find? (·.1=q) with
  | some e₀ =>
    have hm := mem_of_find?_eq_some hf
    have ho : e₀.1=q := by simpa using find?_some hf
    have hso : ¬ ∀ e∈D.nsec,e.1≠q := fun h => h e₀ hm ho
    simp only [checkNodata_proven,hso,false_imp_iff,and_true]
    refine ⟨fun h e he heq ht hc => ?_,fun h hc => ?_⟩
    · have hs := same he hm (heq.trans ho.symm)
      have hnd := h ⟨(hs t).not.mp ht,(hs _).not.mp hc⟩
      subst heq
      exact (NsecLink.noData_iff (hD.nsec e he) ht hc).mp hnd
    · subst ho
      exact (NsecLink.noData_iff (hD.nsec e₀ hm) hc.1 hc.2).mpr (h e₀ hm rfl hc.1 hc.2)
  | none =>
    have hn : ∀ e∈D.nsec,e.1≠q := by
      intro e he
      simpa using find?_eq_none.mp hf e he
    have hea : ∀ e∈D.nsec,e.1=q → t∉e.2.typeBitMaps → .CNAME∉e.2.typeBitMaps →
        RightSide e.2.typeBitMaps q t := fun e he heq => absurd heq (hn e he)
    have hi : ∀ {e e' : Name × Nsec},e∈D.nsec → e.1=wildcardOf q z.apex → t∉e.2.typeBitMaps →
        e'∈D.nsec → nsecCovers q e'=true → (z.NoData q t ↔
          (.CNAME∈e.2.typeBitMaps → q.zoneOf e'.2.nextDomainName=true)) := by
      intro e e' he ho ht he' hcv
      obtain ⟨hsy,hno⟩ := synthesized_of_nsec hq (hD.nsec e he) ho (hD.nsec e' he') hcv
      have hty := (hD.nsec e he).types
      rw [hsy.noData_iff fun ha => ht ((hty t).mpr (Or.inl ha)),hno,hty]
      have hme : RecordType.CNAME ≠ .NSEC ∧ RecordType.CNAME ≠ .RRSIG := by decide
      simp [hme]
    cases hw : D.nsec.find? (·.1=wildcardOf q z.apex) with
    | none =>
      refine ⟨fun _ => ⟨hea,fun _ e he heq => ?_⟩,fun _ h => by simp at h⟩
      exact absurd heq (by simpa using find?_eq_none.mp hw e he)
    | some e₀ =>
      have hm := mem_of_find?_eq_some hw
      have ho : e₀.1=wildcardOf q z.apex := by simpa using find?_some hw
      simp only
      split_ifs with ht hco
      · refine ⟨fun _ => ⟨hea,fun _ e he heq ht' => ?_⟩,fun _ h => by simp at h⟩
        exact absurd ((same he hm (heq.trans ho.symm) t).mpr ht) ht'
      · refine ⟨fun _ => ⟨hea,fun _ e he _ _ _ e' he' hcv => ?_⟩,fun _ h => by simp at h⟩
        exact absurd hco (by simpa [nsecCoversName] using ⟨e'.1,e'.2,he',hcv⟩)
      · simp only [Bool.not_eq_false] at hco
        obtain ⟨e₁,he₁,hcov₁⟩ := any_eq_true.mp hco
        refine ⟨fun h => ⟨hea,fun _ e he heq ht' hc e' he' hcv => ?_⟩,fun h _ => ?_⟩
        · exact (hi he heq ht' he' hcv).mp (h rfl) hc
        · exact (hi hm ho ht he₁ hcov₁).mpr fun hc => h.2 hn e₀ hm ho ht hc e₁ he₁ hcov₁

theorem proveNodataNsec3_proven : proveNodataNsec3 lib q t D=.ok .proven ↔
    (∃ e,nsec3Matching lib D q=.ok (some e) ∧ t∉e.2.typeBitMaps ∧ .CNAME∉e.2.typeBitMaps) ∨
      nsec3Matching lib D q=.ok none ∧ ∃ ce nc e,closestEncloser lib q D=.ok (some (ce,nc)) ∧
        nsec3Matching lib D (prependWildcard ce)=.ok (some e) ∧ t∉e.2.typeBitMaps := by
  unfold proveNodataNsec3
  rcases hm : nsec3Matching lib D q with err | _ | ⟨o,e⟩
  · simp
  · rcases hce : closestEncloser lib q D with err | _ | ⟨ce,nc⟩
    · simp
    · simp
    · rcases hw : nsec3Matching lib D (prependWildcard ce) with err | _ | ⟨wo,we⟩
      · simp [hw]
      · rcases hc : nsec3Covering lib D nc with err | _ | ⟨co,cov⟩
        · simp [hw,hc]
        · simp [hw,hc]
        · cases ho : cov.optOut <;> simp [hw,hc,ho]
      · by_cases ht : t∈we.typeBitMaps <;> simp [hw,ht]
  · simp [checkNodata_proven]

/-- With the next closer name denied, a wildcard NSEC3 is right exactly if it has no CNAME. -/
private theorem noData_iff_of_wildcardNsec3 (hD : DrawnFrom c D) (hcf : CollisionFree c q)
    (hm : nsec3Matching lib D q=.ok none) {ce nc : Name} {e : Name × Nsec3}
    (hce : closestEncloser lib q D=.ok (some (ce,nc)))
    (he : nsec3Matching lib D (prependWildcard ce)=.ok (some e)) (ht : t∉e.2.typeBitMaps)
    (hd : NextCloserDenied lib D nc) : z.NoData q t ↔ .CNAME∉e.2.typeBitMaps := by
  obtain ⟨cov,hco,ho⟩ := hd
  have hab := nextCloserAbsent_of_covering hD hcf hce hco ho
  obtain ⟨⟨m,hmc⟩,hc,-⟩ := closestEncloser_some hce
  have hne : ce≠q := by
    rintro rfl
    simp [hm] at hmc
  obtain ⟨n,hl⟩ := hD.matching hcf (Or.inr ⟨ce,hc,rfl⟩) he
  obtain ⟨hs,hn⟩ := synthesized_of_nsec3 hab (prependWildcard_labels hc hne) (c.sound _ hl.left)
  rw [hs.noData_iff fun ha => ht ((hl.types t).mpr (Or.inl ha)),hl.types]
  have hme : RecordType.CNAME ≠ .RRSIG := by decide
  simp [hme,hn]

private theorem nsec3_sound_iff (hD : DrawnFrom c D) (hcf : CollisionFree c q) (hn : D.nsec=[]) :
    (proveNodataNsec3 lib q t D=.ok .proven → z.NoData q t ∧ WildcardSupported lib D q) ↔
      (∀ e,nsec3Matching lib D q=.ok (some e) → t∉e.2.typeBitMaps → .CNAME∉e.2.typeBitMaps →
        RightSide e.2.typeBitMaps q t) ∧
      (nsec3Matching lib D q=.ok none → ∀ ce nc e,closestEncloser lib q D=.ok (some (ce,nc)) →
        nsec3Matching lib D (prependWildcard ce)=.ok (some e) → t∉e.2.typeBitMaps →
        .CNAME∉e.2.typeBitMaps ∧ NextCloserDenied lib D nc) := by
  rw [proveNodataNsec3_proven,or_imp]
  refine and_congr ⟨fun h e he ht hc => ?_,?_⟩ ⟨fun h hm ce nc e hce he ht => ?_,?_⟩
  · obtain ⟨n,hl⟩ := hD.matching hcf (Or.inl (zoneOf_refl q)) he
    exact (Nsec3Link.noData_iff hl ht hc).mp (h ⟨e,he,ht,hc⟩).1
  · rintro h ⟨e,he,ht,hc⟩
    obtain ⟨n,hl⟩ := hD.matching hcf (Or.inl (zoneOf_refl q)) he
    exact ⟨(Nsec3Link.noData_iff hl ht hc).mpr (h e he ht hc),fun _ hm => by simp [he] at hm⟩
  · obtain ⟨hnd,hs⟩ := h ⟨hm,ce,nc,e,hce,he,ht⟩
    have hd := hs hn hm ce nc hce
    exact ⟨(noData_iff_of_wildcardNsec3 hD hcf hm hce he ht hd).mp hnd,hd⟩
  · rintro h ⟨hm,ce,nc,e,hce,he,ht⟩
    obtain ⟨hc,hd⟩ := h hm ce nc e hce he ht
    refine ⟨(noData_iff_of_wildcardNsec3 hD hcf hm hce he ht hd).mpr hc,fun _ _ ce' nc' hce' => ?_⟩
    obtain ⟨rfl,rfl⟩ := Prod.mk.inj (Option.some.inj (Except.ok.inj (hce.symm.trans hce')))
    exact hd

/-- A NODATA proof from genuine records is right, and carries the evidence its shape needs, exactly
when the records are conclusive. -/
theorem proveNodata_sound_iff (hD : DrawnFrom c D) (hcf : CollisionFree c q) (hq : z.apex.zoneOf q=true) :
    (proveNodata lib q t z.apex D=.ok .proven → z.NoData q t ∧ WildcardSupported lib D q) ↔
      NodataConclusive lib z.apex D q t := by
  unfold proveNodata
  split_ifs with hn hns
  · have hs : WildcardSupported lib D q := fun h => absurd h hn
    simp only [hs,and_true]
    rw [nsec_sound_iff hq hD]
    exact ⟨fun h => ⟨h.1,h.2,fun h' => absurd h' hn,fun h' => absurd h' hn⟩,
      fun h => ⟨h.exact,h.wildcard⟩⟩
  · rw [not_not] at hn
    rw [nsec3_sound_iff hD hcf hn]
    exact ⟨fun h => ⟨by simp [hn],by simp [hn],fun _ => h.1,fun _ => h.2⟩,
      fun h => ⟨h.exactNsec3 hn,h.wildcardNsec3 hn⟩⟩
  · rw [not_not] at hn hns
    have hno : ∀ x e,nsec3Matching lib D x ≠ .ok (some e) := by
      intro x e hm
      have hme := nsec3Matching_mem hm
      simp [hns] at hme
    exact ⟨fun _ => ⟨by simp [hn],by simp [hn],fun _ e he => absurd he (hno _ e),
      fun _ _ ce nc e _ he => absurd he (hno _ e)⟩,fun _ h => by cases h⟩

end

def delegatingZone : Zone where
  apex := toyName [[101]]
  rrsets := [(toyName [[101]],.SOA),(toyName [[101]],.NS),(toyName [[100],[101]],.NS)]
  contained := by decide
  soa_mem := by decide
  soa_apex := by decide

def delegatingDenial : Denial where
  nsec := [(toyName [[100],[101]],⟨toyName [[101]],[.NS,.NSEC,.RRSIG]⟩),
    (toyName [[101]],⟨toyName [[100],[101]],[.NS,.SOA,.NSEC,.RRSIG]⟩)]
  nsec3 := []

private theorem delegating_drawnFrom : DrawnFrom (toyChain delegatingZone) delegatingDenial :=
  ⟨by decide,by simp [delegatingDenial]⟩

/-- The delegation's NSEC is taken as proof that the child has no address. -/
theorem proveNodata_accepts_delegation :
    proveNodata toyLibrary (toyName [[100],[101]]) .A delegatingZone.apex delegatingDenial=.ok .proven ∧
      DrawnFrom (toyChain delegatingZone) delegatingDenial ∧
      CollisionFree (toyChain delegatingZone) (toyName [[100],[101]]) ∧
      delegatingZone.apex.zoneOf (toyName [[100],[101]])=true ∧
      ¬ delegatingZone.NoData (toyName [[100],[101]]) .A :=
  ⟨by decide,delegating_drawnFrom,collisionFree_iff.mpr (by decide),by decide,
    fun h => absurd (h.notReferred (by decide)) (by decide)⟩

theorem proveNodata_sound_iff_apex :
    proveNodata toyLibrary (toyName [[101]]) .A delegatingZone.apex delegatingDenial=.ok .proven ∧
      delegatingZone.NoData (toyName [[101]]) .A := by
  have hcf : CollisionFree (toyChain delegatingZone) (toyName [[101]]) :=
    collisionFree_iff.mpr (by decide)
  have hi := proveNodata_sound_iff (t := .A) delegating_drawnFrom hcf (by decide)
  have hc : NodataConclusive toyLibrary delegatingZone.apex delegatingDenial (toyName [[101]]) .A :=
    ⟨by decide,fun h => absurd rfl (h _ (mem_of_mem_tail mem_cons_self)),nofun,nofun⟩
  exact ⟨by decide,(hi.mpr hc (by decide)).1⟩

end RolodexDns.NoDataSoundness
