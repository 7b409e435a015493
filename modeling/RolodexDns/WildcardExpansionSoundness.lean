import RolodexDns.NameErrorSoundness

/-! When an accepted wildcard expansion is one the zone would make. With NSEC records the proof
only covers the queried name; the expansion is right exactly if the covering range also passes
over the whole subtree of the next closer name. -/
namespace RolodexDns.WildcardExpansionSoundness
open DomainNames DnsRecords CyclicIntervals DenialProofs ZoneContents DenialChains Name List
open NameErrorSoundness

structure PublishedWildcard (z : Zone) (encloser w : Name) : Prop where
  labels : w.labels=star::encloser.labels
  inZone : z.apex.zoneOf encloser=true
  owner : z.isOwner w

/-- The zone answers `q` from `w`: `q` does not exist and `w` is its source of synthesis. -/
def ExpandsFor (z : Zone) (q w : Name) : Prop := ¬ z.node q ∧ z.IsSourceOfSynthesis q w

section
variable {lib : Library} {z : Zone} {c : Nsec3Chain lib z} {D : Denial} {q w : Name} {k : Nat} {encloser : Name}

private theorem encloser_zoneOf (hw : PublishedWildcard z encloser w) :
    encloser.zoneOf w=true ∧ encloser≠w := by
  refine ⟨zoneOf_iff_suffix.mpr (hw.labels ▸ suffix_cons _ _),fun h => ?_⟩
  have hl := congrArg length hw.labels
  rw [← h] at hl
  simp at hl

private theorem encloser_node (hw : PublishedWildcard z encloser w) : z.authNode encloser :=
  Zone.authNode_of_isOwner hw.owner hw.inZone (encloser_zoneOf hw).1

theorem next_zoneOf (hk : k<q.labels.length) :
    (q.trimTo k).zoneOf (q.trimTo (k+1))=true ∧ (q.trimTo k).labels.length=k ∧
      (q.trimTo (k+1)).labels.length=k+1 := by
  have h1 : (q.trimTo k).labels.length=k := by
    rw [trimTo_length]
    omega
  have h2 : (q.trimTo (k+1)).labels.length=k+1 := by
    rw [trimTo_length]
    omega
  exact ⟨zoneOf_of_length_le (trimTo_zoneOf _ _) (trimTo_zoneOf _ _) (by omega),h1,h2⟩

/-- No cut hides the names just below the parent of a published wildcard. -/
private theorem next_not_occluded (hw : PublishedWildcard z (q.trimTo k) w) (hk : k<q.labels.length) :
    ¬ z.occluded (q.trimTo (k+1)) := by
  obtain ⟨-,hl,hl'⟩ := next_zoneOf hk
  refine Zone.not_occluded_iff.mpr fun d hd hne => ?_
  by_contra hdn
  have hdn' : d.zoneOf (q.trimTo (k+1))=true := by simpa using hdn
  have hlt : d.labels.length ≤ k := by
    by_contra hgt
    exact hne (zoneOf_antisymm hdn'
      (zoneOf_of_length_le (zoneOf_refl _) hdn' (by omega)))
  have hdq := zoneOf_trans hdn' (trimTo_zoneOf q (k+1))
  have hdk : d.zoneOf (q.trimTo k)=true :=
    zoneOf_of_length_le hdq (trimTo_zoneOf q k) (by omega)
  obtain ⟨hkw,-⟩ := encloser_zoneOf hw
  have hdw : d≠w := by
    rintro rfl
    have hwl := congrArg length hw.labels
    simp only [length_cons] at hwl
    omega
  have hf := Zone.not_occluded_iff.mp hw.owner.2 d hd hdw
  rw [zoneOf_trans hdk hkw] at hf
  cases hf

/-- The expansion is the zone's exactly if nothing exists at or below the next closer name. -/
theorem expandsFor_iff (hw : PublishedWildcard z (q.trimTo k) w) (hk : k<q.labels.length) :
    ExpandsFor z q w ↔ ¬ z.authNode (q.trimTo (k+1)) := by
  obtain ⟨hne,hln,hln'⟩ := next_zoneOf hk
  have hz : z.apex.zoneOf (q.trimTo (k+1))=true := zoneOf_trans hw.inZone hne
  constructor
  · rintro ⟨-,ce,hce,hl⟩ hn
    have ha := hce.longest _ (trimTo_zoneOf q (k+1)) hn.node
    have hle := length_le_of_zoneOf ha
    have hs : ce.labels=(q.trimTo k).labels := by
      rw [hw.labels] at hl
      exact (cons.inj hl).2.symm
    rw [hs] at hle
    omega
  · intro hn
    have hf : ¬ z.node (q.trimTo (k+1)) := fun h => hn (h.authNode (next_not_occluded hw hk))
    have ho : ∀ a : Name,a.zoneOf q=true → z.node a → a.zoneOf (q.trimTo k)=true := by
      intro a haq hna
      refine zoneOf_of_length_le haq (trimTo_zoneOf q k) ?_
      by_contra hgt
      exact hf (hna.mono hz
        (zoneOf_of_length_le (trimTo_zoneOf q (k+1)) haq (by omega)))
    refine ⟨fun hq => ?_,q.trimTo k,⟨trimTo_zoneOf q k,(encloser_node hw).node,ho⟩,hw.labels⟩
    have hle := length_le_of_zoneOf (ho q (zoneOf_refl q) hq)
    omega

private theorem nsec3_expansion (hD : DrawnFrom c D) (hw : PublishedWildcard z (q.trimTo k) w)
    (hk : k<q.labels.length) {nc : Name} {cov : Name × Nsec3}
    (hnc : nextCloserName q (q.trimTo k)=some nc) (hc : nsec3Covering lib D nc=.ok (some cov))
    (ho : cov.2.optOut=false) : ¬ z.authNode (q.trimTo (k+1)) := by
  obtain ⟨-,hle,-⟩ := next_zoneOf hk
  obtain ⟨o,n,hl⟩ := hD.nsec3 cov (nsec3Covering_mem hc)
  have ha : ¬ z.authNode nc := fun h => hl.exact ho nc h (nsec3Covering_link hc hl)
  obtain ⟨-,rfl,-⟩ := nextCloserName_some hnc
  have h1 := numLabels_le_length (q.trimTo k)
  have h2 := length_le_numLabels_succ (q.trimTo k)
  rcases Nat.lt_or_ge (q.trimTo k).numLabels k with hs | hf
  · -- an encloser that starts with `*` would be its own next closer name
    have heq : (q.trimTo k).numLabels+1=k := by omega
    rw [heq] at ha
    exact absurd (encloser_node hw) ha
  · have heq : (q.trimTo k).numLabels=k := by omega
    rwa [heq] at ha

/-- An accepted expansion is right exactly if the range that covers `q` has no end at or below the
next closer name; NSEC3 proofs are always right. -/
theorem proveWildcardExpansion_sound_iff (hD : DrawnFrom c D) (hk : k<q.numLabels)
    (hw : PublishedWildcard z (q.trimTo k) w) :
    (proveWildcardExpansion lib q (q.trimTo k) D=.ok .proven → ExpandsFor z q w) ↔
      ∀ e∈D.nsec,nsecCovers q e=true →
        (q.trimTo (k+1)).zoneOf e.1=false ∧ (q.trimTo (k+1)).zoneOf e.2.nextDomainName=false := by
  have hk' : k<q.labels.length := hk.trans_le (numLabels_le_length q)
  have hz := zoneOf_trans hw.inZone (next_zoneOf hk').1
  have hnc := trimTo_zoneOf q (k+1)
  rw [expandsFor_iff hw hk']
  unfold proveWildcardExpansion
  split_ifs with hem hn hco
  · have : D.nsec=[] := by simpa using (Bool.and_eq_true_iff.mp hem).1
    simp [this]
  · obtain ⟨e,he,hc⟩ := any_eq_true.mp hco
    refine ⟨fun h e' he' hc' => ?_,fun h _ => ?_⟩
    · exact (not_authNode_iff_of_covers (hD.nsec e' he') hc' hz hnc).mp (h rfl)
    · exact (not_authNode_iff_of_covers (hD.nsec e he) hc hz hnc).mpr (h e he hc)
  · refine ⟨fun _ e he hc => absurd (any_eq_true.mpr ⟨e,he,hc⟩) hco,fun _ h => by cases h⟩
  · rw [not_not] at hn
    refine ⟨fun _ => by simp [hn],fun _ h => ?_⟩
    split at h
    · cases h
    · rename_i nc hne
      split at h
      · cases h
      · cases h
      · rename_i cov hc
        have ho : cov.2.optOut=false := by
          cases hb : cov.2.optOut
          · rfl
          · simp [hb] at h
        exact nsec3_expansion hD hw hk' hne hc ho

end

/-- `e.` with a wildcard and a host `a.b.e.`, so that `b.e.` exists as an empty non-terminal. -/
def shadowedZone : Zone where
  apex := toyName [[101]]
  rrsets := [(toyName [[101]],.SOA),(toyName [[42],[101]],.A),(toyName [[97],[98],[101]],.A)]
  contained := by decide
  soa_mem := by decide
  soa_apex := by decide

def shadowedDenial : Denial where
  nsec := [(toyName [[97],[98],[101]],⟨toyName [[101]],[.A,.NSEC,.RRSIG]⟩)]
  nsec3 := []

private theorem shadowed_drawnFrom : DrawnFrom (toyChain shadowedZone) shadowedDenial :=
  ⟨by decide,by simp [shadowedDenial]⟩

private theorem shadowed_wildcard : PublishedWildcard shadowedZone
    ((toyName [[120],[98],[101]]).trimTo 1) (toyName [[42],[101]]) :=
  ⟨by decide,by decide,by decide⟩

/-- `*.e.` is accepted for `x.b.e.` although `b.e.` is closer. -/
theorem proveWildcardExpansion_accepts_shadowed :
    proveWildcardExpansion toyLibrary (toyName [[120],[98],[101]])
        ((toyName [[120],[98],[101]]).trimTo 1) shadowedDenial=.ok .proven ∧
      DrawnFrom (toyChain shadowedZone) shadowedDenial ∧
      PublishedWildcard shadowedZone ((toyName [[120],[98],[101]]).trimTo 1) (toyName [[42],[101]]) ∧
      ¬ ExpandsFor shadowedZone (toyName [[120],[98],[101]]) (toyName [[42],[101]]) := by
  refine ⟨by decide,shadowed_drawnFrom,shadowed_wildcard,fun h => ?_⟩
  exact (expandsFor_iff shadowed_wildcard (by decide)).mp h (by decide)

theorem proveWildcardExpansion_sound_iff_direct :
    proveWildcardExpansion toyLibrary (toyName [[120],[101]]) ((toyName [[120],[101]]).trimTo 1)
        shadowedDenial=.ok .proven ∧
      ExpandsFor shadowedZone (toyName [[120],[101]]) (toyName [[42],[101]]) := by
  have hw : PublishedWildcard shadowedZone ((toyName [[120],[101]]).trimTo 1) (toyName [[42],[101]]) :=
    ⟨by decide,by decide,by decide⟩
  have hi := proveWildcardExpansion_sound_iff shadowed_drawnFrom (by decide) hw
  exact ⟨by decide,hi.mpr (by decide) (by decide)⟩

end RolodexDns.WildcardExpansionSoundness
