import RolodexDns.DenialChains

/-! A delegation that has a DS is never shown to be unsigned: no selection of the parent's denial
records and of the child's own apex records passes the no-DS proof. -/
namespace RolodexDns.NoDsSoundness
open DomainNames DnsRecords ValidationVerdicts Base32Hex DenialProofs ZoneContents
open DenialChains

/-- Every record of `D` comes from the parent's chains or is the child's own record for its apex. -/
structure DrawnFromCut {lib : Library} {parent child : Zone} (c : Nsec3Chain lib parent)
    (cc : Nsec3Chain lib child) (D : Denial) : Prop where
  nsec : ∀ e∈D.nsec,NsecLink parent e ∨ NsecLink child e ∧ e.1=child.apex
  nsec3 : ∀ e∈D.nsec3,(∃ o n,Nsec3Link c e o n) ∨ ∃ n,Nsec3Link cc e child.apex n

structure SignedDelegation (parent : Zone) (child : Name) : Prop where
  delegated : parent.isDelegation child
  visible : ¬ parent.occluded child
  ds : parent.owns child .DS

variable {kind : DenialKind} {child : Name} {types : List RecordType}

theorem checkNoDs_ne_ok_of_ds
    (h : .DS∈types) (r : Denied) : checkNoDs kind child types ≠ .ok r := by
  simp [checkNoDs,h]

theorem checkNoDs_ne_ok_of_soa
    (h : .SOA∈types) (r : Denied) : checkNoDs kind child types ≠ .ok r := by
  unfold checkNoDs
  split_ifs <;> simp

theorem SignedDelegation.answersFor_ds {parent : Zone} {child : Name} (h : SignedDelegation parent child) :
    parent.answersFor child .DS :=
  ⟨h.ds,fun _ => Or.inr rfl⟩

theorem answersFor_soa (z : Zone) : z.answersFor z.apex .SOA :=
  ⟨z.soa_mem,fun h => absurd rfl h.1⟩

section
variable {lib : Library} {parent child : Zone} {c : Nsec3Chain lib parent} {cc : Nsec3Chain lib child}
  {D : Denial} {e : Name × Nsec3}
  {x ce nc : Name}

/-- With no match for the child's apex, none of the records is the child's own. -/
private theorem parent_link_of_no_match (hD : DrawnFromCut c cc D)
    (hn : nsec3Matching lib D child.apex=.ok none) (he : e∈D.nsec3) : ∃ o n,Nsec3Link c e o n := by
  rcases hD.nsec3 e he with h | ⟨n,hl⟩
  · exact h
  · obtain ⟨target,ht,ha⟩ := findNsec3_none hn he hl.ownerHash_eq
    simp [hl.hashed_eq ht] at ha

/-- Every ancestor of a signed delegation, down from a name of the chain, is in the chain. -/
private theorem mem_names_of_above (hs : SignedDelegation parent child.apex) (hce : ce∈c.names)
    (hcx : ce.zoneOf x=true) (hx : x.zoneOf child.apex=true) : x∈c.names := by
  have ho : parent.isOwner child.apex := Zone.isOwner_of_owns hs.ds hs.visible
  have hn := Zone.authNode_of_isOwner ho (Name.zoneOf_trans (c.sound ce hce).1 hcx) hx
  by_contra hou
  exact (c.omitted x hn hou child.apex ho hx).2 hs.ds

private theorem nextCloser_not_covered (hD : DrawnFromCut c cc D) (hs : SignedDelegation parent child.apex)
    (hcf : CollisionFree c child.apex) (hn : nsec3Matching lib D child.apex=.ok none)
    (hce : closestEncloser lib child.apex D=.ok (some (ce,nc))) (e : Name × Nsec3) :
    nsec3Covering lib D nc ≠ .ok (some e) := by
  intro hc
  obtain ⟨⟨m,hm⟩,ha,hnc⟩ := closestEncloser_some hce
  obtain ⟨hcn,hnq⟩ := nextCloser_between ha hnc
  obtain ⟨o',n',hm'⟩ := parent_link_of_no_match hD hn (nsec3Matching_mem hm)
  have hme : ce∈c.names := by
    rw [hcf ce (Or.inl ha) o' hm'.left (nsec3Matching_link hm hm')]
    exact hm'.left
  obtain ⟨o,n,hl⟩ := parent_link_of_no_match hD hn (nsec3Covering_mem hc)
  exact hl.gap nc (mem_names_of_above hs hme hcn hnq) (nsec3Covering_link hc hl)

/-- No selection of genuine records shows a signed delegation to be unsigned. -/
theorem proveNoDs_signed_delegation_fails (hs : SignedDelegation parent child.apex)
    (hcf : CollisionFree c child.apex) (hD : DrawnFromCut c cc D) (r : Denied) :
    proveNoDs lib child.apex D ≠ .ok r := by
  unfold proveNoDs
  split
  · simp
  · split
    · rename_i entry hf
      have how : entry.1=child.apex := by simpa using List.find?_some hf
      rcases hD.nsec entry (List.mem_of_find?_eq_some hf) with hl | ⟨hl,-⟩
      · refine checkNoDs_ne_ok_of_ds ((hl.types _).mpr (Or.inl ?_)) r
        exact how ▸ hs.answersFor_ds
      · refine checkNoDs_ne_ok_of_soa ((hl.types _).mpr (Or.inl ?_)) r
        exact how ▸ answersFor_soa child
    · split
      · simp
      · rename_i entry hm
        rcases hD.nsec3 entry (nsec3Matching_mem hm) with ⟨o,n,hl⟩ | ⟨n,hl⟩
        · have ho := hcf child.apex (Or.inl (Name.zoneOf_refl _)) o hl.left (nsec3Matching_link hm hl)
          exact checkNoDs_ne_ok_of_ds ((hl.types _).mpr (Or.inl (ho ▸ hs.answersFor_ds))) r
        · exact checkNoDs_ne_ok_of_soa ((hl.types _).mpr (Or.inl (answersFor_soa child))) r
      · rename_i hn
        split
        · simp
        · simp
        · rename_i ce nc hce
          split
          · simp
          · simp
          · rename_i entry hc
            exact absurd hc (nextCloser_not_covered hD hs hcf hn hce entry)

end

def parentZone : Zone where
  apex := toyName [[101]]
  rrsets := [(toyName [[101]],.SOA),(toyName [[101]],.NS),(toyName [[99],[101]],.NS),
    (toyName [[99],[101]],.DS)]
  contained := by decide
  soa_mem := by decide
  soa_apex := by decide

def childZone : Zone where
  apex := toyName [[99],[101]]
  rrsets := [(toyName [[99],[101]],.SOA),(toyName [[99],[101]],.NS)]
  contained := by decide
  soa_mem := by decide
  soa_apex := by decide

def cutDenial : Denial where
  nsec := [(toyName [[99],[101]],⟨toyName [[99],[101]],[.NS,.SOA,.NSEC,.RRSIG]⟩)]
  nsec3 := [(toyName [(base32hex (toyDigest (toyName [[99],[101]]))),[101]],
    ⟨1,false,0,[],toyDigest (toyName [[101]]),[.NS,.DS,.RRSIG]⟩)]

theorem proveNoDs_signed_delegation_fails_toy :
    proveNoDs toyLibrary childZone.apex cutDenial ≠ .ok .proven := by
  have hs : SignedDelegation parentZone childZone.apex := ⟨by decide,by decide,by decide⟩
  have hcf : CollisionFree (toyChain parentZone) childZone.apex := collisionFree_iff.mpr (by decide)
  have hl : Nsec3Link (toyChain parentZone) (cutDenial.nsec3.head (by decide)) childZone.apex
      parentZone.apex := by decide
  have hD : DrawnFromCut (toyChain parentZone) (toyChain childZone) cutDenial :=
    ⟨by decide,List.forall_mem_singleton.mpr (Or.inl ⟨_,_,hl⟩)⟩
  exact proveNoDs_signed_delegation_fails hs hcf hD .proven

end RolodexDns.NoDsSoundness
