import RolodexDns.DenialChains

/-! When an accepted NXDOMAIN proof tells the truth of every zone its records may come from. The records
must also show that the name is no empty non-terminal, that no cut lies above it, and that nothing
exists at the wildcard of its closest encloser, none of which the proof looks at. -/
namespace RolodexDns.NameErrorSoundness
open DomainNames DnsRecords ValidationVerdicts CyclicIntervals Base32Hex DenialProofs ZoneContents
  DenialChains Name List

variable {lib : Library} {z : Zone}

/-- The types of a delegation or of a DNAME owner. -/
def ShowsCut (types : List RecordType) : Prop := (.NS∈types ∧ .SOA∉types) ∨ .DNAME∈types

instance (types : List RecordType) : Decidable (ShowsCut types) := inferInstanceAs (Decidable (_ ∨ _))

/-- Nothing exists at the wildcard that would answer `q`. -/
def NoWildcard (z : Zone) (q : Name) : Prop := ∀ w,z.IsSourceOfSynthesis q w → ¬ z.node w

section
variable {o n : Name} {types : List RecordType}

/-- A bitmap that is right about NS, SOA and DNAME tells a cut from any other owner. -/
theorem showsCut_iff (h : ∀ t∈[RecordType.NS,.SOA,.DNAME],t∈types ↔ z.answersFor o t) :
    ShowsCut types ↔ z.isCut o := by
  have hns : .NS∈types ↔ z.owns o .NS := by
    rw [h _ (by simp)]
    exact ⟨And.left,fun ho => ⟨ho,fun _ => Or.inl rfl⟩⟩
  have hs : .SOA∈types ↔ o=z.apex := by
    rw [h _ (by simp)]
    refine ⟨fun ha => z.soa_apex _ ha.1 rfl,?_⟩
    rintro rfl
    exact ⟨z.soa_mem,fun hd => absurd rfl hd.1⟩
  have hdn : .DNAME∈types ↔ z.owns o .DNAME ∧ ¬ z.isDelegation o := by
    rw [h _ (by simp)]
    exact ⟨fun ha => ⟨ha.1,fun hd => absurd (ha.2 hd) (by decide)⟩,fun ha => ⟨ha.1,fun hd => absurd hd ha.2⟩⟩
  rw [ShowsCut,hns,hs,hdn,Zone.isCut,Zone.isDelegation]
  tauto

theorem NsecLink.showsCut_iff {e : Name × Nsec} (h : NsecLink z e) :
    ShowsCut e.2.typeBitMaps ↔ z.isCut e.1 := by
  refine NameErrorSoundness.showsCut_iff fun t ht => ?_
  have hm : t ≠ .NSEC ∧ t ≠ .RRSIG := by
    revert t
    decide
  rw [h.types]
  simp [hm]

theorem Nsec3Link.showsCut_iff {c : Nsec3Chain lib z} {e : Name × Nsec3} (h : Nsec3Link c e o n) :
    ShowsCut e.2.typeBitMaps ↔ z.isCut o := by
  refine NameErrorSoundness.showsCut_iff fun t ht => ?_
  have hm : t ≠ .RRSIG := by
    revert t
    decide
  rw [h.types]
  simp [hm]

end

section
variable {e : Name × Nsec} {q : Name}

/-- The cut above a covered name is the owner of the NSEC that covers it. -/
theorem owner_of_cut_above (hl : NsecLink z e) (hc : nsecCovers q e=true) {d : Name} (hd : z.isCut d)
    (hdq : d.zoneOf q=true) : e.1.zoneOf q=true ∧ z.isCut e.1 := by
  have hb : Between e.1 q e.2.nextDomainName := by simpa [nsecCovers] using hc
  obtain ⟨d',hd',hd'q,hf⟩ := Zone.exists_top_cut hd hdq
  have how : z.isOwner d' := Zone.isOwner_of_isCut hd' hf
  obtain ⟨hle,hlt⟩ := hl.link.le_left_of_between hb how (le_of_zoneOf hd'q)
  -- the owner sits between the cut and a name below it, so it is below the cut as well
  have hbe : d'.zoneOf e.1=true :=
    (below_ordConnected d').out (zoneOf_refl d') hd'q ⟨hle,hlt.le⟩
  by_cases heq : d'=e.1
  · exact heq ▸ ⟨hd'q,hd'⟩
  · rw [Zone.not_occluded_iff.mp hl.link.left.2 d' hd' heq] at hbe
    cases hbe

/-- What the NSEC covering a name says about it: nothing exists there and no cut hides it, unless
the range ends below the name or starts at a cut above it. -/
theorem absent_iff_of_covers (hl : NsecLink z e) (hc : nsecCovers q e=true) :
    ((∀ m t,q.zoneOf m=true → ¬ z.owns m t) ∧ ∀ d,z.isCut d → d.zoneOf q=false) ↔
      q.zoneOf e.2.nextDomainName=false ∧ ¬ (e.1.zoneOf q=true ∧ ShowsCut e.2.typeBitMaps) := by
  have hb : Between e.1 q e.2.nextDomainName := by simpa [nsecCovers] using hc
  rw [NsecLink.showsCut_iff hl]
  constructor
  · rintro ⟨ha,hcut⟩
    refine ⟨?_,fun h => ?_⟩
    · obtain ⟨x,hx,hna⟩ := hl.link.right.1
      by_contra hbe
      exact ha x.1 x.2 (by simpa [hna] using hbe) hx
    · rw [hcut e.1 h.2] at h
      exact Bool.false_ne_true h.1
  · rintro ⟨he,hs⟩
    have hcut : ∀ d,z.isCut d → d.zoneOf q=false := by
      intro d hd
      by_contra hdq
      exact hs (owner_of_cut_above hl hc hd (by simpa using hdq))
    refine ⟨Zone.absent_of_no_owner (fun o ho => ?_) hcut,hcut⟩
    by_contra hqo
    exact hl.link.gap o ho (between_of_zoneOf hb he (by simpa using hqo))

/-- The NSEC covering `q` clears the next closer name exactly if neither end lies at or below it. -/
theorem not_authNode_iff_of_covers {e : Name × Nsec} (hl : NsecLink z e)
    (hc : nsecCovers q e=true) {nc : Name} (hz : z.apex.zoneOf nc=true) (hnc : nc.zoneOf q=true) :
    ¬ z.authNode nc ↔ nc.zoneOf e.1=false ∧ nc.zoneOf e.2.nextDomainName=false := by
  have hb : Between e.1 q e.2.nextDomainName := by simpa [nsecCovers] using hc
  constructor
  · intro h
    constructor
    · by_contra hbe
      exact h (Zone.authNode_of_isOwner hl.link.left hz (by simpa using hbe))
    · by_contra hbe
      exact h (Zone.authNode_of_isOwner hl.link.right hz (by simpa using hbe))
  · rintro ⟨hle,hr⟩ ⟨-,x,-,how,hx⟩
    refine hl.link.gap x.1 how (Between.of_ordConnected (below_ordConnected nc) hnc hx ?_ ?_ hb)
    · simp [hle]
    · simp [hr]

/-- The longest ancestor of `q` that an end of the range lies at or below. -/
structure EncloserShown (e : Name × Nsec) (q ce : Name) : Prop where
  encloses : ce.zoneOf q=true
  shown : ce.zoneOf e.1=true ∨ ce.zoneOf e.2.nextDomainName=true
  longest : ∀ a : Name,a.zoneOf q=true → a.zoneOf e.1=true ∨ a.zoneOf e.2.nextDomainName=true → a.zoneOf ce=true

/-- The range that covers `q` shows its closest encloser. -/
theorem closestEncloser_iff_shown (hl : NsecLink z e) (hc : nsecCovers q e=true) (hq : z.apex.zoneOf q=true)
    (hcut : ∀ d,z.isCut d → d.zoneOf q=false) {ce : Name} : z.IsClosestEncloser q ce ↔ EncloserShown e q ce := by
  have hnd {a : Name} (ha : a.zoneOf q=true) (hz : z.apex.zoneOf a=true) :
      z.node a ↔ a.zoneOf e.1=true ∨ a.zoneOf e.2.nextDomainName=true := by
    have hf : ¬ z.occluded a := Zone.not_occluded_iff.mpr fun d hd _ => by
      by_contra hda
      have hdq := zoneOf_trans (by simpa using hda) ha
      rw [hcut d hd] at hdq
      cases hdq
    have hau : z.node a ↔ z.authNode a := ⟨fun h => h.authNode hf,Zone.authNode.node⟩
    rw [hau,← not_iff_not,not_authNode_iff_of_covers hl hc hz ha,not_or,Bool.not_eq_true,Bool.not_eq_true]
  have hle : z.apex.zoneOf e.1=true := Zone.isOwner_contained hl.link.left
  constructor
  · intro h
    refine ⟨h.encloses,(hnd h.encloses h.node.1).mp h.node,fun a ha hs => ?_⟩
    rcases zoneOf_total ha hq with hab | hb
    · exact zoneOf_trans hab h.node.1
    · exact h.longest a ha ((hnd ha hb).mpr hs)
  · intro h
    have hz : z.apex.zoneOf ce=true := h.longest _ hq (.inl hle)
    exact ⟨h.encloses,(hnd h.encloses hz).mpr h.shown,fun a ha hna => h.longest a ha ((hnd ha hna.1).mp hna)⟩

end

section
variable {c : Nsec3Chain lib z} {D : Denial} {q ce nc : Name} {m cov : Name × Nsec3}

/-- The child of the closest encloser towards `q`, shown absent without opt-out. -/
structure NextCloserAbsent (z : Zone) (q ce nc : Name) : Prop where
  ce_node : z.authNode ce
  ce_above : ce.zoneOf nc=true
  nc_above : nc.zoneOf q=true
  nc_length : nc.labels.length=ce.labels.length+1
  absent : ¬ z.authNode nc

theorem nextCloserAbsent_of_covering (hD : DrawnFrom c D) (hcf : CollisionFree c q)
    (hce : closestEncloser lib q D=.ok (some (ce,nc)))
    (hco : nsec3Covering lib D nc=.ok (some cov)) (hop : cov.2.optOut=false) :
    NextCloserAbsent z q ce nc := by
  obtain ⟨⟨m,hm⟩,hc,hnc⟩ := closestEncloser_some hce
  obtain ⟨hcn,hnq⟩ := nextCloser_between hc hnc
  obtain ⟨n,hl⟩ := hD.matching hcf (Or.inl hc) hm
  obtain ⟨o',n',hl'⟩ := hD.nsec3 cov (nsec3Covering_mem hco)
  have ha : ¬ z.authNode nc := fun h => hl'.exact hop nc h (nsec3Covering_link hco hl')
  have hne : nc≠ce := fun h => ha (h ▸ c.sound ce hl.left)
  refine ⟨c.sound ce hl.left,hcn,hnq,?_,ha⟩
  -- a leading `*` in the encloser would make the next closer name the encloser itself
  cases hnx : nextCloserName q ce with
  | none => exact absurd (by simp [hnc,hnx]) hne
  | some x =>
    obtain rfl : nc=x := by simp [hnc,hnx]
    obtain ⟨-,hx,hlt⟩ := nextCloserName_some hnx
    have hle : nc.labels.length=min (ce.numLabels+1) q.labels.length := by
      rw [hx,trimTo_length]
    have h1 := numLabels_le_length ce
    have h4 := length_le_of_zoneOf hcn
    have h5 : nc.labels.length≠ce.labels.length := fun h =>
      hne (zoneOf_antisymm (zoneOf_of_length_le hnq hc h.le) hcn)
    omega

variable (h : NextCloserAbsent z q ce nc)
include h

/-- A cut above `q` that is neither the encloser nor above it lies below the next closer name. -/
private theorem NextCloserAbsent.below_of_cut (hce : ¬ z.isCut ce)
    {d : Name} (hd : z.isCut d) (hdq : d.zoneOf q=true) : nc.zoneOf d=true := by
  have hc := zoneOf_trans h.ce_above h.nc_above
  by_contra hnd
  have hl : d.labels.length ≤ ce.labels.length := by
    by_contra hlt
    exact hnd (zoneOf_of_length_le h.nc_above hdq (by have := h.nc_length; omega))
  have hdc := zoneOf_of_length_le hdq hc hl
  by_cases heq : d=ce
  · exact hce (heq ▸ hd)
  · rw [Zone.not_occluded_iff.mp h.ce_node.not_occluded d hd heq] at hdc
    cases hdc

/-- Below an encloser that is no cut the next closer name does not exist in any form. -/
theorem NextCloserAbsent.not_node (hce : ¬ z.isCut ce) : ¬ z.node nc := by
  refine fun hn => h.absent (hn.authNode (Zone.not_occluded_iff.mpr fun d hd hne => ?_))
  by_contra hdn
  have hdn' : d.zoneOf nc=true := by simpa using hdn
  exact hne (zoneOf_antisymm hdn' (h.below_of_cut hce hd (zoneOf_trans hdn' h.nc_above)))

/-- With the next closer name absent, `q` is absent exactly if the encloser is no cut. -/
theorem NextCloserAbsent.absent_iff :
    ((∀ m t,q.zoneOf m=true → ¬ z.owns m t) ∧ ∀ d,z.isCut d → d.zoneOf q=false) ↔ ¬ z.isCut ce := by
  have hz : z.apex.zoneOf nc=true := zoneOf_trans h.ce_node.1 h.ce_above
  constructor
  · rintro ⟨-,hcut⟩ hce
    have hc := zoneOf_trans h.ce_above h.nc_above
    rw [hcut ce hce] at hc
    cases hc
  · intro hce
    have hnd := h.not_node hce
    refine ⟨fun m t hm ho => ?_,fun d hd => ?_⟩
    · exact hnd ⟨hz,(m,t),ho,zoneOf_trans h.nc_above hm⟩
    · by_contra hdq
      obtain ⟨t,ht⟩ := Zone.owns_of_isCut hd
      exact hnd ⟨hz,(d,t),ht,h.below_of_cut hce hd (by simpa using hdq)⟩

/-- The encloser of an absent next closer name is the closest one. -/
theorem NextCloserAbsent.isClosestEncloser (hce : ¬ z.isCut ce) : z.IsClosestEncloser q ce := by
  have hc := zoneOf_trans h.ce_above h.nc_above
  refine ⟨hc,h.ce_node.node,fun a ha hnd => zoneOf_of_length_le ha hc ?_⟩
  by_contra hlt
  refine h.not_node hce (hnd.mono (zoneOf_trans h.ce_node.1 h.ce_above) ?_)
  exact zoneOf_of_length_le h.nc_above ha (by have := h.nc_length; omega)

end

section
variable {w : Name}

def delegate (z : Zone) (w : Name) (hw : z.apex.zoneOf w=true) : Zone where
  apex := z.apex
  rrsets := (w,.NS)::z.rrsets
  contained := forall_mem_cons.mpr ⟨hw,z.contained⟩
  soa_mem := mem_cons_of_mem _ z.soa_mem
  soa_apex := forall_mem_cons.mpr ⟨fun h => absurd h (show RecordType.NS≠.SOA by decide),z.soa_apex⟩

structure Vacant (z : Zone) (w : Name) : Prop where
  inZone : z.apex.zoneOf w=true
  absent : ¬ z.node w
  free : ¬ z.occluded w
  above : ∀ a,z.apex.zoneOf a=true → a.zoneOf w=true → a≠w → z.authNode a

variable (h : Vacant z w) {n : Name} {t : RecordType}
include h

theorem Vacant.not_above (hn : z.owns n t) : w.zoneOf n=false := by
  by_contra hb
  exact h.absent ⟨h.inZone,(n,t),hn,by simpa using hb⟩

theorem Vacant.ne_apex : w≠z.apex := fun heq => by
  have ha := h.not_above z.soa_mem
  rw [heq,zoneOf_refl] at ha
  cases ha

omit h in
theorem owns_delegate (hw : z.apex.zoneOf w=true) : (delegate z w hw).owns n t ↔ (n=w ∧ t=.NS) ∨ z.owns n t := by
  simp [Zone.owns,delegate]

theorem Vacant.isDelegation_iff : (delegate z w h.inZone).isDelegation n ↔ n=w ∨ z.isDelegation n := by
  have ha := h.ne_apex
  rw [Zone.isDelegation,owns_delegate,Zone.isDelegation]
  change n≠z.apex ∧ _ ↔ _
  constructor
  · rintro ⟨hne,⟨rfl,-⟩ | hns⟩
    · exact .inl rfl
    · exact .inr ⟨hne,hns⟩
  · rintro (rfl | ⟨hne,hns⟩)
    · exact ⟨ha,.inl ⟨rfl,rfl⟩⟩
    · exact ⟨hne,.inr hns⟩

theorem Vacant.isCut_iff : (delegate z w h.inZone).isCut n ↔ n=w ∨ z.isCut n := by
  rw [Zone.isCut,h.isDelegation_iff,owns_delegate,Zone.isCut]
  simp [or_assoc,show RecordType.DNAME≠.NS by decide]

theorem Vacant.isOwner_iff : (delegate z w h.inZone).isOwner n ↔ n=w ∨ z.isOwner n := by
  have hoc (hn : w.zoneOf n=false ∨ n=w) : (¬ (delegate z w h.inZone).occluded n) ↔ ¬ z.occluded n := by
    rw [Zone.not_occluded_iff,Zone.not_occluded_iff]
    refine ⟨fun hd d hcut => hd d (h.isCut_iff.mpr (.inr hcut)),fun hd d hcut hne => ?_⟩
    rcases h.isCut_iff.mp hcut with rfl | hcut
    · exact hn.resolve_right fun heq => hne heq.symm
    · exact hd d hcut hne
  constructor
  · rintro ⟨⟨e,he,rfl⟩,hf⟩
    rcases mem_cons.mp he with rfl | he
    · exact .inl rfl
    · exact .inr ⟨⟨e,he,rfl⟩,(hoc (.inl (h.not_above he))).mp hf⟩
  · rintro (rfl | ⟨⟨e,he,rfl⟩,hf⟩)
    · exact ⟨⟨_,mem_cons_self,rfl⟩,(hoc (.inr rfl)).mpr h.free⟩
    · exact ⟨⟨e,mem_cons_of_mem _ he,rfl⟩,(hoc (.inl (h.not_above he))).mpr hf⟩

theorem Vacant.authNode_iff : (delegate z w h.inZone).authNode n ↔ n=w ∨ z.authNode n := by
  constructor
  · rintro ⟨hn,e,-,how,hne⟩
    rcases h.isOwner_iff.mp how with heq | how
    · exact or_iff_not_imp_left.mpr fun hw => h.above n hn (heq ▸ hne) hw
    · exact .inr (Zone.authNode_of_isOwner how hn hne)
  · rintro (rfl | hn)
    · exact Zone.authNode_of_isOwner (h.isOwner_iff.mpr (.inl rfl)) h.inZone (zoneOf_refl _)
    · obtain ⟨hn,e,-,how,hne⟩ := hn
      exact Zone.authNode_of_isOwner (h.isOwner_iff.mpr (.inr how)) hn hne

theorem Vacant.answersFor_iff (hne : n≠w) : (delegate z w h.inZone).answersFor n t ↔ z.answersFor n t := by
  rw [Zone.answersFor,Zone.answersFor,owns_delegate,h.isDelegation_iff]
  simp [hne]

theorem Vacant.not_authNode_self (hn : z.authNode n) : n≠w := by
  rintro rfl
  exact h.absent hn.node

/-- The chain need not change: an unsigned delegation may be left out of it. -/
def delegateChain (c : Nsec3Chain lib z) : Nsec3Chain lib (delegate z w h.inZone) where
  salt := c.salt
  iterations := c.iterations
  digest := c.digest
  names := c.names
  digest_eq := c.digest_eq
  digest_length := c.digest_length
  sound := fun n hn => h.authNode_iff.mpr (.inr (c.sound n hn))
  omitted := fun n hn hout o ho hno => by
    rcases h.isOwner_iff.mp ho with rfl | ho
    · refine ⟨h.isDelegation_iff.mpr (.inl rfl),fun hds => ?_⟩
      rcases (owns_delegate h.inZone).mp hds with ⟨-,hds⟩ | hds
      · cases hds
      · have hself := h.not_above hds
        rw [zoneOf_refl] at hself
        cases hself
    · have hn : z.authNode n := Zone.authNode_of_isOwner ho hn.1 hno
      obtain ⟨hdel,hds⟩ := c.omitted n hn hout o ho hno
      have hne := h.not_authNode_self (Zone.authNode_of_isOwner ho (Zone.isOwner_contained ho) (zoneOf_refl o))
      refine ⟨h.isDelegation_iff.mpr (.inr hdel),fun hds' => hds ?_⟩
      exact ((owns_delegate h.inZone).mp hds').resolve_left fun heq => hne heq.1

theorem Vacant.nsecLink {e : Name × Nsec} (hl : NsecLink z e) (hc : nsecCovers w e=false) :
    NsecLink (delegate z w h.inZone) e := by
  have hg : ¬ Between e.1 w e.2.nextDomainName := by simpa [nsecCovers] using hc
  refine ⟨⟨h.isOwner_iff.mpr (.inr hl.link.left),h.isOwner_iff.mpr (.inr hl.link.right),fun x hx => ?_⟩,fun t => ?_⟩
  · rcases h.isOwner_iff.mp hx with rfl | hx
    · exact hg
    · exact hl.link.gap x hx
  · have hself := Zone.authNode_of_isOwner hl.link.left (Zone.isOwner_contained hl.link.left) (zoneOf_refl _)
    rw [hl.types,h.answersFor_iff (h.not_authNode_self hself)]

theorem Vacant.nsec3Link {c : Nsec3Chain lib z} {e : Name × Nsec3} {o n : Name} (hl : Nsec3Link c e o n)
    (hg : e.2.optOut=false → ¬ Between (c.digest o) (c.digest w) (c.digest n)) :
    Nsec3Link (delegateChain h c) e o n where
  algorithm := hl.algorithm
  salt := hl.salt
  iterations := hl.iterations
  owner := hl.owner
  next := hl.next
  left := hl.left
  right := hl.right
  gap := hl.gap
  exact := fun hop x hx => by
    rcases h.authNode_iff.mp hx with rfl | hx
    · exact hg hop
    · exact hl.exact hop x hx
  types := fun t => by
    have hne := h.not_authNode_self (c.sound o hl.left)
    rw [hl.types]
    simp only [h.answersFor_iff hne,h.isDelegation_iff,hne,false_or]

end

section
variable {c : Nsec3Chain lib z} {D : Denial} {q w : Name}

/-- A record handed in says that nothing exists at `w`: an NSEC that covers it and does not end below it,
or an NSEC3 without opt-out that covers its hash. -/
def Denies (lib : Library) (D : Denial) (w : Name) : Prop :=
  (∃ e∈D.nsec,nsecCovers w e=true ∧ w.zoneOf e.2.nextDomainName=false) ∨
    ∃ e∈D.nsec3,e.2.optOut=false ∧ ∃ owner digest,ownerHash lib e.1=some owner ∧
      lib.nsec3Hash e.2.salt w e.2.iterations=some digest ∧
      Between owner (base32hex digest) (base32hex e.2.nextHashedOwnerName)

theorem Nsec3Link.covers_iff {e : Name × Nsec3} {o n : Name} (hl : Nsec3Link c e o n) :
    (∃ owner digest,ownerHash lib e.1=some owner ∧ lib.nsec3Hash e.2.salt w e.2.iterations=some digest ∧
      Between owner (base32hex digest) (base32hex e.2.nextHashedOwnerName)) ↔
      Between (c.digest o) (c.digest w) (c.digest n) := by
  rw [hl.salt,hl.iterations,c.digest_eq,hl.ownerHash_eq,hl.next,
    ← between_base32hex (c.digest_length o w) (c.digest_length w n)]
  constructor
  · rintro ⟨_,_,how,hd,h⟩
    cases how
    cases hd
    exact h
  · exact fun h => ⟨_,_,rfl,rfl,h⟩

theorem not_node_of_denies (hD : DrawnFrom c D) (hf : ¬ z.occluded w) (h : Denies lib D w) : ¬ z.node w := by
  intro hnd
  have ha := hnd.authNode hf
  rcases h with ⟨e,he,hc,hen⟩ | ⟨e,he,hop,hc⟩
  · obtain ⟨-,x,-,how,hx⟩ := ha
    have hb : Between e.1 w e.2.nextDomainName := by simpa [nsecCovers] using hc
    exact (hD.nsec e he).link.gap x.1 how (between_of_zoneOf hb hen hx)
  · obtain ⟨o,n,hl⟩ := hD.nsec3 e he
    exact hl.exact hop w ha ((Nsec3Link.covers_iff hl).mp hc)

/-- What no record denies may as well be delegated. -/
theorem Vacant.drawnFrom (h : Vacant z w) (hD : DrawnFrom c D) (hop : ¬ Denies lib D w) :
    DrawnFrom (delegateChain h c) D := by
  constructor
  · intro e he
    refine h.nsecLink (hD.nsec e he) ?_
    by_contra hc
    refine hop (.inl ⟨e,he,by simpa using hc,?_⟩)
    obtain ⟨⟨x,hx,hna⟩,-⟩ := (hD.nsec e he).link.right
    exact hna ▸ h.not_above (show z.owns x.1 x.2 from hx)
  · intro e he
    obtain ⟨o,n,hl⟩ := hD.nsec3 e he
    exact ⟨o,n,h.nsec3Link hl fun hot hb => hop (.inr ⟨e,he,hot,(Nsec3Link.covers_iff hl).mpr hb⟩)⟩

theorem prependWildcard_labels {a q : Name} (h : a.zoneOf q=true) (hne : a≠q) :
    (prependWildcard a).labels=star::a.labels := by
  obtain ⟨pre,hp⟩ := zoneOf_iff_suffix.mp h
  -- `q` is at least one label longer, so `*` fits in front of `a`
  have hf : wireLength (star::a.labels) ≤ 255 := by
    refine le_trans ?_ q.fits
    cases pre with
    | nil => exact absurd (labels_injective (by simpa using hp)) hne
    | cons l ls =>
      have hl : 0<l.bytes.length := length_pos_of_ne_nil l.nonempty
      have hs : DomainNames.star.bytes.length=1 := rfl
      rw [← hp]
      simp only [wireLength,hs,map_cons,sum_cons,map_append,sum_append,
        cons_append]
      omega
  simp [prependWildcard,Name.prependLabel,hf]

variable {ce : Name} (hce : z.IsClosestEncloser q ce) (hne : ce≠q)
include hce hne

/-- A proper ancestor of the wildcard at the closest encloser is an ancestor of the encloser. -/
theorem zoneOf_encloser {a : Name} (ha : a.zoneOf (prependWildcard ce)=true) (haw : a≠prependWildcard ce) :
    a.zoneOf ce=true := by
  have hl := prependWildcard_labels hce.encloses hne
  have hw : ce.zoneOf (prependWildcard ce)=true := zoneOf_iff_suffix.mpr (hl ▸ suffix_cons _ _)
  refine zoneOf_of_length_le ha hw ?_
  have hle := length_le_of_zoneOf ha
  have hln : (prependWildcard ce).labels.length=ce.labels.length+1 := by rw [hl,length_cons]
  have hlt : a.labels.length≠(prependWildcard ce).labels.length := fun heq =>
    haw (zoneOf_antisymm ha (zoneOf_of_length_le (zoneOf_refl _) ha heq.ge))
  omega

variable (hcut : ∀ d,z.isCut d → d.zoneOf q=false)
include hcut

theorem wildcard_free : ¬ z.occluded (prependWildcard ce) := by
  refine Zone.not_occluded_iff.mpr fun d hd hdw => ?_
  by_contra ha
  have hdq := zoneOf_trans (zoneOf_encloser hce hne (by simpa using ha) hdw) hce.encloses
  rw [hcut d hd] at hdq
  cases hdq

theorem noWildcard_of_denies (hD : DrawnFrom c D) (h : Denies lib D (prependWildcard ce)) : NoWildcard z q := by
  rintro w ⟨ce',hce',hl⟩
  obtain rfl := hce.unique hce'
  obtain rfl : w=prependWildcard ce := labels_injective (hl.trans (prependWildcard_labels hce.encloses hne).symm)
  exact not_node_of_denies hD (wildcard_free hce hne hcut) h

/-- If the name error holds in every zone the records may come from, one of them denies the wildcard. -/
theorem denies_of_forall (hD : DrawnFrom c D) (hcf : CollisionFree c q)
    (h : ∀ (z' : Zone) (c' : Nsec3Chain lib z'),z'.apex=z.apex → DrawnFrom c' D → CollisionFree c' q → z'.NameError q) :
    Denies lib D (prependWildcard ce) := by
  have hl := prependWildcard_labels hce.encloses hne
  have hw : ce.zoneOf (prependWildcard ce)=true := zoneOf_iff_suffix.mpr (hl ▸ suffix_cons _ _)
  have hau : z.authNode ce := hce.node.authNode (Zone.not_occluded_iff.mpr fun d hd _ => by
    by_contra hab
    have hdq := zoneOf_trans (by simpa using hab) hce.encloses
    rw [hcut d hd] at hdq
    cases hdq)
  have hv : Vacant z (prependWildcard ce) := by
    refine ⟨zoneOf_trans hce.node.1 hw,(h z c rfl hD hcf).noWildcard _ ⟨ce,hce,hl⟩,wildcard_free hce hne hcut,
      fun a ha haw hself => ?_⟩
    obtain ⟨-,e,-,how,hc⟩ := hau
    exact Zone.authNode_of_isOwner how ha (zoneOf_trans (zoneOf_encloser hce hne haw hself) hc)
  by_contra hop
  -- with the wildcard delegated the records are as genuine as before, but it is there
  have her := h _ (delegateChain hv c) rfl (hv.drawnFrom hD hop) hcf
  have hab : (prependWildcard ce).zoneOf q=false := her.notCut _ (hv.isCut_iff.mpr (.inl rfl))
  have hself : (delegate z _ hv.inZone).authNode (prependWildcard ce) := hv.authNode_iff.mpr (.inl rfl)
  refine her.noWildcard _ ⟨ce,⟨hce.encloses,(hv.authNode_iff.mpr (.inr hau)).node,?_⟩,hl⟩ hself.node
  rintro a ha ⟨hz,e,he,hae⟩
  rcases mem_cons.mp he with rfl | he
  · refine zoneOf_encloser hce hne hae fun heq => ?_
    rw [heq,hab] at ha
    cases ha
  · exact hce.longest a ha ⟨hz,e,he,hae⟩

end

section
variable {c : Nsec3Chain lib z} {D : Denial} {q zone : Name}

/-- An NSEC covers the wildcard or is owned by it; the second is no evidence against it. -/
def WildcardSeen (D : Denial) (w : Name) : Prop := nsecCoversName D w=true ∨ D.nsec.any (·.1=w)=true

def WildcardSeenNsec3 (lib : Library) (D : Denial) (w : Name) : Prop :=
  (∃ e,nsec3Covering lib D w=.ok (some e)) ∨
    nsec3Covering lib D w=.ok none ∧ ∃ e,nsec3Matching lib D w=.ok (some e)

theorem proveNxdomainNsec_proven : proveNxdomainNsec q zone D=.ok .proven ↔
    D.nsec.any (·.1=q)=false ∧ nsecCoversName D q=true ∧ WildcardSeen D (wildcardOf q zone) := by
  unfold proveNxdomainNsec WildcardSeen
  split_ifs with h1 h2 h3
  · simp [h1]
  · simp [h2]
  · simp [h3.1,h3.2]
  · simp only [not_and_or,Bool.not_eq_false] at h3
    simp only [h1,h2,true_and,true_iff]
    exact h3

theorem proveNxdomainNsec3_proven : proveNxdomainNsec3 lib q D=.ok .proven ↔
    ∃ ce nc cov,closestEncloser lib q D=.ok (some (ce,nc)) ∧
      nsec3Covering lib D nc=.ok (some cov) ∧ cov.2.optOut=false ∧
      WildcardSeenNsec3 lib D (prependWildcard ce) := by
  have hop : ∀ b : Bool,(Except.ok (if b then Denied.optedOut else .proven) :
      Except ValidationError Denied)=.ok .proven ↔ b=false := by decide
  unfold proveNxdomainNsec3 WildcardSeenNsec3
  cases hce : closestEncloser lib q D with
  | error e => simp
  | ok found =>
    rcases found with _ | ⟨ce,nc⟩
    · simp
    · rcases hc : nsec3Covering lib D nc with e | _ | ⟨co,cov⟩
      · simp [hc]
      · simp [hc]
      · rcases hw : nsec3Covering lib D (prependWildcard ce) with e | _ | ⟨wo,w⟩
        · simp [hc,hw]
        · rcases hm : nsec3Matching lib D (prependWildcard ce) with e | _ | ⟨mo,m⟩ <;>
            simp [hop,hc,hw,hm]
        · simp [hop,hc,hw]

/-- What the proof does not look at in the records speaks for it as well: the range that covers `q` neither
ends below it nor starts at a cut above it, or the record of the closest encloser shows no cut, and
some record denies the wildcard there. -/
structure NxdomainConclusive (lib : Library) (zone : Name) (D : Denial) (q : Name) : Prop where
  nsec : ∀ e∈D.nsec,nsecCovers q e=true → WildcardSeen D (wildcardOf q zone) →
    (q.zoneOf e.2.nextDomainName=false ∧ ¬ (e.1.zoneOf q=true ∧ ShowsCut e.2.typeBitMaps)) ∧
      ∀ ce,EncloserShown e q ce → Denies lib D (prependWildcard ce)
  nsec3 : D.nsec=[] → ∀ ce nc m cov,closestEncloser lib q D=.ok (some (ce,nc)) →
    nsec3Matching lib D ce=.ok (some m) → nsec3Covering lib D nc=.ok (some cov) →
    cov.2.optOut=false → WildcardSeenNsec3 lib D (prependWildcard ce) →
    ¬ ShowsCut m.2.typeBitMaps ∧ Denies lib D (prependWildcard ce)

private theorem no_nsec_at_of_covers (hD : DrawnFrom c D) {e : Name × Nsec} (he : e∈D.nsec)
    (hc : nsecCovers q e=true) : D.nsec.any (·.1=q)=false := by
  have hb : Between e.1 q e.2.nextDomainName := by simpa [nsecCovers] using hc
  rw [any_eq_false]
  intro x hx hxq
  have heq : x.1=q := by simpa using hxq
  exact (hD.nsec e he).link.gap q (heq ▸ (hD.nsec x hx).link.left) hb

/-- `NXDOMAIN` is the answer for `q` in every zone the records may come from. -/
private def ErrorEverywhere (lib : Library) (zone : Name) (D : Denial) (q : Name) : Prop :=
  ∀ (z' : Zone) (c' : Nsec3Chain lib z'),z'.apex=zone → DrawnFrom c' D → CollisionFree c' q → z'.NameError q

variable (hD : DrawnFrom c D) (hcf : CollisionFree c q) (hq : z.apex.zoneOf q=true)
include hD hcf hq

private theorem nsec_sound_iff : (proveNxdomainNsec q z.apex D=.ok .proven → ErrorEverywhere lib z.apex D q) ↔
    ∀ e∈D.nsec,nsecCovers q e=true → WildcardSeen D (wildcardOf q z.apex) →
      (q.zoneOf e.2.nextDomainName=false ∧ ¬ (e.1.zoneOf q=true ∧ ShowsCut e.2.typeBitMaps)) ∧
        ∀ ce,EncloserShown e q ce → Denies lib D (prependWildcard ce) := by
  have hne {z : Zone} {ce : Name} (hce : z.IsClosestEncloser q ce) (ha : ∀ m t,q.zoneOf m=true →
    ¬ z.owns m t) : ce≠q := by
    rintro rfl
    obtain ⟨-,x,hx,hb⟩ := hce.node
    exact ha x.1 x.2 hb hx
  rw [proveNxdomainNsec_proven]
  constructor
  · intro h e he hc hw
    have hal := h ⟨no_nsec_at_of_covers hD he hc,any_eq_true.mpr ⟨e,he,hc⟩,hw⟩
    have her := hal z c rfl hD hcf
    have hl := hD.nsec e he
    refine ⟨(absent_iff_of_covers hl hc).mp ⟨her.absent,her.notCut⟩,fun ce hs => ?_⟩
    have hce := (closestEncloser_iff_shown hl hc hq her.notCut).mpr hs
    exact denies_of_forall hce (hne hce her.absent) her.notCut hD hcf hal
  · rintro h ⟨-,han,hw⟩ z' c' hap hD' -
    obtain ⟨e,he,hc⟩ := any_eq_true.mp han
    have hl := hD'.nsec e he
    obtain ⟨hr,hd⟩ := h e he hc hw
    obtain ⟨ha,hcut⟩ := (absent_iff_of_covers hl hc).mpr hr
    refine ⟨ha,hcut,fun w hw => ?_⟩
    obtain ⟨ce,hce,-⟩ := id hw
    have hs := (closestEncloser_iff_shown hl hc (hap ▸ hq) hcut).mp hce
    exact noWildcard_of_denies hce (hne hce ha) hcut hD' (hd ce hs) w hw

omit hq in
private theorem nsec3_sound_iff : (proveNxdomainNsec3 lib q D=.ok .proven → ErrorEverywhere lib z.apex D q) ↔
    ∀ ce nc m cov,closestEncloser lib q D=.ok (some (ce,nc)) →
      nsec3Matching lib D ce=.ok (some m) → nsec3Covering lib D nc=.ok (some cov) →
      cov.2.optOut=false → WildcardSeenNsec3 lib D (prependWildcard ce) →
      ¬ ShowsCut m.2.typeBitMaps ∧ Denies lib D (prependWildcard ce) := by
  have hne {z : Zone} {ce nc : Name} (ha : NextCloserAbsent z q ce nc) : ce≠q := by
    rintro rfl
    have hle := length_le_of_zoneOf ha.nc_above
    have hln := ha.nc_length
    omega
  have hcut {z : Zone} {c : Nsec3Chain lib z} {ce nc : Name} {m cov : Name × Nsec3} (hD : DrawnFrom c D)
    (hcf : CollisionFree c q)
      (hce : closestEncloser lib q D=.ok (some (ce,nc))) (hm : nsec3Matching lib D ce=.ok (some m))
      (hc : nsec3Covering lib D nc=.ok (some cov)) (hop : cov.2.optOut=false) :
      NextCloserAbsent z q ce nc ∧ (ShowsCut m.2.typeBitMaps ↔ z.isCut ce) := by
    obtain ⟨n,hl⟩ := hD.matching hcf (Or.inl (closestEncloser_some hce).2.1) hm
    exact ⟨nextCloserAbsent_of_covering hD hcf hce hc hop,Nsec3Link.showsCut_iff hl⟩
  rw [proveNxdomainNsec3_proven]
  constructor
  · intro h ce nc m cov hce hm hc hop hw
    have hal := h ⟨ce,nc,cov,hce,hc,hop,hw⟩
    have he := hal z c rfl hD hcf
    obtain ⟨ha,hs⟩ := hcut hD hcf hce hm hc hop
    have hnc := ha.absent_iff.mp ⟨he.absent,he.notCut⟩
    refine ⟨hs.not.mpr hnc,?_⟩
    exact denies_of_forall (ha.isClosestEncloser hnc) (hne ha) he.notCut hD hcf hal
  · rintro h ⟨ce,nc,cov,hce,hc,hop,hw⟩ z' c' - hD' hcf'
    obtain ⟨⟨m,hm⟩,-,-⟩ := closestEncloser_some hce
    obtain ⟨hnc,hd⟩ := h ce nc m cov hce hm hc hop hw
    obtain ⟨ha,hs⟩ := hcut hD' hcf' hce hm hc hop
    rw [hs] at hnc
    obtain ⟨hab,hf⟩ := ha.absent_iff.mpr hnc
    exact ⟨hab,hf,noWildcard_of_denies (ha.isClosestEncloser hnc) (hne ha) hf hD' hd⟩

/-- An accepted NXDOMAIN proof is right, whatever zone its records come from, exactly when they are
conclusive. -/
theorem proveNxdomain_sound_iff :
    (∀ (z' : Zone) (c' : Nsec3Chain lib z'),z'.apex=z.apex → DrawnFrom c' D → CollisionFree c' q →
      proveNxdomain lib q z.apex D=.ok .proven → z'.NameError q) ↔ NxdomainConclusive lib z.apex D q := by
  have hs : (∀ (z' : Zone) (c' : Nsec3Chain lib z'),z'.apex=z.apex → DrawnFrom c' D → CollisionFree c' q →
      proveNxdomain lib q z.apex D=.ok .proven → z'.NameError q) ↔
      (proveNxdomain lib q z.apex D=.ok .proven → ErrorEverywhere lib z.apex D q) :=
    ⟨fun h hp z' c' ha hD' hcf' => h z' c' ha hD' hcf' hp,
      fun h z' c' ha hD' hcf' hp => h hp z' c' ha hD' hcf'⟩
  rw [hs]
  unfold proveNxdomain
  split_ifs with hns hnc
  · rw [nsec_sound_iff hD hcf hq]
    exact ⟨fun h => ⟨h,fun he => absurd he hns⟩,fun h => h.nsec⟩
  · rw [nsec3_sound_iff hD hcf]
    rw [not_not] at hns
    exact ⟨fun h => ⟨by simp [hns],fun _ => h⟩,fun h => h.nsec3 hns⟩
  · rw [not_not] at hns hnc
    refine ⟨fun _ => ⟨by simp [hns],fun _ ce nc m cov _ hm => ?_⟩,fun _ h => by simp at h⟩
    have := nsec3Matching_mem hm
    simp [hnc] at this

end

def wildcardDenial : Denial where
  nsec := [(toyName [[42],[101]],⟨toyName [[101]],[.A,.NSEC,.RRSIG]⟩)]
  nsec3 := []

theorem wildcardDenial_drawnFrom : DrawnFrom (toyChain wildcardZone) wildcardDenial :=
  ⟨by decide,by simp [wildcardDenial]⟩

private theorem wildcardZone_source :
    wildcardZone.IsSourceOfSynthesis (toyName [[120],[101]]) (toyName [[42],[101]]) := by
  refine ⟨toyName [[101]],⟨by decide,by decide,fun a ha hnd => ?_⟩,by decide⟩
  have hal : ∀ k∈range 3,wildcardZone.node ((toyName [[120],[101]]).trimTo k) →
      ((toyName [[120],[101]]).trimTo k).zoneOf (toyName [[101]])=true := by decide
  have hl : a.labels.length ≤ 2 := length_le_of_zoneOf ha
  rw [← trimTo_eq_of_zoneOf ha] at hnd ⊢
  exact hal _ (mem_range.mpr (by omega)) hnd

/-- The NSEC at the wildcard itself is taken to rule the wildcard out. -/
theorem proveNxdomain_accepts_wildcard :
    proveNxdomain toyLibrary (toyName [[120],[101]]) wildcardZone.apex wildcardDenial=.ok .proven ∧
      DrawnFrom (toyChain wildcardZone) wildcardDenial ∧
      CollisionFree (toyChain wildcardZone) (toyName [[120],[101]]) ∧
      wildcardZone.apex.zoneOf (toyName [[120],[101]])=true ∧
      ¬ wildcardZone.NameError (toyName [[120],[101]]) :=
  ⟨by decide,wildcardDenial_drawnFrom,collisionFree_iff.mpr (by decide),by decide,
    fun h => h.noWildcard _ wildcardZone_source (by decide)⟩

def bareZone : Zone where
  apex := toyName [[101]]
  rrsets := [(toyName [[101]],.SOA)]
  contained := by decide
  soa_mem := by decide
  soa_apex := by decide

def bareDenial : Denial where
  nsec := [(toyName [[101]],⟨toyName [[101]],[.SOA,.NSEC,.RRSIG]⟩)]
  nsec3 := []

theorem proveNxdomain_sound_iff_bare :
    proveNxdomain toyLibrary (toyName [[120],[101]]) bareZone.apex bareDenial=.ok .proven ∧
      ∀ (z : Zone) (c : Nsec3Chain toyLibrary z),z.apex=toyName [[101]] → DrawnFrom c bareDenial →
        CollisionFree c (toyName [[120],[101]]) → z.NameError (toyName [[120],[101]]) := by
  have hp : proveNxdomain toyLibrary (toyName [[120],[101]]) bareZone.apex bareDenial=.ok .proven := by decide
  have hD : DrawnFrom (toyChain bareZone) bareDenial := ⟨by decide,by simp [bareDenial]⟩
  have hc : NxdomainConclusive toyLibrary bareZone.apex bareDenial (toyName [[120],[101]]) := by
    refine ⟨forall_mem_singleton.mpr fun _ _ => ⟨by decide,fun ce hce => ?_⟩,fun h => absurd h (by decide)⟩
    obtain rfl : ce=toyName [[101]] := zoneOf_antisymm (hce.shown.elim id id) (hce.longest _ (by decide) (by decide))
    exact .inl ⟨_,mem_singleton.mpr rfl,by decide,by decide⟩
  exact ⟨hp,fun z c ha hz hcf =>
    (proveNxdomain_sound_iff hD (collisionFree_iff.mpr (by decide)) (by decide)).mpr hc z c ha hz hcf hp⟩

end RolodexDns.NameErrorSoundness
