import RolodexDns.DnsRecords

/-! What a zone holds and how it answers: the RRsets it owns, its delegations and redirections,
and the names they hide. Denial records are judged against this, not against the resolver. -/
namespace RolodexDns.ZoneContents
open DomainNames DnsRecords Name List

/-- A zone by the RRsets it owns, the glue below its delegations included. -/
structure Zone where
  apex : Name
  rrsets : List (Name × RecordType)
  contained : ∀ e∈rrsets,apex.zoneOf e.1=true
  soa_mem : (apex,RecordType.SOA)∈rrsets
  soa_apex : ∀ e∈rrsets,e.2=RecordType.SOA → e.1=apex

namespace Zone

def owns (z : Zone) (n : Name) (t : RecordType) : Prop := (n,t)∈z.rrsets

instance (z : Zone) (n : Name) (t : RecordType) : Decidable (z.owns n t) :=
  inferInstanceAs (Decidable ((n,t)∈z.rrsets))

def isDelegation (z : Zone) (d : Name) : Prop := d≠z.apex ∧ z.owns d .NS

instance (z : Zone) (d : Name) : Decidable (z.isDelegation d) :=
  inferInstanceAs (Decidable (_ ∧ _))

/-- A name below which the zone itself has no say: a delegation or a DNAME. -/
def isCut (z : Zone) (d : Name) : Prop := z.isDelegation d ∨ z.owns d .DNAME

instance (z : Zone) (d : Name) : Decidable (z.isCut d) := inferInstanceAs (Decidable (_ ∨ _))

def occluded (z : Zone) (n : Name) : Prop :=
  ∃ e∈z.rrsets,z.isCut e.1 ∧ e.1≠n ∧ e.1.zoneOf n=true

instance (z : Zone) (n : Name) : Decidable (z.occluded n) :=
  inferInstanceAs (Decidable (∃ e∈z.rrsets,_))

/-- A name that owns records the zone answers for: the names of its denial chain. -/
def isOwner (z : Zone) (n : Name) : Prop := (∃ e∈z.rrsets,e.1=n) ∧ ¬ z.occluded n

instance (z : Zone) (n : Name) : Decidable (z.isOwner n) := inferInstanceAs (Decidable (_ ∧ _))

/-- A name that exists: it has records at it or below it. -/
def node (z : Zone) (n : Name) : Prop :=
  z.apex.zoneOf n=true ∧ ∃ e∈z.rrsets,n.zoneOf e.1=true

instance (z : Zone) (n : Name) : Decidable (z.node n) := inferInstanceAs (Decidable (_ ∧ _))

/-- A name that exists because of an owner: the owner itself or an empty non-terminal above it. -/
def authNode (z : Zone) (n : Name) : Prop :=
  z.apex.zoneOf n=true ∧ ∃ e∈z.rrsets,z.isOwner e.1 ∧ n.zoneOf e.1=true

instance (z : Zone) (n : Name) : Decidable (z.authNode n) := inferInstanceAs (Decidable (_ ∧ _))

/-- The types the zone answers for at an owner: only NS and DS at a delegation. -/
def answersFor (z : Zone) (n : Name) (t : RecordType) : Prop :=
  z.owns n t ∧ (z.isDelegation n → t=.NS ∨ t=.DS)

instance (z : Zone) (n : Name) (t : RecordType) : Decidable (z.answersFor n t) :=
  inferInstanceAs (Decidable (_ ∧ _))

/-- The longest existing ancestor of a name, itself included. -/
structure IsClosestEncloser (z : Zone) (q ce : Name) : Prop where
  encloses : ce.zoneOf q=true
  node : z.node ce
  longest : ∀ a,a.zoneOf q=true → z.node a → a.zoneOf ce=true

/-- `w` is the wildcard from which an absent `q` would be answered. -/
def IsSourceOfSynthesis (z : Zone) (q w : Name) : Prop :=
  ∃ ce,z.IsClosestEncloser q ce ∧ w.labels=star::ce.labels

structure NameError (z : Zone) (q : Name) : Prop where
  absent : ∀ m t,q.zoneOf m=true → ¬ z.owns m t
  notCut : ∀ d,z.isCut d → d.zoneOf q=false
  noWildcard : ∀ w,z.IsSourceOfSynthesis q w → ¬ z.node w

structure NoData (z : Zone) (q : Name) (t : RecordType) : Prop where
  notOccluded : ∀ d,z.isCut d → d≠q → d.zoneOf q=false
  notReferred : z.isDelegation q → t=.DS
  notParental : t=.DS → q=z.apex → q.isRoot=true
  noType : ¬ z.answersFor q t
  noAlias : ¬ z.answersFor q .CNAME
  source : z.node q ∨ ∃ w,z.IsSourceOfSynthesis q w ∧ z.node w ∧ ¬ z.answersFor w t ∧
    ¬ z.answersFor w .CNAME

variable {z : Zone} {n q d : Name} {t : RecordType}

theorem owns_contained (h : z.owns n t) : z.apex.zoneOf n=true := z.contained (n,t) h

theorem owns_of_isCut (h : z.isCut d) : ∃ t,z.owns d t := by
  rcases h with h | h
  · exact ⟨.NS,h.2⟩
  · exact ⟨.DNAME,h⟩

theorem not_occluded_iff : ¬ z.occluded n ↔ ∀ d,z.isCut d → d≠n → d.zoneOf n=false := by
  refine ⟨fun h d hd hne => ?_,?_⟩
  · obtain ⟨t,ht⟩ := owns_of_isCut hd
    by_contra ha
    exact h ⟨(d,t),ht,hd,hne,by simpa using ha⟩
  · rintro h ⟨e,-,hc,hne,ha⟩
    simp [h e.1 hc hne] at ha

/-- Above any name under a cut there is a cut that nothing hides. -/
theorem exists_top_cut (h : z.isCut d) (hd : d.zoneOf n=true) :
    ∃ d',z.isCut d' ∧ d'.zoneOf n=true ∧ ¬ z.occluded d' := by
  -- the shortest cut above `n`
  induction hl : d.labels.length using Nat.strong_induction_on generalizing d with
  | _ k ih =>
    by_cases ho : z.occluded d
    · obtain ⟨e,-,hc,hne,ha⟩ := ho
      have hle := length_le_of_zoneOf ha
      have hlt : e.1.labels.length<k := by
        refine hl ▸ lt_of_le_of_ne hle fun heq => hne ?_
        exact zoneOf_antisymm ha
          (zoneOf_of_length_le (zoneOf_refl d) ha heq.ge)
      exact ih _ hlt hc (zoneOf_trans ha hd) rfl
    · exact ⟨d,h,hd,ho⟩

theorem isOwner_of_owns (h : z.owns n t) (ho : ¬ z.occluded n) : z.isOwner n :=
  ⟨⟨(n,t),h,rfl⟩,ho⟩

theorem isOwner_of_isCut (h : z.isCut d) (ho : ¬ z.occluded d) : z.isOwner d := by
  obtain ⟨t,ht⟩ := owns_of_isCut h
  exact isOwner_of_owns ht ho

theorem isOwner_contained (h : z.isOwner n) : z.apex.zoneOf n=true := by
  obtain ⟨⟨e,he,rfl⟩,-⟩ := h
  exact z.contained e he

theorem authNode_of_isOwner (h : z.isOwner n) (hn : z.apex.zoneOf q=true) (hq : q.zoneOf n=true) :
    z.authNode q := by
  obtain ⟨e,he,rfl⟩ := h.1
  exact ⟨hn,e,he,h,hq⟩

theorem authNode.node (h : z.authNode n) : z.node n := by
  obtain ⟨hn,e,he,-,hne⟩ := h
  exact ⟨hn,e,he,hne⟩

/-- Every record hangs below an owner: its own name, or the cut that hides it. -/
theorem exists_owner_of_owns (h : z.owns n t) : ∃ o,z.isOwner o ∧ o.zoneOf n=true ∧
    (o=n ∨ z.isCut o) := by
  by_cases ho : z.occluded n
  · obtain ⟨e,-,hc,-,ha⟩ := ho
    obtain ⟨d,hd,hdn,hf⟩ := exists_top_cut hc ha
    exact ⟨d,isOwner_of_isCut hd hf,hdn,Or.inr hd⟩
  · exact ⟨n,isOwner_of_owns h ho,zoneOf_refl n,Or.inl rfl⟩

/-- A name no cut hides exists exactly if an owner makes it exist. -/
theorem node.authNode (h : z.node n) (hoc : ¬ z.occluded n) : z.authNode n := by
  obtain ⟨hn,e,he,hne⟩ := h
  obtain ⟨o,ho,hoe,hc⟩ := exists_owner_of_owns (show z.owns e.1 e.2 from he)
  rcases zoneOf_total hne hoe with hno | hon
  · exact authNode_of_isOwner ho hn hno
  · rcases hc with rfl | hc
    · exact authNode_of_isOwner ho hn hne
    · by_cases hs : o=n
      · exact authNode_of_isOwner ho hn (hs ▸ zoneOf_refl o)
      · rw [not_occluded_iff.mp hoc o hc hs] at hon
        cases hon

theorem authNode.not_occluded (h : z.authNode n) : ¬ z.occluded n := by
  obtain ⟨-,e,-,ho,hne⟩ := h
  refine not_occluded_iff.mpr fun d hd hdn => ?_
  by_contra ha
  have hdn' : d.zoneOf n=true := by simpa using ha
  have hde : d≠e.1 := by
    rintro rfl
    exact hdn (zoneOf_antisymm hdn' hne)
  have hf := not_occluded_iff.mp ho.2 d hd hde
  simp [zoneOf_trans hdn' hne] at hf

theorem IsClosestEncloser.unique {ce ce' : Name} (h : z.IsClosestEncloser q ce)
    (h' : z.IsClosestEncloser q ce') : ce=ce' :=
  zoneOf_antisymm (h'.longest ce h.encloses h.node) (h.longest ce' h'.encloses h'.node)

theorem IsSourceOfSynthesis.unique {w w' : Name} (h : z.IsSourceOfSynthesis q w)
    (h' : z.IsSourceOfSynthesis q w') : w=w' := by
  obtain ⟨ce,hce,hw⟩ := h
  obtain ⟨ce',hce',hw'⟩ := h'
  obtain rfl := hce.unique hce'
  exact labels_injective (hw.trans hw'.symm)

/-- With no owner at or below a name and no cut above it, the zone holds nothing there. -/
theorem absent_of_no_owner (how : ∀ o,z.isOwner o → q.zoneOf o=false)
    (hc : ∀ d,z.isCut d → d.zoneOf q=false) (m : Name) (t : RecordType) (hm : q.zoneOf m=true) :
    ¬ z.owns m t := by
  intro h
  obtain ⟨o,ho,hom,hoc⟩ := exists_owner_of_owns h
  rcases zoneOf_total hm hom with hqo | hoq
  · rw [how o ho] at hqo
    cases hqo
  · rcases hoc with rfl | hoc
    · rw [how o ho] at hm
      cases hm
    · rw [hc o hoc] at hoq
      cases hoq

/-- The names that exist because of an owner, each as an ancestor of one. -/
def authNodes (z : Zone) : List Name :=
  (z.rrsets.flatMap fun e => (range (e.1.labels.length+1)).map e.1.trimTo).filter
    fun n => z.authNode n

theorem mem_authNodes : n∈z.authNodes ↔ z.authNode n := by
  simp only [authNodes,mem_filter,decide_eq_true_eq,mem_flatMap,mem_map,
    mem_range,and_iff_right_iff_imp]
  rintro ⟨-,e,he,-,hne⟩
  exact ⟨e,he,n.labels.length,Nat.lt_succ_of_le (length_le_of_zoneOf hne),
    trimTo_eq_of_zoneOf hne⟩

theorem isOwner_apex (z : Zone) : z.isOwner z.apex := by
  refine isOwner_of_owns z.soa_mem (not_occluded_iff.mpr fun d hd hne => ?_)
  obtain ⟨t,ht⟩ := owns_of_isCut hd
  by_contra ha
  exact hne (zoneOf_antisymm (by simpa using ha) (owns_contained ht))

theorem node.mono (h : z.node n) (ha : z.apex.zoneOf q=true) (hq : q.zoneOf n=true) : z.node q := by
  obtain ⟨-,e,he,hne⟩ := h
  exact ⟨ha,e,he,zoneOf_trans hq hne⟩

end Zone

end RolodexDns.ZoneContents
