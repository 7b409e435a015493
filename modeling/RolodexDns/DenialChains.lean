import RolodexDns.DenialProofs
import RolodexDns.ZoneContents

/-! The NSEC and NSEC3 chains a signer publishes for a zone, and what the validator's record
searches find when every record they see belongs to such a chain. -/
namespace RolodexDns.DenialChains
open DomainNames DnsRecords CyclicIntervals Base32Hex DenialProofs ZoneContents List

/-- A genuine NSEC of the zone: it links two neighbouring owners and lists the left one's types. -/
structure NsecLink (z : Zone) (e : Name × Nsec) : Prop where
  link : Link {n | z.isOwner n} e.1 e.2.nextDomainName
  types : ∀ t,t∈e.2.typeBitMaps ↔ z.answersFor e.1 t ∨ t=.NSEC ∨ t=.RRSIG

/-- The NSEC3 chain of a zone. `names` are the names with a record of their own; a name may only
be left out if every owner at or below it is an unsigned delegation. -/
structure Nsec3Chain (lib : Library) (z : Zone) where
  salt : List UInt8
  iterations : Nat
  digest : Name → List UInt8
  names : List Name
  digest_eq : ∀ n,lib.nsec3Hash salt n iterations=some (digest n)
  digest_length : ∀ a b,(digest a).length=(digest b).length
  sound : ∀ n∈names,z.authNode n
  omitted : ∀ n,z.authNode n → n∉names → ∀ o,z.isOwner o → n.zoneOf o=true →
    z.isDelegation o ∧ ¬ z.owns o .DS

/-- A genuine NSEC3 of the chain, for the name `o` with successor `n`. Without the opt-out flag
its range holds no existing name at all. -/
structure Nsec3Link {lib : Library} {z : Zone} (c : Nsec3Chain lib z) (e : Name × Nsec3) (o n : Name) :
    Prop where
  algorithm : e.2.hashAlgorithm=1
  salt : e.2.salt=c.salt
  iterations : e.2.iterations=c.iterations
  owner : ∃ l,e.1.labels=l::z.apex.labels ∧ l.bytes=(base32hex (c.digest o)).map asciiLower
  next : e.2.nextHashedOwnerName=c.digest n
  left : o∈c.names
  right : n∈c.names
  gap : ∀ x∈c.names,¬ Between (c.digest o) (c.digest x) (c.digest n)
  exact : e.2.optOut=false → ∀ x,z.authNode x → ¬ Between (c.digest o) (c.digest x) (c.digest n)
  types : ∀ t,t∈e.2.typeBitMaps ↔ z.answersFor o t ∨
    t=.RRSIG ∧ ∃ t',z.answersFor o t' ∧ ¬ (z.isDelegation o ∧ t'=.NS)

/-- Every record of `D` belongs to one of the zone's chains. -/
structure DrawnFrom {lib : Library} {z : Zone} (c : Nsec3Chain lib z) (D : Denial) : Prop where
  nsec : ∀ e∈D.nsec,NsecLink z e
  nsec3 : ∀ e∈D.nsec3,∃ o n,Nsec3Link c e o n

/-- The names whose hashes a proof about `q` computes: ancestors of `q` and wildcards at them. -/
def Probed (q x : Name) : Prop := x.zoneOf q=true ∨ ∃ a,a.zoneOf q=true ∧ x=prependWildcard a

variable {lib : Library} {z : Zone} {c : Nsec3Chain lib z}

/-- No name probed for `q` collides with another name of the chain. -/
def CollisionFree (c : Nsec3Chain lib z) (q : Name) : Prop :=
  ∀ x,Probed q x → ∀ o∈c.names,c.digest x=c.digest o → x=o

/-- The chain of a zone signed without opt-out: every existing name has its record. -/
def Nsec3Chain.full (z : Zone) (salt : List UInt8) (iterations : Nat)
    (digest : Name → List UInt8) (digest_eq : ∀ n,lib.nsec3Hash salt n iterations=some (digest n))
    (digest_length : ∀ a b,(digest a).length=(digest b).length) : Nsec3Chain lib z where
  salt := salt
  iterations := iterations
  digest := digest
  names := z.authNodes
  digest_eq := digest_eq
  digest_length := digest_length
  sound := fun _ h => Zone.mem_authNodes.mp h
  omitted := fun _ h hout => absurd (Zone.mem_authNodes.mpr h) hout

/-- Collision freedom is a check of the finitely many probed names. -/
theorem collisionFree_iff {q : Name} :
    CollisionFree c q ↔ ∀ k∈range (q.labels.length+1),
      ∀ x∈[q.trimTo k,prependWildcard (q.trimTo k)],∀ o∈c.names,c.digest x=c.digest o → x=o := by
  refine ⟨fun h k _ x hx => h x ?_,fun h x hx => ?_⟩
  · rcases mem_pair.mp hx with rfl | rfl
    · exact Or.inl (Name.trimTo_zoneOf q k)
    · exact Or.inr ⟨_,Name.trimTo_zoneOf q k,rfl⟩
  · have hk : ∀ a : Name,a.zoneOf q=true → a.labels.length∈range (q.labels.length+1) :=
      fun a ha => mem_range.mpr (Nat.lt_succ_of_le (Name.length_le_of_zoneOf ha))
    rcases hx with hx | ⟨a,ha,rfl⟩
    · exact h _ (hk x hx) x (by simp [Name.trimTo_eq_of_zoneOf hx])
    · exact h _ (hk a ha) _ (by simp [Name.trimTo_eq_of_zoneOf ha])

/-- Being a genuine NSEC is a check of the zone's finitely many RRsets. -/
theorem nsecLink_iff {e : Name × Nsec} : NsecLink z e ↔
    (z.isOwner e.1 ∧ z.isOwner e.2.nextDomainName ∧
      ∀ x∈z.rrsets,z.isOwner x.1 → ¬ Between e.1 x.1 e.2.nextDomainName) ∧
    (∀ t∈e.2.typeBitMaps,z.answersFor e.1 t ∨ t=.NSEC ∨ t=.RRSIG) ∧
    (∀ x∈z.rrsets,x.1=e.1 → z.answersFor e.1 x.2 → x.2∈e.2.typeBitMaps) ∧
    .NSEC∈e.2.typeBitMaps ∧ .RRSIG∈e.2.typeBitMaps := by
  refine ⟨fun h => ⟨⟨h.link.left,h.link.right,fun x _ hx => h.link.gap x.1 hx⟩,
    fun t ht => (h.types t).mp ht,fun x _ hx ha => (h.types _).mpr (Or.inl ha),
    (h.types _).mpr (by simp),(h.types _).mpr (by simp)⟩,?_⟩
  rintro ⟨⟨hl,hr,hg⟩,hs,hc,hn,hrr⟩
  refine ⟨⟨hl,hr,?_⟩,fun t => ⟨hs t,?_⟩⟩
  · rintro x ⟨⟨y,hy,rfl⟩,ho⟩
    exact hg y hy ⟨⟨y,hy,rfl⟩,ho⟩
  · rintro (h | rfl | rfl)
    · exact hc (e.1,t) h.1 rfl h
    · exact hn
    · exact hrr

instance {z : Zone} {e : Name × Nsec} : Decidable (NsecLink z e) := decidable_of_iff _ nsecLink_iff.symm

theorem nsec3Link_iff {e : Name × Nsec3} {o n : Name} :
    Nsec3Link c e o n ↔
    (e.2.hashAlgorithm=1 ∧ e.2.salt=c.salt ∧ e.2.iterations=c.iterations ∧
      e.2.nextHashedOwnerName=c.digest n ∧ o∈c.names ∧ n∈c.names) ∧
    (e.1.labels.tail=z.apex.labels ∧
      e.1.labels.head?.map Label.bytes=some ((base32hex (c.digest o)).map asciiLower)) ∧
    (∀ x∈c.names,¬ Between (c.digest o) (c.digest x) (c.digest n)) ∧
    (e.2.optOut=false → ∀ x∈z.authNodes,¬ Between (c.digest o) (c.digest x) (c.digest n)) ∧
    (∀ t∈e.2.typeBitMaps,z.answersFor o t ∨ t=.RRSIG) ∧
    (∀ x∈z.rrsets,x.1=o → z.answersFor o x.2 → x.2∈e.2.typeBitMaps) ∧
    (.RRSIG∈e.2.typeBitMaps ↔ z.answersFor o .RRSIG ∨
      ∃ x∈z.rrsets,z.answersFor o x.2 ∧ ¬ (z.isDelegation o ∧ x.2=.NS)) := by
  have hsi : (∃ t,z.answersFor o t ∧ ¬ (z.isDelegation o ∧ t=.NS)) ↔
      ∃ x∈z.rrsets,z.answersFor o x.2 ∧ ¬ (z.isDelegation o ∧ x.2=.NS) :=
    ⟨fun ⟨t,ha,hn⟩ => ⟨(o,t),ha.1,ha,hn⟩,fun ⟨x,_,ha,hn⟩ => ⟨x.2,ha,hn⟩⟩
  constructor
  · intro h
    obtain ⟨l,hl,hb⟩ := h.owner
    refine ⟨⟨h.algorithm,h.salt,h.iterations,h.next,h.left,h.right⟩,⟨by simp [hl],by simp [hl,hb]⟩,
      h.gap,fun ho x hx => h.exact ho x (Zone.mem_authNodes.mp hx),fun t ht => ?_,
      fun x _ _ ha => (h.types _).mpr (Or.inl ha),?_⟩
    · exact ((h.types t).mp ht).imp_right And.left
    · rw [h.types,← hsi]
      simp
  · rintro ⟨⟨ha,hs,hi,hn,hl,hr⟩,⟨hta,hh⟩,hg,he,hso,hc,hrr⟩
    refine ⟨ha,hs,hi,?_,hn,hl,hr,hg,
      fun ho x hx => he ho x (Zone.mem_authNodes.mpr hx),fun t => ⟨fun ht => ?_,?_⟩⟩
    · cases hla : e.1.labels with
      | nil => simp [hla] at hh
      | cons l ls => exact ⟨l,by simpa [hla] using hta,by simpa [hla] using hh⟩
    · rcases hso t ht with h | rfl
      · exact Or.inl h
      · exact (hrr.mp ht).imp_right fun h => ⟨rfl,hsi.mpr h⟩
    · rintro (h | ⟨rfl,h⟩)
      · exact hc (o,t) h.1 rfl h
      · exact hrr.mpr (Or.inr (hsi.mp h))

instance {lib : Library} {z : Zone} {c : Nsec3Chain lib z} {e : Name × Nsec3} {o n : Name} :
    Decidable (Nsec3Link c e o n) := decidable_of_iff _ nsec3Link_iff.symm

section
variable {lib : Library} {accepts : List UInt8 → Nsec3 → List UInt8 → Bool} {name : Name}
  {entries : List (Name × Nsec3)} {e : Name × Nsec3}

theorem findNsec3_some (h : findNsec3 lib accepts name entries=.ok (some e)) :
    e∈entries ∧ ∃ owner target,ownerHash lib e.1=some owner ∧ hashed lib e.2 name=.ok target ∧
      accepts owner e.2 target=true := by
  induction entries with
  | nil => simp [findNsec3] at h
  | cons entry rest ih =>
    have later : findNsec3 lib accepts name rest=.ok (some e) → _ :=
      fun h' => (ih h').imp_left (mem_cons_of_mem entry)
    unfold findNsec3 at h
    split at h
    · exact later h
    · rename_i owner ho
      split at h
      · cases h
      · rename_i target ht
        split_ifs at h with ha
        · cases h
          exact ⟨mem_cons_self,owner,target,ho,ht,ha⟩
        · exact later h

theorem findNsec3_none (h : findNsec3 lib accepts name entries=.ok none) (he : e∈entries)
    {owner : List UInt8} (ho : ownerHash lib e.1=some owner) :
    ∃ target,hashed lib e.2 name=.ok target ∧ accepts owner e.2 target=false := by
  induction entries with
  | nil => cases he
  | cons entry rest ih =>
    unfold findNsec3 at h
    rcases mem_cons.mp he with rfl | he
    · rw [ho] at h
      simp only at h
      split at h
      · cases h
      · rename_i target ht
        split_ifs at h with ha
        · cases h
        · exact ⟨target,ht,by simpa using ha⟩
    · split at h
      · exact ih h he
      · split at h
        · cases h
        · split at h
          · cases h
          · exact ih h he

theorem hashed_ok {nsec3 : Nsec3} {t : List UInt8} (h : hashed lib nsec3 name=.ok t) :
    ∃ d,lib.nsec3Hash nsec3.salt name nsec3.iterations=some d ∧ t=base32hex d := by
  unfold hashed at h
  split_ifs at h
  split at h
  · cases h
  · rename_i d hd
    exact ⟨d,hd,(Except.ok.inj h).symm⟩

end

section
variable {lib : Library} {D : Denial} {q ce nc : Name} {take : Nat}

theorem nextCloserName_some (h : nextCloserName q ce=some nc) :
    nc.zoneOf q=true ∧ nc=q.trimTo (ce.numLabels+1) ∧ ce.numLabels<q.numLabels := by
  unfold nextCloserName at h
  split_ifs at h with hle
  cases h
  exact ⟨Name.trimTo_zoneOf _ _,rfl,not_le.mp hle⟩

theorem nextCloser_between (hce : ce.zoneOf q=true) (hnc : nc=(nextCloserName q ce).getD ce) :
    ce.zoneOf nc=true ∧ nc.zoneOf q=true := by
  subst hnc
  cases h : nextCloserName q ce with
  | none => exact ⟨Name.zoneOf_refl ce,hce⟩
  | some nc =>
    obtain ⟨hq,rfl,-⟩ := nextCloserName_some h
    refine ⟨Name.zoneOf_of_length_le hce hq ?_,hq⟩
    have hl := Name.length_le_numLabels_succ ce
    have hle := Name.length_le_of_zoneOf hce
    rw [Option.getD_some,Name.trimTo_length]
    omega

private theorem encloserAt_some (h : encloserAt lib D q take=.ok (some (ce,nc))) :
    (∃ e,nsec3Matching lib D ce=.ok (some e)) ∧ ce.zoneOf q=true ∧
      nc=(nextCloserName q ce).getD ce := by
  unfold encloserAt at h
  split at h
  · cases h
  · cases h
  · rename_i e he
    cases h
    exact ⟨⟨e,he⟩,Name.trimTo_zoneOf q take,rfl⟩

private theorem closestEncloserFrom_some
    (h : closestEncloserFrom lib D q take=.ok (some (ce,nc))) :
    ∃ take',encloserAt lib D q take'=.ok (some (ce,nc)) := by
  induction take with
  | zero => exact ⟨0,h⟩
  | succ take ih =>
    unfold closestEncloserFrom at h
    split at h
    · cases h
    · rename_i found hf
      exact ⟨take+1,hf.trans h⟩
    · exact ih h

/-- The encloser found has a matching record, and the next closer name is its child towards `q`. -/
theorem closestEncloser_some (h : closestEncloser lib q D=.ok (some (ce,nc))) :
    (∃ e,nsec3Matching lib D ce=.ok (some e)) ∧ ce.zoneOf q=true ∧
      nc=(nextCloserName q ce).getD ce := by
  obtain ⟨take,ht⟩ := closestEncloserFrom_some h
  exact encloserAt_some ht

end

section
variable {lib : Library} {z : Zone} {c : Nsec3Chain lib z} {D : Denial} {e : Name × Nsec3} {x q o n : Name}

theorem base32hex_alphabet {bs : List UInt8} : ∀ b∈base32hex bs,∃ d,b=alphabet d := by
  have chunk : ∀ {c : List UInt8} {b : UInt8},b∈encodeChunk c → ∃ d,b=alphabet d := by
    intro c b hb
    obtain ⟨d,-,rfl⟩ := mem_map.mp hb
    exact ⟨d,rfl⟩
  fun_induction base32hex bs with
  | case1 => simp
  | case2 a b c d e rest ih =>
    intro x hx
    rcases mem_append.mp hx with hx | hx
    · exact chunk hx
    · exact ih x hx
  | case3 short => exact fun x hx => chunk hx

/-- Only the letters of the text count, not their case. -/
theorem ownerHash_of_upper {owner : Name} {l : Label} {hash : List UInt8} (hl : owner.labels.head?=some l)
    (hm : l.bytes.map asciiUpper=base32hex hash) : ownerHash lib owner=some (base32hex hash) := by
  have ha : ∀ d : Fin 32,alphabet d<128 := by decide
  have hal : l.bytes.all (· < 128)=true := by
    rw [all_eq_true]
    intro b hb
    obtain ⟨d,hd⟩ := base32hex_alphabet _ (hm ▸ mem_map_of_mem hb)
    unfold asciiUpper at hd
    split_ifs at hd with hle
    · simpa using lt_of_le_of_lt hle.2 (by decide)
    · simpa [hd] using ha d
  simp [ownerHash,upperText,hl,hal,hm]

/-- The owner text of a genuine record is the hash text of its name. -/
theorem Nsec3Link.ownerHash_eq (h : Nsec3Link c e o n) :
    ownerHash lib e.1=some (base32hex (c.digest o)) := by
  obtain ⟨l,hl,hby⟩ := h.owner
  have hr : ∀ d : Fin 32,asciiUpper (asciiLower (alphabet d))=alphabet d := by decide
  have hm : l.bytes.map asciiUpper=base32hex (c.digest o) := by
    rw [hby,map_map]
    refine (map_congr_left fun b hb => ?_).trans (map_id _)
    obtain ⟨d,rfl⟩ := base32hex_alphabet b hb
    exact hr d
  exact ownerHash_of_upper (by simp [hl]) hm

theorem Nsec3Link.hashed_eq (h : Nsec3Link c e o n) {t : List UInt8} (ht : hashed lib e.2 x=.ok t) :
    t=base32hex (c.digest x) := by
  obtain ⟨d,hd,rfl⟩ := hashed_ok ht
  rw [h.salt,h.iterations,c.digest_eq] at hd
  rw [Option.some.inj hd]

theorem between_base32hex {a b d : List UInt8} (hab : a.length=b.length) (hbd : b.length=d.length) :
    Between (base32hex a) (base32hex b) (base32hex d) ↔ Between a b d :=
  between_congr (base32hex_lt_iff (hab.trans hbd)) (base32hex_lt_iff hab) (base32hex_lt_iff hbd)

theorem nsec3Matching_link (h : nsec3Matching lib D x=.ok (some e)) (hl : Nsec3Link c e o n) :
    c.digest x=c.digest o := by
  obtain ⟨-,owner,target,ho,ht,ha⟩ := findNsec3_some h
  have heq : target=owner := by simpa using ha
  rw [hl.ownerHash_eq] at ho
  rw [hl.hashed_eq ht,← Option.some.inj ho] at heq
  exact (base32hex_inj (c.digest_length x o)).mp heq

theorem nsec3Covering_link (h : nsec3Covering lib D x=.ok (some e)) (hl : Nsec3Link c e o n) :
    Between (c.digest o) (c.digest x) (c.digest n) := by
  obtain ⟨-,owner,target,ho,ht,ha⟩ := findNsec3_some h
  have hb : Between owner target (base32hex e.2.nextHashedOwnerName) := by simpa using ha
  rw [hl.ownerHash_eq] at ho
  rw [hl.hashed_eq ht,← Option.some.inj ho,hl.next] at hb
  exact (between_base32hex (c.digest_length o x) (c.digest_length x n)).mp hb

theorem nsec3Matching_mem (h : nsec3Matching lib D x=.ok (some e)) : e∈D.nsec3 := (findNsec3_some h).1

theorem nsec3Covering_mem (h : nsec3Covering lib D x=.ok (some e)) : e∈D.nsec3 := (findNsec3_some h).1

/-- A probed name with a matching genuine record is a name of the chain. -/
theorem DrawnFrom.matching (hD : DrawnFrom c D) (hcf : CollisionFree c q) (hx : Probed q x)
    (h : nsec3Matching lib D x=.ok (some e)) : ∃ n,Nsec3Link c e x n := by
  obtain ⟨o,n,hl⟩ := hD.nsec3 e (nsec3Matching_mem h)
  obtain rfl := hcf x hx o hl.left (nsec3Matching_link h hl)
  exact ⟨n,hl⟩

end

/-- A small stand-in for the NSEC3 hash: a checksum of the octets and the number of labels. -/
def toyDigest (n : Name) : List UInt8 :=
  [UInt8.ofNat ((n.labels.flatMap Label.bytes).foldl (fun v b => (v*3+b.toNat) % 251) 7),
    UInt8.ofNat n.labels.length]

/-- Primitives that compute, for worked inputs. A signature is the key it was made with. -/
def toyLibrary : Library where
  algorithmSupported := fun a => a=8
  calculateKeyTag := fun _ => some 0
  verifyRrsig := fun key _ _ sig _ => sig.sig=key.publicKey
  dsCovers := fun ds _ key => ds.digest=key.publicKey
  nsec3Hash := fun _ n _ => some (toyDigest n)
  lossyUpper := id
  typeText := fun t => [(t.code >>> 8).toUInt8,t.code.toUInt8]
  textParses := fun _ => true

theorem toyDigest_length (a b : Name) : (toyDigest a).length=(toyDigest b).length := rfl

def toyChain (z : Zone) : Nsec3Chain toyLibrary z :=
  .full z [] 0 toyDigest (fun _ => rfl) toyDigest_length

def toyName (labels : List (List UInt8)) : Name := (Name.fromLabels labels).getD Name.root

def wildcardZone : Zone where
  apex := toyName [[101]]
  rrsets := [(toyName [[101]],.SOA),(toyName [[42],[101]],.A)]
  contained := by decide
  soa_mem := by decide
  soa_apex := by decide

end RolodexDns.DenialChains
