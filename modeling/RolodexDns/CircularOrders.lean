import RolodexDns.DenialChains
import RolodexDns.NsecChains

/-! The circles of DNSSEC: the names of a zone, the hashes of its names, and the times of signatures. Each
is tested in another form than the one it is defined in, and the test comes out as on the circle itself. -/
namespace RolodexDns.CircularOrders
open DomainNames DnsRecords StoredRecords ValidationVerdicts SignatureValidation CyclicIntervals DigitStrings
  Base32Hex DenialProofs DenialChains List
open RecordConversions CanonicalNames

variable {lib : Library}

section

/-- The name library takes the text apart at its dots, as it does when nothing in it is escaped. -/
def ReadsLabels (nameFromAscii : Text → Option Name) (text : Text) : Prop :=
  nameFromAscii text=Name.fromLabels (((labelsOf text).filter (· ≠ [])).map toUtf8)

variable {nameFromAscii : Text → Option Name} {text owner next name : Text} {n a b owner' next' name' : Name}

theorem bytes_of_mapM {raw : List (List UInt8)} {labels : List Label} (h : raw.mapM Label.ofBytes=some labels) :
    labels.map Label.bytes=raw.map (map asciiLower) := by
  induction raw generalizing labels with
  | nil =>
    cases h
    rfl
  | cons bytes raw ih =>
    rw [mapM_cons] at h
    obtain ⟨label,hl,h⟩ := Option.bind_eq_some_iff.mp h
    obtain ⟨rest,hr,h⟩ := Option.bind_eq_some_iff.mp h
    cases h
    unfold Label.ofBytes at hl
    split_ifs at hl
    cases hl
    rw [map_cons,ih hr,map_cons]

/-- The place of a name from the root. The root itself is written as one empty label. -/
def place (n : Name) : List (List UInt8) := if n.path=[] then [[]] else n.path.map Label.bytes

theorem place_strictMono : StrictMono place := by
  intro a b h
  have hp : a.path<b.path := h
  have hby : StrictMono Label.bytes := fun _ _ h => h
  unfold place
  split_ifs with ha hb hb
  · rw [ha,hb] at hp
    exact absurd hp (lt_irrefl _)
  · obtain ⟨l,rest,heq⟩ := exists_cons_of_ne_nil hb
    obtain ⟨byte,bytes,hl⟩ := exists_cons_of_ne_nil l.nonempty
    rw [heq,map_cons,hl]
    exact cons_lt_cons_iff.mpr (.inl (nil_lt_cons byte bytes))
  · rw [hb] at hp
    exact absurd hp (not_lt_nil _)
  · exact (map_lt_map_iff hby).mpr hp

theorem orderKey_of_readsLabels (ht : WellFormed text) (hr : ReadsLabels nameFromAscii text)
    (h : nameFromAscii text=some n) : orderKey text=place n := by
  obtain ⟨labels,hla,-,hna⟩ := ht.exists_labels
  have hs := labelsOf_spelled hla hna
  obtain ⟨parsed,hpa,hn⟩ := Option.bind_eq_some_iff.mp (hr.symm.trans h)
  split_ifs at hn with hf
  cases hn
  have hb := bytes_of_mapM hpa
  have hk : labels.filter (· ≠ [])=labels := filter_eq_self.mpr fun l hl => by simpa using (hla l hl).1
  rw [map_map] at hb
  unfold orderKey place Name.path
  rw [hs] at hb ⊢
  split_ifs at hb ⊢ with hni hp hp
  · rfl
  · exact absurd (map_eq_nil_iff.mp hb) (by simpa using hp)
  · rw [hk,show parsed=[] from reverse_eq_nil_iff.mp hp] at hb
    exact absurd (map_eq_nil_iff.mp hb.symm) hni
  · rw [map_reverse,map_reverse,hb,hk]
    rfl

/-- A range of names is the same for texts and for parsed names, and neither end is in it. -/
theorem nsecCovers_agree {types : List RecordType} (hwf : ∀ text∈[owner,next,name],WellFormed text)
    (hreads : ∀ text∈[owner,next,name],ReadsLabels nameFromAscii text) (howner' : nameFromAscii owner=some owner')
    (hnext' : nameFromAscii next=some next') (hname' : nameFromAscii name=some name') :
    CanonicalNames.nsecCovers owner next name=nsecCoversName ⟨[(owner',⟨next',types⟩)],[]⟩ name' ∧
    (name'=owner' ∨ name'=next' → CanonicalNames.nsecCovers owner next name=false ∧
      nsecCoversName ⟨[(owner',⟨next',types⟩)],[]⟩ name'=false) := by
  have hp {a b : Text} {a' b' : Name} (ha : a∈[owner,next,name]) (hb : b∈[owner,next,name])
      (ha' : nameFromAscii a=some a') (hb' : nameFromAscii b=some b') : orderKey a<orderKey b ↔ a'<b' := by
    rw [orderKey_of_readsLabels (hwf a ha) (hreads a ha) ha',orderKey_of_readsLabels (hwf b hb) (hreads b hb) hb',
      place_strictMono.lt_iff_lt]
  have hbe : Between (orderKey owner) (orderKey name) (orderKey next) ↔ Between owner' name' next' :=
    between_congr (hp (by simp) (by simp) howner' hnext') (hp (by simp) (by simp) howner' hname')
      (hp (by simp) (by simp) hname' hnext')
  have heq : CanonicalNames.nsecCovers owner next name=nsecCoversName ⟨[(owner',⟨next',types⟩)],[]⟩ name' := by
    rw [Bool.eq_iff_iff,nsecCovers_iff,hbe]
    simp [nsecCoversName,DenialProofs.nsecCovers]
  refine ⟨heq,fun he => ?_⟩
  have ho : nsecCoversName ⟨[(owner',⟨next',types⟩)],[]⟩ name'=false := by
    rcases he with rfl | rfl
    · simp [nsecCoversName,DenialProofs.nsecCovers,not_between_left]
    · simp [nsecCoversName,DenialProofs.nsecCovers,Between]
  exact ⟨heq.trans ho,ho⟩

/-- What comes after the last name of a zone is in the gap that wraps. -/
theorem nsecCovers_agree_wrapped :
    nsecCoversName ⟨[(toyName [[119],[101]],⟨toyName [[101]],[]⟩)],[]⟩ (toyName [[120],[101]])=true := by
  have hwf : ∀ text∈(["W.e","e.","x.e"] : List Text),WellFormed text := by
    simp only [forall_mem_cons]
    exact ⟨⟨by decide,["W","e"],by decide,.inl rfl⟩,⟨by decide,["e"],by decide,.inr rfl⟩,
      ⟨by decide,["x","e"],by decide,.inl rfl⟩,nofun⟩
  rw [← (@nsecCovers_agree (fun text => Name.fromLabels (((labelsOf text).filter (· ≠ [])).map toUtf8)) "W.e"
    "e." "x.e" _ _ _ []
    hwf (fun _ _ => rfl) (by decide) (by decide) (by decide)).1]
  decide

end

section
variable {D : Denial} {name : Name}

/-- The first label of the owner is the text of the hash, in capital or small letters. -/
def Spells (owner : Name) (hash : List UInt8) : Prop :=
  ∃ raw l,raw.map asciiUpper=base32hex hash ∧ Label.ofBytes raw=some l ∧ owner.labels.head?=some l

theorem Spells.ownerHash_eq {owner : Name} {hash : List UInt8} (h : Spells owner hash) :
    ownerHash lib owner=some (base32hex hash) := by
  obtain ⟨raw,l,hr,hl,hh⟩ := h
  have hf : ∀ n : Fin 256,asciiUpper (asciiLower (UInt8.ofNat n))=asciiUpper (UInt8.ofNat n) := by decide +kernel
  refine ownerHash_of_upper hh ?_
  unfold Label.ofBytes at hl
  split_ifs at hl
  cases hl
  rw [map_map,← hr]
  exact map_congr_left fun b _ => by simpa using hf ⟨b.toNat,b.toNat_lt⟩

/-- Texts of hashes are compared as the hashes are, so the record chosen is the first whose gap the hash lies in. -/
theorem hashes_compare_as_text : (∀ a b : List UInt8,a.length=b.length → (base32hex a<base32hex b ↔ a<b) ∧
      (base32hex a=base32hex b ↔ a=b)) ∧
    ∀ owners digests : Name × Nsec3 → List UInt8,(∀ e∈D.nsec3,Spells e.1 (owners e) ∧
      e.2.iterations ≤ maxNsec3Iterations ∧ e.2.hashAlgorithm=1 ∧
      lib.nsec3Hash e.2.salt name e.2.iterations=some (digests e) ∧ (owners e).length=(digests e).length ∧
      (digests e).length=e.2.nextHashedOwnerName.length) →
    nsec3Covering lib D name=.ok (D.nsec3.find? fun e => Between (owners e) (digests e) e.2.nextHashedOwnerName) := by
  refine ⟨fun a b h => ⟨base32hex_lt_iff h,base32hex_inj h⟩,fun owners digests hal => ?_⟩
  unfold nsec3Covering
  generalize D.nsec3=entries at hal ⊢
  induction entries with
  | nil => rfl
  | cons e rest ih =>
    obtain ⟨⟨hs,hi,ha,hha,hl,hr⟩,hre⟩ := forall_mem_cons.mp hal
    have hh : hashed lib e.2 name=.ok (base32hex (digests e)) := by
      simp [hashed,not_lt.mpr hi,ha,hha]
    rw [findNsec3,hs.ownerHash_eq,hh,find?_cons]
    simp only [between_base32hex hl hr]
    split_ifs with hc
    · simp [hc]
    · rw [ih hre]
      simp [hc]

def lastEntry : Name × Nsec3 := (toyName [(base32hex [9,9]).map asciiLower,[101]],⟨1,false,0,[],[3,1],[]⟩)

theorem hashes_compare_as_text_wrapped :
    nsec3Covering toyLibrary ⟨[],[lastEntry]⟩ (toyName [[120]])=.ok (some lastEntry) := by
  refine (hashes_compare_as_text.2 (fun _ => [9,9]) (fun _ => [141,1]) fun e he => ?_).trans (by decide)
  obtain rfl := mem_singleton.mp he
  exact ⟨⟨(base32hex [9,9]).map asciiLower,(Label.ofBytes (base32hex [9,9])).getD star,by decide⟩,by decide⟩

end

section
variable {owner zone : Name} {rtype : RecordType} {rrset : List Record} {keys : List Dnskey} {sig : Rrsig}
  {now : UInt32}

/-- The two tests together place the moment on the circle, if the signature is made for less than half of it. -/
theorem serialLt_window {inception expiration : UInt32} (hp : 0<expiration - inception)
    (hh : expiration - inception<0x80000000) :
    serialLt now inception=false ∧ serialLt expiration now=false ↔ now - inception ≤ expiration - inception := by
  have hn := now.toNat_lt
  have hs := inception.toNat_lt
  have he := expiration.toNat_lt
  simp only [serialLt,ne_eq,Bool.and_eq_false_iff,decide_eq_false_iff_not,Decidable.not_not,UInt32.lt_iff_toNat_lt,
    UInt32.le_iff_toNat_le,UInt32.toNat_sub,← UInt32.toNat_inj] at *
  simp only [UInt32.reduceToNat] at *
  omega

/-- No key can make the time wrong. -/
private theorem tryKeys_ne_error {e : ValidationError} (hm : .keyNotInRrset owner rtype sig.keyTag sig.algorithm zone≠e)
    (ht : .keyTagFailed≠e) (hs : .signatureFailed≠e) {tried : Bool} {last : ValidationError} (hl : last≠e) :
    tryKeys lib owner rtype rrset sig zone keys tried last ≠ .error e := by
  induction keys generalizing tried last with
  | nil => cases tried <;> simpa [tryKeys]
  | cons key keys ih =>
    unfold tryKeys
    split
    · exact ih hl
    · split
      · exact ih ht
      · split
        · exact ih hl
        · split
          · intro h
            cases h
          · exact ih hs

/-- A signature of the zone is turned away for its time exactly outside the arc from its inception to its expiration. -/
theorem verifyOne_window (hpos : 0<sig.sigExpiration - sig.sigInception)
    (hhalf : sig.sigExpiration - sig.sigInception<0x80000000) :
    (verifyOne lib owner rtype rrset sig keys zone now=.error (.notYetValid owner rtype sig.sigInception) ∨
      verifyOne lib owner rtype rrset sig keys zone now=.error (.expired owner rtype sig.sigExpiration) ↔
      sig.signerName=zone ∧ ¬ now - sig.sigInception ≤ sig.sigExpiration - sig.sigInception) ∧
    ∀ facts,verifyOne lib owner rtype rrset sig keys zone now=.ok facts →
      now - sig.sigInception ≤ sig.sigExpiration - sig.sigInception := by
  have hw := @serialLt_window now _ _ hpos hhalf
  constructor
  · rw [← hw]
    unfold verifyOne
    split_ifs with hs hst he hl ha
    · simp [hs]
    · simp [not_not.mp hs,hst]
    · simp [not_not.mp hs,he]
    · simp [hst,he]
    · simp [hst,he]
    · have ht {e : ValidationError} := @tryKeys_ne_error lib owner zone rtype rrset keys sig e
      simp [hst,he,ht]
  · intro facts h
    obtain ⟨key,hsi⟩ := verifyOne_ok h
    exact hw.mp ⟨hsi.started,hsi.live⟩

/-- A signature that is made before the number space wraps and ends after it. -/
theorem verifyOne_window_wrapped :
    ∃ e,verifyOne toyLibrary (toyName [[101]]) .A [] ⟨.A,8,1,60,5,0xfffffff0,0,.root,[]⟩ [] .root 6=.error e :=
  ((verifyOne_window (by decide) (by decide)).1.mpr ⟨rfl,by decide⟩).elim (fun h => ⟨_,h⟩) fun h => ⟨_,h⟩

end

end RolodexDns.CircularOrders
