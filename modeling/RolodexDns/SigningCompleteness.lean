import RolodexDns.Resigning

/-! A signing pass that nothing comes between, over any zone. Every RRset that has a canonical form is
signed once by each key that is to sign it, the chain has one link for each name, nothing of earlier passes
is left, and another pass over the same content leaves the same chain and signs the same RRsets. -/
namespace RolodexDns.SigningCompleteness
open StoredRecords RecordDatabase ProgramTrees SharedStores StoredRdata NsecChains DsExport RecordStores
  ZoneSigning Resigning List

section
variable (signer : ZoneSigner) (verify : SigningKey → Bytes → Bytes → Bool) (zone : Text)

/-- Key-signing keys are for the keys at the apex, and zone-signing keys for all else. -/
def wantedType (rrset : Text × RecordKind) : KeyType := if rrset=(zone,.DNSKEY) then .ksk else .zsk

/-- The RRsets that have a canonical form, each with the keys that are to sign it. -/
def signingTasks (rows : List DnsRecord) : List (((Text × RecordKind) × List DnsRecord) × SigningKey) :=
  let sets := (orderedRrsets signer zone rows).filter fun set =>
    set.2.all fun r => (canonicalRdata signer.formats r).isSome
  sets.flatMap fun set => ((signer.signingKeys zone).filter fun key =>
    key.keyType=wantedType zone set.1 ∨ ∀ other∈signer.signingKeys zone,other.keyType≠wantedType zone set.1).map (set,·)

/-- The row is a signature at the owner of the RRset that verifies over it with the key. -/
def Verifies (task : ((Text × RecordKind) × List DnsRecord) × SigningKey) (r : DnsRecord) : Prop :=
  r.name=task.1.1.1 ∧ ∃ sig input,r.value=rrsigValue signer sig ∧ sig.typeCovered=task.1.1.2 ∧
    sig.algorithm=task.2.algorithm ∧
    sig.keyTag=task.2.keyTag ∧ sig.signerName=zone ∧ signingInput signer sig task.1.1.1 task.1.2=some input ∧
    verify task.2 input sig.signature=true

def zoneRowsOf (kind : RecordKind) (rows : List DnsRecord) : List DnsRecord :=
  rows.filter fun r => nameInZone signer.lower r.name zone && r.recordType=kind

structure Complete (rows : List DnsRecord) : Prop where
  /-- The RRsets of the zone, each once. -/
  rrsets : ∀ owner kind set,((owner,kind),set)∈orderedRrsets signer zone rows ↔
    nameInZone signer.lower owner zone=true ∧
    kind ≠ .RRSIG ∧ lookupExact rows owner (some kind)=set ∧ set≠[]
  nodup : ((orderedRrsets signer zone rows).map Prod.fst).Nodup
  /-- Keys of the wanted type sign an RRset, and all where the zone has none of that type. -/
  signers : ∀ set key,(set,key)∈signingTasks signer zone rows ↔ set∈orderedRrsets signer zone rows ∧
    (∀ r∈set.2,canonicalRdata signer.formats r≠none) ∧ key∈signer.signingKeys zone ∧
      let wanted := if set.1=(zone,.DNSKEY) then KeyType.ksk else .zsk
      (key.keyType=wanted ∨ ∀ other∈signer.signingKeys zone,other.keyType≠wanted)
  /-- The signatures of the zone, one for each task. -/
  signed : Forall₂ (Verifies signer verify zone) (signingTasks signer zone rows) (zoneRowsOf signer zone .RRSIG rows)
  chain : zoneRowsOf signer zone .NSEC rows=chainRecords signer zone rows
  /-- The apex and the names that have records have one link, and no other name has. -/
  linked : ∀ name,nameInZone signer.lower name zone=true →
    ((∃ link,lookupExact rows name (some .NSEC)=[link]) ↔ name=zone ∨ ∃ r∈zoneContent signer zone rows,r.name=name)

end

section
variable {signer : ZoneSigner} {zone : Text} {rows : List DnsRecord} {now : Nat}

theorem signRrset_eq_some {key : SigningKey} {set : RrsetToSign} {value : Text}
    (h : signRrset signer key set=some value) :
    ∃ sig input,value=rrsigValue signer sig ∧ sig.typeCovered=set.typeCovered ∧ sig.algorithm=key.algorithm ∧
      sig.keyTag=key.keyTag ∧
      sig.signerName=normalizeName signer.lower set.signerZone ∧
        signingInput signer sig set.owner set.rrset=some input ∧
      signer.sign key input=some sig.signature := by
  unfold signRrset at h
  split_ifs at h
  obtain ⟨input,hi,h⟩ := Option.bind_eq_some_iff.mp h
  obtain ⟨signature,hs,h⟩ := Option.bind_eq_some_iff.mp h
  cases h
  exact ⟨_,input,rfl,rfl,rfl,rfl,rfl,hi,hs⟩

theorem signersFor_eq {owner : Text} {kind : RecordKind} : signersFor signer zone owner kind =
    (signer.signingKeys zone).filter fun key => key.keyType=wantedType zone (owner,kind) ∨
      ∀ other∈signer.signingKeys zone,other.keyType≠wantedType zone (owner,kind) := by
  have hw : (if kind=.DNSKEY ∧ owner=zone then KeyType.ksk else .zsk)=wantedType zone (owner,kind) := by
    simp only [wantedType,Prod.mk.injEq,and_comm]
  simp only [signersFor,hw]
  by_cases hn : ∀ other∈signer.signingKeys zone,other.keyType≠wantedType zone (owner,kind)
  · have he : ((signer.signingKeys zone).filter fun key => key.keyType=wantedType zone (owner,kind))=[] := by
      simpa using hn
    rw [he,filter_eq_self.mpr fun key _ => decide_eq_true (.inr hn)]
    rfl
  · have hs : ((signer.signingKeys zone).filter fun key => key.keyType=wantedType zone (owner,kind))≠[] := by
      simpa using hn
    simp [hn,hs]

theorem mem_signingTasks {set : (Text × RecordKind) × List DnsRecord} {key : SigningKey} :
    (set,key)∈signingTasks signer zone rows ↔ set∈orderedRrsets signer zone rows ∧
      (∀ r∈set.2,canonicalRdata signer.formats r≠none) ∧ key∈signer.signingKeys zone ∧
        (key.keyType=wantedType zone set.1 ∨ ∀ other∈signer.signingKeys zone,other.keyType≠wantedType zone set.1) := by
  simp only [signingTasks,mem_flatMap,mem_filter,all_eq_true,Option.isSome_iff_ne_none,mem_map,Prod.mk.injEq,
    decide_eq_true_eq]
  constructor
  · rintro ⟨_,⟨hs,hf⟩,_,⟨hk,ht⟩,rfl,rfl⟩
    exact ⟨hs,hf,hk,ht⟩
  · rintro ⟨hs,hf,hk,ht⟩
    exact ⟨set,⟨hs,hf⟩,key,⟨hk,ht⟩,rfl,rfl⟩

theorem nodup_orderedRrsets : ((orderedRrsets signer zone rows).map Prod.fst).Nodup := by
  have hn : ((chainRecords signer zone rows).map (·.name)).Nodup := by
    rw [names_chainRecords]
    exact nodup_ordered
  unfold orderedRrsets contentRrsets
  rw [((perm_insertionSort _ _).map _).nodup_iff,map_append,map_map,map_map,nodup_append]
  refine ⟨?_,?_,?_⟩
  · exact (map_id _).symm ▸ nodup_dedup _
  · exact Nodup.of_map Prod.fst (by rwa [map_map])
  · intro _ hk _ hl heq
    obtain ⟨key,hp,rfl⟩ := mem_map.mp hk
    obtain ⟨r,hr,rfl⟩ := mem_map.mp (mem_dedup.mp hp)
    obtain ⟨link,-,rfl⟩ := mem_map.mp hl
    exact (mem_zoneContent.mp hr).2.2.2 (Prod.mk.inj heq).2

def written (signer : ZoneSigner) (zone : Text) (now : Nat)
    (task : ((Text × RecordKind) × List DnsRecord) × SigningKey) : Option DnsRecord :=
  (signRrset signer task.2 ⟨zone,task.1.1.1,task.1.1.2,sharedTtl task.1.2,task.1.2,now - rrsigInceptionBackdateSecs,
    min (now+rrsigValiditySecs) (2^32 - 1)⟩).map fun value => ⟨task.1.1.1,.RRSIG,value,sharedTtl task.1.2,0⟩

theorem map_written : (signingTasks signer zone rows).map (written signer zone now) =
    (orderedRrsets signer zone rows).flatMap (signatures signer zone now) := by
  unfold signingTasks
  induction orderedRrsets signer zone rows with
  | nil => rfl
  | cons set sets ih =>
    rw [flatMap_cons,← ih,filter_cons,signatures]
    simp only [← Option.not_isSome,any_eq_not_all_not,Bool.not_not]
    cases set.2.all fun r => (canonicalRdata signer.formats r).isSome with
    | false => rfl
    | true => simp [written,Function.comp_def,signersFor_eq]

theorem forall₂_reduceOption {α β : Type} {R : α → β → Prop} {f : α → Option β} {xs : List α}
    (h : ∀ x∈xs,∃ y,f x=some y ∧ R x y) :
    Forall₂ R xs (xs.map f).reduceOption := by
  induction xs with
  | nil => exact .nil
  | cons x xs ih =>
    obtain ⟨⟨y,hy,hR⟩,hr⟩ := forall_mem_cons.mp h
    rw [map_cons,hy,reduceOption_cons_of_some]
    exact .cons hR (ih hr)

variable (hsigner : signer.Lawful) (hstored : ∀ r∈rows,Stored signer r)
include hsigner hstored

theorem stored_signedRows : ∀ r∈signedRows signer zone now rows,Stored signer r := by
  refine forall_mem_append.mpr ⟨fun r hr => hstored r (mem_of_mem_filter hr),
    forall_mem_append.mpr ⟨fun r hr => ?_,fun r hr => ?_⟩⟩
  · exact ⟨(mem_chainRecords_name hsigner hr).2.2,ttl_chainRecords hstored hr⟩
  · obtain ⟨entry,he,-,key,-,value,-,rfl⟩ := mem_newSignatures.mp hr
    have hs := signedSet_of_mem hsigner hstored he
    exact ⟨hs.normal,hs.ttl_lt⟩

variable (hzone : normalizeName signer.lower zone=zone)
include hzone

omit hsigner in
theorem mem_ordered_iff {name : Text} :
    name∈ordered signer.lower zone rows ↔ name=zone ∨ ∃ r∈zoneContent signer zone rows,r.name=name := by
  rw [mem_ordered,hzone]
  refine or_congr_right (exists_congr fun r => ?_)
  rw [mem_zoneContent,and_assoc]
  refine and_congr_right fun hr => ?_
  rw [(hstored r hr).normal]
  tauto

variable {verify : SigningKey → Bytes → Bytes → Bool}

theorem complete_signedRows
    (hve : ∀ key input signature,signer.sign key input=some signature → verify key input signature=true)
    (hm : none∉(orderedRrsets signer zone rows).flatMap (signatures signer zone now)) :
    Complete signer verify zone (signedRows signer zone now rows) := by
  have hc : zoneContent signer zone (signedRows signer zone now rows)=zoneContent signer zone rows :=
    zoneContent_signedRows hsigner hstored
  have ho := orderedRrsets_congr hsigner hc
  refine ⟨fun owner kind set => ?_,nodup_orderedRrsets,fun set key => ?_,?_,?_,fun name hn => ?_⟩
  · rw [ho]
    constructor
    · intro he
      have hse := signedSet_of_mem hsigner hstored he
      have hl : lookupExact _ owner (some kind)=set := lookupExact_of_mem now hsigner hstored he
      refine ⟨hse.inZone,hse.kind,hl,?_⟩
      rcases mem_orderedRrsets.mp he with ⟨⟨r,hr,hk⟩,hro⟩ | ⟨r,-,hk⟩
      · exact ne_nil_of_mem (hro ▸ mem_filter.mpr ⟨hr,decide_eq_true hk.symm⟩)
      · cases hk
        exact cons_ne_nil _ _
    · rintro ⟨how,hki,rfl,hne⟩
      obtain ⟨set,he⟩ := mem_of_lookupExact hsigner hstored how hki hne
      have hl : lookupExact _ owner (some kind)=set := lookupExact_of_mem now hsigner hstored he
      rwa [hl]
  · exact mem_signingTasks
  · rw [zoneRowsOf,signatures_signedRows hsigner hstored,newSignatures,signingTasks,ho,← signingTasks,← map_written]
    refine forall₂_reduceOption fun task ht => ?_
    cases hv : written signer zone now task with
    | none => exact absurd (mem_map.mpr ⟨task,ht,hv⟩) (map_written ▸ hm)
    | some r =>
      obtain ⟨value,hsi,rfl⟩ := Option.map_eq_some_iff.mp hv
      obtain ⟨sig,input,hsg,hty,ha,hta,hn,hi,hs⟩ := signRrset_eq_some hsi
      exact ⟨_,rfl,rfl,sig,input,hsg,hty,ha,hta,hn.trans hzone,hi,hve _ _ _ hs⟩
  · exact (chain_signedRows hsigner hstored).trans (chainRecords_congr hsigner hc).symm
  · rw [hc,← mem_ordered_iff hstored hzone,← names_chainRecords]
    constructor
    · rintro ⟨link,hli⟩
      rw [lookupExact_signedRows_nsec hsigner hstored hn] at hli
      have hme : link∈(chainRecords signer zone rows).filter fun r => r.name=name := hli ▸ mem_singleton.mpr rfl
      exact mem_map.mpr ⟨link,mem_of_mem_filter hme,of_decide_eq_true (mem_filter.mp hme).2⟩
    · intro hp
      obtain ⟨link,hli,rfl⟩ := mem_map.mp hp
      exact ⟨link,lookupExact_of_mem now hsigner hstored (mem_orderedRrsets.mpr (.inr ⟨link,hli,rfl⟩))⟩

end

section
variable (signer : ZoneSigner) (zone : Text)

def keyRow (key : SigningKey) : DnsRecord :=
  ⟨zone,.DNSKEY,dnskeyValue signer.formats key.algorithm key.publicKey key.keyType,dnskeyTtl,0⟩

def published (rows : List DnsRecord) : List DnsRecord :=
  (rows.filter fun r => !isDeleted zone (some .DNSKEY) [] r)++(signer.signingKeys zone).map (keyRow signer zone)

variable {signer zone} {name : Text} {rows : List DnsRecord} {now : Nat} {s : RecordStore}

theorem made_of_addSignatures {signatures : List (Option DnsRecord)}
    (h : ((signerStore signer).runAlone (addSignatures signer signatures) s).1=true) : none∉signatures := by
  induction signatures generalizing s with
  | nil => exact not_mem_nil
  | cons signature signatures ih =>
    cases signature with
    | none => cases h
    | some record =>
      rw [addSignatures,Store.runAlone_bind] at h
      simpa using ih h

variable (hzone : normalizeName signer.lower zone=zone)
include hzone

theorem stored_published (hstored : ∀ r∈rows,Stored signer r) : ∀ r∈published signer zone rows,Stored signer r := by
  refine forall_mem_append.mpr ⟨fun r hr => hstored r (mem_of_mem_filter hr),forall_mem_map.mpr fun key _ => ⟨hzone,?_⟩⟩
  simp [keyRow,dnskeyTtl]

theorem zoneContent_published (hsigner : signer.Lawful) (hstored : ∀ r∈rows,Stored signer r) :
    zoneContent signer zone (published signer zone (signedRows signer zone now (published signer zone rows))) =
      zoneContent signer zone (published signer zone rows) := by
  have hc (rows : List DnsRecord) : zoneContent signer zone (published signer zone rows) =
      (zoneContent signer zone rows).filter (fun r => !isDeleted zone (some .DNSKEY) [] r) ++
        (signer.signingKeys zone).map (keyRow signer zone) := by
    unfold published zoneContent
    rw [filter_append,filter_filter,filter_filter,filter_eq_self.mpr (forall_mem_map.mpr fun key _ => ?_)]
    · simp only [Bool.and_comm]
    · simp [keyRow,nameInZone]
  have hk : ((signer.signingKeys zone).map (keyRow signer zone)).filter (fun r =>
    !isDeleted zone (some .DNSKEY) [] r)=[] :=
    filter_eq_nil_iff.mpr (forall_mem_map.mpr fun key _ => by simp [keyRow,isDeleted])
  rw [hc,zoneContent_signedRows hsigner (stored_published hzone hstored),hc,filter_append,filter_filter,hk,append_nil]
  simp only [Bool.and_self]

theorem runAlone_resign (hsigner : signer.Lawful) (hstored : ∀ r∈s.rows,Stored signer r)
    (h : ((signerStore signer).runAlone (resign signer zone now) s).1=true) :
    none∉(orderedRrsets signer zone s.rows).flatMap (signatures signer zone now) ∧
      ((signerStore signer).runAlone (resign signer zone now) s).2.rows=signedRows signer zone now s.rows := by
  have hc := zoneRows_candidates hzone hstored
  have ho := orderedRrsets_congr hsigner (zoneContent_congr hc)
  rw [resign,Store.runAlone_perform,Store.runAlone_bind,Store.runAlone_bind] at h
  have hma := made_of_addSignatures h
  refine ⟨ho ▸ hma,?_⟩
  have hp := performs_pass fun rrset hr hm => hma (mem_flatMap.mpr ⟨rrset,hr,hm⟩)
  refine (congrArg RecordStore.rows (hp.runAlone (signerStore signer) s).2).trans ?_
  rw [rows_execAll]
  refine (congrArg (foldl _ s.rows) (passOps_congr hsigner hc)).trans ?_
  exact foldl_passOps hsigner hstored

theorem rows_publish (s : RecordStore) : ((signerStore signer).runAlone
      (forEach (signer.signingKeys zone) fun key => addRecord signer.lower (keyRow signer zone key))
      ((signerStore signer).runAlone (removeRecords signer.lower zone (some .DNSKEY) []) s).2).2.rows =
    published signer zone s.rows := by
  have ha : Performs (fun _ => True) ((signer.signingKeys zone).flatMap fun key =>
    [RecordOp.insertRow (keyRow signer zone key)])
      (forEach (signer.signingKeys zone) fun key => addRecord signer.lower (keyRow signer zone key)) :=
    performs_forEach fun key _ => performs_addRecord rfl
  have hr := @foldl_insertRow signer.lower ((signer.signingKeys zone).map (keyRow signer zone))
    (forall_mem_map.mpr fun _ _ => hzone)
  rw [(ha.runAlone _ _).2,rows_execAll,((performs_removeRecords rfl).runAlone _ _).2,rows_execAll,← map_eq_flatMap]
  rw [map_map] at hr
  refine (hr _).trans ?_
  simp [published,rowsAfter,hzone]

theorem runAlone_signZone (hsigner : signer.Lawful) (hstored : ∀ r∈s.rows,Stored signer r)
    (hn : normalizeName signer.lower name=zone)
    (h : ((signerStore signer).runAlone (signZone signer name now) s).1=.signed) :
    none∉(orderedRrsets signer zone (published signer zone s.rows)).flatMap (signatures signer zone now) ∧
      ((signerStore signer).runAlone (signZone signer name now) s).2.rows =
        signedRows signer zone now (published signer zone s.rows) := by
  subst hn
  unfold signZone at h ⊢
  rw [Store.runAlone_perform] at h ⊢
  split_ifs at h ⊢ with hk
  · cases h
  rw [Store.runAlone_bind,Store.runAlone_bind,Store.runAlone_perform,Store.runAlone_bind,Store.runAlone_perform,
    Store.runAlone_pure] at h ⊢
  have hr : _=published signer _ s.rows :=
    rows_publish hzone ((signerStore signer).exec s (.beginZoneResign (normalizeName signer.lower name))).2
  have hp := stored_published hzone hstored
  rw [← hr] at hp ⊢
  split_ifs at h with hc
  exact runAlone_resign hzone hsigner (by exact hp) hc

variable {verify : SigningKey → Bytes → Bytes → Bool}

end

end RolodexDns.SigningCompleteness
