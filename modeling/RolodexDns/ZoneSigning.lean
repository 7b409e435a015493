import Mathlib.Data.List.ReduceOption
import RolodexDns.DsExport
import RolodexDns.NsecChains
import RolodexDns.RecordStores

/-! A signing pass over a zone: the keys are published, the zone is read, the old signatures and the old chain are
deleted and new ones are written. A pass that nothing comes between leaves signatures of what is stored, and the
chain of what is stored, whatever was there before. -/
namespace RolodexDns.ZoneSigning
open StoredRecords RecordConversions RecordDatabase CanonicalNames TextFields StoredRdata NsecChains DsExport List
  LikePatterns RecordStores

section

structure SigningKey where
  algorithm : DnssecAlgorithm
  keyType : KeyType
  keyTag : Nat
  publicKey : Bytes

structure RrsetToSign where
  signerZone : Text
  owner : Text
  typeCovered : RecordKind
  originalTtl : Nat
  rrset : List DnsRecord
  inception : Nat
  expiration : Nat

/-- The usable keys of each zone, and what they sign. -/
structure ZoneSigner where
  formats : FormatLibrary
  signingKeys : Text → List SigningKey
  sign : SigningKey → Bytes → Option Bytes

abbrev ZoneSigner.lower (signer : ZoneSigner) : Text → Text := signer.formats.toLowercase

variable (signer : ZoneSigner) (sig : Rrsig)

/-- Neither the root nor a leading wildcard counts. -/
def labelCount (name : Text) : Nat :=
  let trimmed := trimEndDots (signer.lower (trim name))
  if trimmed.isEmpty then 0
  else
    let labels := trimmed.splitOn '.'
    min (if labels.head?=some ['*'] then labels.tail else labels).length 255

def rrsigValue : Text :=
  [' '].intercalate [sig.typeCovered.asStr,decimal sig.algorithm.number.toNat,decimal sig.labels,
    decimal sig.originalTtl,
    decimal sig.expiration,decimal sig.inception,decimal sig.keyTag,sig.signerName,
      signer.formats.base64Encode sig.signature]

/-- The records in canonical form and order, after the fields of the signature. -/
def signingInput (owner : Text) (rrset : List DnsRecord) : Option Bytes := do
  let rdatas ← rrset.mapM (canonicalRdata signer.formats)
  let owner ← canonicalName signer.formats owner
  let fields ← sig.signedPrefix signer.formats
  let rdatas := (rdatas.insertionSort (· ≤ ·)).dedup
  if rdatas.any fun rdata => maxRdata<rdata.length then none
  else return fields++rdatas.flatMap fun rdata => owner++bigEndian 2 (wireType sig.typeCovered).toNat++
    bigEndian 2 1++bigEndian 4 sig.originalTtl++bigEndian 2 rdata.length++rdata

def signRrset (key : SigningKey) (set : RrsetToSign) : Option Text :=
  if set.rrset.isEmpty || set.typeCovered=.RRSIG then none
  else do
    let unsigned : Rrsig := ⟨set.typeCovered,key.algorithm,labelCount signer set.owner,set.originalTtl,
      set.expiration,set.inception,
      key.keyTag,normalizeName signer.lower set.signerZone,[]⟩
    let input ← signingInput signer unsigned set.owner set.rrset
    let signature ← signer.sign key input
    return rrsigValue signer { unsigned with signature := signature }

end

section
variable (signer : ZoneSigner)

def dnskeyTtl : Nat := 3600

def nsecFallbackTtl : Nat := 300

/-- The minimum that the apex SOA states, and at most its own TTL. -/
def apexNegativeTtl (records : List DnsRecord) (zone : Text) : Nat :=
  let apex := normalizeName signer.lower zone
  let soa := records.find? fun r => r.recordType=.SOA && normalizeName signer.lower r.name=apex
  (soa.bind fun soa => ((splitWhitespace soa.value)[6]?.bind (parseUnsigned (2^32))).map (min · soa.ttl)).getD
    nsecFallbackTtl

def chainRecords (zone : Text) (candidates : List DnsRecord) : List DnsRecord :=
  (buildNsecChain signer.lower zone candidates).map fun link =>
    ⟨link.1,.NSEC,link.2.toValue,apexNegativeTtl signer candidates zone,0⟩

/-- What is in the zone but signatures and a chain. -/
def zoneContent (zone : Text) (rows : List DnsRecord) : List DnsRecord :=
  rows.filter fun r => nameInZone signer.lower r.name zone && (r.recordType ≠ .RRSIG && r.recordType ≠ .NSEC)

def contentRrsets (zone : Text) (candidates : List DnsRecord) : List ((Text × RecordKind) × List DnsRecord) :=
  let content := zoneContent signer zone candidates
  (content.map fun r => (r.name,r.recordType)).dedup.map fun key =>
    (key,content.filter fun r => (r.name,r.recordType)=key)

/-- All RRsets to sign, in the order of owners and of type codes. -/
def orderedRrsets (zone : Text) (candidates : List DnsRecord) : List ((Text × RecordKind) × List DnsRecord) :=
  (contentRrsets signer zone candidates++(chainRecords signer zone candidates).map fun r : DnsRecord =>
    ((r.name,RecordKind.NSEC),[r])).insertionSort
    fun a b => toUtf8 a.1.1<toUtf8 b.1.1 ∨ (toUtf8 a.1.1=toUtf8 b.1.1 ∧ wireType a.1.2 ≤ wireType b.1.2)

/-- The keys for an RRset: key-signing keys for the keys of the zone, zone-signing keys for all else, and any
if there are none of the kind. -/
def signersFor (zone owner : Text) (kind : RecordKind) : List SigningKey :=
  let wanted := if kind=.DNSKEY ∧ owner=zone then KeyType.ksk else .zsk
  let signers := (signer.signingKeys zone).filter fun key => key.keyType=wanted
  if signers.isEmpty then signer.signingKeys zone else signers

def rrsigInceptionBackdateSecs : Nat := 3600

def rrsigValiditySecs : Nat := 30*86400

/-- Records of one RRset share a TTL; where the rows differ, the smallest is taken. -/
def sharedTtl (rrset : List DnsRecord) : Nat := (rrset.map (·.ttl)).min?.getD dnskeyTtl

/-- The signatures of an RRset, `none` for one that cannot be made. There are none at all if one of the records
has no canonical form. -/
def signatures (zone : Text) (now : Nat) (rrset : (Text × RecordKind) × List DnsRecord) : List (Option DnsRecord) :=
  if rrset.2.any fun r => (canonicalRdata signer.formats r).isNone then []
  else (signersFor signer zone rrset.1.1 rrset.1.2).map fun key =>
    (signRrset signer key ⟨zone,rrset.1.1,rrset.1.2,sharedTtl rrset.2,rrset.2,now - rrsigInceptionBackdateSecs,
      min (now+rrsigValiditySecs) (2^32 - 1)⟩).map fun value => ⟨rrset.1.1,.RRSIG,value,sharedTtl rrset.2,0⟩

def forEach {α : Type} (xs : List α) (body : α → RecordProg Unit) : RecordProg Unit :=
  match xs with
  | [] => return ()
  | x::xs => do
    body x
    forEach xs body

def signedNames (zone : Text) (candidates : List DnsRecord) : List Text :=
  ((candidates.filter fun r => nameInZone signer.lower r.name zone).map (·.name)).dedup

def clearName (name : Text) : RecordProg Unit := do
  let _ ← removeRecords signer.lower name (some .RRSIG) []
  let _ ← removeRecords signer.lower name (some .NSEC) []
  return ()

/-- Signatures are stored until one cannot be made. -/
def addSignatures : List (Option DnsRecord) → RecordProg Bool
  | [] => return true
  | none::_ => return false
  | some record::rest => do
    addRecord signer.lower record
    addSignatures rest

def resign (zone : Text) (now : Nat) : RecordProg Bool := do
  let candidates ← RecordProg.perform (.listRecordsBelow zone)
  forEach (signedNames signer zone candidates) (clearName signer)
  forEach (chainRecords signer zone candidates) (addRecord signer.lower)
  addSignatures signer ((orderedRrsets signer zone candidates).flatMap (signatures signer zone now))

inductive SignOutcome where
  | notSigned
  | signed
  | failed
deriving DecidableEq

/-- A signing pass. It is marked as active until it ends, however it does. -/
def signZone (name : Text) (now : Nat) : RecordProg SignOutcome := do
  let zone := normalizeName signer.lower name
  RecordProg.perform (.beginZoneResign zone)
  if (signer.signingKeys zone).isEmpty then
    RecordProg.perform (.endZoneResign zone)
    return .notSigned
  else
    let _ ← removeRecords signer.lower zone (some .DNSKEY) []
    forEach (signer.signingKeys zone) fun key =>
      addRecord signer.lower ⟨zone,.DNSKEY,dnskeyValue signer.formats key.algorithm key.publicKey key.keyType,
        dnskeyTtl,0⟩
    -- the mark goes before the zone is read, so that a mutation that comes later is not lost
    RecordProg.perform (.clearZoneResignPending zone)
    let complete ← resign signer zone now
    RecordProg.perform (.endZoneResign zone)
    return if complete then .signed else .failed

/-- What the re-sign loop does with one zone. -/
def resignOnce (name : Text) (now : Nat) : RecordProg Unit := do
  match ← signZone signer name now with
  | .signed => return ()
  | .notSigned => RecordProg.perform (.clearZoneResignPending name)
  | .failed => RecordProg.perform (.forceZoneResignPending name)

end

section
variable (signer : ZoneSigner) (zone : Text) (rows : List DnsRecord)

def rrsigsCovering (name : Text) (covered : RecordKind) : List DnsRecord :=
  (lookupExact rows (normalizeName signer.lower name) (some .RRSIG)).filter fun r =>
    (Rrsig.parse signer.formats r.value).any (·.typeCovered=covered)

/-- A signature by the key of exactly the rows at an owner and of a type. -/
def SignedBy (owner : Text) (kind : RecordKind) (key : SigningKey) (value : Text) : Prop :=
  ∃ inception expiration,signRrset signer key ⟨zone,owner,kind,sharedTtl (lookupExact rows owner (some kind)),
    lookupExact rows owner (some kind),inception,expiration⟩=some value

/-- What is stored of signatures and of the chain fits whatever else is stored: the chain is that of the names and types
there are, every signature that is served is one of the rows it is served with, and all that can be signed is. -/
structure Current (rows : List DnsRecord) : Prop where
  chain : (rows.filter fun r => nameInZone signer.lower r.name zone && r.recordType=.NSEC)=chainRecords signer zone rows
  covered : ∀ name kind,nameInZone signer.lower name zone=true → ∀ sig∈rrsigsCovering signer rows name kind,
    ∃ key∈signer.signingKeys zone,SignedBy signer zone rows (normalizeName signer.lower name) kind key sig.value
  signed : ∀ name kind,nameInZone signer.lower name zone=true → kind ≠ .RRSIG →
    lookupExact rows (normalizeName signer.lower name) (some kind)≠[] →
    (∀ r∈lookupExact rows (normalizeName signer.lower name) (some kind),(canonicalRdata signer.formats r).isSome) →
    ∀ key∈signersFor signer zone (normalizeName signer.lower name) kind,∃ sig∈rrsigsCovering signer rows name kind,
      SignedBy signer zone rows (normalizeName signer.lower name) kind key sig.value

def Signable (candidates : List DnsRecord) : Prop :=
  ∀ now,∀ rrset∈orderedRrsets signer zone candidates,none∉signatures signer zone now rrset

def zoneRows : List DnsRecord := rows.filter fun r => nameInZone signer.lower r.name zone

end

/-- What is assumed of the formats and keys: ASCII letters are folded as such, a normalised name is left as it is,
and base64 is one field that is read back. -/
structure ZoneSigner.Lawful (signer : ZoneSigner) : Prop where
  lowers : LowersAscii signer.formats.toLowercase
  uppers : ∀ kind : RecordKind,signer.formats.toUppercase kind.asStr=kind.asStr
  normal : ∀ name,normalizeName signer.lower (normalizeName signer.lower name) =
    normalizeName signer.lower name
  base64Decode : ∀ bytes,signer.formats.base64Decode (signer.formats.base64Encode bytes)=some bytes
  isField_base64 : ∀ bytes,bytes≠[] → TextFields.IsField (signer.formats.base64Encode bytes)
  sign_ne_nil : ∀ {key input signature},signer.sign key input=some signature → signature≠[]
  keyTag_lt : ∀ {zone key},key∈signer.signingKeys zone → key.keyTag<2^16

section
variable {signer : ZoneSigner}

theorem isField_asStr (kind : RecordKind) : TextFields.IsField kind.asStr := by
  unfold TextFields.IsField
  cases kind <;> decide

theorem parse_number (hsigner : signer.Lawful) (algorithm : DnssecAlgorithm) :
    DnssecAlgorithm.parse signer.formats (decimal algorithm.number.toNat)=some algorithm := by
  unfold DnssecAlgorithm.parse
  rw [hsigner.lowers _ (by cases algorithm <;> decide)]
  cases algorithm <;> decide

theorem parse_signRrset (hsigner : signer.Lawful) {key : SigningKey} {set : RrsetToSign} {value : Text}
    (ht : key.keyTag<2^16) (hz : ∀ c∈normalizeName signer.lower set.signerZone,isWhitespace c=false)
    (htt : set.originalTtl<2^32) (he : set.expiration<2^32) (hi : set.inception<2^32)
    (h : signRrset signer key set=some value) :
    ∃ sig,Rrsig.parse signer.formats value=some sig ∧ sig.typeCovered=set.typeCovered := by
  unfold signRrset at h
  split at h
  · cases h
  · obtain ⟨input,-,h⟩ := Option.bind_eq_some_iff.mp h
    obtain ⟨signature,hs,h⟩ := Option.bind_eq_some_iff.mp h
    cases h
    have hn : normalizeName signer.lower set.signerZone≠[] := by
      unfold normalizeName
      dsimp only
      split_ifs with hla
      · intro hni
        rw [hni] at hla
        cases hla
      · simp
    have hl : labelCount signer set.owner<2^8 := by
      unfold labelCount
      dsimp only
      split <;> omega
    have hf : splitWhitespace (rrsigValue signer ⟨set.typeCovered,key.algorithm,labelCount signer set.owner,
      set.originalTtl,
        set.expiration,set.inception,key.keyTag,normalizeName signer.lower set.signerZone,signature⟩)=_ :=
      splitWhitespace_intercalate (by
        simp only [forall_mem_cons]
        exact ⟨isField_asStr _,isField_decimal _,isField_decimal _,isField_decimal _,isField_decimal _,
          isField_decimal _,
          isField_decimal _,⟨hn,hz⟩,hsigner.isField_base64 _ (hsigner.sign_ne_nil hs),by simp⟩)
    unfold Rrsig.parse
    rw [hf]
    dsimp only
    rw [parseKind_asStr hsigner.uppers,parse_number hsigner,parseUnsigned_decimal hl,parseUnsigned_decimal htt,
      parseUnsigned_decimal he,
      parseUnsigned_decimal hi,parseUnsigned_decimal ht,hsigner.base64Decode]
    exact ⟨_,rfl,rfl⟩

end

section
variable {signer : ZoneSigner} {zone : Text} {rows : List DnsRecord}

variable (hsigner : signer.Lawful) {rows' : List DnsRecord} (name : Text)
include hsigner

theorem nameInZone_normal :
    nameInZone signer.lower (normalizeName signer.lower name) zone=nameInZone signer.lower name zone := by
  unfold nameInZone
  rw [hsigner.normal]

theorem nameInZone_normal_zone :
    nameInZone signer.lower name (normalizeName signer.lower zone)=nameInZone signer.lower name zone := by
  unfold nameInZone
  rw [hsigner.normal]

omit hsigner in
theorem zoneContent_zoneRows (rows : List DnsRecord) :
    zoneContent signer zone (zoneRows signer zone rows)=zoneContent signer zone rows := by
  unfold zoneContent zoneRows
  rw [filter_filter]
  refine filter_congr fun r _ => ?_
  cases nameInZone signer.lower r.name zone <;> simp

theorem byName_zoneContent (rows : List DnsRecord) :
    byName signer.lower zone (zoneContent signer zone rows)=byName signer.lower zone rows := by
  unfold byName zoneContent
  rw [filterMap_filter]
  refine filterMap_congr fun r _ => ?_
  dsimp only
  rw [nameInZone_normal hsigner,nameInZone_normal_zone hsigner]
  cases hz : nameInZone signer.lower r.name zone with
  | false => simp
  | true => cases hk : r.recordType <;> simp

omit hsigner in
theorem apexNegativeTtl_zoneContent (rows : List DnsRecord) :
    apexNegativeTtl signer (zoneContent signer zone rows) zone=apexNegativeTtl signer rows zone := by
  have hf : ((zoneContent signer zone rows).find? fun r => r.recordType=.SOA && normalizeName signer.lower r.name =
      normalizeName signer.lower zone)=rows.find? fun r => r.recordType=.SOA &&
        normalizeName signer.lower r.name=normalizeName signer.lower zone := by
    unfold zoneContent
    rw [find?_filter]
    congr 1
    funext r
    rw [Bool.eq_iff_iff,decide_eq_true_iff,and_iff_right_iff_imp]
    intro h
    simp only [Bool.and_eq_true,decide_eq_true_eq] at h
    simp [nameInZone,h.1,h.2]
  unfold apexNegativeTtl
  dsimp only
  rw [hf]

theorem chainRecords_zoneContent (rows : List DnsRecord) :
    chainRecords signer zone (zoneContent signer zone rows)=chainRecords signer zone rows := by
  unfold chainRecords buildNsecChain ordered typesAt
  rw [byName_zoneContent hsigner,apexNegativeTtl_zoneContent]

theorem chainRecords_congr (h : zoneContent signer zone rows=zoneContent signer zone rows') :
    chainRecords signer zone rows=chainRecords signer zone rows' := by
  rw [← chainRecords_zoneContent hsigner rows,h,chainRecords_zoneContent hsigner]

omit hsigner in
theorem lookupExact_zoneRows (rows : List DnsRecord) {owner : Text} (kind : Option RecordKind)
    (h : nameInZone signer.lower owner zone=true) :
    lookupExact (zoneRows signer zone rows) owner kind=lookupExact rows owner kind := by
  unfold lookupExact zoneRows
  rw [filter_filter]
  refine filter_congr fun r _ => ?_
  rw [Bool.eq_iff_iff]
  simp only [Bool.and_eq_true,decide_eq_true_eq,and_iff_left_iff_imp]
  rintro ⟨rfl,-⟩
  exact h

omit hsigner in
theorem lookupExact_eq_filter {owner : Text} {kind : RecordKind} (howner : nameInZone signer.lower owner zone=true) :
    lookupExact rows owner (some kind) =
      (rows.filter fun r => nameInZone signer.lower r.name zone && r.recordType=kind).filter fun r => r.name=owner := by
  rw [filter_filter,lookupExact]
  refine filter_congr fun r _ => ?_
  rw [Bool.eq_iff_iff]
  simp only [Bool.and_eq_true,decide_eq_true_eq,Option.all_some]
  constructor
  · rintro ⟨rfl,hk⟩
    exact ⟨rfl,howner,hk.symm⟩
  · rintro ⟨hn,-,hk⟩
    exact ⟨hn,hk.symm⟩

/-- What is found at a name of the zone depends on the rows of the zone alone. -/
theorem lookupExact_congr (h : zoneRows signer zone rows=zoneRows signer zone rows')
    {name : Text} (hn : nameInZone signer.lower name zone=true) (kind : Option RecordKind) :
    lookupExact rows (normalizeName signer.lower name) kind =
      lookupExact rows' (normalizeName signer.lower name) kind := by
  have hz := (nameInZone_normal hsigner name).trans hn
  rw [← lookupExact_zoneRows rows kind hz,h,lookupExact_zoneRows rows' kind hz]

omit hsigner in
theorem filter_zoneRows (p : DnsRecord → Bool) (rows : List DnsRecord) :
    (zoneRows signer zone rows).filter p=rows.filter fun r => nameInZone signer.lower r.name zone && p r := by
  unfold zoneRows
  rw [filter_filter]
  exact filter_congr fun r _ => Bool.and_comm _ _

theorem Current.congr (h : zoneRows signer zone rows=zoneRows signer zone rows')
    (hc : Current signer zone rows) : Current signer zone rows' := by
  have hl {name : Text} := @lookupExact_congr _ _ _ hsigner _ h name
  have hco : zoneContent signer zone rows=zoneContent signer zone rows' := by rw [← zoneContent_zoneRows rows,
    h,zoneContent_zoneRows]
  refine ⟨?_,fun name kind hn => ?_,fun name kind hn => ?_⟩
  · rw [← filter_zoneRows,← h,filter_zoneRows,hc.chain,chainRecords_congr hsigner hco]
  · have hcv := hc.covered name kind hn
    simpa only [SignedBy,rrsigsCovering,hl hn] using hcv
  · have hs := hc.signed name kind hn
    simpa only [SignedBy,rrsigsCovering,hl hn] using hs

end

section
variable (toLowercase : Text → Text) {signer : ZoneSigner} {zone : Text} {rows rows' : List DnsRecord} (s : RecordStore)

/-- The rows after an operation, which depend on the rows before it alone. -/
def rowsAfter (rows : List DnsRecord) : RecordOp → List DnsRecord
  | .insertRow record => rows++[{ record with name := normalizeName toLowercase record.name }]
  | .deleteRows name kind value => rows.filter fun r => !isDeleted (normalizeName toLowercase name) kind value r
  | _ => rows

theorem rows_exec (o : RecordOp) : ((recordStore toLowercase).exec s o).2.rows=rowsAfter toLowercase s.rows o := by
  cases o <;> rfl

theorem rows_execAll (ops : List RecordOp) :
    ((recordStore toLowercase).execAll s ops).rows=ops.foldl (rowsAfter toLowercase) s.rows := by
  induction ops generalizing s with
  | nil => rfl
  | cons o ops ih => exact (ih _).trans (by rw [rows_exec]; rfl)

theorem zoneRows_filter (p : DnsRecord → Bool) (rows : List DnsRecord) :
    zoneRows signer zone (rows.filter p)=(zoneRows signer zone rows).filter p := by
  rw [filter_zoneRows,zoneRows,filter_filter]

/-- What an operation makes of a zone depends on the rows of the zone alone. -/
theorem zoneRows_rowsAfter (h : zoneRows signer zone rows=zoneRows signer zone rows') (o : RecordOp) :
    zoneRows signer zone (rowsAfter toLowercase rows o)=zoneRows signer zone (rowsAfter toLowercase rows' o) := by
  cases o with
  | insertRow record =>
    unfold zoneRows at h
    simp only [zoneRows,rowsAfter,filter_append,h]
  | deleteRows name kind value => simp only [rowsAfter,zoneRows_filter,h]
  | _ => exact h

theorem zoneRows_foldl (h : zoneRows signer zone rows=zoneRows signer zone rows') (ops : List RecordOp) :
    zoneRows signer zone (ops.foldl (rowsAfter toLowercase) rows) =
      zoneRows signer zone (ops.foldl (rowsAfter toLowercase) rows') := by
  induction ops generalizing rows rows' with
  | nil => exact h
  | cons o ops ih => exact ih (zoneRows_rowsAfter toLowercase h o)

theorem zoneRows_insertRow_of_notMem (hsigner : signer.Lawful) {record : DnsRecord}
    (h : nameInZone signer.lower record.name zone=false) (rows : List DnsRecord) :
    zoneRows signer zone (rowsAfter signer.lower rows (.insertRow record))=zoneRows signer zone rows := by
  simp [zoneRows,rowsAfter,nameInZone_normal hsigner,h]

theorem zoneRows_deleteRows_of_notMem (hsigner : signer.Lawful) {name : Text}
    (h : nameInZone signer.lower name zone=false) (kind : Option RecordKind) (value : Text) (rows : List DnsRecord) :
    zoneRows signer zone (rowsAfter signer.lower rows (.deleteRows name kind value))=zoneRows signer zone rows := by
  rw [rowsAfter,zoneRows_filter,filter_eq_self]
  intro r hr
  have hz : nameInZone signer.lower r.name zone=true := (mem_filter.mp hr).2
  rw [Bool.not_eq_true',Bool.eq_false_iff]
  intro hd
  simp only [isDeleted,Bool.and_eq_true,decide_eq_true_eq] at hd
  rw [hd.1.1,nameInZone_normal hsigner,h] at hz
  cases hz

def clearOps (name : Text) : List RecordOp := [.deleteRows name (some .RRSIG) [],.deleteRows name (some .NSEC) []]

theorem foldl_clearOps {names : List Text} (hn : ∀ n∈names,normalizeName toLowercase n=n) (rows : List DnsRecord) :
    (names.flatMap clearOps).foldl (rowsAfter toLowercase) rows =
      rows.filter fun r => !(decide (r.name∈names) && (r.recordType=.RRSIG || r.recordType=.NSEC)) := by
  induction names generalizing rows with
  | nil => simp
  | cons name names ih =>
    obtain ⟨hna,hr⟩ := forall_mem_cons.mp hn
    rw [flatMap_cons,foldl_append,ih hr]
    simp only [clearOps,foldl_cons,foldl_nil,rowsAfter,hna,filter_filter]
    refine filter_congr fun r _ => ?_
    rw [Bool.eq_iff_iff]
    simp [isDeleted]
    tauto

theorem foldl_insertRow {records : List DnsRecord} (hr : ∀ r∈records,normalizeName toLowercase r.name=r.name)
    (rows : List DnsRecord) :
    (records.map RecordOp.insertRow).foldl (rowsAfter toLowercase) rows=rows++records := by
  induction records generalizing rows with
  | nil => simp
  | cons record records ih =>
    obtain ⟨hre,hrs⟩ := forall_mem_cons.mp hr
    rw [map_cons,foldl_cons,ih hrs,rowsAfter,hre,append_assoc]
    rfl

end

section
variable (signer : ZoneSigner) (zone : Text) {rows' : List DnsRecord} {r : DnsRecord}
  {entry : (Text × RecordKind) × List DnsRecord}
  {owner : Text} {kind : RecordKind} (now : Nat) (candidates : List DnsRecord)

structure Stored (r : DnsRecord) : Prop where
  normal : normalizeName signer.lower r.name=r.name
  ttl_lt : r.ttl<2^32

/-- A zone that can be signed: it is not the root, and its name is one field of a stored value. -/
structure Apex : Prop where
  normal : normalizeName signer.lower zone=zone
  isField : TextFields.IsField zone
  ne_root : zone≠['.']

def newSignatures : List DnsRecord :=
  ((orderedRrsets signer zone candidates).flatMap (signatures signer zone now)).reduceOption

/-- What a pass writes once it has read the zone. -/
def passOps : List RecordOp :=
  (signedNames signer zone candidates).flatMap clearOps ++
    (chainRecords signer zone candidates).map RecordOp.insertRow++(newSignatures signer zone now candidates).map
      RecordOp.insertRow

variable {signer zone} {rows : List DnsRecord} {now : Nat}

theorem suffix_of_nameInZone (hz : normalizeName signer.lower zone=zone) {name : Text}
    (hn : normalizeName signer.lower name=name) (h : nameInZone signer.lower name zone=true) : zone <:+ name := by
  unfold nameInZone at h
  simp only [hn,hz,Bool.or_eq_true,decide_eq_true_eq,isSuffixOf_iff_suffix] at h
  rcases h with (rfl | rfl) | hs
  · exact suffix_rfl
  · -- every normalised name ends with a dot
    unfold normalizeName at hn
    dsimp only at hn
    split_ifs at hn with hl
    · rw [hn] at hl
      obtain ⟨front,rfl⟩ := getLast?_eq_some_iff.mp hl
      exact suffix_append _ _
    · rw [← hn]
      exact suffix_append _ _
  · exact (suffix_cons '.' zone).trans hs

/-- The pattern finds all that is in the zone. -/
theorem zoneRows_candidates (ha : normalizeName signer.lower zone=zone) (hstored : ∀ r∈rows,Stored signer r) :
    zoneRows signer zone (rows.filter fun r => like none ('%' :: normalizeName signer.lower zone) r.name) =
      zoneRows signer zone rows := by
  rw [zoneRows_filter,filter_eq_self]
  intro r hr
  obtain ⟨hm,hz⟩ := mem_filter.mp hr
  rw [ha,like_percent (by decide)]
  exact ⟨zone,suffix_of_nameInZone ha (hstored r hm).normal hz,like_self zone⟩

theorem zoneContent_congr (h : zoneRows signer zone rows=zoneRows signer zone rows') :
    zoneContent signer zone rows=zoneContent signer zone rows' := by
  rw [← zoneContent_zoneRows rows,h,zoneContent_zoneRows]

theorem orderedRrsets_congr (hsigner : signer.Lawful) (h : zoneContent signer zone rows=zoneContent signer zone rows') :
    orderedRrsets signer zone rows=orderedRrsets signer zone rows' := by
  unfold orderedRrsets contentRrsets
  rw [h,chainRecords_congr hsigner h]

/-- What a pass writes depends on the rows of the zone alone. -/
theorem passOps_congr (hsigner : signer.Lawful) (h : zoneRows signer zone rows=zoneRows signer zone rows') :
    passOps signer zone now rows=passOps signer zone now rows' := by
  have hc := zoneContent_congr h
  have hn : signedNames signer zone rows=signedNames signer zone rows' :=
    congrArg (fun rows : List DnsRecord => (rows.map DnsRecord.name).dedup) h
  unfold passOps newSignatures
  rw [hn,chainRecords_congr hsigner hc,orderedRrsets_congr hsigner hc]

theorem mem_chainRecords_name (hsigner : signer.Lawful) (h : r∈chainRecords signer zone rows) :
    r.recordType=.NSEC ∧ nameInZone signer.lower r.name zone=true ∧ normalizeName signer.lower r.name=r.name := by
  obtain ⟨link,hl,rfl⟩ := mem_map.mp h
  have howner : link.1∈ordered signer.lower zone rows := by
    rw [← owners_buildNsecChain]
    exact mem_map_of_mem hl
  refine ⟨rfl,?_⟩
  rcases mem_ordered.mp howner with heq | ⟨row,-,-,-,hin,heq⟩
  · rw [heq,hsigner.normal,nameInZone_normal hsigner]
    exact ⟨by simp [nameInZone],rfl⟩
  · rw [nameInZone_normal_zone hsigner] at hin
    rw [← heq,hsigner.normal]
    exact ⟨hin,rfl⟩

theorem names_chainRecords : (chainRecords signer zone rows).map (·.name)=ordered signer.lower zone rows := by
  rw [← owners_buildNsecChain,chainRecords,map_map]
  rfl

theorem apexNegativeTtl_lt (hstored : ∀ r∈rows,Stored signer r) : apexNegativeTtl signer rows zone<2^32 := by
  unfold apexNegativeTtl
  dsimp only
  cases hf : rows.find? _ with
  | none => simp [nsecFallbackTtl]
  | some soa =>
    have ht := (hstored soa (mem_of_find?_eq_some hf)).ttl_lt
    rw [Option.bind_some]
    cases (splitWhitespace soa.value)[6]?.bind (parseUnsigned (2^32)) with
    | none => simp [nsecFallbackTtl]
    | some minimum =>
      rw [Option.map_some,Option.getD_some]
      omega

def signedRows (signer : ZoneSigner) (zone : Text) (now : Nat) (rows : List DnsRecord) : List DnsRecord :=
  (rows.filter fun r => !(nameInZone signer.lower r.name zone && (r.recordType=.RRSIG || r.recordType=.NSEC))) ++
    (chainRecords signer zone rows++newSignatures signer zone now rows)

theorem mem_orderedRrsets : entry∈orderedRrsets signer zone rows ↔
    ((∃ r∈zoneContent signer zone rows,entry.1=(r.name,r.recordType)) ∧
      entry.2=(zoneContent signer zone rows).filter fun r => (r.name,r.recordType)=entry.1) ∨
    ∃ r∈chainRecords signer zone rows,entry=((r.name,.NSEC),[r]) := by
  unfold orderedRrsets contentRrsets
  rw [mem_insertionSort,mem_append,mem_map,mem_map]
  refine or_congr ⟨?_,?_⟩ (by simp only [eq_comm])
  · rintro ⟨key,hk,rfl⟩
    obtain ⟨r,hr,rfl⟩ := mem_map.mp (mem_dedup.mp hk)
    exact ⟨⟨r,hr,rfl⟩,rfl⟩
  · rintro ⟨⟨r,hr,hk⟩,hs⟩
    exact ⟨entry.1,mem_dedup.mpr (mem_map.mpr ⟨r,hr,hk.symm⟩),by rw [← hs]⟩

theorem mem_newSignatures : r∈newSignatures signer zone now rows ↔
    ∃ entry∈orderedRrsets signer zone rows,(∀ row∈entry.2,(canonicalRdata signer.formats row).isSome) ∧
      ∃ key∈signersFor signer zone entry.1.1 entry.1.2,∃ value,
        signRrset signer key ⟨zone,entry.1.1,entry.1.2,sharedTtl entry.2,entry.2,now - rrsigInceptionBackdateSecs,
          min (now+rrsigValiditySecs) (2^32 - 1)⟩=some value ∧ r=⟨entry.1.1,.RRSIG,value,sharedTtl entry.2,0⟩ := by
  unfold newSignatures signatures
  rw [reduceOption_mem_iff,mem_flatMap]
  refine exists_congr fun entry => and_congr_right fun _ => ?_
  split
  · rename_i hn
    obtain ⟨row,hr,hn⟩ := any_eq_true.mp hn
    refine iff_of_false (by simp) fun h => ?_
    have hs := h.1 row hr
    rw [Option.isNone_iff_eq_none.mp hn] at hs
    cases hs
  · rename_i hs
    have ha : ∀ row∈entry.2,(canonicalRdata signer.formats row).isSome := by simpa [Option.isSome_iff_ne_none] using hs
    rw [and_iff_right ha,mem_map]
    refine exists_congr fun key => and_congr_right fun _ => ?_
    rw [Option.map_eq_some_iff]
    exact exists_congr fun value => and_congr_right fun _ => eq_comm

theorem key_of_mem_signersFor {key : SigningKey} (h : key∈signersFor signer zone owner kind) :
    key∈signer.signingKeys zone := by
  unfold signersFor at h
  generalize (if kind=.DNSKEY ∧ owner=zone then KeyType.ksk else .zsk)=wanted at h
  dsimp only at h
  split at h
  · exact h
  · exact mem_of_mem_filter h

theorem sharedTtl_lt {rrset : List DnsRecord} (h : ∀ r∈rrset,r.ttl<2^32) : sharedTtl rrset<2^32 := by
  unfold sharedTtl
  cases hm : (rrset.map (·.ttl)).min? with
  | none => simp [dnskeyTtl]
  | some ttl =>
    obtain ⟨r,hr,rfl⟩ := mem_map.mp (min?_mem hm)
    exact h r hr

theorem filter_eq_singleton_of_nodup {α β : Type} [DecidableEq β] {f : α → β} {xs : List α} (h : (xs.map f).Nodup)
    {x : α} (hx : x∈xs) :
    (xs.filter fun y => f y=f x)=[x] := by
  induction xs with
  | nil => cases hx
  | cons y ys ih =>
    rw [map_cons,nodup_cons] at h
    rcases mem_cons.mp hx with rfl | hx
    · rw [filter_cons_of_pos (by simp),filter_eq_nil_iff.mpr]
      intro z hz
      have hne : f z≠f x := fun heq => h.1 (heq ▸ mem_map_of_mem hz)
      simpa using hne
    · have hne : f y≠f x := fun heq => h.1 (heq ▸ mem_map_of_mem hx)
      rw [filter_cons_of_neg (by simpa using hne),ih h.2 hx]

structure SignedSet (signer : ZoneSigner) (zone : Text) (entry : (Text × RecordKind) × List DnsRecord) : Prop where
  inZone : nameInZone signer.lower entry.1.1 zone=true
  normal : normalizeName signer.lower entry.1.1=entry.1.1
  kind : entry.1.2 ≠ .RRSIG
  ttl_lt : sharedTtl entry.2<2^32

theorem mem_zoneContent : r∈zoneContent signer zone rows ↔
    r∈rows ∧ nameInZone signer.lower r.name zone=true ∧ r.recordType ≠ .RRSIG ∧ r.recordType ≠ .NSEC := by
  simp [zoneContent]

theorem ttl_chainRecords (hstored : ∀ r∈rows,Stored signer r) (h : r∈chainRecords signer zone rows) : r.ttl<2^32 := by
  obtain ⟨link,-,rfl⟩ := mem_map.mp h
  exact apexNegativeTtl_lt hstored

theorem filter_signedRows (p : DnsRecord → Bool) : (signedRows signer zone now rows).filter p =
    (rows.filter fun r => p r && !(nameInZone signer.lower r.name zone &&
      (r.recordType=.RRSIG || r.recordType=.NSEC))) ++
      ((chainRecords signer zone rows).filter p++(newSignatures signer zone now rows).filter p) := by
  rw [signedRows,filter_append,filter_append,filter_filter]

variable {p : DnsRecord → Bool}

theorem filter_chainRecords (hsigner : signer.Lawful) (hp : ∀ r,p r=true → r.recordType ≠ .NSEC) :
    (chainRecords signer zone rows).filter p=[] :=
  filter_eq_nil_iff.mpr fun r hr hs => hp r hs (mem_chainRecords_name hsigner hr).1

variable (hsigner : signer.Lawful) (hstored : ∀ r∈rows,Stored signer r)
include hsigner hstored

theorem signedSet_of_mem (h : entry∈orderedRrsets signer zone rows) : SignedSet signer zone entry := by
  rcases mem_orderedRrsets.mp h with ⟨⟨r,hr,hk⟩,hs⟩ | ⟨r,hr,rfl⟩
  · obtain ⟨hm,hz,hki,-⟩ := mem_zoneContent.mp hr
    refine ⟨by rwa [hk],by rw [hk]; exact (hstored r hm).normal,by rwa [hk],sharedTtl_lt fun row hro => ?_⟩
    rw [hs] at hro
    exact (hstored row (mem_zoneContent.mp (mem_of_mem_filter hro)).1).ttl_lt
  · obtain ⟨-,hz,hn⟩ := mem_chainRecords_name hsigner hr
    refine ⟨hz,hn,by simp,sharedTtl_lt fun row hro => ?_⟩
    rw [mem_singleton.mp hro]
    exact ttl_chainRecords hstored hr

theorem mem_newSignatures_name (h : r∈newSignatures signer zone now rows) :
    r.recordType=.RRSIG ∧ nameInZone signer.lower r.name zone=true ∧ normalizeName signer.lower r.name=r.name := by
  obtain ⟨entry,he,-,key,-,value,-,rfl⟩ := mem_newSignatures.mp h
  have hs := signedSet_of_mem hsigner hstored he
  exact ⟨rfl,hs.inZone,hs.normal⟩

/-- The rows after a pass: the content that was there, the chain of it, and the signatures. -/
theorem foldl_passOps : (passOps signer zone now rows).foldl (rowsAfter signer.lower) rows =
      signedRows signer zone now rows := by
  have hna : ∀ n∈signedNames signer zone rows,normalizeName signer.lower n=n := by
    intro n hn
    obtain ⟨r,hr,rfl⟩ := mem_map.mp (mem_dedup.mp hn)
    exact (hstored r (mem_of_mem_filter hr)).normal
  unfold passOps signedRows
  rw [foldl_append,foldl_append,foldl_clearOps _ hna,foldl_insertRow _ fun r hr =>
    (mem_chainRecords_name hsigner hr).2.2,
    foldl_insertRow _ fun r hr => (mem_newSignatures_name hsigner hstored hr).2.2,append_assoc]
  congr 1
  refine filter_congr fun r hr => ?_
  congr 2
  rw [Bool.eq_iff_iff,decide_eq_true_iff,signedNames,mem_dedup,mem_map]
  constructor
  · rintro ⟨row,hro,hnm⟩
    rw [← hnm]
    exact (mem_filter.mp hro).2
  · exact fun hz => ⟨r,mem_filter.mpr ⟨hr,hz⟩,rfl⟩

theorem filter_newSignatures (hp : ∀ r,p r=true → r.recordType ≠ .RRSIG) :
    (newSignatures signer zone now rows).filter p=[] :=
  filter_eq_nil_iff.mpr fun r hr hs => hp r hs (mem_newSignatures_name hsigner hstored hr).1

theorem zoneContent_signedRows :
    zoneContent signer zone (signedRows signer zone now rows)=zoneContent signer zone rows := by
  rw [zoneContent,filter_signedRows,filter_chainRecords hsigner fun r hr => by simp_all,
    filter_newSignatures hsigner hstored fun r hr => by simp_all,
    append_nil,append_nil,zoneContent]
  refine filter_congr fun r _ => ?_
  simp
  tauto

theorem chain_signedRows :
    ((signedRows signer zone now rows).filter fun r => nameInZone signer.lower r.name zone && r.recordType=.NSEC) =
      chainRecords signer zone rows := by
  rw [filter_signedRows,filter_newSignatures hsigner hstored fun r hr => by simp_all,append_nil,
    filter_eq_nil_iff.mpr,nil_append,filter_eq_self]
  · intro r hr
    obtain ⟨hk,hz,-⟩ := mem_chainRecords_name hsigner hr
    simp [hk,hz]
  · intro r _
    simp
    tauto

theorem signatures_signedRows :
    ((signedRows signer zone now rows).filter fun r => nameInZone signer.lower r.name zone && r.recordType=.RRSIG) =
      newSignatures signer zone now rows := by
  rw [filter_signedRows,filter_chainRecords hsigner fun r hr => by simp_all,nil_append,filter_eq_nil_iff.mpr,
    nil_append,filter_eq_self]
  · intro r hr
    obtain ⟨hk,hz,-⟩ := mem_newSignatures_name hsigner hstored hr
    simp [hk,hz]
  · intro r _
    simp
    tauto

theorem lookupExact_signedRows_content (hs : kind ≠ .RRSIG) (hn : kind ≠ .NSEC) :
    lookupExact (signedRows signer zone now rows) owner (some kind)=lookupExact rows owner (some kind) := by
  unfold lookupExact
  rw [filter_signedRows,filter_chainRecords hsigner fun r hr => by simp_all,
    filter_newSignatures hsigner hstored fun r hr => by simp_all,
    append_nil,append_nil]
  refine filter_congr fun r _ => ?_
  rw [Bool.eq_iff_iff]
  simp only [Bool.and_eq_true,decide_eq_true_eq,Option.all_some,Bool.not_eq_true',Bool.and_eq_false_iff,
    Bool.or_eq_false_iff,
    decide_eq_false_iff_not,and_iff_left_iff_imp]
  rintro ⟨-,rfl⟩
  exact .inr ⟨hs,hn⟩

variable (howner : nameInZone signer.lower owner zone=true)
include howner

theorem lookupExact_signedRows_nsec :
    lookupExact (signedRows signer zone now rows) owner (some .NSEC)=(chainRecords signer zone rows).filter fun r =>
      r.name=owner := by
  rw [lookupExact_eq_filter howner,chain_signedRows hsigner hstored]

theorem lookupExact_signedRows_rrsig :
    lookupExact (signedRows signer zone now rows) owner (some .RRSIG) =
      (newSignatures signer zone now rows).filter fun r => r.name=owner := by
  rw [lookupExact_eq_filter howner,signatures_signedRows hsigner hstored]

variable (now) in
omit howner in
theorem lookupExact_of_mem (h : entry∈orderedRrsets signer zone rows) :
    lookupExact (signedRows signer zone now rows) entry.1.1 (some entry.1.2)=entry.2 := by
  rcases mem_orderedRrsets.mp h with ⟨⟨r,hr,hke⟩,hs⟩ | ⟨r,hr,rfl⟩
  · obtain ⟨-,hz,hsi,hns⟩ := mem_zoneContent.mp hr
    rw [hs,hke,lookupExact_signedRows_content hsigner hstored hsi hns,lookupExact,zoneContent,filter_filter]
    refine filter_congr fun row _ => ?_
    rw [Bool.eq_iff_iff]
    simp only [Bool.and_eq_true,decide_eq_true_eq,Option.all_some,Prod.mk.injEq]
    constructor
    · rintro ⟨hn,hk⟩
      exact ⟨⟨hn,hk.symm⟩,by rwa [hn],by rwa [← hk],by rwa [← hk]⟩
    · rintro ⟨⟨hn,hk⟩,-⟩
      exact ⟨hn,hk.symm⟩
  · obtain ⟨-,hz,-⟩ := mem_chainRecords_name hsigner hr
    rw [lookupExact_signedRows_nsec hsigner hstored hz]
    refine filter_eq_singleton_of_nodup (f := DnsRecord.name) ?_ hr
    rw [names_chainRecords]
    exact nodup_ordered

/-- All that is stored in the zone but signatures was signed. -/
theorem mem_of_lookupExact (hk : kind ≠ .RRSIG)
    (hne : lookupExact (signedRows signer zone now rows) owner (some kind)≠[]) :
    ∃ set,((owner,kind),set)∈orderedRrsets signer zone rows := by
  obtain ⟨r,hr⟩ := exists_mem_of_ne_nil _ hne
  by_cases hn : kind=.NSEC
  · subst hn
    rw [lookupExact_signedRows_nsec hsigner hstored howner] at hr
    obtain ⟨hm,hna⟩ := mem_filter.mp hr
    refine ⟨[r],mem_orderedRrsets.mpr (.inr ⟨r,hm,?_⟩)⟩
    rw [of_decide_eq_true hna]
  · rw [lookupExact_signedRows_content hsigner hstored hk hn] at hr
    simp only [lookupExact,mem_filter,Bool.and_eq_true,decide_eq_true_eq,Option.all_some] at hr
    obtain ⟨hm,rfl,rfl⟩ := hr
    exact ⟨(zoneContent signer zone rows).filter fun row => (row.name,row.recordType)=(r.name,r.recordType),
      mem_orderedRrsets.mpr (.inl ⟨⟨r,mem_zoneContent.mpr ⟨hm,howner,hk,hn⟩,rfl⟩,rfl⟩)⟩

omit howner in
/-- A pass that nothing comes between leaves the zone current. -/
theorem current_signedRows (ha : Apex signer zone) (hnw : now<2^32)
    (hs : Signable signer zone rows) : Current signer zone (signedRows signer zone now rows) := by
  -- a signature is read as one of the type it was made for
  have hp {entry : (Text × RecordKind) × List DnsRecord} (he : entry∈orderedRrsets signer zone rows) {key : SigningKey}
      (hk : key∈signersFor signer zone entry.1.1 entry.1.2) {value : Text}
      (hv : signRrset signer key ⟨zone,entry.1.1,entry.1.2,sharedTtl entry.2,entry.2,now - rrsigInceptionBackdateSecs,
          min (now+rrsigValiditySecs) (2^32 - 1)⟩=some value) (kind : RecordKind) :
      (Rrsig.parse signer.formats value).any (·.typeCovered=kind)=true ↔ entry.1.2=kind := by
    obtain ⟨sig,hsi,hco⟩ := parse_signRrset hsigner (hsigner.keyTag_lt (key_of_mem_signersFor hk))
      (by rw [ha.normal]; exact ha.isField.2) (signedSet_of_mem hsigner hstored he).ttl_lt (by dsimp only; omega)
        (by dsimp only; omega) hv
    rw [hsi,Option.any_some,decide_eq_true_iff,hco]
  have hch : chainRecords signer zone (signedRows signer zone now rows)=chainRecords signer zone rows :=
    chainRecords_congr hsigner (zoneContent_signedRows hsigner hstored)
  refine ⟨(chain_signedRows hsigner hstored).trans hch.symm,fun name kind hn sig hsi => ?_,
    fun name kind hn hki hne hso key hk => ?_⟩
  · have howner : nameInZone signer.lower (normalizeName signer.lower name) zone=true := by
      rwa [nameInZone_normal hsigner]
    rw [rrsigsCovering,lookupExact_signedRows_rrsig hsigner hstored howner] at hsi
    obtain ⟨hm,hc⟩ := mem_filter.mp hsi
    obtain ⟨hm,hat⟩ := mem_filter.mp hm
    obtain ⟨entry,he,-,key,hk,value,hv,rfl⟩ := mem_newSignatures.mp hm
    rw [hp he hk hv] at hc
    refine ⟨key,key_of_mem_signersFor hk,now - rrsigInceptionBackdateSecs,min (now+rrsigValiditySecs) (2^32 - 1),?_⟩
    rw [← of_decide_eq_true hat,← hc,lookupExact_of_mem now hsigner hstored he]
    exact hv
  · have howner : nameInZone signer.lower (normalizeName signer.lower name) zone=true := by
      rwa [nameInZone_normal hsigner]
    obtain ⟨set,he⟩ := mem_of_lookupExact hsigner hstored howner hki hne
    have hse := lookupExact_of_mem now hsigner hstored he
    rw [hse] at hso
    -- the signature was made, since none is missing
    obtain ⟨value,hv⟩ : ∃ value,signRrset signer key ⟨zone,normalizeName signer.lower name,kind,sharedTtl set,set,
        now - rrsigInceptionBackdateSecs,min (now+rrsigValiditySecs) (2^32 - 1)⟩=some value := by
      rw [← Option.isSome_iff_exists,Option.isSome_iff_ne_none]
      intro hno
      refine hs now _ he ?_
      unfold signatures
      rw [if_neg]
      · exact mem_map.mpr ⟨key,hk,by rw [hno]; rfl⟩
      · simpa [Option.isSome_iff_ne_none] using hso
    refine ⟨⟨normalizeName signer.lower name,.RRSIG,value,sharedTtl set,0⟩,?_,now - rrsigInceptionBackdateSecs,
      min (now+rrsigValiditySecs) (2^32 - 1),by rw [hse]; exact hv⟩
    rw [rrsigsCovering,lookupExact_signedRows_rrsig hsigner hstored howner]
    refine mem_filter.mpr ⟨mem_filter.mpr ⟨mem_newSignatures.mpr ⟨_,he,hso,key,hk,value,hv,rfl⟩,by simp⟩,?_⟩
    exact (hp he hk hv kind).mpr rfl

end

end RolodexDns.ZoneSigning
