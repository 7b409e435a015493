import RolodexDns.StoredRdata

/-! The DS records the server hands to operators for their parent zone. The text has a field too many, so
that the server's own format for DS does not read it, whatever the key. The octets that are hashed are the
right ones for every zone but the root. -/
namespace RolodexDns.DsExport
open StoredRecords RecordConversions TextFields CanonicalNames StoredRdata List

inductive KeyType where
  | zsk
  | ksk
deriving DecidableEq

def KeyType.asStr : KeyType → Text
  | zsk => "ZSK"
  | ksk => "KSK"

def KeyType.flags : KeyType → Nat
  | zsk => 256
  | ksk => 257

def KeyType.parse (lib : FormatLibrary) (s : Text) : Option KeyType :=
  [zsk,ksk].find? fun kind => lib.toUppercase s=kind.asStr

/-- A row of the key table. What is only used for signing is not kept. -/
structure DnssecKeyRow where
  zone : Text
  algorithm : Text
  keyType : Text
  publicKey : Bytes
  keyTag : Nat
  active : Bool

section
variable (lib : FormatLibrary) (sha256 : Bytes → Bytes) (zone : Text) (algorithm : DnssecAlgorithm)
  (keys : List DnssecKeyRow)
  (publicKey : Bytes) (keyType : KeyType) (keyTag : Nat)

/-- The owner as it is written into the digest, letter case and all. -/
def ownerWire : Bytes :=
  ((labelsOf zone).flatMap fun label => UInt8.ofNat (toUtf8 label).length::toUtf8 label)++[0]

def digestInput : Bytes :=
  ownerWire zone++bigEndian 2 keyType.flags++[3,algorithm.number]++publicKey

def computeDsSha256 (algorithm : DnssecAlgorithm) (publicKey : Bytes) (keyType : KeyType) : Text :=
  decimal keyTag ++ ' ' :: decimal algorithm.number.toNat ++ ' ' :: decimal 1 ++ ' ' :: '1' :: ' ' ::
    hexEncode (sha256 (digestInput zone algorithm publicKey keyType))

def DnssecKeyRow.dsRecord (key : DnssecKeyRow) : Text :=
  computeDsSha256 sha256 key.zone key.keyTag ((DnssecAlgorithm.parse lib key.algorithm).getD .ed25519) key.publicKey
    ((KeyType.parse lib key.keyType).getD .ksk)

def getActiveKeys (zone keyType : Text) : List DnssecKeyRow :=
  keys.filter fun key => key.zone=normalizeName lib.toLowercase zone && key.keyType=keyType && key.active

def getDsRecords (zone : Text) : List Text :=
  (getActiveKeys lib keys zone "KSK").map (DnssecKeyRow.dsRecord lib sha256)

def dnskeyValue : Text :=
  decimal keyType.flags ++ ' ' :: '3' :: ' ' :: decimal algorithm.number.toNat ++ ' ' :: lib.base64Encode publicKey

/-- A DS text of four fields that is read as the digest of type 2 of the owner and the published key. -/
def CorrectDs (algorithm : DnssecAlgorithm) (publicKey : Bytes) (keyType : KeyType) (text : Text) : Prop :=
  (splitWhitespace text).length=4 ∧ ∃ owner dnskey,canonicalName lib zone=some owner ∧
    canonicalRdata lib ⟨zone,.DNSKEY,dnskeyValue lib algorithm publicKey keyType,3600,0⟩=some dnskey ∧
    canonicalRdata lib ⟨zone,.DS,text,3600,0⟩ =
      some (bigEndian 2 keyTag++[algorithm.number,2]++sha256 (owner++dnskey))

end

section
variable {lib : FormatLibrary} {sha256 : Bytes → Bytes} {zone : Text} {keyTag : Nat} {algorithm : DnssecAlgorithm}
  {publicKey : Bytes}
  {keyType : KeyType}

/-- The fourth of the five fields is a digit, where the format has the digest. -/
theorem splitWhitespace_computeDsSha256 :
    splitWhitespace (computeDsSha256 sha256 zone keyTag algorithm publicKey keyType) =
      decimal keyTag::decimal algorithm.number.toNat::['1']::['1'] ::
        splitWhitespace (hexEncode (sha256 (digestInput zone algorithm publicKey keyType))) := by
  have ho (rest : Text) : splitWhitespace ('1' :: ' ' :: rest)=['1']::splitWhitespace rest :=
    @splitWhitespace_cons ['1'] (by decide) (by decide) rest
  have hd : decimal 1=['1'] := by decide
  unfold computeDsSha256
  simp only [append_assoc,cons_append,splitWhitespace_decimal,ho]
  rw [hd]

/-- No digest has a single digit. -/
theorem canonicalRdata_computeDsSha256 :
    canonicalRdata lib ⟨zone,.DS,computeDsSha256 sha256 zone keyTag algorithm publicKey keyType,3600,0⟩=none := by
  simp only [canonicalRdata,splitWhitespace_trim,splitWhitespace_computeDsSha256,encodeFields,FieldKind.encode]
  cases parseUnsigned (2^16) (decimal keyTag) <;> cases parseUnsigned (2^8) (decimal algorithm.number.toNat) <;>
    cases parseUnsigned (2^8) ['1'] <;> rfl

theorem not_correctDs (zone : Text) (keyTag : Nat) (algorithm : DnssecAlgorithm) (publicKey : Bytes)
    (keyType : KeyType) :
    ¬ CorrectDs lib sha256 zone keyTag algorithm publicKey keyType
      (computeDsSha256 sha256 zone keyTag algorithm publicKey keyType) := by
  rintro ⟨-,owner,dnskey,-,-,hr⟩
  rw [canonicalRdata_computeDsSha256] at hr
  cases hr

end

section
variable (lib : FormatLibrary) (sha256 : Bytes → Bytes)

/-- What is exported is right only where there is nothing to export. -/
theorem exported_ds_correct_iff (keys : List DnssecKeyRow) (zone : Text) :
    Forall₂ (fun key text => CorrectDs lib sha256 key.zone key.keyTag
      ((DnssecAlgorithm.parse lib key.algorithm).getD .ed25519)
        key.publicKey ((KeyType.parse lib key.keyType).getD .ksk) text)
      (getActiveKeys lib keys zone "KSK") (getDsRecords lib sha256 keys zone) ↔
        getDsRecords lib sha256 keys zone=[] := by
  unfold getDsRecords
  rw [forall₂_map_right_iff,forall₂_same,map_eq_nil_iff]
  constructor
  · intro h
    refine eq_nil_iff_forall_not_mem.mpr fun key hk => ?_
    exact not_correctDs _ _ _ _ _ (h key hk)
  · intro hn key hk
    rw [hn] at hk
    cases hk

/-- The one active key of a zone, asked for in capitals and without the final dot. -/
theorem exported_ds_is_not_read :
    ∃ text,getDsRecords plainFormats (fun _ => replicate 32 1)
      [⟨"example.","ED25519","KSK",replicate 32 7,4660,true⟩] "EXAMPLE"=[text] ∧
      ¬ CorrectDs plainFormats (fun _ => replicate 32 1) "example." 4660 .ed25519 (replicate 32 7) .ksk text := by
  refine ⟨DnssecKeyRow.dsRecord plainFormats (fun _ => replicate 32 1) ⟨"example.","ED25519","KSK",
    replicate 32 7,4660,true⟩,
    by decide +kernel,?_⟩
  rintro ⟨hf,-⟩
  exact absurd hf (by decide +kernel)

end

end RolodexDns.DsExport
