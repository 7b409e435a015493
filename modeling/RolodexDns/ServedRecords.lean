import RolodexDns.StoredRdata

/-! The records that are served: stored values read into the protocol library's record data, which it
encodes by their RFCs. What is signed is what is served for the records whose two readings agree; the
types with a reading of their own are listed with the texts on which they do. -/
namespace RolodexDns.ServedRecords
open DomainNames StoredRecords RecordConversions TextFields StoredRdata List Option

/-- Record data as the library holds it; `unknown` is its opaque form. -/
inductive HickoryData where
  | a (ip : BitVec 32)
  | aaaa (ip : BitVec 128)
  | cname (target : RawName)
  | mx (preference : UInt16) (exchange : RawName)
  | txt (strings : List Bytes)
  | ns (target : RawName)
  | soa (mname rname : RawName) (serial : Nat) (refresh retry expire : Int) (minimum : Nat)
  | srv (priority : UInt16) (weight port : Nat) (target : RawName)
  | ptr (target : RawName)
  | sshfp (algorithm fingerprintType : Nat) (fingerprint : Bytes)
  | tlsa (usage selector matching : Nat) (certData : Bytes)
  | cert (certType keyTag algorithm : Nat) (certData : Bytes)
  | svcb (svcb : Svcb)
  | https (svcb : Svcb)
  | unknown (code : UInt16) (rdata : Bytes)
deriving DecidableEq

namespace HickoryData

def code : HickoryData → UInt16
  | a _ => 1
  | aaaa _ => 28
  | cname _ => 5
  | mx .. => 15
  | txt _ => 16
  | ns _ => 2
  | soa .. => 6
  | srv .. => 33
  | ptr _ => 12
  | sshfp .. => 44
  | tlsa .. => 52
  | cert .. => 37
  | svcb _ => 64
  | https _ => 65
  | unknown code _ => code

def i32Bytes (n : Int) : Bytes := bigEndian 4 (n % 2^32).toNat

/-- The data in canonical form, names in lower case. A character string has at most 255 octets. -/
def octets : HickoryData → Option Bytes
  | a ip => some (bigEndian 4 ip.toNat)
  | aaaa ip => some (bigEndian 16 ip.toNat)
  | cname target | ns target | ptr target => some (rawWire asciiLower target)
  | mx preference exchange => some (bigEndian 2 preference.toNat++rawWire asciiLower exchange)
  | txt strings =>
    if strings.all (·.length ≤ 255) then some (strings.flatMap fun s => UInt8.ofNat s.length::s) else none
  | soa mname rname serial refresh retry expire minimum =>
    some (rawWire asciiLower mname++rawWire asciiLower rname++bigEndian 4 serial++i32Bytes refresh++i32Bytes retry ++
      i32Bytes expire++bigEndian 4 minimum)
  | srv priority weight port target =>
    some (bigEndian 2 priority.toNat++bigEndian 2 weight++bigEndian 2 port++rawWire asciiLower target)
  | sshfp algorithm fingerprintType fingerprint =>
    some (bigEndian 1 algorithm++bigEndian 1 fingerprintType++fingerprint)
  | tlsa usage selector matching certData =>
    some (bigEndian 1 usage++bigEndian 1 selector++bigEndian 1 matching++certData)
  | cert certType keyTag algorithm certData =>
    some (bigEndian 2 certType++bigEndian 2 keyTag++bigEndian 1 algorithm++certData)
  | svcb s | https s => s.wire asciiLower
  | unknown _ rdata => some rdata

def canonicalWire (data : HickoryData) : Option Bytes := data.octets.filter (·.length ≤ maxRdata)

end HickoryData

section
variable (lib : FormatLibrary) (r : DnsRecord)

/-- Data the library has no format for, under its own type. -/
def opaqueRdata : Option HickoryData :=
  (canonicalRdata lib r).bind fun rdata => if rdata.isEmpty then none else some (.unknown (wireType r.recordType) rdata)

def recordData : Option HickoryData :=
  match r.recordType with
  | .A => (lib.parseIpv4 r.value).map .a
  | .AAAA => (lib.parseIpv6 r.value).map .aaaa
  | .CNAME => (lib.nameFromAscii r.value).map .cname
  | .MX => (lib.nameFromAscii r.value).map (.mx (UInt16.ofNat r.priority))
  | .TXT => some (.txt [toUtf8 r.value])
  | .NS => (lib.nameFromAscii r.value).map .ns
  | .SOA =>
    match splitWhitespace r.value with
    | mname::rname::serial::refresh::retry::expire::minimum::_ => do
      return .soa (← lib.nameFromAscii mname) (← lib.nameFromAscii rname) (← parseUnsigned (2^32) serial)
        (← parseI32 refresh)
        (← parseI32 retry) (← parseI32 expire) (← parseUnsigned (2^32) minimum)
    | _ => none
  | .SRV =>
    match splitWhitespace r.value with
    | weight::port::target::_ => do
      return .srv (UInt16.ofNat r.priority) (← parseUnsigned (2^16) weight) (← parseUnsigned (2^16) port)
        (← lib.nameFromAscii target)
    | _ => none
  | .PTR => (lib.nameFromAscii r.value).map .ptr
  -- a DNAME is read into a CNAME, which is the type it is then served under
  | .DNAME => (lib.nameFromAscii r.value).map .cname
  | .SSHFP =>
    match splitWhitespace r.value with
    | algorithm::fingerprintType::fingerprint::_ => do
      return .sshfp (← parseUnsigned (2^8) algorithm) (← parseUnsigned (2^8) fingerprintType) (← hexDecode fingerprint)
    | _ => none
  | .ANAME => some (.txt [toUtf8 r.value])
  | .URI | .ZONEMD | .DNSKEY | .DS | .RRSIG | .NSEC => opaqueRdata lib r
  | .TLSA =>
    match splitWhitespace r.value with
    | usage::selector::matching::certData::_ => do
      return .tlsa (← parseUnsigned (2^8) usage) (← parseUnsigned (2^8) selector) (← parseUnsigned (2^8) matching)
        (← hexDecode certData)
    | _ => none
  | .CERT =>
    match splitWhitespace r.value with
    | certType::keyTag::algorithm::certData::_ => do
      return .cert (← parseUnsigned (2^16) certType) (← parseUnsigned (2^16) keyTag) (← parseUnsigned (2^8) algorithm)
        (← lib.base64Decode certData)
    | _ => none
  | .SVCB => (parseSvcb lib r.value).map .svcb
  | .HTTPS => (parseSvcb lib r.value).map .https
  | .NSEC3 | .NSEC3PARAM => none

structure ServedRecord where
  name : RawName
  ttl : Nat
  data : HickoryData

def dbRecordToDnsRecord : Option ServedRecord := do
  return ⟨← lib.nameFromAscii r.name,r.ttl,← recordData lib r⟩

/-- The type and canonical RDATA of the record that is served, if it can be encoded. -/
def servedRdata : Option (UInt16 × Bytes) := do
  let record ← dbRecordToDnsRecord lib r
  return (record.data.code,← record.data.canonicalWire)

end

section
variable (lib : FormatLibrary)

def Readable : List FieldKind → List Text → Prop
  | [], _ => True
  | _::_, [] => False
  | kind::kinds, field::fields => (kind.encode lib field).isSome ∧ Readable kinds fields

def spelledOctets : List FieldKind → List Text → Nat
  | [], _ => 0
  | _::_, [] => 0
  | kind::kinds, field::fields => ((kind.encode lib field).getD []).length+spelledOctets kinds fields

variable {lib} {kinds : List FieldKind} {fields : List Text}

theorem encodeFields_cons (kind : FieldKind) (field : Text) :
    encodeFields lib (kind::kinds) (field::fields) =
      (kind.encode lib field).bind fun bytes => (encodeFields lib kinds fields).map (bytes ++ ·) := by
  rw [encodeFields]
  cases kind.encode lib field <;> cases encodeFields lib kinds fields <;> rfl

theorem isSome_encodeFields : (encodeFields lib kinds fields).isSome ↔ Readable lib kinds fields := by
  induction kinds generalizing fields with
  | nil => simp [encodeFields,Readable]
  | cons kind kinds ih =>
    cases fields with
    | nil => simp [encodeFields,Readable]
    | cons field fields =>
      rw [encodeFields_cons,Readable,← ih]
      cases kind.encode lib field <;> simp

theorem length_encodeFields {bytes : Bytes} (h : encodeFields lib kinds fields=some bytes) :
    bytes.length=spelledOctets lib kinds fields := by
  induction kinds generalizing fields bytes with
  | nil => cases h; rfl
  | cons kind kinds ih =>
    cases fields with
    | nil => cases h
    | cons field fields =>
      rw [encodeFields_cons] at h
      obtain ⟨first,hf,h⟩ := Option.bind_eq_some_iff.mp h
      obtain ⟨rest,hr,rfl⟩ := map_eq_some_iff.mp h
      rw [length_append,ih hr,spelledOctets,hf,getD_some]

end

section
variable (lib : FormatLibrary) (r : DnsRecord)

/-- The types whose values are fields that are read alike for both purposes. -/
def sharedFormat : RecordKind → Option (List FieldKind)
  | .SSHFP => some [.u8,.u8,.hex]
  | .TLSA => some [.u8,.u8,.u8,.hex]
  | .CERT => some [.u16,.u16,.u8,.base64]
  | .ZONEMD => some [.u32,.u8,.u8,.hex]
  | .DNSKEY => some [.u16,.u8,.u8,.base64]
  | .DS => some [.u16,.u8,.u8,.hex]
  | _ => none

def soaSigned : List FieldKind := [.name,.name,.u32,.u32,.u32,.u32,.u32]

def soaServed : List FieldKind := [.asciiName,.asciiName,.u32,.i32,.i32,.i32,.u32]

/-- The target of a URI value: from where its third field first occurs. -/
def uriTarget : Text := trim ((findFrom ((splitWhitespace r.value).getD 2 []) (trim r.value)).getD [])

/-- The value can be signed: it is one of its type, and a priority fits into 16 bits. -/
def Signed : Prop :=
  match r.recordType with
  | .A => (lib.parseIpv4 (trim r.value)).isSome
  | .AAAA => (lib.parseIpv6 (trim r.value)).isSome
  | .CNAME | .NS | .PTR | .DNAME => (canonicalName lib r.value).isSome
  | .MX => r.priority<2^16 ∧ (canonicalName lib r.value).isSome
  | .TXT => True
  | .SOA => Readable lib soaSigned (splitWhitespace r.value)
  | .SRV => r.priority<2^16 ∧ Readable lib [.u16,.u16,.name] (splitWhitespace r.value)
  | .SVCB | .HTTPS => ∃ svcb,parseSvcb lib r.value=some svcb ∧ svcb.encodable
  | .URI => 3 ≤ (splitWhitespace r.value).length ∧ Readable lib [.u16,.u16] (splitWhitespace r.value)
  | .RRSIG => ∃ sig,Rrsig.parse lib r.value=some sig ∧ (canonicalName lib sig.signerName).isSome
  | .NSEC => ∃ nsec,Nsec.parse lib r.value=some nsec ∧ (canonicalName lib nsec.nextOwner).isSome
  | kind => ∃ format,sharedFormat kind=some format ∧ Readable lib format (splitWhitespace r.value)

/-- The octets of an RRSIG or NSEC value, of a URI, or of fields. -/
def octetCount : Nat :=
  match r.recordType with
  | .URI => 4+(toUtf8 (uriTarget r)).length
  | .RRSIG => ((Rrsig.parse lib r.value).map fun sig =>
      18+((canonicalName lib sig.signerName).getD []).length+sig.signature.length).getD 0
  | .NSEC => ((Nsec.parse lib r.value).map fun nsec => ((canonicalName lib nsec.nextOwner).getD []).length +
      (encodeTypeBitmap ((nsec.types.map wireType).insertionSort (· ≤ ·)).dedup).length).getD 0
  | kind => spelledOctets lib ((sharedFormat kind).getD []) (splitWhitespace r.value)

/-- The value can be served: the library has data for it that fits into a message. -/
def Servable : Prop :=
  match r.recordType with
  | .A => (lib.parseIpv4 r.value).isSome
  | .AAAA => (lib.parseIpv6 r.value).isSome
  | .CNAME | .NS | .PTR | .DNAME | .MX => (lib.nameFromAscii r.value).isSome
  | .TXT | .ANAME => (toUtf8 r.value).length ≤ 255
  | .SOA => Readable lib soaServed (splitWhitespace r.value)
  | .SRV => Readable lib [.u16,.u16,.asciiName] (splitWhitespace r.value)
  | .SVCB | .HTTPS => Signed lib r
  | .NSEC3 | .NSEC3PARAM => False
  | _ => Signed lib r ∧ octetCount lib r ≤ maxRdata

/-- The text is the same name to both readers. -/
def ReadsAlike (s : Text) : Prop := (lib.nameFromAscii s).map (rawWire asciiLower)=canonicalName lib s

/-- What is read for both purposes is the same: names that are read alike, text without blanks around it,
a service target in lower case, and a type that is served under its own code. -/
def Same : Prop :=
  match r.recordType with
  | .CNAME | .NS | .PTR | .MX => ReadsAlike lib r.value
  | .DNAME | .ANAME => False
  | .TXT => trim r.value=r.value
  | .SOA => ReadsAlike lib ((splitWhitespace r.value).getD 0 []) ∧ ReadsAlike lib ((splitWhitespace r.value).getD 1 [])
  | .SRV => ReadsAlike lib ((splitWhitespace r.value).getD 2 [])
  | .SVCB | .HTTPS => ∀ svcb,parseSvcb lib r.value=some svcb → ∀ label∈svcb.target,label.map asciiLower=label
  | _ => True

end

section
variable {lib : FormatLibrary} {r : DnsRecord} {fields : List Text} {kinds : List FieldKind} {bytes : Bytes}
  {kind : FieldKind} (s : Text)
  (fold : UInt8 → UInt8)

def servedOctets (lib : FormatLibrary) (r : DnsRecord) : Option Bytes := (recordData lib r).bind HickoryData.octets

theorem canonicalName_trim : canonicalName lib (trim s)=canonicalName lib s := by
  unfold canonicalName
  rw [trim_trim]

theorem parseSvcb_trim : parseSvcb lib (trim s)=parseSvcb lib s := by
  unfold parseSvcb
  rw [splitWhitespace_trim]

theorem rrsigParse_trim : Rrsig.parse lib (trim s)=Rrsig.parse lib s := by
  unfold Rrsig.parse
  rw [splitWhitespace_trim]

theorem nsecParse_trim : Nsec.parse lib (trim s)=Nsec.parse lib s := by
  unfold Nsec.parse
  rw [splitWhitespace_trim]

theorem encodeFields_eq_none (h : fields.length<kinds.length) :
    encodeFields lib kinds fields=none := by
  induction kinds generalizing fields with
  | nil => cases h
  | cons kind kinds ih =>
    cases fields with
    | nil => rfl
    | cons field fields =>
      rw [encodeFields_cons,ih (Nat.lt_of_succ_lt_succ h)]
      cases kind.encode lib field <;> rfl

theorem servedOctets_soa (h : r.recordType=.SOA) :
    servedOctets lib r=encodeFields lib soaServed (splitWhitespace r.value) := by
  unfold servedOctets recordData
  rw [h]
  match splitWhitespace r.value with
  | _::_::_::_::_::_::_::_ =>
    simp [map_eq_bind,bind_assoc,encodeFields,FieldKind.encode,HickoryData.octets,soaServed,HickoryData.i32Bytes]
  | [] | [_] | [_,_] | [_,_,_] | [_,_,_,_] | [_,_,_,_,_] | [_,_,_,_,_,_] =>
    rw [encodeFields_eq_none (by simp [soaServed])]
    rfl

theorem servedOctets_srv (h : r.recordType=.SRV) : servedOctets lib r =
    (encodeFields lib [.u16,.u16,.asciiName] (splitWhitespace r.value)).map
      (bigEndian 2 (UInt16.ofNat r.priority).toNat ++ ·) := by
  unfold servedOctets recordData
  rw [h]
  match splitWhitespace r.value with
  | _::_::_::_ =>
    simp [map_eq_bind,bind_assoc,encodeFields,FieldKind.encode,HickoryData.octets]
  | [] | [_] | [_,_] =>
    rw [encodeFields_eq_none (by simp)]
    rfl

/-- The types whose fields are read one by one, in the order that they are signed in. -/
theorem servedOctets_fields (h : r.recordType∈[.SSHFP,.TLSA,.CERT]) :
    servedOctets lib r=encodeFields lib ((sharedFormat r.recordType).getD []) (splitWhitespace r.value) := by
  unfold servedOctets recordData
  simp only [mem_cons,not_mem_nil,or_false] at h
  rcases h with h | h | h <;> rw [h] <;> dsimp only [sharedFormat,getD_some]
  all_goals
    match splitWhitespace r.value with
    | [] | [_] | [_,_] =>
      rw [encodeFields_eq_none (by simp)]
      rfl
    | [_,_,_] | _::_::_::_::_ =>
      simp [map_eq_bind,bind_assoc,encodeFields,FieldKind.encode,HickoryData.octets]

/-- The types that are served by the encoder that signs them. -/
def opaqueKinds : List RecordKind := [.URI,.ZONEMD,.DNSKEY,.DS,.RRSIG,.NSEC]

theorem encode_ne_nil_of_number {s : Text} (hk : kind∈[FieldKind.u8,.u16,.u32])
    (h : kind.encode lib s=some bytes) : bytes≠[] := by
  simp only [mem_cons,not_mem_nil,or_false] at hk
  rcases hk with rfl | rfl | rfl <;>
  · obtain ⟨n,-,rfl⟩ := map_eq_some_iff.mp h
    simp [bigEndian]

theorem encodeFields_ne_nil
    (hk : kind∈[FieldKind.u8,.u16,.u32]) (h : encodeFields lib (kind::kinds) fields=some bytes) : bytes≠[] := by
  cases fields with
  | nil => cases h
  | cons field fields =>
    rw [encodeFields_cons] at h
    obtain ⟨first,hf,h⟩ := Option.bind_eq_some_iff.mp h
    obtain ⟨rest,-,rfl⟩ := map_eq_some_iff.mp h
    exact append_ne_nil_of_left_ne_nil (encode_ne_nil_of_number hk hf) rest

theorem canonicalRdata_ne_nil (h : r.recordType∈opaqueKinds) (hb : canonicalRdata lib r=some bytes) : bytes≠[] := by
  unfold canonicalRdata at hb
  simp only [opaqueKinds,mem_cons,not_mem_nil,or_false] at h
  rcases h with h | h | h | h | h | h <;> rw [h] at hb <;> dsimp only at hb
  · split at hb
    · obtain ⟨numbers,hn,hb⟩ := Option.bind_eq_some_iff.mp hb
      obtain ⟨target,-,hb⟩ := Option.bind_eq_some_iff.mp hb
      cases hb
      exact append_ne_nil_of_left_ne_nil (encodeFields_ne_nil (by decide) hn) _
    · cases hb
  · exact encodeFields_ne_nil (by decide) hb
  · exact encodeFields_ne_nil (by decide) hb
  · exact encodeFields_ne_nil (by decide) hb
  · obtain ⟨sig,-,hb⟩ := Option.bind_eq_some_iff.mp hb
    obtain ⟨signed,hs,rfl⟩ := map_eq_some_iff.mp hb
    obtain ⟨signer,-,rfl⟩ := map_eq_some_iff.mp hs
    simp [bigEndian]
  · obtain ⟨nsec,-,hb⟩ := Option.bind_eq_some_iff.mp hb
    obtain ⟨owner,ho,rfl⟩ := map_eq_some_iff.mp hb
    obtain ⟨labels,-,rfl⟩ := canonicalName_eq_rawWire ho
    simp [rawWire]

theorem servedOctets_opaque (h : r.recordType∈opaqueKinds) : servedOctets lib r=canonicalRdata lib r := by
  have hd : recordData lib r=opaqueRdata lib r := by
    unfold recordData
    simp only [opaqueKinds,mem_cons,not_mem_nil,or_false] at h
    rcases h with h | h | h | h | h | h <;> rw [h]
  unfold servedOctets
  rw [hd,opaqueRdata]
  cases hb : canonicalRdata lib r with
  | none => rfl
  | some bytes =>
    have hne := canonicalRdata_ne_nil h hb
    simp [hne,HickoryData.octets]

theorem isSome_findFrom {needle value : Text} (h : needle <:+: value) : (findFrom needle value).isSome := by
  obtain ⟨front,back,rfl⟩ := h
  rw [findFrom,find?_isSome]
  refine ⟨needle++back,(mem_tails _ _).mpr ⟨front,by rw [append_assoc]⟩,?_⟩
  exact isPrefixOf_iff_prefix.mpr (prefix_append needle back)

/-- The third field of a URI value is found in it, so that only the two numbers decide. -/
theorem canonicalRdata_uri (h : r.recordType=.URI) : canonicalRdata lib r =
    if 3 ≤ (splitWhitespace r.value).length then
      (encodeFields lib [.u16,.u16] (splitWhitespace r.value)).map (· ++ toUtf8 (uriTarget r))
    else none := by
  unfold canonicalRdata uriTarget
  rw [h]
  dsimp only
  rw [splitWhitespace_trim]
  match hf : splitWhitespace r.value with
  | [] | [_] | [_,_] => rfl
  | weight::port::target::rest =>
    have hm : target∈splitWhitespace (trim r.value) := by
      rw [splitWhitespace_trim,hf]
      simp
    obtain ⟨found,hfo⟩ := isSome_iff_exists.mp (isSome_findFrom (infix_of_mem_splitWhitespace hm))
    have hg : (weight::port::target::rest).getD 2 []=target := rfl
    rw [if_pos (by simp),hg]
    dsimp only
    rw [hfo]
    cases encodeFields lib [.u16,.u16] (weight::port::target::rest) <;> rfl

theorem isSome_canonicalRdata : (canonicalRdata lib r).isSome ↔ Signed lib r := by
  have hu := @canonicalRdata_uri lib r
  obtain ⟨name,kind,value,ttl,priority⟩ := r
  cases kind
  case URI =>
    rw [hu rfl]
    simp only [Signed,← isSome_encodeFields]
    split <;> simp_all
  case MX => simp only [canonicalRdata,Signed,canonicalName_trim]; split <;> simp_all
  case SRV => simp only [canonicalRdata,Signed,splitWhitespace_trim,← isSome_encodeFields]; split <;> simp_all
  case RRSIG =>
    simp only [canonicalRdata,Signed,rrsigParse_trim]
    cases Rrsig.parse lib value <;> simp [Rrsig.rdata,Rrsig.signedPrefix]
  case NSEC =>
    simp only [canonicalRdata,Signed,nsecParse_trim]
    cases Nsec.parse lib value <;> simp [Nsec.rdata]
  case SVCB | HTTPS =>
    simp only [canonicalRdata,Signed,svcbCanonicalRdata,parseSvcb_trim]
    cases parseSvcb lib value <;> simp [Svcb.wire]
  all_goals
    simp [canonicalRdata,Signed,canonicalName_trim,splitWhitespace_trim,isSome_encodeFields,soaSigned,sharedFormat]

/-- The types that are served in the octets that are signed. -/
def sharedKinds : List RecordKind := [.SSHFP,.TLSA,.CERT,.URI,.ZONEMD,.DNSKEY,.DS,.RRSIG,.NSEC]

theorem servedOctets_shared (h : r.recordType∈sharedKinds) : servedOctets lib r=canonicalRdata lib r := by
  by_cases ho : r.recordType∈opaqueKinds
  · exact servedOctets_opaque ho
  · have hf : r.recordType∈[.SSHFP,.TLSA,.CERT] := by
      simp [sharedKinds,opaqueKinds] at h ho ⊢
      tauto
    rw [servedOctets_fields hf]
    unfold canonicalRdata
    simp only [mem_cons,not_mem_nil,or_false] at hf
    rcases hf with h | h | h <;> simp [h,sharedFormat,splitWhitespace_trim]

theorem exists_of_encodeFields (h : encodeFields lib (kind::kinds) fields=some bytes) :
    ∃ field rest first more,fields=field::rest ∧ kind.encode lib field=some first ∧
      encodeFields lib kinds rest=some more ∧ bytes=first++more := by
  cases fields with
  | nil => cases h
  | cons field rest =>
    rw [encodeFields_cons] at h
    obtain ⟨first,hf,h⟩ := Option.bind_eq_some_iff.mp h
    obtain ⟨more,hm,rfl⟩ := map_eq_some_iff.mp h
    exact ⟨field,rest,first,more,rfl,hf,hm,rfl⟩

theorem length_encodeFields_u16_u16 (h : encodeFields lib [.u16,.u16] fields=some bytes) :
    bytes.length=4 := by
  obtain ⟨_,_,_,_,-,hf,ht,rfl⟩ := exists_of_encodeFields h
  obtain ⟨_,_,_,_,-,hs,hn,rfl⟩ := exists_of_encodeFields ht
  obtain ⟨_,-,rfl⟩ := map_eq_some_iff.mp hf
  obtain ⟨_,-,rfl⟩ := map_eq_some_iff.mp hs
  cases hn
  simp [bigEndian]

theorem length_canonicalRdata (h : r.recordType∈sharedKinds) (hb : canonicalRdata lib r=some bytes) :
    bytes.length=octetCount lib r := by
  have hu := @canonicalRdata_uri lib r
  obtain ⟨name,kind,value,ttl,priority⟩ := r
  change kind∈sharedKinds at h
  cases kind
  case URI =>
    rw [hu rfl] at hb
    split at hb
    · obtain ⟨numbers,hn,rfl⟩ := map_eq_some_iff.mp hb
      rw [length_append,length_encodeFields_u16_u16 hn]
      rfl
    · cases hb
  case RRSIG =>
    simp only [canonicalRdata,rrsigParse_trim] at hb
    obtain ⟨sig,hsg,hb⟩ := Option.bind_eq_some_iff.mp hb
    obtain ⟨signed,hs,rfl⟩ := map_eq_some_iff.mp hb
    obtain ⟨signer,hsi,rfl⟩ := map_eq_some_iff.mp hs
    simp only [octetCount,hsg,hsi,bigEndian,length_append,length_map,length_reverse,length_range,
      length_singleton,map_some,getD_some]
  case NSEC =>
    simp only [canonicalRdata,nsecParse_trim] at hb
    obtain ⟨nsec,hns,hb⟩ := Option.bind_eq_some_iff.mp hb
    obtain ⟨owner,ho,rfl⟩ := map_eq_some_iff.mp hb
    simp [octetCount,hns,ho]
  all_goals first
    | exact absurd h (by decide)
    | simp only [canonicalRdata,splitWhitespace_trim] at hb
      exact length_encodeFields hb

theorem length_rawWire (n : RawName) : (rawWire fold n).length=(rawWire id n).length := by
  simp [rawWire,length_flatMap]

theorem length_octets (svcb : Svcb) : (svcb.octets fold).length=(svcb.octets id).length := by
  simp [Svcb.octets,length_rawWire fold]

/-- A served name has at most 255 octets. -/
theorem length_encode_ascii (hl : lib.Lawful) (hk : kind∈[FieldKind.u16,.u32,.i32,.asciiName]) {s : Text}
    (h : kind.encode lib s=some bytes) : bytes.length ≤ 255 := by
  simp only [mem_cons,not_mem_nil,or_false] at hk
  rcases hk with rfl | rfl | rfl | rfl
  case inr.inr.inr =>
    obtain ⟨n,hn,rfl⟩ := map_eq_some_iff.mp h
    rw [length_rawWire]
    exact hl.nameFromAscii_length hn
  all_goals
    obtain ⟨n,-,rfl⟩ := map_eq_some_iff.mp h
    simp [bigEndian]

theorem length_encodeFields_le (hli : lib.Lawful)
    (hk : ∀ kind∈kinds,kind∈[FieldKind.u16,.u32,.i32,.asciiName]) (h : encodeFields lib kinds fields=some bytes) :
    bytes.length ≤ 255*kinds.length := by
  induction kinds generalizing fields bytes with
  | nil => cases h; simp
  | cons kind kinds ih =>
    obtain ⟨hki,hk⟩ := forall_mem_cons.mp hk
    obtain ⟨field,rest,first,more,rfl,hf,hm,rfl⟩ := exists_of_encodeFields h
    have hl := length_encode_ascii hli hki hf
    have hm := ih hk hm
    rw [length_append,length_cons]
    omega

theorem isSome_filter_of_le {octets : Option Bytes} (h : ∀ bytes,octets=some bytes → bytes.length ≤ maxRdata) :
    (octets.filter (·.length ≤ maxRdata)).isSome=octets.isSome := by
  cases octets with
  | none => rfl
  | some bytes => simp [Option.filter,h bytes rfl]

theorem isSome_servedOctets (hli : lib.Lawful) :
    ((servedOctets lib r).filter (·.length ≤ maxRdata)).isSome ↔ Servable lib r := by
  by_cases hs : r.recordType∈sharedKinds
  · rw [servedOctets_shared hs]
    have ht : Servable lib r ↔ Signed lib r ∧ octetCount lib r ≤ maxRdata := by
      unfold Servable
      revert hs
      cases r.recordType
      case SSHFP | TLSA | CERT | URI | ZONEMD | DNSKEY | DS | RRSIG | NSEC => exact fun _ => Iff.rfl
      all_goals exact fun h => absurd h (by decide)
    rw [ht,← isSome_canonicalRdata]
    cases hb : canonicalRdata lib r with
    | none => simp
    | some bytes => simp [Option.filter,length_canonicalRdata hs hb]
  · have hso := @servedOctets_soa lib r
    have hsr := @servedOctets_srv lib r
    obtain ⟨name,kind,value,ttl,priority⟩ := r
    change kind∉sharedKinds at hs
    cases kind
    case SOA =>
      rw [hso rfl,isSome_filter_of_le]
      · exact isSome_encodeFields
      · intro bytes hb
        exact (length_encodeFields_le hli (by decide) hb).trans (by decide)
    case SRV =>
      rw [hsr rfl,isSome_filter_of_le,isSome_map]
      · exact isSome_encodeFields
      · intro bytes hb
        obtain ⟨rest,hr,rfl⟩ := map_eq_some_iff.mp hb
        have hl := length_encodeFields_le hli (by decide) hr
        simp only [bigEndian,length_append,length_map,length_reverse,length_range,maxRdata]
        simp only [length_cons,length_nil] at hl
        omega
    case A =>
      simp only [servedOctets,recordData,Servable]
      cases lib.parseIpv4 value <;> simp [HickoryData.octets,Option.filter,bigEndian,maxRdata]
    case AAAA =>
      simp only [servedOctets,recordData,Servable]
      cases lib.parseIpv6 value <;> simp [HickoryData.octets,Option.filter,bigEndian,maxRdata]
    case CNAME | NS | PTR | DNAME =>
      simp only [servedOctets,recordData,Servable]
      cases hn : lib.nameFromAscii value with
      | none => simp
      | some target =>
        have hf : (rawWire asciiLower target).length ≤ maxRdata :=
          (length_rawWire asciiLower target).le.trans ((hli.nameFromAscii_length hn).trans (by decide))
        simp [HickoryData.octets,Option.filter,hf]
    case MX =>
      simp only [servedOctets,recordData,Servable]
      cases hn : lib.nameFromAscii value with
      | none => simp
      | some target =>
        have hl := (length_rawWire asciiLower target).le.trans (hli.nameFromAscii_length hn)
        have hf : 2+(rawWire asciiLower target).length ≤ maxRdata := by
          unfold maxRdata
          omega
        simp [HickoryData.octets,Option.filter,bigEndian,hf]
    case TXT | ANAME =>
      simp only [servedOctets,recordData,Servable,bind_some,HickoryData.octets]
      by_cases hsh : (toUtf8 value).length ≤ 255
      · simp [hsh,Option.filter,maxRdata]
        omega
      · simp [hsh]
    case SVCB | HTTPS =>
      simp only [servedOctets,recordData,Servable,Signed]
      cases parseSvcb lib value with
      | none => simp
      | some svcb =>
        by_cases he : svcb.encodable
        · have hl : (svcb.octets asciiLower).length ≤ maxRdata := by
            rw [length_octets]
            simp only [Svcb.encodable,Bool.and_eq_true,decide_eq_true_eq] at he
            exact he.2
          simp [HickoryData.octets,Svcb.wire,he,Option.filter,hl]
        · simp [HickoryData.octets,Svcb.wire,he]
    case NSEC3 | NSEC3PARAM => simp [servedOctets,recordData,Servable]
    all_goals exact absurd (by decide) hs

end

section
variable {lib : FormatLibrary} {r : DnsRecord} {signed served : Bytes} {fields : List Text} {s : Text} {n : RawName}

/-- The type that a value is served under. -/
def servedCode : RecordKind → UInt16
  | .DNAME => 5
  | .ANAME => 16
  | kind => wireType kind

theorem code_recordData {data : HickoryData} (h : recordData lib r=some data) : data.code=servedCode r.recordType := by
  have he : r.recordType∈opaqueKinds → recordData lib r=opaqueRdata lib r := by
    unfold recordData
    cases r.recordType
    case URI | ZONEMD | DNSKEY | DS | RRSIG | NSEC => exact fun _ => rfl
    all_goals exact fun h => absurd h (by decide)
  by_cases hk : r.recordType∈opaqueKinds
  · rw [he hk] at h
    obtain ⟨bytes,-,h⟩ := Option.bind_eq_some_iff.mp h
    split at h
    · cases h
    · cases h
      revert hk
      cases r.recordType
      case DNAME | ANAME => exact fun h => absurd h (by decide)
      all_goals exact fun _ => rfl
  · unfold recordData at h
    revert h hk
    cases r.recordType <;> intro h hk
    case TXT | ANAME => cases h; rfl
    case NSEC3 | NSEC3PARAM => cases h
    case SOA | SRV | SSHFP | TLSA | CERT =>
      dsimp only at h
      split at h
      · simp only [Option.bind_eq_bind,Option.bind_eq_some_iff,Option.pure_def,Option.some.injEq] at h
        obtain ⟨_,-,_,-,_,-,_,-,_,-,_,-,_,-,rfl⟩ := h
        rfl
      · cases h
    case URI | ZONEMD | DNSKEY | DS | RRSIG | NSEC => exact absurd (by decide) hk
    all_goals
      obtain ⟨_,-,rfl⟩ := map_eq_some_iff.mp h
      rfl

theorem readsAlike_iff {bytes : Bytes} (hs : lib.nameFromAscii s=some n)
    (hsi : canonicalName lib s=some bytes) : ReadsAlike lib s ↔ rawWire asciiLower n=bytes := by
  rw [ReadsAlike,hs,hsi]
  simp

private theorem parseDigits_minus (rest : Text) : parseDigits ('-' :: rest)=none := by
  have hn (s : Text) : s.foldl (fun acc c => acc.bind fun n => if c.isDigit then some (10*n+(c.toNat - 48)) else none)
      (none : Option Nat)=none := by
    induction s with
    | nil => rfl
    | cons c s ih => exact ih
  exact hn rest

/-- A number that can be read with and without a sign is the same number. -/
theorem encode_i32_eq (hs : FieldKind.u32.encode lib s=some signed)
    (hse : FieldKind.i32.encode lib s=some served) : served=signed := by
  obtain ⟨x,hx,rfl⟩ := map_eq_some_iff.mp hs
  obtain ⟨y,hy,rfl⟩ := map_eq_some_iff.mp hse
  unfold parseI32 at hy
  split at hy
  · rename_i rest
    have hno : parseUnsigned (2^32) ('-' :: rest)=none := by
      have hd : parseUnsigned (2^32) ('-' :: rest)=(parseDigits ('-' :: rest)).filter (· < 2^32) := rfl
      rw [hd,parseDigits_minus]
      rfl
    rw [hno] at hx
    cases hx
  · obtain ⟨n,hn,rfl⟩ := map_eq_some_iff.mp hy
    obtain ⟨hn,hlt⟩ := filter_eq_some_iff.mp hn
    obtain ⟨hx,-⟩ := filter_eq_some_iff.mp hx
    obtain rfl : n=x := Option.some.inj (hn.symm.trans hx)
    have hlt : n<2^31 := by simpa using hlt
    have hm : (Int.ofNat n % 2^32).toNat=n := by
      rw [Int.ofNat_eq_natCast]
      omega
    rw [hm]

theorem encodeFields_eq_of_forall {kinds kinds' : List FieldKind}
    (h : List.Forall₂ (fun kind kind' => ∀ s x y,kind.encode lib s=some x → kind'.encode lib s=some y →
      y=x) kinds kinds')
    (hs : encodeFields lib kinds fields=some signed) (hse : encodeFields lib kinds' fields=some served) :
    served=signed := by
  induction h generalizing fields signed served with
  | nil =>
    cases hs
    cases hse
    rfl
  | cons hk _ ih =>
    obtain ⟨field,rest,x,xs,rfl,hx,hxs,rfl⟩ := exists_of_encodeFields hs
    obtain ⟨_,_,y,ys,hf,hy,hys,rfl⟩ := exists_of_encodeFields hse
    cases hf
    rw [hk _ _ _ hx hy,ih hxs hys]

/-- Where two names follow each other on the wire does not depend on what is after them. -/
theorem wire_append_inj (hli : lib.Lawful) {s : Text} {n : RawName} {bytes x y : Bytes}
    (hs : lib.nameFromAscii s=some n)
    (hsi : canonicalName lib s=some bytes) (h : rawWire asciiLower n++x=bytes++y) :
    rawWire asciiLower n=bytes ∧ x=y := by
  have hf : rawWire asciiLower n=rawWire id (n.map (map asciiLower)) := by
    simp [rawWire,flatMap_map]
  have hb : ∀ l∈n.map (map asciiLower),l≠[] ∧ l.length ≤ 63 := by
    intro l hl
    obtain ⟨l,hl',rfl⟩ := mem_map.mp hl
    simpa using hli.nameFromAscii_labels hs l hl'
  obtain ⟨labels,hla,rfl⟩ := canonicalName_eq_rawWire hsi
  rw [hf] at h ⊢
  obtain ⟨heq,hr⟩ := rawWire_append_inj hb hla h
  exact ⟨by rw [heq],hr⟩

theorem same_soa (hl : lib.Lawful)
    (hs : encodeFields lib soaSigned fields=some signed) (hse : encodeFields lib soaServed fields=some served) :
    served=signed ↔ ReadsAlike lib (fields.getD 0 []) ∧ ReadsAlike lib (fields.getD 1 []) := by
  obtain ⟨mname,rest,m,more,rfl,hm,hmo,rfl⟩ := exists_of_encodeFields hs
  obtain ⟨rname,rest,n,numbers,rfl,hn,hnu,rfl⟩ := exists_of_encodeFields hmo
  obtain ⟨_,_,m',more',hf,hm',hmo',rfl⟩ := exists_of_encodeFields hse
  cases hf
  obtain ⟨_,_,n',numbers',hf,hn',hnu',rfl⟩ := exists_of_encodeFields hmo'
  cases hf
  -- the numbers are the same whenever both readers take them
  have hsa : numbers'=numbers := by
    refine encodeFields_eq_of_forall ?_ hnu hnu'
    refine .cons (fun _ _ _ => ?_) (.cons (fun _ _ _ => encode_i32_eq) (.cons (fun _ _ _ => encode_i32_eq)
      (.cons (fun _ _ _ => encode_i32_eq) (.cons (fun _ _ _ => ?_) .nil))))
    all_goals exact fun hx hy => Option.some.inj (hy.symm.trans hx)
  obtain ⟨mraw,hmr,rfl⟩ := map_eq_some_iff.mp hm'
  obtain ⟨nraw,hnr,rfl⟩ := map_eq_some_iff.mp hn'
  change rawWire asciiLower mraw++(rawWire asciiLower nraw++numbers')=m++(n++numbers) ↔ ReadsAlike lib mname ∧
    ReadsAlike lib rname
  rw [readsAlike_iff hmr hm,readsAlike_iff hnr hn,hsa]
  refine ⟨fun h => ?_,fun h => by rw [h.1,h.2]⟩
  obtain ⟨hmn,hr⟩ := wire_append_inj hl hmr hm h
  exact ⟨hmn,(wire_append_inj hl hnr hn hr).1⟩

theorem same_srv (hs : encodeFields lib [.u16,.u16,.name] fields=some signed)
    (hse : encodeFields lib [.u16,.u16,.asciiName] fields=some served) :
    served=signed ↔ ReadsAlike lib (fields.getD 2 []) := by
  obtain ⟨weight,rest,w,_,rfl,hw,hta,rfl⟩ := exists_of_encodeFields hs
  obtain ⟨port,rest,p,_,rfl,hp,hl,rfl⟩ := exists_of_encodeFields hta
  obtain ⟨target,rest,t,_,rfl,ht,hn,rfl⟩ := exists_of_encodeFields hl
  cases hn
  obtain ⟨_,_,w',_,hf,hw',hta',rfl⟩ := exists_of_encodeFields hse
  cases hf
  obtain ⟨_,_,p',_,hf,hp',hl',rfl⟩ := exists_of_encodeFields hta'
  cases hf
  obtain ⟨_,_,t',_,hf,ht',hn',rfl⟩ := exists_of_encodeFields hl'
  cases hf
  cases hn'
  obtain rfl : w'=w := Option.some.inj (hw'.symm.trans hw)
  obtain rfl : p'=p := Option.some.inj (hp'.symm.trans hp)
  obtain ⟨raw,hr,rfl⟩ := map_eq_some_iff.mp ht'
  change _ ↔ ReadsAlike lib target
  rw [readsAlike_iff hr ht]
  simp

theorem chunks_of_le {size : Nat} {bytes : Bytes} (hne : bytes≠[]) (hle : bytes.length ≤ size) :
    chunks size bytes=[bytes] := by
  have hp := length_pos_iff.mpr hne
  have hn : chunks size []=[] := by
    rw [chunks]
    simp
  rw [chunks,dif_neg (by rintro (h | h) <;> [exact hne h; omega]),take_of_length_le hle,drop_of_length_le hle,hn]

theorem length_toUtf8_trim_le (value : Text) : (toUtf8 (trim value)).length ≤ (toUtf8 value).length := by
  obtain ⟨back,hb⟩ := rdropWhile_prefix isWhitespace (value.dropWhile isWhitespace)
  obtain ⟨front,hf⟩ := dropWhile_suffix isWhitespace (l := value)
  change trim value++back=_ at hb
  rw [← hb] at hf
  have hl := congrArg (fun s : Text => (toUtf8 s).length) hf
  simp only [toUtf8,flatMap_append,length_append] at hl ⊢
  omega

theorem same_txt {value : Text} (h : (toUtf8 value).length ≤ 255) :
    UInt8.ofNat (toUtf8 value).length::toUtf8 value=characterStrings (trim value) ↔ trim value=value := by
  have hs (text : Text) (ht : (toUtf8 text).length ≤ 255) :
      characterStrings text=UInt8.ofNat (toUtf8 text).length::toUtf8 text := by
    unfold characterStrings
    split
    · rename_i hn
      rw [isEmpty_iff.mp hn]
      rfl
    · rename_i hne
      have hne : toUtf8 text≠[] := fun hn => hne (isEmpty_iff.mpr (toUtf8_injective (hn.trans rfl)))
      rw [chunks_of_le hne ht,flatMap_singleton]
  rw [hs (trim value) ((length_toUtf8_trim_le value).trans h)]
  constructor
  · intro heq
    exact (toUtf8_injective (cons.inj heq).2).symm
  · intro heq
    rw [heq]

theorem rawWire_asciiLower_eq_iff : rawWire asciiLower n=rawWire id n ↔ ∀ label∈n,label.map asciiLower=label := by
  have hc (fold : UInt8 → UInt8) (l : Bytes) (n : RawName) :
      rawWire fold (l::n)=UInt8.ofNat l.length::(l.map fold++rawWire fold n) := by
    simp [rawWire]
  induction n with
  | nil => simp [rawWire]
  | cons l n ih =>
    rw [hc,hc,forall_mem_cons]
    constructor
    · intro heq
      obtain ⟨hl,hn⟩ := append_inj (cons.inj heq).2 (by simp)
      exact ⟨hl.trans (map_id l),ih.mp hn⟩
    · rintro ⟨hl,hn⟩
      rw [hl,ih.mpr hn,List.map_id]

theorem same_svcb {svcb : Svcb} :
    svcb.octets asciiLower=svcb.octets id ↔ ∀ label∈svcb.target,label.map asciiLower=label := by
  rw [← rawWire_asciiLower_eq_iff]
  simp [Svcb.octets]

/-- Where a value can be both signed and served, its octets are the same if what is read is. -/
theorem same_iff (hl : lib.Lawful) (hs : canonicalRdata lib r=some signed)
    (hse : servedOctets lib r=some served) :
    (servedCode r.recordType=wireType r.recordType ∧ served=signed) ↔ Same lib r := by
  by_cases hsh : r.recordType∈sharedKinds
  · have ht : servedCode r.recordType=wireType r.recordType ∧ Same lib r := by
      unfold Same
      revert hsh
      cases r.recordType
      case SSHFP | TLSA | CERT | URI | ZONEMD | DNSKEY | DS | RRSIG | NSEC => exact fun _ => ⟨rfl,trivial⟩
      all_goals exact fun h => absurd h (by decide)
    rw [servedOctets_shared hsh,hs] at hse
    exact ⟨fun _ => ht.2,fun _ => ⟨ht.1,(Option.some.inj hse).symm⟩⟩
  · have hsa := @servedOctets_soa lib r
    have hsr := @servedOctets_srv lib r
    obtain ⟨name,kind,value,ttl,priority⟩ := r
    change kind∉sharedKinds at hsh
    cases kind
    case SOA =>
      rw [hsa rfl] at hse
      simp only [canonicalRdata,splitWhitespace_trim] at hs
      exact (and_iff_right rfl).trans (same_soa hl hs hse)
    case SRV =>
      rw [hsr rfl] at hse
      simp only [canonicalRdata,splitWhitespace_trim] at hs
      split at hs
      · rename_i hp
        obtain ⟨x,hx,rfl⟩ := map_eq_some_iff.mp hs
        obtain ⟨y,hy,rfl⟩ := map_eq_some_iff.mp hse
        rw [UInt16.toNat_ofNat_of_lt' hp,append_cancel_left_eq]
        exact (and_iff_right rfl).trans (same_srv hx hy)
      · cases hs
    case A | AAAA =>
      obtain ⟨ip,hip,rfl⟩ := map_eq_some_iff.mp hs
      obtain ⟨_,hd,ho⟩ := Option.bind_eq_some_iff.mp hse
      obtain ⟨ip',hip',rfl⟩ := map_eq_some_iff.mp hd
      first | rw [hl.parseIpv4_trim hip',hip'] at hip | rw [hl.parseIpv6_trim hip',hip'] at hip
      cases hip
      exact ⟨fun _ => trivial,fun _ => ⟨rfl,(Option.some.inj ho).symm⟩⟩
    case CNAME | NS | PTR =>
      simp only [canonicalRdata,canonicalName_trim] at hs
      obtain ⟨_,hd,ho⟩ := Option.bind_eq_some_iff.mp hse
      obtain ⟨raw,hr,rfl⟩ := map_eq_some_iff.mp hd
      cases ho
      exact (and_iff_right rfl).trans (readsAlike_iff hr hs).symm
    case DNAME =>
      have hc : servedCode .DNAME≠wireType .DNAME := by decide
      exact ⟨fun h => hc h.1,False.elim⟩
    case MX =>
      simp only [canonicalRdata,canonicalName_trim] at hs
      split at hs
      · rename_i hp
        obtain ⟨x,hx,rfl⟩ := map_eq_some_iff.mp hs
        obtain ⟨_,hd,ho⟩ := Option.bind_eq_some_iff.mp hse
        obtain ⟨raw,hr,rfl⟩ := map_eq_some_iff.mp hd
        cases ho
        rw [UInt16.toNat_ofNat_of_lt' hp,append_cancel_left_eq]
        exact (and_iff_right rfl).trans (readsAlike_iff hr hx).symm
      · cases hs
    case TXT =>
      cases hs
      obtain ⟨_,hd,ho⟩ := Option.bind_eq_some_iff.mp hse
      cases hd
      simp only [HickoryData.octets] at ho
      split at ho
      · rename_i hso
        cases ho
        rw [flatMap_singleton]
        exact (and_iff_right rfl).trans (same_txt (by simpa using hso))
      · cases ho
    case ANAME => cases hs
    case SVCB | HTTPS =>
      simp only [canonicalRdata,svcbCanonicalRdata,parseSvcb_trim] at hs
      obtain ⟨svcb,hsv,hw⟩ := Option.bind_eq_some_iff.mp hs
      obtain ⟨_,hd,ho⟩ := Option.bind_eq_some_iff.mp hse
      obtain ⟨svcb',hsv',rfl⟩ := map_eq_some_iff.mp hd
      obtain rfl : svcb'=svcb := Option.some.inj (hsv'.symm.trans hsv)
      simp only [HickoryData.octets] at ho
      unfold Svcb.wire at hw ho
      split at hw
      · rename_i he
        rw [if_pos he] at ho
        cases hw
        cases ho
        refine (and_iff_right rfl).trans (same_svcb.trans ⟨fun h other hot => ?_,fun h => h _ hsv⟩)
        obtain rfl : other=svcb' := Option.some.inj (hot.symm.trans hsv)
        exact h
      · cases hw
    case NSEC3 | NSEC3PARAM => cases hs
    all_goals exact absurd (by decide) hsh

theorem servedRdata_eq : servedRdata lib r =
    if (lib.nameFromAscii r.name).isSome then
      ((servedOctets lib r).filter (·.length ≤ maxRdata)).map (servedCode r.recordType,·)
    else none := by
  unfold servedRdata dbRecordToDnsRecord servedOctets
  cases hn : lib.nameFromAscii r.name with
  | none => simp
  | some name =>
    cases hd : recordData lib r with
    | none => simp
    | some data =>
      rw [← code_recordData hd]
      cases ho : data.octets <;> simp [HickoryData.canonicalWire,ho,Option.filter]
      split <;> rfl

end

section
variable (lib : FormatLibrary) (r : DnsRecord)

/-- A record has canonical RDATA exactly if it is served, and then it is served as the type and in the
octets that are signed. -/
def SignedIsServed : Prop :=
  ((canonicalRdata lib r).isSome ↔ (servedRdata lib r).isSome) ∧
    ∀ bytes code wire,canonicalRdata lib r=some bytes → servedRdata lib r=some (code,wire) →
      code=wireType r.recordType ∧ wire=bytes

variable {lib}

/-- What is signed is what is served for a value that can be signed only if its owner can be read, it can
be served, and both readings are the same; for any other value, only if it is not served. -/
theorem signed_is_served_iff (hlib : lib.Lawful) : SignedIsServed lib r ↔
    (Signed lib r → (lib.nameFromAscii r.name).isSome ∧ Servable lib r ∧ Same lib r) ∧
      ((lib.nameFromAscii r.name).isSome ∧ Servable lib r → Signed lib r) := by
  have hsr : (servedRdata lib r).isSome ↔ (lib.nameFromAscii r.name).isSome ∧ Servable lib r := by
    rw [servedRdata_eq,← isSome_servedOctets hlib]
    split <;> simp_all
  unfold SignedIsServed
  rw [isSome_canonicalRdata,hsr]
  have hsa {bytes wire : Bytes} (hs : canonicalRdata lib r=some bytes) {code : UInt16}
      (hw : servedRdata lib r=some (code,wire)) : (code=wireType r.recordType ∧ wire=bytes) ↔ Same lib r := by
    rw [servedRdata_eq] at hw
    split at hw
    · obtain ⟨octets,hoc,hp⟩ := map_eq_some_iff.mp hw
      cases hp
      exact same_iff hlib hs (filter_eq_some_iff.mp hoc).1
    · cases hw
  constructor
  · rintro ⟨hi,he⟩
    refine ⟨fun hs => ?_,hi.mpr⟩
    obtain ⟨ho,hse⟩ := hi.mp hs
    obtain ⟨bytes,hb⟩ := isSome_iff_exists.mp (isSome_canonicalRdata.mpr hs)
    obtain ⟨⟨code,wire⟩,hw⟩ := isSome_iff_exists.mp (hsr.mpr ⟨ho,hse⟩)
    exact ⟨ho,hse,(hsa hb hw).mp (he bytes code wire hb hw)⟩
  · rintro ⟨hs,hba⟩
    refine ⟨⟨fun h => ⟨(hs h).1,(hs h).2.1⟩,hba⟩,fun bytes code wire hb hw => ?_⟩
    exact (hsa hb hw).mpr (hs (isSome_canonicalRdata.mp (by rw [hb]; rfl))).2.2

/-- An alias from one name to another is signed and served alike. -/
theorem signed_is_served_iff_cname :
    SignedIsServed plainFormats ⟨"a.example.",.CNAME,"B.example",300,0⟩ :=
  (signed_is_served_iff _ plainFormats_lawful).mpr
    ⟨fun _ => ⟨by decide,by unfold Servable; decide,by unfold Same ReadsAlike; decide⟩,
      fun _ => by unfold Signed; decide⟩

/-- A DNAME is signed as one and served as a CNAME; text of 300 octets is signed in two strings and cannot
be served in one. -/
theorem signed_is_not_served :
    ¬ SignedIsServed plainFormats ⟨"a.example.",.DNAME,"b.example.",300,0⟩ ∧
      ¬ SignedIsServed plainFormats ⟨"a.example.",.TXT,replicate 300 'x',300,0⟩ := by
  constructor
  · intro h
    have hsi : canonicalRdata plainFormats ⟨"a.example.",.DNAME,"b.example.",300,0⟩ =
        some [1,98,7,101,120,97,109,112,108,101,0] := by decide
    have hs : servedRdata plainFormats ⟨"a.example.",.DNAME,"b.example.",300,0⟩ =
        some (5,[1,98,7,101,120,97,109,112,108,101,0]) := by decide
    exact absurd (h.2 _ _ _ hsi hs).1 (by decide)
  · intro h
    have hs : servedRdata plainFormats ⟨"a.example.",.TXT,replicate 300 'x',300,0⟩=none := by
      decide +kernel
    have hso := h.1.mp rfl
    rw [hs] at hso
    cases hso

end

end RolodexDns.ServedRecords
