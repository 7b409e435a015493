import RolodexDns.CanonicalNames
import RolodexDns.TextFields

/-! The RDATA that is signed: each stored value, read by the format of its type and written in canonical
form. A value that cannot be read has none. -/
namespace RolodexDns.StoredRdata
open DomainNames StoredRecords RecordConversions TextFields List

abbrev Bytes := List UInt8

/-- The labels of a name as they are written, upper case included. -/
abbrev RawName := List Bytes

/-- Reading and writing that is left to other libraries: letter case outside of ASCII, addresses, base64,
and names with their escapes. -/
structure FormatLibrary where
  toLowercase : Text → Text
  toUppercase : Text → Text
  parseIpv4 : Text → Option (BitVec 32)
  parseIpv6 : Text → Option (BitVec 128)
  base64Encode : Bytes → Text
  base64Decode : Text → Option Bytes
  nameFromAscii : Text → Option RawName
  nameFromUtf8 : Text → Option RawName

def maxRdata : Nat := 65535

/-- The IANA code of a type; that of ANAME is a draft's. -/
def wireType : RecordKind → UInt16
  | .A => 1
  | .NS => 2
  | .CNAME => 5
  | .SOA => 6
  | .PTR => 12
  | .MX => 15
  | .TXT => 16
  | .AAAA => 28
  | .SRV => 33
  | .CERT => 37
  | .DNAME => 39
  | .DS => 43
  | .SSHFP => 44
  | .RRSIG => 46
  | .NSEC => 47
  | .DNSKEY => 48
  | .NSEC3 => 50
  | .NSEC3PARAM => 51
  | .TLSA => 52
  | .ZONEMD => 63
  | .SVCB => 64
  | .HTTPS => 65
  | .URI => 256
  | .ANAME => 65305

def allKinds : List RecordKind :=
  [.A,.AAAA,.CNAME,.MX,.TXT,.NS,.SOA,.SRV,.PTR,.URI,.SSHFP,.DNAME,.ANAME,.ZONEMD,.TLSA,.DNSKEY,.DS,
    .RRSIG,.NSEC,.NSEC3,.NSEC3PARAM,.CERT,.SVCB,.HTTPS]

theorem asStr_injective : Function.Injective RecordKind.asStr := by
  have hf (kind : RecordKind) : allKinds.find? (·.asStr=kind.asStr)=some kind := by cases kind <;> decide
  intro a b h
  exact Option.some.inj ((hf a).symm.trans (h ▸ hf b))

section
variable (lib : FormatLibrary)

def parseKind (s : Text) : Option RecordKind := allKinds.find? fun kind => lib.toUppercase s=kind.asStr

theorem parseKind_asStr {lib : FormatLibrary} (h : ∀ kind : RecordKind,lib.toUppercase kind.asStr=kind.asStr)
    (kind : RecordKind) :
    parseKind lib kind.asStr=some kind := by
  unfold parseKind
  simp only [h]
  cases kind <;> decide

def labelWire (label : Text) : Option Bytes :=
  if label.isEmpty || 63<(toUtf8 label).length then none
  else some (UInt8.ofNat (toUtf8 label).length::toUtf8 label)

/-- A name in canonical form: lower case and uncompressed. Whatever is not a dot may be in a label. -/
def canonicalName (name : Text) : Option Bytes :=
  let trimmed := trimEndDots (lib.toLowercase (trim name))
  if trimmed.isEmpty then some [0]
  else ((trimmed.splitOn '.').mapM labelWire).map fun labels => labels.flatten++[0]

def chunks (size : Nat) (bytes : Bytes) : List Bytes :=
  if h : bytes=[] ∨ size=0 then [] else bytes.take size::chunks size (bytes.drop size)
termination_by bytes.length
decreasing_by
  rw [length_drop]
  have hlength := length_pos_iff.mpr fun hnil => h (.inl hnil)
  omega

/-- Text as character strings, of 255 octets at most. -/
def characterStrings (value : Text) : Bytes :=
  if value.isEmpty then [0] else (chunks 255 (toUtf8 value)).flatMap fun chunk => UInt8.ofNat chunk.length::chunk

def rawWire (fold : UInt8 → UInt8) (name : RawName) : Bytes :=
  name.flatMap (fun label => UInt8.ofNat label.length::label.map fold)++[0]

/-- How a field of a value is read. The last two formats are those of the protocol library. -/
inductive FieldKind where
  | u8
  | u16
  | u32
  | hex
  | base64
  | name
  | asciiName
  | i32
deriving DecidableEq

def FieldKind.encode : FieldKind → Text → Option Bytes
  | u8, s => (parseUnsigned (2^8) s).map (bigEndian 1)
  | u16, s => (parseUnsigned (2^16) s).map (bigEndian 2)
  | u32, s => (parseUnsigned (2^32) s).map (bigEndian 4)
  | hex, s => hexDecode s
  | base64, s => lib.base64Decode s
  | name, s => canonicalName lib s
  | asciiName, s => (lib.nameFromAscii s).map (rawWire asciiLower)
  | i32, s => (parseI32 s).map fun n => bigEndian 4 (n % 2^32).toNat

/-- The first fields, each in its format; what follows them is not looked at. -/
def encodeFields : List FieldKind → List Text → Option Bytes
  | [], _ => some []
  | _::_, [] => none
  | kind::kinds, field::fields => do
    let bytes ← kind.encode lib field
    let rest ← encodeFields kinds fields
    return bytes++rest

end

section

inductive SvcParamValue where
  | alpn (tokens : List Text)
  | noDefaultAlpn
  | port (number : Nat)
  | unknown (bytes : Bytes)
deriving DecidableEq

structure Svcb where
  priority : Nat
  target : RawName
  params : List (Nat × SvcParamValue)
deriving DecidableEq

variable (lib : FormatLibrary) (fold : UInt8 → UInt8) (svcb : Svcb) (value : Text)

/-- What precedes an equals sign and what follows it. -/
def splitOnce (field : Text) : Text × Option Text :=
  match field.dropWhile (· ≠ '=') with
  | [] => (field,none)
  | _::value => (field.takeWhile (· ≠ '='),some value)

def parseParam (key : Text) (value : Option Text) : Option (Nat × SvcParamValue) :=
  if key = "alpn" then do
    let tokens := ((← value).splitOn ',').filter (· ≠ [])
    if tokens.isEmpty then none else some (1,.alpn tokens)
  else if key = "no-default-alpn" then
    if value.isSome then none else some (2,.noDefaultAlpn)
  else if key = "port" then do
    return (3,.port (← parseUnsigned (2^16) (← value)))
  else if key = "dohpath" then do
    let path ← value
    if path.head?=some '/' then some (7,.unknown (toUtf8 path)) else none
  else do
    let number ← parseUnsigned (2^16) (← dropPrefix? key "key")
    return (number,.unknown ((value.map toUtf8).getD []))

def parseTarget (raw : Text) : Option RawName := if raw=['.'] then some [] else lib.nameFromUtf8 raw

/-- The presentation format of SVCB and HTTPS. The parameters are put in the order of their keys. -/
def parseSvcb : Option Svcb :=
  match splitWhitespace value with
  | priority::target::fields => do
    let priority ← parseUnsigned (2^16) priority
    let target ← parseTarget lib target
    let params ← fields.mapM fun field => parseParam (splitOnce field).1 (splitOnce field).2
    if priority=0 && !params.isEmpty then none
    else
      let sorted := params.insertionSort fun a b => a.1 ≤ b.1
      if (sorted.zip sorted.tail).any fun pair => pair.1.1=pair.2.1 then none
      else some ⟨priority,target,sorted⟩
  | _ => none

def SvcParamValue.wire : SvcParamValue → Bytes
  | .alpn tokens => tokens.flatMap fun token => UInt8.ofNat (toUtf8 token).length::toUtf8 token
  | .noDefaultAlpn => []
  | .port number => bigEndian 2 number
  | .unknown bytes => bytes

def Svcb.octets : Bytes :=
  bigEndian 2 svcb.priority++rawWire fold svcb.target ++
    svcb.params.flatMap fun param => bigEndian 2 param.1++bigEndian 2 param.2.wire.length++param.2.wire

/-- A protocol identifier has at most 255 octets, and all of it fits into a message. -/
def Svcb.encodable : Bool :=
  (svcb.params.all fun param => match param.2 with
    | .alpn tokens => tokens.all fun token => (toUtf8 token).length ≤ 255
    | _ => true) && (svcb.octets id).length ≤ maxRdata

def Svcb.wire : Option Bytes :=
  if svcb.encodable then some (svcb.octets fold) else none

/-- The served record as it is encoded, names as they are written. -/
def svcbCanonicalRdata : Option Bytes := (parseSvcb lib value).bind (Svcb.wire id)

end

section

inductive DnssecAlgorithm where
  | rsaSha256
  | ecdsaP256Sha256
  | ecdsaP384Sha384
  | ed25519
deriving DecidableEq

def DnssecAlgorithm.number : DnssecAlgorithm → UInt8
  | rsaSha256 => 8
  | ecdsaP256Sha256 => 13
  | ecdsaP384Sha384 => 14
  | ed25519 => 15

variable (lib : FormatLibrary) (sig : Rrsig)

def DnssecAlgorithm.parse (s : Text) : Option DnssecAlgorithm :=
  let lower := lib.toLowercase s
  if lower∈["rsa-sha256".toList,"rsasha256".toList,"8".toList] then some rsaSha256
  else if lower∈["ecdsa-p256".toList,"ecdsap256sha256".toList,"ecdsa-p256-sha256".toList,"13".toList] then
    some ecdsaP256Sha256
  else if lower∈["ecdsa-p384".toList,"ecdsap384sha384".toList,"ecdsa-p384-sha384".toList,"14".toList] then
    some ecdsaP384Sha384
  else if lower∈["ed25519".toList,"15".toList] then some ed25519
  else none

structure Rrsig where
  typeCovered : RecordKind
  algorithm : DnssecAlgorithm
  labels : Nat
  originalTtl : Nat
  expiration : Nat
  inception : Nat
  keyTag : Nat
  signerName : Text
  signature : Bytes
deriving DecidableEq

def Rrsig.parse (value : Text) : Option Rrsig :=
  match splitWhitespace value with
  | covered::algorithm::labels::ttl::expiration::inception::tag::signer::signature::_ => do
    return ⟨← parseKind lib covered,← DnssecAlgorithm.parse lib algorithm,← parseUnsigned (2^8) labels,
      ← parseUnsigned (2^32) ttl,← parseUnsigned (2^32) expiration,← parseUnsigned (2^32) inception,
      ← parseUnsigned (2^16) tag,signer,← lib.base64Decode signature⟩
  | _ => none

/-- What precedes the signature, which is also what is signed first. -/
def Rrsig.signedPrefix : Option Bytes :=
  (canonicalName lib sig.signerName).map fun signer =>
    bigEndian 2 (wireType sig.typeCovered).toNat++[sig.algorithm.number]++bigEndian 1 sig.labels ++
      bigEndian 4 sig.originalTtl ++
      bigEndian 4 sig.expiration++bigEndian 4 sig.inception++bigEndian 2 sig.keyTag++signer

def Rrsig.rdata : Option Bytes := (sig.signedPrefix lib).map (· ++ sig.signature)

end

section

variable (types : List UInt16)

/-- The bits of one window of 256 types, up to the last octet that has any. -/
def windowBlock (window : Nat) : Bytes :=
  ((range 32).map fun octet => types.foldl (fun bits code =>
    if code.toNat / 256=window ∧ code.toNat % 256 / 8=octet then
      bits ||| (0x80 >>> UInt8.ofNat (code.toNat % 8)) else bits) 0).rdropWhile (· = 0)

def encodeTypeBitmap : Bytes :=
  let windows := (types.map fun code => code.toNat / 256).dedup.insertionSort (· ≤ ·)
  windows.flatMap fun window => UInt8.ofNat window::UInt8.ofNat (windowBlock types window).length ::
    windowBlock types window

structure Nsec where
  nextOwner : Text
  types : List RecordKind
deriving DecidableEq

/-- The types in the order of their codes, so that the same chain is written the same. -/
def Nsec.toValue (nsec : Nsec) : Text :=
  nsec.nextOwner++(nsec.types.insertionSort fun a b => wireType a ≤ wireType b).dedup.flatMap fun kind =>
    ' ' :: kind.asStr

variable (lib : FormatLibrary)

def Nsec.parse (value : Text) : Option Nsec :=
  match splitWhitespace value with
  | [] => none
  | nextOwner::fields => (fields.mapM (parseKind lib)).map (⟨nextOwner,·⟩)

def Nsec.rdata (nsec : Nsec) : Option Bytes :=
  (canonicalName lib nsec.nextOwner).map fun owner =>
    owner++encodeTypeBitmap ((nsec.types.map wireType).insertionSort (· ≤ ·)).dedup

end

section
variable (lib : FormatLibrary)

/-- The text from the first place that it occurs at. -/
def findFrom (needle value : Text) : Option Text := value.tails.find? needle.isPrefixOf

def canonicalRdata (r : DnsRecord) : Option Bytes :=
  let value := trim r.value
  let fields := splitWhitespace value
  match r.recordType with
  | .A => (lib.parseIpv4 value).map fun ip => bigEndian 4 ip.toNat
  | .AAAA => (lib.parseIpv6 value).map fun ip => bigEndian 16 ip.toNat
  | .CNAME | .NS | .PTR | .DNAME => canonicalName lib value
  | .MX =>
    if r.priority<2^16 then (canonicalName lib value).map (bigEndian 2 r.priority ++ ·) else none
  | .TXT => some (characterStrings value)
  | .SOA => encodeFields lib [.name,.name,.u32,.u32,.u32,.u32,.u32] fields
  | .SRV =>
    if r.priority<2^16 then (encodeFields lib [.u16,.u16,.name] fields).map (bigEndian 2 r.priority ++ ·) else none
  | .SSHFP => encodeFields lib [.u8,.u8,.hex] fields
  | .TLSA => encodeFields lib [.u8,.u8,.u8,.hex] fields
  | .SVCB | .HTTPS => svcbCanonicalRdata lib value
  | .CERT => encodeFields lib [.u16,.u16,.u8,.base64] fields
  | .URI =>
    match fields with
    | _::_::target::_ => do
      let numbers ← encodeFields lib [.u16,.u16] fields
      return numbers++toUtf8 (trim (← findFrom target value))
    | _ => none
  | .ZONEMD => encodeFields lib [.u32,.u8,.u8,.hex] fields
  | .DNSKEY => encodeFields lib [.u16,.u8,.u8,.base64] fields
  | .DS => encodeFields lib [.u16,.u8,.u8,.hex] fields
  | .RRSIG => (Rrsig.parse lib value).bind (Rrsig.rdata lib)
  | .NSEC => (Nsec.parse lib value).bind (Nsec.rdata lib)
  | .ANAME | .NSEC3 | .NSEC3PARAM => none

end

/-- What is assumed of the libraries: an address has no blank around it, and the names they read are made
of labels within the bounds of the wire format. -/
structure FormatLibrary.Lawful (lib : FormatLibrary) : Prop where
  parseIpv4_trim : ∀ {s ip},lib.parseIpv4 s=some ip → trim s=s
  parseIpv6_trim : ∀ {s ip},lib.parseIpv6 s=some ip → trim s=s
  nameFromAscii_labels : ∀ {s n},lib.nameFromAscii s=some n → ∀ l∈n,l≠[] ∧ l.length ≤ 63
  nameFromAscii_length : ∀ {s n},lib.nameFromAscii s=some n → (rawWire id n).length ≤ 255

section
variable {lib : FormatLibrary} {labels : List Text}

theorem toUtf8_injective : Function.Injective toUtf8 := by
  intro a b h
  have hd (s : Text) : (toUtf8 s).toByteArray.utf8Decode?=some s.toArray := utf8Decode?_utf8Encode
  have ha := (hd a).symm.trans ((congrArg (fun bytes : Bytes => bytes.toByteArray.utf8Decode?) h).trans (hd b))
  simpa using ha

theorem mapM_labelWire (h : ∀ l∈labels,l≠[] ∧ (toUtf8 l).length ≤ 63) :
    labels.mapM labelWire=some (labels.map fun l => UInt8.ofNat (toUtf8 l).length::toUtf8 l) := by
  induction labels with
  | nil => rfl
  | cons label labels ih =>
    obtain ⟨⟨hne,hs⟩,hr⟩ := forall_mem_cons.mp h
    have hl : labelWire label=some (UInt8.ofNat (toUtf8 label).length::toUtf8 label) := by
      simp [labelWire,hne,hs]
    rw [mapM_cons,hl,ih hr]
    rfl

theorem bounds_of_mapM_labelWire {encoded : List Bytes} (h : labels.mapM labelWire=some encoded) :
    ∀ l∈labels,l≠[] ∧ (toUtf8 l).length ≤ 63 := by
  induction labels generalizing encoded with
  | nil => simp
  | cons label labels ih =>
    rw [mapM_cons] at h
    obtain ⟨first,hf,h⟩ := Option.bind_eq_some_iff.mp h
    obtain ⟨rest,hr,-⟩ := Option.bind_eq_some_iff.mp h
    refine forall_mem_cons.mpr ⟨?_,ih hr⟩
    unfold labelWire at hf
    split at hf
    · cases hf
    · rename_i hb
      simpa using hb

/-- A canonical name is a sequence of labels of 1 to 63 octets. -/
theorem canonicalName_eq_rawWire {s : Text} {bytes : Bytes} (h : canonicalName lib s=some bytes) :
    ∃ labels : RawName,(∀ l∈labels,l≠[] ∧ l.length ≤ 63) ∧ bytes=rawWire id labels := by
  unfold canonicalName at h
  dsimp only at h
  split at h
  · cases h
    exact ⟨[],by simp,rfl⟩
  · obtain ⟨encoded,he,rfl⟩ := Option.map_eq_some_iff.mp h
    have hb := bounds_of_mapM_labelWire he
    rw [mapM_labelWire hb] at he
    cases he
    refine ⟨((trimEndDots (lib.toLowercase (trim s))).splitOn '.').map toUtf8,fun l hl => ?_,?_⟩
    · obtain ⟨label,hla,rfl⟩ := mem_map.mp hl
      obtain ⟨hne,hs⟩ := hb label hla
      exact ⟨fun hnil => hne (toUtf8_injective (hnil.trans rfl)),hs⟩
    · simp [rawWire,flatMap_def,Function.comp_def]

/-- A name on the wire ends where its root label is. -/
theorem rawWire_append_inj {a b : RawName} {x y : Bytes} (ha : ∀ l∈a,l≠[] ∧ l.length ≤ 63)
    (hb : ∀ l∈b,l≠[] ∧ l.length ≤ 63) (h : rawWire id a++x=rawWire id b++y) : a=b ∧ x=y := by
  have hlength {l : Bytes} (hl : l≠[] ∧ l.length ≤ 63) : UInt8.ofNat l.length≠0 := by
    intro hz
    have hn := congrArg UInt8.toNat hz
    rw [UInt8.toNat_ofNat',Nat.mod_eq_of_lt (by have := hl.2; omega)] at hn
    exact hl.1 (length_eq_zero_iff.mp hn)
  induction a generalizing b with
  | nil =>
    cases b with
    | nil => simpa [rawWire] using h
    | cons l b =>
      simp only [rawWire,flatMap_nil,flatMap_cons,nil_append,cons_append,cons.injEq] at h
      exact absurd h.1.symm (hlength (hb l mem_cons_self))
  | cons k a ih =>
    obtain ⟨hk,ha⟩ := forall_mem_cons.mp ha
    cases b with
    | nil =>
      simp only [rawWire,flatMap_nil,flatMap_cons,nil_append,cons_append,cons.injEq] at h
      exact absurd h.1 (hlength hk)
    | cons l b =>
      obtain ⟨hl,hbs⟩ := forall_mem_cons.mp hb
      simp only [rawWire,flatMap_cons,cons_append,cons.injEq,append_assoc] at h
      obtain ⟨hs,h⟩ := h
      have hsa : k.length=l.length := by
        have hn := congrArg UInt8.toNat hs
        rwa [UInt8.toNat_ofNat',UInt8.toNat_ofNat',Nat.mod_eq_of_lt (by have := hk.2; omega),
          Nat.mod_eq_of_lt (by have := hl.2; omega)] at hn
      obtain ⟨hkl,hr⟩ := append_inj h (by simpa using hsa)
      rw [map_id,map_id] at hkl
      obtain ⟨hab,hxy⟩ := ih ha hbs (by simpa only [rawWire,append_assoc,cons_append] using hr)
      exact ⟨by rw [hkl,hab],hxy⟩

end

/-- Libraries that read names without escapes and no addresses. -/
def plainFormats : FormatLibrary where
  toLowercase := map Char.toLower
  toUppercase := map Char.toUpper
  parseIpv4 _ := none
  parseIpv6 _ := none
  base64Encode _ := []
  base64Decode _ := none
  nameFromAscii s :=
    let labels := (labelsOf s).map toUtf8
    if (labels.all fun l => l≠[] ∧ l.length ≤ 63) ∧ (rawWire id labels).length ≤ 255 then some labels else none
  nameFromUtf8 _ := none

theorem plainFormats_lawful : plainFormats.Lawful where
  parseIpv4_trim h := nomatch h
  parseIpv6_trim h := nomatch h
  nameFromAscii_labels {s n} h := by
    simp only [plainFormats] at h
    split at h
    · rename_i hb
      cases h
      simpa using hb.1
    · cases h
  nameFromAscii_length {s n} h := by
    simp only [plainFormats] at h
    split at h
    · rename_i hb
      cases h
      exact hb.2
    · cases h

end RolodexDns.StoredRdata
