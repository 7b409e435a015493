import RolodexDns.StoredRecords

/-! Certificate requests, and what of them is checked before they are signed. The names that a request asks for
are compared with the names of the order: its DNS names, and a common name that reads as a host name. -/
namespace RolodexDns.CertificateRequests
open DnsRecords StoredRecords List

inductive SanType where
  | rfc822Name (address : Text)
  | dnsName (name : Text)
  | uri (uri : Text)
  | ipAddress (ip : IpAddr)
  | otherName (oid : List Nat) (value : Text)
deriving DecidableEq

/-- A value of the subject, in the string type it is encoded in. -/
inductive DnValue where
  | bmpString (text : Text)
  | ia5String (text : Text)
  | printableString (text : Text)
  | teletexString (text : Text)
  | universalString (text : Text)
  | utf8String (text : Text)
deriving DecidableEq

/-- The text that the value stands for, whatever its encoding. -/
def DnValue.content : DnValue → Text
  | .bmpString text | .ia5String text | .printableString text | .teletexString text
    | .universalString text | .utf8String text => text

inductive DnType where
  | countryName
  | localityName
  | stateOrProvinceName
  | organizationName
  | organizationalUnitName
  | commonName
  | customDnType (oid : List Nat)
deriving DecidableEq

/-- What a request asks for, and a certificate says; of the rest only the validity is set here. -/
structure CertificateParams where
  subjectAltNames : List SanType
  distinguishedName : List (DnType × DnValue)
  notBefore : Int
  notAfter : Int
deriving DecidableEq

variable (params : CertificateParams)

def CertificateParams.commonName : Option DnValue := params.distinguishedName.lookup .commonName

/-- At least two labels of letters, digits, hyphens and underscores. -/
def looksLikeDnsName (candidate : Text) : Bool :=
  let trimmed := trimEndDots candidate
  !trimmed.isEmpty && trimmed.contains '.' &&
    (trimmed.splitOn '.').all fun label => !label.isEmpty && label.all fun c => c.isAlphanum || c = '-' || c = '_'

def dnValueStr : DnValue → Option Text
  | .utf8String s | .printableString s | .ia5String s | .teletexString s => some s
  | .bmpString _ | .universalString _ => none

def SanType.dns? : SanType → Option Text
  | .dnsName name => some name
  | _ => none

def csrRequestedNames : List Text :=
  params.subjectAltNames.filterMap SanType.dns? ++
    ((params.commonName.bind dnValueStr).filter looksLikeDnsName).toList

section
variable (toLowercase : Text → Text)

def checkCsrNames (params : CertificateParams) (allowed : List Text) : Except Text Unit :=
  match (csrRequestedNames params).find? fun requested =>
    normalizeName toLowercase requested∉allowed.map (normalizeName toLowercase) with
  | some requested => throw ("CSR requests '"++requested ++ "', which the order did not validate")
  | none => pure ()

def SameName (a b : Text) : Prop := normalizeName toLowercase a=normalizeName toLowercase b

theorem checkCsrNames_eq_ok {params : CertificateParams} {allowed : List Text}
    (h : checkCsrNames toLowercase params allowed=.ok ()) :
    ∀ requested∈csrRequestedNames params,∃ name∈allowed,SameName toLowercase requested name := by
  unfold checkCsrNames at h
  split at h
  · cases h
  · rename_i hn
    intro requested hm
    have hf := find?_eq_none.mp hn requested hm
    obtain ⟨name,hna,heq⟩ := mem_map.mp (of_not_not fun hno => hf (decide_eq_true hno))
    exact ⟨name,hna,heq.symm⟩

end

section

inductive Identity where
  | commonName (value : DnValue)
  | altName (san : SanType)

def CertificateParams.identities (params : CertificateParams) : List Identity :=
  (params.commonName.map Identity.commonName).toList++params.subjectAltNames.map .altName

variable (toLowercase : Text → Text) {params : CertificateParams}

/-- The identity is the DNS name. Addresses, mailboxes and the like are no DNS names, however they are written. -/
def Identity.Is (name : Text) : Identity → Prop
  | .commonName value => SameName toLowercase value.content name
  | .altName (.dnsName other) => SameName toLowercase other name
  | .altName _ => False

/-- The common name is one that is compared with the order's names. -/
def DnValue.Compared (value : DnValue) : Prop := ∃ text,dnValueStr value=some text ∧ looksLikeDnsName text=true

/-- The request asks for nothing that goes without comparison: no alternative names other than DNS names, and no
common name that does not read as a host name, unless it happens to be one of the names. -/
def CertificateParams.Confined (params : CertificateParams) (names : List Text) : Prop :=
  (∀ san∈params.subjectAltNames,san.dns?.isSome=true) ∧
  ∀ value,params.commonName=some value → value.Compared ∨ ∃ name∈names,SameName toLowercase value.content name

theorem content_of_dnValueStr {value : DnValue} {text : Text} (h : dnValueStr value=some text) :
    value.content=text := by
  cases value <;> simp_all [dnValueStr,DnValue.content]

theorem forall_identities {P : Identity → Prop} : (∀ i∈params.identities,P i) ↔
    (∀ value,params.commonName=some value → P (.commonName value)) ∧
    ∀ san∈params.subjectAltNames,P (.altName san) := by
  simp only [CertificateParams.identities,forall_mem_append,Option.mem_toList,Option.map_eq_some_iff,
    forall_exists_index,and_imp,forall_apply_eq_imp_iff₂,forall_mem_map]

/-- Of a request that passed the check, all identities are names of the order exactly if it is confined. -/
theorem identities_iff_confined {allowed : List Text} (h : checkCsrNames toLowercase params allowed=.ok ()) :
    (∀ i∈params.identities,∃ name∈allowed,i.Is toLowercase name) ↔ params.Confined toLowercase allowed := by
  have hch := checkCsrNames_eq_ok toLowercase h
  rw [forall_identities,and_comm]
  refine and_congr ⟨fun hs san hsa => ?_,fun hs san hsa => ?_⟩
    ⟨fun hc value hv => .inr (hc value hv),fun hc value hv => ?_⟩
  · obtain ⟨name,-,his⟩ := hs san hsa
    cases san <;> first | rfl | exact his.elim
  · cases san with
    | dnsName name =>
      have hm : name∈csrRequestedNames params :=
        mem_append_left _ (mem_filterMap.mpr ⟨_,hsa,rfl⟩)
      exact hch name hm
    | _ => exact absurd (hs _ hsa) Bool.false_ne_true
  · rcases hc value hv with ⟨text,ht,hl⟩ | hn
    · have hm : text∈csrRequestedNames params := by
        refine mem_append_right _ ?_
        simp [hv,ht,hl]
      obtain ⟨name,hn,hsm⟩ := hch text hm
      rw [← content_of_dnValueStr ht] at hsm
      exact ⟨name,hn,hsm⟩
    · exact hn

end

section
variable {ε α β : Type}

def okOr (e : ε) : Option α → Except ε α
  | some a => .ok a
  | none => .error e

theorem okOr_eq_ok {e : ε} {x : Option α} {a : α} (h : okOr e x=.ok a) : x=some a := by
  cases x with
  | none => cases h
  | some b =>
    cases h
    rfl

theorem bind_eq_ok {x : Except ε α} {f : α → Except ε β} {b : β} (h : x >>= f=.ok b) : ∃ a,x=.ok a ∧ f a=.ok b := by
  cases x with
  | error e => cases h
  | ok a => exact ⟨a,rfl,h⟩

end

section

structure CaPair where
  certPem : Text
  keyPem : Text
deriving DecidableEq

/-- The certificate library. `content` is what a certificate says. -/
structure Rcgen where
  fromPem : Text → Option CertificateParams
  materializeIssuer : CaPair → Except Text Unit
  /-- An end of validity that is too far away. -/
  validityOverflows : Int → Bool
  signedBy : CertificateParams → CaPair → Option Text
  content : Text → Option CertificateParams

def Rcgen.Copies (rcgen : Rcgen) : Prop :=
  ∀ {params ca pem},rcgen.signedBy params ca=some pem → rcgen.content pem=some params

structure IssuedLeaf where
  leafPem : Text
  chainPem : Text
  expiresAt : Int
deriving DecidableEq

variable (rcgen : Rcgen) (toLowercase : Text → Text)

def setValidity (now days : Int) (params : CertificateParams) : Except Text CertificateParams :=
  if rcgen.validityOverflows (now+days*86400) then throw "certificate validity overflow".toList
  else pure { params with notBefore := now - 60, notAfter := now+days*86400 }

/-- The request signed by the intermediate of the zone, which is the one given. -/
def issueLeaf (zoneCa : Option CaPair) (now : Int) (zone csrPem : Text) (validityDays : Int)
    (allowedNames : List Text) :
    Except Text IssuedLeaf := do
  let ca ← okOr ("no intermediate CA for zone "++normalizeName toLowercase zone) zoneCa
  rcgen.materializeIssuer ca
  let csr ← okOr "failed to parse CSR" (rcgen.fromPem csrPem)
  checkCsrNames toLowercase csr allowedNames
  let params ← setValidity rcgen now validityDays csr
  let leafPem ← okOr "failed to sign leaf from CSR" (rcgen.signedBy params ca)
  pure ⟨leafPem,leafPem++ca.certPem,params.notAfter⟩

variable {rcgen toLowercase}

/-- An issued certificate says what the request asked for, and the request passed the check. -/
theorem issueLeaf_eq_ok (hc : rcgen.Copies) {zoneCa : Option CaPair} {now validityDays : Int} {zone csrPem : Text}
    {allowedNames : List Text} {issued : IssuedLeaf}
    (h : issueLeaf rcgen toLowercase zoneCa now zone csrPem validityDays allowedNames=.ok issued) :
    ∃ csr content,rcgen.fromPem csrPem=some csr ∧ checkCsrNames toLowercase csr allowedNames=.ok () ∧
      rcgen.content issued.leafPem=some content ∧ content.identities=csr.identities := by
  obtain ⟨ca,-,h⟩ := bind_eq_ok h
  obtain ⟨_,-,h⟩ := bind_eq_ok h
  obtain ⟨csr,hcs,h⟩ := bind_eq_ok h
  obtain ⟨⟨⟩,hch,h⟩ := bind_eq_ok h
  obtain ⟨params,hp,h⟩ := bind_eq_ok h
  obtain ⟨leafPem,hl,h⟩ := bind_eq_ok h
  have hi : params.identities=csr.identities := by
    unfold setValidity at hp
    split at hp
    · cases hp
    · cases hp
      rfl
  cases h
  exact ⟨csr,params,okOr_eq_ok hcs,hch,hc (okOr_eq_ok hl),hi⟩

end

end RolodexDns.CertificateRequests
