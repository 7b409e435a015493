import Mathlib.Data.List.DropRight
import RolodexDns.DnsRecords
import RolodexDns.TextFields

/-! The records the server keeps itself: kinds, rows, and the names they are stored under, which are
text. -/
namespace RolodexDns.StoredRecords
open DnsRecords

abbrev Text := List Char

instance : Coe String Text := ⟨String.toList⟩

instance lawfulBEqText : LawfulBEq Text := inferInstance

inductive RecordKind where
  | A | AAAA | CNAME | MX | TXT | NS | SOA | SRV | PTR | URI | SSHFP | DNAME | ANAME | ZONEMD | TLSA
  | DNSKEY | DS | RRSIG | NSEC | NSEC3 | NSEC3PARAM | CERT | SVCB | HTTPS
deriving DecidableEq

def RecordKind.asStr : RecordKind → Text
  | A => "A"
  | AAAA => "AAAA"
  | CNAME => "CNAME"
  | MX => "MX"
  | TXT => "TXT"
  | NS => "NS"
  | SOA => "SOA"
  | SRV => "SRV"
  | PTR => "PTR"
  | URI => "URI"
  | SSHFP => "SSHFP"
  | DNAME => "DNAME"
  | ANAME => "ANAME"
  | ZONEMD => "ZONEMD"
  | TLSA => "TLSA"
  | DNSKEY => "DNSKEY"
  | DS => "DS"
  | RRSIG => "RRSIG"
  | NSEC => "NSEC"
  | NSEC3 => "NSEC3"
  | NSEC3PARAM => "NSEC3PARAM"
  | CERT => "CERT"
  | SVCB => "SVCB"
  | HTTPS => "HTTPS"

theorem RecordKind.colon_notMem_asStr (kind : RecordKind) : ':' ∉ kind.asStr := by
  cases kind <;> decide

/-- The kind a query type asks for; `none` for the types that cannot be stored. -/
def mapQueryTypeToKind (t : RecordType) : Option RecordKind :=
  match t.code.toNat with
  | 1 => some .A
  | 28 => some .AAAA
  | 5 => some .CNAME
  | 15 => some .MX
  | 16 => some .TXT
  | 2 => some .NS
  | 6 => some .SOA
  | 33 => some .SRV
  | 12 => some .PTR
  | 52 => some .TLSA
  | 37 => some .CERT
  | 64 => some .SVCB
  | 65 => some .HTTPS
  | 44 => some .SSHFP
  | 48 => some .DNSKEY
  | 46 => some .RRSIG
  | 47 => some .NSEC
  | 50 => some .NSEC3
  | 51 => some .NSEC3PARAM
  | 256 => some .URI
  | 39 => some .DNAME
  | 43 => some .DS
  | 63 => some .ZONEMD
  | 65305 => some .ANAME
  | _ => none

structure DnsRecord where
  name : Text
  recordType : RecordKind
  value : Text
  ttl : Nat
  priority : Nat
deriving DecidableEq

/-- What a lookup finds at the name itself, at its wildcard, and of the two alias types. -/
structure LookupResult where
  exact : List DnsRecord
  wildcard : List DnsRecord
  cname : List DnsRecord
  aname : List DnsRecord

inductive NegativeKind where
  | nxDomain
  | noData
deriving DecidableEq

theorem toLower_of_not_upper {c : Char} (h : ¬ (65 ≤ c.toNat ∧ c.toNat ≤ 90)) : c.toLower=c := by
  unfold Char.toLower
  split_ifs with hu
  · exact absurd ⟨UInt32.le_iff_toNat_le.mp hu.1,UInt32.le_iff_toNat_le.mp hu.2⟩ h
  · rfl

@[simp] theorem toLower_toLower (c : Char) : c.toLower.toLower=c.toLower := by
  by_cases h : 65 ≤ c.toNat ∧ c.toNat ≤ 90
  · have hl : ∀ n : Fin 26,(Char.ofNat (65+n)).toLower.toLower=(Char.ofNat (65+n)).toLower := by decide
    have hle := hl ⟨c.toNat - 65,by omega⟩
    simpa only [Nat.add_sub_cancel' h.1,Char.ofNat_toNat] using hle
  · rw [toLower_of_not_upper h,toLower_of_not_upper h]

@[simp] theorem map_toLower_toLower (t : Text) : (t.map Char.toLower).map Char.toLower=t.map Char.toLower := by
  simp [Function.comp_def]

section

def trimEndDots (s : Text) : Text := s.rdropWhile (· = '.')

theorem trimEndDots_concat {text : Text} (h : text.getLast?≠some '.') : trimEndDots (text++['.'])=text := by
  unfold trimEndDots
  rw [List.rdropWhile_concat_pos _ _ _ (by simp),List.rdropWhile_eq_self_iff]
  intro hne hl
  exact h (by rw [List.getLast?_eq_getLast_of_ne_nil hne]; simpa using hl)

def labelsOf (s : Text) : List Text := (trimEndDots s).splitOn '.'

def joinLabels (labels : List Text) : Text := ['.'].intercalate labels

variable (toLowercase : Text → Text) (name : Text)

/-- The form names are stored in: lower case, with the final dot. -/
def normalizeName : Text :=
  let lower := toLowercase name
  if lower.getLast?=some '.' then lower else lower++['.']

/-- `name` is the zone or beneath it, label by label. -/
def nameInZone (name zone : Text) : Bool :=
  let name := normalizeName toLowercase name
  let zone := normalizeName toLowercase zone
  name=zone || zone=['.'] || ('.' :: zone).isSuffixOf name

def normalizeBlocklistName : Text := (trimEndDots name).map Char.toLower

end

structure IpCidr where
  base : IpAddr
  prefixLength : Nat
deriving DecidableEq

def maskIp (prefixLength : Nat) : IpAddr → IpAddr
  | .v4 addr => .v4 (addr &&& (if prefixLength=0 then 0 else BitVec.allOnes 32 <<< (32 - prefixLength)))
  | .v6 addr => .v6 (addr &&& (if prefixLength=0 then 0 else BitVec.allOnes 128 <<< (128 - prefixLength)))

def IpCidr.contains (c : IpCidr) (ip : IpAddr) : Bool :=
  c.base.isV4=ip.isV4 && maskIp c.prefixLength ip=c.base

/-- An IPv4 address that came in mapped to IPv6, as itself. -/
def toCanonical : IpAddr → IpAddr
  | .v4 addr => .v4 addr
  | .v6 addr => if addr.extractLsb' 32 96=0xffff#96 then .v4 (addr.extractLsb' 0 32) else .v6 addr

def inAddrArpa : Text := ".in-addr.arpa"

def ip6Arpa : Text := ".ip6.arpa"

def reverseLabels : IpAddr → List Text
  | .v4 addr => (List.range 4).map fun i => TextFields.decimal (addr.toNat / 256^i % 256)
  | .v6 addr => (List.range 32).map fun i => [TextFields.hexDigit (addr.toNat / 16^i % 16)]

def reverseSuffix : IpAddr → Text
  | .v4 _ => inAddrArpa
  | .v6 _ => ip6Arpa

def reverseName (ip : IpAddr) : Text := joinLabels (reverseLabels ip)++reverseSuffix ip++['.']

/-- The key of a new row is none of those that are there. -/
theorem nodup_map_concat {α β : Type} {key : α → β} {rows : List α} {row : α} (h : (rows.map key).Nodup)
    (hn : ∀ r∈rows,key r≠key row) : ((rows++[row]).map key).Nodup := by
  rw [List.map_append,List.nodup_append]
  refine ⟨h,List.nodup_singleton _,fun a ha b hb => ?_⟩
  obtain ⟨r,hr,rfl⟩ := List.mem_map.mp ha
  rw [List.mem_singleton.mp hb]
  exact hn r hr

end RolodexDns.StoredRecords
