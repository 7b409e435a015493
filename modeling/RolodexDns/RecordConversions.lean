import Mathlib.Data.Nat.ModEq
import RolodexDns.StoredRecords

/-! Records and the rows they are kept as. A record that comes back from its row as it was is one of
seven types with names that read back, and a TXT record of one string. -/
namespace RolodexDns.RecordConversions
open DomainNames DnsRecords StoredRecords List

/-- How names, addresses and text that is not UTF-8 are printed and read, and the values that have a
format of their own. -/
structure TextLibrary where
  nameText : Name → Text
  nameFromAscii : Text → Option Name
  ipText : IpAddr → Text
  parseIpv4 : Text → Option (BitVec 32)
  parseIpv6 : Text → Option (BitVec 128)
  replaceInvalid : List UInt8 → Text
  parseValue : RecordKind → Text → Nat → Option RData

variable (lib : TextLibrary) (s : Text)

/-- The text of a string, whatever its bytes. -/
def TextLibrary.fromUtf8Lossy (bytes : List UInt8) : Text :=
  match bytes.toByteArray.utf8Decode? with
  | some chars => chars.toList
  | none => lib.replaceInvalid bytes

def toUtf8 : List UInt8 := s.flatMap String.utf8EncodeChar

theorem fromUtf8Lossy_toUtf8 : lib.fromUtf8Lossy (toUtf8 s)=s := by
  have hd : (toUtf8 s).toByteArray.utf8Decode?=some s.toArray := utf8Decode?_utf8Encode
  rw [TextLibrary.fromUtf8Lossy,hd]

section
variable (lib : TextLibrary) (r : DnsRecord)

/-- The row of a record; only these types have one. -/
def TextLibrary.dnsRecordToDbRecord (record : Record) : Option DnsRecord :=
  let row (kind : RecordKind) (value : Text) (priority : Nat) : Option DnsRecord :=
    some ⟨lib.nameText record.name,kind,value,record.ttl,priority⟩
  match record.data with
  | .a ip => row .A (lib.ipText (.v4 ip)) 0
  | .aaaa ip => row .AAAA (lib.ipText (.v6 ip)) 0
  | .cname target => row .CNAME (lib.nameText target) 0
  | .mx preference exchange => row .MX (lib.nameText exchange) preference.toNat
  | .txt strings => row .TXT (strings.flatMap lib.fromUtf8Lossy) 0
  | .ns target => row .NS (lib.nameText target) 0
  | .ptr target => row .PTR (lib.nameText target) 0
  | _ => none

/-- The data of a row. A DNAME is read as a CNAME and an ANAME as text, for neither is served as itself. -/
def TextLibrary.storedData : Option RData :=
  match r.recordType with
  | .A => (lib.parseIpv4 r.value).map .a
  | .AAAA => (lib.parseIpv6 r.value).map .aaaa
  | .CNAME | .DNAME => (lib.nameFromAscii r.value).map .cname
  | .MX => (lib.nameFromAscii r.value).map (.mx (UInt16.ofNat r.priority))
  | .TXT | .ANAME => some (.txt [toUtf8 r.value])
  | .NS => (lib.nameFromAscii r.value).map .ns
  | .PTR => (lib.nameFromAscii r.value).map .ptr
  | .NSEC3 | .NSEC3PARAM => none
  | kind => lib.parseValue kind r.value r.priority

def TextLibrary.dbRecordToDnsRecord : Option Record :=
  (lib.nameFromAscii r.name).bind fun name => (lib.storedData r).map fun data => ⟨name,.IN,r.ttl,data⟩

end

/-- Addresses read back, and a name that was read back once does so again. -/
structure TextLibrary.Lawful (lib : TextLibrary) : Prop where
  parseIpv4_ipText : ∀ ip,lib.parseIpv4 (lib.ipText (.v4 ip))=some ip
  parseIpv6_ipText : ∀ ip,lib.parseIpv6 (lib.ipText (.v6 ip))=some ip
  nameFromAscii_nameText : ∀ {n n'},lib.nameFromAscii (lib.nameText n)=some n' →
    lib.nameFromAscii (lib.nameText n')=some n'

/-- What a record says: everything but its class and TTL. -/
def content (r : Record) : Name × RData := (r.name,r.data)

section
variable (lib : TextLibrary)

/-- What is left of a record after a stay in the cache. -/
def TextLibrary.restored (r : Record) : Option (Name × RData) :=
  (lib.dnsRecordToDbRecord r).bind fun row => (lib.dbRecordToDnsRecord row).map content

def TextLibrary.Survives (r : Record) : Prop := lib.restored r=some (content r)

def TextLibrary.ReadsBack (n : Name) : Prop := lib.nameFromAscii (lib.nameText n)=some n

variable {lib}

/-- The TTL of a row has no part in what it says. -/
theorem content_setTtl (row : DnsRecord) (ttl : Nat) :
    (lib.dbRecordToDnsRecord { row with ttl := ttl }).map content=(lib.dbRecordToDnsRecord row).map content := by
  have hd : lib.storedData { row with ttl := ttl }=lib.storedData row := rfl
  unfold TextLibrary.dbRecordToDnsRecord
  rw [hd]
  cases lib.nameFromAscii row.name <;> cases lib.storedData row <;> rfl

def TextLibrary.KeptData (lib : TextLibrary) : RData → Prop
  | .a _ | .aaaa _ => True
  | .cname target | .ns target | .ptr target | .mx _ target => lib.ReadsBack target
  | .txt strings => ∃ s,strings=[toUtf8 s]
  | _ => False

variable (hlib : lib.Lawful) {r : Record}
include hlib

/-- The data that comes back from a row stays as it is from then on. -/
theorem keptData_of_stored {row : DnsRecord} {data : RData}
    (hr : lib.dnsRecordToDbRecord r=some row) (hd : lib.storedData row=some data) : lib.KeptData data := by
  have hre {n : Name} {build : Name → RData} (hk : ∀ t,lib.KeptData (build t)=lib.ReadsBack t)
      (h : (lib.nameFromAscii (lib.nameText n)).map build=some data) : lib.KeptData data := by
    obtain ⟨target,ht,rfl⟩ := Option.map_eq_some_iff.mp h
    rw [hk]
    exact hlib.nameFromAscii_nameText ht
  unfold TextLibrary.dnsRecordToDbRecord at hr
  split at hr <;> cases hr
  case h_1 =>
    obtain ⟨ip,-,rfl⟩ := Option.map_eq_some_iff.mp hd
    trivial
  case h_2 =>
    obtain ⟨ip,-,rfl⟩ := Option.map_eq_some_iff.mp hd
    trivial
  case h_5 strings _ =>
    cases hd
    exact ⟨_,rfl⟩
  all_goals exact hre (fun _ => rfl) hd

/-- A record that says what a row keeps comes back with the same content. -/
theorem restored_of_kept (hn : lib.ReadsBack r.name) (hd : lib.KeptData r.data) :
    lib.Survives r := by
  have hs {row : DnsRecord} (hro : lib.dnsRecordToDbRecord r=some row) (ho : row.name=lib.nameText r.name)
      (h : lib.storedData row=some r.data) : lib.Survives r := by
    unfold TextLibrary.Survives TextLibrary.restored TextLibrary.dbRecordToDnsRecord
    rw [hro,Option.bind_some,ho,hn,h]
    rfl
  have hr {target : Name} {build : Name → RData} (h : lib.ReadsBack target) :
      (lib.nameFromAscii (lib.nameText target)).map build=some (build target) := by
    rw [h]
    rfl
  obtain ⟨name,dnsClass,ttl,data⟩ := r
  cases data with
  | a ip => exact hs rfl rfl (congrArg (Option.map RData.a) (hlib.parseIpv4_ipText ip))
  | aaaa ip => exact hs rfl rfl (congrArg (Option.map RData.aaaa) (hlib.parseIpv6_ipText ip))
  | cname target | ns target | ptr target => exact hs rfl rfl (hr hd)
  | mx preference exchange =>
    refine hs rfl rfl ?_
    change (lib.nameFromAscii (lib.nameText exchange)).map (RData.mx (UInt16.ofNat preference.toNat))=_
    rw [UInt16.ofNat_toNat]
    exact hr hd
  | txt strings =>
    obtain ⟨s,rfl⟩ := hd
    refine hs rfl rfl ?_
    change some (RData.txt [toUtf8 ([toUtf8 s].flatMap lib.fromUtf8Lossy)])=_
    rw [flatMap_singleton,fromUtf8Lossy_toUtf8]
  | _ => exact hd.elim

theorem kept_of_restored {name : Name} {data : RData}
    (h : lib.restored r=some (name,data)) : lib.ReadsBack name ∧ lib.KeptData data := by
  obtain ⟨row,hro,h⟩ := Option.bind_eq_some_iff.mp h
  obtain ⟨r',hr',heq⟩ := Option.map_eq_some_iff.mp h
  obtain ⟨owner,ho,hr'⟩ := Option.bind_eq_some_iff.mp hr'
  obtain ⟨stored,hs,rfl⟩ := Option.map_eq_some_iff.mp hr'
  obtain ⟨rfl,rfl⟩ := Prod.mk.inj heq
  refine ⟨?_,keptData_of_stored hlib hro hs⟩
  have hn : row.name=lib.nameText r.name := by
    unfold TextLibrary.dnsRecordToDbRecord at hro
    split at hro <;> cases hro <;> rfl
  exact hlib.nameFromAscii_nameText (hn ▸ ho)

/-- The records that survive: of seven types, with names that read back and at most one TXT string. -/
theorem survives_iff (r : Record) : lib.Survives r ↔ lib.ReadsBack r.name ∧ lib.KeptData r.data :=
  ⟨kept_of_restored hlib,fun h => restored_of_kept hlib h.1 h.2⟩

/-- Where only records without a row are left out, the records that come back say what the others said
exactly if each of those survives. -/
theorem restored_iff {records : List Record} {wanted : Record → Bool}
    (hwa : ∀ r row,lib.dnsRecordToDbRecord r=some row → wanted r=true) :
    (∀ c,c∈records.filterMap lib.restored ↔ c∈(records.filter wanted).map content) ↔
      ∀ r∈records,wanted r=true → lib.Survives r := by
  constructor
  · intro h r hr hw
    have hb := (h (content r)).mpr (mem_map_of_mem (mem_filter.mpr ⟨hr,hw⟩))
    obtain ⟨r',-,hr'⟩ := mem_filterMap.mp hb
    exact (survives_iff hlib r).mpr (kept_of_restored hlib hr')
  · intro h c
    constructor
    · intro hc
      obtain ⟨r,hr,hre⟩ := mem_filterMap.mp hc
      obtain ⟨row,hro,-⟩ := Option.bind_eq_some_iff.mp hre
      have hw := hwa r row hro
      obtain rfl : content r=c := Option.some.inj ((h r hr hw).symm.trans hre)
      exact mem_map_of_mem (mem_filter.mpr ⟨hr,hw⟩)
    · intro hc
      obtain ⟨r,hr,rfl⟩ := mem_map.mp hc
      obtain ⟨hr,hw⟩ := mem_filter.mp hr
      exact mem_filterMap.mpr ⟨r,hr,h r hr hw⟩

end

section

def bitsText : Nat → Nat → Text
  | 0, _ => []
  | width+1, n => (if n % 2=1 then '1' else '0')::bitsText width (n / 2)

def parseBits : Text → Nat
  | [] => 0
  | c::rest => (if c = '1' then 1 else 0)+2*parseBits rest

theorem parseBits_bitsText (width n : Nat) : parseBits (bitsText width n)=n % 2^width := by
  induction width generalizing n with
  | zero => simp [bitsText,parseBits,Nat.mod_one]
  | succ width ih =>
    have hb : (if (if n % 2=1 then '1' else '0') = '1' then 1 else 0)=n % 2 := by
      rcases Nat.mod_two_eq_zero_or_one n with h | h <;> simp [h]
    rw [bitsText,parseBits,ih,hb,Nat.pow_succ',Nat.mod_mul]

variable (names : List Name)

def plainText : TextLibrary where
  nameText := dotted
  nameFromAscii s := names.find? fun n => dotted n=s
  ipText
    | .v4 ip => bitsText 32 ip.toNat
    | .v6 ip => bitsText 128 ip.toNat
  parseIpv4 s := some (BitVec.ofNat 32 (parseBits s))
  parseIpv6 s := some (BitVec.ofNat 128 (parseBits s))
  replaceInvalid _ := []
  parseValue _ _ _ := none
where
  dotted (n : Name) : Text := n.labels.flatMap fun l => l.bytes.map (fun b => Char.ofNat b.toNat)++['.']

theorem plainText_lawful : (plainText names).Lawful := by
  constructor
  case parseIpv4_ipText =>
    intro ip
    change some (BitVec.ofNat 32 (parseBits (bitsText 32 ip.toNat)))=_
    rw [parseBits_bitsText,Nat.mod_eq_of_lt ip.isLt,BitVec.ofNat_toNat,BitVec.setWidth_eq]
  case parseIpv6_ipText =>
    intro ip
    change some (BitVec.ofNat 128 (parseBits (bitsText 128 ip.toNat)))=_
    rw [parseBits_bitsText,Nat.mod_eq_of_lt ip.isLt,BitVec.ofNat_toNat,BitVec.setWidth_eq]
  case nameFromAscii_nameText =>
    intro n n' h
    have hf : names.find? (fun m => plainText.dotted m=plainText.dotted n)=some n' := h
    have hs : plainText.dotted n'=plainText.dotted n := by simpa using find?_some hf
    exact (congrArg (fun s => names.find? fun m => plainText.dotted m=s) hs).trans h

end

end RolodexDns.RecordConversions
