import RolodexDns.ExpiringMaps
import RolodexDns.ValidationVerdicts

/-! The resolver's three caches: records by name and type, trust states by zone, and nameserver
addresses by zone. Their keys are the printed names, which stand for the names themselves; a record
type enters a key by the text it is printed as. -/
namespace RolodexDns.ResolverCaches
open DomainNames DnsRecords ExpiringMaps ExpiringMap

def secs (n : Nat) : Nat := n*1000000000

def maxRecordTtl : Nat := 604800
def maxRecordEntries : Nat := 50000
def minTrustTtl : Nat := 60
def maxTrustTtl : Nat := 604800
def maxTrustEntries : Nat := 10000
def maxDelegationTtl : Nat := 604800
def maxDelegationEntries : Nat := 10000

structure CachedRecords where
  records : List Record
  secure : Bool

abbrev RecordCache := ExpiringMap (Name × List UInt8) CachedRecords

namespace RecordCache

def key (lib : Library) (name : Name) (rtype : RecordType) : Name × List UInt8 := (name,lib.typeText rtype)

/-- The shortest TTL present, or the default when none of the records carries one. -/
def lifetime (defaultTtl : Nat) (records : List Record) : Nat :=
  match ((records.map Record.ttl).filter (0 < ·)).min? with
  | some t => min t maxRecordTtl
  | none => defaultTtl

variable (c : RecordCache)

def insertWithProof (lib : Library) (defaultTtl now : Nat) (name : Name)
    (rtype : RecordType) (records : List Record) (secure : Bool) : RecordCache :=
  if records.isEmpty then c
  else if lifetime defaultTtl records=0 then c
  else ExpiringMap.insert c maxRecordEntries now (key lib name rtype)
    ⟨⟨records,secure⟩,now+secs (lifetime defaultTtl records)⟩

/-- The live records, with what is left of the entry's lifetime as their TTL. -/
def getWithProof (lib : Library) (now : Nat) (name : Name) (rtype : RecordType) :
    Option (List Record × Bool) × RecordCache :=
  match ExpiringMap.get c now (key lib name rtype) with
  | (none,c') => (none,c')
  | (some e,c') =>
    (some (e.value.records.map (·.setTtl (max ((e.expiresAt - now) / secs 1) 1)),e.value.secure),c')

variable {c : RecordCache} {lib : Library} {defaultTtl now : Nat} {name : Name} {rtype : RecordType}
  {records : List Record} {secure : Bool}
  {P : Name × List UInt8 → Timed CachedRecords → Prop}

theorem all_insertWithProof (h : ExpiringMap.All P c)
    (he : records≠[] → ∀ until_,P (key lib name rtype) ⟨⟨records,secure⟩,until_⟩) :
    ExpiringMap.All P (c.insertWithProof lib defaultTtl now name rtype records secure) := by
  unfold insertWithProof
  split_ifs with hem ht
  · exact h
  · exact h
  · exact h.insert (he (by simpa using hem) _)

theorem getWithProof_subset : (c.getWithProof lib now name rtype).2⊆c := by
  have hs : (ExpiringMap.get c now (key lib name rtype)).2⊆c := get_subset
  unfold getWithProof
  split <;> rename_i heq <;> rw [heq] at hs <;> exact hs

theorem getWithProof_some (h : (c.getWithProof lib now name rtype).1=some (records,secure)) :
    ∃ e ttl,(key lib name rtype,e)∈c ∧ records=e.value.records.map (·.setTtl ttl) ∧
      secure=e.value.secure := by
  unfold getWithProof at h
  split at h
  · simp at h
  · rename_i e c' heq
    have hm := get_some (m := c) (e := e) (by rw [heq])
    simp only [Option.some.injEq,Prod.mk.injEq] at h
    exact ⟨e,_,hm.1,h.1.symm,h.2.symm⟩

end RecordCache

inductive TrustState where
  | secure (keys : List Dnskey)
  | insecure
deriving DecidableEq

def TrustState.keys : TrustState → Option (List Dnskey)
  | .secure keys => some keys
  | .insecure => none

abbrev KeyCache := ExpiringMap Name TrustState

def KeyCache.insert (c : KeyCache) (now : Nat) (zone : Name) (state : TrustState) (ttl : Nat) : KeyCache :=
  ExpiringMap.insert c maxTrustEntries now zone ⟨state,now+secs (max minTrustTtl (min ttl maxTrustTtl))⟩

abbrev DelegationCache := ExpiringMap Name (List IpAddr)

namespace DelegationCache

def lifetime (defaultTtl ttl : Nat) : Nat := if ttl=0 then defaultTtl else min ttl maxDelegationTtl

variable (c : DelegationCache)

def insert (defaultTtl now : Nat) (zone : Name) (servers : List IpAddr)
    (ttl : Nat) : DelegationCache :=
  if servers.isEmpty then c
  else ExpiringMap.insert c maxDelegationEntries now zone ⟨servers,now+secs (lifetime defaultTtl ttl)⟩

/-- The loop of `bestMatch`, from `current` up; `left` counts the labels still to be stripped. -/
def bestMatchFrom (now : Nat) : Nat → Name → DelegationCache →
    Option (Name × List IpAddr) × DelegationCache
  | left, current, c =>
    match ExpiringMap.get c now current with
    | (some e,c') => (some (current,e.value),c')
    | (none,c') =>
      match left with
      | 0 => (none,c')
      | left+1 => bestMatchFrom now left current.baseName c'

/-- The deepest live delegation at or above a name. -/
def bestMatch (now : Nat) (name : Name) :
    Option (Name × List IpAddr) × DelegationCache :=
  bestMatchFrom now name.labels.length name c

variable {c : DelegationCache} {now : Nat} {name zone : Name} {servers : List IpAddr} (left : Nat) (current : Name)

theorem bestMatchFrom_subset : (bestMatchFrom now left current c).2⊆c := by
  induction left generalizing current c with
  | zero =>
    have hs : (ExpiringMap.get c now current).2⊆c := get_subset
    unfold bestMatchFrom
    split <;> rename_i heq <;> rw [heq] at hs <;> exact hs
  | succ left ih =>
    have hs : (ExpiringMap.get c now current).2⊆c := get_subset
    unfold bestMatchFrom
    split <;> rename_i heq <;> rw [heq] at hs
    · exact hs
    · exact List.Subset.trans (ih current.baseName) hs

private theorem get_hit {current : Name} {e : Timed (List IpAddr)} {c' : DelegationCache}
    (heq : ExpiringMap.get c now current=(some e,c'))
    (hv : some (current,e.value)=some (zone,servers)) :
    zone.zoneOf current=true ∧ ∃ e,(zone,e)∈c ∧ e.value=servers ∧ now<e.expiresAt := by
  obtain ⟨rfl,rfl⟩ := hv
  have hm := get_some (m := c) (e := e) (by rw [heq])
  exact ⟨Name.zoneOf_refl _,e,hm.1,rfl,hm.2⟩

private theorem bestMatchFrom_some
    (h : (bestMatchFrom now left current c).1=some (zone,servers)) :
    zone.zoneOf current=true ∧ ∃ e,(zone,e)∈c ∧ e.value=servers ∧ now<e.expiresAt := by
  induction left generalizing current c with
  | zero =>
    unfold bestMatchFrom at h
    split at h
    · rename_i heq
      exact get_hit heq h
    · simp at h
  | succ left ih =>
    have hs : (ExpiringMap.get c now current).2⊆c := get_subset
    unfold bestMatchFrom at h
    split at h <;> rename_i heq
    · exact get_hit heq h
    · rw [heq] at hs
      obtain ⟨hz,e,hm,hr⟩ := ih current.baseName h
      exact ⟨Name.zoneOf_trans hz (Name.baseName_zoneOf current),e,hs hm,hr⟩

theorem bestMatch_some (h : (c.bestMatch now name).1=some (zone,servers)) :
    zone.zoneOf name=true ∧ ∃ e,(zone,e)∈c ∧ e.value=servers ∧ now<e.expiresAt :=
  bestMatchFrom_some _ _ h

end DelegationCache

end RolodexDns.ResolverCaches
