import Mathlib.Data.List.Dedup
import Mathlib.Data.List.Rotate
import Mathlib.Data.List.Sort
import RolodexDns.StoredRdata

/-! The NSEC chain of a zone: one link for each name that owns a record, from the apex around to it
again. Whatever is at or below the apex owns a link or lies inside of one. -/
namespace RolodexDns.NsecChains
open StoredRecords RecordConversions CyclicIntervals CanonicalNames StoredRdata List

variable {toLowercase : Text → Text} {zone : Text}

section
variable (toLowercase : Text → Text) (zone : Text) (records : List DnsRecord)

/-- The names that exist, once for each record that makes them do so, and the type it adds to the bitmap.
An ANAME adds none, and signatures and the old chain are no reason for a name to exist. -/
def byName : List (Text × Option RecordKind) :=
  let apex := normalizeName toLowercase zone
  records.filterMap fun r =>
    let name := normalizeName toLowercase r.name
    if !nameInZone toLowercase name apex then none
    else match r.recordType with
      | .RRSIG | .NSEC => none
      | .ANAME => some (name,none)
      | kind => some (name,some kind)

def typesAt (owner : Text) : List RecordKind :=
  ((byName toLowercase zone records).filter (·.1=owner)).filterMap Prod.snd

/-- The names in canonical order. They come out of a map in the order of their octets. -/
def ordered : List Text :=
  let names := (normalizeName toLowercase zone::(byName toLowercase zone records).map Prod.fst).dedup
  (names.insertionSort fun a b => toUtf8 a ≤ toUtf8 b).insertionSort fun a b => canonicalNameCmp a b ≠ .gt

def buildNsecChain : List (Text × Nsec) :=
  (ring (ordered toLowercase zone records)).map fun link =>
    (link.1,⟨link.2,typesAt toLowercase zone records link.1++[.NSEC,.RRSIG]⟩)

end

section
variable {records : List DnsRecord} {owner : Text}

theorem owners_buildNsecChain :
    (buildNsecChain toLowercase zone records).map Prod.fst=ordered toLowercase zone records := by
  rw [buildNsecChain,map_map]
  exact map_fst_ring _

theorem nextOwners_buildNsecChain :
    (buildNsecChain toLowercase zone records).map (·.2.nextOwner)=(ordered toLowercase zone records).rotate 1 := by
  rw [buildNsecChain,map_map]
  cases ordered toLowercase zone records with
  | nil => rfl
  | cons x xs =>
    rw [rotate_cons_succ,rotate_zero]
    have hl : (xs++[x]).length ≤ (x::xs).length := by simp
    exact map_snd_zip hl

theorem mem_byName {kind : Option RecordKind} : (owner,kind)∈byName toLowercase zone records ↔
    ∃ r∈records,r.recordType ≠ .RRSIG ∧ r.recordType ≠ .NSEC ∧
      nameInZone toLowercase (normalizeName toLowercase r.name) (normalizeName toLowercase zone)=true ∧
      normalizeName toLowercase r.name=owner ∧ kind=if r.recordType=.ANAME then none else some r.recordType := by
  unfold byName
  simp only [mem_filterMap]
  refine exists_congr fun r => and_congr_right fun _ => ?_
  cases hz : nameInZone toLowercase (normalizeName toLowercase r.name) (normalizeName toLowercase zone) with
  | false => simp
  | true => cases hk : r.recordType <;> simp [eq_comm]

theorem mem_ordered : owner∈ordered toLowercase zone records ↔
    owner=normalizeName toLowercase zone ∨ ∃ r∈records,r.recordType ≠ .RRSIG ∧ r.recordType ≠ .NSEC ∧
      nameInZone toLowercase (normalizeName toLowercase r.name) (normalizeName toLowercase zone)=true ∧
      normalizeName toLowercase r.name=owner := by
  unfold ordered
  rw [mem_insertionSort,mem_insertionSort,mem_dedup,mem_cons,mem_map]
  refine or_congr_right ⟨?_,?_⟩
  · rintro ⟨⟨name,kind⟩,hm,rfl⟩
    obtain ⟨r,hr,hs,hn,hz,hna,-⟩ := mem_byName.mp hm
    exact ⟨r,hr,hs,hn,hz,hna⟩
  · rintro ⟨r,hr,hs,hn,hz,rfl⟩
    exact ⟨_,mem_byName.mpr ⟨r,hr,hs,hn,hz,rfl,rfl⟩,rfl⟩

theorem nodup_ordered : (ordered toLowercase zone records).Nodup := by
  unfold ordered
  rw [(perm_insertionSort _ _).nodup_iff,(perm_insertionSort _ _).nodup_iff]
  exact nodup_dedup _

end

section
variable {records : List DnsRecord}

theorem ne_gt_iff (a b : Text) : canonicalNameCmp a b ≠ .gt ↔ orderKey a ≤ orderKey b :=
  (canonicalNameCmp_compares a b).eq_gt.not.trans not_lt

theorem pairwise_le_ordered : (ordered toLowercase zone records).Pairwise fun a b => orderKey a ≤ orderKey b := by
  have ht : Std.Total fun a b : Text => canonicalNameCmp a b ≠ .gt :=
    ⟨fun a b => by simpa only [ne_gt_iff] using le_total (orderKey a) (orderKey b)⟩
  have htr : IsTrans Text fun a b => canonicalNameCmp a b ≠ .gt :=
    ⟨fun a b c => by simpa only [ne_gt_iff] using le_trans⟩
  exact (pairwise_insertionSort _ _).imp fun h => (ne_gt_iff _ _).mp h

/-- The names of a chain are stored names at or below the apex. -/
theorem mem_ordered_stored (hlo : LowersAscii toLowercase) (hre : ∀ r∈records,WellFormed r.name)
    {apex : List Text} (ha : ∀ l∈apex,Folded l) (hz : normalizeName toLowercase zone=textOf apex) {owner : Text}
    (h : owner∈ordered toLowercase zone records) :
    ∃ labels,(∀ l∈labels,Folded l) ∧ apex <:+ labels ∧ owner=textOf labels := by
  rcases mem_ordered.mp h with rfl | ⟨r,hr,-,-,hin,rfl⟩
  · exact ⟨apex,ha,suffix_rfl,hz⟩
  · obtain ⟨labels,hl,hn⟩ := normalizeName_of_wellFormed hlo (hre r hr)
    rw [hn,hz,nameInZone_textOf hlo hl ha] at hin
    exact ⟨labels,hl,hin,hn⟩

theorem pairwise_lt_ordered (hl : LowersAscii toLowercase) (hz : WellFormed zone) (hr : ∀ r∈records,WellFormed r.name) :
    (ordered toLowercase zone records).Pairwise fun a b => orderKey a<orderKey b := by
  obtain ⟨apex,hap,hn⟩ := normalizeName_of_wellFormed hl hz
  refine (pairwise_le_ordered.and nodup_ordered).imp_of_mem fun {a b} ha hb h => h.1.lt_of_ne fun heq => h.2 ?_
  obtain ⟨a,hfa,-,rfl⟩ := mem_ordered_stored hl hr hap hn ha
  obtain ⟨b,hfb,-,rfl⟩ := mem_ordered_stored hl hr hap hn hb
  rw [orderKey_injective hfa hfb heq]

theorem ordered_eq_cons (hl : LowersAscii toLowercase) (hzo : WellFormed zone) (hr : ∀ r∈records,WellFormed r.name) :
    ∃ rest,ordered toLowercase zone records=normalizeName toLowercase zone::rest := by
  obtain ⟨apex,ha,hn⟩ := normalizeName_of_wellFormed hl hzo
  have hm : normalizeName toLowercase zone∈ordered toLowercase zone records := mem_ordered.mpr (.inl rfl)
  have hs := pairwise_lt_ordered hl hzo hr
  cases heq : ordered toLowercase zone records with
  | nil => rw [heq] at hm; cases hm
  | cons first rest =>
    obtain ⟨labels,hf,hb,hfi⟩ :=
      mem_ordered_stored hl hr ha hn (heq ▸ mem_cons_self : first∈_)
    have hle : orderKey (normalizeName toLowercase zone) ≤ orderKey first := by
      rw [hn,hfi]
      exact orderKey_le_of_suffix hf hb
    rw [heq] at hm hs
    rcases mem_cons.mp hm with hz | hz
    · exact ⟨rest,by rw [hz]⟩
    · exact absurd ((pairwise_cons.mp hs).1 _ hz) (not_lt.mpr hle)

/-- A name at or below the apex owns one link or lies inside of one. -/
theorem ordered_tiles (hl : LowersAscii toLowercase) (hz : WellFormed zone) (hr : ∀ r∈records,WellFormed r.name)
    {name : Text} (hna : WellFormed name)
    (hin : nameInZone toLowercase (normalizeName toLowercase name) (normalizeName toLowercase zone)=true) :
    (ring (ordered toLowercase zone records)).countP (·.1=normalizeName toLowercase name) +
      (ring (ordered toLowercase zone records)).countP (fun l => nsecCovers l.1 l.2 name)=1 := by
  obtain ⟨apex,ha,hzoneName⟩ := normalizeName_of_wellFormed hl hz
  obtain ⟨labels,hla,hn⟩ := normalizeName_of_wellFormed hl hna
  obtain ⟨rest,hc⟩ := ordered_eq_cons hl hz hr
  have hke : orderKey name=orderKey (textOf labels) := by rw [← hn,orderKey_normalizeName hl hna]
  have hs := pairwise_lt_ordered hl hz hr
  have hle : orderKey (normalizeName toLowercase zone) ≤ orderKey (textOf labels) := by
    rw [hn,hzoneName,nameInZone_textOf hl hla ha] at hin
    rw [hzoneName]
    exact orderKey_le_of_suffix hla hin
  have hk := pairwise_map.mpr hs
  rw [hc,map_cons] at hk
  have ht := ring_tiles hk hle
  rw [← map_cons,← hc,← map_ring,countP_map,countP_map] at ht
  rw [← ht]
  congr 1
  · refine countP_congr fun link hli => ?_
    obtain ⟨owner,ho,-,hli⟩ := mem_ordered_stored hl hr ha hzoneName
      (map_fst_ring (ordered toLowercase zone records) ▸ mem_map_of_mem hli)
    simp only [Function.comp_apply,Prod.map_fst,decide_eq_true_eq,hn,hli]
    exact ⟨congrArg orderKey,fun h => congrArg textOf (orderKey_injective ho hla h)⟩
  · refine countP_congr fun link _ => ?_
    simp only [Function.comp_apply,Prod.map_fst,Prod.map_snd,decide_eq_true_eq,nsecCovers_iff,hke]

/-- The chain of a zone has a link for the apex and for each name in the zone that owns a record, in
canonical order from the apex on and around; every name at or below the apex owns exactly one link and is
covered by none, or is covered by exactly one and owns none. -/
theorem nsec_chain_tiles (hlower : LowersAscii toLowercase) (hzone : WellFormed zone)
    (hrecords : ∀ r∈records,WellFormed r.name) :
    let chain := buildNsecChain toLowercase zone records
    let owners := chain.map Prod.fst
    (∀ owner,owner∈owners ↔ owner=normalizeName toLowercase zone ∨
      ∃ r∈records,r.recordType ≠ .RRSIG ∧ r.recordType ≠ .NSEC ∧ nameInZone toLowercase r.name zone=true ∧
        normalizeName toLowercase r.name=owner) ∧
    owners.Pairwise (fun a b => canonicalNameCmp a b=.lt) ∧ owners.head?=some (normalizeName toLowercase zone) ∧
    chain.map (·.2.nextOwner)=owners.rotate 1 ∧
    ∀ name,WellFormed name → nameInZone toLowercase name zone=true →
      chain.countP (·.1=normalizeName toLowercase name)+chain.countP (fun l =>
        nsecCovers l.1 l.2.nextOwner name)=1 := by
  dsimp only
  rw [owners_buildNsecChain,nextOwners_buildNsecChain]
  refine ⟨fun owner => mem_ordered.trans (or_congr_right ?_),?_,?_,rfl,?_⟩
  · refine exists_congr fun r => and_congr_right fun hr => ?_
    rw [nameInZone_normalizeName hlower (hrecords r hr) hzone]
  · exact (pairwise_lt_ordered hlower hzone hrecords).imp fun h => (canonicalNameCmp_compares _ _).eq_lt.mpr h
  · obtain ⟨rest,hc⟩ := ordered_eq_cons hlower hzone hrecords
    rw [hc,head?_cons]
  · intro name hn hin
    rw [← nameInZone_normalizeName hlower hn hzone] at hin
    rw [buildNsecChain,countP_map,countP_map]
    exact ordered_tiles hlower hzone hrecords hn hin

theorem wellFormed_of_labels {name : Text} (labels : List Text) (ha : name.all fun c => c.toNat<128)
    (hl : labels.all fun l => l≠[] ∧ '.' ∉ l) (hn : name=joinLabels labels ∨ name=textOf labels) : WellFormed name :=
  ⟨by simpa using ha,labels,by simpa using hl,hn⟩

def hostRecords : List DnsRecord :=
  [⟨"Www.Example.com",.A,"192.0.2.1",300,0⟩,⟨"www.example.com.",.RRSIG,[],300,0⟩]

theorem nsec_chain_tiles_host :
    let chain := buildNsecChain (map Char.toLower) "example.com".toList hostRecords
    chain.map Prod.fst=["example.com.".toList,"www.example.com.".toList] ∧
      chain.countP (·.1 = "mail.example.com.".toList) +
        chain.countP (fun l => nsecCovers l.1 l.2.nextOwner "Mail.example.com".toList)=1 := by
  have hz : WellFormed "example.com".toList :=
    wellFormed_of_labels ["example".toList,"com".toList] (by decide) (by decide) (.inl (by decide))
  have hre : ∀ r∈hostRecords,WellFormed r.name := by
    intro r hr
    simp only [hostRecords,mem_cons,not_mem_nil,or_false] at hr
    rcases hr with rfl | rfl
    · exact wellFormed_of_labels ["Www".toList,"Example".toList,"com".toList] (by decide) (by decide) (.inl (by decide))
    · exact wellFormed_of_labels ["www".toList,"example".toList,"com".toList] (by decide) (by decide) (.inr (by decide))
  have hn : WellFormed "Mail.example.com".toList :=
    wellFormed_of_labels ["Mail".toList,"example".toList,"com".toList] (by decide) (by decide) (.inl (by decide))
  have ht := nsec_chain_tiles (fun _ _ => rfl) hz hre
  exact ⟨by decide,ht.2.2.2.2 _ hn (by decide)⟩

end

end RolodexDns.NsecChains
