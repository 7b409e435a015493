import Mathlib.Order.Compare
import RolodexDns.RecordConversions

/-! Names as text in the canonical order of DNSSEC: label sequences read from the root, each label as
octets with ASCII case folded away. Names in the form they are stored in are determined by their place in
that order, and the names of a zone follow its apex. -/
namespace RolodexDns.CanonicalNames
open DomainNames StoredRecords RecordConversions CyclicIntervals List

def labelBytes (label : Text) : List UInt8 := (toUtf8 label).map asciiLower

/-- The first elements that differ decide; if none do, the lengths. -/
def lexicographicCmp {α : Type*} [LinearOrder α] (xs ys : List α) : Ordering :=
  ((zipWith cmp xs ys).find? (· ≠ .eq)).getD (cmp xs.length ys.length)

/-- The place of a name in the canonical order: its labels from the right. -/
def orderKey (name : Text) : List (List UInt8) := (labelsOf name).reverse.map labelBytes

def canonicalNameCmp (a b : Text) : Ordering := lexicographicCmp (orderKey a) (orderKey b)

/-- The range of an NSEC record, open at both ends; the last link of a chain wraps. -/
def nsecCovers (owner next name : Text) : Bool :=
  if canonicalNameCmp next owner=.gt then canonicalNameCmp owner name=.lt && canonicalNameCmp name next=.lt
  else canonicalNameCmp owner name=.lt || canonicalNameCmp name next=.lt

theorem lexicographicCmp_compares {α : Type*} [LinearOrder α] (xs ys : List α) :
    (lexicographicCmp xs ys).Compares xs ys := by
  induction xs generalizing ys with
  | nil =>
    cases ys with
    | nil =>
      have heq : lexicographicCmp ([] : List α) []=.eq := cmp_self_eq_eq (0 : Nat)
      rw [heq]
      rfl
    | cons y ys =>
      have hlt : lexicographicCmp [] (y::ys)=.lt := (cmp_eq_lt_iff (0 : Nat) _).mpr (Nat.succ_pos ys.length)
      rw [hlt]
      exact nil_lt_cons y ys
  | cons x xs ih =>
    cases ys with
    | nil =>
      have hgt : lexicographicCmp (x::xs) []=.gt := (cmp_eq_gt_iff _ (0 : Nat)).mpr (Nat.succ_pos xs.length)
      rw [hgt]
      exact nil_lt_cons x xs
    | cons y ys =>
      rcases lt_trichotomy x y with hlt | rfl | hgt
      · have hh : lexicographicCmp (x::xs) (y::ys)=.lt := by
          rw [lexicographicCmp,zipWith_cons_cons,(cmp_eq_lt_iff _ _).mpr hlt]
          rfl
        rw [hh]
        exact cons_lt_cons_iff.mpr (.inl hlt)
      · have hl : cmp (xs.length+1) (ys.length+1)=cmp xs.length ys.length := by
          unfold cmp cmpUsing
          simp
        have ht : lexicographicCmp (x::xs) (x::ys)=lexicographicCmp xs ys := by
          rw [lexicographicCmp,zipWith_cons_cons,cmp_self_eq_eq,length_cons,length_cons,hl]
          rfl
        rw [ht]
        have ih := ih ys
        cases hc : lexicographicCmp xs ys with
        | lt => exact cons_lt_cons_iff.mpr (.inr ⟨rfl,ih.eq_lt.mp hc⟩)
        | eq => exact congrArg (x :: ·) (ih.eq_eq.mp hc)
        | gt => exact cons_lt_cons_iff.mpr (.inr ⟨rfl,ih.eq_gt.mp hc⟩)
      · have hh : lexicographicCmp (x::xs) (y::ys)=.gt := by
          rw [lexicographicCmp,zipWith_cons_cons,(cmp_eq_gt_iff _ _).mpr hgt]
          rfl
        rw [hh]
        exact cons_lt_cons_iff.mpr (.inl hgt)

/-- Comparing names is comparing their places in the order. -/
theorem canonicalNameCmp_compares (a b : Text) : (canonicalNameCmp a b).Compares (orderKey a) (orderKey b) :=
  lexicographicCmp_compares (orderKey a) (orderKey b)

theorem nsecCovers_iff {owner next name : Text} :
    nsecCovers owner next name=true ↔ Between (orderKey owner) (orderKey name) (orderKey next) := by
  have hn := (canonicalNameCmp_compares next owner).eq_gt
  have ho := (canonicalNameCmp_compares owner name).eq_lt
  have hna := (canonicalNameCmp_compares name next).eq_lt
  unfold nsecCovers
  split_ifs with h
  · rw [between_iff_of_lt (hn.mp h)]
    simp [ho,hna]
  · rw [between_iff_of_le (not_lt.mp (hn.not.mp h))]
    simp [ho,hna]

section

/-- Text in ASCII is lowered letter by letter. -/
def LowersAscii (toLowercase : Text → Text) : Prop :=
  ∀ s : Text,(∀ c∈s,c.toNat<128) → toLowercase s=s.map Char.toLower

structure Folded (label : Text) : Prop where
  nonempty : label≠[]
  undotted : '.' ∉ label
  ascii : ∀ c∈label,c.toNat<128
  lowered : ∀ c∈label,c.toLower=c

private theorem toLower_ofNat : ∀ n : Fin 128,((Char.ofNat n).toLower = '.' → Char.ofNat n = '.') ∧
    (Char.ofNat n).toLower.toLower=(Char.ofNat n).toLower ∧ (Char.ofNat n).toLower.toNat<128 ∧
    (String.utf8EncodeChar (Char.ofNat n)).map asciiLower=[UInt8.ofNat (Char.ofNat n).toLower.toNat] := by decide

private theorem toLower_of_ascii {c : Char} (h : c.toNat<128) :
    (c.toLower = '.' → c = '.') ∧ c.toLower.toLower=c.toLower ∧
    c.toLower.toNat<128 ∧ (String.utf8EncodeChar c).map asciiLower=[UInt8.ofNat c.toLower.toNat] := by
  have hofNat := toLower_ofNat ⟨c.toNat,h⟩
  rwa [Char.ofNat_toNat] at hofNat

theorem folded_map_toLower {label : Text} (hne : label≠[]) (hd : '.' ∉ label) (ha : ∀ c∈label,c.toNat<128) :
    Folded (label.map Char.toLower) where
  nonempty := by simpa using hne
  undotted h := by
    obtain ⟨c,hc,heq⟩ := mem_map.mp h
    exact hd ((toLower_of_ascii (ha c hc)).1 heq ▸ hc)
  ascii c h := by
    obtain ⟨c,hc,rfl⟩ := mem_map.mp h
    exact (toLower_of_ascii (ha c hc)).2.2.1
  lowered c h := by
    obtain ⟨c,hc,rfl⟩ := mem_map.mp h
    exact (toLower_of_ascii (ha c hc)).2.1

variable {a b label : Text}

theorem Folded.map_toLower (h : Folded label) : label.map Char.toLower=label :=
  (map_congr_left h.lowered).trans (map_id' label)

theorem Folded.labelBytes_eq (h : Folded label) : labelBytes label=label.map fun c => UInt8.ofNat c.toNat := by
  have hb : ∀ c∈label,(String.utf8EncodeChar c).map asciiLower=[UInt8.ofNat c.toNat] := fun c hc => by
    have hc' := (toLower_of_ascii (h.ascii c hc)).2.2.2
    rwa [h.lowered c hc] at hc'
  unfold labelBytes toUtf8
  rw [map_flatMap,flatMap_congr hb,← map_eq_flatMap]

theorem labelBytes_map_toLower (ha : ∀ c∈label,c.toNat<128) : labelBytes (label.map Char.toLower)=labelBytes label := by
  unfold labelBytes toUtf8
  rw [map_flatMap,map_flatMap,flatMap_map]
  refine flatMap_congr fun c hc => ?_
  obtain ⟨-,hi,hlt,hb⟩ := toLower_of_ascii (ha c hc)
  rw [(toLower_of_ascii hlt).2.2.2,hi,hb]

theorem Folded.labelBytes_injective (ha : Folded a) (hb : Folded b) (h : labelBytes a=labelBytes b) : a=b := by
  have hba {l : Text} (hl : Folded l) : (l.map fun c => UInt8.ofNat c.toNat).map (fun byte =>
    Char.ofNat byte.toNat)=l := by
    rw [map_map]
    refine (map_congr_left fun c hc => ?_).trans (map_id' l)
    have hc := hl.ascii c hc
    simp only [Function.comp_apply,UInt8.toNat_ofNat']
    rw [Nat.mod_eq_of_lt (by omega),Char.ofNat_toNat]
  rw [ha.labelBytes_eq,hb.labelBytes_eq] at h
  rw [← hba ha,h,hba hb]

theorem Folded.labelBytes_ne_nil (h : Folded label) : labelBytes label≠[] := by
  rw [h.labelBytes_eq]
  simpa using h.nonempty

end

section

def textOf (labels : List Text) : Text := joinLabels labels++['.']

/-- A name in ASCII whose labels are not empty, with or without the final dot. -/
def WellFormed (name : Text) : Prop :=
  (∀ c∈name,c.toNat<128) ∧ ∃ labels : List Text,(∀ l∈labels,l≠[] ∧ '.' ∉ l) ∧
    (name=joinLabels labels ∨ name=textOf labels)

variable {labels : List Text} {p : Char → Prop}

theorem joinLabels_cons_cons (a b : Text) (rest : List Text) :
    joinLabels (a::b::rest)=a ++ '.' :: joinLabels (b::rest) := by
  simp [joinLabels,intercalate]

theorem joinLabels_singleton (a : Text) : joinLabels [a]=a := by
  simp [joinLabels,intercalate]

theorem map_toLower_joinLabels (labels : List Text) :
    (joinLabels labels).map Char.toLower=joinLabels (labels.map (map Char.toLower)) := by
  induction labels with
  | nil => rfl
  | cons a rest ih =>
    cases rest with
    | nil => simp [joinLabels_singleton]
    | cons b rest =>
      rw [joinLabels_cons_cons,map_append,map_cons,ih]
      exact (joinLabels_cons_cons _ _ _).symm

theorem mem_joinLabels {label : Text} (h : label∈labels) {c : Char} (hc : c∈label) : c∈joinLabels labels := by
  induction labels with
  | nil => cases h
  | cons a rest ih =>
    cases rest with
    | nil =>
      rw [joinLabels_singleton]
      exact mem_singleton.mp h ▸ hc
    | cons b rest =>
      rcases mem_cons.mp h with rfl | h
      · exact mem_append_left _ hc
      · exact mem_append_right _ (mem_cons_of_mem _ (ih h))

theorem joinLabels_append {a b : List Text} (ha : a≠[]) (hb : b≠[]) :
    joinLabels (a++b)=joinLabels a ++ '.' :: joinLabels b := by
  induction a with
  | nil => exact absurd rfl ha
  | cons x rest ih =>
    cases rest with
    | nil =>
      obtain ⟨y,ys,rfl⟩ := exists_cons_of_ne_nil hb
      rw [joinLabels_singleton]
      exact joinLabels_cons_cons x y ys
    | cons y rest =>
      rw [joinLabels_cons_cons,cons_append,cons_append,joinLabels_cons_cons,← cons_append,
        ih (cons_ne_nil y rest),append_assoc,cons_append]

theorem exists_of_mem_joinLabels {c : Char} (h : c∈joinLabels labels) : c = '.' ∨ ∃ l∈labels,c∈l := by
  induction labels with
  | nil => cases h
  | cons a rest ih =>
    cases rest with
    | nil => exact .inr ⟨a,mem_cons_self,joinLabels_singleton a ▸ h⟩
    | cons b rest =>
      rw [joinLabels_cons_cons,mem_append,mem_cons] at h
      rcases h with hc | rfl | hc
      · exact .inr ⟨a,mem_cons_self,hc⟩
      · exact .inl rfl
      · exact (ih hc).imp_right fun ⟨l,hl,hcl⟩ => ⟨l,mem_cons_of_mem _ hl,hcl⟩

theorem forall_mem_joinLabels (hd : p '.') (h : ∀ l∈labels,∀ c∈l,p c) : ∀ c∈joinLabels labels,p c := by
  intro c hc
  rcases exists_of_mem_joinLabels hc with rfl | ⟨l,hl,hcl⟩
  · exact hd
  · exact h l hl c hcl

theorem forall_mem_textOf (hd : p '.') (h : ∀ l∈labels,∀ c∈l,p c) : ∀ c∈textOf labels,p c := by
  intro c hc
  rcases mem_append.mp hc with hc | hc
  · exact forall_mem_joinLabels hd h c hc
  · exact mem_singleton.mp hc ▸ hd

variable (h : ∀ l∈labels,l≠[] ∧ '.' ∉ l) {name : Text}
include h

theorem getLast?_joinLabels_ne : (joinLabels labels).getLast?≠some '.' := by
  induction labels with
  | nil => simp [joinLabels]
  | cons a rest ih =>
    obtain ⟨ha,hr⟩ := forall_mem_cons.mp h
    cases rest with
    | nil =>
      rw [joinLabels_singleton]
      exact fun hl => ha.2 (mem_of_getLast? hl)
    | cons b rest =>
      have hne : joinLabels (b::rest)≠[] := by
        obtain ⟨c,hc⟩ := exists_mem_of_ne_nil _ (hr b mem_cons_self).1
        exact ne_nil_of_mem (mem_joinLabels mem_cons_self hc)
      rw [joinLabels_cons_cons,getLast?_append_of_ne_nil _ (cons_ne_nil _ _),getLast?_cons_of_ne_nil hne]
      exact ih hr

theorem labelsOf_spelled
    (hn : name=joinLabels labels ∨ name=textOf labels) : labelsOf name=if labels=[] then [[]] else labels := by
  have hla := getLast?_joinLabels_ne h
  have ht : trimEndDots name=joinLabels labels := by
    rcases hn with rfl | rfl
    · refine rdropWhile_eq_self_iff.mpr fun hne hd => hla ?_
      rw [getLast?_eq_getLast_of_ne_nil hne]
      simpa using hd
    · exact trimEndDots_concat hla
  unfold labelsOf
  rw [ht]
  split
  · rename_i hni
    subst hni
    rfl
  · rename_i hne
    exact splitOn_intercalate '.' (fun l hl => (h l hl).2) hne

theorem labelsOf_textOf : labelsOf (textOf labels)=if labels=[] then [[]] else labels :=
  labelsOf_spelled h (.inr rfl)

omit h in
theorem WellFormed.exists_labels (h : WellFormed name) :
    ∃ labels : List Text,(∀ l∈labels,l≠[] ∧ '.' ∉ l) ∧ (∀ l∈labels,∀ c∈l,c.toNat<128) ∧
      (name=joinLabels labels ∨ name=textOf labels) := by
  obtain ⟨ha,labels,hla,hn⟩ := h
  refine ⟨labels,hla,fun l hl c hc => ha c ?_,hn⟩
  have hj := mem_joinLabels hl hc
  rcases hn with rfl | rfl
  · exact hj
  · exact mem_append_left _ hj

omit h in
theorem getLast?_textOf (labels : List Text) : (textOf labels).getLast?=some '.' := by
  simp [textOf]

end

section
variable {toLowercase : Text → Text} {labels zone b a : List Text} {name : Text}

theorem Folded.isLabel {label : Text} (h : Folded label) : label≠[] ∧ '.' ∉ label := ⟨h.nonempty,h.undotted⟩

variable (hlower : LowersAscii toLowercase)
include hlower

theorem normalizeName_spelled
    (h : ∀ l∈labels,l≠[] ∧ '.' ∉ l) (ha : ∀ l∈labels,∀ c∈l,c.toNat<128)
    (hn : name=joinLabels labels ∨ name=textOf labels) :
    normalizeName toLowercase name=textOf (labels.map (map Char.toLower)) := by
  have hf : ∀ l∈labels.map (map Char.toLower),l≠[] ∧ '.' ∉ l := by
    intro l hl
    obtain ⟨l,hl',rfl⟩ := mem_map.mp hl
    exact (folded_map_toLower (h l hl').1 (h l hl').2 (ha l hl')).isLabel
  unfold normalizeName
  rcases hn with rfl | rfl
  · rw [hlower _ (forall_mem_joinLabels (by decide) ha),map_toLower_joinLabels]
    exact if_neg (getLast?_joinLabels_ne hf)
  · have hlo : (textOf labels).map Char.toLower=textOf (labels.map (map Char.toLower)) := by
      rw [textOf,map_append,map_toLower_joinLabels]
      rfl
    rw [hlower _ (forall_mem_textOf (by decide) ha),hlo]
    exact if_pos (getLast?_textOf _)

/-- A name that is stored is lower-case labels and the final dot. -/
theorem normalizeName_of_wellFormed (h : WellFormed name) :
    ∃ labels,(∀ l∈labels,Folded l) ∧ normalizeName toLowercase name=textOf labels := by
  obtain ⟨labels,hla,hle,hn⟩ := h.exists_labels
  refine ⟨_,fun l hl => ?_,normalizeName_spelled hlower hla hle hn⟩
  obtain ⟨l,hl',rfl⟩ := mem_map.mp hl
  exact folded_map_toLower (hla l hl').1 (hla l hl').2 (hle l hl')

/-- The place of a name does not depend on how it is written. -/
theorem orderKey_normalizeName (h : WellFormed name) :
    orderKey (normalizeName toLowercase name)=orderKey name := by
  obtain ⟨labels,hla,hle,hn⟩ := h.exists_labels
  have hlo : ∀ l∈labels.map (map Char.toLower),l≠[] ∧ '.' ∉ l := by
    intro l hl
    obtain ⟨l,hl',rfl⟩ := mem_map.mp hl
    exact (folded_map_toLower (hla l hl').1 (hla l hl').2 (hle l hl')).isLabel
  unfold orderKey
  rw [normalizeName_spelled hlower hla hle hn,labelsOf_textOf hlo,labelsOf_spelled hla hn]
  simp only [map_eq_nil_iff]
  split
  · rfl
  · rw [← map_reverse,map_map]
    exact map_congr_left fun l hl => labelBytes_map_toLower (hle l (mem_reverse.mp hl))

theorem normalizeName_textOf (h : ∀ l∈labels,Folded l) :
    normalizeName toLowercase (textOf labels)=textOf labels := by
  rw [normalizeName_spelled hlower (fun l hl => (h l hl).isLabel) (fun l hl => (h l hl).ascii) (.inr rfl),
    (map_congr_left fun l hl => (h l hl).map_toLower).trans (map_id' labels)]

theorem nameInZone_normalizeName {zone : Text} (hn : WellFormed name) (hz : WellFormed zone) :
    nameInZone toLowercase (normalizeName toLowercase name) (normalizeName toLowercase zone) =
      nameInZone toLowercase name zone := by
  have hi {n : Text} (h : WellFormed n) : normalizeName toLowercase (normalizeName toLowercase n) =
    normalizeName toLowercase n := by
    obtain ⟨labels,hl,heq⟩ := normalizeName_of_wellFormed hlower h
    rw [heq,normalizeName_textOf hlower hl]
  unfold nameInZone
  rw [hi hn,hi hz]

omit hlower in
theorem orderKey_textOf (h : ∀ l∈labels,Folded l) :
    orderKey (textOf labels)=if labels=[] then [[]] else labels.reverse.map labelBytes := by
  unfold orderKey
  rw [labelsOf_textOf fun l hl => (h l hl).isLabel]
  split <;> rfl

omit hlower in
private theorem ne_key_of_root {labels : List Text} (h : ∀ l∈labels,Folded l) : [[]]≠labels.reverse.map labelBytes := by
  intro heq
  have hm : []∈labels.reverse.map labelBytes := heq ▸ mem_singleton.mpr rfl
  obtain ⟨l,hl,hn⟩ := mem_map.mp hm
  exact (h l (mem_reverse.mp hl)).labelBytes_ne_nil hn

omit hlower in
private theorem map_labelBytes_injective (ha : ∀ l∈a,Folded l) (hb : ∀ l∈b,Folded l)
    (h : a.map labelBytes=b.map labelBytes) : a=b := by
  induction a generalizing b with
  | nil => exact (map_eq_nil_iff.mp h.symm).symm
  | cons x a ih =>
    cases b with
    | nil => cases h
    | cons y b =>
      obtain ⟨hxy,hr⟩ := cons.inj h
      obtain ⟨hx,ha⟩ := forall_mem_cons.mp ha
      obtain ⟨hy,hb⟩ := forall_mem_cons.mp hb
      rw [hx.labelBytes_injective hy hxy,ih ha hb hr]

omit hlower in
theorem orderKey_injective (ha : ∀ l∈a,Folded l) (hb : ∀ l∈b,Folded l)
    (h : orderKey (textOf a)=orderKey (textOf b)) : a=b := by
  rw [orderKey_textOf ha,orderKey_textOf hb] at h
  split_ifs at h with hna hnb hnb
  · rw [hna,hnb]
  · exact absurd h (ne_key_of_root hb)
  · exact absurd h.symm (ne_key_of_root ha)
  · rw [map_reverse,map_reverse,reverse_inj] at h
    exact map_labelBytes_injective ha hb h

omit hlower in
theorem textOf_injective (ha : ∀ l∈a,Folded l) (hb : ∀ l∈b,Folded l) (h : textOf a=textOf b) : a=b :=
  orderKey_injective ha hb (congrArg orderKey h)

theorem nameInZone_textOf (h : ∀ l∈labels,Folded l) (hzo : ∀ l∈zone,Folded l) :
    nameInZone toLowercase (textOf labels) (textOf zone)=true ↔ zone <:+ labels := by
  unfold nameInZone
  simp only [normalizeName_textOf hlower h,normalizeName_textOf hlower hzo,Bool.or_eq_true,decide_eq_true_eq,
    isSuffixOf_iff_suffix]
  constructor
  · rintro ((heq | hr) | ⟨front,hf⟩)
    · exact textOf_injective h hzo heq ▸ suffix_rfl
    · have hn : zone=[] := textOf_injective hzo (by simp) (hr.trans rfl)
      exact hn ▸ nil_suffix
    · have hj : joinLabels labels=front ++ '.' :: joinLabels zone := by
        refine append_cancel_right (show _++['.']=_++['.'] from ?_)
        rw [append_assoc,cons_append]
        exact hf.symm
      have hne : labels≠[] := by
        rintro rfl
        simp [joinLabels] at hj
      have hs : labels=front.splitOn '.' ++ (joinLabels zone).splitOn '.' := by
        rw [← splitOn_intercalate '.' (fun l hl => (h l hl).undotted) hne]
        exact (congrArg (splitOn '.') hj).trans (splitOnP_append_cons front _ (by simp))
      rcases eq_or_ne zone [] with rfl | hz
      · exact nil_suffix
      · rw [joinLabels,splitOn_intercalate '.' (fun l hl => (hzo l hl).undotted) hz] at hs
        exact ⟨_,hs.symm⟩
  · rintro ⟨front,rfl⟩
    rcases eq_or_ne zone [] with rfl | hz
    · exact .inl (.inr rfl)
    · rcases eq_or_ne front [] with rfl | hf
      · exact .inl (.inl rfl)
      · refine .inr ⟨joinLabels front,?_⟩
        rw [textOf,textOf,joinLabels_append hf hz,append_assoc,cons_append]

omit hlower in
theorem orderKey_le_of_suffix (h : ∀ l∈labels,Folded l) (hs : zone <:+ labels) :
    orderKey (textOf zone) ≤ orderKey (textOf labels) := by
  have hzo : ∀ l∈zone,Folded l := fun l hl => h l (hs.subset hl)
  rw [orderKey_textOf h,orderKey_textOf hzo]
  split_ifs with hz hl hl
  · exact le_rfl
  · -- the root has one empty label, which is before any other
    obtain ⟨l,rest,hr⟩ := exists_cons_of_ne_nil (reverse_ne_nil_iff.mpr hl)
    have hf : Folded l := h l (mem_reverse.mp (hr ▸ mem_cons_self))
    obtain ⟨b,bs,hb⟩ := exists_cons_of_ne_nil hf.labelBytes_ne_nil
    rw [hr,map_cons,hb]
    exact (cons_lt_cons_iff.mpr (.inl (nil_lt_cons b bs))).le
  · exact absurd (eq_nil_of_suffix_nil (hl ▸ hs)) hz
  · exact le_of_isPrefix (List.IsPrefix.map labelBytes ( reverse_prefix.mpr hs))

end

end RolodexDns.CanonicalNames
