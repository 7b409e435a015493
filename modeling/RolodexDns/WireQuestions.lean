import Mathlib.Data.List.Forall2
import RolodexDns.WireMessages

/-! The question of a message, read and respelt octet by octet. What the readers find is what the
parser finds, and a question that is respelt differs only in the case of the letters of its name. -/
namespace RolodexDns.WireQuestions
open DomainNames DnsRecords ResponseReading StoredRecords WireMessages List Option

section

/-- What is written after the labels of the question; `none` while the walk is still under way. -/
def afterLabels : Nat → Bytes → Option (Option Bytes)
  | 0, _ => none
  | _+1, [] => some none
  | fuel+1, len::rest =>
    if len &&& 0xc0≠0 then some none
    else if len=0 then some (some rest)
    else afterLabels fuel (rest.drop len.toNat)

def wireQtype (query : Bytes) : Option RecordType :=
  match afterLabels (query.length+1) (query.drop 12) with
  | some (some (hi::lo::_)) => some ⟨hi.toUInt16 <<< 8 ||| lo.toUInt16⟩
  | _ => none

/-- The walk of `lastLabel`, which tells a walk that has ended from one under way. -/
def lastLabelWalk : Nat → Bytes → Option Bytes → Option (Option Bytes)
  | 0, _, _ => none
  | _+1, [], _ => some none
  | fuel+1, len::rest, last =>
    if len &&& 0xc0≠0 then some none
    else if len=0 then some last
    else if rest.length<len.toNat then some none
    else lastLabelWalk fuel (rest.drop len.toNat) (some (rest.take len.toNat))

variable {fuel : Nat} {question : Bytes}

-- Every round leaves a shorter rest behind: the length octet at least is gone.
theorem afterLabels_ends (hf : question.length<fuel) : (afterLabels fuel question).isSome := by
  fun_induction afterLabels fuel question with
  | case1 => omega
  | case2 | case3 | case4 => rfl
  | case5 fuel len rest _ _ ih =>
    refine ih ?_
    rw [length_cons] at hf
    rw [length_drop]
    omega

theorem lastLabelWalk_eq (hf : question.length<fuel) (last : Option Bytes) :
    lastLabelWalk fuel question last=some (lastLabel fuel question last) := by
  fun_induction lastLabelWalk fuel question last with
  | case1 => omega
  | case2 => rfl
  | case3 fuel last len rest hpo => rw [lastLabel,if_pos hpo]
  | case4 fuel last rest hp => rfl
  | case5 fuel last len rest hp hl hs => rw [lastLabel,if_neg hp,if_neg hl,if_pos hs]
  | case6 fuel last len rest hp hl hs ih =>
    rw [lastLabel,if_neg hp,if_neg hl,if_neg hs]
    refine ih ?_
    rw [length_cons] at hf
    rw [length_drop]
    omega

theorem afterLabels_wireName {labels : List Bytes} (hl : ∀ l∈labels,l≠[] ∧ l.length ≤ 63) (rest : Bytes)
    (hf : labels.length<fuel) : afterLabels fuel (wireName labels++rest)=some (some rest) := by
  induction labels generalizing fuel with
  | nil =>
    obtain ⟨fuel,rfl⟩ := Nat.exists_eq_add_of_lt hf
    rfl
  | cons l ls ih =>
    obtain ⟨⟨hne,hs⟩,hls⟩ := forall_mem_cons.mp hl
    obtain ⟨fuel,rfl⟩ := Nat.exists_eq_succ_of_ne_zero (Nat.ne_zero_of_lt hf)
    have hb : l.length<256 := Nat.lt_of_le_of_lt hs (by decide)
    rw [wireName_cons,afterLabels,if_neg (not_not.mpr (labelLength_plain hs)),if_neg (labelLength_ne_zero hb hne),
      toNat_labelLength hb,drop_left]
    exact ih hls (Nat.lt_of_succ_lt_succ hf)

/-- The labels `spelt` stand at the front of the question, without compression. -/
def Spells (query : Bytes) (spelt : List Bytes) (rest : Bytes) : Prop :=
  query.drop 12=wireName spelt++rest ∧ ∀ l∈spelt,l≠[] ∧ l.length ≤ 63

/-- The parser reads a question that is spelt out as it is laid down: labels in any case, then the type. -/
def ReadsQuestions (lib : ServerLibrary) : Prop :=
  ∀ {query p q},lib.fromBytes query=some p → p.queries=[q] → (∃ spelt rest,Spells query spelt rest) →
    ∃ spelt hi lo rest,Spells query spelt (hi::lo::rest) ∧ spelt.map (map asciiLower)=q.name.labels.map Label.bytes ∧
      q.queryType=⟨hi.toUInt16 <<< 8 ||| lo.toUInt16⟩

/-- The readers agree with the parser on a question that is spelt out, and end on any octets at all:
every octet is looked up with a check, so a walk that runs off the end is over. -/
theorem wire_readers_agree {lib : ServerLibrary} (hlib : ReadsQuestions lib) :
    (∀ {query p q},lib.fromBytes query=some p → p.queries=[q] → (∃ spelt rest,Spells query spelt rest) →
      wireQtype query=some q.queryType ∧ wireQuestionIsArpa query=isArpaSubtree q.name) ∧
    ∀ query : Bytes,(afterLabels (query.length+1) (query.drop 12)).isSome ∧
      ∃ last,lastLabelWalk ((query.drop 12).length+1) (query.drop 12) none=some last ∧
        wireQuestionIsArpa query=last.any fun label => label.map asciiLower=[97,114,112,97] := by
  refine ⟨fun {query p q} hp hq hpl => ?_,fun query => ⟨?_,_,lastLabelWalk_eq (Nat.lt_succ_self _) none,rfl⟩⟩
  · obtain ⟨spelt,hi,lo,rest,⟨hqu,hl⟩,hn,ht⟩ := hlib hp hq hpl
    refine ⟨?_,wireQuestionIsArpa_eq hqu hn⟩
    have hf : spelt.length<query.length+1 := by
      have hle := length_le_wireName spelt
      have hln := congrArg length hqu
      rw [length_drop,length_append] at hln
      omega
    rw [wireQtype,hqu,afterLabels_wireName hl _ hf,ht]
  · refine afterLabels_ends ?_
    rw [length_drop]
    omega

def arpaQuery : Packet × Bytes :=
  ({ Packet.new with queries := [⟨(Name.fromLabels [[97,114,112,97]]).getD .root,.A,.IN⟩] },
    [0,0,0,0,0,1,0,0,0,0,0,0]++wireName [[97,82,112,97]]++[0,1,0,1])

theorem arpaQuery_read : ReadsQuestions (tableLibrary [arpaQuery]) := by
  intro query p q hp hq _
  obtain ⟨rfl,rfl⟩ := Prod.mk.inj (mem_singleton.mp (mem_of_fromBytes hp))
  obtain rfl := singleton_inj.mp hq
  exact ⟨[[97,82,112,97]],0,1,[0,1],⟨by decide,by decide⟩,by decide,by decide⟩

theorem wire_readers_agree_arpa :
    wireQtype arpaQuery.2=some .A ∧ wireQuestionIsArpa arpaQuery.2=true := by
  refine ((wire_readers_agree arpaQuery_read).1 (p := arpaQuery.1) ?_ rfl ⟨[[97,82,112,97]],[0,1,0,1],?_,?_⟩).imp_right
    fun h => h.trans ?_
  all_goals decide

end

section

/-- The name at the front of `data` as dotted text, an octet as a character; `name` is what was read so far. -/
def extractLabels : Nat → Bytes → Text → Option Text
  | 0, _, _ => none
  | _+1, [], _ => none
  | fuel+1, len::rest, name =>
    if len=0 then some (name++['.'])
    else if rest.length<len.toNat then none
    else extractLabels fuel (rest.drop len.toNat)
      ((if name=[] then name else name++['.'])++(rest.take len.toNat).map Char.ofUInt8)

def extractQname (data : Bytes) : Option Text := extractLabels (data.length+1) data []

def isAsciiAlphabetic (b : UInt8) : Bool := (65 ≤ b && b ≤ 90) || (97 ≤ b && b ≤ 122)

def toss (coins : Nat → Bool) (i : Nat) (b : UInt8) : UInt8 := if isAsciiAlphabetic b && coins i then b ^^^ 0x20 else b

/-- The loop over the `n` octets of the label whose length stands at `pos`, in place. -/
def mixLabel (coins : Nat → Bool) (modified : Bytes) (pos n : Nat) : Bytes :=
  (range n).foldl (fun modified i => modified.modify (pos+1+i) (toss coins i)) modified

/-- The loop over the labels, each length read from the buffer that the rounds before have changed. -/
def mixBuffer : Nat → Bytes → Nat → (Nat → Bool) → Option Bytes
  | 0, _, _, _ => none
  | fuel+1, modified, pos, coins =>
    match modified[pos]? with
    | none => none
    | some len =>
      if len=0 then some modified
      else if modified.length<pos+1+len.toNat then none
      else mixBuffer fuel (mixLabel coins modified pos len.toNat) (pos+len.toNat+1) fun i => coins (len.toNat+i)

def randomizeQnameCase (queryData : Bytes) (coins : Nat → Bool) : Option (Bytes × Text × Text) :=
  if queryData.length<13 then none
  else do
    let original ← extractQname (queryData.drop 12)
    let modified ← mixBuffer ((queryData.drop 12).length+1) queryData 12 coins
    let randomized ← extractQname (modified.drop 12)
    some (modified,original,randomized)

variable (coins : Nat → Bool) (fuel : Nat)

theorem modify_append_cons (before rest : Bytes) (b : UInt8) (f : UInt8 → UInt8) :
    (before++b::rest).modify before.length f=before++f b::rest := by
  induction before with
  | nil => rfl
  | cons a before ih => rw [cons_append,length_cons,modify_succ_cons,ih,cons_append]

/-- In place or not, the octets of a label come out the same. -/
theorem mixLabel_eq (before label rest : Bytes) (len : UInt8) :
    mixLabel coins (before++len::(label++rest)) before.length label.length =
      before++len::(label.zipIdx.map fun e => toss coins e.2 e.1)++rest := by
  induction label using reverseRecOn generalizing rest with
  | nil => simp [mixLabel]
  | append_singleton label b ih =>
    have ih := ih (b::rest)
    unfold mixLabel at ih ⊢
    rw [length_append,length_singleton,range_succ,foldl_append,append_assoc,singleton_append,ih,foldl_cons,foldl_nil,
      zipIdx_append,map_append,zipIdx_singleton]
    generalize hm : (label.zipIdx.map fun e => toss coins e.2 e.1)=mixed
    have hl : before.length+1+label.length=(before++len::mixed).length := by
      rw [← hm,length_append,length_cons,length_map,length_zipIdx]
      omega
    rw [hl,modify_append_cons]
    simp

theorem mixBuffer_eq (before suffix : Bytes) :
    mixBuffer fuel (before++suffix) before.length coins=(mixLabels fuel suffix coins).map (before ++ ·) := by
  induction fuel generalizing before suffix coins with
  | zero => rfl
  | succ fuel ih =>
    cases suffix with
    | nil => simp [mixBuffer,mixLabels]
    | cons len rest =>
      unfold mixBuffer mixLabels
      have hre : (before++len::rest)[before.length]?=some len := by simp
      rw [hre]
      dsimp only
      have hr : (before++len::rest).length<before.length+1+len.toNat ↔ rest.length<len.toNat := by
        rw [length_append,length_cons]
        omega
      by_cases hz : len=0
      · rw [if_pos hz,if_pos hz]
        rfl
      rw [if_neg hz,if_neg hz]
      by_cases hs : rest.length<len.toNat
      · rw [if_pos (hr.mpr hs),if_pos hs]
        rfl
      rw [if_neg (mt hr.mp hs),if_neg hs]
      have hn : (rest.take len.toNat).length=len.toNat := length_take_of_le (Nat.le_of_not_lt hs)
      have hmi := mixLabel_eq coins before (rest.take len.toNat) (rest.drop len.toNat) len
      rw [take_append_drop,hn] at hmi
      rw [hmi]
      generalize hm : ((rest.take len.toNat).zipIdx.map fun e => toss coins e.2 e.1)=mixed
      have hne : before.length+len.toNat+1=(before++len::mixed).length := by
        rw [← hm,length_append,length_cons,length_map,length_zipIdx,hn]
        omega
      rw [hne,ih,Option.map_map,← hm]
      refine congrFun (congrArg Option.map (funext fun tail => ?_)) _
      exact append_assoc _ _ _

variable {coins fuel}

variable {queryData modified : Bytes} {labels labels' : List Bytes}

theorem randomizeQnameCase_bytes {original randomized : Text}
    (h : randomizeQnameCase queryData coins=some (modified,original,randomized)) :
    WireMessages.randomizeQnameCase queryData coins=some modified ∧ extractQname (queryData.drop 12)=some original ∧
      extractQname (modified.drop 12)=some randomized := by
  unfold randomizeQnameCase at h
  split_ifs at h with hs
  obtain ⟨original',ho,h⟩ := bind_eq_some_iff.mp h
  obtain ⟨modified',hm,h⟩ := bind_eq_some_iff.mp h
  obtain ⟨randomized',hr,h⟩ := bind_eq_some_iff.mp h
  cases h
  refine ⟨?_,ho,hr⟩
  have hh : (queryData.take 12).length=12 := length_take_of_le (by omega)
  have heq := mixBuffer_eq coins ((queryData.drop 12).length+1) (queryData.take 12) (queryData.drop 12)
  rw [take_append_drop,hh] at heq
  rw [WireMessages.randomizeQnameCase,if_neg hs]
  exact heq.symm.trans hm

/-- The same octet, or the same letter in the other case. -/
def SameLetter (b b' : UInt8) : Prop := b'=b ∨ isAsciiAlphabetic b=true ∧ b'=b ^^^ 0x20

theorem SameLetter.toLower_eq {b b' : UInt8} (h : SameLetter b b') :
    (Char.ofUInt8 b).toLower=(Char.ofUInt8 b').toLower := by
  rcases h with rfl | ⟨hl,rfl⟩
  · rfl
  · have ha : ∀ n : Fin 256,isAsciiAlphabetic (UInt8.ofNat n)=true →
        (Char.ofUInt8 (UInt8.ofNat n)).toLower=(Char.ofUInt8 (UInt8.ofNat n ^^^ 0x20)).toLower := by decide +kernel
    simpa using ha ⟨b.toNat,b.toNat_lt⟩ (by simpa using hl)

theorem toLower_eq {label label' : Bytes} (h : Forall₂ SameLetter label label') :
    (label.map Char.ofUInt8).map Char.toLower=(label'.map Char.ofUInt8).map Char.toLower := by
  induction h with
  | nil => rfl
  | cons hb _ ih => rw [map_cons,map_cons,map_cons,map_cons,hb.toLower_eq,ih]

theorem mixed_sameLetter (coins : Nat → Bool) (label : Bytes) (k : Nat) : Forall₂ SameLetter label
    ((label.zipIdx k).map fun e => toss coins e.2 e.1) := by
  induction label generalizing k with
  | nil => exact .nil
  | cons b label ih =>
    refine .cons ?_ (ih (k+1))
    dsimp only [toss]
    split_ifs with hf
    · exact .inr ⟨(Bool.and_eq_true_iff.mp hf).1,rfl⟩
    · exact .inl rfl

/-- The walk finds labels and a rest, and changes the labels only. -/
theorem mixLabels_spec {suffix mixed : Bytes} (h : mixLabels fuel suffix coins=some mixed) :
    ∃ labels labels' rest,suffix=wireName labels++rest ∧ mixed=wireName labels'++rest ∧
      (∀ l∈labels,l≠[] ∧ l.length<256) ∧ Forall₂ (Forall₂ SameLetter) labels labels' := by
  induction fuel generalizing suffix coins mixed with
  | zero => cases h
  | succ fuel ih =>
    cases suffix with
    | nil => cases h
    | cons len rest =>
      unfold mixLabels at h
      split_ifs at h with hz hs
      · cases h
        exact ⟨[],[],rest,by rw [hz]; rfl,by rw [hz]; rfl,by simp,.nil⟩
      obtain ⟨tail,ht,rfl⟩ := map_eq_some_iff.mp h
      obtain ⟨labels,labels',after,hd,rfl,hl,hsa⟩ := ih ht
      have hn : (rest.take len.toNat).length=len.toNat := length_take_of_le (Nat.le_of_not_lt hs)
      have hle : UInt8.ofNat len.toNat=len := UInt8.ofNat_toNat
      have hm := mixed_sameLetter coins (rest.take len.toNat) 0
      refine ⟨_::labels,_::labels',after,?_,?_,?_,.cons hm hsa⟩
      · rw [wireName_cons,hn,hle,← hd,take_append_drop]
      · rw [wireName_cons,← hm.length_eq,hn,hle]
        rfl
      · refine forall_mem_cons.mpr ⟨⟨fun hni => hz ?_,hn.trans_lt len.toNat_lt⟩,hl⟩
        rw [hni] at hn
        exact UInt8.toNat_inj.mp hn.symm

theorem length_wireName_same (h : Forall₂ (Forall₂ SameLetter) labels labels') :
    (wireName labels').length=(wireName labels).length := by
  induction h with
  | nil => rfl
  | cons hl _ ih =>
    simp only [wireName,flatMap_cons,length_append,length_cons] at ih ⊢
    have hle := hl.length_eq
    omega

theorem extractLabels_cons {l : Bytes} (hne : l≠[]) (hs : l.length<256) (ls : List Bytes) (rest : Bytes) (name : Text) :
    extractLabels (fuel+1) (wireName (l::ls)++rest) name=extractLabels fuel (wireName ls++rest)
      ((if name=[] then name else name++['.'])++l.map Char.ofUInt8) := by
  have hf : ¬(l++(wireName ls++rest)).length<l.length := by simp
  rw [wireName_cons,extractLabels,if_neg (labelLength_ne_zero hs hne),toNat_labelLength hs,if_neg hf,
    drop_left,take_left]

/-- Two spellings of the same labels are read in step. -/
theorem extractLabels_same (h : Forall₂ (Forall₂ SameLetter) labels labels')
    (hla : ∀ l∈labels,l≠[] ∧ l.length<256) {name name' : Text} (hn : name.map Char.toLower=name'.map Char.toLower)
    (rest : Bytes) : (extractLabels fuel (wireName labels++rest) name).map (map Char.toLower) =
      (extractLabels fuel (wireName labels'++rest) name').map (map Char.toLower) := by
  induction h generalizing fuel name name' with
  | nil =>
    cases fuel with
    | zero => rfl
    | succ fuel => simp [wireName,extractLabels,hn]
  | @cons l l' ls ls' hl hls ih =>
    obtain ⟨⟨hne,hs⟩,hr⟩ := forall_mem_cons.mp hla
    cases fuel with
    | zero => rfl
    | succ fuel =>
      have hne' : l'≠[] := by
        rintro rfl
        exact hne (forall₂_nil_right_iff.mp hl)
      have he : name=[] ↔ name'=[] := by
        rw [← map_eq_nil_iff,hn,map_eq_nil_iff]
      rw [extractLabels_cons hne hs,extractLabels_cons hne' (hl.length_eq ▸ hs)]
      refine ih hr ?_
      rw [map_append,map_append,toLower_eq hl,apply_ite (map Char.toLower),apply_ite (map Char.toLower),
        map_append,map_append,
        hn,if_congr he rfl rfl]

theorem wireName_append_inj {rest rest' : Bytes} (hla : ∀ l∈labels,l≠[] ∧ l.length<256)
    (hla' : ∀ l∈labels',l≠[] ∧ l.length<256) (h : wireName labels++rest=wireName labels'++rest') :
    labels=labels' ∧ rest=rest' := by
  induction labels generalizing labels' with
  | nil =>
    cases labels' with
    | nil => exact ⟨rfl,append_cancel_left h⟩
    | cons l' ls' =>
      obtain ⟨hne,hs⟩ := hla' l' mem_cons_self
      rw [wireName_cons] at h
      exact absurd (cons.inj h).1.symm (labelLength_ne_zero hs hne)
  | cons l ls ih =>
    obtain ⟨⟨hne,hs⟩,hls⟩ := forall_mem_cons.mp hla
    cases labels' with
    | nil =>
      rw [wireName_cons] at h
      exact absurd (cons.inj h).1 (labelLength_ne_zero hs hne)
    | cons l' ls' =>
      obtain ⟨⟨hne',hs'⟩,hls'⟩ := forall_mem_cons.mp hla'
      rw [wireName_cons,wireName_cons] at h
      obtain ⟨hle,h⟩ := cons.inj h
      have hle : l.length=l'.length := by rw [← toNat_labelLength hs,hle,toNat_labelLength hs']
      obtain ⟨hl,ht⟩ := append_inj h hle
      obtain ⟨hls,hr⟩ := ih hls hls' ht
      exact ⟨hl ▸ hls ▸ rfl,hr⟩

/-- What is respelt is the name at the front of the question. -/
theorem randomizeQnameCase_same (h : WireMessages.randomizeQnameCase queryData coins=some modified) :
    ∃ labels labels' rest,queryData=queryData.take 12++wireName labels++rest ∧
      modified=queryData.take 12++wireName labels'++rest ∧ (∀ l∈labels,l≠[] ∧ l.length<256) ∧
      Forall₂ (Forall₂ SameLetter) labels labels' := by
  unfold WireMessages.randomizeQnameCase at h
  split_ifs at h with hsh
  obtain ⟨mixed,hm,rfl⟩ := map_eq_some_iff.mp h
  obtain ⟨labels,labels',rest,hq,rfl,hl,hs⟩ := mixLabels_spec hm
  refine ⟨labels,labels',rest,?_,(append_assoc ..).symm,hl,hs⟩
  rw [append_assoc,← hq,take_append_drop]

theorem length_randomizeQnameCase
    (h : WireMessages.randomizeQnameCase queryData coins=some modified) : modified.length=queryData.length := by
  obtain ⟨labels,labels',rest,hq,rfl,-,hs⟩ := randomizeQnameCase_same h
  have hl := congrArg length hq
  rw [length_append,length_append] at hl ⊢
  rw [length_wireName_same hs,← hl]

/-- Respelling keeps the length of a query and all of it but the case of letters in the labels of its
name; the names it reports are those the query has before and after, and differ in case only. -/
theorem respelling_keeps {queryData modified : Bytes} {original randomized : Text}
    (h : randomizeQnameCase queryData coins=some (modified,original,randomized)) :
    modified.length=queryData.length ∧
    (∃ labels labels' rest,queryData=queryData.take 12++wireName labels++rest ∧
      modified=queryData.take 12++wireName labels'++rest ∧ (∀ l∈labels,l≠[] ∧ l.length<256) ∧
      Forall₂ (Forall₂ SameLetter) labels labels') ∧
    extractQname (queryData.drop 12)=some original ∧ extractQname (modified.drop 12)=some randomized ∧
    original.map Char.toLower=randomized.map Char.toLower := by
  obtain ⟨hm,ho,hr⟩ := randomizeQnameCase_bytes h
  have hre := randomizeQnameCase_same hm
  refine ⟨length_randomizeQnameCase hm,hre,ho,hr,?_⟩
  obtain ⟨labels,labels',rest,hq,rfl,hla,hs⟩ := hre
  have hh : (queryData.take 12).length=12 := by
    have hlo : ¬ queryData.length<13 := fun hsh => by simp [WireMessages.randomizeQnameCase,hsh] at hm
    exact length_take_of_le (by omega)
  have hle : (wireName labels'++rest).length=(wireName labels++rest).length := by
    rw [length_append,length_append,length_wireName_same hs]
  rw [append_assoc,drop_left' hh] at hr
  rw [hq,append_assoc,drop_left' hh] at ho
  have hl := @extractLabels_same ((wireName labels++rest).length+1) _ _ hs hla [] [] rfl rest
  unfold extractQname at ho hr
  rw [hle] at hr
  rw [ho,hr] at hl
  exact Option.some.inj hl

theorem respelling_keeps_arpa : ∃ modified original randomized,
    randomizeQnameCase arpaQuery.2 (fun _ => true)=some (modified,original,randomized) ∧
      modified≠arpaQuery.2 ∧ modified.length=arpaQuery.2.length := by
  have h : randomizeQnameCase arpaQuery.2 (fun _ => true) =
      some (arpaQuery.2.take 12++wireName [[65,114,80,65]]++[0,1,0,1],"aRpa.".toList,"ArPA.".toList) := by decide
  exact ⟨_,_,_,h,by decide,(respelling_keeps h).1⟩

end

end RolodexDns.WireQuestions
