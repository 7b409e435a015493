import RolodexDns.AuthenticData
import RolodexDns.CanonicalNames
import RolodexDns.LocalBlocklist
import RolodexDns.LocalTraces

/-! An entry of the operator's blocklist is kept as it was spelt, and removed only in that spelling. A query finds
it in the client's spelling and in lower case without the final dot, and as an address if the query is a reverse
name whose suffix is in lower case. -/
namespace RolodexDns.BlocklistSpellings
open DomainNames DnsRecords ResponseReading ProgramTraces StoredRecords TextFields WireMessages ServerOperations
  LocalAnswers LocalTraces RecordDatabase LocalBlocklist List Option

def stripSuffix (suffix name : Text) : Option Text :=
  if suffix.isSuffixOf name then some (name.take (name.length - suffix.length)) else none

/-- Hexadecimal digits below 256; a plus sign may precede them. -/
def parseHexU8 (s : Text) : Option Nat :=
  let digits := match s with
    | '+' :: rest => rest
    | s => s
  let value := digits.foldl (fun acc c => acc.bind fun n => (hexValue c).map (16*n + ·)) (some 0)
  if digits.isEmpty then none else value.filter (· < 256)

def ipv4OfParts (parts : List Text) : Option (BitVec 32) :=
  if parts.length=4 then
    let octets := parts.reverse.filterMap (parseUnsigned 256)
    if octets.length=4 then some (BitVec.ofNat 32 (octets.foldl (fun n o => 256*n+o) 0)) else none
  else none

/-- The octets of the nibbles, the first one first; what does not fit into an octet is lost. -/
def octetsOfNibbles : List Text → Option (List Nat)
  | high::low::rest => do
    let h ← parseHexU8 high
    let l ← parseHexU8 low
    let octets ← octetsOfNibbles rest
    return (16*h % 256 ||| l)::octets
  | _ => some []

def ipv6OfNibbles (nibbles : List Text) : Option (BitVec 128) :=
  if nibbles.length=32 then (octetsOfNibbles nibbles.reverse).map fun octets =>
    BitVec.ofNat 128 (octets.foldl (fun n o => 256*n+o) 0)
  else none

def extractIpFromName (name : Text) : Option IpAddr :=
  let name := trimEndDots name
  match (stripSuffix inAddrArpa name).bind fun stripped => ipv4OfParts (stripped.splitOn '.') with
  | some addr => some (.v4 addr)
  | none => ((stripSuffix ip6Arpa name).bind fun stripped => ipv6OfNibbles (stripped.splitOn '.')).map .v6

private theorem toLower_upper : ∀ n : Fin 26,(Char.ofNat (65+n)).toLower ≠ '.' ∧ (Char.ofNat (65+n)).toLower ≠ '+' ∧
    Char.ofNat (65+n) ≠ '+' ∧ (Char.ofNat (65+n)).toLower.isDigit=false ∧
    hexValue (Char.ofNat (65+n)).toLower=hexValue (Char.ofNat (65+n)) := by decide

/-- Lower case tells no dot, sign or digit apart from what it was, and no hexadecimal value. -/
private theorem toLower_kept (c : Char) : (c.toLower = '.' ↔ c = '.') ∧ (c.toLower = '+' ↔ c = '+') ∧
    (c.toLower.isDigit=true → c.toLower=c) ∧ hexValue c.toLower=hexValue c := by
  by_cases h : 65 ≤ c.toNat ∧ c.toNat ≤ 90
  · obtain ⟨hdo,hp,hs,hdi,hh⟩ := toLower_upper ⟨c.toNat - 65,by omega⟩
    have hc : Char.ofNat (65+(c.toNat - 65))=c := by rw [Nat.add_sub_cancel' h.1,Char.ofNat_toNat]
    simp only [hc] at hdo hp hs hdi hh
    refine ⟨⟨fun heq => absurd heq hdo,?_⟩,⟨fun heq => absurd heq hp,fun heq => absurd heq hs⟩,?_,hh⟩
    · rintro rfl
      exact absurd h (by decide)
    · intro hd
      rw [hdi] at hd
      cases hd
  · rw [toLower_of_not_upper h]
    exact ⟨Iff.rfl,Iff.rfl,fun _ => rfl,rfl⟩

theorem map_toLower_splitOn (t : Text) : (t.map Char.toLower).splitOn '.' = (t.splitOn '.').map (map Char.toLower) := by
  unfold splitOn
  induction t with
  | nil => rfl
  | cons c t ih =>
    rw [map_cons,splitOnP_cons_eq_if_modifyHead,splitOnP_cons_eq_if_modifyHead,ih]
    by_cases hc : c = '.'
    · rw [if_pos (by simpa using (toLower_kept c).1.mpr hc),if_pos (by simpa using hc)]
      rfl
    · rw [if_neg (by simpa using fun h => hc ((toLower_kept c).1.mp h)),if_neg (by simpa using hc)]
      obtain ⟨w,ws,hws⟩ := exists_cons_of_ne_nil (splitOnP_ne_nil (· == '.') t)
      rw [hws]
      rfl

theorem eq_of_map_toLower_digits {t digits : Text} (h : t.map Char.toLower=digits) (hd : ∀ c∈digits,c.isDigit=true) :
    t=digits := by
  subst h
  refine ((map_congr_left fun c hc => ?_).trans (map_id' t)).symm
  exact (toLower_kept c).2.2.1 (hd _ (mem_map_of_mem hc))

theorem parseHexU8_map_toLower (t : Text) : parseHexU8 (t.map Char.toLower)=parseHexU8 t := by
  have hf (t : Text) (acc : Option Nat) :
      (t.map Char.toLower).foldl (fun acc c => acc.bind fun n => (hexValue c).map (16*n + ·)) acc =
        t.foldl (fun acc c => acc.bind fun n => (hexValue c).map (16*n + ·)) acc := by
    rw [foldl_map]
    simp only [(toLower_kept _).2.2.2]
  have he (t : Text) : (t.map Char.toLower).isEmpty=t.isEmpty := by simp
  cases t with
  | nil => rfl
  | cons c t =>
    by_cases hc : c = '+'
    · subst hc
      simp only [parseHexU8,map_cons,show Char.toLower '+' = '+' from by decide,hf,he]
    · have hl : c.toLower ≠ '+' := fun h => hc ((toLower_kept c).2.1.mp h)
      have hco (c : Char) (h : c ≠ '+') (t : Text) : parseHexU8 (c::t) =
          ((c::t).foldl (fun acc c => acc.bind fun n => (hexValue c).map (16*n + ·)) (some 0)).filter (· < 256) := by
        unfold parseHexU8
        split
        · rename_i hp
          exact absurd (cons.inj hp).1 h
        · rfl
      rw [map_cons,hco _ hl,hco _ hc,← map_cons,hf]

theorem octetsOfNibbles_map_toLower (nibbles : List Text) :
    octetsOfNibbles (nibbles.map (map Char.toLower))=octetsOfNibbles nibbles := by
  fun_induction octetsOfNibbles nibbles with
  | case1 high low rest ih => simp only [map_cons,octetsOfNibbles,parseHexU8_map_toLower,ih]
  | case2 nibbles h =>
    match nibbles, h with
    | [], _ | [_], _ => rfl
    | high::low::rest, h => exact absurd rfl (h high low rest)

section
variable {n : Nat}

theorem isDigit_of_mem_decimal {c : Char} (h : c∈decimal n) : c.isDigit=true :=
  Nat.isDigit_of_mem_toDigits (by decide) (by decide) h

theorem hexDigit_ne_dot (h : n<16) : hexDigit n ≠ '.' ∧ (hexDigit n).toLower=hexDigit n := by
  have ha : ∀ n : Fin 16,hexDigit n ≠ '.' ∧ (hexDigit n).toLower=hexDigit n := by decide
  exact ha ⟨n,h⟩

theorem dot_not_mem_reverseLabels (ip : IpAddr) : ∀ l∈reverseLabels ip, '.' ∉ l := by
  intro l hl hd
  cases ip with
  | v4 addr =>
    obtain ⟨i,-,rfl⟩ := mem_map.mp hl
    exact absurd (isDigit_of_mem_decimal hd) (by decide)
  | v6 addr =>
    obtain ⟨i,-,rfl⟩ := mem_map.mp hl
    exact (hexDigit_ne_dot (Nat.mod_lt _ (by decide))).1 (mem_singleton.mp hd).symm

/-- A number from its digits in some base, the highest first. -/
theorem foldl_digits (b k n acc : Nat) :
    ((range k).reverse.map fun i => n / b^i % b).foldl (fun m d => b*m+d) acc=b^k*acc+n % b^k := by
  induction k generalizing acc with
  | zero => simp [Nat.mod_one]
  | succ k ih =>
    rw [range_succ,reverse_concat,map_cons,foldl_cons,ih,Nat.mod_pow_succ]
    ring

theorem ipv4OfParts_reverseLabels (addr : BitVec 32) : ipv4OfParts (reverseLabels (.v4 addr))=some addr := by
  have ho : (reverseLabels (.v4 addr)).reverse.filterMap (parseUnsigned 256) =
      (range 4).reverse.map fun i => addr.toNat / 256^i % 256 := by
    rw [reverseLabels,← map_reverse,filterMap_map]
    refine (filterMap_congr fun i _ => ?_).trans (congrFun filterMap_eq_map _)
    exact parseUnsigned_decimal (Nat.mod_lt _ (by decide))
  unfold ipv4OfParts
  rw [if_pos (by simp [reverseLabels]),ho]
  simp only [foldl_digits]
  rw [if_pos (by simp),Nat.mod_eq_of_lt (by simpa using addr.isLt),Nat.mul_zero,Nat.zero_add,BitVec.ofNat_toNat,
    BitVec.setWidth_eq]

theorem octet_of_nibbles (n k : Nat) :
    16*(n / 16^(2*k+1) % 16) % 256 ||| n / 16^(2*k) % 16=n / 256^k % 256 := by
  have hp : 16^(2*k)=256^k := by rw [Nat.pow_mul]
  have hh : n / 16^(2*k+1)=n / 256^k / 16 := by rw [Nat.pow_succ,hp,Nat.div_div_eq_div_mul]
  rw [hh,hp]
  generalize n / 256^k=m
  have hor : 16*(m / 16 % 16)+m % 16=16*(m / 16 % 16) ||| m % 16 :=
    Nat.two_pow_add_eq_or_of_lt (i := 4) (Nat.mod_lt m (by decide)) _
  rw [Nat.mod_eq_of_lt (by omega),← hor]
  omega

theorem parseHexU8_hexDigit (h : n<16) : parseHexU8 [hexDigit n]=some n := by
  have ha : ∀ n : Fin 16,parseHexU8 [hexDigit n]=some n.val := by decide
  exact ha ⟨n,h⟩

theorem octetsOfNibbles_reverse (n k : Nat) :
    octetsOfNibbles ((range (2*k)).reverse.map fun i => [hexDigit (n / 16^i % 16)]) =
      some ((range k).reverse.map fun i => n / 256^i % 256) := by
  induction k with
  | zero => rfl
  | succ k ih =>
    rw [show 2*(k+1)=2*k+1+1 from rfl,range_succ,range_succ,reverse_concat,reverse_concat,
      map_cons,map_cons,octetsOfNibbles,parseHexU8_hexDigit (Nat.mod_lt _ (by decide)),
      parseHexU8_hexDigit (Nat.mod_lt _ (by decide)),ih,range_succ,reverse_concat,map_cons]
    simp only [bind_eq_bind,bind_some,octet_of_nibbles]
    rfl

theorem ipv6OfNibbles_reverseLabels (addr : BitVec 128) : ipv6OfNibbles (reverseLabels (.v6 addr))=some addr := by
  have ho := octetsOfNibbles_reverse addr.toNat 16
  unfold ipv6OfNibbles
  rw [if_pos (by simp [reverseLabels]),reverseLabels,← map_reverse]
  rw [show 32=2*16 from rfl,ho,map_some,foldl_digits,Nat.mod_eq_of_lt (by simpa using addr.isLt),
    Nat.mul_zero,Nat.zero_add,BitVec.ofNat_toNat,BitVec.setWidth_eq]

end

section

theorem stripSuffix_append (front suffix : Text) : stripSuffix suffix (front++suffix)=some front := by
  rw [stripSuffix,if_pos (isSuffixOf_iff_suffix.mpr ⟨front,rfl⟩),length_append,Nat.add_sub_cancel,take_left]

theorem stripSuffix_eq_none {suffix name : Text} (h : ¬ suffix <:+ name) : stripSuffix suffix name=none :=
  if_neg fun hs => h (isSuffixOf_iff_suffix.mp hs)

theorem not_both_suffixes {name : Text} (h : inAddrArpa <:+ name) : ¬ ip6Arpa <:+ name := by
  intro h'
  exact absurd (suffix_of_suffix_length_le h' h (by decide)) (by decide)

theorem stripSuffix_inAddrArpa (front : Text) : stripSuffix inAddrArpa (front++ip6Arpa)=none :=
  stripSuffix_eq_none fun h => not_both_suffixes h ⟨front,rfl⟩

theorem stripSuffix_of_normalized {suffix q : Text} (hl : suffix.map Char.toLower=suffix)
    (h : ¬ suffix <:+ normalizeBlocklistName q) :
    stripSuffix suffix (trimEndDots q)=none := by
  refine stripSuffix_eq_none ?_
  rintro ⟨front,hf⟩
  refine h ⟨front.map Char.toLower,?_⟩
  rw [normalizeBlocklistName,← hf,map_append,hl]

variable (ip : IpAddr)

theorem map_toLower_reverseLabels : (reverseLabels ip).map (map Char.toLower)=reverseLabels ip := by
  refine (map_congr_left fun l hl => ?_).trans (map_id' _)
  cases ip with
  | v4 addr =>
    obtain ⟨i,-,rfl⟩ := mem_map.mp hl
    refine (map_congr_left fun c hc => toLower_of_not_upper ?_).trans (map_id' _)
    have hd := isDigit_of_mem_decimal hc
    simp only [Char.isDigit,Bool.and_eq_true,decide_eq_true_eq] at hd
    have hle : c.toNat ≤ 57 := UInt32.le_iff_toNat_le.mp hd.2
    omega
  | v6 addr =>
    obtain ⟨i,-,rfl⟩ := mem_map.mp hl
    exact congrArg (fun c => [c]) (hexDigit_ne_dot (Nat.mod_lt _ (by decide))).2

theorem reverseSuffix_spelled :
    (reverseSuffix ip).getLast?=some 'a' ∧ (reverseSuffix ip).map Char.toLower=reverseSuffix ip := by
  cases ip with
  | v4 addr => exact (by decide : inAddrArpa.getLast?=some 'a' ∧ inAddrArpa.map Char.toLower=inAddrArpa)
  | v6 addr => exact (by decide : ip6Arpa.getLast?=some 'a' ∧ ip6Arpa.map Char.toLower=ip6Arpa)

theorem getLast?_append_reverseSuffix (front : Text) (ip : IpAddr) : (front++reverseSuffix ip).getLast?=some 'a' := by
  rw [getLast?_append,(reverseSuffix_spelled ip).1,some_or]

theorem trimEndDots_reverseName : trimEndDots (reverseName ip)=joinLabels (reverseLabels ip)++reverseSuffix ip := by
  rw [reverseName,trimEndDots_concat]
  rw [getLast?_append_reverseSuffix]
  decide

theorem normalizeBlocklistName_reverseName :
    normalizeBlocklistName (reverseName ip)=joinLabels (reverseLabels ip)++reverseSuffix ip := by
  rw [normalizeBlocklistName,trimEndDots_reverseName,map_append,(reverseSuffix_spelled ip).2,
    CanonicalNames.map_toLower_joinLabels,map_toLower_reverseLabels]

/-- The labels before the suffix, in lower case, are those of the reverse name. -/
theorem spelled_iff {n front : Text} {ip : IpAddr} (hn : trimEndDots n=front++reverseSuffix ip) :
    normalizeBlocklistName n=normalizeBlocklistName (reverseName ip) ↔
      (front.splitOn '.').map (map Char.toLower)=reverseLabels ip := by
  rw [normalizeBlocklistName_reverseName,normalizeBlocklistName,hn,map_append,(reverseSuffix_spelled ip).2,
    append_left_inj,
    ← map_toLower_splitOn]
  constructor
  · intro h
    rw [h]
    exact splitOn_intercalate '.' (dot_not_mem_reverseLabels ip) (by cases ip <;> exact cons_ne_nil _ _)
  · intro h
    rw [← h]
    exact (intercalate_splitOn '.').symm

/-- What stands before the suffix of a reverse name, in whatever case, is read as the address. -/
theorem read_reverse {q front : Text} {ip : IpAddr} (hq : trimEndDots q=front++reverseSuffix ip)
    (hp : (front.splitOn '.').map (map Char.toLower)=reverseLabels ip) : extractIpFromName q=some ip := by
  unfold extractIpFromName
  rw [hq]
  cases ip with
  | v4 addr =>
    have hs : front.splitOn '.' = reverseLabels (.v4 addr) := by
      refine ext_getElem (by rw [← hp,length_map]) fun i h₁ h₂ => ?_
      refine eq_of_map_toLower_digits ?_ fun c hc => ?_
      · simp only [← hp,getElem_map]
      · obtain ⟨i,-,hi⟩ := mem_map.mp (getElem_mem h₂)
        rw [← hi] at hc
        exact isDigit_of_mem_decimal hc
    simp only [reverseSuffix,stripSuffix_append,bind_some,hs,ipv4OfParts_reverseLabels]
  | v6 addr =>
    have hr : ipv6OfNibbles (front.splitOn '.')=some addr := by
      have hl := ipv6OfNibbles_reverseLabels addr
      rw [← hp] at hl
      unfold ipv6OfNibbles at hl ⊢
      rwa [← map_reverse,octetsOfNibbles_map_toLower,length_map] at hl
    simp only [reverseSuffix,stripSuffix_inAddrArpa,bind_none,stripSuffix_append,bind_some,hr,map_some]

/-- A reverse name is read as its address exactly if its suffix is in lower case; if not, it is no address at all. -/
theorem extractIpFromName_spelled {q : Text} {ip : IpAddr}
    (h : normalizeBlocklistName q=normalizeBlocklistName (reverseName ip)) :
    (reverseSuffix ip <:+ trimEndDots q → extractIpFromName q=some ip) ∧
      (¬ reverseSuffix ip <:+ trimEndDots q → extractIpFromName q=none) := by
  constructor
  · rintro ⟨front,hf⟩
    exact read_reverse hf.symm ((spelled_iff hf.symm).mp h)
  · intro hn
    rw [normalizeBlocklistName_reverseName] at h
    have hm := stripSuffix_eq_none hn
    cases ip with
    | v4 addr =>
      have hv6 := @stripSuffix_of_normalized ip6Arpa q (by decide) fun hs => not_both_suffixes ⟨_,rfl⟩ (h ▸ hs)
      simp only [extractIpFromName,show stripSuffix inAddrArpa _=none from hm,hv6,bind_none,map_none]
    | v6 addr =>
      have hv4 := @stripSuffix_of_normalized inAddrArpa q (by decide) fun hs => not_both_suffixes (h ▸ hs) ⟨_,rfl⟩
      simp only [extractIpFromName,hv4,show stripSuffix ip6Arpa _=none from hm,bind_none,map_none]

example : extractIpFromName "1.0.0.127.in-addr.arpa."=some (.v4 0x7f000001) := by decide

end

section

/-- A name is read as an address exactly if it is the reverse name of the address, up to case and final dots. -/
def ReadsAsWritten (n : Text) : Prop :=
  ∀ ip,extractIpFromName n=some ip ↔ normalizeBlocklistName n=normalizeBlocklistName (reverseName ip)

/-- The suffix of a reverse name is in lower case, and labels that can be read are the ones that are written:
no octet has a sign or a leading zero, and a nibble is one digit. -/
structure Canonical (n : Text) : Prop where
  suffix : ∀ ip,normalizeBlocklistName n=normalizeBlocklistName (reverseName ip) → reverseSuffix ip <:+ trimEndDots n
  octets : ∀ front,trimEndDots n=front++inAddrArpa → (front.splitOn '.').length=4 →
    (∀ l∈front.splitOn '.', (parseUnsigned 256 l).isSome) → ∀ l∈front.splitOn '.', ∃ o : Fin 256,l=decimal o
  nibbles : ∀ front,trimEndDots n=front++ip6Arpa → (front.splitOn '.').length=32 →
    (∀ l∈front.splitOn '.', (parseHexU8 l).isSome) → ∀ l∈front.splitOn '.', ∃ v : Fin 16,l.map Char.toLower=[hexDigit v]

theorem isSome_ipv4OfParts {parts : List Text} :
    (ipv4OfParts parts).isSome ↔ parts.length=4 ∧ ∀ l∈parts,(parseUnsigned 256 l).isSome := by
  have ha : (parts.reverse.filterMap (parseUnsigned 256)).length=parts.length ↔
    ∀ l∈parts,(parseUnsigned 256 l).isSome := by
    simp
  rw [ipv4OfParts,← ha]
  by_cases hf : parts.length=4
  · rw [if_pos hf,hf]
    dsimp only
    split_ifs with ho
    · exact iff_of_true rfl ⟨rfl,ho⟩
    · exact iff_of_false nofun fun h => ho h.2
  · simp [hf]

variable {nibbles : List Text} {n : Text}

theorem isSome_octetsOfNibbles (he : nibbles.length % 2=0) :
    (octetsOfNibbles nibbles).isSome ↔ ∀ l∈nibbles,(parseHexU8 l).isSome := by
  fun_induction octetsOfNibbles nibbles with
  | case1 high low rest ih =>
    have hr := ih (by simpa [Nat.add_assoc] using he)
    rw [forall_mem_cons,forall_mem_cons,← hr]
    cases parseHexU8 high <;> cases parseHexU8 low <;> cases octetsOfNibbles rest <;> simp
  | case2 nibbles h =>
    match nibbles, h with
    | [], _ => simp
    | [_], _ => cases he
    | high::low::rest, h => exact absurd rfl (h high low rest)

theorem isSome_ipv6OfNibbles :
    (ipv6OfNibbles nibbles).isSome ↔ nibbles.length=32 ∧ ∀ l∈nibbles,(parseHexU8 l).isSome := by
  unfold ipv6OfNibbles
  split_ifs with hl
  · rw [isSome_map,isSome_octetsOfNibbles (by rw [length_reverse,hl])]
    simp [hl]
  · simp [hl]

theorem exists_number {b : Nat} (hb : 1<b) {labels : List Text} {write : Nat → Text}
    (h : ∀ l∈labels,∃ d : Fin b,l=write d) :
    ∃ m<b^labels.length,labels=(range labels.length).map fun i => write (m / b^i % b) := by
  obtain ⟨ds,rfl⟩ : labels∈Set.range (map fun d : Fin b => write d) := by
    rw [Set.range_list_map]
    exact fun l hl => (h l hl).imp fun _ => Eq.symm
  have hds : ∀ d∈ds.map Fin.val,d<b := by simp
  refine ⟨Nat.ofDigits b (ds.map Fin.val),by simpa using Nat.ofDigits_lt_base_pow_length hb hds,?_⟩
  refine ext_getElem (by simp) fun i hi _ => ?_
  rw [length_map] at hi
  have hd : (ds.map Fin.val).drop i=ds[i].val::(ds.map Fin.val).drop (i+1) := by
    rw [drop_eq_getElem_cons (by simpa using hi),getElem_map]
  rw [getElem_map,getElem_map,getElem_range,Nat.ofDigits_div_pow_eq_ofDigits_drop i (by omega) _ hds,hd,
    Nat.ofDigits_cons,
    Nat.add_mul_mod_self_left,Nat.mod_eq_of_lt ds[i].isLt]

/-- What is read is what the code makes of the labels before one of the suffixes. -/
theorem extractIpFromName_inv {ip : IpAddr} (h : extractIpFromName n=some ip) :
    ∃ front,trimEndDots n=front++reverseSuffix ip ∧ match ip with
      | .v4 addr => ipv4OfParts (front.splitOn '.')=some addr
      | .v6 addr => ipv6OfNibbles (front.splitOn '.')=some addr := by
  have hst {suffix name front : Text} (hs : stripSuffix suffix name=some front) : name=front++suffix := by
    unfold stripSuffix at hs
    split_ifs at hs with hsu
    obtain ⟨front',rfl⟩ := isSuffixOf_iff_suffix.mp hsu
    simpa using hs
  unfold extractIpFromName at h
  dsimp only at h
  split at h
  · rename_i addr hv4
    cases h
    obtain ⟨front,hf,hr⟩ := bind_eq_some_iff.mp hv4
    exact ⟨front,hst hf,hr⟩
  · obtain ⟨addr,hv6,rfl⟩ := map_eq_some_iff.mp h
    obtain ⟨front,hf,hr⟩ := bind_eq_some_iff.mp hv6
    exact ⟨front,hst hf,hr⟩

theorem canonical_of_reads (h : ReadsAsWritten n) : Canonical n where
  suffix ip hn := by
    by_contra hnt
    have hno := (extractIpFromName_spelled hn).2 hnt
    rw [(h ip).mpr hn] at hno
    cases hno
  octets front hn hle hp l hl := by
    obtain ⟨addr,ha⟩ := isSome_iff_exists.mp (isSome_ipv4OfParts.mpr ⟨hle,hp⟩)
    have hr : extractIpFromName n=some (.v4 addr) := by simp [extractIpFromName,hn,stripSuffix_append,ha]
    have hm : l.map Char.toLower∈reverseLabels (.v4 addr) := by
      rw [← (@spelled_iff n front (.v4 addr) hn).mp ((h _).mp hr)]
      exact mem_map_of_mem hl
    obtain ⟨i,-,hi⟩ := mem_map.mp hm
    exact ⟨⟨_,Nat.mod_lt _ (by decide)⟩,eq_of_map_toLower_digits hi.symm fun c => isDigit_of_mem_decimal⟩
  nibbles front hn hle hp l hl := by
    obtain ⟨addr,ha⟩ := isSome_iff_exists.mp (isSome_ipv6OfNibbles.mpr ⟨hle,hp⟩)
    have hr : extractIpFromName n=some (.v6 addr) := by simp [extractIpFromName,hn,stripSuffix_inAddrArpa,
      stripSuffix_append,ha]
    have hm : l.map Char.toLower∈reverseLabels (.v6 addr) := by
      rw [← (@spelled_iff n front (.v6 addr) hn).mp ((h _).mp hr)]
      exact mem_map_of_mem hl
    obtain ⟨i,-,hi⟩ := mem_map.mp hm
    exact ⟨⟨_,Nat.mod_lt _ (by decide)⟩,hi.symm⟩

/-- Canonical labels are those of the reverse name of some address. -/
theorem Canonical.exists_address (h : Canonical n) {ip : IpAddr} (hr : extractIpFromName n=some ip) :
    ∃ front ip',trimEndDots n=front++reverseSuffix ip' ∧
      (front.splitOn '.').map (map Char.toLower)=reverseLabels ip' := by
  obtain ⟨front,hn,hpa⟩ := extractIpFromName_inv hr
  cases ip with
  | v4 addr =>
    obtain ⟨hl,hp⟩ := isSome_ipv4OfParts.mp (isSome_of_mem hpa)
    obtain ⟨m,hm,hla⟩ := exists_number (by decide) (h.octets front hn hl hp)
    refine ⟨front,.v4 (BitVec.ofNat 32 m),hn,?_⟩
    rw [← map_toLower_reverseLabels,reverseLabels,BitVec.toNat_ofNat,Nat.mod_eq_of_lt (by rw [hl] at hm; omega),
      ← hl,← hla]
  | v6 addr =>
    obtain ⟨hl,hp⟩ := isSome_ipv6OfNibbles.mp (isSome_of_mem hpa)
    obtain ⟨m,hm,hla⟩ := @exists_number 16 (by decide) _ (fun v => [hexDigit v])
      (forall_mem_map.mpr (h.nibbles front hn hl hp))
    rw [length_map,hl] at hm hla
    refine ⟨front,.v6 (BitVec.ofNat 128 m),hn,?_⟩
    rw [hla,reverseLabels,BitVec.toNat_ofNat,Nat.mod_eq_of_lt (by simpa using hm)]

/-- Every address is read from its reverse name, and a name is read as it is written exactly if it is canonical. -/
theorem reverse_names_iff (ip : IpAddr) (n : Text) :
    extractIpFromName (reverseName ip)=some ip ∧ (ReadsAsWritten n ↔ Canonical n) := by
  refine ⟨(extractIpFromName_spelled rfl).1 ⟨_,(trimEndDots_reverseName ip).symm⟩,canonical_of_reads,fun h ip => ?_⟩
  constructor
  · intro hr
    obtain ⟨front,ip',hn,hl⟩ := h.exists_address hr
    have hs := (spelled_iff hn).mpr hl
    have hr' := (extractIpFromName_spelled hs).1 ⟨front,hn.symm⟩
    rw [hr] at hr'
    cases hr'
    exact hs
  · exact fun hs => (extractIpFromName_spelled hs).1 (h.suffix ip hs)

/-- An octet with a leading zero is read as if it had none. -/
theorem leading_zero_read :
    extractIpFromName "01.0.0.127.in-addr.arpa."=some (.v4 0x7f000001) ∧
      ¬ ReadsAsWritten "01.0.0.127.in-addr.arpa." := by
  have hr : extractIpFromName "01.0.0.127.in-addr.arpa."=some (.v4 0x7f000001) := by decide
  exact ⟨hr,fun h => absurd ((h _).mp hr) (by decide)⟩

end

section
variable (cfg : ServerConfig) (reply : (o : LocalOp) → LocalRes o) (ask : Asked) {lib : ServerLibrary}
  {authoritative : Bool}
  {step : LocalStep}

/-- The server's own data, in the order it is tried. -/
def localStages (overrideIp : Option IpAddr) (scope : Option Text) : List LocalDecision :=
  firstSteps cfg ask overrideIp scope++[checkDnameGlobal cfg.lib ask.qname,managedZone cfg ask,
    authoritativeZone cfg ask]

def ownAnswer (scope : Option Text) : Option LocalStep :=
  eval reply (firstSome (localStages cfg ask ((eval reply (ingressTarget ask)).map Prod.snd) scope))

/-- One of the two gates turns the query away: the one for addresses, which comes first, or the one for names, if
nothing before it has answered. -/
def blocked : Bool :=
  match eval reply (scopeOf cfg ask) with
  | .error _ => false
  | .ok scope =>
    (eval reply (reverseBlocklist cfg.lib ask scope.isSome)).isSome ||
      ((ownAnswer cfg reply ask scope).isNone && (eval reply (recursionGate cfg ask)).isNone &&
        (eval reply (domainBlocklist cfg.lib ask)).isSome)

variable {cfg reply ask} {scope : Option Text}

theorem eval_localListsName (q : Text) : eval reply (localListsName q)=true ↔
    reply (.lookupLocalBlocklist q)=true ∨
      normalizeBlocklistName q≠[] ∧ reply (.lookupLocalBlocklist (normalizeBlocklistName q))=true := by
  unfold localListsName
  simp only [eval_bind,LocalProg.perform,eval_perform]
  by_cases hq : reply (.lookupLocalBlocklist q)=true
  · simp [hq]
  · by_cases hs : normalizeBlocklistName q=q
    · rw [hs]
      simp [hq]
    · by_cases he : normalizeBlocklistName q=[]
      · simp [hq,he]
      · simp [hq,hs,he]

theorem eval_reverseBlocklist_none (h : lib.extractIpFromName ask.qname=none) :
    eval reply (reverseBlocklist lib ask authoritative)=none := by
  unfold reverseBlocklist
  rw [h]
  rfl

theorem eval_reverseBlocklist_some {ip : IpAddr}
    (h : lib.extractIpFromName ask.qname=some ip) (hn : reply (.isDnsblAllowlisted ask.qname)=false)
    (hip : reply (.isDnsblAllowlistedExact (lib.ipText ip))=false) :
    eval reply (reverseBlocklist lib ask authoritative) =
      if reply (.lookupLocalBlocklist (lib.ipText ip)) || eval reply (localListsName ask.qname) then
        some (.answer (.edns .NXDomain [] authoritative)) else none := by
  unfold reverseBlocklist ipBlocked blocklistExempt
  rw [h]
  simp only [eval_bind,LocalProg.perform,eval_perform,hn,hip,Bool.false_eq_true,if_false]
  by_cases hl : reply (.lookupLocalBlocklist (lib.ipText ip))=true
  · simp [hl]
  · by_cases hlo : eval reply (localListsName ask.qname)=true <;> simp [hl,hlo]

theorem eval_domainBlocklist (h : lib.extractIpFromName ask.qname=none)
    (hn : reply (.isDnsblAllowlisted ask.qname)=false) (hl : reply (.isNameListed ask.qname)=false) :
    eval reply (domainBlocklist lib ask) =
      if eval reply (localListsName ask.qname) then some (.answer (.edns .NXDomain [] false)) else none := by
  unfold domainBlocklist blocklistExempt
  simp only [h,isSome_none,Bool.false_eq_true,if_false,eval_bind,LocalProg.perform,eval_perform,hn,eval_pure]
  cases eval reply (localListsName ask.qname) <;> simp [hl]

theorem reverseBlocklist_nxDomain
    (h : eval reply (reverseBlocklist lib ask authoritative)=some step) :
    step=.answer (.edns .NXDomain [] authoritative) := by
  unfold reverseBlocklist at h
  cases hip : lib.extractIpFromName ask.qname with
  | none => simp [hip] at h
  | some ip =>
    simp only [hip,eval_bind] at h
    split at h
    · exact (Option.some.inj h).symm
    · cases h

theorem domainBlocklist_nxDomain (h : eval reply (domainBlocklist lib ask)=some step) :
    step=.answer (.edns .NXDomain [] false) := by
  have hg {b : Bool} (h : eval reply (if b=true then (pure (some (.answer (.edns .NXDomain [] false))) : LocalProg _)
      else pure none)=some step) : step=.answer (.edns .NXDomain [] false) := by
    cases b with
    | false => cases h
    | true => exact (Option.some.inj h).symm
  unfold domainBlocklist at h
  split at h
  · cases h
  · rw [eval_bind] at h
    split at h
    · cases h
    · rw [eval_bind] at h
      split at h
      · exact hg (b := true) h
      · exact hg h

/-- The gate for addresses comes before everything else. -/
theorem ownAnswer_of_reverseBlocklist
    (h : eval reply (reverseBlocklist cfg.lib ask scope.isSome)=some step) :
    ownAnswer cfg reply ask scope=some step := by
  unfold ownAnswer
  rw [eval_firstSome]
  cases scope with
  | none => rw [localStages,firstSteps,cons_append,findSome?_cons,
      show eval reply (reverseBlocklist cfg.lib ask false)=some step from h]
  | some scope =>
    have hs (overrideIp : Option IpAddr) : eval reply (scopedAnswer cfg ask scope overrideIp)=some step := by
      rw [scopedAnswer,eval_firstSome,findSome?_cons,show eval reply (reverseBlocklist cfg.lib ask true) =
        some step from h]
    rw [localStages,firstSteps,cons_append,findSome?_cons,hs]

theorem localAnswer_of_blocked (h : blocked cfg reply ask=true) :
    ∃ authoritative,eval reply (localAnswer cfg ask)=some (.answer (.edns .NXDomain [] authoritative)) := by
  unfold blocked at h
  cases hsc : eval reply (scopeOf cfg ask) with
  | error reply => simp [hsc] at h
  | ok scope =>
    have hl : eval reply (localAnswer cfg ask)=(ownAnswer cfg reply ask scope).or
        ([recursionGate cfg ask,domainBlocklist cfg.lib ask,cachedAnswer cfg ask].findSome? (eval reply)) := by
      rw [eval_localAnswer rfl hsc,ownAnswer,eval_firstSome,← findSome?_append,localStages,append_assoc]
      rfl
    rw [hl]
    simp only [hsc,Bool.or_eq_true,Bool.and_eq_true,isNone_iff_eq_none,isSome_iff_exists] at h
    rcases h with ⟨step,hs⟩ | ⟨⟨ho,hg⟩,step,hs⟩
    · rw [ownAnswer_of_reverseBlocklist hs,reverseBlocklist_nxDomain hs]
      exact ⟨_,rfl⟩
    · rw [ho,findSome?_cons,hg,findSome?_cons,hs,domainBlocklist_nxDomain hs]
      exact ⟨_,rfl⟩

end

section

def withList (list : LocalList) (other : (o : LocalOp) → LocalRes o) : (o : LocalOp) → LocalRes o
  | .lookupLocalBlocklist entry => list.lookupLocalBlocklist entry
  | o => other o

/-- What an entry is for: a name, in lower case without its final dot, or an address. -/
inductive Subject where
  | name (n : Text)
  | address (ip : IpAddr)

/-- The query is for it: a spelling of the name, which is not in the reverse zones, or of the address's reverse name. -/
def Subject.AskedBy : Subject → Asked → Prop
  | .name n, ask => normalizeBlocklistName ask.qname=n ∧ ¬ inAddrArpa <:+ n ∧ ¬ ip6Arpa <:+ n
  | .address ip, ask => normalizeBlocklistName ask.qname=normalizeBlocklistName (reverseName ip) ∧
      isArpaSubtree ask.question.name=true

/-- The entries that such a query is compared with: its name as the client spelt it, and in lower case without the
final dot. A reverse name is compared at all only if its suffix is in lower case, and then also as an address. -/
def Subject.Recognised (lib : ServerLibrary) (q entry : Text) : Subject → Prop
  | .name _ => entry=q ∨ entry≠[] ∧ entry=normalizeBlocklistName q
  | .address ip => reverseSuffix ip <:+ trimEndDots q ∧ (entry=lib.ipText ip ∨ entry=q ∨ entry≠[] ∧
      entry=normalizeBlocklistName q)

variable (cfg : ServerConfig) (other : (o : LocalOp) → LocalRes o) (subject : Subject)

/-- The client is one that is served: an overlay peer is in a scope, and names are resolved for it. -/
def Subject.Served (ask : Asked) : Prop :=
  (∃ scope,eval other (scopeOf cfg ask)=.ok scope) ∧ ∀ n,subject=.name n → eval other (recursionGate cfg ask)=none

/-- A query for it that no allowlist exempts, that no provider lists, and that the server's own data does not answer. -/
structure Subject.Plain (ask : Asked) : Prop where
  asked : subject.AskedBy ask
  name : other (.isDnsblAllowlisted ask.qname)=false
  literal : ∀ ip,subject=.address ip → other (.isDnsblAllowlistedExact (cfg.lib.ipText ip))=false
  unlisted : other (.isNameListed ask.qname)=false
  unanswered : ∀ n,subject=.name n → ∀ list scope,eval other (scopeOf cfg ask)=.ok scope →
    ownAnswer cfg (withList list other) ask scope=none

variable {cfg other subject} {ask : Asked} {list : LocalList}

def Elsewhere : LocalOp → Prop
  | .lookupLocalBlocklist _ => False
  | _ => True

theorem withList_elsewhere {o : LocalOp} (h : Elsewhere o) : withList list other o=other o := by
  cases o <;> first | rfl | exact h.elim

theorem eval_scopeOf_withList : eval (withList list other) (scopeOf cfg ask)=eval other (scopeOf cfg ask) := by
  have hs {o : LocalOp} {α : Type} {f : LocalRes o → LocalProg α} (ho : Elsewhere o)
      (hf : ∀ r,(f r).Only Elsewhere) :
      (LocalProg.perform o >>= f).Only Elsewhere := ⟨ho,fun r _ => hf r⟩
  have hp {α β : Type} {a : α} {f : α → LocalProg β} (hf : (f a).Only Elsewhere) :
      ((pure a : LocalProg α) >>= f).Only Elsewhere := hf
  have hsa : (scopeOf cfg ask).Only Elsewhere := by
    repeat' first | trivial | split | refine hs trivial fun _ => ?_ | refine hp ?_
  exact eval_congr hsa fun o => withList_elsewhere

theorem eval_recursionGate_withList :
    eval (withList list other) (recursionGate cfg ask)=eval other (recursionGate cfg ask) := by
  unfold recursionGate
  split
  · rfl
  · split <;> rfl

theorem extractIpFromName_of_name {q name : Text} (h : normalizeBlocklistName q=name) (hv4 : ¬ inAddrArpa <:+ name)
    (hv6 : ¬ ip6Arpa <:+ name) :
    extractIpFromName q=none := by
  subst h
  simp only [extractIpFromName,stripSuffix_of_normalized (show inAddrArpa.map _=_ by decide) hv4,
    stripSuffix_of_normalized (show ip6Arpa.map _=_ by decide) hv6,bind_none,map_none]

theorem lists_iff {q : Text} : eval (withList list other) (localListsName q)=true ↔
    ∃ entry,list.lookupLocalBlocklist entry=true ∧ (entry=q ∨ entry≠[] ∧ entry=normalizeBlocklistName q) := by
  rw [eval_localListsName]
  constructor
  · rintro (h | ⟨hne,h⟩)
    · exact ⟨q,h,.inl rfl⟩
    · exact ⟨_,h,.inr ⟨hne,rfl⟩⟩
  · rintro ⟨entry,h,rfl | ⟨hne,rfl⟩⟩
    · exact .inl h
    · exact .inr ⟨hne,h⟩

/-- A query is turned away exactly if its client is served and it is recognised in an entry of the list. -/
theorem blocked_iff (hlb : cfg.lib.extractIpFromName=extractIpFromName) (h : subject.Plain cfg other ask) :
    blocked cfg (withList list other) ask=true ↔
      subject.Served cfg other ask ∧ ∃ entry,list.lookupLocalBlocklist entry=true ∧
        subject.Recognised cfg.lib ask.qname entry := by
  have hn : withList list other (.isDnsblAllowlisted ask.qname)=false := h.name
  unfold blocked Subject.Served
  rw [eval_scopeOf_withList,eval_recursionGate_withList]
  cases hsc : eval other (scopeOf cfg ask) with
  | error reply => simp
  | ok scope =>
    cases subject with
    | name n =>
      obtain ⟨hq,hv4,hv6⟩ := h.asked
      have hip : cfg.lib.extractIpFromName ask.qname=none := by rw [hlb,extractIpFromName_of_name hq hv4 hv6]
      have ho := h.unanswered n rfl list scope hsc
      have hli := @lists_iff other list ask.qname
      simp only [eval_reverseBlocklist_none hip,ho,eval_domainBlocklist hip hn h.unlisted,isSome_none,isNone_none,
        Bool.false_or,Bool.true_and,Bool.and_eq_true,isNone_iff_eq_none,Subject.Recognised]
      rw [← hli]
      by_cases hl : eval (withList list other) (localListsName ask.qname)=true <;> simp [hl]
    | address ip =>
      obtain ⟨hq,ha⟩ := h.asked
      have hsp := extractIpFromName_spelled hq
      have hg : (eval other (recursionGate cfg ask)).isNone=false := by
        unfold recursionGate
        split
        · rfl
        · rfl
      by_cases hs : reverseSuffix ip <:+ trimEndDots ask.qname
      · have hip : cfg.lib.extractIpFromName ask.qname=some ip := by rw [hlb,hsp.1 hs]
        have hlt : withList list other (.isDnsblAllowlistedExact (cfg.lib.ipText ip))=false := h.literal ip rfl
        have hli := @lists_iff other list ask.qname
        have he : (∃ entry,list.lookupLocalBlocklist entry=true ∧
          Subject.Recognised cfg.lib ask.qname entry (.address ip)) ↔
            list.lookupLocalBlocklist (cfg.lib.ipText ip)=true ∨
              eval (withList list other) (localListsName ask.qname)=true := by
          rw [hli]
          constructor
          · rintro ⟨entry,hm,-,rfl | hse⟩
            · exact .inl hm
            · exact .inr ⟨entry,hm,hse⟩
          · rintro (hm | ⟨entry,hm,hse⟩)
            · exact ⟨_,hm,hs,.inl rfl⟩
            · exact ⟨entry,hm,hs,.inr hse⟩
        rw [he]
        simp only [eval_reverseBlocklist_some hip hn hlt,hg]
        show _ ↔ _ ∧ (withList list other (.lookupLocalBlocklist (cfg.lib.ipText ip))=true ∨ _)
        by_cases hlit : withList list other (.lookupLocalBlocklist (cfg.lib.ipText ip))=true
        · simp [hlit]
        · by_cases hl : eval (withList list other) (localListsName ask.qname)=true <;> simp [hlit,hl]
      · have hip : cfg.lib.extractIpFromName ask.qname=none := by rw [hlb,hsp.2 hs]
        simp [eval_reverseBlocklist_none hip,hg,Subject.Recognised,hs]

end

section
variable (cfg : ServerConfig) (other : (o : LocalOp) → LocalRes o) (list : LocalList) (reason e e' r : Text)
  (ask ask' : Asked)

/-- The entry is added and blocks the query; removed in another spelling, it blocks it no longer; and it
makes no difference in which spelling the entry was added or the query asked. -/
structure SpellingIndependent : Prop where
  blocks : blocked cfg (withList (list.addLocalBlocklistEntry e reason) other) ask=true
  unblocks : blocked cfg (withList ((list.addLocalBlocklistEntry e reason).removeLocalBlocklistEntry r).2
    other) ask=false
  entries : blocked cfg (withList (list.addLocalBlocklistEntry e' reason) other) ask =
    blocked cfg (withList (list.addLocalBlocklistEntry e reason) other) ask
  queries : blocked cfg (withList (list.addLocalBlocklistEntry e reason) other) ask' =
    blocked cfg (withList (list.addLocalBlocklistEntry e reason) other) ask

def Listed (entry : Text) : Prop := list.lookupLocalBlocklist entry=true ∨ entry=e

variable {cfg other list reason e e' r ask ask'} {subject : Subject}

theorem blocked_add_iff (hl : cfg.lib.extractIpFromName=extractIpFromName) (h : subject.Plain cfg other ask) :
    blocked cfg (withList (list.addLocalBlocklistEntry e reason) other) ask=true ↔
      subject.Served cfg other ask ∧ ∃ entry,Listed list e entry ∧ subject.Recognised cfg.lib ask.qname entry := by
  simp only [blocked_iff hl h,LocalList.lookup_add,Listed]

theorem blocked_remove_iff (hl : cfg.lib.extractIpFromName=extractIpFromName) (h : subject.Plain cfg other ask) :
    blocked cfg (withList ((list.addLocalBlocklistEntry e reason).removeLocalBlocklistEntry r).2 other) ask=true ↔
      subject.Served cfg other ask ∧ ∃ entry,(Listed list e entry ∧ entry≠r) ∧
        subject.Recognised cfg.lib ask.qname entry := by
  simp only [blocked_iff hl h,LocalList.lookup_add,LocalList.lookup_remove,Listed]

/-- The spelling makes no difference exactly if the client is served in both cases, each of the spellings is one that
the query it is to block is compared with, and what is removed is all of the list that the query is compared with. The
texts may be any, the spellings of the subject among them. -/
theorem spelling_independent_iff (hlib : cfg.lib.extractIpFromName=extractIpFromName) (h : subject.Plain cfg other ask)
    (h' : subject.Plain cfg other ask') :
    SpellingIndependent cfg other list reason e e' r ask ask' ↔
      (subject.Served cfg other ask ∧ subject.Served cfg other ask') ∧
      (∃ entry,Listed list e entry ∧ subject.Recognised cfg.lib ask.qname entry) ∧
      (∀ entry,Listed list e entry → subject.Recognised cfg.lib ask.qname entry → entry=r) ∧
      (∃ entry,Listed list e' entry ∧ subject.Recognised cfg.lib ask.qname entry) ∧
      (∃ entry,Listed list e entry ∧ subject.Recognised cfg.lib ask'.qname entry) := by
  have ha := @blocked_add_iff cfg other list reason e ask subject hlib h
  have hr := @blocked_remove_iff cfg other list reason e r ask subject hlib h
  have he := @blocked_add_iff cfg other list reason e' ask subject hlib h
  have hq := @blocked_add_iff cfg other list reason e ask' subject hlib h'
  constructor
  · rintro ⟨hb,hu,hen,hqu⟩
    obtain ⟨hs,hm⟩ := ha.mp hb
    obtain ⟨hs',hm'⟩ := hq.mp (hqu.trans hb)
    refine ⟨⟨hs,hs'⟩,hm,fun entry hl hre => ?_,(he.mp (hen.trans hb)).2,hm'⟩
    by_contra hne
    rw [hr.mpr ⟨hs,entry,⟨hl,hne⟩,hre⟩] at hu
    cases hu
  · rintro ⟨⟨hs,hs'⟩,hm,ho,hmatchEntry,hmatchQuery⟩
    have hb := ha.mpr ⟨hs,hm⟩
    refine ⟨hb,?_,(he.mpr ⟨hs,hmatchEntry⟩).trans hb.symm,(hq.mpr ⟨hs',hmatchQuery⟩).trans hb.symm⟩
    rw [← Bool.not_eq_true,hr]
    rintro ⟨-,entry,⟨hl,hne⟩,hre⟩
    exact hne (ho entry hl hre)

end

def readingConfig : ServerConfig :=
  { AuthenticData.forwardingConfig with lib := { AuthenticData.forwardingConfig.lib with extractIpFromName :=
    extractIpFromName } }

def noEntries : LocalList := .load ⟨none,none,none⟩

def askA (qname : Text) : Asked := ⟨[],AuthenticData.queryA,none,⟨AuthenticData.nameA,.A,.IN⟩,qname,none,none⟩

def nameLoopback : Name :=
  ⟨[⟨[49],by decide,by decide,by decide⟩,⟨[48],by decide,by decide,by decide⟩,⟨[48],by decide,by decide,by decide⟩,
    ⟨[49,50,55],by decide,by decide,by decide⟩,⟨[105,110,45,97,100,100,114],by decide,by decide,by decide⟩,
    ⟨[97,114,112,97],by decide,by decide,by decide⟩],by decide⟩

def askLoopback (qname : Text) : Asked := ⟨[],Packet.new,none,⟨nameLoopback,.PTR,.IN⟩,qname,none,none⟩

def subjectA : Subject := .name ['a']

def loopback : IpAddr := .v4 0x7f000001

def listing (entry : Text) : LocalList := noEntries.addLocalBlocklistEntry entry []

theorem plain_askA {qname : Text} (h : qname=['A','.'] ∨ qname=['a','.']) :
    subjectA.Plain readingConfig holdsNothing (askA qname) where
  asked := by rcases h with rfl | rfl <;> exact ⟨by decide,by decide,by decide⟩
  name := rfl
  literal := nofun
  unlisted := rfl
  unanswered := by rcases h with rfl | rfl <;> exact fun _ _ list scope _ => by cases scope <;> rfl

theorem spelling_independent_a :
    SpellingIndependent readingConfig holdsNothing noEntries [] ['a'] ['A','.'] ['a'] (askA ['A','.'])
      (askA ['a','.']) := by
  refine (spelling_independent_iff rfl (plain_askA (.inl rfl)) (plain_askA (.inr rfl))).mpr
    ⟨⟨⟨⟨none,rfl⟩,fun _ _ => rfl⟩,⟨none,rfl⟩,fun _ _ => rfl⟩,⟨['a'],.inr rfl,.inr ⟨by decide,by decide⟩⟩,?_,
      ⟨['A','.'],.inr rfl,.inl rfl⟩,⟨['a'],.inr rfl,.inr ⟨by decide,by decide⟩⟩⟩
  rintro entry (h | rfl) -
  · cases h
  · rfl

/-- An entry in upper case does not block the name asked in lower case; one with the final dot is not removed without
it; and an entry for an address does not block its reverse name in upper case, which it does in lower case. -/
theorem spelling_evades :
    blocked readingConfig (withList (listing ['A']) holdsNothing) (askA ['a','.'])=false ∧
    blocked readingConfig (withList ((listing ['a','.']).removeLocalBlocklistEntry ['a']).2 holdsNothing)
      (askA ['a','.'])=true ∧
    blocked readingConfig (withList (listing (readingConfig.lib.ipText loopback)) holdsNothing)
      (askLoopback "1.0.0.127.IN-ADDR.ARPA.")=false ∧
    blocked readingConfig (withList (listing (readingConfig.lib.ipText loopback)) holdsNothing)
      (askLoopback "1.0.0.127.in-addr.arpa.")=true := by
  refine ⟨?_,?_,?_,?_⟩ <;> decide

end RolodexDns.BlocklistSpellings
