import RolodexDns.RecordConversions
import RolodexDns.ResponseReading

/-! Messages as the server reads and writes them. Every response it builds itself leaves AD clear;
only a Secure verdict sets the bit. The last two steps before a response is sent, the address
family filter and truncation, keep the bit as it is. -/
namespace RolodexDns.WireMessages
open DomainNames DnsRecords ValidationVerdicts ResponseReading StoredRecords RecordConversions List Option

abbrev Bytes := List UInt8

inductive MessageType where
  | query
  | response
deriving DecidableEq

structure Edns where
  version : UInt8
  maxPayload : UInt16
  dnssecOk : Bool
deriving DecidableEq

/-- A message with everything the server reads or sets. -/
structure Packet extends Message where
  messageType : MessageType
  opCode : UInt8
  recursionDesired : Bool
  recursionAvailable : Bool
  edns : Option Edns
deriving DecidableEq

def Packet.new : Packet where
  id := 0
  responseCode := .NoError
  authoritative := false
  truncated := false
  authenticData := false
  queries := []
  answers := []
  nameServers := []
  additionals := []
  messageType := .query
  opCode := 0
  recursionDesired := false
  recursionAvailable := false
  edns := none

/-- What the server uses unopened: text, the wire format, and the order of names in a denial. -/
structure ServerLibrary extends TextLibrary where
  fromBytes : Bytes → Option Packet
  toBytes : Packet → Option Bytes
  /-- The first question's name as it is written. -/
  spelling : Bytes → Option Bytes
  responseCodeFrom : UInt8 → UInt8 → ResponseCode
  toLowercase : Text → Text
  extractIpFromName : Text → Option IpAddr
  nsecNextOwner : Text → Option Text
  nsecCovers : Text → Text → Text → Bool

def adBit (bytes : Bytes) : Bool := (bytes.getD 3 0 &&& 0x20)≠0

/-- The wire format carries AD, reads back the questions that were written, and reads no answers
where none were written. -/
structure ServerLibrary.Lawful (lib : ServerLibrary) : Prop where
  fromBytes_ad : ∀ {bytes p},lib.fromBytes bytes=some p → p.authenticData=adBit bytes
  toBytes_ad : ∀ {bytes p},lib.toBytes p=some bytes → adBit bytes=p.authenticData
  fromBytes_nil : lib.fromBytes []=none
  toBytes_queries : ∀ {bytes p p'},lib.toBytes p=some bytes → lib.fromBytes bytes=some p' → p'.queries=p.queries
  toBytes_answers : ∀ {bytes p p'},lib.toBytes p=some bytes → lib.fromBytes bytes=some p' → p.answers=[] →
    p'.answers=[]

/-- A wire format by its table of messages, for servers that are run on a few of them. -/
def tableLibrary (table : List (Packet × Bytes)) : ServerLibrary where
  toTextLibrary := plainText (table.flatMap fun e => e.1.queries.map Query.name++e.1.answers.map Record.name)
  fromBytes bytes := (table.find? (·.2=bytes)).map Prod.fst
  toBytes p := (table.find? (·.1=p)).map Prod.snd
  spelling bytes := some (bytes.drop 12)
  responseCodeFrom low high := ⟨high.toUInt16 <<< 4 ||| low.toUInt16⟩
  toLowercase := map Char.toLower
  extractIpFromName _ := none
  nsecNextOwner _ := none
  nsecCovers _ _ _ := false

section
variable {table : List (Packet × Bytes)} {bytes : Bytes} {p : Packet}

theorem mem_of_fromBytes (h : (tableLibrary table).fromBytes bytes=some p) : (p,bytes)∈table := by
  obtain ⟨⟨p',bytes'⟩,hf,rfl⟩ := map_eq_some_iff.mp h
  obtain rfl : bytes'=bytes := by simpa using find?_some hf
  exact mem_of_find?_eq_some hf

theorem mem_of_toBytes (h : (tableLibrary table).toBytes p=some bytes) : (p,bytes)∈table := by
  obtain ⟨⟨p',bytes'⟩,hf,rfl⟩ := map_eq_some_iff.mp h
  obtain rfl : p'=p := by simpa using find?_some hf
  exact mem_of_find?_eq_some hf

theorem exists_fromBytes (h : (p,bytes)∈table) : ∃ p',(tableLibrary table).fromBytes bytes=some p' := by
  refine isSome_iff_exists.mp ?_
  change ((table.find? (·.2=bytes)).map Prod.fst).isSome=true
  rw [isSome_map,find?_isSome]
  exact ⟨(p,bytes),h,decide_eq_true rfl⟩

theorem fromBytes_of_toBytes (hin : ∀ e∈table,∀ e'∈table,e.2=e'.2 → e.1=e'.1)
    (h : (tableLibrary table).toBytes p=some bytes) : (tableLibrary table).fromBytes bytes=some p := by
  obtain ⟨p',hp'⟩ := exists_fromBytes (mem_of_toBytes h)
  exact hp'.trans (congrArg some (hin _ (mem_of_fromBytes hp') _ (mem_of_toBytes h) rfl))

/-- A table whose entries are messages with the AD bit where it belongs, no two of them alike. -/
theorem tableLibrary_lawful (had : ∀ e∈table,e.1.authenticData=adBit e.2 ∧ e.2≠[])
    (hin : ∀ e∈table,∀ e'∈table,e.2=e'.2 → e.1=e'.1) : (tableLibrary table).Lawful := by
  have hb {bytes : Bytes} {p p' : Packet} (h : (tableLibrary table).toBytes p=some bytes)
      (h' : (tableLibrary table).fromBytes bytes=some p') : p'=p :=
    Option.some.inj (h'.symm.trans (fromBytes_of_toBytes hin h))
  constructor
  case fromBytes_ad => exact fun h => (had _ (mem_of_fromBytes h)).1
  case toBytes_ad => exact fun h => (had _ (mem_of_toBytes h)).1.symm
  case fromBytes_nil =>
    refine eq_none_iff_forall_ne_some.mpr fun p h => ?_
    exact (had _ (mem_of_fromBytes h)).2 rfl
  case toBytes_queries => exact fun h h' => by rw [hb h h']
  case toBytes_answers => exact fun h h' hn => by rw [hb h h',hn]

end

structure EdnsContext where
  version : UInt8
  maxPayload : UInt16
  dnssecOk : Bool

def EdnsContext.fromMessage (message : Packet) : Option EdnsContext :=
  message.edns.map fun e => ⟨e.version,e.maxPayload,e.dnssecOk⟩

def EdnsContext.isUnsupportedVersion (ctx : EdnsContext) : Bool := 0<ctx.version

def dnssecOk (ctx : Option EdnsContext) : Bool := ctx.any EdnsContext.dnssecOk

section
variable (lib : ServerLibrary) (query : Packet) (rcode : ResponseCode) (answers : List Record) (authoritative : Bool)
  (ctx : Option EdnsContext)

/-- An error that needs no more of the query than its id. -/
def makeErrorResponse (queryData : Bytes) (rcode : ResponseCode) : Bytes :=
  match queryData with
  | hi::lo::_ =>
    (lib.toBytes { Packet.new with
      id := hi.toUInt16 <<< 8 ||| lo.toUInt16, messageType := .response, responseCode := rcode }).getD []
  | _ => []

/-- The header and question of every response to a parsed query. -/
private def responseTo : Packet :=
  { Packet.new with
    id := query.id, messageType := .response, opCode := 0, responseCode := rcode,
    recursionDesired := query.recursionDesired, recursionAvailable := true, authoritative := authoritative,
    queries := query.queries }

def buildResponseEx : Bytes :=
  (lib.toBytes { responseTo query rcode authoritative with answers := answers }).getD []

/-- Signatures and denials are for clients that set DO or asked for them by type. -/
def dnssecRecordsWanted (qtype : Option RecordType) (dnssecOk : Bool) (r : Record) : Bool :=
  dnssecOk || if r.recordType∈[RecordType.RRSIG,.NSEC,.NSEC3] then qtype=some r.recordType else true

def buildResponseEdnsAuth (answers authority : List Record)
    (authoritative : Bool) (ctx : Option EdnsContext) : Bytes :=
  let qtype := query.queries.head?.map Query.queryType
  (lib.toBytes { responseTo query rcode authoritative with
    answers := answers.filter (dnssecRecordsWanted qtype (dnssecOk ctx)),
    nameServers := authority.filter (dnssecRecordsWanted qtype (dnssecOk ctx)),
    edns := ctx.map fun ctx => ⟨0,ctx.maxPayload,ctx.dnssecOk⟩ }).getD []

def buildResponseEdns : Bytes :=
  buildResponseEdnsAuth lib query rcode answers [] authoritative ctx

/-- The response for a validated result: AD is set for a Secure one, if the client asked for it. -/
def buildResponseValidated (verdict : Verdict) : Bytes :=
  let bytes := buildResponseEdns lib query rcode answers false ctx
  let clientAsked := query.authenticData || dnssecOk ctx
  if !clientAsked || verdict ≠ .secure then bytes
  else
    match lib.fromBytes bytes with
    | some response => (lib.toBytes { response with authenticData := true }).getD bytes
    | none => bytes

def buildQueryForType (name : Text) (qtype : RecordType) (id : UInt16) : Bytes :=
  (lib.toBytes { Packet.new with
    id := id, recursionDesired := true, queries := [⟨(lib.nameFromAscii name).getD .root,qtype,.IN⟩] }).getD []

end

/-- The IPv4 address in the last 32 bits of the prefix. -/
def synthesizeDns64Address (prefixBits : BitVec 128) (ipv4 : BitVec 32) : BitVec 128 :=
  prefixBits.extractLsb' 32 96++ipv4

section

/-- Walks the labels of the question, keeping the last one seen. -/
def lastLabel : Nat → Bytes → Option Bytes → Option Bytes
  | 0, _, _ => none
  | _, [], _ => none
  | fuel+1, len::rest, last =>
    if len &&& 0xc0≠0 then none
    else if len=0 then last
    else if rest.length<len.toNat then none
    else lastLabel fuel (rest.drop len.toNat) (some (rest.take len.toNat))

/-- The question's name is in the `arpa.` subtree, read off the wire. -/
def wireQuestionIsArpa (query : Bytes) : Bool :=
  let question := query.drop 12
  (lastLabel (question.length+1) question none).any fun label => label.map asciiLower=[97,114,112,97]

/-- Walks the labels of the question, flipping the case of a letter where the coin for its place says so. -/
def mixLabels : Nat → Bytes → (Nat → Bool) → Option Bytes
  | 0, _, _ => none
  | _, [], _ => none
  | fuel+1, len::rest, coins =>
    if len=0 then some (len::rest)
    else if rest.length<len.toNat then none
    else
      let flip (b : UInt8) (i : Nat) : UInt8 :=
        if ((65 ≤ b && b ≤ 90) || (97 ≤ b && b ≤ 122)) && coins i then b ^^^ 0x20 else b
      (mixLabels fuel (rest.drop len.toNat) fun i => coins (len.toNat+i)).map fun mixed =>
        len::((rest.take len.toNat).zipIdx.map fun e => flip e.1 e.2)++mixed

def randomizeQnameCase (queryData : Bytes) (coins : Nat → Bool) : Option Bytes :=
  if queryData.length<13 then none
  else
    let question := queryData.drop 12
    (mixLabels (question.length+1) question coins).map (queryData.take 12 ++ ·)

theorem take_randomizeQnameCase {queryData mixed : Bytes} {coins : Nat → Bool}
    (h : randomizeQnameCase queryData coins=some mixed) : mixed.take 12=queryData.take 12 := by
  unfold randomizeQnameCase at h
  split_ifs at h with hshort
  obtain ⟨question,-,rfl⟩ := map_eq_some_iff.mp h
  refine take_left' ?_
  rw [length_take]
  omega

theorem mixLabels_heads {fuel : Nat} {data mixed : Bytes} (h : mixLabels fuel data (fun _ => false)=some mixed) :
    mixed=data := by
  induction fuel generalizing data mixed with
  | zero => cases h
  | succ fuel ih =>
    cases data with
    | nil => cases h
    | cons len rest =>
      unfold mixLabels at h
      split_ifs at h
      · exact (Option.some.inj h).symm
      · obtain ⟨tail,ht,rfl⟩ := map_eq_some_iff.mp h
        rw [ih ht]
        simp

/-- The coins may leave a query as it is. -/
theorem randomizeQnameCase_heads (queryData : Bytes) :
    (randomizeQnameCase queryData fun _ => false).getD queryData=queryData := by
  unfold randomizeQnameCase
  dsimp only
  split_ifs
  · rfl
  · cases hm : mixLabels ((queryData.drop 12).length+1) (queryData.drop 12) fun _ => false with
    | none => rfl
    | some mixed =>
      cases mixLabels_heads hm
      exact take_append_drop 12 queryData

variable (labels : List Bytes)

/-- Labels as a question spells them, without compression. -/
def wireName : Bytes := labels.flatMap (fun l => UInt8.ofNat l.length::l)++[0]

theorem length_le_wireName : labels.length ≤ (wireName labels).length := by
  induction labels with
  | nil => exact Nat.zero_le _
  | cons l ls ih =>
    simp only [wireName,flatMap_cons,length_append,length_cons] at ih ⊢
    omega

theorem labelLength_plain {n : Nat} (h : n ≤ 63) : UInt8.ofNat n &&& 0xc0=0 := by
  have ha : ∀ m : Fin 64,UInt8.ofNat m &&& 0xc0=0 := by decide
  exact ha ⟨n,by omega⟩

theorem wireName_cons (l rest : Bytes) (ls : List Bytes) :
    wireName (l::ls)++rest=UInt8.ofNat l.length::(l++(wireName ls++rest)) := by
  simp [wireName]

section
variable {l : Bytes} (hshort : l.length<256)
include hshort

theorem toNat_labelLength : (UInt8.ofNat l.length).toNat=l.length := by
  rw [UInt8.toNat_ofNat']
  omega

theorem labelLength_ne_zero (hne : l≠[]) : UInt8.ofNat l.length≠0 := by
  intro hz
  have hl := toNat_labelLength hshort
  rw [hz] at hl
  exact hne (length_eq_zero_iff.mp hl.symm)

end

private theorem lastLabel_wireName {labels : List Bytes} (hl : ∀ l∈labels,l≠[] ∧ l.length ≤ 63) (rest : Bytes)
    {fuel : Nat} (hf : labels.length<fuel) (last : Option Bytes) :
    lastLabel fuel (wireName labels++rest) last=labels.getLast?.or last := by
  induction labels generalizing fuel last with
  | nil =>
    obtain ⟨fuel,rfl⟩ := Nat.exists_eq_add_of_lt hf
    simp [wireName,lastLabel]
  | cons l ls ih =>
    obtain ⟨⟨hne,hshort⟩,hls⟩ := forall_mem_cons.mp hl
    obtain ⟨fuel,rfl⟩ := Nat.exists_eq_succ_of_ne_zero (Nat.ne_zero_of_lt hf)
    have hb : l.length<256 := Nat.lt_of_le_of_lt hshort (by decide)
    rw [wireName_cons,lastLabel,if_neg (not_not.mpr (labelLength_plain hshort)),if_neg (labelLength_ne_zero hb hne),
      toNat_labelLength hb,if_neg (by simp),drop_left,take_left,ih hls (Nat.lt_of_succ_lt_succ hf)]
    cases ls <;> simp [getLast?_cons]

/-- The check on the wire says what the parsed name says, in whatever case the question is spelt. -/
theorem wireQuestionIsArpa_eq {query rest : Bytes} {spelt : List Bytes} {name : Name}
    (hq : query.drop 12=wireName spelt++rest)
    (hs : spelt.map (map asciiLower)=name.labels.map Label.bytes) :
    wireQuestionIsArpa query=isArpaSubtree name := by
  have hla : ∀ l∈spelt,l≠[] ∧ l.length ≤ 63 := by
    intro l hl
    have hm : l.map asciiLower∈name.labels.map Label.bytes := hs ▸ mem_map_of_mem hl
    obtain ⟨label,-,heq⟩ := mem_map.mp hm
    have hln : label.bytes.length=l.length := by rw [heq,length_map]
    refine ⟨?_,hln ▸ label.short⟩
    rintro rfl
    exact label.nonempty heq
  have hf : spelt.length<(query.drop 12).length+1 := by
    have hle := length_le_wireName spelt
    rw [hq,length_append]
    omega
  have hls : (spelt.getLast?.map (map asciiLower))=name.labels.getLast?.map Label.bytes := by
    rw [← getLast?_map,← getLast?_map,hs]
  unfold wireQuestionIsArpa isArpaSubtree
  dsimp only
  rw [hq] at hf ⊢
  rw [lastLabel_wireName hla rest hf,← hls]
  cases spelt.getLast? <;> simp

def isDefinitive (rcode : ResponseCode) : Bool := rcode=.NoError || rcode=.NXDomain

def responseIsDefinitive (lib : ServerLibrary) (response : Bytes) : Bool :=
  (lib.fromBytes response).any fun msg => isDefinitive msg.responseCode

/-- The type a signature covers, in either of the two forms an RRSIG can be read in. -/
def rrsigCoveredType (r : Record) : Option RecordType :=
  match r.data with
  | .rrsig sig => some sig.typeCovered
  | .other _ (hi::lo::_) => some ⟨hi.toUInt16 <<< 8 ||| lo.toUInt16⟩
  | _ => none

end

section
variable (lib : ServerLibrary) (v4 v6 : Bool) (response queryData : Bytes)

def answersFamily (r : Record) : Bool :=
  if r.recordType=.A then v4
  else if r.recordType=.AAAA then v6
  else if r.recordType=.RRSIG then
    if rrsigCoveredType r=some .A then v4
    else if rrsigCoveredType r=some .AAAA then v6
    else true
  else true

/-- Drops the answers of an address family the host cannot route. -/
def applyFamilyFilter (response : Bytes) : Bytes :=
  if v4 && v6 then response
  else
    match lib.fromBytes response with
    | none => response
    | some msg =>
      let kept := msg.answers.filter (answersFamily v4 v6)
      if kept.length=msg.answers.length then response
      else (lib.toBytes { msg with answers := kept }).getD response

/-- Sheds the authority section and sets TC when a UDP response is over the client's budget. -/
def truncateForUdp : Bytes :=
  let budget := ((lib.fromBytes queryData).bind EdnsContext.fromMessage).elim 512 fun ctx =>
    max ctx.maxPayload.toNat 512
  if response.length ≤ budget then response
  else
    match lib.fromBytes response with
    | none => response
    | some msg => (lib.toBytes { msg with nameServers := [], truncated := true }).getD response

/-- What sending can do to a response: its message is written again, without the answers of a family
or without its authority section and then with TC. -/
inductive Rewrites (v4 v6 : Bool) (response : Bytes) : Bytes → Prop
  | same : Rewrites v4 v6 response response
  | written {msg : Packet} (hread : lib.fromBytes response=some msg) {answers authority : List Record} {tc : Bool}
      (hanswers : answers=msg.answers ∨ answers=msg.answers.filter (answersFamily v4 v6))
      (hauthority : authority=msg.nameServers ∧ tc=msg.truncated ∨ authority=[] ∧ tc=true) :
      Rewrites v4 v6 response
        ((lib.toBytes { msg with answers := answers, nameServers := authority, truncated := tc }).getD response)

theorem rewrites_applyFamilyFilter (response : Bytes) :
    Rewrites lib v4 v6 response (applyFamilyFilter lib v4 v6 response) := by
  unfold applyFamilyFilter
  split
  · exact .same
  · split
    · exact .same
    · rename_i msg hm
      dsimp only
      split
      · exact .same
      · exact .written hm (.inr rfl) (.inl ⟨rfl,rfl⟩)

theorem rewrites_truncateForUdp :
    Rewrites lib v4 v6 response (truncateForUdp lib response queryData) := by
  unfold truncateForUdp
  dsimp only
  split
  · exact .same
  · split
    · exact .same
    · rename_i msg hm
      exact .written hm (.inl rfl) (.inr ⟨rfl,rfl⟩)

end

section
variable {lib : ServerLibrary} (hlib : lib.Lawful) {query p : Packet} {rcode : ResponseCode}
  {answers authority : List Record}
  {authoritative : Bool} {ctx : Option EdnsContext} {verdict : Verdict}
include hlib

theorem adBit_toBytes_getD {fallback : Bytes} (h : adBit fallback=p.authenticData) :
    adBit ((lib.toBytes p).getD fallback)=p.authenticData := by
  cases hp : lib.toBytes p with
  | none => exact h
  | some bytes => exact hlib.toBytes_ad hp

theorem adBit_makeErrorResponse (queryData : Bytes) : adBit (makeErrorResponse lib queryData rcode)=false := by
  unfold makeErrorResponse
  split
  · exact adBit_toBytes_getD hlib rfl
  · rfl

theorem answers_makeErrorResponse {queryData : Bytes}
    (h : lib.fromBytes (makeErrorResponse lib queryData rcode)=some p) : p.answers=[] := by
  unfold makeErrorResponse at h
  split at h
  · cases hp : lib.toBytes _ with
    | none =>
      rw [hp,getD_none,hlib.fromBytes_nil] at h
      cases h
    | some bytes =>
      rw [hp,getD_some] at h
      exact hlib.toBytes_answers hp h rfl
  · rw [hlib.fromBytes_nil] at h
    cases h

theorem queries_buildQueryForType {name : Text} {qtype : RecordType} {id : UInt16}
    (h : lib.fromBytes (buildQueryForType lib name qtype id)=some p) {question : Query}
    (hq : p.queries.head?=some question) : question.queryType=qtype := by
  unfold buildQueryForType at h
  cases hp : lib.toBytes _ with
  | none =>
    rw [hp,getD_none,hlib.fromBytes_nil] at h
    cases h
  | some bytes =>
    rw [hp,getD_some] at h
    rw [hlib.toBytes_queries hp h] at hq
    cases hq
    rfl

theorem adBit_buildResponseEx : adBit (buildResponseEx lib query rcode answers authoritative)=false :=
  adBit_toBytes_getD hlib rfl

theorem adBit_buildResponseEdnsAuth :
    adBit (buildResponseEdnsAuth lib query rcode answers authority authoritative ctx)=false :=
  adBit_toBytes_getD hlib rfl

theorem adBit_buildResponseEdns : adBit (buildResponseEdns lib query rcode answers authoritative ctx)=false :=
  adBit_buildResponseEdnsAuth hlib

/-- A verdict that is not Secure leaves AD clear. -/
theorem secure_of_adBit (h : adBit (buildResponseValidated lib query rcode answers ctx verdict)=true) :
    verdict=.secure := by
  by_contra hv
  unfold buildResponseValidated at h
  rw [if_pos (by simp [hv]),adBit_buildResponseEdns hlib] at h
  cases h

theorem Rewrites.adBit_eq {v4 v6 : Bool} {response bytes : Bytes} (h : Rewrites lib v4 v6 response bytes) :
    adBit bytes=adBit response := by
  cases h with
  | same => rfl
  | written hread =>
    have had := hlib.fromBytes_ad hread
    refine Eq.trans (adBit_toBytes_getD hlib ?_) had
    exact had.symm

end

end RolodexDns.WireMessages
