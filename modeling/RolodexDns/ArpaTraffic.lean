import RolodexDns.LookupSafety
import RolodexDns.RecursionAccess
import RolodexDns.UpstreamContracts

/-! Questions for names in `arpa.`. The server keeps them to itself by two checks, of the parsed name
and of the bytes that are forwarded. What they leave open is the cut of a zone that a reply is
signed by, and the further questions of a client's message. -/
namespace RolodexDns.ArpaTraffic
open DomainNames DnsRecords ValidationVerdicts SignatureValidation ResolverWorld ResponseReading IterativeResolver List
open ProgramTrees ProgramTraces LookupHistories WalkHistories LookupSafety ResolverExecution
open StoredRecords WireMessages ServerOperations UpstreamResolution QueryHandling LocalTraces OwnedTlds
open AuthenticData UpstreamContracts WireQuestions

variable {cfg : ServerConfig}

section

def AsksOutsideArpa : Op → Prop
  | .sendUdp _ query | .sendTcp _ query => isArpaSubtree query.name=false
  | _ => True

/-- No reply that was accepted has a section that one zone in `arpa.` signed, below the zone that answered. -/
def SignedOutsideArpa (log : LookupLog) : Prop :=
  ∀ server name qtype m,Heard log server name qtype m → ∀ zone signer,
    signerBelow m.answers zone=some signer ∨ signerBelow m.nameServers zone=some signer →
      isArpaSubtree signer=false

theorem isArpaSubtree_cut {zone signer cut : Name} (h : cut∈cutsBetween zone signer) :
    isArpaSubtree cut=isArpaSubtree signer := by
  obtain ⟨i,hi,rfl⟩ := mem_map.mp h
  have hi := mem_range.mp hi
  unfold isArpaSubtree Name.trimTo
  rw [getLast?_drop,if_neg (by omega)]

variable {cfg : Config} {name : Name} {qtype : RecordType} {qclass : DnsClass} {log : LookupLog}
  {r : Except ResolveError Resolution}

/-- Aliases and nameservers in `arpa.` are not followed; hidden cuts are, but only to a signer. -/
theorem resolve_asksOutsideArpa (h : Yields (resolve cfg name qtype qclass) log r) (hlo : ∀ e∈log,Possible cfg e)
    (hsi : SignedOutsideArpa log) : ∀ e∈log,AsksOutsideArpa e.1 := by
  have ha := ((resolve_keeps cfg name qtype qclass).of_yields h hlo).1
  have hu {before after : LookupLog} {server : IpAddr} {query : OutQuery} {reply : Option Message}
      (hs : log=before++⟨.sendUdp server query,reply⟩::after) : isArpaSubtree query.name=false := by
    rcases (ha before _ after hs).2 with har | ⟨server,name,qtype,m,zone,signer,hh,hsg,hc⟩
    · exact har
    · rw [isArpaSubtree_cut hc]
      exact hsi server name qtype m (hh.mono (by simp [hs])) zone signer hsg
  intro e he
  obtain ⟨before,after,hs⟩ := append_of_mem he
  obtain ⟨o,reply⟩ := e
  cases o with
  | sendUdp server query => exact hu hs
  | sendTcp server query =>
    -- The same question went out over UDP just before.
    obtain ⟨m,hl,-⟩ := ha before _ after hs
    obtain ⟨earlier,rfl⟩ := getLast?_eq_some_iff.mp hl
    exact hu (hs.trans (append_assoc _ _ _))
  | _ => trivial

end

variable (lib : ServerLibrary)

/-- None of the questions of a message, if it is one, is in `arpa.`. -/
def OutsideArpa (bytes : Bytes) : Prop :=
  ∀ p,lib.fromBytes bytes=some p → ∀ q∈p.queries,isArpaSubtree q.name=false

def ForwardsOutsideArpa : ServerOp → Prop
  | .exchangeUdp (.forwarder _) _ sent => OutsideArpa lib sent
  | .exchangeProxied (.forwarder _) queryData => OutsideArpa lib queryData
  | .exchangeTcp _ queryData | .exchangeSecure _ queryData => OutsideArpa lib queryData
  | _ => True

/-- The parser does not see the letter case of a question that is spelt out. -/
def FoldsQuestions : Prop :=
  ∀ {query spelt spelt' rest},Spells query spelt rest → Forall₂ (Forall₂ SameLetter) spelt spelt' →
    (lib.fromBytes (query.take 12++wireName spelt'++rest)).map (·.queries)=(lib.fromBytes query).map (·.queries)

/-- A message is written with its first question's name at offset 12, spelt out. -/
def PlainQuestions : Prop :=
  ∀ {p bytes q},lib.toBytes p=some bytes → p.queries.head?=some q →
    ∃ spelt rest,bytes.drop 12=wireName spelt++rest ∧ spelt.map (map asciiLower)=q.name.labels.map Label.bytes

def forwarding : Contract ServerOp ServerRes := ⟨ForwardsOutsideArpa lib,MixesCase⟩

section
variable {queryData : Bytes} {ctx : Option EdnsContext} {lib : ServerLibrary}

/-- Mixing the case of its name leaves the questions of a message what they are. -/
theorem OutsideArpa.respelt (hf : FoldsQuestions lib) (hsp : queryData≠[] → ∃ spelt rest,Spells queryData spelt rest)
    (h : OutsideArpa lib queryData) {coins : Nat → Bool} {sent : Bytes}
    (hse : WireMessages.randomizeQnameCase queryData coins=some sent) :
    OutsideArpa lib sent := by
  obtain ⟨spelt,rest,hs⟩ := hsp fun hn => by simp [hn,WireMessages.randomizeQnameCase] at hse
  obtain ⟨labels,labels',rest',hqr,rfl,hla,hsa⟩ := randomizeQnameCase_same hse
  have hlo : 12 ≤ queryData.length := by
    by_contra hsh
    simp [WireMessages.randomizeQnameCase,show queryData.length<13 by omega] at hse
  have hqu : wireName labels++rest'=wireName spelt++rest := by
    rw [← hs.1,hqr,append_assoc,drop_left' (length_take_of_le hlo)]
  obtain ⟨rfl,rfl⟩ := wireName_append_inj hla (fun l hl => (hs.2 l hl).imp_right fun hl => by omega) hqu
  intro p hp q hq
  have heq := hf hs hsa
  rw [hp] at heq
  obtain ⟨p',hp',hqe⟩ := Option.map_eq_some_iff.mp heq.symm
  exact h p' hp' q (hqe ▸ hq)

/-- Any spelling outside `arpa.` will do, and it does not matter what is kept. -/
def outsideBounds (lib : ServerLibrary) : Bounds := ⟨OutsideArpa lib,fun _ => True,fun _ _ => True⟩

theorem forwardsOutsideArpa_of_resolving (h : OutsideArpa cfg.lib queryData) {o : ServerOp}
    (ho : (resolving cfg queryData (outsideBounds cfg.lib)).demands o) : ForwardsOutsideArpa cfg.lib o := by
  cases o with
  | exchangeUdp upstream asked sent =>
    cases upstream with
    | peer addr => exact ho.elim
    | forwarder f => exact ho.2
  | exchangeProxied upstream asked =>
    cases upstream with
    | peer addr => exact ho.elim
    | forwarder f =>
      obtain rfl : asked=queryData := ho
      exact h
  | exchangeTcp f asked | exchangeSecure f asked =>
    obtain rfl : asked=queryData := ho
    exact h
  | _ => trivial

/-- What is resolved upstream is sent on as it is, once the check on the wire has let it through. -/
theorem upstreamResolve_sat (hl : cfg.lib.Lawful) (hf : FoldsQuestions cfg.lib)
    (hs : queryData≠[] → ∃ spelt rest,Spells queryData spelt rest)
    (h : wireQuestionIsArpa queryData=false → OutsideArpa cfg.lib queryData) :
    (upstreamResolve cfg queryData ctx).Sat (forwarding cfg.lib) fun _ => True := by
  by_cases hw : wireQuestionIsArpa queryData=true
  · rw [upstreamResolve,if_pos hw]
    trivial
  · have ho := h (Bool.eq_false_iff.mpr hw)
    have hfi : (outsideBounds cfg.lib).Fit cfg queryData := ⟨ho,fun _ _ _ => trivial,fun _ _ => trivial⟩
    refine (upstreamResolve_resolving hl fun _ => hfi).weaken (fun o => forwardsOutsideArpa_of_resolving ho) ?_
    refine fun o r hr => ⟨fun sent heq => ?_,fun _ _ _ => trivial⟩
    cases heq
    obtain ⟨coins,hse⟩ := hr
    exact ho.respelt hf hs hse.symm

variable {name : Text} {qtype : RecordType} {id : UInt16}

theorem spells_buildQueryForType (hp : PlainQuestions lib) (h : buildQueryForType lib name qtype id≠[]) :
    ∃ spelt rest,Spells (buildQueryForType lib name qtype id) spelt rest := by
  unfold buildQueryForType at h ⊢
  cases hb : lib.toBytes { Packet.new with
      id := id, recursionDesired := true, queries := [⟨(lib.nameFromAscii name).getD .root,qtype,.IN⟩] } with
  | none => exact absurd (by rw [hb]; rfl) h
  | some bytes =>
    obtain ⟨spelt,rest,hd,hsp⟩ := hp hb rfl
    refine ⟨spelt,rest,hd,fun l hl => ?_⟩
    have hla : l.map asciiLower∈spelt.map (map asciiLower) := mem_map_of_mem hl
    rw [hsp] at hla
    obtain ⟨label,-,heq⟩ := mem_map.mp hla
    have hs := label.short
    rw [heq,length_map] at hs
    exact ⟨fun hn => label.nonempty (heq.trans (by rw [hn]; rfl)),hs⟩

theorem outsideArpa_buildQueryForType (hl : lib.Lawful) (hpl : PlainQuestions lib)
    (h : wireQuestionIsArpa (buildQueryForType lib name qtype id)=false) :
    OutsideArpa lib (buildQueryForType lib name qtype id) := by
  intro p hp q hq
  unfold buildQueryForType at h hp
  generalize hbu : ({ Packet.new with
    id := id, recursionDesired := true, queries :=
      [⟨(lib.nameFromAscii name).getD .root,qtype,.IN⟩] } : Packet)=built at h hp
  cases hb : lib.toBytes built with
  | none =>
    rw [hb] at hp
    cases hl.fromBytes_nil.symm.trans hp
  | some bytes =>
    rw [hb] at h hp
    rw [hl.toBytes_queries hb hp,← hbu] at hq
    obtain ⟨spelt,rest,hd,hs⟩ := hpl (q := q) hb (by rw [← hbu,mem_singleton.mp hq]; rfl)
    exact (wireQuestionIsArpa_eq hd hs).symm.trans h

end

section
variable {log : ServerLog}

theorem forwardsOutsideArpa_of_asksPeers {lib : ServerLibrary} {peers : List SocketAddr} {o : ServerOp}
    (h : AsksPeers peers o) : ForwardsOutsideArpa lib o := by
  cases o with
  | exchangeUdp upstream queryData sent | exchangeProxied upstream queryData =>
    cases upstream with
    | peer addr => trivial
    | forwarder f => exact h.elim
  | exchangeTcp f queryData | exchangeSecure f queryData => exact h.elim
  | _ => trivial

theorem answerAsked_forwardsOutsideArpa (hl : cfg.lib.Lawful) (hp : PlainQuestions cfg.lib)
    (hf : FoldsQuestions cfg.lib) {ask : Asked} {response : Bytes} (h : Yields (answerAsked cfg ask) log response)
    (hm : ∀ e∈log,MixesCase e.1 e.2) (hs : ∃ spelt rest,Spells ask.queryData spelt rest)
    (ho : isArpaSubtree ask.question.name=false → OutsideArpa cfg.lib ask.queryData) :
    ∀ e∈log,ForwardsOutsideArpa cfg.lib e.1 := by
  have hsa (hfi : isArpaSubtree ask.question.name=false) :
      (answerUpstream cfg ask).Sat (forwarding cfg.lib) fun _ => True :=
    answerUpstream_sat (upstreamResolve_sat hl hf (fun _ => hs) fun _ => ho hfi)
      (upstreamResolve_sat hl hf (spells_buildQueryForType hp) (outsideArpa_buildQueryForType hl hp)) trivial
  exact answerAsked_demands h (fun _ _ => trivial) (fun _ _ => forwardsOutsideArpa_of_asksPeers) hsa hm

def lookupOf : ServerOp → Option Query
  | .resolve name qtype qclass | .resolveWithin name qtype qclass => some ⟨name,qtype,qclass⟩
  | _ => none

/-- No question in `arpa.` leaves the server, to a forwarder or from a lookup, if only the first of the
client's questions can be in it, that one is spelt out, and no reply is signed in it. -/
theorem arpa_staysOnBox (hlib : cfg.lib.Lawful) (hplain : PlainQuestions cfg.lib) (hfold : FoldsQuestions cfg.lib)
    {queryData bytes : Bytes} {sourceIp localIp : Option IpAddr} {proto : Proto}
    (h : Yields (handleQueryProto cfg queryData sourceIp localIp proto) log bytes)
    (hmix : ∀ e∈log,MixesCase e.1 e.2) (hspelt : ∃ spelt rest,Spells queryData spelt rest)
    (hfurther : ∀ p,cfg.lib.fromBytes queryData=some p → ∀ q∈p.queries.tail,isArpaSubtree q.name=false) :
    (∀ e∈log,ForwardsOutsideArpa cfg.lib e.1) ∧
      ∀ e∈log,∀ q,lookupOf e.1=some q → ∀ (rcfg : Config) (trace : LookupLog) r,
        Yields (resolve rcfg q.name q.queryType q.queryClass) trace r → (∀ x∈trace,Possible rcfg x) →
          SignedOutsideArpa trace → ∀ x∈trace,AsksOutsideArpa x.1 := by
  refine ⟨?_,fun e _ q _ rcfg trace r ht => resolve_asksOutsideArpa ht⟩
  rcases handleQueryProto_inv h with ⟨rfl,-⟩ | ⟨ask,response,hr,ha,-⟩
  · exact forall_mem_nil _
  · obtain ⟨hm,hh,heq⟩ := readQuery_ok hr
    have hd : ask.queryData=queryData := by rw [heq]
    refine answerAsked_forwardsOutsideArpa hlib hplain hfold ha hmix (hd ▸ hspelt) fun hf p hp q hq => ?_
    rw [hd] at hp
    obtain rfl : p=ask.message := Option.some.inj (hp.symm.trans hm)
    rw [eq_cons_of_mem_head? hh] at hq
    rcases mem_cons.mp hq with rfl | hq
    · exact hf
    · exact hfurther ask.message hm q hq

end

def folded (bytes : Bytes) : Bytes := bytes.take 12++(bytes.drop 12).map asciiLower

theorem adBit_folded (bytes : Bytes) : adBit (folded bytes)=adBit bytes := by
  have hg : (folded bytes).getD 3 0=bytes.getD 3 0 := by
    unfold folded
    by_cases hl : 3<bytes.length
    · rw [getD_eq_getElem?_getD,getElem?_append_left (by rw [length_take]; omega),getElem?_take_of_lt (by omega),
        getD_eq_getElem?_getD]
    · rw [drop_eq_nil_of_le (by omega),map_nil,append_nil,take_of_length_le (by omega)]
  unfold adBit
  rw [hg]

theorem map_asciiLower_wireName {spelt spelt' : List Bytes} (h : Forall₂ (Forall₂ SameLetter) spelt spelt') :
    (wireName spelt').map asciiLower=(wireName spelt).map asciiLower := by
  have hal : ∀ n : Fin 256,isAsciiAlphabetic (UInt8.ofNat n)=true →
      asciiLower (UInt8.ofNat n ^^^ 0x20)=asciiLower (UInt8.ofNat n) := by decide +kernel
  have hle {b b' : UInt8} (hb : SameLetter b b') : asciiLower b'=asciiLower b := by
    rcases hb with rfl | ⟨ha,rfl⟩
    · rfl
    · simpa using hal ⟨b.toNat,b.toNat_lt⟩ (by simpa using ha)
  have hla {l l' : Bytes} (hl : Forall₂ SameLetter l l') : l'.map asciiLower=l.map asciiLower := by
    induction hl with
    | nil => rfl
    | cons hb _ ih => rw [map_cons,map_cons,hle hb,ih]
  induction h with
  | nil => rfl
  | cons hl _ ih =>
    simp only [wireName,flatMap_cons,append_assoc,map_append,map_cons,hla hl,hl.length_eq] at ih ⊢
    rw [ih]

/-- The configuration of before, with the letters of questions read in either case. -/
def foldingConfig : ServerConfig :=
  { forwardingConfig with
    lib := { forwardingConfig.lib with fromBytes := fun bytes => forwardingConfig.lib.fromBytes (folded bytes) } }

theorem foldingConfig_lawful : foldingConfig.lib.Lawful := by
  have hb {bytes : Bytes} {p : Packet} (h : foldingConfig.lib.toBytes p=some bytes) : folded bytes=bytes := by
    rcases mem_pair.mp (mem_of_toBytes h) with heq | heq <;> cases heq <;> decide
  have hl := forwardingConfig_lawful
  constructor
  case fromBytes_ad => exact fun h => (hl.fromBytes_ad h).trans (adBit_folded _)
  case toBytes_ad => exact hl.toBytes_ad
  case fromBytes_nil => exact hl.fromBytes_nil
  case toBytes_queries => exact fun h h' => hl.toBytes_queries h (hb h ▸ h')
  case toBytes_answers => exact fun h h' => hl.toBytes_answers h (hb h ▸ h')

theorem foldingConfig_plain : PlainQuestions foldingConfig.lib := by
  intro p bytes q hb hq
  rcases mem_pair.mp (mem_of_toBytes hb) with heq | heq <;> cases heq <;> cases hq
  · exact ⟨[[97]],queryABytes.drop 15,by decide,by decide⟩
  · exact ⟨[[97]],vouchedABytes.drop 15,by decide,by decide⟩

theorem foldingConfig_folds : FoldsQuestions foldingConfig.lib := by
  intro query spelt spelt' rest hs hsa
  have hl : 12 ≤ query.length := by
    by_contra hsh
    have hn := hs.1
    rw [drop_eq_nil_of_le (by omega)] at hn
    simp [wireName] at hn
  have hf : folded (query.take 12++wireName spelt'++rest)=folded query := by
    have hh : (query.take 12).length=12 := length_take_of_le hl
    unfold folded
    rw [append_assoc,take_left' hh,drop_left' hh,hs.1,map_append,map_append,map_asciiLower_wireName hsa]
  exact congrArg (fun bytes => (forwardingConfig.lib.fromBytes bytes).map (·.queries)) hf

def foldingQuery : ServerProg Bytes := handleQueryProto foldingConfig queryABytes (some (.v4 0x7f000001)) none .tcp

def foldingRun : ServerLog × Bytes := answeredBy (repliesBy holdsNothing (some vouchedABytes)) foldingQuery

/-- The query for `a.` is forwarded, and it is not in `arpa.`. -/
theorem arpa_staysOnBox_forwarded :
    (foldingRun.1.any fun e => match e.1 with
      | .exchangeSecure _ sent => sent=queryABytes
      | _ => false)=true ∧
      ∀ e∈foldingRun.1,ForwardsOutsideArpa foldingConfig.lib e.1 := by
  refine ⟨by decide +kernel,?_⟩
  refine (arpa_staysOnBox foldingConfig_lawful foldingConfig_plain foldingConfig_folds
    (yields_answeredBy _ foldingQuery) ?_
    ⟨[[97]],queryABytes.drop 15,by decide,by decide⟩ ?_).1
  · intro ⟨o,r⟩ he
    have hr : r=repliesBy holdsNothing (some vouchedABytes) o := mem_answeredBy he
    subst hr
    cases o with
    | randomizeQnameCase queryData => exact ⟨_,rfl⟩
    | _ => trivial
  · intro p hp
    obtain rfl : queryA=p := Option.some.inj hp
    decide

def arpa : Name := DenialChains.toyName [[97,114,112,97]]

def arpaNetwork : Network := fun _ q =>
  if q.qtype=.DNSKEY then some (toyReply q .NoError (toyDnskeys .root [1]) [] [])
  else some (toyReply q .NoError [toyRecord q.name (.a 7),toySig arpa .A arpa [1]] [] [])

def arpaTrace : LookupLog × Except ResolveError Resolution :=
  answeredIn (respond toyConfig arpaNetwork 5) (resolve toyConfig nameA .A .IN) (.fresh [] 0)

def twoQuestions : Packet := { Packet.new with id := 1, queries := [⟨nameA,.A,.IN⟩,⟨arpa,.NS,.IN⟩] }

def twoQuestionsBytes : Bytes :=
  [0,1,0,0,0,2,0,0,0,0,0,0,1,97,0,0,1,0,1,4,97,114,112,97,0,0,2,0,1]

def twoQuestionsConfig : ServerConfig :=
  { forwardingConfig with lib := tableLibrary [(twoQuestions,twoQuestionsBytes)] }

def twoQuestionsRun : ServerLog × Bytes :=
  answeredBy (repliesBy holdsNothing none)
    (handleQueryProto twoQuestionsConfig twoQuestionsBytes (some (.v4 0x7f000001)) none .tcp)

def asksArpaDs (e : (o : Op) × Res o) : Bool :=
  match e.1 with
  | .sendUdp _ query => query.name=arpa && query.qtype=.DS
  | _ => false

/-- For `a.` the root is asked for the DS of `arpa.`, and a forwarder is sent a question for its NS. -/
theorem arpa_leaves :
    (Yields (resolve toyConfig nameA .A .IN) arpaTrace.1 arpaTrace.2 ∧ (∀ e∈arpaTrace.1,Possible toyConfig e) ∧
      ∃ e∈arpaTrace.1,¬ AsksOutsideArpa e.1) ∧
    Yields (handleQueryProto twoQuestionsConfig twoQuestionsBytes (some (.v4 0x7f000001)) none .tcp) twoQuestionsRun.1
        twoQuestionsRun.2 ∧
      twoQuestionsConfig.lib.Lawful ∧ ∃ e∈twoQuestionsRun.1,¬ ForwardsOutsideArpa twoQuestionsConfig.lib e.1 := by
  refine ⟨⟨yields_answeredIn _ _ _,fun _ => possible_of_respond,?_⟩,yields_answeredBy _ _,
    tableLibrary_lawful (by decide) (by decide),?_⟩
  · have ha : arpaTrace.1.any asksArpaDs=true := by decide +kernel
    obtain ⟨⟨o,r⟩,hm,hs⟩ := any_eq_true.mp ha
    refine ⟨_,hm,?_⟩
    cases o with
    | sendUdp server query =>
      obtain ⟨hn,-⟩ := Bool.and_eq_true_iff.mp hs
      change ¬ isArpaSubtree query.name=false
      rw [of_decide_eq_true hn]
      decide
    | _ => cases hs
  · have ha : (twoQuestionsRun.1.any fun e => match e.1 with
        | .exchangeSecure _ sent => sent=twoQuestionsBytes
        | _ => false)=true := by decide +kernel
    obtain ⟨⟨o,r⟩,hm,hs⟩ := any_eq_true.mp ha
    refine ⟨_,hm,?_⟩
    cases o with
    | exchangeSecure f sent =>
      obtain rfl := of_decide_eq_true hs
      intro ho
      exact absurd (ho twoQuestions rfl ⟨arpa,.NS,.IN⟩ (by decide)) (by decide)
    | _ => cases hs

end RolodexDns.ArpaTraffic
