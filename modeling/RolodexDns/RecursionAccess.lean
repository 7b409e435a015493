import RolodexDns.OwnedTlds
import RolodexDns.WireQuestions

/-! What a client gets that names are not resolved for. Its queries leave the box exactly when they are
for a name under an owned TLD that has peers: the gate comes after them. -/
namespace RolodexDns.RecursionAccess
open DnsRecords ProgramTraces StoredRecords WireMessages ServerOperations List
open UpstreamResolution QueryHandling AuthoritativeAnswers LocalTraces AuthenticData OwnedTlds

variable {cfg : ServerConfig}

section
variable {queryData : Bytes} {log : ServerLog} {response : Option Bytes} {peer : SocketAddr}

/-- A whole header at least, which respelling does not shorten. -/
def Spelt (queryData : Bytes) (log : ServerLog) : Prop := 12 ≤ queryData.length ∧ ∀ e∈log,MixesCase e.1 e.2

theorem spellQuery_length {sent : Bytes} (h : Yields (spellQuery cfg queryData) log sent) (hs : Spelt queryData log) :
    12 ≤ sent.length := by
  unfold spellQuery at h
  split_ifs at h
  · obtain ⟨randomized,rest,hr,rfl⟩ := h.perform_bind_inv
    obtain ⟨-,rfl⟩ := hr.pure_inv
    obtain ⟨coins,hm⟩ := hs.2 _ mem_cons_self
    cases randomized with
    | none => exact hs.1
    | some r => exact hs.1.trans_eq (WireQuestions.length_randomizeQnameCase hm.symm).symm
  · obtain ⟨-,rfl⟩ := h.pure_inv
    exact hs.1

theorem forwardOne_leaves (h : Yields (forwardOne cfg (.peer peer) queryData) log response) (hs : Spelt queryData log) :
    ∃ e∈log,¬ StaysWithin [] e.1 := by
  unfold forwardOne at h
  split_ifs at h
  · rw [h.perform_inv]
    exact ⟨_,mem_cons_self,not_mem_nil⟩
  · obtain ⟨sent,first,rest,hf,hr,rfl⟩ := h.bind_inv
    have hl := spellQuery_length hf ⟨hs.1,fun e he => hs.2 e (mem_append_left _ he)⟩
    rw [if_neg (by omega)] at hr
    obtain ⟨datagrams,last,-,rfl⟩ := hr.perform_bind_inv
    exact ⟨_,mem_append_right _ mem_cons_self,not_mem_nil⟩

theorem forwardToTldPeers_leaves {peers : List SocketAddr}
    (h : Yields (forwardToTldPeers cfg queryData (peer::peers)) log response) (hs : Spelt queryData log) :
    ∃ e∈log,¬ StaysWithin [] e.1 := by
  obtain ⟨reply,first,rest,hf,-,rfl⟩ := h.bind_inv
  obtain ⟨e,he,hl⟩ :=
    forwardOne_leaves hf ⟨hs.1,fun e he => hs.2 e (mem_append_left _ he)⟩
  exact ⟨e,mem_append_left _ he,hl⟩

end

/-- The response was decided on here: an error, or a reply of the server's own. -/
def AnsweredHere (cfg : ServerConfig) (queryData : Bytes) (proto : Proto) (sourceIp localIp : Option IpAddr)
    (bytes : Bytes) :
    Prop :=
  ∃ response,bytes=sendable cfg proto queryData response ∧
    (readQuery cfg queryData sourceIp localIp=.error response ∨
      ∃ ask reply,readQuery cfg queryData sourceIp localIp=.ok ask ∧ response=Reply.bytes cfg.lib ask reply)

section
variable {ask : Asked} {log : ServerLog} {response : Bytes}

/-- The decision for a stranger: nothing leaves unless there are peers to ask. -/
theorem answerAsked_stranger (hs : ask.sourceIp.all cfg.mayRecurse=false) (hsp : Spelt ask.queryData log)
    (h : Yields (answerAsked cfg ask) log response) :
    ((∀ e∈log,StaysWithin [] e.1) →
        ∀ scope tld peers,⟨.held (.getTldForwarders scope tld),peers⟩∈log → peers=[]) ∧
      ((∀ scope tld peers,⟨.held (.getTldForwarders scope tld),peers⟩∈log → peers=[]) →
        (∀ e∈log,StaysWithin [] e.1) ∧ ∃ reply,response=Reply.bytes cfg.lib ask reply) := by
  obtain ⟨own,step,rest,rfl,ho,hr⟩ := answerAsked_inv h
  obtain ⟨hd,hl⟩ := localAnswer_decided ho
  have hst : ¬ MayLeave cfg ask own := fun hla => absurd (hla.2.1.symm.trans hs) (by decide)
  have hh : ∀ e∈heldLog own,StaysWithin [] e.1 :=
    staysWithin_heldLog fun name listed hm => hst (hl name listed hm)
  have hre {scope tld : Text} {peers : List SocketAddr} (hm : ⟨.getTldForwarders scope tld,peers⟩∈own) :
      peers∈own.filterMap peersRead := mem_filterMap.mpr ⟨_,hm,rfl⟩
  match step with
  | none => exact absurd hd.2 hst
  | some (.answer reply) =>
    obtain ⟨rfl,rfl⟩ := hr
    refine ⟨fun _ scope tld peers hm => ?_,fun _ => ⟨by simpa using hh,reply,rfl⟩⟩
    have hn : own.filterMap peersRead=[] := hd
    have hm := hre (mem_heldLog.mp (by simpa using hm))
    rw [hn] at hm
    cases hm
  | some (.askPeers peers ns) =>
    obtain ⟨hon,owner,tld,-,hp⟩ := hd
    constructor
    · intro ha scope tld found hm
      have hf : found=peers := by
        rcases mem_append.mp hm with hm | hm
        · simpa [hon] using hre (mem_heldLog.mp hm)
        · exact absurd (peersThenDenial_asksPeers hr _ hm) id
      rw [hf]
      cases peers with
      | nil => rfl
      | cons peer peers =>
        obtain ⟨reply,first,last,hfi,-,rfl⟩ := Yields.bind_inv hr
        obtain ⟨e,he,hle⟩ := forwardToTldPeers_leaves hfi ⟨hsp.1,fun e he => hsp.2 e (by simp [he])⟩
        exact absurd (ha e (by simp [he])) hle
    · intro hem
      obtain rfl : peers=[] := hem owner tld peers (mem_append_left _ (mem_heldLog.mpr hp))
      refine ⟨forall_mem_append.mpr ⟨hh,fun e he => (peersThenDenial_asksPeers hr e he).staysWithin⟩,?_⟩
      -- With no peers to ask, what is left is the denial.
      obtain ⟨reply,first,last,-,hls,-⟩ :=
        Yields.bind_inv (p := ServerProg.held (authoritativeNegative cfg.lib ask ns)) hr
      exact ⟨reply,hls.pure_inv.2⟩

/-- A stranger's query stays on the box exactly when no peers are found for the name's TLD. -/
theorem stranger_staysOnBox_iff {queryData bytes : Bytes} {ip : IpAddr} {localIp : Option IpAddr} {proto : Proto}
    (hheader : ∀ {bytes p},cfg.lib.fromBytes bytes=some p → 12 ≤ bytes.length)
    (hstranger : cfg.mayRecurse (toCanonical ip)=false)
    (h : Yields (handleQueryProto cfg queryData (some ip) localIp proto) log bytes)
    (hmix : ∀ e∈log,MixesCase e.1 e.2) :
    ((∀ e∈log,StaysWithin [] e.1) ∧
        AnsweredHere cfg queryData proto (some (toCanonical ip)) (localIp.map toCanonical) bytes) ↔
      ∀ scope tld peers,⟨.held (.getTldForwarders scope tld),peers⟩∈log → peers=[] := by
  rcases handleQueryProto_inv h with ⟨rfl,response,hr,rfl⟩ | ⟨ask,response,hr,ha,rfl⟩
  · exact iff_of_true ⟨forall_mem_nil _,response,rfl,.inl hr⟩ fun _ _ _ hme => by cases hme
  · obtain ⟨hm,-,heq⟩ := readQuery_ok hr
    have hs : ask.sourceIp.all cfg.mayRecurse=false := by
      rw [heq]
      exact hstranger
    have hd : ask.queryData=queryData := by rw [heq]
    obtain ⟨hl,hst⟩ := answerAsked_stranger hs ⟨hd ▸ hheader hm,hmix⟩ ha
    refine ⟨fun hal => hl hal.1,fun he => ?_⟩
    obtain ⟨hal,reply,rfl⟩ := hst he
    exact ⟨hal,_,rfl,.inr ⟨ask,reply,hr,rfl⟩⟩

end

def strangersQuery : ServerProg Bytes := handleQueryProto forwardingConfig queryABytes (some (.v4 0xc6336401)) none .udp

def strangersRun : ServerLog × Bytes :=
  answeredBy (repliesBy (holdsTlds officeRegistry forwardingConfig.lower) none) strangersQuery

theorem forwardingConfig_header {bytes : Bytes} {p : Packet} (h : forwardingConfig.lib.fromBytes bytes=some p) :
    12 ≤ bytes.length := by
  obtain ⟨⟨p',bytes'⟩,hf,rfl⟩ := Option.map_eq_some_iff.mp h
  obtain rfl : bytes'=bytes := by simpa using find?_some hf
  have ha : ∀ e∈[(queryA,queryABytes),(vouchedA,vouchedABytes)],12 ≤ e.2.length := by decide
  exact ha _ (mem_of_find?_eq_some hf)

/-- The condition is decided by the peers that are read. -/
theorem stranger_staysOnBox_iff_office :
    forwardingConfig.mayRecurse (toCanonical (.v4 0xc6336401))=false ∧
      Yields strangersQuery strangersRun.1 strangersRun.2 ∧
      (((∀ e∈strangersRun.1,StaysWithin [] e.1) ∧
          AnsweredHere forwardingConfig queryABytes .udp (some (toCanonical (.v4 0xc6336401))) none strangersRun.2) ↔
        ∀ scope tld peers,⟨.held (.getTldForwarders scope tld),peers⟩∈strangersRun.1 → peers=[]) := by
  refine ⟨by decide,yields_answeredBy _ _,?_⟩
  refine stranger_staysOnBox_iff forwardingConfig_header (by decide) (yields_answeredBy _ strangersQuery)
    fun ⟨o,r⟩ hm => ?_
  have hr : r=repliesBy (holdsTlds officeRegistry forwardingConfig.lower) none o := mem_answeredBy hm
  subst hr
  cases o with
  | randomizeQnameCase queryData => exact ⟨_,rfl⟩
  | _ => trivial

/-- The peers of the office are sent the query of a stranger. -/
theorem stranger_asks_peers :
    forwardingConfig.mayRecurse (toCanonical (.v4 0xc6336401))=false ∧
      Yields strangersQuery strangersRun.1 strangersRun.2 ∧
      (strangersRun.1.any fun e => match e.1 with
        | .exchangeUdp (.peer addr) _ sent => addr=⟨.v4 0x0a400002,53⟩ && sent=queryABytes
        | _ => false)=true ∧
      ¬ ∀ e∈strangersRun.1,StaysWithin [] e.1 := by
  have ha : (strangersRun.1.any fun e => match e.1 with
      | .exchangeUdp (.peer addr) _ sent => addr=⟨.v4 0x0a400002,53⟩ && sent=queryABytes
      | _ => false)=true := by decide +kernel
  refine ⟨by decide,yields_answeredBy _ _,ha,fun hal => ?_⟩
  obtain ⟨⟨o,r⟩,hm,hs⟩ := any_eq_true.mp ha
  have hst := hal _ hm
  cases o with
  | exchangeUdp upstream queryData sent =>
    cases upstream with
    | peer addr => exact not_mem_nil hst
    | forwarder f => cases hs
  | _ => cases hs

end RolodexDns.RecursionAccess
