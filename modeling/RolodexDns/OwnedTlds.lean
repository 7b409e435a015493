import RolodexDns.AuthenticData
import RolodexDns.LocalTraces

/-! The TLDs that network scopes own, and that a name under one of them stays with its owner: it is
answered here or asked of the peers of its TLD, and of nobody else. -/
namespace RolodexDns.OwnedTlds
open DnsRecords ProgramTrees ProgramTraces StoredRecords WireMessages ServerOperations List
open UpstreamResolution QueryHandling AuthoritativeAnswers LocalTraces AuthenticData

/-- The owned TLDs as they are kept in memory: the owner of each under its normalized name, and the
peers configured for it. -/
structure TldRegistry where
  owners : List (Text × Text)
  forwarders : Text → Text → List SocketAddr

namespace TldRegistry
variable (reg : TldRegistry) (toLowercase : Text → Text) (qname tld : Text)

def owner : Option Text := reg.owners.lookup tld

/-- Goes from dot to dot, looking up what comes after each. -/
def ownerAbove : Text → Option (Text × Text)
  | [] => none
  | c::rest =>
    if c = '.' then
      if rest.isEmpty then none
      else match reg.owner (rest++['.']) with
        | some scope => some (scope,rest++['.'])
        | none => ownerAbove rest
    else ownerAbove rest

def findTldOwner : Option (Text × Text) :=
  let normalized := normalizeName toLowercase qname
  match reg.owner normalized with
  | some scope => some (scope,normalized)
  | none => reg.ownerAbove (trimEndDots normalized)

/-- A name other than the root, with its one final dot. -/
def IsTld : Prop := ∃ body,body≠[] ∧ body.getLast?≠some '.' ∧ tld=body++['.']

/-- The name is at or below a TLD that some scope owns. -/
def Owns : Prop :=
  ∃ tld scope,IsTld (normalizeName toLowercase tld) ∧ reg.owner (normalizeName toLowercase tld)=some scope ∧
    nameInZone toLowercase qname tld=true

variable {reg toLowercase}

theorem ownerAbove_isSome {body scope : Text} (hb : body≠[]) (ho : reg.owner (body++['.'])=some scope)
    (before : Text) : (reg.ownerAbove (before ++ '.' :: body)).isSome=true := by
  induction before with
  | nil => simp [ownerAbove,hb,ho]
  | cons c before ih =>
    -- A dot on the way may find a more specific owner; either way there is one.
    rw [cons_append,ownerAbove]
    split_ifs with hd he
    · simp at he
    · split
      · rfl
      · exact ih
    · exact ih

/-- Whoever owns a TLD is found from every name in it. -/
theorem findTldOwner_isSome {qname : Text} (h : reg.Owns toLowercase qname) :
    (reg.findTldOwner toLowercase qname).isSome=true := by
  obtain ⟨tld,scope,⟨body,hb,hl,ht⟩,ho,hz⟩ := h
  unfold findTldOwner
  dsimp only
  split
  · rfl
  · rename_i hm
    simp only [nameInZone,Bool.or_eq_true,decide_eq_true_eq,isSuffixOf_iff_suffix] at hz
    rw [ht] at hz ho
    rcases hz with (heq | hr) | ⟨before,hbe⟩
    · rw [heq,ho] at hm
      cases hm
    · exact absurd hr (by simp [hb])
    · have hs : normalizeName toLowercase qname=(before ++ '.' :: body)++['.'] := by
        rw [← hbe]
        simp
      rw [hs,trimEndDots_concat]
      · exact ownerAbove_isSome hb ho before
      · rwa [getLast?_append_of_ne_nil _ (by simp),getLast?_cons_of_ne_nil hb]

end TldRegistry

variable (peers : List SocketAddr)

def StaysWithin : ServerOp → Prop
  | .held (.isNameListed _) => False
  | .held _ => True
  | .randomizeQnameCase _ => True
  | .exchangeUdp (.peer addr) _ _ | .exchangeProxied (.peer addr) _ => addr∈peers
  | _ => False

def AsksPeers : ServerOp → Prop
  | .held o => Harmless o
  | o => StaysWithin peers o

theorem AsksPeers.staysWithin {peers : List SocketAddr} {o : ServerOp} (h : AsksPeers peers o) :
    StaysWithin peers o := by
  cases o with
  | held o => cases o <;> trivial
  | _ => exact h

section
variable {cfg : ServerConfig} {ask : Asked} {queryData : Bytes} {log : ServerLog} {peers : List SocketAddr}

theorem forwardToTldPeers_asksPeers : (forwardToTldPeers cfg queryData peers).Only (AsksPeers peers) := by
  refine (forwardToTldPeers_exchanges (List.Subset.refl _)).weaken (fun o ho => ?_) fun _ _ _ => trivial
  obtain ⟨peer,hp,ho⟩ := ho
  cases o with
  | randomizeQnameCase => trivial
  | exchangeUdp | exchangeProxied =>
    obtain rfl := ho
    exact hp
  | exchangeTcp | exchangeSecure => cases ho
  | _ => exact ho.elim

theorem staysWithin_heldLog {own : LocalLog} (h : ∀ name listed,⟨.isNameListed name,listed⟩∉own) :
    ∀ e∈heldLog own,StaysWithin peers e.1 := by
  rintro e he
  obtain ⟨⟨o,r⟩,hm,rfl⟩ := mem_map.mp he
  cases o with
  | isNameListed name => exact absurd hm (h name r)
  | _ => trivial

/-- The peers are asked and nobody else; the denial is made of the server's own data. -/
theorem peersThenDenial_asksPeers {ns : Namespace} {response : Bytes}
    (h : Yields (peersThenDenial cfg ask peers ns) log response) : ∀ e∈log,AsksPeers peers e.1 := by
  refine h.demands (Q := fun _ => True) ?_
  refine forwardToTldPeers_asksPeers.bind fun reply _ => ?_
  cases reply with
  | some reply => trivial
  | none =>
    have hd : (ServerProg.held (authoritativeNegative cfg.lib ask ns)).Only (AsksPeers peers) :=
      sat_lift (authoritativeNegative_sat cfg.lib (by cases ns <;> trivial))
    exact hd.bind fun _ _ => trivial

/-- Reads of the owned TLDs give what is registered. -/
def TldRegistry.Answers (reg : TldRegistry) (toLowercase : Text → Text) : ((o : ServerOp) × ServerRes o) → Prop
  | ⟨.held (.findTldOwner name),found⟩ => found=reg.findTldOwner toLowercase name
  | ⟨.held (.getTldForwarders scope tld),peers⟩ => peers=reg.forwarders scope tld
  | _ => True

/-- A name under an owned TLD is asked of that TLD's peers or of nobody. -/
theorem ownedName_staysWithin {sourceIp localIp : Option IpAddr} {proto : Proto} {bytes : Bytes} {reg : TldRegistry}
    {message : Packet} {question : Query}
    (h : Yields (handleQueryProto cfg queryData sourceIp localIp proto) log bytes)
    (hmessage : cfg.lib.fromBytes queryData=some message) (hquestion : message.queries.head?=some question)
    (hreads : ∀ e∈log,reg.Answers cfg.lower e)
    (howned : reg.Owns cfg.lower (cfg.lib.nameText question.name)) :
    ∃ owner tld,reg.findTldOwner cfg.lower (cfg.lib.nameText question.name)=some (owner,tld) ∧
      ∀ e∈log,StaysWithin (reg.forwarders owner tld) e.1 := by
  obtain ⟨⟨owner,tld⟩,hf⟩ := Option.isSome_iff_exists.mp (TldRegistry.findTldOwner_isSome howned)
  refine ⟨owner,tld,hf,?_⟩
  rcases handleQueryProto_inv h with ⟨rfl,-⟩ | ⟨ask,response,hre,ha,-⟩
  · exact forall_mem_nil _
  have hq : ask.qname=cfg.lib.nameText question.name := by
    obtain ⟨hmessage',hquestion',heq⟩ := readQuery_ok hre
    obtain rfl : message=ask.message := Option.some.inj (hmessage.symm.trans hmessage')
    obtain rfl : question=ask.question := Option.some.inj (hquestion.symm.trans hquestion')
    rw [heq]
  obtain ⟨own,step,rest,rfl,ho,hr⟩ := answerAsked_inv ha
  obtain ⟨hd,hl⟩ := localAnswer_decided ho
  -- The owner is found at every look, so the name may not leave.
  have hlk {found : Option (Text × Text)} (hm : ⟨.findTldOwner ask.qname,found⟩∈own) : found=some (owner,tld) := by
    rw [← hf,← hq]
    exact hreads _ (mem_append_left _ (mem_heldLog.mpr hm))
  have hs : ¬ MayLeave cfg ask own := fun hle => by cases hlk hle.1
  have hh : ∀ e∈heldLog own,StaysWithin (reg.forwarders owner tld) e.1 :=
    staysWithin_heldLog fun name listed hm => hs (hl name listed hm)
  refine forall_mem_append.mpr ⟨hh,?_⟩
  match step with
  | none => exact absurd hd.2 hs
  | some (.answer reply) =>
    rw [hr.1]
    exact forall_mem_nil _
  | some (.askPeers peers ns) =>
    obtain ⟨-,owner',tld',hlo,hp⟩ := hd
    cases hlk hlo
    obtain rfl : peers=reg.forwarders owner tld := hreads _ (mem_append_left _ (mem_heldLog.mpr hp))
    exact fun e he => (peersThenDenial_asksPeers hr e he).staysWithin

end

def holdsTlds (reg : TldRegistry) (toLowercase : Text → Text) : (o : LocalOp) → LocalRes o
  | .findTldOwner name => reg.findTldOwner toLowercase name
  | .getTldForwarders scope tld => reg.forwarders scope tld
  | o => holdsNothing o

theorem answers_holdsTlds {reg : TldRegistry} {toLowercase : Text → Text} {reply : Option Bytes} {α : Type}
    {p : ServerProg α} {e : (o : ServerOp) × ServerRes o}
    (he : e∈(answeredBy (repliesBy (holdsTlds reg toLowercase) reply) p).1) : reg.Answers toLowercase e := by
  have heq := mem_answeredBy he
  obtain ⟨o,r⟩ := e
  cases o with
  | held o => cases o <;> first | exact heq | trivial
  | _ => trivial

def officeRegistry : TldRegistry := ⟨[(['a','.'],['o'])],fun _ _ => [⟨.v4 0x0a400002,53⟩]⟩

def officeRun : ServerLog × Bytes :=
  answeredBy (repliesBy (holdsTlds officeRegistry forwardingConfig.lower) (some vouchedABytes)) forwardedQuery

/-- The query goes to the peer, although a forwarder would answer it. -/
theorem ownedName_staysWithin_office :
    (officeRun.1.any fun e => match e.1 with
      | .exchangeUdp (.peer addr) _ _ => addr=⟨.v4 0x0a400002,53⟩
      | _ => false)=true ∧
      ∃ owner tld,officeRegistry.findTldOwner forwardingConfig.lower (forwardingConfig.lib.nameText nameA) =
          some (owner,tld) ∧ ∀ e∈officeRun.1,StaysWithin (officeRegistry.forwarders owner tld) e.1 := by
  have ho : officeRegistry.Owns forwardingConfig.lower (forwardingConfig.lib.nameText nameA) :=
    ⟨['a','.'],['o'],⟨['a'],by decide,by decide,by decide⟩,by decide,by decide⟩
  have hq : queryA.queries.head?=some ⟨nameA,.A,.IN⟩ := rfl
  exact ⟨by decide +kernel,
    ownedName_staysWithin (yields_answeredBy _ forwardedQuery) rfl hq (fun _ => answers_holdsTlds) ho⟩

end RolodexDns.OwnedTlds
