import RolodexDns.ProgramTraces
import RolodexDns.ResolverExecution

/-! Zones some of whose servers cannot answer. A zone's servers are asked in an order that their health
decides, and the first message that belongs to the query is the outcome, whatever its response code. -/
namespace RolodexDns.LameServers
open DomainNames DnsRecords ResponseReading ResolverCaches ResolverWorld IterativeResolver ResolverExecution
  ProgramTraces List

section
variable (reply : (o : Op) → Res o) (query : OutQuery)

/-- What a server answers, over TCP where its reply is truncated. A server that is silent, or that sends
what cannot be parsed or does not belong to the query, answers nothing. -/
def accepted (server : IpAddr) : Option Message :=
  match reply (.sendUdp server query) with
  | none => none
  | some msg => if msg.id=query.id && msg.truncated then matching query (reply (.sendTcp server query)) else
      matching query (some msg)

variable {reply query} {server : IpAddr} {budget : Nat}

theorem eval_queryTcp : eval reply (queryTcp server query budget) =
      (.ok (matching query (reply (.sendTcp server query))),budget) := by
  have hs : eval reply (sendTcp server query budget)=(.ok (reply (.sendTcp server query)),budget) := rfl
  rw [queryTcp_eq,eval_bind_ok hs]
  rfl

theorem eval_queryOne : eval reply (queryOne server query budget)=(.ok (accepted reply query server),budget) := by
  have hs : eval reply (sendUdp server query budget)=(.ok (reply (.sendUdp server query)),budget) := rfl
  rw [queryOne_eq,eval_bind_ok hs,accepted]
  cases reply (.sendUdp server query) with
  | none => rfl
  | some msg =>
    rw [Option.any_some]
    dsimp only
    split_ifs
    · exact eval_queryTcp
    · rfl

/-- The first server that answers anything is the one that is heard. -/
theorem eval_tryServers {servers : List IpAddr} (hb : servers.length ≤ budget) {answered : Answered}
    (h : servers.findSome? (fun s => (accepted reply query s).map (Answered.mk · s))=some answered) :
    ∃ left,eval reply (tryServers query servers budget)=(.ok answered,left) := by
  induction servers generalizing budget with
  | nil => cases h
  | cons first rest ih =>
    have hp : 0<budget := Nat.lt_of_lt_of_le (Nat.succ_pos _) hb
    have hc : eval reply (claim budget)=(.ok true,budget - 1) := by
      rw [claim,decide_eq_true hp]
      rfl
    rw [tryServers,eval_bind_ok hc,if_pos rfl,eval_bind_ok eval_queryOne]
    rw [findSome?_cons] at h
    cases hf : accepted reply query first with
    | none =>
      rw [hf] at h
      exact ih (Nat.le_sub_of_add_le hb) h
    | some heard =>
      rw [hf] at h
      obtain rfl : Answered.mk heard first=answered := Option.some.inj h
      exact ⟨budget - 1,rfl⟩

end

section
variable (cfg : Config) (qclass : DnsClass) (inner : Inner) (msg : Message)
  (name : Name) (qtype : RecordType) (cnameSeen : List Name)

/-- What a walk does with the response to its query. -/
def proceed (hops : Nat) (servers : List IpAddr) (currentZone : Name) (trust : Option TrustState) (visited : List Name)
    (response : Message) : Lookup (Resolution × List Name) :=
  match classify response qtype with
  | .answer records => do
    let res ← answerStep cfg qclass name qtype response records servers currentZone trust
    return (res,cnameSeen)
  | .cname target records => cnameStep cfg qclass inner name qtype cnameSeen response target records servers
      currentZone trust
  | .negative rcode soa => do
    let res ← negativeStep cfg qclass name qtype response rcode soa servers currentZone trust
    return (res,cnameSeen)
  | .referral zone glueRecords nsTargets ttl => do
    match ← referralStep cfg qclass inner name response zone glueRecords nsTargets ttl currentZone trust visited with
    | .error v => return (.withheld v,cnameSeen)
    | .ok (next,state) => walk cfg qclass inner name qtype cnameSeen hops next zone state (zone::visited)

theorem walk_succ (hops : Nat) (servers : List IpAddr) (currentZone : Name) (trust : Option TrustState)
    (visited : List Name) :
    walk cfg qclass inner name qtype cnameSeen (hops+1) servers currentZone trust visited =
      queryServers cfg servers name qtype qclass >>= fun answered =>
        proceed cfg qclass inner name qtype cnameSeen hops servers currentZone trust visited answered.message := by
  rfl

def Definitive : Prop :=
  (msg.responseCode=.NoError ∧ (msg.answers≠[] ∨ ∃ r∈msg.nameServers,r.data.asNs.isSome=true)) ∨
    msg.responseCode=.NXDomain

def Lame : Prop := msg.responseCode=.ServFail ∨ msg.responseCode=.Refused

theorem Lame.not_definitive {msg : Message} (h : Lame msg) : ¬ Definitive msg := by
  rintro (⟨hc,-⟩ | hc) <;> rcases h with h | h <;> exact absurd (hc.symm.trans h) (by decide)

/-- The same replies, with the servers of a zone in another order. -/
def reordered (reply : (o : Op) → Res o) (servers order : List IpAddr) : (o : Op) → Res o
  | .orderServers asked => if asked=servers then order else reply (.orderServers asked)
  | o => reply o

variable {cfg qclass} {reply : (o : Op) → Res o} (servers : List IpAddr) {order : List IpAddr} {name : Name}
  {qtype : RecordType}
  {budget : Nat}

def outgoing (cfg : Config) (reply : (o : Op) → Res o) (name : Name) (qtype : RecordType) (qclass : DnsClass) :
    OutQuery :=
  ⟨reply .randomId,name,qtype,qclass,cfg.validating⟩

theorem eval_queryServers (hb : order.length ≤ budget) {answered : Answered}
    (h : order.findSome? (fun s => (accepted reply (outgoing cfg reply name qtype qclass) s).map (Answered.mk · s)) =
      some answered) :
    ∃ left,eval (reordered reply servers order) (queryServers cfg servers name qtype qclass budget) =
      (.ok answered,left) := by
  have hid : eval (reordered reply servers order) (randomId budget)=(.ok (reply .randomId),budget) := rfl
  have ho : eval (reordered reply servers order) (orderServers servers budget)=(.ok order,budget) :=
    congrArg (fun order => (Except.ok order,budget)) (if_pos rfl)
  rw [queryServers,eval_bind_ok hid,eval_bind_ok ho]
  exact eval_tryServers hb h

end

section
variable {servers order : List IpAddr} {s : IpAddr}

theorem perm_of_isOrdering (h : IsOrdering servers order) : order.Perm servers := by
  obtain ⟨v4,v6,rfl,hv4,hv6⟩ := h
  refine (hv4.append hv6).trans ?_
  have hs := filter_append_perm IpAddr.isV4 servers
  simpa using hs

theorem exists_order_v4 (hs : s∈servers) (hv4 : s.isV4=true) : ∃ rest,IsOrdering servers (s::rest) := by
  have hm : s∈servers.filter IpAddr.isV4 := mem_filter.mpr ⟨hs,hv4⟩
  exact ⟨_,s::(servers.filter IpAddr.isV4).erase s,_,rfl,(perm_cons_erase hm).symm,List.Perm.refl _⟩

theorem exists_order_v6 (hs : s∈servers) (hv6 : s.isV4=false) :
    ∃ v4 rest,IsOrdering servers (v4++s::rest) ∧ ∀ s'∈v4,s'∈servers ∧ s'.isV4=true := by
  have hm : s∈servers.filter fun s => !s.isV4 := mem_filter.mpr ⟨hs,by simp [hv6]⟩
  exact ⟨servers.filter IpAddr.isV4,(servers.filter fun s => !s.isV4).erase s,
    ⟨_,_,rfl,List.Perm.refl _,(perm_cons_erase hm).symm⟩,fun s' hs' => mem_filter.mp hs'⟩

end

section
variable {cfg : Config} {qclass : DnsClass} {reply : (o : Op) → Res o} {servers order : List IpAddr}
  {name : Name} {qtype : RecordType}
  {budget : Nat} {query : OutQuery}

/-- In every order that the servers may be tried in, the step goes on with what a server answers definitively. -/
def HearsDefinitive (cfg : Config) (qclass : DnsClass) (reply : (o : Op) → Res o) (servers : List IpAddr)
    (name : Name) (qtype : RecordType) (budget : Nat) : Prop :=
  ∀ order,IsOrdering servers order →
    ∃ s∈servers,∃ msg left,accepted reply (outgoing cfg reply name qtype qclass) s=some msg ∧
    Definitive msg ∧
    eval (reordered reply servers order) (queryServers cfg servers name qtype qclass budget)=(.ok ⟨msg,s⟩,left) ∧
    ∀ inner cnameSeen hops zone trust visited,
      eval (reordered reply servers order)
        (walk cfg qclass inner name qtype cnameSeen (hops+1) servers zone trust visited budget) =
        eval (reordered reply servers order)
          (proceed cfg qclass inner name qtype cnameSeen hops servers zone trust visited msg left)

theorem findSome_accepted {answered : Answered}
    (h : order.findSome? (fun s => (accepted reply query s).map (Answered.mk · s))=some answered) :
    answered.server∈order ∧ accepted reply query answered.server=some answered.message := by
  obtain ⟨s,hs,hf⟩ := exists_of_findSome?_eq_some h
  obtain ⟨msg,hm,rfl⟩ := Option.map_eq_some_iff.mp hf
  exact ⟨hs,hm⟩

theorem exists_findSome {s : IpAddr} (hs : s∈order) {msg : Message} (hm : accepted reply query s=some msg) :
    ∃ answered,order.findSome? (fun s => (accepted reply query s).map (Answered.mk · s))=some answered := by
  rw [← Option.isSome_iff_exists,findSome?_isSome_iff]
  exact ⟨s,hs,by rw [hm]; rfl⟩

/-- What is heard in some order is definitive, if that is what is heard in all of them. -/
theorem HearsDefinitive.not_lame (h : HearsDefinitive cfg qclass reply servers name qtype budget)
    (hb : servers.length ≤ budget) (ho : IsOrdering servers order) (answered : Answered)
    (hh : order.findSome? (fun s => (accepted reply (outgoing cfg reply name qtype qclass) s).map
      (Answered.mk · s))=some answered) :
    ¬ Lame answered.message := by
  intro hla
  have hl : order.length ≤ budget := (perm_of_isOrdering ho).length_eq.trans_le hb
  obtain ⟨left,he⟩ := eval_queryServers servers hl hh
  obtain ⟨s,-,msg,left',-,hd,he',-⟩ := h order ho
  obtain rfl : answered=⟨msg,s⟩ := by simpa using congrArg Prod.fst (he.symm.trans he')
  exact hla.not_definitive hd

/-- Where some server answers definitively and no other answers anything but SERVFAIL or REFUSED, a
definitive answer is heard in every order if and only if no IPv4 server answers SERVFAIL or REFUSED, and an
IPv6 server only where an IPv4 one answers definitively. -/
theorem hears_definitive_iff (cfg : Config) (qclass : DnsClass) (reply : (o : Op) → Res o)
    (servers : List IpAddr) (name : Name)
    (qtype : RecordType) (budget : Nat) (hbudget : servers.length ≤ budget)
    (hsome : ∃ s∈servers,∃ msg,accepted reply (outgoing cfg reply name qtype qclass) s=some msg ∧ Definitive msg)
    (hothers : ∀ s∈servers,∀ msg,accepted reply (outgoing cfg reply name qtype qclass) s=some msg →
      Definitive msg ∨ Lame msg) :
    HearsDefinitive cfg qclass reply servers name qtype budget ↔
      ∀ s∈servers,∀ msg,accepted reply (outgoing cfg reply name qtype qclass) s=some msg → Lame msg →
        s.isV4=false ∧
          ∃ s'∈servers,s'.isV4=true ∧ ∃ msg',accepted reply (outgoing cfg reply name qtype qclass) s'=some msg' ∧
            Definitive msg' := by
  constructor
  · intro h
    have hv4 : ∀ s∈servers,s.isV4=true → ∀ msg,accepted reply (outgoing cfg reply name qtype qclass) s=some msg →
      ¬ Lame msg := by
      intro s hs hf msg hm
      obtain ⟨rest,ho⟩ := exists_order_v4 hs hf
      refine h.not_lame hbudget ho ⟨msg,s⟩ ?_
      simp [hm]
    intro s hs msg hm hl
    have hf : s.isV4=false := by
      by_contra hf
      exact hv4 s hs (by simpa using hf) msg hm hl
    refine ⟨hf,?_⟩
    by_contra hno
    have hsi : ∀ s'∈servers,s'.isV4=true → accepted reply (outgoing cfg reply name qtype qclass) s'=none := by
      intro s' hs' hf'
      by_contra hso
      obtain ⟨msg',hm'⟩ := Option.ne_none_iff_exists'.mp hso
      rcases hothers s' hs' msg' hm' with hd | hl'
      · exact hno ⟨s',hs',hf',msg',hm',hd⟩
      · exact hv4 s' hs' hf' msg' hm' hl'
    -- the IPv4 servers are all silent, so the first IPv6 server is heard
    obtain ⟨v4,rest,ho,hb⟩ := exists_order_v6 hs hf
    refine h.not_lame hbudget ho ⟨msg,s⟩ ?_ hl
    rw [findSome?_append,findSome?_eq_none_iff.mpr fun s' hs' => by rw [hsi s' (hb s' hs').1 (hb s' hs').2]; rfl]
    simp [hm]
  · intro h order ho
    have hp := perm_of_isOrdering ho
    have hle : order.length ≤ budget := hp.length_eq.trans_le hbudget
    have hh : ∃ answered : Answered,order.findSome? (fun s =>
        (accepted reply (outgoing cfg reply name qtype qclass) s).map (Answered.mk · s))=some answered ∧
          ¬ Lame answered.message := by
      by_cases hv4 : ∃ s∈servers,s.isV4=true ∧
        ∃ msg,accepted reply (outgoing cfg reply name qtype qclass) s=some msg ∧ Definitive msg
      · obtain ⟨s,hs,hf,msg,hm,-⟩ := hv4
        obtain ⟨v4,v6,rfl,hpe,-⟩ := ho
        obtain ⟨answered,ha⟩ := exists_findSome (hpe.mem_iff.mpr (mem_filter.mpr ⟨hs,hf⟩)) hm
        refine ⟨answered,by rw [findSome?_append,ha]; rfl,fun hl => ?_⟩
        obtain ⟨hme,hm'⟩ := findSome_accepted ha
        obtain ⟨hse,hf'⟩ := mem_filter.mp (hpe.mem_iff.mp hme)
        rw [(h _ hse _ hm' hl).1] at hf'
        cases hf'
      · obtain ⟨s,hs,msg,hm,-⟩ := hsome
        obtain ⟨answered,ha⟩ := exists_findSome (hp.mem_iff.mpr hs) hm
        obtain ⟨hme,hm'⟩ := findSome_accepted ha
        exact ⟨answered,ha,fun hl => hv4 (h _ (hp.mem_iff.mp hme) _ hm' hl).2⟩
    obtain ⟨answered,ha,hn⟩ := hh
    obtain ⟨hme,hm⟩ := findSome_accepted ha
    have hse := hp.mem_iff.mp hme
    have hd := (hothers _ hse _ hm).resolve_right hn
    obtain ⟨left,he⟩ := eval_queryServers servers hle ha
    refine ⟨answered.server,hse,answered.message,left,hm,hd,he,?_⟩
    intro inner cnameSeen hops zone trust visited
    rw [walk_succ,eval_bind_ok he]

end

def heldBy (net : IpAddr → OutQuery → Option Message) : (o : Op) → Res o
  | .recordGet _ _ => none
  | .recordInsert _ _ _ _ => ()
  | .keyGet _ => none
  | .keyInsert _ _ _ => ()
  | .delegationMatch _ => none
  | .delegationInsert _ _ _ => ()
  | .delegationInvalidate _ => ()
  | .usableRoots servers => servers
  | .orderServers servers => servers
  | .randomId => (7 : UInt16)
  | .sendUdp server query => net server query
  | .sendTcp server query => net server query
  | .noteSuccess _ => ()
  | .noteFailure _ => ()
  | .blameRoot _ => ()
  | .clearBlame _ => ()
  | .swapPrimed => true
  | .nowSecs => some 5

def responseTo (query : OutQuery) (rcode : ResponseCode) (answers : List Record) : Message :=
  ⟨query.id,rcode,true,false,false,[⟨query.name,query.qtype,query.qclass⟩],answers,[],[]⟩

/-- The second server has the address; the first does what it does. -/
def secondHas (first : OutQuery → Option Message) (server : IpAddr) (query : OutQuery) : Option Message :=
  if server=.v4 1 then first query
  else if server=.v4 2 then some (responseTo query .NoError [toyRecord query.name (.a 1)])
  else none

def twoRoots : Config := { toyConfig with anchors := none, rootHints := [.v4 1,.v4 2] }

def addressOfRoot : Message := responseTo ⟨7,.root,.A,.IN,false⟩ .NoError [toyRecord .root (.a 1)]

theorem hears_definitive_timeout :
    let reply := heldBy (secondHas fun _ => none)
    accepted reply (outgoing twoRoots reply .root .A .IN) (.v4 1)=none ∧
      accepted reply (outgoing twoRoots reply .root .A .IN) (.v4 2)=some addressOfRoot ∧
      HearsDefinitive twoRoots .IN reply [.v4 1,.v4 2] .root .A 64 := by
  intro reply
  have hf : accepted reply (outgoing twoRoots reply .root .A .IN) (.v4 1)=none := by decide
  have hse : accepted reply (outgoing twoRoots reply .root .A .IN) (.v4 2)=some addressOfRoot := by decide
  have hd : Definitive addressOfRoot := .inl ⟨rfl,.inl (cons_ne_nil _ _)⟩
  have ho : ∀ s∈[IpAddr.v4 1,.v4 2],∀ msg,accepted reply (outgoing twoRoots reply .root .A .IN) s=some msg →
    msg=addressOfRoot := by
    intro s hs msg hm
    rcases mem_pair.mp hs with rfl | rfl
    · cases hm
    · exact Option.some.inj (hm.symm.trans hse)
  refine ⟨hf,hse,(hears_definitive_iff twoRoots .IN reply [.v4 1,.v4 2] .root .A 64 (by decide) ?_ ?_).mpr ?_⟩
  · exact ⟨.v4 2,by decide,addressOfRoot,hse,hd⟩
  · intro s hs msg hm
    exact .inl (ho s hs msg hm ▸ hd)
  · intro s hs msg hm hl
    exact absurd hd (ho s hs msg hm ▸ hl).not_definitive

/-- A server that answers SERVFAIL decides the lookup though the next one has the address, and in a signed
zone the answer becomes bogus. -/
theorem servfail_is_outcome :
    let reply := heldBy (secondHas fun query => some (responseTo query .ServFail []))
    (accepted reply (outgoing twoRoots reply .root .A .IN) (.v4 2)).map (fun msg =>
      (msg.responseCode,msg.answers.length))=some (.NoError,1) ∧
      (eval reply (resolve twoRoots .root .A .IN)).toOption.map (fun res =>
        (res.rcode,res.answers.length,res.verdict)) =
        some (.ServFail,0,.insecure) ∧
      (eval reply (walk toyConfig .IN (fun _ _ seen => return (.answer .NoError [],seen)) .root .A [] 1
        [.v4 1,.v4 2] .root
        (some (.secure [toyKey [1]])) [] 64)).1.toOption.map (fun res => (res.1.rcode,res.1.verdict)) =
        some (.ServFail,.bogus (.negativeWithoutProof .ServFail .root .A .root)) := by
  decide

end RolodexDns.LameServers
