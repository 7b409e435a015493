import RolodexDns.HistoryContracts
import RolodexDns.QueryHandling
import RolodexDns.RecordDatabase

/-! What has been read by the time the server's own data decides about a query. Only two of its steps
ask for the peers of a TLD, and they end the decision; the providers of a blocklist are asked, and
the query goes on upstream, only after the TLD was found to have no owner and the client was found
to be one that names are resolved for. -/
namespace RolodexDns.LocalTraces
open DnsRecords ResponseReading ProgramTrees ProgramTraces HistoryContracts StoredRecords WireMessages
  ServerOperations List
open AuthoritativeAnswers LocalAnswers

abbrev LocalLog := List ((o : LocalOp) × LocalRes o)

variable (names : Text → Option RecordKind → Prop) (scopes : Text → Prop) (cfg : ServerConfig) (ask : Asked)
  (step : Option LocalStep)
  (log : LocalLog)

/-- What is read and noted down when records may come from these scopes and the cache is used under
these names and kinds: neither the providers of a blocklist nor the peers of a TLD come into it, and nothing is
kept that is not the server's own. -/
def Uses : LocalOp → Prop
  | .getTldForwarders _ _ | .isNameListed _ | .cacheInsert .. | .cacheInsertNegative .. => False
  | .lookupScoped scope _ _ | .getScopedManagedZones scope | .scopedNameOccupied scope _
  | .scopedWildcardOwnerFor scope _ | .closestScopedSoa scope _ => scopes scope
  | .cacheLookup name kind | .cacheLookupLocalOnly name kind | .cacheLookupNegative name kind
      | .cacheInsertLocal name kind _ =>
    names name kind
  | _ => True

abbrev workingOn : Contract LocalOp LocalRes :=
  ⟨Uses names scopes,fun _ _ => True⟩

/-- Whatever the scopes and the names. -/
abbrev Harmless : LocalOp → Prop := Uses (fun _ _ => True) fun _ => True

abbrev harmless : Contract LocalOp LocalRes := ⟨Harmless,fun _ _ => True⟩

def Within : Namespace → Prop
  | .global => True
  | .scope scope | .lanFallback scope => scopes scope

def Positive : Prop := ∀ s,step=some s → ∃ reply,s=.answer reply ∧ reply.rcode=.NoError

def Settles : Prop := ∀ s,step=some s → ∃ reply,s=.answer reply

theorem Positive.settles {step : Option LocalStep} (h : Positive step) : Settles step := by
  intro s hs
  obtain ⟨reply,hr,-⟩ := h s hs
  exact ⟨reply,hr⟩

@[simp] theorem positive_none : Positive none := nofun

@[simp] theorem positive_edns (answers : List Record) (authoritative : Bool) :
    Positive (some (.answer (.edns .NoError answers authoritative))) := by
  rintro s ⟨⟩
  exact ⟨_,rfl,rfl⟩

@[simp] theorem settles_none : Settles none := nofun

@[simp] theorem settles_answer (reply : Reply) : Settles (some (.answer reply)) := by
  rintro s ⟨⟩
  exact ⟨reply,rfl⟩

section
variable {ask : Asked} {names : Text → Option RecordKind → Prop} {scopes : Text → Prop} {scope : Text}

theorem sat_step {o : LocalOp} {α : Type} {f : LocalRes o → LocalProg α} {Q : α → Prop} (h : Uses names scopes o)
    (hf : ∀ r,(f r).Sat (workingOn names scopes) Q) : (LocalProg.perform o >>= f).Sat (workingOn names scopes) Q :=
  ⟨h,fun r _ => hf r⟩

theorem sat_pure_bind {α β : Type} {a : α} {f : α → LocalProg β} {Q : β → Prop}
    (h : (f a).Sat (workingOn names scopes) Q) :
    ((pure a : LocalProg α) >>= f).Sat (workingOn names scopes) Q := h

variable (cfg : ServerConfig) (lib : ServerLibrary) (authoritative : Bool) (qname : Text) (ctx : Option EdnsContext)
  {find : Text → LocalProg (List DnsRecord)} (kind : RecordKind) {ns : Namespace}

theorem answerSignatures_sat (qname : Text) (kind : RecordKind) :
    (answerSignatures lib ctx qname kind).Sat (workingOn names scopes) fun _ => True := by
  unfold answerSignatures
  repeat' first | trivial | split | refine sat_step trivial fun _ => ?_

theorem negativeSoa_sat (hns : Within scopes ns) :
    (negativeSoa lib qname ns).Sat (workingOn names scopes) fun _ => True := by
  cases ns with
  | global => exact sat_step trivial fun _ => trivial
  | scope scope => exact sat_step hns fun _ => trivial
  | lanFallback scope =>
    refine sat_step hns fun own => ?_
    split
    · trivial
    · exact sat_step trivial fun _ => trivial

theorem presenceOf_sat (hns : Within scopes ns) :
    (presenceOf qname ns).Sat (workingOn names scopes) fun _ => True := by
  have ho : (presenceOf.globalOccupied qname).Sat (workingOn names scopes) fun _ => True :=
    sat_step trivial fun _ => trivial
  have hw : (presenceOf.globalWildcard qname).Sat (workingOn names scopes) fun _ => True :=
    sat_step trivial fun _ => trivial
  cases ns with
  | global =>
    refine ho.bind fun occupied _ => ?_
    split
    · trivial
    · exact hw.bind fun _ _ => trivial
  | scope scope =>
    refine sat_step hns fun occupied => ?_
    split
    · trivial
    · exact sat_step hns fun _ => trivial
  | lanFallback scope =>
    refine sat_step hns fun own => ?_
    split
    · trivial
    · refine ho.bind fun occupied _ => ?_
      split
      · trivial
      · refine sat_step hns fun owner => ?_
        cases owner with
        | some owner => trivial
        | none => exact hw.bind fun _ _ => trivial

theorem closestEncloser_sat (apex : Text) (labels : List Text) :
    (closestEncloser lib apex labels).Sat (workingOn names scopes) fun _ => True := by
  induction labels with
  | nil => trivial
  | cons label parent ih =>
    cases parent with
    | nil => trivial
    | cons label parent =>
      unfold closestEncloser
      split
      · trivial
      · dsimp only
        split
        · trivial
        · refine sat_step trivial fun occupied => ?_
          split
          · trivial
          · exact ih
          · trivial

theorem proofOwners_sat (chain : List DnsRecord) (qname zone : Text) (presence : Presence) :
    (proofOwners lib chain qname zone presence).Sat (workingOn names scopes) fun _ => True := by
  cases presence with
  | real =>
    unfold proofOwners
    dsimp only
    split <;> trivial
  | wildcard owner => trivial
  | absent =>
    refine (closestEncloser_sat lib _ _).bind fun encloser _ => ?_
    dsimp only
    repeat' first | trivial | split

theorem proofRecords_sat (owners : List Text) :
    (proofRecords lib ctx owners).Sat (workingOn names scopes) fun _ => True := by
  induction owners with
  | nil => trivial
  | cons owner owners ih =>
    refine sat_step trivial fun nsec => ?_
    cases nsec with
    | none => trivial
    | some nsec =>
      refine (answerSignatures_sat lib ctx owner .NSEC).bind fun sigs _ => ?_
      split
      · trivial
      · refine ih.bind fun rest _ => ?_
        cases rest <;> trivial

theorem denialProof_sat (qname : Text) (presence : Presence) :
    (denialProof lib ctx qname presence).Sat (workingOn names scopes) fun _ => True := by
  unfold denialProof
  split
  · trivial
  · refine sat_step trivial fun zone => ?_
    cases zone with
    | none => trivial
    | some zone =>
      refine sat_step trivial fun stale => ?_
      split
      · trivial
      · refine sat_step trivial fun chain => ?_
        cases chain with
        | none => trivial
        | some chain =>
          refine (proofOwners_sat lib chain qname zone presence).bind fun owners _ => ?_
          cases owners with
          | none => trivial
          | some owners => exact (proofRecords_sat lib ctx _).bind fun _ _ => trivial

theorem authoritativeNegative_sat (hns : Within scopes ns) :
    (authoritativeNegative lib ask ns).Sat (workingOn names scopes) fun _ => True := by
  refine (presenceOf_sat ask.qname hns).bind fun presence _ => ?_
  refine (negativeSoa_sat lib ask.qname hns).bind fun soa _ => ?_
  cases ns with
  | global =>
    refine sat_step trivial fun apex => ?_
    cases apex with
    | none => trivial
    | some apex =>
      refine (answerSignatures_sat lib ask.ctx _ .SOA).bind fun sigs _ => ?_
      exact (denialProof_sat lib ask.ctx ask.qname presence).bind fun _ _ => trivial
  | scope | lanFallback => trivial

theorem localListsName_sat : (localListsName qname).Sat (workingOn names scopes) fun _ => True := by
  refine sat_step trivial fun listed => ?_
  split
  · trivial
  · dsimp only
    split
    · trivial
    · exact ⟨trivial,fun _ _ => trivial⟩

theorem blocklistExempt_sat (ip : Option IpAddr) :
    (blocklistExempt lib qname ip).Sat (workingOn names scopes) fun _ => True := by
  refine sat_step trivial fun listed => ?_
  split
  · trivial
  · cases ip with
    | none => trivial
    | some ip => exact ⟨trivial,fun _ _ => trivial⟩

theorem ipBlocked_sat (ip : IpAddr) : (ipBlocked lib qname ip).Sat (workingOn names scopes) fun _ => True := by
  refine (blocklistExempt_sat lib qname (some ip)).bind fun exempt _ => ?_
  split
  · trivial
  · refine sat_step trivial fun listed => ?_
    split
    · trivial
    · exact localListsName_sat qname

theorem reverseBlocklist_sat : (reverseBlocklist lib ask authoritative).Sat (workingOn names scopes) Settles := by
  unfold reverseBlocklist
  split
  · exact settles_none
  · refine (ipBlocked_sat lib ask.qname _).bind fun blocked _ => ?_
    split
    · exact settles_answer _
    · exact settles_none

theorem ingressTarget_sat : (ingressTarget ask).Sat (workingOn names scopes) fun _ => True := by
  unfold ingressTarget
  repeat' first | trivial | split | refine sat_step trivial fun _ => ?_

theorem scopeOf_sat : (scopeOf cfg ask).Sat (workingOn names scopes) fun _ => True := by
  repeat' first | trivial | split | refine sat_step trivial fun _ => ?_ | refine sat_pure_bind ?_

theorem dnameAbove_sat (hf : ∀ name,(find name).Sat (workingOn names scopes) fun _ => True)
    (normalized : Text) (before labels : List Text) :
    (dnameAbove lib find normalized before labels).Sat (workingOn names scopes) fun found => ∀ reply,found=some reply →
      reply.rcode=.NoError := by
  induction labels generalizing before with
  | nil => exact nofun
  | cons label rest ih =>
    refine (hf _).bind fun records _ => ?_
    cases records with
    | nil => exact ih _
    | cons dname _ =>
      rintro reply ⟨⟩
      rfl

theorem checkDname_sat (hfi : ∀ name,(find name).Sat (workingOn names scopes) fun _ => True)
    (qname : Text) : (checkDname lib find qname).Sat (workingOn names scopes) Positive := by
  unfold checkDname
  dsimp only
  split
  · exact positive_none
  · refine (dnameAbove_sat lib hfi _ _ _).bind fun found hf => ?_
    rintro s hs
    obtain ⟨reply,rfl,rfl⟩ := Option.map_eq_some_iff.mp hs
    exact ⟨reply,rfl,hf reply rfl⟩

theorem checkDnameGlobal_sat : (checkDnameGlobal lib qname).Sat (workingOn names scopes) Positive := by
  refine checkDname_sat lib (fun name => ?_) qname
  exact sat_step trivial fun _ => trivial

theorem checkDnameScoped_sat (hs : scopes scope) (qname : Text) :
    (checkDnameScoped lib scope qname).Sat (workingOn names scopes) Positive :=
  checkDname_sat lib (fun _ => Prog.sat_perform_iff.mpr ⟨hs,fun _ _ => trivial⟩) qname

theorem scopedOfKind_sat {scope : Text} (hs : scopes scope) (overrideIp : Option IpAddr) {kind : RecordKind}
    (hn : names (scopedCacheName ask scope) (some kind)) :
    (scopedOfKind cfg ask scope overrideIp kind).Sat (workingOn names scopes) Positive := by
  unfold scopedOfKind
  dsimp only
  repeat' first
    | exact positive_none
    | exact positive_edns _ _
    | split
    | refine sat_step hs fun _ => ?_
    | refine sat_step hn fun _ => ?_
    | refine sat_step trivial fun _ => ?_

theorem scopedCname_sat (hs : scopes scope) :
    (scopedCname cfg ask scope).Sat (workingOn names scopes) Positive := by
  refine sat_step hs fun records => ?_
  split
  · exact positive_none
  · exact positive_edns _ _

theorem lanRecords_sat (overrideIp : Option IpAddr) (hs : scopes scope) :
    (lanRecords cfg ask overrideIp scope).Sat (workingOn names scopes) Positive := by
  unfold lanRecords
  split
  · exact positive_none
  · refine sat_step hs fun records => ?_
    split
    · exact positive_edns _ _
    · exact scopedCname_sat cfg hs

theorem scopedZone_sat (hs : scopes scope) (zones : List Text) :
    (scopedZone cfg ask scope zones).Sat (workingOn names scopes) Settles := by
  have hns : Within scopes (.scope scope) := hs
  induction zones with
  | nil => exact settles_none
  | cons zone zones ih =>
    unfold scopedZone
    split
    · refine sat_step hs fun records => ?_
      split
      · exact ih
      · exact (authoritativeNegative_sat cfg.lib hns).bind fun _ _ => settles_answer _
    · exact ih

theorem scopedZones_sat (hs : scopes scope) :
    (scopedZones cfg ask scope).Sat (workingOn names scopes) Settles :=
  sat_step hs fun _ => scopedZone_sat cfg hs _

theorem signedAnswer_sat (records : List DnsRecord) :
    (signedAnswer cfg ask authoritative kind records).Sat (workingOn names scopes) Positive :=
  (answerSignatures_sat cfg.lib ask.ctx ask.qname kind).bind fun _ _ => positive_edns _ _

theorem firstSome_sat {Q : Option LocalStep → Prop} (hn : Q none) {steps : List LocalDecision}
    (h : ∀ step∈steps,step.Sat (workingOn names scopes) Q) : (firstSome steps).Sat (workingOn names scopes) Q := by
  induction steps with
  | nil => exact hn
  | cons step steps ih =>
    obtain ⟨hst,hs⟩ := forall_mem_cons.mp h
    refine hst.bind fun found hf => ?_
    cases found with
    | some a => exact hf
    | none => exact ih hs

theorem ofAname_sat (aname : List DnsRecord) :
    (globalOfKind.ofAname cfg ask authoritative kind aname).Sat (workingOn names scopes) Positive := by
  cases aname with
  | nil => exact positive_none
  | cons aname _ =>
    unfold globalOfKind.ofAname
    dsimp only
    split
    · refine sat_step trivial fun targets => ?_
      split
      · exact positive_none
      · exact positive_edns _ _
    · exact positive_none

theorem aliases_sat (result : LookupResult) :
    (firstSome [globalOfKind.ofAname cfg ask authoritative kind result.aname,
      if result.cname.isEmpty then pure none else signedAnswer cfg ask authoritative .CNAME result.cname]).Sat
        (workingOn names scopes) Positive := by
  refine firstSome_sat positive_none (forall_mem_cons.mpr ⟨ofAname_sat cfg authoritative kind _,?_⟩)
  refine forall_mem_singleton.mpr ?_
  split
  · exact positive_none
  · exact signedAnswer_sat cfg authoritative _ _

theorem globalOfKind_sat {kind : RecordKind} (hn : names ask.qname (some kind)) :
    (globalOfKind cfg ask authoritative kind).Sat (workingOn names scopes) Positive := by
  unfold globalOfKind
  dsimp only
  repeat' first
    | exact positive_none
    | exact signedAnswer_sat cfg authoritative _ _
    | exact aliases_sat cfg authoritative _ _
    | split
    | refine sat_step hn fun _ => ?_
    | refine sat_step trivial fun _ => ?_

theorem globalRecords_sat (hn : ∀ kind,ask.recordKind=some kind → names ask.qname (some kind)) :
    (globalRecords cfg ask).Sat (workingOn names scopes) Positive := by
  refine sat_step trivial fun authoritative => ?_
  split
  · exact globalOfKind_sat cfg authoritative (hn _ ‹_›)
  · refine sat_step trivial fun records => ?_
    split
    · exact positive_none
    · exact signedAnswer_sat cfg authoritative _ _

theorem ownZone_sat {find : LocalOp} (hf : Uses names scopes find) (zone : LocalRes find → Bool) :
    (ownZone cfg ask find zone).Sat (workingOn names scopes) Settles := by
  have hns : Within scopes .global := trivial
  refine sat_step hf fun found => ?_
  split
  · exact (authoritativeNegative_sat cfg.lib hns).bind fun _ _ => settles_answer _
  · exact settles_none

theorem managedZone_sat : (managedZone cfg ask).Sat (workingOn names scopes) Settles := by
  apply ownZone_sat
  trivial

theorem authoritativeZone_sat : (authoritativeZone cfg ask).Sat (workingOn names scopes) Settles := by
  apply ownZone_sat
  trivial

theorem cachedAnswer_sat (hn : names ask.qname ask.recordKind) :
    (cachedAnswer cfg ask).Sat (workingOn names scopes) Settles := by
  unfold cachedAnswer
  split
  · exact settles_none
  · refine sat_step hn fun cached => ?_
    split
    · exact settles_answer _
    · refine sat_step hn fun negative => ?_
      match negative with
      | some .nxDomain | some .noData => exact settles_answer _
      | none => exact settles_none

end

/-- The steps before those that every client's query comes to. -/
def firstSteps (overrideIp : Option IpAddr) : Option Text → List LocalDecision
  | none => [reverseBlocklist cfg.lib ask false,globalRecords cfg ask,lanFallback cfg ask overrideIp]
  | some scope => [scopedAnswer cfg ask scope overrideIp,globalRecords cfg ask]

theorem eval_localAnswer {cfg : ServerConfig} {ask : Asked} {reply : (o : LocalOp) → LocalRes o}
    {overrideIp : Option IpAddr}
    {client : Option Text} (ho : (eval reply (ingressTarget ask)).map Prod.snd=overrideIp)
    (hc : eval reply (scopeOf cfg ask)=.ok client) :
    eval reply (localAnswer cfg ask) =
      (firstSteps cfg ask overrideIp client++localAnswer.rest cfg ask).findSome? (eval reply) := by
  subst ho
  unfold localAnswer
  rw [eval_bind,eval_bind,hc]
  cases client with
  | none | some scope => exact RecordDatabase.eval_firstSome _

def peersRead : ((o : LocalOp) × LocalRes o) → Option (List SocketAddr)
  | ⟨.getTldForwarders _ _,peers⟩ => some peers
  | _ => none

/-- The name's TLD has no owner and is not `arpa.`, and the client is one that names are resolved for. -/
def MayLeave : Prop :=
  ⟨.findTldOwner ask.qname,none⟩∈log ∧ ask.sourceIp.all cfg.mayRecurse=true ∧
    isArpaSubtree ask.question.name=false

/-- What was read for the decision. -/
def Decided : Option LocalStep → Prop
  | none => log.filterMap peersRead=[] ∧ MayLeave cfg ask log
  | some (.answer _) => log.filterMap peersRead=[]
  | some (.askPeers peers _) => log.filterMap peersRead=[peers] ∧
      ∃ owner tld,⟨.findTldOwner ask.qname,some (owner,tld)⟩∈log ∧ ⟨.getTldForwarders owner tld,peers⟩∈log

/-- Providers are asked about names that may leave, and nothing is kept of what came from upstream. -/
def gates : Discipline Unit LocalOp LocalRes where
  allows
    | past, .isNameListed _ => MayLeave cfg ask past
    | _, .cacheInsert .. | _, .cacheInsertNegative .. => False
    | _, _ => True
  promises _ _ := True
  inv _ _ := True

section
variable {cfg : ServerConfig} {ask : Asked} {past : LocalLog} {J : LocalLog → Prop}

theorem gates_allows {o : LocalOp} (h : Harmless o) (now : LocalLog) : (gates cfg ask).allows now o := by
  cases o <;> trivial

theorem filterMap_peersRead {new : LocalLog} (h : ∀ e∈new,Harmless e.1) : new.filterMap peersRead=[] := by
  refine filterMap_eq_nil_iff.mpr fun e he => ?_
  obtain ⟨o,r⟩ := e
  cases o <;> first | rfl | cases h _ he

theorem noPeers_concat (hpast : past.filterMap peersRead=[]) {e : (o : LocalOp) × LocalRes o} (he : peersRead e=none) :
    (past++[e]).filterMap peersRead=[] := by
  simp [hpast,he]

theorem keeps_harmless {α : Type} {p : LocalProg α} {P : α → Prop} (hp : p.Sat harmless P)
    (hpast : past.filterMap peersRead=[]) :
    Keeps (gates cfg ask) past p fun now a => now.filterMap peersRead=[] ∧ P a := by
  refine (keeps_of_sat hp (fun now o ho => gates_allows ho now) fun _ _ _ => trivial).mono fun now a _ h => ?_
  obtain ⟨⟨new,rfl,hn⟩,ha⟩ := h
  rw [filterMap_append,hpast,filterMap_peersRead hn]
  exact ⟨rfl,ha⟩

def Unowned (ask : Asked) (log : LocalLog) : Prop := ⟨.findTldOwner ask.qname,none⟩∈log

/-- A step decides, or nothing but `J` is known after it. -/
def Tries (cfg : ServerConfig) (ask : Asked) (J : LocalLog → Prop) (now : LocalLog) (found : Option LocalStep) : Prop :=
  found.elim (now.filterMap peersRead=[] ∧ J now) fun s => Decided cfg ask now (some s)

theorem keeps_firstSome {R : LocalLog → Option LocalStep → Prop} {step : LocalDecision}
    {steps : List LocalDecision} (hst : Keeps (gates cfg ask) past step (Tries cfg ask J))
    (hs : ∀ now,past⊆now → now.filterMap peersRead=[] → J now → Keeps (gates cfg ask) now (firstSome steps) R)
    (hR : ∀ now s,Decided cfg ask now (some s) → R now (some s) := by exact fun _ _ h => h) :
    Keeps (gates cfg ask) past (firstSome (step::steps)) R := by
  refine hst.bind fun now found hsu hf => ?_
  cases found with
  | some s => exact hR now s hf
  | none => exact hs now hsu hf.1 hf.2

/-- What is known before a step that answers or does nothing is known after it. -/
theorem keeps_settles {step : LocalDecision} (hs : step.Sat harmless Settles)
    (hpast : past.filterMap peersRead=[]) (hJ : ∀ now,past⊆now → J now) :
    Keeps (gates cfg ask) past step (Tries cfg ask J) := by
  refine (keeps_harmless hs hpast).mono fun now found hsu h => ?_
  cases found with
  | none => exact ⟨h.1,hJ now hsu⟩
  | some s =>
    obtain ⟨reply,rfl⟩ := h.2 s rfl
    exact h.1

theorem sat_settles {p : LocalDecision} (h : p.Sat harmless Positive) : p.Sat harmless Settles :=
  h.mono fun _ => Positive.settles

variable (hpast : past.filterMap peersRead=[]) {log : LocalLog} {step : Option LocalStep} {scope : Text}
  {overrideIp : Option IpAddr}
include hpast

theorem askPeers_keeps {owner tld : Text} {ns : Namespace} (ho : ⟨.findTldOwner ask.qname,some (owner,tld)⟩∈past) :
    Keeps (gates cfg ask) past
      ((do
        let peers ← LocalProg.perform (.getTldForwarders owner tld)
        return some (.askPeers peers ns)) : LocalDecision) (Tries cfg ask J) := by
  refine ⟨trivial,fun peers _ => ⟨?_,owner,tld,mem_append_left _ ho,mem_concat_self⟩⟩
  rw [filterMap_append,hpast]
  rfl

theorem scopedTld_keeps :
    Keeps (gates cfg ask) past (scopedTld ask scope) (Tries cfg ask (Unowned ask)) := by
  refine ⟨trivial,fun found _ => ?_⟩
  have hr := noPeers_concat hpast (e := ⟨.findTldOwner ask.qname,found⟩) rfl
  match found with
  | none => exact ⟨hr,mem_concat_self⟩
  | some (owner,tld) =>
    change Keeps _ _ (if owner=scope then _ else _) _
    split_ifs with heq
    · subst heq
      exact askPeers_keeps hr mem_concat_self
    · exact hr

theorem lanFallback_keeps :
    Keeps (gates cfg ask) past (lanFallback cfg ask overrideIp) (Tries cfg ask (Unowned ask)) := by
  refine ⟨trivial,fun found _ => ?_⟩
  have hr := noPeers_concat hpast (e := ⟨.findTldOwner ask.qname,found⟩) rfl
  match found with
  | none => exact ⟨hr,mem_concat_self⟩
  | some (owner,tld) =>
    generalize hn : past++[(⟨.findTldOwner ask.qname,some (owner,tld)⟩ : (o : LocalOp) × LocalRes o)]=now at hr
    have ho : ⟨.findTldOwner ask.qname,some (owner,tld)⟩∈now := hn ▸ mem_concat_self
    refine (keeps_harmless (lanRecords_sat cfg overrideIp trivial) hr).bind fun now found hs h => ?_
    cases found with
    | none => exact askPeers_keeps h.1 (hs ho)
    | some s =>
      obtain ⟨reply,rfl,-⟩ := h.2 s rfl
      exact h.1

theorem scopedAnswer_keeps :
    Keeps (gates cfg ask) past (scopedAnswer cfg ask scope overrideIp) (Tries cfg ask (Unowned ask)) := by
  refine keeps_firstSome (keeps_settles (reverseBlocklist_sat _ _) hpast fun _ _ => trivial)
    fun now _ hn (_ : True) => ?_
  refine keeps_firstSome (keeps_settles (sat_settles ?_) hn fun _ _ => trivial) fun now _ hn (_ : True) => ?_
  · cases ask.recordKind with
    | some kind => exact scopedOfKind_sat cfg trivial overrideIp trivial
    | none => exact positive_none
  refine keeps_firstSome (keeps_settles (sat_settles (scopedCname_sat cfg trivial)) hn fun _ _ => trivial)
    fun now _ hn (_ : True) => ?_
  refine keeps_firstSome (keeps_settles (sat_settles (checkDnameScoped_sat _ trivial ask.qname)) hn
    fun _ _ => trivial) fun now _ hn (_ : True) => ?_
  refine keeps_firstSome (scopedTld_keeps hn) fun now _ hn hu => ?_
  refine keeps_firstSome (keeps_settles (scopedZones_sat cfg trivial) hn fun _ hs => hs hu) fun now _ hn hu => ?_
  exact ⟨hn,hu⟩

/-- Where the providers may be asked, the list decides or nothing changes. -/
theorem domainBlocklist_keeps (hl : MayLeave cfg ask past) :
    Keeps (gates cfg ask) past (domainBlocklist cfg.lib ask) (Tries cfg ask (MayLeave cfg ask)) := by
  have hst {now : LocalLog} (hs : past⊆now) : MayLeave cfg ask now := ⟨hs hl.1,hl.2⟩
  unfold domainBlocklist
  split
  · exact ⟨hpast,hl⟩
  · refine (keeps_harmless (blocklistExempt_sat cfg.lib ask.qname none) hpast).bind fun now exempt hs h => ?_
    split
    · exact ⟨h.1,hst hs⟩
    · refine (keeps_harmless (localListsName_sat ask.qname) h.1).bind fun now byLocal hs' h => ?_
      have hs := List.Subset.trans hs hs'
      split
      · exact h.1
      · refine ⟨hst hs,fun listed _ => ?_⟩
        have hr := noPeers_concat h.1 (e := ⟨.isNameListed ask.qname,listed⟩) rfl
        change Keeps _ _ (if listed=true then _ else _) _
        split
        · exact hr
        · exact ⟨hr,hst (List.Subset.trans hs (subset_append_left _ _))⟩

theorem recursionGate_keeps (hu : Unowned ask past) :
    Keeps (gates cfg ask) past (recursionGate cfg ask) (Tries cfg ask (MayLeave cfg ask)) := by
  unfold recursionGate
  split_ifs with hs ha
  · exact hpast
  · exact hpast
  · refine ⟨hpast,hu,?_,Bool.eq_false_iff.mpr ha⟩
    cases hip : ask.sourceIp with
    | none => rfl
    | some ip => simpa [hip] using hs

theorem rest_keeps (hu : Unowned ask past) :
    Keeps (gates cfg ask) past (firstSome (localAnswer.rest cfg ask)) (Decided cfg ask) := by
  have hs {now later : LocalLog} (h : Unowned ask now) (hsu : now⊆later) : Unowned ask later := hsu h
  refine keeps_firstSome (keeps_settles (sat_settles (checkDnameGlobal_sat _ ask.qname)) hpast fun _ => hs hu)
    fun now _ hn hu => ?_
  refine keeps_firstSome (keeps_settles (managedZone_sat cfg) hn fun _ => hs hu) fun now _ hn hu => ?_
  refine keeps_firstSome (keeps_settles (authoritativeZone_sat cfg) hn fun _ => hs hu) fun now _ hn hu => ?_
  refine keeps_firstSome (recursionGate_keeps hn hu) fun now _ hn hl => ?_
  refine keeps_firstSome (domainBlocklist_keeps hn hl) fun now _ hn hl => ?_
  refine keeps_firstSome (J := MayLeave cfg ask) (keeps_settles (cachedAnswer_sat cfg trivial) hn fun _ hsu =>
    ?_) fun now _ hn hl => ?_
  · exact ⟨hsu hl.1,hl.2⟩
  exact ⟨hn,hl⟩

omit hpast

theorem localAnswer_keeps : Keeps (gates cfg ask) [] (localAnswer cfg ask) (Decided cfg ask) := by
  refine (keeps_harmless ingressTarget_sat rfl).bind fun now ingress _ h => ?_
  refine (keeps_harmless (scopeOf_sat cfg) h.1).bind fun now scope _ h => ?_
  match scope with
  | .error reply => exact h.1
  | .ok none =>
    refine keeps_firstSome (keeps_settles (reverseBlocklist_sat _ _) h.1 fun _ _ => trivial)
      fun now _ hn (_ : True) => ?_
    refine keeps_firstSome (keeps_settles (sat_settles (globalRecords_sat cfg fun _ _ => trivial)) hn
      fun _ _ => trivial) fun now _ hn (_ : True) => ?_
    exact keeps_firstSome (lanFallback_keeps hn) fun now _ => rest_keeps
  | .ok (some scope) =>
    refine keeps_firstSome (scopedAnswer_keeps h.1) fun now _ hn hu => ?_
    refine keeps_firstSome (keeps_settles (sat_settles (globalRecords_sat cfg fun _ _ => trivial)) hn fun _ hs => hs hu)
      fun now _ hn hu => ?_
    exact rest_keeps hn hu

/-- What a trace of the server's own data says about the decision it ends in. -/
theorem localAnswer_decided (h : Yields (localAnswer cfg ask) log step) :
    Decided cfg ask log step ∧ ∀ name listed,⟨.isNameListed name,listed⟩∈log → MayLeave cfg ask log := by
  obtain ⟨ha,hd⟩ := localAnswer_keeps.of_yields h fun _ _ => trivial
  refine ⟨hd,fun name listed hm => ?_⟩
  obtain ⟨before,after,rfl⟩ := append_of_mem hm
  have hl : MayLeave cfg ask before := ha before _ after rfl
  exact ⟨mem_append_left _ hl.1,hl.2⟩

/-- The operation keeps nothing that came from upstream. -/
def KeepsOwn : LocalOp → Prop
  | .cacheInsert .. | .cacheInsertNegative .. => False
  | _ => True

theorem localAnswer_keepsOwn (h : Yields (localAnswer cfg ask) log step) :
    ∀ e∈log,KeepsOwn e.1 := by
  obtain ⟨hal,-⟩ := localAnswer_keeps.of_yields h fun _ _ => trivial
  intro e he
  obtain ⟨before,after,rfl⟩ := append_of_mem he
  have ha := hal before e after rfl
  obtain ⟨o,r⟩ := e
  cases o with
  | cacheInsert | cacheInsertNegative => exact ha
  | _ => trivial

end

section
variable {cfg : ServerConfig} {ask : Asked} {log : ServerLog} {response : Bytes}
open UpstreamResolution QueryHandling

def heldLog (log : LocalLog) : ServerLog := log.map fun e => ⟨.held e.1,e.2⟩

theorem mem_heldLog {log : LocalLog} {o : LocalOp} {r : LocalRes o} : ⟨.held o,r⟩∈heldLog log ↔ ⟨o,r⟩∈log := by
  constructor
  · intro h
    obtain ⟨e,he,heq⟩ := mem_map.mp h
    cases heq
    exact he
  · exact fun h => mem_map.mpr ⟨_,h,rfl⟩

theorem held_inv {α : Type} {p : LocalProg α} {a : α} (h : Yields (ServerProg.held p) log a) :
    ∃ own,log=heldLog own ∧ Yields p own a := by
  obtain ⟨raw,hl,hr⟩ := Yields.lift_inv h
  exact ⟨raw.map fun e => ⟨e.1,e.2⟩,by rw [hl,heldLog,map_map]; rfl,hr⟩

/-- A reply of the TLD's peers, or the server's own denial. -/
def peersThenDenial (cfg : ServerConfig) (ask : Asked) (peers : List SocketAddr) (ns : Namespace) :
    ServerProg Bytes := do
  match ← forwardToTldPeers cfg ask.queryData peers with
  | some response => return response
  | none => return (← ServerProg.held (authoritativeNegative cfg.lib ask ns)).bytes cfg.lib ask

theorem answerAsked_inv (h : Yields (answerAsked cfg ask) log response) :
    ∃ own step rest,log=heldLog own++rest ∧ Yields (localAnswer cfg ask) own step ∧
      match step with
      | some (.answer reply) => rest=[] ∧ response=reply.bytes cfg.lib ask
      | some (.askPeers peers ns) => Yields (peersThenDenial cfg ask peers ns) rest response
      | none => Yields (answerUpstream cfg ask) rest response := by
  obtain ⟨step,first,rest,hf,hr,rfl⟩ := h.bind_inv
  obtain ⟨own,rfl,ho⟩ := held_inv hf
  refine ⟨own,step,rest,rfl,ho,?_⟩
  match step with
  | none => exact hr
  | some (.answer reply) => exact hr.pure_inv
  | some (.askPeers peers ns) => exact hr

theorem handleQueryProto_inv {queryData : Bytes} {sourceIp localIp : Option IpAddr} {proto : Proto} {bytes : Bytes}
    (h : Yields (handleQueryProto cfg queryData sourceIp localIp proto) log bytes) :
    (log=[] ∧ ∃ response,readQuery cfg queryData (sourceIp.map toCanonical) (localIp.map toCanonical)=.error response ∧
        bytes=sendable cfg proto queryData response) ∨
      ∃ ask response,readQuery cfg queryData (sourceIp.map toCanonical) (localIp.map toCanonical)=.ok ask ∧
        Yields (answerAsked cfg ask) log response ∧ bytes=sendable cfg proto queryData response := by
  obtain ⟨response,first,rest,hf,hre,rfl⟩ := h.bind_inv
  cases hre
  rw [append_nil]
  unfold resolveQuery at hf
  split at hf
  · rename_i hr
    cases hf
    exact .inl ⟨rfl,_,hr,rfl⟩
  · rename_i ask hr
    exact .inr ⟨ask,response,hr,hf,rfl⟩

end

end RolodexDns.LocalTraces
