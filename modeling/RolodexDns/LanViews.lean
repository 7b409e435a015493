import RolodexDns.DnameSubstitution
import RolodexDns.NameExistence

/-! The two ladders under an owned TLD. A member of the owning scope and a local client outside every scope
are shown the scope's records by two branches of their own; the local client's tries the global records
first and has no ANAMEs, no DNAMEs and no CNAMEs for types that cannot be stored. -/
namespace RolodexDns.LanViews
open DnsRecords ProgramTraces StoredRecords WireMessages ServerOperations AuthoritativeAnswers LocalAnswers
  UpstreamResolution
open QueryHandling RecordDatabase WildcardSynthesis LocalTraces ExistenceChecks NameExistence
  DnameSubstitution AuthenticData

section
variable (cfg : ServerConfig) (db : Database) (owner : Text) (ask : Asked) (kind : RecordKind)

def served (records : List DnsRecord) : List Record := records.filterMap cfg.lib.dbRecordToDnsRecord

def own : List DnsRecord := lookupScoped cfg.lower db.scopedCache owner ask.qname (some kind)

def aliased : List DnsRecord :=
  anameTargets (bare cfg.lower db) owner (own cfg db owner ask .ANAME) kind

def rewritten : Option (List Record) :=
  (properAncestors (normalizeName cfg.lower ask.qname)).findSome? fun a =>
    (dnamesAt cfg.lower (scopeView db.scopedCache owner) a.2).head?.map fun dname =>
      (dnameReply cfg.lib (normalizeName cfg.lower ask.qname) a.1 dname).answers

/-- What the scope has for the question: its records, those of an ANAME's target, a CNAME, or what a DNAME
makes of the name. -/
def inScope : Option (List Record) :=
  (ask.recordKind.bind fun kind =>
      if own cfg db owner ask kind≠[] then some (served cfg (own cfg db owner ask kind))
      else if aliased cfg db owner ask kind≠[] then
        some (renameTo cfg.lib ask.qname (served cfg (aliased cfg db owner ask kind)))
      else none).or
    ((if own cfg db owner ask .CNAME≠[] then some (served cfg (own cfg db owner ask .CNAME)) else none).or
      (rewritten cfg db owner ask))

def globally : List DnsRecord := lookup cfg.lower db.rows ask.qname (some (globalKind ask.recordKind))

def signatures : List Record :=
  eval (bare cfg.lower db) (answerSignatures cfg.lib ask.ctx ask.qname (globalKind ask.recordKind))

/-- What a local client is shown of the scope. -/
def onLan : Option (List Record) :=
  ask.recordKind.bind fun kind =>
    if own cfg db owner ask kind≠[] then some (served cfg (own cfg db owner ask kind))
    else if own cfg db owner ask .CNAME≠[] then some (served cfg (own cfg db owner ask .CNAME))
    else none

/-- The response code and the answers: what is found, or a denial. -/
def shown (found : Option (List Record)) (known : Bool) : ResponseCode × List Record :=
  match found with
  | some answers => (.NoError,answers)
  | none => (if known then .NoError else .NXDomain,[])

def decided : Option Reply :=
  match eval (bare cfg.lower db) (localAnswer cfg ask) with
  | some (.answer reply) => some reply
  | some (.askPeers [] ns) => some (eval (bare cfg.lower db) (authoritativeNegative cfg.lib ask ns))
  | _ => none

/-- There is no global record at the name, above it or below it. -/
def GloballyAbsent : Prop :=
  ∀ r∈db.rows,r.name≠normalizeName cfg.lower ask.qname ∧
    ¬ '.' :: r.name <:+ normalizeName cfg.lower ask.qname ∧ ¬ '.' :: normalizeName cfg.lower ask.qname <:+ r.name

end

section
variable {cfg : ServerConfig} {db : Database} {owner tld : Text} {ask : Asked} {found : Option (List Record)}
  {step : Option LocalStep}

theorem eval_answerAsked {net : Option Bytes} {reply : Reply} (h : decided cfg db ask=some reply) :
    eval (repliesBy (cold cfg db) net) (answerAsked cfg ask)=reply.bytes cfg.lib ask := by
  have hh {α : Type} (p : LocalProg α) :
      eval (repliesBy (cold cfg db) net) (ServerProg.held p)=eval (cold cfg db) p := eval_lift _ p
  unfold decided at h
  rw [answerAsked,eval_bind,hh]
  split at h
  · rename_i reply' hl
    cases h
    rw [hl]
    rfl
  · rename_i ns hl
    cases h
    rw [hl]
    change eval _ (ServerProg.held (authoritativeNegative cfg.lib ask ns) >>= _)=_
    rw [eval_bind,hh]
    rfl
  · cases h

theorem lookupExact_at (h : GloballyAbsent cfg db ask) (kind : Option RecordKind) :
    lookupExact db.rows (normalizeName cfg.lower ask.qname) kind=[] := by
  refine List.filter_eq_nil_iff.mpr fun r hr => ?_
  simp [(h r hr).1]

theorem nameOccupied_absent (h : GloballyAbsent cfg db ask) : nameOccupied cfg.lower db.rows ask.qname=false := by
  refine List.any_eq_false.mpr fun r hr => ?_
  obtain ⟨hat,-,hb⟩ := h r hr
  simp [hat,hb]

/-- Without a record at the name, what is found globally is a wildcard's. -/
theorem wildcard_eq (h : GloballyAbsent cfg db ask) (kind : RecordKind) :
    (lookupWithFallbacks cfg.lower db.rows ask.qname kind).wildcard=lookup cfg.lower db.rows ask.qname (some kind) := by
  unfold lookupWithFallbacks lookup orWildcard
  dsimp only
  rw [lookupExact_at h]
  cases makeWildcardName (normalizeName cfg.lower ask.qname) with
  | some wildcard => rfl
  | none =>
    have he : lookupExact db.rows [] (some kind)=[] := by
      refine List.filter_eq_nil_iff.mpr fun r hr => ?_
      have hn : r.name≠[] := by
        intro hni
        have hl := db.normalized r hr
        rw [hni] at hl
        cases hl
      simp [hn]
    simp [he,renamed]

theorem eval_globalRecords (h : GloballyAbsent cfg db ask) :
    ∃ authoritative,eval (cold cfg db) (globalRecords cfg ask) =
    if globally cfg db ask≠[] then
      some (.answer (.edns .NoError (served cfg (globally cfg db ask)++signatures cfg db ask) authoritative))
    else none := by
  refine ⟨cold cfg db (.isAuthoritativeZone ask.qname),?_⟩
  unfold globally signatures
  rw [globalRecords,eval_read]
  cases hk : ask.recordKind with
  | none =>
    rw [eval_globalAlias,eval_signedAnswer]
    rfl
  | some kind =>
    have hr : cold cfg db (.lookupWithFallbacks ask.qname kind) =
        some ⟨[],lookup cfg.lower db.rows ask.qname (some kind),[],[]⟩ := by
      have hp : lookupWithFallbacks cfg.lower db.rows ask.qname kind =
          ⟨lookupExact db.rows (normalizeName cfg.lower ask.qname) (some kind),
            (lookupWithFallbacks cfg.lower db.rows ask.qname kind).wildcard,
            lookupExact db.rows (normalizeName cfg.lower ask.qname) (some .CNAME),
            lookupExact db.rows (normalizeName cfg.lower ask.qname) (some .ANAME)⟩ := rfl
      rw [lookupExact_at h,lookupExact_at h,lookupExact_at h,wildcard_eq h] at hp
      exact congrArg some hp
    rw [eval_globalOfKind (fun _ => rfl) hr rfl,eval_signedAnswer]
    rfl

/-- The step answers with what is found, or not at all. -/
def Gives (step : Option LocalStep) (found : Option (List Record)) : Prop :=
  (step=none ∧ found=none) ∨ ∃ reply,step=some (.answer reply) ∧ reply.rcode=.NoError ∧ found=some reply.answers

theorem gives_none : Gives none none := .inl ⟨rfl,rfl⟩

theorem Gives.or {step' : Option LocalStep} {found' : Option (List Record)} (h : Gives step found)
    (h' : Gives step' found') :
    Gives (step.or step') (found.or found') := by
  rcases h with ⟨rfl,rfl⟩ | ⟨reply,rfl,hc,rfl⟩
  · exact h'
  · exact .inr ⟨reply,rfl,hc,rfl⟩

theorem gives_ite {c : Prop} [Decidable c] {answers : List Record} {authoritative : Bool}
    (h : Gives step found) :
    Gives (if c then some (.answer (.edns .NoError answers authoritative)) else step)
      (if c then some answers else found) := by
  split
  · exact .inr ⟨_,rfl,rfl,rfl⟩
  · exact h

theorem gives_scopedCname : Gives (eval (cold cfg db) (scopedCname cfg ask owner))
    (if own cfg db owner ask .CNAME≠[] then some (served cfg (own cfg db owner ask .CNAME)) else none) := by
  rw [eval_scopedCname]
  exact gives_ite gives_none

theorem gives_scopedOfKind : Gives
    (eval (cold cfg db) (match ask.recordKind with
      | some kind => scopedOfKind cfg ask owner none kind
      | none => pure none))
    (ask.recordKind.bind fun kind =>
      if own cfg db owner ask kind≠[] then some (served cfg (own cfg db owner ask kind))
      else if aliased cfg db owner ask kind≠[] then
        some (renameTo cfg.lib ask.qname (served cfg (aliased cfg db owner ask kind)))
      else none) := by
  cases ask.recordKind with
  | none => exact gives_none
  | some kind =>
    rw [eval_scopedOfKind fun _ => rfl,Option.bind_some]
    exact gives_ite (gives_ite gives_none)

theorem gives_checkDnameScoped :
    Gives (eval (cold cfg db) (checkDnameScoped cfg.lib owner ask.qname)) (rewritten cfg db owner ask) := by
  have hs : eval (cold cfg db) (checkDnameScoped cfg.lib owner ask.qname)=_ := eval_checkDname _ _
  rw [hs]
  unfold rewritten
  induction properAncestors (normalizeName cfg.lower ask.qname) with
  | nil => exact gives_none
  | cons a ancestors ih =>
    have hf : eval (cold cfg db) (LocalProg.perform (.lookupScoped owner a.2 (some .DNAME))) =
        dnamesAt cfg.lower (scopeView db.scopedCache owner) a.2 := rfl
    rw [List.findSome?_cons,List.findSome?_cons,hf]
    cases dnamesAt cfg.lower (scopeView db.scopedCache owner) a.2 with
    | nil => exact ih
    | cons dname rest => exact .inr ⟨_,rfl,rfl,rfl⟩

theorem gives_lanRecords : Gives (eval (cold cfg db) (lanRecords cfg ask none owner)) (onLan cfg db owner ask) := by
  unfold lanRecords onLan
  cases ask.recordKind with
  | none => exact gives_none
  | some kind =>
    have ho : cold cfg db (.lookupScoped owner ask.qname (some kind))=own cfg db owner ask kind := rfl
    rw [Option.bind_some]
    rw [eval_read,ho]
    cases own cfg db owner ask kind with
    | nil => exact gives_scopedCname
    | cons r records => exact .inr ⟨_,rfl,rfl,rfl⟩

/-- A blocklist holds the address that the name stands for. -/
def Listed (cfg : ServerConfig) (db : Database) (ask : Asked) : Prop :=
  ∃ ip,cfg.lib.extractIpFromName ask.qname=some ip ∧ eval (bare cfg.lower db) (ipBlocked cfg.lib ask.qname ip)=true

theorem eval_reverseBlocklist_listed (h : Listed cfg db ask) (authoritative : Bool) :
    eval (cold cfg db) (reverseBlocklist cfg.lib ask authoritative) =
      some (.answer (.edns .NXDomain [] authoritative)) := by
  obtain ⟨ip,hip,hb⟩ := h
  unfold reverseBlocklist
  rw [hip]
  rw [eval_bind,hb]
  rfl

theorem eval_reverseBlocklist_unlisted (h : ¬ Listed cfg db ask) (authoritative : Bool) :
    eval (cold cfg db) (reverseBlocklist cfg.lib ask authoritative)=none := by
  unfold reverseBlocklist
  cases hip : cfg.lib.extractIpFromName ask.qname with
  | none => rfl
  | some ip =>
    have hf : eval (cold cfg db) (ipBlocked cfg.lib ask.qname ip)=false := by
      by_contra hb
      exact h ⟨ip,hip,by simpa using hb⟩
    rw [eval_bind,hf]
    rfl

theorem decided_listed (hl : Listed cfg db ask) {client : Option Text}
    (hc : eval (cold cfg db) (scopeOf cfg ask)=.ok client) :
    ∃ reply,decided cfg db ask=some reply ∧ (reply.rcode,reply.answers)=(.NXDomain,[]) := by
  unfold decided
  rw [eval_localAnswer rfl hc]
  cases client with
  | none =>
    rw [firstSteps,List.cons_append,List.findSome?_cons,eval_reverseBlocklist_listed hl]
    exact ⟨_,rfl,rfl⟩
  | some scope =>
    rw [firstSteps,List.cons_append,List.findSome?_cons,scopedAnswer,eval_firstSome,List.findSome?_cons,
      eval_reverseBlocklist_listed hl]
    exact ⟨_,rfl,rfl⟩

/-- What a step that gives what is found leads to, when a denial comes after it. -/
theorem decided_of_gives (h : Gives step found) {ns : Namespace}
    (hl : eval (cold cfg db) (localAnswer cfg ask)=step.or (some (.askPeers [] ns))) :
    ∃ reply,decided cfg db ask=some reply ∧
      (reply.rcode,reply.answers)=shown found (known cfg.lower db ask.qname ns) := by
  unfold decided
  rw [hl]
  rcases h with ⟨rfl,rfl⟩ | ⟨reply,rfl,hc,rfl⟩
  · obtain ⟨authority,hn⟩ := eval_authoritativeNegative cfg db ask ns
    exact ⟨_,rfl,by rw [hn]; rfl⟩
  · exact ⟨reply,rfl,by rw [hc]; rfl⟩

theorem decided_member (hc : eval (cold cfg db) (scopeOf cfg ask)=.ok (some owner))
    (hm : eval (cold cfg db) (ingressTarget ask)=none) (hu : ¬ Listed cfg db ask)
    (ht : tldOwner cfg db ask.qname=some (owner,tld)) (hp : db.read cfg.lower (.getTldForwarders owner tld)=[]) :
    ∃ reply,decided cfg db ask=some reply ∧
      (reply.rcode,reply.answers)=shown (inScope cfg db owner ask) (known cfg.lower db ask.qname (.scope owner)) := by
  refine decided_of_gives (gives_scopedOfKind.or (gives_scopedCname.or gives_checkDnameScoped)) ?_
  have ho : override cfg db ask=none := by rw [override,hm]; rfl
  have how : cold cfg db (.findTldOwner ask.qname)=some (owner,tld) := ht
  have hf : cold cfg db (.getTldForwarders owner tld)=[] := hp
  have hd : eval (cold cfg db) (scopedTld ask owner)=some (.askPeers [] (.scope owner)) := by
    rw [scopedTld,eval_read,how]
    dsimp only
    rw [if_pos rfl,eval_read,hf]
    rfl
  rw [eval_localAnswer ho hc,firstSteps,List.cons_append,List.findSome?_cons,scopedAnswer,eval_firstSome]
  simp only [List.findSome?_cons,eval_reverseBlocklist_unlisted hu,hd]
  cases eval (cold cfg db) (match ask.recordKind with
    | some kind => scopedOfKind cfg ask owner none kind
    | none => pure none) with
  | some step => rfl
  | none =>
    cases eval (cold cfg db) (scopedCname cfg ask owner) with
    | some step => rfl
    | none => cases eval (cold cfg db) (checkDnameScoped cfg.lib owner ask.qname) <;> rfl

theorem decided_lan (hc : eval (cold cfg db) (scopeOf cfg ask)=.ok none)
    (hm : eval (cold cfg db) (ingressTarget ask)=none) (hu : ¬ Listed cfg db ask)
    (ht : tldOwner cfg db ask.qname=some (owner,tld)) (hp : db.read cfg.lower (.getTldForwarders owner tld)=[])
    (ha : GloballyAbsent cfg db ask) :
    ∃ reply,decided cfg db ask=some reply ∧ (reply.rcode,reply.answers) =
      if globally cfg db ask≠[] then (.NoError,served cfg (globally cfg db ask)++signatures cfg db ask)
      else shown (onLan cfg db owner ask) (known cfg.lower db ask.qname (.lanFallback owner)) := by
  have ho : override cfg db ask=none := by rw [override,hm]; rfl
  have how : cold cfg db (.findTldOwner ask.qname)=some (owner,tld) := ht
  have hf : cold cfg db (.getTldForwarders owner tld)=[] := hp
  have hfa : eval (cold cfg db) (lanFallback cfg ask none) =
      (eval (cold cfg db) (lanRecords cfg ask none owner)).or (some (.askPeers [] (.lanFallback owner))) := by
    rw [lanFallback,eval_read,how]
    rw [eval_bind]
    cases eval (cold cfg db) (lanRecords cfg ask none owner) with
    | some step => rfl
    | none =>
      rw [eval_read,hf]
      rfl
  obtain ⟨authoritative,hg⟩ := eval_globalRecords ha
  have hl : eval (cold cfg db) (localAnswer cfg ask) =
      (eval (cold cfg db) (globalRecords cfg ask)).or
        ((eval (cold cfg db) (lanRecords cfg ask none owner)).or (some (.askPeers [] (.lanFallback owner)))) := by
    rw [eval_localAnswer ho hc,firstSteps]
    simp only [List.cons_append,List.findSome?_cons,eval_reverseBlocklist_unlisted hu,hfa]
    cases eval (cold cfg db) (globalRecords cfg ask) with
    | some step => rfl
    | none => cases eval (cold cfg db) (lanRecords cfg ask none owner) <;> rfl
  rw [hg] at hl
  split_ifs at hl ⊢
  · exact ⟨_,by rw [decided,hl]; rfl,rfl⟩
  · exact decided_of_gives gives_lanRecords hl

/-- The listener alone decides whether an ingress address is the answer. -/
theorem eval_ingressTarget_source (reply : (o : LocalOp) → LocalRes o) (ip : Option IpAddr) :
    eval reply (ingressTarget { ask with sourceIp := ip })=eval reply (ingressTarget ask) := by
  unfold ingressTarget
  cases ask.localIp with
  | none => rfl
  | some ip' =>
    rw [eval_read,eval_read]
    cases reply (.findTldOwner ask.qname) <;> rfl

theorem known_lanFallback (ha : GloballyAbsent cfg db ask) :
    known cfg.lower db ask.qname (.lanFallback owner) =
      (known cfg.lower db ask.qname (.scope owner) || (wildcardOwnerFor cfg.lower db.rows ask.qname).isSome) := by
  simp [known,nameOccupied_absent ha]

end

section
variable (cfg : ServerConfig) (db : Database) (owner : Text) (ask : Asked)

/-- Both are shown the same. Where a global wildcard stands for the name, the scope has just what is made of
it. Where none does, no CNAME is found for a type that cannot be stored; no ANAME is followed to an address;
no DNAME is found above a name for which nothing else is; and no global wildcard makes a name exist that the
scope does not know. What cannot be sent as a record makes no difference, if the name exists. -/
structure Alike : Prop where
  wildcard : globally cfg db ask≠[] →
    (inScope cfg db owner ask).getD []=served cfg (globally cfg db ask)++signatures cfg db ask ∧
      (inScope cfg db owner ask=none → known cfg.lower db ask.qname (.scope owner)=true)
  cname : globally cfg db ask=[] → ask.recordKind=none → own cfg db owner ask .CNAME≠[] →
    served cfg (own cfg db owner ask .CNAME)=[] ∧ known cfg.lower db ask.qname (.lanFallback owner)=true
  aname : globally cfg db ask=[] → ∀ kind,ask.recordKind=some kind → own cfg db owner ask kind=[] →
    aliased cfg db owner ask kind≠[] →
    renameTo cfg.lib ask.qname (served cfg (aliased cfg db owner ask kind))=served cfg (own cfg db owner ask .CNAME) ∧
      (own cfg db owner ask .CNAME=[] → known cfg.lower db ask.qname (.lanFallback owner)=true)
  dname : globally cfg db ask=[] →
    (∀ kind,ask.recordKind=some kind → own cfg db owner ask kind=[] ∧ aliased cfg db owner ask kind=[]) →
    own cfg db owner ask .CNAME=[] → ∀ answers,rewritten cfg db owner ask=some answers →
      answers=[] ∧ known cfg.lower db ask.qname (.lanFallback owner)=true
  denial : globally cfg db ask=[] → inScope cfg db owner ask=none →
    known cfg.lower db ask.qname (.scope owner)=true ∨ wildcardOwnerFor cfg.lower db.rows ask.qname=none

variable {cfg db owner ask}

theorem shown_some_eq_none {answers : List Record} {known known' : Bool} :
    shown (some answers) known=shown none known' ↔ answers=[] ∧ known'=true := by
  cases known' <;> simp [shown,ResponseCode.NoError,ResponseCode.NXDomain]

theorem shown_none_eq_none {known known' : Bool} : shown none known=shown none known' ↔ known=known' := by
  cases known <;> cases known' <;> simp [shown,ResponseCode.NoError,ResponseCode.NXDomain]

theorem inScope_of_nothing (hk : ∀ kind,ask.recordKind=some kind → own cfg db owner ask kind=[] ∧
    aliased cfg db owner ask kind=[])
    (hc : own cfg db owner ask .CNAME=[]) : inScope cfg db owner ask=rewritten cfg db owner ask := by
  unfold inScope
  cases ha : ask.recordKind with
  | none => simp [hc]
  | some kind => simp [hk kind ha,hc]

theorem onLan_of_nothing (hk : ∀ kind,ask.recordKind=some kind → own cfg db owner ask kind=[])
    (hc : own cfg db owner ask .CNAME=[]) : onLan cfg db owner ask=none := by
  unfold onLan
  cases ha : ask.recordKind with
  | none => rfl
  | some kind => simp [hk kind ha,hc]

theorem inScope_eq_none (h : inScope cfg db owner ask=none) :
    (∀ kind,ask.recordKind=some kind → own cfg db owner ask kind=[] ∧ aliased cfg db owner ask kind=[]) ∧
      own cfg db owner ask .CNAME=[] ∧ rewritten cfg db owner ask=none := by
  unfold inScope at h
  rw [Option.or_eq_none_iff,Option.or_eq_none_iff] at h
  obtain ⟨hk,hc,hd⟩ := h
  refine ⟨fun kind has => ?_,by simpa using hc,hd⟩
  rw [has,Option.bind_some] at hk
  split_ifs at hk with ho ha
  exact ⟨by simpa using ho,by simpa using ha⟩

variable (cfg db owner ask) in
/-- The scope and the LAN show the same where no global record does. -/
def ShownAlike : Prop :=
  shown (inScope cfg db owner ask) (known cfg.lower db ask.qname (.scope owner)) =
    shown (onLan cfg db owner ask) (known cfg.lower db ask.qname (.lanFallback owner))

theorem shownAlike_cname (hk : ask.recordKind=none) (hc : own cfg db owner ask .CNAME≠[]) :
    ShownAlike cfg db owner ask ↔
    served cfg (own cfg db owner ask .CNAME)=[] ∧ known cfg.lower db ask.qname (.lanFallback owner)=true := by
  have hs : inScope cfg db owner ask=some (served cfg (own cfg db owner ask .CNAME)) := by simp [inScope,hk,hc]
  have hl : onLan cfg db owner ask=none := by simp [onLan,hk]
  rw [ShownAlike,hs,hl,shown_some_eq_none]

theorem shownAlike_aname {kind : RecordKind} (hki : ask.recordKind=some kind) (ho : own cfg db owner ask kind=[])
    (ha : aliased cfg db owner ask kind≠[]) : ShownAlike cfg db owner ask ↔
    renameTo cfg.lib ask.qname (served cfg (aliased cfg db owner ask kind))=served cfg (own cfg db owner ask .CNAME) ∧
      (own cfg db owner ask .CNAME=[] → known cfg.lower db ask.qname (.lanFallback owner)=true) := by
  have hs : inScope cfg db owner ask =
    some (renameTo cfg.lib ask.qname (served cfg (aliased cfg db owner ask kind))) := by
    simp [inScope,hki,ho,ha]
  rw [ShownAlike,hs]
  by_cases hc : own cfg db owner ask .CNAME=[]
  · have hl : onLan cfg db owner ask=none := by simp [onLan,hki,ho,hc]
    rw [hl,shown_some_eq_none,hc]
    exact and_congr_right fun _ => ⟨fun hk _ => hk,fun hk => hk rfl⟩
  · have hl : onLan cfg db owner ask=some (served cfg (own cfg db owner ask .CNAME)) := by simp [onLan,hki,ho,hc]
    simp [hl,shown,hc]

theorem shownAlike_nothing (ha : GloballyAbsent cfg db ask)
    (hk : ∀ kind,ask.recordKind=some kind → own cfg db owner ask kind=[] ∧ aliased cfg db owner ask kind=[])
    (hc : own cfg db owner ask .CNAME=[]) : ShownAlike cfg db owner ask ↔
    (∀ answers,rewritten cfg db owner ask=some answers → answers=[] ∧
      known cfg.lower db ask.qname (.lanFallback owner)=true) ∧
      (rewritten cfg db owner ask=none →
        known cfg.lower db ask.qname (.scope owner)=true ∨ wildcardOwnerFor cfg.lower db.rows ask.qname=none) := by
  rw [ShownAlike,inScope_of_nothing hk hc,onLan_of_nothing (fun kind has => (hk kind has).1) hc]
  cases rewritten cfg db owner ask with
  | some answers => simp [shown_some_eq_none]
  | none =>
    rw [shown_none_eq_none,known_lanFallback ha]
    cases known cfg.lower db ask.qname (.scope owner) <;> simp

theorem shown_eq_iff (hab : GloballyAbsent cfg db ask) (hg : globally cfg db ask=[]) :
    ShownAlike cfg db owner ask ↔ Alike cfg db owner ask := by
  constructor
  · intro h
    refine ⟨fun hne => absurd hg hne,fun _ hk hc => (shownAlike_cname hk hc).mp h,
      fun _ kind hk ho ha => (shownAlike_aname hk ho ha).mp h,
      fun _ hk hc => ((shownAlike_nothing hab hk hc).mp h).1,fun _ hno => ?_⟩
    obtain ⟨hk,hc,hr⟩ := inScope_eq_none hno
    exact ((shownAlike_nothing hab hk hc).mp h).2 hr
  · intro h
    by_cases ho : ∃ kind,ask.recordKind=some kind ∧ own cfg db owner ask kind≠[]
    · obtain ⟨kind,hk,ho⟩ := ho
      simp [ShownAlike,inScope,onLan,hk,ho,shown]
    push Not at ho
    by_cases ha : ∃ kind,ask.recordKind=some kind ∧ aliased cfg db owner ask kind≠[]
    · obtain ⟨kind,hk,ha⟩ := ha
      exact (shownAlike_aname hk (ho kind hk) ha).mpr (h.aname hg kind hk (ho kind hk) ha)
    push Not at ha
    have hn (kind : RecordKind) (hk : ask.recordKind=some kind) :
        own cfg db owner ask kind=[] ∧ aliased cfg db owner ask kind=[] := ⟨ho kind hk,ha kind hk⟩
    by_cases hc : own cfg db owner ask .CNAME=[]
    · refine (shownAlike_nothing hab hn hc).mpr ⟨h.dname hg hn hc,fun hno => ?_⟩
      exact h.denial hg ((inScope_of_nothing hn hc).trans hno)
    · cases hk : ask.recordKind with
      | none => exact (shownAlike_cname hk hc).mpr (h.cname hg hk hc)
      | some kind => simp [ShownAlike,inScope,onLan,hk,hn kind hk,hc,shown]

theorem shown_wildcard_iff (hg : globally cfg db ask≠[]) :
    shown (inScope cfg db owner ask) (known cfg.lower db ask.qname (.scope owner)) =
        (.NoError,served cfg (globally cfg db ask)++signatures cfg db ask) ↔ Alike cfg db owner ask := by
  have hf : Alike cfg db owner ask ↔
      (inScope cfg db owner ask).getD []=served cfg (globally cfg db ask)++signatures cfg db ask ∧
        (inScope cfg db owner ask=none → known cfg.lower db ask.qname (.scope owner)=true) :=
    ⟨fun h => h.wildcard hg,fun h => ⟨fun _ => h,fun hn => absurd hn hg,fun hn => absurd hn hg,
      fun hn => absurd hn hg,fun hn => absurd hn hg⟩⟩
  rw [hf]
  cases inScope cfg db owner ask with
  | some answers => simp [shown]
  | none => cases known cfg.lower db ask.qname (.scope owner) <;> simp [shown,ResponseCode.NoError,
      ResponseCode.NXDomain,and_comm]

end

/-- Under an owned TLD without peers, with no global record at, above or below the name, a local client and
a member of the owning scope are sent the same response code and answers if and only if the name is blocked
for both or what they are shown is alike. -/
theorem lan_view_iff (cfg : ServerConfig) (db : Database) (owner tld : Text) (ask : Asked) (ip : Option IpAddr)
    (net : Option Bytes) (hlan : eval (bare cfg.lower db) (scopeOf cfg ask)=.ok none)
    (hmember : eval (bare cfg.lower db) (scopeOf cfg { ask with sourceIp := ip })=.ok (some owner))
    (hmain : eval (bare cfg.lower db) (ingressTarget ask)=none) (htld : tldOwner cfg db ask.qname=some (owner,tld))
    (hpeers : ∀ scope tld,db.read cfg.lower (.getTldForwarders scope tld)=[]) (habsent : GloballyAbsent cfg db ask) :
    ∃ lan member,decided cfg db ask=some lan ∧ decided cfg db { ask with sourceIp := ip }=some member ∧
      eval (repliesBy (bare cfg.lower db) net) (answerAsked cfg ask)=lan.bytes cfg.lib ask ∧
      eval (repliesBy (bare cfg.lower db) net) (answerAsked cfg { ask with sourceIp := ip }) =
        member.bytes cfg.lib { ask with sourceIp := ip } ∧
      ((lan.rcode,lan.answers)=(member.rcode,member.answers) ↔ Listed cfg db ask ∨ Alike cfg db owner ask) := by
  by_cases hl : Listed cfg db ask
  · obtain ⟨lan,hd,heq⟩ := decided_listed hl hlan
    have hl' : Listed cfg db { ask with sourceIp := ip } := hl
    obtain ⟨member,hd',heq'⟩ := decided_listed hl' hmember
    refine ⟨lan,member,hd,hd',eval_answerAsked hd,eval_answerAsked hd',?_⟩
    rw [heq,heq']
    exact iff_of_true rfl (.inl hl)
  · obtain ⟨lan,hd,heq⟩ := decided_lan hlan hmain hl htld (hpeers owner tld) habsent
    have hl' : ¬ Listed cfg db { ask with sourceIp := ip } := hl
    have hmain' : eval (bare cfg.lower db) (ingressTarget { ask with sourceIp := ip })=none :=
      (eval_ingressTarget_source _ ip).trans hmain
    have htld' : tldOwner cfg db { ask with sourceIp := ip }.qname=some (owner,tld) := htld
    obtain ⟨member,hd',heq'⟩ := decided_member hmember hmain' hl' htld' (hpeers owner tld)
    have hs : inScope cfg db owner { ask with sourceIp := ip }=inScope cfg db owner ask := rfl
    refine ⟨lan,member,hd,hd',eval_answerAsked hd,eval_answerAsked hd',?_⟩
    rw [heq,heq',hs,or_iff_right hl,eq_comm]
    by_cases hg : globally cfg db ask=[]
    · rw [if_neg (by simpa using hg)]
      exact shown_eq_iff habsent hg
    · rw [if_pos hg]
      exact shown_wildcard_iff hg

def lanDb (name : String) (kind : RecordKind) (value : Text) : Database where
  rows := []
  scopedRows := []
  scopedCache := [("s:"++name.toList ++ ':' :: kind.asStr,[⟨name.toList,kind,value,60,0⟩]),
    ("s:t.:A",[⟨"t.",.A,"1",60,0⟩])]
  other
    | .getScopeForIp _ => some "s"
    | .findTldOwner _ => some ("s", "a.")
    | o => holdsNothing o
  normalized := List.forall_mem_nil _

def askXA (type : RecordType) : Asked := ⟨[],queryA,none,⟨nameXA,type,.IN⟩,"x.a.",none,none⟩

theorem globallyAbsent_lanDb (name : String) (kind : RecordKind) (value : Text) (type : RecordType) :
    GloballyAbsent dnameConfig (lanDb name kind value) (askXA type) := List.forall_mem_nil _

/-- An address at `x.a.` is shown to both. -/
theorem lan_view_address : ∃ lan member,
    decided dnameConfig (lanDb "x.a." .A "1") (askXA .A)=some lan ∧
      decided dnameConfig (lanDb "x.a." .A "1") { askXA .A with sourceIp := some (.v4 0x7f000001) }=some member ∧
      (lan.rcode,lan.answers)=(member.rcode,member.answers) := by
  obtain ⟨lan,member,hl,hm,-,-,hi⟩ :=
    lan_view_iff dnameConfig (lanDb "x.a." .A "1") "s" "a." (askXA .A) (some (.v4 0x7f000001)) none rfl rfl rfl rfl
      (fun _ _ => rfl) (globallyAbsent_lanDb _ _ _ _)
  have hno : globally dnameConfig (lanDb "x.a." .A "1") (askXA .A)=[] := by decide
  have ho : own dnameConfig (lanDb "x.a." .A "1") "s" (askXA .A) .A≠[] := by decide
  have hs : inScope dnameConfig (lanDb "x.a." .A "1") "s" (askXA .A)≠none := by decide
  refine ⟨lan,member,hl,hm,hi.mpr (.inr ?_)⟩
  constructor
  case wildcard => exact fun hne => absurd hno hne
  case cname => exact nofun
  case aname =>
    rintro - kind ⟨⟩ hn
    exact absurd hn ho
  case dname => exact fun _ hk => absurd (hk .A rfl).1 ho
  case denial => exact fun _ hn => absurd hn hs

/-- What the two are shown of `x.a.`, asked for on the main listener: a response code and answers each. -/
def Shows (db : Database) (type : RecordType) (lan member : ResponseCode × List Record) : Prop :=
  eval (bare dnameConfig.lower db) (scopeOf dnameConfig (askXA type))=.ok none ∧
    eval (bare dnameConfig.lower db) (scopeOf dnameConfig { askXA type with sourceIp := some (.v4 0x7f000001) }) =
      .ok (some "s") ∧
    eval (bare dnameConfig.lower db) (ingressTarget (askXA type))=none ∧
    tldOwner dnameConfig db (askXA type).qname=some ("s".toList, "a.".toList) ∧
    (∀ scope tld,db.read dnameConfig.lower (.getTldForwarders scope tld)=[]) ∧
      GloballyAbsent dnameConfig db (askXA type) ∧
    (decided dnameConfig db (askXA type)).map (fun reply => (reply.rcode,reply.answers))=some lan ∧
    (decided dnameConfig db { askXA type with sourceIp := some (.v4 0x7f000001) }).map (fun reply =>
      (reply.rcode,reply.answers))=some member

/-- A member of the scope is shown its CNAME at `x.a.` for a type that cannot be stored, the addresses that
its ANAME leads to, and what its DNAME at `a.` makes of the name. A local client is told that there is no
such record, or no such name. -/
theorem lan_view_differs :
    Shows (lanDb "x.a." .CNAME "t.") ⟨99⟩ (.NoError,[]) (.NoError,[⟨nameXA,.IN,60,.cname nameT⟩]) ∧
      Shows (lanDb "x.a." .ANAME "t.") .A (.NoError,[]) (.NoError,[⟨nameXA,.IN,60,.a 1⟩]) ∧
      Shows (lanDb "a." .DNAME "t.") .A (.NXDomain,[])
        (.NoError,[⟨nameA,.IN,60,.cname nameT⟩,⟨nameXA,.IN,60,.cname nameXT⟩]) := by
  refine ⟨⟨rfl,rfl,rfl,rfl,fun _ _ => rfl,globallyAbsent_lanDb _ _ _ _,?_,?_⟩,
    ⟨rfl,rfl,rfl,rfl,fun _ _ => rfl,globallyAbsent_lanDb _ _ _ _,?_,?_⟩,
    ⟨rfl,rfl,rfl,rfl,fun _ _ => rfl,globallyAbsent_lanDb _ _ _ _,?_,?_⟩⟩
  all_goals decide

end RolodexDns.LanViews
