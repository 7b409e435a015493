import RolodexDns.AutoTiers

/-! What is in the caches after a change of tier. A switch flushes three of the caches, but not the trust
states; and requests that are under way when it happens can still put into the caches what they got before.
Where neither comes into it, everything that is cached was got after the last switch, or is the answer that
the switch was made for. -/
namespace RolodexDns.TierFlushes
open DomainNames DnsRecords ExpiringMaps ResolverCaches ResolverWorld IterativeResolver ProgramTrees List ExpiringMap
open ProgramTraces HistoryContracts StoredRecords WireMessages ServerOperations AnswerCaches
  AuthoritativeAnswers LocalAnswers
open UpstreamResolution QueryHandling LocalTraces TracedSessions AutoTiers

variable {cfg : AutoConfig} {past : AutoPast}

section
variable (tier : Nat)

def Unstored (events : AutoPast) : Prop := ∀ tier,⟨.storeTier tier,()⟩∉events

/-- The request has stored no tier since it last started on the chain, or none at all. -/
def Restarted (past : AutoPast) : Prop :=
  Unstored past ∨ ∃ before active rest,past=before++⟨.startTier,active⟩::rest ∧ Unstored rest

/-- What is kept is the answer of a tier. Since the request started on the chain it has stored no other tier
than that. -/
def Answered (cfg : AutoConfig) (past : AutoPast) (o : LocalOp) : Prop :=
  ∃ before active tried won noted tail tier queryData message ctx response,
    past=before++⟨.startTier,active⟩::(tried++won++⟨.noteTier tier,noted⟩::tail) ∧ Unstored (tried++won) ∧
    (∀ t,⟨.storeTier t,()⟩∈tail → t=tier) ∧
    Yields (expand (carryOut cfg.resolver) (tryTier cfg.server tier queryData message ctx)) won (some response) ∧
    Performs (cacheFromWire cfg.server response) o

/-- Where that comes from which a request puts into a cache. -/
def obtains (cfg : AutoConfig) (past : AutoPast) : AutoOp → Prop
  | .server (.held o) => KeepsOwn o ∨ Answered cfg past o
  | .lookup _ => Restarted past
  | _ => True

theorem unstored_nil : Unstored [] := fun _ => not_mem_nil

theorem Unstored.append {first rest : AutoPast} (h : Unstored first) (h' : Unstored rest) : Unstored (first++rest) :=
  fun tier hm => (mem_append.mp hm).elim (h tier) (h' tier)

theorem Restarted.append {new : AutoPast} (h : Restarted past) (hn : Unstored new) : Restarted (past++new) := by
  rcases h with hp | ⟨before,active,rest,rfl,hr⟩
  · exact .inl (hp.append hn)
  · exact .inr ⟨before,active,rest++new,by simp,hr.append hn⟩

/-- What a request does to get an answer. -/
def Seeks : AutoOp → Prop
  | .storeTier _ => False
  | .server (.held o) => KeepsOwn o
  | _ => True

theorem unstored_of_seeks {events : AutoPast} (h : ∀ e∈events,Seeks e.1) : Unstored events := fun _ hm => h _ hm

theorem obtains_of_seeks (hp : Restarted past) {o : AutoOp} (ho : Seeks o) : obtains cfg past o := by
  cases o with
  | server o =>
    cases o with
    | held o => exact .inl ho
    | _ => trivial
  | lookup o => exact hp
  | _ => trivial

theorem keeps_seeking {α : Type} {p : AutoProg α} (hp : p.Only Seeks) (hpa : Restarted past) :
    Keeps (lookingBack (obtains cfg)) past p fun now a => ∃ new,now=past++new ∧ Yields p new a ∧ Unstored new := by
  have hJ (now : AutoPast) (o : AutoOp) (hn : Restarted now) (ho : Seeks o) :
      obtains cfg now o ∧ ∀ r,Restarted (now++[⟨o,r⟩]) := by
    refine ⟨obtains_of_seeks hn ho,fun r => hn.append (unstored_of_seeks fun e he => ?_)⟩
    obtain rfl := mem_singleton.mp he
    exact ho
  refine (keeps_while hp hpa hJ).mono fun now a _ h => ?_
  obtain ⟨new,hn,hy,hs⟩ := h
  exact ⟨new,hn,hy,unstored_of_seeks hs⟩

theorem carryOut_seeks {o : ServerOp} (ho : Asks o) : (carryOut cfg.resolver o).Only Seeks := by
  cases o with
  | held o => exact ⟨ho,fun _ _ => trivial⟩
  | resolve | resolveWithin | noteAutoWinner => exact ho.elim
  | _ => exact ⟨trivial,fun _ _ => trivial⟩

theorem tryTier_seeks (queryData : Bytes) (message : Packet) (ctx : Option EdnsContext) :
    (expand (carryOut cfg.resolver) (tryTier cfg.server tier queryData message ctx)).Only Seeks := by
  cases tier with
  | succ n => exact sat_expand (tierForward_sat cfg.server queryData _) fun o => carryOut_seeks
  | zero =>
    rw [tryTier,tierRoots]
    split
    · trivial
    · rw [expand_bind]
      refine Prog.Sat.bind (Q := fun _ => True) ?_ fun found _ => ?_
      · have hw {α : Type} (p : Prog Op Res α) : (within p).Only Seeks :=
          within_sat trivial (fun _ => trivial) p
        exact (hw _).bind fun _ _ => trivial
      · split <;> trivial

def Notes : AutoOp → Prop
  | .storeTier t => t=tier
  | .server _ | .lookup _ => False
  | _ => True

theorem commitTier_notes : (commitTier tier).Only (Notes tier) :=
  ⟨trivial,fun _ _ => ⟨trivial,fun _ _ => ⟨trivial,fun _ _ => ⟨rfl,fun _ _ => ⟨trivial,fun _ _ => trivial⟩⟩⟩⟩⟩

theorem noteAutoWinner_notes : (noteAutoWinner tier).Only (Notes tier) := by
  refine ⟨trivial,fun (active : Nat) _ => ?_⟩
  dsimp only [Prog.bind]
  split_ifs
  · exact ⟨trivial,fun _ _ => trivial⟩
  · exact commitTier_notes tier
  · refine ⟨trivial,fun (grace : Nat) _ => ⟨trivial,fun (streak : Nat) _ => ?_⟩⟩
    dsimp only [Prog.bind]
    split_ifs
    · exact commitTier_notes tier
    · trivial

theorem obtains_of_notes {tier : Nat} {o : AutoOp} (ho : Notes tier o) : obtains cfg past o := by
  cases o with
  | server | lookup => exact ho.elim
  | _ => trivial

theorem noteAutoWinner_obtains :
    Keeps (lookingBack (obtains cfg)) past (noteAutoWinner tier) fun now _ =>
      ∃ noted tail,now=past++⟨.noteTier tier,noted⟩::tail ∧ ∀ t,⟨.storeTier t,()⟩∈tail → t=tier := by
  have hJ (now : AutoPast) (o : AutoOp) (_ : True) (ho : Notes tier o) : obtains cfg now o ∧ ∀ _ : AutoRes o,True :=
    ⟨obtains_of_notes ho,fun _ => trivial⟩
  refine (keeps_while (noteAutoWinner_notes tier) trivial hJ).mono fun now _ _ h => ?_
  obtain ⟨new,rfl,hy,hn⟩ := h
  obtain ⟨noted,tail,-,rfl⟩ := Yields.perform_bind_inv hy
  exact ⟨noted,tail,rfl,fun t hm => hn _ (mem_cons_of_mem _ hm)⟩

end

section

variable {active : Nat} {message : Packet}

theorem cacheFromWire_obtains {before tried won tail : AutoPast} {noted : Nat} {tier : Nat}
    {queryData response : Bytes}
    {ctx : Option EdnsContext} (hu : Unstored (tried++won))
    (ht : ∀ t,⟨.storeTier t,()⟩∈tail → t=tier)
    (hw : Yields (expand (carryOut cfg.resolver) (tryTier cfg.server tier queryData message ctx)) won (some response)) :
    Keeps (lookingBack (obtains cfg)) (before++⟨.startTier,active⟩::(tried++won++⟨.noteTier tier,noted⟩::tail))
      (expand (carryOut cfg.resolver) (ServerProg.held (cacheFromWire cfg.server response))) fun _ _ => True := by
  have hs : (expand (carryOut cfg.resolver) (ServerProg.held (cacheFromWire cfg.server response))).Only
      (fun o => ∃ held,o=.server (.held held) ∧ Performs (cacheFromWire cfg.server response) held) := by
    have hh : (ServerProg.held (cacheFromWire cfg.server response)).Only
        (fun o => ∃ held,o=.held held ∧ Performs (cacheFromWire cfg.server response) held) :=
      sat_lift ((sat_performs holdsNothing _).weaken (fun held hh => ⟨held,rfl,hh⟩) fun _ _ _ => trivial)
    refine sat_expand hh ?_
    rintro _ ⟨held,rfl,hh⟩
    exact ⟨⟨held,rfl,hh⟩,fun _ _ => trivial⟩
  refine (keeps_while (J := fun now => ∃ tail,
    now=before++⟨.startTier,active⟩::(tried++won++⟨.noteTier tier,noted⟩::tail) ∧
    ∀ t,⟨.storeTier t,()⟩∈tail → t=tier) hs ⟨tail,rfl,ht⟩ ?_).mono fun _ _ _ _ => trivial
  rintro _ _ ⟨tail,rfl,ht⟩ ⟨held,rfl,hh⟩
  refine ⟨.inr ⟨before,active,tried,won,noted,tail,tier,queryData,message,ctx,response,rfl,hu,ht,hw,hh⟩,
    fun r => ⟨tail++[⟨.server (.held held),r⟩],by simp,fun t hm => ?_⟩⟩
  rcases mem_append.mp hm with hm | hm
  · exact ht t hm
  · cases mem_singleton.mp hm

theorem tryTiers_obtains {before rest : AutoPast} (hr : Unstored rest) (queryData : Bytes)
    (message : Packet) (ctx : Option EdnsContext) (tiers : List Nat) :
    Keeps (lookingBack (obtains cfg)) (before++⟨.startTier,active⟩::rest)
      (expand (carryOut cfg.resolver) (tryTiers cfg.server queryData message ctx tiers)) fun _ _ => True := by
  induction tiers generalizing rest with
  | nil => trivial
  | cons tier tiers ih =>
    rw [tryTiers,expand_bind]
    refine (keeps_seeking (tryTier_seeks tier queryData message ctx) (.inr ⟨before,active,rest,rfl,hr⟩)).bind
      fun now reply _ hn => ?_
    obtain ⟨new,rfl,hy,hne⟩ := hn
    rw [append_assoc,cons_append]
    cases reply with
    | none => exact ih (hr.append hne)
    | some response =>
      refine (noteAutoWinner_obtains tier).bind fun now _ _ hn => ?_
      obtain ⟨noted,tail,rfl,ht⟩ := hn
      rw [append_assoc,cons_append]
      change Keeps _ _ (expand _ (ServerProg.held (cacheFromWire cfg.server response) >>= fun _ => pure response)) _
      rw [expand_bind]
      exact (cacheFromWire_obtains (hr.append hne) ht hy).bind fun _ _ _ _ => trivial

theorem autoResolve_obtains (queryData : Bytes) (ctx : Option EdnsContext) :
    Keeps (lookingBack (obtains cfg)) past (expand (carryOut cfg.resolver) (autoResolve cfg.server queryData ctx))
      fun _ _ => True := by
  unfold autoResolve
  split
  · trivial
  · split_ifs
    · trivial
    · exact ⟨trivial,fun active _ => tryTiers_obtains unstored_nil queryData _ ctx _⟩

variable (hmode : cfg.server.mode=.auto) (ask : Asked)
include hmode

theorem upstreamResolve_obtains (queryData : Bytes) (ctx : Option EdnsContext) :
    Keeps (lookingBack (obtains cfg)) past
      (expand (carryOut cfg.resolver) (upstreamResolve cfg.server queryData ctx)) fun _ _ => True := by
  unfold upstreamResolve
  split_ifs
  · trivial
  · rw [hmode]
    exact autoResolve_obtains queryData ctx

omit hmode in
theorem asks_obtains {α : Type} {p : ServerProg α} (hp : p.Only Asks) :
    Keeps (lookingBack (obtains cfg)) past (expand (carryOut cfg.resolver) p) fun _ _ => True := by
  refine keeps_expand hp (fun o ho now => ?_) past
  cases o with
  | held o => exact ⟨.inl ho,fun _ _ => trivial⟩
  | resolve | resolveWithin | noteAutoWinner => exact ho.elim
  | _ => exact ⟨trivial,fun _ _ => trivial⟩

omit hmode in
theorem forwardToTldPeers_sat (config : ServerConfig) (queryData : Bytes) (peers : List SocketAddr) :
    (forwardToTldPeers config queryData peers).Only Asks :=
  (forwardToTldPeers_exchanges (List.Subset.refl _)).weaken (fun o ⟨_,_,ho⟩ => asks_of_exchange o ho)
    fun _ _ _ => trivial

omit hmode in
theorem localAnswer_asks : (ServerProg.held (localAnswer cfg.server ask)).Only Asks := by
  refine sat_lift (localAnswer_keeps.sat (fun now o ho => ?_) fun _ _ => trivial)
  cases o with
  | cacheInsert | cacheInsertNegative => exact ho
  | _ => trivial

omit hmode in
theorem authoritativeNegative_asks (ns : Namespace) :
    (ServerProg.held (authoritativeNegative cfg.server.lib ask ns)).Only Asks := by
  have hns : Within (fun _ => True) ns := by cases ns <;> trivial
  have hs : (authoritativeNegative cfg.server.lib ask ns).Sat harmless fun _ => True :=
    (authoritativeNegative_sat _ hns).mono fun _ _ => trivial
  refine sat_lift (hs.weaken (fun o ho => ?_) fun _ _ _ => trivial)
  cases o with
  | cacheInsert | cacheInsertNegative => exact ho
  | _ => trivial

theorem dns64_obtains (response : Bytes) :
    Keeps (lookingBack (obtains cfg)) past (expand (carryOut cfg.resolver) (dns64 cfg.server ask response))
      fun _ _ => True := by
  unfold dns64
  split
  · split
    · trivial
    · split
      · trivial
      · rw [expand_bind]
        refine (upstreamResolve_obtains hmode _ ask.ctx).bind fun _ aResponse _ _ => ?_
        split <;> trivial
  · trivial

theorem answerUpstream_obtains :
    Keeps (lookingBack (obtains cfg)) past (expand (carryOut cfg.resolver) (answerUpstream cfg.server ask))
      fun _ _ => True := by
  rw [answerUpstream,expand_bind]
  refine (upstreamResolve_obtains hmode ask.queryData ask.ctx).bind fun _ response _ _ => ?_
  rw [expand_bind]
  refine (dns64_obtains hmode ask response).bind fun _ synthesized _ _ => ?_
  cases synthesized with
  | some reply => trivial
  | none =>
    dsimp only
    split
    · refine ⟨.inl trivial,fun cached _ => ?_⟩
      dsimp only [Prog.bind]
      split <;> trivial
    · trivial

theorem answerAsked_obtains :
    Keeps (lookingBack (obtains cfg)) past (expand (carryOut cfg.resolver) (answerAsked cfg.server ask))
      fun _ _ => True := by
  rw [answerAsked,expand_bind]
  refine (asks_obtains (localAnswer_asks ask)).bind fun _ step _ _ => ?_
  match step with
  | some (.answer reply) => trivial
  | none => exact answerUpstream_obtains hmode ask
  | some (.askPeers peers ns) =>
    rw [expand_bind]
    refine (asks_obtains (forwardToTldPeers_sat cfg.server ask.queryData peers)).bind fun _ reply _ _ => ?_
    cases reply with
    | some response => trivial
    | none =>
      rw [expand_bind]
      exact (asks_obtains (authoritativeNegative_asks ask ns)).bind fun _ _ _ _ => trivial

omit hmode in
theorem probeTiers_obtains {canary : Bytes} (tiers : List Nat) (hp : Unstored past) :
    Keeps (lookingBack (obtains cfg)) past (probeTiers cfg canary message tiers) fun _ _ => True := by
  induction tiers generalizing past with
  | nil => trivial
  | cons tier tiers ih =>
    refine (keeps_seeking (tryTier_seeks tier canary message none) (.inl hp)).bind fun now reply _ hn => ?_
    obtain ⟨new,rfl,-,hne⟩ := hn
    cases reply with
    | none => exact ih (hp.append hne)
    | some response => exact (noteAutoWinner_obtains tier).mono fun _ _ _ _ => trivial

theorem program_obtains (request : Request) :
    Keeps (lookingBack (obtains cfg)) [] (request.program cfg) fun _ _ => True := by
  cases request with
  | query queryData sourceIp localIp proto =>
    refine Keeps.bind (Q := fun _ _ => True) ?_ fun _ _ _ _ => trivial
    rw [handleQueryProto,expand_bind]
    refine Keeps.bind (Q := fun _ _ => True) ?_ fun _ _ _ _ => trivial
    unfold resolveQuery
    split
    · trivial
    · exact answerAsked_obtains hmode _
  | prime => exact (keeps_seeking (lookups_sat (fun _ => trivial) _) (.inl unstored_nil)).bind fun _ _ _ _ => trivial
  | probe =>
    refine Keeps.bind (Q := fun _ _ => True) ?_ fun _ _ _ _ => trivial
    rw [recoveryProbeOnce,if_neg (not_not.mpr hmode)]
    refine ⟨trivial,fun (active : Nat) _ => ?_⟩
    have hs : Unstored [⟨.startTier,active⟩] := fun tier hm => nomatch mem_singleton.mp hm
    dsimp only [Prog.bind]
    split_ifs with hr
    · trivial
    · refine (keeps_seeking (rootsValidate_sat trivial fun _ => trivial) (.inl hs)).bind fun now valid _ hn => ?_
      obtain ⟨new,rfl,-,hne⟩ := hn
      cases valid with
      | true => exact (noteAutoWinner_obtains 0).mono fun _ _ _ _ => trivial
      | false =>
        rw [if_neg Bool.false_ne_true]
        split
        · trivial
        · split
          · trivial
          · exact probeTiers_obtains _ (hs.append hne)

end

section

inductive Datum where
  | answer (key : Text) (records : List DnsRecord)
  | negative (key : Text) (kind : NegativeKind)
  | record (key : Name × List UInt8) (records : List Record) (secure : Bool)
  | delegation (zone : Name) (servers : List IpAddr)
  | trust (zone : Name) (state : TrustState)

/-- The datum is cached. Answers from the server's own records do not count. -/
def Holds (s : AutoState) : Datum → Prop
  | .answer key records => ∃ until_,(key,⟨⟨records,false⟩,until_⟩)∈s.answers.memory
  | .negative key kind => ∃ until_,(key,⟨kind,until_⟩)∈s.answers.negatives
  | .record key records secure => ∃ until_,(key,⟨⟨records,secure⟩,until_⟩)∈s.resolver.records
  | .delegation zone servers => ∃ until_,(zone,⟨servers,until_⟩)∈s.resolver.delegations
  | .trust zone state => ∃ until_,(zone,⟨state,until_⟩)∈s.resolver.keys

def written (lib : Library) : AutoOp → Option Datum
  | .server (.held (.cacheInsert name kind records _)) => some (.answer (cacheKey name kind) records)
  | .server (.held (.cacheInsertNegative name kind negative _)) => some (.negative (cacheKey name kind) negative)
  | .lookup (.recordInsert name rtype records secure) => some (.record (RecordCache.key lib name rtype) records secure)
  | .lookup (.delegationInsert zone servers _) => some (.delegation zone servers)
  | .lookup (.keyInsert zone state _) => some (.trust zone state)
  | _ => none

def Flushes : AutoOp → Datum → Prop
  | .flushAnswers, .answer .. | .flushAnswers, .negative .. | .flushDelegations, .delegation .. | .flushRecords,
    .record .. => True
  | _, _ => False

variable {s s' : AutoState} {d : Datum}

structure Shrinks (s s' : AutoState) : Prop where
  memory : s'.answers.memory⊆s.answers.memory
  negatives : s'.answers.negatives⊆s.answers.negatives
  records : s'.resolver.records⊆s.resolver.records
  delegations : s'.resolver.delegations⊆s.resolver.delegations
  keys : s'.resolver.keys⊆s.resolver.keys

theorem Shrinks.refl (s : AutoState) : Shrinks s s :=
  ⟨List.Subset.refl _,List.Subset.refl _,List.Subset.refl _,List.Subset.refl _,List.Subset.refl _⟩

theorem Shrinks.holds (h : Shrinks s s') (hd : Holds s' d) : Holds s d := by
  cases d with
  | answer key records => exact hd.imp fun _ hm => h.memory hm
  | negative key kind => exact hd.imp fun _ hm => h.negatives hm
  | record key records secure => exact hd.imp fun _ hm => h.records hm
  | delegation zone servers => exact hd.imp fun _ hm => h.delegations hm
  | trust zone state => exact hd.imp fun _ hm => h.keys hm

theorem Holds.of_answers {answers : AnswerCache} (hd : Holds { s with answers := answers } d)
    (hm : answers.memory⊆s.answers.memory) (hn : answers.negatives⊆s.answers.negatives) : Holds s d := by
  have hs : Shrinks s { s with answers := answers } :=
    ⟨hm,hn,List.Subset.refl _,List.Subset.refl _,List.Subset.refl _⟩
  exact hs.holds hd

theorem Holds.of_resolver {w : World} (hd : Holds { s with resolver := w } d) (hr : w.records⊆s.resolver.records)
    (hde : w.delegations⊆s.resolver.delegations) (hk : w.keys⊆s.resolver.keys) : Holds s d := by
  have hs : Shrinks s { s with resolver := w } := ⟨List.Subset.refl _,List.Subset.refl _,hr,hde,hk⟩
  exact hs.holds hd

theorem holds_of_perform {held : (o : LocalOp) → LocalRes o} {now : Nat} {o : LocalOp}
    (hd : Holds { s with answers := (s.answers.perform held now o).2 } d) :
    written cfg.resolver.lib (.server (.held o))=some d ∨ Holds s d := by
  cases o with
  | cacheLookup name kind =>
    refine .inr (hd.of_answers ?_ ?_)
    · rw [AnswerCache.perform,memory_lookup]
      exact get_subset
    · rw [AnswerCache.perform,AnswerCache.lookup]
      split <;> exact List.Subset.refl _
  | cacheLookupLocalOnly name kind =>
    refine .inr (hd.of_answers ?_ ?_)
    · rw [AnswerCache.perform,memory_lookupLocalOnly]
      exact get_subset
    · rw [AnswerCache.perform,AnswerCache.lookupLocalOnly]
      split <;> exact List.Subset.refl _
  | cacheLookupNegative name kind => exact .inr (hd.of_answers (List.Subset.refl _) get_subset)
  | cacheInvalidateNegative name => exact .inr (hd.of_answers (List.Subset.refl _) filter_sublist.subset)
  | cacheInsert name kind records ttl =>
    rw [AnswerCache.perform,AnswerCache.insert] at hd
    split at hd
    · exact .inr hd
    · cases d with
      | answer key cached =>
        obtain ⟨until_,hm⟩ := hd
        rcases mem_put hm with heq | hm
        · cases heq
          exact .inl rfl
        · exact .inr ⟨until_,hm⟩
      | _ => exact .inr hd
  | cacheInsertLocal name kind records =>
    rw [AnswerCache.perform,AnswerCache.insertLocal] at hd
    split at hd
    · exact .inr hd
    · cases d with
      | answer key cached =>
        obtain ⟨until_,hm⟩ := hd
        rcases mem_put hm with heq | hm
        · cases heq
        · exact .inr ⟨until_,hm⟩
      | _ => exact .inr hd
  | cacheInsertNegative name kind negative ttl =>
    rw [AnswerCache.perform,AnswerCache.insertNegative] at hd
    split at hd
    · exact .inr hd
    · cases d with
      | negative key cached =>
        obtain ⟨until_,hm⟩ := hd
        rcases mem_put hm with heq | hm
        · cases heq
          exact .inl rfl
        · exact .inr ⟨until_,hm⟩
      | _ => exact .inr hd
  | _ => exact .inr hd

theorem holds_of_lookup {o : Op} {r : Res o} (h : acts cfg.resolver s.resolver o r s'.resolver)
    (hs : s'={ s with resolver := s'.resolver })
    (hd : Holds s' d) : written cfg.resolver.lib (.lookup o)=some d ∨ Holds s d := by
  rw [hs] at hd
  cases o with
  | recordGet name rtype =>
    obtain ⟨hg,hw⟩ := h
    rw [hw] at hd
    refine .inr (hd.of_resolver ?_ (List.Subset.refl _) (List.Subset.refl _))
    rw [show s'.resolver.records =
      (s.resolver.records.getWithProof cfg.resolver.lib s.resolver.clock name rtype).2 from congrArg Prod.snd hg]
    exact RecordCache.getWithProof_subset
  | keyGet zone =>
    obtain ⟨e,hg,-,hw⟩ := h
    rw [hw] at hd
    refine .inr (hd.of_resolver (List.Subset.refl _) (List.Subset.refl _) ?_)
    rw [show s'.resolver.keys=(ExpiringMap.get s.resolver.keys s.resolver.clock zone).2 from congrArg Prod.snd hg]
    exact get_subset
  | delegationMatch name =>
    obtain ⟨hma,hw⟩ := h
    rw [hw] at hd
    refine .inr (hd.of_resolver (List.Subset.refl _) ?_ (List.Subset.refl _))
    rw [show s'.resolver.delegations=(s.resolver.delegations.bestMatch s.resolver.clock name).2
      from congrArg Prod.snd hma]
    exact DelegationCache.bestMatchFrom_subset _ _
  | delegationInvalidate zone =>
    rw [show s'.resolver=_ from h] at hd
    exact .inr (hd.of_resolver (List.Subset.refl _) erase_subset (List.Subset.refl _))
  | recordInsert name rtype records secure =>
    rw [show s'.resolver=_ from h] at hd
    unfold RecordCache.insertWithProof at hd
    cases d with
    | record key cached proved =>
      obtain ⟨until_,hm⟩ := hd
      split_ifs at hm
      · exact .inr ⟨until_,hm⟩
      · exact .inr ⟨until_,hm⟩
      · rcases mem_insert hm with heq | hm
        · cases heq
          exact .inl rfl
        · exact .inr ⟨until_,hm⟩
    | _ => exact .inr hd
  | delegationInsert zone servers ttl =>
    rw [show s'.resolver=_ from h] at hd
    unfold DelegationCache.insert at hd
    cases d with
    | delegation zone' cached =>
      obtain ⟨until_,hm⟩ := hd
      split_ifs at hm
      · exact .inr ⟨until_,hm⟩
      · rcases mem_insert hm with heq | hm
        · cases heq
          exact .inl rfl
        · exact .inr ⟨until_,hm⟩
    | _ => exact .inr hd
  | keyInsert zone state ttl =>
    rw [show s'.resolver=_ from h] at hd
    cases d with
    | trust zone' cached =>
      obtain ⟨until_,hm⟩ := hd
      rcases mem_insert hm with heq | hm
      · cases heq
        exact .inl rfl
      · exact .inr ⟨until_,hm⟩
    | _ => exact .inr hd
  | usableRoots servers | orderServers servers =>
    rw [h.2] at hd
    exact .inr hd
  | swapPrimed =>
    rw [h.2] at hd
    exact .inr (hd.of_resolver (List.Subset.refl _) (List.Subset.refl _) (List.Subset.refl _))
  | _ =>
    rw [show s'.resolver=_ from h] at hd
    exact .inr (hd.of_resolver (List.Subset.refl _) (List.Subset.refl _) (List.Subset.refl _))

/-- After an operation a cache holds what the operation has written, and what it held before unless that was flushed. -/
theorem holds_of_acts {o : AutoOp} {r : AutoRes o} (h : autoActs cfg s o r s') (hd : Holds s' d) :
    written cfg.resolver.lib o=some d ∨ (Holds s d ∧ ¬ Flushes o d) := by
  cases o with
  | server o =>
    cases o with
    | held o =>
      obtain ⟨held,hp,hs⟩ := h
      rw [hs,show s'.answers=_ from congrArg Prod.snd hp] at hd
      exact (holds_of_perform hd).imp_right fun hd => ⟨hd,id⟩
    | _ =>
      rw [show s'=s from h] at hd
      exact .inr ⟨hd,id⟩
  | lookup o => exact (holds_of_lookup h.1 h.2 hd).imp_right fun hd => ⟨hd,id⟩
  | flushAnswers =>
    rw [show s'=_ from h] at hd
    cases d with
    | answer | negative => exact absurd hd.choose_spec not_mem_nil
    | _ => exact .inr ⟨hd,id⟩
  | flushDelegations =>
    rw [show s'=_ from h] at hd
    cases d with
    | delegation => exact absurd hd.choose_spec not_mem_nil
    | _ => exact .inr ⟨hd,id⟩
  | flushRecords =>
    rw [show s'=_ from h] at hd
    cases d with
    | record => exact absurd hd.choose_spec not_mem_nil
    | _ => exact .inr ⟨hd,id⟩
  | startTier | noteTier | addStreak =>
    rw [h.2] at hd
    exact .inr ⟨Shrinks.holds (Shrinks.refl s) hd,id⟩
  | _ =>
    rw [show s'=_ from h] at hd
    exact .inr ⟨Shrinks.holds (Shrinks.refl s) hd,id⟩

end

section
variable {s : AutoState} {P P' : AutoSession} {d : Datum} {log : List AutoEntry}

def StoresTier : AutoOp → Prop
  | .storeTier _ => True
  | _ => False

/-- A request puts something into a cache only if no other request has switched the tier since it was taken up. When it
switches the tier itself, nothing was put into a cache since it began to flush them, and no trust state is cached. -/
def Clean (cfg : AutoConfig) (P : AutoSession) (e : AutoEntry) : Prop :=
  ((written cfg.resolver.lib e.event.1).isSome → ∀ y∈P.log.drop e.born,StoresTier y.event.1 → y.id=e.id) ∧
  (StoresTier e.event.1 → P.state.resolver.keys=[] ∧ ∃ before first rest,P.log=before++first::rest ∧ first.id=e.id ∧
    first.event=⟨.flushAnswers,()⟩ ∧ ∀ y∈rest,written cfg.resolver.lib y.event.1=none)

/-- The datum was put into its cache after the last switch. The request that did so was taken up after the
last switch or has made it itself, and got the datum since or from the tier that it switched to. -/
def Fresh (cfg : AutoConfig) (log : List AutoEntry) (d : Datum) : Prop :=
  ∃ before x after,log=before++x::after ∧ written cfg.resolver.lib x.event.1=some d ∧
    (∀ y∈after,¬ StoresTier y.event.1) ∧
    (∀ y∈before.drop x.born,StoresTier y.event.1 → y.id=x.id) ∧ obtains cfg x.past x.event.1

/-- The operation neither flushes the datum nor switches the tier. -/
def Leaves (d : Datum) (e : AutoEntry) : Prop := ¬ Flushes e.event.1 d ∧ ¬ StoresTier e.event.1

/-- The datum was there from the start or is the work of an operation, and has been left alone since. -/
def Current (cfg : AutoConfig) (s : AutoState) (log : List AutoEntry) (d : Datum) : Prop :=
  (Holds s d ∧ ∀ y∈log,Leaves d y) ∨
  ∃ before x after,log=before++x::after ∧ written cfg.resolver.lib x.event.1=some d ∧ (∀ y∈after,Leaves d y) ∧
    ∀ y∈before.drop x.born,StoresTier y.event.1 → y.id=x.id

theorem Current.extend {e : AutoEntry} (h : Current cfg s log d) (he : Leaves d e) : Current cfg s (log++[e]) d := by
  have hc {entries : List AutoEntry} (hen : ∀ y∈entries,Leaves d y) : ∀ y∈entries++[e],Leaves d y := by
    intro y hy
    rcases mem_append.mp hy with hy | hy
    · exact hen y hy
    · rw [mem_singleton.mp hy]
      exact he
  rcases h with ⟨hh,hl⟩ | ⟨before,x,after,rfl,hw,ha,ho⟩
  · exact .inl ⟨hh,hc hl⟩
  · exact .inr ⟨before,x,after++[e],by simp,hw,hc ha,ho⟩

/-- What a request does and from where it has what it does. -/
def accounts (cfg : AutoConfig) (request : Request) (past : AutoPast) (o : AutoOp) : Prop :=
  contract cfg request past o ∧ obtains cfg past o

/-- Where a tier may be stored, the request has just flushed. -/
theorem flushed_of_contract {request : Request} {past : AutoPast} {tier : Nat}
    (h : contract cfg request past (.storeTier tier)) :
    ∃ before,past=before++flushed := by
  cases request with
  | query | probe | prime =>
    obtain ⟨before,active,between,-,rfl,-⟩ := h
    exact ⟨_,rfl⟩

/-- A flush of answers is followed by the flushes of delegations and records. -/
theorem mem_flushed {before rest own : AutoPast} (h : own++flushed=before++⟨.flushAnswers,()⟩::rest) :
    ⟨.flushDelegations,()⟩∈rest ∧ ⟨.flushRecords,()⟩∈rest := by
  rcases append_eq_append_iff.mp h with ⟨extra,rfl,heq⟩ | ⟨extra,rfl,heq⟩
  · match extra with
    | [] =>
      obtain ⟨-,rfl⟩ := cons.inj heq
      simp
    | [_] | [_,_] => cases heq
    | _::_::_::extra => simp [flushed] at heq
  · match extra with
    | [] =>
      obtain ⟨-,rfl⟩ := cons.inj heq
      simp
    | _::extra =>
      obtain ⟨-,rfl⟩ := cons.inj heq
      simp [flushed]

theorem not_holds_at_switch {t : Task Request AutoOp AutoRes (Option Bytes)} {tier : Nat}
    (hrc : Recorded (accounts cfg) P)
    (hc : ∀ d,Holds P.state d → Current cfg s P.log d) (ht : t∈P.tasks)
    (ha : contract cfg t.label t.past (.storeTier tier))
    (hcl : Clean cfg P (t.entry (.storeTier tier) ())) : ¬ Holds P.state d := by
  obtain ⟨hk,before,first,rest,hl,hid,hf,hre⟩ := hcl.2 trivial
  obtain ⟨own,ho⟩ := flushed_of_contract ha
  have hp : own++flushed=ownEvents before t.id++⟨.flushAnswers,()⟩::ownEvents rest t.id := by
    rw [← ho,← hrc.own t ht,hl,ownEvents_append,← hf]
    have hfi : decide (first.id=t.id)=true := decide_eq_true hid
    simp [ownEvents,hfi,map_cons]
  obtain ⟨hde,hr⟩ := mem_flushed hp
  have hfu (hd : ∀ zone state,d ≠ .trust zone state) : ∃ y∈first::rest,Flushes y.event.1 d := by
    cases d with
    | answer | negative => exact ⟨first,mem_cons_self,by rw [hf]; trivial⟩
    | delegation =>
      obtain ⟨y,hy,-,he⟩ := mem_ownEvents hde
      exact ⟨y,mem_cons_of_mem _ hy,by rw [he]; trivial⟩
    | record =>
      obtain ⟨y,hy,-,he⟩ := mem_ownEvents hr
      exact ⟨y,mem_cons_of_mem _ hy,by rw [he]; trivial⟩
    | trust zone state => exact absurd rfl (hd zone state)
  intro hh
  cases d with
  | trust zone state =>
    obtain ⟨until_,hm⟩ := hh
    rw [hk] at hm
    cases hm
  | _ =>
    obtain ⟨y,hy,hfl⟩ := hfu (by rintro _ _ ⟨⟩)
    rcases hc _ hh with ⟨-,hle⟩ | ⟨before',x,after,hl',hw,haf,-⟩
    · exact (hle y (by rw [hl]; exact mem_append_right _ hy)).1 hfl
    · -- nothing is written from the flush on, so that what is held was written before it
      rcases append_eq_append_iff.mp (hl.symm.trans hl') with ⟨extra,-,heq⟩ | ⟨extra,-,heq⟩
      · have hx : x∈first::rest := by rw [heq]; simp
        rcases mem_cons.mp hx with rfl | hx
        · rw [hf] at hw
          cases hw
        · rw [hre x hx] at hw
          cases hw
      · cases extra with
        | nil =>
          obtain ⟨rfl,-⟩ := cons.inj heq
          rw [hf] at hw
          cases hw
        | cons _ extra =>
          obtain ⟨-,rfl⟩ := cons.inj heq
          exact (haf y (mem_append_right _ hy)).1 hfl

theorem current_step (hr : Recorded (accounts cfg) P) (h : ∀ d,Holds P.state d → Current cfg s P.log d)
    (hst : Advance (server cfg) (Clean cfg) P P') : ∀ d,Holds P'.state d → Current cfg s P'.log d := by
  cases hst with
  | call s tasks log calls had | leave s before after log calls t => exact h
  | drift tasks log calls hdr =>
    intro d hd
    have hs : Shrinks _ _ :=
      ⟨hdr.memory,hdr.negatives,hdr.resolver.records,hdr.resolver.delegations,hdr.resolver.keys⟩
    exact h d (hs.holds hd)
  | @act _ _ before after log calls t o next r hre hac ha =>
    intro d hd
    rcases holds_of_acts hac hd with hw | ⟨hh,hf⟩
    · exact .inr ⟨log,t.entry o r,[],rfl,hw,forall_mem_nil _,ha.1 (Option.isSome_iff_exists.mpr ⟨d,hw⟩)⟩
    · have hse : t∈before++t::after := by simp
      have hk := hr.keeps t hse
      rw [hre] at hk
      cases o with
      | storeTier tier => exact absurd hh (not_holds_at_switch hr h hse hk.1.1 ha)
      | _ => exact (h d hh).extend ⟨hf,id⟩

/-- In a run that is clean throughout, everything that is cached after a switch is fresh. -/
theorem switch_leaves_nothing {s : AutoState} (hmode : cfg.server.mode=.auto)
    (hcourse : Course (server cfg) (Clean cfg) (.initial s) P) (hswitched : ∃ y∈P.log,StoresTier y.event.1)
    (hd : Holds P.state d) :
    Fresh cfg P.log d := by
  have hp : ∀ request,Keeps (lookingBack (accounts cfg request)) [] ((server cfg).program request) fun _ _ => True :=
    fun request => (keeps_and (program_keeps request) (program_obtains hmode request)).mono fun _ _ _ _ => trivial
  have hi : ∀ d,Holds s d → Current cfg s [] d := fun d hd => .inl ⟨hd,forall_mem_nil _⟩
  obtain ⟨hr,hc⟩ := Course.holds (fun P => ∀ d,Holds P.state d → Current cfg s P.log d) hp hi
    (fun _ _ hr h hst => current_step hr h hst) hcourse
  rcases hc d hd with ⟨-,hl⟩ | ⟨before,x,after,hlo,hw,ha,ho⟩
  · obtain ⟨y,hy,hs⟩ := hswitched
    exact absurd hs (hl y hy).2
  · exact ⟨before,x,after,hlo,hw,fun y hy => (ha y hy).2,ho,(hr.entries before x after hlo).2.2.2⟩

end

section

open AuthenticData

instance : DecidablePred StoresTier := fun o => by cases o <;> unfold StoresTier <;> infer_instance

/-- Looking back over the log, the request has begun to flush the caches and nothing was put into one since. -/
def undisturbed (lib : Library) (id : Nat) : List AutoEntry → Bool
  | [] => false
  | y::ys =>
    (match y.event with
      | ⟨.flushAnswers,_⟩ => y.id == id
      | _ => false) || ((written lib y.event.1).isNone && undisturbed lib id ys)

theorem undisturbed_split {lib : Library} {id : Nat} {log : List AutoEntry} (h : undisturbed lib id log.reverse=true) :
    ∃ before first rest,log=before++first::rest ∧ first.id=id ∧ first.event=⟨.flushAnswers,()⟩ ∧
      ∀ y∈rest,written lib y.event.1=none := by
  induction log using reverseRecOn with
  | nil => cases h
  | append_singleton log y ih =>
    rw [reverse_append,reverse_singleton,singleton_append,undisturbed,Bool.or_eq_true,Bool.and_eq_true] at h
    rcases h with h | ⟨hw,h⟩
    · split at h
      · rename_i heq
        exact ⟨log,y,[],rfl,by simpa using h,heq,forall_mem_nil _⟩
      · cases h
    · obtain ⟨before,first,rest,rfl,hid,hf,hr⟩ := ih h
      refine ⟨before,first,rest++[y],by simp,hid,hf,fun y' hy' => ?_⟩
      rcases mem_append.mp hy' with hy' | hy'
      · exact hr y' hy'
      · rw [mem_singleton.mp hy']
        exact Option.isNone_iff_eq_none.mp hw

def clean (P : AutoSession) (e : AutoEntry) : Bool :=
  ((written twoTiers.resolver.lib e.event.1).isNone || (P.log.drop e.born).all fun y =>
    decide (StoresTier y.event.1 → y.id=e.id)) &&
  (!decide (StoresTier e.event.1) || (P.state.resolver.keys.isEmpty &&
    undisturbed twoTiers.resolver.lib e.id P.log.reverse))

theorem clean_sound {P : AutoSession} {e : AutoEntry} (h : clean P e=true) : Clean twoTiers P e := by
  rw [clean,Bool.and_eq_true,Bool.or_eq_true,Bool.or_eq_true,all_eq_true,Bool.and_eq_true] at h
  obtain ⟨hw,hs⟩ := h
  constructor
  · intro hso y hy hs
    rcases hw with hn | ha
    · rw [Option.isNone_iff_eq_none.mp hn] at hso
      cases hso
    · exact of_decide_eq_true (ha y hy) hs
  · intro hst
    rcases hs with hno | ⟨hk,hf⟩
    · simp [hst] at hno
    · exact ⟨isEmpty_iff.mp hk,undisturbed_split hf⟩

def cachedAnswers (s : AutoState) : List Datum :=
  s.answers.memory.filterMap fun e => if e.2.value.isLocal then none else some (.answer e.1 e.2.value.records)

theorem holds_of_cachedAnswers {s : AutoState} {d : Datum} (h : d∈cachedAnswers s) :
    Holds s d ∧ ∃ key records,d=.answer key records := by
  obtain ⟨⟨key,⟨⟨records,own⟩,until_⟩⟩,hm,hd⟩ := mem_filterMap.mp h
  cases own with
  | true => cases hd
  | false =>
    cases hd
    exact ⟨⟨until_,hm⟩,key,records,rfl⟩

def switchingRun (check : AutoSession → AutoEntry → Bool) (s : AutoState) : Option AutoSession :=
  rehearse ⟨fun _ _ => none,some vouchedABytes,fun _ => true⟩ check s (.call (askedOver .udp)::replicate 28 (.step 0))

theorem switch_leaves_nothing_answer :
    ∃ P d,switchingRun clean ⟨.fresh [] 0,.empty,0,0⟩=some P ∧ Holds P.state d ∧ Fresh twoTiers P.log d := by
  have hr : (switchingRun clean ⟨.fresh [] 0,.empty,0,0⟩).any (fun P =>
      P.log.any (fun y => decide (StoresTier y.event.1)) && !(cachedAnswers P.state).isEmpty)=true := by
    decide +kernel
  obtain ⟨P,hP,hc⟩ := (Option.any_eq_true _ _).mp hr
  rw [Bool.and_eq_true,any_eq_true] at hc
  obtain ⟨⟨y,hy,hs⟩,hca⟩ := hc
  obtain ⟨d,hd⟩ := exists_mem_of_ne_nil (cachedAnswers P.state) (by simpa using hca)
  have hh := (holds_of_cachedAnswers hd).1
  have hco : Course (server twoTiers) (Clean twoTiers) (.initial _) P := course_rehearse (fun _ _ => clean_sound) hP
  exact ⟨P,d,hP,hh,switch_leaves_nothing rfl hco ⟨y,hy,of_decide_eq_true hs⟩ hh⟩

/-- The roots are committed and the trust state of the root zone is cached. -/
def trustKnown : AutoState := ⟨{ World.fresh [] 0 with keys := KeyCache.insert [] 0 .root .insecure 300 },.empty,0,0⟩

/-- A query has the answer of the forwarder and has noted it. A probe brings the roots back before the
answer is cached. -/
def overtakenRun : Option AutoSession :=
  rehearse ⟨rootsOnly,some vouchedABytes,fun _ => false⟩ (fun _ _ => true) ⟨.fresh [] 0,.empty,1,0⟩
    (.call (askedOver .udp)::replicate 20 (.step 0) ++ .call .probe::replicate 44 (.step 0)++[.step 1])

def writesAnswer (e : AutoEntry) : Bool :=
  match written twoTiers.resolver.lib e.event.1 with
  | some (.answer _ _) => true
  | _ => false

def writesTrust (e : AutoEntry) : Bool :=
  match written twoTiers.resolver.lib e.event.1 with
  | some (.trust _ _) => true
  | _ => false

/-- The last operation is the first that caches an answer, and another request has switched the tier meanwhile. -/
def overtaken (log : List AutoEntry) : Bool :=
  match log.reverse with
  | [] => false
  | e::before => before.all (fun y => !writesAnswer y) && decide (e.born=0) &&
      before.any fun y => decide (StoresTier y.event.1) && decide (y.id≠e.id)

theorem not_fresh_of_overtaken {log : List AutoEntry} (h : overtaken log=true) (key : Text) (records : List DnsRecord) :
    ¬ Fresh twoTiers log (.answer key records) := by
  rintro ⟨before,x,after,rfl,hw,-,ho,-⟩
  unfold overtaken at h
  split at h
  · cases h
  · rename_i e earlier hr
    simp only [Bool.and_eq_true,all_eq_true,any_eq_true,decide_eq_true_eq] at h
    obtain ⟨⟨hn,hb⟩,y,hy,hs,hid⟩ := h
    have hwr : writesAnswer x=true := by rw [writesAnswer,hw]
    rcases eq_nil_or_concat after with rfl | ⟨after,last,rfl⟩
    · rw [reverse_append,reverse_singleton,singleton_append] at hr
      obtain ⟨rfl,rfl⟩ := cons.inj hr
      exact hid (ho y (by rw [hb]; exact mem_reverse.mp hy) hs)
    · -- the writer is not the last operation, but only that one writes
      simp only [concat_eq_append,reverse_append,reverse_cons,reverse_nil,nil_append,
        cons_append,append_assoc] at hr
      obtain ⟨-,rfl⟩ := cons.inj hr
      have hx := hn x (by simp)
      rw [hwr] at hx
      cases hx

/-- After a switch, trust states from before it are still cached; and an answer can be cached after a switch
that was got from another tier before it. -/
theorem switch_leaves_stale :
    (∃ P,Course (server twoTiers) (fun _ _ => True) (.initial trustKnown) P ∧ (∃ y∈P.log,StoresTier y.event.1) ∧
      ∃ d,Holds P.state d ∧ ¬ Fresh twoTiers P.log d) ∧
    ∃ P key records,Course (server twoTiers) (fun _ _ => True) (.initial ⟨.fresh [] 0,.empty,1,0⟩) P ∧
      (∃ y∈P.log,StoresTier y.event.1) ∧ Holds P.state (.answer key records) ∧
        ¬ Fresh twoTiers P.log (.answer key records) := by
  constructor
  · have hr : (switchingRun (fun _ _ => true) trustKnown).any (fun P =>
      P.log.any (fun y => decide (StoresTier y.event.1)) &&
        P.log.all (fun y => !writesTrust y) && !P.state.resolver.keys.isEmpty)=true := by
      decide +kernel
    obtain ⟨P,hP,hc⟩ := (Option.any_eq_true _ _).mp hr
    rw [Bool.and_eq_true,Bool.and_eq_true,any_eq_true,all_eq_true] at hc
    obtain ⟨⟨⟨y,hy,hs⟩,hn⟩,hk⟩ := hc
    obtain ⟨⟨zone,state,until_⟩,hm⟩ := exists_mem_of_ne_nil P.state.resolver.keys (by simpa using hk)
    refine ⟨P,course_rehearse (fun _ _ _ => trivial) hP,⟨y,hy,of_decide_eq_true hs⟩,.trust zone state,⟨until_,hm⟩,?_⟩
    rintro ⟨before,x,after,hl,hw,-⟩
    have hx := hn x (by rw [hl]; simp)
    rw [writesTrust,hw] at hx
    cases hx
  · have hr : overtakenRun.any (fun P => P.log.any (fun y => decide (StoresTier y.event.1)) && overtaken P.log &&
        !(cachedAnswers P.state).isEmpty)=true := by
      decide +kernel
    obtain ⟨P,hP,hc⟩ := (Option.any_eq_true _ _).mp hr
    rw [Bool.and_eq_true,Bool.and_eq_true,any_eq_true] at hc
    obtain ⟨⟨⟨y,hy,hs⟩,ho⟩,hca⟩ := hc
    obtain ⟨d,hd⟩ := exists_mem_of_ne_nil (cachedAnswers P.state) (by simpa using hca)
    obtain ⟨hh,key,records,rfl⟩ := holds_of_cachedAnswers hd
    exact ⟨P,key,records,course_rehearse (fun _ _ _ => trivial) hP,⟨y,hy,of_decide_eq_true hs⟩,hh,
      not_fresh_of_overtaken ho key records⟩

end

end RolodexDns.TierFlushes
