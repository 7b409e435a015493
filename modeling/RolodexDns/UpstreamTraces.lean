import RolodexDns.QueryHandling

/-! What comes in from off the box while a query is handled. Upstream resolution goes on with the
first thing it accepts and with nothing else: a reply, which becomes the response as it is, or a
result of the server's own resolver. -/
namespace RolodexDns.UpstreamTraces
open DnsRecords ResponseReading ProgramTraces StoredRecords WireMessages List
open ServerOperations UpstreamResolution

/-- What an operation brings in: a reply to a query, or a result that the resolver answers with. -/
inductive Incoming where
  | reply (queryData : Bytes) (sender : Upstream) (bytes : Bytes)
  | result (question : Query) (res : Resolution)

def Incoming.isResult : Incoming → Bool
  | reply .. => false
  | result .. => true

variable (cfg : ServerConfig) (log : ServerLog)

def incoming : ((o : ServerOp) × ServerRes o) → Option Incoming
  | ⟨.exchangeUdp sender queryData sent,datagrams⟩ =>
    (pickDatagram cfg.lib sender.addr sent datagrams).map (.reply queryData sender)
  | ⟨.exchangeProxied sender queryData,reply⟩ => Option.map (.reply queryData sender) reply
  | ⟨.exchangeTcp f queryData,reply⟩ => (framedReply reply).map (.reply queryData (.forwarder f))
  | ⟨.exchangeSecure f queryData,reply⟩ => (secureReply f queryData reply).map (.reply queryData (.forwarder f))
  | ⟨.resolve name qtype qclass,.ok res⟩ => some (.result ⟨name,qtype,qclass⟩ res)
  | ⟨.resolveWithin name qtype qclass,some (.ok res)⟩ =>
    if answersTier res then some (.result ⟨name,qtype,qclass⟩ res) else none
  | _ => none

/-- In forward mode a forwarder's reply is taken whatever it is; a tier's and a peer's has to be
definitive. -/
def takes : Incoming → Bool
  | .reply _ (.peer _) bytes => responseIsDefinitive cfg.lib bytes
  | .reply _ (.forwarder _) bytes => cfg.mode=.forward || responseIsDefinitive cfg.lib bytes
  | .result _ _ => true

def accepted (e : (o : ServerOp) × ServerRes o) : Option Incoming :=
  (incoming cfg e).filter (takes cfg)

def cacheHit : ((o : ServerOp) × ServerRes o) → Option (List DnsRecord)
  | ⟨.held (.cacheLookup _ _),records⟩ => if records.isEmpty then none else some records
  | _ => none

def NotesDown : ServerOp → Prop
  | .held (.cacheInsert ..) | .held (.cacheInsertNegative ..) => True
  | .noteAutoWinner _ | .recordSuccess _ | .recordFailure _ => True
  | _ => False

/-- Nothing is accepted here, and the answer cache is not read. -/
def Quiet : Prop := Silent (accepted cfg) log ∧ Silent cacheHit log

section
variable {cfg : ServerConfig} {e : (o : ServerOp) × ServerRes o} {log first rest : ServerLog}

theorem accepted_eq_none_of_notesDown (h : NotesDown e.1) : accepted cfg e=none := by
  obtain ⟨o,r⟩ := e
  cases o <;> first | rfl | cases h

theorem cacheHit_eq_none_of_notesDown (h : NotesDown e.1) : cacheHit e=none := by
  obtain ⟨o,r⟩ := e
  cases o with
  | held o => cases o <;> first | rfl | cases h
  | _ => rfl

theorem cacheHit_eq_none_of_accepted {inc : Incoming} (h : accepted cfg e=some inc) : cacheHit e=none := by
  obtain ⟨o,r⟩ := e
  cases o <;> first | rfl | cases h

theorem quiet_nil : Quiet cfg [] := ⟨forall_mem_nil _,forall_mem_nil _⟩

theorem Quiet.append (h : Quiet cfg first) (h' : Quiet cfg rest) : Quiet cfg (first++rest) :=
  ⟨h.1.append h'.1,h.2.append h'.2⟩

theorem quiet_of_notesDown (h : ∀ x∈log,NotesDown x.1) : Quiet cfg log :=
  ⟨fun x hx => accepted_eq_none_of_notesDown (h x hx),fun x hx => cacheHit_eq_none_of_notesDown (h x hx)⟩

theorem quiet_singleton (h : accepted cfg e=none) (h' : cacheHit e=none) : Quiet cfg [e] :=
  ⟨forall_mem_singleton.mpr h,forall_mem_singleton.mpr h'⟩

theorem silent_held {α : Type} {p : LocalProg α} {a : α} (h : Yields (ServerProg.held p) log a) :
    Silent (accepted cfg) log := by
  have hs : (ServerProg.held p).Only (fun o => ∃ l,o=.held l) :=
    sat_lift (sat_of_forall (fun o => ⟨o,rfl⟩) p)
  rintro ⟨o,r⟩ he
  obtain ⟨l,rfl⟩ := h.demands hs _ he
  rfl

end

/-- Nothing is accepted, or exactly this is, with nothing but notes after it. -/
def Gets : Option Incoming → Prop
  | none => Quiet cfg log
  | some inc => ∃ before e after,log=before++e::after ∧ Quiet cfg before ∧
      accepted cfg e=some inc ∧ ∀ x∈after,NotesDown x.1

section
variable {cfg : ServerConfig} {first rest log : ServerLog} {inc : Option Incoming}

theorem Gets.after_quiet (hf : Quiet cfg first) (h : Gets cfg rest inc) :
    Gets cfg (first++rest) inc := by
  cases inc with
  | none => exact hf.append h
  | some inc =>
    obtain ⟨before,e,after,rfl,hb,he,ha⟩ := h
    exact ⟨first++before,e,after,by simp,hf.append hb,he,ha⟩

theorem Gets.noted {inc : Incoming} (h : Gets cfg first (some inc)) (hr : ∀ x∈rest,NotesDown x.1) :
    Gets cfg (first++rest) (some inc) := by
  obtain ⟨before,e,after,rfl,hb,he,ha⟩ := h
  refine ⟨before,e,after++rest,by simp,hb,he,fun x hx => ?_⟩
  rcases mem_append.mp hx with hx | hx
  · exact ha x hx
  · exact hr x hx

variable {e : (o : ServerOp) × ServerRes o}

theorem gets_singleton (h : cacheHit e=none) : Gets cfg [e] (accepted cfg e) := by
  cases he : accepted cfg e with
  | none => exact quiet_singleton he h
  | some inc => exact ⟨[],e,[],rfl,quiet_nil,he,forall_mem_nil _⟩

/-- What is got is the first thing that is accepted, and only notes come after it. -/
theorem Gets.firstOf_append {inc : Incoming} (h : Gets cfg log (some inc)) :
    ∃ after,(∀ rest,firstOf (accepted cfg) (log++rest)=some (inc,after++rest)) ∧ ∀ x∈after,NotesDown x.1 := by
  obtain ⟨before,e,after,rfl,hb,he,ha⟩ := h
  refine ⟨after,fun rest => ?_,ha⟩
  rw [append_assoc,hb.1.firstOf_append]
  exact firstOf_cons he _

theorem Gets.exists_accepted {inc : Incoming} (h : Gets cfg log (some inc)) :
    ∃ e∈log,accepted cfg e=some inc := by
  obtain ⟨before,e,after,rfl,-,he,-⟩ := h
  exact ⟨e,by simp,he⟩

theorem Gets.eq_of_accepted (h : Gets cfg log inc)
    (he : e∈log) {inc' : Incoming} (hi : accepted cfg e=some inc') :
    inc=some inc' := by
  cases inc with
  | none =>
    rw [h.1 e he] at hi
    cases hi
  | some inc =>
    obtain ⟨before,e',after,rfl,hb,he',ha⟩ := h
    rcases mem_append.mp he with he | he
    · rw [hb.1 e he] at hi
      cases hi
    · rcases mem_cons.mp he with rfl | he
      · rw [← hi,he']
      · rw [accepted_eq_none_of_notesDown (ha e he)] at hi
        cases hi

theorem Gets.silent_cacheHit (h : Gets cfg log inc) : Silent cacheHit log := by
  cases inc with
  | none => exact h.2
  | some inc =>
    obtain ⟨before,e,after,rfl,hb,he,ha⟩ := h
    refine hb.2.append fun x hx => ?_
    rcases mem_cons.mp hx with rfl | hx
    · exact cacheHit_eq_none_of_accepted he
    · exact cacheHit_eq_none_of_notesDown (ha x hx)

end

/-- How what comes in becomes a response to the query. -/
inductive Becomes (cfg : ServerConfig) (queryData : Bytes) (ctx : Option EdnsContext) : Incoming → Bytes → Prop where
  | relayed (sender : Upstream) (bytes : Bytes) : Becomes cfg queryData ctx (.reply queryData sender bytes) bytes
  | resolved {message : Packet} {question : Query} (res : Resolution)
      (hmessage : cfg.lib.fromBytes queryData=some message)
      (hquestion : message.queries.head?=some question) :
      Becomes cfg queryData ctx (.result question res) (resolvedResponse cfg message ctx res)

/-- A response, if there is one, is what the trace gets. -/
def PassesOn (queryData : Bytes) (ctx : Option EdnsContext) (log : ServerLog)
    (response : Option Bytes) : Prop :=
  ∃ inc,Gets cfg log inc ∧ Option.Rel (Becomes cfg queryData ctx) inc response

section
variable {cfg : ServerConfig} {queryData bytes : Bytes} {ctx : Option EdnsContext} {log first rest : ServerLog}
  {response : Option Bytes}
  {sender : Upstream}

theorem PassesOn.after_quiet (hf : Quiet cfg first) (h : PassesOn cfg queryData ctx rest response) :
    PassesOn cfg queryData ctx (first++rest) response := by
  obtain ⟨inc,hg,hr⟩ := h
  exact ⟨inc,hg.after_quiet hf,hr⟩

theorem PassesOn.noted (h : PassesOn cfg queryData ctx first (some bytes))
    (hr : ∀ x∈rest,NotesDown x.1) : PassesOn cfg queryData ctx (first++rest) (some bytes) := by
  obtain ⟨_,hg,hre⟩ := h
  cases hre with
  | some hi => exact ⟨_,hg.noted hr,.some hi⟩

theorem passesOn_none_iff : PassesOn cfg queryData ctx log none ↔ Quiet cfg log := by
  constructor
  · rintro ⟨_,hg,hr⟩
    cases hr
    exact hg
  · intro h
    exact ⟨none,h,.none⟩

/-- The response is what the trace gets, or an error if it gets nothing. -/
def Responds (cfg : ServerConfig) (queryData : Bytes) (ctx : Option EdnsContext) (log : ServerLog) (bytes : Bytes) :
    Prop :=
  ∃ response rcode,PassesOn cfg queryData ctx log response ∧
    bytes=response.getD (makeErrorResponse cfg.lib queryData rcode)

theorem responds_error (h : Quiet cfg log) (rcode : ResponseCode) :
    Responds cfg queryData ctx log (makeErrorResponse cfg.lib queryData rcode) :=
  ⟨none,rcode,passesOn_none_iff.mpr h,rfl⟩

theorem Responds.after_quiet (hf : Quiet cfg first) (h : Responds cfg queryData ctx rest bytes) :
    Responds cfg queryData ctx (first++rest) bytes := by
  obtain ⟨response,rcode,hp,hb⟩ := h
  exact ⟨response,rcode,hp.after_quiet hf,hb⟩

/-- The reply of one exchange, before it is known whether it is taken. -/
def Hears (cfg : ServerConfig) (queryData : Bytes) (sender : Upstream) (log : ServerLog) (response : Option Bytes) :
    Prop :=
  Gets cfg log ((response.map (.reply queryData sender)).filter (takes cfg))

theorem Hears.passesOn (h : Hears cfg queryData sender log (some bytes))
    (ht : takes cfg (.reply queryData sender bytes)=true) : PassesOn cfg queryData ctx log (some bytes) := by
  have hg : Gets cfg log (Option.filter (takes cfg) (some (.reply queryData sender bytes))) := h
  rw [Option.filter_some_pos ht] at hg
  exact ⟨_,hg,.some (.relayed sender bytes)⟩

theorem Hears.quiet (h : Hears cfg queryData sender log (some bytes))
    (ht : takes cfg (.reply queryData sender bytes)=false) : Quiet cfg log := by
  have hg : Gets cfg log (Option.filter (takes cfg) (some (.reply queryData sender bytes))) := h
  rwa [Option.filter_some_neg ht] at hg

theorem spellQuery_quiet {sent : Bytes} (h : Yields (spellQuery cfg queryData) log sent) : Quiet cfg log := by
  unfold spellQuery at h
  split_ifs at h
  · obtain ⟨randomized,rest,hr,rfl⟩ := h.perform_bind_inv
    rw [hr.pure_inv.1]
    exact quiet_singleton rfl rfl
  · rw [h.pure_inv.1]
    exact quiet_nil

theorem forwardUdp_hears (h : Yields (forwardUdp cfg sender queryData) log response) :
    Hears cfg queryData sender log response := by
  obtain ⟨sent,first,rest,hf,hr,rfl⟩ := h.bind_inv
  refine Gets.after_quiet (spellQuery_quiet hf) ?_
  split_ifs at hr
  · cases hr
    exact quiet_nil
  · obtain ⟨datagrams,log,hl,rfl⟩ := hr.perform_bind_inv
    cases hl
    exact gets_singleton rfl

theorem forwardOne_hears (h : Yields (forwardOne cfg sender queryData) log response) :
    Hears cfg queryData sender log response := by
  unfold forwardOne at h
  split_ifs at h
  · rw [h.perform_inv]
    exact gets_singleton rfl
  · exact forwardUdp_hears h

theorem queryForwarder_hears {f : Forwarder} (h : Yields (queryForwarder cfg f queryData) log response) :
    Hears cfg queryData (.forwarder f) log response := by
  have hs (h : Yields (querySecure f queryData) log response) : Hears cfg queryData (.forwarder f) log response := by
    unfold querySecure at h
    split_ifs at h
    · cases h
      exact quiet_nil
    · cases h
      exact quiet_nil
    · obtain ⟨reply,log,hl,rfl⟩ := h.perform_bind_inv
      cases hl
      exact gets_singleton rfl
  unfold queryForwarder at h
  cases hf : f.transport <;> rw [hf] at h
  case do53Udp => exact forwardOne_hears h
  case do53Tcp =>
    dsimp only [forwardTcp] at h
    split_ifs at h
    · cases h
      exact quiet_nil
    · obtain ⟨reply,log,hl,rfl⟩ := h.perform_bind_inv
      cases hl
      exact gets_singleton rfl
  all_goals exact hs h

/-- What is kept of a reply is only noted down. -/
theorem cacheAnswers_notes (question : Query) (answers : List Record) :
    (cacheAnswers cfg question answers).Only (fun o => NotesDown (.held o)) := by
  unfold cacheAnswers
  dsimp only
  split_ifs
  · exact ⟨trivial,fun _ _ => trivial⟩
  all_goals trivial

theorem cacheFromWire_notes (h : Yields (ServerProg.held (cacheFromWire cfg bytes)) log ()) :
    ∀ x∈log,NotesDown x.1 := by
  refine h.demands (Q := fun _ => True) (sat_lift ?_)
  unfold cacheFromWire
  cases cfg.lib.fromBytes bytes with
  | none => trivial
  | some msg =>
    dsimp only
    split_ifs
    · cases msg.queries.head? with
      | none => trivial
      | some question => exact cacheAnswers_notes question msg.answers
    · trivial

theorem takes_forwarder (hm : cfg.mode=.forward) (f : Forwarder) (bytes : Bytes) :
    takes cfg (.reply queryData (.forwarder f) bytes)=true := by
  simp [takes,hm]

theorem takes_tier (hm : cfg.mode ≠ .forward) (f : Forwarder) (bytes : Bytes) :
    takes cfg (.reply queryData (.forwarder f) bytes)=responseIsDefinitive cfg.lib bytes := by
  simp [takes,hm]

theorem Hears.quiet_none (h : Hears cfg queryData sender log none) : Quiet cfg log := h

theorem quiet_note {e : (o : ServerOp) × ServerRes o} (h : NotesDown e.1) : Quiet cfg [e] :=
  quiet_singleton (accepted_eq_none_of_notesDown h) (cacheHit_eq_none_of_notesDown h)

theorem forwardQuery_passesOn (hm : cfg.mode=.forward) {fs : List Forwarder}
    (h : Yields (forwardQuery cfg queryData fs) log bytes) :
    Responds cfg queryData ctx log bytes := by
  induction fs generalizing log with
  | nil =>
    cases h
    exact responds_error quiet_nil _
  | cons f fs ih =>
    obtain ⟨reply,first,rest,hre,hr,rfl⟩ := h.bind_inv
    have hh := queryForwarder_hears hre
    cases reply with
    | some reply =>
      obtain ⟨_,tail,ht,rfl⟩ := hr.perform_bind_inv
      obtain ⟨_,noted,last,hn,hl,rfl⟩ := ht.bind_inv
      cases hl
      refine ⟨some bytes,.ServFail,(hh.passesOn (takes_forwarder hm f bytes)).noted ?_,rfl⟩
      rw [append_nil]
      exact forall_mem_cons.mpr ⟨trivial,cacheFromWire_notes hn⟩
    | none =>
      obtain ⟨_,tail,ht,rfl⟩ := hr.perform_bind_inv
      have hno : Quiet cfg [⟨.recordFailure f,()⟩] := quiet_note trivial
      exact ((ih ht).after_quiet hno).after_quiet hh.quiet_none

theorem tierForward_passesOn (hm : cfg.mode ≠ .forward) {fs : List Forwarder}
    (h : Yields (tierForward cfg queryData fs) log response) : PassesOn cfg queryData ctx log response := by
  induction fs generalizing log with
  | nil =>
    cases h
    exact passesOn_none_iff.mpr quiet_nil
  | cons f fs ih =>
    obtain ⟨usable,asked,ha,rfl⟩ := h.perform_bind_inv
    have has : Quiet cfg [⟨.isUsable f,usable⟩] := quiet_singleton rfl rfl
    refine PassesOn.after_quiet has ?_
    split_ifs at ha
    · obtain ⟨reply,first,rest,hre,hr,rfl⟩ := ha.bind_inv
      have hh := queryForwarder_hears hre
      cases reply with
      | some reply =>
        obtain ⟨_,tail,ht,rfl⟩ := hr.perform_bind_inv
        split_ifs at ht with hd
        · cases ht
          refine (hh.passesOn ((takes_tier hm f reply).trans hd)).noted ?_
          exact forall_mem_singleton.mpr trivial
        · rw [Bool.not_eq_true] at hd
          have hn : Quiet cfg [⟨.recordSuccess f,()⟩] := quiet_note trivial
          exact ((ih ht).after_quiet hn).after_quiet (hh.quiet ((takes_tier hm f reply).trans hd))
      | none =>
        obtain ⟨_,tail,ht,rfl⟩ := hr.perform_bind_inv
        have hn : Quiet cfg [⟨.recordFailure f,()⟩] := quiet_note trivial
        exact ((ih ht).after_quiet hn).after_quiet hh.quiet_none
    · exact ih ha

/-- What a TLD's peers say is passed on if it is definitive. -/
theorem forwardToTldPeers_passesOn {peers : List SocketAddr}
    (h : Yields (forwardToTldPeers cfg queryData peers) log response) : PassesOn cfg queryData ctx log response := by
  induction peers generalizing log with
  | nil =>
    cases h
    exact passesOn_none_iff.mpr quiet_nil
  | cons peer peers ih =>
    obtain ⟨reply,first,rest,hre,hr,rfl⟩ := h.bind_inv
    have hh := forwardOne_hears hre
    cases reply with
    | some reply =>
      dsimp only at hr
      split_ifs at hr with hd
      · cases hr
        rw [append_nil]
        exact hh.passesOn hd
      · rw [Bool.not_eq_true] at hd
        exact (ih hr).after_quiet (hh.quiet hd)
    | none => exact (ih hr).after_quiet hh.quiet_none

end

section
variable {cfg : ServerConfig} {queryData bytes : Bytes} {ctx : Option EdnsContext} {log : ServerLog}
  {message : Packet} {question : Query}
  {res : Resolution}

theorem passesOn_resolved {e : (o : ServerOp) × ServerRes o}
    (hmessage : cfg.lib.fromBytes queryData=some message) (hquestion : message.queries.head?=some question)
    (he : accepted cfg e=some (.result question res)) :
    PassesOn cfg queryData ctx [e] (some (resolvedResponse cfg message ctx res)) :=
  ⟨some (.result question res),⟨[],e,[],rfl,quiet_nil,he,forall_mem_nil _⟩,
    .some (.resolved res hmessage hquestion)⟩

theorem tierRoots_passesOn {response : Option Bytes} (hmessage : cfg.lib.fromBytes queryData=some message)
    (h : Yields (tierRoots cfg message ctx) log response) : PassesOn cfg queryData ctx log response := by
  unfold tierRoots at h
  cases hquestion : message.queries.head? with
  | none =>
    rw [hquestion] at h
    cases h
    exact passesOn_none_iff.mpr quiet_nil
  | some question =>
    rw [hquestion] at h
    obtain ⟨result,rest,hr,rfl⟩ := h.perform_bind_inv
    match result with
    | none | some (.error _) =>
      cases hr
      exact passesOn_none_iff.mpr (quiet_singleton rfl rfl)
    | some (.ok res) =>
      cases hr
      by_cases ht : answersTier res=true
      · rw [if_pos ht]
        exact passesOn_resolved hmessage hquestion (by simp [accepted,incoming,ht,takes])
      · rw [if_neg ht]
        exact passesOn_none_iff.mpr (quiet_singleton (by simp [accepted,incoming,ht]) rfl)

theorem tryTiers_passesOn (hm : cfg.mode ≠ .forward) (hmessage : cfg.lib.fromBytes queryData=some message)
    {tiers : List Nat} (h : Yields (tryTiers cfg queryData message ctx tiers) log bytes) :
    Responds cfg queryData ctx log bytes := by
  induction tiers generalizing log with
  | nil =>
    cases h
    exact responds_error quiet_nil _
  | cons tier tiers ih =>
    obtain ⟨reply,first,rest,hr,hre,rfl⟩ := h.bind_inv
    have hp : PassesOn cfg queryData ctx first reply := by
      cases tier with
      | zero => exact tierRoots_passesOn hmessage hr
      | succ n => exact tierForward_passesOn hm hr
    cases reply with
    | some reply =>
      obtain ⟨_,tail,ht,rfl⟩ := hre.perform_bind_inv
      obtain ⟨_,noted,last,hn,hl,rfl⟩ := ht.bind_inv
      cases hl
      refine ⟨some bytes,.ServFail,hp.noted ?_,rfl⟩
      rw [append_nil]
      exact forall_mem_cons.mpr ⟨trivial,cacheFromWire_notes hn⟩
    | none => exact (ih hre).after_quiet (passesOn_none_iff.mp hp)

theorem autoResolve_passesOn (hm : cfg.mode ≠ .forward)
    (h : Yields (autoResolve cfg queryData ctx) log bytes) :
    Responds cfg queryData ctx log bytes := by
  unfold autoResolve at h
  cases hmessage : cfg.lib.fromBytes queryData with
  | none =>
    rw [hmessage] at h
    cases h
    exact responds_error quiet_nil _
  | some message =>
    rw [hmessage] at h
    dsimp only at h
    split_ifs at h
    · cases h
      exact responds_error quiet_nil _
    · obtain ⟨start,rest,hr,rfl⟩ := h.perform_bind_inv
      have hs : Quiet cfg [⟨.activeTier,start⟩] := quiet_singleton rfl rfl
      exact (tryTiers_passesOn hm hmessage hr).after_quiet hs

theorem cacheResolution_notes
    (h : Yields (ServerProg.held (cacheResolution cfg question res)) log ()) : ∀ x∈log,NotesDown x.1 := by
  refine h.demands (Q := fun _ => True) (sat_lift ?_)
  unfold cacheResolution
  split_ifs
  · exact cacheAnswers_notes question res.answers
  · cases negativeTtl res cfg.defaultTtl with
    | none => trivial
    | some ttl =>
      dsimp only [cacheNegative]
      split_ifs
      · exact ⟨trivial,fun _ _ => trivial⟩
      · exact ⟨trivial,fun _ _ => trivial⟩
      all_goals trivial

theorem iterativeQuery_passesOn (h : Yields (iterativeQuery cfg queryData ctx) log bytes) :
    Responds cfg queryData ctx log bytes := by
  unfold iterativeQuery at h
  cases hmessage : cfg.lib.fromBytes queryData with
  | none =>
    rw [hmessage] at h
    cases h
    exact responds_error quiet_nil _
  | some message =>
    rw [hmessage] at h
    dsimp only at h
    cases hquestion : message.queries.head? with
    | none =>
      rw [hquestion] at h
      cases h
      exact responds_error quiet_nil _
    | some question =>
      rw [hquestion] at h
      obtain ⟨result,rest,hr,rfl⟩ := h.perform_bind_inv
      cases result with
      | error _ =>
        cases hr
        exact responds_error (quiet_singleton rfl rfl) _
      | ok res =>
        -- Withheld or not, the result is what the response is made of; only the caching differs.
        have hg : PassesOn cfg queryData ctx [⟨.resolve question.name question.queryType question.queryClass,.ok res⟩]
            (some (resolvedResponse cfg message ctx res)) := passesOn_resolved hmessage hquestion rfl
        dsimp only at hr
        split_ifs at hr
        · cases hr
          exact ⟨some _,.ServFail,hg,rfl⟩
        · obtain ⟨_,noted,last,hn,hl,rfl⟩ := hr.bind_inv
          cases hl
          rw [append_nil]
          exact ⟨some _,.ServFail,hg.noted (cacheResolution_notes hn),rfl⟩

/-- Upstream resolution responds with the first thing it accepts, or with an error. -/
theorem upstreamResolve_passesOn (h : Yields (upstreamResolve cfg queryData ctx) log bytes) :
    Responds cfg queryData ctx log bytes := by
  unfold upstreamResolve at h
  split_ifs at h
  · cases h
    exact responds_error quiet_nil _
  · cases hm : cfg.mode with
    | forward =>
      rw [hm] at h
      exact forwardQuery_passesOn hm h
    | recursive =>
      rw [hm] at h
      exact iterativeQuery_passesOn h
    | auto =>
      rw [hm] at h
      exact autoResolve_passesOn (by simp [hm]) h

end

end RolodexDns.UpstreamTraces
