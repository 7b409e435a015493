import RolodexDns.AnswerCaches
import RolodexDns.AuthenticData
import RolodexDns.LocalTraces
import RolodexDns.ResolverExecution
import RolodexDns.TracedSessions

/-! The chain of tiers as the server runs it. Queries and the recovery probe share the committed tier and
four caches; a tier is noted, the caches are flushed and the tier is stored one operation after the other,
with anything in between. -/
namespace RolodexDns.AutoTiers
open DnsRecords ResolverWorld IterativeResolver ProgramTrees ProgramTraces List
open HistoryContracts WireMessages ServerOperations AnswerCaches UpstreamResolution QueryHandling LocalTraces
  TracedSessions

/-- What a request does, one at a time. The tier is read where a query or a probe starts and where a winner is noted. -/
inductive AutoOp where
  | server (o : ServerOp)
  | lookup (o : Op)
  | timeUp
  | startTier
  | noteTier (winner : Nat)
  | grace
  | addStreak
  | storeStreak (streak : Nat)
  | storeTier (tier : Nat)
  | flushAnswers
  | flushDelegations
  | flushRecords

abbrev AutoRes : AutoOp → Type
  | .server o => ServerRes o
  | .lookup o => Res o
  | .timeUp => Bool
  | .startTier | .noteTier _ | .grace | .addStreak => Nat
  | .storeStreak _ | .storeTier _ | .flushAnswers | .flushDelegations | .flushRecords => Unit

abbrev AutoProg := Prog AutoOp AutoRes

def AutoProg.perform (o : AutoOp) : AutoProg (AutoRes o) := Prog.perform o

abbrev AutoPast := List ((o : AutoOp) × AutoRes o)

def flushUpstreamState : AutoProg Unit := do
  AutoProg.perform .flushAnswers
  AutoProg.perform .flushDelegations
  AutoProg.perform .flushRecords

def commitTier (winner : Nat) : AutoProg Unit := do
  flushUpstreamState
  AutoProg.perform (.storeTier winner)
  AutoProg.perform (.storeStreak 0)

/-- Records which tier answered: at once if it is preferred to the committed one, after enough failures if not. -/
def noteAutoWinner (winner : Nat) : AutoProg Unit := do
  let active ← AutoProg.perform (.noteTier winner)
  if winner=active then AutoProg.perform (.storeStreak 0)
  else if winner<active then commitTier winner
  else
    let grace ← AutoProg.perform .grace
    let streak ← AutoProg.perform .addStreak
    if max grace 1 ≤ streak+1 then commitTier winner

def within {α : Type} : Prog Op Res α → AutoProg (Option α)
  | .pure a => .pure (some a)
  | .op o next => .op .timeUp fun expired => if expired then .pure none else .op (.lookup o) fun r => within (next r)

/-- What the operations of a query come to. -/
def carryOut (resolver : Config) : (o : ServerOp) → AutoProg (ServerRes o)
  | .resolve name qtype qclass => lift .lookup (fun _ r => r) (resolve resolver name qtype qclass)
  | .resolveWithin name qtype qclass => within (resolve resolver name qtype qclass)
  | .activeTier => AutoProg.perform .startTier
  | .noteAutoWinner winner => noteAutoWinner winner
  | o => AutoProg.perform (.server o)

structure AutoConfig where
  server : ServerConfig
  resolver : Config
  canary : Option Bytes

section
variable (cfg : AutoConfig)

/-- The roots may be trusted again: the root zone's keys validate. Without validation an answer has to do. -/
def rootsValidate : AutoProg Bool := do
  match ← within (resolve cfg.resolver .root .DNSKEY .IN) with
  | none => return false
  | some (.error _) => return false
  | some (.ok res) =>
    if !cfg.resolver.validating then return isDefinitive res.rcode else return decide (res.verdict=.secure)

def probeTiers (canary : Bytes) (message : Packet) : List Nat → AutoProg Unit
  | [] => return
  | tier::tiers => do
    match ← expand (carryOut cfg.resolver) (tryTier cfg.server tier canary message none) with
    | some _ => noteAutoWinner tier
    | none => probeTiers canary message tiers

def recoveryProbeOnce : AutoProg Unit := do
  if cfg.server.mode ≠ .auto then return
  else
    let active ← AutoProg.perform .startTier
    if active=0 then return
    else if ← rootsValidate cfg then noteAutoWinner 0
    else
      match cfg.canary with
      | none => return
      | some canary =>
        match cfg.server.lib.fromBytes canary with
        | none => return
        | some message => probeTiers cfg canary message (range' 1 (active - 1))

inductive Request where
  | query (queryData : Bytes) (sourceIp localIp : Option IpAddr) (proto : Proto)
  | probe
  | prime
deriving DecidableEq

def Request.program : Request → AutoProg (Option Bytes)
  | .query queryData sourceIp localIp proto =>
    (expand (carryOut cfg.resolver) (handleQueryProto cfg.server queryData sourceIp localIp proto)).bind fun r =>
      .pure (some r)
  | .probe => (recoveryProbeOnce cfg).bind fun _ => .pure none
  | .prime => (lift .lookup (fun _ r => r) (primeRoots cfg.resolver .IN maxQueriesPerResolution)).bind fun _ =>
      .pure none

end

section

structure AutoState where
  resolver : World
  answers : AnswerCache
  tier : Nat
  streak : Nat

variable (cfg : AutoConfig)

/-- The effect of an operation. What the database, the network and the clocks give is not determined, nor is the grace
period, which can be set at any time. -/
def autoActs (s : AutoState) : (o : AutoOp) → AutoRes o → AutoState → Prop
  | .server (.held o), r, s' => ∃ held,(r,s'.answers)=s.answers.perform held s.resolver.clock o ∧
    s'={ s with answers := s'.answers }
  | .server _, _, s' => s'=s
  | .lookup o, r, s' => acts cfg.resolver s.resolver o r s'.resolver ∧ s'={ s with resolver := s'.resolver }
  | .timeUp, _, s' => s'=s
  | .startTier, r, s' => r=s.tier ∧ s'=s
  | .noteTier _, r, s' => r=s.tier ∧ s'=s
  | .grace, _, s' => s'=s
  | .addStreak, r, s' => r=s.streak ∧ s'={ s with streak := s.streak+1 }
  | .storeStreak n, _, s' => s'={ s with streak := n }
  | .storeTier t, _, s' => s'={ s with tier := t }
  | .flushAnswers, _, s' => s'={ s with answers := s.answers.flush }
  | .flushDelegations, _, s' => s'={ s with resolver := { s.resolver with delegations := [] } }
  | .flushRecords, _, s' => s'={ s with resolver := { s.resolver with records := [] } }

/-- Time passes, and entries leave the caches. -/
structure AutoDrifts (s s' : AutoState) : Prop where
  resolver : Drifts s.resolver s'.resolver
  memory : s'.answers.memory⊆s.answers.memory
  negatives : s'.answers.negatives⊆s.answers.negatives
  tier : s'.tier=s.tier
  streak : s'.streak=s.streak

/-- Any number of queries, and one recovery probe at a time. -/
def server : System Request AutoState AutoOp AutoRes (Option Bytes) where
  acts := autoActs cfg
  drifts := AutoDrifts
  program := Request.program cfg
  admits running request := request=.probe → .probe∉running

abbrev AutoSession := Session Request AutoState AutoOp AutoRes (Option Bytes)

abbrev AutoEntry := Entry Request AutoOp AutoRes

end

section

def flushed : AutoPast := [⟨.flushAnswers,()⟩,⟨.flushDelegations,()⟩,⟨.flushRecords,()⟩]

/-- What a request has done when it stores a tier: it noted the tier, found another one committed, and flushed. -/
def Commits (ready : AutoPast → Prop) (past : AutoPast) (tier : Nat) : Prop :=
  ∃ before active between,ready before ∧ past=before++[⟨.noteTier tier,active⟩]++between++flushed ∧
    ((tier<active ∧ between=[]) ∨ (active<tier ∧ ∃ grace streak,between=[⟨.grace,grace⟩,⟨.addStreak,streak⟩]))

/-- A request does what it likes, but stores only tiers that it has come to commit to. -/
def commitsOnly (ready : Nat → AutoPast → Prop) : AutoPast → AutoOp → Prop
  | past, .storeTier tier => Commits (ready tier) past tier
  | _, _ => True

variable (cfg : AutoConfig)

/-- What a probe has done by the time it notes the roots: it found another tier committed, and the roots validated. -/
def Proved (before : AutoPast) : Prop :=
  ∃ (active : Nat) (trial : AutoPast),before=⟨.startTier,active⟩::trial ∧ active≠0 ∧
    Yields (rootsValidate cfg) trial true

def contract : Request → AutoPast → AutoOp → Prop
  | .query .. => commitsOnly fun _ _ => True
  | .probe => commitsOnly fun tier before => tier=0 → Proved cfg before
  | .prime => commitsOnly fun _ _ => False

def Quiet (o : AutoOp) : Prop := ∀ ready now,commitsOnly ready now o

variable {α : Type} {cfg : AutoConfig} {ready : Nat → AutoPast → Prop} {past : AutoPast} {tier : Nat}

theorem quiet_lookup (o : Op) : Quiet (.lookup o) := fun _ _ => trivial

theorem commitTier_keeps (h : Commits (ready tier) (past++flushed) tier) :
    Keeps (lookingBack (commitsOnly ready)) past (commitTier tier) fun _ _ => True := by
  refine ⟨trivial,fun _ _ => ⟨trivial,fun _ _ => ⟨trivial,fun _ _ => ⟨?_,fun _ _ => ⟨trivial,fun _ _ => trivial⟩⟩⟩⟩⟩
  rw [append_assoc,append_assoc]
  exact h

theorem noteAutoWinner_keeps (h : ready tier past) :
    Keeps (lookingBack (commitsOnly ready)) past (noteAutoWinner tier) fun _ _ => True := by
  refine ⟨trivial,fun (active : Nat) _ => ?_⟩
  dsimp only [Prog.bind]
  split_ifs with hs hl
  · exact ⟨trivial,fun _ _ => trivial⟩
  · exact commitTier_keeps ⟨past,active,[],h,by simp,.inl ⟨hl,rfl⟩⟩
  · refine ⟨trivial,fun (grace : Nat) _ => ⟨trivial,fun (streak : Nat) _ => ?_⟩⟩
    dsimp only [Prog.bind]
    split_ifs
    · have hm : active<tier := by omega
      exact commitTier_keeps ⟨past,active,[⟨.grace,grace⟩,⟨.addStreak,streak⟩],h,by simp,.inr ⟨hm,grace,streak,rfl⟩⟩
    · trivial

section
variable {demands : AutoOp → Prop}

theorem within_sat (ht : demands .timeUp) (hl : ∀ o,demands (.lookup o)) (p : Prog Op Res α) :
    (within p).Only demands := by
  induction p with
  | pure a => trivial
  | op o next ih =>
    refine ⟨ht,fun (expired : Bool) _ => ?_⟩
    cases expired with
    | true => exact trivial
    | false => exact ⟨hl o,fun r _ => ih r⟩

theorem lookups_sat (hl : ∀ o,demands (.lookup o)) (p : Prog Op Res α) :
    (lift AutoOp.lookup (fun _ r => r) p : AutoProg α).Only demands :=
  sat_lift (sat_of_forall hl p)

theorem rootsValidate_sat (ht : demands .timeUp) (hl : ∀ o,demands (.lookup o)) :
    (rootsValidate cfg).Only demands := by
  refine Prog.Sat.bind (within_sat ht hl _) fun r _ => ?_
  split
  · trivial
  · trivial
  · split <;> trivial

end

/-- A program of operations that commit to nothing may do what it does. -/
theorem keeps_quiet {p : AutoProg α} (h : p.Only Quiet) :
    Keeps (lookingBack (commitsOnly ready)) past p fun now a => ∃ new,now=past++new ∧ Yields p new a :=
  keeps_yields (h.weaken (fun _ hq now => hq ready now) fun _ _ _ => trivial)

theorem carryOut_keeps {o : ServerOp} (h : ∀ tier past,o=.noteAutoWinner tier → ready tier past) (past : AutoPast) :
    Keeps (lookingBack (commitsOnly ready)) past (carryOut cfg.resolver o) fun _ _ => True := by
  have hq {p : AutoProg (ServerRes o)} (hp : p.Only Quiet) :
      Keeps (lookingBack (commitsOnly ready)) past p fun _ _ => True := (keeps_quiet hp).mono fun _ _ _ _ => trivial
  cases o with
  | resolve name qtype qclass => exact hq (lookups_sat quiet_lookup _)
  | resolveWithin name qtype qclass => exact hq (within_sat (fun _ _ => trivial) quiet_lookup _)
  | noteAutoWinner tier => exact noteAutoWinner_keeps (h tier past rfl)
  | _ => exact ⟨trivial,fun _ _ => trivial⟩

end

section
variable {cfg : AutoConfig} (config : ServerConfig)

/-- The operation neither looks up nor notes a winner, and keeps nothing that came from upstream. -/
def Asks : ServerOp → Prop
  | .resolve .. | .resolveWithin .. | .noteAutoWinner _ => False
  | .held o => KeepsOwn o
  | _ => True

theorem Asks.ne_note {o : ServerOp} (h : Asks o) (tier : Nat) : o ≠ .noteAutoWinner tier := by
  rintro rfl
  exact h

theorem asks_of_exchange {sender : Upstream} (o : ServerOp) (h : Exchange sender o) : Asks o := by
  cases o with
  | resolve | resolveWithin | noteAutoWinner => exact h
  | held o => exact h.elim
  | _ => trivial

theorem queryForwarder_sat (f : Forwarder) (queryData : Bytes) :
    (queryForwarder config f queryData).Only Asks :=
  (queryForwarder_exchanges f).weaken asks_of_exchange fun _ _ _ => trivial

theorem tierForward_sat (queryData : Bytes) (fs : List Forwarder) :
    (tierForward config queryData fs).Only Asks := by
  induction fs with
  | nil => trivial
  | cons f fs ih =>
    refine ⟨trivial,fun (usable : Bool) _ => ?_⟩
    cases usable with
    | false => exact ih
    | true =>
      refine Prog.Sat.bind (p := queryForwarder config f queryData) (queryForwarder_sat config f queryData)
        fun reply _ => ?_
      cases reply with
      | none => exact ⟨trivial,fun _ _ => ih⟩
      | some response =>
        refine ⟨trivial,fun _ _ => ?_⟩
        split
        · trivial
        · exact ih

theorem probeTiers_keeps {canary : Bytes} {message : Packet} {tiers : List Nat} (ht : 0∉tiers) (past : AutoPast) :
    Keeps (lookingBack (contract cfg .probe)) past (probeTiers cfg canary message tiers) fun _ _ => True := by
  induction tiers generalizing past with
  | nil => trivial
  | cons tier tiers ih =>
    rw [mem_cons,not_or] at ht
    obtain ⟨hne,hr⟩ := ht
    have htr : (tryTier cfg.server tier canary message none).Only Asks := by
      cases tier with
      | zero => exact absurd rfl hne
      | succ n => exact tierForward_sat cfg.server canary _
    refine (keeps_expand htr
      (fun o ho now => carryOut_keeps (fun tier _ heq => absurd heq (Asks.ne_note ho tier)) now) past).bind
      fun now reply _ _ => ?_
    split
    · exact noteAutoWinner_keeps fun hz => absurd hz.symm hne
    · exact ih hr now

theorem program_keeps (request : Request) :
    Keeps (lookingBack (contract cfg request)) [] (request.program cfg) fun _ _ => True := by
  cases request with
  | query queryData sourceIp localIp proto =>
    refine (keeps_expand (sat_of_forall (fun _ => trivial) _) (fun o _ now => ?_) []).bind fun _ _ _ _ => trivial
    exact carryOut_keeps (fun _ _ _ => trivial) now
  | prime => exact (keeps_quiet (lookups_sat quiet_lookup _)).bind fun _ _ _ _ => trivial
  | probe =>
    refine Keeps.bind (Q := fun _ _ => True) ?_ fun _ _ _ _ => trivial
    unfold recoveryProbeOnce
    split_ifs
    · trivial
    · refine ⟨trivial,fun (active : Nat) _ => ?_⟩
      dsimp only [Prog.bind]
      split_ifs with hr
      · trivial
      · refine (keeps_quiet (rootsValidate_sat (fun _ _ => trivial) quiet_lookup)).bind fun now valid _ hn => ?_
        obtain ⟨trial,rfl,ht⟩ := hn
        cases valid with
        | true => exact noteAutoWinner_keeps fun _ => ⟨active,trial,rfl,hr,ht⟩
        | false =>
          rw [if_neg Bool.false_ne_true]
          split
          · trivial
          · split
            · trivial
            · exact probeTiers_keeps (fun hz => absurd (mem_range'_1.mp hz).1 (by decide)) _

end

section
open AuthenticData ResolverExecution

/-- A setting to play a run in: what the network knows, what the forwarder replies, and for which requests
the time is up at once. Nothing is in the database and the grace period is one query. -/
structure Setting where
  net : Network
  reply : Option Bytes
  late : Request → Bool

variable (setting : Setting)

def Setting.answer (request : Request) (s : AutoState) : (o : AutoOp) → AutoRes o × AutoState
  | .server (.held o) =>
    let (r,answers) := s.answers.perform holdsNothing s.resolver.clock o
    (r,{ s with answers := answers })
  | .server o => (repliesBy holdsNothing setting.reply o,s)
  | .lookup o =>
    let (r,world) := respond toyConfig setting.net 5 s.resolver o
    (r,{ s with resolver := world })
  | .timeUp => (setting.late request,s)
  | .startTier | .noteTier _ => (s.tier,s)
  | .grace => ((1 : Nat),s)
  | .addStreak => (s.streak,{ s with streak := s.streak+1 })
  | .storeStreak n => ((),{ s with streak := n })
  | .storeTier t => ((),{ s with tier := t })
  | .flushAnswers => ((),{ s with answers := s.answers.flush })
  | .flushDelegations => ((),{ s with resolver := { s.resolver with delegations := [] } })
  | .flushRecords => ((),{ s with resolver := { s.resolver with records := [] } })

theorem Setting.answer_acts {cfg : AutoConfig} (hc : cfg.resolver=toyConfig) (setting : Setting) (request : Request)
    (s : AutoState)
    (o : AutoOp) : autoActs cfg s o (setting.answer request s o).1 (setting.answer request s o).2 := by
  cases o with
  | server o =>
    cases o with
    | held o => exact ⟨holdsNothing,rfl,rfl⟩
    | _ => rfl
  | lookup o =>
    refine ⟨?_,rfl⟩
    rw [hc]
    exact respond_acts toyConfig setting.net 5 s.resolver o
  | startTier | noteTier _ | addStreak => exact ⟨rfl,rfl⟩
  | _ => rfl

/-- A chain of two tiers: the roots, and a forwarder that is reached over an encrypted channel. -/
def twoTiers : AutoConfig where
  server := { forwardingConfig with mode := .auto, forwarderTiers := [forwardingConfig.forwarders] }
  resolver := toyConfig
  canary := none

def rootsOnly : Network := fun _ q =>
  if q.name=.root ∧ q.qtype=.DNSKEY then some (toyReply q .NoError (toyDnskeys .root [1]) [] []) else none

def askedOver (proto : Proto) : Request := .query queryABytes (some (.v4 0x7f000001)) none proto

def rehearse (check : AutoSession → AutoEntry → Bool) (s : AutoState) (turns : List (Turn Request)) :
    Option AutoSession :=
  play setting.answer (Request.program twoTiers) (fun running request => decide (request=.probe → .probe∉running)) check
    (.initial s) turns

theorem course_rehearse {setting : Setting} {check : AutoSession → AutoEntry → Bool}
    {allowed : AutoSession → AutoEntry → Prop}
    (hc : ∀ P e,check P e=true → allowed P e) {s : AutoState} {turns : List (Turn Request)} {P : AutoSession}
    (h : rehearse setting check s turns=some P) : Course (server twoTiers) allowed (.initial s) P := by
  have had : ∀ running request,decide (request=.probe → .probe∉running)=true →
    (server twoTiers).admits running request :=
    fun running request ha => (of_decide_eq_true ha : request=.probe → .probe∉running)
  exact course_play rfl (setting.answer_acts rfl) had hc h

end

end RolodexDns.AutoTiers
