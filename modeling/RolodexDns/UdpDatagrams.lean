import RolodexDns.ResponseBinding

/-! What a client gets over UDP. A response that is over the budget loses its authority section, and
TC tells the client so; its answers stay, so that a datagram can be larger than what was asked for. -/
namespace RolodexDns.UdpDatagrams
open DnsRecords ProgramTraces StoredRecords WireMessages ServerOperations QueryHandling AuthenticData

variable (lib : ServerLibrary)

def udpLimit (queryData : Bytes) : Nat :=
  ((lib.fromBytes queryData).bind Packet.edns).elim 512 fun opt => max 512 opt.maxPayload.toNat

/-- A datagram over the limit is not a message, or it is cut down as far as it will be: TC is set and
there is no authority section, unless that cannot be written. -/
def Cut (datagram : Bytes) : Prop :=
  ∀ p,lib.fromBytes datagram=some p → (p.truncated=true ∧ p.nameServers=[]) ∨
    lib.toBytes { p with nameServers := [], truncated := true }=none

/-- The datagram is the message of the response, but for the answers of an address family that is not
answered, and for an authority section whose loss is marked. -/
def Carries (cfg : ServerConfig) (response datagram : Bytes) : Prop :=
  ∀ m,cfg.lib.fromBytes response=some m → ∃ answers authority tc,
    cfg.lib.fromBytes datagram=some { m with answers := answers, nameServers := authority, truncated := tc } ∧
      (answers=m.answers ∨ answers=m.answers.filter (answersFamily cfg.answerV4 cfg.answerV6)) ∧
      (authority=m.nameServers ∧ tc=m.truncated ∨ authority=[] ∧ tc=true)

structure Delivers (cfg : ServerConfig) (queryData response datagram : Bytes) : Prop where
  size : datagram.length ≤ udpLimit cfg.lib queryData ∨ Cut cfg.lib datagram
  message : Carries cfg response datagram
  raw : cfg.lib.fromBytes response=none → datagram=response

section
variable {cfg : ServerConfig} (hreads : ∀ {p bytes},cfg.lib.toBytes p=some bytes → cfg.lib.fromBytes bytes=some p)
include hreads

theorem size_truncateForUdp (response queryData : Bytes) :
    (truncateForUdp cfg.lib response queryData).length ≤ udpLimit cfg.lib queryData ∨
      Cut cfg.lib (truncateForUdp cfg.lib response queryData) := by
  have hbu : ((cfg.lib.fromBytes queryData).bind EdnsContext.fromMessage).elim 512
      (fun ctx => max ctx.maxPayload.toNat 512)=udpLimit cfg.lib queryData := by
    unfold udpLimit EdnsContext.fromMessage
    cases cfg.lib.fromBytes queryData with
    | none => rfl
    | some q => cases he : q.edns <;> simp [he,Nat.max_comm]
  unfold truncateForUdp
  dsimp only
  rw [hbu]
  split
  · exact .inl ‹_›
  · right
    split
    · rename_i hn
      exact fun p hp => nomatch hn.symm.trans hp
    · rename_i msg hm
      cases hb : cfg.lib.toBytes _ with
      | none =>
        intro p hp
        cases hm.symm.trans hp
        exact .inr hb
      | some bytes =>
        intro p hp
        cases (hreads hb).symm.trans hp
        exact .inl ⟨rfl,rfl⟩

theorem Carries.rewritten {response a b : Bytes} (hr : Rewrites cfg.lib cfg.answerV4 cfg.answerV6 a b)
    (h : Carries cfg response a) : Carries cfg response b := by
  cases hr with
  | same => exact h
  | written hre han ha =>
    cases hb : cfg.lib.toBytes _ with
    | none => exact h
    | some bytes =>
      intro m hm
      obtain ⟨answers,authority,tc,hc,hk,hma⟩ := h m hm
      cases hre.symm.trans hc
      refine ⟨_,_,_,hreads hb,?_,?_⟩
      · rcases han with rfl | rfl
        · exact hk
        · rcases hk with rfl | rfl
          · exact .inr rfl
          · exact .inr (by simp [List.filter_filter])
      · rcases ha with ⟨rfl,rfl⟩ | hs
        · exact hma
        · exact .inr hs

/-- Every datagram is within the client's limit or cut down, and carries what the server answered. -/
theorem udp_delivers {queryData bytes : Bytes} {sourceIp localIp : Option IpAddr} {log : ServerLog}
    (h : Yields (handleQueryProto cfg queryData sourceIp localIp .udp) log bytes) :
    ∃ response,Yields (resolveQuery cfg queryData (sourceIp.map toCanonical) (localIp.map toCanonical)) log response ∧
      Delivers cfg queryData response bytes := by
  obtain ⟨response,first,rest,hf,hrs,rfl⟩ := h.bind_inv
  cases hrs
  rw [List.append_nil]
  refine ⟨response,hf,size_truncateForUdp hreads _ _,?_,fun hn => ?_⟩
  · refine sendable_induction (P := Carries cfg response) (fun m hm => ?_) (fun hr => .rewritten hreads hr) _ _
    exact ⟨_,_,_,hm,.inl rfl,.inl ⟨rfl,rfl⟩⟩
  · refine sendable_induction (P := fun b => b=response) rfl (fun hr hb => ?_) _ _
    cases hr with
    | same => exact hb
    | written hre =>
      rw [hb,hn] at hre
      cases hre

end

def manyA (tc : Bool) : Packet :=
  { queryA with
    messageType := .response, recursionAvailable := true, truncated := tc
    answers := (List.range 80).map fun i => ⟨nameA,.IN,60,.a (BitVec.ofNat 32 i)⟩ }

def manyABytes (tc : Bool) : Bytes :=
  [0,1,if tc then 131 else 129,128,0,1,0,80,0,0,0,1,1,97,0,0,1,0,1] ++
    (List.range 80).flatMap (fun i => [192,12,0,1,0,1,0,0,0,60,0,4,0,0,0,UInt8.ofNat i]) ++
    [0,0,41,4,208,0,0,128,0,0,0]

def crowdedConfig : ServerConfig :=
  { forwardingConfig with
    lib := tableLibrary [(queryA,queryABytes),(manyA false,manyABytes false),(manyA true,manyABytes true)] }

def crowdedQuery : ServerProg Bytes := handleQueryProto crowdedConfig queryABytes (some (.v4 0x7f000001)) none .udp

def crowdedRun : ServerLog × Bytes := answeredBy (repliesBy holdsNothing (some (manyABytes false))) crowdedQuery

theorem udp_delivers_crowded :
    (∀ {p bytes},crowdedConfig.lib.toBytes p=some bytes → crowdedConfig.lib.fromBytes bytes=some p) ∧
      ∃ response,Delivers crowdedConfig queryABytes response crowdedRun.2 := by
  have hreads {p : Packet} {bytes : Bytes} (h : crowdedConfig.lib.toBytes p=some bytes) :
      crowdedConfig.lib.fromBytes bytes=some p :=
    fromBytes_of_toBytes (by decide +kernel) h
  have hr : Yields crowdedQuery crowdedRun.1 crowdedRun.2 := yields_answeredBy _ _
  obtain ⟨response,-,hd⟩ := udp_delivers hreads hr
  exact ⟨hreads,response,hd⟩

/-- A client that takes 1232 bytes gets all eighty addresses, marked as truncated. -/
theorem answers_over_limit :
    crowdedConfig.lib.Lawful ∧ Yields crowdedQuery crowdedRun.1 crowdedRun.2 ∧
      udpLimit crowdedConfig.lib queryABytes=1232 ∧
      crowdedRun.2=manyABytes true ∧ crowdedRun.2.length=1310 :=
  ⟨tableLibrary_lawful (by decide +kernel) (by decide +kernel),yields_answeredBy _ _,by decide +kernel,
    by decide +kernel,
    by decide +kernel⟩

end RolodexDns.UdpDatagrams
