import RolodexDns.RecordConversions
import RolodexDns.TextFields

/-! The DHCP server. A lease is written when an address is acknowledged and not before, whatever the table says of
the address: the row of another client with it, and the client's own row with another one, are replaced. -/
namespace RolodexDns.DhcpLeases
open StoredRecords RecordConversions TextFields List

inductive LeaseState where
  | active
  | expired
  | released
deriving DecidableEq

structure DhcpPool where
  scopeName : Text
  rangeStart : Text
  rangeEnd : Text
  gateway : Option Text
  subnetMask : Text
  dnsServers : Option Text

structure DhcpCertOption where
  scopeName : Text
  optionCode : Nat
  certData : List UInt8

structure DhcpLease where
  mac : Text
  ip : Text
  scopeName : Text
  hostname : Option Text
  leaseStart : Int
  leaseDuration : Int
  state : LeaseState
deriving DecidableEq

def DhcpLease.last (lease : DhcpLease) : Int := lease.leaseStart+lease.leaseDuration

/-- The table of leases: the MAC address is its primary key, and the address is unique. -/
structure LeaseTable where
  rows : List DhcpLease
  uniqueMac : (rows.map DhcpLease.mac).Nodup
  uniqueIp : (rows.map DhcpLease.ip).Nodup

namespace LeaseTable

def empty : LeaseTable := ⟨[],nodup_nil,nodup_nil⟩

variable (table : LeaseTable) (now reclaimTimeout : Int) (p : DhcpLease → Bool) (lease : DhcpLease) (mac : Text)

/-- DELETE FROM the table WHERE the condition does not hold. -/
def keep : LeaseTable where
  rows := table.rows.filter p
  uniqueMac := table.uniqueMac.sublist (filter_sublist.map _)
  uniqueIp := table.uniqueIp.sublist (filter_sublist.map _)

/-- UPDATE the state of the rows for which the condition holds. -/
def setState (state : LeaseState) : LeaseTable where
  rows := table.rows.map fun lease => if p lease then { lease with state := state } else lease
  uniqueMac := by
    rw [map_map,map_congr_left (g := DhcpLease.mac)]
    · exact table.uniqueMac
    · intro lease _
      dsimp only [Function.comp]
      split <;> rfl
  uniqueIp := by
    rw [map_map,map_congr_left (g := DhcpLease.ip)]
    · exact table.uniqueIp
    · intro lease _
      dsimp only [Function.comp]
      split <;> rfl

/-- Neither key of the row is one of the lease's. -/
def apart (lease row : DhcpLease) : Bool := row.mac≠lease.mac && row.ip≠lease.ip

/-- INSERT OR REPLACE INTO the table: the rows with the same MAC address or the same address go. -/
def createLease : LeaseTable where
  rows := (table.keep (apart lease)).rows++[lease]
  uniqueMac := nodup_map_concat (table.keep _).uniqueMac fun r hr => by
    simpa using (Bool.and_eq_true_iff.mp (mem_filter.mp hr).2).1
  uniqueIp := nodup_map_concat (table.keep _).uniqueIp fun r hr => by
    simpa using (Bool.and_eq_true_iff.mp (mem_filter.mp hr).2).2

def getLeaseByMac : Option DhcpLease := table.rows.find? (·.mac=mac)

def releaseLease : Option DhcpLease × LeaseTable :=
  let released := table.setState (·.mac=mac) .released
  (released.getLeaseByMac mac,released)

/-- The lease has ended and its address has waited long enough. -/
def reclaimable : Bool :=
  (lease.state=.expired || lease.state=.released) && lease.last+reclaimTimeout<now

def sweepExpiredLeases : List DhcpLease × LeaseTable :=
  let marked := table.setState (fun lease => lease.state=.active && lease.last<now) .expired
  (marked.rows.filter (reclaimable now reclaimTimeout),marked.keep fun lease => !reclaimable now reclaimTimeout lease)

variable {table : LeaseTable} {lease : DhcpLease}

theorem getLeaseByMac_eq_some_iff {mac : Text} :
    table.getLeaseByMac mac=some lease ↔ lease∈table.rows ∧ lease.mac=mac := by
  constructor
  · intro h
    exact ⟨mem_of_find?_eq_some h,by simpa using find?_some h⟩
  · rintro ⟨hm,rfl⟩
    cases hf : table.getLeaseByMac lease.mac with
    | none => exact absurd (decide_eq_true rfl) (find?_eq_none.mp hf lease hm)
    | some other =>
      have hmac : other.mac=lease.mac := by simpa using find?_some hf
      rw [inj_on_of_nodup_map table.uniqueMac (mem_of_find?_eq_some hf) hm hmac]

theorem mem_createLease {row : DhcpLease} :
    row∈(table.createLease lease).rows ↔ (row∈table.rows ∧ row.mac≠lease.mac ∧ row.ip≠lease.ip) ∨ row=lease := by
  simp [createLease,keep,apart]

theorem mem_setState {p : DhcpLease → Bool} {state : LeaseState} (h : lease∈table.rows) (hp : p lease=false) :
    lease∈(table.setState p state).rows :=
  mem_map.mpr ⟨lease,h,if_neg (by simp [hp])⟩

/-- An active lease outlives the sweeps until it is over. -/
theorem mem_sweep {now reclaimTimeout : Int} (h : lease∈table.rows) (ha : lease.state=.active)
    (hnow : now ≤ lease.last) :
    lease∈(table.sweepExpiredLeases now reclaimTimeout).2.rows := by
  have hm : lease∈(table.setState (fun lease => lease.state=.active && lease.last<now) .expired).rows :=
    mem_setState h (by simp [Int.not_lt.mpr hnow])
  exact mem_filter.mpr ⟨hm,by simp [reclaimable,ha]⟩

end LeaseTable

section
variable (lib : TextLibrary)

/-- What goes wrong while a message is handled; it is logged, and the client gets no answer. -/
inductive DhcpError where
  | invalidPoolRangeStart
  | invalidPoolRangeEnd
  | invalidAllocatedIp
  | poolNotFound
  | notInAnyPool

def DhcpError.message : DhcpError → Text
  | .invalidPoolRangeStart => "invalid pool range_start IP"
  | .invalidPoolRangeEnd => "invalid pool range_end IP"
  | .invalidAllocatedIp => "invalid allocated IP"
  | .poolNotFound => "pool not found for scope"
  | .notInAnyPool => "requested IP not in any pool"

structure DhcpState where
  pools : List DhcpPool
  certOptions : List DhcpCertOption
  leases : LeaseTable
  now : Int

def ipInRange (ip start stop : Text) : Bool :=
  match lib.parseIpv4 ip, lib.parseIpv4 start, lib.parseIpv4 stop with
  | some ip, some start, some stop => start ≤ ip && ip ≤ stop
  | _, _, _ => false

def Pooled (pools : List DhcpPool) (scope ip : Text) : Prop :=
  ∃ pool∈pools,pool.scopeName=scope ∧ ipInRange lib ip pool.rangeStart pool.rangeEnd=true

/-- The first address from here on that is not leased. The search ends at the end of the range if it comes there, and
else with the last address there is; it has that many steps. -/
def firstFree (leased : List Text) (stop : Nat) : (fuel current : Nat) → Option Text
  | 0, _ => none
  | fuel+1, current =>
    let ip := lib.ipText (.v4 (BitVec.ofNat 32 current))
    if ip∉leased then some ip
    else if current=stop then none
    else if current+1<2^32 then firstFree leased stop fuel (current+1)
    else none

def allocateFrom (leased : List Text) : List DhcpPool → Except DhcpError (Option Text)
  | [] => .ok none
  | pool::pools =>
    match lib.parseIpv4 pool.rangeStart, lib.parseIpv4 pool.rangeEnd with
    | none, _ => .error .invalidPoolRangeStart
    | some _, none => .error .invalidPoolRangeEnd
    | some start, some stop =>
      match firstFree lib leased stop.toNat (2^32 - start.toNat) start.toNat with
      | some ip => .ok (some ip)
      | none => allocateFrom leased pools

/-- The address a client has, or the first one of the scope's pools that is not leased in the scope. -/
def allocateIp (s : DhcpState) (scope mac : Text) : Except DhcpError (Option Text) :=
  match s.leases.getLeaseByMac mac with
  | some lease => .ok (some lease.ip)
  | none =>
    allocateFrom lib ((s.leases.rows.filter (·.scopeName=scope)).map DhcpLease.ip) (s.pools.filter (·.scopeName=scope))

end

section

inductive MessageType where
  | discover
  | offer
  | request
  | ack
  | release
  | decline
  | inform
  | other
deriving DecidableEq

structure DhcpMessage where
  bootRequest : Bool
  messageType : Option MessageType
  xid : BitVec 32
  flags : BitVec 16
  ciaddr : BitVec 32
  giaddr : BitVec 32
  chaddr : List UInt8
  requestedIpAddress : Option (BitVec 32)
  hostname : Option Text

structure DhcpReply where
  messageType : MessageType
  xid : BitVec 32
  flags : BitVec 16
  yiaddr : BitVec 32
  giaddr : BitVec 32
  chaddr : List UInt8
  serverIdentifier : BitVec 32
  subnetMask : Option (BitVec 32)
  router : Option (BitVec 32)
  domainNameServer : List (BitVec 32)
  addressLeaseTime : Option Nat
  certificates : List (Nat × List UInt8)

structure DhcpConfig where
  defaultLeaseDuration : Nat
  reclaimTimeout : Nat
  tld : Text

inductive Effect where
  | joinNetwork (ip scope : Text) (ttlSeconds : Nat)
  | leaveNetwork (ip : Text)
  | addScopedRecord (scope : Text) (record : DnsRecord)
  | removeScopedRecords (scope name : Text) (kind : RecordKind)
  | flushCache

variable (lib : TextLibrary) (config : DhcpConfig) (reply : DhcpReply)

def formatMac (bytes : List UInt8) : Text :=
  [':'].intercalate ((bytes.take 6).map fun b => [hexDigit (b.toNat / 16),hexDigit (b.toNat % 16)])

/-- An unsigned number of 64 bits where a signed one is expected. -/
def asI64 (n : Nat) : Int := (BitVec.ofNat 64 n).toInt

def validHostnameLabel (hostname : Text) : Option Text :=
  let trimmed := trim hostname
  if trimmed.isEmpty || (toUtf8 trimmed).length > 63 then none
  else if !trimmed.all (fun c => c.isAlphanum || c = '-') then none
  else if trimmed.head?=some '-' || trimmed.getLast?=some '-' then none
  else some (trimmed.map Char.toLower)

def hostnameFqdn (label : Text) : Text := label ++ ".lan."++config.tld++['.']

def registerDnsHostname (hostname ip scope : Text) (ttl : Nat) : List Effect :=
  match validHostnameLabel hostname with
  | none => []
  | some label =>
    let fqdn := hostnameFqdn config label
    let ptr := match lib.parseIpv4 ip with
      | some addr => [Effect.addScopedRecord scope ⟨reverseName (.v4 addr),.PTR,fqdn,ttl,0⟩]
      | none => []
    [Effect.addScopedRecord scope ⟨fqdn,.A,ip,ttl,0⟩]++ptr++[.flushCache]

def unregisterDnsHostname (hostname ip scope : Text) : List Effect :=
  match validHostnameLabel hostname with
  | none => []
  | some label =>
    let ptr := match lib.parseIpv4 ip with
      | some addr => [Effect.removeScopedRecords scope (reverseName (.v4 addr)) .PTR]
      | none => []
    [Effect.removeScopedRecords scope (hostnameFqdn config label) .A]++ptr++[.flushCache]

def cleanupLease (lease : DhcpLease) : List Effect :=
  (match lease.hostname with
    | some host => unregisterDnsHostname lib config host lease.ip lease.scopeName
    | none => [])++[.leaveNetwork lease.ip,.flushCache]

def buildReply (request : DhcpMessage) (messageType : MessageType) (offeredIp : BitVec 32) : DhcpReply :=
  ⟨messageType,request.xid,request.flags,offeredIp,request.giaddr,request.chaddr,0,none,none,[],none,[]⟩

def addPoolOptions (pool : DhcpPool) : DhcpReply :=
  { reply with
    subnetMask := lib.parseIpv4 pool.subnetMask
    router := pool.gateway.bind lib.parseIpv4
    domainNameServer := ((pool.dnsServers.map (splitOn ',')).getD []).filterMap fun text => lib.parseIpv4 (trim text)
    addressLeaseTime := some (config.defaultLeaseDuration % 2^32) }

def addCertOptions (options : List DhcpCertOption) (scope : Text) : DhcpReply :=
  { reply with
    certificates := (options.filter (·.scopeName=scope)).map fun option => (option.optionCode % 256,option.certData) }

def offerFrom (s : DhcpState) (mac : Text) : List DhcpPool → Option (Text × Text)
  | [] => none
  | pool::pools =>
    match allocateIp lib s pool.scopeName mac with
    | .ok (some ip) => some (ip,pool.scopeName)
    | _ => offerFrom s mac pools

def handleDiscover (s : DhcpState) (msg : DhcpMessage) (mac : Text) : Except DhcpError (Option DhcpReply) :=
  if s.pools.isEmpty then .ok none
  else
    let allocated := match s.leases.getLeaseByMac mac with
      | some lease => some (lease.ip,lease.scopeName)
      | none => offerFrom lib s mac s.pools
    match allocated with
    | none => .ok none
    | some (ip,scope) =>
      match lib.parseIpv4 ip, s.pools.find? (·.scopeName=scope) with
      | none, _ => .error .invalidAllocatedIp
      | some _, none => .error .poolNotFound
      | some offeredIp, some pool =>
        .ok (some (addCertOptions (addPoolOptions lib config (buildReply msg .offer offeredIp) pool)
          s.certOptions scope))

structure Handled where
  reply : Except DhcpError (Option DhcpReply)
  state : DhcpState
  effects : List Effect

def requestedIp (msg : DhcpMessage) : BitVec 32 := msg.requestedIpAddress.getD msg.ciaddr

/-- The scope a lease of the address is recorded under: that of the client's row, whatever the address, or that of the
first pool with the address. -/
def requestScope (s : DhcpState) (mac ip : Text) : Option Text :=
  match s.leases.getLeaseByMac mac with
  | some lease => some lease.scopeName
  | none => (s.pools.find? fun pool => ipInRange lib ip pool.rangeStart pool.rangeEnd).map DhcpPool.scopeName

def requestLease (s : DhcpState) (msg : DhcpMessage) (mac scope : Text) : DhcpLease :=
  ⟨mac,lib.ipText (.v4 (requestedIp msg)),scope,msg.hostname,s.now,asI64 config.defaultLeaseDuration,.active⟩

def handleRequest (s : DhcpState) (msg : DhcpMessage) (mac : Text) : Handled :=
  if requestedIp msg=0 then ⟨.ok none,s,[]⟩
  else
    let ip := lib.ipText (.v4 (requestedIp msg))
    match requestScope lib s mac ip with
    | none => ⟨.error .notInAnyPool,s,[]⟩
    | some scope =>
      let registered := match msg.hostname with
        | some host => registerDnsHostname lib config host ip scope (config.defaultLeaseDuration % 2^32)
        | none => []
      let reply := buildReply msg .ack (requestedIp msg)
      let reply := match s.pools.find? (·.scopeName=scope) with
        | some pool => addPoolOptions lib config reply pool
        | none => reply
      ⟨.ok (some (addCertOptions reply s.certOptions scope)),
        { s with leases := s.leases.createLease (requestLease lib config s msg mac scope) },
        .joinNetwork ip scope (config.defaultLeaseDuration % 2^64)::registered⟩

def handleRelease (s : DhcpState) (mac : Text) : DhcpState × List Effect :=
  match s.leases.releaseLease mac with
  | (some lease,leases) => ({ s with leases := leases },cleanupLease lib config lease)
  | (none,leases) => ({ s with leases := leases },[])

def handleDecline (s : DhcpState) (mac : Text) : DhcpState := { s with leases := (s.leases.releaseLease mac).2 }

def handleMessage (s : DhcpState) (msg : DhcpMessage) : Handled :=
  let mac := formatMac msg.chaddr
  if !msg.bootRequest then ⟨.ok none,s,[]⟩
  else
    match msg.messageType with
    | some .discover => ⟨handleDiscover lib config s msg mac,s,[]⟩
    | some .request => handleRequest lib config s msg mac
    | some .release => ⟨.ok none,(handleRelease lib config s mac).1,(handleRelease lib config s mac).2⟩
    | some .decline => ⟨.ok none,handleDecline s mac,[]⟩
    | _ => ⟨.ok none,s,[]⟩

inductive DhcpEvent where
  | message (msg : DhcpMessage)
  | sweep
  | wait (seconds : Nat)

def handle (s : DhcpState) : DhcpEvent → Handled
  | .message msg => handleMessage lib config s msg
  | .sweep =>
    let swept := s.leases.sweepExpiredLeases s.now (asI64 config.reclaimTimeout)
    ⟨.ok none,{ s with leases := swept.2 },swept.1.flatMap (cleanupLease lib config)⟩
  | .wait seconds => ⟨.ok none,{ s with now := s.now+seconds },[]⟩

end

section
variable (lib : TextLibrary) (config : DhcpConfig) (s : DhcpState) (l : Ledger) (event : DhcpEvent)

structure Hold where
  mac : Text
  ip : BitVec 32
  last : Int

/-- The server, and what it has promised: the leases that were acknowledged and not given up since. -/
structure Ledger where
  server : DhcpState
  held : List Hold

def acknowledgement : Option DhcpReply :=
  match (handle lib config s event).reply with
  | .ok (some reply) => if reply.messageType=.ack then some reply else none
  | _ => none

def givenUpBy : DhcpEvent → Option Text
  | .message msg =>
    if msg.bootRequest && (msg.messageType=some .release || msg.messageType=some .decline) then
      some (formatMac msg.chaddr) else none
  | _ => none

/-- The promises after an event. A new lease of an address takes the place of the client's old one of it; the leases of
other addresses that the client was promised remain. -/
def promised : List Hold :=
  let kept := l.held.filter fun hold => givenUpBy event≠some hold.mac
  match acknowledgement lib config l.server event with
  | none => kept
  | some reply =>
    let mac := formatMac reply.chaddr
    ⟨mac,reply.yiaddr,l.server.now+asI64 config.defaultLeaseDuration⟩::kept.filter fun hold =>
      ¬ (hold.mac=mac ∧ hold.ip=reply.yiaddr)

def Ledger.after : Ledger := ⟨(handle lib config l.server event).state,promised lib config l event⟩

/-- What holds of each event of a sequence, in the state it finds. -/
def Throughout (P : Ledger → DhcpEvent → Prop) : Ledger → List DhcpEvent → Prop
  | _, [] => True
  | l, event::events => P l event ∧ Throughout P (l.after lib config event) events

/-- If an address is acknowledged, no other client holds it, and it lies in a pool of the scope its lease is
recorded under. -/
def Exclusive : Prop :=
  ∀ reply,acknowledgement lib config l.server event=some reply →
    (∀ hold∈l.held,hold.ip=reply.yiaddr → l.server.now ≤ hold.last → hold.mac=formatMac reply.chaddr) ∧
    ∃ lease,(handle lib config l.server event).state.leases.getLeaseByMac (formatMac reply.chaddr)=some lease ∧
      lease.ip=lib.ipText (.v4 reply.yiaddr) ∧ Pooled lib l.server.pools lease.scopeName lease.ip

def DhcpState.runs (lease : DhcpLease) : Prop := lease.state=.active ∧ s.now ≤ lease.last

instance (s : DhcpState) (lease : DhcpLease) : Decidable (s.runs lease) := inferInstanceAs (Decidable (_ ∧ _))

instance (pools : List DhcpPool) (scope ip : Text) : Decidable (Pooled lib pools scope ip) :=
  inferInstanceAs (Decidable (∃ pool∈pools,pool.scopeName=scope ∧ ipInRange lib ip pool.rangeStart pool.rangeEnd=true))

/-- A request as the table allows it: no other client's lease of the address runs, none of the client's own leases of
another address does, and the address is in a pool of the scope the client has a lease in. -/
structure ProperRequest (s : DhcpState) (mac ip : Text) : Prop where
  free : ∀ lease∈s.leases.rows,lease.ip=ip → s.runs lease → lease.mac=mac
  settled : ∀ lease∈s.leases.rows,lease.mac=mac → s.runs lease → lease.ip=ip
  pooled : ∀ lease∈s.leases.rows,lease.mac=mac → Pooled lib s.pools lease.scopeName ip

def Proper : DhcpEvent → Prop
  | .message msg => msg.messageType=some .request →
    ProperRequest lib l.server (formatMac msg.chaddr) (lib.ipText (.v4 (requestedIp msg)))
  | _ => True

def Recorded : Prop :=
  ∀ hold∈l.held,l.server.now ≤ hold.last →
    ∃ lease∈l.server.leases.rows,lease.mac=hold.mac ∧ lease.ip=lib.ipText (.v4 hold.ip) ∧ lease.state=.active ∧
      lease.last=hold.last

/-- The ledger of a server as it is found: its active leases are what it has promised. -/
def Ledger.found : Ledger where
  server := s
  held := (s.leases.rows.filter (·.state=.active)).filterMap fun lease =>
    ((lib.parseIpv4 lease.ip).filter fun ip => lib.ipText (.v4 ip)=lease.ip).map fun ip => ⟨lease.mac,ip,lease.last⟩

variable {lib config} {msg : DhcpMessage} {reply : DhcpReply}

theorem recorded_found : Recorded lib (.found lib s) := by
  rintro hold hm -
  obtain ⟨lease,hl,hh⟩ := mem_filterMap.mp hm
  obtain ⟨hro,ha⟩ := mem_filter.mp hl
  obtain ⟨ip,hip,rfl⟩ := Option.map_eq_some_iff.mp hh
  obtain ⟨-,ht⟩ := Option.filter_eq_some_iff.mp hip
  exact ⟨lease,hro,rfl,(by simpa using ht : lib.ipText _=lease.ip).symm,of_decide_eq_true ha,rfl⟩

/-- A request is acknowledged with the address that was asked for and a lease of it recorded, or nothing changes. -/
theorem handleRequest_cases (msg : DhcpMessage) (mac : Text) :
    ((∀ reply,(handleRequest lib config s msg mac).reply ≠ .ok (some reply)) ∧
      (handleRequest lib config s msg mac).state=s) ∨
    ∃ reply scope,(handleRequest lib config s msg mac).reply=.ok (some reply) ∧ reply.messageType=.ack ∧
      reply.chaddr=msg.chaddr ∧ reply.yiaddr=requestedIp msg ∧
      requestScope lib s mac (lib.ipText (.v4 (requestedIp msg)))=some scope ∧
      (handleRequest lib config s msg mac).state =
        { s with leases := s.leases.createLease (requestLease lib config s msg mac scope) } := by
  unfold handleRequest
  split
  · exact .inl ⟨nofun,rfl⟩
  · dsimp only
    cases hscope : requestScope lib s mac (lib.ipText (.v4 (requestedIp msg))) with
    | none => exact .inl ⟨nofun,rfl⟩
    | some scope =>
      refine .inr ⟨_,scope,rfl,?_,?_,?_,rfl,rfl⟩
      all_goals cases s.pools.find? (·.scopeName=scope) <;> rfl

theorem handleDiscover_offer {s : DhcpState} {mac : Text} (h : handleDiscover lib config s msg mac=.ok (some reply)) :
    reply.messageType=.offer := by
  unfold handleDiscover at h
  split at h
  · cases h
  · dsimp only at h
    split at h
    · cases h
    · split at h
      · cases h
      · cases h
      · cases h
        rfl

variable (lib config) in
inductive Transition (s : DhcpState) (event : DhcpEvent) : Prop where
  /-- The leases stay as they are. -/
  | quiet (hack : acknowledgement lib config s event=none) (hleases : (handle lib config s event).state.leases=s.leases)
    (hnow : s.now ≤ (handle lib config s event).state.now)
  /-- A client gives up its lease. -/
  | givesUp (mac : Text) (hack : acknowledgement lib config s event=none) (hmac : givenUpBy event=some mac)
    (hstate : (handle lib config s event).state={ s with leases := (s.leases.releaseLease mac).2 })
  /-- Leases that are over are swept. -/
  | swept (hack : acknowledgement lib config s event=none)
    (hstate : (handle lib config s event).state={ s with leases :=
      (s.leases.sweepExpiredLeases s.now (asI64 config.reclaimTimeout)).2 })
  /-- An address is acknowledged to the client that asked for it. -/
  | acknowledged (msg : DhcpMessage) (reply : DhcpReply) (scope : Text) (hevent : event=.message msg)
    (hrequest : msg.messageType=some .request) (hack : acknowledgement lib config s event=some reply)
    (hclient : reply.chaddr=msg.chaddr) (hip : reply.yiaddr=requestedIp msg)
    (hscope : requestScope lib s (formatMac msg.chaddr) (lib.ipText (.v4 (requestedIp msg)))=some scope)
    (hstate : (handle lib config s event).state =
      { s with leases := s.leases.createLease (requestLease lib config s msg (formatMac msg.chaddr) scope) })

theorem acknowledgement_eq_none {s : DhcpState} {event : DhcpEvent}
    (h : ∀ reply,(handle lib config s event).reply=.ok (some reply) → reply.messageType ≠ .ack) :
    acknowledgement lib config s event=none := by
  unfold acknowledgement
  split
  · rename_i reply hre
    exact if_neg (h reply hre)
  · rfl

theorem acknowledgement_eq_some {s : DhcpState} {event : DhcpEvent}
    (h : (handle lib config s event).reply=.ok (some reply))
    (hack : reply.messageType=.ack) : acknowledgement lib config s event=some reply := by
  unfold acknowledgement
  rw [h]
  exact if_pos hack

theorem transition : Transition lib config s event := by
  cases event with
  | sweep => exact .swept rfl rfl
  | wait seconds => exact .quiet rfl rfl (Int.le_add_of_nonneg_right (Int.natCast_nonneg _))
  | message msg =>
    -- a message that is not acted on
    have hi (h : handle lib config s (.message msg)=⟨.ok none,s,[]⟩) : Transition lib config s (.message msg) := by
      refine .quiet (acknowledgement_eq_none ?_) (by rw [h]) (by rw [h])
      rw [h]
      exact nofun
    by_cases hb : msg.bootRequest=true
    · cases ht : msg.messageType with
      | none => exact hi (by simp [handle,handleMessage,hb,ht])
      | some messageType =>
        cases messageType with
        | offer | ack | inform | other => exact hi (by simp [handle,handleMessage,hb,ht])
        | discover =>
          have h : handle lib config s (.message msg) =
            ⟨handleDiscover lib config s msg (formatMac msg.chaddr),s,[]⟩ := by
            simp [handle,handleMessage,hb,ht]
          refine .quiet (acknowledgement_eq_none fun reply hre => ?_) (by rw [h]) (by rw [h])
          rw [h] at hre
          rw [handleDiscover_offer hre]
          decide
        | release =>
          have h : (handle lib config s (.message msg)).reply=.ok none ∧
              (handle lib config s (.message msg)).state=(handleRelease lib config s (formatMac msg.chaddr)).1 := by
            simp [handle,handleMessage,hb,ht]
          refine .givesUp (formatMac msg.chaddr) (acknowledgement_eq_none ?_) (by simp [givenUpBy,hb,ht]) ?_
          · rw [h.1]
            exact nofun
          · rw [h.2,handleRelease]
            split <;> rename_i heq <;> rw [heq]
        | decline =>
          have h : handle lib config s (.message msg)=⟨.ok none,handleDecline s (formatMac msg.chaddr),[]⟩ := by
            simp [handle,handleMessage,hb,ht]
          refine .givesUp (formatMac msg.chaddr) (acknowledgement_eq_none ?_) (by simp [givenUpBy,hb,ht])
            (by rw [h]; rfl)
          rw [h]
          exact nofun
        | request =>
          have h : handle lib config s (.message msg)=handleRequest lib config s msg (formatMac msg.chaddr) := by
            simp [handle,handleMessage,hb,ht]
          obtain ⟨hn,hstate⟩ | ⟨reply,scope,hre,hack,hclient,hip,hscope,hstate⟩ :=
            @handleRequest_cases lib config s msg (formatMac msg.chaddr)
          · refine .quiet (acknowledgement_eq_none fun reply hre => ?_) (by rw [h,hstate]) (by rw [h,hstate])
            rw [h] at hre
            exact absurd hre (hn reply)
          · rw [← h] at hre hstate
            exact .acknowledged msg reply scope rfl ht (acknowledgement_eq_some hre hack) hclient hip hscope hstate
    · exact hi (by simp [handle,handleMessage,hb])

end

section
variable {lib : TextLibrary} {config : DhcpConfig} {l : Ledger} {event : DhcpEvent} {s : DhcpState}

/-- A lease that runs stays in the table, but for one that its client gives up, as long as nothing is acknowledged. -/
theorem mem_of_runs {lease : DhcpLease} (hack : acknowledgement lib config s event=none) (hm : lease∈s.leases.rows)
    (ha : lease.state=.active) (hl : s.now ≤ lease.last) (hg : givenUpBy event≠some lease.mac) :
    lease∈(handle lib config s event).state.leases.rows := by
  cases @transition lib config s event with
  | quiet _ hleases _ =>
    rw [hleases]
    exact hm
  | givesUp mac _ hmac hstate =>
    rw [hstate]
    refine LeaseTable.mem_setState hm (decide_eq_false fun heq => hg ?_)
    rw [hmac,heq]
  | swept _ hstate =>
    rw [hstate]
    exact LeaseTable.mem_sweep hm ha hl
  | acknowledged msg reply scope _ _ hs =>
    rw [hack] at hs
    cases hs

theorem now_le (s : DhcpState) (event : DhcpEvent) : s.now ≤ (handle lib config s event).state.now := by
  cases @transition lib config s event with
  | quiet _ _ hnow => exact hnow
  | givesUp mac _ _ hstate | swept _ hstate | acknowledged msg reply scope _ _ _ _ _ _ hstate => rw [hstate]

theorem ipText_inj (hl : lib.Lawful) {a b : BitVec 32} (h : lib.ipText (.v4 a)=lib.ipText (.v4 b)) : a=b := by
  have hp := congrArg lib.parseIpv4 h
  rw [hl.parseIpv4_ipText,hl.parseIpv4_ipText] at hp
  exact Option.some.inj hp

/-- The leases that run when a proper request is acknowledged: the client's own of the address, and those of
other clients of other addresses, which stay. -/
theorem mem_createLease_of_proper {lease new : DhcpLease} (h : ProperRequest lib s new.mac new.ip)
    (hm : lease∈s.leases.rows) (hru : s.runs lease) (ho : ¬ (lease.mac=new.mac ∧ lease.ip=new.ip)) :
    lease∈(s.leases.createLease new).rows := by
  refine LeaseTable.mem_createLease.mpr (.inl ⟨hm,fun hmac => ?_,fun hip => ?_⟩)
  · exact ho ⟨hmac,h.settled lease hm hmac hru⟩
  · exact ho ⟨h.free lease hm hip hru,hip⟩

theorem recorded_after (hlb : lib.Lawful) (h : Recorded lib l) (hp : Proper lib l event) :
    Recorded lib (l.after lib config event) := by
  intro hold hm hli
  have hnow : l.server.now ≤ hold.last := (now_le l.server event).trans hli
  cases hack : acknowledgement lib config l.server event with
  | none =>
    simp only [Ledger.after,promised,hack,mem_filter,decide_eq_true_eq] at hm
    obtain ⟨lease,hro,hmac,hip,ha,hl⟩ := h hold hm.1 hnow
    refine ⟨lease,mem_of_runs hack hro ha (hl ▸ hnow) ?_,hmac,hip,ha,hl⟩
    rw [hmac]
    exact hm.2
  | some reply =>
    cases @transition lib config l.server event with
    | quiet hn | givesUp _ hn | swept hn =>
      rw [hack] at hn
      cases hn
    | acknowledged msg r scope hevent hrequest hs hclient hip hscope hstate =>
      obtain rfl : reply=r := Option.some.inj (hack.symm.trans hs)
      subst hevent
      have hre := hp hrequest
      simp only [Ledger.after,promised,hack,mem_cons,mem_filter,decide_eq_true_eq] at hm
      simp only [Ledger.after,hstate]
      rcases hm with rfl | ⟨⟨hh,-⟩,ho⟩
      · refine ⟨_,LeaseTable.mem_createLease.mpr (.inr rfl),?_,?_,rfl,rfl⟩
        · exact congrArg formatMac hclient.symm
        · exact congrArg (fun ip => lib.ipText (.v4 ip)) hip.symm
      · obtain ⟨lease,hro,hmac,ht,ha,hl⟩ := h hold hh hnow
        refine ⟨lease,mem_createLease_of_proper hre hro ⟨ha,hl ▸ hnow⟩ ?_,hmac,ht,ha,hl⟩
        rintro ⟨hsa,hsameIp⟩
        refine ho ⟨?_,?_⟩
        · rw [← hmac,hclient]
          exact hsa
        · rw [hip]
          exact ipText_inj hlb (ht.symm.trans hsameIp)

/-- A proper request is acknowledged only to the one client that may hold the address, and in a pool of its scope. -/
theorem exclusive_of_proper (h : Recorded lib l) (hp : Proper lib l event) : Exclusive lib config l event := by
  intro reply hack
  cases @transition lib config l.server event with
  | quiet hn | givesUp _ hn | swept hn =>
    rw [hack] at hn
    cases hn
  | acknowledged msg r scope hevent hrequest hs hclient hip hscope hstate =>
    obtain rfl : reply=r := Option.some.inj (hack.symm.trans hs)
    subst hevent
    have hre := hp hrequest
    constructor
    · intro hold hm hsa hnow
      obtain ⟨lease,hro,hmac,ht,ha,hla⟩ := h hold hm hnow
      rw [hsa,hip] at ht
      rw [← hmac,hclient]
      exact hre.free lease hro ht ⟨ha,hla ▸ hnow⟩
    · refine ⟨requestLease lib config l.server msg (formatMac msg.chaddr) scope,?_,?_,?_⟩
      · rw [hstate,LeaseTable.getLeaseByMac_eq_some_iff,hclient]
        exact ⟨LeaseTable.mem_createLease.mpr (.inr rfl),rfl⟩
      · rw [hip]
        rfl
      · unfold requestScope at hscope
        split at hscope
        · rename_i lease hl
          obtain ⟨hro,hmac⟩ := LeaseTable.getLeaseByMac_eq_some_iff.mp hl
          obtain rfl := Option.some.inj hscope
          exact hre.pooled lease hro hmac
        · obtain ⟨pool,hpo,rfl⟩ := Option.map_eq_some_iff.mp hscope
          have hin := find?_some hpo
          exact ⟨pool,mem_of_find?_eq_some hpo,rfl,hin⟩

theorem throughout_exclusive (hl : lib.Lawful) (events : List DhcpEvent) (h : Recorded lib l)
    (hp : Throughout lib config (Proper lib) l events) : Throughout lib config (Exclusive lib config) l events := by
  induction events generalizing l with
  | nil => trivial
  | cons event events ih =>
    obtain ⟨hf,hre⟩ := hp
    exact ⟨exclusive_of_proper h hf,ih (recorded_after hl h hf) hre⟩

/-- In every sequence of events in which the requests are proper, addresses are acknowledged to one client
at a time, and in a pool of the scope the lease is recorded under. -/
theorem leases_exclusive (hlib : lib.Lawful) (s : DhcpState) (events : List DhcpEvent)
    (hproper : Throughout lib config (Proper lib) (.found lib s) events) :
    Throughout lib config (Exclusive lib config) (.found lib s) events :=
  throughout_exclusive hlib events (recorded_found s) hproper

end

def labLibrary : TextLibrary := plainText []

def labConfig : DhcpConfig := ⟨3600,86400,"home"⟩

def labIp (n : Nat) : BitVec 32 := BitVec.ofNat 32 (0x0a000000+n)

def labText (n : Nat) : Text := labLibrary.ipText (.v4 (labIp n))

def lab : DhcpState := ⟨[⟨"lab",labText 1,labText 2,none,"",none⟩],[],.empty,1000⟩

def labMessage (messageType : MessageType) (client : UInt8) (ip : Option (BitVec 32)) : DhcpEvent :=
  .message ⟨true,some messageType,0,0,0,0,[client],ip,none⟩

def labRequest (client : UInt8) (n : Nat) : DhcpEvent := labMessage .request client (some (labIp n))

/-- Two clients that each ask for an address of their own, one of which renews it and one of which gives it
up to the other. -/
theorem leases_exclusive_lab : Throughout labLibrary labConfig (Exclusive labLibrary labConfig) (.found labLibrary lab)
    [labMessage .discover 1 none,labRequest 1 1,labRequest 2 2,.wait 60,labRequest 1 1,
      labMessage .release 2 none,.sweep,
      labMessage .release 1 none,labRequest 2 1] := by
  refine leases_exclusive (plainText_lawful []) lab _ ⟨nofun,?_,?_,trivial,?_,nofun,trivial,nofun,?_,trivial⟩
  all_goals exact fun _ => ⟨by decide,by decide,by decide⟩

/-- A client is given what another holds; an address outside all pools; and what another was given before it asked for a
second address. -/
theorem held_address_acknowledged :
    ¬ Throughout labLibrary labConfig (Exclusive labLibrary labConfig) (.found labLibrary lab) [labRequest 1 1,
      labRequest 2 1] ∧
    ¬ Throughout labLibrary labConfig (Exclusive labLibrary labConfig) (.found labLibrary lab) [labRequest 1 1,
      labRequest 1 9] ∧
    ¬ Throughout labLibrary labConfig (Exclusive labLibrary labConfig) (.found labLibrary lab)
      [labRequest 1 1,labRequest 1 2,labRequest 2 1] := by
  refine ⟨fun h => ?_,fun h => ?_,fun h => ?_⟩
  · obtain ⟨-,h,-⟩ := h
    exact absurd ((h _ rfl).1 ⟨formatMac [1],labIp 1,4600⟩ mem_cons_self rfl (by decide)) (by decide)
  · obtain ⟨-,h,-⟩ := h
    obtain ⟨-,lease,hl,-,hp⟩ := h _ rfl
    obtain rfl := Option.some.inj hl
    revert hp
    decide
  · obtain ⟨-,-,h,-⟩ := h
    exact absurd ((h _ rfl).1 ⟨formatMac [1],labIp 1,4600⟩ (mem_cons_of_mem _ mem_cons_self) rfl (by decide))
      (by decide)

end RolodexDns.DhcpLeases
