import RolodexDns.HonestHierarchies
import RolodexDns.ProgramTraces

/-! Zone cuts that no referral announces. Where the servers of a zone also serve a zone below it, its
answers come signed by the lower zone, and trust is carried down label by label. Every label on the way is
taken for a zone cut: the answer is found secure exactly if each of them is one. -/
namespace RolodexDns.HiddenCuts
open DomainNames DnsRecords ValidationVerdicts SignatureValidation ResponseReading List Name
open ResolverCaches ResolverWorld IterativeResolver ResolverExecution TrustContracts HonestHierarchies
  ProgramTrees Routine ProgramTraces

variable (H : Hierarchy) {cfg : Config}

/-- What a lookup is told by the servers of the tree, where the cached trust states are `known` and the time
is one of `times`. -/
def against (known : Name → TrustState → Prop) (times : UInt32 → Prop) : Contract Op Res where
  demands _ := True
  promises
    | .keyGet zone, r => ∀ state,r=some state → known zone state
    | .sendUdp s q, r => r=H.net s q
    | .sendTcp s q, r => r=H.net s q
    | .nowSecs, r => ∃ now,r=some now ∧ times now
    | .orderServers servers, r => IsOrdering servers r
    | _, _ => True

/-- The servers of `z` are those of all zones from `z` down to `w`, which are correctly signed. A DS RRset
is published at the zones among the names in between, by the zone above, and nowhere else. -/
structure Colocated (lib : Library) (H : Hierarchy) (z w : Name) (servers : List IpAddr) : Prop where
  below : Below z w
  upper : H.isZone z=true
  lower : H.isZone w=true
  served : servers≠[]
  replies : ∀ s∈servers,∀ q,∃ m,H.net s q=some m ∧ m.id=q.id ∧ m.truncated=false ∧
    validateQuestion m ⟨q.name,q.qtype,q.qclass⟩=true
  delegated : ∀ p n s q m now,H.isZone p=true → z.zoneOf p=true → H.NextCut p n n → n.zoneOf w=true →
    s∈servers → q.name=n → q.qtype=.DS → H.net s q=some m → H.valid now →
    recordsAt m.answers n .DS≠[] ∧
      (∃ facts,verifyRrset lib n .DS (recordsAt m.answers n .DS) m.answers (H.keys p) p now=.ok facts) ∧
      dsAlgorithmsSupported lib (dsRecords (recordsAt m.answers n .DS) n)=true ∧
      ∀ s' q' m' now',s'∈servers → q'.name=n → q'.qtype=.DNSKEY → H.net s' q'=some m' → H.valid now' →
        validateDnskeyRrset lib n m'.answers m'.answers (.ds (dsRecords (recordsAt m.answers n .DS) n))
          now'=.ok (H.keys n)
  undelegated : ∀ n s q m,Below z n → n.zoneOf w=true → H.isZone n=false → s∈servers → q.name=n → q.qtype=.DS →
    H.net s q=some m → recordsAt m.answers n .DS=[]

/-- The cached trust states of the zones on the way are their keys. -/
def Known (z w n : Name) (state : TrustState) : Prop :=
  H.isZone n=true → Below z n → n.zoneOf w=true → state=.secure (H.keys n)

/-- There are few names on the way down, and all of them are zones. -/
def Crossable (z w : Name) : Prop :=
  w.labels.length - z.labels.length ≤ maxHiddenCuts ∧ ∀ n,Below z n → n.zoneOf w=true → H.isZone n=true

/-- The records are signed, by `w` and about its own names. -/
structure SignedFrom (w : Name) (records : List Record) : Prop where
  signed : ∃ r∈records,r.data.asRrsig.isSome=true
  signers : ∀ r∈records,∀ sig,r.data.asRrsig=some sig → sig.signerName=w ∧ w.zoneOf r.name=true

section
variable {z w : Name} {records : List Record}

theorem signerBelowFrom_seen (hb : Below z w)
    (h : ∀ r∈records,∀ sig,r.data.asRrsig=some sig → sig.signerName=w ∧ w.zoneOf r.name=true) :
    signerBelowFrom z records (some w)=some w := by
  induction records with
  | nil => rfl
  | cons r records ih =>
    have ih := ih fun x hx => h x (mem_cons_of_mem _ hx)
    unfold signerBelowFrom
    cases hsi : r.data.asRrsig with
    | none => exact ih
    | some sig =>
      obtain ⟨hs,ho⟩ := h r mem_cons_self sig hsi
      simp [hs,ho,hb.1,hb.2,ih]

theorem SignedFrom.signerBelow (hb : Below z w) (h : SignedFrom w records) : signerBelow records z=some w := by
  unfold SignatureValidation.signerBelow
  obtain ⟨hsi,hs⟩ := h
  induction records with
  | nil =>
    obtain ⟨r,hr,-⟩ := hsi
    cases hr
  | cons r records ih =>
    have hre : ∀ x∈records,∀ sig,x.data.asRrsig=some sig → sig.signerName=w ∧ w.zoneOf x.name=true :=
      fun x hx => hs x (mem_cons_of_mem _ hx)
    unfold signerBelowFrom
    cases hsig : r.data.asRrsig with
    | none =>
      refine ih ?_ hre
      obtain ⟨x,hx,hso⟩ := hsi
      rcases mem_cons.mp hx with rfl | hx
      · rw [hsig] at hso
        cases hso
      · exact ⟨x,hx,hso⟩
    | some sig =>
      obtain ⟨hsg,ho⟩ := hs r mem_cons_self sig hsig
      simp [hsg,ho,hb.1,hb.2,signerBelowFrom_seen hb hre]

end

section
variable {H : Hierarchy} {z w n : Name} {servers : List IpAddr} {budget : Nat} {qclass : DnsClass}
  {known : Name → TrustState → Prop}
  {times : UInt32 → Prop} {s : IpAddr}

theorem nowSecs_told : Returns (against H known times) nowSecs budget fun r b => b=budget ∧ ∃ now,r=some now ∧
      times now := by
  refine (returns_perform trivial).mono fun r b hr => ?_
  obtain ⟨⟨now,hn,htimes⟩,rfl⟩ := hr
  exact ⟨rfl,now,hn,htimes⟩

variable (hC : Colocated cfg.lib H z w servers)
include hC

theorem Colocated.answering : Answering (against H known times) H.net servers where
  allows := ⟨trivial,trivial,fun _ _ => trivial,fun _ => trivial⟩
  ordered _ h := ⟨ResolverContracts.isOrdering_subset h,isOrdering_ne_nil h hC.served⟩
  sent _ _ _ h := h
  replies := hC.replies

variable {p : Name} {m : Message} {now : UInt32}

theorem crossCut_delegated (htimes : ∀ now,times now → H.valid now) (hbu : 0<budget)
    (hp : H.isZone p=true) (hzp : z.zoneOf p=true) (hc : H.NextCut p n n) (hn : n.zoneOf w=true)
    (hs : s∈servers) {id : UInt16} (hm : H.net s ⟨id,n,.DS,qclass,cfg.validating⟩=some m)
    (hno : times now) :
    Returns (against H known times) (crossCut cfg qclass p n (H.keys p) m.answers m.nameServers servers now) budget
      fun r b => b=budget - 1 ∧ r=.ok (.secure (H.keys n)) := by
  obtain ⟨hds,⟨facts,hv⟩,hsu,hk⟩ := hC.delegated p n s _ m now hp hzp hc hn hs rfl rfl hm (htimes now hno)
  unfold crossCut
  rw [if_neg (by simpa using hds),hv]
  rw [if_neg (by simp [hsu])]
  refine (hC.answering.fetchDnskeys hbu (P := (· = H.keys n)) (fun _ => nowSecs_told)
    fun s' q' m' now' hs' hna hq hm' hno' =>
    ⟨_,hk s' q' m' now' hs' hna hq hm' (htimes now' hno'),rfl⟩).andThen fun r b hr => ?_
  obtain ⟨rfl,validated,rfl,hf⟩ := hr
  refine returns_step trivial fun _ b hb => ?_
  obtain ⟨-,rfl⟩ := hb
  rw [hf]
  exact returns_pure ⟨rfl,rfl⟩

omit hC in
theorem crossCut_undelegated {keys : List Dnskey} (hds : recordsAt m.answers n .DS=[]) :
    Returns (against H known times) (crossCut cfg qclass p n keys m.answers m.nameServers servers now) budget
      fun r _ => r=.ok .insecure ∨ ∃ v,r=.error v ∧ v ≠ .secure := by
  unfold crossCut
  rw [if_pos (by simp [hds])]
  split
  · exact returns_step trivial fun _ b hb => returns_pure (.inl rfl)
  · exact returns_pure (.inr ⟨_,rfl,nofun⟩)

end

section
variable {H : Hierarchy} {z w : Name} {servers : List IpAddr} {budget k : Nat} {qclass : DnsClass}
  {known : Name → TrustState → Prop}
  {times : UInt32 → Prop}

/-- The names from `k` labels of `w` on down, one label at a time. -/
def labelsFrom (w : Name) (k count : Nat) : List Name := (range count).map fun i => w.trimTo (k+1+i)

theorem labelsFrom_succ (w : Name) (k count : Nat) :
    labelsFrom w k (count+1)=w.trimTo (k+1)::labelsFrom w (k+1) count := by
  unfold labelsFrom
  rw [range_succ_eq_map,map_cons,map_map]
  refine congrArg₂ _ rfl (map_congr_left fun i _ => ?_)
  show w.trimTo (k+1+(i+1))=w.trimTo (k+1+1+i)
  rw [show k+1+(i+1)=k+1+1+i by omega]

theorem nextCut_trimTo (hk : k<w.labels.length) (hz : H.isZone (w.trimTo (k+1))=true) :
    H.NextCut (w.trimTo k) (w.trimTo (k+1)) (w.trimTo (k+1)) := by
  have hl : (w.trimTo k).labels.length=k := by
    rw [trimTo_length]
    omega
  have hl' : (w.trimTo (k+1)).labels.length=k+1 := by
    rw [trimTo_length]
    omega
  refine ⟨hz,⟨?_,fun heq => ?_⟩,zoneOf_refl _,fun d _ hb hd => ?_⟩
  · exact zoneOf_of_length_le (trimTo_zoneOf w _) (trimTo_zoneOf w _) (by omega)
  · rw [heq] at hl'
    omega
  · have hlt := Below.length_lt hb
    exact zoneOf_of_length_le (zoneOf_refl _) hd (by omega)

theorem below_trimTo (hb : Below z w) (hk : z.labels.length<k) (hle : k ≤ w.labels.length) : Below z (w.trimTo k) := by
  have hl : (w.trimTo k).labels.length=k := by
    rw [trimTo_length]
    omega
  refine ⟨zoneOf_of_length_le hb.1 (trimTo_zoneOf w _) (by omega),fun heq => ?_⟩
  rw [heq] at hl
  omega

theorem zoneOf_trimTo (hb : Below z w) (hk : z.labels.length ≤ k) (hle : k ≤ w.labels.length) :
    z.zoneOf (w.trimTo k)=true := by
  refine zoneOf_of_length_le hb.1 (trimTo_zoneOf w _) ?_
  rw [trimTo_length]
  omega

variable (hC : Colocated cfg.lib H z w servers) (htimes : ∀ now,times now → H.valid now)
include hC htimes

/-- Down a way of zones, the keys of the lowest are found. -/
theorem descendFrom_zones
    (hkn : ∀ n state,known n state → Known H z w n state) (hz : ∀ n,Below z n → n.zoneOf w=true → H.isZone n=true)
    (count k : Nat) (hk : z.labels.length ≤ k) (hco : k+count=w.labels.length) (hbu : 2*count ≤ budget)
    (hzo : H.isZone (w.trimTo k)=true) :
    Returns (against H known times) (descendFrom cfg qclass servers (labelsFrom w k count) (w.trimTo k)
      (.secure (H.keys (w.trimTo k))))
      budget fun r _ => r=.trust (some (.secure (H.keys w))) := by
  induction count generalizing k budget with
  | zero =>
    have hw : w.trimTo k=w := by
      rw [show k=w.labels.length by omega]
      exact trimTo_eq_of_zoneOf (zoneOf_refl w)
    rw [hw]
    exact returns_pure rfl
  | succ count ih =>
    have hb := below_trimTo hC.below (k := k+1) (by omega) (by omega)
    have hw : (w.trimTo (k+1)).zoneOf w=true := trimTo_zoneOf w _
    have hn := hz _ hb hw
    rw [labelsFrom_succ]
    refine returns_step trivial fun cached b hc => ?_
    obtain ⟨hc,rfl⟩ := hc
    cases cached with
    | some state =>
      obtain rfl : state=.secure (H.keys (w.trimTo (k+1))) := hkn _ _ (hc state rfl) hn hb hw
      exact ih (k+1) (by omega) (by omega) (by omega) hn
    | none =>
      refine nowSecs_told.andThen fun r b hr => ?_
      obtain ⟨rfl,now,rfl,hno⟩ := hr
      refine (hC.answering.queryServers (by omega) (w.trimTo (k+1)) .DS).attempt.andThen fun r b hr => ?_
      obtain ⟨a,rfl,rfl,hme,id,hm⟩ := hr
      refine (crossCut_delegated hC htimes (by omega) hzo (zoneOf_trimTo hC.below hk (by omega))
        (nextCut_trimTo (by omega) hn) hw
        hme hm hno).andThen fun r b' hr => ?_
      obtain ⟨rfl,rfl⟩ := hr
      exact ih (k+1) (by omega) (by omega) (by omega) hn

def Lost (outcome : TrustOutcome) : Prop := outcome=.trust (some .insecure) ∨ ∃ v,outcome=.failed v ∧ v ≠ .secure

omit htimes hC in
theorem descendFrom_insecure (cuts : List Name) (parent : Name) :
    Returns (against H (fun _ _ => False) times) (descendFrom cfg qclass servers cuts parent .insecure) budget
      fun r _ => Lost r := by
  induction cuts generalizing parent budget with
  | nil => exact returns_pure (.inl rfl)
  | cons cut cuts ih =>
    refine returns_step trivial fun cached b hc => ?_
    cases cached with
    | some state => exact (hc.1 state rfl).elim
    | none => exact returns_step trivial fun _ b hb => ih cut

/-- Down a way on which a name is no zone, the trust is lost. -/
theorem descendFrom_lost (count k : Nat)
    (hk : z.labels.length ≤ k) (hco : k+count=w.labels.length) (hbu : 2*count ≤ budget)
    (hz : H.isZone (w.trimTo k)=true) (hg : ∃ j,k<j ∧ j ≤ w.labels.length ∧ H.isZone (w.trimTo j)=false) :
    Returns (against H (fun _ _ => False) times)
      (descendFrom cfg qclass servers (labelsFrom w k count) (w.trimTo k) (.secure (H.keys (w.trimTo k))))
        budget fun r _ => Lost r := by
  induction count generalizing k budget with
  | zero =>
    omega
  | succ count ih =>
    have hb := below_trimTo hC.below (k := k+1) (by omega) (by omega)
    have hw : (w.trimTo (k+1)).zoneOf w=true := trimTo_zoneOf w _
    rw [labelsFrom_succ]
    refine returns_step trivial fun cached b hc => ?_
    obtain ⟨hc,rfl⟩ := hc
    cases cached with
    | some state => exact (hc state rfl).elim
    | none =>
      refine nowSecs_told.andThen fun r b hr => ?_
      obtain ⟨rfl,now,rfl,hno⟩ := hr
      refine (hC.answering.queryServers (by omega) (w.trimTo (k+1)) .DS).attempt.andThen fun r b hr => ?_
      obtain ⟨a,rfl,rfl,hme,id,hm⟩ := hr
      cases hn : H.isZone (w.trimTo (k+1)) with
      | true =>
        refine (crossCut_delegated hC htimes (by omega) hz (zoneOf_trimTo hC.below hk (by omega))
          (nextCut_trimTo (by omega) hn) hw
          hme hm hno).andThen fun r b' hr => ?_
        obtain ⟨rfl,rfl⟩ := hr
        refine ih (k+1) (by omega) (by omega) (by omega) hn ?_
        obtain ⟨j,hlt,hle,hg⟩ := hg
        refine ⟨j,lt_of_le_of_ne hlt fun heq => ?_,hle,hg⟩
        rw [← heq,hn] at hg
        cases hg
      | false =>
        have hds := hC.undelegated _ a.server _ a.message hb hw hn hme rfl rfl hm
        refine (crossCut_undelegated hds).andThen fun r b' hr => ?_
        rcases hr with rfl | ⟨v,rfl,hv⟩
        · exact descendFrom_insecure _ _
        · exact returns_pure (.inr ⟨v,rfl,hv⟩)

theorem keysFor_crossable
    (hk : ∀ n state,known n state → Known H z w n state) (hc : Crossable H z w) (hb : 2*maxHiddenCuts ≤ budget)
    {records : List Record} (hs : SignedFrom w records) :
    Returns (against H known times) (keysFor cfg qclass z records (some (.secure (H.keys z))) servers) budget
      fun r _ => r=.ok (w,some (.secure (H.keys w))) := by
  have hlt := Below.length_lt hC.below
  have hz : w.trimTo z.labels.length=z := trimTo_eq_of_zoneOf hC.below.1
  have hf := hc.1
  have hd : Returns (against H known times) (descendFrom cfg qclass servers (cutsBetween z w) (w.trimTo z.labels.length)
      (.secure (H.keys (w.trimTo z.labels.length)))) budget fun r _ => r=.trust (some (.secure (H.keys w))) :=
    descendFrom_zones hC htimes hk hc.2 _ _ le_rfl (by omega) (by omega) (by rw [hz]; exact hC.upper)
  rw [hz] at hd
  unfold keysFor
  rw [if_neg (by simp),hs.signerBelow hC.below]
  refine Returns.andThen (P := fun r _ => r=.trust (some (.secure (H.keys w)))) ?_ fun r b hr => ?_
  · unfold descendTo
    dsimp only
    rw [if_neg (by simp [Ne.symm hC.below.2,hC.below.1]),if_neg]
    · exact hd
    · rw [cutsBetween,length_map,length_range]
      omega
  · rw [hr]
    exact returns_pure rfl

theorem keysFor_lost (hc : ¬ Crossable H z w)
    (hb : 2*maxHiddenCuts ≤ budget) {records : List Record} (hs : SignedFrom w records) :
    Returns (against H (fun _ _ => False) times)
      (keysFor cfg qclass z records (some (.secure (H.keys z))) servers) budget
      fun r _ => r=.ok (w,some .insecure) ∨ ∃ v,r=.error v ∧ v ≠ .secure := by
  have hz : w.trimTo z.labels.length=z := trimTo_eq_of_zoneOf hC.below.1
  unfold keysFor
  rw [if_neg (by simp),hs.signerBelow hC.below]
  refine Returns.andThen (P := fun r _ => Lost r) ?_ fun r b hr => ?_
  · unfold descendTo
    dsimp only
    rw [if_neg (by simp [Ne.symm hC.below.2,hC.below.1])]
    split_ifs with hf
    · exact returns_pure (.inr ⟨_,rfl,nofun⟩)
    · have hl : w.labels.length - z.labels.length ≤ maxHiddenCuts := by
        simpa only [cutsBetween,length_map,length_range,not_lt] using hf
      have hg : ∃ j,z.labels.length<j ∧ j ≤ w.labels.length ∧ H.isZone (w.trimTo j)=false := by
        by_contra hno
        refine hc ⟨hl,fun n hn hnw => ?_⟩
        by_contra hnt
        refine hno ⟨n.labels.length,Below.length_lt hn,length_le_of_zoneOf hnw,?_⟩
        rw [trimTo_eq_of_zoneOf hnw]
        exact Bool.eq_false_iff.mpr hnt
      have hd : Returns (against H (fun _ _ => False) times) (descendFrom cfg qclass servers (cutsBetween z w)
          (w.trimTo z.labels.length) (.secure (H.keys (w.trimTo z.labels.length)))) budget fun r _ => Lost r :=
        descendFrom_lost hC htimes _ _ le_rfl (by omega) (by omega) (by rw [hz]; exact hC.upper) hg
      rw [hz] at hd
      exact hd
  · rcases hr with rfl | ⟨v,rfl,hv⟩
    · exact returns_pure (.inl rfl)
    · exact returns_pure (.inr ⟨v,rfl,hv⟩)

end

section
variable {H : Hierarchy} {z w : Name} {servers : List IpAddr} {budget : Nat} {qclass : DnsClass}
  {known : Name → TrustState → Prop}
  {times : UInt32 → Prop} {α : Type}

/-- The trust is established, the records are checked, and the walk ends with the verdict. -/
def judge (cfg : Config) (qclass : DnsClass) (zone : Name) (records : List Record) (trust : Option TrustState)
    (servers : List IpAddr)
    (check : Name → List Dnskey → UInt32 → Verdict) (withhold : Verdict → Lookup α) (finish : Verdict → Lookup α) :
    Lookup α := do
  match ← keysFor cfg qclass zone records trust servers with
  | .error v => withhold v
  | .ok (signer,signerTrust) =>
    let verdict ← validateWith signerTrust (check signer)
    finish verdict

/-- How a walk ends: with the verdict it came to, or without being secure. -/
structure Concludes (H : Hierarchy) (z w : Name) (secure : α → Prop) (withhold finish : Verdict → Lookup α) : Prop where
  good : ∀ b,Returns (against H (Known H z w) H.valid) (finish .secure) b fun a _ => secure a
  bad : ∀ known times v b,v ≠ .secure → Ends (against H known times) (finish v) b fun r _ => ∀ a,r=.ok a → ¬ secure a
  withheld : ∀ known times v b,v ≠ .secure → Ends (against H known times) (withhold v) b fun r _ =>
    ∀ a,r=.ok a → ¬ secure a

theorem validateWith_secure (keys : List Dnskey) (check : List Dnskey → UInt32 → Verdict) :
    Returns (against H known times) (validateWith (some (.secure keys)) check) budget
      fun v _ => ∃ now,times now ∧ v=check keys now := by
  refine nowSecs_told.andThen fun r b hr => ?_
  obtain ⟨rfl,now,rfl,hn⟩ := hr
  exact returns_pure ⟨now,hn,rfl⟩

/-- What servers and clock can tell while nothing is cached. -/
theorem exists_told (cfg : Config) (H : Hierarchy) (times : UInt32 → Prop) {now : UInt32} (hn : times now) (o : Op) :
    ∃ r,(against H (fun _ _ => False) times).promises o r := by
  refine ⟨(respond cfg H.net now (.fresh [] 0) o).1,?_⟩
  cases o with
  | keyGet zone => exact nofun
  | sendUdp | sendTcp => rfl
  | nowSecs => exact ⟨now,rfl,hn⟩
  | orderServers servers => exact ⟨_,_,rfl,List.Perm.refl _,List.Perm.refl _⟩
  | _ => trivial

theorem against_mono {known' : Name → TrustState → Prop} {times' : UInt32 → Prop}
    (hk : ∀ n state,known n state → known' n state)
    (htimes : ∀ now,times now → times' now) {o : Op} {r : Res o} (h : (against H known times).promises o r) :
    (against H known' times').promises o r := by
  cases o with
  | keyGet zone => exact fun state hr => hk zone state (h state hr)
  | nowSecs =>
    obtain ⟨now,hr,hn⟩ := h
    exact ⟨now,hr,htimes now hn⟩
  | _ => exact h

/-- A response signed by the lower zone is found secure, whatever is cached and whenever it is checked,
exactly if trust can be carried down to the zone and the records are found secure with its keys. -/
theorem judge_iff (hC : Colocated cfg.lib H z w servers) (ht : ∃ now,H.valid now) (hb : 2*maxHiddenCuts ≤ budget)
    {records : List Record} (hs : SignedFrom w records) {check : Name → List Dnskey → UInt32 → Verdict}
    {secure : α → Prop} {withhold finish : Verdict → Lookup α} (he : Concludes H z w secure withhold finish) :
    Returns (against H (Known H z w) H.valid)
        (judge cfg qclass z records (some (.secure (H.keys z))) servers check withhold finish) budget
          (fun a _ => secure a) ↔
      Crossable H z w ∧ ∀ now,H.valid now → check w (H.keys w) now=.secure := by
  constructor
  · intro hre
    have hc : Crossable H z w := by
      by_contra hno
      have hl : Ends (against H (fun _ _ => False) H.valid)
          (judge cfg qclass z records (some (.secure (H.keys z))) servers check withhold finish) budget
          fun r _ => ∀ a,r=.ok a → ¬ secure a := by
        refine (keysFor_lost hC (fun _ h => h) hno hb hs).andThen fun r b hr => ?_
        rcases hr with rfl | ⟨v,rfl,hv⟩
        · exact he.bad _ _ .insecure b nofun
        · exact he.withheld _ _ v b hv
      obtain ⟨now,hn⟩ := ht
      obtain ⟨a,_,hse,hno⟩ := exists_returned hre hl fun o => by
        obtain ⟨r,hr⟩ := exists_told cfg H H.valid hn o
        exact ⟨r,against_mono (fun _ _ hf => hf.elim) (fun _ h => h) hr,hr⟩
      exact hno a rfl hse
    refine ⟨hc,fun now hn => ?_⟩
    by_contra hve
    -- the clock stands at a time at which the records are not found secure
    have hba : Ends (against H (fun _ _ => False) (· = now))
        (judge cfg qclass z records (some (.secure (H.keys z))) servers check withhold finish) budget
        fun r _ => ∀ a,r=.ok a → ¬ secure a := by
      have htimes : ∀ t,t=now → H.valid t := by
        rintro _ rfl
        exact hn
      refine (keysFor_crossable hC htimes (fun _ _ hf => hf.elim) hc hb hs).andThen fun r b hr => ?_
      rw [hr]
      refine (validateWith_secure (H.keys w) (check w)).andThen fun v b hv => ?_
      obtain ⟨_,rfl,rfl⟩ := hv
      exact he.bad _ _ _ b hve
    obtain ⟨a,_,hse,hno⟩ := exists_returned hre hba fun o => by
      obtain ⟨r,hr⟩ := exists_told cfg H (· = now) rfl o
      refine ⟨r,against_mono (fun _ _ hf => hf.elim) ?_ hr,hr⟩
      rintro _ rfl
      exact hn
    exact hno a rfl hse
  · rintro ⟨hc,hch⟩
    refine (keysFor_crossable hC (fun _ h => h) (fun _ _ h => h) hc hb hs).andThen fun r b hr => ?_
    rw [hr]
    refine (validateWith_secure (H.keys w) (check w)).andThen fun v b hv => ?_
    obtain ⟨now,hn,rfl⟩ := hv
    rw [hch now hn]
    exact he.good b

variable {qtype : RecordType} {m : Message}

theorem answerStep_concludes {name : Name} :
    Concludes H z w (fun res => res.verdict=.secure) (fun v => (return .withheld v : Lookup Resolution))
      fun verdict => do
      if verdict.withholdsAnswer then return .withheld verdict
      else
        if m.responseCode=.NoError then recordInsert name qtype m.answers (verdict=.secure)
        return (Resolution.answer m.responseCode m.answers).withVerdict verdict where
  good b := by
    rw [if_neg (by decide)]
    split
    · exact returns_step trivial fun _ _ _ => returns_pure rfl
    · exact returns_pure rfl
  bad known times v b hv := by
    split
    · exact ends_pure fun a ha => by cases ha; exact hv
    · have hp {b : Nat} : Ends (against H known times)
          (pure ((Resolution.answer m.responseCode m.answers).withVerdict v) : Lookup Resolution) b
          fun r _ => ∀ a,r=.ok a → a.verdict ≠ .secure := ends_pure fun a ha => by cases ha; exact hv
      split
      · exact returns_step trivial fun _ _ _ => hp
      · exact hp
  withheld known times v b hv := ends_pure fun a ha => by cases ha; exact hv

theorem negativeStep_concludes {rcode : ResponseCode} {soa : Option Record} :
    Concludes H z w (fun res => res.verdict=.secure) (fun v => (return .withheld v : Lookup Resolution))
      fun verdict => do
      if verdict.withholdsAnswer then return .withheld verdict
      else return ⟨rcode,[],soa,verdict⟩ where
  good b := returns_pure rfl
  bad known times v b hv := by
    split
    · exact ends_pure fun a ha => by cases ha; exact hv
    · exact ends_pure fun a ha => by cases ha; exact hv
  withheld known times v b hv := ends_pure fun a ha => by cases ha; exact hv

/-- After an alias the verdict is that of the alias and of its target together. -/
theorem cnameStep_concludes {target : Name} {seen : List Name} {inner : Inner}
    (hi : ∀ b,Returns (against H (Known H z w) H.valid) (inner target qtype (seen++[target])) b fun p _ =>
      p.1.verdict=.secure) :
    Concludes H z w (fun p => p.1.verdict=.secure) (fun v =>
      (return (.withheld v,seen) : Lookup (Resolution × List Name))) fun hopVerdict => do
      if hopVerdict.withholdsAnswer then return (.withheld hopVerdict,seen)
      else
        let (sub,seen) ← inner target qtype (seen++[target])
        let verdict := hopVerdict.merge sub.verdict
        if verdict.withholdsAnswer then return (.withheld verdict,seen)
        else return ((Resolution.answer sub.rcode (m.answers++sub.answers)).withVerdict verdict,seen) where
  good b := by
    refine (hi b).andThen fun p b hp => ?_
    have hm : Verdict.secure.merge p.1.verdict=.secure := Verdict.merge_eq_secure.mpr ⟨rfl,hp⟩
    dsimp only
    rw [hm]
    exact returns_pure rfl
  bad known times v b hv := by
    split
    · exact ends_pure fun a ha => by cases ha; exact hv
    · have han : Ends (against H known times) (inner target qtype (seen++[target])) b fun _ _ => True :=
        (sat_of_forall (fun _ => trivial) _).weaken (fun _ _ => trivial) fun _ _ _ => trivial
      refine han.bind (fun e _ _ a ha => nomatch ha) fun p b _ => ?_
      have hm : v.merge p.1.verdict ≠ .secure := fun heq => hv (Verdict.merge_eq_secure.mp heq).1
      dsimp only
      split
      · exact ends_pure fun a ha => by cases ha; exact hm
      · exact ends_pure fun a ha => by cases ha; exact hm
  withheld known times v b hv := ends_pure fun a ha => by cases ha; exact hv

/-- An answer, a denial or an alias from the lower zone is found secure, whatever is cached and whenever it
is checked, exactly if the names between the zones are few and all of them zones, and the lower zone's own
keys show it to be secure. -/
theorem hidden_cut_secure_iff (hC : Colocated cfg.lib H z w servers) (htime : ∃ now,H.valid now)
    (hbudget : 2*maxHiddenCuts ≤ budget) (name : Name) (qtype : RecordType) (m : Message) :
    (SignedFrom w m.answers →
      (Routine.Returns (against H (Known H z w) H.valid) (answerStep cfg qclass name qtype m m.answers servers
        z (some (.secure (H.keys z))))
          budget (fun res _ => res.verdict=.secure) ↔
        Crossable H z w ∧ ∀ now,H.valid now →
          answerVerdict cfg.lib name qtype m.answers m.nameServers w (H.keys w) now=.secure)) ∧
    (SignedFrom w m.nameServers → ∀ rcode soa,
      (Routine.Returns (against H (Known H z w) H.valid) (negativeStep cfg qclass name qtype m rcode soa servers
        z (some (.secure (H.keys z))))
          budget (fun res _ => res.verdict=.secure) ↔
        Crossable H z w ∧ ∀ now,H.valid now →
          negativeVerdict cfg.lib name qtype rcode m.nameServers w (H.keys w) now=.secure)) ∧
    (SignedFrom w m.answers → ∀ inner target seen,target∉seen → seen.length < maxCnameChain →
      (∀ b,Routine.Returns (against H (Known H z w) H.valid) (inner target qtype (seen++[target])) b fun p _ =>
        p.1.verdict=.secure) →
      (Routine.Returns (against H (Known H z w) H.valid)
          (cnameStep cfg qclass inner name qtype seen m target m.answers servers z (some (.secure (H.keys z)))) budget
          (fun p _ => p.1.verdict=.secure) ↔
        Crossable H z w ∧ ∀ now,H.valid now →
          answerVerdict cfg.lib name .CNAME m.answers m.nameServers w (H.keys w) now=.secure)) := by
  refine ⟨fun hs => ?_,fun hs rcode soa => ?_,fun hs inner target seen hn hl hi => ?_⟩
  · exact judge_iff hC htime hbudget hs answerStep_concludes
  · exact judge_iff hC htime hbudget hs negativeStep_concludes
  · unfold cnameStep
    rw [if_neg (by simpa using hn),if_neg (not_le.mpr hl)]
    exact judge_iff hC htime hbudget hs (cnameStep_concludes hi)

end

section
variable {lower : Name} {q : OutQuery}
open DenialChains TaskPools

def nested : Name := toyName [[97],[116]]

def hostOf (lower : Name) : Name := toyName ([120]::lower.labels.map Label.bytes)
def hostAddress (lower : Name) : List Record := [toyRecord (hostOf lower) (.a 7),toySig (hostOf lower) .A lower [2]]

def lowerDs (lower : Name) : List Record := [toyRecord lower (.ds ⟨0,8,0,[2]⟩),toySig lower .DS .root [1]]

/-- The server of the root and of one zone below it. Any other name is denied by the root. -/
def sharedReply (lower : Name) (q : OutQuery) : Message :=
  if q.qtype=.DNSKEY ∧ q.name=.root then toyReply q .NoError (toyDnskeys .root [1]) [] []
  else if q.qtype=.DNSKEY ∧ q.name=lower then toyReply q .NoError (toyDnskeys lower [2]) [] []
  else if q.qtype=.DS ∧ q.name=lower then toyReply q .NoError (lowerDs lower) [] []
  else if q.qtype=.A ∧ q.name=hostOf lower then toyReply q .NoError (hostAddress lower) [] []
  else toyReply q .NoError [] [toyRecord .root (.nsec ⟨lower,[.NS,.SOA,.DNSKEY,.NSEC,.RRSIG]⟩),
    toySig .root .NSEC .root [1]] []

def sharedTree (lower : Name) : Hierarchy where
  isZone := fun n => n=.root || n=lower
  servers := fun _ => [.v4 1]
  keys := fun n => if n=.root then [toyKey [1]] else [toyKey [2]]
  ds := fun n => if n=lower then lowerDs lower else []
  net := fun _ q => some (sharedReply lower q)
  valid := fun now => now=5

private theorem sharedReply_ds (hn : q.name=lower) (hq : q.qtype=.DS) :
    sharedReply lower q=toyReply q .NoError (lowerDs lower) [] [] := by
  unfold sharedReply
  rw [if_neg (by simp [hq,RecordType.DS,RecordType.DNSKEY]),if_neg (by simp [hq,RecordType.DS,RecordType.DNSKEY]),
    if_pos ⟨hq,hn⟩]

private theorem sharedReply_keys (hr : lower ≠ .root) (hn : q.name=lower) (hq : q.qtype=.DNSKEY) :
    sharedReply lower q=toyReply q .NoError (toyDnskeys lower [2]) [] [] := by
  unfold sharedReply
  rw [if_neg (by simp [hn,hr]),if_pos ⟨hq,hn⟩]

private theorem sharedReply_noDs (hn : q.name≠lower) (hq : q.qtype=.DS) :
    (sharedReply lower q).answers=[] := by
  unfold sharedReply
  rw [if_neg (by simp [hq,RecordType.DS,RecordType.DNSKEY]),if_neg (by simp [hq,RecordType.DS,RecordType.DNSKEY]),
    if_neg (by simp [hn]),if_neg (by simp [hq,RecordType.DS,RecordType.A])]
  rfl

structure Signs (lower : Name) : Prop where
  below : Below .root lower
  ds : recordsAt (lowerDs lower) lower .DS≠[] ∧
    (∃ facts,verifyRrset toyLibrary lower .DS (recordsAt (lowerDs lower) lower .DS) (lowerDs lower) [toyKey [1]]
      .root 5=.ok facts) ∧
    dsAlgorithmsSupported toyLibrary (dsRecords (recordsAt (lowerDs lower) lower .DS) lower)=true
  keys : validateDnskeyRrset toyLibrary lower (toyDnskeys lower [2]) (toyDnskeys lower [2])
    (.ds (dsRecords (recordsAt (lowerDs lower) lower .DS) lower)) 5=.ok [toyKey [2]]

private theorem tld_signs : Signs tld where
  below := ⟨by decide,by decide⟩
  ds := ⟨by decide,⟨_,rfl⟩,by decide⟩
  keys := by decide +kernel

private theorem nested_signs : Signs nested where
  below := ⟨by decide,by decide⟩
  ds := ⟨by decide,⟨_,rfl⟩,by decide⟩
  keys := by decide +kernel

private theorem sharedTree_colocated (h : Signs lower) :
    Colocated toyLibrary (sharedTree lower) .root lower [.v4 1] where
  below := h.below
  upper := by simp [sharedTree]
  lower := by simp [sharedTree]
  served := cons_ne_nil _ _
  replies := by
    intro s _ q
    refine ⟨_,rfl,?_⟩
    unfold sharedReply
    split_ifs <;> exact ⟨rfl,rfl,by simp [validateQuestion,toyReply]⟩
  delegated := by
    rintro p n s q m now hp - hc - - hna hq hnt rfl
    have hne : lower ≠ .root := h.below.2
    have hn : n=lower := by
      have hz : n=.root ∨ n=lower := by simpa [sharedTree] using hc.isZone
      refine hz.resolve_left fun hr => ?_
      subst hr
      exact hc.below.2 (zoneOf_antisymm (root_zoneOf _) hc.below.1)
    subst hn
    have hpa : p=.root := by
      have hz : p=.root ∨ p=n := by simpa [sharedTree] using hp
      exact hz.resolve_right fun hs => hc.below.2 hs.symm
    subst hpa
    cases hnt
    rw [sharedReply_ds hna hq]
    refine ⟨h.ds.1,h.ds.2.1,h.ds.2.2,?_⟩
    rintro s' q' m' now' - hna' hq' hnt' rfl
    cases hnt'
    rw [sharedReply_keys hne hna' hq',show (sharedTree n).keys n=[toyKey [2]] from if_neg hne]
    exact h.keys
  undelegated := by
    rintro n s q m - - hz - hna hq hnt
    cases hnt
    have hne : n ≠ .root ∧ n≠lower := by simpa [sharedTree] using hz
    rw [sharedReply_noDs (hna ▸ hne.2) hq]
    rfl

private theorem hostAddress_signed (h : lower.zoneOf (hostOf lower)=true) : SignedFrom lower (hostAddress lower) where
  signed := ⟨_,mem_cons_of_mem _ mem_cons_self,rfl⟩
  signers := by
    intro r hr sig hs
    rcases mem_cons.mp hr with rfl | hr
    · cases hs
    · rw [mem_singleton.mp hr] at hs ⊢
      cases hs
      exact ⟨rfl,h⟩

def hostReply (lower : Name) : Message := toyReply ⟨0,hostOf lower,.A,.IN,true⟩ .NoError (hostAddress lower) [] []

theorem hidden_cut_secure_tld :
    Routine.Returns (against (sharedTree tld) (Known (sharedTree tld) .root tld) (sharedTree tld).valid)
      (answerStep toyConfig .IN (hostOf tld) .A (hostReply tld) (hostReply tld).answers [.v4 1] .root
        (some (.secure [toyKey [1]]))) 8
      (fun res _ => res.verdict=.secure) := by
  have hc : Crossable (sharedTree tld) .root tld := by
    refine ⟨by decide,fun n hb hz => ?_⟩
    have hl : tld.labels.length ≤ n.labels.length := Below.length_lt hb
    have hs : n=tld := zoneOf_antisymm hz (zoneOf_of_length_le (zoneOf_refl tld) hz hl)
    rw [hs]
    decide
  refine ((hidden_cut_secure_iff (sharedTree_colocated tld_signs) ⟨5,rfl⟩ (by decide) (hostOf tld) .A (hostReply tld)).1
    (hostAddress_signed (by decide))).mpr ⟨hc,?_⟩
  rintro _ rfl
  decide +kernel

def hostLookup (lower : Name) : Job := .resolve [.v4 1] (hostOf lower) .A .IN

/-- Where the zone below lies two labels down and the name in between is none, the host's address is
withheld as bogus, although its zone's own keys show it to be secure. -/
theorem hidden_cut_bogus_nested :
    Colocated toyLibrary (sharedTree nested) .root nested [.v4 1] ∧ SignedFrom nested (hostReply nested).answers ∧
    (∀ now,(sharedTree nested).valid now → answerVerdict toyLibrary (hostOf nested) .A (hostReply nested).answers
      (hostReply nested).nameServers nested ((sharedTree nested).keys nested) now=.secure) ∧
    (execute (J := Job) (respond toyConfig (sharedTree tld).net 5) (Job.program toyConfig (hostLookup tld))
      (.fresh [] 0)).1.map
      (·.map (·.verdict))=some (.ok .secure) ∧
    ∃ reason,(execute (J := Job) (respond toyConfig (sharedTree nested).net 5)
      (Job.program toyConfig (hostLookup nested)) (.fresh [] 0)).1.map
      (·.map (·.verdict))=some (.ok (.bogus reason)) := by
  refine ⟨sharedTree_colocated nested_signs,hostAddress_signed (by decide),?_,by decide +kernel,_,rfl⟩
  rintro _ rfl
  decide +kernel

end

end RolodexDns.HiddenCuts
