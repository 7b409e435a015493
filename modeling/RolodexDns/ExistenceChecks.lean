import RolodexDns.LocalTraces
import RolodexDns.WildcardSynthesis

/-! What a denial is decided from. With its reads answered by one database, a query comes to the same
decision whatever the answer cache holds, unless the cache has records for it; and the server's own
denials say NXDOMAIN only of a name that does not exist in the data that they are decided from. -/
namespace RolodexDns.ExistenceChecks
open DnsRecords ProgramTrees ProgramTraces StoredRecords WireMessages ServerOperations
open AuthoritativeAnswers LocalAnswers QueryHandling LocalTraces RecordDatabase WildcardSynthesis

variable {cfg : ServerConfig}

section

def Denies (lib : ServerLibrary) (response : Bytes) : Prop :=
  ∃ msg,lib.fromBytes response=some msg ∧ msg.responseCode=.NXDomain

/-- The wire format carries the response code, and a message without answers can be written and is
read as one. -/
structure CodeLaws (lib : ServerLibrary) : Prop where
  fromBytes_nil : lib.fromBytes []=none
  toBytes_code : ∀ {bytes p},lib.toBytes p=some bytes → ∃ p',lib.fromBytes bytes=some p' ∧
    p'.responseCode=p.responseCode
  toBytes_negative : ∀ {p},p.answers=[] → (lib.toBytes p).isSome=true
  toBytes_answers : ∀ {bytes p p'},lib.toBytes p=some bytes → lib.fromBytes bytes=some p' → p.answers=[] → p'.answers=[]

variable {lib : ServerLibrary} {p : Packet}

variable (hlib : CodeLaws lib)
include hlib

theorem denies_toBytes {bytes : Bytes} (h : lib.toBytes p=some bytes) :
    Denies lib bytes ↔ p.responseCode=.NXDomain := by
  obtain ⟨p',hr,hc⟩ := hlib.toBytes_code h
  constructor
  · rintro ⟨msg,hm,hd⟩
    obtain rfl : p'=msg := Option.some.inj (hr.symm.trans hm)
    rw [← hc,hd]
  · exact fun hd => ⟨p',hr,hc.trans hd⟩

theorem not_denies_nil : ¬ Denies lib [] := by
  rintro ⟨msg,hm,-⟩
  rw [hlib.fromBytes_nil] at hm
  cases hm

theorem denies_toBytes_getD (h : Denies lib ((lib.toBytes p).getD [])) :
    p.responseCode=.NXDomain := by
  cases hp : lib.toBytes p with
  | none =>
    rw [hp] at h
    exact absurd h (not_denies_nil hlib)
  | some bytes =>
    rw [hp] at h
    exact (denies_toBytes hlib hp).mp h

theorem rcode_of_denies {ask : Asked} {reply : Reply} (h : Denies lib (reply.bytes lib ask)) :
    reply.rcode=.NXDomain := by
  unfold Reply.bytes at h
  split at h
  · exact denies_toBytes_getD hlib h
  · exact denies_toBytes_getD hlib h

theorem denies_negative (ha : p.answers=[]) (hc : p.responseCode=.NXDomain) :
    Denies lib ((lib.toBytes p).getD []) := by
  obtain ⟨bytes,hb⟩ := Option.isSome_iff_exists.mp (hlib.toBytes_negative ha)
  rw [hb]
  exact (denies_toBytes hlib hb).mpr hc

def Answerless (lib : ServerLibrary) (response : Bytes) : Prop := ∀ msg,lib.fromBytes response=some msg → msg.answers=[]

theorem answerless_toBytes (ha : p.answers=[]) : Answerless lib ((lib.toBytes p).getD []) := by
  obtain ⟨bytes,hb⟩ := Option.isSome_iff_exists.mp (hlib.toBytes_negative ha)
  rw [hb]
  exact fun msg hm => hlib.toBytes_answers hb hm ha

theorem not_denies_error {rcode : ResponseCode} (queryData : Bytes) (h : rcode≠.NXDomain) :
    ¬ Denies lib (makeErrorResponse lib queryData rcode) := by
  unfold makeErrorResponse
  split
  · exact fun hd => h (denies_toBytes_getD hlib hd)
  · exact not_denies_nil hlib

theorem answerless_error (queryData : Bytes) (rcode : ResponseCode) :
    Answerless lib (makeErrorResponse lib queryData rcode) := by
  unfold makeErrorResponse
  split
  · exact answerless_toBytes hlib rfl
  · exact fun msg hm => by cases hlib.fromBytes_nil.symm.trans hm

theorem denies_bytes (ask : Asked) (authority : List Record) (authoritative : Bool) :
    Denies lib ((⟨.NXDomain,[],authority,authoritative,true⟩ : Reply).bytes lib ask) :=
  denies_negative hlib rfl rfl

omit hlib in
theorem denies_sendable (hlib : CodeLaws cfg.lib) (proto : Proto) (queryData response : Bytes) :
    Denies cfg.lib (sendable cfg proto queryData response) ↔ Denies cfg.lib response := by
  refine sendable_induction (P := fun b => Denies cfg.lib b ↔ Denies cfg.lib response) Iff.rfl
    (fun hr h => Iff.trans ?_ h) proto queryData
  cases hr with
  | same => exact Iff.rfl
  | @written msg hm =>
    cases hb : cfg.lib.toBytes _ with
    | none => exact Iff.rfl
    | some bytes =>
      rw [Option.getD_some,denies_toBytes hlib hb]
      constructor
      · exact fun h => ⟨msg,hm,h⟩
      · rintro ⟨msg',hm',h⟩
        obtain rfl : msg=msg' := Option.some.inj (hm.symm.trans hm')
        exact h

end

section

def ReadsCache : LocalOp → Prop
  | .cacheLookup .. | .cacheLookupLocalOnly .. | .cacheLookupNegative .. => True
  | _ => False

variable (toLowercase : Text → Text) (db : Database)

/-- The database with a cache that holds nothing but denials. -/
def bare : (o : LocalOp) → LocalRes o
  | .cacheLookup _ _ | .cacheLookupLocalOnly _ _ => []
  | .cacheLookupNegative _ _ => some .nxDomain
  | o => db.read toLowercase o

/-- What is read comes from the database, as far as it does not come from the answer cache. -/
def reading : Contract LocalOp LocalRes where
  demands _ := True
  promises o r := ¬ ReadsCache o → r=bare toLowercase db o

variable (cfg : ServerConfig) (db : Database)

abbrev cold : (o : LocalOp) → LocalRes o := bare cfg.lower db

abbrev readingOf : Contract LocalOp LocalRes := reading cfg.lower db

/-- The same in the trace of a whole query. -/
def Reads : ((o : ServerOp) × ServerRes o) → Prop
  | ⟨.held o,r⟩ => (reading cfg.lower db).promises o r
  | _ => True

variable {toLowercase : Text → Text} {db : Database} {α : Type} {p : LocalProg α} {Q : α → Prop} {o : LocalOp}
  {f : LocalRes o → LocalProg α}

/-- The operation does not read the cache. -/
abbrev fixed : Contract LocalOp LocalRes := ⟨fun o => ¬ ReadsCache o,fun _ _ => True⟩

theorem fixed_step (ho : ¬ ReadsCache o) (hf : ∀ r,(f r).Sat fixed Q) :
    (LocalProg.perform o >>= f).Sat fixed Q :=
  ⟨ho,fun r _ => hf r⟩

theorem fixed_of_uses (hp : p.Sat (workingOn (fun _ _ => False) fun _ => True) Q) : p.Sat fixed Q := by
  refine hp.weaken (fun o ho => ?_) fun _ _ _ => trivial
  cases o <;> first | exact id | exact fun _ => ho

/-- A program that does not read the cache ends in the value that the database gives. -/
theorem sat_reading (hp : p.Sat fixed Q) :
    p.Sat (reading toLowercase db) fun a => a=eval (bare toLowercase db) p ∧ Q a :=
  sat_eval hp (fun _ _ => trivial) fun _ _ ho hr => hr ho

theorem sat_reading_of_harmless (hp : p.Sat harmless Q) : p.Sat (reading toLowercase db) Q :=
  hp.weaken (fun _ _ => trivial) fun _ _ _ => trivial

theorem reading_any (p : LocalProg α) : p.Sat (reading toLowercase db) fun _ => True :=
  (sat_of_forall (fun _ => trivial) p).weaken (fun _ h => h) fun _ _ _ => trivial

theorem sat_fixed_read (ho : ¬ ReadsCache o)
    (h : (f (bare toLowercase db o)).Sat (reading toLowercase db) Q) :
    (LocalProg.perform o >>= f).Sat (reading toLowercase db) Q :=
  ⟨trivial,fun _ hr => hr ho ▸ h⟩

end

section
variable (toLowercase : Text → Text) (db : Database) (name : Text)

/-- The name exists in the data that a denial is decided from, by record or by wildcard. -/
def known : Namespace → Bool
  | .global => nameOccupied toLowercase db.rows name || (wildcardOwnerFor toLowercase db.rows name).isSome
  | .scope scope => scopedNameOccupied toLowercase db.scopedCache scope name ||
      (scopedWildcardOwnerFor toLowercase db.scopedCache scope name).isSome
  | .lanFallback scope => scopedNameOccupied toLowercase db.scopedCache scope name ||
      nameOccupied toLowercase db.rows name ||
      (scopedWildcardOwnerFor toLowercase db.scopedCache scope name).isSome ||
        (wildcardOwnerFor toLowercase db.rows name).isSome

variable {toLowercase db name}

@[simp] theorem exists_ofWildcard (owner : Option Text) :
    ((owner.map Presence.wildcard).getD .absent).exists=owner.isSome := by
  cases owner <;> rfl

theorem presenceOf_known (ns : Namespace) :
    (presenceOf name ns).Sat (reading toLowercase db) fun presence => presence.exists=known toLowercase db name ns := by
  have ho : (presenceOf.globalOccupied name).Sat (reading toLowercase db) (· = nameOccupied toLowercase db.rows name) :=
    sat_fixed_read id rfl
  have hw : (presenceOf.globalWildcard name).Sat (reading toLowercase db)
    (· = wildcardOwnerFor toLowercase db.rows name) :=
    sat_fixed_read id rfl
  cases ns with
  | global =>
    refine ho.bind fun occupied ho => ?_
    subst ho
    split
    · rename_i hy
      simp [known,hy,Presence.exists]
    · rename_i hno
      refine hw.bind fun owner how => ?_
      subst how
      simp [known,hno]
  | scope scope =>
    refine sat_fixed_read id ?_
    change Prog.Sat _ (if scopedNameOccupied toLowercase db.scopedCache scope name=true then _ else _) _
    split
    · rename_i hy
      simp [known,hy,Presence.exists]
    · rename_i hno
      refine sat_fixed_read id ?_
      simp [known,hno,bare,Database.read]
  | lanFallback scope =>
    refine sat_fixed_read id ?_
    change Prog.Sat _ (if scopedNameOccupied toLowercase db.scopedCache scope name=true then _ else _) _
    split
    · rename_i hy
      simp [known,hy,Presence.exists]
    · rename_i hno
      refine ho.bind fun occupied ho => ?_
      subst ho
      split
      · rename_i hy
        simp [known,hno,hy,Presence.exists]
      · rename_i hno'
        refine sat_fixed_read id ?_
        cases hr : bare toLowercase db (.scopedWildcardOwnerFor scope name) with
        | some owner =>
          have hs : scopedWildcardOwnerFor toLowercase db.scopedCache scope name=some owner := hr
          simp [known,hno,hno',hs,Presence.exists]
        | none =>
          have hs : scopedWildcardOwnerFor toLowercase db.scopedCache scope name=none := hr
          refine hw.bind fun owner how => ?_
          subst how
          simp [known,hno,hno',hs]

/-- The denial of a name that exists is NODATA, and of one that does not NXDOMAIN. -/
theorem authoritativeNegative_known (lib : ServerLibrary) (ask : Asked) (ns : Namespace) :
    (authoritativeNegative lib ask ns).Sat (reading toLowercase db) fun reply =>
      ∃ authority,reply=⟨if known toLowercase db ask.qname ns then .NoError else .NXDomain,[],authority,true,true⟩ := by
  refine (presenceOf_known ns).bind fun presence hp => ?_
  rw [hp]
  refine (reading_any (negativeSoa lib ask.qname ns)).bind fun soa _ => ?_
  cases ns with
  | scope | lanFallback => exact ⟨soa,rfl⟩
  | global =>
    refine sat_fixed_read id ?_
    cases bare toLowercase db (.findSignedZone ask.qname) with
    | none => exact ⟨soa,rfl⟩
    | some apex =>
      refine (reading_any _).bind fun sigs _ => ?_
      refine (reading_any _).bind fun proof _ => ?_
      exact ⟨_,rfl⟩

end

section
variable {db : Database} {ask : Asked}

/-- The step answers with records; one that finds none would find none without a cache. -/
def Tells (cfg : ServerConfig) (db : Database) (p : LocalDecision) (found : Option LocalStep) : Prop :=
  Positive found ∧ (found=none → eval (bare cfg.lower db) p=none)

variable {p : LocalDecision}

theorem tells_of_fixed (hp : p.Sat fixed Positive) : p.Sat (readingOf cfg db) (Tells cfg db p) :=
  (sat_reading hp).mono fun _ h => ⟨h.2,fun hn => h.1.symm.trans hn⟩

/-- A step that asks the cache first and goes on without it. -/
theorem tells_cached {o : LocalOp} {f : LocalRes o → LocalDecision}
    (hp : (LocalProg.perform o >>= f).Sat harmless Positive)
    (hm : (f (cold cfg db o)).Sat fixed fun _ => True)
    (hh : ∀ r,r=cold cfg db o ∨ (f r).Sat (readingOf cfg db) (· ≠ none)) :
    (LocalProg.perform o >>= f).Sat (readingOf cfg db) (Tells cfg db (LocalProg.perform o >>= f)) := by
  refine (sat_reading_of_harmless hp).and ⟨trivial,fun r _ => ?_⟩
  rcases hh r with rfl | hf
  · exact (sat_reading hm).mono fun _ h hn => h.1.symm.trans hn
  · exact hf.mono fun _ hne hn => absurd hn hne

theorem scopedOfKind_tells (scope : Text) (overrideIp : Option IpAddr) (kind : RecordKind) :
    (scopedOfKind cfg ask scope overrideIp kind).Sat (readingOf cfg db)
      (Tells cfg db (scopedOfKind cfg ask scope overrideIp kind)) := by
  have hp : (scopedOfKind cfg ask scope overrideIp kind).Sat harmless Positive :=
    scopedOfKind_sat cfg trivial overrideIp trivial
  unfold scopedOfKind at hp ⊢
  by_cases hc : cfg.cacheEnabled=true
  · simp only [if_pos hc] at hp ⊢
    refine tells_cached hp ?_ fun cached => ?_
    · repeat' first | trivial | split | refine fixed_step id fun _ => ?_
    · cases cached with
      | nil => exact .inl rfl
      | cons => exact .inr (Option.some_ne_none _)
  · simp only [if_neg hc] at hp ⊢
    refine tells_of_fixed ?_
    repeat' first | exact positive_none | exact positive_edns _ _ | split | refine fixed_step id fun _ => ?_

theorem globalOfKind_tells (authoritative : Bool) (kind : RecordKind) :
    (globalOfKind cfg ask authoritative kind).Sat (readingOf cfg db)
      (Tells cfg db (globalOfKind cfg ask authoritative kind)) := by
  have hp : (globalOfKind cfg ask authoritative kind).Sat harmless Positive :=
    globalOfKind_sat cfg authoritative trivial
  have hs (kind : RecordKind) (records : List DnsRecord) :
    (signedAnswer cfg ask authoritative kind records).Sat fixed Positive :=
    fixed_of_uses (signedAnswer_sat cfg authoritative kind records)
  unfold globalOfKind at hp ⊢
  by_cases hc : cfg.cacheEnabled=true
  · simp only [if_pos hc] at hp ⊢
    refine tells_cached hp ?_ fun cached => ?_
    · refine Prog.Sat.mono (Q := Positive) ?_ fun _ _ => trivial
      repeat' first
        | exact positive_none
        | exact hs _ _
        | exact fixed_of_uses (aliases_sat cfg authoritative kind _)
        | split
        | refine fixed_step id fun _ => ?_
    · cases cached with
      | nil => exact .inl rfl
      | cons => exact .inr ((reading_any _).bind fun _ _ => Option.some_ne_none _)
  · simp only [if_neg hc] at hp ⊢
    refine tells_of_fixed ?_
    repeat' first
      | exact positive_none
      | exact hs _ _
      | exact fixed_of_uses (aliases_sat cfg authoritative kind _)
      | split
      | refine fixed_step id fun _ => ?_

theorem globalRecords_tells : (globalRecords cfg ask).Sat (readingOf cfg db)
      (Tells cfg db (globalRecords cfg ask)) := by
  refine sat_fixed_read id ?_
  unfold Tells globalRecords
  cases ask.recordKind with
  | some kind => exact globalOfKind_tells _ kind
  | none =>
    refine tells_of_fixed (fixed_step id fun records => ?_)
    split
    · exact positive_none
    · exact fixed_of_uses (signedAnswer_sat cfg _ _ _)

end

end RolodexDns.ExistenceChecks
