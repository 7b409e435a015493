import RolodexDns.ZoneSigning

/-! Signing passes beside mutations and queries, interleaved at every read and write. As long as passes of a zone do
not overlap and do not fail, nothing is lost: the zone is current, or marked, or a pass under way will make it current,
or some mutation is about to mark it. -/
namespace RolodexDns.Resigning
open StoredRecords RecordDatabase ProgramTrees SharedStores TextFields StoredRdata LikePatterns RecordStores
  ZoneSigning List

variable {signer : ZoneSigner} {zone : Text}

section
variable {now : Nat} {candidates : List DnsRecord} {toLowercase : Text → Text}

theorem performs_addRecord {record : DnsRecord} (h : isZoneContent record.recordType=false) :
    Performs (fun _ => True) [.insertRow record] (addRecord toLowercase record) := by
  refine performs_perform fun _ => ?_
  rw [if_neg (by simp [h])]
  exact performs_pure trivial

theorem performs_removeRecords {name : Text} {kind : RecordKind} {value : Text} (h : isZoneContent kind=false) :
    Performs (fun _ => True) [.deleteRows name (some kind) value]
      (removeRecords toLowercase name (some kind) value) := by
  refine performs_perform fun count => ?_
  rw [if_neg (by simp [h])]
  exact performs_pure trivial

theorem performs_forEach {α : Type} {xs : List α} {body : α → RecordProg Unit} {ops : α → List RecordOp}
    (h : ∀ x∈xs,Performs (fun _ => True) (ops x) (body x)) :
    Performs (fun _ => True) (xs.flatMap ops) (forEach xs body) := by
  induction xs with
  | nil => exact performs_pure trivial
  | cons x xs ih =>
    obtain ⟨hx,hxs⟩ := forall_mem_cons.mp h
    exact hx.bind fun _ _ => ih hxs

theorem performs_clearName (name : Text) : Performs (fun _ => True) (clearOps name) (clearName signer name) :=
  (performs_removeRecords rfl).bind fun _ _ => (performs_removeRecords rfl).bind fun _ _ => performs_pure trivial

theorem performs_addSignatures {signatures : List (Option DnsRecord)} (hs : none∉signatures)
    (hkind : ∀ r,some r∈signatures → r.recordType=.RRSIG) :
    Performs (· = true) (signatures.reduceOption.map RecordOp.insertRow) (addSignatures signer signatures) := by
  induction signatures with
  | nil => exact performs_pure rfl
  | cons signature signatures ih =>
    cases signature with
    | none => exact absurd mem_cons_self hs
    | some r =>
      refine (performs_addRecord (by rw [hkind r mem_cons_self]; rfl)).bind fun _ _ => ih ?_ ?_
      · exact fun hn => hs (mem_cons_of_mem _ hn)
      · exact fun r hr => hkind r (mem_cons_of_mem _ hr)

theorem performs_pass (h : ∀ rrset∈orderedRrsets signer zone candidates,none∉signatures signer zone now rrset) :
    Performs (· = true) (passOps signer zone now candidates) (do
      forEach (signedNames signer zone candidates) (clearName signer)
      forEach (chainRecords signer zone candidates) (addRecord signer.lower)
      addSignatures signer ((orderedRrsets signer zone candidates).flatMap (signatures signer zone now))) := by
  rw [passOps,append_assoc,map_eq_flatMap]
  refine (performs_forEach fun name _ => performs_clearName name).bind fun _ _ => ?_
  refine (performs_forEach fun r hr => performs_addRecord ?_).bind fun _ _ => performs_addSignatures ?_ fun r hr => ?_
  · obtain ⟨link,-,rfl⟩ := mem_map.mp hr
    rfl
  · simpa using h
  · obtain ⟨_,_,_,key,-,value,-,rfl⟩ := mem_newSignatures.mp (reduceOption_mem_iff.mpr hr)
    rfl

end

section
variable (signer : ZoneSigner) (zone : Text)

inductive Writes : RecordOp → Prop where
  | insertRow (record : DnsRecord) (httl : record.ttl<2^32) : Writes (.insertRow record)
  | deleteRows (name : Text) (kind : Option RecordKind) (value : Text) : Writes (.deleteRows name kind value)

/-- What remains of a pass that has read the zone: some writes, and its end. -/
def Remains {α : Type} (post : α → Prop) (ops : List RecordOp) (p : RecordProg α) : Prop :=
  (∀ o∈ops,Writes o) ∧ Performs post (ops++[.endZoneResign zone]) p

/-- What remains of a pass that has not read the zone yet. From the read on, and if nothing comes between, it makes the
zone current. -/
inductive Rebuilds {α : Type} (post : α → Prop) : RecordProg α → Prop where
  | prepare {o : RecordOp} {next : RecordRes o → RecordProg α} (h : Writes o ∨ o=.clearZoneResignPending zone)
    (hnext : ∀ r,Rebuilds post (next r)) : Rebuilds post (.op o next)
  | read {next : List DnsRecord → RecordProg α} (h : ∀ rows,(∀ r∈rows,Stored signer r) → Signable signer zone rows →
      ∃ ops,Remains zone post ops
        (next (rows.filter fun r => like none ('%' :: normalizeName signer.lower zone) r.name)) ∧
        Current signer zone (ops.foldl (rowsAfter signer.lower) rows)) : Rebuilds post
          (.op (.listRecordsBelow zone) next)

variable {signer zone} {α β : Type} {post : α → Prop} {post' : β → Prop} {p : RecordProg α} {f : α → RecordProg β}
  {ops : List RecordOp}

theorem Remains.bind (h : Remains zone post ops p) (hf : ∀ a,post a → Performs post' [] (f a)) :
    Remains zone post' ops (p >>= f) := by
  refine ⟨h.1,?_⟩
  have hb := h.2.bind hf
  rwa [append_nil] at hb

theorem Rebuilds.bind (h : Rebuilds signer zone post p) (hf : ∀ a,post a → Performs post' [] (f a)) :
    Rebuilds signer zone post' (p >>= f) := by
  induction h with
  | prepare ho _ ih => exact .prepare ho ih
  | read hre =>
    refine .read fun rows hst hs => ?_
    obtain ⟨ops,hr,hc⟩ := hre rows hst hs
    exact ⟨ops,hr.bind hf,hc⟩

theorem Rebuilds.of_performs (h : Performs post ops p) (hops : ∀ o∈ops,Writes o ∨ o=.clearZoneResignPending zone)
    (hf : ∀ a,post a → Rebuilds signer zone post' (f a)) : Rebuilds signer zone post' (p >>= f) := by
  induction ops generalizing p with
  | nil =>
    obtain ⟨a,rfl,ha⟩ := h
    exact hf a ha
  | cons o ops ih =>
    obtain ⟨next,rfl,hnext⟩ := h
    obtain ⟨ho,hops⟩ := forall_mem_cons.mp hops
    exact .prepare ho fun r => ih (hnext r) hops

variable (hsigner : signer.Lawful)
include hsigner

theorem writes_passOps {rows : List DnsRecord} {now : Nat} (hs : ∀ r∈rows,Stored signer r) :
    ∀ o∈passOps signer zone now rows,Writes o := by
  simp only [passOps,forall_mem_append,forall_mem_map,forall_mem_flatMap]
  refine ⟨⟨fun name _ => ?_,fun r hr => .insertRow r (ttl_chainRecords hs hr)⟩,fun r hr => .insertRow r ?_⟩
  · simp only [clearOps,forall_mem_cons]
    exact ⟨.deleteRows _ _ _,.deleteRows _ _ _,by simp⟩
  · obtain ⟨entry,he,-,key,-,value,-,rfl⟩ := mem_newSignatures.mp hr
    exact (signedSet_of_mem hsigner hs he).ttl_lt

theorem signable_congr {rows rows' : List DnsRecord} (h : zoneRows signer zone rows=zoneRows signer zone rows') :
    Signable signer zone rows ↔ Signable signer zone rows' := by
  unfold Signable
  rw [orderedRrsets_congr hsigner (zoneContent_congr h)]

theorem rebuilds_resign (hapex : Apex signer zone) {now : Nat} (hnow : now<2^32) :
    Rebuilds signer zone (· = SignOutcome.signed) (do
      let complete ← resign signer zone now
      RecordProg.perform (.endZoneResign zone)
      return if complete then SignOutcome.signed else .failed) := by
  refine .read fun rows hs hsi => ?_
  have hc := zoneRows_candidates hapex.normal hs
  refine ⟨passOps signer zone now rows,⟨writes_passOps hsigner hs,?_⟩,?_⟩
  · rw [← passOps_congr hsigner hc]
    refine (performs_pass ((signable_congr hsigner hc).mpr hsi now)).bind fun complete hco => ?_
    exact performs_perform fun _ => performs_pure (by rw [hco]; rfl)
  · rw [foldl_passOps hsigner hs]
    exact current_signedRows hsigner hs hapex hnow hsi

theorem signZone_eq (hapex : Apex signer zone) (hkeys : signer.signingKeys zone≠[]) {name : Text} {now : Nat}
    (hname : normalizeName signer.lower name=zone) (hnow : now<2^32) :
    ∃ next,signZone signer name now=.op (.beginZoneResign zone) next ∧
      ∀ r,Rebuilds signer zone (· = SignOutcome.signed) (next r) := by
  subst hname
  refine ⟨_,rfl,fun _ => ?_⟩
  change Rebuilds signer _ _ (if (signer.signingKeys (normalizeName signer.lower name)).isEmpty then _ else _)
  rw [if_neg (by simpa using hkeys)]
  refine .of_performs (performs_removeRecords rfl) (forall_mem_singleton.mpr (.inl (.deleteRows _ _ _))) fun _ _ => ?_
  refine .of_performs (performs_forEach fun key _ => performs_addRecord rfl) ?_ fun _ _ => ?_
  · simp only [forall_mem_flatMap,forall_mem_singleton]
    exact fun key _ => .inl (.insertRow _ (by simp [dnskeyTtl]))
  · exact .prepare (.inr rfl) fun _ => rebuilds_resign hsigner hapex hnow

end

section
variable (signer : ZoneSigner) (zone : Text) {p : RecordProg Unit}

/-- The calls: mutations of the types that are accepted, and passes over the zone by the operator or by the loop. -/
inductive Call (accepts : Option RecordKind → Prop) : RecordProg Unit → Prop where
  | addRecord (record : DnsRecord) (hkind : accepts (some record.recordType)) (httl : record.ttl<2^32) :
    Call accepts (addRecord signer.lower record)
  | removeRecords (name : Text) (kind : Option RecordKind) (value : Text) (hkind : accepts kind) :
    Call accepts (removeRecords signer.lower name kind value >>= fun _ => pure ())
  | signZone (name : Text) (now : Nat) (hname : normalizeName signer.lower name=zone) (hnow : now<2^32) :
    Call accepts (signZone signer name now >>= fun _ => pure ())
  | resignOnce (name : Text) (now : Nat) (hname : normalizeName signer.lower name=zone) (hnow : now<2^32) :
    Call accepts (resignOnce signer name now)

/-- A mutation of this type marks its zone. -/
def IsContent (kind : Option RecordKind) : Prop := (kind.map isZoneContent).getD true=true

/-- A pass begins when none is under way, and reads a zone whose signatures can all be made. -/
def Orderly (s : RecordStore) : RecordOp → Prop
  | .beginZoneResign _ => zone∉s.resignActive
  | .listRecordsBelow _ => Signable signer zone s.rows
  | _ => True

/-- A mutation that has written its rows and not marked their zone yet. -/
def Marks (p : RecordProg Unit) : Prop := ∃ name next,p=.op (.markZoneResignPending name) next ∧ ∀ r,next r=.pure ()

def MarkDue (p : RecordProg Unit) : Prop :=
  ∃ name next,p=.op (.markZoneResignPending name) next ∧ nameInZone signer.lower name zone=true

def InFlight (p : RecordProg Unit) : Prop :=
  Rebuilds signer zone (fun _ => True) p ∨ ∃ ops,Remains zone (fun _ => True) ops p

/-- A pass that makes the zone current if nothing comes between. -/
def Renews (p : RecordProg Unit) (rows : List DnsRecord) : Prop :=
  Rebuilds signer zone (fun _ => True) p ∨ ∃ ops,Remains zone (fun _ => True) ops p ∧
    Current signer zone (ops.foldl (rowsAfter signer.lower) rows)

variable {signer zone} {rows rows' : List DnsRecord} (toLowercase : Text → Text) {o : RecordOp}

theorem Renews.inFlight (h : Renews signer zone p rows) : InFlight signer zone p :=
  h.imp id fun ⟨ops,hops,_⟩ => ⟨ops,hops⟩

theorem Renews.congr (hsigner : signer.Lawful) (h : Renews signer zone p rows)
    (hr : zoneRows signer zone rows=zoneRows signer zone rows') : Renews signer zone p rows' := by
  refine h.imp id ?_
  rintro ⟨ops,hops,hc⟩
  exact ⟨ops,hops,hc.congr hsigner (zoneRows_foldl signer.lower hr ops)⟩

/-- A pass after it has read the zone ends, or writes and goes on. -/
theorem remains_op {ops : List RecordOp} {o : RecordOp} {next : RecordRes o → RecordProg Unit}
    (h : Remains zone (fun _ => True) ops (.op o next)) :
    (ops=[] ∧ o=.endZoneResign zone ∧ ∀ r,next r=.pure ()) ∨
      ∃ rest,ops=o::rest ∧ Writes o ∧ ∀ r,Remains zone (fun _ => True) rest (next r) := by
  obtain ⟨hw,hp⟩ := h
  cases ops with
  | nil =>
    obtain ⟨_,heq,hnext⟩ := hp
    cases heq
    refine .inl ⟨rfl,rfl,fun r => ?_⟩
    obtain ⟨_,heq,-⟩ := hnext r
    exact heq
  | cons o' rest =>
    obtain ⟨_,heq,hnext⟩ := hp
    cases heq
    obtain ⟨ho,hr⟩ := forall_mem_cons.mp hw
    exact .inr ⟨rest,rfl,ho,fun r => ⟨hr,hnext r⟩⟩

theorem not_inFlight_pure (a : Unit) : ¬ InFlight signer zone (.pure a) := by
  rintro (h | ⟨ops,-,h⟩)
  · cases h
  · cases ops <;> obtain ⟨_,heq,-⟩ := h <;> cases heq

/-- What a pass can do next. -/
theorem InFlight.op_cases {next : RecordRes o → RecordProg Unit} (h : InFlight signer zone (.op o next)) :
    Writes o ∨ o=.clearZoneResignPending zone ∨ o=.listRecordsBelow zone ∨ o=.endZoneResign zone := by
  rcases h with h | ⟨ops,h⟩
  · cases h with
    | prepare ho _ => exact ho.imp id .inl
    | read _ => exact .inr (.inr (.inl rfl))
  · rcases remains_op h with ⟨-,ho,-⟩ | ⟨rest,-,ho,-⟩
    · exact .inr (.inr (.inr ho))
    · exact .inl ho

theorem InFlight.next {next : RecordRes o → RecordProg Unit} (h : InFlight signer zone (.op o next))
    (ho : Writes o) (r : RecordRes o) :
    InFlight signer zone (next r) := by
  rcases h with h | ⟨ops,h⟩
  · cases h with
    | prepare _ hnext => exact .inl (hnext r)
    | read _ => cases ho
  · rcases remains_op h with ⟨-,rfl,-⟩ | ⟨rest,-,-,hr⟩
    · cases ho
    · exact .inr ⟨rest,hr r⟩

theorem Marks.not_inFlight (h : Marks p) : ¬ InFlight signer zone p := by
  obtain ⟨name,next,rfl,-⟩ := h
  intro h
  rcases h.op_cases with ho | ho | ho | ho <;> cases ho

theorem MarkDue.not_inFlight (h : MarkDue signer zone p) : ¬ InFlight signer zone p := by
  obtain ⟨name,next,rfl,-⟩ := h
  intro h
  rcases h.op_cases with ho | ho | ho | ho <;> cases ho

/-- A mutation writes its rows first. What follows is the mark, unless nothing was deleted. -/
theorem addRecord_eq {record : DnsRecord} (hkind : IsContent (some record.recordType)) : ∃ next,
    addRecord toLowercase record=.op (.insertRow record) next ∧
      ∀ r,∃ last,next r=.op (.markZoneResignPending (normalizeName toLowercase record.name)) last ∧
        ∀ r,last r=.pure () := by
  refine ⟨_,rfl,fun _ => ?_⟩
  rw [if_pos (show isZoneContent record.recordType=true from hkind)]
  exact ⟨_,rfl,fun _ => rfl⟩

theorem removeRecords_eq {name : Text} {kind : Option RecordKind} {value : Text} (hkind : IsContent kind) : ∃ next,
    (removeRecords toLowercase name kind value >>= fun _ => (pure () : RecordProg Unit)) =
      .op (.deleteRows name kind value) next ∧
      ∀ count : Nat,(count=0 ∧ next count=.pure ()) ∨ ∃ last,
        next count=.op (.markZoneResignPending (normalizeName toLowercase name)) last ∧ ∀ r,last r=.pure () := by
  refine ⟨_,rfl,fun count => ?_⟩
  change _ ∨ ∃ last,Prog.bind (if 0<count ∧ (kind.map isZoneContent).getD true=true then _ else _) _=_ ∧ _
  by_cases hc : 0<count
  · rw [if_pos ⟨hc,hkind⟩]
    exact .inr ⟨_,rfl,fun _ => rfl⟩
  · refine .inl ⟨Nat.eq_zero_of_not_pos hc,?_⟩
    change Prog.bind (if 0<count ∧ (kind.map isZoneContent).getD true=true then _ else _) _=_
    rw [if_neg fun h => hc h.1]
    rfl

theorem not_inFlight_of_call (h : Call signer zone IsContent p) : ¬ InFlight signer zone p := by
  intro hf
  cases h with
  | addRecord record hkind httl =>
    obtain ⟨next,heq,hnext⟩ := addRecord_eq signer.lower hkind
    rw [heq] at hf
    obtain ⟨last,hl,hd⟩ := hnext ()
    exact Marks.not_inFlight ⟨_,last,hl,hd⟩ (hf.next (.insertRow record httl) ())
  | removeRecords name kind value hkind =>
    obtain ⟨next,heq,hnext⟩ := removeRecords_eq signer.lower hkind
    rw [heq] at hf
    have ha := hf.next (.deleteRows name kind value) (0 : Nat)
    rcases hnext 0 with ⟨-,hd⟩ | ⟨last,hl,hd⟩
    · rw [hd] at ha
      exact not_inFlight_pure _ ha
    · exact Marks.not_inFlight ⟨_,last,hl,hd⟩ ha
  | signZone name now hname hnow =>
    rcases hf.op_cases with ho | ho | ho | ho <;> cases ho
  | resignOnce name now hname hnow =>
    rcases hf.op_cases with ho | ho | ho | ho <;> cases ho

end

section
variable (signer : ZoneSigner) (zone : Text) (signedZones : List Text)

/-- The zone is the one that is found for every name in it: it is signed, nothing beneath it is, and its name ends in
one dot. -/
structure SignedApex : Prop extends Apex signer zone where
  signed : zone∈signedZones
  lowest : ∀ z∈signedZones,¬ ('.' :: zone) <:+ z
  oneDot : ¬ ['.','.'] <:+ zone

variable {signer zone signedZones}

theorem find_tails {front back : List Text} {g : List Text → Option Text} {p : Text → Bool} (hb : g back=some zone)
    (hz : p zone=true)
    (hf : ∀ labels z,labels≠[] → g (labels++back)=some z → p z=false) :
    ((front++back).tails.filterMap g).find? p=some zone := by
  induction front with
  | nil =>
    cases back with
    | nil => simp [hb,hz]
    | cons label labels => rw [nil_append,tails_cons,filterMap_cons_some hb,find?_cons_of_pos hz]
  | cons label front ih =>
    rw [cons_append,tails_cons]
    cases hg : g (label::(front++back)) with
    | none => rw [filterMap_cons_none hg,ih]
    | some z => rw [filterMap_cons_some hg,find?_cons_of_neg (by simp [hf (label::front) z (by simp) hg]),ih]

theorem findSignedZone_eq (hzo : SignedApex signer zone signedZones) {name : Text}
    (hname : nameInZone signer.lower name zone=true) :
    findSignedZone signer.lower signedZones name=some zone := by
  unfold findSignedZone
  dsimp only
  have hin : normalizeName signer.lower name=zone ∨ ('.' :: zone) <:+ normalizeName signer.lower name := by
    unfold nameInZone at hname
    simpa [hzo.normal,hzo.ne_root] using hname
  split_ifs with hm
  · rcases hin with heq | hs
    · rw [heq]
    · exact absurd hs (hzo.lowest _ hm)
  · rcases hin with heq | ⟨front,hf⟩
    · exact absurd (heq ▸ hzo.signed) hm
    · -- the name is some labels, a dot, and the zone
      obtain ⟨body,hb⟩ : ∃ body,zone=body++['.'] := by
        have hn := hzo.normal
        unfold normalizeName at hn
        dsimp only at hn
        split_ifs at hn with hl
        · rw [hn] at hl
          exact ⟨zone.dropLast,(dropLast_append_getLast? '.' hl).symm⟩
        · exact ⟨_,hn.symm⟩
      have hl : body.getLast?≠some '.' := by
        intro hl
        refine hzo.oneDot ⟨body.dropLast,?_⟩
        rw [hb,← dropLast_append_getLast? '.' hl]
        simp
      have hne : body≠[] := by
        rintro rfl
        exact hzo.ne_root hb
      have ht : trimEndDots (normalizeName signer.lower name)=front ++ '.' :: body := by
        have hsh : normalizeName signer.lower name=(front ++ '.' :: body)++['.'] := by
          rw [← hf,hb]
          simp
        rw [hsh,trimEndDots_concat]
        cases body with
        | nil => exact absurd rfl hne
        | cons c body => simpa using hl
      have hla : labelsOf (normalizeName signer.lower name)=front.splitOn '.' ++ body.splitOn '.' := by
        unfold labelsOf
        rw [ht]
        exact splitOnP_append_cons front body (by simp)
      unfold ancestorNames
      rw [hla]
      have hj : joinLabels (body.splitOn '.')=body := intercalate_splitOn '.'
      refine find_tails ?_ (by simpa using hzo.signed) fun labels z hla hz => ?_
      · rw [hj,if_neg (by simpa using hne),← hb]
      · rw [CanonicalNames.joinLabels_append hla (splitOn_ne_nil '.' body),hj] at hz
        split at hz
        · cases hz
        · cases hz
          rw [decide_eq_false_iff_not]
          refine fun hm => hzo.lowest _ hm ⟨joinLabels labels,?_⟩
          rw [hb]
          simp

end

section
variable (signer : ZoneSigner) (zone : Text) (signedZones : List Text)

/-- What holds at every step. Of the four ways in which a zone is looked after, the last one is where a query can go
wrong: the rows are there, and the zone is not marked yet. -/
structure Sound (s : RecordStore) (tasks : List (RecordProg Unit)) : Prop where
  zones : s.signedZones=signedZones
  stored : ∀ r∈s.rows,Stored signer r
  known : ∀ t∈tasks,t=.pure () ∨ Call signer zone IsContent t ∨ Marks t ∨ InFlight signer zone t
  apart : tasks.Pairwise fun t u => ¬ (InFlight signer zone t ∧ InFlight signer zone u)
  active : ∀ t∈tasks,InFlight signer zone t → zone∈s.resignActive
  good : (∃ t∈tasks,Renews signer zone t s.rows) ∨ ((∀ t∈tasks,¬ InFlight signer zone t) ∧ Current signer zone s.rows) ∨
    zone∈s.resignPending ∨ ∃ t∈tasks,MarkDue signer zone t

variable {signer zone signedZones} {s s' : RecordStore} {t t' : RecordProg Unit} {tasks others : List (RecordProg Unit)}

theorem Sound.perm (h : Sound signer zone signedZones s tasks) (hp : tasks.Perm others) :
    Sound signer zone signedZones s others where
  zones := h.zones
  stored := h.stored
  known := fun t ht => h.known t (hp.mem_iff.mpr ht)
  apart := (hp.pairwise_iff fun hne hb => hne hb.symm).mp h.apart
  active := fun t ht => h.active t (hp.mem_iff.mpr ht)
  good := by
    simpa only [hp.mem_iff] using h.good

variable (h : Sound signer zone signedZones s (t::others))
include h

theorem Sound.apart_cons (ht : InFlight signer zone t) : ∀ u∈others,¬ InFlight signer zone u :=
  fun u hu hf => (pairwise_cons.mp h.apart).1 u hu ⟨ht,hf⟩

omit h in
theorem Sound.call (h : Sound signer zone signedZones s tasks) (ht : Call signer zone IsContent t) :
    Sound signer zone signedZones s (t::tasks) := by
  have hi := not_inFlight_of_call ht
  refine ⟨h.zones,h.stored,forall_mem_cons.mpr ⟨.inr (.inl ht),h.known⟩,
    pairwise_cons.mpr ⟨fun u _ hb => hi hb.1,h.apart⟩,
    forall_mem_cons.mpr ⟨fun hf => absurd hf hi,h.active⟩,?_⟩
  simp only [mem_cons,exists_eq_or_imp,forall_eq_or_imp]
  rcases h.good with hr | ⟨hn,hc⟩ | hp | hd
  · exact .inl (.inr hr)
  · exact .inr (.inl ⟨⟨hi,hn⟩,hc⟩)
  · exact .inr (.inr (.inl hp))
  · exact .inr (.inr (.inr (.inr hd)))

omit h in
theorem Sound.done (h : Sound signer zone signedZones s (.pure ()::others)) :
    Sound signer zone signedZones s others := by
  refine ⟨h.zones,h.stored,(forall_mem_cons.mp h.known).2,(pairwise_cons.mp h.apart).2,
    (forall_mem_cons.mp h.active).2,?_⟩
  have hg := h.good
  simp only [mem_cons,exists_eq_or_imp,forall_eq_or_imp] at hg
  rcases hg with (hr | hr) | ⟨⟨-,hn⟩,hc⟩ | hp | (⟨name,next,heq,-⟩ | hd)
  · exact absurd hr.inFlight (not_inFlight_pure ())
  · exact .inl hr
  · exact .inr (.inl ⟨hn,hc⟩)
  · exact .inr (.inr (.inl hp))
  · cases heq
  · exact .inr (.inr (.inr hd))

omit h in
theorem Sound.mutate (hsigner : signer.Lawful) (h : Sound signer zone signedZones s (t::others))
    (ht : ¬ InFlight signer zone t)
    (ht' : t'=.pure () ∨ Marks t') (hz : s'.signedZones=s.signedZones) (hs : ∀ r∈s'.rows,Stored signer r)
    (ha : s'.resignActive=s.resignActive) (hp : zone∈s.resignPending → zone∈s'.resignPending)
    (hd : MarkDue signer zone t → zone∈s'.resignPending)
    (hro : zoneRows signer zone s.rows=zoneRows signer zone s'.rows ∨ MarkDue signer zone t') :
    Sound signer zone signedZones s' (t'::others) := by
  have hi : ¬ InFlight signer zone t' := by
    rcases ht' with rfl | hma
    · exact not_inFlight_pure ()
    · exact hma.not_inFlight
  refine ⟨hz.trans h.zones,hs,forall_mem_cons.mpr ⟨ht'.imp id fun hma => .inr (.inl hma),
    (forall_mem_cons.mp h.known).2⟩,
    pairwise_cons.mpr ⟨fun u _ hb => hi hb.1,(pairwise_cons.mp h.apart).2⟩,
    forall_mem_cons.mpr ⟨fun hf => absurd hf hi,ha ▸ (forall_mem_cons.mp h.active).2⟩,?_⟩
  have hg := h.good
  simp only [mem_cons,exists_eq_or_imp,forall_eq_or_imp] at hg ⊢
  rcases hro with hsa | hm
  · rcases hg with (hr | ⟨u,hu,hr⟩) | ⟨⟨-,hn⟩,hc⟩ | hmr | (hm | hm)
    · exact absurd hr.inFlight ht
    · exact .inl (.inr ⟨u,hu,hr.congr hsigner hsa⟩)
    · exact .inr (.inl ⟨⟨hi,hn⟩,hc.congr hsigner hsa⟩)
    · exact .inr (.inr (.inl (hp hmr)))
    · exact .inr (.inr (.inl (hd hm)))
    · exact .inr (.inr (.inr (.inr hm)))
  · exact .inr (.inr (.inr (.inl hm)))

theorem Sound.proceed (ht : InFlight signer zone t) (ht' : InFlight signer zone t')
    (hz : s'.signedZones=s.signedZones) (hs : ∀ r∈s'.rows,Stored signer r) (ha : s'.resignActive=s.resignActive)
    (hre : Renews signer zone t' s'.rows ∨ (Renews signer zone t s.rows → Renews signer zone t' s'.rows) ∧
      s'.resignPending=s.resignPending) :
    Sound signer zone signedZones s' (t'::others) := by
  have ho := h.apart_cons ht
  refine ⟨hz.trans h.zones,hs,forall_mem_cons.mpr ⟨.inr (.inr (.inr ht')),(forall_mem_cons.mp h.known).2⟩,
    pairwise_cons.mpr ⟨fun u hu hb => ho u hu hb.2,(pairwise_cons.mp h.apart).2⟩,?_,?_⟩
  · rw [ha]
    exact forall_mem_cons.mpr ⟨fun _ => h.active t mem_cons_self ht,(forall_mem_cons.mp h.active).2⟩
  · have hg := h.good
    simp only [mem_cons,exists_eq_or_imp,forall_eq_or_imp] at hg ⊢
    rcases hre with hre | ⟨hre,hp⟩
    · exact .inl (.inl hre)
    · rcases hg with (hr | ⟨u,hu,hr⟩) | ⟨⟨hn,-⟩,-⟩ | hma | (hm | hm)
      · exact .inl (.inl (hre hr))
      · exact absurd hr.inFlight (ho u hu)
      · exact absurd ht hn
      · exact .inr (.inr (.inl (hp ▸ hma)))
      · exact absurd ht hm.not_inFlight
      · exact .inr (.inr (.inr (.inr hm)))

theorem Sound.begins (hfr : zone∉s.resignActive) (ht' : Rebuilds signer zone (fun _ => True) t') :
    Sound signer zone signedZones { s with resignActive := insertZone s.resignActive zone } (t'::others) := by
  have hn : ∀ u∈others,¬ InFlight signer zone u := fun u hu hf => hfr (h.active u (mem_cons_of_mem _ hu) hf)
  refine ⟨h.zones,h.stored,forall_mem_cons.mpr ⟨.inr (.inr (.inr (.inl ht'))),(forall_mem_cons.mp h.known).2⟩,
    pairwise_cons.mpr ⟨fun u hu hb => hn u hu hb.2,(pairwise_cons.mp h.apart).2⟩,fun _ _ _ => ?_,
    .inl ⟨t',mem_cons_self,.inl ht'⟩⟩
  rw [insertZone,if_neg hfr]
  exact mem_append_right _ mem_cons_self

omit h in
theorem Sound.ends {next : Unit → RecordProg Unit}
    (h : Sound signer zone signedZones s (.op (.endZoneResign zone) next::others))
    (ht : InFlight signer zone (.op (.endZoneResign zone) next)) (active : List Text) :
    Sound signer zone signedZones { s with resignActive := active } (.pure ()::others) := by
  have hot := h.apart_cons ht
  refine ⟨h.zones,h.stored,forall_mem_cons.mpr ⟨.inl rfl,(forall_mem_cons.mp h.known).2⟩,
    pairwise_cons.mpr ⟨fun u _ hb => not_inFlight_pure () hb.1,(pairwise_cons.mp h.apart).2⟩,
    forall_mem_cons.mpr ⟨fun hf => absurd hf (not_inFlight_pure ()),fun u hu hf => absurd hf (hot u hu)⟩,?_⟩
  have hg := h.good
  simp only [mem_cons,exists_eq_or_imp,forall_eq_or_imp] at hg ⊢
  rcases hg with (hr | ⟨u,hu,hr⟩) | ⟨⟨hn,-⟩,-⟩ | hma | (hm | hm)
  · -- nothing is left to write, so that what the pass leaves is what there is
    refine .inr (.inl ⟨⟨not_inFlight_pure (),hot⟩,?_⟩)
    rcases hr with hr | ⟨ops,hops,hc⟩
    · cases hr with
      | prepare ho _ => rcases ho with ho | ho <;> cases ho
    · rcases remains_op hops with ⟨rfl,-,-⟩ | ⟨rest,-,ho,-⟩
      · exact hc
      · cases ho
  · exact absurd hr.inFlight (hot u hu)
  · exact absurd ht hn
  · exact .inr (.inr (.inl hma))
  · exact absurd ht hm.not_inFlight
  · exact .inr (.inr (.inr (.inr hm)))

end

section

abbrev signerStore (signer : ZoneSigner) : Store RecordStore RecordOp RecordRes := recordStore signer.lower

variable {signedZones : List Text} {s : RecordStore} {others : List (RecordProg Unit)} {o : RecordOp}
  {next : RecordRes o → RecordProg Unit}

variable (hsigner : signer.Lawful)
include hsigner

theorem stored_rowsAfter {rows : List DnsRecord} (h : ∀ r∈rows,Stored signer r) (ho : Writes o) :
    ∀ r∈rowsAfter signer.lower rows o,Stored signer r := by
  cases ho with
  | insertRow record httl =>
    simp only [rowsAfter,forall_mem_append,forall_mem_singleton]
    exact ⟨h,hsigner.normal _,httl⟩
  | deleteRows name kind value => exact fun r hr => h r (mem_of_mem_filter hr)

omit hsigner in
theorem exec_of_writes (toLowercase : Text → Text) (ho : Writes o) (s : RecordStore) :
    let s' := ((recordStore toLowercase).exec s o).2
    s'.signedZones=s.signedZones ∧ s'.resignActive=s.resignActive ∧ s'.resignPending=s.resignPending := by
  cases ho <;> exact ⟨rfl,rfl,rfl⟩

variable (hapex : SignedApex signer zone signedZones) (hkeys : signer.signingKeys zone≠[])
  (h : Sound signer zone signedZones s (.op o next::others))
include hapex hkeys h

theorem Sound.act_call (hc : Call signer zone IsContent (.op o next)) (hal : Orderly signer zone s o) :
    Sound signer zone signedZones ((signerStore signer).exec s o).2
      (next ((signerStore signer).exec s o).1::others) := by
  have hi := not_inFlight_of_call hc
  have hb {name : Text} {now : Nat} (hname : normalizeName signer.lower name=zone) (hnow : now<2^32)
      {f : SignOutcome → RecordProg Unit} (hf : f .signed=.pure ()) (heq : .op o next=signZone signer name now >>= f) :
      Sound signer zone signedZones ((signerStore signer).exec s o).2
        (next ((signerStore signer).exec s o).1::others) := by
    obtain ⟨first,hfi,hre⟩ := signZone_eq hsigner hapex.toApex hkeys hname hnow
    rw [hfi] at heq
    cases heq
    have he : ((signerStore signer).exec s (.beginZoneResign zone)).2 =
        { s with resignActive := insertZone s.resignActive zone } := by
      simp only [recordStore,RecordStore.exec,hapex.normal]
    rw [he]
    exact h.begins hal ((hre ()).bind fun a ha => ⟨(),by rw [ha,hf],trivial⟩)
  generalize ht : Prog.op o next=t at hc
  cases hc with
  | addRecord record hkind httl =>
    obtain ⟨rest,heq,hrs⟩ := addRecord_eq signer.lower hkind
    rw [heq] at ht
    cases ht
    obtain ⟨last,hl,hd⟩ := hrs ()
    have hw := Writes.insertRow record httl
    refine h.mutate hsigner hi (.inr ⟨_,last,hl,hd⟩) rfl ?_ rfl id ?_ ?_
    · exact stored_rowsAfter hsigner h.stored hw
    · rintro ⟨name,next',hop,-⟩
      cases hop
    · cases hz : nameInZone signer.lower record.name zone with
      | true => exact .inr ⟨_,last,hl,by rwa [nameInZone_normal hsigner]⟩
      | false => exact .inl (zoneRows_insertRow_of_notMem hsigner hz s.rows).symm
  | removeRecords name kind value hkind =>
    obtain ⟨rest,heq,hrs⟩ := removeRecords_eq signer.lower hkind
    rw [heq] at ht
    cases ht
    have hs := stored_rowsAfter hsigner h.stored (.deleteRows name kind value)
    have hdu : MarkDue signer zone (.op (.deleteRows name kind value) rest) →
        zone∈((signerStore signer).exec s (.deleteRows name kind value)).2.resignPending := by
      rintro ⟨_,next',hop,-⟩
      cases hop
    rcases hrs ((signerStore signer).exec s (.deleteRows name kind value)).1 with ⟨hco,hd⟩ | ⟨last,hl,hd⟩
    · refine h.mutate hsigner hi (.inl hd) rfl hs rfl id hdu (.inl ?_)
      -- nothing was deleted
      have hn : ∀ r∈s.rows,¬ isDeleted (normalizeName signer.lower name) kind value r=true := countP_eq_zero.mp hco
      rw [rows_exec,rowsAfter,filter_eq_self.mpr fun r hr => by simpa using hn r hr]
    · refine h.mutate hsigner hi (.inr ⟨_,last,hl,hd⟩) rfl hs rfl id hdu ?_
      cases hz : nameInZone signer.lower name zone with
      | true => exact .inr ⟨_,last,hl,by rwa [nameInZone_normal hsigner]⟩
      | false => exact .inl (zoneRows_deleteRows_of_notMem hsigner hz kind value s.rows).symm
  | signZone name now hname hnow | resignOnce name now hname hnow => exact hb hname hnow rfl ht

omit hkeys hapex in
theorem Sound.act_inFlight (hf : InFlight signer zone (.op o next)) (hal : Orderly signer zone s o) :
    Sound signer zone signedZones ((signerStore signer).exec s o).2
      (next ((signerStore signer).exec s o).1::others) := by
  rcases hf with hre | ⟨ops,hr⟩
  · have hf : InFlight signer zone (.op o next) := .inl hre
    cases hre with
    | prepare ho hnext =>
      have hrn : Renews signer zone (next ((signerStore signer).exec s o).1)
          ((signerStore signer).exec s o).2.rows := .inl (hnext _)
      rcases ho with ho | rfl
      · obtain ⟨hz,ha,-⟩ := exec_of_writes signer.lower ho s
        refine h.proceed hf hrn.inFlight hz ?_ ha (.inl hrn)
        rw [rows_exec]
        exact stored_rowsAfter hsigner h.stored ho
      · exact h.proceed hf hrn.inFlight rfl h.stored rfl (.inl hrn)
    | read hra =>
      obtain ⟨ops,hr,hc⟩ := hra s.rows h.stored hal
      exact h.proceed hf (.inr ⟨ops,hr⟩) rfl h.stored rfl (.inl (.inr ⟨ops,hr,hc⟩))
  · have hf : InFlight signer zone (.op o next) := .inr ⟨ops,hr⟩
    rcases remains_op hr with ⟨-,rfl,hd⟩ | ⟨rest,-,ho,hrs⟩
    · rw [hd]
      exact h.ends hf _
    · obtain ⟨hz,ha,hp⟩ := exec_of_writes signer.lower ho s
      refine h.proceed hf (.inr ⟨rest,hrs _⟩) hz ?_ ha (.inr ⟨fun hrn => ?_,hp⟩)
      · rw [rows_exec]
        exact stored_rowsAfter hsigner h.stored ho
      · rcases hrn with hre | ⟨ops',hr',hc⟩
        · cases hre with
          | prepare _ hnext => exact .inl (hnext _)
          | read _ => cases ho
        · rcases remains_op hr' with ⟨-,rfl,-⟩ | ⟨rest',rfl,-,hrs'⟩
          · cases ho
          · refine .inr ⟨rest',hrs' _,?_⟩
            rw [rows_exec]
            exact hc

theorem Sound.act (ha : Orderly signer zone s o) :
    Sound signer zone signedZones ((signerStore signer).exec s o).2
      (next ((signerStore signer).exec s o).1::others) := by
  rcases h.known _ mem_cons_self with heq | hc | hm | hf
  · cases heq
  · exact h.act_call hsigner hapex hkeys hc ha
  · have hi : ¬ InFlight signer zone (.op o next) := hm.not_inFlight
    obtain ⟨name,_,heq,hd⟩ := hm
    cases heq
    refine h.mutate hsigner hi (.inl (hd _)) rfl h.stored rfl ?_ ?_ (.inl rfl)
    · intro hp
      change zone∈((findSignedZone signer.lower s.signedZones name).map (insertZone s.resignPending)).getD
        s.resignPending
      cases findSignedZone signer.lower s.signedZones name with
      | none => exact hp
      | some z => exact mem_insertZone.mpr (.inl hp)
    · rintro ⟨_,_,heq,hz⟩
      cases heq
      change zone∈((findSignedZone signer.lower s.signedZones name).map (insertZone s.resignPending)).getD
        s.resignPending
      rw [h.zones,findSignedZone_eq hapex hz]
      exact mem_insertZone.mpr (.inr rfl)
  · exact h.act_inFlight hsigner hf ha

omit h in
theorem Sound.step {P P' : Pool RecordStore RecordOp RecordRes Unit}
    (hs : Step (signerStore signer) {p | Call signer zone IsContent p} (Orderly signer zone) P P')
    (h : Sound signer zone signedZones P.state P.tasks) : Sound signer zone signedZones P'.state P'.tasks := by
  cases hs with
  | call s tasks hp => exact h.call hp
  | act before after next _ ha => exact ((h.perm perm_middle).act hsigner hapex hkeys ha).perm perm_middle.symm
  | done s before after a => exact (h.perm perm_middle).done

end

section
variable {s : RecordStore}

theorem sound_restart (hr : ∀ r∈s.rows,Stored signer r) (hz : SignedApex signer zone s.signedZones) :
    Sound signer zone s.signedZones (s.restart signer.lower) [] where
  zones := rfl
  stored := hr
  known := by simp
  apart := .nil
  active := by simp
  good := .inr (.inr (.inl hz.signed))

/-- A signer with one key, hexadecimal digits for base64, and signatures that say nothing. -/
def labSigner : ZoneSigner where
  formats := { plainFormats with base64Encode := hexEncode, base64Decode := hexDecode }
  signingKeys _ := [⟨.ed25519,.zsk,7,[1,2,3]⟩]
  sign _ _ := some [42]

def labStore : RecordStore := ⟨[⟨"nas.lab.",.NS,"ns.lab.",300,0⟩],[],["lab."],[],[]⟩

theorem labSigner_lawful : labSigner.Lawful where
  lowers _ _ := rfl
  uppers kind := by cases kind <;> decide
  normal name := by
    change normalizeName (map Char.toLower) (normalizeName (map Char.toLower) name) =
      normalizeName (map Char.toLower) name
    unfold normalizeName
    dsimp only
    split
    · rw [map_toLower_toLower,if_pos (by assumption)]
    · simp
  base64Decode := hexDecode_hexEncode
  isField_base64 _ := isField_hexEncode
  sign_ne_nil h := by
    cases h
    simp
  keyTag_lt h := by
    rw [mem_singleton.mp h]
    decide

/-- The rows of the zone with another name and its key. -/
def labRows : List DnsRecord :=
  labStore.rows++[⟨"pc.lab.",.NS,"ns.lab.",300,0⟩,
    ⟨"lab.",.DNSKEY,DsExport.dnskeyValue labSigner.formats .ed25519 [1,2,3] .zsk,dnskeyTtl,0⟩]

theorem signable_labRows : Signable labSigner "lab." labRows := by
  intro now rrset hr hn
  -- no branch depends on the time
  have ha : ((orderedRrsets labSigner "lab." labRows).all fun rrset =>
      (signatures labSigner "lab." now rrset).all Option.isSome)=true := Eq.refl true
  exact absurd (all_eq_true.mp (all_eq_true.mp ha rrset hr) none hn) (by simp)

def LabOrderly (s : RecordStore) : RecordOp → Prop
  | .beginZoneResign _ => "lab.".toList∉s.resignActive
  | .listRecordsBelow _ => s.rows=labRows
  | _ => True

instance (s : RecordStore) (o : RecordOp) : Decidable (LabOrderly s o) := by
  cases o <;> unfold LabOrderly <;> infer_instance

theorem LabOrderly.orderly {s : RecordStore} {o : RecordOp} (h : LabOrderly s o) :
    Orderly labSigner "lab.".toList s o := by
  cases o with
  | listRecordsBelow =>
    change Signable labSigner _ s.rows
    rw [show s.rows=labRows from h]
    exact signable_labRows
  | _ => exact h

theorem labApex : SignedApex labSigner "lab." labStore.signedZones where
  normal := by decide
  isField := ⟨by decide,by decide⟩
  ne_root := by decide
  signed := by decide
  lowest := by decide
  oneDot := by decide

/-- In every run of mutations and passes from a start of the server on, in which no pass of the zone begins
before another has ended and every signature can be made: a query in the zone that finds no mark finds
signatures and a chain of what is stored, unless some mutation has written its rows and not marked the zone
yet. When all is done the zone is current or marked. -/
theorem resigning_safe (hsigner : signer.Lawful) (hzone : SignedApex signer zone s.signedZones)
    (hkeys : signer.signingKeys zone≠[])
    (hrows : ∀ r∈s.rows,Stored signer r) {P : Pool RecordStore RecordOp RecordRes Unit}
    (hrun : Run (recordStore signer.lower) {p | Call signer zone IsContent p} (Orderly signer zone)
      ⟨s.restart signer.lower,[]⟩ P) :
    (∀ name,nameInZone signer.lower name zone=true → P.state.zoneSignaturesStale signer.lower name=false →
        (∀ t∈P.tasks,¬ MarkDue signer zone t) → Current signer zone P.state.rows) ∧
      (P.tasks=[] → Current signer zone P.state.rows ∨ zone∈P.state.resignPending) := by
  have hs : Sound signer zone s.signedZones P.state P.tasks := by
    induction hrun with
    | refl => exact sound_restart hrows hzone
    | tail _ hse ih => exact ih.step hsigner hzone hkeys hse
  refine ⟨fun name hname hst hd => ?_,fun hi => ?_⟩
  · rw [RecordStore.zoneSignaturesStale,hs.zones,findSignedZone_eq hzone hname,Option.any_some,Bool.or_eq_false_iff,
      decide_eq_false_iff_not,decide_eq_false_iff_not] at hst
    rcases hs.good with ⟨t,ht,hr⟩ | ⟨-,hc⟩ | hp | ⟨t,ht,hm⟩
    · exact absurd (hs.active t ht hr.inFlight) hst.2
    · exact hc
    · exact absurd hp hst.1
    · exact absurd hm (hd t ht)
  · have hg := hs.good
    rw [hi] at hg
    simpa using hg

abbrev LabMove := Move RecordOp RecordRes Unit

def labPass : LabMove := .call (signZone labSigner "lab." 0 >>= fun _ => pure ())

def labAdd (kind : RecordKind) (name : Text) : LabMove := .call (addRecord labSigner.lower ⟨name,kind,"ns.lab.",300,0⟩)

def steps (n : Nat) : List LabMove := replicate n (.step 0)

/-- A name is added while a pass runs, which takes a step between the writing of the row and the mark. -/
def added : List LabMove := labPass::steps 1++labAdd .NS "pc.lab."::steps 1++.step 1::steps 22

def labChecked : Store RecordStore RecordOp RecordRes :=
  { recordStore labSigner.lower with
    enabled := fun s o => decide (LabOrderly s o) && (recordStore labSigner.lower).enabled s o }

theorem resigning_safe_lab : ∃ P : Pool RecordStore RecordOp RecordRes Unit,
    Run (recordStore labSigner.lower) {p | Call labSigner "lab.".toList IsContent p} (Orderly labSigner "lab.".toList)
        ⟨labStore.restart labSigner.lower,[]⟩ P ∧
      P.tasks=[] ∧ P.state.zoneSignaturesStale labSigner.lower "pc.lab.".toList=false ∧
      (lookupExact P.state.rows "pc.lab." (some .NS)).length=1 ∧ Current labSigner "lab.".toList P.state.rows := by
  have hr : ∀ r∈labStore.rows,Stored labSigner r := forall_mem_singleton.mpr ⟨by decide,by decide⟩
  have hkeys : labSigner.signingKeys "lab.".toList≠[] := cons_ne_nil _ _
  have hf : (play labChecked ⟨labStore.restart labSigner.lower,[]⟩ added).any (fun P => P.tasks.isEmpty &&
      !P.state.zoneSignaturesStale labSigner.lower "pc.lab.".toList &&
      decide ((lookupExact P.state.rows "pc.lab." (some .NS)).length=1))=true := by decide +kernel
  obtain ⟨P,hP,hf⟩ := (Option.any_eq_true _ _).mp hf
  simp only [Bool.and_eq_true,List.isEmpty_iff,Bool.not_eq_true',decide_eq_true_eq] at hf
  obtain ⟨⟨hi,hs⟩,ha⟩ := hf
  have hc : ∀ p,.call p∈added → Call labSigner "lab.".toList IsContent p := by
    intro p hp
    simp [added,steps,labPass,labAdd] at hp
    rcases hp with rfl | rfl
    · exact .signZone _ 0 labApex.normal (by decide)
    · exact .addRecord _ rfl (by norm_num)
  have hru := run_of_play (fun s o => decide (LabOrderly s o)) (fun _ _ h => (of_decide_eq_true h).orderly) hc hP
  have hfr := (resigning_safe labSigner_lawful labApex hkeys hr hru).1 "pc.lab.".toList (by decide)
  exact ⟨P,hru,hi,hs,ha,hfr hs (by simp [hi])⟩

/-- A pass that has read the zone is overtaken by a mutation and by a whole pass, and then writes what it has read. -/
def overtaken : List LabMove := labPass::steps 5++labAdd .NS "pc.lab."::steps 3++labPass::steps 34

def failing : List LabMove := labAdd .NS "a..lab."::steps 3++labPass::steps 16

def byHand : List LabMove := labPass::steps 17++labAdd .DNSKEY "pc.lab."::steps 2

/-- After a pass, a mutation has written its row. -/
def unmarked : List LabMove := labPass::steps 17++labAdd .NS "pc.lab."::steps 1

def labRun (moves : List LabMove) : Option (Pool RecordStore RecordOp RecordRes Unit) :=
  play (recordStore labSigner.lower) ⟨labStore.restart labSigner.lower,[]⟩ moves

theorem call_of_mem {moves : List LabMove} (h : moves∈[overtaken,failing,byHand,unmarked]) {p : RecordProg Unit}
    (hp : .call p∈moves) :
    Call labSigner "lab." (fun _ => True) p := by
  have hpa : Call labSigner "lab." (fun _ => True) (signZone labSigner "lab." 0 >>= fun _ => pure ()) :=
    .signZone _ 0 labApex.normal (by decide)
  have ha (kind : RecordKind) (name : Text) : Call labSigner "lab." (fun _ => True)
      (addRecord labSigner.lower ⟨name,kind,"ns.lab.",300,0⟩) := .addRecord _ trivial (by norm_num)
  simp only [mem_cons,not_mem_nil,or_false] at h
  rcases h with rfl | rfl | rfl | rfl
  all_goals
    simp [overtaken,failing,byHand,unmarked,steps,labPass,labAdd] at hp
    rcases hp with rfl | rfl | rfl <;> first | exact hpa | exact ha _ _

/-- After each of these schedules the zone has no mark, and its signatures or its chain are not those of what is stored.
The first three leave nothing running. -/
theorem resigning_unsafe : [overtaken,failing,byHand,unmarked].Forall fun moves =>
      ∃ P : Pool RecordStore RecordOp RecordRes Unit,
    labRun moves=some P ∧
    Run (recordStore labSigner.lower) {p | Call labSigner "lab." (fun _ => True) p} (fun _ _ => True)
      ⟨labStore.restart labSigner.lower,[]⟩ P ∧
    (moves≠unmarked → P.tasks=[]) ∧ P.state.zoneSignaturesStale labSigner.lower "lab."=false ∧
    ¬ Current labSigner "lab." P.state.rows := by
  -- the chain is not that of the names and types there are
  have hch {moves : List LabMove} (hm : moves∈[overtaken,failing,byHand,unmarked]) (idle : Bool)
      (hf : (labRun moves).any (fun P => P.tasks.isEmpty == idle && !P.state.zoneSignaturesStale
        labSigner.lower "lab." &&
        !decide ((P.state.rows.filter fun r => nameInZone labSigner.lower r.name "lab." && r.recordType=.NSEC) =
          chainRecords labSigner "lab." P.state.rows))=true) : ∃ P : Pool RecordStore RecordOp RecordRes Unit,
            labRun moves=some P ∧
      Run (recordStore labSigner.lower) {p | Call labSigner "lab." (fun _ => True) p} (fun _ _ => True)
        ⟨labStore.restart labSigner.lower,[]⟩ P ∧
      P.tasks.isEmpty=idle ∧ P.state.zoneSignaturesStale labSigner.lower "lab."=false ∧
      ¬ Current labSigner "lab." P.state.rows := by
    obtain ⟨P,hP,hf⟩ := (Option.any_eq_true _ _).mp hf
    simp only [Bool.and_eq_true,beq_iff_eq,Bool.not_eq_true',decide_eq_false_iff_not] at hf
    exact ⟨P,hP,run_of_play (fun _ _ => true) (fun _ _ _ => trivial) (fun _ => call_of_mem hm) hP,hf.1.1,hf.1.2,
      fun hc => hf.2 hc.chain⟩
  refine forall_iff_forall_mem.mpr fun moves hm => ?_
  have hca := hm
  simp only [mem_cons,not_mem_nil,or_false] at hca
  rcases hca with rfl | rfl | rfl | rfl
  · obtain ⟨P,hP,hru,hi,hr⟩ := hch hm true (by decide +kernel)
    exact ⟨P,hP,hru,fun _ => List.isEmpty_iff.mp hi,hr⟩
  · -- no signature is written after the first one failed
    have hf : (labRun failing).any (fun P => P.tasks.isEmpty && !P.state.zoneSignaturesStale labSigner.lower "lab." &&
        (rrsigsCovering labSigner P.state.rows "nas.lab." .NS).isEmpty &&
          !(lookupExact P.state.rows "nas.lab." (some .NS)).isEmpty &&
        (lookupExact P.state.rows "nas.lab." (some .NS)).all fun r =>
          (canonicalRdata labSigner.formats r).isSome)=true := by
      decide +kernel
    obtain ⟨P,hP,hf⟩ := (Option.any_eq_true _ _).mp hf
    simp only [Bool.and_eq_true,Bool.not_eq_true',List.isEmpty_iff,List.isEmpty_eq_false_iff,List.all_eq_true] at hf
    obtain ⟨⟨⟨⟨hi,hst⟩,hn⟩,hne⟩,hso⟩ := hf
    refine ⟨P,hP,run_of_play (fun _ _ => true) (fun _ _ _ => trivial) (fun _ => call_of_mem hm) hP,fun _ =>
      hi,hst,fun hc => ?_⟩
    have hs := hc.signed "nas.lab." .NS (by decide) (by decide)
    obtain ⟨sig,hsi,-⟩ := hs hne hso ⟨.ed25519,.zsk,7,[1,2,3]⟩ (mem_singleton.mpr rfl)
    rw [hn] at hsi
    cases hsi
  · obtain ⟨P,hP,hru,hi,hr⟩ := hch hm true (by decide +kernel)
    exact ⟨P,hP,hru,fun _ => List.isEmpty_iff.mp hi,hr⟩
  · obtain ⟨P,hP,hru,-,hr⟩ := hch hm false (by decide +kernel)
    exact ⟨P,hP,hru,fun hne => absurd rfl hne,hr⟩

end

end RolodexDns.Resigning
