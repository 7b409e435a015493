import RolodexDns.WildcardSynthesis

/-! Substitution by DNAMEs. RFC 6672 asks for the DNAME of the closest ancestor that owns one, and for a
CNAME from the name to what it becomes when that ancestor is replaced by the target. The server walks up the
labels of the name; each of its lookups falls back to a wildcard, and what it finds is served under the type
CNAME. -/
namespace RolodexDns.DnameSubstitution
open DomainNames DnsRecords ProgramTraces StoredRecords RecordConversions WireMessages ServerOperations
  LocalAnswers List
open RecordDatabase WildcardSynthesis AuthenticData

section
variable {lib : ServerLibrary} {reply : (o : LocalOp) → LocalRes o} (find : Text → LocalProg (List DnsRecord))
  (normalized : Text)

/-- The ancestors that are left, closest first, each after the labels in front of it. -/
def ancestorsFrom : List Text → List Text → List (List Text × List Text)
  | _, [] => []
  | front, label::rest => (front,label::rest)::ancestorsFrom (front++[label]) rest

/-- The proper ancestors of a name but the root, closest first, each after the labels in front of it. -/
def properAncestors : List (List Text × Text) :=
  match labelsOf normalized with
  | [] => []
  | label::rest => (ancestorsFrom [label] rest).map fun a => (a.1,joinLabels a.2++['.'])

theorem eval_dnameAbove (front rest : List Text) :
    eval reply (dnameAbove lib find normalized front rest) =
      (ancestorsFrom front rest).findSome? fun a =>
        (eval reply (find (joinLabels a.2++['.']))).head?.map (dnameReply lib normalized a.1) := by
  induction rest generalizing front with
  | nil => rfl
  | cons label rest ih =>
    rw [dnameAbove,eval_bind,ancestorsFrom,findSome?_cons]
    cases eval reply (find (joinLabels (label::rest)++['.'])) with
    | nil => exact ih _
    | cons dname others => rfl

/-- The closest ancestor at which a DNAME is found decides. -/
theorem eval_checkDname (qname : Text) :
    eval reply (checkDname lib find qname) =
      (properAncestors (normalizeName lib.toLowercase qname)).findSome? fun a =>
        (eval reply (find a.2)).head?.map fun dname =>
          .answer (dnameReply lib (normalizeName lib.toLowercase qname) a.1 dname) := by
  unfold checkDname properAncestors
  dsimp only
  cases labelsOf (normalizeName lib.toLowercase qname) with
  | nil => rfl
  | cons label rest =>
    rw [eval_bind,eval_dnameAbove,eval_pure,map_findSome?,findSome?_map]
    congr 1
    funext a
    simp [Function.comp_def,Option.map_map]

end

section
variable {v : View} {toLowercase : Text → Text} {name : Text}

def dnamesAt (toLowercase : Text → Text) (v : View) (name : Text) : List DnsRecord :=
  orWildcard (v · .DNAME) (normalizeName toLowercase name)

/-- Nothing is stored at the name, nor at the wildcard in its place. -/
def Without (toLowercase : Text → Text) (v : View) (name : Text) : Prop :=
  v (normalizeName toLowercase name) .DNAME=[] ∧
    ∀ wildcard∈makeWildcardName (normalizeName toLowercase name),v wildcard .DNAME=[]

theorem dnamesAt_eq_nil_iff : dnamesAt toLowercase v name=[] ↔ Without toLowercase v name := by
  unfold dnamesAt orWildcard Without
  by_cases ho : v (normalizeName toLowercase name) .DNAME=[]
  · cases makeWildcardName (normalizeName toLowercase name) <;> simp [ho,renamed]
  · simp [ho]

theorem recordType_of_mem_dnamesAt (ht : ∀ name,∀ r∈v name .DNAME,r.recordType=.DNAME) {r : DnsRecord}
    (h : r∈dnamesAt toLowercase v name) : r.recordType=.DNAME := by
  unfold dnamesAt orWildcard at h
  dsimp only at h
  split at h
  · exact ht _ r h
  · split at h
    · exact ht _ r h
    · obtain ⟨stored,hs,rfl⟩ := mem_map.mp h
      exact ht _ stored hs

end

section
variable (lib : ServerLibrary) (v : View)

def OwnsDname (d : Name) : Prop := ∃ text,v text .DNAME≠[] ∧ lib.nameFromAscii text=some d

def StoresDname (d target : Name) : Prop :=
  ∃ text,∃ r∈v text .DNAME,lib.nameFromAscii text=some d ∧ lib.nameFromAscii r.value=some target

def StrictlyAbove (d q : Name) : Prop := d.zoneOf q=true ∧ d≠q

def HasRecord (q : Name) : Prop := ∃ text kind,v text kind≠[] ∧ lib.nameFromAscii text=some q

/-- `new` is `q` with the suffix `d` replaced by `target`. -/
def Replaces (q d target new : Name) : Prop := ∃ front,q.labels=front++d.labels ∧ new.labels=front++target.labels

/-- The DNAME itself, a CNAME to the substituted name if that is short enough to be one, and no other CNAME
of the name. -/
structure Synthesizes (q d target : Name) (answers : List Record) : Prop where
  dname : ∃ r∈answers,r.name=d ∧ r.recordType=.DNAME
  cname : ∀ new,Replaces q d target new → ∃ r∈answers,r.name=q ∧ r.data=.cname new
  only : ∀ r∈answers,∀ new,r.name=q → r.data=.cname new → Replaces q d target new

/-- What RFC 6672 asks of the step that looks for DNAMEs. -/
structure Substitutes (q : Name) (step : Option LocalStep) : Prop where
  below : ∀ d,OwnsDname lib v d → StrictlyAbove d q →
    (∀ d',OwnsDname lib v d' → StrictlyAbove d' q → d'.labels.length ≤ d.labels.length) → ¬ HasRecord lib v q →
      ∃ target reply,StoresDname lib v d target ∧ step=some (.answer reply) ∧ Synthesizes q d target reply.answers
  unaffected : (∀ d,OwnsDname lib v d → ¬ StrictlyAbove d q) → step=none

/-- No DNAME is stored above the name, unless the name has a record of its own, and if none is, none is
found at an ancestor. -/
def ClearAbove (qname : Text) (q : Name) : Prop :=
  ((∃ d,OwnsDname lib v d ∧ StrictlyAbove d q) → HasRecord lib v q) ∧
    ((∀ d,OwnsDname lib v d → ¬ StrictlyAbove d q) →
      ∀ a∈properAncestors (normalizeName lib.toLowercase qname),Without lib.toLowercase v a.2)

variable {lib v} {q : Name} {qname : Text}

theorem exists_closest (h : ∃ d,OwnsDname lib v d ∧ StrictlyAbove d q) :
    ∃ d,OwnsDname lib v d ∧ StrictlyAbove d q ∧
      ∀ d',OwnsDname lib v d' → StrictlyAbove d' q → d'.labels.length ≤ d.labels.length := by
  classical
  let distance (n : Nat) : Prop := ∃ d,OwnsDname lib v d ∧ StrictlyAbove d q ∧ q.labels.length - d.labels.length=n
  have hs : ∃ n,distance n := by
    obtain ⟨d,ho,ha⟩ := h
    exact ⟨_,d,ho,ha,rfl⟩
  obtain ⟨d,ho,ha,hdi⟩ := Nat.find_spec hs
  refine ⟨d,ho,ha,fun d' ho' ha' => ?_⟩
  have hl : Nat.find hs ≤ q.labels.length - d'.labels.length := Nat.find_min' hs ⟨d',ho',ha',rfl⟩
  have hd' := Name.length_le_of_zoneOf ha'.1
  omega

theorem recordType_dnameReply {normalized : Text} {front : List Text} {dname : DnsRecord}
    (ht : dname.recordType=.DNAME) {r : Record}
    (h : r∈(dnameReply lib normalized front dname).answers) : r.recordType=.CNAME := by
  have hc {row : DnsRecord} (hro : row.recordType=.DNAME ∨ row.recordType=.CNAME)
      (hr : lib.dbRecordToDnsRecord row=some r) : r.recordType=.CNAME := by
    obtain ⟨owner,-,hr⟩ := Option.bind_eq_some_iff.mp hr
    obtain ⟨data,hd,rfl⟩ := Option.map_eq_some_iff.mp hr
    have hre : lib.storedData row=(lib.nameFromAscii row.value).map .cname := by
      rcases hro with hro | hro <;> simp [TextLibrary.storedData,hro]
    rw [hre] at hd
    obtain ⟨target,-,rfl⟩ := Option.map_eq_some_iff.mp hd
    rfl
  obtain ⟨row,hro,hr⟩ := mem_filterMap.mp h
  rcases mem_pair.mp hro with rfl | rfl
  · exact hc (.inl ht) hr
  · exact hc (.inr rfl) hr

/-- The step, over any place that records are stored in. -/
theorem substitutes_iff (hty : ∀ name,∀ r∈v name .DNAME,r.recordType=.DNAME) {step : Option LocalStep}
    (hst : step=(properAncestors (normalizeName lib.toLowercase qname)).findSome? fun a =>
      (dnamesAt lib.toLowercase v a.2).head?.map fun dname =>
      .answer (dnameReply lib (normalizeName lib.toLowercase qname) a.1 dname)) :
    Substitutes lib v q step ↔ ClearAbove lib v qname q := by
  have hn : step=none ↔ ∀ a∈properAncestors (normalizeName lib.toLowercase qname),Without lib.toLowercase v a.2 := by
    rw [hst,findSome?_eq_none_iff]
    refine forall₂_congr fun a _ => ?_
    rw [Option.map_eq_none_iff,head?_eq_none_iff,dnamesAt_eq_nil_iff]
  have hcn : ∀ reply,step=some (.answer reply) → ∀ r∈reply.answers,r.recordType=.CNAME := by
    intro reply heq r hr
    rw [hst] at heq
    obtain ⟨a,-,ha⟩ := exists_of_findSome?_eq_some heq
    obtain ⟨dname,hdn,hrp⟩ := Option.map_eq_some_iff.mp ha
    cases hrp
    exact recordType_dnameReply (recordType_of_mem_dnamesAt hty (mem_of_head? hdn)) hr
  constructor
  · intro h
    refine ⟨fun hab => ?_,fun hc => hn.mp (h.unaffected hc)⟩
    by_contra hre
    obtain ⟨d,ho,hab,hcl⟩ := exists_closest hab
    obtain ⟨target,reply,-,heq,hs⟩ := h.below d ho hab hcl hre
    obtain ⟨r,hr,-,ht⟩ := hs.dname
    rw [hcn reply heq r hr] at ht
    exact absurd ht (by decide)
  · rintro ⟨hab,hf⟩
    refine ⟨fun d ho hd _ hre => absurd (hab ⟨d,ho,hd⟩) hre,fun hc => hn.mpr (hf hc)⟩

end

/-- RFC 6672 is kept, globally and in a scope, exactly for names above which no DNAME is stored (or that
have a record of their own) and at none of whose ancestors one is found. -/
theorem dname_substitution_iff (cfg : ServerConfig) (db : Database) (scope : Text) (ask : Asked)
    (htyped : ∀ name,∀ r∈scopeView db.scopedCache scope name .DNAME,r.recordType=.DNAME) :
    (Substitutes cfg.lib (rowsView db.rows) ask.question.name
      (eval (db.read cfg.lower) (checkDnameGlobal cfg.lib ask.qname)) ↔
      ClearAbove cfg.lib (rowsView db.rows) ask.qname ask.question.name) ∧
    (Substitutes cfg.lib (scopeView db.scopedCache scope) ask.question.name
        (eval (db.read cfg.lower) (checkDnameScoped cfg.lib scope ask.qname)) ↔
      ClearAbove cfg.lib (scopeView db.scopedCache scope) ask.qname ask.question.name) := by
  have hro : ∀ name,∀ r∈rowsView db.rows name .DNAME,r.recordType=.DNAME := by
    intro name r hr
    have hk := (mem_filter.mp hr).2
    simp only [Bool.and_eq_true,decide_eq_true_eq,Option.all_some] at hk
    exact hk.2.symm
  refine ⟨substitutes_iff hro ?_,substitutes_iff htyped ?_⟩
  · exact eval_checkDname _ _
  · exact eval_checkDname _ _

def lettered (labels : List UInt8) : Option Name := Name.fromLabels (labels.map fun l => [l])

def nameT : Name := (lettered [116]).getD .root
def nameXA : Name := (lettered [120,97]).getD .root
def nameXT : Name := (lettered [120,116]).getD .root
def nameYXA : Name := (lettered [121,120,97]).getD .root
def nameYT : Name := (lettered [121,116]).getD .root

def dnameConfig : ServerConfig :=
  { forwardingConfig with lib := { tableLibrary [] with toTextLibrary := plainText [nameA,nameT,nameXA,nameXT,
    nameYXA,nameYT] } }

def dnameDb (owner : String) (h : owner.toList.getLast?=some '.') : Database where
  rows := [⟨owner.toList,.DNAME,"t.",60,0⟩]
  scopedRows := []
  scopedCache := [("s:"++owner.toList ++ ":DNAME",[⟨owner.toList,.DNAME,"t.",60,0⟩])]
  other := holdsNothing
  normalized := by simpa using h

def askAddress (name : Name) : Asked := ⟨[],queryA,none,⟨name,.A,.IN⟩,dnameConfig.lib.nameText name,none,none⟩

def answersOf : Option LocalStep → Option (List Record)
  | some (.answer reply) => some reply.answers
  | _ => none

theorem scopeView_dnameDb (name : Text) : scopeView (dnameDb "a." rfl).scopedCache "s" name .DNAME =
    if name="a." then (dnameDb "a." rfl).rows else [] := by
  have hk : scopedRecordCacheKey "s" name (some .DNAME)="s:a.:DNAME" ↔ name="a." := by
    have hr : ("s:a.:DNAME" : Text)=scopedRecordCacheKey "s" "a." (some .DNAME) := by decide
    rw [hr]
    refine ⟨fun h => ?_,fun h => h ▸ rfl⟩
    exact (cons.inj (append_cancel_left (append_cancel_right h))).2
  change (lookup (scopedRecordCacheKey "s" name (some .DNAME)) [("s:a.:DNAME",(dnameDb "a." rfl).rows)]).getD []=_
  split_ifs with hn
  · rw [hk.mpr hn]
    rfl
  · rw [lookup_cons,beq_eq_false_iff_ne.mpr fun h => hn (hk.mp h)]
    rfl

/-- The owner of a DNAME is itself left alone, globally and in a scope. -/
theorem dname_substitution_owner :
    let db := dnameDb "a." rfl
    (OwnsDname dnameConfig.lib (rowsView db.rows) nameA ∧ Substitutes dnameConfig.lib (rowsView db.rows) nameA
      (eval (db.read dnameConfig.lower) (checkDnameGlobal dnameConfig.lib (askAddress nameA).qname))) ∧
    OwnsDname dnameConfig.lib (scopeView db.scopedCache "s") nameA ∧
      Substitutes dnameConfig.lib (scopeView db.scopedCache "s") nameA
      (eval (db.read dnameConfig.lower) (checkDnameScoped dnameConfig.lib "s" (askAddress nameA).qname)) := by
  intro db
  have ho {v : View} (hv : ∀ text,v text .DNAME≠[] → text="a.") :
      (∃ d,OwnsDname dnameConfig.lib v d ∧ StrictlyAbove d nameA) → HasRecord dnameConfig.lib v nameA := by
    rintro ⟨d,⟨text,hs,hre⟩,-,hne⟩
    have hn : dnameConfig.lib.nameFromAscii "a."=some nameA := by decide
    rw [hv text hs] at hre
    exact absurd (Option.some.inj (hre.symm.trans hn)) hne
  have hro : ∀ text,rowsView db.rows text .DNAME≠[] → text="a." := by
    intro text hs
    obtain ⟨r,hr⟩ := exists_mem_of_ne_nil _ hs
    obtain ⟨hm,hk⟩ := mem_filter.mp hr
    obtain rfl := mem_singleton.mp hm
    exact Eq.symm (by simpa using hk)
  have hsc : ∀ text,scopeView db.scopedCache "s" text .DNAME≠[] → text="a." := by
    intro text hs
    by_contra hne
    exact hs ((scopeView_dnameDb text).trans (if_neg hne))
  have hst := dname_substitution_iff dnameConfig db "s" (askAddress nameA) fun name r hr => by
    rw [scopeView_dnameDb] at hr
    split_ifs at hr
    · rw [mem_singleton.mp hr]
    · cases hr
  exact ⟨⟨⟨"a.",by decide,by decide⟩,hst.1.mpr ⟨ho hro,fun _ => forall_mem_nil _⟩⟩,
    ⟨"a.",by decide,by decide⟩,hst.2.mpr ⟨ho hsc,fun _ => forall_mem_nil _⟩⟩

/-- With a DNAME at `a.`, `x.a.` is answered with two CNAMEs and no DNAME. With one at the wildcard `*.a.`,
`y.x.a.` is answered as if `x.a.` owned it. -/
theorem dname_served_as_cname :
    (answersOf (eval ((dnameDb "a." rfl).read dnameConfig.lower) (localAnswer dnameConfig (askAddress nameXA))) =
        some [⟨nameA,.IN,60,.cname nameT⟩,⟨nameXA,.IN,60,.cname nameXT⟩] ∧
      answersOf (eval ((dnameDb "a." rfl).read dnameConfig.lower)
          (checkDnameScoped dnameConfig.lib "s" (askAddress nameXA).qname)) =
        some [⟨nameA,.IN,60,.cname nameT⟩,⟨nameXA,.IN,60,.cname nameXT⟩]) ∧
    (answersOf (eval ((dnameDb "*.a." rfl).read dnameConfig.lower) (localAnswer dnameConfig (askAddress nameYXA))) =
        some [⟨nameXA,.IN,60,.cname nameT⟩,⟨nameYXA,.IN,60,.cname nameYT⟩] ∧
      answersOf (eval ((dnameDb "*.a." rfl).read dnameConfig.lower)
          (checkDnameScoped dnameConfig.lib "s" (askAddress nameYXA).qname)) =
        some [⟨nameXA,.IN,60,.cname nameT⟩,⟨nameYXA,.IN,60,.cname nameYT⟩]) := by
  decide

end RolodexDns.DnameSubstitution
