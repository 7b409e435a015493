import RolodexDns.AcmeStatuses
import RolodexDns.ExclusiveRequests

/-! What may be used once: a binding key for one account, an account key for one account, an order for one
certificate. Each is checked by one call of the database and used up by a later one, and nothing is held in
between, so that this is kept only by requests for the same thing that do not overlap. -/
namespace RolodexDns.AcmeSingleUse
open StoredRecords RecordDatabase RelyGuarantee CertificateRequests AcmeServer AcmeStatuses ExclusiveRequests List
open AcmeOrders (key_of_find? mem_insertRow mem_updateRows)

variable {lib : AcmeLibrary} {config : AcmeConfig}

section

inductive Single where
  | newAccount (body : Body)
  | finalize (id : Text) (body : Body)

def Single.request : Single → Request
  | .newAccount body => .newAccount body
  | .finalize id body => .finalize id body

abbrev Caller := AcmeConfig × Single

variable (lib : AcmeLibrary) (s : Audited) (caller : Caller) (id : Text)

def callerProgram : AcmeProg Answer := handle lib caller.1 caller.2.request

/-- The tables, and what was performed for which request, the latest first. -/
structure Audited where
  state : AcmeStore
  log : List (Caller × (o : AcmeOp) × AcmeRes o)

def Audited.exec (s : Audited) (o : AcmeOp) : AcmeRes o × Audited :=
  ((s.state.exec lib o).1,⟨(s.state.exec lib o).2,(caller,⟨o,(s.state.exec lib o).1⟩)::s.log⟩)

def issuedFor : Caller × (o : AcmeOp) × AcmeRes o → Bool
  | ((_,.finalize id' _),⟨.issueLeaf _ _ _ _,.ok _⟩) => id'=id
  | _ => false

def Audited.issued : Nat := s.log.countP (issuedFor id)

def Audited.bound (kid : Text) : Nat := s.state.accounts.countP (·.eabKid=some kid)

def Audited.keyed (thumbprint : Text) : Nat := s.state.accounts.countP (·.thumbprint=thumbprint)

structure SingleUse (s : Audited) : Prop where
  bindings : ∀ kid,s.bound kid ≤ 1
  keys : ∀ thumbprint,s.keyed thumbprint ≤ 1
  orders : ∀ id,s.issued id ≤ 1

inductive Resource where
  | binding (kid : Text)
  | key (thumbprint : Text)
  | order (id : Text)

def needs : Caller → Resource → Prop
  | (_,.newAccount body), .binding kid =>
    ∃ jws payload eab,body=.ok jws ∧ jws.payload=.ok payload ∧ payload.externalAccountBinding=some eab ∧ eab.kid=.ok kid
  | (_,.newAccount body), .key thumbprint =>
    ∃ jws jwk,body=.ok jws ∧ jws.jwk=some jwk ∧ lib.jwkThumbprint jwk=.ok thumbprint
  | (_,.finalize id _), .order id' => id'=id
  | _, _ => False

end

section
variable (lib : AcmeLibrary) {accounts : List AcmeAccount} {account : AcmeAccount}

/-- The record of the authority can be computed. -/
def Publishable (ca : CaPair) : Prop := ∃ tlsa,lib.generateTlsaRecord ca.certPem=.ok tlsa

def Marked (s : AcmeStore) (kid : Text) : Prop := ∀ e∈s.eabs,e.kid=kid → e.used=true

/-- Before the first request: accounts go by the thumbprints of their keys, a binding key that has an account is
marked as used, and every authority can be published. -/
structure Orderly (s : AcmeStore) : Prop where
  thumbprints : ∀ a∈s.accounts,lib.jwkThumbprint a.jwk=.ok a.thumbprint
  spent : ∀ a∈s.accounts,∀ kid,a.eabKid=some kid → Marked s kid
  publishable : ∀ entry∈s.zoneCas,Publishable lib entry.2

/-- Accounts and marks stay, and so does a zone's having an authority. -/
structure Moves (s t : Audited) : Prop where
  accounts : s.state.accounts⊆t.state.accounts
  marks : ∀ kid,Marked s.state kid → Marked t.state kid
  authorities : ∀ zone,(s.state.zoneCas.lookup zone).isSome → (t.state.zoneCas.lookup zone).isSome

def Same : Resource → Audited → Audited → Prop
  | .binding kid, s, t => s.bound kid=t.bound kid
  | .key thumbprint, s, t => s.keyed thumbprint=t.keyed thumbprint
  | .order id, s, t => s.state.orders.find? (·.id=id)=t.state.orders.find? (·.id=id) ∧ s.issued id=t.issued id

/-- No certificate has been issued for an order that is ready. -/
def Idle : Resource → Audited → Prop
  | .order id, s => ∀ order,s.state.orders.find? (·.id=id)=some order → order.status=.ready → s.issued id=0
  | _, _ => True

/-- What a request sees to before it uses something up. -/
def Due (caller : Caller) : AcmeOp → Audited → Prop
  | .createAcmeAccount account, s =>
    needs lib caller (.key account.thumbprint) ∧ s.keyed account.thumbprint=0 ∧
      lib.jwkThumbprint account.jwk=.ok account.thumbprint ∧
      ∀ kid,account.eabKid=some kid →
        needs lib caller (.binding kid) ∧ s.bound kid=0 ∧ Marked s.state kid
  | .issueLeaf _ _ _ _, s => ∀ id body,caller.2=.finalize id body → s.issued id=0
  | .updateOrder id _ _, _ => needs lib caller (.order id)
  | .createOrder _, _ => False
  | .storeZoneCa _ ca, _ => Publishable lib ca
  | _, _ => True

variable {lib} {caller : Caller} {s : Audited} {o : AcmeOp} {x : Resource} {p : AcmeAccount → Bool}

theorem issued_exec (id : Text) : (s.exec lib caller o).2.issued id =
    s.issued id+if issuedFor id (caller,⟨o,(s.state.exec lib o).1⟩)=true then 1 else 0 :=
  countP_cons

/-- Only by signing for the order does its number of certificates grow. -/
theorem issued_exec_eq {id : Text}
    (h : ∀ zone csrPem days names body,o=.issueLeaf zone csrPem days names → caller.2 ≠ .finalize id body) :
    (s.exec lib caller o).2.issued id=s.issued id := by
  rw [issued_exec,if_neg,Nat.add_zero]
  intro hi
  unfold issuedFor at hi
  split at hi
  · rename_i config id' body zone csrPem days names issued heq
    obtain ⟨rfl,he⟩ := Prod.mk.inj heq
    cases of_decide_eq_true hi
    exact h zone csrPem days names body (congrArg Sigma.fst he) rfl
  · cases hi

theorem count_insertRow :
    (insertRow AcmeAccount.accountId accounts account).2.countP p ≤ accounts.countP p+if p account=true then
      1 else 0 := by
  unfold insertRow
  split
  · exact Nat.le_add_right _ _
  · rw [countP_append,countP_singleton]

theorem count_insertRow_of_not (h : ¬ p account=true) :
    (insertRow AcmeAccount.accountId accounts account).2.countP p=accounts.countP p := by
  unfold insertRow
  split
  · rfl
  · rw [countP_append,countP_singleton,if_neg h,Nat.add_zero]

theorem SingleUse.exec (h : SingleUse s) (hdue : Due lib caller o s) : SingleUse (s.exec lib caller o).2 where
  bindings kid := by
    cases o with
    | createAcmeAccount account =>
      refine count_insertRow.trans ?_
      split_ifs with hk
      · have hn := (hdue.2.2.2 kid (of_decide_eq_true hk)).2.1
        exact (Nat.add_le_add_right hn.le 1)
      · exact h.bindings kid
    | _ => exact h.bindings kid
  keys thumbprint := by
    cases o with
    | createAcmeAccount account =>
      refine count_insertRow.trans ?_
      split_ifs with hke
      · have hn := hdue.2.1
        rw [of_decide_eq_true hke] at hn
        exact (Nat.add_le_add_right hn.le 1)
      · exact h.keys thumbprint
    | _ => exact h.keys thumbprint
  orders id := by
    by_cases hs : ∃ zone csrPem days names body,o=.issueLeaf zone csrPem days names ∧ caller.2=.finalize id body
    · obtain ⟨zone,csrPem,days,names,body,rfl,hc⟩ := hs
      rw [issued_exec,hdue id body hc,Nat.zero_add]
      split <;> omega
    · rw [issued_exec_eq]
      · exact h.orders id
      · exact fun zone csrPem days names body ho hc => hs ⟨zone,csrPem,days,names,body,ho,hc⟩

theorem marked_exec {kid : Text} (h : Marked s.state kid) : Marked (s.exec lib caller o).2.state kid := by
  cases o with
  | markEabUsed used =>
    intro e he hk
    rcases mem_updateRows he with ho | ⟨e',-,-,rfl⟩
    · exact h e ho hk
    · rfl
  | _ => exact h

theorem Orderly.exec (h : Orderly lib s.state) (hdue : Due lib caller o s) :
    Orderly lib (s.exec lib caller o).2.state where
  thumbprints := by
    cases o with
    | createAcmeAccount account =>
      intro a ha
      rcases mem_insertRow ha with ho | rfl
      · exact h.thumbprints a ho
      · exact hdue.2.2.1
    | _ => exact h.thumbprints
  spent := by
    cases o with
    | createAcmeAccount account =>
      intro a ha kid hk
      rcases mem_insertRow ha with ho | rfl
      · exact h.spent a ho kid hk
      · exact (hdue.2.2.2 kid hk).2.2
    | _ => exact fun a ha kid hk => marked_exec (h.spent a ha kid hk)
  publishable := by
    cases o with
    | storeZoneCa zone ca =>
      intro entry he
      rcases mem_append.mp he with ho | hn
      · exact h.publishable entry (mem_of_mem_filter ho)
      · rw [mem_singleton.mp hn]
        exact hdue
    | _ => exact h.publishable

theorem subset_insertRow :
    accounts⊆(insertRow AcmeAccount.accountId accounts account).2 := by
  unfold insertRow
  split
  · exact List.Subset.refl _
  · exact subset_append_left _ _

theorem moves_exec : Moves s (s.exec lib caller o).2 where
  accounts := by
    cases o with
    | createAcmeAccount account => exact subset_insertRow
    | _ => exact List.Subset.refl _
  marks _ := marked_exec
  authorities zone := by
    cases o with
    | storeZoneCa zone' ca =>
      intro hso
      obtain ⟨entry,he,hz⟩ := lookup_isSome_iff.mp hso
      refine lookup_isSome_iff.mpr ?_
      by_cases hs : entry.1=normalizeName lib.toLowercase zone'
      · exact ⟨(normalizeName lib.toLowercase zone',ca),by simp [Audited.exec,AcmeStore.exec],hs ▸ hz⟩
      · exact ⟨entry,mem_append_left _ (mem_filter.mpr ⟨he,by simpa using hs⟩),hz⟩
    | _ => exact id

theorem same_exec (hdue : Due lib caller o s) (hx : ¬ needs lib caller x) : Same x s (s.exec lib caller o).2 := by
  cases x with
  | binding kid =>
    cases o with
    | createAcmeAccount account =>
      refine (count_insertRow_of_not ?_).symm
      exact fun hk => hx (hdue.2.2.2 kid (of_decide_eq_true hk)).1
    | _ => rfl
  | key thumbprint =>
    cases o with
    | createAcmeAccount account =>
      refine (count_insertRow_of_not ?_).symm
      intro hke
      have hn := hdue.1
      rw [of_decide_eq_true hke] at hn
      exact hx hn
    | _ => rfl
  | order id =>
    constructor
    · cases o with
      | createOrder order => exact hdue.elim
      | updateOrder id' status certId =>
        refine ((find?_updateRows ?_).trans ?_).symm
        · exact fun _ => rfl
        · have hne : id≠id' := by
            rintro rfl
            exact hx hdue
          simp [hne]
      | _ => rfl
    · refine (issued_exec_eq ?_).symm
      rintro zone csrPem days names body - hc
      apply hx
      obtain ⟨config,single⟩ := caller
      cases hc
      rfl

theorem Moves.refl (s : Audited) : Moves s s := ⟨List.Subset.refl _,fun _ h => h,fun _ h => h⟩

theorem Moves.trans {s t u : Audited} (h : Moves s t) (h' : Moves t u) : Moves s u :=
  ⟨List.Subset.trans h.accounts h'.accounts,fun kid hk => h'.marks kid (h.marks kid hk),
    fun zone hz => h'.authorities zone (h.authorities zone hz)⟩

theorem Same.refl (x : Resource) (s : Audited) : Same x s s := by
  cases x with
  | order id => exact ⟨rfl,rfl⟩
  | _ => rfl

theorem Same.trans {s t u : Audited} (h : Same x s t) (h' : Same x t u) : Same x s u := by
  cases x with
  | order id => exact ⟨h.1.trans h'.1,h.2.trans h'.2⟩
  | _ => exact Eq.trans h h'

theorem Idle.same {s t : Audited} (h : Same x s t) (hi : Idle x s) : Idle x t := by
  cases x with
  | order id =>
    intro order hf hr
    rw [← h.2]
    exact hi order (h.1.trans hf) hr
  | _ => trivial

variable (lib) in
def singleCustody : Custody (Audited.exec lib) (needs lib) where
  moves := Moves
  same := Same
  idle := Idle
  inv s := SingleUse s ∧ Orderly lib s.state
  pre := Due lib
  moves_refl := Moves.refl
  moves_trans := Moves.trans
  same_refl := Same.refl
  same_trans := Same.trans
  idle_same := Idle.same
  keeps h hdue := ⟨h.1.exec hdue,h.2.exec hdue⟩
  steps _ _ := moves_exec
  apart _ hdue hx := same_exec hdue hx

end

section
variable {caller : Caller} {s t : Audited} {o : AcmeOp}
  (hlib : ∀ root zone key ca,lib.signIntermediate root zone key=.ok ca → Publishable lib ca)
include hlib

theorem due_quiet (h : quiet lib o) (s : Audited) : Due lib caller o s := by
  cases o with
  | storeZoneCa zone ca =>
    obtain ⟨root,zone,key,hca⟩ := h
    exact hlib root zone key ca hca
  | createAcmeAccount _ | issueLeaf _ _ _ _ | updateOrder _ _ _ | createOrder _ => exact h.elim
  | _ => trivial

/-- What is known, and changed neither by others nor by operations of this kind, is known at the end. -/
theorem ends_quiet {α : Type} {m : AcmeAttempt α} (known : Audited → Prop) (h : Quiet lib m)
    (hr : ∀ s t,((singleCustody lib).rules caller).rely s t → known s → known t)
    (hq : ∀ o,quiet lib o → ∀ s,known s → known (Audited.exec lib caller s o).2) (hs : known s) :
    ((singleCustody lib).rules caller).Ends known (fun _ t => known t) m s :=
  Attempt.Only.keeps h hr (fun o ho s hs => ⟨due_quiet hlib ho s,hq o ho s hs⟩) hs

end

section
variable {id zone csrPem : Text} {body : Body} {s t : Audited} {caller : Caller} {o : AcmeOp} {order : AcmeOrder}
  {names : List Text}
  {days : Int}

/-- The order as it is stored, and how many certificates it has led to. -/
def orderView (id : Text) (s : Audited) : Option AcmeOrder × Nat := (s.state.orders.find? (·.id=id),s.issued id)

theorem idle_of_view {view : Option AcmeOrder × Nat} (hv : ∀ order,view.1=some order → order.status=.ready → view.2=0)
    (h : orderView id s=view) : Idle (.order id) s := by
  subst h
  exact hv

theorem view_rely (h : ((singleCustody lib).rules (config,.finalize id body)).rely s t) :
    orderView id s=orderView id t :=
  Prod.ext (h.2 (.order id) rfl).1 (h.2 (.order id) rfl).2

theorem view_exec (hor : (s.state.exec lib o).2.orders=s.state.orders)
    (hl : ∀ zone csrPem days names,o ≠ .issueLeaf zone csrPem days names) :
    orderView id (Audited.exec lib caller s o).2=orderView id s := by
  refine Prod.ext (congrArg (find? _) hor) (issued_exec_eq ?_)
  exact fun zone csrPem days names _ ho => absurd ho (hl zone csrPem days names)

theorem view_quiet (ho : quiet lib o) (s : Audited) :
    orderView id (Audited.exec lib caller s o).2=orderView id s := by
  refine view_exec ?_ ?_
  · cases o <;> first | rfl | exact ho.elim
  · rintro zone csrPem days names rfl
    exact ho

/-- What is known of the order after its certificate is issued, as long as it is not updated. -/
structure Issued (lib : AcmeLibrary) (id zone : Text) (order : AcmeOrder) (s : Audited) : Prop where
  view : orderView id s=(some order,1)
  authority : (s.state.zoneCas.lookup (normalizeName lib.toLowercase zone)).isSome

theorem Issued.rely (h : Issued lib id zone order s)
    (hr : ((singleCustody lib).rules (config,.finalize id body)).rely s t) : Issued lib id zone order t :=
  ⟨(view_rely hr).symm.trans h.view,hr.1.authorities _ h.authority⟩

theorem Issued.exec (h : Issued lib id zone order s)
    (hv : orderView id (Audited.exec lib caller s o).2=orderView id s) :
    Issued lib id zone order (Audited.exec lib caller s o).2 :=
  ⟨hv.trans h.view,moves_exec.authorities _ h.authority⟩

theorem ends_addRecords (records : List DnsRecord) (h : Issued lib id zone order s) :
    ((singleCustody lib).rules (config,.finalize id body)).Ends (fun _ => False) (fun _ t => Issued lib id zone order t)
      (addRecords records) s := by
  induction records generalizing s with
  | nil => exact ends_pure fun t hst _ => h.rely hst
  | cons record records ih =>
    refine ends_perform (fun _ _ _ => trivial) fun t hst _ _ => ih ?_
    exact (h.rely hst).exec (view_quiet (o := .addRecord record) trivial t)

theorem ends_publishDane (h : Issued lib id zone order s) :
    ((singleCustody lib).rules (config,.finalize id body)).Ends (fun _ => False) (fun _ t => Issued lib id zone order t)
      (publishDane lib config zone names) s := by
  refine ends_perform (fun _ _ _ => trivial) fun t hst ht _ => ?_
  have hi := h.rely hst
  obtain ⟨ca,hca⟩ := Option.isSome_iff_exists.mp hi.authority
  have he : (normalizeName lib.toLowercase zone,ca)∈t.state.zoneCas := by
    obtain ⟨l₁,l₂,heq,-⟩ := lookup_eq_some_iff.mp hca
    rw [heq]
    exact mem_append_right _ mem_cons_self
  obtain ⟨tlsa,htl⟩ := ht.2.publishable _ he
  refine ends_ok (a := ca) ?_ (ends_ok (a := tlsa) ?_ ?_)
  · exact (congrArg (okOr _) hca)
  · exact congrArg (Except.mapError AcmeError.serverInternal) htl
  · exact ends_addRecords _ (hi.exec (view_quiet (o := .getZoneCa zone) trivial t))

/-- A certificate was issued just now: one more for the order, by an authority that there is. -/
theorem issued_of_issueLeaf {issued : IssuedLeaf}
    (hv : orderView id s=(some order,0)) (h : (s.state.exec lib (.issueLeaf zone csrPem days names)).1=.ok issued) :
    Issued lib id zone order (Audited.exec lib (config,.finalize id body) s (.issueLeaf zone csrPem days names)).2 := by
  have hc : s.issued id=0 := congrArg Prod.snd hv
  have hf : s.state.orders.find? (·.id=id)=some order := congrArg Prod.fst hv
  refine ⟨Prod.ext hf ?_,?_⟩
  · refine (issued_exec id).trans ?_
    rw [hc,h]
    simp [issuedFor]
  · obtain ⟨ca,hca,-⟩ := bind_eq_ok h
    have hl : s.state.zoneCas.lookup (normalizeName lib.toLowercase zone)=some ca := okOr_eq_ok hca
    exact Option.isSome_iff_exists.mpr ⟨ca,hl⟩

theorem view_of_issueLeaf {e : Text}
    (h : (s.state.exec lib (.issueLeaf zone csrPem days names)).1=.error e) :
    orderView id (Audited.exec lib caller s (.issueLeaf zone csrPem days names)).2=orderView id s := by
  refine Prod.ext rfl ((issued_exec id).trans ?_)
  rw [h]
  simp [issuedFor,orderView]

theorem Idle.rely (hs : Idle (.order id) s) (hr : ((singleCustody lib).rules (config,.finalize id body)).rely s t) :
    Idle (.order id) t := hs.same (hr.2 (.order id) rfl)

theorem Idle.exec (hs : Idle (.order id) s)
    (hv : orderView id (Audited.exec lib caller s o).2=orderView id s) :
    Idle (.order id) (Audited.exec lib caller s o).2 := by
  have hr : ∀ order,(orderView id s).1=some order → order.status=.ready → (orderView id s).2=0 := hs
  exact idle_of_view hr hv

/-- From signing to the end: the order is ready and has led to no certificate; once it has led to one it is valid. -/
theorem ends_signing {primary : Text} (hs : orderView order.id s=(some order,0)) :
    ((singleCustody lib).rules (config,.finalize order.id body)).Ends (Idle (.order order.id)) (fun _ t =>
      Idle (.order order.id) t) (do
      let issued ← AcmeAttempt.perform (.issueLeaf zone csrPem config.leafValidityDays order.identifiers)
      let issued ← Attempt.ofExcept (issued.mapError AcmeError.badCsr)
      let certId ← AcmeAttempt.perform (.storeAcmeCertificate primary issued.leafPem issued.chainPem issued.expiresAt)
      publishDane lib config zone order.identifiers
      AcmeAttempt.perform (.updateOrder order.id .valid (some certId))
      let updated ← AcmeAttempt.perform (.getOrder order.id)
      let updated ← Attempt.ofExcept (okOr (.serverInternal "order vanished") updated)
      return Response.order 200 (config.url ("order/"++updated.id)) (orderJson config updated)) s := by
  refine ends_perform (fun t hst _ => ?_) fun t hst _ _ => ?_
  · rintro _ _ ⟨⟩
    exact congrArg Prod.snd ((view_rely hst).symm.trans hs)
  have ht : orderView order.id t=(some order,0) := (view_rely hst).symm.trans hs
  generalize hr : (Audited.exec lib (config,.finalize order.id body) t
    (.issueLeaf zone csrPem config.leafValidityDays order.identifiers)).1=result
  cases result with
  | error e =>
    refine ends_throw fun u htu _ => Idle.rely (idle_of_view ?_ ((view_of_issueLeaf hr).trans ht)) htu
    exact fun _ _ _ => rfl
  | ok issued =>
    have hi : Issued lib order.id zone order (Audited.exec lib (config,.finalize order.id body) t
        (.issueLeaf zone csrPem config.leafValidityDays order.identifiers)).2 := issued_of_issueLeaf ht hr
    refine ends_perform (fun _ _ _ => trivial) fun u htu _ _ => ?_
    have hso : Issued lib order.id zone order (Audited.exec lib (config,.finalize order.id body) u
        (.storeAcmeCertificate primary issued.leafPem issued.chainPem issued.expiresAt)).2 :=
      (hi.rely htu).exec (view_exec rfl fun _ _ _ _ => AcmeOp.noConfusion)
    refine Rules.Ends.bind (fun _ _ hrl h => Idle.rely h hrl) ((ends_publishDane hso).mono_fail fun _ h => h.elim)
      fun _ v _ hv => ?_
    refine ends_perform (fun _ _ _ => rfl) fun w hvw _ _ => ?_
    have hva (certId : Option Nat) :
        Idle (.order order.id) (Audited.exec lib (config,.finalize order.id body) w
          (.updateOrder order.id .valid certId)).2 := by
      intro updated hu hre
      obtain ⟨old,-,⟨-,rfl⟩ | ⟨hne,-⟩⟩ := find?_updateRows_cases hu fun _ => rfl
      · cases hre
      · exact absurd rfl hne
    refine ends_perform (fun _ _ _ => trivial) fun x hwx _ _ => ?_
    have hx : Idle (.order order.id) (Audited.exec lib (config,.finalize order.id body) x (.getOrder order.id)).2 :=
      ((hva _).rely hwx).exec (view_quiet (o := .getOrder order.id) trivial x)
    exact ends_ofExcept (fun y hxy _ => Idle.rely hx hxy) fun _ _ => ends_pure fun y hxy _ => Idle.rely hx hxy

theorem ends_finalizeInner (hlib : ∀ root zone key ca,lib.signIntermediate root zone key=.ok ca → Publishable lib ca)
    (hi : Idle (.order id) s) :
    ((singleCustody lib).rules (config,.finalize id body)).Ends (Idle (.order id)) (fun _ t => Idle (.order id) t)
      (finalizeInner lib config id body) s := by
  -- the order stays as it was found until it is signed for
  have hst {view : Option AcmeOrder × Nat} {α : Type} {m : AcmeAttempt α} (hm : Quiet lib m) {s : Audited}
    (hs : orderView id s=view) :
      ((singleCustody lib).rules (config,.finalize id body)).Ends (fun t => orderView id t=view) (fun _ t =>
        orderView id t=view) m s :=
    ends_quiet hlib _ hm (fun s t hre hs => (view_rely hre).symm.trans hs) (fun o ho s hs =>
      (view_quiet ho s).trans hs) hs
  obtain ⟨view,hvi⟩ : ∃ view,orderView id s=view := ⟨_,rfl⟩
  have hr : ∀ order,view.1=some order → order.status=.ready → view.2=0 := by
    subst hvi
    exact hi
  have hf {t : Audited} (ht : orderView id t=view) (u : Audited)
      (htu : ((singleCustody lib).rules (config,.finalize id body)).rely t u)
      (_ : ((singleCustody lib).rules (config,.finalize id body)).inv u) : Idle (.order id) u :=
        (idle_of_view hr ht).rely htu
  refine Rules.Ends.bind (fun _ _ hre h => Idle.rely h hre)
    ((hst (quiet_accountRequest _ _ _) hvi).mono_fail fun _ => idle_of_view hr) fun ⟨payload,account⟩ t _ ht => ?_
  refine ends_perform (fun _ _ _ => trivial) fun u htu _ _ => ?_
  have hu : orderView id (Audited.exec lib (config,.finalize id body) u (.getOrder id)).2=view :=
    (view_quiet (o := .getOrder id) trivial u).trans ((view_rely htu).symm.trans ht)
  refine ends_ofExcept (hf hu) fun order hfo => ends_require (hf hu) fun _ => ends_require (hf hu) fun hsa => ?_
  have hfs : view.1=some order := (congrArg Prod.fst hu).symm.trans (okOr_eq_ok hfo)
  obtain rfl : order.id=id := key_of_find? (okOr_eq_ok hfo)
  refine ends_perform (fun _ _ _ => trivial) fun v huv _ _ => ?_
  have hv : orderView order.id (Audited.exec lib (config,.finalize order.id body) v .now).2=view :=
    (view_quiet (o := .now) trivial v).trans ((view_rely huv).symm.trans hu)
  refine ends_require (hf hv) fun _ => ends_ofExcept (hf hv) fun csr _ => ends_ofExcept (hf hv) fun csrDer _ => ?_
  refine ends_ofExcept (hf hv) fun primary _ => ?_
  refine Rules.Ends.bind (fun _ _ hre h => Idle.rely h hre)
    ((hst (quiet_issuingZones _ _) hv).mono_fail fun _ => idle_of_view hr) fun zones w _ hw => ?_
  exact ends_signing (hw.trans (Prod.ext hfs (hr order hfs hsa)))

end

section
variable {body : Body} {s t : Audited} {caller : Caller} {eabKid : Option Text} {thumbprint : Text} {o : AcmeOp}

/-- What a verified request for an account goes by: the key is the one it brings, or that of an account. -/
structure Verifies (lib : AcmeLibrary) (body : Body) (verified : Verified) (s : Audited) : Prop where
  thumbprint : lib.jwkThumbprint verified.jwk=.ok verified.thumbprint
  payload : ∃ jws,body=.ok jws ∧ jws.payload=.ok verified.payload ∧
    (jws.jwk=some verified.jwk ∨ ∃ a∈s.state.accounts,a.jwk=verified.jwk)

theorem Verifies.moves {verified : Verified} (h : Verifies lib body verified s) (hm : Moves s t) :
    Verifies lib body verified t := by
  obtain ⟨jws,hb,hp,hk⟩ := h.payload
  refine ⟨h.thumbprint,jws,hb,hp,hk.imp_right ?_⟩
  rintro ⟨a,ha,hj⟩
  exact ⟨a,hm.accounts ha,hj⟩

theorem reaches_verifyRequest (body : Body) (url : Text) (s : Audited) :
    ((singleCustody lib).rules caller).Reaches (fun verified t => Verifies lib body verified t)
      (verifyRequest lib body url) s := by
  refine reaches_ofExcept fun jws hjw => reaches_ofExcept fun _ _ => reaches_require fun _ =>
    reaches_ofExcept fun nonce _ => ?_
  refine reaches_step (fun _ => trivial) fun t _ _ _ => reaches_require fun _ => ?_
  have hk (t : Audited) : ((singleCustody lib).rules caller).Reaches
      (fun key t => jws.jwk=some key.1 ∨ ∃ a∈t.state.accounts,a.jwk=key.1) (verificationKey jws) t := by
    unfold verificationKey
    split
    · rename_i hj _
      exact reaches_pure fun _ _ _ => .inl hj
    · refine reaches_step (fun _ => trivial) fun u _ _ _ => reaches_ofExcept fun account hac => ?_
      have hm : account∈u.state.accounts := mem_of_find?_eq_some (okOr_eq_ok hac)
      exact reaches_pure fun v huv _ => .inr ⟨account,huv.1.accounts hm,rfl⟩
    · exact reaches_throw
  refine (hk _).bind fun ⟨jwk,account⟩ u _ hu => reaches_ofExcept fun _ _ => ?_
  refine reaches_ofExcept fun payload hp => reaches_ofExcept fun thumbprint ht => reaches_pure fun v huv _ => ?_
  refine ⟨mapError_eq_ok ht,jws,mapError_eq_ok hjw,mapError_eq_ok hp,hu.imp_right ?_⟩
  rintro ⟨a,ha,hj⟩
  exact ⟨a,huv.1.accounts ha,hj⟩

/-- Nothing that the account would use up has been used. -/
structure Unused (lib : AcmeLibrary) (caller : Caller) (thumbprint : Text) (eabKid : Option Text) (s : Audited) :
    Prop where
  needsKey : needs lib caller (.key thumbprint)
  key : s.keyed thumbprint=0
  binding : ∀ kid,eabKid=some kid → needs lib caller (.binding kid) ∧ s.bound kid=0 ∧ Marked s.state kid

theorem Unused.rely (h : Unused lib caller thumbprint eabKid s)
    (hr : ((singleCustody lib).rules caller).rely s t) : Unused lib caller thumbprint eabKid t where
  needsKey := h.needsKey
  key := (hr.2 (.key thumbprint) h.needsKey).symm.trans h.key
  binding kid hk := by
    obtain ⟨hn,hb,hm⟩ := h.binding kid hk
    exact ⟨hn,(hr.2 (.binding kid) hn).symm.trans hb,hr.1.marks kid hm⟩

theorem Unused.exec (h : Unused lib caller thumbprint eabKid s)
    (ha : (s.state.exec lib o).2.accounts=s.state.accounts) :
    Unused lib caller thumbprint eabKid (Audited.exec lib caller s o).2 where
  needsKey := h.needsKey
  key := (congrArg (countP _) ha).trans h.key
  binding kid hk := by
    obtain ⟨hn,hb,hm⟩ := h.binding kid hk
    exact ⟨hn,(congrArg (countP _) ha).trans hb,marked_exec hm⟩

theorem accounts_quiet (ho : quiet lib o) (s : AcmeStore) : (s.exec lib o).2.accounts=s.accounts := by
  cases o <;> first | rfl | exact ho.elim

variable (hlib : ∀ root zone key ca,lib.signIntermediate root zone key=.ok ca → Publishable lib ca)
include hlib

theorem reaches_unused {α : Type} {m : AcmeAttempt α} (hm : Quiet lib m)
    (hs : Unused lib caller thumbprint eabKid s) :
    ((singleCustody lib).rules caller).Reaches (fun _ t => Unused lib caller thumbprint eabKid t) m s :=
  (ends_quiet hlib _ hm (fun _ _ hr hs => hs.rely hr) (fun _ ho s hs => hs.exec (accounts_quiet ho s.state)) hs).reaches

theorem reaches_bindAccount {verified : Verified} (hve : Verifies lib body verified s)
    (hs : Unused lib (config,.newAccount body) verified.thumbprint none s) :
    ((singleCustody lib).rules (config,.newAccount body)).Reaches
      (fun r t => Unused lib (config,.newAccount body) verified.thumbprint r.2 t)
        (bindAccount lib config verified) s := by
  obtain ⟨jws,hbo,hp,-⟩ := hve.payload
  unfold bindAccount
  split
  · rename_i eab hea
    refine reaches_ofExcept fun kid hk => reaches_step (fun _ => trivial) fun t hst ht _ => ?_
    refine reaches_ofExcept fun cred hc => reaches_require fun hun => ?_
    have hn : needs lib (config,.newAccount body) (.binding kid) :=
      ⟨jws,verified.payload,eab,hbo,hp,hea,mapError_eq_ok hk⟩
    have hf : t.state.eabs.find? (·.kid=kid)=some cred := okOr_eq_ok hc
    -- an account with this key would have marked it
    have hb : t.bound kid=0 := by
      refine countP_eq_zero.mpr fun a ha hk => ?_
      have hus := ht.2.spent a ha kid (of_decide_eq_true hk) cred (mem_of_find?_eq_some hf) (key_of_find? hf)
      rw [hus] at hun
      cases hun
    have hr : Unused lib (config,.newAccount body) verified.thumbprint none
        (Audited.exec lib (config,.newAccount body) t (.getEab kid)).2 := (hs.rely hst).exec rfl
    refine reaches_ofExcept fun _ _ => reaches_step (fun _ => trivial) fun u htu _ _ => ?_
    have hm : Unused lib (config,.newAccount body) verified.thumbprint (some kid)
        (Audited.exec lib (config,.newAccount body) u (.markEabUsed kid)).2 := by
      have hu := hr.rely htu
      refine ⟨hu.needsKey,hu.key,?_⟩
      rintro _ ⟨⟩
      refine ⟨hn,(htu.2 (.binding kid) hn).symm.trans hb,fun e he hk => ?_⟩
      obtain ⟨e',-,rfl⟩ := mem_map.mp he
      split at hk
      · rw [if_pos ‹_›]
      · exact absurd hk ‹_›
    exact (reaches_unused hlib (quiet_bindZone cred.zone) hm).bind fun _ v _ hv =>
      reaches_pure fun w hvw _ => hv.rely hvw
  · exact reaches_require fun _ => reaches_pure fun t hst _ => hs.rely hst

theorem reaches_newAccountInner (s : Audited) :
    ((singleCustody lib).rules (config,.newAccount body)).Reaches (fun _ _ => True)
      (newAccountInner lib config body) s := by
  refine (reaches_verifyRequest body _ s).bind fun verified t _ ht =>
    reaches_step (fun _ => trivial) fun u htu hu _ => ?_
  have hve := ht.moves htu.1
  split
  · exact reaches_pure fun _ _ _ => trivial
  · rename_i hn
    have hne : ∀ a∈u.state.accounts,a.thumbprint≠verified.thumbprint := by
      intro a ha heq
      exact find?_eq_none.mp hn a ha (decide_eq_true heq)
    have hun : Unused lib (config,.newAccount body) verified.thumbprint none
        (Audited.exec lib (config,.newAccount body) u (.getAcmeAccountByThumbprint verified.thumbprint)).2 := by
      refine ⟨?_,countP_eq_zero.mpr fun a ha heq => hne a ha (of_decide_eq_true heq),fun _ h => nomatch h⟩
      obtain ⟨jws,hb,-,hj | ⟨a,ha,hj⟩⟩ := hve.payload
      · exact ⟨jws,verified.jwk,hb,hj,hve.thumbprint⟩
      · -- the key of an account has an account
        have hth := (hu.2.thumbprints a ha).symm.trans (hj ▸ hve.thumbprint)
        exact absurd (Except.ok.inj hth) (hne a ha)
    have hve' : Verifies lib body verified
        (Audited.exec lib (config,.newAccount body) u (.getAcmeAccountByThumbprint verified.thumbprint)).2 :=
          hve.moves moves_exec
    refine reaches_require fun _ => (reaches_bindAccount hlib hve' hun).bind fun ⟨zone,eabKid⟩ v _ hv => ?_
    refine (reaches_unused hlib (quiet_randomToken 16) hv).bind fun accountId w _ hw => ?_
    refine reaches_perform (fun x hwx _ => ?_) fun _ _ _ _ => reaches_require fun _ => reaches_pure fun _ _ _ => trivial
    have hx := hw.rely hwx
    exact ⟨hx.needsKey,hx.key,hve.thumbprint,hx.binding⟩

end

theorem safe_attachNonce (hlib : ∀ root zone key ca,lib.signIntermediate root zone key=.ok ca → Publishable lib ca)
    {caller : Caller}
    (known : Audited → Prop) (hr : ∀ s t,((singleCustody lib).rules caller).rely s t → known s → known t)
    (hq : ∀ o,quiet lib o → ∀ s,known s → known (Audited.exec lib caller s o).2)
    (answer : Except AcmeError Response) {s : Audited}
    (hs : known s) : ((singleCustody lib).rules caller).Safe (fun _ t => known t) (attachNonce answer) s :=
  safe_of_sat hr (fun o ho s hs => ⟨due_quiet hlib ho s,hq o ho s hs⟩) (fun _ _ => trivial)
    (quiet_attachNonce lib answer) hs

theorem returns_callerProgram (hlib : ∀ root zone key ca,lib.signIntermediate root zone key=.ok ca → Publishable lib ca)
    (caller : Caller) (s : Audited) (hi : ∀ x,needs lib caller x → Idle x s) :
    (singleCustody lib).Returns caller (callerProgram lib caller) s := by
  obtain ⟨config,single⟩ := caller
  cases single with
  | newAccount body =>
    have hi (t : Audited) (x : Resource) (hx : needs lib (config,.newAccount body) x) : Idle x t := by
      cases x with
      | order id => exact hx.elim
      | _ => trivial
    refine Rules.Safe.bind (reaches_newAccountInner hlib s) fun answer t _ _ => ?_
    exact (safe_attachNonce hlib (fun _ => True) (fun _ _ _ h => h) (fun _ _ _ h => h) answer trivial).mono
      fun _ u _ _ => hi u
  | finalize id body =>
    refine Rules.Safe.bind (ends_finalizeInner hlib (hi (.order id) rfl)) fun answer t _ ht => ?_
    have ht : Idle (.order id) t := by
      cases answer with
      | error e => exact ht.2 e rfl
      | ok response => exact ht.1 response rfl
    refine (safe_attachNonce hlib (Idle (.order id)) (fun _ _ hr h => Idle.rely h hr)
      (fun _ ho s h => h.exec (view_quiet ho s)) answer ht).mono fun _ u _ hu x hx => ?_
    cases x with
    | order id' =>
      cases hx
      exact hu
    | _ => trivial

/-- However requests for accounts and finalizations interleave, nothing is used twice, as long as no two of them
that need the same binding key, account key or order overlap. -/
theorem single_use (hlib : ∀ root zone key ca,lib.signIntermediate root zone key=.ok ca → Publishable lib ca)
    {s : AcmeStore}
    (horderly : Orderly lib s) (hs : SingleUse ⟨s,[]⟩) {P : Session Caller Audited AcmeOp AcmeRes Answer}
    (hcourse : Course (Audited.exec lib) (callerProgram lib) (Apart (needs lib)) ⟨⟨s,[]⟩,[]⟩ P) :
    SingleUse P.state := by
  have hst : (singleCustody lib).Holds (⟨⟨s,[]⟩,[]⟩ : Session Caller Audited AcmeOp AcmeRes Answer) := by
    refine ⟨⟨hs,horderly⟩,fun task ht => (nomatch ht),.nil,fun x _ => ?_⟩
    cases x with
    | order id => exact fun _ _ _ => rfl
    | _ => trivial
  exact (hst.course (fun caller s _ hi => returns_callerProgram hlib caller s hi) hcourse).state.1

section

open AcmeOrders

def labStore : AcmeStore :=
  { labIssuer with
    accounts := [{ labAccount with thumbprint := "k" }]
    eabs := [⟨"e",[],none,false⟩]
    nonces := [⟨"w",0⟩,⟨"x",0⟩,⟨"y",0⟩,⟨"z",0⟩]
    orders := [⟨"0","a",.ready,["nas.lab"],["1"],none,1000⟩] }

def labEnrolment (nonce : String) : Caller :=
  (labConfig,.newAccount (.ok ⟨some "/new-account",some nonce.toList,some "m",none,fun _ => .ok (),
    .ok { externalAccountBinding := some ⟨.ok "e",fun _ _ => .ok ()⟩ }⟩))

def labFinalization (nonce : String) : Caller :=
  (labConfig,.finalize "0" (labBody "/finalize/0" nonce { csr := some [] }))

/-- Everybody who is running takes a step, again and again. -/
def rounds (n : Nat) : List (Turn Caller) := (replicate n [.step 0,.step 1,.step 2,.step 3]).flatten

theorem publishable_lab (root : CaPair) (zone key : Text) (ca : CaPair)
    (_ : labLib.signIntermediate root zone key=.ok ca) :
    Publishable labLib ca := ⟨_,rfl⟩

theorem orderly_lab : Orderly labLib labStore where
  thumbprints := by decide
  spent a ha kid hk := by
    cases mem_singleton.mp ha
    cases hk
  publishable _ _ := ⟨_,rfl⟩

theorem singleUse_lab : SingleUse ⟨labStore,[]⟩ where
  bindings kid := by simp [Audited.bound,labStore,labAccount]
  keys thumbprint := by
    simp only [Audited.keyed,labStore,countP_cons,countP_nil]
    split <;> omega
  orders id := Nat.zero_le 1

def labTogether : Session Caller Audited AcmeOp AcmeRes Answer :=
  play (Audited.exec labLib) (callerProgram labLib)
    ⟨⟨labStore,[]⟩,[(labFinalization "y",callerProgram labLib (labFinalization "y")),
      (labEnrolment "x",callerProgram labLib (labEnrolment "x"))]⟩ (rounds 20)

theorem course_lab : Course (Audited.exec labLib) (callerProgram labLib) (Apart (needs labLib)) ⟨⟨labStore,[]⟩,
      []⟩ labTogether := by
  refine .head (.call _ [] fun _ h => nomatch h) (.head (.call _ _ ?_) (course_play _ _ ?_))
  · intro l hl x hx
    cases mem_singleton.mp hl
    cases x with
    | order id => exact fun h => h
    | _ => exact hx.elim
  · intro l hl
    exact absurd hl (by simp [rounds])

theorem single_use_lab :
    labTogether.state.issued "0"=1 ∧ labTogether.state.bound "e"=1 ∧ SingleUse labTogether.state :=
  ⟨by decide +kernel,by decide +kernel,single_use publishable_lab orderly_lab singleUse_lab course_lab⟩

/-- Two enrolments with one key and one binding, and two finalizations of one order, step by step in turn. -/
def labOverlap : Session Caller Audited AcmeOp AcmeRes Answer :=
  play (Audited.exec labLib) (callerProgram labLib) ⟨⟨labStore,[]⟩,[]⟩
    (.call (labEnrolment "w") :: .call (labEnrolment "x") :: .call (labFinalization "y") ::
      .call (labFinalization "z")::rounds 30)

/-- Everything is used twice. -/
theorem used_twice :
    Course (Audited.exec labLib) (callerProgram labLib) (fun _ _ => True) ⟨⟨labStore,[]⟩,[]⟩ labOverlap ∧
      labOverlap.state.bound "e"=2 ∧ labOverlap.state.keyed "m"=2 ∧ labOverlap.state.issued "0"=2 :=
  ⟨course_play _ _ fun _ _ _ => trivial,by decide +kernel,by decide +kernel,by decide +kernel⟩

end

end RolodexDns.AcmeSingleUse
