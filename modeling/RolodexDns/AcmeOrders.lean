import RolodexDns.AcmeServer

/-! What is certified was validated: while requests of any accounts interleave, with each other and with changes
of the records, a request is signed only for the names of an order all of whose authorizations became valid. -/
namespace RolodexDns.AcmeOrders
open StoredRecords SharedStores RelyGuarantee CertificateRequests AcmeServer List

variable {lib : AcmeLibrary}

abbrev Issuer := Logged AcmeStore AcmeOp AcmeRes

def orderTerms (o : AcmeOrder) : AcmeOrder := { o with status := .pending, certId := none }

/-- What of an authorization never changes. -/
def authzTerms (a : AcmeAuthorization) : AcmeAuthorization := { a with status := .pending }

/-- Rows and events are only added, and of the rows that are there the terms stay. -/
structure Moves (s t : Issuer) : Prop where
  orders : s.state.orders.map orderTerms <+: t.state.orders.map orderTerms
  authorizations : s.state.authorizations.map authzTerms <+: t.state.authorizations.map authzTerms
  log : s.log <:+ t.log

theorem Moves.refl (s : Issuer) : Moves s s := ⟨prefix_rfl,prefix_rfl,suffix_rfl⟩

theorem Moves.trans {s t u : Issuer} (hst : Moves s t) (htu : Moves t u) : Moves s u :=
  ⟨hst.orders.trans htu.orders,hst.authorizations.trans htu.authorizations,hst.log.trans htu.log⟩

section
variable {α τ : Type} {key : α → Text} {rows : List α} {row r : α} {terms : α → τ} {change : α → α} {id : Text}

theorem map_insertRow : rows.map terms <+: (insertRow key rows row).2.map terms := by
  unfold insertRow
  split
  · exact prefix_rfl
  · rw [map_append]
    exact prefix_append _ _

theorem map_updateRows (h : ∀ r,terms (change r)=terms r) :
    (updateRows key id change rows).map terms=rows.map terms := by
  unfold updateRows
  rw [map_map]
  refine map_congr_left fun r _ => ?_
  simp only [Function.comp_apply]
  split
  · exact h r
  · rfl

theorem mem_insertRow (h : r∈(insertRow key rows row).2) : r∈rows ∨ r=row := by
  unfold insertRow at h
  split at h
  · exact .inl h
  · simpa using h

theorem mem_updateRows (h : r∈updateRows key id change rows) : r∈rows ∨ ∃ r'∈rows,key r'=id ∧ r=change r' := by
  obtain ⟨r',hm,rfl⟩ := mem_map.mp h
  split_ifs with hk
  · exact .inr ⟨r',hm,hk,rfl⟩
  · exact .inl hm

theorem key_of_find? (h : rows.find? (key · = id)=some r) : key r=id := by
  have hk := find?_some h
  exact of_decide_eq_true hk

theorem nodup_insertRow (h : (rows.map key).Nodup) : ((insertRow key rows row).2.map key).Nodup := by
  unfold insertRow
  split_ifs with ha
  · exact h
  · rw [map_append,map_singleton,nodup_append]
    refine ⟨h,nodup_singleton _,fun k hk k' hk' => ?_⟩
    obtain ⟨r,hr,rfl⟩ := mem_map.mp hk
    rw [mem_singleton.mp hk']
    intro heq
    exact ha (any_eq_true.mpr ⟨r,hr,decide_eq_true heq⟩)

theorem mem_of_insertRow (h : (insertRow key rows row).1=true) : row∈(insertRow key rows row).2 := by
  unfold insertRow at h ⊢
  split_ifs with ha
  · rw [if_pos ha] at h
    cases h
  · simp

end

section
variable {s : AcmeStore} {o : AcmeOp}

theorem order_exec {order : AcmeOrder} (h : order∈(s.exec lib o).2.orders) : order∈s.orders ∨ o=.createOrder order ∨
    ∃ old∈s.orders,∃ status certId,o=.updateOrder old.id status certId ∧
      order={ old with status := status, certId := certId } := by
  cases o with
  | createOrder created =>
    rcases mem_insertRow h with ho | rfl
    · exact .inl ho
    · exact .inr (.inl rfl)
  | updateOrder id status certId =>
    rcases mem_updateRows h with ho | ⟨old,ho,rfl,rfl⟩
    · exact .inl ho
    · exact .inr (.inr ⟨old,ho,status,certId,rfl,rfl⟩)
  | _ => exact .inl h

theorem authz_exec {authz : AcmeAuthorization} (h : authz∈(s.exec lib o).2.authorizations) :
    authz∈s.authorizations ∨ o=.createAuthorization authz ∨
    ∃ old∈s.authorizations,∃ status,o=.updateAuthorizationStatus old.id status ∧
      authz={ old with status := status } := by
  cases o with
  | createAuthorization created =>
    rcases mem_insertRow h with ho | rfl
    · exact .inl ho
    · exact .inr (.inl rfl)
  | updateAuthorizationStatus id status =>
    rcases mem_updateRows h with ho | ⟨old,ho,rfl,rfl⟩
    · exact .inl ho
    · exact .inr (.inr ⟨old,ho,status,rfl,rfl⟩)
  | _ => exact .inl h

theorem orderTerms_exec : s.orders.map orderTerms <+: (s.exec lib o).2.orders.map orderTerms := by
  cases o with
  | createOrder order => exact map_insertRow
  | updateOrder id status certId =>
    refine (congrArg (List.IsPrefix _) (map_updateRows ?_)).mpr prefix_rfl
    exact fun _ => rfl
  | _ => exact prefix_rfl

theorem authzTerms_exec : s.authorizations.map authzTerms <+: (s.exec lib o).2.authorizations.map authzTerms := by
  cases o with
  | createAuthorization authz => exact map_insertRow
  | updateAuthorizationStatus id status =>
    refine (congrArg (List.IsPrefix _) (map_updateRows ?_)).mpr prefix_rfl
    exact fun _ => rfl
  | _ => exact prefix_rfl

theorem nodup_orders_exec (h : (s.orders.map AcmeOrder.id).Nodup) :
    ((s.exec lib o).2.orders.map AcmeOrder.id).Nodup := by
  cases o with
  | createOrder order => exact nodup_insertRow h
  | updateOrder id status certId =>
    refine (congrArg List.Nodup (map_updateRows ?_)).mpr h
    exact fun _ => rfl
  | _ => exact h

theorem moves_exec (s : Issuer) (o : AcmeOp) : Moves s ((logged (acmeStore lib)).exec s o).2 :=
  ⟨orderTerms_exec,authzTerms_exec,suffix_cons _ _⟩

end

section

variable (s : Issuer)

def BecameValid (id : Text) : Prop := ⟨.updateAuthorizationStatus id .valid,()⟩∈s.log

/-- The authorization is one of the order's, for this name. -/
def Backs (orderId name id : Text) : Prop :=
  ∃ a∈s.state.authorizations,a.id=id ∧ a.orderId=orderId ∧ a.identifier=name

def Granted (order : AcmeOrder) : Prop := ∀ id∈order.authorizations,BecameValid s id

/-- A request found the order ready, as one that finalizes it does. -/
def FoundReady (order : AcmeOrder) : Prop := ⟨.getOrder order.id,some order⟩∈s.log ∧ order.status=.ready

def Certifiable (names : List Text) : Prop := ∃ order,FoundReady s order ∧ order.identifiers=names

variable {s t : Issuer} {order : AcmeOrder}

theorem BecameValid.later {id : Text} (h : BecameValid s id) (hm : Moves s t) : BecameValid t id := hm.log.subset h

theorem Granted.later (h : Granted s order) (hm : Moves s t) : Granted t order :=
  fun id hid => (h id hid).later hm

theorem Backs.later {orderId name id : Text} (h : Backs s orderId name id) (hm : Moves s t) :
    Backs t orderId name id := by
  obtain ⟨a,ha,rfl,rfl,rfl⟩ := h
  obtain ⟨b,hb,ht⟩ := mem_map.mp (hm.authorizations.subset (mem_map_of_mem ha))
  have hid := congrArg AcmeAuthorization.id ht
  have ho := congrArg AcmeAuthorization.orderId ht
  have hi := congrArg AcmeAuthorization.identifier ht
  exact ⟨b,hb,hid,ho,hi⟩

theorem exists_later (h : order∈s.state.orders) (hm : Moves s t) :
    ∃ later∈t.state.orders,orderTerms later=orderTerms order :=
  mem_map.mp (hm.orders.subset (mem_map_of_mem h))

theorem identifiers_eq {later : AcmeOrder} (h : orderTerms later=orderTerms order) :
    later.identifiers=order.identifiers := by
  have hi := congrArg AcmeOrder.identifiers h
  exact hi

theorem authorizations_eq {later : AcmeOrder} (h : orderTerms later=orderTerms order) :
    later.authorizations=order.authorizations := by
  have ha := congrArg AcmeOrder.authorizations h
  exact ha

theorem Certifiable.later {names : List Text} (h : Certifiable s names) (hm : Moves s t) : Certifiable t names := by
  obtain ⟨order,⟨hf,hr⟩,hn⟩ := h
  exact ⟨order,⟨hm.log.subset hf,hr⟩,hn⟩

end

section
variable (lib : AcmeLibrary)

structure Sound (s : Issuer) : Prop where
  ids : (s.state.orders.map AcmeOrder.id).Nodup
  backed : ∀ o∈s.state.orders,List.Forall₂ (Backs s o.id) o.identifiers o.authorizations
  valid : ∀ a∈s.state.authorizations,a.status=.valid → BecameValid s a.id
  granted : ∀ o∈s.state.orders,o.status ≠ .pending → Granted s o
  found : ∀ id order,⟨.getOrder id,some order⟩∈s.log →
    (∃ later∈s.state.orders,orderTerms later=orderTerms order) ∧ (order.status ≠ .pending → Granted s order)
  certified : ∀ zone csrPem days names issued,⟨.issueLeaf zone csrPem days names,.ok issued⟩∈s.log → Certifiable s names
  signed : ∀ zone csrPem days names issued,⟨.issueLeaf zone csrPem days names,.ok issued⟩∈s.log →
    ∃ zoneCa now,issueLeaf lib.rcgen lib.toLowercase zoneCa now zone csrPem days names=.ok issued

/-- What the programs see to before they write orders and authorizations, and before they sign. -/
def Due : AcmeOp → Issuer → Prop
  | .createOrder order, s => order.status=.pending ∧
    List.Forall₂ (Backs s order.id) order.identifiers order.authorizations
  | .updateOrder id _ _, s => ∀ order∈s.state.orders,order.id=id → Granted s order
  | .createAuthorization authz, _ => authz.status=.pending
  | .issueLeaf _ _ _ names, s => Certifiable s names
  | _, _ => True

variable {lib} {s : Issuer} {o : AcmeOp}

theorem Sound.backed_exec (h : Sound lib s) (hd : Due o s) :
    ∀ order∈((logged (acmeStore lib)).exec s o).2.state.orders,
      List.Forall₂ (Backs ((logged (acmeStore lib)).exec s o).2 order.id) order.identifiers order.authorizations := by
  intro order ho
  have hl {orderId names ids} (hb : List.Forall₂ (Backs s orderId) names ids) :
      List.Forall₂ (Backs ((logged (acmeStore lib)).exec s o).2 orderId) names ids :=
    hb.imp fun _ _ hba => hba.later (moves_exec s o)
  rcases order_exec ho with hol | rfl | ⟨old,hol,status,certId,rfl,rfl⟩
  · exact hl (h.backed order hol)
  · exact hl hd.2
  · exact hl (h.backed old hol)

theorem Sound.valid_exec (h : Sound lib s) (hd : Due o s) :
    ∀ a∈((logged (acmeStore lib)).exec s o).2.state.authorizations,a.status=.valid →
      BecameValid ((logged (acmeStore lib)).exec s o).2 a.id := by
  intro a ha hv
  rcases authz_exec ha with ho | rfl | ⟨old,ho,status,rfl,rfl⟩
  · exact (h.valid a ho hv).later (moves_exec s o)
  · rw [show a.status=.pending from hd] at hv
    cases hv
  · cases hv
    exact mem_cons_self

theorem Sound.granted_exec (h : Sound lib s) (hd : Due o s) :
    ∀ order∈((logged (acmeStore lib)).exec s o).2.state.orders,order.status ≠ .pending →
      Granted ((logged (acmeStore lib)).exec s o).2 order := by
  intro order ho hs
  rcases order_exec ho with hol | rfl | ⟨old,hol,status,certId,rfl,rfl⟩
  · exact (h.granted order hol hs).later (moves_exec s o)
  · exact absurd hd.1 hs
  · have hg : Granted s old := hd old hol rfl
    exact hg.later (moves_exec s _)

theorem Sound.found_exec (h : Sound lib s) {id : Text} {order : AcmeOrder}
    (he : ⟨.getOrder id,some order⟩∈((logged (acmeStore lib)).exec s o).2.log) :
    (∃ later∈((logged (acmeStore lib)).exec s o).2.state.orders,orderTerms later=orderTerms order) ∧
      (order.status ≠ .pending → Granted ((logged (acmeStore lib)).exec s o).2 order) := by
  rcases mem_cons.mp he with heq | hol
  · cases congrArg Sigma.fst heq
    have hf : s.state.orders.find? (·.id=id)=some order := (eq_of_heq (Sigma.mk.inj heq).2).symm
    have ho := mem_of_find?_eq_some hf
    exact ⟨⟨order,ho,rfl⟩,fun hs => (h.granted order ho hs).later (moves_exec s _)⟩
  · obtain ⟨⟨later,hla,ht⟩,hg⟩ := h.found id order hol
    obtain ⟨last,hl,hl'⟩ := exists_later hla (moves_exec s o)
    exact ⟨⟨last,hl,hl'.trans ht⟩,fun hs => (hg hs).later (moves_exec s o)⟩

theorem Sound.exec (h : Sound lib s) (hd : Due o s) : Sound lib ((logged (acmeStore lib)).exec s o).2 where
  ids := nodup_orders_exec h.ids
  backed := h.backed_exec hd
  valid := h.valid_exec hd
  granted := h.granted_exec hd
  found _ _ := h.found_exec
  certified zone csrPem days names issued he := by
    rcases mem_cons.mp he with heq | ho
    · cases congrArg Sigma.fst heq
      exact Certifiable.later hd (moves_exec s _)
    · exact (h.certified zone csrPem days names issued ho).later (moves_exec s o)
  signed zone csrPem days names issued he := by
    rcases mem_cons.mp he with heq | ho
    · cases congrArg Sigma.fst heq
      exact ⟨_,_,(eq_of_heq (Sigma.mk.inj heq).2).symm⟩
    · exact h.signed zone csrPem days names issued ho

variable (lib) in
def orderRules : Rules (logged (acmeStore lib)).exec where
  rely := Moves
  moves := Moves
  inv := Sound lib
  pre := Due
  rely_refl := Moves.refl
  rely_trans := Moves.trans
  rely_moves h := h
  trans := Moves.trans
  keeps := Sound.exec
  steps {s o} _ _ := moves_exec s o

/-- There is one order to an id, and what it says does not change. -/
theorem Sound.terms_eq {s t : Issuer} {order later : AcmeOrder} (ht : Sound lib t) (hm : Moves s t)
    (ho : order∈s.state.orders)
    (hl : later∈t.state.orders) (hid : later.id=order.id) : orderTerms later=orderTerms order := by
  obtain ⟨other,hot,hte⟩ := exists_later ho hm
  have hother_id := congrArg AcmeOrder.id hte
  have hi : later.id=other.id := hid.trans hother_id.symm
  rw [inj_on_of_nodup_map ht.ids hl hot hi]
  exact hte

end

section
variable {config : AcmeConfig} {s : Issuer} (request : Request) (id : Text) (body : Body)

theorem due_of_mild {o : AcmeOp} (h : mild o) (s : Issuer) : Due o s := by
  cases o <;> first | exact trivial | exact h.elim

theorem reaches_quiet {α : Type} {m : AcmeAttempt α} (h : Quiet lib m) :
    (orderRules lib).Reaches (fun _ _ => True) m s :=
  Attempt.Only.reaches h fun o ho s => due_of_mild (mild_of_quiet o ho) s

/-- The authorizations created stand behind the names, one by one. -/
theorem reaches_createAuthorizations (orderId accountId : Text) (expires : Int) (names : List Text) (s : Issuer) :
    (orderRules lib).Reaches (fun ids t => List.Forall₂ (Backs t orderId) names ids)
      (createAuthorizations orderId accountId expires names) s := by
  induction names generalizing s with
  | nil => exact reaches_pure fun _ _ _ => .nil
  | cons name names ih =>
    refine (reaches_quiet (quiet_randomToken 16)).bind fun authzId t _ _ => ?_
    refine reaches_perform (fun _ _ _ => rfl) fun u _ _ _ => reaches_require fun hc => ?_
    have hb : Backs ((logged (acmeStore lib)).exec u (.createAuthorization ⟨authzId,orderId,accountId,name,
      .pending,expires⟩)).2
        orderId name authzId := ⟨_,mem_of_insertRow hc,rfl,rfl,rfl⟩
    refine (reaches_quiet (quiet_randomToken 16)).bind fun _ v huv _ => ?_
    refine (reaches_quiet (quiet_randomToken 32)).bind fun _ w hvw _ => ?_
    refine reaches_step (fun _ => trivial) fun x hwx _ _ => reaches_require fun _ => ?_
    refine (ih _).bind fun ids y hxy hi => reaches_pure fun z hyz _ => ?_
    have hx := hb.later ((huv.trans hvw).trans hwx)
    have hy := hx.later ((moves_exec x _).trans hxy)
    exact .cons (hy.later hyz) (hi.imp fun _ _ hba => hba.later hyz)

theorem reaches_newOrderInner : (orderRules lib).Reaches (fun _ _ => True) (newOrderInner lib config body) s := by
  refine (reaches_quiet (quiet_accountRequest _ _ _)).bind fun ⟨payload,account⟩ t _ _ => ?_
  refine reaches_ofExcept fun identifiers _ => reaches_require fun _ => ?_
  refine (reaches_quiet (quiet_issuableNames _ _)).bind fun names u _ _ => ?_
  refine reaches_step (fun _ => trivial) fun v _ _ _ => ?_
  refine (reaches_quiet (quiet_randomToken 16)).bind fun orderId w _ _ => ?_
  refine (reaches_createAuthorizations orderId account.accountId _ names w).bind fun ids x _ hb => ?_
  refine reaches_perform (fun y hxy _ => ?_) fun _ _ _ _ => reaches_require fun _ => reaches_pure fun _ _ _ => trivial
  exact ⟨rfl,hb.imp fun _ _ hba => hba.later hxy⟩

theorem reaches_allValid (ids : List Text) (s : Issuer) :
    (orderRules lib).Reaches (fun all t => all=true → ∀ id∈ids,BecameValid t id) (allValid ids) s := by
  induction ids generalizing s with
  | nil =>
    refine reaches_pure fun _ _ _ _ id hid => ?_
    cases hid
  | cons id ids ih =>
    refine reaches_step (fun _ => trivial) fun t _ _ ht => ?_
    split_ifs with ha
    · obtain ⟨authz,hf,hv⟩ := (Option.any_eq_true _ _).mp ha
      have hb := ht.valid authz (mem_of_find?_eq_some hf) (of_decide_eq_true hv)
      rw [key_of_find? hf] at hb
      refine (ih _).mono fun all u htu hal htr => ?_
      exact forall_mem_cons.mpr ⟨hb.later htu,hal htr⟩
    · exact reaches_pure fun _ _ _ hfa => absurd hfa Bool.false_ne_true

theorem Granted.of_id {t : Issuer} {order : AcmeOrder} {id : Text} (ht : Sound lib t) (hm : Moves s t)
    (ho : order∈s.state.orders) (hid : order.id=id) (hg : Granted t order) :
    ∀ later∈t.state.orders,later.id=id → Granted t later := by
  intro later hl heq
  have hte := ht.terms_eq hm ho hl (heq.trans hid.symm)
  intro i hi
  rw [authorizations_eq hte] at hi
  exact hg i hi

theorem reaches_maybeAdvanceOrder (orderId : Text) :
    (orderRules lib).Reaches (fun _ _ => True) (maybeAdvanceOrder orderId) s := by
  refine reaches_step (fun _ => trivial) fun t _ _ _ => ?_
  split
  · exact reaches_pure fun _ _ _ => trivial
  · rename_i order hf
    have ho := mem_of_find?_eq_some hf
    refine (reaches_allValid order.authorizations _).bind fun all u htu ha => ?_
    split_ifs with hr
    · refine reaches_performed fun v huv hv => ?_
      have hm : Moves t v := (moves_exec t _).trans (htu.trans huv)
      exact Granted.of_id hv hm ho (key_of_find? hf) fun i hi => (ha hr.1 i hi).later huv
    · exact reaches_pure fun _ _ _ => trivial

theorem reaches_respondChallengeInner :
    (orderRules lib).Reaches (fun _ _ => True) (respondChallengeInner lib config id body) s := by
  refine (reaches_quiet (quiet_accountRequest _ _ _)).bind fun ⟨_,account⟩ _ _ _ => ?_
  refine reaches_step (fun _ => trivial) fun _ _ _ _ => reaches_ofExcept fun challenge _ => ?_
  refine reaches_step (fun _ => trivial) fun _ _ _ _ => reaches_ofExcept fun authz _ => reaches_require fun _ => ?_
  refine reaches_step (fun _ => trivial) fun _ _ _ _ => reaches_require fun _ => ?_
  refine reaches_step (fun _ => trivial) fun _ _ _ _ => reaches_step (fun _ => trivial) fun _ _ _ _ => ?_
  split
  · refine reaches_step (fun _ => trivial) fun _ _ _ _ => reaches_step (fun _ => trivial) fun _ _ _ _ => ?_
    exact (reaches_maybeAdvanceOrder authz.orderId).bind fun _ t _ _ => reaches_quiet (quiet_showChallenge _ _)
  · refine reaches_step (fun _ => trivial) fun _ _ _ _ => reaches_step (fun _ => trivial) fun _ _ _ _ => ?_
    exact reaches_quiet (quiet_showChallenge _ _)

theorem reaches_finalizeInner :
    (orderRules lib).Reaches (fun _ _ => True) (finalizeInner lib config id body) s := by
  refine (reaches_quiet (quiet_accountRequest _ _ _)).bind fun ⟨payload,account⟩ _ _ _ => ?_
  refine reaches_step (fun _ => trivial) fun t _ ht _ => reaches_ofExcept fun order hf => ?_
  have ho : order∈t.state.orders := mem_of_find?_eq_some (okOr_eq_ok hf)
  refine reaches_require fun _ => reaches_require fun hr => ?_
  have hg : Granted t order := ht.granted order ho (by rw [hr]; exact AcmeStatus.noConfusion)
  refine reaches_step (fun _ => trivial) fun u htu _ _ => reaches_require fun _ => ?_
  refine reaches_ofExcept fun csr _ => reaches_ofExcept fun csrDer _ => reaches_ofExcept fun primary _ => ?_
  refine (reaches_quiet (quiet_issuingZones _ _)).bind fun zones v huv _ => ?_
  have hv : Moves t v := (moves_exec t _).trans (htu.trans ((moves_exec u _).trans huv))
  refine reaches_perform (fun w hvw _ => ?_) fun w hvw _ _ => reaches_ofExcept fun issued _ => ?_
  · have he : ⟨.getOrder order.id,some order⟩∈((logged (acmeStore lib)).exec t (.getOrder id)).2.log := by
      rw [key_of_find? (okOr_eq_ok hf),← okOr_eq_ok hf]
      exact mem_cons_self
    have hl : Moves ((logged (acmeStore lib)).exec t (.getOrder id)).2 w :=
      htu.trans (((moves_exec u _).trans huv).trans hvw)
    exact Certifiable.later ⟨order,⟨he,hr⟩,rfl⟩ hl
  refine reaches_step (fun _ => trivial) fun x hwx _ _ => ?_
  refine (reaches_quiet (quiet_publishDane _ _)).bind fun _ y hxy _ => ?_
  have hy : Moves t y := (hv.trans hvw).trans ((moves_exec w _).trans (hwx.trans ((moves_exec x _).trans hxy)))
  refine reaches_perform (fun z hyz hz => ?_) fun _ _ _ _ => ?_
  · exact Granted.of_id hz (hy.trans hyz) ho rfl (hg.later (hy.trans hyz))
  exact reaches_step (fun _ => trivial) fun _ _ _ _ => reaches_ofExcept fun _ _ => reaches_pure fun _ _ _ => trivial

theorem safe_attachNonce (answer : Except AcmeError Response) (s : Issuer) :
    (orderRules lib).Safe (fun _ _ => True) (attachNonce answer) s :=
  safe_of_sat (fun _ _ _ _ => trivial) (fun o ho s _ => ⟨due_of_mild (mild_of_quiet o ho) s,trivial⟩)
    (fun _ _ => trivial) (quiet_attachNonce lib answer) trivial

theorem reaches_respond : (orderRules lib).Reaches (fun _ _ => True) (respond lib config request) s := by
  cases request with
  | newAccount body => exact Attempt.Only.reaches (mild_newAccountInner body) fun _ ho s => due_of_mild ho s
  | newOrder body => exact reaches_newOrderInner body
  | respondChallenge id body => exact reaches_respondChallengeInner id body
  | finalize id body => exact reaches_finalizeInner id body

theorem safe_handle (s : Issuer) : (orderRules lib).Safe (fun _ _ => True) (handle lib config request) s :=
  Rules.Safe.bind (reaches_respond request) fun answer t _ _ => safe_attachNonce answer t

end

section
variable (lib : AcmeLibrary)

/-- What goes on around the issuer: accounts are made, records and authorities change, nonces are issued,
time passes. -/
def outside : AcmeOp → Bool
  | .createAcmeAccount _ | .storeNonce _ | .storeZoneCa _ _ | .addRecord _ | .removeRecords _ _ _ | .passTime _ => true
  | _ => false

theorem mild_of_outside {o : AcmeOp} (h : outside o=true) : mild o := by
  cases o <;> first | exact trivial | cases h

def acmePrograms : Set (AcmeProg Answer) :=
  { p | (∃ config request,p=handle lib config request) ∨
    ∃ o answer,outside o=true ∧ p=(AcmeProg.perform o >>= fun _ => pure answer) }

variable {lib} {s : AcmeStore}

theorem safe_acmePrograms {p : AcmeProg Answer} (hp : p∈acmePrograms lib) (s : Issuer) :
    (orderRules lib).Safe (fun _ _ => True) p s := by
  rcases hp with ⟨config,request,rfl⟩ | ⟨o,answer,ho,rfl⟩
  · exact safe_handle request s
  · exact safe_perform (fun t _ _ => due_of_mild (mild_of_outside ho) t) fun _ _ _ _ => safe_pure fun _ _ _ => trivial

theorem sound_init (ho : s.orders=[]) (ha : s.authorizations=[]) : Sound lib ⟨s,[]⟩ where
  ids := by simp [ho]
  backed := by simp [ho]
  valid := by simp [ha]
  granted := by simp [ho]
  found _ _ he := nomatch he
  certified _ _ _ _ _ he := nomatch he
  signed _ _ _ _ _ he := nomatch he

theorem sound_of_run (ho : s.orders=[]) (ha : s.authorizations=[]) {P : Pool Issuer AcmeOp AcmeRes Answer}
    (hr : Run (logged (acmeStore lib)) (acmePrograms lib) (fun _ _ => True) ⟨⟨s,[]⟩,[]⟩ P) : Sound lib P.state := by
  have hs : (orderRules lib).Holds (⟨⟨s,[]⟩,[]⟩ : Pool Issuer AcmeOp AcmeRes Answer) :=
    ⟨sound_init ho ha,fun p hp => nomatch hp⟩
  exact (hs.run (fun _ _ h => h) (fun p hp => safe_acmePrograms hp) hr).state

/-- The identity is one of the order's names, and an authorization of the order for that name became valid. -/
def Validated (lib : AcmeLibrary) (s : Issuer) (order : AcmeOrder) (identity : Identity) : Prop :=
  ∃ a∈s.state.authorizations,a.id∈order.authorizations ∧ a.orderId=order.id ∧ a.identifier∈order.identifiers ∧
    identity.Is lib.toLowercase a.identifier ∧ BecameValid s a.id

theorem exists_backs {s : Issuer} {orderId name : Text} {names ids : List Text}
    (h : List.Forall₂ (Backs s orderId) names ids) (hn : name∈names) : ∃ id∈ids,Backs s orderId name id := by
  induction h with
  | nil => cases hn
  | cons hb _ ih =>
    rcases mem_cons.mp hn with rfl | hn
    · exact ⟨_,mem_cons_self,hb⟩
    · obtain ⟨id,hid,hb⟩ := ih hn
      exact ⟨id,mem_cons_of_mem _ hid,hb⟩

/-- Of an order that was ready the names are exactly what is validated. -/
theorem validated_iff {s : Issuer} {order : AcmeOrder} {identity : Identity} (h : Sound lib s)
    (hr : FoundReady s order) :
    Validated lib s order identity ↔ ∃ name∈order.identifiers,identity.Is lib.toLowercase name := by
  obtain ⟨⟨later,hl,ht⟩,hg⟩ := h.found _ _ hr.1
  have hg := hg (by rw [hr.2]; exact AcmeStatus.noConfusion)
  have hid := congrArg AcmeOrder.id ht
  have hb : List.Forall₂ (Backs s order.id) order.identifiers order.authorizations := by
    rw [← identifiers_eq ht,← authorizations_eq ht,← show later.id=order.id from hid]
    exact h.backed later hl
  constructor
  · rintro ⟨a,-,-,-,hn,his,-⟩
    exact ⟨a.identifier,hn,his⟩
  · rintro ⟨name,hn,his⟩
    obtain ⟨id,hid,a,ha,rfl,ho,rfl⟩ := exists_backs hb hn
    exact ⟨a,ha,hid,ho,hn,his,hg _ hid⟩

/-- Every certificate is issued for the names of an order that was found ready. Of each such order the
authorizations all became valid, and all that the certificate says about its subject was validated for it
exactly if the request is confined to what is compared. -/
theorem issued_identities_iff (hcopies : lib.rcgen.Copies) {s : AcmeStore} (horders : s.orders=[])
    (hauthz : s.authorizations=[]) {P : Pool Issuer AcmeOp AcmeRes Answer}
    (hrun : Run (logged (acmeStore lib)) (acmePrograms lib) (fun _ _ => True) ⟨⟨s,[]⟩,[]⟩ P)
    {zone csrPem : Text} {days : Int} {names : List Text} {issued : IssuedLeaf}
    (hissued : ⟨.issueLeaf zone csrPem days names,.ok issued⟩∈P.state.log) :
    Certifiable P.state names ∧ ∃ csr content,lib.rcgen.fromPem csrPem=some csr ∧
      lib.rcgen.content issued.leafPem=some content ∧
      ∀ order,FoundReady P.state order → order.identifiers=names →
        (∃ later∈P.state.state.orders,orderTerms later=orderTerms order) ∧ Granted P.state order ∧
          ((∀ identity∈content.identities,Validated lib P.state order identity) ↔
            csr.Confined lib.toLowercase order.identifiers) := by
  have hs := sound_of_run horders hauthz hrun
  obtain ⟨zoneCa,now,hsi⟩ := hs.signed _ _ _ _ _ hissued
  obtain ⟨csr,content,hcs,hch,hc,hi⟩ := issueLeaf_eq_ok hcopies hsi
  refine ⟨hs.certified _ _ _ _ _ hissued,csr,content,hcs,hc,fun order hr hn => ?_⟩
  subst hn
  obtain ⟨hl,hg⟩ := hs.found _ _ hr.1
  refine ⟨hl,hg (by rw [hr.2]; exact AcmeStatus.noConfusion),?_⟩
  rw [hi,← identities_iff_confined lib.toLowercase hch]
  exact forall₂_congr fun _ _ => validated_iff hs hr

end

section

variable (csr : CertificateParams)

def labLibrary : AcmeLibrary where
  toLowercase s := s.map Char.toLower
  rcgen :=
    { fromPem := fun _ => some csr
      materializeIssuer := fun _ => .ok ()
      validityOverflows := fun _ => false
      signedBy := fun params _ => if params={ csr with notBefore := -60, notAfter := 7776000 } then
        some "leaf" else none
      content := fun _ => some { csr with notBefore := -60, notAfter := 7776000 } }
  dns01TxtValue := id
  jwkThumbprint := .ok
  decodeBase64Url _ := .ok []
  derToPem label _ := label
  signIntermediate root _ _ := .ok root
  generateTlsaRecord := .ok

theorem copies_lab : (labLibrary csr).rcgen.Copies := by
  intro params ca pem h
  have hp : params={ csr with notBefore := -60, notAfter := 7776000 } := by
    by_contra hne
    have hn : (labLibrary csr).rcgen.signedBy params ca=none := if_neg hne
    rw [hn] at h
    cases h
  exact congrArg some hp.symm

def labAccount : AcmeAccount := ⟨"a","k","t",none,.valid,none,some "lab."⟩

def labIssuer : AcmeStore where
  clock := 0
  entropy n := some (TextFields.decimal n)
  accounts := [labAccount]
  eabs := []
  nonces := [⟨"x",0⟩,⟨"y",0⟩,⟨"z",0⟩]
  orders := []
  authorizations := []
  challenges := []
  certificates := []
  rootCa := none
  zoneCas := [("lab.",⟨"ca","key"⟩)]
  records := [⟨"_acme-challenge.nas.lab.",.TXT,"3.t",60,0⟩]

def labConfig : AcmeConfig := ⟨[],false,false,90,[]⟩

def labBody (url nonce : String) (payload : Payload) : Body :=
  .ok ⟨some url.toList,some nonce.toList,none,some "account/a",fun _ => .ok (),.ok payload⟩

def labRequests : List Request :=
  [.newOrder (labBody "/new-order" "x" { identifiers := some [⟨some "dns",some "nas.lab"⟩] }),
    .respondChallenge "2" (labBody "/challenge/2" "y" {}),
    .finalize "0" (labBody "/finalize/0" "z" { csr := some [] })]

def labAfter : Issuer :=
  labRequests.foldl (fun s request =>
    ((logged (acmeStore (labLibrary csr))).runAlone (handle (labLibrary csr) labConfig request) s).2)
    ⟨labIssuer,[]⟩

theorem run_requests {lib : AcmeLibrary} {config : AcmeConfig} (requests : List Request) (s : Issuer) :
    Run (logged (acmeStore lib)) (acmePrograms lib) (fun _ _ => True) ⟨s,[]⟩
      ⟨requests.foldl (fun s request => ((logged (acmeStore lib)).runAlone (handle lib config request) s).2) s,[]⟩ := by
  induction requests generalizing s with
  | nil => exact .refl
  | cons request requests ih =>
    have hm : handle lib config request∈acmePrograms lib := .inl ⟨config,request,rfl⟩
    exact (run_runAlone hm (permits_always (fun _ _ => rfl) _ _)).trans (ih _)

theorem run_lab :
    Run (logged (acmeStore (labLibrary csr))) (acmePrograms (labLibrary csr)) (fun _ _ => True) ⟨⟨labIssuer,[]⟩,[]⟩
      ⟨labAfter csr,[]⟩ :=
  run_requests labRequests _

def issuance : ((o : AcmeOp) × AcmeRes o) → Option (Text × Text × Int × List Text × IssuedLeaf)
  | ⟨.issueLeaf zone csrPem days names,.ok issued⟩ => some (zone,csrPem,days,names,issued)
  | _ => none

theorem mem_log_of_issuance {log : List ((o : AcmeOp) × AcmeRes o)} {zone csrPem : Text} {days : Int}
    {names : List Text} {issued : IssuedLeaf} (h : (zone,csrPem,days,names,issued)∈log.filterMap issuance) :
    ⟨.issueLeaf zone csrPem days names,.ok issued⟩∈log := by
  obtain ⟨event,he,heq⟩ := mem_filterMap.mp h
  unfold issuance at heq
  split at heq
  · cases heq
    exact he
  · cases heq

def labLeaf : IssuedLeaf := ⟨"leaf","leafca",7776000⟩

def labCsr : CertificateParams := ⟨[.dnsName "NAS.lab."],[(.commonName,.utf8String "nas.lab")],0,0⟩

theorem issued_identities_lab :
    Certifiable (labAfter labCsr) ["nas.lab".toList] ∧
      ∃ csr content,(labLibrary labCsr).rcgen.fromPem "CERTIFICATE REQUEST".toList=some csr ∧
        (labLibrary labCsr).rcgen.content labLeaf.leafPem=some content ∧
        ∀ order,FoundReady (labAfter labCsr) order → order.identifiers=["nas.lab".toList] →
          (∃ later∈(labAfter labCsr).state.orders,orderTerms later=orderTerms order) ∧ Granted (labAfter labCsr) order ∧
            ((∀ identity∈content.identities,Validated (labLibrary labCsr) (labAfter labCsr) order identity) ↔
              csr.Confined (labLibrary labCsr).toLowercase order.identifiers) := by
  have hi : ("lab.".toList, "CERTIFICATE REQUEST".toList,90,["nas.lab".toList],labLeaf) ∈
      (labAfter labCsr).log.filterMap issuance := by decide +kernel
  exact issued_identities_iff (copies_lab labCsr) rfl rfl (run_lab labCsr) (mem_log_of_issuance hi)

/-- The same request, with an address beside the name. -/
def strayCsr : CertificateParams := { labCsr with subjectAltNames := [.dnsName "nas.lab",.ipAddress (.v4 0x0a000001)] }

/-- A certificate is issued for an address that was never validated. -/
theorem unvalidated_identity_issued :
    ∃ P : Pool Issuer AcmeOp AcmeRes Answer,
      Run (logged (acmeStore (labLibrary strayCsr))) (acmePrograms (labLibrary strayCsr)) (fun _ _ => True)
        ⟨⟨labIssuer,[]⟩,[]⟩ P ∧
      ⟨.issueLeaf "lab." "CERTIFICATE REQUEST" 90 ["nas.lab"],.ok labLeaf⟩∈P.state.log ∧
      ∃ content,(labLibrary strayCsr).rcgen.content labLeaf.leafPem=some content ∧
        ∃ identity∈content.identities,∀ order,¬ Validated (labLibrary strayCsr) P.state order identity := by
  have hi : ("lab.".toList, "CERTIFICATE REQUEST".toList,90,["nas.lab".toList],labLeaf) ∈
      (labAfter strayCsr).log.filterMap issuance := by decide +kernel
  refine ⟨⟨labAfter strayCsr,[]⟩,run_lab strayCsr,mem_log_of_issuance hi,_,rfl,
    .altName (.ipAddress (.v4 0x0a000001)),?_,?_⟩
  · simp [CertificateParams.identities,strayCsr]
  · rintro order ⟨a,-,-,-,-,his,-⟩
    exact his

end

end RolodexDns.AcmeOrders
