import RolodexDns.ProgramTraces
import RolodexDns.TaskPools

/-! Contracts that look back. What a program may do next can depend on everything it did before, with
the results it got. -/
namespace RolodexDns.HistoryContracts
open ProgramTrees ProgramTraces List

variable {Op : Type} {Res : Op → Type} {α β : Type}

/-- What a routine may do after a history, what its operations can give, and what its own state has to
do with the history. -/
structure Discipline (σ : Type) (Op : Type) (Res : Op → Type) where
  allows : List ((o : Op) × Res o) → Op → Prop
  promises : (o : Op) → Res o → Prop
  inv : List ((o : Op) × Res o) → σ → Prop

/-- After `past`, the program does only what is allowed and ends in `Q`. -/
def Keeps {σ : Type} (D : Discipline σ Op Res) :
    List ((o : Op) × Res o) → Prog Op Res α → (List ((o : Op) × Res o) → α → Prop) → Prop
  | past, .pure a, Q => Q past a
  | past, .op o next, Q => D.allows past o ∧ ∀ r,D.promises o r → Keeps D (past++[⟨o,r⟩]) (next r) Q

section
variable {σ : Type} {D : Discipline σ Op Res} {past : List ((o : Op) × Res o)} {p : Prog Op Res α}
  {f : α → Prog Op Res β}
  {Q Q' : List ((o : Op) × Res o) → α → Prop} {R : List ((o : Op) × Res o) → β → Prop}

theorem Keeps.mono (h : Keeps D past p Q) (hi : ∀ now a,past⊆now → Q now a → Q' now a) : Keeps D past p Q' := by
  induction p generalizing past with
  | pure a => exact hi past a (List.Subset.refl _) h
  | op o next ih =>
    exact ⟨h.1,fun r hr => ih r (h.2 r hr) fun now a hs => hi now a (List.Subset.trans (subset_append_left _ _) hs)⟩

theorem Keeps.bind (h : Keeps D past p Q) (hf : ∀ now a,past⊆now → Q now a → Keeps D now (f a) R) :
    Keeps D past (p.bind f) R := by
  induction p generalizing past with
  | pure a => exact hf past a (List.Subset.refl _) h
  | op o next ih =>
    exact ⟨h.1,fun r hr => ih r (h.2 r hr) fun now a hs => hf now a (List.Subset.trans (subset_append_left _ _) hs)⟩

/-- A program that keeps demands which are always allowed adds only such operations. -/
theorem keeps_of_sat {C : Contract Op Res} {P : α → Prop} (hp : p.Sat C P)
    (hal : ∀ now o,C.demands o → D.allows now o) (hpr : ∀ o r,D.promises o r → C.promises o r) :
    Keeps D past p fun now a => (∃ new,now=past++new ∧ ∀ e∈new,C.demands e.1) ∧ P a := by
  induction p generalizing past with
  | pure a => exact ⟨⟨[],(append_nil _).symm,forall_mem_nil _⟩,hp⟩
  | op o next ih =>
    refine ⟨hal past o hp.1,fun r hr => (ih r (hp.2 r (hpr o r hr))).mono fun now a _ h => ?_⟩
    obtain ⟨⟨new,rfl,hn⟩,ha⟩ := h
    exact ⟨⟨⟨o,r⟩::new,by simp,forall_mem_cons.mpr ⟨hp.1,hn⟩⟩,ha⟩

/-- What a program may do after any history it may do at all. -/
theorem Keeps.sat {demands : Op → Prop} (h : Keeps D past p Q) (ha : ∀ now o,D.allows now o → demands o)
    (hp : ∀ o r,D.promises o r) : p.Only demands := by
  induction p generalizing past with
  | pure a => trivial
  | op o next ih => exact ⟨ha past o h.1,fun r _ => ih r (h.2 r (hp o r))⟩

theorem Keeps.of_yields {log : List ((o : Op) × Res o)} {a : α} (hp : Keeps D past p Q) (h : Yields p log a)
    (hl : ∀ e∈log,D.promises e.1 e.2) :
    (∀ before e after,log=before++e::after → D.allows (past++before) e.1) ∧ Q (past++log) a := by
  induction h generalizing past with
  | pure a =>
    refine ⟨fun before e after hs => ?_,by rw [append_nil]; exact hp⟩
    exact absurd hs (by simp)
  | @op o next log a r _ ih =>
    obtain ⟨hf,hr⟩ := forall_mem_cons.mp hl
    obtain ⟨ha,hQ⟩ := ih (hp.2 r hf) hr
    refine ⟨fun before e after hs => ?_,by rw [append_cons]; exact hQ⟩
    cases before with
    | nil =>
      obtain ⟨rfl,-⟩ := cons.inj hs
      rw [append_nil]
      exact hp.1
    | cons e' before =>
      obtain ⟨rfl,ht⟩ := cons.inj hs
      rw [append_cons]
      exact ha before e after ht

/-- While `J` holds of the history the program may do what it does; what it adds is one of its traces. -/
theorem keeps_while {J : List ((o : Op) × Res o) → Prop} {demands : Op → Prop}
    (hp : p.Only demands) (hpa : J past)
    (hJ : ∀ now o,J now → demands o → D.allows now o ∧ ∀ r,J (now++[⟨o,r⟩])) :
    Keeps D past p fun now a => ∃ new,now=past++new ∧ Yields p new a ∧ ∀ e∈new,demands e.1 := by
  induction p generalizing past with
  | pure a => exact ⟨[],(append_nil _).symm,.pure a,forall_mem_nil _⟩
  | op o next ih =>
    obtain ⟨ha,hn⟩ := hJ past o hpa hp.1
    refine ⟨ha,fun r _ => (ih r (hp.2 r trivial) (hn r)).mono fun now a _ h => ?_⟩
    obtain ⟨new,rfl,hne,hd⟩ := h
    exact ⟨⟨o,r⟩::new,by simp,.op r hne,forall_mem_cons.mpr ⟨hp.1,hd⟩⟩

theorem keeps_yields (hp : p.Only (fun o => ∀ now,D.allows now o)) :
    Keeps D past p fun now a => ∃ new,now=past++new ∧ Yields p new a := by
  refine (keeps_while (J := fun _ => True) hp trivial fun now o _ ho => ⟨ho now,fun _ => trivial⟩).mono
    fun now a _ h => ?_
  obtain ⟨new,hn,hne,-⟩ := h
  exact ⟨new,hn,hne⟩

/-- A program is carried out as it may be if each of its operations is, whatever came before. -/
theorem keeps_expand {Op' : Type} {Res' : Op' → Type} {demands : Op' → Prop} {f : (o : Op') → Prog Op Res (Res' o)}
    {p : Prog Op' Res' α}
    (hp : p.Only demands) (hf : ∀ o,demands o → ∀ past,Keeps D past (f o) fun _ _ => True)
    (past : List ((o : Op) × Res o)) : Keeps D past (expand f p) fun _ _ => True := by
  induction p generalizing past with
  | pure a => exact trivial
  | op o next ih => exact (hf o hp.1 past).bind fun now r _ _ => ih r (hp.2 r trivial) now

end

section
open TaskPools

variable {W J σ : Type} {S : System W Op Res J α} {D : J → Discipline σ Op Res}
  {Q : J → List ((o : Op) × Res o) → α → Prop} {w : W} {P P' : Pool W Op Res J α}

/-- Everything in the log was allowed after a part of what came before it, and every task will do only
what is allowed after a part of the log. -/
structure OnCourse (D : J → Discipline σ Op Res) (Q : J → List ((o : Op) × Res o) → α → Prop)
    (P : Pool W Op Res J α) : Prop where
  tasks : ∀ t∈P.tasks,∃ past,(∀ e∈past,.performed e.1 e.2∈P.log) ∧ Keeps (D t.1) past t.2 (Q t.1)
  allowed : ∀ before (o : Op) (r : Res o) after,P.log=before++.performed o r::after →
    ∃ job past,(D job).allows past o ∧ ∀ e∈past,.performed e.1 e.2∈before

/-- What happens without an operation leaves everything on course. -/
theorem OnCourse.quiet {w' : W} {tasks : List (J × Prog Op Res α)} {new : List (Event Op Res J α)} (h : OnCourse D Q P)
    (hta : ∀ t∈tasks,t∈P.tasks ∨ Keeps (D t.1) [] t.2 (Q t.1))
    (hn : ∀ (o : Op) (r : Res o),.performed o r∉new) : OnCourse D Q ⟨w',tasks,P.log++new⟩ := by
  refine ⟨fun t ht => ?_,fun before o r after hs => ?_⟩
  · rcases hta t ht with ht | hk
    · obtain ⟨past,hp,hk⟩ := h.tasks t ht
      exact ⟨past,fun e he => mem_append_left _ (hp e he),hk⟩
    · exact ⟨[],forall_mem_nil _,hk⟩
  · rcases append_eq_append_iff.mp hs with ⟨extra,-,heq⟩ | ⟨extra,heq,hr⟩
    · exact absurd (heq ▸ mem_append_right extra mem_cons_self) (hn o r)
    · cases extra with
      | nil =>
        rw [nil_append] at hr
        exact absurd (hr ▸ mem_cons_self) (hn o r)
      | cons e extra =>
        obtain ⟨rfl,-⟩ := cons.inj hr
        exact h.allowed before o r extra heq

theorem Step.onCourse (hj : ∀ job,Keeps (D job) [] (S.program job) (Q job))
    (hac : ∀ job w o r w',S.acts w o r w' → (D job).promises o r) (hst : Step S P P') (h : OnCourse D Q P) :
    OnCourse D Q P' := by
  cases hst with
  | start w tasks log job =>
    refine h.quiet (fun t ht => ?_) (by simp)
    rcases mem_cons.mp ht with rfl | ht
    · exact .inr (hj job)
    · exact .inl ht
  | @act w w' o r before after log job next hat =>
    obtain ⟨past,hp,ha,hn⟩ := h.tasks (job,.op o next) (by simp)
    refine ⟨fun t ht => ?_,fun front o' r' back hs => ?_⟩
    · have ho (ht : t∈before++after) : ∃ past,(∀ e∈past,.performed e.1 e.2∈log++[.performed o r]) ∧
        Keeps (D t.1) past t.2 (Q t.1) := by
        obtain ⟨past,hp,hk⟩ := h.tasks t (by rcases mem_append.mp ht with ht | ht <;> simp [ht])
        exact ⟨past,fun e he => mem_append_left _ (hp e he),hk⟩
      rcases mem_append.mp ht with ht | ht
      · exact ho (mem_append_left _ ht)
      · rcases mem_cons.mp ht with rfl | ht
        · refine ⟨past++[⟨o,r⟩],fun e he => ?_,hn r (hac job w o r w' hat)⟩
          rcases mem_append.mp he with he | he
          · exact mem_append_left _ (hp e he)
          · rw [mem_singleton.mp he]
            exact mem_concat_self
        · exact ho (mem_append_right _ ht)
    · rcases eq_nil_or_concat back with rfl | ⟨back,last,rfl⟩
      · obtain ⟨rfl,heq⟩ := append_inj' hs rfl
        cases heq
        exact ⟨job,past,ha,hp⟩
      · rw [concat_eq_append,← cons_append,← append_assoc] at hs
        exact h.allowed front o' r' back (append_inj' hs rfl).1
  | finish w before after log job a =>
      exact h.quiet (fun t ht => .inl (by rcases mem_append.mp ht with ht | ht <;> simp [ht])) (by simp)
  | abandon w before after log task =>
    rw [← append_nil log]
    exact h.quiet (fun t ht => .inl (by rcases mem_append.mp ht with ht | ht <;> simp [ht])) (by simp)
  | drift tasks log hd =>
    rw [← append_nil log]
    exact h.quiet (fun t ht => .inl ht) (by simp)

/-- In every run of jobs that keep to their disciplines, what is done was allowed by what came before. -/
theorem Run.onCourse (hj : ∀ job,Keeps (D job) [] (S.program job) (Q job))
    (ha : ∀ job w o r w',S.acts w o r w' → (D job).promises o r) (hr : Run S (.initial w) P) : OnCourse D Q P := by
  induction hr with
  | refl => exact ⟨forall_mem_nil _,fun before o r after hs => absurd hs (by simp [Pool.initial])⟩
  | tail _ hst ih => exact Step.onCourse hj ha hst ih

end

/-- The operation may be performed after `past`, whatever it gives. -/
structure Discipline.Admits {σ : Type} (D : Discipline σ Op Res) (past : List ((o : Op) × Res o)) (o : Op) : Prop where
  allows : D.allows past o
  inv : ∀ s r,D.inv past s → D.inv (past++[⟨o,r⟩]) s

section
variable {ε σ : Type} {D : Discipline σ Op Res} {past : List ((o : Op) × Res o)}

/-- After `past`, the routine keeps to the discipline, and `Q` holds of its value unless it fails. -/
def Obeys (D : Discipline σ Op Res) (past : List ((o : Op) × Res o)) (m : Routine ε σ Op Res α)
    (Q : List ((o : Op) × Res o) → α → Prop) : Prop :=
  ∀ s,D.inv past s → Keeps D past (m s) fun now p => D.inv now p.2 ∧ ∀ a,p.1=.ok a → Q now a

variable {m : Routine ε σ Op Res α} {f : α → Routine ε σ Op Res β} {P Q : List ((o : Op) × Res o) → α → Prop}
  {R : List ((o : Op) × Res o) → β → Prop}

theorem Obeys.mono (h : Obeys D past m P) (hi : ∀ now a,past⊆now → P now a → Q now a) : Obeys D past m Q :=
  fun s hs => (h s hs).mono fun now _ hsu hp => ⟨hp.1,fun a ha => hi now a hsu (hp.2 a ha)⟩

theorem obeys_pure {a : α} (h : Q past a) : Obeys D past (pure a : Routine ε σ Op Res α) Q := by
  intro s hs
  refine ⟨hs,fun b hb => ?_⟩
  cases hb
  exact h

theorem obeys_throw {e : ε} : Obeys D past (throw e : Routine ε σ Op Res α) Q := fun _ hs => ⟨hs,nofun⟩

theorem Obeys.bind (h : Obeys D past m P) (hf : ∀ now a,past⊆now → P now a → Obeys D now (f a) R) :
    Obeys D past (m >>= f) R := by
  intro s hs
  refine Keeps.bind (h s hs) fun now p hsu hp => ?_
  obtain ⟨r,s'⟩ := p
  cases r with
  | error e => exact ⟨hp.1,nofun⟩
  | ok a => exact hf now a hsu (hp.2 a rfl) s' hp.1

theorem obeys_perform {o : Op} {Q : List ((o : Op) × Res o) → Res o → Prop} (h : D.Admits past o)
    (hQ : ∀ r,D.promises o r → Q (past++[⟨o,r⟩]) r) :
    Obeys D past (Routine.perform o : Routine ε σ Op Res (Res o)) Q := by
  intro s hs
  refine ⟨h.allows,fun r hr => ⟨h.inv s r hs,fun a ha => ?_⟩⟩
  cases ha
  exact hQ r hr

/-- A failure that is caught leaves the discipline as it was. -/
theorem Obeys.attempt {Q : List ((o : Op) × Res o) → Except ε α → Prop} (h : Obeys D past m P)
    (hok : ∀ now a,past⊆now → P now a → Q now (.ok a)) (he : ∀ now e,past⊆now → Q now (.error e)) :
    Obeys D past (Routine.attempt m) Q := by
  intro s hs
  refine Keeps.bind (h s hs) fun now p hsu hp => ⟨hp.1,fun a ha => ?_⟩
  obtain ⟨r,s'⟩ := p
  cases ha
  cases r with
  | error e => exact he now e hsu
  | ok a => exact hok now a hsu (hp.2 a rfl)

end

end RolodexDns.HistoryContracts
