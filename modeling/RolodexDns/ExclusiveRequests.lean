import RolodexDns.RelyGuarantee

/-! Requests that run side by side, each with a label that tells what it needs for itself. A request finds what it
needs idle and leaves it idle; between the two it can rely on no other request touching it, as long as no two
requests that need the same thing overlap. -/
namespace RolodexDns.ExclusiveRequests
open ProgramTrees RelyGuarantee List

variable {L σ Op X : Type} {Res : Op → Type} {α : Type}

section

structure Session (L σ Op : Type) (Res : Op → Type) (α : Type) where
  state : σ
  tasks : List (L × Prog Op Res α)

variable (exec : L → σ → (o : Op) → Res o × σ) (program : L → Prog Op Res α)

/-- One step: a request is admitted beside those that are running, performs its next operation, or returns. -/
inductive Advance (admits : List L → L → Prop) : Session L σ Op Res α → Session L σ Op Res α → Prop where
  | call (s tasks) {l : L} (h : admits (tasks.map Prod.fst) l) : Advance admits ⟨s,tasks⟩ ⟨s,(l,program l)::tasks⟩
  | act (s before after) (l : L) (o : Op) (next : Res o → Prog Op Res α) :
    Advance admits ⟨s,before++(l,.op o next)::after⟩ ⟨(exec l s o).2,before++(l,next (exec l s o).1)::after⟩
  | done (s before after) (l : L) (a : α) : Advance admits ⟨s,before++(l,.pure a)::after⟩ ⟨s,before++after⟩

abbrev Course (admits : List L → L → Prop) : Session L σ Op Res α → Session L σ Op Res α → Prop :=
  Relation.ReflTransGen (Advance exec program admits)

/-- What happens next: a request comes in, or one of those that are running moves on. -/
inductive Turn (L : Type) where
  | call (l : L)
  | step (i : Nat)

def play (P : Session L σ Op Res α) : List (Turn L) → Session L σ Op Res α
  | [] => P
  | .call l::turns => play ⟨P.state,(l,program l)::P.tasks⟩ turns
  | .step i::turns =>
    match P.tasks.drop i with
    | [] => play P turns
    | (_,.pure _)::after => play ⟨P.state,P.tasks.take i++after⟩ turns
    | (l,.op o next)::after =>
      play ⟨(exec l P.state o).2,P.tasks.take i++(l,next (exec l P.state o).1)::after⟩ turns

variable {exec program}

/-- Whatever is played can happen, if whatever is called is admitted. -/
theorem course_play {admits : List L → L → Prop} (P : Session L σ Op Res α) (turns : List (Turn L))
    (hc : ∀ l,.call l∈turns → ∀ running,admits running l) :
    Course exec program admits P (play exec program P turns) := by
  induction turns generalizing P with
  | nil => exact .refl
  | cons turn turns ih =>
    have ih (P : Session L σ Op Res α) := ih P fun l hl => hc l (mem_cons_of_mem _ hl)
    cases turn with
    | call l => exact .head (.call P.state P.tasks (hc l mem_cons_self _)) (ih _)
    | step i =>
      have ht := take_append_drop i P.tasks
      rw [play]
      split
      · exact ih P
      · rename_i l a after hd
        rw [hd] at ht
        have hs : Advance exec program admits ⟨P.state,P.tasks.take i++(l,.pure a)::after⟩
            ⟨P.state,P.tasks.take i++after⟩ := .done P.state (P.tasks.take i) after l a
        rw [ht] at hs
        exact .head hs (ih _)
      · rename_i l o next after hd
        rw [hd] at ht
        have hs : Advance exec program admits ⟨P.state,P.tasks.take i++(l,.op o next)::after⟩
            ⟨(exec l P.state o).2,P.tasks.take i++(l,next (exec l P.state o).1)::after⟩ :=
          .act P.state (P.tasks.take i) after l o next
        rw [ht] at hs
        exact .head hs (ih _)

end

section

/-- Nothing that the request needs is needed by one that is running. -/
def Apart (needs : L → X → Prop) (running : List L) (l : L) : Prop := ∀ l'∈running,∀ x,needs l x → ¬ needs l' x

/-- How the state moves, when a thing has not been touched, what it is like when idle, and what an operation of
a request needs in order to touch only what the request needs. -/
structure Custody (exec : L → σ → (o : Op) → Res o × σ) (needs : L → X → Prop) where
  moves : σ → σ → Prop
  same : X → σ → σ → Prop
  idle : X → σ → Prop
  inv : σ → Prop
  pre : L → Op → σ → Prop
  moves_refl : ∀ s,moves s s
  moves_trans : ∀ {s t u},moves s t → moves t u → moves s u
  same_refl : ∀ x s,same x s s
  same_trans : ∀ {x s t u},same x s t → same x t u → same x s u
  idle_same : ∀ {x s t},same x s t → idle x s → idle x t
  keeps : ∀ {l s o},inv s → pre l o s → inv (exec l s o).2
  steps : ∀ {l s o},inv s → pre l o s → moves s (exec l s o).2
  apart : ∀ {l s o x},inv s → pre l o s → ¬ needs l x → same x s (exec l s o).2

variable {exec : L → σ → (o : Op) → Res o × σ} {program : L → Prog Op Res α} {needs : L → X → Prop}
  (C : Custody exec needs) (l : L)

/-- What a request goes by: nothing that it needs is touched meanwhile. -/
def Custody.rules : Rules (exec l) where
  rely s t := C.moves s t ∧ ∀ x,needs l x → C.same x s t
  moves := C.moves
  inv := C.inv
  pre := C.pre l
  rely_refl s := ⟨C.moves_refl s,fun x _ => C.same_refl x s⟩
  rely_trans h h' := ⟨C.moves_trans h.1 h'.1,fun x hx => C.same_trans (h.2 x hx) (h'.2 x hx)⟩
  rely_moves h := h.1
  trans := C.moves_trans
  keeps := C.keeps
  steps := C.steps

/-- The request leaves what it needs idle. -/
abbrev Custody.Returns (p : Prog Op Res α) (s : σ) : Prop :=
  (C.rules l).Safe (fun _ t => ∀ x,needs l x → C.idle x t) p s

structure Custody.Holds (P : Session L σ Op Res α) : Prop where
  state : C.inv P.state
  tasks : ∀ task∈P.tasks,C.Returns task.1 task.2 P.state
  apart : (P.tasks.map Prod.fst).Pairwise fun l l' => ∀ x,needs l x → ¬ needs l' x
  idle : ∀ x,(∀ l∈P.tasks.map Prod.fst,¬ needs l x) → C.idle x P.state

variable {C} {P P' : Session L σ Op Res α} {s : σ} {before after : List (L × Prog Op Res α)} {l : L}

theorem Custody.Holds.call {tasks : List (L × Prog Op Res α)} (h : C.Holds ⟨s,tasks⟩) {l : L}
    (hp : ∀ s,C.inv s → (∀ x,needs l x → C.idle x s) → C.Returns l (program l) s)
    (ha : Apart needs (tasks.map Prod.fst) l) : C.Holds ⟨s,(l,program l)::tasks⟩ := by
  refine ⟨h.state,forall_mem_cons.mpr ⟨hp s h.state fun x hx => ?_,h.tasks⟩,?_,fun x hx => ?_⟩
  · exact h.idle x fun l' hl' => ha l' hl' x hx
  · exact pairwise_cons.mpr ⟨ha,h.apart⟩
  · exact h.idle x fun l' hl' => hx l' (mem_cons_of_mem _ hl')

theorem Custody.Holds.act {o : Op} {next : Res o → Prog Op Res α}
    (h : C.Holds ⟨s,before++(l,.op o next)::after⟩) :
    C.Holds ⟨(exec l s o).2,before++(l,next (exec l s o).1)::after⟩ := by
  obtain ⟨hp,hne⟩ := h.tasks (l,.op o next) (by simp) s ((C.rules l).rely_refl s) h.state
  have ha := h.apart
  simp only [map_append,map_cons,pairwise_append,pairwise_cons] at ha
  obtain ⟨-,⟨haf,-⟩,hb⟩ := ha
  -- to the other requests the operation is one of those that they can rely on
  have ho {task : L × Prog Op Res α} (ht : C.Returns task.1 task.2 s) (hn : ∀ x,needs task.1 x → ¬ needs l x) :
      C.Returns task.1 task.2 (exec l s o).2 :=
    ht.later ⟨C.steps h.state hp,fun x hx => C.apart h.state hp (hn x hx)⟩
  refine ⟨C.keeps h.state hp,fun task ht => ?_,by simpa using h.apart,fun x hx => ?_⟩
  · rcases mem_append.mp ht with ht | ht
    · exact ho (h.tasks task (by simp [ht])) (hb task.1 (mem_map_of_mem ht) l mem_cons_self)
    · rcases mem_cons.mp ht with rfl | ht
      · exact hne
      · exact ho (h.tasks task (by simp [ht])) fun x hx hl => haf task.1 (mem_map_of_mem ht) x hl hx
  · have hx' : ∀ l'∈(before++(l,Prog.op o next)::after).map Prod.fst,¬ needs l' x := by simpa using hx
    exact C.idle_same (C.apart h.state hp (hx' l (by simp))) (h.idle x hx')

theorem Custody.Holds.done {a : α}
    (h : C.Holds ⟨s,before++(l,.pure a)::after⟩) : C.Holds ⟨s,before++after⟩ := by
  have hr := h.tasks (l,.pure a) (by simp) s ((C.rules l).rely_refl s) h.state
  have hs : List.Sublist (before++after) (before++(l,.pure a)::after) := (sublist_cons_self _ _).append_left _
  refine ⟨h.state,fun task ht => h.tasks task (hs.subset ht),h.apart.sublist (hs.map _),fun x hx => ?_⟩
  by_cases hl : needs l x
  · exact hr x hl
  · refine h.idle x fun l' hl' => ?_
    simp only [map_append,map_cons,mem_append,mem_cons] at hl' hx
    rcases hl' with hl' | rfl | hl'
    · exact hx l' (.inl hl')
    · exact hl
    · exact hx l' (.inr hl')

/-- The invariant holds in every state of every course in which no two requests that need the same overlap. -/
theorem Custody.Holds.course (h : C.Holds P)
    (hp : ∀ l s,C.inv s → (∀ x,needs l x → C.idle x s) → C.Returns l (program l) s)
    (hc : Course exec program (Apart needs) P P') : C.Holds P' := by
  induction hc with
  | refl => exact h
  | tail _ hs ih =>
    cases hs with
    | call s tasks ha => exact ih.call (hp _) ha
    | act s before after l o next => exact ih.act
    | done s before after l a => exact ih.done

end

end RolodexDns.ExclusiveRequests
